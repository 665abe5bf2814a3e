import Eslang.Context.Cascade

/-! # Linked processes die together

A bond is made by `link`, `spawnLink` or `spawnLinkNotify`. While its first process has not been destroyed, the
pid of the second is on its list; from the step on that destroys the first, the second is dead (`Tied`). Links
and `spawnLink` tie both ways. -/
namespace Eslang
set_option autoImplicit false
open Lib

/-- What `link` and `spawnLink`, and what `spawnLinkNotify` make of two processes. -/
inductive Bond
  | linked (a b : ObjId)
  | notified (parent child : ObjId)
deriving DecidableEq, Repr

namespace Context
variable {σ μ : Type}

def bonds (code : Code σ μ) (c : Context σ μ) (_ : Label) : List Bond :=
  match c.stack with
  | ⟨role, .code s⟩ :: rest =>
      match code.op s with
      | .link p _ =>
          match role.self, c.findProc p with
          | some o, some b => [.linked o b]
          | _, _ => []
      | .started _ =>
          match role, rest with
          | .ctor o, ⟨r, .code s'⟩ :: _ =>
              match code.op s', r.self with
              | .spawn .link _ _, some p => [.linked p o]
              | .spawn (.linkNotify _) _ _, some p => [.notified p o]
              | _, _ => []
          | _, _ => []
      | _ => []
  | _ => []

/-- How a bond is made. -/
inductive Bonding (code : Code σ μ) (c : Context σ μ) : Bond → Prop
  | link {role : Role} {s : σ} {rest : List (Frame σ μ)} {p k} {o b : ObjId}
      (hs : c.stack = ⟨role, .code s⟩ :: rest) (hop : code.op s = .link p k)
      (ho : role.self = some o) (hf : c.findProc p = some b) : Bonding code c (.linked o b)
  | spawnLink {o p : ObjId} {s s' : σ} {body ctor k} {r : Role} {rest : List (Frame σ μ)}
      (hs : c.stack = ⟨.ctor o, .code s⟩ :: ⟨r, .code s'⟩ :: rest) (hop : code.op s = .started body)
      (hcall : code.op s' = .spawn .link ctor k) (hp : r.self = some p) :
      Bonding code c (.linked p o)
  | spawnLinkNotify {o p : ObjId} {s s' : σ} {body a ctor k} {r : Role} {rest : List (Frame σ μ)}
      (hs : c.stack = ⟨.ctor o, .code s⟩ :: ⟨r, .code s'⟩ :: rest) (hop : code.op s = .started body)
      (hcall : code.op s' = .spawn (.linkNotify a) ctor k) (hp : r.self = some p) :
      Bonding code c (.notified p o)

theorem bonding_of_mem {code : Code σ μ} {c : Context σ μ} {l : Label} {b : Bond}
    (h : b ∈ c.bonds code l) : Bonding code c b := by
  unfold bonds at h
  split at h
  next role s rest hs =>
    split at h
    next p k hop =>
      split at h
      next o x ho hf =>
        rw [List.mem_singleton.mp h]
        exact .link hs hop ho hf
      next => cases h
    next body hop =>
      split at h
      next o r s' rest' =>
        split at h
        next ctor k p hcall hp =>
          rw [List.mem_singleton.mp h]
          exact .spawnLink hs hop hcall hp
        next a ctor k p hcall hp =>
          rw [List.mem_singleton.mp h]
          exact .spawnLinkNotify hs hop hcall hp
        next => cases h
      next => cases h
    next => cases h
  next => cases h

/-! ## Who runs is there -/

def HandlersAlive (c : Context σ μ) : Prop :=
  ∀ o, .handler (some o) ∈ c.table.roles → (c.heap o).life ≠ .destroyed

theorem effect_handlersAlive {code : Code σ μ} {c c' : Context σ μ} {l : Label}
    {out : List (Event μ)} (he : Effect code c l out c') (ht : c.table.Ok) (h : c.HandlersAlive) :
    c'.HandlersAlive := by
  intro o ho hl
  have hold (hm : .handler (some o) ∈ c.table.roles) : False := by
    rcases (step_keeps he ht).destroyed hl with hl | hd
    · exact h o hm hl
    · simp [table, hd.1] at hm
  cases effect_stack he with
  | same hst => exact hold (by simpa [table, hst] using ho)
  | goOn hs hst => exact hold (by simpa [table, hs, hst] using ho)
  | pop hs hst =>
    apply hold
    simp only [table, hs, hst, List.map_cons] at ho ⊢
    exact List.mem_cons_of_mem _ ho
  | call hs hst => exact hold (by simpa [table, hst] using ho)
  | ret hs hst =>
    apply hold
    simp only [table, hs, hst, List.map_cons] at ho ⊢
    exact List.mem_cons_of_mem _ ho
  | resumed hs hw hd hq hst => simp [table, hst] at ho
  | enter hs hr hst =>
    simp only [table, hst, List.map_cons, List.map_nil, List.mem_singleton] at ho
    rcases hr with ⟨x, rfl⟩ | ⟨owner, rfl, hown⟩
    · cases ho
    · cases ho
      exact hown o rfl hl

/-- Running code other than a destructor belongs to a process that has not been destroyed. -/
theorem self_alive {c : Context σ μ} (ht : c.table.Ok) (h : c.HandlersAlive) {r : Role}
    (hr : r ∈ c.table.roles) {o : ObjId} (ho : r.self = some o) (hd : ∀ x, r ≠ .dtor x) :
    (c.heap o).life ≠ .destroyed := by
  cases r with
  | main => cases ho
  | body p =>
    cases ho
    exact ht.body hr
  | ctor p =>
    cases ho
    have hcon : (c.heap o).life = .constructing := ht.ctor hr
    simp [hcon]
  | dtor p => exact absurd rfl (hd p)
  | handler owner =>
    cases ho
    exact h o hr

/-! ## A process under construction knows its parent -/

/-- The constructor that runs for `o` was called by code `t` of role `r`: not by a destructor, and inside
`spawnLink` the pid of the caller is on the list of `o`. -/
def Parented (code : Code σ μ) (c : Context σ μ) (o : ObjId) (r : Role) (t : Coro σ μ) : Prop :=
  (∀ x, r ≠ .dtor x) ∧
    ∀ p, Called code t .link → r.self = some p → (c.heap p).pid ∈ c.killLists o

def Adopted (code : Code σ μ) (c : Context σ μ) : Prop :=
  ∀ pre o t r t' rest, c.stack = pre ++ ⟨.ctor o, t⟩ :: ⟨r, t'⟩ :: rest → Parented code c o r t'

theorem effect_adopted {code : Code σ μ} {c c' : Context σ μ} {l : Label} {out : List (Event μ)}
    (he : Effect code c l out c') (ht : c.table.Ok) (hrefs : c.Refs) (hg : c.QuietDtors code l)
    (h : c.Adopted code) : c'.Adopted code := by
  have hk := step_keeps he ht
  have hkeep {q o t r t' rest} (hs : c.stack = q ++ ⟨.ctor o, t⟩ :: ⟨r, t'⟩ :: rest) :
      Parented code c' o r t' := by
    obtain ⟨hd, hlist⟩ := h q o t r t' rest hs
    refine ⟨hd, fun p hcall hp => ?_⟩
    have hlt : p < c.heapSize := hrefs.self (r := r) (by simp [table, hs]) hp
    have hlo : o < c.heapSize := hrefs.self (r := .ctor o) (by simp [table, hs]) rfl
    rw [hk.pid hlt]
    exact effect_killLists he hlo (hlist p hcall hp)
  intro pre o t r t' rest hs'
  cases effect_stack he with
  | same hst => exact hkeep (hst.symm.trans hs')
  | @goOn role t₀ rest₀ s hs hst =>
    rw [hst] at hs'
    cases pre with
    | nil =>
      cases hs'
      exact hkeep (q := []) hs
    | cons f pre =>
      cases hs'
      exact hkeep (q := ⟨role, t₀⟩ :: pre) hs
  | @pop f rest₀ hs hst =>
    rw [hst] at hs'
    exact hkeep (q := f :: pre) (hs.trans (by rw [hs']; rfl))
  | @call role s ctor rest₀ how k hs hst hop hc =>
    rw [hst] at hs'
    cases pre with
    | nil =>
      simp only [List.nil_append, List.cons.injEq, Frame.mk.injEq, Role.ctor.injEq] at hs'
      obtain ⟨⟨rfl, rfl⟩, hs'⟩ := hs'
      cases hs'.symm.trans hs
      refine ⟨?_, fun p hcall hp => ?_⟩
      · rintro x rfl
        exact (hg x s rest hs).1 _ _ _ hop
      · obtain ⟨s₁, ctor₁, k₁, h₁, h₂⟩ := hcall
        cases h₁
        cases hop.symm.trans h₂
        have hlt : p < c.heapSize := hrefs.self (r := r) (by simp [table, hs]) hp
        rw [hk.pid hlt, hc, killLists_spawnWith, Function.update_self, hp]
        simp [newProcess]
    | cons f pre => exact hkeep (q := pre) (List.cons.inj hs').2
  | @ret x t₀ t₁ role rest₀ s hs hst hl =>
    rw [hst] at hs'
    cases pre with
    | nil =>
      cases hs'
      exact hkeep (q := [⟨.ctor x, t₀⟩]) hs
    | cons f pre =>
      cases hs'
      exact hkeep (q := ⟨.ctor x, t₀⟩ :: ⟨role, t₁⟩ :: pre) hs
  | resumed hs hw hd hq hst =>
    rw [hst] at hs'
    cases pre with
    | nil => cases hs'
    | cons f pre => simp at hs'
  | enter hs hr hst =>
    rw [hst] at hs'
    cases pre with
    | nil => cases hs'
    | cons f pre => simp at hs'

/-! ## Bonds last -/

/-- Process `b` dies with process `a`. -/
structure Tied (c : Context σ μ) (a b : ObjId) : Prop where
  left : a < c.heapSize
  right : b < c.heapSize
  listed : (c.heap a).life ≠ .destroyed → (c.heap b).pid ∈ c.killLists a
  gone : (c.heap a).life = .destroyed → (c.heap b).life ≠ .running ∧ (c.heap b).life ≠ .constructing

theorem step_tied {code : Code σ μ} {c c' : Context σ μ} {l : Label} {out : List (Event μ)}
    {a b : ObjId} (hstep : c.step code l = some (c', out)) (hc : c.Sound) (h : c.Tied a b) :
    c'.Tied a b := by
  have he := (step_effect hstep).2
  have hk := step_keeps he hc.table
  refine ⟨Nat.lt_of_lt_of_le h.left hk.size, Nat.lt_of_lt_of_le h.right hk.size, fun hl => ?_,
    fun hl => ?_⟩
  · rw [hk.pid h.right]
    exact effect_killLists he h.left (h.listed fun hd => hl (hk.gone hd))
  · rcases hk.destroyed hl with hold | hd
    · obtain ⟨hr, hcon⟩ := h.gone hold
      have hnot (hl' : (c'.heap b).life = .constructing ∨ (c'.heap b).life = .running) : False := by
        rcases hk.alive h.right hl' with hl' | hl'
        · exact hcon hl'
        · exact hr hl'
      exact ⟨fun hl' => hnot (.inr hl'), fun hl' => hnot (.inl hl')⟩
    · have hdes := step_destruction hc.table hd hstep
      have hkilled := hdes.killed
      refine ⟨fun hr => ?_, fun hcon => ?_⟩
      · obtain ⟨hr, hn⟩ := hdes.running.mp hr
        refine hn ⟨(c.heap b).pid, h.listed (by simp [hkilled]), ?_⟩
        exact (Table.find_eq_some hc.table).mpr ⟨hr, rfl⟩
      · obtain ⟨t, hs⟩ := hdes.stack
        have hrole := ((effect_sound he hc).table.building (o := b) hcon).2.2
        simp [table, hs] at hrole

theorem Tied.of_listed {c c' : Context σ μ} {a b : ObjId} (hk : Keeps c c') (ha : a < c.heapSize)
    (hb : b < c.heapSize) (hl : (c'.heap a).life ≠ .destroyed)
    (hp : (c.heap b).pid ∈ c'.killLists a) : c'.Tied a b :=
  ⟨Nat.lt_of_lt_of_le ha hk.size, Nat.lt_of_lt_of_le hb hk.size, fun _ => hk.pid hb ▸ hp,
    fun hd => absurd hd hl⟩

/-- What a bond means. -/
def Bond.Kept (c : Context σ μ) : Bond → Prop
  | .linked a b => c.Tied a b ∧ c.Tied b a
  | .notified p o => c.Tied p o

theorem Bond.Kept.step {code : Code σ μ} {c c' : Context σ μ} {l : Label} {out : List (Event μ)}
    {b : Bond} (hstep : c.step code l = some (c', out)) (hc : c.Sound) (h : Bond.Kept c b) :
    Bond.Kept c' b := by
  cases b with
  | linked x y => exact ⟨step_tied hstep hc h.1, step_tied hstep hc h.2⟩
  | notified p o => exact step_tied hstep hc h

theorem step_started {code : Code σ μ} {c c' : Context σ μ} {l : Label} {out : List (Event μ)}
    {o : ObjId} {s s' body ctor : σ} {r : Role} {rest : List (Frame σ μ)} {how : SpawnKind} {k}
    (hs : c.stack = ⟨.ctor o, .code s⟩ :: ⟨r, .code s'⟩ :: rest) (hop : code.op s = .started body)
    (hcall : code.op s' = .spawn how ctor k) (hstep : c.step code l = some (c', out)) :
    (c'.heap o).life = .running ∧
      c'.killLists = addBack c.killLists how r.self (c.heap o).pid := by
  have hf := (step_effect hstep).1
  cases l with
  | tick =>
    have hc' : c' = ((c.spawnArgs o body).spawned r.self how (c.heap o).pid).continueWith r rest
        (k (.ok (c.heap o).pid)) := by
      simp only [step, hf, Option.isSome_none, Bool.false_eq_true, if_false, hs, stepCode, hop, stepOp,
        reply, hcall, Option.map_some, Option.some.injEq, Prod.mk.injEq] at hstep
      exact hstep.1.symm
    have htable : c'.table = c.table.occupy o := hc' ▸ table_started hs _ _ _ _
    refine ⟨(congrFun (congrArg Table.life htable) o).trans (by simp [Table.occupy]), ?_⟩
    rw [hc']
    exact killLists_started c o body r.self how _
  | atOnce => simp [step, hf, stepAtOnce, hs, hop] at hstep
  | expire i => simp [step, hf, looking, hs] at hstep
  | complete i => simp [step, hf, looking, hs] at hstep
  | abort i => simp [step, hf, looking, hs] at hstep

theorem step_link {code : Code σ μ} {c c' : Context σ μ} {l : Label} {out : List (Event μ)}
    {role : Role} {s : σ} {rest : List (Frame σ μ)} {p : Pid} {k} {o b : ObjId}
    (hs : c.stack = ⟨role, .code s⟩ :: rest) (hop : code.op s = .link p k)
    (ho : role.self = some o) (hf : c.findProc p = some b)
    (hstep : c.step code l = some (c', out)) :
    c'.killLists = addTo (addTo c.killLists o p) b (c.heap o).pid := by
  have hfault := (step_effect hstep).1
  cases l with
  | tick =>
    simp only [step, hfault, Option.isSome_none, Bool.false_eq_true, if_false, hs, stepCode, hop,
      stepOp, ho, link, hf, Option.some.injEq, Prod.mk.injEq] at hstep
    rw [← hstep.1]
    exact (killLists_addKillOnDie _ b _).trans (by rw [killLists_addKillOnDie]; rfl)
  | atOnce => simp [step, hfault, stepAtOnce, hs, hop] at hstep
  | expire i => simp [step, hfault, looking, hs] at hstep
  | complete i => simp [step, hfault, looking, hs] at hstep
  | abort i => simp [step, hfault, looking, hs] at hstep

/-- What the destructors' restraint keeps in every state. -/
structure Bonded (code : Code σ μ) (c : Context σ μ) (bs : List Bond) : Prop where
  sound : c.Sound
  census : c.table.Census
  handlers : c.HandlersAlive
  adopted : c.Adopted code
  kept : ∀ b ∈ bs, Bond.Kept c b

theorem bonding_kept {code : Code σ μ} {c c' : Context σ μ} {l : Label} {out : List (Event μ)}
    {bs : List Bond} {b : Bond} (h : Bonded code c bs) (hg : c.QuietDtors code l)
    (hstep : c.step code l = some (c', out)) (hb : Bonding code c b) : Bond.Kept c' b := by
  have hk := step_keeps (step_effect hstep).2 h.sound.table
  have hsame {o : ObjId} (hs : c.stack ≠ []) (hl : (c.heap o).life ≠ .destroyed) :
      (c'.heap o).life ≠ .destroyed := by
    intro hl'
    rcases hk.destroyed hl' with hl' | hd
    · exact hl hl'
    · exact hs hd.1
  cases hb with
  | @link role s rest p k o b hs hop ho hf =>
    have hlists := step_link hs hop ho hf hstep
    obtain ⟨hrun, rfl⟩ := (Table.find_eq_some h.sound.table).mp hf
    have hrun : (c.heap b).life = .running := hrun
    have hmem : role ∈ c.table.roles := by simp [roles_top hs]
    have hdtor : ∀ x, role ≠ .dtor x := by
      rintro x rfl
      exact (hg x s rest hs).2.1 _ _ hop
    have hself := self_alive h.sound.table h.handlers hmem ho hdtor
    have hlo := h.sound.refs.self hmem ho
    have hlb : b < c.heapSize := h.sound.table.allocated (o := b) (by simp [table, hrun])
    refine ⟨.of_listed hk hlo hlb (hsame (by simp [hs]) hself) ?_,
      .of_listed hk hlb hlo (hsame (by simp [hs]) (by simp [hrun])) ?_⟩
    · rw [hlists]
      exact mem_addTo.mpr (.inl (mem_addTo.mpr (.inr ⟨rfl, rfl⟩)))
    · rw [hlists]
      exact mem_addTo.mpr (.inr ⟨rfl, rfl⟩)
  | @spawnLink o p s s' body ctor k r rest hs hop hcall hp =>
    obtain ⟨hrun, hlists⟩ := step_started hs hop hcall hstep
    obtain ⟨hdtor, hparent⟩ := h.adopted [] o _ r _ rest hs
    have hmem : r ∈ c.table.roles := by simp [table, hs]
    have hself := self_alive h.sound.table h.handlers hmem hp hdtor
    have hlp := h.sound.refs.self hmem hp
    have hlo := h.sound.refs.self (r := .ctor o) (by simp [table, hs]) rfl
    refine ⟨.of_listed hk hlp hlo (hsame (by simp [hs]) hself) ?_,
      .of_listed hk hlo hlp (by simp [hrun]) ?_⟩
    · rw [hlists, hp]
      exact mem_addTo.mpr (.inr ⟨rfl, rfl⟩)
    · rw [hlists]
      exact mem_addBack (hparent p ⟨s', ctor, k, rfl, hcall⟩ hp)
  | @spawnLinkNotify o p s s' body a ctor k r rest hs hop hcall hp =>
    obtain ⟨hrun, hlists⟩ := step_started hs hop hcall hstep
    obtain ⟨hdtor, -⟩ := h.adopted [] o _ r _ rest hs
    have hmem : r ∈ c.table.roles := by simp [table, hs]
    have hself := self_alive h.sound.table h.handlers hmem hp hdtor
    refine .of_listed hk (h.sound.refs.self hmem hp)
      (h.sound.refs.self (r := .ctor o) (by simp [table, hs]) rfl) (hsame (by simp [hs]) hself) ?_
    rw [hlists, hp]
    exact mem_addTo.mpr (.inr ⟨rfl, rfl⟩)

theorem step_bonded {code : Code σ μ} {c c' : Context σ μ} {l : Label} {out : List (Event μ)}
    {bs : List Bond} (h : Bonded code c bs) (hg : c.QuietDtors code l)
    (hstep : c.step code l = some (c', out)) : Bonded code c' (bs ++ c.bonds code l) := by
  have he := (step_effect hstep).2
  refine ⟨effect_sound he h.sound, effect_census he h.sound.table h.census,
    effect_handlersAlive he h.sound.table h.handlers,
    effect_adopted he h.sound.table h.sound.refs hg h.adopted, fun b hb => ?_⟩
  rcases List.mem_append.mp hb with hb | hb
  · exact (h.kept b hb).step hstep h.sound
  · exact bonding_kept h hg hstep (bonding_of_mem hb)

theorem bonded_init (code : Code σ μ) (main : σ) : Bonded code (init main : Context σ μ) [] := by
  refine ⟨sound_init main, census_init main, ?_, ?_, by simp⟩
  · intro o ho
    simp [init, table] at ho
  · intro pre o t r t' rest hs
    cases pre with
    | nil => cases hs
    | cons f pre => simp [init] at hs

/-- When nothing waits to be destroyed the second process of a tie is dead with the first. -/
theorem Tied.dead {c : Context σ μ} {a b : ObjId} (h : c.Tied a b) (hcensus : c.table.Census)
    (hd : c.toDestroy = []) (ha : (c.heap a).dead = true) (hb : (c.heap b).life ≠ .failed) :
    (c.heap b).dead = true := by
  have hdestroyed : (c.heap a).life = .destroyed := by
    simp only [RunningProcess.dead, Bool.or_eq_true, decide_eq_true_eq] at ha
    rcases ha with ha | ha
    · have hin := hcensus.doomed (o := a) ha
      simp [table, hd] at hin
    · exact ha
  obtain ⟨hr, hcon⟩ := h.gone hdestroyed
  exact dead_iff.mpr ⟨⟨hcon, hb⟩, hr⟩

end Context

/-- **The `toDestroy_` loop destroys exactly the doomed processes, and bonds hold between iterations.** The log of
a run lists the bonds it made; the log of a run of the loop lists the processes it destroyed. -/
theorem kill_cascade {σ μ : Type} {code : Code σ μ} {main : σ} {bs : List Bond} {c : Context σ μ}
    (h : (code.system.observe (Context.bonds code)).Run (Context.QuietDtors code)
      (Context.init main) bs c) (hs : c.stack = []) :
    (c.phase = .destroying →
      (∀ log d, Context.LoopRun code c log d → log.Nodup ∧ log.length ≤ c.heapSize ∧
        (∀ o ∈ log, c.Doomed o) ∧ (d.phase = .loop → ∀ o, o ∈ log ↔ c.Doomed o)) ∧
      (Context.DtorsReturn code c → ∀ log d, Context.LoopRun code c log d → d.fault = none →
        ∃ log' d', Context.LoopRun code d log' d' ∧ d'.phase = .loop)) ∧
    (c.toDestroy = [] →
      (∀ a b, .linked a b ∈ bs → (c.heap a).life ≠ .failed → (c.heap b).life ≠ .failed →
        (c.heap a).dead = (c.heap b).dead) ∧
      ∀ p o, .notified p o ∈ bs → (c.heap o).life ≠ .failed → (c.heap p).dead = true →
        (c.heap o).dead = true) := by
  have hb : Context.Bonded code c bs := h.invariant (fun bs c => Context.Bonded code c bs)
    (Context.bonded_init code main) fun bs c l c' out hi hg hstep => by
      obtain ⟨rfl, out', hstep⟩ := System.observe_step hstep
      exact Context.step_bonded hi hg hstep
  refine ⟨fun hp => ⟨fun log d hd => ?_, fun hret log d hd hf => ?_⟩, fun hd => ⟨?_, ?_⟩⟩
  · have hloop := Context.loopRun_cascading hb.sound hb.census hp hs hd
    refine ⟨hloop.nodup, hloop.length_le, fun o ho => hloop.work.sound o (.inl ho), fun hend o => ?_⟩
    refine hloop.work.exact (fun x hx => ?_) o
    rcases hloop.phase with hph | ⟨-, -, hnil⟩
    · simp [hend] at hph
    · simp [Context.table, hnil] at hx
  · exact Context.loop_ends hb.sound hb.census hp hs hret hd hf
  · intro a b hab ha hb'
    obtain ⟨hl, hr⟩ := hb.kept _ hab
    rw [Bool.eq_iff_iff]
    exact ⟨fun hdead => hl.dead hb.census hd hdead hb', fun hdead => hr.dead hb.census hd hdead ha⟩
  · intro p o hpo ho hdead
    exact (hb.kept _ hpo : c.Tied p o).dead hb.census hd hdead ho

/-- The running destructor returns at once. -/
def dtorReturns {μ : Type} (code : Code Nat μ) (c : Context Nat μ) (_ : Label) : Bool :=
  match c.stack with
  | ⟨.dtor _, .code s⟩ :: _ =>
      match code.op s with
      | .coReturn => true
      | _ => false
  | _ => true

theorem quiet_of_dtorReturns {μ : Type} {code : Code Nat μ} {c : Context Nat μ} {l : Label}
    (h : dtorReturns code c l = true) : c.QuietDtors code l := by
  intro o s rest hs
  refine ⟨fun how ctor k hop => ?_, fun p k hop => ?_, fun p k hop => ?_⟩ <;>
    simp [dtorReturns, hs, hop] at h

/-- Process 0 spawns process 1 by `spawnLink` and returns. -/
def linkAndReturn : Code Nat Unit where
  op n :=
    match n with
    | 0 => .spawn .plain 10 fun _ => 1
    | 10 => .started 11
    | 11 => .spawn .link 20 fun _ => 12
    | 20 => .started 21
    | 21 => .awaitSuspend .always 22
    | _ => .coReturn
  dtor _ := 99

/-- The loop that begins with process 0 destroys process 0 and its child. -/
theorem linkAndReturn_cascade :
    ∃ bs c log d, (linkAndReturn.system.observe (Context.bonds linkAndReturn)).Run
      (Context.QuietDtors linkAndReturn) (Context.init 0) bs c ∧
      Context.LoopRun linkAndReturn c log d ∧ bs = [.linked 0 1] ∧ log = [0, 1] ∧
      (c.heap 1).dead = false ∧ ∀ o, o ∈ log ↔ c.Doomed o := by
  obtain ⟨bs, c, hr, hs, hp, hbs, hl, hloop⟩ := System.exec_reaches
    (M := linkAndReturn.system.observe (Context.bonds linkAndReturn))
    (g := dtorReturns linkAndReturn) (G := Context.QuietDtors linkAndReturn)
    (fun c l => quiet_of_dtorReturns) (w := List.replicate 7 .tick) (s := Context.init 0)
    (P := fun bs c => c.stack.length = 0 ∧ c.phase = .destroying ∧ bs = [.linked 0 1] ∧
      (c.heap 1).dead = false ∧
      (System.exec (linkAndReturn.system.observe Context.destroyedBy)
        (fun c l => dtorReturns linkAndReturn c l && c.phase = .destroying) c
        (List.replicate 5 .tick)).any (fun r => decide (r.2 = [0, 1] ∧ r.1.phase = .loop)) = true)
    (by decide)
  obtain ⟨log, d, hd, hlog, hend⟩ := System.exec_reaches
    (M := linkAndReturn.system.observe Context.destroyedBy) (G := Context.InLoop linkAndReturn)
    (P := fun log d => log = [0, 1] ∧ d.phase = .loop) (fun c l hg => by
      simp only [Bool.and_eq_true, decide_eq_true_eq] at hg
      exact ⟨quiet_of_dtorReturns hg.1, hg.2⟩) hloop
  obtain ⟨hcascade, -⟩ := kill_cascade hr (List.length_eq_zero_iff.mp hs)
  obtain ⟨-, -, -, hexact⟩ := (hcascade hp).1 log d hd
  exact ⟨bs, c, log, d, hr, hd, hbs, hlog, hl, hexact hend⟩

/-- The destructor of process 0 links process 0 to process 1. -/
def linkInDtor : Code Nat Unit where
  op n :=
    match n with
    | 0 => .spawn .plain 10 fun _ => 1
    | 1 => .spawn .plain 20 fun _ => 2
    | 10 => .started 11
    | 20 => .started 21
    | 21 => .awaitSuspend .always 22
    | 90 => .link ⟨1, 0⟩ fun _ => 91
    | _ => .coReturn
  dtor n := if n = 11 then 90 else 99

def dtorTame {μ : Type} (code : Code Nat μ) (c : Context Nat μ) (_ : Label) : Bool :=
  match c.stack with
  | ⟨.dtor _, .code s⟩ :: _ =>
      match code.op s with
      | .spawn _ _ _ | .queueKill _ _ => false
      | _ => true
  | _ => true

/-- No destructor spawns or kills, and yet of two linked processes one is dead and the other is live. -/
theorem linkInDtor_breaks_bond :
    ∃ bs c, (linkInDtor.system.observe (Context.bonds linkInDtor)).Run
      (fun c _ => ∀ o s rest, c.stack = ⟨.dtor o, .code s⟩ :: rest →
        (∀ how ctor k, linkInDtor.op s ≠ .spawn how ctor k) ∧
          ∀ p k, linkInDtor.op s ≠ .queueKill p k) (Context.init 0) bs c ∧
      c.stack = [] ∧ c.toDestroy = [] ∧ .linked 0 1 ∈ bs ∧ (c.heap 0).life ≠ .failed ∧
      (c.heap 1).life ≠ .failed ∧ (c.heap 0).dead ≠ (c.heap 1).dead := by
  obtain ⟨bs, c, hr, hs, hd, hrest⟩ := System.exec_reaches
    (M := linkInDtor.system.observe (Context.bonds linkInDtor))
    (g := dtorTame linkInDtor)
    (G := fun c _ => ∀ o s rest, c.stack = ⟨.dtor o, .code s⟩ :: rest →
      (∀ how ctor k, linkInDtor.op s ≠ .spawn how ctor k) ∧
        ∀ p k, linkInDtor.op s ≠ .queueKill p k)
    (fun c l hg o s rest hst => ⟨fun how ctor k hop => by simp [dtorTame, hst, hop] at hg,
      fun p k hop => by simp [dtorTame, hst, hop] at hg⟩)
    (w := List.replicate 10 .tick) (s := Context.init 0)
    (P := fun bs c => c.stack.length = 0 ∧ c.toDestroy.length = 0 ∧ .linked 0 1 ∈ bs ∧
      (c.heap 0).life ≠ .failed ∧ (c.heap 1).life ≠ .failed ∧ (c.heap 0).dead ≠ (c.heap 1).dead)
    (by decide)
  exact ⟨bs, c, hr, List.length_eq_zero_iff.mp hs, List.length_eq_zero_iff.mp hd, hrest⟩

end Eslang
