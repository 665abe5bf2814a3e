import Eslang.Context.Census
import Eslang.Context.Links
import Eslang.Lib.Worklist

/-! # Kill cascades

The `toDestroy_` loop is a worklist over the `killOnDie` lists: if no destructor spawns, links or kills, it ends
and destroys what was doomed when it began, no more and no less. So linked processes die together, and a
process dies with the parent that spawned it by `spawnLink` or `spawnLinkNotify` (`kill_cascade`). -/
namespace Eslang
set_option autoImplicit false
open Lib

namespace Table
variable {t : Table}

theorem kill_running {p : Pid} {b : ObjId} :
    (t.kill p).life b = .running ↔ t.life b = .running ∧ t.find p ≠ some b := by
  cases hf : t.find p with
  | none => simp [kill_of_none hf]
  | some o =>
    rw [kill_of_some hf]
    by_cases he : b = o
    · simp [he]
    · simp [he, Ne.symm he]

theorem kill_find (h : t.Ok) {p q : Pid} {b : ObjId} :
    (t.kill p).find q = some b ↔ t.find q = some b ∧ t.find p ≠ some b := by
  rw [find_eq_some (kill_ok h p), find_eq_some h, kill_running, kill_pid]
  tauto

theorem kill_toDestroy {p : Pid} {b : ObjId} :
    b ∈ (t.kill p).toDestroy ↔ b ∈ t.toDestroy ∨ t.find p = some b := by
  cases hf : t.find p with
  | none => simp [kill_of_none hf]
  | some o => simp [kill_of_some hf, eq_comm]

theorem kills_toDestroy (h : t.Ok) (ps : List Pid) {b : ObjId} :
    b ∈ (ps.foldl kill t).toDestroy ↔ b ∈ t.toDestroy ∨ ∃ p ∈ ps, t.find p = some b := by
  induction ps generalizing t with
  | nil => simp
  | cons p ps ih =>
    rw [List.foldl_cons, ih (kill_ok h p), kill_toDestroy, or_assoc]
    apply or_congr Iff.rfl
    by_cases hp : t.find p = some b
    · exact iff_of_true (.inl hp) ⟨p, by simp, hp⟩
    · simp [kill_find h, hp]

theorem kills_running (h : t.Ok) (ps : List Pid) {b : ObjId} :
    (ps.foldl kill t).life b = .running ↔ t.life b = .running ∧ ∀ p ∈ ps, t.find p ≠ some b := by
  induction ps generalizing t with
  | nil => simp
  | cons p ps ih =>
    rw [List.foldl_cons, ih (kill_ok h p), kill_running, and_assoc]
    apply and_congr Iff.rfl
    by_cases hp : t.find p = some b
    · exact iff_of_false (fun hn => hn.1 hp) fun hn => hn p (by simp) hp
    · simp [kill_find h, hp]

theorem kills_eq (ps : List Pid) : (ps.foldl kill t).roles = t.roles ∧
    (ps.foldl kill t).pid = t.pid ∧ (ps.foldl kill t).size = t.size := by
  induction ps generalizing t with
  | nil => exact ⟨rfl, rfl, rfl⟩
  | cons p ps ih =>
    obtain ⟨hr, hp, hs⟩ := ih (t := t.kill p)
    exact ⟨hr.trans (kill_roles p), hp.trans (kill_pid p), hs.trans (kill_size p)⟩

end Table

namespace Context
variable {σ μ : Type}

/-! ## The `toDestroy_` loop -/

/-- The destructors do not spawn, link or kill. -/
def QuietDtors (code : Code σ μ) (c : Context σ μ) (_ : Label) : Prop :=
  ∀ o s rest, c.stack = ⟨.dtor o, .code s⟩ :: rest →
    (∀ how ctor k, code.op s ≠ .spawn how ctor k) ∧ (∀ p k, code.op s ≠ .link p k) ∧
      ∀ p k, code.op s ≠ .queueKill p k

def InLoop (code : Code σ μ) (c : Context σ μ) (l : Label) : Prop :=
  c.QuietDtors code l ∧ c.phase = .destroying

/-- When `a` is destroyed, `b` is killed. -/
def Kills (c : Context σ μ) (a b : ObjId) : Prop := ∃ p ∈ c.killLists a, c.findProc p = some b

/-- The processes that wait to be destroyed and the live ones that their deaths reach. -/
def Doomed (c : Context σ μ) (o : ObjId) : Prop := Reached c.Kills {x | x ∈ c.table.toDestroy} o

/-- What the step that destroys `o` does to the other processes. -/
structure Destruction (c c' : Context σ μ) (o : ObjId) : Prop where
  phase : c'.phase = .destroying
  stack : ∃ t, c'.stack = [⟨.dtor o, t⟩]
  lists : c'.killLists = c.killLists
  pid : ∀ x, (c'.heap x).pid = (c.heap x).pid
  size : c'.heapSize = c.heapSize
  killed : (c.heap o).life = .killed
  destroyed : ∀ {x}, (c'.heap x).life = .destroyed ↔ (c.heap x).life = .destroyed ∨ x = o
  running : ∀ {x}, (c'.heap x).life = .running ↔ (c.heap x).life = .running ∧ ¬ c.Kills o x
  todo : ∃ rest, c.table.toDestroy = o :: rest ∧
    ∀ b, b ∈ c'.table.toDestroy ↔ b ∈ rest ∨ c.Kills o b

theorem step_destruction {code : Code σ μ} {c c' : Context σ μ} {l : Label} {out : List (Event μ)}
    (ht : c.table.Ok) {o : ObjId} (hd : c.Destroys o) (hstep : c.step code l = some (c', out)) :
    Destruction c c' o := by
  have hk := step_keeps (step_effect hstep).2 ht
  have hdestroyed := destroyed_of_destroys ht hd hstep
  obtain ⟨reason, rest, hlist, he, -⟩ := step_of_destroys hd hstep
  have htop := toDestroy_top hlist
  have hok := Table.destroy_ok ht htop (by simp [table, hd.1])
  have hkilled : (c.heap o).life = .killed := ht.doomed (by simp [htop])
  have htable := table_destroy c code.dtor o reason hlist
  obtain ⟨-, hpid, hsize⟩ := Table.kills_eq (t := c.table.destroy o) (c.heap o).killOnDie
  rw [← he] at htable
  refine ⟨?_, ?_, ?_, fun x => ?_, ?_, hkilled, fun {x} => ⟨fun hx => ?_, ?_⟩, fun {x} => ?_,
    rest.map Prod.fst, htop, fun b => ?_⟩
  · rw [he, phase_destroy]
    exact hd.2.1
  · obtain ⟨s, hs⟩ := stack_destroy { c with toDestroy := rest } code.dtor o reason
    exact ⟨.code s, he ▸ hs.trans (by simp [hd.1])⟩
  · rw [he]
    exact killLists_destroy { c with toDestroy := rest } code.dtor o reason
  · exact (congrFun (congrArg Table.pid htable) x).trans (congrFun hpid x)
  · exact (congrArg Table.size htable).trans hsize
  · rcases hk.destroyed hx with hx | hx
    · exact .inl hx
    · exact .inr (Option.some.inj (hx.2.2.symm.trans hd.2.2))
  · rintro (hx | rfl)
    · exact hk.gone hx
    · exact hdestroyed
  · have hlife : (c'.heap x).life = _ := congrFun (congrArg Table.life htable) x
    rw [hlife]
    refine (Table.kills_running hok _).trans (and_congr ?_ ?_)
    · by_cases hx : x = o
      · simp [hx, Table.destroy, hkilled]
      · simp [hx, Table.destroy, table]
    · constructor
      · rintro h ⟨p, hp, hf⟩
        exact h p hp hf
      · exact fun h p hp hf => h ⟨p, hp, hf⟩
  · rw [htable]
    refine (Table.kills_toDestroy hok _).trans (or_congr ?_ Iff.rfl)
    simp [Table.destroy, htop]

/-- What a quiet destructor can do: next to nothing. -/
structure Quiet (c c' : Context σ μ) (o : ObjId) : Prop where
  phase : c'.phase = c.phase
  stack : c'.stack = [] ∨ ∃ t, c'.stack = [⟨.dtor o, t⟩]
  table : c'.table = { c.table with roles := c'.table.roles }
  lists : ∀ x, x ≠ o → c'.killLists x = c.killLists x

theorem quiet_goOn {c d : Context σ μ} {o : ObjId} {r : Role} {t : Coro σ μ}
    {rest : List (Frame σ μ)} (htop : c.stack = [⟨.dtor o, t⟩]) {t' : Coro σ μ}
    (hs : c.stack = ⟨r, t'⟩ :: rest) (hp : d.phase = c.phase) (ht : d.table = c.table)
    (hl : ∀ x, x ≠ o → d.killLists x = c.killLists x) (s : σ) :
    Quiet c (d.continueWith r rest s) o := by
  cases htop.symm.trans hs
  refine ⟨hp, .inr ⟨_, rfl⟩, ?_, hl⟩
  rw [table_continueWith, ht]

theorem effect_quiet {code : Code σ μ} {c c' : Context σ μ} {l : Label} {out : List (Event μ)}
    {o : ObjId} {t : Coro σ μ} (he : Effect code c l out c') (htop : c.stack = [⟨.dtor o, t⟩])
    (hg : c.QuietDtors code l) : Quiet c c' o := by
  have hother {r : Role} {t' : Coro σ μ} {rest : List (Frame σ μ)}
      (hs : c.stack = ⟨r, t'⟩ :: rest) (hr : r ≠ .dtor o) : Quiet c c' o := by
    cases htop.symm.trans hs
    exact absurd rfl hr
  have hidle (hs : c.stack = []) : Quiet c c' o := by simp [htop] at hs
  have hlook (hl : c.looking = true) : Quiet c c' o := by simp [looking, htop] at hl
  cases he with
  | goOn hs s => exact quiet_goOn htop hs rfl rfl (fun _ _ => rfl) s
  | fault f => exact ⟨rfl, .inr ⟨t, htop⟩, rfl, fun _ _ => rfl⟩
  | send hs hop hm s' =>
    exact quiet_goOn (d := c.queueSend _ _) htop hs rfl (by simp) (fun _ _ => rfl) s'
  | suspend hw =>
    obtain ⟨t', hs⟩ := hw.stack
    exact hother hs (by simp)
  | throttleSend hs ht hc => exact hother hs (by simp)
  | @newSlot role t' rest x hs ho s' =>
    refine quiet_goOn htop hs ?_ (table_newSlot _ _ _)
      (fun y _ => congrFun (killLists_newSlot _ _ _) y) s'
    unfold newSlot
    split <;> rfl
  | dropSlot hs hop ho s' =>
    exact quiet_goOn htop hs (phase_dropSlot _ _) (by simp)
      (fun _ _ => congrFun (killLists_of_heap (heap_dropSlot _ _)) _) s'
  | getVals hs hop ho s' =>
    exact quiet_goOn htop hs (phase_getVals _ _) (by simp)
      (fun _ _ => congrFun (killLists_of_heap (heap_getVals _ _)) _) s'
  | spawn hs hop hm hself =>
    cases htop.symm.trans hs
    exact absurd hop ((hg o _ _ hs).1 _ _ _)
  | @addKillOnDie role t' rest x hs p s' ho =>
    refine quiet_goOn (d := c.addKillOnDie x p) htop hs rfl (by simp) (fun y hy => ?_) s'
    cases htop.symm.trans hs
    cases ho
    rw [killLists_addKillOnDie, Function.update_of_ne hy]
  | link hs p hl s' hop ho =>
    cases htop.symm.trans hs
    exact absurd hop ((hg o _ _ hs).2.1 _ _)
  | kill hs p s' hop hself =>
    cases htop.symm.trans hs
    exact absurd hop ((hg o _ _ hs).2.2 _ _)
  | newPromise hs owner s' =>
    exact quiet_goOn (d := c.newPromise owner) htop hs rfl rfl (fun _ _ => rfl) s'
  | onPromise hs n ha s' =>
    exact quiet_goOn htop hs (phase_onPromise _ _ _) (by simp)
      (fun _ _ => congrFun (killLists_of_heap (heap_onPromise _ _ _)) _) s'
  | asyncOp hs h' s' =>
    exact quiet_goOn (d := c.asyncOp _ h') htop hs rfl rfl (fun _ _ => rfl) s'
  | @asyncDone role s rest h' s' hs hop =>
    exact quiet_goOn (d := c.asyncDone _ h') htop hs rfl rfl (fun _ _ => rfl) s'
  | started hs body s' => exact hother hs (by simp)
  | ctorThrew hs hop s' => exact hother hs (by simp)
  | leave hs hr => exact hother hs (by rintro rfl; simp at hr)
  | bodyReturned hs => exact hother hs (by simp)
  | bodyThrew hs e => exact hother hs (by simp)
  | @dtorReturned x s rest hs hop =>
    cases htop.symm.trans hs
    refine ⟨phase_dropSlots { c with stack := [] } o,
      .inl (stack_dropSlots { c with stack := [] } o), ?_, fun y _ => ?_⟩
    · rw [destroyed, table_dropPromises, table_dropSlots]
      rfl
    · exact congrFun (killLists_of_heap (heap_dropSlots { c with stack := [] } o)) y
  | escaped hs hr e => exact hother hs (by rintro rfl; simp at hr)
  | finish hs hp hn => exact hidle hs
  | take hs hp hq => exact hidle hs
  | toRunOne hs hp hq => exact hidle hs
  | ioReturn ph hs hp => exact hidle hs
  | drained hs hp hr => exact hidle hs
  | run hs hp hst hr => exact hidle hs
  | destroy hs hp hd => exact hidle hs
  | toLoop hs hp hd => exact hidle hs
  | expire i hl hw => exact hlook hl
  | async i h' hl hh => exact hlook hl

/-- The loop that began in `c₀` has come to `c` and has destroyed `log`. -/
structure Cascading (c₀ c : Context σ μ) (log : List ObjId) : Prop where
  sound : c.Sound
  census : c.table.Census
  phase : c.phase = .destroying ∨ (c.phase = .loop ∧ c.stack = [] ∧ c.toDestroy = [])
  stack : c.stack = [] ∨ ∃ o t, c.stack = [⟨.dtor o, t⟩] ∧ (c.heap o).life = .destroyed
  work : Worklist c₀.Kills {o | o ∈ c₀.table.toDestroy} {o | o ∈ log} {o | o ∈ c.table.toDestroy}
  nodup : log.Nodup
  logged : ∀ o, o ∈ log ↔ (c.heap o).life = .destroyed ∧ (c₀.heap o).life ≠ .destroyed
  lists : ∀ o, (c.heap o).life ≠ .destroyed → c.killLists o = c₀.killLists o
  started : ∀ {o}, c₀.table.Started o → c.table.Started o
  running : ∀ {o}, (c.heap o).life = .running → (c₀.heap o).life = .running
  gone : ∀ {o}, (c₀.heap o).life = .destroyed → (c.heap o).life = .destroyed
  pid : ∀ o, (c.heap o).pid = (c₀.heap o).pid
  size : c.heapSize = c₀.heapSize

theorem Cascading.init {c : Context σ μ} (hc : c.Sound) (hcensus : c.table.Census)
    (hp : c.phase = .destroying) (hs : c.stack = []) : Cascading c c [] where
  sound := hc
  census := hcensus
  phase := .inl hp
  stack := .inl hs
  work := Worklist.init.congr (by simp) (by simp)
  nodup := .nil
  logged o := by simp
  lists _ _ := rfl
  started := id
  running := id
  gone := id
  pid _ := rfl
  size := rfl

theorem Cascading.live {c₀ c : Context σ μ} {log : List ObjId} (h : Cascading c₀ c log) {o : ObjId}
    (ho : (c₀.heap o).life = .running) :
    (c.heap o).life = .running ∨ o ∈ c.table.toDestroy ∨ o ∈ log := by
  have hst : c.table.Started o := h.started (by simp [Table.Started, table, ho])
  cases hl : (c.heap o).life with
  | constructing => exact absurd hl hst.1
  | running => exact .inl rfl
  | killed => exact .inr (.inl (h.census.doomed hl))
  | destroyed => exact .inr (.inr ((h.logged o).mpr ⟨hl, by simp [ho]⟩))
  | failed => exact absurd hl hst.2

theorem Cascading.dtor {code : Code σ μ} {c₀ c c' : Context σ μ} {l : Label}
    {out : List (Event μ)} {log : List ObjId} (h : Cascading c₀ c log) (he : Effect code c l out c')
    (hg : c.InLoop code l) {o : ObjId} {t : Coro σ μ} (hs : c.stack = [⟨.dtor o, t⟩])
    (ho : (c.heap o).life = .destroyed) : Cascading c₀ c' log := by
  have hq := effect_quiet he hs hg.1
  have hlife : ∀ x, (c'.heap x).life = (c.heap x).life := fun x =>
    congrFun (congrArg Table.life hq.table) x
  have htodo : c'.table.toDestroy = c.table.toDestroy :=
    (congrArg Table.toDestroy hq.table).trans rfl
  refine ⟨effect_sound he h.sound, effect_census he h.sound.table h.census,
    .inl (hq.phase.trans hg.2), ?_, htodo ▸ h.work, h.nodup, fun x => ?_, fun x hx => ?_,
    fun {x} hx => ?_, fun {x} hx => h.running ((hlife x).symm.trans hx),
    fun {x} hx => (hlife x).trans (h.gone hx), fun x => ?_, ?_⟩
  · rcases hq.stack with hnil | ⟨t', ht'⟩
    · exact .inl hnil
    · exact .inr ⟨o, t', ht', (hlife o).trans ho⟩
  · rw [hlife x]
    exact h.logged x
  · rw [hlife x] at hx
    have hne : x ≠ o := by
      rintro rfl
      exact hx ho
    rw [hq.lists x hne, h.lists x hx]
  · have hst := h.started hx
    rw [Table.Started, show c'.table.life x = c.table.life x from hlife x]
    exact hst
  · exact (congrFun (congrArg Table.pid hq.table) x).trans (h.pid x)
  · exact (congrArg Table.size hq.table).trans h.size

theorem Cascading.destroy {code : Code σ μ} {c₀ c c' : Context σ μ} {l : Label}
    {out : List (Event μ)} {log : List ObjId} (hc₀ : c₀.table.Ok) (h : Cascading c₀ c log)
    (hstep : c.step code l = some (c', out)) {o : ObjId} (hd : c.Destroys o) :
    Cascading c₀ c' (log ++ [o]) := by
  have he := (step_effect hstep).2
  have hk := step_keeps he h.sound.table
  have hdes := step_destruction h.sound.table hd hstep
  have hkilled := hdes.killed
  have hnot₀ : (c₀.heap o).life ≠ .destroyed := fun hl => by simp [h.gone hl] at hkilled
  have hlists : c.killLists o = c₀.killLists o := h.lists o (by simp [hkilled])
  have hfind₀ {p b} : c₀.findProc p = some b ↔ (c₀.heap b).life = .running ∧ (c₀.heap b).pid = p :=
    Table.find_eq_some hc₀
  have hfind {p b} : c.findProc p = some b ↔ (c.heap b).life = .running ∧ (c.heap b).pid = p :=
    Table.find_eq_some h.sound.table
  -- the list of `o` finds now what it found when the loop began, as far as that is still live
  have hkills {b} : c.Kills o b ↔ c₀.Kills o b ∧ (c.heap b).life = .running := by
    constructor
    · rintro ⟨p, hp, hf⟩
      obtain ⟨hr, hpid⟩ := hfind.mp hf
      exact ⟨⟨p, hlists ▸ hp, hfind₀.mpr ⟨h.running hr, h.pid b ▸ hpid⟩⟩, hr⟩
    · rintro ⟨⟨p, hp, hf⟩, hr⟩
      exact ⟨p, hlists ▸ hp, hfind.mpr ⟨hr, (h.pid b).trans (hfind₀.mp hf).2⟩⟩
  obtain ⟨rest, htop, htodo⟩ := hdes.todo
  have hlog (b : ObjId) : b ∈ log ++ [o] ↔ b ∈ log ∨ b = o := by simp
  refine ⟨effect_sound he h.sound, effect_census he h.sound.table h.census, .inl hdes.phase, ?_,
    ?_, ?_, fun x => ?_, fun x hx => ?_, fun hx => hk.started (h.started hx),
    fun {x} hx => h.running (hdes.running.mp hx).1, fun hx => hk.gone (h.gone hx),
    fun x => (hdes.pid x).trans (h.pid x), hdes.size.trans h.size⟩
  · obtain ⟨t, hs⟩ := hdes.stack
    exact .inr ⟨o, t, hs, hdes.destroyed.mpr (.inr rfl)⟩
  · have hkeep : ∀ b, b ∈ c.table.toDestroy → b ∈ log ++ [o] ∨ b ∈ c'.table.toDestroy := by
      intro b hb
      rw [htop] at hb
      rcases List.mem_cons.mp hb with rfl | hb
      · exact .inl (by simp)
      · exact .inr ((htodo b).mpr (.inl hb))
    refine h.work.step (a := o) (by simp [htop]) hlog hkeep (fun b hb => ?_) fun b hb => ?_
    · obtain ⟨p, -, hf⟩ := id hb
      rcases h.live (hfind₀.mp hf).1 with hr | hr | hr
      · exact .inr ((htodo b).mpr (.inr (hkills.mpr ⟨hb, hr⟩)))
      · exact hkeep b hr
      · exact .inl ((hlog b).mpr (.inl hr))
    · rcases (htodo b).mp hb with hb | hb
      · exact .inl (by simp [htop, hb])
      · exact .inr (hkills.mp hb).1
  · refine List.nodup_append.mpr ⟨h.nodup, by simp, ?_⟩
    rintro a ha b hb rfl
    rw [List.mem_singleton.mp hb] at ha
    simp [((h.logged o).mp ha).1] at hkilled
  · rw [hlog, h.logged, hdes.destroyed]
    constructor
    · rintro (⟨hl, hl₀⟩ | rfl)
      · exact ⟨.inl hl, hl₀⟩
      · exact ⟨.inr rfl, hnot₀⟩
    · rintro ⟨hl | rfl, hl₀⟩
      · exact .inl ⟨hl, hl₀⟩
      · exact .inr rfl
  · rw [hdes.lists]
    exact h.lists x fun hl => hx (hdes.destroyed.mpr (.inl hl))

theorem step_toLoop {code : Code σ μ} {c : Context σ μ} (hf : c.fault = none) (hs : c.stack = [])
    (hp : c.phase = .destroying) (hd : c.toDestroy = []) :
    c.step code .tick = some ({ c with phase := .loop }, []) := by
  simp [step, hf, hs, schedule, hp, hd]

theorem step_idle {code : Code σ μ} {c c' : Context σ μ} {l : Label} {out : List (Event μ)}
    (hstep : c.step code l = some (c', out)) (hs : c.stack = []) (hp : c.phase = .destroying)
    (hd : c.toDestroy = []) : c' = { c with phase := .loop } := by
  have hlook : c.looking = false := by simp [looking, hp]
  have hf := (step_effect hstep).1
  cases l with
  | tick =>
    rw [step_toLoop hf hs hp hd] at hstep
    exact (Prod.mk.inj (Option.some.inj hstep)).1.symm
  | atOnce => simp [step, hf, stepAtOnce, hs] at hstep
  | expire i => simp [step, hf, hlook] at hstep
  | complete i => simp [step, hf, hlook] at hstep
  | abort i => simp [step, hf, hlook] at hstep

theorem step_cascading {code : Code σ μ} {c₀ c c' : Context σ μ} {l : Label}
    {out : List (Event μ)} {log : List ObjId} (hc₀ : c₀.table.Ok) (h : Cascading c₀ c log)
    (hg : c.InLoop code l) (hstep : c.step code l = some (c', out)) :
    Cascading c₀ c' (log ++ c.destroyedBy l) := by
  rcases h.stack with hs | ⟨o, t, hs, ho⟩
  · cases hd : c.toDestroy with
    | nil =>
      have hnone : c.destroyedBy l = [] := by simp [destroyedBy, hd]
      obtain rfl := step_idle hstep hs hg.2 hd
      rw [hnone, List.append_nil]
      exact ⟨effect_sound (step_effect hstep).2 h.sound, h.census, .inr ⟨rfl, hs, hd⟩, h.stack,
        h.work, h.nodup, h.logged, h.lists, h.started, h.running, h.gone, h.pid, h.size⟩
    | cons x rest =>
      have hone : c.destroyedBy l = [x.1] := by simp [destroyedBy, hs, hg.2, hd]
      rw [hone]
      exact h.destroy hc₀ hstep ⟨hs, hg.2, by simp [hd]⟩
  · have hnone : c.destroyedBy l = [] := by simp [destroyedBy, hs]
    rw [hnone, List.append_nil]
    exact h.dtor (step_effect hstep).2 hg hs ho

/-- A run of the `toDestroy_` loop; it ends after the step back to the loop head. -/
abbrev LoopRun (code : Code σ μ) (c : Context σ μ) (log : List ObjId) (d : Context σ μ) : Prop :=
  (code.system.observe destroyedBy).Run (InLoop code) c log d

theorem loopRun_cascading {code : Code σ μ} {c₀ c : Context σ μ} {log : List ObjId} (hc : c₀.Sound)
    (hcensus : c₀.table.Census) (hp : c₀.phase = .destroying) (hs : c₀.stack = [])
    (h : LoopRun code c₀ log c) : Cascading c₀ c log :=
  h.invariant (fun log c => Cascading c₀ c log) (.init hc hcensus hp hs)
    fun log c l c' out hi hg hstep => by
      obtain ⟨rfl, out', hstep⟩ := System.observe_step hstep
      exact step_cascading hc.table hi hg hstep

theorem Cascading.length_le {c₀ c : Context σ μ} {log : List ObjId} (h : Cascading c₀ c log) :
    log.length ≤ c₀.heapSize := by
  have hsub : log ⊆ List.range c₀.heapSize := by
    intro o ho
    have hl := ((h.logged o).mp ho).1
    have hlt := h.sound.table.allocated (o := o) (by simp [table, hl])
    exact List.mem_range.mpr (h.size ▸ hlt)
  simpa using (List.subperm_of_subset h.nodup hsub).length_le

/-- The destructors that the loop from `c` runs return. -/
def DtorsReturn (code : Code σ μ) (c : Context σ μ) : Prop :=
  ∀ log d, LoopRun code c log d → d.stack ≠ [] →
    ∃ log' d', LoopRun code d log' d' ∧ d'.stack = [] ∧ d'.fault = none

/-- From a state in which no destructor runs the loop comes to its end: each further process that it
destroys is one more of finitely many. -/
theorem loop_ends_idle {code : Code σ μ} {c₀ : Context σ μ} (hc : c₀.Sound)
    (hcensus : c₀.table.Census) (hp₀ : c₀.phase = .destroying) (hs₀ : c₀.stack = [])
    (hret : DtorsReturn code c₀) (n : Nat) {c : Context σ μ} {log : List ObjId}
    (h : LoopRun code c₀ log c) (hn : c₀.heapSize < log.length + n) (hs : c.stack = [])
    (hp : c.phase = .destroying) (hf : c.fault = none) :
    ∃ log' d, LoopRun code c log' d ∧ d.phase = .loop := by
  induction n generalizing c log with
  | zero =>
    have hle := (loopRun_cascading hc hcensus hp₀ hs₀ h).length_le
    omega
  | succ n ih =>
    have hquiet : c.InLoop code .tick := ⟨fun o s rest hst => by simp [hs] at hst, hp⟩
    cases hd : c.toDestroy with
    | nil =>
      have hstep := System.observe_of_step (M := code.system) (s := c) (l := .tick) destroyedBy
        (step_toLoop hf hs hp hd : c.step code .tick = _)
      exact ⟨_, { c with phase := .loop }, .step .refl hquiet hstep, rfl⟩
    | cons x rest =>
      obtain ⟨c', out, hstep⟩ : ∃ c' out, c.step code .tick = some (c', out) := by
        simp [step, hf, hs, schedule, hp, hd]
      have hone : c.destroyedBy .tick = [x.1] := by simp [destroyedBy, hs, hp, hd]
      have hdes : c.Destroys x.1 := ⟨hs, hp, by simp [hd]⟩
      have hstep' := System.observe_of_step (M := code.system) (s := c) (l := .tick) destroyedBy hstep
      rw [hone] at hstep'
      have hrun : LoopRun code c₀ (log ++ [x.1]) c' := .step h hquiet hstep'
      have hsound := (loopRun_cascading hc hcensus hp₀ hs₀ h).sound
      obtain ⟨t, hst⟩ := (step_destruction hsound.table hdes hstep).stack
      obtain ⟨log', d, hd', hnil, hfault⟩ := hret _ _ hrun (by simp [hst])
      have hfirst : LoopRun code c ([x.1] ++ log') d :=
        System.Run.trans (.step .refl hquiet hstep') hd'
      rcases (loopRun_cascading hc hcensus hp₀ hs₀ (hrun.trans hd')).phase with hphase | ⟨hphase, -⟩
      · obtain ⟨log'', e, he, hend⟩ := ih (hrun.trans hd') (by simp; omega) hnil hphase hfault
        exact ⟨_, e, hfirst.trans he, hend⟩
      · exact ⟨_, d, hfirst, hphase⟩

theorem loop_ends {code : Code σ μ} {c₀ c : Context σ μ} {log : List ObjId} (hc : c₀.Sound)
    (hcensus : c₀.table.Census) (hp₀ : c₀.phase = .destroying) (hs₀ : c₀.stack = [])
    (hret : DtorsReturn code c₀) (h : LoopRun code c₀ log c) (hf : c.fault = none) :
    ∃ log' d, LoopRun code c log' d ∧ d.phase = .loop := by
  have hidle {c : Context σ μ} {log : List ObjId} (h : LoopRun code c₀ log c) (hs : c.stack = [])
      (hf : c.fault = none) : ∃ log' d, LoopRun code c log' d ∧ d.phase = .loop := by
    rcases (loopRun_cascading hc hcensus hp₀ hs₀ h).phase with hp | ⟨hp, -⟩
    · exact loop_ends_idle hc hcensus hp₀ hs₀ hret (c₀.heapSize + 1) h (by omega) hs hp hf
    · exact ⟨[], c, .refl, hp⟩
  by_cases hs : c.stack = []
  · exact hidle h hs hf
  · obtain ⟨log', d, hd, hnil, hfault⟩ := hret log c h hs
    obtain ⟨log'', e, he, hend⟩ := hidle (h.trans hd) hnil hfault
    exact ⟨_, e, hd.trans he, hend⟩

end Context
end Eslang
