import Eslang.Context.Safety

/-! # The life of a process, from its constructor to its destructor

A run is watched at the moments at which code of a process starts: its constructor, its body each time it
is resumed, its io handlers and its destructor. Whatever the program does and in whatever order the
io_service completes its operations, the entries of one process are one life: the constructor first and
once, then resumptions and handlers, and the destructor last and once. A process that has been killed is
never resumed again, although its handlers may still run until it is destroyed; a handler that is left then
uses an object that is gone, and the run ends in undefined behaviour. -/
namespace Eslang
set_option autoImplicit false
open Lib

namespace Context
variable {σ μ : Type}

/-! ## What a step starts -/

/-- The role of the code that a step from `c` to `c'` starts, if it starts any. -/
def starts (c c' : Context σ μ) : List Role :=
  if c.stack.length < c'.stack.length then (c'.stack.head?.map Frame.role).toList else []

theorem starts_of_le {c c' : Context σ μ} (h : c'.stack.length ≤ c.stack.length) :
    c.starts c' = [] :=
  if_neg (Nat.not_lt.mpr h)

theorem starts_of_push {c c' : Context σ μ} {f : Frame σ μ} (h : c'.stack = f :: c.stack) :
    c.starts c' = [f.role] := by
  simp [starts, h]

/-- What a step can start, and the process whose code it is. -/
inductive Starts (c c' : Context σ μ) : List Role → Prop
  | nothing (hd : ∀ o, ¬ c.Destroys o) (hn : c'.heapSize = c.heapSize) : Starts c c' []
  | ctor (hd : ∀ o, ¬ c.Destroys o) (hn : c'.heapSize = c.heapSize + 1) :
      Starts c c' [.ctor c.heapSize]
  | body {o} (hd : ∀ o, ¬ c.Destroys o) (hn : c'.heapSize = c.heapSize) (ho : o < c.heapSize)
      (hl : (c.heap o).dead = false) : Starts c c' [.body o]
  | handler {owner} (hd : ∀ o, ¬ c.Destroys o) (hn : c'.heapSize = c.heapSize)
      (ho : ∀ o, owner = some o → o < c.heapSize ∧ (c'.heap o).life ≠ .destroyed) :
      Starts c c' [.handler owner]
  | dtor {o} (hd : c.Destroys o) (hl : (c'.heap o).life = .destroyed) (hn : c'.heapSize = c.heapSize) :
      Starts c c' [.dtor o]

theorem starts_of_destroys {code : Code σ μ} {c c' : Context σ μ} {l : Label} {out : List (Event μ)}
    (h : c.step code l = some (c', out)) (ht : c.table.Ok) {o : ObjId} (hd : c.Destroys o) :
    Starts c c' (c.starts c') := by
  have hgone := destroyed_of_destroys ht hd h
  obtain ⟨reason, rest, hlist, rfl, -⟩ := step_of_destroys hd h
  obtain ⟨s, hs⟩ := stack_destroy { c with toDestroy := rest } code.dtor o reason
  rw [starts_of_push (c := c) (f := ⟨.dtor o, .code s⟩) hs]
  exact .dtor hd hgone (heapSize_destroy _ _ _ _)

theorem step_starts {code : Code σ μ} {c c' : Context σ μ} {l : Label} {out : List (Event μ)}
    (h : c.step code l = some (c', out)) (hs : c.Sound) : Starts c c' (c.starts c') := by
  have he := (step_effect h).2
  by_cases hd : ∃ o, c.Destroys o
  · obtain ⟨o, hd⟩ := hd
    exact starts_of_destroys h hs.table hd
  have hd : ∀ o, ¬ c.Destroys o := fun o ho => hd ⟨o, ho⟩
  have hsize : (∀ o, c'.stack.map Frame.role ≠ .ctor o :: c.stack.map Frame.role) →
      c'.heapSize = c.heapSize := fun hne => (effect_size he).resolve_right fun hc => hne _ hc.2
  have hshort : c'.stack.length ≤ c.stack.length → Starts c c' (c.starts c') := by
    intro hle
    rw [starts_of_le hle]
    refine .nothing hd (hsize fun o ho => ?_)
    have hlen := congrArg List.length ho
    simp only [List.length_map, List.length_cons] at hlen
    omega
  cases effect_stack he with
  | same hst => exact hshort (by rw [hst])
  | goOn hs' hst => exact hshort (by simp [hst, hs'])
  | pop hs' hst => exact hshort (by simp [hst, hs'])
  | ret hs' hst => exact hshort (by simp [hst, hs'])
  | call hs' hst hop hc =>
    rw [starts_of_push hst]
    refine .ctor hd ?_
    rcases effect_size he with hn | ⟨hn, -⟩
    · subst hc
      have hn' : c.nextPid.2.heapSize = c.heapSize := by
        unfold nextPid
        split <;> rfl
      simp [spawnWith, construct, hn'] at hn
    · exact hn
  | @resumed o hs' hw hl hq hst =>
    have hbody : .body o ∈ c'.table.roles := by simp [table, hst]
    have hn := hsize fun o ho => by simp [hst] at ho
    rw [starts_of_push (f := ⟨.body o, (c.heap o).task⟩) (hst.trans (by rw [hs']))]
    exact .body hd hn (hn ▸ (effect_refs he hs.table hs.refs).self hbody rfl) hl
  | @enter role s hs' hr hst =>
    rw [starts_of_push (f := ⟨role, .code s⟩) (hst.trans (by rw [hs']))]
    have hin : role ∈ c'.table.roles := by simp [table, hst]
    rcases hr with ⟨o, rfl⟩ | ⟨owner, rfl, ho⟩
    · have hnot : .dtor o ∉ c.table.roles := by simp [table, hs']
      exact absurd ((effect_dtor he hs.table hin).resolve_left hnot) (hd o)
    · have hn := hsize fun o ho => by simp [hst] at ho
      exact .handler hd hn fun o ho' =>
        ⟨hn ▸ (effect_refs he hs.table hs.refs).self hin ho', ho o ho'⟩

/-! ## Histories -/

/-- The entries of `log` that start code of process `o`. -/
def entriesOf (o : ObjId) (log : List Role) : List Role := log.filter fun r => decide (r.self = some o)

theorem entriesOf_append (o : ObjId) (log log' : List Role) :
    entriesOf o (log ++ log') = entriesOf o log ++ entriesOf o log' :=
  List.filter_append ..

theorem entriesOf_other {o : ObjId} {r : Role} (h : r.self ≠ some o) : entriesOf o [r] = [] := by
  simp [entriesOf, h]

theorem entriesOf_own {o : ObjId} {r : Role} (h : r.self = some o) : entriesOf o [r] = [r] := by
  simp [entriesOf, h]

/-- What a process does between its constructor and its destructor. -/
def Lives (o : ObjId) (rs : List Role) : Prop := ∀ r ∈ rs, r = .body o ∨ r = .handler (some o)

theorem Lives.snoc {o : ObjId} {rs : List Role} (h : Lives o rs) {r : Role}
    (hr : r = .body o ∨ r = .handler (some o)) : Lives o (rs ++ [r]) := by
  intro x hx
  rcases List.mem_append.mp hx with hx | hx
  · exact h x hx
  · rw [List.mem_singleton.mp hx]
    exact hr

/-- How far the life of process `o` has come, with the entries it has made. -/
inductive History (c : Context σ μ) (o : ObjId) (rs : List Role) : Prop
  | unborn (ho : c.heapSize ≤ o) (h : rs = [])
  | living {mid : List Role} (ho : o < c.heapSize) (hl : (c.heap o).life ≠ .destroyed) (hm : Lives o mid)
      (h : rs = .ctor o :: mid)
  | ended {mid : List Role} (hl : (c.heap o).life = .destroyed) (hm : Lives o mid)
      (h : rs = .ctor o :: (mid ++ [.dtor o]))

theorem History.keep {c c' : Context σ μ} {o : ObjId} {rs : List Role} (h : History c o rs)
    (hk : Keeps c c') (hd : ¬ c.Destroys o) (hn : o < c'.heapSize → o < c.heapSize) :
    History c' o rs := by
  cases h with
  | unborn ho hr => exact .unborn (Nat.not_lt.mp fun hlt => Nat.not_lt.mpr ho (hn hlt)) hr
  | living ho hl hm hr =>
    exact .living (Nat.lt_of_lt_of_le ho hk.size) (fun hl' => (hk.destroyed hl').elim hl hd) hm hr
  | ended hl hm hr => exact .ended (hk.gone hl) hm hr

theorem History.snoc {c : Context σ μ} {o : ObjId} {rs : List Role} (h : History c o rs)
    (ho : o < c.heapSize) (hl : (c.heap o).life ≠ .destroyed) {r : Role}
    (hr : r = .body o ∨ r = .handler (some o)) : History c o (rs ++ [r]) := by
  cases h with
  | unborn ho' _ => exact absurd ho (Nat.not_lt.mpr ho')
  | living _ _ hm he => exact .living ho hl (hm.snoc hr) (by rw [he, List.cons_append])
  | ended hl' _ _ => exact absurd hl' hl

theorem step_history {code : Code σ μ} {c c' : Context σ μ} {l : Label} {out : List (Event μ)}
    {log : List Role} (h : c.step code l = some (c', out)) (hs : c.Sound) {o : ObjId}
    (hist : History c o (entriesOf o log)) : History c' o (entriesOf o (log ++ c.starts c')) := by
  have hk := step_keeps (step_effect h).2 hs.table
  have hst := step_starts h hs
  generalize c.starts c' = rs at hst ⊢
  rw [entriesOf_append]
  cases hst with
  | nothing hd hn => simpa [entriesOf] using hist.keep hk (hd o) (hn ▸ id)
  | ctor hd hn =>
    by_cases ho : o = c.heapSize
    · subst ho
      have hfresh : (c.heap c.heapSize).life = .failed := hs.table.fresh (Nat.le_refl _)
      have hl : (c'.heap c.heapSize).life ≠ .destroyed := fun hl =>
        (hk.destroyed hl).elim (fun hl => by simp [hfresh] at hl) (hd _)
      have hnil : entriesOf c.heapSize log = [] := by
        cases hist with
        | unborn _ hnil => exact hnil
        | living ho => exact absurd ho (Nat.lt_irrefl _)
        | ended hl' => simp [hfresh] at hl'
      rw [entriesOf_own rfl, hnil]
      exact .living (hn ▸ Nat.lt_succ_self _) hl (fun _ hr => absurd hr List.not_mem_nil) rfl
    · rw [entriesOf_other (by simpa [Role.self] using fun h : c.heapSize = o => ho h.symm), List.append_nil]
      refine hist.keep hk (hd o) fun hlt => ?_
      rw [hn] at hlt
      exact Nat.lt_of_le_of_ne (Nat.lt_succ_iff.mp hlt) ho
  | @body x hd hn hx hl =>
    have hkeep := hist.keep hk (hd o) (hn ▸ id)
    by_cases ho : x = o
    · subst ho
      have hl' : (c'.heap x).life ≠ .destroyed := fun hl' => by
        have hgone := (hk.destroyed hl').resolve_right (hd x)
        simp [RunningProcess.dead, hgone] at hl
      rw [entriesOf_own rfl]
      exact hkeep.snoc (hn ▸ hx) hl' (.inl rfl)
    · rw [entriesOf_other (by simpa [Role.self] using ho), List.append_nil]
      exact hkeep
  | @handler owner hd hn hx =>
    have hkeep := hist.keep hk (hd o) (hn ▸ id)
    by_cases ho : owner = some o
    · subst ho
      rw [entriesOf_own rfl]
      exact hkeep.snoc (hn ▸ (hx o rfl).1) (hx o rfl).2 (.inr rfl)
    · rw [entriesOf_other (r := .handler owner) ho, List.append_nil]
      exact hkeep
  | @dtor x hd hl hn =>
    by_cases ho : x = o
    · subst ho
      obtain ⟨y, htop, hy⟩ := Option.map_eq_some_iff.mp hd.2.2
      have hdoom : (c.heap x).life = .killed :=
        hs.table.doomed (List.mem_map.mpr ⟨y, List.mem_of_head? htop, hy⟩)
      rw [entriesOf_own rfl]
      cases hist with
      | unborn hx _ => exact absurd ((hs.table.fresh hx).symm.trans hdoom) (by simp)
      | living _ _ hm he => exact .ended hl hm (by rw [he, List.cons_append])
      | ended hl' => simp [hdoom] at hl'
    · rw [entriesOf_other (by simpa [Role.self] using ho), List.append_nil]
      exact hist.keep hk (fun hd' => ho (by simpa [hd.2.2] using hd'.2.2)) (hn ▸ id)

theorem history_init (main : σ) (o : ObjId) : History (init main : Context σ μ) o (entriesOf o []) :=
  .unborn (Nat.zero_le o) rfl

theorem step_dead_rests {code : Code σ μ} {c c' : Context σ μ} {l : Label} {out : List (Event μ)}
    (h : c.step code l = some (c', out)) (hs : c.Sound) {o : ObjId} (hd : (c.heap o).dead = true) :
    .body o ∉ c.starts c' := by
  intro hin
  have hst := step_starts h hs
  generalize c.starts c' = rs at hst hin
  cases hst with
  | nothing => simp at hin
  | ctor => simp at hin
  | body _ _ _ hl =>
    cases List.mem_singleton.mp hin
    simp [hd] at hl
  | handler => simp at hin
  | dtor => simp at hin

end Context

/-- Runs that record what code they start. -/
def Code.Enters {σ μ : Type} (code : Code σ μ) (c : Context σ μ) (log : List Role) (c' : Context σ μ) :
    Prop :=
  System.Run (code.system.watch Context.starts) System.anyStep c log c'

theorem Code.histories {σ μ : Type} {code : Code σ μ} {main : σ} {log : List Role} {c : Context σ μ}
    (h : code.Enters (Context.init main) log c) :
    c.Sound ∧ ∀ o, Context.History c o (Context.entriesOf o log) := by
  refine System.Run.invariant h
    (fun log c => c.Sound ∧ ∀ o, Context.History c o (Context.entriesOf o log))
    ⟨Context.sound_init main, Context.history_init main⟩ fun log c l c' out hi _ hs => ?_
  obtain ⟨rfl, tr, hstep⟩ := System.watch_step hs
  exact ⟨Context.effect_sound (Context.step_effect hstep).2 hi.1,
    fun o => Context.step_history hstep hi.1 (hi.2 o)⟩

theorem Code.dead_rests {σ μ : Type} {code : Code σ μ} {log : List Role} {c c' : Context σ μ}
    (h : code.Enters c log c') (hs : c.Sound) {o : ObjId} (hd : (c.heap o).dead = true) :
    .body o ∉ log := by
  have hall : (c'.Sound ∧ (c'.heap o).dead = true) ∧ .body o ∉ log := by
    refine System.Run.invariant h
      (fun log c => (c.Sound ∧ (c.heap o).dead = true) ∧ .body o ∉ log)
      ⟨⟨hs, hd⟩, List.not_mem_nil⟩ fun log c l c' out hi _ hs => ?_
    obtain ⟨⟨hsound, hdead⟩, hlog⟩ := hi
    obtain ⟨rfl, tr, hstep⟩ := System.watch_step hs
    have he := (Context.step_effect hstep).2
    refine ⟨⟨Context.effect_sound he hsound,
      Context.dead_forward (Context.step_keeps he hsound.table) hdead⟩, fun hin => ?_⟩
    exact (List.mem_append.mp hin).elim hlog (Context.step_dead_rests hstep hsound hdead)
  exact hall.2

/-- **The life of every process is in order**: whatever the program does, the code that a run starts on
behalf of one process is nothing yet, or its constructor followed by resumptions and handlers, or these
closed by its destructor; from the moment it is dead no run resumes it; and what it may have left in the
io_service after its destructor is a fault when it runs. -/
theorem life_in_order {σ μ : Type} {code : Code σ μ} {main : σ} {log : List Role} {c : Context σ μ}
    (h : code.Enters (Context.init main) log c) (o : ObjId) :
    (Context.entriesOf o log = [] ∨ ∃ mid, (∀ r ∈ mid, r = .body o ∨ r = .handler (some o)) ∧
      (Context.entriesOf o log = .ctor o :: mid ∨
        Context.entriesOf o log = .ctor o :: (mid ++ [.dtor o]) ∧ (c.heap o).life = .destroyed)) ∧
    ((c.heap o).dead = true → ∀ log' c', code.Enters c log' c' → .body o ∉ log') ∧
    ((c.heap o).life = .destroyed → ∀ d c' out, c.Runs d → d.this = some o →
      c.step code .tick = some (c', out) → c'.fault = some (.processGone o)) := by
  obtain ⟨hs, hist⟩ := code.histories h
  refine ⟨?_, fun hd log' c' hrun => code.dead_rests hrun hs hd,
    fun hl d c' out hr ho hstep => hr.gone ho hl hstep⟩
  cases hist o with
  | unborn ho hnil => exact .inl hnil
  | living ho hl hm he => exact .inr ⟨_, hm, .inl he⟩
  | ended hl hm he => exact .inr ⟨_, hm, .inr ⟨he, hl⟩⟩

/-- The sleeper that is killed while its timer has expired is constructed, resumed once, and destroyed. -/
theorem killed_sleeper_life :
    ∃ log c, killSleeper.Enters (Context.init 0) log c ∧
      Context.entriesOf 1 log = [.ctor 1, .body 1, .dtor 1] ∧
      ∀ log' c', killSleeper.Enters c log' c' → .body 1 ∉ log' := by
  obtain ⟨log, c, hr, hlog, hd⟩ := System.exec_reaches (M := killSleeper.system.watch Context.starts)
    (g := fun _ _ => true) (G := System.anyStep) (fun _ _ _ => trivial)
    (w := List.replicate 12 .tick ++ [.expire 0, .expire 0] ++ List.replicate 9 .tick)
    (s := Context.init 0)
    (P := fun log c => Context.entriesOf 1 log = [.ctor 1, .body 1, .dtor 1] ∧
      (c.heap 1).dead = true) (by decide)
  exact ⟨log, c, hr, hlog, (life_in_order hr 1).2.1 hd⟩

end Eslang
