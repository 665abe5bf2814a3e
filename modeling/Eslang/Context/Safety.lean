import Eslang.Context.Handlers
import Eslang.Context.Storage
import Eslang.Context.Lifetime
import Eslang.Context.Links
import Eslang.Context.Lookup

/-! # Runs without undefined behaviour

`Faults` lists what can go wrong in a step. This module says what a program has to respect so that none of
it ever does: `Careful` is a condition on the state before each step, and `careful_never_faults` is the
proof that a run of careful steps reaches no fault. The library keeps the rest: slots live as long as
their process, a delivered message finds its slot, timers find their process. -/
namespace Eslang
set_option autoImplicit false
open Lib

namespace Context
variable {σ μ : Type}

/-! ## Destructors and failing constructors -/

theorem runHandler_no_dtor {c : Context σ μ} (hs : c.stack = []) (d : Handler σ) (o : ObjId) :
    .dtor o ∉ (c.runHandler d).table.roles := by
  have hnil : .dtor o ∉ c.table.roles := by simp [table, hs]
  have hresume (x : ObjId) : .dtor o ∉ (c.resume x).table.roles := by
    intro h
    rcases roles_resume h with h | ⟨h, -⟩
    · exact hnil h
    · cases h
  cases d with
  | aborted => exact hnil
  | user owner s =>
    simp only [runHandler]
    split
    · exact hnil
    · simp [table]
  | timer x n =>
    simp only [runHandler]
    split
    · exact hnil
    · exact hresume x
  | continuation f =>
    simp only [runHandler]
    split
    · exact hnil
    · split
      · exact hresume f.this
      · exact hnil

theorem effect_dtor {code : Code σ μ} {c c' : Context σ μ} {l : Label} {out : List (Event μ)}
    (he : Effect code c l out c') (ht : c.table.Ok) {o : ObjId} (h : .dtor o ∈ c'.table.roles) :
    .dtor o ∈ c.table.roles ∨ c.Destroys o := by
  have h' : .dtor o ∈ c'.stack.map Frame.role := h
  show .dtor o ∈ c.stack.map Frame.role ∨ _
  cases effect_stack he with
  | same hst => exact .inl (hst ▸ h')
  | goOn hs hst =>
    rw [hst] at h'
    rw [hs]
    exact .inl h'
  | pop hs hst =>
    rw [hst] at h'
    rw [hs]
    exact .inl (List.mem_cons_of_mem _ h')
  | call hs hst =>
    rw [hst] at h'
    exact .inl ((List.mem_cons.mp h').resolve_left (by simp))
  | ret hs hst =>
    rw [hst] at h'
    rw [hs]
    exact .inl (List.mem_cons_of_mem _ h')
  | resumed hs hw hd hq hst =>
    rw [hst] at h'
    simp at h'
  | enter hs hr hst =>
    right
    cases he
    case destroy x reason rest _ hp hd =>
      obtain ⟨s, htop⟩ := stack_destroy { c with toDestroy := rest } code.dtor x reason
      rw [htop] at h'
      have hx : o = x := by simpa [hs] using h'
      exact ⟨hs, hp, by simp [hd, hx]⟩
    case take i q _ hp hq =>
      rcases roles_processQueueItem (c := c.popFront q) ht h with h | ⟨x, h, -⟩
      · simp [table, popFront, hs] at h
      · cases h
    case run d ds _ hp hst hr => exact absurd h (runHandler_no_dtor (c := c.popReady ds) hs d o)
    case suspend hw =>
      obtain ⟨t, htop⟩ := hw.stack
      simp [hs] at htop
    case fault hne => exact absurd hs hne
    all_goals exact absurd (hs.symm.trans ‹c.stack = _ :: _›) (by simp)

theorem step_ctorThrew {code : Code σ μ} {c c' : Context σ μ} {l : Label} {out : List (Event μ)}
    (h : c.step code l = some (c', out)) {o : ObjId} {s : σ} {e : String} {rest : List (Frame σ μ)}
    (hs : c.stack = ⟨.ctor o, .code s⟩ :: rest) (hop : code.op s = .throw e) :
    (c'.heap o).life = .failed := by
  have hf := (step_effect h).1
  cases l with
  | tick =>
    simp only [step, hf, Option.isSome_none, Bool.false_eq_true, if_false, hs, stepCode, hop, stepOp,
      Option.map_eq_some_iff, Prod.mk.injEq] at h
    obtain ⟨d, hd, rfl, -⟩ := h
    obtain ⟨role, t, rest', how, s', -, -, rfl⟩ := reply_eq hd
    have hheap : (c.ctorFailed o).heap = (c.setLife o .failed).heap :=
      heap_dropSlots (c.setLife o .failed) o
    show ((c.ctorFailed o).heap o).life = .failed
    rw [hheap]
    simp [setLife, setProc]
  | atOnce => simp [step, hf, stepAtOnce, hs, hop] at h
  | expire i => simp [step, hf, looking, hs] at h
  | complete i => simp [step, hf, looking, hs] at h
  | abort i => simp [step, hf, looking, hs] at h

/-! ## What the program has to respect -/

/-- An operation that process `o` started is pending, or its handler is queued. -/
def Operates (c : Context σ μ) (o : ObjId) : Prop :=
  ∃ s, (some o, s) ∈ c.names.asyncs ∨ (some o, s) ∈ c.names.users

/-- Conditions on the state before a step that keep it clear of undefined behaviour. -/
structure Careful (code : Code σ μ) (c : Context σ μ) (l : Label) : Prop where
  /-- No index of the process table has been handed out `2 ^ 64` times. -/
  pids : ∀ i, c.reuses i < 2 ^ 64
  /-- `canQueue` is asked only about pids whose index is in use. -/
  lookup : ∀ role t rest a, c.stack = ⟨role, t⟩ :: rest → LooksUp code c t a → c.InUse a.pid.idx
  /-- Only coroutines await. -/
  coAwait : ∀ role s rest, c.stack = ⟨role, .code s⟩ :: rest →
    ((∃ w k, code.op s = .awaitReady w k) ∨ ∃ ss k, code.op s = .getVals ss k) → ∃ o, role = .body o
  /-- Code tests and sets promises that exist. -/
  test : ∀ role s rest w k p, c.stack = ⟨role, .code s⟩ :: rest → code.op s = .awaitReady w k →
    w.readyFuture = some p → c.promise p ≠ none
  act : ∀ role s rest n act, c.stack = ⟨role, .code s⟩ :: rest → PromiseAct n (code.op s) act →
    c.promise (.user n) ≠ none
  /-- Code waits on promises that exist and whose process, if they are part of one, has been started and
  not been destroyed. -/
  wait : ∀ o s rest w k p, c.stack = ⟨.body o, .code s⟩ :: rest → code.op s = .awaitSuspend w k →
    w.wakeOnFuture = some p → c.promise p ≠ none ∧
      ∀ q, c.ownerOf p = some q → (c.heap q).life = .running ∨ (c.heap q).life = .killed
  /-- Destructors do not throw. -/
  dtor : ∀ o s rest e, c.stack = ⟨.dtor o, .code s⟩ :: rest → code.op s ≠ .throw e
  /-- Slots go only with their process. -/
  slots : ∀ s, ¬ DropsSlot code c s
  /-- Constructors and destructors start no operations. -/
  asyncOp : ∀ role s rest h k, c.stack = ⟨role, .code s⟩ :: rest → code.op s = .asyncOp h k →
    (∀ o, role ≠ .ctor o) ∧ ∀ o, role ≠ .dtor o
  /-- A process is destroyed only when the handlers of all operations it started have run. -/
  operations : ∀ o, c.Destroys o → ¬ c.Operates o
  /-- A process is destroyed only when none of its continuations is posted, and a promise that stores one of a
  destroyed process is not set. -/
  wakes : c.NoLateWake code l
  /-- When the `toDestroy_` loop is done, no live process waits on a promise of a destroyed one. -/
  leave : c.LeavesDestroying → ∀ o p q, (c.heap o).dead = false → c.awaited o = some p →
    c.ownerOf p = some q → (c.heap q).life ≠ .destroyed

/-! ## What every careful run keeps -/

structure Kept (c : Context σ μ) : Prop where
  /-- A promise, and the slot of a throttle promise, is gone only when its process is. -/
  gone : ∀ p, c.knowsPromise p = true → c.promise p = none → ∃ q, c.ownerOf p = some q ∧
    q < c.heapSize ∧ ((c.heap q).life = .destroyed ∨ (c.heap q).life = .failed)
  waits : ∀ o p, c.Idle o → c.awaited o = some p → c.knowsPromise p = true ∧
    ∀ q, c.ownerOf p = some q → c.table.Started q
  /-- Outside of the `toDestroy_` loop the owner of a promise that a process waits on is there. -/
  alive : c.Serving → ∀ o p q, c.Idle o → c.awaited o = some p → c.ownerOf p = some q →
    (c.heap q).life ≠ .destroyed
  posted : c.PostedAlive
  dtors : ∀ o, .dtor o ∈ c.table.roles → (c.heap o).life = .destroyed
  /-- The process of an operation and of its running handler is there. -/
  operations : ∀ o, c.Operates o ∨ .handler (some o) ∈ c.table.roles →
    c.table.Started o ∧ (c.heap o).life ≠ .destroyed

/-- What is known of every reachable state. -/
structure Known (c : Context σ μ) : Prop where
  sound : c.Sound
  timers : c.TimersAlive
  pids : (∀ i, c.reuses i < 2 ^ 64) → ∀ {o x}, o < c.heapSize → x < c.heapSize →
    (c.heap o).pid = (c.heap x).pid → o = x

theorem Known.owner {c : Context σ μ} (h : c.Known) (hv : ∀ i, c.reuses i < 2 ^ 64) {a : SendAddress}
    {o : ObjId} (hm : c.made a = true) (hf : c.findProc a.pid = some o) :
    a.slot < c.slotCount ∧ (c.slots a.slot).owner = o ∧ (c.heap o).life = .running := by
  simp only [made, Bool.and_eq_true, decide_eq_true_eq] at hm
  rw [findProc_table] at hf
  obtain ⟨hr, hp⟩ := (Table.find_eq_some h.sound.table).mp hf
  have ho : o < c.heapSize := h.sound.table.allocated (by simp [hr])
  exact ⟨hm.1, h.pids hv (h.sound.refs.owners hm.1) ho (hm.2.trans hp.symm), hr⟩

theorem Kept.slot_there {c : Context σ μ} (h : c.Kept) {s : SlotId} (hs : s < c.slotCount)
    (hl : (c.heap (c.slots s).owner).life = .running ∨ (c.heap (c.slots s).owner).life = .killed) :
    (c.slots s).queue ≠ none := by
  intro hn
  obtain ⟨q, hq, -, hgone⟩ := h.gone (.throttle s) (decide_eq_true hs) (promise_throttle_none.mpr hn)
  rw [← Option.some.inj hq] at hgone
  rcases hgone with h' | h' <;> simp [h'] at hl

/-- Outside of the `toDestroy_` loop the promise that a process waits on is there. -/
theorem Kept.promise_there {c : Context σ μ} (h : c.Kept) (hs : c.Serving) {o : ObjId} {p : PromiseRef}
    (ho : c.Idle o) (hp : c.awaited o = some p) : c.promise p ≠ none := by
  intro hn
  obtain ⟨hknown, hst⟩ := h.waits o p ho hp
  obtain ⟨q, hq, -, hgone⟩ := h.gone p hknown hn
  exact hgone.elim (h.alive hs o p q ho hp hq) (hst q hq).2

theorem Kept.own_slot {c : Context σ μ} (h : c.Kept) (hk : c.Known) {o : ObjId}
    (hb : .body o ∈ c.table.roles) {s : SlotId} (hs : c.ownsSlot (.body o) s = true) :
    (c.slots s).queue ≠ none := by
  simp only [ownsSlot, Bool.and_eq_true, decide_eq_true_eq, Role.self, Option.some.injEq] at hs
  have hst := hk.sound.refs.body hb
  have hd := hk.sound.table.body hb
  apply h.slot_there hs.1
  rw [← hs.2]
  cases hl : (c.heap o).life with
  | running => exact .inl rfl
  | killed => exact .inr rfl
  | constructing => exact absurd hl hst.1
  | failed => exact absurd hl hst.2
  | destroyed => exact absurd hl hd

theorem step_gone {code : Code σ μ} {c c' : Context σ μ} {l : Label} {out : List (Event μ)}
    (hs : c.step code l = some (c', out)) (hk : c.Known) (hg : c.Careful code l) (h : c.Kept)
    {p : PromiseRef} (hknown : c'.knowsPromise p = true) (hn : c'.promise p = none) :
    ∃ q, c'.ownerOf p = some q ∧ q < c'.heapSize ∧
      ((c'.heap q).life = .destroyed ∨ (c'.heap q).life = .failed) := by
  have he := (step_effect hs).2
  have hstore := effect_store he
  have hkeep := step_keeps he hk.sound.table
  rcases hstore.gone p hknown hn with ⟨hk', hp⟩ | ⟨q, hd, hk', ho⟩ | ⟨x, hd, -⟩
  · obtain ⟨q, hq, hlt, hl⟩ := h.gone p hk' hp
    exact ⟨q, (hstore.owner p hk').trans hq, Nat.lt_of_lt_of_le hlt hkeep.size,
      hl.imp hkeep.gone (hkeep.failed hlt)⟩
  · have hq : c'.ownerOf p = some q := (hstore.owner p hk').trans ho
    obtain ⟨s₀, rest, ⟨htop, -⟩ | ⟨e, htop, hop⟩⟩ := hd
    · have hin : .dtor q ∈ c.table.roles := by simp [roles_top htop]
      exact ⟨q, hq, Nat.lt_of_lt_of_le (hk.sound.refs.self hin rfl) hkeep.size,
        .inl (hkeep.gone (h.dtors q hin))⟩
    · have hin : .ctor q ∈ c.table.roles := by simp [roles_top htop]
      exact ⟨q, hq, Nat.lt_of_lt_of_le (hk.sound.refs.self hin rfl) hkeep.size,
        .inr (step_ctorThrew hs htop hop)⟩
  · exact absurd hd (hg.slots x)

theorem findProcConst_some {c : Context σ μ} {p : Pid} {o : ObjId}
    (h : c.findProcConst p = .ok (some o)) : c.findProc p = some o := by
  unfold findProcConst at h
  unfold findProc
  split at h
  next x hx => simpa [hx] using h
  next => cases h
  next => cases h

theorem canQueue_found {c : Context σ μ} {a : SendAddress} {p : PromiseRef}
    (h : c.canQueue a = .ok (some p)) : ∃ o, c.findProc a.pid = some o := by
  unfold canQueue at h
  split at h
  · cases h
  · cases h
  next o hf => exact ⟨o, findProcConst_some hf⟩

theorem awaits_promise {code : Code σ μ} {c : Context σ μ} {l : Label} (hk : c.Known)
    (hg : c.Careful code l) {o : ObjId} {rest : List (Frame σ μ)} {w : Waiting} {t : Coro σ μ}
    {p : PromiseRef} (hw : Awaits code c o rest w t) (hp : w.wakeOnFuture = some p) :
    c.knowsPromise p = true ∧ c.promise p ≠ none ∧
      ∀ q, c.ownerOf p = some q → c.table.Started q ∧ (c.heap q).life ≠ .destroyed := by
  cases hw with
  | yield hs hop hm hq => cases hp
  | @throttle t₀ a m k p' hs hat hc =>
    cases hp
    have hmade := (atCheck_made hs hat).elim (hk.sound.addressed a) id
    obtain ⟨o', hf⟩ : ∃ o', c.findProc a.pid = some o' := canQueue_found hc
    obtain ⟨hlt, hown, hrun⟩ := hk.owner hg.pids hmade hf
    obtain ⟨rfl, q, hq, -⟩ := canQueue_some hc
    refine ⟨decide_eq_true hlt, by simp [promise, hq], fun x hx => ?_⟩
    have hx : x = o' := (Option.some.inj hx).symm.trans hown
    rw [hx]
    exact ⟨by simp [Table.Started, table, hrun], by simp [hrun]⟩
  | @plain s w k hs hop hb =>
    obtain ⟨hn, hown⟩ := hg.wait o s rest w k p hs hop hp
    refine ⟨?_, hn, fun q hq => ?_⟩
    · simp only [buildable, hp, Bool.and_eq_true, Option.all_some] at hb
      exact hb.1.2
    · rcases hown q hq with hl | hl <;> exact ⟨by simp [Table.Started, table, hl], by simp [hl]⟩

theorem effect_operates {code : Code σ μ} {c c' : Context σ μ} {l : Label} {out : List (Event μ)}
    (he : Effect code c l out c') {o : ObjId} (h : c'.Operates o) :
    c.Operates o ∨ ∃ role s rest d k, c.stack = ⟨role, .code s⟩ :: rest ∧ code.op s = .asyncOp d k ∧
      role.self = some o := by
  obtain ⟨s, h⟩ := h
  cases effect_names he with
  | same hn => exact .inl ⟨s, hn ▸ h⟩
  | newSlot hs ho hn => exact .inl ⟨s, by simpa [hn] using h⟩
  | @asyncOp role s₀ d k rest hs hop hn =>
    simp only [hn, List.mem_append, List.mem_singleton, Prod.mk.injEq] at h
    rcases h with (h | ⟨ho, -⟩) | h
    · exact .inl ⟨s, .inl h⟩
    · exact .inr ⟨role, s₀, rest, d, k, hs, hop, ho.symm⟩
    · exact .inl ⟨s, .inr h⟩
  | @asyncDone role s₀ d k rest hs hop hn =>
    simp only [hn, List.mem_append, List.mem_singleton, Prod.mk.injEq] at h
    rcases h with h | h | ⟨ho, -⟩
    · exact .inl ⟨s, .inl h⟩
    · exact .inl ⟨s, .inr h⟩
    · exact .inr ⟨role, s₀, rest, d, k, hs, hop, ho.symm⟩
  | io hc ho ha hu =>
    rcases h with h | h
    · exact .inl ⟨s, .inl (ha h)⟩
    · exact .inl ⟨s, (List.mem_append.mp (hu h)).symm⟩

/-- Whose operations are outstanding, or whose handler runs, is there before the step, as far as its code
respects the rules. -/
theorem Kept.operator {code : Code σ μ} {c c' : Context σ μ} {l : Label} {out : List (Event μ)}
    (he : Effect code c l out c') (hk : c.Known) (hg : c.Careful code l) (h : c.Kept) {o : ObjId}
    (ho : c'.Operates o ∨ .handler (some o) ∈ c'.table.roles) :
    c.table.Started o ∧ (c.heap o).life ≠ .destroyed ∧ ¬ c.Destroys o := by
  have hold (ho : c.Operates o) : c.table.Started o ∧ (c.heap o).life ≠ .destroyed ∧ ¬ c.Destroys o :=
    ⟨(h.operations o (.inl ho)).1, (h.operations o (.inl ho)).2, fun hd => hg.operations o hd ho⟩
  have hrole (ho : .handler (some o) ∈ c.table.roles) :
      c.table.Started o ∧ (c.heap o).life ≠ .destroyed ∧ ¬ c.Destroys o :=
    ⟨(h.operations o (.inr ho)).1, (h.operations o (.inr ho)).2, fun hd => by simp [table, hd.1] at ho⟩
  rcases ho with ho | ho
  · rcases effect_operates he ho with ho | ⟨role, s, rest, d, k, hs, hop, hself⟩
    · exact hold ho
    · have hnot := hg.asyncOp _ _ _ _ _ hs hop
      have hin : role ∈ c.table.roles := by simp [roles_top hs]
      cases role with
      | main => cases hself
      | ctor p => exact absurd rfl (hnot.1 p)
      | dtor p => exact absurd rfl (hnot.2 p)
      | body p =>
        cases hself
        exact ⟨hk.sound.refs.body hin, hk.sound.table.body hin, fun hd => by simp [hd.1] at hs⟩
      | handler owner =>
        cases hself
        exact hrole hin
  · cases effect_role he hk.sound.table ho with
    | old ho => exact hrole ho
    | handler hu => exact hold ⟨_, .inr hu⟩

theorem step_kept {code : Code σ μ} {c c' : Context σ μ} {l : Label} {out : List (Event μ)}
    (hs : c.step code l = some (c', out)) (hk : c.Known) (hg : c.Careful code l) (h : c.Kept) :
    c'.Kept := by
  have he := (step_effect hs).2
  have hkeep := step_keeps he hk.sound.table
  have hstore := effect_store he
  refine ⟨fun p => step_gone hs hk hg h, fun o p ho hp => ?_, fun hserv o p q ho hp hq hd => ?_, ?_,
    fun o ho => ?_, fun o ho => ?_⟩
  · cases effect_idle he hk.sound.table hk.sound.refs hk.sound.unstarted ho with
    | same hidle hcell =>
      rw [awaited_of_cells hcell] at hp
      obtain ⟨hknown, hst⟩ := h.waits o p hidle hp
      exact ⟨hstore.known p hknown, fun q hq => hkeep.started (hst q (hstore.owner p hknown ▸ hq))⟩
    | suspend hw he' =>
      rw [he', awaited_suspended] at hp
      obtain ⟨hknown, -, hown⟩ := awaits_promise hk hg hw hp
      exact ⟨hstore.known p hknown, fun q hq => hkeep.started (hown q (hstore.owner p hknown ▸ hq)).1⟩
    | fresh hl hn ht =>
      have hl : (c'.heap o).lastWaiting = none := hl
      simp [awaited, hl] at hp
  · have hwas := effect_serving he hserv
    have hd := (hkeep.destroyed hd).resolve_right (serving_not_destroys hwas)
    cases effect_idle he hk.sound.table hk.sound.refs hk.sound.unstarted ho with
    | same hidle hcell =>
      rw [awaited_of_cells hcell] at hp
      rw [hstore.owner p (h.waits o p hidle hp).1] at hq
      rcases hwas with hwas | hleave
      · exact h.alive hwas o p q hidle hp hq hd
      · exact hg.leave hleave o p q hidle.1 hp hq hd
    | suspend hw he' =>
      rw [he', awaited_suspended] at hp
      obtain ⟨hknown, -, hown⟩ := awaits_promise hk hg hw hp
      exact (hown q (hstore.owner p hknown ▸ hq)).2 hd
    | fresh hl hn ht =>
      have hl : (c'.heap o).lastWaiting = none := hl
      simp [awaited, hl] at hp
  · exact effect_postedAlive he hk.sound.table hg.wakes h.posted
  · rcases effect_dtor he hk.sound.table ho with ho | hd
    · exact hkeep.gone (h.dtors o ho)
    · exact destroyed_of_destroys hk.sound.table hd hs
  · obtain ⟨hst, hlife, hd⟩ := h.operator he hk hg ho
    exact ⟨hkeep.started hst, fun hl => (hkeep.destroyed hl).elim hlife hd⟩

theorem kept_init (main : σ) : (init main : Context σ μ).Kept := by
  refine ⟨fun p hp => ?_, fun o p _ hp => ?_, fun _ o p q _ hp => ?_, postedAlive_init main,
    by simp [init, table], fun o ho => ?_⟩
  · cases p <;> simp [init, knowsPromise] at hp
  · simp [init, awaited] at hp
  · simp [init, awaited] at hp
  · simp [init, Operates, names, table] at ho

/-! ## No fault is left -/

theorem Kept.no_fault {code : Code σ μ} {c : Context σ μ} {l : Label} (hc : c.fault = none)
    (hk : c.Known) (hg : c.Careful code l) (h : c.Kept) {x : Fault} (hx : Faults code c x) : False := by
  cases hx with
  | @lookup role t rest a f hs ha hq =>
    rcases canQueue_error hq with ⟨hf, -⟩ | ⟨⟨o, hf⟩, hn, -⟩
    · have hin := (inUse_iff hk.sound.table _).mp (hg.lookup _ _ _ _ hs ha)
      rw [(findProcConst_eq_iff c a.pid).mpr (.inr hin)] at hf
      cases hf
    · have hmade : c.made a = true := by
        rcases ha with ⟨m, k, hat⟩ | ⟨_, _, -, -, hm⟩
        · exact (atCheck_made hs hat).elim (hk.sound.addressed a) id
        · exact hm
      obtain ⟨hlt, hown, hrun⟩ := hk.owner hg.pids hmade (findProcConst_some hf)
      exact h.slot_there hlt (.inl (hown ▸ hrun)) hn
  | @test role s rest w k f hs hop hb hw =>
    obtain ⟨o, rfl⟩ := hg.coAwait _ _ _ hs (.inl ⟨w, k, hop⟩)
    rcases awaitReady_error hw with ⟨s', hin, hn, -⟩ | ⟨p, hp, hn, -⟩
    · simp only [buildable, Bool.and_eq_true, List.all_eq_true] at hb
      exact h.own_slot hk (by simp [roles_top hs]) (hb.1.1 s' hin) hn
    · exact hg.test _ _ _ _ _ p hs hop hp hn
  | @receive role s rest ss k f hs hop ho hf =>
    obtain ⟨o, rfl⟩ := hg.coAwait _ _ _ hs (.inr ⟨ss, k, hop⟩)
    obtain ⟨s', hin, hn⟩ := getVals_fault hc hf
    exact h.own_slot hk (by simp [roles_top hs]) (List.all_eq_true.mp ho s' hin) hn
  | wait hw hp hn => exact (awaits_promise hk hg hw hp).2.1 hn
  | act hs ha hn => exact hg.act _ _ _ _ _ hs ha hn
  | dtorThrew hs hop => exact hg.dtor _ _ _ _ hs hop
  | @deliver a m q o hs hp hq hf hn =>
    have hmade : c.made a = true := hk.sound.addressed a (.queued (m := m) (by simp [hq]))
    obtain ⟨hlt, hown, hrun⟩ := hk.owner hg.pids hmade hf
    exact h.slot_there hlt (.inl (hown ▸ hrun)) hn
  | @resume o p hw hd ha hn =>
    have hidle : c.Idle o := ⟨hd, by simp [table, hw.stack]⟩
    exact h.promise_there hw.serving hidle ha hn
  | @handler d o hr ho hl =>
    rcases hk.timers.runs hk.sound hr ho hl with ⟨n, rfl⟩ | ⟨s, rfl⟩
    · have hst : c.table.Started o := hk.sound.refs.wakes (w := .continuation ⟨o, n⟩) (.posted hr.mem)
      exact h.posted ⟨o, n⟩ hr.mem ((RunningProcess.freed_iff.mp hl).resolve_right hst.2)
    · have hop : c.Operates o := ⟨s, .inr (List.mem_filterMap.mpr ⟨_, hr.mem, rfl⟩)⟩
      obtain ⟨hst, hlife⟩ := h.operations o (.inl hop)
      exact (RunningProcess.freed_iff.mp hl).elim hlife hst.2

end Context

theorem Code.kept {σ μ : Type} {code : Code σ μ} {main : σ} {tr : List (Event μ)}
    {c : Context σ μ} (h : code.RunsTo (Context.Careful code) main tr c) :
    c.fault = none ∧ c.Kept := by
  have hknown {tr : List (Event μ)} {c : Context σ μ} (h : code.RunsTo (Context.Careful code) main tr c) :
      c.Known :=
    ⟨Code.sound h, Code.timersAlive h, fun hv => Code.pid_inj h hv⟩
  refine h.invariant_of Context.Known (fun c => c.fault = none ∧ c.Kept) hknown
    ⟨rfl, Context.kept_init main⟩ fun c l c' out hk hi hg hs => ⟨?_, Context.step_kept hs hk hg hi.2⟩
  cases hx : c'.fault with
  | none => rfl
  | some x => exact (hi.2.no_fault hi.1 hk hg (Context.step_faults hs hx)).elim

/-! ## Programs without promises -/

/-- The calls of programs that send, receive, sleep, yield, spawn, link and kill, but use no promise, no
throttled send and no slot that goes before its process, and whose processes start no operation of the
io_service; only coroutines await, and destructors do not throw. -/
def Op.plain {σ μ : Type} (role : Role) : Op σ μ → Bool
  | .send _ _ _ | .waitOnQueue _ | .makeSendAddress _ _ _ | .pid _ | .newSlot _ | .spawn _ _ _ => true
  | .addKillOnDie _ _ | .link _ _ | .queueKill _ _ | .newPromise _ => true
  | .asyncOp _ _ => role.self.isNone
  | .started _ | .coReturn => true
  | .awaitReady w _ => (match role with | .body _ => true | _ => false) && w.readyFuture.isNone
  | .awaitSuspend w _ => w.wakeOnFuture.isNone
  | .getVals _ _ => match role with | .body _ => true | _ => false
  | .throw _ => match role with | .dtor _ => false | _ => true
  | .sendThrottled _ _ _ | .canQueue _ _ | .dropSlot _ _ => false
  | .setIfUnset _ _ | .setException _ _ _ | .resetPromise _ _ => false

namespace Context
variable {σ μ : Type}

/-- The running code makes a plain call, and fewer than `2 ^ 64` processes have been made. -/
def PlainCalls (code : Code σ μ) (c : Context σ μ) (_ : Label) : Prop :=
  c.heapSize < 2 ^ 64 ∧ c.top?.all (fun f => (code.op f.2).plain f.1) = true

instance (code : Code σ μ) (c : Context σ μ) (l : Label) : Decidable (c.PlainCalls code l) :=
  inferInstanceAs (Decidable (_ ∧ _))

theorem PlainCalls.op {code : Code σ μ} {c : Context σ μ} {l : Label} (h : c.PlainCalls code l)
    {role : Role} {s : σ} {rest : List (Frame σ μ)} (hs : c.stack = ⟨role, .code s⟩ :: rest) :
    (code.op s).plain role = true := by
  have htop : c.top? = some (role, s) := top?_eq_some.mpr ⟨rest, hs⟩
  simpa [PlainCalls, htop] using h.2

/-- Nothing waits on a promise, no code is inside `sendThrottled`, and no process has an operation. -/
structure Unpromised (c : Context σ μ) : Prop where
  frames : ∀ f ∈ c.stack, ∃ s, f.code = .code s
  tasks : ∀ o, ∃ s, (c.cells o).task = .code s
  waits : ∀ o, c.awaited o = none
  continuations : ∀ k, ¬ c.Holds (.continuation k)
  operations : ∀ o, ¬ c.Operates o

theorem Unpromised.awaits {code : Code σ μ} {c : Context σ μ} {l : Label} (h : c.Unpromised)
    (hg : c.PlainCalls code l) {o : ObjId} {rest : List (Frame σ μ)} {w : Waiting} {t : Coro σ μ}
    (hw : Awaits code c o rest w t) : w.wakeOnFuture = none ∧ ∃ s, t = .code s := by
  cases hw with
  | yield hs hop hm hq =>
    have hplain := hg.op hs
    simp [hop, Op.plain] at hplain
  | throttle hs ht hc =>
    rcases ht with rfl | ⟨s, rfl, hop, -⟩
    · obtain ⟨s, hs'⟩ := h.frames _ (by rw [hs]; exact List.mem_cons_self)
      cases hs'
    · have hplain := hg.op hs
      simp [hop, Op.plain] at hplain
  | @plain s w k hs hop hb =>
    have hplain := hg.op hs
    simp only [hop, Op.plain, Option.isNone_iff_eq_none] at hplain
    exact ⟨hplain, k, rfl⟩

end Context

end Eslang
