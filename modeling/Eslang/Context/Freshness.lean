import Eslang.Context.EventLoop
import Eslang.Context.Phases
import Eslang.Context.Pids

/-! # Only the current wait resumes a process

Three things resume a process besides a message: an item of `queue_`, a continuation of a promise and the
handler of its timer. Each carries the `resumes` count of the suspension that registered it, and
`RunningProcess::resume` raises the count, so the counts of the suspensions of one process are all different.
The item and the continuation compare their count with the current one. The timer does not: it is cancelled
instead, which does not withdraw a handler that is already queued. `TimersInTime` says that this does not
happen: no live process is resumed by its continuation while the handler of its timer is queued. -/
namespace Eslang
set_option autoImplicit false
open Lib

namespace Context
variable {σ μ : Type}

/-! ## Expired timers are handled before the loop over `queue_` goes on -/

def Drained (c : Context σ μ) : Prop :=
  c.phase = .loop ∨ c.phase = .destroying ∨ c.io.stopped = true → c.io.expired = []

theorem expired_suspended (c : Context σ μ) (o : ObjId) (w : Waiting) (t : Coro σ μ) :
    (c.suspended o w t).io.expired = c.io.expired := by
  have hfuture : ∀ d : Context σ μ, (d.armFuture o w).io.expired = d.io.expired := by
    intro d
    unfold armFuture onPromise
    split
    · rfl
    · split
      · rfl
      · simp [post, io_setPromise]
  unfold suspended arm
  split
  · rfl
  · rw [hfuture, armTimer]
    split
    · rfl
    · exact IoService.expired_cancel c.io o

theorem effect_expired {code : Code σ μ} {c c' : Context σ μ} {l : Label} {out : List (Event μ)}
    (he : Effect code c l out c') :
    c'.io.expired.Sublist c.io.expired ∨ c.looking = true ∧ c'.phase = c.phase ∧
      c'.io.stopped = c.io.stopped := by
  cases effect_suspends he with
  | suspend hw he' =>
    subst he'
    rw [expired_suspended]
    exact .inl (.refl _)
  | expire hl hw he' =>
    subst he'
    exact .inr ⟨hl, rfl, rfl⟩
  | less h => exact .inl h.expired

theorem effect_drained {code : Code σ μ} {c c' : Context σ μ} {l : Label} {out : List (Event μ)}
    (he : Effect code c l out c') (h : c.Drained) : c'.Drained := by
  intro hquiet
  rcases effect_expired he with hsub | ⟨hlook, hp, hst⟩
  · have hold : c.io.expired = [] := by
      have hready (hr : c.io.ready = []) : c.io.expired = [] := by simp [IoService.expired, hr]
      have hstopped (hst : c'.io.stopped = true) : c.io.expired = [] := by
        rcases effect_io he with hio | ⟨hsame, -⟩
        · rw [hio, IoService.stopIfIdle, Bool.or_eq_true] at hst
          rcases hst with hst | hw
          · exact h (.inr (.inr hst))
          · simp only [IoService.noWork, Bool.and_eq_true, List.isEmpty_iff] at hw
            exact hready hw.1.1
        · exact h (.inr (.inr (hsame ▸ hst)))
      cases effect_phase he with
      | code hs hp =>
        rw [hp] at hquiet
        rcases hquiet with hq | hq | hq
        · exact h (.inl hq)
        · exact h (.inr (.inl hq))
        · exact hstopped hq
      | threw hs hr hp =>
        rw [hp] at hquiet
        exact hstopped (by simpa using hquiet)
      | wait hs hp hs' ht =>
        rw [hp] at hquiet
        rcases hquiet with hq | hq | hq
        · exact h (.inl hq)
        · exact h (.inr (.inl hq))
        · exact hstopped hq
      | inside hs hl hf hd =>
        rcases hquiet with hq | hq | hq
        · exact absurd hq hl
        · rcases hd hq with hd | hd | hd | hd
          · exact h (.inl hd)
          · exact h (.inr (.inl hd))
          · exact h (.inr (.inr hd))
          · exact hready hd
        · exact hstopped hq
      | finish hs hp hn he' => exact h (.inl hp)
      | back hs hp hd he' => exact h (.inr (.inl hp))
    rw [hold] at hsub
    exact List.sublist_nil.mp hsub
  · simp only [looking, Bool.and_eq_true, Bool.or_eq_true, decide_eq_true_eq, Bool.not_eq_true']
      at hlook
    rw [hp, hst] at hquiet
    rcases hlook.1.2 with hp | hp <;> simp [hp, hlook.2] at hquiet

theorem drained_init (main : σ) : (init main : Context σ μ).Drained := fun _ => rfl

/-! ## What resumes a body -/

theorem effect_entered {code : Code σ μ} {c c' : Context σ μ} {l : Label} {out : List (Event μ)}
    (he : Effect code c l out c') {o : ObjId} (hb : .body o ∈ c'.table.roles) :
    .body o ∈ c.table.roles ∨
      c.Woken o ∧ (c.heap o).dead = false ∧ c'.cells o = (c.cells o).resume ∧
        c'.io = c.takenIo.cancel o := by
  have hb : .body o ∈ c'.stack.map Frame.role := hb
  show .body o ∈ c.stack.map Frame.role ∨ _
  cases effect_stack he with
  | same hst => exact .inl (hst ▸ hb)
  | goOn hs hst =>
    rw [hst] at hb
    rw [hs]
    exact .inl hb
  | pop hs hst =>
    rw [hst] at hb
    rw [hs]
    exact .inl (List.mem_cons_of_mem _ hb)
  | call hs hst =>
    rw [hst] at hb
    exact .inl ((List.mem_cons.mp hb).resolve_left (by simp))
  | ret hs hst =>
    rw [hst] at hb
    rw [hs]
    exact .inl (List.mem_cons_of_mem _ hb)
  | @resumed o' hs hw hd hq hst hio hc =>
    simp only [hst, List.map_cons, List.map_nil, List.mem_singleton, Role.body.injEq] at hb
    subst hb
    exact .inr ⟨hw, hd, hc, hio⟩
  | enter hs hr hst =>
    simp only [hst, List.map_cons, List.map_nil, List.mem_singleton] at hb
    rcases hr with ⟨_, rfl⟩ | ⟨_, rfl, -⟩ <;> cases hb

theorem effect_resumes_le {code : Code σ μ} {c c' : Context σ μ} {l : Label} {out : List (Event μ)}
    (he : Effect code c l out c') (ht : c.table.Ok) {o : ObjId} (ho : o < c.heapSize) :
    (c.heap o).resumes ≤ (c'.heap o).resumes := by
  show (c.cells o).resumes ≤ (c'.cells o).resumes
  cases effect_cell he ht o with
  | same hc _ => rw [hc]
  | suspend hw he' =>
    rw [he', cells_suspended, Function.update_self]
    exact Nat.le_refl _
  | resumed _ _ _ hc =>
    rw [hc]
    exact Nat.le_succ _
  | returned _ _ hc =>
    rw [hc]
    exact Nat.le_refl _
  | created hn _ _ _ => exact absurd ho (hn ▸ Nat.lt_irrefl _)
  | started _ hc => rw [hc]

/-- A process that idles stays so in its wait, dies, or is resumed. -/
theorem effect_idle_forward {code : Code σ μ} {c c' : Context σ μ} {l : Label}
    {out : List (Event μ)} (he : Effect code c l out c') (ht : c.table.Ok) {o : ObjId}
    (h : c.Idle o) (ho : o < c.heapSize) (hd : (c'.heap o).dead = false) :
    (c'.Idle o ∧ (c'.heap o).resumes = (c.heap o).resumes ∧
        (c'.heap o).lastWaiting = (c.heap o).lastWaiting) ∨
      c.Woken o ∧ (c'.heap o).resumes = (c.heap o).resumes + 1 ∧ c'.io = c.takenIo.cancel o := by
  by_cases hb : .body o ∈ c'.table.roles
  · obtain ⟨hw, -, hc, hio⟩ := (effect_entered he hb).resolve_left h.2
    exact .inr ⟨hw, congrArg Cell.resumes hc, hio⟩
  · refine .inl ⟨⟨hd, hb⟩, ?_⟩
    show (c'.cells o).resumes = (c.cells o).resumes ∧
      (c'.cells o).lastWaiting = (c.cells o).lastWaiting
    cases effect_cell he ht o with
    | same hc _ => rw [hc]; exact ⟨rfl, rfl⟩
    | suspend hw _ =>
      obtain ⟨t, hs⟩ := hw.stack
      exact absurd (by simp [roles_top hs]) h.2
    | resumed _ _ hb' _ => exact absurd hb' hb
    | returned hb' _ _ => exact absurd hb' h.2
    | created hn _ _ _ => exact absurd ho (hn ▸ Nat.lt_irrefl _)
    | started _ hc => rw [hc]; exact ⟨rfl, rfl⟩

theorem Awaits.idle {code : Code σ μ} {c c' : Context σ μ} (hsh : c.Shaped) {o : ObjId}
    {rest : List (Frame σ μ)} {w : Waiting} {t : Coro σ μ} (hw : Awaits code c o rest w t)
    (he : c' = { c with stack := rest }.suspended o w t) (hd : (c'.heap o).dead = false) :
    c'.Idle o := by
  obtain ⟨t₀, hs⟩ := hw.stack
  rw [Shaped, hs, List.map_cons] at hsh
  have hnil := hsh.alone (by simp)
  refine ⟨hd, ?_⟩
  rw [he, table_suspended]
  simp [table, hnil]

/-! ## Wake-ups are those of the current wait -/

/-- No live process is resumed by its continuation while the handler of its timer is queued. -/
def TimersInTime (c : Context σ μ) (_ : Label) : Prop :=
  ∀ o ds, c.stack = [] → (c.phase = .runOne ∨ c.phase = .poll) → c.io.stopped = false →
    c.io.ready = .continuation ⟨o, (c.heap o).resumes⟩ :: ds → (c.heap o).dead = false →
    ∀ n, .timer o n ∉ ds

/-- `o` is suspended in a wait that registers wake-ups of the kind of `w`. -/
def Expects (c : Context σ μ) (o : ObjId) (w : Wake) : Prop :=
  c.Idle o ∧ ∃ wt, (c.heap o).lastWaiting = some wt ∧ wt.registers w = true

/-- The resume item `(p, n)` is one that process `o` queued: if it is not outdated, `o` waits for it. -/
def Queued (c : Context σ μ) (o : ObjId) (p : Pid) (n : Nat) : Prop :=
  o < c.heapSize ∧ (c.heap o).pid = p ∧ n ≤ (c.heap o).resumes ∧
    (n = (c.heap o).resumes → (c.heap o).dead = false →
      c.Idle o ∧ ∀ wt, (c.heap o).lastWaiting = some wt → wt.isReadyForResume = true)

structure Fresh (c : Context σ μ) : Prop where
  timer : ∀ o n, (o, n) ∈ c.io.clock → (c.heap o).dead = false →
    n = (c.heap o).resumes ∧ c.Expects o (.timer o n)
  single : ∀ o, (c.heap o).dead = false → c.io.clock.countP (·.1 = o) ≤ 1
  continuation : ∀ k, c.Holds (.continuation k) → (c.heap k.this).dead = false →
    k.resumes ≤ (c.heap k.this).resumes ∧
      (k.resumes = (c.heap k.this).resumes → c.Expects k.this (.continuation k))
  item : ∀ p n, .resume p n ∈ c.queue → ∃ o, c.Queued o p n

theorem resumed_clock {c c' : Context σ μ} {l : Label} (hdr : c.Drained) (hg : c.TimersInTime l)
    {o : ObjId} (hone : c.io.clock.countP (·.1 = o) ≤ 1) (hd : (c.heap o).dead = false)
    (hw : c.Woken o) (hio : c'.io = c.takenIo.cancel o) (n : Nat) : (o, n) ∉ c'.io.clock := by
  intro hin
  have hexp : (o, n) ∈ c.takenIo.expired := by
    rw [hio, IoService.clock, IoService.expired_cancel] at hin
    rcases List.mem_append.mp hin with hin | hin
    · obtain ⟨w, hw, he⟩ := List.mem_map.mp hin
      have hne := (List.mem_filter.mp hw).2
      cases he
      simp at hne
    · exact hin
  have hloop (hp : c.phase = .loop) : False := by
    rw [takenIo_loop hp, hdr (.inl hp)] at hexp
    cases hexp
  cases hw with
  | item hs hp hq hf => exact hloop hp
  | message hs hp hq hf hw => exact hloop hp
  | @timer m ds hs hp hst hr =>
    rw [takenIo_run hp hr] at hexp
    have hexp : (o, n) ∈ ds.filterMap Handler.timer? := hexp
    have hpos : 0 < (ds.filterMap Handler.timer?).countP (·.1 = o) :=
      List.countP_pos_iff.mpr ⟨_, hexp, by simp⟩
    simp only [IoService.clock, IoService.expired, hr, List.filterMap_cons, Handler.timer?,
      List.countP_append, List.countP_cons, decide_true, if_true] at hone
    omega
  | @continuation ds hs hp hst hr =>
    rw [takenIo_run hp hr] at hexp
    exact hg o ds hs hp hst hr hd n (IoService.mem_expired.mp hexp)

theorem dead_backward {code : Code σ μ} {c c' : Context σ μ} {l : Label} {out : List (Event μ)}
    (he : Effect code c l out c') (ht : c.table.Ok) {o : ObjId} (hd : (c'.heap o).dead = false) :
    (c.heap o).dead = false := by
  by_contra hn
  cases hd.symm.trans (dead_forward (step_keeps he ht) (by simpa using hn))

/-- A process that expects a wake-up goes on to expect it, dies, or is resumed. -/
theorem effect_expects {code : Code σ μ} {c c' : Context σ μ} {l : Label} {out : List (Event μ)}
    (he : Effect code c l out c') (ht : c.table.Ok) {o : ObjId} {w : Wake} (h : c.Expects o w)
    (ho : o < c.heapSize) (hd : (c'.heap o).dead = false) :
    (c'.Expects o w ∧ (c'.heap o).resumes = (c.heap o).resumes) ∨
      c.Woken o ∧ (c'.heap o).resumes = (c.heap o).resumes + 1 ∧ c'.io = c.takenIo.cancel o := by
  obtain ⟨hidle, wt, hw, hr⟩ := h
  rcases effect_idle_forward he ht hidle ho hd with ⟨hidle', hres, hlast⟩ | h
  · exact .inl ⟨⟨hidle', wt, hlast.trans hw, hr⟩, hres⟩
  · exact .inr h

theorem suspended_expects {code : Code σ μ} {c c' : Context σ μ} (hsh : c.Shaped) {o : ObjId}
    {rest : List (Frame σ μ)} {wt : Waiting} {t : Coro σ μ} (hw : Awaits code c o rest wt t)
    (he : c' = { c with stack := rest }.suspended o wt t) (hd : (c'.heap o).dead = false) {w : Wake}
    (hr : wt.registers w = true) :
    (c'.heap o).resumes = (c.heap o).resumes ∧ c'.Expects o w := by
  have hcell : c'.cells o = (c.cells o).suspend (some wt) t := by
    rw [he, cells_suspended, Function.update_self]
    rfl
  exact ⟨congrArg Cell.resumes hcell, hw.idle hsh he hd, wt, congrArg Cell.lastWaiting hcell, hr⟩

theorem effect_fresh_timer {code : Code σ μ} {c c' : Context σ μ} {l : Label}
    {out : List (Event μ)} (he : Effect code c l out c') (hc : c.Sound) (hsh : c.Shaped)
    (hdr : c.Drained) (hg : c.TimersInTime l) (h : c.Fresh) {o : ObjId} {n : Nat}
    (hin : (o, n) ∈ c'.io.clock) (hd : (c'.heap o).dead = false) :
    n = (c'.heap o).resumes ∧ c'.Expects o (.timer o n) := by
  rcases effect_registers he (holds_timer.mpr hin) with hold | ⟨o', rest, wt, t, hw, he', hr, hk⟩
  · have hdead := dead_backward he hc.table hd
    obtain ⟨hn, hexp⟩ := h.timer o n (holds_timer.mp hold) hdead
    have ho := started_lt hc.table (hc.refs.wakes hold)
    rcases effect_expects he hc.table hexp ho hd with ⟨hexp', hres⟩ | ⟨hwoken, -, hio⟩
    · exact ⟨hn.trans hres.symm, hexp'⟩
    · exact absurd hin (resumed_clock hdr hg (h.single o hdead) hdead hwoken hio n)
  · obtain ⟨hthis, hcount⟩ := hr
    cases hthis
    obtain ⟨hres, hexp⟩ := suspended_expects hsh hw he' hd hk
    exact ⟨hcount.trans hres.symm, hexp⟩

theorem effect_fresh_single {code : Code σ μ} {c c' : Context σ μ} {l : Label}
    {out : List (Event μ)} (he : Effect code c l out c') (hc : c.Sound) (h : c.Fresh) {o : ObjId}
    (hd : (c'.heap o).dead = false) : c'.io.clock.countP (·.1 = o) ≤ 1 := by
  have hdead := dead_backward he hc.table hd
  cases effect_suspends he with
  | @suspend o' rest w t hw he' =>
    subst he'
    apply ((clock_suspended { c with stack := rest } o' w t).countP_le _).trans
    rw [List.countP_cons]
    by_cases ho : o' = o
    · obtain ⟨t₀, hs⟩ := hw.stack
      have hnone : c.io.clock.countP (·.1 = o) = 0 := by
        refine List.countP_eq_zero.mpr fun e hin heq => ?_
        obtain ⟨o₁, n⟩ := e
        cases of_decide_eq_true heq
        exact (h.timer _ n hin hdead).2.1.2 (by simp [roles_top hs, ho])
      rw [if_pos (by simp [ho])]
      exact Nat.le_of_eq (congrArg (· + 1) hnone)
    · simpa [ho] using h.single o hdead
  | expire hl hw he' =>
    subst he'
    rw [(IoService.clock_expire hw rfl rfl).countP_eq]
    exact h.single o hdead
  | less hless => exact (hless.clock.countP_le _).trans (h.single o hdead)

theorem effect_fresh_continuation {code : Code σ μ} {c c' : Context σ μ} {l : Label}
    {out : List (Event μ)} (he : Effect code c l out c') (hc : c.Sound) (hsh : c.Shaped)
    (h : c.Fresh) {k : Continuation} (hk : c'.Holds (.continuation k))
    (hd : (c'.heap k.this).dead = false) :
    k.resumes ≤ (c'.heap k.this).resumes ∧
      (k.resumes = (c'.heap k.this).resumes → c'.Expects k.this (.continuation k)) := by
  rcases effect_registers he hk with hold | ⟨o', rest, wt, t, hw, he', hr, hreg⟩
  · obtain ⟨hle, hexp⟩ := h.continuation k hold (dead_backward he hc.table hd)
    have ho := started_lt hc.table (hc.refs.wakes hold)
    have hmono := effect_resumes_le he hc.table ho
    refine ⟨hle.trans hmono, fun heq => ?_⟩
    have hcur : k.resumes = (c.heap k.this).resumes := Nat.le_antisymm hle (heq ▸ hmono)
    rcases effect_expects he hc.table (hexp hcur) ho hd with ⟨hexp', -⟩ | ⟨-, hres, -⟩
    · exact hexp'
    · omega
  · obtain ⟨hthis, hcount⟩ := hr
    subst hthis
    obtain ⟨hres, hexp⟩ := suspended_expects hsh hw he' hd hreg
    exact ⟨Nat.le_of_eq (hcount.trans hres.symm), fun _ => hexp⟩

theorem effect_item {code : Code σ μ} {c c' : Context σ μ} {l : Label} {out : List (Event μ)}
    (he : Effect code c l out c') {p : Pid} {n : Nat} (hin : .resume p n ∈ c'.queue) :
    .resume p n ∈ c.queue ∨ Queues c c' p n := by
  rcases effect_queue he with ⟨items, hq, -, hnew⟩ | ⟨-, i, hq⟩
  · rw [hq] at hin
    exact (List.mem_append.mp hin).imp id (hnew p n)
  · exact .inl (hq ▸ List.mem_cons_of_mem _ hin)

theorem Queued.step {code : Code σ μ} {c c' : Context σ μ} {l : Label} {out : List (Event μ)}
    {o : ObjId} {p : Pid} {n : Nat} (h : c.Queued o p n) (he : Effect code c l out c')
    (hc : c.Sound) : c'.Queued o p n := by
  have hk := step_keeps he hc.table
  obtain ⟨ho, hp, hle, hcur⟩ := h
  have hmono := effect_resumes_le he hc.table ho
  refine ⟨Nat.lt_of_lt_of_le ho hk.size, (hk.pid ho).trans hp, hle.trans hmono, fun heq hd => ?_⟩
  have hn : n = (c.heap o).resumes := Nat.le_antisymm hle (heq ▸ hmono)
  obtain ⟨hidle, hready⟩ := hcur hn (dead_backward he hc.table hd)
  rcases effect_idle_forward he hc.table hidle ho hd with ⟨hidle', -, hlast⟩ | ⟨-, hres, -⟩
  · exact ⟨hidle', fun wt hwt => hready wt (hlast.symm.trans hwt)⟩
  · omega

theorem queued_suspend {code : Code σ μ} {c c' : Context σ μ} {l : Label} {out : List (Event μ)}
    (he : Effect code c l out c') (hc : c.Sound) (hsh : c.Shaped) {o : ObjId} {t t' : Coro σ μ}
    {rest : List (Frame σ μ)} {w : Waiting} (hs : c.stack = ⟨.body o, t⟩ :: rest) (hs' : c'.stack = rest)
    (hcell : c'.cells o = (c.cells o).suspend (some w) t') (hr : w.isReadyForResume = true) :
    c'.Queued o (c.heap o).pid (c.heap o).resumes := by
  have hk := step_keeps he hc.table
  have ho := started_lt hc.table (hc.refs.body (o := o) (by simp [roles_top hs]))
  have hres : (c'.heap o).resumes = (c.heap o).resumes := congrArg Cell.resumes hcell
  have hlast : (c'.heap o).lastWaiting = some w := congrArg Cell.lastWaiting hcell
  refine ⟨Nat.lt_of_lt_of_le ho hk.size, hk.pid ho, Nat.le_of_eq hres.symm, fun _ hd => ?_⟩
  refine ⟨⟨hd, ?_⟩, fun wt hwt => ?_⟩
  · rw [Shaped, hs, List.map_cons] at hsh
    have hnil := hsh.alone (by simp)
    simp [table, hs', hnil]
  · cases hlast.symm.trans hwt
    exact hr

theorem queued_start {code : Code σ μ} {c c' : Context σ μ} {l : Label} {out : List (Event μ)}
    (he : Effect code c l out c') (hc : c.Sound) {o : ObjId} {t : Coro σ μ} {rest : List (Frame σ μ)}
    (hs : c.stack = ⟨.ctor o, t⟩ :: rest) : c'.Queued o (c.heap o).pid 0 := by
  have hk := step_keeps he hc.table
  have hcon : (c.heap o).life = .constructing := hc.table.ctor (by simp [roles_top hs])
  have ho : o < c.heapSize := hc.table.allocated (by simp [table, hcon])
  obtain ⟨hlast, hres⟩ := hc.unstarted o fun hst => hst.1 hcon
  refine ⟨Nat.lt_of_lt_of_le ho hk.size, hk.pid ho, Nat.zero_le _, fun _ hd => ?_⟩
  have hbody : .body o ∉ c'.table.roles := by
    intro hb
    rcases effect_entered he hb with hb | ⟨hw, -⟩
    · exact (hc.refs.body hb).1 hcon
    · cases hw <;> simp_all
  refine ⟨⟨hd, hbody⟩, fun wt hwt => ?_⟩
  have hidle : c.Idle o := ⟨dead_backward he hc.table hd, fun hb => (hc.refs.body hb).1 hcon⟩
  rcases effect_idle_forward he hc.table hidle ho hd with ⟨-, -, hsame⟩ | ⟨hw, -⟩
  · cases (hwt.symm.trans hsame).trans hlast
  · cases hw <;> simp_all

theorem effect_fresh_item {code : Code σ μ} {c c' : Context σ μ} {l : Label}
    {out : List (Event μ)} (he : Effect code c l out c') (hc : c.Sound) (hsh : c.Shaped)
    (h : c.Fresh) {p : Pid} {n : Nat} (hin : .resume p n ∈ c'.queue) : ∃ o, c'.Queued o p n := by
  rcases effect_item he hin with hold | hnew
  · obtain ⟨o, ho⟩ := h.item p n hold
    exact ⟨o, ho.step he hc⟩
  · cases hnew with
    | suspend hs hs' hp hn hcell hr => exact ⟨_, hp ▸ hn ▸ queued_suspend he hc hsh hs hs' hcell hr⟩
    | start hs hp hn => exact ⟨_, hp ▸ hn ▸ queued_start he hc hs⟩

/-- **Wake-ups stay those of the current wait** as long as no continuation overtakes a queued timer. -/
theorem effect_fresh {code : Code σ μ} {c c' : Context σ μ} {l : Label} {out : List (Event μ)}
    (he : Effect code c l out c') (hc : c.Sound) (hsh : c.Shaped) (hdr : c.Drained)
    (hg : c.TimersInTime l) (h : c.Fresh) : c'.Fresh where
  timer _ _ hin hd := effect_fresh_timer he hc hsh hdr hg h hin hd
  single _ hd := effect_fresh_single he hc h hd
  continuation _ hk hd := effect_fresh_continuation he hc hsh h hk hd
  item _ _ hin := effect_fresh_item he hc hsh h hin

theorem fresh_init (main : σ) : (init main : Context σ μ).Fresh := by
  refine ⟨fun o n h => ?_, fun o _ => Nat.zero_le _, fun k h => ?_, fun p n h => ?_⟩
  · cases h
  · rcases h with ⟨h, -⟩ | h
    · rename_i f p
      cases f <;> simp [init, promise] at h
    · cases h
  · cases h

end Context

theorem Code.drained {σ μ : Type} {code : Code σ μ} {ok : Context σ μ → Label → Prop} {main : σ}
    {tr : List (Event μ)} {c : Context σ μ} (h : code.RunsTo ok main tr c) : c.Drained :=
  h.invariant (fun _ c => c.Drained) (Context.drained_init main)
    fun _ _ _ _ _ hi _ hs => Context.effect_drained (Context.step_effect hs).2 hi

theorem Code.fresh {σ μ : Type} {code : Code σ μ} {main : σ} {tr : List (Event μ)}
    {c : Context σ μ} (h : code.RunsTo Context.TimersInTime main tr c) : c.Fresh :=
  h.invariant_of (fun c => c.Sound ∧ c.Shaped ∧ c.Drained) Context.Fresh
    (fun h => ⟨Code.sound h, Code.shaped h, Code.drained h⟩) (Context.fresh_init main)
    fun _ _ _ _ hc hi hg hs =>
      Context.effect_fresh (Context.step_effect hs).2 hc.1 hc.2.1 hc.2.2 hg hi

/-! ## The suspensions of a run -/

/-- A suspension of process `who` in `wait`; the wake-ups it registers carry `count`. -/
structure Suspension where
  who : ObjId
  count : Nat
  wait : Waiting
deriving DecidableEq, Repr

namespace Context
variable {σ μ : Type}

/-- The wait of `sendThrottled` on a full slot. -/
def throttleWait (c : Context σ μ) (a : SendAddress) : Option Waiting :=
  match c.canQueue a with
  | .ok (some p) => some (.future p)
  | .ok none | .error _ => none

/-- The wait in which the running code is about to suspend. -/
def nextWait (code : Code σ μ) (c : Context σ μ) : Coro σ μ → Option Waiting
  | .code s =>
      match code.op s with
      | .awaitSuspend w _ => some w
      | .sendThrottled a _ _ => if c.waitOnQueue then some .yield else c.throttleWait a
      | _ => none
  | .throttled a _ _ => c.throttleWait a

/-- The suspension of the next step, if it is one. -/
def suspensions (code : Code σ μ) (c : Context σ μ) (_ : Label) : List Suspension :=
  match c.stack with
  | ⟨.body o, t⟩ :: _ => ((c.nextWait code t).map fun w => ⟨o, (c.heap o).resumes, w⟩).toList
  | _ => []

theorem throttleWait_eq {c : Context σ μ} {a : SendAddress} {w : Waiting} :
    c.throttleWait a = some w ↔ ∃ p, c.canQueue a = .ok (some p) ∧ w = .future p := by
  unfold throttleWait
  split
  next p hc => simp [hc, eq_comm]
  next hc => simp [hc]
  next f hc => simp [hc]

theorem awaits_suspensions {code : Code σ μ} {c : Context σ μ} {o : ObjId}
    {rest : List (Frame σ μ)} {w : Waiting} {t : Coro σ μ} (hw : Awaits code c o rest w t) (l : Label) :
    c.suspensions code l = [⟨o, (c.heap o).resumes, w⟩] := by
  cases hw with
  | yield hs hop hm hq =>
    have hq : c.waitOnQueue = true := by simpa [waitOnQueue] using hq
    simp [suspensions, hs, nextWait, hop, hq]
  | @throttle t₀ a m k p hs ht hc =>
    have hwait : c.throttleWait a = some (.future p) := throttleWait_eq.mpr ⟨p, hc, rfl⟩
    rcases ht with rfl | ⟨s, rfl, hop, hm, hq⟩
    · simp [suspensions, hs, nextWait, hwait]
    · have hq : c.waitOnQueue = false := by simpa [waitOnQueue] using hq
      simp [suspensions, hs, nextWait, hop, hq, hwait]
  | plain hs hop hb => simp [suspensions, hs, nextWait, hop]

theorem step_of_stack {code : Code σ μ} {c c' : Context σ μ} {l : Label} {out : List (Event μ)}
    {f : Frame σ μ} {rest : List (Frame σ μ)} (hs : c.stack = f :: rest)
    (hno : ∀ s h k, f.code = .code s → code.op s ≠ .asyncOp h k)
    (hstep : c.step code l = some (c', out)) : c.stepCode code f rest = some (c', out) := by
  have hf : c.fault = none := (step_effect hstep).1
  have hlook : c.looking = false := by simp [looking, hs]
  cases l with
  | tick => simpa [step, hf, hs] using hstep
  | atOnce =>
    obtain ⟨role, t⟩ := f
    cases t with
    | throttled a m k => simp [step, hf, stepAtOnce, hs] at hstep
    | code s =>
      simp only [step, hf, Option.isSome_none, Bool.false_eq_true, if_false, stepAtOnce, hs] at hstep
      split at hstep
      next h k hop => exact absurd hop (hno s h k rfl)
      next => cases hstep
  | _ => simp [step, hf, hlook] at hstep

theorem tryQueue_suspension {code : Code σ μ} {c c' : Context σ μ} {out : List (Event μ)}
    {o : ObjId} {t : Coro σ μ} {rest : List (Frame σ μ)} {a : SendAddress} {m : μ} {k : σ}
    (hs : c.stack = ⟨.body o, t⟩ :: rest) (ht : AtCheck code c t a m k)
    (h : c.tryQueue o rest a m k = (c', out)) :
    c.throttleWait a = none ∨ ∃ w t', Awaits code c o rest w t' ∧
      c' = { c with stack := rest }.suspended o w t' := by
  unfold tryQueue at h
  split at h
  next f hc => exact .inl (by simp [throttleWait, hc])
  next p hc =>
    cases h
    exact .inr ⟨.future p, .throttled a m k, .throttle hs ht hc, rfl⟩
  next hc => exact .inl (by simp [throttleWait, hc])

theorem step_suspension {code : Code σ μ} {c c' : Context σ μ} {l : Label} {out : List (Event μ)}
    (hstep : c.step code l = some (c', out)) :
    c.suspensions code l = [] ∨ ∃ o rest w t, Awaits code c o rest w t ∧
      c' = { c with stack := rest }.suspended o w t := by
  unfold suspensions
  split
  next o t rest hs =>
    have hrun (hno : ∀ s h k, t = .code s → code.op s ≠ .asyncOp h k) := step_of_stack hs hno hstep
    have hnone (hw : c.nextWait code t = none) :
        ((c.nextWait code t).map fun w => (⟨o, (c.heap o).resumes, w⟩ : Suspension)).toList = [] := by
      simp [hw]
    cases t with
    | throttled a m k =>
      rcases tryQueue_suspension hs (.inl rfl) (Option.some.inj (hrun (by simp))) with hn | ⟨w, t', hw, he⟩
      · exact .inl (hnone hn)
      · exact .inr ⟨o, rest, w, t', hw, he⟩
    | code s =>
      cases hop : code.op s with
      | awaitSuspend w k =>
        have hcode := hrun (by rintro _ _ _ ⟨⟩; simp [hop])
        simp only [stepCode, hop, stepOp, Option.ite_none_right_eq_some] at hcode
        obtain ⟨hb, hcode⟩ := hcode
        cases hcode
        exact .inr ⟨o, rest, w, .code k, .plain hs hop hb, rfl⟩
      | sendThrottled a m k =>
        have hcode := hrun (by rintro _ _ _ ⟨⟩; simp [hop])
        simp only [stepCode, hop, stepOp, Option.ite_none_right_eq_some] at hcode
        obtain ⟨hm, hcode⟩ := hcode
        split at hcode
        next hq =>
          cases hcode
          exact .inr ⟨o, rest, .yield, .throttled a m k,
            .yield hs hop hm (by simpa [waitOnQueue] using hq), rfl⟩
        next hq =>
          have hshort : c.queue.length ≤ 10 := by simpa [waitOnQueue] using hq
          rcases tryQueue_suspension hs (.inr ⟨s, rfl, hop, hm, hshort⟩) (Option.some.inj hcode) with
            hn | ⟨w, t', hw, he⟩
          · exact .inl (hnone (by simp [nextWait, hop, hq, hn]))
          · exact .inr ⟨o, rest, w, t', hw, he⟩
      | _ => exact .inl (hnone (by simp [nextWait, hop]))
  next => exact .inl rfl

/-- What the log of suspensions says about the state it leads to. -/
structure Recorded (log : List Suspension) (c : Context σ μ) : Prop where
  count : ∀ e ∈ log, e.who < c.heapSize ∧ e.count ≤ (c.heap e.who).resumes ∧
    (e.count = (c.heap e.who).resumes → .body e.who ∉ c.table.roles)
  distinct : (log.map fun e => (e.who, e.count)).Nodup
  last : ∀ o w, c.Idle o → (c.heap o).lastWaiting = some w →
    (log.filter (·.who = o)).getLast? = some ⟨o, (c.heap o).resumes, w⟩
  unwaited : ∀ o, (c.heap o).dead = false → (c.heap o).lastWaiting = none → ∀ e ∈ log, e.who ≠ o

theorem Recorded.count_step {code : Code σ μ} {c c' : Context σ μ} {l : Label}
    {out : List (Event μ)} (he : Effect code c l out c') (ht : c.table.Ok) {log : List Suspension}
    (h : c.Recorded log) {e : Suspension} (hin : e ∈ log) :
    e.who < c'.heapSize ∧ e.count ≤ (c'.heap e.who).resumes ∧
      (e.count = (c'.heap e.who).resumes → .body e.who ∉ c'.table.roles) := by
  obtain ⟨ho, hle, hbody⟩ := h.count e hin
  have hmono := effect_resumes_le he ht ho
  refine ⟨Nat.lt_of_lt_of_le ho (step_keeps he ht).size, hle.trans hmono, fun heq hb => ?_⟩
  rcases effect_entered he hb with hb | ⟨-, -, hcell, -⟩
  · exact hbody (Nat.le_antisymm hle (heq ▸ hmono)) hb
  · have hres : (c'.heap e.who).resumes = (c.heap e.who).resumes + 1 := congrArg Cell.resumes hcell
    omega

/-- A process that is not dead and has never waited had never waited before. -/
theorem effect_unwaited {code : Code σ μ} {c c' : Context σ μ} {l : Label} {out : List (Event μ)}
    (he : Effect code c l out c') (hc : c.Sound) {o : ObjId} (hd : (c'.heap o).dead = false)
    (hw : (c'.heap o).lastWaiting = none) : (c.heap o).lastWaiting = none ∨ o = c.heapSize := by
  have hw : (c'.cells o).lastWaiting = none := hw
  show (c.cells o).lastWaiting = none ∨ _
  cases effect_cell he hc.table o with
  | same hcell _ => exact .inl (hcell ▸ hw)
  | suspend _ he' =>
    rw [he', cells_suspended, Function.update_self] at hw
    cases hw
  | resumed _ _ _ hcell => exact .inl (by rw [hcell] at hw; exact hw)
  | returned hb hl _ =>
    have hst := (step_keeps he hc.table).started (hc.refs.body hb)
    cases hd.symm.trans (dead_iff.mpr ⟨hst, hl⟩)
  | created ho _ _ _ => exact .inr ho
  | started _ hcell => exact .inl (by rw [hcell] at hw; exact hw)

theorem step_recorded {code : Code σ μ} {c c' : Context σ μ} {l : Label} {out : List (Event μ)}
    {log : List Suspension} (hc : c.Sound) (hsh : c.Shaped) (h : c.Recorded log)
    (hstep : c.step code l = some (c', out)) : c'.Recorded (log ++ c.suspensions code l) := by
  obtain ⟨-, he⟩ := step_effect hstep
  have hold := @Recorded.count_step σ μ code c c' l out he hc.table log h
  have hunwaited : ∀ o, (c'.heap o).dead = false → (c'.heap o).lastWaiting = none →
      ∀ e ∈ log, e.who ≠ o := by
    intro o hd hw e hin heq
    rcases effect_unwaited he hc hd hw with hw | hnew
    · exact h.unwaited o (dead_backward he hc.table hd) hw e hin heq
    · exact absurd (h.count e hin).1 (by rw [heq, hnew]; exact Nat.lt_irrefl _)
  rcases step_suspension hstep with hnone | ⟨o, rest, w, t, hw, he'⟩
  · rw [hnone, List.append_nil]
    refine ⟨fun e => hold, h.distinct, fun o w hidle hlast => ?_, hunwaited⟩
    cases effect_idle he hc.table hc.refs hc.unstarted hidle with
    | same hi hcell =>
      have hres : (c'.heap o).resumes = (c.heap o).resumes := congrArg Cell.resumes hcell
      rw [hres]
      exact h.last o w hi ((congrArg Cell.lastWaiting hcell).symm.trans hlast)
    | suspend hw _ =>
      rw [awaits_suspensions hw l] at hnone
      cases hnone
    | fresh hl _ _ => cases hl.symm.trans hlast
  · obtain ⟨t₀, hs⟩ := hw.stack
    have hbody : .body o ∈ c.table.roles := by simp [roles_top hs]
    have hcell : c'.cells o = (c.cells o).suspend (some w) t := by
      rw [he', cells_suspended, Function.update_self]
      rfl
    have hres : (c'.heap o).resumes = (c.heap o).resumes := congrArg Cell.resumes hcell
    have hwait : (c'.heap o).lastWaiting = some w := congrArg Cell.lastWaiting hcell
    have ho := started_lt hc.table (hc.refs.body hbody)
    rw [awaits_suspensions hw l]
    refine ⟨fun e hin => ?_, ?_, fun x v hidle hlast => ?_, fun x hd hnone e hin => ?_⟩
    · rcases List.mem_append.mp hin with hin | hin
      · exact hold hin
      · cases List.mem_singleton.mp hin
        refine ⟨Nat.lt_of_lt_of_le ho (step_keeps he hc.table).size, Nat.le_of_eq hres.symm, ?_⟩
        intro _
        rw [he', table_suspended]
        rw [Shaped, hs, List.map_cons] at hsh
        simp [table, hsh.alone (by simp)]
    · rw [List.map_append, List.nodup_append]
      refine ⟨h.distinct, by simp, ?_⟩
      rintro ⟨x, n⟩ hx ⟨y, m⟩ hy heq
      obtain ⟨e, hin, he⟩ := List.mem_map.mp hx
      cases he
      simp only [List.map_cons, List.map_nil, List.mem_singleton] at hy
      rw [hy, Prod.mk.injEq] at heq
      have hcount := (h.count e hin).2.2
      rw [heq.1] at hcount
      exact hcount heq.2 hbody
    · rw [List.filter_append]
      by_cases hx : o = x
      · subst hx
        cases hwait.symm.trans hlast
        simp [hres]
      · have hsame : (log.filter (·.who = x)) ++
            ([⟨o, (c.heap o).resumes, w⟩] : List Suspension).filter (·.who = x) =
            log.filter (·.who = x) := by simp [hx]
        rw [hsame]
        cases effect_idle he hc.table hc.refs hc.unstarted hidle with
        | same hi hcell =>
          have hres : (c'.heap x).resumes = (c.heap x).resumes := congrArg Cell.resumes hcell
          rw [hres]
          exact h.last x v hi ((congrArg Cell.lastWaiting hcell).symm.trans hlast)
        | suspend hw' _ =>
          obtain ⟨t₁, hs'⟩ := hw'.stack
          cases hs.symm.trans hs'
          exact absurd rfl hx
        | fresh hl _ _ => cases hl.symm.trans hlast
    · rcases List.mem_append.mp hin with hin | hin
      · exact hunwaited x hd hnone e hin
      · cases List.mem_singleton.mp hin
        rintro rfl
        cases hwait.symm.trans hnone

theorem recorded_init (main : σ) : (init main : Context σ μ).Recorded [] := by
  refine ⟨by simp, by simp, fun o w _ hw => ?_, by simp⟩
  simp [init] at hw

/-! ## Every resume is on behalf of the current wait -/

end Context

/-- What `RunningProcess::resume` is called for, besides a message. -/
inductive Source
  | item
  | continuation
  | timer
deriving DecidableEq, Repr

/-- A suspension in the wait registers this kind of source. -/
def Waiting.arms (w : Waiting) : Source → Bool
  | .item => w.isReadyForResume
  | .continuation => !w.isReadyForResume && w.wakeOnFuture.isSome
  | .timer => !w.isReadyForResume && w.sleepFor.isSome

/-- The next step calls `RunningProcess::resume` on `o` for a source that was registered with count `n`;
an item and a continuation are dropped unless their count is the current one. -/
inductive Context.ResumedBy {σ μ : Type} (c : Context σ μ) (o : ObjId) : Source → Nat → Prop
  | item {p : Pid} {n : Nat} {q : List (ToProcessItem μ)} (hs : c.stack = []) (hp : c.phase = .loop)
      (hq : c.queue = .resume p n :: q) (hf : c.findProc p = some o) (hn : (c.heap o).resumes = n) :
      ResumedBy c o .item n
  | continuation {n : Nat} {ds : List (Handler σ)} (hs : c.stack = [])
      (hp : c.phase = .runOne ∨ c.phase = .poll) (hst : c.io.stopped = false)
      (hr : c.io.ready = .continuation ⟨o, n⟩ :: ds) (hn : (c.heap o).resumes = n) :
      ResumedBy c o .continuation n
  | timer {n : Nat} {ds : List (Handler σ)} (hs : c.stack = [])
      (hp : c.phase = .runOne ∨ c.phase = .poll) (hst : c.io.stopped = false)
      (hr : c.io.ready = .timer o n :: ds) : ResumedBy c o .timer n

/-- **Only the current wait resumes a live process**, in every run in which no continuation overtakes a queued
timer and no index of the table is reused `2 ^ 64` times: the source was registered by the last suspension
of the process, or it is the item that `spawn` queued for a process that has not suspended yet. -/
theorem resumed_by_current_wait {σ μ : Type} {code : Code σ μ} {main : σ} {log : List Suspension}
    {c : Context σ μ}
    (h : (code.system.observe (Context.suspensions code)).Run Context.TimersInTime
      (Context.init main) log c)
    (hu : ∀ i, c.reuses i < 2 ^ 64) {o : ObjId} {src : Source} {n : Nat} (hr : c.ResumedBy o src n)
    (hd : (c.heap o).dead = false) :
    (log.map fun e => (e.who, e.count)).Nodup ∧
      ((∃ w, (log.filter (·.who = o)).getLast? = some ⟨o, n, w⟩ ∧
          (c.heap o).lastWaiting = some w ∧ w.arms src = true) ∨
        src = .item ∧ ∀ e ∈ log, e.who ≠ o) := by
  obtain ⟨tr, hrun⟩ := h.of_observe
  have hfresh := Code.fresh hrun
  have hok := (Code.sound hrun).table
  have hrec : c.Sound ∧ c.Shaped ∧ c.Recorded log :=
    h.invariant (fun log c => c.Sound ∧ c.Shaped ∧ c.Recorded log)
      ⟨Context.sound_init main, Context.shaped_init main, Context.recorded_init main⟩
      fun log c l c' ev hi _ hstep => by
        obtain ⟨rfl, out, hstep⟩ := System.observe_step hstep
        have he := (Context.step_effect hstep).2
        exact ⟨Context.effect_sound he hi.1, Context.effect_shaped he hi.2.1,
          Context.step_recorded hi.1 hi.2.1 hi.2.2 hstep⟩
  have hrec := hrec.2.2
  refine ⟨hrec.distinct, ?_⟩
  cases hr with
  | @item p n q hs hp hq hf hn =>
    obtain ⟨x, hx, hpid, -, hcur⟩ := hfresh.item p n (by simp [hq])
    obtain ⟨hl, hpo⟩ := (Table.find_eq_some hok).mp hf
    have hpo : (c.heap o).pid = p := hpo
    cases Code.pid_inj hrun hu hx (hok.allocated (by rw [hl]; simp)) (hpid.trans hpo.symm)
    obtain ⟨hidle, hready⟩ := hcur hn.symm hd
    cases hw : (c.heap o).lastWaiting with
    | none => exact .inr ⟨rfl, hrec.unwaited o hd hw⟩
    | some w => exact .inl ⟨w, hn ▸ hrec.last o w hidle hw, rfl, hready w hw⟩
  | @continuation n ds hs hp hst hr hn =>
    obtain ⟨-, hcur⟩ := hfresh.continuation ⟨o, n⟩ (.posted (by simp [hr])) hd
    obtain ⟨hidle, w, hw, hreg⟩ := hcur hn.symm
    exact .inl ⟨w, hn ▸ hrec.last o w hidle hw, hw, hreg⟩
  | @timer n ds hs hp hst hr =>
    have hin : (o, n) ∈ c.io.clock := Context.holds_timer.mp (.expired (by simp [hr]))
    obtain ⟨hn, hidle, w, hw, hreg⟩ := hfresh.timer o n hin hd
    exact .inl ⟨w, hn ▸ hrec.last o w hidle hw, hw, hreg⟩

/-- Process 0 waits on a promise with a timeout and then for a message; process 1 sets the promise if
told to. -/
def waitTwice (sets : Bool) : Code Nat Unit where
  op n :=
    match n with
    | 0 => .newPromise fun _ => 1
    | 1 => .spawn .plain 10 fun _ => 2
    | 2 => .spawn .plain 20 fun _ => 3
    | 10 => .newSlot fun _ => 11
    | 11 => .started 12
    | 12 => .awaitSuspend (.withTimeout 5 (.onFuture (.user 0))) 13
    | 13 => .awaitSuspend (.messages [0]) 14
    | 20 => .started 21
    | 21 => if sets then .setIfUnset 0 22 else .coReturn
    | _ => .coReturn
  dtor _ := 99

def Handler.continues {σ : Type} : Handler σ → Bool
  | .continuation _ => true
  | _ => false

/-- The timer of the wait that process 0 is suspended in resumes it. -/
theorem timer_of_current_wait :
    ∃ log c, ((waitTwice false).system.observe (Context.suspensions (waitTwice false))).Run
        Context.TimersInTime (Context.init 0) log c ∧ c.ResumedBy 0 .timer 1 ∧
      (c.heap 0).dead = false ∧
      ∃ w, (log.filter (·.who = 0)).getLast? = some ⟨0, 1, w⟩ ∧
        (c.heap 0).lastWaiting = some w ∧ w.arms .timer = true := by
  obtain ⟨log, c, hr, hs, hp, hst, hready, hd, hn⟩ := System.exec_reaches
    (M := (waitTwice false).system.observe (Context.suspensions (waitTwice false)))
    (g := fun c _ => c.io.ready.all fun h => !h.continues) (G := Context.TimersInTime)
    (fun c _ hg o ds _ _ _ hready _ n => by simp [hready, Handler.continues] at hg)
    (w := List.replicate 16 .tick ++ [.expire 0]) (s := Context.init 0)
    (P := fun _ c => c.stack.isEmpty = true ∧ (c.phase = .runOne ∨ c.phase = .poll) ∧
      c.io.stopped = false ∧ c.io.ready.head? = some (.timer 0 1) ∧ (c.heap 0).dead = false ∧
      c.heapSize < 2 ^ 64) (by decide)
  obtain ⟨ds, hds⟩ := List.head?_eq_some_iff.mp hready
  have hby : c.ResumedBy 0 .timer 1 := .timer (List.isEmpty_iff.mp hs) hp hst hds
  have hcur := (resumed_by_current_wait hr (reuses_lt hn) hby hd).2
  exact ⟨log, c, hr, hby, hd, hcur.resolve_right fun h => by cases h.1⟩

/-- The promise is set and the timer expires before `run_one` looks for work: the continuation resumes
process 0, which goes on to wait for a message, and then the timer of its first wait resumes it. -/
theorem timer_of_earlier_wait :
    ∃ log c, ((waitTwice true).system.observe (Context.suspensions (waitTwice true))).Run
        System.anyStep (Context.init 0) log c ∧ c.ResumedBy 0 .timer 1 ∧
      (c.heap 0).life = .running ∧ (c.heap 0).lastWaiting = some (.messages [0]) ∧
      log = [⟨0, 1, .withTimeout 5 (.onFuture (.user 0))⟩, ⟨0, 2, .messages [0]⟩] := by
  obtain ⟨log, c, hr, hs, hp, hst, hready, hl, hw, hlog⟩ := System.exec_reaches
    (M := (waitTwice true).system.observe (Context.suspensions (waitTwice true)))
    (g := fun _ _ => true) (G := System.anyStep) (fun _ _ _ => trivial)
    (w := List.replicate 17 .tick ++ .expire 0 :: List.replicate 3 .tick) (s := Context.init 0)
    (P := fun log c => c.stack.isEmpty = true ∧ (c.phase = .runOne ∨ c.phase = .poll) ∧
      c.io.stopped = false ∧ c.io.ready.head? = some (.timer 0 1) ∧ (c.heap 0).life = .running ∧
      (c.heap 0).lastWaiting = some (.messages [0]) ∧
      log = [⟨0, 1, .withTimeout 5 (.onFuture (.user 0))⟩, ⟨0, 2, .messages [0]⟩]) (by decide)
  obtain ⟨ds, hds⟩ := List.head?_eq_some_iff.mp hready
  exact ⟨log, c, hr, .timer (List.isEmpty_iff.mp hs) hp hst hds, hl, hw, hlog⟩

end Eslang
