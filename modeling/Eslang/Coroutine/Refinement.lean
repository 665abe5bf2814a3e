import Eslang.Coroutine.Matching

/-! # The coroutines of methods refine sequential calls

The machine of the coroutines runs in lock step with the reference of `Sequential`: from matching states
both refuse a label, or both take the step with the same events and match again. There is one lemma for
each thing a body does, and one for `ProcessTask::resume`. -/
namespace Eslang.Coroutine
set_option autoImplicit false
open Lib Relation

/-- No generators. -/
def Op.methodsOnly {σ V W : Type} : Op σ V W → Bool
  | .gen _ _ | .next _ _ | .yield _ _ => false
  | .act _ _ | .await _ _ | .start _ _ | .join _ _ | .ret _ => true

namespace State
variable {σ V W : Type} {s t : State σ V W}

/-! ## The steps -/

/-- Both sides refuse, or both take the step, with the same events. -/
def Agree (p : Option (State σ V W × List (Event V))) (q : Option (Sequential σ V W × List (Event V))) :
    Prop :=
  Option.Rel (fun p q => p.1.Matches q.1 ∧ p.2 = q.2) p q

section
variable {code : Code σ V W} {r : Sequential σ V W} {i : Handle} {rest : List Handle} {c : σ}
  {below : Frames σ V}

theorem Matches.goto {l : Label V} {out : List (Event V)} {x : σ} (h : s.Matches r)
    (hu : s.shares code = false) (hstep : s.step code l = some (s.goto i (.code x), out)) (hs : s.stack = i :: rest)
    (hb : s.Segment i below) {cs : List (Caller σ V)} (hcs : List.Forall₂ s.Calls rest cs) :
    (s.goto i (.code x)).Matches { r with mode := .run i x below, callers := cs } :=
  h.go hu hstep hs hb hcs rfl rfl (by simp [State.goto, update]) (keeps_goto s i _)
    (goto_keeps PromiseBase.kind fun _ => rfl) (goto_keeps PromiseBase.t_ fun _ => rfl)
    fun n _ => goto_keeps PromiseBase.awaited (fun _ => rfl) n

/-- The running coroutine `i` leaves the native stack; the parents of `Y` have been set. -/
structure Leaves (s t : State σ V W) (i : Handle) (rest Y : List Handle) : Prop where
  keeps : s.Keeps t [i] Y
  kind : ∀ n, (t.promises n).kind = (s.promises n).kind
  value : ∀ n, (t.promises n).t_ = (s.promises n).t_
  awaited : ∀ n, n ∉ Y → (t.promises n).awaited = (s.promises n).awaited
  count : t.count = s.count
  stack : t.stack = rest
  suspended : (t.promises i).ctl ≠ .done

/-- What has run is suspended: the residual `r₀` on top of the frames under the coroutine that leaves. -/
theorem Matches.leave {Y : List Handle} {l : Label V} {out : List (Event V)} {r' : Sequential σ V W}
    {r₀ : Residual σ V W} (h : s.Matches r) (hu : s.shares code = false)
    (hstep : s.step code l = some (t, out)) (hs : s.stack = i :: rest) (hb : s.Segment i below)
    (hcs : List.Forall₂ s.Calls rest r.callers) (hl : s.Leaves t i rest Y) (hY : ∀ y ∈ Y, y ∉ s.stack) (hYd : ∀ y ∈ Y, (s.promises y).ctl ≠ .done)
    (hcallers : r'.callers = r.callers) (hcount : r'.count = r.count)
    (htasks : ∀ n, n ∉ Y → r'.tasks n = r.tasks n) (hjoined : ∀ y ∈ Y, t.Tracked y (r'.tasks y))
    (hc : (t.promises r₀.innermost).ctl = .waiting r₀.waiting r₀.k)
    (hst : ∀ b, t.Stacked i below b → t.Stacked r₀.innermost r₀.below b) :
    t.Matches (r'.suspend r₀) := by
  have hw := h.sound.formed.wf
  have hi : i ∈ s.stack := by simp [hs]
  have hir := hw.native.not_mem_rest hs
  obtain ⟨⟨hjoin, -⟩, hdone⟩ := stack_ctl hw hi
  have hiY : i ∉ Y := fun hy => hY i hy hi
  have hX : ∀ x ∈ [i], s.Apart x := by simpa using apart_of_stack hw hi
  have hZ : ∀ z ∈ i :: Y, (s.promises z).ctl ≠ .done := List.forall_mem_cons.mpr ⟨hdone, hYd⟩
  have hunmoved : ∀ n, n ∉ i :: Y → s.Unmoved t n ∧ r'.tasks n = r.tasks n := by
    intro n hn
    obtain ⟨hni, hnY⟩ : n ≠ i ∧ n ∉ Y := by simpa using hn
    refine ⟨⟨hl.kind n, hl.value n, ?_, fun _ => hl.awaited n hnY, ?_⟩, htasks n hnY⟩
    · rw [hl.keeps.ctl n (by simpa using hni)]
    · rw [hl.stack, hs]
      simp [hni]
  have hbelow : ∀ j k, (j, k) ∈ below → j ∉ [i] := by
    intro j k hj hji
    obtain ⟨n, hn⟩ := hb.joining hj
    rw [List.mem_singleton.mp hji] at hn
    exact hjoin n k hn
  have hcs' : List.Forall₂ t.Calls rest r'.callers := by
    rw [hcallers]
    exact calls_keep hs hcs hl.keeps (by simpa using hir) (by simpa using hjoin) hY
  obtain ⟨hbottom, hcalled⟩ := h.segment_base hs hb
  unfold Sequential.suspend
  split
  case h_1 hnil =>
    rw [hnil, List.forall₂_nil_right_iff] at hcs'
    subst hcs'
    refine h.of_keeps hu hstep hl.count hcount hl.keeps hX hZ hunmoved (List.forall_mem_cons.mpr ⟨?_, hjoined⟩) ?_
    · change t.Tracked i (r'.tasks i)
      rw [htasks i hiY, h.busy_of_stack hi]
      refine .busy (fun a ha => hl.suspended ha.2.1) fun hp => h.bottom_awaited hs ?_
      exact ⟨(hl.kind i).symm.trans hp.1, (hl.awaited i hiY).symm.trans hp.2.1⟩
    · rw [hnil]
      exact .suspended hl.stack hc (hst root ((hbottom rfl).keep hl.keeps hbelow))
  case h_2 d ds hcons =>
    obtain rfl := h.task_eq hs hcs d ds (hcallers ▸ hcons)
    have hne : rest ≠ [] := by
      rintro rfl
      rw [hcons] at hcs'
      cases hcs'
    obtain ⟨b, rest', rfl⟩ := List.exists_cons_of_ne_nil hne
    obtain ⟨hk, ha, -, -⟩ := h.sound.plain.of_called hw hs
    refine h.of_keeps hu hstep hl.count hcount hl.keeps hX hZ (fun n hn => ?_)
      (List.forall_mem_cons.mpr ⟨?_, fun y hy => ?_⟩) (.back hl.stack hne hcs')
    · have hnd : n ≠ d.task := List.ne_of_not_mem_cons hn
      exact ⟨(hunmoved n hn).1, (Function.update_of_ne hnd _ _).trans (hunmoved n hn).2⟩
    · change t.Tracked d.task (Function.update r'.tasks d.task (.suspended r₀) d.task)
      rw [Function.update_self]
      refine .suspended ⟨(hl.kind _).trans hk, (hl.awaited _ hiY).trans ha, ?_, hl.suspended⟩ hc
        (hst _ ((hcalled hne).keep hl.keeps hbelow))
      rw [hl.stack]
      exact hir
    · have hyd : y ≠ d.task := fun he => hiY (he ▸ hy)
      change t.Tracked y (Function.update r'.tasks d.task (.suspended r₀) y)
      rw [Function.update_of_ne hyd]
      exact hjoined y hy

theorem leaves_wait (s : State σ V W) (i : Handle) (rest : List Handle) (w : W) (k : V → σ) :
    s.Leaves { (s.awaitSuspend i w).goto i (.waiting w k) with stack := rest } i rest [] := by
  have hsame : ∀ {α : Type} (F : PromiseBase σ V W → α),
      (∀ p : PromiseBase σ V W, F { p with ctl := .waiting w k } = F p) →
      (∀ p : PromiseBase σ V W, F { p with waiting := some w } = F p) →
      ∀ n, F (((s.awaitSuspend i w).goto i (.waiting w k)).promises n) = F (s.promises n) := by
    intro α F h1 h2 n
    rw [goto_keeps F h1, awaitSuspend_promises]
    exact update_keeps F h2 n
  refine ⟨⟨fun x hx => ?_, fun x _ => ?_, by simp⟩, ?_, ?_, ?_, ?_, rfl, ?_⟩
  · simp [State.goto, update, awaitSuspend_promises, List.mem_singleton.not.mp hx]
  · exact hsame PromiseBase.parent (fun _ => rfl) (fun _ => rfl) x
  · exact hsame PromiseBase.kind (fun _ => rfl) fun _ => rfl
  · exact hsame PromiseBase.t_ (fun _ => rfl) fun _ => rfl
  · exact fun n _ => hsame PromiseBase.awaited (fun _ => rfl) (fun _ => rfl) n
  · change (s.awaitSuspend i w).count = s.count
    unfold awaitSuspend
    dsimp only
    split <;> rfl
  · simp [State.goto, update]

theorem Matches.await (h : s.Matches r) (hm : r.mode = .run i c below) {w : W} {k : V → σ}
    (ho : code c = .await w k) (ready : Bool) (v : V) :
    Agree (s.step code (.tick ready v)) (r.step code (.tick ready v)) := by
  obtain ⟨rest, hs, hc, hb, hcs⟩ := h.run_inv hm
  cases ready with
  | true =>
    have hu : s.shares code = false := by simp [shares, hs, hc, ho]
    have hstep : s.step code (.tick true v) = some (s.goto i (.code (k v)), [.delivered i v]) := by
      simp [State.step, hs, State.tick, hc, ho]
    have href : r.step code (.tick true v) = some (r.run i (k v) below, [.delivered i v]) := by
      simp [Sequential.step, hm, Sequential.tick, ho]
    rw [href]
    have hmatch := h.goto hu hstep hs hb hcs
    rw [hstep]
    exact .some ⟨hmatch, rfl⟩
  | false =>
    have hu : s.shares code = false := by simp [shares, hs, hc, ho]
    have hstep : s.step code (.tick false v) =
        some ({ (s.awaitSuspend i w).goto i (.waiting w k) with stack := rest }, []) := by
      simp [State.step, hs, State.tick, hc, ho]
    have href : r.step code (.tick false v) = some (r.suspend ⟨w, i, k, below⟩, []) := by
      simp [Sequential.step, hm, Sequential.tick, ho]
    have hmatch : State.Matches _ (r.suspend ⟨w, i, k, below⟩) :=
      h.leave hu hstep hs hb hcs (leaves_wait s i rest w k) (by simp) (by simp) rfl rfl (fun _ _ => rfl)
        (by simp) (by simp [State.goto, update]) fun b hst => hst
    rw [hstep, href]
    exact .some ⟨hmatch, rfl⟩

theorem leaves_join {n : Handle} {k : V → σ} {u : State σ V W}
    (hp : (s.promises n).parent = none) (hd : (s.promises n).ctl ≠ .done)
    (hu : (s.marking n).updateSuspend i n = some u) :
    s.Leaves { u.goto i (.joining n k) with stack := rest } i rest [n] ∧
      (u.promises n).parent = some i ∧ (u.promises n).awaited = true ∧ (u.promises n).ctl ≠ .done := by
  have hsame : ∀ {α : Type} (F : PromiseBase σ V W → α),
      (∀ p : PromiseBase σ V W, F { p with processPromise := true } = F p) →
      (∀ p : PromiseBase σ V W, F { p with subCoroutineChild := some n } = F p) →
      ∀ x, F (u.promises x) =
        F (((s.marking n).update n fun p => { p with parent := some i }).promises x) :=
    fun F h1 h2 x => (updateSuspend_keeps F h1 h2 hu).1 x
  obtain ⟨-, hcount, -⟩ := updateSuspend_keeps (fun _ => ()) (fun _ => rfl) (fun _ => rfl) hu
  have hkeep : ∀ {α : Type} (F : PromiseBase σ V W → α),
      (∀ p : PromiseBase σ V W, F { p with processPromise := true } = F p) →
      (∀ p : PromiseBase σ V W, F { p with subCoroutineChild := some n } = F p) →
      (∀ p : PromiseBase σ V W, F { p with parent := some i } = F p) →
      (∀ p : PromiseBase σ V W, F { p with awaited := true } = F p) →
      ∀ x, F (u.promises x) = F (s.promises x) := by
    intro α F h1 h2 h3 h4 x
    rw [hsame F h1 h2, update_keeps F h3]
    exact marking_keeps F h4 x
  have hctl := hkeep PromiseBase.ctl (fun _ => rfl) (fun _ => rfl) (fun _ => rfl) fun _ => rfl
  have hpar := hsame PromiseBase.parent (fun _ => rfl) fun _ => rfl
  have haw := hsame PromiseBase.awaited (fun _ => rfl) fun _ => rfl
  refine ⟨⟨⟨fun x hx => ?_, fun x hx => ?_, by simpa using hp⟩, fun x => ?_, fun x => ?_, fun x hx => ?_,
    hcount, rfl, ?_⟩, ?_, ?_, by rw [hctl]; exact hd⟩
  · have hxi : x ≠ i := by simpa using hx
    rw [← hctl x]
    simp [State.goto, update, hxi]
  · have hxn : x ≠ n := by simpa using hx
    refine (goto_keeps PromiseBase.parent (fun _ => rfl) x).trans ?_
    rw [hpar]
    simp [marking, update, hxn]
  · refine (goto_keeps PromiseBase.kind (fun _ => rfl) x).trans ?_
    exact hkeep PromiseBase.kind (fun _ => rfl) (fun _ => rfl) (fun _ => rfl) (fun _ => rfl) x
  · refine (goto_keeps PromiseBase.t_ (fun _ => rfl) x).trans ?_
    exact hkeep PromiseBase.t_ (fun _ => rfl) (fun _ => rfl) (fun _ => rfl) (fun _ => rfl) x
  · have hxn : x ≠ n := by simpa using hx
    refine (goto_keeps PromiseBase.awaited (fun _ => rfl) x).trans ?_
    rw [haw]
    simp [marking, update, hxn]
  · simp [State.goto, update]
  · rw [hpar]
    simp [update]
  · rw [haw]
    simp [marking, update]

/-- `co_await` of a method that has returned, or one that can not be awaited. -/
theorem join_returned {n : Handle} {k : V → σ} {a v : V} (hm : s.mayJoin n = true)
    (hd : (s.promises n).ctl = .done) (ha : (s.promises n).t_ = some a) : s.join i n k v rest =
      some ((s.marking n).goto i (.code (k a)), [.delivered i a]) := by
  have hready : ((s.marking n).atFinalSuspend n || !(s.marking n).isSuspended n) = true := by
    rw [ready_iff, ← atFinalSuspend_iff, atFinalSuspend_iff_ctl]
    exact .inl hd
  have hvalue : ((s.marking n).promises n).t_ = some a :=
    (marking_keeps PromiseBase.t_ (fun _ => rfl) n).trans ha
  have hjoin : s.join i n k v rest = some ((s.marking n).goto i
      (.code (k (((s.marking n).promises n).t_.getD v))),
      [.delivered i (((s.marking n).promises n).t_.getD v)]) := by
    simp only [State.join, hm, if_true]
    exact if_pos hready
  rw [hjoin, hvalue, Option.getD_some]

theorem join_parked {n : Handle} {k : V → σ} {v : V} (hm : s.mayJoin n = true)
    (hd : (s.promises n).ctl ≠ .done) (hsus : s.isSuspended n = true) : s.join i n k v rest =
      ((s.marking n).updateSuspend i n).map fun u => ({ u.goto i (.joining n k) with stack := rest }, []) := by
  have hready : ¬ ((s.marking n).atFinalSuspend n || !(s.marking n).isSuspended n) = true := by
    rw [ready_iff, not_or, ← atFinalSuspend_iff, atFinalSuspend_iff_ctl]
    have hsus' : s.links.isSuspended n = true := hsus
    exact ⟨hd, by simp [hsus']⟩
  simp only [State.join, hm, if_true]
  exact if_neg hready

theorem Parked.isSuspended {n : Handle} {r₀ : Residual σ V W} (h : s.Parked n) (hw : s.links.Wf)
    (hc : (s.promises r₀.innermost).ctl = .waiting r₀.waiting r₀.k)
    (hst : s.Stacked r₀.innermost r₀.below n) : s.isSuspended n = true := by
  rcases ReflTransGen.cases_head (hst.leads hw) with he | ⟨d, hd, -⟩
  · have hn : n ≠ root := hw.ne_root (by simp [links, h.1])
    rw [← he] at hc
    have hwait : (s.promises n).waiting = some r₀.waiting := hw.waits.waits n _ (shape_of_ctl hc) hn
    simp [State.isSuspended, hwait]
  · have hsub : (s.promises n).subCoroutineChild = some d := hd
    simp [State.isSuspended, hsub]

theorem mayJoin_of_not_mem (hw : s.links.Wf) (hs : s.stack = i :: rest) (hc : (s.promises i).ctl = .code c)
    {n : Handle} (hk : (s.promises n).kind = .method) (hn : n ∉ s.stack) (hlt : n < s.count) :
    s.mayJoin n = true := by
  unfold mayJoin
  cases hcr : (s.promises (s.promises n).creator).ctl with
  | calling m f =>
    have hm : m ≠ n := by
      rintro rfl
      exact hw.native.not_called hs (shape_of_ctl hc) hn (shape_of_ctl hcr)
    simp [hk, hlt, hm]
  | code _ | resuming _ _ | waiting _ _ | joining _ _ | nexting _ _ | idle _ | done => simp [hk, hlt]

theorem Matches.join_busy (h : s.Matches r) (hm : r.mode = .run i c below) {n : Handle} {k : V → σ}
    (ho : code c = .join n k) (hr : ∀ a, ¬ s.Returned n a) (hp : ¬ s.Parked n) (ready : Bool) (v : V) :
    (if s.unshared code (.tick ready v) then s.step code (.tick ready v) else none) = none := by
  obtain ⟨rest, hs, hc, -, -⟩ := h.run_inv hm
  have hstep : s.step code (.tick ready v) = s.join i n k v rest := by
    simp [State.step, hs, State.tick, hc, ho]
  cases hu : s.shares code with
  | true => simp [unshared, hu]
  | false =>
    cases hmj : s.mayJoin n with
    | false => simp [hstep, State.join, hmj]
    | true =>
      exfalso
      have hlt : n < s.count := by
        simp only [mayJoin, Bool.and_eq_true, decide_eq_true_eq] at hmj
        exact hmj.1.2
      obtain ⟨⟨hk, hn⟩, hj⟩ := (joinable_of_not_shares hu hs hc ho hmj).links
      by_cases hd : (s.promises n).ctl = .done
      · obtain ⟨a, ha⟩ := Option.isSome_iff_exists.mp (h.valued n hlt hk hd)
        exact hr a ⟨hk, hd, ha⟩
      · rw [← atFinalSuspend_iff, atFinalSuspend_iff_ctl] at hj
        exact hp ⟨hk, hj.resolve_right hd, hn, hd⟩

theorem Matches.join_finished (h : s.Matches r) (hm : r.mode = .run i c below) {n : Handle} {k : V → σ}
    (ho : code c = .join n k) {a : V} (hr : s.Returned n a) (ready : Bool) (v : V) :
    Agree (if s.unshared code (.tick ready v) then s.step code (.tick ready v) else none)
      (some (r.run i (k a) below, [.delivered i a])) := by
  obtain ⟨rest, hs, hc, hb, hcs⟩ := h.run_inv hm
  obtain ⟨hk, hd, hv⟩ := hr
  have hw := h.sound.formed.wf
  have hn : n ∉ s.stack := fun hn => (stack_ctl hw hn).2 hd
  have hlt : n < s.count := by
    by_contra hge
    rw [h.unset n (Nat.not_lt.mp hge)] at hv
    cases hv
  have hmj := mayJoin_of_not_mem hw hs hc hk hn hlt
  have hu : s.shares code = false :=
    Joinable.not_shares ⟨hmj, hn, .inr ((atFinalSuspend_iff_ctl s n).mpr hd)⟩ hs hc ho
  have hjoin : s.step code (.tick ready v) = s.join i n k v rest := by
    simp [State.step, hs, State.tick, hc, ho]
  have hstep : s.step code (.tick ready v) =
      some ((s.marking n).goto i (.code (k a)), [.delivered i a]) := by
    rw [hjoin, join_returned hmj hd hv]
  have hsame : ∀ {α : Type} (F : PromiseBase σ V W → α),
      (∀ p : PromiseBase σ V W, F { p with ctl := .code (k a) } = F p) →
      (∀ p : PromiseBase σ V W, F { p with awaited := true } = F p) →
      ∀ x, F (((s.marking n).goto i (.code (k a))).promises x) = F (s.promises x) :=
    fun F h1 h2 x => (goto_keeps F h1 x).trans (marking_keeps F h2 x)
  have hkeep : s.Keeps ((s.marking n).goto i (.code (k a))) [i] [] := by
    refine ⟨fun x hx => ?_, fun x _ => hsame PromiseBase.parent (fun _ => rfl) (fun _ => rfl) x, by simp⟩
    rw [(keeps_goto (s.marking n) i _).ctl x hx]
    exact marking_keeps PromiseBase.ctl (fun _ => rfl) x
  have hself : (((s.marking n).goto i (.code (k a))).promises i).ctl = .code (k a) := by
    simp [State.goto, update]
  have hmatch := h.go hu hstep hs hb hcs rfl rfl hself hkeep
    (hsame PromiseBase.kind (fun _ => rfl) fun _ => rfl)
    (hsame PromiseBase.t_ (fun _ => rfl) fun _ => rfl) fun x hx => by
      have hxn : x ≠ n := fun he => hx (he ▸ hd)
      refine (goto_keeps PromiseBase.awaited (fun _ => rfl) x).trans ?_
      simp [marking, update, hxn]
  rw [hstep, if_pos (by simp [unshared, hu])]
  exact .some ⟨hmatch, rfl⟩

theorem Matches.join_suspended (h : s.Matches r) (hm : r.mode = .run i c below) {n : Handle} {k : V → σ}
    (ho : code c = .join n k) {r₀ : Residual σ V W} (hp : s.Parked n)
    (hc₀ : (s.promises r₀.innermost).ctl = .waiting r₀.waiting r₀.k)
    (hst : s.Stacked r₀.innermost r₀.below n) (ready : Bool) (v : V) :
    Agree (if s.unshared code (.tick ready v) then s.step code (.tick ready v) else none)
      (some ((r.put n .busy).suspend { r₀ with below := r₀.below ++ (i, k) :: below }, [])) := by
  obtain ⟨rest, hs, hc, hb, hcs⟩ := h.run_inv hm
  have hw := h.sound.formed.wf
  have hsus := hp.isSuspended hw hc₀ hst
  have hjoin : s.step code (.tick ready v) = s.join i n k v rest := by
    simp [State.step, hs, State.tick, hc, ho]
  obtain ⟨hk, ha, hn, hd⟩ := hp
  have hlt : n < s.count := Nat.lt_of_not_le fun hge => hd (ctl_fresh hw hge)
  have hmj := mayJoin_of_not_mem hw hs hc hk hn hlt
  have hun : s.shares code = false := Joinable.not_shares ⟨hmj, hn, .inl ha⟩ hs hc ho
  have hfinal : s.atFinalSuspend n = false := by
    rw [← Bool.not_eq_true, atFinalSuspend_iff_ctl]
    exact hd
  have hic : s.suspending code = some (i, n) := by
    simp [suspending, hs, hc, ho, hmj, hfinal, hsus]
  -- nobody awaits the task, so that the suspension closes no circle and comes to an end
  obtain ⟨t, out, hstep, -⟩ := (h.sound.formed.suspends_iff hun hic ready v).mpr
    ((uncircled_of_rooted (.tick ready v) hw h.sound.rooted hun).2 i n hic)
  have he := hstep
  rw [hjoin, join_parked hmj hd hsus] at he
  obtain ⟨u, hu, he⟩ := Option.map_eq_some_iff.mp he
  cases he
  obtain ⟨hl, hpar, haw, hud⟩ := leaves_join (k := k) (hw.chained.unawaited n hk ha) hd hu
  have hni : n ≠ i := fun he => hn (by simp [hs, he])
  obtain ⟨hc', hst'⟩ := Parked.keep ⟨hk, ha, hn, hd⟩ hw hc₀ hst hl.keeps
    (by simpa using apart_of_stack hw (by simp [hs]))
  rw [hstep, if_pos (by simp [unshared, hun])]
  refine .some ⟨?_, rfl⟩
  refine h.leave hun hstep hs hb hcs hl (by simpa using hn) (by simpa using hd) rfl rfl (fun x hx => ?_) ?_ hc'
    fun b hib => ?_
  · simp [Sequential.put, List.mem_singleton.not.mp hx]
  · intro y hy
    obtain rfl := List.mem_singleton.mp hy
    have hgoto : ((u.goto i (.joining y k)).promises y) = u.promises y := by simp [State.goto, update, hni]
    simp only [Sequential.put, Function.update_self]
    refine .busy (fun a hr => hud ?_) fun hp => ?_
    · rw [← hgoto]
      exact hr.2.1
    · have hfalse : ((u.goto i (.joining y k)).promises y).awaited = false := hp.2.1
      rw [hgoto, haw] at hfalse
      cases hfalse
  · refine hst'.append ?_ ?_ hib
    · simp [State.goto, update]
    · exact (goto_keeps PromiseBase.parent (fun _ => rfl) n).trans hpar

theorem Matches.join (h : s.Matches r) (hm : r.mode = .run i c below) {n : Handle} {k : V → σ}
    (ho : code c = .join n k) (ready : Bool) (v : V) :
    Agree (if s.unshared code (.tick ready v) then s.step code (.tick ready v) else none)
      (r.step code (.tick ready v)) := by
  have href : r.step code (.tick ready v) = r.join i n k below := by
    simp [Sequential.step, hm, Sequential.tick, ho]
  have htask := h.tasks n
  rw [href]
  unfold Sequential.join
  generalize r.tasks n = T at htask
  cases htask with
  | busy hr hp =>
    rw [h.join_busy hm ho hr hp ready v]
    exact .none
  | finished hr => exact h.join_finished hm ho hr ready v
  | suspended hp hc₀ hst => exact h.join_suspended hm ho hp hc₀ hst ready v

theorem Matches.act (h : s.Matches r) (hm : r.mode = .run i c below) {a : V} {k : σ}
    (ho : code c = .act a k) (ready : Bool) (v : V) :
    Agree (s.step code (.tick ready v)) (r.step code (.tick ready v)) := by
  obtain ⟨rest, hs, hc, hb, hcs⟩ := h.run_inv hm
  have hstep : s.step code (.tick ready v) = some (s.goto i (.code k), [.act i a]) := by
    simp [State.step, hs, State.tick, hc, ho]
  have href : r.step code (.tick ready v) = some (r.run i k below, [.act i a]) := by
    simp [Sequential.step, hm, Sequential.tick, ho]
  rw [href]
  have hmatch := h.goto (by simp [shares, hs, hc, ho]) hstep hs hb hcs
  rw [hstep]
  exact .some ⟨hmatch, rfl⟩

theorem Matches.start (h : s.Matches r) (hm : r.mode = .run i c below) {body : σ} {k : Handle → σ}
    (ho : code c = .start body k) (ready : Bool) (v : V) :
    Agree (s.step code (.tick ready v)) (r.step code (.tick ready v)) := by
  obtain ⟨rest, hs, hc, hb, hcs⟩ := h.run_inv hm
  have hw := h.sound.formed.wf
  have hi : i ∈ s.stack := by simp [hs]
  have hfresh := ctl_fresh hw (le_refl s.count)
  have hic : s.count ≠ i := fun he => (stack_ctl hw hi).2 (he ▸ hfresh)
  have hnew : s.count ∉ s.stack := fun hn => (stack_ctl hw hn).2 hfresh
  obtain ⟨⟨hjoin, -⟩, hdone⟩ := stack_ctl hw hi
  obtain ⟨t, ht⟩ : ∃ t : State σ V W, t =
      { (s.goto i (.calling s.count k)).make { kind := .method, ctl := .code body, creator := i } with
        stack := s.count :: i :: rest } := ⟨_, rfl⟩
  have hstep : s.step code (.tick ready v) = some (t, []) := by
    simp [State.step, hs, State.tick, hc, ho, ht]
  have href : r.step code (.tick ready v) = some ({ r.run r.count body [] with
      callers := ⟨r.count, i, k, below⟩ :: r.callers, count := r.count + 1 }, []) := by
    simp [Sequential.step, hm, Sequential.tick, ho]
  have hself : t.promises s.count = { kind := .method, ctl := .code body, creator := i } := by
    rw [ht]
    exact Function.update_self _ _ _
  have hcaller : t.promises i = { s.promises i with ctl := .calling s.count k } := by
    simp [ht, make, State.goto, update, hic.symm]
  have hother : ∀ n, n ≠ i → n ≠ s.count → t.promises n = s.promises n := by
    intro n hni hnc
    simp [ht, make, State.goto, update, hni, hnc]
  have hstack : t.stack = s.count :: i :: rest := by rw [ht]
  have hcount : t.count = s.count + 1 := by
    rw [ht]
    rfl
  have hkeep : s.Keeps t [i, s.count] [] := by
    refine ⟨fun x hx => ?_, fun x _ => ?_, by simp⟩
    · obtain ⟨hxi, hxc⟩ : x ≠ i ∧ x ≠ s.count := by simpa using hx
      rw [hother x hxi hxc]
    · by_cases hxi : x = i
      · rw [hxi, hcaller]
      · by_cases hxc : x = s.count
        · rw [hxc, hself]
          exact (hw.fresh s.count le_rfl).2.1.symm
        · rw [hother x hxi hxc]
  have hX : ∀ x ∈ [i, s.count], s.Apart x := by
    simp only [List.mem_cons, List.not_mem_nil, or_false, forall_eq_or_imp, forall_eq]
    exact ⟨apart_of_stack hw hi, .inl ⟨by simp [hfresh], by simp [hfresh]⟩⟩
  have hXs : ∀ x ∈ [i, s.count], ∀ n k, (s.promises x).ctl ≠ .joining n k := by
    simp only [List.mem_cons, List.not_mem_nil, or_false, forall_eq_or_imp, forall_eq]
    exact ⟨hjoin, by simp [hfresh]⟩
  have hu : s.shares code = false := by simp [shares, hs, hc, ho]
  rw [hstep, href]
  refine .some ⟨⟨h.sound.step hu hstep (.inr ?_), (step_cases hu hstep).valued h.valued, ?_,
    fun n hn => ?_, fun n => ?_, ?_⟩, rfl⟩
  · rw [hstack, hs]
    simp
  · rw [hcount, h.count]
  · rw [hcount] at hn
    have hni : n ≠ i := by
      rintro rfl
      exact (stack_ctl hw hi).2 (ctl_fresh hw (Nat.le_of_succ_le hn))
    rw [hother n hni (Nat.ne_of_gt hn)]
    exact h.unset n (Nat.le_of_succ_le hn)
  · by_cases hnc : n = s.count
    · change t.Tracked n (r.tasks n)
      rw [hnc, h.busy_of_fresh le_rfl]
      exact .running (by rw [hself]) (by simp [hstack])
    · apply (h.tasks n).unmoved hw hkeep hX
      have hmem : n ∈ t.stack ↔ n ∈ s.stack := by simp [hstack, hs, hnc]
      by_cases hni : n = i
      · rw [hni] at hmem ⊢
        exact ⟨by rw [hcaller], by rw [hcaller], by simp [hcaller, hdone], fun _ => by rw [hcaller], hmem⟩
      · have he := hother n hni hnc
        exact ⟨by rw [he], by rw [he], by rw [he], fun _ => by rw [he], hmem⟩
  · have hcs' := calls_keep hs hcs hkeep ?_ hXs (by simp)
    · rw [← h.count]
      refine .run hstack (by rw [hself]) (.inl ⟨rfl, by rw [hself]⟩) (.cons ⟨rfl, by rw [hcaller], ?_⟩ hcs')
      refine hb.keep hkeep (fun j k' hj hjX => ?_) (by simp)
      obtain ⟨m, hm'⟩ := hb.joining hj
      exact hXs j hjX m k' hm'
    · simp only [List.mem_cons, List.not_mem_nil, or_false, forall_eq_or_imp, forall_eq]
      exact ⟨hw.native.not_mem_rest hs, fun hr => hnew (by simp [hs, hr])⟩

theorem Matches.back (h : s.Matches r) (hm : r.mode = .back) (ready : Bool) (v : V) :
    Agree (s.step code (.tick ready v)) (r.step code (.tick ready v)) := by
  have hsh := h.shown
  rw [hm] at hsh
  generalize hcallers : r.callers = cs at hsh
  cases hsh with
  | @back rest _ hs hne hcs =>
    cases hcs with
    | nil => exact absurd rfl hne
    | @cons j d rest ds hj hds =>
      obtain ⟨hself, hc, hb⟩ := hj
      have hstep : s.step code (.tick ready v) = some (s.goto j (.code (d.k d.task)), []) := by
        simp [State.step, hs, State.tick, hc]
      have href : r.step code (.tick ready v) =
          some ({ r.run d.self (d.k d.task) d.below with callers := ds }, []) := by
        simp [Sequential.step, hm, hcallers]
      rw [href, hself]
      have hmatch := h.goto (by simp [shares, hs, hc]) hstep hs hb hds
      rw [hstep]
      exact .some ⟨hmatch, rfl⟩

theorem Matches.ret_frame {j : Handle} {k : V → σ} (h : s.Matches r)
    (hm : r.mode = .run i c ((j, k) :: below)) {a : V} (ho : code c = .ret a) (ready : Bool) (v : V) :
    Agree (s.step code (.tick ready v)) (r.step code (.tick ready v)) := by
  obtain ⟨rest, hs, hc, hb, hcs⟩ := h.run_inv hm
  have hw := h.sound.formed.wf
  have hi : i ∈ s.stack := by simp [hs]
  obtain ⟨hcj, hp, hbj⟩ : (s.promises j).ctl = .joining i k ∧ (s.promises i).parent = some j ∧
      s.Stacked j below root := by
    rcases hb with ⟨hnil, -⟩ | hb
    · cases hnil
    · cases hb with
      | under hcj hp hbj => exact ⟨hcj, hp, hbj⟩
  obtain rfl : rest = [] := hw.native.alone hs hp
  have hji : j ≠ i := by
    rintro rfl
    rw [hc] at hcj
    cases hcj
  have hir : i ≠ root := by
    rintro rfl
    have hnone : (s.promises root).parent = none := hw.chained.root_parent
    rw [hnone] at hp
    cases hp
  have hkind : (s.promises i).kind = .method := h.sound.plain.method_of_ne_root hw hir
  obtain ⟨t, ht⟩ : ∃ t : State σ V W, t = ((s.returning i a).clearChild j).continueAt j (k a) [] := ⟨_, rfl⟩
  have hpi : t.promises i = { s.promises i with t_ := some a, ctl := .done } := by
    simp [ht, continueAt, clearChild, returning, State.goto, update, hji.symm]
  have hpj : t.promises j = { s.promises j with subCoroutineChild := none, ctl := .code (k a) } := by
    simp [ht, continueAt, clearChild, returning, State.goto, update, hji]
  have hother : ∀ n, n ≠ i → n ≠ j → t.promises n = s.promises n := by
    intro n hni hnj
    simp [ht, continueAt, clearChild, returning, State.goto, update, hni, hnj]
  have hstack : t.stack = [j] := by
    rw [ht]
    rfl
  have hstep : s.step code (.tick ready v) = some (t, [.delivered j a]) := by
    simp [State.step, hs, State.tick, hc, ho, finish, hkind, hp, resumeHandle, update, hji, hji.symm, hcj,
      ht, continueAt, clearChild, returning, State.goto]
  have href : r.step code (.tick ready v) =
      some ((r.put i (.finished a)).run j (k a) below, [.delivered j a]) := by
    simp [Sequential.step, hm, Sequential.tick, ho, Sequential.ret]
  have hkeep : s.Keeps t [i, j] [] := by
    refine ⟨fun x hx => ?_, fun x _ => ?_, by simp⟩
    · obtain ⟨hxi, hxj⟩ : x ≠ i ∧ x ≠ j := by simpa using hx
      rw [hother x hxi hxj]
    · by_cases hxi : x = i
      · rw [hxi, hpi]
      · by_cases hxj : x = j
        · rw [hxj, hpj]
        · rw [hother x hxi hxj]
  have hlead := hbj.leads hw
  have hu : s.shares code = false := by simp [shares, hs, hc, ho]
  rw [hstep, href]
  refine .some ⟨h.of_keeps (Z := [i, j]) hu hstep (by rw [ht]; rfl) rfl hkeep ?_ ?_ (fun n hn => ?_) ?_ ?_, rfl⟩
  · simpa using ⟨apart_of_stack hw hi, .inr hlead⟩
  · simp [hc, hcj]
  · obtain ⟨hni, hnj⟩ : n ≠ i ∧ n ≠ j := by simpa using hn
    exact ⟨unmoved_of_eq (hother n hni hnj) (by simp [hstack, hs, hni, hnj]), Function.update_of_ne hni _ _⟩
  · simp only [List.mem_cons, List.not_mem_nil, or_false, forall_eq_or_imp, forall_eq]
    refine ⟨?_, ?_⟩
    · change t.Tracked i (Function.update r.tasks i (.finished a) i)
      rw [Function.update_self]
      exact .finished ⟨by rw [hpi]; exact hkind, by rw [hpi], by rw [hpi]⟩
    · change t.Tracked j (Function.update r.tasks i (.finished a) j)
      rw [Function.update_of_ne hji, h.busy_of_leads hlead (by simp [hcj])]
      exact .running (by rw [hpj]) (by simp [hstack])
  · have hnot : ∀ x k', (x, k') ∈ below → x ∉ [i, j] := by
      intro x k' hx hxX
      obtain ⟨⟨n, hn, hor⟩, -⟩ := hbj.frame hx
      rcases List.mem_cons.mp hxX with rfl | hxj
      · rw [hc] at hn
        cases hn
      · obtain rfl := List.mem_singleton.mp hxj
        rw [hcj] at hn
        cases hn
        rcases hor with he | ⟨k'', hk''⟩
        · exact hji he.symm
        · obtain ⟨⟨m, hm', -⟩, -⟩ := hbj.frame hk''
          rw [hc] at hm'
          cases hm'
    have hnil : List.Forall₂ t.Calls [] r.callers := by
      rw [List.forall₂_nil_left_iff] at hcs ⊢
      exact hcs
    exact .run hstack (by rw [hpj]) (.inr (hbj.keep hkeep hnot)) hnil

theorem Matches.ret_process (h : s.Matches r) (hm : r.mode = .run i c []) (hs : s.stack = [i]) {a : V}
    (ho : code c = .ret a) (ready : Bool) (v : V) :
    Agree (s.step code (.tick ready v)) (r.step code (.tick ready v)) := by
  obtain ⟨rest, hs', hc, hb, hcs⟩ := h.run_inv hm
  obtain rfl : rest = [] := List.cons.inj (hs'.symm.trans hs) |>.2
  have hcallers := List.forall₂_nil_left_iff.mp hcs
  have hw := h.sound.formed.wf
  have hi : i ∈ s.stack := by simp [hs]
  obtain rfl : i = root := by
    cases (h.segment_base hs hb).1 rfl
    rfl
  have hkind : (s.promises root).kind = .process := (hw.process_iff root).mpr rfl
  have hstep : s.step code (.tick ready v) = some ({ s.goto root .done with stack := [] }, []) := by
    simp [State.step, hs, State.tick, hc, ho, finish, hkind]
  have href : r.step code (.tick ready v) = some ({ r with mode := .finished }, []) := by
    simp [Sequential.step, hm, Sequential.tick, ho, Sequential.ret, hcallers]
  have hkeep : s.Keeps { s.goto root .done with stack := [] } [root] [] :=
    ⟨(keeps_goto s root .done).ctl, (keeps_goto s root .done).parent, by simp⟩
  have hkind' : ((s.goto root .done).promises root).kind = .process :=
    (goto_keeps PromiseBase.kind (fun _ => rfl) root).trans hkind
  rw [hstep, href]
  refine .some ⟨?_, rfl⟩
  refine h.of_keeps (by simp [shares, hs, hc, ho]) hstep rfl rfl hkeep (by simpa using apart_of_stack hw hi)
    (Z := [root]) (by simp [hc]) (fun n hn => ⟨?_, rfl⟩) ?_ ?_
  · have hnr : n ≠ root := by simpa using hn
    refine unmoved_of_eq ?_ (by simp [hs, hnr])
    simp [State.goto, update, hnr]
  · simp only [List.mem_singleton, forall_eq]
    rw [h.busy_of_stack hi]
    refine .busy (fun a' hr => ?_) fun hp => ?_
    · exact absurd (hkind'.symm.trans hr.1) (by simp)
    · exact absurd (hkind'.symm.trans hp.1) (by simp)
  · rw [hcallers]
    exact .finished rfl (by simp [State.goto, update])

/-- `co_return` of a method that was called and has not suspended since. -/
theorem Matches.ret_called (h : s.Matches r) (hm : r.mode = .run i c []) {b : Handle}
    (hs : s.stack = i :: b :: rest) {a : V} (ho : code c = .ret a) (ready : Bool) (v : V) :
    Agree (s.step code (.tick ready v)) (r.step code (.tick ready v)) := by
  obtain ⟨rest', hs', hc, hb, hcs⟩ := h.run_inv hm
  obtain rfl : rest' = b :: rest := List.cons.inj (hs'.symm.trans hs) |>.2
  have hw := h.sound.formed.wf
  have hi : i ∈ s.stack := by simp [hs]
  obtain ⟨hkind, -, hp, -⟩ := h.sound.plain.of_called hw hs
  have hki : (s.promises i).kind = .method := hkind
  have hpi : (s.promises i).parent = none := hp
  have hstep : s.step code (.tick ready v) = some ({ s.returning i a with stack := b :: rest }, []) := by
    simp [State.step, hs, State.tick, hc, ho, finish, hki, hpi, returning]
  have href : r.step code (.tick ready v) = some ({ r.put i (.finished a) with mode := .back }, []) := by
    obtain ⟨d, ds, -, -, hcallers⟩ := List.forall₂_cons_left_iff.mp hcs
    simp [Sequential.step, hm, Sequential.tick, ho, Sequential.ret, hcallers]
  have hother : ∀ n, n ≠ i → (s.returning i a).promises n = s.promises n := by
    intro n hn
    simp [returning, update, hn]
  have hself : (s.returning i a).promises i = { s.promises i with t_ := some a, ctl := .done } := by
    simp [returning, update]
  have hkeep : s.Keeps { s.returning i a with stack := b :: rest } [i] [] := by
    refine ⟨fun x hx => ?_, fun x _ => ?_, by simp⟩
    · have hxi : x ≠ i := by simpa using hx
      exact congrArg PromiseBase.ctl (hother x hxi)
    · change ((s.returning i a).promises x).parent = (s.promises x).parent
      by_cases hxi : x = i
      · rw [hxi, hself]
      · rw [hother x hxi]
  rw [hstep, href]
  refine .some ⟨?_, rfl⟩
  refine h.of_keeps (by simp [shares, hs, hc, ho]) hstep rfl rfl hkeep (by simpa using apart_of_stack hw hi)
    (Z := [i]) (by simp [hc]) (fun n hn => ?_) ?_ ?_
  · have hni : n ≠ i := by simpa using hn
    exact ⟨unmoved_of_eq (hother n hni) (by simp [hs, hni]), Function.update_of_ne hni _ _⟩
  · simp only [List.mem_singleton, forall_eq, Sequential.put, Function.update_self]
    exact .finished ⟨by rw [hself]; exact hki, by rw [hself], by rw [hself]⟩
  · refine .back rfl (by simp) (calls_keep hs hcs hkeep ?_ ?_ (by simp))
    · simpa using hw.native.not_mem_rest hs
    · simpa using (stack_ctl hw hi).1.1

theorem Matches.ret (h : s.Matches r) (hm : r.mode = .run i c below) {a : V} (ho : code c = .ret a)
    (ready : Bool) (v : V) :
    Agree (s.step code (.tick ready v)) (r.step code (.tick ready v)) := by
  cases below with
  | cons d below => exact h.ret_frame hm ho ready v
  | nil =>
    obtain ⟨rest, hs, -, -, -⟩ := h.run_inv hm
    cases rest with
    | nil => exact h.ret_process hm hs ho ready v
    | cons b rest => exact h.ret_called hm hs ho ready v

/-! ## `ProcessTask::resume` -/

/-- **What the process waits for.** -/
theorem Sound.suspended {z : Handle} {w : W} {k : V → σ} (h : s.Sound) (hs : s.stack = [])
    (hz : Leads s.links.sub root z) (hc : (s.promises z).ctl = .waiting w k) :
    s.nextChild.getD root = z ∧ s.result = some w := by
  have hw := h.formed.wf
  have hend : s.links.sub z = none := hw.sub_eq_none (by simp [shape_of_ctl hc, Ctl.shape])
  have hroot : ∀ sh, s.links.shape root = sh → (∀ n k, sh ≠ .awaits n k) → sh = .waits w := by
    intro sh hsh hno
    have hsub := hw.sub_eq_none (i := root) (by rw [hsh]; exact hno)
    have he := Leads.of_end hz hsub
    rw [← hsh, ← he]
    exact shape_of_ctl hc
  rcases h.rooted.suspended hs with hidle | hdone | ⟨y, u, hy, hyw, hwait, hnext⟩
  · cases hroot _ hidle (by simp)
  · cases hroot _ hdone (by simp)
  · obtain rfl : y = z := end_unique hy hz (hw.sub_eq_none (by simp [hyw])) hend
    obtain rfl : u = w := by
      rw [shape_of_ctl hc] at hyw
      cases hyw
      rfl
    have hfinal : s.atFinalSuspend root = false := by
      rw [← Bool.not_eq_true, atFinalSuspend_iff]
      intro hd
      cases hroot _ hd (by simp)
    exact result_of_nextChild hfinal hnext hwait

theorem Sound.resume_suspended {z : Handle} {w : W} {k : V → σ} (h : s.Sound) (hs : s.stack = [])
    (hz : Leads s.links.sub root z) (hc : (s.promises z).ctl = .waiting w k) (v : V) :
    s.step code (.resume v) = some (s.cleared.continueAt z (k v) [], [.delivered z v]) := by
  obtain ⟨hnext, hresult⟩ := h.suspended hs hz hc
  have hmay : s.mayResume = true := by
    unfold mayResume
    split
    · rfl
    · simp [hresult]
  have hc' : (s.cleared.promises z).ctl = .waiting w k :=
    (cleared_keeps PromiseBase.ctl (fun _ => rfl) _).trans hc
  have hresume : s.step code (.resume v) = s.cleared.resumeHandle z v [] := by
    simp [State.step, hs, hmay, resumeProcess, hnext, cleared]
  rw [hresume]
  simp [resumeHandle, hc', continueAt]

/-- `ProcessTask::resume` lets the process, or the end of the chain that it waits on, go on. -/
theorem Matches.resumed {z : Handle} {x : σ} {v : V} {out : List (Event V)} (h : s.Matches r) (hs : s.stack = [])
    (hstep : s.step code (.resume v) = some (s.cleared.continueAt z x [], out)) (hz : s.Apart z)
    (hd : (s.promises z).ctl ≠ .done) (hbusy : r.tasks z = .busy) (hst : s.Stacked z below root)
    (hzb : ∀ j k, (j, k) ∈ below → j ≠ z) (hcallers : r.callers = []) :
    (s.cleared.continueAt z x []).Matches (r.run z x below) := by
  have hsame : ∀ {α : Type} (F : PromiseBase σ V W → α),
      (∀ p : PromiseBase σ V W, F { p with ctl := .code x } = F p) →
      (∀ p : PromiseBase σ V W, F { p with waiting := none } = F p) →
      ∀ n, F ((s.cleared.continueAt z x []).promises n) = F (s.promises n) := by
    intro α F h1 h2 n
    apply (goto_keeps F h1 n).trans
    exact cleared_keeps F h2 n
  have hctl : ∀ n, n ≠ z → ((s.cleared.continueAt z x []).promises n).ctl = (s.promises n).ctl := by
    intro n hn
    apply ((keeps_goto _ z (.code x)).ctl n (by simpa using hn)).trans
    exact cleared_keeps PromiseBase.ctl (fun _ => rfl) n
  have hself : ((s.cleared.continueAt z x []).promises z).ctl = .code x := by
    simp [continueAt, State.goto, update]
  have hkeep : s.Keeps (s.cleared.continueAt z x []) [z] [] := by
    refine ⟨fun n hn => hctl n (by simpa using hn), fun n _ => ?_, by simp⟩
    exact hsame PromiseBase.parent (fun _ => rfl) (fun _ => rfl) n
  refine h.of_keeps (Z := [z]) (by simp [shares, hs]) hstep rfl rfl hkeep (by simpa using hz) (by simpa using hd)
    (fun n hn => ⟨?_, rfl⟩) ?_ ?_
  · have hnz : n ≠ z := by simpa using hn
    refine ⟨hsame PromiseBase.kind (fun _ => rfl) (fun _ => rfl) n,
      hsame PromiseBase.t_ (fun _ => rfl) (fun _ => rfl) n, by rw [hctl n hnz],
      fun _ => hsame PromiseBase.awaited (fun _ => rfl) (fun _ => rfl) n, ?_⟩
    simp [continueAt, State.goto, update, hs, hnz]
  · simp only [List.mem_singleton, forall_eq]
    change State.Tracked _ z (r.tasks z)
    rw [hbusy]
    exact .running hself (by simp [continueAt, State.goto, update])
  · change State.Shown _ (.run z x below) r.callers
    rw [hcallers]
    exact .run rfl hself (.inr (hst.keep hkeep fun j k hj => by simpa using hzb j k hj)) .nil

theorem Matches.resume (h : s.Matches r) (v : V) :
    Agree (s.step code (.resume v)) (r.step code (.resume v)) := by
  have hw := h.sound.formed.wf
  have hsh := h.shown
  generalize hm : r.mode = m at hsh
  generalize hcallers : r.callers = cs at hsh
  cases hsh with
  | @initial body hs hc =>
    have hnext : s.nextChild = none := (hw.marked.initial (shape_of_ctl hc)).2
    have hstep : s.step code (.resume v) = some (s.cleared.continueAt root body [], []) := by
      simp [State.step, hs, mayResume, hc, resumeProcess, hnext, resumeHandle, cleared, continueAt, update]
    have href : r.step code (.resume v) = some (r.run root body [], []) := by
      simp [Sequential.step, hm]
    have hbusy : r.tasks root = .busy := by
      have hkind : (s.promises root).kind = .process := (hw.process_iff root).mpr rfl
      exact h.busy (fun a hr => absurd (hkind.symm.trans hr.1) (by simp))
        fun hp => absurd (hkind.symm.trans hp.1) (by simp)
    have hmatch := h.resumed hs hstep (.inl ⟨by simp [hc], by simp [hc]⟩) (by simp [hc]) hbusy
      (.base root) (by simp) hcallers
    rw [hstep, href]
    exact .some ⟨hmatch, rfl⟩
  | @suspended q hs hc hb =>
    have hlead := hb.leads hw
    have hd : (s.promises q.innermost).ctl ≠ .done := by simp [hc]
    have hstep : s.step code (.resume v) = _ := h.sound.resume_suspended hs hlead hc v
    have href : r.step code (.resume v) =
        some (r.run q.innermost (q.k v) q.below, [.delivered q.innermost v]) := by
      simp [Sequential.step, hm]
    have hmatch := h.resumed hs hstep (.inr hlead) hd (h.busy_of_leads hlead hd) hb (fun j k hj he => ?_)
      hcallers
    · rw [hstep, href]
      exact .some ⟨hmatch, rfl⟩
    · obtain ⟨⟨n, hn, -⟩, -⟩ := hb.frame hj
      rw [he, hc] at hn
      cases hn
  | run hs _ _ _ =>
    have hstep : s.step code (.resume v) = none := by simp [State.step, hs]
    have href : r.step code (.resume v) = none := by simp [Sequential.step, hm]
    rw [hstep, href]
    exact .none
  | back hs hne _ =>
    have hstep : s.step code (.resume v) = none := by simp [State.step, hs, hne]
    have href : r.step code (.resume v) = none := by simp [Sequential.step, hm]
    rw [hstep, href]
    exact .none
  | finished hs hc =>
    have hstep : s.step code (.resume v) = none := by
      simp [State.step, mayResume, result, atFinalSuspend, hc]
    have href : r.step code (.resume v) = none := by simp [Sequential.step, hm]
    rw [hstep, href]
    exact .none

theorem Matches.tick (h : s.Matches r) (hcode : ∀ c, (code c).methodsOnly = true) (ready : Bool) (v : V) :
    Agree (if s.unshared code (.tick ready v) then s.step code (.tick ready v) else none)
      (r.step code (.tick ready v)) := by
  have hfree : s.shares code = false →
      Agree (s.step code (.tick ready v)) (r.step code (.tick ready v)) →
      Agree (if s.unshared code (.tick ready v) then s.step code (.tick ready v) else none)
        (r.step code (.tick ready v)) := by
    intro hu ha
    rw [if_pos (by simp [unshared, hu])]
    exact ha
  have hnone : s.stack = [] → (r.step code (.tick ready v)) = none →
      Agree (if s.unshared code (.tick ready v) then s.step code (.tick ready v) else none)
        (r.step code (.tick ready v)) := by
    intro hs href
    apply hfree (by simp [shares, hs])
    rw [href]
    simp only [State.step, hs]
    exact .none
  have hsh := h.shown
  cases hm : r.mode with
  | run i c below =>
    have honly := hcode c
    obtain ⟨rest, hs, hc, -, -⟩ := h.run_inv hm
    cases ho : code c with
    | act a k => exact hfree (by simp [shares, hs, hc, ho]) (h.act hm ho ready v)
    | await w k => exact hfree (by simp [shares, hs, hc, ho]) (h.await hm ho ready v)
    | start body k => exact hfree (by simp [shares, hs, hc, ho]) (h.start hm ho ready v)
    | join n k => exact h.join hm ho ready v
    | ret a => exact hfree (by simp [shares, hs, hc, ho]) (h.ret hm ho ready v)
    | gen body k | next g k | yield a k =>
      rw [ho] at honly
      cases honly
  | back =>
    rw [hm] at hsh
    generalize r.callers = cs at hsh
    cases hsh with
    | @back rest _ hs hne hcs =>
      cases hcs with
      | nil => exact absurd rfl hne
      | @cons j d rest ds hj _ => exact hfree (by simp [shares, hs, hj.2.1]) (h.back hm ready v)
  | initial body | suspended q | finished =>
    refine hnone ?_ (by simp [Sequential.step, hm])
    rw [hm] at hsh
    generalize r.callers = cs at hsh
    cases hsh
    assumption

/-- **The coroutines of methods and sequential calls run in lock step.** -/
theorem lockStep (hcode : ∀ c, (code c).methodsOnly = true) :
    System.LockStep (machine code) (unshared code) (sequential code) Matches := by
  intro s r l h
  change Agree (if s.unshared code l then s.step code l else none) (r.step code l)
  cases l with
  | resume v =>
    have hagree : Agree (s.step code (.resume v)) (r.step code (.resume v)) := h.resume v
    cases hs : s.stack with
    | nil =>
      rw [if_pos (by simp [unshared, shares, hs])]
      exact hagree
    | cons i rest =>
      have hstep : s.step code (.resume v) = none := by simp [State.step, hs]
      rw [hstep] at hagree ⊢
      rw [ite_self]
      exact hagree
  | tick ready v => exact h.tick hcode ready v

end

theorem init_matches (body : σ) : (init body : State σ V W).Matches (Sequential.init body) := by
  refine ⟨init_sound body, fun n hn hk hd => ?_, rfl, fun n _ => ?_, fun n => ?_, ?_⟩
  · obtain rfl : n = root := Nat.lt_one_iff.mp hn
    simp [init] at hk
  · by_cases hn : n = root <;> simp [init, blank, hn]
  · refine .busy (fun a hr => ?_) fun hp => ?_
    · have hv := hr.2.2
      by_cases hn : n = root <;> simp [init, blank, hn] at hv
    · have ha := hp.2.1
      have hk := hp.1
      by_cases hn : n = root
      · simp [init, hn] at hk
      · simp [init, blank, hn] at ha
  · exact .initial rfl (by simp [init])

/-! ## Main result -/

/-- **Calls of methods are sequential calls.** For every program of methods under one process, and every
choice of which waits suspend and what is delivered, as long as no coroutine awaits a method that runs,
or that was awaited before and has not returned: the coroutines and the reference take the same steps,
with the same actions and the same values at each `co_await`. When the process has suspended,
`ProcessTask::resume` returns the `IWaiting` of the innermost suspended coroutine of the chain that the
process awaits, which is the one that the reference waits in, and the next `ProcessTask::resume`
continues this coroutine. -/
theorem method_calls_sequential {code : Code σ V W} (hcode : ∀ c, (code c).methodsOnly = true)
    (body : σ) (w : List (Label V)) :
    ((machine code).exec (unshared code) (init body) w).map Prod.snd =
      ((sequential code).exec (fun _ _ => true) (Sequential.init body) w).map Prod.snd ∧
    ∀ s tr, (machine code).exec (unshared code) (init body) w = some (s, tr) → s.stack = [] →
      (∀ c, (s.promises root).ctl ≠ .idle c) → s.atFinalSuspend root = false →
      ∃ r q, (sequential code).exec (fun _ _ => true) (Sequential.init body) w = some (r, tr) ∧
        r.mode = .suspended q ∧ ReflTransGen s.SuspendedIn root q.innermost ∧
        (s.promises q.innermost).ctl = .waiting q.waiting q.k ∧ s.result = some q.waiting ∧
        ∀ v, s.step code (.resume v) =
          some (s.cleared.continueAt q.innermost (q.k v) [], [.delivered q.innermost v]) := by
  have hrel := (lockStep hcode).exec (init_matches body) w
  refine ⟨?_, fun s tr he hs hidle hfinal => ?_⟩
  · generalize (machine code).exec (unshared code) (init body) w = x at hrel
    generalize (sequential code).exec (fun _ _ => true) (Sequential.init body) w = y at hrel
    cases hrel with
    | none => rfl
    | some hpq => exact congrArg some hpq.2
  · rw [he] at hrel
    generalize (sequential code).exec (fun _ _ => true) (Sequential.init body) w = y at hrel
    cases hrel with
    | @some _ p hpq =>
      obtain ⟨r, tr'⟩ := p
      obtain ⟨hm, rfl⟩ := hpq
      have hw := hm.sound.formed.wf
      have hsh := hm.shown
      generalize hmode : r.mode = m at hsh
      generalize r.callers = cs at hsh
      cases hsh with
      | initial _ hc => exact absurd hc (hidle _)
      | run hs' => exact absurd (hs'.symm.trans hs) (by simp)
      | back hs' hne => exact absurd (hs'.symm.trans hs) hne
      | finished _ hc =>
        rw [(atFinalSuspend_iff_ctl s root).mpr hc] at hfinal
        cases hfinal
      | @suspended q _ hc hb =>
        have hlead := hb.leads hw
        exact ⟨r, q, rfl, hmode, ReflTransGen.mono (fun a b => suspendedIn_of_sub hw) _ _ hlead, hc,
          (hm.sound.suspended hs hlead hc).2, hm.sound.resume_suspended hs hlead hc⟩

/-- The process calls a method, goes on while the method waits, and awaits it; the method itself awaits
another one that it has called. -/
def keptMethod : Code Nat Nat Nat
  | 0 => .start 10 fun _ => 1
  | 1 => .act 3 2
  | 2 => .join 1 fun _ => 3
  | 10 => .start 20 fun _ => 11
  | 11 => .join 2 fun _ => 12
  | 20 => .await 7 fun _ => 21
  | _ => .ret 5

theorem keptMethod_methodsOnly (c : Nat) : (keptMethod c).methodsOnly = true := by
  unfold keptMethod
  split <;> rfl

/-- The process waits for what the inner method waits for. -/
theorem method_calls_sequential_kept : ∃ w s r q,
    (machine keptMethod).exec (unshared keptMethod) (init 0) w = some (s, [.act 0 3]) ∧
      (sequential keptMethod).exec (fun _ _ => true) (Sequential.init 0) w = some (r, [.act 0 3]) ∧
      r.mode = .suspended q ∧ ReflTransGen s.SuspendedIn root q.innermost ∧ q.waiting = 7 ∧
      s.result = some 7 := by
  obtain ⟨w, hw⟩ : ∃ w : List (Label Nat), w = [.resume 0, .tick true 0, .tick true 0, .tick false 0,
    .tick true 0, .tick true 0, .tick true 0, .tick true 0, .tick true 0] := ⟨_, rfl⟩
  obtain ⟨-, hsuspended⟩ := method_calls_sequential keptMethod_methodsOnly 0 w
  have hrun : ((machine keptMethod).exec (unshared keptMethod) (init 0) w).any (fun p => decide
      (p.2 = [.act 0 3] ∧ p.1.stack = [] ∧ p.1.atFinalSuspend root = false ∧
        (p.1.promises root).ctl.task = some 1 ∧ p.1.result = some 7)) = true := by
    rw [hw]
    decide
  cases he : (machine keptMethod).exec (unshared keptMethod) (init 0) w with
  | none =>
    rw [he] at hrun
    cases hrun
  | some p =>
    rw [he] at hrun
    obtain ⟨htr, hs, hfinal, htask, hseven⟩ := of_decide_eq_true hrun
    obtain ⟨r, q, href, hm, hchain, -, hresult, -⟩ := hsuspended p.1 p.2 he hs (fun c hc => by
      rw [hc] at htask
      cases htask) hfinal
    rw [htr] at href
    refine ⟨w, p.1, r, q, by rw [he, ← htr], href, hm, hchain, ?_, hseven⟩
    exact Option.some.inj (hresult.symm.trans hseven)

end State
end Eslang.Coroutine
