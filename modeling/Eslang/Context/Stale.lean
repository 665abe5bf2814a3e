import Eslang.Context.Freshness

/-! # No item finds a successor of its process

A resume item names its process by pid. The pid has come round again when `2 ^ 64` processes had its index
since, and each of them put the item that starts it behind the first. A queue of fewer than `2 ^ 63` items, the
most that a `std::deque` holds, has no room for them (`Behind`). -/
namespace Eslang
set_option autoImplicit false
open Lib

namespace Table
variable {t : Table}

/-- How many processes after `o` have started at its index. -/
def since (t : Table) (o : ObjId) : Nat :=
  ((Finset.range t.size).filter fun x => o < x ∧ (t.pid x).idx = (t.pid o).idx ∧ t.Started x).card

theorem since_of_last {o : ObjId} (h : t.Last o) : t.since o = 0 := by
  refine Finset.card_eq_zero.mpr (Finset.filter_eq_empty_iff.mpr fun x hx => ?_)
  rintro ⟨hox, hidx, -⟩
  exact h x hox (Finset.mem_range.mp hx) hidx

theorem since_of_unmade {o : ObjId} (h : t.size ≤ o) : t.since o = 0 :=
  since_of_last fun _ hox hx => absurd (Nat.lt_trans hx (Nat.lt_of_le_of_lt h hox)) (Nat.lt_irrefl _)

/-- Whoever had the index between two processes that started did start. -/
theorem Versions.earlier_le (hv : t.Versions) {o x : ObjId} (hx : x < t.size) (hst : t.Started x)
    (hox : o < x) (hidx : (t.pid o).idx = (t.pid x).idx) : t.earlier x ≤ t.earlier o + t.since o := by
  have hbetween : ∀ {y}, y ≤ x → (t.pid y).idx = (t.pid x).idx → t.Started y := by
    intro y hyx hy
    rcases Nat.lt_or_eq_of_le hyx with hlt | rfl
    · have hlast : ¬ t.Last y := fun hl => hl x hlt hx hy.symm
      exact ⟨fun hc => hlast (hv.live (.inr hc)),
        fun hf => hlast (hv.failed (Nat.lt_trans hlt hx) hf)⟩
    · exact hst
  have hsub : insert x ((Finset.range x).filter fun y => (t.pid y).idx = (t.pid x).idx) ⊆
      insert o ((Finset.range o).filter fun y => (t.pid y).idx = (t.pid o).idx) ∪
        (Finset.range t.size).filter fun y => o < y ∧ (t.pid y).idx = (t.pid o).idx ∧ t.Started y := by
    intro y hy
    have hyx : y ≤ x ∧ (t.pid y).idx = (t.pid x).idx := by
      rcases Finset.mem_insert.mp hy with rfl | hy
      · exact ⟨Nat.le_refl _, rfl⟩
      · obtain ⟨hlt, hy⟩ := Finset.mem_filter.mp hy
        exact ⟨Nat.le_of_lt (Finset.mem_range.mp hlt), hy⟩
    have hstarted := hbetween hyx.1 hyx.2
    simp only [Finset.mem_union, Finset.mem_insert, Finset.mem_filter, Finset.mem_range]
    rcases Nat.lt_trichotomy y o with hlt | heq | hgt
    · exact .inl (.inr ⟨hlt, hyx.2.trans hidx.symm⟩)
    · exact .inl (.inl heq)
    · exact .inr ⟨Nat.lt_of_le_of_lt hyx.1 hx, hgt, hyx.2.trans hidx.symm, hstarted⟩
  have hcard := (Finset.card_le_card hsub).trans (Finset.card_union_le _ _)
  rw [Finset.card_insert_of_notMem (by simp), Finset.card_insert_of_notMem (by simp)] at hcard
  simp only [earlier, since]
  omega

/-- A pid that has not come round again finds nobody but its own process. -/
theorem Versions.find_own (hv : t.Versions) (h : t.Ok) {o x : ObjId} (ho : o < t.size)
    (hs : t.since o < 2 ^ 64) (hf : t.find (t.pid o) = some x) : x = o := by
  obtain ⟨hr, hp⟩ := (find_eq_some h).mp hf
  have hx : x < t.size := h.allocated (by simp [hr])
  have hidx : (t.pid o).idx = (t.pid x).idx := congrArg Pid.idx hp.symm
  rcases Nat.lt_trichotomy x o with hxo | heq | hox
  · exact absurd hidx (hv.live (.inl hr) o hxo ho)
  · exact heq
  · have hversion : t.earlier x % 2 ^ 64 = t.earlier o % 2 ^ 64 := by
      rw [← hv.version hx, ← hv.version ho, hp]
    have hlt := earlier_lt hox hidx
    have hle := hv.earlier_le hx (by simp [Started, hr]) hox hidx
    omega

end Table

namespace Context
variable {σ μ : Type}

theorem since_of_alive {c : Context σ μ} (hv : c.table.Versions) {o : ObjId}
    (hd : (c.heap o).dead = false) : c.table.since o = 0 := by
  by_cases ho : o < c.heapSize
  · apply Table.since_of_last
    have hlife : ¬ (c.table.Started o ∧ (c.heap o).life ≠ .running) := by simp [← dead_iff, hd]
    by_cases hr : (c.heap o).life = .running
    · exact hv.live (.inl hr)
    · by_cases hcon : (c.heap o).life = .constructing
      · exact hv.live (.inr hcon)
      · apply hv.failed ho
        by_contra hf
        exact hlife ⟨⟨hcon, hf⟩, hr⟩
  · exact Table.since_of_unmade (Nat.le_of_not_lt ho)

theorem effect_started {code : Code σ μ} {c c' : Context σ μ} {l : Label} {out : List (Event μ)}
    (he : Effect code c l out c') (ht : c.table.Ok) {x : ObjId} (hst : c'.table.Started x) :
    c.table.Started x ∨ (∃ t rest, c.stack = ⟨.ctor x, t⟩ :: rest) ∧
      ∃ i, c'.queue = c.queue ++ [i] := by
  by_cases hold : c.table.Started x
  · exact .inl hold
  have hok' := (effect_tableStep he).ok ht
  have hcon : (c.heap x).life = .constructing := by
    by_contra hcon
    have hfailed : (c.heap x).life = .failed := by
      by_contra hf
      exact hold ⟨hcon, hf⟩
    by_cases hx : x < c.heapSize
    · exact hst.2 ((step_keeps he ht).failed hx hfailed)
    · have hx' : x < c'.heapSize := hok'.allocated hst.2
      rcases effect_size he with hs | ⟨hs, hroles⟩
      · exact hx (hs ▸ hx')
      · have hnew : x = c.heapSize := Nat.le_antisymm (by rw [hs] at hx'; exact Nat.lt_succ_iff.mp hx')
          (Nat.le_of_not_lt hx)
        have hctor : .ctor x ∈ c'.table.roles := by
          show .ctor x ∈ c'.stack.map Frame.role
          rw [hroles, hnew]
          exact List.mem_cons_self
        exact hst.1 (hok'.ctor hctor)
  have hin : .ctor x ∈ c.stack.map Frame.role := (ht.building hcon).2.2
  have hout : .ctor x ∉ c'.stack.map Frame.role := fun hctor => hst.1 (hok'.ctor hctor)
  right
  cases effect_stack he with
  | same hs => exact absurd (hs ▸ hin) hout
  | goOn hs hs' =>
    rw [hs] at hin
    rw [hs'] at hout
    exact absurd hin hout
  | pop hs hs' hr =>
    rw [hs] at hin
    rw [hs'] at hout
    exact absurd ((List.mem_cons.mp hin).resolve_left fun he => hr x he.symm) hout
  | call hs hs' =>
    rw [hs'] at hout
    exact absurd (List.mem_cons_of_mem _ hin) hout
  | @ret o t t' role rest s hs hs' hl =>
    rw [hs] at hin
    rw [hs'] at hout
    have hx : x = o := by simpa using (List.mem_cons.mp hin).resolve_right hout
    subst hx
    exact ⟨⟨_, _, hs⟩, (hl.resolve_right hst.2).2⟩
  | resumed hs => simp [hs] at hin
  | enter hs => simp [hs] at hin

theorem effect_since {code : Code σ μ} {c c' : Context σ μ} {l : Label} {out : List (Event μ)}
    (he : Effect code c l out c') (ht : c.table.Ok) (o : ObjId) :
    c'.table.since o ≤ c.table.since o ∨ c'.table.since o ≤ c.table.since o + 1 ∧
      (∃ x t rest, c.stack = ⟨.ctor x, t⟩ :: rest) ∧ ∃ i, c'.queue = c.queue ++ [i] := by
  have hk := step_keeps he ht
  by_cases ho : o < c.heapSize
  · have hsub : ∀ x, c.table.Started x → o < x →
        (c'.table.pid x).idx = (c'.table.pid o).idx → (c.table.pid x).idx = (c.table.pid o).idx := by
      intro x hst _ hidx
      have hx : (c'.heap x).pid = (c.heap x).pid := hk.pid (started_lt ht hst)
      have ho : (c'.heap o).pid = (c.heap o).pid := hk.pid ho
      show (c.heap x).pid.idx = (c.heap o).pid.idx
      rw [← hx, ← ho]
      exact hidx
    by_cases hnew : ∃ x, c'.table.Started x ∧ ¬ c.table.Started x
    · obtain ⟨x, hst, hold⟩ := hnew
      obtain ⟨⟨t, rest, hs⟩, hq⟩ := (effect_started he ht hst).resolve_left hold
      refine .inr ⟨?_, ⟨x, t, rest, hs⟩, hq⟩
      refine (Finset.card_le_card (t := insert x _) fun y hy => ?_).trans (Finset.card_insert_le x _)
      simp only [Finset.mem_filter, Finset.mem_range, Finset.mem_insert] at hy ⊢
      obtain ⟨hy, hoy, hidx, hsty⟩ := hy
      rcases effect_started he ht hsty with hsty | ⟨⟨t', rest', hs'⟩, -⟩
      · exact .inr ⟨started_lt ht hsty, hoy, hsub y hsty hoy hidx, hsty⟩
      · rw [hs] at hs'
        simp only [List.cons.injEq, Frame.mk.injEq, Role.ctor.injEq] at hs'
        exact .inl hs'.1.1.symm
    · refine .inl (Finset.card_le_card fun y hy => ?_)
      simp only [Finset.mem_filter, Finset.mem_range] at hy ⊢
      obtain ⟨hy, hoy, hidx, hsty⟩ := hy
      have hsty : c.table.Started y := by
        by_contra hn
        exact hnew ⟨y, hsty, hn⟩
      exact ⟨started_lt ht hsty, hoy, hsub y hsty hoy hidx, hsty⟩
  · left
    have hlast : c'.table.Last o := by
      intro x hox hx
      have hx : x < c'.heapSize := hx
      have hle : c'.heapSize ≤ c.heapSize + 1 := by
        rcases effect_size he with hs | ⟨hs, -⟩
        · exact hs ▸ Nat.le_succ _
        · exact Nat.le_of_eq hs
      have hox : c.heapSize < x := Nat.lt_of_le_of_lt (Nat.le_of_not_lt ho) hox
      exact absurd (Nat.lt_of_lt_of_le hx hle) (Nat.not_lt.mpr hox)
    rw [Table.since_of_last hlast]
    exact Nat.zero_le _

/-- `queue_` holds fewer items than a `std::deque` can. -/
def QueueFits (c : Context σ μ) : Prop := c.queue.length < 2 ^ 63

/-- The processes that took over the index of a process are accounted for by the items behind its own. -/
structure Behind (c : Context σ μ) : Prop where
  body : ∀ {o}, .body o ∈ c.table.roles → c.table.since o ≤ c.queue.length
  item : ∀ {q p n q'}, c.queue = q ++ .resume p n :: q' →
    ∃ o, c.Queued o p n ∧ c.table.since o < 2 ^ 63 + q'.length

theorem effect_behind_body {code : Code σ μ} {c c' : Context σ μ} {l : Label} {out : List (Event μ)}
    (he : Effect code c l out c') (hc : c.Sound) (hv : c.table.Versions) (h : c.Behind) {o : ObjId}
    (hb : .body o ∈ c'.table.roles) : c'.table.since o ≤ c'.queue.length := by
  rcases effect_entered he hb with hold | ⟨-, hd, -⟩
  · have hle := h.body hold
    have hne : c.stack ≠ [] := fun hnil => by simp [table, hnil] at hold
    obtain ⟨is, hq, -, -⟩ := (effect_queue he).resolve_right fun hr => hne hr.1
    rcases effect_since he hc.table o with hs | ⟨hs, -, i, hi⟩
    · rw [hq, List.length_append]
      omega
    · rw [hi, List.length_append, List.length_singleton]
      omega
  · have hzero := since_of_alive hv hd
    rcases effect_since he hc.table o with hs | ⟨hs, -, i, hi⟩
    · omega
    · rw [hi, List.length_append, List.length_singleton]
      omega

/-- An item that a step adds has its own process's successors, if any, in the queue. -/
theorem queues_behind {code : Code σ μ} {c c' : Context σ μ} {l : Label} {out : List (Event μ)}
    (he : Effect code c l out c') (hc : c.Sound) (hsh : c.Shaped) (hv : c.table.Versions)
    (hg : c.QueueFits) (h : c.Behind) {p : Pid} {n : Nat} (hq : Queues c c' p n) :
    ∃ o, c'.Queued o p n ∧ c'.table.since o < 2 ^ 63 := by
  unfold QueueFits at hg
  cases hq with
  | @suspend o t t' rest w hs hs' hp hn hcell hr =>
    refine ⟨o, hp ▸ hn ▸ queued_suspend he hc hsh hs hs' hcell hr, ?_⟩
    have hle := h.body (o := o) (by simp [roles_top hs])
    rcases effect_since he hc.table o with hle' | ⟨-, ⟨x, t₁, rest₁, hx⟩, -⟩
    · omega
    · simp [hs] at hx
  | @start o t rest hs hp hn =>
    refine ⟨o, hp ▸ hn ▸ queued_start he hc hs, ?_⟩
    have hcon : (c.heap o).life = .constructing := hc.table.ctor (by simp [roles_top hs])
    have hzero := Table.since_of_last (hv.live (o := o) (.inr hcon))
    rcases effect_since he hc.table o with hle | ⟨hle, -⟩ <;> omega

theorem effect_behind {code : Code σ μ} {c c' : Context σ μ} {l : Label} {out : List (Event μ)}
    (he : Effect code c l out c') (hc : c.Sound) (hsh : c.Shaped) (hv : c.table.Versions)
    (hg : c.QueueFits) (h : c.Behind) : c'.Behind := by
  refine ⟨fun {o} hb => effect_behind_body he hc hv h hb, fun {q p n q'} hq' => ?_⟩
  rcases effect_queue he with ⟨is, hq, -, hnew⟩ | ⟨hnil, i, hq⟩
  · rw [hq, List.append_eq_append_iff] at hq'
    rcases hq' with ⟨q₁, rfl, his⟩ | ⟨q₁, hold, hrest⟩
    · obtain ⟨o, ho, hs⟩ := queues_behind he hc hsh hv hg h (hnew p n (by rw [his]; simp))
      exact ⟨o, ho, Nat.lt_of_lt_of_le hs (Nat.le_add_right _ _)⟩
    · cases q₁ with
      | nil =>
        have his : is = .resume p n :: q' := by simpa using hrest.symm
        obtain ⟨o, ho, hs⟩ := queues_behind he hc hsh hv hg h (hnew p n (by rw [his]; simp))
        exact ⟨o, ho, Nat.lt_of_lt_of_le hs (Nat.le_add_right _ _)⟩
      | cons j q₁ =>
        obtain ⟨rfl, rfl⟩ : .resume p n = j ∧ q' = q₁ ++ is := by simpa using hrest
        obtain ⟨o, ho, hs⟩ := h.item hold
        refine ⟨o, ho.step he hc, ?_⟩
        rw [List.length_append]
        rcases effect_since he hc.table o with hle | ⟨hle, -, i, hi⟩
        · omega
        · have hlen : is.length = 1 := by
            rw [hi, List.append_cancel_left_eq] at hq
            simp [← hq]
          omega
  · obtain ⟨o, ho, hs⟩ := h.item (q := i :: q) (by rw [hq, hq']; rfl)
    refine ⟨o, ho.step he hc, ?_⟩
    rcases effect_since he hc.table o with hle | ⟨-, ⟨x, t, rest, hx⟩, -⟩
    · omega
    · simp [hnil] at hx

theorem behind_init (main : σ) : (init main : Context σ μ).Behind := by
  constructor <;> simp [init, table]

/-- An item finds nobody but the process that queued it. -/
theorem Behind.own {c : Context σ μ} (h : c.Behind) (hc : c.Sound) (hv : c.table.Versions)
    (hg : c.QueueFits) {o : ObjId} {p : Pid} {n : Nat} (hin : .resume p n ∈ c.queue)
    (hf : c.findProc p = some o) : c.Queued o p n := by
  obtain ⟨q, q', hq⟩ := List.mem_iff_append.mp hin
  obtain ⟨x, hx, hs⟩ := h.item hq
  have hlt : c.table.since x < 2 ^ 64 := by
    unfold QueueFits at hg
    rw [hq, List.length_append, List.length_cons] at hg
    omega
  obtain ⟨hx₀, hpid, -⟩ := id hx
  have hown : c.table.pid x = p := hpid
  have ho : o = x := hv.find_own hc.table hx₀ hlt (by rw [hown]; exact hf)
  exact ho ▸ hx

end Context

theorem Code.behind {σ μ : Type} {code : Code σ μ} {main : σ} {tr : List (Event μ)}
    {c : Context σ μ} (h : code.RunsTo (fun c _ => c.QueueFits) main tr c) : c.Behind :=
  h.invariant_of (fun c => c.Sound ∧ c.Shaped ∧ c.table.Versions) Context.Behind
    (fun h => ⟨Code.sound h, Code.shaped h, Code.versions h⟩) (Context.behind_init main)
    fun _ _ _ _ hc hi hg hs =>
      Context.effect_behind (Context.step_effect hs).2 hc.1 hc.2.1 hc.2.2 hg hi

end Eslang
