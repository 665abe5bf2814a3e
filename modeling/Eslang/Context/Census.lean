import Eslang.Context.Phases

/-! # The census of the process table

Every index of `processes_` holds a live process, or is on `tombstones_`, or belongs to a process under
construction, or is lost to a constructor that threw. So the loop condition of `Context::run`, which
compares two sizes, counts the live processes exactly as long as no spawn fails
(`table_partition`), and never again once one has (`failed_spawn_loses_index`). -/
namespace Eslang
set_option autoImplicit false
open Lib

namespace Table
variable {t u : Table}

/-- The number of processes at one stage of life. -/
def num (t : Table) (l : Life) : Nat := ((Finset.range t.size).filter fun o => t.life o = l).card

theorem num_update {o : ObjId} {a b : Life} (hs : u.size = t.size)
    (hl : u.life = Function.update t.life o b) (ho : o < t.size) (ha : t.life o = a) (hab : a ≠ b) :
    u.num b = t.num b + 1 ∧ u.num a + 1 = t.num a ∧
      ∀ l, l ≠ a → l ≠ b → u.num l = t.num l := by
  have hmem : o ∈ Finset.range t.size := Finset.mem_range.mpr ho
  refine ⟨?_, ?_, fun l hla hlb => ?_⟩
  · have hnot : o ∉ (Finset.range t.size).filter fun x => t.life x = b := by simp [ha, hab]
    rw [num, num, ← Finset.card_insert_of_notMem hnot, hs, hl]
    congr 1
    ext x
    by_cases hx : x = o
    · simp [hx, ho]
    · simp [hx]
  · have hnot : o ∉ (Finset.range u.size).filter fun x => u.life x = a := by simp [hl, hab.symm]
    rw [num, num, ← Finset.card_insert_of_notMem hnot, hs, hl]
    congr 1
    ext x
    by_cases hx : x = o
    · simp [hx, ho, ha]
    · simp [hx]
  · rw [num, num, hs, hl]
    congr 1
    ext x
    by_cases hx : x = o
    · simp [hx, ha, hla.symm, hlb.symm]
    · simp [hx]

theorem life_back {o : ObjId} {b : Life} (hl : u.life = Function.update t.life o b) {x : ObjId}
    {l : Life} (hne : l ≠ b) (hx : u.life x = l) : t.life x = l ∧ x ≠ o := by
  have hxo : x ≠ o := by
    rintro rfl
    rw [hl, Function.update_self] at hx
    exact hne hx.symm
  exact ⟨by rwa [hl, Function.update_of_ne hxo] at hx, hxo⟩

theorem num_construct (p : Pid) :
    (t.construct p).num .constructing = t.num .constructing + 1 ∧
      ∀ l, l ≠ .constructing → (t.construct p).num l = t.num l := by
  have hold : ∀ {x}, x < t.size → (t.construct p).life x = t.life x := fun {x} hx => by
    simp [construct, Nat.ne_of_lt hx]
  have hnew : (t.construct p).life t.size = .constructing := by simp [construct]
  have hfilter : ∀ l, (t.construct p).num l =
      (((Finset.range t.size).filter fun x => t.life x = l).card +
        if l = .constructing then 1 else 0) := by
    intro l
    rw [num, show (t.construct p).size = t.size + 1 from rfl, Finset.range_add_one,
      Finset.filter_insert, hnew]
    have heq : ((Finset.range t.size).filter fun x => (t.construct p).life x = l) =
        (Finset.range t.size).filter fun x => t.life x = l :=
      Finset.filter_congr fun x hx => by rw [hold (Finset.mem_range.mp hx)]
    rw [heq]
    split
    next hl =>
      rw [Finset.card_insert_of_notMem (by simp), if_pos hl.symm]
    next hl => rw [if_neg (Ne.symm hl), Nat.add_zero]
  exact ⟨by rw [hfilter]; simp [num], fun l hl => by rw [hfilter, if_neg hl]; rfl⟩

/-- Where the indices of `processes_` are, and where the dead processes are. -/
structure Census (t : Table) : Prop where
  count : t.processes.length =
    t.tombstones.length + (t.num .running + t.num .constructing + t.num .failed)
  covered : ∀ {i}, t.processes[i]? = some none → i ∈ t.tombstones.map Pid.idx ∨
    ∃ o < t.size, (t.life o = .constructing ∨ t.life o = .failed) ∧ (t.pid o).idx = i
  lost : ∀ {o}, o < t.size → t.life o = .failed → t.Vacant (t.pid o).idx
  doomed : ∀ {o}, t.life o = .killed → o ∈ t.toDestroy

theorem kill_census (h : t.Ok) (hc : t.Census) (p : Pid) : (t.kill p).Census := by
  cases hf : t.find p with
  | none => rwa [kill_of_none hf]
  | some o =>
    obtain ⟨hr, rfl⟩ := (find_eq_some h).mp hf
    have ho : o < t.size := h.allocated (by simp [hr])
    have hlt := h.inRange ho
    have hproc : (t.kill (t.pid o)).processes = t.processes.set (t.pid o).idx none := by
      rw [kill_of_some hf]
    have htomb : (t.kill (t.pid o)).tombstones = t.pid o :: t.tombstones := by rw [kill_of_some hf]
    have hlife : (t.kill (t.pid o)).life = Function.update t.life o .killed := by
      rw [kill_of_some hf]
    have hback := @life_back t (t.kill (t.pid o)) o _ hlife
    refine ⟨?_, fun {i} hi => ?_, fun {o'} ho' hl => ?_, fun {o'} hl => ?_⟩
    · obtain ⟨-, hrun, hrest⟩ := num_update (t := t) (kill_size _) hlife ho hr (by simp)
      have hcount := hc.count
      rw [hrest .constructing (by simp) (by simp), hrest .failed (by simp) (by simp), hproc, htomb,
        List.length_set, List.length_cons]
      omega
    · rw [htomb]
      rw [hproc, List.getElem?_set] at hi
      split at hi
      next he => exact .inl (by simp [he])
      next he =>
        rcases hc.covered hi with hi | ⟨x, hx, hl, hidx⟩
        · exact .inl (List.mem_cons_of_mem _ hi)
        · have hne : x ≠ o := by
            rintro rfl
            simp [hr] at hl
          exact .inr ⟨x, by simpa using hx, by simpa [hlife, hne] using hl, by simpa using hidx⟩
    · obtain ⟨hl, hne⟩ := hback (by simp) hl
      have hv := hc.lost (by simpa using ho') hl
      have hidx : (t.pid o').idx ≠ (t.pid o).idx := by
        intro he
        have := hv.empty
        rw [he, h.live hr] at this
        cases this
      rw [kill_pid]
      refine ⟨?_, ?_, fun {x} hx => ?_⟩
      · rw [hproc, List.getElem?_set_ne (Ne.symm hidx)]
        exact hv.empty
      · simpa [htomb, hidx] using hv.noTomb
      · rw [kill_pid]
        exact hv.noCtor (hback (by simp) hx).1
    · have htd : (t.kill (t.pid o)).toDestroy = t.toDestroy ++ [o] := by rw [kill_of_some hf]
      rw [htd]
      by_cases he : o' = o
      · simp [he]
      · rw [hlife, Function.update_of_ne he] at hl
        exact List.mem_append_left _ (hc.doomed hl)

/-- `nextPid` takes its index off `tombstones_` or appends it to `processes_`. -/
theorem nextPid_indices (t : Table) :
    t.nextPid.2.processes.length + t.tombstones.length =
        t.processes.length + t.nextPid.2.tombstones.length + 1 ∧
      (∀ {i}, t.nextPid.2.processes[i]? = some none → i = t.nextPid.1.idx ∨
        t.processes[i]? = some none) ∧
      (∀ {i}, i ∈ t.tombstones.map Pid.idx → i = t.nextPid.1.idx ∨
        i ∈ t.nextPid.2.tombstones.map Pid.idx) ∧
      ∀ {i}, t.Vacant i → t.nextPid.2.Vacant i ∧ i ≠ t.nextPid.1.idx := by
  cases ht : t.tombstones with
  | cons p ps =>
    simp only [nextPid, ht]
    refine ⟨by simp; omega, fun hi => .inr hi, fun hi => by simpa using hi, fun {i} hv => ?_⟩
    have hn := hv.noTomb
    rw [ht, List.map_cons, List.mem_cons, not_or] at hn
    exact ⟨⟨hv.empty, hn.2, hv.noCtor⟩, hn.1⟩
  | nil =>
    simp only [nextPid, ht]
    refine ⟨by simp, fun {i} hi => ?_, fun hi => by simp at hi, fun {i} hv => ?_⟩
    · by_cases hlt : i < t.processes.length
      · rw [List.getElem?_append_left hlt] at hi
        exact .inr hi
      · have hle := (List.getElem?_eq_some_iff.mp hi).1
        simp only [List.length_append, List.length_singleton] at hle
        exact .inl (by omega)
    · have hlt := (List.getElem?_eq_some_iff.mp hv.empty).1
      refine ⟨⟨?_, by simp, hv.noCtor⟩, Nat.ne_of_lt hlt⟩
      rw [List.getElem?_append_left hlt]
      exact hv.empty

theorem spawn_census (hc : t.Census) : (t.nextPid.2.construct t.nextPid.1).Census := by
  obtain ⟨hlen, hentry, htomb, hvacant⟩ := t.nextPid_indices
  obtain ⟨hsize, hpid, hlife⟩ := t.nextPid_eq
  obtain ⟨hcon, hrest⟩ := num_construct (t := t.nextPid.2) t.nextPid.1
  have hnum : ∀ l, t.nextPid.2.num l = t.num l := fun l => by rw [num, num, hsize, hlife]
  have hold : ∀ {x}, x ≠ t.size → (t.nextPid.2.construct t.nextPid.1).life x = t.life x ∧
      (t.nextPid.2.construct t.nextPid.1).pid x = t.pid x := fun {x} hx => by
    simp [construct, hsize, hx, hlife, hpid]
  have hself : (t.nextPid.2.construct t.nextPid.1).life t.size = .constructing ∧
      (t.nextPid.2.construct t.nextPid.1).pid t.size = t.nextPid.1 := by
    simp [construct, hsize]
  refine ⟨?_, fun {i} hi => ?_, fun {o} ho hl => ?_, fun {o} hl => ?_⟩
  · have hcount := hc.count
    rw [hcon, hrest _ (by simp), hrest _ (by simp), hnum, hnum, hnum]
    simp only [construct]
    omega
  · have hnew : i = t.nextPid.1.idx → ∃ o < (t.nextPid.2.construct t.nextPid.1).size,
        ((t.nextPid.2.construct t.nextPid.1).life o = .constructing ∨
          (t.nextPid.2.construct t.nextPid.1).life o = .failed) ∧
          ((t.nextPid.2.construct t.nextPid.1).pid o).idx = i := by
      rintro rfl
      exact ⟨t.size, by simp [construct, hsize], .inl hself.1, by rw [hself.2]⟩
    rcases hentry hi with hi | hi
    · exact .inr (hnew hi)
    · rcases hc.covered hi with hi | ⟨o, ho, hl, hidx⟩
      · rcases htomb hi with hi | hi
        · exact .inr (hnew hi)
        · exact .inl hi
      · obtain ⟨hl', hp'⟩ := hold (Nat.ne_of_lt ho)
        refine .inr ⟨o, ?_, by rwa [hl'], by rwa [hp']⟩
        simp only [construct, hsize]
        omega
  · have hne : o ≠ t.size := by
      rintro rfl
      simp [hself.1] at hl
    obtain ⟨hl', hp'⟩ := hold hne
    have ho : o < t.size := by
      simp only [construct, hsize] at ho
      omega
    obtain ⟨hv, hidx⟩ := hvacant (hc.lost ho (hl' ▸ hl))
    rw [hp']
    refine ⟨hv.empty, hv.noTomb, fun {x} hx => ?_⟩
    by_cases he : x = t.size
    · rw [he, hself.2]
      exact hidx.symm
    · rw [(hold he).1] at hx
      rw [(hold he).2]
      have := hv.noCtor (o := x) (by rw [hlife]; exact hx)
      rwa [hpid] at this
  · have hne : o ≠ t.size := by
      rintro rfl
      simp [hself.1] at hl
    have htd : (t.nextPid.2.construct t.nextPid.1).toDestroy = t.toDestroy := by
      unfold nextPid
      split <;> rfl
    rw [htd]
    exact hc.doomed ((hold hne).1 ▸ hl)

theorem occupy_census (h : t.Ok) (hc : t.Census) {o : ObjId} {rs : List Role}
    (hr : t.roles = .ctor o :: rs) : (t.occupy o).Census := by
  obtain ⟨hl, -⟩ := ctor_top h hr
  have ho : o < t.size := h.allocated (by simp [hl])
  have hback := @life_back t (t.occupy o) o _ rfl
  refine ⟨?_, fun {i} hi => ?_, fun {o'} ho' hl' => ?_, fun {o'} hl' => ?_⟩
  · obtain ⟨hrun, hcon, hrest⟩ := num_update (t := t) (u := t.occupy o) rfl rfl ho hl (by simp)
    have hcount := hc.count
    have hlen : (t.occupy o).processes.length = t.processes.length := List.length_set
    have htomb : (t.occupy o).tombstones = t.tombstones := rfl
    rw [hrest .failed (by simp) (by simp), hrun, hlen, htomb]
    omega
  · simp only [occupy, List.getElem?_set] at hi
    split at hi
    next he => simp at hi
    next he =>
      rcases hc.covered hi with hi | ⟨x, hx, hlx, hidx⟩
      · exact .inl hi
      · have hne : x ≠ o := by
          rintro rfl
          exact he hidx
        exact .inr ⟨x, hx, by simpa [occupy, hne] using hlx, hidx⟩
  · obtain ⟨hl', hne⟩ := hback (by simp) hl'
    have hv := hc.lost ho' hl'
    refine ⟨?_, hv.noTomb, fun {x} hx => hv.noCtor (hback (by simp) hx).1⟩
    simp only [occupy]
    rw [List.getElem?_set_ne (hv.noCtor hl)]
    exact hv.empty
  · exact hc.doomed (hback (by simp) hl').1

theorem abandon_census (h : t.Ok) (hc : t.Census) {o : ObjId} {rs : List Role}
    (hr : t.roles = .ctor o :: rs) : (t.abandon o).Census := by
  obtain ⟨hl, -⟩ := ctor_top h hr
  have ho : o < t.size := h.allocated (by simp [hl])
  have hback := @life_back t (t.abandon o) o _ rfl
  refine ⟨?_, fun {i} hi => ?_, fun {o'} ho' hl' => ?_, fun {o'} hl' => ?_⟩
  · obtain ⟨hfail, hcon, hrest⟩ := num_update (t := t) (u := t.abandon o) rfl rfl ho hl (by simp)
    have hcount := hc.count
    have hlen : (t.abandon o).processes = t.processes := rfl
    have htomb : (t.abandon o).tombstones = t.tombstones := rfl
    rw [hrest .running (by simp) (by simp), hfail, hlen, htomb]
    omega
  · rcases hc.covered hi with hi | ⟨x, hx, hlx, hidx⟩
    · exact .inl hi
    · by_cases he : x = o
      · exact .inr ⟨x, hx, .inr (by simp [abandon, he]), hidx⟩
      · exact .inr ⟨x, hx, by simpa [abandon, he] using hlx, hidx⟩
  · by_cases he : o' = o
    · subst he
      obtain ⟨hempty, hnot, -⟩ := h.building hl
      refine ⟨hempty, hnot, fun {x} hx hidx => ?_⟩
      obtain ⟨hx, hne⟩ := hback (by simp) hx
      exact hne (h.alone hx hl hidx)
    · have hv := hc.lost ho' (by simpa [abandon, he] using hl')
      exact ⟨hv.empty, hv.noTomb, fun {x} hx => hv.noCtor (hback (by simp) hx).1⟩
  · exact hc.doomed (hback (by simp) hl').1

theorem destroy_census (h : t.Ok) (hc : t.Census) {o : ObjId} {rest : List ObjId}
    (hd : t.toDestroy = o :: rest) : (t.destroy o).Census := by
  have hl : t.life o = .killed := h.doomed (by simp [hd])
  have ho : o < t.size := h.allocated (by simp [hl])
  have hback := @life_back t (t.destroy o) o _ rfl
  refine ⟨?_, fun {i} hi => ?_, fun {o'} ho' hl' => ?_, fun {o'} hl' => ?_⟩
  · obtain ⟨-, -, hrest⟩ := num_update (t := t) (u := t.destroy o) rfl rfl ho hl (by simp)
    rw [hrest .running (by simp) (by simp), hrest .constructing (by simp) (by simp),
      hrest .failed (by simp) (by simp)]
    exact hc.count
  · rcases hc.covered hi with hi | ⟨x, hx, hlx, hidx⟩
    · exact .inl hi
    · have hne : x ≠ o := by
        rintro rfl
        simp [hl] at hlx
      exact .inr ⟨x, hx, by simpa [destroy, hne] using hlx, hidx⟩
  · have hv := hc.lost ho' (hback (by simp) hl').1
    exact ⟨hv.empty, hv.noTomb, fun {x} hx => hv.noCtor (hback (by simp) hx).1⟩
  · obtain ⟨hl', hne⟩ := hback (by simp) hl'
    have hin := hc.doomed hl'
    rw [hd] at hin
    simp only [destroy, hd, List.tail_cons]
    exact (List.mem_cons.mp hin).resolve_left hne

theorem Moves.census (hm : t.Moves u) (h : t.Ok) (hc : t.Census) : u.Census := by
  induction hm with
  | refl => exact hc
  | tail hms hm ih =>
    have hok := Moves.ok hms h
    cases hm with
    | kill p => exact kill_census hok ih p
    | spawn => exact spawn_census ih
    | occupy hr => exact occupy_census hok ih hr
    | roles hc hb =>
      exact ⟨ih.count, ih.covered, fun ho hl =>
        ⟨(ih.lost ho hl).empty, (ih.lost ho hl).noTomb, (ih.lost ho hl).noCtor⟩, ih.doomed⟩

theorem Moves.failed_back (hm : t.Moves u) (h : t.Ok) {o : ObjId} (ho : o < u.size)
    (hl : u.life o = .failed) : o < t.size ∧ t.life o = .failed := by
  induction hm with
  | refl => exact ⟨ho, hl⟩
  | @tail v w hms hm ih =>
    have hok := Moves.ok hms h
    cases hm with
    | kill p =>
      cases hf : v.find p with
      | none => rw [kill_of_none hf] at ho hl; exact ih ho hl
      | some x =>
        rw [kill_of_some hf] at ho hl
        exact ih ho (life_back (t := v) rfl (by simp) hl).1
    | spawn =>
      obtain ⟨hsize, -, hlife⟩ := v.nextPid_eq
      simp only [construct, hsize, hlife] at ho hl
      by_cases hx : o = v.size
      · simp [hx] at hl
      · rw [Function.update_of_ne hx] at hl
        exact ih (Nat.lt_of_le_of_ne (Nat.lt_succ_iff.mp ho) hx) hl
    | occupy hr => exact ih ho (life_back (t := v) rfl (by simp) hl).1
    | roles hc hb => exact ih ho hl

/-- The index of a process whose constructor threw is never handed out again. -/
theorem Moves.lost_index (hm : t.Moves u) (h : t.Ok) (hc : t.Census) {o : ObjId} (ho : o < t.size)
    (hl : t.life o = .failed) {x : ObjId} (hx : t.size ≤ x) (hxu : x < u.size) :
    (u.pid x).idx ≠ (t.pid o).idx := by
  induction hm with
  | refl => exact absurd hxu (Nat.not_lt.mpr hx)
  | @tail v w hms hm ih =>
    have hok := Moves.ok hms h
    have hk := Moves.keeps hms h
    have hkv := hm.keeps hok
    by_cases hxv : x < v.size
    · rw [hkv.pid hxv]
      exact ih hxv
    cases hm with
    | kill p => exact absurd (by simpa using hxu) hxv
    | spawn =>
      obtain ⟨hsize, -, -⟩ := v.nextPid_eq
      have hxs : x = v.size := by
        simp only [construct, hsize] at hxu
        exact Nat.le_antisymm (Nat.lt_succ_iff.mp hxu) (Nat.not_lt.mp hxv)
      have hv := (Moves.census hms h hc).lost (Nat.lt_of_lt_of_le ho hk.size) (hk.failed ho hl)
      obtain ⟨-, hne⟩ := v.nextPid_indices.2.2.2 hv
      rw [hk.pid ho] at hne
      simpa [construct, hsize, hxs] using hne.symm
    | occupy hr => exact absurd hxu hxv
    | roles hc hb => exact absurd hxu hxv

end Table

namespace Context
variable {σ μ : Type}

theorem effect_census {code : Code σ μ} {c c' : Context σ μ} {l : Label} {out : List (Event μ)}
    (he : Effect code c l out c') (ht : c.table.Ok) (h : c.table.Census) : c'.table.Census := by
  cases effect_tableStep he with
  | moves hm => exact hm.census ht h
  | abandon hs hop hm => exact hm ▸ Table.abandon_census ht h (roles_top hs)
  | destroy hs hp hd hm =>
    have htop := toDestroy_top hd
    exact hm.census (Table.destroy_ok ht htop (by simp [table, hs]))
      (Table.destroy_census ht h htop)

theorem census_init (main : σ) : (init main : Context σ μ).table.Census := by
  refine ⟨?_, ?_, ?_, ?_⟩ <;> simp [init, table, Table.num]

def liveCount (c : Context σ μ) : Nat :=
  ((Finset.range c.heapSize).filter fun o => (c.heap o).life = .running).card

def NoSpawnThrows (code : Code σ μ) (c : Context σ μ) (_ : Label) : Prop :=
  ∀ o s rest e, c.stack = ⟨.ctor o, .code s⟩ :: rest → code.op s ≠ .throw e

theorem effect_noneFailed {code : Code σ μ} {c c' : Context σ μ} {l : Label} {out : List (Event μ)}
    (he : Effect code c l out c') (ht : c.table.Ok) (hg : c.NoSpawnThrows code l)
    (h : ∀ o < c.heapSize, (c.heap o).life ≠ .failed) :
    ∀ o < c'.heapSize, (c'.heap o).life ≠ .failed := by
  intro o ho hl
  cases effect_tableStep he with
  | moves hm =>
    obtain ⟨ho, hl⟩ := hm.failed_back ht ho hl
    exact h o ho hl
  | abandon hs hop hm => exact hg _ _ _ _ hs hop
  | destroy hs hp hd hm =>
    obtain ⟨ho, hl⟩ := hm.failed_back (Table.destroy_ok ht (toDestroy_top hd) (by simp [table, hs]))
      ho hl
    exact h o ho (Table.life_back (t := c.table) rfl (by simp) hl).1

/-! ## Nothing waits to be destroyed when `run` looks at the table for the first time -/

/-- `main` runs, or `run` is at its loop head. -/
def AtHead (c : Context σ μ) : Prop :=
  (c.stack = [] ∧ c.phase = .loop) ∨ ∃ t, c.stack = [⟨.main, t⟩]

/-- At the loop head a process is live unless nothing waits to be destroyed. -/
def HeadOk (c : Context σ μ) : Prop :=
  c.AtHead → c.toDestroy = [] ∨ ∃ o, (c.heap o).life = .running

/-- What code outside every process cannot do: kill. -/
def Spares (c c' : Context σ μ) : Prop :=
  c'.table.toDestroy = c.table.toDestroy ∧
    ∀ o, (c.heap o).life = .running → (c'.heap o).life = .running

theorem Spares.of_table {c c' : Context σ μ} (h : c'.table = c.table) : Spares c c' :=
  ⟨by rw [h], fun o ho => (congrFun (congrArg Table.life h) o).trans ho⟩

theorem spares_spawnWith {c : Context σ μ} (ht : c.table.Ok) (self : Option ObjId) (how : SpawnKind)
    (ctor : σ) : Spares c (c.spawnWith self how ctor) := by
  have htable := table_spawnWith c self how ctor
  obtain ⟨hsize, -, hlife⟩ := c.table.nextPid_eq
  refine ⟨?_, fun o ho => ?_⟩
  · rw [htable]
    unfold Table.nextPid
    split <;> rfl
  · have hne : o ≠ c.table.size := by
      rintro rfl
      exact absurd (ho.symm.trans (ht.fresh (Nat.le_refl _))) (by simp)
    have heq := congrFun (congrArg Table.life htable) o
    simp only [Table.construct, hsize, hlife, Function.update_of_ne hne] at heq
    exact heq.trans ho

theorem effect_outside {code : Code σ μ} {c c' : Context σ μ} {l : Label} {out : List (Event μ)}
    (he : Effect code c l out c') (ht : c.table.Ok) {f : Frame σ μ} {rest : List (Frame σ μ)}
    (hf : c.stack = f :: rest) (hself : f.role.self = none) : Spares c c' := by
  have hbody {r : Role} {t : Coro σ μ} {rest' : List (Frame σ μ)} {o : ObjId}
      (hs : c.stack = ⟨r, t⟩ :: rest') (hr : r.self = some o) : Spares c c' := by
    cases hf.symm.trans hs
    cases hself.symm.trans hr
  have hidle (hs : c.stack = []) : Spares c c' := by
    cases hf.symm.trans hs
  cases he with
  | goOn hs s => exact .of_table (table_goOn hs rfl s)
  | fault f => exact .of_table rfl
  | send hs hop hm s' => exact .of_table (table_goOn hs (by simp) s')
  | suspend hw =>
    obtain ⟨t, hs⟩ := hw.stack
    exact hbody hs rfl
  | throttleSend hs ht hc => exact hbody hs rfl
  | newSlot hs ho s' => exact hbody hs ho
  | dropSlot hs hop ho s' => exact .of_table (table_goOn hs (by simp) s')
  | getVals hs hop ho s' => exact .of_table (table_goOn hs (by simp) s')
  | spawn hs hop hm => exact spares_spawnWith ht _ _ _
  | addKillOnDie hs p s' => exact .of_table (table_goOn hs (by simp) s')
  | link hs p hl s' => exact .of_table (table_goOn hs (table_link hl) s')
  | kill hs p s' hop hne =>
    cases hf.symm.trans hs
    exact absurd hself hne
  | newPromise hs owner s' => exact .of_table (table_goOn (d := c.newPromise owner) hs rfl s')
  | onPromise hs n ha s' => exact .of_table (table_goOn hs (by simp) s')
  | asyncOp hs h' s' => exact .of_table (table_goOn (d := c.asyncOp _ h') hs rfl s')
  | @asyncDone role s rest h' s' hs hop =>
    exact .of_table (table_goOn (d := c.asyncDone _ h') hs rfl s')
  | started hs body s' => exact hbody hs rfl
  | ctorThrew hs hop s' => exact hbody hs rfl
  | leave hs hr => exact ⟨rfl, fun _ ho => ho⟩
  | bodyReturned hs => exact hbody hs rfl
  | bodyThrew hs e => exact hbody hs rfl
  | dtorReturned hs hop => exact hbody hs rfl
  | escaped hs hr e => exact ⟨rfl, fun _ ho => ho⟩
  | finish hs hp hn => exact hidle hs
  | take hs hp hq => exact hidle hs
  | toRunOne hs hp hq => exact hidle hs
  | ioReturn ph hs hp => exact hidle hs
  | drained hs hp hr => exact hidle hs
  | run hs hp hst hr => exact hidle hs
  | destroy hs hp hd => exact hidle hs
  | toLoop hs hp hd => exact hidle hs
  | expire i hl hw => exact .of_table rfl
  | async i h' hl hh => exact .of_table rfl

theorem toDestroy_nil_iff {c : Context σ μ} : c.table.toDestroy = [] ↔ c.toDestroy = [] := by
  simp [table]

theorem HeadOk.of_spares {c c' : Context σ μ} (hs : Spares c c') (ha : c.AtHead) (h : c.HeadOk) :
    c'.HeadOk := by
  intro _
  rcases h ha with hd | ⟨o, ho⟩
  · exact .inl (toDestroy_nil_iff.mp (hs.1.trans (toDestroy_nil_iff.mpr hd)))
  · exact .inr ⟨o, hs.2 o ho⟩

theorem effect_headOk {code : Code σ μ} {c c' : Context σ μ} {l : Label} {out : List (Event μ)}
    (he : Effect code c l out c') (ht : c.table.Ok) (hshape : c.Shaped)
    (hfail : ∀ o < c'.heapSize, (c'.heap o).life ≠ .failed) (h : c.HeadOk) : c'.HeadOk := by
  intro ha'
  by_cases ha : ∃ t, c.stack = [⟨.main, t⟩]
  · obtain ⟨t, hs⟩ := ha
    exact h.of_spares (effect_outside he ht hs rfl) (.inr ⟨t, hs⟩) ha'
  cases effect_phase he with
  | threw hs hr hp =>
    unfold Shaped at hshape
    rw [hs, List.map_cons] at hshape
    have hnil := hshape.alone fun o => by rcases hr with rfl | ⟨w, rfl⟩ <;> simp
    rcases ha' with ⟨-, hl⟩ | ⟨t, ht'⟩
    · simp [hp] at hl
    · simp [ht'] at hnil
  | wait hs hp hs' htable =>
    refine h.of_spares (.of_table htable) (.inl ⟨hs, ?_⟩) ha'
    rcases ha' with ⟨-, hl⟩ | ⟨t, ht'⟩
    · rwa [← hp]
    · simp [hs'] at ht'
  | back hs hp hd he' => exact .inl (he' ▸ hd)
  | finish hs hp hn he' =>
    subst he'
    rcases ha' with ⟨-, hl⟩ | ⟨t, ht'⟩
    · simp at hl
    · simp [hs] at ht'
  | inside hs hp hf =>
    rcases ha' with ⟨-, hl⟩ | ⟨t, ht'⟩
    · exact absurd hl hp
    · cases effect_stack he with
      | same hst => simp [hst, hs] at ht'
      | goOn hs' hst => simp [hs] at hs'
      | pop hs' hst => simp [hs] at hs'
      | call hs' hst => simp [hs] at hs'
      | ret hs' hst => simp [hs] at hs'
      | resumed hs' hw hd hq hst => simp [hst] at ht'
      | enter hs' hr hst =>
        simp only [hst, List.cons.injEq, Frame.mk.injEq, and_true] at ht'
        rcases hr with ⟨o, rfl⟩ | ⟨w, rfl, -⟩ <;> simp at ht'
  | code hs hp =>
    unfold Shaped at hshape
    cases effect_stack he with
    | same hst =>
      rcases ha' with ⟨hs', -⟩ | ⟨t, ht'⟩
      · exact absurd (hst.symm.trans hs') hs
      · exact absurd ⟨t, hst.symm.trans ht'⟩ ha
    | @goOn role t rest s hs' hst =>
      rcases ha' with ⟨hs', -⟩ | ⟨t', ht'⟩
      · simp [hst] at hs'
      · simp only [hst, List.cons.injEq, Frame.mk.injEq] at ht'
        obtain ⟨⟨rfl, -⟩, rfl⟩ := ht'
        exact absurd ⟨t, hs'⟩ ha
    | @pop f rest hs' hst hr =>
      rw [hs', List.map_cons] at hshape
      have hnil : rest = [] := List.map_eq_nil_iff.mp (hshape.alone hr)
      rcases ha' with ⟨-, hl⟩ | ⟨t, ht'⟩
      · rw [hnil] at hshape
        rw [hp] at hl
        cases f with
        | mk role t =>
          cases hshape with
          | main _ => exact absurd ⟨t, hnil ▸ hs'⟩ ha
          | root hne _ _ => exact absurd hl hne
      · simp [hst, hnil] at ht'
    | call hs' hst =>
      rcases ha' with ⟨hs', -⟩ | ⟨t, ht'⟩
      · simp [hst] at hs'
      · simp [hst] at ht'
    | @ret o t t' role rest s hs' hst hl =>
      rcases hl with ⟨hl, -⟩ | hl
      · exact .inr ⟨o, hl⟩
      · have hcon : (c.heap o).life = .constructing := ht.ctor (by simp [roles_top hs'])
        have ho := ht.allocated (o := o) (by rw [show c.table.life o = _ from hcon]; simp)
        exact absurd hl (hfail o (Nat.lt_of_lt_of_le ho (step_keeps he ht).size))
    | resumed hs' hw hd hq hst => exact absurd hs' hs
    | enter hs' hr hst => exact absurd hs' hs

theorem headOk_init (main : σ) : (init main : Context σ μ).HeadOk := fun _ => .inl rfl

/-! ## What has been destroyed -/

/-- The process that the next step destroys. -/
def destroyedBy (c : Context σ μ) (_ : Label) : List ObjId :=
  if c.stack.isEmpty ∧ c.phase = .destroying then (c.toDestroy.head?.map Prod.fst).toList else []

theorem mem_destroyedBy {c : Context σ μ} {l : Label} {o : ObjId} :
    o ∈ c.destroyedBy l ↔ c.Destroys o := by
  unfold destroyedBy Destroys
  split
  next h => simp [List.isEmpty_iff.mp h.1, h.2]
  next h =>
    simp only [List.not_mem_nil, false_iff]
    rintro ⟨hs, hp, -⟩
    exact h ⟨by simp [hs], hp⟩

theorem destroyedBy_nodup (c : Context σ μ) (l : Label) : (c.destroyedBy l).Nodup := by
  unfold destroyedBy
  split
  · cases c.toDestroy.head?.map Prod.fst <;> simp
  · simp

/-- `log` lists the destroyed processes, each once. -/
structure Logged (c : Context σ μ) (log : List ObjId) : Prop where
  nodup : log.Nodup
  mem : ∀ o, o ∈ log ↔ (c.heap o).life = .destroyed

theorem step_logged {code : Code σ μ} {c c' : Context σ μ} {l : Label} {out : List (Event μ)}
    {log : List ObjId} (hs : c.step code l = some (c', out)) (ht : c.table.Ok) (h : c.Logged log) :
    c'.Logged (log ++ c.destroyedBy l) := by
  have hk := step_keeps (step_effect hs).2 ht
  have hfresh : ∀ {o}, c.Destroys o → (c.heap o).life ≠ .destroyed := by
    intro o hd hl
    obtain ⟨reason, rest, hlist, -⟩ := step_of_destroys hd hs
    have hdoom := ht.doomed (o := o) (by simp [toDestroy_top hlist])
    exact absurd (hl.symm.trans hdoom) (by simp)
  refine ⟨List.nodup_append.mpr ⟨h.nodup, c.destroyedBy_nodup l, ?_⟩, fun o => ?_⟩
  · rintro a ha b hb rfl
    exact hfresh (mem_destroyedBy.mp hb) ((h.mem a).mp ha)
  · rw [List.mem_append, h.mem, mem_destroyedBy]
    constructor
    · rintro (hl | hd)
      · exact hk.gone hl
      · exact destroyed_of_destroys ht hd hs
    · exact hk.destroyed

theorem logged_init (main : σ) : (init main : Context σ μ).Logged [] :=
  ⟨by simp, by simp [init]⟩

/-! ## The sizes that `run` compares -/

theorem liveCount_eq_zero {c : Context σ μ} (ht : c.table.Ok) :
    c.liveCount = 0 ↔ ∀ o, (c.heap o).life ≠ .running := by
  rw [liveCount, Finset.card_eq_zero, Finset.filter_eq_empty_iff]
  refine ⟨fun h o hl => ?_, fun h o _ => h o⟩
  have ho : o < c.heapSize := ht.allocated (o := o) (by simp [table, hl])
  exact h (Finset.mem_range.mpr ho) hl

theorem sizes_eq {c : Context σ μ} (ht : c.table.Ok) (h : c.table.Census)
    (hfail : ∀ o < c.heapSize, (c.heap o).life ≠ .failed) (hs : c.stack = []) :
    c.processes.length = c.tombstones.length + c.liveCount := by
  have hcon : c.table.num .constructing = 0 := by
    rw [Table.num, Finset.card_eq_zero, Finset.filter_eq_empty_iff]
    intro o _ hl
    simpa [table, hs] using (ht.building hl).2.2
  have hnone : c.table.num .failed = 0 := by
    rw [Table.num, Finset.card_eq_zero, Finset.filter_eq_empty_iff]
    exact fun o ho => hfail o (Finset.mem_range.mp ho)
  have hcount := h.count
  rw [hcon, hnone] at hcount
  exact hcount

theorem sizes_le {c : Context σ μ} (h : c.table.Census) :
    c.tombstones.length + c.liveCount ≤ c.processes.length := by
  have hcount : c.processes.length = c.tombstones.length +
      (c.liveCount + c.table.num .constructing + c.table.num .failed) := h.count
  omega

/-- While a process lives, `run` does not return. -/
theorem sizes_ne {c : Context σ μ} (ht : c.table.Ok) (h : c.table.Census) {o : ObjId}
    (hl : (c.heap o).life = .running) : c.processes.length ≠ c.tombstones.length := by
  intro heq
  have hle := sizes_le h
  exact (liveCount_eq_zero ht).mp (by omega) o hl

theorem step_takes {code : Code σ μ} {c c' : Context σ μ} {l : Label} {out : List (Event μ)}
    (ht : c.table.Ok) (h : c.table.Census) {i : ToProcessItem μ} {q : List (ToProcessItem μ)}
    (hs : c.stack = []) (hp : c.phase = .loop) (hq : c.queue = i :: q) {o : ObjId}
    (hl : (c.heap o).life = .running) (hstep : c.step code l = some (c', out)) :
    (c.popFront q).processQueueItem i = (c', out) := by
  have hf := (step_effect hstep).1
  have hlook : c.looking = false := by simp [looking, hp]
  have hlive := sizes_ne ht h hl
  cases l with
  | tick =>
    simpa only [step, hf, Option.isSome_none, Bool.false_eq_true, if_false, hs, schedule, hp, hlive,
      hq, Option.some.injEq] using hstep
  | atOnce => simp [step, hf, stepAtOnce, hs] at hstep
  | _ => simp [step, hf, hlook] at hstep

theorem index_cases {c : Context σ μ} (ht : c.table.Ok) (h : c.table.Census)
    (hfail : ∀ o < c.heapSize, (c.heap o).life ≠ .failed) (hs : c.stack = []) {i : Nat}
    (hi : i < c.processes.length) :
    (∃ o, c.processes[i]? = some (some o) ∧ (c.heap o).dead = false ∧ (c.heap o).pid.idx = i ∧
        (c.tombstones.map Pid.idx).count i = 0) ∨
      (c.processes[i]? = some none ∧ (c.tombstones.map Pid.idx).count i = 1) := by
  cases he : c.processes[i]? with
  | none => exact absurd (List.getElem?_eq_none_iff.mp he) (Nat.not_le.mpr hi)
  | some x =>
    cases x with
    | some o =>
      obtain ⟨hl, hidx⟩ := ht.entry he
      have hl : (c.heap o).life = .running := hl
      refine .inl ⟨o, rfl, by simp [RunningProcess.dead, hl], hidx, ?_⟩
      refine List.count_eq_zero.mpr fun hm => ?_
      obtain ⟨p, hp, rfl⟩ := List.mem_map.mp hm
      cases (ht.tomb hp).symm.trans he
    | none =>
      refine .inr ⟨rfl, List.count_eq_one_of_mem ht.tombs ?_⟩
      rcases h.covered he with hm | ⟨o, ho, hl | hl, -⟩
      · exact hm
      · have hrole := (ht.building hl).2.2
        simp [table, hs] at hrole
      · exact absurd hl (hfail o ho)

/-- What `run` leaves behind. -/
def Done (c : Context σ μ) : Prop :=
  c.phase = .finished → c.toDestroy = [] ∧ ∀ o, (c.heap o).life ≠ .running

theorem step_done {code : Code σ μ} {c c' : Context σ μ} {l : Label} {out : List (Event μ)}
    (h : c.step code l = some (c', out)) (ht : c.table.Ok) (hcensus : c.table.Census)
    (hhead : c.HeadOk) (hend : c.Ended) : c'.Done := by
  intro hp'
  obtain ⟨hs, hp, hn, rfl⟩ := finishes h hend hp'
  have hle := sizes_le hcensus
  have hnone : ∀ o, (c.heap o).life ≠ .running := (liveCount_eq_zero ht).mp (by omega)
  refine ⟨?_, hnone⟩
  rcases hhead (.inl ⟨hs, hp⟩) with hd | ⟨o, ho⟩
  · exact hd
  · exact absurd ho (hnone o)

theorem done_init (main : σ) : (init main : Context σ μ).Done := by
  intro hp
  simp [init] at hp

/-- What holds in every run in which no spawn fails; `log` lists the processes destroyed so far. -/
structure Counted (c : Context σ μ) (log : List ObjId) : Prop where
  sound : c.Sound
  shaped : c.Shaped
  census : c.table.Census
  noneFailed : ∀ o < c.heapSize, (c.heap o).life ≠ .failed
  head : c.HeadOk
  logged : c.Logged log
  ended : c.Ended
  done : c.Done

theorem step_counted {code : Code σ μ} {c c' : Context σ μ} {l : Label} {out : List (Event μ)}
    {log : List ObjId} (hs : c.step code l = some (c', out)) (hg : c.NoSpawnThrows code l)
    (h : c.Counted log) : c'.Counted (log ++ c.destroyedBy l) := by
  have he := (step_effect hs).2
  have hfail := effect_noneFailed he h.sound.table hg h.noneFailed
  exact ⟨effect_sound he h.sound, effect_shaped he h.shaped,
    effect_census he h.sound.table h.census, hfail,
    effect_headOk he h.sound.table h.shaped hfail h.head, step_logged hs h.sound.table h.logged,
    step_ended hs h.ended, step_done hs h.sound.table h.census h.head h.ended⟩

theorem counted_init (main : σ) : (init main : Context σ μ).Counted [] :=
  ⟨sound_init main, shaped_init main, census_init main, by simp [init], headOk_init main,
    logged_init main, ended_init main, done_init main⟩

theorem leaves_iff {code : Code σ μ} {c c' : Context σ μ} {out : List (Event μ)} {log : List ObjId}
    {l : Label} (h : c.Counted log) (hs : c.stack = []) (hstep : c.step code l = some (c', out)) :
    c'.phase = .finished ↔ c.phase = .loop ∧ c.liveCount = 0 := by
  have hsizes := sizes_eq h.sound.table h.census h.noneFailed hs
  constructor
  · intro hp'
    obtain ⟨-, hp, hn, -⟩ := finishes hstep h.ended hp'
    exact ⟨hp, by omega⟩
  · rintro ⟨hp, hn⟩
    have hlook : c.looking = false := by simp [looking, hp]
    unfold step at hstep
    split at hstep
    · cases hstep
    · cases l with
      | tick =>
        have hlen : c.processes.length = c.tombstones.length := by omega
        simp only [hs, schedule, hp, hlen, if_true, Option.some.injEq, Prod.mk.injEq] at hstep
        rw [← hstep.1]
      | atOnce => simp [stepAtOnce, hs] at hstep
      | expire i => simp [hlook] at hstep
      | complete i => simp [hlook] at hstep
      | abort i => simp [hlook] at hstep

/-- Once `run` has returned, what was destroyed is what was ever made. -/
theorem Counted.all {c : Context σ μ} {log : List ObjId} (h : c.Counted log)
    (hp : c.phase = .finished) : c.toDestroy = [] ∧ log.Perm (List.range c.heapSize) := by
  obtain ⟨hd, hnone⟩ := h.done hp
  have hs := h.ended hp
  refine ⟨hd, (List.perm_ext_iff_of_nodup h.logged.nodup List.nodup_range).mpr fun o => ?_⟩
  rw [h.logged.mem, List.mem_range]
  constructor
  · intro hl
    exact h.sound.table.allocated (o := o) (by simp [table, hl])
  · intro ho
    cases hl : (c.heap o).life with
    | constructing =>
      have hrole := (h.sound.table.building (o := o) hl).2.2
      simp [table, hs] at hrole
    | running => exact absurd hl (hnone o)
    | killed =>
      have hin := h.census.doomed (o := o) hl
      simp [table, hd] at hin
    | destroyed => rfl
    | failed => exact absurd hl (h.noneFailed o ho)

end Context

/-- **Every index is live or tombstoned, and `run` returns exactly when nothing is live.** The log of a
run lists the processes it destroyed. -/
theorem table_partition {σ μ : Type} {code : Code σ μ} {main : σ} {log : List ObjId}
    {c : Context σ μ} (h : (code.system.observe Context.destroyedBy).Run
      (Context.NoSpawnThrows code) (Context.init main) log c) (hs : c.stack = []) :
    (∀ i < c.processes.length,
      (∃ o, c.processes[i]? = some (some o) ∧ (c.heap o).dead = false ∧ (c.heap o).pid.idx = i ∧
        (c.tombstones.map Pid.idx).count i = 0) ∨
      (c.processes[i]? = some none ∧ (c.tombstones.map Pid.idx).count i = 1)) ∧
    c.processes.length = c.tombstones.length + c.liveCount ∧
    (∀ l c' out, c.step code l = some (c', out) →
      (c'.phase = .finished ↔ c.phase = .loop ∧ c.liveCount = 0)) ∧
    (c.phase = .loop → c.fault = none → (c.step code .tick).isSome) ∧
    (c.phase = .finished → c.toDestroy = [] ∧ log.Perm (List.range c.heapSize)) := by
  have hc : c.Counted log := h.invariant (fun log c => c.Counted log) (Context.counted_init main)
    fun log c l c' out hi hg hstep => by
      obtain ⟨rfl, out', hstep⟩ := System.observe_step hstep
      exact Context.step_counted hstep hg hi
  refine ⟨fun i hi => ?_, ?_, fun l c' out hstep => ?_, fun hp hf => ?_, fun hp => hc.all hp⟩
  · exact Context.index_cases hc.sound.table hc.census hc.noneFailed hs hi
  · exact Context.sizes_eq hc.sound.table hc.census hc.noneFailed hs
  · exact Context.leaves_iff hc hs hstep
  · simp only [Context.step, hf, hs, Context.schedule, hp]
    split
    · simp_all
    · split
      · simp
      · split <;> simp

/-- A process that is spawned with another process inside its constructor and spawns a third. -/
def nestedSpawns : Code Nat Unit where
  op n :=
    match n with
    | 0 => .spawn .plain 10 fun _ => 1
    | 10 => .spawn .plain 20 fun _ => 11
    | 11 => .started 12
    | 12 => .spawn .link 20 fun _ => 13
    | 20 => .started 21
    | 21 => .awaitSuspend .yield 22
    | _ => .coReturn
  dtor _ := 99

def noCtorThrows {μ : Type} (code : Code Nat μ) (c : Context Nat μ) (_ : Label) : Bool :=
  match c.stack with
  | ⟨.ctor _, .code s⟩ :: _ =>
      match code.op s with
      | .throw _ => false
      | _ => true
  | _ => true

/-- `run` returns, and the three processes have been destroyed. -/
theorem nested_spawns_partition :
    ∃ log c, (nestedSpawns.system.observe Context.destroyedBy).Run
      (Context.NoSpawnThrows nestedSpawns) (Context.init 0) log c ∧ c.phase = .finished ∧
      c.processes.length = c.tombstones.length + c.liveCount ∧ c.toDestroy = [] ∧
      log.Perm (List.range 3) := by
  obtain ⟨log, c, hr, hs, hp, hn⟩ := System.exec_reaches
    (M := nestedSpawns.system.observe Context.destroyedBy)
    (g := noCtorThrows nestedSpawns) (G := Context.NoSpawnThrows nestedSpawns)
    (fun c l hg o s rest e hst hop => by simp [noCtorThrows, hst, hop] at hg) (w := List.replicate 23 .tick)
    (s := Context.init 0)
    (P := fun _ c => c.stack.length = 0 ∧ c.phase = .finished ∧ c.heapSize = 3) (by decide)
  obtain ⟨-, hsizes, -, -, hall⟩ := table_partition hr (List.length_eq_zero_iff.mp hs)
  obtain ⟨hd, hperm⟩ := hall hp
  exact ⟨log, c, hr, hp, hsizes, hd, hn ▸ hperm⟩

/-! ## A spawn that fails -/

namespace Context
variable {σ μ : Type}

/-- The spawn of `o` failed; processes from `n` on were made after that. -/
structure Lost (c : Context σ μ) (o : ObjId) (i n : Nat) : Prop where
  sound : c.Sound
  census : c.table.Census
  ended : c.Ended
  lt : o < c.heapSize
  failed : (c.heap o).life = .failed
  idx : (c.heap o).pid.idx = i
  later : ∀ x, n ≤ x → x < c.heapSize → (c.heap x).pid.idx ≠ i
  size : n ≤ c.heapSize
  runs : c.phase ≠ .finished

theorem Lost.sizes {c : Context σ μ} {o : ObjId} {i n : Nat} (h : c.Lost o i n) :
    c.tombstones.length + c.liveCount < c.processes.length := by
  have hcount : c.processes.length = c.tombstones.length +
      (c.liveCount + c.table.num .constructing + c.table.num .failed) := h.census.count
  have hpos : 0 < c.table.num .failed :=
    Finset.card_pos.mpr ⟨o, Finset.mem_filter.mpr ⟨Finset.mem_range.mpr h.lt, h.failed⟩⟩
  omega

theorem step_lost {code : Code σ μ} {c c' : Context σ μ} {l : Label} {out : List (Event μ)}
    {o : ObjId} {i n : Nat} (hs : c.step code l = some (c', out)) (h : c.Lost o i n) :
    c'.Lost o i n := by
  have he := (step_effect hs).2
  have hk := step_keeps he h.sound.table
  have hfailed := hk.failed h.lt h.failed
  have hnew : ∀ x, c.heapSize ≤ x → x < c'.heapSize → (c'.heap x).pid.idx ≠ i := by
    intro x hx hx'
    have hidx := h.idx
    cases effect_tableStep he with
    | moves hm =>
      exact hidx ▸ hm.lost_index h.sound.table h.census h.lt h.failed hx hx'
    | abandon hs' hop hm =>
      exact absurd (Nat.lt_of_lt_of_eq hx' (congrArg Table.size hm)) (Nat.not_lt.mpr hx)
    | @destroy d reason rest hs' hp hd hm =>
      have htop := toDestroy_top hd
      have hne : o ≠ d := by
        rintro rfl
        have hdoom := h.sound.table.doomed (o := o) (by simp [htop])
        exact absurd (h.failed.symm.trans hdoom) (by simp)
      exact hidx ▸ hm.lost_index (Table.destroy_ok h.sound.table htop (by simp [table, hs']))
        (Table.destroy_census h.sound.table h.census htop) h.lt
        (by simpa [Table.destroy, table, hne] using h.failed) hx hx'
  refine ⟨effect_sound he h.sound, effect_census he h.sound.table h.census, step_ended hs h.ended,
    Nat.lt_of_lt_of_le h.lt hk.size, hfailed, (congrArg Pid.idx (hk.pid h.lt)).trans h.idx,
    fun x hn hx => ?_, Nat.le_trans h.size hk.size, fun hp => ?_⟩
  · by_cases hold : x < c.heapSize
    · rw [hk.pid hold]
      exact h.later x hn hold
    · exact hnew x (Nat.not_lt.mp hold) hx
  · obtain ⟨-, -, heq, -⟩ := finishes hs h.ended hp
    have hlt := h.sizes
    omega

theorem table_of_throw {code : Code σ μ} {c c' : Context σ μ} {l : Label} {out : List (Event μ)}
    {o : ObjId} {s : σ} {e : String} {rest : List (Frame σ μ)}
    (hs : c.stack = ⟨.ctor o, .code s⟩ :: rest) (hop : code.op s = .throw e)
    (h : c.step code l = some (c', out)) : c'.table = c.table.abandon o ∧ c'.phase = c.phase := by
  unfold step at h
  split at h
  · cases h
  · cases l with
    | tick =>
      simp only [hs, stepCode, hop, stepOp, Option.map_eq_some_iff, Prod.mk.injEq] at h
      obtain ⟨d, hd, rfl, -⟩ := h
      obtain ⟨role, t, rest', how, s', rfl, -, rfl⟩ := reply_eq hd
      exact ⟨table_ctorThrew hs s', phase_dropSlots (c.setLife o .failed) o⟩
    | atOnce => simp [stepAtOnce, hs, hop] at h
    | expire i => simp [looking, hs] at h
    | complete i => simp [looking, hs] at h
    | abort i => simp [looking, hs] at h

theorem lost_of_throw {code : Code σ μ} {c c' : Context σ μ} {l : Label} {out : List (Event μ)}
    {o : ObjId} {s : σ} {e : String} {rest : List (Frame σ μ)} (hc : c.Sound)
    (hcensus : c.table.Census) (hend : c.Ended) (hs : c.stack = ⟨.ctor o, .code s⟩ :: rest)
    (hop : code.op s = .throw e) (h : c.step code l = some (c', out)) :
    c'.Lost o (c.heap o).pid.idx c'.heapSize := by
  have he := (step_effect h).2
  obtain ⟨htable, hphase⟩ := table_of_throw hs hop h
  have hcon : (c.heap o).life = .constructing := hc.table.ctor (by simp [roles_top hs])
  have ho : o < c.heapSize := hc.table.allocated (o := o) (by simp [table, hcon])
  have hk := step_keeps he hc.table
  refine ⟨effect_sound he hc, effect_census he hc.table hcensus, step_ended h hend,
    Nat.lt_of_lt_of_le ho hk.size, ?_, congrArg Pid.idx (hk.pid ho),
    fun x hx hx' => absurd hx' (Nat.not_lt.mpr hx), Nat.le_refl _, fun hp => ?_⟩
  · have hlife := congrFun (congrArg Table.life htable) o
    exact hlife.trans (by simp [Table.abandon])
  · have hnil := hend (hphase.symm.trans hp)
    simp [hs] at hnil

end Context

theorem Code.census {σ μ : Type} {code : Code σ μ} {ok : Context σ μ → Label → Prop} {main : σ}
    {tr : List (Event μ)} {c : Context σ μ} (h : code.RunsTo ok main tr c) : c.table.Census :=
  h.invariant_of Context.Sound (fun c => c.table.Census) Code.sound (Context.census_init main)
    fun _ _ _ _ hc hi _ hs => Context.effect_census (Context.step_effect hs).2 hc.table hi

/-- **A constructor that throws costs its index for ever**: from then on the two sizes differ by more than
the live processes, no later process gets the index, and `run` never returns. -/
theorem failed_spawn_loses_index {σ μ : Type} {code : Code σ μ} {main : σ}
    {tr tr' : List (Event μ)} {c c' d : Context σ μ} {l : Label} {out : List (Event μ)} {o : ObjId}
    {s : σ} {e : String} {rest : List (Frame σ μ)} (h : code.RunsTo System.anyStep main tr c)
    (hs : c.stack = ⟨.ctor o, .code s⟩ :: rest) (hop : code.op s = .throw e)
    (hstep : c.step code l = some (c', out)) (hrun : code.system.Run System.anyStep c' tr' d) :
    d.tombstones.length + d.liveCount < d.processes.length ∧
      (∀ x, c'.heapSize ≤ x → x < d.heapSize → (d.heap x).pid.idx ≠ (c.heap o).pid.idx) ∧
      d.phase ≠ .finished := by
  have hlost : d.Lost o (c.heap o).pid.idx c'.heapSize :=
    hrun.invariant (fun _ d => d.Lost o (c.heap o).pid.idx c'.heapSize)
      (Context.lost_of_throw (Code.sound h) (Code.census h) (Code.ended h) hs hop hstep)
      fun _ _ _ _ _ hi _ hs => Context.step_lost hs hi
  exact ⟨hlost.sizes, hlost.later, hlost.runs⟩

/-- Process 0 returns at once; process 1 then spawns a process whose constructor links to process 0, finds it
dead and throws. -/
def linkToDead : Code Nat Unit where
  op n :=
    match n with
    | 0 => .spawn .plain 10 fun _ => 1
    | 1 => .spawn .plain 20 fun _ => 2
    | 10 => .started 11
    | 20 => .started 21
    | 21 => .awaitSuspend .yield 22
    | 22 => .spawn .link 30 fun _ => 23
    | 30 => .link ⟨0, 0⟩ fun r => match r with
      | .ok _ => 31
      | .error _ => 32
    | 31 => .started 33
    | 32 => .throw "Proc is already dead"
    | _ => .coReturn
  dtor _ := 99

/-- The constructor of process 2 is about to throw; later every process has ended and `run` is at its loop
head again. -/
theorem linkToDead_runs :
    ∃ tr c c' out tr' d, linkToDead.RunsTo System.anyStep 0 tr c ∧
      (∃ rest, c.stack = ⟨.ctor 2, .code 32⟩ :: rest) ∧
      c.step linkToDead .tick = some (c', out) ∧
      linkToDead.system.Run System.anyStep c' tr' d ∧ d.phase = .loop ∧ d.stack = [] ∧
      d.liveCount = 0 ∧ d.tombstones.length < d.processes.length := by
  obtain ⟨tr, c, hr, htop, hrest⟩ := System.exec_reaches (M := linkToDead.system)
    (g := fun _ _ => true) (G := System.anyStep) (fun _ _ _ => trivial)
    (w := List.replicate 16 .tick) (s := Context.init 0)
    (P := fun _ c => c.top? = some (.ctor 2, 32) ∧
      (System.exec linkToDead.system (fun _ _ => true) c (.tick :: List.replicate 4 .tick)).any
        (fun r => decide (r.1.phase = .loop ∧ r.1.stack.length = 0 ∧ r.1.liveCount = 0 ∧
          r.1.tombstones.length < r.1.processes.length)) = true) (by decide)
  obtain ⟨c', out, tr', d, hstep, hrun, hp, hs, hl⟩ := System.exec_cons (G := System.anyStep)
    (P := fun d : Context Nat Unit => d.phase = .loop ∧ d.stack.length = 0 ∧ d.liveCount = 0 ∧
      d.tombstones.length < d.processes.length) (fun _ _ _ => trivial) hrest
  exact ⟨tr, c, c', out, tr', d, hr, Context.top?_eq_some.mp htop, hstep, hrun, hp,
    List.length_eq_zero_iff.mp hs, hl⟩

/-- Every process has ended, and `run` does not return. -/
theorem linkToDead_loses_index :
    ∃ tr c c' out tr' d, linkToDead.RunsTo System.anyStep 0 tr c ∧
      c.step linkToDead .tick = some (c', out) ∧
      linkToDead.system.Run System.anyStep c' tr' d ∧ d.liveCount = 0 ∧
      d.tombstones.length + d.liveCount < d.processes.length ∧ d.phase ≠ .finished := by
  obtain ⟨tr, c, c', out, tr', d, hr, ⟨rest, hs⟩, hstep, hrun, -, -, hl, -⟩ := linkToDead_runs
  obtain ⟨hlt, -, hp⟩ := failed_spawn_loses_index hr hs rfl hstep hrun
  exact ⟨tr, c, c', out, tr', d, hr, hstep, hrun, hl, hlt, hp⟩

/-- After the spawn has failed no process is live, and the two sizes still differ. -/
theorem failed_spawn_blocks_exit :
    ∃ tr c c' out tr' d o s e rest, linkToDead.RunsTo System.anyStep 0 tr c ∧
      c.stack = ⟨.ctor o, .code s⟩ :: rest ∧ linkToDead.op s = .throw e ∧
      c.step linkToDead .tick = some (c', out) ∧
      linkToDead.system.Run System.anyStep c' tr' d ∧ d.phase = .loop ∧ d.stack = [] ∧
      d.liveCount = 0 ∧ d.processes.length ≠ d.tombstones.length + d.liveCount := by
  obtain ⟨tr, c, c', out, tr', d, hr, ⟨rest, hs⟩, hstep, hrun, hp, hd, hl, hlt⟩ := linkToDead_runs
  exact ⟨tr, c, c', out, tr', d, 2, 32, _, rest, hr, hs, rfl, hstep, hrun, hp, hd, hl, by omega⟩

end Eslang
