import Eslang.Context.State

/-! # The process table

The part of a context that decides which process a pid names: the vector `processes_`, the free
list `tombstones_`, the queue `toDestroy_`, and for every process its pid and where it is in its
life. `roles` are the roles of the running code, innermost first. The moves of the table are functions
on it; `Ok` is its invariant, and each move keeps it. `Moves` is any sequence of moves other than
`destroy`, which only the `toDestroy_` loop makes, and `abandon`, which a constructor that throws
makes. -/
namespace Eslang
set_option autoImplicit false

structure Table where
  processes : List (Option ObjId)
  tombstones : List Pid
  toDestroy : List ObjId
  size : Nat
  pid : ObjId → Pid
  life : ObjId → Life
  roles : List Role

namespace Table

def find (t : Table) (p : Pid) : Option ObjId :=
  match t.processes[p.idx]? with
  | some (some o) => if (t.pid o).version = p.version then some o else none
  | some none => none
  | none => none

def kill (t : Table) (p : Pid) : Table :=
  match t.find p with
  | none => t
  | some o =>
      { t with
        processes := t.processes.set p.idx none
        tombstones := p :: t.tombstones
        toDestroy := t.toDestroy ++ [o]
        life := Function.update t.life o .killed }

def nextPid (t : Table) : Pid × Table :=
  match t.tombstones with
  | p :: ps => (⟨p.idx, (p.version + 1) % 2 ^ 64⟩, { t with tombstones := ps })
  | [] => (⟨t.processes.length, 0⟩, { t with processes := t.processes ++ [none] })

/-- A new process with pid `p` enters its constructor. -/
def construct (t : Table) (p : Pid) : Table :=
  { t with
    size := t.size + 1
    pid := Function.update t.pid t.size p
    life := Function.update t.life t.size .constructing
    roles := .ctor t.size :: t.roles }

def occupy (t : Table) (o : ObjId) : Table :=
  { t with
    processes := t.processes.set (t.pid o).idx (some o)
    life := Function.update t.life o .running
    roles := t.roles.tail }

def abandon (t : Table) (o : ObjId) : Table :=
  { t with
    life := Function.update t.life o .failed
    roles := t.roles.tail }

/-- `o` is taken from the front of `toDestroy_`. -/
def destroy (t : Table) (o : ObjId) : Table :=
  { t with
    toDestroy := t.toDestroy.tail
    life := Function.update t.life o .destroyed }

/-! ## The invariant -/

structure Ok (t : Table) : Prop where
  entry : ∀ {i o}, t.processes[i]? = some (some o) → t.life o = .running ∧ (t.pid o).idx = i
  live : ∀ {o}, t.life o = .running → t.processes[(t.pid o).idx]? = some (some o)
  tomb : ∀ {p}, p ∈ t.tombstones → t.processes[p.idx]? = some none
  tombs : (t.tombstones.map Pid.idx).Nodup
  building : ∀ {o}, t.life o = .constructing →
    t.processes[(t.pid o).idx]? = some none ∧ (t.pid o).idx ∉ t.tombstones.map Pid.idx ∧
      .ctor o ∈ t.roles
  alone : ∀ {o o'}, t.life o = .constructing → t.life o' = .constructing →
    (t.pid o).idx = (t.pid o').idx → o = o'
  ctor : ∀ {o}, .ctor o ∈ t.roles → t.life o = .constructing
  ctors : ∀ o, t.roles.count (.ctor o) ≤ 1
  body : ∀ {o}, .body o ∈ t.roles → t.life o ≠ .destroyed
  doomed : ∀ {o}, o ∈ t.toDestroy → t.life o = .killed
  dooms : t.toDestroy.Nodup
  fresh : ∀ {o}, t.size ≤ o → t.life o = .failed
  inRange : ∀ {o}, o < t.size → (t.pid o).idx < t.processes.length

variable {t : Table}

theorem find_eq_some (h : t.Ok) {p : Pid} {o : ObjId} :
    t.find p = some o ↔ t.life o = .running ∧ t.pid o = p := by
  unfold find
  constructor
  · intro hf
    split at hf
    next o' he =>
      split at hf
      next hv =>
        cases hf
        obtain ⟨hr, hi⟩ := h.entry he
        exact ⟨hr, by cases hp : t.pid o; cases p; simp_all⟩
      next => cases hf
    next => cases hf
    next => cases hf
  · rintro ⟨hr, rfl⟩
    simp [h.live hr]

theorem Ok.allocated (h : t.Ok) {o : ObjId} (ho : t.life o ≠ .failed) : o < t.size := by
  by_contra hn
  exact ho (h.fresh (Nat.le_of_not_lt hn))

/-! ## The moves keep the invariant -/

theorem kill_of_none {p : Pid} (hf : t.find p = none) : t.kill p = t := by simp [kill, hf]

theorem kill_of_some {p : Pid} {o : ObjId} (hf : t.find p = some o) :
    t.kill p =
      { t with
        processes := t.processes.set p.idx none
        tombstones := p :: t.tombstones
        toDestroy := t.toDestroy ++ [o]
        life := Function.update t.life o .killed } := by
  simp [kill, hf]

@[simp] theorem kill_pid (p : Pid) : (t.kill p).pid = t.pid := by
  unfold kill
  split <;> rfl

@[simp] theorem kill_roles (p : Pid) : (t.kill p).roles = t.roles := by
  unfold kill
  split <;> rfl

@[simp] theorem kill_size (p : Pid) : (t.kill p).size = t.size := by
  unfold kill
  split <;> rfl

theorem kill_ok (h : t.Ok) (p : Pid) : (t.kill p).Ok := by
  cases hf : t.find p with
  | none => rwa [kill_of_none hf]
  | some o =>
    obtain ⟨hr, rfl⟩ := (find_eq_some h).mp hf
    rw [kill_of_some hf]
    have hlt : (t.pid o).idx < t.processes.length := h.inRange (h.allocated (by simp [hr]))
    have hfree : (t.pid o).idx ∉ t.tombstones.map Pid.idx := by
      intro hm
      obtain ⟨q, hq, he⟩ := List.mem_map.mp hm
      have := h.tomb hq
      rw [he, h.live hr] at this
      cases this
    have hnd : o ∉ t.toDestroy := fun hm => by simp [h.doomed hm] at hr
    refine ⟨?_, ?_, ?_, ?_, ?_, ?_, ?_, h.ctors, ?_, ?_, ?_, ?_, ?_⟩
    · intro i o' he
      simp only [List.getElem?_set] at he
      split at he
      next hi => simp at he
      next hi =>
        obtain ⟨hr', hi'⟩ := h.entry he
        have hne : o' ≠ o := by rintro rfl; exact hi hi'
        exact ⟨by simpa [hne] using hr', hi'⟩
    · intro o' ho'
      by_cases he : o' = o
      · simp [he] at ho'
      · simp only [Function.update_of_ne he] at ho'
        rw [List.getElem?_set_ne ?_, h.live ho']
        intro hi
        have := h.live ho'
        rw [← hi, h.live hr] at this
        exact he (by simpa using this.symm)
    · intro q hq
      simp only [List.getElem?_set]
      rcases List.mem_cons.mp hq with rfl | hq
      · simp [hlt]
      · split
        next hi => simp
        next => exact h.tomb hq
    · simpa using ⟨by simpa using hfree, h.tombs⟩
    · intro o' ho'
      by_cases he : o' = o
      · simp [he] at ho'
      · simp only [Function.update_of_ne he] at ho'
        obtain ⟨hn, hm, hc⟩ := h.building ho'
        have hi : (t.pid o').idx ≠ (t.pid o).idx := by
          intro hi
          rw [hi, h.live hr] at hn
          cases hn
        refine ⟨by rwa [List.getElem?_set_ne (Ne.symm hi)], ?_, hc⟩
        simpa [hi] using hm
    · intro o1 o2 h1 h2 hi
      have e1 : o1 ≠ o := by rintro rfl; simp at h1
      have e2 : o2 ≠ o := by rintro rfl; simp at h2
      exact h.alone (by simpa [e1] using h1) (by simpa [e2] using h2) hi
    · intro o' hc
      have := h.ctor hc
      have he : o' ≠ o := by rintro rfl; simp [hr] at this
      simpa [he] using this
    · intro o' hb
      by_cases he : o' = o
      · simp [he]
      · simpa [he] using h.body hb
    · intro o' hd
      by_cases he : o' = o
      · simp [he]
      · simp only [List.mem_append, List.mem_singleton, he, or_false] at hd
        simpa [he] using h.doomed hd
    · refine List.nodup_append.mpr ⟨h.dooms, by simp, ?_⟩
      rintro a ha b hb rfl
      exact hnd (List.mem_singleton.mp hb ▸ ha)
    · intro o' ho'
      have he : o' ≠ o := by
        rintro rfl
        simp [h.fresh ho'] at hr
      simpa [he] using h.fresh ho'
    · intro o' ho'
      simpa using h.inRange ho'

/-- An index that no process, no constructor and no tombstone uses. -/
structure Vacant (t : Table) (i : Nat) : Prop where
  empty : t.processes[i]? = some none
  noTomb : i ∉ t.tombstones.map Pid.idx
  noCtor : ∀ {o}, t.life o = .constructing → (t.pid o).idx ≠ i

theorem nextPid_vacant (h : t.Ok) : t.nextPid.2.Vacant t.nextPid.1.idx := by
  cases ht : t.tombstones with
  | cons p ps =>
    have htombs := h.tombs
    rw [ht, List.map_cons, List.nodup_cons] at htombs
    simp only [nextPid, ht]
    refine ⟨h.tomb (p := p) (by simp [ht]), htombs.1, fun {o} ho he => ?_⟩
    exact (h.building ho).2.1 (by simp [ht, show (t.pid o).idx = p.idx from he])
  | nil =>
    simp only [nextPid, ht]
    refine ⟨by simp, by simp, fun {o} ho he => ?_⟩
    have ho' : t.life o = .constructing := ho
    have := h.inRange (h.allocated (o := o) (by simp [ho']))
    exact absurd (show (t.pid o).idx = t.processes.length from he) (by omega)

theorem nextPid_ok (h : t.Ok) : t.nextPid.2.Ok := by
  unfold nextPid
  split
  next p ps ht =>
    have htombs := h.tombs
    rw [ht, List.map_cons, List.nodup_cons] at htombs
    refine ⟨h.entry, h.live, fun hq => h.tomb (by simp [ht, hq]), htombs.2, fun ho => ?_, h.alone,
      h.ctor, h.ctors, h.body, h.doomed, h.dooms, h.fresh, h.inRange⟩
    obtain ⟨hn, hm, hc⟩ := h.building ho
    exact ⟨hn, fun hm' => hm (by rw [ht]; exact List.mem_cons_of_mem _ hm'), hc⟩
  next ht =>
    have hkeep : ∀ {i : Nat} {x : Option ObjId}, t.processes[i]? = some x →
        (t.processes ++ [none])[i]? = some x := fun hx => by
      rw [List.getElem?_append_left (List.getElem?_eq_some_iff.mp hx).1, hx]
    refine ⟨fun {i o} he => ?_, fun ho => hkeep (h.live ho), fun hq => hkeep (h.tomb hq), h.tombs,
      fun ho => ?_, h.alone, h.ctor, h.ctors, h.body, h.doomed, h.dooms, h.fresh, fun ho => ?_⟩
    · apply h.entry
      by_cases hi : i < t.processes.length
      · rwa [List.getElem?_append_left hi] at he
      · rw [List.getElem?_append_right (by omega)] at he
        cases hk : i - t.processes.length <;> simp [hk] at he
    · obtain ⟨hn, hm, hc⟩ := h.building ho
      exact ⟨hkeep hn, hm, hc⟩
    · have := h.inRange ho
      simp only [List.length_append, List.length_singleton]
      omega

theorem construct_ok (h : t.Ok) {p : Pid} (hv : t.Vacant p.idx) : (t.construct p).Ok := by
  have hnew : ∀ {o}, t.life o ≠ .failed → o ≠ t.size := by
    rintro o ho rfl
    exact ho (h.fresh (Nat.le_refl _))
  have hctor : ∀ {o}, .ctor o ∈ t.roles → o ≠ t.size := fun hc => hnew (by simp [h.ctor hc])
  refine ⟨?_, ?_, h.tomb, h.tombs, ?_, ?_, ?_, ?_, ?_, ?_, h.dooms, ?_, ?_⟩
  · intro i o he
    obtain ⟨hr, hi⟩ := h.entry he
    have hne : o ≠ t.size := hnew (by simp [hr])
    exact ⟨by simpa [construct, hne] using hr, by simpa [construct, hne] using hi⟩
  · intro o ho
    have hne : o ≠ t.size := by rintro rfl; simp [construct] at ho
    simp only [construct, Function.update_of_ne hne] at ho ⊢
    exact h.live ho
  · intro o ho
    by_cases he : o = t.size
    · subst he
      simpa [construct] using ⟨hv.empty, by simpa using hv.noTomb⟩
    · simp only [construct, Function.update_of_ne he] at ho ⊢
      obtain ⟨hn, hm, hc⟩ := h.building ho
      exact ⟨hn, hm, List.mem_cons_of_mem _ hc⟩
  · intro o o' ho ho' hi
    by_cases he : o = t.size <;> by_cases he' : o' = t.size
    · rw [he, he']
    · simp only [construct, he, Function.update_self, Function.update_of_ne he'] at ho' hi
      exact absurd hi.symm (hv.noCtor ho')
    · simp only [construct, he', Function.update_self, Function.update_of_ne he] at ho hi
      exact absurd hi (hv.noCtor ho)
    · simp only [construct, Function.update_of_ne he, Function.update_of_ne he'] at ho ho' hi
      exact h.alone ho ho' hi
  · intro o hc
    rcases List.mem_cons.mp hc with hc | hc
    · cases hc; simp [construct]
    · simpa [construct, hctor hc] using h.ctor hc
  · intro o
    by_cases he : o = t.size
    · subst he
      have : t.roles.count (.ctor t.size) = 0 := List.count_eq_zero.mpr fun hc => hctor hc rfl
      simp [construct, this]
    · simpa [construct, List.count_cons, Ne.symm he] using h.ctors o
  · intro o hb
    rcases List.mem_cons.mp hb with hb | hb
    · cases hb
    · by_cases he : o = t.size
      · simp [construct, he]
      · simpa [construct, he] using h.body hb
  · intro o hd
    have hne : o ≠ t.size := hnew (by simp [h.doomed hd])
    simpa [construct, hne] using h.doomed hd
  · intro o ho
    have ho : t.size + 1 ≤ o := ho
    have hne : o ≠ t.size := by omega
    simpa [construct, hne] using h.fresh (o := o) (by omega)
  · intro o ho
    by_cases he : o = t.size
    · subst he
      simpa [construct] using (List.getElem?_eq_some_iff.mp hv.empty).1
    · simpa [construct, he] using h.inRange (o := o) (by simp [construct] at ho; omega)

/-- What the constructor frame on top of the stack says about its process. -/
theorem ctor_top (h : t.Ok) {o : ObjId} {rs : List Role} (hr : t.roles = .ctor o :: rs) :
    t.life o = .constructing ∧ .ctor o ∉ rs := by
  refine ⟨h.ctor (by simp [hr]), fun hm => ?_⟩
  have := h.ctors o
  rw [hr, List.count_cons_self] at this
  have := List.count_pos_iff.mpr hm
  omega

theorem occupy_ok (h : t.Ok) {o : ObjId} {rs : List Role} (hr : t.roles = .ctor o :: rs) :
    (t.occupy o).Ok := by
  obtain ⟨hl, hnot⟩ := ctor_top h hr
  obtain ⟨hn, hm, -⟩ := h.building hl
  have hlt := (List.getElem?_eq_some_iff.mp hn).1
  refine ⟨?_, ?_, ?_, h.tombs, ?_, ?_, ?_, ?_, ?_, ?_, h.dooms, ?_, ?_⟩
  · intro i o' he
    simp only [occupy, List.getElem?_set] at he ⊢
    split at he
    next hi =>
      simp only [Option.some.injEq] at he
      subst he
      exact ⟨by simp, hi⟩
    next hi =>
      obtain ⟨hr', hi'⟩ := h.entry he
      have hne : o' ≠ o := by rintro rfl; simp [hl] at hr'
      exact ⟨by simpa [hne] using hr', hi'⟩
  · intro o' ho'
    by_cases he : o' = o
    · subst he
      simp [occupy, hlt]
    · simp only [occupy, Function.update_of_ne he] at ho' ⊢
      rw [List.getElem?_set_ne, h.live ho']
      intro hi
      rw [hi, h.live ho'] at hn
      cases hn
  · intro q hq
    simp only [occupy]
    rw [List.getElem?_set_ne, h.tomb hq]
    rintro hi
    exact hm (hi ▸ List.mem_map_of_mem hq)
  · intro o' ho'
    by_cases he : o' = o
    · simp [occupy, he] at ho'
    · simp only [occupy, Function.update_of_ne he] at ho' ⊢
      obtain ⟨hn', hm', hc'⟩ := h.building ho'
      refine ⟨?_, hm', ?_⟩
      · rw [List.getElem?_set_ne, hn']
        exact fun hi => he (h.alone ho' hl hi.symm)
      · rw [hr] at hc' ⊢
        simpa [he] using hc'
  · intro o1 o2 h1 h2 hi
    have e1 : o1 ≠ o := by rintro rfl; simp [occupy] at h1
    have e2 : o2 ≠ o := by rintro rfl; simp [occupy] at h2
    exact h.alone (by simpa [occupy, e1] using h1) (by simpa [occupy, e2] using h2) hi
  · intro o' hc
    simp only [occupy, hr, List.tail_cons] at hc ⊢
    have hne : o' ≠ o := by rintro rfl; exact hnot hc
    rw [Function.update_of_ne hne]
    exact h.ctor (by simp [hr, hc])
  · intro o'
    have := h.ctors o'
    simp only [occupy, hr, List.tail_cons, List.count_cons] at this ⊢
    omega
  · intro o' hb
    by_cases he : o' = o
    · simp [occupy, he]
    · simp only [occupy, hr, List.tail_cons, Function.update_of_ne he] at hb ⊢
      exact h.body (by simp [hr, hb])
  · intro o' hd
    have hne : o' ≠ o := by rintro rfl; exact absurd (h.doomed hd) (by simp [hl])
    simpa [occupy, hne] using h.doomed hd
  · intro o' ho'
    have hne : o' ≠ o := by rintro rfl; simp [h.fresh ho'] at hl
    simpa [occupy, hne] using h.fresh ho'
  · intro o' ho'
    simpa [occupy] using h.inRange ho'

theorem abandon_ok (h : t.Ok) {o : ObjId} {rs : List Role} (hr : t.roles = .ctor o :: rs) :
    (t.abandon o).Ok := by
  obtain ⟨hl, hnot⟩ := ctor_top h hr
  have hne : ∀ {o' : ObjId} {l : Life}, t.life o' = l → l ≠ .constructing → o' ≠ o := by
    rintro o' l ho' hl' rfl
    exact hl' (ho'.symm.trans hl)
  have hback : ∀ {o' : ObjId} {l : Life}, (t.abandon o).life o' = l → l ≠ .failed →
      t.life o' = l := by
    intro o' l ho' hl'
    have he : o' ≠ o := by rintro rfl; exact hl' (by simpa [abandon] using ho'.symm)
    simpa [abandon, he] using ho'
  have hfwd : ∀ {o' : ObjId}, o' ≠ o → (t.abandon o).life o' = t.life o' := fun he => by
    simp [abandon, he]
  refine ⟨?_, ?_, h.tomb, h.tombs, ?_, ?_, ?_, ?_, ?_, ?_, h.dooms, ?_, h.inRange⟩
  · intro i o' he
    obtain ⟨hr', hi'⟩ := h.entry he
    exact ⟨by rw [hfwd (hne hr' (by simp)), hr'], hi'⟩
  · intro o' ho'
    exact h.live (hback ho' (by simp))
  · intro o' ho'
    have ho := hback ho' (by simp)
    obtain ⟨hn', hm', hc'⟩ := h.building ho
    refine ⟨hn', hm', ?_⟩
    have he : o' ≠ o := by rintro rfl; simp [abandon] at ho'
    simp only [abandon]
    rw [hr] at hc' ⊢
    simpa [he] using hc'
  · intro o1 o2 h1 h2 hi
    exact h.alone (hback h1 (by simp)) (hback h2 (by simp)) hi
  · intro o' hc
    simp only [abandon, hr, List.tail_cons] at hc ⊢
    rw [Function.update_of_ne (by rintro rfl; exact hnot hc)]
    exact h.ctor (by simp [hr, hc])
  · intro o'
    have := h.ctors o'
    simp only [abandon, hr, List.tail_cons, List.count_cons] at this ⊢
    omega
  · intro o' hb
    by_cases he : o' = o
    · simp [abandon, he]
    · simp only [abandon, hr, List.tail_cons] at hb
      rw [hfwd he]
      exact h.body (by simp [hr, hb])
  · intro o' hd
    rw [hfwd (hne (h.doomed hd) (by simp)), h.doomed hd]
  · intro o' ho'
    rw [hfwd (hne (h.fresh ho') (by simp)), h.fresh ho']

theorem destroy_ok (h : t.Ok) {o : ObjId} {ds : List ObjId} (hd : t.toDestroy = o :: ds)
    (hr : t.roles = []) : (t.destroy o).Ok := by
  have hl : t.life o = .killed := h.doomed (by simp [hd])
  have hdooms := h.dooms
  rw [hd, List.nodup_cons] at hdooms
  have hback : ∀ {o' : ObjId} {l : Life}, (t.destroy o).life o' = l → l ≠ .destroyed →
      t.life o' = l := by
    intro o' l ho' hl'
    have he : o' ≠ o := by rintro rfl; exact hl' (by simpa [destroy] using ho'.symm)
    simpa [destroy, he] using ho'
  have hfwd : ∀ {o' : ObjId} {l : Life}, t.life o' = l → l ≠ .killed →
      (t.destroy o).life o' = l := by
    intro o' l ho' hl'
    have he : o' ≠ o := by rintro rfl; exact hl' (ho'.symm.trans hl)
    simpa [destroy, he] using ho'
  refine ⟨?_, ?_, h.tomb, h.tombs, ?_, ?_, ?_, h.ctors, ?_, ?_, ?_, ?_, h.inRange⟩
  · intro i o' he
    obtain ⟨hr', hi'⟩ := h.entry he
    exact ⟨hfwd hr' (by simp), hi'⟩
  · intro o' ho'
    exact h.live (hback ho' (by simp))
  · intro o' ho'
    exact h.building (hback ho' (by simp))
  · intro o1 o2 h1 h2 hi
    exact h.alone (hback h1 (by simp)) (hback h2 (by simp)) hi
  · intro o' hc
    exact hfwd (h.ctor hc) (by simp)
  · intro o' hb
    simp [destroy, hr] at hb
  · intro o' hm
    simp only [destroy, hd, List.tail_cons] at hm
    have he : o' ≠ o := by rintro rfl; exact hdooms.1 hm
    simpa [destroy, he] using h.doomed (o := o') (by simp [hd, hm])
  · simpa [destroy, hd] using hdooms.2
  · intro o' ho'
    exact hfwd (h.fresh ho') (by simp)

/-- Frames other than constructors come and go freely; a body frame is of a process that has not
been destroyed. -/
theorem roles_ok (h : t.Ok) {rs : List Role} (hc : ∀ o, rs.count (.ctor o) = t.roles.count (.ctor o))
    (hb : ∀ o, .body o ∈ rs → .body o ∈ t.roles ∨ t.life o ≠ .destroyed) :
    { t with roles := rs }.Ok := by
  have hmem : ∀ o, .ctor o ∈ rs ↔ .ctor o ∈ t.roles := fun o => by
    rw [← List.count_pos_iff, ← List.count_pos_iff, hc]
  refine ⟨h.entry, h.live, h.tomb, h.tombs, ?_, h.alone, ?_, ?_, ?_, h.doomed, h.dooms, h.fresh,
    h.inRange⟩
  · intro o ho
    obtain ⟨hn, hm, hr⟩ := h.building ho
    exact ⟨hn, hm, (hmem o).mpr hr⟩
  · intro o ho
    exact h.ctor ((hmem o).mp ho)
  · intro o
    exact (hc o) ▸ h.ctors o
  · intro o ho
    rcases hb o ho with hb | hb
    · exact h.body hb
    · exact hb

/-! ## Sequences of moves -/

inductive Move (t : Table) : Table → Prop
  | kill (p : Pid) : Move t (t.kill p)
  | spawn : Move t (t.nextPid.2.construct t.nextPid.1)
  | occupy {o : ObjId} {rs : List Role} (hr : t.roles = .ctor o :: rs) : Move t (t.occupy o)
  | roles {rs : List Role} (hc : ∀ o, rs.count (.ctor o) = t.roles.count (.ctor o))
      (hb : ∀ o, .body o ∈ rs → .body o ∈ t.roles ∨ t.life o ≠ .destroyed) :
      Move t { t with roles := rs }

abbrev Moves : Table → Table → Prop := Relation.ReflTransGen Move

theorem Move.ok {u : Table} (hm : t.Move u) (h : t.Ok) : u.Ok := by
  cases hm with
  | kill p => exact kill_ok h p
  | spawn => exact construct_ok (nextPid_ok h) (nextPid_vacant h)
  | occupy hr => exact occupy_ok h hr
  | roles hc hb => exact roles_ok h hc hb

theorem Moves.ok {u : Table} (hm : t.Moves u) (h : t.Ok) : u.Ok := by
  induction hm with
  | refl => exact h
  | tail _ hm ih => exact hm.ok ih

theorem Moves.kills (ps : List Pid) : t.Moves (ps.foldl kill t) := by
  induction ps generalizing t with
  | nil => exact .refl
  | cons p ps ih => exact .head (.kill p) ih

/-- The constructor of `o` has returned: `o` was in the table at some time. -/
def Started (t : Table) (o : ObjId) : Prop := t.life o ≠ .constructing ∧ t.life o ≠ .failed

instance (t : Table) (o : ObjId) : Decidable (t.Started o) := inferInstanceAs (Decidable (_ ∧ _))

theorem nextPid_eq : t.nextPid.2.size = t.size ∧ t.nextPid.2.pid = t.pid ∧
    t.nextPid.2.life = t.life := by
  unfold nextPid
  split <;> exact ⟨rfl, rfl, rfl⟩

/-- What a sequence of moves leaves alone: allocated processes keep their pid, started ones stay
started, dead ones stay dead, abandoned ones stay abandoned, and none is destroyed. -/
structure Keeps (t u : Table) : Prop where
  size : t.size ≤ u.size
  pid : ∀ {o}, o < t.size → u.pid o = t.pid o
  started : ∀ {o}, t.Started o → u.Started o
  running : ∀ {o}, t.Started o → u.life o = .running → t.life o = .running
  failed : ∀ {o}, o < t.size → t.life o = .failed → u.life o = .failed
  destroyed : ∀ {o}, u.life o = .destroyed ↔ t.life o = .destroyed

theorem Keeps.refl : t.Keeps t :=
  ⟨Nat.le_refl _, fun _ => rfl, id, fun _ => id, fun _ => id, Iff.rfl⟩

theorem Keeps.trans {u v : Table} (h : t.Keeps u) (h' : u.Keeps v) : t.Keeps v where
  size := Nat.le_trans h.size h'.size
  pid ho := (h'.pid (Nat.lt_of_lt_of_le ho h.size)).trans (h.pid ho)
  started ho := h'.started (h.started ho)
  running ho hr := h.running ho (h'.running (h.started ho) hr)
  failed ho hf := h'.failed (Nat.lt_of_lt_of_le ho h.size) (h.failed ho hf)
  destroyed := h'.destroyed.trans h.destroyed

theorem keeps_update {u : Table} {o : ObjId} {l : Life} (hs : u.size = t.size) (hp : u.pid = t.pid)
    (hl : u.life = Function.update t.life o l) (hn : l ≠ .destroyed) (ho : t.life o ≠ .destroyed)
    (hst : t.Started o → l = .killed) (hf : o < t.size → t.life o ≠ .failed) : t.Keeps u where
  size := Nat.le_of_eq hs.symm
  pid _ := by rw [hp]
  started {o'} h := by
    by_cases he : o' = o
    · subst he
      simp [Started, hl, hst h]
    · simpa [Started, hl, he] using h
  running {o'} h hr := by
    by_cases he : o' = o
    · subst he
      simp [hl, hst h] at hr
    · simpa [hl, he] using hr
  failed {o'} h hr := by
    have he : o' ≠ o := by rintro rfl; exact hf h hr
    simpa [hl, he] using hr
  destroyed {o'} := by
    by_cases he : o' = o
    · subst he
      simp [hl, hn, ho]
    · simp [hl, he]

theorem Move.keeps {u : Table} (hm : t.Move u) (h : t.Ok) : t.Keeps u := by
  cases hm with
  | kill p =>
    cases hf : t.find p with
    | none => rw [kill_of_none hf]; exact .refl
    | some o =>
      have hr := ((find_eq_some h).mp hf).1
      rw [kill_of_some hf]
      exact keeps_update rfl rfl rfl (by simp) (by simp [hr]) (fun _ => rfl) (by simp [hr])
  | spawn =>
    obtain ⟨hs, hp, hl⟩ := t.nextPid_eq
    have hf := h.fresh (Nat.le_refl _)
    have hk := keeps_update (t := t) (u := { t with life := Function.update t.life t.size .constructing })
      rfl rfl rfl (by simp) (by simp [hf]) (fun ho => absurd hf ho.2) (by simp)
    refine ⟨by simp [construct, hs], fun {o} ho => ?_, ?_, ?_, ?_, ?_⟩
    · simp [construct, hs, hp, Nat.ne_of_lt ho]
    · simpa [construct, Started, hs, hl] using @hk.started
    · simpa [construct, hs, hl] using @hk.running
    · simpa [construct, hs, hl] using @hk.failed
    · simpa [construct, hs, hl] using @hk.destroyed
  | occupy hr =>
    have hl := (ctor_top h hr).1
    exact keeps_update rfl rfl rfl (by simp) (by simp [hl]) (fun ho => absurd hl ho.1) (by simp [hl])
  | roles hc hb => exact ⟨Nat.le_refl _, fun _ => rfl, id, fun _ => id, fun _ => id, Iff.rfl⟩

theorem abandon_keeps (h : t.Ok) {o : ObjId} {rs : List Role} (hr : t.roles = .ctor o :: rs) :
    t.Keeps (t.abandon o) := by
  have hl := (ctor_top h hr).1
  exact keeps_update rfl rfl rfl (by simp) (by simp [hl]) (fun ho => absurd hl ho.1) (by simp [hl])

theorem Moves.keeps {u : Table} (hm : t.Moves u) (h : t.Ok) : t.Keeps u := by
  induction hm with
  | refl => exact .refl
  | tail hms hm ih => exact ih.trans (hm.keeps (Moves.ok hms h))

end Table
end Eslang
