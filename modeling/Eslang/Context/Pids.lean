import Eslang.Context.Sound

/-! # Pids name one process for ever

The version in a pid counts the processes that had its index before, modulo `2 ^ 64`: a tombstone carries
the pid of the last user of its index, and `nextPid` adds one. So pids differ as long as no index is
reused `2 ^ 64` times, and a pid of a dead process is inert (`pids_unique`). -/
namespace Eslang
set_option autoImplicit false
open Lib

namespace Table
variable {t u : Table}

/-- How many processes before `o` had its index. -/
def earlier (t : Table) (o : ObjId) : Nat :=
  ((Finset.range o).filter fun x => (t.pid x).idx = (t.pid o).idx).card

def Last (t : Table) (o : ObjId) : Prop :=
  ∀ x, o < x → x < t.size → (t.pid x).idx ≠ (t.pid o).idx

/-- Versions count the users of an index, and the users that matter are the last ones. -/
structure Versions (t : Table) : Prop where
  version : ∀ {o}, o < t.size → (t.pid o).version = t.earlier o % 2 ^ 64
  live : ∀ {o}, t.life o = .running ∨ t.life o = .constructing → t.Last o
  failed : ∀ {o}, o < t.size → t.life o = .failed → t.Last o
  tomb : ∀ {p}, p ∈ t.tombstones → ∃ o, t.Started o ∧ t.pid o = p ∧ t.Last o

theorem Versions.congr (h : t.Versions) (hs : u.size = t.size) (hp : u.pid = t.pid)
    (hl : ∀ {o}, u.life o = .running ∨ u.life o = .constructing →
      t.life o = .running ∨ t.life o = .constructing)
    (hf : ∀ {o}, o < t.size → u.life o = .failed → t.Last o)
    (hst : ∀ {o}, t.Started o → u.Started o)
    (ht : ∀ {p}, p ∈ u.tombstones →
      p ∈ t.tombstones ∨ ∃ o, t.Started o ∧ t.pid o = p ∧ t.Last o) : u.Versions := by
  have hlast : ∀ o, u.Last o ↔ t.Last o := fun o => by rw [Last, Last, hs, hp]
  refine ⟨fun {o} ho => ?_, fun {o} ho => (hlast o).mpr (h.live (hl ho)),
    fun {o} ho hl => (hlast o).mpr (hf (hs ▸ ho) hl), fun {p} hm => ?_⟩
  · rw [earlier, hp]
    exact h.version (hs ▸ ho)
  · obtain ⟨o, ho, he, hl⟩ : ∃ o, t.Started o ∧ t.pid o = p ∧ t.Last o := (ht hm).elim h.tomb id
    exact ⟨o, hst ho, by rw [hp, he], (hlast o).mpr hl⟩

theorem kill_versions (h : t.Ok) (hv : t.Versions) (p : Pid) : (t.kill p).Versions := by
  cases hf : t.find p with
  | none => rwa [kill_of_none hf]
  | some o =>
    obtain ⟨hr, rfl⟩ := (find_eq_some h).mp hf
    rw [kill_of_some hf]
    have hst : t.Started o := by simp [Started, hr]
    refine hv.congr rfl rfl (fun {x} hx => ?_) (fun {x} hx hl => ?_) (fun {x} hx => ?_) fun {q} hq => ?_
    · by_cases he : x = o
      · simp [he] at hx
      · simpa [he] using hx
    · by_cases he : x = o
      · simp [he] at hl
      · exact hv.failed hx (by simpa [he] using hl)
    · by_cases he : x = o
      · simp [Started, he]
      · simpa [Started, he] using hx
    · rcases List.mem_cons.mp hq with rfl | hq
      · exact .inr ⟨o, hst, rfl, hv.live (.inl hr)⟩
      · exact .inl hq

/-- The version that `nextPid` hands out counts the processes that had the index. -/
theorem nextPid_version (h : t.Ok) (hv : t.Versions) :
    t.nextPid.1.version =
      ((Finset.range t.size).filter fun x => (t.pid x).idx = t.nextPid.1.idx).card % 2 ^ 64 := by
  cases htomb : t.tombstones with
  | cons p ps =>
    simp only [nextPid, htomb]
    obtain ⟨o, hst, rfl, hlast⟩ := hv.tomb (p := p) (by simp [htomb])
    have ho : o < t.size := h.allocated hst.2
    have husers : ((Finset.range t.size).filter fun x => (t.pid x).idx = (t.pid o).idx) =
        insert o ((Finset.range o).filter fun x => (t.pid x).idx = (t.pid o).idx) := by
      ext x
      simp only [Finset.mem_filter, Finset.mem_range, Finset.mem_insert]
      constructor
      · rintro ⟨hx, hidx⟩
        rcases Nat.lt_trichotomy x o with hlt | heq | hgt
        · exact .inr ⟨hlt, hidx⟩
        · exact .inl heq
        · exact absurd hidx (hlast x hgt hx)
      · rintro (rfl | ⟨hx, hidx⟩)
        · exact ⟨ho, rfl⟩
        · exact ⟨Nat.lt_trans hx ho, hidx⟩
    rw [husers, Finset.card_insert_of_notMem (by simp), hv.version ho, earlier, Nat.mod_add_mod]
  | nil =>
    simp only [nextPid, htomb]
    have hnone : ((Finset.range t.size).filter fun x => (t.pid x).idx = t.processes.length) = ∅ := by
      refine Finset.filter_eq_empty_iff.mpr fun x hx => ?_
      exact Nat.ne_of_lt (h.inRange (Finset.mem_range.mp hx))
    rw [hnone, Finset.card_empty, Nat.zero_mod]

theorem nextPid_index (h : t.Ok) {o : ObjId}
    (ho : t.life o = .running ∨ t.life o = .constructing) : (t.pid o).idx ≠ t.nextPid.1.idx := by
  obtain ⟨-, hpid, hlife⟩ := t.nextPid_eq
  have hv := nextPid_vacant h
  rcases ho with ho | ho
  · intro he
    have hlive := (nextPid_ok h).live (o := o) (by rw [hlife]; exact ho)
    rw [hpid, he, hv.empty] at hlive
    cases hlive
  · have hne := hv.noCtor (o := o) (by rw [hlife]; exact ho)
    rwa [hpid] at hne

theorem nextPid_index_failed (h : t.Ok) (hv : t.Versions) {o : ObjId} (ho : o < t.size)
    (hl : t.life o = .failed) : (t.pid o).idx ≠ t.nextPid.1.idx := by
  cases htomb : t.tombstones with
  | nil =>
    simp only [nextPid, htomb]
    exact Nat.ne_of_lt (h.inRange ho)
  | cons p ps =>
    simp only [nextPid, htomb]
    obtain ⟨x, hst, rfl, hlast⟩ := hv.tomb (p := p) (by simp [htomb])
    intro hidx
    rcases Nat.lt_trichotomy x o with hxo | rfl | hxo
    · exact hlast o hxo ho hidx
    · exact hst.2 hl
    · exact hv.failed ho hl x hxo (h.allocated hst.2) hidx.symm

theorem spawn_versions (h : t.Ok) (hv : t.Versions) :
    (t.nextPid.2.construct t.nextPid.1).Versions := by
  obtain ⟨hsize, hpid, hlife⟩ := t.nextPid_eq
  have hsize' : (t.nextPid.2.construct t.nextPid.1).size = t.size + 1 := by simp [construct, hsize]
  have hle : ∀ {x}, x < (t.nextPid.2.construct t.nextPid.1).size → x ≤ t.size := fun {x} hx =>
    Nat.lt_succ_iff.mp (Nat.lt_of_lt_of_eq hx hsize')
  have hself : (t.nextPid.2.construct t.nextPid.1).pid t.size = t.nextPid.1 := by
    simp [construct, hsize]
  have hold : ∀ {x}, x ≠ t.size → (t.nextPid.2.construct t.nextPid.1).pid x = t.pid x ∧
      (t.nextPid.2.construct t.nextPid.1).life x = t.life x := fun {x} hx => by
    simp [construct, hsize, hx, hpid, hlife]
  have hlast : ∀ {x}, x < t.size → t.Last x → (t.pid x).idx ≠ t.nextPid.1.idx →
      (t.nextPid.2.construct t.nextPid.1).Last x := by
    intro x hx hl hne y hxy hy
    rw [(hold (Nat.ne_of_lt hx)).1]
    by_cases he : y = t.size
    · rw [he, hself]
      exact hne.symm
    · rw [(hold he).1]
      exact hl y hxy (Nat.lt_of_le_of_ne (hle hy) he)
  have hearlier : ∀ {x}, x ≤ t.size → (t.nextPid.2.construct t.nextPid.1).earlier x =
      ((Finset.range x).filter fun y =>
        (t.pid y).idx = ((t.nextPid.2.construct t.nextPid.1).pid x).idx).card := by
    intro x hx
    refine congrArg Finset.card (Finset.filter_congr fun y hy => ?_)
    rw [(hold (Nat.ne_of_lt (Nat.lt_of_lt_of_le (Finset.mem_range.mp hy) hx))).1]
  refine ⟨fun {o} ho => ?_, fun {o} ho => ?_, fun {o} ho hl => ?_, fun {p} hp => ?_⟩
  · rw [hearlier (hle ho)]
    by_cases he : o = t.size
    · rw [he, hself]
      exact nextPid_version h hv
    · rw [(hold he).1]
      exact hv.version (Nat.lt_of_le_of_ne (hle ho) he)
  · by_cases he : o = t.size
    · intro y hy hy'
      exact absurd (hle hy') (Nat.not_le.mpr (he ▸ hy))
    · rw [(hold he).2] at ho
      have hlt : o < t.size := h.allocated (by rcases ho with ho | ho <;> simp [ho])
      exact hlast hlt (hv.live ho) (nextPid_index h ho)
  · by_cases he : o = t.size
    · simp [he, construct, hsize] at hl
    · rw [(hold he).2] at hl
      have hlt : o < t.size := Nat.lt_of_le_of_ne (hle ho) he
      exact hlast hlt (hv.failed hlt hl) (nextPid_index_failed h hv hlt hl)
  · have hmem : p ∈ t.tombstones ∧ p.idx ≠ t.nextPid.1.idx := by
      have htombs := h.tombs
      cases htomb : t.tombstones with
      | nil => simp [construct, nextPid, htomb] at hp
      | cons q qs =>
        simp only [construct, nextPid, htomb] at hp ⊢
        rw [htomb, List.map_cons, List.nodup_cons] at htombs
        exact ⟨List.mem_cons_of_mem _ hp, fun he => htombs.1 (he ▸ List.mem_map_of_mem hp)⟩
    obtain ⟨o, hst, rfl, hl⟩ := hv.tomb hmem.1
    have ho : o < t.size := h.allocated hst.2
    obtain ⟨hpid', hlife'⟩ := hold (Nat.ne_of_lt ho)
    exact ⟨o, by rwa [Started, hlife'], hpid', hlast ho hl hmem.2⟩

theorem Moves.versions (hm : t.Moves u) (h : t.Ok) (hv : t.Versions) : u.Versions := by
  induction hm with
  | refl => exact hv
  | @tail v w hms hm ih =>
    have hok := Moves.ok hms h
    cases hm with
    | kill p => exact kill_versions hok ih p
    | spawn => exact spawn_versions hok ih
    | @occupy o rs hr =>
      refine ih.congr rfl rfl (fun {x} hx => ?_) (fun {x} hx hl => ?_) (fun {x} hx => ?_) .inl
      · by_cases he : x = o
        · exact .inr (he ▸ (ctor_top hok hr).1)
        · simpa [occupy, he] using hx
      · by_cases he : x = o
        · simp [occupy, he] at hl
        · exact ih.failed hx (by simpa [occupy, he] using hl)
      · by_cases he : x = o
        · simp [Started, occupy, he]
        · simpa [Started, occupy, he] using hx
    | roles hc hb => exact ih.congr rfl rfl id ih.failed id .inl

theorem Versions.leave (hv : t.Versions) {o : ObjId} {l : Life} (hs : u.size = t.size)
    (hp : u.pid = t.pid) (ht : u.tombstones = t.tombstones)
    (hl : u.life = Function.update t.life o l) (h1 : l ≠ .running) (h2 : l ≠ .constructing)
    (h3 : l = .failed → t.life o = .constructing) : u.Versions := by
  refine hv.congr hs hp (fun {x} hx => ?_) (fun {x} hx hx' => ?_) (fun {x} hx => ?_)
    (fun hq => .inl (ht ▸ hq))
  · by_cases he : x = o
    · simp [hl, he, h1, h2] at hx
    · simpa [hl, he] using hx
  · by_cases he : x = o
    · exact he ▸ hv.live (.inr (h3 (by simpa [hl, he] using hx')))
    · exact hv.failed hx (by simpa [hl, he] using hx')
  · by_cases he : x = o
    · subst he
      refine ⟨by simp [hl, h2], fun hf => hx.1 (h3 (by simpa [hl] using hf))⟩
    · simpa [Started, hl, he] using hx

theorem earlier_lt {a b : ObjId} (hab : a < b) (he : (t.pid a).idx = (t.pid b).idx) :
    t.earlier a < t.earlier b := by
  have hsub : insert a ((Finset.range a).filter fun y => (t.pid y).idx = (t.pid a).idx) ⊆
      (Finset.range b).filter fun y => (t.pid y).idx = (t.pid b).idx := by
    intro y hy
    simp only [Finset.mem_insert, Finset.mem_filter, Finset.mem_range] at hy ⊢
    rcases hy with rfl | ⟨hy, hidx⟩
    · exact ⟨hab, he⟩
    · exact ⟨Nat.lt_trans hy hab, hidx.trans he⟩
  have hcard := Finset.card_le_card hsub
  rwa [Finset.card_insert_of_notMem (by simp)] at hcard

theorem earlier_lt_card {o : ObjId} (ho : o < t.size) :
    t.earlier o < ((Finset.range t.size).filter fun x => (t.pid x).idx = (t.pid o).idx).card := by
  have hsub : insert o ((Finset.range o).filter fun y => (t.pid y).idx = (t.pid o).idx) ⊆
      (Finset.range t.size).filter fun y => (t.pid y).idx = (t.pid o).idx := by
    intro y hy
    simp only [Finset.mem_insert, Finset.mem_filter, Finset.mem_range] at hy ⊢
    rcases hy with rfl | ⟨hy, hidx⟩
    · exact ⟨ho, rfl⟩
    · exact ⟨Nat.lt_trans hy ho, hidx⟩
  have hcard := Finset.card_le_card hsub
  rwa [Finset.card_insert_of_notMem (by simp)] at hcard

/-- Two processes with one pid are `2 ^ 64` uses of their index apart. -/
theorem pid_inj (hv : t.Versions)
    (hw : ∀ i, ((Finset.range t.size).filter fun o => (t.pid o).idx = i).card ≤ 2 ^ 64)
    {o x : ObjId} (ho : o < t.size) (hx : x < t.size) (he : t.pid o = t.pid x) : o = x := by
  have hidx : (t.pid o).idx = (t.pid x).idx := congrArg Pid.idx he
  have hversion := congrArg Pid.version he
  have hlt : ∀ {a : ObjId}, a < t.size → t.earlier a < 2 ^ 64 := fun {a} ha =>
    Nat.lt_of_lt_of_le (earlier_lt_card ha) (hw _)
  rw [hv.version ho, hv.version hx, Nat.mod_eq_of_lt (hlt ho), Nat.mod_eq_of_lt (hlt hx)] at hversion
  rcases Nat.lt_trichotomy o x with h | h | h
  · exact absurd hversion (Nat.ne_of_lt (earlier_lt h hidx))
  · exact h
  · exact absurd hversion.symm (Nat.ne_of_lt (earlier_lt h hidx.symm))

theorem find_kill {p : Pid} (hf : t.find p = none) (q : Pid) : (t.kill q).find p = none := by
  cases hq : t.find q with
  | none => rwa [kill_of_none hq]
  | some o =>
    rw [kill_of_some hq]
    unfold find at hf ⊢
    simp only [List.getElem?_set]
    by_cases he : q.idx = p.idx
    · by_cases hlt : p.idx < t.processes.length <;> simp [he, hlt]
    · simpa [he] using hf

end Table

namespace Context
variable {σ μ : Type}

theorem effect_versions {code : Code σ μ} {c c' : Context σ μ} {l : Label} {out : List (Event μ)}
    (he : Effect code c l out c') (ht : c.table.Ok) (h : c.table.Versions) : c'.table.Versions := by
  cases effect_tableStep he with
  | moves hm => exact hm.versions ht h
  | @abandon o s e rest hs hop hm =>
    rw [hm]
    exact h.leave (o := o) (l := .failed) rfl rfl rfl rfl (by simp) (by simp)
      fun _ => (Table.ctor_top ht (roles_top hs)).1
  | @destroy o reason rest hs hp hd hm =>
    exact hm.versions (Table.destroy_ok ht (toDestroy_top hd) (by simp [table, hs]))
      (h.leave (o := o) (l := .destroyed) rfl rfl rfl rfl (by simp) (by simp) (by simp))

theorem versions_init (main : σ) : (init main : Context σ μ).table.Versions := by
  refine ⟨?_, ?_, ?_, ?_⟩ <;> simp [init, table]

/-- How often the index `i` has been handed out again. -/
def reuses (c : Context σ μ) (i : Nat) : Nat :=
  ((Finset.range c.heapSize).filter fun o => (c.heap o).pid.idx = i).card - 1

/-- Whatever is addressed to the pid `p` acts on nothing. -/
structure Inert (c : Context σ μ) (p : Pid) : Prop where
  message : ∀ a m q, a.pid = p →
    (c.popFront q).processQueueItem (.message a m) = (c.popFront q, [.discarded a m])
  resume : ∀ n q, (c.popFront q).processQueueItem (.resume p n) = (c.popFront q, [])
  queueKill : ∀ reason, c.addtoDestroy p reason = c
  /-- In the list of a process `o` that is being destroyed an entry `p` might as well not be there. -/
  killOnDie : ∀ o reason rest ps ps', (c.heap o).killOnDie = ps ++ p :: ps' →
    ({ c with toDestroy := rest }.setLife o .destroyed).killLinked o reason =
      (ps ++ ps').foldl (fun d q => d.addtoDestroy q reason)
        ({ c with toDestroy := rest }.setLife o .destroyed)

theorem addtoDestroy_of_none {c : Context σ μ} {p : Pid} (hf : c.findProc p = none)
    (reason : String) : c.addtoDestroy p reason = c := by
  simp [addtoDestroy, hf]

theorem findProc_setLife (c : Context σ μ) (o : ObjId) (l : Life) (p : Pid) :
    (c.setLife o l).findProc p = c.findProc p := by
  have htable := table_setLife c o l
  rw [findProc_table, htable, findProc_table]
  rfl

theorem kills_skip {p : Pid} {reason : String} (ps ps' : List Pid) {c : Context σ μ}
    (hf : c.findProc p = none) :
    (ps ++ p :: ps').foldl (fun d q => d.addtoDestroy q reason) c =
      (ps ++ ps').foldl (fun d q => d.addtoDestroy q reason) c := by
  induction ps generalizing c with
  | nil => simp [addtoDestroy_of_none hf]
  | cons q ps ih =>
    apply ih (c := c.addtoDestroy q reason)
    rw [findProc_table, table_addtoDestroy]
    exact Table.find_kill (findProc_table c p ▸ hf) q

theorem inert_of_none {c : Context σ μ} {p : Pid} (hf : c.findProc p = none) : c.Inert p where
  message a m q ha := by
    have hpop : (c.popFront q).findProc a.pid = none := ha ▸ hf
    simp [processQueueItem, hpop]
  resume n q := by
    have hpop : (c.popFront q).findProc p = none := hf
    simp [processQueueItem, hpop]
  queueKill reason := addtoDestroy_of_none hf reason
  killOnDie o reason rest ps ps' hk := by
    have hlist : (({ c with toDestroy := rest }.setLife o .destroyed).heap o).killOnDie =
        ps ++ p :: ps' := by simpa [setLife, setProc] using hk
    rw [killLinked, hlist]
    apply kills_skip ps ps'
    rw [findProc_setLife]
    exact hf

/-! ## Killed pids -/

theorem findProc_addtoDestroy_self (c : Context σ μ) (p : Pid) (reason : String) :
    (c.addtoDestroy p reason).findProc p = none := by
  unfold addtoDestroy
  split
  next hf => exact hf
  next o hf =>
    have hlt : p.idx < c.processes.length := by
      by_contra hge
      simp [findProc, List.getElem?_eq_none (by omega : c.processes.length ≤ p.idx)] at hf
    simp [findProc, hlt]

theorem findProc_kills_none {p : Pid} {ps : List Pid} {reason : String} {c : Context σ μ}
    (hf : c.findProc p = none) :
    (ps.foldl (fun c q => c.addtoDestroy q reason) c).findProc p = none := by
  induction ps generalizing c with
  | nil => exact hf
  | cons q ps ih =>
    apply ih
    rw [findProc_table, table_addtoDestroy]
    exact Table.find_kill (findProc_table c p ▸ hf) q

theorem findProc_kills_mem {p : Pid} {ps : List Pid} {reason : String} {c : Context σ μ}
    (hp : p ∈ ps) : (ps.foldl (fun c q => c.addtoDestroy q reason) c).findProc p = none := by
  obtain ⟨qs, qs', rfl⟩ := List.mem_iff_append.mp hp
  rw [List.foldl_append, List.foldl_cons]
  exact findProc_kills_none (findProc_addtoDestroy_self _ _ _)

/-- `destroy` kills what the process was linked to before the destructors run. -/
theorem findProc_destroy {c : Context σ μ} {o : ObjId} {p : Pid} (hp : p ∈ (c.heap o).killOnDie)
    (dtor : σ → σ) (reason : String) : (c.destroy dtor o reason).findProc p = none := by
  have hk : p ∈ ((c.setLife o .destroyed).heap o).killOnDie := by simpa [setLife, setProc] using hp
  have hkilled : ((c.setLife o .destroyed).killLinked o reason).findProc p = none :=
    findProc_kills_mem hk
  have hnotified : (((c.setLife o .destroyed).killLinked o reason).notifyDeath o).findProc p =
      none := by
    rw [findProc_table, table_notifyDeath, ← findProc_table]
    exact hkilled
  exact hnotified

end Context

theorem Code.versions {σ μ : Type} {code : Code σ μ} {ok : Context σ μ → Label → Prop} {main : σ}
    {tr : List (Event μ)} {c : Context σ μ} (h : code.RunsTo ok main tr c) : c.table.Versions :=
  h.invariant_of Context.Sound (fun c => c.table.Versions) Code.sound (Context.versions_init main)
    fun _ _ _ _ hc hi _ hs => Context.effect_versions (Context.step_effect hs).2 hc.table hi

/-- With fewer than `2 ^ 64` reuses of any index two processes never have one pid. -/
theorem Code.pid_inj {σ μ : Type} {code : Code σ μ} {ok : Context σ μ → Label → Prop} {main : σ}
    {tr : List (Event μ)} {c : Context σ μ} (h : code.RunsTo ok main tr c)
    (hw : ∀ i, c.reuses i < 2 ^ 64) {o x : ObjId} (ho : o < c.heapSize) (hx : x < c.heapSize)
    (he : (c.heap o).pid = (c.heap x).pid) : o = x := by
  refine Table.pid_inj (t := c.table) (Code.versions h) (fun i => ?_) ho hx he
  have hi := hw i
  unfold Context.reuses at hi
  exact Nat.le_of_pred_lt hi

/-- **No pid is handed out twice, and a pid never finds another process than its own**, so that nothing
addressed to the pid of a dead process acts on anything. -/
theorem pids_unique {σ μ : Type} {code : Code σ μ} {main : σ} {tr : List (Event μ)}
    {c : Context σ μ} (h : code.RunsTo System.anyStep main tr c) (hw : ∀ i, c.reuses i < 2 ^ 64) :
    (∀ o x, o < c.heapSize → x < c.heapSize → (c.heap o).pid = (c.heap x).pid → o = x) ∧
      (∀ o x, o < c.heapSize → c.findProc (c.heap o).pid = some x → x = o) ∧
      ∀ o, (c.heap o).dead = true → c.Inert (c.heap o).pid := by
  have hok := (Code.sound h).table
  have hfind : ∀ o x, o < c.heapSize → c.findProc (c.heap o).pid = some x → x = o := by
    intro o x ho hf
    rw [Context.findProc_table] at hf
    obtain ⟨hr, hp⟩ := (Table.find_eq_some hok).mp hf
    exact Code.pid_inj h hw (hok.allocated (by simp [hr])) ho hp
  refine ⟨fun o x ho hx he => Code.pid_inj h hw ho hx he, hfind, fun o hd => ?_⟩
  apply Context.inert_of_none
  obtain ⟨hst, hn⟩ := Context.dead_iff.mp hd
  cases hf : c.findProc (c.heap o).pid with
  | none => rfl
  | some x =>
    have hx := hfind o x (hok.allocated hst.2) hf
    rw [Context.findProc_table] at hf
    exact absurd (hx ▸ ((Table.find_eq_some hok).mp hf).1) hn

theorem reuses_lt {σ μ : Type} {c : Context σ μ} (h : c.heapSize < 2 ^ 64) (i : Nat) :
    c.reuses i < 2 ^ 64 := by
  have hle := Finset.card_filter_le (Finset.range c.heapSize) fun o => (c.heap o).pid.idx = i
  rw [Finset.card_range] at hle
  exact Nat.lt_of_le_of_lt (Nat.le_trans (Nat.sub_le _ _) hle) h

/-- Process 0 returns at once; process 1 spawns process 2, which gets its index, and then kills process 0
once more. -/
def killStalePid : Code Nat Unit where
  op n :=
    match n with
    | 0 => .spawn .plain 10 fun _ => 1
    | 1 => .spawn .plain 20 fun _ => 2
    | 10 => .started 11
    | 20 => .started 21
    | 21 => .awaitSuspend .yield 22
    | 22 => .spawn .plain 20 fun _ => 23
    | 23 => .queueKill ⟨0, 0⟩ 24
    | _ => .coReturn
  dtor _ := 99

/-- Process 2 occupies index 0, and the pid of process 0 kills nothing. -/
theorem stale_pid_inert :
    ∃ tr c, killStalePid.RunsTo System.anyStep 0 tr c ∧ (c.heap 2).pid = ⟨0, 1⟩ ∧
      c.findProc ⟨0, 1⟩ = some 2 ∧ ∀ reason, c.addtoDestroy ⟨0, 0⟩ reason = c := by
  obtain ⟨tr, c, hr, hn, hd, hp, hf, h0⟩ := System.exec_reaches (M := killStalePid.system)
    (g := fun _ _ => true) (G := System.anyStep) (fun _ _ _ => trivial)
    (w := List.replicate 16 .tick) (s := Context.init 0)
    (P := fun _ c => c.heapSize = 3 ∧ (c.heap 0).dead = true ∧ (c.heap 2).pid = ⟨0, 1⟩ ∧
      c.findProc ⟨0, 1⟩ = some 2 ∧ (c.heap 0).pid = ⟨0, 0⟩) (by decide)
  obtain ⟨-, -, hinert⟩ := pids_unique hr (reuses_lt (by rw [hn]; decide))
  exact ⟨tr, c, hr, hp, hf, h0 ▸ (hinert 0 hd).queueKill⟩

end Eslang
