import Eslang.Context.Sound

/-! # Throttled sends to dead processes: the two lookups

`canQueue` looks its receiver up with the const `findProc`, everything else with the non-const one. The
const copy lacks the test for an empty entry, so the two agree exactly where the index of the pid
is in use (`lookup_safe_iff`); a `sendThrottled` to a process that was just killed dereferences the
empty entry. -/
namespace Eslang
set_option autoImplicit false
open Lib

namespace Context
variable {σ μ : Type}

/-- The lookup of `canQueue` for address `a` touches no empty entry, agrees with the non-const
`findProc`, and gives no promise for a pid that is not live. -/
def LookupSafe (c : Context σ μ) (a : SendAddress) : Prop :=
  c.findProcConst a.pid = .ok (c.findProc a.pid) ∧
    (c.findProc a.pid = none → c.canQueue a = .ok none)

instance (c : Context σ μ) (a : SendAddress) : Decidable (c.LookupSafe a) :=
  inferInstanceAs (Decidable (_ ∧ _))

/-- Some live process uses index `i`: the one the address names, or one that reused its index. -/
def InUse (c : Context σ μ) (i : Nat) : Prop :=
  ∃ o, (c.heap o).life = .running ∧ (c.heap o).pid.idx = i

theorem inUse_iff {c : Context σ μ} (h : c.table.Ok) (i : Nat) :
    c.InUse i ↔ ∃ o, c.processes[i]? = some (some o) := by
  constructor
  · rintro ⟨o, hr, rfl⟩
    exact ⟨o, h.live hr⟩
  · rintro ⟨o, ho⟩
    exact ⟨o, h.entry ho⟩

/-- The lookups part at empty entries only. -/
theorem findProcConst_eq_iff (c : Context σ μ) (p : Pid) :
    c.findProcConst p = .ok (c.findProc p) ↔
      c.processes.length ≤ p.idx ∨ ∃ o, c.processes[p.idx]? = some (some o) := by
  cases he : c.processes[p.idx]? with
  | none => simp [findProcConst, findProc, List.getElem?_eq_none_iff.mp he]
  | some e =>
    cases e with
    | none =>
      have hlt := (List.getElem?_eq_some_iff.mp he).1
      simp only [findProcConst, he, reduceCtorEq, Option.some.injEq, exists_false, or_false, false_iff]
      omega
    | some o => simp [findProcConst, findProc, he]

theorem lookupSafe_iff {c : Context σ μ} {a : SendAddress} :
    c.LookupSafe a ↔ c.findProcConst a.pid = .ok (c.findProc a.pid) := by
  refine ⟨And.left, fun h => ⟨h, fun hn => ?_⟩⟩
  simp [canQueue, h, hn]

theorem made_inRange {c : Context σ μ} (ht : c.table.Ok) (hr : c.Refs) {a : SendAddress}
    (hm : c.made a = true) : a.pid.idx < c.processes.length := by
  simp only [made, Bool.and_eq_true, decide_eq_true_eq] at hm
  rw [← hm.2]
  exact ht.inRange (hr.owners hm.1)

end Context

/-- **The two lookups agree exactly where the index of the pid is in use**, in every reachable state:
for every pid (one past the table apart), and so for every address ever made. -/
theorem lookup_safe_iff {σ μ : Type} {code : Code σ μ} {main : σ} {tr : List (Event μ)}
    {c : Context σ μ} (h : code.RunsTo System.anyStep main tr c) :
    (∀ p, c.findProcConst p = .ok (c.findProc p) ↔
      c.processes.length ≤ p.idx ∨ c.InUse p.idx) ∧
    ∀ a, c.made a = true → (c.LookupSafe a ↔ c.InUse a.pid.idx) := by
  have ht := (Code.sound h).table
  have hagree : ∀ p, c.findProcConst p = .ok (c.findProc p) ↔
      c.processes.length ≤ p.idx ∨ c.InUse p.idx := fun p => by
    rw [Context.inUse_iff ht, Context.findProcConst_eq_iff]
  refine ⟨hagree, fun a hm => ?_⟩
  have hlt := Context.made_inRange ht (Code.sound h).refs hm
  rw [Context.lookupSafe_iff, hagree, or_iff_right (Nat.not_le_of_lt hlt)]

/-- `main` spawns a receiver (process 0, slot 0) and a sender; the sender kills the receiver and then
sends to it. -/
def killThenSend : Code Nat Unit where
  op
    | 0 => .spawn .plain 10 fun _ => 1
    | 1 => .spawn .plain 20 fun _ => 2
    | 10 => .newSlot fun _ => 11
    | 11 => .started 12
    | 12 => .awaitSuspend (.messages [0]) 13
    | 20 => .started 21
    | 21 => .queueKill ⟨0, 0⟩ 22
    | 22 => .sendThrottled ⟨⟨0, 0⟩, 0⟩ () 23
    | _ => .coReturn
  dtor _ := 99

theorem lookup_safe_before_kill :
    ∃ tr c, killThenSend.RunsTo System.anyStep 0 tr c ∧ c.made ⟨⟨0, 0⟩, 0⟩ = true ∧
      c.LookupSafe ⟨⟨0, 0⟩, 0⟩ := by
  obtain ⟨tr, c, hr, hm, hl, hi⟩ := System.exec_reaches (M := killThenSend.system)
    (g := fun _ _ => true) (G := System.anyStep) (fun _ _ _ => trivial)
    (w := List.replicate 7 .tick) (s := Context.init 0)
    (P := fun _ c => c.made ⟨⟨0, 0⟩, 0⟩ = true ∧ (c.heap 0).life = .running ∧
      (c.heap 0).pid.idx = 0) (by decide)
  exact ⟨tr, c, hr, hm, ((lookup_safe_iff hr).2 _ hm).mpr ⟨0, hl, hi⟩⟩

/-- The sender's `canQueue` dereferences the entry its kill emptied. -/
theorem throttled_send_after_kill_faults :
    ∃ tr c, killThenSend.RunsTo System.anyStep 0 tr c ∧ c.made ⟨⟨0, 0⟩, 0⟩ = true ∧
      ¬ c.LookupSafe ⟨⟨0, 0⟩, 0⟩ ∧ c.fault = some (.emptyEntry ⟨0, 0⟩) :=
  System.exec_reaches (M := killThenSend.system) (g := fun _ _ => true)
    (fun _ _ _ => trivial) (w := List.replicate 12 .tick) (by decide)

end Eslang
