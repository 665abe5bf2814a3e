import Eslang.Context.Census

/-! # Death notifications

`spawnLinkNotify` gives the new process one address to tell of its death. The list never changes, and only
`destroy` sends to it, so the address is told once, by the step that destroys the process
(`death_notified_once`). -/
namespace Eslang
set_option autoImplicit false
open Lib

/-- The address and the pid of a death notification. -/
def Event.note? {μ : Type} : Event μ → Option (SendAddress × Pid)
  | sent a (.pid p) => some (a, p)
  | sent _ (.user _) => none
  | popped _ _ | delivered _ _ | discarded _ _ => none

namespace Context
variable {σ μ : Type}

/-- Who is told of whose death by the next step. -/
def notes (c : Context σ μ) (l : Label) : List (ObjId × SendAddress) :=
  (c.destroyedBy l).flatMap fun o => (c.heap o).notifyOnDie.map (o, ·)

theorem mem_notes {c : Context σ μ} {l : Label} {o : ObjId} {a : SendAddress} :
    (o, a) ∈ c.notes l ↔ c.Destroys o ∧ a ∈ (c.heap o).notifyOnDie := by
  simp [notes, mem_destroyedBy]

theorem destroyedBy_eq {c : Context σ μ} {l : Label} {o : ObjId} (h : c.Destroys o) :
    c.destroyedBy l = [o] := by
  obtain ⟨hs, hp, ho⟩ := h
  simp [destroyedBy, hs, hp, ho]

theorem effect_noNote {code : Code σ μ} {c c' : Context σ μ} {l : Label} {out : List (Event μ)}
    (he : Effect code c l out c') (hd : ∀ o, ¬ c.Destroys o) : out.filterMap Event.note? = [] := by
  cases he with
  | send hs hop hm s' => rfl
  | throttleSend hs ht hc => rfl
  | @getVals role s rest ss k hs hop ho s' =>
    refine List.filterMap_eq_nil_iff.mpr fun e hm => ?_
    obtain ⟨x, m, rfl, -⟩ := popped_poppedBy hm
    rfl
  | @take i q hs hp hq =>
    cases i with
    | message a m =>
      simp only [processQueueItem]
      split <;> rfl
    | resume p n =>
      simp only [processQueueItem]
      split <;> rfl
  | @destroy o reason rest hs hp hlist => exact absurd ⟨hs, hp, by simp [hlist]⟩ (hd o)
  | _ => rfl

/-- **The notifications of a step are those of the process it destroys.** -/
theorem step_notes {code : Code σ μ} {c c' : Context σ μ} {l : Label} {out : List (Event μ)}
    (h : c.step code l = some (c', out)) :
    out.filterMap Event.note? = (c.notes l).map fun n => (n.2, (c.heap n.1).pid) := by
  by_cases hd : ∃ o, c.Destroys o
  · obtain ⟨o, hd⟩ := hd
    obtain ⟨reason, rest, hlist, -, rfl⟩ := step_of_destroys hd h
    rw [notes, destroyedBy_eq hd, List.flatMap_singleton, List.map_map, List.filterMap_map]
    exact congrFun List.filterMap_eq_map _
  · have hnone : c.destroyedBy l = [] :=
      List.eq_nil_iff_forall_not_mem.mpr fun o ho => hd ⟨o, mem_destroyedBy.mp ho⟩
    rw [effect_noNote (step_effect h).2 fun o ho => hd ⟨o, ho⟩, notes, hnone]
    rfl

theorem queue_of_destroys {code : Code σ μ} {c c' : Context σ μ} {l : Label} {out : List (Event μ)}
    {o : ObjId} (hd : c.Destroys o) (h : c.step code l = some (c', out)) :
    c'.queue = c.queue ++ (c.heap o).notifyOnDie.map (.message · (.pid (c.heap o).pid)) := by
  obtain ⟨reason, rest, hlist, rfl, -⟩ := step_of_destroys hd h
  exact congrArg Mail.queue (mail_destroy { c with toDestroy := rest } code.dtor o reason)

theorem effect_notifyOnDie {code : Code σ μ} {c c' : Context σ μ} {l : Label}
    {out : List (Event μ)} (he : Effect code c l out c') (ht : c.table.Ok) {o : ObjId}
    (ho : o < c.heapSize) : (c'.heap o).notifyOnDie = (c.heap o).notifyOnDie := by
  have hcell {p : Cell σ μ} (h : c'.cells o = p)
      (hp : p.notifyOnDie = (c.cells o).notifyOnDie) :
      (c'.heap o).notifyOnDie = (c.heap o).notifyOnDie :=
    (congrArg Cell.notifyOnDie h).trans hp
  cases effect_cell he ht o with
  | same h hb => exact hcell h rfl
  | @suspend t rest w hw he' =>
    refine hcell (p := (c.cells o).suspend (some w) t) ?_ rfl
    rw [he', cells_suspended, Function.update_self]
    rfl
  | resumed hw hd hb h => exact hcell h rfl
  | returned hb hl h => exact hcell h rfl
  | created ho' hl hn h => exact absurd ho' (Nat.ne_of_lt ho)
  | started hs h => exact hcell h rfl

theorem step_spawnLinkNotify {code : Code σ μ} {c c' : Context σ μ} {l : Label}
    {out : List (Event μ)} {role : Role} {s ctor : σ} {rest : List (Frame σ μ)} {a : SendAddress}
    {k} (hs : c.stack = ⟨role, .code s⟩ :: rest) (hop : code.op s = .spawn (.linkNotify a) ctor k)
    (h : c.step code l = some (c', out)) :
    c.made a = true ∧ c'.heapSize = c.heapSize + 1 ∧ (c'.heap c.heapSize).life = .constructing ∧
      (c'.heap c.heapSize).notifyOnDie = [a] := by
  have hf := (step_effect h).1
  have hn : c.nextPid.2.heapSize = c.heapSize ∧ c.nextPid.2.heap = c.heap := by
    unfold nextPid
    split <;> exact ⟨rfl, rfl⟩
  cases l with
  | tick =>
    cases hself : role.self with
    | none => simp [step, hf, hs, stepCode, hop, stepOp, hself] at h
    | some o =>
      simp only [step, hf, Option.isSome_none, Bool.false_eq_true, if_false, hs, stepCode, hop, stepOp,
        hself, Option.ite_none_right_eq_some, Option.some.injEq, Prod.mk.injEq] at h
      obtain ⟨hm, rfl, -⟩ := h
      refine ⟨hm, ?_, ?_, ?_⟩ <;> simp [spawnWith, construct, hn, newProcess]
  | atOnce => simp [step, hf, stepAtOnce, hs, hop] at h
  | expire i => simp [step, hf, looking, hs] at h
  | complete i => simp [step, hf, looking, hs] at h
  | abort i => simp [step, hf, looking, hs] at h

/-! ## The whole run -/

/-- The process `o` was made with the address `a`, and `log` lists the notifications since. -/
structure Notified (c : Context σ μ) (o : ObjId) (a : SendAddress)
    (log : List (ObjId × SendAddress)) : Prop where
  sound : c.Sound
  census : c.table.Census
  lt : o < c.heapSize
  notes : (c.heap o).notifyOnDie = [a]
  count : log.count (o, a) = if (c.heap o).life = .destroyed then 1 else 0

theorem count_notes {c : Context σ μ} {l : Label} {o : ObjId} {a : SendAddress}
    (ha : (c.heap o).notifyOnDie = [a]) (hd : c.Destroys o) : (c.notes l).count (o, a) = 1 := by
  simp [Context.notes, destroyedBy_eq hd, ha]

theorem step_notified {code : Code σ μ} {c c' : Context σ μ} {l : Label} {out : List (Event μ)}
    {o : ObjId} {a : SendAddress} {log : List (ObjId × SendAddress)} (h : c.Notified o a log)
    (hstep : c.step code l = some (c', out)) : c'.Notified o a (log ++ c.notes l) := by
  have he := (step_effect hstep).2
  have hk := step_keeps he h.sound.table
  refine ⟨effect_sound he h.sound, effect_census he h.sound.table h.census,
    Nat.lt_of_lt_of_le h.lt hk.size, (effect_notifyOnDie he h.sound.table h.lt).trans h.notes, ?_⟩
  rw [List.count_append, h.count]
  by_cases hd : c.Destroys o
  · obtain ⟨reason, rest, hlist, -⟩ := step_of_destroys hd hstep
    have hkilled : (c.heap o).life = .killed :=
      h.sound.table.doomed (o := o) (by simp [toDestroy_top hlist])
    have hgone := destroyed_of_destroys h.sound.table hd hstep
    simp [count_notes h.notes hd, hkilled, hgone]
  · have hnone : (c.notes l).count (o, a) = 0 :=
      List.count_eq_zero.mpr fun hm => hd (mem_notes.mp hm).1
    rw [hnone, Nat.add_zero]
    by_cases hl : (c.heap o).life = .destroyed
    · rw [if_pos hl, if_pos (hk.gone hl)]
    · rw [if_neg hl, if_neg fun hl' => (hk.destroyed hl').elim hl hd]

theorem Notified.dead {c : Context σ μ} {o : ObjId} {a : SendAddress}
    {log : List (ObjId × SendAddress)} (h : c.Notified o a log) (hd : (c.heap o).dead = true) :
    (c.heap o).life = .destroyed ∨ o ∈ c.table.toDestroy := by
  simp only [RunningProcess.dead, Bool.or_eq_true, decide_eq_true_eq] at hd
  rcases hd with hd | hd
  · exact .inr (h.census.doomed hd)
  · exact .inl hd

/-- A message whose turn has come is pushed to its slot if the owner is live. -/
theorem step_delivers {code : Code σ μ} {c c' : Context σ μ} {l : Label} {out : List (Event μ)}
    (hc : c.Sound) (hcensus : c.table.Census) {a : SendAddress} {m : MessageBase μ}
    {q : List (ToProcessItem μ)} (hs : c.stack = []) (hp : c.phase = .loop)
    (hq : c.queue = .message a m :: q)
    (hl : (c.heap (c.slots a.slot).owner).life = .running)
    (hstep : c.step code l = some (c', out)) :
    out = [.delivered a m] ∧
      ∀ ms, c.mail.box a.slot = some ms → c'.mail.box a.slot = some (ms ++ [m]) := by
  have hmade := hc.addressed a (.queued (m := m) (by simp [hq]))
  simp only [made, Bool.and_eq_true, decide_eq_true_eq] at hmade
  have hfind : (c.popFront q).findProc a.pid = some (c.slots a.slot).owner :=
    (Table.find_eq_some hc.table).mpr ⟨hl, hmade.2⟩
  have htake := step_takes hc.table hcensus hs hp hq hl hstep
  simp only [processQueueItem, hfind, Prod.mk.injEq] at htake
  obtain ⟨rfl, rfl⟩ := htake
  refine ⟨rfl, fun ms hms => ?_⟩
  have hms : (c.popFront q).mail.box a.slot = some ms := hms
  rw [mail_send]
  simp [hms]

end Context

/-- **The address given to `spawnLinkNotify` is told of the death exactly once, by the step that destroys the
process.** The log of a run lists who was told of whose death; `step_notes` says that these are the pids
sent. The message reaches its slot, if that still exists, when the owner is live at its turn. -/
theorem death_notified_once {σ μ : Type} {code : Code σ μ} {main : σ} {tr : List (Event μ)}
    {c c₁ d : Context σ μ} {l : Label} {out : List (Event μ)} {role : Role} {s ctor : σ}
    {rest : List (Frame σ μ)} {a : SendAddress} {k} {log : List (ObjId × SendAddress)}
    (h : code.RunsTo System.anyStep main tr c) (hs : c.stack = ⟨role, .code s⟩ :: rest)
    (hop : code.op s = .spawn (.linkNotify a) ctor k) (hstep : c.step code l = some (c₁, out))
    (hrun : (code.system.observe Context.notes).Run System.anyStep c₁ log d) :
    log.count (c.heapSize, a) = (if (d.heap c.heapSize).life = .destroyed then 1 else 0) ∧
      ((d.heap c.heapSize).dead = true →
        (d.heap c.heapSize).life = .destroyed ∨ c.heapSize ∈ d.table.toDestroy) ∧
      (∀ l d' out, d.step code l = some (d', out) →
        out.filterMap Event.note? = ((d.notes l).map fun n => (n.2, (d.heap n.1).pid)) ∧
        ((c.heapSize, a) ∈ d.notes l ↔ d.Destroys c.heapSize) ∧
        (d.Destroys c.heapSize →
          d'.queue = d.queue ++ [.message a (.pid (d.heap c.heapSize).pid)])) ∧
      ∀ p q l d' out, d.stack = [] → d.phase = .loop → d.queue = .message a (.pid p) :: q →
        (d.heap (d.slots a.slot).owner).life = .running → d.step code l = some (d', out) →
        out = [.delivered a (.pid p)] ∧
          ∀ ms, d.mail.box a.slot = some ms → d'.mail.box a.slot = some (ms ++ [.pid p]) := by
  have he := (Context.step_effect hstep).2
  have hc := Code.sound h
  obtain ⟨-, hsize, hlife, hnotes⟩ := Context.step_spawnLinkNotify hs hop hstep
  have hstart : c₁.Notified c.heapSize a [] :=
    ⟨Context.effect_sound he hc, Context.effect_census he hc.table (Code.census h),
      by rw [hsize]; exact Nat.lt_succ_self _, hnotes, by simp [hlife]⟩
  have hd : d.Notified c.heapSize a log := hrun.invariant (fun log d => d.Notified c.heapSize a log)
    hstart fun log d l d' out hi _ hstep => by
      obtain ⟨rfl, out', hstep⟩ := System.observe_step hstep
      exact Context.step_notified hi hstep
  refine ⟨hd.count, hd.dead, fun l d' out hstep => ⟨Context.step_notes hstep, ?_, fun hdes => ?_⟩, ?_⟩
  · rw [Context.mem_notes, hd.notes]
    simp
  · rw [Context.queue_of_destroys hdes hstep, hd.notes]
    rfl
  · intro p q l d' out hst hp hq hl hstep
    exact Context.step_delivers hd.sound hd.census hst hp hq hl hstep

/-- Process 0 has a slot and spawns process 1 by `spawnLinkNotify`; process 1 kills itself twice and
throws. -/
def notifyTwiceKilled : Code Nat Unit where
  op n :=
    match n with
    | 0 => .spawn .plain 10 fun _ => 1
    | 10 => .newSlot fun _ => 11
    | 11 => .started 12
    | 12 => .spawn (.linkNotify ⟨⟨0, 0⟩, 0⟩) 20 fun _ => 13
    | 13 => .awaitSuspend (.messages [0]) 14
    | 14 => .awaitSuspend .always 15
    | 20 => .started 21
    | 21 => .queueKill ⟨1, 0⟩ 22
    | 22 => .queueKill ⟨1, 0⟩ 23
    | 23 => .throw "killed"
    | _ => .coReturn
  dtor _ := 99

/-- Process 0 is told of the death of process 1 once. -/
theorem twice_killed_notified_once :
    ∃ tr c c₁ out log d, notifyTwiceKilled.RunsTo System.anyStep 0 tr c ∧
      c.step notifyTwiceKilled .tick = some (c₁, out) ∧
      (notifyTwiceKilled.system.observe Context.notes).Run System.anyStep c₁ log d ∧
      (d.heap 1).life = .destroyed ∧ log.count (1, ⟨⟨0, 0⟩, 0⟩) = 1 := by
  obtain ⟨tr, c, hr, htop, hn, hrest⟩ := System.exec_reaches (M := notifyTwiceKilled.system)
    (g := fun _ _ => true) (G := System.anyStep) (fun _ _ _ => trivial)
    (w := List.replicate 5 .tick) (s := Context.init 0)
    (P := fun _ c => c.top? = some (.body 0, 12) ∧ c.heapSize = 1 ∧
      (System.exec (notifyTwiceKilled.system.observe Context.notes) (fun _ _ => true) c
        (.tick :: List.replicate 10 .tick)).any
        (fun r => decide ((r.1.heap 1).life = .destroyed)) = true) (by decide)
  obtain ⟨c₁, n, log, d, hstep, hrun, hl⟩ := System.exec_cons (G := System.anyStep)
    (P := fun d : Context Nat Unit => (d.heap 1).life = .destroyed) (fun _ _ _ => trivial) hrest
  obtain ⟨-, out, hstep⟩ := System.observe_step hstep
  have hstep : c.step notifyTwiceKilled .tick = some (c₁, out) := hstep
  obtain ⟨rest, hs⟩ := Context.top?_eq_some.mp htop
  have hcount := (death_notified_once hr hs rfl hstep hrun).1
  rw [hn, if_pos hl] at hcount
  exact ⟨tr, c, c₁, out, log, d, hr, hstep, hrun, hl, hcount⟩

/-- Process 0 makes a slot in its body, spawns process 1 by `spawnLinkNotify` with the address of that slot,
and lets the slot go; process 1 returns at once. -/
def notifyLocalSlot : Code Nat Unit where
  op n :=
    match n with
    | 0 => .spawn .plain 10 fun _ => 1
    | 10 => .started 11
    | 11 => .newSlot fun _ => 12
    | 12 => .spawn (.linkNotify ⟨⟨0, 0⟩, 0⟩) 20 fun _ => 13
    | 13 => .dropSlot 0 14
    | 14 => .awaitSuspend .always 15
    | 20 => .started 21
    | _ => .coReturn
  dtor _ := 99

/-- Process 0 is live when its turn comes, and the message meets a slot that is gone. -/
theorem death_notice_meets_dropped_slot :
    ∃ tr c c' out, notifyLocalSlot.RunsTo System.anyStep 0 tr c ∧
      .sent ⟨⟨0, 0⟩, 0⟩ (.pid ⟨1, 0⟩) ∈ tr ∧ c.stack = [] ∧ c.phase = .loop ∧
      c.queue.head? = some (.message ⟨⟨0, 0⟩, 0⟩ (.pid ⟨1, 0⟩)) ∧
      (c.heap (c.slots 0).owner).life = .running ∧
      c.step notifyLocalSlot .tick = some (c', out) ∧ c'.fault = some (.slotGone 0) := by
  obtain ⟨tr, c, hr, hsent, hs, hp, hq, hl, hgone⟩ := System.exec_reaches (M := notifyLocalSlot.system)
    (g := fun _ _ => true) (G := System.anyStep) (fun _ _ _ => trivial)
    (w := List.replicate 15 .tick) (s := Context.init 0)
    (P := fun tr c => .sent ⟨⟨0, 0⟩, 0⟩ (.pid ⟨1, 0⟩) ∈ tr ∧ c.stack.length = 0 ∧ c.phase = .loop ∧
      c.queue.head? = some (.message ⟨⟨0, 0⟩, 0⟩ (.pid ⟨1, 0⟩)) ∧
      (c.heap (c.slots 0).owner).life = .running ∧
      (c.step notifyLocalSlot .tick).any
        (fun r => decide (r.1.fault = some (.slotGone 0))) = true) (by decide)
  obtain ⟨⟨c', out⟩, hstep, hfault⟩ := (Option.any_eq_true _ _).mp hgone
  exact ⟨tr, c, c', out, hr, hsent, List.length_eq_zero_iff.mp hs, hp, hq, hl, hstep,
    of_decide_eq_true hfault⟩

end Eslang
