import Eslang.Context.Sound

/-! # Messages are delivered in order, without loss or duplication

For a slot that exists, of a process that is live, the values popped so far, then the contents of the
slot, then the messages for it in the queue of the context are exactly the messages sent to it, in
the order of the `queueSend` calls (`delivery_fifo`). -/
namespace Eslang
set_option autoImplicit false
open Lib

/-- The message an event sends to address `a`. -/
def Event.sentTo? {μ : Type} (a : SendAddress) : Event μ → Option (MessageBase μ)
  | sent a' m => if a' = a then some m else none
  | popped _ _ | delivered _ _ | discarded _ _ => none

/-- The messages passed to `queueSend` for address `a` in a trace, in call order. -/
def sends {μ : Type} (a : SendAddress) (tr : List (Event μ)) : List (MessageBase μ) :=
  tr.filterMap (Event.sentTo? a)

def ToProcessItem.for? {μ : Type} (a : SendAddress) : ToProcessItem μ → Option (MessageBase μ)
  | message a' m => if a' = a then some m else none
  | resume _ _ => none

/-- The messages for address `a` that wait in `queue_`, in queue order. -/
def inTransit {μ : Type} (a : SendAddress) (q : List (ToProcessItem μ)) : List (MessageBase μ) :=
  q.filterMap (ToProcessItem.for? a)

def Event.slot {μ : Type} : Event μ → SlotId
  | sent a _ | delivered a _ | discarded a _ => a.slot
  | popped s _ => s

section Traces
variable {μ : Type}

@[simp] theorem sends_append (a : SendAddress) (tr tr' : List (Event μ)) :
    sends a (tr ++ tr') = sends a tr ++ sends a tr' := List.filterMap_append

@[simp] theorem inTransit_append (a : SendAddress) (q q' : List (ToProcessItem μ)) :
    inTransit a (q ++ q') = inTransit a q ++ inTransit a q' := List.filterMap_append

theorem inTransit_cons (a : SendAddress) (i : ToProcessItem μ) (q : List (ToProcessItem μ)) :
    inTransit a (i :: q) = (i.for? a).toList ++ inTransit a q := by
  cases h : i.for? a with
  | none => simp [inTransit, List.filterMap_cons_none h]
  | some m => simp [inTransit, List.filterMap_cons_some h]

/-- Queueing items and recording them agree. -/
theorem sends_items (a : SendAddress) (items : List (ToProcessItem μ)) :
    sends a (items.filterMap ToProcessItem.sent?) = inTransit a items := by
  rw [sends, inTransit, List.filterMap_filterMap]
  congr 1
  funext i
  cases i <;> rfl

theorem pops_items (s : SlotId) (items : List (ToProcessItem μ)) :
    pops s (items.filterMap ToProcessItem.sent?) = [] := by
  simp only [pops, List.filterMap_eq_nil_iff, List.mem_filterMap]
  rintro e ⟨i, -, hi⟩
  cases i with
  | resume p n => cases hi
  | message a m =>
    cases hi
    rfl

theorem sends_eq_nil {a : SendAddress} {tr : List (Event μ)} (h : ∀ e ∈ tr, e.slot ≠ a.slot) :
    sends a tr = [] := by
  simp only [sends, List.filterMap_eq_nil_iff]
  intro e he
  have hs := h e he
  cases e with
  | sent a' m =>
    have hne : a' ≠ a := fun h => hs (by simp [Event.slot, h])
    simp [Event.sentTo?, hne]
  | popped s m => rfl
  | delivered a' m => rfl
  | discarded a' m => rfl

theorem pops_eq_nil {s : SlotId} {tr : List (Event μ)} (h : ∀ e ∈ tr, e.slot ≠ s) :
    pops s tr = [] := by
  simp only [pops, List.filterMap_eq_nil_iff]
  intro e he
  have hs := h e he
  cases e with
  | popped s' m =>
    have hne : s' ≠ s := fun h => hs (by simp [Event.slot, h])
    simp [Event.popped?, hne]
  | sent a m => rfl
  | delivered a m => rfl
  | discarded a m => rfl

end Traces

namespace Context
variable {σ μ : Type}

/-! ## The invariant -/

/-- The owner of slot `s` is under construction or live. -/
def OwnerAlive (c : Context σ μ) (s : SlotId) : Prop :=
  (c.heap (c.slots s).owner).life = .constructing ∨ (c.heap (c.slots s).owner).life = .running

structure Delivers (c : Context σ μ) (tr : List (Event μ)) : Prop where
  unborn : ∀ {s}, c.slotCount ≤ s → c.mail.box s = none
  slots : ∀ e ∈ tr, e.slot < c.slotCount
  fifo : ∀ {a l}, c.made a = true → c.OwnerAlive a.slot → c.mail.box a.slot = some l →
    pops a.slot tr ++ l ++ inTransit a c.queue = sends a tr

theorem made_slot {c : Context σ μ} {a : SendAddress} (h : c.made a = true) :
    a.slot < c.slotCount ∧ (c.heap (c.slots a.slot).owner).pid = a.pid := by
  simpa [made] using h

theorem made_eq {c : Context σ μ} {a b : SendAddress} (ha : c.made a = true) (hb : c.made b = true)
    (h : a.slot = b.slot) : a = b := by
  have h1 := (made_slot ha).2
  have h2 := (made_slot hb).2
  rw [h, h2] at h1
  cases a
  cases b
  simp_all

theorem running_of_alive {c : Context σ μ} (ht : c.table.Ok) (hs : c.stack = []) {s : SlotId}
    (h : c.OwnerAlive s) : (c.heap (c.slots s).owner).life = .running := by
  rcases h with h | h
  · have := (ht.building (o := (c.slots s).owner) h).2.2
    simp [table, hs] at this
  · exact h

theorem made_back {code : Code σ μ} {c c' : Context σ μ} {l : Label} {out : List (Event μ)}
    (he : Effect code c l out c') (ht : c.table.Ok) (hr : c.Refs) {a : SendAddress}
    (h : c'.made a = true) (hlt : a.slot < c.slotCount) :
    c.made a = true ∧ (c'.slots a.slot).owner = (c.slots a.slot).owner := by
  have hown := (effect_owner he).2 a.slot hlt
  refine ⟨?_, hown⟩
  have hp := (made_slot h).2
  rw [hown, (step_keeps he ht).pid (hr.owners hlt)] at hp
  simp [made, hlt, hp]

theorem events_slot {code : Code σ μ} {c c' : Context σ μ} {l : Label} {out : List (Event μ)}
    (he : Effect code c l out c') (ha : c.Addressed) : ∀ e ∈ out, e.slot < c.slotCount := by
  have hmade : ∀ {a}, c.Mentions a ∨ c.made a = true → a.slot < c.slotCount := fun h =>
    (made_slot (h.elim (ha _) id)).1
  intro e hm
  cases effect_mail he with
  | quiet h ho => simp [ho] at hm
  | enqueue h ho hin =>
    rw [ho, List.mem_filterMap] at hm
    obtain ⟨i, hi, he⟩ := hm
    cases i with
    | resume p n => cases he
    | message a m =>
      cases he
      exact hmade (hin a m hi)
  | newSlot h hc ho => simp [ho] at hm
  | receive hq hb ho =>
    obtain ⟨s, m, rfl, hs⟩ := ho e hm
    exact hs
  | drop hq hb ho => simp [ho] at hm
  | @deliver a m o q hs hq hf h ho =>
    rw [ho, List.mem_singleton] at hm
    subst hm
    exact hmade (.inl (.queued (m := m) (by simp [hq])))
  | @discard a m q hs hq hf h ho =>
    rw [ho, List.mem_singleton] at hm
    subst hm
    exact hmade (.inl (.queued (m := m) (by simp [hq])))
  | resume hs hq h ho => simp [ho] at hm

theorem box_back {code : Code σ μ} {c c' : Context σ μ} {l : Label} {out : List (Event μ)}
    (he : Effect code c l out c') {s : SlotId} {box' : List (MessageBase μ)}
    (h : c'.mail.box s = some box') :
    (∃ box, c.mail.box s = some box) ∨ (s = c.slotCount ∧ s < c'.slotCount ∧ box' = []) := by
  cases effect_mail he with
  | quiet hm ho => exact .inl ⟨box', hm ▸ h⟩
  | enqueue hm ho hin => exact .inl ⟨box', by rwa [hm] at h⟩
  | newSlot hm hc ho =>
    rw [hm] at h
    by_cases hs : s = c.slotCount
    · subst hs
      simp only [Function.update_self, Option.some.injEq] at h
      exact .inr ⟨rfl, hc ▸ Nat.lt_succ_self _, h.symm⟩
    · exact .inl ⟨box', by simpa [hs] using h⟩
  | receive hq hb ho => exact .inl ⟨pops s out ++ box', by rw [hb, h]; rfl⟩
  | drop hq hb ho =>
    rcases hb s with hs | hs
    · exact .inl ⟨box', hs ▸ h⟩
    · simp [hs] at h
  | @deliver a m o q hs hq hf hm ho =>
    rw [hm] at h
    by_cases hs : s = a.slot
    · subst hs
      simp only [Function.update_self, Option.map_eq_some_iff] at h
      obtain ⟨box, hbox, -⟩ := h
      exact .inl ⟨box, hbox⟩
    · exact .inl ⟨box', by simpa [hs] using h⟩
  | discard hs hq hf hm ho => exact .inl ⟨box', by rwa [hm] at h⟩
  | resume hs hq hm ho => exact .inl ⟨box', by rwa [hm] at h⟩

theorem effect_unborn {code : Code σ μ} {c c' : Context σ μ} {l : Label} {out : List (Event μ)}
    (he : Effect code c l out c') (h : ∀ {s}, c.slotCount ≤ s → c.mail.box s = none) {s : SlotId}
    (hs : c'.slotCount ≤ s) : c'.mail.box s = none := by
  cases hb' : c'.mail.box s with
  | none => rfl
  | some box' =>
    rcases box_back he hb' with ⟨box, hb⟩ | ⟨-, hlt, -⟩
    · simp [h (Nat.le_trans (effect_owner he).1 hs)] at hb
    · exact absurd hlt (Nat.not_lt_of_le hs)

/-- What a step does to the contents of an old slot, to its messages in transit and to the trace
adds up. -/
theorem mailStep_fifo {code : Code σ μ} {c c' : Context σ μ} {l : Label} {out : List (Event μ)}
    (he : Effect code c l out c') (ht : c.table.Ok) (ha : c.Addressed) {a : SendAddress}
    (hm : c.made a = true) (halive : c.OwnerAlive a.slot) {box' : List (MessageBase μ)}
    (hb' : c'.mail.box a.slot = some box') :
    ∃ box, c.mail.box a.slot = some box ∧ ∀ old : List (MessageBase μ),
      old ++ pops a.slot out ++ box' ++ inTransit a c'.queue =
        old ++ box ++ inTransit a c.queue ++ sends a out := by
  have hsame : c'.mail.box a.slot = c.mail.box a.slot → c.mail.box a.slot = some box' :=
    fun h => h ▸ hb'
  have hqueue : ∀ {q box}, c'.mail = ⟨q, box⟩ → c'.queue = q := fun h => congrArg Mail.queue h
  cases effect_mail he with
  | quiet h ho =>
    have hq : c'.queue = c.queue := hqueue h
    exact ⟨box', h ▸ hb', fun old => by simp [ho, hq, pops, sends]⟩
  | enqueue h ho hin =>
    refine ⟨box', hsame (by rw [h]), fun old => ?_⟩
    rw [hqueue h, ho, sends_items, pops_items]
    simp
  | newSlot h hc ho =>
    have hne : a.slot ≠ c.slotCount := Nat.ne_of_lt (made_slot hm).1
    have hq : c'.queue = c.queue := hqueue h
    exact ⟨box', hsame (by rw [h]; simp [hne]), fun old => by simp [ho, hq, pops, sends]⟩
  | receive hq hb ho =>
    have hnosend : sends a out = [] := by
      simp only [sends, List.filterMap_eq_nil_iff]
      intro e hm
      obtain ⟨s, m, rfl, -⟩ := ho e hm
      rfl
    exact ⟨pops a.slot out ++ box', by rw [hb, hb']; rfl, fun old => by simp [hq, hnosend]⟩
  | drop hq hb ho =>
    refine ⟨box', hsame ((hb a.slot).resolve_right (by simp [hb'])), fun old => ?_⟩
    simp [ho, hq, pops, sends]
  | @deliver a' m o q hs hq hf h ho =>
    have hm' : c.made a' = true := ha a' (.queued (m := m) (by simp [hq]))
    have hevents : pops a.slot out = [] ∧ sends a out = [] := by
      simp [ho, pops, sends, Event.popped?, Event.sentTo?]
    rw [h] at hb'
    by_cases hslot : a'.slot = a.slot
    · cases made_eq hm' hm hslot
      simp only [Function.update_self, Option.map_eq_some_iff] at hb'
      obtain ⟨box, hbox, rfl⟩ := hb'
      refine ⟨box, hbox, fun old => ?_⟩
      rw [hqueue h, hq]
      simp [hevents, inTransit_cons, ToProcessItem.for?]
    · have hne : a' ≠ a := fun h => hslot (by rw [h])
      simp only [Function.update_of_ne (Ne.symm hslot)] at hb'
      refine ⟨box', hb', fun old => ?_⟩
      rw [hqueue h, hq]
      simp [hevents, inTransit_cons, ToProcessItem.for?, hne]
  | @discard a' m q hs hq hf h ho =>
    have hne : a' ≠ a := by
      rintro rfl
      have hlive := running_of_alive ht hs halive
      have hfound : c.findProc a'.pid = some (c.slots a'.slot).owner :=
        (findProc_table c _).trans ((Table.find_eq_some ht).mpr ⟨hlive, (made_slot hm).2⟩)
      simp [hf] at hfound
    have hevents : pops a.slot out = [] ∧ sends a out = [] := by
      simp [ho, pops, sends, Event.popped?, Event.sentTo?]
    refine ⟨box', hsame (by rw [h]), fun old => ?_⟩
    rw [hqueue h, hq]
    simp [hevents, inTransit_cons, ToProcessItem.for?, hne]
  | resume hs hq h ho =>
    refine ⟨box', hsame (by rw [h]), fun old => ?_⟩
    rw [hqueue h, hq, ho]
    simp [pops, sends, inTransit_cons, ToProcessItem.for?]

theorem effect_delivers {code : Code σ μ} {c c' : Context σ μ} {l : Label}
    {tr out : List (Event μ)} (he : Effect code c l out c') (ht : c.table.Ok) (hr : c.Refs)
    (ha : c.Addressed) (h : c.Delivers tr) : c'.Delivers (tr ++ out) := by
  have hk := step_keeps he ht
  have hup := (effect_owner he).1
  have hslots : ∀ e ∈ tr ++ out, e.slot < c.slotCount := fun e hm =>
    (List.mem_append.mp hm).elim (h.slots e) (events_slot he ha e)
  refine ⟨effect_unborn he h.unborn, fun e hm => Nat.lt_of_lt_of_le (hslots e hm) hup,
    fun {a box'} hm halive hb' => ?_⟩
  by_cases hlt : a.slot < c.slotCount
  · obtain ⟨hm', hown⟩ := made_back he ht hr hm hlt
    have halive' : c.OwnerAlive a.slot := by
      unfold OwnerAlive at halive ⊢
      rw [hown] at halive
      exact hk.alive (hr.owners hlt) halive
    obtain ⟨box, hb, hall⟩ := mailStep_fifo he ht ha hm' halive' hb'
    rw [pops_append, hall, h.fifo hm' halive' hb, sends_append]
  · -- a slot made by this step: nothing in the trace or in the queue is about it yet
    have hnew : ∀ e ∈ tr ++ out, e.slot ≠ a.slot := fun e hm heq => hlt (heq ▸ hslots e hm)
    have hqueue : inTransit a c'.queue = [] := by
      simp only [inTransit, List.filterMap_eq_nil_iff]
      intro i hi
      cases i with
      | resume p n => rfl
      | message a' m =>
        have hne : a' ≠ a := by
          rintro rfl
          rcases effect_mentions he ht (.queued hi) with hq | hq
          · exact hlt (made_slot (ha _ hq)).1
          · exact hlt (made_slot hq).1
        simp [ToProcessItem.for?, hne]
    have hbox : box' = [] := by
      rcases box_back he hb' with ⟨box, hb⟩ | ⟨-, -, hb⟩
      · simp [h.unborn (Nat.le_of_not_lt hlt)] at hb
      · exact hb
    rw [pops_eq_nil hnew, sends_eq_nil hnew, hqueue, hbox]
    rfl

theorem delivers_init (main : σ) : (init main : Context σ μ).Delivers [] := by
  refine ⟨fun _ => rfl, by simp, fun {a l} hm => ?_⟩
  have := (made_slot hm).1
  simp [init] at this

end Context

/-- **Delivery is FIFO, without loss or duplication.** In every reachable state, for every slot that
exists of a process that is live: the values popped from it, then its contents, then its messages in
`queue_` are the messages passed to `queueSend` for it, in call order. A message is discarded only
when it is taken from the front of `queue_` and no live process has its pid. -/
theorem delivery_fifo {σ μ : Type} {code : Code σ μ} {main : σ} {tr : List (Event μ)}
    {c : Context σ μ} (h : code.RunsTo System.anyStep main tr c) :
    (∀ p s mq, (c.heap p).life = .running → s < c.slotCount → (c.slots s).owner = p →
      (c.slots s).queue = some mq →
      pops s tr ++ mq.contents ++ inTransit ⟨(c.heap p).pid, s⟩ c.queue =
        sends ⟨(c.heap p).pid, s⟩ tr) ∧
    ∀ l c' out a m, c.step code l = some (c', out) → .discarded a m ∈ out →
      c.queue.head? = some (.message a m) ∧
        ∀ o, (c.heap o).life = .running → (c.heap o).pid ≠ a.pid := by
  have ht := (Code.sound h).table
  have hd : c.Delivers tr := by
    refine (h.invariant (fun tr c => c.Sound ∧ c.Delivers tr)
      ⟨Context.sound_init main, Context.delivers_init main⟩ ?_).2
    rintro tr c l c' out ⟨hc, hd⟩ - hs
    have he := (Context.step_effect hs).2
    exact ⟨Context.effect_sound he hc,
      Context.effect_delivers he hc.table hc.refs hc.addressed hd⟩
  refine ⟨?_, ?_⟩
  · rintro p s mq hl hs rfl hq
    exact hd.fifo (a := ⟨_, s⟩) (by simp [Context.made, hs]) (.inr hl) (by simp [Context.mail, hq])
  · intro l c' out a m hs hm
    cases Context.effect_mail (Context.step_effect hs).2 with
    | quiet _ ho => simp [ho] at hm
    | enqueue _ ho _ =>
      rw [ho, List.mem_filterMap] at hm
      obtain ⟨i, -, hi⟩ := hm
      cases i <;> cases hi
    | newSlot _ _ ho => simp [ho] at hm
    | receive _ _ ho =>
      obtain ⟨s, m', he, -⟩ := ho _ hm
      cases he
    | drop _ _ ho => simp [ho] at hm
    | deliver _ _ _ _ ho => simp [ho] at hm
    | discard _ hq hf _ ho =>
      simp only [ho, List.mem_singleton, Event.discarded.injEq] at hm
      obtain ⟨rfl, rfl⟩ := hm
      refine ⟨by simp [hq], fun o hl hp => ?_⟩
      rw [Context.findProc_table, (Table.find_eq_some ht).mpr ⟨hl, hp⟩] at hf
      cases hf
    | resume _ _ _ ho => simp [ho] at hm

/-- `main` spawns a receiver (process 0, slot 0) and a sender of three messages; the receiver takes
one and then sleeps. -/
def threeMessages : Code Nat Nat where
  op
    | 0 => .spawn .plain 10 fun _ => 1
    | 1 => .spawn .plain 20 fun _ => 2
    | 10 => .newSlot fun _ => 11
    | 11 => .started 12
    | 12 => .awaitSuspend (.messages [0]) 13
    | 13 => .getVals [0] fun _ => 14
    | 14 => .awaitSuspend (.timeout 5) 15
    | 20 => .started 21
    | 21 => .send ⟨⟨0, 0⟩, 0⟩ 1 fun _ => 22
    | 22 => .send ⟨⟨0, 0⟩, 0⟩ 2 fun _ => 23
    | 23 => .send ⟨⟨0, 0⟩, 0⟩ 3 fun _ => 24
    | _ => .coReturn
  dtor _ := 99

/-- After some steps one message has been popped, one is in the slot and one is in `queue_`. -/
theorem delivery_three_messages :
    ∃ tr c mq, threeMessages.RunsTo System.anyStep 0 tr c ∧ (c.heap 0).life = .running ∧
      (c.slots 0).queue = some mq ∧ mq.contents = [.user 2] ∧ sends ⟨⟨0, 0⟩, 0⟩ tr =
        pops 0 tr ++ mq.contents ++ inTransit ⟨(c.heap 0).pid, 0⟩ c.queue ∧
      sends ⟨⟨0, 0⟩, 0⟩ tr = [.user 1, .user 2, .user 3] := by
  obtain ⟨tr, c, hr, hl, hs, ho, hp, hb, hall⟩ := System.exec_reaches (M := threeMessages.system)
    (g := fun _ _ => true) (G := System.anyStep) (fun _ _ _ => trivial)
    (w := List.replicate 23 .tick) (s := Context.init 0)
    (P := fun tr c => (c.heap 0).life = .running ∧ 0 < c.slotCount ∧ (c.slots 0).owner = 0 ∧
      (c.heap 0).pid = ⟨0, 0⟩ ∧ (c.slots 0).queue.map (·.contents) = some [.user 2] ∧
      sends ⟨⟨0, 0⟩, 0⟩ tr = [.user 1, .user 2, .user 3]) (by decide)
  obtain ⟨mq, hq, hc⟩ := Option.map_eq_some_iff.mp hb
  exact ⟨tr, c, mq, hr, hl, hq, hc, hp ▸ ((delivery_fifo hr).1 0 0 mq hl hs ho hq).symm, hall⟩

end Eslang
