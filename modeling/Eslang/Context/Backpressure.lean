import Eslang.Context.Delivery
import Eslang.Context.Sound

/-! # Back pressure: how many messages for one slot can be in flight

`sendThrottled` tests the length of `queue_` before one yield and the size of the slot after it. The
accounting is per sender: a sender that will pass the second test without another look at `queue_` is
`Unchecked`, and in every end part of `queue_` the messages for the slot and the unchecked senders
together are at most `10 + n`. A sender at the yield stays unchecked-free as long as its resume item is
still in `queue_`; a handler of the io_service that resumes it earlier breaks this. -/
namespace Eslang
set_option autoImplicit false
open Lib

def ToProcessItem.isFor {μ : Type} (s : SlotId) : ToProcessItem μ → Bool
  | .message a _ => decide (a.slot = s)
  | .resume _ _ => false

/-- The number of messages for slot `s` in a part of `queue_`. -/
def queuedFor {μ : Type} (s : SlotId) (l : List (ToProcessItem μ)) : Nat := l.countP (·.isFor s)

namespace Context
variable {σ μ : Type}

def slotSize (c : Context σ μ) (s : SlotId) : Nat :=
  match (c.slots s).queue with
  | some q => q.size
  | none => 0

/-- The messages for slot `s` in `queue_` and in the slot. -/
def inFlight (c : Context σ μ) (s : SlotId) : Nat := queuedFor s c.queue + c.slotSize s

/-- The only sends to slot `s` are `sendThrottled` calls of the processes in `S`, each awaited at once.
Calls in methods that were started eagerly are left out: they end in a `send` to the slot. -/
structure OnlyThrottled (code : Code σ μ) (S : Finset ObjId) (s : SlotId) (c : Context σ μ)
    (_ : Label) : Prop where
  send : ∀ role t rest a m k, c.stack = ⟨role, .code t⟩ :: rest → code.op t = .send a m k →
    a.slot ≠ s
  throttled : ∀ o t rest a m k, c.stack = ⟨.body o, .code t⟩ :: rest →
    code.op t = .sendThrottled a m k → a.slot = s → o ∈ S
  notify : ∀ o, c.Destroys o → ∀ a ∈ (c.heap o).notifyOnDie, a.slot ≠ s

/-! ## Senders inside `sendThrottled` -/

/-- `o` was resumed inside `sendThrottled` on slot `s` and is about to test the slot. -/
def Rechecks (c : Context σ μ) (s : SlotId) (o : ObjId) : Prop :=
  ∃ a m k, (⟨.body o, .throttled a m k⟩ : Frame σ μ) ∈ c.stack ∧ a.slot = s

/-- `o` is suspended inside `sendThrottled` on slot `s`. -/
def Throttles (c : Context σ μ) (s : SlotId) (o : ObjId) : Prop :=
  c.Idle o ∧ ∃ a m k, (c.heap o).task = .throttled a m k ∧ a.slot = s

/-- The item that `resume` queues for `o` when it yields. -/
def resumeItem (c : Context σ μ) (o : ObjId) : ToProcessItem μ :=
  .resume (c.heap o).pid (c.heap o).resumes

/-- `o` will test the slot without another look at `queue_`, of which `l` is left: it tests it now, or
it is suspended and does not have to wait for its resume item in `l`. -/
def Unchecked (c : Context σ μ) (s : SlotId) (l : List (ToProcessItem μ)) (o : ObjId) : Prop :=
  c.Rechecks s o ∨
    (c.Throttles s o ∧ ((c.heap o).lastWaiting = some .yield → c.resumeItem o ∉ l))

/-- A process that yields inside `sendThrottled` on slot `s` is resumed only by the loop over `queue_`,
and then no other item with its pid and count is queued. -/
def YieldsInOrder (s : SlotId) (c : Context σ μ) (_ : Label) : Prop :=
  ∀ o, c.Throttles s o → (c.heap o).lastWaiting = some .yield → c.Woken o →
    c.phase = .loop ∧ c.resumeItem o ∉ c.queue.tail

/-- Only the innermost running code can be inside `sendThrottled`. -/
def Shallow (c : Context σ μ) : Prop := ∀ f ∈ c.stack.tail, ∃ t, f.code = .code t

theorem effect_shallow {code : Code σ μ} {c c' : Context σ μ} {l : Label} {out : List (Event μ)}
    (he : Effect code c l out c') (h : c.Shallow) : c'.Shallow := by
  unfold Shallow at h ⊢
  cases effect_stack he with
  | same he => rwa [he]
  | goOn hs he => simpa [hs, he] using h
  | pop hs he =>
    rw [hs] at h
    rw [he]
    exact fun f hf => h f (List.mem_of_mem_tail hf)
  | @call role t ctor rest how k hs he =>
    rw [hs, List.tail_cons] at h
    rw [he, List.tail_cons, hs]
    intro f hf
    rcases List.mem_cons.mp hf with rfl | hf
    · exact ⟨t, rfl⟩
    · exact h f hf
  | ret hs he =>
    rw [hs, List.tail_cons] at h
    rw [he, List.tail_cons]
    exact fun f hf => h f (List.mem_cons_of_mem _ hf)
  | resumed hs hw hd hq he => simp [he]
  | enter hs hr he => simp [he]

theorem Shallow.notin_tail {c : Context σ μ} (h : c.Shallow) {r : Role} {a : SendAddress} {m : μ}
    {k : σ} : (⟨r, .throttled a m k⟩ : Frame σ μ) ∉ c.stack.tail := by
  intro hf
  obtain ⟨t, ht⟩ := h _ hf
  cases ht

theorem effect_rechecks {code : Code σ μ} {c c' : Context σ μ} {l : Label} {out : List (Event μ)}
    (he : Effect code c l out c') (hsh : c.Shallow) {s : SlotId} {o : ObjId}
    (h : c'.Rechecks s o) :
    (c.Rechecks s o ∧ c'.stack = c.stack) ∨
      (c.Woken o ∧ c.Throttles s o ∧ (c.phase = .loop → ∃ i, c.queue = i :: c'.queue)) := by
  obtain ⟨a, m, k, hf, rfl⟩ := h
  have hnot := hsh.notin_tail (r := .body o) (a := a) (m := m) (k := k)
  cases effect_stack he with
  | same hst => exact .inl ⟨⟨a, m, k, hst ▸ hf, rfl⟩, hst⟩
  | goOn hs hst =>
    rw [hs, List.tail_cons] at hnot
    simp [hst, hnot] at hf
  | pop hs hst =>
    rw [hs, List.tail_cons, ← hst] at hnot
    exact absurd hf hnot
  | call hs hst =>
    rw [hs, List.tail_cons] at hnot
    simp [hst, hs, hnot] at hf
  | ret hs hst =>
    rw [hs, List.tail_cons] at hnot
    simp only [hst, List.mem_cons, Frame.mk.injEq, reduceCtorEq, and_false, false_or] at hf
    exact absurd (List.mem_cons_of_mem _ hf) hnot
  | @resumed o' hs hw hd hq hst =>
    simp only [hst, List.mem_singleton, Frame.mk.injEq, Role.body.injEq] at hf
    obtain ⟨rfl, ht⟩ := hf
    exact .inr ⟨hw, ⟨⟨hd, by simp [table, hs]⟩, a, m, k, ht.symm, rfl⟩, hq⟩
  | enter hs hr hst => simp [hst] at hf

theorem effect_throttles {code : Code σ μ} {c c' : Context σ μ} {l : Label} {out : List (Event μ)}
    (he : Effect code c l out c') (hc : c.Sound) {s : SlotId} {o : ObjId} (h : c'.Throttles s o) :
    (c.Throttles s o ∧ c'.cells o = c.cells o) ∨
      ∃ a m k rest w, a.slot = s ∧ Awaits code c o rest w (.throttled a m k) ∧
        c' = { c with stack := rest }.suspended o w (.throttled a m k) := by
  obtain ⟨hidle, a, m, k, htask, rfl⟩ := h
  cases effect_idle he hc.table hc.refs hc.unstarted hidle with
  | same hold hcell =>
    have ht : (c'.heap o).task = (c.heap o).task := congrArg Cell.task hcell
    exact .inl ⟨⟨hold, a, m, k, ht ▸ htask, rfl⟩, hcell⟩
  | @suspend t rest w hw he' =>
    have hcell := congrArg (fun d : Context σ μ => (d.cells o).task) he'
    simp only [cells_suspended, Function.update_self] at hcell
    cases htask.symm.trans hcell
    exact .inr ⟨a, m, k, rest, w, rfl, hw, he'⟩
  | fresh hl hn ht =>
    obtain ⟨t, ht⟩ := ht
    cases htask.symm.trans ht

theorem effect_resumeItem {code : Code σ μ} {c c' : Context σ μ} {l : Label} {out : List (Event μ)}
    (he : Effect code c l out c') (hc : c.Sound) {o : ObjId} {w : Waiting}
    (hw : (c.heap o).lastWaiting = some w) (hcell : c'.cells o = c.cells o) :
    c'.resumeItem o = c.resumeItem o := by
  have hst : c.table.Started o := by
    by_contra hn
    cases hw.symm.trans (hc.unstarted o hn).1
  have hp := (step_keeps he hc.table).pid (hc.table.allocated hst.2)
  have hr : (c'.heap o).resumes = (c.heap o).resumes := congrArg Cell.resumes hcell
  rw [resumeItem, hp, hr, resumeItem]

/-- A step that sends to slot `s` is a `sendThrottled` that found the slot not full. -/
theorem effect_sends {code : Code σ μ} {c c' : Context σ μ} {l : Label} {out : List (Event μ)}
    (he : Effect code c l out c') {S : Finset ObjId} {s : SlotId} (hg : c.OnlyThrottled code S s l) :
    (∀ a m, .sent a m ∈ out → a.slot ≠ s) ∨
      ∃ o t rest a m k, c.stack = ⟨.body o, t⟩ :: rest ∧ AtCheck code c t a m k ∧
        c.canQueue a = .ok none ∧ a.slot = s ∧
        c' = (c.queueSend a (.user m)).continueWith (.body o) rest k := by
  cases he with
  | @send role t rest a m k hs hop hm s' =>
    refine .inl fun a' m' h => ?_
    simp only [List.mem_singleton, Event.sent.injEq] at h
    exact h.1 ▸ hg.send role t rest a m k hs hop
  | @throttleSend o t rest a m k hs ht hf =>
    by_cases ha : a.slot = s
    · exact .inr ⟨o, t, rest, a, m, k, hs, ht, hf, ha, rfl⟩
    · refine .inl fun a' m' h => ?_
      simp only [List.mem_singleton, Event.sent.injEq] at h
      exact h.1 ▸ ha
  | getVals hs hop ho s' =>
    refine .inl fun a m h => ?_
    obtain ⟨s', m', he, -⟩ := popped_poppedBy h
    cases he
  | @take i q hs hp hq =>
    refine .inl fun a m h => ?_
    cases i <;> simp only [processQueueItem] at h <;> split at h <;> simp at h
  | @destroy o reason rest hs hp hd =>
    refine .inl fun a m h => ?_
    obtain ⟨a', ha', he⟩ := List.mem_map.mp h
    cases he
    exact hg.notify o ⟨hs, hp, by simp [hd]⟩ a ha'
  | _ => exact .inl fun a m h => absurd h List.not_mem_nil

/-! ## The accounting -/

/-- The end part `l'` of the new `queue_` comes from the end part `l` of the old one. -/
inductive Part (c c' : Context σ μ) (l l' : List (ToProcessItem μ)) : Prop
  | append {items : List (ToProcessItem μ)} (h : c'.queue = c.queue ++ items) (hl : l' = l ++ items)
  | taken {i : ToProcessItem μ} (h : c.queue = i :: c'.queue) (hl : l' = l)

theorem Part.subset {c c' : Context σ μ} {l l' : List (ToProcessItem μ)} (h : Part c c' l l') :
    l ⊆ l' := by
  cases h with
  | append h hl => exact hl ▸ List.subset_append_left _ _
  | taken h hl => exact hl ▸ List.Subset.refl _

/-- A sender that yields waits for the item it has just queued. -/
theorem queue_yielded (c : Context σ μ) (o : ObjId) (t : Coro σ μ) :
    (c.suspended o .yield t).queue = c.queue ++ [(c.suspended o .yield t).resumeItem o] := by
  simp [suspended, arm, Waiting.isReadyForResume, queueResume, setWaiting, setProc, resumeItem]

/-- The steps that leave a sender unchecked: it was so before, or it has just found `queue_` short. -/
theorem effect_unchecked {code : Code σ μ} {c c' : Context σ μ} {l : Label} {out : List (Event μ)}
    (he : Effect code c l out c') (hc : c.Sound) (hsh : c.Shallow) {s : SlotId}
    (hg : c.YieldsInOrder s l) {q q' : List (ToProcessItem μ)} (hq' : q' <:+ c'.queue)
    (hp : Part c c' q q') {o : ObjId} (h : c'.Unchecked s q' o) :
    c.Unchecked s q o ∨ c.queue.length ≤ 10 ∧ c'.queue = c.queue := by
  rcases h with h | ⟨hthr, hy⟩
  · rcases effect_rechecks he hsh h with ⟨h, -⟩ | ⟨hw, ht, htake⟩
    · exact .inl (.inl h)
    · refine .inl (.inr ⟨ht, fun hyield hin => ?_⟩)
      obtain ⟨hloop, hnot⟩ := hg o ht hyield hw
      obtain ⟨i, hi⟩ := htake hloop
      rw [hi, List.tail_cons] at hnot
      exact hnot (hq'.subset (hp.subset hin))
  · rcases effect_throttles he hc hthr with ⟨hold, hcell⟩ | ⟨a, m, k, rest, w, ha, hw, he'⟩
    · refine .inl (.inr ⟨hold, fun hyield hin => hy ?_ ?_⟩)
      · exact (congrArg Cell.lastWaiting hcell).trans hyield
      · rw [effect_resumeItem he hc hyield hcell]
        exact hp.subset hin
    · cases hw with
      | yield hs hop hm hq =>
        have hqueue : c'.queue = c.queue ++ [c'.resumeItem o] := by
          rw [he']
          exact queue_yielded _ _ _
        have hwait : (c'.cells o).lastWaiting = some .yield := by
          rw [he', cells_suspended, Function.update_self]
          rfl
        exfalso
        cases hp with
        | append h hl =>
          have hitems := List.append_cancel_left (hqueue.symm.trans h)
          exact hy hwait (by simp [hl, ← hitems])
        | taken h hl =>
          have hlen := congrArg List.length h
          simp only [hqueue, List.length_cons, List.length_append] at hlen
          omega
      | throttle hs ht hf =>
        rcases ht with rfl | ⟨t, rfl, -, -, hshort⟩
        · exact .inl (.inl ⟨a, m, k, by simp [hs], ha⟩)
        · refine .inr ⟨hshort, ?_⟩
          obtain ⟨rfl, -⟩ := canQueue_some hf
          rw [he']
          exact (congrArg Mail.queue (mail_suspended _ _ _ _)).trans (List.append_nil _)

/-- The senders that are unchecked while `q` is left of `queue_`, with the messages for the slot in `q`,
are at most `10 + n`. -/
structure Accounted (S : Finset ObjId) (s : SlotId) (n : Nat) (c : Context σ μ) : Prop where
  shallow : c.Shallow
  senders : ∀ o, c.Rechecks s o ∨ c.Throttles s o → o ∈ S
  queued : ∀ (q : List (ToProcessItem μ)) (us : Finset ObjId), q <:+ c.queue →
    (∀ o ∈ us, c.Unchecked s q o) → queuedFor s q + us.card ≤ 10 + n

theorem Unchecked.inside {c : Context σ μ} {s : SlotId} {q : List (ToProcessItem μ)} {o : ObjId}
    (h : c.Unchecked s q o) : c.Rechecks s o ∨ c.Throttles s o := h.imp id And.left

theorem effect_senders {code : Code σ μ} {c c' : Context σ μ} {l : Label} {out : List (Event μ)}
    (he : Effect code c l out c') (hc : c.Sound) {S : Finset ObjId} {s : SlotId} (hsh : c.Shallow)
    (hg : c.OnlyThrottled code S s l) (h : ∀ o, c.Rechecks s o ∨ c.Throttles s o → o ∈ S)
    {o : ObjId} (ho : c'.Rechecks s o ∨ c'.Throttles s o) : o ∈ S := by
  rcases ho with ho | ho
  · rcases effect_rechecks he hsh ho with ⟨ho, -⟩ | ⟨-, ho, -⟩
    · exact h o (.inl ho)
    · exact h o (.inr ho)
  · rcases effect_throttles he hc ho with ⟨ho, -⟩ | ⟨a, m, k, rest, w, ha, hw, -⟩
    · exact h o (.inr ho)
    · cases hw with
      | yield hs hop hm hq => exact hg.throttled o _ rest a m k hs hop ha
      | throttle hs ht hf =>
        rcases ht with rfl | ⟨t, rfl, hop, -, -⟩
        · exact h o (.inl ⟨a, m, k, by simp [hs], ha⟩)
        · exact hg.throttled o t rest a m k hs hop ha

theorem queuedFor_append (s : SlotId) (q items : List (ToProcessItem μ)) :
    queuedFor s (q ++ items) = queuedFor s q + queuedFor s items := List.countP_append

theorem queuedFor_eq_zero {s : SlotId} {items : List (ToProcessItem μ)}
    (h : ∀ a m, .message a m ∈ items → a.slot ≠ s) : queuedFor s items = 0 := by
  refine List.countP_eq_zero.mpr fun i hi => ?_
  cases i with
  | resume p k => simp [ToProcessItem.isFor]
  | message a m => simpa [ToProcessItem.isFor] using h a m hi

theorem suffix_append_cases {α : Type} {q queue items : List α} (h : q <:+ queue ++ items) :
    (∃ q₀, q₀ <:+ queue ∧ q = q₀ ++ items) ∨ q <:+ items := by
  rcases List.suffix_or_suffix_of_suffix h (List.suffix_append queue items) with hq | ⟨q₀, rfl⟩
  · exact .inr hq
  · obtain ⟨p, hp⟩ := h
    rw [← List.append_assoc] at hp
    exact .inl ⟨q₀, ⟨p, List.append_cancel_right hp⟩, rfl⟩

/-- Few messages leave room for every sender. -/
theorem accounted_of_short {S : Finset ObjId} {s : SlotId} {n : Nat} (hS : S.card ≤ n)
    {q : List (ToProcessItem μ)} {us : Finset ObjId} (hq : queuedFor s q ≤ 10) (hus : us ⊆ S) :
    queuedFor s q + us.card ≤ 10 + n :=
  Nat.add_le_add hq ((Finset.card_le_card hus).trans hS)

theorem effect_queued_quiet {code : Code σ μ} {c c' : Context σ μ} {l : Label}
    {out : List (Event μ)} (he : Effect code c l out c') (hc : c.Sound) {S : Finset ObjId}
    {s : SlotId} {n : Nat} (hS : S.card ≤ n) (hg : c.YieldsInOrder s l) (h : c.Accounted S s n)
    (hout : ∀ a m, .sent a m ∈ out → a.slot ≠ s) {q' : List (ToProcessItem μ)} {us : Finset ObjId}
    (hq' : q' <:+ c'.queue) (hus : ∀ o ∈ us, c'.Unchecked s q' o) (hsub : us ⊆ S) :
    queuedFor s q' + us.card ≤ 10 + n := by
  have hpart : queuedFor s q' = 0 ∨
      ∃ q, q <:+ c.queue ∧ Part c c' q q' ∧ queuedFor s q' = queuedFor s q := by
    rcases effect_queue he with ⟨items, hitems, hsent, -⟩ | ⟨-, i, hi⟩
    · have hzero : queuedFor s items = 0 :=
        queuedFor_eq_zero fun a m hin => hout a m (hsent a m hin)
      rcases suffix_append_cases (hitems ▸ hq') with ⟨q, hq, rfl⟩ | hq
      · exact .inr ⟨q, hq, .append hitems rfl, by rw [queuedFor_append, hzero, Nat.add_zero]⟩
      · exact .inl (Nat.le_zero.mp (hzero ▸ hq.sublist.countP_le))
    · exact .inr ⟨q', hi ▸ hq'.trans (List.suffix_cons i _), .taken hi rfl, rfl⟩
  rcases hpart with hzero | ⟨q, hq, hp, heq⟩
  · exact accounted_of_short hS (hzero ▸ Nat.zero_le _) hsub
  · by_cases hall : ∀ o ∈ us, c.Unchecked s q o
    · rw [heq]
      exact h.queued q us hq hall
    · push Not at hall
      obtain ⟨o, ho, hnot⟩ := hall
      obtain ⟨hshort, -⟩ :=
        (effect_unchecked he hc h.shallow hg hq' hp (hus o ho)).resolve_left hnot
      refine accounted_of_short hS ?_ hsub
      rw [heq]
      exact (List.countP_le_length.trans hq.length_le).trans hshort

/-- A `sendThrottled` that queues its message takes one sender off the account. -/
theorem effect_queued_send {code : Code σ μ} {c : Context σ μ} {S : Finset ObjId} {s : SlotId}
    {n : Nat} (hS : S.card ≤ n) (h : c.Accounted S s n) {o : ObjId} {t : Coro σ μ}
    {rest : List (Frame σ μ)} {a : SendAddress} {m : μ} {k : σ} (hs : c.stack = ⟨.body o, t⟩ :: rest)
    (ht : AtCheck code c t a m k) (ha : a.slot = s) (ho : o ∈ S) {q' : List (ToProcessItem μ)}
    {us : Finset ObjId} (hq' : q' <:+ ((c.queueSend a (.user m)).continueWith (.body o) rest k).queue)
    (hus : ∀ o' ∈ us, ((c.queueSend a (.user m)).continueWith (.body o) rest k).Unchecked s q' o')
    (hsub : us ⊆ S) : queuedFor s q' + us.card ≤ 10 + n := by
  have hroles : ((c.queueSend a (.user m)).continueWith (.body o) rest k).table.roles =
      c.table.roles := by
    simp [table_continueWith, roles_top hs]
  have hback : ∀ o' ∈ us, c.Throttles s o' ∧
      ((c.heap o').lastWaiting = some .yield → c.resumeItem o' ∉ q') := by
    intro o' ho'
    rcases hus o' ho' with ⟨a', m', k', hf, -⟩ | ⟨⟨⟨hd, hb⟩, htask⟩, hy⟩
    · have hnot := h.shallow.notin_tail (r := .body o') (a := a') (m := m') (k := k')
      rw [hs, List.tail_cons] at hnot
      simp [continueWith, hnot] at hf
    · exact ⟨⟨⟨hd, hroles ▸ hb⟩, htask⟩, hy⟩
  have hne : o ∉ us := by
    intro hin
    exact (hback o hin).1.1.2 (by simp [roles_top hs])
  rcases suffix_append_cases hq' with ⟨q, hq, rfl⟩ | hq
  · have hone : queuedFor s (q ++ [.message a (.user m)]) = queuedFor s q + 1 := by
      simp [queuedFor, ToProcessItem.isFor, ha]
    have hold : ∀ o' ∈ us, c.Unchecked s q o' := fun o' ho' =>
      .inr ⟨(hback o' ho').1, fun hy hin =>
        (hback o' ho').2 hy (List.mem_append_left _ hin)⟩
    rw [hone]
    rcases ht with rfl | ⟨t, rfl, -, -, hshort⟩
    · have hself : c.Unchecked s q o := .inl ⟨a, m, k, by simp [hs], ha⟩
      have hall := h.queued q (insert o us) hq fun o' ho' =>
        (Finset.mem_insert.mp ho').elim (fun he => he ▸ hself) (hold o')
      rw [Finset.card_insert_of_notMem hne] at hall
      omega
    · have hlt : us.card < S.card :=
        Finset.card_lt_card ⟨hsub, fun hss => hne (hss ho)⟩
      have hlen : queuedFor s q ≤ 10 := (List.countP_le_length.trans hq.length_le).trans hshort
      omega
  · exact accounted_of_short hS ((List.countP_le_length.trans hq.length_le).trans (by simp)) hsub

theorem effect_accounted {code : Code σ μ} {c c' : Context σ μ} {l : Label} {out : List (Event μ)}
    (he : Effect code c l out c') (hc : c.Sound) {S : Finset ObjId} {s : SlotId} {n : Nat}
    (hS : S.card ≤ n) (hg : c.OnlyThrottled code S s l) (hy : c.YieldsInOrder s l)
    (h : c.Accounted S s n) : c'.Accounted S s n := by
  have hsenders : ∀ o, c'.Rechecks s o ∨ c'.Throttles s o → o ∈ S :=
    fun o => effect_senders he hc h.shallow hg h.senders
  refine ⟨effect_shallow he h.shallow, hsenders, fun q us hq hus => ?_⟩
  have hsub : us ⊆ S := fun o ho => hsenders o (hus o ho).inside
  rcases effect_sends he hg with hout | ⟨o, t, rest, a, m, k, hs, ht, hf, ha, rfl⟩
  · exact effect_queued_quiet he hc hS hy h hout hq hus hsub
  · refine effect_queued_send hS h hs ht ha ?_ hq hus hsub
    rcases ht with rfl | ⟨t, rfl, hop, -, -⟩
    · exact h.senders o (.inl ⟨a, m, k, by simp [hs], ha⟩)
    · exact hg.throttled o t rest a m k hs hop ha

theorem accounted_init (main : σ) (S : Finset ObjId) (s : SlotId) (n : Nat) (hS : S.card ≤ n) :
    (init main : Context σ μ).Accounted S s n := by
  have hout : ∀ o, ¬ ((init main : Context σ μ).Rechecks s o ∨ (init main : Context σ μ).Throttles s o) := by
    rintro o (⟨a, m, k, hf, -⟩ | ⟨-, a, m, k, ht, -⟩)
    · simp [init] at hf
    · cases ht
  refine ⟨by simp [Shallow, init], fun o h => absurd h (hout o), fun q us hq hus => ?_⟩
  obtain rfl : q = [] := List.suffix_nil.mp hq
  exact accounted_of_short hS (by simp [queuedFor]) fun o ho => absurd (hus o ho).inside (hout o)

/-! ## The bound -/

theorem slotSize_eq (c : Context σ μ) (s : SlotId) :
    c.slotSize s = ((c.mail.box s).map List.length).getD 0 := by
  show c.slotSize s = (((c.slots s).queue.map (·.contents)).map List.length).getD 0
  unfold slotSize
  cases (c.slots s).queue with
  | none => rfl
  | some q => exact q.size_eq

/-- `canQueue` lets a send to an owner that is alive pass only when its slot is not full. -/
theorem slotSize_of_canQueue {c : Context σ μ} (ht : c.table.Ok) {a : SendAddress}
    (hm : c.made a = true) (hl : c.OwnerAlive a.slot) (h : c.canQueue a = .ok none) :
    c.slotSize a.slot ≤ 9 := by
  obtain ⟨-, hpid⟩ := made_slot hm
  rcases hl with hl | hl
  · have hentry := (ht.building (o := (c.slots a.slot).owner) hl).1
    have hentry : c.processes[a.pid.idx]? = some none := hpid ▸ hentry
    simp [canQueue, findProcConst, hentry] at h
  · have hentry := ht.live (o := (c.slots a.slot).owner) hl
    have hentry : c.processes[a.pid.idx]? = some (some (c.slots a.slot).owner) := hpid ▸ hentry
    simp only [canQueue, findProcConst, hentry, hpid, if_true] at h
    unfold slotSize
    split at h
    · cases h
    next q hq =>
      have hfull : ¬ 10 ≤ q.size := by
        intro hfull
        simp [MessageQueue.shouldThrottle, MessageQueue.kThrottle, hfull] at h
      simp only [hq]
      omega

theorem slotSize_of_box {c c' : Context σ μ} {s : SlotId} (h : c'.mail.box s = c.mail.box s) :
    c'.slotSize s = c.slotSize s := by
  rw [slotSize_eq, slotSize_eq, h]

theorem effect_inFlight_quiet {code : Code σ μ} {c c' : Context σ μ} {l : Label}
    {out : List (Event μ)} (he : Effect code c l out c') {s : SlotId}
    (hout : ∀ a m, .sent a m ∈ out → a.slot ≠ s) :
    c'.inFlight s ≤ c.inFlight s ∨ c'.inFlight s = queuedFor s c'.queue := by
  have hbox {d : Mail μ} (h : c'.mail = d) : c'.mail.box s = d.box s :=
    congrArg (fun d : Mail μ => d.box s) h
  unfold inFlight
  cases effect_mail he with
  | quiet h ho =>
    have hq : c'.queue = c.queue := congrArg Mail.queue h
    rw [hq, slotSize_of_box (hbox h)]
    exact .inl le_rfl
  | @enqueue items h ho hm =>
    have hq : c'.queue = c.queue ++ items := congrArg Mail.queue h
    have hb : c'.mail.box s = c.mail.box s := by rw [h]
    have hzero : queuedFor s items = 0 := by
      refine queuedFor_eq_zero fun a m hin => hout a m ?_
      rw [ho]
      exact List.mem_filterMap.mpr ⟨_, hin, rfl⟩
    rw [hq, slotSize_of_box hb, queuedFor_append, hzero]
    exact .inl le_rfl
  | newSlot h hn ho =>
    have hq : c'.queue = c.queue := congrArg Mail.queue h
    by_cases hs : s = c.slotCount
    · right
      rw [slotSize_eq, hbox h]
      simp [hs]
    · rw [hq, slotSize_of_box ((hbox h).trans (Function.update_of_ne hs _ _))]
      exact .inl le_rfl
  | receive hq hb ho =>
    left
    rw [hq, slotSize_eq, slotSize_eq, hb s]
    cases c'.mail.box s <;> simp
  | drop hq hb ho =>
    rw [hq]
    rcases hb s with hb | hb
    · rw [slotSize_of_box hb]
      exact .inl le_rfl
    · rw [slotSize_eq c', hb]
      exact .inl (Nat.add_le_add_left (Nat.zero_le _) _)
  | @deliver a m o q hs hq hf h ho =>
    have hq' : c'.queue = q := congrArg Mail.queue h
    left
    rw [hq, hq', slotSize_eq, slotSize_eq, hbox h]
    by_cases ha : a.slot = s
    · subst ha
      simp only [Function.update_self, queuedFor, List.countP_cons, ToProcessItem.isFor]
      cases c.mail.box a.slot with
      | none => simp
      | some box =>
        simp
        omega
    · simp only [Function.update_of_ne (Ne.symm ha), queuedFor, List.countP_cons,
        ToProcessItem.isFor, ha]
      simp
  | @discard a m q hs hq hf h ho =>
    have hq' : c'.queue = q := congrArg Mail.queue h
    have hb : c'.mail.box s = c.mail.box s := by rw [h]
    rw [hq, hq', slotSize_of_box hb]
    exact .inl (Nat.add_le_add_right (List.Sublist.countP_le (List.sublist_cons_self _ _)) _)
  | @resume p n q hs hq h ho =>
    have hq' : c'.queue = q := congrArg Mail.queue h
    have hb : c'.mail.box s = c.mail.box s := by rw [h]
    rw [hq, hq', slotSize_of_box hb]
    exact .inl (Nat.add_le_add_right (List.Sublist.countP_le (List.sublist_cons_self _ _)) _)

/-- What is in flight for a slot whose owner is alive is bounded. -/
structure Bounded (s : SlotId) (n : Nat) (c : Context σ μ) : Prop where
  unborn : ∀ {s}, c.slotCount ≤ s → c.mail.box s = none
  total : c.OwnerAlive s → c.inFlight s ≤ 19 + n

theorem effect_bounded {code : Code σ μ} {c c' : Context σ μ} {l : Label} {out : List (Event μ)}
    (he : Effect code c l out c') (hc : c.Sound) {S : Finset ObjId} {s : SlotId} {n : Nat}
    (hg : c.OnlyThrottled code S s l) (hold : c.Accounted S s n) (hnew : c'.Accounted S s n)
    (h : c.Bounded s n) : c'.Bounded s n := by
  have hqueued {d : Context σ μ} (hd : d.Accounted S s n) : queuedFor s d.queue ≤ 10 + n := by
    simpa using hd.queued d.queue ∅ List.suffix_rfl (by simp)
  refine ⟨effect_unborn he h.unborn, fun hlive => ?_⟩
  rcases effect_sends he hg with hout | ⟨o, t, rest, a, m, k, hs, ht, hf, rfl, rfl⟩
  · rcases effect_inFlight_quiet he hout with hle | heq
    · apply hle.trans
      by_cases hlt : s < c.slotCount
      · apply h.total
        unfold OwnerAlive at hlive ⊢
        rw [(effect_owner he).2 s hlt] at hlive
        exact (step_keeps he hc.table).alive (hc.refs.owners hlt) hlive
      · have hzero : c.slotSize s = 0 := by
          rw [slotSize_eq, h.unborn (Nat.le_of_not_lt hlt)]
          rfl
        have := hqueued hold
        unfold inFlight
        omega
    · have := hqueued hnew
      omega
  · have hm : c.made a = true := (atCheck_made hs ht).elim (hc.addressed a) id
    have hsize : c.slotSize a.slot ≤ 9 := slotSize_of_canQueue hc.table hm hlive hf
    have heq : ((c.queueSend a (.user m)).continueWith (.body o) rest k).inFlight a.slot =
        queuedFor a.slot ((c.queueSend a (.user m)).continueWith (.body o) rest k).queue +
          c.slotSize a.slot := rfl
    have := hqueued hnew
    omega

theorem bounded_init (main : σ) (s : SlotId) (n : Nat) : (init main : Context σ μ).Bounded s n :=
  ⟨fun _ => rfl, fun _ => Nat.zero_le _⟩

end Context

theorem Code.senders_known {σ μ : Type} {code : Code σ μ} {ok : Context σ μ → Label → Prop}
    {main : σ} {tr : List (Event μ)} {c : Context σ μ} {S : Finset ObjId} {s : SlotId}
    (hok : ∀ c l, ok c l → c.OnlyThrottled code S s l) (h : code.RunsTo ok main tr c) {o : ObjId}
    (ho : c.Throttles s o) : o ∈ S := by
  have hstart := Context.accounted_init (μ := μ) main S s S.card le_rfl
  have hinv : c.Shallow ∧ ∀ o, c.Rechecks s o ∨ c.Throttles s o → o ∈ S := by
    refine h.invariant_of Context.Sound
      (fun c => c.Shallow ∧ ∀ o, c.Rechecks s o ∨ c.Throttles s o → o ∈ S) Code.sound
      ⟨hstart.shallow, hstart.senders⟩ fun c l _ _ hc hi hg hs => ?_
    have he := (Context.step_effect hs).2
    exact ⟨Context.effect_shallow he hi.1,
      fun o => Context.effect_senders he hc hi.1 (hok c l hg) hi.2⟩
  exact hinv.2 o (.inr ho)

/-- **Back pressure is bounded**: in a run in which the only sends to slot `s` are `sendThrottled` calls
of at most `n` processes, and in which a sender that yields is resumed only by its own item of
`queue_`, at most `19 + n` messages for `s` are in flight while its owner is live. -/
theorem backpressure_bounded {σ μ : Type} {code : Code σ μ} {main : σ} {tr : List (Event μ)}
    {c : Context σ μ} {S : Finset ObjId} {s : SlotId} {n : Nat} (hS : S.card ≤ n)
    (h : code.RunsTo (fun c l => c.OnlyThrottled code S s l ∧ c.YieldsInOrder s l) main tr c)
    (hlive : (c.heap (c.slots s).owner).life = .running) : c.inFlight s ≤ 19 + n := by
  have hb : c.Accounted S s n ∧ c.Bounded s n := by
    refine h.invariant_of Context.Sound (fun c => c.Accounted S s n ∧ c.Bounded s n) Code.sound
      ⟨Context.accounted_init main S s n hS, Context.bounded_init main s n⟩
      fun _ _ _ _ hc hi hg hs => ?_
    have he := (Context.step_effect hs).2
    have hnew := Context.effect_accounted he hc hS hg.1 hg.2 hi.1
    exact ⟨hnew, Context.effect_bounded he hc hg.1 hi.1 hnew hi.2⟩
  exact hb.2.total (.inr hlive)

/-- A receiver that never pops (process 0, slot 0), a sender (process 1) that sends nine messages, waits
on promise 0 for at most a millisecond and then sends for ever, and a process that sets promise 0. -/
def timeoutAndPromise : Code Nat Unit where
  op n :=
    match n with
    | 0 => .newPromise fun _ => 1
    | 1 => .spawn .plain 10 fun _ => 2
    | 2 => .spawn .plain 20 fun _ => 3
    | 3 => .spawn .plain 40 fun _ => 4
    | 10 => .newSlot fun _ => 11
    | 11 => .started 12
    | 12 => .awaitSuspend .always 13
    | 20 => .started 21
    | 30 => .awaitSuspend (.withTimeout 1 (.future (.user 0))) 31
    | 31 => .sendThrottled ⟨⟨0, 0⟩, 0⟩ () 31
    | 40 => .started 41
    | 41 => .setIfUnset 0 42
    | 42 => .awaitSuspend .always 43
    | n => if 20 < n ∧ n < 30 then .sendThrottled ⟨⟨0, 0⟩, 0⟩ () (n + 1) else .coReturn
  dtor _ := 99

/-- Nobody dies, nobody calls `send`, and only process `p` calls `sendThrottled`. -/
def Context.soleSender {σ μ : Type} (code : Code σ μ) (p : ObjId) (c : Context σ μ) : Bool :=
  c.toDestroy.isEmpty &&
    match c.stack with
    | ⟨role, .code t⟩ :: _ =>
        match code.op t with
        | .send _ _ _ => false
        | .sendThrottled _ _ _ => decide (role = .body p)
        | _ => true
    | _ => true

theorem Context.onlyThrottled_of_soleSender {σ μ : Type} {code : Code σ μ} {p : ObjId}
    {c : Context σ μ} (h : c.soleSender code p = true) (s : SlotId) (l : Label) :
    c.OnlyThrottled code {p} s l := by
  simp only [soleSender, Bool.and_eq_true, List.isEmpty_iff] at h
  obtain ⟨hd, h⟩ := h
  refine ⟨fun role t rest a m k hs hop => ?_, fun o t rest a m k hs hop _ => ?_, fun o hdes => ?_⟩
  · simp [hs, hop] at h
  · simpa [hs, hop] using h
  · simp [Destroys, hd] at hdes

/-- Woken by the promise alone, the sender fills `queue_` up to the bound. -/
theorem backpressure_twenty :
    ∃ tr c, timeoutAndPromise.RunsTo (fun c l => c.OnlyThrottled timeoutAndPromise {1} 0 l ∧
      c.YieldsInOrder 0 l) 0 tr c ∧ (c.heap (c.slots 0).owner).life = .running ∧
      c.inFlight 0 = 20 ∧ c.inFlight 0 ≤ 19 + 1 := by
  obtain ⟨tr, c, hr, hl, hf⟩ := System.exec_reaches (M := timeoutAndPromise.system)
    (g := fun c _ => c.soleSender timeoutAndPromise 1 &&
      decide ((c.heap 1).lastWaiting ≠ some .yield))
    (G := fun c l => c.OnlyThrottled timeoutAndPromise {1} 0 l ∧
      (c.heap 1).lastWaiting ≠ some .yield)
    (fun c l hg => by
      rw [Bool.and_eq_true] at hg
      exact ⟨Context.onlyThrottled_of_soleSender hg.1 0 l, of_decide_eq_true hg.2⟩)
    (w := List.replicate 59 .tick) (s := Context.init 0)
    (P := fun _ c => (c.heap (c.slots 0).owner).life = .running ∧ c.inFlight 0 = 20) (by decide +kernel)
  have hrun := hr.guard_of (k := fun c l => c.OnlyThrottled timeoutAndPromise {1} 0 l ∧
      c.YieldsInOrder 0 l) (fun c => ∀ o, c.Throttles 0 o → o ∈ ({1} : Finset ObjId))
    (fun h o => Code.senders_known (fun _ _ hg => hg.1) h) fun c l hk hg =>
      ⟨hg.1, fun o ho hy _ => by
        cases Finset.mem_singleton.mp (hk o ho)
        exact absurd hy hg.2⟩
  exact ⟨tr, c, hrun, hl, hf, backpressure_bounded (by decide) hrun hl⟩

/-- The expired timer resumes the sender that has yielded, and it sends the twenty-first message. -/
theorem backpressure_twenty_one :
    ∃ tr c, timeoutAndPromise.RunsTo (fun c l => c.OnlyThrottled timeoutAndPromise {1} 0 l) 0 tr c ∧
      (c.heap (c.slots 0).owner).life = .running ∧ ¬ c.inFlight 0 ≤ 19 + 1 := by
  obtain ⟨tr, c, hr, hl, hf⟩ := System.exec_reaches (M := timeoutAndPromise.system)
    (g := fun c _ => c.soleSender timeoutAndPromise 1)
    (G := fun c l => c.OnlyThrottled timeoutAndPromise {1} 0 l)
    (fun c l hg => Context.onlyThrottled_of_soleSender hg 0 l)
    (w := List.replicate 47 .tick ++ [.expire 0] ++ List.replicate 16 .tick) (s := Context.init 0)
    (P := fun _ c => (c.heap (c.slots 0).owner).life = .running ∧ ¬ c.inFlight 0 ≤ 19 + 1)
    (by decide)
  exact ⟨tr, c, hr, hl, hf⟩

end Eslang
