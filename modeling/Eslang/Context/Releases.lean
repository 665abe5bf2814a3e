import Eslang.Context.EventLoop

/-! # Where a posted continuation comes from

A continuation is posted by the call that sets the promise which stores it: `setIfUnset` and `setException`, a
pop that takes a slot below `kThrottle`, and the end of a slot. `Sets` reads these promises off the call, and
`effect_posts` says that nothing else is posted, but for the continuation of a process that suspends on a
promise which is set already. -/
namespace Eslang
set_option autoImplicit false
open Lib

namespace Context
variable {σ μ : Type}

/-- The next step ends the life of the members of `o`: its destructor returns or its constructor throws. -/
def Drops (code : Code σ μ) (c : Context σ μ) (o : ObjId) : Prop :=
  ∃ s rest, (c.stack = ⟨.dtor o, .code s⟩ :: rest ∧ code.op s = .coReturn) ∨
    ∃ e, c.stack = ⟨.ctor o, .code s⟩ :: rest ∧ code.op s = .throw e

/-- The code that runs is about to destroy slot `s`. -/
def DropsSlot (code : Code σ μ) (c : Context σ μ) (s : SlotId) : Prop :=
  ∃ role s₀ rest k, c.stack = ⟨role, .code s₀⟩ :: rest ∧ code.op s₀ = .dropSlot s k

/-- The call that the running code is about to make sets promise `f`, if it is not set. -/
inductive Sets (code : Code σ μ) (c : Context σ μ) : PromiseRef → Prop
  | set {role s rest n k} (hs : c.stack = ⟨role, .code s⟩ :: rest) (hop : code.op s = .setIfUnset n k) :
      Sets code c (.user n)
  | raise {role s rest n e k} (hs : c.stack = ⟨role, .code s⟩ :: rest)
      (hop : code.op s = .setException n e k) : Sets code c (.user n)
  | pop {role s rest ss k x} (hs : c.stack = ⟨role, .code s⟩ :: rest) (hop : code.op s = .getVals ss k)
      (hx : x ∈ ss) (hc : c.crossesThrottle ss x = true) : Sets code c (.throttle x)
  | dropSlot {x} (hd : DropsSlot code c x) : Sets code c (.throttle x)
  | drop {o x} (hd : Drops code c o) (hx : (c.slots x).owner = o) : Sets code c (.throttle x)

/-- Promise `f` is not set and stores `k`. -/
def Stores (c : Context σ μ) (f : PromiseRef) (k : Continuation) : Prop :=
  ∃ p, c.promise f = some p ∧ p.set_ = false ∧ p.exec_ = some k

theorem Sets.stack {code : Code σ μ} {c : Context σ μ} {f : PromiseRef} (h : Sets code c f) :
    c.stack ≠ [] := by
  cases h with
  | set hs _ => simp [hs]
  | raise hs _ => simp [hs]
  | pop hs _ _ _ => simp [hs]
  | dropSlot hd =>
    obtain ⟨role, s, rest, k, hs, -⟩ := hd
    simp [hs]
  | drop hd _ =>
    obtain ⟨s, rest, ⟨hs, -⟩ | ⟨e, hs, -⟩⟩ := hd <;> simp [hs]

theorem stores_of_setIfUnset {c : Context σ μ} {f : PromiseRef} {p : EslangPromise Continuation}
    {k : Continuation} (hp : c.promise f = some p) (hk : k ∈ p.setIfUnset.2) : c.Stores f k := by
  unfold EslangPromise.setIfUnset EslangPromise.set at hk
  cases hset : p.set_ with
  | true => simp [hset] at hk
  | false => exact ⟨p, hp, hset, by simpa [hset] using hk⟩

theorem mem_ready_post {c : Context σ μ} {fs : List Continuation} {k : Continuation}
    (h : .continuation k ∈ (c.post fs).io.ready) : .continuation k ∈ c.io.ready ∨ k ∈ fs := by
  rcases List.mem_append.mp h with h | h
  · exact .inl h
  · obtain ⟨k', hk, he⟩ := List.mem_map.mp h
    cases he
    exact .inr hk

theorem onPromise_posts {c : Context σ μ} {f : PromiseRef}
    {act : EslangPromise Continuation → EslangPromise Continuation × List Continuation}
    {k : Continuation} (h : .continuation k ∈ (c.onPromise f act).io.ready) :
    .continuation k ∈ c.io.ready ∨ ∃ p, c.promise f = some p ∧ k ∈ (act p).2 := by
  unfold onPromise at h
  split at h
  · exact .inl h
  next p hp =>
    refine (mem_ready_post h).imp (fun h => ?_) fun h => ⟨p, hp, h⟩
    rwa [io_setPromise] at h

/-! ## Slots -/

theorem dropSlot_posts {c : Context σ μ} {s : SlotId} {k : Continuation}
    (h : .continuation k ∈ (c.dropSlot s).io.ready) :
    .continuation k ∈ c.io.ready ∨ c.Stores (.throttle s) k := by
  unfold dropSlot at h
  split at h
  · exact .inl h
  next q hq => exact (mem_ready_post h).imp id (stores_of_setIfUnset (by simp [promise, hq]))

theorem stores_dropSlot {c : Context σ μ} {s : SlotId} {f : PromiseRef} {k : Continuation}
    (h : (c.dropSlot s).Stores f k) : c.Stores f k := by
  unfold dropSlot at h
  split at h
  · exact h
  · obtain ⟨p, hp, hk⟩ := h
    have hp : (c.setQueue s none).promise f = some p := by cases f <;> exact hp
    by_cases hf : f = .throttle s
    · rw [hf, promise_setQueue_self] at hp
      cases hp
    · exact ⟨p, promise_setQueue_ne none hf ▸ hp, hk⟩

theorem dropSlots_posts {c : Context σ μ} {o : ObjId} {k : Continuation}
    (h : .continuation k ∈ (c.dropSlots o).io.ready) :
    .continuation k ∈ c.io.ready ∨ ∃ x, (c.slots x).owner = o ∧ c.Stores (.throttle x) k := by
  have hall : ∀ (ss : List SlotId) (d : Context σ μ), .continuation k ∈ (ss.foldl dropSlot d).io.ready →
      .continuation k ∈ d.io.ready ∨ ∃ x ∈ ss, d.Stores (.throttle x) k := by
    intro ss
    induction ss with
    | nil => exact fun d hd => .inl hd
    | cons s ss ih =>
      intro d hd
      rcases ih (d.dropSlot s) hd with hd | ⟨x, hx, hk⟩
      · exact (dropSlot_posts hd).imp id fun hk => ⟨s, List.mem_cons_self, hk⟩
      · exact .inr ⟨x, List.mem_cons_of_mem _ hx, stores_dropSlot hk⟩
  refine (hall _ c h).imp id fun ⟨x, hx, hk⟩ => ⟨x, ?_, hk⟩
  simpa using (List.mem_filter.mp hx).2

/-- What one pop posts and leaves behind, seen from the pops of `s :: ss`. -/
theorem getOptional_posts (c : Context σ μ) (s : SlotId) (ss : List SlotId) (k : Continuation) :
    (.continuation k ∈ (c.getOptional s).2.io.ready → .continuation k ∈ c.io.ready ∨
        c.crossesThrottle (s :: ss) s = true ∧ c.Stores (.throttle s) k) ∧
      ∀ x, (c.getOptional s).2.crossesThrottle ss x = true → (c.getOptional s).2.Stores (.throttle x) k →
        c.crossesThrottle (s :: ss) x = true ∧ c.Stores (.throttle x) k := by
  have hcross : ∀ x, c.crossesThrottle ss x = true → c.crossesThrottle (s :: ss) x = true := by
    intro x hx
    have hcount : ss.count x ≤ (s :: ss).count x := List.count_le_count_cons
    cases hq : (c.slots x).queue with
    | none => simp [crossesThrottle, hq] at hx
    | some q =>
      simp only [crossesThrottle, hq, Option.any_some, Bool.and_eq_true, decide_eq_true_eq] at hx ⊢
      omega
  unfold getOptional
  split
  · exact ⟨.inl, fun x hx hk => ⟨hcross x hx, hk⟩⟩
  next q hq =>
    split
    · exact ⟨.inl, fun x hx hk => ⟨hcross x hx, hk⟩⟩
    next m q' posted hp =>
      have hsize := MessageQueue.size_pop hp
      have hcount : (s :: ss).count s = ss.count s + 1 := List.count_cons_self
      have hprom : c.promise (.throttle s) = some q.p_ := by simp [promise, hq]
      refine ⟨fun h => ?_, fun x hx hk => ?_⟩
      · rcases mem_ready_post h with h | h
        · exact .inl h
        · rcases MessageQueue.pop_promise hp with ⟨hs9, -, rfl⟩ | ⟨-, -, rfl⟩
          · refine .inr ⟨?_, stores_of_setIfUnset hprom h⟩
            simp only [crossesThrottle, hq, Option.any_some, Bool.and_eq_true, decide_eq_true_eq]
            omega
          · cases h
      · by_cases he : x = s
        · subst he
          obtain ⟨p, hp', hset, hexec⟩ := hk
          obtain rfl : q'.p_ = p := by simpa [promise, post, setQueue] using hp'
          rcases MessageQueue.pop_promise hp with ⟨-, hpp, -⟩ | ⟨-, hpp, -⟩
          · rw [hpp] at hset hexec
            unfold EslangPromise.setIfUnset EslangPromise.set at hset hexec
            split at hset <;> simp_all
          · refine ⟨?_, q.p_, hprom, hpp ▸ hset, hpp ▸ hexec⟩
            simp only [crossesThrottle, post, setQueue, Function.update_self, Option.any_some,
              Bool.and_eq_true, decide_eq_true_eq] at hx
            simp only [crossesThrottle, hq, Option.any_some, Bool.and_eq_true, decide_eq_true_eq]
            omega
        · have hne : PromiseRef.throttle x ≠ .throttle s := by simpa using he
          obtain ⟨p, hp', hk⟩ := hk
          have hp' : (c.setQueue s (some q')).promise (.throttle x) = some p := hp'
          refine ⟨hcross x ?_, p, promise_setQueue_ne _ hne ▸ hp', hk⟩
          simpa [crossesThrottle, post, setQueue, he] using hx

theorem getVals_posts {ss : List SlotId} {c : Context σ μ} {k : Continuation}
    (h : .continuation k ∈ (c.getVals ss).2.io.ready) :
    .continuation k ∈ c.io.ready ∨
      ∃ x ∈ ss, c.crossesThrottle ss x = true ∧ c.Stores (.throttle x) k := by
  induction ss generalizing c with
  | nil => exact .inl h
  | cons s ss ih =>
    obtain ⟨hfirst, hrest⟩ := getOptional_posts c s ss k
    rcases ih h with h | ⟨x, hx, hc, hk⟩
    · exact (hfirst h).imp id fun hs => ⟨s, List.mem_cons_self, hs⟩
    · exact .inr ⟨x, List.mem_cons_of_mem _ hx, hrest x hc hk⟩

/-! ## The inversion -/

theorem suspended_posts {c : Context σ μ} {o : ObjId} {w : Waiting} {t : Coro σ μ} {k : Continuation}
    (h : .continuation k ∈ (c.suspended o w t).io.ready) : .continuation k ∈ c.io.ready ∨ k.this = o := by
  have htimer (h : .continuation k ∈ ((c.setWaiting o (some w) t).armTimer o w).io.ready) :
      .continuation k ∈ c.io.ready := by
    unfold armTimer at h
    split at h
    · exact h
    · exact (armsNothing_cancel c.io o).ready _ h rfl
  unfold suspended arm at h
  split at h
  · exact .inl h
  · unfold armFuture at h
    split at h
    · exact .inl (htimer h)
    next f hf =>
      rcases onPromise_posts h with h | ⟨p, -, hk⟩
      · exact .inl (htimer h)
      · right
        have hmem := EslangPromise.setContinuation_mem (.inr hk)
        exact hmem ▸ rfl

/-- **A step posts nothing but what the promises that it sets have stored**, and the continuation of
the process that suspends. -/
theorem effect_posts {code : Code σ μ} {c c' : Context σ μ} {l : Label} {out : List (Event μ)}
    (he : Effect code c l out c') {k : Continuation} (h : .continuation k ∈ c'.io.ready) :
    .continuation k ∈ c.io.ready ∨ (∃ f, Sets code c f ∧ c.Stores f k) ∨
      ∃ t rest, c.stack = ⟨.body k.this, t⟩ :: rest := by
  have hold (ha : ArmsNothing c.io c'.io) : .continuation k ∈ c.io.ready := ha.ready _ h rfl
  cases he with
  | @suspend o rest w t hw =>
    rcases suspended_posts h with h | ho
    · exact .inl h
    · obtain ⟨t₀, hs⟩ := hw.stack
      exact .inr (.inr ⟨t₀, rest, ho ▸ hs⟩)
  | newSlot hs ho s' => exact .inl (hold (.of_eq (io_newSlot _ _ _)))
  | @dropSlot role s₀ rest s k' hs hop ho s' =>
    exact (dropSlot_posts h).imp id fun hk => .inl ⟨_, .dropSlot ⟨role, s₀, rest, k', hs, hop⟩, hk⟩
  | @getVals role s rest ss k' hs hop ho s' =>
    exact (getVals_posts h).imp id fun ⟨x, hx, hc, hk⟩ => .inl ⟨_, .pop hs hop hx hc, hk⟩
  | spawn hs hop hm => exact .inl (hold (.of_eq (io_spawnWith _ _ _ _)))
  | link hs p hl s' =>
    have hio := io_link hl
    exact .inl (hold (.of_eq hio))
  | kill hs p s' => exact .inl (hold (.of_eq (io_addtoDestroy _ _ _)))
  | @onPromise role s rest act hs n ha s' =>
    refine (onPromise_posts h).imp id fun ⟨p, hp, hk⟩ => .inl ?_
    cases hop : code.op s with
    | setIfUnset m k' =>
      rw [hop] at ha
      cases ha
      exact ⟨_, .set hs hop, stores_of_setIfUnset hp hk⟩
    | setException m e k' =>
      rw [hop] at ha
      cases ha
      obtain ⟨q, hq, hset, hexec⟩ := stores_of_setIfUnset (c := c.setPromise (.user n) { p with
        exception_ := p.exception_.or (some e) }) (promise_setPromise_self hp) hk
      obtain rfl := Option.some.inj ((promise_setPromise_self hp).symm.trans hq)
      exact ⟨_, .raise hs hop, p, hp, hset, hexec⟩
    | resetPromise m k' =>
      rw [hop] at ha
      cases ha
      cases hk
    | _ =>
      rw [hop] at ha
      cases ha
  | asyncDone hs hop =>
    rcases List.mem_append.mp h with h | h
    · exact .inl h
    · cases List.mem_singleton.mp h
  | started hs body s' => exact .inl (hold (.of_eq (io_spawned _ _ _ _)))
  | @ctorThrew o s e role t' rest' hs hop s' =>
    refine (dropSlots_posts h).imp id fun ⟨x, hx, hk⟩ => .inl ⟨_, .drop (o := o) ?_ hx, hk⟩
    exact ⟨s, _, .inr ⟨e, hs, hop⟩⟩
  | bodyReturned hs => exact .inl (hold (.of_eq (io_addtoDestroy _ _ _)))
  | bodyThrew hs e => exact .inl (hold (.of_eq (io_addtoDestroy _ _ _)))
  | @dtorReturned o s rest hs hop =>
    refine (dropSlots_posts h).imp id fun ⟨x, hx, hk⟩ => .inl ⟨_, .drop (o := o) ?_ hx, hk⟩
    exact ⟨s, rest, .inl ⟨hs, hop⟩⟩
  | take hs hp hq => exact .inl (hold (armsNothing_processQueueItem (c.popFront _) _))
  | run hs hp hst hr => exact .inl (hold ((armsNothing_popReady hr).trans (armsNothing_runHandler _ _)))
  | @destroy o reason rest hs hp hd =>
    exact .inl (hold (armsNothing_destroy { c with toDestroy := rest } _ o reason))
  | expire i hl hw =>
    rcases List.mem_append.mp h with h | h
    · exact .inl h
    · cases List.mem_singleton.mp h
  | async i h' hl hh =>
    rcases List.mem_append.mp h with h | h
    · exact .inl h
    · cases List.mem_singleton.mp h
      rcases hh with hh | ⟨o, s, hh, -⟩ <;> cases hh
  | _ => exact .inl h

end Context
end Eslang
