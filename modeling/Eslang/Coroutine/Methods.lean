import Eslang.Coroutine.Circles

/-! # Programs without generators

If all tasks are methods, `nextChild` is set only when the process suspends: a coroutine that was called
and is not awaited has no `processPromise`. So the process is never overtaken and no consumer is left
behind, and the invariants of the chain that the process waits on hold in every run (`Sound`). -/
namespace Eslang.Coroutine
set_option autoImplicit false
open Lib Relation

namespace Links
variable {W : Type} {l l' : Links W}

structure Plain (l : Links W) : Prop where
  kinds : ∀ i, l.kind i ≠ .gen
  unawaited : ∀ i k c, l.shape i = .calls k c → l.awaited c = false
  quiet : l.stack ≠ [] → l.nextChild = none

namespace Plain

theorem method_of_ne_root (hp : l.Plain) (hl : l.Wf) {i : Handle} (hi : i ≠ root) :
    l.kind i = .method := by
  cases hk : l.kind i with
  | process => exact absurd ((hl.process_iff i).mp hk) hi
  | method => rfl
  | gen => exact absurd hk (hp.kinds i)

/-- A coroutine that runs above its caller is a method that nobody awaits. -/
theorem of_called (hp : l.Plain) (hl : l.Wf) {i b : Handle} {rest : List Handle}
    (hs : l.stack = i :: b :: rest) :
    l.kind i = .method ∧ l.awaited i = false ∧ l.parent i = none ∧ l.attached i = false := by
  have hb := hl.native.caller hs
  obtain ⟨-, hne, -, hpar⟩ := hl.native.called b _ i hb
  have hk := hp.method_of_ne_root hl (hl.ne_root hne)
  have ha := hp.unawaited b _ i hb
  exact ⟨hk, ha, hpar, hl.marked.unawaited i hk ha⟩

end Plain

/-- **A move that makes no generator keeps a program plain.** -/
theorem Move.plain (h : l.Move l') (hl : l.Wf) (hp : l.Plain)
    (hg : l'.count = l.count ∨ l'.stack ≠ l.stack) : l'.Plain := by
  obtain ⟨hkinds, hun, hquiet⟩ := hp
  have hloose : ∀ i rest, l.stack = i :: rest → rest ≠ [] →
      l.kind i ≠ .process ∧ l.attached i = false ∧ l.nextChild = none := by
    intro i rest hs hrest
    obtain ⟨b, rest, rfl⟩ := List.exists_cons_of_ne_nil hrest
    obtain ⟨hk, -, -, ha⟩ := Plain.of_called ⟨hkinds, hun, hquiet⟩ hl hs
    exact ⟨by simp [hk], ha, hquiet (by simp [hs])⟩
  have hawaited : ∀ n, n ∉ l.stack → ∀ i rest, l.stack = i :: rest → l.shape i = .active →
      ∀ j k c, l.shape j = .calls k c → Function.update l.awaited n true c = false := by
    intro n hn i rest hs ha j k c hj
    have hcn : c ≠ n := fun he => hl.native.not_called hs ha hn (he ▸ hj)
    rw [Function.update_of_ne hcn]
    exact hun j k c hj
  cases h with
  | stay => exact ⟨hkinds, hun, hquiet⟩
  | @collect i n rest hs ha hk hn hj hd =>
    exact ⟨hkinds, hawaited n hn i rest hs ha, hquiet⟩
  | returned hs hc hr =>
    refine ⟨hkinds, ?_, hquiet⟩
    simp only [turn, Function.update_apply]
    grind -ring -linarith
  | @wait i rest w hs ha =>
    refine ⟨hkinds, ?_, fun hrest => ?_⟩
    · simp only [Function.update_apply]
      grind -ring -linarith
    · obtain ⟨-, hat, hnext⟩ := hloose i rest hs hrest
      simp [hat, hnext]
  | @start i rest hs ha =>
    refine ⟨?_, ?_, fun _ => hquiet (by simp [hs])⟩
    · simp only [make, turn, Function.update_apply]
      grind -ring -linarith
    · simp only [make, turn, Function.update_apply]
      grind -ring -linarith
  | gen hs ha => simp [make] at hg
  | call hs ha hk hg' => exact absurd hk (hkinds _)
  | @join i n rest m hs ha hk hn hj hd hr hm =>
    obtain ⟨A, N, rfl, hAN⟩ := adopt_spec hm
    refine ⟨hkinds, fun j k c hjc => ?_, fun hrest => ?_⟩
    · apply hawaited n hn i rest hs ha j k c
      simp only [turn, Function.update_apply] at hjc
      grind -ring -linarith
    · obtain ⟨hki, hat, hnext⟩ := hloose i rest hs hrest
      change N = none
      rcases hAN with ⟨-, -, rfl⟩ | ⟨⟨-, h | h⟩, -⟩
      · exact hnext
      · exact absurd h hki
      · exact absurd (h.symm.trans hat) (by simp)
  | awaitNext hs hc hr hm => exact absurd (hl.native.called _ _ _ hc).1 (hkinds _)
  | yieldUp hs ha hk => exact absurd hk (hkinds _)
  | yieldInto hs ha hk => exact absurd hk (hkinds _)
  | finishUp hs ha hp' =>
    refine ⟨hkinds, ?_, fun _ => hquiet (by simp [hs])⟩
    simp only [Function.update_apply]
    grind -ring -linarith
  | finishInto hs ha hk hp' =>
    refine ⟨hkinds, ?_, fun _ => hquiet (by simp [hs])⟩
    simp only [Function.update_apply]
    grind -ring -linarith
  | resume hs hr hz hd =>
    refine ⟨hkinds, ?_, fun _ => rfl⟩
    simp only [Function.update_apply]
    grind -ring -linarith

end Links

namespace State
variable {σ V W : Type}

structure Sound (s : State σ V W) : Prop where
  formed : s.Formed
  rooted : s.links.Rooted
  plain : s.links.Plain

theorem Sound.undisturbed {code : Code σ V W} {s : State σ V W} (h : s.Sound) (l : Label V)
    (hu : s.shares code = false) : s.Undisturbed code l := by
  refine ⟨hu, ?_, ?_⟩
  · cases ho : s.orphans code with
    | false => rfl
    | true =>
      obtain ⟨g, _, _, _, _, -, -, -, hk, -⟩ := orphans_cases ho
      exact absurd hk (h.plain.kinds g)
  · intro hover
    unfold overtakes at hover
    split at hover
    case h_1 => cases hover
    case h_2 i rest hs =>
      have hn : s.nextChild = none := h.plain.quiet (by simp [links, hs])
      split at hover
      case h_1 c hc =>
        split at hover
        case h_1 => simp [hn] at hover
        case h_2 => cases hover
      case h_2 => cases hover

theorem Sound.step {code : Code σ V W} {s t : State σ V W} {l : Label V} {out : List (Event V)}
    (h : s.Sound) (hu : s.shares code = false) (hs : s.step code l = some (t, out))
    (hg : t.count = s.count ∨ t.stack ≠ s.stack) :
    t.Sound := by
  have hstep := step_cases hu hs
  have hw := h.formed.wf
  have hun : s.Undisturbed code l := h.undisturbed l hu
  exact ⟨hstep.formed h.formed (uncircled_of_rooted l hw h.rooted hu),
    hstep.move.rooted hw h.rooted (hstep.not_orphans hw hun) (hstep.not_overtakes hw hun),
    hstep.move.plain hw h.plain hg⟩

theorem init_sound (body : σ) : (init body : State σ V W).Sound := by
  refine ⟨init_formed body, init_rooted body, ?_, ?_, ?_⟩
  · intro i
    by_cases hi : i = root <;> simp [init, links, blank, hi]
  · intro i k c hi
    by_cases hr : i = root <;> simp [init, links, blank, hr, Ctl.shape] at hi
  · simp [init, links]

end State
end Eslang.Coroutine
