import Eslang.Lib.Transition

/-! # Queues that are served in order

`Served q xs q'` says that a queue went from `q` to `q'` by taking `xs` off its head, in order, while others
were appended. The relation composes, so one lemma about a step gives the statement about a run
(`Run.served`), and from it whether an entry has been served and what was served before it. -/
namespace Eslang.Lib
set_option autoImplicit false

variable {α : Type}

def Served (q xs q' : List α) : Prop := ∃ added, q ++ added = xs ++ q'

namespace Served
variable {q q' q'' xs ys : List α}

theorem push (q added : List α) : Served q [] (q ++ added) := ⟨added, rfl⟩

theorem take (x : α) (q : List α) : Served (x :: q) [x] q := ⟨[], by simp⟩

theorem trans (h : Served q xs q') (h' : Served q' ys q'') : Served q (xs ++ ys) q'' := by
  obtain ⟨a, ha⟩ := h
  obtain ⟨b, hb⟩ := h'
  refine ⟨a ++ b, ?_⟩
  calc q ++ (a ++ b) = xs ++ q' ++ b := by rw [← List.append_assoc, ha]
    _ = xs ++ ys ++ q'' := by rw [List.append_assoc, hb, List.append_assoc]

/-- Once as many entries have been taken as there were, these are the first ones taken. -/
theorem all (h : Served q xs q') (hl : q.length ≤ xs.length) : q <+: xs := by
  obtain ⟨a, ha⟩ := h
  exact List.prefix_of_prefix_length_le ⟨a, ha⟩ (List.prefix_append xs q') hl

theorem all_of_empty (h : Served q xs []) : q <+: xs := by
  obtain ⟨a, ha⟩ := h
  exact ⟨a, by simpa using ha⟩

end Served

namespace System
variable {S L E : Type}

/-- A queue that every step serves in order is served in order by every run; `f` reads off the
observations what was taken. -/
theorem Run.served {M : System S L E} {ok : S → L → Prop} {s t : S} {tr : List E}
    (h : Run M ok s tr t) (q : S → List α) (f : E → Option α)
    (step : ∀ t l u out, M.step t l = some (u, out) → Served (q t) (out.filterMap f) (q u)) :
    Served (q s) (tr.filterMap f) (q t) := by
  induction h with
  | refl => exact ⟨[], by simp⟩
  | step _ _ hs ih =>
    rw [List.filterMap_append]
    exact ih.trans (step _ _ _ _ hs)

end System
end Eslang.Lib
