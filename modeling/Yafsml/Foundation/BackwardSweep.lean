import Mathlib.Data.List.Induction

/-!
# Taking elements out of an array from its end

The loop `for (i = count; i != 0; i--)` that removes the element at `i - 1` when it is wanted and
collects it in front of those collected before.
-/

namespace Yafsml.BackwardSweep

variable {α : Type*} (wanted : α → Bool)

def sweep : Nat → List α → List α → List α × List α
  | 0, items, taken => (items, taken)
  | i + 1, items, taken =>
      match items[i]? with
      | some item =>
          if wanted item then sweep i (items.eraseIdx i) (item :: taken)
          else sweep i items taken
      | none => sweep i items taken

theorem sweep_append (kept : List α) : ∀ (front : List α) (taken : List α),
    sweep wanted front.length (front ++ kept) taken =
      (front.filter (fun item => !wanted item) ++ kept, front.filter wanted ++ taken) := by
  intro front
  -- the loop looks at the last element of what is in front of the kept part
  induction front using List.reverseRecOn generalizing kept with
  | nil => simp [sweep]
  | append_singleton front item ih =>
      intro taken
      have here : ((front ++ [item]) ++ kept)[front.length]? = some item := by simp
      have gone : ((front ++ [item]) ++ kept).eraseIdx front.length = front ++ kept := by
        rw [List.append_assoc, List.eraseIdx_append_of_length_le (by simp)]
        simp
      rw [List.length_append, List.length_singleton, sweep, here]
      cases chosen : wanted item with
      | true =>
          simp only [chosen, if_true, gone, ih kept (item :: taken)]
          simp [chosen]
      | false =>
          simp only [chosen, Bool.false_eq_true, if_false, List.append_assoc,
            ih ([item] ++ kept) taken]
          simp [chosen]

theorem sweep_eq (items : List α) :
    sweep wanted items.length items [] =
      (items.filter (fun item => !wanted item), items.filter wanted) := by
  have all := sweep_append wanted [] items []
  simpa using all

end Yafsml.BackwardSweep
