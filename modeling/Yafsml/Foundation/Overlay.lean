import Mathlib.Data.List.Induction

/-!
# Overlays

A list of key-value layers read so that the last layer with a key wins.
-/

namespace Overlay

variable {κ ν : Type*} [DecidableEq κ]

def overlay (layers : List (κ × ν)) (key : κ) : Option ν :=
  layers.foldl (fun found layer => if layer.1 = key then some layer.2 else found) none

@[simp] theorem overlay_nil (key : κ) : overlay ([] : List (κ × ν)) key = none := rfl

theorem overlay_concat (layers : List (κ × ν)) (last : κ × ν) (key : κ) :
    overlay (layers ++ [last]) key = if last.1 = key then some last.2 else overlay layers key := by
  simp [overlay]

theorem overlay_append (lower upper : List (κ × ν)) (key : κ) :
    overlay (lower ++ upper) key = (overlay upper key).or (overlay lower key) := by
  induction upper using List.reverseRecOn with
  | nil => simp
  | append_singleton upper last ih =>
      rw [← List.append_assoc, overlay_concat, overlay_concat, ih]
      split <;> simp

theorem overlay_isSome {layers : List (κ × ν)} {key : κ} :
    (overlay layers key).isSome ↔ key ∈ layers.map Prod.fst := by
  induction layers using List.reverseRecOn with
  | nil => simp
  | append_singleton layers last ih =>
      rw [overlay_concat]
      by_cases h : last.1 = key
      · simp [h]
      · simp [h, ih, Ne.symm h]

theorem overlay_eq_some {layers : List (κ × ν)} {key : κ} {value : ν} :
    overlay layers key = some value ↔
      ∃ lower upper, layers = lower ++ (key, value) :: upper ∧ key ∉ upper.map Prod.fst := by
  constructor
  · intro h
    induction layers using List.reverseRecOn with
    | nil => cases h
    | append_singleton layers last ih =>
        rw [overlay_concat] at h
        split at h
        · rename_i same
          cases h
          exact ⟨layers, [], by rw [← same], by simp⟩
        · rename_i other
          obtain ⟨lower, upper, rfl, fresh⟩ := ih h
          exact ⟨lower, upper ++ [last], by simp, by
            simpa [Ne.symm other] using fresh⟩
  · rintro ⟨lower, upper, rfl, fresh⟩
    rw [show lower ++ (key, value) :: upper = (lower ++ [(key, value)]) ++ upper by simp,
      overlay_append, overlay_concat]
    have absent : overlay upper key = none := by
      rw [← Option.not_isSome_iff_eq_none, overlay_isSome]
      exact fresh
    simp [absent]

end Overlay
