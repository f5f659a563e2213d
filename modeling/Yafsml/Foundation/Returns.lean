import Mathlib.Tactic.Common

/-!
# Computations that return

A computation of a machine gives nothing where it breaks a rule of the machine or takes more steps than it
was allowed. These are the rules for showing that it does neither.
-/

namespace Yafsml

universe u

variable {α β : Type u} {r : Option α} {post : α → Prop}

/-- The computation gives a value, which satisfies `post`. -/
def Returns (r : Option α) (post : α → Prop) : Prop := ∃ a, r = some a ∧ post a

namespace Returns

theorem pure {a : α} (holds : post a) : Returns (some a) post := ⟨a, rfl, holds⟩

theorem bind {next : α → Option β} {after : β → Prop} (first : Returns r post)
    (rest : ∀ a, post a → Returns (next a) after) : Returns (r >>= next) after := by
  obtain ⟨a, rfl, holds⟩ := first
  exact rest a holds

theorem next {a : α} {next : α → Option β} {after : β → Prop} (returns : Returns (next a) after) :
    Returns (some a >>= next) after := returns

theorem mono {weaker : α → Prop} (returns : Returns r post) (implies : ∀ a, post a → weaker a) :
    Returns r weaker := by
  obtain ⟨a, same, holds⟩ := returns
  exact ⟨a, same, implies a holds⟩

theorem ite {condition : Prop} [Decidable condition] {s : Option α} (yes : condition → Returns r post)
    (no : ¬ condition → Returns s post) : Returns (if condition then r else s) post := by
  by_cases holds : condition
  · rw [if_pos holds]
    exact yes holds
  · rw [if_neg holds]
    exact no holds

theorem exit {condition : Prop} [Decidable condition] {a : α} (holds : post a)
    (rest : ¬ condition → Returns r post) : Returns (if condition then some a else r) post :=
  ite (fun _ => pure holds) rest

theorem mapM {ι : Type u} {f : ι → Option α} {l : List ι} (each : ∀ i ∈ l, Returns (f i) fun _ => True) :
    Returns (l.mapM f) fun _ => True := by
  induction l with
  | nil => exact pure trivial
  | cons i l ih =>
      rw [List.mapM_cons]
      refine (each i List.mem_cons_self).bind fun _ _ => ?_
      exact (ih fun j member => each j (List.mem_cons_of_mem i member)).bind fun _ _ => pure trivial

theorem eq_some {a : α} (returns : Returns r fun b => b = a) : r = some a := by
  obtain ⟨b, same, rfl⟩ := returns
  exact same

end Returns

end Yafsml
