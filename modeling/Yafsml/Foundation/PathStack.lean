import Mathlib.Data.List.Basic
import Mathlib.Data.List.Infix
import Mathlib.Algebra.BigOperators.Group.List.Basic
import Mathlib.Algebra.Order.Ring.Int

/-!
# Resolving a path

A path is a list of moves in a tree: stay, go to the parent, or enter a named child. Resolving it
keeps the names entered and not left again.
-/

namespace Yafsml.Foundation

inductive Move (α : Type*)
  | stay
  | up
  | down (name : α)

namespace Move

variable {α β : Type*}

def apply (stack : List α) : Move α → Option (List α)
  | stay => some stack
  | up => match stack with
    | [] => none
    | _ :: outer => some outer
  | down name => some (name :: stack)

def level : Move α → Int
  | stay => 0
  | up => -1
  | down _ => 1

/-- The names entered, outermost first; `none` when the path leaves the root. -/
def resolve (moves : List (Move α)) : Option (List α) :=
  (moves.foldlM apply []).map List.reverse

def Climbs (moves : List (Move α)) : Prop :=
  ∃ front, front <+: moves ∧ (front.map level).sum < 0

theorem climbs_cons (move : Move α) (moves : List (Move α)) {depth : Int} (inside : 0 ≤ depth) :
    (∃ front, front <+: move :: moves ∧ depth + (front.map level).sum < 0) ↔
      ∃ front, front <+: moves ∧ depth + level move + (front.map level).sum < 0 := by
  constructor
  · rintro ⟨front, start, below⟩
    cases front with
    | nil =>
        rw [List.map_nil, List.sum_nil] at below
        omega
    | cons first rest =>
        obtain ⟨rfl, start'⟩ := List.cons_prefix_cons.mp start
        rw [List.map_cons, List.sum_cons] at below
        exact ⟨rest, start', by omega⟩
  · rintro ⟨front, start, below⟩
    refine ⟨move :: front, List.cons_prefix_cons.mpr ⟨rfl, start⟩, ?_⟩
    rw [List.map_cons, List.sum_cons]
    omega

theorem foldlM_apply_eq_none (moves : List (Move α)) (stack : List α) :
    moves.foldlM apply stack = none ↔
      ∃ front, front <+: moves ∧ (stack.length : Int) + (front.map level).sum < 0 := by
  induction moves generalizing stack with
  | nil =>
      apply iff_of_false
      · simp
      · rintro ⟨front, start, below⟩
        rw [List.prefix_nil.mp start, List.map_nil, List.sum_nil] at below
        omega
  | cons move rest ih =>
      rw [List.foldlM_cons, climbs_cons move rest (Int.natCast_nonneg _)]
      cases move with
      | stay =>
          rw [level, add_zero]
          exact ih stack
      | down name =>
          apply (ih (name :: stack)).trans
          rw [List.length_cons, Nat.cast_succ]
          rfl
      | up =>
          cases stack with
          | nil => exact iff_of_true rfl ⟨[], List.nil_prefix, by simp [level]⟩
          | cons name outer =>
              apply (ih outer).trans
              rw [List.length_cons, Nat.cast_succ, level, add_neg_cancel_right]

theorem resolve_eq_none (moves : List (Move α)) : resolve moves = none ↔ Climbs moves := by
  rw [resolve, Option.map_eq_none_iff, foldlM_apply_eq_none]
  simp only [List.length_nil, Nat.cast_zero, zero_add]
  rfl

theorem foldlM_apply_up (moves : List (Move α)) (stack : List α) :
    moves.foldlM apply stack = none ↔
      ∃ before after, moves = before ++ up :: after ∧ before.foldlM apply stack = some [] := by
  induction moves generalizing stack with
  | nil => simp
  | cons move rest ih =>
      rw [List.foldlM_cons]
      cases moved : move.apply stack with
      | none =>
          refine iff_of_true rfl ⟨[], rest, ?_, ?_⟩
          · cases move with
            | stay => cases moved
            | down name => cases moved
            | up => rfl
          · cases move with
            | stay => cases moved
            | down name => cases moved
            | up =>
                cases stack with
                | nil => rfl
                | cons name outer => cases moved
      | some next =>
          apply (ih next).trans
          constructor
          · rintro ⟨before, after, rfl, run⟩
            exact ⟨move :: before, after, rfl, by rw [List.foldlM_cons, moved]; exact run⟩
          · rintro ⟨before, after, same, run⟩
            cases before with
            | nil =>
                cases run
                cases same
                cases moved
            | cons first before =>
                cases same
                rw [List.foldlM_cons, moved] at run
                exact ⟨before, after, rfl, run⟩

theorem resolve_fails_iff (moves : List (Move α)) :
    resolve moves = none ↔
      ∃ before after, moves = before ++ up :: after ∧ resolve before = some [] := by
  rw [resolve, Option.map_eq_none_iff, foldlM_apply_up]
  simp only [resolve, Option.map_eq_some_iff, List.reverse_eq_nil_iff, exists_eq_right]

theorem resolve_down (names : List α) : resolve (names.map down) = some names := by
  have run (stack : List α) : (names.map down).foldlM apply stack = some (names.reverse ++ stack) := by
    induction names generalizing stack with
    | nil => rfl
    | cons name rest ih =>
        rw [List.map_cons, List.foldlM_cons]
        exact (ih (name :: stack)).trans (by rw [List.reverse_cons, List.append_assoc]; rfl)
  rw [resolve, run, Option.map_some, List.append_nil, List.reverse_reverse]

theorem mem_of_foldlM_apply {moves : List (Move α)} {stack result : List α}
    (run : moves.foldlM apply stack = some result) {name : α} (member : name ∈ result) :
    down name ∈ moves ∨ name ∈ stack := by
  induction moves generalizing stack with
  | nil =>
      cases run
      exact .inr member
  | cons move rest ih =>
      rw [List.foldlM_cons] at run
      cases move with
      | stay => exact (ih run).imp (List.mem_cons_of_mem _) id
      | down entered =>
          rcases ih run with later | here
          · exact .inl (List.mem_cons_of_mem _ later)
          rcases List.mem_cons.mp here with rfl | earlier
          · exact .inl List.mem_cons_self
          · exact .inr earlier
      | up =>
          cases stack with
          | nil => cases run
          | cons entered outer =>
              exact (ih run).imp (List.mem_cons_of_mem _) (List.mem_cons_of_mem _)

theorem mem_of_resolve {moves : List (Move α)} {names : List α} (run : resolve moves = some names)
    {name : α} (member : name ∈ names) : down name ∈ moves := by
  obtain ⟨stack, folded, rfl⟩ := Option.map_eq_some_iff.mp run
  exact (mem_of_foldlM_apply folded (List.mem_reverse.mp member)).resolve_right List.not_mem_nil

def map (f : α → β) : Move α → Move β
  | stay => stay
  | up => up
  | down name => down (f name)

theorem foldlM_apply_map (f : α → β) (moves : List (Move α)) (stack : List α) :
    (moves.map (map f)).foldlM apply (stack.map f) = (moves.foldlM apply stack).map (List.map f) := by
  induction moves generalizing stack with
  | nil => rfl
  | cons move rest ih =>
      rw [List.map_cons, List.foldlM_cons, List.foldlM_cons]
      cases move with
      | stay => exact ih stack
      | down name => exact ih (name :: stack)
      | up =>
          cases stack with
          | nil => rfl
          | cons name outer => exact ih outer

theorem resolve_map (f : α → β) (moves : List (Move α)) :
    resolve (moves.map (map f)) = (resolve moves).map (List.map f) := by
  have run := foldlM_apply_map f moves []
  rw [List.map_nil] at run
  rw [resolve, run, resolve, Option.map_map, Option.map_map]
  exact congrArg (Option.map · _) (funext fun stack => List.map_reverse.symm)

end Move

end Yafsml.Foundation
