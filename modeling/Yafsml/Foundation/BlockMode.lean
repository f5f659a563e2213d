import Mathlib.Data.List.Basic
import Mathlib.Data.Set.Function

/-!
# Ciphers that work block by block

A buffer is replaced block by block, with a state that one block leaves to the next. What does not
fill a block stays.
-/

namespace Yafsml.BlockMode

variable {α σ : Type*} {size : Nat} {step undo : σ → List α → List α × σ}

def run (size : Nat) (step : σ → List α → List α × σ) (s : σ) (input : List α) : List α :=
  if 0 < size ∧ size ≤ input.length then
    (step s (input.take size)).1 ++ run size step (step s (input.take size)).2 (input.drop size)
  else input
termination_by input.length
decreasing_by
  rw [List.length_drop]
  omega

theorem run_short {s : σ} {input : List α} (short : input.length < size) :
    run size step s input = input := by
  rw [run, if_neg (by omega)]

theorem run_block {s : σ} {block rest : List α} (positive : 0 < size) (full : block.length = size) :
    run size step s (block ++ rest) = (step s block).1 ++ run size step (step s block).2 rest := by
  rw [run, if_pos ⟨positive, by rw [List.length_append]; omega⟩, ← full, List.take_left,
    List.drop_left]

theorem block_induction {motive : List α → Prop} (size : Nat) (positive : 0 < size)
    (short : ∀ input : List α, input.length < size → motive input)
    (block : ∀ block rest : List α, block.length = size → motive rest → motive (block ++ rest))
    (input : List α) : motive input := by
  induction length : input.length using Nat.strongRecOn generalizing input with
  | ind n ih =>
      by_cases enough : size ≤ input.length
      · rw [← List.take_append_drop size input]
        exact block _ _ (List.length_take_of_le enough)
          (ih (input.drop size).length (by rw [List.length_drop]; omega) _ rfl)
      · exact short input (by omega)

/-- `undo` takes a block back, and leaves the state that `step` left. -/
structure Undoes (size : Nat) (step undo : σ → List α → List α × σ) : Prop where
  positive : 0 < size
  length : ∀ s block, block.length = size → (step s block).1.length = size
  undo : ∀ s block, block.length = size → undo s (step s block).1 = (block, (step s block).2)

namespace Undoes

variable (undoes : Undoes size step undo)

include undoes

theorem length_run (s : σ) (input : List α) : (run size step s input).length = input.length := by
  induction input using block_induction size undoes.positive generalizing s with
  | short input less => rw [run_short less]
  | block block rest full ih =>
      rw [run_block undoes.positive full, List.length_append, List.length_append, ih,
        undoes.length s block full, full]

theorem run_run (s : σ) (input : List α) : run size undo s (run size step s input) = input := by
  induction input using block_induction size undoes.positive generalizing s with
  | short input less => rw [run_short less, run_short less]
  | block block rest full ih =>
      rw [run_block undoes.positive full, run_block undoes.positive (undoes.length s block full),
        undoes.undo s block full, ih]

theorem run_take (s : σ) (input : List α) (blocks : Nat) (inside : size * blocks ≤ input.length) :
    run size step s (input.take (size * blocks)) = (run size step s input).take (size * blocks) := by
  induction blocks generalizing s input with
  | zero =>
      rw [Nat.mul_zero, List.take_zero, List.take_zero]
      exact run_short undoes.positive
  | succ blocks ih =>
      have enough : size ≤ input.length := by
        rw [Nat.mul_succ] at inside
        omega
      have full : (input.take size).length = size := List.length_take_of_le enough
      have out := undoes.length s _ full
      have front : size * (blocks + 1) = size + size * blocks := by
        rw [Nat.mul_succ, Nat.add_comm]
      have whole : run size step s input =
          (step s (input.take size)).1 ++ run size step (step s (input.take size)).2 (input.drop size) := by
        rw [← run_block undoes.positive full, List.take_append_drop]
      rw [front] at inside ⊢
      rw [List.take_add, run_block undoes.positive full, ih _ _ (by rw [List.length_drop]; omega), whole,
        List.take_append,
        List.take_of_length_le (show (step s (input.take size)).1.length ≤ _ by omega), out,
        Nat.add_sub_cancel_left]

theorem run_drop (s : σ) (input : List α) :
    (run size step s input).drop (size * (input.length / size)) =
      input.drop (size * (input.length / size)) := by
  induction input using block_induction size undoes.positive generalizing s with
  | short input less => rw [run_short less]
  | block block rest full ih =>
      have count : size * ((block ++ rest).length / size) = size + size * (rest.length / size) := by
        rw [List.length_append, full, Nat.add_div_left _ undoes.positive, Nat.mul_succ, Nat.add_comm]
      have out := undoes.length s block full
      rw [count, run_block undoes.positive full, ← List.drop_drop, ← List.drop_drop]
      rw [List.drop_left' out, List.drop_left' full, ih]

end Undoes

theorem run_bijOn (undoes : Undoes size step undo) (redoes : Undoes size undo step) (s : σ) (n : Nat) :
    Set.BijOn (run size step s) {input | input.length = n} {output | output.length = n} := by
  refine ⟨fun input length => ?_, fun input _ input' _ same => ?_, fun output length => ?_⟩
  · exact (undoes.length_run s input).trans length
  · rw [← undoes.run_run s input, same, undoes.run_run]
  · refine ⟨run size undo s output, ?_, redoes.run_run s output⟩
    exact (redoes.length_run s output).trans length

end Yafsml.BlockMode
