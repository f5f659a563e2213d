import Mathlib.Algebra.BigOperators.Group.Finset.Basic
import Mathlib.Algebra.BigOperators.Group.Finset.Piecewise
import Mathlib.Algebra.Order.BigOperators.Group.Finset
import Mathlib.Data.Fintype.Basic
import Mathlib.Data.Int.Basic
import Mathlib.Tactic.Abel

/-!
# Threads with pending actions

Each thread is the list of what it still has to do. A turn performs the first action of a thread and
puts what follows from it in its place. What the pending actions are worth in sum changes by what one
turn does alone.
-/

namespace Pending

variable {ι α : Type*} [DecidableEq ι]

def turn (pending : ι → List α) (i : ι) (new rest : List α) : ι → List α :=
  Function.update pending i (new ++ rest)

@[simp] theorem turn_self (pending : ι → List α) (i : ι) (new rest : List α) :
    turn pending i new rest i = new ++ rest := Function.update_self ..

theorem turn_other {i j : ι} (apart : j ≠ i) (pending : ι → List α) (new rest : List α) :
    turn pending i new rest j = pending j := Function.update_of_ne apart ..

def worth (w : α → ℤ) (actions : List α) : ℤ := (actions.map w).sum

@[simp] theorem worth_nil (w : α → ℤ) : worth w [] = 0 := rfl

@[simp] theorem worth_cons (w : α → ℤ) (a : α) (actions : List α) :
    worth w (a :: actions) = w a + worth w actions := List.sum_cons

@[simp] theorem worth_append (w : α → ℤ) (actions actions' : List α) :
    worth w (actions ++ actions') = worth w actions + worth w actions' := by
  simp [worth]

theorem worth_nonneg {w : α → ℤ} (nonneg : ∀ a, 0 ≤ w a) (actions : List α) : 0 ≤ worth w actions := by
  induction actions with
  | nil => exact le_rfl
  | cons a actions ih =>
      rw [worth_cons]
      exact add_nonneg (nonneg a) ih

theorem le_worth {w : α → ℤ} (nonneg : ∀ a, 0 ≤ w a) {a : α} {actions : List α} (among : a ∈ actions) :
    w a ≤ worth w actions := by
  induction actions with
  | nil => cases among
  | cons b actions ih =>
      rw [worth_cons]
      rcases List.mem_cons.mp among with rfl | later
      · exact le_add_of_nonneg_right (worth_nonneg nonneg actions)
      · exact (ih later).trans (le_add_of_nonneg_left (nonneg b))

section Total

variable [Fintype ι]

def total (w : α → ℤ) (pending : ι → List α) : ℤ := ∑ i, worth w (pending i)

theorem total_turn (w : α → ℤ) {pending : ι → List α} {i : ι} {a : α} {rest : List α}
    (first : pending i = a :: rest) (new : List α) :
    total w (turn pending i new rest) = total w pending - w a + worth w new := by
  have split (f : ι → List α) : total w f = worth w (f i) + ∑ j ∈ Finset.univ.erase i, worth w (f j) :=
    (Finset.add_sum_erase _ (fun j => worth w (f j)) (Finset.mem_univ i)).symm
  have others : ∑ j ∈ Finset.univ.erase i, worth w (turn pending i new rest j) =
      ∑ j ∈ Finset.univ.erase i, worth w (pending j) :=
    Finset.sum_congr rfl fun j among => by rw [turn_other (Finset.ne_of_mem_erase among)]
  rw [split, split pending, others, turn_self, first, worth_append, worth_cons]
  abel

theorem total_start (w : α → ℤ) {pending : ι → List α} {i : ι} (idle : pending i = []) (new : List α) :
    total w (turn pending i new []) = total w pending + worth w new := by
  have split (f : ι → List α) : total w f = worth w (f i) + ∑ j ∈ Finset.univ.erase i, worth w (f j) :=
    (Finset.add_sum_erase _ (fun j => worth w (f j)) (Finset.mem_univ i)).symm
  have others : ∑ j ∈ Finset.univ.erase i, worth w (turn pending i new [] j) =
      ∑ j ∈ Finset.univ.erase i, worth w (pending j) :=
    Finset.sum_congr rfl fun j among => by rw [turn_other (Finset.ne_of_mem_erase among)]
  rw [split, split pending, others, turn_self, idle, worth_append, worth_nil]
  abel

omit [DecidableEq ι] in
theorem total_nonneg {w : α → ℤ} (nonneg : ∀ a, 0 ≤ w a) (pending : ι → List α) : 0 ≤ total w pending :=
  Finset.sum_nonneg fun i _ => worth_nonneg nonneg (pending i)

omit [DecidableEq ι] in
theorem le_total {w : α → ℤ} (nonneg : ∀ a, 0 ≤ w a) {pending : ι → List α} {i : ι} {a : α}
    (among : a ∈ pending i) : w a ≤ total w pending :=
  (le_worth nonneg among).trans
    (Finset.single_le_sum (f := fun i => worth w (pending i))
      (fun i _ => worth_nonneg nonneg (pending i)) (Finset.mem_univ i))

omit [DecidableEq ι] in
theorem total_eq_zero_iff {w : α → ℤ} (nonneg : ∀ a, 0 ≤ w a) {pending : ι → List α} :
    total w pending = 0 ↔ ∀ i, ∀ a ∈ pending i, w a = 0 := by
  constructor
  · intro none i a among
    exact le_antisymm (none ▸ le_total nonneg among) (nonneg a)
  · intro free
    apply Finset.sum_eq_zero
    intro i _
    apply List.sum_eq_zero
    intro n among
    obtain ⟨a, inside, rfl⟩ := List.mem_map.mp among
    exact free i a inside

end Total

end Pending
