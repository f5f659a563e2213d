import Mathlib.Algebra.GroupWithZero.Nat
import Mathlib.Algebra.Order.Group.Nat
import Mathlib.Data.Fintype.EquivFin
import Mathlib.Data.List.Perm.Basic
import Mathlib.Data.List.Range
import Mathlib.Data.Nat.ModEq
import Mathlib.Data.Nat.Prime.Basic
import Mathlib.Logic.Function.Basic
import Mathlib.Tactic.Ring

/-! # Arrays of slots

The entries of an array of which some slots are taken, in the order of the slots, and a search that takes
one slot, then two, then three more. In a table of `2 ^ e` slots its first `2 ^ e` slots are all of them. -/

namespace Yafsml.Slots

variable {α β : Type*} {n : Nat} {slot slot' : Nat → Option α}

def taken (n : Nat) (slot : Nat → Option α) : List α := (List.range n).filterMap slot

theorem mem_taken {a : α} : a ∈ taken n slot ↔ ∃ i < n, slot i = some a := by simp [taken]

theorem taken_congr (same : ∀ i < n, slot i = slot' i) : taken n slot = taken n slot' :=
  List.filterMap_congr fun i member => same i (List.mem_range.mp member)

theorem taken_succ (n : Nat) (slot : Nat → Option α) :
    taken (n + 1) slot = taken n slot ++ (slot n).toList := by
  rw [taken, List.range_succ, List.filterMap_append, taken]
  cases found : slot n <;> simp [found]

theorem taken_eq_nil (free : ∀ i < n, slot i = none) : taken n slot = [] := by
  apply List.eq_nil_iff_forall_not_mem.mpr
  intro a member
  obtain ⟨i, within, found⟩ := mem_taken.mp member
  simp [free i within] at found

theorem length_taken_le (n : Nat) (slot : Nat → Option α) : (taken n slot).length ≤ n := by
  simpa [taken] using List.length_filterMap_le slot (List.range n)

theorem length_taken_congr {other : Nat → Option β}
    (same : ∀ i < n, (slot i).isSome = (other i).isSome) :
    (taken n slot).length = (taken n other).length := by
  induction n with
  | zero => rfl
  | succ n ih =>
      have last := same n (by omega)
      rw [taken_succ, taken_succ, List.length_append, List.length_append,
        ih fun i before => same i (by omega)]
      cases first : slot n <;> cases second : other n <;> simp [first, second] at last ⊢

theorem exists_free (room : (taken n slot).length < n) : ∃ i < n, slot i = none := by
  induction n with
  | zero => omega
  | succ n ih =>
      cases last : slot n with
      | none => exact ⟨n, by omega, last⟩
      | some a =>
          rw [taken_succ, last, List.length_append] at room
          obtain ⟨i, within, free⟩ := ih (by simpa using room)
          exact ⟨i, by omega, free⟩

theorem taken_update (slot : Nat → Option α) {i : Nat} (within : i < n) (entry : Option α) :
    (taken n (Function.update slot i entry) ++ (slot i).toList).Perm (taken n slot ++ entry.toList) := by
  induction n with
  | zero => omega
  | succ n ih =>
      rw [taken_succ, taken_succ]
      by_cases last : i = n
      · subst last
        have before : taken i (Function.update slot i entry) = taken i slot :=
          taken_congr fun j before => Function.update_of_ne (by omega) ..
        rw [before, Function.update_self, List.append_assoc, List.append_assoc]
        exact List.perm_append_comm.append_left _
      · rw [Function.update_of_ne (by omega : n ≠ i)]
        have swap (xs ys zs : List α) : (xs ++ ys ++ zs).Perm (xs ++ zs ++ ys) := by
          rw [List.append_assoc, List.append_assoc]
          exact List.perm_append_comm.append_left _
        exact (swap ..).trans (((ih (by omega)).append_right _).trans (swap ..))

end Yafsml.Slots

namespace Yafsml.TriangularProbing

/-- The slot after `k` steps from the start `s`. -/
def spot (n s k : Nat) : Nat := (s + k * (k + 1) / 2) % n

theorem two_mul_triangle (k : Nat) : 2 * (k * (k + 1) / 2) = k * (k + 1) :=
  Nat.two_mul_div_two_of_even (Nat.even_mul_succ_self k)

theorem spot_lt {n : Nat} (positive : 0 < n) (s k : Nat) : spot n s k < n := Nat.mod_lt _ positive

@[simp] theorem spot_zero (n s : Nat) : spot n s 0 = s % n := by simp [spot]

theorem spot_succ (n s k : Nat) : (spot n s k + (k + 1)) % n = spot n s (k + 1) := by
  have triangle : (k + 1) * (k + 1 + 1) / 2 = k * (k + 1) / 2 + (k + 1) := by
    have before := two_mul_triangle k
    have after := two_mul_triangle (k + 1)
    have grown : (k + 1) * (k + 1 + 1) = k * (k + 1) + 2 * (k + 1) := by ring
    omega
  rw [spot, spot, Nat.mod_add_mod, triangle, Nat.add_assoc]

section Power

variable {n e : Nat} (power : n = 2 ^ e)

include power

theorem spot_ne {s i j : Nat} (before : i < j) (inside : j < n) : spot n s i ≠ spot n s j := by
  intro same
  subst power
  have divides : 2 ^ e ∣ j * (j + 1) / 2 - i * (i + 1) / 2 := by
    have below : i * (i + 1) / 2 ≤ j * (j + 1) / 2 :=
      Nat.div_le_div_right (Nat.mul_le_mul (by omega) (by omega))
    exact (Nat.modEq_iff_dvd' below).mp (Nat.ModEq.add_left_cancel' s same)
  have product : 2 ^ (e + 1) ∣ (j - i) * (j + i + 1) := by
    obtain ⟨d, rfl⟩ : ∃ d, j = i + d := ⟨j - i, by omega⟩
    have twice := Nat.mul_dvd_mul_left 2 divides
    have expand : (i + d) * (i + d + 1) = i * (i + 1) + d * (i + d + i + 1) := by ring
    rw [Nat.mul_sub, two_mul_triangle, two_mul_triangle, expand, Nat.add_sub_cancel_left] at twice
    rwa [pow_succ', Nat.add_sub_cancel_left]
  -- one of the factors is odd, and the other one is less than the power
  rcases Nat.even_or_odd (j - i) with even | odd
  · have odd : Odd (j + i + 1) := by
      have sum : j + i + 1 = (j - i) + 2 * i + 1 := by omega
      rw [sum]
      exact (even.add (even_two_mul i)).add_one
    have coprime : Nat.Coprime (2 ^ (e + 1)) (j + i + 1) := (Nat.coprime_two_left.mpr odd).pow_left _
    have small := Nat.le_of_dvd (by omega) (coprime.dvd_of_dvd_mul_right product)
    rw [pow_succ] at small
    omega
  · have coprime : Nat.Coprime (2 ^ (e + 1)) (j - i) := (Nat.coprime_two_left.mpr odd).pow_left _
    have small := Nat.le_of_dvd (by omega) (coprime.dvd_of_dvd_mul_left product)
    rw [pow_succ] at small
    omega

theorem exists_spot (s : Nat) {i : Nat} (inside : i < n) : ∃ k < n, spot n s k = i := by
  have injective : Function.Injective fun k : Fin n => (⟨spot n s k, spot_lt (by omega) s k⟩ : Fin n) := by
    intro a b same
    have same := congrArg Fin.val same
    rcases Nat.lt_trichotomy a b with before | equal | after
    · exact absurd same (spot_ne power before b.isLt)
    · exact Fin.ext equal
    · exact absurd same.symm (spot_ne power after a.isLt)
  obtain ⟨k, reached⟩ := Finite.injective_iff_surjective.mp injective ⟨i, inside⟩
  exact ⟨k, k.isLt, congrArg Fin.val reached⟩

theorem exists_first (stop : Nat → Prop) [DecidablePred stop] (s : Nat) {i : Nat} (inside : i < n)
    (stops : stop i) : ∃ k < n, stop (spot n s k) ∧ ∀ j < k, ¬ stop (spot n s j) := by
  obtain ⟨k, within, reached⟩ := exists_spot power s inside
  have somewhere : ∃ k, stop (spot n s k) := ⟨k, reached ▸ stops⟩
  refine ⟨Nat.find somewhere, ?_, Nat.find_spec somewhere, fun j before => Nat.find_min somewhere before⟩
  exact lt_of_le_of_lt (Nat.find_min' somewhere (reached ▸ stops)) within

end Power

end Yafsml.TriangularProbing
