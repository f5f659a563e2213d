import Mathlib.Data.List.Induction
import Mathlib.Data.List.Nodup
import Mathlib.Tactic.Common

/-!
# Bounded tallies

Counting the keys of a stream in a table with room for so many of them: the keys that come first are
counted, the ones that find no room are not.
-/

namespace Tally

variable {α : Type*} [DecidableEq α]

def bump (capacity : Nat) (a : α) : List (α × Nat) → List (α × Nat)
  | [] => if capacity = 0 then [] else [(a, 1)]
  | (b, n) :: rest => if b = a then (b, n + 1) :: rest else (b, n) :: bump (capacity - 1) a rest

def tally (capacity : Nat) (xs : List α) : List (α × Nat) := xs.foldl (fun table a => bump capacity a table) []

def countIn (table : List (α × Nat)) (a : α) : Nat := ((table.find? (·.1 = a)).map Prod.snd).getD 0

def firsts (capacity : Nat) (xs : List α) : List α := xs.eraseDups.take capacity

section Table

variable {capacity : Nat} {xs keys : List α} {a : α}

theorem eraseDups_snoc (xs : List α) (a : α) :
    (xs ++ [a]).eraseDups = xs.eraseDups ++ if a ∈ xs then [] else [a] := by
  rw [List.eraseDups_append]
  by_cases seen : a ∈ xs <;> simp [List.removeAll, seen, List.eraseDups_cons]

theorem nodup_eraseDups (xs : List α) : xs.eraseDups.Nodup := by
  induction xs using List.reverseRecOn with
  | nil => exact List.nodup_nil
  | append_singleton xs a ih =>
      rw [eraseDups_snoc]
      split_ifs with seen
      · simpa using ih
      · exact ih.append (List.nodup_singleton a) (by simpa using seen)

theorem firsts_snoc (capacity : Nat) (xs : List α) (a : α) :
    firsts capacity (xs ++ [a]) =
      firsts capacity xs ++ if a ∉ xs ∧ xs.eraseDups.length < capacity then [a] else [] := by
  rw [firsts, eraseDups_snoc, List.take_append, firsts]
  by_cases seen : a ∈ xs
  · simp [seen]
  · by_cases room : xs.eraseDups.length < capacity
    · simp [seen, room, List.take_of_length_le (by simp; omega : [a].length ≤ capacity - xs.eraseDups.length)]
    · simp [seen, room, Nat.sub_eq_zero_of_le (Nat.le_of_not_lt room)]

theorem mem_of_mem_firsts (among : a ∈ firsts capacity xs) : a ∈ xs :=
  List.mem_eraseDups.mp (List.mem_of_mem_take among)

theorem full_of_left_out (seen : a ∈ xs) (out : a ∉ firsts capacity xs) : (firsts capacity xs).length = capacity := by
  rw [firsts, List.length_take]
  by_contra room
  have all : capacity ≥ xs.eraseDups.length := by omega
  rw [firsts, List.take_of_length_le all, List.mem_eraseDups] at out
  exact out seen

theorem bump_present (nodup : keys.Nodup) (among : a ∈ keys) (count : α → Nat) :
    bump capacity a (keys.map fun b => (b, count b)) =
      keys.map fun b => (b, if b = a then count b + 1 else count b) := by
  induction keys generalizing capacity with
  | nil => exact absurd among List.not_mem_nil
  | cons b keys ih =>
      obtain ⟨apart, nodup⟩ := List.nodup_cons.mp nodup
      rw [List.map_cons, bump, List.map_cons]
      by_cases here : b = a
      · subst here
        rw [if_pos rfl, if_pos rfl]
        congr 1
        apply List.map_congr_left
        intro c other
        have apart : c ≠ b := fun same => apart (same ▸ other)
        rw [if_neg apart]
      · rw [if_neg here, if_neg here, ih nodup (List.mem_of_ne_of_mem (Ne.symm here) among)]

theorem bump_absent (absent : a ∉ keys) (count : α → Nat) :
    bump capacity a (keys.map fun b => (b, count b)) =
      (keys.map fun b => (b, count b)) ++ if keys.length < capacity then [(a, 1)] else [] := by
  induction keys generalizing capacity with
  | nil => cases capacity <;> simp [bump]
  | cons b keys ih =>
      obtain ⟨other, absent⟩ := not_or.mp (List.mem_cons.not.mp absent)
      rw [List.map_cons, bump, if_neg (Ne.symm other), ih absent, List.cons_append, List.length_cons]
      have room : keys.length < capacity - 1 ↔ keys.length + 1 < capacity := by omega
      simp only [room]

theorem tally_snoc (capacity : Nat) (xs : List α) (a : α) :
    tally capacity (xs ++ [a]) = bump capacity a (tally capacity xs) := by
  simp [tally]

theorem tally_eq (capacity : Nat) (xs : List α) :
    tally capacity xs = (firsts capacity xs).map fun a => (a, xs.count a) := by
  induction xs using List.reverseRecOn with
  | nil => simp [tally, firsts]
  | append_singleton xs a ih =>
      have nodup : (firsts capacity xs).Nodup := (nodup_eraseDups xs).sublist (List.take_sublist ..)
      have others : ∀ b ∈ firsts capacity xs, b ≠ a → (xs ++ [a]).count b = xs.count b := by
        intro b _ other
        simp [Ne.symm other]
      rw [tally_snoc, ih]
      by_cases counted : a ∈ firsts capacity xs
      · rw [bump_present nodup counted, firsts_snoc, if_neg (by simp [mem_of_mem_firsts counted]), List.append_nil]
        apply List.map_congr_left
        intro b among
        by_cases here : b = a
        · simp [here]
        · simp [here, others b among here]
      · have kept : ((firsts capacity xs).map fun b => (b, xs.count b)) =
            (firsts capacity xs).map fun b => (b, (xs ++ [a]).count b) := by
          apply List.map_congr_left
          intro b among
          rw [others b among fun same => counted (same ▸ among)]
        rw [bump_absent counted, firsts_snoc, List.map_append, ← kept]
        congr 1
        by_cases seen : a ∈ xs
        · have full := full_of_left_out seen counted
          simp [seen, full]
        · have length : (firsts capacity xs).length < capacity ↔ xs.eraseDups.length < capacity := by
            rw [firsts, List.length_take]
            omega
          by_cases room : xs.eraseDups.length < capacity <;> simp [seen, length, room, List.count_eq_zero_of_not_mem]

theorem countIn_tally (capacity : Nat) (xs : List α) (a : α) :
    countIn (tally capacity xs) a = if a ∈ firsts capacity xs then xs.count a else 0 := by
  rw [tally_eq]
  generalize firsts capacity xs = keys
  induction keys with
  | nil => rfl
  | cons b keys ih =>
      by_cases here : b = a
      · simp [countIn, here]
      · simpa [countIn, here, Ne.symm here] using ih

end Table

section Reach

variable {capacity threshold : Nat} {xs : List α} {a b : α}

def reach (capacity threshold : Nat) : List (α × Nat) → List α → Option α
  | _, [] => none
  | table, a :: rest =>
      if threshold ≤ countIn (bump capacity a table) a then some a
      else reach capacity threshold (bump capacity a table) rest

def Hit (capacity threshold : Nat) (xs : List α) (a : α) : Prop :=
  a ∈ firsts capacity xs ∧ threshold ≤ xs.count a

theorem hit_snoc_other (other : b ≠ a) :
    Hit capacity threshold (xs ++ [a]) b ↔ Hit capacity threshold xs b := by
  have same : b ∈ firsts capacity (xs ++ [a]) ↔ b ∈ firsts capacity xs := by
    rw [firsts_snoc]
    split_ifs <;> simp [other]
  rw [Hit, Hit, same]
  simp [Ne.symm other]

theorem Hit.snoc (hit : Hit capacity threshold xs b) (a : α) : Hit capacity threshold (xs ++ [a]) b := by
  refine ⟨?_, Nat.le_trans hit.2 (by simp)⟩
  rw [firsts_snoc]
  exact List.mem_append_left _ hit.1

theorem reach_append (table : List (α × Nat)) (xs ys : List α) :
    reach capacity threshold table (xs ++ ys) =
      (reach capacity threshold table xs).or
        (reach capacity threshold (xs.foldl (fun table a => bump capacity a table) table) ys) := by
  induction xs generalizing table with
  | nil => rfl
  | cons a xs ih =>
      simp only [List.cons_append, reach, List.foldl_cons]
      split_ifs
      · rfl
      · exact ih _

theorem reach_snoc (xs : List α) (a : α) :
    reach capacity threshold [] (xs ++ [a]) =
      (reach capacity threshold [] xs).or
        (if threshold ≤ countIn (tally capacity (xs ++ [a])) a then some a else none) := by
  rw [reach_append, tally_snoc]
  rfl

theorem hit_iff (positive : 0 < threshold) :
    threshold ≤ countIn (tally capacity xs) a ↔ Hit capacity threshold xs a := by
  rw [countIn_tally, Hit]
  split_ifs with counted
  · simp [counted]
  · simp only [counted, false_and, iff_false]
    omega

theorem reach_eq_none (positive : 0 < threshold) :
    reach capacity threshold [] xs = none ↔ ∀ a, ¬ Hit capacity threshold xs a := by
  induction xs using List.reverseRecOn with
  | nil => simp [reach, Hit, firsts]
  | append_singleton xs a ih =>
      rw [reach_snoc, Option.or_eq_none_iff, ih]
      simp only [hit_iff positive, ite_eq_right_iff, reduceCtorEq, imp_false]
      constructor
      · rintro ⟨none, last⟩ b hit
        by_cases here : b = a
        · exact last (here ▸ hit)
        · exact none b ((hit_snoc_other here).mp hit)
      · exact fun none => ⟨fun b hit => none b (hit.snoc a), none a⟩

theorem reach_eq_some (positive : 0 < threshold) :
    reach capacity threshold [] xs = some a ↔ ∃ before rest, xs = before ++ a :: rest ∧
      Hit capacity threshold (before ++ [a]) a ∧ ∀ b, ¬ Hit capacity threshold before b := by
  constructor
  · intro reached
    induction xs using List.reverseRecOn with
    | nil => cases reached
    | append_singleton xs c ih =>
        rw [reach_snoc] at reached
        cases earlier : reach capacity threshold [] xs with
        | some b =>
            rw [earlier, Option.some_or, Option.some.injEq] at reached
            subst reached
            obtain ⟨before, rest, rfl, hit, none⟩ := ih earlier
            exact ⟨before, rest ++ [c], by simp, hit, none⟩
        | none =>
            rw [earlier, Option.none_or, ite_eq_iff] at reached
            obtain ⟨enough, rfl⟩ : threshold ≤ countIn (tally capacity (xs ++ [c])) c ∧ c = a := by simpa using reached
            exact ⟨xs, [], rfl, (hit_iff positive).mp enough, (reach_eq_none positive).mp earlier⟩
  · rintro ⟨before, rest, rfl, hit, none⟩
    have here : reach capacity threshold [] (before ++ [a]) = some a := by
      rw [reach_snoc, (reach_eq_none positive).mpr none, if_pos ((hit_iff positive).mpr hit)]
      rfl
    rw [List.append_cons, reach_append, here]
    rfl

end Reach

end Tally
