import Mathlib.Data.List.Induction
import Mathlib.Data.List.Sort

/-!
# Stable insertion

A value goes behind every value whose key is not larger. Of the values with one name only the first is
taken.
-/

namespace Yafsml.StableInsert

section Insert

variable {α β : Type*} [LinearOrder β] (key : α → β)

def insertStable (a : α) (l : List α) : List α := l.orderedInsert (fun a b => key a < key b) a

/-- The values of `given` in the order of their keys, and in their own where the keys are equal. -/
structure Sorts (given sorted : List α) : Prop where
  perm : sorted.Perm given
  ordered : sorted.Pairwise fun a b => key a ≤ key b
  stable : ∀ k, sorted.filter (fun a => key a = k) = given.filter fun a => key a = k

variable {key}

theorem mem_insertStable {a b : α} {l : List α} : b ∈ insertStable key a l ↔ b = a ∨ b ∈ l :=
  List.mem_orderedInsert _

theorem ordered_insertStable (a : α) {l : List α} (ordered : l.Pairwise fun a b => key a ≤ key b) :
    (insertStable key a l).Pairwise fun a b => key a ≤ key b := by
  induction l with
  | nil => exact List.pairwise_singleton _ _
  | cons b l ih =>
      obtain ⟨first, rest⟩ := List.pairwise_cons.mp ordered
      rw [insertStable, List.orderedInsert_cons]
      split_ifs with before
      · refine List.pairwise_cons.mpr ⟨fun c member => ?_, ordered⟩
        rcases List.mem_cons.mp member with rfl | later
        · exact before.le
        · exact before.le.trans (first c later)
      · refine List.pairwise_cons.mpr ⟨fun c member => ?_, ih rest⟩
        rcases mem_insertStable.mp member with rfl | later
        · exact le_of_not_gt before
        · exact first c later

theorem filter_insertStable (a : α) {l : List α} (ordered : l.Pairwise fun a b => key a ≤ key b) (k : β) :
    (insertStable key a l).filter (fun b => key b = k) = (l ++ [a]).filter fun b => key b = k := by
  induction l with
  | nil => rfl
  | cons b l ih =>
      obtain ⟨first, rest⟩ := List.pairwise_cons.mp ordered
      rw [insertStable, List.orderedInsert_cons]
      split_ifs with before
      · by_cases own : key a = k
        · -- nothing behind has the key of `a`
          have none : (b :: l).filter (fun c => key c = k) = [] := by
            rw [List.filter_eq_nil_iff]
            intro c member
            have least : key b ≤ key c := by
              rcases List.mem_cons.mp member with rfl | later
              · exact le_rfl
              · exact first c later
            have other : key c ≠ k := fun same => (before.trans_le least).ne (own.trans same.symm)
            simpa using other
          rw [List.filter_append, none, List.filter_cons, none]
          simp [own]
        · rw [List.filter_append, List.filter_cons]
          simp [own]
      · rw [List.cons_append, List.filter_cons, List.filter_cons]
        have later := ih rest
        rw [insertStable] at later
        rw [later]

namespace Sorts

theorem nil : Sorts key [] [] := ⟨.nil, .nil, fun _ => rfl⟩

theorem insert {given sorted : List α} (sorts : Sorts key given sorted) (a : α) :
    Sorts key (given ++ [a]) (insertStable key a sorted) where
  perm := (List.perm_orderedInsert _ a sorted).trans
    ((sorts.perm.cons a).trans (List.perm_append_singleton a given).symm)
  ordered := ordered_insertStable a sorts.ordered
  stable k := by
    rw [filter_insertStable a sorts.ordered, List.filter_append, List.filter_append, sorts.stable]

end Sorts

end Insert

section Firsts

variable {α κ : Type*} [DecidableEq κ] (name : α → κ)

def firsts : List α → List α
  | [] => []
  | a :: l => a :: (firsts l).filter fun b => name b ≠ name a

theorem mem_map_firsts {n : κ} (l : List α) : n ∈ (firsts name l).map name ↔ n ∈ l.map name := by
  induction l with
  | nil => rfl
  | cons a l ih =>
      simp only [firsts, List.map_cons, List.mem_cons, ← ih, List.mem_map, List.mem_filter,
        decide_eq_true_eq]
      constructor
      · rintro (rfl | ⟨b, ⟨member, -⟩, rfl⟩)
        · exact .inl rfl
        · exact .inr ⟨b, member, rfl⟩
      · rintro (rfl | ⟨b, member, rfl⟩)
        · exact .inl rfl
        · by_cases same : name b = name a
          · exact .inl same
          · exact .inr ⟨b, ⟨member, same⟩, rfl⟩

theorem nodup_firsts (l : List α) : ((firsts name l).map name).Nodup := by
  induction l with
  | nil => exact List.nodup_nil
  | cons a l ih =>
      rw [firsts, List.map_cons, List.nodup_cons]
      constructor
      · rw [List.mem_map]
        rintro ⟨b, member, same⟩
        simp [same] at member
      · exact ih.sublist (List.filter_sublist.map name)

theorem find_firsts {a : α} {l : List α} (taken : a ∈ firsts name l) :
    l.find? (fun b => name b = name a) = some a := by
  induction l with
  | nil => cases taken
  | cons b l ih =>
      rw [List.find?_cons]
      rcases List.mem_cons.mp taken with rfl | later
      · simp
      · obtain ⟨member, other⟩ := List.mem_filter.mp later
        have differs : name b ≠ name a := fun same => by simp [same] at other
        rw [decide_eq_false differs]
        exact ih member

theorem firsts_append (l : List α) (a : α) :
    firsts name (l ++ [a]) = if name a ∈ l.map name then firsts name l else firsts name l ++ [a] := by
  induction l with
  | nil => rfl
  | cons b l ih =>
      rw [List.cons_append, firsts, ih, firsts, List.map_cons]
      by_cases old : name a ∈ l.map name
      · rw [if_pos old, if_pos (List.mem_cons_of_mem _ old)]
      · rw [if_neg old, List.filter_append]
        by_cases same : name a = name b
        · simp [same]
        · simp [same, old]

variable {β : Type*} [LinearOrder β] (key : α → β)

def sortFirsts (l : List α) : List α := (firsts name l).foldl (fun sorted a => insertStable key a sorted) []

theorem sortFirsts_append (l : List α) (a : α) :
    sortFirsts name key (l ++ [a]) =
      if name a ∈ l.map name then sortFirsts name key l else insertStable key a (sortFirsts name key l) := by
  rw [sortFirsts, firsts_append]
  split_ifs
  · rfl
  · rw [List.foldl_append]
    rfl

theorem sorts_sortFirsts (l : List α) : Sorts key (firsts name l) (sortFirsts name key l) := by
  unfold sortFirsts
  generalize firsts name l = given
  induction given using List.reverseRecOn with
  | nil => exact Sorts.nil
  | append_singleton given a ih =>
      rw [List.foldl_append]
      exact ih.insert a

theorem mem_map_sortFirsts {n : κ} (l : List α) :
    n ∈ (sortFirsts name key l).map name ↔ n ∈ l.map name := by
  rw [((sorts_sortFirsts name key l).perm.map name).mem_iff, mem_map_firsts]

theorem nodup_sortFirsts (l : List α) : ((sortFirsts name key l).map name).Nodup :=
  ((sorts_sortFirsts name key l).perm.map name).nodup_iff.mpr (nodup_firsts name l)

end Firsts

end Yafsml.StableInsert
