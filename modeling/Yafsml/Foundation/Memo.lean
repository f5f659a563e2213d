import Mathlib.Data.List.AList
import Yafsml.Foundation.FiniteMap

/-!
# Memo tables

A memo keeps the answers of earlier queries under their keys. Queries that share a key share the
remembered answer, so a hit is right when they also name the same thing.
-/

namespace Yafsml.Memo

variable {Query Key Answer : Type*}

section Entries

variable [DecidableEq Key]

/-- The remembered answer: the first entry under the key. -/
def lookup (entries : List (Key × Answer)) (key : Key) : Option Answer :=
  (entries.find? fun entry => entry.1 = key).map (·.2)

theorem lookup_mem {entries : List (Key × Answer)} {key : Key} {answer : Answer}
    (found : lookup entries key = some answer) : (key, answer) ∈ entries := by
  obtain ⟨⟨key', answer'⟩, first, rfl⟩ := Option.map_eq_some_iff.mp found
  obtain rfl : key' = key := by simpa using List.find?_some first
  exact List.mem_of_find?_eq_some first

theorem lookup_eq_some {entries : List (Key × Answer)} (distinct : (entries.map (·.1)).Nodup)
    {key : Key} {answer : Answer} :
    lookup entries key = some answer ↔ (key, answer) ∈ entries := by
  refine ⟨lookup_mem, fun member => ?_⟩
  induction entries with
  | nil => cases member
  | cons first rest ih =>
      rw [List.map_cons, List.nodup_cons] at distinct
      rcases List.mem_cons.mp member with rfl | later
      · simp [lookup]
      · have different : first.1 ≠ key := by
          rintro rfl
          exact distinct.1 (List.mem_map.mpr ⟨_, later, rfl⟩)
        simpa [lookup, different] using ih distinct.2 later

theorem lookup_eq_none {entries : List (Key × Answer)} {key : Key} :
    lookup entries key = none ↔ key ∉ entries.map (·.1) := by
  rw [lookup, Option.map_eq_none_iff, List.find?_eq_none, List.mem_map, not_exists]
  exact forall_congr' fun entry => by simp

theorem lookup_append (entries : List (Key × Answer)) (key key' : Key) (answer : Answer)
    (fresh : lookup entries key = none) :
    lookup (entries ++ [(key, answer)]) key' =
      if key' = key then some answer else lookup entries key' := by
  unfold lookup at fresh ⊢
  rw [Option.map_eq_none_iff] at fresh
  rw [List.find?_append]
  by_cases same : key' = key
  · subst same
    simp [fresh]
  · cases entries.find? fun entry => decide (entry.1 = key') with
    | some entry => simp [same]
    | none => simp [same, Ne.symm same]

end Entries

def Backed (key : Query → Option Key) (answer : Query → Option Answer) (history : List Query)
    (entries : List (Key × Answer)) : Prop :=
  ∀ k a, (k, a) ∈ entries → ∃ query ∈ history, key query = some k ∧ answer query = some a

namespace Backed

variable {key : Query → Option Key} {answer : Query → Option Answer} {history : List Query}
  {entries : List (Key × Answer)}

theorem nil : Backed key answer history [] := by
  intro k a member
  cases member

theorem later (backed : Backed key answer history entries) (query : Query) :
    Backed key answer (history ++ [query]) entries := by
  intro k a member
  obtain ⟨earlier, asked, same⟩ := backed k a member
  exact ⟨earlier, List.mem_append_left _ asked, same⟩

theorem remember (backed : Backed key answer history entries) {query : Query} {k : Key} {a : Answer}
    (asked : query ∈ history) (spelled : key query = some k) (answered : answer query = some a) :
    Backed key answer history (entries ++ [(k, a)]) := by
  intro k' a' member
  rcases List.mem_append.mp member with member | member
  · exact backed k' a' member
  · cases List.mem_singleton.mp member
    exact ⟨query, asked, spelled, answered⟩

end Backed

end Yafsml.Memo
