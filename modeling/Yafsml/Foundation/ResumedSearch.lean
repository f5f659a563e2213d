import Mathlib.Data.List.Basic

/-!
# Searches that are resumed

Every key is tried on the items of a list that grows between two searches. A key remembers how many items
it was tried on, and a later search goes on from there.
-/

namespace ResumedSearch

/-- A test of keys on items; the cursor of a key is not for the test. -/
structure Resumable (κ ι ρ : Type*) where
  cursor : κ → Nat
  moved : κ → Nat → κ
  test : κ → ι → Option ρ
  cursor_moved : ∀ key n, cursor (moved key n) = n
  test_moved : ∀ key n, test (moved key n) = test key

namespace Resumable

variable {κ ι ρ : Type*} (r : Resumable κ ι ρ) (eligible : κ → Bool) (items : List ι)

/-- The keys with their new cursors, and the first key with what it finds. A key that finds something
keeps its cursor, and the keys behind it are not looked at. -/
def search : List κ → List κ × Option (κ × ρ)
  | [] => ([], none)
  | key :: rest =>
      if eligible key then
        match (items.drop (r.cursor key)).findSome? (r.test key) with
        | some found => (key :: rest, some (key, found))
        | none => (r.moved key items.length :: (search rest).1, (search rest).2)
      else (key :: (search rest).1, (search rest).2)

def fullSearch (keys : List κ) : Option (κ × ρ) :=
  ((keys.filter eligible).flatMap fun key => items.map fun item => (key, item)).findSome? fun pair =>
    (r.test pair.1 pair.2).map fun found => (pair.1, found)

structure Tried (key : κ) : Prop where
  within : r.cursor key ≤ items.length
  fails : ∀ i item, i < r.cursor key → items[i]? = some item → r.test key item = none

variable {r eligible items}

theorem fullSearch_nil : r.fullSearch eligible items [] = none := rfl

theorem fullSearch_skip {key : κ} (skipped : eligible key = false) (rest : List κ) :
    r.fullSearch eligible items (key :: rest) = r.fullSearch eligible items rest := by
  rw [fullSearch, List.filter_cons_of_neg (by simp [skipped]), fullSearch]

theorem fullSearch_try {key : κ} (tried : eligible key = true) (rest : List κ) :
    r.fullSearch eligible items (key :: rest) =
      ((items.findSome? (r.test key)).map fun found => (key, found)).or
        (r.fullSearch eligible items rest) := by
  rw [fullSearch, List.filter_cons_of_pos tried, List.flatMap_cons, List.findSome?_append,
    List.findSome?_map, fullSearch]
  congr 1
  induction items with
  | nil => rfl
  | cons item later ih =>
      simp only [List.findSome?_cons, Function.comp_apply]
      cases r.test key item with
      | none => exact ih
      | some found => rfl

theorem Tried.findSome?_drop {key : κ} (tried : r.Tried items key) :
    (items.drop (r.cursor key)).findSome? (r.test key) = items.findSome? (r.test key) := by
  have front : (items.take (r.cursor key)).findSome? (r.test key) = none := by
    rw [List.findSome?_eq_none_iff]
    intro item member
    obtain ⟨i, below, found⟩ := List.mem_take_iff_getElem.mp member
    exact tried.fails i item (by omega) (by rw [List.getElem?_eq_getElem (by omega), found])
  conv_rhs => rw [← List.take_append_drop (r.cursor key) items, List.findSome?_append, front]
  rfl

theorem search_eq_fullSearch {keys : List κ} (tried : ∀ key ∈ keys, r.Tried items key) :
    (r.search eligible items keys).2 = r.fullSearch eligible items keys := by
  induction keys with
  | nil => rfl
  | cons key rest ih =>
      have later := ih fun other member => tried other (List.mem_cons_of_mem _ member)
      have here := (tried key List.mem_cons_self).findSome?_drop
      rw [search]
      cases eligible_key : eligible key with
      | false =>
          rw [fullSearch_skip eligible_key]
          exact later
      | true =>
          rw [fullSearch_try eligible_key, if_pos rfl, here]
          cases items.findSome? (r.test key) with
          | some found => rfl
          | none => exact later

theorem Tried.all {key : κ} (nothing : items.findSome? (r.test key) = none) :
    r.Tried items (r.moved key items.length) where
  within := Nat.le_of_eq (r.cursor_moved key _)
  fails i item _ found := by
    rw [r.test_moved]
    exact List.findSome?_eq_none_iff.mp nothing item (List.mem_of_getElem? found)

theorem search_tried {keys : List κ} (tried : ∀ key ∈ keys, r.Tried items key) :
    ∀ key ∈ (r.search eligible items keys).1, r.Tried items key := by
  induction keys with
  | nil => exact fun key member => absurd member List.not_mem_nil
  | cons first rest ih =>
      have later := ih fun other member => tried other (List.mem_cons_of_mem _ member)
      have here := tried first List.mem_cons_self
      rw [search]
      split
      · split
        · exact tried
        · rename_i nothing
          rw [here.findSome?_drop] at nothing
          exact List.forall_mem_cons.mpr ⟨.all nothing, later⟩
      · exact List.forall_mem_cons.mpr ⟨here, later⟩

theorem tried_fresh {key : κ} (fresh : r.cursor key = 0) : r.Tried items key :=
  ⟨fresh ▸ Nat.zero_le _, fun i _ before => absurd (fresh ▸ before) (Nat.not_lt_zero i)⟩

theorem Tried.append {key : κ} (tried : r.Tried items key) (more : List ι) : r.Tried (items ++ more) key where
  within := Nat.le_trans tried.within (by simp)
  fails i item before found :=
    tried.fails i item before (by rwa [List.getElem?_append_left (Nat.lt_of_lt_of_le before tried.within)] at found)

theorem Tried.set {key : κ} (tried : r.Tried items key) {place : Nat} {item : ι}
    (harmless : place < r.cursor key → r.test key item = none) : r.Tried (items.set place item) key where
  within := by
    rw [List.length_set]
    exact tried.within
  fails i other before found := by
    rw [List.getElem?_set] at found
    split_ifs at found with same
    · subst same
      cases found
      exact harmless before
    · exact tried.fails i other before found

end Resumable

end ResumedSearch
