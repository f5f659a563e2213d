import Mathlib.Data.List.AList

/-!
# Finite maps

`AList` read through `lookup` alone: what each operation does to every key at once.
-/

namespace FiniteMap

variable {κ ν : Type*} [DecidableEq κ]

theorem lookup_insert (map : AList fun _ : κ => ν) (key : κ) (value : ν) (k : κ) :
    (map.insert key value).lookup k = if k = key then some value else map.lookup k := by
  split
  · rename_i h
    rw [h, AList.lookup_insert]
  · rename_i h
    rw [AList.lookup_insert_ne h]

theorem lookup_erase (map : AList fun _ : κ => ν) (key k : κ) :
    (map.erase key).lookup k = if k = key then none else map.lookup k := by
  split
  · rename_i h
    rw [h, AList.lookup_erase]
  · rename_i h
    rw [AList.lookup_erase_ne h]

theorem erase_entries_of_none {map : AList fun _ : κ => ν} {key : κ} (absent : map.lookup key = none) :
    (map.erase key).entries = map.entries :=
  List.kerase_of_notMem_keys (AList.lookup_eq_none.mp absent)

theorem entries_perm_erase {map : AList fun _ : κ => ν} {key : κ} {value : ν}
    (present : map.lookup key = some value) :
    map.entries.Perm (⟨key, value⟩ :: (map.erase key).entries) := by
  have member : key ∈ map.entries.keys := by
    by_contra absent
    rw [AList.lookup_eq_none.mpr absent] at present
    cases present
  obtain ⟨found, before, after, _, split, erased⟩ := List.exists_of_kerase member
  have same : found = value := by
    have among : (⟨key, found⟩ : Sigma fun _ : κ => ν) ∈ map.entries := by simp [split]
    have read := AList.mem_lookup_iff.mpr among
    rw [present] at read
    exact (Option.some.inj read).symm
  change map.entries.Perm (⟨key, value⟩ :: List.kerase key map.entries)
  rw [erased, split, same]
  exact List.perm_middle

def tally (p : ν → Bool) (map : AList fun _ : κ => ν) : Nat := (map.entries.map Sigma.snd).countP p

def share (p : ν → Bool) (value : Option ν) : Nat := value.elim 0 fun value => if p value then 1 else 0

omit [DecidableEq κ] in
@[simp] theorem tally_empty (p : ν → Bool) : tally p (∅ : AList fun _ : κ => ν) = 0 := rfl

theorem tally_erase (p : ν → Bool) (map : AList fun _ : κ => ν) (key : κ) :
    tally p (map.erase key) + share p (map.lookup key) = tally p map := by
  obtain ⟨entries, nodup⟩ := map
  change ((List.kerase key entries).map Sigma.snd).countP p + share p (List.dlookup key entries) =
    (entries.map Sigma.snd).countP p
  clear nodup
  induction entries with
  | nil => rfl
  | cons entry rest ih =>
      obtain ⟨key', value⟩ := entry
      by_cases here : key = key'
      · subst here
        have erased : List.kerase key (⟨key, value⟩ :: rest : List (Sigma fun _ : κ => ν)) = rest :=
          List.kerase_cons_eq rfl
        rw [erased, List.dlookup_cons_eq, List.map_cons, List.countP_cons]
        rfl
      · rw [List.kerase_cons_ne here, List.dlookup_cons_ne _ _ here, List.map_cons, List.countP_cons,
          List.map_cons, List.countP_cons, ← ih]
        omega

theorem tally_insert (p : ν → Bool) (map : AList fun _ : κ => ν) (key : κ) (value : ν) :
    tally p (map.insert key value) + share p (map.lookup key) =
      tally p map + if p value then 1 else 0 := by
  have inserted : tally p (map.insert key value) = tally p (map.erase key) + if p value then 1 else 0 := by
    rw [tally, AList.entries_insert, List.map_cons, List.countP_cons]
    rfl
  rw [inserted, ← tally_erase p map key]
  omega

end FiniteMap
