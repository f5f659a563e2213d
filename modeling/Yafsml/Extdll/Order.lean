import Mathlib.Data.List.Range
import Yafsml.Extdll.Prepare

/-!
# The dependency sort

Every move of the sort puts a dependency before its dependent. The sort gives up exactly on the
configurations with a dependency cycle, and never changes which entry a name stands for.
-/

namespace Yafsml.Extdll
open PrerequisiteSort Relation

variable {dlls : List Extdll}

/-- The entry at `x` names the one at `d`; a name stands for its first entry. -/
def Depends (dlls : List Extdll) (x d : Nat) : Prop :=
  x ≠ d ∧ ∃ dll, dlls[x]? = some dll ∧ ∃ name ∈ dll.after, extdllIndexByName dlls name = some d

def Acyclic (dlls : List Extdll) : Prop := ∀ x, ¬ TransGen (Depends dlls) x x

theorem extdllIndexByName_eq_some {name : String} {d : Nat} :
    extdllIndexByName dlls name = some d ↔
      (∃ dll, dlls[d]? = some dll ∧ dll.name = name) ∧
        ∀ k dll, k < d → dlls[k]? = some dll → dll.name ≠ name := by
  rw [extdllIndexByName, List.findIdx?_eq_some_iff_getElem]
  constructor
  · rintro ⟨inside, named, first⟩
    refine ⟨⟨dlls[d], List.getElem?_eq_getElem inside, by simpa using named⟩, ?_⟩
    intro k dll before located
    obtain ⟨_, rfl⟩ := List.getElem?_eq_some_iff.mp located
    simpa using first k before
  · rintro ⟨⟨dll, located, named⟩, first⟩
    obtain ⟨inside, rfl⟩ := List.getElem?_eq_some_iff.mp located
    refine ⟨inside, by simpa using named, fun k before => ?_⟩
    simpa using first k _ before (List.getElem?_eq_getElem (by omega))

theorem Depends.lt (depends : Depends dlls x d) : x < dlls.length ∧ d < dlls.length := by
  obtain ⟨_, dll, located, name, _, found⟩ := depends
  obtain ⟨⟨_, located', _⟩, _⟩ := extdllIndexByName_eq_some.mp found
  exact ⟨(List.getElem?_eq_some_iff.mp located).1, (List.getElem?_eq_some_iff.mp located').1⟩

/-! ## One round -/

theorem findIdx?_of_nodup {order : List Nat} (nodup : order.Nodup) {k d : Nat}
    (located : order[k]? = some d) : order.findIdx? (· == d) = some k := by
  obtain ⟨inside, rfl⟩ := List.getElem?_eq_some_iff.mp located
  refine List.findIdx?_eq_some_iff_getElem.mpr ⟨inside, by simp, fun j before same => ?_⟩
  have := nodup.getElem_inj_iff.mp (by simpa using same)
  omega

section Nearest

variable {order : List Nat} {i : Nat}

theorem nearer_cases (dlls : List Extdll) (order : List Nat) (i : Nat) (nearest : Option Nat) (name : String) :
    nearer dlls order i nearest name = nearest ∨
      ∃ d position, extdllIndexByName dlls name = some d ∧ order[position]? = some d ∧
        i < position ∧ nearer dlls order i nearest name = some position := by
  unfold nearer
  split
  · exact .inl rfl
  · rename_i d found
    split
    · exact .inl rfl
    · rename_i position placed
      split
      · rename_i later
        obtain ⟨inside, same, _⟩ := List.findIdx?_eq_some_iff_getElem.mp placed
        refine .inr ⟨d, position, found, ?_, later.1, rfl⟩
        rw [List.getElem?_eq_getElem inside, beq_iff_eq.mp same]
      · exact .inl rfl

theorem nearestPosition_eq_some {after : List String} {k : Nat}
    (nearest : nearestPosition dlls order i after = some k) :
    i < k ∧ ∃ name ∈ after, ∃ d, extdllIndexByName dlls name = some d ∧ order[k]? = some d := by
  have folded : ∀ start, after.foldl (nearer dlls order i) start = some k → start = some k ∨
      i < k ∧ ∃ name ∈ after, ∃ d, extdllIndexByName dlls name = some d ∧ order[k]? = some d := by
    clear nearest
    induction after with
    | nil => exact fun start done => .inl done
    | cons name rest ih =>
        intro start done
        rcases ih _ done with placed | ⟨later, other, member, found⟩
        · rcases nearer_cases dlls order i start name with same | ⟨d, position, found, located, later, chosen⟩
          · exact .inl (same ▸ placed)
          · rw [chosen] at placed
            cases placed
            exact .inr ⟨later, name, by simp, d, found, located⟩
        · exact .inr ⟨later, other, by simp [member], found⟩
  rcases folded none nearest with none | found
  · cases none
  · exact found

theorem nearestPosition_eq_none {after : List String}
    (nearest : nearestPosition dlls order i after = none) :
    ∀ name ∈ after, ∀ d k, extdllIndexByName dlls name = some d →
      order.findIdx? (· == d) = some k → k ≤ i := by
  have kept : ∀ (names : List String) (position : Nat),
      (names.foldl (nearer dlls order i) (some position)).isSome := by
    intro names
    induction names with
    | nil => exact fun _ => rfl
    | cons name rest ih =>
        intro position
        rcases nearer_cases dlls order i (some position) name with
          same | ⟨_, chosen, _, _, _, placed⟩
        · rw [List.foldl_cons, same]
          exact ih position
        · rw [List.foldl_cons, placed]
          exact ih chosen
  rw [nearestPosition] at nearest
  induction after with
  | nil => simp
  | cons name rest ih =>
      rw [List.foldl_cons] at nearest
      have first : nearer dlls order i none name = none := by
        cases step : nearer dlls order i none name with
        | none => rfl
        | some position =>
            have := kept rest position
            rw [step] at nearest
            rw [nearest] at this
            cases this
      rw [first] at nearest
      intro other member d k found placed
      rcases List.mem_cons.mp member with rfl | member
      · by_contra later
        have chosen : nearer dlls order i none other = some k := by
          simp only [nearer, found, placed, Option.all_none, and_true]
          rw [if_pos (by omega)]
        rw [chosen] at first
        cases first
      · exact ih nearest other member d k found placed

end Nearest

theorem moveDependency_move {order moved : List Nat} (nodup : order.Nodup)
    (taken : moveDependency dlls order = some moved) : Move (Depends dlls) order moved := by
  obtain ⟨before, i, rest, parted, found, settled⟩ := List.findSome?_eq_some_iff.mp taken
  obtain ⟨k, nearest, rfl⟩ := Option.map_eq_some_iff.mp found
  obtain ⟨x, at_i, dll, located, nearest⟩ : ∃ x, order[i]? = some x ∧ ∃ dll, dlls[x]? = some dll ∧
      nearestPosition dlls order i dll.after = some k := by
    simpa only [Option.bind_eq_some_iff] using nearest
  obtain ⟨later, name, member, d, resolved, at_k⟩ := nearestPosition_eq_some nearest
  have different : x ≠ d := by
    rintro rfl
    obtain ⟨inside, same⟩ := List.getElem?_eq_some_iff.mp at_i
    obtain ⟨inside', same'⟩ := List.getElem?_eq_some_iff.mp at_k
    have := nodup.getElem_inj_iff.mp (same.trans same'.symm)
    omega
  refine .moveBefore at_i at_k later ⟨different, dll, located, name, member, resolved⟩ ?_
  intro j a earlier at_j b member' ⟨_, dll', located', name', member'', resolved'⟩
  -- The search passed position `j`, so no dependency of `a` was behind it.
  have passed : j ∈ before := by
    have sorted := List.pairwise_lt_range (n := order.length)
    rw [parted] at sorted
    have inside : j ∈ List.range order.length :=
      List.mem_range.mpr (List.getElem?_eq_some_iff.mp at_j).1
    rw [parted] at inside
    rcases List.mem_append.mp inside with passed | passed
    · exact passed
    · rcases List.mem_cons.mp passed with same | behind
      · omega
      · have := (List.pairwise_cons.mp (List.pairwise_append.mp sorted).2.1).1 j behind
        omega
  have nothing : nearestPosition dlls order j dll'.after = none := by
    have := settled j passed
    rwa [Option.map_eq_none_iff, at_j, Option.bind_some, located', Option.bind_some] at this
  obtain ⟨q, same⟩ := List.mem_iff_getElem?.mp member'
  rw [List.getElem?_drop] at same
  have := nearestPosition_eq_none nothing name' member'' b _ resolved' (findIdx?_of_nodup nodup same)
  omega

theorem moveDependency_settled {order : List Nat} (nodup : order.Nodup)
    (done : moveDependency dlls order = none) : Settled (Depends dlls) order := by
  rw [moveDependency, List.findSome?_eq_none_iff] at done
  refine List.pairwise_iff_getElem.mpr fun i k inside inside' later depends => ?_
  obtain ⟨_, dll, located, name, member, resolved⟩ := depends
  have nothing : nearestPosition dlls order i dll.after = none := by
    have := done i (List.mem_range.mpr inside)
    rwa [Option.map_eq_none_iff, List.getElem?_eq_getElem inside, Option.bind_some, located,
      Option.bind_some] at this
  have := nearestPosition_eq_none nothing name member _ k resolved
    (findIdx?_of_nodup nodup (List.getElem?_eq_getElem inside'))
  omega

/-! ## The whole sort -/

/-- What every move keeps: the entries, and the first entry of a name ahead of its others. -/
structure Ordered (dlls : List Extdll) (order : List Nat) : Prop where
  perm : order.Perm (List.range dlls.length)
  first : order.Pairwise fun a b => ∀ dll, dlls[a]? = some dll →
    extdllIndexByName dlls dll.name ≠ some b

namespace Ordered

variable {order : List Nat}

theorem nodup (ordered : Ordered dlls order) : order.Nodup :=
  ordered.perm.nodup_iff.mpr List.nodup_range

theorem mem_iff (ordered : Ordered dlls order) {x : Nat} : x ∈ order ↔ x < dlls.length := by
  rw [ordered.perm.mem_iff, List.mem_range]

theorem start (dlls : List Extdll) : Ordered dlls (List.range dlls.length) where
  perm := .refl _
  first := by
    refine List.pairwise_lt_range.imp fun {a b} before dll located found => ?_
    exact (extdllIndexByName_eq_some.mp found).2 a dll before located rfl

theorem move {moved : List Nat} (ordered : Ordered dlls order)
    (move : Move (Depends dlls) order moved) : Ordered dlls moved where
  perm := move.perm.symm.trans ordered.perm
  first := by
    refine move.pairwise ?_ ordered.nodup ordered.first
    intro x d y ⟨_, _, _, name, _, found⟩ other dll located found'
    obtain ⟨⟨dll', located', named⟩, _⟩ := extdllIndexByName_eq_some.mp found
    rw [located, Option.some.injEq] at located'
    rw [located', named, found, Option.some.injEq] at found'
    exact other found'.symm

end Ordered

theorem sortOrder_ordered {order : List Nat} (sorted : sortOrder dlls = some order) :
    Ordered dlls order ∧ Settled (Depends dlls) order := by
  obtain ⟨ordered, done⟩ := sortWithin_invariant
    (fun _ _ ordered taken => moveDependency_move (Ordered.nodup ordered) taken)
    (fun _ _ ordered move => Ordered.move ordered move) (Ordered.start dlls) sorted
  exact ⟨ordered, moveDependency_settled ordered.nodup done⟩

/-- The budget of `extdll_count * extdll_count` moves reports a cycle exactly when there is one. -/
theorem sortOrder_isSome_iff : (sortOrder dlls).isSome ↔ Acyclic dlls := by
  constructor
  · intro sorted
    obtain ⟨order, sorted⟩ := Option.isSome_iff_exists.mp sorted
    obtain ⟨ordered, settled⟩ := sortOrder_ordered sorted
    refine settled.acyclic ?_ fun x depends => depends.1 rfl
    exact fun x d depends => ⟨ordered.mem_iff.mpr depends.lt.1, ordered.mem_iff.mpr depends.lt.2⟩
  · intro acyclic
    refine sortWithin_isSome
      (fun _ _ ordered taken => moveDependency_move (Ordered.nodup ordered) taken)
      (fun _ _ ordered move => Ordered.move ordered move) acyclic
      (fun order ordered x member => Finset.mem_range.mpr (ordered.mem_iff.mp member))
      (Ordered.start dlls) ?_
    cases empty : dlls.length with
    | zero => simp [rank]
    | succ n =>
        have bound : rank (Depends dlls) (Finset.range (n + 1)) (List.range (n + 1)) <
            (List.range (n + 1)).length * (Finset.range (n + 1)).card :=
          PrerequisiteSort.rank_lt acyclic (by simp) (by simp)
        rw [List.length_range, Finset.card_range] at bound
        omega

theorem preparedOrder_ordered : Ordered dlls (preparedOrder dlls) := by
  unfold preparedOrder
  cases sorted : sortOrder dlls with
  | none => exact .start dlls
  | some order => exact (sortOrder_ordered sorted).1

theorem preparedOrder_settled (acyclic : Acyclic dlls) :
    Settled (Depends dlls) (preparedOrder dlls) := by
  obtain ⟨order, sorted⟩ := Option.isSome_iff_exists.mp (sortOrder_isSome_iff.mpr acyclic)
  rw [preparedOrder, sorted]
  exact (sortOrder_ordered sorted).2

theorem preparedOrder_of_cycle (cyclic : ¬ Acyclic dlls) :
    preparedOrder dlls = List.range dlls.length := by
  rw [← sortOrder_isSome_iff, Option.not_isSome_iff_eq_none] at cyclic
  rw [preparedOrder, cyclic, Option.getD_none]

/-! ## The sorted entries -/

theorem sortedDlls_getElem? (p : Nat) :
    (sortedDlls dlls)[p]? = (preparedOrder dlls)[p]?.bind fun x => dlls[x]? := by
  have taken : ∀ order : List Nat, (∀ x ∈ order, x < dlls.length) → ∀ p : Nat,
      (order.filterMap fun x => dlls[x]?)[p]? = order[p]?.bind fun x => dlls[x]? := by
    intro order inside
    induction order with
    | nil => simp
    | cons x rest ih =>
        have here := List.getElem?_eq_getElem (inside x (by simp))
        rw [List.filterMap_cons, here]
        rintro (_ | p)
        · exact here.symm
        · exact ih (fun y member => inside y (by simp [member])) p
  exact taken _ (fun x member => preparedOrder_ordered.mem_iff.mp member) p

theorem sortedDlls_length : (sortedDlls dlls).length = dlls.length := by
  have all : (preparedOrder dlls).length = dlls.length := by
    simpa using preparedOrder_ordered.perm.length_eq
  rw [← all, sortedDlls, List.filterMap_length_eq_length]
  intro x member
  rw [List.getElem?_eq_getElem (preparedOrder_ordered.mem_iff.mp member), Option.isSome_some]

theorem extdllIndexByName_sortedDlls {name : String} {p : Nat} :
    extdllIndexByName (sortedDlls dlls) name = some p ↔
      ∃ d, extdllIndexByName dlls name = some d ∧ (preparedOrder dlls)[p]? = some d := by
  have ordered : Ordered dlls (preparedOrder dlls) := preparedOrder_ordered
  have moved {d p : Nat} (found : extdllIndexByName dlls name = some d)
      (placed : (preparedOrder dlls)[p]? = some d) :
      extdllIndexByName (sortedDlls dlls) name = some p := by
    obtain ⟨⟨dll, located, named⟩, _⟩ := extdllIndexByName_eq_some.mp found
    refine extdllIndexByName_eq_some.mpr ⟨⟨dll, ?_, named⟩, ?_⟩
    · rw [sortedDlls_getElem?, placed, Option.bind_some, located]
    · intro q other before located' named'
      rw [sortedDlls_getElem?] at located'
      obtain ⟨x, placed', located'⟩ := Option.bind_eq_some_iff.mp located'
      obtain ⟨inside, rfl⟩ := List.getElem?_eq_some_iff.mp placed'
      obtain ⟨inside', rfl⟩ := List.getElem?_eq_some_iff.mp placed
      have apart := List.pairwise_iff_getElem.mp ordered.first q p inside inside' before
      exact apart other located' (named' ▸ found)
  constructor
  · intro found
    obtain ⟨⟨dll, located, named⟩, _⟩ := extdllIndexByName_eq_some.mp found
    rw [sortedDlls_getElem?] at located
    obtain ⟨x, placed, located⟩ := Option.bind_eq_some_iff.mp located
    obtain ⟨d, first⟩ : ∃ d, extdllIndexByName dlls name = some d := by
      rw [← Option.isSome_iff_exists, extdllIndexByName, List.findIdx?_isSome]
      exact List.any_eq_true.mpr ⟨dll, List.mem_of_getElem? located, by simpa using named⟩
    obtain ⟨⟨_, located', _⟩, _⟩ := extdllIndexByName_eq_some.mp first
    have member := ordered.mem_iff.mpr (List.getElem?_eq_some_iff.mp located').1
    obtain ⟨q, placed'⟩ := List.mem_iff_getElem?.mp member
    have same := moved first placed'
    rw [found, Option.some.injEq] at same
    exact ⟨d, first, same ▸ placed'⟩
  · rintro ⟨d, found, placed⟩
    exact moved found placed

theorem depends_sortedDlls {p q : Nat} :
    Depends (sortedDlls dlls) p q ↔ ∃ x d, (preparedOrder dlls)[p]? = some x ∧
      (preparedOrder dlls)[q]? = some d ∧ Depends dlls x d := by
  have nodup : (preparedOrder dlls).Nodup := preparedOrder_ordered.nodup
  constructor
  · rintro ⟨different, dll, located, name, member, found⟩
    rw [sortedDlls_getElem?] at located
    obtain ⟨x, placed, located⟩ := Option.bind_eq_some_iff.mp located
    obtain ⟨d, found, placed'⟩ := extdllIndexByName_sortedDlls.mp found
    refine ⟨x, d, placed, placed', ?_, dll, located, name, member, found⟩
    rintro rfl
    have := findIdx?_of_nodup nodup placed
    rw [findIdx?_of_nodup nodup placed', Option.some.injEq] at this
    exact different this.symm
  · rintro ⟨x, d, placed, placed', different, dll, located, name, member, found⟩
    refine ⟨?_, dll, ?_, name, member, extdllIndexByName_sortedDlls.mpr ⟨d, found, placed'⟩⟩
    · rintro rfl
      rw [placed, Option.some.injEq] at placed'
      exact different placed'
    · rw [sortedDlls_getElem?, placed, Option.bind_some, located]

theorem depends_sortedDlls_lt (acyclic : Acyclic dlls) {p q : Nat}
    (depends : Depends (sortedDlls dlls) p q) : q < p := by
  obtain ⟨x, d, placed, placed', depends'⟩ := depends_sortedDlls.mp depends
  obtain ⟨inside, rfl⟩ := List.getElem?_eq_some_iff.mp placed
  obtain ⟨inside', rfl⟩ := List.getElem?_eq_some_iff.mp placed'
  by_contra behind
  have later : p < q := by
    have := depends.1
    omega
  exact List.pairwise_iff_getElem.mp (preparedOrder_settled acyclic) p q inside inside' later depends'

end Yafsml.Extdll
