import Yafsml.Extdll.StageLaw

/-!
# The law of the dependency sort

It reports exactly the cycles, and moves nothing but what others depend on.
-/

namespace Yafsml.Extdll
open PrerequisiteSort Relation

variable {dlls : List Extdll}

def Cyclic (dlls : List Extdll) : Prop :=
  ∃ x d, x ≠ d ∧ TransGen (Depends dlls) x d ∧ TransGen (Depends dlls) d x

theorem cyclic_iff : Cyclic dlls ↔ ¬ Acyclic dlls := by
  simp only [Acyclic, not_forall, not_not]
  constructor
  · rintro ⟨x, d, -, forth, back⟩
    exact ⟨x, forth.trans back⟩
  · rintro ⟨x, around⟩
    -- the entry behind the first step is another one
    obtain ⟨d, first, back⟩ := TransGen.head'_iff.mp around
    rcases reflTransGen_iff_eq_or_transGen.mp back with same | back
    · exact absurd same first.1
    · exact ⟨x, d, first.1, .single first, back⟩

theorem sortOrder_eq_none_iff : sortOrder dlls = none ↔ Cyclic dlls := by
  rw [cyclic_iff, ← sortOrder_isSome_iff, Option.not_isSome_iff_eq_none]

def Unneeded (dlls : List Extdll) (x : Nat) : Prop := ∀ y, ¬ Depends dlls y x

structure Undisturbed (dlls : List Extdll) (order : List Nat) : Prop where
  ordered : Ordered dlls order
  stable : order.Pairwise fun a b => Unneeded dlls a → a < b

namespace Undisturbed

theorem start (dlls : List Extdll) : Undisturbed dlls (List.range dlls.length) where
  ordered := .start dlls
  stable := by
    apply List.pairwise_lt_range.imp
    intro a b before _
    exact before

theorem move {order moved : List Nat} (undisturbed : Undisturbed dlls order)
    (move : Move (Depends dlls) order moved) : Undisturbed dlls moved where
  ordered := undisturbed.ordered.move move
  stable := by
    apply move.pairwise _ undisturbed.ordered.nodup undisturbed.stable
    intro x d y depends _ unneeded
    exact absurd depends (unneeded x)

end Undisturbed

theorem preparedOrder_stable : (preparedOrder dlls).Pairwise fun a b => Unneeded dlls a → a < b := by
  unfold preparedOrder
  cases sorted : sortOrder dlls with
  | none => exact (Undisturbed.start dlls).stable
  | some order =>
      have undisturbed := sortWithin_invariant
        (fun _ _ now taken => moveDependency_move (Undisturbed.ordered now).nodup taken)
        (fun _ _ now move => Undisturbed.move now move) (Undisturbed.start dlls) sorted
      exact undisturbed.1.stable

theorem sortOrder_of_satisfied (satisfied : ∀ x d, Depends dlls x d → d < x) :
    sortOrder dlls = some (List.range dlls.length) := by
  apply sortWithin_of_none
  have settled : Settled (Depends dlls) (List.range dlls.length) := by
    apply List.pairwise_lt_range.imp
    intro x d before depends
    have := satisfied x d depends
    omega
  cases taken : moveDependency dlls (List.range dlls.length) with
  | none => rfl
  | some moved => exact absurd settled (moveDependency_move List.nodup_range taken).not_settled

theorem filterMap_getElem?_range (dlls : List Extdll) :
    (List.range dlls.length).filterMap (fun x => dlls[x]?) = dlls := by
  induction dlls with
  | nil => rfl
  | cons dll dlls ih =>
      rw [List.length_cons, List.range_succ_eq_map, List.filterMap_cons, List.filterMap_map]
      exact congrArg (dll :: ·) ih

theorem sortedDlls_perm (dlls : List Extdll) : (sortedDlls dlls).Perm dlls := by
  have moved : (preparedOrder dlls).Perm (List.range dlls.length) := preparedOrder_ordered.perm
  have taken := moved.filterMap fun x => dlls[x]?
  rwa [filterMap_getElem?_range] at taken

/-- What the sort does to a configuration; a name stands for its first entry throughout. -/
structure SortLaw (dlls : List Extdll) : Prop where
  /-- The count of the moves stays an `int`. -/
  budget : dlls.length * dlls.length + 1 < 2 ^ 31
  cycle : sortOrder dlls = none ↔ Cyclic dlls
  preserved : Cyclic dlls → sortedDlls dlls = dlls
  perm : (sortedDlls dlls).Perm dlls
  satisfied : ¬ Cyclic dlls → ∀ p q, Depends (sortedDlls dlls) p q → q < p
  unchanged : (∀ x d, Depends dlls x d → d < x) → sortedDlls dlls = dlls
  /-- The entry at `p` is the configured one at `(preparedOrder dlls)[p]`. -/
  source : ∀ p : Nat, (sortedDlls dlls)[p]? = (preparedOrder dlls)[p]?.bind fun x => dlls[x]?
  stable : (preparedOrder dlls).Pairwise fun a b => Unneeded dlls a → Unneeded dlls b → a < b
  names : ∀ name p, extdllIndexByName (sortedDlls dlls) name = some p ↔
    ∃ d, extdllIndexByName dlls name = some d ∧ (preparedOrder dlls)[p]? = some d
  /-- The passes behind the sort change stages and delays only. -/
  prepared : ∃ prepared, extdllsPrepare dlls = some prepared ∧ shape prepared = shape (sortedDlls dlls)

theorem sortLaw (dlls : List Extdll) (few : dlls.length ≤ 46340) : SortLaw dlls where
  budget := by
    have := Nat.mul_le_mul few few
    omega
  cycle := sortOrder_eq_none_iff
  preserved := fun cyclic => sortedDlls_eq_of_range (preparedOrder_of_cycle (cyclic_iff.mp cyclic))
  perm := sortedDlls_perm dlls
  satisfied := fun acyclic _ _ => depends_sortedDlls_lt (not_not.mp (cyclic_iff.not.mp acyclic))
  unchanged := by
    intro satisfied
    apply sortedDlls_eq_of_range
    rw [preparedOrder, sortOrder_of_satisfied satisfied, Option.getD_some]
  source := sortedDlls_getElem?
  stable := preparedOrder_stable.imp fun before unneeded _ => before unneeded
  names := fun _ _ => extdllIndexByName_sortedDlls
  prepared := by
    obtain ⟨prepared, done⟩ := Option.isSome_iff_exists.mp ((extdllsPrepare_isSome_iff dlls).mpr few)
    exact ⟨prepared, done, shape_extdllsPrepare done⟩

private def baseLast : List Extdll :=
  [⟨"tool", none, .normal, 0, ["base", "tool", "gone"]⟩, ⟨"free", none, .normal, 0, []⟩,
    ⟨"base", none, .normal, 0, ["free"]⟩]

/-- The base moves ahead of the tool and what it needs ahead of both. -/
theorem sortLaw_chained : sortOrder baseLast = some [1, 2, 0] ∧ SortLaw baseLast :=
  ⟨by decide, sortLaw baseLast (by decide)⟩

end Yafsml.Extdll
