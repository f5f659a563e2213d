import Yafsml.Extdll.Stages

/-!
# Deferred stages reach their dependents

Along dependency chains clear of every cycle, what depends on a deferred entry should be deferred. The
sweep relies on the sorted order for this; where a cycle keeps the configured order, it misses chains.
-/

namespace Yafsml.Extdll
open Relation

variable {dlls : List Extdll}

theorem getElem?_preparedOrder {p x : Nat} :
    (preparedOrder dlls)[p]? = some x ↔ x < dlls.length ∧ (preparedOrder dlls).idxOf x = p := by
  have ordered : Ordered dlls (preparedOrder dlls) := preparedOrder_ordered
  constructor
  · intro placed
    obtain ⟨inside, rfl⟩ := List.getElem?_eq_some_iff.mp placed
    exact ⟨ordered.mem_iff.mp (List.getElem_mem inside), ordered.nodup.idxOf_getElem p inside⟩
  · rintro ⟨inside, rfl⟩
    exact List.getElem?_idxOf (ordered.mem_iff.mpr inside)

theorem sortedDlls_eq_of_range (unsorted : preparedOrder dlls = List.range dlls.length) :
    sortedDlls dlls = dlls := by
  apply List.ext_getElem?
  intro p
  rw [sortedDlls_getElem?, unsorted]
  by_cases inside : p < dlls.length
  · simp [inside]
  · simp [inside]

theorem preparedOrder_of_few (few : dlls.length < 2) :
    preparedOrder dlls = List.range dlls.length := by
  have perm : (preparedOrder dlls).Perm (List.range dlls.length) := preparedOrder_ordered.perm
  obtain none | one : dlls.length = 0 ∨ dlls.length = 1 := by omega
  · rw [none, List.range_zero] at perm ⊢
    exact perm.eq_nil
  · rw [one, List.range_one] at perm ⊢
    exact List.perm_singleton.mp perm

theorem not_depends_of_few (few : dlls.length < 2) {x d : Nat} : ¬ Depends dlls x d := by
  intro depends
  have := depends.lt
  have := depends.1
  omega

section Prepared

variable {prepared : List Extdll} (done : extdllsPrepare dlls = some prepared)

include done

theorem shape_extdllsPrepare : shape prepared = shape (sortedDlls dlls) := by
  rcases extdllsPrepare_cases done with ⟨few, rfl⟩ | ⟨_, rfl⟩
  · rw [sortedDlls_eq_of_range (preparedOrder_of_few few)]
  · exact (demote_swept _).shape.trans (promote_promoted _).1.shape

theorem deferredAt_extdllsPrepare {p : Nat} : DeferredAt prepared p ↔ Behind (sortedDlls dlls) p := by
  rcases extdllsPrepare_cases done with ⟨few, rfl⟩ | ⟨_, rfl⟩
  · rw [sortedDlls_eq_of_range (preparedOrder_of_few few)]
    constructor
    · exact .own
    · intro behind
      cases behind with
      | own here => exact here
      | direct depends _ => exact absurd depends (not_depends_of_few few)
      | earlier depends _ _ => exact absurd depends (not_depends_of_few few)
  · obtain ⟨promoted, _⟩ := promote_promoted (sortedDlls dlls)
    rw [demote_deferredAt]
    exact behind_congr promoted.shape promoted.deferredAt p

end Prepared

/-- What the entry configured at `x` becomes. -/
def preparedAt (dlls prepared : List Extdll) (x : Nat) : Option Extdll :=
  prepared[(preparedOrder dlls).idxOf x]?

def OnNoCycle (dlls : List Extdll) (x : Nat) : Prop := ¬ TransGen (Depends dlls) x x

def ClearChain (dlls : List Extdll) : Nat → Nat → Prop :=
  ReflTransGen fun x d => Depends dlls x d ∧ OnNoCycle dlls x ∧ OnNoCycle dlls d

/-- The preparation is defined, and no entry it leaves on the main thread waits for a deferred one along
such a chain. -/
def StageLaw (dlls : List Extdll) : Prop :=
  ∃ prepared, extdllsPrepare dlls = some prepared ∧
    ∀ x d dll dll', preparedAt dlls prepared x = some dll → dll.stage.isDeferred = false →
      OnNoCycle dlls x → ClearChain dlls x d → preparedAt dlls prepared d = some dll' →
      dll'.stage.isDeferred = false

section Law

variable {prepared : List Extdll} (done : extdllsPrepare dlls = some prepared)

include done

theorem preparedAt_deferred {x : Nat} :
    (∃ dll, preparedAt dlls prepared x = some dll ∧ dll.stage.isDeferred) ↔
      Behind (sortedDlls dlls) ((preparedOrder dlls).idxOf x) := deferredAt_extdllsPrepare done

theorem stageLaw_of_links (links : ∀ x d, Depends dlls x d → OnNoCycle dlls x → OnNoCycle dlls d →
      Behind (sortedDlls dlls) ((preparedOrder dlls).idxOf d) →
      Behind (sortedDlls dlls) ((preparedOrder dlls).idxOf x)) : StageLaw dlls := by
  refine ⟨prepared, done, ?_⟩
  intro x d dll dll' here main _ chain there
  have backward : ∀ d, ClearChain dlls x d →
      Behind (sortedDlls dlls) ((preparedOrder dlls).idxOf d) →
      Behind (sortedDlls dlls) ((preparedOrder dlls).idxOf x) := by
    intro d chain
    induction chain with
    | refl => exact id
    | tail _ link ih => exact fun behind => ih (links _ _ link.1 link.2.1 link.2.2 behind)
  by_contra late
  rw [Bool.not_eq_false] at late
  obtain ⟨dll'', here', late'⟩ := (preparedAt_deferred done).mpr
    (backward d chain ((preparedAt_deferred done).mp ⟨dll', there, late⟩))
  rw [here, Option.some.injEq] at here'
  rw [← here', main] at late'
  cases late'

theorem stageLaw_of_acyclic (acyclic : Acyclic dlls) : StageLaw dlls := by
  refine stageLaw_of_links done fun x d depends _ _ behind => ?_
  have placed := getElem?_preparedOrder.mpr ⟨depends.lt.1, rfl⟩
  have placed' := getElem?_preparedOrder.mpr ⟨depends.lt.2, rfl⟩
  have sorted := depends_sortedDlls.mpr ⟨x, d, placed, placed', depends⟩
  exact .earlier sorted (depends_sortedDlls_lt acyclic sorted) behind

theorem preparedAt_of_cycle (cyclic : ¬ Acyclic dlls) {x : Nat} (inside : x < dlls.length) :
    ∃ dll, preparedAt dlls prepared x = some dll ∧ (dll.stage.isDeferred ↔ Behind dlls x) := by
  have unsorted := preparedOrder_of_cycle cyclic
  have spot : (preparedOrder dlls).idxOf x = x :=
    (getElem?_preparedOrder.mp (by rw [unsorted, List.getElem?_range inside])).2
  have there : x < prepared.length := by
    rwa [shape_length (shape_extdllsPrepare done), sortedDlls_length]
  refine ⟨prepared[x], by rw [preparedAt, spot, List.getElem?_eq_getElem there], ?_⟩
  have law : DeferredAt prepared x ↔ Behind (sortedDlls dlls) x := deferredAt_extdllsPrepare done
  rw [sortedDlls_eq_of_range unsorted] at law
  rw [← law]
  simp [DeferredAt, there]

end Law

/-- The law holds where the move budget does not overflow and there is no cycle, or where, with one, no
entry is deferred only after the sweep passed a clear entry that depends on it. -/
theorem stageLaw_iff (dlls : List Extdll) :
    StageLaw dlls ↔ dlls.length ≤ 46340 ∧
      (Acyclic dlls ∨ ∀ x d, Depends dlls x d → OnNoCycle dlls x → OnNoCycle dlls d →
        x < d → Behind dlls d → Behind dlls x) := by
  constructor
  · rintro ⟨prepared, done, law⟩
    refine ⟨(extdllsPrepare_isSome_iff dlls).mp (by rw [done, Option.isSome_some]), ?_⟩
    by_cases acyclic : Acyclic dlls
    · exact .inl acyclic
    · refine .inr fun x d depends clear clear' _ behind => ?_
      obtain ⟨dll, here, deferred⟩ := preparedAt_of_cycle done acyclic depends.lt.1
      obtain ⟨dll', there, deferred'⟩ := preparedAt_of_cycle done acyclic depends.lt.2
      by_contra ahead
      have main : dll.stage.isDeferred = false := by
        rw [← Bool.not_eq_true, deferred]
        exact ahead
      have main' := law x d dll dll' here main clear (.single ⟨depends, clear, clear'⟩) there
      rw [deferred'.mpr behind] at main'
      cases main'
  · rintro ⟨few, holds⟩
    obtain ⟨prepared, done⟩ := Option.isSome_iff_exists.mp ((extdllsPrepare_isSome_iff dlls).mpr few)
    by_cases acyclic : Acyclic dlls
    · exact stageLaw_of_acyclic done acyclic
    · have links := holds.resolve_left acyclic
      have unsorted := preparedOrder_of_cycle acyclic
      refine stageLaw_of_links done fun x d depends clear clear' behind => ?_
      have spot {x : Nat} (inside : x < dlls.length) : (preparedOrder dlls).idxOf x = x :=
        (getElem?_preparedOrder.mp (by rw [unsorted, List.getElem?_range inside])).2
      rw [sortedDlls_eq_of_range unsorted, spot depends.lt.2] at behind
      rw [sortedDlls_eq_of_range unsorted, spot depends.lt.1]
      by_cases before : d < x
      · exact .earlier depends before behind
      · have different := depends.1
        exact links x d depends clear clear' (by omega) behind

/-! `a` waits for `b` and `b` for `c`, which is deferred. Two other entries wait for each other. -/

private def chained (name : String) (stage : Stage) (after : List String) : Extdll :=
  ⟨name, none, stage, 0, after⟩

private def missed : List Extdll :=
  [chained "a" .normal ["b"], chained "b" .normal ["c"], chained "c" .dataReady [],
    chained "left" .normal ["right"], chained "right" .normal ["left"]]

private theorem missed_depends {x d : Nat} (depends : Depends missed x d) (low : x ≤ 2) :
    d = x + 1 ∧ d ≤ 2 := by
  obtain ⟨_, dll, located, name, member, found⟩ := depends
  obtain rfl | rfl | rfl : x = 0 ∨ x = 1 ∨ x = 2 := by omega
  · cases located
    obtain rfl := List.mem_singleton.mp member
    cases (show some 1 = some d from found)
    decide
  · cases located
    obtain rfl := List.mem_singleton.mp member
    cases (show some 2 = some d from found)
    decide
  · cases located
    cases member

private theorem missed_onNoCycle {x : Nat} (low : x ≤ 2) : OnNoCycle missed x := by
  intro cycle
  have upward : ∀ y, TransGen (Depends missed) x y → x < y ∧ y ≤ 2 := by
    intro y path
    induction path with
    | single link =>
        have := missed_depends link low
        omega
    | tail _ link ih =>
        have := missed_depends link ih.2
        omega
  exact absurd (upward x cycle).1 (lt_irrefl x)

theorem stageLaw_missed_chain : ¬ StageLaw missed := by
  rintro ⟨prepared, done, law⟩
  obtain rfl : prepared = [chained "a" .normal ["b"], chained "b" .dataReady ["c"], chained "c" .dataReady [],
      chained "left" .normal ["right"], chained "right" .normal ["left"]] :=
    Option.some.inj (done.symm.trans (by decide))
  have link : Depends missed 0 1 :=
    ⟨by decide, chained "a" .normal ["b"], rfl, "b", by decide, by decide⟩
  have main := law 0 1 (chained "a" .normal ["b"]) (chained "b" .dataReady ["c"]) (by decide) rfl
    (missed_onNoCycle (by decide))
    (.single ⟨link, missed_onNoCycle (by decide), missed_onNoCycle (by decide)⟩) (by decide)
  exact absurd main (by decide)

end Yafsml.Extdll
