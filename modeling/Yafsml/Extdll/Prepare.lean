import Mathlib.Data.List.Basic
import Yafsml.Foundation.PrerequisiteSort

/-!
# Preparing the external DLLs

`extdlls_prepare`: the dependency sort with its move budget, the promotion of what early entries
need, and the demotion of main-thread entries behind deferred ones. Counts and positions are `Nat`,
but the budget is a product of two `int`s.
-/

namespace Yafsml

inductive Extdll.Stage
  | early
  | normal
  | dataReady
  | delay
deriving DecidableEq, Repr

/-- The configured part of `extdll_t`. -/
structure Extdll where
  name : String
  initializer : Option String
  stage : Extdll.Stage
  delayMs : UInt32
  after : List String
deriving DecidableEq, Repr

namespace Extdll

namespace Stage

def value : Stage → Nat
  | early => 0
  | normal => 1
  | dataReady => 2
  | delay => 3

def isDeferred (stage : Stage) : Bool := normal.value < stage.value

end Stage

section Prepare

variable (dlls : List Extdll)

def extdllIndexByName (name : String) : Option Nat := dlls.findIdx? fun dll => dll.name == name

/-- `nearest_position` after one more name of the entry at position `i`. -/
def nearer (order : List Nat) (i : Nat) (nearest : Option Nat) (name : String) : Option Nat :=
  match extdllIndexByName dlls name with
  | none => nearest
  | some dependency =>
      match order.findIdx? (· == dependency) with
      | none => nearest
      | some position =>
          if i < position ∧ nearest.all (position < ·) then some position else nearest

def nearestPosition (order : List Nat) (i : Nat) (after : List String) : Option Nat :=
  after.foldl (nearer dlls order i) none

/-- One round of the sort; `none` when nothing was moved. -/
def moveDependency (order : List Nat) : Option (List Nat) :=
  (List.range order.length).findSome? fun i =>
    (order[i]?.bind fun entry => dlls[entry]?.bind fun dll =>
      nearestPosition dlls order i dll.after).map fun nearest =>
        PrerequisiteSort.moveBefore order i nearest

/-- `extdll_count * extdll_count`, where an `int` holds it; C does not define the product elsewhere. -/
def moveBudget (count : Nat) : Option Nat :=
  if count * count ≤ 0x7FFFFFFF then some (count * count) else none

/-- The sort within its budget; `none` for a reported cycle. It runs only where `moveBudget` is defined. -/
def sortOrder : Option (List Nat) :=
  PrerequisiteSort.sortWithin (moveDependency dlls) (dlls.length * dlls.length)
    (List.range dlls.length)

def preparedOrder : List Nat := (sortOrder dlls).getD (List.range dlls.length)

def sortedDlls : List Extdll := (preparedOrder dlls).filterMap fun entry => dlls[entry]?

def stageAt (i : Nat) : Option Stage := dlls[i]?.map (·.stage)

def setStage (i : Nat) (stage : Stage) : List Extdll := dlls.modify i fun dll => { dll with stage }

end Prepare

def promoteName (state : List Extdll × Bool) (name : String) : List Extdll × Bool :=
  match extdllIndexByName state.1 name with
  | some dependency =>
      if stageAt state.1 dependency = some .normal then
        (setStage state.1 dependency .early, true)
      else state
  | none => state

def promoteEntry (state : List Extdll × Bool) (i : Nat) : List Extdll × Bool :=
  match state.1[i]? with
  | some dll => if dll.stage = .early then dll.after.foldl promoteName state else state
  | none => state

def promotePass (dlls : List Extdll) : List Extdll × Bool :=
  (List.range dlls.length).foldl promoteEntry (dlls, false)

/-- `for (;;)`: every pass but the last promotes an entry. -/
def promoteLoop : Nat → List Extdll → List Extdll
  | 0, dlls => dlls
  | fuel + 1, dlls =>
      match promotePass dlls with
      | (dlls, true) => promoteLoop fuel dlls
      | (dlls, false) => dlls

def promote (dlls : List Extdll) : List Extdll := promoteLoop (dlls.length + 1) dlls

/-- `latest` for an entry with these dependencies. -/
def latestStage (dlls : List Extdll) (after : List String) : Stage :=
  after.foldl (fun latest name =>
    match (extdllIndexByName dlls name).bind (stageAt dlls) with
    | some stage => if stage.value ≤ latest.value then latest else stage
    | none => latest) .normal

/-- The demotion of one entry. There is a `trigger` exactly when `latest` was raised. -/
def demoteEntry (dlls : List Extdll) (i : Nat) : List Extdll :=
  match dlls[i]? with
  | some dll =>
      let latest := latestStage dlls dll.after
      if dll.stage.isDeferred ∨ latest = .normal then dlls
      else dlls.modify i fun dll => { dll with stage := latest, delayMs := 0 }
  | none => dlls

def demote (dlls : List Extdll) : List Extdll := (List.range dlls.length).foldl demoteEntry dlls

/-- `extdlls_prepare` with its allocations succeeding; `none` where the move budget overflows. -/
def extdllsPrepare (dlls : List Extdll) : Option (List Extdll) :=
  if dlls.length < 2 then some dlls
  else (moveBudget dlls.length).map fun _ => demote (promote (sortedDlls dlls))

theorem moveBudget_isSome_iff (count : Nat) : (moveBudget count).isSome ↔ count ≤ 46340 := by
  have fits : count * count ≤ 0x7FFFFFFF ↔ count ≤ 46340 := by
    constructor
    · intro fits
      by_contra many
      have : 46341 * 46341 ≤ count * count := Nat.mul_le_mul (by omega) (by omega)
      omega
    · intro few
      have : count * count ≤ 46340 * 46340 := Nat.mul_le_mul few few
      omega
  unfold moveBudget
  split <;> simp_all

theorem extdllsPrepare_isSome_iff (dlls : List Extdll) :
    (extdllsPrepare dlls).isSome ↔ dlls.length ≤ 46340 := by
  unfold extdllsPrepare
  split
  · rw [Option.isSome_some, eq_self, true_iff]
    omega
  · rw [Option.isSome_map, moveBudget_isSome_iff]

theorem extdllsPrepare_cases {dlls prepared : List Extdll} (done : extdllsPrepare dlls = some prepared) :
    dlls.length < 2 ∧ prepared = dlls ∨
      ¬ dlls.length < 2 ∧ prepared = demote (promote (sortedDlls dlls)) := by
  unfold extdllsPrepare at done
  split at done
  · rename_i few
    exact .inl ⟨few, (Option.some.inj done).symm⟩
  · rename_i several
    obtain ⟨_, _, rfl⟩ := Option.map_eq_some_iff.mp done
    exact .inr ⟨several, rfl⟩

end Extdll

end Yafsml
