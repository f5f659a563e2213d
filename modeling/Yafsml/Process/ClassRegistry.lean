import Yafsml.Foundation.LittleEndian
import Yafsml.Foundation.LongestRun

/-! # The registry of runtime classes -/

namespace Yafsml.Process.Dlrf

open LittleEndian LongestRun

/-- `dlrf_runtime_class_entry_t`; a pointer is its address, null is 0. -/
structure RuntimeClassEntry where
  typeId : Nat
  runtimeClass : Nat
  deriving DecidableEq, Repr

structure Range where
  start : Nat
  size : Nat
  deriving DecidableEq, Repr

def rangeContains (range : Range) (ptr size : Nat) : Bool :=
  range.start ≠ 0 && range.start ≤ ptr && size ≤ range.size &&
    ptr - range.start ≤ range.size - size

def sizeofPointer : Nat := 8

/-- The pointer that is copied out of the memory at `address`. -/
def pointerAt (memory : Nat → Byte) (address : Nat) : Nat :=
  (ofBytes (fun k => memory (address + k)) sizeofPointer).toNat

/-- What the scan keeps; an entry is known by its index. -/
structure RegistryScan where
  bestCount : Nat
  best : Option Nat
  run : Nat
  start : Option Nat
  previousTypeId : Nat
  deriving DecidableEq, Repr

variable (memory : Nat → Byte) (entries : Nat → RuntimeClassEntry) (data rdata : Range)

/-- Whether the scan takes an entry after one with `previousTypeId`. -/
def validEntry (previousTypeId : Nat) (entry : RuntimeClassEntry) : Bool :=
  entry.typeId ≠ 0 && entry.runtimeClass ≠ 0 && previousTypeId < entry.typeId &&
    rangeContains data entry.typeId 1 && memory entry.typeId = 0 &&
    rangeContains data entry.runtimeClass sizeofPointer &&
    rangeContains rdata (pointerAt memory entry.runtimeClass) sizeofPointer

def registryStep (scan : RegistryScan) (i : Nat) : RegistryScan :=
  let entry := entries i
  if validEntry memory data rdata scan.previousTypeId entry then
    let start := if scan.run = 0 then some i else scan.start
    let run := scan.run + 1
    if scan.bestCount < run then ⟨run, start, run, start, entry.typeId⟩
    else ⟨scan.bestCount, scan.best, run, start, entry.typeId⟩
  else { scan with run := 0, previousTypeId := 0 }

/-- The loop over the first `count` entries. -/
def registryLoop : Nat → RegistryScan
  | 0 => ⟨0, none, 0, none, 0⟩
  | i + 1 => registryStep memory entries data rdata (registryLoop i) i

/-- `dlrf_find_registry`: the length, and the caller's variable afterwards when it passes one. -/
def dlrfFindRegistry (count : Nat) (registry : Option (Option Nat)) : Nat × Option (Option Nat) :=
  let scan := registryLoop memory entries data rdata count
  (scan.bestCount, registry.map fun _ => scan.best)

/-- The `size` bytes at an address are in a range that exists. -/
def Range.Holds (range : Range) (ptr size : Nat) : Prop :=
  range.start ≠ 0 ∧ range.start ≤ ptr ∧ ptr + size ≤ range.start + range.size

structure WellFormed (entry : RuntimeClassEntry) : Prop where
  typeId : entry.typeId ≠ 0
  runtimeClass : entry.runtimeClass ≠ 0
  idInside : data.Holds entry.typeId 1
  idZero : memory entry.typeId = 0
  classInside : data.Holds entry.runtimeClass sizeofPointer
  vtableInside : rdata.Holds (pointerAt memory entry.runtimeClass) sizeofPointer

theorem rangeContains_iff (range : Range) (ptr size : Nat) :
    rangeContains range ptr size = true ↔ range.Holds ptr size := by
  simp only [rangeContains, Range.Holds, Bool.and_eq_true, decide_eq_true_eq]
  omega

variable {memory data rdata} in
theorem validEntry_iff {previousTypeId : Nat} {entry : RuntimeClassEntry} :
    validEntry memory data rdata previousTypeId entry = true ↔
      WellFormed memory data rdata entry ∧ previousTypeId < entry.typeId := by
  simp only [validEntry, Bool.and_eq_true, decide_eq_true_eq, rangeContains_iff]
  constructor
  · rintro ⟨⟨⟨⟨⟨⟨id, runtimeClass⟩, above⟩, idInside⟩, zero⟩, classInside⟩, vtable⟩
    exact ⟨⟨id, runtimeClass, idInside, zero, classInside, vtable⟩, above⟩
  · rintro ⟨⟨id, runtimeClass, idInside, zero, classInside, vtable⟩, above⟩
    exact ⟨⟨⟨⟨⟨⟨id, runtimeClass⟩, above⟩, idInside⟩, zero⟩, classInside⟩, vtable⟩

instance (entry : RuntimeClassEntry) : Decidable (WellFormed memory data rdata entry) :=
  decidable_of_iff (validEntry memory data rdata 0 entry = true) <| by
    rw [validEntry_iff]
    exact ⟨And.left, fun formed => ⟨formed, Nat.pos_of_ne_zero formed.typeId⟩⟩

/-- Entry `i` is well-formed. -/
def Good (i : Nat) : Prop := WellFormed memory data rdata (entries i)

instance : DecidablePred (Good memory entries data rdata) := fun i =>
  inferInstanceAs (Decidable (WellFormed memory data rdata (entries i)))

def typeIdOf (i : Nat) : Nat := (entries i).typeId

/-- The scan is the one-pass scan over the well-formed entries. -/
structure Scanned (i : Nat) (scan : RegistryScan) : Prop where
  best : (scan.bestCount, scan.best) = bestRun (Good memory entries data rdata) (typeIdOf entries) i
  run : scan.run = runLength (Good memory entries data rdata) (typeIdOf entries) i
  start : 0 < scan.run → scan.start = some (i - scan.run)
  previous : scan.previousTypeId = if scan.run = 0 then 0 else typeIdOf entries (i - 1)

variable {memory entries data rdata}

theorem Scanned.valid_iff {i : Nat} {scan : RegistryScan}
    (scanned : Scanned memory entries data rdata i scan) :
    validEntry memory data rdata scan.previousTypeId (entries i) = true ↔
      Good memory entries data rdata i ∧
        (runLength (Good memory entries data rdata) (typeIdOf entries) i = 0 ∨
          typeIdOf entries (i - 1) < typeIdOf entries i) := by
  rw [validEntry_iff, scanned.previous, ← scanned.run]
  constructor
  · rintro ⟨formed, above⟩
    refine ⟨formed, ?_⟩
    by_cases alone : scan.run = 0
    · exact .inl alone
    · rw [if_neg alone] at above
      exact .inr above
  · rintro ⟨formed, above⟩
    refine ⟨formed, ?_⟩
    by_cases alone : scan.run = 0
    · rw [if_pos alone]
      exact Nat.pos_of_ne_zero formed.typeId
    · rw [if_neg alone]
      exact above.resolve_left alone

theorem Scanned.step {i : Nat} {scan : RegistryScan}
    (scanned : Scanned memory entries data rdata i scan) :
    Scanned memory entries data rdata (i + 1) (registryStep memory entries data rdata scan i) := by
  have inside := runLength_le (Good memory entries data rdata) (typeIdOf entries) i
  rw [← scanned.run] at inside
  have best := scanned.best
  by_cases valid : validEntry memory data rdata scan.previousTypeId (entries i) = true
  · have run : runLength (Good memory entries data rdata) (typeIdOf entries) (i + 1) = scan.run + 1 := by
      rw [runLength, if_pos (scanned.valid_iff.mp valid), scanned.run]
    have start : (if scan.run = 0 then some i else scan.start) = some (i + 1 - (scan.run + 1)) := by
      by_cases alone : scan.run = 0
      · rw [if_pos alone, alone]
        rfl
      · rw [if_neg alone, scanned.start (Nat.pos_of_ne_zero alone), Nat.add_sub_add_right]
    by_cases longer : scan.bestCount < scan.run + 1
    · have next : registryStep memory entries data rdata scan i =
          ⟨scan.run + 1, some (i + 1 - (scan.run + 1)), scan.run + 1, some (i + 1 - (scan.run + 1)),
            (entries i).typeId⟩ := by
        simp only [registryStep, valid, if_true, longer, start]
      rw [next]
      refine ⟨?_, run.symm, fun _ => rfl, rfl⟩
      rw [bestRun, ← best, run, if_pos longer]
    · have next : registryStep memory entries data rdata scan i =
          ⟨scan.bestCount, scan.best, scan.run + 1, some (i + 1 - (scan.run + 1)),
            (entries i).typeId⟩ := by
        simp only [registryStep, valid, if_true, longer, start, if_false]
      rw [next]
      refine ⟨?_, run.symm, fun _ => rfl, rfl⟩
      rw [bestRun, ← best, run, if_neg longer]
  · have run : runLength (Good memory entries data rdata) (typeIdOf entries) (i + 1) = 0 := by
      rw [runLength, if_neg (mt scanned.valid_iff.mpr valid)]
    have next : registryStep memory entries data rdata scan i =
        { scan with run := 0, previousTypeId := 0 } := by
      rw [registryStep, if_neg valid]
    rw [next]
    refine ⟨?_, run.symm, fun positive => absurd positive (Nat.lt_irrefl 0), rfl⟩
    rw [bestRun, ← best, run, if_neg (Nat.not_lt_zero _)]

theorem registryLoop_scanned (i : Nat) :
    Scanned memory entries data rdata i (registryLoop memory entries data rdata i) := by
  induction i with
  | zero => exact ⟨rfl, rfl, fun positive => absurd positive (Nat.lt_irrefl 0), rfl⟩
  | succ i ih => exact ih.step

variable (memory entries data rdata)

/-- The answer is the longest block of well-formed entries with strictly increasing ids, from its
first entry on. -/
def FindsLongest (count : Nat) (found : Nat × Option (Option Nat)) : Prop :=
  ∃ registry, found.2 = some registry ∧
    Right (Good memory entries data rdata) (typeIdOf entries) count found.1 registry

/-- The entry that ends a run by its order is dropped, so the longest block is found exactly when it
starts after an even number of such entries. -/
theorem dlrfFindRegistry_longest_iff (count : Nat) (registry : Option Nat) :
    FindsLongest memory entries data rdata count
        (dlrfFindRegistry memory entries data rdata count (some registry)) ↔
      ∀ start length,
        FirstLongest (Good memory entries data rdata) (typeIdOf entries) count start length →
          Even (breaksBefore (Good memory entries data rdata) (typeIdOf entries) start) := by
  have scanned := (show Scanned memory entries data rdata count _ from registryLoop_scanned count).best
  rw [← bestRun_right_iff, ← scanned]
  constructor
  · rintro ⟨found, same, right⟩
    cases same
    exact right
  · exact fun right => ⟨_, rfl, right⟩

section Skipped

/-- Zeros, and at 1040 a runtime class whose first word is the address 2000. -/
private def classMemory (address : Nat) : Byte :=
  if address = 1040 then 0xD0 else if address = 1041 then 0x07 else 0

private def classEntries (i : Nat) : RuntimeClassEntry :=
  ⟨if i = 0 then 1003 else 999 + i, 1040⟩

/-- The three rising entries after the first are reported without the first of them. -/
theorem dlrfFindRegistry_skips :
    ¬ FindsLongest classMemory classEntries ⟨1000, 100⟩ ⟨2000, 8⟩ 4
      (dlrfFindRegistry classMemory classEntries ⟨1000, 100⟩ ⟨2000, 8⟩ 4 (some none)) := by
  have found : dlrfFindRegistry classMemory classEntries ⟨1000, 100⟩ ⟨2000, 8⟩ 4 (some none) =
      (2, some (some 2)) := by decide
  have good : ∀ i < 4, Good classMemory classEntries ⟨1000, 100⟩ ⟨2000, 8⟩ i := by decide
  rw [found]
  rintro ⟨registry, same, right⟩
  cases same
  have block : Block (Good classMemory classEntries ⟨1000, 100⟩ ⟨2000, 8⟩)
      (typeIdOf classEntries) 1 3 := by
    refine ⟨fun i _ high => good i (by omega), fun i j low less high => ?_⟩
    simp only [typeIdOf, classEntries]
    rw [if_neg (by omega), if_neg (by omega)]
    omega
  exact absurd (FirstLongest.longest right 1 3 block (by omega)) (by decide)

end Skipped

end Yafsml.Process.Dlrf
