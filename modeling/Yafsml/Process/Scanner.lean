import Yafsml.Foundation.LittleEndian
import Yafsml.Foundation.SkipSearch

/-! # Scanning for a signature -/

namespace Yafsml.Process

open LittleEndian SkipSearch

/-- A byte of the pattern and the mask it is compared under. -/
structure PatternByte where
  value : Byte
  mask : Byte
  deriving DecidableEq, Repr

/-- For each ASCII character the value of a digit, or -1 for an error, -2 for a space, -3 for `?`. -/
def charTable : List Int :=
  [-1, -1, -1, -1, -1, -1, -1, -1, -1, -2, -2, -2, -1, -2, -1, -1,
    -1, -1, -1, -1, -1, -1, -1, -1, -1, -1, -1, -1, -1, -1, -1, -1,
    -2, -1, -1, -1, -1, -1, -1, -1, -1, -1, -1, -1, -1, -1, -1, -1,
    0, 1, 2, 3, 4, 5, 6, 7, 8, 9, -1, -1, -1, -1, -1, -3,
    -1, 10, 11, 12, 13, 14, 15, -1, -1, -1, -1, -1, -1, -1, -1, -1,
    -1, -1, -1, -1, -1, -1, -1, -1, -1, -1, -1, -1, -1, -1, -1, -1,
    -1, 10, 11, 12, 13, 14, 15, -1, -1, -1, -1, -1, -1, -1, -1, -1,
    -1, -1, -1, -1, -1, -1, -1, -1, -1, -1, -1, -1, -1, -1, -1, -1]

inductive PatternFailure where
  | tooLong
  | malformed
  deriving DecidableEq, Repr

/-- The bytes that are complete, and the one whose second character may come next. -/
structure PatternState where
  bytes : List PatternByte
  current : Option PatternByte
  deriving DecidableEq, Repr

def PatternByte.close (b : PatternByte) : PatternByte := if b.mask = 0xF then { b with mask := 0xFF } else b

def PatternByte.append (b : PatternByte) (value mask : Byte) : PatternByte :=
  ⟨b.value <<< 4 ||| value, b.mask <<< 4 ||| mask⟩

/-- A character of a byte, with what it is in the first and in the second place. -/
def PatternState.character (st : PatternState) (outSize : Nat) (value mask : Byte) :
    Except PatternFailure PatternState :=
  match st.current with
  | some b => .ok ⟨st.bytes ++ [b.append value mask], none⟩
  | none => if outSize ≤ st.bytes.length then .error .tooLong else .ok { st with current := some ⟨value, mask⟩ }

def PatternState.finish (st : PatternState) : PatternState :=
  match st.current with
  | some b => ⟨st.bytes ++ [b.close], none⟩
  | none => st

def patternChar (outSize : Nat) (st : PatternState) (c : Byte) : Except PatternFailure PatternState :=
  match charTable[c.toNat]? with
  | none => .error .malformed
  | some value =>
      if value = -1 then .error .malformed
      else if value = -2 then .ok st.finish
      else if value = -3 then st.character outSize 0 0
      else st.character outSize (BitVec.ofNat 8 value.toNat) 0xF

def buildPattern (outSize : Nat) : PatternState → List Byte → Except PatternFailure (List PatternByte)
  | st, [] => .ok st.finish.bytes
  | st, c :: rest =>
      if c = 0 then .ok st.finish.bytes
      else
        match patternChar outSize st c with
        | .error failure => .error failure
        | .ok st => buildPattern outSize st rest

def sigBuildPatternWithMask (pattern : List Byte) (outSize : Nat) : Except PatternFailure (List PatternByte) :=
  buildPattern outSize ⟨[], none⟩ pattern

def PatternByte.accepts (p : PatternByte) (c : Byte) : Bool := c &&& p.mask = p.value

def badDataStep (bad : Byte → Int) (entry : PatternByte × Nat) : Byte → Int :=
  if entry.1.mask = 0xFF then Function.update bad entry.1.value entry.2
  else fun c => if entry.1.value &&& entry.1.mask = c &&& entry.1.mask then entry.2 else bad c

def badDataHeuristic (window : List PatternByte) : Byte → Int :=
  window.zipIdx.foldl badDataStep fun _ => -1

/-- `none` where the data ends. -/
def maskedEqual (data : List Byte) : Nat → List PatternByte → Option Bool
  | _, [] => some true
  | s, p :: rest => do
      let c ← data[s]?
      if p.accepts c then maskedEqual data (s + 1) rest else some false

/-- The last place below `j` that the text does not match, with what is there. -/
def lastMismatch (data : List Byte) (text : Nat) (window : List PatternByte) : Nat → Option (Option (Nat × Byte))
  | 0 => some none
  | j + 1 => do
      let c ← data[text + j]?
      let p ← window[j]?
      if p.accepts c then lastMismatch data text window j else some (some (j, c))

def windowLook (data : List Byte) (pattern window : List PatternByte) (start : Nat) (s : Nat) : Option Verdict := do
  match ← lastMismatch data (s + start) window window.length with
  | some (j, c) => some (.skip (max 1 ((j : Int) - badDataHeuristic window c)).toNat)
  | none => if ← maskedEqual data s pattern then some .found else some (.skip 1)

/-- The first `dataSize` bytes are searched. -/
def sigScanWindow (data : List Byte) (dataSize : Nat) (pattern : List PatternByte) (start size : Nat) :
    Option (Option Nat) :=
  let window := (pattern.drop start).take size
  let last := dataSize - pattern.length
  skipSearch (windowLook data pattern window start) last (last + 2) 0

structure FixedRun where
  best : Nat
  run : Nat
  start : Nat
  deriving DecidableEq, Repr

def fixedRunStep (r : FixedRun) (entry : PatternByte × Nat) : FixedRun :=
  let run := if entry.1.mask = 0xFF then r.run + 1 else 0
  if run ≠ 0 ∧ r.best ≤ run then ⟨run, run, entry.2 + 1 - run⟩ else { r with run }

def longestFixedRun (pattern : List PatternByte) : FixedRun := pattern.zipIdx.foldl fixedRunStep ⟨0, 0, 0⟩

def fixedLength (pattern : List PatternByte) : Nat → Nat
  | 0 => 0
  | fixed + 1 => if (pattern[fixed]?.map PatternByte.mask).any (· = 0) then fixedLength pattern fixed else fixed + 1

def sigScanPattern (data : List Byte) (pattern : List PatternByte) : Option (Option Nat) :=
  if pattern.length = 0 ∨ data.length < pattern.length then some none
  else
    let fixed := fixedLength pattern pattern.length
    if fixed = 0 then some (some 0)
    else
      let front := pattern.take fixed
      let r := longestFixedRun front
      let dataSize := data.length - (pattern.length - fixed)
      if r.best = 0 then sigScanWindow data dataSize front 0 fixed
      else sigScanWindow data dataSize front r.start r.best

/-- `fuel` bounds how often the buffers are doubled. -/
def growPattern (pattern : List Byte) : Nat → Nat → Option (Except PatternFailure (List PatternByte))
  | 0, _ => none
  | fuel + 1, outSize =>
      match sigBuildPatternWithMask pattern outSize with
      | .error .tooLong => growPattern pattern fuel (outSize * 2)
      | result => some result

/-- The offset in the data, or `none` where it is read outside. -/
def sigScan (data pattern : List Byte) : Option (Option Nat) := do
  match ← growPattern pattern (pattern.length + 1) 64 with
  | .error _ => some none
  | .ok bytes => sigScanPattern data bytes

end Yafsml.Process
