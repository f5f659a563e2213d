import Yafsml.Process.Scanner

/-! # What a pattern string means -/

namespace Yafsml.Process

open LittleEndian

abbrev Nibble := Option (BitVec 4)

inductive PatternSymbol where
  | space
  | nibble (nibble : Nibble)
  deriving DecidableEq, Repr

def symbolOf (c : Byte) : Option PatternSymbol :=
  let n := c.toNat
  if n = 32 ∨ n = 9 ∨ n = 10 ∨ n = 11 ∨ n = 13 then some .space
  else if n = 63 then some (.nibble none)
  else if 48 ≤ n ∧ n ≤ 57 then some (.nibble (some (BitVec.ofNat 4 (n - 48))))
  else if 65 ≤ n ∧ n ≤ 70 then some (.nibble (some (BitVec.ofNat 4 (n - 55))))
  else if 97 ≤ n ∧ n ≤ 102 then some (.nibble (some (BitVec.ofNat 4 (n - 87))))
  else none

def nibbleValue (a : Nibble) : Byte := (a.getD 0).setWidth 8

def nibbleMask (a : Nibble) : Byte := if a.isSome then 0xF else 0

def pairByte (a b : Nibble) : PatternByte :=
  ⟨nibbleValue a <<< 4 ||| nibbleValue b, nibbleMask a <<< 4 ||| nibbleMask b⟩

def loneByte (a : Nibble) : PatternByte := ⟨nibbleValue a, if a.isSome then 0xFF else 0⟩

def symbolBytes : List PatternSymbol → List PatternByte
  | [] => []
  | .space :: rest => symbolBytes rest
  | [.nibble a] => [loneByte a]
  | .nibble a :: .space :: rest => loneByte a :: symbolBytes rest
  | .nibble a :: .nibble b :: rest => pairByte a b :: symbolBytes rest

def patternBytes (pattern : List Byte) : Option (List PatternByte) :=
  ((pattern.takeWhile (· ≠ 0)).mapM symbolOf).map symbolBytes

def firstByte (a : Nibble) : PatternByte := ⟨nibbleValue a, nibbleMask a⟩

theorem close_firstByte (a : Nibble) : (firstByte a).close = loneByte a := by
  cases a with
  | none => decide
  | some v => rfl

theorem charTable_symbolOf (c : Byte) :
    charTable[c.toNat]? = match symbolOf c with
      | some .space => some (-2)
      | some (.nibble none) => some (-3)
      | some (.nibble (some v)) => some (v.toNat : Int)
      | none => if c.toNat < 128 then some (-1) else none := by
  revert c
  decide +kernel

theorem patternChar_eq (outSize : Nat) (st : PatternState) (c : Byte) :
    patternChar outSize st c = match symbolOf c with
      | none => .error .malformed
      | some .space => .ok st.finish
      | some (.nibble a) => st.character outSize (nibbleValue a) (nibbleMask a) := by
  rw [patternChar, charTable_symbolOf]
  cases symbolOf c with
  | none => split_ifs <;> rfl
  | some symbol =>
      cases symbol with
      | space => rfl
      | nibble a =>
          cases a with
          | none => rfl
          | some v =>
              have positive : 0 ≤ (v.toNat : Int) := Int.natCast_nonneg _
              have value : BitVec.ofNat 8 (v.toNat : Int).toNat = v.setWidth 8 := by
                rw [Int.toNat_natCast]
                exact BitVec.ofNat_toNat 8 v
              simp only
              rw [if_neg (by omega), if_neg (by omega), if_neg (by omega), value]
              rfl

def stateAt (bytes : List PatternByte) (pending : Option Nibble) : PatternState := ⟨bytes, pending.map firstByte⟩

def pendingSymbols (pending : Option Nibble) : List PatternSymbol := (pending.map .nibble).toList

def meaning (bytes : List PatternByte) (pending : Option Nibble) (pattern : List Byte) :
    Except PatternFailure (List PatternByte) :=
  match (pattern.takeWhile (· ≠ 0)).mapM symbolOf with
  | none => .error .malformed
  | some symbols => .ok (bytes ++ symbolBytes (pendingSymbols pending ++ symbols))

theorem finish_stateAt (bytes : List PatternByte) (pending : Option Nibble) :
    (stateAt bytes pending).finish = stateAt (bytes ++ symbolBytes (pendingSymbols pending)) none := by
  cases pending with
  | none => simp [PatternState.finish, stateAt, pendingSymbols, symbolBytes]
  | some a => simp [PatternState.finish, stateAt, pendingSymbols, symbolBytes, close_firstByte]

theorem meaning_end {c : Byte} (bytes : List PatternByte) (pending : Option Nibble) (rest : List Byte)
    (nul : c = 0) :
    meaning bytes pending (c :: rest) = .ok (stateAt bytes pending).finish.bytes := by
  rw [finish_stateAt]
  simp [meaning, nul, stateAt]

theorem meaning_cons {c : Byte} (bytes : List PatternByte) (pending : Option Nibble) (rest : List Byte)
    (more : c ≠ 0) :
    meaning bytes pending (c :: rest) =
      match symbolOf c with
      | none => .error .malformed
      | some .space => meaning (bytes ++ symbolBytes (pendingSymbols pending)) none rest
      | some (.nibble b) =>
          match pending with
          | none => meaning bytes (some b) rest
          | some a => meaning (bytes ++ [pairByte a b]) none rest := by
  unfold meaning
  rw [List.takeWhile_cons_of_pos (by simpa using more), List.mapM_cons]
  cases symbolOf c with
  | none => rfl
  | some symbol =>
      cases (rest.takeWhile (· ≠ 0)).mapM symbolOf with
      | none =>
          cases symbol with
          | space => rfl
          | nibble b => cases pending <;> rfl
      | some symbols =>
          cases symbol with
          | space => cases pending <;> simp [pendingSymbols, symbolBytes]
          | nibble b => cases pending <;> simp [pendingSymbols, symbolBytes]

theorem buildPattern_eq (outSize : Nat) (bytes : List PatternByte) (pending : Option Nibble)
    (pattern : List Byte) :
    buildPattern outSize (stateAt bytes pending) pattern = .error .tooLong ∨
      buildPattern outSize (stateAt bytes pending) pattern = meaning bytes pending pattern := by
  induction pattern generalizing bytes pending with
  | nil =>
      right
      rw [buildPattern, finish_stateAt]
      simp [meaning, stateAt]
  | cons c rest ih =>
      rw [buildPattern]
      split_ifs with nul
      · exact Or.inr (meaning_end bytes pending rest nul).symm
      · rw [meaning_cons bytes pending rest nul, patternChar_eq]
        cases symbolOf c with
        | none => exact Or.inr rfl
        | some symbol =>
            cases symbol with
            | space =>
                simp only [finish_stateAt]
                exact ih _ none
            | nibble b =>
                cases pending with
                | some a => exact ih (bytes ++ [pairByte a b]) none
                | none =>
                    by_cases full : outSize ≤ bytes.length
                    · simp [PatternState.character, stateAt, full]
                    · simp only [PatternState.character, stateAt, Option.map_none, full, if_false]
                      exact ih bytes (some b)

theorem length_finish (bytes : List PatternByte) (pending : Option Nibble) :
    (bytes ++ symbolBytes (pendingSymbols pending)).length ≤ bytes.length + 1 := by
  cases pending <;> simp [pendingSymbols, symbolBytes]

theorem buildPattern_ne_tooLong {outSize : Nat} {bytes : List PatternByte} {pending : Option Nibble}
    {pattern : List Byte} (room : bytes.length + pattern.length ≤ outSize) :
    buildPattern outSize (stateAt bytes pending) pattern ≠ .error .tooLong := by
  induction pattern generalizing bytes pending with
  | nil =>
      intro given
      cases given
  | cons c rest ih =>
      rw [List.length_cons] at room
      rw [buildPattern]
      split_ifs with nul
      · intro given
        cases given
      · rw [patternChar_eq]
        cases symbolOf c with
        | none =>
            intro given
            cases given
        | some symbol =>
            cases symbol with
            | space =>
                simp only [finish_stateAt]
                have := length_finish bytes pending
                exact ih (by omega)
            | nibble b =>
                cases pending with
                | some a =>
                    have room' : (bytes ++ [pairByte a b]).length + rest.length ≤ outSize := by
                      rw [List.length_append, List.length_singleton]
                      omega
                    exact (ih room' : buildPattern outSize (stateAt (bytes ++ [pairByte a b]) none) rest ≠ _)
                | none =>
                    have roomy : ¬ outSize ≤ bytes.length := by omega
                    simp only [PatternState.character, stateAt, Option.map_none, roomy, if_false]
                    exact (ih (by omega) : buildPattern outSize (stateAt bytes (some b)) rest ≠ _)

theorem meaning_ne_tooLong (bytes : List PatternByte) (pending : Option Nibble) (pattern : List Byte) :
    meaning bytes pending pattern ≠ .error .tooLong := by
  unfold meaning
  cases (pattern.takeWhile (· ≠ 0)).mapM symbolOf with
  | none =>
      intro given
      cases given
  | some symbols =>
      intro given
      cases given

theorem growPattern_of_fits {pattern : List Byte} {outSize : Nat} (fuel : Nat)
    (fits : sigBuildPatternWithMask pattern outSize ≠ .error .tooLong) :
    growPattern pattern (fuel + 1) outSize = some (meaning [] none pattern) := by
  have same : sigBuildPatternWithMask pattern outSize = meaning [] none pattern :=
    (buildPattern_eq outSize [] none pattern).resolve_left fits
  have other := meaning_ne_tooLong [] none pattern
  rw [growPattern, same]
  cases result : meaning [] none pattern with
  | ok bytes => rfl
  | error failure =>
      cases failure with
      | malformed => rfl
      | tooLong => exact (other result).elim

theorem growPattern_eq {pattern : List Byte} {fuel outSize : Nat} (positive : 0 < outSize)
    (enough : pattern.length ≤ outSize + fuel) :
    growPattern pattern (fuel + 1) outSize = some (meaning [] none pattern) := by
  by_cases full : sigBuildPatternWithMask pattern outSize = .error .tooLong
  · induction fuel generalizing outSize with
    | zero =>
        have room : ([] : List PatternByte).length + pattern.length ≤ outSize := by simpa using enough
        have fits : buildPattern outSize (stateAt [] none) pattern ≠ .error .tooLong := buildPattern_ne_tooLong room
        exact (fits full).elim
    | succ fuel ih =>
        rw [growPattern, full]
        by_cases full' : sigBuildPatternWithMask pattern (outSize * 2) = .error .tooLong
        · exact ih (by omega) (by omega) full'
        · exact growPattern_of_fits fuel full'
  · exact growPattern_of_fits fuel full

end Yafsml.Process
