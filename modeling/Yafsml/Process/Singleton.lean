import Yafsml.Foundation.LittleEndian
import Yafsml.Foundation.Returns

/-!
# The code that makes a singleton

What is found in the `.text` section. A computation gives nothing where it reads or writes outside of its
arrays. Positions have 32 bits.
-/

namespace Yafsml.Process.Singleton

open LittleEndian

inductive InstructionKind where
  | leaRcx
  | leaR8
  | leaR9
  | movR9
  | movEdx
  deriving DecidableEq, Repr

structure Instruction where
  kind : InstructionKind
  pos : Nat
  deriving DecidableEq, Repr

inductive CandidateKind where
  | none
  | derived
  | fd4
  deriving DecidableEq, Repr

structure Candidate where
  kind : CandidateKind
  pos : Nat
  cap2 : Nat
  deriving DecidableEq, Repr

def Candidate.none : Candidate := ⟨.none, 0, 0⟩

def call : Byte := 0xe8
def jneShort : Byte := 0x75
def rexW : Byte := 0x48
def rexWrxb : Byte := 0x4f
def rexMask : Byte := ~~~(rexWrxb ^^^ rexW)
def jneNear : List Byte := [0x0f, 0x85]
def leaRcx : List Byte := [0x48, 0x8d, 0x0d]
def leaR8 : List Byte := [0x4c, 0x8d, 0x05]
def leaR9 : List Byte := [0x4c, 0x8d, 0x0d]
def movR9 : List Byte := [0x4c, 0x8b, 0xc8]

/-- Compares the bytes at `pos`, all of which are read. -/
def memcmp (text : List Byte) (pos : Nat) (pat : List Byte) : Option Bool :=
  if pos + pat.length ≤ text.length then some ((text.drop pos).take pat.length == pat) else none

def bytesEq (text : List Byte) (pos : Nat) (pat : List Byte) : Option Bool :=
  if pos ≤ text.length ∧ pat.length ≤ text.length - pos then memcmp text pos pat else some false

def Instruction.nextPos (ins : Instruction) : Nat :=
  match ins.kind with
  | .movEdx => (ins.pos + 5) % 2 ^ 32
  | .leaRcx | .leaR8 | .leaR9 => (ins.pos + 7) % 2 ^ 32
  | .movR9 => (ins.pos + 3) % 2 ^ 32

def insertInstruction (instructions : List Instruction) (ins : Instruction) : Option (List Instruction) :=
  if instructions.length < 4 then some (ins :: instructions) else none

def pushInstruction (instructions : List Instruction) (ins : Instruction) : Option (List Instruction) :=
  if 4 ≤ instructions.length then none else some (instructions ++ [ins])

inductive Follows where
  | instruction (kind : InstructionKind)
  | call
  | other

/-- What follows at `pos`. -/
def followsAt (text : List Byte) (pos : Nat) : Option Follows := do
  if ← memcmp text pos leaRcx then some (.instruction .leaRcx)
  else if ← memcmp text pos leaR8 then some (.instruction .leaR8)
  else if ← memcmp text pos leaR9 then some (.instruction .leaR9)
  else if ← memcmp text pos movR9 then some (.instruction .movR9)
  else if (← text[pos]?) = call then some .call
  else some .other

/-- The first loop. A candidate that is given up is `none`. -/
def walkForward (text : List Byte) : Nat → List Instruction → Option (Option (List Instruction))
  | 0, _ => none
  | rounds + 1, instructions =>
      if instructions.length < 4 then do
        let last ← instructions[instructions.length - 1]?
        let nextPos := last.nextPos
        if text.length < nextPos ∨ text.length - nextPos < 3 then some none
        else
          match ← followsAt text nextPos with
          | .instruction kind =>
              match pushInstruction instructions ⟨kind, nextPos⟩ with
              | none => some none
              | some instructions => walkForward text rounds instructions
          | .call => some (some instructions)
          | .other => some none
      else some (some instructions)

/-- What precedes, if it begins at `pos` or is the `mov` that begins four bytes later. -/
def precedesAt (text : List Byte) (pos : Nat) : Option (Option Instruction) := do
  if ← memcmp text pos leaRcx then some (some ⟨.leaRcx, pos⟩)
  else if ← memcmp text pos leaR8 then some (some ⟨.leaR8, pos⟩)
  else if ← memcmp text pos leaR9 then some (some ⟨.leaR9, pos⟩)
  else if ← memcmp text (pos + 4) movR9 then some (some ⟨.movR9, (pos + 4) % 2 ^ 32⟩)
  else some none

def walkBackward (text : List Byte) : Nat → List Instruction → Option (Option (List Instruction))
  | 0, _ => none
  | rounds + 1, instructions =>
      if instructions.length < 4 then do
        let first ← instructions[0]?
        if first.pos < 7 then some none
        else
          let prevPos := first.pos - 7
          if text.length < prevPos ∨ text.length - prevPos < 7 then some none
          else
            match ← precedesAt text prevPos with
            | none => some none
            | some ins => walkBackward text rounds (← insertInstruction instructions ins)
      else some (some instructions)

def instructionsAt (text : List Byte) (pos : Nat) : Option (Option (List Instruction)) := do
  match ← walkForward text 4 [⟨.movEdx, pos⟩] with
  | none => some none
  | some instructions => walkBackward text 4 instructions

def InstructionKind.mask : InstructionKind → Nat
  | .leaRcx => 1
  | .leaR8 => 2
  | .leaR9 => 4
  | .movR9 => 8
  | .movEdx => 0

def candidateOf (instructions : List Instruction) : Option Candidate := do
  let read ← (List.range 4).mapM fun i => instructions[i]?
  let first ← instructions[0]?
  let mask := read.foldl (fun mask ins => mask ||| ins.kind.mask) 0
  if mask = 7 then
    match read.find? fun ins => ins.kind = .leaR9 with
    | some ins => some ⟨.derived, first.pos, (ins.pos + 3) % 2 ^ 32⟩
    | none => some .none
  else if mask = 11 then some ⟨.fd4, first.pos, 0⟩
  else some .none

def candidateAt (text : List Byte) (pos : Nat) : Option Candidate := do
  match ← instructionsAt text pos with
  | none => some .none
  | some instructions => candidateOf instructions

def shortJump (text : List Byte) (pos : Nat) : Option Bool :=
  if 2 ≤ pos ∧ pos - 2 < text.length then text[pos - 2]?.map (· == jneShort) else some false

def nearJump (text : List Byte) (pos : Nat) : Option Bool :=
  if 6 ≤ pos then bytesEq text (pos - 6) jneNear else some false

/-- The place of the conditional jump that ends at `pos`. -/
def condJump (text : List Byte) (pos : Nat) : Option (Option Nat) := do
  if ← shortJump text pos then some (some (pos - 2))
  else if ← nearJump text pos then some (some (pos - 6))
  else some none

/-- The loop over the paddings between the `mov` and the `test` at `pos`. -/
def guardedMov (text : List Byte) (pos : Nat) (testRexb testReg1 : Byte) : List Nat → Option (Option Nat)
  | [] => some none
  | pad :: pads =>
      if pos < 7 + pad then guardedMov text pos testRexb testReg1 pads
      else
        let movPos := pos - (7 + pad)
        if text.length < movPos ∨ text.length - movPos < 7 then
          guardedMov text pos testRexb testReg1 pads
        else do
          let movRex ← text[movPos]?
          let movModrm ← text[movPos + 2]?
          let movRexw := (movRex >>> 2) &&& 1
          let movMod := movModrm &&& 0xc0
          let movMem := movModrm &&& 7
          let movReg := (movModrm >>> 3) &&& 7
          if movRex &&& rexMask = rexW ∧ movMod = 0 ∧ movMem = 5 ∧ movRexw = testRexb ∧ movReg = testReg1 then
            some (some ((movPos + 3) % 2 ^ 32))
          else guardedMov text pos testRexb testReg1 pads

/-- The displacement of the `mov` before the `test` that ends at `pos`. -/
def decodeGuardedMov (text : List Byte) (pos : Nat) : Option (Option Nat) :=
  if pos < 3 then some none
  else
    let pos := pos - 3
    if text.length < pos ∨ text.length - pos < 3 then some none
    else do
      let testRex ← text[pos]?
      let testModrm ← text[pos + 2]?
      let testRexb := testRex &&& 1
      let testMod := testModrm &&& 0xc0
      let testReg1 := testModrm &&& 7
      let testReg2 := (testModrm >>> 3) &&& 7
      if testRex &&& rexMask ≠ rexW ∨ testMod ≠ 0xc0 ∨ testReg1 ≠ testReg2 then some none
      else guardedMov text pos testRexb testReg1 (List.range 4)

structure DerivedCaps where
  cap1 : Nat
  cap2 : Nat
  deriving DecidableEq, Repr

def derivedCaps (text : List Byte) (candidate : Candidate) : Option (Option DerivedCaps) :=
  if candidate.kind ≠ .derived then some none
  else if text.length < candidate.cap2 ∨ text.length - candidate.cap2 < 4 then some none
  else do
    match ← condJump text candidate.pos with
    | none => some none
    | some jumpPos =>
        match ← decodeGuardedMov text jumpPos with
        | none => some none
        | some cap1 => some (some ⟨cap1, candidate.cap2⟩)

structure Fd4Caps where
  cap1 : Nat
  cap2 : Nat
  cap3 : Nat
  deriving DecidableEq, Repr

def fd4CapsAt (text : List Byte) (candidatePos pad : Nat) : Option (Option Fd4Caps) :=
  if candidatePos < 5 + pad then some none
  else
    let callPos := candidatePos - (5 + pad)
    if text.length ≤ callPos then some none
    else do
      if (← text[callPos]?) ≠ call ∨ text.length < (callPos + 5) % 2 ^ 32 then some none
      else if callPos < 7 then some none
      else
        let leaPos := callPos - 7
        if ← bytesEq text leaPos leaRcx then
          match ← condJump text leaPos with
          | none => some none
          | some jumpPos =>
              match ← decodeGuardedMov text jumpPos with
              | none => some none
              | some cap1 => some (some ⟨cap1, (leaPos + 3) % 2 ^ 32, (callPos + 1) % 2 ^ 32⟩)
        else some none

def fd4CapsFrom (text : List Byte) (candidatePos : Nat) : List Nat → Option (Option Fd4Caps)
  | [] => some none
  | pad :: pads => do
      match ← fd4CapsAt text candidatePos pad with
      | some caps => some (some caps)
      | none => fd4CapsFrom text candidatePos pads

def fd4Caps (text : List Byte) (candidate : Candidate) : Option (Option Fd4Caps) :=
  if candidate.kind ≠ .fd4 then some none else fd4CapsFrom text candidate.pos (List.range 2)

/-- `ml_rel32_target` at a capture, with the section at `base`. -/
def ripTarget (text : List Byte) (base : Word) (cap : Nat) : Option Word := do
  let displacement ← (List.range 4).mapM fun k => text[cap + k]?
  some (base + BitVec.ofNat 64 cap + 4 +
    ((ofBytes (fun k => displacement.getD k 0) 4).setWidth 32).signExtend 64)

end Yafsml.Process.Singleton
