import Yafsml.Dearxan.RegionTable
import Yafsml.Dearxan.StubCiphers
import Yafsml.Dearxan.Vm
import Yafsml.Foundation.TripleMatch

/-!
# The scanner for the subtraction cipher

`update_sub` looks for a region table, and then for `mov r32, [ciphertext]`, `neg r32` and
`add r32, [key]` in a row.
-/

namespace Yafsml.Dearxan

open LittleEndian TripleMatch

def ZydisDecodedOperand.isRegister (operand : ZydisDecodedOperand) : Bool :=
  match operand.type with
  | .register _ => true
  | _ => false

def ZydisDecodedOperand.isMemory (operand : ZydisDecodedOperand) : Bool :=
  match operand.type with
  | .memory _ => true
  | _ => false

def ZydisDecodedOperand.reg (operand : ZydisDecodedOperand) : ZydisRegister :=
  match operand.type with
  | .register value => value
  | _ => .none

def ZydisDecodedOperand.memBase (operand : ZydisDecodedOperand) : ZydisRegister :=
  match operand.type with
  | .memory mem => mem.base
  | _ => .none

def zydisMnemonicNeg : ZydisMnemonic := .other 486

/-- An instruction that loads a register of 32 bits from a memory operand of `size` bits. -/
def loadsRegister (mnemonic : ZydisMnemonic) (size : Nat) (instruction : ZydisDecodedInstruction)
    (operands : Operands) : Bool :=
  instruction.mnemonic = mnemonic && instruction.operandCountVisible = 2 &&
    (operands 0).isRegister && (operands 0).size = 32 && (operands 1).size = size &&
    (operands 1).isMemory

def isMovzxR32Rm8 : ZydisDecodedInstruction → Operands → Bool := loadsRegister .movzx 8

def isMovR32Rm32 : ZydisDecodedInstruction → Operands → Bool := loadsRegister .mov 32

def isAddR32Rm32 : ZydisDecodedInstruction → Operands → Bool := loadsRegister .add 32

def isDirectRelativeBranch (instruction : ZydisDecodedInstruction) (operand : ZydisDecodedOperand) :
    Bool :=
  instruction.category = .uncondBr &&
    match operand.type with
    | .immediate imm => imm.isRelative
    | _ => false

def parseRegionsAt (image : Option DearxanImage) (va : Word) : Option (List EncryptedRegion × Nat) :=
  (dearxanImageRead image va 2).bind dearxanParseEncryptedRegions

/-- `build_region_list`; the list has the size of the regions, the rest of the last block is left out. -/
def buildRegionList (kind : DecryptionKind) (regions : List EncryptedRegion) (streamSize : Nat)
    (ciphertext : Option (List Byte)) (keyBytes : List Byte) (key32 : BitVec 32) :
    Option EncryptedRegionList :=
  (decryptStream kind ciphertext streamSize keyBytes key32 true).map fun plaintext =>
    ⟨regions, plaintext.take streamSize⟩

inductive SubPhase
  | searchRegions
  | searchCiphertext
  | checkNeg
  | checkKey
  | found
  deriving DecidableEq, Repr

/-- `sub_state_t`; the ciphertext is all that is available of it. -/
structure SubState where
  phase : SubPhase
  regions : List EncryptedRegion
  streamSize : Nat
  reg : ZydisRegister
  ciphertext : Option (List Byte)
  list : Option EncryptedRegionList
  deriving DecidableEq, Repr

def SubState.fresh : SubState := ⟨.searchRegions, [], 0, .none, none, none⟩

/-- What `update_sub` is called with. -/
structure Fed where
  vm : Vm
  instruction : ZydisDecodedInstruction
  operands : Operands

namespace Fed

variable (fed : Fed)

def address : Option Word := dearxanVmOperandAddress fed.vm fed.instruction (fed.operands 1)

def value : Option Word := dearxanVmOperandValue fed.vm fed.instruction (fed.operands 1)

def branches : Bool :=
  fed.instruction.operandCountVisible ≠ 0 && isDirectRelativeBranch fed.instruction (fed.operands 0)

def negates (reg : ZydisRegister) : Bool :=
  fed.instruction.mnemonic = zydisMnemonicNeg && fed.instruction.operandCountVisible = 1 &&
    (fed.operands 0).isRegister && (fed.operands 0).reg = reg

def addsRelative (reg : ZydisRegister) : Bool :=
  isAddR32Rm32 fed.instruction fed.operands && (fed.operands 0).reg = reg &&
    (fed.operands 1).memBase = .rip

end Fed

def updateSub (image : Option DearxanImage) (sub : SubState) (fed : Fed) : SubState :=
  if sub.phase = .found || fed.branches then sub
  else
    match sub.phase with
    | .searchRegions =>
        if isMovzxR32Rm8 fed.instruction fed.operands then
          match fed.address.bind (parseRegionsAt image) with
          | some (regions, streamSize) =>
              { sub with phase := .searchCiphertext, regions := regions, streamSize := streamSize }
          | none => sub
        else sub
    | .searchCiphertext =>
        if isMovR32Rm32 fed.instruction fed.operands then
          match fed.address with
          | some va =>
              match dearxanImageRead image va 1 with
              | some bytes =>
                  { sub with ciphertext := some bytes, reg := (fed.operands 0).reg, phase := .checkNeg }
              | none => { sub with ciphertext := none }
          | none => sub
        else sub
    | .checkNeg =>
        if fed.negates sub.reg then { sub with phase := .checkKey }
        else { sub with phase := .searchCiphertext }
    | .checkKey =>
        if fed.addsRelative sub.reg then
          match fed.value.bind fun key =>
              buildRegionList .sub sub.regions sub.streamSize sub.ciphertext [] (key.setWidth 32) with
          | some list => { sub with list := some list, regions := [], phase := .found }
          | none => { sub with phase := .searchCiphertext }
        else { sub with phase := .searchCiphertext }
    | .found => sub

def runSub (image : Option DearxanImage) (sub : SubState) (fed : List Fed) : SubState :=
  fed.foldl (updateSub image) sub

/-- A readable ciphertext is moved to a register, with the register and the bytes. -/
def startsSub (image : Option DearxanImage) (fed : Fed) : Option (ZydisRegister × List Byte) :=
  if isMovR32Rm32 fed.instruction fed.operands then
    fed.address.bind fun va => (dearxanImageRead image va 1).map fun bytes => ((fed.operands 0).reg, bytes)
  else none

/-- The key is known and the ciphertext is as long as the stream in whole blocks. -/
def endsSub (streamSize : Nat) (started : ZydisRegister × List Byte) (fed : Fed) : Bool :=
  fed.addsRelative started.1 && fed.value.isSome && encryptedSize .sub streamSize ≤ started.2.length

theorem startsSub_mov {image : Option DearxanImage} {fed : Fed} {started : ZydisRegister × List Byte}
    (starts : startsSub image fed = some started) : fed.instruction.mnemonic = .mov := by
  unfold startsSub at starts
  split at starts
  · rename_i moves
    simp only [isMovR32Rm32, loadsRegister, Bool.and_eq_true, decide_eq_true_eq] at moves
    exact moves.1.1.1.1.1
  · cases starts

def subPattern (image : Option DearxanImage) (streamSize : Nat) :
    TripleMatch.Pattern Fed (ZydisRegister × List Byte) where
  starts := startsSub image
  continues started fed := fed.negates started.1
  ends := endsSub streamSize
  apart fed started started' starts := by
    have mnemonic := startsSub_mov starts
    constructor
    · simp [Fed.negates, mnemonic, zydisMnemonicNeg]
    · simp [endsSub, Fed.addsRelative, isAddR32Rm32, loadsRegister, mnemonic]

def SubMatch (image : Option DearxanImage) (streamSize : Nat) (a b c : Fed) : Prop :=
  ∃ reg va bytes, isMovR32Rm32 a.instruction a.operands = true ∧ (a.operands 0).reg = reg ∧
    a.address = some va ∧ dearxanImageRead image va 1 = some bytes ∧
    encryptedSize .sub streamSize ≤ bytes.length ∧ b.negates reg = true ∧
    c.addsRelative reg = true ∧ ∃ key, c.value = some key

def SubMatchAfter (image : Option DearxanImage) (streamSize : Nat) (fed before : List Fed) : Prop :=
  ∃ a b c after, fed = before ++ a :: b :: c :: after ∧ SubMatch image streamSize a b c

theorem subMatchAfter_iff {image : Option DearxanImage} {streamSize : Nat} {fed before : List Fed} :
    SubMatchAfter image streamSize fed before ↔
      TripleMatch.MatchAfter (subPattern image streamSize) fed before := by
  constructor
  · rintro ⟨a, b, c, after, split, reg, va, bytes, moves, destination, address, readable, enough,
      negates, adds, key, known⟩
    refine ⟨a, b, c, after, (reg, bytes), split, ?_, negates, ?_⟩
    · show startsSub image a = _
      rw [startsSub, if_pos moves, address, Option.bind_some, readable, Option.map_some, destination]
    · show endsSub streamSize (reg, bytes) c = true
      simp [endsSub, adds, known, enough]
  · rintro ⟨a, b, c, after, ⟨reg, bytes⟩, split, starts, negates, ends⟩
    refine ⟨a, b, c, after, split, reg, ?_⟩
    change startsSub image a = _ at starts
    change endsSub streamSize (reg, bytes) c = true at ends
    unfold startsSub at starts
    split at starts
    · rename_i moves
      obtain ⟨va, address, starts⟩ := Option.bind_eq_some_iff.mp starts
      obtain ⟨bytes', readable, same⟩ := Option.map_eq_some_iff.mp starts
      obtain ⟨destination, rfl⟩ := Prod.mk.inj same
      simp only [endsSub, Bool.and_eq_true, decide_eq_true_eq] at ends
      obtain ⟨key, known⟩ := Option.isSome_iff_exists.mp ends.1.2
      exact ⟨va, bytes', moves, destination, address, readable, ends.2, negates, ends.1.1, key, known⟩
    · cases starts

theorem decryptStream_sub_isSome {streamSize : Nat} (small : streamSize < 2 ^ 32) (bytes : List Byte)
    (keyBytes : List Byte) (key32 : BitVec 32) :
    (decryptStream .sub (some bytes) streamSize keyBytes key32 true).isSome =
      decide (encryptedSize .sub streamSize ≤ bytes.length) := by
  rw [decryptStream, if_neg (by simp only [sizeMax, DecryptionKind.blockSize]; omega)]
  simp only [if_true]
  split
  · rename_i short
    exact (decide_eq_false (Nat.not_le.mpr short)).symm
  · rename_i enough
    exact (decide_eq_true (Nat.not_lt.mp enough)).symm

def SubState.Tracks (streamSize : Nat) (sub : SubState) :
    TripleMatch.State (ZydisRegister × List Byte) → Prop
  | .search => sub.phase = .searchCiphertext ∧ sub.streamSize = streamSize
  | .started (reg, bytes) => sub.phase = .checkNeg ∧ sub.streamSize = streamSize ∧ sub.reg = reg ∧
      sub.ciphertext = some bytes
  | .continued (reg, bytes) => sub.phase = .checkKey ∧ sub.streamSize = streamSize ∧ sub.reg = reg ∧
      sub.ciphertext = some bytes
  | .found => sub.phase = .found

section Tracks

variable {image : Option DearxanImage} {streamSize : Nat} {sub : SubState}
  {state : TripleMatch.State (ZydisRegister × List Byte)} {fed : Fed}

theorem updateSub_branches (branches : fed.branches = true) : updateSub image sub fed = sub := by
  rw [updateSub, if_pos (by rw [branches, Bool.or_true])]

theorem SubState.Tracks.step (small : streamSize < 2 ^ 32) (tracks : sub.Tracks streamSize state)
    (plain : fed.branches = false) :
    (updateSub image sub fed).Tracks streamSize
      (TripleMatch.step (subPattern image streamSize) state fed) := by
  cases state with
  | search =>
      obtain ⟨phase, size⟩ := tracks
      rw [updateSub, if_neg (by simp [phase, plain]), phase]
      by_cases moves : isMovR32Rm32 fed.instruction fed.operands = true
      · simp only [moves, if_true]
        cases address : fed.address with
        | none =>
            have starts : startsSub image fed = none := by simp [startsSub, address]
            rw [step_wait (show (subPattern image streamSize).starts fed = none from starts)]
            exact ⟨phase, size⟩
        | some va =>
            cases readable : dearxanImageRead image va 1 with
            | none =>
                have starts : startsSub image fed = none := by simp [startsSub, address, readable]
                rw [step_wait (show (subPattern image streamSize).starts fed = none from starts)]
                simp only [readable]
                exact ⟨rfl, size⟩
            | some bytes =>
                have starts : startsSub image fed = some ((fed.operands 0).reg, bytes) := by
                  simp [startsSub, moves, address, readable]
                rw [step_start (show (subPattern image streamSize).starts fed = _ from starts)]
                simp only [readable]
                exact ⟨rfl, size, rfl, rfl⟩
      · have starts : startsSub image fed = none := by simp [startsSub, moves]
        rw [step_wait (show (subPattern image streamSize).starts fed = none from starts)]
        simp only [moves]
        exact ⟨phase, size⟩
  | started started =>
      obtain ⟨reg, bytes⟩ := started
      obtain ⟨phase, size, same, held⟩ := tracks
      rw [updateSub, if_neg (by simp [phase, plain]), phase]
      simp only [same]
      cases negates : fed.negates reg with
      | true =>
          rw [step_continue
            (show (subPattern image streamSize).continues (reg, bytes) fed = true from negates)]
          exact ⟨rfl, size, rfl, held⟩
      | false =>
          rw [step_break
            (show (subPattern image streamSize).continues (reg, bytes) fed = false from negates)]
          exact ⟨rfl, size⟩
  | continued started =>
      obtain ⟨reg, bytes⟩ := started
      obtain ⟨phase, size, same, held⟩ := tracks
      rw [updateSub, if_neg (by simp [phase, plain]), phase]
      simp only [same, size, held]
      have failed (fails : endsSub streamSize (reg, bytes) fed = false) :
          SubState.Tracks streamSize ⟨.searchCiphertext, sub.regions, streamSize, reg, some bytes, sub.list⟩
            (TripleMatch.step (subPattern image streamSize) (.continued (reg, bytes)) fed) := by
        rw [step_fail (show (subPattern image streamSize).ends (reg, bytes) fed = false from fails)]
        exact ⟨rfl, rfl⟩
      by_cases adds : fed.addsRelative reg = true
      · rw [if_pos adds]
        cases known : fed.value with
        | none => exact failed (by simp [endsSub, known])
        | some key =>
            have built := decryptStream_sub_isSome small bytes [] (key.setWidth 32)
            simp only [Option.bind_some, buildRegionList]
            by_cases enough : encryptedSize .sub streamSize ≤ bytes.length
            · rw [decide_eq_true enough] at built
              obtain ⟨plaintext, found⟩ := Option.isSome_iff_exists.mp built
              have ends : endsSub streamSize (reg, bytes) fed = true := by
                simp [endsSub, adds, known, enough]
              rw [found, step_end (show (subPattern image streamSize).ends (reg, bytes) fed = true from ends)]
              exact rfl
            · rw [decide_eq_false enough, Option.isSome_eq_false_iff, Option.isNone_iff_eq_none] at built
              rw [built]
              exact failed (by simp [endsSub, enough])
      · rw [if_neg adds]
        exact failed (by simp [endsSub, adds])
  | found =>
      rw [updateSub, if_pos (by simp [show sub.phase = .found from tracks])]
      exact tracks

theorem SubState.Tracks.run (small : streamSize < 2 ^ 32) (tracks : sub.Tracks streamSize state)
    (fed : List Fed) :
    (runSub image sub fed).Tracks streamSize
      (TripleMatch.run (subPattern image streamSize) state (fed.filter fun f => !f.branches)) := by
  induction fed generalizing sub state with
  | nil => exact tracks
  | cons first rest ih =>
      cases branches : first.branches with
      | true =>
          show (runSub image (updateSub image sub first) rest).Tracks streamSize _
          rw [updateSub_branches branches, List.filter_cons_of_neg (by simp [branches])]
          exact ih tracks
      | false =>
          rw [List.filter_cons_of_pos (by simp [branches])]
          exact ih (tracks.step small branches)

theorem SubState.Tracks.found_iff (tracks : sub.Tracks streamSize state) :
    sub.phase = .found ↔ state = .found := by
  cases state with
  | search => simp [tracks.1]
  | started started => simp [tracks.1]
  | continued started => simp [tracks.1]
  | found => simp [show sub.phase = .found from tracks]

end Tracks

theorem RegionTable.totalSize_le {rva offset : Nat} {table : List Byte} {regions : List EncryptedRegion}
    (accepted : RegionTable rva offset table regions) : rva + totalSize regions ≤ uint32Max := by
  induction accepted with
  | finish varint positive reaches =>
      simp only [totalSize, List.map_nil, List.sum_nil]
      omega
  | region first second apart nonempty ends rest ih =>
      simp only [totalSize, List.map_cons, List.sum_cons] at ih ⊢
      omega

theorem dearxanParseEncryptedRegions_small {bytes : List Byte} {regions : List EncryptedRegion}
    {streamSize : Nat} (parsed : dearxanParseEncryptedRegions bytes = some (regions, streamSize)) :
    streamSize < 2 ^ 32 := by
  have loop : parseRegionsLoop (fun _ => true) [] 0 0 bytes = _ :=
    parseRegionsLoop_eq_parseRegions (Nat.lt_succ_self bytes.length) []
  rw [show parseRegions (bytes.length + 1) 0 0 bytes = some (regions, streamSize) from parsed] at loop
  obtain ⟨table, rest, regions', rfl, accepted⟩ := parseRegionsLoop_table loop
  rw [accepted.parses (Nat.le_refl 0) rest []] at loop
  have size := congrArg (Option.map RegionOutputs.streamSize) loop
  have max : uint32Max = 2 ^ 32 - 1 := rfl
  have bound := accepted.totalSize_le
  simp only [Option.map_some, Option.some.injEq] at size
  omega

theorem updateSub_small (image : Option DearxanImage) {sub : SubState} (small : sub.streamSize < 2 ^ 32)
    (fed : Fed) : (updateSub image sub fed).streamSize < 2 ^ 32 := by
  unfold updateSub
  split
  · exact small
  · split
    · split
      · split
        · rename_i parsed
          obtain ⟨va, -, read⟩ := Option.bind_eq_some_iff.mp parsed
          obtain ⟨bytes, -, parsed⟩ := Option.bind_eq_some_iff.mp read
          exact dearxanParseEncryptedRegions_small parsed
        · exact small
      · exact small
    · split
      · split
        · split
          · exact small
          · exact small
        · exact small
      · exact small
    · split
      · exact small
      · exact small
    · split
      · split
        · exact small
        · exact small
      · exact small
    · exact small

theorem runSub_small (image : Option DearxanImage) {sub : SubState} (small : sub.streamSize < 2 ^ 32)
    (fed : List Fed) : (runSub image sub fed).streamSize < 2 ^ 32 := by
  induction fed generalizing sub with
  | nil => exact small
  | cons first rest ih => exact ih (updateSub_small image small first)

/-- After a table was found, the scanner finds the three instructions whenever they come, exactly if
some occurrence has an even number of unfinished starts directly in front of it. -/
theorem updateSub_finds_iff (image : Option DearxanImage) (before after : List Fed)
    (searching : (runSub image .fresh before).phase = .searchCiphertext) :
    let sub := runSub image .fresh before
    let rest := after.filter fun fed => !fed.branches
    ((runSub image sub after).phase = .found ↔ ∃ front, SubMatchAfter image sub.streamSize rest front) ↔
      ((∃ front, SubMatchAfter image sub.streamSize rest front) →
        ∃ front, SubMatchAfter image sub.streamSize rest front ∧
          Even (unfinished (subPattern image sub.streamSize) front.reverse)) := by
  intro sub rest
  have small : sub.streamSize < 2 ^ 32 := runSub_small image (by decide) before
  have tracks : sub.Tracks sub.streamSize .search := ⟨searching, rfl⟩
  have found := (SubState.Tracks.run small tracks after : (runSub image sub after).Tracks _ _).found_iff
  rw [found, run_found_iff]
  simp only [subMatchAfter_iff]
  constructor
  · exact fun same => same.mpr
  · exact fun present => ⟨fun ⟨front, occurs, _⟩ => ⟨front, occurs⟩, present⟩

section DoubleMov

/-- A table of one region of four bytes, its ciphertext and the key. -/
private def subImage : DearxanImage where
  bytes := [0x10, 0x04, 0xeb, 0xff, 0xff, 0xff, 0x0f, 1, 2, 3, 4, 5, 6, 7, 8]
  baseVa := 0x140000000

private def fedAt (mnemonic : ZydisMnemonic) (count : Nat) (first second : ZydisDecodedOperand) : Fed where
  vm := dearxanVmInit (some subImage) subImage.baseVa 0x10000
  instruction := ⟨mnemonic, 7, count, count, 32, .other 0⟩
  operands i := if i = 0 then first else second

private def register32 (id : Fin 16) : ZydisDecodedOperand := ⟨32, true, .register (.gpr32 id)⟩

private def atOffset (size : Nat) (offset : Word) : ZydisDecodedOperand :=
  ⟨size, false, .memory ⟨.rip, .none, 0, true, offset - 7⟩⟩

private def tableFed : List Fed := [fedAt .movzx 2 (register32 0) (atOffset 8 0)]

private def movFed (id : Fin 16) : Fed := fedAt .mov 2 (register32 id) (atOffset 32 7)

private def negFed (id : Fin 16) : Fed := fedAt zydisMnemonicNeg 1 (register32 id) (register32 id)

private def addFed (id : Fin 16) : Fed := fedAt .add 2 (register32 id) (atOffset 32 11)

/-- A `mov` of another register comes directly before the three instructions. -/
theorem updateSub_overlooks :
    ¬ ((runSub (some subImage) (runSub (some subImage) .fresh tableFed)
        [movFed 0, movFed 1, negFed 1, addFed 1]).phase = .found ↔
      ∃ front, SubMatchAfter (some subImage) (runSub (some subImage) .fresh tableFed).streamSize
        ([movFed 0, movFed 1, negFed 1, addFed 1].filter fun fed => !fed.branches) front) := by
  have plain : ([movFed 0, movFed 1, negFed 1, addFed 1].filter fun fed => !fed.branches) =
      [movFed 0, movFed 1, negFed 1, addFed 1] := rfl
  have size : (runSub (some subImage) .fresh tableFed).streamSize = 4 := by decide
  rw [plain, size]
  intro found
  have occurs : SubMatch (some subImage) 4 (movFed 1) (negFed 1) (addFed 1) :=
    ⟨.gpr32 1, 0x140000007, [1, 2, 3, 4, 5, 6, 7, 8], by decide, by decide, by decide, by decide,
      by decide, by decide, by decide, 0x08070605, by decide⟩
  exact absurd (found.mpr ⟨[movFed 0], _, _, _, [], rfl, occurs⟩) (by decide)

theorem updateSub_finds_iff_table :
    (runSub (some subImage) (runSub (some subImage) .fresh tableFed)
        [movFed 1, negFed 1, addFed 1]).phase = .found ∧
      (((runSub (some subImage) (runSub (some subImage) .fresh tableFed)
          [movFed 1, negFed 1, addFed 1]).phase = .found ↔
        ∃ front, SubMatchAfter (some subImage) (runSub (some subImage) .fresh tableFed).streamSize
          ([movFed 1, negFed 1, addFed 1].filter fun fed => !fed.branches) front) ↔
      ((∃ front, SubMatchAfter (some subImage) (runSub (some subImage) .fresh tableFed).streamSize
          ([movFed 1, negFed 1, addFed 1].filter fun fed => !fed.branches) front) →
        ∃ front, SubMatchAfter (some subImage) (runSub (some subImage) .fresh tableFed).streamSize
          ([movFed 1, negFed 1, addFed 1].filter fun fed => !fed.branches) front ∧
          Even (unfinished (subPattern (some subImage)
            (runSub (some subImage) .fresh tableFed).streamSize) front.reverse))) :=
  ⟨by decide, updateSub_finds_iff (some subImage) tableFed [movFed 1, negFed 1, addFed 1] (by decide)⟩

end DoubleMov

end Yafsml.Dearxan
