import Yafsml.Dearxan.Scan
import Yafsml.Dearxan.VisitedMap
import Yafsml.Foundation.Loops

/-!
# The analysis of a candidate

`analyze_candidate` runs the virtual machine from a candidate on, and forks it where a condition is not
known. The states that are left to run are a stack.
-/

namespace Yafsml.Dearxan

open LittleEndian

def zydisCategoryCall : ZydisInstructionCategory := .other 21

def zydisCategoryRet : ZydisInstructionCategory := .other 79

def zydisCategorySyscall : ZydisInstructionCategory := .other 94

def zydisMnemonicCmp : ZydisMnemonic := .other 107

def zydisMnemonicInt : ZydisMnemonic := .other 289

structure Decoded where
  instruction : ZydisDecodedInstruction
  operands : Operands
  rawImmSize : Nat

/-- `ZYDIS_MAX_INSTRUCTION_LENGTH` bytes at most are decoded. -/
def decode (image : DearxanImage) (decoder : List Byte → Option Decoded) (rip : Word) : Option Decoded :=
  (dearxanImageRead (some image) rip 1).bind fun bytes => decoder (bytes.take 15)

namespace Decoded

variable (decoded : Decoded)

def isImmediate (i : Fin 10) (value : Word) : Bool :=
  match (decoded.operands i).type with
  | .immediate imm => imm.value = value
  | _ => false

def isCmpRax18 : Bool :=
  decoded.instruction.mnemonic = zydisMnemonicCmp && decoded.instruction.operandCountVisible = 2 &&
    (decoded.operands 0).isRegister && (decoded.operands 0).size = 64 &&
    zydisRegisterGetLargestEnclosing (decoded.operands 0).reg = some 0 && decoded.isImmediate 1 0x18

def isInt2d : Bool :=
  decoded.instruction.mnemonic = zydisMnemonicInt && decoded.instruction.operandCountVisible = 1 &&
    decoded.isImmediate 0 0x2d

def jumpsIndirectly : Bool :=
  decoded.instruction.category = .uncondBr && decoded.instruction.operandCountVisible ≠ 0 &&
    !isDirectRelativeBranch decoded.instruction (decoded.operands 0)

end Decoded

def extractCallInfo (vm : Vm) (decoded : Decoded) : Option CallInfo :=
  let instruction := decoded.instruction
  (dearxanVmReadRegister vm zydisRegisterRsp).bind fun rsp =>
    if instruction.category = zydisCategoryRet then
      let targetRsp := rsp + dearxanVmRetIncrement instruction decoded.operands
      if targetRsp &&& 0xf ≠ 8 then none
      else some ⟨targetRsp, targetRsp + 8, readNumber vm rsp 8, readNumber vm targetRsp 8⟩
    else if decoded.jumpsIndirectly then
      if rsp &&& 0xf ≠ 8 then none
      else some ⟨rsp, rsp + 8, dearxanVmOperandValue vm instruction (decoded.operands 0), readNumber vm rsp 8⟩
    else if instruction.category = zydisCategoryCall then
      some ⟨rsp - 8, rsp,
        if instruction.operandCountVisible ≠ 0 then dearxanVmOperandValue vm instruction (decoded.operands 0)
        else none,
        some (vm.rip + instruction.size)⟩
    else if instruction.category = zydisCategorySyscall then
      some ⟨rsp, rsp, some 0, some (vm.rip + instruction.size)⟩
    else none

def targetOobOrVisited (image : DearxanImage) (visitedMap : VisitedMap) (call : CallInfo) : Bool :=
  match call.targetIp with
  | none => true
  | some target => dearxanImageRead (some image) target 1 = none || (findVisitedMap visitedMap target).isSome

def invalidateVolatileRegisters (vm : Vm) : Vm :=
  [0, 1, 2, 8, 9, 10, 11].foldl (fun vm id => dearxanVmWriteRegister vm (.gpr64 id) none) vm

def scanCanStop (scan : ScanState) : Bool :=
  scan.contextPopVa.isSome && scan.returnGadget.isSome &&
    (scan.tea.phase = .found || scan.rmx.found || scan.sub.phase = .found)

def encryptionResult (scan : ScanState) : Option EncryptedRegionList :=
  if scan.tea.phase = .found then scan.tea.list
  else if scan.rmx.found then scan.rmx.list
  else if scan.sub.phase = .found then scan.sub.list
  else none

/-- What restores the context is a jump, or `add rsp, [rsp+8]`. -/
def isContextPop (image : DearxanImage) (va : Word) : Bool :=
  match dearxanImageRead (some image) va 5 with
  | none => false
  | some bytes => bytes.getD 0 0 = 0xe9 || bytes.take 5 = [0x48, 0x03, 0x64, 0x24, 0x08]

inductive AnalysisOutcome
  | matched (stub : StubInfo)
  | unmatched
  | fatal
  deriving DecidableEq, Repr

/-- `id` tells the states apart; nothing else reads it. -/
structure AnalysisState where
  vm : Vm
  branchCount : Nat
  cfgInfo : CfgInfo
  id : Nat

def analysisMaxSteps : Nat := 2 ^ 20

def cfgCmovDetached : Word := 0x7fffffffffffffff

def ignoredTestRspBranch : Nat := 1

/-- The memory that a turn of the main loop gets. `shortScan` is what `update_scan_state` leaves behind
where memory is short for it. -/
structure TurnMemory where
  appendAddress : Bool
  insertVisited : Nat → Bool
  step : Nat → Bool
  pushState : Bool
  shortScan : Option ScanState

structure AnalysisEnvironment where
  decoderInit : Bool
  decoder : List Byte → Option Decoded
  writeStack : Nat → Bool
  pushInitial : Bool
  turn : Nat → TurnMemory

/-- The variables of the main loop; the first state of `work` is the last of the array. Below are the number
of turns, the number of states that were made and the states that were released. -/
structure AnalysisLoop where
  work : List AnalysisState
  visitedMap : VisitedMap
  block : List Word
  stepCount : Nat
  cmovPairGen : Word
  badCmpRaxBranch : Nat
  isDoubleStepping : Bool
  scan : ScanState
  turns : Nat
  created : Nat
  released : List Nat

structure AnalysisEnd where
  loop : AnalysisLoop
  fatalError : Bool
  maxStepsReached : Bool

namespace AnalysisLoop

variable (loop : AnalysisLoop)

def setTop (state : AnalysisState) : AnalysisLoop := { loop with work := state :: loop.work.tail }

/-- `pop_state`, after which the next state starts a block. -/
def abandon : AnalysisLoop :=
  { loop with
    work := loop.work.tail
    block := []
    released := loop.released ++ (loop.work.take 1).map AnalysisState.id }

def release : AnalysisLoop :=
  { loop with work := [], released := loop.released ++ loop.work.map AnalysisState.id }

/-- `push_state`; a state that finds no place is released. -/
def push (room : Bool) (forked : AnalysisState) : AnalysisLoop ⊕ AnalysisEnd :=
  let loop := { loop with created := loop.created + 1 }
  if room then .inl { loop with work := forked :: loop.work, block := [] }
  else .inr ⟨{ loop with released := loop.released ++ [forked.id] }, true, false⟩

end AnalysisLoop

section Turn

variable (env : AnalysisEnvironment) (image : DearxanImage) (memory : TurnMemory) (decoded : Decoded)

def runCmov (state : AnalysisState) (loop : AnalysisLoop) : AnalysisLoop ⊕ AnalysisEnd :=
  match dearxanVmStep memory.step state.vm decoded.instruction decoded.operands with
  | none => .inr ⟨loop, true, false⟩
  | some (vm, none) => .inl (loop.setTop { state with vm := vm })
  | some (vm, some forkedVm) =>
      let gen := loop.cmovPairGen + 3
      let state := { state with
        vm := vm, branchCount := state.branchCount + 1, cfgInfo := { state.cfgInfo with cmovId := gen } }
      let forked := { state with
        vm := forkedVm, cfgInfo := { state.cfgInfo with cmovId := gen + 1 }, id := loop.created }
      { loop.setTop state with cmovPairGen := gen }.push memory.pushState forked

def markUnresolved (state : AnalysisState) (loop : AnalysisLoop) : AnalysisLoop :=
  if (decoded.jumpsIndirectly || decoded.instruction.category = zydisCategoryRet) && !state.vm.ripKnown then
    { loop with visitedMap := loop.block.foldl (setUnresolved true) loop.visitedMap }
  else loop

def runStep (state : AnalysisState) (loop : AnalysisLoop) : AnalysisLoop ⊕ AnalysisEnd :=
  match dearxanVmStep memory.step state.vm decoded.instruction decoded.operands with
  | none => .inr ⟨loop, true, false⟩
  | some (vm, none) =>
      let state := { state with vm := vm }
      .inl (markUnresolved decoded state (loop.setTop state))
  | some (vm, some forkedVm) =>
      let state := { state with vm := vm, branchCount := state.branchCount + 1 }
      (loop.setTop state).push memory.pushState { state with vm := forkedVm, id := loop.created }

def returnFromCall (call : CallInfo) (returnIp : Word) (vm : Vm) : Vm :=
  invalidateVolatileRegisters
    { dearxanVmWriteRegister vm zydisRegisterRsp (some call.returnRsp) with rip := returnIp, ripKnown := true }

def skippedCall (visitedMap : VisitedMap) (call : Option CallInfo) : Option (CallInfo × Word) :=
  call.bind fun call => call.returnIp.bind fun returnIp =>
    if targetOobOrVisited image visitedMap call then some (call, returnIp) else none

def runInstruction (call : Option CallInfo) (state : AnalysisState) (loop : AnalysisLoop) :
    AnalysisLoop ⊕ AnalysisEnd :=
  if ((dearxanVmReadRegister state.vm zydisRegisterRsp).any fun rsp => analysisInitialRsp < rsp) then
    .inl loop.abandon
  else if decoded.isInt2d then
    .inl (loop.setTop { state with vm := { state.vm with rip := state.vm.rip + decoded.instruction.size } })
  else if decoded.instruction.category = .cmov then runCmov memory decoded state loop
  else
    match skippedCall image loop.visitedMap call with
    | some (call, returnIp) =>
        .inl (loop.setTop { state with vm := returnFromCall call returnIp state.vm })
    | none => runStep memory decoded state loop

def countStep (state : AnalysisState) (loop : AnalysisLoop) : AnalysisLoop ⊕ AnalysisEnd :=
  let loop := { loop.setTop state with stepCount := loop.stepCount + 1 }
  if analysisMaxSteps < loop.stepCount then .inr ⟨loop, false, true⟩
  else
    let call := extractCallInfo state.vm decoded
    let scanned := ⟨⟨state.vm, decoded.instruction, decoded.operands⟩, decoded.rawImmSize, call⟩
    let scan := memory.shortScan.getD (updateScanState (some image) loop.scan scanned)
    let loop := { loop with scan := scan }
    if scanCanStop scan then .inr ⟨loop, false, false⟩
    else runInstruction image memory decoded call state loop

def AnalysisState.detach (state : AnalysisState) : AnalysisState :=
  { state with cfgInfo := { state.cfgInfo with cmovId := cfgCmovDetached } }

def runsInStep (state : AnalysisState) (known : VisitedSlot) : Bool :=
  decoded.instruction.category ≠ .condBr && state.cfgInfo.cmovId ≠ cfgCmovDetached &&
    state.cfgInfo.cmovId + 1 = known.info.cmovId

/-- An address that was visited before is visited again after an unresolved jump, or in step. -/
def visitKnown (known : VisitedSlot) (state : AnalysisState) (loop : AnalysisLoop) :
    AnalysisLoop ⊕ AnalysisEnd :=
  let loop := { loop with visitedMap := setUnresolved false loop.visitedMap state.vm.rip }
  if runsInStep decoded state known then
    countStep image memory decoded state { loop with isDoubleStepping := true }
  else if known.info.unresolvedBranch then
    if loop.isDoubleStepping then
      countStep image memory decoded state.detach { loop with isDoubleStepping := false }
    else countStep image memory decoded state loop
  else .inl loop.abandon

def visitNew (state : AnalysisState) (loop : AnalysisLoop) : AnalysisLoop ⊕ AnalysisEnd :=
  let state := if loop.isDoubleStepping then state.detach else state
  match insertVisitedMap memory.insertVisited loop.visitedMap state.vm.rip state.cfgInfo with
  | none => .inr ⟨{ loop.setTop state with isDoubleStepping := false }, true, false⟩
  | some visitedMap =>
      countStep image memory decoded state { loop with visitedMap := visitedMap, isDoubleStepping := false }

def visit (state : AnalysisState) (loop : AnalysisLoop) : AnalysisLoop ⊕ AnalysisEnd :=
  match findVisitedMap loop.visitedMap state.vm.rip with
  | some known => visitKnown image memory decoded known state loop
  | none => visitNew image memory decoded state loop

def enterInstruction (state : AnalysisState) (loop : AnalysisLoop) : AnalysisLoop ⊕ AnalysisEnd :=
  let top := loop.work.length - 1
  if state.branchCount = 1 ∧ top = ignoredTestRspBranch then .inl loop.abandon
  else
    let loop :=
      if state.branchCount = 1 && decoded.isCmpRax18 then
        { loop with badCmpRaxBranch := 2 * ignoredTestRspBranch }
      else loop
    if state.branchCount = 2 ∧ top = loop.badCmpRaxBranch then .inl loop.abandon
    else visit image memory decoded state loop

def analysisTurn (loop : AnalysisLoop) : AnalysisLoop ⊕ AnalysisEnd :=
  match loop.work with
  | [] => .inr ⟨loop, false, false⟩
  | state :: _ =>
      let memory := env.turn loop.turns
      let loop := { loop with turns := loop.turns + 1 }
      match if state.vm.ripKnown then decode image env.decoder state.vm.rip else none with
      | none => .inl loop.abandon
      | some decoded =>
          if memory.appendAddress then
            enterInstruction image memory decoded state { loop with block := loop.block ++ [state.vm.rip] }
          else .inr ⟨loop, true, false⟩

end Turn

end Yafsml.Dearxan
