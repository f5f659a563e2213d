import Yafsml.Dearxan.RegionPatches
import Yafsml.Dearxan.SubScanner
import Yafsml.Dearxan.TeaReader
import Yafsml.Foundation.ResumedSearch

/-!
# What a candidate is scanned for

`update_scan_state` and the three scanners behind it, with memory for all that they keep.
-/

namespace Yafsml.Dearxan

open LittleEndian

structure CallInfo where
  targetRsp : Word
  returnRsp : Word
  targetIp : Option Word
  returnIp : Option Word
  deriving DecidableEq, Repr

/-- What `update_scan_state` is called with; `rawImmSize` is the size of the first raw immediate. -/
structure Scanned where
  fed : Fed
  rawImmSize : Nat
  call : Option CallInfo

def zydisMnemonicAnd : ZydisMnemonic := .other 31

def zydisMnemonicImul : ZydisMnemonic := .other 279

def isRmxKeyInstruction (scanned : Scanned) : Bool :=
  let instruction := scanned.fed.instruction
  let operands := scanned.fed.operands
  instruction.mnemonic = zydisMnemonicAnd && instruction.operandCountVisible = 2 &&
    (operands 0).isRegister && (operands 0).size = 32 &&
    (scanned.rawImmSize = 8 || ((operands 0).reg = .gpr32 0 && scanned.rawImmSize = 32)) &&
    match (operands 1).type with
    | .immediate imm => imm.value = 0x1f
    | _ => false

/-- `imul edx, r/m32`. -/
def isRmxCiphertextInstruction (fed : Fed) : Bool :=
  fed.instruction.mnemonic = zydisMnemonicImul && fed.instruction.operandCountVisible = 2 &&
    (fed.operands 0).isRegister && (fed.operands 0).reg = .gpr32 2 && (fed.operands 0).size = 32 &&
    (fed.operands 1).size = 32

/-- `rmx_state_t`; no regions are what a null pointer is. -/
structure RmxState where
  key : Option (BitVec 32)
  regions : List EncryptedRegion
  streamSize : Nat
  ciphertext : Option (List Byte)
  found : Bool
  list : Option EncryptedRegionList
  deriving DecidableEq, Repr

def RmxState.fresh : RmxState := ⟨none, [], 0, none, false, none⟩

def updateRmx (image : Option DearxanImage) (rmx : RmxState) (scanned : Scanned) : RmxState :=
  let fed := scanned.fed
  if rmx.found then rmx
  else
    let rmx :=
      if rmx.key = none && isRmxKeyInstruction scanned then
        { rmx with
          key := (dearxanVmReadRegister fed.vm (fed.operands 0).reg).map fun value => value.setWidth 32 }
      else rmx
    let rmx :=
      if rmx.regions = [] && isMovzxR32Rm8 fed.instruction fed.operands then
        match fed.address.bind (parseRegionsAt image) with
        | some (regions, streamSize) => { rmx with regions := regions, streamSize := streamSize }
        | none => rmx
      else rmx
    let rmx :=
      if rmx.ciphertext = none && isRmxCiphertextInstruction fed then
        { rmx with
          ciphertext := (dearxanVmReadRegister fed.vm (.gpr64 0)).bind fun va => dearxanImageRead image va 4 }
      else rmx
    match rmx.key, rmx.ciphertext with
    | some key, some ciphertext =>
        if rmx.regions = [] then rmx
        else
          match buildRegionList .rmx rmx.regions rmx.streamSize (some ciphertext) [] key with
          | some list => { rmx with list := some list, regions := [], found := true }
          | none => { rmx with regions := [] }
    | _, _ => rmx

/-- A value of eight bytes that an address in a register pointed to. -/
structure LeaValue where
  value : Word
  va : Word
  deriving DecidableEq, Repr

/-- `key` is all that the image has from the key on. -/
structure TeaKeyCandidate where
  decryptVa : Word
  nextLea : Nat
  keyVa : Word
  key : List Byte
  deriving DecidableEq, Repr

structure TeaCandidate where
  decryptVa : Word
  keyVa : Word
  key : List Byte
  ciphertext : List Byte
  deriving DecidableEq, Repr

inductive TeaPhase
  | searchRegions
  | searchCiphertext
  | found
  deriving DecidableEq, Repr

structure TeaState where
  phase : TeaPhase
  keys : List TeaKeyCandidate
  decryptVas : List Word
  candidates : List TeaCandidate
  regionDecryptVa : Word
  regionKeyVa : Word
  regions : List EncryptedRegion
  streamSize : Nat
  list : Option EncryptedRegionList
  deriving DecidableEq, Repr

def TeaState.fresh : TeaState := ⟨.searchRegions, [], [], [], 0, 0, [], 0, none⟩

def findLeaValue (leas : List LeaValue) (value : Word) : Option LeaValue :=
  leas.find? fun lea => lea.value = value

def appendDecryptVa (decryptVas : List Word) (va : Word) : List Word :=
  if va ∈ decryptVas then decryptVas else decryptVas ++ [va]

/-- The candidates that are left, and the first one that may be for the regions. -/
def pickCandidate (decryptVa keyVa : Word) : List TeaCandidate → List TeaCandidate × Option TeaCandidate
  | [] => ([], none)
  | candidate :: rest =>
      if candidate.decryptVa ≠ decryptVa ∨ candidate.keyVa = keyVa then pickCandidate decryptVa keyVa rest
      else if candidate.ciphertext = [] then
        (candidate :: (pickCandidate decryptVa keyVa rest).1, (pickCandidate decryptVa keyVa rest).2)
      else (candidate :: rest, some candidate)

def searchTeaCiphertext (tea : TeaState) : TeaState :=
  if tea.phase ≠ .searchCiphertext then tea
  else
    let picked := pickCandidate tea.regionDecryptVa tea.regionKeyVa tea.candidates
    let built := picked.2.bind fun candidate =>
      buildRegionList .tea tea.regions tea.streamSize (some candidate.ciphertext) candidate.key 0
    match built with
    | some list =>
        { tea with candidates := picked.1, list := some list, regions := [], phase := .found }
    | none => { tea with candidates := picked.1 }

def parseTeaRegionsAt (image : Option DearxanImage) (key : List Byte) (va : Word) :
    Option (List EncryptedRegion × Nat) :=
  (dearxanImageRead image va 8).bind fun ciphertext =>
    match parseTeaRegions (fun _ => true) ciphertext key ⟨[], 0, 0⟩ with
    | (true, parsed) => some (parsed.regions, parsed.streamSize)
    | (false, _) => none

/-- Keys go through the table of LEA values, each with its `next_lea`. -/
def teaSearch (image : Option DearxanImage) :
    ResumedSearch.Resumable TeaKeyCandidate LeaValue (List EncryptedRegion × Nat) where
  cursor := TeaKeyCandidate.nextLea
  moved key n := { key with nextLea := n }
  test key lea := parseTeaRegionsAt image key.key lea.va
  cursor_moved _ _ := rfl
  test_moved _ _ := rfl

def TeaState.confirmed (tea : TeaState) (key : TeaKeyCandidate) : Bool := key.decryptVa ∈ tea.decryptVas

def TeaState.confirm (tea : TeaState) (decryptVa : Option Word) : TeaState :=
  match decryptVa with
  | some va => { tea with decryptVas := appendDecryptVa tea.decryptVas va }
  | none => tea

def searchTeaRegions (image : Option DearxanImage) (leas : List LeaValue) (decryptVa : Option Word)
    (tea : TeaState) : TeaState :=
  if tea.phase ≠ .searchRegions then tea
  else
    let tea := tea.confirm decryptVa
    let searched := (teaSearch image).search tea.confirmed leas tea.keys
    match searched.2 with
    | some (key, regions, streamSize) =>
        searchTeaCiphertext { tea with
          keys := searched.1
          regionDecryptVa := key.decryptVa
          regionKeyVa := key.keyVa
          regions := regions
          streamSize := streamSize
          phase := .searchCiphertext }
    | none => { tea with keys := searched.1 }

/-- A call of `search_tea_regions` in the first phase. -/
structure TeaRegionsCall where
  leas : List LeaValue
  decryptVa : Option Word
  before : TeaState
  after : TeaState
  deriving DecidableEq, Repr

/-- `scan_state_t` and what it fills in of the stub. `searches` is the record of the calls of
`search_tea_regions` in the first phase, which nothing reads. -/
structure ScanState where
  contextPopVa : Option Word
  returnGadget : Option ReturnGadget
  tea : TeaState
  rmx : RmxState
  sub : SubState
  leas : List LeaValue
  searches : List TeaRegionsCall

def ScanState.fresh : ScanState := ⟨none, none, .fresh, .fresh, .fresh, [], []⟩

def ScanState.searchTeaRegions (image : Option DearxanImage) (decryptVa : Option Word) (scan : ScanState) :
    ScanState :=
  let tea := Dearxan.searchTeaRegions image scan.leas decryptVa scan.tea
  { scan with
    tea := tea
    searches :=
      if scan.tea.phase = .searchRegions then scan.searches ++ [⟨scan.leas, decryptVa, scan.tea, tea⟩]
      else scan.searches }

def ScanState.appendKey (key : TeaKeyCandidate) (scan : ScanState) : ScanState :=
  { scan with tea := { scan.tea with keys := scan.tea.keys ++ [key] } }

def ScanState.appendCandidate (candidate : TeaCandidate) (scan : ScanState) : ScanState :=
  { scan with tea := { scan.tea with candidates := scan.tea.candidates ++ [candidate] } }

def analysisInitialRsp : Word := 0x10000

def calledKey (image : Option DearxanImage) (vm : Vm) : Option (Word × List Byte) :=
  (dearxanVmReadRegister vm (.gpr64 2)).bind fun keyVa =>
    (dearxanImageRead image keyVa 16).map fun key => (keyVa, key)

def calledBlock (vm : Vm) : Option Word :=
  (dearxanVmReadRegister vm (.gpr64 1)).bind fun stackVa =>
    if analysisInitialRsp ≤ stackVa then none else readNumber vm stackVa 8

def onTeaCall (image : Option DearxanImage) (vm : Vm) (decryptVa : Word) (scan : ScanState) : ScanState :=
  match calledKey image vm with
  | none => scan
  | some (keyVa, key) =>
      let scan :=
        if scan.tea.phase = .searchRegions then
          (scan.appendKey ⟨decryptVa, 0, keyVa, key⟩).searchTeaRegions image none
        else scan
      match (calledBlock vm).bind (findLeaValue scan.leas) with
      | none => scan
      | some lea =>
          match dearxanImageRead image lea.va 8 with
          | none => scan
          | some ciphertext =>
              let scan := (scan.appendCandidate ⟨decryptVa, keyVa, key, ciphertext⟩).searchTeaRegions image
                (some decryptVa)
              { scan with tea := searchTeaCiphertext scan.tea }

def zydisLeaOf (fed : Fed) : Bool :=
  fed.instruction.mnemonic = .lea && fed.instruction.operandCountVisible = 2 &&
    (fed.operands 0).size = 64 && (fed.operands 1).isMemory && (fed.operands 1).memBase = .rip

def Fed.leaValue (fed : Fed) : Option LeaValue :=
  if zydisLeaOf fed then
    fed.address.bind fun va => (readNumber fed.vm va 8).map fun value => ⟨value, va⟩
  else none

def updateLeas (leas : List LeaValue) (lea : LeaValue) : List LeaValue :=
  match leas.findIdx? fun known => known.value = lea.value with
  | some existing => leas.set existing lea
  | none => leas ++ [lea]

def Fed.returnGadget (fed : Fed) : Option ReturnGadget :=
  if fed.instruction.mnemonic = .mov && fed.instruction.operandCountVisible = 2 &&
      (fed.operands 0).isMemory && (fed.operands 0).size = 64 && (fed.operands 1).isRegister then
    (dearxanVmOperandAddress fed.vm fed.instruction (fed.operands 0)).bind fun writeAddress =>
      fed.value.bind fun returnAddress =>
        if analysisInitialRsp ≤ writeAddress ∧ writeAddress - analysisInitialRsp < 0x400 then
          some ⟨writeAddress - analysisInitialRsp, returnAddress⟩
        else none
  else none

def ScanState.call (image : Option DearxanImage) (vm : Vm) (call : CallInfo) (scan : ScanState) : ScanState :=
  match call.returnIp, scan.contextPopVa, call.targetIp with
  | some returnIp, none, _ => { scan with contextPopVa := some returnIp }
  | _, _, some targetIp => onTeaCall image vm targetIp scan
  | _, _, none => scan

def ScanState.look (image : Option DearxanImage) (scanned : Scanned) (scan : ScanState) : ScanState :=
  { scan with
    returnGadget := if scan.returnGadget = none then scanned.fed.returnGadget else scan.returnGadget
    rmx := updateRmx image scan.rmx scanned
    sub := updateSub image scan.sub scanned.fed
    leas := (scanned.fed.leaValue.map (updateLeas scan.leas)).getD scan.leas }

def updateScanState (image : Option DearxanImage) (scan : ScanState) (scanned : Scanned) : ScanState :=
  let scan := scan.look image scanned
  match scanned.call with
  | none => scan
  | some call => scan.call image scanned.fed.vm call

def runScan (image : Option DearxanImage) (scan : ScanState) (scanned : List Scanned) : ScanState :=
  scanned.foldl (updateScanState image) scan

end Yafsml.Dearxan
