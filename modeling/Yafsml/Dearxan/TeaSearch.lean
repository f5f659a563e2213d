import Yafsml.Dearxan.Scan

/-!
# The search for the TEA regions

What the keys have tried before they need not try again, as long as no address they have tried is replaced
by one that holds a region table.
-/

namespace Yafsml.Dearxan

open ResumedSearch LittleEndian

variable {image : Option DearxanImage} {scan : ScanState} {scanned : Scanned}

/-- Every key whose routine is confirmed, in order, on every LEA value, in order. -/
def fullTeaSearch (image : Option DearxanImage) (leas : List LeaValue) (tea : TeaState) :
    Option (TeaKeyCandidate × List EncryptedRegion × Nat) :=
  (teaSearch image).fullSearch tea.confirmed leas tea.keys

/-- The regions that were found; the list takes them over when the ciphertext is found too. -/
def TeaState.heldRegions (tea : TeaState) : List EncryptedRegion :=
  (tea.list.map EncryptedRegionList.regions).getD tea.regions

structure TeaRegionsCall.IsFull (image : Option DearxanImage) (call : TeaRegionsCall) : Prop where
  leaves : call.after.phase ≠ .searchRegions ↔
    (fullTeaSearch image call.leas (call.before.confirm call.decryptVa)).isSome
  holds : ∀ key regions streamSize,
    fullTeaSearch image call.leas (call.before.confirm call.decryptVa) = some (key, regions, streamSize) →
      call.after.regionDecryptVa = key.decryptVa ∧ call.after.regionKeyVa = key.keyVa ∧
        call.after.heldRegions = regions ∧ call.after.streamSize = streamSize

/-- Where the instruction replaces the address of a LEA value, the keys that have tried the value find no
region table at the new address. -/
def KeepsTried (image : Option DearxanImage) (scan : ScanState) (scanned : Scanned) : Prop :=
  scan.tea.phase = .searchRegions → ∀ lea, scanned.fed.leaValue = some lea →
    ∀ key ∈ scan.tea.keys, ∀ (j : Nat) (known : LeaValue), j < key.nextLea → scan.leas[j]? = some known →
      known.value = lea.value → parseTeaRegionsAt image key.key lea.va = none

structure TeaState.Tried (image : Option DearxanImage) (leas : List LeaValue) (tea : TeaState) : Prop where
  keys : tea.phase = .searchRegions → ∀ key ∈ tea.keys, (teaSearch image).Tried leas key
  unbuilt : tea.phase = .searchRegions → tea.list = none

theorem searchTeaCiphertext_leaves {tea : TeaState} (phase : tea.phase = .searchCiphertext) :
    (searchTeaCiphertext tea).phase ≠ .searchRegions := by
  rw [searchTeaCiphertext, if_neg (not_not.mpr phase)]
  dsimp only
  split
  · exact nofun
  · rw [phase]
    exact nofun

theorem searchTeaCiphertext_waits {tea : TeaState} (phase : tea.phase ≠ .searchCiphertext) :
    searchTeaCiphertext tea = tea := by
  rw [searchTeaCiphertext, if_pos phase]

theorem buildRegionList_regions {kind : DecryptionKind} {regions : List EncryptedRegion} {streamSize : Nat}
    {ciphertext : Option (List Byte)} {keyBytes : List Byte} {key32 : BitVec 32} {list : EncryptedRegionList}
    (built : buildRegionList kind regions streamSize ciphertext keyBytes key32 = some list) :
    list.regions = regions := by
  obtain ⟨plaintext, -, rfl⟩ := Option.map_eq_some_iff.mp built
  rfl

theorem searchTeaCiphertext_holds {tea : TeaState} (unbuilt : tea.list = none) :
    (searchTeaCiphertext tea).regionDecryptVa = tea.regionDecryptVa ∧
      (searchTeaCiphertext tea).regionKeyVa = tea.regionKeyVa ∧
      (searchTeaCiphertext tea).heldRegions = tea.regions ∧
      (searchTeaCiphertext tea).streamSize = tea.streamSize := by
  have held : tea.heldRegions = tea.regions := by rw [TeaState.heldRegions, unbuilt, Option.map_none, Option.getD_none]
  rw [searchTeaCiphertext]
  split
  · exact ⟨rfl, rfl, held, rfl⟩
  · dsimp only
    split
    · rename_i built
      obtain ⟨candidate, -, built⟩ := Option.bind_eq_some_iff.mp built
      exact ⟨rfl, rfl, buildRegionList_regions built, rfl⟩
    · exact ⟨rfl, rfl, held, rfl⟩

theorem TeaState.confirm_phase (tea : TeaState) (decryptVa : Option Word) :
    (tea.confirm decryptVa).phase = tea.phase := by
  cases decryptVa <;> rfl

theorem TeaState.confirm_keys (tea : TeaState) (decryptVa : Option Word) :
    (tea.confirm decryptVa).keys = tea.keys := by
  cases decryptVa <;> rfl

theorem TeaState.confirm_list (tea : TeaState) (decryptVa : Option Word) :
    (tea.confirm decryptVa).list = tea.list := by
  cases decryptVa <;> rfl

section Search

variable {leas : List LeaValue} {tea : TeaState} (decryptVa : Option Word)

theorem searchTeaRegions_of_phase (phase : tea.phase ≠ .searchRegions) :
    searchTeaRegions image leas decryptVa tea = tea := by
  rw [searchTeaRegions, if_pos phase]

theorem searchTeaRegions_isFull (tried : tea.Tried image leas) (phase : tea.phase = .searchRegions) :
    TeaRegionsCall.IsFull image ⟨leas, decryptVa, tea, searchTeaRegions image leas decryptVa tea⟩ := by
  have same : ((teaSearch image).search (tea.confirm decryptVa).confirmed leas (tea.confirm decryptVa).keys).2 =
      fullTeaSearch image leas (tea.confirm decryptVa) := by
    apply Resumable.search_eq_fullSearch
    rw [tea.confirm_keys]
    exact tried.keys phase
  rw [searchTeaRegions, if_neg (not_not.mpr phase)]
  dsimp only
  rw [same]
  cases found : fullTeaSearch image leas (tea.confirm decryptVa) with
  | none =>
      refine ⟨?_, fun _ _ _ other => ?_⟩
      · simp only [found, TeaState.confirm_phase, phase]
        simp
      · simp only [found] at other
        cases other
  | some hit =>
      obtain ⟨key, regions, streamSize⟩ := hit
      refine ⟨?_, fun _ _ _ other => ?_⟩
      · simp only [found, Option.isSome_some, iff_true]
        exact searchTeaCiphertext_leaves rfl
      · simp only [found] at other
        cases other
        exact searchTeaCiphertext_holds ((tea.confirm_list decryptVa).trans (tried.unbuilt phase))

theorem searchTeaRegions_tried (tried : tea.Tried image leas) :
    (searchTeaRegions image leas decryptVa tea).Tried image leas := by
  by_cases phase : tea.phase = .searchRegions
  · rw [searchTeaRegions, if_neg (not_not.mpr phase)]
    dsimp only
    split
    · exact ⟨fun back => absurd back (searchTeaCiphertext_leaves rfl),
        fun back => absurd back (searchTeaCiphertext_leaves rfl)⟩
    · refine ⟨fun _ => Resumable.search_tried ?_, fun _ => (tea.confirm_list decryptVa).trans (tried.unbuilt phase)⟩
      rw [tea.confirm_keys]
      exact tried.keys phase
  · rw [searchTeaRegions_of_phase decryptVa phase]
    exact tried

theorem searchTeaCiphertext_tried (tried : tea.Tried image leas) :
    (searchTeaCiphertext tea).Tried image leas := by
  by_cases phase : tea.phase = .searchCiphertext
  · exact ⟨fun back => absurd back (searchTeaCiphertext_leaves phase),
      fun back => absurd back (searchTeaCiphertext_leaves phase)⟩
  · rw [searchTeaCiphertext_waits phase]
    exact tried

end Search

structure ScanState.Tried (image : Option DearxanImage) (scan : ScanState) : Prop where
  tea : scan.tea.Tried image scan.leas
  full : ∀ call ∈ scan.searches, call.IsFull image

theorem ScanState.fresh_tried : ScanState.fresh.Tried image where
  tea := ⟨fun _ => nofun, fun _ => rfl⟩
  full := nofun

theorem ScanState.Tried.search (tried : scan.Tried image) (decryptVa : Option Word) :
    (scan.searchTeaRegions image decryptVa).Tried image where
  tea := searchTeaRegions_tried decryptVa tried.tea
  full := by
    change ∀ call ∈ (if scan.tea.phase = .searchRegions then _ else scan.searches), call.IsFull image
    split
    · rename_i phase
      intro call member
      rcases List.mem_append.mp member with earlier | here
      · exact tried.full call earlier
      · rw [List.mem_singleton.mp here]
        exact searchTeaRegions_isFull decryptVa tried.tea phase
    · exact tried.full

theorem ScanState.Tried.appendKey (tried : scan.Tried image) {key : TeaKeyCandidate} (fresh : key.nextLea = 0) :
    (scan.appendKey key).Tried image where
  tea := by
    refine ⟨fun phase other member => ?_, tried.tea.unbuilt⟩
    rcases List.mem_append.mp member with earlier | here
    · exact tried.tea.keys phase other earlier
    · rw [List.mem_singleton.mp here]
      exact Resumable.tried_fresh fresh
  full := tried.full

theorem ScanState.Tried.appendCandidate (tried : scan.Tried image) (candidate : TeaCandidate) :
    (scan.appendCandidate candidate).Tried image :=
  ⟨⟨tried.tea.keys, tried.tea.unbuilt⟩, tried.full⟩

theorem ScanState.Tried.teaCall (tried : scan.Tried image) (vm : Vm) (decryptVa : Word) :
    (onTeaCall image vm decryptVa scan).Tried image := by
  rw [onTeaCall]
  split
  · exact tried
  · rename_i keyVa key read
    have first : (if scan.tea.phase = .searchRegions then
        (scan.appendKey ⟨decryptVa, 0, keyVa, key⟩).searchTeaRegions image none else scan).Tried image := by
      split
      · exact (tried.appendKey rfl).search none
      · exact tried
    dsimp only
    split
    · exact first
    · split
      · exact first
      · rename_i ciphertext read'
        have second := (first.appendCandidate ⟨decryptVa, keyVa, key, ciphertext⟩).search (some decryptVa)
        exact ⟨searchTeaCiphertext_tried second.tea, second.full⟩

theorem updateLeas_tried (tried : scan.Tried image) (kept : KeepsTried image scan scanned) :
    scan.tea.Tried image ((scanned.fed.leaValue.map (updateLeas scan.leas)).getD scan.leas) := by
  refine ⟨fun phase key member => ?_, tried.tea.unbuilt⟩
  have before := tried.tea.keys phase key member
  cases loaded : scanned.fed.leaValue with
  | none => exact before
  | some lea =>
      rw [Option.map_some, Option.getD_some, updateLeas]
      split
      · rename_i existing found
        obtain ⟨inside, known, -⟩ := List.findIdx?_eq_some_iff_getElem.mp found
        apply before.set
        intro passed
        exact kept phase lea loaded key member existing _ passed (List.getElem?_eq_getElem inside)
          (of_decide_eq_true known)
      · exact before.append [lea]

theorem ScanState.Tried.update (tried : scan.Tried image) (kept : KeepsTried image scan scanned) :
    (updateScanState image scan scanned).Tried image := by
  have looked : (scan.look image scanned).Tried image := ⟨updateLeas_tried tried kept, tried.full⟩
  rw [updateScanState]
  split
  · exact looked
  · rw [ScanState.call]
    split
    · exact ⟨looked.tea, looked.full⟩
    · exact looked.teaCall _ _
    · exact looked

/-- Every search of every run finds what the full search finds, where the run replaces no address that
was tried by one with a region table. -/
theorem teaSearches_full (image : Option DearxanImage) (inputs : List Scanned)
    (kept : ∀ before scanned after, inputs = before ++ scanned :: after →
      KeepsTried image (runScan image .fresh before) scanned) :
    ∀ call ∈ (runScan image .fresh inputs).searches, call.IsFull image := by
  suffices tried : (runScan image .fresh inputs).Tried image from tried.full
  induction inputs using List.reverseRecOn with
  | nil => exact ScanState.fresh_tried
  | append_singleton inputs last ih =>
      rw [runScan, List.foldl_append]
      refine (ih fun before scanned after split => ?_).update (kept inputs last [] rfl)
      exact kept before scanned (after ++ [last]) (by rw [split, List.append_assoc, List.cons_append])

section Replaced

/-- Two keys, and two ciphertexts of 16 bytes that start alike. Only the second is a region table, under the
first key. -/
private def teaImage : DearxanImage where
  bytes := List.replicate 16 0 ++ [1] ++ List.replicate 15 0 ++
    [145, 160, 144, 25, 214, 13, 96, 57, 10, 58, 234, 65, 64, 169, 186, 148] ++
    [145, 160, 144, 25, 214, 13, 96, 57, 147, 212, 188, 54, 78, 150, 189, 81]
  baseVa := 0x140000000

/-- RDX is the address of a key, and RCX that of the start of the ciphertexts on the stack. -/
private def teaVm (keyOffset : Word) : Vm :=
  let vm := dearxanVmInit (some teaImage) teaImage.baseVa 0x10000
  let vm := dearxanVmWriteRegister vm (.gpr64 2) (some (teaImage.baseVa + keyOffset))
  let vm := dearxanVmWriteRegister vm (.gpr64 1) (some 0xff00)
  (dearxanVmWriteMemory (fun _ => true) vm 0xff00 (fun k => teaImage.bytes.getD (32 + k) 0) 8).getD vm

private def loadAt (offset : Word) : Scanned where
  fed := {
    vm := teaVm 0
    instruction := ⟨.lea, 7, 2, 2, 64, .other 0⟩
    operands := fun i =>
      if i = 0 then ⟨64, true, .register (.gpr64 0)⟩
      else ⟨64, false, .memory ⟨.rip, .none, 0, true, offset - 7⟩⟩ }
  rawImmSize := 0
  call := none

private def callWith (keyOffset : Word) : Scanned where
  fed := ⟨teaVm keyOffset, ⟨.call, 5, 1, 4, 64, .other 21⟩, fun _ => ⟨0, false, .unused⟩⟩
  rawImmSize := 0
  call := some ⟨0xfff8, 0x10000, some 0x140001000, none⟩

/-- The address of the second ciphertext replaces that of the first, which the first key has tried. -/
theorem teaSearches_overlook :
    ¬ ∀ call ∈ (runScan (some teaImage) .fresh [loadAt 32, callWith 0, loadAt 48, callWith 16]).searches,
      call.IsFull (some teaImage) := by
  intro full
  have overlooked : (runScan (some teaImage) .fresh
      [loadAt 32, callWith 0, loadAt 48, callWith 16]).searches.any (fun call =>
        call.after.phase = .searchRegions &&
          (fullTeaSearch (some teaImage) call.leas (call.before.confirm call.decryptVa)).isSome) = true := by
    decide +kernel
  obtain ⟨call, member, overlooked⟩ := List.any_eq_true.mp overlooked
  simp only [Bool.and_eq_true, decide_eq_true_eq] at overlooked
  exact (full call member).leaves.mpr overlooked.2 overlooked.1

/-- The second key has tried the address that is replaced, and finds no region table at the new one either. -/
theorem teaSearches_full_replaced :
    (runScan (some teaImage) .fresh [loadAt 32, callWith 16, loadAt 48, callWith 0]).leas.map (·.va) = [0x140000030] ∧
      (runScan (some teaImage) .fresh [loadAt 32, callWith 16, loadAt 48, callWith 0]).tea.phase = .found ∧
      ∀ call ∈ (runScan (some teaImage) .fresh [loadAt 32, callWith 16, loadAt 48, callWith 0]).searches,
        call.IsFull (some teaImage) := by
  refine ⟨by decide +kernel, by decide +kernel, teaSearches_full (some teaImage) _ ?_⟩
  have no_table : ∀ key ∈ (runScan (some teaImage) .fresh [loadAt 32, callWith 16]).tea.keys,
      ∀ lea ∈ (loadAt 48).fed.leaValue, parseTeaRegionsAt (some teaImage) key.key lea.va = none := by decide +kernel
  intro before scanned after split
  rcases before with - | ⟨first, - | ⟨second, - | ⟨third, - | ⟨fourth, rest⟩⟩⟩⟩
  · exact fun _ _ _ key member => absurd member List.not_mem_nil
  · cases split
    exact fun _ lea loaded => absurd loaded nofun
  · cases split
    exact fun _ lea loaded key member _ _ _ _ _ => no_table key member lea loaded
  · cases split
    exact fun _ lea loaded => absurd loaded nofun
  · exact absurd (congrArg List.length split) (by simp)

end Replaced

end Yafsml.Dearxan
