import Yafsml.Dearxan.SteamstubPatch

/-!
# A patch that is torn

The header and the strings are written one after the other, and a header whose strings are refused is
not taken back.
-/

namespace Yafsml.Dearxan

open LittleEndian

/-! ## The two writes -/

/-- The header that the patch leaves, behind its hash over the given code. -/
def newHeader (image : SteamstubImage) (context : SteamstubContext) (replacement : Word) (code : List Byte) :
    SteamstubHeader :=
  patchedHeader image context.header replacement
    (patchedHash context.decryptedStrings (disableChecks image context.header replacement) code
      context.decryptedDrmp)

theorem dearxanSteamstubPatch_image (grants : PatchGrants) (image : SteamstubImage)
    {context : SteamstubContext} (replacement : Word)
    (whole : context.decryptedStrings.length = context.stringsSize) :
    let patched := dearxanSteamstubPatch grants image context replacement
    (patched.1, patched.2.1) =
      match readRva image.toDearxanImage image.entry (codeSize context) with
      | none => (false, image)
      | some code =>
          let header := newHeader image context replacement code
          if (context.stringsSize ≠ 0 ∧ grants.stringsBuffer = false) ∨ grants.headerWrite = false then
            (false, image)
          else if context.stringsSize ≠ 0 ∧ grants.stringsWrite = false then
            (false, image.overwrite context.encryptedHeader (steamstubEncryptHeader header).1.bytes)
          else (true, patchedImage image context header) := by
  unfold dearxanSteamstubPatch
  simp only [codeSize_disableChecks]
  rw [if_neg (by exact align16_ne_sizeMax _)]
  rcases readRva image.toDearxanImage image.entry (codeSize context) with _ | code
  · rfl
  · by_cases empty : context.stringsSize = 0
    · cases write : grants.headerWrite with
      | false => simp [empty]
      | true => simp [empty, patchedImage, overwrite_noStrings whole empty, patchedHeader, newHeader]
    · rcases buffer : grants.stringsBuffer with _ | _ <;> rcases write : grants.headerWrite with _ | _ <;>
        rcases write' : grants.stringsWrite with _ | _ <;>
        simp [empty, patchedImage, patchedHeader, newHeader]

theorem dearxanSteamstubPatch_header {grants : PatchGrants} {image : SteamstubImage}
    {context : SteamstubContext} {replacement : Word} {code : List Byte}
    (found : readRva image.toDearxanImage image.entry (codeSize context) = some code) :
    (dearxanSteamstubPatch grants image context replacement).2.2 =
      { context with header := newHeader image context replacement code } := by
  unfold dearxanSteamstubPatch
  simp only [codeSize_disableChecks]
  rw [if_neg (by exact align16_ne_sizeMax _), found]
  dsimp only
  split_ifs <;> rfl

/-! ## The header that is there -/

structure AlreadyPatched (image : SteamstubImage) (context : SteamstubContext) (replacement : Word)
    (code : List Byte) : Prop where
  flags : context.header.drmFlags ||| noChecks = context.header.drmFlags
  entry : context.header.originalEntryPoint = replacement - image.baseVa
  hash : context.header.integrityHash = patchedHash context.decryptedStrings
    (context.header.setIntegrityHash 0) code context.decryptedDrmp

theorem newHeader_eq_iff {image : SteamstubImage} {context : SteamstubContext} {replacement : Word}
    {code : List Byte} :
    newHeader image context replacement code = context.header ↔
      AlreadyPatched image context replacement code := by
  constructor
  · intro same
    have undone := setIntegrityHash_patchedHeader image context.header replacement
      (patchedHash context.decryptedStrings (disableChecks image context.header replacement) code
        context.decryptedDrmp)
    rw [← newHeader, same] at undone
    constructor
    · rw [← drmFlags_patchedHeader image context.header replacement _, ← newHeader, same]
    · rw [← originalEntryPoint_patchedHeader image context.header replacement _, ← newHeader, same]
    · rw [undone, ← integrityHash_patchedHeader image context.header replacement
        (patchedHash _ _ _ _), ← newHeader, same]
  · intro already
    have unchecked : disableChecks image context.header replacement = context.header.setIntegrityHash 0 := by
      apply SteamstubHeader.ext_bytes
      show setField32 (setField64 (setField32 context.header.bytes 60 _) 32 _) 68 0 = _
      rw [already.flags, ← already.entry]
      have flags : setField32 context.header.bytes 60 context.header.drmFlags = context.header.bytes :=
        setField32_field32 (SteamstubHeader.fits _ SteamstubHeader.inside_drmFlags)
      have entry : setField64 context.header.bytes 32 context.header.originalEntryPoint = context.header.bytes :=
        setField64_field64 (SteamstubHeader.fits _ SteamstubHeader.inside_originalEntryPoint)
      rw [flags, entry]
      rfl
    apply SteamstubHeader.ext_bytes
    have fits := SteamstubHeader.fits context.header SteamstubHeader.inside_integrityHash
    rw [newHeader, patchedHeader, unchecked, ← already.hash]
    calc setField32 (setField32 context.header.bytes 68 0) 68 context.header.integrityHash
      _ = setField32 context.header.bytes 68 context.header.integrityHash := setField32_setField32 fits _ _
      _ = context.header.bytes := setField32_field32 fits

theorem steamstubEncryptHeader_injective {h h' : SteamstubHeader}
    (same : (steamstubEncryptHeader h).1 = (steamstubEncryptHeader h').1) : h = h' := by
  have undone := decryptHeader_encryptHeader h
  rw [same, decryptHeader_encryptHeader] at undone
  exact (congrArg Prod.fst undone).symm

theorem read_header_of_present {malloc : Nat → Bool} {image : SteamstubImage} {context : SteamstubContext}
    (probed : dearxanSteamstubProbe malloc image = .present context) :
    (headerRange context).read image.bytes = (steamstubEncryptHeader context.header).1.bytes := by
  obtain ⟨-, encrypted, found, -, contents⟩ := dearxanSteamstubProbe_eq_present.mp probed
  obtain ⟨-, -, -, strings, drmp, -, -, -, rfl⟩ := probeContents_eq_present.mp contents
  rw [encryptHeader_decryptHeader]
  exact (readRva_eq_some_iff.mp found).2

theorem overwrite_read {bytes : List Byte} {r : Range} (fits : r.start + r.size ≤ bytes.length) :
    LittleEndian.overwrite bytes r.start (r.read bytes) = bytes := by
  have length := Range.length_read fits
  apply List.ext_getElem?
  intro k
  rw [getElem?_overwrite (by rw [length]; exact fits), Range.getElem?_read, length]
  split_ifs with inside below
  · congr 1
    omega
  · omega
  · rfl

theorem overwrite_header_eq_iff {malloc : Nat → Bool} {image : SteamstubImage} {context : SteamstubContext}
    (probed : dearxanSteamstubProbe malloc image = .present context) (header : SteamstubHeader) :
    image.overwrite context.encryptedHeader (steamstubEncryptHeader header).1.bytes = image ↔
      header = context.header := by
  have there := read_header_of_present probed
  have fits := (placed_of_present probed).header_fits
  constructor
  · intro same
    apply steamstubEncryptHeader_injective
    apply SteamstubHeader.ext_bytes
    have written : (headerRange context).read
        (LittleEndian.overwrite image.bytes context.encryptedHeader (steamstubEncryptHeader header).1.bytes) =
          (steamstubEncryptHeader header).1.bytes := by
      have range : headerRange context = ⟨context.encryptedHeader, (steamstubEncryptHeader header).1.bytes.length⟩ := by
        rw [SteamstubHeader.size]
        rfl
      rw [range]
      apply read_overwrite
      rw [SteamstubHeader.size]
      exact fits
    rw [← written, ← there]
    exact congrArg (fun image : SteamstubImage => (headerRange context).read image.bytes) same
  · rintro rfl
    have kept : LittleEndian.overwrite image.bytes context.encryptedHeader
        (steamstubEncryptHeader context.header).1.bytes = image.bytes := by
      rw [← there]
      exact overwrite_read (r := headerRange context) fits
    unfold SteamstubImage.overwrite
    rw [kept]

/-! ## The header under the strings -/

/-- On the bytes that the header shares with the strings, if any, both are to be the same. -/
def SharedBytesAgree (context : SteamstubContext) (header : SteamstubHeader) : Prop :=
  ∀ k, (headerRange context).Mem k → (stringsRange context).Mem k →
    (steamstubEncryptHeader header).1.bytes[k - context.encryptedHeader]? =
      (steamstubEncryptStrings context.decryptedStrings
        (steamstubEncryptHeader header).2).1[k - context.encryptedStrings]?

theorem sharedBytesAgree_of_apart {context : SteamstubContext}
    (apart : (headerRange context).Apart (stringsRange context)) (header : SteamstubHeader) :
    SharedBytesAgree context header := fun k inside inside' => absurd inside' (apart k inside)

theorem read_header_patchedImage_iff {image : SteamstubImage} {context : SteamstubContext}
    (placed : Placed image context) (header : SteamstubHeader) :
    (headerRange context).read (patchedImage image context header).bytes =
        (steamstubEncryptHeader header).1.bytes ↔ SharedBytesAgree context header := by
  have size := (steamstubEncryptHeader header).1.size
  have strings_size := length_encryptStrings placed (steamstubEncryptHeader header).2
  have fits : context.encryptedHeader + (steamstubEncryptHeader header).1.bytes.length ≤ image.bytes.length := by
    rw [size]
    exact placed.header_fits
  have at_byte (k : Nat) : (patchedImage image context header).bytes[context.encryptedHeader + k]? =
      if (stringsRange context).Mem (context.encryptedHeader + k) then
        (steamstubEncryptStrings context.decryptedStrings (steamstubEncryptHeader header).2).1[
          context.encryptedHeader + k - context.encryptedStrings]?
      else (LittleEndian.overwrite image.bytes context.encryptedHeader
        (steamstubEncryptHeader header).1.bytes)[context.encryptedHeader + k]? := by
    have := getElem?_overwrite (strings_fit_overwritten header placed (steamstubEncryptHeader header).2)
      (context.encryptedHeader + k)
    rw [strings_size] at this
    exact this
  have of_header (k : Nat) (below : k < headerSize) : (LittleEndian.overwrite image.bytes
      context.encryptedHeader (steamstubEncryptHeader header).1.bytes)[context.encryptedHeader + k]? =
        (steamstubEncryptHeader header).1.bytes[k]? := by
    rw [getElem?_overwrite fits, if_pos (by omega), Nat.add_sub_cancel_left]
  constructor
  · rintro same k ⟨low, high⟩ shared
    obtain ⟨j, rfl⟩ := Nat.exists_eq_add_of_le low
    have below : j < headerSize := Nat.lt_of_add_lt_add_left high
    have at_j : (patchedImage image context header).bytes[context.encryptedHeader + j]? =
        (steamstubEncryptHeader header).1.bytes[j]? := by
      rw [← same, Range.getElem?_read]
      exact (if_pos below).symm
    show (steamstubEncryptHeader header).1.bytes[context.encryptedHeader + j - context.encryptedHeader]? = _
    rw [Nat.add_sub_cancel_left, ← at_j, at_byte]
    exact if_pos shared
  · intro agree
    apply List.ext_getElem?
    intro k
    rw [Range.getElem?_read]
    split_ifs with below
    · refine (at_byte k).trans ?_
      split_ifs with shared
      · have := agree (context.encryptedHeader + k) ⟨by simp [headerRange], Nat.add_lt_add_left below _⟩ shared
        rw [Nat.add_sub_cancel_left] at this
        exact this.symm
      · exact of_header k below
    · apply Eq.symm
      apply List.getElem?_eq_none
      rw [size]
      exact Nat.not_lt.mp below

/-! ## All or nothing -/

section Patch

variable (grants : PatchGrants) (image : SteamstubImage) (context : SteamstubContext) (replacement : Word)

/-- A patch that fails leaves the image alone, one that succeeds has both parts in place. -/
def AllOrNothing : Prop :=
  ∀ done image' context', dearxanSteamstubPatch grants image context replacement = (done, image', context') →
    (done = false → image' = image) ∧
    (done = true →
      context'.header.drmFlags = context.header.drmFlags ||| noChecks ∧
      context'.header.originalEntryPoint = replacement - image.baseVa ∧
      (headerRange context).read image'.bytes = (steamstubEncryptHeader context'.header).1.bytes ∧
      (stringsRange context).read image'.bytes = (steamstubEncryptStrings context.decryptedStrings
        (steamstubEncryptHeader context'.header).2).1)

/-- The strings are refused behind a header that was written and was not there before. -/
structure Torn : Prop where
  buffer : grants.stringsBuffer = true
  header : grants.headerWrite = true
  refused : grants.stringsWrite = false
  nonempty : context.stringsSize ≠ 0
  changed : ∃ code, readRva image.toDearxanImage image.entry (codeSize context) = some code ∧
    ¬ AlreadyPatched image context replacement code

structure Granted (code : List Byte) : Prop where
  code : readRva image.toDearxanImage image.entry (codeSize context) = some code
  header : grants.headerWrite = true
  strings : context.stringsSize = 0 ∨ (grants.stringsBuffer = true ∧ grants.stringsWrite = true)

end Patch

section Cases

variable {grants : PatchGrants} {image : SteamstubImage} {context : SteamstubContext} {replacement : Word}

theorem allOrNothing_of_unchanged
    (failed : (dearxanSteamstubPatch grants image context replacement).1 = false)
    (same : (dearxanSteamstubPatch grants image context replacement).2.1 = image) :
    AllOrNothing grants image context replacement := by
  intro done image' context' run
  rw [run] at failed same
  exact ⟨fun _ => same, fun succeeded => absurd (failed.symm.trans succeeded) Bool.false_ne_true⟩

theorem allOrNothing_of_failed {image' : SteamstubImage}
    (failed : (dearxanSteamstubPatch grants image context replacement).1 = false)
    (left : (dearxanSteamstubPatch grants image context replacement).2.1 = image') :
    AllOrNothing grants image context replacement ↔ image' = image := by
  constructor
  · intro whole
    rw [← left]
    exact (whole _ _ _ rfl).1 failed
  · rintro rfl
    exact allOrNothing_of_unchanged failed left

theorem allOrNothing_of_succeeded (placed : Placed image context) {code : List Byte}
    (found : readRva image.toDearxanImage image.entry (codeSize context) = some code)
    (succeeded : (dearxanSteamstubPatch grants image context replacement).1 = true)
    (left : (dearxanSteamstubPatch grants image context replacement).2.1 =
      patchedImage image context (newHeader image context replacement code)) :
    AllOrNothing grants image context replacement ↔
      SharedBytesAgree context (newHeader image context replacement code) := by
  have run : dearxanSteamstubPatch grants image context replacement =
      (true, patchedImage image context (newHeader image context replacement code),
        { context with header := newHeader image context replacement code }) :=
    Prod.ext succeeded (Prod.ext left (dearxanSteamstubPatch_header found))
  rw [← read_header_patchedImage_iff placed]
  constructor
  · intro whole
    obtain ⟨-, -, in_place, -⟩ := (whole _ _ _ run).2 rfl
    exact in_place
  · intro in_place done image' context' run'
    rw [run] at run'
    cases run'
    exact ⟨fun failed => absurd failed.symm Bool.false_ne_true, fun _ => ⟨drmFlags_patchedHeader ..,
      originalEntryPoint_patchedHeader .., in_place, read_strings_patchedImage _ placed⟩⟩

end Cases

theorem allOrNothing_iff {malloc : Nat → Bool} {image : SteamstubImage} {context : SteamstubContext}
    (probed : dearxanSteamstubProbe malloc image = .present context) (grants : PatchGrants)
    (replacement : Word) :
    AllOrNothing grants image context replacement ↔
      ¬ Torn grants image context replacement ∧ ∀ code, Granted grants image context code →
        SharedBytesAgree context (newHeader image context replacement code) := by
  have placed := placed_of_present probed
  have outcome := dearxanSteamstubPatch_image grants image replacement placed.whole
  simp only at outcome
  cases found : readRva image.toDearxanImage image.entry (codeSize context) with
  | none =>
      rw [found] at outcome
      obtain ⟨failed, same⟩ := Prod.mk.inj outcome
      have whole := allOrNothing_of_unchanged failed same
      refine iff_of_true whole ⟨fun torn => ?_, fun code granted => ?_⟩
      · obtain ⟨code, found', -⟩ := torn.changed
        rw [found] at found'
        cases found'
      · have := granted.code
        rw [found] at this
        cases this
  | some code =>
      rw [found] at outcome
      dsimp only at outcome
      by_cases stopped : (context.stringsSize ≠ 0 ∧ grants.stringsBuffer = false) ∨ grants.headerWrite = false
      · rw [if_pos stopped] at outcome
        obtain ⟨failed, same⟩ := Prod.mk.inj outcome
        refine iff_of_true (allOrNothing_of_unchanged failed same) ⟨fun torn => ?_, fun code' granted => ?_⟩
        · simp [torn.buffer, torn.header] at stopped
        · rcases granted.strings with empty | ⟨buffer, -⟩
          · simp [granted.header, empty] at stopped
          · simp [granted.header, buffer] at stopped
      · rw [if_neg stopped] at outcome
        by_cases refused : context.stringsSize ≠ 0 ∧ grants.stringsWrite = false
        · rw [if_pos refused] at outcome
          obtain ⟨failed, left⟩ := Prod.mk.inj outcome
          rw [allOrNothing_of_failed failed left, overwrite_header_eq_iff probed, newHeader_eq_iff]
          have granted : grants.stringsBuffer = true ∧ grants.headerWrite = true := by
            simpa [refused.1] using stopped
          constructor
          · intro already
            refine ⟨fun torn => ?_, fun code' granted' => ?_⟩
            · obtain ⟨code', found', changed⟩ := torn.changed
              rw [found] at found'
              cases found'
              exact changed already
            · rcases granted'.strings with empty | ⟨-, write⟩
              · exact absurd empty refused.1
              · rw [refused.2] at write
                cases write
          · rintro ⟨not_torn, -⟩
            by_contra changed
            exact not_torn ⟨granted.1, granted.2, refused.2, refused.1, code, found, changed⟩
        · rw [if_neg refused] at outcome
          obtain ⟨succeeded, left⟩ := Prod.mk.inj outcome
          rw [allOrNothing_of_succeeded placed found succeeded left]
          constructor
          · intro agree
            refine ⟨fun torn => refused ⟨torn.nonempty, torn.refused⟩, fun code' granted => ?_⟩
            have := granted.code
            rw [found] at this
            cases this
            exact agree
          · rintro ⟨-, agree⟩
            apply agree code
            refine ⟨found, ?_, ?_⟩
            · simp only [not_or] at stopped
              simpa using stopped.2
            · by_cases empty : context.stringsSize = 0
              · exact .inl empty
              · simp only [empty, ne_eq, not_false_eq_true, true_and, not_or] at stopped refused
                exact .inr ⟨by simpa using stopped.1, by simpa using refused⟩

/-- Where the strings do not reach into the header, only the torn patch is at fault. -/
theorem steamstub_patch_allOrNothing {malloc : Nat → Bool} {image : SteamstubImage} {context : SteamstubContext}
    (probed : dearxanSteamstubProbe malloc image = .present context) (grants : PatchGrants)
    (replacement : Word) :
    (AllOrNothing grants image context replacement ↔
      ¬ Torn grants image context replacement ∧ ∀ code, Granted grants image context code →
        SharedBytesAgree context (newHeader image context replacement code)) ∧
    ((headerRange context).Apart (stringsRange context) →
      (AllOrNothing grants image context replacement ↔ ¬ Torn grants image context replacement)) := by
  have exactly := allOrNothing_iff probed grants replacement
  refine ⟨exactly, fun apart => exactly.trans ⟨fun whole => whole.1, fun not_torn => ⟨not_torn, ?_⟩⟩⟩
  exact fun code _ => sharedBytesAgree_of_apart apart _

private theorem probed_smallImage :
    dearxanSteamstubProbe (fun _ => true) smallImage = .present smallContext := by decide +kernel

theorem steamstub_patch_allOrNothing_small : AllOrNothing ⟨true, true, true⟩ smallImage smallContext 0x10700#64 := by
  have apart : (headerRange smallContext).Apart (stringsRange smallContext) := Range.apart_of_or (by decide)
  apply ((steamstub_patch_allOrNothing probed_smallImage ⟨true, true, true⟩ 0x10700#64).2 apart).mpr
  intro torn
  exact absurd torn.refused (by decide)

/-- The header is the new one, its strings are the old ones. -/
theorem steamstub_patch_torn :
    dearxanSteamstubProbe (fun _ => true) smallImage = .present smallContext ∧
      ¬ AllOrNothing ⟨true, true, false⟩ smallImage smallContext 0x10700#64 := by
  refine ⟨probed_smallImage, fun whole => ?_⟩
  have failed : (dearxanSteamstubPatch ⟨true, true, false⟩ smallImage smallContext 0x10700#64).1 = false := by
    decide +kernel
  have changed : (dearxanSteamstubPatch ⟨true, true, false⟩ smallImage smallContext 0x10700#64).2.1.bytes ≠
      smallImage.bytes := by
    decide +kernel
  rcases run : dearxanSteamstubPatch ⟨true, true, false⟩ smallImage smallContext 0x10700#64
    with ⟨done, image', context'⟩
  rw [run] at failed changed
  exact changed (congrArg (fun image : SteamstubImage => image.bytes) ((whole _ _ _ run).1 failed))

end Yafsml.Dearxan
