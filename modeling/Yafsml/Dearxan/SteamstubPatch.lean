import Yafsml.Dearxan.Steamstub

/-! # A patched SteamStub is probed again -/

namespace Yafsml.Dearxan

open LittleEndian

/-! ## Reading the image -/

theorem readRva_eq_some_iff {image : DearxanImage} {rva : Word} {size : Nat} {bytes : List Byte} :
    readRva image rva size = some bytes ↔
      (¬ image.baseVa + rva < image.baseVa ∧ rva.toNat + size ≤ image.bytes.length) ∧
        Range.read ⟨rva.toNat, size⟩ image.bytes = bytes := by
  have offset : image.baseVa + rva - image.baseVa = rva := by
    rw [BitVec.add_comm, BitVec.add_sub_cancel]
  simp only [readRva, dearxanImageRead, offset]
  split_ifs with below short shorter
  · simp [below]
  · simp only [Option.map_none, reduceCtorEq, false_iff, not_and]
    omega
  · simp only [Option.map_none, reduceCtorEq, false_iff, not_and]
    omega
  · have fits : rva.toNat + size ≤ image.bytes.length := by omega
    simp [below, fits, Range.read]

theorem readRva_of_length {image image' : DearxanImage} {rva : Word} {size : Nat} {bytes : List Byte}
    (base : image'.baseVa = image.baseVa) (length : image'.bytes.length = image.bytes.length)
    (found : readRva image rva size = some bytes) :
    readRva image' rva size = some (Range.read ⟨rva.toNat, size⟩ image'.bytes) := by
  obtain ⟨⟨above, fits⟩, -⟩ := readRva_eq_some_iff.mp found
  apply readRva_eq_some_iff.mpr ⟨⟨_, _⟩, rfl⟩
  · rw [base]
    exact above
  · rw [length]
    exact fits

/-! ## The ciphers -/

theorem decryptHeader_encryptHeader (h : SteamstubHeader) :
    dearxanSteamstubDecryptHeader (steamstubEncryptHeader h).1 = (h, (steamstubEncryptHeader h).2) := by
  have undone := chainDecrypt_chainEncrypt 0 h.bytes
  apply Prod.ext
  · exact SteamstubHeader.ext_bytes (congrArg Prod.fst undone)
  · have last := congrArg Prod.snd undone
    exact last

theorem encryptHeader_decryptHeader (h : SteamstubHeader) :
    steamstubEncryptHeader (dearxanSteamstubDecryptHeader h).1 = (h, (dearxanSteamstubDecryptHeader h).2) := by
  have undone := chainEncrypt_chainDecrypt 0 h.bytes
  apply Prod.ext
  · exact SteamstubHeader.ext_bytes (congrArg Prod.fst undone)
  · have last := congrArg Prod.snd undone
    exact last

theorem encryptHeader_signature (h : SteamstubHeader) :
    (steamstubEncryptHeader h).1.xorKey ^^^ (steamstubEncryptHeader h).1.signature = h.signature := by
  apply field32_chainEncrypt
  rw [h.size]
  decide

theorem decryptHeader_signature (h : SteamstubHeader) :
    (dearxanSteamstubDecryptHeader h).1.signature = h.xorKey ^^^ h.signature := by
  rw [← encryptHeader_signature, encryptHeader_decryptHeader]

/-! ## The patched header -/

/-- Away from what is patched: the entry point, the flags and the hash. -/
def KeptRange (r : Range) : Prop := r.Apart ⟨32, 8⟩ ∧ r.Apart ⟨60, 4⟩ ∧ r.Apart ⟨68, 4⟩

def patchedHeader (image : SteamstubImage) (h : SteamstubHeader) (replacement : Word) (hash : BitVec 32) :
    SteamstubHeader := (disableChecks image h replacement).setIntegrityHash hash

section PatchedHeader

variable (image : SteamstubImage) (h : SteamstubHeader) (replacement : Word) (hash : BitVec 32)

theorem read_disableChecks {r : Range} (kept : KeptRange r) :
    r.read (disableChecks image h replacement).bytes = r.read h.bytes := by
  obtain ⟨entry, flags, hash⟩ := kept
  calc r.read (disableChecks image h replacement).bytes
    _ = r.read ((h.setDrmFlags (h.drmFlags ||| noChecks)).setOriginalEntryPoint
          (replacement - image.baseVa)).bytes :=
        read_setField32 (SteamstubHeader.fits _ SteamstubHeader.inside_integrityHash) hash _
    _ = r.read (h.setDrmFlags (h.drmFlags ||| noChecks)).bytes :=
        read_setField64 (SteamstubHeader.fits _ SteamstubHeader.inside_originalEntryPoint) entry _
    _ = r.read h.bytes :=
        read_setField32 (SteamstubHeader.fits _ SteamstubHeader.inside_drmFlags) flags _

theorem read_patchedHeader {r : Range} (kept : KeptRange r) :
    r.read (patchedHeader image h replacement hash).bytes = r.read h.bytes := by
  rw [← read_disableChecks image h replacement kept]
  exact read_setField32 (SteamstubHeader.fits _ SteamstubHeader.inside_integrityHash) kept.2.2 _

theorem keptRange_of_field {offset : Nat}
    (kept : offset + 4 ≤ 32 ∨ (40 ≤ offset ∧ offset + 4 ≤ 60) ∨ 72 ≤ offset) : KeptRange ⟨offset, 4⟩ := by
  refine ⟨Range.apart_of_or ?_, Range.apart_of_or ?_, Range.apart_of_or ?_⟩ <;>
  · simp only
    omega

theorem field_patchedHeader {offset : Nat}
    (kept : offset + 4 ≤ 32 ∨ (40 ≤ offset ∧ offset + 4 ≤ 60) ∨ 72 ≤ offset) :
    field32 (patchedHeader image h replacement hash).bytes offset = field32 h.bytes offset :=
  field32_congr (read_patchedHeader image h replacement hash (keptRange_of_field kept))

theorem xteaKey_patchedHeader :
    (patchedHeader image h replacement hash).drmpXteaKey = h.drmpXteaKey := by
  funext i
  apply field_patchedHeader
  omega

theorem integrityHash_patchedHeader : (patchedHeader image h replacement hash).integrityHash = hash :=
  field32_setField32 (SteamstubHeader.fits _ SteamstubHeader.inside_integrityHash) hash

theorem setIntegrityHash_patchedHeader :
    (patchedHeader image h replacement hash).setIntegrityHash 0 = disableChecks image h replacement := by
  apply SteamstubHeader.ext_bytes
  have fits := SteamstubHeader.fits (disableChecks image h replacement) SteamstubHeader.inside_integrityHash
  have fits' := SteamstubHeader.fits ((h.setDrmFlags (h.drmFlags ||| noChecks)).setOriginalEntryPoint
    (replacement - image.baseVa)) SteamstubHeader.inside_integrityHash
  calc setField32 (setField32 (disableChecks image h replacement).bytes 68 hash) 68 0
    _ = setField32 (disableChecks image h replacement).bytes 68 0 := setField32_setField32 fits _ _
    _ = (disableChecks image h replacement).bytes := setField32_setField32 fits' _ _

theorem drmFlags_patchedHeader :
    (patchedHeader image h replacement hash).drmFlags = h.drmFlags ||| noChecks := by
  have flags_hash : Range.Apart ⟨60, 4⟩ ⟨68, 4⟩ := Range.apart_of_or (by decide)
  have flags_entry : Range.Apart ⟨60, 4⟩ ⟨32, 8⟩ := Range.apart_of_or (by decide)
  calc field32 (patchedHeader image h replacement hash).bytes 60
    _ = field32 (disableChecks image h replacement).bytes 60 := field32_congr
        (read_setField32 (SteamstubHeader.fits _ SteamstubHeader.inside_integrityHash) flags_hash _)
    _ = field32 ((h.setDrmFlags (h.drmFlags ||| noChecks)).setOriginalEntryPoint
          (replacement - image.baseVa)).bytes 60 := field32_congr
        (read_setField32 (SteamstubHeader.fits _ SteamstubHeader.inside_integrityHash) flags_hash _)
    _ = field32 (h.setDrmFlags (h.drmFlags ||| noChecks)).bytes 60 := field32_congr
        (read_setField64 (SteamstubHeader.fits _ SteamstubHeader.inside_originalEntryPoint) flags_entry _)
    _ = h.drmFlags ||| noChecks :=
        field32_setField32 (SteamstubHeader.fits _ SteamstubHeader.inside_drmFlags) _

theorem originalEntryPoint_patchedHeader :
    (patchedHeader image h replacement hash).originalEntryPoint = replacement - image.baseVa := by
  have entry_hash : Range.Apart ⟨32, 8⟩ ⟨68, 4⟩ := Range.apart_of_or (by decide)
  calc field64 (patchedHeader image h replacement hash).bytes 32
    _ = field64 (disableChecks image h replacement).bytes 32 := field64_congr
        (read_setField32 (SteamstubHeader.fits _ SteamstubHeader.inside_integrityHash) entry_hash _)
    _ = field64 ((h.setDrmFlags (h.drmFlags ||| noChecks)).setOriginalEntryPoint
          (replacement - image.baseVa)).bytes 32 := field64_congr
        (read_setField32 (SteamstubHeader.fits _ SteamstubHeader.inside_integrityHash) entry_hash _)
    _ = replacement - image.baseVa :=
        field64_setField64 (SteamstubHeader.fits _ SteamstubHeader.inside_originalEntryPoint) _

end PatchedHeader

/-! ## The probe -/

theorem probeContents_eq_present {malloc : Nat → Bool} {image : SteamstubImage} {header : SteamstubHeader}
    {key : Block} {headerRva : Word} {context : SteamstubContext} :
    probeContents malloc image header key headerRva = .present context ↔
      align16 header.stringsDataSize.toNat ≠ sizeMax ∧
      ¬ image.entrypointRva < header.bindSectionEpOffset ∧
      ¬ (0xFFFFFFFF#64 < bindRva image header header.stringsBindOffset ∨
        0xFFFFFFFF#64 < bindRva image header header.drmpDllBindOffset) ∧
      ∃ strings drmp,
        readRva image.toDearxanImage (bindRva image header header.stringsBindOffset)
          (align16 header.stringsDataSize.toNat) = some strings ∧
        readRva image.toDearxanImage (bindRva image header header.drmpDllBindOffset)
          header.drmpDllSize.toNat = some drmp ∧
        ¬ ((align16 header.stringsDataSize.toNat ≠ 0 ∧ malloc (align16 header.stringsDataSize.toNat) = false) ∨
          (header.drmpDllSize.toNat ≠ 0 ∧ malloc header.drmpDllSize.toNat = false)) ∧
        { header, encryptedHeader := headerRva.toNat
          encryptedStrings := (bindRva image header header.stringsBindOffset).toNat
          decryptedStrings := (dearxanSteamstubCryptStrings strings key).1
          stringsSize := align16 header.stringsDataSize.toNat
          decryptedDrmp := dearxanSteamstubDecryptDrmp drmp header.drmpXteaKey
          drmpSize := header.drmpDllSize.toNat } = context := by
  unfold probeContents
  simp only
  rcases strings : readRva image.toDearxanImage (bindRva image header header.stringsBindOffset)
      (align16 header.stringsDataSize.toNat) with _ | strings
  · split_ifs <;> simp
  · rcases drmp : readRva image.toDearxanImage (bindRva image header header.drmpDllBindOffset)
        header.drmpDllSize.toNat with _ | drmp
    · split_ifs <;> simp
    · simp only [Option.some.injEq]
      split_ifs with overflow behind far memory
      · simp [overflow]
      · simp [behind]
      · simp [far]
      · simp [memory]
      · simp [overflow, behind, far, memory]

theorem dearxanSteamstubProbe_eq_present {malloc : Nat → Bool} {image : SteamstubImage}
    {context : SteamstubContext} :
    dearxanSteamstubProbe malloc image = .present context ↔
      ¬ image.entrypointRva < 240#32 ∧
      ∃ encrypted : SteamstubHeader,
        readRva image.toDearxanImage (image.entry - 240#64) headerSize = some encrypted.bytes ∧
        (dearxanSteamstubDecryptHeader encrypted).1.signature = steamstubSignature ∧
        probeContents malloc image (dearxanSteamstubDecryptHeader encrypted).1
          (dearxanSteamstubDecryptHeader encrypted).2 (image.entry - 240#64) = .present context := by
  unfold dearxanSteamstubProbe
  split_ifs with close
  · simp [close]
  · simp only [close, not_false_eq_true, true_and]
    constructor
    · intro probed
      split at probed
      · cases probed
      · rename_i bytes found
        split_ifs at probed with other
        · exact ⟨⟨bytes, length_of_readRva found⟩, found,
            (decryptHeader_signature _).trans (not_not.mp other), probed⟩
    · rintro ⟨encrypted, found, signed, probed⟩
      split
      · rename_i missing
        rw [found] at missing
        cases missing
      · rename_i bytes found'
        rw [found] at found'
        cases found'
        rw [if_neg]
        · exact probed
        · rw [← decryptHeader_signature]
          exact not_not.mpr signed

/-! ## The patch -/

def patchedImage (image : SteamstubImage) (context : SteamstubContext) (header : SteamstubHeader) :
    SteamstubImage :=
  (image.overwrite context.encryptedHeader (steamstubEncryptHeader header).1.bytes).overwrite
    context.encryptedStrings
    (steamstubEncryptStrings context.decryptedStrings (steamstubEncryptHeader header).2).1

theorem align16_ne_sizeMax (size : BitVec 32) : align16 size.toNat ≠ sizeMax := by
  have := size.isLt
  unfold align16 sizeMax
  split_ifs <;> omega

def codeSize (context : SteamstubContext) : Nat := align16 context.header.steamstubEpCodeSize.toNat

theorem codeSize_disableChecks (image : SteamstubImage) (context : SteamstubContext) (replacement : Word) :
    align16 (disableChecks image context.header replacement).steamstubEpCodeSize.toNat = codeSize context := by
  unfold codeSize SteamstubHeader.steamstubEpCodeSize
  rw [field32_congr (read_disableChecks image context.header replacement (keptRange_of_field (by decide)))]

theorem overwrite_noStrings {image : SteamstubImage} {context : SteamstubContext}
    (whole : context.decryptedStrings.length = context.stringsSize) (empty : context.stringsSize = 0)
    (key : Block) :
    image.overwrite context.encryptedStrings (steamstubEncryptStrings context.decryptedStrings key).1
      = image := by
  rw [empty] at whole
  rw [List.length_eq_zero_iff.mp whole]
  unfold SteamstubImage.overwrite
  rw [show (steamstubEncryptStrings [] key).1 = [] from rfl, overwrite_nil]

/-- The patch succeeds exactly when the code can be read and what it asks for is granted. -/
theorem dearxanSteamstubPatch_eq_true {grants : PatchGrants} {image : SteamstubImage}
    {context : SteamstubContext} {replacement : Word}
    (whole : context.decryptedStrings.length = context.stringsSize) (image' : SteamstubImage)
    (context' : SteamstubContext) :
    dearxanSteamstubPatch grants image context replacement = (true, image', context') ↔
      ((context.stringsSize = 0 ∨ (grants.stringsBuffer = true ∧ grants.stringsWrite = true)) ∧
        grants.headerWrite = true) ∧
      ∃ code, readRva image.toDearxanImage image.entry (codeSize context) = some code ∧
        let header := patchedHeader image context.header replacement
          (patchedHash context.decryptedStrings (disableChecks image context.header replacement) code
            context.decryptedDrmp)
        patchedImage image context header = image' ∧ { context with header } = context' := by
  unfold dearxanSteamstubPatch
  simp only [codeSize_disableChecks]
  rw [if_neg (by exact align16_ne_sizeMax _)]
  rcases code : readRva image.toDearxanImage image.entry (codeSize context) with _ | code
  · simp
  · simp only [Option.some.injEq, exists_eq_left']
    by_cases empty : context.stringsSize = 0
    · cases write : grants.headerWrite with
      | false => simp [empty]
      | true => simp [empty, patchedImage, overwrite_noStrings whole empty, patchedHeader]
    · rcases buffer : grants.stringsBuffer with _ | _ <;> rcases write : grants.headerWrite with _ | _ <;>
        rcases write' : grants.stringsWrite with _ | _ <;>
        simp [empty, patchedImage, patchedHeader]

/-! ## A second probe -/

def headerRange (context : SteamstubContext) : Range := ⟨context.encryptedHeader, headerSize⟩

def stringsRange (context : SteamstubContext) : Range := ⟨context.encryptedStrings, context.stringsSize⟩

def codeRange (image : SteamstubImage) (context : SteamstubContext) : Range :=
  ⟨image.entry.toNat, codeSize context⟩

def drmpRange (image : SteamstubImage) (context : SteamstubContext) : Range :=
  ⟨(bindRva image context.header context.header.drmpDllBindOffset).toNat, context.drmpSize⟩

section PatchedImage

variable {image : SteamstubImage} {context : SteamstubContext} (header : SteamstubHeader)

structure Placed (image : SteamstubImage) (context : SteamstubContext) : Prop where
  header_fits : context.encryptedHeader + headerSize ≤ image.bytes.length
  strings_fit : context.encryptedStrings + context.stringsSize ≤ image.bytes.length
  whole : context.decryptedStrings.length = context.stringsSize

theorem length_encryptStrings (placed : Placed image context) (key : Block) :
    (steamstubEncryptStrings context.decryptedStrings key).1.length = context.stringsSize := by
  rw [← placed.whole]
  exact length_chain _ key _

theorem length_header_overwritten (placed : Placed image context) :
    (overwrite image.bytes context.encryptedHeader (steamstubEncryptHeader header).1.bytes).length
      = image.bytes.length := by
  apply length_overwrite
  rw [SteamstubHeader.size]
  exact placed.header_fits

theorem strings_fit_overwritten (placed : Placed image context) (key : Block) :
    context.encryptedStrings + (steamstubEncryptStrings context.decryptedStrings key).1.length ≤
      (overwrite image.bytes context.encryptedHeader (steamstubEncryptHeader header).1.bytes).length := by
  rw [length_header_overwritten header placed, length_encryptStrings placed]
  exact placed.strings_fit

theorem length_patchedImage (placed : Placed image context) :
    (patchedImage image context header).bytes.length = image.bytes.length :=
  (length_overwrite (strings_fit_overwritten header placed _)).trans (length_header_overwritten header placed)

theorem read_patchedImage (placed : Placed image context) {r : Range}
    (apart : r.Apart (headerRange context)) (apart' : r.Apart (stringsRange context)) :
    r.read (patchedImage image context header).bytes = r.read image.bytes := by
  have fits : context.encryptedHeader + (steamstubEncryptHeader header).1.bytes.length
      ≤ image.bytes.length := by
    rw [SteamstubHeader.size]
    exact placed.header_fits
  refine (read_overwrite_apart (strings_fit_overwritten header placed _) ?_).trans
    (read_overwrite_apart fits ?_)
  · rw [length_encryptStrings placed]
    exact apart'
  · rw [SteamstubHeader.size]
    exact apart

theorem readRva_patchedImage (placed : Placed image context) {rva : Word} {size : Nat} {bytes : List Byte}
    (found : readRva image.toDearxanImage rva size = some bytes) :
    readRva (patchedImage image context header).toDearxanImage rva size
      = some (Range.read ⟨rva.toNat, size⟩ (patchedImage image context header).bytes) := by
  have base : (patchedImage image context header).baseVa = image.baseVa := rfl
  exact readRva_of_length base (length_patchedImage header placed) found

theorem read_header_patchedImage (placed : Placed image context)
    (apart : (headerRange context).Apart (stringsRange context)) :
    (headerRange context).read (patchedImage image context header).bytes
      = (steamstubEncryptHeader header).1.bytes := by
  have fits : context.encryptedHeader + (steamstubEncryptHeader header).1.bytes.length
      ≤ image.bytes.length := by
    rw [SteamstubHeader.size]
    exact placed.header_fits
  have range : headerRange context = ⟨context.encryptedHeader, (steamstubEncryptHeader header).1.bytes.length⟩ := by
    rw [SteamstubHeader.size]
    rfl
  refine (read_overwrite_apart (strings_fit_overwritten header placed _) ?_).trans ?_
  · rw [length_encryptStrings placed]
    exact apart
  · rw [range]
    exact read_overwrite fits

theorem read_strings_patchedImage (placed : Placed image context) :
    (stringsRange context).read (patchedImage image context header).bytes
      = (steamstubEncryptStrings context.decryptedStrings (steamstubEncryptHeader header).2).1 := by
  have range : stringsRange context = ⟨context.encryptedStrings, (steamstubEncryptStrings
      context.decryptedStrings (steamstubEncryptHeader header).2).1.length⟩ := by
    rw [length_encryptStrings placed]
    rfl
  rw [range]
  exact read_overwrite (strings_fit_overwritten header placed _)

end PatchedImage

theorem placed_of_present {malloc : Nat → Bool} {image : SteamstubImage} {context : SteamstubContext}
    (probed : dearxanSteamstubProbe malloc image = .present context) : Placed image context := by
  obtain ⟨-, encrypted, found, -, contents⟩ := dearxanSteamstubProbe_eq_present.mp probed
  obtain ⟨-, -, -, strings, drmp, found_strings, -, -, rfl⟩ := probeContents_eq_present.mp contents
  constructor
  · exact (readRva_eq_some_iff.mp found).1.2
  · exact (readRva_eq_some_iff.mp found_strings).1.2
  · exact (length_chain _ _ strings).trans (length_of_readRva found_strings)

theorem probe_patchedImage {malloc : Nat → Bool} {image : SteamstubImage} {context : SteamstubContext}
    (probed : dearxanSteamstubProbe malloc image = .present context)
    (apart : (headerRange context).Apart (stringsRange context))
    (drmp_header : (drmpRange image context).Apart (headerRange context))
    (drmp_strings : (drmpRange image context).Apart (stringsRange context))
    (replacement : Word) (hash : BitVec 32) :
    dearxanSteamstubProbe malloc
        (patchedImage image context (patchedHeader image context.header replacement hash))
      = .present { context with header := patchedHeader image context.header replacement hash } := by
  have placed := placed_of_present probed
  generalize made : patchedHeader image context.header replacement hash = header
  have field {offset : Nat} (kept : offset + 4 ≤ 32 ∨ (40 ≤ offset ∧ offset + 4 ≤ 60) ∨ 72 ≤ offset) :
      field32 header.bytes offset = field32 context.header.bytes offset := by
    rw [← made]
    exact field_patchedHeader image context.header replacement hash kept
  have header_read := read_header_patchedImage header placed apart
  have strings_read := read_strings_patchedImage header placed
  have drmp_read := read_patchedImage header placed drmp_header drmp_strings
  have xtea : header.drmpXteaKey = context.header.drmpXteaKey := by
    rw [← made]
    exact xteaKey_patchedHeader image context.header replacement hash
  have bind_offset : header.bindSectionEpOffset = context.header.bindSectionEpOffset := field (by decide)
  have strings_offset : header.stringsBindOffset = context.header.stringsBindOffset := field (by decide)
  have strings_size : header.stringsDataSize = context.header.stringsDataSize := field (by decide)
  have drmp_offset : header.drmpDllBindOffset = context.header.drmpDllBindOffset := field (by decide)
  have drmp_size : header.drmpDllSize = context.header.drmpDllSize := field (by decide)
  have signature : header.signature = context.header.signature := field (by decide)
  obtain ⟨close, encrypted, found, signed, contents⟩ := dearxanSteamstubProbe_eq_present.mp probed
  obtain ⟨small, behind, far, strings, drmp, found_strings, found_drmp, memory, same⟩ :=
    probeContents_eq_present.mp contents
  have context_header : (dearxanSteamstubDecryptHeader encrypted).1 = context.header := by rw [← same]
  rw [context_header] at signed small behind far found_strings found_drmp memory same
  apply dearxanSteamstubProbe_eq_present.mpr
  refine ⟨close, (steamstubEncryptHeader header).1, ?_, ?_, ?_⟩
  · have header_start : (headerRange context).start = (image.entry - 240#64).toNat := by rw [← same]; rfl
    refine (readRva_patchedImage header placed found).trans (congrArg some ?_)
    rw [← header_start]
    exact header_read
  · rw [decryptHeader_encryptHeader, signature]
    exact signed
  · rw [decryptHeader_encryptHeader]
    apply probeContents_eq_present.mpr
    have bind (offset : BitVec 32) : bindRva (patchedImage image context header) header offset
        = bindRva image context.header offset := by
      unfold bindRva
      rw [bind_offset]
      rfl
    rw [strings_size, bind_offset, bind, bind, strings_offset, drmp_offset, drmp_size, xtea]
    refine ⟨small, behind, far, _, drmp, readRva_patchedImage header placed found_strings,
      (readRva_patchedImage header placed found_drmp).trans (congrArg some ?_), memory, ?_⟩
    · have drmp_range : drmpRange image context
          = ⟨(bindRva image context.header context.header.drmpDllBindOffset).toNat,
            context.header.drmpDllSize.toNat⟩ := by
        unfold drmpRange
        rw [← same]
      rw [← drmp_range, drmp_read, drmp_range]
      exact (readRva_eq_some_iff.mp found_drmp).2
    · have strings_range : stringsRange context
          = ⟨(bindRva image context.header context.header.stringsBindOffset).toNat,
            align16 context.header.stringsDataSize.toNat⟩ := by
        unfold stringsRange
        rw [← same]
      rw [← strings_range, strings_read]
      unfold dearxanSteamstubCryptStrings steamstubEncryptStrings
      rw [chainDecrypt_chainEncrypt]
      rw [← same]
      rfl

/-- The parts of a header, strings, code and DRMP that must not meet. -/
def steamstubRanges (image : SteamstubImage) (context : SteamstubContext) : List Range :=
  [headerRange context, stringsRange context, codeRange image context, drmpRange image context]

theorem steamstub_patch_probe {malloc : Nat → Bool} {image : SteamstubImage} {context : SteamstubContext}
    (probed : dearxanSteamstubProbe malloc image = .present context)
    (apart : (steamstubRanges image context).Pairwise Range.Apart) (grants : PatchGrants)
    (replacement : Word) :
    ((dearxanSteamstubPatch grants image context replacement).1 = true ↔
      ((context.stringsSize = 0 ∨ (grants.stringsBuffer = true ∧ grants.stringsWrite = true)) ∧
        grants.headerWrite = true) ∧
      (readRva image.toDearxanImage image.entry (codeSize context)).isSome = true) ∧
    (∀ image' context', dearxanSteamstubPatch grants image context replacement = (true, image', context') →
      ∃ header code,
        context' = { context with header } ∧
        dearxanSteamstubProbe malloc image' = .present context' ∧
        readRva image'.toDearxanImage image'.entry (codeSize context') = some code ∧
        header.drmFlags = context.header.drmFlags ||| noChecks ∧
        header.originalEntryPoint = replacement - image.baseVa ∧
        header.integrityHash
          = patchedHash context.decryptedStrings (header.setIntegrityHash 0) code context.decryptedDrmp ∧
        ∀ r, KeptRange r → r.read header.bytes = r.read context.header.bytes) ∧
    (∀ h, dearxanSteamstubDecryptHeader (steamstubEncryptHeader h).1 = (h, (steamstubEncryptHeader h).2) ∧
      steamstubEncryptHeader (dearxanSteamstubDecryptHeader h).1 = (h, (dearxanSteamstubDecryptHeader h).2)) ∧
    ∀ strings key,
      dearxanSteamstubCryptStrings (steamstubEncryptStrings strings key).1 key
        = (strings, (steamstubEncryptStrings strings key).2) ∧
      steamstubEncryptStrings (dearxanSteamstubCryptStrings strings key).1 key
        = (strings, (dearxanSteamstubCryptStrings strings key).2) := by
  have placed := placed_of_present probed
  simp only [steamstubRanges, List.pairwise_cons, List.mem_cons, List.not_mem_nil, or_false, forall_eq_or_imp,
    forall_eq] at apart
  obtain ⟨⟨header_strings, header_code, header_drmp⟩, ⟨strings_code, strings_drmp⟩, -⟩ := apart
  refine ⟨?_, ?_, fun h => ⟨decryptHeader_encryptHeader h, encryptHeader_decryptHeader h⟩, fun strings key =>
    ⟨chainDecrypt_chainEncrypt key strings, chainEncrypt_chainDecrypt key strings⟩⟩
  · constructor
    · intro patched
      obtain ⟨granted, code, found, -⟩ := (dearxanSteamstubPatch_eq_true placed.whole _ _).mp
        (Prod.ext patched rfl)
      exact ⟨granted, by rw [found]; rfl⟩
    · rintro ⟨granted, readable⟩
      obtain ⟨code, found⟩ := Option.isSome_iff_exists.mp readable
      rw [(dearxanSteamstubPatch_eq_true placed.whole _ _).mpr ⟨granted, code, found, rfl, rfl⟩]
  · intro image' context' patched
    obtain ⟨-, code, found, rfl, rfl⟩ := (dearxanSteamstubPatch_eq_true placed.whole _ _).mp patched
    refine ⟨_, code, rfl, ?_, ?_, drmFlags_patchedHeader .., originalEntryPoint_patchedHeader .., ?_,
      fun r kept => read_patchedHeader _ _ _ _ kept⟩
    · exact probe_patchedImage probed header_strings header_drmp.symm strings_drmp.symm replacement _
    · have same_size (hash : BitVec 32) :
          codeSize { context with header := patchedHeader image context.header replacement hash }
            = codeSize context := by
        unfold codeSize SteamstubHeader.steamstubEpCodeSize
        rw [field_patchedHeader _ _ _ _ (by decide)]
      rw [same_size]
      refine (readRva_patchedImage _ placed found).trans (congrArg some ?_)
      rw [← (readRva_eq_some_iff.mp found).2]
      exact read_patchedImage _ placed header_code.symm strings_code.symm
    · rw [integrityHash_patchedHeader, setIntegrityHash_patchedHeader]

def smallFields : List (Nat × BitVec 32) :=
  [(0, 0x10203040#32), (4, steamstubSignature), (28, 1#32), (40, 16#32), (44, 13#32), (48, 32#32), (52, 8#32),
    (152, 0x00112233#32)]

def smallHeaderBytes : List Byte :=
  smallFields.foldl (fun bytes field => setField32 bytes field.1 field.2) (List.replicate 240 0#8)

theorem size_smallHeader : smallHeaderBytes.length = headerSize := by decide +kernel

def smallHeader : SteamstubHeader := ⟨smallHeaderBytes, size_smallHeader⟩

def smallStrings : List Byte := (List.range 16).map fun i => BitVec.ofNat 8 (65 + i)

def smallDrmp : List Byte := (List.range 8).map fun i => BitVec.ofNat 8 i

/-- The header, 16 bytes of code, the strings and the DRMP. -/
def smallImage : SteamstubImage where
  bytes := (steamstubEncryptHeader smallHeader).1.bytes ++ List.replicate 16 0xa0#8
    ++ (steamstubEncryptStrings smallStrings (steamstubEncryptHeader smallHeader).2).1 ++ smallDrmp
  baseVa := 0x10000#64
  entrypointRva := 240#32

def smallContext : SteamstubContext where
  header := smallHeader
  encryptedHeader := 0
  encryptedStrings := 256
  decryptedStrings := smallStrings
  stringsSize := 16
  decryptedDrmp := dearxanSteamstubDecryptDrmp smallDrmp smallHeader.drmpXteaKey
  drmpSize := 8

theorem steamstub_patch_probe_small :
    ∃ image' context',
      dearxanSteamstubPatch ⟨true, true, true⟩ smallImage smallContext 0x10700#64 = (true, image', context') ∧
      dearxanSteamstubProbe (fun _ => true) image' = .present context' ∧
      context'.header.originalEntryPoint = 0x700#64 ∧ context'.decryptedStrings = smallStrings := by
  have probed : dearxanSteamstubProbe (fun _ => true) smallImage = .present smallContext := by
    decide +kernel
  have ranges : steamstubRanges smallImage smallContext = [⟨0, 240⟩, ⟨256, 16⟩, ⟨240, 16⟩, ⟨272, 8⟩] := by
    decide +kernel
  have apart : (steamstubRanges smallImage smallContext).Pairwise Range.Apart := by
    rw [ranges]
    apply List.Pairwise.imp Range.apart_of_or
    decide
  obtain ⟨succeeds, after, -⟩ := steamstub_patch_probe probed apart ⟨true, true, true⟩ 0x10700#64
  have patched := succeeds.mpr ⟨by decide, by decide +kernel⟩
  rcases run : dearxanSteamstubPatch ⟨true, true, true⟩ smallImage smallContext 0x10700#64
    with ⟨ok, image', context'⟩
  rw [run] at patched
  change ok = true at patched
  subst patched
  obtain ⟨header, code, rfl, again, -, -, entry, -⟩ := after image' context' run
  exact ⟨image', _, rfl, again, entry, rfl⟩

end Yafsml.Dearxan
