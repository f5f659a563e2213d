import Yafsml.Patches.BootBoostCacheSound

/-! # The round trip through the cache of archive headers -/

namespace Yafsml.Patches.BootBoostCache

open ByteFields Cursor

variable {miniz : Miniz} {checksum : Bytes → UInt64} {key key' : UInt64 × UInt64} {path : WString}
  {data compressed contents : Bytes}

theorem length_cacheHeader : (cacheHeader checksum key data compressed).toBytes.length = cacheHeaderSize :=
  CacheHeader.length_toBytes rfl

section Stored

variable (holds : Holds miniz checksum key data compressed contents)

include holds

theorem Holds.header :
    CacheHeader.ofBytes (contents.take cacheHeaderSize) = cacheHeader checksum key data compressed := by
  rw [holds.whole, ← @length_cacheHeader checksum key data compressed, List.take_left]
  exact CacheHeader.ofBytes_toBytes rfl

theorem Holds.behind : contents.drop cacheHeaderSize = compressed := by
  rw [holds.whole, ← @length_cacheHeader checksum key data compressed, List.drop_left]

theorem Holds.length : contents.length = cacheHeaderSize + compressed.length := by
  rw [holds.whole, List.length_append, length_cacheHeader]

theorem Holds.fits_iff {outputSize compressedSize : Nat} :
    (cacheHeader checksum key data compressed).Fits key' outputSize compressedSize ↔
      key' = key ∧ outputSize = data.length ∧ compressedSize = compressed.length := by
  have small : (UInt32.ofNat data.length).toNat = data.length :=
    UInt32.toNat_ofNat_of_lt (Nat.lt_succ_of_le holds.small)
  have fits : (UInt32.ofNat compressed.length).toNat = compressed.length :=
    UInt32.toNat_ofNat_of_lt (Nat.lt_succ_of_le holds.fits)
  constructor
  · intro matching
    exact ⟨matching.key.symm, matching.uncompressedSize.symm.trans small,
      matching.compressedSize.symm.trans fits⟩
  · rintro ⟨rfl, rfl, rfl⟩
    exact ⟨rfl, rfl, rfl, rfl, small, fits⟩

theorem Holds.readCache_iff {calls : LoadCalls} {outputSize : Nat} {header : CacheHeader} {rest : Bytes} :
    readCache calls key' outputSize contents = some (header, rest) ↔
      calls.getFileSize = true ∧ calls.readHeader = true ∧ calls.allocate = true ∧
      calls.readCompressed = true ∧ header = cacheHeader checksum key data compressed ∧
      rest = compressed ∧ key' = key ∧ outputSize = data.length := by
  have long : cacheHeaderSize < contents.length := by
    rw [holds.length]
    exact Nat.lt_add_of_pos_right (List.length_pos_of_ne_nil holds.nonempty)
  have short : contents.length ≤ sizeMax := by
    have fits := holds.fits
    have length := holds.length
    simp only [uint32Max, cacheHeaderSize] at fits length
    rw [length, sizeMax]
    omega
  rw [BootBoostCache.readCache_iff, holds.header, holds.behind]
  constructor
  · rintro ⟨size, first, allocated, second, -, -, rfl, rfl, matching⟩
    obtain ⟨same, length, -⟩ := holds.fits_iff.mp matching
    exact ⟨size, first, allocated, second, rfl, rfl, same, length⟩
  · rintro ⟨size, first, allocated, second, rfl, rfl, same, length⟩
    exact ⟨size, first, allocated, second, long, short, rfl, rfl, holds.fits_iff.mpr ⟨same, length, rfl⟩⟩

theorem Holds.resized {calls : LoadCalls} {outputSize : Nat} {other : Bytes}
    (front : cacheHeaderSize ≤ other.length → other.take cacheHeaderSize = contents.take cacheHeaderSize)
    (length : other.length ≠ contents.length) : readCache calls key' outputSize other = none := by
  cases read : readCache calls key' outputSize other with
  | none => rfl
  | some pair =>
      obtain ⟨header, rest⟩ := pair
      obtain ⟨-, -, -, -, long, -, same, behind, matching⟩ := BootBoostCache.readCache_iff.mp read
      rw [front long.le, holds.header] at same
      subst same behind
      obtain ⟨-, -, size⟩ := holds.fits_iff.mp matching
      rw [List.length_drop] at size
      have stored := holds.length
      omega

theorem Holds.inflates (undoes : miniz.Undoes) :
    miniz.decompress compressed data.length = ⟨true, compressed.length, data⟩ := by
  obtain ⟨room, rfl⟩ := holds.deflated
  exact undoes room data holds.nonempty

end Stored

/-- What the cache promises. The calls of the system may fail. -/
structure CacheLaw (miniz : Miniz) (checksum : Bytes → UInt64) : Prop where
  /-- the file that was stored is valid for the key, the size and the first bytes it was stored with -/
  loads : ∀ stores path key data before stored,
    mlBootBoostCacheStore miniz checksum stores (some path) (some key) (some data) before = (true, stored) →
    ∀ loads key' bhdHeader output later, later path = stored path →
      ((mlBootBoostCacheLoad miniz checksum loads (some path) (some key') (some bhdHeader) (some output)
          later).valid = true ↔
        loads.Succeed ∧ key' = key ∧ output.length = data.length ∧
          bhdHeader.take 24 = data.take 24) ∧
      ((mlBootBoostCacheLoad miniz checksum loads (some path) (some key') (some bhdHeader) (some output)
          later).valid = true →
        (mlBootBoostCacheLoad miniz checksum loads (some path) (some key') (some bhdHeader) (some output)
          later).output = some data)
  /-- a shortened or extended one is valid for nothing -/
  resized : ∀ stores path key data before stored,
    mlBootBoostCacheStore miniz checksum stores (some path) (some key) (some data) before = (true, stored) →
    ∀ later, (∃ contents, stored path = some contents ∧
        ((∃ size < contents.length, later path = some (contents.take size)) ∨
          ∃ more, more ≠ [] ∧ later path = some (contents ++ more))) →
    ∀ loads key' bhdHeader output,
      (mlBootBoostCacheLoad miniz checksum loads (some path) key' bhdHeader output later).valid = false
  accepted : ∀ loads path key bhdHeader output disk,
    (mlBootBoostCacheLoad miniz checksum loads path key bhdHeader output disk).valid = true →
    (mlBootBoostCacheLoad miniz checksum loads path key bhdHeader output disk).disk = disk ∧
    ∃ path' contents bhdHeader' loaded, path = some path' ∧ disk path' = some contents ∧
      bhdHeader = some bhdHeader' ∧
      (mlBootBoostCacheLoad miniz checksum loads path key bhdHeader output disk).output = some loaded ∧
      checksum loaded = (CacheHeader.ofBytes (contents.take cacheHeaderSize)).checksum ∧
      loaded.take 24 = bhdHeader'.take 24
  /-- a file that could be opened but is not valid is deleted, unless that fails -/
  deleted : ∀ loads path key bhdHeader output disk contents, 24 ≤ output.length →
    output.length ≤ uint32Max → loads.createFile = true → disk path = some contents →
    (mlBootBoostCacheLoad miniz checksum loads (some path) (some key) (some bhdHeader) (some output)
      disk).valid = false →
    (mlBootBoostCacheLoad miniz checksum loads (some path) (some key) (some bhdHeader) (some output)
      disk).disk = deleteFile loads.deleteFile disk path
  kept : ∀ stores path key data before after,
    mlBootBoostCacheStore miniz checksum stores (some path) key data before = (false, after) →
    after path = before path

section Loads

variable {loads : LoadCalls} {bhdHeader output : Bytes} {disk : Disk}

theorem load_valid
    (valid : (mlBootBoostCacheLoad miniz checksum loads (some path) (some key) (some bhdHeader)
      (some output) disk).valid = true) :
    ∃ contents loaded, disk path = some contents ∧ loads.createFile = true ∧
      inflateCache miniz checksum loads key bhdHeader output contents = (true, loaded) ∧
      (mlBootBoostCacheLoad miniz checksum loads (some path) (some key) (some bhdHeader)
        (some output) disk).disk = disk ∧
      (mlBootBoostCacheLoad miniz checksum loads (some path) (some key) (some bhdHeader)
        (some output) disk).output = some loaded := by
  obtain unopened | ⟨_, _, _, _, contents, ⟨⟩, ⟨⟩, ⟨⟩, ⟨⟩, room, small, created, held⟩ :=
    @mlBootBoostCacheLoad_cases miniz checksum disk loads (some path) (some key) (some bhdHeader) (some output)
  · rw [unopened] at valid
    cases valid
  rw [mlBootBoostCacheLoad_opened room small created held] at valid ⊢
  exact ⟨contents, _, held, created, Prod.ext valid rfl, if_pos valid, rfl⟩

theorem load_stored (undoes : miniz.Undoes)
    (holds : Holds miniz checksum key data compressed contents) (held : disk path = some contents) :
    ((mlBootBoostCacheLoad miniz checksum loads (some path) (some key') (some bhdHeader) (some output)
        disk).valid = true ↔
      loads.Succeed ∧ key' = key ∧ output.length = data.length ∧ bhdHeader.take 24 = data.take 24) ∧
    ((mlBootBoostCacheLoad miniz checksum loads (some path) (some key') (some bhdHeader) (some output)
        disk).valid = true →
      (mlBootBoostCacheLoad miniz checksum loads (some path) (some key') (some bhdHeader) (some output)
        disk).output = some data) := by
  have through (valid : (mlBootBoostCacheLoad miniz checksum loads (some path) (some key') (some bhdHeader)
      (some output) disk).valid = true) :
      (loads.Succeed ∧ key' = key ∧ output.length = data.length ∧ bhdHeader.take 24 = data.take 24) ∧
        (mlBootBoostCacheLoad miniz checksum loads (some path) (some key') (some bhdHeader) (some output)
          disk).output = some data := by
    obtain ⟨contents', loaded, held', created, inflated, -, out⟩ := load_valid valid
    rw [held, Option.some.injEq] at held'
    subst held'
    obtain ⟨header, rest, read, -, whole, -, front⟩ := inflateCache_true inflated
    obtain ⟨size, first, allocated, second, rfl, rfl, same, length⟩ := holds.readCache_iff.mp read
    rw [length, holds.inflates undoes, Inflated.mk.injEq] at whole
    obtain ⟨-, -, rfl⟩ := whole
    exact ⟨⟨⟨created, size, first, allocated, second⟩, same, length, front.symm⟩, out⟩
  refine ⟨⟨fun valid => (through valid).1, ?_⟩, fun valid => (through valid).2⟩
  rintro ⟨succeed, same, length, front⟩
  have room : 24 ≤ output.length := by
    have valid := holds.valid
    simp only [mlBhd5HeaderValid, Bool.and_eq_true, decide_eq_true_eq] at valid
    rw [length]
    exact valid.1.1.1.1
  have read := holds.readCache_iff.mpr ⟨succeed.getFileSize, succeed.readHeader, succeed.allocate,
    succeed.readCompressed, rfl, rfl, same, length⟩
  have inflated := inflateCache_of read length.symm
    ((congrArg (miniz.decompress compressed) length).trans (holds.inflates undoes)) rfl holds.valid front.symm
  rw [mlBootBoostCacheLoad_opened room (length ▸ holds.small) succeed.createFile held]
  exact congrArg Prod.fst inflated

theorem load_resized {other : Bytes} (holds : Holds miniz checksum key data compressed contents)
    (held : disk path = some other)
    (front : cacheHeaderSize ≤ other.length → other.take cacheHeaderSize = contents.take cacheHeaderSize)
    (length : other.length ≠ contents.length) :
    (mlBootBoostCacheLoad miniz checksum loads (some path) (some key') (some bhdHeader) (some output)
      disk).valid = false := by
  rw [Bool.eq_false_iff]
  intro valid
  obtain ⟨contents', loaded, held', -, inflated, -⟩ := load_valid valid
  rw [held, Option.some.injEq] at held'
  subst held'
  obtain ⟨header, rest, read, -⟩ := inflateCache_true inflated
  rw [holds.resized front length] at read
  cases read

end Loads

theorem mlBootBoostCache_law (checksum : Bytes → UInt64) (undoes : miniz.Undoes) :
    CacheLaw miniz checksum where
  loads := by
    intro stores path key data before stored ends loads key' bhdHeader output later same
    obtain ⟨compressed, contents, held, holds⟩ := mlBootBoostCacheStore_true ends
    exact load_stored undoes holds (same.trans held)
  resized := by
    rintro stores path key data before stored ends later ⟨contents', held', changed⟩ loads key' bhdHeader output
    obtain ⟨compressed, contents, held, holds⟩ := mlBootBoostCacheStore_true ends
    rw [held, Option.some.injEq] at held'
    subst held'
    obtain unopened | ⟨_, key', bhdHeader, output, _, -, rfl, rfl, rfl, -⟩ :=
      @mlBootBoostCacheLoad_cases miniz checksum later loads (some path) key' bhdHeader output
    · rw [unopened]
    obtain ⟨size, shorter, held'⟩ | ⟨more, nonempty, held'⟩ := changed
    · apply load_resized holds held'
      · intro enough
        rw [List.length_take] at enough
        rw [List.take_take, Nat.min_eq_left (enough.trans (Nat.min_le_left _ _))]
      · rw [List.length_take_of_le shorter.le]
        exact shorter.ne
    · apply load_resized holds held'
      · intro _
        exact List.take_append_of_le_length (holds.length ▸ Nat.le_add_right _ _)
      · rw [List.length_append]
        exact (Nat.lt_add_of_pos_right (List.length_pos_of_ne_nil nonempty)).ne'
  accepted := by
    intro loads path key bhdHeader output disk valid
    obtain unopened | ⟨path, key, bhdHeader, output, _, rfl, rfl, rfl, rfl, -⟩ :=
      @mlBootBoostCacheLoad_cases miniz checksum disk loads path key bhdHeader output
    · rw [unopened] at valid
      cases valid
    obtain ⟨contents, loaded, held, -, inflated, kept, out⟩ := load_valid valid
    obtain ⟨header, rest, read, -, -, checked, front⟩ := inflateCache_true inflated
    obtain ⟨-, -, -, -, -, -, rfl, -⟩ := readCache_iff.mp read
    exact ⟨kept, path, contents, bhdHeader, loaded, rfl, held, rfl, out, checked, front⟩
  deleted := by
    intro loads path key bhdHeader output disk contents room small created held invalid
    rw [mlBootBoostCacheLoad_opened room small created held] at invalid ⊢
    exact if_neg (Bool.eq_false_iff.mp invalid)
  kept := fun _ _ _ _ _ _ failed => mlBootBoostCacheStore_false failed

private def smallBhd : Bytes :=
  bhd5Magic ++ List.replicate 8 0 ++ [24, 0, 0, 0] ++ [0, 0, 0, 0] ++ [24, 0, 0, 0]

/-- The block that `smallBhd` is deflated to. -/
private def smallDeflated : Bytes := [115, 242, 112, 49, 101, 128, 2, 9, 36, 26, 0]

private def blockOf (data : Bytes) : Bytes :=
  if data = smallBhd then smallDeflated
  else 1 :: (ofNat 2 data.length ++ ofNat 2 (65535 - data.length) ++ data)

private def blockMiniz : Miniz where
  compress room data :=
    if (blockOf data).length ≤ room ∧ data.length ≤ 65535 then blockOf data else []
  decompress bytes _ :=
    if bytes = smallDeflated then ⟨true, bytes.length, smallBhd⟩
    else ⟨bytes.head? == some 1, bytes.length, bytes.drop 5⟩

private theorem blockMiniz_undoes : blockMiniz.Undoes := by
  intro room data nonempty
  have made : blockMiniz.compress room data = blockOf data := by
    by_cases fits : (blockOf data).length ≤ room ∧ data.length ≤ 65535
    · exact if_pos fits
    · exact absurd (if_neg fits) nonempty
  rw [made]
  by_cases small : data = smallBhd
  · subst small
    rfl
  · have block : blockOf data = 1 :: (ofNat 2 data.length ++ ofNat 2 (65535 - data.length) ++ data) :=
      if_neg small
    have other : blockOf data ≠ smallDeflated := by
      rw [block]
      intro same
      exact absurd (List.cons.inj same).1 (by decide)
    have rest : (blockOf data).drop 5 = data := by
      rw [block]
      exact @List.drop_left _ (ofNat 2 data.length ++ ofNat 2 (65535 - data.length)) data
    simp only [blockMiniz, if_neg other, rest]
    rw [block]
    rfl

private def bhdPath : WString := wide "00.bhd.zz"

private def storesAll : StoreCalls := ⟨true, true, 4660, 86, true, true, true, true, true, true, true⟩

private def loadsAll : LoadCalls := ⟨true, true, true, true, true, true⟩

private def smallChecksum (_ : Bytes) : UInt64 := 0x08ef650210cdeb5b

private def smallStored : Bool × Disk :=
  mlBootBoostCacheStore blockMiniz smallChecksum storesAll (some bhdPath) (some (4660, 22136)) (some smallBhd)
    fun _ => none

private def smallLoaded (loads : LoadCalls) : Loaded :=
  mlBootBoostCacheLoad blockMiniz smallChecksum loads (some bhdPath) (some (4660, 22136))
    (some (smallBhd.take 24)) (some (List.replicate 24 0)) smallStored.2

private theorem smallStored_true : smallStored.1 = true := by decide

theorem mlBootBoostCache_law_small :
    (smallLoaded loadsAll).valid = true ∧ (smallLoaded loadsAll).output = some smallBhd := by
  have law := (mlBootBoostCache_law smallChecksum blockMiniz_undoes).loads storesAll bhdPath (4660, 22136)
    smallBhd (fun _ => none) smallStored.2 (Prod.ext smallStored_true rfl) loadsAll (4660, 22136)
    (smallBhd.take 24) (List.replicate 24 0) smallStored.2 rfl
  have valid := law.1.mpr ⟨⟨rfl, rfl, rfl, rfl, rfl⟩, rfl, rfl, rfl⟩
  exact ⟨valid, law.2 valid⟩

/-- Without memory for the deflated bytes a good file is refused, and deleted; it stays if `DeleteFileW` fails. -/
theorem mlBootBoostCacheLoad_without_memory :
    smallStored.1 = true ∧ smallStored.2 bhdPath ≠ none ∧
      (smallLoaded { loadsAll with allocate := false }).valid = false ∧
      (smallLoaded { loadsAll with allocate := false }).disk bhdPath = none ∧
      (smallLoaded { loadsAll with allocate := false, deleteFile := false }).valid = false ∧
      (smallLoaded { loadsAll with allocate := false, deleteFile := false }).disk bhdPath ≠ none := by
  decide

end Yafsml.Patches.BootBoostCache
