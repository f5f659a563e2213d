import Mathlib.Tactic.SplitIfs
import Yafsml.Patches.BootBoostCache

/-! # What the cache of archive headers gives back -/

namespace Yafsml.Patches.BootBoostCache

open ByteFields Cursor

variable {miniz : Miniz} {checksum : Bytes → UInt64} {key : UInt64 × UInt64} {path temporary : WString}
  {disk : Disk}

/-! ## Storing -/

theorem temporaryPath_ne (path : WString) (processId threadId : UInt32) :
    temporaryPath path processId threadId ≠ path := by
  intro same
  have longer := congrArg List.length same
  simp only [temporaryPath, List.length_append] at longer
  have dots : (wide ".").length = 1 := rfl
  omega

theorem moveFile_true {succeeds : Bool} {source target : WString} {disk' : Disk}
    (moved : moveFile succeeds disk source target = (true, disk')) :
    disk' target = disk source := by
  cases succeeds with
  | false => cases moved
  | true =>
      cases held : disk source with
      | none =>
          simp only [moveFile, held] at moved
          cases moved
      | some contents =>
          simp only [moveFile, held, Prod.mk.injEq, true_and] at moved
          rw [← moved, Function.update_self]

theorem moveFile_false {succeeds : Bool} {source target : WString} {disk' : Disk}
    (failed : moveFile succeeds disk source target = (false, disk')) : disk' = disk := by
  cases succeeds with
  | false =>
      simp only [moveFile, Prod.mk.injEq, true_and] at failed
      exact failed.symm
  | true =>
      cases held : disk source with
      | none =>
          simp only [moveFile, held, Prod.mk.injEq, true_and] at failed
          exact failed.symm
      | some contents =>
          simp only [moveFile, held] at failed
          cases failed

theorem writeCache_whole {calls : StoreCalls} {header : CacheHeader} {compressed file : Bytes}
    (written : writeCache calls header compressed = (file, true)) :
    file = header.toBytes ++ compressed := by
  cases first : calls.writeHeader with
  | false =>
      simp only [writeCache, writeFile, first, Bool.false_eq_true, if_false] at written
      cases written
  | true =>
      simp only [writeCache, writeFile, first, if_true, List.nil_append] at written
      by_cases short : header.toBytes.length ≠ cacheHeaderSize
      · rw [if_pos short] at written
        cases written
      rw [if_neg short] at written
      cases second : calls.writeCompressed with
      | false =>
          simp only [second, Bool.false_eq_true, if_false] at written
          cases written
      | true =>
          simp only [second, if_true, Prod.mk.injEq] at written
          exact written.1.symm

section Replace

variable {calls : StoreCalls} {header : CacheHeader} {compressed : Bytes} {disk' : Disk}

theorem replaceCache_true
    (replaced : replaceCache calls header compressed temporary path disk = (true, disk')) :
    disk' path = some (header.toBytes ++ compressed) := by
  unfold replaceCache at replaced
  split_ifs at replaced with refused
  · cases replaced
  cases written : writeCache calls header compressed with
  | mk file whole =>
      simp only [written] at replaced
      cases whole with
      | false => cases replaced
      | true => rw [moveFile_true replaced, Function.update_self, writeCache_whole written]

theorem replaceCache_false (apart : temporary ≠ path)
    (failed : replaceCache calls header compressed temporary path disk = (false, disk')) :
    disk' path = disk path := by
  unfold replaceCache at failed
  split_ifs at failed with refused
  · cases failed
    rfl
  cases written : writeCache calls header compressed with
  | mk file whole =>
      have kept : Function.update disk temporary (some file) path = disk path :=
        Function.update_of_ne apart.symm _ _
      simp only [written] at failed
      cases whole with
      | false =>
          cases failed
          exact kept
      | true => rw [moveFile_false failed, kept]

end Replace

theorem deleteFile_other {succeeds : Bool} (apart : temporary ≠ path) :
    deleteFile succeeds disk temporary path = disk path := by
  cases succeeds with
  | false => rfl
  | true => exact Function.update_of_ne apart.symm _ _

structure Holds (miniz : Miniz) (checksum : Bytes → UInt64) (key : UInt64 × UInt64)
    (data compressed contents : Bytes) : Prop where
  small : data.length ≤ uint32Max
  valid : mlBhd5HeaderValid data data.length = true
  deflated : ∃ room, compressed = miniz.compress room data
  nonempty : compressed ≠ []
  fits : compressed.length ≤ uint32Max
  whole : contents = (cacheHeader checksum key data compressed).toBytes ++ compressed

theorem mlBootBoostCacheStore_done {calls : StoreCalls} {path : Option WString}
    {key : Option (UInt64 × UInt64)} {data : Option Bytes} {result : Bool} {disk' : Disk}
    (ends : mlBootBoostCacheStore miniz checksum calls path key data disk = (result, disk')) :
    result = false ∧ disk' = disk ∨
    ∃ path' key' data' bound stored, path = some path' ∧ key = some key' ∧ data = some data' ∧
      data'.length ≤ uint32Max ∧ mlBhd5HeaderValid data' data'.length = true ∧
      (if (miniz.compress bound data').length = 0 || uint32Max < (miniz.compress bound data').length then
          (false, disk)
        else replaceCache calls (cacheHeader checksum key' data' (miniz.compress bound data'))
          (miniz.compress bound data') (temporaryPath path' calls.processId calls.threadId) path' disk) =
        (result, stored) ∧
      disk' = if result then stored else
        deleteFile calls.deleteFile stored (temporaryPath path' calls.processId calls.threadId) := by
  unfold mlBootBoostCacheStore at ends
  split at ends
  · rename_i path key data
    by_cases refused : (uint32Max < data.length || !mlBhd5HeaderValid data data.length) = true
    · rw [if_pos refused] at ends
      cases ends
      exact .inl ⟨rfl, rfl⟩
    rw [if_neg refused] at ends
    by_cases unready : (!calls.scwprintf || !calls.allocateTemporary || !calls.allocateCompressed) = true
    · rw [if_pos unready] at ends
      cases ends
      exact .inl ⟨rfl, rfl⟩
    rw [if_neg unready] at ends
    simp only [Bool.or_eq_true, decide_eq_true_eq, not_or, not_lt, Bool.not_eq_true',
      Bool.not_eq_false] at refused
    cases ends
    exact .inr ⟨path, key, data, _, _, rfl, rfl, rfl, refused.1, refused.2, rfl, rfl⟩
  · cases ends
    exact .inl ⟨rfl, rfl⟩

theorem mlBootBoostCacheStore_true {calls : StoreCalls} {data : Bytes} {disk' : Disk}
    (stored : mlBootBoostCacheStore miniz checksum calls (some path) (some key) (some data) disk =
      (true, disk')) :
    ∃ compressed contents, disk' path = some contents ∧
      Holds miniz checksum key data compressed contents := by
  obtain ⟨failed, -⟩ | ⟨_, _, _, bound, disk'', ⟨⟩, ⟨⟩, ⟨⟩, small, valid, replaced, rfl⟩ :=
    mlBootBoostCacheStore_done stored
  · cases failed
  by_cases unfit : ((miniz.compress bound data).length = 0 ||
      uint32Max < (miniz.compress bound data).length) = true
  · rw [if_pos unfit] at replaced
    cases replaced
  rw [if_neg unfit] at replaced
  simp only [Bool.or_eq_true, decide_eq_true_eq, not_or, not_lt] at unfit
  have nonempty : miniz.compress bound data ≠ [] :=
    List.ne_nil_of_length_pos (Nat.pos_of_ne_zero unfit.1)
  exact ⟨_, _, replaceCache_true replaced, small, valid, ⟨bound, rfl⟩, nonempty, unfit.2, rfl⟩

theorem mlBootBoostCacheStore_false {calls : StoreCalls} {key : Option (UInt64 × UInt64)}
    {data : Option Bytes} {disk' : Disk}
    (failed : mlBootBoostCacheStore miniz checksum calls (some path) key data disk = (false, disk')) :
    disk' path = disk path := by
  obtain ⟨-, rfl⟩ | ⟨_, _, data, bound, disk'', ⟨⟩, -, -, -, -, replaced, rfl⟩ :=
    mlBootBoostCacheStore_done failed
  · rfl
  have apart := temporaryPath_ne path calls.processId calls.threadId
  have kept : disk'' path = disk path := by
    split_ifs at replaced with unfit
    · cases replaced
      rfl
    · exact replaceCache_false apart replaced
  exact (deleteFile_other apart).trans kept

/-! ## Loading -/

structure CacheHeader.Fits (header : CacheHeader) (key : UInt64 × UInt64)
    (outputSize compressedSize : Nat) : Prop where
  magic : header.magic = cacheMagic
  version : header.version = cacheVersion
  headerSize : header.headerSize.toNat = cacheHeaderSize
  key : header.key = key
  uncompressedSize : header.uncompressedSize.toNat = outputSize
  compressedSize : header.compressedSize.toNat = compressedSize

/-- The calls that bring the contents of a file into memory succeed. -/
structure LoadCalls.Succeed (calls : LoadCalls) : Prop where
  createFile : calls.createFile = true
  getFileSize : calls.getFileSize = true
  readHeader : calls.readHeader = true
  allocate : calls.allocate = true
  readCompressed : calls.readCompressed = true

theorem readCache_iff {calls : LoadCalls} {outputSize : Nat} {contents compressed : Bytes}
    {header : CacheHeader} :
    readCache calls key outputSize contents = some (header, compressed) ↔
      calls.getFileSize = true ∧ calls.readHeader = true ∧ calls.allocate = true ∧
      calls.readCompressed = true ∧ cacheHeaderSize < contents.length ∧ contents.length ≤ sizeMax ∧
      header = .ofBytes (contents.take cacheHeaderSize) ∧ compressed = contents.drop cacheHeaderSize ∧
      header.Fits key outputSize compressed.length := by
  have taken (enough : cacheHeaderSize ≤ contents.length) :
      (contents.take cacheHeaderSize).length = cacheHeaderSize := List.length_take_of_le enough
  constructor
  · intro read
    unfold readCache at read
    split_ifs at read with unfit
    simp only [Bool.or_eq_true, Bool.not_eq_true', Bool.not_eq_false, decide_eq_true_eq, not_or,
      not_lt] at unfit
    obtain ⟨bytes, first, read⟩ := Option.bind_eq_some_iff.mp read
    unfold readFile at first
    split_ifs at first with readable
    cases first
    dsimp only at read
    split_ifs at read with foreign refused
    push Not at foreign
    simp only [Bool.or_eq_true, Bool.not_eq_true', Bool.not_eq_false, decide_eq_true_eq, not_or] at refused
    obtain ⟨rest, second, read⟩ := Option.bind_eq_some_iff.mp read
    obtain ⟨-, magic, version, headerSize, low, high, uncompressed, compressed⟩ := foreign
    unfold readFile at second
    split_ifs at second with readable'
    cases second
    have behind : (contents.drop cacheHeaderSize).length = contents.length - cacheHeaderSize :=
      List.length_drop
    have whole : (contents.drop cacheHeaderSize).take
        (CacheHeader.ofBytes (contents.take cacheHeaderSize)).compressedSize.toNat =
        contents.drop cacheHeaderSize := List.take_of_length_le (by omega)
    split_ifs at read with short
    cases read
    rw [whole]
    refine ⟨unfit.1.1, readable, refused.2, readable', ?_, unfit.2, rfl, rfl, magic, version, headerSize,
      Prod.ext low high, uncompressed, compressed.trans behind.symm⟩
    omega
  · rintro ⟨size, readable, allocated, readable', long, fits, rfl, rfl, matching⟩
    have behind : (contents.drop cacheHeaderSize).length = contents.length - cacheHeaderSize :=
      List.length_drop
    have unfit :
        ¬ (!calls.getFileSize || contents.length < cacheHeaderSize || sizeMax < contents.length) = true := by
      simp only [size, Bool.not_true, Bool.false_or, Bool.or_eq_true, decide_eq_true_eq, not_or, not_lt]
      exact ⟨long.le, fits⟩
    have refused : ¬ ((CacheHeader.ofBytes (contents.take cacheHeaderSize)).compressedSize.toNat = 0 ||
        !calls.allocate) = true := by
      rw [matching.compressedSize, behind, allocated]
      simp only [Bool.not_true, Bool.or_false, decide_eq_true_eq]
      omega
    rw [readCache, if_neg unfit, readFile, if_pos readable, Option.bind_eq_bind, Option.bind_some]
    dsimp only
    rw [if_neg, if_neg refused, readFile, if_pos readable', Option.bind_some,
      matching.compressedSize, List.take_length, if_neg (by simp)]
    rw [matching.compressedSize, behind]
    simp [taken long.le, matching.magic, matching.version, matching.headerSize, matching.key,
      matching.uncompressedSize]

section Load

variable {calls : LoadCalls} {bhdHeader output output' contents : Bytes}

theorem length_into (inflated : Inflated) (output : Bytes) :
    (inflated.into output).length = output.length := by
  rw [Inflated.into, List.length_take, List.length_append, List.length_drop]
  omega

theorem into_produced {inflated : Inflated} (whole : inflated.produced.length = output.length) :
    inflated.into output = inflated.produced := by
  rw [Inflated.into, List.drop_eq_nil_of_le whole.ge, List.append_nil, ← whole, List.take_length]

theorem inflateCache_true
    (valid : inflateCache miniz checksum calls key bhdHeader output contents = (true, output')) :
    ∃ header compressed, readCache calls key output.length contents = some (header, compressed) ∧
      output'.length = output.length ∧
      miniz.decompress compressed output.length = ⟨true, compressed.length, output'⟩ ∧
      checksum output' = header.checksum ∧ output'.take 24 = bhdHeader.take 24 := by
  unfold inflateCache at valid
  cases read : readCache calls key output.length contents with
  | none =>
      rw [read] at valid
      cases valid
  | some pair =>
      obtain ⟨header, compressed⟩ := pair
      rw [read] at valid
      obtain ⟨checks, same⟩ := Prod.mk.inj valid
      subst same
      simp only [inflatedWhole, Bool.and_eq_true, beq_iff_eq, length_into] at checks
      obtain ⟨⟨⟨⟨⟨done, consumed⟩, produced⟩, checked⟩, -⟩, front⟩ := checks
      refine ⟨header, compressed, rfl, length_into _ _, ?_, checked, front⟩
      rw [into_produced produced, ← done, ← consumed]

theorem inflateCache_of {header : CacheHeader} {compressed : Bytes}
    (read : readCache calls key output.length contents = some (header, compressed))
    (length : output'.length = output.length)
    (inflated : miniz.decompress compressed output.length = ⟨true, compressed.length, output'⟩)
    (checked : checksum output' = header.checksum)
    (valid : mlBhd5HeaderValid output' output'.length = true)
    (front : output'.take 24 = bhdHeader.take 24) :
    inflateCache miniz checksum calls key bhdHeader output contents = (true, output') := by
  have whole : Inflated.into ⟨true, compressed.length, output'⟩ output = output' := into_produced length
  simp only [inflateCache, read, inflated, whole, inflatedWhole, checked, valid, front, beq_self_eq_true,
    Bool.and_self]

/-- What `boot_boost_mount` takes a load for: a buffer whose file is in order, or none. -/
def cacheDecoded (miniz : Miniz) (checksum : Bytes → UInt64) (calls : LoadCalls) (key : UInt64 × UInt64)
    (output contents : Bytes) : Option Bytes :=
  (readCache calls key output.length contents).bind fun (header, compressed) =>
    let inflated := miniz.decompress compressed output.length
    let output := inflated.into output
    if inflatedWhole checksum header compressed inflated output then some output else none

theorem inflateCache_decoded :
    (if (inflateCache miniz checksum calls key bhdHeader output contents).1 then
      some (inflateCache miniz checksum calls key bhdHeader output contents).2 else none) =
      Patches.mlBootBoostCacheLoad (cacheDecoded miniz checksum calls key output contents) bhdHeader
        output.length := by
  cases read : readCache calls key output.length contents with
  | none => simp only [inflateCache, cacheDecoded, read, Option.bind_none, Patches.mlBootBoostCacheLoad,
      Bool.false_eq_true, if_false]
  | some pair =>
      obtain ⟨header, compressed⟩ := pair
      have length := length_into (miniz.decompress compressed output.length) output
      simp only [inflateCache, cacheDecoded, read, Option.bind_some]
      cases whole : inflatedWhole checksum header compressed (miniz.decompress compressed output.length)
          ((miniz.decompress compressed output.length).into output) with
      | false => simp [Patches.mlBootBoostCacheLoad]
      | true => simp [Patches.mlBootBoostCacheLoad, length]

theorem mlBootBoostCacheLoad_opened (room : 24 ≤ output.length) (small : output.length ≤ uint32Max)
    (opened : calls.createFile = true) (held : disk path = some contents) :
    mlBootBoostCacheLoad miniz checksum calls (some path) (some key) (some bhdHeader) (some output) disk =
      ⟨(inflateCache miniz checksum calls key bhdHeader output contents).1,
        some (inflateCache miniz checksum calls key bhdHeader output contents).2,
        if (inflateCache miniz checksum calls key bhdHeader output contents).1 then disk
        else deleteFile calls.deleteFile disk path⟩ := by
  have fits : ¬ (output.length < 24 || uint32Max < output.length) = true := by
    simp only [Bool.or_eq_true, decide_eq_true_eq, not_or, not_lt]
    exact ⟨room, small⟩
  simp only [mlBootBoostCacheLoad, if_neg fits, if_pos opened, held]

theorem mlBootBoostCacheLoad_cases (path : Option WString) (key : Option (UInt64 × UInt64))
    (bhdHeader output : Option Bytes) :
    mlBootBoostCacheLoad miniz checksum calls path key bhdHeader output disk = ⟨false, output, disk⟩ ∨
    ∃ path' key' bhdHeader' output' contents, path = some path' ∧ key = some key' ∧
      bhdHeader = some bhdHeader' ∧ output = some output' ∧ 24 ≤ output'.length ∧
      output'.length ≤ uint32Max ∧ calls.createFile = true ∧ disk path' = some contents := by
  cases path with
  | none => exact .inl rfl
  | some path =>
  cases key with
  | none => exact .inl rfl
  | some key =>
  cases bhdHeader with
  | none => exact .inl rfl
  | some bhdHeader =>
  cases output with
  | none => exact .inl rfl
  | some output =>
      by_cases unfit : (output.length < 24 || uint32Max < output.length) = true
      · left
        simp only [mlBootBoostCacheLoad, if_pos unfit]
      cases opened : if calls.createFile = true then disk path else none with
      | none =>
          left
          simp only [mlBootBoostCacheLoad, if_neg unfit, opened]
      | some contents =>
          simp only [Bool.or_eq_true, decide_eq_true_eq, not_or, not_lt] at unfit
          split_ifs at opened with created
          exact .inr ⟨path, key, bhdHeader, output, contents, rfl, rfl, rfl, rfl, unfit.1, unfit.2, created,
            opened⟩

end Load

end Yafsml.Patches.BootBoostCache
