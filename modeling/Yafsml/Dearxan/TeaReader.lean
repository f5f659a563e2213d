import Mathlib.Data.Option.Basic
import Yafsml.Dearxan.RegionTable
import Yafsml.Dearxan.StubCiphers

/-!
# Region tables under TEA

`parse_tea_regions` decrypts a table block by block while it reads it.
-/

namespace Yafsml.Dearxan

open LittleEndian

/-- What changes in `tea_reader_t`: the offset of the next block, the block that is decrypted, and how
much of it was read. -/
structure TeaReader where
  offset : Nat
  block : List Byte
  blockOffset : Nat
  deriving DecidableEq, Repr

section Reader

variable (key : Key) (ciphertext : List Byte)

def teaReaderByte (reader : TeaReader) : Option (Byte × TeaReader) :=
  if reader.blockOffset = 8 then
    if ciphertext.length < reader.offset ∨ ciphertext.length - reader.offset < 8 then none
    else
      let block := (ciphertext.drop reader.offset).take 8
      let plain := dearxanTeaDecrypt key (field32 block 0, field32 block 4)
      let bytes := blockBytes plain.1 ++ blockBytes plain.2
      some (bytes.getD 0 0, ⟨reader.offset + 8, bytes, 1⟩)
  else
    some (reader.block.getD reader.blockOffset 0, { reader with blockOffset := reader.blockOffset + 1 })

def teaReaderVarint (shift result : Nat) (reader : TeaReader) : Option (Nat × TeaReader) :=
  match teaReaderByte key ciphertext reader with
  | none => none
  | some (byte, reader) =>
      let payload := byte.toNat % 128
      if _wide : 32 ≤ shift ∨ (payload ≠ 0 ∧ uint32Max / 2 ^ shift < payload) then none
      else
        let payload := payload * 2 ^ shift
        if uint32Max - payload < result then none
        else if byte.toNat < 128 then some (result + payload, reader)
        else teaReaderVarint (shift + 7) (result + payload) reader
termination_by 39 - shift
decreasing_by omega

/-- The loop of `parse_tea_regions`; `reserve` is what `dearxan_reserve_array` can do. -/
def parseTeaRegionsLoop (reserve : Nat → Bool) (items : List EncryptedRegion) (rva streamOffset : Nat)
    (reader : TeaReader) : Option RegionOutputs :=
  match teaReaderVarint key ciphertext 0 0 reader with
  | none => none
  | some (delta, reader) =>
      if _near : delta = 0 ∨ uint32Max - delta < rva then none
      else if rva + delta = uint32Max then some ⟨items, items.length, streamOffset⟩
      else
        match teaReaderVarint key ciphertext 0 0 reader with
        | none => none
        | some (size, reader) =>
            if size = 0 ∨ uint32Max - size < rva + delta ∨ sizeMax - size < streamOffset then none
            else if reserve (items.length + 1) then
              parseTeaRegionsLoop reserve (items ++ [⟨streamOffset, size, rva + delta⟩])
                (rva + delta + size) (streamOffset + size) reader
            else none
termination_by uint32Max - rva
decreasing_by omega

end Reader

def parseTeaRegions (reserve : Nat → Bool) (ciphertext keyBytes : List Byte) (out : RegionOutputs) :
    Bool × RegionOutputs :=
  match parseTeaRegionsLoop (teaKey keyBytes) ciphertext reserve [] 0 0
      ⟨0, List.replicate 8 0, 8⟩ with
  | some parsed => (true, parsed)
  | none => (false, out)

def teaPlaintext (key : Key) (ciphertext : List Byte) : List Byte :=
  BlockMode.run 8 (pairStep fun (_ : Unit) block => (dearxanTeaDecrypt key block, ())) ()
    (ciphertext.take (8 * (ciphertext.length / 8)))

theorem teaPlaintext_short {key : Key} {ciphertext : List Byte} (short : ciphertext.length < 8) :
    teaPlaintext key ciphertext = [] := by
  rw [teaPlaintext, Nat.div_eq_of_lt short]
  exact BlockMode.run_short (by simp)

theorem teaPlaintext_block {key : Key} {ciphertext : List Byte} (enough : 8 ≤ ciphertext.length) :
    teaPlaintext key ciphertext =
      (pairStep (fun (_ : Unit) block => (dearxanTeaDecrypt key block, ())) () (ciphertext.take 8)).1 ++
        teaPlaintext key (ciphertext.drop 8) := by
  have count : 8 * (ciphertext.length / 8) = 8 + 8 * ((ciphertext.drop 8).length / 8) := by
    rw [List.length_drop]
    omega
  rw [teaPlaintext, count, List.take_add,
    BlockMode.run_block (by decide) (List.length_take_of_le enough)]
  rfl

/-- The reader is in front of `bytes`. -/
structure Reads (key : Key) (ciphertext : List Byte) (reader : TeaReader) (bytes : List Byte) : Prop where
  length : reader.block.length = 8
  inside : reader.blockOffset ≤ 8
  left : reader.block.drop reader.blockOffset ++ teaPlaintext key (ciphertext.drop reader.offset) = bytes

section Reader

variable {key : Key} {ciphertext : List Byte} {reader : TeaReader} {bytes : List Byte}

theorem Reads.byte_none (reads : Reads key ciphertext reader bytes) (atEnd : bytes = []) :
    teaReaderByte key ciphertext reader = none := by
  obtain ⟨used, empty⟩ := List.append_eq_nil_iff.mp (reads.left.trans atEnd)
  have length := reads.length
  have inside := reads.inside
  have whole : reader.blockOffset = 8 := by
    have size := List.drop_eq_nil_iff.mp used
    omega
  rw [teaReaderByte, if_pos whole, if_pos]
  by_contra enough
  rw [teaPlaintext_block (by rw [List.length_drop]; omega)] at empty
  exact absurd (congrArg List.length empty) (by simp [pairStep, blockBytes])

theorem Reads.byte_some (reads : Reads key ciphertext reader bytes) {byte : Byte} {rest : List Byte}
    (more : bytes = byte :: rest) :
    ∃ reader', teaReaderByte key ciphertext reader = some (byte, reader') ∧
      Reads key ciphertext reader' rest := by
  obtain ⟨length, inside, left⟩ := reads
  rw [more] at left
  by_cases used : reader.blockOffset = 8
  · rw [used, List.drop_of_length_le (by omega), List.nil_append] at left
    have enough : 8 ≤ (ciphertext.drop reader.offset).length := by
      by_contra short
      rw [teaPlaintext_short (by omega)] at left
      cases left
    rw [teaPlaintext_block enough, List.drop_drop] at left
    rw [List.length_drop] at enough
    let block := (ciphertext.drop reader.offset).take 8
    let plain := dearxanTeaDecrypt key (field32 block 0, field32 block 4)
    obtain ⟨here, later⟩ := List.cons.inj left
    refine ⟨⟨reader.offset + 8, blockBytes plain.1 ++ blockBytes plain.2, 1⟩, ?_, rfl,
      Nat.le_of_ble_eq_true rfl, later⟩
    rw [teaReaderByte, if_pos used, if_neg (by omega)]
    exact congrArg (fun first => some (first, _)) here
  · have below : reader.blockOffset < reader.block.length := by omega
    rw [List.drop_eq_getElem_cons below] at left
    obtain ⟨here, left⟩ := List.cons.inj left
    refine ⟨{ reader with blockOffset := reader.blockOffset + 1 }, ?_, length, ?_, left⟩
    · rw [teaReaderByte, if_neg used, List.getD_eq_getElem?_getD,
        List.getElem?_eq_getElem below, Option.getD_some, here]
    · show reader.blockOffset + 1 ≤ 8
      omega

theorem Reads.varint (reads : Reads key ciphertext reader bytes) (shift result : Nat) :
    Option.Rel (fun found found' => found.1 = found'.1 ∧ Reads key ciphertext found.2 found'.2)
      (teaReaderVarint key ciphertext shift result reader) (readVarint shift result bytes) := by
  induction bytes generalizing shift result reader with
  | nil =>
      rw [teaReaderVarint, reads.byte_none rfl, readVarint]
      exact .none
  | cons byte rest ih =>
      obtain ⟨reader', read, reads'⟩ := reads.byte_some rfl
      rw [teaReaderVarint, read, readVarint]
      simp only
      split
      · exact .none
      · split
        · exact .none
        · split
          · exact .some ⟨rfl, reads'⟩
          · exact ih reads' _ _

theorem Reads.varint_none (reads : Reads key ciphertext reader bytes)
    (read : dearxanReadVarint bytes = none) : teaReaderVarint key ciphertext 0 0 reader = none := by
  have both := reads.varint 0 0
  rw [show readVarint 0 0 bytes = none from read] at both
  generalize teaReaderVarint key ciphertext 0 0 reader = found at both ⊢
  cases both
  rfl

theorem Reads.varint_some (reads : Reads key ciphertext reader bytes) {value : Nat} {rest : List Byte}
    (read : dearxanReadVarint bytes = some (value, rest)) :
    ∃ reader', teaReaderVarint key ciphertext 0 0 reader = some (value, reader') ∧
      Reads key ciphertext reader' rest := by
  have both := reads.varint 0 0
  rw [show readVarint 0 0 bytes = some (value, rest) from read] at both
  generalize teaReaderVarint key ciphertext 0 0 reader = found at both ⊢
  cases both with
  | @some found _ same =>
      obtain ⟨number, reader'⟩ := found
      obtain ⟨rfl, reads'⟩ := same
      exact ⟨reader', rfl, reads'⟩

theorem Reads.regions (reads : Reads key ciphertext reader bytes) (reserve : Nat → Bool)
    (items : List EncryptedRegion) (rva streamOffset : Nat) :
    parseTeaRegionsLoop key ciphertext reserve items rva streamOffset reader =
      parseRegionsLoop reserve items rva streamOffset bytes := by
  fun_induction parseRegionsLoop reserve items rva streamOffset bytes generalizing reader with
  | case1 items rva streamOffset bytes read =>
      rw [parseTeaRegionsLoop, reads.varint_none read]
  | case2 items rva streamOffset bytes delta rest read near =>
      obtain ⟨reader', read', reads'⟩ := reads.varint_some read
      rw [parseTeaRegionsLoop, read']
      simp only
      rw [dif_pos near]
  | case3 items rva streamOffset bytes delta rest read near reaches =>
      obtain ⟨reader', read', reads'⟩ := reads.varint_some read
      rw [parseTeaRegionsLoop, read']
      simp only
      rw [dif_neg near, if_pos reaches]
  | case4 items rva streamOffset bytes delta rest read near further read₂ =>
      obtain ⟨reader', read', reads'⟩ := reads.varint_some read
      rw [parseTeaRegionsLoop, read']
      simp only
      rw [dif_neg near, if_neg further, reads'.varint_none read₂]
  | case5 items rva streamOffset bytes delta rest read near further size rest₂ read₂ outside =>
      obtain ⟨reader', read', reads'⟩ := reads.varint_some read
      obtain ⟨reader₂, read₂', reads₂⟩ := reads'.varint_some read₂
      rw [parseTeaRegionsLoop, read']
      simp only
      rw [dif_neg near, if_neg further, read₂']
      simp only
      rw [if_pos outside]
  | case6 items rva streamOffset bytes delta rest read near further size rest₂ read₂ inside room ih =>
      obtain ⟨reader', read', reads'⟩ := reads.varint_some read
      obtain ⟨reader₂, read₂', reads₂⟩ := reads'.varint_some read₂
      rw [parseTeaRegionsLoop, read']
      simp only
      rw [dif_neg near, if_neg further, read₂']
      simp only
      rw [if_neg inside, if_pos room, ih reads₂]
  | case7 items rva streamOffset bytes delta rest read near further size rest₂ read₂ inside full =>
      obtain ⟨reader', read', reads'⟩ := reads.varint_some read
      obtain ⟨reader₂, read₂', reads₂⟩ := reads'.varint_some read₂
      rw [parseTeaRegionsLoop, read']
      simp only
      rw [dif_neg near, if_neg further, read₂']
      simp only
      rw [if_neg inside, if_neg full]

end Reader

theorem reads_start (key : Key) (ciphertext : List Byte) :
    Reads key ciphertext ⟨0, List.replicate 8 0, 8⟩ (teaPlaintext key ciphertext) :=
  ⟨rfl, Nat.le_refl 8, rfl⟩

/-- Reading a table through TEA is reading the plaintext of its whole blocks, whatever memory there is. -/
theorem parseTeaRegions_eq (reserve : Nat → Bool) (ciphertext keyBytes : List Byte) (out : RegionOutputs) :
    parseTeaRegions reserve ciphertext keyBytes out =
      parseEncryptedRegions reserve
        (decryptBlocks .tea keyBytes 0 (ciphertext.take (8 * (ciphertext.length / 8)))) out := by
  have same := (reads_start (teaKey keyBytes) ciphertext).regions reserve [] 0 0
  rw [parseTeaRegions, parseEncryptedRegions, same]
  rfl

end Yafsml.Dearxan
