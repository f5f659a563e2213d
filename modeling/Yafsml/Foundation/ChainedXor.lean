import Yafsml.Foundation.ByteRange

/-! # Chained xor

Each block of four bytes is combined with a key, and the key of the next block is taken from the block
before or after it was combined. The bytes that do not fill a block are left alone. -/

namespace Yafsml.LittleEndian

abbrev Block := BitVec 32

def blockOf (a b c d : Byte) : Block := d ++ c ++ b ++ a

def blockBytes (block : Block) : List Byte :=
  [block.extractLsb' 0 8, block.extractLsb' 8 8, block.extractLsb' 16 8, block.extractLsb' 24 8]

theorem blockOf_blockBytes (block : Block) :
    blockOf (block.extractLsb' 0 8) (block.extractLsb' 8 8) (block.extractLsb' 16 8)
      (block.extractLsb' 24 8) = block := by
  apply BitVec.eq_of_getLsbD_eq
  intro i below
  simp only [blockOf, BitVec.getLsbD_append, BitVec.getLsbD_extractLsb']
  split_ifs <;> grind

theorem blockBytes_blockOf (a b c d : Byte) : blockBytes (blockOf a b c d) = [a, b, c, d] := by
  simp only [blockBytes, blockOf, List.cons.injEq, and_true]
  refine ⟨?_, ?_, ?_, ?_⟩ <;>
  · apply BitVec.eq_of_getLsbD_eq
    intro i below
    simp only [BitVec.getLsbD_append, BitVec.getLsbD_extractLsb']
    grind

/-- `next` chooses the next key from the block that went in and the one that came out. -/
def chain (next : Block → Block → Block) : Block → List Byte → List Byte × Block
  | key, a :: b :: c :: d :: rest =>
      let block := blockOf a b c d
      let (out, last) := chain next (next block (block ^^^ key)) rest
      (blockBytes (block ^^^ key) ++ out, last)
  | key, short => (short, key)

def chainDecrypt : Block → List Byte → List Byte × Block := chain fun block _ => block

def chainEncrypt : Block → List Byte → List Byte × Block := chain fun _ out => out

@[simp] theorem chain_cons (next : Block → Block → Block) (key : Block) (a b c d : Byte) (rest : List Byte) :
    chain next key (a :: b :: c :: d :: rest) =
      (blockBytes (blockOf a b c d ^^^ key) ++
          (chain next (next (blockOf a b c d) (blockOf a b c d ^^^ key)) rest).1,
        (chain next (next (blockOf a b c d) (blockOf a b c d ^^^ key)) rest).2) := rfl

theorem chain_blockBytes (next : Block → Block → Block) (key block : Block) (rest : List Byte) :
    chain next key (blockBytes block ++ rest) =
      (blockBytes (block ^^^ key) ++ (chain next (next block (block ^^^ key)) rest).1,
        (chain next (next block (block ^^^ key)) rest).2) := by
  show chain next key (_ :: _ :: _ :: _ :: rest) = _
  rw [chain_cons, blockOf_blockBytes]

theorem length_chain (next : Block → Block → Block) (key : Block) (bytes : List Byte) :
    (chain next key bytes).1.length = bytes.length := by
  fun_induction chain next key bytes with
  | case1 key a b c d rest block out last found ih =>
      rw [found] at ih
      simpa [blockBytes] using ih
  | case2 => rfl

theorem chain_chain {next next' : Block → Block → Block}
    (same : ∀ block key, next' (block ^^^ key) block = next block (block ^^^ key)) (key : Block)
    (bytes : List Byte) : chain next' key (chain next key bytes).1 = (bytes, (chain next key bytes).2) := by
  fun_induction chain next key bytes with
  | case1 key a b c d rest block out last found ih =>
      rw [found] at ih
      have cancelled : block ^^^ key ^^^ key = block := by
        rw [BitVec.xor_assoc, BitVec.xor_self, BitVec.xor_zero]
      show chain next' key (blockBytes (block ^^^ key) ++ out) = _
      rw [chain_blockBytes, cancelled, same, ih]
      simp only [block, blockBytes_blockOf, List.cons_append, List.nil_append]
  | case2 key short whole =>
      rcases short with _ | ⟨a, _ | ⟨b, _ | ⟨c, _ | ⟨d, rest⟩⟩⟩⟩
      · rfl
      · rfl
      · rfl
      · rfl
      · exact (whole a b c d rest rfl).elim

theorem chainDecrypt_chainEncrypt (key : Block) (bytes : List Byte) :
    chainDecrypt key (chainEncrypt key bytes).1 = (bytes, (chainEncrypt key bytes).2) :=
  chain_chain (fun _ _ => rfl) key bytes

theorem chainEncrypt_chainDecrypt (key : Block) (bytes : List Byte) :
    chainEncrypt key (chainDecrypt key bytes).1 = (bytes, (chainDecrypt key bytes).2) :=
  chain_chain (fun _ _ => rfl) key bytes

def field32 (bytes : List Byte) (offset : Nat) : Block :=
  blockOf (bytes.getD offset 0) (bytes.getD (offset + 1) 0) (bytes.getD (offset + 2) 0)
    (bytes.getD (offset + 3) 0)

def field64 (bytes : List Byte) (offset : Nat) : Word := field32 bytes (offset + 4) ++ field32 bytes offset

def setField32 (bytes : List Byte) (offset : Nat) (value : Block) : List Byte :=
  overwrite bytes offset (blockBytes value)

def setField64 (bytes : List Byte) (offset : Nat) (value : Word) : List Byte :=
  setField32 (setField32 bytes offset (value.extractLsb' 0 32)) (offset + 4) (value.extractLsb' 32 32)

theorem length_setField32 {bytes : List Byte} {offset : Nat} (fits : offset + 4 ≤ bytes.length)
    (value : Block) : (setField32 bytes offset value).length = bytes.length := length_overwrite fits

theorem length_setField64 {bytes : List Byte} {offset : Nat} (fits : offset + 8 ≤ bytes.length)
    (value : Word) : (setField64 bytes offset value).length = bytes.length := by
  unfold setField64
  rw [length_setField32, length_setField32 (by omega)]
  rw [length_setField32 (by omega)]
  omega

theorem field32_setField32 {bytes : List Byte} {offset : Nat} (fits : offset + 4 ≤ bytes.length)
    (value : Block) : field32 (setField32 bytes offset value) offset = value := by
  unfold field32 setField32
  simp only [List.getD_eq_getElem?_getD]
  have at_byte (k : Nat) (below : k < 4) :
      (overwrite bytes offset (blockBytes value))[offset + k]? = (blockBytes value)[k]? := by
    rw [getElem?_overwrite (by exact fits), if_pos ⟨by omega, by exact Nat.add_lt_add_left below _⟩]
    congr 1
    omega
  have first := at_byte 0 (by decide)
  rw [Nat.add_zero] at first
  rw [first, at_byte 1 (by decide), at_byte 2 (by decide), at_byte 3 (by decide)]
  exact blockOf_blockBytes value

theorem field32_congr {bytes bytes' : List Byte} {offset : Nat}
    (same : Range.read ⟨offset, 4⟩ bytes = Range.read ⟨offset, 4⟩ bytes') :
    field32 bytes offset = field32 bytes' offset := by
  have at_byte (k : Nat) (below : k < 4) : bytes.getD (offset + k) 0 = bytes'.getD (offset + k) 0 := by
    have := congrArg (·[k]?) same
    simp only [Range.getElem?_read, below, if_true] at this
    rw [List.getD_eq_getElem?_getD, this, List.getD_eq_getElem?_getD]
  unfold field32
  have first := at_byte 0 (by decide)
  rw [Nat.add_zero] at first
  rw [first, at_byte 1 (by decide), at_byte 2 (by decide), at_byte 3 (by decide)]

theorem field64_congr {bytes bytes' : List Byte} {offset : Nat}
    (same : Range.read ⟨offset, 8⟩ bytes = Range.read ⟨offset, 8⟩ bytes') :
    field64 bytes offset = field64 bytes' offset := by
  have half (shift : Nat) (inside : shift + 4 ≤ 8) :
      Range.read ⟨offset + shift, 4⟩ bytes = Range.read ⟨offset + shift, 4⟩ bytes' := by
    apply List.ext_getElem?
    intro k
    have := congrArg (·[shift + k]?) same
    simp only [Range.getElem?_read] at this ⊢
    split_ifs with below
    · rw [if_pos (by omega), if_pos (by omega)] at this
      rw [Nat.add_assoc]
      exact this
    · rfl
  have first := half 0 (by decide)
  rw [Nat.add_zero] at first
  unfold field64
  rw [field32_congr (half 4 (by decide)), field32_congr first]

theorem read_setField32 {bytes : List Byte} {offset : Nat} {r : Range} (fits : offset + 4 ≤ bytes.length)
    (apart : r.Apart ⟨offset, 4⟩) (value : Block) : r.read (setField32 bytes offset value) = r.read bytes :=
  read_overwrite_apart fits apart

theorem read_setField64 {bytes : List Byte} {offset : Nat} {r : Range} (fits : offset + 8 ≤ bytes.length)
    (apart : r.Apart ⟨offset, 8⟩) (value : Word) : r.read (setField64 bytes offset value) = r.read bytes := by
  have fits' : offset + 4 ≤ bytes.length := by omega
  unfold setField64
  rw [read_setField32 (by rw [length_setField32 fits']; omega), read_setField32 fits']
  · rintro k inside ⟨lower, upper⟩
    exact apart k inside ⟨lower, by simp only at upper ⊢; omega⟩
  · rintro k inside ⟨lower, upper⟩
    exact apart k inside ⟨by simp only at lower ⊢; omega, by simp only at upper ⊢; omega⟩

theorem setField32_setField32 {bytes : List Byte} {offset : Nat} (fits : offset + 4 ≤ bytes.length)
    (value value' : Block) :
    setField32 (setField32 bytes offset value) offset value' = setField32 bytes offset value' := by
  apply List.ext_getElem?
  intro k
  unfold setField32
  have fits' : offset + (blockBytes value').length ≤ (overwrite bytes offset (blockBytes value)).length := by
    rw [length_overwrite (by exact fits)]
    exact fits
  rw [getElem?_overwrite fits', getElem?_overwrite (by exact fits), getElem?_overwrite (by exact fits)]
  split_ifs with first second
  · rfl
  · exact (first second).elim
  · rfl

theorem setField32_field32 {bytes : List Byte} {offset : Nat} (fits : offset + 4 ≤ bytes.length) :
    setField32 bytes offset (field32 bytes offset) = bytes := by
  have block : blockBytes (field32 bytes offset) =
      [bytes.getD offset 0, bytes.getD (offset + 1) 0, bytes.getD (offset + 2) 0, bytes.getD (offset + 3) 0] :=
    blockBytes_blockOf _ _ _ _
  have inside (k : Nat) (below : k < 4) : some (bytes.getD (offset + k) 0) = bytes[offset + k]? := by
    rw [List.getD_eq_getElem?_getD, List.getElem?_eq_getElem (by omega), Option.getD_some]
  apply List.ext_getElem?
  intro k
  rw [setField32, getElem?_overwrite (by exact fits), block]
  split_ifs with here
  · obtain ⟨j, rfl⟩ := Nat.exists_eq_add_of_le here.1
    have below : j < 4 := by
      have := here.2
      simp only [List.length_cons, List.length_nil] at this
      omega
    rw [Nat.add_sub_cancel_left]
    match j, below with
    | 0, below => exact inside 0 below
    | 1, below => exact inside 1 below
    | 2, below => exact inside 2 below
    | 3, below => exact inside 3 below
  · rfl

theorem setField64_field64 {bytes : List Byte} {offset : Nat} (fits : offset + 8 ≤ bytes.length) :
    setField64 bytes offset (field64 bytes offset) = bytes := by
  have lower : (field64 bytes offset).extractLsb' 0 32 = field32 bytes offset := by
    apply BitVec.eq_of_getLsbD_eq
    intro i below
    simp only [field64, BitVec.getLsbD_append, BitVec.getLsbD_extractLsb']
    grind
  have upper : (field64 bytes offset).extractLsb' 32 32 = field32 bytes (offset + 4) := by
    apply BitVec.eq_of_getLsbD_eq
    intro i below
    simp only [field64, BitVec.getLsbD_append, BitVec.getLsbD_extractLsb']
    grind
  rw [setField64, lower, upper, setField32_field32 (by omega), setField32_field32 (by omega)]

theorem field64_setField64 {bytes : List Byte} {offset : Nat} (fits : offset + 8 ≤ bytes.length)
    (value : Word) : field64 (setField64 bytes offset value) offset = value := by
  have fits' : offset + 4 ≤ bytes.length := by omega
  have fits'' : offset + 4 + 4 ≤ (setField32 bytes offset (value.extractLsb' 0 32)).length := by
    rw [length_setField32 fits']
    omega
  unfold field64 setField64
  rw [field32_setField32 fits'',
    field32_congr (read_setField32 fits'' (Range.apart_of_le (Nat.le_refl _)) _), field32_setField32 fits']
  apply BitVec.eq_of_getLsbD_eq
  intro i below
  simp only [BitVec.getLsbD_append, BitVec.getLsbD_extractLsb']
  grind

theorem field32_chainEncrypt {bytes : List Byte} (two : 8 ≤ bytes.length) :
    field32 (chainEncrypt 0 bytes).1 0 ^^^ field32 (chainEncrypt 0 bytes).1 4 = field32 bytes 4 := by
  match bytes, two with
  | a :: b :: c :: d :: e :: f :: g :: h :: rest, _ =>
      have first : field32 (chainEncrypt 0 (a :: b :: c :: d :: e :: f :: g :: h :: rest)).1 0
          = blockOf a b c d ^^^ 0 := by
        simp [chainEncrypt, field32, blockBytes, blockOf_blockBytes]
      have second : field32 (chainEncrypt 0 (a :: b :: c :: d :: e :: f :: g :: h :: rest)).1 4
          = blockOf e f g h ^^^ (blockOf a b c d ^^^ 0) := by
        simp only [chainEncrypt, chain_cons]
        simp [field32, blockBytes, blockOf_blockBytes]
      rw [first, second, BitVec.xor_comm, BitVec.xor_assoc, BitVec.xor_self, BitVec.xor_zero]
      rfl

end Yafsml.LittleEndian
