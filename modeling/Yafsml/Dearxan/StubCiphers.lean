import Mathlib.Logic.Function.Iterate
import Yafsml.Dearxan.Steamstub
import Yafsml.Foundation.BlockMode

/-! # The ciphers of the stubs -/

namespace Yafsml.Dearxan

open LittleEndian

abbrev Key := Fin 4 → BitVec 32

structure TeaRound where
  first : BitVec 32
  second : BitVec 32
  sum : BitVec 32

def teaDelta : BitVec 32 := 0x9E3779B9#32

def teaSum : BitVec 32 := 0xC6EF3720#32

def teaMix (word sum left right : BitVec 32) : BitVec 32 :=
  (word <<< 4 + left) ^^^ (word + sum) ^^^ (word >>> 5 + right)

def teaRound (key : Key) (state : TeaRound) : TeaRound :=
  let second := state.second - teaMix state.first state.sum (key 2) (key 3)
  ⟨state.first - teaMix second state.sum (key 0) (key 1), second, state.sum - teaDelta⟩

def dearxanTeaDecrypt (key : Key) (block : Block × Block) : Block × Block :=
  let state := (teaRound key)^[32] ⟨block.1, block.2, teaSum⟩
  (state.first, state.second)

def rotateLeft32 (value count : BitVec 32) : BitVec 32 :=
  let count := count &&& 31
  if count = 0 then value else value <<< count ||| value >>> (32 - count)

def dearxanRmxDecrypt (state : Block × Block) (block : Block) : Block × (Block × Block) :=
  let key := rotateLeft32 state.1 state.2
  let plain := block - key * state.2
  (plain, (key, state.2 ^^^ ~~~plain))

def dearxanSubDecrypt (block key : Block) : Block := key - block

inductive DecryptionKind
  | tea
  | rmx
  | sub
  deriving DecidableEq, Repr

def DecryptionKind.blockSize : DecryptionKind → Nat
  | .tea => 8
  | .rmx => 4
  | .sub => 4

def wordStep {σ : Type*} (cipher : σ → Block → Block × σ) (s : σ) (bytes : List Byte) : List Byte × σ :=
  let (out, s') := cipher s (field32 bytes 0)
  (blockBytes out, s')

def pairStep {σ : Type*} (cipher : σ → Block × Block → (Block × Block) × σ) (s : σ) (bytes : List Byte) :
    List Byte × σ :=
  let (out, s') := cipher s (field32 bytes 0, field32 bytes 4)
  (blockBytes out.1 ++ blockBytes out.2, s')

def teaKey (keyBytes : List Byte) : Key := fun i => field32 keyBytes (4 * i)

/-- The loops of `decrypt_stream` over its copy of the ciphertext. -/
def decryptBlocks (kind : DecryptionKind) (keyBytes : List Byte) (key32 : BitVec 32)
    (bytes : List Byte) : List Byte :=
  match kind with
  | .tea => BlockMode.run 8
      (pairStep fun (_ : Unit) block => (dearxanTeaDecrypt (teaKey keyBytes) block, ())) () bytes
  | .rmx => BlockMode.run 4 (wordStep dearxanRmxDecrypt) (key32, key32 &&& 0x1f#32) bytes
  | .sub => BlockMode.run 4
      (wordStep fun (_ : Unit) block => (dearxanSubDecrypt block key32, ())) () bytes

def encryptedSize (kind : DecryptionKind) (streamSize : Nat) : Nat :=
  (streamSize + kind.blockSize - 1) / kind.blockSize * kind.blockSize

/-- `decrypt_stream` on the bytes from the ciphertext on; `memory` is whether `malloc` succeeds. -/
def decryptStream (kind : DecryptionKind) (ciphertext : Option (List Byte)) (streamSize : Nat)
    (keyBytes : List Byte) (key32 : BitVec 32) (memory : Bool) : Option (List Byte) :=
  if sizeMax - (kind.blockSize - 1) < streamSize then none
  else
    match ciphertext with
    | none => none
    | some ciphertext =>
        if ciphertext.length < encryptedSize kind streamSize then none
        else if memory then
          some (decryptBlocks kind keyBytes key32 (ciphertext.take (encryptedSize kind streamSize)))
        else none

def teaUnround (key : Key) (state : TeaRound) : TeaRound :=
  let sum := state.sum + teaDelta
  let first := state.first + teaMix state.second sum (key 0) (key 1)
  ⟨first, state.second + teaMix first sum (key 2) (key 3), sum⟩

def teaEncrypt (key : Key) (block : Block × Block) : Block × Block :=
  let state := (teaUnround key)^[32] ⟨block.1, block.2, 0⟩
  (state.first, state.second)

def rmxEncrypt (state : Block × Block) (plain : Block) : Block × (Block × Block) :=
  let key := rotateLeft32 state.1 state.2
  (plain + key * state.2, (key, state.2 ^^^ ~~~plain))

def encryptBlocks (kind : DecryptionKind) (keyBytes : List Byte) (key32 : BitVec 32)
    (bytes : List Byte) : List Byte :=
  match kind with
  | .tea => BlockMode.run 8
      (pairStep fun (_ : Unit) block => (teaEncrypt (teaKey keyBytes) block, ())) () bytes
  | .rmx => BlockMode.run 4 (wordStep rmxEncrypt) (key32, key32 &&& 0x1f#32) bytes
  | .sub => BlockMode.run 4
      (wordStep fun (_ : Unit) block => (dearxanSubDecrypt block key32, ())) () bytes

def drmpUnround (key : Key) (state : DrmpRound) : DrmpRound :=
  let first := state.first +
    (drmpMix state.second ^^^ (state.sum + key (Fin.ofNat 4 state.sum.toNat)))
  let sum := state.sum + teaDelta
  ⟨first, state.second + (drmpMix first ^^^ (sum + key (Fin.ofNat 4 (sum >>> 11).toNat))), sum⟩

/-- A block of `dearxan_steamstub_decrypt_drmp`; the next one is combined with its ciphertext. -/
def drmpDecrypt (key : Key) (xor : Block × Block) (block : Block × Block) :
    (Block × Block) × (Block × Block) :=
  let state := (drmpRound key)^[32] ⟨block.1, block.2, teaSum⟩
  ((state.first ^^^ xor.1, state.second ^^^ xor.2), block)

def drmpEncrypt (key : Key) (xor : Block × Block) (plain : Block × Block) :
    (Block × Block) × (Block × Block) :=
  let state := (drmpUnround key)^[32] ⟨plain.1 ^^^ xor.1, plain.2 ^^^ xor.2, 0⟩
  ((state.first, state.second), (state.first, state.second))

def encryptDrmp (bytes : List Byte) (key : Key) : List Byte :=
  BlockMode.run 8 (pairStep (drmpEncrypt key)) (0x55555555#32, 0x55555555#32) bytes

section Rounds

variable (key : Key)

theorem teaUnround_teaRound : Function.LeftInverse (teaUnround key) (teaRound key) := by
  rintro ⟨first, second, sum⟩
  simp only [teaRound, teaUnround, BitVec.sub_add_cancel]

theorem teaRound_teaUnround : Function.LeftInverse (teaRound key) (teaUnround key) := by
  rintro ⟨first, second, sum⟩
  simp only [teaRound, teaUnround, BitVec.add_sub_cancel]

theorem drmpUnround_drmpRound : Function.LeftInverse (drmpUnround key) (drmpRound key) := by
  rintro ⟨first, second, sum⟩
  simp only [drmpRound, drmpUnround, teaDelta, BitVec.sub_add_cancel]

theorem drmpRound_drmpUnround : Function.LeftInverse (drmpRound key) (drmpUnround key) := by
  rintro ⟨first, second, sum⟩
  simp only [drmpRound, drmpUnround, teaDelta, BitVec.add_sub_cancel]

theorem sum_after {τ : Type*} (round : τ → τ) (sum : τ → BitVec 32) (advance : BitVec 32 → BitVec 32)
    (step : ∀ state, sum (round state) = advance (sum state)) (state : τ) (n : Nat) :
    sum (round^[n] state) = advance^[n] (sum state) :=
  ((Function.Semiconj.iterate_right (show Function.Semiconj sum round advance from step) n).eq state)

theorem teaSum_down : (fun sum : BitVec 32 => sum - teaDelta)^[32] teaSum = 0 := by decide

theorem teaSum_up : (fun sum : BitVec 32 => sum + teaDelta)^[32] 0 = teaSum := by decide

theorem teaEncrypt_teaDecrypt (block : Block × Block) :
    teaEncrypt key (dearxanTeaDecrypt key block) = block := by
  have ends := sum_after (teaRound key) TeaRound.sum (fun sum => sum - teaDelta) (fun _ => rfl)
    ⟨block.1, block.2, teaSum⟩ 32
  rw [teaSum_down] at ends
  have back := (teaUnround_teaRound key).iterate 32 ⟨block.1, block.2, teaSum⟩
  simp only [teaEncrypt, dearxanTeaDecrypt]
  rw [← ends, back]

theorem teaDecrypt_teaEncrypt (block : Block × Block) :
    dearxanTeaDecrypt key (teaEncrypt key block) = block := by
  have ends := sum_after (teaUnround key) TeaRound.sum (fun sum => sum + teaDelta) (fun _ => rfl)
    ⟨block.1, block.2, 0⟩ 32
  rw [teaSum_up] at ends
  have back := (teaRound_teaUnround key).iterate 32 ⟨block.1, block.2, 0⟩
  simp only [teaEncrypt, dearxanTeaDecrypt]
  rw [← ends, back]

theorem drmpEncrypt_drmpDecrypt (xor block : Block × Block) :
    drmpEncrypt key xor (drmpDecrypt key xor block).1 = (block, (drmpDecrypt key xor block).2) := by
  have ends := sum_after (drmpRound key) DrmpRound.sum (fun sum => sum - teaDelta) (fun _ => rfl)
    ⟨block.1, block.2, teaSum⟩ 32
  rw [teaSum_down] at ends
  have back := (drmpUnround_drmpRound key).iterate 32 ⟨block.1, block.2, teaSum⟩
  simp only [drmpEncrypt, drmpDecrypt, BitVec.xor_assoc, BitVec.xor_self, BitVec.xor_zero]
  rw [← ends, back]

theorem drmpDecrypt_drmpEncrypt (xor plain : Block × Block) :
    drmpDecrypt key xor (drmpEncrypt key xor plain).1 = (plain, (drmpEncrypt key xor plain).2) := by
  have ends := sum_after (drmpUnround key) DrmpRound.sum (fun sum => sum + teaDelta) (fun _ => rfl)
    ⟨plain.1 ^^^ xor.1, plain.2 ^^^ xor.2, 0⟩ 32
  rw [teaSum_up] at ends
  have back := (drmpRound_drmpUnround key).iterate 32 ⟨plain.1 ^^^ xor.1, plain.2 ^^^ xor.2, 0⟩
  simp only [drmpEncrypt, drmpDecrypt]
  rw [← ends, back]
  simp only [BitVec.xor_assoc, BitVec.xor_self, BitVec.xor_zero]

end Rounds

theorem rmxEncrypt_rmxDecrypt (state : Block × Block) (block : Block) :
    rmxEncrypt state (dearxanRmxDecrypt state block).1 = (block, (dearxanRmxDecrypt state block).2) := by
  simp only [rmxEncrypt, dearxanRmxDecrypt, BitVec.sub_add_cancel]

theorem rmxDecrypt_rmxEncrypt (state : Block × Block) (plain : Block) :
    dearxanRmxDecrypt state (rmxEncrypt state plain).1 = (plain, (rmxEncrypt state plain).2) := by
  simp only [rmxEncrypt, dearxanRmxDecrypt, BitVec.add_sub_cancel]

theorem subDecrypt_subDecrypt (block key : Block) :
    dearxanSubDecrypt (dearxanSubDecrypt block key) key = block := by
  unfold dearxanSubDecrypt
  bv_omega

theorem field32_blockBytes (block : Block) (rest : List Byte) :
    field32 (blockBytes block ++ rest) 0 = block := blockOf_blockBytes block

theorem blockBytes_field32 {bytes : List Byte} (full : bytes.length = 4) :
    blockBytes (field32 bytes 0) = bytes := by
  match bytes, full with
  | [a, b, c, d], _ => exact blockBytes_blockOf a b c d

theorem wordStep_undoes {σ : Type*} {cipher undo : σ → Block → Block × σ}
    (back : ∀ s block, undo s (cipher s block).1 = (block, (cipher s block).2)) :
    BlockMode.Undoes 4 (wordStep cipher) (wordStep undo) where
  positive := by decide
  length _ _ _ := rfl
  undo s block full := by
    have word := field32_blockBytes (cipher s (field32 block 0)).1 []
    rw [List.append_nil] at word
    simp only [wordStep, word, back, blockBytes_field32 full]

theorem pairStep_undoes {σ : Type*} {cipher undo : σ → Block × Block → (Block × Block) × σ}
    (back : ∀ s block, undo s (cipher s block).1 = (block, (cipher s block).2)) :
    BlockMode.Undoes 8 (pairStep cipher) (pairStep undo) where
  positive := by decide
  length _ _ _ := rfl
  undo s block full := by
    match block, full with
    | [a, b, c, d, e, f, g, h], _ =>
        have first (out : Block × Block) :
            field32 (blockBytes out.1 ++ blockBytes out.2) 0 = out.1 := field32_blockBytes _ _
        have second (out : Block × Block) :
            field32 (blockBytes out.1 ++ blockBytes out.2) 4 = out.2 := blockOf_blockBytes out.2
        simp only [pairStep, first, second, Prod.mk.eta, back]
        exact Prod.ext (congrArg₂ (· ++ ·) (blockBytes_blockOf a b c d) (blockBytes_blockOf e f g h)) rfl

/-- `encrypt` and `decrypt` undo each other, keep the length and what does not fill a block, and work
from left to right. -/
structure Invertible (block : Nat) (decrypt encrypt : List Byte → List Byte) : Prop where
  encrypt_decrypt : ∀ bytes, encrypt (decrypt bytes) = bytes
  decrypt_encrypt : ∀ bytes, decrypt (encrypt bytes) = bytes
  bijective : ∀ n, Set.BijOn decrypt {bytes | bytes.length = n} {bytes | bytes.length = n}
  front : ∀ bytes k, block ∣ k → k ≤ bytes.length → decrypt (bytes.take k) = (decrypt bytes).take k
  tail : ∀ bytes : List Byte, (decrypt bytes).drop (block * (bytes.length / block)) =
    bytes.drop (block * (bytes.length / block))

theorem invertible_run {σ : Type*} {block : Nat} {step undo : σ → List Byte → List Byte × σ}
    (undoes : BlockMode.Undoes block step undo) (redoes : BlockMode.Undoes block undo step) (s : σ) :
    Invertible block (BlockMode.run block step s) (BlockMode.run block undo s) where
  encrypt_decrypt := undoes.run_run s
  decrypt_encrypt := redoes.run_run s
  bijective := BlockMode.run_bijOn undoes redoes s
  front bytes k whole inside := by
    obtain ⟨blocks, rfl⟩ := whole
    exact undoes.run_take s bytes blocks inside
  tail := undoes.run_drop s

theorem decryptBlocks_invertible (kind : DecryptionKind) (keyBytes : List Byte) (key32 : BitVec 32) :
    Invertible kind.blockSize (decryptBlocks kind keyBytes key32) (encryptBlocks kind keyBytes key32) := by
  cases kind with
  | tea =>
      apply invertible_run
      · apply pairStep_undoes
        intro s block
        rw [teaEncrypt_teaDecrypt]
      · apply pairStep_undoes
        intro s block
        rw [teaDecrypt_teaEncrypt]
  | rmx =>
      exact invertible_run (wordStep_undoes rmxEncrypt_rmxDecrypt)
        (wordStep_undoes rmxDecrypt_rmxEncrypt) _
  | sub =>
      have back (s : Unit) (block : Block) :
          (fun (_ : Unit) block => (dearxanSubDecrypt block key32, ())) s
              ((fun (_ : Unit) block => (dearxanSubDecrypt block key32, ())) s block).1 =
            (block, ()) := by
        simp only [subDecrypt_subDecrypt]
      exact invertible_run (wordStep_undoes back) (wordStep_undoes back) _

theorem decryptDrmp_eq_run (key : Key) (xor : Block × Block) (bytes : List Byte) :
    decryptDrmp key xor bytes = BlockMode.run 8 (pairStep (drmpDecrypt key)) xor bytes := by
  fun_induction decryptDrmp key xor bytes with
  | case1 xor a b c d e f g h rest first second state ih =>
      rw [show a :: b :: c :: d :: e :: f :: g :: h :: rest = [a, b, c, d, e, f, g, h] ++ rest from rfl,
        BlockMode.run_block (show 0 < 8 by decide) (show [a, b, c, d, e, f, g, h].length = 8 from rfl), ih]
      rfl
  | case2 xor short whole =>
      apply (BlockMode.run_short _).symm
      by_contra long
      have full : (short.take 8).length = 8 := List.length_take_of_le (by omega)
      have split := List.take_append_drop 8 short
      generalize short.take 8 = block at full split
      match block, full with
      | [a, b, c, d, e, f, g, h], _ => exact whole a b c d e f g h _ split.symm

theorem decryptDrmp_invertible (key : Key) :
    Invertible 8 (fun bytes => dearxanSteamstubDecryptDrmp bytes key) (fun bytes => encryptDrmp bytes key) := by
  have same : (fun bytes => dearxanSteamstubDecryptDrmp bytes key) =
      BlockMode.run 8 (pairStep (drmpDecrypt key)) (0x55555555#32, 0x55555555#32) := by
    funext bytes
    exact decryptDrmp_eq_run key _ bytes
  rw [same]
  exact invertible_run (pairStep_undoes (drmpEncrypt_drmpDecrypt key))
    (pairStep_undoes (drmpDecrypt_drmpEncrypt key)) _

theorem decryptStream_whole (kind : DecryptionKind) {ciphertext : List Byte}
    (whole : kind.blockSize ∣ ciphertext.length) (small : ciphertext.length < 2 ^ 64)
    (keyBytes : List Byte) (key32 : BitVec 32) :
    decryptStream kind (some ciphertext) ciphertext.length keyBytes key32 true =
      some (decryptBlocks kind keyBytes key32 ciphertext) := by
  obtain ⟨blocks, length⟩ := whole
  have size : encryptedSize kind ciphertext.length = ciphertext.length := by
    rw [encryptedSize, length]
    cases kind <;> simp only [DecryptionKind.blockSize] <;> omega
  have room : ¬ sizeMax - (kind.blockSize - 1) < ciphertext.length := by
    rw [length] at small ⊢
    cases kind <;> simp only [DecryptionKind.blockSize, sizeMax] at small ⊢ <;> omega
  rw [decryptStream, if_neg room]
  simp only [size, Nat.lt_irrefl, if_false, if_true, List.take_length]

/-- The ciphers of the stubs and of SteamStub have inverses. -/
theorem stubCiphers_invertible :
    (∀ (kind : DecryptionKind) (keyBytes : List Byte) (key32 : BitVec 32),
      ∃ decrypt, Invertible kind.blockSize decrypt (encryptBlocks kind keyBytes key32) ∧
        ∀ ciphertext : List Byte, kind.blockSize ∣ ciphertext.length → ciphertext.length < 2 ^ 64 →
          decryptStream kind (some ciphertext) ciphertext.length keyBytes key32 true =
            some (decrypt ciphertext)) ∧
    ∀ key : Key,
      Invertible 8 (fun bytes => dearxanSteamstubDecryptDrmp bytes key)
        (fun bytes => encryptDrmp bytes key) :=
  ⟨fun kind keyBytes key32 => ⟨decryptBlocks kind keyBytes key32,
    decryptBlocks_invertible kind keyBytes key32,
    fun _ whole small => decryptStream_whole kind whole small keyBytes key32⟩, decryptDrmp_invertible⟩

end Yafsml.Dearxan
