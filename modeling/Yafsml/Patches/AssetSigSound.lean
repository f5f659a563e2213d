import Yafsml.Patches.AssetSig

/-! # What the reader of an RSA key does with any text -/

namespace Yafsml.Patches.AssetSig

open Foundation Base64 Der

/-! ## The decoder -/

theorem base64Value_letter {value : Nat} (small : value < 64) : base64Value (letter value) = value := by
  have all : ∀ value < 64, base64Value (letter value) = value := by decide
  exact all value small

theorem base64Value_lt (c : UInt8) : base64Value c < 64 := by
  unfold base64Value
  split_ifs with upper lower digit
  · have := UInt8.le_iff_toNat_le.mp upper.2
    simp only [UInt8.reduceToNat] at this
    omega
  · have := UInt8.le_iff_toNat_le.mp lower.2
    simp only [UInt8.reduceToNat] at this
    omega
  · have := UInt8.le_iff_toNat_le.mp digit.2
    simp only [UInt8.reduceToNat] at this
    omega
  all_goals decide

def sextet (c : UInt8) : Option Nat :=
  if base64Value c < 0 then none else some (base64Value c).toNat

theorem sextet_lt {c : UInt8} {value : Nat} (known : sextet c = some value) : value < 64 := by
  unfold sextet at known
  split_ifs at known with negative
  cases known
  have := base64Value_lt c
  omega

namespace Base64Decoder

def decoded (d : Base64Decoder) : List UInt8 := d.der.take d.derLength

/-- The block has room for the bits that are left and those of `count` more characters. -/
structure Holds (d : Base64Decoder) (carry : Carry) (count : Nat) : Prop where
  good : carry.Good
  bits : d.bits = carry.bits
  accumulator : d.accumulator = carry.value
  room : 8 * d.derLength + d.bits + 6 * count ≤ 8 * d.der.length

variable {d : Base64Decoder} {carry : Carry} {count : Nat} {c : UInt8}

theorem Holds.next_skip (holds : d.Holds carry (count + 1)) (other : sextet c = none) :
    d.next c = some d ∧ d.Holds carry count := by
  unfold sextet at other
  split_ifs at other with negative
  have room := holds.room
  exact ⟨if_pos negative, holds.good, holds.bits, holds.accumulator, by omega⟩

theorem Holds.accumulated (holds : d.Holds carry count) {value : Nat} (small : value < 64) :
    (d.accumulator <<< 6) % 2 ^ 32 ||| value = carry.value * 64 + value := by
  have below : carry.value < 2 ^ 7 :=
    lt_of_lt_of_le holds.good.below (Nat.pow_le_pow_right (by decide) (Nat.le_of_lt_succ holds.good.few))
  have shifted : d.accumulator <<< 6 = carry.value * 64 := by rw [holds.accumulator, Nat.shiftLeft_eq]
  have fits : d.accumulator <<< 6 < 2 ^ 32 := by omega
  rw [Nat.mod_eq_of_lt fits, ← Nat.shiftLeft_add_eq_or_of_lt small, shifted]

theorem Holds.next_sextet (holds : d.Holds carry (count + 1)) {value : Nat} (known : sextet c = some value) :
    ∃ d', d.next c = some d' ∧ d'.Holds (carry.feed value).1 count ∧
      d'.decoded = d.decoded ++ (carry.feed value).2.toList := by
  have small := sextet_lt known
  have good := holds.good.feed small
  have joined := holds.accumulated small
  have room := holds.room
  unfold sextet at known
  split_ifs at known with negative
  cases known
  unfold Base64Decoder.next
  simp only [if_neg negative, joined, holds.bits]
  unfold Carry.feed at good ⊢
  dsimp only at good ⊢
  rw [holds.bits] at room
  by_cases enough : 8 ≤ carry.bits + 6
  · simp only [if_pos enough] at good ⊢
    have free : d.derLength < d.der.length := by omega
    obtain ⟨written, wrote, length, front⟩ := Buffer.put_of_lt free
      (UInt8.ofNat ((carry.value * 64 + (base64Value c).toNat) >>> (carry.bits + 6 - 8)))
    have masked (n : Nat) : n &&& ((1 <<< (carry.bits + 6 - 8)) - 1) = n % 2 ^ (carry.bits + 6 - 8) := by
      rw [Nat.one_shiftLeft, Nat.and_two_pow_sub_one_eq_mod]
    refine ⟨_, congrArg (Option.map _) wrote, ⟨good, rfl, masked _, ?_⟩, ?_⟩
    · simp only [length]
      omega
    · rw [Base64Decoder.decoded, front, Nat.shiftRight_eq_div_pow]
      rfl
  · simp only [if_neg enough] at good ⊢
    refine ⟨_, rfl, ⟨good, rfl, rfl, ?_⟩, (List.append_nil _).symm⟩
    simp only
    omega

end Base64Decoder

theorem decodeText_returns {pem : List UInt8} {count i : Nat} {d : Base64Decoder} {carry : Carry}
    (inside : i + count ≤ pem.length) (holds : d.Holds carry count) :
    Returns (decodeText pem count i d) fun d' =>
      d'.decoded = d.decoded ++ read carry (((pem.drop i).take count).filterMap sextet) := by
  induction count generalizing i d carry with
  | zero =>
      apply Returns.pure
      rw [List.take_zero, List.filterMap_nil]
      exact (List.append_nil _).symm
  | succ count ih =>
      have within : i < pem.length := by omega
      have front : (pem.drop i).take (count + 1) = pem[i] :: (pem.drop (i + 1)).take count := by
        rw [List.drop_eq_getElem_cons within, List.take_succ_cons]
      rw [decodeText, List.getElem?_eq_getElem within, front]
      apply Returns.next
      cases known : sextet pem[i] with
      | none =>
          obtain ⟨same, later⟩ := holds.next_skip known
          rw [same, List.filterMap_cons_none known]
          exact Returns.next (ih (by omega) later)
      | some value =>
          obtain ⟨d', fed, later, decoded⟩ := holds.next_sextet known
          rw [fed, List.filterMap_cons_some known, Base64.read, ← List.append_assoc, ← decoded]
          exact Returns.next (ih (by omega) later)

/-! ## Length fields -/

theorem high_bit {n : Nat} (byte : n < 256) : n &&& 0x80 = 0 ↔ n < 128 := by
  have all : ∀ n < 256, n &&& 0x80 = 0 ↔ n < 128 := by decide +kernel
  exact all n byte

theorem low_bits (n : Nat) : n &&& 0x7f = n % 128 := Nat.and_two_pow_sub_one_eq_mod n 7

section Lengths

variable {der front field rest : List UInt8} {cursor stop value : Nat}

theorem getElem?_of_drop {byte : UInt8} (held : der.drop cursor = byte :: rest) :
    der[cursor]? = some byte ∧ der.drop (cursor + 1) = rest := by
  have here : (der.drop cursor)[0]? = der[cursor]? := List.getElem?_drop
  refine ⟨by rw [← here, held]; rfl, ?_⟩
  rw [← List.drop_drop, held]
  rfl

theorem readBytes_eq {bytes : List UInt8} {start before : Nat} (held : der.drop cursor = bytes ++ rest)
    (small : start < 256 ^ before) (few : before + bytes.length ≤ 8) :
    readBytes der bytes.length cursor start =
      some (bytes.foldl (fun value byte => value * 256 + byte.toNat) start, cursor + bytes.length) := by
  induction bytes generalizing cursor start before with
  | nil => rfl
  | cons byte bytes ih =>
      obtain ⟨here, behind⟩ := getElem?_of_drop held
      rw [List.length_cons] at few
      have byte_lt : byte.toNat < 256 := byte.toNat_lt
      have grown : start * 256 + byte.toNat < 256 ^ (before + 1) := by
        rw [pow_succ]
        omega
      have word : 256 ^ (before + 1) ≤ 2 ^ 64 := by
        have power : 256 ^ (before + 1) ≤ 256 ^ 8 := Nat.pow_le_pow_right (by decide) (by omega)
        exact power.trans (by decide)
      have next : (start <<< 8) % 2 ^ 64 ||| byte.toNat = start * 256 + byte.toNat := by
        have shifted : start <<< 8 = start * 256 := Nat.shiftLeft_eq start 8
        rw [Nat.mod_eq_of_lt (by omega), ← Nat.shiftLeft_add_eq_or_of_lt byte_lt, shifted]
      rw [List.length_cons, readBytes, here, Option.bind_eq_bind, Option.bind_some, next,
        ih behind grown (by omega), List.foldl_cons, Nat.add_assoc, Nat.add_comm 1]

theorem readBytes_ofBigEndian {bytes : List UInt8} (held : der.drop cursor = bytes ++ rest)
    (few : bytes.length ≤ 8) :
    readBytes der bytes.length cursor 0 = some (ofBigEndian bytes, cursor + bytes.length) :=
  @readBytes_eq der rest cursor bytes 0 0 held (by decide) (by omega)

theorem derReadLength_field (known : LengthField field value) (held : der.drop cursor = field ++ rest)
    (room : cursor + field.length ≤ stop) :
    derReadLength der cursor stop = some (some (value, cursor + field.length)) := by
  cases known with
  | @short byte small =>
      have open_ : ¬ stop ≤ cursor := by
        rw [List.length_singleton] at room
        omega
      rw [derReadLength, if_neg open_, (getElem?_of_drop held).1, Option.bind_eq_bind, Option.bind_some,
        if_pos ((high_bit byte.toNat_lt).mpr small), List.length_singleton]
  | @long first bytes count nonempty few =>
      obtain ⟨here, behind⟩ := getElem?_of_drop held
      rw [List.length_cons] at room
      have open_ : ¬ stop ≤ cursor := by omega
      have positive := List.length_pos_of_ne_nil nonempty
      have low : first.toNat &&& 0x7f = bytes.length := by
        rw [low_bits]
        omega
      have known : ¬ (bytes.length = 0 ∨ 8 < bytes.length ∨ stop - (cursor + 1) < bytes.length) := by omega
      have read : readBytes der bytes.length (cursor + 1) 0 = some (ofBigEndian bytes, cursor + 1 + bytes.length) :=
        readBytes_ofBigEndian behind few
      rw [derReadLength, if_neg open_, here, Option.bind_eq_bind, Option.bind_some,
        if_neg (by rw [high_bit first.toNat_lt]; omega)]
      simp only [low, if_neg known, read, Option.map_some, List.length_cons]
      rw [Nat.add_assoc, Nat.add_comm 1]

theorem derReadLength_returns (within : stop ≤ der.length) :
    Returns (derReadLength der cursor stop) fun r => ∀ value behind, r = some (value, behind) →
      ∃ field, LengthField field value ∧ der.drop cursor = field ++ der.drop behind ∧
        behind = cursor + field.length ∧ behind ≤ stop := by
  unfold derReadLength
  by_cases closed : stop ≤ cursor
  · rw [if_pos closed]
    exact Returns.pure (by simp)
  rw [if_neg closed]
  have inside : cursor < der.length := by omega
  have front := List.drop_eq_getElem_cons inside
  rw [List.getElem?_eq_getElem inside]
  apply Returns.next
  have byte_lt : der[cursor].toNat < 256 := der[cursor].toNat_lt
  apply Returns.ite
  · intro short
    apply Returns.pure
    rintro value behind ⟨⟩
    exact ⟨[der[cursor]], .short ((high_bit byte_lt).mp short), front, rfl, by omega⟩
  · intro long
    rw [high_bit byte_lt] at long
    rw [low_bits]
    apply Returns.ite
    · intro _
      exact Returns.pure (by simp)
    · intro known
      push Not at known
      obtain ⟨nonzero, few, room⟩ := known
      have size : ((der.drop (cursor + 1)).take (der[cursor].toNat % 128)).length = der[cursor].toNat % 128 := by
        rw [List.length_take, List.length_drop]
        omega
      have split : der.drop (cursor + 1) = (der.drop (cursor + 1)).take (der[cursor].toNat % 128) ++
          der.drop (cursor + 1 + der[cursor].toNat % 128) := by
        have behind : (der.drop (cursor + 1)).drop (der[cursor].toNat % 128) =
            der.drop (cursor + 1 + der[cursor].toNat % 128) := List.drop_drop
        rw [← behind, List.take_append_drop]
      have read := readBytes_ofBigEndian split (by rw [size]; exact few)
      rw [size] at read
      rw [read]
      apply Returns.pure
      rintro value behind ⟨⟩
      refine ⟨der[cursor] :: (der.drop (cursor + 1)).take (der[cursor].toNat % 128),
        .long (by rw [size]; omega) (List.ne_nil_of_length_pos (by rw [size]; omega)) (by rw [size]; omega),
        ?_, ?_, ?_⟩
      · rw [List.cons_append, ← split, front]
      · rw [List.length_cons, size]
        omega
      · omega

end Lengths

/-! ## The key -/

def unsignedLength (modulus : List UInt8) : Nat :=
  modulus.length - if 1 < modulus.length ∧ modulus.head? = some 0 then 1 else 0

/-- A sequence that starts with an integer. No length says more than there is. -/
inductive Key : List UInt8 → Nat → Prop
  | sequence {sequenceField content behind modulusField modulus rest : List UInt8}
      (sequenceLength : LengthField sequenceField content.length)
      (modulusLength : LengthField modulusField modulus.length) (nonempty : modulus ≠ [])
      (front : content = 0x02 :: (modulusField ++ (modulus ++ rest))) :
      Key (0x30 :: (sequenceField ++ (content ++ behind))) (unsignedLength modulus)

section Keys

variable {der modulus rest field : List UInt8} {cursor sequenceEnd : Nat}

theorem leadingZero_eq (nonempty : modulus ≠ []) (held : der.drop cursor = modulus ++ rest) :
    leadingZero der cursor modulus.length =
      some (decide (1 < modulus.length ∧ modulus.head? = some 0)) := by
  obtain ⟨byte, bytes, rfl⟩ := List.exists_cons_of_ne_nil nonempty
  unfold leadingZero
  rw [(getElem?_of_drop held).1]
  by_cases long : 1 < (byte :: bytes).length
  · rw [if_pos long, Option.map_some]
    simp only [long, true_and, List.head?_cons, Option.some.injEq, beq_eq_decide]
  · rw [if_neg long]
    simp only [long, false_and, decide_false]

theorem blockSize_eq (nonempty : modulus ≠ []) (held : der.drop cursor = modulus ++ rest) :
    ((leadingZero der cursor modulus.length).map fun signed =>
      let blockSize := modulus.length - if signed then 1 else 0
      if blockSize ≠ 0 then some blockSize else none) = some (some (unsignedLength modulus)) := by
  have positive := List.length_pos_of_ne_nil nonempty
  have size : modulus.length - (if decide (1 < modulus.length ∧ modulus.head? = some 0) = true then 1 else 0) =
      unsignedLength modulus := by
    simp only [decide_eq_true_eq, unsignedLength]
  have nonzero : unsignedLength modulus ≠ 0 := by
    unfold unsignedLength
    split_ifs with signed
    · omega
    · omega
  rw [leadingZero_eq nonempty held, Option.map_some]
  dsimp only
  rw [size, if_pos nonzero]

theorem parseModulus_of (known : LengthField field modulus.length) (nonempty : modulus ≠ [])
    (held : der.drop cursor = 0x02 :: (field ++ (modulus ++ rest)))
    (room : cursor + 1 + field.length + modulus.length ≤ sequenceEnd) :
    parseModulus der cursor sequenceEnd = some (some (unsignedLength modulus)) := by
  have positive := List.length_pos_of_ne_nil nonempty
  obtain ⟨tag, behind⟩ := getElem?_of_drop held
  have length := derReadLength_field known behind (by omega : cursor + 1 + field.length ≤ sequenceEnd)
  have start : der.drop (cursor + 1 + field.length) = modulus ++ rest := by
    rw [← List.drop_drop, behind, List.drop_left]
  have open_ : ¬ sequenceEnd ≤ cursor := by omega
  have fits : ¬ (modulus.length = 0 ∨ sequenceEnd - (cursor + 1 + field.length) < modulus.length) := by omega
  simp only [parseModulus, if_neg open_, tag, Option.bind_eq_bind, Option.bind_some, length, if_neg fits,
    ne_eq, not_true, if_false]
  exact blockSize_eq nonempty start

theorem parseModulus_returns (within : sequenceEnd ≤ der.length) :
    Returns (parseModulus der cursor sequenceEnd) fun r => ∀ blockSize, r = some blockSize →
      ∃ field modulus rest, LengthField field modulus.length ∧ modulus ≠ [] ∧
        (der.drop cursor).take (sequenceEnd - cursor) = 0x02 :: (field ++ (modulus ++ rest)) ∧
        blockSize = unsignedLength modulus := by
  unfold parseModulus
  by_cases closed : sequenceEnd ≤ cursor
  · rw [if_pos closed]
    exact Returns.pure (by simp)
  rw [if_neg closed]
  have inside : cursor < der.length := by omega
  have front := List.drop_eq_getElem_cons inside
  rw [List.getElem?_eq_getElem inside]
  apply Returns.next
  apply Returns.ite
  · intro _
    exact Returns.pure (by simp)
  intro tag
  rw [not_not] at tag
  refine Returns.bind (derReadLength_returns within) ?_
  intro r accepted
  cases r with
  | none => exact Returns.pure (by simp)
  | some pair =>
      obtain ⟨modulusLength, behind⟩ := pair
      obtain ⟨field, known, held, place, below⟩ := accepted modulusLength behind rfl
      apply Returns.ite
      · intro _
        exact Returns.pure (by simp)
      intro fits
      push Not at fits
      have size : ((der.drop behind).take modulusLength).length = modulusLength := by
        rw [List.length_take, List.length_drop]
        omega
      have nonempty : (der.drop behind).take modulusLength ≠ [] := by
        apply List.ne_nil_of_length_pos
        omega
      have split : der.drop behind =
          (der.drop behind).take modulusLength ++ (der.drop behind).drop modulusLength :=
        (List.take_append_drop _ _).symm
      have block := blockSize_eq nonempty split
      rw [size] at block
      rw [block]
      apply Returns.pure
      rintro blockSize ⟨⟩
      refine ⟨field, (der.drop behind).take modulusLength,
        ((der.drop behind).drop modulusLength).take (sequenceEnd - behind - modulusLength), by rwa [size],
        nonempty, ?_, rfl⟩
      have whole : sequenceEnd - cursor =
          1 + (field.length + (modulusLength + (sequenceEnd - behind - modulusLength))) := by
        omega
      rw [front, tag, held, whole, Nat.add_comm 1, List.take_succ_cons, List.take_length_add_append, List.take_add]

theorem parseSequence_of {blockSize : Nat} (key : Key der blockSize) :
    parseSequence der = some (some blockSize) := by
  cases key with
  | @sequence sequenceField content behind modulusField modulus rest sequenceLength modulusLength nonempty front =>
      generalize whole : 0x30 :: (sequenceField ++ (content ++ behind)) = der
      have size : der.length = 1 + sequenceField.length + content.length + behind.length := by
        rw [← whole]
        simp only [List.length_cons, List.length_append]
        omega
      have tag : der[0]? = some 0x30 := by rw [← whole]; rfl
      have held : der.drop 1 = sequenceField ++ (content ++ behind) := by rw [← whole]; rfl
      have length := derReadLength_field sequenceLength held
        (show 1 + sequenceField.length ≤ der.length by omega)
      have start : der.drop (1 + sequenceField.length) =
          0x02 :: (modulusField ++ (modulus ++ (rest ++ behind))) := by
        rw [← List.drop_drop, held, List.drop_left, front, List.cons_append, List.append_assoc, List.append_assoc]
      have content_length : content.length = 1 + modulusField.length + modulus.length + rest.length := by
        rw [front, List.length_cons, List.length_append, List.length_append]
        omega
      have modulusEnds := @parseModulus_of der modulus (rest ++ behind) modulusField (1 + sequenceField.length)
        (1 + sequenceField.length + content.length) modulusLength nonempty start (by omega)
      have nonzero : ¬ der.length = 0 := by omega
      have fits : ¬ der.length - (1 + sequenceField.length) < content.length := by omega
      simp only [parseSequence, if_neg nonzero, tag, Option.bind_eq_bind, Option.bind_some, length, if_neg fits,
        ne_eq, not_true, if_false]
      exact modulusEnds

theorem parseSequence_returns (der : List UInt8) :
    Returns (parseSequence der) fun r => ∀ blockSize, r = some blockSize → Key der blockSize := by
  unfold parseSequence
  by_cases empty : der.length = 0
  · rw [if_pos empty]
    exact Returns.pure (by simp)
  rw [if_neg empty]
  have inside : 0 < der.length := Nat.pos_of_ne_zero empty
  have front : der = der[0] :: der.drop 1 := List.drop_eq_getElem_cons inside
  rw [List.getElem?_eq_getElem inside]
  apply Returns.next
  apply Returns.ite
  · intro _
    exact Returns.pure (by simp)
  intro tag
  rw [not_not] at tag
  refine Returns.bind (derReadLength_returns le_rfl) ?_
  intro r accepted
  cases r with
  | none => exact Returns.pure (by simp)
  | some pair =>
      obtain ⟨sequenceLength, behind⟩ := pair
      obtain ⟨field, known, held, place, below⟩ := accepted sequenceLength behind rfl
      apply Returns.ite
      · intro _
        exact Returns.pure (by simp)
      intro fits
      rw [not_lt] at fits
      refine (parseModulus_returns (by omega : behind + sequenceLength ≤ der.length)).mono ?_
      intro r accepted blockSize same
      obtain ⟨modulusField, modulus, rest, reads, nonempty, content, rfl⟩ := accepted blockSize same
      rw [Nat.add_sub_cancel_left] at content
      have size : ((der.drop behind).take sequenceLength).length = sequenceLength := by
        rw [List.length_take, List.length_drop]
        omega
      have split : der = 0x30 :: (field ++ ((der.drop behind).take sequenceLength ++
          (der.drop behind).drop sequenceLength)) := by
        rw [List.take_append_drop, ← held, ← tag]
        exact front
      rw [split]
      exact .sequence (by rwa [size]) reads nonempty content

end Keys

end Yafsml.Patches.AssetSig
