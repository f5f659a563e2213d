import Mathlib.Data.List.Infix
import Yafsml.Patches.AssetSigSound

/-! # The block size of a key in a text -/

namespace Yafsml.Patches.AssetSig

open Foundation Base64 Der

theorem beginMarker_ne_nil : beginMarker ≠ [] := by decide

theorem pemEnd_ne_nil : pemEnd ≠ [] := by decide

section Markers

variable {pem marker : List UInt8} {count start i j : Nat}

theorem memcmpAt_eq (inside : i + marker.length ≤ pem.length) :
    memcmpAt pem marker i = some (decide (marker <+: pem.drop i)) := by
  rw [memcmpAt, if_pos inside, beq_eq_decide]
  refine congrArg some (decide_eq_decide.mpr ?_)
  rw [List.prefix_iff_eq_take]
  exact eq_comm

/-- The first place of the marker from `start` on. -/
structure FirstAt (pem marker : List UInt8) (start i : Nat) : Prop where
  behind : start ≤ i
  here : marker <+: pem.drop i
  first : ∀ k, start ≤ k → k < i → ¬ marker <+: pem.drop k

theorem FirstAt.inside (first : FirstAt pem marker start i) (nonempty : marker ≠ []) :
    i + marker.length ≤ pem.length := by
  have length := first.here.length_le
  have positive := List.length_pos_of_ne_nil nonempty
  rw [List.length_drop] at length
  omega

theorem findMarker_returns (inside : ∀ k < count, start + k + marker.length ≤ pem.length) :
    Returns (findMarker pem marker count start) fun r => (∀ i, r = some i → FirstAt pem marker start i) ∧
      (r = none → ∀ k < count, ¬ marker <+: pem.drop (start + k)) := by
  induction count generalizing start with
  | zero => exact Returns.pure ⟨by simp, fun _ k none => absurd none (Nat.not_lt_zero k)⟩
  | succ count ih =>
      have fits : start + marker.length ≤ pem.length := inside 0 (Nat.succ_pos count)
      rw [findMarker, memcmpAt_eq fits]
      apply Returns.next
      by_cases here : marker <+: pem.drop start
      · rw [if_pos (decide_eq_true here)]
        refine Returns.pure ⟨?_, by simp⟩
        rintro i ⟨⟩
        exact ⟨le_rfl, here, fun k after before => absurd before (Nat.not_lt.mpr after)⟩
      · rw [if_neg (by simpa using here)]
        have rest : ∀ k < count, start + 1 + k + marker.length ≤ pem.length := by
          intro k below
          have := inside (k + 1) (Nat.succ_lt_succ below)
          omega
        refine (ih rest).mono ?_
        rintro r ⟨found, absent⟩
        refine ⟨fun i same => ?_, fun none k below => ?_⟩
        · have later := found i same
          refine ⟨Nat.le_of_succ_le later.behind, later.here, fun k after before => ?_⟩
          rcases Nat.eq_or_lt_of_le after with rfl | after
          · exact here
          · exact later.first k after before
        · cases k with
          | zero => exact here
          | succ k =>
              have other := absent none k (Nat.lt_of_succ_lt_succ below)
              rwa [Nat.add_assoc, Nat.add_comm 1] at other

theorem findMarker_positions (pem marker : List UInt8) (start : Nat) :
    Returns (findMarker pem marker (positions pem marker start) start) fun r =>
      (∀ i, r = some i → FirstAt pem marker start i) ∧
      (r = none → ∀ k < positions pem marker start, ¬ marker <+: pem.drop (start + k)) := by
  apply findMarker_returns
  intro k below
  unfold positions at below
  omega

theorem findMarker_first (nonempty : marker ≠ []) (first : FirstAt pem marker start i) :
    findMarker pem marker (positions pem marker start) start = some (some i) := by
  obtain ⟨r, same, found, absent⟩ := findMarker_positions pem marker start
  have inside := first.inside nonempty
  have behind := first.behind
  rw [same]
  cases r with
  | none =>
      have below : i - start < positions pem marker start := by
        unfold positions
        omega
      have other := absent rfl (i - start) below
      rw [Nat.add_sub_cancel' behind] at other
      exact absurd first.here other
  | some j =>
      have other := found j rfl
      rcases Nat.lt_trichotomy i j with before | rfl | after
      · exact absurd first.here (other.first i behind before)
      · rfl
      · exact absurd other.here (first.first j other.behind after)

end Markers

def decodedText (characters : List UInt8) : List UInt8 := read .empty (characters.filterMap sextet)

/-- The text has a key between the first two markers. -/
structure Accepted (pem : List UInt8) (blockSize beginOffset endOffset : Nat) : Prop where
  begins : ∃ found, FirstAt pem beginMarker 0 found ∧ beginOffset = found + beginMarker.length
  ends : FirstAt pem pemEnd beginOffset endOffset
  key : Key (decodedText ((pem.drop beginOffset).take (endOffset - beginOffset))) blockSize

theorem decodeText_block {pem : List UInt8} {start size : Nat} (inside : start + size ≤ pem.length) :
    Returns (decodeText pem size start ⟨List.replicate size 0, 0, 0, 0⟩) fun d =>
      d.der.take d.derLength = decodedText ((pem.drop start).take size) := by
  have holds : Base64Decoder.Holds ⟨List.replicate size 0, 0, 0, 0⟩ .empty size := by
    refine ⟨Carry.good_empty, rfl, rfl, ?_⟩
    simp only [List.length_replicate]
    omega
  exact decodeText_returns inside holds

/-- Nothing is written outside of the block, nothing is read behind the decoded bytes, and what is
accepted is a key. -/
theorem mlAssetSigRsaBlockSize_returns (pem : Option (List UInt8)) (hasBlockSize : Bool) :
    Returns (mlAssetSigRsaBlockSize true pem hasBlockSize) fun r => ∀ blockSize, r = some blockSize →
      ∃ text beginOffset endOffset, pem = some text ∧ Accepted text blockSize beginOffset endOffset := by
  cases pem with
  | none => exact Returns.pure (by simp)
  | some pem =>
      unfold mlAssetSigRsaBlockSize
      apply Returns.ite
      · intro _
        exact Returns.pure (by simp)
      intro _
      refine Returns.bind (findMarker_positions pem beginMarker 0) ?_
      rintro (_ | found) ⟨begins, -⟩
      · exact Returns.pure (by simp)
      refine Returns.bind (findMarker_positions pem pemEnd (found + beginMarker.length)) ?_
      rintro (_ | endOffset) ⟨ends, -⟩
      · exact Returns.pure (by simp)
      have begins := begins found rfl
      have ends := ends endOffset rfl
      have behind := ends.behind
      have inside := ends.inside pemEnd_ne_nil
      refine Returns.bind (@decodeText_block pem (found + beginMarker.length) _ (by omega)) ?_
      intro d decoded
      rw [decoded]
      refine (parseSequence_returns _).mono ?_
      intro r accepted blockSize same
      exact ⟨pem, _, endOffset, rfl, ⟨found, begins, rfl⟩, ends, accepted blockSize same⟩

def filler : List UInt8 := [9, 10, 11, 12, 13, 32, 61]

/-- A text with the base 64 of the key between its first markers. -/
structure PemKey (pem : List UInt8) (n e : Nat) : Prop where
  text : ∃ front body behind, pem = front ++ (beginMarker ++ (body ++ (pemEnd ++ behind))) ∧
    (∀ i < front.length, ¬ beginMarker <+: pem.drop i) ∧
    body.filter (fun c => c ∉ filler) = (sextets (rsaPublicKey n e)).map letter

theorem sextet_letter {value : Nat} (small : value < 64) : sextet (letter value) = some value := by
  have known := base64Value_letter small
  rw [sextet, known, if_neg (Int.not_lt.mpr (Int.natCast_nonneg value)), Int.toNat_natCast]

theorem sextet_filler {c : UInt8} (member : c ∈ filler) : sextet c = none := by
  have all : filler.all (fun c => (sextet c).isNone) = true := by decide
  exact Option.isNone_iff_eq_none.mp (List.all_eq_true.mp all c member)

theorem letter_ne_dash {value : Nat} (small : value < 64) : letter value ≠ 45 := by
  have all : ∀ value < 64, letter value ≠ 45 := by decide
  exact all value small

section Body

variable {body : List UInt8} {values : List Nat} (small : ∀ value ∈ values, value < 64)
  (spelled : body.filter (fun c => c ∉ filler) = values.map letter)

include small spelled

theorem filterMap_body : body.filterMap sextet = values := by
  have skipped : body.filterMap sextet = (body.filter (fun c => c ∉ filler)).filterMap sextet := by
    rw [List.filterMap_filter]
    apply List.filterMap_congr
    intro c _
    by_cases member : c ∈ filler
    · rw [if_neg (by simpa using member), sextet_filler member]
    · rw [if_pos (by simpa using member)]
  rw [skipped, spelled, List.filterMap_map]
  have identity : ∀ value ∈ values, (sextet ∘ letter) value = some value :=
    fun value member => sextet_letter (small value member)
  rw [List.filterMap_congr identity, List.filterMap_some]

theorem body_plain : ∀ c ∈ body, c ≠ 45 := by
  intro c member
  by_cases skipped : c ∈ filler
  · rintro rfl
    revert skipped
    decide
  · have kept : c ∈ body.filter (fun c => c ∉ filler) := List.mem_filter.mpr ⟨member, by simpa using skipped⟩
    rw [spelled] at kept
    obtain ⟨value, known, rfl⟩ := List.mem_map.mp kept
    exact letter_ne_dash (small value known)

omit small in
theorem body_length : values.length ≤ body.length := by
  rw [← List.length_map (f := letter), ← spelled]
  exact List.length_filter_le _ _

end Body

theorem pemEnd_first {front body behind : List UInt8} (plain : ∀ c ∈ body, c ≠ 45) :
    FirstAt (front ++ (body ++ (pemEnd ++ behind))) pemEnd front.length (front.length + body.length) := by
  refine ⟨Nat.le_add_right _ _, ?_, ?_⟩
  · rw [← List.drop_drop, List.drop_left, List.drop_left]
    exact List.prefix_append _ _
  · intro k after before here
    obtain ⟨k, rfl⟩ := Nat.exists_eq_add_of_le after
    have inside : k < body.length := Nat.lt_of_add_lt_add_left before
    rw [← List.drop_drop, List.drop_left, List.drop_append_of_le_length inside.le,
      List.drop_eq_getElem_cons inside] at here
    obtain ⟨rest, same⟩ := here
    have dash : (45 : UInt8) = body[k] := (List.cons.inj same).1
    exact plain _ (List.getElem_mem inside) dash.symm

theorem key_rsaPublicKey {n e : Nat} (positive : 0 < n) (word : (rsaPublicKey n e).length < 2 ^ 64) :
    Key (rsaPublicKey n e) (byteLength n) := by
  obtain ⟨nonempty, unsigned⟩ := length_integerContent positive
  have split : element 0x02 (integerContent n) ++ element 0x02 (integerContent e) =
      0x02 :: (lengthField (integerContent n).length ++
        (integerContent n ++ element 0x02 (integerContent e))) := by
    rw [element, List.cons_append, List.append_assoc]
  rw [rsaPublicKey, element, List.length_cons, List.length_append] at word
  have inner : (element 0x02 (integerContent n) ++ element 0x02 (integerContent e)).length < 2 ^ 64 := by omega
  have modulus : (integerContent n).length < 2 ^ 64 := by
    rw [split, List.length_cons, List.length_append, List.length_append] at inner
    omega
  have key := @Key.sequence _ _ [] _ _ _ (lengthField_reads inner) (lengthField_reads modulus) nonempty split
  rw [List.append_nil, unsignedLength, unsigned] at key
  exact key

theorem length_rsaPublicKey (n e : Nat) : 2 ≤ (rsaPublicKey n e).length := by
  simp only [rsaPublicKey, element, List.length_cons, List.length_append]
  omega

theorem mlAssetSigRsaBlockSize_key {pem : List UInt8} {n e : Nat} (positive : 0 < n)
    (word : pem.length < 2 ^ 64) (key : PemKey pem n e) :
    mlAssetSigRsaBlockSize true (some pem) true = some (some (byteLength n)) := by
  obtain ⟨front, body, behind, text, first, spelled⟩ := key.text
  have small := sextets_lt (rsaPublicKey n e)
  have long := body_length spelled
  have bytes := length_sextets (rsaPublicKey n e)
  have begins : FirstAt pem beginMarker 0 front.length := by
    refine ⟨Nat.zero_le _, ?_, fun k _ before => first k before⟩
    rw [text, List.drop_left]
    exact List.prefix_append _ _
  have ends : FirstAt pem pemEnd (front.length + beginMarker.length)
      (front.length + beginMarker.length + body.length) := by
    have ends := @pemEnd_first (front ++ beginMarker) body behind (body_plain small spelled)
    rwa [List.append_assoc, ← text, List.length_append] at ends
  have inside := ends.inside pemEnd_ne_nil
  have between : (pem.drop (front.length + beginMarker.length)).take body.length = body := by
    rw [text, ← List.drop_drop, List.drop_left, List.drop_left, List.take_left]
  have markers : beginMarker.length = 30 ∧ pemEnd.length = 28 := ⟨rfl, rfl⟩
  have room : ¬ (!true || pem.length < (beginMarker.length + 1) + (pemEnd.length + 1)) = true := by
    have two := length_rsaPublicKey n e
    simp only [Bool.not_true, Bool.false_or, decide_eq_true_eq]
    omega
  obtain ⟨d, decodes, decoded⟩ :=
    @decodeText_block pem (front.length + beginMarker.length) body.length (by omega)
  rw [between, decodedText, filterMap_body small spelled, read_sextets] at decoded
  have parses := parseSequence_of (@key_rsaPublicKey n e positive (by omega))
  have first_marker := findMarker_first beginMarker_ne_nil begins
  have second_marker := findMarker_first pemEnd_ne_nil ends
  rw [mlAssetSigRsaBlockSize, if_neg room]
  simp only [first_marker, second_marker, Option.bind_eq_bind, Option.bind_some, Bool.not_true,
    Bool.false_eq_true, if_false, Nat.add_sub_cancel_left, decodes, decoded, parses]

/-- The block size of every key, and what is accepted of any text. -/
theorem mlAssetSigRsaBlockSize_exact :
    (∀ pem n e, 0 < n → 0 < e → pem.length < 2 ^ 64 → PemKey pem n e →
      mlAssetSigRsaBlockSize true (some pem) true = some (some ((n.size + 7) / 8))) ∧
    ∀ pem hasBlockSize, Returns (mlAssetSigRsaBlockSize true pem hasBlockSize) fun r => ∀ blockSize,
      r = some blockSize → ∃ text beginOffset endOffset, pem = some text ∧
        Accepted text blockSize beginOffset endOffset :=
  ⟨fun _ _ _ positive _ word key => mlAssetSigRsaBlockSize_key positive word key, mlAssetSigRsaBlockSize_returns⟩

private def shortPem : List UInt8 :=
  beginMarker ++ (letters "\nMAgCAwCQ\r\nAQIBAw==\n" ++ (pemEnd ++ [10]))

private theorem shortPem_key : PemKey shortPem 0x9001 3 := by
  have modulus : bigEndian 0x9001 = [0x90, 1] := by simp [bigEndian]
  have exponent : bigEndian 3 = [3] := by simp [bigEndian]
  refine ⟨[], letters "\nMAgCAwCQ\r\nAQIBAw==\n", [10], rfl, by simp, ?_⟩
  simp only [rsaPublicKey, integerContent, modulus, exponent]
  decide

theorem mlAssetSigRsaBlockSize_exact_short : mlAssetSigRsaBlockSize true (some shortPem) true = some (some 2) := by
  have size : (Nat.size 0x9001 + 7) / 8 = 2 := by decide
  have exact := mlAssetSigRsaBlockSize_exact.1 shortPem 0x9001 3 (by decide) (by decide) (by decide) shortPem_key
  rwa [size] at exact

end Yafsml.Patches.AssetSig
