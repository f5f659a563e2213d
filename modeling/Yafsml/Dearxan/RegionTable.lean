import Yafsml.Dearxan.Regions
import Yafsml.Foundation.Leb128

/-!
# Tables of encrypted regions

What `dearxan_parse_encrypted_regions` accepts: distances and sizes in base 128, the last distance to
the end of the address space.
-/

namespace Yafsml.Dearxan

open LittleEndian Leb128

structure Varint (spelling : List Byte) (value : Nat) : Prop where
  spells : Spells spelling value
  short : spelling.length ≤ 5
  small : value < 2 ^ 32

theorem fits_varint {spelling : List Byte} {value : Nat} :
    Fits 32 0 0 spelling value ↔ Varint spelling value := by
  constructor
  · rintro ⟨spells, short, small⟩
    exact ⟨spells, by omega, by omega⟩
  · rintro ⟨spells, short, small⟩
    exact ⟨spells, by omega, by omega⟩

theorem payload_over_iff (payload shift : Nat) :
    (payload ≠ 0 ∧ uint32Max / 2 ^ shift < payload) ↔ 2 ^ 32 ≤ payload * 2 ^ shift := by
  have max : uint32Max = 2 ^ 32 - 1 := rfl
  rw [Nat.div_lt_iff_lt_mul (Nat.two_pow_pos shift), max]
  constructor
  · rintro ⟨-, over_max⟩
    omega
  · intro large
    refine ⟨?_, by omega⟩
    rintro rfl
    omega

theorem readVarint_eq_some {bytes rest : List Byte} {shift result value : Nat} :
    readVarint shift result bytes = some (value, rest) ↔
      ∃ spelling number, bytes = spelling ++ rest ∧ Fits 32 shift result spelling number ∧
        value = result + number * 2 ^ shift := by
  have max : uint32Max = 2 ^ 32 - 1 := rfl
  induction bytes generalizing shift result with
  | nil =>
      simp only [readVarint, reduceCtorEq, false_iff]
      rintro ⟨spelling, number, split, fits, -⟩
      have positive := fits.1.pos
      rw [(List.append_eq_nil_iff.mp split.symm).1] at positive
      exact absurd positive (Nat.lt_irrefl 0)
  | cons byte bytes ih =>
      rw [readVarint]
      simp only [payload_over_iff]
      split
      · rename_i outside
        simp only [reduceCtorEq, false_iff]
        rintro ⟨spelling, number, split, ⟨spells, short, small⟩, -⟩
        cases spells with
        | last ends =>
            obtain ⟨rfl, -⟩ := List.cons.inj split
            rw [Nat.mod_eq_of_lt ends] at outside
            rcases outside with past | large
            · omega
            · omega
        | more continues tail =>
            obtain ⟨rfl, -⟩ := List.cons.inj split
            rw [Nat.add_mul] at small
            rcases outside with past | large
            · omega
            · omega
      · rename_i inside
        rw [not_or] at inside
        split
        · rename_i above
          simp only [reduceCtorEq, false_iff]
          rintro ⟨spelling, number, split, ⟨spells, short, small⟩, -⟩
          cases spells with
          | last ends =>
              obtain ⟨rfl, -⟩ := List.cons.inj split
              rw [Nat.mod_eq_of_lt ends] at above
              omega
          | more continues tail =>
              obtain ⟨rfl, -⟩ := List.cons.inj split
              rw [Nat.add_mul] at small
              omega
        · rename_i below
          split
          · rename_i ends
            rw [Nat.mod_eq_of_lt ends] at below inside ⊢
            constructor
            · intro found
              obtain ⟨rfl, rfl⟩ := Prod.mk.inj (Option.some.inj found)
              exact ⟨[byte], byte.toNat, rfl, ⟨.last ends, by simp; omega, by omega⟩, rfl⟩
            · rintro ⟨spelling, number, split, ⟨spells, short, small⟩, rfl⟩
              cases spells with
              | last ends' =>
                  obtain ⟨rfl, rfl⟩ := List.cons.inj split
                  rfl
              | more continues tail =>
                  obtain ⟨rfl, -⟩ := List.cons.inj split
                  exact absurd continues (Nat.not_le.mpr ends)
          · rename_i continues
            apply ih.trans
            constructor
            · rintro ⟨spelling, number, rfl, fits, rfl⟩
              have here := (fits_more (Nat.not_lt.mp continues) fits.1.pos).mpr fits
              refine ⟨byte :: spelling, _, rfl, here, ?_⟩
              rw [Nat.pow_add]
              ring
            · rintro ⟨spelling, number, split, fits, rfl⟩
              cases fits.1 with
              | last ends =>
                  obtain ⟨rfl, -⟩ := List.cons.inj split
                  exact absurd ends continues
              | more continues' tail =>
                  obtain ⟨rfl, rfl⟩ := List.cons.inj split
                  refine ⟨_, _, rfl, (fits_more continues' tail.pos).mp fits, ?_⟩
                  rw [Nat.pow_add]
                  ring

theorem dearxanReadVarint_eq_some {bytes rest : List Byte} {value : Nat} :
    dearxanReadVarint bytes = some (value, rest) ↔
      ∃ spelling, bytes = spelling ++ rest ∧ Varint spelling value := by
  rw [dearxanReadVarint, readVarint_eq_some]
  constructor
  · rintro ⟨spelling, number, split, fits, rfl⟩
    refine ⟨spelling, split, ?_⟩
    rw [Nat.zero_add, Nat.pow_zero, Nat.mul_one]
    exact fits_varint.mp fits
  · rintro ⟨spelling, split, varint⟩
    exact ⟨spelling, value, split, fits_varint.mpr varint, by simp⟩

theorem encode_varint {value : Nat} (small : value < 2 ^ 32) : Varint (encode value) value :=
  ⟨encode_spells value, length_encode (show value < 128 ^ (4 + 1) by omega), small⟩

structure RegionOutputs where
  regions : List EncryptedRegion
  regionCount : Nat
  streamSize : Nat
  deriving DecidableEq, Repr

section Parser

-- whether `dearxan_reserve_array` can make room for so many regions
variable (reserve : Nat → Bool)

def parseRegionsLoop (items : List EncryptedRegion) (rva streamOffset : Nat) (bytes : List Byte) :
    Option RegionOutputs :=
  match dearxanReadVarint bytes with
  | none => none
  | some (delta, bytes) =>
      if _near : delta = 0 ∨ uint32Max - delta < rva then none
      else if rva + delta = uint32Max then some ⟨items, items.length, streamOffset⟩
      else
        match dearxanReadVarint bytes with
        | none => none
        | some (size, bytes) =>
            if size = 0 ∨ uint32Max - size < rva + delta ∨ sizeMax - size < streamOffset then none
            else if reserve (items.length + 1) then
              parseRegionsLoop (items ++ [⟨streamOffset, size, rva + delta⟩]) (rva + delta + size)
                (streamOffset + size) bytes
            else none
termination_by uint32Max - rva
decreasing_by omega

/-- `dearxan_parse_encrypted_regions`, with the caller's variables before and after. -/
def parseEncryptedRegions (bytes : List Byte) (out : RegionOutputs) : Bool × RegionOutputs :=
  match parseRegionsLoop reserve [] 0 0 bytes with
  | some parsed => (true, parsed)
  | none => (false, out)

end Parser

theorem length_of_dearxanReadVarint {bytes rest : List Byte} {value : Nat}
    (read : dearxanReadVarint bytes = some (value, rest)) : rest.length < bytes.length := by
  obtain ⟨spelling, rfl, varint⟩ := dearxanReadVarint_eq_some.mp read
  have positive := varint.spells.pos
  rw [List.length_append]
  omega

theorem parseRegionsLoop_eq_parseRegions {fuel rva streamOffset : Nat} {bytes : List Byte}
    (enough : bytes.length < fuel) (items : List EncryptedRegion) :
    parseRegionsLoop (fun _ => true) items rva streamOffset bytes =
      (parseRegions fuel rva streamOffset bytes).map fun parsed =>
        ⟨items ++ parsed.1, (items ++ parsed.1).length, parsed.2⟩ := by
  induction fuel generalizing rva streamOffset bytes items with
  | zero => omega
  | succ fuel ih =>
      rw [parseRegionsLoop, parseRegions]
      cases read : dearxanReadVarint bytes with
      | none => rfl
      | some found =>
          obtain ⟨delta, bytes'⟩ := found
          simp only [Option.bind_eq_bind, Option.bind_some]
          by_cases near : delta = 0 ∨ uint32Max - delta < rva
          · rw [dif_pos near, if_pos near]
            rfl
          · rw [dif_neg near, if_neg near]
            by_cases reaches : rva + delta = uint32Max
            · rw [if_pos reaches, if_pos reaches]
              simp
            · rw [if_neg reaches, if_neg reaches]
              cases read' : dearxanReadVarint bytes' with
              | none => rfl
              | some found' =>
                  obtain ⟨size, bytes''⟩ := found'
                  rw [show (2 ^ 64 - 1 : Nat) = sizeMax from rfl]
                  simp only [Option.bind_some]
                  by_cases outside : size = 0 ∨ uint32Max - size < rva + delta ∨
                      sizeMax - size < streamOffset
                  · rw [if_pos outside, if_pos outside]
                    rfl
                  · have shorter := length_of_dearxanReadVarint read
                    have shorter' := length_of_dearxanReadVarint read'
                    rw [if_neg outside, if_neg outside, if_pos trivial, ih (by omega)]
                    cases parseRegions fuel (rva + delta + size) (streamOffset + size) bytes'' with
                    | none => rfl
                    | some parsed => simp

theorem parseEncryptedRegions_eq (bytes : List Byte) (out : RegionOutputs) :
    parseEncryptedRegions (fun _ => true) bytes out =
      match dearxanParseEncryptedRegions bytes with
      | some (regions, streamSize) => (true, ⟨regions, regions.length, streamSize⟩)
      | none => (false, out) := by
  rw [parseEncryptedRegions, dearxanParseEncryptedRegions,
    parseRegionsLoop_eq_parseRegions (Nat.lt_succ_self _)]
  cases parseRegions (bytes.length + 1) 0 0 bytes with
  | none => rfl
  | some parsed => rfl

/-- A table from the address `rva` on, and its regions; their bytes come at `offset` in the stream. -/
inductive RegionTable : (rva offset : Nat) → List Byte → List EncryptedRegion → Prop
  | finish {rva offset delta : Nat} {spelling : List Byte} (varint : Varint spelling delta)
      (positive : 0 < delta) (reaches : rva + delta = uint32Max) : RegionTable rva offset spelling []
  | region {rva offset delta size : Nat} {distance extent more : List Byte}
      {regions : List EncryptedRegion} (first : Varint distance delta) (second : Varint extent size)
      (apart : 0 < delta) (nonempty : 0 < size) (ends : rva + delta + size ≤ uint32Max)
      (rest : RegionTable (rva + delta + size) (offset + size) more regions) :
      RegionTable rva offset (distance ++ (extent ++ more)) (⟨offset, size, rva + delta⟩ :: regions)

def totalSize (regions : List EncryptedRegion) : Nat := (regions.map EncryptedRegion.size).sum

theorem RegionTable.parses {rva offset : Nat} {table : List Byte} {regions : List EncryptedRegion}
    (accepted : RegionTable rva offset table regions) (low : offset ≤ rva) (rest : List Byte)
    (items : List EncryptedRegion) :
    parseRegionsLoop (fun _ => true) items rva offset (table ++ rest) =
      some ⟨items ++ regions, (items ++ regions).length, offset + totalSize regions⟩ := by
  have max : uint32Max = 2 ^ 32 - 1 := rfl
  have wide : sizeMax = 2 ^ 64 - 1 := rfl
  induction accepted generalizing items with
  | finish varint positive reaches =>
      rw [parseRegionsLoop, dearxanReadVarint_eq_some.mpr ⟨_, rfl, varint⟩]
      simp only
      rw [dif_neg (by omega), if_pos reaches]
      simp [totalSize]
  | @region rva offset delta size distance extent more regions first second apart nonempty ends tail ih =>
      rw [List.append_assoc, List.append_assoc, parseRegionsLoop,
        dearxanReadVarint_eq_some.mpr ⟨_, rfl, first⟩]
      simp only
      rw [dif_neg (by omega), if_neg (by omega),
        dearxanReadVarint_eq_some.mpr ⟨_, rfl, second⟩]
      simp only
      rw [if_neg (by omega), if_pos trivial, ih (by omega)]
      simp [totalSize, Nat.add_assoc]

theorem parseRegionsLoop_table {items : List EncryptedRegion} {rva offset : Nat}
    {bytes : List Byte} {out : RegionOutputs}
    (parsed : parseRegionsLoop (fun _ => true) items rva offset bytes = some out) :
    ∃ table rest regions, bytes = table ++ rest ∧ RegionTable rva offset table regions := by
  have max : uint32Max = 2 ^ 32 - 1 := rfl
  fun_induction parseRegionsLoop (fun _ => true) items rva offset bytes with
  | case1 => cases parsed
  | case2 => cases parsed
  | case3 items rva offset bytes delta rest read near reaches =>
      obtain ⟨spelling, rfl, varint⟩ := dearxanReadVarint_eq_some.mp read
      exact ⟨spelling, rest, [], rfl, .finish varint (by omega) reaches⟩
  | case4 => cases parsed
  | case5 => cases parsed
  | case6 items rva offset bytes delta rest read near further size rest' read' inside room ih =>
      obtain ⟨distance, rfl, first⟩ := dearxanReadVarint_eq_some.mp read
      obtain ⟨extent, rfl, second⟩ := dearxanReadVarint_eq_some.mp read'
      obtain ⟨table, rest, regions, rfl, accepted⟩ := ih parsed
      exact ⟨distance ++ (extent ++ table), rest, _, by simp [List.append_assoc],
        .region first second (by omega) (by omega) (by omega) accepted⟩
  | case7 => cases parsed

/-- The regions of a table: in ascending order with a gap before each, and one after the other in the
stream. -/
structure Separated (regions : List EncryptedRegion) : Prop where
  increasing : regions.Pairwise fun a b => a.rva + a.size < b.rva
  contiguous : ∀ before r after, regions = before ++ r :: after → r.streamOffset = totalSize before
  bounds : ∀ r ∈ regions, 0 < r.rva ∧ 0 < r.size ∧ r.rva + r.size ≤ uint32Max

/-- The same from a running address and a stream offset on. -/
def Follows : (rva offset : Nat) → List EncryptedRegion → Prop
  | _, _, [] => True
  | rva, offset, r :: rest => rva < r.rva ∧ 0 < r.size ∧ r.rva + r.size ≤ uint32Max ∧
      r.streamOffset = offset ∧ Follows (r.rva + r.size) (offset + r.size) rest

theorem RegionTable.follows {rva offset : Nat} {table : List Byte} {regions : List EncryptedRegion}
    (accepted : RegionTable rva offset table regions) : Follows rva offset regions := by
  induction accepted with
  | finish varint positive reaches => trivial
  | region first second apart nonempty ends rest ih =>
      exact ⟨by simpa using apart, nonempty, ends, rfl, ih⟩

theorem follows_iff {rva offset : Nat} {regions : List EncryptedRegion} :
    Follows rva offset regions ↔
      (regions.Pairwise fun a b => a.rva + a.size < b.rva) ∧
      (∀ before r after, regions = before ++ r :: after → r.streamOffset = offset + totalSize before) ∧
      ∀ r ∈ regions, rva < r.rva ∧ 0 < r.size ∧ r.rva + r.size ≤ uint32Max := by
  induction regions generalizing rva offset with
  | nil => simp [Follows]
  | cons first rest ih =>
      rw [Follows, ih]
      constructor
      · rintro ⟨apart, nonempty, ends, start, increasing, contiguous, bounds⟩
        refine ⟨List.pairwise_cons.mpr ⟨fun r member => (bounds r member).1, increasing⟩, ?_, ?_⟩
        · intro before r after split
          cases before with
          | nil =>
              obtain ⟨rfl, -⟩ := List.cons.inj split
              exact start
          | cons head before =>
              obtain ⟨rfl, later⟩ := List.cons.inj split
              rw [contiguous before r after later]
              simp [totalSize, Nat.add_assoc]
        · intro r member
          rcases List.mem_cons.mp member with rfl | member
          · exact ⟨apart, nonempty, ends⟩
          · have bound := bounds r member
            exact ⟨by omega, bound.2⟩
      · rintro ⟨increasing, contiguous, bounds⟩
        obtain ⟨apart, nonempty, ends⟩ := bounds first List.mem_cons_self
        have pairs := List.pairwise_cons.mp increasing
        refine ⟨apart, nonempty, ends, contiguous [] first rest rfl, pairs.2, ?_, ?_⟩
        · intro before r after split
          rw [contiguous (first :: before) r after (by rw [split]; rfl)]
          simp [totalSize, Nat.add_assoc]
        · intro r member
          exact ⟨pairs.1 r member, (bounds r (List.mem_cons_of_mem _ member)).2⟩

theorem separated_iff {regions : List EncryptedRegion} :
    Separated regions ↔ Follows 0 0 regions := by
  rw [follows_iff]
  simp only [Nat.zero_add]
  exact ⟨fun h => ⟨h.increasing, h.contiguous, h.bounds⟩, fun h => ⟨h.1, h.2.1, h.2.2⟩⟩

def encodeRegions (rva : Nat) : List EncryptedRegion → List Byte
  | [] => encode (uint32Max - rva)
  | r :: rest => encode (r.rva - rva) ++ (encode r.size ++ encodeRegions (r.rva + r.size) rest)

def lastEnd (rva : Nat) : List EncryptedRegion → Nat
  | [] => rva
  | r :: rest => lastEnd (r.rva + r.size) rest

theorem Follows.encoded {rva offset : Nat} {regions : List EncryptedRegion}
    (follows : Follows rva offset regions) (room : lastEnd rva regions < uint32Max) :
    RegionTable rva offset (encodeRegions rva regions) regions := by
  have max : uint32Max = 2 ^ 32 - 1 := rfl
  induction regions generalizing rva offset with
  | nil =>
      rw [lastEnd] at room
      exact .finish (encode_varint (by omega)) (by omega) (by omega)
  | cons first rest ih =>
      obtain ⟨streamOffset, size, start⟩ := first
      obtain ⟨apart, nonempty, ends, rfl, later⟩ := follows
      simp only at apart nonempty ends later
      have address : rva + (start - rva) = start := by omega
      have tail := ih later room
      rw [← address] at tail
      have table := RegionTable.region (encode_varint (show start - rva < 2 ^ 32 by omega))
        (encode_varint (show size < 2 ^ 32 by omega)) (by omega) nonempty (by omega) tail
      rwa [address] at table

theorem parseEncryptedRegions_eq_true_iff {bytes : List Byte} {out : RegionOutputs} :
    (parseEncryptedRegions (fun _ => true) bytes out).1 = true ↔
      ∃ table rest regions, bytes = table ++ rest ∧ RegionTable 0 0 table regions := by
  rw [parseEncryptedRegions]
  constructor
  · intro success
    split at success
    · rename_i parsed
      exact parseRegionsLoop_table parsed
    · cases success
  · rintro ⟨table, rest, regions, rfl, accepted⟩
    rw [accepted.parses (Nat.le_refl 0) rest []]

theorem parseEncryptedRegions_table {table : List Byte} {regions : List EncryptedRegion}
    (accepted : RegionTable 0 0 table regions) (rest : List Byte) (out : RegionOutputs) :
    parseEncryptedRegions (fun _ => true) (table ++ rest) out =
      (true, ⟨regions, regions.length, totalSize regions⟩) := by
  rw [parseEncryptedRegions, accepted.parses (Nat.le_refl 0) rest []]
  simp

/-- The parser takes exactly the tables, with any bytes behind them; it writes their regions, and
nothing when it fails; and every list of separated regions has a table. -/
theorem parseEncryptedRegions_exact :
    (∀ (bytes : List Byte) (out : RegionOutputs),
      ((parseEncryptedRegions (fun _ => true) bytes out).1 = true ↔
        ∃ table rest regions, bytes = table ++ rest ∧ RegionTable 0 0 table regions) ∧
      ((parseEncryptedRegions (fun _ => true) bytes out).1 = true →
        let parsed := (parseEncryptedRegions (fun _ => true) bytes out).2
        (∃ table rest, bytes = table ++ rest ∧ RegionTable 0 0 table parsed.regions) ∧
          Separated parsed.regions ∧ parsed.regionCount = parsed.regions.length ∧
          parsed.streamSize = totalSize parsed.regions) ∧
      ((parseEncryptedRegions (fun _ => true) bytes out).1 = false →
        (parseEncryptedRegions (fun _ => true) bytes out).2 = out)) ∧
    ∀ (regions : List EncryptedRegion) (out : RegionOutputs), Separated regions →
      lastEnd 0 regions < uint32Max →
      parseEncryptedRegions (fun _ => true) (encodeRegions 0 regions) out =
        (true, ⟨regions, regions.length, totalSize regions⟩) := by
  refine ⟨fun bytes out => ⟨parseEncryptedRegions_eq_true_iff, ?_, ?_⟩, ?_⟩
  · intro success
    obtain ⟨table, rest, regions, rfl, accepted⟩ := parseEncryptedRegions_eq_true_iff.mp success
    rw [parseEncryptedRegions_table accepted rest out]
    exact ⟨⟨table, rest, rfl, accepted⟩, separated_iff.mpr accepted.follows, rfl, rfl⟩
  · intro failure
    rw [parseEncryptedRegions] at failure ⊢
    split at failure
    · cases failure
    · rfl
  · intro regions out separated room
    have accepted := (separated_iff.mp separated).encoded room
    have parsed := parseEncryptedRegions_table accepted [] out
    rwa [List.append_nil] at parsed

end Yafsml.Dearxan
