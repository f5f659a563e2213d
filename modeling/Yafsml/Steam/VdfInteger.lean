import Mathlib.Data.List.TakeWhile
import Mathlib.Tactic.IntervalCases
import Mathlib.Tactic.SplitIfs
import Yafsml.Steam.Vdf

/-!
# Integers of a VDF text

`set_value` stores an integer as it formats it, and `get_int` reads what is stored.
-/

namespace Yafsml.Steam

section Storing

variable (alloc : Nat → Bool)

def setValue (key : Option Text) (value : Text) (p : VdfParser) : VdfObject × VdfParser :=
  match allocate alloc p with
  | (false, p) => (.none key, p)
  | (true, p) => (.string key (storedValue value), p)

theorem loadString_child (v : VdfValue) (key : Text) :
    (loadString alloc v key).child =
      (setValue alloc (some key) (v.read.token.getD []) v.read.parser).1 := by
  rw [loadString, setValue]
  cases allocate alloc v.read.parser with
  | mk ok p =>
      cases ok with
      | false => rfl
      | true =>
          dsimp only
          cases (readToken p).conditional with
          | false => rfl
          | true => rfl

end Storing

def vdfObjectIndexArrayStr : VdfObject → Text → Option VdfObject
  | .array _ children, key => children.find? (hasKey key)
  | _, _ => none

def vdfObjectGetString : VdfObject → Option Text
  | .string _ value => some value
  | _ => none

def getString (object : VdfObject) (key : Text) : Text :=
  ((vdfObjectIndexArrayStr object key).bind vdfObjectGetString).getD []

def hexDigit (c : UInt8) : Option Nat :=
  if isDigit c then some (c.toNat - 48)
  else if 97 ≤ c && c ≤ 102 then some (c.toNat - 97 + 10)
  else if 65 ≤ c && c ≤ 70 then some (c.toNat - 65 + 10)
  else none

def wrapDigits (digit : UInt8 → Option Nat) (base : Nat) : BitVec 32 → Text → BitVec 32
  | value, [] => value
  | value, c :: rest =>
      match digit c with
      | some d => wrapDigits digit base (value * BitVec.ofNat 32 base + BitVec.ofNat 32 d) rest
      | none => value

def decimalDigit (c : UInt8) : Option Nat := if isDigit c then some (c.toNat - 48) else none

def readMagnitude (s : Text) : BitVec 32 :=
  if s.headD 0 = 48 ∧ (s.tail.headD 0 = 120 ∨ s.tail.headD 0 = 88) then wrapDigits hexDigit 16 0 (s.drop 2)
  -- a quoted character is a `signed char`
  else if s.headD 0 = 39 then (s.tail.headD 0).toBitVec.signExtend 32
  else wrapDigits decimalDigit 10 0 s

def getInt (object : VdfObject) (key : Text) : BitVec 32 :=
  let s := getString object key
  if s.headD 0 = 45 then readMagnitude s.tail * BitVec.allOnes 32
  else if s.headD 0 = 43 then readMagnitude s.tail * 1
  else readMagnitude s * 1

theorem isDigit_toUInt8 {c : Char} (digit : c.isDigit = true) :
    isDigit c.toNat.toUInt8 = true ∧ c.toNat.toUInt8.toNat = c.toNat := by
  have range : 48 ≤ c.toNat ∧ c.toNat ≤ 57 := by
    rw [Char.isDigit, Bool.and_eq_true, decide_eq_true_eq, decide_eq_true_eq] at digit
    exact digit
  have same : c.toNat.toUInt8.toNat = c.toNat := by
    rw [UInt8.toNat_ofNat']
    exact Nat.mod_eq_of_lt (by omega)
  refine ⟨?_, same⟩
  rw [isDigit, Bool.and_eq_true, decide_eq_true_eq, decide_eq_true_eq, UInt8.le_iff_toNat_le,
    UInt8.le_iff_toNat_le, same]
  exact range

def ascii (s : String) : Text := s.toList.map fun c => c.toNat.toUInt8

def decimal (n : Nat) : Text := (Nat.toDigits 10 n).map fun c => c.toNat.toUInt8

theorem decimal_isDigit (n : Nat) : ∀ c ∈ decimal n, isDigit c = true := by
  intro c member
  obtain ⟨digit, within, rfl⟩ := List.mem_map.mp member
  exact (isDigit_toUInt8 (Nat.isDigit_of_mem_toDigits (by decide) (by decide) within)).1

theorem decimal_ne_nil (n : Nat) : decimal n ≠ [] := by
  rw [decimal, Ne, List.map_eq_nil_iff]
  exact Nat.toDigits_ne_nil

theorem digitsValue_decimal (n : Nat) : digitsValue (decimal n) = n := by
  have fold (digits : List Char) (all : ∀ c ∈ digits, c.isDigit = true) (m : Nat) :
      (digits.map fun c => c.toNat.toUInt8).foldl (fun n c => 10 * n + (c.toNat - 48)) m =
        Nat.ofDigitChars 10 digits m := by
    induction digits generalizing m with
    | nil => rfl
    | cons c digits ih =>
        rw [List.map_cons, List.foldl_cons, Nat.ofDigitChars_cons, (isDigit_toUInt8 (all c List.mem_cons_self)).2]
        exact ih (fun c within => all c (List.mem_cons_of_mem _ within)) _
  rw [digitsValue, decimal, fold _ fun c => Nat.isDigit_of_mem_toDigits (by decide) (by decide)]
  exact Nat.ofDigitChars_ten_toDigits

theorem decimal_head {n : Nat} (positive : 0 < n) : (decimal n).head? ≠ some 48 := by
  induction n using Nat.strongRecOn with
  | ind n ih =>
      by_cases small : n < 10
      · rw [decimal, Nat.toDigits_of_lt_base small]
        interval_cases n <;> decide
      · have split : decimal n = decimal (n / 10) ++ decimal (n % 10) := by
          rw [decimal, Nat.toDigits_of_base_le (by decide) (Nat.not_lt.mp small), List.map_append, decimal, decimal,
            Nat.toDigits_of_lt_base (Nat.mod_lt n (by decide))]
        obtain ⟨first, rest, digits⟩ := List.exists_cons_of_ne_nil (decimal_ne_nil (n / 10))
        have front := ih (n / 10) (by omega) (by omega)
        rw [digits] at front
        rw [split, digits]
        exact front

inductive Signed : Text → Int → Prop
  | plain {digits : Text} (nonempty : digits ≠ []) (all : ∀ c ∈ digits, isDigit c = true) :
      Signed digits (digitsValue digits)
  | plus {digits : Text} (nonempty : digits ≠ []) (all : ∀ c ∈ digits, isDigit c = true) :
      Signed (43 :: digits) (digitsValue digits)
  | minus {digits : Text} (nonempty : digits ≠ []) (all : ∀ c ∈ digits, isDigit c = true) :
      Signed (45 :: digits) (-(digitsValue digits : Int))

def clampLong (number : Int) : Int × Text × Bool :=
  if longMax < number then (longMax, [], true)
  else if number < longMin then (longMin, [], true)
  else (number, [], false)

section Digits

variable {digits spaces text : Text} {number : Int}

theorem takeWhile_digits (all : ∀ c ∈ digits, isDigit c = true) : digits.takeWhile isDigit = digits :=
  List.takeWhile_eq_self_iff.mpr all

theorem dropWhile_digits (all : ∀ c ∈ digits, isDigit c = true) : digits.dropWhile isDigit = [] :=
  List.dropWhile_eq_nil_iff.mpr all

theorem isDigit_not_space {c : UInt8} (digit : isDigit c = true) :
    isSpace c = false ∧ c ≠ 45 ∧ c ≠ 43 := by
  simp only [isDigit, Bool.and_eq_true, decide_eq_true_eq, UInt8.le_iff_toNat_le, UInt8.reduceToNat] at digit
  simp only [isSpace, blank, Bool.or_eq_false_iff, Bool.and_eq_false_iff, decide_eq_false_iff_not, ne_eq,
    UInt8.le_iff_toNat_le, ← UInt8.toNat_inj, UInt8.reduceToNat]
  omega

theorem Signed.head (signed : Signed text number) : ∃ c rest, text = c :: rest ∧ isSpace c = false := by
  cases signed with
  | plain nonempty all =>
      obtain ⟨c, rest, rfl⟩ := List.exists_cons_of_ne_nil nonempty
      exact ⟨c, rest, rfl, (isDigit_not_space (all c List.mem_cons_self)).1⟩
  | plus => exact ⟨_, _, rfl, rfl⟩
  | minus => exact ⟨_, _, rfl, rfl⟩

theorem dropWhile_spaces (blanks : ∀ c ∈ spaces, isSpace c = true) (signed : Signed text number) :
    (spaces ++ text).dropWhile isSpace = text := by
  obtain ⟨c, rest, rfl, other⟩ := signed.head
  rw [List.dropWhile_append_of_pos blanks, List.dropWhile_cons_of_neg (Bool.eq_false_iff.mp other)]

theorem strtol_signed (blanks : ∀ c ∈ spaces, isSpace c = true) (signed : Signed text number) :
    strtol (spaces ++ text) = clampLong number := by
  rw [strtol, dropWhile_spaces blanks signed]
  cases signed with
  | plain nonempty all =>
      obtain ⟨c, rest, rfl⟩ := List.exists_cons_of_ne_nil nonempty
      obtain ⟨-, minus, plus⟩ := isDigit_not_space (all c List.mem_cons_self)
      simp only [minus, plus, if_false, takeWhile_digits all, dropWhile_digits all, nonempty, Bool.false_eq_true]
      rfl
  | plus nonempty all =>
      simp only [show (43 : UInt8) ≠ 45 from by decide, if_false, if_true, takeWhile_digits all,
        dropWhile_digits all, nonempty, Bool.false_eq_true]
      rfl
  | minus nonempty all =>
      simp only [if_true, takeWhile_digits all, dropWhile_digits all, nonempty, if_false]
      rfl

theorem clampLong_inside (above : longMin ≤ number) (below : number ≤ longMax) :
    clampLong number = (number, [], false) := by
  rw [clampLong, if_neg (Int.not_lt.mpr below), if_neg (Int.not_lt.mpr above)]

theorem clampLong_range {rest : Text} {result : Int} (same : clampLong number = (result, rest, false)) :
    result = number ∧ longMin ≤ number ∧ number ≤ longMax := by
  rw [clampLong] at same
  split_ifs at same with above below
  · cases same
  · cases same
  · cases same
    exact ⟨rfl, Int.not_lt.mp below, Int.not_lt.mp above⟩

theorem signed_of_strtol {value : Text} (nonempty : value ≠ []) (read : (strtol value).2.1 = []) :
    ∃ spaces text number, value = spaces ++ text ∧ (∀ c ∈ spaces, isSpace c = true) ∧ Signed text number := by
  have digits_of {unsigned : Text} {n : Int} (ended :
      (if unsigned.takeWhile isDigit = [] then ((0 : Int), value, false)
      else if longMax < n then (longMax, unsigned.dropWhile isDigit, true)
      else if n < longMin then (longMin, unsigned.dropWhile isDigit, true)
      else (n, unsigned.dropWhile isDigit, false)).2.1 = []) :
      unsigned ≠ [] ∧ ∀ c ∈ unsigned, isDigit c = true := by
    split_ifs at ended with none
    · exact absurd ended nonempty
    all_goals
      refine ⟨?_, List.dropWhile_eq_nil_iff.mp ended⟩
      rintro rfl
      exact none rfl
  refine ⟨value.takeWhile isSpace, value.dropWhile isSpace, ?_⟩
  rw [strtol] at read
  cases behind : value.dropWhile isSpace with
  | nil =>
      rw [behind] at read
      exact absurd read nonempty
  | cons c rest =>
      rw [behind] at read
      have split : value = value.takeWhile isSpace ++ c :: rest := by rw [← behind, List.takeWhile_append_dropWhile]
      have blanks : ∀ d ∈ value.takeWhile isSpace, isSpace d = true := fun d => List.mem_takeWhile_imp
      dsimp only at read
      by_cases minus : c = 45
      · rw [if_pos minus] at read
        obtain ⟨some, all⟩ := digits_of read
        subst minus
        exact ⟨_, split, blanks, .minus some all⟩
      · rw [if_neg minus] at read
        by_cases plus : c = 43
        · rw [if_pos plus] at read
          obtain ⟨some, all⟩ := digits_of read
          subst plus
          exact ⟨_, split, blanks, .plus some all⟩
        · rw [if_neg plus] at read
          obtain ⟨some, all⟩ := digits_of read
          exact ⟨_, split, blanks, .plain some all⟩

end Digits

structure IsInteger (value : Text) (number : Int) : Prop where
  chars : value.all isNumberChar = true
  consumed : ∃ spaces text, value = spaces ++ text ∧ (∀ c ∈ spaces, isSpace c = true) ∧ Signed text number
  range : longMin ≤ number ∧ number ≤ longMax
  first : value.head? ≠ some 48 ∨ value = [48]

theorem IsInteger.strtol {value : Text} {number : Int} (integer : IsInteger value number) :
    value ≠ [] ∧ strtol value = (number, [], false) := by
  obtain ⟨spaces, text, rfl, blanks, signed⟩ := integer.consumed
  refine ⟨?_, (strtol_signed blanks signed).trans (clampLong_inside integer.range.1 integer.range.2)⟩
  obtain ⟨c, rest, rfl, -⟩ := signed.head
  exact List.append_ne_nil_of_right_ne_nil _ (List.cons_ne_nil c rest)

theorem storedValue_integer {value : Text} {number : Int} (integer : IsInteger value number) :
    storedValue value = formatLong number := by
  obtain ⟨nonempty, read⟩ := integer.strtol
  rw [storedValue, if_pos ⟨nonempty, integer.chars⟩, read]
  apply if_pos
  rcases integer.first with other | zero
  · exact .inl ⟨rfl, other, rfl⟩
  · exact .inr zero

theorem storedValue_other {value : Text} (other : ∀ number, ¬ IsInteger value number) :
    storedValue value = value := by
  rw [storedValue]
  split_ifs with candidate
  · dsimp only
    apply if_neg
    intro stored
    have read : (Steam.strtol value).2.1 = [] ∧ (Steam.strtol value).2.2 = false := by
      rcases stored with ⟨rest, -, overflow⟩ | rfl
      · exact ⟨rest, overflow⟩
      · decide
    obtain ⟨spaces, text, number, split, blanks, signed⟩ := signed_of_strtol candidate.1 read.1
    have clamped : clampLong number = ((Steam.strtol value).1, [], false) := by
      rw [← strtol_signed blanks signed, ← split, ← read.1, ← read.2]
    refine other number ⟨candidate.2, ⟨spaces, text, split, blanks, signed⟩, (clampLong_range clamped).2, ?_⟩
    rcases stored with ⟨-, first, -⟩ | zero
    · exact .inl first
    · exact .inr zero
  · rfl

theorem formatLong_negative {number : Int} (negative : number < 0) :
    formatLong number = 45 :: decimal number.natAbs := if_pos negative

theorem formatLong_natural (n : Nat) : formatLong n = decimal n := by
  rw [formatLong, if_neg (Int.not_lt.mpr (Int.natCast_nonneg n))]
  rfl

theorem formatLong_length {number : Int} (range : longMin ≤ number ∧ number ≤ longMax) :
    (formatLong number).length < 16 := by
  have small : number.natAbs < 10 ^ 10 := by
    rw [longMin, longMax] at range
    omega
  have digits : (decimal number.natAbs).length ≤ 10 := by
    rw [decimal, List.length_map]
    exact (Nat.length_toDigits_le_iff (by decide) (by decide)).mpr small
  cases number with
  | ofNat n =>
      rw [Int.ofNat_eq_natCast, formatLong_natural]
      exact Nat.lt_of_le_of_lt digits (by decide)
  | negSucc n =>
      rw [formatLong_negative (Int.negSucc_lt_zero n), List.length_cons]
      exact Nat.lt_of_le_of_lt (Nat.succ_le_succ digits) (by decide)

theorem formatLong_repr (number : Int) : formatLong number = ascii (toString number) := by
  rw [Int.toString_eq_repr, Int.repr_eq_if]
  cases number with
  | ofNat n =>
      rw [Int.ofNat_eq_natCast, if_pos (Int.natCast_nonneg n), ascii, Int.toNat_natCast, Nat.toList_repr]
      exact formatLong_natural n
  | negSucc n =>
      rw [if_neg (Int.not_le.mpr (Int.negSucc_lt_zero n)), ascii, String.toList_append, Nat.toList_repr]
      exact formatLong_negative (Int.negSucc_lt_zero n)

theorem isDigit_isNumberChar {c : UInt8} (digit : isDigit c = true) : isNumberChar c = true := by
  rw [isNumberChar, digit, Bool.or_true]

theorem decimal_isNumberChar (n : Nat) : (decimal n).all isNumberChar = true :=
  List.all_eq_true.mpr fun c member => isDigit_isNumberChar (decimal_isDigit n c member)

theorem isInteger_formatLong {number : Int} (range : longMin ≤ number ∧ number ≤ longMax) :
    IsInteger (formatLong number) number := by
  cases number with
  | ofNat n =>
      rw [Int.ofNat_eq_natCast, formatLong_natural]
      have signed : Signed (decimal n) n := by
        have plain := Signed.plain (decimal_ne_nil n) (decimal_isDigit n)
        rwa [digitsValue_decimal] at plain
      refine ⟨decimal_isNumberChar n, ⟨[], _, rfl, nofun, signed⟩, range, ?_⟩
      rcases Nat.eq_zero_or_pos n with rfl | positive
      · exact .inr (by decide)
      · exact .inl (decimal_head positive)
  | negSucc n =>
      rw [formatLong_negative (Int.negSucc_lt_zero n)]
      have signed : Signed (45 :: decimal (n + 1)) (Int.negSucc n) := by
        have minus := Signed.minus (decimal_ne_nil (n + 1)) (decimal_isDigit (n + 1))
        rwa [digitsValue_decimal] at minus
      refine ⟨?_, ⟨[], _, rfl, nofun, signed⟩, range, .inl nofun⟩
      rw [List.all_cons, Bool.and_eq_true]
      exact ⟨by decide, decimal_isNumberChar (n + 1)⟩

theorem wrapDigits_decimal {digits : Text} (all : ∀ c ∈ digits, isDigit c = true) (n : Nat) :
    wrapDigits decimalDigit 10 (BitVec.ofNat 32 n) digits =
      BitVec.ofNat 32 (digits.foldl (fun n c => 10 * n + (c.toNat - 48)) n) := by
  induction digits generalizing n with
  | nil => rfl
  | cons c digits ih =>
      have next : BitVec.ofNat 32 n * BitVec.ofNat 32 10 + BitVec.ofNat 32 (c.toNat - 48) =
          BitVec.ofNat 32 (10 * n + (c.toNat - 48)) := by
        rw [BitVec.ofNat_add, BitVec.ofNat_mul, BitVec.mul_comm]
      rw [wrapDigits, decimalDigit, if_pos (all c List.mem_cons_self)]
      dsimp only
      rw [next, List.foldl_cons]
      exact ih (fun d within => all d (List.mem_cons_of_mem _ within)) _

theorem readMagnitude_decimal (n : Nat) : readMagnitude (decimal n) = BitVec.ofNat 32 n := by
  have all := decimal_isDigit n
  have value := wrapDigits_decimal all 0
  rw [← digitsValue, digitsValue_decimal] at value
  obtain ⟨c, rest, digits⟩ := List.exists_cons_of_ne_nil (decimal_ne_nil n)
  rw [digits] at all value ⊢
  have letter {d : UInt8} (digit : isDigit d = true) : d ≠ 120 ∧ d ≠ 88 ∧ d ≠ 39 := by
    refine ⟨?_, ?_, ?_⟩
    all_goals
      rintro rfl
      exact absurd digit (by decide)
  have second : rest.headD 0 ≠ 120 ∧ rest.headD 0 ≠ 88 := by
    cases rest with
    | nil => decide
    | cons d rest =>
        have other := letter (all d (List.mem_cons_of_mem _ List.mem_cons_self))
        exact ⟨other.1, other.2.1⟩
  have unquoted : (c :: rest).headD 0 ≠ 39 := (letter (all c List.mem_cons_self)).2.2
  rw [readMagnitude, if_neg fun hex => hex.2.elim second.1 second.2, if_neg unquoted]
  exact value

theorem getInt_formatLong {object : VdfObject} {key : Text} {number : Int}
    (stored : getString object key = formatLong number) : getInt object key = BitVec.ofInt 32 number := by
  rw [getInt, stored]
  cases number with
  | ofNat n =>
      obtain ⟨c, rest, digits⟩ := List.exists_cons_of_ne_nil (decimal_ne_nil n)
      have first : isDigit c = true := decimal_isDigit n c (digits ▸ List.mem_cons_self)
      obtain ⟨-, minus, plus⟩ := isDigit_not_space first
      rw [Int.ofNat_eq_natCast, formatLong_natural, if_neg (by rw [digits]; exact minus),
        if_neg (by rw [digits]; exact plus), readMagnitude_decimal]
      exact (BitVec.mul_one _).trans (BitVec.ofInt_natCast 32 n).symm
  | negSucc n =>
      rw [formatLong_negative (Int.negSucc_lt_zero n), List.headD_cons, if_pos rfl, List.tail_cons,
        readMagnitude_decimal, ← BitVec.neg_one_eq_allOnes, BitVec.mul_neg, BitVec.mul_one, Int.negSucc_eq,
        BitVec.ofInt_neg]
      exact congrArg Neg.neg (BitVec.ofInt_natCast 32 (n + 1)).symm

/-- An integer is stored in decimal, which the buffer has room for, and read back modulo `2 ^ 32`; any other text
is stored as it is. What is stored is stored again as it is. -/
theorem setValue_integer (alloc : Nat → Bool) (key : Option Text) (value stored : Text) (p : VdfParser)
    (set : (setValue alloc key value p).1 = .string key stored) :
    (∀ p', alloc p'.attempts = true → (setValue alloc key stored p').1 = .string key stored) ∧
      (∀ number, IsInteger value number → stored = ascii (toString number) ∧ stored.length < 16 ∧
        ∀ object name, getString object name = stored → getInt object name = BitVec.ofInt 32 number) ∧
      ((∀ number, ¬ IsInteger value number) → stored = value) ∧
      ∀ v name, (loadString alloc v name).child =
        (setValue alloc (some name) (v.read.token.getD []) v.read.parser).1 := by
  have is_stored : stored = storedValue value := by
    rw [setValue] at set
    split at set
    · cases set
    · exact (VdfObject.string.inj set).2.symm
  subst is_stored
  refine ⟨fun p' room => ?_, fun number integer => ?_, storedValue_other, loadString_child alloc⟩
  · have again : storedValue (storedValue value) = storedValue value := by
      by_cases integer : ∃ number, IsInteger value number
      · obtain ⟨number, integer⟩ := integer
        rw [storedValue_integer integer]
        exact storedValue_integer (isInteger_formatLong integer.range)
      · rw [storedValue_other (not_exists.mp integer)]
        exact storedValue_other (not_exists.mp integer)
    rw [setValue, allocate, room]
    exact congrArg (VdfObject.string key) again
  · rw [storedValue_integer integer]
    exact ⟨formatLong_repr number, formatLong_length integer.range, fun object name read => getInt_formatLong read⟩

private def minusSeven : Text := [blank, 45, 48, 55]

private theorem minusSeven_integer : IsInteger minusSeven (-7) where
  chars := by decide
  consumed := by
    refine ⟨[blank], [45, 48, 55], rfl, ?_, @Signed.minus [48, 55] (List.cons_ne_nil _ _) ?_⟩
    · rintro c (_ | ⟨_, ⟨⟩⟩)
      rfl
    · rintro c (_ | ⟨_, _ | ⟨_, ⟨⟩⟩⟩)
      · rfl
      · rfl
  range := by decide
  first := .inl (by decide)

theorem setValue_integer_minusSeven :
    (setValue (fun _ => true) none minusSeven ⟨[], false, false, 0⟩).1 = .string none [45, 55] ∧
      ∀ object name, getString object name = [45, 55] → getInt object name = 0xfffffff9 := by
  have set : (setValue (fun _ => true) none minusSeven ⟨[], false, false, 0⟩).1 = .string none [45, 55] :=
    congrArg (VdfObject.string none) (by decide)
  exact ⟨set, ((setValue_integer _ none minusSeven _ _ set).2.1 (-7) minusSeven_integer).2.2⟩

end Yafsml.Steam
