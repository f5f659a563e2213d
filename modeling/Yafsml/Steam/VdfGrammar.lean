import Mathlib.Tactic.Common
import Yafsml.Steam.Vdf

/-!
# Expressions of a conditional

What `&&`, `||`, `!` and parentheses mean, and that the evaluator computes it.
-/

namespace Yafsml.Steam

/-! ## Syntax -/

def isNameChar (c : UInt8) : Bool := isAsciiAlnum c || c = 95

structure VdfName where
  chars : Text
  name : ∀ c ∈ chars, isNameChar c = true
  short : chars.length < vdfIdentifierSize - 1

structure VdfNumber where
  digits : Text
  nonempty : digits ≠ []
  decimal : ∀ c ∈ digits, isDigit c = true
  short : digits.length < vdfIdentifierSize - 1

inductive VdfOperator
  | and
  | or
  deriving DecidableEq

mutual

inductive VdfFactor
  | parentheses (e : VdfFormula)
  | symbol (name : VdfName)
  | number (number : VdfNumber)

inductive VdfFormula
  | term (negated : Bool) (factor : VdfFactor)
  | operation (left : VdfFormula) (operator : VdfOperator) (negated : Bool) (factor : VdfFactor)

end

def VdfOperator.char : VdfOperator → UInt8
  | and => 38
  | or => 124

def negation (negated : Bool) : Text := if negated then [33] else []

mutual

def VdfFactor.text : VdfFactor → Text
  | .parentheses e => 40 :: (e.text ++ [41])
  | .symbol name => dollar :: name.chars
  | .number number => number.digits

def VdfFormula.text : VdfFormula → Text
  | .term negated factor => negation negated ++ factor.text
  | .operation left operator negated factor =>
      left.text ++ (operator.char :: operator.char :: (negation negated ++ factor.text))

end

mutual

def VdfFactor.nesting : VdfFactor → Nat
  | .parentheses e => e.nesting + 1
  | _ => 0

def VdfFormula.nesting : VdfFormula → Nat
  | .term _ factor => factor.nesting
  | .operation left _ _ factor => max left.nesting factor.nesting

end

/-! ## Meaning -/

def symbolValue (name : Text) : Bool := name.map asciiUpper ∈ [49] :: trueSymbols

def VdfOperator.apply : VdfOperator → Bool → Bool → Bool
  | and, left, right => left && right
  | or, left, right => left || right

mutual

def VdfFactor.value : VdfFactor → Bool
  | .parentheses e => e.value
  | .symbol name => symbolValue name.chars
  | .number number => digitsValue number.digits ≠ 0

def VdfFormula.value : VdfFormula → Bool
  | .term negated factor => negated ^^ factor.value
  | .operation left operator negated factor => operator.apply left.value (negated ^^ factor.value)

end

/-! ## Symbols and numbers -/

theorem trueSymbols_upper : ∀ symbol ∈ trueSymbols, symbol.map asciiUpper = symbol := by decide

theorem evaluateSymbol_dollar (name : Text) : evaluateSymbol (dollar :: name) = symbolValue name := by
  have tail_eq (digit : UInt8) (upper : asciiUpper digit = digit) :
      asciiEqual (dollar :: name) [dollar, digit] = decide (name.map asciiUpper = [digit]) := by
    rw [asciiEqual, List.map_cons, List.map_cons, List.map_cons, List.map_nil, upper]
    simp only [List.cons.injEq, true_and]
  have any_true : (trueSymbols.any fun symbol => asciiEqual name symbol) =
      decide (name.map asciiUpper ∈ trueSymbols) := by
    rw [Bool.eq_iff_iff, List.any_eq_true, decide_eq_true_eq]
    constructor
    · rintro ⟨symbol, member, same⟩
      rw [asciiEqual, decide_eq_true_eq, trueSymbols_upper symbol member] at same
      exact same ▸ member
    · intro member
      refine ⟨_, member, ?_⟩
      rw [asciiEqual, decide_eq_true_eq, trueSymbols_upper _ member]
  rw [evaluateSymbol, tail_eq 48 rfl, tail_eq 49 rfl, symbolValue]
  dsimp only [List.head?_cons, List.tail_cons]
  simp only [if_true, any_true]
  split_ifs with zero one
  · rw [decide_eq_true_eq] at zero
    rw [zero]
    decide
  · rw [decide_eq_true_eq] at one
    rw [one]
    decide
  · rw [decide_eq_true_eq] at one
    simp only [List.mem_cons, one, false_or]

theorem symbolValue_long {name : Text} (long : vdfIdentifierSize - 1 ≤ name.length + 1) :
    symbolValue name = false := by
  rw [symbolValue, decide_eq_false_iff_not]
  intro known
  have short : ∀ symbol ∈ [49] :: trueSymbols, symbol.length < 8 := by decide
  have bound := short _ known
  rw [List.length_map] at bound
  rw [vdfIdentifierSize] at long
  omega

theorem digitsValue_ne_zero {digits : Text} (all : ∀ c ∈ digits, isDigit c = true) :
    (digits.any fun c => c ≠ 48) = decide (digitsValue digits ≠ 0) := by
  have fold (digits : Text) (all : ∀ c ∈ digits, isDigit c = true) (n : Nat) :
      digits.foldl (fun n c => 10 * n + (c.toNat - 48)) n = 0 ↔ n = 0 ∧ ∀ c ∈ digits, c = 48 := by
    induction digits generalizing n with
    | nil => simp
    | cons c digits ih =>
        have low : 48 ≤ c.toNat := by
          have digit := all c List.mem_cons_self
          rw [isDigit, Bool.and_eq_true, decide_eq_true_eq, UInt8.le_iff_toNat_le] at digit
          exact digit.1
        have head : 10 * n + (c.toNat - 48) = 0 ↔ n = 0 ∧ c = 48 := by
          rw [← UInt8.toNat_inj]
          change _ ↔ n = 0 ∧ c.toNat = 48
          omega
        rw [List.foldl_cons, ih (fun d within => all d (List.mem_cons_of_mem _ within)), List.forall_mem_cons,
          head, and_assoc]
  have zero := fold digits all 0
  rw [Bool.eq_iff_iff, List.any_eq_true, decide_eq_true_eq, digitsValue, Ne, zero]
  simp

/-! ## Evaluation -/

def startOf (text : Text) : VdfExpression := nextToken ⟨text, 0⟩

def Ends (rest : Text) : Prop := ∃ c tail, rest = c :: tail ∧ c ∈ ([41, closeBracket, 38, 124] : Text)

/-- What parentheses are evaluated with, where they may be nested `depth` times. -/
def deeperAt : Nat → Option (VdfExpression → Bool × VdfExpression)
  | 0 => none
  | depth + 1 => some (makeExpression depth)

theorem makeExpression_eq (depth : Nat) : makeExpression depth = expressionWith (deeperAt depth) := by
  cases depth with
  | zero => rfl
  | succ depth => rfl

section Evaluation

variable {c : UInt8} {rest tail : Text} {deeper : Option (VdfExpression → Bool × VdfExpression)}

theorem nextToken_cons (other : c ≠ blank) (current : UInt8) : nextToken ⟨c :: tail, current⟩ = ⟨tail, c⟩ := by
  rw [nextToken, List.dropWhile_cons_of_neg (by simpa using other)]
  rfl

theorem startOf_cons (other : c ≠ blank) : startOf (c :: tail) = ⟨tail, c⟩ := nextToken_cons other 0

theorem Ends.cases (ends : Ends rest) :
    ∃ c tail, rest = c :: tail ∧ startOf rest = ⟨tail, c⟩ ∧ isNameChar c = false ∧ isDigit c = false ∧ c ≠ 33 := by
  obtain ⟨c, tail, rfl, member⟩ := ends
  have facts : ∀ c ∈ ([41, closeBracket, 38, 124] : Text),
      c ≠ blank ∧ isNameChar c = false ∧ isDigit c = false ∧ c ≠ 33 := by
    intro c member
    simp only [List.mem_cons, List.not_mem_nil, or_false] at member
    rcases member with rfl | rfl | rfl | rfl
    all_goals decide
  obtain ⟨other, facts⟩ := facts c member
  exact ⟨c, tail, rfl, startOf_cons other, facts⟩

theorem makeIdentifier_append {chars : Text} {continues : UInt8 → Bool} (evaluate : Text → Bool) (first : UInt8)
    (all : ∀ c ∈ chars, continues c = true) (stops : continues c = false)
    (short : chars.length < vdfIdentifierSize - 1) :
    makeIdentifier ⟨chars ++ c :: tail, first⟩ continues evaluate =
      (if vdfIdentifierSize - 1 ≤ chars.length + 1 then false else evaluate (first :: chars),
        nextToken ⟨c :: tail, first⟩) := by
  have taken : ((chars ++ c :: tail).take (vdfIdentifierSize - 1)).takeWhile continues = chars := by
    obtain ⟨room, size⟩ := Nat.exists_eq_add_of_lt short
    rw [size, Nat.add_assoc, List.take_append, List.take_of_length_le (Nat.le_add_right _ _), Nat.add_sub_cancel_left,
      List.take_succ_cons, List.takeWhile_append_of_pos all,
      List.takeWhile_cons_of_neg (Bool.eq_false_iff.mp stops), List.append_nil]
  rw [makeIdentifier, taken]
  dsimp only
  rw [List.drop_left, List.length_cons]
  split_ifs
  · rfl
  · rfl

theorem negations_ends (ends : Ends rest) (fuel : Nat) (value : Bool) :
    negations deeper fuel value (startOf rest) = (value, startOf rest) := by
  obtain ⟨c, tail, rfl, start, -, -, other⟩ := ends.cases
  cases fuel with
  | zero => rfl
  | succ fuel =>
      rw [negations, start]
      exact if_neg other

theorem makeTerm_negation {factor : Text} {value : Bool} (ends : Ends rest)
    (made : makeFactor deeper (startOf (factor ++ rest)) = (value, startOf rest)) (negated : Bool) :
    makeTerm deeper (startOf (negation negated ++ factor ++ rest)) = (negated ^^ value, startOf rest) := by
  cases negated with
  | false =>
      rw [negation, if_neg Bool.false_ne_true, List.nil_append, makeTerm, made, Bool.false_xor]
      exact negations_ends ends _ value
  | true =>
      have start : startOf (negation true ++ factor ++ rest) = ⟨factor ++ rest, 33⟩ := startOf_cons (by decide)
      have skipped : makeFactor deeper ⟨factor ++ rest, 33⟩ = (false, ⟨factor ++ rest, 33⟩) := rfl
      rw [start, makeTerm, skipped]
      dsimp only
      rw [negations, if_pos rfl]
      change (negations deeper _ (!(makeFactor deeper (startOf (factor ++ rest))).1)
        (makeFactor deeper (startOf (factor ++ rest))).2) = _
      rw [made, Bool.true_xor]
      exact negations_ends ends _ (!value)

theorem operations_ends (other : c ≠ 124 ∧ c ≠ 38) (plain : c ≠ blank) (fuel : Nat) (value : Bool) :
    operations deeper fuel value (startOf (c :: tail)) = (value, startOf (c :: tail)) := by
  cases fuel with
  | zero => rfl
  | succ fuel =>
      rw [operations, startOf_cons plain]
      exact if_neg (not_or.mpr other)

theorem operations_operator {body : Text} {right : Bool} (operator : VdfOperator) (fuel : Nat) (left : Bool)
    (made : makeTerm deeper (startOf body) = (right, startOf rest)) :
    operations deeper (fuel + 1) left (startOf (operator.char :: operator.char :: body)) =
      operations deeper fuel (operator.apply left right) (startOf rest) := by
  have same (operator : VdfOperator) : operator.char ≠ blank ∧ (operator.char = 124 ∨ operator.char = 38) ∧
      operator.char &&& operator.char = operator.char := by
    cases operator with
    | and => decide
    | or => decide
  obtain ⟨other, known, bits⟩ := same operator
  have right_made : makeTerm deeper (nextToken ⟨body, operator.char⟩) = (right, startOf rest) := made
  rw [startOf_cons other, operations, if_pos known]
  dsimp only [expressionAt, List.headD_cons, List.tail_cons]
  rw [if_neg (not_not.mpr bits), right_made]
  cases operator with
  | and => rfl
  | or => rfl

end Evaluation

mutual

theorem makeFactor_text (factor : VdfFactor) {depth : Nat} (within : factor.nesting ≤ depth) {rest : Text}
    (ends : Ends rest) :
    makeFactor (deeperAt depth) (startOf (factor.text ++ rest)) = (factor.value, startOf rest) := by
  obtain ⟨c, tail, rfl, -, name, digit, -⟩ := ends.cases
  cases factor with
  | parentheses e =>
      rw [VdfFactor.nesting] at within
      cases depth with
      | zero => cases within
      | succ depth =>
          have closed : Ends (41 :: c :: tail) := ⟨41, c :: tail, rfl, by decide⟩
          obtain ⟨fuel, inner, -⟩ := expressionWith_text e (Nat.le_of_succ_le_succ within) closed
          rw [operations_ends (by decide) (by decide), ← makeExpression_eq] at inner
          have start : startOf (VdfFactor.text (.parentheses e) ++ c :: tail) = ⟨e.text ++ 41 :: c :: tail, 40⟩ := by
            rw [VdfFactor.text, List.cons_append, List.append_assoc]
            exact startOf_cons (by decide)
          rw [start, makeFactor, if_pos rfl]
          change ((makeExpression depth (startOf (e.text ++ 41 :: c :: tail))).1,
            nextToken (makeExpression depth (startOf (e.text ++ 41 :: c :: tail))).2) = _
          rw [inner, startOf_cons (by decide)]
          rfl
  | symbol symbol =>
      have start : startOf (VdfFactor.text (.symbol symbol) ++ c :: tail) = ⟨symbol.chars ++ c :: tail, dollar⟩ :=
        startOf_cons (by decide)
      have other : dollar ≠ 40 := by decide
      have made : makeIdentifier ⟨symbol.chars ++ c :: tail, dollar⟩ isNameChar evaluateSymbol = _ :=
        makeIdentifier_append evaluateSymbol dollar symbol.name name symbol.short
      rw [start, makeFactor, if_neg other, if_pos rfl, VdfFactor.value]
      refine made.trans ?_
      split_ifs with long
      · rw [symbolValue_long long]
        rfl
      · rw [evaluateSymbol_dollar]
        rfl
  | number number =>
      obtain ⟨digits, nonempty, decimal, short⟩ := number
      obtain ⟨first, others, rfl⟩ := List.exists_cons_of_ne_nil nonempty
      have lead := decimal first List.mem_cons_self
      have plain : first ≠ blank ∧ first ≠ 40 ∧ first ≠ dollar := by
        refine ⟨?_, ?_, ?_⟩
        all_goals
          rintro rfl
          exact absurd lead (by decide)
      rw [List.length_cons] at short
      have start : startOf ((first :: others) ++ c :: tail) = ⟨others ++ c :: tail, first⟩ := startOf_cons plain.1
      rw [VdfFactor.text, start, makeFactor, if_neg plain.2.1, if_neg plain.2.2, if_pos lead,
        makeIdentifier_append _ first (fun d among => decimal d (List.mem_cons_of_mem _ among)) digit (by omega),
        if_neg (Nat.not_le.mpr short), digitsValue_ne_zero decimal, VdfFactor.value]
      rfl

theorem expressionWith_text (e : VdfFormula) {depth : Nat} (within : e.nesting ≤ depth) {rest : Text}
    (ends : Ends rest) :
    ∃ fuel, expressionWith (deeperAt depth) (startOf (e.text ++ rest)) =
        operations (deeperAt depth) fuel e.value (startOf rest) ∧ (startOf rest).rest.length < fuel := by
  cases e with
  | term negated factor =>
      have made := makeTerm_negation ends (makeFactor_text factor within ends) negated
      refine ⟨(startOf rest).rest.length + 1, ?_, Nat.lt_succ_self _⟩
      rw [VdfFormula.text, expressionWith, made]
      rfl
  | operation left operator negated factor =>
      rw [VdfFormula.nesting, Nat.max_le] at within
      have made := makeTerm_negation ends (makeFactor_text factor within.2 ends) negated
      have between : Ends (operator.char :: operator.char :: (negation negated ++ factor.text ++ rest)) := by
        refine ⟨_, _, rfl, ?_⟩
        cases operator with
        | and => decide
        | or => decide
      obtain ⟨fuel, first, more⟩ := expressionWith_text left within.1 between
      cases fuel with
      | zero => cases more
      | succ fuel =>
          rw [operations_operator operator fuel left.value made] at first
          refine ⟨fuel, ?_, ?_⟩
          · rw [VdfFormula.text, List.append_assoc]
            exact first
          · obtain ⟨c, tail, rfl, start, -⟩ := ends.cases
            have other : operator.char ≠ blank := by
              cases operator with
              | and => decide
              | or => decide
            rw [startOf_cons other, List.length_cons, List.length_append, List.length_cons] at more
            rw [start]
            change tail.length < fuel
            omega

end

theorem evaluateConditional_text (first : UInt8) (e : VdfFormula) (within : e.nesting ≤ vdfMaxDepth) (rest : Text) :
    evaluateConditional (first :: (e.text ++ closeBracket :: rest)) = e.value := by
  have closed : Ends (closeBracket :: rest) := ⟨closeBracket, rest, rfl, by decide⟩
  obtain ⟨fuel, made, -⟩ := expressionWith_text e within closed
  rw [operations_ends (by decide) (by decide), ← makeExpression_eq] at made
  exact congrArg Prod.fst made

end Yafsml.Steam
