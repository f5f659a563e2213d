import Yafsml.Steam.VdfEvaluator

/-!
# The evaluator returns

It reads only the token, and gives the value of the conditional.
-/

namespace Yafsml.Steam

/-! ## Progress -/

/-- What is left to read, the current character included. -/
def VdfExpression.left (e : VdfExpression) : Nat := e.rest.length + if e.current = 0 then 0 else 1

section Progress

variable {e : VdfExpression} {deeper : Option (VdfExpression → Bool × VdfExpression)}

theorem left_le (e : VdfExpression) : e.left ≤ e.rest.length + 1 := by
  rw [VdfExpression.left]
  split_ifs
  · exact Nat.le_succ _
  · exact Nat.le_refl _

theorem rest_le (e : VdfExpression) : e.rest.length ≤ e.left := Nat.le_add_right _ _

theorem left_of_current {c : UInt8} (at_c : e.current = c) (other : c ≠ 0) : e.left = e.rest.length + 1 := by
  rw [VdfExpression.left, if_neg (at_c ▸ other)]

theorem nextToken_left (e : VdfExpression) : (nextToken e).left ≤ e.rest.length := by
  rw [nextToken, VdfExpression.left]
  dsimp only
  have shorter := List.length_dropWhile_le (fun c => decide (c = blank)) e.rest
  cases behind : e.rest.dropWhile (· = blank) with
  | nil => exact Nat.zero_le _
  | cons c rest =>
      rw [behind, List.length_cons] at shorter
      rw [List.tail_cons]
      split_ifs
      · omega
      · omega

theorem makeIdentifier_left (e : VdfExpression) (continues : UInt8 → Bool) (evaluate : Text → Bool) :
    (makeIdentifier e continues evaluate).2.left ≤ e.left := by
  rw [makeIdentifier, apply_ite Prod.snd, ite_self]
  refine (nextToken_left _).trans (Nat.le_trans ?_ (rest_le e))
  rw [List.length_drop]
  exact Nat.sub_le _ _

def Forward (deeper : Option (VdfExpression → Bool × VdfExpression)) : Prop :=
  ∀ make ∈ deeper, ∀ e, (make e).2.left ≤ e.left

theorem makeFactor_left (forward : Forward deeper) (e : VdfExpression) : (makeFactor deeper e).2.left ≤ e.left := by
  have next (e : VdfExpression) : (nextToken e).left ≤ e.left := (nextToken_left e).trans (rest_le e)
  rw [makeFactor]
  split_ifs
  · cases deeper with
    | none => exact (next _).trans (next e)
    | some make => exact (next _).trans ((forward make rfl _).trans (next e))
  · exact makeIdentifier_left e _ _
  · exact makeIdentifier_left e _ _
  · exact Nat.le_refl _
  · exact next e

theorem negations_left (forward : Forward deeper) (fuel : Nat) (value : Bool) (e : VdfExpression) :
    (negations deeper fuel value e).2.left ≤ e.left := by
  induction fuel generalizing value e with
  | zero => exact Nat.le_refl _
  | succ fuel ih =>
      rw [negations]
      split_ifs
      · exact (ih _ _).trans ((makeFactor_left forward _).trans ((nextToken_left e).trans (rest_le e)))
      · exact Nat.le_refl _

theorem makeTerm_left (forward : Forward deeper) (e : VdfExpression) : (makeTerm deeper e).2.left ≤ e.left :=
  (negations_left forward _ _ _).trans (makeFactor_left forward e)

theorem operations_left (forward : Forward deeper) (fuel : Nat) (value : Bool) (e : VdfExpression) :
    (operations deeper fuel value e).2.left ≤ e.left := by
  induction fuel generalizing value e with
  | zero => exact Nat.le_refl _
  | succ fuel ih =>
      have fewer : (⟨e.rest.tail, e.current⟩ : VdfExpression).left ≤ e.left := by
        apply Nat.add_le_add_right
        rw [List.length_tail]
        exact Nat.sub_le _ _
      rw [operations]
      dsimp only
      by_cases operator : e.current = 124 ∨ e.current = 38
      · rw [if_pos operator]
        by_cases broken : expressionAt e &&& e.current ≠ e.current
        · rw [if_pos broken]
          exact fewer
        rw [if_neg broken]
        refine (ih _ _).trans ((makeTerm_left forward _).trans ((nextToken_left _).trans ?_))
        exact (rest_le (⟨e.rest.tail, e.current⟩ : VdfExpression)).trans fewer
      · rw [if_neg operator]

theorem expressionWith_left (forward : Forward deeper) (e : VdfExpression) :
    (expressionWith deeper e).2.left ≤ e.left :=
  (operations_left forward _ _ _).trans (makeTerm_left forward e)

theorem deeperAt_forward (depth : Nat) : Forward (deeperAt depth) := by
  induction depth with
  | zero => nofun
  | succ depth ih =>
      rintro _ ⟨⟩ e
      rw [makeExpression_eq]
      exact expressionWith_left ih e

theorem makeExpression_left (depth : Nat) (e : VdfExpression) : (makeExpression depth e).2.left ≤ e.left := by
  rw [makeExpression_eq]
  exact expressionWith_left (deeperAt_forward depth) e

end Progress

namespace VdfEvaluator

/-! ## Reading -/

def VdfPosition.view (text : Text) (e : VdfPosition) : VdfExpression := ⟨text.drop e.position, e.current⟩

def Meets (text : Text) (depth : Nat) (r : Option (Bool × VdfPosition)) (expected : Bool × VdfExpression) : Prop :=
  Returns r fun made => made.1 = expected.1 ∧ made.2.view text = expected.2 ∧ made.2.depth = depth

theorem Meets.made {text : Text} {depth : Nat} {r : Option (Bool × VdfPosition)} {expected : Bool × VdfExpression}
    (meets : Meets text depth r expected) :
    ∃ value made, r = some (value, made) ∧ expected = (value, made.view text) ∧ made.depth = depth := by
  obtain ⟨made, ran, value, view, deeper⟩ := meets
  exact ⟨made.1, made.2, ran, Prod.ext value.symm view.symm, deeper⟩

section Reading

variable {text : Text} {fuel position : Nat} {e : VdfPosition}

theorem expressionAt_eq (text : Text) (position : Nat) :
    expressionAt text position = some ((text.drop position).headD 0) := by
  rw [expressionAt]
  split_ifs with inside
  · rw [List.drop_eq_getElem_cons inside, List.headD_cons]
    exact List.getElem?_eq_getElem inside
  · rw [List.drop_eq_nil_of_le (Nat.not_lt.mp inside)]
    rfl

theorem skipBlanks_returns (enough : (text.drop position).length < fuel) :
    Returns (skipBlanks text fuel position) fun behind =>
      text.drop behind = (text.drop position).dropWhile (· = blank) := by
  induction fuel generalizing position with
  | zero => cases enough
  | succ fuel ih =>
      rw [skipBlanks, expressionAt_eq]
      have next : text.drop (position + 1) = (text.drop position).tail := List.tail_drop.symm
      cases here : text.drop position with
      | nil =>
          have ended : (0 : UInt8) ≠ blank := by decide
          change Returns (if (0 : UInt8) = blank then skipBlanks text fuel (position + 1) else some position) _
          rw [if_neg ended]
          exact .pure here
      | cons c rest =>
          rw [here] at next enough
          refine Returns.ite (fun space => ?_) fun other => .pure ?_
          · have skipped : (c :: rest).dropWhile (· = blank) = rest.dropWhile (· = blank) :=
              List.dropWhile_cons_of_pos (decide_eq_true space)
            rw [skipped]
            have shorter : (text.drop (position + 1)).length < fuel := by
              rw [next]
              exact Nat.lt_of_succ_lt_succ enough
            have rest_same : text.drop (position + 1) = rest := next
            exact rest_same ▸ ih shorter
          · rw [here, List.dropWhile_cons_of_neg]
            exact fun space => other (of_decide_eq_true space)

theorem nextToken_returns (enough : (text.drop e.position).length < fuel) :
    Returns (nextToken text fuel e) fun next =>
      next.view text = Steam.nextToken (e.view text) ∧ next.depth = e.depth := by
  refine Returns.bind (skipBlanks_returns enough) fun behind dropped => ?_
  rw [expressionAt_eq, dropped]
  refine .pure ⟨?_, rfl⟩
  have tail : text.drop (behind + 1) = (text.drop behind).tail := List.tail_drop.symm
  rw [VdfPosition.view, Steam.nextToken, tail, dropped]
  rfl

theorem storeChar_returns {identifier : Text} (room : identifier.length < vdfIdentifierSize) (c : UInt8) :
    storeChar identifier c = some (identifier ++ [c]) := if_pos room

theorem readIdentifier_returns {continues : UInt8 → Bool} (stops : continues 0 = false) {identifier : Text}
    (enough : (text.drop position).length < fuel) :
    Returns (readIdentifier text continues fuel position identifier) fun read =>
      read.1 = identifier ++ ((text.drop position).take (vdfIdentifierSize - identifier.length)).takeWhile continues ∧
        text.drop read.2 = (text.drop position).drop (read.1.length - identifier.length) := by
  induction fuel generalizing position identifier with
  | zero => cases enough
  | succ fuel ih =>
      rw [readIdentifier, expressionAt_eq]
      have next : text.drop (position + 1) = (text.drop position).tail := List.tail_drop.symm
      refine Returns.ite (fun more => ?_) fun ended => .pure ⟨?_, ?_⟩
      · cases here : text.drop position with
        | nil =>
            rw [here] at more
            exact absurd more.1 (Bool.eq_false_iff.mp stops)
        | cons c rest =>
            rw [here] at more next enough
            have rest_same : text.drop (position + 1) = rest := next
            have shorter : (text.drop (position + 1)).length < fuel := by
              rw [rest_same]
              exact Nat.lt_of_succ_lt_succ enough
            rw [List.headD_cons] at more
            rw [List.headD_cons, storeChar_returns more.2]
            obtain ⟨room, size⟩ := Nat.exists_eq_add_of_lt more.2
            refine (ih shorter).mono fun read found => ?_
            obtain ⟨chars, behind⟩ := found
            have left : vdfIdentifierSize - identifier.length = room + 1 := by omega
            have left_after : vdfIdentifierSize - (identifier ++ [c]).length = room := by
              rw [List.length_append, List.length_singleton]
              omega
            have longer : read.1.length = identifier.length + 1 + ((rest.take room).takeWhile continues).length := by
              rw [chars, left_after, rest_same, List.length_append, List.length_append, List.length_singleton]
            rw [left_after, rest_same] at chars
            rw [left, List.take_succ_cons, List.takeWhile_cons_of_pos more.1]
            refine ⟨by rw [chars, List.append_assoc, List.singleton_append], ?_⟩
            rw [behind, rest_same, List.length_append, List.length_singleton, longer, Nat.add_sub_cancel_left,
              Nat.add_assoc, Nat.add_sub_cancel_left, Nat.add_comm 1, List.drop_succ_cons]
      · rcases Classical.not_and_iff_not_or_not.mp ended with stopped | full
        · have none :
              ((text.drop position).take (vdfIdentifierSize - identifier.length)).takeWhile continues = [] := by
            cases here : text.drop position with
            | nil => rw [List.take_nil, List.takeWhile_nil]
            | cons c rest =>
                rw [here, List.headD_cons] at stopped
                cases vdfIdentifierSize - identifier.length with
                | zero => rfl
                | succ room => rw [List.take_succ_cons, List.takeWhile_cons_of_neg stopped]
          rw [none, List.append_nil]
        · rw [Nat.sub_eq_zero_of_le (Nat.not_lt.mp full), List.take_zero, List.takeWhile_nil, List.append_nil]
      · rw [Nat.sub_self, List.drop_zero]

theorem makeIdentifier_meets {continues : UInt8 → Bool} (stops : continues 0 = false) (evaluate : Text → Bool)
    (enough : (text.drop e.position).length < fuel) :
    Meets text e.depth (makeIdentifier text fuel e continues evaluate)
      (Steam.makeIdentifier (e.view text) continues evaluate) := by
  rw [makeIdentifier, storeChar_returns (by decide)]
  refine Returns.next (Returns.bind (readIdentifier_returns stops enough) fun read found => ?_)
  obtain ⟨identifier, position⟩ := read
  obtain ⟨chars, behind⟩ := found
  have whole : identifier = e.current ::
      ((text.drop e.position).take (vdfIdentifierSize - 1)).takeWhile continues := chars
  have dropped : text.drop position = (text.drop e.position).drop
      (((text.drop e.position).take (vdfIdentifierSize - 1)).takeWhile continues).length := by
    rw [behind, whole]
    rfl
  have shorter : (text.drop position).length < fuel := by
    rw [dropped, List.length_drop]
    exact Nat.lt_of_le_of_lt (Nat.sub_le _ _) enough
  have next : Returns (nextToken text fuel { e with position := position }) fun next =>
      next.view text = Steam.nextToken ⟨text.drop position, e.current⟩ ∧ next.depth = e.depth :=
    nextToken_returns shorter
  have expected : Steam.makeIdentifier (e.view text) continues evaluate =
      if vdfIdentifierSize - 1 ≤ identifier.length then (false, Steam.nextToken ⟨text.drop position, e.current⟩)
      else (evaluate identifier, Steam.nextToken ⟨text.drop position, e.current⟩) := by
    rw [whole, dropped]
    rfl
  rw [expected]
  refine Returns.ite (fun long => ?_) fun short => ?_
  · rw [if_pos long]
    exact next.bind fun next same => .pure ⟨rfl, same⟩
  · have room : identifier.length < vdfIdentifierSize := by omega
    rw [if_neg short, storeChar_returns room]
    exact next.bind fun next same => .pure ⟨rfl, same⟩

theorem takeWhile_zeros (digits : Text) :
    decide ((digits.takeWhile (· = 48)).length ≠ digits.length) = digits.any (· ≠ 48) := by
  have all : (digits.takeWhile (· = 48)).length = digits.length ↔ ∀ c ∈ digits, c = 48 := by
    constructor
    · intro same c member
      have whole := (List.takeWhile_prefix (fun c : UInt8 => decide (c = 48))).eq_of_length same
      exact of_decide_eq_true (List.takeWhile_eq_self_iff.mp whole c member)
    · intro zeros
      rw [List.takeWhile_eq_self_iff.mpr fun c member => decide_eq_true (zeros c member)]
  rw [Bool.eq_iff_iff, decide_eq_true_eq, List.any_eq_true, Ne, all, not_forall]
  simp

end Reading

/-! ## Expressions -/

section Expressions

variable (text : Text)

/-- What the calls return that have `fuel` left. -/
structure Simulates (fuel : Nat) : Prop where
  factor : ∀ e : VdfPosition, 4 * (e.view text).left + 2 ≤ fuel →
    Meets text e.depth (makeFactor text fuel e) (Steam.makeFactor (deeperAt (vdfMaxDepth - e.depth)) (e.view text))
  terms : ∀ (value : Bool) (e : VdfPosition) (n : Nat), 4 * (e.view text).left + 2 ≤ fuel →
    (e.view text).left ≤ n → Meets text e.depth (termLoop text fuel value e)
      (negations (deeperAt (vdfMaxDepth - e.depth)) n value (e.view text))
  term : ∀ e : VdfPosition, 4 * (e.view text).left + 3 ≤ fuel →
    Meets text e.depth (makeTerm text fuel e) (Steam.makeTerm (deeperAt (vdfMaxDepth - e.depth)) (e.view text))
  operators : ∀ (value : Bool) (e : VdfPosition) (n : Nat), 4 * (e.view text).left + 2 ≤ fuel →
    (e.view text).left ≤ n → Meets text e.depth (expressionLoop text fuel value e)
      (operations (deeperAt (vdfMaxDepth - e.depth)) n value (e.view text))
  expression : ∀ e : VdfPosition, 4 * (e.view text).left + 4 ≤ fuel →
    Meets text e.depth (makeExpression text fuel e) (Steam.makeExpression (vdfMaxDepth - e.depth) (e.view text))

variable {text} {fuel : Nat}

theorem view_rest_length (text : Text) (e : VdfPosition) : (text.drop e.position).length ≤ (e.view text).left :=
  rest_le (e.view text)

theorem deeperAt_shallow {depth : Nat} (shallow : depth < vdfMaxDepth) :
    deeperAt (vdfMaxDepth - depth) = some (Steam.makeExpression (vdfMaxDepth - (depth + 1))) := by
  obtain ⟨more, total⟩ := Nat.exists_eq_add_of_lt shallow
  have outside : vdfMaxDepth - depth = more + 1 := by omega
  have inside : vdfMaxDepth - (depth + 1) = more := by omega
  rw [outside, inside]
  rfl

theorem makeFactor_step (before : Simulates text fuel) (e : VdfPosition)
    (enough : 4 * (e.view text).left + 2 ≤ fuel + 1) :
    Meets text e.depth (makeFactor text (fuel + 1) e)
      (Steam.makeFactor (deeperAt (vdfMaxDepth - e.depth)) (e.view text)) := by
  have here := view_rest_length text e
  have reads : (text.drop e.position).length < fuel := by omega
  rw [makeFactor, Steam.makeFactor]
  refine Returns.ite (fun parenthesis => ?_) fun other => ?_
  · rw [if_pos (show (e.view text).current = 40 from parenthesis)]
    have size := left_of_current (show (e.view text).current = 40 from parenthesis) (by decide)
    refine Returns.bind (nextToken_returns reads) fun inner opened => ?_
    obtain ⟨view, depth⟩ := opened
    have fewer := nextToken_left (e.view text)
    rw [← view] at fewer ⊢
    dsimp only
    refine Returns.ite (fun shallow => ?_) fun deep => ?_
    · rw [deeperAt_shallow (depth ▸ shallow), ← depth]
      have made_left := makeExpression_left (vdfMaxDepth - (inner.depth + 1)) (inner.view text)
      have room : 4 * (inner.view text).left + 4 ≤ fuel := by omega
      obtain ⟨value, made, ran, expected, deeper⟩ :=
        (before.expression { inner with depth := inner.depth + 1 } room).made
      have same : Steam.makeExpression (vdfMaxDepth - (inner.depth + 1)) (inner.view text) = _ := expected
      rw [same] at made_left
      change (made.view text).left ≤ _ at made_left
      rw [ran]
      dsimp only
      rw [same]
      have shorter : (text.drop made.position).length < fuel := by
        have left := view_rest_length text made
        omega
      refine Returns.next (Returns.next (Returns.bind (nextToken_returns shorter) fun next found => ?_))
      refine .pure ⟨rfl, found.1, ?_⟩
      rw [found.2, deeper]
      rfl
    · have none_deeper : vdfMaxDepth - e.depth = 0 := by omega
      rw [none_deeper]
      refine Returns.next (Returns.bind (nextToken_returns ?_) fun next same =>
        .pure ⟨rfl, same.1, same.2.trans depth⟩)
      have here := view_rest_length text inner
      change (text.drop inner.position).length < fuel
      omega
  · have unopened : ¬ (e.view text).current = 40 := other
    rw [if_neg unopened]
    refine Returns.ite (fun name => ?_) fun other => ?_
    · rw [if_pos (show (e.view text).current = dollar from name)]
      exact makeIdentifier_meets rfl evaluateSymbol reads
    · rw [if_neg (show ¬ (e.view text).current = dollar from other)]
      refine Returns.ite (fun digit => ?_) fun other => ?_
      · rw [if_pos (show isDigit (e.view text).current = true from digit)]
        have same := funext takeWhile_zeros
        rw [same]
        exact makeIdentifier_meets rfl _ reads
      · rw [if_neg (show ¬ isDigit (e.view text).current = true from other)]
        refine Returns.ite (fun negated => ?_) fun other => ?_
        · rw [if_pos (show (e.view text).current = 33 from negated)]
          exact .pure ⟨rfl, rfl, rfl⟩
        · rw [if_neg (show ¬ (e.view text).current = 33 from other)]
          exact (nextToken_returns reads).bind fun next same => .pure ⟨rfl, same⟩

theorem termLoop_step (before : Simulates text fuel) (value : Bool) (e : VdfPosition) (n : Nat)
    (enough : 4 * (e.view text).left + 2 ≤ fuel + 1) (within : (e.view text).left ≤ n) :
    Meets text e.depth (termLoop text (fuel + 1) value e)
      (negations (deeperAt (vdfMaxDepth - e.depth)) n value (e.view text)) := by
  have here := view_rest_length text e
  have reads : (text.drop e.position).length < fuel := by omega
  rw [termLoop]
  refine Returns.ite (fun negated => ?_) fun other => ?_
  · have size := left_of_current (show (e.view text).current = 33 from negated) (by decide)
    cases n with
    | zero => omega
    | succ n =>
        rw [negations, if_pos (show (e.view text).current = 33 from negated)]
        refine Returns.bind (nextToken_returns reads) fun next found => ?_
        obtain ⟨view, depth⟩ := found
        have fewer := nextToken_left (e.view text)
        rw [← view] at fewer ⊢
        rw [← depth]
        have made_left := makeFactor_left (deeperAt_forward (vdfMaxDepth - next.depth)) (next.view text)
        obtain ⟨value, made, ran, expected, deeper⟩ := (before.factor next (by omega)).made
        rw [expected] at made_left
        change (made.view text).left ≤ _ at made_left
        rw [ran, expected, ← deeper]
        exact before.terms (!value) made n (by omega) (by omega)
  · cases n with
    | zero => exact .pure ⟨rfl, rfl, rfl⟩
    | succ n =>
        rw [negations, if_neg (show ¬ (e.view text).current = 33 from other)]
        exact .pure ⟨rfl, rfl, rfl⟩

theorem makeTerm_step (before : Simulates text fuel) (e : VdfPosition)
    (enough : 4 * (e.view text).left + 3 ≤ fuel + 1) :
    Meets text e.depth (makeTerm text (fuel + 1) e)
      (Steam.makeTerm (deeperAt (vdfMaxDepth - e.depth)) (e.view text)) := by
  have made_left := makeFactor_left (deeperAt_forward (vdfMaxDepth - e.depth)) (e.view text)
  rw [makeTerm, Steam.makeTerm]
  obtain ⟨value, made, ran, expected, deeper⟩ := (before.factor e (by omega)).made
  rw [expected] at made_left
  change (made.view text).left ≤ _ at made_left
  rw [ran, expected, ← deeper]
  exact before.terms value made _ (by omega) (left_le _)

theorem expressionLoop_step (before : Simulates text fuel) (value : Bool) (e : VdfPosition) (n : Nat)
    (enough : 4 * (e.view text).left + 2 ≤ fuel + 1) (within : (e.view text).left ≤ n) :
    Meets text e.depth (expressionLoop text (fuel + 1) value e)
      (operations (deeperAt (vdfMaxDepth - e.depth)) n value (e.view text)) := by
  rw [expressionLoop]
  refine Returns.ite (fun operator => ?_) fun other => ?_
  · have at_operator : (e.view text).current = 124 ∨ (e.view text).current = 38 := operator
    have size : (e.view text).left = (e.view text).rest.length + 1 := by
      rcases at_operator with or | and
      · exact left_of_current or (by decide)
      · exact left_of_current and (by decide)
    cases n with
    | zero => omega
    | succ n =>
        have behind : text.drop (e.position + 1) = (e.view text).rest.tail := List.tail_drop.symm
        rw [operations, if_pos at_operator, expressionAt_eq]
        refine Returns.ite (fun broken => ?_) fun joined => ?_
        · have stops : Steam.expressionAt (e.view text) &&& (e.view text).current ≠ (e.view text).current := broken
          dsimp only
          rw [if_pos stops]
          refine .pure ⟨rfl, ?_, rfl⟩
          rw [VdfPosition.view, behind]
          rfl
        · have goes : ¬ Steam.expressionAt (e.view text) &&& (e.view text).current ≠ (e.view text).current := joined
          dsimp only
          rw [if_neg goes]
          have shorter : (text.drop (e.position + 1)).length < fuel := by
            rw [behind, List.length_tail]
            omega
          have after : Returns (nextToken text fuel { e with position := e.position + 1 }) fun next =>
              next.view text = Steam.nextToken ⟨(e.view text).rest.tail, (e.view text).current⟩ ∧
                next.depth = e.depth := by
            rw [← behind]
            exact nextToken_returns shorter
          refine Returns.bind after fun next found => ?_
          obtain ⟨view, depth⟩ := found
          have fewer := nextToken_left ⟨(e.view text).rest.tail, (e.view text).current⟩
          rw [← view] at fewer ⊢
          change (next.view text).left ≤ (e.view text).rest.tail.length at fewer
          rw [List.length_tail] at fewer
          rw [← depth]
          have made_left := makeTerm_left (deeperAt_forward (vdfMaxDepth - next.depth)) (next.view text)
          obtain ⟨right, made, ran, expected, deeper⟩ := (before.term next (by omega)).made
          rw [expected] at made_left
          change (made.view text).left ≤ _ at made_left
          rw [ran, expected, ← deeper]
          exact before.operators _ made n (by omega) (by omega)
  · cases n with
    | zero => exact .pure ⟨rfl, rfl, rfl⟩
    | succ n =>
        rw [operations, if_neg (show ¬ ((e.view text).current = 124 ∨ (e.view text).current = 38) from other)]
        exact .pure ⟨rfl, rfl, rfl⟩

theorem makeExpression_step (before : Simulates text fuel) (e : VdfPosition)
    (enough : 4 * (e.view text).left + 4 ≤ fuel + 1) :
    Meets text e.depth (makeExpression text (fuel + 1) e)
      (Steam.makeExpression (vdfMaxDepth - e.depth) (e.view text)) := by
  have made_left := makeTerm_left (deeperAt_forward (vdfMaxDepth - e.depth)) (e.view text)
  rw [makeExpression, makeExpression_eq, expressionWith]
  obtain ⟨value, made, ran, expected, deeper⟩ := (before.term e (by omega)).made
  rw [expected] at made_left
  change (made.view text).left ≤ _ at made_left
  rw [ran, expected, ← deeper]
  exact before.operators value made _ (by omega) (left_le _)

variable (text) in
theorem simulates (fuel : Nat) : Simulates text fuel := by
  induction fuel with
  | zero => exact ⟨nofun, nofun, nofun, nofun, nofun⟩
  | succ fuel before =>
      exact ⟨makeFactor_step before, termLoop_step before, makeTerm_step before, expressionLoop_step before,
        makeExpression_step before⟩

end Expressions

/-! ## Conditionals -/

theorem evaluateConditional_returns (token : Text) {fuel : Nat} (enough : 4 * token.length ≤ fuel) :
    evaluateConditional fuel token = some (Steam.evaluateConditional token) := by
  cases token with
  | nil => rfl
  | cons first text =>
      rw [List.length_cons] at enough
      obtain ⟨e, read, view, depth⟩ := @nextToken_returns text fuel ⟨0, 0, 0⟩ (show text.length < fuel by omega)
      have fewer := nextToken_left ⟨text, 0⟩
      have same : e.view text = Steam.nextToken ⟨text, 0⟩ := view
      rw [← same] at fewer
      change (e.view text).left ≤ text.length at fewer
      obtain ⟨value, made, ran, expected, -⟩ := ((simulates text fuel).expression e (by omega)).made
      rw [depth, same] at expected
      rw [evaluateConditional, read]
      change (makeExpression text fuel e >>= fun made => some made.1) = _
      rw [ran]
      exact congrArg (some ·.1) expected.symm

/-- Every conditional is evaluated, and one of the grammar to what it means. -/
theorem evaluateConditional_value (token : Text) :
    ∃ value, (∀ fuel, 4 * token.length ≤ fuel → evaluateConditional fuel token = some value) ∧
      ∀ (first : UInt8) (e : VdfFormula) (rest : Text), e.nesting ≤ vdfMaxDepth →
        token = first :: (e.text ++ closeBracket :: rest) → value = e.value := by
  refine ⟨Steam.evaluateConditional token, fun fuel enough => evaluateConditional_returns token enough, ?_⟩
  rintro first e rest within rfl
  exact evaluateConditional_text first e within rest

end VdfEvaluator

end Yafsml.Steam
