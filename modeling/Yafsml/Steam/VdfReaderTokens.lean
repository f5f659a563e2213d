import Mathlib.Tactic.SplitIfs
import Yafsml.Steam.VdfReader

/-!
# The reader reads tokens

It stays inside its data and its token, and reads what is read from the text that is left.
-/

namespace Yafsml.Steam

/-! ## Quoted characters one by one -/

/-- The first character of a quoted string, what is behind it, and whether the text has ended. -/
def delimitedChar : Text → UInt8 × Text × Bool
  | [] => (0, [], true)
  | [c] => (if c = backslash then 0 else c, [], false)
  | c :: e :: rest =>
      if c = backslash then (if escapedChar e = 0 then (0, e :: rest, false) else (escapedChar e, rest, false))
      else (c, e :: rest, false)

theorem delimitedChar_shorter {text : Text} (more : (delimitedChar text).2.2 = false) :
    (delimitedChar text).2.1.length < text.length := by
  match text with
  | [] => cases more
  | [c] => exact Nat.zero_lt_one
  | c :: e :: rest =>
      rw [delimitedChar]
      split_ifs
      · exact Nat.lt_succ_self _
      · exact Nat.lt_succ_of_lt (Nat.lt_succ_self _)
      · exact Nat.lt_succ_self _

theorem delimitedChar_ended {text : Text} (ended : (delimitedChar text).2.2 = true) : text = [] := by
  match text with
  | [] => rfl
  | [c] => cases ended
  | c :: e :: rest =>
      rw [delimitedChar] at ended
      split_ifs at ended

theorem quotedChars_other {text : Text} (other : text.head? ≠ some quote) :
    quotedChars text =
      if (delimitedChar text).2.2 = true then ([(delimitedChar text).1], [], true)
      else ((delimitedChar text).1 :: (quotedChars (delimitedChar text).2.1).1,
        (quotedChars (delimitedChar text).2.1).2) := by
  match text with
  | [] => rfl
  | [c] =>
      have plain : c ≠ quote := fun here => other (congrArg some here)
      rw [quotedChars, if_neg plain, delimitedChar]
      by_cases escape : c = backslash
      · rw [if_pos escape, if_pos escape]
        rfl
      · rw [if_neg escape, if_neg escape]
        rfl
  | c :: e :: rest =>
      have plain : c ≠ quote := fun here => other (congrArg some here)
      rw [quotedChars, if_neg plain, delimitedChar]
      by_cases escape : c = backslash
      · rw [if_pos escape, if_pos escape]
        by_cases unknown : escapedChar e = 0
        · rw [if_pos unknown, if_pos unknown]
          rfl
        · rw [if_neg unknown, if_neg unknown]
          rfl
      · rw [if_neg escape, if_neg escape]
        rfl

/-! ## White space one by one -/

section WhiteSpace

variable {p : VdfParser} {c : UInt8} {rest : Text}

theorem eatWhiteSpace_over (past : p.overflow = true) : eatWhiteSpace p = p := if_pos past

theorem eatWhiteSpace_end (open_ : p.overflow = false) (none : p.rest = []) :
    eatWhiteSpace p = { p with rest := [], overflow := true } := by
  rw [eatWhiteSpace, if_neg (Bool.eq_false_iff.mp open_), none]
  rfl

theorem eatWhiteSpace_stop (open_ : p.overflow = false) (here : p.rest = c :: rest) (other : isSpace c = false) :
    eatWhiteSpace p = p := by
  obtain ⟨text, overflow, error, attempts⟩ := p
  cases here
  rw [eatWhiteSpace, if_neg (Bool.eq_false_iff.mp open_), List.dropWhile_cons_of_neg (Bool.eq_false_iff.mp other)]

theorem eatWhiteSpace_skip (open_ : p.overflow = false) (here : p.rest = c :: rest) (space : isSpace c = true) :
    eatWhiteSpace p = eatWhiteSpace { p with rest } := by
  rw [eatWhiteSpace, eatWhiteSpace, if_neg (Bool.eq_false_iff.mp open_), if_neg (Bool.eq_false_iff.mp open_), here,
    List.dropWhile_cons_of_pos space]

theorem eatLine_rest (p : VdfParser) (rest line : Text) : eatLine { p with rest } line = eatLine p line := by
  induction line with
  | nil => rfl
  | cons c line ih => rw [eatLine, eatLine, ih]

theorem eatLine_length (p : VdfParser) (line : Text) : (eatLine p line).rest.length ≤ line.length := by
  induction line with
  | nil => exact Nat.le_refl _
  | cons c line ih =>
      rw [eatLine]
      split_ifs
      · exact Nat.le_succ _
      · exact ih.trans (Nat.le_succ _)

theorem eatWhiteSpace_rest (p : VdfParser) : (eatWhiteSpace p).rest.length ≤ p.rest.length := by
  rw [eatWhiteSpace]
  split_ifs
  · exact Nat.le_refl _
  · have shorter := List.length_dropWhile_le isSpace p.rest
    cases behind : p.rest.dropWhile isSpace with
    | nil => exact Nat.zero_le _
    | cons c rest =>
        rw [behind] at shorter
        exact shorter

theorem eatCppComment_cases (p : VdfParser) :
    eatCppComment p = (false, p) ∨
      ∃ rest, p.overflow = false ∧ p.rest = slash :: slash :: rest ∧ eatCppComment p = (true, eatLine p rest) := by
  obtain ⟨text, overflow, error, attempts⟩ := p
  match overflow, text with
  | true, _ => exact .inl rfl
  | false, [] => exact .inl rfl
  | false, [_] => exact .inl rfl
  | false, c :: d :: rest =>
      by_cases comment : c = slash ∧ d = slash
      · obtain ⟨rfl, rfl⟩ := comment
        exact .inr ⟨rest, rfl, rfl, rfl⟩
      · exact .inl (if_neg comment)

end WhiteSpace

namespace VdfReader

/-! ## Characters -/

def Reader.view (data : Text) (p : Reader) : VdfParser := ⟨data.drop p.get, p.overflow, p.error, p.attempts⟩

section Characters

variable {data : Text} {fuel : Nat} {p : Reader}

theorem drop_cases (data : Text) (get : Nat) :
    (data.length ≤ get ∧ data.drop get = []) ∨
      ∃ c, get < data.length ∧ data[get]? = some c ∧ data.drop get = c :: data.drop (get + 1) := by
  rcases Nat.lt_or_ge get data.length with inside | behind
  · exact .inr ⟨data[get], inside, List.getElem?_eq_getElem inside, List.drop_eq_getElem_cons inside⟩
  · exact .inl ⟨behind, List.drop_eq_nil_of_le behind⟩

theorem eatWhiteSpace_returns (enough : (data.drop p.get).length < fuel) :
    Returns (eatWhiteSpace data fuel p) fun q =>
      q.view data = Steam.eatWhiteSpace (p.view data) ∧ q.deepest = p.deepest := by
  induction fuel generalizing p with
  | zero => cases enough
  | succ fuel ih =>
      rw [eatWhiteSpace]
      refine Returns.ite (fun past => .pure ⟨(eatWhiteSpace_over past).symm, rfl⟩) fun going => ?_
      have open_ : (p.view data).overflow = false := Bool.eq_false_iff.mpr going
      rcases drop_cases data p.get with ⟨behind, none⟩ | ⟨c, inside, here, rest⟩
      · rw [if_pos behind, eatWhiteSpace_end open_ none]
        refine .pure ⟨?_, rfl⟩
        rw [Reader.view, none]
        rfl
      · rw [if_neg (Nat.not_le.mpr inside), here]
        rw [rest, List.length_cons] at enough
        refine Returns.ite (fun other => ?_) fun space => ?_
        · rw [eatWhiteSpace_stop open_ rest (by simpa using other)]
          exact .pure ⟨rfl, rfl⟩
        · rw [eatWhiteSpace_skip open_ rest (by simpa using space)]
          exact @ih { p with get := p.get + 1 } (Nat.lt_of_succ_lt_succ enough)

theorem getChar_inside (open_ : p.overflow = false) {c : UInt8} (inside : p.get < data.length)
    (here : data[p.get]? = some c) : getChar data p = some (c, { p with get := p.get + 1 }) := by
  rw [getChar, if_neg (Bool.eq_false_iff.mp open_), if_neg (Nat.not_le.mpr inside), here]
  rfl

theorem getChar_end (open_ : p.overflow = false) (behind : data.length ≤ p.get) :
    getChar data p = some (0, { p with overflow := true }) := by
  rw [getChar, if_neg (Bool.eq_false_iff.mp open_), if_pos behind]

theorem eatLine_returns (open_ : p.overflow = false) (enough : (data.drop p.get).length < fuel) :
    Returns (eatLine data fuel p) fun q =>
      q.view data = Steam.eatLine (p.view data) (data.drop p.get) ∧ q.deepest = p.deepest := by
  induction fuel generalizing p with
  | zero => cases enough
  | succ fuel ih =>
      rw [eatLine]
      rcases drop_cases data p.get with ⟨behind, none⟩ | ⟨c, inside, here, rest⟩
      · rw [getChar_end open_ behind, none]
        refine Returns.next ?_
        dsimp only
        rw [if_neg (by simp)]
        refine .pure ⟨?_, rfl⟩
        rw [Reader.view, none]
        rfl
      · rw [getChar_inside open_ inside here, rest, Steam.eatLine]
        rw [rest, List.length_cons] at enough
        refine Returns.next (Returns.ite (fun more => ?_) fun ended => ?_)
        · rw [if_neg more.1]
          refine (@ih { p with get := p.get + 1 } open_ (Nat.lt_of_succ_lt_succ enough)).mono fun q same => ?_
          exact ⟨same.1.trans (eatLine_rest (p.view data) _ _), same.2⟩
        · have last : c = newline := by
            by_contra other
            exact ended ⟨other, by simp [open_]⟩
          rw [if_pos last]
          exact .pure ⟨rfl, rfl⟩

theorem eatCppComment_returns (enough : (data.drop p.get).length < fuel + 1) :
    Returns (eatCppComment data fuel p) fun r =>
      r.1 = (Steam.eatCppComment (p.view data)).1 ∧ r.2.view data = (Steam.eatCppComment (p.view data)).2 ∧
        r.2.deepest = p.deepest := by
  obtain ⟨get, overflow, error, token, attempts, deepest⟩ := p
  rw [eatCppComment]
  cases overflow with
  | true =>
      rw [if_pos (.inl rfl)]
      exact .pure ⟨rfl, rfl, rfl⟩
  | false =>
      rcases drop_cases data get with ⟨behind, none⟩ | ⟨c, inside, here, rest⟩
      · rw [if_pos (.inr (Nat.lt_succ_of_le (Nat.le_succ_of_le behind)))]
        refine .pure ⟨?_, ?_, rfl⟩
        all_goals
          rw [Reader.view, none]
          rfl
      rcases drop_cases data (get + 1) with ⟨behind, none⟩ | ⟨d, inside', here', rest'⟩
      · rw [if_pos (.inr (Nat.lt_succ_of_le behind))]
        refine .pure ⟨?_, ?_, rfl⟩
        all_goals
          rw [Reader.view, rest, none]
          rfl
      · have two : ¬ (false = true ∨ data.length < get + 2) := fun wrong =>
          wrong.elim Bool.false_ne_true (Nat.not_lt.mpr inside')
        have view : (⟨get, false, error, token, attempts, deepest⟩ : Reader).view data =
            ⟨c :: d :: data.drop (get + 2), false, error, attempts⟩ := by
          rw [Reader.view, rest, rest']
        have expected : Steam.eatCppComment ⟨c :: d :: data.drop (get + 2), false, error, attempts⟩ =
            if c = slash ∧ d = slash then
              (true, Steam.eatLine ⟨c :: d :: data.drop (get + 2), false, error, attempts⟩ (data.drop (get + 2)))
            else (false, ⟨c :: d :: data.drop (get + 2), false, error, attempts⟩) := rfl
        rw [if_neg two, here, view, expected]
        refine Returns.next (Returns.ite (fun other => ?_) fun first => ?_)
        · rw [if_neg fun both => other both.1]
          exact .pure ⟨rfl, view, rfl⟩
        rw [here']
        refine Returns.next (Returns.ite (fun other => ?_) fun second => ?_)
        · rw [if_neg fun both => other both.2]
          exact .pure ⟨rfl, view, rfl⟩
        · rw [if_pos ⟨not_not.mp first, not_not.mp second⟩]
          have shorter : (data.drop (get + 2)).length < fuel := by
            rw [rest, rest', List.length_cons, List.length_cons] at enough
            exact Nat.lt_of_succ_lt (Nat.lt_of_succ_lt_succ enough)
          have line := @eatLine_returns data fuel ⟨get + 2, false, error, token, attempts, deepest⟩ rfl shorter
          refine Returns.bind line fun q same => .pure ⟨rfl, ?_, same.2⟩
          exact same.1.trans (eatLine_rest ⟨c :: d :: data.drop (get + 2), false, error, attempts⟩ _ _)

theorem getDelimitedChar_returns (open_ : p.overflow = false) :
    Returns (getDelimitedChar data p) fun r =>
      r.1 = (delimitedChar (data.drop p.get)).1 ∧
        r.2.view data = ⟨(delimitedChar (data.drop p.get)).2.1, (delimitedChar (data.drop p.get)).2.2, p.error,
          p.attempts⟩ ∧ r.2.token = p.token ∧ r.2.deepest = p.deepest := by
  obtain ⟨get, overflow, error, token, attempts, deepest⟩ := p
  cases open_
  rw [getDelimitedChar]
  rcases drop_cases data get with ⟨behind, none⟩ | ⟨c, inside, here, rest⟩
  · rw [getChar_end rfl behind, none]
    exact .pure ⟨rfl, by rw [Reader.view, none]; rfl, rfl, rfl⟩
  rw [getChar_inside rfl inside here, rest]
  refine Returns.next (Returns.ite (fun other => ?_) fun escape => ?_)
  · have plain : delimitedChar (c :: data.drop (get + 1)) = (c, data.drop (get + 1), false) := by
      cases data.drop (get + 1) with
      | nil => rw [delimitedChar, if_neg other]
      | cons e rest => rw [delimitedChar, if_neg other]
    rw [plain]
    exact .pure ⟨rfl, rfl, rfl, rfl⟩
  have escape := not_not.mp escape
  rcases drop_cases data (get + 1) with ⟨behind, none⟩ | ⟨e, inside', here', rest'⟩
  · rw [if_pos behind, none, delimitedChar, if_pos escape]
    exact .pure ⟨rfl, by rw [Reader.view, none], rfl, rfl⟩
  · rw [if_neg (Nat.not_le.mpr inside'), here', rest', delimitedChar, if_pos escape]
    refine Returns.next (Returns.ite (fun known => ?_) fun unknown => ?_)
    · rw [if_neg known]
      exact .pure ⟨rfl, rfl, rfl, rfl⟩
    · rw [if_pos (not_not.mp unknown)]
      exact .pure ⟨rfl, by rw [Reader.view, rest'], rfl, rfl⟩

end Characters

/-! ## The token -/

section Token

variable {data : Text} {fuel length : Nat} {p : Reader}

variable (data) in
theorem store_returns (inside : length < vdfTokenSize) (c : UInt8) :
    Returns (store p length c) fun q => q.view data = p.view data ∧ q.deepest = p.deepest ∧
      q.token.chars = p.token.chars.set length c ∧ q.get = p.get ∧ q.overflow = p.overflow ∧ q.error = p.error ∧
        q.attempts = p.attempts := by
  rw [store, if_pos inside]
  exact .pure ⟨rfl, rfl, rfl, rfl, rfl, rfl, rfl⟩

theorem take_set {chars : Text} (inside : length < chars.length) (c : UInt8) :
    (chars.set length c).take (length + 1) = chars.take length ++ [c] := by
  rw [List.take_add_one, List.take_set_of_le (Nat.le_refl length), List.getElem?_set_self inside]
  rfl

theorem cString_set {chars : Text} (inside : length < chars.length) :
    cString (chars.set length 0) = cString (chars.take length) := by
  have ends : (0 :: chars.drop (length + 1)).takeWhile (· ≠ 0) = [] := List.takeWhile_cons_of_neg (by decide)
  rw [cString, List.set_eq_take_append_cons_drop, if_pos inside, List.takeWhile_append, ends, List.append_nil]
  split_ifs with whole
  · exact ((List.takeWhile_prefix _).eq_of_length whole).symm
  · rfl

variable (data) in
theorem store_nul {chars : Text} (inside : length < vdfTokenSize) (kept : p.token.chars.take length = chars) :
    Returns (store p length 0) fun q =>
      q.view data = p.view data ∧ tokenString q = some (cString chars) ∧ q.deepest = p.deepest := by
  have within : length < p.token.chars.length := by rw [p.token.size]; exact inside
  refine (store_returns data inside 0).mono fun q stored => ?_
  obtain ⟨view, deepest, set, -⟩ := stored
  refine ⟨view, ?_, deepest⟩
  rw [tokenString, set, if_pos (List.mem_set within 0), cString_set within, kept]

theorem take_take_append (n : Nat) (first second : Text) :
    (first.take n ++ second).take n = (first ++ second).take n := by
  rw [List.take_append, List.take_append, List.take_take, Nat.min_self, List.length_take]
  congr 2
  omega

/-! ### Quoted tokens -/

theorem atQuote_eq (p : Reader) : atQuote data p = some (decide ((data.drop p.get).head? = some quote)) := by
  rw [atQuote]
  rcases drop_cases data p.get with ⟨behind, none⟩ | ⟨c, inside, here, rest⟩
  · rw [if_neg (Nat.not_lt.mpr behind), none]
    rfl
  · rw [if_pos inside, here, rest]
    simp

theorem quotedLoop_store (fits : length ≤ vdfTokenSize) (c : UInt8) :
    ∃ length' q, (if length < vdfTokenSize then do
        let p ← store p length c
        quotedLoop data fuel (length + 1) p
      else quotedLoop data fuel length p) = quotedLoop data fuel length' q ∧
      length' = min vdfTokenSize (length + 1) ∧
      q.token.chars.take length' = (p.token.chars.take length ++ [c]).take vdfTokenSize ∧
      q.view data = p.view data ∧ q.deepest = p.deepest := by
  by_cases room : length < vdfTokenSize
  · obtain ⟨q, stored, view, deepest, chars, -⟩ := @store_returns data length p room c
    refine ⟨length + 1, q, ?_, (Nat.min_eq_right room).symm, ?_, view, deepest⟩
    · rw [if_pos room, stored]
      rfl
    · have short : (p.token.chars.take length ++ [c]).length ≤ vdfTokenSize := by
        rw [List.length_append, List.length_take, List.length_singleton, p.token.size]
        omega
      rw [chars, take_set (by rw [p.token.size]; exact room), List.take_of_length_le short]
  · have full : length = vdfTokenSize := by omega
    refine ⟨length, p, if_neg room, by omega, ?_, rfl, rfl⟩
    rw [full, take_take_append, List.take_append_of_le_length (Nat.le_of_eq p.token.size.symm)]

theorem quotedLoop_returns (fits : length ≤ vdfTokenSize) (open_ : p.overflow = false)
    (enough : (data.drop p.get).length + 1 < fuel) :
    Returns (quotedLoop data fuel length p) fun r =>
      r.1 = min vdfTokenSize (length + (quotedChars (data.drop p.get)).1.length) ∧
        r.2.token.chars.take r.1 =
          (p.token.chars.take length ++ (quotedChars (data.drop p.get)).1).take vdfTokenSize ∧
        r.2.view data = ⟨(quotedChars (data.drop p.get)).2.1, (quotedChars (data.drop p.get)).2.2, p.error,
          p.attempts⟩ ∧ r.2.deepest = p.deepest := by
  induction fuel generalizing length p with
  | zero => cases enough
  | succ fuel ih =>
      rw [quotedLoop, if_neg (Bool.eq_false_iff.mp open_), atQuote_eq]
      refine Returns.next (Returns.ite (fun ended => ?_) fun other => ?_)
      · obtain ⟨rest, here⟩ := List.head?_eq_some_iff.mp (of_decide_eq_true ended)
        have next : data.drop (p.get + 1) = rest := by rw [← List.tail_drop, here, List.tail_cons]
        rw [here, quotedChars_quote]
        refine .pure ⟨(Nat.min_eq_right fits).symm, ?_, ?_, rfl⟩
        · rw [List.append_nil, List.take_take, Nat.min_eq_right fits]
        · rw [Reader.view, next, open_]
      · rw [quotedChars_other (mt decide_eq_true other)]
        refine Returns.bind (getDelimitedChar_returns open_) fun r read => ?_
        obtain ⟨c, q⟩ := r
        obtain ⟨char, view, token, deepest⟩ := read
        dsimp only at char view token deepest
        obtain ⟨length', q', same, kept, stored, view', deepest'⟩ :=
          @quotedLoop_store data fuel length q fits c
        dsimp only
        rw [same]
        rw [token, char] at stored
        have past : q'.overflow = (delimitedChar (data.drop p.get)).2.2 := congrArg VdfParser.overflow (view'.trans view)
        have rest : data.drop q'.get = (delimitedChar (data.drop p.get)).2.1 := congrArg VdfParser.rest (view'.trans view)
        by_cases missing : (delimitedChar (data.drop p.get)).2.2 = true
        · rw [if_pos missing]
          cases fuel with
          | zero => omega
          | succ fuel =>
              rw [quotedLoop, if_pos (past.trans missing)]
              refine .pure ⟨kept, stored, ?_, deepest'.trans deepest⟩
              rw [view', view, missing, delimitedChar_ended missing]
              rfl
        · rw [if_neg missing]
          have shorter := delimitedChar_shorter (Bool.eq_false_iff.mpr missing)
          have found := @ih length' q' (by omega) (past.trans (Bool.eq_false_iff.mpr missing)) (by rw [rest]; omega)
          rw [rest] at found
          refine found.mono fun r last => ?_
          obtain ⟨size, chars, ended, deepest''⟩ := last
          refine ⟨?_, ?_, ?_, (deepest''.trans deepest').trans deepest⟩
          · rw [size, kept, List.length_cons]
            omega
          · rw [chars, stored, take_take_append, List.append_assoc, List.singleton_append]
          · have error : q'.error = p.error := congrArg VdfParser.error (view'.trans view)
            have attempts : q'.attempts = p.attempts := congrArg VdfParser.attempts (view'.trans view)
            rw [ended, error, attempts]

theorem readQuoted_returns (open_ : p.overflow = false) {rest : Text} (here : data.drop p.get = quote :: rest)
    (enough : (data.drop p.get).length < fuel) :
    Returns (readQuoted data fuel p) fun q =>
      q.view data = ⟨(quotedChars rest).2.1, (quotedChars rest).2.2, p.error, p.attempts⟩ ∧
        tokenString q = some (cString ((quotedChars rest).1.take (vdfTokenSize - 1))) ∧ q.deepest = p.deepest := by
  have next : data.drop (p.get + 1) = rest := by rw [← List.tail_drop, here, List.tail_cons]
  have shorter : (data.drop (p.get + 1)).length + 1 < fuel := by
    rw [here, List.length_cons] at enough
    rw [next]
    exact enough
  have loop := @quotedLoop_returns data fuel 0 { p with get := p.get + 1 } (Nat.zero_le _) open_ shorter
  dsimp only at loop
  rw [next] at loop
  refine Returns.bind loop fun r found => ?_
  obtain ⟨length, q⟩ := r
  obtain ⟨size, chars, view, deepest⟩ := found
  dsimp only at size chars view deepest
  rw [Nat.zero_add] at size
  rw [List.take_zero, List.nil_append] at chars
  have inside : (if vdfTokenSize ≤ length then vdfTokenSize - 1 else length) < vdfTokenSize := by
    split_ifs with full
    · exact Nat.sub_one_lt (by decide)
    · exact Nat.not_le.mp full
  have kept : q.token.chars.take (if vdfTokenSize ≤ length then vdfTokenSize - 1 else length) =
      (quotedChars rest).1.take (vdfTokenSize - 1) := by
    split_ifs with full
    · have all : length = vdfTokenSize := by omega
      rw [← Nat.min_eq_left (Nat.sub_le vdfTokenSize 1), ← List.take_take, ← all, chars, all, List.take_take]
    · rw [chars, List.take_of_length_le (by omega), List.take_of_length_le (by omega)]
  refine (store_nul data inside kept).mono fun q' ended => ⟨?_, ended.2.1, ended.2.2.trans deepest⟩
  rw [ended.1, view]

/-! ### Unquoted tokens -/

theorem Unquoted.flag_spec (u : Unquoted) (c : UInt8) :
    (u.flag c).length = u.length ∧ (u.flag c).reported = u.reported ∧
      (u.flag c).bracket = (u.bracket || decide (c = openBracket)) ∧
      (u.flag c).conditional = (u.conditional || (decide (c = closeBracket) && u.bracket)) := by
  have apart : openBracket ≠ closeBracket := by decide
  rw [Unquoted.flag]
  split_ifs with opening closing
  · exact ⟨rfl, rfl, by rw [decide_eq_true opening, Bool.or_true],
      by rw [opening, decide_eq_false apart, Bool.false_and, Bool.or_false]⟩
  · exact ⟨rfl, rfl, by rw [decide_eq_false opening, Bool.or_false],
      by rw [decide_eq_true closing.1, closing.2, Bool.and_self, Bool.or_true]⟩
  · refine ⟨rfl, rfl, by rw [decide_eq_false opening, Bool.or_false], ?_⟩
    have none : (decide (c = closeBracket) && u.bracket) = false := by
      rw [Bool.and_eq_false_iff, decide_eq_false_iff_not, ← Bool.not_eq_true, ← not_and_or]
      exact closing
    rw [none, Bool.or_false]

structure UnquotedRead (data : Text) (u : Unquoted) (p : Reader) (text : Text) (r : Unquoted × Reader) : Prop where
  length : r.1.length = min (vdfTokenSize - 1) (u.length + (unquotedChars u.bracket text).1.length)
  chars : r.2.token.chars.take r.1.length =
    (p.token.chars.take u.length ++ (unquotedChars u.bracket text).1).take (vdfTokenSize - 1)
  conditional : r.1.conditional = (u.conditional || (unquotedChars u.bracket text).2.2)
  view : r.2.view data = ⟨(unquotedChars u.bracket text).2.1, p.overflow,
    p.error || decide (vdfTokenSize - 1 < u.length + (unquotedChars u.bracket text).1.length), p.attempts⟩
  deepest : r.2.deepest = p.deepest

structure UnquotedStep (data : Text) (u : Unquoted) (p : Reader) (c : UInt8) (u' : Unquoted) (p' : Reader) :
    Prop where
  length : u'.length = min (vdfTokenSize - 1) (u.length + 1)
  chars : p'.token.chars.take u'.length = (p.token.chars.take u.length ++ [c]).take (vdfTokenSize - 1)
  bracket : u'.bracket = (u.bracket || decide (c = openBracket))
  conditional : u'.conditional = (u.conditional || (decide (c = closeBracket) && u.bracket))
  view : p'.view data = ⟨data.drop (p.get + 1), p.overflow,
    p.error || decide (vdfTokenSize - 1 < u.length + 1), p.attempts⟩
  deepest : p'.deepest = p.deepest

theorem unquotedChars_cons {c : UInt8} (plain : endsUnquoted c = false) (other : isSpace c = false) (bracket : Bool)
    (rest : Text) :
    unquotedChars bracket (c :: rest) =
      (c :: (unquotedChars (bracket || decide (c = openBracket)) rest).1,
        (unquotedChars (bracket || decide (c = openBracket)) rest).2.1,
        (unquotedChars (bracket || decide (c = openBracket)) rest).2.2 || (decide (c = closeBracket) && bracket)) := by
  rw [unquotedChars, plain, other, Bool.or_self, if_neg Bool.false_ne_true]

theorem UnquotedRead.cons {u u' : Unquoted} {p p' : Reader} {c : UInt8} {rest : Text} {r : Unquoted × Reader}
    (plain : endsUnquoted c = false) (other : isSpace c = false) (step : UnquotedStep data u p c u' p')
    (read : UnquotedRead data u' p' rest r) : UnquotedRead data u p (c :: rest) r := by
  have same := unquotedChars_cons plain other u.bracket rest
  have overflow : p'.overflow = p.overflow := congrArg VdfParser.overflow step.view
  have error : p'.error = _ := congrArg VdfParser.error step.view
  have attempts : p'.attempts = p.attempts := congrArg VdfParser.attempts step.view
  obtain ⟨length, chars, conditional, view, deepest⟩ := read
  rw [step.bracket] at length chars conditional view
  rw [step.length] at length view
  constructor
  · rw [same, length, List.length_cons]
    omega
  · rw [same, chars, step.chars, take_take_append, List.append_assoc, List.singleton_append]
  · rw [same, conditional, step.conditional, Bool.or_assoc, Bool.or_comm (unquotedChars _ _).2.2]
  · rw [same, view, overflow, error, attempts, List.length_cons, Bool.or_assoc]
    congr 2
    rw [Bool.eq_iff_iff, Bool.or_eq_true, decide_eq_true_eq, decide_eq_true_eq, decide_eq_true_eq]
    omega
  · rw [deepest, step.deepest]

theorem unquotedRead_stop {u : Unquoted} {p : Reader} {text : Text} (fits : u.length ≤ vdfTokenSize - 1)
    (here : data.drop p.get = text) (none : unquotedChars u.bracket text = ([], text, false)) :
    UnquotedRead data u p text (u, p) := by
  constructor
  · rw [none]
    exact (Nat.min_eq_right fits).symm
  · rw [none, List.append_nil, List.take_take, Nat.min_eq_right fits]
  · rw [none, Bool.or_false]
  · rw [none, List.length_nil, Nat.add_zero, decide_eq_false (Nat.not_lt.mpr fits), Bool.or_false, ← here]
    rfl
  · rfl

theorem unquotedLoop_returns {u : Unquoted} (fits : u.length ≤ vdfTokenSize - 1)
    (reported : u.reported = true → p.error = true) (enough : (data.drop p.get).length < fuel) :
    Returns (unquotedLoop data fuel u p) (UnquotedRead data u p (data.drop p.get)) := by
  induction fuel generalizing u p with
  | zero => cases enough
  | succ fuel ih =>
      rw [unquotedLoop]
      rcases drop_cases data p.get with ⟨behind, none⟩ | ⟨c, inside, here, rest⟩
      · rw [if_pos behind, none]
        exact .pure (unquotedRead_stop fits none rfl)
      rw [if_neg (Nat.not_le.mpr inside), here, rest]
      refine Returns.next (Returns.ite (fun ends => ?_) fun continues => ?_)
      · refine .pure (unquotedRead_stop fits rest ?_)
        rw [unquotedChars, ends, Bool.true_or, if_pos rfl]
      have plain : endsUnquoted c = false := Bool.eq_false_iff.mpr continues
      obtain ⟨length, reported', bracket, conditional⟩ := u.flag_spec c
      dsimp only
      by_cases space : isSpace c = true
      · have same : u.flag c = u := by
          have apart : c ≠ openBracket ∧ c ≠ closeBracket := by
            constructor
            all_goals
              rintro rfl
              exact absurd space (by decide)
          rw [Unquoted.flag, if_neg apart.1, if_neg fun closing => apart.2 closing.1]
        rw [if_pos space, same]
        refine .pure (unquotedRead_stop fits rest ?_)
        rw [unquotedChars, space, Bool.or_true, if_pos rfl]
      have other := Bool.eq_false_iff.mpr space
      rw [rest, List.length_cons] at enough
      have shorter : (data.drop (p.get + 1)).length < fuel := Nat.lt_of_succ_lt_succ enough
      rw [if_neg space, length]
      by_cases room : u.length < vdfTokenSize - 1
      · have inside : u.length < vdfTokenSize := Nat.lt_of_lt_of_le room (Nat.sub_le _ _)
        rw [if_pos room]
        refine Returns.bind (store_returns data inside c) fun q stored => ?_
        obtain ⟨-, deepest, chars, get, overflow, error, attempts⟩ := stored
        have step : UnquotedStep data u p c { u.flag c with length := u.length + 1 } { q with get := q.get + 1 } := {
          length := (Nat.min_eq_right room).symm
          chars := by
            have short : (p.token.chars.take u.length ++ [c]).length ≤ vdfTokenSize - 1 := by
              rw [List.length_append, List.length_take, List.length_singleton]
              omega
            rw [List.take_of_length_le short]
            exact (congrArg (List.take _) chars).trans (take_set (by rw [p.token.size]; exact inside) c)
          bracket := bracket
          conditional := conditional
          view := by
            rw [Reader.view, get, overflow, error, attempts, decide_eq_false (Nat.not_lt.mpr room), Bool.or_false]
          deepest := deepest }
        have loop := @ih { q with get := q.get + 1 } { u.flag c with length := u.length + 1 } room
          (fun was => error.trans (reported (reported'.symm.trans was)))
          (by rw [get]; exact shorter)
        have text : data.drop (q.get + 1) = data.drop (p.get + 1) := by rw [get]
        refine loop.mono fun r read => UnquotedRead.cons plain other step ?_
        rw [← text]
        exact read
      · have full : u.length = vdfTokenSize - 1 := by omega
        have dropped : p.token.chars.take u.length =
            (p.token.chars.take u.length ++ [c]).take (vdfTokenSize - 1) := by
          rw [full, take_take_append, List.take_append_of_le_length]
          rw [p.token.size]
          exact Nat.sub_le _ _
        have size : u.length = min (vdfTokenSize - 1) (u.length + 1) := by omega
        have past : (p.error || decide (vdfTokenSize - 1 < u.length + 1)) = true := by
          rw [decide_eq_true (by omega), Bool.or_true]
        rw [if_neg room]
        refine Returns.ite (fun first => ?_) fun again => ?_
        · have step : UnquotedStep data u p c { u.flag c with reported := true, length := u.length }
              { p with get := p.get + 1, error := true } :=
            ⟨size, dropped, bracket, conditional, by rw [past]; rfl, rfl⟩
          have loop := @ih { p with get := p.get + 1, error := true }
            { u.flag c with reported := true, length := u.length } fits (fun _ => rfl) shorter
          exact loop.mono fun r read => UnquotedRead.cons plain other step read
        · have failed : p.error = true := reported (by simpa [reported'] using again)
          have step : UnquotedStep data u p c (u.flag c) { p with get := p.get + 1 } :=
            ⟨length.trans size, by rw [length]; exact dropped, bracket, conditional, by rw [past, ← failed]; rfl, rfl⟩
          have loop := @ih { p with get := p.get + 1 } (u.flag c) (length ▸ fits) (fun _ => failed) shorter
          exact loop.mono fun r read => UnquotedRead.cons plain other step read

end Token

/-! ## Reading a token -/

section ReadToken

variable {data : Text} {fuel : Nat} {p : Reader}

theorem eatComments_returns {n : Nat} (within : (data.drop p.get).length ≤ n)
    (enough : (data.drop p.get).length < fuel) :
    Returns (eatComments data fuel p) fun q =>
      q.view data = Steam.eatComments n (p.view data) ∧ q.deepest = p.deepest := by
  induction fuel generalizing p n with
  | zero => cases enough
  | succ fuel ih =>
      rw [eatComments]
      refine Returns.bind (eatCppComment_returns enough) fun r found => ?_
      obtain ⟨comment, q⟩ := r
      obtain ⟨found, view, deepest⟩ := found
      dsimp only at found view deepest
      rcases eatCppComment_cases (p.view data) with other | ⟨line, open_, text, is_comment⟩
      · rw [other] at found view
        subst found
        refine .pure ⟨?_, deepest⟩
        cases n with
        | zero => exact view
        | succ n =>
            rw [Steam.eatComments, other]
            exact view
      · rw [is_comment] at found view
        subst found
        have shorter := eatLine_length (p.view data) line
        have size := congrArg List.length text
        have behind : q.view data = Steam.eatLine (p.view data) line := view
        rw [← behind] at shorter
        change (data.drop q.get).length ≤ line.length at shorter
        change (data.drop p.get).length = line.length + 1 + 1 at size
        obtain ⟨q', ran, view', deepest'⟩ := @eatWhiteSpace_returns data fuel q (by omega)
        have rest := eatWhiteSpace_rest (q.view data)
        rw [← view'] at rest
        change (data.drop q'.get).length ≤ (data.drop q.get).length at rest
        cases n with
        | zero => omega
        | succ n =>
            rw [Steam.eatComments, is_comment]
            dsimp only
            rw [ran, ← behind, ← view']
            refine Returns.next (Returns.ite (fun past => ?_) fun more => ?_)
            · rw [if_pos (show (q'.view data).overflow = true from past)]
              exact .pure ⟨rfl, deepest'.trans deepest⟩
            · rw [if_neg (show ¬ (q'.view data).overflow = true from more)]
              refine (@ih q' n (by omega) (by omega)).mono fun last same => ?_
              exact ⟨same.1, (same.2.trans deepest').trans deepest⟩

def Token.view (data : Text) (r : Token) : VdfRead := ⟨r.token, r.quoted, r.conditional, r.parser.view data⟩

theorem eatComments_rest (n : Nat) (p : VdfParser) : (Steam.eatComments n p).rest.length ≤ p.rest.length := by
  induction n generalizing p with
  | zero => exact Nat.le_refl _
  | succ n ih =>
      rw [Steam.eatComments]
      rcases eatCppComment_cases p with other | ⟨line, -, text, comment⟩
      · rw [other]
      · rw [comment]
        have shorter := (eatWhiteSpace_rest (Steam.eatLine p line)).trans (eatLine_length p line)
        have size : p.rest.length = line.length + 1 + 1 := congrArg List.length text
        dsimp only
        split_ifs
        · omega
        · have later := ih (Steam.eatWhiteSpace (Steam.eatLine p line))
          omega

theorem cString_plain {chars : Text} (plain : 0 ∉ chars) : cString chars = chars := by
  refine List.takeWhile_eq_self_iff.mpr fun c member => decide_eq_true ?_
  rintro rfl
  exact plain member

theorem unquotedChars_plain (bracket : Bool) (text : Text) : 0 ∉ (unquotedChars bracket text).1 := by
  induction text generalizing bracket with
  | nil => exact List.not_mem_nil
  | cons c rest ih =>
      rw [unquotedChars]
      split_ifs with ends
      · exact List.not_mem_nil
      · rintro (_ | ⟨_, later⟩)
        · exact ends rfl
        · exact ih _ later

theorem readHere_returns (open_ : p.overflow = false) (enough : (data.drop p.get).length < fuel) :
    Returns (readHere data fuel p) fun r =>
      r.view data = tokenHere (p.view data) ∧ r.parser.deepest = p.deepest := by
  rw [readHere, tokenHere]
  rcases drop_cases data p.get with ⟨behind, none⟩ | ⟨c, inside, here, rest⟩
  · have none_left : (p.view data).rest = [] := none
    rw [if_pos behind, none_left]
    exact .pure ⟨rfl, rfl⟩
  have here_left : (p.view data).rest = c :: data.drop (p.get + 1) := rest
  rw [if_neg (Nat.not_le.mpr inside), here, here_left]
  dsimp only
  refine Returns.next (Returns.ite (fun quoted => ?_) fun unquoted => ?_)
  · rw [if_pos quoted, Steam.readQuoted]
    rw [quoted] at rest
    obtain ⟨q, read, view, token, deepest⟩ := readQuoted_returns open_ rest enough
    rw [read]
    refine Returns.next ?_
    rw [token]
    refine .pure ⟨?_, deepest⟩
    rw [Token.view, view]
    rfl
  rw [if_neg unquoted]
  refine Returns.ite (fun single => ?_) fun other => ?_
  · have some_char : cString [c] = [c] := by
      rcases single with rfl | rfl | rfl
      all_goals rfl
    obtain ⟨q, stored, view, deepest, chars, -⟩ :=
      @store_returns data 0 { p with get := p.get + 1 } (by decide) c
    have kept : q.token.chars.take 1 = [c] := by
      rw [chars]
      exact take_set (by rw [p.token.size]; decide) c
    obtain ⟨q', stored', view', token, deepest'⟩ := store_nul data (by decide) kept
    rw [if_pos single, stored]
    refine Returns.next ?_
    rw [stored']
    refine Returns.next ?_
    rw [token, some_char]
    refine .pure ⟨?_, deepest'.trans deepest⟩
    rw [Token.view, view', view]
    rfl
  · rw [if_neg other, Steam.readUnquoted]
    have loop := @unquotedLoop_returns data fuel p ⟨false, false, false, 0⟩ (Nat.zero_le _) nofun enough
    refine Returns.bind loop fun r read => ?_
    obtain ⟨u, q⟩ := r
    obtain ⟨length, chars, conditional, view, deepest⟩ := read
    dsimp only at length chars conditional view deepest
    rw [rest] at length chars conditional view
    rw [List.take_zero, List.nil_append] at chars
    rw [Nat.zero_add] at view
    have inside : u.length < vdfTokenSize := by
      rw [length]
      exact Nat.lt_of_le_of_lt (Nat.min_le_left _ _) (Nat.sub_one_lt (by decide))
    obtain ⟨q', stored, view', token, deepest'⟩ := store_nul data inside chars
    dsimp only
    rw [stored]
    refine Returns.next ?_
    rw [token, cString_plain fun nul => unquotedChars_plain false _ (List.mem_of_mem_take nul)]
    refine .pure ⟨?_, deepest'.trans deepest⟩
    rw [Token.view, view', view, conditional, Bool.false_or]
    rfl

theorem readToken_returns (enough : (data.drop p.get).length < fuel) :
    Returns (readToken data fuel p) fun r =>
      r.view data = Steam.readToken (p.view data) ∧ r.parser.deepest = p.deepest := by
  rw [readToken, Steam.readToken]
  refine Returns.ite (fun past => ?_) fun open_ => ?_
  · rw [if_pos (show (p.view data).overflow = true from past)]
    exact .pure ⟨rfl, rfl⟩
  rw [if_neg (show ¬ (p.view data).overflow = true from open_)]
  obtain ⟨q, ran, view, deepest⟩ := eatWhiteSpace_returns enough
  have shorter := eatWhiteSpace_rest (p.view data)
  rw [← view] at shorter ⊢
  change (data.drop q.get).length ≤ (data.drop p.get).length at shorter
  rw [ran]
  refine Returns.next (Returns.ite (fun past => ?_) fun open_ => ?_)
  · rw [if_pos (show (q.view data).overflow = true from past)]
    exact .pure ⟨rfl, deepest⟩
  rw [if_neg (show ¬ (q.view data).overflow = true from open_)]
  obtain ⟨q', ran', view', deepest'⟩ := eatComments_returns (Nat.le_refl _) (Nat.lt_of_le_of_lt shorter enough)
  have shorter' := eatComments_rest (data.drop q.get).length (q.view data)
  have same : Steam.eatComments (q.view data).rest.length (q.view data) = q'.view data := view'.symm
  rw [← view'] at shorter'
  change (data.drop q'.get).length ≤ (data.drop q.get).length at shorter'
  rw [ran', same]
  refine Returns.next (Returns.ite (fun past => ?_) fun open_ => ?_)
  · rw [if_pos (show (q'.view data).overflow = true from past)]
    exact .pure ⟨rfl, deepest'.trans deepest⟩
  rw [if_neg (show ¬ (q'.view data).overflow = true from open_)]
  refine (readHere_returns (Bool.eq_false_iff.mpr open_) (by omega)).mono fun r found => ?_
  exact ⟨found.1, (found.2.trans deepest').trans deepest⟩

end ReadToken

end VdfReader

end Yafsml.Steam
