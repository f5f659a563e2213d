import Yafsml.Steam.Vdf

/-! # Printing a VDF text

Every key and value is quoted; between the tokens there may be any blanks and comments. -/

namespace Yafsml.Steam

inductive Blank : Text → Prop
  | nil : Blank []
  | space {c : UInt8} {rest : Text} (space : isSpace c = true) (behind : Blank rest) : Blank (c :: rest)
  | comment {line rest : Text} (within : newline ∉ line) (behind : Blank rest) :
      Blank (slash :: slash :: (line ++ newline :: rest))

abbrev reading (attempts : Nat) (rest : Text) : VdfParser := ⟨rest, false, false, attempts⟩

abbrev atEnd (attempts : Nat) : VdfParser := ⟨[], true, false, attempts⟩

variable {n : Nat} {c : UInt8} {line rest : Text}

theorem eatWhiteSpace_space (space : isSpace c = true) :
    eatWhiteSpace (reading n (c :: rest)) = eatWhiteSpace (reading n rest) := by
  simp [eatWhiteSpace, space]

theorem eatWhiteSpace_other (other : isSpace c = false) :
    eatWhiteSpace (reading n (c :: rest)) = reading n (c :: rest) := by
  simp [eatWhiteSpace, other]

theorem eatLine_append {p : VdfParser} (within : newline ∉ line) :
    eatLine p (line ++ newline :: rest) = { p with rest } := by
  induction line with
  | nil => simp [eatLine]
  | cons c line ih =>
      obtain ⟨first, within⟩ := not_or.mp (List.mem_cons.not.mp within)
      rw [List.cons_append, eatLine, if_neg (Ne.symm first)]
      exact ih within

theorem eatLine_end {p : VdfParser} (within : newline ∉ line) :
    eatLine p line = { p with rest := [], overflow := true } := by
  induction line with
  | nil => rfl
  | cons c line ih =>
      obtain ⟨first, within⟩ := not_or.mp (List.mem_cons.not.mp within)
      rw [eatLine, if_neg (Ne.symm first)]
      exact ih within

theorem isSpace_slash : isSpace slash = false := by decide

theorem eatCppComment_slashes :
    eatCppComment (reading n (slash :: slash :: rest)) = (true, eatLine (reading n (slash :: slash :: rest)) rest) := by
  simp [eatCppComment]

theorem eatCppComment_other (other : c ≠ slash) :
    eatCppComment (reading n (c :: rest)) = (false, reading n (c :: rest)) := by
  cases rest <;> simp [eatCppComment, other]

theorem eatComments_overflow {p : VdfParser} (isOver : p.overflow = true) (fuel : Nat) :
    eatComments fuel p = p := by
  cases fuel <;> simp [eatComments, eatCppComment, isOver]

theorem eatComments_comment {p : VdfParser} (behind : eatCppComment p = (true, reading n rest)) (fuel : Nat) :
    eatComments (fuel + 1) p = eatComments fuel (eatWhiteSpace (reading n rest)) := by
  rw [eatComments, behind]
  cases isOver : (eatWhiteSpace (reading n rest)).overflow with
  | true => simp [isOver, eatComments_overflow isOver]
  | false => simp [isOver]

theorem length_eatWhiteSpace (p : VdfParser) : (eatWhiteSpace p).rest.length ≤ p.rest.length := by
  have shorter := (List.dropWhile_sublist isSpace (l := p.rest)).length_le
  unfold eatWhiteSpace
  split_ifs
  · exact Nat.le_refl _
  · cases dropped : p.rest.dropWhile isSpace with
    | nil => exact Nat.zero_le _
    | cons c rest =>
        rw [dropped] at shorter
        exact shorter

def skipBlanks (p : VdfParser) : VdfParser :=
  eatComments (eatWhiteSpace p).rest.length (eatWhiteSpace p)

theorem readToken_eq :
    readToken (reading n rest) =
      if (skipBlanks (reading n rest)).overflow then ⟨none, false, false, skipBlanks (reading n rest)⟩
      else tokenHere (skipBlanks (reading n rest)) := by
  unfold readToken skipBlanks
  cases isOver : (eatWhiteSpace (reading n rest)).overflow with
  | true => simp [isOver, eatComments_overflow isOver]
  | false => simp [isOver]

theorem eatComments_blank {b : Text} (blank : Blank b) {out : VdfParser}
    (behind : ∀ fuel, (eatWhiteSpace (reading n rest)).rest.length ≤ fuel →
      eatComments fuel (eatWhiteSpace (reading n rest)) = out)
    {fuel : Nat} (enough : (eatWhiteSpace (reading n (b ++ rest))).rest.length ≤ fuel) :
    eatComments fuel (eatWhiteSpace (reading n (b ++ rest))) = out := by
  induction blank generalizing fuel with
  | nil => exact behind fuel enough
  | space space _ ih =>
      rw [List.cons_append, eatWhiteSpace_space space] at enough ⊢
      exact ih enough
  | @comment line b within _ ih =>
      have text : slash :: slash :: (line ++ newline :: b) ++ rest
          = slash :: slash :: (line ++ newline :: (b ++ rest)) := by simp
      rw [text, eatWhiteSpace_other isSpace_slash] at enough ⊢
      have shorter := length_eatWhiteSpace (reading n (b ++ rest))
      simp only [List.length_cons, List.length_append] at enough shorter
      cases fuel with
      | zero => omega
      | succ fuel =>
          rw [eatComments_comment (by rw [eatCppComment_slashes, eatLine_append within])]
          exact ih (by omega)

theorem skipBlanks_token {b : Text} (blank : Blank b) (notSpace : isSpace c = false) (notSlash : c ≠ slash) :
    skipBlanks (reading n (b ++ c :: rest)) = reading n (c :: rest) := by
  apply eatComments_blank blank _ (Nat.le_refl _)
  intro fuel _
  rw [eatWhiteSpace_other notSpace]
  cases fuel with
  | zero => rfl
  | succ fuel => rw [eatComments, eatCppComment_other notSlash]

theorem readToken_blank {b : Text} (blank : Blank b) (notSpace : isSpace c = false) (notSlash : c ≠ slash) :
    readToken (reading n (b ++ c :: rest)) = tokenHere (reading n (c :: rest)) := by
  rw [readToken_eq, skipBlanks_token blank notSpace notSlash]
  rfl

/-- Blanks, and perhaps a comment that the text ends with. -/
inductive Trailing : Text → Prop
  | blank {b : Text} (blank : Blank b) : Trailing b
  | comment {b line : Text} (blank : Blank b) (within : newline ∉ line) :
      Trailing (b ++ slash :: slash :: line)

theorem eatWhiteSpace_nil : eatWhiteSpace (reading n []) = atEnd n := rfl

theorem readToken_trailing {b : Text} (trailing : Trailing b) :
    readToken (reading n b) = ⟨none, false, false, atEnd n⟩ := by
  have skipped : skipBlanks (reading n b) = atEnd n := by
    cases trailing with
    | blank blank =>
        rw [← List.append_nil b]
        apply eatComments_blank blank _ (Nat.le_refl _)
        intro fuel _
        rw [eatWhiteSpace_nil, eatComments_overflow rfl]
    | comment blank within =>
        apply eatComments_blank blank _ (Nat.le_refl _)
        intro fuel enough
        rw [eatWhiteSpace_other isSpace_slash] at enough ⊢
        cases fuel with
        | zero => cases enough
        | succ fuel =>
            rw [eatComments, eatCppComment_slashes, eatLine_end within]
            rfl
  rw [readToken_eq, skipped]
  rfl

def escape (chars : Text) : Text :=
  chars.flatMap fun c => if c = backslash ∨ c = quote then [backslash, c] else [c]

def quoted (chars : Text) : Text := quote :: (escape chars ++ [quote])

theorem quotedChars_plain {behind : Text} (notQuote : c ≠ quote) (notBackslash : c ≠ backslash)
    (more : behind ≠ []) :
    quotedChars (c :: behind) =
      (c :: (quotedChars behind).1, (quotedChars behind).2.1, (quotedChars behind).2.2) := by
  cases behind with
  | nil => exact (more rfl).elim
  | cons e rest => simp [quotedChars, notQuote, notBackslash]

theorem quotedChars_escaped {behind : Text} (escaped : c = backslash ∨ c = quote) :
    quotedChars (backslash :: c :: behind) =
      (c :: (quotedChars behind).1, (quotedChars behind).2.1, (quotedChars behind).2.2) := by
  have known : escapedChar c = c ∧ c ≠ 0 := by
    cases escaped with
    | inl same => subst same; decide
    | inr same => subst same; decide
  rw [quotedChars, known.1]
  simp [known.2, show backslash ≠ quote by decide]

theorem quotedChars_escape (chars behind : Text) :
    quotedChars (escape chars ++ quote :: behind) = (chars, behind, false) := by
  induction chars with
  | nil => exact quotedChars_quote behind
  | cons c chars ih =>
      have more : escape chars ++ quote :: behind ≠ [] := by simp
      by_cases escaped : c = backslash ∨ c = quote
      · have text : escape (c :: chars) ++ quote :: behind
            = backslash :: c :: (escape chars ++ quote :: behind) := by simp [escape, escaped]
        rw [text, quotedChars_escaped escaped, ih]
      · have text : escape (c :: chars) ++ quote :: behind = c :: (escape chars ++ quote :: behind) := by
          simp [escape, escaped]
        obtain ⟨notBackslash, notQuote⟩ := not_or.mp escaped
        rw [text, quotedChars_plain notQuote notBackslash more, ih]

def FitsToken (chars : Text) : Prop := 0 ∉ chars ∧ chars.length < vdfTokenSize

theorem FitsToken.token {chars : Text} (fits : FitsToken chars) :
    cString (chars.take (vdfTokenSize - 1)) = chars := by
  have whole : chars.take (vdfTokenSize - 1) = chars := by
    apply List.take_of_length_le
    have := fits.2
    omega
  rw [whole, cString, List.takeWhile_eq_self_iff]
  intro c among
  simp only [decide_eq_true_eq]
  rintro rfl
  exact fits.1 among

theorem readToken_quoted {b chars : Text} (blank : Blank b) (fits : FitsToken chars) :
    readToken (reading n (b ++ quoted chars ++ rest)) = ⟨some chars, true, false, reading n rest⟩ := by
  have text : b ++ quoted chars ++ rest = b ++ quote :: (escape chars ++ quote :: rest) := by simp [quoted]
  rw [text, readToken_blank blank (by decide) (by decide)]
  simp only [tokenHere, if_true, readQuoted, quotedChars_escape, fits.token]

theorem readToken_openBrace {b : Text} (blank : Blank b) :
    readToken (reading n (b ++ [openBrace] ++ rest)) = ⟨some [openBrace], false, false, reading n rest⟩ := by
  rw [List.append_assoc]
  exact readToken_blank blank (by decide) (by decide)

theorem readToken_closeBrace {b : Text} (blank : Blank b) :
    readToken (reading n (b ++ [closeBrace] ++ rest)) = ⟨some [closeBrace], false, false, reading n rest⟩ := by
  rw [List.append_assoc]
  exact readToken_blank blank (by decide) (by decide)

mutual

def VdfObject.tokens : VdfObject → List Text
  | .none key => [quoted (key.getD [])]
  | .string key value => [quoted (key.getD []), quoted value]
  | .array key children => quoted (key.getD []) :: [openBrace] :: (tokensAll children ++ [[closeBrace]])

def VdfObject.tokensAll : List VdfObject → List Text
  | [] => []
  | child :: children => child.tokens ++ VdfObject.tokensAll children

end

inductive Laid : List Text → Text → Prop
  | nil : Laid [] []
  | cons {token b : Text} {tokens : List Text} {text : Text} (blank : Blank b) (behind : Laid tokens text) :
      Laid (token :: tokens) (b ++ token ++ text)

theorem laid_cons {token : Text} {tokens : List Text} {text : Text} (laid : Laid (token :: tokens) text) :
    ∃ b behind, Blank b ∧ text = b ++ token ++ behind ∧ Laid tokens behind := by
  cases laid with
  | @cons _ b _ behind blank laid => exact ⟨b, behind, blank, rfl, laid⟩

theorem laid_append {tokens tokens' : List Text} {text : Text} (laid : Laid (tokens ++ tokens') text) :
    ∃ front back, text = front ++ back ∧ Laid tokens front ∧ Laid tokens' back := by
  induction tokens generalizing text with
  | nil => exact ⟨[], text, rfl, .nil, laid⟩
  | cons token tokens ih =>
      cases laid with
      | @cons _ b _ text blank behind =>
          obtain ⟨front, back, rfl, first, last⟩ := ih behind
          exact ⟨b ++ token ++ front, back, by simp, .cons blank first, last⟩

/-- An object whose blocks are nested at most this deep, with keys and values that can be stored. -/
inductive Printable : Nat → VdfObject → Prop
  | string {depth : Nat} {key value : Text} (named : key ≠ []) (fits : FitsToken key)
      (fits_value : FitsToken value) (stored : storedValue value = value) :
      Printable depth (.string (some key) value)
  | array {depth : Nat} {key : Text} {children : List VdfObject} (named : key ≠ []) (fits : FitsToken key)
      (within : ∀ child ∈ children, Printable depth child) :
      Printable (depth + 1) (.array (some key) children)

/-- The printed text of an object: its tokens, and anything that is not a token behind them. -/
def PrintedAs (object : VdfObject) (text : Text) : Prop :=
  ∃ front back, text = front ++ back ∧ Laid object.tokens front ∧ Trailing back

end Yafsml.Steam
