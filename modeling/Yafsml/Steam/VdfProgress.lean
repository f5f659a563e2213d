import Yafsml.Steam.VdfReaderTokens

/-!
# Progress of the VDF parser

What becomes of the parser along the way: it goes on in the text, an error stays, and an allocation that failed
is an error.
-/

namespace Yafsml.Steam

/-! ## What reading a token leaves alone -/

def VdfParser.relabel (p : VdfParser) (error : Bool) (attempts : Nat) : VdfParser :=
  { p with error := p.error || error, attempts := attempts }

section Relabel

variable (p : VdfParser) (error : Bool) (attempts : Nat)

@[simp]
theorem relabel_overflow : (p.relabel error attempts).overflow = p.overflow := rfl

@[simp]
theorem relabel_rest : (p.relabel error attempts).rest = p.rest := rfl

theorem eatWhiteSpace_relabel :
    eatWhiteSpace (p.relabel error attempts) = (eatWhiteSpace p).relabel error attempts := by
  rw [eatWhiteSpace, eatWhiteSpace]
  change (if p.overflow = true then _ else _) = _
  split_ifs
  · rfl
  · rw [relabel_rest]
    cases p.rest.dropWhile isSpace with
    | nil => rfl
    | cons c rest => rfl

theorem eatLine_relabel (line : Text) :
    eatLine (p.relabel error attempts) line = (eatLine p line).relabel error attempts := by
  induction line with
  | nil => rfl
  | cons c line ih =>
      rw [eatLine, eatLine, ih]
      split_ifs
      · rfl
      · rfl

theorem eatComments_relabel (n : Nat) :
    eatComments n (p.relabel error attempts) = (eatComments n p).relabel error attempts := by
  induction n generalizing p with
  | zero => rfl
  | succ n ih =>
      have comment : eatCppComment (p.relabel error attempts) =
          ((eatCppComment p).1, (eatCppComment p).2.relabel error attempts) := by
        rcases eatCppComment_cases p with other | ⟨line, open_, text, same⟩
        · rcases eatCppComment_cases (p.relabel error attempts) with other' | ⟨line, open_, text, same⟩
          · rw [other, other']
          · obtain ⟨text', overflow, error', attempts'⟩ := p
            cases open_
            cases text
            cases other
        · obtain ⟨text', overflow, error', attempts'⟩ := p
          cases open_
          cases text
          rw [same]
          exact congrArg (Prod.mk true) (eatLine_relabel _ error attempts line)
      rw [eatComments, eatComments, comment]
      cases eatCppComment p with
      | mk found q =>
          cases found with
          | false => rfl
          | true =>
              dsimp only
              rw [eatWhiteSpace_relabel]
              change (if (eatWhiteSpace q).overflow = true then _ else _) = _
              split_ifs
              · rfl
              · exact ih _

theorem tokenHere_relabel :
    tokenHere (p.relabel error attempts) =
      { tokenHere p with parser := (tokenHere p).parser.relabel error attempts } := by
  rw [tokenHere, tokenHere]
  rw [relabel_rest]
  cases p.rest with
  | nil => rfl
  | cons c rest =>
      dsimp only
      split_ifs
      · rfl
      · rfl
      · rw [readUnquoted, readUnquoted]
        dsimp only [VdfParser.relabel]
        rw [Bool.or_right_comm]

theorem readToken_relabel :
    readToken (p.relabel error attempts) =
      { readToken p with parser := (readToken p).parser.relabel error attempts } := by
  rw [readToken, readToken, eatWhiteSpace_relabel]
  dsimp only
  simp only [relabel_overflow, relabel_rest, eatComments_relabel]
  split_ifs
  · rfl
  · rfl
  · rfl
  · exact tokenHere_relabel _ error attempts

end Relabel

section ReadToken

variable {p : VdfParser}

theorem readToken_attempts (p : VdfParser) : (readToken p).parser.attempts = p.attempts := by
  have same := readToken_relabel p false p.attempts
  have unchanged : p.relabel false p.attempts = p := by
    rw [VdfParser.relabel, Bool.or_false]
  rw [unchanged] at same
  exact congrArg (·.parser.attempts) same

theorem readToken_error (failed : p.error = true) : (readToken p).parser.error = true := by
  have same := readToken_relabel p true p.attempts
  have unchanged : p.relabel true p.attempts = p := by
    rw [VdfParser.relabel, Bool.or_true, ← failed]
  rw [unchanged] at same
  rw [same]
  exact Bool.or_true _

def VdfParser.Ended (p : VdfParser) : Prop := p.overflow = true → p.rest = []

theorem delimited_length (text : Text) : (quotedChars text).2.1.length ≤ text.length := by
  induction size : text.length using Nat.strongRecOn generalizing text with
  | ind n ih =>
      by_cases ended : text.head? = some quote
      · obtain ⟨rest, rfl⟩ := List.head?_eq_some_iff.mp ended
        rw [quotedChars_quote, ← size]
        exact Nat.le_succ _
      · rw [quotedChars_other ended]
        split_ifs with missing
        · exact Nat.zero_le _
        · have shorter := delimitedChar_shorter (Bool.eq_false_iff.mpr missing)
          have later := ih _ (size ▸ shorter) _ rfl
          exact later.trans (by omega)

theorem unquotedChars_append (bracket : Bool) (text : Text) :
    (unquotedChars bracket text).1 ++ (unquotedChars bracket text).2.1 = text := by
  induction text generalizing bracket with
  | nil => rfl
  | cons c rest ih =>
      rw [unquotedChars]
      split_ifs
      · rfl
      · exact congrArg (c :: ·) (ih _)

structure VdfRead.Progress (r : VdfRead) (text : Text) : Prop where
  rest : r.parser.rest.length ≤ text.length
  token : ∀ t, r.token = some t → t ≠ [] ∨ r.quoted = true → r.parser.rest.length < text.length
  conditional : ∀ t, r.token = some t → r.conditional = true → t.length ≤ text.length

theorem VdfRead.Progress.mono {r : VdfRead} {text longer : Text} (progress : r.Progress text)
    (shorter : text.length ≤ longer.length) : r.Progress longer :=
  ⟨progress.rest.trans shorter, fun t found some_ => Nat.lt_of_lt_of_le (progress.token t found some_) shorter,
    fun t found some_ => (progress.conditional t found some_).trans shorter⟩

theorem progress_none {q : VdfParser} {text : Text} (shorter : q.rest.length ≤ text.length) :
    (VdfRead.mk none false false q).Progress text := ⟨shorter, nofun, nofun⟩

theorem readUnquoted_progress (p : VdfParser) (text : Text) : (readUnquoted p text).Progress text := by
  have whole := congrArg List.length (unquotedChars_append false text)
  rw [readUnquoted]
  revert whole
  generalize unquotedChars false text = read
  obtain ⟨chars, behind, conditional⟩ := read
  intro whole
  dsimp only at whole
  rw [List.length_append] at whole
  refine ⟨by dsimp only; omega, ?_, ?_⟩
  · rintro _ ⟨⟩ (nonempty | wrong)
    · have some_chars : chars ≠ [] := fun none => nonempty (by rw [none]; rfl)
      have positive := List.length_pos_iff.mpr some_chars
      dsimp only
      omega
    · cases wrong
  · rintro _ ⟨⟩ -
    rw [List.length_take]
    omega

theorem tokenHere_progress (p : VdfParser) : (tokenHere p).Progress p.rest := by
  rw [tokenHere]
  cases here : p.rest with
  | nil => exact progress_none (by rw [here])
  | cons c rest =>
      dsimp only
      split_ifs
      · have shorter : (quotedChars rest).2.1.length < (c :: rest).length :=
          Nat.lt_succ_of_le (delimited_length rest)
        exact ⟨Nat.le_of_lt shorter, fun _ _ _ => shorter, fun _ _ wrong => absurd wrong Bool.false_ne_true⟩
      · exact ⟨Nat.le_succ _, fun _ _ _ => Nat.lt_succ_self _, fun _ _ wrong => absurd wrong Bool.false_ne_true⟩
      · exact readUnquoted_progress p (c :: rest)

theorem readToken_progress (p : VdfParser) : (readToken p).Progress p.rest := by
  have blanks := eatWhiteSpace_rest p
  have comments := VdfReader.eatComments_rest (eatWhiteSpace p).rest.length (eatWhiteSpace p)
  rw [readToken]
  dsimp only
  split_ifs
  · exact progress_none (Nat.le_refl _)
  · exact progress_none blanks
  · exact progress_none (comments.trans blanks)
  · exact (tokenHere_progress _).mono (comments.trans blanks)

theorem quotedChars_missing {text : Text} (missing : (quotedChars text).2.2 = true) : (quotedChars text).2.1 = [] := by
  induction size : text.length using Nat.strongRecOn generalizing text with
  | ind n ih =>
      by_cases ended : text.head? = some quote
      · obtain ⟨rest, rfl⟩ := List.head?_eq_some_iff.mp ended
        rw [quotedChars_quote] at missing
        cases missing
      · rw [quotedChars_other ended] at missing ⊢
        split_ifs at missing ⊢ with none
        · rfl
        · have shorter := delimitedChar_shorter (Bool.eq_false_iff.mpr none)
          exact ih _ (size ▸ shorter) missing rfl

theorem eatWhiteSpace_ended (ended : p.Ended) : (eatWhiteSpace p).Ended := by
  rw [eatWhiteSpace]
  split_ifs with past
  · exact ended
  · cases p.rest.dropWhile isSpace with
    | nil => exact fun _ => rfl
    | cons c rest => exact fun wrong => absurd wrong past

theorem eatLine_ended (open_ : p.overflow = false) (line : Text) : (eatLine p line).Ended := by
  induction line with
  | nil => exact fun _ => rfl
  | cons c line ih =>
      rw [eatLine]
      split_ifs
      · exact fun wrong => absurd (open_.symm.trans wrong) Bool.false_ne_true
      · exact ih

theorem eatComments_ended (n : Nat) (ended : p.Ended) : (eatComments n p).Ended := by
  induction n generalizing p with
  | zero => exact ended
  | succ n ih =>
      rw [eatComments]
      rcases eatCppComment_cases p with other | ⟨line, open_, -, comment⟩
      · rw [other]
        exact ended
      · have behind := eatWhiteSpace_ended (eatLine_ended open_ line)
        rw [comment]
        dsimp only
        split_ifs
        · exact behind
        · exact ih behind

theorem tokenHere_ended (open_ : p.overflow = false) : (tokenHere p).parser.Ended := by
  have never {q : VdfParser} (same : q.overflow = p.overflow) : q.Ended := fun past =>
    absurd ((same.trans open_).symm.trans past) Bool.false_ne_true
  rw [tokenHere]
  cases p.rest with
  | nil => exact never rfl
  | cons c rest =>
      dsimp only
      split_ifs
      · exact quotedChars_missing
      · exact never rfl
      · exact never rfl

theorem readToken_ended (ended : p.Ended) : (readToken p).parser.Ended := by
  rw [readToken]
  dsimp only
  split_ifs with past past' past''
  · exact ended
  · exact eatWhiteSpace_ended ended
  · exact eatComments_ended _ (eatWhiteSpace_ended ended)
  · exact tokenHere_ended (Bool.eq_false_iff.mpr past'')

end ReadToken

/-! ## Entries -/

section Entries

variable (alloc : Nat → Bool)

def entryHead (p : VdfParser) (children : List VdfObject) : (List VdfObject × VdfParser) ⊕ (Text × VdfValue) :=
  let r := readToken p
  match r.token with
  | none => .inl (children, r.parser.fail)
  | some key =>
      if r.parser.error = true ∨ key = [] then .inl (children, r.parser.fail)
      else if r.is closeBrace then .inl (children, r.parser)
      else
        match newObject alloc r.parser with
        | (false, p) => .inl (children, p)
        | (true, p) =>
            let v := readValue p children key
            if v.read.isNoValue then .inl (v.children, v.read.parser.fail) else .inr (key, v)

variable (store : VdfValue → Text → VdfEntry)

/-- The entries of a block, where `store` stores the values. -/
def loadEntriesWith : (fuel depth : Nat) → VdfParser → List VdfObject → List VdfObject × VdfParser
  | 0, _, p, children => (children, p.fail)
  | fuel + 1, depth, p, children =>
      match entryHead alloc p children with
      | .inl ended => ended
      | .inr (key, v) =>
          let entry :=
            if v.read.is openBrace then
              let (block, p) :=
                if vdfMaxDepth < depth + 1 then ([], v.read.parser.fail)
                else loadEntriesWith fuel (depth + 1) v.read.parser []
              ⟨.array (some key) block, v.accepted, v.children, p⟩
            else store v key
          let (children, p) := appendChild alloc entry.accepted entry.children entry.child entry.parser
          loadEntriesWith fuel depth p children

def loadBlockWith (p : VdfParser) (depth : Nat) : List VdfObject × VdfParser :=
  if vdfMaxDepth < depth then ([], p.fail) else loadEntriesWith alloc store (p.rest.length + 1) depth p []

def loadEntryWith (l : VdfLoading) (key : Text) (p : VdfParser) : VdfLoading :=
  let (r, accepted) := afterConditional (readToken p) true
  let (object, p) :=
    if r.is openBrace then
      let (block, p) := loadBlockWith alloc store r.parser 1
      (VdfObject.array (some key) block, p)
    else (.none (some key), r.parser.fail)
  let root := if l.current = .root then (if accepted then object else .none (some key)) else l.root
  let current := if accepted then .null else if l.current = .root then .root else .scratch
  ⟨root, current, p⟩

def parseEntriesWith : Nat → VdfLoading → VdfLoading
  | 0, l => { l with parser := l.parser.fail }
  | fuel + 1, l =>
      let r := readToken l.parser
      let key := r.token.getD []
      if r.parser.overflow || r.token.isNone || (key = [] && !r.quoted) then { l with parser := r.parser }
      else if asciiEqual key includeKey then
        let file := readToken r.parser
        let p := if file.token.getD [] = [] then file.parser.fail else file.parser
        if p.overflow || p.error then { l with parser := p } else parseEntriesWith fuel { l with parser := p }
      else
        match nextObject alloc l.current r.parser with
        | (false, p) => { l with parser := p }
        | (true, p) =>
            let l := loadEntryWith alloc store l key p
            if l.parser.overflow || l.parser.error then l else parseEntriesWith fuel l

def vdfParseBufferWith (buffer : Text) : Option VdfObject :=
  if intMax < buffer.length then none
  else if alloc 0 = false ∨ alloc 1 = false then none
  else
    let l := parseEntriesWith alloc store (buffer.length + 1)
      ⟨.none none, .root, ⟨skipMark buffer, false, false, 2⟩⟩
    if l.parser.error then none else some l.root

/-! ### The parser itself -/

theorem loadEntriesWith_loadString : loadEntriesWith alloc (loadString alloc) = loadEntries alloc := by
  funext fuel
  induction fuel with
  | zero => rfl
  | succ fuel ih =>
      funext depth p children
      rw [loadEntriesWith, loadEntries, ih, entryHead]
      dsimp only
      cases (readToken p).token with
      | none => rfl
      | some key =>
          dsimp only
          by_cases bad : (readToken p).parser.error = true ∨ key = []
          · rw [if_pos bad, if_pos bad]
          rw [if_neg bad, if_neg bad]
          by_cases closed : (readToken p).is closeBrace = true
          · rw [if_pos closed, if_pos closed]
          rw [if_neg closed, if_neg closed]
          cases newObject alloc (readToken p).parser with
          | mk made p =>
              cases made with
              | false => rfl
              | true =>
                  dsimp only
                  cases (readValue p children key).read.isNoValue with
                  | true => rfl
                  | false => rfl

theorem loadEntryWith_loadString : loadEntryWith alloc (loadString alloc) = loadEntry alloc := by
  have block : loadBlockWith alloc (loadString alloc) = loadBlock alloc := by
    funext p depth
    rw [loadBlockWith, loadEntriesWith_loadString, loadBlock]
  funext l key p
  rw [loadEntryWith, block, loadEntry]

theorem parseEntriesWith_loadString (fuel : Nat) :
    parseEntriesWith alloc (loadString alloc) fuel = parseEntries alloc fuel := by
  induction fuel with
  | zero => rfl
  | succ fuel ih =>
      funext l
      rw [parseEntries, ← ih, ← loadEntryWith_loadString]
      rfl

theorem vdfParseBufferWith_loadString : vdfParseBufferWith alloc (loadString alloc) = vdfParseBuffer alloc := by
  funext buffer
  rw [vdfParseBufferWith, parseEntriesWith_loadString, vdfParseBuffer]

end Entries

/-! ## What holds along the way -/

section Later

variable (alloc : Nat → Bool)

/-- `q` is what became of the parser `p`. An allocation that failed is an error. -/
structure VdfParser.Later (p q : VdfParser) : Prop where
  rest : q.rest.length ≤ p.rest.length
  error : p.error = true → q.error = true
  ended : p.Ended → q.Ended
  accounted : (∀ k < p.attempts, alloc k = false → p.error = true) →
    ∀ k < q.attempts, alloc k = false → q.error = true

variable {alloc} {p q r : VdfParser}

namespace VdfParser.Later

theorem refl : Later alloc p p := ⟨Nat.le_refl _, id, id, id⟩

theorem trans (first : Later alloc p q) (second : Later alloc q r) : Later alloc p r :=
  ⟨second.rest.trans first.rest, second.error ∘ first.error, second.ended ∘ first.ended,
    second.accounted ∘ first.accounted⟩

theorem fail : Later alloc p p.fail := ⟨Nat.le_refl _, fun _ => rfl, id, fun _ _ _ _ => rfl⟩

theorem readToken : Later alloc p (readToken p).parser where
  rest := (readToken_progress p).rest
  error := readToken_error
  ended := readToken_ended
  accounted accounted k within failed :=
    readToken_error (accounted k (readToken_attempts p ▸ within) failed)

theorem allocate : Later alloc p (allocate alloc p).2 where
  rest := Nat.le_refl _
  error failed := by
    change (p.error || _) = true
    rw [failed, Bool.true_or]
  ended := id
  accounted accounted k within failed := by
    change (p.error || !alloc p.attempts) = true
    rcases Nat.lt_or_eq_of_le (Nat.le_of_lt_succ within) with earlier | rfl
    · rw [accounted k earlier failed, Bool.true_or]
    · rw [failed, Bool.not_false, Bool.or_true]

theorem newObject : Later alloc p (newObject alloc p).2 := by
  rw [Steam.newObject]
  have first : Later alloc p (Steam.allocate alloc p).2 := allocate
  cases made : Steam.allocate alloc p with
  | mk ok q =>
      rw [made] at first
      cases ok with
      | false => exact first
      | true => exact first.trans allocate

theorem nextObject {current : VdfCurrent} : Later alloc p (nextObject alloc current p).2 := by
  cases current with
  | root => exact allocate
  | scratch => exact allocate
  | null => exact newObject

theorem appendChild {accepted : Bool} {children : List VdfObject} {child : VdfObject} :
    Later alloc p (appendChild alloc accepted children child p).2 := by
  rw [Steam.appendChild]
  split_ifs
  · exact refl
  · have first : Later alloc p (Steam.allocate alloc p).2 := allocate
    cases made : Steam.allocate alloc p with
    | mk ok q =>
        rw [made] at first
        cases ok with
        | false => exact first
        | true => exact first

theorem afterConditional {r : VdfRead} {accepted : Bool} (before : Later alloc p r.parser) :
    Later alloc p (afterConditional r accepted).1.parser := by
  rw [Steam.afterConditional]
  split
  · exact before.trans readToken
  · exact before

theorem readValue {children : List VdfObject} {key : Text} :
    Later alloc p (readValue p children key).read.parser := by
  have first : Later alloc p (Steam.afterConditional (Steam.readToken p) true).1.parser := afterConditional readToken
  rw [Steam.readValue]
  dsimp only
  split
  · have second := first.trans (readToken (p := (Steam.afterConditional (Steam.readToken p) true).1.parser))
    split
    · exact afterConditional second
    · exact second
  · exact first

theorem rewind (peek : Later alloc p q) : Later alloc p { q with rest := p.rest, overflow := false } :=
  ⟨Nat.le_refl _, peek.error, fun _ => nofun, peek.accounted⟩

theorem loadString {v : VdfValue} {key : Text} : Later alloc v.read.parser (loadString alloc v key).parser := by
  have first : Later alloc v.read.parser (Steam.allocate alloc v.read.parser).2 := allocate
  rw [Steam.loadString]
  cases made : Steam.allocate alloc v.read.parser with
  | mk ok q =>
      rw [made] at first
      cases ok with
      | false => exact first
      | true =>
          dsimp only
          split_ifs
          · exact first.trans readToken
          · exact first.trans readToken
          · exact first.trans (rewind readToken)

end VdfParser.Later

theorem loadString_later (v : VdfValue) (key : Text) : v.read.parser.Later alloc (loadString alloc v key).parser :=
  .loadString

theorem entryHead_later (p : VdfParser) (children : List VdfObject) :
    match entryHead alloc p children with
    | .inl ended => p.Later alloc ended.2
    | .inr (key, v) => p.Later alloc v.read.parser ∧ v.read.parser.rest.length < p.rest.length ∧ key ≠ [] ∧
        (readToken p).parser.error = false := by
  have first : p.Later alloc (readToken p).parser := .readToken
  have progress := readToken_progress p
  rw [entryHead]
  dsimp only
  cases token : (readToken p).token with
  | none => exact first.trans .fail
  | some key =>
      dsimp only
      by_cases bad : (readToken p).parser.error = true ∨ key = []
      · rw [if_pos bad]
        exact first.trans .fail
      rw [if_neg bad]
      by_cases closed : (readToken p).is closeBrace = true
      · rw [if_pos closed]
        exact first
      rw [if_neg closed]
      obtain ⟨fine, named⟩ := not_or.mp bad
      have made : (readToken p).parser.Later alloc (newObject alloc (readToken p).parser).2 := .newObject
      revert made
      cases newObject alloc (readToken p).parser with
      | mk ok q =>
          intro made
          cases ok with
          | false => exact first.trans made
          | true =>
              have value : q.Later alloc (readValue q children key).read.parser := .readValue
              dsimp only
              by_cases none : (readValue q children key).read.isNoValue = true
              · rw [if_pos none]
                exact (first.trans made).trans (value.trans .fail)
              · rw [if_neg none]
                have shorter := progress.token key token (.inl named)
                refine ⟨first.trans (made.trans value), ?_, named, Bool.eq_false_iff.mpr fine⟩
                exact Nat.lt_of_le_of_lt (value.rest.trans made.rest) shorter

section Stores

variable {store : VdfValue → Text → VdfEntry}
  (stores : ∀ (v : VdfValue) (key : Text), v.read.parser.Later alloc (store v key).parser)

include stores

theorem loadEntriesWith_later (fuel depth : Nat) (p : VdfParser) (children : List VdfObject) :
    p.Later alloc (loadEntriesWith alloc store fuel depth p children).2 := by
  induction fuel generalizing depth p children with
  | zero => exact .fail
  | succ fuel ih =>
      have head := @entryHead_later alloc p children
      rw [loadEntriesWith]
      revert head
      cases entryHead alloc p children with
      | inl ended => exact id
      | inr entry =>
          obtain ⟨key, v⟩ := entry
          rintro ⟨head, -⟩
          dsimp only
          split_ifs
          · exact (head.trans .fail).trans (.trans .appendChild (ih _ _ _))
          · exact (head.trans (ih _ _ _)).trans (.trans .appendChild (ih _ _ _))
          · exact (head.trans (stores v key)).trans (.trans .appendChild (ih _ _ _))

theorem loadBlockWith_later (p : VdfParser) (depth : Nat) : p.Later alloc (loadBlockWith alloc store p depth).2 := by
  rw [loadBlockWith]
  split_ifs
  · exact .fail
  · exact loadEntriesWith_later stores _ _ _ _

theorem loadEntryWith_later (l : VdfLoading) (key : Text) (p : VdfParser) :
    p.Later alloc (loadEntryWith alloc store l key p).parser := by
  have first : p.Later alloc (afterConditional (readToken p) true).1.parser := .afterConditional .readToken
  rw [loadEntryWith]
  dsimp only
  split
  · exact first.trans (loadBlockWith_later stores _ _)
  · exact first.trans .fail

theorem parseEntriesWith_later (fuel : Nat) (l : VdfLoading) :
    l.parser.Later alloc (parseEntriesWith alloc store fuel l).parser := by
  induction fuel generalizing l with
  | zero => exact .fail
  | succ fuel ih =>
      have first : l.parser.Later alloc (readToken l.parser).parser := .readToken
      have go_on (p : VdfParser) (before : l.parser.Later alloc p) :
          l.parser.Later alloc (parseEntriesWith alloc store fuel { l with parser := p }).parser :=
        before.trans (ih { l with parser := p })
      rw [parseEntriesWith]
      dsimp only
      split_ifs
      · exact first
      · exact (first.trans .readToken).trans .fail
      · exact go_on _ ((first.trans .readToken).trans .fail)
      · exact first.trans .readToken
      · exact go_on _ (first.trans .readToken)
      · have made : (readToken l.parser).parser.Later alloc (nextObject alloc l.current (readToken l.parser).parser).2 :=
          .nextObject
        revert made
        cases nextObject alloc l.current (readToken l.parser).parser with
        | mk ok q =>
            intro made
            cases ok with
            | false => exact first.trans made
            | true =>
                have entry := (first.trans made).trans (loadEntryWith_later stores l ((readToken l.parser).token.getD []) q)
                dsimp only
                split_ifs
                · exact entry
                · exact entry.trans (ih _)

end Stores

end Later

end Yafsml.Steam
