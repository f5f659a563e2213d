import Mathlib.Algebra.GroupWithZero.Nat
import Mathlib.Data.List.DropRight
import Mathlib.Tactic.Common

/-!
# The INI parser

`ini_parse_string` as the build configures it: no continuation lines, a line buffer that grows without
a limit. A handler takes the state of its user, a section, a name and a value.
-/

namespace Yafsml.Ini

abbrev Text := List UInt8

abbrev Handler (σ : Type) := σ → Text → Text → Text → σ × Bool

def newline : UInt8 := 10
def openBracket : UInt8 := 91
def closeBracket : UInt8 := 93
def equals : UInt8 := 61
def colon : UInt8 := 58

def isSpace (c : UInt8) : Bool := c = 32 || 9 ≤ c && c ≤ 13

def iniRstrip (s : Text) : Text := s.rdropWhile isSpace

def iniLskip (s : Text) : Text := s.dropWhile isSpace

def inlineComment : UInt8 := 59

/-- `INI_START_COMMENT_PREFIXES`. -/
def startComments : Text := [59, 35]

/-- What lies before the first of the characters or the first inline comment, and the rest. -/
def iniFindCharsOrComment (chars : Text) : Bool → Text → Text × Text
  | _, [] => ([], [])
  | wasSpace, c :: s =>
      if chars.contains c || wasSpace && c == inlineComment then ([], c :: s)
      else
        let (before, rest) := iniFindCharsOrComment chars (isSpace c) s
        (c :: before, rest)

def intMax : Nat := 2 ^ 31 - 1

/-- What the parser carries from line to line. The two numbers are `int`s and stay below `intMax`. -/
structure ParseState (σ : Type) where
  user : σ
  section_ : Text
  lineno : Nat
  error : Nat
  deriving DecidableEq, Repr

variable {σ : Type}

/-- `lineno++`, which C does not define for `INT_MAX`. -/
def ParseState.nextLine (s : ParseState σ) : Option (ParseState σ) :=
  if s.lineno < intMax then some { s with lineno := s.lineno + 1 } else none

def ParseState.fail (s : ParseState σ) : ParseState σ :=
  if s.error = 0 then { s with error := s.lineno } else s

def ParseState.result (s : ParseState σ) : σ × Int := (s.user, s.error)

def maxSection : Nat := 50

def byteOrderMark : Text := [0xef, 0xbb, 0xbf]

/-- A `[section]` line, behind its bracket. -/
def sectionLine (s : ParseState σ) (start : Text) : ParseState σ :=
  match iniFindCharsOrComment [closeBracket] false start with
  | (before, c :: _) =>
      if c = closeBracket then { s with section_ := before.take (maxSection - 1) } else s.fail
  | (_, []) => s.fail

def entryLine (handler : Handler σ) (s : ParseState σ) (start : Text) : ParseState σ :=
  match iniFindCharsOrComment [equals, colon] false start with
  | (before, c :: value) =>
      if c = equals ∨ c = colon then
        let name := iniRstrip before
        let value := iniRstrip (iniLskip (iniFindCharsOrComment [] false value).1)
        let (user, ok) := handler s.user s.section_ name value
        if ok then { s with user } else ParseState.fail { s with user }
      else s.fail
  | (_, []) => s.fail

def unmarkedLine (handler : Handler σ) (s : ParseState σ) (start : Text) : ParseState σ :=
  match iniRstrip (iniLskip start) with
  | [] => s
  | c :: start =>
      if startComments.contains c then s
      else if c = openBracket then sectionLine s start
      else entryLine handler s (c :: start)

/-- The body of the loop over the lines, behind `lineno++`. -/
def iniLine (handler : Handler σ) (s : ParseState σ) (line : Text) : ParseState σ :=
  unmarkedLine handler s (if s.lineno = 1 ∧ byteOrderMark <+: line then line.drop 3 else line)

def sizeMax : Nat := 2 ^ 64 - 1

def initialAlloc : Nat := 200

/-- At most `n` characters, up to a newline. -/
def readChars : Nat → Text → Text × Text
  | 0, stream => ([], stream)
  | _, [] => ([], [])
  | n + 1, c :: stream =>
      if c = newline then ([c], stream)
      else
        let (read, rest) := readChars n stream
        (c :: read, rest)

def iniReaderString (num : Nat) (stream : Text) : Option (Text × Text) :=
  if stream = [] ∨ num < 2 then none else some (readChars (num - 1) stream)

def cString (buffer : Text) : Text := buffer.takeWhile (· ≠ 0)

def clampInt (n : Nat) : Nat := if intMax < n then intMax else n

/-- The size of the line buffer after room was made for more behind `offset`. -/
def growLine (realloc : Nat → Bool) (maxLine offset : Nat) : Option Nat :=
  if maxLine - offset < 2 then
    if sizeMax / 2 < maxLine || !realloc (maxLine * 2) then none else some (maxLine * 2)
  else some maxLine

/-- The loop that reads the rest of a line, from a last read of `readLength` characters with room for
`readerSize - 1`. The inner `none` stands for the result -2. -/
def readOn (realloc : Nat → Bool) :
    Nat → Nat → Nat → Nat → Text → Text → Option (Option (Nat × Text × Text))
  | 0, _, _, _, _, _ => none
  | fuel + 1, maxLine, readerSize, readLength, line, stream =>
      if readLength = readerSize - 1 ∧ line.getLast? ≠ some newline then
        match growLine realloc maxLine line.length with
        | none => some none
        | some maxLine =>
            let readerSize := clampInt (maxLine - line.length)
            match iniReaderString readerSize stream with
            | none => some (some (maxLine, line, stream))
            | some (read, stream) =>
                let read := cString read
                readOn realloc fuel maxLine readerSize read.length (line ++ read) stream
      else some (some (maxLine, line, stream))

def discard : Nat → ParseState σ → Text → Option (ParseState σ × Text)
  | 0, _, _ => none
  | fuel + 1, s, stream =>
      match iniReaderString 16 stream with
      | none => some (s, stream)
      | some (abyss, stream) =>
          if (cString abyss).getLast? = some newline then some (s.fail, stream)
          else discard fuel s.fail stream

def iniLoop (realloc : Nat → Bool) (handler : Handler σ) :
    Nat → Nat → Text → ParseState σ → Option (σ × Int)
  | 0, _, _, _ => none
  | fuel + 1, maxLine, stream, s =>
      match iniReaderString (clampInt maxLine) stream with
      | none => some s.result
      | some (read, stream) => do
          let line := cString read
          match ← readOn realloc (stream.length + 2) maxLine (clampInt maxLine) line.length line stream with
          | none => return (s.user, -2)
          | some (maxLine, line, stream) =>
              let s ← s.nextLine
              if line.length = maxLine - 1 ∧ line.getLast? ≠ some newline then
                let (s, stream) ← discard (stream.length + 1) s stream
                iniLoop realloc handler fuel maxLine stream (iniLine handler s line)
              else iniLoop realloc handler fuel maxLine stream (iniLine handler s line)

/-- `ini_parse_string`: the state of the user and the result. -/
def iniParseString (malloc : Bool) (realloc : Nat → Bool) (handler : Handler σ) (user : σ)
    (string : Text) : Option (σ × Int) :=
  if malloc then iniLoop realloc handler (string.length + 1) initialAlloc string ⟨user, [], 0, 0⟩
  else some (user, -2)

variable {σ : Type}

def firstLine : Text → Text × Text
  | [] => ([], [])
  | c :: s =>
      if c = newline then ([c], s)
      else
        let (line, rest) := firstLine s
        (c :: line, rest)

def lines : Text → List Text
  | [] => []
  | c :: s =>
      if c = newline then [c] :: lines s
      else match lines s with
        | [] => [[c]]
        | line :: rest => (c :: line) :: rest

theorem lines_eq {s : Text} (more : s ≠ []) : lines s = (firstLine s).1 :: lines (firstLine s).2 := by
  induction s with
  | nil => exact absurd rfl more
  | cons c s ih =>
      rw [lines, firstLine]
      split_ifs
      · rfl
      · cases s with
        | nil => rfl
        | cons d s => rw [ih (List.cons_ne_nil d s)]

theorem firstLine_append (s : Text) : (firstLine s).1 ++ (firstLine s).2 = s := by
  induction s with
  | nil => rfl
  | cons c s ih =>
      rw [firstLine]
      split_ifs
      · rfl
      · exact congrArg (c :: ·) ih

/-- What one read delivers: the rest of the line with its newline, or a part without one. -/
theorem readChars_spec (n : Nat) (s : Text) :
    ((readChars n s).1.getLast? = some newline ∧ (readChars n s).1.length ≤ n ∧
        firstLine s = readChars n s) ∨
      (newline ∉ (readChars n s).1 ∧
        firstLine s = ((readChars n s).1 ++ (firstLine (readChars n s).2).1, (firstLine (readChars n s).2).2) ∧
        ((readChars n s).1.length = n ∨ (readChars n s).1.length < n ∧ (readChars n s).2 = [])) := by
  induction n generalizing s with
  | zero => exact .inr ⟨by simp [readChars], rfl, .inl rfl⟩
  | succ n ih =>
      cases s with
      | nil => exact .inr ⟨by simp [readChars], rfl, .inr ⟨Nat.succ_pos n, rfl⟩⟩
      | cons c s =>
          rw [readChars, firstLine]
          by_cases ends : c = newline
          · rw [if_pos ends, if_pos ends]
            exact .inl ⟨by simp [ends], Nat.succ_pos n, rfl⟩
          · rw [if_neg ends, if_neg ends]
            rcases ih s with ⟨last, short, whole⟩ | ⟨plain, part, size⟩
            · refine .inl ⟨?_, Nat.succ_le_succ short, by rw [whole]⟩
              have some_read : (readChars n s).1 ≠ [] := by
                intro none
                simp [none] at last
              change (c :: (readChars n s).1).getLast? = _
              rw [List.getLast?_cons_of_ne_nil some_read]
              exact last
            · refine .inr ⟨?_, by rw [part]; rfl, ?_⟩
              · change newline ∉ c :: (readChars n s).1
                rw [List.mem_cons, not_or]
                exact ⟨fun same => ends same.symm, plain⟩
              · rcases size with filled | ⟨less, drained⟩
                · exact .inl (congrArg (· + 1) filled)
                · exact .inr ⟨Nat.succ_lt_succ less, drained⟩

theorem readChars_append (n : Nat) (s : Text) : (readChars n s).1 ++ (readChars n s).2 = s := by
  induction n generalizing s with
  | zero => rfl
  | succ n ih =>
      cases s with
      | nil => rfl
      | cons c s =>
          rw [readChars]
          split_ifs
          · rfl
          · exact congrArg (c :: ·) (ih s)

theorem readChars_ne_nil {n : Nat} {s : Text} (positive : 0 < n) (more : s ≠ []) :
    (readChars n s).1 ≠ [] := by
  obtain ⟨m, rfl⟩ := Nat.exists_eq_succ_of_ne_zero (Nat.ne_of_gt positive)
  cases s with
  | nil => exact absurd rfl more
  | cons c s =>
      rw [readChars]
      split_ifs <;> simp

def Fits (maxLine : Nat) (line : Text) : Prop :=
  line.length + (if line.getLast? = some newline then 0 else 1) < maxLine

instance (maxLine : Nat) (line : Text) : Decidable (Fits maxLine line) :=
  inferInstanceAs (Decidable (_ < _))

/-- The size of the buffer when it holds the line, if every growth on the way succeeds; `fuel` bounds
them. -/
def roomFor (realloc : Nat → Bool) (line : Text) : Nat → Nat → Option Nat
  | 0, maxLine => if Fits maxLine line then some maxLine else none
  | fuel + 1, maxLine =>
      if Fits maxLine line then some maxLine
      else if sizeMax / 2 < maxLine || !realloc (maxLine * 2) then none
      else roomFor realloc line fuel (maxLine * 2)

theorem roomFor_of_fits {maxLine : Nat} {line : Text} (fits : Fits maxLine line) (realloc : Nat → Bool)
    (fuel : Nat) : roomFor realloc line fuel maxLine = some maxLine := by
  cases fuel <;> rw [roomFor, if_pos fits]

theorem roomFor_fits {realloc : Nat → Bool} {line : Text} {fuel maxLine size : Nat}
    (room : roomFor realloc line fuel maxLine = some size) : Fits size line ∧ maxLine ≤ size := by
  induction fuel generalizing maxLine with
  | zero =>
      rw [roomFor] at room
      split_ifs at room with fits
      cases room
      exact ⟨fits, le_rfl⟩
  | succ fuel ih =>
      rw [roomFor] at room
      split_ifs at room with fits
      · cases room
        exact ⟨fits, le_rfl⟩
      · obtain ⟨fits, more⟩ := ih room
        exact ⟨fits, by omega⟩

/-- The parser over lines: only the growth of its buffer can end it before the last one. -/
def byLines (realloc : Nat → Bool) (handler : Handler σ) : Nat → List Text → ParseState σ → σ × Int
  | _, [], s => s.result
  | maxLine, line :: rest, s =>
      match roomFor realloc line (line.length + 1) maxLine with
      | none => (s.user, -2)
      | some maxLine =>
          byLines realloc handler maxLine rest (iniLine handler { s with lineno := s.lineno + 1 } line)

theorem cString_of_nonzero {s : Text} (nonzero : 0 ∉ s) : cString s = s := by
  apply List.takeWhile_eq_self_iff.mpr
  intro c among
  have other : c ≠ 0 := fun zero => nonzero (zero ▸ among)
  simpa using other

theorem two_le_clampInt {n : Nat} (two : 2 ≤ n) : 2 ≤ clampInt n := by
  unfold clampInt intMax
  split_ifs <;> omega

theorem clampInt_le (n : Nat) : clampInt n ≤ n := by
  unfold clampInt
  split_ifs <;> omega

theorem iniReaderString_nil (num : Nat) : iniReaderString num [] = none := by simp [iniReaderString]

theorem iniReaderString_more {num : Nat} {s : Text} (two : 2 ≤ num) (more : s ≠ []) :
    iniReaderString num s = some (readChars (num - 1) s) := by
  rw [iniReaderString, if_neg]
  rintro (none | less)
  · exact more none
  · omega

/-- The reads from a place inside a line: they deliver the line, or the growth that its buffer needs is
refused. -/
def ReadsLine (realloc : Nat → Bool) (fuel : Nat) : Prop :=
  ∀ (rounds maxLine : Nat) (line s : Text), 0 ∉ s → s ≠ [] → newline ∉ line → line.length + 2 ≤ maxLine →
    (readChars (clampInt (maxLine - line.length) - 1) s).2.length < fuel →
    line.length + (firstLine s).1.length + 2 ≤ maxLine + rounds →
    readOn realloc fuel maxLine (clampInt (maxLine - line.length))
        (readChars (clampInt (maxLine - line.length) - 1) s).1.length
        (line ++ (readChars (clampInt (maxLine - line.length) - 1) s).1)
        (readChars (clampInt (maxLine - line.length) - 1) s).2 =
      some ((roomFor realloc (line ++ (firstLine s).1) rounds maxLine).map fun size =>
        (size, line ++ (firstLine s).1, (firstLine s).2))

theorem not_fits_of_tight {maxLine : Nat} {line : Text} (plain : newline ∉ line) (tight : maxLine - line.length < 2)
    (s : Text) : ¬ Fits maxLine (line ++ (firstLine s).1) := by
  have not_last : line.getLast? ≠ some newline := fun last => plain (List.mem_of_getLast? last)
  rw [Fits, List.length_append]
  cases tail : (firstLine s).1 with
  | nil =>
      rw [List.append_nil, if_neg not_last]
      simp only [List.length_nil]
      omega
  | cons c tail =>
      simp only [List.length_cons]
      split_ifs <;> omega

/-- The read after the one that filled its room: the line goes on, or the text has ended. -/
theorem ReadsLine.next {realloc : Nat → Bool} {fuel size rounds : Nat} {line s : Text} (reads : ReadsLine realloc fuel)
    (nonzero : 0 ∉ s) (plain : newline ∉ line) (enough : s.length ≤ fuel) (room : line.length + 2 ≤ size)
    (enough' : line.length + (firstLine s).1.length + 2 ≤ size + rounds) :
    ((iniReaderString (clampInt (size - line.length)) s).elim (some (some (size, line, s))) fun more =>
      readOn realloc fuel size (clampInt (size - line.length)) (cString more.1).length (line ++ cString more.1)
        more.2) =
      some ((roomFor realloc (line ++ (firstLine s).1) rounds size).map fun size =>
        (size, line ++ (firstLine s).1, (firstLine s).2)) := by
  by_cases drained : s = []
  · subst drained
    have fits : Fits size (line ++ (firstLine []).1) := by
      rw [firstLine, List.append_nil, Fits, if_neg fun last => plain (List.mem_of_getLast? last)]
      omega
    rw [iniReaderString_nil, roomFor_of_fits fits, firstLine, List.append_nil]
    rfl
  · have two := two_le_clampInt (n := size - line.length) (by omega)
    have split := readChars_append (clampInt (size - line.length) - 1) s
    have whole : cString (readChars (clampInt (size - line.length) - 1) s).1 =
        (readChars (clampInt (size - line.length) - 1) s).1 :=
      cString_of_nonzero fun among => nonzero (split ▸ List.mem_append_left _ among)
    have shorter : (readChars (clampInt (size - line.length) - 1) s).2.length < fuel := by
      have lengths := congrArg List.length split
      have some_read := List.length_pos_of_ne_nil (readChars_ne_nil
        (n := clampInt (size - line.length) - 1) (by omega) drained)
      rw [List.length_append] at lengths
      omega
    rw [iniReaderString_more two drained]
    change readOn _ _ _ _ (cString _).length (_ ++ cString _) _ = _
    rw [whole]
    exact reads rounds size line s nonzero drained plain room shorter enough'

theorem readOn_spec (realloc : Nat → Bool) (fuel : Nat) : ReadsLine realloc fuel := by
  induction fuel with
  | zero =>
      intro rounds maxLine line s nonzero more plain room enough
      cases enough
  | succ fuel ih =>
      intro rounds maxLine line s nonzero more plain room enough enough'
      have two := two_le_clampInt (n := maxLine - line.length) (by omega)
      have le := clampInt_le (maxLine - line.length)
      generalize clampInt (maxLine - line.length) = readerSize at two le enough ⊢
      have some_read := readChars_ne_nil (show 0 < readerSize - 1 by omega) more
      have split := readChars_append (readerSize - 1) s
      rw [readOn]
      rcases readChars_spec (readerSize - 1) s with ⟨last, short, whole⟩ | ⟨part_plain, part, size⟩
      · -- the read ends with the newline
        have last' : (line ++ (readChars (readerSize - 1) s).1).getLast? = some newline := by
          rw [List.getLast?_append_of_ne_nil _ some_read]
          exact last
        rw [if_neg (fun goes => goes.2 last'), whole]
        have fits : Fits maxLine (line ++ (readChars (readerSize - 1) s).1) := by
          rw [Fits, if_pos last', List.length_append]
          omega
        rw [roomFor_of_fits fits]
        rfl
      · have plain' : newline ∉ line ++ (readChars (readerSize - 1) s).1 := by
          rw [List.mem_append, not_or]
          exact ⟨plain, part_plain⟩
        have not_last : (line ++ (readChars (readerSize - 1) s).1).getLast? ≠ some newline :=
          fun last => plain' (List.mem_of_getLast? last)
        rcases size with filled | ⟨less, drained⟩
        · -- the read fills its room, and the line goes on or the text ends
          rw [part]
          generalize (readChars (readerSize - 1) s).1 = read at some_read split plain' not_last filled part ⊢
          generalize (readChars (readerSize - 1) s).2 = s' at split part enough ⊢
          have length : (line ++ read).length = line.length + (readerSize - 1) := by
            rw [List.length_append, filled]
          have nonzero' : 0 ∉ s' := fun among => nonzero (split ▸ List.mem_append_right _ among)
          have total : (firstLine s).1.length = readerSize - 1 + (firstLine s').1.length := by
            rw [part, List.length_append, filled]
          have onward (size rounds : Nat) := @ReadsLine.next realloc fuel size rounds (line ++ read) s' ih nonzero'
            plain' (Nat.le_of_lt_succ enough)
          rw [if_pos ⟨filled, not_last⟩, growLine, ← List.append_assoc]
          by_cases tight : maxLine - (line ++ read).length < 2
          · cases rounds with
            | zero => omega
            | succ rounds =>
                rw [if_pos tight, roomFor, if_neg (not_fits_of_tight plain' tight s')]
                split_ifs with refused
                · rfl
                · dsimp only
                  refine Eq.trans ?_ (onward (maxLine * 2) rounds (by omega) (by omega))
                  cases iniReaderString (clampInt (maxLine * 2 - (line ++ read).length)) s' <;> rfl
          · rw [if_neg tight]
            dsimp only
            refine Eq.trans ?_ (onward maxLine rounds (by omega) (by omega))
            cases iniReaderString (clampInt (maxLine - (line ++ read).length)) s' <;> rfl
        · -- the text ends with the read
          rw [if_neg (fun goes => by omega)]
          rw [drained] at part
          have whole : (firstLine s).1 = (readChars (readerSize - 1) s).1 := by
            rw [part]
            exact List.append_nil _
          have fits : Fits maxLine (line ++ (firstLine s).1) := by
            rw [whole, Fits, if_neg not_last, List.length_append]
            omega
          rw [roomFor_of_fits fits, whole, part, drained]
          rfl

theorem lineno_fail (s : ParseState σ) : s.fail.lineno = s.lineno := by
  unfold ParseState.fail
  split_ifs <;> rfl

theorem lineno_sectionLine (s : ParseState σ) (start : Text) : (sectionLine s start).lineno = s.lineno := by
  unfold sectionLine
  split
  · split_ifs
    · rfl
    · exact lineno_fail s
  · exact lineno_fail s

theorem lineno_entryLine (handler : Handler σ) (s : ParseState σ) (start : Text) :
    (entryLine handler s start).lineno = s.lineno := by
  unfold entryLine
  split
  · split_ifs
    · dsimp only
      split_ifs
      · rfl
      · exact lineno_fail _
    · exact lineno_fail s
  · exact lineno_fail s

theorem lineno_iniLine (handler : Handler σ) (s : ParseState σ) (line : Text) :
    (iniLine handler s line).lineno = s.lineno := by
  rw [iniLine, unmarkedLine]
  split
  · rfl
  · split_ifs
    · rfl
    · exact lineno_sectionLine s _
    · exact lineno_entryLine handler s _

theorem iniLoop_lines {realloc : Nat → Bool} {handler : Handler σ} {fuel maxLine : Nat} {stream : Text}
    (nonzero : 0 ∉ stream) (two : 2 ≤ maxLine) (enough : stream.length < fuel) {s : ParseState σ}
    (few : s.lineno + (lines stream).length ≤ intMax) :
    iniLoop realloc handler fuel maxLine stream s =
      some (byLines realloc handler maxLine (lines stream) s) := by
  induction fuel generalizing maxLine stream s with
  | zero => omega
  | succ fuel ih =>
      rw [iniLoop]
      by_cases drained : stream = []
      · subst drained
        rw [iniReaderString_nil]
        rfl
      · rw [lines_eq drained, List.length_cons] at few
        rw [iniReaderString_more (two_le_clampInt two) drained, lines_eq drained, byLines]
        have whole : cString (readChars (clampInt maxLine - 1) stream).1 =
            (readChars (clampInt maxLine - 1) stream).1 := by
          apply cString_of_nonzero
          intro among
          apply nonzero
          rw [← readChars_append (clampInt maxLine - 1) stream]
          exact List.mem_append_left _ among
        have enough : (readChars (clampInt (maxLine - ([] : Text).length) - 1) stream).2.length <
            (readChars (clampInt maxLine - 1) stream).2.length + 2 := by simp
        have enough' : ([] : Text).length + (firstLine stream).1.length + 2 ≤
            maxLine + ((firstLine stream).1.length + 1) := by
          rw [List.length_nil]
          omega
        have spec := readOn_spec realloc _ _ _ _ _ nonzero drained (by simp) two enough enough'
        rw [List.length_nil, List.nil_append, List.nil_append, Nat.sub_zero] at spec
        simp only [whole, spec, Option.bind_eq_bind, Option.bind_some]
        cases room : roomFor realloc (firstLine stream).1 ((firstLine stream).1.length + 1) maxLine with
        | none => rfl
        | some size =>
            obtain ⟨fits, grown⟩ := roomFor_fits room
            have complete : ¬ ((firstLine stream).1.length = size - 1 ∧
                (firstLine stream).1.getLast? ≠ some newline) := by
              rintro ⟨full, not_last⟩
              rw [Fits, if_neg not_last] at fits
              omega
            have append := firstLine_append stream
            have some_line : (firstLine stream).1 ≠ [] := by
              cases stream with
              | nil => exact absurd rfl drained
              | cons c stream =>
                  rw [firstLine]
                  split_ifs <;> exact List.cons_ne_nil _ _
            have shorter : (firstLine stream).2.length < fuel := by
              have positive := List.length_pos_of_ne_nil some_line
              have length := congrArg List.length append
              rw [List.length_append] at length
              omega
            have next : s.nextLine = some { s with lineno := s.lineno + 1 } := if_pos (by omega)
            simp only [Option.map_some, next, Option.bind_some, complete, if_false]
            refine ih (fun among => nonzero (append ▸ List.mem_append_right _ among)) (by omega) shorter ?_
            rw [lineno_iniLine]
            change s.lineno + 1 + (lines (firstLine stream).2).length ≤ intMax
            omega

/-- `ini_parse_string` reads the lines of its text one after another. -/
theorem iniParseString_lines (malloc : Bool) (realloc : Nat → Bool) (handler : Handler σ) (user : σ)
    {string : Text} (nonzero : 0 ∉ string) (few : (lines string).length < 2 ^ 31) :
    iniParseString malloc realloc handler user string =
      some (if malloc then byLines realloc handler initialAlloc (lines string) ⟨user, [], 0, 0⟩
        else (user, -2)) := by
  rw [iniParseString]
  split_ifs
  · apply iniLoop_lines nonzero (by decide) (Nat.lt_succ_self _)
    rw [Nat.zero_add]
    exact Nat.le_pred_of_lt few
  · rfl

/-- The lines `[a]` and `k=v`, the second without its newline. -/
theorem iniParseString_lines_entry :
    iniParseString true (fun _ => true) (fun calls of name value => ((of, name, value) :: calls, true)) []
        [91, 97, 93, 10, 107, 61, 118] =
      some ([([97], [107], [118])], 0) := by
  rw [iniParseString_lines true (fun _ => true) _ [] (by decide) (by decide)]
  decide

end Yafsml.Ini
