import Mathlib.Data.List.Chain
import Yafsml.Ini.Parse

/-!
# The INI grammar

The lines that an INI file is made of, with the blanks and the comments they may have, and what the parser
makes of them.
-/

namespace Yafsml.Ini

/-! ## Text -/

def Blank (s : Text) : Prop := ∀ c ∈ s, isSpace c = true

def Uncommented (s : Text) : Prop := s.IsChain fun a b => ¬ (isSpace a = true ∧ b = inlineComment)

structure Trimmed (s : Text) : Prop where
  head : ∀ c ∈ s.head?, isSpace c = false
  last : ∀ c ∈ s.getLast?, isSpace c = false

/-- What may follow a value: blanks, or blanks and a comment. -/
inductive Tail
  | blank (blanks : Text)
  | comment (blanks text : Text)

def Tail.render : Tail → Text
  | blank blanks => blanks
  | comment blanks text => blanks ++ inlineComment :: text

def Tail.Valid : Tail → Prop
  | blank blanks => Blank blanks
  | comment blanks _ => Blank blanks ∧ blanks ≠ []

inductive DocLine
  | blank (blanks : Text)
  | comment (indent : Text) (sign : UInt8) (text : Text)
  | header (indent name rest : Text)
  | entry (indent name before : Text) (sign : UInt8) (after value : Text) (tail : Tail)

namespace DocLine

def render : DocLine → Text
  | blank blanks => blanks
  | comment indent sign text => indent ++ sign :: text
  | header indent name rest => indent ++ openBracket :: name ++ closeBracket :: rest
  | entry indent name before sign after value tail =>
      indent ++ name ++ before ++ sign :: (after ++ value ++ tail.render)

/-- The first character of a name that does not make its line another kind of line. -/
def NameStart (c : UInt8) : Prop := c ∉ startComments ∧ c ≠ openBracket

def Valid : DocLine → Prop
  | blank blanks => Blank blanks
  | comment indent sign _ => Blank indent ∧ sign ∈ startComments
  | header indent name _ => Blank indent ∧ closeBracket ∉ name ∧ Uncommented name
  | entry indent name before sign after value tail =>
      Blank indent ∧ Blank before ∧ Blank after ∧ tail.Valid ∧ (sign = equals ∨ sign = colon) ∧
        Trimmed name ∧ Uncommented name ∧ equals ∉ name ∧ colon ∉ name ∧ (∀ c ∈ name.head?, NameStart c) ∧
        Trimmed value ∧ Uncommented (after ++ value)

def read {σ : Type} (handler : Handler σ) (s : ParseState σ) : DocLine → ParseState σ
  | blank _ => s
  | comment _ _ _ => s
  | header _ name _ => { s with section_ := name.take (maxSection - 1) }
  | entry _ name _ _ _ value _ =>
      let (user, ok) := handler s.user s.section_ name value
      if ok then { s with user } else ParseState.fail { s with user }

end DocLine

/-! ## Trimming -/

theorem rstrip_append_blank {s : Text} {blanks : Text} (blank : Blank blanks) :
    iniRstrip (s ++ blanks) = iniRstrip s := by
  induction blanks using List.reverseRecOn with
  | nil => rw [List.append_nil]
  | append_singleton blanks c ih =>
      rw [← List.append_assoc, iniRstrip, List.rdropWhile_concat_pos _ _ _ (blank c (by simp))]
      exact ih fun d among => blank d (by simp [among])

theorem rstrip_append_solid (s rest : Text) {c : UInt8} (solid : isSpace c = false) :
    iniRstrip (s ++ c :: rest) = s ++ c :: iniRstrip rest := by
  induction rest using List.reverseRecOn with
  | nil => exact List.rdropWhile_concat_neg _ _ _ (by simp [solid])
  | append_singleton rest d ih =>
      have shape : s ++ c :: (rest ++ [d]) = (s ++ c :: rest) ++ [d] := by simp
      by_cases space : isSpace d = true
      · have blank : Blank [d] := fun e among => by rw [List.mem_singleton.mp among]; exact space
        rw [shape, rstrip_append_blank blank, rstrip_append_blank blank, ih]
      · rw [shape]
        unfold iniRstrip
        rw [List.rdropWhile_concat_neg _ _ _ space, List.rdropWhile_concat_neg _ _ _ space]
        simp

theorem rstrip_trimmed {s : Text} (trimmed : Trimmed s) : iniRstrip s = s := by
  rw [iniRstrip, List.rdropWhile_eq_self_iff]
  intro some_text
  rw [trimmed.last _ (List.getLast?_eq_some_getLast some_text)]
  decide

theorem lskip_blank_append {blanks : Text} (blank : Blank blanks) (s : Text) :
    iniLskip (blanks ++ s) = iniLskip s := by
  induction blanks with
  | nil => rfl
  | cons c blanks ih =>
      rw [iniLskip, List.cons_append, List.dropWhile_cons_of_pos (blank c (.head _))]
      exact ih fun d among => blank d (.tail _ among)

theorem lskip_solid {c : UInt8} (solid : isSpace c = false) (s : Text) : iniLskip (c :: s) = c :: s :=
  List.dropWhile_cons_of_neg (by simp [solid])

theorem lskip_trimmed {s rest : Text} (trimmed : Trimmed s) (some_text : s ≠ []) :
    iniLskip (s ++ rest) = s ++ rest := by
  cases s with
  | nil => exact absurd rfl some_text
  | cons c s => exact lskip_solid (trimmed.head c rfl) _

theorem blank_rstrip {s : Text} (blank : Blank s) : iniRstrip s = [] := by
  have all := rstrip_append_blank (s := []) blank
  rwa [List.nil_append] at all

theorem blank_lskip {s : Text} (blank : Blank s) : iniLskip s = [] := by
  have all := lskip_blank_append blank []
  rwa [List.append_nil] at all

/-! ## Searching -/

def lastSpace (wasSpace : Bool) (s : Text) : Bool := (s.getLast?.map isSpace).getD wasSpace

theorem find_append {chars s rest : Text} {wasSpace : Bool} (free : ∀ c ∈ s, c ∉ chars)
    (plain : Uncommented s) (start : wasSpace = true → s.head? ≠ some inlineComment) :
    iniFindCharsOrComment chars wasSpace (s ++ rest) =
      (s ++ (iniFindCharsOrComment chars (lastSpace wasSpace s) rest).1,
        (iniFindCharsOrComment chars (lastSpace wasSpace s) rest).2) := by
  induction s generalizing wasSpace with
  | nil => rfl
  | cons c s ih =>
      have pass : (chars.contains c || wasSpace && c == inlineComment) = false := by
        have other := free c (.head _)
        cases wasSpace with
        | false => simpa using other
        | true =>
            have not_comment : c ≠ inlineComment := by simpa using start rfl
            simp [other, not_comment]
      obtain ⟨next, plain⟩ := List.isChain_cons.mp plain
      have same : lastSpace wasSpace (c :: s) = lastSpace (isSpace c) s := by
        cases s with
        | nil => rfl
        | cons d s =>
            rw [lastSpace, lastSpace, List.getLast?_cons_cons, List.getLast?_eq_some_getLast (List.cons_ne_nil d s)]
            rfl
      rw [List.cons_append, iniFindCharsOrComment, pass, same,
        ih (fun d among => free d (.tail _ among)) plain]
      · rfl
      · intro space head
        exact next inlineComment head ⟨space, rfl⟩

theorem find_stop {chars : Text} {wasSpace : Bool} {c : UInt8} {rest : Text}
    (stops : (chars.contains c || wasSpace && c == inlineComment) = true) :
    iniFindCharsOrComment chars wasSpace (c :: rest) = ([], c :: rest) := by
  rw [iniFindCharsOrComment, if_pos stops]

theorem uncommented_of_absent {s : Text} (absent : inlineComment ∉ s) : Uncommented s := by
  induction s with
  | nil => exact List.isChain_nil
  | cons c s ih =>
      obtain ⟨_, absent⟩ := not_or.mp (mt List.mem_cons.mpr absent)
      refine List.isChain_cons.mpr ⟨fun d head => ?_, ih absent⟩
      rintro ⟨_, rfl⟩
      exact absent (List.mem_of_mem_head? head)

theorem blank_apart {s : Text} (blank : Blank s) {c : UInt8} (solid : isSpace c = false) : c ∉ s := by
  intro among
  rw [blank c among] at solid
  cases solid

theorem uncommented_append_blank {s blanks : Text} (plain : Uncommented s) (blank : Blank blanks) :
    Uncommented (s ++ blanks) := by
  have absent : inlineComment ∉ blanks := blank_apart blank (by decide)
  refine List.IsChain.append plain (uncommented_of_absent absent) fun c _ d head => ?_
  rintro ⟨_, rfl⟩
  exact absent (List.mem_of_mem_head? head)

/-! ## One line -/

theorem value_read {after value : Text} {tail : Tail} (blank : Blank after) (valid : tail.Valid)
    (trimmed : Trimmed value) (plain : Uncommented (after ++ value)) :
    iniRstrip (iniLskip (iniFindCharsOrComment [] false
      (iniRstrip (after ++ value ++ tail.render ++ [newline]))).1) = value := by
  have ending : Blank [newline] := by
    intro c among
    rw [List.mem_singleton.mp among]
    decide
  -- what the search for a comment leaves has blanks around the value
  have around {blanks : Text} (blank' : Blank blanks) :
      iniRstrip (iniLskip (after ++ value ++ blanks)) = value := by
    rw [List.append_assoc, lskip_blank_append blank]
    by_cases none : value = []
    · rw [none, List.nil_append, blank_lskip blank']
      rfl
    · rw [lskip_trimmed trimmed none, rstrip_append_blank blank', rstrip_trimmed trimmed]
  have whole {s : Text} (plain : Uncommented s) : (iniFindCharsOrComment [] false s).1 = s := by
    have found := @find_append [] s [] false (fun _ _ => by simp) plain (by simp)
    rw [List.append_nil] at found
    rw [found]
    exact List.append_nil s
  cases tail with
  | blank blanks =>
      rw [Tail.render, rstrip_append_blank ending, rstrip_append_blank valid]
      by_cases none : value = []
      · rw [none, List.append_nil, blank_rstrip blank]
        rfl
      · have solid_end : iniRstrip (after ++ value) = after ++ value := by
          rw [iniRstrip, List.rdropWhile_eq_self_iff]
          intro some_text
          rw [List.getLast_append_of_ne_nil _ none, trimmed.last _ (List.getLast?_eq_some_getLast none)]
          decide
        have bare := around (show Blank [] by simp [Blank])
        rw [List.append_nil] at bare
        rw [solid_end, whole plain, bare]
  | comment blanks text =>
      obtain ⟨blank', some_blank⟩ := valid
      have shape : after ++ value ++ (Tail.comment blanks text).render ++ [newline] =
          (after ++ value ++ blanks) ++ inlineComment :: (text ++ [newline]) := by
        simp [Tail.render]
      have last_blank : lastSpace false (after ++ value ++ blanks) = true := by
        rw [lastSpace, List.getLast?_append_of_ne_nil _ some_blank,
          List.getLast?_eq_some_getLast some_blank]
        exact blank' _ (List.getLast_mem some_blank)
      rw [shape, rstrip_append_solid _ _ (by decide : isSpace inlineComment = false),
        find_append (by simp) (uncommented_append_blank plain blank') (by simp), last_blank,
        find_stop (by decide), List.append_nil]
      exact around blank'

theorem unmarkedLine_render {σ : Type} (handler : Handler σ) (s : ParseState σ) {line : DocLine}
    (valid : line.Valid) :
    unmarkedLine handler s (line.render ++ [newline]) = line.read handler s := by
  have ending : Blank [newline] := by
    intro c among
    rw [List.mem_singleton.mp among]
    decide
  rw [unmarkedLine]
  cases line with
  | blank blanks =>
      have all : Blank (blanks ++ [newline]) := by
        intro c among
        rcases List.mem_append.mp among with among | among
        · exact valid c among
        · exact ending c among
      rw [DocLine.render, blank_lskip all]
      rfl
  | comment indent sign text =>
      obtain ⟨blank, sign_of⟩ := valid
      have solid : isSpace sign = false := by
        rcases List.mem_cons.mp sign_of with rfl | sign_of
        · decide
        · rw [List.mem_singleton.mp sign_of]
          decide
      have shape : (DocLine.comment indent sign text).render ++ [newline] =
          indent ++ ([] ++ sign :: (text ++ [newline])) := by
        simp [DocLine.render]
      rw [shape, lskip_blank_append blank, List.nil_append, lskip_solid solid]
      have stripped := rstrip_append_solid [] (text ++ [newline]) solid
      rw [List.nil_append, List.nil_append] at stripped
      rw [stripped]
      exact if_pos (List.contains_iff_mem.mpr sign_of)
  | header indent name rest =>
      obtain ⟨blank, unclosed, plain⟩ := valid
      have shape : (DocLine.header indent name rest).render ++ [newline] =
          indent ++ openBracket :: (name ++ closeBracket :: (rest ++ [newline])) := by
        simp [DocLine.render]
      have stripped : iniRstrip (openBracket :: (name ++ closeBracket :: (rest ++ [newline]))) =
          openBracket :: (name ++ closeBracket :: iniRstrip (rest ++ [newline])) :=
        rstrip_append_solid (openBracket :: name) (rest ++ [newline]) (by decide)
      have found : iniFindCharsOrComment [closeBracket] false
          (name ++ closeBracket :: iniRstrip (rest ++ [newline])) =
          (name, closeBracket :: iniRstrip (rest ++ [newline])) := by
        rw [find_append (fun c among => ?_) plain (by simp), find_stop (by rfl), List.append_nil]
        rw [List.mem_singleton]
        rintro rfl
        exact unclosed among
      rw [shape, lskip_blank_append blank, lskip_solid (by decide), stripped]
      change sectionLine s (name ++ closeBracket :: iniRstrip (rest ++ [newline])) = _
      rw [sectionLine, found]
      rfl
  | entry indent name before sign after value tail =>
      obtain ⟨blank, blank_before, blank_after, tail_valid, sign_of, name_trimmed, name_plain, no_equals, no_colon,
        name_start, value_trimmed, value_plain⟩ := valid
      have solid : isSpace sign = false := by
        rcases sign_of with rfl | rfl <;> decide
      generalize behind : after ++ value ++ tail.render ++ [newline] = more
      have shape : (DocLine.entry indent name before sign after value tail).render ++ [newline] =
          indent ++ (name ++ before ++ sign :: more) := by
        simp [DocLine.render, ← behind]
      -- what is left of the name and the blanks behind it
      obtain ⟨body, skipped, body_plain, body_name, body_free, body_start⟩ : ∃ body,
          iniLskip (name ++ before ++ sign :: more) = body ++ sign :: more ∧ Uncommented body ∧
            iniRstrip body = name ∧ (∀ c ∈ body, c ∉ [equals, colon]) ∧
            ∀ c ∈ body.head?, DocLine.NameStart c := by
        have name_free : ∀ c ∈ name, c ∉ [equals, colon] := by
          intro c among sign
          rcases List.mem_cons.mp sign with rfl | sign
          · exact no_equals among
          · rw [List.mem_singleton.mp sign] at among
            exact no_colon among
        by_cases none : name = []
        · subst none
          refine ⟨[], ?_, List.isChain_nil, rfl, by simp, by simp⟩
          rw [List.nil_append, List.nil_append, lskip_blank_append blank_before, lskip_solid solid]
        · refine ⟨name ++ before, ?_, uncommented_append_blank name_plain blank_before,
            by rw [rstrip_append_blank blank_before, rstrip_trimmed name_trimmed], ?_, ?_⟩
          · rw [List.append_assoc, lskip_trimmed name_trimmed none]
          · intro c among
            rcases List.mem_append.mp among with among | among
            · exact name_free c among
            · intro sign
              have space := blank_before c among
              rcases List.mem_cons.mp sign with rfl | sign
              · exact absurd space (by decide)
              · rw [List.mem_singleton.mp sign] at space
                exact absurd space (by decide)
          · rw [List.head?_append_of_ne_nil _ none]
            exact name_start
      have sign_contains : [equals, colon].contains sign = true := by
        rcases sign_of with rfl | rfl <;> decide
      have found : iniFindCharsOrComment [equals, colon] false (body ++ sign :: iniRstrip more) =
          (body, sign :: iniRstrip more) := by
        rw [find_append body_free body_plain (by simp), find_stop (by rw [sign_contains]; rfl),
          List.append_nil]
      have entry : entryLine handler s (body ++ sign :: iniRstrip more) =
          (DocLine.entry indent name before sign after value tail).read handler s := by
        have value_eq := value_read blank_after tail_valid value_trimmed value_plain
        rw [behind] at value_eq
        rw [entryLine, found]
        simp only [body_name, value_eq, DocLine.read]
        exact if_pos sign_of
      rw [shape, lskip_blank_append blank, skipped, rstrip_append_solid _ _ solid]
      -- its first character makes the line an entry
      obtain ⟨c, start, first, starts⟩ : ∃ c start, body ++ sign :: iniRstrip more = c :: start ∧
          DocLine.NameStart c := by
        cases body with
        | nil =>
            refine ⟨sign, iniRstrip more, rfl, ?_⟩
            rcases sign_of with rfl | rfl <;> exact ⟨by decide, by decide⟩
        | cons c body => exact ⟨c, body ++ sign :: iniRstrip more, rfl, body_start c rfl⟩
      rw [first] at entry ⊢
      have no_comment : startComments.contains c = false := by simpa using starts.1
      simp only [no_comment, Bool.false_eq_true, if_false, if_neg starts.2]
      exact entry

theorem unmarkedLine_newline {σ : Type} (handler : Handler σ) (s : ParseState σ) (line : Text) :
    unmarkedLine handler s (line ++ [newline]) = unmarkedLine handler s line := by
  have same : iniRstrip (iniLskip (line ++ [newline])) = iniRstrip (iniLskip line) := by
    induction line with
    | nil => decide
    | cons c line ih =>
        by_cases space : isSpace c = true
        · have skip (s : Text) : iniLskip (c :: s) = iniLskip s := List.dropWhile_cons_of_pos space
          rw [List.cons_append, skip, skip, ih]
        · have solid : isSpace c = false := by simpa using space
          rw [List.cons_append, lskip_solid solid, lskip_solid solid, ← List.cons_append,
            rstrip_append_blank (s := c :: line) (by simp [Blank, newline, isSpace])]
  rw [unmarkedLine, unmarkedLine, same]

/-! ## A file -/

structure Document where
  marked : Bool
  lines : List DocLine
  ended : Bool

def renderLines (ended : Bool) : List DocLine → Text
  | [] => []
  | [line] => line.render ++ if ended then [newline] else []
  | line :: next :: rest => line.render ++ [newline] ++ renderLines ended (next :: rest)

namespace Document

variable (document : Document)

/-- The text of a file: it may start with a byte order mark, and its last line may lack its newline. -/
def render : Text :=
  (if document.marked then byteOrderMark else []) ++ renderLines document.ended document.lines

structure Valid : Prop where
  lines : ∀ line ∈ document.lines, line.Valid
  text : ∀ line ∈ document.lines, newline ∉ line.render ∧ 0 ∉ line.render
  mark : document.marked = false → ¬ byteOrderMark <+: document.render
  last : document.ended = false → ∀ line ∈ document.lines.getLast?, line.render ≠ []

/-- The lines one after another, each under its number. -/
def read {σ : Type} (handler : Handler σ) (user : σ) : ParseState σ :=
  document.lines.foldl (fun s line => line.read handler { s with lineno := s.lineno + 1 }) ⟨user, [], 0, 0⟩

end Document

section Fold

variable {σ : Type} (handler : Handler σ)

def foldLines (s : ParseState σ) (text : Text) : ParseState σ :=
  (lines text).foldl (fun s line => iniLine handler { s with lineno := s.lineno + 1 } line) s

theorem roomFor_memory {realloc : Nat → Bool} (memory : ∀ n, realloc n = true) {line : Text}
    (short : line.length < 2 ^ 31) {fuel maxLine : Nat} (positive : 0 < maxLine)
    (enough : line.length + 2 ≤ maxLine + fuel) : ∃ size, roomFor realloc line fuel maxLine = some size := by
  induction fuel generalizing maxLine with
  | zero =>
      have fits : Fits maxLine line := by
        unfold Fits
        split_ifs <;> omega
      exact ⟨_, roomFor_of_fits fits realloc 0⟩
  | succ fuel ih =>
      rw [roomFor]
      by_cases fits : Fits maxLine line
      · exact ⟨maxLine, if_pos fits⟩
      · have small : ¬ (sizeMax / 2 < maxLine) := by
          have tight : maxLine ≤ line.length + 1 := by
            unfold Fits at fits
            split_ifs at fits <;> omega
          rw [sizeMax]
          omega
        rw [if_neg fits, memory, decide_eq_false small]
        exact ih (by omega) (by omega)

theorem byLines_memory {realloc : Nat → Bool} (memory : ∀ n, realloc n = true) {all : List Text}
    (short : ∀ line ∈ all, line.length < 2 ^ 31) {maxLine : Nat} (positive : 0 < maxLine) (s : ParseState σ) :
    byLines realloc handler maxLine all s =
      (all.foldl (fun s line => iniLine handler { s with lineno := s.lineno + 1 } line) s).result := by
  induction all generalizing maxLine s with
  | nil => rfl
  | cons line all ih =>
      obtain ⟨size, room⟩ := roomFor_memory memory (short line (.head _)) positive
        (show line.length + 2 ≤ maxLine + (line.length + 1) by omega)
      rw [byLines, room]
      exact ih (fun line among => short line (.tail _ among)) (by have := (roomFor_fits room).2; omega) _

theorem lines_append {x : Text} (plain : newline ∉ x) (t : Text) :
    lines (x ++ newline :: t) = (x ++ [newline]) :: lines t := by
  induction x with
  | nil => rw [List.nil_append, lines, if_pos rfl, List.nil_append]
  | cons c x ih =>
      obtain ⟨other, plain⟩ := not_or.mp (mt List.mem_cons.mpr plain)
      rw [List.cons_append, lines, if_neg (Ne.symm other), ih plain]
      rfl

theorem lines_last {x : Text} (plain : newline ∉ x) (some_text : x ≠ []) : lines x = [x] := by
  induction x with
  | nil => exact absurd rfl some_text
  | cons c x ih =>
      obtain ⟨other, plain⟩ := not_or.mp (mt List.mem_cons.mpr plain)
      rw [lines, if_neg (Ne.symm other)]
      cases x with
      | nil => rfl
      | cons d x => rw [ih plain (List.cons_ne_nil d x)]

theorem lineno_read (s : ParseState σ) (line : DocLine) : (line.read handler s).lineno = s.lineno := by
  cases line with
  | blank _ => rfl
  | comment _ _ _ => rfl
  | header _ _ _ => rfl
  | entry indent name before sign after value tail =>
      simp only [DocLine.read]
      split_ifs
      · rfl
      · exact lineno_fail _

theorem lines_renderLines {mark : Text} (plain_mark : newline ∉ mark) (ended : Bool) {line : DocLine}
    (rest : List DocLine) (valid : line.Valid) (plain : newline ∉ line.render)
    (last : ended = false → ∀ final ∈ (line :: rest).getLast?, final.render ≠ []) :
    ∃ text, lines (mark ++ renderLines ended (line :: rest)) =
        (mark ++ text) :: lines (renderLines ended rest) ∧
      text <+: renderLines ended (line :: rest) ∧
      ∀ s : ParseState σ, unmarkedLine handler s text = line.read handler s := by
  have marked (t : Text) : lines (mark ++ (line.render ++ newline :: t)) =
      (mark ++ (line.render ++ [newline])) :: lines t := by
    rw [← List.append_assoc, lines_append, List.append_assoc]
    rw [List.mem_append, not_or]
    exact ⟨plain_mark, plain⟩
  cases rest with
  | cons next rest =>
      refine ⟨line.render ++ [newline], ?_, List.prefix_append _ _, fun s => unmarkedLine_render handler s valid⟩
      rw [renderLines, List.append_assoc line.render]
      exact marked _
  | nil =>
      cases ended with
      | true =>
          refine ⟨line.render ++ [newline], ?_, List.prefix_rfl, fun s => unmarkedLine_render handler s valid⟩
          exact marked []
      | false =>
          have some_text := last rfl line rfl
          refine ⟨line.render, ?_, List.prefix_append _ _, fun s => ?_⟩
          · have bare : renderLines false [line] = line.render := List.append_nil _
            rw [bare]
            apply lines_last
            · rw [List.mem_append, not_or]
              exact ⟨plain_mark, plain⟩
            · simp [some_text]
          · rw [← unmarkedLine_newline, unmarkedLine_render handler s valid]

theorem foldLines_renderLines {ended : Bool} {all : List DocLine} (valid : ∀ line ∈ all, line.Valid)
    (plain : ∀ line ∈ all, newline ∉ line.render)
    (last : ended = false → ∀ line ∈ all.getLast?, line.render ≠ []) {s : ParseState σ} (later : 1 ≤ s.lineno) :
    foldLines handler s (renderLines ended all) =
      all.foldl (fun s line => line.read handler { s with lineno := s.lineno + 1 }) s := by
  induction all generalizing s with
  | nil => rfl
  | cons line rest ih =>
      obtain ⟨text, split, _, of_line⟩ := lines_renderLines handler List.not_mem_nil
        ended rest (valid line (.head _)) (plain line (.head _)) last
      rw [List.nil_append, List.nil_append] at split
      rw [foldLines, split, List.foldl_cons, List.foldl_cons, iniLine, if_neg, of_line]
      · refine ih (fun line among => valid line (.tail _ among)) (fun line among => plain line (.tail _ among))
          ?_ (by rw [lineno_read]; exact Nat.le_add_left 1 _)
        intro open_ line among
        cases rest with
        | nil => cases among
        | cons next rest => exact last open_ line (by rwa [List.getLast?_cons_cons])
      · rintro ⟨first, _⟩
        change s.lineno + 1 = 1 at first
        omega

end Fold

theorem length_lines_le (t : Text) : (lines t).length ≤ t.length := by
  induction t with
  | nil => exact le_rfl
  | cons c t ih =>
      rw [lines]
      split_ifs
      · exact Nat.succ_le_succ ih
      · cases rest : lines t with
        | nil => exact Nat.succ_le_succ (Nat.zero_le _)
        | cons first rest' =>
            rw [rest] at ih
            exact ih.trans (Nat.le_succ _)

theorem length_of_mem_lines {line t : Text} (among : line ∈ lines t) : line.length ≤ t.length := by
  induction t generalizing line with
  | nil => cases among
  | cons c t ih =>
      rw [lines] at among
      split_ifs at among
      · rcases List.mem_cons.mp among with rfl | among
        · exact Nat.succ_le_succ (Nat.zero_le _)
        · exact (ih among).trans (Nat.le_succ _)
      · cases rest : lines t with
        | nil =>
            rw [rest] at among
            rw [List.mem_singleton.mp among]
            exact Nat.succ_le_succ (Nat.zero_le _)
        | cons first rest' =>
            rw [rest] at among ih
            rcases List.mem_cons.mp among with rfl | among
            · exact Nat.succ_le_succ (ih (.head _))
            · exact (ih (.tail _ among)).trans (Nat.le_succ _)

theorem zero_notin_renderLines {ended : Bool} {all : List DocLine} (nonzero : ∀ line ∈ all, 0 ∉ line.render) :
    0 ∉ renderLines ended all := by
  have apart : (0 : UInt8) ≠ newline := by decide
  induction all with
  | nil => exact List.not_mem_nil
  | cons line rest ih =>
      have of_line := nonzero line (.head _)
      cases rest with
      | nil => cases ended <;> simp [renderLines, of_line, apart]
      | cons next rest =>
          have of_rest := ih fun line among => nonzero line (.tail _ among)
          simp [renderLines, of_line, of_rest, apart]

namespace Document

variable {σ : Type} (handler : Handler σ) (user : σ) {document : Document}

theorem foldLines_render (valid : document.Valid) :
    (foldLines handler ⟨user, [], 0, 0⟩ document.render).result = (document.read handler user).result := by
  have of_mark := valid.mark
  obtain ⟨marked, all, ended⟩ := document
  cases all with
  | nil => cases marked <;> rfl
  | cons line rest =>
      have plain_mark : newline ∉ if marked then byteOrderMark else [] := by
        cases marked <;> decide
      obtain ⟨text, split, start, of_line⟩ := lines_renderLines handler plain_mark
        ended rest (valid.lines line (.head _)) (valid.text line (.head _)).1 valid.last
      have first : iniLine handler ⟨user, [], 1, 0⟩ ((if marked then byteOrderMark else []) ++ text) =
          line.read handler ⟨user, [], 1, 0⟩ := by
        rw [iniLine]
        cases marked with
        | true =>
            rw [if_pos rfl, if_pos ⟨rfl, List.prefix_append _ _⟩]
            exact of_line _
        | false =>
            change unmarkedLine handler _ (if _ ∧ byteOrderMark <+: text then text.drop 3 else text) = _
            rw [if_neg, of_line]
            rintro ⟨_, mark⟩
            exact of_mark rfl (mark.trans start)
      rw [foldLines, render, split, List.foldl_cons, read, List.foldl_cons]
      change (foldLines handler (iniLine handler ⟨user, [], 1, 0⟩ _) (renderLines ended rest)).result = _
      rw [first, foldLines_renderLines handler (fun line among => valid.lines line (.tail _ among))
        (fun line among => (valid.text line (.tail _ among)).1)]
      · intro open_ line among
        cases rest with
        | nil => cases among
        | cons next rest => exact valid.last open_ line (by rwa [List.getLast?_cons_cons])
      · rw [lineno_read]

/-- A file of the format: the handler is called for its entries in their order, each with its section, and
the first line whose call fails is the result. -/
theorem iniParseString_render (valid : document.Valid) {realloc : Nat → Bool}
    (memory : ∀ n, realloc n = true) (short : document.render.length < 2 ^ 31) :
    iniParseString true realloc handler user document.render =
      some (document.read handler user).result := by
  have nonzero : 0 ∉ document.render := by
    rw [render, List.mem_append, not_or]
    refine ⟨?_, zero_notin_renderLines fun line among => (valid.text line among).2⟩
    cases document.marked <;> decide
  have few := (length_lines_le document.render).trans_lt short
  rw [iniParseString_lines true realloc handler user nonzero few, if_pos rfl,
    byLines_memory handler memory (fun line among => (length_of_mem_lines among).trans_lt short) (by decide)]
  exact congrArg some (foldLines_render handler user valid)

/-- The lines `[a]x` and `k = v ;c`. -/
def sample : Document :=
  { marked := false
    lines := [.header [] [97] [120], .entry [] [107] [32] equals [32] [118] (.comment [32] [99])]
    ended := true }

theorem valid_sample : sample.Valid := by
  have blank : Blank [32] := by simp [Blank, isSpace]
  have trimmed {c : UInt8} (solid : isSpace c = false) : Trimmed [c] := by
    constructor <;> simpa using solid
  refine ⟨?_, by decide, fun _ => by decide, fun ended => by cases ended⟩
  intro line among
  rcases List.mem_cons.mp among with rfl | among
  · exact ⟨by simp [Blank], by decide, by simp [Uncommented]⟩
  · rw [List.mem_singleton.mp among]
    refine ⟨by simp [Blank], blank, blank, ⟨blank, by simp⟩, .inl rfl, trimmed (by decide),
      by simp [Uncommented], by decide, by decide, ?_, trimmed (by decide), ?_⟩
    · simp [DocLine.NameStart, startComments, openBracket]
    · simp [Uncommented, inlineComment]

theorem iniParseString_render_sample :
    iniParseString true (fun _ => true) (fun calls of name value => ((of, name, value) :: calls, true)) []
        sample.render = some ([([97], [107], [118])], 0) :=
  iniParseString_render _ _ valid_sample (fun _ => rfl) (by decide)

end Document

end Yafsml.Ini
