import Yafsml.Steam.VdfPrint

/-! # A printed VDF text is read back -/

namespace Yafsml.Steam

variable {alloc : Nat → Bool} (plenty : ∀ k, alloc k = true)

/-- What follows a value is not a conditional, so that looking ahead changes nothing. -/
def Continues (rest : Text) : Prop :=
  ∀ n, (readToken (reading n rest)).conditional = false ∧ (readToken (reading n rest)).parser.error = false ∧
    (readToken (reading n rest)).parser.attempts = n

theorem is_quoted {token : Option Text} {conditional : Bool} {p : VdfParser} (c : UInt8) :
    (VdfRead.mk token true conditional p).is c = false := rfl

theorem is_openBrace {p : VdfParser} : (VdfRead.mk (some [openBrace]) false false p).is openBrace = true := rfl

theorem isNoValue_quoted {token : Text} {p : VdfParser} :
    (VdfRead.mk (some token) true false p).isNoValue = false := rfl

theorem isNoValue_openBrace {p : VdfParser} :
    (VdfRead.mk (some [openBrace]) false false p).isNoValue = false := rfl

section Steps

include plenty

variable {n m fuel depth : Nat} {b b' key value rest rest' : Text} {children block : List VdfObject}

theorem allocate_plenty : allocate alloc (reading n rest) = (true, reading (n + 1) rest) := by
  simp [allocate, plenty]

theorem newObject_plenty : newObject alloc (reading n rest) = (true, reading (n + 2) rest) := by
  simp only [newObject, allocate_plenty plenty]

theorem appendChild_plenty (child : VdfObject) :
    appendChild alloc true children child (reading n rest) = (children ++ [child], reading (n + 1) rest) := by
  simp [appendChild, allocate_plenty plenty]

theorem loadString_plenty (stored : storedValue value = value) (continues : Continues rest) :
    loadString alloc ⟨⟨some value, true, false, reading n rest⟩, true, children⟩ key
      = ⟨.string (some key) value, true, children, reading (n + 1) rest⟩ := by
  obtain ⟨plain, fine, same⟩ := continues (n + 1)
  simp only [loadString, allocate_plenty plenty, plain, Option.getD_some, stored, Bool.false_eq_true,
    if_false, fine, same]

omit plenty in
theorem readValue_quoted (blank : Blank b) (fits : FitsToken value) :
    readValue (reading n (b ++ quoted value ++ rest)) children key
      = ⟨⟨some value, true, false, reading n rest⟩, true, children⟩ := by
  rw [readValue, readToken_quoted blank fits]
  rfl

omit plenty in
theorem readValue_openBrace (blank : Blank b) :
    readValue (reading n (b ++ [openBrace] ++ rest)) children key
      = ⟨⟨some [openBrace], false, false, reading n rest⟩, true, children⟩ := by
  rw [readValue, readToken_openBrace blank]
  rfl

omit plenty in
theorem loadEntries_close (blank : Blank b) :
    loadEntries alloc (fuel + 1) depth (reading n (b ++ [closeBrace] ++ rest)) children
      = (children, reading n rest) := by
  rw [loadEntries, readToken_closeBrace blank]
  rfl

theorem loadEntries_string (blank : Blank b) (named : key ≠ []) (fits : FitsToken key) (blank' : Blank b')
    (fits' : FitsToken value) (stored : storedValue value = value) (continues : Continues rest) :
    loadEntries alloc (fuel + 1) depth (reading n (b ++ quoted key ++ (b' ++ quoted value ++ rest))) children
      = loadEntries alloc fuel depth (reading (n + 4) rest) (children ++ [.string (some key) value]) := by
  rw [loadEntries, readToken_quoted blank fits]
  simp only [named, or_false, Bool.false_eq_true, if_false, is_quoted, newObject_plenty plenty,
    readValue_quoted blank' fits', isNoValue_quoted, loadString_plenty plenty stored continues,
    appendChild_plenty plenty]

theorem loadEntries_array (blank : Blank b) (named : key ≠ []) (fits : FitsToken key) (blank' : Blank b')
    (within : depth + 1 ≤ vdfMaxDepth)
    (loaded : loadEntries alloc fuel (depth + 1) (reading (n + 2) rest) [] = (block, reading m rest')) :
    loadEntries alloc (fuel + 1) depth (reading n (b ++ quoted key ++ (b' ++ [openBrace] ++ rest))) children
      = loadEntries alloc fuel depth (reading (m + 1) rest') (children ++ [.array (some key) block]) := by
  rw [loadEntries, readToken_quoted blank fits]
  simp only [named, or_false, Bool.false_eq_true, if_false, is_quoted, newObject_plenty plenty,
    readValue_openBrace blank', isNoValue_openBrace, is_openBrace, if_true, Nat.not_lt.mpr within, loaded,
    appendChild_plenty plenty]

end Steps

theorem continues_closeBrace {b rest : Text} (blank : Blank b) : Continues (b ++ [closeBrace] ++ rest) := by
  intro n
  rw [readToken_closeBrace blank]
  exact ⟨rfl, rfl, rfl⟩

theorem continues_quoted {b key rest : Text} (blank : Blank b) (fits : FitsToken key) :
    Continues (b ++ quoted key ++ rest) := by
  intro n
  rw [readToken_quoted blank fits]
  exact ⟨rfl, rfl, rfl⟩

theorem continues_tokensAll {d : Nat} {children : List VdfObject} {text rest : Text}
    (printable : ∀ child ∈ children, Printable d child)
    (laid : Laid (VdfObject.tokensAll children ++ [[closeBrace]]) text) : Continues (text ++ rest) := by
  cases children with
  | nil =>
      cases laid with
      | cons blank behind =>
          rw [List.append_assoc _ _ rest]
          exact continues_closeBrace blank
  | cons child children =>
      cases printable child List.mem_cons_self with
      | string named fits =>
          cases laid with
          | cons blank behind =>
              rw [List.append_assoc _ _ rest]
              exact continues_quoted blank fits
      | array named fits =>
          cases laid with
          | cons blank behind =>
              rw [List.append_assoc _ _ rest]
              exact continues_quoted blank fits

include plenty in
theorem loadEntries_printed (d : Nat) (children : List VdfObject)
    (printable : ∀ child ∈ children, Printable d child) {fuel depth n : Nat} {text rest : Text}
    {before : List VdfObject} (laid : Laid (VdfObject.tokensAll children ++ [[closeBrace]]) text)
    (within : depth + d ≤ vdfMaxDepth) (enough : text.length ≤ fuel) :
    ∃ m, loadEntries alloc fuel depth (reading n (text ++ rest)) before
      = (before ++ children, reading m rest) := by
  induction d using Nat.strong_induction_on generalizing children fuel depth n text rest before with
  | _ d nested =>
      induction children generalizing fuel n text rest before with
      | nil =>
          cases laid with
          | @cons _ b _ text blank behind =>
              cases behind
              cases fuel with
              | zero => simp at enough
              | succ fuel =>
                  rw [List.append_nil, List.append_nil]
                  exact ⟨n, loadEntries_close blank⟩
      | cons child children ih =>
          have others : ∀ child ∈ children, Printable d child := fun other among =>
            printable other (List.mem_cons_of_mem _ among)
          rw [VdfObject.tokensAll, List.append_assoc] at laid
          obtain ⟨front, back, rfl, first, last⟩ := laid_append laid
          rw [List.length_append] at enough
          cases printable child List.mem_cons_self with
          | @string _ key value named fits fits_value stored =>
              obtain ⟨b, _, blank, rfl, second⟩ := laid_cons first
              obtain ⟨b', _, blank', rfl, nothing⟩ := laid_cons second
              cases nothing
              cases fuel with
              | zero => simp [quoted] at enough
              | succ fuel =>
                  simp only [List.length_append, quoted, List.length_cons] at enough
                  have continues := (continues_tokensAll others last : Continues (back ++ rest))
                  obtain ⟨m, done⟩ : ∃ m, loadEntries alloc fuel depth (reading (n + 4) (back ++ rest))
                      (before ++ [.string (some key) value])
                        = (before ++ [.string (some key) value] ++ children, reading m rest) :=
                    ih others last (by omega)
                  have regroup : b ++ quoted key ++ (b' ++ quoted value ++ []) ++ back ++ rest
                      = b ++ quoted key ++ (b' ++ quoted value ++ (back ++ rest)) := by simp
                  rw [Option.getD_some, regroup, loadEntries_string plenty blank named fits blank' fits_value stored continues, done]
                  exact ⟨m, by simp⟩
          | @array d key block named fits within_block =>
              obtain ⟨b, _, blank, rfl, second⟩ := laid_cons first
              obtain ⟨b', text, blank', rfl, inner⟩ := laid_cons second
              cases fuel with
              | zero => simp [quoted] at enough
              | succ fuel =>
                  simp only [List.length_append, quoted, List.length_cons] at enough
                  obtain ⟨k, loaded⟩ : ∃ k, loadEntries alloc fuel (depth + 1) (reading (n + 2) (text ++ (back ++ rest)))
                      [] = ([] ++ block, reading k (back ++ rest)) :=
                    nested d (Nat.lt_succ_self d) block within_block inner (by omega) (by omega)
                  obtain ⟨m, done⟩ : ∃ m, loadEntries alloc fuel depth (reading (k + 1) (back ++ rest))
                      (before ++ [.array (some key) block])
                        = (before ++ [.array (some key) block] ++ children, reading m rest) :=
                    ih others last (by omega)
                  have regroup : b ++ quoted key ++ (b' ++ [openBrace] ++ text) ++ back ++ rest
                      = b ++ quoted key ++ (b' ++ [openBrace] ++ (text ++ (back ++ rest))) := by simp
                  rw [Option.getD_some, regroup, loadEntries_array plenty blank named fits blank' (by omega) loaded, List.nil_append, done]
                  exact ⟨m, by simp⟩

theorem printable_array {d : Nat} {key : Text} {children : List VdfObject}
    (printable : Printable d (.array (some key) children)) :
    ∃ d', d = d' + 1 ∧ key ≠ [] ∧ FitsToken key ∧ ∀ child ∈ children, Printable d' child := by
  cases printable with
  | array named fits within => exact ⟨_, rfl, named, fits, within⟩

theorem skipMark_blank {b rest : Text} (blank : Blank b) : skipMark (b ++ quote :: rest) = b ++ quote :: rest := by
  unfold skipMark
  rw [if_neg]
  intro mark
  have first : (b ++ quote :: rest).head? = some 0xEF := by
    cases text : b ++ quote :: rest with
    | nil => simp at text
    | cons c behind =>
        rw [text] at mark
        cases behind <;> simp_all
  cases blank with
  | nil => simp [quote] at first
  | space space =>
      simp only [List.cons_append, List.head?_cons, Option.some.injEq] at first
      subst first
      revert space
      decide
  | comment => simp [slash] at first

include plenty in
theorem loadBlock_printed {d n : Nat} {children : List VdfObject} {text rest : Text}
    (printable : ∀ child ∈ children, Printable d child)
    (laid : Laid (VdfObject.tokensAll children ++ [[closeBrace]]) text) (within : 1 + d ≤ vdfMaxDepth) :
    ∃ m, loadBlock alloc (reading n (text ++ rest)) 1 = (children, reading m rest) := by
  have shallow : ¬ vdfMaxDepth < 1 := by omega
  rw [loadBlock, if_neg shallow]
  apply loadEntries_printed plenty d children printable laid within
  rw [List.length_append]
  omega

include plenty in
theorem loadEntry_printed {d n : Nat} {key b text rest : Text} {children : List VdfObject}
    (printable : ∀ child ∈ children, Printable d child) (blank : Blank b)
    (laid : Laid (VdfObject.tokensAll children ++ [[closeBrace]]) text) (within : 1 + d ≤ vdfMaxDepth)
    (root : VdfObject) (p : VdfParser) :
    ∃ m, loadEntry alloc ⟨root, .root, p⟩ key (reading n (b ++ [openBrace] ++ (text ++ rest)))
      = ⟨.array (some key) children, .null, reading m rest⟩ := by
  obtain ⟨m, loaded⟩ : ∃ m, loadBlock alloc (reading n (text ++ rest)) 1 = (children, reading m rest) :=
    loadBlock_printed plenty printable laid within
  refine ⟨m, ?_⟩
  rw [loadEntry, readToken_openBrace blank]
  simp only [afterConditional, is_openBrace, if_true, loaded]

theorem vdfParseBuffer_printed (key : Text) (children : List VdfObject) (text : Text)
    (other : asciiEqual key includeKey = false)
    (printable : Printable vdfMaxDepth (.array (some key) children))
    (printed : PrintedAs (.array (some key) children) text) (small : text.length ≤ intMax)
    (plenty : ∀ k, alloc k = true) :
    vdfParseBuffer alloc text = some (.array (some key) children) := by
  obtain ⟨d, depth, named, fits, within⟩ := printable_array printable
  obtain ⟨_, back, rfl, laid, trailing⟩ := printed
  obtain ⟨b, _, blank, rfl, second⟩ := laid_cons laid
  obtain ⟨b', inner, blank', rfl, third⟩ := laid_cons second
  have regroup : b ++ quoted key ++ (b' ++ [openBrace] ++ inner) ++ back
      = b ++ quoted key ++ (b' ++ [openBrace] ++ (inner ++ back)) := by simp
  rw [Option.getD_some, regroup] at small ⊢
  have marked : skipMark (b ++ quoted key ++ (b' ++ [openBrace] ++ (inner ++ back)))
      = b ++ quoted key ++ (b' ++ [openBrace] ++ (inner ++ back)) := by
    rw [quoted, List.append_assoc, List.cons_append]
    exact skipMark_blank blank
  generalize start : reading 2 (b ++ quoted key ++ (b' ++ [openBrace] ++ (inner ++ back))) = p
  obtain ⟨m, loaded⟩ : ∃ m, loadEntry alloc ⟨.none none, .root, p⟩ key
      (reading 3 (b' ++ [openBrace] ++ (inner ++ back))) = ⟨.array (some key) children, .null, reading m back⟩ :=
    loadEntry_printed plenty within blank' third (by omega) _ _
  have first : readToken p = ⟨some key, true, false, reading 2 (b' ++ [openBrace] ++ (inner ++ back))⟩ := by
    rw [← start]
    exact readToken_quoted blank fits
  have positive : ∃ fuel, (b ++ quoted key ++ (b' ++ [openBrace] ++ (inner ++ back))).length = fuel + 1 :=
    ⟨_, by simp [quoted]; rfl⟩
  obtain ⟨fuel, length⟩ := positive
  have parsed : parseEntries alloc (fuel + 1 + 1) ⟨.none none, .root, p⟩
      = ⟨.array (some key) children, .null, atEnd m⟩ := by
    rw [parseEntries]
    simp only [first, Option.getD_some, Option.isNone_some, Bool.not_true, Bool.and_false, Bool.or_false,
      Bool.false_eq_true, if_false, other, nextObject, allocate_plenty plenty, loaded]
    rw [parseEntries, readToken_trailing trailing]
    rfl
  rw [vdfParseBuffer, if_neg (Nat.not_lt.mpr small), if_neg (by simp [plenty]), marked, length]
  simp only [start, parsed, Bool.false_eq_true, if_false]

def smallChildren : List VdfObject := [.string (some [98]) [quote, backslash, openBrace], .array (some [98]) []]

def smallTree : VdfObject := .array (some [97]) smallChildren

def smallComment : Text := slash :: slash :: ([quote, closeBrace] ++ newline :: [])

theorem blank_smallComment : Blank smallComment := .comment (by decide) .nil

/-- Comments in front of the first token, inside the block and at the end. -/
def smallText : Text :=
  smallComment ++ quoted [97] ++ ([] ++ [openBrace] ++ ([blank] ++ quoted [98] ++
    ([] ++ quoted [quote, backslash, openBrace] ++ (smallComment ++ quoted [98] ++ ([] ++ [openBrace] ++
      ([] ++ [closeBrace] ++ ([newline] ++ [closeBrace] ++ []))))))) ++ ([] ++ slash :: slash :: [quote])

theorem smallTree_printed : PrintedAs smallTree smallText := by
  refine ⟨_, _, rfl, ?_, .comment .nil (by decide)⟩
  exact .cons blank_smallComment (.cons .nil (.cons (.space rfl .nil) (.cons .nil
    (.cons blank_smallComment (.cons .nil (.cons .nil (.cons (.space rfl .nil) .nil)))))))

theorem fitsToken_short {chars : Text} (free : 0 ∉ chars) (short : chars.length < 4) : FitsToken chars :=
  ⟨free, Nat.lt_trans short (by decide)⟩

theorem smallTree_printable : Printable vdfMaxDepth smallTree := by
  have block : Printable (4094 + 1) (.array (some [98]) []) :=
    .array (by decide) (fitsToken_short (by decide) (by decide)) (by simp)
  have value : Printable 4095 (.string (some [98]) [quote, backslash, openBrace]) :=
    .string (by decide) (fitsToken_short (by decide) (by decide)) (fitsToken_short (by decide) (by decide)) rfl
  have tree : Printable (4095 + 1) smallTree := by
    apply Printable.array (by decide) (fitsToken_short (by decide) (by decide))
    intro child among
    simp only [smallChildren, List.mem_cons, List.not_mem_nil, or_false] at among
    rcases among with rfl | rfl
    · exact value
    · exact block
  exact tree

theorem vdfParseBuffer_smallText : vdfParseBuffer (fun _ => true) smallText = some smallTree :=
  vdfParseBuffer_printed [97] smallChildren smallText (by decide) smallTree_printable smallTree_printed
    (by decide) fun _ => rfl

/-- An empty block behind `n` spaces. -/
def paddedText (n : Nat) : Text := List.replicate n blank ++ quoted [97] ++ ([] ++ [openBrace] ++ ([] ++ [closeBrace] ++ []))

theorem blank_replicate (n : Nat) : Blank (List.replicate n blank) := by
  induction n with
  | zero => exact .nil
  | succ n ih => exact .space rfl ih

theorem paddedText_printed (n : Nat) : PrintedAs (.array (some [97]) []) (paddedText n) :=
  ⟨paddedText n, [], (List.append_nil _).symm, .cons (blank_replicate n) (.cons .nil (.cons .nil .nil)), .blank .nil⟩

theorem emptyBlock_printable : Printable vdfMaxDepth (.array (some [97]) []) := by
  have block : Printable (4095 + 1) (.array (some [97]) []) :=
    .array (by decide) (fitsToken_short (by decide) (by decide)) (by simp)
  exact block

theorem vdfParseBuffer_paddedText {n : Nat} (long : intMax < n) :
    vdfParseBuffer alloc (paddedText n) = none := by
  apply if_pos
  unfold paddedText
  rw [List.append_assoc, List.length_append, List.length_replicate]
  omega

/-- Text of more than `INT_MAX` bytes is not parsed, nor is any text without memory for the result. -/
theorem printed_not_parsed :
    (Printable vdfMaxDepth (.array (some [97]) []) ∧ PrintedAs (.array (some [97]) []) (paddedText (2 ^ 31)) ∧
      vdfParseBuffer (fun _ => true) (paddedText (2 ^ 31)) = none) ∧
    Printable vdfMaxDepth smallTree ∧ PrintedAs smallTree smallText ∧
      vdfParseBuffer (fun _ => false) smallText = none :=
  ⟨⟨emptyBlock_printable, paddedText_printed (2 ^ 31), vdfParseBuffer_paddedText (by unfold intMax; omega)⟩, smallTree_printable,
    smallTree_printed, by decide⟩

end Yafsml.Steam
