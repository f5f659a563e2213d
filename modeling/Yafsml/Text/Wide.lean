import Mathlib.Data.List.Basic

/-!
# Wide strings

The loader works on NUL-terminated UTF-16 strings. A `WString` is the content before the NUL.
-/

namespace Yafsml

abbrev WChar := UInt16

abbrev WString := List WChar

/-- A `L"..."` literal. -/
def wide (text : String) : WString := text.toList.map fun c => c.toNat.toUInt16

namespace WChar

def backslash : WChar := 92
def slash : WChar := 47
def colon : WChar := 58
def dot : WChar := 46
def space : WChar := 32
def question : WChar := 63

end WChar

/-- `ml_path_separator`. -/
def isSeparator (c : WChar) : Bool := c == WChar.backslash || c == WChar.slash

@[simp] theorem isSeparator_backslash : isSeparator WChar.backslash = true := by decide

@[simp] theorem isSeparator_dot : isSeparator WChar.dot = false := by decide

/-- The functions of Windows and its C runtime that only look at their arguments. The string
comparisons are the tests `lstrcmpiW(a, b) == 0`, `_wcsicmp(a, b) == 0` and
`CompareStringOrdinal(a, -1, b, -1, TRUE) == CSTR_EQUAL`; the last two compare character by
character after a case mapping. -/
structure Windows where
  towlower : WChar → WChar
  lstrcmpiEqual : WString → WString → Bool
  crtFold : WChar → WChar
  ordinalFold : WChar → WChar

namespace Windows

def wcsicmpEqual (win : Windows) (a b : WString) : Bool :=
  a.map win.crtFold == b.map win.crtFold

def ordinalEqual (win : Windows) (a b : WString) : Bool :=
  a.map win.ordinalFold == b.map win.ordinalFold

/-- `_wcsnicmp(a, b, wcslen(b)) == 0`: `b` is a prefix of `a` up to the case mapping. -/
def wcsnicmpPrefix (win : Windows) (a b : WString) : Bool :=
  a.map win.crtFold |>.take b.length |> (· == b.map win.crtFold)

end Windows

def pathMarks : List WChar :=
  [WChar.backslash, WChar.slash, WChar.colon, WChar.dot, WChar.space]

/-- A case mapping changes no character into a mark, and no mark. -/
def KeepsMarks (fold : WChar → WChar) : Prop :=
  ∀ mark ∈ pathMarks, ∀ c, fold c = mark ↔ c = mark

/-- What the case mappings of Windows and its C runtime have to do with each other. -/
structure Windows.Cased (win : Windows) : Prop where
  lower : KeepsMarks win.towlower
  crt : KeepsMarks win.crtFold
  ordinal : ∀ c, win.ordinalFold (win.towlower c) = win.ordinalFold c

def asciiLower (c : WChar) : WChar := if 65 ≤ c ∧ c ≤ 90 then c + 32 else c

/-- A locale whose only case pairs are the ASCII letters, for concrete runs of the model. -/
def asciiWindows : Windows where
  towlower := asciiLower
  lstrcmpiEqual a b := a.map asciiLower == b.map asciiLower
  crtFold := asciiLower
  ordinalFold := asciiLower

theorem asciiLower_of_upper {c : WChar} (upper : 65 ≤ c ∧ c ≤ 90) :
    (asciiLower c).toNat = c.toNat + 32 ∧ 65 ≤ c.toNat ∧ c.toNat ≤ 90 := by
  have bounds : 65 ≤ c.toNat ∧ c.toNat ≤ 90 := by
    simpa [UInt16.le_iff_toNat_le] using upper
  refine ⟨?_, bounds⟩
  rw [asciiLower, if_pos upper, UInt16.toNat_add, show (32 : UInt16).toNat = 32 from rfl]
  omega

theorem asciiLower_keepsMarks : KeepsMarks asciiLower := by
  intro mark member c
  have outside : ∀ mark ∈ pathMarks, mark.toNat < 65 ∨ mark.toNat = 92 := by
    simp only [pathMarks, List.forall_mem_cons, List.not_mem_nil, false_imp_iff, implies_true, and_true]
    decide
  have := outside mark member
  by_cases upper : 65 ≤ c ∧ c ≤ 90
  · obtain ⟨shifted, bounds⟩ := asciiLower_of_upper upper
    refine iff_of_false ?_ ?_
    · rw [← UInt16.toNat_inj, shifted]
      omega
    · rw [← UInt16.toNat_inj]
      omega
  · rw [asciiLower, if_neg upper]

theorem asciiLower_idem (c : WChar) : asciiLower (asciiLower c) = asciiLower c := by
  by_cases upper : 65 ≤ c ∧ c ≤ 90
  · obtain ⟨shifted, bounds⟩ := asciiLower_of_upper upper
    refine if_neg ?_
    simp only [UInt16.le_iff_toNat_le, shifted, UInt16.reduceToNat]
    omega
  · simp only [asciiLower, if_neg upper]

theorem asciiWindows_cased : asciiWindows.Cased :=
  ⟨asciiLower_keepsMarks, asciiLower_keepsMarks, asciiLower_idem⟩

end Yafsml
