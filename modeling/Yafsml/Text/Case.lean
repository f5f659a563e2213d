import Yafsml.Text.Path

/-!
# Letter case

The path functions commute with every case mapping that leaves the path marks alone.
-/

namespace Yafsml

section Fold

variable {fold : WChar → WChar}

theorem KeepsMarks.beq (keeps : KeepsMarks fold) {mark : WChar} (member : mark ∈ pathMarks)
    (c : WChar) : (fold c == mark) = (c == mark) := by
  rw [Bool.eq_iff_iff, beq_iff_eq, beq_iff_eq, keeps mark member]

theorem KeepsMarks.isSeparator (keeps : KeepsMarks fold) (c : WChar) :
    Yafsml.isSeparator (fold c) = Yafsml.isSeparator c := by
  rw [Yafsml.isSeparator, keeps.beq (by decide), keeps.beq (by decide), Yafsml.isSeparator]

/-- A case mapping that makes no mark of another character. -/
def NeverMarks (fold : WChar → WChar) : Prop :=
  ∀ mark ∈ [WChar.backslash, WChar.slash, WChar.colon, WChar.dot], ∀ c, fold c = mark → c = mark

theorem KeepsMarks.never (keeps : KeepsMarks fold) : NeverMarks fold := by
  intro mark member c
  have mark_member : mark ∈ pathMarks := List.mem_append_left [WChar.space] member
  exact (keeps mark mark_member c).mp

theorem NeverMarks.isSeparator (never : NeverMarks fold) {c : WChar}
    (other : Yafsml.isSeparator c = false) : Yafsml.isSeparator (fold c) = false := by
  have lower := never WChar.backslash (by simp) c
  have upper := never WChar.slash (by simp) c
  simp only [Yafsml.isSeparator, Bool.or_eq_false_iff, beq_eq_false_iff_ne] at other ⊢
  exact ⟨mt lower other.1, mt upper other.2⟩

theorem findExtension_map (keeps : KeepsMarks fold) (last path : WString) :
    findExtension (last.map fold) (path.map fold) = (findExtension last path).map fold := by
  induction path generalizing last with
  | nil => rfl
  | cons c rest ih =>
      rw [List.map_cons, findExtension, findExtension, keeps.beq (by decide), keeps.beq (by decide),
        keeps.beq (by decide)]
      split
      · exact ih []
      split
      · exact ih (c :: rest)
      · exact ih last

theorem pathFindExtension_map (keeps : KeepsMarks fold) (path : WString) :
    pathFindExtension (path.map fold) = (pathFindExtension path).map fold :=
  findExtension_map keeps [] path

theorem pathRemoveExtension_map (keeps : KeepsMarks fold) (path : WString) :
    pathRemoveExtension (path.map fold) = (pathRemoveExtension path).map fold := by
  rw [pathRemoveExtension, pathFindExtension_map keeps, List.length_map, List.length_map,
    ← List.map_take, ← pathRemoveExtension]

theorem startsName_map (keeps : KeepsMarks fold) (path : WString) :
    startsName (path.map fold) = startsName path := by
  cases path with
  | nil => rfl
  | cons c rest => rw [List.map_cons, startsName, startsName, keeps.isSeparator]

theorem findFileName_map (keeps : KeepsMarks fold) (name path : WString) :
    findFileName (name.map fold) (path.map fold) = (findFileName name path).map fold := by
  induction path generalizing name with
  | nil => rfl
  | cons c rest ih =>
      rw [List.map_cons, findFileName, findFileName, keeps.isSeparator, keeps.beq (by decide),
        startsName_map keeps]
      split
      · exact ih rest
      · exact ih name

theorem pathFindFileName_map (keeps : KeepsMarks fold) (path : WString) :
    pathFindFileName (path.map fold) = (pathFindFileName path).map fold :=
  findFileName_map keeps path path

end Fold

/-- A case mapping that no comparison of the loader sees through. -/
structure Windows.CaseFold (win : Windows) (fold : WChar → WChar) : Prop where
  marks : KeepsMarks fold
  lstrcmpi : ∀ a b, win.lstrcmpiEqual (a.map fold) b = win.lstrcmpiEqual a b
  crt : ∀ c, win.crtFold (fold c) = win.crtFold c

namespace Windows.CaseFold

variable {win : Windows} {fold : WChar → WChar}

theorem identity (win : Windows) : win.CaseFold id :=
  ⟨fun _ _ _ => Iff.rfl, fun a b => by rw [List.map_id], fun _ => rfl⟩

theorem map_crtFold (folds : win.CaseFold fold) (text : WString) :
    (text.map fold).map win.crtFold = text.map win.crtFold := by
  rw [List.map_map]
  exact List.map_congr_left fun c _ => folds.crt c

end Windows.CaseFold

/-- What lowercasing does: no separator appears, lowercase letters stay, and letters with one lowercase
form are equal for the ordinal comparison. -/
structure Windows.Lowers (win : Windows) : Prop where
  separator : ∀ c, isSeparator (win.towlower c) = true → isSeparator c = true
  idem : ∀ c, win.towlower (win.towlower c) = win.towlower c
  ordinal : ∀ c d, win.towlower c = win.towlower d → win.ordinalFold c = win.ordinalFold d

theorem asciiWindows_lowers : asciiWindows.Lowers :=
  ⟨fun c => (asciiLower_keepsMarks.isSeparator c).symm.trans, asciiLower_idem, fun _ _ same => same⟩

theorem asciiWindows_caseFold : asciiWindows.CaseFold asciiLower := by
  refine ⟨asciiLower_keepsMarks, fun a b => ?_, asciiLower_idem⟩
  have same : (a.map asciiLower).map asciiLower = a.map asciiLower := by
    rw [List.map_map]
    exact List.map_congr_left fun c _ => asciiLower_idem c
  exact congrArg (· == b.map asciiLower) same

end Yafsml
