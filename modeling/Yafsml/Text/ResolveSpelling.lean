import Yafsml.Text.Resolve

/-!
# Spellings of one path

Whatever way an absolute path is spelled, `ml_path_normalize_input` makes the same of it.
-/

namespace Yafsml

variable {win : Windows} {unc : Bool}

theorem isSeparator_eq {c : WChar} (separator : isSeparator c = true) (other : c ≠ WChar.slash) :
    c = WChar.backslash := by
  simpa [isSeparator, other] using separator

theorem toBackslash_separator {c : WChar} (separator : isSeparator c = true) :
    toBackslash c = WChar.backslash := by
  by_cases slash : c = WChar.slash
  · rw [slash]
    rfl
  · rw [isSeparator_eq separator slash]
    rfl

theorem toBackslash_other {c : WChar} (other : c ≠ WChar.slash) : toBackslash c = c := by
  simp [toBackslash, other]

theorem toBackslash_ne_slash (c : WChar) : toBackslash c ≠ WChar.slash := by
  by_cases slash : c = WChar.slash
  · rw [slash]
    decide
  · rwa [toBackslash_other slash]

@[simp] theorem isSeparator_toBackslash (c : WChar) :
    isSeparator (toBackslash c) = isSeparator c := by
  by_cases slash : c = WChar.slash
  · rw [slash]
    rfl
  · rw [toBackslash_other slash]

theorem slash_notMem_withBackslashes (path : WString) : WChar.slash ∉ withBackslashes path := by
  intro member
  obtain ⟨c, -, same⟩ := List.mem_map.mp member
  exact toBackslash_ne_slash c same

theorem withBackslashes_of_notMem {path : WString} (plain : WChar.slash ∉ path) :
    withBackslashes path = path := by
  have same : path.map toBackslash = path.map id :=
    List.map_congr_left fun c member => toBackslash_other fun slash => plain (slash ▸ member)
  rw [withBackslashes, same, List.map_id]

theorem withBackslashes_append (left right : WString) :
    withBackslashes (left ++ right) = withBackslashes left ++ withBackslashes right :=
  List.map_append

theorem Spells.withBackslashes {path path' : WString} (spelled : Spells id path path') :
    withBackslashes path = withBackslashes path' := by
  induction spelled with
  | nil => rfl
  | @cons c c' rest rest' same _ ih =>
      have here : toBackslash c = toBackslash c' := by
        cases separator : isSeparator c with
        | true =>
            rw [toBackslash_separator separator, toBackslash_separator (same.1 ▸ separator)]
        | false =>
            have equal : c = c' := same.2 separator
            rw [equal]
      show toBackslash c :: Yafsml.withBackslashes rest = toBackslash c' :: Yafsml.withBackslashes rest'
      rw [here, ih]

theorem takeWhile_withBackslashes (body : WString) :
    ((withBackslashes body).takeWhile fun c => !isSeparator c) =
      body.takeWhile fun c => !isSeparator c := by
  induction body with
  | nil => rfl
  | cons c rest ih =>
      show List.takeWhile _ (toBackslash c :: withBackslashes rest) = _
      cases separator : isSeparator c with
      | true => simp [separator]
      | false =>
          have other : c ≠ WChar.slash := by
            rintro rfl
            cases separator
          simp [separator, toBackslash_other other, ih]

theorem startsWithDrive_withBackslashes (body : WString) :
    startsWithDrive (withBackslashes body) = startsWithDrive body := by
  match body with
  | [] => rfl
  | [_] => rfl
  | [_, _] => rfl
  | a :: d :: s :: rest =>
      have colon : (toBackslash d == WChar.colon) = (d == WChar.colon) := by
        by_cases slash : d = WChar.slash
        · rw [slash]
          decide
        · rw [toBackslash_other slash]
      show (toBackslash d == WChar.colon && isSeparator (toBackslash s)) =
        (d == WChar.colon && isSeparator s)
      rw [colon, isSeparator_toBackslash]

theorem absoluteBody_withBackslashes (body : WString) :
    AbsoluteBody unc (withBackslashes body) ↔ AbsoluteBody unc body := by
  cases unc with
  | false =>
      show startsWithDrive (withBackslashes body) = true ↔ startsWithDrive body = true
      rw [startsWithDrive_withBackslashes]
  | true =>
      show (List.takeWhile _ _) ∉ _ ↔ (List.takeWhile _ _) ∉ _
      rw [takeWhile_withBackslashes]

theorem wcsnicmp_withBackslashes (letters : LettersOnly win.crtFold) {name : WString}
    (unc : name.map win.crtFold = (wide "UNC").map win.crtFold) : withBackslashes name = name := by
  refine withBackslashes_of_notMem fun member => ?_
  have folded : win.crtFold WChar.slash ∈ (wide "UNC").map win.crtFold := by
    rw [← unc]
    exact List.mem_map.mpr ⟨_, member, rfl⟩
  obtain ⟨letter, inside, same⟩ := List.mem_map.mp folded
  have slash := letters WChar.slash (by decide) letter same
  rw [slash] at inside
  exact absurd inside (by decide)

theorem DosPrefix.withBackslashes (letters : LettersOnly win.crtFold) {front : WString}
    (prefixed : DosPrefix win unc front) : DosPrefix win unc (withBackslashes front) ∧
      (withBackslashes front).take (if unc then 2 else 0) =
        if unc then [WChar.backslash, WChar.backslash] else [] := by
  have kept : ∀ q, q = WChar.question ∨ q = WChar.dot → toBackslash q = q := by
    rintro q (rfl | rfl) <;> rfl
  cases prefixed with
  | drive => exact ⟨.drive, rfl⟩
  | @device a b q c first second kind third =>
      refine ⟨?_, rfl⟩
      show DosPrefix win false [toBackslash a, toBackslash b, toBackslash q, toBackslash c]
      exact .device (by simpa) (by simpa) (by rwa [kept q kind]) (by simpa)
  | @share a b first second =>
      refine ⟨?_, ?_⟩
      · show DosPrefix win true [toBackslash a, toBackslash b]
        exact .share (by simpa) (by simpa)
      · show [toBackslash a, toBackslash b] = _
        rw [toBackslash_separator first, toBackslash_separator second]
        rfl
  | @deviceShare a b q c d name first second kind third unc fourth =>
      have same := wcsnicmp_withBackslashes letters unc
      have shape : Yafsml.withBackslashes ([a, b, q, c] ++ name ++ [d]) =
          [toBackslash a, toBackslash b, toBackslash q, toBackslash c] ++ name ++
            [toBackslash d] := by
        rw [withBackslashes_append, withBackslashes_append, same]
        rfl
      rw [shape]
      refine ⟨.deviceShare (by simpa) (by simpa) (by rwa [kept q kind]) (by simpa) unc (by simpa), ?_⟩
      show [toBackslash a, toBackslash b] = _
      rw [toBackslash_separator first, toBackslash_separator second]
      rfl

theorem mlPathNormalizeInput_prefixed (letters : LettersOnly win.crtFold) {front body : WString}
    (prefixed : DosPrefix win unc front) (absolute : AbsoluteBody unc body) :
    mlPathNormalizeInput win (front ++ body) =
      (if unc then [WChar.backslash, WChar.backslash] else []) ++ withBackslashes body := by
  obtain ⟨prefixed', start⟩ := prefixed.withBackslashes letters
  have split := prefixed'.split letters ((absoluteBody_withBackslashes body).mpr absolute)
  have long : (if unc then 2 else 0) ≤ (withBackslashes front).length := by
    have length := congrArg List.length start
    rw [List.length_take] at length
    cases unc with
    | false => exact Nat.zero_le _
    | true =>
        simp only [if_true, List.length_cons, List.length_nil] at length ⊢
        omega
  simp only [mlPathNormalizeInput, withBackslashes_append, split]
  rw [List.take_append_of_le_length long, start]

/-- Two spellings of one path: with other separators, or of an absolute path with another prefix as
well. -/
def Respells (win : Windows) (path path' : WString) : Prop :=
  Spells id path path' ∨ ∃ unc front front' body body', DosPrefix win unc front ∧
    DosPrefix win unc front' ∧ AbsoluteBody unc body ∧ Spells id body body' ∧
    path = front ++ body ∧ path' = front' ++ body'

theorem Respells.normalize (letters : LettersOnly win.crtFold) {path path' : WString}
    (respells : Respells win path path') :
    mlPathNormalizeInput win path = mlPathNormalizeInput win path' := by
  rcases respells with spelled | ⟨unc, front, front', body, body', prefixed, prefixed', absolute,
    spelled, rfl, rfl⟩
  · simp only [mlPathNormalizeInput, spelled.withBackslashes]
  · have absolute' : AbsoluteBody unc body' := by
      rwa [← absoluteBody_withBackslashes, ← spelled.withBackslashes,
        absoluteBody_withBackslashes]
    rw [mlPathNormalizeInput_prefixed letters prefixed absolute,
      mlPathNormalizeInput_prefixed letters prefixed' absolute', spelled.withBackslashes]

end Yafsml
