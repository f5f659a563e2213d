import Yafsml.Text.ResolvePhases

/-!
# What a path resolves to

The full path that Windows computes, with an extended prefix where it is long. Resolving it again
gives it again.
-/

namespace Yafsml

variable {win : Windows} {unc : Bool} {full : WString → Option WString}

/-! ## `GetFullPathNameW` -/

/-- The full path of a reserved device name, such as `NUL`. -/
def DosDevice (path : WString) : Prop :=
  ∃ name, path = wide "\\\\.\\" ++ name ∧ ∀ c ∈ name, isSeparator c = false

/-- What `GetFullPathNameW` does with absolute names, whatever the current directory is: it folds
what is below the root of the drive or below the server, without a slash of its own, its results are
absolute, and it leaves them as they are. -/
structure FoldsLexically (full : WString → Option WString) : Prop where
  drive : ∀ letter rest text,
    full (letter :: WChar.colon :: WChar.backslash :: rest) = some text →
    (∃ rest', text = letter :: WChar.colon :: WChar.backslash :: rest') ∨ DosDevice text
  share : ∀ body text, NamedServer body →
    full (WChar.backslash :: WChar.backslash :: body) = some text →
    (∃ body', text = WChar.backslash :: WChar.backslash :: body' ∧
      (body'.takeWhile fun c => !isSeparator c) = body.takeWhile fun c => !isSeparator c) ∨
      DosDevice text
  backslashes : ∀ name text, WChar.slash ∉ name → full name = some text → WChar.slash ∉ text
  absolute : ∀ name text, mlPathIsAbsolute name = true → full name = some text →
    mlPathIsAbsolute text = true
  unchanged : ∀ name text, mlPathIsAbsolute name = true → full name = some text →
    full text = some text

theorem DosDevice.bare {path : WString} (device : DosDevice path) : ¬ DevicePrefixed win path := by
  obtain ⟨name, rfl, whole⟩ := device
  rintro ⟨q, body, -, same, prefixed⟩
  have body_eq : body = name := by
    simp only [show wide "\\\\.\\" = [92, 92, 46, 92] from rfl, List.cons_append,
      List.nil_append, List.cons.injEq] at same
    exact same.2.2.2.2.symm
  subst body_eq
  rcases prefixed with drive | ⟨-, mark⟩
  · match body, drive, whole with
    | a :: d :: s :: rest, drive, whole =>
        have separator : isSeparator s = true := (Bool.and_eq_true_iff.mp drive).2
        rw [whole s (by simp)] at separator
        cases separator
  · cases head : (body.drop 3).head? with
    | none =>
        rw [head] at mark
        cases mark
    | some c =>
        rw [head] at mark
        have member := List.mem_of_mem_drop (List.mem_of_head? head)
        have separator : isSeparator c = true := mark
        rw [whole c member] at separator
        cases separator

theorem OnDisk.bare (folds : FoldsLexically full) {joined text : WString} (onDisk : OnDisk joined)
    (answered : full joined = some text) : ¬ DevicePrefixed win text := by
  rcases onDisk with ⟨letter, rest, rfl⟩ | ⟨body, rfl, named⟩
  · rcases folds.drive letter rest text answered with ⟨rest', rfl⟩ | device
    · rintro ⟨q, body, -, same, -⟩
      simp only [List.cons_append, List.cons.injEq] at same
      exact absurd same.2.1 (by decide)
    · exact device.bare
  · rcases folds.share body text named answered with ⟨body', rfl, server⟩ | device
    · rintro ⟨q, body'', kind, same, -⟩
      simp only [List.cons_append, List.nil_append, List.cons.injEq, true_and] at same
      subst same
      have other : isSeparator q = false := by
        rcases kind with rfl | rfl <;> rfl
      have alone : (body.takeWhile fun c => !isSeparator c) = [q] := by
        rw [← server]
        simp [other]
      refine named ?_
      rw [alone]
      rcases kind with rfl | rfl <;> simp
    · exact device.bare

/-! ## Resolving again -/

/-- An absolute path that Windows and `ml_path_normalize_input` leave as it is, and its extended
form, resolve to that form. -/
theorem mlPathResolveAlloc_settled {text path : WString} (plain : WChar.slash ∉ text)
    (absolute : mlPathIsAbsolute text = true) (same : full text = some text)
    (fits : text.length < mlPathMaxCch) (short : path.length < mlPathMaxCch)
    (normalized : mlPathNormalizeInput win path = text)
    (extended : mlPathExtend true text = some path) (base : Option WString) :
    mlPathResolveAlloc win full allAllocated base (some path) = .ok path := by
  have present : text ≠ [] := by
    rintro rfl
    cases absolute
  have given : path ≠ [] := by
    rintro rfl
    exact present (normalized.symm.trans rfl)
  have join : mlPathJoin win allAllocated base text = .ok text := by
    unfold mlPathJoin
    rw [absolute]
    have copied : (do
        mlPathAllocate true (text.length + 1)
        return text : Except PathError WString) = .ok text :=
      except_bind_ok.mpr ⟨(), mlPathAllocate_ok.mpr ⟨Nat.succ_ne_zero text.length, fits⟩, rfl⟩
    cases base with
    | none => exact copied
    | some base => exact copied
  refine mlPathResolveAlloc_ok.mpr ⟨path, text, text, ?_, ⟨short, ?_, ?_, same, present, fits⟩,
    extended⟩
  · simp [requestedName, given]
  · rw [normalized]
    exact not_driveRelative plain absolute
  · rw [normalized]
    exact join

/-! ## Spellings -/

theorem DosPrefix.append_ne_nil {front body : WString} (prefixed : DosPrefix win unc front)
    (absolute : AbsoluteBody unc body) : front ++ body ≠ [] := by
  intro empty
  obtain ⟨-, rfl⟩ := List.append_eq_nil_iff.mp empty
  cases unc with
  | false => cases (absolute : startsWithDrive [] = true)
  | true => exact (absolute : NamedServer []) (by simp)

theorem Respells.nil_iff {path path' : WString}
    (respells : Respells win path path') : path = [] ↔ path' = [] := by
  rcases respells with spelled | ⟨unc, front, front', body, body', prefixed, prefixed', absolute,
    spelled, rfl, rfl⟩
  · rw [← List.length_eq_zero_iff, ← List.length_eq_zero_iff, spelled.length_eq]
  · have absolute' : AbsoluteBody unc body' := by
      rwa [← absoluteBody_withBackslashes, ← spelled.withBackslashes,
        absoluteBody_withBackslashes]
    exact iff_of_false (prefixed.append_ne_nil absolute) (prefixed'.append_ne_nil absolute')

theorem mlPathJoin_respelled (letters : LettersOnly win.crtFold) {base base' : WString}
    (respells : Respells win base base') (short : base.length < mlPathMaxCch)
    (short' : base'.length < mlPathMaxCch) (name : WString) :
    mlPathJoin win allAllocated (some base') name = mlPathJoin win allAllocated (some base) name := by
  have copied := mlPathAllocate_ok.mpr ⟨Nat.succ_ne_zero base.length, short⟩
  have copied' := mlPathAllocate_ok.mpr ⟨Nat.succ_ne_zero base'.length, short'⟩
  unfold mlPathJoin
  cases mlPathIsAbsolute name with
  | true => rfl
  | false => 
      show (mlPathAllocate true _ >>= _) = (mlPathAllocate true _ >>= _)
      rw [copied, copied', respells.normalize letters]

def RespellsShort (win : Windows) (name name' : WString) : Prop :=
  Respells win name name' ∧ name.length < mlPathMaxCch ∧ name'.length < mlPathMaxCch

theorem requestedName_respelled {base base' : WString} {requested requested' : Option WString}
    (bases : RespellsShort win base base')
    (request : Option.Rel (RespellsShort win) requested requested') :
    Option.Rel (RespellsShort win) (requestedName (some base) requested)
      (requestedName (some base') requested') := by
  have either : ∀ name name', RespellsShort win name name' → Option.Rel (RespellsShort win)
      (if some name = some [] then none else some name)
      (if some name' = some [] then none else some name') := by
    intro name name' related
    by_cases empty : name = []
    · rw [if_pos (congrArg some empty), if_pos (congrArg some (related.1.nil_iff.mp empty))]
      exact .none
    · rw [if_neg (by simpa using empty), if_neg (by simpa using mt related.1.nil_iff.mpr empty)]
      exact .some related
  cases request with
  | none => exact either base base' bases
  | @some name name' related =>
      by_cases empty : name = []
      · have base_name : requestedName (some base) (some name) =
            if some base = some [] then none else some base := by simp [requestedName, empty]
        have base_name' : requestedName (some base') (some name') =
            if some base' = some [] then none else some base' := by
          simp [requestedName, related.1.nil_iff.mp empty]
        rw [base_name, base_name']
        exact either base base' bases
      · have own_name : requestedName (some base) (some name) =
            if some name = some [] then none else some name := by simp [requestedName, empty]
        have own_name' : requestedName (some base') (some name') =
            if some name' = some [] then none else some name' := by
          simp [requestedName, mt related.1.nil_iff.mpr empty]
        rw [own_name, own_name']
        exact either name name' related

theorem mlPathResolveAlloc_respelled (letters : LettersOnly win.crtFold) {base base' : WString}
    {requested requested' : Option WString} (bases : RespellsShort win base base')
    (request : Option.Rel (RespellsShort win) requested requested') :
    mlPathResolveAlloc win full allAllocated (some base') requested' =
      mlPathResolveAlloc win full allAllocated (some base) requested := by
  have names := requestedName_respelled bases request
  unfold mlPathResolveAlloc
  generalize requestedName (some base) requested = name at names
  generalize requestedName (some base') requested' = name' at names
  cases names with
  | none => rfl
  | @some name name' related =>
      obtain ⟨respells, short, short'⟩ := related
      have copied := mlPathAllocate_ok.mpr ⟨Nat.succ_ne_zero name.length, short⟩
      have copied' := mlPathAllocate_ok.mpr ⟨Nat.succ_ne_zero name'.length, short'⟩
      have join : mlPathJoin win allAllocated (some base') = mlPathJoin win allAllocated (some base) :=
        funext (mlPathJoin_respelled letters bases.1 bases.2.1 bases.2.2)
      show (mlPathAllocate true _ >>= _) = (mlPathAllocate true _ >>= _)
      rw [copied, copied', respells.normalize letters, join]

theorem mlPathResolveAlloc_driveRelative (base : Option WString) (letter : WChar) (rest : WString)
    (relative : ∀ c, rest.head? = some c → isSeparator c = false) :
    mlPathResolveAlloc win full allAllocated base (some (letter :: WChar.colon :: rest)) =
      .error (if (letter :: WChar.colon :: rest).length < mlPathMaxCch then .badPathname
        else .filenameExcedRange) := by
  have named : requestedName base (some (letter :: WChar.colon :: rest)) =
      some (letter :: WChar.colon :: rest) := by simp [requestedName]
  have normalized : mlPathNormalizeInput win (letter :: WChar.colon :: rest) =
      toBackslash letter :: WChar.colon :: withBackslashes rest := by
    have shape : withBackslashes (letter :: WChar.colon :: rest) =
        toBackslash letter :: WChar.colon :: withBackslashes rest := rfl
    simp only [mlPathNormalizeInput, shape, mlPathDosBody,
      show isSeparator WChar.colon = false from rfl, Bool.and_false, Bool.false_eq_true, if_false,
      List.take_zero, List.nil_append]
  have separated : driveRelative (mlPathNormalizeInput win (letter :: WChar.colon :: rest)) = true := by
    rw [normalized]
    cases rest with
    | nil => rfl
    | cons c rest =>
        have other : isSeparator (toBackslash c) = false := by
          rw [isSeparator_toBackslash]
          exact relative c rfl
        have mark : toBackslash c ≠ WChar.backslash := by
          intro same
          rw [same] at other
          cases other
        simpa [driveRelative, withBackslashes] using mark
  unfold mlPathResolveAlloc
  rw [named]
  show (mlPathAllocate true _ >>= _) = _
  by_cases short : (letter :: WChar.colon :: rest).length < mlPathMaxCch
  · have copied := mlPathAllocate_ok.mpr
      ⟨Nat.succ_ne_zero (letter :: WChar.colon :: rest).length, short⟩
    rw [copied, if_pos short]
    show (if driveRelative (mlPathNormalizeInput win _) = true then _ else _) = _
    rw [if_pos separated]
    rfl
  · have refused : mlPathAllocate true ((letter :: WChar.colon :: rest).length + 1) =
        .error .filenameExcedRange := by
      have none : mlPathBuffer true ((letter :: WChar.colon :: rest).length + 1) = false := by
        simp only [mlPathBuffer, Bool.and_true, Bool.and_eq_false_iff, decide_eq_false_iff_not]
        exact .inr short
      rw [mlPathAllocate, none]
      rfl
    rw [refused, if_neg short]
    rfl

/-- `GetFullPathNameW` on the name that a request above its base leads to, and on its result. -/
def packFullPath (name : WString) : Option WString :=
  if name = wide "C:\\Pack\\profiles\\..\\unused\\..\\x.dll" ∨ name = wide "C:\\Pack\\x.dll" then
    some (wide "C:\\Pack\\x.dll")
  else none

theorem packFullPath_answers {name text : WString} (answered : packFullPath name = some text) :
    text = wide "C:\\Pack\\x.dll" ∧ name.take 2 = wide "C:" := by
  unfold packFullPath at answered
  split at answered
  · cases answered
    refine ⟨rfl, ?_⟩
    rename_i either
    rcases either with rfl | rfl <;> decide
  · cases answered

theorem packFullPath_foldsLexically : FoldsLexically packFullPath where
  drive letter rest text answered := by
    obtain ⟨rfl, start⟩ := packFullPath_answers answered
    have first : letter = 67 := (List.cons.inj start).1
    exact .inl ⟨wide "Pack\\x.dll", by rw [first]; decide⟩
  share body text _ answered := by
    have start := (packFullPath_answers answered).2
    exact absurd (List.cons.inj start).1 (by decide)
  backslashes name text _ answered := by
    rw [(packFullPath_answers answered).1]
    decide
  absolute name text _ answered := by
    rw [(packFullPath_answers answered).1]
    decide
  unchanged name text _ answered := by
    rw [(packFullPath_answers answered).1]
    decide

theorem some_foldsLexically : FoldsLexically some where
  drive letter rest text answered := by
    cases answered
    exact .inl ⟨rest, rfl⟩
  share body text _ answered := by
    cases answered
    exact .inl ⟨body, rfl, rfl⟩
  backslashes name text plain answered := by
    cases answered
    exact plain
  absolute name text absolute answered := by
    cases answered
    exact absolute
  unchanged name text _ answered := by
    cases answered
    rfl

end Yafsml
