import Mathlib.Data.List.Induction
import Yafsml.Text.ResolveSpelling

/-!
# The phases of a resolution

What `ml_path_resolve_alloc` asks `GetFullPathNameW`, and what it makes of the answer, where every
allocation succeeds.
-/

namespace Yafsml

variable {win : Windows} {unc : Bool} {full : WString → Option WString}

def allAllocated : PathAllocation → Bool := fun _ => true

/-! ## The phases -/

theorem mlPathAllocate_ok {count : Nat} :
    mlPathAllocate true count = .ok () ↔ count ≠ 0 ∧ count ≤ mlPathMaxCch := by
  unfold mlPathAllocate mlPathBuffer
  simp

theorem fullPathLoop_ok {text : Option WString} {path : WString} :
    fullPathLoop text true (getFullPathName text 0) = .ok path ↔
      text = some path ∧ path ≠ [] ∧ path.length < mlPathMaxCch := by
  cases text with
  | none => simp [fullPathLoop, getFullPathName]
  | some text =>
      have size : getFullPathName (some text) 0 = text.length + 1 := by simp [getFullPathName]
      have written : getFullPathName (some text) (text.length + 1) = text.length := by
        simp [getFullPathName]
      rw [size, fullPathLoop, if_neg (Nat.succ_ne_zero _)]
      by_cases room : text.length + 1 ≤ mlPathMaxCch
      · rw [mlPathAllocate_ok.mpr ⟨Nat.succ_ne_zero _, room⟩]
        dsimp only
        rw [written]
        by_cases empty : text = []
        · subst empty
          constructor
          · nofun
          · rintro ⟨⟨rfl⟩, present, -⟩
            exact absurd rfl present
        · have present : text.length ≠ 0 := fun zero => empty (List.length_eq_zero_iff.mp zero)
          rw [if_neg present, if_pos (Nat.lt_succ_self _)]
          simp only [Option.getD_some, Except.ok.injEq, Option.some.injEq]
          constructor
          · rintro rfl
            exact ⟨rfl, empty, room⟩
          · exact fun same => same.1
      · have refused : ∃ error, mlPathAllocate true (text.length + 1) = .error error := by
          simp [mlPathAllocate, mlPathBuffer, room]
        obtain ⟨error, refused⟩ := refused
        rw [refused]
        constructor
        · nofun
        · rintro ⟨⟨rfl⟩, -, short⟩
          exact absurd short room

theorem except_bind_ok {ε α β : Type} {first : Except ε α} {next : α → Except ε β} {result : β} :
    (first >>= next) = .ok result ↔ ∃ value, first = .ok value ∧ next value = .ok result := by
  cases first with
  | error e => exact ⟨nofun, fun ⟨_, same, _⟩ => nomatch same⟩
  | ok value =>
      refine ⟨fun same => ⟨value, rfl, same⟩, ?_⟩
      rintro ⟨_, ⟨rfl⟩, same⟩
      exact same

structure Resolves (win : Windows) (full : WString → Option WString) (base : Option WString)
    (requested joined text : WString) : Prop where
  short : requested.length < mlPathMaxCch
  separated : driveRelative (mlPathNormalizeInput win requested) = false
  join : mlPathJoin win allAllocated base (mlPathNormalizeInput win requested) = .ok joined
  answered : full joined = some text
  present : text ≠ []
  fits : text.length < mlPathMaxCch

theorem mlPathResolveAlloc_ok {base requested : Option WString} {path : WString} :
    mlPathResolveAlloc win full allAllocated base requested = .ok path ↔
      ∃ name joined text, requestedName base requested = some name ∧
        Resolves win full base name joined text ∧ mlPathExtend true text = some path := by
  unfold mlPathResolveAlloc
  cases named : requestedName base requested with
  | none => simp
  | some name =>
      dsimp only
      rw [except_bind_ok]
      constructor
      · rintro ⟨⟨⟩, copied, rest⟩
        have short := (mlPathAllocate_ok.mp copied).2
        by_cases relative : driveRelative (mlPathNormalizeInput win name) = true
        · rw [if_pos relative] at rest
          cases rest
        rw [if_neg relative] at rest
        obtain ⟨joined, join, rest⟩ := except_bind_ok.mp rest
        obtain ⟨text, looped, rest⟩ := except_bind_ok.mp rest
        obtain ⟨answered, present, fits⟩ := fullPathLoop_ok.mp looped
        refine ⟨name, joined, text, rfl,
          ⟨short, by simpa using relative, join, answered, present, fits⟩, ?_⟩
        split at rest
        next extended =>
          cases rest
          exact extended
        next => cases rest
      · rintro ⟨_, joined, text, ⟨rfl⟩, resolves, extended⟩
        refine ⟨(), mlPathAllocate_ok.mpr ⟨Nat.succ_ne_zero _, resolves.short⟩, ?_⟩
        rw [resolves.separated, if_neg Bool.false_ne_true]
        refine except_bind_ok.mpr ⟨joined, resolves.join, ?_⟩
        refine except_bind_ok.mpr ⟨text, fullPathLoop_ok.mpr
          ⟨resolves.answered, resolves.present, resolves.fits⟩, ?_⟩
        have made : mlPathExtend (allAllocated PathAllocation.extended) text = some path := extended
        rw [made]

/-! ## Paths that `ml_path_normalize_input` leaves alone -/

theorem slash_notMem_mlPathNormalizeInput (path : WString) :
    WChar.slash ∉ mlPathNormalizeInput win path := by
  have plain := slash_notMem_withBackslashes path
  unfold mlPathNormalizeInput
  cases split : mlPathDosBody win (withBackslashes path) with
  | mk body unc =>
      obtain ⟨front, -, same⟩ := dosPrefix_of_body split
      dsimp only
      rw [split, List.mem_append, not_or]
      refine ⟨fun start => plain (List.mem_of_mem_take start), fun rest => ?_⟩
      rw [same] at plain
      exact plain (List.mem_append_right _ rest)

/-- An extended or device prefix in front of a drive or of `UNC\`. -/
def DevicePrefixed (win : Windows) (path : WString) : Prop :=
  ∃ q body, (q = WChar.question ∨ q = WChar.dot) ∧
    path = [WChar.backslash, WChar.backslash, q, WChar.backslash] ++ body ∧
    (startsWithDrive body = true ∨ win.wcsnicmpPrefix body (wide "UNC") = true ∧
      (body.drop 3).head?.any isSeparator = true)

theorem mlPathNormalizeInput_self {path : WString} (plain : WChar.slash ∉ path)
    (bare : ¬ DevicePrefixed win path) : mlPathNormalizeInput win path = path := by
  have same := withBackslashes_of_notMem plain
  have backslash : ∀ c ∈ path, isSeparator c = true → c = WChar.backslash :=
    fun c member separator => isSeparator_eq separator fun slash => plain (slash ▸ member)
  simp only [mlPathNormalizeInput, same]
  rcases path with _ | ⟨a, _ | ⟨b, _ | ⟨c, _ | ⟨d, body⟩⟩⟩⟩
  · rfl
  · rfl
  · by_cases separators : (isSeparator a && isSeparator b) = true
    · simp [mlPathDosBody, separators]
    · simp [mlPathDosBody, separators]
  · by_cases separators : (isSeparator a && isSeparator b) = true
    · simp [mlPathDosBody, separators]
    · simp [mlPathDosBody, separators]
  · by_cases separators : (isSeparator a && isSeparator b) = true
    · by_cases device : ((c == WChar.question || c == WChar.dot) && isSeparator d) = true
      · obtain ⟨first, second⟩ := Bool.and_eq_true_iff.mp separators
        obtain ⟨kind, third⟩ := Bool.and_eq_true_iff.mp device
        rw [Bool.or_eq_true, beq_iff_eq, beq_iff_eq] at kind
        have shape : a :: b :: c :: d :: body =
            [WChar.backslash, WChar.backslash, c, WChar.backslash] ++ body := by
          rw [backslash a (by simp) first, backslash b (by simp) second,
            backslash d (by simp) third]
          rfl
        have drive : startsWithDrive body = false := by
          by_contra starts
          exact bare ⟨c, body, kind, shape, .inl (by simpa using starts)⟩
        have name : ¬ (win.wcsnicmpPrefix body (wide "UNC") = true ∧
            (body.drop 3).head?.any isSeparator = true) :=
          fun named => bare ⟨c, body, kind, shape, .inr named⟩
        simp only [mlPathDosBody, separators, device, drive, Bool.and_eq_true, if_neg name,
          if_true, Bool.false_eq_true, if_false, List.take_zero, List.nil_append]
      · simp [mlPathDosBody, separators, device]
    · simp [mlPathDosBody, separators]

theorem not_driveRelative {path : WString} (plain : WChar.slash ∉ path)
    (absolute : mlPathIsAbsolute path = true) : driveRelative path = false := by
  match path, plain, absolute with
  | a :: b :: c :: rest, plain, absolute =>
      simp only [mlPathIsAbsolute, Bool.or_eq_true, Bool.and_eq_true, beq_iff_eq] at absolute
      rcases absolute with ⟨rfl, separator⟩ | ⟨-, second⟩
      · have mark := isSeparator_eq separator (by rintro rfl; simp at plain)
        simp [driveRelative, mark]
      · have other : b ≠ WChar.colon := by
          rintro rfl
          cases second
        simp [driveRelative, other]

/-- What `ml_path_extend` adds. -/
def Extends (text path : WString) : Prop :=
  path = text ∨ path = wide "\\\\?\\" ++ text ∨ path = wide "\\\\?\\UNC\\" ++ text.drop 2

theorem mlPathExtend_normalize (letters : LettersOnly win.crtFold) {text path : WString}
    (plain : WChar.slash ∉ text) (settled : mlPathNormalizeInput win text = text)
    (extended : mlPathExtend true text = some path) :
    Extends text path ∧ mlPathNormalizeInput win path = text ∧ WChar.slash ∉ path := by
  unfold mlPathExtend at extended
  split at extended
  · cases extended
    exact ⟨.inl rfl, settled, plain⟩
  · split at extended
    · rename_i a b c rest _
      split_ifs at extended with drive room unc room
      · cases extended
        rw [Bool.and_eq_true, beq_iff_eq, beq_iff_eq] at drive
        obtain ⟨rfl, rfl⟩ := drive
        refine ⟨.inr (.inl rfl), ?_, ?_⟩
        · have prefixed : DosPrefix win false (wide "\\\\?\\") :=
            .device (by decide) (by decide) (.inl (by decide)) (by decide)
          have absolute : AbsoluteBody false (a :: WChar.colon :: WChar.backslash :: rest) := rfl
          rw [mlPathNormalizeInput_prefixed letters prefixed absolute,
            withBackslashes_of_notMem plain]
          rfl
        · simp only [List.mem_append, not_or]
          exact ⟨by decide, plain⟩
      · cases extended
        simp only [Bool.and_eq_true, beq_iff_eq, bne_iff_ne] at unc
        obtain ⟨⟨⟨rfl, rfl⟩, question⟩, dot⟩ := unc
        have whole : WChar.slash ∉ wide "\\\\?\\UNC\\" ++ c :: rest := by
          simp only [List.mem_append, not_or]
          refine ⟨by decide, fun member => plain ?_⟩
          exact List.mem_cons_of_mem _ (List.mem_cons_of_mem _ member)
        refine ⟨.inr (.inr rfl), ?_, whole⟩
        have named : win.wcsnicmpPrefix (85 :: 78 :: 67 :: WChar.backslash :: c :: rest)
            (wide "UNC") = true := by
          rw [show wide "UNC" = [85, 78, 67] from rfl]
          simp [Windows.wcsnicmpPrefix]
        have split : mlPathDosBody win (wide "\\\\?\\UNC\\" ++ c :: rest) = (c :: rest, true) := by
          show mlPathDosBody win (WChar.backslash :: WChar.backslash :: WChar.question ::
            WChar.backslash :: 85 :: 78 :: 67 :: WChar.backslash :: c :: rest) = _
          simp [mlPathDosBody, named]
        simp only [mlPathNormalizeInput, withBackslashes_of_notMem whole, split, if_true]
        rfl
      · cases extended
        exact ⟨.inl rfl, settled, plain⟩
    · cases extended
      exact ⟨.inl rfl, settled, plain⟩

theorem mlPathExtend_short {text path : WString} (fits : text.length < mlPathMaxCch)
    (extended : mlPathExtend true text = some path) : path.length < mlPathMaxCch := by
  unfold mlPathExtend at extended
  split at extended
  · cases extended
    exact fits
  · split at extended
    · split_ifs at extended with drive room unc room
      · cases extended
        simp only [mlPathBuffer, Bool.and_eq_true, decide_eq_true_eq] at room
        rw [List.length_append, show (wide "\\\\?\\").length = 4 from rfl]
        omega
      · cases extended
        simp only [mlPathBuffer, Bool.and_eq_true, decide_eq_true_eq, List.length_cons] at room
        rw [List.length_append, show (wide "\\\\?\\UNC\\").length = 8 from rfl, List.length_cons]
        omega
      · cases extended
        exact fits
    · cases extended
      exact fits

/-! ## Names on a drive or a server -/

def OnDisk (path : WString) : Prop :=
  (∃ letter rest, path = letter :: WChar.colon :: WChar.backslash :: rest) ∨
    ∃ body, path = WChar.backslash :: WChar.backslash :: body ∧ NamedServer body

/-- The absolute paths of a drive or of a server, in any spelling. -/
def AbsoluteBase (win : Windows) (base : WString) : Prop :=
  ∃ unc front body, DosPrefix win unc front ∧ AbsoluteBody unc body ∧ base = front ++ body

/-- No absolute name, or one on a drive or on a server; all others start a device name. -/
def DiskName (name : WString) : Prop := mlPathIsAbsolute name = false ∨ OnDisk name

theorem OnDisk.absolute {path : WString} (onDisk : OnDisk path) : mlPathIsAbsolute path = true := by
  rcases onDisk with ⟨letter, rest, rfl⟩ | ⟨body, rfl, named⟩
  · rfl
  · cases body with
    | nil => exact absurd (by simp) named
    | cons c rest => simp [mlPathIsAbsolute]

theorem rdropWhile_keep {keep more : WString}
    (last : ∀ c, keep.getLast? = some c → c ≠ WChar.backslash) :
    ∃ more', more' <+: more ∧
      (keep ++ more).rdropWhile (· == WChar.backslash) = keep ++ more' := by
  induction more using List.reverseRecOn with
  | nil =>
      refine ⟨[], List.nil_prefix, ?_⟩
      rw [List.append_nil, List.rdropWhile_eq_self_iff]
      intro nonempty same
      exact last _ (List.getLast?_eq_some_getLast nonempty) (by simpa using same)
  | append_singleton more c ih =>
      rw [← List.append_assoc, List.rdropWhile_concat]
      split
      · obtain ⟨more', front, same⟩ := ih
        exact ⟨more', front.trans (List.prefix_append _ _), same⟩
      · exact ⟨more ++ [c], List.prefix_rfl, List.append_assoc _ _ _⟩

theorem joined_keep {keep tail name : WString} {n : Nat} (present : keep ≠ [])
    (last : ∀ c, keep.getLast? = some c → c ≠ WChar.backslash)
    (tail_mark : ∀ c, tail.head? = some c → c = WChar.backslash) (long : keep.length ≤ n) :
    ∃ rest, (∀ c ∈ rest, c ∈ tail ∨ c ∈ name ∨ c = WChar.backslash) ∧
      (((keep ++ tail).take n).rdropWhile (· == WChar.backslash)) ≠ [] ∧
      ((keep ++ tail).take n).rdropWhile (· == WChar.backslash) ++ WChar.backslash :: name =
        keep ++ WChar.backslash :: rest := by
  have taken : (keep ++ tail).take n = keep ++ tail.take (n - keep.length) := by
    rw [List.take_append, List.take_of_length_le long]
  obtain ⟨more, front, same⟩ := @rdropWhile_keep keep (tail.take (n - keep.length)) last
  have inside : more <+: tail := front.trans (List.take_prefix _ _)
  rw [taken, same]
  cases more with
  | nil => exact ⟨name, fun c member => .inr (.inl member), by simp [present], by simp⟩
  | cons c more =>
      have mark : c = WChar.backslash := by
        obtain ⟨_, rfl⟩ := inside
        exact tail_mark c rfl
      refine ⟨more ++ WChar.backslash :: name, ?_, by simp, by simp [mark]⟩
      intro d member
      rcases List.mem_append.mp member with here | there
      · exact .inl (inside.subset (List.mem_cons_of_mem _ here))
      · rcases List.mem_cons.mp there with same | named
        · exact .inr (.inr same)
        · exact .inr (.inl named)

theorem mlPathRootLength_server (letters : LettersOnly win.crtFold) {body : WString}
    (named : NamedServer body) :
    mlPathRootLength win ([WChar.backslash, WChar.backslash] ++ body) = 0 ∨
      2 + (body.takeWhile fun c => !isSeparator c).length ≤
        mlPathRootLength win ([WChar.backslash, WChar.backslash] ++ body) := by
  have server : DosPrefix win true [WChar.backslash, WChar.backslash] :=
    .share isSeparator_backslash isSeparator_backslash
  have split := server.split letters (show AbsoluteBody true body from named)
  simp only [mlPathRootLength, split, Bool.not_true, Bool.false_eq_true, if_false,
    List.length_append, Nat.add_sub_cancel]
  split
  · exact .inl rfl
  · right
    simp only [List.length_cons, List.length_nil]
    omega

theorem NamedServer.parts {body : WString} (named : NamedServer body) :
    ∃ server tail, body = server ++ tail ∧ (body.takeWhile fun c => !isSeparator c) = server ∧
      server ≠ [] ∧ (∀ c ∈ server, isSeparator c = false) ∧
      (∀ c, tail.head? = some c → isSeparator c = true) ∧
      ∀ rest, NamedServer (server ++ WChar.backslash :: rest) := by
  have whole : ∀ c ∈ body.takeWhile fun c => !isSeparator c, isSeparator c = false :=
    fun c member => by simpa using List.mem_takeWhile_imp member
  refine ⟨_, _, List.takeWhile_append_dropWhile.symm, rfl, ?_,
    whole, ?_, ?_⟩
  · intro same
    exact named (by simp [same])
  · intro c head
    have stops := List.head?_dropWhile_not (fun c => !isSeparator c) body
    rw [head] at stops
    simpa using stops
  · intro rest
    show (List.takeWhile _ _) ∉ _
    rw [List.takeWhile_append_of_pos (by simpa using whole),
      List.takeWhile_cons_of_neg (by simp), List.append_nil]
    exact named

theorem AbsoluteBase.directory (letters : LettersOnly win.crtFold) {base : WString}
    (absolute : AbsoluteBase win base) :
    ∃ keep tail, mlPathNormalizeInput win base = keep ++ tail ∧ keep ≠ [] ∧
      WChar.slash ∉ keep ++ tail ∧ (∀ c, keep.getLast? = some c → c ≠ WChar.backslash) ∧
      (∀ c, tail.head? = some c → c = WChar.backslash) ∧
      (mlPathRootLength win (keep ++ tail) = 0 ∨
        keep.length ≤ mlPathRootLength win (keep ++ tail)) ∧
      ∀ rest, OnDisk (keep ++ WChar.backslash :: rest) := by
  obtain ⟨unc, front, body, prefixed, absolute, rfl⟩ := absolute
  rw [mlPathNormalizeInput_prefixed letters prefixed absolute]
  rw [← absoluteBody_withBackslashes] at absolute
  have plain := slash_notMem_withBackslashes body
  generalize withBackslashes body = body at absolute plain
  cases unc with
  | false =>
      have drive : startsWithDrive body = true := absolute
      match body, drive, plain with
      | letter :: d :: s :: rest, drive, plain =>
          simp only [startsWithDrive, Bool.and_eq_true, beq_iff_eq] at drive
          obtain ⟨rfl, separator⟩ := drive
          have mark := isSeparator_eq separator (by rintro rfl; simp at plain)
          subst mark
          refine ⟨[letter, WChar.colon], WChar.backslash :: rest, rfl, by simp, plain, ?_, ?_,
            .inr ?_, fun rest => .inl ⟨letter, rest, rfl⟩⟩
          · rintro c ⟨⟩
            show WChar.colon ≠ WChar.backslash
            decide
          · rintro c ⟨⟩
            rfl
          · have root : mlPathRootLength win (letter :: WChar.colon :: WChar.backslash :: rest) = 3 :=
              mlPathRootLength_drive letters .drive rfl
            show 2 ≤ mlPathRootLength win (letter :: WChar.colon :: WChar.backslash :: rest)
            omega
  | true =>
      have named : NamedServer body := absolute
      have root := mlPathRootLength_server letters named
      obtain ⟨server, tail, rfl, front, present, whole, marked, roots⟩ := named.parts
      rw [front] at root
      refine ⟨[WChar.backslash, WChar.backslash] ++ server, tail, by simp, by simp, ?_, ?_, ?_, ?_, ?_⟩
      · rw [List.append_assoc, List.mem_append, not_or]
        exact ⟨by decide, plain⟩
      · intro c last
        rw [List.getLast?_append_of_ne_nil _ present] at last
        rintro rfl
        cases whole _ (List.mem_of_getLast? last)
      · intro c head
        refine isSeparator_eq (marked c head) ?_
        rintro rfl
        exact plain (List.mem_append_right _ (List.mem_of_head? head))
      · rw [List.append_assoc, List.length_append]
        exact root
      · intro rest
        exact .inr ⟨server ++ WChar.backslash :: rest, by simp, roots rest⟩

/-- The name that `GetFullPathNameW` is asked about stays on the drive or the server of the base. -/
theorem mlPathJoin_spec (letters : LettersOnly win.crtFold) {base name joined : WString}
    (absolute : AbsoluteBase win base) (plain : WChar.slash ∉ name)
    (join : mlPathJoin win allAllocated (some base) name = .ok joined) :
    WChar.slash ∉ joined ∧ mlPathIsAbsolute joined = true ∧ (DiskName name → OnDisk joined) := by
  unfold mlPathJoin at join
  cases kind : mlPathIsAbsolute name with
  | true =>
      rw [kind] at join
      obtain ⟨_, _, join⟩ := except_bind_ok.mp join
      cases join
      exact ⟨plain, kind, fun disk => disk.resolve_left (by simp [kind])⟩
  | false =>
      rw [kind] at join
      obtain ⟨keep, tail, directory, present, tail_plain, last, marked, root, onDisk⟩ :=
        absolute.directory letters
      obtain ⟨_, _, join⟩ := except_bind_ok.mp join
      rw [directory] at join
      by_cases relative : (!mlPathIsAbsolute (keep ++ tail)) = true
      · rw [if_pos relative] at join
        cases join
      rw [if_neg relative] at join
      dsimp only at join
      generalize length : (if (name.head? == some WChar.backslash) = true then
        mlPathRootLength win (keep ++ tail) else (keep ++ tail).length) = n at join
      generalize inner : (if (name.head? == some WChar.backslash) = true then name.tail
        else name) = name' at join
      by_cases none : n = 0
      · rw [if_pos none] at join
        cases join
      rw [if_neg none] at join
      have long : keep.length ≤ n := by
        split at length
        · exact root.elim (fun zero => absurd (length ▸ zero) none) fun long => length ▸ long
        · rw [← length, List.length_append]
          exact Nat.le_add_right _ _
      obtain ⟨rest, inside, kept, same⟩ := @joined_keep keep _ name' _ present last marked long
      obtain ⟨_, _, join⟩ := except_bind_ok.mp join
      rw [if_neg kept, same] at join
      cases join
      refine ⟨?_, (onDisk rest).absolute, fun _ => onDisk rest⟩
      have below : ∀ c ∈ name', c ∈ name := by
        intro c member
        rw [← inner] at member
        split at member
        · exact List.mem_of_mem_tail member
        · exact member
      intro member
      rcases List.mem_append.mp member with front | behind
      · exact tail_plain (List.mem_append_left _ front)
      · rcases List.mem_cons.mp behind with same | more
        · cases same
        · rcases inside _ more with there | named | same
          · exact tail_plain (List.mem_append_right _ there)
          · exact plain (below _ named)
          · cases same

end Yafsml
