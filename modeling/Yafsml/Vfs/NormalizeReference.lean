import Yafsml.Vfs.NormalizeBuffers

/-!
# What normalizing means

The reference of `vfs_normalize_path`: the path without its prefix is a list of moves, and the
result is the names it enters and does not leave again.
-/

namespace Yafsml.Vfs
open Foundation

def afterPrefix (path : WString) : WString :=
  if WChar.colon ∈ firstSegment path then (path.dropWhile (· != WChar.colon)).tail else path

def referenceParts (path : WString) : List WString :=
  (dropSeparators (afterPrefix (dropSeparators path))).splitOnP isSeparator

/-- The names that a list of segments enters and does not leave; `none` when it leaves the root. -/
def resolvedNames (win : Windows) (parts : List WString) : Option (List WString) :=
  Move.resolve (parts.map (segmentMove win))

/-- The abstract `vfs_normalize_path`. -/
def normalizeReference (win : Windows) (path : WString) : Option WString :=
  (resolvedNames win (referenceParts path)).map joined

theorem dropWhile_eq_drop {p : WChar → Bool} {path : WString} {i : Nat}
    (found : path.findIdx? p = some i) : path.dropWhile (fun c => !p c) = path.drop i := by
  induction path generalizing i with
  | nil => cases found
  | cons c rest ih =>
      rw [List.findIdx?_cons] at found
      split at found
      · rename_i here
        cases found
        simp [here]
      · rename_i later
        obtain ⟨j, behind, rfl⟩ := Option.map_eq_some_iff.mp found
        rw [List.dropWhile_cons_of_pos (by simpa using later), ih behind, List.drop_succ_cons]

theorem mem_firstSegment (path : WString) :
    WChar.colon ∈ firstSegment path ↔ ∃ i, path.findIdx? (· == WChar.colon) = some i ∧
      ∀ j, path.findIdx? isSeparator = some j → i < j := by
  induction path with
  | nil => simp [firstSegment]
  | cons c rest ih =>
      have colon_not : isSeparator WChar.colon = false := by decide
      rw [List.findIdx?_cons, List.findIdx?_cons]
      by_cases here : c = WChar.colon
      · subst here
        simp [firstSegment, colon_not]
      · by_cases mark : isSeparator c = true
        · simp [firstSegment, mark, here]
        · have more : firstSegment (c :: rest) = c :: firstSegment rest :=
            List.takeWhile_cons_of_pos (by simpa using mark)
          rw [more, List.mem_cons, or_iff_right (Ne.symm here), ih]
          simp [here, mark]

theorem dropPrefix_eq (path : WString) : dropPrefix path = afterPrefix path := by
  have rest {i : Nat} (colon : path.findIdx? (· == WChar.colon) = some i) :
      path.drop (i + 1) = (path.dropWhile (· != WChar.colon)).tail := by
    rw [show (fun c => c != WChar.colon) = fun c => !(c == WChar.colon) from rfl,
      dropWhile_eq_drop colon, List.tail_drop]
  unfold dropPrefix afterPrefix
  rw [if_congr (mem_firstSegment path) rfl rfl]
  cases colon : path.findIdx? (· == WChar.colon) with
  | none => simp
  | some i =>
      cases slash : path.findIdx? isSeparator with
      | none =>
          rw [if_pos ⟨i, rfl, nofun⟩]
          exact rest colon
      | some j =>
          dsimp only
          split
          · rename_i before
            rw [if_pos ⟨i, rfl, fun j' same => by cases same; exact before⟩]
            exact rest colon
          · rename_i behind
            rw [if_neg]
            rintro ⟨i', same, before⟩
            cases same
            exact behind (before j rfl)

theorem vfsNormalizePath_eq (win : Windows) (path : WString) :
    vfsNormalizePath win path = normalizeReference win path := by
  rw [vfsNormalizePath_components, components, pathParts, dropPrefix_eq]
  rfl

variable {win : Windows} {path key : WString}

theorem segmentMove_up {part : WString} :
    segmentMove win part = .up ↔ part = [WChar.dot, WChar.dot] := by
  unfold segmentMove
  constructor
  · intro moved
    split at moved
    · cases moved
    split at moved
    · assumption
    · cases moved
  · rintro rfl
    rfl

theorem normalizeReference_eq_none :
    normalizeReference win path = none ↔
      ∃ before after, referenceParts path = before ++ [WChar.dot, WChar.dot] :: after ∧
        resolvedNames win before = some [] := by
  rw [normalizeReference, Option.map_eq_none_iff, resolvedNames, Move.resolve_fails_iff]
  constructor
  · rintro ⟨front, back, split, resolved⟩
    obtain ⟨before, rest, parts, rfl, moves⟩ := List.map_eq_append_iff.mp split
    obtain ⟨part, after, rfl, moved, rfl⟩ := List.map_eq_cons_iff.mp moves
    rw [segmentMove_up.mp moved] at parts
    exact ⟨before, after, parts, resolved⟩
  · rintro ⟨before, after, parts, resolved⟩
    refine ⟨before.map (segmentMove win), after.map (segmentMove win), ?_, resolved⟩
    rw [parts, List.map_append, List.map_cons, segmentMove_up.mpr rfl]

theorem normalizeReference_segments (never : NeverMarks win.towlower)
    (found : normalizeReference win path = some key) :
    key = [] ∨ ∀ segment ∈ key.splitOnP isSeparator,
      segment ≠ [] ∧ segment ≠ [WChar.dot] ∧ segment ≠ [WChar.dot, WChar.dot] := by
  obtain ⟨names, resolved, rfl⟩ := Option.map_eq_some_iff.mp found
  have entered : ∀ name ∈ names, ∃ part ∈ referenceParts path, segmentMove win part = .down name :=
    fun name member => List.mem_map.mp (Move.mem_of_resolve resolved member)
  by_cases empty : names = []
  · subst empty
    exact .inl rfl
  · right
    rw [splitOnP_joined _ empty]
    · intro name member
      obtain ⟨part, -, moved⟩ := entered name member
      exact not_special_of_segmentMove never moved
    · intro name member c inside
      obtain ⟨part, among, moved⟩ := entered name member
      obtain ⟨-, -, -, rfl⟩ := segmentMove_down moved
      obtain ⟨c', member', rfl⟩ := List.mem_map.mp inside
      exact never.isSeparator (mem_splitOnP among c' member').1

theorem length_vfsNormalizePath (found : vfsNormalizePath win path = some key) :
    key.length ≤ path.length := by
  obtain ⟨state, folded, rfl⟩ := Option.map_eq_some_iff.mp found
  obtain ⟨b, -, filled, inside⟩ := (normalizeLoop_follows win _
    (Filled.start (fun _ => 0) (fun _ => 0) path.length)
    ⟨by simpa using length_dropPrefix path, fun moved => absurd rfl moved,
      by simpa using length_dropPrefix path⟩).2 state folded
  rw [← filled.out]
  exact inside

theorem sizesOverflow_mono {length longer : Nat} (le : length ≤ longer)
    (small : sizesOverflow longer = false) : sizesOverflow length = false := by
  unfold sizesOverflow sizeMax at *
  simp at small ⊢
  omega

theorem vfsNormalizePath_again (never : NeverMarks win.towlower)
    (idem : ∀ c, win.towlower (win.towlower c) = win.towlower c) (plain : WChar.colon ∉ path)
    (found : vfsNormalizePath win path = some key) : vfsNormalizePath win key = some key := by
  rw [vfsNormalizePath_components] at found
  obtain ⟨names, resolved, rfl⟩ := Option.map_eq_some_iff.mp found
  exact vfsNormalizePath_joined (components_clean never idem plain resolved)

/-- For every path: the function stays in its blocks and computes the reference, which fails only where
a `..` finds no segment to remove; the result has no empty, `.` or `..` segment, and without a colon
in the path it is its own normal form. -/
theorem vfsNormalizePath_reference (never : NeverMarks win.towlower)
    (idem : ∀ c, win.towlower (win.towlower c) = win.towlower c) (stale : Nat → WChar)
    (staleStarts : Nat → Nat) (path : WString) :
    (vfsNormalizePathBuffered win stale staleStarts path =
      if sizesOverflow path.length then .error .tooLong
      else match normalizeReference win path with
        | none => .error .climbs
        | some key => .ok key) ∧
    (normalizeReference win path = none ↔
      ∃ before after, referenceParts path = before ++ [WChar.dot, WChar.dot] :: after ∧
        resolvedNames win before = some []) ∧
    ∀ key, vfsNormalizePathBuffered win stale staleStarts path = .ok key →
      (key = [] ∨ ∀ segment ∈ key.splitOnP isSeparator,
        segment ≠ [] ∧ segment ≠ [WChar.dot] ∧ segment ≠ [WChar.dot, WChar.dot]) ∧
      (WChar.colon ∉ path → ∀ stale' staleStarts',
        vfsNormalizePathBuffered win stale' staleStarts' key = .ok key) := by
  refine ⟨?_, normalizeReference_eq_none, ?_⟩
  · have buffered :
        vfsNormalizePathBuffered win stale staleStarts path = _ :=
      vfsNormalizePathBuffered_eq stale staleStarts path
    rw [vfsNormalizePath_eq] at buffered
    exact buffered
  intro key result
  rw [vfsNormalizePathBuffered_eq] at result
  split at result
  · cases result
  rename_i small
  split at result
  · cases result
  rename_i found
  cases result
  refine ⟨normalizeReference_segments never (by rwa [← vfsNormalizePath_eq]), ?_⟩
  intro plain stale' staleStarts'
  have again := sizesOverflow_mono (length_vfsNormalizePath found) (Bool.eq_false_iff.mpr small)
  rw [vfsNormalizePathBuffered_eq, again, vfsNormalizePath_again never idem plain found]
  rfl

/-- Both separators, a prefix, and segments that vanish. -/
theorem vfsNormalizePath_reference_mixed :
    vfsNormalizePathBuffered asciiWindows (fun _ => 7) (fun _ => 9)
      (wide "/C:\\Parts\\.\\x/..//A.bin") = .ok (wide "parts\\a.bin") := by
  have computed := (vfsNormalizePath_reference
    (show NeverMarks asciiWindows.towlower from asciiLower_keepsMarks.never) asciiLower_idem
    (fun _ => 7) (fun _ => 9) (wide "/C:\\Parts\\.\\x/..//A.bin")).1
  have short : sizesOverflow (wide "/C:\\Parts\\.\\x/..//A.bin").length = false := by decide
  have reference : normalizeReference asciiWindows (wide "/C:\\Parts\\.\\x/..//A.bin") =
      some (wide "parts\\a.bin") := by decide
  rwa [short, reference] at computed

end Yafsml.Vfs
