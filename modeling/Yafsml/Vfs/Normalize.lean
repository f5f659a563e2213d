import Yafsml.Text.Path

namespace Yafsml.Vfs

def dropSeparators (path : WString) : WString := path.dropWhile isSeparator

/-- Skip a prefix that ends in a colon, unless a separator comes before the colon. -/
def dropPrefix (path : WString) : WString :=
  match path.findIdx? (· == WChar.colon), path.findIdx? isSeparator with
  | some separator, some slash => if separator < slash then path.drop (separator + 1) else path
  | some separator, none => path.drop (separator + 1)
  | none, _ => path

/-- `result[0..out)` and the stack `segment_starts[0..segment_count)`, top first. -/
structure Normalized where
  result : WString
  segmentStarts : List Nat

/-- One round of the segment loop. A separator run yields empty segments, which vanish. -/
def pushSegment (win : Windows) (state : Normalized) (part : WString) : Option Normalized :=
  if part = [] ∨ part = [WChar.dot] then some state
  else if part = [WChar.dot, WChar.dot] then
    match state.segmentStarts with
    | [] => none
    | start :: starts => some ⟨state.result.take start, starts⟩
  else
    let joint := if state.result = [] then [] else [WChar.backslash]
    some ⟨state.result ++ joint ++ part.map win.towlower,
      state.result.length :: state.segmentStarts⟩

def pathParts (path : WString) : List WString :=
  (dropSeparators (dropPrefix (dropSeparators path))).splitOnP isSeparator

/-- `vfs_normalize_path` with its two buffers allocated; `none` when it returns false. -/
def vfsNormalizePath (win : Windows) (path : WString) : Option WString :=
  ((pathParts path).foldlM (pushSegment win) ⟨[], []⟩).map (·.result)

theorem dropSeparators_append {rest : WString} (starts : startsName rest = true) (before : WString) :
    dropSeparators (before ++ rest) = dropSeparators before ++ rest := by
  unfold dropSeparators
  rw [List.dropWhile_append]
  split
  · rename_i gone
    cases rest with
    | nil => cases starts
    | cons c rest =>
        rw [List.isEmpty_iff.mp gone, List.dropWhile_cons_of_neg (by simpa [startsName] using starts)]
        rfl
  · rfl

/-- A colon behind a separator ends no prefix. -/
theorem dropPrefix_append {before rest : WString}
    (apart : WChar.colon ∉ rest ∨ ∃ c ∈ before, isSeparator c = true) :
    dropPrefix (before ++ rest) = dropPrefix before ++ rest := by
  unfold dropPrefix
  rw [List.findIdx?_append, List.findIdx?_append]
  cases colon : before.findIdx? (· == WChar.colon) with
  | some i =>
      obtain ⟨inside, _⟩ := List.findIdx?_eq_some_iff_getElem.mp colon
      have dropped : (before ++ rest).drop (i + 1) = before.drop (i + 1) ++ rest :=
        List.drop_append_of_le_length inside
      rw [Option.some_or]
      cases before.findIdx? isSeparator with
      | some j =>
          rw [Option.some_or]
          dsimp only
          split
          · exact dropped
          · rfl
      | none =>
          rw [Option.none_or]
          cases rest.findIdx? isSeparator with
          | none => exact dropped
          | some j =>
              rw [Option.map_some]
              dsimp only
              rw [if_pos (by omega), dropped]
  | none =>
      rw [Option.none_or]
      cases later : rest.findIdx? (· == WChar.colon) with
      | none => rfl
      | some i =>
          obtain ⟨inside, mark, _⟩ := List.findIdx?_eq_some_iff_getElem.mp later
          have member : WChar.colon ∈ rest := by
            rw [← beq_iff_eq.mp mark]
            exact List.getElem_mem inside
          obtain ⟨c, among, separator⟩ := apart.resolve_left (absurd member)
          cases slash : before.findIdx? isSeparator with
          | none =>
              rw [List.findIdx?_eq_none_iff] at slash
              exact absurd separator (Bool.eq_false_iff.mp (slash c among))
          | some j =>
              obtain ⟨before', _⟩ := List.findIdx?_eq_some_iff_getElem.mp slash
              rw [Option.map_some, Option.some_or]
              dsimp only
              rw [if_neg (by omega)]

theorem dropPrefix_suffix (path : WString) : dropPrefix path <:+ path := by
  unfold dropPrefix
  split
  · split
    · exact List.drop_suffix _ _
    · exact List.suffix_refl _
  · exact List.drop_suffix _ _
  · exact List.suffix_refl _

theorem pathParts_append {before : WString} (separated : Separated before) :
    ∃ parts, ∀ rest, startsName rest = true → (WChar.colon ∉ rest ∨ dropSeparators before ≠ []) →
      pathParts (before ++ rest) = parts ++ rest.splitOnP isSeparator := by
  let front := dropSeparators (dropPrefix (dropSeparators before))
  have suffix : front <:+ before :=
    ((List.dropWhile_suffix _).trans (dropPrefix_suffix _)).trans (List.dropWhile_suffix _)
  have apart (rest : WString) (border : WChar.colon ∉ rest ∨ dropSeparators before ≠ []) :
      WChar.colon ∉ rest ∨ ∃ c ∈ dropSeparators before, isSeparator c = true := by
    refine border.imp id fun some => ?_
    obtain ⟨shorter, c, last⟩ := (List.eq_nil_or_concat _).resolve_left some
    exact ⟨c, by simp [last], separated.suffix (List.dropWhile_suffix _) c (by
      change (dropSeparators before).getLast? = _
      simp [last])⟩
  have split (rest : WString) (starts : startsName rest = true)
      (border : WChar.colon ∉ rest ∨ dropSeparators before ≠ []) :
      pathParts (before ++ rest) = (front ++ rest).splitOnP isSeparator := by
    rw [pathParts, dropSeparators_append starts, dropPrefix_append (apart rest border), dropSeparators_append starts]
  rcases List.eq_nil_or_concat front with empty | ⟨shorter, c, last⟩
  · refine ⟨[], fun rest starts border => ?_⟩
    rw [split rest starts border, empty, List.nil_append, List.nil_append]
  · have separator : isSeparator c = true := separated.suffix suffix c (by simp [last])
    refine ⟨shorter.splitOnP isSeparator, fun rest starts border => ?_⟩
    rw [split rest starts border, last, List.concat_eq_append, List.append_assoc, List.singleton_append,
      List.splitOnP_append_cons _ _ separator]

theorem pushSegments_some (win : Windows) {parts : List WString}
    (upward : [WChar.dot, WChar.dot] ∉ parts) (state : Normalized) :
    ∃ state', parts.foldlM (pushSegment win) state = some state' := by
  induction parts generalizing state with
  | nil => exact ⟨state, rfl⟩
  | cons part rest ih =>
      rw [List.mem_cons, not_or] at upward
      rw [List.foldlM_cons]
      unfold pushSegment
      split
      · exact ih upward.2 state
      rw [if_neg (Ne.symm upward.1)]
      exact ih upward.2 _

theorem vfsNormalizePath_append {win : Windows} {before segment key : WString}
    (separated : Separated before) (component : Component segment)
    (border : WChar.colon ∉ segment ∨ dropSeparators before ≠ []) (dot : segment ≠ [WChar.dot])
    (dots : segment ≠ [WChar.dot, WChar.dot]) (spelled : vfsNormalizePath win (before ++ segment) = some key) :
    ∃ front, key = front ++ segment.map win.towlower ∧ Separated front := by
  obtain ⟨parts, split⟩ := pathParts_append separated
  rw [vfsNormalizePath, split segment component.starts border, List.splitOnP_eq_singleton component.separators]
    at spelled
  obtain ⟨state, run, rfl⟩ := Option.map_eq_some_iff.mp spelled
  rw [List.foldlM_append] at run
  obtain ⟨earlier, _, last⟩ := Option.bind_eq_some_iff.mp run
  rw [List.foldlM_cons] at last
  obtain ⟨pushed, push, same⟩ := Option.bind_eq_some_iff.mp last
  cases same
  unfold pushSegment at push
  rw [if_neg (by simp [component.nonempty, dot]), if_neg dots] at push
  cases push
  refine ⟨_, rfl, ?_⟩
  by_cases first : earlier.result = []
  · rw [if_pos first, first]
    exact fun _ last => (by cases last)
  · rw [if_neg first]
    intro c last
    obtain rfl : WChar.backslash = c := by simpa using last
    rfl

end Yafsml.Vfs
