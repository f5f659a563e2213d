import Mathlib.Data.List.DropRight
import Yafsml.Text.Case
import Yafsml.Vfs.Normalize
import Yafsml.Foundation.PathStack

/-!
# Normalized paths as lists of names

`vfs_normalize_path` keeps one buffer and the starts of its segments. What it computes is a path
in a tree: the resolved names, joined by backslashes.
-/

namespace Yafsml.Vfs
open Foundation

variable (win : Windows)

/-! ## The names of a path -/

def segmentMove (part : WString) : Move WString :=
  if part = [] ∨ part = [WChar.dot] then .stay
  else if part = [WChar.dot, WChar.dot] then .up
  else .down (part.map win.towlower)

def components (path : WString) : Option (List WString) :=
  Move.resolve ((pathParts path).map (segmentMove win))

def joined (segments : List WString) : WString := [WChar.backslash].intercalate segments

/-- The buffers of `vfs_normalize_path` when the given names, deepest first, are on its stack. -/
def buffers : List WString → Normalized
  | [] => ⟨[], []⟩
  | segment :: outer =>
      ⟨joined (segment :: outer).reverse, (joined outer.reverse).length :: (buffers outer).segmentStarts⟩

theorem buffers_result (stack : List WString) : (buffers stack).result = joined stack.reverse := by
  cases stack with
  | nil => rfl
  | cons segment outer => rfl

theorem joined_cons {rest : List WString} (some : rest ≠ []) (first : WString) :
    joined (first :: rest) = first ++ WChar.backslash :: joined rest := by
  obtain ⟨second, more, rfl⟩ := List.exists_cons_of_ne_nil some
  rw [joined, List.intercalate_cons_cons, List.append_assoc]
  rfl

theorem joined_append {front back : List WString} (front_some : front ≠ []) (back_some : back ≠ []) :
    joined (front ++ back) = joined front ++ WChar.backslash :: joined back := by
  induction front with
  | nil => exact absurd rfl front_some
  | cons first rest ih =>
      by_cases last : rest = []
      · subst last
        rw [List.singleton_append, joined_cons back_some]
        simp [joined]
      · rw [List.cons_append, joined_cons (by simp [last]), ih last, joined_cons last,
          List.append_assoc, List.cons_append]

theorem joined_singleton (segment : WString) : joined [segment] = segment :=
  List.intercalate_singleton

theorem joined_eq_nil {segments : List WString} (named : ∀ segment ∈ segments, segment ≠ []) :
    joined segments = [] ↔ segments = [] := by
  constructor
  · intro empty
    cases segments with
    | nil => rfl
    | cons first rest =>
        have present := named first List.mem_cons_self
        by_cases last : rest = []
        · subst last
          exact absurd (by simpa [joined] using empty) present
        · rw [joined_cons last] at empty
          simp at empty
  · rintro rfl
    rfl

/-! ## The buffers follow the names -/

theorem take_joined_reverse (segment : WString) (outer : List WString) :
    (joined (segment :: outer).reverse).take (joined outer.reverse).length = joined outer.reverse := by
  rw [List.reverse_cons]
  by_cases bottom : outer.reverse = []
  · rw [bottom]
    rfl
  · rw [joined_append bottom (by simp), List.take_left]

theorem pushSegment_buffers {stack : List WString} (named : ∀ segment ∈ stack, segment ≠ [])
    (part : WString) :
    pushSegment win (buffers stack) part = ((segmentMove win part).apply stack).map buffers := by
  unfold pushSegment segmentMove
  split
  · rfl
  split
  · cases stack with
    | nil => rfl
    | cons segment outer =>
        have shorter := take_joined_reverse segment outer
        show some (Normalized.mk ((joined (segment :: outer).reverse).take _) _) = some (buffers outer)
        rw [shorter]
        cases outer with
        | nil => rfl
        | cons next rest => rfl
  · rw [Move.apply, Option.map_some, buffers, buffers_result, List.reverse_cons]
    have bottom : joined stack.reverse = [] ↔ stack = [] := by
      rw [joined_eq_nil (by simpa using named), List.reverse_eq_nil_iff]
    by_cases empty : stack = []
    · subst empty
      simp [joined]
    · dsimp only
      rw [if_neg (mt bottom.mp empty), joined_append (by simpa using empty) (by simp),
        joined_singleton, List.append_assoc]
      rfl

theorem named_apply {stack stack' : List WString} {part : WString}
    (named : ∀ segment ∈ stack, segment ≠ [])
    (moved : (segmentMove win part).apply stack = some stack') : ∀ segment ∈ stack', segment ≠ [] := by
  unfold segmentMove at moved
  split at moved
  · cases moved
    exact named
  rename_i kept
  split at moved
  · cases stack with
    | nil => cases moved
    | cons segment outer =>
        cases moved
        exact fun segment member => named segment (List.mem_cons_of_mem _ member)
  · cases moved
    intro segment member
    rcases List.mem_cons.mp member with rfl | earlier
    · simpa using fun empty => kept (.inl empty)
    · exact named segment earlier

theorem foldlM_pushSegment (parts : List WString) {stack : List WString}
    (named : ∀ segment ∈ stack, segment ≠ []) :
    parts.foldlM (pushSegment win) (buffers stack) =
      ((parts.map (segmentMove win)).foldlM Move.apply stack).map buffers := by
  induction parts generalizing stack with
  | nil => rfl
  | cons part rest ih =>
      rw [List.foldlM_cons, List.map_cons, List.foldlM_cons, pushSegment_buffers win named]
      cases moved : (segmentMove win part).apply stack with
      | none => rfl
      | some stack' => exact ih (named_apply win named moved)

theorem vfsNormalizePath_components (path : WString) :
    vfsNormalizePath win path = (components win path).map joined := by
  have run := foldlM_pushSegment win (pathParts path) (show ∀ segment ∈ [], segment ≠ [] by simp)
  rw [vfsNormalizePath, components, Move.resolve]
  rw [show (⟨[], []⟩ : Normalized) = buffers [] from rfl, run, Option.map_map, Option.map_map]
  congr 1
  funext stack
  exact buffers_result stack

/-! ## Names that normalization keeps -/

structure Clean (segment : WString) : Prop extends Plain segment where
  dot : segment ≠ [WChar.dot]
  dots : segment ≠ [WChar.dot, WChar.dot]
  lower : segment.map win.towlower = segment

theorem mem_splitOnP {path part : WString} (member : part ∈ path.splitOnP isSeparator) :
    ∀ c ∈ part, isSeparator c = false ∧ c ∈ path := by
  induction path generalizing part with
  | nil =>
      rw [List.splitOnP_nil, List.mem_singleton] at member
      subst member
      exact fun c inside => by cases inside
  | cons first rest ih =>
      rw [List.splitOnP_cons_eq_if_modifyHead] at member
      split at member
      · rcases List.mem_cons.mp member with rfl | later
        · exact fun c inside => by cases inside
        · exact fun c inside => (ih later c inside).imp id (List.mem_cons_of_mem _)
      · rename_i kept
        obtain ⟨part', rest', parts⟩ := List.exists_cons_of_ne_nil (List.splitOnP_ne_nil isSeparator rest)
        rw [parts, List.modifyHead_cons, List.mem_cons] at member
        rcases member with rfl | later
        · intro c inside
          rcases List.mem_cons.mp inside with rfl | inside
          · exact ⟨by simpa using kept, List.mem_cons_self⟩
          · exact (ih (by rw [parts]; exact List.mem_cons_self) c inside).imp id (List.mem_cons_of_mem _)
        · exact fun c inside =>
            (ih (by rw [parts]; exact List.mem_cons_of_mem _ later) c inside).imp id
              (List.mem_cons_of_mem _)

theorem dropSeparators_idem (path : WString) :
    dropSeparators (dropSeparators path) = dropSeparators path :=
  List.dropWhile_idempotent isSeparator path

theorem pathParts_of_no_colon {path : WString} (plain : WChar.colon ∉ path) :
    pathParts path = (dropSeparators path).splitOnP isSeparator := by
  have absent : (dropSeparators path).findIdx? (· == WChar.colon) = none := by
    rw [List.findIdx?_eq_none_iff]
    intro c member
    rw [beq_eq_false_iff_ne]
    rintro rfl
    exact plain ((List.dropWhile_suffix _).subset member)
  rw [pathParts, dropPrefix, absent, dropSeparators_idem]

theorem segmentMove_down {win : Windows} {part segment : WString}
    (moved : segmentMove win part = .down segment) :
    part ≠ [] ∧ part ≠ [WChar.dot] ∧ part ≠ [WChar.dot, WChar.dot] ∧
      segment = part.map win.towlower := by
  unfold segmentMove at moved
  split at moved
  · cases moved
  rename_i kept
  split at moved
  · cases moved
  rename_i not_up
  cases moved
  rw [not_or] at kept
  exact ⟨kept.1, kept.2, not_up, rfl⟩

theorem not_special_of_segmentMove {win : Windows} (never : NeverMarks win.towlower)
    {part segment : WString} (moved : segmentMove win part = .down segment) :
    segment ≠ [] ∧ segment ≠ [WChar.dot] ∧ segment ≠ [WChar.dot, WChar.dot] := by
  obtain ⟨present, not_dot, not_dots, rfl⟩ := segmentMove_down moved
  have dot (c : WChar) : win.towlower c = WChar.dot → c = WChar.dot := never _ (by simp) c
  refine ⟨by simpa using present, ?_, ?_⟩
  · intro same
    obtain ⟨c, rfl, lower⟩ := List.map_eq_singleton_iff.mp same
    exact not_dot (by rw [dot c lower])
  · intro same
    obtain ⟨c, rest, rfl, first, more⟩ := List.map_eq_cons_iff.mp same
    obtain ⟨c', rfl, second⟩ := List.map_eq_singleton_iff.mp more
    exact not_dots (by rw [dot c first, dot c' second])

theorem clean_of_segmentMove {win : Windows} (never : NeverMarks win.towlower)
    (idem : ∀ c, win.towlower (win.towlower c) = win.towlower c) {part segment : WString}
    (plain : ∀ c ∈ part, isSeparator c = false ∧ c ≠ WChar.colon)
    (moved : segmentMove win part = .down segment) : Clean win segment := by
  obtain ⟨present, not_dot, not_dots⟩ := not_special_of_segmentMove never moved
  obtain ⟨-, -, -, rfl⟩ := segmentMove_down moved
  refine ⟨⟨⟨present, ?_⟩, ?_⟩, not_dot, not_dots, ?_⟩
  · intro c member
    obtain ⟨c', member', rfl⟩ := List.mem_map.mp member
    exact never.isSeparator (plain c' member').1
  · intro member
    obtain ⟨c', member', same⟩ := List.mem_map.mp member
    exact (plain c' member').2 (never _ (by simp) c' same)
  · rw [List.map_map]
    exact List.map_congr_left fun c _ => idem c

theorem components_clean {win : Windows} (never : NeverMarks win.towlower)
    (idem : ∀ c, win.towlower (win.towlower c) = win.towlower c) {path : WString}
    {segments : List WString} (plain : WChar.colon ∉ path)
    (resolved : components win path = some segments) : ∀ segment ∈ segments, Clean win segment := by
  intro segment member
  obtain ⟨part, inside, moved⟩ := List.mem_map.mp (Move.mem_of_resolve resolved member)
  rw [pathParts_of_no_colon plain] at inside
  apply clean_of_segmentMove never idem _ moved
  intro c c_mem
  obtain ⟨notSeparator, c_path⟩ := mem_splitOnP inside c c_mem
  refine ⟨notSeparator, ?_⟩
  rintro rfl
  exact plain ((List.dropWhile_suffix _).subset c_path)

section Clean

variable {win} {segments base : List WString}

theorem segmentMove_clean {segment : WString} (clean : Clean win segment) :
    segmentMove win segment = .down segment := by
  rw [segmentMove, if_neg (by simp [clean.nonempty, clean.dot]), if_neg clean.dots, clean.lower]

theorem splitOnP_joined (whole : ∀ segment ∈ segments, ∀ c ∈ segment, isSeparator c = false)
    (some : segments ≠ []) : (joined segments).splitOnP isSeparator = segments := by
  induction segments with
  | nil => exact absurd rfl some
  | cons first rest ih =>
      have separators := whole first List.mem_cons_self
      by_cases last : rest = []
      · subst last
        rw [joined_singleton, List.splitOnP_eq_singleton separators]
      · rw [joined_cons last, List.splitOnP_append_cons _ _ isSeparator_backslash,
          List.splitOnP_eq_singleton separators,
          ih (fun segment member => whole segment (List.mem_cons_of_mem _ member)) last,
          List.singleton_append]

theorem mem_joined {c : WChar} (member : c ∈ joined segments) :
    c = WChar.backslash ∨ ∃ segment ∈ segments, c ∈ segment := by
  induction segments with
  | nil => cases member
  | cons first rest ih =>
      by_cases last : rest = []
      · subst last
        exact .inr ⟨first, List.mem_cons_self, by rwa [joined_singleton] at member⟩
      · rw [joined_cons last, List.mem_append, List.mem_cons] at member
        rcases member with here | rfl | later
        · exact .inr ⟨first, List.mem_cons_self, here⟩
        · exact .inl rfl
        · rcases ih later with mark | ⟨segment, inside, c_mem⟩
          · exact .inl mark
          · exact .inr ⟨segment, List.mem_cons_of_mem _ inside, c_mem⟩

theorem colon_not_mem_joined (plain : ∀ segment ∈ segments, Plain segment) :
    WChar.colon ∉ joined segments := by
  intro member
  rcases mem_joined member with mark | ⟨segment, inside, colon⟩
  · exact absurd mark (by decide)
  · exact (plain segment inside).colon colon

theorem joined_head (plain : ∀ segment ∈ segments, Plain segment) :
    (joined segments).head?.any isSeparator = false := by
  cases segments with
  | nil => rfl
  | cons first rest =>
      have here := plain first List.mem_cons_self
      obtain ⟨c, more, rfl⟩ := List.exists_cons_of_ne_nil here.nonempty
      have kept : isSeparator c = false := here.separators c List.mem_cons_self
      by_cases last : rest = []
      · subst last
        rw [joined_singleton]
        simpa using kept
      · rw [joined_cons last]
        simpa using kept

theorem components_joined (clean : ∀ segment ∈ segments, Clean win segment) :
    components win (joined segments) = some segments := by
  have plain : ∀ segment ∈ segments, Plain segment := fun segment member =>
    (clean segment member).toPlain
  have kept : dropSeparators (joined segments) = joined segments := by
    have head := joined_head plain
    unfold dropSeparators
    cases same : joined segments with
    | nil => rfl
    | cons c rest => exact List.dropWhile_cons_of_neg (by simpa [same] using head)
  rw [components, pathParts_of_no_colon (colon_not_mem_joined plain), kept]
  by_cases empty : segments = []
  · subst empty
    rfl
  · rw [splitOnP_joined (fun segment member => (plain segment member).separators) empty,
      List.map_congr_left fun segment member => segmentMove_clean (clean segment member),
      Move.resolve_down]

theorem joined_injective {names : List WString} (clean : ∀ segment ∈ segments, Clean win segment)
    (cleanNames : ∀ segment ∈ names, Clean win segment) (same : joined segments = joined names) :
    segments = names := by
  have resolved := components_joined clean
  rw [same, components_joined cleanNames, Option.some_inj] at resolved
  exact resolved.symm

theorem vfsNormalizePath_joined (clean : ∀ segment ∈ segments, Clean win segment) :
    vfsNormalizePath win (joined segments) = some (joined segments) := by
  rw [vfsNormalizePath_components, components_joined clean, Option.map_some]

theorem joined_below (plainBase : ∀ segment ∈ base, Plain segment)
    (plain : ∀ segment ∈ segments, Plain segment) (some : base ≠ []) {rest : WString} :
    joined segments = joined base ++ WChar.backslash :: rest ↔
      ∃ below, below ≠ [] ∧ segments = base ++ below ∧ rest = joined below := by
  constructor
  · intro same
    have named : segments ≠ [] := by
      rintro rfl
      exact absurd same (by simp [joined])
    have split := splitOnP_joined (fun segment member => (plain segment member).separators) named
    rw [same, List.splitOnP_append_cons _ _ isSeparator_backslash,
      splitOnP_joined (fun segment member => (plainBase segment member).separators) some]
      at split
    have below := List.splitOnP_ne_nil isSeparator rest
    refine ⟨rest.splitOnP isSeparator, below, split.symm, ?_⟩
    rw [← split, joined_append some below, List.append_cancel_left_eq, List.cons.injEq] at same
    exact same.2.symm
  · rintro ⟨below, present, rfl, rfl⟩
    exact joined_append some present

end Clean

end Yafsml.Vfs
