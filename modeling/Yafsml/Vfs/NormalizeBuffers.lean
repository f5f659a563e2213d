import Yafsml.Foundation.Buffer
import Yafsml.Vfs.Components

/-!
# The buffers of `vfs_normalize_path`

The function as it runs over its two allocated blocks, with every write checked. It computes
`vfsNormalizePath`.
-/

namespace Yafsml.Vfs
open Foundation

inductive NormalizeFault
  /-- a write or a read outside of a block -/
  | outOfBounds
  /-- the size computations would overflow -/
  | tooLong
  /-- a `..` without a segment to remove -/
  | climbs
deriving DecidableEq

/-- `result`, `segment_starts`, `out` and `segment_count`. -/
structure NormalizeBuffers where
  result : WString
  segmentStarts : List Nat
  out : Nat
  segmentCount : Nat

def inBounds {α : Type} : Option α → Except NormalizeFault α
  | none => .error .outOfBounds
  | some a => .ok a

def sizeMax : Nat := 2 ^ 64 - 1

/-- The check in front of the allocations, for two bytes a character and eight bytes a start. -/
def sizesOverflow (length : Nat) : Bool :=
  length == sizeMax || decide (sizeMax / 2 < length + 1) || decide (sizeMax / 8 < length + 1)

/-- An allocated block with whatever was in that memory. -/
def allocated {α : Type} (stale : Nat → α) (count : Nat) : List α := (List.range count).map stale

/-! ## Cutting off a segment -/

def firstSegment (path : WString) : WString := path.takeWhile fun c => !isSeparator c

def afterSegment (path : WString) : WString :=
  dropSeparators (path.dropWhile fun c => !isSeparator c)

theorem firstSegment_after (path : WString) :
    afterSegment path = [] ∧ path = firstSegment path ∨
    ∃ mark rest, isSeparator mark = true ∧ afterSegment path = dropSeparators rest ∧
      path = firstSegment path ++ mark :: rest := by
  have whole := List.takeWhile_append_dropWhile (p := fun c => !isSeparator c) (l := path)
  have head := List.head?_dropWhile_not (fun c => !isSeparator c) path
  unfold afterSegment firstSegment
  cases tail : path.dropWhile fun c => !isSeparator c with
  | nil =>
      rw [tail, List.append_nil] at whole
      exact .inl ⟨rfl, whole.symm⟩
  | cons mark rest =>
      rw [tail] at whole head
      have separator : isSeparator mark = true := by simpa using head
      refine .inr ⟨mark, rest, separator, ?_, whole.symm⟩
      exact List.dropWhile_cons_of_pos separator

theorem length_dropSeparators (path : WString) : (dropSeparators path).length ≤ path.length :=
  (List.dropWhile_suffix _).length_le

theorem length_afterSegment (path : WString) :
    afterSegment path = [] ∧ (firstSegment path).length = path.length ∨
    (firstSegment path).length + 1 + (afterSegment path).length ≤ path.length := by
  rcases firstSegment_after path with ⟨last, whole⟩ | ⟨mark, rest, -, after, whole⟩
  · exact .inl ⟨last, congrArg List.length whole.symm⟩
  · right
    have lengths := congrArg List.length whole
    have shorter := length_dropSeparators rest
    rw [List.length_append, List.length_cons] at lengths
    rw [after]
    omega

theorem length_afterSegment_lt {path : WString} (present : path ≠ []) :
    (afterSegment path).length < path.length := by
  have some := List.length_pos_iff.mpr present
  rcases length_afterSegment path with ⟨last, -⟩ | lengths
  · rw [last]
    exact some
  · omega

section Run

variable (win : Windows)

/-- `if (out != 0) result[out++] = L'\\';` -/
def putJoint (b : NormalizeBuffers) : Except NormalizeFault (WString × Nat) :=
  if b.out ≠ 0 then inBounds (Buffer.putAll b.result b.out [WChar.backslash])
  else .ok (b.result, b.out)

def normalizePart (part : WString) (b : NormalizeBuffers) : Except NormalizeFault NormalizeBuffers :=
  if part.length = 0 ∨ part = [WChar.dot] then .ok b
  else if part = [WChar.dot, WChar.dot] then
    if b.segmentCount = 0 then .error .climbs
    else (inBounds b.segmentStarts[b.segmentCount - 1]?).map fun start =>
      { b with out := start, segmentCount := b.segmentCount - 1 }
  else do
    let segmentStarts ← inBounds (Buffer.put b.segmentStarts b.segmentCount b.out)
    let (result, out) ← putJoint b
    let (result, out) ← inBounds (Buffer.putAll result out (part.map win.towlower))
    return ⟨result, segmentStarts, out, b.segmentCount + 1⟩

def normalizeLoop (path : WString) (b : NormalizeBuffers) : Except NormalizeFault NormalizeBuffers :=
  if path = [] then .ok b
  else
    (normalizePart win (firstSegment path) b).bind (normalizeLoop (afterSegment path))
termination_by path.length
decreasing_by
  rename_i present
  exact length_afterSegment_lt present

/-- `vfs_normalize_path` with both allocations made; `stale` and `staleStarts` tell what is in them. -/
def vfsNormalizePathBuffered (stale : Nat → WChar) (staleStarts : Nat → Nat) (path : WString) :
    Except NormalizeFault WString :=
  if sizesOverflow path.length then .error .tooLong
  else do
    let b ← normalizeLoop win (dropSeparators (dropPrefix (dropSeparators path)))
      ⟨allocated stale (path.length + 1), allocated staleStarts (path.length + 1), 0, 0⟩
    -- The terminator has its place too; the string is what stands before it.
    let result ← inBounds (Buffer.put b.result b.out 0)
    return result.take b.out

end Run

/-! ## The blocks hold the normalized text -/

/-- The blocks, for a path of `n` characters, hold what `vfsNormalizePath` has computed so far. -/
structure Filled (n : Nat) (b : NormalizeBuffers) (state : Normalized) : Prop where
  resultSize : b.result.length = n + 1
  startsSize : b.segmentStarts.length = n + 1
  out : b.out = state.result.length
  text : b.result.take b.out = state.result
  count : b.segmentCount = state.segmentStarts.length
  starts : b.segmentStarts.take b.segmentCount = state.segmentStarts.reverse
  sorted : (b.out :: state.segmentStarts).Pairwise (· ≥ ·)

structure Room (n left : Nat) (b : NormalizeBuffers) : Prop where
  out : b.out + left ≤ n
  joint : b.out ≠ 0 → left ≠ 0 → b.out + 1 + left ≤ n
  count : b.segmentCount + left ≤ n

variable {win : Windows} {n : Nat} {b : NormalizeBuffers} {state : Normalized}

theorem Filled.pop (filled : Filled n b state) {start : Nat} {starts : List Nat}
    (top : state.segmentStarts = start :: starts) :
    b.segmentCount ≠ 0 ∧ b.segmentStarts[b.segmentCount - 1]? = some start ∧ start ≤ b.out ∧
      Filled n { b with out := start, segmentCount := b.segmentCount - 1 }
        ⟨state.result.take start, starts⟩ := by
  obtain ⟨resultSize, startsSize, out, text, count, taken, sorted⟩ := filled
  rw [top, List.length_cons] at count
  rw [top, List.reverse_cons] at taken
  rw [top, List.pairwise_cons] at sorted
  have below : start ≤ b.out := sorted.1 start List.mem_cons_self
  have length : (b.segmentStarts.take b.segmentCount).length = starts.length + 1 := by
    rw [taken, List.length_append, List.length_reverse, List.length_singleton]
  refine ⟨by omega, ?_, below, resultSize, startsSize, ?_, ?_, ?_, ?_, sorted.2⟩
  · have last : (b.segmentStarts.take b.segmentCount)[b.segmentCount - 1]? = some start := by
      rw [taken, List.getElem?_append_right (by simp [count]), List.length_reverse, count]
      simp
    rwa [List.getElem?_take_of_lt (by omega)] at last
  · show start = (state.result.take start).length
    rw [List.length_take]
    omega
  · show b.result.take start = state.result.take start
    rw [← text, List.take_take, Nat.min_eq_left below]
  · show b.segmentCount - 1 = starts.length
    omega
  · show b.segmentStarts.take (b.segmentCount - 1) = starts.reverse
    have front := congrArg (List.take starts.length) taken
    rw [List.take_take, List.take_left' (List.length_reverse)] at front
    rw [← front]
    congr 1
    omega

theorem Filled.push (filled : Filled n b state) {part : WString} (present : part ≠ [])
    (dot : part ≠ [WChar.dot]) (dots : part ≠ [WChar.dot, WChar.dot])
    (room : b.out + (if b.out = 0 then 0 else 1) + part.length ≤ n) (starts : b.segmentCount ≤ n) :
    ∃ b', normalizePart win part b = .ok b' ∧
      b'.out = b.out + (if b.out = 0 then 0 else 1) + part.length ∧
      b'.segmentCount = b.segmentCount + 1 ∧
      Filled n b' ⟨state.result ++ (if state.result = [] then [] else [WChar.backslash]) ++
        part.map win.towlower, state.result.length :: state.segmentStarts⟩ := by
  obtain ⟨segmentStarts, put, startsSize, pushed⟩ :=
    Buffer.put_of_lt (by rw [filled.startsSize]; omega : b.segmentCount < b.segmentStarts.length) b.out
  have empty : b.out = 0 ↔ state.result = [] := by
    rw [filled.out, List.length_eq_zero_iff]
  -- The joint is written first, where there is one.
  obtain ⟨joined, out, joint, jointSize, position, jointText⟩ : ∃ joined out,
      putJoint b = .ok (joined, out) ∧ joined.length = n + 1 ∧
      out = b.out + (if b.out = 0 then 0 else 1) ∧
      joined.take out = state.result ++ (if state.result = [] then [] else [WChar.backslash]) := by
    by_cases first : b.out = 0
    · refine ⟨b.result, b.out, by simp [putJoint, first], filled.resultSize, by simp [first], ?_⟩
      rw [filled.text, if_pos (empty.mp first), List.append_nil]
    · rw [if_neg first] at room
      obtain ⟨written, wrote, size, text⟩ := Buffer.putAll_of_room
        (show b.out + [WChar.backslash].length ≤ b.result.length by
          rw [filled.resultSize, List.length_singleton]
          omega)
      refine ⟨written, b.out + 1, ?_, size.trans filled.resultSize, by simp [first], ?_⟩
      · rw [putJoint, if_pos first, wrote]
        rfl
      · rw [if_neg (mt empty.mpr first), ← filled.text]
        exact text
  obtain ⟨result, wrote, resultSize, text⟩ := Buffer.putAll_of_room
    (show out + (part.map win.towlower).length ≤ joined.length by
      rw [jointSize, List.length_map]
      omega)
  rw [List.length_map] at wrote text
  refine ⟨⟨result, segmentStarts, out + part.length, b.segmentCount + 1⟩, ?_, by rw [position],
    rfl, ?_⟩
  · unfold normalizePart
    rw [if_neg (by simp [present, dot]), if_neg dots, put]
    show (putJoint b >>= _) = _
    rw [joint]
    show (inBounds (Buffer.putAll joined out (part.map win.towlower)) >>= _) = _
    rw [wrote]
    rfl
  · refine ⟨resultSize.trans jointSize, startsSize.trans filled.startsSize, ?_, ?_, ?_, ?_, ?_⟩
    · have length := congrArg List.length jointText
      rw [List.length_take, jointSize, Nat.min_eq_left (by omega)] at length
      rw [List.length_append, ← length, List.length_map]
    · rw [text, jointText]
    · rw [List.length_cons, filled.count]
    · show segmentStarts.take (b.segmentCount + 1) = _
      rw [pushed, filled.starts, List.reverse_cons, filled.out]
    · rw [← filled.out, List.pairwise_cons]
      refine ⟨?_, filled.sorted⟩
      intro start member
      show start ≤ out + part.length
      rcases List.mem_cons.mp member with rfl | earlier
      · omega
      · have below := (List.pairwise_cons.mp filled.sorted).1 start earlier
        omega

/-- Behind a segment that has been written, removed or dropped there is room for the others. -/
theorem Room.next {path : WString} (room : Room n path.length b) {b' : NormalizeBuffers}
    (present : path ≠ [])
    (written : b'.out ≤ b.out ∨
      b'.out = b.out + (if b.out = 0 then 0 else 1) + (firstSegment path).length)
    (starts : b'.segmentCount ≤ b.segmentCount + (firstSegment path).length) :
    b.out + (if b.out = 0 then 0 else 1) + (firstSegment path).length ≤ n ∧
      Room n (afterSegment path).length b' := by
  obtain ⟨out, joint, count⟩ := room
  have some := List.length_pos_iff.mpr present
  by_cases first : b.out = 0
  · rw [if_pos first] at written ⊢
    rcases length_afterSegment path with ⟨last, lengths⟩ | lengths
    · rw [last]
      exact ⟨by omega, by simp; omega, by simp, by simp; omega⟩
    · exact ⟨by omega, by omega, fun _ _ => by omega, by omega⟩
  · have wider := joint first (by omega)
    rw [if_neg first] at written ⊢
    rcases length_afterSegment path with ⟨last, lengths⟩ | lengths
    · rw [last]
      exact ⟨by omega, by simp; omega, by simp, by simp; omega⟩
    · exact ⟨by omega, by omega, fun _ _ => by omega, by omega⟩

variable (win) in
theorem normalizePart_follows (filled : Filled n b state) (part : WString)
    (room : b.out + (if b.out = 0 then 0 else 1) + part.length ≤ n ∨ part = [])
    (starts : b.segmentCount ≤ n) :
    (pushSegment win state part = none → normalizePart win part b = .error .climbs) ∧
    ∀ state', pushSegment win state part = some state' → ∃ b', normalizePart win part b = .ok b' ∧
      Filled n b' state' ∧
      (b'.out ≤ b.out ∨ b'.out = b.out + (if b.out = 0 then 0 else 1) + part.length) ∧
      b'.segmentCount ≤ b.segmentCount + part.length := by
  unfold pushSegment
  split
  · rename_i vanishes
    refine ⟨nofun, fun state' same => ?_⟩
    cases same
    refine ⟨b, ?_, filled, .inl (Nat.le_refl _), Nat.le_add_right ..⟩
    rw [normalizePart, if_pos (by rwa [List.length_eq_zero_iff])]
  rename_i stays
  rw [not_or] at stays
  have ordinary : ¬ (part.length = 0 ∨ part = [WChar.dot]) := by
    rwa [List.length_eq_zero_iff, not_or]
  split
  · rename_i up
    unfold normalizePart
    rw [if_neg ordinary, if_pos up]
    split
    · rename_i empty
      refine ⟨fun _ => ?_, nofun⟩
      rw [if_pos (by rw [filled.count, empty]; rfl)]
    · rename_i start rest top
      obtain ⟨some, read, below, popped⟩ := filled.pop top
      refine ⟨nofun, fun state' same => ?_⟩
      cases same
      rw [if_neg some, read]
      exact ⟨_, rfl, popped, .inl below, by show b.segmentCount - 1 ≤ _; omega⟩
  · rename_i down
    refine ⟨nofun, fun state' same => ?_⟩
    cases same
    obtain ⟨b', run, out, count, pushed⟩ :=
      filled.push stays.1 stays.2 down (room.resolve_right stays.1) starts
    have present := List.length_pos_iff.mpr stays.1
    exact ⟨b', run, pushed, .inr out, by omega⟩

theorem foldlM_dropSeparators (path : WString) (state : Normalized) :
    ((dropSeparators path).splitOnP isSeparator).foldlM (pushSegment win) state =
      (path.splitOnP isSeparator).foldlM (pushSegment win) state := by
  induction path with
  | nil => rfl
  | cons c rest ih =>
      by_cases mark : isSeparator c = true
      · rw [dropSeparators, List.dropWhile_cons_of_pos mark,
          List.splitOnP_cons_eq_if_modifyHead, if_pos mark]
        exact ih
      · rw [dropSeparators, List.dropWhile_cons_of_neg mark]

theorem foldlM_firstSegment (path : WString) (state : Normalized) :
    (path.splitOnP isSeparator).foldlM (pushSegment win) state =
      (pushSegment win state (firstSegment path)).bind
        (((afterSegment path).splitOnP isSeparator).foldlM (pushSegment win)) := by
  have whole : ∀ c ∈ firstSegment path, isSeparator c = false := by
    intro c member
    simpa using List.mem_takeWhile_imp member
  rcases firstSegment_after path with ⟨last, same⟩ | ⟨mark, rest, separator, after, same⟩
  · conv_lhs => rw [same, List.splitOnP_eq_singleton whole]
    rw [last]
    rfl
  · conv_lhs =>
      rw [same, List.splitOnP_append_cons _ _ separator, List.splitOnP_eq_singleton whole]
    rw [after]
    show (pushSegment win state (firstSegment path)).bind _ = _
    congr 1
    funext state
    exact (foldlM_dropSeparators rest state).symm

variable (win) in
theorem normalizeLoop_follows (path : WString) (filled : Filled n b state)
    (room : Room n path.length b) :
    ((path.splitOnP isSeparator).foldlM (pushSegment win) state = none →
      normalizeLoop win path b = .error .climbs) ∧
    ∀ state', (path.splitOnP isSeparator).foldlM (pushSegment win) state = some state' →
      ∃ b', normalizeLoop win path b = .ok b' ∧ Filled n b' state' ∧ b'.out ≤ n := by
  induction shorter : path.length using Nat.strong_induction_on generalizing path b state with
  | _ length ih =>
      subst shorter
      unfold normalizeLoop
      split
      · rename_i empty
        subst empty
        refine ⟨nofun, fun state' same => ?_⟩
        cases same
        exact ⟨b, rfl, filled, by have := room.out; omega⟩
      rename_i present
      have part_room := (room.next present (.inl (Nat.le_refl b.out)) (Nat.le_add_right ..)).1
      obtain ⟨fails, continues⟩ := normalizePart_follows win filled
        (firstSegment path) (.inl part_room) (by have := room.count; omega)
      rw [foldlM_firstSegment]
      cases pushed : pushSegment win state (firstSegment path) with
      | none =>
          rw [fails pushed]
          exact ⟨fun _ => rfl, nofun⟩
      | some next =>
          obtain ⟨b', run, filled', written, starts⟩ := continues next pushed
          rw [run]
          exact ih _ (length_afterSegment_lt present) _ filled'
            (room.next present written starts).2 rfl

theorem length_allocated {α : Type} (stale : Nat → α) (count : Nat) :
    (allocated stale count).length = count := by
  rw [allocated, List.length_map, List.length_range]

theorem Filled.start (stale : Nat → WChar) (staleStarts : Nat → Nat) (n : Nat) :
    Filled n ⟨allocated stale (n + 1), allocated staleStarts (n + 1), 0, 0⟩ ⟨[], []⟩ where
  resultSize := length_allocated ..
  startsSize := length_allocated ..
  out := rfl
  text := rfl
  count := rfl
  starts := rfl
  sorted := by simp

theorem length_dropPrefix (path : WString) :
    (dropSeparators (dropPrefix (dropSeparators path))).length ≤ path.length :=
  (((List.dropWhile_suffix _).trans (dropPrefix_suffix _)).trans (List.dropWhile_suffix _)).length_le

theorem vfsNormalizePathBuffered_eq (stale : Nat → WChar) (staleStarts : Nat → Nat) (path : WString) :
    vfsNormalizePathBuffered win stale staleStarts path =
      if sizesOverflow path.length then .error .tooLong
      else match vfsNormalizePath win path with
        | none => .error .climbs
        | some key => .ok key := by
  unfold vfsNormalizePathBuffered
  split
  · rfl
  have shorter := length_dropPrefix path
  obtain ⟨fails, runs⟩ := normalizeLoop_follows win
    (dropSeparators (dropPrefix (dropSeparators path)))
    (Filled.start stale staleStarts path.length)
    ⟨by simpa using shorter, fun moved => absurd rfl moved, by simpa using shorter⟩
  cases folded : (pathParts path).foldlM (pushSegment win) ⟨[], []⟩ with
  | none =>
      rw [vfsNormalizePath, folded, fails folded]
      rfl
  | some state =>
      obtain ⟨b, run, filled, inside⟩ := runs state folded
      obtain ⟨written, put, -, front⟩ :=
        Buffer.put_of_lt (by rw [filled.resultSize]; omega : b.out < b.result.length) 0
      have text : written.take b.out = state.result := by
        have shorter := congrArg (List.take b.out) front
        rw [List.take_take, Nat.min_eq_left (Nat.le_succ _), filled.text,
          List.take_left' filled.out.symm] at shorter
        exact shorter
      rw [vfsNormalizePath, folded, run]
      show (inBounds (Buffer.put b.result b.out 0) >>= _) = _
      rw [put]
      show Except.ok (written.take b.out) = _
      rw [text]
      rfl

end Yafsml.Vfs
