import Yafsml.Steam.VdfProgress

/-! # The tree of a VDF text -/

namespace Yafsml.Steam

/-- A string, or an array with at most `levels` levels of arrays. Every key is there and not empty. -/
inductive VdfObject.Proper : (levels : Nat) → VdfObject → Prop
  | string {levels : Nat} {key value : Text} (named : key ≠ []) : Proper levels (.string (some key) value)
  | array {levels : Nat} {key : Text} {children : List VdfObject} (named : key ≠ [])
      (below : ∀ child ∈ children, Proper levels child) : Proper (levels + 1) (.array (some key) children)

def VdfObject.children : VdfObject → List VdfObject
  | .array _ children => children
  | _ => []

section Children

variable {alloc : Nat → Bool} {children : List VdfObject} {object : VdfObject}

theorem removeFirstNamed_mem {key : Text} (found : object ∈ removeFirstNamed children key) : object ∈ children :=
  List.mem_of_mem_eraseP found

theorem readValue_mem {p : VdfParser} {key : Text} (found : object ∈ (readValue p children key).children) :
    object ∈ children := by
  rw [readValue] at found
  dsimp only at found
  split_ifs at found
  · exact removeFirstNamed_mem found
  · exact found
  · exact found
  · exact found

theorem entryHead_mem {p : VdfParser} (found :
      match entryHead alloc p children with
      | .inl ended => object ∈ ended.1
      | .inr (_, v) => object ∈ v.children) : object ∈ children := by
  revert found
  rw [entryHead]
  dsimp only
  cases (readToken p).token with
  | none => exact id
  | some key =>
      dsimp only
      by_cases bad : (readToken p).parser.error = true ∨ key = []
      · rw [if_pos bad]
        exact id
      rw [if_neg bad]
      by_cases closed : (readToken p).is closeBrace = true
      · rw [if_pos closed]
        exact id
      rw [if_neg closed]
      cases newObject alloc (readToken p).parser with
      | mk ok q =>
          cases ok with
          | false => exact id
          | true =>
              dsimp only
              by_cases none : (readValue q children key).read.isNoValue = true
              · rw [if_pos none]
                exact readValue_mem
              · rw [if_neg none]
                exact readValue_mem

end Children

section Blocks

variable {alloc : Nat → Bool} {levels : Nat}

def VdfEntry.Proper (levels : Nat) (e : VdfEntry) : Prop :=
  (e.parser.error = false → e.child.Proper levels) ∧ ∀ child ∈ e.children, child.Proper levels

theorem loadString_proper {v : VdfValue} {key : Text} (named : key ≠ [])
    (before : ∀ child ∈ v.children, child.Proper levels) : (loadString alloc v key).Proper levels := by
  rw [loadString]
  cases made : allocate alloc v.read.parser with
  | mk ok p =>
      cases ok with
      | false =>
          refine ⟨fun fine => ?_, before⟩
          obtain ⟨ok, rfl⟩ := Prod.mk.inj made
          change (_ || !alloc _) = false at fine
          rw [ok, Bool.not_false, Bool.or_true] at fine
          cases fine
      | true =>
          dsimp only
          split_ifs
          · exact ⟨fun _ => .string named, fun child found => before child (removeFirstNamed_mem found)⟩
          · exact ⟨fun _ => .string named, before⟩
          · exact ⟨fun _ => .string named, before⟩

theorem appendChild_proper {e : VdfEntry} (entry : e.Proper levels) :
    ∀ child ∈ (appendChild alloc e.accepted e.children e.child e.parser).1, child.Proper levels := by
  obtain ⟨child, before⟩ := entry
  rw [appendChild]
  split_ifs with dropped
  · exact before
  · rw [Bool.or_eq_true, not_or, Bool.not_eq_true] at dropped
    cases allocate alloc e.parser with
    | mk ok p =>
        cases ok with
        | false => exact before
        | true =>
            intro object found
            rcases List.mem_append.mp found with old | new
            · exact before object old
            · rw [List.mem_singleton.mp new]
              exact child dropped.1

theorem loadEntries_proper {fuel depth : Nat} {p : VdfParser} {children : List VdfObject} (within : depth ≤ vdfMaxDepth)
    (before : ∀ child ∈ children, child.Proper (vdfMaxDepth - depth)) :
    ∀ child ∈ (loadEntries alloc fuel depth p children).1, child.Proper (vdfMaxDepth - depth) := by
  rw [← loadEntriesWith_loadString]
  induction fuel generalizing depth p children with
  | zero => exact before
  | succ fuel ih =>
      have head := @entryHead_later alloc p children
      have mem {object : VdfObject} := @entryHead_mem alloc children object p
      rw [loadEntriesWith]
      revert head mem
      cases entryHead alloc p children with
      | inl ended => exact fun _ mem child found => before child (mem found)
      | inr entry =>
          obtain ⟨key, v⟩ := entry
          rintro ⟨-, -, named, -⟩ mem
          have left : ∀ child ∈ v.children, child.Proper (vdfMaxDepth - depth) := fun child found =>
            before child (mem found)
          dsimp only
          by_cases opened : v.read.is openBrace = true
          · rw [if_pos opened]
            by_cases deep : vdfMaxDepth < depth + 1
            · rw [if_pos deep]
              exact ih within (@appendChild_proper alloc _ ⟨_, _, _, _⟩
                ⟨fun fine => absurd fine.symm Bool.false_ne_true, left⟩)
            · rw [if_neg deep]
              have block := @ih (depth + 1) v.read.parser [] (Nat.le_of_not_lt deep) (List.forall_mem_nil _)
              have one_more : vdfMaxDepth - depth = vdfMaxDepth - (depth + 1) + 1 := by omega
              refine ih within (@appendChild_proper alloc _ ⟨_, _, _, _⟩ ⟨fun _ => ?_, left⟩)
              rw [one_more]
              exact .array named block
          · rw [if_neg opened]
            exact ih within (appendChild_proper (loadString_proper named left))

end Blocks

section Whole

variable {alloc : Nat → Bool}

theorem loadEntry_proper {l : VdfLoading} {key : Text} {p : VdfParser}
    (before : ∀ child ∈ l.root.children, child.Proper (vdfMaxDepth - 1)) :
    ∀ child ∈ (loadEntry alloc l key p).root.children, child.Proper (vdfMaxDepth - 1) := by
  have block (p : VdfParser) : ∀ child ∈ (loadBlock alloc p 1).1, child.Proper (vdfMaxDepth - 1) := by
    rw [loadBlock]
    split_ifs
    · exact List.forall_mem_nil _
    · exact loadEntries_proper (by decide) (List.forall_mem_nil _)
  rw [loadEntry]
  dsimp only
  split_ifs
  · exact block _
  · exact List.forall_mem_nil _
  · exact List.forall_mem_nil _
  · exact before

theorem parseEntries_proper {fuel : Nat} {l : VdfLoading}
    (before : ∀ child ∈ l.root.children, child.Proper (vdfMaxDepth - 1)) :
    ∀ child ∈ (parseEntries alloc fuel l).root.children, child.Proper (vdfMaxDepth - 1) := by
  induction fuel generalizing l with
  | zero => exact before
  | succ fuel ih =>
      rw [parseEntries]
      dsimp only
      split_ifs
      · exact before
      · exact before
      · exact @ih ⟨l.root, l.current, _⟩ before
      · exact before
      · exact @ih ⟨l.root, l.current, _⟩ before
      · cases nextObject alloc l.current (readToken l.parser).parser with
        | mk ok p =>
            cases ok with
            | false => exact before
            | true =>
                have entry := @loadEntry_proper alloc l ((readToken l.parser).token.getD []) p before
                dsimp only
                split_ifs
                · exact entry
                · exact ih entry

end Whole

end Yafsml.Steam
