import Yafsml.Steam.VdfReaderBlocks

/-!
# Every VDF text

What the reader makes of a text, well formed or not.
-/

namespace Yafsml.Steam

namespace VdfReader

variable (alloc : Nat → Bool) (data : Text)

theorem skipMark_view (garbage : TokenBuffer) :
    Reader.view data ⟨if data.take 3 = [0xEF, 0xBB, 0xBF] then 3 else 0, false, false, garbage, 2, 0⟩ =
      ⟨skipMark data, false, false, 2⟩ := by
  rw [skipMark, Reader.view]
  dsimp only
  split_ifs
  · rfl
  · rw [List.drop_zero]

theorem parseEntries_start (garbage : TokenBuffer) {fuel : Nat} (enough : 6 * data.length + 2 ≤ fuel) :
    Returns (parseEntries data alloc fuel ⟨.none none, .root,
        ⟨if data.take 3 = [0xEF, 0xBB, 0xBF] then 3 else 0, false, false, garbage, 2, 0⟩⟩) fun l =>
      l.view data = Steam.parseEntries alloc (data.length + 1) ⟨.none none, .root, ⟨skipMark data, false, false, 2⟩⟩ ∧
        l.parser.deepest ≤ vdfMaxDepth + 1 := by
  rw [← skipMark_view data garbage]
  have left (get : Nat) := drop_length_le data get
  exact @parseEntries_returns alloc data fuel (data.length + 1) ⟨.none none, .root, ⟨_, false, false, garbage, 2, 0⟩⟩
    ⟨by have := left (if data.take 3 = [0xEF, 0xBB, 0xBF] then 3 else 0); dsimp only; omega,
      Nat.lt_succ_of_le (left _)⟩ (Nat.zero_le _)

/-- The reader returns for every text. -/
theorem vdfParseBuffer_total (small : data.length ≤ intMax) (garbage : TokenBuffer) (fuel : Nat)
    (enough : 6 * data.length + 2 ≤ fuel) :
    Returns (vdfParseBuffer data alloc fuel garbage) fun run =>
      run.deepest ≤ vdfMaxDepth + 1 ∧
      (run.result = none ↔ run.error = true ∨ ∃ k < run.attempts, alloc k = false) ∧
      (∀ root, run.result = some root → ∀ child ∈ root.children, child.Proper (vdfMaxDepth - 1)) ∧
      run.result = Steam.vdfParseBuffer alloc data ∧
      run.result = vdfParseBufferWith alloc (plainString alloc) data := by
  have not_large : ¬ intMax < data.length := Nat.not_lt.mpr small
  rw [vdfParseBuffer, vdfParseBufferWith_plain, Steam.vdfParseBuffer, if_neg not_large, if_neg not_large]
  refine Returns.ite (fun first => ?_) fun first => ?_
  · refine .pure ⟨Nat.zero_le _, ⟨fun _ => .inr ⟨0, Nat.one_pos, first⟩, fun _ => rfl⟩, by simp, ?_⟩
    rw [if_pos (.inl first)]
    exact ⟨rfl, rfl⟩
  refine Returns.ite (fun second => ?_) fun second => ?_
  · refine .pure ⟨Nat.zero_le _, ⟨fun _ => .inl rfl, fun _ => rfl⟩, by simp, ?_⟩
    rw [if_pos (.inr second)]
    exact ⟨rfl, rfl⟩
  rw [if_neg (not_or.mpr ⟨first, second⟩)]
  refine Returns.bind (parseEntries_start alloc data garbage enough) fun l parsed => ?_
  obtain ⟨view, deepest⟩ := parsed
  rw [← view]
  have later := parseEntriesWith_later (@loadString_later alloc) (data.length + 1)
    ⟨.none none, .root, ⟨skipMark data, false, false, 2⟩⟩
  rw [parseEntriesWith_loadString, ← view] at later
  have accounted : ∀ k < l.parser.attempts, alloc k = false → l.parser.error = true := by
    refine later.accounted fun k within failed => ?_
    have attempt : k = 0 ∨ k = 1 := by
      dsimp only at within
      omega
    rcases attempt with rfl | rfl
    · exact absurd failed first
    · exact absurd failed second
  have tree := @parseEntries_proper alloc (data.length + 1) ⟨.none none, .root, ⟨skipMark data, false, false, 2⟩⟩
    (List.forall_mem_nil _)
  rw [← view] at tree
  refine .pure ⟨deepest, ?_, ?_, rfl, rfl⟩
  · dsimp only
    cases failed : l.parser.error with
    | true => exact ⟨fun _ => .inl rfl, fun _ => rfl⟩
    | false =>
        refine ⟨by simp, ?_⟩
        rintro (wrong | ⟨k, within, not_made⟩)
        · cases wrong
        · exact absurd (accounted k within not_made) (failed ▸ Bool.false_ne_true)
  · intro root
    dsimp only
    cases l.parser.error with
    | true => simp
    | false =>
        rintro ⟨⟩
        exact tree

/-- A text that ends within a string. -/
theorem vdfParseBuffer_total_unterminated :
    Returns (vdfParseBuffer [97, 123, 98, 32, 34, 99] (fun _ => true) 38
        ⟨List.replicate vdfTokenSize 0, List.length_replicate⟩) fun run =>
      run.deepest ≤ vdfMaxDepth + 1 ∧
      (run.result = none ↔ run.error = true ∨ ∃ k < run.attempts, true = false) ∧
      (∀ root, run.result = some root → ∀ child ∈ root.children, child.Proper (vdfMaxDepth - 1)) ∧
      run.result = Steam.vdfParseBuffer (fun _ => true) [97, 123, 98, 32, 34, 99] ∧
      run.result = vdfParseBufferWith (fun _ => true) (plainString fun _ => true) [97, 123, 98, 32, 34, 99] :=
  vdfParseBuffer_total (fun _ => true) _ (by decide) _ 38 (by decide)

end VdfReader

end Yafsml.Steam
