import Yafsml.Process.ScannerPattern

/-! # The scan finds the first match -/

namespace Yafsml.Process

open LittleEndian SkipSearch

def PatternByte.Clean (p : PatternByte) : Prop := p.value &&& p.mask = p.value

theorem clean_pairByte (a b : Nibble) : (pairByte a b).Clean := by
  unfold PatternByte.Clean
  cases a with
  | none =>
      cases b with
      | none => decide
      | some w => revert w; decide
  | some v =>
      cases b with
      | none => revert v; decide
      | some w => revert v w; decide +kernel

theorem clean_loneByte (a : Nibble) : (loneByte a).Clean := by
  unfold PatternByte.Clean
  cases a with
  | none => decide
  | some v => revert v; decide

theorem clean_symbolBytes (symbols : List PatternSymbol) : ∀ p ∈ symbolBytes symbols, p.Clean := by
  fun_induction symbolBytes symbols with
  | case1 => simp
  | case2 rest ih => exact ih
  | case3 a => simp [clean_loneByte]
  | case4 a rest ih => simpa [clean_loneByte] using ih
  | case5 a b rest ih => simpa [clean_pairByte] using ih

/-! ## The table -/

theorem badDataStep_accepts {p : PatternByte} (clean : p.Clean) (bad : Byte → Int) (i : Nat) (c : Byte) :
    badDataStep bad (p, i) c = if p.accepts c then (i : Int) else bad c := by
  unfold badDataStep PatternByte.accepts
  unfold PatternByte.Clean at clean
  by_cases whole : p.mask = 0xFF
  · have every : c &&& 0xFF = c := BitVec.and_allOnes
    simp only [whole, if_true, Function.update_apply, every, decide_eq_true_eq]
  · simp only [whole, if_false, clean, decide_eq_true_eq, @eq_comm Byte p.value]

theorem noneBehind_badData (window : List PatternByte) (clean : ∀ p ∈ window, p.Clean) (c : Byte) :
    NoneBehind PatternByte.accepts window c (badDataHeuristic window c) := by
  induction window using List.reverseRecOn with
  | nil => exact ⟨le_rfl, by simp⟩
  | append_singleton front p ih =>
      have clean_front : ∀ q ∈ front, q.Clean := fun q among => clean q (List.mem_append_left _ among)
      have clean_last : p.Clean := clean p (List.mem_append_right _ List.mem_cons_self)
      obtain ⟨bound, behind⟩ := ih clean_front
      have table : badDataHeuristic (front ++ [p]) c
          = if p.accepts c then (front.length : Int) else badDataHeuristic front c := by
        unfold badDataHeuristic
        rw [List.zipIdx_append, List.foldl_append]
        simp only [List.zipIdx_cons, List.zipIdx_nil, List.foldl_cons, List.foldl_nil]
        rw [badDataStep_accepts clean_last, Nat.zero_add]
      rw [table]
      constructor
      · split_ifs <;> omega
      · intro k q at_k later
        rcases Nat.lt_or_ge k front.length with inside | beyond
        · rw [List.getElem?_append_left inside] at at_k
          split_ifs at later with accepted
          · omega
          · exact behind k q at_k later
        · have last := (List.getElem?_eq_some_iff.mp at_k).1
          rw [List.length_append, List.length_singleton] at last
          have here : k = front.length := by omega
          subst here
          rw [List.getElem?_concat_length, Option.some.injEq] at at_k
          subst at_k
          split_ifs at later with accepted
          · omega
          · simpa using accepted

/-! ## Looking at a position -/

abbrev Matches (pattern : List PatternByte) (data : List Byte) (s : Nat) : Prop :=
  MatchesAt PatternByte.accepts pattern data s

theorem maskedEqual_eq {data : List Byte} {s : Nat} {pattern : List PatternByte}
    (inside : s + pattern.length ≤ data.length) :
    ∃ equal, maskedEqual data s pattern = some equal ∧ (equal = true ↔ Matches pattern data s) := by
  induction pattern generalizing s with
  | nil =>
      refine ⟨true, rfl, ⟨fun _ => ⟨inside, by simp⟩, fun _ => rfl⟩⟩
  | cons p rest ih =>
      rw [List.length_cons] at inside
      have at_text := List.getElem?_eq_getElem (show s < data.length by omega)
      rw [maskedEqual, at_text, Option.bind_eq_bind, Option.bind_some]
      cases accepted : p.accepts data[s] with
      | false =>
          refine ⟨false, rfl, ?_⟩
          have unmatched : ¬ Matches (p :: rest) data s := not_matchesAt (j := 0) rfl at_text accepted
          simpa using unmatched
      | true =>
          obtain ⟨equal, compared, right⟩ := ih (show s + 1 + rest.length ≤ data.length by omega)
          refine ⟨equal, compared, right.trans ?_⟩
          constructor
          · rintro ⟨-, rest_matches⟩
            refine ⟨inside, fun i q a at_i at_data => ?_⟩
            cases i with
            | zero =>
                rw [List.getElem?_cons_zero, Option.some.injEq] at at_i
                rw [Nat.add_zero, at_text, Option.some.injEq] at at_data
                rw [← at_i, ← at_data]
                exact accepted
            | succ i =>
                apply rest_matches i q a at_i
                rw [← at_data]
                congr 1
                omega
          · rintro ⟨-, matched⟩
            refine ⟨by omega, fun i q a at_i at_data => matched (i + 1) q a at_i ?_⟩
            rw [← at_data]
            congr 1
            omega

theorem lastMismatch_eq {data : List Byte} {text : Nat} {window : List PatternByte} {size : Nat}
    (inside : text + size ≤ data.length) (within : size ≤ window.length) :
    (∃ j c p, lastMismatch data text window size = some (some (j, c)) ∧ j < size ∧ data[text + j]? = some c ∧
      window[j]? = some p ∧ p.accepts c = false) ∨
    lastMismatch data text window size = some none := by
  induction size with
  | zero => exact Or.inr rfl
  | succ j ih =>
      have at_text := List.getElem?_eq_getElem (show text + j < data.length by omega)
      have at_window := List.getElem?_eq_getElem (show j < window.length by omega)
      rw [lastMismatch, at_text, at_window]
      simp only [Option.bind_eq_bind, Option.bind_some]
      cases accepted : window[j].accepts data[text + j] with
      | false => exact Or.inl ⟨j, _, _, rfl, Nat.lt_succ_self j, at_text, at_window, accepted⟩
      | true =>
          rcases ih (by omega) (by omega) with ⟨j', c, p, found, below, rest⟩ | none
          · exact Or.inl ⟨j', c, p, found, by omega, rest⟩
          · exact Or.inr none

theorem windowLook_safe {data : List Byte} {pattern : List PatternByte} {start size s last : Nat}
    (clean : ∀ p ∈ pattern, p.Clean) (within : start + size ≤ pattern.length)
    (inside : s + pattern.length ≤ data.length) (reached : s ≤ last) :
    Safe (fun s => s ≤ last ∧ Matches pattern data s) s
      (windowLook data pattern ((pattern.drop start).take size) start s) := by
  have length : ((pattern.drop start).take size).length = size := by
    rw [List.length_take, List.length_drop]
    omega
  have clean_window : ∀ p ∈ (pattern.drop start).take size, p.Clean := fun p among =>
    clean p (List.mem_of_mem_drop (List.mem_of_mem_take among))
  unfold windowLook
  rw [length]
  rcases lastMismatch_eq (show s + start + size ≤ data.length by omega) length.ge
    with ⟨j, c, p, found, below, at_text, at_window, rejected⟩ | none
  · rw [found]
    apply Safe.skip
    · omega
    · rintro s' later before ⟨-, matched⟩
      have at_pattern : pattern[start + j]? = some p := by
        rw [List.getElem?_take_of_lt below, List.getElem?_drop] at at_window
        exact at_window
      rcases Nat.eq_or_lt_of_le later with rfl | later
      · rw [Nat.add_assoc] at at_text
        exact not_matchesAt at_pattern at_text rejected matched
      · exact shift_fails within below at_text (noneBehind_badData _ clean_window c) later before matched
  · rw [none]
    obtain ⟨equal, compared, right⟩ := maskedEqual_eq inside
    simp only [Option.bind_eq_bind, Option.bind_some, compared]
    cases equal with
    | true => exact Safe.found ⟨reached, right.mp rfl⟩
    | false =>
        apply Safe.skip Nat.one_pos
        rintro s' later before ⟨-, matched⟩
        obtain rfl : s' = s := by omega
        exact Bool.false_ne_true (right.mpr matched)

theorem sigScanWindow_finds {data : List Byte} {pattern : List PatternByte} {dataSize start size : Nat}
    (clean : ∀ p ∈ pattern, p.Clean) (within : start + size ≤ pattern.length)
    (fits : pattern.length ≤ dataSize) (inside : dataSize ≤ data.length) :
    ∃ r, sigScanWindow data dataSize pattern start size = some r ∧
      Finds (fun s => s ≤ dataSize - pattern.length ∧ Matches pattern data s) r := by
  apply skipSearch_finds
  · intro s reached
    exact windowLook_safe clean within (by omega) reached
  · intro s holds
    exact holds.1
  · omega
  · intro s before
    exact (Nat.not_lt_zero s before).elim

/-! ## Choosing the window -/

theorem fixedRunStep_bounds {r : FixedRun} {p : PatternByte} {i : Nat} (run : r.run ≤ i)
    (start : r.start + r.best ≤ i) :
    (fixedRunStep r (p, i)).run ≤ i + 1 ∧
      (fixedRunStep r (p, i)).start + (fixedRunStep r (p, i)).best ≤ i + 1 := by
  unfold fixedRunStep
  simp only
  split_ifs <;> simp only <;> omega

theorem longestFixedRun_bounds (pattern : List PatternByte) :
    (longestFixedRun pattern).run ≤ pattern.length ∧
      (longestFixedRun pattern).start + (longestFixedRun pattern).best ≤ pattern.length := by
  induction pattern using List.reverseRecOn with
  | nil => exact ⟨le_rfl, le_rfl⟩
  | append_singleton front p ih =>
      have step : longestFixedRun (front ++ [p]) = fixedRunStep (longestFixedRun front) (p, front.length) := by
        unfold longestFixedRun
        rw [List.zipIdx_append, List.foldl_append, Nat.zero_add]
        rfl
      rw [step, List.length_append, List.length_singleton]
      exact fixedRunStep_bounds ih.1 ih.2

theorem fixedLength_spec (pattern : List PatternByte) (n : Nat) :
    fixedLength pattern n ≤ n ∧
      ∀ k p, fixedLength pattern n ≤ k → k < n → pattern[k]? = some p → p.mask = 0 := by
  induction n with
  | zero => exact ⟨le_rfl, fun k p _ below => (Nat.not_lt_zero k below).elim⟩
  | succ n ih =>
      rw [fixedLength]
      split_ifs with wild
      · refine ⟨ih.1.trans (Nat.le_succ n), fun k p from_fixed below at_k => ?_⟩
        rcases Nat.lt_succ_iff_lt_or_eq.mp below with earlier | rfl
        · exact ih.2 k p from_fixed earlier at_k
        · rw [at_k] at wild
          simpa using wild
      · exact ⟨le_rfl, fun k p from_fixed below => by omega⟩

theorem accepts_wildcard {p : PatternByte} (clean : p.Clean) (wild : p.mask = 0) (c : Byte) :
    p.accepts c = true := by
  unfold PatternByte.Clean at clean
  unfold PatternByte.accepts
  have value : p.value = 0#8 := by
    rw [← clean, wild]
    exact BitVec.and_zero
  have none : c &&& 0#8 = 0#8 := BitVec.and_zero
  rw [wild, value]
  exact decide_eq_true none

theorem matches_take_iff {pattern : List PatternByte} {data : List Byte} {fixed s : Nat}
    (clean : ∀ p ∈ pattern, p.Clean) (fits : pattern.length ≤ data.length) (short : fixed ≤ pattern.length)
    (wild : ∀ k p, fixed ≤ k → k < pattern.length → pattern[k]? = some p → p.mask = 0) :
    (s ≤ data.length - (pattern.length - fixed) - fixed ∧ Matches (pattern.take fixed) data s)
      ↔ Matches pattern data s := by
  have length : (pattern.take fixed).length = fixed := by
    rw [List.length_take]
    omega
  constructor
  · rintro ⟨room, -, matched⟩
    refine ⟨by omega, fun i p a at_i at_text => ?_⟩
    rcases Nat.lt_or_ge i fixed with front | back
    · apply matched i p a _ at_text
      rw [List.getElem?_take_of_lt front]
      exact at_i
    · have below := (List.getElem?_eq_some_iff.mp at_i).1
      exact accepts_wildcard (clean p (List.mem_of_getElem? at_i)) (wild i p back below at_i) a
  · rintro ⟨room, matched⟩
    refine ⟨by omega, by rw [length]; omega, fun i p a at_i at_text => matched i p a ?_ at_text⟩
    have front : i < fixed := by
      have := (List.getElem?_eq_some_iff.mp at_i).1
      omega
    rw [List.getElem?_take_of_lt front] at at_i
    exact at_i

theorem sigScanPattern_finds (data : List Byte) {pattern : List PatternByte} (clean : ∀ p ∈ pattern, p.Clean) :
    ∃ r, sigScanPattern data pattern = some r ∧ Finds (fun s => pattern ≠ [] ∧ Matches pattern data s) r := by
  unfold sigScanPattern
  split_ifs with small
  · refine ⟨none, rfl, finds_none ?_⟩
    rintro s ⟨nonempty, matched⟩
    have positive := List.length_pos_of_ne_nil nonempty
    have := matched.1
    omega
  · obtain ⟨positive, fits⟩ := not_or.mp small
    have nonempty : pattern ≠ [] := fun empty => positive (by rw [empty]; rfl)
    obtain ⟨short, wild⟩ := fixedLength_spec pattern pattern.length
    have same := fun s => matches_take_iff (s := s) clean (Nat.not_lt.mp fits) short wild
    have nonempty_same (s : Nat) : Matches pattern data s ↔ pattern ≠ [] ∧ Matches pattern data s :=
      (and_iff_right nonempty).symm
    simp only
    generalize fixedLength pattern pattern.length = fixed at *
    have length : (pattern.take fixed).length = fixed := by
      rw [List.length_take]
      omega
    have clean_front : ∀ p ∈ pattern.take fixed, p.Clean := fun p among => clean p (List.mem_of_mem_take among)
    have bounds := (longestFixedRun_bounds (pattern.take fixed)).2
    have window (start size : Nat) (within : start + size ≤ fixed) :
        ∃ r, sigScanWindow data (data.length - (pattern.length - fixed)) (pattern.take fixed) start size
          = some r ∧ Finds (fun s => pattern ≠ [] ∧ Matches pattern data s) r := by
      have room : (pattern.take fixed).length ≤ data.length - (pattern.length - fixed) := by omega
      obtain ⟨r, scanned, finds⟩ := sigScanWindow_finds clean_front (by rw [length]; exact within) room
        (Nat.sub_le _ _)
      rw [length] at finds
      exact ⟨r, scanned, finds.congr fun s => (same s).trans (nonempty_same s)⟩
    split_ifs with all_wild no_run
    · refine ⟨some 0, rfl, finds_some ⟨⟨nonempty, ?_⟩, fun s _ => Nat.zero_le s⟩⟩
      apply (same 0).mp
      rw [all_wild]
      exact ⟨Nat.zero_le _, by simp, by simp⟩
    · exact window 0 fixed (by omega)
    · exact window _ _ (by rw [length] at bounds; exact bounds)

/-! ## The whole scan -/

theorem meaning_eq (pattern : List Byte) :
    meaning [] none pattern = match patternBytes pattern with
      | none => .error .malformed
      | some bytes => .ok bytes := by
  unfold meaning patternBytes
  cases (pattern.takeWhile (· ≠ 0)).mapM symbolOf with
  | none => rfl
  | some symbols => rfl

theorem clean_patternBytes {pattern : List Byte} {bytes : List PatternByte}
    (parsed : patternBytes pattern = some bytes) : ∀ p ∈ bytes, p.Clean := by
  obtain ⟨symbols, -, rfl⟩ := Option.map_eq_some_iff.mp parsed
  exact clean_symbolBytes symbols

theorem sigScan_eq (data pattern : List Byte) :
    sigScan data pattern = match patternBytes pattern with
      | none => some none
      | some bytes => sigScanPattern data bytes := by
  unfold sigScan
  rw [growPattern_eq (by decide) (by omega), meaning_eq]
  cases patternBytes pattern <;> rfl

/-- The scan never reads outside the data and returns the first match, if the pattern has a byte at all. -/
theorem sigScan_first (data pattern : List Byte) :
    ∃ r, sigScan data pattern = some r ∧
      (r = none ↔ patternBytes pattern = none ∨
        ∃ bytes, patternBytes pattern = some bytes ∧ (bytes = [] ∨ ∀ s, ¬ Matches bytes data s)) ∧
      ∀ s, r = some s ↔ ∃ bytes, patternBytes pattern = some bytes ∧ bytes ≠ [] ∧ Matches bytes data s ∧
        ∀ s' < s, ¬ Matches bytes data s' := by
  rw [sigScan_eq]
  cases parsed : patternBytes pattern with
  | none => exact ⟨none, rfl, by simp, by simp⟩
  | some bytes =>
      obtain ⟨r, scanned, finds⟩ := sigScanPattern_finds data (clean_patternBytes parsed)
      refine ⟨r, scanned, finds.eq_none_iff.trans ?_, fun s => (finds s).trans ?_⟩
      · simp only [reduceCtorEq, Option.some.injEq, exists_eq_left', false_or, not_and]
        rw [← forall_comm, imp_iff_not_or, not_not]
      · simp only [Option.some.injEq, exists_eq_left']
        constructor
        · rintro ⟨⟨nonempty, matched⟩, least⟩
          exact ⟨nonempty, matched, fun s' before matched' => Nat.not_lt.mpr (least ⟨nonempty, matched'⟩) before⟩
        · rintro ⟨nonempty, matched, first⟩
          refine ⟨⟨nonempty, matched⟩, fun s' holds => ?_⟩
          exact Nat.not_lt.mp fun before => first s' before holds.2

/-- A pattern of blanks only is treated as an empty one. -/
theorem sigScan_blanks :
    patternBytes [32#8] = some [] ∧ Matches [] [1#8] 0 ∧ sigScan [1#8] [32#8] = some none :=
  ⟨by decide, ⟨by decide, by simp⟩, by decide⟩

/-- `?4 4? ??` against a text where it first matches at the second place. -/
example : sigScan [0x15, 0x44, 0x40, 0x44] [63, 52, 32, 52, 63, 32, 63, 63] = some (some 1) := by decide

end Yafsml.Process
