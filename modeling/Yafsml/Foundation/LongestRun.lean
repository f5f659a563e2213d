import Mathlib.Algebra.Group.Nat.Even
import Mathlib.Data.Nat.Find
import Mathlib.Order.Basic

/-!
# The longest rising run of an array

A one-pass scan counts the good entries with rising keys and keeps the best run so far. Here the
scan drops the entry that breaks the order, so that the next run starts one entry later.
-/

namespace Yafsml.LongestRun

variable {β : Type*} [Preorder β] (good : Nat → Prop) (key : Nat → β)

/-- The `length` entries from `start` on are good, and their keys rise. -/
structure Block (start length : Nat) : Prop where
  good : ∀ i, start ≤ i → i < start + length → good i
  rising : ∀ i j, start ≤ i → i < j → j < start + length → key i < key j

/-- The first longest block of the first `count` entries. -/
structure FirstLongest (count start length : Nat) : Prop where
  nonempty : 0 < length
  inside : start + length ≤ count
  block : Block good key start length
  longest : ∀ start' length', Block good key start' length' → start' + length' ≤ count →
    length' ≤ length
  first : ∀ start', Block good key start' length → start' + length ≤ count → start ≤ start'

/-- A scan's answer is right: the first longest block, or none when no entry is good. -/
def Right (count length : Nat) : Option Nat → Prop
  | none => length = 0 ∧ ∀ i < count, ¬ good i
  | some start => FirstLongest good key count start length

section Scan

variable [DecidablePred good] [DecidableLT β]

/-- The good entries directly before entry `i` that run down to it: each has a good successor with a
key that is not above its own. -/
def breaksBefore : Nat → Nat
  | 0 => 0
  | i + 1 => if good i ∧ good (i + 1) ∧ ¬ key i < key (i + 1) then breaksBefore i + 1 else 0

/-- The length of the scan's run after the first `i` entries. -/
def runLength : Nat → Nat
  | 0 => 0
  | i + 1 => if good i ∧ (runLength i = 0 ∨ key (i - 1) < key i) then runLength i + 1 else 0

/-- The best run's length after the first `i` entries, and its start. -/
def bestRun : Nat → Nat × Option Nat
  | 0 => (0, none)
  | i + 1 =>
      if (bestRun i).1 < runLength good key (i + 1) then
        (runLength good key (i + 1), some (i + 1 - runLength good key (i + 1)))
      else bestRun i

end Scan

variable {good key}

namespace Block

variable {start length : Nat}

theorem snoc (block : Block good key start length) (last : good (start + length))
    (above : length ≠ 0 → key (start + length - 1) < key (start + length)) :
    Block good key start (length + 1) := by
  refine ⟨fun i low high => ?_, fun i j low less high => ?_⟩
  · by_cases inside : i < start + length
    · exact block.good i low inside
    · obtain rfl : i = start + length := by omega
      exact last
  · by_cases inside : j < start + length
    · exact block.rising i j low less inside
    · obtain rfl : j = start + length := by omega
      have final := above (by omega)
      by_cases same : i = start + length - 1
      · rwa [same]
      · exact (block.rising i (start + length - 1) low (by omega) (by omega)).trans final

theorem extend (block : Block good key (start + 1) length) (before : good start) (below : key start < key (start + 1)) :
    Block good key start (length + 1) := by
  refine ⟨fun i low high => ?_, fun i j low less high => ?_⟩
  · rcases Nat.eq_or_lt_of_le low with rfl | later
    · exact before
    · exact block.good i later (by omega)
  · rcases Nat.eq_or_lt_of_le low with rfl | later
    · rcases Nat.eq_or_lt_of_le (show start + 1 ≤ j from less) with rfl | further
      · exact below
      · exact below.trans (block.rising (start + 1) j (Nat.le_refl _) further (by omega))
    · exact block.rising i j later less (by omega)

end Block

theorem FirstLongest.unique {count start length start' length' : Nat}
    (one : FirstLongest good key count start length)
    (other : FirstLongest good key count start' length') : start = start' ∧ length = length' := by
  have same : length = length' := Nat.le_antisymm
    (other.longest start length one.block one.inside)
    (one.longest start' length' other.block other.inside)
  subst same
  exact ⟨Nat.le_antisymm (one.first start' other.block other.inside)
    (other.first start one.block one.inside), rfl⟩

variable (key) in
theorem exists_firstLongest {count i : Nat} (inside : i < count) (here : good i) :
    ∃ start length, FirstLongest good key count start length := by
  classical
  let Has : Nat → Prop := fun n => ∃ start, Block good key start n ∧ start + n ≤ count
  have single : Has 1 := ⟨i, ⟨fun j low high => by rwa [show j = i by omega],
    fun j k low less high => by omega⟩, by omega⟩
  have most : Has (Nat.findGreatest Has count) := Nat.findGreatest_spec (by omega) single
  refine ⟨Nat.find most, Nat.findGreatest Has count, ?_⟩
  obtain ⟨block, fits⟩ := Nat.find_spec most
  refine ⟨Nat.le_findGreatest (by omega) single, fits, block, ?_, ?_⟩
  · intro start' length' block' fits'
    exact Nat.le_findGreatest (by omega) ⟨start', block', fits'⟩
  · intro start' block' fits'
    exact Nat.find_min' most ⟨block', fits'⟩

theorem FirstLongest.fresh {count start length : Nat}
    (longest : FirstLongest good key count start length) (later : 0 < start)
    (before : good (start - 1)) : ¬ key (start - 1) < key start := by
  obtain ⟨earlier, rfl⟩ : ∃ earlier, start = earlier + 1 := ⟨start - 1, by omega⟩
  rw [Nat.add_sub_cancel] at before ⊢
  intro below
  have inside := longest.inside
  have longer := longest.longest earlier (length + 1) (longest.block.extend before below) (by omega)
  omega

section Scan

variable (good key) [DecidablePred good] [DecidableLT β]

theorem runLength_le (i : Nat) : runLength good key i ≤ i := by
  induction i with
  | zero => rfl
  | succ i ih =>
      rw [runLength]
      split
      · omega
      · omega

theorem runLength_block (i : Nat) :
    Block good key (i - runLength good key i) (runLength good key i) := by
  induction i with
  | zero => exact ⟨fun i _ high => absurd high (by simp [runLength]),
      fun i j _ _ high => absurd high (by simp [runLength])⟩
  | succ i ih =>
      have inside := runLength_le good key i
      rw [runLength]
      split
      · rename_i counted
        rw [show i + 1 - (runLength good key i + 1) = i - runLength good key i by omega]
        have final : i - runLength good key i + runLength good key i = i := by omega
        apply ih.snoc
        · rw [final]
          exact counted.1
        · intro running
          rw [final]
          exact counted.2.resolve_left running
      · exact ⟨fun j low high => by omega, fun j k low less high => by omega⟩

theorem runLength_back {i length : Nat} (ends : runLength good key i = length) :
    ∀ k ≤ length, runLength good key (i - k) = length - k := by
  intro k
  induction k with
  | zero => intro _; simpa using ends
  | succ k ih =>
      intro fits
      have here := ih (by omega)
      have inside := runLength_le good key (i - k)
      obtain ⟨j, counter⟩ : ∃ j, i - k = j + 1 := ⟨i - k - 1, by omega⟩
      rw [counter, runLength] at here
      rw [show i - (k + 1) = j by omega]
      split at here
      · omega
      · omega

theorem runLength_pos_iff (i : Nat) :
    0 < runLength good key (i + 1) ↔ good i ∧ Even (breaksBefore good key i) := by
  induction i with
  | zero => by_cases here : good 0 <;> simp [runLength, breaksBefore, here]
  | succ i ih =>
      rw [runLength, breaksBefore, Nat.add_sub_cancel]
      by_cases here : good (i + 1)
      · by_cases before : good i
        · by_cases above : key i < key (i + 1)
          · simp [here, above]
          · have counted : runLength good key (i + 1) = 0 ↔ ¬ Even (breaksBefore good key i) := by
              rw [← Nat.le_zero, ← Nat.not_lt, ih]
              simp [before]
            by_cases even : Even (breaksBefore good key i)
            · simp [here, before, above, Nat.even_add_one, counted, even]
            · simp [here, before, above, Nat.even_add_one, counted.mpr even, even]
        · have outside : runLength good key (i + 1) = 0 := by
            rw [runLength, if_neg fun counted => before counted.1]
          simp [here, before, outside]
      · simp [here]

theorem runLength_full {start length : Nat} (block : Block good key start length)
    (counted : Even (breaksBefore good key start))
    (fresh : 0 < start → good (start - 1) → ¬ key (start - 1) < key start) (k : Nat)
    (fits : k + 1 ≤ length) : runLength good key (start + (k + 1)) = k + 1 := by
  induction k with
  | zero =>
      have here : good start := block.good start (Nat.le_refl _) (by omega)
      have positive := (runLength_pos_iff good key start).mpr ⟨here, counted⟩
      show runLength good key (start + 1) = 1
      rw [runLength] at positive ⊢
      split at positive
      · rename_i entered
        rw [if_pos entered]
        rcases entered.2 with alone | above
        · rw [alone]
        · -- the entry before is not in the run, as the block does not start there
          by_contra running
          obtain ⟨j, rfl⟩ : ∃ j, start = j + 1 := by
            cases start with
            | zero => exact absurd rfl running
            | succ j => exact ⟨j, rfl⟩
          have previous : 0 < runLength good key (j + 1) := by omega
          exact fresh (by omega) ((runLength_pos_iff good key j).mp previous).1 above
      · omega
  | succ k ih =>
      have before := ih (by omega)
      rw [show start + (k + 1 + 1) = start + (k + 1) + 1 by omega, runLength, before,
        if_pos ⟨block.good _ (by omega) (by omega),
          .inr (block.rising _ _ (by omega) (by omega) (by omega))⟩]

/-- The best run after `i` entries: none was seen, or the first run of the greatest length. -/
theorem bestRun_spec (i : Nat) :
    (bestRun good key i = (0, none) ∧ ∀ j ≤ i, runLength good key j = 0) ∨
    ∃ stop ≤ i, 0 < runLength good key stop ∧
      bestRun good key i =
        (runLength good key stop, some (stop - runLength good key stop)) ∧
      (∀ j < stop, runLength good key j < runLength good key stop) ∧
      ∀ j ≤ i, runLength good key j ≤ runLength good key stop := by
  induction i with
  | zero =>
      left
      refine ⟨rfl, fun j low => ?_⟩
      rw [Nat.le_zero.mp low, runLength]
  | succ i ih =>
      rw [bestRun]
      rcases ih with ⟨best, none_seen⟩ | ⟨stop, low, positive, best, first, most⟩
      · rw [best]
        by_cases longer : 0 < runLength good key (i + 1)
        · right
          rw [if_pos longer]
          refine ⟨i + 1, Nat.le_refl _, longer, rfl, fun j below => ?_, fun j below => ?_⟩
          · rwa [none_seen j (by omega)]
          · rcases Nat.lt_or_eq_of_le below with earlier | rfl
            · rw [none_seen j (by omega)]
              omega
            · exact Nat.le_refl _
        · left
          rw [if_neg longer]
          refine ⟨rfl, fun j below => ?_⟩
          rcases Nat.lt_or_eq_of_le below with earlier | rfl
          · exact none_seen j (by omega)
          · exact Nat.eq_zero_of_not_pos longer
      · right
        rw [best]
        by_cases longer : runLength good key stop < runLength good key (i + 1)
        · rw [if_pos longer]
          refine ⟨i + 1, Nat.le_refl _, by omega, rfl, fun j below => ?_, fun j below => ?_⟩
          · exact (most j (by omega)).trans_lt longer
          · rcases Nat.lt_or_eq_of_le below with earlier | rfl
            · exact ((most j (by omega)).trans_lt longer).le
            · exact Nat.le_refl _
        · rw [if_neg longer]
          refine ⟨stop, by omega, positive, rfl, first, fun j below => ?_⟩
          rcases Nat.lt_or_eq_of_le below with earlier | rfl
          · exact most j (by omega)
          · omega

/-- The scan is right exactly when the first longest block has an even number of entries running
down to its first one. -/
theorem bestRun_right_iff (count : Nat) :
    Right good key count (bestRun good key count).1 (bestRun good key count).2 ↔
      ∀ start length, FirstLongest good key count start length →
        Even (breaksBefore good key start) := by
  rcases bestRun_spec good key count with
    ⟨best, none_seen⟩ | ⟨stop, low, positive, best, first, most⟩
  · rw [best]
    have no_good : ∀ i < count, ¬ good i := by
      intro i
      induction i using Nat.strong_induction_on with
      | _ i ih =>
          intro below here
          have uncounted := none_seen (i + 1) below
          refine absurd ((runLength_pos_iff good key i).mpr ⟨here, ?_⟩) (by omega)
          cases i with
          | zero => exact Even.zero
          | succ i =>
              have before := ih i (by omega) (by omega)
              rw [breaksBefore, if_neg fun breaks => before breaks.1]
              exact Even.zero
    refine ⟨fun _ start length longest => ?_, fun _ => ⟨rfl, no_good⟩⟩
    have inside := longest.inside
    have nonempty := longest.nonempty
    exact absurd (longest.block.good start (Nat.le_refl _) (by omega)) (no_good start (by omega))
  · rw [best]
    have within := runLength_le good key stop
    constructor
    · intro right start length longest
      obtain ⟨rfl, rfl⟩ := longest.unique right
      have back := runLength_back good key (show runLength good key stop = _ from rfl)
        (runLength good key stop - 1) (Nat.sub_le _ _)
      have counted : 0 < runLength good key (stop - runLength good key stop + 1) := by
        rw [show stop - runLength good key stop + 1 = stop - (runLength good key stop - 1) by omega,
          back]
        omega
      exact ((runLength_pos_iff good key _).mp counted).2
    · intro even
      have found := runLength_block good key stop
      obtain ⟨start, length, longest⟩ := exists_firstLongest key
        (show stop - runLength good key stop < count by omega)
        (found.good _ (Nat.le_refl _) (by omega))
      have nonempty := longest.nonempty
      have inside := longest.inside
      have full := runLength_full good key longest.block (even start length longest) longest.fresh
        (length - 1) (by omega)
      rw [show length - 1 + 1 = length by omega] at full
      have most' := most (start + length) inside
      have upper := longest.longest _ _ found (by omega)
      have same : runLength good key stop = length := by omega
      have not_later : stop ≤ start + length := by
        by_contra later
        have shorter := first (start + length) (by omega)
        omega
      have not_earlier := longest.first _ (same ▸ found) (by omega)
      show FirstLongest good key count (stop - runLength good key stop) (runLength good key stop)
      rw [same, show stop - length = start by omega]
      exact longest

end Scan

end Yafsml.LongestRun
