import Mathlib.Order.Bounds.Basic
import Mathlib.Data.List.Basic
import Mathlib.Data.Nat.Find

/-! # Search with shifts

A search for the first position that looks at a position and is then told how far to go on. It misses
nothing as long as every position that it passes over fails. -/

namespace Yafsml.SkipSearch

inductive Verdict where
  | found
  | skip (distance : Nat)
  deriving DecidableEq, Repr

/-- `look` is `none` where it cannot look. -/
def skipSearch (look : Nat → Option Verdict) (last : Nat) : Nat → Nat → Option (Option Nat)
  | 0, _ => none
  | fuel + 1, s =>
      if last < s then some none
      else
        match look s with
        | none => none
        | some .found => some (some s)
        | some (.skip distance) => skipSearch look last fuel (s + distance)

def Finds (Q : Nat → Prop) (r : Option Nat) : Prop := ∀ s, r = some s ↔ IsLeast {s | Q s} s

theorem Finds.eq_none_iff {Q : Nat → Prop} {r : Option Nat} (finds : Finds Q r) : r = none ↔ ∀ s, ¬ Q s := by
  constructor
  · intro missing s holds
    classical
    have least : IsLeast {s | Q s} (Nat.find ⟨s, holds⟩) :=
      ⟨Nat.find_spec ⟨s, holds⟩, fun s' holds' => Nat.find_min' _ holds'⟩
    rw [missing] at finds
    cases (finds _).mpr least
  · intro never
    cases r with
    | none => rfl
    | some s => exact (never s ((finds s).mp rfl).1).elim

theorem Finds.congr {Q Q' : Nat → Prop} {r : Option Nat} (same : ∀ s, Q s ↔ Q' s) (finds : Finds Q r) :
    Finds Q' r := by
  have equal : Q = Q' := funext fun s => propext (same s)
  rwa [← equal]

theorem finds_none {Q : Nat → Prop} (never : ∀ s, ¬ Q s) : Finds Q none := by
  intro s
  constructor
  · intro found
    cases found
  · intro least
    exact (never s least.1).elim

theorem finds_some {Q : Nat → Prop} {s : Nat} (least : IsLeast {s | Q s} s) : Finds Q (some s) := by
  intro s'
  constructor
  · rintro ⟨⟩
    exact least
  · intro least'
    rw [least.unique least']

inductive Safe (Q : Nat → Prop) (s : Nat) : Option Verdict → Prop
  | found (holds : Q s) : Safe Q s (some .found)
  | skip {distance : Nat} (forward : 0 < distance) (fails : ∀ s', s ≤ s' → s' < s + distance → ¬ Q s') :
      Safe Q s (some (.skip distance))

theorem skipSearch_finds {Q : Nat → Prop} {look : Nat → Option Verdict} {last : Nat}
    (safe : ∀ s ≤ last, Safe Q s (look s)) (bounded : ∀ s, Q s → s ≤ last) {fuel s : Nat}
    (enough : last + 1 - s < fuel) (passed : ∀ s' < s, ¬ Q s') :
    ∃ r, skipSearch look last fuel s = some r ∧ Finds Q r := by
  induction fuel generalizing s with
  | zero => cases Nat.not_lt_zero _ enough
  | succ fuel ih =>
      rw [skipSearch]
      split_ifs with isOver
      · refine ⟨none, rfl, finds_none fun s' holds => ?_⟩
        exact passed s' (Nat.lt_of_le_of_lt (bounded s' holds) isOver) holds
      · cases seen : look s with
        | none =>
            have := safe s (Nat.not_lt.mp isOver)
            rw [seen] at this
            cases this
        | some verdict =>
            have right := safe s (Nat.not_lt.mp isOver)
            rw [seen] at right
            cases right with
            | found holds =>
                refine ⟨some s, rfl, finds_some ⟨holds, fun s' holds' => ?_⟩⟩
                exact Nat.not_lt.mp fun earlier => passed s' earlier holds'
            | skip forward fails =>
                apply ih (by omega)
                intro s' before holds
                rcases Nat.lt_or_ge s' s with earlier | later
                · exact passed s' earlier holds
                · exact fails s' later before holds

section Patterns

variable {P A : Type*} (accepts : P → A → Bool)

def MatchesAt (pattern : List P) (text : List A) (s : Nat) : Prop :=
  s + pattern.length ≤ text.length ∧
    ∀ i p a, pattern[i]? = some p → text[s + i]? = some a → accepts p a = true

/-- No place of the pattern behind `last` accepts `a`. -/
def NoneBehind (pattern : List P) (a : A) (last : Int) : Prop :=
  -1 ≤ last ∧ ∀ (k : Nat) (p : P), pattern[k]? = some p → last < k → accepts p a = false

variable {accepts} {pattern : List P} {text : List A} {s window size j : Nat} {a : A} {last : Int}

theorem not_matchesAt {p : P} (at_pattern : pattern[j]? = some p) (at_text : text[s + j]? = some a)
    (rejected : accepts p a = false) : ¬ MatchesAt accepts pattern text s := by
  intro found
  rw [found.2 j p a at_pattern at_text] at rejected
  cases rejected

theorem shift_fails (inside : window + size ≤ pattern.length) (below : j < size)
    (at_text : text[s + window + j]? = some a)
    (behind : NoneBehind accepts ((pattern.drop window).take size) a last) {s' : Nat} (later : s < s')
    (before : s' < s + (max 1 ((j : Int) - last)).toNat) : ¬ MatchesAt accepts pattern text s' := by
  obtain ⟨bound, rejects⟩ := behind
  have within : window + (j - (s' - s)) < pattern.length := by omega
  have at_pattern := List.getElem?_eq_getElem within
  have at_text' : text[s' + (window + (j - (s' - s)))]? = some a := by
    rw [← at_text]
    congr 1
    omega
  apply not_matchesAt at_pattern at_text'
  apply rejects (j - (s' - s))
  · rw [List.getElem?_take_of_lt (by omega), List.getElem?_drop, at_pattern]
  · omega

end Patterns

end Yafsml.SkipSearch
