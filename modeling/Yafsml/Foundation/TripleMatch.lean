import Mathlib.Algebra.Group.Nat.Even
import Mathlib.Data.List.Induction

/-!
# Three items in a row

A scanner that remembers something of the first item of a match, and that drops the item on which a
match fails without looking whether a match starts there.
-/

namespace Yafsml.TripleMatch

variable {α κ : Type*}

/-- The three tests; an item that starts a match neither continues nor ends one. -/
structure Pattern (α κ : Type*) where
  starts : α → Option κ
  continues : κ → α → Bool
  ends : κ → α → Bool
  apart : ∀ a k k', starts a = some k → continues k' a = false ∧ ends k' a = false

inductive State (κ : Type*)
  | search
  | started (k : κ)
  | continued (k : κ)
  | found
  deriving DecidableEq, Repr

variable (pattern : Pattern α κ)

def step : State κ → α → State κ
  | .search, a =>
      match pattern.starts a with
      | some k => .started k
      | none => .search
  | .started k, a => if pattern.continues k a then .continued k else .search
  | .continued k, a => if pattern.ends k a then .found else .search
  | .found, _ => .found

def run (state : State κ) (items : List α) : State κ := items.foldl (step pattern) state

/-- A match after `before`. -/
def MatchAfter (items before : List α) : Prop :=
  ∃ a b c after k, items = before ++ a :: b :: c :: after ∧ pattern.starts a = some k ∧
    pattern.continues k b = true ∧ pattern.ends k c = true

/-- The starts of matches directly in front of an item, the last of the items before it first: a first
item, or a first and a second one. -/
def unfinished : List α → Nat
  | [] => 0
  | [b] => if (pattern.starts b).isSome then 1 else 0
  | b :: a :: rest =>
      if (pattern.starts b).isSome then unfinished (a :: rest) + 1
      else
        match pattern.starts a with
        | some k => if pattern.continues k b then unfinished rest + 1 else 0
        | none => 0

variable {pattern}

section Step

variable {a : α} {k : κ}

theorem step_start (start : pattern.starts a = some k) : step pattern .search a = .started k := by
  simp [step, start]

theorem step_wait (other : pattern.starts a = none) : step pattern .search a = .search := by
  simp [step, other]

theorem step_continue (second : pattern.continues k a = true) :
    step pattern (.started k) a = .continued k := by
  simp [step, second]

theorem step_break (other : pattern.continues k a = false) : step pattern (.started k) a = .search := by
  simp [step, other]

theorem step_end (third : pattern.ends k a = true) : step pattern (.continued k) a = .found := by
  simp [step, third]

theorem step_fail (other : pattern.ends k a = false) : step pattern (.continued k) a = .search := by
  simp [step, other]

end Step

theorem run_append (state : State κ) (items more : List α) :
    run pattern state (items ++ more) = run pattern (run pattern state items) more :=
  List.foldl_append

theorem run_found (items : List α) : run pattern .found items = .found := by
  induction items with
  | nil => rfl
  | cons a items ih => exact ih

theorem unfinished_start {b : α} {k : κ} (start : pattern.starts b = some k) (rest : List α) :
    unfinished pattern (b :: rest) = unfinished pattern rest + 1 := by
  cases rest with
  | nil => simp [unfinished, start]
  | cons a rest => simp [unfinished, start]

theorem unfinished_pair {a b : α} {k : κ} (start : pattern.starts a = some k)
    (second : pattern.continues k b = true) (rest : List α) :
    unfinished pattern (b :: a :: rest) = unfinished pattern rest + 1 := by
  have other : (pattern.starts b).isSome = false := by
    cases named : pattern.starts b with
    | none => rfl
    | some k' => exact absurd second (by simp [(pattern.apart b k' k named).1])
  simp [unfinished, other, start, second]

theorem unfinished_other {b : α} (other : pattern.starts b = none) (rest : List α) :
    unfinished pattern (b :: rest) = 0 ∨ ∃ a more k, rest = a :: more ∧ pattern.starts a = some k ∧
      pattern.continues k b = true ∧ unfinished pattern (b :: rest) = unfinished pattern rest := by
  cases rest with
  | nil => simp [unfinished, other]
  | cons a more =>
      cases named : pattern.starts a with
      | none => simp [unfinished, other, named]
      | some k =>
          cases second : pattern.continues k b with
          | false => simp [unfinished, other, named, second]
          | true =>
              right
              refine ⟨a, more, k, rfl, named, second, ?_⟩
              rw [unfinished_pair named second, unfinished_start named]

theorem MatchAfter.append {items before : List α} (found : MatchAfter pattern items before)
    (more : List α) : MatchAfter pattern (items ++ more) before := by
  obtain ⟨a, b, c, after, k, rfl, start, second, third⟩ := found
  exact ⟨a, b, c, after ++ more, k, by simp, start, second, third⟩

structure Scanned (pattern : Pattern α κ) (items : List α) (state : State κ) : Prop where
  search : state ≠ .found → (state = .search ↔ Even (unfinished pattern items.reverse))
  started : ∀ k, state = .started k → ∃ before a, items = before ++ [a] ∧
    pattern.starts a = some k ∧ Even (unfinished pattern before.reverse)
  continued : ∀ k, state = .continued k → ∃ before a b, items = before ++ [a, b] ∧
    pattern.starts a = some k ∧ pattern.continues k b = true ∧ Even (unfinished pattern before.reverse)
  found : state = .found → ∃ before, MatchAfter pattern items before ∧
    Even (unfinished pattern before.reverse)

theorem Scanned.searching {items : List α} (even : Even (unfinished pattern items.reverse)) :
    Scanned pattern items .search :=
  ⟨fun _ => iff_of_true rfl even, fun _ same => (by cases same), fun _ same => (by cases same),
    fun same => (by cases same)⟩

theorem Scanned.step {items : List α} {state : State κ} (scanned : Scanned pattern items state)
    (b : α) : Scanned pattern (items ++ [b]) (step pattern state b) := by
  have reverse : (items ++ [b]).reverse = b :: items.reverse := by simp
  cases state with
  | search =>
      have even := (scanned.search (by simp)).mp rfl
      rw [TripleMatch.step]
      cases start : pattern.starts b with
      | some k =>
          refine ⟨fun _ => ⟨fun same => (by cases same), fun odd => ?_⟩, ?_, fun _ same => (by cases same),
            fun same => (by cases same)⟩
          · rw [reverse, unfinished_start start, Nat.even_add_one] at odd
            exact absurd even odd
          · intro k' same
            cases same
            exact ⟨items, b, rfl, start, even⟩
      | none =>
          apply Scanned.searching
          rw [reverse]
          rcases unfinished_other start items.reverse with none_left | ⟨a, more, k, -, -, -, same⟩
          · rw [none_left]
            exact Even.zero
          · rwa [same]
  | started k =>
      obtain ⟨before, a, rfl, start, even⟩ := scanned.started k rfl
      have order : (before ++ [a] ++ [b]).reverse = b :: a :: before.reverse := by simp
      rw [TripleMatch.step]
      split
      · rename_i second
        refine ⟨fun _ => ⟨fun same => (by cases same), fun odd => ?_⟩, fun _ same => (by cases same), ?_,
          fun same => (by cases same)⟩
        · rw [order, unfinished_pair start second, Nat.even_add_one] at odd
          exact absurd even odd
        · intro k' same
          cases same
          exact ⟨before, a, b, by simp, start, second, even⟩
      · rename_i failed
        apply Scanned.searching
        rw [order]
        cases again : pattern.starts b with
        | some k' =>
            rw [unfinished_start again, unfinished_start start, Nat.even_add_one, Nat.even_add_one,
              not_not]
            exact even
        | none =>
            rcases unfinished_other again (a :: before.reverse) with none_left | ⟨a', more, k', split, start', second, -⟩
            · rw [none_left]
              exact Even.zero
            · cases split
              rw [start] at start'
              cases start'
              exact absurd second failed
  | continued k =>
      obtain ⟨before, a, b', rfl, start, second, even⟩ := scanned.continued k rfl
      have order : (before ++ [a, b'] ++ [b]).reverse = b :: b' :: a :: before.reverse := by simp
      rw [TripleMatch.step]
      split
      · rename_i third
        refine ⟨fun differs => absurd rfl differs, fun _ same => (by cases same),
          fun _ same => (by cases same), fun _ => ?_⟩
        exact ⟨before, ⟨a, b', b, [], k, by simp, start, second, third⟩, even⟩
      · apply Scanned.searching
        rw [order]
        cases again : pattern.starts b with
        | some k' =>
            rw [unfinished_start again, unfinished_pair start second, Nat.even_add_one,
              Nat.even_add_one, not_not]
            exact even
        | none =>
            rcases unfinished_other again (b' :: a :: before.reverse) with none_left | ⟨a', more, k', split, start', -, -⟩
            · rw [none_left]
              exact Even.zero
            · cases split
              exact absurd second (by simp [(pattern.apart b' k' k start').1])
  | found =>
      obtain ⟨before, found, even⟩ := scanned.found rfl
      exact ⟨fun differs => absurd rfl differs, fun _ same => (by cases same),
        fun _ same => (by cases same), fun _ => ⟨before, found.append [b], even⟩⟩

theorem run_scanned (items : List α) : Scanned pattern items (run pattern .search items) := by
  induction items using List.reverseRecOn with
  | nil => exact Scanned.searching Even.zero
  | append_singleton items b ih =>
      rw [run_append]
      exact ih.step b

/-- A match is found exactly when an even number of unfinished ones stands directly in front of it. -/
theorem run_found_iff (items : List α) :
    run pattern .search items = .found ↔
      ∃ before, MatchAfter pattern items before ∧ Even (unfinished pattern before.reverse) := by
  refine ⟨(run_scanned items).found, ?_⟩
  rintro ⟨before, ⟨a, b, c, after, k, rfl, start, second, third⟩, even⟩
  rw [run_append]
  by_cases early : run pattern .search before = .found
  · rw [early, run_found]
  · rw [((run_scanned before).search early).mpr even]
    have three : run pattern .search [a, b, c] = .found := by
      simp [run, step_start start, step_continue second, step_end third]
    rw [show a :: b :: c :: after = [a, b, c] ++ after from rfl, run_append, three, run_found]

end Yafsml.TripleMatch
