import Mathlib.Algebra.Order.BigOperators.Group.Finset
import Mathlib.Logic.Function.Basic
import Mathlib.Logic.Relation

/-!
# Interleavings

Threads take turns on a shared state. An assertion about the shared state and one about each thread
hold in every interleaving when a turn keeps its own thread's assertion and disturbs no other's.
-/

namespace Interleaving

structure Config (ι σ κ : Type*) where
  shared : σ
  threads : ι → κ

section Turns

variable {ι σ κ α : Type*} [DecidableEq ι] {act : α → σ → κ → Option (σ × κ)}

inductive Step (act : α → σ → κ → Option (σ × κ)) : Config ι σ κ → Config ι σ κ → Prop
  | take {c : Config ι σ κ} {s : σ} {k : κ} (i : ι) (a : α) :
      act a c.shared (c.threads i) = some (s, k) → Step act c ⟨s, Function.update c.threads i k⟩

def Reachable (act : α → σ → κ → Option (σ × κ)) : Config ι σ κ → Config ι σ κ → Prop :=
  Relation.ReflTransGen (Step act)

def play (act : α → σ → κ → Option (σ × κ)) : Config ι σ κ → List (ι × α) → Option (Config ι σ κ)
  | c, [] => some c
  | c, (i, a) :: rest =>
      match act a c.shared (c.threads i) with
      | some (s, k) => play act ⟨s, Function.update c.threads i k⟩ rest
      | none => none

theorem play_reachable {c c' : Config ι σ κ} {schedule : List (ι × α)}
    (played : play act c schedule = some c') : Reachable act c c' := by
  induction schedule generalizing c with
  | nil =>
      cases played
      exact .refl
  | cons turn rest ih =>
      obtain ⟨i, a⟩ := turn
      rw [play] at played
      split at played
      · rename_i s k taken
        exact .head (.take i a taken) (ih played)
      · cases played

structure Holds (shared : σ → Prop) (thread : σ → κ → Prop) (c : Config ι σ κ) : Prop where
  shared : shared c.shared
  threads : ∀ i, thread c.shared (c.threads i)

variable {shared : σ → Prop} {thread : σ → κ → Prop}

theorem Step.holds
    (own : ∀ a s k s' k', shared s → thread s k → act a s k = some (s', k') →
      shared s' ∧ thread s' k')
    (others : ∀ a s k s' k' l, shared s → thread s k → act a s k = some (s', k') →
      thread s l → thread s' l)
    {c c' : Config ι σ κ} (step : Step act c c') (holds : Holds shared thread c) :
    Holds shared thread c' := by
  cases step with
  | @take s k i a taken =>
      obtain ⟨keeps, mine⟩ := own _ _ _ _ _ holds.shared (holds.threads i) taken
      refine ⟨keeps, fun j => ?_⟩
      by_cases same : j = i
      · subst same
        simpa only [Function.update_self] using mine
      · simpa only [Function.update_of_ne same] using
          others _ _ _ _ _ _ holds.shared (holds.threads i) taken (holds.threads j)

theorem Reachable.holds
    (own : ∀ a s k s' k', shared s → thread s k → act a s k = some (s', k') →
      shared s' ∧ thread s' k')
    (others : ∀ a s k s' k' l, shared s → thread s k → act a s k = some (s', k') →
      thread s l → thread s' l)
    {c c' : Config ι σ κ} (reachable : Reachable act c c') (holds : Holds shared thread c) :
    Holds shared thread c' := by
  induction reachable with
  | refl => exact holds
  | tail _ step ih => exact step.holds own others ih

/-- The rule with assertions that tell the threads apart: only the turns of other threads have to leave a
thread's assertion as it is. -/
theorem Reachable.holds_apart {thread : ι → σ → κ → Prop}
    (own : ∀ i a s k s' k', shared s → thread i s k → act a s k = some (s', k') →
      shared s' ∧ thread i s' k')
    (others : ∀ i j a s k s' k' l, j ≠ i → shared s → thread i s k → act a s k = some (s', k') →
      thread j s l → thread j s' l)
    {c c' : Config ι σ κ} (reachable : Reachable act c c') (first : shared c.shared)
    (threads : ∀ i, thread i c.shared (c.threads i)) :
    shared c'.shared ∧ ∀ i, thread i c'.shared (c'.threads i) := by
  induction reachable with
  | refl => exact ⟨first, threads⟩
  | tail _ step ih =>
      cases step with
      | @take s k i a taken =>
          obtain ⟨keeps, mine⟩ := own i _ _ _ _ _ ih.1 (ih.2 i) taken
          refine ⟨keeps, fun j => ?_⟩
          by_cases same : j = i
          · subst same
            simpa only [Function.update_self] using mine
          · simpa only [Function.update_of_ne same] using
              others i j _ _ _ _ _ _ same ih.1 (ih.2 i) taken (ih.2 j)

/-- Where some thread with turns left can always take one that leaves it fewer, all of them come to the end
of theirs. -/
theorem Reachable.settles [Fintype ι] (rank : κ → Nat) (kept : κ → κ → Prop) (kept_refl : ∀ k, kept k k)
    (kept_trans : ∀ k l m, kept k l → kept l m → kept k m) {start c : Config ι σ κ}
    (advance : ∀ c, Reachable act start c → ∀ i, rank (c.threads i) ≠ 0 →
      ∃ j a s k, act a c.shared (c.threads j) = some (s, k) ∧ rank k < rank (c.threads j) ∧ kept (c.threads j) k)
    (reachable : Reachable act start c) :
    ∃ c', Reachable act c c' ∧ ∀ i, rank (c'.threads i) = 0 ∧ kept (c.threads i) (c'.threads i) := by
  induction left : Finset.univ.sum (fun i => rank (c.threads i)) using Nat.strong_induction_on generalizing c with
  | _ left' ih =>
      subst left
      by_cases settled : ∀ i, rank (c.threads i) = 0
      · exact ⟨c, .refl, fun i => ⟨settled i, kept_refl _⟩⟩
      · obtain ⟨i, more⟩ := not_forall.mp settled
        obtain ⟨j, a, s, k, taken, less, keeps⟩ := advance c reachable i more
        have step := Step.take j a taken
        have fewer : Finset.univ.sum (fun i => rank (Function.update c.threads j k i)) <
            Finset.univ.sum (fun i => rank (c.threads i)) := by
          apply Finset.sum_lt_sum
          · intro l _
            by_cases same : l = j
            · subst same
              rw [Function.update_self]
              exact less.le
            · rw [Function.update_of_ne same]
          · refine ⟨j, Finset.mem_univ j, ?_⟩
            rwa [Function.update_self]
        obtain ⟨c', goes, all⟩ := ih _ fewer (reachable.tail step) rfl
        refine ⟨c', .head step goes, fun l => ⟨(all l).1, ?_⟩⟩
        by_cases same : l = j
        · subst same
          have rest := (all l).2
          simp only [Function.update_self] at rest
          exact kept_trans _ _ _ keeps rest
        · simpa only [Function.update_of_ne same] using (all l).2

end Turns

end Interleaving
