import Mathlib.Algebra.Order.Monoid.Defs
import Mathlib.Logic.Relation
import Mathlib.Tactic.Common
import Mathlib.Tactic.Ring

/-!
# Loops that end

A round of a loop goes on with another state or ends it with a result.
-/

/-! ## Loops that use up a budget

A loop without a counter ends when each round that goes on takes at least a fixed amount of
something of which there is only so much. -/

namespace Yafsml.BoundedLoop

variable {σ β : Type*} (round : σ → σ ⊕ β)

def loop : Nat → σ → Option β
  | 0, _ => none
  | fuel + 1, s =>
      match round s with
      | .inl s => loop fuel s
      | .inr result => some result

variable {round}

theorem loop_ends {used : σ → Nat} {amount limit : Nat}
    (takes : ∀ s s', round s = .inl s' → used s + amount ≤ used s' ∧ used s' ≤ limit)
    {fuel : Nat} {s : σ} (some_fuel : 0 < fuel) (enough : limit < used s + amount * fuel) :
    ∃ result, loop round fuel s = some result := by
  induction fuel generalizing s with
  | zero => exact absurd some_fuel (lt_irrefl 0)
  | succ fuel ih =>
      unfold loop
      cases next : round s with
      | inr result => exact ⟨result, rfl⟩
      | inl s' =>
          obtain ⟨taken, within⟩ := takes s s' next
          rw [Nat.mul_succ] at enough
          have left : limit < used s' + amount * fuel := by omega
          have fuel_left : 0 < fuel := by
            rcases Nat.eq_zero_or_pos fuel with rfl | positive
            · omega
            · exact positive
          exact ih fuel_left left

theorem loop_post {invariant : σ → Prop} {post : β → Prop}
    (kept : ∀ s s', invariant s → round s = .inl s' → invariant s')
    (ends : ∀ s result, invariant s → round s = .inr result → post result)
    {fuel : Nat} {s : σ} {result : β} (start : invariant s)
    (ended : loop round fuel s = some result) : post result := by
  induction fuel generalizing s with
  | zero => cases ended
  | succ fuel ih =>
      unfold loop at ended
      cases next : round s with
      | inr result' =>
          rw [next] at ended
          cases ended
          exact ends s result start next
      | inl s' =>
          rw [next] at ended
          exact ih (kept s s' start next) ended

end Yafsml.BoundedLoop

namespace Yafsml

structure MeasuredLoop (σ β : Type*) where
  round : σ → σ ⊕ β
  size : σ → Nat
  shrinks : ∀ s s', round s = .inl s' → size s' < size s

namespace MeasuredLoop

variable {σ β : Type*} (loop : MeasuredLoop σ β)

def run (s : σ) : β :=
  match _next : loop.round s with
  | .inl s' => run s'
  | .inr result => result
termination_by loop.size s
decreasing_by exact loop.shrinks s s' _next

theorem run_inl {s s' : σ} (next : loop.round s = .inl s') : loop.run s = loop.run s' := by
  rw [run]
  split
  · rename_i s'' next'
    cases next.symm.trans next'
    rfl
  · rename_i result next'
    cases next.symm.trans next'

theorem run_inr {s : σ} {result : β} (ends : loop.round s = .inr result) : loop.run s = result := by
  rw [run]
  split
  · rename_i s' next
    cases ends.symm.trans next
  · rename_i result' ends'
    cases ends.symm.trans ends'
    rfl

theorem run_reached {s s' : σ} (reached : Relation.ReflTransGen (fun s s' => loop.round s = .inl s') s s') :
    loop.run s = loop.run s' := by
  induction reached with
  | refl => rfl
  | tail _ next ih => exact ih.trans (run_inl loop next)

theorem run_ends (s : σ) :
    ∃ last, Relation.ReflTransGen (fun s s' => loop.round s = .inl s') s last ∧
      loop.round last = .inr (loop.run s) := by
  cases next : loop.round s with
  | inl s' =>
    obtain ⟨last, reached, ends⟩ := run_ends s'
    rw [← run_inl loop next] at ends
    exact ⟨last, .head next reached, ends⟩
  | inr result =>
    rw [run_inr loop next]
    exact ⟨s, .refl, next⟩
termination_by loop.size s
decreasing_by exact loop.shrinks s s' next

theorem run_post {invariant : σ → Prop} {post : β → Prop}
    (kept : ∀ s s', invariant s → loop.round s = .inl s' → invariant s')
    (ends : ∀ s result, invariant s → loop.round s = .inr result → post result) {s : σ}
    (start : invariant s) : post (loop.run s) := by
  cases next : loop.round s with
  | inl s' =>
    rw [run_inl loop next]
    exact run_post kept ends (kept s s' start next)
  | inr result =>
    rw [run_inr loop next]
    exact ends s result start next
termination_by loop.size s
decreasing_by exact loop.shrinks s s' next

end MeasuredLoop

end Yafsml
