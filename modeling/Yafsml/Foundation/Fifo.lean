import Mathlib.Data.List.Count
import Mathlib.Data.List.Nodup

/-!
# A queue that is emptied in batches

Items wait in a queue. A server takes the whole queue into its hands, serves what it holds one by one
and comes back for the next batch. Every item is in one place, and the places in order spell out the
order of arrival.
-/

namespace Fifo

structure Places (α : Type*) where
  served : List α
  held : List α
  queued : List α

namespace Places

variable {α : Type*} {p : Places α} {a : α}

def all (p : Places α) : List α := p.served ++ p.held ++ p.queued

def arrive (p : Places α) (a : α) : Places α := { p with queued := p.queued ++ [a] }

def take (p : Places α) : Places α := ⟨p.served, p.queued, []⟩

def serve (p : Places α) (a : α) (rest : List α) : Places α := ⟨p.served ++ [a], rest, p.queued⟩

@[simp] theorem all_arrive (p : Places α) (a : α) : (p.arrive a).all = p.all ++ [a] := by
  simp [all, arrive]

theorem all_take (empty : p.held = []) : p.take.all = p.all := by
  simp [all, take, empty]

theorem all_serve {rest : List α} (next : p.held = a :: rest) : (p.serve a rest).all = p.all := by
  simp [all, serve, next]

theorem count_places [DecidableEq α] (once : p.all.Nodup) (arrived : a ∈ p.all) :
    p.served.count a + p.held.count a + p.queued.count a = 1 := by
  have total := List.count_eq_one_of_mem once arrived
  rwa [all, List.count_append, List.count_append] at total

theorem count_eq_zero [DecidableEq α] (absent : a ∉ p.all) :
    p.served.count a = 0 ∧ p.held.count a = 0 ∧ p.queued.count a = 0 := by
  have total := List.count_eq_zero.mpr absent
  rw [all, List.count_append, List.count_append] at total
  omega

end Places

end Fifo
