import Mathlib.Data.Finset.Card
import Mathlib.Logic.Relation
import Mathlib.Tactic.Ring

/-!
# Sorting by moving prerequisites forward

One move takes the first entry that needs a later one and puts a prerequisite directly before it.
Where no entry needs itself through others, fewer than `n * n` moves settle a list of `n` entries.
-/

namespace PrerequisiteSort

variable {α : Type*}

def moveBefore (order : List α) (i k : Nat) : List α :=
  order.take i ++ (order.drop k).take 1 ++ (order.take k).drop i ++ order.drop (k + 1)

/-- Make moves until there is none left; `none` when `budget` moves were not enough. -/
def sortWithin (move : List α → Option (List α)) : Nat → List α → Option (List α)
  | budget, order =>
      match move order with
      | none => some order
      | some moved =>
          match budget with
          | 0 => none
          | budget + 1 => sortWithin move budget moved

theorem sortWithin_of_none {move : List α → Option (List α)} {order : List α} (stays : move order = none)
    (budget : Nat) : sortWithin move budget order = some order := by
  cases budget with
  | zero => rw [sortWithin, stays]
  | succ budget => rw [sortWithin, stays]

section Moves

variable (needs : α → α → Prop)

def Settled (order : List α) : Prop := order.Pairwise fun x later => ¬ needs x later

inductive Move : List α → List α → Prop
  | here {x d : α} {mid post : List α} :
      needs x d → Move (x :: (mid ++ d :: post)) (d :: x :: (mid ++ post))
  | there {x : α} {rest moved : List α} :
      (∀ d ∈ rest, ¬ needs x d) → Move rest moved → Move (x :: rest) (x :: moved)

variable {needs}

theorem Move.perm {order moved : List α} (move : Move needs order moved) : order.Perm moved := by
  induction move with
  | @here x d mid post _ =>
      calc (x :: (mid ++ d :: post)).Perm (x :: d :: (mid ++ post)) :=
            List.perm_middle.cons x
        _ |>.Perm (d :: x :: (mid ++ post)) := List.Perm.swap d x _
  | there _ _ ih => exact ih.cons _

theorem Move.not_settled {order moved : List α} (move : Move needs order moved) : ¬ Settled needs order := by
  induction move with
  | @here x d mid post needed =>
      intro settled
      exact (List.pairwise_cons.mp settled).1 d (by simp) needed
  | there _ _ ih => exact fun settled => ih (List.pairwise_cons.mp settled).2

/-- A relation between earlier and later entries survives when prerequisites have it to all. -/
theorem Move.pairwise {R : α → α → Prop} (ahead : ∀ x d y, needs x d → y ≠ d → R d y)
    {order moved : List α} (move : Move needs order moved) (nodup : order.Nodup)
    (related : order.Pairwise R) : moved.Pairwise R := by
  induction move with
  | @here x d mid post needed =>
      have parted : (x :: (mid ++ d :: post)).Perm (d :: x :: (mid ++ post)) :=
        (Move.here needed).perm
      have others : ∀ y ∈ x :: (mid ++ post), y ≠ d := by
        intro y member same
        exact (List.nodup_cons.mp (parted.nodup_iff.mp nodup)).1 (same ▸ member)
      refine List.pairwise_cons.mpr ⟨fun y member => ahead x d y needed (others y member), ?_⟩
      refine related.sublist (List.Sublist.cons_cons x ?_)
      exact (List.sublist_cons_self d post).append_left mid
  | @there x rest moved _ move ih =>
      obtain ⟨first, tail⟩ := List.pairwise_cons.mp related
      refine List.pairwise_cons.mpr ⟨fun y member => ?_, ih (List.nodup_cons.mp nodup).2 tail⟩
      exact first y (move.perm.mem_iff.mpr member)

theorem Move.moveBefore {order : List α} {i k : Nat} {x d : α} (at_i : order[i]? = some x)
    (at_k : order[k]? = some d) (later : i < k) (needed : needs x d)
    (settled : ∀ j a, j < i → order[j]? = some a → ∀ b ∈ order.drop (j + 1), ¬ needs a b) :
    Move needs order (moveBefore order i k) := by
  induction order generalizing i k with
  | nil => cases at_i
  | cons y rest ih =>
      obtain _ | k := k
      · omega
      rw [List.getElem?_cons_succ] at at_k
      cases i with
      | zero =>
          obtain ⟨inside, rfl⟩ := List.getElem?_eq_some_iff.mp at_k
          cases at_i
          have parted : rest = rest.take k ++ rest[k] :: rest.drop (k + 1) := by simp
          have target : PrerequisiteSort.moveBefore (x :: rest) 0 (k + 1) =
              rest[k] :: x :: (rest.take k ++ rest.drop (k + 1)) := by
            simp [PrerequisiteSort.moveBefore, List.take_one_drop_eq_of_lt_length inside]
          rw [target]
          nth_rewrite 1 [parted]
          exact .here needed
      | succ i =>
          have target : PrerequisiteSort.moveBefore (y :: rest) (i + 1) (k + 1) =
              y :: PrerequisiteSort.moveBefore rest i k := by
            simp [PrerequisiteSort.moveBefore]
          rw [target]
          refine .there ?_ (ih at_i at_k (by omega) ?_)
          · simpa using settled 0 y (by omega) rfl
          · intro j a before located
            exact settled (j + 1) a (by omega) located

open Classical in
noncomputable def reach (needs : α → α → Prop) (entries : Finset α) (x : α) : Nat :=
  (entries.filter (Relation.TransGen needs x)).card

open Classical in
/-- What a move makes smaller: first the entries behind the one it settles, then its reach. -/
noncomputable def rank (needs : α → α → Prop) (entries : Finset α) : List α → Nat
  | [] => 0
  | x :: rest =>
      if ∃ d ∈ rest, needs x d then rest.length * entries.card + reach needs entries x
      else rank needs entries rest

variable {entries : Finset α}

theorem reach_lt_card {x : α} (member : x ∈ entries) (acyclic : ¬ Relation.TransGen needs x x) :
    reach needs entries x < entries.card := by
  classical
  apply Finset.card_lt_card
  refine ⟨Finset.filter_subset _ _, fun all => acyclic ?_⟩
  exact (Finset.mem_filter.mp (all member)).2

theorem reach_lt {x d : α} (needed : needs x d) (member : d ∈ entries)
    (acyclic : ¬ Relation.TransGen needs d d) : reach needs entries d < reach needs entries x := by
  classical
  apply Finset.card_lt_card
  constructor
  · intro y below
    rw [Finset.mem_filter] at below ⊢
    exact ⟨below.1, .head needed below.2⟩
  · intro all
    have below := all (Finset.mem_filter.mpr ⟨member, .single needed⟩)
    exact acyclic (Finset.mem_filter.mp below).2

theorem rank_lt (acyclic : ∀ x, ¬ Relation.TransGen needs x x) {order : List α}
    (members : ∀ x ∈ order, x ∈ entries) (nonempty : order ≠ []) :
    rank needs entries order < order.length * entries.card := by
  induction order with
  | nil => exact absurd rfl nonempty
  | cons x rest ih =>
      have bound := reach_lt_card (members x (by simp)) (acyclic x)
      have length : (x :: rest).length * entries.card =
          rest.length * entries.card + entries.card := by
        rw [List.length_cons]
        ring
      rw [rank, length]
      split
      · omega
      · by_cases last : rest = []
        · subst last
          simp only [rank]
          omega
        · have := ih (fun y member => members y (by simp [member])) last
          omega

theorem Move.rank_lt (acyclic : ∀ x, ¬ Relation.TransGen needs x x) {order moved : List α}
    (members : ∀ x ∈ order, x ∈ entries) (move : Move needs order moved) :
    rank needs entries moved < rank needs entries order := by
  induction move with
  | @here x d mid post needed =>
      have needy : ∃ e ∈ mid ++ d :: post, needs x e := ⟨d, by simp, needed⟩
      have length : (mid ++ d :: post).length = (x :: (mid ++ post)).length := by
        simp
        omega
      have before : rank needs entries (x :: (mid ++ d :: post)) =
          (x :: (mid ++ post)).length * entries.card + reach needs entries x := by
        rw [rank, if_pos needy, length]
      rw [before, rank]
      split
      · have := reach_lt needed (members d (by simp)) (acyclic d)
        omega
      · have members' : ∀ y ∈ x :: (mid ++ post), y ∈ entries := by
          intro y member
          exact members y (by simp at member ⊢; tauto)
        have := PrerequisiteSort.rank_lt acyclic members' (by simp)
        omega
  | @there x rest moved settled move ih =>
      have before : ¬ ∃ d ∈ rest, needs x d := fun ⟨d, member, needed⟩ => settled d member needed
      have after : ¬ ∃ d ∈ moved, needs x d :=
        fun ⟨d, member, needed⟩ => settled d (move.perm.mem_iff.mpr member) needed
      rw [rank, if_neg after, rank, if_neg before]
      exact ih fun y member => members y (by simp [member])

section Sorting

variable {move : List α → Option (List α)} {invariant : List α → Prop}
  (moves : ∀ order moved, invariant order → move order = some moved → Move needs order moved)
  (kept : ∀ order moved, invariant order → Move needs order moved → invariant moved)

include moves kept

theorem sortWithin_invariant {budget : Nat} {order sorted : List α} (start : invariant order)
    (done : sortWithin move budget order = some sorted) : invariant sorted ∧ move sorted = none := by
  induction budget generalizing order with
  | zero =>
      rw [sortWithin] at done
      split at done
      · rename_i none_left
        cases done
        exact ⟨start, none_left⟩
      · cases done
  | succ budget ih =>
      rw [sortWithin] at done
      split at done
      · rename_i none_left
        cases done
        exact ⟨start, none_left⟩
      · rename_i moved taken
        exact ih (kept _ _ start (moves _ _ start taken)) done

theorem sortWithin_isSome (acyclic : ∀ x, ¬ Relation.TransGen needs x x)
    (members : ∀ order, invariant order → ∀ x ∈ order, x ∈ entries) {budget : Nat}
    {order : List α} (start : invariant order) (enough : rank needs entries order ≤ budget) :
    (sortWithin move budget order).isSome := by
  induction budget generalizing order with
  | zero =>
      rw [sortWithin]
      split
      · rfl
      · rename_i moved taken
        have := (moves _ _ start taken).rank_lt acyclic (members _ start)
        omega
  | succ budget ih =>
      rw [sortWithin]
      split
      · rfl
      · rename_i moved taken
        have step := moves _ _ start taken
        have := step.rank_lt acyclic (members _ start)
        exact ih (kept _ _ start step) (by omega)

end Sorting

theorem Settled.idxOf_lt [DecidableEq α] {order : List α} (settled : Settled needs order)
    {x d : α} (member : x ∈ order) (prerequisite : d ∈ order) (different : x ≠ d)
    (needed : needs x d) : order.idxOf d < order.idxOf x := by
  have inside := List.idxOf_lt_length_of_mem member
  have inside' := List.idxOf_lt_length_of_mem prerequisite
  rcases lt_trichotomy (order.idxOf x) (order.idxOf d) with before | same | after
  · have apart := List.pairwise_iff_getElem.mp settled _ _ inside inside' before
    rw [List.getElem_idxOf, List.getElem_idxOf] at apart
    exact absurd needed apart
  · exact absurd ((List.idxOf_inj member).mp same) different
  · exact after

theorem Settled.acyclic {order : List α} (settled : Settled needs order)
    (members : ∀ x d, needs x d → x ∈ order ∧ d ∈ order) (irreflexive : ∀ x, ¬ needs x x) (x : α) :
    ¬ Relation.TransGen needs x x := by
  classical
  have downward : ∀ x y, Relation.TransGen needs x y → order.idxOf y < order.idxOf x := by
    intro x y path
    have step : ∀ x d, needs x d → order.idxOf d < order.idxOf x := fun x d needed =>
      settled.idxOf_lt (members x d needed).1 (members x d needed).2
        (fun same => irreflexive x (same ▸ needed)) needed
    induction path with
    | single needed => exact step _ _ needed
    | tail _ needed ih => exact (step _ _ needed).trans ih
  exact fun path => absurd (downward x x path) (lt_irrefl _)

end Moves

end PrerequisiteSort
