import Mathlib.Data.List.Nodup
import Mathlib.Data.List.Perm.Subperm

/-!
# Singly linked chains

Nodes are known by their place in the memory, and new nodes go to its end.
-/

namespace Yafsml.LinkedChain

structure Node (V : Type*) where
  value : V
  next : Option Nat
  deriving DecidableEq, Repr

variable {V : Type*}

def Linked (nodes : List (Node V)) : Option Nat → List (Nat × V) → Prop
  | next, [] => next = none
  | next, cell :: rest =>
      next = some cell.1 ∧ ∃ after, nodes[cell.1]? = some ⟨cell.2, after⟩ ∧ Linked nodes after rest

namespace Linked

variable {nodes nodes' : List (Node V)} {next : Option Nat} {cells cells' : List (Nat × V)}

theorem place_lt (linked : Linked nodes next cells) : ∀ cell ∈ cells, cell.1 < nodes.length := by
  induction cells generalizing next with
  | nil => simp
  | cons cell rest ih =>
      obtain ⟨-, after, here, further⟩ := linked
      intro other member
      rcases List.mem_cons.mp member with rfl | later
      · exact (List.getElem?_eq_some_iff.mp here).1
      · exact ih further other later

theorem congr (same : ∀ cell ∈ cells, nodes'[cell.1]? = nodes[cell.1]?) (linked : Linked nodes next cells) :
    Linked nodes' next cells := by
  induction cells generalizing next with
  | nil => exact linked
  | cons cell rest ih =>
      obtain ⟨points, after, here, further⟩ := linked
      refine ⟨points, after, (same cell List.mem_cons_self).trans here, ?_⟩
      exact ih (fun other member => same other (List.mem_cons_of_mem _ member)) further

theorem append (linked : Linked nodes next cells) (more : List (Node V)) : Linked (nodes ++ more) next cells :=
  linked.congr fun cell member => List.getElem?_append_left (linked.place_lt cell member)

theorem unique (linked : Linked nodes next cells) (linked' : Linked nodes next cells') : cells = cells' := by
  induction cells generalizing next cells' with
  | nil =>
      cases cells' with
      | nil => rfl
      | cons cell' rest' => cases linked.symm.trans linked'.1
  | cons cell rest ih =>
      obtain ⟨points, after, here, further⟩ := linked
      cases cells' with
      | nil => cases points.symm.trans linked'
      | cons cell' rest' =>
          obtain ⟨points', after', here', further'⟩ := linked'
          have place : cell.1 = cell'.1 := Option.some.inj (points.symm.trans points')
          rw [place] at here
          obtain ⟨value, rfl⟩ : cell.2 = cell'.2 ∧ after = after' := by
            have node := Option.some.inj (here.symm.trans here')
            exact ⟨congrArg Node.value node, congrArg Node.next node⟩
          rw [Prod.ext place value, ih further further']

theorem split {front back : List (Nat × V)} {cell : Nat × V}
    (linked : Linked nodes next (front ++ cell :: back)) :
    ∃ after, nodes[cell.1]? = some ⟨cell.2, after⟩ ∧ Linked nodes after back := by
  induction front generalizing next with
  | nil => exact linked.2
  | cons first front ih =>
      obtain ⟨-, after, -, further⟩ := linked
      exact ih further

theorem nodup (linked : Linked nodes next cells) : (cells.map Prod.fst).Nodup := by
  induction cells generalizing next with
  | nil => exact List.nodup_nil
  | cons cell rest ih =>
      obtain ⟨-, after, here, further⟩ := linked
      refine List.nodup_cons.mpr ⟨fun again => ?_, ih further⟩
      obtain ⟨other, member, same⟩ := List.mem_map.mp again
      obtain ⟨front, back, split⟩ := List.append_of_mem member
      rw [split] at further
      obtain ⟨after', here', behind⟩ := further.split
      rw [same] at here'
      cases congrArg Node.next (Option.some.inj (here.symm.trans here'))
      have whole := congrArg List.length (further.unique behind)
      simp at whole
      omega

theorem length_le (linked : Linked nodes next cells) : cells.length ≤ nodes.length := by
  have places : ∀ place ∈ cells.map Prod.fst, place ∈ List.range nodes.length := by
    intro place member
    obtain ⟨cell, inside, rfl⟩ := List.mem_map.mp member
    exact List.mem_range.mpr (linked.place_lt cell inside)
  have fits := (List.subperm_of_subset linked.nodup places).length_le
  rwa [List.length_map, List.length_range] at fits

theorem insert_after {front back : List (Nat × V)} {cell : Nat × V} {after : Option Nat}
    (linked : Linked nodes next (front ++ cell :: back)) (here : nodes[cell.1]? = some ⟨cell.2, after⟩)
    (value : V) :
    Linked ((nodes ++ [(⟨value, after⟩ : Node V)]).set cell.1 ⟨cell.2, some nodes.length⟩) next
      (front ++ cell :: (nodes.length, value) :: back) := by
  have inside : cell.1 < nodes.length := (List.getElem?_eq_some_iff.mp here).1
  have kept (other : Nat) (old : other < nodes.length) (differs : cell.1 ≠ other) :
      ((nodes ++ [(⟨value, after⟩ : Node V)]).set cell.1 ⟨cell.2, some nodes.length⟩)[other]? =
        nodes[other]? := by
    rw [List.getElem?_set_ne differs, List.getElem?_append_left old]
  have nodup := linked.nodup
  induction front generalizing next with
  | nil =>
      obtain ⟨points, after', here', behind⟩ := linked
      cases congrArg Node.next (Option.some.inj (here.symm.trans here'))
      refine ⟨points, some nodes.length, ?_, rfl, after, ?_, ?_⟩
      · apply List.getElem?_set_self
        rw [List.length_append]
        exact Nat.lt_add_right _ inside
      · rw [List.getElem?_set_ne (Nat.ne_of_lt inside), List.getElem?_concat_length]
      · refine behind.congr fun other member => kept other.1 (behind.place_lt other member) ?_
        intro same
        exact (List.nodup_cons.mp nodup).1 (same ▸ List.mem_map_of_mem member)
  | cons first front ih =>
      have first_lt := linked.place_lt first List.mem_cons_self
      obtain ⟨points, next', here', further⟩ := linked
      rw [List.cons_append, List.map_cons, List.nodup_cons] at nodup
      refine ⟨points, next', ?_, ih further nodup.2⟩
      rw [kept first.1 first_lt ?_]
      · exact here'
      · intro same
        exact nodup.1 (same ▸ List.mem_map_of_mem (by simp))

end Linked

end Yafsml.LinkedChain
