import Mathlib.Data.List.Nodup
import Mathlib.Logic.Function.Basic

/-!
# Doubly linked lists

The two link fields of every node, and the two ends of a list, as assignments change them. A list stands
for a sequence of nodes: unlinking erases from the sequence, pushing appends to it.
-/

namespace DoublyLinked

structure Links (ι : Type*) where
  older : ι → Option ι
  newer : ι → Option ι

structure Ends (ι : Type*) where
  oldest : Option ι
  newest : Option ι

variable {ι : Type*}

/-! ## The sequence of a list -/

/-- The nodes are linked in their order; `before` and `after` are the neighbours of the segment. -/
def Segment (links : Links ι) : Option ι → List ι → Option ι → Prop
  | _, [], _ => True
  | before, x :: rest, after =>
      links.older x = before ∧ links.newer x = rest.head?.or after ∧ Segment links (some x) rest after

structure Linked (links : Links ι) (ends : Ends ι) (items : List ι) : Prop where
  segment : Segment links none items none
  oldest : ends.oldest = items.head?
  newest : ends.newest = items.getLast?
  nodup : items.Nodup

namespace Segment

variable {links links' : Links ι} {before after : Option ι} {items left right : List ι}

theorem congr (older : ∀ x ∈ items, links'.older x = links.older x)
    (newer : ∀ x ∈ items, links'.newer x = links.newer x) (segment : Segment links before items after) :
    Segment links' before items after := by
  induction items generalizing before with
  | nil => trivial
  | cons x rest ih =>
      obtain ⟨here, next, further⟩ := segment
      refine ⟨(older x (.head _)).trans here, (newer x (.head _)).trans next, ?_⟩
      exact ih (fun y member => older y (.tail _ member)) (fun y member => newer y (.tail _ member)) further

theorem append : Segment links before (left ++ right) after ↔
    Segment links before left (right.head?.or after) ∧ Segment links (left.getLast?.or before) right after := by
  induction left generalizing before with
  | nil => exact ⟨fun segment => ⟨trivial, segment⟩, fun segments => segments.2⟩
  | cons x rest ih =>
      have head : ((rest ++ right).head?).or after = rest.head?.or (right.head?.or after) := by
        cases rest <;> rfl
      have last : (x :: rest).getLast?.or before = rest.getLast?.or (some x) := by
        cases rest with
        | nil => rfl
        | cons y rest => simp [List.getLast?_cons]
      simp only [List.cons_append, Segment, head, ih, last]
      tauto

end Segment

namespace Linked

variable {links links' : Links ι} {ends : Ends ι} {items : List ι}

theorem congr (older : ∀ x ∈ items, links'.older x = links.older x)
    (newer : ∀ x ∈ items, links'.newer x = links.newer x) (linked : Linked links ends items) :
    Linked links' ends items :=
  ⟨linked.segment.congr older newer, linked.oldest, linked.newest, linked.nodup⟩

theorem neighbours {left right : List ι} {x : ι} (linked : Linked links ends (left ++ x :: right)) :
    links.older x = left.getLast? ∧ links.newer x = right.head? := by
  obtain ⟨-, here⟩ := Segment.append.mp linked.segment
  rw [Option.or_none] at here
  exact ⟨here.1, here.2.1.trans Option.or_none⟩

theorem older_mem {x y : ι} (linked : Linked links ends items) (member : x ∈ items)
    (older : links.older x = some y) : y ∈ items := by
  obtain ⟨left, right, rfl⟩ := List.append_of_mem member
  rw [linked.neighbours.1] at older
  exact List.mem_append_left _ (List.mem_of_getLast? older)

theorem newer_mem {x y : ι} (linked : Linked links ends items) (member : x ∈ items)
    (newer : links.newer x = some y) : y ∈ items := by
  obtain ⟨left, right, rfl⟩ := List.append_of_mem member
  rw [linked.neighbours.2] at newer
  exact List.mem_append_right _ (.tail _ (List.mem_of_head? newer))

theorem newest_mem {x : ι} (linked : Linked links ends items) (newest : ends.newest = some x) : x ∈ items :=
  List.mem_of_getLast? (linked.newest.symm.trans newest)

theorem oldest_mem {x : ι} (linked : Linked links ends items) (oldest : ends.oldest = some x) : x ∈ items :=
  List.mem_of_head? (linked.oldest.symm.trans oldest)

end Linked

/-! ## Assignments -/

section Assignments

variable [DecidableEq ι]

namespace Links

def setOlder (links : Links ι) (at? value : Option ι) : Links ι :=
  match at? with
  | some x => { links with older := Function.update links.older x value }
  | none => links

def setNewer (links : Links ι) (at? value : Option ι) : Links ι :=
  match at? with
  | some x => { links with newer := Function.update links.newer x value }
  | none => links

variable (links : Links ι) {at? : Option ι} {value : Option ι}

@[simp] theorem setOlder_newer : (links.setOlder at? value).newer = links.newer := by cases at? <;> rfl

@[simp] theorem setNewer_older : (links.setNewer at? value).older = links.older := by cases at? <;> rfl

theorem setOlder_older {x : ι} (elsewhere : at? ≠ some x) :
    (links.setOlder at? value).older x = links.older x := by
  cases at? with
  | none => rfl
  | some y => exact Function.update_of_ne (fun same => elsewhere (congrArg some same.symm)) ..

theorem setNewer_newer {x : ι} (elsewhere : at? ≠ some x) :
    (links.setNewer at? value).newer x = links.newer x := by
  cases at? with
  | none => rfl
  | some y => exact Function.update_of_ne (fun same => elsewhere (congrArg some same.symm)) ..

@[simp] theorem setOlder_self (x : ι) : (links.setOlder (some x) value).older x = value :=
  Function.update_self ..

@[simp] theorem setNewer_self (x : ι) : (links.setNewer (some x) value).newer x = value :=
  Function.update_self ..

end Links

def unlink (links : Links ι) (ends : Ends ι) (x : ι) : Links ι × Ends ι :=
  let oldest := match links.older x with
    | some _ => ends.oldest
    | none => links.newer x
  let links := links.setNewer (links.older x) (links.newer x)
  let newest := match links.newer x with
    | some _ => ends.newest
    | none => links.older x
  let links := links.setOlder (links.newer x) (links.older x)
  ((links.setOlder (some x) none).setNewer (some x) none, ⟨oldest, newest⟩)

def push (links : Links ι) (ends : Ends ι) (x : ι) : Links ι × Ends ι :=
  let links := (links.setOlder (some x) ends.newest).setNewer (some x) none
  let links := links.setNewer ends.newest (some x)
  let oldest := match ends.newest with
    | some _ => ends.oldest
    | none => some x
  (links, ⟨oldest, some x⟩)

namespace Segment

variable {links : Links ι} {before after : Option ι} {items : List ι}

theorem exit (nodup : items.Nodup) (segment : Segment links before items after) (after' : Option ι) :
    Segment (links.setNewer items.getLast? after') before items after' := by
  induction items generalizing before with
  | nil => trivial
  | cons x rest ih =>
      obtain ⟨fresh, nodup⟩ := List.nodup_cons.mp nodup
      obtain ⟨here, next, further⟩ := segment
      cases rest with
      | nil => exact ⟨here, links.setNewer_self x, trivial⟩
      | cons y rest =>
          have last : (x :: y :: rest).getLast? = (y :: rest).getLast? := List.getLast?_cons_cons
          rw [last]
          refine ⟨here, ?_, ih nodup further⟩
          rw [links.setNewer_newer, next]
          · rfl
          · intro same
            exact fresh (List.mem_of_getLast? same)

theorem enter (nodup : items.Nodup) (segment : Segment links before items after) (before' : Option ι) :
    Segment (links.setOlder items.head? before') before' items after := by
  cases items with
  | nil => trivial
  | cons x rest =>
      obtain ⟨fresh, -⟩ := List.nodup_cons.mp nodup
      obtain ⟨-, next, further⟩ := segment
      refine ⟨links.setOlder_self x, ?_, ?_⟩
      · rw [links.setOlder_newer, next]
      · apply further.congr
        · intro y member
          apply links.setOlder_older
          rintro ⟨⟩
          exact fresh member
        · intro y member
          rw [links.setOlder_newer]

end Segment

namespace Linked

variable {links : Links ι} {ends : Ends ι} {items : List ι}

theorem unlink {x : ι} (linked : Linked links ends items) (member : x ∈ items) :
    Linked (unlink links ends x).1 (unlink links ends x).2 (items.erase x) := by
  obtain ⟨left, right, rfl⟩ := List.append_of_mem member
  obtain ⟨older, newer⟩ := linked.neighbours
  obtain ⟨left_nodup, right_nodup, apart⟩ := List.nodup_append.mp linked.nodup
  obtain ⟨not_right, right_nodup⟩ := List.nodup_cons.mp right_nodup
  have not_left : x ∉ left := fun member => apart x member x (.head _) rfl
  have left_apart : ∀ y ∈ left, right.head? ≠ some y := fun y member same =>
    apart y member y (.tail _ (List.mem_of_head? same)) rfl
  have right_apart : ∀ y ∈ right, left.getLast? ≠ some y := fun y member same =>
    apart y (List.mem_of_getLast? same) y (.tail _ member) rfl
  have newer' : (links.setNewer left.getLast? right.head?).newer x = right.head? := by
    rw [links.setNewer_newer (fun same => not_left (List.mem_of_getLast? same)), newer]
  have erased : (left ++ x :: right).erase x = left ++ right := by
    rw [List.erase_append_right _ not_left, List.erase_cons_head]
  obtain ⟨left_segment, -, -, right_segment⟩ := Segment.append.mp linked.segment
  have left_segment := left_segment.exit left_nodup right.head?
  have right_segment : Segment ((links.setNewer left.getLast? right.head?).setOlder right.head? left.getLast?)
      left.getLast? right none := by
    have kept : Segment (links.setNewer left.getLast? right.head?) (some x) right none := by
      refine right_segment.congr (fun y member => ?_) (fun y member => ?_)
      · rw [links.setNewer_older]
      · exact links.setNewer_newer (right_apart y member)
    exact kept.enter right_nodup _
  simp only [DoublyLinked.unlink, older, newer, newer', Links.setNewer_older, erased]
  constructor
  · rw [Segment.append, Option.or_none, Option.or_none]
    constructor
    · refine left_segment.congr (fun y member => ?_) (fun y member => ?_)
      · have other : some x ≠ some y := by
          rintro ⟨⟩
          exact not_left member
        rw [Links.setNewer_older, Links.setOlder_older _ other, Links.setOlder_older _ (left_apart y member)]
      · have other : some x ≠ some y := by
          rintro ⟨⟩
          exact not_left member
        rw [Links.setNewer_newer _ other, Links.setOlder_newer, Links.setOlder_newer]
    · refine right_segment.congr (fun y member => ?_) (fun y member => ?_)
      · have other : some x ≠ some y := by
          rintro ⟨⟩
          exact not_right member
        rw [Links.setNewer_older, Links.setOlder_older _ other]
      · have other : some x ≠ some y := by
          rintro ⟨⟩
          exact not_right member
        rw [Links.setNewer_newer _ other, Links.setOlder_newer]
  · cases left with
    | nil => rfl
    | cons y left =>
        rw [List.getLast?_cons]
        exact linked.oldest
  · rw [List.getLast?_append]
    cases right with
    | nil => rfl
    | cons y right =>
        have newest := linked.newest
        rw [List.getLast?_append, List.getLast?_cons_cons] at newest
        exact newest
  · rw [← erased]
    exact linked.nodup.erase x

theorem push {x : ι} (linked : Linked links ends items) (fresh : x ∉ items) :
    Linked (push links ends x).1 (push links ends x).2 (items ++ [x]) := by
  have last_other : ends.newest ≠ some x := fun same => fresh (linked.newest_mem same)
  simp only [DoublyLinked.push]
  constructor
  · rw [Segment.append]
    constructor
    · have kept : Segment ((links.setOlder (some x) ends.newest).setNewer (some x) none) none items none := by
        refine linked.segment.congr (fun y member => ?_) (fun y member => ?_)
        · have other : some x ≠ some y := by
            rintro ⟨⟩
            exact fresh member
          rw [Links.setNewer_older, Links.setOlder_older _ other]
        · have other : some x ≠ some y := by
            rintro ⟨⟩
            exact fresh member
          rw [Links.setNewer_newer _ other, Links.setOlder_newer]
      rw [linked.newest] at kept ⊢
      exact kept.exit linked.nodup _
    · refine ⟨?_, ?_, trivial⟩
      · rw [Links.setNewer_older, Links.setNewer_older, Links.setOlder_self, linked.newest, Option.or_none]
      · rw [Links.setNewer_newer _ last_other, Links.setNewer_self]
        rfl
  · cases items with
    | nil => simp only [linked.newest]; rfl
    | cons y items =>
        rw [linked.newest, List.getLast?_cons]
        exact linked.oldest
  · rw [List.getLast?_append]
    rfl
  · exact List.nodup_append.mpr ⟨linked.nodup, List.nodup_singleton x, by
      rintro y member z same rfl
      exact fresh (List.mem_singleton.mp same ▸ member)⟩

/-! What is left of the other nodes. -/

theorem unlink_other {x y : ι} (linked : Linked links ends items) (member : x ∈ items) (other : y ∉ items) :
    (DoublyLinked.unlink links ends x).1.older y = links.older y ∧
      (DoublyLinked.unlink links ends x).1.newer y = links.newer y := by
  have not_self : some x ≠ some y := by
    rintro ⟨⟩
    exact other member
  have not_older : links.older x ≠ some y := fun same => other (linked.older_mem member same)
  have not_newer : (links.setNewer (links.older x) (links.newer x)).newer x ≠ some y := by
    obtain ⟨left, right, rfl⟩ := List.append_of_mem member
    have left_nodup := (List.nodup_append.mp linked.nodup).2.2
    rw [links.setNewer_newer]
    · exact fun same => other (linked.newer_mem member same)
    · intro same
      rw [linked.neighbours.1] at same
      exact left_nodup x (List.mem_of_getLast? same) x (.head _) rfl
  constructor
  · simp only [DoublyLinked.unlink, Links.setNewer_older]
    rw [Links.setOlder_older _ not_self, Links.setOlder_older _ not_newer, Links.setNewer_older]
  · simp only [DoublyLinked.unlink]
    rw [Links.setNewer_newer _ not_self, Links.setOlder_newer, Links.setOlder_newer,
      Links.setNewer_newer _ not_older]

theorem push_other {x y : ι} (linked : Linked links ends items) (different : y ≠ x) (other : y ∉ items) :
    (DoublyLinked.push links ends x).1.older y = links.older y ∧
      (DoublyLinked.push links ends x).1.newer y = links.newer y := by
  have not_self : some x ≠ some y := fun same => different (Option.some.inj same).symm
  have not_newest : ends.newest ≠ some y := fun same => other (linked.newest_mem same)
  constructor
  · simp only [DoublyLinked.push, Links.setNewer_older]
    exact Links.setOlder_older _ not_self
  · simp only [DoublyLinked.push]
    rw [Links.setNewer_newer _ not_newest, Links.setNewer_newer _ not_self, Links.setOlder_newer]

end Linked

end Assignments

/-! ## Chains through `newer` alone -/

def Follows (newer : ι → Option ι) : Option ι → List ι → Prop
  | head, [] => head = none
  | head, x :: rest => head = some x ∧ Follows newer (newer x) rest

theorem Follows.unique {newer : ι → Option ι} {head : Option ι} {items items' : List ι}
    (follows : Follows newer head items) (follows' : Follows newer head items') : items = items' := by
  induction items generalizing head items' with
  | nil =>
      obtain rfl : head = none := follows
      cases items' with
      | nil => rfl
      | cons y rest => cases follows'.1
  | cons x rest ih =>
      obtain ⟨rfl, follows⟩ := follows
      cases items' with
      | nil => cases follows'
      | cons y rest' =>
          obtain ⟨⟨⟩, follows'⟩ := follows'
          rw [ih follows follows']

theorem Follows.congr {newer newer' : ι → Option ι} {head : Option ι} {items : List ι}
    (same : ∀ x ∈ items, newer' x = newer x) (follows : Follows newer head items) :
    Follows newer' head items := by
  induction items generalizing head with
  | nil => exact follows
  | cons x rest ih =>
      refine ⟨follows.1, ?_⟩
      rw [same x (.head _)]
      exact ih (fun y member => same y (.tail _ member)) follows.2

end DoublyLinked
