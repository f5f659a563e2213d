import Yafsml.Foundation.StableInsert
import Yafsml.Process.Rtti

/-! # The chain of every class -/

namespace Yafsml.Process.Rtti

open LinkedChain StableInsert

/-! ## What was inserted -/

/-- A call of `rtti_insert`; `none` and 0 are null. -/
structure InsertCall where
  className : Option ClassName
  vtable : Nat
  offset : Nat

def InsertCall.insertsFor (call : InsertCall) (className : ClassName) : Option Vtable :=
  if call.className = some className ∧ call.vtable ≠ 0 then some ⟨call.vtable, call.offset⟩ else none

def insertedFor (calls : List InsertCall) (className : ClassName) : List Vtable :=
  calls.filterMap fun call => call.insertsFor className

/-- Every distinct vtable with its first offset, by offset. -/
def chainOf (calls : List InsertCall) (className : ClassName) : List Vtable :=
  sortFirsts Vtable.vtable Vtable.offset (insertedFor calls className)

def run : List InsertCall → Option VtableMap → Option (Option VtableMap)
  | [], map => some map
  | call :: calls, map =>
      (rttiInsert .succeed map call.className call.vtable call.offset).bind (run calls)

/-! ## Loops over a chain -/

namespace VtableMap

section Loops

variable {map : VtableMap} {className : ClassName} {value : Vtable} {next : Option Nat}
  {cells : List (Nat × Vtable)} (place : EntryPlace) (rounds : Nat)

theorem rounds_enough (linked : Linked map.nodes next cells) : cells.length + 1 < map.rounds := by
  have few := linked.length_le
  rw [VtableMap.rounds]
  omega

theorem holds_chain (vtable : Nat) (here : map.entryAt className place = some ⟨value, next⟩)
    (linked : Linked map.nodes next cells) (enough : cells.length + 1 < rounds) :
    map.holds className vtable rounds (some place) =
      some (decide (vtable ∈ (value :: cells.map Prod.snd).map Vtable.vtable)) := by
  induction cells generalizing place value next rounds with
  | nil =>
      obtain ⟨rounds, rfl⟩ : ∃ rest, rounds = rest + 2 := ⟨rounds - 2, by simp at enough; omega⟩
      cases linked
      rw [holds, here]
      by_cases same : value.vtable = vtable
      · simp [same]
      · simp [same, Ne.symm same, holds]
  | cons cell rest ih =>
      obtain ⟨rounds, rfl⟩ : ∃ rest, rounds = rest + 1 := ⟨rounds - 1, by omega⟩
      obtain ⟨rfl, after, node, behind⟩ := linked
      have further := ih (.node cell.1) rounds node behind (by simpa using enough)
      rw [holds, here]
      by_cases same : value.vtable = vtable
      · simp [same]
      · simp only [Option.bind_eq_bind, Option.bind_some, if_neg same, Option.map_some, further]
        simp [Ne.symm same]

theorem rttiEntryCount_chain (here : map.entryAt className place = some ⟨value, next⟩)
    (linked : Linked map.nodes next cells) (enough : cells.length + 1 < rounds) :
    map.rttiEntryCount className rounds (some place) = some (value :: cells.map Prod.snd).length := by
  induction cells generalizing place value next rounds with
  | nil =>
      obtain ⟨rounds, rfl⟩ : ∃ rest, rounds = rest + 2 := ⟨rounds - 2, by simp at enough; omega⟩
      cases linked
      rw [rttiEntryCount, here]
      rfl
  | cons cell rest ih =>
      obtain ⟨rounds, rfl⟩ : ∃ rest, rounds = rest + 1 := ⟨rounds - 1, by omega⟩
      obtain ⟨rfl, after, node, behind⟩ := linked
      have further := ih (.node cell.1) rounds node behind (by simpa using enough)
      rw [rttiEntryCount, here]
      simp only [Option.bind_eq_bind, Option.bind_some, Option.map_some, further]
      rfl

theorem rttiEntryAt_chain (index : Nat) (here : map.entryAt className place = some ⟨value, next⟩)
    (linked : Linked map.nodes next cells) (enough : cells.length + 1 < rounds) :
    map.rttiEntryAt className rounds (some place) index =
      some ((((value :: cells.map Prod.snd)[index]?).map Vtable.vtable).getD 0) := by
  induction cells generalizing place value next rounds index with
  | nil =>
      obtain ⟨rounds, rfl⟩ : ∃ rest, rounds = rest + 2 := ⟨rounds - 2, by simp at enough; omega⟩
      cases linked
      cases index with
      | zero => rw [rttiEntryAt, here]; rfl
      | succ index => rw [rttiEntryAt, here]; rfl
  | cons cell rest ih =>
      obtain ⟨rounds, rfl⟩ : ∃ rest, rounds = rest + 1 := ⟨rounds - 1, by omega⟩
      obtain ⟨rfl, after, node, behind⟩ := linked
      cases index with
      | zero => rw [rttiEntryAt, here]; rfl
      | succ index =>
          have further := ih (.node cell.1) rounds index node behind (by simpa using enough)
          rw [rttiEntryAt, here]
          simp only [Option.bind_eq_bind, Option.bind_some, Option.map_some, further]
          rfl

/-- Where the loop over the offsets ends, and what a new vtable behind that place makes of the chain. -/
theorem lastUpTo_chain (new : Vtable) (here : map.entryAt className place = some ⟨value, next⟩)
    (linked : Linked map.nodes next cells) (enough : cells.length < rounds) :
    ∃ last, map.lastUpTo className new.offset rounds place = some last ∧
      (last = place ∧ insertStable Vtable.offset new (cells.map Prod.snd) = new :: cells.map Prod.snd ∨
        ∃ front cell back, last = .node cell.1 ∧ cells = front ++ cell :: back ∧
          insertStable Vtable.offset new (cells.map Prod.snd) =
            (front ++ [cell]).map Prod.snd ++ new :: back.map Prod.snd) := by
  induction cells generalizing place value next rounds with
  | nil =>
      obtain ⟨rounds, rfl⟩ : ∃ rest, rounds = rest + 1 := ⟨rounds - 1, by omega⟩
      cases linked
      exact ⟨place, by rw [lastUpTo, here]; rfl, .inl ⟨rfl, rfl⟩⟩
  | cons cell rest ih =>
      obtain ⟨rounds, rfl⟩ : ∃ rest, rounds = rest + 1 := ⟨rounds - 1, by omega⟩
      obtain ⟨rfl, after, node, behind⟩ := linked
      by_cases larger : new.offset < cell.2.offset
      · refine ⟨place, ?_, .inl ⟨rfl, ?_⟩⟩
        · rw [lastUpTo, here]
          simp only [Option.bind_eq_bind, Option.bind_some, node, if_neg (Nat.not_le_of_lt larger)]
        · rw [insertStable, List.map_cons, List.orderedInsert_cons, if_pos larger]
      · obtain ⟨last, walks, ends⟩ := ih (.node cell.1) rounds node behind (by simpa using enough)
        have passed : insertStable Vtable.offset new ((cell :: rest).map Prod.snd) =
            cell.2 :: insertStable Vtable.offset new (rest.map Prod.snd) := by
          rw [insertStable, List.map_cons, List.orderedInsert_cons, if_neg larger]
          rfl
        refine ⟨last, ?_, .inr ?_⟩
        · rw [lastUpTo, here]
          simp only [Option.bind_eq_bind, Option.bind_some, node, if_pos (Nat.le_of_not_lt larger)]
          exact walks
        · rw [passed]
          rcases ends with ⟨rfl, sorted⟩ | ⟨front, other, back, rfl, rfl, sorted⟩
          · exact ⟨[], cell, rest, rfl, rfl, by rw [sorted]; rfl⟩
          · exact ⟨cell :: front, other, back, rfl, rfl, by rw [sorted]; rfl⟩

end Loops

end VtableMap

/-! ## All chains -/

/-- The chains of a map, with the nodes of each. No node is in two chains. -/
structure Represents (map : VtableMap) (chain : ClassName → List Vtable)
    (cells : ClassName → List (Nat × Vtable)) : Prop where
  absent : ∀ className, map.heads className = none → chain className = [] ∧ cells className = []
  present : ∀ className head, map.heads className = some head →
    chain className = head.value :: (cells className).map Prod.snd ∧
      Linked map.nodes head.next (cells className)
  apart : ∀ c d, c ≠ d → ∀ cell ∈ cells c, ∀ other ∈ cells d, cell.1 ≠ other.1

namespace Represents

variable {map : VtableMap} {chain : ClassName → List Vtable} {cells : ClassName → List (Nat × Vtable)}
  {className : ClassName} {head : VtableEntry}

theorem empty : Represents .empty (fun _ => []) fun _ => [] where
  absent _ _ := ⟨rfl, rfl⟩
  present _ _ found := by cases found
  apart _ _ _ _ member := by cases member

theorem place_lt (represents : Represents map chain cells) (c : ClassName) :
    ∀ cell ∈ cells c, cell.1 < map.nodes.length := by
  cases found : map.heads c with
  | none => simp [(represents.absent c found).2]
  | some head => exact (represents.present c head found).2.place_lt

theorem update (represents : Represents map chain cells) (className : ClassName) {entry : VtableEntry}
    {nodes : List VtableEntry} {values : List Vtable} {own : List (Nat × Vtable)}
    (kept : ∀ c, c ≠ className → ∀ cell ∈ cells c, nodes[cell.1]? = map.nodes[cell.1]?)
    (fresh : ∀ cell ∈ own, cell ∈ cells className ∨ cell.1 = map.nodes.length)
    (chained : values = entry.value :: own.map Prod.snd) (linked : Linked nodes entry.next own) :
    Represents ⟨Function.update map.heads className (some entry), nodes⟩
      (Function.update chain className values) (Function.update cells className own) where
  absent c lacks := by
    change Function.update map.heads className (some entry) c = none at lacks
    have other : c ≠ className := by
      rintro rfl
      rw [Function.update_self] at lacks
      cases lacks
    rw [Function.update_of_ne other] at lacks ⊢
    rw [Function.update_of_ne other]
    exact represents.absent c lacks
  present c head found := by
    change Function.update map.heads className (some entry) c = some head at found
    by_cases same : c = className
    · subst same
      rw [Function.update_self] at found ⊢
      cases found
      rw [Function.update_self]
      exact ⟨chained, linked⟩
    · rw [Function.update_of_ne same] at found ⊢
      rw [Function.update_of_ne same]
      obtain ⟨whole, behind⟩ := represents.present c head found
      exact ⟨whole, behind.congr (kept c same)⟩
  apart c d differs cell member other member' := by
    by_cases here : c = className
    · subst here
      rw [Function.update_self] at member
      rw [Function.update_of_ne differs.symm] at member'
      rcases fresh cell member with old | new
      · exact represents.apart c d differs cell old other member'
      · have := represents.place_lt d other member'
        omega
    · rw [Function.update_of_ne here] at member
      by_cases there : d = className
      · subst there
        rw [Function.update_self] at member'
        rcases fresh other member' with old | new
        · exact represents.apart c d differs cell member other old
        · have := represents.place_lt c cell member
          omega
      · rw [Function.update_of_ne there] at member'
        exact represents.apart c d differs cell member other member'

theorem addEntry (represents : Represents map chain cells) (found : map.heads className = some head)
    (new : Vtable) :
    ∃ map' cells', map.addEntry className head new = some map' ∧
      Represents map' (Function.update chain className
        (insertStable Vtable.offset new (chain className))) cells' := by
  obtain ⟨whole, linked⟩ := represents.present className head found
  have stays (c : ClassName) (cell : Nat × Vtable) (member : cell ∈ cells c) (entry : VtableEntry) :
      (map.nodes ++ [entry])[cell.1]? = map.nodes[cell.1]? :=
    List.getElem?_append_left (represents.place_lt c cell member)
  rw [whole]
  by_cases smaller : new.offset < head.value.offset
  · -- the new vtable takes the place of the head, which moves into the new node
    refine ⟨_, Function.update cells className ((map.nodes.length, head.value) :: cells className),
      if_pos smaller, ?_⟩
    apply represents.update
    · exact fun c _ cell member => stays c cell member head
    · intro cell member
      rcases List.mem_cons.mp member with rfl | old
      · exact .inr rfl
      · exact .inl old
    · rw [insertStable, List.orderedInsert_cons, if_pos smaller]
      rfl
    · exact ⟨rfl, head.next, List.getElem?_concat_length, linked.append _⟩
  · have behind : insertStable Vtable.offset new (head.value :: (cells className).map Prod.snd) =
        head.value :: insertStable Vtable.offset new ((cells className).map Prod.snd) := by
      rw [insertStable, List.orderedInsert_cons, if_neg smaller]
      rfl
    obtain ⟨last, walks, ends⟩ := VtableMap.lastUpTo_chain .head map.rounds new found linked
      (Nat.lt_of_succ_lt (VtableMap.rounds_enough linked))
    rw [behind, VtableMap.addEntry]
    simp only [if_neg smaller, walks, Option.bind_eq_bind, Option.bind_some]
    rcases ends with ⟨rfl, sorted⟩ | ⟨front, cell, back, rfl, split, sorted⟩
    · -- directly behind the head
      rw [VtableMap.entryAt, found]
      refine ⟨_, Function.update cells className ((map.nodes.length, new) :: cells className), rfl, ?_⟩
      apply represents.update
      · exact fun c _ cell member => stays c cell member _
      · intro cell member
        rcases List.mem_cons.mp member with rfl | old
        · exact .inr rfl
        · exact .inl old
      · rw [sorted]
        rfl
      · exact ⟨rfl, head.next, List.getElem?_concat_length, linked.append _⟩
    · -- behind a node
      rw [split] at linked
      obtain ⟨after, here, -⟩ := linked.split
      rw [VtableMap.entryAt, here]
      have unchanged : map.heads = Function.update map.heads className (some head) := by
        rw [← found, Function.update_eq_self]
      refine ⟨_, Function.update cells className (front ++ cell :: (map.nodes.length, new) :: back), rfl, ?_⟩
      simp only [VtableMap.setEntry]
      rw [unchanged]
      apply represents.update
      · intro c other member' member
        have differs : cell.1 ≠ member'.1 :=
          represents.apart className c (Ne.symm other) cell (by rw [split]; simp) member' member
        rw [List.getElem?_set_ne differs, stays c member' member]
      · intro other member
        rw [split]
        simp only [List.mem_append, List.mem_cons] at member ⊢
        rcases member with first | rfl | rfl | later
        · exact .inl (.inl first)
        · exact .inl (.inr (.inl rfl))
        · exact .inr rfl
        · exact .inl (.inr (.inr later))
      · rw [sorted]
        simp
      · exact linked.insert_after here new

theorem insertVtable (represents : Represents map chain cells) (className : ClassName) (new : Vtable) :
    ∃ map' cells', map.insertVtable className .succeed new = some map' ∧
      Represents map' (Function.update chain className
        (if new.vtable ∈ (chain className).map Vtable.vtable then chain className
          else insertStable Vtable.offset new (chain className))) cells' := by
  unfold VtableMap.insertVtable
  cases found : map.heads className with
  | none =>
      have bare := (represents.absent className found).1
      refine ⟨_, Function.update cells className [], rfl, ?_⟩
      apply represents.update
      · exact fun _ _ _ _ => rfl
      · exact fun cell member => absurd member List.not_mem_nil
      · rw [bare]
        exact if_neg List.not_mem_nil
      · rfl
  | some head =>
      obtain ⟨whole, linked⟩ := represents.present className head found
      have holds := VtableMap.holds_chain .head map.rounds new.vtable found linked
        (VtableMap.rounds_enough linked)
      rw [← whole] at holds
      by_cases old : new.vtable ∈ (chain className).map Vtable.vtable
      · refine ⟨map, cells, ?_, ?_⟩
        · simp [Allocations.succeed, holds, old]
        · rw [if_pos old, Function.update_eq_self]
          exact represents
      · obtain ⟨map', cells', adds, next⟩ := represents.addEntry found new
        refine ⟨map', cells', ?_, ?_⟩
        · simp [Allocations.succeed, holds, old, adds]
        · rw [if_neg old]
          exact next

end Represents

theorem chainOf_append (calls : List InsertCall) (call : InsertCall) (className : ClassName) :
    chainOf (calls ++ [call]) className =
      match call.insertsFor className with
      | none => chainOf calls className
      | some new =>
          if new.vtable ∈ (chainOf calls className).map Vtable.vtable then chainOf calls className
          else insertStable Vtable.offset new (chainOf calls className) := by
  unfold chainOf insertedFor
  rw [List.filterMap_append]
  cases inserts : call.insertsFor className with
  | none => simp [inserts]
  | some new =>
      simp only [List.filterMap_cons, List.filterMap_nil, inserts, sortFirsts_append]
      simp only [mem_map_sortFirsts]

theorem rttiInsert_represents {map : VtableMap} {calls : List InsertCall}
    {cells : ClassName → List (Nat × Vtable)} (represents : Represents map (chainOf calls) cells)
    (call : InsertCall) :
    ∃ map' cells', rttiInsert .succeed (some map) call.className call.vtable call.offset = some (some map') ∧
      Represents map' (chainOf (calls ++ [call])) cells' := by
  obtain ⟨named, vtable, offset⟩ := call
  have idle (nothing : ∀ c, InsertCall.insertsFor ⟨named, vtable, offset⟩ c = none) :
      chainOf (calls ++ [⟨named, vtable, offset⟩]) = chainOf calls := by
    funext c
    rw [chainOf_append, nothing]
  cases named with
  | none =>
      rw [idle fun c => if_neg (by simp)]
      exact ⟨map, cells, rfl, represents⟩
  | some className =>
      rw [rttiInsert]
      by_cases null : vtable = 0
      · rw [if_pos null, idle fun c => if_neg (by simp [null])]
        exact ⟨map, cells, rfl, represents⟩
      · obtain ⟨map', cells', inserts, next⟩ := represents.insertVtable className ⟨vtable, offset⟩
        refine ⟨map', cells', by rw [if_neg null, inserts]; rfl, ?_⟩
        convert next using 1
        funext c
        rw [chainOf_append]
        by_cases same : c = className
        · subst same
          rw [Function.update_self, InsertCall.insertsFor, if_pos ⟨rfl, null⟩]
        · rw [Function.update_of_ne same, InsertCall.insertsFor,
            if_neg fun both => same (Option.some.inj both.1).symm]

theorem run_represents (rest : List InsertCall) {map : VtableMap} {calls : List InsertCall}
    {cells : ClassName → List (Nat × Vtable)} (represents : Represents map (chainOf calls) cells) :
    ∃ map' cells', run rest (some map) = some (some map') ∧
      Represents map' (chainOf (calls ++ rest)) cells' := by
  induction rest generalizing map calls cells with
  | nil => exact ⟨map, cells, rfl, by rwa [List.append_nil]⟩
  | cons call rest ih =>
      obtain ⟨next, cells', inserts, represents'⟩ := rttiInsert_represents represents call
      obtain ⟨map', cells'', runs, last⟩ := ih represents'
      refine ⟨map', cells'', ?_, by rwa [List.append_assoc] at last⟩
      rw [run, inserts]
      exact runs

namespace Represents

variable {map : VtableMap} {chain : ClassName → List Vtable} {cells : ClassName → List (Nat × Vtable)}

theorem count (represents : Represents map chain cells) (className : ClassName) :
    rttiVtableCount true (some map) (some className) = some (chain className).length := by
  change map.rttiEntryCount className map.rounds (map.rttiMapGet className) = _
  rw [VtableMap.rttiMapGet]
  cases found : map.heads className with
  | none =>
      rw [(represents.absent className found).1]
      rfl
  | some head =>
      obtain ⟨whole, linked⟩ := represents.present className head found
      rw [whole]
      exact VtableMap.rttiEntryCount_chain .head map.rounds found linked (VtableMap.rounds_enough linked)

theorem enumerates (represents : Represents map chain cells) (className : ClassName) (index : Nat) :
    rttiFindVtableAt true (some map) (some className) index =
      some (((chain className)[index]?.map Vtable.vtable).getD 0) := by
  change map.rttiEntryAt className map.rounds (map.rttiMapGet className) index = _
  rw [VtableMap.rttiMapGet]
  cases found : map.heads className with
  | none =>
      rw [(represents.absent className found).1]
      rfl
  | some head =>
      obtain ⟨whole, linked⟩ := represents.present className head found
      rw [whole]
      exact VtableMap.rttiEntryAt_chain .head map.rounds index found linked (VtableMap.rounds_enough linked)

end Represents

/-- After any insertions the chain of a class has the vtables that were inserted for this class, each once
with its first offset, by offset and by arrival, and the two lookups enumerate it. -/
theorem rtti_chains (calls : List InsertCall) :
    ∃ map cells, run calls (some .empty) = some (some map) ∧ Represents map (chainOf calls) cells ∧
      ∀ className,
        Sorts Vtable.offset (firsts Vtable.vtable (insertedFor calls className)) (chainOf calls className) ∧
        ((chainOf calls className).map Vtable.vtable).Nodup ∧
        (∀ vtable, vtable ∈ (chainOf calls className).map Vtable.vtable ↔
          vtable ∈ (insertedFor calls className).map Vtable.vtable) ∧
        (∀ entry ∈ chainOf calls className,
          (insertedFor calls className).find? (fun other => other.vtable = entry.vtable) = some entry) ∧
        rttiVtableCount true (some map) (some className) = some (chainOf calls className).length ∧
        ∀ index, rttiFindVtableAt true (some map) (some className) index =
          some (((chainOf calls className)[index]?.map Vtable.vtable).getD 0) := by
  obtain ⟨map, cells, runs, represents⟩ := @run_represents calls .empty [] _ Represents.empty
  rw [List.nil_append] at represents
  refine ⟨map, cells, runs, represents, fun className => ?_⟩
  have sorts := sorts_sortFirsts Vtable.vtable Vtable.offset (insertedFor calls className)
  refine ⟨sorts, nodup_sortFirsts _ _ _, fun _ => mem_map_sortFirsts _ _ _, ?_,
    represents.count className, represents.enumerates className⟩
  intro entry member
  exact find_firsts _ (sorts.perm.mem_iff.mp member)

end Yafsml.Process.Rtti
