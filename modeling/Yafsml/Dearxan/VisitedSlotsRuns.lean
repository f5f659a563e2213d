import Yafsml.Dearxan.VisitedSlots
import Mathlib.Data.Finset.Card

/-! # Runs of the visited map -/

namespace Yafsml.Dearxan.VisitedSlots

open LittleEndian OpenAddressing

inductive VisitedOp where
  | insert (address : Word) (info : CfgInfo) (calloc : Nat → Bool)
  | find (address : Word)
  | change (address : Word) (f : CfgInfo → CfgInfo)

structure VisitedCall where
  op : VisitedOp
  slot : Option Nat

section Hash

variable (hash : Word → Word)

def perform (map : SlotMap) : VisitedOp → Option (Option Nat × SlotMap)
  | .insert address info calloc => insertVisitedMap hash calloc map address info
  | .find address => (findVisitedMap hash map address).map fun slot => (slot, map)
  | .change address f => (findVisitedMap hash map address).map fun slot =>
      (slot, match slot with
        | none => map
        | some slot => changeInfo map slot f)

def run : List VisitedOp → List VisitedCall × SlotMap → Option (List VisitedCall × SlotMap)
  | [], state => some state
  | op :: ops, (history, map) =>
      (perform hash map op).bind fun (slot, map) => run ops (history ++ [⟨op, slot⟩], map)

/-- The slot that is found, read through its pointer. -/
def lookUp (map : SlotMap) (address : Word) : Option (Option VisitedSlot) :=
  (findVisitedMap hash map address).bind fun
    | none => some none
    | some slot => map.slots[slot]?.map some

end Hash

def VisitedCall.inserts : VisitedCall → Option (Word × CfgInfo)
  | ⟨.insert address info _, some _⟩ => some (address, info)
  | _ => none

def VisitedCall.changes (address : Word) (info : CfgInfo) : VisitedCall → CfgInfo
  | ⟨.change other f, _⟩ => if other = address then f info else info
  | _ => info

/-- The info of the first insertion, as changed since. -/
def infoOf (address : Word) : List VisitedCall → Option CfgInfo
  | [] => none
  | call :: later =>
      match call.inserts.filter fun new => new.1 = address with
      | some (_, info) => some (later.foldl (VisitedCall.changes address) info)
      | none => infoOf address later

def insertedAddresses (history : List VisitedCall) : Finset Word :=
  ((history.filterMap VisitedCall.inserts).map Prod.fst).toFinset

section History

variable (history : List VisitedCall) (call : VisitedCall) (address : Word)

theorem infoOf_append : infoOf address (history ++ [call]) =
    match infoOf address history with
    | some info => some (call.changes address info)
    | none => (call.inserts.filter fun new => new.1 = address).map Prod.snd := by
  induction history with
  | nil =>
      rw [List.nil_append, infoOf, infoOf]
      cases call.inserts.filter fun new => new.1 = address with
      | none => rfl
      | some new => rfl
  | cons first later ih =>
      rw [List.cons_append, infoOf, infoOf]
      cases first.inserts.filter fun new => new.1 = address with
      | none => exact ih
      | some new => simp only [List.foldl_append, List.foldl_cons, List.foldl_nil]

theorem insertedAddresses_append : insertedAddresses (history ++ [call]) =
    match call.inserts with
    | some (address, _) => insert address (insertedAddresses history)
    | none => insertedAddresses history := by
  unfold insertedAddresses
  rw [List.filterMap_append]
  cases inserts : call.inserts with
  | none => simp [inserts]
  | some new =>
      ext address
      simp [inserts]

theorem infoOf_isSome : (infoOf address history).isSome ↔ address ∈ insertedAddresses history := by
  induction history using List.reverseRecOn with
  | nil => simp [infoOf, insertedAddresses]
  | append_singleton history call ih =>
      rw [infoOf_append, insertedAddresses_append]
      cases known : infoOf address history with
      | some info =>
          have member := ih.mp (by rw [known]; rfl)
          cases call.inserts with
          | none => simpa using member
          | some new => simp [member]
      | none =>
          have absent : address ∉ insertedAddresses history := by
            rw [← ih, known]
            simp
          cases call.inserts with
          | none => simpa using absent
          | some new => simp [absent, Option.filter_some, eq_comm, apply_ite]

end History

section Step

variable {hash : Word → Word} {history : List VisitedCall}
  {t : Table VisitedSlot.key fun address => (hash address).toNat}

structure Represents (history : List VisitedCall)
    (t : Table VisitedSlot.key fun address => (hash address).toNat) : Prop where
  find : ∀ address, t.find address = (infoOf address history).map fun info => ⟨address, info, true⟩
  count : t.count = (insertedAddresses history).card

theorem lookUp_table (t : Table VisitedSlot.key fun address => (hash address).toNat) (address : Word) :
    lookUp hash (ofTable t) address = some (t.find address) := by
  rw [lookUp, findVisitedMap_table, Option.bind_some]
  cases found : t.find address with
  | none => rfl
  | some held =>
      have here : (ofTable t).slots[t.slotOf address]? = some held :=
        (Option.filter_eq_some_iff.mp found).1
      simp only [Option.map_some, here]

namespace Represents

theorem empty : Represents [] (Table.empty : Table VisitedSlot.key fun address => (hash address).toNat) :=
  ⟨fun _ => rfl, rfl⟩

theorem idle (represents : Represents history t) {call : VisitedCall} (inserts : call.inserts = none)
    (changes : ∀ address info, call.changes address info = info) : Represents (history ++ [call]) t := by
  constructor
  · intro address
    rw [represents.find, infoOf_append]
    cases infoOf address history with
    | none => rw [inserts]; rfl
    | some info => simp only [changes]
  · rw [represents.count, insertedAddresses_append, inserts]

theorem isSome (represents : Represents history t) (address : Word) :
    (t.find address).isSome ↔ address ∈ insertedAddresses history := by
  rw [represents.find, Option.isSome_map, infoOf_isSome]

theorem inserted (represents : Represents history t) {calloc : Nat → Bool} {address : Word}
    {info : CfgInfo} {after : Table VisitedSlot.key fun address => (hash address).toNat}
    (done : insertTable t calloc address info = some after) (slot : Nat) :
    Represents (history ++ [⟨.insert address info calloc, some slot⟩]) after := by
  obtain ⟨count, find⟩ := insertTable_spec t done
  constructor
  · intro other
    rw [find, infoOf_append]
    split_ifs with same
    · subst same
      rw [represents.find]
      cases infoOf other history with
      | none => simp [VisitedCall.inserts]
      | some info => rfl
    · rw [represents.find]
      cases infoOf other history with
      | none => simp [VisitedCall.inserts, Ne.symm same]
      | some info => rfl
  · rw [count, insertedAddresses_append, represents.count]
    change _ = (insert address (insertedAddresses history)).card
    have known := represents.isSome address
    split_ifs with present
    · rw [Finset.insert_eq_of_mem (known.mp present)]
    · rw [Finset.card_insert_of_notMem (mt known.mpr present)]

theorem changed (represents : Represents history t) (address : Word) (f : CfgInfo → CfgInfo)
    (slot : Option Nat) :
    Represents (history ++ [⟨.change address f, slot⟩]) (changeTable t address f) := by
  constructor
  · intro other
    rw [changeTable, Table.find_modify, infoOf_append]
    split_ifs with same
    · subst same
      rw [represents.find]
      cases infoOf other history with
      | none => rfl
      | some info => simp [VisitedCall.changes]
    · rw [represents.find]
      cases infoOf other history with
      | none => rfl
      | some info => simp [VisitedCall.changes, Ne.symm same]
  · rw [insertedAddresses_append]
    exact represents.count

theorem perform (represents : Represents history t) (op : VisitedOp) :
    ∃ (slot : _) (after : Table VisitedSlot.key fun address => (hash address).toNat),
      perform hash (ofTable t) op = some (slot, ofTable after) ∧
        Represents (history ++ [⟨op, slot⟩]) after := by
  cases op with
  | insert address info calloc =>
      rw [VisitedSlots.perform, insertVisitedMap_table]
      cases done : insertTable t calloc address info with
      | none => exact ⟨none, t, rfl, represents.idle rfl fun _ _ => rfl⟩
      | some after => exact ⟨_, after, rfl, represents.inserted done _⟩
  | find address =>
      rw [VisitedSlots.perform, findVisitedMap_table]
      exact ⟨_, t, rfl, represents.idle rfl fun _ _ => rfl⟩
  | change address f =>
      rw [VisitedSlots.perform, findVisitedMap_table]
      cases found : t.find address with
      | some held => exact ⟨_, _, rfl, represents.changed address f _⟩
      | none =>
          refine ⟨none, t, rfl, ?_, ?_⟩
          · intro other
            have changed := (represents.changed address f none).find other
            rw [changeTable, Table.find_modify] at changed
            split_ifs at changed with same
            · rw [← changed, same, found]
              rfl
            · exact changed
          · rw [insertedAddresses_append]
            exact represents.count

end Represents

end Step

section Run

variable {hash : Word → Word}

theorem run_represents (ops : List VisitedOp) {history : List VisitedCall}
    {t : Table VisitedSlot.key fun address => (hash address).toNat} (represents : Represents history t) :
    ∃ (calls : _) (after : Table VisitedSlot.key fun address => (hash address).toNat),
      run hash ops (history, ofTable t) = some (history ++ calls, ofTable after) ∧
        calls.map VisitedCall.op = ops ∧ Represents (history ++ calls) after := by
  induction ops generalizing history t with
  | nil => exact ⟨[], t, by rw [List.append_nil]; rfl, rfl, by rwa [List.append_nil]⟩
  | cons op ops ih =>
      obtain ⟨slot, next, performs, later⟩ := represents.perform op
      obtain ⟨calls, after, runs, same, final⟩ := ih later
      rw [List.append_assoc] at runs final
      refine ⟨⟨op, slot⟩ :: calls, after, ?_, congrArg (op :: ·) same, final⟩
      rw [run, performs]
      exact runs

variable (hash) in
/-- The map is a finite map, for every hash. No probe goes on without an end, so every call returns, and
only an insertion that cannot grow the map returns no slot and leaves the map as it was. -/
theorem visitedMap_finite_map (ops : List VisitedOp) :
    ∃ history map, run hash ops ([], .empty) = some (history, map) ∧ history.map VisitedCall.op = ops ∧
      (∀ address, lookUp hash map address =
        some ((infoOf address history).map fun info => ⟨address, info, true⟩)) ∧
      (∀ address, (infoOf address history).isSome ↔ address ∈ insertedAddresses history) ∧
      map.count = (insertedAddresses history).card ∧ 2 * map.count ≤ map.capacity ∧
      (∀ calloc, ∃ grown after, growVisitedMap hash calloc map = some (grown, after) ∧
        after.count = map.count ∧ (∀ address, lookUp hash after address = lookUp hash map address) ∧
        (grown = false → after = map)) ∧
      ∀ calloc address info, ∃ slot after,
        insertVisitedMap hash calloc map address info = some (slot, after) ∧
        (slot = none → after = map ∧ map.capacity < 2 * (map.count + 1) ∧
          (sizeMax / visitedSlotSize < grownCapacity map.capacity ∨
            calloc (grownCapacity map.capacity) = false)) := by
  obtain ⟨calls, t, runs, same, represents⟩ := run_represents ops (@Represents.empty hash)
  rw [List.nil_append] at runs represents
  refine ⟨calls, ofTable t, runs, same, ?_, infoOf_isSome calls, represents.count, half_full t, ?_, ?_⟩
  · intro address
    rw [lookUp_table, represents.find]
  · intro calloc
    rw [growVisitedMap_table]
    cases grows : roomyTable t calloc with
    | none => exact ⟨false, ofTable t, rfl, rfl, fun _ => rfl, fun _ => rfl⟩
    | some roomy =>
        obtain ⟨count, find⟩ := roomyTable_spec t grows
        refine ⟨true, ofTable roomy.val, rfl, count, fun address => ?_, by simp⟩
        rw [lookUp_table, lookUp_table, find]
  · intro calloc address info
    rw [insertVisitedMap_table]
    cases done : insertTable t calloc address info with
    | none => exact ⟨none, ofTable t, rfl, fun _ => ⟨rfl, insertTable_none t done⟩⟩
    | some after => exact ⟨_, ofTable after, rfl, by simp⟩

end Run

end Yafsml.Dearxan.VisitedSlots
