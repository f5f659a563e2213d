import Yafsml.Dearxan.VisitedMap

/-!
# The slots of the visited map

The map as the analysis keeps it, for any hash. A computation gives nothing where a probe passes
every slot without an end.
-/

namespace Yafsml.Dearxan.VisitedSlots

open LittleEndian OpenAddressing

structure SlotMap where
  slots : List VisitedSlot
  count : Nat
deriving DecidableEq, Repr

def SlotMap.capacity (map : SlotMap) : Nat := map.slots.length

def SlotMap.empty : SlotMap := ⟨[], 0⟩

def slotStops (address : Word) (slot : VisitedSlot) : Bool := !slot.used || slot.address == address

/-- The slot that ends a probe, if `fuel` slots are enough. -/
def probeSlots (slots : List VisitedSlot) (stop : VisitedSlot → Bool) : Nat → Nat → Option Nat
  | 0, _ => none
  | fuel + 1, slot => do
      let held ← slots[slot]?
      if stop held then some slot else probeSlots slots stop fuel ((slot + 1) &&& (slots.length - 1))

section Hash

variable (hash : Word → Word)

def startSlot (address : Word) (capacity : Nat) : Nat := (hash address).toNat &&& (capacity - 1)

/-- `NULL` is `none`. -/
def findVisitedMap (map : SlotMap) (address : Word) : Option (Option Nat) :=
  if map.capacity = 0 then some none
  else do
    let slot ← probeSlots map.slots (slotStops address) map.capacity (startSlot hash address map.capacity)
    let held ← map.slots[slot]?
    some (if held.used then some slot else none)

def moveSlots : List VisitedSlot → List VisitedSlot → Option (List VisitedSlot)
  | [], slots => some slots
  | old :: rest, slots =>
      if old.used then do
        let slot ← probeSlots slots (fun held => !held.used) slots.length
          (startSlot hash old.address slots.length)
        moveSlots rest (slots.set slot old)
      else moveSlots rest slots

def resizeVisitedMap (calloc : Nat → Bool) (map : SlotMap) (capacity : Nat) : Option (Bool × SlotMap) :=
  let capacity := if capacity < 16 then 16 else capacity
  if capacity &&& (capacity - 1) ≠ 0 ∨ sizeMax / visitedSlotSize < capacity then some (false, map)
  else if !calloc capacity then some (false, map)
  else (moveSlots hash map.slots (List.replicate capacity .unused)).map fun slots =>
    (true, ⟨slots, map.count⟩)

def growVisitedMap (calloc : Nat → Bool) (map : SlotMap) : Option (Bool × SlotMap) :=
  if map.capacity = 0 ∨ map.capacity / 2 < map.count + 1 then
    let capacity := if map.capacity = 0 then 16 else map.capacity * 2 % 2 ^ 64
    if capacity < map.capacity then some (false, map) else resizeVisitedMap hash calloc map capacity
  else some (true, map)

def insertVisitedMap (calloc : Nat → Bool) (map : SlotMap) (address : Word) (info : CfgInfo) :
    Option (Option Nat × SlotMap) :=
  (growVisitedMap hash calloc map).bind fun (grown, map) =>
    if !grown then some (none, map)
    else do
      let slot ← probeSlots map.slots (slotStops address) map.capacity (startSlot hash address map.capacity)
      let held ← map.slots[slot]?
      if held.used then some (some slot, map)
      else some (some slot, ⟨map.slots.set slot ⟨address, info, true⟩, map.count + 1⟩)

end Hash

def changeInfo (map : SlotMap) (slot : Nat) (f : CfgInfo → CfgInfo) : SlotMap :=
  ⟨map.slots.modify slot fun held => { held with info := f held.info }, map.count⟩

/-! ## The table behind the slots -/

def ofTable {hash : Word → Nat} (t : Table VisitedSlot.key hash) : SlotMap := ⟨t.slots, t.count⟩

section Probe

variable {slots : List VisitedSlot} {stop : VisitedSlot → Bool} {mark : Nat → Bool} {e i : Nat}

theorem probeSlots_eq (power : slots.length = 2 ^ e) (inside : i < slots.length)
    (same : ∀ (k : Nat) (held : VisitedSlot), slots[k]? = some held → stop held = mark k) {j fuel : Nat}
    (enough : j < fuel) (passed : ∀ k < j, mark ((i + k) % slots.length) = false)
    (ends : mark ((i + j) % slots.length) = true) :
    probeSlots slots stop fuel i = some ((i + j) % slots.length) := by
  have start : i % slots.length = i := Nat.mod_eq_of_lt inside
  have here : slots[i]? = some slots[i] := List.getElem?_eq_getElem inside
  induction j generalizing i fuel with
  | zero =>
      obtain ⟨fuel, rfl⟩ : ∃ rest, fuel = rest + 1 := ⟨fuel - 1, by omega⟩
      have unmoved : (i + 0) % slots.length = i := start
      rw [unmoved] at ends ⊢
      rw [probeSlots, here, Option.bind_eq_bind, Option.bind_some, same i _ here, if_pos ends]
  | succ j ih =>
      obtain ⟨fuel, rfl⟩ : ∃ rest, fuel = rest + 1 := ⟨fuel - 1, by omega⟩
      have goes := passed 0 (Nat.succ_pos j)
      rw [Nat.add_zero, start] at goes
      have below : (i + 1) % slots.length < slots.length := Nat.mod_lt _ (by omega)
      have shift (k : Nat) : ((i + 1) % slots.length + k) % slots.length = (i + (k + 1)) % slots.length := by
        rw [Nat.mod_add_mod]
        congr 1
        omega
      rw [probeSlots, here, Option.bind_eq_bind, Option.bind_some, same i _ here, if_neg (by simp [goes]),
        and_mask power, ← shift j]
      apply ih below (Nat.lt_of_succ_lt_succ enough)
      · intro k before
        rw [shift]
        exact passed (k + 1) (Nat.succ_lt_succ before)
      · rw [shift]
        exact ends
      · exact Nat.mod_eq_of_lt below
      · exact List.getElem?_eq_getElem below

theorem probeSlots_walk (power : slots.length = 2 ^ e) (inside : i < slots.length)
    (same : ∀ (k : Nat) (held : VisitedSlot), slots[k]? = some held → stop held = mark k)
    (stops : mark (walk mark slots.length slots.length i) = true) :
    probeSlots slots stop slots.length i = some (walk mark slots.length slots.length i) := by
  obtain ⟨j, most, ends, passed, stopped⟩ := walk_spec mark power inside slots.length
  rw [ends] at stops ⊢
  have early : j < slots.length := by
    rcases Nat.lt_or_eq_of_le most with early | rfl
    · exact early
    · -- the walk would have come back to where it started
      have goes := passed 0 (by omega)
      rw [Nat.add_mod_right] at stops
      rw [Nat.add_zero, stops] at goes
      cases goes
  exact probeSlots_eq power inside same early passed stops

end Probe

section Table

variable {hash : Word → Word} (t : Table VisitedSlot.key fun address => (hash address).toNat)
  {address : Word}

theorem slotStops_eq (address : Word) (k : Nat) (held : VisitedSlot) {slots : List VisitedSlot}
    (here : slots[k]? = some held) : slotStops address held = stops (slots.map VisitedSlot.key) address k := by
  rw [stops, List.getElem?_map, here, Option.map_some, slotStops, VisitedSlot.key]
  cases held.used with
  | false => rfl
  | true => simp [beq_eq_decide]

theorem table_power (nonempty : t.slots ≠ []) : ∃ e, t.slots.length = 2 ^ e := by
  obtain ⟨e, power⟩ := t.formed.power (by simpa using nonempty)
  exact ⟨e, by rwa [List.length_map] at power⟩

theorem startSlot_lt {capacity e : Nat} (power : capacity = 2 ^ e) (address : Word) :
    startSlot hash address capacity < capacity := by
  rw [startSlot, and_mask power]
  exact Nat.mod_lt _ (power ▸ Nat.two_pow_pos e)

theorem slotOf_walk (address : Word) :
    t.slotOf address = walk (stops (t.slots.map VisitedSlot.key) address) t.slots.length t.slots.length
      (startSlot hash address t.slots.length) := by
  rw [Table.slotOf, probe, List.length_map]
  rfl

theorem key_eq_some {held : VisitedSlot} :
    held.key = some address ↔ held.used = true ∧ held.address = address := by
  unfold VisitedSlot.key
  split_ifs with used
  · simp [used]
  · simp [used]

theorem key_eq_none {held : VisitedSlot} : held.key = none ↔ held.used = false := by
  unfold VisitedSlot.key
  split_ifs with used
  · simp [used]
  · simp [used]

theorem probeSlots_slotOf (nonempty : t.slots ≠ []) (address : Word) {stop : VisitedSlot → Bool}
    (same : ∀ held ∈ t.slots, stop held = slotStops address held) :
    probeSlots t.slots stop t.slots.length (startSlot hash address t.slots.length) =
      some (t.slotOf address) := by
  obtain ⟨e, power⟩ := table_power t nonempty
  obtain ⟨held, here, which⟩ := t.slotOf_stops nonempty address
  rw [slotOf_walk] at here ⊢
  apply probeSlots_walk power (startSlot_lt power address)
  · intro k held here
    rw [same held (List.mem_of_getElem? here)]
    exact slotStops_eq address k held here
  · rw [← slotStops_eq address _ held here, slotStops]
    rcases which with free | own
    · rw [key_eq_none.mp free]
      rfl
    · rw [(key_eq_some.mp own).2, beq_self_eq_true, Bool.or_true]

theorem probeSlots_table (nonempty : t.slots ≠ []) (address : Word) :
    probeSlots t.slots (slotStops address) t.slots.length (startSlot hash address t.slots.length) =
      some (t.slotOf address) :=
  probeSlots_slotOf t nonempty address fun _ _ => rfl

theorem probeSlots_free (nonempty : t.slots ≠ []) (absent : t.find address = none) :
    probeSlots t.slots (fun held => !held.used) t.slots.length (startSlot hash address t.slots.length) =
      some (t.slotOf address) := by
  apply probeSlots_slotOf t nonempty address
  intro held member
  cases used : held.used with
  | false => rw [slotStops, used]; rfl
  | true =>
      have other : held.address ≠ address := by
        rintro rfl
        have found := t.find_eq_some_iff.mpr ⟨member, key_eq_some.mpr ⟨used, rfl⟩⟩
        rw [absent] at found
        cases found
      rw [slotStops, used, beq_eq_false_iff_ne.mpr other]
      rfl

theorem findVisitedMap_table (address : Word) :
    findVisitedMap hash (ofTable t) address = some ((t.find address).map fun _ => t.slotOf address) := by
  by_cases empty : t.slots = []
  · rw [t.eq_empty (by rw [empty]; rfl)]
    rfl
  · have positive : ¬ t.slots.length = 0 := by simpa using empty
    obtain ⟨held, here, -⟩ := t.slotOf_stops empty address
    have taken : held.key.isSome = held.used := by
      unfold VisitedSlot.key
      cases held.used <;> rfl
    have found : t.find address = if held.used then some held else none := by
      rw [Table.find, here, Option.filter_some, taken]
    simp only [findVisitedMap, SlotMap.capacity, ofTable, if_neg positive, probeSlots_table t empty, here,
      Option.bind_eq_bind, Option.bind_some, found]
    cases held.used <;> rfl

/-! ### Growing -/

def grownCapacity (slots : Nat) : Nat := max 16 (2 * slots)

theorem grownCapacity_power : ∃ e, grownCapacity t.slots.length = 2 ^ e := by
  rcases t.formed.capacity with empty | ⟨e, power⟩
  · rw [List.map_eq_nil_iff.mp empty]
    exact ⟨4, rfl⟩
  · rw [List.length_map] at power
    rcases Nat.lt_or_ge e 3 with small | large
    · refine ⟨4, ?_⟩
      have few : 2 ^ e ≤ 2 ^ 3 := Nat.pow_le_pow_right (by decide) small.le
      rw [grownCapacity, power]
      omega
    · refine ⟨e + 1, ?_⟩
      have many : 2 ^ 3 ≤ 2 ^ e := Nat.pow_le_pow_right (by decide) large
      rw [grownCapacity, power, pow_succ]
      omega

theorem grownCapacity_room : 2 * (t.count + 1) ≤ grownCapacity t.slots.length := by
  have half := t.formed.half
  rw [List.length_map] at half
  unfold grownCapacity
  omega

def grown : Table VisitedSlot.key fun address => (hash address).toNat :=
  t.grow .unused (grownCapacity t.slots.length) unused_visited_key (grownCapacity_power t)
    (le_trans (by omega) (grownCapacity_room t))

theorem moveSlots_place {moved rest : List VisitedSlot} {capacity : Nat} (power : ∃ e, capacity = 2 ^ e)
    (room : 2 * t.count ≤ capacity) (split : t.slots = moved ++ rest) :
    moveSlots hash rest (moved.foldl (Table.place VisitedSlot.key fun address => (hash address).toNat)
        (List.replicate capacity .unused)) =
      some (t.slots.foldl (Table.place VisitedSlot.key fun address => (hash address).toNat)
        (List.replicate capacity .unused)) := by
  induction rest generalizing moved with
  | nil => rw [moveSlots, split, List.append_nil]
  | cons old rest ih =>
      have later : t.slots = (moved ++ [old]) ++ rest := by rw [split, List.append_assoc]; rfl
      have next := ih later
      obtain ⟨formed, held⟩ := t.place_part unused_visited_key power room split
      have length : (moved.foldl (Table.place VisitedSlot.key fun address => (hash address).toNat)
          (List.replicate capacity .unused)).length = capacity :=
        (Table.length_place_run _ _ _ _).trans List.length_replicate
      rw [List.foldl_append, List.foldl_cons, List.foldl_nil] at next
      generalize moved.foldl (Table.place VisitedSlot.key fun address => (hash address).toNat)
        (List.replicate capacity .unused) = slots at next formed held length ⊢
      rw [moveSlots]
      cases used : old.used with
      | false =>
          have skipped : Table.place VisitedSlot.key (fun address => (hash address).toNat) slots old = slots := by
            rw [Table.place, key_eq_none.mpr used]
          rw [skipped] at next
          exact next
      | true =>
          have own : old.key = some old.address := key_eq_some.mpr ⟨used, rfl⟩
          let part : Table VisitedSlot.key fun address => (hash address).toNat := ⟨slots, _, formed⟩
          have absent : part.find old.address = none := by
            apply Option.eq_none_iff_forall_ne_some.mpr
            intro other found
            obtain ⟨member, same⟩ := part.find_eq_some_iff.mp found
            have among := (held other (by rw [same]; exact Option.some_ne_none _)).mp member
            have apart := t.apart
            rw [split] at apart
            exact (List.pairwise_append.mp apart).2.2 other among old List.mem_cons_self _ same own
          have nonempty : slots ≠ [] := by
            obtain ⟨e, power⟩ := power
            apply List.ne_nil_of_length_pos
            rw [length, power]
            exact Nat.two_pow_pos e
          have placed : Table.place VisitedSlot.key (fun address => (hash address).toNat) slots old =
              slots.set (part.slotOf old.address) old := by
            rw [Table.place, own]
            rfl
          have ends := probeSlots_free part nonempty absent
          rw [placed] at next
          simp only [if_true]
          rw [show probeSlots slots (fun held => !held.used) slots.length
            (startSlot hash old.address slots.length) = some (part.slotOf old.address) from ends]
          exact next

theorem find_grown (address : Word) : (grown t).find address = t.find address := t.find_grow _ _ _

theorem length_grown : (grown t).slots.length = grownCapacity t.slots.length := t.length_grow _ _ _

def roomyTable (calloc : Nat → Bool) :
    Option { r : Table VisitedSlot.key fun address => (hash address).toNat //
      2 * (r.count + 1) ≤ r.slots.length } :=
  if full : t.slots.length < 2 * (t.count + 1) then
    if sizeMax / visitedSlotSize < grownCapacity t.slots.length || !calloc (grownCapacity t.slots.length)
    then none
    else some ⟨grown t, by rw [length_grown]; exact grownCapacity_room t⟩
  else some ⟨t, Nat.le_of_not_lt full⟩

theorem roomyTable_spec {calloc : Nat → Bool} {r} (roomy : roomyTable t calloc = some r) :
    r.val.count = t.count ∧ ∀ address, r.val.find address = t.find address := by
  unfold roomyTable at roomy
  split_ifs at roomy
  · cases roomy
    exact ⟨rfl, find_grown t⟩
  · cases roomy
    exact ⟨rfl, fun _ => rfl⟩

theorem roomyTable_none {calloc : Nat → Bool} (failed : roomyTable t calloc = none) :
    t.slots.length < 2 * (t.count + 1) ∧
      (sizeMax / visitedSlotSize < grownCapacity t.slots.length ∨
        calloc (grownCapacity t.slots.length) = false) := by
  unfold roomyTable at failed
  split_ifs at failed with full refused
  refine ⟨full, ?_⟩
  rw [Bool.or_eq_true, decide_eq_true_eq, Bool.not_eq_true'] at refused
  exact refused

theorem resizeVisitedMap_table (calloc : Nat → Bool) (capacity : Nat)
    (larger : (if capacity < 16 then 16 else capacity) = grownCapacity t.slots.length) :
    resizeVisitedMap hash calloc (ofTable t) capacity =
      some (if sizeMax / visitedSlotSize < grownCapacity t.slots.length ||
          !calloc (grownCapacity t.slots.length) then (false, ofTable t) else (true, ofTable (grown t))) := by
  obtain ⟨e, power⟩ := grownCapacity_power t
  have mask : grownCapacity t.slots.length &&& (grownCapacity t.slots.length - 1) = 0 := by
    rw [and_mask power, Nat.mod_self]
  have moved := moveSlots_place t (grownCapacity_power t) (le_trans (by omega) (grownCapacity_room t))
    (List.nil_append t.slots).symm
  rw [List.foldl_nil] at moved
  rw [resizeVisitedMap, larger]
  by_cases large : sizeMax / visitedSlotSize < grownCapacity t.slots.length
  · rw [if_pos (Or.inr large), if_pos (by simp [large])]
  · rw [if_neg (by simp [mask, large])]
    cases allowed : calloc (grownCapacity t.slots.length) with
    | false => simp
    | true =>
        simp only [Bool.not_true, Bool.or_false, decide_eq_true_eq, if_neg large, Bool.false_eq_true, if_false]
        rw [show (ofTable t).slots = t.slots from rfl, moved]
        rfl

theorem growVisitedMap_table (calloc : Nat → Bool) :
    growVisitedMap hash calloc (ofTable t) =
      some (match roomyTable t calloc with
        | none => (false, ofTable t)
        | some roomy => (true, ofTable roomy.val)) := by
  have capacity : (ofTable t).capacity = t.slots.length := rfl
  have count : (ofTable t).count = t.count := rfl
  by_cases full : t.slots.length < 2 * (t.count + 1)
  · rw [growVisitedMap, roomyTable, dif_pos full, if_pos (by omega)]
    by_cases wraps : t.slots.length < 2 ^ 63
    · have resized := resizeVisitedMap_table t calloc
        (if (ofTable t).capacity = 0 then 16 else (ofTable t).capacity * 2 % 2 ^ 64) (by
          unfold grownCapacity
          split_ifs <;> omega)
      have larger : ¬ (if (ofTable t).capacity = 0 then 16 else (ofTable t).capacity * 2 % 2 ^ 64) <
          (ofTable t).capacity := by
        split_ifs <;> omega
      simp only [if_neg larger, resized]
      split_ifs <;> rfl
    · -- the doubled capacity does not fit
      have wrapped : (ofTable t).capacity * 2 % 2 ^ 64 = 0 := by
        rcases t.formed.capacity with empty | ⟨e, power⟩
        · rw [List.map_eq_nil_iff.mp empty] at wraps
          exact absurd (by decide) wraps
        · rw [List.length_map] at power
          have high : 63 ≤ e := by
            by_contra low
            have := Nat.pow_lt_pow_right (a := 2) (by decide) (show e < 63 by omega)
            omega
          rw [capacity, power, ← pow_succ]
          exact Nat.mod_eq_zero_of_dvd (Nat.pow_dvd_pow 2 (by omega))
      have smaller : (if (ofTable t).capacity = 0 then 16 else (ofTable t).capacity * 2 % 2 ^ 64) <
          (ofTable t).capacity := by
        split_ifs <;> omega
      have large : sizeMax / visitedSlotSize < grownCapacity t.slots.length := by
        rw [show sizeMax / visitedSlotSize = 2 ^ 59 - 1 by decide, grownCapacity]
        omega
      simp only [if_pos smaller, large, decide_true, Bool.true_or, if_true]
  · rw [growVisitedMap, roomyTable, dif_neg full, if_neg (by omega)]

/-! ### Inserting -/

theorem key_inserted (address : Word) (info : CfgInfo) :
    (⟨address, info, true⟩ : VisitedSlot).key = some address := rfl

def insertTable (calloc : Nat → Bool) (address : Word) (info : CfgInfo) :
    Option (Table VisitedSlot.key fun address => (hash address).toNat) :=
  (roomyTable t calloc).map fun roomy =>
    if absent : roomy.val.find address = none then
      roomy.val.insert address ⟨address, info, true⟩ (key_inserted address info) absent roomy.property
    else roomy.val

theorem insertVisitedMap_table (calloc : Nat → Bool) (address : Word) (info : CfgInfo) :
    insertVisitedMap hash calloc (ofTable t) address info =
      some (match insertTable t calloc address info with
        | none => (none, ofTable t)
        | some after => (some (after.slotOf address), ofTable after)) := by
  rw [insertVisitedMap, growVisitedMap_table, insertTable]
  cases roomyTable t calloc with
  | none => rfl
  | some roomy =>
      obtain ⟨r, room⟩ := roomy
      have nonempty : r.slots ≠ [] := List.ne_nil_of_length_pos (by omega)
      obtain ⟨held, here, which⟩ := r.slotOf_stops nonempty address
      simp only [Option.bind_some, Option.map_some, Bool.not_true, Bool.false_eq_true, if_false, ofTable,
        SlotMap.capacity, probeSlots_table r nonempty, here, Option.bind_eq_bind]
      cases used : held.used with
      | false =>
          have absent : r.find address = none := by
            rw [Table.find, here, Option.filter_some, key_eq_none.mpr used]
            rfl
          have within := (List.getElem?_eq_some_iff.mp here).1
          have placed : (r.insert address ⟨address, info, true⟩ rfl absent room).slotOf address =
              r.slotOf address :=
            (r.insert address ⟨address, info, true⟩ rfl absent room).slotOf_of_mem
              (List.getElem?_set_self within) rfl
          simp only [dif_pos absent, placed]
          rfl
      | true =>
          have own : held.key = some address := by
            rcases which with free | own
            · rw [key_eq_none.mp free] at used
              cases used
            · exact own
          have found : r.find address = some held :=
            r.find_eq_some_iff.mpr ⟨List.mem_of_getElem? here, own⟩
          simp only [found, reduceCtorEq, dite_false, if_true]

theorem insertTable_spec {calloc : Nat → Bool} {info : CfgInfo}
    {after : Table VisitedSlot.key fun address => (hash address).toNat}
    (inserted : insertTable t calloc address info = some after) :
    after.count = (if (t.find address).isSome then t.count else t.count + 1) ∧
      ∀ other, after.find other =
        if other = address then some ((t.find address).getD ⟨address, info, true⟩) else t.find other := by
  obtain ⟨roomy, room, rfl⟩ := Option.map_eq_some_iff.mp inserted
  obtain ⟨count, find⟩ := roomyTable_spec t room
  by_cases absent : roomy.val.find address = none
  · have new : t.find address = none := by rw [← find, absent]
    rw [dif_pos absent, new]
    refine ⟨congrArg (· + 1) count, fun other => ?_⟩
    have taken : (roomy.val.insert address ⟨address, info, true⟩ rfl absent roomy.property).find other =
        if other = address then some ⟨address, info, true⟩ else roomy.val.find other :=
      roomy.val.find_insert rfl absent roomy.property
    rw [find] at taken
    exact taken
  · obtain ⟨held, known⟩ := Option.ne_none_iff_exists'.mp absent
    have old : t.find address = some held := by rw [← find, known]
    rw [dif_neg absent, old]
    refine ⟨count, fun other => ?_⟩
    split_ifs with same
    · rw [same, known]
      rfl
    · exact find other

theorem insertTable_none {calloc : Nat → Bool} {info : CfgInfo}
    (failed : insertTable t calloc address info = none) :
    t.slots.length < 2 * (t.count + 1) ∧
      (sizeMax / visitedSlotSize < grownCapacity t.slots.length ∨
        calloc (grownCapacity t.slots.length) = false) :=
  roomyTable_none t (Option.map_eq_none_iff.mp failed)

/-! ### Changing -/

theorem key_changed (f : CfgInfo → CfgInfo) (held : VisitedSlot) :
    VisitedSlot.key { held with info := f held.info } = held.key := rfl

def changeTable (address : Word) (f : CfgInfo → CfgInfo) :
    Table VisitedSlot.key fun address => (hash address).toNat :=
  t.modify address (fun held => { held with info := f held.info }) (key_changed f)

theorem changeInfo_table (address : Word) (f : CfgInfo → CfgInfo) :
    changeInfo (ofTable t) (t.slotOf address) f = ofTable (changeTable t address f) := rfl

theorem half_full : 2 * (ofTable t).count ≤ (ofTable t).capacity := by
  have half := t.formed.half
  rw [List.length_map] at half
  exact half

end Table

/-! ## The map of the analysis -/

section Analysis

variable (t : VisitedMap)

theorem findVisitedMap_analysis (address : Word) :
    findVisitedMap dearxanHashU64 (ofTable t) address =
      some ((Dearxan.findVisitedMap t address).map fun _ => t.slotOf address) :=
  findVisitedMap_table t address

theorem insertVisitedMap_analysis (size : t.slots.length = 0 ∨ 16 ≤ t.slots.length) (calloc : Nat → Bool)
    (address : Word) (info : CfgInfo) :
    insertVisitedMap dearxanHashU64 calloc (ofTable t) address info =
      some (match Dearxan.insertVisitedMap calloc t address info with
        | none => (none, ofTable t)
        | some after => (some (after.slotOf address), ofTable after)) := by
  have capacity : t.doubled 16 = grownCapacity t.slots.length := by
    unfold Table.doubled grownCapacity
    split_ifs <;> omega
  have grows : t.slots.length = 0 ∨ t.slots.length / 2 < t.count + 1 ↔
      t.slots.length < 2 * (t.count + 1) := by omega
  have roomy : Dearxan.resizeVisitedMap calloc t = roomyTable t calloc := by
    unfold Dearxan.resizeVisitedMap roomyTable grown
    simp only [capacity, grows]
  rw [insertVisitedMap_table, insertTable, Dearxan.insertVisitedMap, roomy]
  cases roomyTable t calloc with
  | none => rfl
  | some roomy => rfl

end Analysis

end Yafsml.Dearxan.VisitedSlots
