import Yafsml.Dearxan.VmMemory

/-! # Machines and their clones

Machines that hold pointers to their tables, and what any sequence of memory calls and clones makes
of what each of them knows. -/

namespace Yafsml.Dearxan

open LittleEndian OpenAddressing

/-! ## Byte maps -/

def imageMap (image : Option DearxanImage) : ByteMap := fun a =>
  match image with
  | none => none
  | some mapped => if mapped.baseVa ≤ a then mapped.bytes[(a - mapped.baseVa).toNat]? else none

theorem imageByte_eq (image : Option DearxanImage) (a : Word) : imageByte image a = imageMap image a := by
  cases image with
  | none => rfl
  | some mapped =>
      simp only [imageByte, imageMap, dearxanImageRead]
      by_cases below : a < mapped.baseVa
      · rw [if_pos below, if_neg (BitVec.not_le.mpr below), Option.bind_none]
      · rw [if_neg below, if_pos (BitVec.not_lt.mp below)]
        generalize (a - mapped.baseVa).toNat = offset
        split_ifs with outside short
        · rw [List.getElem?_eq_none (by omega), Option.bind_none]
        · rw [List.getElem?_eq_none (by omega), Option.bind_none]
        · rw [Option.bind_some, List.head?_drop]

theorem Edited.stored_eq {vm vm' : Vm} {address : Word} {size : Nat} {after : Nat → Option Byte}
    (edited : Edited vm vm' address size after) (aligned : AlignedImage vm.image) :
    vm'.stored = ByteMap.update vm.stored address size after := by
  funext a
  unfold ByteMap.update
  split_ifs with inside
  · exact (edited.inside a inside).1
  · exact (edited.outside a (by omega)).resolve_right fun ragged => ragged.2.2 aligned

/-! ## The pool -/

/-- A `dearxan_vm_t`; `blocks` is an address of the heap or `NULL`. The capacity and the number of
blocks are kept with the array. -/
structure DearxanVm where
  image : Option DearxanImage
  rip : Word
  ripKnown : Bool
  registers : Registers
  blocks : Option Nat

/-- The arrays that have been allocated, `none` for a freed one, and the machines. -/
structure Pool where
  heap : List (Option BlockTable)
  vms : List DearxanVm

namespace Pool

def table (pool : Pool) : Option Nat → BlockTable
  | none => .empty
  | some p => (pool.heap[p]?.join).getD .empty

def load (pool : Pool) (handle : DearxanVm) : Vm :=
  ⟨handle.image, handle.rip, handle.ripKnown, handle.registers, pool.table handle.blocks⟩

def vm (pool : Pool) (i : Nat) : Option Vm := pool.vms[i]?.map pool.load

def put (pool : Pool) (i : Nat) (handle : DearxanVm) (blocks : BlockTable) : Pool :=
  if blocks.slots.length = (pool.table handle.blocks).slots.length then
    match handle.blocks with
    | none => pool
    | some p => { pool with heap := pool.heap.set p (some blocks) }
  else
    let freed := match handle.blocks with
      | none => pool.heap
      | some p => pool.heap.set p none
    { heap := freed ++ [some blocks],
      vms := pool.vms.set i { handle with blocks := some pool.heap.length } }

/-- Every machine has an array of its own, which is not freed. -/
structure Separate (pool : Pool) : Prop where
  live : ∀ (i : Nat) (handle : DearxanVm) (p : Nat), pool.vms[i]? = some handle →
    handle.blocks = some p → ∃ blocks, pool.heap[p]? = some (some blocks)
  alone : ∀ (i j : Nat) (handle handle' : DearxanVm) (p : Nat), pool.vms[i]? = some handle → pool.vms[j]? = some handle' →
    handle.blocks = some p → handle'.blocks = some p → i = j

variable {pool : Pool} {i j : Nat} {handle : DearxanVm}

theorem table_congr {pool pool' : Pool} {blocks : Option Nat}
    (same : ∀ p, blocks = some p → pool'.heap[p]? = pool.heap[p]?) :
    pool'.table blocks = pool.table blocks := by
  cases blocks with
  | none => rfl
  | some p => rw [table, table, same p rfl]

theorem vm_congr {pool pool' : Pool} (handles : pool'.vms[i]? = pool.vms[i]?)
    (same : ∀ handle p, pool.vms[i]? = some handle → handle.blocks = some p →
      pool'.heap[p]? = pool.heap[p]?) : pool'.vm i = pool.vm i := by
  unfold vm
  rw [handles]
  cases held : pool.vms[i]? with
  | none => rfl
  | some handle =>
      simp only [Option.map_some, load]
      rw [table_congr fun p own => same handle p held own]

namespace Separate

variable (separate : pool.Separate) (held : pool.vms[i]? = some handle)

include separate

theorem lt {p : Nat} (held : pool.vms[i]? = some handle) (own : handle.blocks = some p) :
    p < pool.heap.length := by
  obtain ⟨blocks, found⟩ := separate.live i handle p held own
  exact (List.getElem?_eq_some_iff.mp found).1

theorem fresh {pool' : Pool} (n : Nat) (others : ∀ j ≠ n, pool'.vms[j]? = pool.vms[j]?)
    (kept : ∀ j ≠ n, ∀ (handle : DearxanVm) (q : Nat), pool.vms[j]? = some handle →
      handle.blocks = some q → pool'.heap[q]? = pool.heap[q]?)
    (new : ∀ handle : DearxanVm, pool'.vms[n]? = some handle → ∀ q, handle.blocks = some q →
      q = pool.heap.length ∧ ∃ blocks, pool'.heap[q]? = some (some blocks)) : pool'.Separate := by
  have below {j q : Nat} {handle : DearxanVm} (apart : j ≠ n) (held : pool'.vms[j]? = some handle)
      (own : handle.blocks = some q) : q < pool.heap.length := by
    rw [others j apart] at held
    exact separate.lt held own
  refine ⟨fun j handle q held own => ?_, fun j k handle handle' q held held' own own' => ?_⟩
  · by_cases here : j = n
    · subst here
      exact (new handle held q own).2
    · rw [others j here] at held
      rw [kept j here handle q held own]
      exact separate.live j handle q held own
  · by_cases here : j = n <;> by_cases here' : k = n
    · rw [here, here']
    · subst here
      have := (new handle held q own).1
      have := below here' held' own'
      omega
    · subst here'
      have := (new handle' held' q own').1
      have := below here held own
      omega
    · rw [others j here] at held
      rw [others k here'] at held'
      exact separate.alone j k handle handle' q held held' own own'

include held

theorem put_other (blocks : BlockTable) (apart : j ≠ i) :
    (pool.put i handle blocks).vm j = pool.vm j := by
  have elsewhere {handle' : DearxanVm} {p q : Nat} (held' : pool.vms[j]? = some handle')
      (own' : handle'.blocks = some q) (own : handle.blocks = some p) : p ≠ q := by
    rintro rfl
    exact apart (separate.alone j i handle' handle p held' held own' own)
  unfold put
  split_ifs
  · cases own : handle.blocks with
    | none => rfl
    | some p =>
        apply vm_congr
        · rfl
        intro handle' q held' own'
        exact List.getElem?_set_ne (elsewhere held' own' own)
  · apply vm_congr
    · exact List.getElem?_set_ne (Ne.symm apart)
    · intro handle' q held' own'
      have below := separate.lt held' own'
      cases own : handle.blocks with
      | none => exact List.getElem?_append_left below
      | some p =>
          refine (List.getElem?_append_left (by rwa [List.length_set])).trans ?_
          exact List.getElem?_set_ne (elsewhere held' own' own)

theorem put_self (blocks : BlockTable) :
    (pool.put i handle blocks).vm i = some { pool.load handle with blocks := blocks } := by
  unfold put
  split_ifs with same
  · cases own : handle.blocks with
    | none =>
        have empty : blocks = .empty := Table.eq_empty blocks (by rw [same, own]; rfl)
        unfold vm
        rw [held, empty]
        simp only [Option.map_some, load, own]
        rfl
    | some p =>
        have below := separate.lt held own
        unfold vm
        rw [held]
        simp [load, own, table, List.getElem?_set_self below]
  · have place : (match handle.blocks with
        | none => pool.heap
        | some p => pool.heap.set p none).length = pool.heap.length := by
      cases handle.blocks <;> simp
    unfold vm
    rw [List.getElem?_set_self (List.getElem?_eq_some_iff.mp held).1]
    simp only [Option.map_some, load, table, List.getElem?_append_right place.le, place, Nat.sub_self]
    rfl

theorem put (blocks : BlockTable) : (pool.put i handle blocks).Separate := by
  unfold Pool.put
  split_ifs
  · cases own : handle.blocks with
    | none => exact separate
    | some p =>
        refine ⟨fun j handle' q held' own' => ?_, separate.alone⟩
        obtain ⟨blocks', found⟩ := separate.live j handle' q held' own'
        by_cases here : p = q
        · subst here
          exact ⟨blocks, List.getElem?_set_self (separate.lt held' own')⟩
        · exact ⟨blocks', (List.getElem?_set_ne here).trans found⟩
  · apply separate.fresh i
    · exact fun j apart => List.getElem?_set_ne (Ne.symm apart)
    · intro j apart handle' q held' own'
      have below := separate.lt held' own'
      cases own : handle.blocks with
      | none => exact List.getElem?_append_left below
      | some p =>
          refine (List.getElem?_append_left (by rwa [List.length_set])).trans ?_
          apply List.getElem?_set_ne
          rintro rfl
          exact apart (separate.alone j i handle' handle p held' held own' own)
    · intro handle' held' q own'
      rw [List.getElem?_set_self (List.getElem?_eq_some_iff.mp held).1] at held'
      cases held'
      cases own'
      refine ⟨rfl, blocks, ?_⟩
      cases handle.blocks with
      | none => simp
      | some p =>
          rw [List.getElem?_append_right (by simp)]
          simp

end Separate

/-! ## Calls -/

/-- A call of the memory functions, on one of the machines. -/
inductive Call
  | write (i : Nat) (address : Word) (input : Nat → Byte) (size : Word)
  | invalidate (i : Nat) (address size : Word)
  | read (i : Nat) (address size : Word)
  | clone (i : Nat)

abbrev Answers := List (Option (List Byte))

def init (image : Option DearxanImage) (rip rsp : Word) : Pool :=
  let vm := dearxanVmInit image rip rsp
  ⟨[], [⟨vm.image, vm.rip, vm.ripKnown, vm.registers, none⟩]⟩

def clone (pool : Pool) (handle : DearxanVm) : Pool :=
  if (pool.table handle.blocks).slots.length = 0 then
    { pool with vms := pool.vms ++ [{ handle with blocks := none }] }
  else
    { heap := pool.heap ++ [some (pool.table handle.blocks)],
      vms := pool.vms ++ [{ handle with blocks := some pool.heap.length }] }

/-- `none` is for want of memory, or a machine that does not exist. -/
def call (calloc : Nat → Bool) (pool : Pool) : Call → Option (Pool × Answers)
  | .write i address input size => do
      let handle ← pool.vms[i]?
      let vm ← dearxanVmWriteMemory calloc (pool.load handle) address input size.toNat
      return (pool.put i handle vm.blocks, [])
  | .invalidate i address size => do
      let handle ← pool.vms[i]?
      let vm ← dearxanVmInvalidateMemory calloc (pool.load handle) address size.toNat
      return (pool.put i handle vm.blocks, [])
  | .read i address size => do
      let handle ← pool.vms[i]?
      return (pool, [dearxanVmReadMemory (pool.load handle) address size.toNat])
  | .clone i => do
      let handle ← pool.vms[i]?
      let _ ← dearxanVmClone calloc (pool.load handle)
      return (pool.clone handle, [])

def run (calloc : Nat → Bool) : Pool → List Call → Option (Pool × Answers)
  | pool, [] => some (pool, [])
  | pool, first :: rest => do
      let (pool, answers) ← pool.call calloc first
      let (pool, later) ← run calloc pool rest
      return (pool, answers ++ later)

/-! ## A clone -/

section Clone

variable {pool : Pool} (separate : pool.Separate) (handle : DearxanVm)

variable (pool) in
theorem clone_vms :
    ∃ blocks, (pool.clone handle).vms = pool.vms ++ [{ handle with blocks := blocks }] := by
  unfold clone
  split_ifs
  · exact ⟨none, rfl⟩
  · exact ⟨some pool.heap.length, rfl⟩

theorem clone_heap {p : Nat} (below : p < pool.heap.length) :
    (pool.clone handle).heap[p]? = pool.heap[p]? := by
  unfold clone
  split_ifs
  · rfl
  · exact List.getElem?_append_left below

theorem clone_new : (pool.clone handle).vm pool.vms.length = some (pool.load handle) := by
  unfold Pool.clone
  split_ifs with empty
  · unfold vm
    rw [List.getElem?_concat_length]
    simp only [Option.map_some, load, Table.eq_empty _ empty]
    rfl
  · unfold vm
    rw [List.getElem?_concat_length]
    simp [load, table]

include separate

theorem Separate.clone_old {j : Nat} (old : j < pool.vms.length) :
    (pool.clone handle).vm j = pool.vm j := by
  obtain ⟨blocks, vms⟩ := clone_vms pool handle
  apply vm_congr
  · rw [vms, List.getElem?_append_left old]
  · intro handle' p held own
    exact clone_heap handle (separate.lt held own)

theorem Separate.clone : (pool.clone handle).Separate := by
  obtain ⟨blocks, vms⟩ := clone_vms pool handle
  apply separate.fresh pool.vms.length
  · intro j apart
    rw [vms]
    rcases Nat.lt_or_gt_of_ne apart with old | beyond
    · exact List.getElem?_append_left old
    · rw [List.getElem?_eq_none (by simp; omega), List.getElem?_eq_none (by omega)]
  · intro j apart handle' q held own
    exact clone_heap handle (separate.lt held own)
  · intro handle' held q own
    unfold Pool.clone at held ⊢
    split_ifs at held ⊢
    · rw [List.getElem?_concat_length] at held
      cases held
      cases own
    · rw [List.getElem?_concat_length] at held
      cases held
      cases own
      exact ⟨rfl, pool.table handle.blocks, List.getElem?_concat_length⟩

end Clone

end Pool

/-! ## The reference -/

def callMaps (maps : List ByteMap) : Pool.Call → Option (List ByteMap × Pool.Answers)
  | .write i address input size =>
      maps[i]?.map fun map => (maps.set i (map.write address input size.toNat), [])
  | .invalidate i address size =>
      maps[i]?.map fun map => (maps.set i (map.forget address size.toNat), [])
  | .read i address size => maps[i]?.map fun map => (maps, [map.read address size.toNat])
  | .clone i => maps[i]?.map fun map => (maps ++ [map], [])

def runMaps : List ByteMap → List Pool.Call → Option (List ByteMap × Pool.Answers)
  | maps, [] => some (maps, [])
  | maps, first :: rest => do
      let (maps, answers) ← callMaps maps first
      let (maps, later) ← runMaps maps rest
      return (maps, answers ++ later)

structure Represents (image : Option DearxanImage) (pool : Pool) (maps : List ByteMap) : Prop where
  separate : pool.Separate
  length : pool.vms.length = maps.length
  stored : ∀ i vm, pool.vm i = some vm → vm.image = image ∧ maps[i]? = some vm.stored

namespace Represents

variable {image : Option DearxanImage} {pool pool' : Pool} {maps : List ByteMap} {i : Nat}
  {handle : DearxanVm} (represents : Represents image pool maps) (held : pool.vms[i]? = some handle)

include represents held

theorem load : (pool.load handle).image = image ∧ maps[i]? = some (pool.load handle).stored :=
  represents.stored i (pool.load handle) (by rw [Pool.vm, held, Option.map_some])

theorem edit {vm' : Vm} {address : Word} {size : Nat} {after : Nat → Option Byte}
    (aligned : AlignedImage image) (edited : Edited (pool.load handle) vm' address size after) :
    Represents image (pool.put i handle vm'.blocks)
      (maps.set i (ByteMap.update (pool.load handle).stored address size after)) := by
  obtain ⟨same, at_i⟩ := represents.load held
  have within := (List.getElem?_eq_some_iff.mp held).1
  have length : (pool.put i handle vm'.blocks).vms.length = pool.vms.length := by
    unfold Pool.put
    split_ifs
    · cases handle.blocks <;> rfl
    · exact List.length_set
  refine ⟨represents.separate.put held _, by rw [length, List.length_set, represents.length], ?_⟩
  intro j vm found
  by_cases here : j = i
  · subst here
    rw [represents.separate.put_self held] at found
    cases found
    refine ⟨same, ?_⟩
    rw [List.getElem?_set_self (by rw [← represents.length]; exact within),
      ← edited.stored_eq (same ▸ aligned)]
    have stored : vm'.stored = ({ pool.load handle with blocks := vm'.blocks } : Vm).stored := by
      funext a
      unfold Vm.stored
      rw [edited.cpu.image]
    rw [stored]
  · rw [represents.separate.put_other held _ here] at found
    rw [List.getElem?_set_ne (Ne.symm here)]
    exact represents.stored j vm found

omit held in
theorem clone (held : pool.vms[i]? = some handle) :
    Represents image (pool.clone handle) (maps ++ [(pool.load handle).stored]) := by
  obtain ⟨blocks, vms⟩ := Pool.clone_vms pool handle
  refine ⟨represents.separate.clone handle, by rw [vms]; simp [represents.length], ?_⟩
  intro j vm found
  have below : j < pool.vms.length + 1 := by
    obtain ⟨handle', held', _⟩ := Option.map_eq_some_iff.mp found
    simpa [vms] using (List.getElem?_eq_some_iff.mp held').1
  rcases Nat.lt_succ_iff_lt_or_eq.mp below with old | rfl
  · rw [represents.separate.clone_old handle old] at found
    rw [List.getElem?_append_left (by rw [← represents.length]; exact old)]
    exact represents.stored j vm found
  · rw [Pool.clone_new] at found
    cases found
    rw [represents.length, List.getElem?_concat_length]
    exact ⟨(represents.load held).1, rfl⟩

omit held in
/-- One call keeps the machines and their byte maps together, and its read gives the same. -/
theorem call {calloc : Nat → Bool} {c : Pool.Call} {answers : Pool.Answers} (aligned : AlignedImage image)
    (called : pool.call calloc c = some (pool', answers)) :
    ∃ maps', callMaps maps c = some (maps', answers) ∧ Represents image pool' maps' := by
  cases c with
  | write i address input size =>
      obtain ⟨handle, held, called⟩ := Option.bind_eq_some_iff.mp called
      obtain ⟨vm', wrote, called⟩ := Option.bind_eq_some_iff.mp called
      cases called
      have edited := dearxanVmWriteMemory_spec size.isLt.le wrote
      exact ⟨_, by rw [callMaps, (represents.load held).2]; rfl, represents.edit held aligned edited⟩
  | invalidate i address size =>
      obtain ⟨handle, held, called⟩ := Option.bind_eq_some_iff.mp called
      obtain ⟨vm', forgot, called⟩ := Option.bind_eq_some_iff.mp called
      cases called
      have edited := dearxanVmInvalidateMemory_spec size.isLt.le forgot
      exact ⟨_, by rw [callMaps, (represents.load held).2]; rfl, represents.edit held aligned edited⟩
  | read i address size =>
      obtain ⟨handle, held, called⟩ := Option.bind_eq_some_iff.mp called
      cases called
      refine ⟨maps, ?_, represents⟩
      rw [callMaps, (represents.load held).2, dearxanVmReadMemory_eq]
      rfl
  | clone i =>
      obtain ⟨handle, held, called⟩ := Option.bind_eq_some_iff.mp called
      obtain ⟨_, _, called⟩ := Option.bind_eq_some_iff.mp called
      cases called
      exact ⟨_, by rw [callMaps, (represents.load held).2]; rfl, represents.clone held⟩

omit held in
theorem run {calloc : Nat → Bool} {calls : List Pool.Call} {answers : Pool.Answers}
    (aligned : AlignedImage image) (ran : pool.run calloc calls = some (pool', answers)) :
    ∃ maps', runMaps maps calls = some (maps', answers) ∧ Represents image pool' maps' := by
  induction calls generalizing pool maps answers with
  | nil =>
      cases ran
      exact ⟨maps, rfl, represents⟩
  | cons c rest ih =>
      obtain ⟨⟨middle, first⟩, called, ran⟩ := Option.bind_eq_some_iff.mp ran
      obtain ⟨⟨_, later⟩, rested, ran⟩ := Option.bind_eq_some_iff.mp ran
      cases ran
      obtain ⟨maps', calledMaps, represents'⟩ := represents.call aligned called
      obtain ⟨maps'', restedMaps, represents''⟩ := ih represents' rested
      refine ⟨maps'', ?_, represents''⟩
      simp [runMaps, calledMaps, restedMaps]

end Represents

theorem represents_init (image : Option DearxanImage) (rip rsp : Word) :
    Represents image (.init image rip rsp) [imageMap image] := by
  have only {i : Nat} {handle : DearxanVm} (held : (Pool.init image rip rsp).vms[i]? = some handle) :
      i = 0 ∧ handle.blocks = none ∧ handle.image = image := by
    cases i with
    | zero =>
        cases held
        exact ⟨rfl, rfl, rfl⟩
    | succ i => cases held
  refine ⟨⟨fun i handle p held own => ?_, fun i j handle handle' p held held' _ _ => ?_⟩, rfl,
    fun i vm found => ?_⟩
  · rw [(only held).2.1] at own
    cases own
  · rw [(only held).1, (only held').1]
  · obtain ⟨handle, held, rfl⟩ := Option.map_eq_some_iff.mp found
    obtain ⟨rfl, empty, same⟩ := only held
    refine ⟨same, congrArg some (funext fun a => ?_)⟩
    unfold Vm.stored Pool.load
    rw [empty, same]
    exact (imageByte_eq image a).symm

/-- A search comes to a free slot or to the block, in a table and in one that is being filled. -/
def ProbesEnd (blocks : BlockTable) : Prop :=
  2 * blocks.count ≤ blocks.slots.length ∧
    (blocks.slots ≠ [] → ∀ index, ∃ block, blocks.slots[blocks.slotOf index]? = some block ∧
      (block.index = none ∨ block.index = some index)) ∧
    ∀ moved waiting : List Block, blocks.slots = moved ++ waiting → ∀ index, ∃ block,
      let placed := moved.foldl (Table.place Block.index fun index => (dearxanHashU64 index).toNat)
        (List.replicate (grownCapacity blocks) .unused)
      placed[probe (fun index => (dearxanHashU64 index).toNat) (placed.map Block.index) index]? =
          some block ∧ (block.index = none ∨ block.index = some index)

theorem probesEnd (blocks : BlockTable) : ProbesEnd blocks := by
  have half := blocks.formed.half
  rw [List.length_map] at half
  refine ⟨half, blocks.slotOf_stops, fun moved waiting split index => ?_⟩
  have capacity := half_grownCapacity blocks
  obtain ⟨formed, _⟩ := blocks.place_part unused_index (grownCapacity_power blocks) (by omega) split
  have length := Table.length_place_run Block.index (fun index => (dearxanHashU64 index).toNat)
    (List.replicate (grownCapacity blocks) .unused) moved
  rw [List.length_replicate] at length
  have stopped := formed.probe_stops (List.ne_nil_of_length_pos (by rw [List.length_map]; omega)) index
  simp only [List.getElem?_map, Option.map_eq_some_iff] at stopped
  rcases stopped with ⟨block, found, free⟩ | ⟨block, found, own⟩
  · exact ⟨block, found, .inl free⟩
  · exact ⟨block, found, .inr own⟩

/-- Whatever calls are made on an image that begins and ends at block boundaries, and on the clones:
every read gives what the byte maps give. -/
theorem vmMemory_refines {calloc : Nat → Bool} {image : Option DearxanImage} (aligned : AlignedImage image)
    (rip rsp : Word) (calls : List Pool.Call) {pool : Pool} {answers : Pool.Answers}
    (ran : (Pool.init image rip rsp).run calloc calls = some (pool, answers)) :
    (∃ maps, runMaps [imageMap image] calls = some (maps, answers) ∧
      pool.vms.length = maps.length ∧
      ∀ i vm, pool.vm i = some vm → ∃ map, maps[i]? = some map ∧
        ∀ address size, dearxanVmReadMemory vm address size = map.read address size) ∧
      ∀ i vm, pool.vm i = some vm → ProbesEnd vm.blocks := by
  refine ⟨?_, fun i vm _ => probesEnd vm.blocks⟩
  obtain ⟨maps, ranMaps, represents⟩ := (represents_init image rip rsp).run aligned ran
  refine ⟨maps, ranMaps, represents.length, fun i vm found => ?_⟩
  exact ⟨vm.stored, (represents.stored i vm found).2, dearxanVmReadMemory_eq vm⟩

/-- A write over a block boundary, a clone and an invalidation in the clone. -/
def cloneCalls : List Pool.Call :=
  [.write 0 0x103e (fun _ => 5) 4, .clone 0, .invalidate 1 0x1040 1, .read 0 0x103e 4, .read 1 0x103e 4]

theorem vmMemory_cloneCalls :
    ∃ maps pool answers, runMaps [imageMap (some ⟨List.replicate 64 7, 0x1000⟩)] cloneCalls =
      some (maps, answers) ∧ (Pool.init (some ⟨List.replicate 64 7, 0x1000⟩) 0 0).run (fun _ => true)
        cloneCalls = some (pool, answers) := by
  obtain ⟨⟨pool, answers⟩, ran⟩ : ∃ out, (Pool.init (some ⟨List.replicate 64 7, 0x1000⟩) 0 0).run
      (fun _ => true) cloneCalls = some out := ⟨_, rfl⟩
  have aligned : AlignedImage (some ⟨List.replicate 64 7, 0x1000⟩) := by
    intro mapped same
    cases same
    exact ⟨rfl, rfl⟩
  obtain ⟨⟨maps, ranMaps, _⟩, _⟩ := vmMemory_refines aligned 0 0 cloneCalls ran
  exact ⟨maps, pool, answers, ranMaps, ran⟩

end Yafsml.Dearxan
