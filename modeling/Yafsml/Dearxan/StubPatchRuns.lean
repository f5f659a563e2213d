import Yafsml.Dearxan.StubPatchCode

/-! # The memory that the patches leave -/

namespace Yafsml.Dearxan

open LittleEndian X86

def jumpWrite (stub : StubInfo) (code : Word) : Write :=
  ⟨stub.testRspVa, 0xe9#8 :: littleEndian 4 (code - (stub.testRspVa + 5))⟩

/-- The writes for these stubs, with their code one after the other from `offset` on. -/
inductive CodePlaced (base : Word) : Nat → List StubInfo → List Write → Prop
  | nil {offset : Nat} : CodePlaced base offset [] []
  | cons {offset : Nat} {stub : StubInfo} {stubs : List StubInfo} {patch : List Byte}
      {writes : List Write} (emitted : emitStubPatch stub 64 = some patch)
      (inside : offset + patch.length ≤ codeBufferSize)
      (near : -2 ^ 31 ≤ (base + BitVec.ofNat 64 offset - (stub.testRspVa + 5)).toInt ∧
        (base + BitVec.ofNat 64 offset - (stub.testRspVa + 5)).toInt ≤ 2 ^ 31 - 1)
      (rest : CodePlaced base (offset + patch.length) stubs writes) :
      CodePlaced base offset (stub :: stubs)
        (⟨base + BitVec.ofNat 64 offset, patch⟩ ::
          jumpWrite stub (base + BitVec.ofNat 64 offset) :: writes)

variable {process : Process}

theorem allocateNearCode_some {buffer buffer' : CodeBuffer} {size : Nat} {code : Word}
    (allocated : allocateNearCode process buffer size = (buffer', some code)) :
    ∃ base, buffer.base.or process.near = some base ∧ buffer' = ⟨some base, buffer.offset + size⟩ ∧
      code = base + BitVec.ofNat 64 buffer.offset ∧ buffer.offset + size ≤ codeBufferSize := by
  unfold allocateNearCode at allocated
  split at allocated
  · cases allocated
  · rename_i base found
    split at allocated
    · cases allocated
    · rename_i fits
      cases allocated
      exact ⟨base, found, rfl, rfl, by omega⟩

theorem installJumps_cons {stub : StubInfo} {stubs : List StubInfo} {buffer : CodeBuffer}
    (succeeded : (installJumps process (stub :: stubs) buffer).2.2 = none) :
    ∃ patch base, emitStubPatch stub 64 = some patch ∧ buffer.base.or process.near = some base ∧
      buffer.offset + patch.length ≤ codeBufferSize ∧
      (-2 ^ 31 ≤ (base + BitVec.ofNat 64 buffer.offset - (stub.testRspVa + 5)).toInt ∧
        (base + BitVec.ofNat 64 buffer.offset - (stub.testRspVa + 5)).toInt ≤ 2 ^ 31 - 1) ∧
      installJumps process (stub :: stubs) buffer =
        (⟨base + BitVec.ofNat 64 buffer.offset, patch⟩ ::
            jumpWrite stub (base + BitVec.ofNat 64 buffer.offset) ::
            (installJumps process stubs ⟨some base, buffer.offset + patch.length⟩).1,
          (installJumps process stubs ⟨some base, buffer.offset + patch.length⟩).2) := by
  rw [installJumps] at succeeded ⊢
  cases emitted : emitStubPatch stub 64 with
  | none => simp [emitted] at succeeded
  | some patch =>
      rcases allocated : allocateNearCode process buffer patch.length with ⟨buffer', _ | code⟩
      · simp [emitted, allocated] at succeeded
      · obtain ⟨base, found, rfl, rfl, inside⟩ := allocateNearCode_some allocated
        simp only [emitted, allocated] at succeeded ⊢
        split at succeeded
        · cases succeeded
        · rename_i near
          split at succeeded
          · cases succeeded
          · rename_i writable
            rw [if_neg near, if_neg writable]
            exact ⟨patch, base, rfl, found, inside, by omega, rfl⟩

theorem installJumps_placed (base : Word) {stubs : List StubInfo} {buffer : CodeBuffer}
    (found : buffer.base.or process.near = some base)
    (succeeded : (installJumps process stubs buffer).2.2 = none) :
    CodePlaced base buffer.offset stubs (installJumps process stubs buffer).1 := by
  induction stubs generalizing buffer with
  | nil => exact .nil
  | cons stub stubs ih =>
      obtain ⟨patch, base', emitted, found', inside, near, installs⟩ := installJumps_cons succeeded
      rw [found] at found'
      cases found'
      rw [installs] at succeeded ⊢
      exact .cons emitted inside near (ih rfl succeeded)

/-! ## No two writes meet -/

/-- At least five bytes apart, counted in both directions. -/
def FiveApart (p q : StubInfo) : Prop :=
  5 ≤ (p.testRspVa - q.testRspVa).toNat ∧ 5 ≤ (q.testRspVa - p.testRspVa).toNat

def OutsideBuffer (base : Word) (stub : StubInfo) : Prop :=
  ∀ a, (a - stub.testRspVa).toNat < 5 → codeBufferSize ≤ (a - base).toNat

theorem covers_jumpWrite {stub : StubInfo} {code a : Word} :
    (jumpWrite stub code).covers a = true ↔ (a - stub.testRspVa).toNat < 5 := by
  simp [Write.covers, jumpWrite, littleEndian]

theorem covers_code {base a : Word} {offset : Nat} {patch : List Byte}
    (inside : offset + patch.length ≤ codeBufferSize)
    (covered : (⟨base + BitVec.ofNat 64 offset, patch⟩ : Write).covers a = true) :
    offset ≤ (a - base).toNat ∧ (a - base).toNat < offset + patch.length := by
  have distance := of_decide_eq_true covered
  simp only [← BitVec.sub_sub] at distance
  generalize a - base = k at distance ⊢
  have := k.isLt
  rw [BitVec.toNat_sub, BitVec.toNat_ofNat] at distance
  unfold codeBufferSize at inside
  omega

theorem jumpWrite_apart {p q : StubInfo} (apart : FiveApart p q) (code code' : Word) :
    (jumpWrite p code).Apart (jumpWrite q code') := by
  intro a covered
  by_contra other
  have first := covers_jumpWrite.mp covered
  have second := covers_jumpWrite.mp (by simpa using other)
  obtain ⟨forward, backward⟩ := apart
  rw [BitVec.toNat_sub] at forward backward first second
  have := a.isLt
  have := p.testRspVa.isLt
  have := q.testRspVa.isLt
  omega

theorem code_apart_jump {base : Word} {offset : Nat} {patch : List Byte} {stub : StubInfo}
    (inside : offset + patch.length ≤ codeBufferSize) (outside : OutsideBuffer base stub)
    (code : Word) :
    (⟨base + BitVec.ofNat 64 offset, patch⟩ : Write).Apart (jumpWrite stub code) := by
  intro a covered
  by_contra other
  have distance := covers_code inside covered
  have beyond := outside a (covers_jumpWrite.mp (by simpa using other))
  omega

theorem CodePlaced.mem {base : Word} {offset : Nat} {stubs : List StubInfo} {writes : List Write}
    (placed : CodePlaced base offset stubs writes) {w : Write} (member : w ∈ writes) :
    (∃ start patch, offset ≤ start ∧ start + patch.length ≤ codeBufferSize ∧
        w = ⟨base + BitVec.ofNat 64 start, patch⟩) ∨
      ∃ stub ∈ stubs, ∃ code, w = jumpWrite stub code := by
  induction placed with
  | nil => cases member
  | @cons offset stub stubs patch writes emitted inside near rest ih =>
      rcases List.mem_cons.mp member with rfl | member
      · exact .inl ⟨offset, patch, le_rfl, inside, rfl⟩
      · rcases List.mem_cons.mp member with rfl | member
        · exact .inr ⟨stub, .head _, _, rfl⟩
        · rcases ih member with ⟨start, patch', after, inside', rfl⟩ | ⟨stub', among, code, rfl⟩
          · exact .inl ⟨start, patch', by omega, inside', rfl⟩
          · exact .inr ⟨stub', .tail _ among, code, rfl⟩

theorem CodePlaced.pairwise {base : Word} {offset : Nat} {stubs : List StubInfo} {writes : List Write}
    (placed : CodePlaced base offset stubs writes) (apart : stubs.Pairwise FiveApart)
    (outside : ∀ stub ∈ stubs, OutsideBuffer base stub) : writes.Pairwise Write.Apart := by
  induction placed with
  | nil => exact .nil
  | @cons offset stub stubs patch writes emitted inside near rest ih =>
      obtain ⟨apart_first, apart⟩ := List.pairwise_cons.mp apart
      have outside_rest : ∀ stub ∈ stubs, OutsideBuffer base stub := fun stub' among =>
        outside stub' (.tail _ among)
      refine .cons ?_ (.cons ?_ (ih apart outside_rest))
      · intro w member
        rcases List.mem_cons.mp member with rfl | member
        · exact code_apart_jump inside (outside stub (.head _)) _
        · rcases rest.mem member with ⟨start, patch', after, inside', rfl⟩ | ⟨stub', among, code, rfl⟩
          · intro a covered
            by_contra other
            have first := covers_code inside covered
            have second := covers_code inside' (by simpa using other)
            omega
          · exact code_apart_jump inside (outside_rest stub' among) code
      · intro w member
        rcases rest.mem member with ⟨start, patch', after, inside', rfl⟩ | ⟨stub', among, code, rfl⟩
        · exact (code_apart_jump inside' (outside stub (.head _)) _).symm
        · exact jumpWrite_apart (apart_first stub' among) _ _

theorem CodePlaced.find {base : Word} {offset : Nat} {stubs : List StubInfo} {writes : List Write}
    (placed : CodePlaced base offset stubs writes) {stub : StubInfo} (member : stub ∈ stubs) :
    ∃ patch ∈ writes, emitStubPatch stub 64 = some patch.bytes ∧ patch.bytes.length ≤ codeBufferSize ∧
      jumpWrite stub patch.address ∈ writes ∧
      -2 ^ 31 ≤ (patch.address - (stub.testRspVa + 5)).toInt ∧
      (patch.address - (stub.testRspVa + 5)).toInt ≤ 2 ^ 31 - 1 := by
  induction placed with
  | nil => cases member
  | @cons offset stub' stubs patch writes emitted inside near rest ih =>
      rcases List.mem_cons.mp member with rfl | later
      · exact ⟨_, .head _, emitted, by simp only; omega, .tail _ (.head _), near⟩
      · obtain ⟨patch', among, emitted', small, jump, near'⟩ := ih later
        exact ⟨patch', .tail _ (.tail _ among), emitted', small, .tail _ (.tail _ jump), near'⟩

/-! ## Runs from the stubs -/

theorem holds_of_write {ws : List Write} (apart : ws.Pairwise Write.Apart) {w : Write} (among : w ∈ ws)
    (small : w.bytes.length < 2 ^ 64) (memory : Memory) :
    Holds (Write.all ws memory) w.address w.bytes := by
  intro k below
  have distance := offset_of_start w.address (below.trans small)
  have covered : w.covers (w.address + BitVec.ofNat 64 k) = true :=
    decide_eq_true (by rwa [distance])
  rw [Write.all_covered apart among covered, distance, List.getD_eq_getElem?_getD,
    List.getElem?_eq_getElem below, Option.getD_some]

theorem outsideBuffer_of_readable {base : Word} {stub : StubInfo}
    (readable : dearxanImageRead (some process.image) stub.testRspVa 5 ≠ none)
    (fresh : ∀ a, (a - base).toNat < codeBufferSize →
      process.image.bytes.length ≤ (a - process.image.baseVa).toNat) : OutsideBuffer base stub := by
  intro a near
  by_contra inside
  have free := fresh a (by omega)
  unfold dearxanImageRead at readable
  simp only [ne_eq, ite_eq_left_iff, reduceCtorEq, not_forall, not_false_eq_true] at readable
  obtain ⟨ordered, below, room, -⟩ := readable
  rw [BitVec.lt_def] at ordered
  rw [BitVec.toNat_sub] at *
  have := a.isLt
  have := stub.testRspVa.isLt
  have := process.image.baseVa.isLt
  omega

theorem run_jump {m : Machine} {stub : StubInfo} {code : Word}
    (holds : Holds m.memory stub.testRspVa (jumpWrite stub code).bytes) (start : m.rip = stub.testRspVa)
    (near : -2 ^ 31 ≤ (code - (stub.testRspVa + 5)).toInt ∧
      (code - (stub.testRspVa + 5)).toInt ≤ 2 ^ 31 - 1) :
    m.step = some { m with rip := code } := by
  rw [← start] at holds near
  have jumped := Machine.step_jmpNear (m := m) (d := code - (m.rip + 5)) (by
    simpa [jumpWrite, littleEndian, ← start] using holds)
  rw [signExtend_dword_self near.1 near.2] at jumped
  rw [jumped, BitVec.add_comm (m.rip + 5), BitVec.sub_add_cancel]

theorem diverts {ws : List Write} {memory : Memory} {m : Machine} {stub : StubInfo} {patch : Write}
    (apart : ws.Pairwise Write.Apart) (among : patch ∈ ws)
    (emitted : emitStubPatch stub 64 = some patch.bytes)
    (small : patch.bytes.length ≤ codeBufferSize) (jump : jumpWrite stub patch.address ∈ ws)
    (near : -2 ^ 31 ≤ (patch.address - (stub.testRspVa + 5)).toInt ∧
      (patch.address - (stub.testRspVa + 5)).toInt ≤ 2 ^ 31 - 1)
    (patched : m.memory = Write.all ws memory) (start : m.rip = stub.testRspVa)
    (clear : SlotClear stub patch m) : Diverts stub m := by
  have small' : patch.bytes.length < 2 ^ 64 := small.trans_lt (by decide)
  have code : Holds m.memory patch.address patch.bytes := by
    rw [patched]
    exact holds_of_write apart among small' memory
  have jumping : Holds m.memory stub.testRspVa (jumpWrite stub patch.address).bytes := by
    rw [patched]
    exact holds_of_write apart jump (by simp [jumpWrite, littleEndian]) memory
  have stepped := run_jump jumping start near
  let m₁ : Machine := { m with rip := patch.address }
  cases gadget : stub.returnGadget with
  | none =>
      have run : Diverts stub m₁ := run_plain gadget emitted code rfl
      simp only [Diverts, gadget] at run ⊢
      obtain ⟨m', reaches, rest⟩ := run
      exact ⟨m', reaches_step stepped (fun _ _ => rfl) reaches, rest⟩
  | some gadget' =>
      have run : Diverts stub m₁ := run_gadget gadget emitted code rfl clear
      simp only [Diverts, gadget] at run ⊢
      obtain ⟨m', reaches, rest⟩ := run
      exact ⟨m', reaches_step stepped (fun _ _ => rfl) reaches, rest⟩

/-! ## All stubs of a run -/

theorem dearxanApplyStubPatches_placed {qsort : Sorting compareRegionReferences}
    {entropies : Entropies} {stubs : List StubInfo} {buffer : CodeBuffer}
    (applied : (dearxanApplyStubPatches process qsort entropies stubs buffer).error = none) :
    (dearxanApplyStubPatches process qsort entropies stubs buffer).installed =
        (installJumps process stubs buffer).1 ∧
      (dearxanApplyStubPatches process qsort entropies stubs buffer).buffer =
        (installJumps process stubs buffer).2.1 ∧
      (installJumps process stubs buffer).2.2 = none := by
  unfold dearxanApplyStubPatches at applied ⊢
  split at applied
  · cases applied
  · rename_i resolved found
    cases written : (writeRegions process (regionsToWrite resolved)).2 with
    | false => simp [error_of_not_written written] at applied
    | true =>
        rw [installed_of_written written] at applied ⊢
        exact ⟨rfl, rfl, applied⟩

theorem stubPatches_divert (process : Process) (qsort : Sorting compareRegionReferences)
    (entropies : Entropies) (stubs : List StubInfo) (buffer : CodeBuffer) (memory : Memory)
    (apart : stubs.Pairwise FiveApart)
    (readable : ∀ stub ∈ stubs, dearxanImageRead (some process.image) stub.testRspVa 5 ≠ none)
    (fresh : ∀ base, buffer.base.or process.near = some base → ∀ a,
      (a - base).toNat < codeBufferSize →
        process.image.bytes.length ≤ (a - process.image.baseVa).toNat)
    (applied : (dearxanApplyStubPatches process qsort entropies stubs buffer).error = none) :
    let patches := dearxanApplyStubPatches process qsort entropies stubs buffer
    patches.installed.Pairwise Write.Apart ∧
      ∀ stub ∈ stubs, ∃ patch ∈ patches.installed, emitStubPatch stub 64 = some patch.bytes ∧
        ∀ m : Machine, m.memory = patches.memory memory → m.rip = stub.testRspVa →
          SlotClear stub patch m → Diverts stub m := by
  intro patches
  obtain ⟨installed, _, succeeded⟩ := dearxanApplyStubPatches_placed applied
  have installed : patches.installed = (installJumps process stubs buffer).1 := installed
  cases found : buffer.base.or process.near with
  | none =>
      cases stubs with
      | nil =>
          rw [installed]
          exact ⟨.nil, fun _ member => nomatch member⟩
      | cons stub stubs =>
          rw [installJumps] at succeeded
          cases emitted : emitStubPatch stub 64 with
          | none => simp [emitted] at succeeded
          | some patch => simp [emitted, allocateNearCode, found] at succeeded
  | some base =>
      have placed := installJumps_placed base found succeeded
      rw [← installed] at placed
      have disjoint := placed.pairwise apart fun stub among =>
        outsideBuffer_of_readable (readable stub among) (fresh base found)
      refine ⟨disjoint, fun stub among => ?_⟩
      obtain ⟨patch, member, emitted, small, jump, near⟩ := placed.find among
      refine ⟨patch, member, emitted, fun m patched start clear => ?_⟩
      apply diverts disjoint member emitted small jump near _ start clear
      · exact Write.all patches.decrypted memory
      · rw [patched, StubPatches.memory, Write.all, List.foldl_append]
        rfl

/-! ## A stack in the code -/

def loneStub : StubInfo :=
  ⟨0x140000150, 0x140000200, some ⟨16, 0x160000000⟩, none⟩

def loneProcess : Process := { smallProcess with
  image := ⟨sixteenBytes, 0x140000000⟩
  preferredBase := 0x140000000
  near := some 0x150000000 }

def loneMemory : Memory := fun a =>
  if (a - 0x160000000).toNat < 5 then [0xe9#8, 0xfb#8, 0xff#8, 0xff#8, 0xff#8].getD (a - 0x160000000).toNat 0
  else 0

def lonePatches : StubPatches :=
  dearxanApplyStubPatches loneProcess insertionSorting ⟨fun _ => false, fun _ _ => false⟩ [loneStub]
    ⟨none, 0⟩

/-- Its stack pointer is where the patch holds `contextPopVa`. -/
def misplaced : Machine where
  registers := fun _ => 0x150000012
  memory := lonePatches.memory loneMemory
  rip := loneStub.testRspVa

theorem loneProcess_fresh (base : Word) (found : (none : Option Word).or loneProcess.near = some base)
    (a : Word) (inside : (a - base).toNat < codeBufferSize) :
    loneProcess.image.bytes.length ≤ (a - loneProcess.image.baseVa).toNat := by
  cases found
  have := a.isLt
  rw [BitVec.toNat_sub] at inside ⊢
  simp [codeBufferSize, loneProcess, sixteenBytes] at inside ⊢
  omega

/-- Its slot is too far from `rsp` for a displacement of one byte. -/
def farStub : StubInfo :=
  ⟨0x140000158, 0x140000280, some ⟨0x1000, 0x160000000⟩, none⟩

def pairPatches : StubPatches :=
  dearxanApplyStubPatches loneProcess insertionSorting ⟨fun _ => false, fun _ _ => false⟩
    [loneStub, farStub] ⟨none, 0⟩

theorem stubPatches_divert_pair :
    pairPatches.installed.Pairwise Write.Apart ∧
      ∀ stub ∈ [loneStub, farStub], ∃ patch ∈ pairPatches.installed,
        emitStubPatch stub 64 = some patch.bytes ∧
        ∀ m : Machine, m.memory = pairPatches.memory loneMemory → m.rip = stub.testRspVa →
          SlotClear stub patch m → Diverts stub m := by
  apply stubPatches_divert loneProcess insertionSorting _ [loneStub, farStub] ⟨none, 0⟩ loneMemory
  · have apart : FiveApart loneStub farStub := ⟨by decide +kernel, by decide +kernel⟩
    exact List.pairwise_pair.mpr apart
  · intro stub among
    rcases List.mem_pair.mp among with rfl | rfl
    · decide +kernel
    · decide +kernel
  · exact loneProcess_fresh
  · decide +kernel

theorem step_jumpToItself {m : Machine}
    (holds : Holds m.memory m.rip ([0xe9#8] ++ (List.range 4).map (byteOf (BitVec.ofInt 64 (-5))))) :
    m.step = some m := by
  have back : m.rip + 5 + signExtend (BitVec.ofInt 64 (-5)) .dword = m.rip := by
    rw [BitVec.add_assoc, show 5 + signExtend (BitVec.ofInt 64 (-5)) .dword = 0 by decide]
    exact BitVec.add_zero _
  rw [Machine.step_jmpNear holds, back]

theorem misplaced_loops : (misplaced.after 8).step = some (misplaced.after 8) := by
  apply step_jumpToItself
  rw [show (misplaced.after 8).rip = 0x160000000 by decide +kernel]
  show ∀ k, (below : k < 5) → _
  decide +kernel

/-- The store hits the address that the patch pops the context at. -/
theorem stubPatches_misplaced :
    lonePatches.error = none ∧ misplaced.memory = lonePatches.memory loneMemory ∧
      misplaced.rip = loneStub.testRspVa ∧
      dearxanImageRead (some loneProcess.image) loneStub.testRspVa 5 ≠ none ∧
      (∀ base, (none : Option Word).or loneProcess.near = some base → ∀ a,
        (a - base).toNat < codeBufferSize →
          loneProcess.image.bytes.length ≤ (a - loneProcess.image.baseVa).toNat) ∧
      ¬Diverts loneStub misplaced := by
  refine ⟨by decide +kernel, rfl, rfl, by decide +kernel, loneProcess_fresh, ?_⟩
  rintro ⟨m', reaches, arrived, -⟩
  obtain ⟨n, rfl⟩ := reaches.after
  have elsewhere : ∀ k < 9, (misplaced.after k).rip ≠ loneStub.contextPopVa := by decide +kernel
  by_cases early : n < 9
  · exact elsewhere n early arrived
  · obtain ⟨k, rfl⟩ := Nat.exists_eq_add_of_le (show 8 ≤ n by omega)
    rw [Machine.after_add, Machine.after_fixed misplaced_loops] at arrived
    exact elsewhere 8 (by decide) arrived

end Yafsml.Dearxan
