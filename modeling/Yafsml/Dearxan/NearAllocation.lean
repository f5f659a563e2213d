import Yafsml.Foundation.Loops
import Yafsml.Foundation.LittleEndian

/-!
# Memory near code

The search for memory that a `rel32` displacement reaches from every address of a range. The operating
system is a parameter with what it documents.
-/

namespace Yafsml.Dearxan.NearAllocation

open LittleEndian

def int32Max : Nat := 2 ^ 31 - 1

def uintptrMax : Nat := 2 ^ 64 - 1

/-- Both application addresses are the first and the last of what they bound. -/
structure SystemInfo where
  lpMinimumApplicationAddress : Nat
  lpMaximumApplicationAddress : Nat
  dwAllocationGranularity : Nat
  positive : 0 < lpMinimumApplicationAddress
  ordered : lpMinimumApplicationAddress ≤ lpMaximumApplicationAddress
  granular : 0 < dwAllocationGranularity
  fine : dwAllocationGranularity ≤ 2 ^ 31
  room : lpMaximumApplicationAddress + dwAllocationGranularity ≤ 2 ^ 64

structure MemoryBasicInformation where
  baseAddress : Nat
  regionSize : Nat
  free : Bool

structure Region where
  start : Nat
  stop : Nat
  free : Bool

/-- The regions that partition the application addresses. A query may give a base inside the region. -/
structure AddressSpace (info : SystemInfo) where
  regionAt : Nat → Region
  virtualQuery : Nat → Option MemoryBasicInformation
  virtualAlloc : Nat → Nat → Option Nat
  partition : ∀ a ≤ info.lpMaximumApplicationAddress,
    (regionAt a).start ≤ a ∧ a < (regionAt a).stop ∧
      ∀ b ≤ info.lpMaximumApplicationAddress, (regionAt a).start ≤ b → b < (regionAt a).stop →
        regionAt b = regionAt a
  queries : ∀ a ≤ info.lpMaximumApplicationAddress, ∃ region, virtualQuery a = some region ∧
    (regionAt a).start ≤ region.baseAddress ∧ region.baseAddress ≤ a ∧
      region.baseAddress + region.regionSize = (regionAt a).stop ∧ region.free = (regionAt a).free
  reserves : ∀ a size block, 0 < a → info.dwAllocationGranularity ∣ a → virtualAlloc a size = some block →
    block = a ∧ (regionAt a).free = true ∧ a + size ≤ (regionAt a).stop

/-! ## Rounding up -/

theorem roundUp_spec {granularity : Nat} (positive : 0 < granularity) (n : Nat) :
    granularity ∣ (n + granularity - 1) - (n + granularity - 1) % granularity ∧
      n ≤ (n + granularity - 1) - (n + granularity - 1) % granularity := by
  have rest := Nat.mod_lt (n + granularity - 1) positive
  exact ⟨Nat.dvd_sub_mod _, by omega⟩

theorem roundUp_le {granularity n b : Nat} (positive : 0 < granularity) (aligned : granularity ∣ b)
    (least : n ≤ b) : (n + granularity - 1) - (n + granularity - 1) % granularity ≤ b := by
  apply Nat.le_of_lt_add_of_dvd _ (roundUp_spec positive n).1 aligned
  have := Nat.mod_le (n + granularity - 1) granularity
  omega

/-! ## The search -/

section Search

variable (info : SystemInfo)

/-- `minimum` in the source. -/
def windowMinimum (high : Nat) : Nat :=
  let minimum := if int32Max < high then high - int32Max else info.lpMinimumApplicationAddress
  if minimum < info.lpMinimumApplicationAddress then info.lpMinimumApplicationAddress else minimum

/-- `maximum` in the source. -/
def windowMaximum (low : Nat) : Nat :=
  let maximum := if low ≤ uintptrMax - int32Max then low + int32Max else info.lpMaximumApplicationAddress
  if info.lpMaximumApplicationAddress < maximum then info.lpMaximumApplicationAddress else maximum

def firstAddress (minimum : Nat) : Nat :=
  let address := minimum - minimum % info.dwAllocationGranularity
  if address < minimum then (address + info.dwAllocationGranularity) % 2 ^ 64 else address

def nextAddress (region : MemoryBasicInformation) (address : Nat) : Nat ⊕ Option Nat :=
  if uintptrMax - region.regionSize < region.baseAddress then .inr none
  else
    let next := region.baseAddress + region.regionSize
    if uintptrMax - info.dwAllocationGranularity + 1 < next then .inr none
    else
      let next := (next + info.dwAllocationGranularity - 1) -
        (next + info.dwAllocationGranularity - 1) % info.dwAllocationGranularity
      if next ≤ address then .inr none else .inl next

theorem nextAddress_inl {info : SystemInfo} {region : MemoryBasicInformation} {address next : Nat}
    (goes : nextAddress info region address = .inl next) :
    address < next ∧ next = (region.baseAddress + region.regionSize + info.dwAllocationGranularity - 1) -
      (region.baseAddress + region.regionSize + info.dwAllocationGranularity - 1) %
        info.dwAllocationGranularity := by
  unfold nextAddress at goes
  simp only at goes
  split_ifs at goes with wraps late stays
  cases goes
  exact ⟨Nat.lt_of_not_le stays, rfl⟩

theorem nextAddress_inr {info : SystemInfo} {region : MemoryBasicInformation} {address : Nat}
    {result : Option Nat} (ends : nextAddress info region address = .inr result) :
    result = none ∧ (address < region.baseAddress + region.regionSize →
      2 ^ 64 < region.baseAddress + region.regionSize + info.dwAllocationGranularity) := by
  have granular := info.granular
  have fine := info.fine
  unfold nextAddress uintptrMax at ends
  simp only at ends
  split_ifs at ends with wraps late stays
  · cases ends
    exact ⟨rfl, fun _ => by omega⟩
  · cases ends
    exact ⟨rfl, fun _ => by omega⟩
  · cases ends
    have up := (roundUp_spec granular (region.baseAddress + region.regionSize)).2
    exact ⟨rfl, fun _ => by omega⟩

variable {info} (space : AddressSpace info)

/-- One round of the loop at `address`. -/
def searchRound (maximum size address : Nat) : Nat ⊕ Option Nat :=
  if address ≤ maximum ∧ size ≤ maximum - address then
    match space.virtualQuery address with
    | none => .inr none
    | some region =>
        if region.free ∧ size ≤ region.regionSize then
          match space.virtualAlloc address size with
          | some result => .inr (some result)
          | none => nextAddress info region address
        else nextAddress info region address
  else .inr none

section Round

variable {space} {maximum size address : Nat}

theorem searchRound_inl {next : Nat} (goes : searchRound space maximum size address = .inl next) :
    address ≤ maximum ∧ ∃ region, space.virtualQuery address = some region ∧
      nextAddress info region address = .inl next ∧
      (region.free → size ≤ region.regionSize → space.virtualAlloc address size = none) := by
  unfold searchRound at goes
  split_ifs at goes with inside
  cases query : space.virtualQuery address with
  | none => simp [query] at goes
  | some region =>
      simp only [query] at goes
      refine ⟨inside.1, region, rfl, ?_⟩
      split_ifs at goes with fits
      · cases alloc : space.virtualAlloc address size with
        | none =>
            simp only [alloc] at goes
            exact ⟨goes, fun _ _ => rfl⟩
        | some result => simp [alloc] at goes
      · exact ⟨goes, fun free large => absurd ⟨free, large⟩ fits⟩

theorem searchRound_some {block : Nat} (found : searchRound space maximum size address = .inr (some block)) :
    address ≤ maximum ∧ size ≤ maximum - address ∧ space.virtualAlloc address size = some block := by
  unfold searchRound at found
  split_ifs at found with inside
  · cases query : space.virtualQuery address with
    | none => simp [query] at found
    | some region =>
        simp only [query] at found
        refine ⟨inside.1, inside.2, ?_⟩
        split_ifs at found with fits
        · cases alloc : space.virtualAlloc address size with
          | none =>
              simp only [alloc] at found
              cases (nextAddress_inr found).1
          | some result =>
              simp only [alloc] at found
              cases found
              rfl
        · cases (nextAddress_inr found).1
  · cases found

theorem searchRound_none (ends : searchRound space maximum size address = .inr none)
    (inside : address ≤ maximum ∧ size ≤ maximum - address) {region : MemoryBasicInformation}
    (query : space.virtualQuery address = some region) :
    nextAddress info region address = .inr none ∧
      (region.free → size ≤ region.regionSize → space.virtualAlloc address size = none) := by
  unfold searchRound at ends
  rw [if_pos inside] at ends
  simp only [query] at ends
  split_ifs at ends with fits
  · cases alloc : space.virtualAlloc address size with
    | none =>
        simp only [alloc] at ends
        exact ⟨ends, fun _ _ => rfl⟩
    | some result => simp [alloc] at ends
  · exact ⟨ends, fun free large => absurd ⟨free, large⟩ fits⟩

end Round

def search (maximum size : Nat) : MeasuredLoop Nat (Option Nat) where
  round := searchRound space maximum size
  size address := maximum + 1 - address
  shrinks address next goes := by
    obtain ⟨inside, region, -, forward, -⟩ := searchRound_inl goes
    have := (nextAddress_inl forward).1
    omega

def dearxanAllocateNear (low high size : Word) : Option Nat :=
  (search space (windowMaximum info low.toNat) size.toNat).run
    (firstAddress info (windowMinimum info high.toNat))

end Search

/-! ## The window -/

def InReach (low high : Word) (byte : Nat) : Prop :=
  ∀ target : Nat, low.toNat ≤ target → target ≤ high.toNat →
    byte ≤ target + int32Max ∧ target ≤ byte + int32Max

section Window

variable {info : SystemInfo} {low high : Word}

variable (info low high) in
structure Admissible (byte : Nat) : Prop where
  above : info.lpMinimumApplicationAddress ≤ byte
  below : byte ≤ info.lpMaximumApplicationAddress
  reached : InReach low high byte

theorem inReach_iff (range : low.toNat ≤ high.toNat) {byte : Nat} :
    InReach low high byte ↔ byte ≤ low.toNat + int32Max ∧ high.toNat ≤ byte + int32Max := by
  constructor
  · intro reached
    exact ⟨(reached low.toNat le_rfl range).1, (reached high.toNat range le_rfl).2⟩
  · rintro ⟨above, below⟩ target first last
    omega

theorem admissible_iff (range : low.toNat ≤ high.toNat) {byte : Nat} :
    Admissible info low high byte ↔
      windowMinimum info high.toNat ≤ byte ∧ byte ≤ windowMaximum info low.toNat := by
  have ordered := info.ordered
  have room := info.room
  have top := low.isLt
  have bounds : Admissible info low high byte ↔ info.lpMinimumApplicationAddress ≤ byte ∧
      byte ≤ info.lpMaximumApplicationAddress ∧ byte ≤ low.toNat + int32Max ∧
        high.toNat ≤ byte + int32Max :=
    ⟨fun h => ⟨h.above, h.below, (inReach_iff range).mp h.reached⟩,
      fun h => ⟨h.1, h.2.1, (inReach_iff range).mpr h.2.2⟩⟩
  rw [bounds]
  unfold windowMinimum windowMaximum uintptrMax int32Max
  simp only
  constructor
  · intro h
    split_ifs <;> omega
  · intro h
    split_ifs at h <;> omega

theorem windowMaximum_le : windowMaximum info low.toNat ≤ info.lpMaximumApplicationAddress := by
  unfold windowMaximum
  simp only
  split_ifs <;> omega

theorem firstAddress_spec :
    info.dwAllocationGranularity ∣ firstAddress info (windowMinimum info high.toNat) ∧
      windowMinimum info high.toNat ≤ firstAddress info (windowMinimum info high.toNat) ∧
      ∀ b, info.dwAllocationGranularity ∣ b → windowMinimum info high.toNat ≤ b →
        firstAddress info (windowMinimum info high.toNat) ≤ b := by
  have room := info.room
  have fine := info.fine
  have ordered := info.ordered
  have granular := info.granular
  have top := high.isLt
  have fits : windowMinimum info high.toNat + info.dwAllocationGranularity ≤ 2 ^ 64 := by
    unfold windowMinimum int32Max
    simp only
    split_ifs <;> omega
  generalize windowMinimum info high.toNat = minimum at fits ⊢
  have down : info.dwAllocationGranularity ∣ minimum - minimum % info.dwAllocationGranularity :=
    Nat.dvd_sub_mod _
  have rest := Nat.mod_lt minimum granular
  unfold firstAddress
  simp only
  split_ifs with below
  · rw [Nat.mod_eq_of_lt (by omega)]
    refine ⟨Nat.dvd_add down dvd_rfl, by omega, fun b aligned least => ?_⟩
    exact Nat.le_of_lt_add_of_dvd (by omega) (Nat.dvd_add down dvd_rfl) aligned
  · exact ⟨down, by omega, fun b _ least => by omega⟩

end Window

/-! ## What is found -/

section Space

variable {info : SystemInfo} (space : AddressSpace info) (low high size : Word)

/-- An aligned block within the window and one free region. -/
structure Usable (address : Nat) : Prop where
  aligned : info.dwAllocationGranularity ∣ address
  admissible : ∀ byte, address ≤ byte → byte < address + size.toNat → Admissible info low high byte
  free : (space.regionAt address).free = true
  within : address + size.toNat ≤ (space.regionAt address).stop

def ReservesFree : Prop :=
  ∀ address size, 0 < size → info.dwAllocationGranularity ∣ address →
    info.lpMinimumApplicationAddress ≤ address →
    address + size ≤ info.lpMaximumApplicationAddress + 1 →
    (space.regionAt address).free = true → address + size ≤ (space.regionAt address).stop →
    space.virtualAlloc address size ≠ none

structure AllocatesNear : Prop where
  terminates : ∃ last, Relation.ReflTransGen
      (fun address next => searchRound space (windowMaximum info low.toNat) size.toNat address = .inl next)
      (firstAddress info (windowMinimum info high.toNat)) last ∧
    searchRound space (windowMaximum info low.toNat) size.toNat last =
      .inr (dearxanAllocateNear space low high size)
  reaches : ∀ block, dearxanAllocateNear space low high size = some block →
    ∀ byte, block ≤ byte → byte < block + size.toNat → Admissible info low high byte
  complete : ReservesFree space → dearxanAllocateNear space low high size = none →
    ∀ address, ¬ Usable space low high size address

/-- Where the aligned block that ends with the last byte of the window is usable, so is one that ends
before. -/
def LastBlockSpared : Prop :=
  ReservesFree space → ∀ address, Usable space low high size address →
    address + size.toNat = windowMaximum info low.toNat + 1 →
    ∃ other, Usable space low high size other ∧ other + size.toNat ≤ windowMaximum info low.toNat

/-- What holds when the search comes to `address`. -/
structure Searched (address : Nat) : Prop where
  aligned : info.dwAllocationGranularity ∣ address
  above : windowMinimum info high.toNat ≤ address
  passed : ReservesFree space → ∀ other, Usable space low high size other →
    other + size.toNat ≤ windowMaximum info low.toNat → address ≤ other

variable {space low high size} (range : low.toNat ≤ high.toNat) (positive : 0 < size.toNat)

include range positive

namespace Usable

variable {address : Nat}

theorem window (usable : Usable space low high size address) :
    windowMinimum info high.toNat ≤ address ∧
      address + size.toNat ≤ windowMaximum info low.toNat + 1 := by
  have first := (admissible_iff range).mp (usable.admissible address le_rfl (by omega))
  have last := (admissible_iff range).mp
    (usable.admissible (address + size.toNat - 1) (by omega) (by omega))
  exact ⟨first.1, by omega⟩

theorem tried {other : Nat} (searched : Searched space low high size address)
    (usable : Usable space low high size other) (reserves : ReservesFree space) (least : address ≤ other)
    (fits : other + size.toNat ≤ windowMaximum info low.toNat)
    (same : other < (space.regionAt address).stop) {region : MemoryBasicInformation}
    (query : space.virtualQuery address = some region) :
    region.free = true ∧ size.toNat ≤ region.regionSize ∧ space.virtualAlloc address size.toNat ≠ none := by
  have limit : windowMaximum info low.toNat ≤ info.lpMaximumApplicationAddress := windowMaximum_le
  obtain ⟨start, -, shared⟩ := space.partition address (by omega)
  obtain ⟨region', query', base, below, stop, free⟩ := space.queries address (by omega)
  cases query.symm.trans query'
  have one := shared other (by omega) (by omega) same
  have vacant := usable.free
  have within := usable.within
  rw [one] at vacant within
  have minimum := ((admissible_iff range).mpr
    ⟨searched.above, show address ≤ windowMaximum info low.toNat by omega⟩).above
  refine ⟨free.trans vacant, by omega, ?_⟩
  exact reserves address size.toNat positive searched.aligned minimum (by omega) vacant (by omega)

end Usable

theorem searched_first : Searched space low high size (firstAddress info (windowMinimum info high.toNat)) where
  aligned := firstAddress_spec.1
  above := firstAddress_spec.2.1
  passed _ other usable _ := firstAddress_spec.2.2 other usable.aligned (usable.window range positive).1

theorem Searched.next {address next : Nat} (searched : Searched space low high size address)
    (goes : searchRound space (windowMaximum info low.toNat) size.toNat address = .inl next) :
    Searched space low high size next := by
  obtain ⟨inside, region, query, forward, refused⟩ := searchRound_inl goes
  obtain ⟨later, rounded⟩ := nextAddress_inl forward
  have limit : windowMaximum info low.toNat ≤ info.lpMaximumApplicationAddress := windowMaximum_le
  obtain ⟨region', query', base, below, stop, free⟩ := space.queries address (by omega)
  cases query.symm.trans query'
  rw [rounded]
  refine ⟨(roundUp_spec info.granular _).1, ?_, ?_⟩
  · have := searched.above
    omega
  · intro reserves other usable fits
    have least := searched.passed reserves other usable fits
    apply roundUp_le info.granular usable.aligned
    rw [stop]
    by_contra same
    obtain ⟨free, large, succeeds⟩ :=
      usable.tried range positive searched reserves least fits (Nat.lt_of_not_le same) query
    exact succeeds (refused free large)

theorem Searched.some {address block : Nat} (searched : Searched space low high size address)
    (found : searchRound space (windowMaximum info low.toNat) size.toNat address = .inr (some block)) :
    Usable space low high size block ∧ block + size.toNat ≤ windowMaximum info low.toNat := by
  obtain ⟨inside, fits, alloc⟩ := searchRound_some found
  have above := searched.above
  have application : 0 < address := by
    have := ((admissible_iff range).mpr ⟨above, inside⟩).above
    have := info.positive
    omega
  obtain ⟨rfl, free, within⟩ := space.reserves address size.toNat block application searched.aligned alloc
  refine ⟨⟨searched.aligned, ?_, free, within⟩, by omega⟩
  intro byte first last
  exact (admissible_iff range).mpr ⟨by omega, by omega⟩

theorem Searched.none {address : Nat} (searched : Searched space low high size address)
    (ends : searchRound space (windowMaximum info low.toNat) size.toNat address = .inr none)
    (reserves : ReservesFree space) {other : Nat} (usable : Usable space low high size other) :
    ¬ other + size.toNat ≤ windowMaximum info low.toNat := by
  intro fits
  have least := searched.passed reserves other usable fits
  have limit : windowMaximum info low.toNat ≤ info.lpMaximumApplicationAddress := windowMaximum_le
  have room := info.room
  obtain ⟨region, query, base, below, stop, free⟩ := space.queries address (by omega)
  obtain ⟨leaves, refused⟩ := searchRound_none ends ⟨by omega, by omega⟩ query
  have far := (nextAddress_inr leaves).2
  obtain ⟨-, inside, -⟩ := space.partition address (by omega)
  rw [stop] at far
  have far := far inside
  obtain ⟨free, large, succeeds⟩ :=
    usable.tried range positive searched reserves least fits (by omega) query
  exact succeeds (refused free large)

theorem allocateNear_some {block : Nat} (found : dearxanAllocateNear space low high size = some block) :
    Usable space low high size block ∧ block + size.toNat ≤ windowMaximum info low.toNat := by
  have post := @MeasuredLoop.run_post _ _ (search space (windowMaximum info low.toNat) size.toNat) _
    (fun result => ∀ block, result = some block →
      Usable space low high size block ∧ block + size.toNat ≤ windowMaximum info low.toNat)
    (fun _ _ searched goes => Searched.next range positive searched goes)
    (fun _ _ searched ends _ same => Searched.some range positive searched (ends.trans (congrArg _ same)))
    _ (searched_first range positive)
  exact post block found

theorem allocateNear_none (failed : dearxanAllocateNear space low high size = none)
    (reserves : ReservesFree space) {other : Nat} (usable : Usable space low high size other) :
    other + size.toNat = windowMaximum info low.toNat + 1 := by
  have post := @MeasuredLoop.run_post _ _ (search space (windowMaximum info low.toNat) size.toNat) _
    (fun result => result = none → ¬ other + size.toNat ≤ windowMaximum info low.toNat)
    (fun _ _ searched goes => Searched.next range positive searched goes)
    (fun _ _ searched ends same =>
      Searched.none range positive searched (ends.trans (congrArg _ same)) reserves usable)
    _ (searched_first range positive)
  have late := post failed
  have := (usable.window range positive).2
  omega

/-- The search keeps its promise unless the only usable block ends with the last byte of the window. -/
theorem dearxanAllocateNear_iff :
    AllocatesNear space low high size ↔ LastBlockSpared space low high size := by
  constructor
  · intro meets reserves address usable last
    cases found : dearxanAllocateNear space low high size with
    | none => exact absurd usable (meets.complete reserves found address)
    | some block => exact ⟨block, allocateNear_some range positive found⟩
  · intro spared
    refine ⟨(search space (windowMaximum info low.toNat) size.toNat).run_ends _, ?_, ?_⟩
    · intro block found
      exact (allocateNear_some range positive found).1.admissible
    · intro reserves failed address usable
      have last := allocateNear_none range positive failed reserves usable
      obtain ⟨other, usable', before⟩ := spared reserves address usable last
      have := allocateNear_none range positive failed reserves usable'
      omega

end Space

/-! ## One gap -/

def windows : SystemInfo :=
  ⟨0x10000, 0x7FFFFFFEFFFF, 0x10000, by decide, by decide, by decide, by decide, by decide⟩

/-- All but the last 64 KiB within reach of an instruction at `2 ^ 32` is taken. -/
def regionInGap (a : Nat) : Region :=
  if a < 0x17FFF0000 then ⟨0, 0x17FFF0000, false⟩
  else if a < 0x180000000 then ⟨0x17FFF0000, 0x180000000, true⟩
  else ⟨0x180000000, 0x7FFFFFFF0000, false⟩

def gap : AddressSpace windows where
  regionAt := regionInGap
  virtualQuery a :=
    if a ≤ 0x7FFFFFFEFFFF then
      some ⟨a - a % 4096, (regionInGap a).stop - (a - a % 4096), (regionInGap a).free⟩
    else none
  virtualAlloc a size :=
    if 0 < size ∧ a % 0x10000 = 0 ∧ 0x17FFF0000 ≤ a ∧ a + size ≤ 0x180000000 then some a else none
  partition a below := by
    have top : a ≤ 0x7FFFFFFEFFFF := below
    refine ⟨?_, ?_, fun b _ first last => ?_⟩
    · unfold regionInGap
      split_ifs <;> simp only <;> omega
    · unfold regionInGap
      split_ifs <;> simp only <;> omega
    · unfold regionInGap at first last ⊢
      split_ifs at first last ⊢ <;> first | rfl | (simp only at first last; omega)
  queries a below := by
    have top : a ≤ 0x7FFFFFFEFFFF := below
    refine ⟨_, if_pos top, ?_, Nat.sub_le _ _, ?_, rfl⟩
    · unfold regionInGap
      split_ifs <;> simp only <;> omega
    · unfold regionInGap
      split_ifs <;> simp only <;> omega
  reserves a size block _ _ reserved := by
    split_ifs at reserved with inside
    cases reserved
    obtain ⟨some_size, -, first, last⟩ := inside
    unfold regionInGap
    rw [if_neg (by omega), if_pos (by omega)]
    exact ⟨rfl, rfl, last⟩

theorem gap_reservesFree : ReservesFree gap := by
  intro address size some_size aligned _ _ free within
  have last : address < 0x180000000 ∧ 0x17FFF0000 ≤ address := by
    change (regionInGap address).free = true at free
    unfold regionInGap at free
    split_ifs at free
    · omega
  change address + size ≤ (regionInGap address).stop at within
  unfold regionInGap at within
  rw [if_neg (by omega), if_pos last.1] at within
  change (if _ then some address else none) ≠ none
  rw [if_pos ⟨some_size, Nat.mod_eq_zero_of_dvd aligned, last.2, within⟩]
  exact Option.some_ne_none _

theorem gap_usable : Usable gap 0x100000000 0x100000000 0x10000 0x17FFF0000 where
  aligned := by decide
  admissible byte first last := by
    have end_ : byte < 0x17FFF0000 + 0x10000 := last
    refine (admissible_iff le_rfl).mpr ⟨?_, ?_⟩
    · exact le_trans (by decide) first
    · exact le_trans (Nat.le_of_lt_succ end_) (by decide)
  free := by decide
  within := by decide

/-- The last block within reach is never tried. -/
theorem dearxanAllocateNear_gap : ¬ AllocatesNear gap 0x100000000 0x100000000 0x10000 := by
  intro meets
  cases found : dearxanAllocateNear gap 0x100000000 0x100000000 0x10000 with
  | none => exact meets.complete gap_reservesFree found _ gap_usable
  | some block =>
      obtain ⟨usable, before⟩ := allocateNear_some (by decide) (by decide) found
      have vacant := usable.free
      change (regionInGap block).free = true at vacant
      have first : 0x17FFF0000 ≤ block := by
        unfold regionInGap at vacant
        split_ifs at vacant
        · omega
      have last : block + 0x10000 ≤ 0x17FFFFFFF := before
      omega

theorem dearxanAllocateNear_iff_gap :
    AllocatesNear gap 0x100000000 0x100001000 14 ↔ LastBlockSpared gap 0x100000000 0x100001000 14 :=
  dearxanAllocateNear_iff (by decide) (by decide)

end Yafsml.Dearxan.NearAllocation
