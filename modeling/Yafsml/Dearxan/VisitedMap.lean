import Yafsml.Dearxan.Vm

/-! # The visited map

The addresses that the analysis has visited, with what it knows of the control flow there. -/

namespace Yafsml.Dearxan

open LittleEndian OpenAddressing

structure CfgInfo where
  cmovId : Word
  unresolvedBranch : Bool
  deriving DecidableEq, Repr

structure VisitedSlot where
  address : Word
  info : CfgInfo
  used : Bool
  deriving DecidableEq, Repr

def VisitedSlot.unused : VisitedSlot := ⟨0, ⟨0, false⟩, false⟩

def VisitedSlot.key (slot : VisitedSlot) : Option Word := if slot.used then some slot.address else none

theorem unused_visited_key : VisitedSlot.unused.key = none := rfl

abbrev VisitedMap := Table VisitedSlot.key fun address => (dearxanHashU64 address).toNat

/-- `sizeof` of a slot. -/
def visitedSlotSize : Nat := 32

def findVisitedMap (map : VisitedMap) (address : Word) : Option VisitedSlot := map.find address

/-- A map with a free place for one more address, which takes a new table of slots if the old one is
half full. -/
def resizeVisitedMap (calloc : Nat → Bool) (map : VisitedMap) :
    Option { grown : VisitedMap // 2 * (grown.count + 1) ≤ grown.slots.length } :=
  if full : map.slots.length = 0 ∨ map.slots.length / 2 < map.count + 1 then
    let capacity := map.doubled 16
    if sizeMax / visitedSlotSize < capacity || !calloc capacity then none
    else some ⟨map.grow .unused capacity unused_visited_key (map.doubled_power ⟨4, rfl⟩)
        (by have := map.half_doubled (show 2 ≤ 16 by decide); omega),
      by rw [Table.length_grow]; exact map.half_doubled (by decide)⟩
  else some ⟨map, by omega⟩

def insertVisitedMap (calloc : Nat → Bool) (map : VisitedMap) (address : Word) (info : CfgInfo) :
    Option VisitedMap :=
  (resizeVisitedMap calloc map).map fun roomy =>
    if absent : roomy.val.find address = none then
      roomy.val.insert address ⟨address, info, true⟩ rfl absent roomy.property
    else roomy.val

def setUnresolved (value : Bool) (map : VisitedMap) (address : Word) : VisitedMap :=
  if (findVisitedMap map address).isSome then
    map.modify address (fun slot => { slot with info := { slot.info with unresolvedBranch := value } })
      fun _ => rfl
  else map

end Yafsml.Dearxan
