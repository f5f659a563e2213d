import Yafsml.Foundation.LinkedChain
import Mathlib.Logic.Function.Basic

/-!
# Vtables by class name

The map holds the first entry of every class by value; the others are nodes behind it. A pointer is its
address, null is 0, and a computation gives nothing where a chain leads nowhere or does not end.
-/

namespace Yafsml.Process.Rtti

open LinkedChain

abbrev ClassName := List UInt8

structure Vtable where
  vtable : Nat
  offset : Nat
  deriving DecidableEq, Repr

abbrev VtableEntry := Node Vtable

structure VtableMap where
  heads : ClassName → Option VtableEntry
  nodes : List VtableEntry

def VtableMap.empty : VtableMap := ⟨fun _ => none, []⟩

inductive EntryPlace where
  | head
  | node (place : Nat)
  deriving DecidableEq, Repr

structure Allocations where
  put : Bool
  copy : Bool
  node : Bool

def Allocations.succeed : Allocations := ⟨true, true, true⟩

namespace VtableMap

variable (map : VtableMap) (className : ClassName)

def entryAt : EntryPlace → Option VtableEntry
  | .head => map.heads className
  | .node place => map.nodes[place]?

def setEntry (entry : VtableEntry) : EntryPlace → VtableMap
  | .head => { map with heads := Function.update map.heads className (some entry) }
  | .node place => { map with nodes := map.nodes.set place entry }

def rounds : Nat := map.nodes.length + 2

def holds (vtable : Nat) : Nat → Option EntryPlace → Option Bool
  | 0, _ => none
  | _ + 1, none => some false
  | rounds + 1, some place => do
      let entry ← map.entryAt className place
      if entry.value.vtable = vtable then some true else holds vtable rounds (entry.next.map .node)

/-- The loop to the last entry that is followed by none or by one with a larger offset. -/
def lastUpTo (offset : Nat) : Nat → EntryPlace → Option EntryPlace
  | 0, _ => none
  | rounds + 1, place => do
      let entry ← map.entryAt className place
      match entry.next with
      | none => some place
      | some behind =>
          let next ← map.nodes[behind]?
          if next.value.offset ≤ offset then lastUpTo offset rounds (.node behind) else some place

/-- A new entry for a class whose first entry is `head`. -/
def addEntry (head : VtableEntry) (new : Vtable) : Option VtableMap :=
  let next := map.nodes.length
  if new.offset < head.value.offset then
    some ⟨Function.update map.heads className (some ⟨new, some next⟩), map.nodes ++ [head]⟩
  else do
    let place ← map.lastUpTo className new.offset map.rounds .head
    let entry ← map.entryAt className place
    some (VtableMap.setEntry { map with nodes := map.nodes ++ [⟨new, entry.next⟩] } className
      ⟨entry.value, some next⟩ place)

def insertVtable (allocs : Allocations) (new : Vtable) : Option VtableMap :=
  if !allocs.put then some map
  else
    match map.heads className with
    | some head => do
        if ← map.holds className new.vtable map.rounds (some .head) then some map
        else if !allocs.node then some map
        else map.addEntry className head new
    | none =>
        if !allocs.copy then some map
        else some { map with heads := Function.update map.heads className (some ⟨new, none⟩) }

end VtableMap

def rttiInsert (allocs : Allocations) (map : Option VtableMap) (className : Option ClassName)
    (vtable offset : Nat) : Option (Option VtableMap) :=
  match map, className with
  | some map, some className =>
      if vtable = 0 then some (some map) else (map.insertVtable className allocs ⟨vtable, offset⟩).map some
  | map, _ => some map

namespace VtableMap

variable (map : VtableMap) (className : ClassName)

def rttiMapGet : Option EntryPlace := (map.heads className).map fun _ => .head

def rttiEntryCount : Nat → Option EntryPlace → Option Nat
  | 0, _ => none
  | _ + 1, none => some 0
  | rounds + 1, some place => do
      let entry ← map.entryAt className place
      let rest ← rttiEntryCount rounds (entry.next.map .node)
      some (rest + 1)

def rttiEntryAt : Nat → Option EntryPlace → Nat → Option Nat
  | 0, _, _ => none
  | _ + 1, none, _ => some 0
  | _ + 1, some place, 0 => (map.entryAt className place).map fun entry => entry.value.vtable
  | rounds + 1, some place, index + 1 => do
      let entry ← map.entryAt className place
      rttiEntryAt rounds (entry.next.map .node) index

end VtableMap

/-- `once` tells whether the map was built. -/
def rttiVtableCount (once : Bool) (map : Option VtableMap) (className : Option ClassName) : Option Nat :=
  match className with
  | none => some 0
  | some className =>
      if !once then some 0
      else
        match map with
        | none => some 0
        | some map => map.rttiEntryCount className map.rounds (map.rttiMapGet className)

def rttiFindVtableAt (once : Bool) (map : Option VtableMap) (className : Option ClassName) (index : Nat) :
    Option Nat :=
  match className with
  | none => some 0
  | some className =>
      if !once then some 0
      else
        match map with
        | none => some 0
        | some map => map.rttiEntryAt className map.rounds (map.rttiMapGet className) index

def rttiFindVtable (once : Bool) (map : Option VtableMap) (className : Option ClassName) : Option Nat :=
  rttiFindVtableAt once map className 0

end Yafsml.Process.Rtti
