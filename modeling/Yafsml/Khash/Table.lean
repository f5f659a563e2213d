import Mathlib.Algebra.Order.Group.Nat
import Mathlib.Data.List.Basic
import Mathlib.Logic.Function.Basic
import Yafsml.Foundation.Slots

/-! # Hash tables

The functions that `KHASH_INIT` makes for a map. A loop or an access that the C code leaves undefined
(outside an array, to a key that was never written, without an end) is `none`. -/

namespace Yafsml.Khash

/-! ## Bucket flags

Two bits for each bucket, sixteen buckets in a word: the upper bit says that the bucket is empty, the
lower one that its entry was deleted. -/

section Flags

abbrev Flags := List (BitVec 32)

def acFsize (m : Nat) : Nat := if m < 16 then 1 else m >>> 4

/-- `memset(flags, 0xaa, …)`. -/
def blankFlags (m : Nat) : Flags := List.replicate (acFsize m) 0xaaaaaaaa#32

def acBits (mask : BitVec 32) (flags : Flags) (i : Nat) : Option Bool :=
  flags[i >>> 4]?.map fun word : BitVec 32 => (word >>> ((i &&& 0xf) <<< 1)) &&& mask != 0

def acIsempty : Flags → Nat → Option Bool := acBits 2
def acIsdel : Flags → Nat → Option Bool := acBits 1
def acIseither : Flags → Nat → Option Bool := acBits 3

def acChange (change : BitVec 32 → Nat → BitVec 32) (flags : Flags) (i : Nat) : Option Flags :=
  if i >>> 4 < flags.length then
    some (flags.modify (i >>> 4) fun word => change word ((i &&& 0xf) <<< 1))
  else none

def acSetIsemptyFalse : Flags → Nat → Option Flags :=
  acChange fun word shift => word &&& ~~~(2#32 <<< shift)

def acSetIsbothFalse : Flags → Nat → Option Flags :=
  acChange fun word shift => word &&& ~~~(3#32 <<< shift)

def acSetIsdelTrue : Flags → Nat → Option Flags :=
  acChange fun word shift => word ||| (1#32 <<< shift)

def bitAt (flags : Flags) (k : Nat) : Bool := (flags.getD (k / 32) 0).getLsbD (k % 32)

def emptyAt (flags : Flags) (i : Nat) : Bool := bitAt flags (2 * i + 1)
def deletedAt (flags : Flags) (i : Nat) : Bool := bitAt flags (2 * i)

theorem shift_eq (i : Nat) : (i &&& 0xf) <<< 1 = 2 * (i % 16) := by
  have low : i &&& 0xf = i % 16 := Nat.and_two_pow_sub_one_eq_mod i 4
  rw [low, Nat.shiftLeft_eq, Nat.pow_one, Nat.mul_comm]

theorem word_eq (i : Nat) : i >>> 4 = i / 16 := Nat.shiftRight_eq_div_pow i 4

theorem and_two_ne_zero (word : BitVec 32) : (word &&& 2 != 0) = word.getLsbD 1 := by
  have single : (2 : BitVec 32) = BitVec.twoPow 32 1 := by decide
  rw [single, BitVec.and_twoPow]
  cases word.getLsbD 1 <;> decide

theorem and_one_ne_zero (word : BitVec 32) : (word &&& 1 != 0) = word.getLsbD 0 := by
  have single : (1 : BitVec 32) = BitVec.twoPow 32 0 := by decide
  rw [single, BitVec.and_twoPow]
  cases word.getLsbD 0 <;> decide

theorem and_three_ne_zero (word : BitVec 32) :
    (word &&& 3 != 0) = (word.getLsbD 1 || word.getLsbD 0) := by
  have both : (3 : BitVec 32) = BitVec.twoPow 32 1 ||| BitVec.twoPow 32 0 := by decide
  rw [both, BitVec.and_or_distrib_left, BitVec.and_twoPow, BitVec.and_twoPow]
  cases word.getLsbD 1 <;> cases word.getLsbD 0 <;> decide

section Read

variable {flags : Flags} {i : Nat} (within : i / 16 < flags.length)

include within

theorem acBits_eq (mask : BitVec 32) :
    acBits mask flags i = some ((flags.getD (i / 16) 0 >>> (2 * (i % 16))) &&& mask != 0) := by
  rw [acBits, word_eq, shift_eq, List.getD_eq_getElem?_getD, List.getElem?_eq_getElem within,
    Option.map_some, Option.getD_some]

theorem acIsempty_eq : acIsempty flags i = some (emptyAt flags i) := by
  rw [acIsempty, acBits_eq within, and_two_ne_zero, BitVec.getLsbD_ushiftRight, emptyAt, bitAt,
    show (2 * i + 1) / 32 = i / 16 by omega, show (2 * i + 1) % 32 = 2 * (i % 16) + 1 by omega]

theorem acIsdel_eq : acIsdel flags i = some (deletedAt flags i) := by
  rw [acIsdel, acBits_eq within, and_one_ne_zero, BitVec.getLsbD_ushiftRight, deletedAt, bitAt,
    show 2 * i / 32 = i / 16 by omega, show 2 * i % 32 = 2 * (i % 16) + 0 by omega]

theorem acIseither_eq : acIseither flags i = some (emptyAt flags i || deletedAt flags i) := by
  rw [acIseither, acBits_eq within, and_three_ne_zero, BitVec.getLsbD_ushiftRight,
    BitVec.getLsbD_ushiftRight, emptyAt, deletedAt, bitAt, bitAt,
    show (2 * i + 1) / 32 = i / 16 by omega, show (2 * i + 1) % 32 = 2 * (i % 16) + 1 by omega,
    show 2 * i / 32 = i / 16 by omega, show 2 * i % 32 = 2 * (i % 16) + 0 by omega]

end Read

theorem bitAt_modify (flags : Flags) {w : Nat} (within : w < flags.length)
    (change : BitVec 32 → BitVec 32) (k : Nat) :
    bitAt (flags.modify w change) k =
      if k / 32 = w then (change (flags.getD w 0)).getLsbD (k % 32) else bitAt flags k := by
  rw [bitAt, bitAt, List.getD_eq_getElem?_getD, List.getElem?_modify]
  by_cases here : k / 32 = w
  · simp [here, within]
  · simp [here, Ne.symm here]

theorem shifted_bit (mask : BitVec 32) {shift b : Nat} (inside : b < 32) :
    (mask <<< shift).getLsbD b = (decide (shift ≤ b) && mask.getLsbD (b - shift)) := by
  rw [BitVec.getLsbD_shiftLeft]
  by_cases below : shift ≤ b
  · simp [below, inside, Nat.not_lt.mpr below]
  · simp [below, Nat.lt_of_not_le below]

theorem one_shifted {shift b : Nat} (inside : b < 32) :
    (1#32 <<< shift).getLsbD b = decide (b = shift) := by
  rw [shifted_bit _ inside, BitVec.getLsbD_one, Bool.eq_iff_iff]
  simp
  omega

theorem two_bit (m : Nat) : (2#32).getLsbD m = decide (m = 1) := by
  have single : 2#32 = BitVec.twoPow 32 1 := by decide
  rw [single, BitVec.getLsbD_twoPow]
  simp [eq_comm]

theorem two_shifted {shift b : Nat} (inside : b < 32) :
    (2#32 <<< shift).getLsbD b = decide (b = shift + 1) := by
  rw [shifted_bit _ inside, two_bit, Bool.eq_iff_iff]
  simp
  omega

theorem three_shifted {shift b : Nat} (inside : b < 32) :
    (3#32 <<< shift).getLsbD b = (decide (b = shift) || decide (b = shift + 1)) := by
  have both : 3#32 <<< shift = 1#32 <<< shift ||| 2#32 <<< shift := by
    rw [← BitVec.shiftLeft_or_distrib]
    rfl
  rw [both, BitVec.getLsbD_or, one_shifted inside, two_shifted inside]

section Write

variable {flags : Flags} {i : Nat} (within : i / 16 < flags.length)

include within

theorem acChange_spec (change : BitVec 32 → Nat → BitVec 32) :
    ∃ flags', acChange change flags i = some flags' ∧ flags'.length = flags.length ∧
      ∀ k, bitAt flags' k = if k / 32 = i / 16
        then (change (flags.getD (i / 16) 0) (2 * (i % 16))).getLsbD (k % 32) else bitAt flags k := by
  refine ⟨flags.modify (i / 16) fun word => change word (2 * (i % 16)), ?_, List.length_modify .., ?_⟩
  · rw [acChange, word_eq, shift_eq, if_pos within]
  · exact bitAt_modify flags within _

theorem acSetIsemptyFalse_spec :
    ∃ flags', acSetIsemptyFalse flags i = some flags' ∧ flags'.length = flags.length ∧
      emptyAt flags' = Function.update (emptyAt flags) i false ∧ deletedAt flags' = deletedAt flags := by
  obtain ⟨flags', changed, length, bits⟩ :=
    acChange_spec within fun word shift => word &&& ~~~(2#32 <<< shift)
  have bit (k : Nat) : bitAt flags' k = (bitAt flags k && !decide (k = 2 * i + 1)) := by
    rw [bits]
    split_ifs with here
    · rw [BitVec.getLsbD_and, BitVec.getLsbD_not, two_shifted (Nat.mod_lt _ (by decide)), ← here, bitAt,
        show decide (k % 32 = 2 * (i % 16) + 1) = decide (k = 2 * i + 1) from decide_eq_decide.mpr (by omega)]
      simp [Nat.mod_lt]
    · simp [show k ≠ 2 * i + 1 by omega]
  refine ⟨flags', changed, length, ?_, ?_⟩
  · funext j
    rw [emptyAt, bit, Function.update_apply, emptyAt]
    by_cases here : j = i
    · simp [here]
    · rw [if_neg here, decide_eq_false (by omega)]
      simp
  · funext j
    rw [deletedAt, bit, deletedAt, decide_eq_false (by omega)]
    simp

theorem acSetIsbothFalse_spec :
    ∃ flags', acSetIsbothFalse flags i = some flags' ∧ flags'.length = flags.length ∧
      emptyAt flags' = Function.update (emptyAt flags) i false ∧
      deletedAt flags' = Function.update (deletedAt flags) i false := by
  obtain ⟨flags', changed, length, bits⟩ :=
    acChange_spec within fun word shift => word &&& ~~~(3#32 <<< shift)
  have bit (k : Nat) : bitAt flags' k = (bitAt flags k && !decide (k / 2 = i)) := by
    rw [bits]
    split_ifs with here
    · rw [BitVec.getLsbD_and, BitVec.getLsbD_not, three_shifted (Nat.mod_lt _ (by decide)), ← here, bitAt,
        ← Bool.decide_or, show decide (k % 32 = 2 * (i % 16) ∨ k % 32 = 2 * (i % 16) + 1) =
          decide (k / 2 = i) from decide_eq_decide.mpr (by omega)]
      simp [Nat.mod_lt]
    · simp [show k / 2 ≠ i by omega]
  refine ⟨flags', changed, length, ?_, ?_⟩
  · funext j
    rw [emptyAt, bit, Function.update_apply, emptyAt, show (2 * j + 1) / 2 = j by omega]
    by_cases here : j = i <;> simp [here]
  · funext j
    rw [deletedAt, bit, Function.update_apply, deletedAt, show 2 * j / 2 = j by omega]
    by_cases here : j = i <;> simp [here]

theorem acSetIsdelTrue_spec :
    ∃ flags', acSetIsdelTrue flags i = some flags' ∧ flags'.length = flags.length ∧
      emptyAt flags' = emptyAt flags ∧ deletedAt flags' = Function.update (deletedAt flags) i true := by
  obtain ⟨flags', changed, length, bits⟩ :=
    acChange_spec within fun word shift => word ||| (1#32 <<< shift)
  have bit (k : Nat) : bitAt flags' k = (bitAt flags k || decide (k = 2 * i)) := by
    rw [bits]
    split_ifs with here
    · rw [BitVec.getLsbD_or, one_shifted (Nat.mod_lt _ (by decide)), ← here, bitAt,
        show decide (k % 32 = 2 * (i % 16)) = decide (k = 2 * i) from decide_eq_decide.mpr (by omega)]
    · simp [show k ≠ 2 * i by omega]
  refine ⟨flags', changed, length, ?_, ?_⟩
  · funext j
    rw [emptyAt, bit, emptyAt, decide_eq_false (by omega)]
    simp
  · funext j
    rw [deletedAt, bit, Function.update_apply, deletedAt]
    by_cases here : j = i
    · simp [here]
    · rw [if_neg here, decide_eq_false (by omega)]
      simp

end Write

theorem length_blankFlags (m : Nat) : (blankFlags m).length = acFsize m := List.length_replicate

theorem acFsize_covers {m i : Nat} (power : ∃ e, m = 2 ^ e) (within : i < m) : i / 16 < acFsize m := by
  obtain ⟨e, rfl⟩ := power
  unfold acFsize
  split_ifs with small
  · omega
  · have large : 4 ≤ e := by
      by_contra less
      have := Nat.pow_lt_pow_right (a := 2) (by decide) (show e < 4 by omega)
      omega
    obtain ⟨d, rfl⟩ := Nat.exists_eq_add_of_le large
    rw [Nat.shiftRight_eq_div_pow, Nat.pow_add]
    rw [Nat.pow_add] at within
    omega

theorem bitAt_blankFlags {m k : Nat} (within : k / 32 < acFsize m) :
    bitAt (blankFlags m) k = decide (k % 2 = 1) := by
  have word : (blankFlags m).getD (k / 32) 0 = 0xaaaaaaaa#32 := by
    simp [blankFlags, within]
  have pattern : ∀ b < 32, (0xaaaaaaaa#32).getLsbD b = decide (b % 2 = 1) := by decide
  rw [bitAt, word, pattern _ (Nat.mod_lt _ (by decide)), show k % 32 % 2 = k % 2 by omega]

theorem emptyAt_blankFlags {m i : Nat} (within : i / 16 < acFsize m) :
    emptyAt (blankFlags m) i = true := by
  rw [emptyAt, bitAt_blankFlags (by omega)]
  simp

theorem deletedAt_blankFlags {m i : Nat} (within : i / 16 < acFsize m) :
    deletedAt (blankFlags m) i = false := by
  rw [deletedAt, bitAt_blankFlags (by omega)]
  simp

end Flags

/-- An array element is `none` until it is written. -/
structure Table (K V : Type) where
  nBuckets : Nat
  size : Nat
  nOccupied : Nat
  upperBound : Nat
  flags : Flags
  keys : List (Option K)
  vals : List (Option V)
  deriving DecidableEq, Repr

/-- What the allocator answers to the requests of one resize. -/
structure Allocs where
  newFlags : Bool
  keys : Bool
  vals : Bool
  deriving DecidableEq, Repr

def Allocs.succeed : Allocs := ⟨true, true, true⟩

def krealloc {α : Type} (array : List (Option α)) (n : Nat) : List (Option α) :=
  array.take n ++ List.replicate (n - array.length) none

def store {α : Type} (array : List (Option α)) (i : Nat) (a : Option α) : Option (List (Option α)) :=
  if i < array.length then some (array.set i a) else none

def kroundup32 (x : Nat) : Nat :=
  let x := BitVec.ofNat 32 x - 1
  let x := x ||| x >>> 1
  let x := x ||| x >>> 2
  let x := x ||| x >>> 4
  let x := x ||| x >>> 8
  let x := x ||| x >>> 16
  (x + 1).toNat

/-- `(khint_t)(n * __ac_HASH_UPPER + 0.5)`: no power of two brings the product near to an integer and
a half, so its rounding does not show. -/
def hashUpper (n : Nat) : Nat := (77 * n + 50) / 100

variable {K V : Type}

def khInit : Table K V := ⟨0, 0, 0, 0, [], [], []⟩

def khClear (h : Table K V) : Table K V :=
  if h.flags = [] then h
  else { h with flags := blankFlags h.nBuckets, size := 0, nOccupied := 0 }

def khExist (h : Table K V) (x : Nat) : Option Bool := (acIseither h.flags x).map not

def khDel (h : Table K V) (x : Nat) : Option (Table K V) :=
  if x = h.nBuckets then some h
  else do
    if ← acIseither h.flags x then return h
    else
      let flags ← acSetIsdelTrue h.flags x
      return { h with flags, size := h.size - 1 }

section Probe

variable [DecidableEq K] (h : Table K V) (key : K)

def passes (i : Nat) : Option Bool := do
  if ← acIsempty h.flags i then return false
  else if ← acIsdel h.flags i then return true
  else
    let other ← h.keys[i]?.join
    return other != key

def khGetLoop (last : Nat) : Nat → Nat → Nat → Option Nat
  | 0, _, _ => none
  | fuel + 1, i, step => do
      if ← passes h key i then
        let i := (i + (step + 1)) &&& (h.nBuckets - 1)
        if i = last then return h.nBuckets
        else khGetLoop last fuel i (step + 1)
      else if ← acIseither h.flags i then return h.nBuckets
      else return i

variable (hash : K → BitVec 32)

def khGet : Option Nat :=
  if h.nBuckets = 0 then some 0
  else
    let i := (hash key).toNat &&& (h.nBuckets - 1)
    khGetLoop h key i (2 * h.nBuckets) i 0

/-- The loop of `kh_put`, with `x`, `i` and `site` where it ends. -/
def khPutLoop (last : Nat) : Nat → Nat → Nat → Nat → Option (Nat × Nat × Nat)
  | 0, _, _, _ => none
  | fuel + 1, i, step, site => do
      if ← passes h key i then
        let site := if ← acIsdel h.flags i then i else site
        let i := (i + (step + 1)) &&& (h.nBuckets - 1)
        if i = last then return (site, i, site)
        else khPutLoop last fuel i (step + 1) site
      else return (h.nBuckets, i, site)

/-- The bucket that `kh_put` takes. -/
def khPutSite : Option Nat := do
  let i := (hash key).toNat &&& (h.nBuckets - 1)
  if ← acIsempty h.flags i then return i
  else
    let (x, i, site) ← khPutLoop h key i (2 * h.nBuckets) i 0 h.nBuckets
    if x = h.nBuckets then
      let empty ← acIsempty h.flags i
      return if empty && site != h.nBuckets then site else i
    else return x

end Probe

structure Rehash (K V : Type) where
  flags : Flags
  newFlags : Flags
  keys : List (Option K)
  vals : List (Option V)

section Resize

variable (hash : K → BitVec 32)

def freeBucket (newFlags : Flags) (newMask : Nat) : Nat → Nat → Nat → Option Nat
  | 0, _, _ => none
  | fuel + 1, i, step => do
      if ← acIsempty newFlags i then return i
      else freeBucket newFlags newMask fuel ((i + (step + 1)) &&& newMask) (step + 1)

def kickOut (nBuckets newNBuckets : Nat) : Nat → Rehash K V → K → Option V → Option (Rehash K V)
  | 0, _, _, _ => none
  | fuel + 1, r, key, val => do
      let newMask := newNBuckets - 1
      let i ← freeBucket r.newFlags newMask newNBuckets ((hash key).toNat &&& newMask) 0
      let newFlags ← acSetIsemptyFalse r.newFlags i
      let keys ← store r.keys i (some key)
      let vals ← store r.vals i val
      let occupied ← if i < nBuckets then (acIseither r.flags i).map not else some false
      if occupied then
        let otherKey ← r.keys[i]?.join
        let otherVal ← r.vals[i]?
        let flags ← acSetIsdelTrue r.flags i
        kickOut nBuckets newNBuckets fuel ⟨flags, newFlags, keys, vals⟩ otherKey otherVal
      else return { r with newFlags, keys, vals }

def rehashBucket (nBuckets newNBuckets : Nat) (r : Rehash K V) (j : Nat) : Option (Rehash K V) := do
  if ← acIseither r.flags j then return r
  else
    let key ← r.keys[j]?.join
    let val ← r.vals[j]?
    let flags ← acSetIsdelTrue r.flags j
    kickOut hash nBuckets newNBuckets (nBuckets + 1) { r with flags } key val

/-- The second part of `kh_resize`; a table that shrinks keeps its arrays only if `realloc` does. -/
def rehash (allocs : Allocs) (h : Table K V) (newNBuckets : Nat) : Option (Table K V) := do
  let r ← (List.range h.nBuckets).foldlM (rehashBucket hash h.nBuckets newNBuckets)
    ⟨h.flags, blankFlags newNBuckets, h.keys, h.vals⟩
  let shrink := newNBuckets < h.nBuckets
  return {
    nBuckets := newNBuckets
    size := h.size
    nOccupied := h.size
    upperBound := hashUpper newNBuckets
    flags := r.newFlags
    keys := if shrink then if allocs.keys then krealloc r.keys newNBuckets else [] else r.keys
    vals := if shrink then if allocs.vals then krealloc r.vals newNBuckets else [] else r.vals }

def khResize (allocs : Allocs) (h : Table K V) (newNBuckets : Nat) : Option (Table K V × Int) :=
  let rounded := kroundup32 newNBuckets
  let n := if rounded < 4 then 4 else rounded
  if hashUpper n ≤ h.size then some (h, 0) -- requested size is too small
  else if !allocs.newFlags then some (h, -1)
  else if h.nBuckets < n then
    if !allocs.keys then some (h, -1)
    else
      let h := { h with keys := krealloc h.keys n }
      if !allocs.vals then some (h, -1)
      else (rehash hash allocs { h with vals := krealloc h.vals n } n).map (·, 0)
  else (rehash hash allocs h n).map (·, 0)

variable [DecidableEq K]

/-- `kh_put` when the table has room. -/
def khPutRoomy (h : Table K V) (key : K) : Option (Table K V × Nat × Int) := do
  let x ← khPutSite h key hash
  if ← acIsempty h.flags x then
    let keys ← store h.keys x (some key)
    let flags ← acSetIsbothFalse h.flags x
    return ({ h with keys, flags, size := h.size + 1, nOccupied := h.nOccupied + 1 }, x, 1)
  else if ← acIsdel h.flags x then
    let keys ← store h.keys x (some key)
    let flags ← acSetIsbothFalse h.flags x
    return ({ h with keys, flags, size := h.size + 1 }, x, 2)
  else return (h, x, 0)

/-- The size that `kh_put` asks for: the same one without the deleted entries, or the next one. -/
def wanted (h : Table K V) : Nat :=
  if h.size <<< 1 % 2 ^ 32 < h.nBuckets then h.nBuckets - 1 else (h.nBuckets + 1) % 2 ^ 32

def khPut (allocs : Allocs) (h : Table K V) (key : K) : Option (Table K V × Nat × Int) :=
  if h.upperBound ≤ h.nOccupied then do
    let (resized, code) ← khResize hash allocs h (wanted h)
    if code < 0 then return (resized, resized.nBuckets, -1)
    else khPutRoomy hash resized key
  else khPutRoomy hash h key

end Resize

end Yafsml.Khash
