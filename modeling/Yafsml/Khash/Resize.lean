import Mathlib.Tactic.IntervalCases
import Yafsml.Khash.Formed

/-! # Rehashing

`kh_resize` moves the entries within one pair of arrays: an entry goes to its bucket of the new table,
and the old entry that it finds there goes next. -/

namespace Yafsml.Khash

open Slots TriangularProbing

variable {K V : Type}

/-- The old entries that still wait in their buckets. -/
def waiting (n : Nat) (r : Rehash K V) (i : Nat) : Option (K × Option V) :=
  if i < n ∧ liveAt r.flags i = true then entryAt r.keys r.vals i else none

def placed (r : Rehash K V) (i : Nat) : Option (K × Option V) :=
  if emptyAt r.newFlags i then none else entryAt r.keys r.vals i

/-- The invariant of the rehash: what is placed, waits or is in hand are the entries of the table. -/
structure Rehashing (hash : K → BitVec 32) (n newN : Nat) (all : List (K × Option V))
    (hand : Option (K × Option V)) (r : Rehash K V) : Prop where
  power : ∃ e, newN = 2 ^ e
  flags : ∀ i < n, i / 16 < r.flags.length
  newFlags : r.newFlags.length = acFsize newN
  keys : n ≤ r.keys.length ∧ newN ≤ r.keys.length
  vals : n ≤ r.vals.length ∧ newN ≤ r.vals.length
  waits : ∀ i < n, liveAt r.flags i = true → ∃ key, r.keys[i]?.join = some key
  apart : ∀ i < n, liveAt r.flags i = true → i < newN → emptyAt r.newFlags i = true
  fresh : ∀ i < newN, deletedAt r.newFlags i = false
  holds : ∀ i < newN, emptyAt r.newFlags i = false → ∃ key, r.keys[i]?.join = some key
  reached : ∀ i < newN, ∀ e, placed r i = some e → Reached hash newN r.newFlags e.1 i
  pool : (taken newN (placed r) ++ taken n (waiting n r) ++ hand.toList).Perm all
  room : all.length < newN

theorem entryAt_some {keys : List (Option K)} {i : Nat} {key : K} (own : keys[i]?.join = some key)
    (vals : List (Option V)) : entryAt keys vals i = some (key, vals[i]?.join) := by
  rw [entryAt, own, Option.map_some]

theorem getElem?_of_lt {α : Type} {array : List (Option α)} {i : Nat} (within : i < array.length) :
    array[i]? = some array[i]?.join := by
  rw [List.getElem?_eq_getElem within]
  rfl

namespace Rehashing

variable {hash : K → BitVec 32} {n newN : Nat} {all : List (K × Option V)}
  {hand : Option (K × Option V)} {r : Rehash K V} (inv : Rehashing hash n newN all hand r)

include inv

theorem newFlagged {i : Nat} (within : i < newN) : i / 16 < r.newFlags.length := by
  rw [inv.newFlags]
  exact acFsize_covers inv.power within

theorem positive : 0 < newN := by have := inv.room; omega

theorem exists_empty {e : K × Option V} (in_hand : hand = some e) :
    ∃ i < newN, emptyAt r.newFlags i = true := by
  have total := inv.pool.length_eq
  rw [in_hand] at total
  simp only [List.length_append, Option.toList_some, List.length_singleton] at total
  have room := inv.room
  obtain ⟨i, within, free⟩ : ∃ i < newN, placed r i = none := exists_free (by omega)
  refine ⟨i, within, ?_⟩
  by_contra full
  have full : emptyAt r.newFlags i = false := by simpa using full
  obtain ⟨key, own⟩ := inv.holds i within full
  simp [placed, full, entryAt_some own] at free

theorem freeBucket_spec {e : K × Option V} (in_hand : hand = some e) (key : K) :
    ∃ i < newN, freeBucket r.newFlags (newN - 1) newN ((hash key).toNat &&& (newN - 1)) 0 = some i ∧
      emptyAt r.newFlags i = true ∧ Reached hash newN r.newFlags key i := by
  obtain ⟨exponent, power⟩ := inv.power
  have mask (i : Nat) : i &&& (newN - 1) = i % newN := by
    rw [power, Nat.and_two_pow_sub_one_eq_mod]
  obtain ⟨free, within, empty⟩ := inv.exists_empty in_hand
  obtain ⟨k, inside, stops, passed⟩ := exists_first power
    (fun i => emptyAt r.newFlags i = true) (hash key).toNat within empty
  have walk {fuel j : Nat} (before : j ≤ k) (enough : k - j < fuel) :
      freeBucket r.newFlags (newN - 1) fuel (spot newN (hash key).toNat j) j =
        some (spot newN (hash key).toNat k) := by
    induction fuel generalizing j with
    | zero => omega
    | succ fuel ih =>
        rw [freeBucket, acIsempty_eq (inv.newFlagged (spot_lt inv.positive _ j))]
        by_cases here : j = k
        · subst here
          rw [stops]
          rfl
        · have full : emptyAt r.newFlags (spot newN (hash key).toNat j) = false := by
            simpa using passed j (by omega)
          rw [full, mask, spot_succ]
          exact ih (by omega) (by omega)
  refine ⟨_, spot_lt inv.positive _ k, ?_, stops, k, inside, rfl, fun j before => by
    simpa using passed j before⟩
  rw [mask, ← spot_zero]
  exact walk (Nat.zero_le k) (by omega)

theorem waiting_eq {j : Nat} (within : j < n) (live : liveAt r.flags j = true) :
    ∃ key, r.keys[j]?.join = some key ∧ waiting n r j = some (key, r.vals[j]?.join) := by
  obtain ⟨key, own⟩ := inv.waits j within live
  exact ⟨key, own, by simp [waiting, within, live, entryAt_some own]⟩

theorem pick {j : Nat} (within : j < n) (empty_hand : hand = none) {flags : Flags}
    (length : flags.length = r.flags.length) (empties : emptyAt flags = emptyAt r.flags)
    (deletes : deletedAt flags = Function.update (deletedAt r.flags) j true) :
    Rehashing hash n newN all (waiting n r j) { r with flags } ∧
      waiting n { r with flags } = Function.update (waiting n r) j none := by
  have live (i : Nat) : liveAt flags i = if i = j then false else liveAt r.flags i := by
    rw [liveAt, empties, deletes]
    by_cases here : i = j <;> simp [liveAt, here]
  have waits : waiting n { r with flags } = Function.update (waiting n r) j none := by
    funext i
    by_cases here : i = j <;> simp [waiting, live, here]
  have still {i : Nat} (live_i : liveAt flags i = true) : liveAt r.flags i = true := by
    rw [live] at live_i
    split_ifs at live_i
    exact live_i
  refine ⟨?_, waits⟩
  constructor
  case power => exact inv.power
  case flags => simpa only [length] using inv.flags
  case newFlags => exact inv.newFlags
  case keys => exact inv.keys
  case vals => exact inv.vals
  case waits => exact fun i inside live_i => inv.waits i inside (still live_i)
  case apart => exact fun i inside live_i => inv.apart i inside (still live_i)
  case fresh => exact inv.fresh
  case holds => exact inv.holds
  case reached => exact inv.reached
  case room => exact inv.room
  case pool =>
    have perm := taken_update (waiting n r) within none
    rw [← waits, Option.toList_none, List.append_nil] at perm
    have pool := inv.pool
    rw [empty_hand, Option.toList_none, List.append_nil] at pool
    rw [List.append_assoc]
    exact (perm.append_left _).trans pool

theorem put {key : K} {val : Option V} (in_hand : hand = some (key, val)) {i : Nat} (within : i < newN)
    (empty : emptyAt r.newFlags i = true) (reached : Reached hash newN r.newFlags key i)
    {flags newFlags : Flags} (newLength : newFlags.length = r.newFlags.length)
    (newEmpties : emptyAt newFlags = Function.update (emptyAt r.newFlags) i false)
    (newDeletes : deletedAt newFlags = deletedAt r.newFlags)
    (length : flags.length = r.flags.length)
    (live : ∀ j < n, liveAt flags j = if j = i then false else liveAt r.flags j) :
    let r' : Rehash K V := ⟨flags, newFlags, r.keys.set i (some key), r.vals.set i val⟩
    Rehashing hash n newN all (waiting n r i) r' ∧
      waiting n r' = Function.update (waiting n r) i none := by
  intro r'
  have of_keys : i < r.keys.length := lt_of_lt_of_le within inv.keys.2
  have of_vals : i < r.vals.length := lt_of_lt_of_le within inv.vals.2
  have entry : entryAt r'.keys r'.vals = Function.update (entryAt r.keys r.vals) i (some (key, val)) :=
    entryAt_set of_keys of_vals key val
  have waits : waiting n r' = Function.update (waiting n r) i none := by
    funext j
    by_cases here : j = i
    · subst here
      rw [Function.update_self, waiting, if_neg]
      rintro ⟨inside, live_j⟩
      simp [r', live j inside] at live_j
    · rw [Function.update_of_ne here, waiting, waiting, entry, Function.update_of_ne here]
      by_cases inside : j < n <;> simp [r', inside, here, live]
  have places : placed r' = Function.update (placed r) i (some (key, val)) := by
    funext j
    by_cases here : j = i <;> simp [placed, newEmpties, here, entry, r']
  have vacant : placed r i = none := by simp [placed, empty]
  have still {j : Nat} (inside : j < n) (live_j : liveAt flags j = true) :
      j ≠ i ∧ liveAt r.flags j = true := by
    rw [live j inside] at live_j
    split_ifs at live_j with here
    exact ⟨here, live_j⟩
  have fewer (j : Nat) (full : emptyAt r.newFlags j = false) : emptyAt newFlags j = false := by
    rw [newEmpties]
    by_cases here : j = i <;> simp [here, full]
  refine ⟨?_, waits⟩
  constructor
  case power => exact inv.power
  case flags => simpa only [r', length] using inv.flags
  case newFlags => exact newLength.trans inv.newFlags
  case keys => simpa [r'] using inv.keys
  case vals => simpa [r'] using inv.vals
  case room => exact inv.room
  case fresh => simpa only [r', newDeletes] using inv.fresh
  case waits =>
    intro j inside live_j
    obtain ⟨other, live_j⟩ := still inside live_j
    obtain ⟨key', own⟩ := inv.waits j inside live_j
    exact ⟨key', by simpa [r', other.symm] using own⟩
  case apart =>
    intro j inside live_j new
    obtain ⟨other, live_j⟩ := still inside live_j
    simpa [r', newEmpties, other] using inv.apart j inside live_j new
  case holds =>
    intro j inside full
    by_cases here : j = i
    · subst here
      exact ⟨key, by simp [r', of_keys]⟩
    · obtain ⟨key', own⟩ := inv.holds j inside (by simpa [r', newEmpties, here] using full)
      exact ⟨key', by simpa [r', Ne.symm here] using own⟩
  case reached =>
    intro j inside e at_j
    rw [places] at at_j
    by_cases here : j = i
    · subst here
      obtain rfl : (key, val) = e := by simpa using at_j
      exact reached.more fewer
    · rw [Function.update_of_ne here] at at_j
      exact (inv.reached j inside e at_j).more fewer
  case pool =>
    have pool := inv.pool
    rw [in_hand] at pool
    have new := taken_update (placed r) within (some (key, val))
    rw [vacant, ← places, Option.toList_none, List.append_nil] at new
    have old : (taken n (waiting n r') ++ (waiting n r i).toList).Perm (taken n (waiting n r)) := by
      by_cases inside : i < n
      · have perm := taken_update (waiting n r) inside none
        rwa [← waits, Option.toList_none, List.append_nil] at perm
      · have outside : waiting n r i = none := by simp [waiting, inside]
        have same : waiting n r' = waiting n r := by
          rw [waits, ← outside, Function.update_eq_self]
        rw [same, outside, Option.toList_none, List.append_nil]
    refine List.Perm.trans ?_ pool
    calc taken newN (placed r') ++ taken n (waiting n r') ++ (waiting n r i).toList
        = taken newN (placed r') ++ (taken n (waiting n r') ++ (waiting n r i).toList) :=
          List.append_assoc ..
      _ |>.Perm (taken newN (placed r) ++ (some (key, val)).toList ++ taken n (waiting n r)) :=
          new.append old
      _ |>.Perm (taken newN (placed r) ++ taken n (waiting n r) ++ (some (key, val)).toList) := by
          rw [List.append_assoc, List.append_assoc]
          exact List.perm_append_comm.append_left _

theorem kickOut_spec {fuel : Nat} {key : K} {val : Option V} (in_hand : hand = some (key, val))
    (enough : (taken n (waiting n r)).length < fuel) :
    ∃ r', kickOut hash n newN fuel r key val = some r' ∧ Rehashing hash n newN all none r' ∧
      ∀ j < n, liveAt r.flags j = false → liveAt r'.flags j = false := by
  induction fuel generalizing r hand key val with
  | zero => omega
  | succ fuel ih =>
      obtain ⟨i, within, found, empty, reached⟩ := inv.freeBucket_spec in_hand key
      obtain ⟨newFlags, newChanged, newLength, newEmpties, newDeletes⟩ :=
        acSetIsemptyFalse_spec (inv.newFlagged within)
      have of_keys : i < r.keys.length := lt_of_lt_of_le within inv.keys.2
      have of_vals : i < r.vals.length := lt_of_lt_of_le within inv.vals.2
      rw [kickOut]
      simp only [found, newChanged, store_eq of_keys, store_eq of_vals, Option.bind_eq_bind,
        Option.bind_some]
      by_cases occupied : i < n ∧ liveAt r.flags i = true
      · -- the entry that waits there is the next one
        obtain ⟨inside, live_i⟩ := occupied
        have flagged := inv.flags i inside
        obtain ⟨other, own, waits⟩ := inv.waiting_eq inside live_i
        obtain ⟨flags, changed, length, empties, deletes⟩ := acSetIsdelTrue_spec flagged
        have live (j : Nat) : liveAt flags j = if j = i then false else liveAt r.flags j := by
          rw [liveAt, empties, deletes]
          by_cases here : j = i <;> simp [liveAt, here]
        have either : (emptyAt r.flags i || deletedAt r.flags i) = false := by
          cases empty : emptyAt r.flags i <;> cases deleted : deletedAt r.flags i <;>
            simp_all [liveAt]
        obtain ⟨inv', fewer⟩ := inv.put in_hand within empty reached newLength newEmpties newDeletes
          length fun j _ => live j
        have shorter : (taken n (Function.update (waiting n r) i none)).length < fuel := by
          have total := length_entries_update (waiting n r) inside none
          simp only [waits, Option.toList_some, Option.toList_none, List.length_singleton,
            List.length_nil] at total
          omega
        rw [← fewer] at shorter
        obtain ⟨r', result, done, still⟩ := ih inv' waits shorter
        refine ⟨r', ?_, done, fun j inside_j dead => still j inside_j ?_⟩
        · rw [if_pos inside, acIseither_eq flagged, either, own,
            getElem?_of_lt (lt_of_lt_of_le inside inv.vals.1), changed]
          exact result
        · rw [live]
          split_ifs
          · rfl
          · exact dead
      · -- the bucket holds nothing that waits
        have same : ∀ j < n, liveAt r.flags j = if j = i then false else liveAt r.flags j := by
          intro j inside
          split_ifs with here
          · subst here
            simpa [inside] using occupied
          · rfl
        obtain ⟨inv', fewer⟩ := inv.put in_hand within empty reached newLength newEmpties newDeletes
          (rfl : r.flags.length = _) same
        have none_waits : waiting n r i = none := if_neg occupied
        rw [none_waits] at inv'
        refine ⟨_, ?_, inv', fun j _ dead => dead⟩
        by_cases inside : i < n
        · have either : (emptyAt r.flags i || deletedAt r.flags i) = true := by
            have dead : liveAt r.flags i = false := by simpa [inside] using occupied
            cases empty : emptyAt r.flags i <;> simp_all [liveAt]
          rw [if_pos inside, acIseither_eq (inv.flags i inside), either]
          rfl
        · rw [if_neg inside]
          rfl

theorem rehashBucket_spec (empty_hand : hand = none) {j : Nat} (within : j < n) :
    ∃ r', rehashBucket hash n newN r j = some r' ∧ Rehashing hash n newN all none r' ∧
      ∀ i < n, liveAt r.flags i = false ∨ i = j → liveAt r'.flags i = false := by
  have flagged := inv.flags j within
  have either : (emptyAt r.flags j || deletedAt r.flags j) = !liveAt r.flags j := by
    simp [liveAt]
  rw [rehashBucket, acIseither_eq flagged, either]
  cases live : liveAt r.flags j with
  | false =>
      subst empty_hand
      refine ⟨r, rfl, inv, fun i _ which => ?_⟩
      rcases which with dead | rfl
      · exact dead
      · exact live
  | true =>
      obtain ⟨key, own, waits⟩ := inv.waiting_eq within live
      obtain ⟨flags, changed, length, empties, deletes⟩ := acSetIsdelTrue_spec flagged
      obtain ⟨inv', fewer⟩ := inv.pick within empty_hand length empties deletes
      obtain ⟨r', result, done, still⟩ := inv'.kickOut_spec waits
        (Nat.lt_succ_of_le (length_taken_le n _))
      refine ⟨r', ?_, done, fun i inside which => still i inside ?_⟩
      · rw [own, getElem?_of_lt (lt_of_lt_of_le within inv.vals.1), changed]
        exact result
      · rw [liveAt, empties, deletes]
        rcases which with dead | rfl
        · by_cases here : i = j
          · simp [here]
          · rw [Function.update_of_ne here]
            exact dead
        · simp

theorem loop_spec (empty_hand : hand = none) {m : Nat} (le : m ≤ n) :
    ∃ r', (List.range m).foldlM (rehashBucket hash n newN) r = some r' ∧
      Rehashing hash n newN all none r' ∧ ∀ i < m, liveAt r'.flags i = false := by
  induction m with
  | zero =>
      subst empty_hand
      exact ⟨r, rfl, inv, fun i before => by omega⟩
  | succ m ih =>
      obtain ⟨r', result, inv', done⟩ := ih (by omega)
      obtain ⟨r'', result', inv'', done'⟩ := inv'.rehashBucket_spec rfl (show m < n by omega)
      refine ⟨r'', ?_, inv'', fun i before => done' i (by omega) ?_⟩
      · rw [List.range_succ, List.foldlM_append, result]
        simpa using result'
      · rcases Nat.lt_succ_iff_lt_or_eq.mp before with earlier | rfl
        · exact .inl (done i earlier)
        · exact .inr rfl

end Rehashing

/-! ## The arrays -/

theorem length_krealloc {α : Type} (array : List (Option α)) (n : Nat) : (krealloc array n).length = n := by
  simp only [krealloc, List.length_append, List.length_take, List.length_replicate]
  omega

theorem join_krealloc {α : Type} (array : List (Option α)) {n i : Nat} (within : i < n) :
    (krealloc array n)[i]?.join = array[i]?.join := by
  rw [krealloc, List.getElem?_append]
  split_ifs with kept
  · rw [List.getElem?_take_of_lt within]
  · have outside : array.length ≤ i := by
      rw [List.length_take] at kept
      omega
    rw [List.getElem?_eq_none outside, List.getElem?_replicate]
    split_ifs <;> rfl

/-- What a resize needs of a table, with or without buckets. -/
structure Sound (h : Table K V) : Prop where
  flags : ∀ i < h.nBuckets, i / 16 < h.flags.length
  keys : h.nBuckets ≤ h.keys.length
  vals : h.nBuckets ≤ h.vals.length
  written : ∀ i < h.nBuckets, liveAt h.flags i = true → ∃ key, h.keys[i]?.join = some key
  distinct : ((entries h).map Prod.fst).Nodup
  size : h.size = (entries h).length

theorem Formed.sound {hash : K → BitVec 32} {h : Table K V} (formed : Formed hash h) : Sound h :=
  ⟨fun _ => formed.flagged, formed.keys, formed.vals, formed.written, formed.distinct, formed.size⟩

theorem slot_rearranged {h : Table K V} {keys : List (Option K)} {vals : List (Option V)} {i : Nat}
    (of_keys : keys[i]?.join = h.keys[i]?.join) (of_vals : vals[i]?.join = h.vals[i]?.join) :
    slot { h with keys, vals } i = slot h i := by
  simp only [slot, entryAt, of_keys, of_vals]

namespace Sound

variable {hash : K → BitVec 32} {h : Table K V} (sound : Sound h)

include sound

theorem move (keys : List (Option K)) (vals : List (Option V)) (enough_keys : h.nBuckets ≤ keys.length)
    (enough_vals : h.nBuckets ≤ vals.length)
    (of_keys : ∀ i < h.nBuckets, keys[i]?.join = h.keys[i]?.join)
    (of_vals : ∀ i < h.nBuckets, vals[i]?.join = h.vals[i]?.join) :
    Sound { h with keys, vals } ∧ entries { h with keys, vals } = entries h := by
  have same : entries { h with keys, vals } = entries h :=
    taken_congr fun i within => slot_rearranged (of_keys i within) (of_vals i within)
  refine ⟨⟨sound.flags, enough_keys, enough_vals, fun i within live => ?_, ?_, ?_⟩, same⟩
  · rw [of_keys i within]
    exact sound.written i within live
  · rw [same]
    exact sound.distinct
  · rw [same]
    exact sound.size

theorem rehash_spec (hash : K → BitVec 32) (allocs : Allocs) {newN e : Nat} (two : 2 ≤ e) (power : newN = 2 ^ e)
    (of_keys : newN ≤ h.keys.length) (of_vals : newN ≤ h.vals.length) (fits : h.size < hashUpper newN)
    (grows : h.nBuckets ≤ newN) :
    ∃ h', rehash hash allocs h newN = some h' ∧ Formed hash h' ∧ (entries h').Perm (entries h) ∧
      h'.nBuckets = newN ∧ h'.nOccupied = h.size ∧ h'.upperBound = hashUpper newN ∧ h'.size = h.size := by
  have four : 4 ≤ newN := by
    rw [power]
    exact Nat.pow_le_pow_right (show 0 < 2 by decide) two
  have blank {i : Nat} (within : i < newN) : i / 16 < acFsize newN := acFsize_covers ⟨e, power⟩ within
  let start : Rehash K V := ⟨h.flags, blankFlags newN, h.keys, h.vals⟩
  have none_placed : taken newN (placed start) = [] :=
    taken_eq_nil fun i within => by simp [placed, start, emptyAt_blankFlags (blank within)]
  have all_wait : taken h.nBuckets (waiting h.nBuckets start) = entries h :=
    taken_congr fun i within => by simp [waiting, start, slot, within]
  have inv : Rehashing hash h.nBuckets newN (entries h) none start := by
    constructor
    case power => exact ⟨e, power⟩
    case flags => exact sound.flags
    case newFlags => exact length_blankFlags newN
    case keys => exact ⟨sound.keys, of_keys⟩
    case vals => exact ⟨sound.vals, of_vals⟩
    case waits => exact sound.written
    case apart => exact fun i _ _ within => emptyAt_blankFlags (blank within)
    case fresh => exact fun i within => deletedAt_blankFlags (blank within)
    case holds =>
      intro i within full
      rw [emptyAt_blankFlags (blank within)] at full
      cases full
    case reached =>
      intro i within e at_i
      simp [placed, start, emptyAt_blankFlags (blank within)] at at_i
    case pool =>
      rw [none_placed, all_wait]
      simp
    case room =>
      have := hashUpper_lt four
      have := sound.size
      omega
  obtain ⟨r, result, done, moved⟩ := inv.loop_spec rfl (Nat.le_refl _)
  let h' : Table K V := ⟨newN, h.size, h.size, hashUpper newN, r.newFlags, r.keys, r.vals⟩
  have slots (i : Nat) (within : i < newN) : slot h' i = placed r i := by
    have fresh := done.fresh i within
    cases empty : emptyAt r.newFlags i <;> simp [slot, h', placed, liveAt, empty, fresh]
  have none_waits : taken h.nBuckets (waiting h.nBuckets r) = [] :=
    taken_eq_nil fun i within => by simp [waiting, moved i within]
  have all_placed : entries h' = taken newN (placed r) := taken_congr slots
  have perm : (entries h').Perm (entries h) := by
    have pool := done.pool
    rwa [none_waits, List.append_nil, Option.toList_none, List.append_nil, ← all_placed] at pool
  refine ⟨h', ?_, ?_, perm, rfl, rfl, rfl, rfl⟩
  · rw [rehash, result]
    simp [h', Nat.not_lt.mpr grows]
  constructor
  case power => exact ⟨e, two, power⟩
  case flags => exact done.newFlags
  case keys => exact done.keys.2
  case vals => exact done.vals.2
  case upper => rfl
  case room => exact Nat.le_of_lt fits
  case written =>
    intro i within live
    exact done.holds i within (by simpa [liveAt, h', done.fresh i within] using live)
  case distinct => exact (perm.map Prod.fst).nodup_iff.mpr sound.distinct
  case reached =>
    intro i within e at_i
    exact done.reached i within e (by rw [← slots i within]; exact at_i)
  case size => exact sound.size.trans perm.length_eq.symm
  case counted =>
    refine sound.size.trans (perm.length_eq.symm.trans ?_)
    rw [all_placed]
    apply length_taken_congr
    intro i within
    cases empty : emptyAt r.newFlags i with
    | true => simp [occupied, h', placed, empty]
    | false =>
        obtain ⟨key, own⟩ := done.holds i within empty
        simp [occupied, h', placed, empty, entryAt_some own]

end Sound

end Yafsml.Khash
