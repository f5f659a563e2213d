import Yafsml.Khash.Table

/-! # Well formed tables

What holds of a table with buckets between two calls, and what the calls that keep its buckets do. -/

namespace Yafsml.Khash

open Slots TriangularProbing

variable {K V : Type}

def liveAt (flags : Flags) (i : Nat) : Bool := !emptyAt flags i && !deletedAt flags i

def entryAt (keys : List (Option K)) (vals : List (Option V)) (i : Nat) : Option (K × Option V) :=
  keys[i]?.join.map (·, vals[i]?.join)

def slot (h : Table K V) (i : Nat) : Option (K × Option V) :=
  if liveAt h.flags i then entryAt h.keys h.vals i else none

def entries (h : Table K V) : List (K × Option V) := taken h.nBuckets (slot h)

def occupied (flags : Flags) (i : Nat) : Option Nat := if emptyAt flags i then none else some i

/-- A search for the key that starts in `n` buckets passes none of the empty ones before `i`. -/
def Reached (hash : K → BitVec 32) (n : Nat) (flags : Flags) (key : K) (i : Nat) : Prop :=
  ∃ k < n, spot n (hash key).toNat k = i ∧ ∀ j < k, emptyAt flags (spot n (hash key).toNat j) = false

structure Formed (hash : K → BitVec 32) (h : Table K V) : Prop where
  power : ∃ e, 2 ≤ e ∧ h.nBuckets = 2 ^ e
  flags : h.flags.length = acFsize h.nBuckets
  keys : h.nBuckets ≤ h.keys.length
  vals : h.nBuckets ≤ h.vals.length
  written : ∀ i < h.nBuckets, liveAt h.flags i = true → ∃ key, h.keys[i]?.join = some key
  distinct : ((entries h).map Prod.fst).Nodup
  reached : ∀ i < h.nBuckets, ∀ e, slot h i = some e → Reached hash h.nBuckets h.flags e.1 i
  size : h.size = (entries h).length
  counted : h.nOccupied = (taken h.nBuckets (occupied h.flags)).length
  upper : h.upperBound = hashUpper h.nBuckets
  room : h.nOccupied ≤ h.upperBound

theorem hashUpper_lt {n : Nat} (four : 4 ≤ n) : hashUpper n < n := by
  unfold hashUpper
  omega

theorem slot_some {h : Table K V} {i : Nat} {e : K × Option V} (found : slot h i = some e) :
    liveAt h.flags i = true ∧ h.keys[i]?.join = some e.1 ∧ h.vals[i]?.join = e.2 := by
  unfold slot entryAt at found
  split_ifs at found with live
  obtain ⟨key, at_key, rfl⟩ := Option.map_eq_some_iff.mp found
  exact ⟨live, at_key, rfl⟩

theorem slot_of_key {h : Table K V} {i : Nat} {key : K} (live : liveAt h.flags i = true)
    (own : h.keys[i]?.join = some key) : slot h i = some (key, h.vals[i]?.join) := by
  simp [slot, live, entryAt, own]

theorem Reached.more {hash : K → BitVec 32} {n : Nat} {flags flags' : Flags} {key : K} {i : Nat}
    (reached : Reached hash n flags key i)
    (fewer : ∀ j, emptyAt flags j = false → emptyAt flags' j = false) : Reached hash n flags' key i := by
  obtain ⟨k, within, ends, passed⟩ := reached
  exact ⟨k, within, ends, fun j before => fewer _ (passed j before)⟩

namespace Formed

variable {hash : K → BitVec 32} {h : Table K V} (formed : Formed hash h)

include formed

theorem four : 4 ≤ h.nBuckets := by
  obtain ⟨e, two, power⟩ := formed.power
  rw [power]
  exact Nat.pow_le_pow_right (show 0 < 2 by decide) two

theorem flagged {i : Nat} (within : i < h.nBuckets) : i / 16 < h.flags.length := by
  obtain ⟨e, _, power⟩ := formed.power
  rw [formed.flags]
  exact acFsize_covers ⟨e, power⟩ within

theorem mask (i : Nat) : i &&& (h.nBuckets - 1) = i % h.nBuckets := by
  obtain ⟨e, _, power⟩ := formed.power
  rw [power, Nat.and_two_pow_sub_one_eq_mod]

theorem next (s k : Nat) :
    (spot h.nBuckets s k + (k + 1)) &&& (h.nBuckets - 1) = spot h.nBuckets s (k + 1) := by
  rw [formed.mask, spot_succ]

theorem start (key : K) :
    (hash key).toNat &&& (h.nBuckets - 1) = spot h.nBuckets (hash key).toNat 0 := by
  rw [formed.mask, spot_zero]

theorem spot_inside (s k : Nat) : spot h.nBuckets s k < h.nBuckets :=
  spot_lt (by have := formed.four; omega) s k

theorem apart {s i j : Nat} (before : i < j) (inside : j < h.nBuckets) :
    spot h.nBuckets s i ≠ spot h.nBuckets s j := by
  obtain ⟨e, _, power⟩ := formed.power
  exact spot_ne power before inside

theorem exists_empty : ∃ i < h.nBuckets, emptyAt h.flags i = true := by
  obtain ⟨i, within, free⟩ : ∃ i < h.nBuckets, occupied h.flags i = none := exists_free (by
    have := hashUpper_lt formed.four
    have := formed.counted
    have := formed.room
    have := formed.upper
    omega)
  refine ⟨i, within, ?_⟩
  by_contra full
  simp [occupied, full] at free

variable [DecidableEq K]

omit formed in
def passAt (h : Table K V) (key : K) (i : Nat) : Bool :=
  !emptyAt h.flags i && (deletedAt h.flags i || decide (h.keys[i]?.join ≠ some key))

theorem passes_eq (key : K) {i : Nat} (within : i < h.nBuckets) :
    passes h key i = some (passAt h key i) := by
  have flagged := formed.flagged within
  unfold passes passAt
  rw [acIsempty_eq flagged, acIsdel_eq flagged]
  cases empty : emptyAt h.flags i with
  | true => rfl
  | false =>
      cases deleted : deletedAt h.flags i with
      | true => rfl
      | false =>
          obtain ⟨other, own⟩ := formed.written i within (by simp [liveAt, empty, deleted])
          by_cases same : other = key <;> simp [own, same]

theorem exists_stop (key : K) :
    ∃ k < h.nBuckets, passAt h key (spot h.nBuckets (hash key).toNat k) = false ∧
      ∀ j < k, passAt h key (spot h.nBuckets (hash key).toNat j) = true := by
  obtain ⟨e, _, power⟩ := formed.power
  obtain ⟨i, within, empty⟩ := formed.exists_empty
  obtain ⟨k, inside, stops, passed⟩ := exists_first power (fun i => passAt h key i = false)
    (hash key).toNat within (by simp [passAt, empty])
  exact ⟨k, inside, stops, fun j before => by simpa using passed j before⟩

section Stop

variable {key : K} {k : Nat}
  (stops : passAt h key (spot h.nBuckets (hash key).toNat k) = false)
  (passed : ∀ j < k, passAt h key (spot h.nBuckets (hash key).toNat j) = true)

include stops passed

omit stops in
theorem absent_of_empty (empty : emptyAt h.flags (spot h.nBuckets (hash key).toNat k) = true) :
    ∀ e ∈ entries h, e.1 ≠ key := by
  intro e member own
  obtain ⟨i, within, at_i⟩ := mem_taken.mp member
  obtain ⟨live, at_key, _⟩ := slot_some at_i
  obtain ⟨k', inside, ends, before⟩ := formed.reached i within e at_i
  rw [own] at ends before at_key
  rcases Nat.lt_trichotomy k k' with early | rfl | late
  · rw [before k early] at empty
    cases empty
  · rw [ends] at empty
    simp [liveAt, empty] at live
  · have goes := passed k' late
    rw [ends] at goes
    simp only [liveAt, Bool.and_eq_true, Bool.not_eq_true'] at live
    simp [passAt, live, at_key] at goes

omit passed formed in
theorem live_of_stop (full : emptyAt h.flags (spot h.nBuckets (hash key).toNat k) = false) :
    slot h (spot h.nBuckets (hash key).toNat k) =
      some (key, h.vals[spot h.nBuckets (hash key).toNat k]?.join) := by
  simp only [passAt, full, Bool.not_false, Bool.true_and, Bool.or_eq_false_iff] at stops
  exact slot_of_key (by simp [liveAt, full, stops.1]) (by simpa using stops.2)

theorem khGetLoop_eq (within : k < h.nBuckets) {fuel j : Nat} (before : j ≤ k) (enough : k - j < fuel) :
    khGetLoop h key (spot h.nBuckets (hash key).toNat 0) fuel (spot h.nBuckets (hash key).toNat j) j =
      some (if emptyAt h.flags (spot h.nBuckets (hash key).toNat k) then h.nBuckets
        else spot h.nBuckets (hash key).toNat k) := by
  induction fuel generalizing j with
  | zero => omega
  | succ fuel ih =>
      have inside := formed.spot_inside (hash key).toNat j
      rw [khGetLoop, formed.passes_eq key inside]
      by_cases here : j = k
      · subst here
        rw [stops, acIseither_eq (formed.flagged inside)]
        cases empty : emptyAt h.flags (spot h.nBuckets (hash key).toNat j) with
        | true => rfl
        | false =>
            have live := (slot_some (live_of_stop stops empty)).1
            simp only [liveAt, empty, Bool.not_false, Bool.true_and, Bool.not_eq_true'] at live
            simp [live]
      · have other := (formed.apart (s := (hash key).toNat) (Nat.succ_pos j) (by omega)).symm
        rw [passed j (by omega), formed.next]
        simp only [Option.bind_eq_bind, Option.bind_some, if_true, other, if_false]
        exact ih (by omega) (by omega)

end Stop

theorem khGet_spec (key : K) :
    (khGet h key hash = some h.nBuckets ∧ ∀ e ∈ entries h, e.1 ≠ key) ∨
      ∃ x < h.nBuckets, khGet h key hash = some x ∧ slot h x = some (key, h.vals[x]?.join) := by
  obtain ⟨k, within, stops, passed⟩ := formed.exists_stop key
  have four := formed.four
  have result := formed.khGetLoop_eq stops passed within (Nat.zero_le k)
    (show k - 0 < 2 * h.nBuckets by omega)
  have unfolded : khGet h key hash = khGetLoop h key (spot h.nBuckets (hash key).toNat 0)
      (2 * h.nBuckets) (spot h.nBuckets (hash key).toNat 0) 0 := by
    simp only [khGet, if_neg (by omega : h.nBuckets ≠ 0), formed.start]
  rw [← unfolded] at result
  cases empty : emptyAt h.flags (spot h.nBuckets (hash key).toNat k) with
  | true => exact .inl ⟨by simpa [empty] using result, formed.absent_of_empty passed empty⟩
  | false =>
      exact .inr ⟨_, formed.spot_inside _ k, by simpa [empty] using result, live_of_stop stops empty⟩

end Formed

variable {hash : K → BitVec 32} {h : Table K V}

theorem store_eq {α : Type} {array : List (Option α)} {i : Nat} (within : i < array.length)
    (a : Option α) : store array i a = some (array.set i a) := if_pos within

theorem entryAt_set {keys : List (Option K)} {vals : List (Option V)} {i : Nat}
    (of_keys : i < keys.length) (of_vals : i < vals.length) (key : K) (val : Option V) :
    entryAt (keys.set i (some key)) (vals.set i val) =
      Function.update (entryAt keys vals) i (some (key, val)) := by
  funext j
  by_cases here : j = i
  · subst here
    simp [entryAt, of_keys, of_vals]
  · simp [entryAt, Ne.symm here, here]

theorem length_entries_update (slots : Nat → Option (K × Option V)) {x n : Nat} (within : x < n)
    (entry : Option (K × Option V)) :
    (taken n (Function.update slots x entry)).length + (slots x).toList.length =
      (taken n slots).length + entry.toList.length := by
  have perm := (taken_update slots within entry).length_eq
  rwa [List.length_append, List.length_append] at perm

theorem liveAt_taken {flags flags' : Flags} {x : Nat}
    (empties : emptyAt flags' = Function.update (emptyAt flags) x false)
    (deletes : deletedAt flags' = Function.update (deletedAt flags) x false) :
    liveAt flags' = Function.update (liveAt flags) x true := by
  funext i
  rw [liveAt, empties, deletes]
  by_cases here : i = x <;> simp [liveAt, here]

namespace Formed

variable (formed : Formed hash h)

include formed

theorem insert {key : K} {x : Nat} (within : x < h.nBuckets) (free : liveAt h.flags x = false)
    (absent : ∀ e ∈ entries h, e.1 ≠ key) (reached : Reached hash h.nBuckets h.flags key x)
    {flags : Flags} (length : flags.length = h.flags.length)
    (empties : emptyAt flags = Function.update (emptyAt h.flags) x false)
    (deletes : deletedAt flags = Function.update (deletedAt h.flags) x false) {occupied : Nat}
    (counted : occupied = h.nOccupied + if emptyAt h.flags x then 1 else 0)
    (room : occupied ≤ h.upperBound) :
    let h' := { h with
      keys := h.keys.set x (some key), flags, size := h.size + 1, nOccupied := occupied }
    Formed hash h' ∧ slot h' = Function.update (slot h) x (some (key, h.vals[x]?.join)) := by
  intro h'
  have of_keys : x < h.keys.length := lt_of_lt_of_le within formed.keys
  have live := liveAt_taken empties deletes
  have slots : slot h' = Function.update (slot h) x (some (key, h.vals[x]?.join)) := by
    funext i
    by_cases here : i = x
    · subst here
      simp [slot, h', live, entryAt, of_keys]
    · simp [slot, h', live, entryAt, here, Ne.symm here]
  have vacant : slot h x = none := by simp [slot, free]
  have fewer (j : Nat) (full : emptyAt h.flags j = false) : emptyAt flags j = false := by
    rw [empties]
    by_cases here : j = x <;> simp [here, full]
  refine ⟨?_, slots⟩
  constructor
  case power => exact formed.power
  case flags => exact length.trans formed.flags
  case keys => simpa [h'] using formed.keys
  case vals => exact formed.vals
  case upper => exact formed.upper
  case room => exact room
  case written =>
    intro i inside live_i
    by_cases here : i = x
    · subst here
      exact ⟨key, by simp [h', of_keys]⟩
    · obtain ⟨other, own⟩ := formed.written i inside (by simpa [h', live, here] using live_i)
      exact ⟨other, by simpa [h', Ne.symm here] using own⟩
  case distinct =>
    have perm := taken_update (slot h) within (some (key, h.vals[x]?.join))
    rw [vacant, Option.toList_none, List.append_nil, ← slots] at perm
    have perm := perm.map Prod.fst
    rw [List.map_append] at perm
    refine perm.nodup_iff.mpr (List.nodup_append.mpr ⟨formed.distinct, by simp, ?_⟩)
    intro a among b new
    obtain ⟨e, member, rfl⟩ := List.mem_map.mp among
    obtain rfl : b = key := by simpa using new
    exact absent e member
  case reached =>
    intro i inside e at_i
    rw [slots] at at_i
    by_cases here : i = x
    · subst here
      obtain rfl : (key, h.vals[i]?.join) = e := by simpa using at_i
      exact reached.more fewer
    · rw [Function.update_of_ne here] at at_i
      exact (formed.reached i inside e at_i).more fewer
  case size =>
    have total := length_entries_update (slot h) within (some (key, h.vals[x]?.join))
    rw [vacant, ← slots] at total
    have size := formed.size
    simp only [entries, h'] at size total ⊢
    simpa [size] using total.symm
  case counted =>
    have occupied_eq : Khash.occupied flags = Function.update (Khash.occupied h.flags) x (some x) := by
      funext i
      by_cases here : i = x <;> simp [Khash.occupied, empties, here]
    have total := (taken_update (Khash.occupied h.flags) within (some x)).length_eq
    rw [← occupied_eq, List.length_append, List.length_append, ← formed.counted] at total
    simp only [h', counted]
    cases empty : emptyAt h.flags x <;> simp [Khash.occupied, empty] at total ⊢ <;> omega

theorem khDel_spec {x : Nat} (within : x < h.nBuckets) (live : liveAt h.flags x = true) :
    ∃ h', khDel h x = some h' ∧ Formed hash h' ∧ slot h' = Function.update (slot h) x none ∧
      h'.nBuckets = h.nBuckets := by
  have flagged := formed.flagged within
  obtain ⟨flags, changed, length, empties, deletes⟩ := acSetIsdelTrue_spec flagged
  have either : (emptyAt h.flags x || deletedAt h.flags x) = false := by
    cases empty : emptyAt h.flags x <;> cases deleted : deletedAt h.flags x <;> simp_all [liveAt]
  let h' : Table K V := { h with flags, size := h.size - 1 }
  have result : khDel h x = some h' := by
    rw [khDel, if_neg (by omega), acIseither_eq flagged, either, changed]
    rfl
  have slots : slot h' = Function.update (slot h) x none := by
    funext i
    by_cases here : i = x
    · subst here
      simp [slot, h', liveAt, deletes]
    · simp [slot, h', liveAt, empties, deletes, here]
  obtain ⟨key, own⟩ := formed.written x within live
  have taken_x := slot_of_key live own
  have perm := taken_update (slot h) within none
  rw [taken_x, ← slots, Option.toList_none, List.append_nil] at perm
  refine ⟨h', result, ?_, slots, rfl⟩
  constructor
  case power => exact formed.power
  case flags => exact length.trans formed.flags
  case keys => exact formed.keys
  case vals => exact formed.vals
  case upper => exact formed.upper
  case room => exact formed.room
  case written =>
    intro i inside live_i
    refine formed.written i inside ?_
    by_cases here : i = x
    · subst here
      exact live
    · simpa [h', liveAt, empties, deletes, here] using live_i
  case distinct =>
    have perm := perm.map Prod.fst
    rw [List.map_append] at perm
    exact (List.nodup_append.mp (perm.nodup_iff.mpr formed.distinct)).1
  case reached =>
    intro i inside e at_i
    rw [slots] at at_i
    by_cases here : i = x
    · simp [here] at at_i
    · rw [Function.update_of_ne here] at at_i
      exact (formed.reached i inside e at_i).more fun j full => by rw [empties]; exact full
  case size =>
    have size := formed.size
    have total := perm.length_eq
    simp only [entries, h', List.length_append, Option.toList_some, List.length_singleton] at size total ⊢
    omega
  case counted =>
    have same : occupied h'.flags = occupied h.flags := by
      funext i
      simp [occupied, h', empties]
    rw [same]
    exact formed.counted

theorem setVal {x : Nat} (within : x < h.nBuckets) {key : K} {old : Option V}
    (own : slot h x = some (key, old)) (val : V) :
    Formed hash { h with vals := h.vals.set x (some val) } ∧
      slot { h with vals := h.vals.set x (some val) } =
        Function.update (slot h) x (some (key, some val)) := by
  have of_vals : x < h.vals.length := lt_of_lt_of_le within formed.vals
  obtain ⟨live, at_key, at_val⟩ := slot_some own
  have slots : slot { h with vals := h.vals.set x (some val) } =
      Function.update (slot h) x (some (key, some val)) := by
    funext i
    by_cases here : i = x
    · subst here
      simp [slot, entryAt, live, at_key, of_vals]
    · simp [slot, entryAt, here, Ne.symm here]
  have perm := taken_update (slot h) within (some (key, some val))
  rw [own, ← slots] at perm
  refine ⟨?_, slots⟩
  constructor
  case power => exact formed.power
  case flags => exact formed.flags
  case keys => exact formed.keys
  case vals => simpa using formed.vals
  case upper => exact formed.upper
  case room => exact formed.room
  case written => exact formed.written
  case counted => exact formed.counted
  case distinct =>
    have perm := perm.map Prod.fst
    rw [List.map_append, List.map_append] at perm
    have same := (List.perm_append_right_iff _).mp perm
    exact same.nodup_iff.mpr formed.distinct
  case reached =>
    intro i inside e at_i
    rw [slots] at at_i
    by_cases here : i = x
    · subst here
      obtain rfl : (key, some val) = e := by simpa using at_i
      exact formed.reached i inside (key, old) own
    · rw [Function.update_of_ne here] at at_i
      exact formed.reached i inside e at_i
  case size =>
    have total := perm.length_eq
    rw [List.length_append, List.length_append] at total
    have size := formed.size
    simp only [entries] at size ⊢
    simpa [size] using total.symm

theorem khClear_spec : Formed hash (khClear h) ∧ entries (khClear h) = [] ∧
    (khClear h).nBuckets = h.nBuckets := by
  obtain ⟨e, two, power⟩ := formed.power
  have allocated : h.flags ≠ [] := by
    intro none
    have := formed.flagged (show 0 < h.nBuckets by have := formed.four; omega)
    simp [none] at this
  have cleared : khClear h = { h with flags := blankFlags h.nBuckets, size := 0, nOccupied := 0 } :=
    if_neg allocated
  rw [cleared]
  have empty (i : Nat) (inside : i < h.nBuckets) : emptyAt (blankFlags h.nBuckets) i = true :=
    emptyAt_blankFlags (acFsize_covers ⟨e, power⟩ inside)
  have vacant (i : Nat) (inside : i < h.nBuckets) :
      slot { h with flags := blankFlags h.nBuckets, size := 0, nOccupied := 0 } i = none := by
    simp [slot, liveAt, empty i inside]
  have none : entries { h with flags := blankFlags h.nBuckets, size := 0, nOccupied := 0 } = [] :=
    taken_eq_nil vacant
  refine ⟨?_, none, rfl⟩
  constructor
  case power => exact ⟨e, two, power⟩
  case flags => exact length_blankFlags _
  case keys => exact formed.keys
  case vals => exact formed.vals
  case upper => exact formed.upper
  case room => exact Nat.zero_le _
  case written =>
    intro i inside live
    simp [liveAt, empty i inside] at live
  case distinct => simp [none]
  case reached =>
    intro i inside e at_i
    rw [vacant i inside] at at_i
    cases at_i
  case size => simp [none]
  case counted =>
    have free : taken h.nBuckets (occupied (blankFlags h.nBuckets)) = [] :=
      taken_eq_nil fun i inside => by simp [occupied, empty i inside]
    simp [free]

variable [DecidableEq K]

theorem khPutLoop_spec {key : K} {k : Nat} (within : k < h.nBuckets)
    (stops : passAt h key (spot h.nBuckets (hash key).toNat k) = false)
    (passed : ∀ j < k, passAt h key (spot h.nBuckets (hash key).toNat j) = true)
    {fuel j : Nat} (before : j ≤ k) (enough : k - j < fuel) (site : Nat) :
    ∃ site', khPutLoop h key (spot h.nBuckets (hash key).toNat 0) fuel
        (spot h.nBuckets (hash key).toNat j) j site =
        some (h.nBuckets, spot h.nBuckets (hash key).toNat k, site') ∧
      (site' = site ∨ ∃ j' < k, site' = spot h.nBuckets (hash key).toNat j' ∧
        deletedAt h.flags site' = true) := by
  induction fuel generalizing j site with
  | zero => omega
  | succ fuel ih =>
      have inside := formed.spot_inside (hash key).toNat j
      rw [khPutLoop, formed.passes_eq key inside]
      by_cases here : j = k
      · subst here
        exact ⟨site, by rw [stops]; rfl, .inl rfl⟩
      · have other := (formed.apart (s := (hash key).toNat) (Nat.succ_pos j) (by omega)).symm
        rw [passed j (by omega), acIsdel_eq (formed.flagged inside), formed.next]
        simp only [Option.bind_eq_bind, Option.bind_some, if_true, other, if_false]
        obtain ⟨site', result, from_where⟩ := ih (j := j + 1) (by omega) (by omega)
          (if deletedAt h.flags (spot h.nBuckets (hash key).toNat j) then
            spot h.nBuckets (hash key).toNat j else site)
        refine ⟨site', result, ?_⟩
        rcases from_where with rfl | later
        · cases deleted : deletedAt h.flags (spot h.nBuckets (hash key).toNat j) with
          | true => exact .inr ⟨j, by omega, by simp, by simpa using deleted⟩
          | false => exact .inl (by simp)
        · exact .inr later

theorem khPutSite_spec (key : K) :
    ∃ x < h.nBuckets, khPutSite h key hash = some x ∧
      (slot h x = some (key, h.vals[x]?.join) ∨
        liveAt h.flags x = false ∧ (∀ e ∈ entries h, e.1 ≠ key) ∧
          Reached hash h.nBuckets h.flags key x) := by
  obtain ⟨k, within, stops, passed⟩ := formed.exists_stop key
  have four := formed.four
  have full (j : Nat) (before : j < k) :
      emptyAt h.flags (spot h.nBuckets (hash key).toNat j) = false := by
    have goes := passed j before
    simp only [passAt, Bool.and_eq_true, Bool.not_eq_true'] at goes
    exact goes.1
  have first := formed.spot_inside (hash key).toNat 0
  have last := formed.spot_inside (hash key).toNat k
  simp only [khPutSite, formed.start]
  rw [acIsempty_eq (formed.flagged first)]
  cases at_once : emptyAt h.flags (spot h.nBuckets (hash key).toNat 0) with
  | true =>
      obtain rfl : k = 0 := by
        by_contra later
        rw [full 0 (by omega)] at at_once
        cases at_once
      exact ⟨_, first, rfl,
        .inr ⟨by rw [liveAt, at_once]; rfl, formed.absent_of_empty passed at_once,
        0, within, rfl, fun j before => by omega⟩⟩
  | false =>
      obtain ⟨site, result, from_where⟩ := formed.khPutLoop_spec within stops passed
        (Nat.zero_le k) (show k - 0 < 2 * h.nBuckets by omega) h.nBuckets
      simp only [Option.bind_eq_bind, Option.bind_some, if_false, result, Bool.false_eq_true, if_true]
      rw [acIsempty_eq (formed.flagged last)]
      cases empty : emptyAt h.flags (spot h.nBuckets (hash key).toNat k) with
      | false =>
          exact ⟨_, last, by simp, .inl (live_of_stop stops empty)⟩
      | true =>
          have absent := formed.absent_of_empty passed empty
          rcases from_where with rfl | ⟨j, before, rfl, deleted⟩
          · exact ⟨_, last, by simp, .inr ⟨by simp [liveAt, empty], absent, k, within, rfl, full⟩⟩
          · have inside := formed.spot_inside (hash key).toNat j
            refine ⟨_, inside, ?_, .inr ⟨by simp [liveAt, deleted], absent, j, by omega, rfl,
              fun j' early => full j' (by omega)⟩⟩
            simp [Nat.ne_of_lt inside]

/-- `kh_put` in a table with room finds the key or gives it a bucket, whose value is not set. -/
theorem khPutRoomy_spec (key : K) (room : h.nOccupied < h.upperBound) :
    ∃ h' x ret, khPutRoomy hash h key = some (h', x, ret) ∧ x < h.nBuckets ∧
      (ret = 0 ∧ h' = h ∧ slot h x = some (key, h.vals[x]?.join) ∨
        (ret = 1 ∨ ret = 2) ∧ (∀ e ∈ entries h, e.1 ≠ key) ∧ Formed hash h' ∧
          h'.nBuckets = h.nBuckets ∧ slot h x = none ∧
          slot h' = Function.update (slot h) x (some (key, h.vals[x]?.join))) := by
  obtain ⟨x, within, found, own | ⟨free, absent, reached⟩⟩ := formed.khPutSite_spec key
  · have live := (slot_some own).1
    simp only [liveAt, Bool.and_eq_true, Bool.not_eq_true'] at live
    refine ⟨h, x, 0, ?_, within, .inl ⟨rfl, rfl, own⟩⟩
    have flagged := formed.flagged within
    simp [khPutRoomy, found, acIsempty_eq flagged, acIsdel_eq flagged, live]
  · have flagged := formed.flagged within
    have of_keys : x < h.keys.length := lt_of_lt_of_le within formed.keys
    have vacant : slot h x = none := by simp [slot, free]
    obtain ⟨flags, changed, length, empties, deletes⟩ := acSetIsbothFalse_spec flagged
    cases empty : emptyAt h.flags x with
    | true =>
        obtain ⟨formed', slots⟩ := formed.insert within free absent reached length empties deletes
          (by simp [empty]) room
        refine ⟨_, x, 1, ?_, within, .inr ⟨.inl rfl, absent, formed', rfl, vacant, slots⟩⟩
        simp [khPutRoomy, found, acIsempty_eq flagged, empty, store_eq of_keys, changed]
    | false =>
        have deleted : deletedAt h.flags x = true := by simpa [liveAt, empty] using free
        obtain ⟨formed', slots⟩ := formed.insert within free absent reached length empties deletes
          (by simp [empty]) formed.room
        refine ⟨_, x, 2, ?_, within, .inr ⟨.inr rfl, absent, formed', rfl, vacant, slots⟩⟩
        simp [khPutRoomy, found, acIsempty_eq flagged, acIsdel_eq flagged, empty, deleted,
          store_eq of_keys, changed]

end Formed

end Yafsml.Khash
