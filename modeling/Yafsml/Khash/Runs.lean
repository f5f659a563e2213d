import Yafsml.Foundation.FiniteMap
import Yafsml.Khash.Resize
import Yafsml.Text.Wide

/-! # Runs over a table

Any calls on a table answer as a finite map does, whatever the allocator answers to the resizes. -/

namespace Yafsml.Khash

open Slots

variable {K V : Type} {hash : K → BitVec 32} {h : Table K V}

/-- A table without buckets. A resize that failed may have left it arrays. -/
structure Blank (h : Table K V) : Prop where
  nBuckets : h.nBuckets = 0
  size : h.size = 0
  nOccupied : h.nOccupied = 0
  upperBound : h.upperBound = 0
  flags : h.flags = []

theorem Blank.entries_eq (blank : Blank h) : entries h = [] := by
  rw [entries, blank.nBuckets]
  rfl

theorem Blank.sound (blank : Blank h) : Sound h := by
  constructor
  case flags => exact fun i within => absurd within (by simp [blank.nBuckets])
  case keys => simp [blank.nBuckets]
  case vals => simp [blank.nBuckets]
  case written => exact fun i within => absurd within (by simp [blank.nBuckets])
  case distinct => simp [blank.entries_eq]
  case size => simp [blank.entries_eq, blank.size]

structure Valid (hash : K → BitVec 32) (h : Table K V) : Prop where
  bound : h.nBuckets ≤ 2 ^ 30
  shape : Blank h ∨ Formed hash h

theorem Valid.sound (valid : Valid hash h) : Sound h :=
  valid.shape.elim Blank.sound Formed.sound

theorem valid_khInit : Valid hash (khInit : Table K V) :=
  ⟨Nat.zero_le _, .inl ⟨rfl, rfl, rfl, rfl, rfl⟩⟩

theorem Valid.congr (valid : Valid hash h) (keys : List (Option K)) (enough : h.nBuckets ≤ keys.length)
    (of_keys : ∀ i < h.nBuckets, keys[i]?.join = h.keys[i]?.join) :
    Valid hash { h with keys } ∧ entries { h with keys } = entries h := by
  obtain ⟨sound, same⟩ := valid.sound.move keys h.vals enough valid.sound.vals of_keys fun _ _ => rfl
  refine ⟨⟨valid.bound, ?_⟩, same⟩
  rcases valid.shape with blank | formed
  · exact .inl ⟨blank.nBuckets, blank.size, blank.nOccupied, blank.upperBound, blank.flags⟩
  · refine .inr ⟨formed.power, formed.flags, enough, formed.vals, sound.written, sound.distinct, ?_,
      sound.size, formed.counted, formed.upper, formed.room⟩
    intro i within e at_i
    exact formed.reached i within e (by rwa [← slot_rearranged (of_keys i within) rfl])

/-! ## The size of a resize -/

theorem kroundup32_pred {e : Nat} (two : 2 ≤ e) (small : e ≤ 30) : kroundup32 (2 ^ e - 1) = 2 ^ e := by
  interval_cases e <;> rfl

theorem kroundup32_succ {e : Nat} (two : 2 ≤ e) (small : e ≤ 30) :
    kroundup32 (2 ^ e + 1) = 2 ^ (e + 1) := by
  interval_cases e <;> rfl

def rounded (n : Nat) : Nat := if kroundup32 n < 4 then 4 else kroundup32 n

theorem Valid.rounded_wanted (valid : Valid hash h) (few : h.size < 2 ^ 29) :
    ∃ e, 2 ≤ e ∧ rounded (wanted h) = 2 ^ e ∧ h.nBuckets ≤ 2 ^ e ∧ 2 ^ e ≤ 2 ^ 30 ∧
      h.size < hashUpper (2 ^ e) := by
  have double : h.size <<< 1 % 2 ^ 32 = 2 * h.size := by
    rw [Nat.shiftLeft_eq]
    omega
  rcases valid.shape with blank | formed
  · refine ⟨2, le_rfl, ?_, by simp [blank.nBuckets], by decide, by simp [blank.size, hashUpper]⟩
    rw [wanted, double, blank.size, blank.nBuckets]
    rfl
  · obtain ⟨e, two, power⟩ := formed.power
    have bound := valid.bound
    have four := formed.four
    have small : e ≤ 30 := by
      by_contra large
      have := Nat.pow_lt_pow_right (a := 2) (by decide) (show 30 < e by omega)
      omega
    rw [wanted, double]
    split_ifs with sparse
    · refine ⟨e, two, ?_, by rw [power], by rw [← power]; exact bound, ?_⟩
      · rw [rounded, power, kroundup32_pred two small, ← power, if_neg (by omega)]
      · rw [← power, hashUpper]
        omega
    · have smaller : e ≤ 29 := by
        by_contra large
        obtain rfl : e = 30 := by omega
        omega
      have at_most := length_taken_le h.nBuckets (slot h)
      have size := formed.size
      rw [entries] at size
      refine ⟨e + 1, by omega, ?_, ?_, Nat.pow_le_pow_right (by decide) (by omega), ?_⟩
      · rw [Nat.mod_eq_of_lt (by omega), rounded, power, kroundup32_succ two small, pow_succ, ← power,
          if_neg (by omega)]
      · rw [pow_succ, ← power]
        omega
      · rw [pow_succ, ← power, hashUpper]
        omega

theorem Valid.khResize_spec (valid : Valid hash h) (allocs : Allocs) {n e : Nat} (two : 2 ≤ e)
    (power : rounded n = 2 ^ e) (grows : h.nBuckets ≤ 2 ^ e) (bound : 2 ^ e ≤ 2 ^ 30)
    (fits : h.size < hashUpper (2 ^ e)) :
    ∃ h' code, khResize hash allocs h n = some (h', code) ∧
      (code = 0 ∧ Valid hash h' ∧ Formed hash h' ∧ (entries h').Perm (entries h) ∧
          h'.nOccupied < h'.upperBound ∨
        code = -1 ∧ allocs ≠ .succeed ∧ Valid hash h' ∧ entries h' = entries h) := by
  have sound := valid.sound
  rw [rounded] at power
  simp only [khResize, power, Nat.not_le.mpr fits, if_false]
  have refused (answer : Bool) (ok : allocs = .succeed → answer = true) (no : answer = false) :
      allocs ≠ .succeed := by
    intro all
    rw [ok all] at no
    cases no
  cases flags : allocs.newFlags with
  | false =>
      exact ⟨h, -1, by simp, .inr ⟨rfl, refused _ (by rintro rfl; rfl) flags, valid, rfl⟩⟩
  | true =>
    simp only [Bool.not_true, Bool.false_eq_true, if_false]
    split_ifs with more no_keys no_vals
    · exact ⟨h, -1, rfl, .inr ⟨rfl, refused allocs.keys (by rintro rfl; rfl) (by simpa using no_keys),
        valid, rfl⟩⟩
    · obtain ⟨valid', same⟩ := valid.congr (krealloc h.keys (2 ^ e))
        (by rw [length_krealloc]; exact grows)
        fun i within => join_krealloc _ (lt_of_lt_of_le within grows)
      exact ⟨_, -1, rfl, .inr ⟨rfl, refused allocs.vals (by rintro rfl; rfl) (by simpa using no_vals),
        valid', same⟩⟩
    · obtain ⟨sound', same⟩ := sound.move (krealloc h.keys (2 ^ e)) (krealloc h.vals (2 ^ e))
        (by rw [length_krealloc]; exact grows)
        (by rw [length_krealloc]; exact grows)
        (fun i within => join_krealloc _ (lt_of_lt_of_le within grows))
        fun i within => join_krealloc _ (lt_of_lt_of_le within grows)
      obtain ⟨h', result, formed, perm, buckets, count, upper, _⟩ := sound'.rehash_spec
        hash allocs two rfl (length_krealloc ..).ge (length_krealloc ..).ge fits grows
      refine ⟨h', 0, by rw [result]; rfl, .inl ⟨rfl, ⟨by rw [buckets]; exact bound, .inr formed⟩, formed,
        perm.trans (by rw [same]), ?_⟩⟩
      rw [count, upper]
      exact fits
    · have equal : h.nBuckets = 2 ^ e := by omega
      obtain ⟨h', result, formed, perm, buckets, count, upper, _⟩ := sound.rehash_spec
        hash allocs two rfl (equal ▸ sound.keys) (equal ▸ sound.vals) fits grows
      refine ⟨h', 0, by rw [result]; rfl, .inl ⟨rfl, ⟨by rw [buckets]; exact bound, .inr formed⟩, formed,
        perm, ?_⟩⟩
      rw [count, upper]
      exact fits

section Put

variable [DecidableEq K]

theorem Valid.khPut_spec (valid : Valid hash h) (few : h.size < 2 ^ 29) (allocs : Allocs) (key : K) :
    ∃ h' x ret, khPut hash allocs h key = some (h', x, ret) ∧ Valid hash h' ∧
      (ret = -1 ∧ allocs ≠ .succeed ∧ entries h' = entries h ∨
        Formed hash h' ∧ x < h'.nBuckets ∧
          (ret = 0 ∧ slot h' x = some (key, h'.vals[x]?.join) ∧ (entries h').Perm (entries h) ∨
            (ret = 1 ∨ ret = 2) ∧ (∀ e ∈ entries h, e.1 ≠ key) ∧
              ∃ val, slot h' x = some (key, val) ∧ (entries h').Perm ((key, val) :: entries h))) := by
  -- the table after the resize, if there is one
  have roomy {h₁ : Table K V} (valid₁ : Valid hash h₁) (formed : Formed hash h₁)
      (perm : (entries h₁).Perm (entries h)) (room : h₁.nOccupied < h₁.upperBound) :
      ∃ h' x ret, khPutRoomy hash h₁ key = some (h', x, ret) ∧ Valid hash h' ∧
        Formed hash h' ∧ x < h'.nBuckets ∧
          (ret = 0 ∧ slot h' x = some (key, h'.vals[x]?.join) ∧ (entries h').Perm (entries h) ∨
            (ret = 1 ∨ ret = 2) ∧ (∀ e ∈ entries h, e.1 ≠ key) ∧
              ∃ val, slot h' x = some (key, val) ∧ (entries h').Perm ((key, val) :: entries h)) := by
    obtain ⟨h', x, ret, result, within, ⟨rfl, rfl, own⟩ | ⟨ret_eq, absent, formed', buckets, vacant, slots⟩⟩ :=
      formed.khPutRoomy_spec key room
    · exact ⟨h', x, 0, result, valid₁, formed, within, .inl ⟨rfl, own, perm⟩⟩
    · refine ⟨h', x, ret, result, ⟨by rw [buckets]; exact valid₁.bound, .inr formed'⟩, formed',
        by rwa [buckets], .inr ⟨ret_eq, fun e among => absent e (perm.mem_iff.mpr among),
          h₁.vals[x]?.join, by rw [slots, Function.update_self], ?_⟩⟩
      have update := taken_update (slot h₁) within (some (key, h₁.vals[x]?.join))
      rw [vacant, ← slots, Option.toList_none, List.append_nil, ← buckets] at update
      rw [buckets] at update
      have update : (entries h').Perm (entries h₁ ++ [(key, h₁.vals[x]?.join)]) := by
        rw [entries, buckets]
        exact update
      exact update.trans ((List.perm_append_singleton ..).trans (perm.cons _))
  by_cases full : h.upperBound ≤ h.nOccupied
  · rw [khPut, if_pos full]
    obtain ⟨e, two, power, grows, bound, fits⟩ := valid.rounded_wanted few
    obtain ⟨h₁, code, result, ⟨rfl, valid₁, formed, perm, room⟩ | ⟨rfl, refused, valid₁, same⟩⟩ :=
      valid.khResize_spec allocs two power grows bound fits
    · obtain ⟨h', x, ret, put, valid', rest⟩ := roomy valid₁ formed perm room
      refine ⟨h', x, ret, ?_, valid', .inr rest⟩
      rw [result]
      simpa using put
    · refine ⟨h₁, h₁.nBuckets, -1, ?_, valid₁, .inl ⟨rfl, refused, same⟩⟩
      rw [result]
      rfl
  · rw [khPut, if_neg full]
    have room : h.nOccupied < h.upperBound := Nat.lt_of_not_le full
    rcases valid.shape with blank | formed
    · have := blank.upperBound
      omega
    · obtain ⟨h', x, ret, put, valid', rest⟩ := roomy valid formed (List.Perm.refl _) room
      exact ⟨h', x, ret, put, valid', .inr rest⟩

/-! ## The calls -/

/-- A call, and for `kh_put` what the caller makes of the value it finds: a value to assign, or none
when it gives the bucket back. -/
inductive Op (K V : Type) where
  | get (key : K)
  | put (key : K) (choose : Option V → Option V) (allocs : Allocs)
  | del (key : K)
  | clear
  | list

inductive Answer (K V : Type) where
  | got (val : Option V)
  | put (ret : Int) (val : Option V)
  | listed (all : List (K × V))
  | done
  deriving DecidableEq, Repr

/-- The loop from `kh_begin` to `kh_end`. -/
def khList (h : Table K V) : Option (List (K × V)) :=
  (List.range h.nBuckets).foldlM (fun all x => do
    if ← khExist h x then
      let key ← h.keys[x]?.join
      let val ← h.vals[x]?.join
      return all ++ [(key, val)]
    else return all) []

/-- The value that the caller of `kh_put` may read. -/
def valueFound (h : Table K V) (x : Nat) (ret : Int) : Option (Option V) :=
  if ret = 0 then h.vals[x]?.join.map some else some none

def step (hash : K → BitVec 32) (h : Table K V) : Op K V → Option (Table K V × Answer K V)
  | .get key => do
      let x ← khGet h key hash
      if x = h.nBuckets then return (h, .got none)
      else
        let val ← h.vals[x]?.join
        return (h, .got (some val))
  | .put key choose allocs => do
      let (h, x, ret) ← khPut hash allocs h key
      if ret < 0 then return (h, .put ret none)
      else
        let val ← valueFound h x ret
        if let some new := choose val then
          let vals ← store h.vals x (some new)
          return ({ h with vals }, .put ret val)
        else
          let h ← khDel h x
          return (h, .put ret val)
  | .del key => do
      let x ← khGet h key hash
      let h ← khDel h x
      return (h, .done)
  | .clear => some (khClear h, .done)
  | .list => do
      let all ← khList h
      return (h, .listed all)

def run (hash : K → BitVec 32) : List (Op K V) → Table K V → Option (Table K V × List (Answer K V))
  | [], h => some (h, [])
  | op :: ops, h => do
      let (h, answer) ← step hash h op
      let (h, answers) ← run hash ops h
      return (h, answer :: answers)

/-! ## The finite map -/

abbrev Model (K V : Type) := AList fun _ : K => V

/-- What a finite map answers to a call. A `kh_put` may fail if a request of its resize is refused. -/
def Agrees (map : Model K V) : Op K V → Answer K V → Model K V → Prop
  | .get key, .got val, map' => val = map.lookup key ∧ map' = map
  | .put key choose allocs, .put ret val, map' =>
      ret = -1 ∧ val = none ∧ allocs ≠ .succeed ∧ map' = map ∨
        (ret = 0 ∧ (map.lookup key).isSome ∨ (ret = 1 ∨ ret = 2) ∧ map.lookup key = none) ∧
          val = map.lookup key ∧
          map' = (choose val).elim (map.erase key) fun new => map.insert key new
  | .del key, .done, map' => map' = map.erase key
  | .clear, .done, map' => map' = ∅
  | .list, .listed all, map' => all.Perm (map.entries.map fun e => (e.1, e.2)) ∧ map' = map
  | _, _, _ => False

def Follows : Model K V → List (Op K V) → List (Answer K V) → Model K V → Prop
  | map, [], [], map' => map' = map
  | map, op :: ops, answer :: answers, map' =>
      ∃ between, Agrees map op answer between ∧ Follows between ops answers map'
  | _, _, _, _ => False

def stored (map : Model K V) : List (K × Option V) := map.entries.map fun e => (e.1, some e.2)

structure Represents (hash : K → BitVec 32) (h : Table K V) (map : Model K V) : Prop where
  valid : Valid hash h
  holds : (entries h).Perm (stored map)

omit [DecidableEq K] in
theorem represents_khInit : Represents hash khInit (∅ : Model K V) := ⟨valid_khInit, .refl _⟩

namespace Represents

variable {map : Model K V} (represents : Represents hash h map)

include represents

theorem lookup_iff {key : K} {val : V} :
    (key, some val) ∈ entries h ↔ map.lookup key = some val := by
  rw [represents.holds.mem_iff, stored, List.mem_map]
  constructor
  · rintro ⟨⟨key', val'⟩, among, same⟩
    obtain ⟨rfl, rfl⟩ : key' = key ∧ val' = val := by simpa using same
    exact AList.mem_lookup_iff.mpr among
  · intro found
    exact ⟨⟨key, val⟩, AList.mem_lookup_iff.mp found, rfl⟩

omit [DecidableEq K] in
theorem assigned {e : K × Option V} (among : e ∈ entries h) : ∃ val, e = (e.1, some val) := by
  obtain ⟨entry, _, rfl⟩ := List.mem_map.mp (represents.holds.mem_iff.mp among)
  exact ⟨entry.2, rfl⟩

theorem lookup_none (key : K) (absent : ∀ e ∈ entries h, e.1 ≠ key) : map.lookup key = none := by
  apply Option.eq_none_iff_forall_ne_some.mpr
  intro val found
  exact absent _ (represents.lookup_iff.mpr found) rfl

theorem lookup_slot {key : K} {x : Nat} {val : Option V} (within : x < h.nBuckets)
    (own : slot h x = some (key, val)) : ∃ old, val = some old ∧ map.lookup key = some old := by
  have among : (key, val) ∈ entries h := mem_taken.mpr ⟨x, within, own⟩
  obtain ⟨old, same⟩ := represents.assigned among
  obtain rfl : val = some old := congrArg Prod.snd same
  exact ⟨old, rfl, represents.lookup_iff.mp among⟩

omit [DecidableEq K] in
theorem size_eq : h.size = map.entries.length := by
  rw [represents.valid.sound.size, represents.holds.length_eq, stored, List.length_map]

end Represents

theorem finish {x : Nat} {key : K} {val : Option V} {map : Model K V} (valid : Valid hash h)
    (formed : Formed hash h) (within : x < h.nBuckets) (own : slot h x = some (key, val))
    (rest : (entries h).Perm ((key, val) :: stored (map.erase key))) :
    (∃ h', khDel h x = some h' ∧ Represents hash h' (map.erase key)) ∧
      ∀ new, store h.vals x (some new) = some (h.vals.set x (some new)) ∧
        Represents hash { h with vals := h.vals.set x (some new) } (map.insert key new) := by
  constructor
  · obtain ⟨h', result, formed', slots, buckets⟩ := formed.khDel_spec within (slot_some own).1
    refine ⟨h', result, ⟨by rw [buckets]; exact valid.bound, .inr formed'⟩, ?_⟩
    have update := taken_update (slot h) within none
    rw [own, ← slots, Option.toList_none, List.append_nil] at update
    have update : (entries h' ++ [(key, val)]).Perm (entries h) := by
      rw [entries, buckets]
      exact update
    exact List.Perm.cons_inv (((List.perm_append_singleton ..).symm.trans update).trans rest)
  · intro new
    obtain ⟨formed', slots⟩ := formed.setVal within own new
    refine ⟨store_eq (lt_of_lt_of_le within formed.vals) _, ⟨valid.bound, .inr formed'⟩, ?_⟩
    have update := taken_update (slot h) within (some (key, some new))
    rw [own, ← slots] at update
    change (entries { h with vals := h.vals.set x (some new) } ++ [(key, val)]).Perm
      (entries h ++ [(key, some new)]) at update
    have rest' := update.trans (rest.append_right [(key, some new)])
    have swapped := (List.perm_append_singleton ..).symm.trans rest'
    have inserted : stored (map.insert key new) = (key, some new) :: stored (map.erase key) := by
      rw [stored, AList.entries_insert]
      rfl
    rw [inserted]
    exact (List.Perm.cons_inv swapped).trans (List.perm_append_singleton ..)

namespace Represents

variable {map : Model K V} (represents : Represents hash h map)

include represents

theorem khGet_spec (key : K) :
    (khGet h key hash = some h.nBuckets ∧ map.lookup key = none) ∨
      ∃ x < h.nBuckets, ∃ val, khGet h key hash = some x ∧ map.lookup key = some val ∧
        h.vals[x]?.join = some val ∧ slot h x = some (key, some val) ∧ Formed hash h := by
  rcases represents.valid.shape with blank | formed
  · refine .inl ⟨by simp [khGet, blank.nBuckets], represents.lookup_none key ?_⟩
    simp [blank.entries_eq]
  · rcases formed.khGet_spec key with ⟨missing, absent⟩ | ⟨x, within, found, own⟩
    · exact .inl ⟨missing, represents.lookup_none key absent⟩
    · obtain ⟨val, assigned, present⟩ := represents.lookup_slot within own
      exact .inr ⟨x, within, val, found, present, assigned, by rw [own, assigned], formed⟩

theorem rest_of_present {key : K} {val : V} (present : map.lookup key = some val) :
    (entries h).Perm ((key, some val) :: stored (map.erase key)) :=
  represents.holds.trans ((FiniteMap.entries_perm_erase present).map _)

theorem rest_of_absent {key : K} (absent : map.lookup key = none) :
    (entries h).Perm (stored (map.erase key)) := by
  rw [stored, FiniteMap.erase_entries_of_none absent]
  exact represents.holds

theorem khList_spec : ∃ all, khList h = some all ∧ all.Perm (map.entries.map fun e => (e.1, e.2)) := by
  have flagged (x : Nat) (within : x < h.nBuckets) := represents.valid.sound.flags x within
  have walk {m : Nat} (le : m ≤ h.nBuckets) : ∃ all,
      (List.range m).foldlM (fun all x => do
        if ← khExist h x then
          let key ← h.keys[x]?.join
          let val ← h.vals[x]?.join
          return all ++ [(key, val)]
        else return all) [] = some all ∧
      all.map (fun e => (e.1, some e.2)) = taken m (slot h) := by
    induction m with
    | zero => exact ⟨[], rfl, rfl⟩
    | succ m ih =>
        obtain ⟨all, result, same⟩ := ih (by omega)
        have either : (emptyAt h.flags m || deletedAt h.flags m) = !liveAt h.flags m := by
          simp [liveAt]
        rw [List.range_succ, List.foldlM_append, result, taken_succ, ← same]
        simp only [Option.bind_eq_bind, Option.bind_some, List.foldlM_cons, List.foldlM_nil, khExist,
          acIseither_eq (flagged m (by omega)), either, Option.map_some, Bool.not_not]
        cases live : liveAt h.flags m with
        | false => exact ⟨all, rfl, by simp [slot, live]⟩
        | true =>
            obtain ⟨key, own⟩ := represents.valid.sound.written m (by omega) live
            obtain ⟨val, assigned, _⟩ := represents.lookup_slot (by omega) (slot_of_key live own)
            refine ⟨all ++ [(key, val)], by simp [own, assigned], ?_⟩
            rw [slot_of_key live own, assigned]
            simp
  obtain ⟨all, result, same⟩ := walk (Nat.le_refl _)
  refine ⟨all, result, ?_⟩
  have perm : (all.map fun e => (e.1, some e.2)).Perm (stored map) := by
    rw [same]
    exact represents.holds
  have back := perm.filterMap fun e : K × Option V => e.2.map fun val => (e.1, val)
  simpa [stored, List.filterMap_map, Function.comp_def] using back

/-- One call answers as the map does, and what it leaves represents what the map becomes. -/
theorem step_spec (few : h.size < 2 ^ 29) (op : Op K V) :
    ∃ h' answer map', step hash h op = some (h', answer) ∧ Agrees map op answer map' ∧
      Represents hash h' map' := by
  cases op with
  | get key =>
      rcases represents.khGet_spec key with ⟨missing, absent⟩ |
        ⟨x, within, val, found, present, assigned, _, _⟩
      · exact ⟨h, .got none, map, by simp [step, missing], ⟨absent.symm, rfl⟩, represents⟩
      · exact ⟨h, .got (some val), map, by simp [step, found, Nat.ne_of_lt within, assigned],
          ⟨present.symm, rfl⟩, represents⟩
  | put key choose allocs =>
      obtain ⟨h₁, x, ret, result, valid, ⟨rfl, refused, same⟩ | ⟨formed, within, which⟩⟩ :=
        represents.valid.khPut_spec few allocs key
      · exact ⟨h₁, .put (-1) none, map, by simp [step, result], .inl ⟨rfl, rfl, refused, rfl⟩, valid,
          by rw [same]; exact represents.holds⟩
      · -- the value that the caller finds, and the entries of the other keys
        obtain ⟨val, found, old, code, read, own, rest⟩ : ∃ val found, found = map.lookup key ∧
            (ret = 0 ∧ (map.lookup key).isSome ∨ (ret = 1 ∨ ret = 2) ∧ map.lookup key = none) ∧
            valueFound h₁ x ret = some found ∧
            slot h₁ x = some (key, val) ∧
            (entries h₁).Perm ((key, val) :: stored (map.erase key)) := by
          rcases which with ⟨rfl, own, perm⟩ | ⟨fresh, absent, val, own, perm⟩
          · have before : Represents hash h₁ map := ⟨valid, perm.trans represents.holds⟩
            obtain ⟨old, assigned, present⟩ := before.lookup_slot within own
            refine ⟨_, some old, present.symm, .inl ⟨rfl, by simp [present]⟩,
              by simp [valueFound, assigned], own, ?_⟩
            rw [assigned]
            exact before.rest_of_present present
          · have missing := represents.lookup_none key absent
            refine ⟨val, none, missing.symm, .inr ⟨fresh, missing⟩, ?_, own,
              perm.trans ((represents.rest_of_absent missing).cons _)⟩
            rcases fresh with rfl | rfl <;> rfl
        have positive : ¬ ret < 0 := by omega
        obtain ⟨⟨h', deleted, after⟩, assign⟩ := finish valid formed within own rest
        cases chosen : choose found with
        | none =>
            refine ⟨h', .put ret found, map.erase key, ?_, .inr ⟨code, old, ?_⟩, after⟩
            · simp only [step, result, Option.bind_eq_bind, Option.bind_some, positive, if_false, read, chosen,
                deleted]
              rfl
            · rw [chosen]
              rfl
        | some new =>
            obtain ⟨stores, after⟩ := assign new
            refine ⟨_, .put ret found, map.insert key new, ?_, .inr ⟨code, old, ?_⟩, after⟩
            · simp only [step, result, Option.bind_eq_bind, Option.bind_some, positive, if_false, read, chosen,
                stores]
              rfl
            · rw [chosen]
              rfl
  | del key =>
      rcases represents.khGet_spec key with ⟨missing, absent⟩ |
        ⟨x, within, val, found, present, _, own, formed⟩
      · refine ⟨h, .done, map.erase key, by simp [step, missing, khDel], rfl, represents.valid, ?_⟩
        exact represents.rest_of_absent absent
      · obtain ⟨⟨h', deleted, after⟩, _⟩ :=
          finish represents.valid formed within own (represents.rest_of_present present)
        exact ⟨h', .done, map.erase key, by simp [step, found, deleted], rfl, after⟩
  | clear =>
      refine ⟨khClear h, .done, ∅, rfl, rfl, ?_⟩
      rcases represents.valid.shape with blank | formed
      · rw [khClear, if_pos blank.flags]
        exact ⟨represents.valid, by rw [blank.entries_eq]; exact .refl _⟩
      · obtain ⟨formed', none, buckets⟩ := formed.khClear_spec
        exact ⟨⟨by rw [buckets]; exact represents.valid.bound, .inr formed'⟩, by rw [none]; exact .refl _⟩
  | list =>
      obtain ⟨all, result, perm⟩ := represents.khList_spec
      exact ⟨h, .listed all, map, by simp [step, result], ⟨perm, rfl⟩, represents⟩

end Represents

/-! ## Runs -/

def Op.isPut : Op K V → Bool
  | .put .. => true
  | _ => false

theorem length_agrees {map map' : Model K V} {op : Op K V} {answer : Answer K V}
    (agrees : Agrees map op answer map') :
    map'.entries.length ≤ map.entries.length + if op.isPut then 1 else 0 := by
  have fewer (key : K) : (map.erase key).entries.length ≤ map.entries.length :=
    (List.kerase_sublist key map.entries).length_le
  cases op with
  | get key =>
      cases answer <;> simp only [Agrees] at agrees
      rw [agrees.2]
      exact Nat.le_add_right ..
  | put key choose allocs =>
      cases answer <;> simp only [Agrees] at agrees
      rename_i ret val
      rcases agrees with ⟨_, _, _, rfl⟩ | ⟨_, _, rfl⟩
      · exact Nat.le_add_right ..
      · have less := fewer key
        cases chosen : choose val with
        | none => exact le_trans less (Nat.le_add_right ..)
        | some new =>
            have inserted : (map.insert key new).entries.length = (map.erase key).entries.length + 1 := by
              rw [AList.entries_insert]
              rfl
            change (map.insert key new).entries.length ≤ _
            rw [inserted]
            exact Nat.add_le_add_right less 1
  | del key =>
      cases answer <;> simp only [Agrees] at agrees
      rw [agrees]
      exact le_trans (fewer key) (Nat.le_add_right ..)
  | clear =>
      cases answer <;> simp only [Agrees] at agrees
      rw [agrees]
      exact Nat.zero_le _
  | list =>
      cases answer <;> simp only [Agrees] at agrees
      rw [agrees.2]
      exact Nat.le_add_right ..

theorem Represents.run_spec {map : Model K V} (represents : Represents hash h map) (ops : List (Op K V))
    (few : map.entries.length + ops.countP Op.isPut < 2 ^ 29) :
    ∃ h' answers map', run hash ops h = some (h', answers) ∧ Follows map ops answers map' ∧
      Represents hash h' map' := by
  induction ops generalizing h map with
  | nil => exact ⟨h, [], map, rfl, rfl, represents⟩
  | cons op ops ih =>
      rw [List.countP_cons] at few
      obtain ⟨h₁, answer, map₁, stepped, agrees, represents₁⟩ :=
        represents.step_spec (by rw [represents.size_eq]; omega) op
      have grown := length_agrees agrees
      obtain ⟨h', answers, map', ran, follows, represents'⟩ := ih represents₁ (by omega)
      exact ⟨h', answer :: answers, map', by simp [run, stepped, ran], ⟨map₁, agrees, follows⟩,
        represents'⟩

/-- Any calls on a new table come to an end within its arrays and answer as a finite map does. -/
theorem khash_finite_map (hash : K → BitVec 32) (ops : List (Op K V))
    (few : ops.countP Op.isPut < 2 ^ 29) :
    ∃ h answers map, run hash ops khInit = some (h, answers) ∧ Follows ∅ ops answers map ∧
      Represents hash h map ∧ h.size = map.entries.length := by
  obtain ⟨h, answers, map, ran, follows, represents⟩ := represents_khInit.run_spec ops
    (show 0 + _ < _ by omega)
  exact ⟨h, answers, map, ran, follows, represents, represents.size_eq⟩

end Put

/-! ## The key types

The hash functions of the tables that the loader makes. -/

/-- FNV-1a over the low and the high byte of each character. -/
def khWstrHashFunc (s : WString) : BitVec 32 :=
  s.foldl (fun h c =>
    let c : BitVec 32 := c.toBitVec.setWidth 32
    let h := (h ^^^ (c &&& 0xff)) * 16777619
    (h ^^^ (c >>> 8)) * 16777619) 2166136261

/-- `__ac_X31_hash_string`; a `char` is signed. -/
def acX31HashString : List UInt8 → BitVec 32
  | [] => 0
  | c :: rest => rest.foldl (fun h c => (h <<< 5) - h + c.toBitVec.signExtend 32) (c.toBitVec.signExtend 32)

def khInt64HashFunc (key : BitVec 64) : BitVec 32 := ((key >>> 33) ^^^ key ^^^ (key <<< 11)).setWidth 32

/-- A call that leaves a present key's value and gives a new key this one. -/
def putNew {K V : Type} (key : K) (val : V) : Op K V := .put key (fun found => found.getD val) .succeed

theorem khash_finite_map_wide : ∃ h answers map,
    run khWstrHashFunc [putNew (wide "a") 1, putNew (wide "b") 2, putNew (wide "a") 3,
      .del (wide "b"), .get (wide "a"), .list] khInit = some (h, answers) ∧
    Follows ∅ [putNew (wide "a") 1, putNew (wide "b") 2, putNew (wide "a") 3,
      .del (wide "b"), .get (wide "a"), .list] answers map ∧
    Represents khWstrHashFunc h map ∧ h.size = map.entries.length :=
  khash_finite_map khWstrHashFunc _ (by decide)

example : (run khInt64HashFunc [putNew 7 'a', putNew 9 'b', .del 7, putNew 7 'c', .get 7] khInit).map
    Prod.snd = some [.put 1 none, .put 1 none, .done, .put 2 none, .got (some 'c')] := by decide

example : (run acX31HashString [putNew [104, 105] 1, .put [104, 105] (fun _ => none) .succeed,
    .get [104, 105], putNew [255] 2, .list] khInit).map Prod.snd =
      some [.put 1 none, .put 0 (some 1), .got none, .put 1 none, .listed [([255], 2)]] := by decide

end Yafsml.Khash
