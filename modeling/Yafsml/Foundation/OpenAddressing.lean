import Mathlib.Data.List.Basic
import Mathlib.Data.Nat.Bitwise

/-! # Open addressing

Tables of `2 ^ e` slots, searched from the slot of a key's hash to the next free one. Only the keys
of the slots decide where a search ends, so the invariant is about the list of keys alone. -/

namespace Yafsml.OpenAddressing

/-! ## The walk over the slots -/

def walk (stop : Nat → Bool) (n : Nat) : Nat → Nat → Nat
  | 0, i => i
  | fuel + 1, i => if stop i then i else walk stop n fuel ((i + 1) &&& (n - 1))

theorem and_mask {n e : Nat} (power : n = 2 ^ e) (i : Nat) : i &&& (n - 1) = i % n := by
  rw [power, Nat.and_two_pow_sub_one_eq_mod]

section Walk

variable {stop stop' : Nat → Bool} {n e fuel i : Nat}

theorem walk_eq (power : n = 2 ^ e) {j : Nat} (inside : i < n) (enough : j ≤ fuel)
    (passed : ∀ k < j, stop ((i + k) % n) = false) (ends : j < fuel → stop ((i + j) % n) = true) :
    walk stop n fuel i = (i + j) % n := by
  induction fuel generalizing i j with
  | zero =>
      obtain rfl : j = 0 := by omega
      rw [walk, Nat.add_zero, Nat.mod_eq_of_lt inside]
  | succ fuel ih =>
      have start : i % n = i := Nat.mod_eq_of_lt inside
      cases j with
      | zero =>
          have stops := ends (by omega)
          rw [Nat.add_zero, start] at stops
          simp [walk, stops, start]
      | succ j =>
          have goes := passed 0 (by omega)
          rw [Nat.add_zero, start] at goes
          have shift (k : Nat) : ((i + 1) % n + k) % n = (i + (k + 1)) % n := by
            rw [Nat.mod_add_mod]
            congr 1
            omega
          rw [walk, if_neg (by simp [goes]), and_mask power, ← shift j]
          apply ih (Nat.mod_lt _ (by omega)) (by omega)
          · intro k before
            rw [shift]
            exact passed (k + 1) (by omega)
          · intro early
            rw [shift]
            exact ends (by omega)

variable (stop) in
theorem walk_spec (power : n = 2 ^ e) (inside : i < n) (fuel : Nat) :
    ∃ j ≤ fuel, walk stop n fuel i = (i + j) % n ∧ (∀ k < j, stop ((i + k) % n) = false) ∧
      (j < fuel → stop ((i + j) % n) = true) := by
  have first : ∃ j, j ≤ fuel ∧ (∀ k < j, stop ((i + k) % n) = false) ∧
      (j < fuel → stop ((i + j) % n) = true) := by
    induction fuel with
    | zero => exact ⟨0, le_rfl, by simp, by simp⟩
    | succ fuel ih =>
        obtain ⟨j, enough, passed, ends⟩ := ih
        cases stops : stop ((i + j) % n) with
        | true => exact ⟨j, by omega, passed, fun _ => stops⟩
        | false =>
            have last : j = fuel := by
              by_contra early
              have := ends (by omega)
              simp [this] at stops
            refine ⟨fuel + 1, le_rfl, fun k before => ?_, by simp⟩
            rcases Nat.lt_succ_iff_lt_or_eq.mp before with earlier | rfl
            · exact passed k (last ▸ earlier)
            · exact last ▸ stops
  obtain ⟨j, enough, passed, ends⟩ := first
  exact ⟨j, enough, walk_eq power inside enough passed ends, passed, ends⟩

variable (stop) in
theorem walk_stops (power : n = 2 ^ e) (inside : i < n) {free : Nat} (within : free < n)
    (stops : stop free = true) : stop (walk stop n n i) = true ∧ walk stop n n i < n := by
  obtain ⟨j, enough, ends, passed, stopped⟩ := walk_spec stop power inside n
  have bound : (i + j) % n < n := Nat.mod_lt _ (by omega)
  refine ⟨?_, by rw [ends]; exact bound⟩
  rw [ends]
  by_cases early : j < n
  · exact stopped early
  · -- the walk would have passed every slot, the one that stops it with them
    have reached : (i + (free + n - i) % n) % n = free := by
      rw [Nat.add_mod_mod, show i + (free + n - i) = free + n by omega, Nat.add_mod_right,
        Nat.mod_eq_of_lt within]
    have goes := passed ((free + n - i) % n) (lt_of_lt_of_le (Nat.mod_lt _ (by omega)) (by omega))
    rw [reached, stops] at goes
    cases goes

theorem walk_congr (power : n = 2 ^ e) (inside : i < n) {p : Nat}
    (same : ∀ k, k ≠ p → stop' k = stop k) (stops : stop p = true) (other : walk stop n n i ≠ p)
    (ended : stop (walk stop n n i) = true) :
    walk stop' n n i = walk stop n n i := by
  obtain ⟨j, enough, ends, passed, stopped⟩ := walk_spec stop power inside n
  rw [ends]
  rw [ends] at other ended
  apply walk_eq power inside enough
  · intro k before
    have goes := passed k before
    rw [same _ ?_]
    · exact goes
    · intro here
      rw [here, stops] at goes
      cases goes
  · intro early
    rw [same _ other]
    exact ended

end Walk

/-! ## The keys of a table -/

section Keys

variable {K : Type*}

theorem exists_free (keys : List (Option K))
    (room : keys.countP Option.isSome < keys.length) :
    ∃ i : Nat, keys[i]? = some none := by
  obtain ⟨key, member, free⟩ : ∃ key ∈ keys, ¬ Option.isSome key = true := by
    by_contra full
    push Not at full
    exact absurd (List.countP_eq_length.mpr full) (by omega)
  obtain ⟨i, _, at_i⟩ := List.getElem_of_mem member
  refine ⟨i, ?_⟩
  rw [List.getElem?_eq_some_iff]
  exact ⟨_, at_i.trans (by simpa using free)⟩

variable [DecidableEq K]

def stops (keys : List (Option K)) (key : K) (i : Nat) : Bool :=
  match keys[i]? with
  | some (some other) => decide (other = key)
  | _ => true

def probe (hash : K → Nat) (keys : List (Option K)) (key : K) : Nat :=
  walk (stops keys key) keys.length keys.length (hash key &&& (keys.length - 1))

structure WellFormed (hash : K → Nat) (keys : List (Option K)) (count : Nat) : Prop where
  capacity : keys = [] ∨ ∃ e, keys.length = 2 ^ e
  counted : keys.countP Option.isSome = count
  half : 2 * count ≤ keys.length
  probed : ∀ i key, keys[i]? = some (some key) → probe hash keys key = i

variable {hash : K → Nat} {keys : List (Option K)} {count : Nat}

theorem wellFormed_nil : WellFormed hash ([] : List (Option K)) 0 :=
  ⟨.inl rfl, rfl, le_rfl, by simp⟩

theorem wellFormed_replicate (hash : K → Nat) (e : Nat) :
    WellFormed hash (List.replicate (2 ^ e) (none : Option K)) 0 := by
  refine ⟨.inr ⟨e, List.length_replicate⟩, by simp, by simp, fun i key found => ?_⟩
  simp [List.getElem?_replicate] at found

namespace WellFormed

variable (formed : WellFormed hash keys count)

include formed

theorem power (nonempty : keys ≠ []) : ∃ e, keys.length = 2 ^ e :=
  formed.capacity.resolve_left nonempty

theorem probe_stops (nonempty : keys ≠ []) (key : K) :
    keys[probe hash keys key]? = some none ∨ keys[probe hash keys key]? = some (some key) := by
  obtain ⟨e, power⟩ := formed.power nonempty
  have positive : 0 < keys.length := List.length_pos_of_ne_nil nonempty
  obtain ⟨free, at_free⟩ := exists_free keys (by
    have := formed.counted
    have := formed.half
    omega)
  have within := (List.getElem?_eq_some_iff.mp at_free).1
  have start : hash key &&& (keys.length - 1) < keys.length := by
    rw [and_mask power]
    exact Nat.mod_lt _ positive
  obtain ⟨stopped, bound⟩ := walk_stops (stops keys key) power start within
    (by simp [stops, at_free])
  change stops keys key (probe hash keys key) = true at stopped
  change probe hash keys key < keys.length at bound
  rw [List.getElem?_eq_getElem bound]
  simp only [stops, List.getElem?_eq_getElem bound] at stopped
  cases at_probe : keys[probe hash keys key] with
  | none => exact .inl rfl
  | some other =>
      rw [at_probe] at stopped
      exact .inr (by rw [of_decide_eq_true stopped])

theorem insert {key : K} (free : keys[probe hash keys key]? = some none)
    (room : 2 * (count + 1) ≤ keys.length) :
    WellFormed hash (keys.set (probe hash keys key) (some key)) (count + 1) := by
  obtain ⟨within, at_probe⟩ := List.getElem?_eq_some_iff.mp free
  have nonempty : keys ≠ [] := List.ne_nil_of_length_pos (by omega)
  obtain ⟨e, power⟩ := formed.power nonempty
  have start (other : K) : hash other &&& (keys.length - 1) < keys.length := by
    rw [and_mask power]
    exact Nat.mod_lt _ (by omega)
  have elsewhere (other : K) (i : Nat) (apart : i ≠ probe hash keys key) :
      stops (keys.set (probe hash keys key) (some key)) other i = stops keys other i := by
    simp [stops, List.getElem?_set_ne apart.symm]
  refine ⟨.inr ⟨e, by rw [List.length_set, power]⟩, ?_, by rwa [List.length_set], ?_⟩
  · rw [List.countP_set within, at_probe]
    simp [formed.counted]
  · intro i other found
    rw [probe, List.length_set]
    by_cases here : probe hash keys key = i
    · -- the new key: its slot stopped the search before and stops it now
      subst here
      rw [List.getElem?_set_self within, Option.some.injEq, Option.some.injEq] at found
      subst found
      have same : stops (keys.set (probe hash keys key) (some key)) key = stops keys key := by
        funext i
        by_cases here : i = probe hash keys key
        · subst here
          simp [stops, free, List.getElem?_set_self within]
        · exact elsewhere key i here
      rw [same]
      rfl
    · -- an old key: its search did not come to the free slot
      rw [List.getElem?_set_ne here] at found
      have old := formed.probed i other found
      have ends : walk (stops keys other) keys.length keys.length
          (hash other &&& (keys.length - 1)) = i := old
      rw [walk_congr power (start other) (elsewhere other) (by simp [stops, free])
        (by rw [ends]; exact Ne.symm here) (by rw [ends]; simp [stops, found]), ends]

end WellFormed

end Keys

/-! ## Tables -/

/-- The slots of a table and how many of them are taken. -/
structure Table {S K : Type*} [DecidableEq K] (keyOf : S → Option K) (hash : K → Nat) where
  slots : List S
  count : Nat
  formed : WellFormed hash (slots.map keyOf) count

namespace Table

variable {S K : Type*} [DecidableEq K] {keyOf : S → Option K} {hash : K → Nat}
  (t : Table keyOf hash) {key other : K} {s : S}

def empty : Table keyOf hash := ⟨[], 0, wellFormed_nil⟩

def slotOf (key : K) : Nat := probe hash (t.slots.map keyOf) key

def find (key : K) : Option S := t.slots[t.slotOf key]?.filter fun s => (keyOf s).isSome

theorem slotOf_stops (nonempty : t.slots ≠ []) (key : K) :
    ∃ s, t.slots[t.slotOf key]? = some s ∧ (keyOf s = none ∨ keyOf s = some key) := by
  have stopped := t.formed.probe_stops (by simpa using nonempty) key
  rw [List.getElem?_map] at stopped
  change Option.map keyOf t.slots[t.slotOf key]? = some none ∨
    Option.map keyOf t.slots[t.slotOf key]? = some (some key) at stopped
  rcases stopped with free | own
  · obtain ⟨s, found, free⟩ := Option.map_eq_some_iff.mp free
    exact ⟨s, found, .inl free⟩
  · obtain ⟨s, found, own⟩ := Option.map_eq_some_iff.mp own
    exact ⟨s, found, .inr own⟩

theorem slotOf_of_mem {i : Nat} (found : t.slots[i]? = some s) (own : keyOf s = some key) :
    t.slotOf key = i :=
  t.formed.probed i key (by rw [List.getElem?_map, found, Option.map_some, own])

theorem find_eq_some_iff : t.find key = some s ↔ s ∈ t.slots ∧ keyOf s = some key := by
  constructor
  · intro found
    obtain ⟨at_slot, taken⟩ := Option.filter_eq_some_iff.mp found
    have nonempty : t.slots ≠ [] := by
      intro empty
      simp [empty] at at_slot
    obtain ⟨s', at_slot', which⟩ := t.slotOf_stops nonempty key
    obtain rfl := Option.some.inj (at_slot'.symm.trans at_slot)
    refine ⟨List.mem_of_getElem? at_slot, which.resolve_left fun free => ?_⟩
    simp [free] at taken
  · rintro ⟨member, own⟩
    obtain ⟨i, found⟩ := List.mem_iff_getElem?.mp member
    rw [find, t.slotOf_of_mem found own, found]
    simp [own]

theorem slot_free (nonempty : t.slots ≠ []) (absent : t.find key = none) :
    ∃ s, t.slots[t.slotOf key]? = some s ∧ keyOf s = none := by
  obtain ⟨s, found, free | own⟩ := t.slotOf_stops nonempty key
  · exact ⟨s, found, free⟩
  · have := t.find_eq_some_iff.mpr ⟨List.mem_of_getElem? found, own⟩
    rw [absent] at this
    cases this

theorem apart : t.slots.Pairwise fun a b => ∀ key, keyOf a = some key → keyOf b ≠ some key := by
  rw [List.pairwise_iff_getElem]
  intro i j first second before key own own'
  have := t.slotOf_of_mem (List.getElem?_eq_getElem first) own
  have := t.slotOf_of_mem (List.getElem?_eq_getElem second) own'
  omega

theorem eq_empty (none : t.slots.length = 0) : t = empty := by
  obtain ⟨slots, count, formed⟩ := t
  obtain rfl : slots = [] := List.eq_nil_of_length_eq_zero none
  obtain rfl : count = 0 := formed.counted.symm
  rfl

@[simp] theorem find_empty : (empty : Table keyOf hash).find key = none := by
  simp [find, empty]

/-! ### Changing a slot -/

omit [DecidableEq K] in
theorem map_modify {f : S → S} (keeps : ∀ s, keyOf (f s) = keyOf s) (slots : List S) (i : Nat) :
    (slots.modify i f).map keyOf = slots.map keyOf := by
  apply List.ext_getElem?
  intro j
  rw [List.getElem?_map, List.getElem?_map, List.getElem?_modify]
  by_cases here : i = j <;> cases slots[j]? <;> simp [here, keeps]

def modify (key : K) (f : S → S) (keeps : ∀ s, keyOf (f s) = keyOf s) : Table keyOf hash :=
  ⟨t.slots.modify (t.slotOf key) f, t.count, by rw [map_modify keeps]; exact t.formed⟩

theorem find_modify {f : S → S} (keeps : ∀ s, keyOf (f s) = keyOf s) :
    (t.modify key f keeps).find other = if other = key then (t.find key).map f else t.find other := by
  have slot (key' : K) : (t.modify key f keeps).slotOf key' = t.slotOf key' := by
    simp only [slotOf, modify, map_modify keeps]
  simp only [find, slot]
  simp only [modify, List.getElem?_modify]
  by_cases here : other = key
  · subst here
    cases t.slots[t.slotOf other]? with
    | none => simp
    | some s => cases taken : keyOf s <;> simp [Option.filter, keeps, taken]
  rw [if_neg here]
  split_ifs with same
  · -- two keys whose searches end at one slot find it free
    cases found : t.slots[t.slotOf other]? with
    | none => rfl
    | some s =>
        have nonempty : t.slots ≠ [] := by
          intro empty
          simp [empty] at found
        obtain ⟨a, at_key, of_key⟩ := t.slotOf_stops nonempty key
        obtain ⟨b, at_other, of_other⟩ := t.slotOf_stops nonempty other
        rw [same] at at_key
        obtain rfl := Option.some.inj (found.symm.trans at_key)
        obtain rfl := Option.some.inj (found.symm.trans at_other)
        have free : keyOf s = none := by
          rcases of_key with free | own
          · exact free
          · rcases of_other with free | own'
            · exact free
            · exact absurd (Option.some.inj (own'.symm.trans own)) here
        simp [Option.filter, keeps, free]
  · simp

/-! ### A new key -/

def insert (key : K) (s : S) (own : keyOf s = some key) (absent : t.find key = none)
    (room : 2 * (t.count + 1) ≤ t.slots.length) : Table keyOf hash :=
  ⟨t.slots.set (t.slotOf key) s, t.count + 1, by
    obtain ⟨free, found, vacant⟩ :=
      t.slot_free (List.ne_nil_of_length_pos (by omega)) absent
    have key_free : (t.slots.map keyOf)[t.slotOf key]? = some none := by
      rw [List.getElem?_map, found, Option.map_some, vacant]
    rw [List.map_set, own]
    exact t.formed.insert key_free (by rwa [List.length_map])⟩

theorem find_insert (own : keyOf s = some key) (absent : t.find key = none)
    (room : 2 * (t.count + 1) ≤ t.slots.length) :
    (t.insert key s own absent room).find other = if other = key then some s else t.find other := by
  obtain ⟨free, found, vacant⟩ := t.slot_free (List.ne_nil_of_length_pos (by omega)) absent
  have within := (List.getElem?_eq_some_iff.mp found).1
  apply Option.ext
  intro a
  rw [find_eq_some_iff]
  split_ifs with same
  · subst same
    constructor
    · rintro ⟨member, own'⟩
      rcases List.mem_or_eq_of_mem_set member with old | rfl
      · have := t.find_eq_some_iff.mpr ⟨old, own'⟩
        rw [absent] at this
        cases this
      · rfl
    · intro new
      cases new
      exact ⟨List.mem_set within s, own⟩
  · rw [find_eq_some_iff]
    refine and_congr_left fun own' => ⟨fun member => ?_, fun member => ?_⟩
    · refine (List.mem_or_eq_of_mem_set member).resolve_right ?_
      rintro rfl
      exact same (Option.some.inj (own'.symm.trans own))
    · obtain ⟨i, at_i⟩ := List.mem_iff_getElem?.mp member
      apply List.mem_of_getElem? (i := i)
      rw [insert, List.getElem?_set_ne, at_i]
      rintro rfl
      rw [found] at at_i
      cases at_i
      simp [vacant] at own'

/-! ### A larger table -/

/-- What a taken slot of the old table does to the slots of the new one. -/
def place (keyOf : S → Option K) (hash : K → Nat) (slots : List S) (s : S) : List S :=
  match keyOf s with
  | none => slots
  | some key => slots.set (probe hash (slots.map keyOf) key) s

@[simp] theorem length_place (slots : List S) (s : S) :
    (place keyOf hash slots s).length = slots.length := by
  unfold place
  split <;> simp

variable (keyOf hash) in
theorem length_place_run (slots rest : List S) :
    (rest.foldl (place keyOf hash) slots).length = slots.length := by
  induction rest generalizing slots with
  | nil => rfl
  | cons s rest ih => rw [List.foldl_cons, ih, length_place]

theorem place_spec {slots : List S} {count : Nat} (formed : WellFormed hash (slots.map keyOf) count)
    (own : keyOf s = some key) (room : 2 * (count + 1) ≤ slots.length)
    (new : ∀ a ∈ slots, keyOf a ≠ some key) :
    WellFormed hash ((place keyOf hash slots s).map keyOf) (count + 1) ∧
      ∀ a, keyOf a ≠ none → (a ∈ place keyOf hash slots s ↔ a ∈ slots ∨ a = s) := by
  let t : Table keyOf hash := ⟨slots, count, formed⟩
  have absent : t.find key = none := by
    apply Option.eq_none_iff_forall_ne_some.mpr
    intro a found
    obtain ⟨member, own'⟩ := t.find_eq_some_iff.mp found
    exact new a member own'
  have placed : place keyOf hash slots s = (t.insert key s own absent room).slots := by
    simp [place, own, insert, slotOf, t]
  rw [placed]
  refine ⟨(t.insert key s own absent room).formed, fun a taken => ?_⟩
  obtain ⟨key', own'⟩ := Option.ne_none_iff_exists'.mp taken
  have after : (t.insert key s own absent room).find key' = some a ↔ _ := find_eq_some_iff _
  have before : t.find key' = some a ↔ _ := find_eq_some_iff _
  rw [find_insert] at after
  simp only [own', and_true] at after before
  rw [← after]
  split_ifs with same
  · subst same
    rw [absent] at before
    constructor
    · intro inserted
      exact .inr (Option.some.inj inserted).symm
    · rintro (old | rfl)
      · exact absurd own' (new a old)
      · rfl
  · rw [before]
    refine (or_iff_left ?_).symm
    rintro rfl
    exact same (Option.some.inj (own'.symm.trans own))

theorem place_run {slots rest : List S} {count : Nat}
    (formed : WellFormed hash (slots.map keyOf) count)
    (room : 2 * (count + (rest.map keyOf).countP Option.isSome) ≤ slots.length)
    (apart : rest.Pairwise fun a b => ∀ key, keyOf a = some key → keyOf b ≠ some key)
    (new : ∀ s ∈ rest, ∀ key, keyOf s = some key → ∀ a ∈ slots, keyOf a ≠ some key) :
    WellFormed hash ((rest.foldl (place keyOf hash) slots).map keyOf)
        (count + (rest.map keyOf).countP Option.isSome) ∧
      ∀ a, keyOf a ≠ none →
        (a ∈ rest.foldl (place keyOf hash) slots ↔ a ∈ slots ∨ a ∈ rest) := by
  induction rest generalizing slots count with
  | nil => exact ⟨by simpa using formed, by simp⟩
  | cons s rest ih =>
      obtain ⟨apart_s, apart⟩ := List.pairwise_cons.mp apart
      rw [List.foldl_cons]
      cases own : keyOf s with
      | none =>
          have skipped : place keyOf hash slots s = slots := by simp [place, own]
          rw [List.map_cons, List.countP_cons, own] at room ⊢
          rw [skipped]
          obtain ⟨formed', held⟩ := ih formed room apart fun s' member => new s' (.tail _ member)
          refine ⟨formed', fun a taken => ?_⟩
          rw [held a taken, List.mem_cons]
          refine or_congr_right (or_iff_right ?_).symm
          rintro rfl
          exact taken own
      | some key =>
          rw [List.map_cons, List.countP_cons, own] at room ⊢
          simp only [Option.isSome_some, if_true] at room ⊢
          obtain ⟨placed, held⟩ := place_spec formed own (by omega) (new s (.head _) key own)
          have new' : ∀ s' ∈ rest, ∀ key', keyOf s' = some key' →
              ∀ a ∈ place keyOf hash slots s, keyOf a ≠ some key' := by
            intro s' member key' own' a among own''
            rcases (held a (by simp [own''])).mp among with old | rfl
            · exact new s' (.tail _ member) key' own' a old own''
            · exact apart_s s' member key' own'' own'
          obtain ⟨formed', held'⟩ := ih placed (by rw [length_place]; omega) apart new'
          refine ⟨by rwa [Nat.add_assoc, Nat.add_comm 1] at formed', fun a taken => ?_⟩
          rw [held' a taken, held a taken, List.mem_cons, or_assoc]

theorem place_part {blank : S} {capacity : Nat} (free : keyOf blank = none)
    (power : ∃ e, capacity = 2 ^ e) (room : 2 * t.count ≤ capacity) {moved waiting : List S}
    (split : t.slots = moved ++ waiting) :
    WellFormed hash ((moved.foldl (place keyOf hash) (List.replicate capacity blank)).map keyOf)
        ((moved.map keyOf).countP Option.isSome) ∧
      ∀ s, keyOf s ≠ none →
        (s ∈ moved.foldl (place keyOf hash) (List.replicate capacity blank) ↔ s ∈ moved) := by
  obtain ⟨e, rfl⟩ := power
  have vacant {a : S} (among : a ∈ List.replicate (2 ^ e) blank) : keyOf a = none := by
    rw [List.eq_of_mem_replicate among, free]
  have fresh := wellFormed_replicate hash e
  rw [← free, ← List.map_replicate] at fresh
  have counted := t.formed.counted
  rw [split, List.map_append, List.countP_append] at counted
  have apart := t.apart
  rw [split] at apart
  obtain ⟨formed, held⟩ := place_run fresh (by rw [Nat.zero_add, List.length_replicate]; omega)
    (List.pairwise_append.mp apart).1 fun _ _ key _ a among own => by simp [vacant among] at own
  rw [Nat.zero_add] at formed
  refine ⟨formed, fun s taken => ?_⟩
  rw [held s taken]
  exact or_iff_right fun among => taken (vacant among)

theorem place_all {blank : S} {capacity : Nat} (free : keyOf blank = none)
    (power : ∃ e, capacity = 2 ^ e) (room : 2 * t.count ≤ capacity) :
    WellFormed hash
        ((t.slots.foldl (place keyOf hash) (List.replicate capacity blank)).map keyOf) t.count ∧
      ∀ s, keyOf s ≠ none →
        (s ∈ t.slots.foldl (place keyOf hash) (List.replicate capacity blank) ↔ s ∈ t.slots) := by
  have placed := t.place_part free power room (List.append_nil t.slots).symm
  rwa [t.formed.counted] at placed

/-- Twice the slots, or `least` for a table without slots. -/
def doubled (least : Nat) : Nat := if t.slots.length = 0 then least else 2 * t.slots.length

theorem doubled_power {least : Nat} (power : ∃ e, least = 2 ^ e) : ∃ e, t.doubled least = 2 ^ e := by
  unfold doubled
  split
  · exact power
  · rename_i nonempty
    rcases t.formed.capacity with empty | ⟨e, power⟩
    · exact absurd (List.length_eq_zero_iff.mpr (List.map_eq_nil_iff.mp empty)) nonempty
    · rw [List.length_map] at power
      exact ⟨e + 1, by rw [power, pow_succ, mul_comm]⟩

theorem half_doubled {least : Nat} (two : 2 ≤ least) : 2 * (t.count + 1) ≤ t.doubled least := by
  have half := t.formed.half
  rw [List.length_map] at half
  unfold doubled
  split <;> omega

/-- The table in `capacity` slots, every other one a `blank`. -/
def grow (blank : S) (capacity : Nat) (free : keyOf blank = none) (power : ∃ e, capacity = 2 ^ e)
    (room : 2 * t.count ≤ capacity) : Table keyOf hash :=
  ⟨t.slots.foldl (place keyOf hash) (List.replicate capacity blank), t.count,
    (t.place_all free power room).1⟩

section Grow

variable {blank : S} {capacity : Nat} (free : keyOf blank = none) (power : ∃ e, capacity = 2 ^ e)
  (room : 2 * t.count ≤ capacity)

theorem find_grow : (t.grow blank capacity free power room).find key = t.find key := by
  apply Option.ext
  intro s
  rw [find_eq_some_iff, find_eq_some_iff]
  exact and_congr_left fun own => (t.place_all free power room).2 s (by simp [own])

theorem length_grow : (t.grow blank capacity free power room).slots.length = capacity := by
  exact (length_place_run ..).trans List.length_replicate

end Grow

end Table

end Yafsml.OpenAddressing
