import Mathlib.Data.List.DropRight
import Yafsml.Dearxan.RegionPatches
import Yafsml.Dearxan.Relocations
import Yafsml.Foundation.GuardedFold

/-!
# The sweep over the relocations

Every list gets what a walk over its own regions and all relocations would give it.
-/

namespace Yafsml.Dearxan

open LittleEndian

structure Visit where
  region : EncryptedRegion
  rva : Nat
  deriving DecidableEq, Repr

namespace Visit

/-- The place in the stream, as the code adds it up. -/
def position (visit : Visit) : Nat :=
  (visit.region.streamOffset + (visit.rva - visit.region.rva)) % 2 ^ 64

def value (stream : List Byte) (visit : Visit) : Word :=
  ofBytes (fun k => stream.getD (visit.position + k) 0) 8

/-- Adds the distance of the bases to the word of the stream. -/
def rebase (baseDiff : Word) (stream : List Byte) (visit : Visit) : List Byte :=
  writeWord stream visit.position (visit.value stream + baseDiff)

def Fits (stream : List Byte) (visit : Visit) : Prop := visit.position + 8 ≤ stream.length

def Inside (image : DearxanImage) (va : Word) : Prop :=
  image.baseVa ≤ va ∧ (va - image.baseVa).toNat < image.bytes.length

instance (stream : List Byte) (visit : Visit) : Decidable (visit.Fits stream) :=
  inferInstanceAs (Decidable (_ ≤ _))

instance (image : DearxanImage) (va : Word) : Decidable (Inside image va) :=
  inferInstanceAs (Decidable (_ ∧ _))

def rejects (image : DearxanImage) (baseDiff : Word) (stream : List Byte) (visit : Visit) : Bool :=
  !(decide (visit.Fits stream) && decide (Inside image (visit.value stream + baseDiff)))

end Visit

def visitsOf (relocations : List Nat) (region : EncryptedRegion) : List Visit :=
  (relocations.filter fun rva => region.rva ≤ rva && rva + 8 ≤ region.rva + region.size).map
    fun rva => ⟨region, rva⟩

def visits (relocations : List Nat) (regions : List EncryptedRegion) : List Visit :=
  regions.flatMap (visitsOf relocations)

/-- The part of `dearxan_resolve_encrypted_region_lists` that relocates. -/
def relocationPhase (qsort : Sorting compareRegionReferences) (image : DearxanImage)
    (preferredBase : Word) (relocations : List Nat) (lists : List (Option EncryptedRegionList)) : Lists :=
  let processed := processedLists lists
  relocateRegions image (image.baseVa - preferredBase) (qsort.sort (regionReferences processed))
    (relocations.insertionSort (· ≤ ·))
    ⟨fun i => (processed[i]?.map EncryptedRegionList.decryptedStream).getD [], fun _ => false⟩

theorem dearxanResolveEncryptedRegionLists_phase {qsort : Sorting compareRegionReferences}
    {entropies : Entropies} {image : DearxanImage} {preferredBase : Word} {relocations : Option (List Nat)}
    {lists : List (Option EncryptedRegionList)} (some_list : lists ≠ []) :
    dearxanResolveEncryptedRegionLists qsort entropies image preferredBase relocations lists =
      relocations.map fun relocations =>
        let relocated := relocationPhase qsort image preferredBase relocations lists
        keptLists (processedLists lists)
          { relocated with
            eliminated := sweepAll entropies.exceeds
              (qsort.sort (regionReferences (processedLists lists)))
              fun i => relocated.eliminated i || entropies.atLeastImage i } := by
  rw [dearxanResolveEncryptedRegionLists, if_neg some_list]
  rfl

section Region

variable {image : DearxanImage} {baseDiff : Word}

theorem dearxanImageRead_one_eq_none {va : Word} :
    dearxanImageRead (some image) va 1 = none ↔ ¬ Visit.Inside image va := by
  simp only [dearxanImageRead, Visit.Inside, not_and, not_lt]
  split_ifs with below beyond short
  · simp [BitVec.not_le.mpr below]
  · simp only [true_iff]
    exact fun _ => Nat.le_of_lt beyond
  · simp only [true_iff]
    omega
  · simp only [false_iff, Classical.not_imp]
    exact ⟨BitVec.not_lt.mp below, by omega⟩

theorem visitsOf_cons (rva : Nat) (relocations : List Nat) (region : EncryptedRegion) :
    visitsOf (rva :: relocations) region =
      if region.rva ≤ rva ∧ rva + 8 ≤ region.rva + region.size then
        ⟨region, rva⟩ :: visitsOf relocations region
      else visitsOf relocations region := by
  simp only [visitsOf, List.filter_cons, Bool.and_eq_true, decide_eq_true_eq]
  split_ifs <;> rfl

theorem visitsOf_eq_nil {relocations : List Nat} {region : EncryptedRegion}
    (beyond : ∀ rva ∈ relocations, region.rva + region.size < rva + 8) :
    visitsOf relocations region = [] := by
  rw [visitsOf, List.map_eq_nil_iff, List.filter_eq_nil_iff]
  intro rva among inside
  have := beyond rva among
  simp only [Bool.and_eq_true, decide_eq_true_eq] at inside
  omega

theorem relocateRegion_eq {region : EncryptedRegion} (finish : region.finish = region.rva + region.size)
    {relocations : List Nat} (sorted : relocations.Pairwise (· ≤ ·))
    (behind : ∀ rva ∈ relocations, region.rva ≤ rva) (stream : List Byte) :
    relocateRegion image baseDiff region relocations stream =
      GuardedFold.fold (Visit.rejects image baseDiff) (Visit.rebase baseDiff) stream
        (visitsOf relocations region) := by
  induction relocations generalizing stream with
  | nil => rfl
  | cons rva relocations ih =>
      obtain ⟨first, sorted⟩ := List.pairwise_cons.mp sorted
      have here := behind rva List.mem_cons_self
      rw [relocateRegion, finish]
      by_cases ends : region.rva + region.size < rva + 8
      · rw [if_pos ends, visitsOf_eq_nil]
        · rfl
        · intro other among
          cases among with
          | head => exact ends
          | tail _ among => have := first other among; omega
      · have inside : region.rva ≤ rva ∧ rva + 8 ≤ region.rva + region.size :=
          ⟨here, Nat.not_lt.mp ends⟩
        rw [if_neg ends, visitsOf_cons, if_pos inside, GuardedFold.fold,
          ← ih sorted fun other among => behind other (List.mem_cons_of_mem _ among)]
        have fits_iff : Visit.Fits stream ⟨region, rva⟩ ↔
            ¬ (stream.length < (region.streamOffset + (rva - region.rva)) % 2 ^ 64 ∨
              stream.length - (region.streamOffset + (rva - region.rva)) % 2 ^ 64 < 8) := by
          simp only [Visit.Fits, Visit.position]
          omega
        by_cases fits : Visit.Fits stream ⟨region, rva⟩
        · simp only [if_neg (fits_iff.mp fits), dearxanImageRead_one_eq_none, Visit.rejects, fits,
            decide_true, Bool.true_and, Bool.not_eq_true', decide_eq_false_iff_not]
          rfl
        · rw [if_pos (not_not.mp (fits_iff.not.mp fits)), if_pos]
          simp [Visit.rejects, fits]

theorem visitsOf_dropWhile (relocations : List Nat) (region : EncryptedRegion) :
    visitsOf (relocations.dropWhile (· < region.rva)) region = visitsOf relocations region := by
  induction relocations with
  | nil => rfl
  | cons rva relocations ih =>
      rw [List.dropWhile_cons]
      split
      · rename_i before
        have before : rva < region.rva := by simpa using before
        rw [ih, visitsOf_cons, if_neg]
        omega
      · rfl

theorem dropWhile_dropWhile_lt {a b : Nat} (le : a ≤ b) (l : List Nat) :
    (l.dropWhile (· < a)).dropWhile (· < b) = l.dropWhile (· < b) := by
  induction l with
  | nil => rfl
  | cons x l ih =>
      by_cases below : x < a
      · have : x < b := Nat.lt_of_lt_of_le below le
        simp [below, this, ih]
      · simp [below]

theorem le_of_mem_dropWhile_lt {a : Nat} {l : List Nat} (sorted : l.Pairwise (· ≤ ·)) :
    ∀ x ∈ l.dropWhile (· < a), a ≤ x := by
  induction l with
  | nil => simp
  | cons x l ih =>
      obtain ⟨first, sorted⟩ := List.pairwise_cons.mp sorted
      rw [List.dropWhile_cons]
      split
      · exact ih sorted
      · rename_i above
        have above : a ≤ x := by simpa using above
        intro y among
        cases among with
        | head => exact above
        | tail _ among => exact Nat.le_trans above (first y among)

end Region

section Sweep

variable {image : DearxanImage} {baseDiff : Word}

def Lists.stream (lists : Lists) (i : Nat) : Option (List Byte) :=
  if lists.eliminated i then none else some (lists.streams i)

def visitsAmong (relocations : List Nat) (references : List RegionReference) (i : Nat) : List Visit :=
  visits relocations ((references.filter fun reference => reference.listIndex = i).map RegionReference.region)

theorem visitsAmong_cons (relocations : List Nat) (reference : RegionReference)
    (references : List RegionReference) (i : Nat) :
    visitsAmong relocations (reference :: references) i =
      if reference.listIndex = i then
        visitsOf relocations reference.region ++ visitsAmong relocations references i
      else visitsAmong relocations references i := by
  simp only [visitsAmong, visits, List.filter_cons, decide_eq_true_eq]
  split_ifs <;> rfl

theorem visitsAmong_eq_nil {relocations : List Nat} {references : List RegionReference}
    (ended : ∀ reference ∈ references, relocations.dropWhile (· < reference.region.rva) = []) (i : Nat) :
    visitsAmong relocations references i = [] := by
  induction references with
  | nil => rfl
  | cons reference references ih =>
      have behind := ih fun other among => ended other (List.mem_cons_of_mem _ among)
      rw [visitsAmong_cons, behind, ← visitsOf_dropWhile, ended reference List.mem_cons_self]
      split_ifs <;> rfl

theorem Lists.stream_eliminate (lists : Lists) (j i : Nat) :
    (lists.eliminate j).stream i = if j = i then none else lists.stream i := by
  simp only [Lists.stream, Lists.eliminate, Function.update_apply, eq_comm (a := j)]
  split_ifs <;> simp_all

theorem Lists.stream_update (lists : Lists) (j i : Nat) (stream : List Byte)
    (kept : lists.eliminated j = false) :
    ({ lists with streams := Function.update lists.streams j stream } : Lists).stream i =
      if j = i then some stream else lists.stream i := by
  simp only [Lists.stream, Function.update_apply, eq_comm (a := j)]
  split_ifs <;> simp_all

theorem relocateRegions_stream {all : List Nat} (sorted : all.Pairwise (· ≤ ·))
    {references : List RegionReference}
    (ordered : references.Pairwise fun p q => p.region.rva ≤ q.region.rva)
    (bounded : ∀ reference ∈ references,
      reference.region.finish = reference.region.rva + reference.region.size)
    {relocations : List Nat}
    (left : ∀ reference ∈ references, relocations.dropWhile (· < reference.region.rva) =
      all.dropWhile (· < reference.region.rva))
    (lists : Lists) (i : Nat) :
    (relocateRegions image baseDiff references relocations lists).stream i =
      (lists.stream i).bind fun stream =>
        GuardedFold.fold (Visit.rejects image baseDiff) (Visit.rebase baseDiff) stream
          (visitsAmong all references i) := by
  induction references generalizing relocations lists with
  | nil => cases h : lists.stream i <;> simp [relocateRegions, h, visitsAmong, visits, GuardedFold.fold]
  | cons reference references ih =>
      obtain ⟨first, ordered⟩ := List.pairwise_cons.mp ordered
      have bounded' : ∀ other ∈ references, other.region.finish = other.region.rva + other.region.size :=
        fun other among => bounded other (List.mem_cons_of_mem _ among)
      have here := left reference List.mem_cons_self
      have resumed : ∀ other ∈ references,
          (all.dropWhile (· < reference.region.rva)).dropWhile (· < other.region.rva) =
            all.dropWhile (· < other.region.rva) :=
        fun other among => dropWhile_dropWhile_lt (first other among) all
      rw [relocateRegions, visitsAmong_cons]
      cases gone : lists.eliminated reference.listIndex with
      | true =>
          rw [if_pos rfl, ih ordered bounded' fun other among => left other (List.mem_cons_of_mem _ among)]
          split_ifs with mine
          · subst mine
            simp [Lists.stream, gone]
          · rfl
      | false =>
          rw [if_neg Bool.false_ne_true]
          dsimp only
          rw [here]
          by_cases ended : all.dropWhile (· < reference.region.rva) = []
          · have none_here : visitsOf all reference.region = [] := by
              rw [← visitsOf_dropWhile, ended]
              rfl
            have none_behind : visitsAmong all references i = [] := by
              apply visitsAmong_eq_nil
              intro other among
              rw [← resumed other among, ended]
              rfl
            rw [if_pos ended, none_here, none_behind]
            cases lists.stream i <;> simp [GuardedFold.fold]
          · rw [if_neg ended, relocateRegion_eq (bounded reference List.mem_cons_self)
              (sorted.sublist (List.dropWhile_sublist _)) (le_of_mem_dropWhile_lt sorted),
              visitsOf_dropWhile]
            have mine_some (mine : reference.listIndex = i) :
                lists.stream i = some (lists.streams reference.listIndex) := by
              subst mine
              simp [Lists.stream, gone]
            cases relocated : GuardedFold.fold (Visit.rejects image baseDiff) (Visit.rebase baseDiff)
                (lists.streams reference.listIndex) (visitsOf all reference.region) with
            | none =>
                dsimp only
                rw [ih ordered bounded' resumed, Lists.stream_eliminate]
                split_ifs with mine
                · rw [mine_some mine, Option.bind_some, GuardedFold.fold_append, relocated]
                · rfl
            | some stream =>
                dsimp only
                rw [ih ordered bounded' resumed, Lists.stream_update _ _ _ _ gone]
                split_ifs with mine
                · rw [mine_some mine, Option.bind_some, Option.bind_some, GuardedFold.fold_append,
                    relocated, Option.bind_some]
                · rfl

end Sweep

/-- The regions are disjoint and in order, their fields are 32-bit numbers. -/
def SortedRegions (regions : List EncryptedRegion) : Prop :=
  regions.Pairwise EncryptedRegion.Before ∧ ∀ r ∈ regions, r.rva < 2 ^ 32 ∧ r.size < 2 ^ 32

theorem EncryptedRegion.finish_eq {r : EncryptedRegion} (rva : r.rva < 2 ^ 32) (size : r.size < 2 ^ 32) :
    r.finish = r.rva + r.size := by
  apply Nat.mod_eq_of_lt
  omega

theorem visits_cons (relocations : List Nat) (r : EncryptedRegion) (regions : List EncryptedRegion) :
    visits relocations (r :: regions) = visitsOf relocations r ++ visits relocations regions := rfl

theorem visits_filter_size (relocations : List Nat) (regions : List EncryptedRegion) :
    visits relocations (regions.filter fun r => 0 < r.size) = visits relocations regions := by
  induction regions with
  | nil => rfl
  | cons r regions ih =>
      rw [visits_cons, ← ih, List.filter_cons]
      split_ifs with nonempty
      · rw [visits_cons]
      · have empty : visitsOf relocations r = [] := by
          rw [visitsOf, List.map_eq_nil_iff, List.filter_eq_nil_iff]
          intro rva _
          simp only [decide_eq_true_eq, Nat.not_lt, Nat.le_zero] at nonempty
          simp only [nonempty, Bool.and_eq_true, decide_eq_true_eq]
          omega
        rw [empty]
        rfl

theorem visits_of_perm {relocations : List Nat} {left right : List EncryptedRegion} (perm : left.Perm right)
    (left_sorted : left.Pairwise EncryptedRegion.Before)
    (right_sorted : right.Pairwise EncryptedRegion.Before) :
    visits relocations left = visits relocations right := by
  rw [← visits_filter_size _ left, ← visits_filter_size _ right]
  congr 1
  apply List.Perm.eq_of_pairwise _ (left_sorted.sublist List.filter_sublist)
    (right_sorted.sublist List.filter_sublist) (perm.filter _)
  intro a b a_mem b_mem ab ba
  have := (List.mem_filter.mp a_mem).2
  have := (List.mem_filter.mp b_mem).2
  simp only [decide_eq_true_eq, EncryptedRegion.Before] at *
  omega

/-- The references from the list with the number `first` on. -/
def referencesFrom (processed : List EncryptedRegionList) (first : Nat) : List RegionReference :=
  (processed.zipIdx first).flatMap fun (list, i) => list.regions.map fun region => ⟨i, region⟩

theorem le_of_mem_referencesFrom {processed : List EncryptedRegionList} {first : Nat}
    {reference : RegionReference} (among : reference ∈ referencesFrom processed first) :
    first ≤ reference.listIndex := by
  obtain ⟨⟨list, j⟩, at_j, among⟩ := List.mem_flatMap.mp among
  obtain ⟨region, -, rfl⟩ := List.mem_map.mp among
  exact List.le_snd_of_mem_zipIdx at_j

theorem referencesFrom_filter {processed : List EncryptedRegionList} (first : Nat) {k : Nat}
    {list : EncryptedRegionList} (at_k : processed[k]? = some list) :
    ((referencesFrom processed first).filter fun reference => reference.listIndex = first + k).map
      RegionReference.region = list.regions := by
  induction processed generalizing first k with
  | nil => cases at_k
  | cons head processed ih =>
      have split : referencesFrom (head :: processed) first =
          (head.regions.map fun region => ⟨first, region⟩) ++ referencesFrom processed (first + 1) := by
        rw [referencesFrom, List.zipIdx_cons, List.flatMap_cons]
        rfl
      rw [split, List.filter_append, List.map_append]
      cases k with
      | zero =>
          obtain rfl := Option.some.inj at_k
          have behind : (referencesFrom processed (first + 1)).filter
              (fun reference => reference.listIndex = first + 0) = [] := by
            rw [List.filter_eq_nil_iff]
            intro reference among
            have := le_of_mem_referencesFrom among
            simp only [decide_eq_true_eq]
            omega
          rw [behind]
          simp [List.filter_map, Function.comp_def]
      | succ k =>
          have here : (head.regions.map fun region => (⟨first, region⟩ : RegionReference)).filter
              (fun reference => reference.listIndex = first + (k + 1)) = [] := by
            simp [List.filter_map, Function.comp_def]
          rw [here, ← ih (first + 1) at_k, Nat.add_right_comm]
          rfl

theorem visitsAmong_sorted (qsort : Sorting compareRegionReferences) (relocations : List Nat)
    {processed : List EncryptedRegionList}
    (sorted : ∀ list ∈ processed, list.regions.Pairwise EncryptedRegion.Before)
    {i : Nat} {list : EncryptedRegionList} (at_i : processed[i]? = some list) :
    visitsAmong relocations (qsort.sort (regionReferences processed)) i = visits relocations list.regions := by
  have ordered := qsort.ordered (regionReferences_apart sorted)
  have mine := referencesFrom_filter 0 at_i
  rw [Nat.zero_add] at mine
  apply visits_of_perm
  · rw [← mine]
    exact ((qsort.perm _).filter _).map _
  · apply List.pairwise_map.mpr
    apply List.pairwise_filter.mpr
    apply ordered.imp
    intro p q ordered p_mine q_mine
    simp only [decide_eq_true_eq] at p_mine q_mine
    exact ordered.same_list (p_mine.trans q_mine.symm)
  · exact sorted list (List.mem_of_getElem? at_i)

namespace Visit

/-- The byte `k` of the stream belongs to the word that is relocated. -/
def Covers (visit : Visit) (k : Nat) : Prop := visit.position ≤ k ∧ k < visit.position + 8

theorem length_rebase {baseDiff : Word} {stream : List Byte} {visit : Visit} (fits : visit.Fits stream) :
    (rebase baseDiff stream visit).length = stream.length := by
  unfold Fits at fits
  simp only [rebase, writeWord, List.length_append, List.length_take, List.length_map, List.length_range,
    List.length_drop]
  omega

theorem rebase_getElem? {baseDiff : Word} {stream : List Byte} {visit : Visit} (fits : visit.Fits stream)
    {k : Nat} (uncovered : ¬ visit.Covers k) : (rebase baseDiff stream visit)[k]? = stream[k]? := by
  unfold Fits at fits
  rw [rebase, writeWord, List.append_assoc]
  by_cases before : k < visit.position
  · rw [List.getElem?_append_left (by rw [List.length_take]; omega), List.getElem?_take_of_lt before]
  · have behind : visit.position + 8 ≤ k := by
      unfold Covers at uncovered
      omega
    rw [List.getElem?_append_right (by rw [List.length_take]; omega), List.getElem?_append_right
      (by simp only [List.length_take, List.length_map, List.length_range]; omega), List.getElem?_drop]
    congr 1
    simp only [List.length_take, List.length_map, List.length_range]
    omega

end Visit

theorem fold_rebase_frame {image : DearxanImage} {baseDiff : Word} {stream stream' : List Byte}
    {visits : List Visit}
    (relocated : GuardedFold.fold (Visit.rejects image baseDiff) (Visit.rebase baseDiff) stream visits
      = some stream') :
    stream'.length = stream.length ∧
      ∀ k, (∀ visit ∈ visits, ¬ visit.Covers k) → stream'[k]? = stream[k]? := by
  refine GuardedFold.fold_invariant (P := fun current => current.length = stream.length ∧
    ∀ k, (∀ visit ∈ visits, ¬ visit.Covers k) → current[k]? = stream[k]?) ?_ ⟨rfl, fun _ _ => rfl⟩ relocated
  rintro visit among current good ⟨length, same⟩
  have fits : visit.Fits current := by
    by_contra unfit
    simp [Visit.rejects, unfit] at good
  refine ⟨(Visit.length_rebase fits).trans length, fun k uncovered => ?_⟩
  rw [Visit.rebase_getElem? fits (uncovered visit among), same k uncovered]

theorem relocationPhase_stream (qsort : Sorting compareRegionReferences) (image : DearxanImage)
    (preferredBase : Word) (relocations : List Nat) {lists : List (Option EncryptedRegionList)}
    (sorted : ∀ list, some list ∈ lists → SortedRegions list.regions) {i : Nat} {list : EncryptedRegionList}
    (at_i : (processedLists lists)[i]? = some list) :
    (relocationPhase qsort image preferredBase relocations lists).stream i =
      GuardedFold.fold (Visit.rejects image (image.baseVa - preferredBase))
        (Visit.rebase (image.baseVa - preferredBase)) list.decryptedStream
        (visits (relocations.insertionSort (· ≤ ·)) list.regions) := by
  have sorted_processed : ∀ list ∈ processedLists lists, SortedRegions list.regions := by
    intro list among
    exact sorted list (List.reduceOption_mem_iff.mp (List.mem_filter.mp among).1)
  have before := fun list among => (sorted_processed list among).1
  have ordered := qsort.ordered (regionReferences_apart before)
  have finish : ∀ reference ∈ qsort.sort (regionReferences (processedLists lists)),
      reference.region.finish = reference.region.rva + reference.region.size := by
    intro reference among
    obtain ⟨⟨list, j⟩, at_j, among⟩ := List.mem_flatMap.mp ((qsort.perm _).mem_iff.mp among)
    obtain ⟨region, of_list, rfl⟩ := List.mem_map.mp among
    obtain ⟨rva, size⟩ := (sorted_processed list (List.fst_mem_of_mem_zipIdx at_j)).2 region of_list
    exact EncryptedRegion.finish_eq rva size
  rw [relocationPhase, relocateRegions_stream (List.pairwise_insertionSort _ _)
    (ordered.imp RegionReference.Ordered.rva_le) finish (fun _ _ => rfl), visitsAmong_sorted qsort _ before at_i]
  simp [Lists.stream, at_i]

/-- Each list is relocated as if it were alone, by a walk over its regions and all relocations. -/
theorem dearxanResolveEncryptedRegionLists_relocates (qsort : Sorting compareRegionReferences)
    (image : DearxanImage) (preferredBase : Word) {relocations : List Nat}
    (accepted : dearxanImageForEachRelocation64 image = some relocations)
    {lists : List (Option EncryptedRegionList)}
    (sorted : ∀ list, some list ∈ lists → SortedRegions list.regions) {i : Nat} {list : EncryptedRegionList}
    (at_i : (processedLists lists)[i]? = some list) :
    let baseDiff := image.baseVa - preferredBase
    let relocated := relocationPhase qsort image preferredBase relocations lists
    let walk := visits (relocations.insertionSort (· ≤ ·)) list.regions
    (∀ entropies, dearxanResolveEncryptedRegionLists qsort entropies image preferredBase
        (dearxanImageForEachRelocation64 image) lists =
      some (keptLists (processedLists lists)
        { relocated with
          eliminated := sweepAll entropies.exceeds (qsort.sort (regionReferences (processedLists lists)))
            fun j => relocated.eliminated j || entropies.atLeastImage j })) ∧
    (relocated.eliminated i = true ↔
      GuardedFold.Fails (Visit.rejects image baseDiff) (Visit.rebase baseDiff) list.decryptedStream walk) ∧
    (relocated.eliminated i = false →
      relocated.streams i = walk.foldl (Visit.rebase baseDiff) list.decryptedStream ∧
      (relocated.streams i).length = list.decryptedStream.length ∧
      ∀ k, (∀ visit ∈ walk, ¬ visit.Covers k) →
        (relocated.streams i)[k]? = list.decryptedStream[k]?) := by
  intro baseDiff relocated walk
  have stream : relocated.stream i = _ :=
    relocationPhase_stream qsort image preferredBase relocations sorted at_i
  refine ⟨fun entropies => ?_, ?_, fun kept => ?_⟩
  · have some_list : lists ≠ [] := by
      rintro rfl
      cases at_i
    rw [dearxanResolveEncryptedRegionLists_phase some_list, accepted]
    rfl
  · rw [← GuardedFold.fold_eq_none_iff, ← stream, Lists.stream]
    split <;> simp_all
  · rw [Lists.stream, if_neg (by simp [kept])] at stream
    obtain ⟨length, same⟩ := fold_rebase_frame stream.symm
    exact ⟨GuardedFold.fold_eq_some stream.symm, length, same⟩

/-- The directory has fourteen bytes at 512, with the relocations 0x148, 0x13c and 0x140. -/
private def relocatedByte (i : Nat) : Byte :=
  match i with
  | 0 => 0x4D | 1 => 0x5A | 60 => 0x40 | 64 => 0x50 | 65 => 0x45 | 88 => 0x0B | 89 => 0x02
  | 241 => 0x02 | 244 => 0x0E
  | 516 => 0x0E | 520 => 0x48 | 521 => 0xA1 | 522 => 0x3C | 523 => 0xA1 | 524 => 0x40 | 525 => 0xA1
  | _ => 0

private def relocatedImage : DearxanImage := ⟨(List.range 600).map relocatedByte, 0x140000000⟩

/-- The relocation 0x140 is at its start, and 0x148 ends with it. -/
private def upperList : EncryptedRegionList :=
  ⟨[⟨0, 16, 0x140⟩], [0x20, 0, 0, 0x80, 1, 0, 0, 0, 0x10, 0, 0, 0x80, 1, 0, 0, 0]⟩

/-- The relocation 0x13c ends with it, and 0x140 crosses its end. -/
private def lowerList : EncryptedRegionList := ⟨[⟨0, 12, 0x138⟩], [1, 2, 3, 4, 0x30, 0, 0, 0x80, 1, 0, 0, 0]⟩

private theorem meeting_sorted :
    ∀ list, some list ∈ [some upperList, some lowerList] → SortedRegions list.regions := by
  intro list among
  rcases List.mem_pair.mp among with same | same
  · cases same
    exact ⟨List.pairwise_singleton _ _, by decide⟩
  · cases same
    exact ⟨List.pairwise_singleton _ _, by decide⟩

theorem dearxanResolveEncryptedRegionLists_relocates_meeting :
    (relocationPhase insertionSorting relocatedImage 0x180000000 [0x148, 0x13C, 0x140]
        [some upperList, some lowerList]).streams 0 =
      (visits ([0x148, 0x13C, 0x140].insertionSort (· ≤ ·)) upperList.regions).foldl
        (Visit.rebase (relocatedImage.baseVa - 0x180000000)) upperList.decryptedStream ∧
    (relocationPhase insertionSorting relocatedImage 0x180000000 [0x148, 0x13C, 0x140]
        [some upperList, some lowerList]).streams 1 =
      (visits ([0x148, 0x13C, 0x140].insertionSort (· ≤ ·)) lowerList.regions).foldl
        (Visit.rebase (relocatedImage.baseVa - 0x180000000)) lowerList.decryptedStream := by
  have accepted : dearxanImageForEachRelocation64 relocatedImage = some [0x148, 0x13C, 0x140] := by decide +kernel
  have upper : (processedLists [some upperList, some lowerList])[0]? = some upperList := by decide +kernel
  have lower : (processedLists [some upperList, some lowerList])[1]? = some lowerList := by decide +kernel
  have kept : ∀ i < 2, (relocationPhase insertionSorting relocatedImage 0x180000000 [0x148, 0x13C, 0x140]
      [some upperList, some lowerList]).eliminated i = false := by decide +kernel
  have relocated {i : Nat} {list : EncryptedRegionList}
      (at_i : (processedLists [some upperList, some lowerList])[i]? = some list) :=
    dearxanResolveEncryptedRegionLists_relocates insertionSorting relocatedImage 0x180000000 accepted
      meeting_sorted at_i
  exact ⟨((relocated upper).2.2 (kept 0 (by decide))).1, ((relocated lower).2.2 (kept 1 (by decide))).1⟩

end Yafsml.Dearxan
