import Mathlib.Data.List.Pairwise
import Mathlib.Data.List.ReduceOption
import Yafsml.Dearxan.Regions

/-! # The surviving lists do not overlap -/

namespace Yafsml.Dearxan

open LittleEndian

namespace EncryptedRegion

def InBounds (r : EncryptedRegion) : Prop := r.rva + r.size < 2 ^ 32

def Before (p q : EncryptedRegion) : Prop := p.rva + p.size ≤ q.rva

def Apart (p q : EncryptedRegion) : Prop := Before p q ∨ Before q p

instance : Std.Symm Apart := ⟨fun _ _ => Or.symm⟩

theorem InBounds.finish_eq {r : EncryptedRegion} (bounded : r.InBounds) : r.finish = r.rva + r.size := by
  apply Nat.mod_eq_of_lt
  exact Nat.lt_trans bounded (by decide)

end EncryptedRegion

/-- Sorted and disjoint, as the parser yields the regions of a list. -/
def WellFormedRegions (regions : List EncryptedRegion) : Prop :=
  regions.Pairwise EncryptedRegion.Before ∧ ∀ r ∈ regions, r.InBounds

theorem parseRegions_bounds {fuel rva streamOffset : Nat} {bytes : List Byte}
    {regions : List EncryptedRegion} {streamSize : Nat}
    (parsed : parseRegions fuel rva streamOffset bytes = some (regions, streamSize)) :
    WellFormedRegions regions ∧ ∀ r ∈ regions, rva ≤ r.rva := by
  induction fuel generalizing rva streamOffset bytes regions streamSize with
  | zero => cases parsed
  | succ fuel ih =>
      simp only [parseRegions, Option.bind_eq_bind, Option.bind_eq_some_iff, Prod.exists] at parsed
      obtain ⟨delta, rest, -, parsed⟩ := parsed
      split_ifs at parsed with bad finished
      · cases parsed
        simp [WellFormedRegions]
      · simp only [Option.bind_eq_some_iff, Prod.exists] at parsed
        obtain ⟨size, rest, -, parsed⟩ := parsed
        split_ifs at parsed with bad'
        simp only [Option.bind_eq_some_iff, Prod.exists] at parsed
        obtain ⟨behind, streamSize', parsed, made⟩ := parsed
        cases made
        obtain ⟨⟨ordered, bounded⟩, later⟩ := ih parsed
        have here : rva + delta + size < 2 ^ 32 := by
          simp only [uint32Max] at bad bad'
          omega
        refine ⟨⟨List.pairwise_cons.mpr ⟨later, ordered⟩, ?_⟩, ?_⟩
        · intro r among
          cases among with
          | head => exact here
          | tail _ among => exact bounded r among
        · intro r among
          cases among with
          | head => exact Nat.le_add_right rva delta
          | tail _ among => have := later r among; omega

theorem dearxanParseEncryptedRegions_wellFormed {bytes : List Byte} {regions : List EncryptedRegion}
    {streamSize : Nat} (parsed : dearxanParseEncryptedRegions bytes = some (regions, streamSize)) :
    WellFormedRegions regions :=
  (parseRegions_bounds parsed).1

/-- What sorting gives of two references, the first before the second. -/
structure RegionReference.Ordered (p q : RegionReference) : Prop where
  rva_le : p.region.rva ≤ q.region.rva
  size_le : p.region.rva = q.region.rva → p.region.size ≤ q.region.size
  same_list : p.listIndex = q.listIndex → p.region.Before q.region

theorem RegionReference.Ordered.before {p q : RegionReference} (ordered : p.Ordered q)
    (bounded : p.region.InBounds) (bounded' : q.region.InBounds)
    (apart : regionsIntersect p.region q.region = false) : p.region.Before q.region := by
  have := ordered.rva_le
  have := ordered.size_le
  simp only [regionsIntersect, bounded.finish_eq, bounded'.finish_eq] at apart
  unfold EncryptedRegion.Before
  split_ifs at apart with shorter <;> simp only [decide_eq_false_iff_not] at apart <;> omega

theorem sweep_eliminated (exceeds : Nat → Nat → Bool) (best : RegionReference)
    (references : List RegionReference) (eliminated : Nat → Bool) (i : Nat) (gone : eliminated i = true) :
    sweep exceeds best references eliminated i = true := by
  induction references generalizing best eliminated with
  | nil => exact gone
  | cons current rest ih =>
      have kept (j : Nat) : Function.update eliminated j true i = true := by
        simp [Function.update_apply, gone]
      simp only [sweep]
      split_ifs
      · exact ih current eliminated gone
      · exact ih best eliminated gone
      · exact ih current eliminated gone
      · exact ih current _ (kept _)
      · exact ih best _ (kept _)

def survivors (references : List RegionReference) (eliminated : Nat → Bool) : List RegionReference :=
  references.filter fun reference => !eliminated reference.listIndex

theorem survivors_cons_eliminated {reference : RegionReference} {references : List RegionReference}
    {eliminated : Nat → Bool} (gone : eliminated reference.listIndex = true) :
    survivors (reference :: references) eliminated = survivors references eliminated := by
  simp [survivors, gone]

theorem survivors_subset {references : List RegionReference} {eliminated : Nat → Bool} {q : RegionReference}
    (among : q ∈ survivors references eliminated) : q ∈ references :=
  (List.mem_filter.mp among).1

theorem survivors_cons_cons {best current : RegionReference} {rest : List RegionReference}
    {eliminated : Nat → Bool} (before : best.region.Before current.region)
    (ordered : ∀ q ∈ rest, current.Ordered q)
    (behind : (survivors (current :: rest) eliminated).Pairwise fun p q => p.region.Before q.region) :
    (survivors (best :: current :: rest) eliminated).Pairwise fun p q => p.region.Before q.region := by
  cases gone : eliminated best.listIndex with
  | true => rw [survivors_cons_eliminated gone]; exact behind
  | false =>
      have split : survivors (best :: current :: rest) eliminated
          = best :: survivors (current :: rest) eliminated := by
        simp [survivors, gone]
      rw [split]
      apply List.pairwise_cons.mpr ⟨_, behind⟩
      intro q among
      cases survivors_subset among with
      | head => exact before
      | tail _ among => exact Nat.le_trans before (ordered q among).rva_le

theorem sweep_survivors (exceeds : Nat → Nat → Bool) {best : RegionReference}
    {references : List RegionReference} {eliminated : Nat → Bool}
    (ordered : (best :: references).Pairwise RegionReference.Ordered)
    (bounded : ∀ r ∈ best :: references, r.region.InBounds)
    (live : eliminated best.listIndex = false) :
    (survivors (best :: references) (sweep exceeds best references eliminated)).Pairwise
      fun p q => p.region.Before q.region := by
  induction references generalizing best eliminated with
  | nil =>
      apply List.Pairwise.sublist List.filter_sublist
      exact List.pairwise_singleton _ _
  | cons current rest ih =>
      obtain ⟨from_best, from_current⟩ := List.pairwise_cons.mp ordered
      have best_current : best.Ordered current := from_best current List.mem_cons_self
      have from_current' : ∀ q ∈ rest, current.Ordered q := (List.pairwise_cons.mp from_current).1
      have without : (best :: rest).Pairwise RegionReference.Ordered :=
        List.pairwise_cons.mpr ⟨fun q among => from_best q (List.mem_cons_of_mem _ among),
          (List.pairwise_cons.mp from_current).2⟩
      have bounded_current : ∀ r ∈ current :: rest, r.region.InBounds :=
        fun r among => bounded r (List.mem_cons_of_mem _ among)
      have bounded_best : ∀ r ∈ best :: rest, r.region.InBounds := by
        intro r among
        cases among with
        | head => exact bounded best List.mem_cons_self
        | tail _ among => exact bounded_current r (List.mem_cons_of_mem _ among)
      -- where the current one is given up, the best one stays
      have skip {e : Nat → Bool} (gone : e current.listIndex = true) (kept : e best.listIndex = false) :
          (survivors (best :: current :: rest) (sweep exceeds best rest e)).Pairwise
            fun p q => p.region.Before q.region := by
        have swap : survivors (best :: current :: rest) (sweep exceeds best rest e)
            = survivors (best :: rest) (sweep exceeds best rest e) := by
          have := sweep_eliminated exceeds best rest e current.listIndex gone
          simp [survivors, List.filter_cons, this]
        rw [swap]
        exact ih without bounded_best kept
      simp only [sweep]
      split_ifs with same gone apart loses
      · apply survivors_cons_cons (best_current.same_list same.symm) from_current'
        apply ih from_current bounded_current
        rw [same]
        exact live
      · exact skip gone live
      · have before : best.region.Before current.region := by
          apply best_current.before (bounded best List.mem_cons_self)
            (bounded_current current List.mem_cons_self)
          simpa using apart
        apply survivors_cons_cons before from_current'
        exact ih from_current bounded_current (by simpa using gone)
      · rw [survivors_cons_eliminated (sweep_eliminated _ _ _ _ _ (Function.update_self ..))]
        apply ih from_current bounded_current
        rw [Function.update_of_ne same]
        simpa using gone
      · apply skip (Function.update_self ..)
        rw [Function.update_of_ne (Ne.symm same)]
        exact live

theorem sweepAll_survivors (exceeds : Nat → Nat → Bool) {references : List RegionReference}
    {eliminated : Nat → Bool} (ordered : references.Pairwise RegionReference.Ordered)
    (bounded : ∀ r ∈ references, r.region.InBounds) :
    (survivors references (sweepAll exceeds references eliminated)).Pairwise
      fun p q => p.region.Before q.region := by
  induction references with
  | nil => exact List.Pairwise.nil
  | cons reference references ih =>
      cases gone : eliminated reference.listIndex with
      | true =>
          have tail : sweepAll exceeds (reference :: references) eliminated
              = sweepAll exceeds references eliminated := by
            simp [sweepAll, gone]
          have gone' : sweepAll exceeds references eliminated reference.listIndex = true := by
            simp only [sweepAll]
            cases references.dropWhile fun reference => eliminated reference.listIndex with
            | nil => exact gone
            | cons best rest => exact sweep_eliminated exceeds best rest eliminated _ gone
          rw [tail, survivors_cons_eliminated gone']
          exact ih (List.pairwise_cons.mp ordered).2 fun r among => bounded r (List.mem_cons_of_mem _ among)
      | false =>
          have here : sweepAll exceeds (reference :: references) eliminated
              = sweep exceeds reference references eliminated := by
            simp [sweepAll, gone]
          rw [here]
          exact sweep_survivors exceeds ordered bounded gone

theorem regionReferences_apart {processed : List EncryptedRegionList}
    (sorted : ∀ list ∈ processed, list.regions.Pairwise EncryptedRegion.Before) :
    (regionReferences processed).Pairwise fun p q =>
      p.listIndex = q.listIndex → p.region.Apart q.region := by
  unfold regionReferences
  generalize 0 = first
  induction processed generalizing first with
  | nil => exact List.Pairwise.nil
  | cons list rest ih =>
      rw [List.zipIdx_cons, List.flatMap_cons]
      apply List.pairwise_append.mpr
      refine ⟨?_, ih (fun l among => sorted l (List.mem_cons_of_mem _ among)) (first + 1), ?_⟩
      · apply List.pairwise_map.mpr
        apply (sorted list List.mem_cons_self).imp
        intro p q before _
        exact Or.inl before
      · intro p p_among q q_among same
        obtain ⟨region, -, rfl⟩ := List.mem_map.mp p_among
        obtain ⟨⟨list', i⟩, at_i, q_among⟩ := List.mem_flatMap.mp q_among
        obtain ⟨region', -, rfl⟩ := List.mem_map.mp q_among
        have := List.le_snd_of_mem_zipIdx at_i
        change first = i at same
        change first + 1 ≤ i at this
        omega

theorem regionReferences_inBounds {processed : List EncryptedRegionList}
    (wellFormed : ∀ list ∈ processed, WellFormedRegions list.regions) :
    ∀ r ∈ regionReferences processed, r.region.InBounds := by
  intro r among
  obtain ⟨⟨list, i⟩, at_i, at_region⟩ := List.mem_flatMap.mp among
  obtain ⟨region, at_list, rfl⟩ := List.mem_map.mp at_region
  exact (wellFormed list (List.fst_mem_of_mem_zipIdx at_i)).2 region at_list

theorem Sorting.ordered (qsort : Sorting compareRegionReferences) {references : List RegionReference}
    (apart : references.Pairwise fun p q => p.listIndex = q.listIndex → p.region.Apart q.region) :
    (qsort.sort references).Pairwise RegionReference.Ordered := by
  have apart' : (qsort.sort references).Pairwise fun p q =>
      p.listIndex = q.listIndex → p.region.Apart q.region := by
    apply ((qsort.perm references).pairwise_iff ?_).mpr apart
    intro p q apart same
    exact (apart same.symm).symm
  apply (List.Pairwise.and (qsort.sorted references) apart').imp
  rintro p q ⟨sorted, apart⟩
  simp only [compareRegionReferences, Bool.or_eq_true, Bool.and_eq_true, decide_eq_true_eq] at sorted
  constructor
  · omega
  · omega
  · intro same
    have := apart same
    simp only [EncryptedRegion.Apart, EncryptedRegion.Before] at this ⊢
    omega

theorem keptLists_regions (processed : List EncryptedRegionList) (lists : Lists) :
    (keptLists processed lists).flatMap EncryptedRegionList.regions
      = (survivors (regionReferences processed) lists.eliminated).map RegionReference.region := by
  unfold keptLists regionReferences
  induction processed.zipIdx with
  | nil => rfl
  | cons entry rest ih =>
      obtain ⟨list, i⟩ := entry
      rw [List.flatMap_cons, survivors, List.filter_append, List.map_append, ← survivors, ← survivors, ← ih]
      cases gone : lists.eliminated i with
      | true => simp [survivors, gone, List.filter_map, Function.comp_def]
      | false => simp [survivors, gone, List.filter_map, Function.comp_def]

theorem processedLists_wellFormed {lists : List (Option EncryptedRegionList)}
    (wellFormed : ∀ list, some list ∈ lists → WellFormedRegions list.regions) :
    ∀ list ∈ processedLists lists, WellFormedRegions list.regions := by
  intro list among
  apply wellFormed list
  exact List.reduceOption_mem_iff.mp (List.mem_filter.mp among).1

theorem survivors_apart (qsort : Sorting compareRegionReferences) (exceeds : Nat → Nat → Bool)
    {processed : List EncryptedRegionList} (eliminated : Nat → Bool)
    (wellFormed : ∀ list ∈ processed, WellFormedRegions list.regions) :
    (survivors (regionReferences processed)
      (sweepAll exceeds (qsort.sort (regionReferences processed)) eliminated)).Pairwise
        fun p q => p.region.Apart q.region := by
  apply (((qsort.perm _).filter _).pairwise_iff Or.symm).mp
  have apart := regionReferences_apart fun list among => (wellFormed list among).1
  apply (sweepAll_survivors exceeds (qsort.ordered apart) ?_).imp
  · intro p q before
    exact Or.inl before
  · intro r among
    exact regionReferences_inBounds wellFormed r ((qsort.perm _).mem_iff.mp among)

theorem dearxanResolveEncryptedRegionLists_apart {qsort : Sorting compareRegionReferences}
    {entropies : Entropies} {image : DearxanImage} {preferredBase : Word} {relocations : Option (List Nat)}
    {lists : List (Option EncryptedRegionList)} {resolved : List EncryptedRegionList}
    (wellFormed : ∀ list, some list ∈ lists → WellFormedRegions list.regions)
    (resolves : dearxanResolveEncryptedRegionLists qsort entropies image preferredBase relocations lists
      = some resolved) :
    (resolved.flatMap EncryptedRegionList.regions).Pairwise EncryptedRegion.Apart
      ∧ ∀ r ∈ resolved.flatMap EncryptedRegionList.regions, r.InBounds := by
  unfold dearxanResolveEncryptedRegionLists at resolves
  split_ifs at resolves
  · cases resolves
    simp
  · obtain ⟨relocations, -, rfl⟩ := Option.map_eq_some_iff.mp resolves
    have wellFormed := processedLists_wellFormed wellFormed
    rw [keptLists_regions]
    constructor
    · apply List.pairwise_map.mpr
      dsimp only
      exact survivors_apart qsort entropies.exceeds _ wellFormed
    · intro r among
      obtain ⟨reference, survives, rfl⟩ := List.mem_map.mp among
      exact regionReferences_inBounds wellFormed reference (survivors_subset survives)

end Yafsml.Dearxan
