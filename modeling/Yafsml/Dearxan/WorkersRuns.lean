import Mathlib.Data.Finset.Card
import Mathlib.Data.List.Forall2
import Mathlib.Data.Finset.Range
import Yafsml.Dearxan.Workers
import Yafsml.Foundation.Tickets

/-!
# The threads agree with a single one

Every candidate is drawn by one thread, and its slot is written once.
-/

namespace Yafsml.Dearxan

open LittleEndian

section Candidates

variable {reserve : Nat → Bool}

theorem collectCandidates_other {byte : Byte} (other : byte ≠ 0x48) (va : Word) (rest : List Byte)
    (list : List Word) :
    collectCandidates reserve va (byte :: rest) list = collectCandidates reserve (va + 1) rest list := by
  rw [collectCandidates, if_neg]
  intro matches_
  rw [candidatePattern, List.isPrefixOf_cons_cons, Bool.and_eq_true, beq_iff_eq] at matches_
  exact other matches_.1.symm

theorem collectCandidates_behind (va : Word) (rest : List Byte) (list : List Word) :
    ∃ va', collectCandidates reserve va (candidatePattern.tail ++ rest) list =
      collectCandidates reserve va' rest list := by
  refine ⟨va + 1 + 1 + 1 + 1 + 1 + 1, ?_⟩
  simp only [candidatePattern, List.tail_cons, List.cons_append, List.nil_append]
  iterate 6 rw [collectCandidates_other (by decide)]

theorem collectCandidates_length {va : Word} {bytes : List Byte} {list found : List Word}
    (collected : collectCandidates reserve va bytes list = some found) :
    7 * found.length ≤ 7 * list.length + bytes.length := by
  induction length : bytes.length using Nat.strongRecOn generalizing va bytes list with
  | ind n ih =>
      cases bytes with
      | nil =>
          rw [collectCandidates] at collected
          cases collected
          omega
      | cons byte rest =>
          rw [collectCandidates] at collected
          rw [List.length_cons] at length
          split at collected
          · rename_i matches_
            split at collected
            · obtain ⟨behind, same⟩ := List.isPrefixOf_iff_prefix.mp matches_
              have tail : rest = candidatePattern.tail ++ behind := (List.cons.inj same).2.symm
              obtain ⟨va', passed⟩ := @collectCandidates_behind reserve (va + 1) behind (list ++ [va])
              rw [tail, passed] at collected
              have size := congrArg List.length tail
              rw [List.length_append, show candidatePattern.tail.length = 6 from rfl] at size
              have later := ih behind.length (by omega) collected rfl
              rw [List.length_append, List.length_singleton] at later
              omega
            · cases collected
          · have later := ih rest.length (by omega) collected rfl
            omega

theorem foldlM_collectCandidates {ranges : List (Word × List Byte)} {list found : List Word}
    (collected : ranges.foldlM (fun list range => collectCandidates reserve range.1 range.2 list) list =
      some found) :
    7 * found.length ≤ 7 * list.length + (ranges.map fun range => range.2.length).sum := by
  induction ranges generalizing list with
  | nil =>
      cases collected
      exact Nat.le_add_right _ _
  | cons first rest ih =>
      obtain ⟨middle, here, later⟩ := Option.bind_eq_some_iff.mp collected
      have front := collectCandidates_length here
      have back := ih later
      rw [List.map_cons, List.sum_cons]
      omega

theorem sectionRanges_length {image : DearxanImage} {headers : List SectionHeader}
    (apart : headers.Pairwise fun a b => a.virtualAddress + a.size ≤ b.virtualAddress) (low : Nat)
    (above : ∀ header ∈ headers, low ≤ header.virtualAddress) :
    ((headers.filterMap (sectionRange image)).map fun range => range.2.length).sum ≤
      image.bytes.length - low := by
  induction headers generalizing low with
  | nil => exact Nat.zero_le _
  | cons first rest ih =>
      obtain ⟨before, apart⟩ := List.pairwise_cons.mp apart
      have start := above first List.mem_cons_self
      have later := ih apart (first.virtualAddress + first.size) before
      rw [List.filterMap_cons, sectionRange]
      split_ifs with outside
      · dsimp only
        omega
      · dsimp only
        rw [List.map_cons, List.sum_cons, List.length_take, List.length_drop]
        omega

theorem candidates_length {request : AnalysisRequest} {candidates : List Word}
    (found : request.candidates = some candidates) : 7 * candidates.length < 2 ^ 32 := by
  obtain ⟨headers, sections, collected⟩ := Option.bind_eq_some_iff.mp found
  have count := foldlM_collectCandidates collected
  have total := @sectionRanges_length request.module.image headers
    (request.module.apart headers sections) 0 fun _ _ => Nat.zero_le _
  have small := request.module.small
  rw [List.length_nil] at count
  omega

end Candidates

def CandidateResult.regions (result : CandidateResult) : Option Nat := result.stub.bind OwnedStub.regions

theorem CandidateResult.of_regions (owner : Nat) (outcome : AnalysisOutcome) :
    (CandidateResult.of owner outcome).regions = some owner ∨ (CandidateResult.of owner outcome).regions = none := by
  cases outcome with
  | matched info =>
      cases regions : info.encryptedRegions with
      | none => exact .inr (by simp [CandidateResult.of, CandidateResult.regions, regions])
      | some list => exact .inl (by simp [CandidateResult.of, CandidateResult.regions, regions])
  | unmatched => exact .inr rfl
  | fatal => exact .inr rfl

theorem filterMap_set {α β : Type*} {f : α → Option β} {list : List α} {i : Nat} {old : α} (new : α)
    (at_i : list[i]? = some old) (free : f old = none) :
    ((list.set i new).filterMap f).Perm (list.filterMap f ++ (f new).toList) := by
  induction list generalizing i with
  | nil => cases at_i
  | cons first rest ih =>
      cases i with
      | zero =>
          cases at_i
          rw [List.set_cons_zero, List.filterMap_cons, List.filterMap_cons, free]
          cases f new with
          | none => exact .of_eq (List.append_nil _).symm
          | some b => exact (List.perm_append_singleton ..).symm
      | succ i =>
          rw [List.set_cons_succ, List.filterMap_cons, List.filterMap_cons]
          have later := ih at_i
          cases f first with
          | none => exact later
          | some b => exact later.cons b

def WorkerPhase.index : WorkerPhase → Option Nat
  | .analyze index => some index
  | _ => none

def WorkersState.tickets (count : Nat) (s : WorkersState) : Tickets Nat :=
  ⟨min s.nextIndex.toNat count, fun t => (s.workers t).index, s.analyzed⟩

def WorkersState.finishedWorkers (s : WorkersState) : Finset Nat :=
  (Finset.range analysisMaxWorkers).filter fun t => s.workers t = .done

structure WorkersState.Crew (s : WorkersState) : Prop where
  few : ∀ t, s.workers t ≠ .absent → t < analysisMaxWorkers
  fresh : ∀ i, s.main = .creating i → 1 ≤ i ∧ s.workers 0 = .absent ∧ ∀ t, i ≤ t → s.workers t = .absent
  joined : s.main = .joined → s.workers 0 = .done ∧ ∀ t, s.workers t = .absent ∨ s.workers t = .done

structure WorkersState.Sound (request : AnalysisRequest) (candidates : List Word) (s : WorkersState) : Prop where
  crew : s.Crew
  tickets : (s.tickets candidates.length).Sound
  beyond : s.nextIndex.toNat ≤ candidates.length + s.finishedWorkers.card
  done : ∀ t, s.workers t = .done → candidates.length ≤ s.nextIndex.toNat
  length : s.results.length = candidates.length
  cleared : ∀ i < candidates.length, i ∉ s.analyzed → s.results[i]? = some .cleared
  written : ∀ i ∈ s.analyzed, ∃ owner, s.results[i]? = some (.of owner (request.outcome candidates i))
  owned : (s.results.filterMap CandidateResult.regions).Perm (List.range s.allocated)

section Move

variable {s s' : WorkersState} {t : Nat} {phase : WorkerPhase}

theorem WorkersState.Crew.move (crew : s.Crew) (present : s.workers t ≠ .absent) (running : s.workers t ≠ .done)
    (moved : s'.workers = Function.update s.workers t phase) (main : s'.main = s.main) : s'.Crew where
  few u there := by
    rw [moved, Function.update_apply] at there
    split_ifs at there with here
    · rw [here]
      exact crew.few t present
    · exact crew.few u there
  fresh i creating := by
    obtain ⟨first, caller, others⟩ := crew.fresh i (main ▸ creating)
    have apart (u : Nat) (absent : s.workers u = .absent) : s'.workers u = .absent := by
      have other : u ≠ t := by
        rintro rfl
        exact present absent
      rw [moved, Function.update_of_ne other, absent]
    exact ⟨first, apart 0 caller, fun u later => apart u (others u later)⟩
  joined joined := by
    rcases (crew.joined (main ▸ joined)).2 t with absent | done
    · exact absurd absent present
    · exact absurd done running

theorem tickets_move (moved : s'.workers = Function.update s.workers t phase) (count : Nat) :
    (s'.tickets count).holds = Function.update (s.tickets count).holds t phase.index := by
  funext u
  change (s'.workers u).index = _
  rw [moved, Function.update_apply, Function.update_apply]
  split_ifs
  · rfl
  · rfl

theorem holds_same (moved : s'.workers = Function.update s.workers t phase) (before : (s.workers t).index = none)
    (after : phase.index = none) (count : Nat) : (s'.tickets count).holds = (s.tickets count).holds := by
  rw [tickets_move moved, after]
  exact Function.update_eq_self_iff.mpr before.symm

theorem finishedWorkers_move (moved : s'.workers = Function.update s.workers t phase) (running : s.workers t ≠ .done)
    (goes : phase ≠ .done) : s'.finishedWorkers = s.finishedWorkers := by
  apply Finset.filter_congr
  intro u _
  rw [moved, Function.update_apply]
  split_ifs with here
  · rw [here]
    exact iff_of_false goes running
  · rfl

theorem finishedWorkers_finish (moved : s'.workers = Function.update s.workers t .done)
    (running : s.workers t ≠ .done) (few : t < analysisMaxWorkers) :
    s'.finishedWorkers.card = s.finishedWorkers.card + 1 := by
  have one_more : s'.finishedWorkers = insert t s.finishedWorkers := by
    ext u
    rw [Finset.mem_insert, WorkersState.finishedWorkers, WorkersState.finishedWorkers, Finset.mem_filter,
      Finset.mem_filter, moved, Function.update_apply]
    split_ifs with here
    · rw [here, Finset.mem_range]
      exact ⟨fun _ => .inl rfl, fun _ => ⟨few, rfl⟩⟩
    · exact (or_iff_right here).symm
  rw [one_more, Finset.card_insert_of_notMem]
  exact fun finished => running (Finset.mem_filter.mp finished).2

theorem done_move (moved : s'.workers = Function.update s.workers t phase) (goes : phase ≠ .done) {u : Nat}
    (done : s'.workers u = .done) : s.workers u = .done := by
  rw [moved, Function.update_apply] at done
  split_ifs at done
  · exact absurd done goes
  · exact done

end Move

namespace WorkersState.Sound

variable {request : AnalysisRequest} {candidates : List Word} {s : WorkersState} {t : Nat}

theorem start : (WorkersState.start candidates).Sound request candidates where
  crew := by
    refine ⟨fun t present => absurd rfl present, fun i creating => ?_, nofun⟩
    cases creating
    exact ⟨Nat.le_refl _, rfl, fun _ _ => rfl⟩
  tickets := by
    have none_drawn : (WorkersState.start candidates).tickets candidates.length = Tickets.start Nat := by
      rw [WorkersState.tickets, Tickets.start]
      congr 1
    rw [none_drawn]
    exact Tickets.sound_start
  beyond := Nat.zero_le _
  done t := nofun
  length := List.length_replicate
  cleared i inside _ := List.getElem?_replicate_of_lt inside
  written := nofun
  owned := by
    have none_owned : (WorkersState.start candidates).results.filterMap CandidateResult.regions = [] := by
      rw [List.filterMap_eq_nil_iff]
      intro result member
      rw [List.eq_of_mem_replicate member]
      rfl
    rw [none_owned]
    exact .refl _

theorem appear (sound : s.Sound request candidates) {i : Nat} (absent : s.workers i = .absent) {main : MainPhase}
    (crew : ({ s.set i .take with main := main } : WorkersState).Crew) :
    ({ s.set i .take with main := main } : WorkersState).Sound request candidates where
  crew := crew
  tickets := by
    have same : ({ s.set i .take with main := main } : WorkersState).tickets candidates.length =
        s.tickets candidates.length :=
      congrArg (Tickets.mk _ · s.analyzed) (holds_same rfl (by rw [absent]; rfl) rfl candidates.length)
    rw [same]
    exact sound.tickets
  beyond := by
    rw [@finishedWorkers_move s _ i .take rfl (by rw [absent]; exact nofun) nofun]
    exact sound.beyond
  done u done := sound.done u (@done_move s { s.set i .take with main := main } i .take rfl nofun u done)
  length := sound.length
  cleared := sound.cleared
  written := sound.written
  owned := sound.owned

theorem few_drawn (sound : s.Sound request candidates) (bounded : 7 * candidates.length < 2 ^ 32) :
    s.nextIndex.toNat + 1 < 2 ^ 31 := by
  have threads : s.finishedWorkers.card ≤ analysisMaxWorkers := by
    have all := Finset.card_filter_le (Finset.range analysisMaxWorkers) fun t => s.workers t = .done
    rwa [Finset.card_range] at all
  have beyond := sound.beyond
  have eight : analysisMaxWorkers = 8 := rfl
  omega

end WorkersState.Sound

section Draw

variable {s : WorkersState} {count t : Nat}

theorem toNat_succ (few : s.nextIndex.toNat + 1 < 2 ^ 31) : (s.nextIndex + 1).toNat = s.nextIndex.toNat + 1 := by
  rw [BitVec.toNat_add]
  exact Nat.mod_eq_of_lt (Nat.lt_trans few (by decide))

theorem draw_eq (few : s.nextIndex.toNat + 1 < 2 ^ 31) :
    s.draw count t =
      { s.set t (if count ≤ s.nextIndex.toNat then .done else .analyze s.nextIndex.toNat) with
        nextIndex := s.nextIndex + 1 } := by
  have value : s.nextIndex.toInt = s.nextIndex.toNat := BitVec.toInt_eq_toNat_of_lt (by omega)
  have same : (s.nextIndex.toInt < 0 ∨ (count : Int) ≤ s.nextIndex.toInt) ↔ count ≤ s.nextIndex.toNat := by
    rw [value]
    omega
  rw [WorkersState.draw]
  dsimp only
  rw [BitVec.add_sub_cancel]
  simp only [same]

end Draw

namespace WorkersState.Sound

variable {request : AnalysisRequest} {candidates : List Word} {s : WorkersState} {t : Nat}

theorem draw_last (sound : s.Sound request candidates) (few : s.nextIndex.toNat + 1 < 2 ^ 31)
    (takes : s.workers t = .take) (all : candidates.length ≤ s.nextIndex.toNat) :
    ({ s.set t .done with nextIndex := s.nextIndex + 1 } : WorkersState).Sound request candidates where
  crew := sound.crew.move (by rw [takes]; exact nofun) (by rw [takes]; exact nofun) rfl rfl
  tickets := by
    have same : ({ s.set t .done with nextIndex := s.nextIndex + 1 } : WorkersState).tickets candidates.length =
        s.tickets candidates.length := by
      have holds := @holds_same s { s.set t .done with nextIndex := s.nextIndex + 1 } t .done rfl
        (by rw [takes]; rfl) rfl candidates.length
      have next : min (s.nextIndex + 1).toNat candidates.length = min s.nextIndex.toNat candidates.length := by
        rw [toNat_succ few]
        omega
      exact congrArg₂ (Tickets.mk · · s.analyzed) next holds
    rw [same]
    exact sound.tickets
  beyond := by
    rw [finishedWorkers_finish rfl (by rw [takes]; exact nofun) (sound.crew.few t (by rw [takes]; exact nofun))]
    change (s.nextIndex + 1).toNat ≤ _
    rw [toNat_succ few]
    have beyond := sound.beyond
    omega
  done u _ := by
    change _ ≤ (s.nextIndex + 1).toNat
    rw [toNat_succ few]
    omega
  length := sound.length
  cleared := sound.cleared
  written := sound.written
  owned := sound.owned

theorem draw_candidate (sound : s.Sound request candidates) (few : s.nextIndex.toNat + 1 < 2 ^ 31)
    (takes : s.workers t = .take) (more : s.nextIndex.toNat < candidates.length) :
    ({ s.set t (.analyze s.nextIndex.toNat) with nextIndex := s.nextIndex + 1 } : WorkersState).Sound request
      candidates where
  crew := sound.crew.move (by rw [takes]; exact nofun) (by rw [takes]; exact nofun) rfl rfl
  tickets := by
    have same : ({ s.set t (.analyze s.nextIndex.toNat) with nextIndex := s.nextIndex + 1 } :
        WorkersState).tickets candidates.length = (s.tickets candidates.length).draw t := by
      have holds := @tickets_move s
        { s.set t (.analyze s.nextIndex.toNat) with nextIndex := s.nextIndex + 1 } t _ rfl candidates.length
      have here : min s.nextIndex.toNat candidates.length = s.nextIndex.toNat := Nat.min_eq_left (Nat.le_of_lt more)
      have next : min (s.nextIndex + 1).toNat candidates.length = min s.nextIndex.toNat candidates.length + 1 := by
        rw [toNat_succ few]
        omega
      have number : some s.nextIndex.toNat = some (min s.nextIndex.toNat candidates.length) := by rw [here]
      rw [WorkerPhase.index, number] at holds
      exact congrArg₂ (Tickets.mk · · s.analyzed) next holds
    rw [same]
    exact sound.tickets.draw (by change (s.workers t).index = none; rw [takes]; rfl)
  beyond := by
    change (s.nextIndex + 1).toNat ≤ _
    rw [toNat_succ few]
    omega
  done u done := by
    have before := sound.done u (@done_move s { s.set t (.analyze s.nextIndex.toNat) with
      nextIndex := s.nextIndex + 1 } t _ rfl nofun u done)
    omega
  length := sound.length
  cleared := sound.cleared
  written := sound.written
  owned := sound.owned

theorem write (sound : s.Sound request candidates) {index : Nat} (analyzes : s.workers t = .analyze index) :
    (s.write (request.outcome candidates index) t index).Sound request candidates := by
  have holds : (s.tickets candidates.length).holds t = some index := by
    change (s.workers t).index = _
    rw [analyzes]
    rfl
  obtain ⟨drawn, fresh⟩ := sound.tickets.held t index holds
  have inside : index < candidates.length := Nat.lt_of_lt_of_le drawn (Nat.min_le_right _ _)
  have cleared := sound.cleared index inside fresh
  exact {
    crew := sound.crew.move (by rw [analyzes]; exact nofun) (by rw [analyzes]; exact nofun) rfl rfl
    tickets := by
      have same : (s.write (request.outcome candidates index) t index).tickets candidates.length =
          (s.tickets candidates.length).finish t index :=
        congrArg (Tickets.mk _ · _) (@tickets_move s _ t .take rfl candidates.length)
      rw [same]
      exact sound.tickets.finish holds
    beyond := by
      rw [@finishedWorkers_move s _ t .take rfl (by rw [analyzes]; exact nofun) nofun]
      exact sound.beyond
    done := fun u done => sound.done u (@done_move s
      (s.write (request.outcome candidates index) t index) t .take rfl nofun u done)
    length := (List.length_set ..).trans sound.length
    cleared := by
      intro i within unwritten
      have other : index ≠ i := fun here => unwritten (List.mem_append_right _ (here ▸ List.mem_cons_self))
      exact (List.getElem?_set_ne other ..).trans
        (sound.cleared i within fun earlier => unwritten (List.mem_append_left _ earlier))
    written := by
      intro i member
      rcases List.mem_append.mp member with earlier | here
      · have other : index ≠ i := fun here => fresh (here ▸ earlier)
        obtain ⟨owner, found⟩ := sound.written i earlier
        exact ⟨owner, (List.getElem?_set_ne other ..).trans found⟩
      · rw [List.mem_singleton.mp here]
        exact ⟨s.allocated, List.getElem?_set_self (by rw [sound.length]; exact inside)⟩
    owned := by
      have added := filterMap_set (f := CandidateResult.regions)
        (CandidateResult.of s.allocated (request.outcome candidates index)) cleared rfl
      refine added.trans ?_
      change _ = _ at cleared
      rcases CandidateResult.of_regions s.allocated (request.outcome candidates index) with own | none
      · have more : (s.write (request.outcome candidates index) t index).allocated = s.allocated + 1 :=
          if_pos (Option.isSome_iff_exists.mpr ⟨_, own⟩)
        rw [own, more, List.range_succ]
        exact sound.owned.append_right _
      · have same : (s.write (request.outcome candidates index) t index).allocated = s.allocated :=
          if_neg (by change ¬ (CandidateResult.regions _).isSome = true; rw [none]; exact nofun)
        rw [none, same, Option.toList_none, List.append_nil]
        exact sound.owned }

theorem step (bounded : 7 * candidates.length < 2 ^ 32) {s' : WorkersState}
    (step : WorkersStep request candidates s s') (sound : s.Sound request candidates) :
    s'.Sound request candidates := by
  cases step with
  | @create i creating more =>
      obtain ⟨first, caller, others⟩ := sound.crew.fresh i creating
      have few : i < analysisMaxWorkers := by
        refine Nat.lt_of_lt_of_le more (Nat.le_trans (Nat.min_le_left ..) ?_)
        split_ifs with capped
        · exact Nat.le_trans (Nat.le_of_lt capped.2) (Nat.min_le_right ..)
        · exact Nat.min_le_right ..
      have later (t : Nat) (after : i + 1 ≤ t) : s.workers t = .absent := others t (by omega)
      split
      · refine sound.appear (others i (Nat.le_refl _)) ⟨fun t present => ?_, fun j created => ?_, nofun⟩
        · change Function.update s.workers i .take t ≠ _ at present
          rw [Function.update_apply] at present
          split_ifs at present with here
          · exact here ▸ few
          · exact sound.crew.few t present
        · cases created
          refine ⟨Nat.le_succ_of_le first, ?_, fun t after => ?_⟩
          · exact (Function.update_of_ne (by omega) ..).trans caller
          · exact (Function.update_of_ne (by omega) ..).trans (later t after)
      · have crew : ({ s with main := .creating (i + 1) } : WorkersState).Crew := by
          refine ⟨sound.crew.few, fun j created => ?_, nofun⟩
          cases created
          exact ⟨Nat.le_succ_of_le first, caller, later⟩
        exact ⟨crew, sound.tickets, sound.beyond, sound.done, sound.length, sound.cleared, sound.written,
          sound.owned⟩
  | @work i creating all =>
      refine sound.appear (sound.crew.fresh i creating).2.1 ⟨fun t present => ?_, nofun, nofun⟩
      change Function.update s.workers 0 .take t ≠ _ at present
      rw [Function.update_apply] at present
      split_ifs at present with here
      · exact here ▸ Nat.zero_lt_succ _
      · exact sound.crew.few t present
  | draw takes =>
      have few := sound.few_drawn bounded
      rw [draw_eq few]
      split
      · exact sound.draw_last few takes ‹_›
      · exact sound.draw_candidate few takes (by omega)
  | write analyzes => exact sound.write analyzes
  | join working main others =>
      exact ⟨⟨sound.crew.few, nofun, fun _ => ⟨main, others⟩⟩, sound.tickets, sound.beyond, sound.done,
        sound.length, sound.cleared, sound.written, sound.owned⟩

theorem run (bounded : 7 * candidates.length < 2 ^ 32) (reach : WorkersReach request candidates s) :
    s.Sound request candidates := by
  induction reach with
  | refl => exact start
  | tail _ taken ih => exact ih.step bounded taken

theorem analyzed (sound : s.Sound request candidates) (joined : s.main = .joined) :
    s.analyzed.Perm (List.range candidates.length) := by
  obtain ⟨caller, others⟩ := sound.crew.joined joined
  have idle (t : Nat) : (s.tickets candidates.length).holds t = none := by
    change (s.workers t).index = none
    rcases others t with phase | phase
    · rw [phase]
      rfl
    · rw [phase]
      rfl
  have finished := sound.tickets.all_finished idle
  change s.analyzed.Perm (List.range (min s.nextIndex.toNat candidates.length)) at finished
  rwa [Nat.min_eq_right (sound.done 0 caller)] at finished

theorem results (sound : s.Sound request candidates) (joined : s.main = .joined) :
    List.Forall₂ (fun result outcome => ∃ owner, result = CandidateResult.of owner outcome) s.results
      ((List.range candidates.length).map (request.outcome candidates)) := by
  rw [List.forall₂_iff_get]
  refine ⟨by rw [sound.length, List.length_map, List.length_range], fun i inside within => ?_⟩
  have member : i ∈ s.analyzed :=
    (sound.analyzed joined).mem_iff.mpr (List.mem_range.mpr (by rwa [sound.length] at inside))
  obtain ⟨owner, found⟩ := sound.written i member
  refine ⟨owner, ?_⟩
  rw [List.getElem?_eq_getElem inside] at found
  rw [List.get_eq_getElem, List.get_eq_getElem, List.getElem_map, List.getElem_range]
  exact Option.some.inj found

end WorkersState.Sound

section Moved

variable {results : List CandidateResult} {outcomes : List AnalysisOutcome}
  (written : List.Forall₂ (fun result outcome => ∃ owner, result = CandidateResult.of owner outcome) results
    outcomes)

include written

theorem moveResults_stubs :
    (moveResults results).1.map OwnedStub.info = outcomes.filterMap AnalysisOutcome.stub := by
  induction written with
  | nil => rfl
  | @cons result outcome results outcomes here _ ih =>
      obtain ⟨owner, rfl⟩ := here
      cases outcome with
      | matched info => exact congrArg (List.cons info) ih
      | unmatched => exact ih
      | fatal => exact ih

theorem moveResults_errors : (moveResults results).2 ≠ 0 ↔ .fatal ∈ outcomes := by
  induction written with
  | nil => exact iff_of_false (fun wrong => wrong rfl) List.not_mem_nil
  | @cons result outcome results outcomes here _ ih =>
      obtain ⟨owner, rfl⟩ := here
      rw [List.mem_cons]
      cases outcome with
      | matched info => exact ih.trans (or_iff_right nofun).symm
      | unmatched => exact ih.trans (or_iff_right nofun).symm
      | fatal => exact iff_of_true (Nat.succ_ne_zero _) (.inl rfl)

theorem moveResults_regions :
    (moveResults results).1.filterMap OwnedStub.regions = results.filterMap CandidateResult.regions := by
  induction written with
  | nil => rfl
  | @cons result outcome results outcomes here _ ih =>
      obtain ⟨owner, rfl⟩ := here
      cases outcome with
      | matched info =>
          change List.filterMap OwnedStub.regions (_ :: (moveResults results).1) = _
          rw [List.filterMap_cons, List.filterMap_cons, ih]
          rfl
      | unmatched => exact ih
      | fatal => exact ih

end Moved

/-- What the call returns with any number of threads, in any order of their steps, is what one thread
returns. Every candidate was analyzed once, and every allocation of regions is owned by one stub or was
freed, once. -/
theorem analyzesAll_inOrder (request : AnalysisRequest) (result : AnalyzedStubs)
    (returns : AnalyzesAll request result) :
    (result.ok, result.stubs.map OwnedStub.info, result.errorMessage) = analyzeInOrder request ∧
      (result.stubs.filterMap OwnedStub.regions ++ result.freed).Perm (List.range result.allocated) ∧
      ∀ candidates, request.candidates = some candidates →
        (request.callocResults && request.callocItems) = true →
        result.analyzed.Perm (List.range candidates.length) := by
  cases returns with
  | unscanned failed =>
      refine ⟨by rw [analyzeInOrder, failed]; rfl, .refl _, fun candidates found => ?_⟩
      cases failed.symm.trans found
  | none empty =>
      refine ⟨by rw [analyzeInOrder, empty]; rfl, .refl _, fun candidates found _ => ?_⟩
      cases empty.symm.trans found
      exact .refl _
  | @unallocated candidates found nonempty failed =>
      refine ⟨?_, .refl _, fun _ _ memory => absurd (failed.symm.trans memory) nofun⟩
      rw [analyzeInOrder, found]
      exact (if_pos ⟨nonempty, failed⟩).symm
  | @joined candidates s found nonempty memory reach joined =>
      have sound := WorkersState.Sound.run (candidates_length found) reach
      have written := sound.results joined
      have stubs := moveResults_stubs written
      have errors := moveResults_errors written
      have regions := moveResults_regions written
      have inOrder : analyzeInOrder request =
          if .fatal ∈ (List.range candidates.length).map (request.outcome candidates) then
            (false, [], some "failed to analyze all Arxan stubs")
          else (true, (moveResults s.results).1.map OwnedStub.info, none) := by
        rw [analyzeInOrder, found, stubs]
        exact if_neg fun short => absurd (short.2.symm.trans memory) nofun
      have once (other : List Word) (found' : request.candidates = some other) :
          s.analyzed.Perm (List.range other.length) := by
        cases found.symm.trans found'
        exact sound.analyzed joined
      have owned := sound.owned
      rw [← regions] at owned
      rw [inOrder, AnalyzedStubs.of]
      by_cases fatal : (moveResults s.results).2 ≠ 0
      · rw [if_pos (errors.mp fatal)]
        rw [if_pos fatal]
        exact ⟨rfl, owned, fun other found' _ => once other found'⟩
      · rw [if_neg (mt errors.mpr fatal)]
        rw [if_neg fatal]
        exact ⟨rfl, (List.append_nil _).symm ▸ owned, fun other found' _ => once other found'⟩

private def twoCandidates : AnalysisRequest where
  module := {
    image := ⟨candidatePattern ++ candidatePattern, 0x140000000⟩
    sections := some [⟨0, 14, 14⟩]
    small := by decide
    apart := by simp }
  maxWorkers := 0
  processors := 8
  reserve := fun _ => true
  callocResults := true
  callocItems := true
  createThread := fun _ => true
  analysis := fun _ =>
    ⟨false, fun _ => none, fun _ => true, true, fun _ => ⟨true, fun _ => true, fun _ => true, true, none⟩⟩

private def atBoth : List Word := [0x140000000, 0x140000007]

private def outcomeAt : Nat → AnalysisOutcome := twoCandidates.outcome atBoth

private def bothDrawn : WorkersState :=
  let created := { (WorkersState.start atBoth).set 1 .take with main := .creating 2 }
  (({ created.set 0 .take with main := .working } : WorkersState).draw 2 1).draw 2 0

private def bothWritten : WorkersState :=
  (bothDrawn.write (outcomeAt 1) 0 1).write (outcomeAt 0) 1 0

private def bothJoined : WorkersState :=
  { (bothWritten.draw 2 0).draw 2 1 with main := .joined }

private theorem both_reach : WorkersReach twoCandidates atBoth bothJoined := by
  refine .tail (.tail (.tail ?_ (.draw rfl)) (.draw rfl)) (.join rfl rfl fun t => ?_)
  · exact .tail (.tail (.tail (.tail (.tail (.tail .refl (.create rfl (by decide))) (.work rfl (by decide)))
      (.draw rfl)) (.draw rfl)) (.write rfl)) (.write rfl)
  · match t with
    | 0 => exact .inr rfl
    | 1 => exact .inr rfl
    | t + 2 => exact .inl rfl

/-- The second candidate is analyzed first. -/
theorem analyzesAll_inOrder_two : (AnalyzedStubs.of bothJoined).analyzed = [1, 0] ∧
    ((AnalyzedStubs.of bothJoined).ok, (AnalyzedStubs.of bothJoined).stubs.map OwnedStub.info,
      (AnalyzedStubs.of bothJoined).errorMessage) = analyzeInOrder twoCandidates := by
  have found : twoCandidates.candidates = some atBoth := by decide
  exact ⟨by decide, (analyzesAll_inOrder twoCandidates _ (.joined found (by decide) rfl both_reach rfl)).1⟩

end Yafsml.Dearxan
