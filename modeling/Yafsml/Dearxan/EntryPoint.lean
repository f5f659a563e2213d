import Yafsml.Dearxan.Relocations
import Yafsml.Dearxan.VmMemory
import Yafsml.Foundation.Interleaving
import Yafsml.Foundation.Tally

/-!
# The security cookie

Before the entry point the cookie has a known value. Its address is what the code refers to most, or
what the load configuration of the image says, and it is looked for until it is found once.
-/

namespace Yafsml.Dearxan

open Interleaving LittleEndian Tally

/-! ## Sections -/

def sizeofSectionHeader : Nat := 40

/-- `IMAGE_FIRST_SECTION`: the table is behind the optional header. -/
def imageFirstSection (bytes : List Byte) (ntOffset : Nat) : Nat := ntOffset + 24 + word16At bytes (ntOffset + 20)

def sectionAt (image : DearxanImage) (header : Nat) : Option (Word × List Byte) :=
  let virtualSize := word32At image.bytes (header + 8)
  let rva := word32At image.bytes (header + 12)
  let size := if virtualSize = 0 then word32At image.bytes (header + 16) else virtualSize
  if image.bytes.length ≤ rva then none
  else some (image.baseVa + .ofNat 64 rva, (image.bytes.drop rva).take (min size (image.bytes.length - rva)))

/-- What `dearxan_image_for_each_section` calls back with. -/
def imageSections (image : DearxanImage) : Option (List (Word × List Byte)) :=
  (imageNtHeaders image.bytes).bind fun ntOffset =>
    let table := imageFirstSection image.bytes ntOffset
    let count := word16At image.bytes (ntOffset + 6)
    if image.bytes.length < table || (image.bytes.length - table) / sizeofSectionHeader < count then none
    else some ((List.range count).filterMap fun i => sectionAt image (table + sizeofSectionHeader * i))

def sizeofDataDirectories : Nat := 16

def imageDataDirectory (image : DearxanImage) (index : Nat) : Option (Nat × Nat) :=
  (imageNtHeaders image.bytes).bind fun ntOffset =>
    if word32At image.bytes (ntOffset + 132) ≤ index || sizeofDataDirectories ≤ index then none
    else
      let rva := word32At image.bytes (ntOffset + 136 + 8 * index)
      let size := word32At image.bytes (ntOffset + 136 + 8 * index + 4)
      if rva = 0 || size = 0 then none else some (rva, size)

/-! ## Looking for the cookie -/

/-- `xor rax, rsp` -/
def cookiePattern : List Byte := [0x48, 0x33, 0xc4]

/-- What the instruction before the pattern at `i` refers to. -/
def cookieReference (va : Word) (bytes : List Byte) (i : Nat) : Word :=
  va + .ofNat 64 i + (field32 bytes (i - 4)).signExtend 64

/-- `cookie_scan_context_t`: the addresses and their counts. -/
structure CookieScan where
  counts : List (Word × Nat)
  found : Word
  deriving DecidableEq, Repr

def cookieCapacity : Nat := 256

def cookieThreshold : Nat := 16

/-- The loop of `scan_cookie_references` at the given positions. -/
def scanPositions (va : Word) (bytes : List Byte) : List Nat → CookieScan → CookieScan × Bool
  | [], context => (context, true)
  | i :: rest, context =>
      if (bytes.drop i).take cookiePattern.length ≠ cookiePattern then scanPositions va bytes rest context
      else
        let address := cookieReference va bytes i
        let counts := bump cookieCapacity address context.counts
        if cookieThreshold ≤ countIn counts address then (⟨counts, address⟩, false)
        else scanPositions va bytes rest { context with counts }

/-- The positions that have a displacement before them and room for the pattern. -/
def cookiePositions (bytes : List Byte) : List Nat := List.range' 4 (bytes.length - 6)

def scanCookieReferences (va : Word) (bytes : List Byte) (context : CookieScan) : CookieScan × Bool :=
  scanPositions va bytes (cookiePositions bytes) context

/-- `dearxan_image_for_each_section` with this callback. -/
def scanSections : List (Word × List Byte) → CookieScan → CookieScan
  | [], context => context
  | (va, bytes) :: rest, context =>
      let (context, more) := scanCookieReferences va bytes context
      if more then scanSections rest context else context

def loadConfigEntry : Nat := 10

/-- The offset of `SecurityCookie` in `IMAGE_LOAD_CONFIG_DIRECTORY64`. -/
def securityCookieOffset : Nat := 88

def loadConfigGsCookie (image : DearxanImage) : Word :=
  match imageDataDirectory image loadConfigEntry with
  | none => 0
  | some (rva, size) =>
      if size < securityCookieOffset + 8 then 0
      else
        match dearxanImageRead (some image) (image.baseVa + .ofNat 64 rva) (securityCookieOffset + 8) with
        | none => 0
        | some bytes =>
            let cookie := field64 bytes securityCookieOffset
            if cookie = 0 || (dearxanImageRead (some image) cookie 8).isNone then 0 else cookie

def findGsCookie (image : DearxanImage) : Word :=
  let context := (imageSections image).elim ⟨[], 0⟩ fun sections => scanSections sections ⟨[], 0⟩
  if context.found ≠ 0 then context.found else loadConfigGsCookie image

/-! ## What is found -/

def referencesAt (va : Word) (bytes : List Byte) (positions : List Nat) : List Word :=
  (positions.filter fun i => (bytes.drop i).take cookiePattern.length = cookiePattern).map (cookieReference va bytes)

/-- All that the instructions before the pattern refer to, in the order of the scan. -/
def cookieReferences (va : Word) (bytes : List Byte) : List Word := referencesAt va bytes (cookiePositions bytes)

theorem mem_cookieReferences {va v : Word} {bytes : List Byte} :
    v ∈ cookieReferences va bytes ↔ ∃ i, 4 ≤ i ∧ i + 3 ≤ bytes.length ∧
      (bytes.drop i).take 3 = cookiePattern ∧ v = va + .ofNat 64 i + (field32 bytes (i - 4)).signExtend 64 := by
  simp only [cookieReferences, referencesAt, cookiePositions, List.mem_map, List.mem_filter, List.mem_range'_1, decide_eq_true_eq]
  constructor
  · rintro ⟨i, ⟨⟨low, high⟩, here⟩, rfl⟩
    exact ⟨i, low, by omega, here, rfl⟩
  · rintro ⟨i, low, high, here, rfl⟩
    exact ⟨i, ⟨⟨low, by omega⟩, here⟩, rfl⟩

section Scan

variable {va : Word} {bytes : List Byte} {positions : List Nat} {context : CookieScan} {v : Word}

theorem scanPositions_some
    (reached : reach cookieCapacity cookieThreshold context.counts (referencesAt va bytes positions) = some v) :
    ∃ counts, scanPositions va bytes positions context = (⟨counts, v⟩, false) := by
  induction positions generalizing context with
  | nil => cases reached
  | cons i rest ih =>
      rw [scanPositions]
      by_cases here : (bytes.drop i).take cookiePattern.length = cookiePattern
      · rw [referencesAt, List.filter_cons_of_pos (by simpa using here), List.map_cons, reach] at reached
        rw [if_neg (not_not.mpr here)]
        dsimp only
        split_ifs at reached ⊢ with enough
        · cases reached
          exact ⟨_, rfl⟩
        · exact ih reached
      · rw [referencesAt, List.filter_cons_of_neg (by simpa using here)] at reached
        rw [if_pos here]
        exact ih reached

theorem scanPositions_none
    (reached : reach cookieCapacity cookieThreshold context.counts (referencesAt va bytes positions) = none) :
    scanPositions va bytes positions context =
      ({ context with
          counts := (referencesAt va bytes positions).foldl (fun counts v => bump cookieCapacity v counts)
            context.counts }, true) := by
  induction positions generalizing context with
  | nil => rfl
  | cons i rest ih =>
      rw [scanPositions]
      by_cases here : (bytes.drop i).take cookiePattern.length = cookiePattern
      · have more : referencesAt va bytes (i :: rest) = cookieReference va bytes i :: referencesAt va bytes rest := by
          rw [referencesAt, List.filter_cons_of_pos (by simpa using here), List.map_cons, referencesAt]
        rw [more, reach] at reached
        rw [if_neg (not_not.mpr here), more]
        dsimp only
        split_ifs at reached ⊢ with enough
        exact ih reached
      · have same : referencesAt va bytes (i :: rest) = referencesAt va bytes rest := by
          rw [referencesAt, List.filter_cons_of_neg (by simpa using here), referencesAt]
        rw [same] at reached ⊢
        rw [if_pos here]
        exact ih reached

end Scan

theorem scanSections_found (sections : List (Word × List Byte)) (context : CookieScan) :
    (scanSections sections context).found =
      (reach cookieCapacity cookieThreshold context.counts
        (sections.flatMap fun s => cookieReferences s.1 s.2)).getD context.found := by
  induction sections generalizing context with
  | nil => rfl
  | cons first rest ih =>
      obtain ⟨va, bytes⟩ := first
      rw [List.flatMap_cons, reach_append, scanSections, scanCookieReferences]
      cases reached : reach cookieCapacity cookieThreshold context.counts (cookieReferences va bytes) with
      | some v =>
          obtain ⟨counts, scanned⟩ := scanPositions_some reached
          simp [scanned]
      | none =>
          simp only [scanPositions_none reached, if_true, ih]
          rfl

/-- The references up to this one are the first to name any address so often. -/
def FirstReached (refs : List Word) (v : Word) : Prop :=
  ∃ before rest, refs = before ++ v :: rest ∧ Hit cookieCapacity cookieThreshold (before ++ [v]) v ∧
    ∀ b, ¬ Hit cookieCapacity cookieThreshold before b

section Find

variable {image : DearxanImage}

theorem mem_imageSections {sections : List (Word × List Byte)} (listed : imageSections image = some sections)
    {va : Word} {bytes : List Byte} (among : (va, bytes) ∈ sections) :
    ∃ rva < image.bytes.length, va = image.baseVa + .ofNat 64 rva ∧
      bytes = (image.bytes.drop rva).take bytes.length := by
  obtain ⟨ntOffset, _, rest⟩ := Option.bind_eq_some_iff.mp listed
  dsimp only at rest
  split_ifs at rest
  cases rest
  obtain ⟨i, _, here⟩ := List.mem_filterMap.mp among
  unfold sectionAt at here
  dsimp only at here
  split_ifs at here with past
  all_goals
    cases here
    refine ⟨_, Nat.lt_of_not_le past, rfl, ?_⟩
    rw [List.length_take, List.length_drop]
    simp

theorem loadConfigGsCookie_inside (found : loadConfigGsCookie image ≠ 0) :
    image.baseVa ≤ loadConfigGsCookie image ∧
      (loadConfigGsCookie image - image.baseVa).toNat + 8 ≤ image.bytes.length := by
  generalize told : loadConfigGsCookie image = cookie at found ⊢
  unfold loadConfigGsCookie at told
  cases directory : imageDataDirectory image loadConfigEntry with
  | none => exact absurd (by simpa [directory] using told.symm) found
  | some entry =>
      obtain ⟨rva, size⟩ := entry
      simp only [directory] at told
      split_ifs at told with small
      · exact absurd told.symm found
      cases read : dearxanImageRead (some image) (image.baseVa + .ofNat 64 rva) (securityCookieOffset + 8) with
      | none => exact absurd (by simpa [read] using told.symm) found
      | some bytes =>
          simp only [read] at told
          split_ifs at told with outside
          · exact absurd told.symm found
          · subst told
            simp only [Bool.or_eq_true, Option.isNone_iff_eq_none, not_or] at outside
            exact dearxanImageRead_some_isSome_iff.mp (Option.isSome_iff_ne_none.mpr outside.2)

theorem reach_iff {refs : List Word} {v : Word} :
    reach cookieCapacity cookieThreshold [] refs = some v ↔ FirstReached refs v := reach_eq_some (by decide)

/-- All that the code of the image refers to before the pattern. -/
def imageReferences (image : DearxanImage) : List Word :=
  ((imageSections image).getD []).flatMap fun s => cookieReferences s.1 s.2

/-- The displacement before the pattern leads there from the pattern. -/
def Referenced (image : DearxanImage) (v : Word) : Prop :=
  ∃ offset, 4 ≤ offset ∧ offset + 3 ≤ image.bytes.length ∧ (image.bytes.drop offset).take 3 = cookiePattern ∧
    v = image.baseVa + .ofNat 64 offset + (field32 image.bytes (offset - 4)).signExtend 64

theorem field32_slice {bytes : List Byte} {start size k : Nat} (inside : k + 4 ≤ ((bytes.drop start).take size).length) :
    field32 ((bytes.drop start).take size) k = field32 bytes (start + k) := by
  have byte {j : Nat} (near : j < 4) : ((bytes.drop start).take size).getD (k + j) 0 = bytes.getD (start + k + j) 0 := by
    have short : k + j < size := by
      rw [List.length_take] at inside
      omega
    rw [List.getD_eq_getElem?_getD, List.getD_eq_getElem?_getD, List.getElem?_take_of_lt short, List.getElem?_drop,
      Nat.add_assoc]
  have first := byte (j := 0) (by omega)
  simp only [Nat.add_zero] at first
  simp only [field32, first, byte (j := 1) (by omega), byte (j := 2) (by omega), byte (j := 3) (by omega)]

theorem referenced_of_mem {v : Word} (among : v ∈ imageReferences image) : Referenced image v := by
  obtain ⟨⟨va, bytes⟩, listed, among⟩ := List.mem_flatMap.mp among
  cases sections : imageSections image with
  | none => simp [sections] at listed
  | some all =>
      rw [sections, Option.getD_some] at listed
      obtain ⟨rva, _, rfl, cut⟩ := mem_imageSections sections listed
      obtain ⟨i, low, high, here, rfl⟩ := mem_cookieReferences.mp among
      dsimp only at high here ⊢
      have fits : bytes.length ≤ image.bytes.length - rva := by
        have length := congrArg List.length cut
        rw [List.length_take, List.length_drop] at length
        omega
      refine ⟨rva + i, by omega, by omega, ?_, ?_⟩
      · rw [cut, List.drop_take, List.drop_drop, List.take_take, Nat.min_eq_left (by omega)] at here
        exact here
      · have displacement : field32 bytes (i - 4) = field32 image.bytes (rva + i - 4) := by
          rw [cut, field32_slice (by rw [← cut]; omega), Nat.add_sub_assoc low]
        rw [displacement, BitVec.ofNat_add, BitVec.add_assoc image.baseVa]

theorem findGsCookie_eq (image : DearxanImage) :
    findGsCookie image =
      let found := (reach cookieCapacity cookieThreshold [] (imageReferences image)).getD 0
      if found ≠ 0 then found else loadConfigGsCookie image := by
  have scanned : ((imageSections image).elim ⟨[], 0⟩ fun sections => scanSections sections ⟨[], 0⟩).found =
      (reach cookieCapacity cookieThreshold [] (imageReferences image)).getD 0 := by
    cases listed : imageSections image with
    | none => simp [imageReferences, listed, reach]
    | some sections => simp [imageReferences, listed, scanSections_found]
  rw [findGsCookie]
  simp only [scanned]

/-- The address that is found is the first one that the code of the image refers to sixteen times, of the
256 addresses it refers to first; where there is none, it is what the load configuration says. -/
theorem findGsCookie_spec (image : DearxanImage) :
    (∀ v, v ≠ 0 → FirstReached (imageReferences image) v → findGsCookie image = v) ∧
    ((∀ v, FirstReached (imageReferences image) v → v = 0) → findGsCookie image = loadConfigGsCookie image) ∧
    (∀ v ∈ imageReferences image, Referenced image v) ∧
    (findGsCookie image = 0 ∨ FirstReached (imageReferences image) (findGsCookie image) ∨
      image.baseVa ≤ findGsCookie image ∧ (findGsCookie image - image.baseVa).toNat + 8 ≤ image.bytes.length) := by
  have result := findGsCookie_eq image
  dsimp only at result
  refine ⟨fun v nonzero first => ?_, fun none => ?_, fun v => referenced_of_mem, ?_⟩
  · rw [result, reach_iff.mpr first, Option.getD_some, if_pos nonzero]
  · cases reached : reach cookieCapacity cookieThreshold [] (imageReferences image) with
    | none => simp [result, reached]
    | some v => simp [result, reached, none v (reach_iff.mp reached)]
  · by_cases nothing : findGsCookie image = 0
    · exact .inl nothing
    cases reached : reach cookieCapacity cookieThreshold [] (imageReferences image) with
    | none =>
        have told : findGsCookie image = loadConfigGsCookie image := by simp [result, reached]
        rw [told] at nothing ⊢
        exact .inr (.inr (loadConfigGsCookie_inside nothing))
    | some v =>
        by_cases zero : v = 0
        · have told : findGsCookie image = loadConfigGsCookie image := by simp [result, reached, zero]
          rw [told] at nothing ⊢
          exact .inr (.inr (loadConfigGsCookie_inside nothing))
        · have told : findGsCookie image = v := by rw [result, reached, Option.getD_some, if_pos zero]
          rw [told]
          exact .inr (.inl (reach_iff.mp reached))

end Find

/-! ## One search at a time -/

/-- The values 0 to 2 of `gs_cookie_state`. -/
inductive GsCookieState
  | free
  | searching
  | cached
  deriving DecidableEq, Repr

/-- `searcher` is the thread whose exchange made the state 1, and `searches` what the searches found. -/
structure GsCookieShared (ι : Type*) where
  state : GsCookieState
  address : Word
  searcher : Option ι
  searches : List Word

/-- Where a call of `get_gs_cookie` stands. -/
inductive GsCookiePlace
  | outside
  | exchanging
  | loading
  | searching
  | storing (found : Word)
  | publishing (found : Word)
  | clearing
  deriving DecidableEq, Repr

/-- A thread that may call `get_gs_cookie` again and again, and what its calls returned. -/
structure GsCookieCaller (ι : Type*) where
  id : ι
  place : GsCookiePlace
  returned : List Word

namespace GsCookieCaller

variable {ι : Type*}

def goto (k : GsCookieCaller ι) (place : GsCookiePlace) : GsCookieCaller ι := { k with place }

def leave (k : GsCookieCaller ι) (cookie : Word) : GsCookieCaller ι :=
  { k with place := .outside, returned := k.returned ++ [cookie] }

end GsCookieCaller

/-- One turn. `found` is what `find_gs_cookie` returns, where the turn is its end: the image may change
between two searches. -/
def gsCookieTurn {ι : Type*} (found : Word) (s : GsCookieShared ι) (k : GsCookieCaller ι) :
    Option (GsCookieShared ι × GsCookieCaller ι) :=
  match k.place with
  | .outside => some (s, k.goto .exchanging)
  | .exchanging =>
      match s.state with
      | .free => some ({ s with state := .searching, searcher := some k.id }, k.goto .searching)
      | .searching => some (s, k)
      | .cached => some (s, k.goto .loading)
  | .loading => some (s, k.leave s.address)
  | .searching =>
      some ({ s with searches := s.searches ++ [found] }, k.goto (if found ≠ 0 then .storing found else .clearing))
  | .storing found => some ({ s with address := found }, k.goto (.publishing found))
  | .publishing found => some ({ s with state := .cached, searcher := none }, k.leave found)
  | .clearing => some ({ s with state := .free, searcher := none }, k.leave 0)

def gsCookieStart (ι : Type*) : Config ι (GsCookieShared ι) (GsCookieCaller ι) :=
  ⟨⟨.free, 0, none, []⟩, fun i => ⟨i, .outside, []⟩⟩

section Searches

variable {ι : Type*}

def GsCookieShared.finds (s : GsCookieShared ι) : List Word := s.searches.filter (· ≠ 0)

structure GsCookieShared.Ok (s : GsCookieShared ι) : Prop where
  free : s.state = .free → s.finds = []
  searching : s.state = .searching ↔ s.searcher.isSome
  cached : s.state = .cached → s.address ≠ 0 ∧ s.finds = [s.address]

def GsCookiePlace.Searches : GsCookiePlace → Prop
  | searching | storing _ | publishing _ | clearing => True
  | outside | exchanging | loading => False

def GsCookiePlace.Ok (s : GsCookieShared ι) : GsCookiePlace → Prop
  | outside | exchanging => True
  | loading => s.state = .cached
  | searching | clearing => s.finds = []
  | storing found => found ≠ 0 ∧ s.finds = [found]
  | publishing found => found ≠ 0 ∧ s.finds = [found] ∧ s.address = found

structure GsCookieCallerOk (i : ι) (s : GsCookieShared ι) (k : GsCookieCaller ι) : Prop where
  id : k.id = i
  owner : k.place.Searches ↔ s.searcher = some i
  place : k.place.Ok s
  returned : ∀ cookie ∈ k.returned, cookie ≠ 0 → s.state = .cached ∧ s.address = cookie

variable {found : Word} {s s' : GsCookieShared ι} {k k' l : GsCookieCaller ι} {i j : ι}

theorem gsCookieTurn_idle (idle : ¬ k.place.Searches) (taken : gsCookieTurn found s k = some (s', k')) :
    s' = s ∨ s.state = .free ∧ s' = { s with state := .searching, searcher := some k.id } := by
  unfold gsCookieTurn at taken
  cases place : k.place with
  | outside | loading =>
      simp only [place] at taken
      cases taken
      exact .inl rfl
  | exchanging =>
      simp only [place] at taken
      cases state : s.state with
      | free =>
          simp only [state] at taken
          cases taken
          exact .inr ⟨rfl, rfl⟩
      | searching | cached =>
          simp only [state] at taken
          cases taken
          exact .inl rfl
  | searching | storing | publishing | clearing => exact absurd (by rw [place]; trivial) idle

theorem GsCookieCallerOk.state (ok : s.Ok) (mine : GsCookieCallerOk i s k) (searches : k.place.Searches) :
    s.state = .searching := by
  rw [ok.searching, mine.owner.mp searches]
  rfl

theorem GsCookieCallerOk.goto (mine : GsCookieCallerOk i s k) {place : GsCookiePlace}
    (same : place.Searches ↔ k.place.Searches) (here : place.Ok s) : GsCookieCallerOk i s (k.goto place) :=
  ⟨mine.id, same.trans mine.owner, here, mine.returned⟩

theorem GsCookieCallerOk.untold (ok : s.Ok) (mine : GsCookieCallerOk i s k) (searches : k.place.Searches)
    {cookie : Word} (among : cookie ∈ k.returned) : cookie = 0 := by
  by_contra nonzero
  have cached := (mine.returned cookie among nonzero).1
  rw [mine.state ok searches] at cached
  cases cached

theorem GsCookieCallerOk.own (ok : s.Ok) (mine : GsCookieCallerOk i s k)
    (taken : gsCookieTurn found s k = some (s', k')) : s'.Ok ∧ GsCookieCallerOk i s' k' := by
  have here := mine.place
  have owner := mine.owner
  unfold gsCookieTurn at taken
  cases place : k.place with
  | outside =>
      simp only [place] at taken
      cases taken
      exact ⟨ok, mine.goto (by simp [place, GsCookiePlace.Searches]) trivial⟩
  | exchanging =>
      simp only [place] at taken
      cases state : s.state with
      | free =>
          simp only [state] at taken
          cases taken
          refine ⟨⟨by simp, by simp, by simp⟩, mine.id, ?_, ok.free state, ?_⟩
          · simp [GsCookieCaller.goto, GsCookiePlace.Searches, mine.id]
          · intro cookie among nonzero
            have cached := (mine.returned cookie among nonzero).1
            rw [state] at cached
            cases cached
      | searching =>
          simp only [state] at taken
          cases taken
          exact ⟨ok, mine⟩
      | cached =>
          simp only [state] at taken
          cases taken
          exact ⟨ok, mine.goto (by simp [place, GsCookiePlace.Searches]) state⟩
  | loading =>
      simp only [place] at taken here owner
      cases taken
      refine ⟨ok, mine.id, owner, trivial, ?_⟩
      intro cookie among nonzero
      rcases List.mem_append.mp among with earlier | last
      · exact mine.returned cookie earlier nonzero
      · rw [List.mem_singleton.mp last]
        exact ⟨here, rfl⟩
  | searching =>
      simp only [place] at taken here owner
      have searches : k.place.Searches := by rw [place]; trivial
      have state := mine.state ok searches
      cases taken
      have none : s.searches.filter (· ≠ 0) = [] := here
      refine ⟨⟨by simp [state], ok.searching, by simp [state]⟩, mine.id, ?_, ?_, ?_⟩
      · have mine := owner.mp trivial
        by_cases nonzero : found ≠ 0
        · simpa only [GsCookieCaller.goto, if_pos nonzero, GsCookiePlace.Searches, true_iff] using mine
        · simpa only [GsCookieCaller.goto, if_neg nonzero, GsCookiePlace.Searches, true_iff] using mine
      · by_cases nonzero : found ≠ 0
        · have finds : (s.searches ++ [found]).filter (· ≠ 0) = [found] := by
            rw [List.filter_append, none, List.filter_cons_of_pos (by simpa using nonzero)]
            rfl
          simp only [GsCookieCaller.goto, if_pos nonzero]
          exact ⟨nonzero, finds⟩
        · have finds : (s.searches ++ [found]).filter (· ≠ 0) = [] := by
            rw [List.filter_append, none, List.filter_cons_of_neg (by simpa using nonzero)]
            rfl
          simp only [GsCookieCaller.goto, if_neg nonzero]
          exact finds
      · exact fun cookie among nonzero => absurd (mine.untold ok searches among) nonzero
  | storing cookie =>
      simp only [place] at taken here owner
      have searches : k.place.Searches := by rw [place]; trivial
      have state := mine.state ok searches
      cases taken
      exact ⟨⟨by simp [state], ok.searching, by simp [state]⟩, mine.id, owner, ⟨here.1, here.2, rfl⟩,
        fun cookie among nonzero => absurd (mine.untold ok searches among) nonzero⟩
  | publishing cookie =>
      simp only [place] at taken here
      have searches : k.place.Searches := by rw [place]; trivial
      cases taken
      obtain ⟨nonzero, finds, stored⟩ := here
      refine ⟨⟨by simp, by simp, fun _ => ⟨by rwa [stored], by rwa [stored]⟩⟩, mine.id, ?_, trivial, ?_⟩
      · simp [GsCookieCaller.leave, GsCookiePlace.Searches]
      · intro told among nonzero
        rcases List.mem_append.mp among with earlier | last
        · exact absurd (mine.untold ok searches earlier) nonzero
        · rw [List.mem_singleton.mp last]
          exact ⟨rfl, stored⟩
  | clearing =>
      simp only [place] at taken here
      have searches : k.place.Searches := by rw [place]; trivial
      cases taken
      refine ⟨⟨fun _ => here, by simp, by simp⟩, mine.id, ?_, trivial, ?_⟩
      · simp [GsCookieCaller.leave, GsCookiePlace.Searches]
      · intro told among nonzero
        rcases List.mem_append.mp among with earlier | last
        · exact absurd (mine.untold ok searches earlier) nonzero
        · exact absurd (List.mem_singleton.mp last) nonzero

/-- Where the state is not `cached`, a thread that does not search has been told nothing and reads nothing. -/
theorem GsCookieCallerOk.elsewhere (theirs : GsCookieCallerOk j s l) (idle : ¬ l.place.Searches)
    (uncached : s.state ≠ .cached) (others : s'.searcher ≠ some j) : GsCookieCallerOk j s' l := by
  refine ⟨theirs.id, iff_of_false idle others, ?_, ?_⟩
  · have here := theirs.place
    cases place : l.place with
    | outside | exchanging => trivial
    | loading =>
        rw [place] at here
        exact absurd here uncached
    | searching | storing | publishing | clearing => exact absurd (by rw [place]; trivial) idle
  · exact fun cookie among nonzero => absurd (theirs.returned cookie among nonzero).1 uncached

theorem gsCookieTurn_searcher (searches : k.place.Searches) (taken : gsCookieTurn found s k = some (s', k')) :
    s'.searcher = s.searcher ∨ s'.searcher = none := by
  unfold gsCookieTurn at taken
  cases place : k.place with
  | outside | exchanging | loading =>
      rw [place] at searches
      exact searches.elim
  | searching | storing =>
      simp only [place] at taken
      cases taken
      exact .inl rfl
  | publishing | clearing =>
      simp only [place] at taken
      cases taken
      exact .inr rfl

theorem GsCookieCallerOk.others (ok : s.Ok) (mine : GsCookieCallerOk i s k) (theirs : GsCookieCallerOk j s l)
    (apart : j ≠ i) (taken : gsCookieTurn found s k = some (s', k')) : GsCookieCallerOk j s' l := by
  by_cases searches : k.place.Searches
  · have owner := mine.owner.mp searches
    have other : s.searcher ≠ some j := fun too => apart (Option.some.inj (too.symm.trans owner))
    have idle : ¬ l.place.Searches := fun too => other (theirs.owner.mp too)
    apply theirs.elsewhere idle (by simp [mine.state ok searches])
    rcases gsCookieTurn_searcher searches taken with same | given
    · rwa [same]
    · simp [given]
  · rcases gsCookieTurn_idle searches taken with same | ⟨free, same⟩
    · rwa [same]
    · have idle : ¬ l.place.Searches := by
        intro too
        have state := theirs.state ok too
        rw [free] at state
        cases state
      apply theirs.elsewhere idle (by simp [free])
      rw [same]
      simpa [mine.id] using apart.symm

theorem gsCookieTurn_cached (idle : ¬ k.place.Searches) (cached : s.state = .cached)
    (taken : gsCookieTurn found s k = some (s', k')) :
    s' = s ∧ (k'.returned = k.returned ∨ k'.returned = k.returned ++ [s.address]) := by
  unfold gsCookieTurn at taken
  cases place : k.place with
  | outside =>
      simp only [place] at taken
      cases taken
      exact ⟨rfl, .inl rfl⟩
  | exchanging =>
      simp only [place, cached] at taken
      cases taken
      exact ⟨rfl, .inl rfl⟩
  | loading =>
      simp only [place] at taken
      cases taken
      exact ⟨rfl, .inr rfl⟩
  | searching | storing | publishing | clearing => exact absurd (by rw [place]; trivial) idle

def GsCookiePlace.rank : GsCookiePlace → Nat
  | outside => 0
  | loading | publishing _ | clearing => 1
  | storing _ => 2
  | searching => 3
  | exchanging => 4

def GsCookieCaller.pending (k : GsCookieCaller ι) : Nat := if k.place = .outside then 0 else 1

theorem gsCookieTurn_advances (under : k.place.rank ≠ 0) (ready : k.place = .exchanging → s.state ≠ .searching) :
    ∃ s' k', gsCookieTurn 0 s k = some (s', k') ∧ k'.place.rank < k.place.rank ∧
      k.returned.length + k.pending = k'.returned.length + k'.pending := by
  unfold gsCookieTurn GsCookieCaller.pending
  cases place : k.place with
  | outside => exact absurd (by rw [place]; rfl) under
  | exchanging =>
      cases state : s.state with
      | free => exact ⟨_, _, rfl, by simp [GsCookieCaller.goto, GsCookiePlace.rank], by simp [GsCookieCaller.goto]⟩
      | searching => exact absurd state (ready place)
      | cached => exact ⟨_, _, rfl, by simp [GsCookieCaller.goto, GsCookiePlace.rank], by simp [GsCookieCaller.goto]⟩
  | searching | storing =>
      exact ⟨_, _, rfl, by simp [GsCookieCaller.goto, GsCookiePlace.rank], by simp [GsCookieCaller.goto]⟩
  | loading | publishing | clearing =>
      exact ⟨_, _, rfl, by simp [GsCookieCaller.leave, GsCookiePlace.rank], by simp [GsCookieCaller.leave]⟩

variable [DecidableEq ι] {w w' : Config ι (GsCookieShared ι) (GsCookieCaller ι)}

theorem gsCookie_ok (reachable : Reachable gsCookieTurn (gsCookieStart ι) w) :
    w.shared.Ok ∧ ∀ i, GsCookieCallerOk i w.shared (w.threads i) := by
  apply reachable.holds_apart
  · exact fun i found s k s' k' ok mine taken => mine.own ok taken
  · exact fun i j found s k s' k' l apart ok mine taken theirs => mine.others ok theirs apart taken
  · exact ⟨fun _ => rfl, by simp [gsCookieStart], by simp [gsCookieStart]⟩
  · exact fun i => ⟨rfl, by simp [gsCookieStart, GsCookiePlace.Searches], trivial, by simp [gsCookieStart]⟩

theorem gsCookie_cached (reachable : Reachable gsCookieTurn (gsCookieStart ι) w)
    (goes : Reachable gsCookieTurn w w') (cached : w.shared.state = .cached) :
    w'.shared = w.shared ∧
      ∀ i, ∃ n, (w'.threads i).returned = (w.threads i).returned ++ List.replicate n w.shared.address := by
  induction goes with
  | refl => exact ⟨rfl, fun i => ⟨0, by simp⟩⟩
  | @tail v _ before step ih =>
      obtain ⟨same, answers⟩ := ih
      obtain ⟨ok, calls⟩ := gsCookie_ok (reachable.trans before)
      cases step with
      | @take s k i found taken =>
          have idle : ¬ (v.threads i).place.Searches := fun searches => by
            have state := (calls i).state ok searches
            rw [same, cached] at state
            cases state
          obtain ⟨keeps, more⟩ := gsCookieTurn_cached idle (by rw [same, cached]) taken
          refine ⟨keeps.trans same, fun j => ?_⟩
          obtain ⟨n, earlier⟩ := answers j
          by_cases here : j = i
          · subst here
            simp only [Function.update_self]
            rcases more with nothing | answer
            · exact ⟨n, by rw [nothing, earlier]⟩
            · exact ⟨n + 1, by rw [answer, earlier, same, List.append_assoc, List.replicate_succ']⟩
          · simp only [Function.update_of_ne here]
            exact ⟨n, earlier⟩

/-- One thread searches at a time, only one search ever finds something, a cookie that is returned is what it
found, and from then on every answer is this cookie and no search begins. -/
theorem gs_cookie_found_once (reachable : Reachable gsCookieTurn (gsCookieStart ι) w) :
    (∀ i j, (w.threads i).place = .searching → (w.threads j).place = .searching → i = j) ∧
    w.shared.finds.length ≤ 1 ∧
    (w.shared.state = .cached → w.shared.address ≠ 0) ∧
    ∀ i, ∀ cookie ∈ (w.threads i).returned, cookie ≠ 0 →
      w.shared.finds = [cookie] ∧
        ∀ w', Reachable gsCookieTurn w w' → w'.shared.searches = w.shared.searches ∧
          ∀ j, ∃ n, (w'.threads j).returned = (w.threads j).returned ++ List.replicate n cookie := by
  obtain ⟨ok, calls⟩ := gsCookie_ok reachable
  have finds (i : ι) (cookie : Word) (among : cookie ∈ (w.threads i).returned) (nonzero : cookie ≠ 0) :
      w.shared.state = .cached ∧ w.shared.address = cookie ∧ w.shared.finds = [cookie] := by
    obtain ⟨cached, address⟩ := (calls i).returned cookie among nonzero
    exact ⟨cached, address, address ▸ (ok.cached cached).2⟩
  refine ⟨fun i j first second => ?_, ?_, fun cached => (ok.cached cached).1, fun i cookie among nonzero => ?_⟩
  · have mine := (calls i).owner.mp (by rw [first]; trivial)
    have theirs := (calls j).owner.mp (by rw [second]; trivial)
    exact Option.some.inj (mine.symm.trans theirs)
  · cases state : w.shared.state with
    | free => simp [ok.free state]
    | cached => simp [(ok.cached state).2]
    | searching =>
        obtain ⟨i, searcher⟩ := Option.isSome_iff_exists.mp (ok.searching.mp state)
        have searches := (calls i).owner.mpr searcher
        have here := (calls i).place
        cases place : (w.threads i).place with
        | outside | exchanging | loading =>
            rw [place] at searches
            exact searches.elim
        | searching | clearing =>
            rw [place] at here
            simp [show w.shared.finds = [] from here]
        | storing =>
            rw [place] at here
            simp [here.2]
        | publishing =>
            rw [place] at here
            simp [here.2.1]
  · obtain ⟨cached, address, found⟩ := finds i cookie among nonzero
    refine ⟨found, fun w' goes => ?_⟩
    obtain ⟨same, answers⟩ := gsCookie_cached reachable goes cached
    exact ⟨congrArg GsCookieShared.searches same, fun j => address ▸ answers j⟩

/-- One thread searches too early and finds nothing, the other one finds the cookie while the first waits for
it. -/
theorem gs_cookie_found_once_retry : ∃ w, Reachable gsCookieTurn (gsCookieStart Bool) w ∧
    (w.threads false).returned = [0] ∧ (w.threads false).place = .exchanging ∧ w.shared.searches = [0, 7] ∧
      ∀ w', Reachable gsCookieTurn w w' → w'.shared.searches = [0, 7] ∧
        ∀ j, ∃ n, (w'.threads j).returned = (w.threads j).returned ++ List.replicate n 7 := by
  obtain ⟨w, played, first, waits, searches, among⟩ : ∃ w, play gsCookieTurn (gsCookieStart Bool)
      ([false, false, false, false, true, true, false, false].map (·, 0) ++ [true, true, true].map (·, 7)) = some w ∧
        (w.threads false).returned = [0] ∧ (w.threads false).place = .exchanging ∧
        w.shared.searches = [0, 7] ∧ 7 ∈ (w.threads true).returned :=
    ⟨_, rfl, by decide, by decide, by decide, by decide⟩
  obtain ⟨_, _, _, told⟩ := gs_cookie_found_once (play_reachable played)
  obtain ⟨_, later⟩ := told true 7 among (by decide)
  rw [searches] at later
  exact ⟨w, play_reachable played, first, waits, searches, later⟩

/-- From every state each call under way can return, with one answer, and no other call has to begin. -/
theorem gs_cookie_calls_return [Fintype ι] (reachable : Reachable gsCookieTurn (gsCookieStart ι) w) :
    ∃ w', Reachable gsCookieTurn w w' ∧ ∀ i, (w'.threads i).place = .outside ∧
      (w'.threads i).returned.length = (w.threads i).returned.length + (w.threads i).pending := by
  have advance (w : Config ι (GsCookieShared ι) (GsCookieCaller ι)) (reachable : Reachable gsCookieTurn (gsCookieStart ι) w)
      (i : ι) (under : (w.threads i).place.rank ≠ 0) :
      ∃ j found s k, gsCookieTurn found w.shared (w.threads j) = some (s, k) ∧ k.place.rank < (w.threads j).place.rank ∧
        (w.threads j).returned.length + (w.threads j).pending = k.returned.length + k.pending := by
    by_cases waits : w.shared.state = .searching
    · obtain ⟨ok, calls⟩ := gsCookie_ok reachable
      obtain ⟨j, searcher⟩ := Option.isSome_iff_exists.mp (ok.searching.mp waits)
      have searches := (calls j).owner.mpr searcher
      have more : (w.threads j).place.rank ≠ 0 := by
        cases place : (w.threads j).place <;> simp [place, GsCookiePlace.Searches, GsCookiePlace.rank] at searches ⊢
      exact ⟨j, 0, gsCookieTurn_advances more fun place => by
        rw [place] at searches
        exact searches.elim⟩
    · exact ⟨i, 0, gsCookieTurn_advances under fun _ => waits⟩
  obtain ⟨w', goes, all⟩ := Reachable.settles (fun k => k.place.rank)
    (fun k l => k.returned.length + k.pending = l.returned.length + l.pending) (fun _ => rfl) (fun _ _ _ => Eq.trans)
    advance reachable
  refine ⟨w', goes, fun i => ?_⟩
  obtain ⟨settled, answers⟩ := all i
  have outside : (w'.threads i).place = .outside := by
    cases place : (w'.threads i).place <;> simp [place, GsCookiePlace.rank] at settled ⊢
  have none : (w'.threads i).pending = 0 := by simp [GsCookieCaller.pending, outside]
  exact ⟨outside, by rw [answers, none, Nat.add_zero]⟩

/-- One thread searches and the other one waits for it. -/
theorem gs_cookie_calls_return_pair : ∃ w, Reachable gsCookieTurn (gsCookieStart Bool) w ∧
    (w.threads false).place = .searching ∧ (w.threads true).place = .exchanging ∧
      ∃ w', Reachable gsCookieTurn w w' ∧ ∀ i, (w'.threads i).returned.length = 1 := by
  obtain ⟨w, played, first, second, nothing⟩ : ∃ w, play gsCookieTurn (gsCookieStart Bool)
      ([false, true, false].map (·, 0)) = some w ∧ (w.threads false).place = .searching ∧
        (w.threads true).place = .exchanging ∧ ∀ i, (w.threads i).returned = [] :=
    ⟨_, rfl, by decide, by decide, by decide⟩
  obtain ⟨w', goes, all⟩ := gs_cookie_calls_return (play_reachable played)
  refine ⟨w, play_reachable played, first, second, w', goes, fun i => ?_⟩
  rw [(all i).2, nothing]
  cases i <;> simp [GsCookieCaller.pending, first, second]

end Searches

end Yafsml.Dearxan
