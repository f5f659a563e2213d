import Yafsml.Vfs.ZipIndex

/-!
# The index of an archive is exact

The index compares texts: a key, the root and the backslash after it. What it keeps is said here
in names: a record is below the root when the root's names start its own.
-/

namespace Yafsml.Vfs
open Foundation

/-! ## Names below a root -/

/-- The names that follow those of `base`, when there are any. -/
def below (base segments : List WString) : Option (List WString) :=
  if base <+: segments ∧ base.length < segments.length then some (segments.drop base.length)
  else none

theorem below_eq_some {base segments rest : List WString} :
    below base segments = some rest ↔ rest ≠ [] ∧ segments = base ++ rest := by
  unfold below
  constructor
  · intro found
    split at found
    · rename_i inside
      obtain ⟨⟨tail, rfl⟩, longer⟩ := inside
      rw [List.drop_left, Option.some_inj] at found
      subst found
      refine ⟨?_, rfl⟩
      rintro rfl
      simp at longer
    · cases found
  · rintro ⟨present, rfl⟩
    rw [if_pos ⟨List.prefix_append _ _, by simpa [List.length_pos_iff] using present⟩, List.drop_left]

theorem below_nil (segments : List WString) :
    below [] segments = if segments = [] then none else some segments := by
  cases segments with
  | nil => rfl
  | cons first rest => rfl

/-- The comparison of the index finds the texts that continue the root after a backslash. -/
theorem continues_iff {root key rest : WString} :
    (¬(key.take root.length ≠ root ∨ key[root.length]? ≠ some WChar.backslash) ∧
        key.drop (root.length + 1) = rest) ↔ key = root ++ WChar.backslash :: rest := by
  rw [not_or, not_not, not_not]
  constructor
  · rintro ⟨⟨front, mark⟩, rfl⟩
    obtain ⟨inside, here⟩ := List.getElem?_eq_some_iff.mp mark
    conv_lhs => rw [← List.take_append_drop root.length key, front, List.drop_eq_getElem_cons inside, here]
  · rintro rfl
    simp

theorem below_iff {base segments : List WString} (tail : WString)
    (plainBase : ∀ segment ∈ base, Plain segment) (plain : ∀ segment ∈ segments, Plain segment)
    (some : base ≠ []) :
    joined segments = joined base ++ WChar.backslash :: tail ↔
      ∃ rest, below base segments = Option.some rest ∧ tail = joined rest := by
  rw [joined_below plainBase plain some]
  constructor
  · rintro ⟨rest, present, split, same⟩
    exact ⟨rest, below_eq_some.mpr ⟨present, split⟩, same⟩
  · rintro ⟨rest, found, same⟩
    obtain ⟨present, split⟩ := below_eq_some.mp found
    exact ⟨rest, present, split, same⟩

section Exact

variable (win : Windows) (pages : CodePages)

/-! ## What a record says -/

def recordName (filename : List UInt8) (flags : UInt16) : Option WString :=
  if filename = [] ∨ intMax < filename.length ∨ 0 ∈ filename then none
  else (decodeFilename pages filename flags).map (·.takeWhile (· ≠ 0))

def recordComponents (record : ZipRecord) : Option (ZipStat × List WString) := do
  let stat ← record.stat
  let name ← recordName pages record.filename stat.bitFlag
  let segments ← components win name
  pure (stat, segments)

/-- The entry of the package for a record: a file below the root, under its remaining names. -/
def indexedFile (base : List WString) (entry : ZipRecord × Nat) : Option ZipFile := do
  let (stat, segments) ← recordComponents win pages entry.1
  let rest ← below base segments
  if stat.isDirectory then none else some ⟨joined rest, entry.2, stat.uncompSize.toNat⟩

def ShowsRoot (base : List WString) (record : ZipRecord) : Prop :=
  ∃ stat segments, recordComponents win pages record = some (stat, segments) ∧
    ((below base segments).isSome ∨ stat.isDirectory = true ∧ segments = base)

def Admitted (base : List WString) (record : ZipRecord) : Prop :=
  ∃ stat name segments, record.stat = some stat ∧
    recordName pages record.filename stat.bitFlag = some name ∧
    name.head?.any isSeparator = false ∧ validVirtualName name = true ∧
    components win name = some segments ∧
    ((below base segments).isSome → stat.isDirectory = false → stat.isSupported = true)

section Record

variable {win pages}

theorem zipFilename_eq {memory : RecordMemory} {filename : List UInt8} {flags : UInt16}
    {name : WString} (decoded : zipFilename pages memory filename flags = some name) :
    recordName pages filename flags = some name := by
  unfold zipFilename at decoded
  dsimp only at decoded
  split at decoded
  · cases decoded
  rename_i sized
  split at decoded
  · cases decoded
  split at decoded
  · cases decoded
  rename_i plain
  have readable : ¬(filename = [] ∨ intMax < filename.length ∨ 0 ∈ filename) := by
    rw [← List.length_eq_zero_iff]
    rintro (empty | long | nul)
    · omega
    · omega
    · exact plain nul
  rw [recordName, if_neg readable]
  split at decoded
  · cases decoded
  rename_i text found
  split at decoded
  · rw [found, Option.map_some, decoded]
  · cases decoded

theorem not_colon_of_valid {name : WString} (valid : validVirtualName name = true) :
    WChar.colon ∉ name := by
  intro member
  have kept := List.all_eq_true.mp valid _ member
  exact absurd kept (by decide)

theorem recordKey_eq (marks : KeepsMarks win.towlower)
    (idem : ∀ c, win.towlower (win.towlower c) = win.towlower c) {memory : RecordMemory}
    {filename : List UInt8} {stat : ZipStat} {key : WString}
    (valid : recordKey win pages memory filename stat = some key) :
    ∃ name segments, recordName pages filename stat.bitFlag = some name ∧
      name.head?.any isSeparator = false ∧ validVirtualName name = true ∧
      components win name = some segments ∧ (∀ segment ∈ segments, Clean win segment) ∧
      key = joined segments := by
  unfold recordKey at valid
  split at valid
  · cases valid
  rename_i name decoded
  split at valid
  · cases valid
  rename_i relative
  split at valid
  · cases valid
  rename_i allowed
  split at valid
  · rw [vfsNormalizePath_components, Option.map_eq_some_iff] at valid
    obtain ⟨segments, resolved, rfl⟩ := valid
    have permitted : validVirtualName name = true := by simpa using allowed
    refine ⟨name, segments, zipFilename_eq decoded, ?_, permitted, resolved,
      components_clean marks.never idem (not_colon_of_valid permitted) resolved, rfl⟩
    cases name with
    | nil => rfl
    | cons c rest =>
        rw [List.head?_cons, Option.any_some, isSeparator, Bool.or_eq_false_iff, beq_eq_false_iff_ne,
          beq_eq_false_iff_ne]
        simpa [and_comm] using relative
  · cases valid

theorem keepRecord_ok {memory : RecordMemory} {state state' : Indexing} {file : Nat} {stat : ZipStat}
    {relative : WString} (ok : keepRecord memory state file stat relative = .ok state') :
    (stat.isDirectory = false → stat.isSupported = true) ∧ state'.foundRoot = state.foundRoot ∧
      state'.files = state.files ++
        if stat.isDirectory then [] else [⟨relative, file, stat.uncompSize.toNat⟩] := by
  unfold keepRecord at ok
  dsimp only at ok
  cases directory : stat.isDirectory with
  | true =>
      rw [if_pos directory] at ok
      cases ok
      exact ⟨fun no => (by cases no), rfl, by simp⟩
  | false =>
      rw [if_neg (by simp [directory])] at ok
      split at ok
      · cases ok
      rename_i supported
      have known : stat.isSupported = true := by simpa using supported
      refine ⟨fun _ => known, ?_⟩
      split at ok
      · split at ok
        · cases ok
        split at ok
        · cases ok
          exact ⟨rfl, rfl⟩
        · cases ok
      · cases ok
        exact ⟨rfl, rfl⟩

theorem recordComponents_eq {record : ZipRecord} {stat : ZipStat} {name : WString}
    {segments : List WString} (reported : record.stat = some stat)
    (named : recordName pages record.filename stat.bitFlag = some name)
    (resolved : components win name = some segments) :
    recordComponents win pages record = some (stat, segments) := by
  simp only [recordComponents, reported, named, resolved, bind, Option.bind, pure]

/-! ## One round -/

theorem indexRecord_ok (marks : KeepsMarks win.towlower)
    (idem : ∀ c, win.towlower (win.towlower c) = win.towlower c) {base : List WString}
    (cleanBase : ∀ segment ∈ base, Clean win segment) {memory : ZipIndexMemory}
    {state state' : Indexing} {entry : ZipRecord × Nat}
    (ok : indexRecord win pages memory (joined base) state entry = .ok state') :
    Admitted win pages base entry.1 ∧
      state'.files = state.files ++ (indexedFile win pages base entry).toList ∧
      (state'.foundRoot = true → state.foundRoot = true ∨ ShowsRoot win pages base entry.1) := by
  obtain ⟨record, file⟩ := entry
  unfold indexRecord at ok
  dsimp only at ok
  split at ok
  · cases ok
  rename_i stat reported
  split at ok
  · cases ok
  rename_i key valid
  obtain ⟨name, segments, named, relative, allowed, resolved, clean, rfl⟩ :=
    recordKey_eq marks idem valid
  have listed := recordComponents_eq reported named resolved
  have admitted (fits : (below base segments).isSome → stat.isDirectory = false →
      stat.isSupported = true) : Admitted win pages base record :=
    ⟨stat, name, segments, reported, named, relative, allowed, resolved, fits⟩
  have nonempty {names : List WString} (all : ∀ segment ∈ names, Clean win segment) :
      joined names = [] ↔ names = [] :=
    joined_eq_nil fun segment member => (all segment member).nonempty
  -- A record that is not below the root leaves the list as it is.
  have outside (apart : below base segments = none) :
      Admitted win pages base record ∧ indexedFile win pages base (record, file) = none := by
    refine ⟨admitted (by rw [apart]; exact fun no => (by cases no)), ?_⟩
    simp only [indexedFile, listed, apart, bind, Option.bind]
  -- A record below the root reaches the end of the round.
  have inside {start : Indexing} {rest : List WString} (within : below base segments = some rest)
      (files : start.files = state.files)
      (kept : keepRecord (memory.record file) start file stat (joined rest) = .ok state') :
      Admitted win pages base record ∧
        state'.files = state.files ++ (indexedFile win pages base (record, file)).toList ∧
        (state'.foundRoot = true → state.foundRoot = true ∨ ShowsRoot win pages base record) := by
    obtain ⟨supported, _, appended⟩ := keepRecord_ok kept
    refine ⟨admitted fun _ => supported, ?_, fun _ => .inr ⟨stat, segments, listed, .inl ?_⟩⟩
    · rw [appended, files]
      simp only [indexedFile, listed, within, bind, Option.bind]
      cases stat.isDirectory with
      | true => rfl
      | false => rfl
    · rw [within]
      rfl
  split at ok
  · -- the root record of the archive itself
    rename_i top
    rw [nonempty clean] at top
    subst top
    split at ok
    · cases ok
      obtain ⟨here, absent⟩ := outside (by simp [below])
      refine ⟨here, by rw [absent]; simp, .inl⟩
    · cases ok
  rename_i proper
  rw [nonempty clean] at proper
  split at ok
  · rename_i whole
    rw [nonempty cleanBase] at whole
    subst whole
    exact inside (by rw [below_nil, if_neg proper]) rfl ok
  rename_i partly
  rw [nonempty cleanBase] at partly
  have textual (tail : WString) := below_iff tail
    (fun segment member => (cleanBase segment member).toPlain)
    (fun segment member => (clean segment member).toPlain) partly
  split at ok
  · rename_i differs
    have apart : below base segments = none := by
      cases found : below base segments with
      | none => rfl
      | some rest =>
          have continued := (textual (joined rest)).mpr ⟨rest, found, rfl⟩
          exact absurd differs (continues_iff.mpr continued).1
    obtain ⟨here, absent⟩ := outside apart
    cases ok
    rw [absent]
    split
    · rename_i own
      refine ⟨here, by simp, fun _ => .inr ⟨stat, segments, listed, .inr ⟨own.2, ?_⟩⟩⟩
      exact joined_injective clean cleanBase own.1
    · exact ⟨here, by simp, .inl⟩
  · rename_i matched
    obtain ⟨rest, within, same⟩ := (textual _).mp (continues_iff.mp ⟨matched, rfl⟩)
    rw [same] at ok
    refine inside within ?_ ok
    split
    · rfl
    · rfl

/-! ## The whole loop -/

theorem indexRecords_ok (marks : KeepsMarks win.towlower)
    (idem : ∀ c, win.towlower (win.towlower c) = win.towlower c) {base : List WString}
    (cleanBase : ∀ segment ∈ base, Clean win segment) {memory : ZipIndexMemory}
    {entries : List (ZipRecord × Nat)} {state state' : Indexing}
    (ok : entries.foldlM (indexRecord win pages memory (joined base)) state = .ok state') :
    (∀ entry ∈ entries, Admitted win pages base entry.1) ∧
      state'.files = state.files ++ entries.filterMap (indexedFile win pages base) ∧
      (state'.foundRoot = true →
        state.foundRoot = true ∨ ∃ entry ∈ entries, ShowsRoot win pages base entry.1) := by
  induction entries generalizing state with
  | nil =>
      cases ok
      exact ⟨fun entry member => (by cases member), by simp, .inl⟩
  | cons entry rest ih =>
      rw [List.foldlM_cons] at ok
      cases first : indexRecord win pages memory (joined base) state entry with
      | error error =>
          rw [first] at ok
          cases ok
      | ok next =>
          rw [first] at ok
          obtain ⟨admitted, files, found⟩ := indexRecord_ok marks idem cleanBase first
          obtain ⟨others, files', found'⟩ := ih ok
          refine ⟨List.forall_mem_cons.mpr ⟨admitted, others⟩, ?_, ?_⟩
          · rw [files', files, List.append_assoc, List.filterMap_cons]
            cases indexedFile win pages base entry with
            | none => rfl
            | some _ => rfl
          · intro shown
            rcases found' shown with earlier | ⟨other, member, shows⟩
            · rcases found earlier with before | here
              · exact .inl before
              · exact .inr ⟨entry, List.mem_cons_self, here⟩
            · exact .inr ⟨other, List.mem_cons_of_mem _ member, shows⟩

end Record

/-! ## The index -/

/-- A path that stays below where it starts, in every reading of it. -/
structure Contained (path : WString) : Prop where
  segments : ∀ segment ∈ path.splitOnP isSeparator,
    segment ≠ [] ∧ segment ≠ [WChar.dot] ∧ segment ≠ [WChar.dot, WChar.dot]
  colon : WChar.colon ∉ path
  leading : path.head?.any isSeparator = false

def RecordNamed (record : ZipRecord) (stat : ZipStat) (name : WString) : Prop :=
  record.stat = some stat ∧ recordName pages record.filename stat.bitFlag = some name

/-- What makes an archive impossible to index at a root. -/
inductive Rejected (archive : List ZipRecord) (root : WString) : Prop
  | undecodable {record : ZipRecord} {stat : ZipStat} (member : record ∈ archive)
      (reported : record.stat = some stat)
      (unread : recordName pages record.filename stat.bitFlag = none)
  | absolute {record : ZipRecord} {stat : ZipStat} {name : WString} (member : record ∈ archive)
      (named : RecordNamed pages record stat name) (leading : name.head?.any isSeparator = true)
  | forbidden {record : ZipRecord} {stat : ZipStat} {name : WString} {c : WChar}
      (member : record ∈ archive) (named : RecordNamed pages record stat name) (inside : c ∈ name)
      (mark : forbidden c = true)
  | climbs {record : ZipRecord} {stat : ZipStat} {name : WString} (member : record ∈ archive)
      (named : RecordNamed pages record stat name)
      (leaves : Move.Climbs ((pathParts name).map (segmentMove win)))
  | unsupported {record : ZipRecord} {stat : ZipStat} {name : WString}
      {base segments rest : List WString} (member : record ∈ archive)
      (named : RecordNamed pages record stat name) (rootNames : components win root = some base)
      (resolved : components win name = some segments) (within : below base segments = some rest)
      (file : stat.isDirectory = false) (unsupported : stat.isSupported = false)
  | rootless {base : List WString} (rootNames : components win root = some base)
      (proper : base ≠ []) (absent : ∀ record ∈ archive, ¬ShowsRoot win pages base record)

variable {win pages}

theorem contained_joined {segments : List WString} (present : segments ≠ [])
    (clean : ∀ segment ∈ segments, Clean win segment) : Contained (joined segments) := by
  have plain : ∀ segment ∈ segments, Plain segment := fun segment member =>
    (clean segment member).toPlain
  refine ⟨?_, colon_not_mem_joined plain, joined_head plain⟩
  rw [splitOnP_joined (fun segment member => (plain segment member).separators) present]
  exact fun segment member =>
    ⟨(clean segment member).nonempty, (clean segment member).dot, (clean segment member).dots⟩

theorem indexedFile_contained (marks : KeepsMarks win.towlower)
    (idem : ∀ c, win.towlower (win.towlower c) = win.towlower c) {base : List WString}
    {entry : ZipRecord × Nat} {file : ZipFile} (admitted : Admitted win pages base entry.1)
    (indexed : indexedFile win pages base entry = some file) :
    Contained file.relative ∧ vfsNormalizePath win file.relative = some file.relative := by
  obtain ⟨stat, name, segments, reported, named, _, allowed, resolved, _⟩ := admitted
  have listed := recordComponents_eq reported named resolved
  have clean := components_clean marks.never idem (not_colon_of_valid allowed) resolved
  simp only [indexedFile, listed, bind, Option.bind] at indexed
  split at indexed
  · cases indexed
  rename_i rest within
  obtain ⟨present, rfl⟩ := below_eq_some.mp within
  have cleanRest : ∀ segment ∈ rest, Clean win segment := fun segment member =>
    clean segment (List.mem_append_right _ member)
  split at indexed
  · cases indexed
  · cases indexed
    exact ⟨contained_joined present cleanRest, vfsNormalizePath_joined cleanRest⟩

theorem zipIndex_ok (marks : KeepsMarks win.towlower)
    (idem : ∀ c, win.towlower (win.towlower c) = win.towlower c) {memory : ZipIndexMemory}
    {archive : List ZipRecord} {root : WString} {package : IndexedPackage}
    (ok : zipIndex win pages memory archive root = .ok package) :
    ∃ base, components win root = some base ∧ package.root = joined base ∧
      package.files = archive.zipIdx.filterMap (indexedFile win pages base) ∧
      (∀ record ∈ archive, Admitted win pages base record) ∧
      (base ≠ [] → ∃ record ∈ archive, ShowsRoot win pages base record) := by
  unfold zipIndex at ok
  split at ok
  · cases ok
  rename_i allowed
  split at ok
  · cases ok
  rename_i normalizedRoot normalized
  split at normalized
  · rw [vfsNormalizePath_components, Option.map_eq_some_iff] at normalized
    obtain ⟨base, resolved, rfl⟩ := normalized
    have cleanBase := components_clean marks.never idem (not_colon_of_valid (by simpa using allowed)) resolved
    split at ok
    · cases ok
    rename_i state run
    split at ok
    · rename_i shown
      cases ok
      obtain ⟨admitted, files, found⟩ := indexRecords_ok marks idem cleanBase run
      refine ⟨base, resolved, rfl, by simpa using files, ?_, ?_⟩
      · intro record member
        obtain ⟨i, inside, rfl⟩ := List.getElem_of_mem member
        exact admitted _ (List.mk_mem_zipIdx_iff_getElem?.mpr (List.getElem?_eq_getElem inside))
      · intro proper
        rcases found shown with whole | ⟨entry, member, shows⟩
        · have top : joined base = [] := by simpa using whole
          exact absurd ((joined_eq_nil fun segment member =>
            (cleanBase segment member).nonempty).mp top) proper
        · exact ⟨entry.1, List.fst_mem_of_mem_zipIdx member, shows⟩
    · cases ok
  · cases normalized

theorem not_rejected {archive : List ZipRecord} {root : WString} {base : List WString}
    (rootNames : components win root = some base)
    (admitted : ∀ record ∈ archive, Admitted win pages base record)
    (shown : base ≠ [] → ∃ record ∈ archive, ShowsRoot win pages base record) :
    ¬Rejected win pages archive root := by
  -- The report and the name of a record are the ones it was admitted with.
  have known {record : ZipRecord} {stat : ZipStat} {name : WString} (member : record ∈ archive)
      (named : RecordNamed pages record stat name) : name.head?.any isSeparator = false ∧
        validVirtualName name = true ∧ ∃ segments, components win name = some segments ∧
          ((below base segments).isSome → stat.isDirectory = false → stat.isSupported = true) := by
    obtain ⟨stat', name', segments, reported, decoded, relative, allowed, resolved, fits⟩ :=
      admitted record member
    obtain ⟨reported', decoded'⟩ := named
    rw [reported, Option.some_inj] at reported'
    subst reported'
    rw [decoded, Option.some_inj] at decoded'
    subst decoded'
    exact ⟨relative, allowed, segments, resolved, fits⟩
  intro rejected
  cases rejected with
  | undecodable member reported unread =>
      obtain ⟨stat, name, _, reported', decoded, _⟩ := admitted _ member
      rw [reported, Option.some_inj] at reported'
      subst reported'
      rw [unread] at decoded
      cases decoded
  | absolute member named leading =>
      obtain ⟨relative, _⟩ := known member named
      rw [relative] at leading
      cases leading
  | forbidden member named inside mark =>
      obtain ⟨_, allowed, _⟩ := known member named
      have kept := List.all_eq_true.mp allowed _ inside
      rw [mark] at kept
      cases kept
  | climbs member named leaves =>
      obtain ⟨_, _, segments, resolved, _⟩ := known member named
      rw [components, (Move.resolve_eq_none _).mpr leaves] at resolved
      cases resolved
  | unsupported member named rootNames' resolved within file unsupported =>
      obtain ⟨_, _, segments, resolved', fits⟩ := known member named
      rw [rootNames, Option.some_inj] at rootNames'
      subst rootNames'
      rw [resolved, Option.some_inj] at resolved'
      subst resolved'
      rw [fits (by rw [within]; rfl) file] at unsupported
      cases unsupported
  | rootless rootNames' proper absent =>
      rw [rootNames, Option.some_inj] at rootNames'
      subst rootNames'
      obtain ⟨record, member, shows⟩ := shown proper
      exact absent record member shows

/-- A successful index lists exactly the files below the root, each under a name that stays below
it; an archive with a rejected record, or without the root, has no index. -/
theorem zipIndex_exact (marks : KeepsMarks win.towlower)
    (idem : ∀ c, win.towlower (win.towlower c) = win.towlower c) (memory : ZipIndexMemory)
    (archive : List ZipRecord) (root : WString) :
    (∀ package, zipIndex win pages memory archive root = .ok package →
      vfsNormalizePath win root = some package.root ∧
        (∃ base, components win root = some base ∧
          package.files = archive.zipIdx.filterMap (indexedFile win pages base)) ∧
        ∀ file ∈ package.files, Contained file.relative ∧
          vfsNormalizePath win file.relative = some file.relative) ∧
      (Rejected win pages archive root →
        ∃ error, zipIndex win pages memory archive root = .error error) := by
  constructor
  · intro package ok
    obtain ⟨base, rootNames, top, files, admitted, _⟩ := zipIndex_ok marks idem ok
    refine ⟨?_, ⟨base, rootNames, files⟩, ?_⟩
    · rw [vfsNormalizePath_components, rootNames, top, Option.map_some]
    · intro file member
      rw [files] at member
      obtain ⟨entry, inside, indexed⟩ := List.mem_filterMap.mp member
      exact indexedFile_contained marks idem (admitted _ (List.fst_mem_of_mem_zipIdx inside)) indexed
  · intro rejected
    cases outcome : zipIndex win pages memory archive root with
    | error error => exact ⟨error, rfl⟩
    | ok package =>
        obtain ⟨base, rootNames, _, _, admitted, shown⟩ := zipIndex_ok marks idem outcome
        exact absurd rejected (not_rejected rootNames admitted shown)

end Exact

/-- A sibling of the root is not below it. -/
theorem zipIndex_exact_sibling :
    zipIndex asciiWindows asciiPages ampleMemory
        [asciiRecord "Mod/" true, asciiRecord "Mod/./A.bin" false, asciiRecord "modx/b" false]
        (wide "/mod") = .ok ⟨wide "mod", [⟨wide "a.bin", 1, 3⟩]⟩ ∧
      Contained (wide "a.bin") ∧
      vfsNormalizePath asciiWindows (wide "a.bin") = some (wide "a.bin") := by
  have run : zipIndex asciiWindows asciiPages ampleMemory
      [asciiRecord "Mod/" true, asciiRecord "Mod/./A.bin" false, asciiRecord "modx/b" false]
      (wide "/mod") = .ok ⟨wide "mod", [⟨wide "a.bin", 1, 3⟩]⟩ := by decide +kernel
  obtain ⟨_, _, contained⟩ :=
    (zipIndex_exact asciiLower_keepsMarks asciiLower_idem ampleMemory _ _).1 _ run
  exact ⟨run, contained _ List.mem_cons_self⟩

end Yafsml.Vfs
