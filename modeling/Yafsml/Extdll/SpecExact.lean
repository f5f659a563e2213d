import Yafsml.Extdll.Spec

/-!
# What a specification says

The entry of a specification in terms of its head and its conditions, and the specification of an entry.
-/

namespace Yafsml.Extdll
open Steam (Text ascii decimal digitsValue isDigit)

/-! ## Cutting -/

theorem cut_fst (mark : UInt8) (text : Text) : mark ∉ (cut mark text).1 := by
  induction text with
  | nil => exact List.not_mem_nil
  | cons c rest ih =>
      rw [cut]
      split
      · exact List.not_mem_nil
      · rename_i other
        rintro (_ | ⟨_, later⟩)
        · exact other rfl
        · exact ih later

theorem cut_none {mark : UInt8} {text : Text} (none : (cut mark text).2 = none) : (cut mark text).1 = text := by
  induction text with
  | nil => rfl
  | cons c rest ih =>
      rw [cut] at none ⊢
      split at none
      · cases none
      · rename_i other
        rw [if_neg other]
        exact congrArg (c :: ·) (ih none)

theorem cut_some {mark : UInt8} {text behind : Text} (found : (cut mark text).2 = some behind) :
    text = (cut mark text).1 ++ mark :: behind := by
  induction text with
  | nil => cases found
  | cons c rest ih =>
      rw [cut] at found ⊢
      split at found
      · rename_i here
        cases found
        rw [if_pos here, here]
        rfl
      · rename_i other
        rw [if_neg other]
        exact congrArg (c :: ·) (ih found)

theorem cut_splitOn (mark : UInt8) (text : Text) :
    text.splitOn mark = (cut mark text).1 :: ((cut mark text).2.elim [] fun behind => behind.splitOn mark) := by
  have plain := cut_fst mark text
  cases found : (cut mark text).2 with
  | none =>
      rw [cut_none found] at plain ⊢
      exact List.splitOn_eq_singleton plain
  | some behind =>
      have whole := cut_some found
      conv_lhs => rw [whole]
      exact List.splitOn_append_cons_self_of_not_mem plain _

theorem mem_splitOn_plain {mark : UInt8} {text field : Text} (member : field ∈ text.splitOn mark) : mark ∉ field := by
  induction size : text.length using Nat.strongRecOn generalizing text with
  | ind n ih =>
      rw [cut_splitOn] at member
      rcases List.mem_cons.mp member with rfl | later
      · exact cut_fst mark text
      · cases behind : (cut mark text).2 with
        | none =>
            rw [behind] at later
            cases later
        | some rest =>
            have shorter := congrArg List.length (cut_some behind)
            rw [List.length_append, List.length_cons] at shorter
            rw [behind] at later
            exact ih rest.length (by omega) later rfl

/-! ## The head -/

/-- The head is a path, and an initializer behind the first colon that is not exempt. -/
def Divides (exempt : Nat → Prop) (head path : Text) : Option Text → Prop
  | none => path = head ∧ ∀ i, head[i]? = some colon → exempt i
  | some initializer => head = path ++ colon :: initializer ∧ ¬ exempt path.length ∧
      ∀ i < path.length, head[i]? = some colon → exempt i

/-- The second character behind the prefix, if it is a colon. -/
def IsDriveColon (head : Text) (i : Nat) : Prop :=
  head[prefixLength head + 1]? = some colon ∧ i = prefixLength head + 1

/-- The first two characters behind the prefix, if the second is a colon. -/
def InDrive (head : Text) (i : Nat) : Prop :=
  head[prefixLength head + 1]? = some colon ∧ (i = prefixLength head ∨ i = prefixLength head + 1)

theorem isPathSeparator_colon {c : UInt8} (separator : isPathSeparator c = true) : c ≠ colon := by
  rintro rfl
  cases separator

theorem prefixLength_plain {head : Text} {i : Nat} (inside : i < prefixLength head) : head[i]? ≠ some colon := by
  unfold prefixLength at inside
  split at inside
  · rename_i a b c d rest
    split at inside
    · rename_i marks
      simp only [Bool.and_eq_true, Bool.or_eq_true, decide_eq_true_eq] at marks
      obtain ⟨⟨⟨first, second⟩, kind⟩, fourth⟩ := marks
      have third : c ≠ colon := by
        rcases kind with rfl | rfl
        · decide
        · decide
      intro found
      match i, inside with
      | 0, _ => exact isPathSeparator_colon first (Option.some.inj found)
      | 1, _ => exact isPathSeparator_colon second (Option.some.inj found)
      | 2, _ => exact third (Option.some.inj found)
      | 3, _ => exact isPathSeparator_colon fourth (Option.some.inj found)
    · cases inside
  · cases inside

theorem lt_pathStart_iff {head : Text} {i : Nat} (found : head[i]? = some colon) :
    i < pathStart head ↔ InDrive head i := by
  have behind (outside : i < prefixLength head) : False := prefixLength_plain outside found
  have second : head[prefixLength head + 1]? = (head.drop (prefixLength head))[1]? := by
    rw [List.getElem?_drop]
  rw [InDrive, second, pathStart]
  split
  · rename_i first c rest same
    rw [same]
    change _ ↔ some c = some colon ∧ _
    split
    · rename_i drive
      rw [drive]
      constructor
      · intro inside
        refine ⟨rfl, ?_⟩
        by_contra outside
        exact behind (by omega)
      · omega
    · rename_i other
      refine ⟨fun inside => (behind inside).elim, fun drive => ?_⟩
      exact absurd (Option.some.inj drive.1) other
  · rename_i short
    refine ⟨fun inside => (behind inside).elim, fun drive => ?_⟩
    have there := drive.1
    cases same : head.drop (prefixLength head) with
    | nil =>
        rw [same] at there
        cases there
    | cons first rest =>
        rw [same] at there
        cases rest with
        | nil => cases there
        | cons c rest => exact absurd same (short first c rest)

theorem cut_divides {exempt : Nat → Prop} {front rest : Text}
    (known : ∀ i, (front ++ rest)[i]? = some colon → (i < front.length ↔ exempt i)) :
    Divides exempt (front ++ rest) (front ++ (cut colon rest).1) (cut colon rest).2 := by
  have plain := cut_fst colon rest
  have none {i : Nat} (later : front.length ≤ i) (inside : i < (front ++ (cut colon rest).1).length) :
      (front ++ (cut colon rest).1)[i]? ≠ some colon := by
    rw [List.length_append] at inside
    rw [List.getElem?_append_right later]
    exact fun found => plain (List.mem_of_getElem? found)
  cases found : (cut colon rest).2 with
  | none =>
      rw [cut_none found] at none ⊢
      refine ⟨rfl, fun i is_colon => (known i is_colon).mp ?_⟩
      by_contra later
      refine none (Nat.le_of_not_lt later) ?_ is_colon
      by_contra outside
      rw [List.getElem?_eq_none (Nat.le_of_not_lt outside)] at is_colon
      cases is_colon
  | some initializer =>
      have whole : front ++ rest = front ++ (cut colon rest).1 ++ colon :: initializer := by
        conv_lhs => rw [cut_some found]
        rw [List.append_assoc]
      have mark : (front ++ rest)[(front ++ (cut colon rest).1).length]? = some colon := by
        rw [whole, List.getElem?_append_right (Nat.le_refl _), Nat.sub_self]
        rfl
      refine ⟨whole, fun drive => ?_, fun i within is_colon => (known i is_colon).mp ?_⟩
      · have early := (known _ mark).mpr drive
        rw [List.length_append] at early
        omega
      · by_contra later
        rw [whole, List.getElem?_append_left within] at is_colon
        exact none (Nat.le_of_not_lt later) within is_colon

theorem cutInitializer_divides (head : Text) :
    Divides (InDrive head) head (cutInitializer head).1 (cutInitializer head).2 := by
  have whole := List.take_append_drop (pathStart head) head
  have divides := @cut_divides (InDrive head) (head.take (pathStart head)) (head.drop (pathStart head)) fun i found => by
    rw [whole] at found
    rw [← lt_pathStart_iff found, List.length_take, Nat.lt_min]
    refine and_iff_left ?_
    by_contra outside
    rw [List.getElem?_eq_none (Nat.le_of_not_lt outside)] at found
    cases found
  rw [whole] at divides
  exact divides

/-! ## The conditions -/

/-- The stage and the delay that a valid condition asks for. A delay is a decimal number below 2^32. -/
def stageCondition (condition : Text) : Option (Stage × UInt32) :=
  if condition = ascii "early" then some (.early, 0)
  else if condition = ascii "data_ready" then some (.dataReady, 0)
  else
    let number := condition.drop 6
    if condition.take 6 = ascii "delay," ∧ number ≠ [] ∧ number.all isDigit ∧ digitsValue number < 2 ^ 32 then
      some (.delay, (digitsValue number).toUInt32)
    else none

def dependency (condition : Text) : Option Text :=
  if condition.take 6 = ascii "after," ∧ condition.drop 6 ≠ [] then some (condition.drop 6) else none

theorem parseDelay_eq (value : Text) :
    parseDelay value =
      if value ≠ [] ∧ value.all isDigit ∧ digitsValue value < 2 ^ 32 then some (digitsValue value).toUInt32
      else none := by
  rw [parseDelay]
  by_cases starts : value.head?.any isDigit = true
  · rw [starts, Bool.not_true, if_neg Bool.false_ne_true]
    have nonempty : value ≠ [] := by
      rintro rfl
      cases starts
    by_cases all : value.all isDigit = true
    · have digits : ∀ c ∈ value, isDigit c = true := List.all_eq_true.mp all
      rw [strtoul, Steam.takeWhile_digits digits, Steam.dropWhile_digits digits]
      dsimp only
      by_cases small : digitsValue value < 2 ^ 32
      · have inside : ¬ ulongMax < digitsValue value := by
          rw [ulongMax]
          omega
        rw [if_neg inside]
        refine (if_neg ?_).trans (if_pos ⟨nonempty, all, small⟩).symm
        rintro (past | empty | left | large)
        · cases past
        · exact nonempty empty.symm
        · exact left rfl
        · exact absurd small (Nat.not_lt.mpr large)
      · have outside : ulongMax < digitsValue value := by
          rw [ulongMax]
          omega
        rw [if_pos outside]
        exact (if_pos (.inl rfl)).trans (if_neg fun valid => small valid.2.2).symm
    · have left : value.dropWhile isDigit ≠ [] := fun none =>
        all (List.all_eq_true.mpr (List.dropWhile_eq_nil_iff.mp none))
      rw [if_neg fun valid => all valid.2.1, strtoul]
      dsimp only
      split
      · exact if_pos (.inl rfl)
      · exact if_pos (.inr (.inr (.inl left)))
  · rw [Bool.eq_false_iff.mpr starts, Bool.not_false, if_pos rfl, if_neg]
    rintro ⟨nonempty, all, -⟩
    obtain ⟨c, rest, rfl⟩ := List.exists_cons_of_ne_nil nonempty
    exact starts (List.all_eq_true.mp all c List.mem_cons_self)

theorem stageCondition_stage {condition : Text} {stage : Stage} {delayMs : UInt32}
    (valid : stageCondition condition = some (stage, delayMs)) :
    stage ≠ .normal ∧ (stage ≠ .delay → delayMs = 0) := by
  unfold stageCondition at valid
  dsimp only at valid
  split_ifs at valid
  · cases valid
    exact ⟨Stage.noConfusion, fun _ => rfl⟩
  · cases valid
    exact ⟨Stage.noConfusion, fun _ => rfl⟩
  · cases valid
    exact ⟨Stage.noConfusion, fun other => absurd rfl other⟩

def SpecDll.Undelayed (dll : SpecDll) : Prop := dll.stage = .normal → dll.delayMs = 0

theorem readCondition_eq (condition : Text) {dll : SpecDll} (undelayed : dll.Undelayed) :
    readCondition condition dll =
      match stageCondition condition with
      | some (stage, delayMs) => if dll.stage = .normal then { dll with stage, delayMs } else dll
      | none => { dll with after := dll.after ++ (dependency condition).toList } := by
  have kept (stage : Stage) : (if dll.stage ≠ .normal then dll else { dll with stage }) =
      if dll.stage = .normal then { dll with stage, delayMs := 0 } else dll := by
    by_cases normal : dll.stage = .normal
    · rw [if_neg (not_not_intro normal), if_pos normal, ← undelayed normal]
    · rw [if_pos normal, if_neg normal]
  have unchanged : dll = { dll with after := dll.after ++ (none : Option Text).toList } := by
    rw [Option.toList_none, List.append_nil]
  rw [readCondition, stageCondition, dependency]
  by_cases early : condition = ascii "early"
  · rw [if_pos early, if_pos early]
    exact kept .early
  rw [if_neg early, if_neg early]
  by_cases ready : condition = ascii "data_ready"
  · rw [if_pos ready, if_pos ready]
    exact kept .dataReady
  rw [if_neg ready, if_neg ready, parseDelay_eq]
  dsimp only
  by_cases delay : condition.take 6 = ascii "delay,"
  · have other : condition.take 6 ≠ ascii "after," := by
      rw [delay]
      decide
    rw [if_pos delay, if_neg (not_and_of_not_left _ other)]
    by_cases valid : condition.drop 6 ≠ [] ∧ (condition.drop 6).all isDigit ∧ digitsValue (condition.drop 6) < 2 ^ 32
    · rw [if_pos valid, if_pos ⟨delay, valid⟩]
      exact ite_not ..
    · rw [if_neg valid, if_neg fun all => valid all.2]
      exact unchanged
  · rw [if_neg delay, if_neg (not_and_of_not_left _ delay)]
    by_cases named : condition.take 6 = ascii "after," ∧ condition.drop 6 ≠ []
    · rw [if_pos named, if_pos named]
      rfl
    · rw [if_neg named, if_neg named]
      exact unchanged

theorem dependency_none {condition : Text} {stage : Stage} {delayMs : UInt32}
    (valid : stageCondition condition = some (stage, delayMs)) : dependency condition = none := by
  unfold stageCondition at valid
  refine if_neg fun named => ?_
  dsimp only at valid
  split_ifs at valid with early ready delay
  · rw [early] at named
    exact absurd named.1 (by decide)
  · rw [ready] at named
    exact absurd named.1 (by decide)
  · rw [delay.1] at named
    exact absurd named.1 (by decide)

def stageFrom (conditions : List Text) (stage : Stage) (delayMs : UInt32) : Stage × UInt32 :=
  if stage = .normal then (conditions.findSome? stageCondition).getD (.normal, 0) else (stage, delayMs)

theorem foldl_readCondition (conditions : List Text) {dll : SpecDll} (undelayed : dll.Undelayed) :
    conditions.foldl (fun dll condition => readCondition condition dll) dll =
      { dll with
        stage := (stageFrom conditions dll.stage dll.delayMs).1
        delayMs := (stageFrom conditions dll.stage dll.delayMs).2
        after := dll.after ++ conditions.filterMap dependency } := by
  induction conditions generalizing dll with
  | nil =>
      rw [List.foldl_nil, List.filterMap_nil, List.append_nil, stageFrom]
      split
      · rename_i normal
        obtain ⟨name, basePath, initializer, stage, delayMs, after⟩ := dll
        cases normal
        exact congrArg (SpecDll.mk name basePath initializer .normal · after) (undelayed rfl)
      · rfl
  | cons condition conditions ih =>
      have step := readCondition_eq condition undelayed
      rw [List.foldl_cons]
      cases valid : stageCondition condition with
      | some found =>
          obtain ⟨stage, delayMs⟩ := found
          obtain ⟨own, -⟩ := stageCondition_stage valid
          rw [valid] at step
          dsimp only at step
          rw [List.filterMap_cons_none (dependency_none valid), stageFrom]
          by_cases normal : dll.stage = .normal
          · rw [if_pos normal] at step
            rw [if_pos normal, List.findSome?_cons, valid, step, ih (fun wrong => absurd wrong own), stageFrom, if_neg own]
            rfl
          · rw [if_neg normal] at step
            rw [if_neg normal, step, ih undelayed, stageFrom, if_neg normal]
      | none =>
          rw [valid] at step
          dsimp only at step
          have same : stageFrom (condition :: conditions) dll.stage dll.delayMs =
              stageFrom conditions dll.stage dll.delayMs := by
            rw [stageFrom, List.findSome?_cons, valid, stageFrom]
          have names : dll.after ++ (dependency condition).toList ++ conditions.filterMap dependency =
              dll.after ++ (condition :: conditions).filterMap dependency := by
            rw [List.append_assoc, List.filterMap_cons]
            cases dependency condition with
            | none => rfl
            | some name => rfl
          have later : SpecDll.Undelayed { dll with after := dll.after ++ (dependency condition).toList } := undelayed
          rw [step, ih later, same, ← names]

theorem readConditions_eq (text : Text) {fuel : Nat} (enough : text.length < fuel) (dll : SpecDll) :
    readConditions fuel (some text) dll =
      (text.splitOn bar).foldl (fun dll condition => readCondition condition dll) dll := by
  induction fuel generalizing text dll with
  | zero => cases enough
  | succ fuel ih =>
      cases text with
      | nil => rfl
      | cons c rest =>
          rw [readConditions, cut_splitOn bar (c :: rest), List.foldl_cons]
          change readConditions fuel (cut bar (c :: rest)).2 _ = _
          cases behind : (cut bar (c :: rest)).2 with
          | none =>
              cases fuel with
              | zero => rfl
              | succ fuel => rfl
          | some next =>
              have shorter := congrArg List.length (cut_some behind)
              rw [List.length_append, List.length_cons, List.length_cons] at shorter
              rw [List.length_cons] at enough
              exact ih next (by omega) _

/-! ## The whole specification -/

/-- What the conversions between UTF-8 and UTF-16 do: a text has an empty conversion exactly if it is empty, and
the conversion back gives it again. -/
structure Utf8 (decode : Text → Option WString) (encode : WString → Text) : Prop where
  empty : decode [] = some []
  nonempty : ∀ text, decode text = some [] → text = []
  encode : ∀ text wide, decode text = some wide → encode wide = text

def entryOf (name : Text) (basePath : WString) (initializer : Option Text) (conditions : List Text) : SpecDll where
  name := name
  basePath := basePath
  initializer := initializer
  stage := ((conditions.findSome? stageCondition).getD (.normal, 0)).1
  delayMs := ((conditions.findSome? stageCondition).getD (.normal, 0)).2
  after := conditions.filterMap dependency

section Whole

variable {decode : Text → Option WString} {encode : WString → Text}

theorem extdllsAddSpec_eq (utf8 : Utf8 decode encode) (name head : Text) (conditions : List Text) (value : Text)
    (fields : value.splitOn bar = head :: conditions) (dlls : List SpecDll) :
    extdllsAddSpec decode name value dlls =
      if (cutInitializer head).1 = [] ∨ (cutInitializer head).2 = some [] then dlls
      else dlls ++ ((decode (cutInitializer head).1).map fun basePath =>
        entryOf name basePath (cutInitializer head).2 conditions).toList := by
  have split := cut_splitOn bar value
  rw [fields, List.cons.injEq] at split
  obtain ⟨rfl, rest⟩ := split
  have read (dll : SpecDll) : readConditions (value.length + 1) (cut bar value).2 dll =
      conditions.foldl (fun dll condition => readCondition condition dll) dll := by
    rw [rest]
    cases behind : (cut bar value).2 with
    | none => rfl
    | some text =>
        have shorter := congrArg List.length (cut_some behind)
        rw [List.length_append, List.length_cons] at shorter
        exact readConditions_eq text (by omega) dll
  rw [extdllsAddSpec]
  dsimp only
  by_cases nameless : (cutInitializer (cut bar value).1).2 = some []
  · rw [if_pos nameless, if_pos (.inr nameless)]
  rw [if_neg nameless]
  cases decoded : decode (cutInitializer (cut bar value).1).1 with
  | none =>
      rw [Option.map_none, Option.toList_none, List.append_nil, ite_self]
  | some basePath =>
      have empty_iff : basePath.length + 1 ≤ 1 ↔ (cutInitializer (cut bar value).1).1 = [] := by
        have zero : basePath.length + 1 ≤ 1 ↔ basePath.length = 0 := by omega
        rw [zero, List.length_eq_zero_iff]
        constructor
        · rintro rfl
          exact utf8.nonempty _ decoded
        · intro empty
          rw [empty, utf8.empty] at decoded
          exact (Option.some.inj decoded).symm
      by_cases empty : (cutInitializer (cut bar value).1).1 = []
      · rw [if_pos (.inl empty)]
        exact if_pos (empty_iff.mpr empty)
      · rw [if_neg (not_or.mpr ⟨empty, nameless⟩)]
        refine (if_neg (mt empty_iff.mp empty)).trans ?_
        rw [read, foldl_readCondition conditions (fun _ => rfl)]
        rfl

/-! ## Writing an entry back -/

def writtenStage (dll : SpecDll) : List Text :=
  match dll.stage with
  | .normal => []
  | .early => [ascii "early"]
  | .dataReady => [ascii "data_ready"]
  | .delay => [ascii "delay," ++ decimal dll.delayMs.toNat]

def writtenConditions (dll : SpecDll) : List Text := writtenStage dll ++ dll.after.map (ascii "after," ++ ·)

def writeSpec (encode : WString → Text) (dll : SpecDll) : Text :=
  encode dll.basePath ++ dll.initializer.elim [] (colon :: ·) ++ (writtenConditions dll).flatMap (bar :: ·)

theorem splitOn_fields {head : Text} {conditions : List Text} (plain : bar ∉ head)
    (all : ∀ condition ∈ conditions, bar ∉ condition) :
    (head ++ conditions.flatMap (bar :: ·)).splitOn bar = head :: conditions := by
  induction conditions generalizing head with
  | nil =>
      rw [List.flatMap_nil, List.append_nil]
      exact List.splitOn_eq_singleton plain
  | cons condition conditions ih =>
      rw [List.flatMap_cons, List.cons_append, List.splitOn_append_cons_self_of_not_mem plain,
        ih (all condition List.mem_cons_self) fun c member => all c (List.mem_cons_of_mem _ member)]

theorem stageCondition_delay (delayMs : UInt32) :
    stageCondition (ascii "delay," ++ decimal delayMs.toNat) = some (.delay, delayMs) := by
  have early : ascii "delay," ++ decimal delayMs.toNat ≠ ascii "early" := by
    intro same
    cases congrArg List.head? same
  have ready : ascii "delay," ++ decimal delayMs.toNat ≠ ascii "data_ready" := by
    intro same
    cases congrArg (List.head? ∘ List.tail) same
  have front : (ascii "delay," ++ decimal delayMs.toNat).take 6 = ascii "delay," := List.take_left' (by decide)
  have number : (ascii "delay," ++ decimal delayMs.toNat).drop 6 = decimal delayMs.toNat := List.drop_left' (by decide)
  have digits := List.all_eq_true.mpr (Steam.decimal_isDigit delayMs.toNat)
  have value := Steam.digitsValue_decimal delayMs.toNat
  rw [stageCondition, if_neg early, if_neg ready]
  dsimp only
  rw [front, number, value, if_pos ⟨rfl, Steam.decimal_ne_nil _, digits, delayMs.toNat_lt⟩]
  exact congrArg (fun n => some (Stage.delay, n)) (UInt32.ofNat_toNat ..)

theorem after_condition {name : Text} (named : name ≠ []) :
    dependency (ascii "after," ++ name) = some name ∧ stageCondition (ascii "after," ++ name) = none := by
  have front : (ascii "after," ++ name).take 6 = ascii "after," := List.take_left' (by decide)
  have rest : (ascii "after," ++ name).drop 6 = name := List.drop_left' (by decide)
  constructor
  · rw [dependency, front, rest, if_pos ⟨rfl, named⟩]
  · have early : ascii "after," ++ name ≠ ascii "early" := by
      intro same
      cases congrArg List.head? same
    have ready : ascii "after," ++ name ≠ ascii "data_ready" := by
      intro same
      cases congrArg List.head? same
    rw [stageCondition, if_neg early, if_neg ready, front]
    exact if_neg fun wrong => absurd wrong.1 (by decide)

theorem entryOf_stage (name : Text) (basePath : WString) (initializer : Option Text) (conditions : List Text) :
    let dll := entryOf name basePath initializer conditions
    dll.stage ≠ .delay → dll.delayMs = 0 := by
  intro dll other
  cases found : conditions.findSome? stageCondition with
  | none =>
      change ((conditions.findSome? stageCondition).getD (.normal, 0)).2 = 0
      rw [found]
      rfl
  | some valid =>
      obtain ⟨stage, delayMs⟩ := valid
      obtain ⟨condition, -, valid⟩ := List.exists_of_findSome?_eq_some found
      change ((conditions.findSome? stageCondition).getD (.normal, 0)).1 ≠ .delay at other
      change ((conditions.findSome? stageCondition).getD (.normal, 0)).2 = 0
      rw [found] at other ⊢
      exact (stageCondition_stage valid).2 other

theorem dependency_some {condition name : Text} (found : dependency condition = some name) :
    name ≠ [] ∧ condition = ascii "after," ++ name := by
  unfold dependency at found
  split at found
  · rename_i named
    cases found
    exact ⟨named.2, by rw [← named.1, List.take_append_drop]⟩
  · cases found

theorem entryOf_written {dll : SpecDll} (delays : dll.stage ≠ .delay → dll.delayMs = 0)
    (names : ∀ name ∈ dll.after, name ≠ []) :
    entryOf dll.name dll.basePath dll.initializer (writtenConditions dll) = dll := by
  have after : (dll.after.map (ascii "after," ++ ·)).filterMap dependency = dll.after := by
    rw [List.filterMap_map]
    refine (List.filterMap_congr fun name member => (after_condition (names name member)).1).trans ?_
    exact List.filterMap_some
  have quiet : (dll.after.map (ascii "after," ++ ·)).findSome? stageCondition = none := by
    rw [List.findSome?_eq_none_iff]
    intro condition member
    obtain ⟨name, named, rfl⟩ := List.mem_map.mp member
    exact (after_condition (names name named)).2
  obtain ⟨name, basePath, initializer, stage, delayMs, names'⟩ := dll
  dsimp only at delays after quiet
  unfold entryOf writtenConditions writtenStage
  dsimp only
  cases stage with
  | normal =>
      dsimp only
      rw [List.nil_append, quiet, after, delays Stage.noConfusion]
      rfl
  | early =>
      dsimp only
      rw [List.cons_append, List.nil_append, List.findSome?_cons, List.filterMap_cons_none (by decide), after,
        delays Stage.noConfusion]
      rfl
  | dataReady =>
      dsimp only
      rw [List.cons_append, List.nil_append, List.findSome?_cons, List.filterMap_cons_none (by decide), after,
        delays Stage.noConfusion]
      rfl
  | delay =>
      have valid := stageCondition_delay delayMs
      dsimp only
      rw [List.cons_append, List.nil_append, List.findSome?_cons, valid, List.filterMap_cons_none (dependency_none valid),
        after]
      rfl

theorem Divides.whole {exempt : Nat → Prop} {head path : Text} {initializer : Option Text}
    (divides : Divides exempt head path initializer) : path ++ initializer.elim [] (colon :: ·) = head := by
  cases initializer with
  | none => exact (List.append_nil path).trans divides.1
  | some initializer => exact divides.1.symm

theorem writtenStage_plain (dll : SpecDll) (condition : Text) (member : condition ∈ writtenStage dll) :
    bar ∉ condition := by
  unfold writtenStage at member
  cases stage : dll.stage with
  | normal =>
      rw [stage] at member
      cases member
  | early =>
      rw [stage, List.mem_singleton] at member
      rw [member]
      decide
  | dataReady =>
      rw [stage, List.mem_singleton] at member
      rw [member]
      decide
  | delay =>
      rw [stage, List.mem_singleton] at member
      rw [member, List.mem_append, not_or]
      refine ⟨by decide, fun digit => ?_⟩
      exact absurd (Steam.decimal_isDigit _ bar digit) (by decide)

/-- A specification adds the entry that its head and its conditions describe or nothing, and the entry can be
written back. -/
theorem extdllsAddSpec_exact (utf8 : Utf8 decode encode) (name value : Text) (dlls : List SpecDll) :
    ∃ head conditions path initializer, value.splitOn bar = head :: conditions ∧
      Divides (InDrive head) head path initializer ∧
      (path = [] ∨ decode path = none ∨ initializer = some [] → extdllsAddSpec decode name value dlls = dlls) ∧
      ∀ basePath, path ≠ [] → decode path = some basePath → initializer ≠ some [] →
        let dll := entryOf name basePath initializer conditions
        extdllsAddSpec decode name value dlls = dlls ++ [dll] ∧
        ∀ others, extdllsAddSpec decode dll.name (writeSpec encode dll) others = others ++ [dll] := by
  obtain ⟨head, conditions, fields⟩ := List.exists_cons_of_ne_nil (List.splitOn_ne_nil bar value)
  have divides := cutInitializer_divides head
  have read (other : Text) (conditions : List Text) (text : Text) (fields : text.splitOn bar = head :: conditions) :=
    extdllsAddSpec_eq utf8 other head conditions text fields
  have plain (field : Text) (member : field ∈ value.splitOn bar) : bar ∉ field := mem_splitOn_plain member
  rw [fields] at plain
  refine ⟨head, conditions, _, _, fields, divides, ?_, ?_⟩
  · rw [read name conditions value fields]
    rintro (empty | invalid | nameless)
    · exact if_pos (.inl empty)
    · rw [invalid, Option.map_none, Option.toList_none, List.append_nil, ite_self]
    · exact if_pos (.inr nameless)
  · intro basePath nonempty decoded named dll
    have adds (other : Text) (conditions : List Text) (text : Text) (fields : text.splitOn bar = head :: conditions)
        (dlls : List SpecDll) : extdllsAddSpec decode other text dlls =
          dlls ++ [entryOf other basePath (cutInitializer head).2 conditions] := by
      rw [read other conditions text fields, if_neg (not_or.mpr ⟨nonempty, named⟩), decoded]
      rfl
    refine ⟨adds name conditions value fields dlls, fun others => ?_⟩
    have names (text : Text) (member : text ∈ dll.after) : ∃ condition ∈ conditions, dependency condition = some text :=
      List.mem_filterMap.mp member
    have whole : encode basePath ++ (cutInitializer head).2.elim [] (colon :: ·) = head := by
      rw [utf8.encode _ _ decoded]
      exact divides.whole
    have written : (writeSpec encode dll).splitOn bar = head :: writtenConditions dll := by
      have fields : writeSpec encode dll = head ++ (writtenConditions dll).flatMap (bar :: ·) := by
        rw [← whole]
        rfl
      rw [fields]
      refine splitOn_fields (plain head List.mem_cons_self) fun condition member => ?_
      rcases List.mem_append.mp member with stage | after
      · exact writtenStage_plain dll condition stage
      · obtain ⟨text, named, rfl⟩ := List.mem_map.mp after
        obtain ⟨own, listed, found⟩ := names text named
        rw [← (dependency_some found).2]
        exact plain own (List.mem_cons_of_mem _ listed)
    have same := entryOf_written (entryOf_stage name basePath (cutInitializer head).2 conditions) fun text member => by
      obtain ⟨condition, -, found⟩ := names text member
      exact (dependency_some found).1
    rw [adds dll.name (writtenConditions dll) _ written]
    exact congrArg (fun entry => others ++ [entry]) same

end Whole

/-- The conversion of texts with no character but ASCII. -/
def asciiDecode (text : Text) : Option WString :=
  if text.all (· < 128) then some (text.map UInt8.toUInt16) else none

def asciiEncode (wide : WString) : Text := wide.map UInt16.toUInt8

theorem asciiUtf8 : Utf8 asciiDecode asciiEncode where
  empty := rfl
  nonempty text decoded := by
    unfold asciiDecode at decoded
    split at decoded
    · exact List.map_eq_nil_iff.mp (Option.some.inj decoded)
    · cases decoded
  encode text wide decoded := by
    unfold asciiDecode at decoded
    split at decoded
    · cases decoded
      rw [asciiEncode, List.map_map]
      exact (List.map_congr_left fun c _ => UInt8.toUInt8_toUInt16 c).trans (List.map_id text)
    · cases decoded

theorem extdllsAddSpec_exact_drive :
    ∃ head conditions path initializer,
      (ascii "C:\\m.dll:f|delay,25||early|after,d").splitOn bar = head :: conditions ∧
      Divides (InDrive head) head path initializer ∧
      (path = [] ∨ asciiDecode path = none ∨ initializer = some [] →
        extdllsAddSpec asciiDecode (ascii "m") (ascii "C:\\m.dll:f|delay,25||early|after,d") [] = []) ∧
      ∀ basePath, path ≠ [] → asciiDecode path = some basePath → initializer ≠ some [] →
        let dll := entryOf (ascii "m") basePath initializer conditions
        extdllsAddSpec asciiDecode (ascii "m") (ascii "C:\\m.dll:f|delay,25||early|after,d") [] = [] ++ [dll] ∧
        ∀ others, extdllsAddSpec asciiDecode dll.name (writeSpec asciiEncode dll) others = others ++ [dll] :=
  extdllsAddSpec_exact asciiUtf8 (ascii "m") (ascii "C:\\m.dll:f|delay,25||early|after,d") []

/-- A colon before the drive colon does not end the path. -/
theorem extdllsAddSpec_colons :
    ¬ ∀ (decode : Text → Option WString) (encode : WString → Text), Utf8 decode encode →
      ∀ (name value : Text) (dlls : List SpecDll), ∃ head conditions path initializer,
        value.splitOn bar = head :: conditions ∧ Divides (IsDriveColon head) head path initializer ∧
        (path = [] ∨ decode path = none ∨ initializer = some [] → extdllsAddSpec decode name value dlls = dlls) ∧
        ∀ basePath, path ≠ [] → decode path = some basePath → initializer ≠ some [] →
          let dll := entryOf name basePath initializer conditions
          extdllsAddSpec decode name value dlls = dlls ++ [dll] ∧
          ∀ others, extdllsAddSpec decode dll.name (writeSpec encode dll) others = others ++ [dll] := by
  intro always
  obtain ⟨head, conditions, path, initializer, fields, divides, nothing, -⟩ :=
    always asciiDecode asciiEncode asciiUtf8 (ascii "m") (ascii "::x") []
  have split : (ascii "::x").splitOn bar = [ascii "::x"] := by decide
  rw [split] at fields
  cases fields
  have first : ¬ IsDriveColon (ascii "::x") 0 := fun drive => absurd drive.2 (by decide)
  have empty : path = [] := by
    cases initializer with
    | none => exact absurd (divides.2 0 rfl) first
    | some initializer =>
        by_contra nonempty
        exact first (divides.2.2 0 (List.length_pos_iff.mpr nonempty) rfl)
  have added : extdllsAddSpec asciiDecode (ascii "m") (ascii "::x") [] ≠ [] := by decide
  exact added (nothing (.inl empty))

end Yafsml.Extdll
