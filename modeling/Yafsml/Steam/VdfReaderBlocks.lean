import Yafsml.Steam.VdfEvaluatorRuns
import Yafsml.Steam.VdfLookAhead
import Yafsml.Steam.VdfTree

/-!
# The reader and the parser

The reader returns from every text, and what it returns is what the parser makes of the text.
-/

namespace Yafsml.Steam

namespace VdfReader

/-! ## Objects -/

section Objects

variable {alloc : Nat → Bool} {data : Text}

def viewed {α : Type} (data : Text) (r : α × Reader) : α × VdfParser := (r.1, r.2.view data)

theorem allocate_view (p : Reader) : Steam.allocate alloc (p.view data) = viewed data (allocate alloc p) := rfl

theorem allocate_deepest (p : Reader) : (allocate alloc p).2.deepest = p.deepest := rfl

theorem newObject_view (p : Reader) : Steam.newObject alloc (p.view data) = viewed data (newObject alloc p) := by
  rw [Steam.newObject, newObject, allocate_view]
  cases allocate alloc p with
  | mk ok q =>
      cases ok with
      | false => rfl
      | true => rfl

theorem newObject_deepest (p : Reader) : (newObject alloc p).2.deepest = p.deepest := by
  have first := @allocate_deepest alloc p
  rw [newObject]
  revert first
  cases allocate alloc p with
  | mk ok q =>
      intro first
      cases ok with
      | false => exact first
      | true => exact (allocate_deepest q).trans first

theorem nextObject_view (current : VdfCurrent) (p : Reader) :
    Steam.nextObject alloc current (p.view data) = viewed data (nextObject alloc current p) := by
  cases current with
  | root => rfl
  | scratch => rfl
  | null => exact newObject_view p

theorem nextObject_deepest (current : VdfCurrent) (p : Reader) :
    (nextObject alloc current p).2.deepest = p.deepest := by
  cases current with
  | root => rfl
  | scratch => rfl
  | null => exact newObject_deepest p

section AppendChild

variable (accepted : Bool) (children : List VdfObject) (child : VdfObject) (p : Reader)

theorem appendChild_view :
    Steam.appendChild alloc accepted children child (p.view data) =
      viewed data (appendChild alloc accepted children child p) := by
  rw [Steam.appendChild, appendChild, allocate_view]
  change (if p.error || !accepted then _ else _) = _
  split_ifs
  · rfl
  · cases allocate alloc p with
    | mk ok q =>
        cases ok with
        | false => rfl
        | true => rfl

theorem appendChild_deepest : (appendChild alloc accepted children child p).2.deepest = p.deepest := by
  have first := @allocate_deepest alloc p
  rw [appendChild]
  split_ifs
  · rfl
  · revert first
    cases allocate alloc p with
    | mk ok q =>
        cases ok with
        | false => exact id
        | true => exact id

end AppendChild

end Objects

/-! ## Values -/

section Values

variable {alloc : Nat → Bool} {data : Text} {fuel : Nat} {p : Reader}

structure Reads (data : Text) (p : Reader) (r : Token) : Prop where
  view : r.view data = Steam.readToken (p.view data)
  deepest : r.parser.deepest = p.deepest
  short : ∀ t, r.token = some t → r.conditional = true → t.length ≤ data.length

theorem drop_length_le (data : Text) (get : Nat) : (data.drop get).length ≤ data.length := by
  rw [List.length_drop]
  exact Nat.sub_le _ _

theorem readToken_reads (enough : 4 * data.length < fuel) : Returns (readToken data fuel p) (Reads data p) := by
  have left := drop_length_le data p.get
  refine (readToken_returns (by omega)).mono fun r ⟨view, deepest⟩ => ⟨view, deepest, fun t token conditional => ?_⟩
  have progress := readToken_progress (p.view data)
  rw [← view] at progress
  exact (progress.conditional t token conditional).trans left

theorem afterConditional_returns (enough : 4 * data.length < fuel) {r : Token}
    (short : ∀ t, r.token = some t → r.conditional = true → t.length ≤ data.length) (accepted : Bool) :
    Returns (afterConditional data fuel r accepted) fun s =>
      (s.1.view data, s.2) = Steam.afterConditional (r.view data) accepted ∧ s.1.parser.deepest = r.parser.deepest := by
  obtain ⟨token, quoted, conditional, q⟩ := r
  cases conditional with
  | false => exact .pure ⟨rfl, rfl⟩
  | true =>
      cases token with
      | none => exact .pure ⟨rfl, rfl⟩
      | some token =>
          have fits : 4 * token.length ≤ fuel := by
            have := short token rfl rfl
            omega
          rw [afterConditional]
          dsimp only
          rw [VdfEvaluator.evaluateConditional_returns token fits]
          refine Returns.next (Returns.bind (readToken_reads enough) fun s reads => .pure ⟨?_, reads.deepest⟩)
          rw [reads.view]
          rfl

def Value.view (data : Text) (v : Value) : VdfValue := ⟨v.read.view data, v.accepted, v.children⟩

theorem readValue_returns (enough : 4 * data.length < fuel) (children : List VdfObject) (key : Text) :
    Returns (readValue data fuel p children key) fun v =>
      v.view data = Steam.readValue (p.view data) children key ∧ v.read.parser.deepest = p.deepest := by
  rw [readValue, Steam.readValue]
  refine Returns.bind (readToken_reads enough) fun r first => ?_
  refine Returns.bind (afterConditional_returns enough first.short true) fun s after => ?_
  obtain ⟨r', accepted⟩ := s
  obtain ⟨view, deepest⟩ := after
  rw [← first.view, ← view]
  dsimp only
  refine Returns.ite (fun assigned => ?_) fun plain => ?_
  · rw [if_pos (show (r'.view data).is equals = true from assigned)]
    refine Returns.bind (readToken_reads enough) fun t second => ?_
    have here : Steam.readToken (r'.view data).parser = t.view data := second.view.symm
    have deepest' := (second.deepest.trans deepest).trans first.deepest
    rw [here]
    refine Returns.ite (fun conditional => ?_) fun other => ?_
    · rw [if_pos (show (t.view data).conditional = true from conditional)]
      refine Returns.bind (afterConditional_returns enough second.short accepted) fun s after => ?_
      obtain ⟨view, deepest⟩ := after
      rw [← view]
      exact .pure ⟨rfl, deepest.trans deepest'⟩
    · rw [if_neg (show ¬ (t.view data).conditional = true from other)]
      exact .pure ⟨rfl, deepest'⟩
  · rw [if_neg (show ¬ (r'.view data).is equals = true from plain)]
    exact .pure ⟨rfl, deepest.trans first.deepest⟩

def Entry.view (data : Text) (e : Entry) : VdfEntry := ⟨e.child, e.accepted, e.children, e.parser.view data⟩

theorem loadString_returns (enough : 4 * data.length < fuel) (v : Value) (key : Text) :
    Returns (loadString data alloc fuel v key) fun e =>
      e.view data = Steam.loadString alloc (v.view data) key ∧ e.parser.deepest = v.read.parser.deepest := by
  have first := @allocate_deepest alloc v.read.parser
  have view : Steam.allocate alloc (v.view data).read.parser = viewed data (allocate alloc v.read.parser) := rfl
  rw [loadString, Steam.loadString, view]
  revert first
  cases allocate alloc v.read.parser with
  | mk ok q =>
      intro first
      cases ok with
      | false => exact .pure ⟨rfl, first⟩
      | true =>
          refine Returns.bind (readToken_reads enough) fun peek reads => ?_
          have here : Steam.readToken (viewed data (true, q)).2 = peek.view data := reads.view.symm
          have deepest := reads.deepest.trans first
          dsimp only [viewed] at here ⊢
          rw [here]
          refine Returns.ite (fun conditional => ?_) fun other => ?_
          · have fits : 4 * (peek.token.getD []).length ≤ fuel := by
              cases token : peek.token with
              | none => exact Nat.zero_le _
              | some t =>
                  have short := reads.short t token conditional
                  change 4 * t.length ≤ fuel
                  omega
            rw [if_pos (show (peek.view data).conditional = true from conditional),
              VdfEvaluator.evaluateConditional_returns _ fits]
            exact .next (.pure ⟨rfl, deepest⟩)
          · rw [if_neg (show ¬ (peek.view data).conditional = true from other)]
            refine .pure ⟨?_, deepest⟩
            rfl

end Values

/-! ## Blocks -/

section Heads

variable (data : Text) (alloc : Nat → Bool)

def entryHead (fuel : Nat) (p : Reader) (children : List VdfObject) :
    Option ((List VdfObject × Reader) ⊕ (Text × Value)) := do
  let r ← readToken data fuel p
  match r.token with
  | none => some (.inl (children, r.parser.fail))
  | some key =>
      if r.parser.error = true ∨ key = [] then some (.inl (children, r.parser.fail))
      else if r.is closeBrace then some (.inl (children, r.parser))
      else
        match newObject alloc r.parser with
        | (false, p) => some (.inl (children, p))
        | (true, p) => do
            let v ← readValue data fuel p children key
            if v.read.isNoValue then some (.inl (v.children, v.read.parser.fail)) else some (.inr (key, v))

def headView : (List VdfObject × Reader) ⊕ (Text × Value) → (List VdfObject × VdfParser) ⊕ (Text × VdfValue)
  | .inl ended => .inl (viewed data ended)
  | .inr (key, v) => .inr (key, v.view data)

def headReader : (List VdfObject × Reader) ⊕ (Text × Value) → Reader
  | .inl ended => ended.2
  | .inr (_, v) => v.read.parser

def readEntry (fuel depth : Nat) (v : Value) (key : Text) : Option Entry :=
  if v.read.is openBrace then do
    let (block, p) ← loadBlock data alloc fuel (depth + 1) v.read.parser
    some ⟨.array (some key) block, v.accepted, v.children, p⟩
  else loadString data alloc fuel v key

theorem loadEntries_head (fuel depth : Nat) (p : Reader) (children : List VdfObject) :
    loadEntries data alloc (fuel + 1) depth p children =
      (entryHead data alloc fuel p children >>= fun head =>
        match head with
        | .inl ended => some ended
        | .inr (key, v) =>
            readEntry data alloc fuel depth v key >>= fun e =>
              loadEntries data alloc fuel depth (appendChild alloc e.accepted e.children e.child e.parser).2
                (appendChild alloc e.accepted e.children e.child e.parser).1) := by
  rw [loadEntries, entryHead]
  cases readToken data fuel p with
  | none => rfl
  | some r =>
      obtain ⟨token, quoted, conditional, q⟩ := r
      cases token with
      | none => rfl
      | some key =>
          change (if q.error = true ∨ key = [] then _ else _) = (if q.error = true ∨ key = [] then _ else _) >>= _
          split_ifs
          · rfl
          · rfl
          · cases newObject alloc q with
            | mk ok q' =>
                cases ok with
                | false => rfl
                | true =>
                    dsimp only
                    cases readValue data fuel q' children key with
                    | none => rfl
                    | some v =>
                        change (if v.read.isNoValue = true then _ else _) =
                          (if v.read.isNoValue = true then _ else _) >>= _
                        by_cases none : v.read.isNoValue = true
                        · rw [if_pos none, if_pos none]
                          rfl
                        rw [if_neg none, if_neg none]
                        change _ = readEntry data alloc fuel depth v key >>= _
                        rw [readEntry]
                        by_cases opened : v.read.is openBrace = true
                        · rw [if_pos opened, if_pos opened]
                          cases loadBlock data alloc fuel (depth + 1) v.read.parser with
                          | none => rfl
                          | some block => rfl
                        · rw [if_neg opened, if_neg opened]

end Heads

section Blocks

variable {alloc : Nat → Bool} {data : Text} {fuel : Nat}

theorem entryHead_returns (enough : 4 * data.length < fuel) (p : Reader) (children : List VdfObject) :
    Returns (entryHead data alloc fuel p children) fun head =>
      headView data head = Steam.entryHead alloc (p.view data) children ∧ (headReader head).deepest = p.deepest := by
  rw [entryHead, Steam.entryHead]
  refine Returns.bind (readToken_reads enough) fun r reads => ?_
  have deepest := reads.deepest
  have token : (r.view data).token = r.token := rfl
  rw [← reads.view, token]
  cases r.token with
  | none => exact .pure ⟨rfl, deepest⟩
  | some key =>
      refine Returns.ite (fun bad => ?_) fun fine => ?_
      · have failed : (r.view data).parser.error = true ∨ key = [] := bad
        dsimp only
        rw [if_pos failed]
        exact .pure ⟨rfl, deepest⟩
      have fine' : ¬ ((r.view data).parser.error = true ∨ key = []) := fine
      dsimp only
      rw [if_neg fine']
      refine Returns.ite (fun closed => ?_) fun more => ?_
      · rw [if_pos (show (r.view data).is closeBrace = true from closed)]
        exact .pure ⟨rfl, deepest⟩
      have parser : (r.view data).parser = r.parser.view data := rfl
      have same := @newObject_deepest alloc r.parser
      rw [if_neg (show ¬ (r.view data).is closeBrace = true from more), parser, newObject_view]
      revert same
      cases newObject alloc r.parser with
      | mk ok q =>
          intro same
          cases ok with
          | false => exact .pure ⟨rfl, same.trans deepest⟩
          | true =>
              dsimp only [viewed]
              refine Returns.bind (readValue_returns enough children key) fun v read => ?_
              obtain ⟨view, deepest'⟩ := read
              rw [← view]
              refine Returns.ite (fun none => ?_) fun value => ?_
              · rw [if_pos (show (v.view data).read.isNoValue = true from none)]
                exact .pure ⟨rfl, (deepest'.trans same).trans deepest⟩
              · rw [if_neg (show ¬ (v.view data).read.isNoValue = true from value)]
                exact .pure ⟨rfl, (deepest'.trans same).trans deepest⟩

def parsedEntry (alloc : Nat → Bool) (n depth : Nat) (v : VdfValue) (key : Text) : VdfEntry :=
  if v.read.is openBrace then
    let block :=
      if vdfMaxDepth < depth + 1 then ([], v.read.parser.fail)
      else Steam.loadEntries alloc n (depth + 1) v.read.parser []
    ⟨.array (some key) block.1, v.accepted, v.children, block.2⟩
  else Steam.loadString alloc v key

theorem parsedEntries_head (n depth : Nat) (p : VdfParser) (children : List VdfObject) :
    Steam.loadEntries alloc (n + 1) depth p children =
      match Steam.entryHead alloc p children with
      | .inl ended => ended
      | .inr (key, v) =>
          let e := parsedEntry alloc n depth v key
          Steam.loadEntries alloc n depth (Steam.appendChild alloc e.accepted e.children e.child e.parser).2
            (Steam.appendChild alloc e.accepted e.children e.child e.parser).1 := by
  rw [← loadEntriesWith_loadString, loadEntriesWith, loadEntriesWith_loadString]
  rfl

theorem parsedEntry_later (n depth : Nat) (v : VdfValue) (key : Text) :
    v.read.parser.Later alloc (parsedEntry alloc n depth v key).parser := by
  rw [parsedEntry]
  dsimp only
  split_ifs
  · exact .fail
  · rw [← loadEntriesWith_loadString]
    exact loadEntriesWith_later loadString_later _ _ _ _
  · exact loadString_later v key

/-- The rest of the text, with the steps that it can take. -/
structure Enough (data : Text) (get fuel n : Nat) : Prop where
  fuel : 4 * data.length + 2 * (data.drop get).length + 1 < fuel
  n : (data.drop get).length < n

theorem readEntry_returns {n depth : Nat} {v : Value} {key : Text} (enough : 4 * data.length < fuel)
    (before : v.read.parser.deepest ≤ vdfMaxDepth + 1)
    (block : Returns (loadBlock data alloc fuel (depth + 1) v.read.parser) fun r =>
      viewed data r = (if vdfMaxDepth < depth + 1 then ([], (v.view data).read.parser.fail)
        else Steam.loadEntries alloc n (depth + 1) (v.view data).read.parser []) ∧ r.2.deepest ≤ vdfMaxDepth + 1) :
    Returns (readEntry data alloc fuel depth v key) fun e =>
      e.view data = parsedEntry alloc n depth (v.view data) key ∧ e.parser.deepest ≤ vdfMaxDepth + 1 := by
  rw [readEntry, parsedEntry]
  refine Returns.ite (fun opened => ?_) fun other => ?_
  · rw [if_pos (show (v.view data).read.is openBrace = true from opened)]
    refine Returns.bind block fun r ⟨view, deepest⟩ => .pure ⟨?_, deepest⟩
    dsimp only
    rw [← view]
    rfl
  · rw [if_neg (show ¬ (v.view data).read.is openBrace = true from other)]
    refine (loadString_returns enough v key).mono fun e ⟨view, deepest⟩ => ⟨view, ?_⟩
    rw [deepest]
    exact before

theorem loadEntries_returns {n depth : Nat} {p : Reader} {children : List VdfObject} (enough : Enough data p.get fuel n)
    (shallow : depth ≤ vdfMaxDepth) (before : p.deepest ≤ vdfMaxDepth + 1) :
    Returns (loadEntries data alloc fuel depth p children) fun r =>
      viewed data r = Steam.loadEntries alloc n depth (p.view data) children ∧ r.2.deepest ≤ vdfMaxDepth + 1 := by
  induction fuel using Nat.strongRecOn generalizing n depth p children with
  | ind fuel ih =>
      obtain ⟨steps, within⟩ := enough
      cases fuel with
      | zero => cases steps
      | succ fuel =>
      cases n with
      | zero => cases within
      | succ n =>
      have roomy : 4 * data.length < fuel := by omega
      have later := @entryHead_later alloc (p.view data) children
      rw [loadEntries_head, parsedEntries_head]
      refine Returns.bind (entryHead_returns roomy p children) fun head ⟨view, deepest⟩ => ?_
      rw [← view] at later ⊢
      cases head with
      | inl ended => exact .pure ⟨rfl, by rw [show ended.2.deepest = p.deepest from deepest]; exact before⟩
      | inr entry =>
          obtain ⟨key, v⟩ := entry
          obtain ⟨-, shorter, -⟩ := later
          change (data.drop v.read.parser.get).length < (data.drop p.get).length at shorter
          have before' : v.read.parser.deepest ≤ vdfMaxDepth + 1 := by
            rw [show v.read.parser.deepest = p.deepest from deepest]
            exact before
          have block : Returns (loadBlock data alloc fuel (depth + 1) v.read.parser) fun r =>
              viewed data r = (if vdfMaxDepth < depth + 1 then ([], (v.view data).read.parser.fail)
                else Steam.loadEntries alloc n (depth + 1) (v.view data).read.parser []) ∧
                r.2.deepest ≤ vdfMaxDepth + 1 := by
            cases fuel with
            | zero => omega
            | succ fuel =>
                have deeper : max v.read.parser.deepest (depth + 1) ≤ vdfMaxDepth + 1 :=
                  max_le before' (Nat.succ_le_succ shallow)
                rw [loadBlock]
                refine Returns.ite (fun deep => ?_) fun fits => ?_
                · rw [if_pos deep]
                  exact .pure ⟨rfl, deeper⟩
                · rw [if_neg fits]
                  exact @ih fuel (by omega) n (depth + 1) { v.read.parser with deepest := _ } []
                    ⟨by dsimp only; omega, by dsimp only; omega⟩ (Nat.le_of_not_lt fits) deeper
          dsimp only
          have later := @parsedEntry_later alloc n depth (v.view data) key
          refine Returns.bind (readEntry_returns roomy before' block) fun e ⟨view, deepest⟩ => ?_
          have appended : Steam.appendChild alloc (e.view data).accepted (e.view data).children (e.view data).child
              (e.view data).parser = viewed data (appendChild alloc e.accepted e.children e.child e.parser) :=
            appendChild_view ..
          have behind : (e.view data).parser.Later alloc (Steam.appendChild alloc (e.view data).accepted
              (e.view data).children (e.view data).child (e.view data).parser).2 := .appendChild
          rw [← view] at later
          rw [appended] at behind
          have same := @appendChild_deepest alloc e.accepted e.children e.child e.parser
          have left := behind.rest.trans later.rest
          change _ ≤ (data.drop v.read.parser.get).length at left
          dsimp only [headView]
          rw [← view, appended]
          refine ih fuel (Nat.lt_succ_self _) ⟨?_, ?_⟩ shallow (by rw [same]; exact deepest)
          · change 4 * data.length + 2 * (viewed data (appendChild alloc e.accepted e.children e.child e.parser)).2.rest.length
              + 1 < fuel
            omega
          · change (viewed data (appendChild alloc e.accepted e.children e.child e.parser)).2.rest.length < n
            omega

end Blocks

/-! ## The whole text -/

section Whole

variable {alloc : Nat → Bool} {data : Text} {fuel : Nat}

theorem loadBlock_returns {p : Reader} (steps : 4 * data.length + 2 * (data.drop p.get).length + 2 < fuel)
    (before : p.deepest ≤ vdfMaxDepth + 1) :
    Returns (loadBlock data alloc fuel 1 p) fun r =>
      viewed data r = Steam.loadBlock alloc (p.view data) 1 ∧ r.2.deepest ≤ vdfMaxDepth + 1 := by
  cases fuel with
  | zero => cases steps
  | succ fuel =>
      have top : ¬ vdfMaxDepth < 1 := by decide
      rw [loadBlock, Steam.loadBlock, if_neg top, if_neg top]
      exact @loadEntries_returns alloc data fuel ((data.drop p.get).length + 1) 1 { p with deepest := _ } []
        ⟨by dsimp only; omega, Nat.lt_succ_self _⟩ (by decide) (max_le before (by decide))

def Loading.view (data : Text) (l : Loading) : VdfLoading := ⟨l.root, l.current, l.parser.view data⟩

theorem loadEntry_returns {l : Loading} {key : Text} {p : Reader}
    (steps : 4 * data.length + 2 * (data.drop p.get).length + 2 < fuel) (before : p.deepest ≤ vdfMaxDepth + 1) :
    Returns (loadEntry data alloc fuel l key p) fun l' =>
      l'.view data = Steam.loadEntry alloc (l.view data) key (p.view data) ∧ l'.parser.deepest ≤ vdfMaxDepth + 1 := by
  have roomy : 4 * data.length < fuel := by omega
  have later : (p.view data).Later alloc (Steam.afterConditional (Steam.readToken (p.view data)) true).1.parser :=
    .afterConditional .readToken
  rw [loadEntry, Steam.loadEntry]
  refine Returns.bind (readToken_reads roomy) fun r reads => ?_
  refine Returns.bind (afterConditional_returns roomy reads.short true) fun s after => ?_
  obtain ⟨r', accepted⟩ := s
  obtain ⟨view, deepest⟩ := after
  have fine : r'.parser.deepest ≤ vdfMaxDepth + 1 := by
    rw [show r'.parser.deepest = p.deepest from deepest.trans reads.deepest]
    exact before
  rw [← reads.view, ← view] at later ⊢
  have left := later.rest
  change (data.drop r'.parser.get).length ≤ (data.drop p.get).length at left
  dsimp only
  refine Returns.ite (fun opened => ?_) fun other => ?_
  · refine Returns.bind (@loadBlock_returns alloc data fuel r'.parser (by omega) fine) fun r loaded => ?_
    obtain ⟨view, deepest⟩ := loaded
    have block : Steam.loadBlock alloc (r'.view data).parser 1 = viewed data r := view.symm
    refine .next (.pure ⟨?_, deepest⟩)
    rw [if_pos (show (r'.view data).is openBrace = true from opened), block]
    rfl
  · refine .next (.pure ⟨?_, fine⟩)
    rw [if_neg (show ¬ (r'.view data).is openBrace = true from other)]
    rfl

theorem parseEntries_returns {n : Nat} {l : Loading} (enough : Enough data l.parser.get fuel n)
    (before : l.parser.deepest ≤ vdfMaxDepth + 1) :
    Returns (parseEntries data alloc fuel l) fun l' =>
      l'.view data = Steam.parseEntries alloc n (l.view data) ∧ l'.parser.deepest ≤ vdfMaxDepth + 1 := by
  induction fuel generalizing n l with
  | zero => cases enough.fuel
  | succ fuel ih =>
      obtain ⟨steps, within⟩ := enough
      cases n with
      | zero => cases within
      | succ n =>
      have roomy : 4 * data.length < fuel := by omega
      have progress := readToken_progress (l.view data).parser
      have parser : (l.view data).parser = l.parser.view data := rfl
      rw [parseEntries, Steam.parseEntries]
      refine Returns.bind (readToken_reads roomy) fun r reads => ?_
      rw [parser, ← reads.view] at progress ⊢
      have fine : r.parser.deepest ≤ vdfMaxDepth + 1 := by
        rw [reads.deepest]
        exact before
      dsimp only
      refine Returns.ite (fun ended => ?_) fun more => ?_
      · have ended' : ((r.view data).parser.overflow || (r.view data).token.isNone ||
            (decide ((r.view data).token.getD [] = []) && !(r.view data).quoted)) = true := ended
        rw [if_pos ended']
        exact .pure ⟨rfl, fine⟩
      have more' : ¬ ((r.view data).parser.overflow || (r.view data).token.isNone ||
          (decide ((r.view data).token.getD [] = []) && !(r.view data).quoted)) = true := more
      have shorter : (data.drop r.parser.get).length < (data.drop l.parser.get).length := by
        cases token : r.token with
        | none =>
            rw [token] at more
            simp at more
        | some t =>
            rw [token] at more
            refine progress.token t token ?_
            simp only [Option.isNone_some, Bool.or_false, Option.getD_some, Bool.or_eq_true, Bool.and_eq_true,
              decide_eq_true_eq, Bool.not_eq_true', not_or, not_and, Bool.not_eq_false] at more
            exact (Decidable.em (t = [])).symm.imp id more.2
      rw [if_neg more']
      refine Returns.ite (fun include_ => ?_) fun entry => ?_
      · rw [if_pos (show asciiEqual ((r.view data).token.getD []) includeKey = true from include_)]
        refine Returns.bind (readToken_reads roomy) fun file reads' => ?_
        have later : (r.parser.view data).Later alloc (Steam.readToken (r.parser.view data)).parser := .readToken
        have here : Steam.readToken (r.view data).parser = file.view data := reads'.view.symm
        rw [← reads'.view] at later
        have left := later.rest
        change (data.drop file.parser.get).length ≤ (data.drop r.parser.get).length at left
        have fine' : file.parser.deepest ≤ vdfMaxDepth + 1 := by
          rw [reads'.deepest]
          exact fine
        rw [here]
        obtain ⟨q, is_q⟩ : ∃ q, q = if file.token.getD [] = [] then file.parser.fail else file.parser := ⟨_, rfl⟩
        have view : q.view data = if (file.view data).token.getD [] = [] then (file.view data).parser.fail
            else (file.view data).parser := by
          rw [is_q, apply_ite (Reader.view data)]
          rfl
        have get : q.get = file.parser.get := by
          rw [is_q, apply_ite Reader.get]
          exact ite_self _
        have deepest : q.deepest = file.parser.deepest := by
          rw [is_q, apply_ite Reader.deepest]
          exact ite_self _
        rw [← is_q, ← view]
        refine Returns.ite (fun stop => ?_) fun go_on => ?_
        · rw [if_pos (show ((q.view data).overflow || (q.view data).error) = true from stop)]
          exact .pure ⟨rfl, deepest ▸ fine'⟩
        · rw [if_neg (show ¬ ((q.view data).overflow || (q.view data).error) = true from go_on)]
          refine @ih n ⟨l.root, l.current, q⟩ ⟨?_, ?_⟩ (deepest ▸ fine')
          · rw [show q.get = file.parser.get from get]
            omega
          · rw [show q.get = file.parser.get from get]
            omega
      · rw [if_neg (show ¬ asciiEqual ((r.view data).token.getD []) includeKey = true from entry)]
        have same := @nextObject_deepest alloc l.current r.parser
        have made : (r.parser.view data).Later alloc (Steam.nextObject alloc l.current (r.parser.view data)).2 :=
          .nextObject
        have here : Steam.nextObject alloc (l.view data).current (r.view data).parser =
            viewed data (nextObject alloc l.current r.parser) := nextObject_view ..
        rw [nextObject_view] at made
        rw [here]
        revert made same
        cases nextObject alloc l.current r.parser with
        | mk ok q =>
            intro same made
            have fine' : q.deepest ≤ vdfMaxDepth + 1 := by
              rw [show q.deepest = r.parser.deepest from same]
              exact fine
            have left := made.rest
            change (data.drop q.get).length ≤ (data.drop r.parser.get).length at left
            cases ok with
            | false => exact .pure ⟨rfl, fine'⟩
            | true =>
                have loaded := loadEntryWith_later (@loadString_later alloc) (l.view data) (r.token.getD []) (q.view data)
                refine Returns.bind (loadEntry_returns (by omega) fine') fun l' loaded' => ?_
                obtain ⟨view, deepest⟩ := loaded'
                have here : Steam.loadEntry alloc (l.view data) ((r.view data).token.getD []) (viewed data (true, q)).2 =
                    l'.view data := view.symm
                dsimp only [viewed] at here ⊢
                rw [here]
                refine Returns.ite (fun stop => ?_) fun go_on => ?_
                · rw [if_pos (show ((l'.view data).parser.overflow || (l'.view data).parser.error) = true from stop)]
                  exact .pure ⟨rfl, deepest⟩
                · rw [if_neg (show ¬ ((l'.view data).parser.overflow || (l'.view data).parser.error) = true from go_on)]
                  have left' := loaded.rest
                  rw [loadEntryWith_loadString, ← view] at left'
                  change (data.drop l'.parser.get).length ≤ (data.drop q.get).length at left'
                  exact ih ⟨by omega, by omega⟩ deepest

end Whole

end VdfReader

end Yafsml.Steam
