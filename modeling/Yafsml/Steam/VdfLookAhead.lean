import Yafsml.Steam.VdfProgress

/-!
# Looking ahead

After a value the parser looks one token ahead for a conditional, and goes back if there is none. It reads
the same text if it goes back to what it was before.
-/

namespace Yafsml.Steam

variable (alloc : Nat → Bool)

/-- Stores a value, and goes on as before if there is no conditional behind it. -/
def plainString (v : VdfValue) (key : Text) : VdfEntry :=
  match allocate alloc v.read.parser with
  | (false, p) => ⟨.none (some key), v.accepted, v.children, p⟩
  | (true, p) =>
      let child := VdfObject.string (some key) (storedValue (v.read.token.getD []))
      let peek := readToken p
      if peek.conditional then
        let accepted := evaluateConditional (peek.token.getD [])
        ⟨child, accepted, if accepted then removeFirstNamed v.children key else v.children, peek.parser⟩
      else ⟨child, v.accepted, v.children, p⟩

variable {alloc}

def VdfParser.Stuck (p : VdfParser) : Prop := (readToken p).token = none ∨ (readToken p).parser.error = true

theorem stuck_relabel {p : VdfParser} (stuck : p.Stuck) (error : Bool) (attempts : Nat) :
    (p.relabel error attempts).Stuck := by
  rw [VdfParser.Stuck, readToken_relabel]
  rcases stuck with none | failed
  · exact .inl none
  · refine .inr ?_
    change (_ || _) = true
    rw [failed, Bool.true_or]

theorem stuck_appendChild {p : VdfParser} (stuck : p.Stuck) (accepted : Bool) (children : List VdfObject)
    (child : VdfObject) : (appendChild alloc accepted children child p).2.Stuck := by
  have allocated := stuck_relabel stuck (!alloc p.attempts) (p.attempts + 1)
  rw [appendChild]
  split_ifs
  · exact stuck
  · rw [allocate]
    cases ok : alloc p.attempts with
    | false => rwa [ok] at allocated
    | true => rwa [ok] at allocated

theorem stuck_loadEntriesWith {store : VdfValue → Text → VdfEntry} {p : VdfParser} (stuck : p.Stuck) (fuel depth : Nat)
    (children : List VdfObject) : (loadEntriesWith alloc store fuel depth p children).2.error = true := by
  cases fuel with
  | zero => rfl
  | succ fuel =>
      rw [loadEntriesWith, entryHead]
      dsimp only
      cases token : (readToken p).token with
      | none => rfl
      | some key =>
          have failed := stuck.resolve_left (by rw [token]; exact Option.some_ne_none key)
          dsimp only
          rw [if_pos (.inl failed)]
          rfl

theorem loadString_plain {v : VdfValue} (ended : v.read.parser.Ended) (key : Text) :
    loadString alloc v key = plainString alloc v key ∨
      (loadString alloc v key).parser.Stuck ∧ (plainString alloc v key).parser.Stuck := by
  have first : v.read.parser.Later alloc (allocate alloc v.read.parser).2 := .allocate
  rw [loadString, plainString]
  revert first
  cases allocate alloc v.read.parser with
  | mk ok p =>
      intro first
      cases ok with
      | false => exact .inl rfl
      | true =>
          dsimp only
          by_cases conditional : (readToken p).conditional = true
          · rw [if_pos conditional, if_pos conditional]
            exact .inl rfl
          rw [if_neg conditional, if_neg conditional]
          by_cases failed : (readToken p).parser.error = true
          · exact .inr ⟨.inr (readToken_error failed), .inr failed⟩
          have fine : p.error = false := by
            rw [Bool.eq_false_iff]
            exact fun was => failed (readToken_error was)
          have back : { (readToken p).parser with rest := p.rest, overflow := false } = { p with overflow := false } := by
            dsimp only
            rw [readToken_attempts, Bool.eq_false_iff.mpr failed, ← fine]
          rw [back]
          cases past : p.overflow with
          | false =>
              rw [← past]
              exact .inl rfl
          | true =>
              have none_left : p.rest = [] := first.ended ended past
              refine .inr ⟨.inl ?_, .inl ?_⟩
              · rw [readToken, eatWhiteSpace, none_left]
                rfl
              · rw [readToken, if_pos past]

theorem loadEntriesWith_plain {p : VdfParser} (ended : p.Ended) (fuel depth : Nat) (children : List VdfObject) :
    loadEntriesWith alloc (loadString alloc) fuel depth p children =
        loadEntriesWith alloc (plainString alloc) fuel depth p children ∨
      (loadEntriesWith alloc (loadString alloc) fuel depth p children).2.error = true ∧
        (loadEntriesWith alloc (plainString alloc) fuel depth p children).2.error = true := by
  induction fuel generalizing depth p children with
  | zero => exact .inl rfl
  | succ fuel ih =>
      have head := @entryHead_later alloc p children
      rw [loadEntriesWith, loadEntriesWith]
      revert head
      cases entryHead alloc p children with
      | inl ended => exact fun _ => .inl rfl
      | inr entry =>
          obtain ⟨key, v⟩ := entry
          rintro ⟨head, -⟩
          have open_ := head.ended ended
          -- both go on with the same entry, or both fail
          have both (e e' : VdfEntry) (later : v.read.parser.Later alloc e.parser)
              (same : e = e' ∨ e.parser.Stuck ∧ e'.parser.Stuck) :
              let read := appendChild alloc e.accepted e.children e.child e.parser
              let read' := appendChild alloc e'.accepted e'.children e'.child e'.parser
              loadEntriesWith alloc (loadString alloc) fuel depth read.2 read.1 =
                  loadEntriesWith alloc (plainString alloc) fuel depth read'.2 read'.1 ∨
                (loadEntriesWith alloc (loadString alloc) fuel depth read.2 read.1).2.error = true ∧
                  (loadEntriesWith alloc (plainString alloc) fuel depth read'.2 read'.1).2.error = true := by
            rcases same with rfl | ⟨stuck, stuck'⟩
            · exact ih ((later.trans .appendChild).ended open_) _ _
            · exact .inr ⟨stuck_loadEntriesWith (stuck_appendChild stuck _ _ _) _ _ _,
                stuck_loadEntriesWith (stuck_appendChild stuck' _ _ _) _ _ _⟩
          dsimp only
          split_ifs
          · exact both ⟨_, _, _, _⟩ ⟨_, _, _, _⟩ .fail (.inl rfl)
          · have block := loadEntriesWith_later (@loadString_later alloc) fuel (depth + 1) v.read.parser []
            refine both ⟨_, _, _, _⟩ ⟨_, _, _, _⟩ block ?_
            rcases ih open_ (depth + 1) [] with same | ⟨failed, failed'⟩
            · exact .inl (by rw [same])
            · exact .inr ⟨.inr (readToken_error failed), .inr (readToken_error failed')⟩
          · refine both _ _ .loadString ?_
            exact loadString_plain open_ key

theorem loadBlockWith_plain {p : VdfParser} (ended : p.Ended) (depth : Nat) :
    loadBlockWith alloc (loadString alloc) p depth = loadBlockWith alloc (plainString alloc) p depth ∨
      (loadBlockWith alloc (loadString alloc) p depth).2.error = true ∧
        (loadBlockWith alloc (plainString alloc) p depth).2.error = true := by
  rw [loadBlockWith, loadBlockWith]
  split_ifs
  · exact .inl rfl
  · exact loadEntriesWith_plain ended _ _ _

theorem loadEntryWith_plain {p : VdfParser} (ended : p.Ended) (l : VdfLoading) (key : Text) :
    loadEntryWith alloc (loadString alloc) l key p = loadEntryWith alloc (plainString alloc) l key p ∨
      (loadEntryWith alloc (loadString alloc) l key p).parser.error = true ∧
        (loadEntryWith alloc (plainString alloc) l key p).parser.error = true := by
  have first : p.Later alloc (afterConditional (readToken p) true).1.parser := .afterConditional .readToken
  rw [loadEntryWith, loadEntryWith]
  dsimp only
  by_cases opened : (afterConditional (readToken p) true).1.is openBrace = true
  · simp only [if_pos opened]
    rcases loadBlockWith_plain (first.ended ended) 1 with same | both
    · exact .inl (by rw [same])
    · exact .inr both
  · simp only [if_neg opened]
    exact .inl trivial

theorem parseEntriesWith_plain {l : VdfLoading} (ended : l.parser.Ended) (fuel : Nat) :
    parseEntriesWith alloc (loadString alloc) fuel l = parseEntriesWith alloc (plainString alloc) fuel l ∨
      (parseEntriesWith alloc (loadString alloc) fuel l).parser.error = true ∧
        (parseEntriesWith alloc (plainString alloc) fuel l).parser.error = true := by
  induction fuel generalizing l with
  | zero => exact .inl rfl
  | succ fuel ih =>
      have first : l.parser.Later alloc (readToken l.parser).parser := .readToken
      rw [parseEntriesWith, parseEntriesWith]
      dsimp only
      split_ifs
      · exact .inl rfl
      · exact .inl rfl
      · exact ih (((first.trans .readToken).trans .fail).ended ended)
      · exact .inl rfl
      · exact ih ((first.trans .readToken).ended ended)
      · have made : (readToken l.parser).parser.Later alloc (nextObject alloc l.current (readToken l.parser).parser).2 :=
          .nextObject
        revert made
        cases nextObject alloc l.current (readToken l.parser).parser with
        | mk ok q =>
            intro made
            cases ok with
            | false => exact .inl rfl
            | true =>
                have open_ := (first.trans made).ended ended
                have later := loadEntryWith_later (@loadString_later alloc) l ((readToken l.parser).token.getD []) q
                rcases loadEntryWith_plain open_ l ((readToken l.parser).token.getD []) with
                  same | ⟨failed, failed'⟩
                · dsimp only
                  rw [← same]
                  split_ifs
                  · exact .inl rfl
                  · exact ih (later.ended open_)
                · dsimp only
                  rw [failed, failed', Bool.or_true, Bool.or_true, if_pos rfl, if_pos rfl]
                  exact .inr ⟨failed, failed'⟩

theorem vdfParseBufferWith_plain (buffer : Text) :
    vdfParseBufferWith alloc (plainString alloc) buffer = vdfParseBuffer alloc buffer := by
  rw [← vdfParseBufferWith_loadString, vdfParseBufferWith, vdfParseBufferWith]
  split_ifs
  · rfl
  · rfl
  · dsimp only
    have open_ : VdfParser.Ended ⟨skipMark buffer, false, false, 2⟩ := Bool.false_ne_true.elim
    rcases @parseEntriesWith_plain alloc ⟨.none none, .root, _⟩ open_ (buffer.length + 1) with
      same | ⟨failed, failed'⟩
    · rw [same]
    · rw [failed, failed', if_pos rfl, if_pos rfl]

end Yafsml.Steam
