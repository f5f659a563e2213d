import Yafsml.Process.Singleton

/-! # Captures stay inside the section -/

namespace Yafsml.Process.Singleton

open LittleEndian

variable {text : List Byte}

theorem read_returns {i : Nat} (inside : i < text.length) : Returns text[i]? fun _ => True :=
  ⟨text[i], List.getElem?_eq_getElem inside, trivial⟩

theorem memcmp_returns {pos : Nat} {pat : List Byte} (inside : pos + pat.length ≤ text.length) :
    Returns (memcmp text pos pat) fun _ => True :=
  ⟨_, if_pos inside, trivial⟩

theorem bytesEq_returns (pos : Nat) (pat : List Byte) :
    Returns (bytesEq text pos pat) fun same => same = true → pos + pat.length ≤ text.length := by
  unfold bytesEq
  apply Returns.ite
  · intro guard
    have inside : pos + pat.length ≤ text.length := by omega
    exact (memcmp_returns inside).mono fun _ _ _ => inside
  · intro _
    exact Returns.pure fun same => by cases same

structure Built (text : List Byte) (instructions : List Instruction) : Prop where
  nonempty : 0 < instructions.length
  few : instructions.length ≤ 4
  inside : ∀ ins ∈ instructions, ins.pos < text.length

theorem followsAt_returns {pos : Nat} (inside : pos + 3 ≤ text.length) :
    Returns (followsAt text pos) fun _ => True := by
  unfold followsAt
  refine (memcmp_returns inside).bind fun rcx _ => ?_
  refine Returns.exit trivial fun _ => ?_
  refine (memcmp_returns inside).bind fun r8 _ => ?_
  refine Returns.exit trivial fun _ => ?_
  refine (memcmp_returns inside).bind fun r9 _ => ?_
  refine Returns.exit trivial fun _ => ?_
  refine (memcmp_returns inside).bind fun mov _ => ?_
  refine Returns.exit trivial fun _ => ?_
  refine (read_returns (by omega)).bind fun byte _ => ?_
  exact Returns.exit trivial fun _ => Returns.pure trivial

theorem precedesAt_returns {pos : Nat} (inside : pos + 7 ≤ text.length) (short : text.length < 2 ^ 31) :
    Returns (precedesAt text pos) fun found => ∀ ins ∈ found, ins.pos < text.length := by
  have first : pos + 3 ≤ text.length := by omega
  have here {kind : InstructionKind} :
      ∀ ins ∈ some (⟨kind, pos⟩ : Instruction), ins.pos < text.length := by
    rintro ins ⟨⟩
    exact Nat.lt_of_lt_of_le (Nat.lt_add_of_pos_right (by decide)) inside
  unfold precedesAt
  refine (memcmp_returns first).bind fun rcx _ => ?_
  refine Returns.exit here fun _ => ?_
  refine (memcmp_returns first).bind fun r8 _ => ?_
  refine Returns.exit here fun _ => ?_
  refine (memcmp_returns first).bind fun r9 _ => ?_
  refine Returns.exit here fun _ => ?_
  refine (memcmp_returns (by exact inside)).bind fun mov _ => ?_
  refine Returns.ite (fun _ => Returns.pure ?_) fun _ => Returns.pure (by simp)
  rintro ins ⟨⟩
  have small : (pos + 4) % 2 ^ 32 = pos + 4 := Nat.mod_eq_of_lt (by omega)
  simp only [small]
  omega

theorem walkForward_returns {rounds : Nat} {instructions : List Instruction}
    (built : Built text instructions) (enough : 4 < rounds + instructions.length) :
    Returns (walkForward text rounds instructions) fun result => ∀ all ∈ result, Built text all := by
  induction rounds generalizing instructions with
  | zero =>
      have := built.few
      omega
  | succ rounds ih =>
      unfold walkForward
      refine Returns.ite (fun room => ?_) fun _ => Returns.pure ?_
      · have last : instructions.length - 1 < instructions.length := by
          have := built.nonempty
          omega
        rw [List.getElem?_eq_getElem last]
        refine Returns.next (Returns.exit (by simp) fun guard => ?_)
        generalize instructions[instructions.length - 1].nextPos = nextPos at guard ⊢
        refine (followsAt_returns (by omega)).bind fun follows _ => ?_
        cases follows with
        | instruction kind =>
            have pushed : pushInstruction instructions ⟨kind, nextPos⟩ =
                some (instructions ++ [⟨kind, nextPos⟩]) := if_neg (by omega)
            simp only [pushed]
            apply ih
            · refine ⟨by simp, by rw [List.length_append]; exact room, fun ins member => ?_⟩
              rcases List.mem_append.mp member with old | new
              · exact built.inside ins old
              · rw [List.mem_singleton.mp new]
                change nextPos < text.length
                omega
            · rw [List.length_append]
              change 4 < rounds + (instructions.length + 1)
              omega
        | call =>
            refine Returns.pure ?_
            rintro all ⟨⟩
            exact built
        | other => exact Returns.pure (by simp)
      · rintro all ⟨⟩
        exact built

theorem walkBackward_returns (short : text.length < 2 ^ 31) {rounds : Nat} {instructions : List Instruction}
    (built : Built text instructions) (enough : 4 < rounds + instructions.length) :
    Returns (walkBackward text rounds instructions) fun result =>
      ∀ all ∈ result, Built text all ∧ all.length = 4 := by
  induction rounds generalizing instructions with
  | zero =>
      have := built.few
      omega
  | succ rounds ih =>
      have few := built.few
      unfold walkBackward
      refine Returns.ite (fun room => ?_) fun full => Returns.pure ?_
      · rw [List.getElem?_eq_getElem built.nonempty]
        refine Returns.next (Returns.exit (by simp) fun _ => ?_)
        refine Returns.exit (by simp) fun guard => ?_
        refine (precedesAt_returns (by omega) short).bind fun found inside => ?_
        cases found with
        | none => exact Returns.pure (by simp)
        | some ins =>
            have inserted : insertInstruction instructions ins = some (ins :: instructions) := if_pos room
            simp only [inserted]
            refine Returns.next (ih ?_ ?_)
            · refine ⟨Nat.succ_pos _, room, fun other member => ?_⟩
              rcases List.mem_cons.mp member with rfl | old
              · exact inside _ rfl
              · exact built.inside other old
            · rw [List.length_cons]
              omega
      · rintro all ⟨⟩
        exact ⟨built, by omega⟩

theorem instructionsAt_returns (short : text.length < 2 ^ 31) {pos : Nat} (inside : pos < text.length) :
    Returns (instructionsAt text pos) fun result => ∀ all ∈ result, Built text all ∧ all.length = 4 := by
  have first : Built text [⟨.movEdx, pos⟩] :=
    ⟨Nat.one_pos, by simp, fun ins member => by rw [List.mem_singleton.mp member]; exact inside⟩
  refine (walkForward_returns first (by simp)).bind fun forward built => ?_
  cases forward with
  | none => exact Returns.pure (by simp)
  | some instructions =>
      have built := built instructions rfl
      exact walkBackward_returns short built (by have := built.nonempty; omega)

theorem candidateOf_returns {instructions : List Instruction} (built : Built text instructions)
    (four : instructions.length = 4) :
    Returns (candidateOf instructions) fun candidate =>
      candidate.kind ≠ .none → candidate.pos < text.length := by
  match instructions, four with
  | [a, b, c, d], _ =>
      have start : a.pos < text.length := built.inside a List.mem_cons_self
      unfold candidateOf
      refine Returns.next (Returns.next ?_)
      refine Returns.ite (fun _ => ?_) fun _ => ?_
      · split
        · exact Returns.pure fun _ => start
        · exact Returns.pure fun absent => absurd rfl absent
      · exact Returns.ite (fun _ => Returns.pure fun _ => start) fun _ =>
          Returns.pure fun absent => absurd rfl absent

theorem candidateAt_returns (short : text.length < 2 ^ 31) {pos : Nat} (inside : pos < text.length) :
    Returns (candidateAt text pos) fun candidate =>
      candidate.kind ≠ .none → candidate.pos < text.length := by
  refine (instructionsAt_returns short inside).bind fun result built => ?_
  cases result with
  | none => exact Returns.pure fun absent => absurd rfl absent
  | some instructions =>
      obtain ⟨built, four⟩ := built instructions rfl
      exact candidateOf_returns built four

def InSection (text : List Byte) (cap : Nat) : Prop := cap + 4 ≤ text.length

theorem shortJump_returns (pos : Nat) : Returns (shortJump text pos) fun _ => True := by
  refine Returns.ite (fun guard => ?_) fun _ => Returns.pure trivial
  rw [List.getElem?_eq_getElem guard.2]
  exact Returns.pure trivial

theorem nearJump_returns (pos : Nat) : Returns (nearJump text pos) fun _ => True :=
  Returns.ite (fun _ => (bytesEq_returns _ _).mono fun _ _ => trivial) fun _ => Returns.pure trivial

theorem condJump_returns (pos : Nat) : Returns (condJump text pos) fun _ => True := by
  unfold condJump
  refine (shortJump_returns pos).bind fun short _ => ?_
  refine Returns.exit trivial fun _ => ?_
  refine (nearJump_returns pos).bind fun near _ => ?_
  exact Returns.exit trivial fun _ => Returns.pure trivial

theorem guardedMov_returns (short : text.length < 2 ^ 31) {pos : Nat} (testRexb testReg1 : Byte)
    (pads : List Nat) :
    Returns (guardedMov text pos testRexb testReg1 pads) fun cap => ∀ cap1 ∈ cap, InSection text cap1 := by
  induction pads with
  | nil => exact Returns.pure (by simp)
  | cons pad pads ih =>
      unfold guardedMov
      refine Returns.ite (fun _ => ih) fun _ => ?_
      refine Returns.ite (fun _ => ih) fun guard => ?_
      generalize pos - (7 + pad) = movPos at guard ⊢
      refine (read_returns (by omega)).bind fun movRex _ => ?_
      refine (read_returns (by omega)).bind fun movModrm _ => ?_
      refine Returns.ite (fun _ => Returns.pure ?_) fun _ => ih
      rintro cap1 ⟨⟩
      have small : (movPos + 3) % 2 ^ 32 = movPos + 3 := Nat.mod_eq_of_lt (by omega)
      rw [InSection, small]
      omega

theorem decodeGuardedMov_returns (short : text.length < 2 ^ 31) (pos : Nat) :
    Returns (decodeGuardedMov text pos) fun cap => ∀ cap1 ∈ cap, InSection text cap1 := by
  unfold decodeGuardedMov
  refine Returns.exit (by simp) fun _ => ?_
  refine Returns.exit (by simp) fun guard => ?_
  generalize pos - 3 = test at guard ⊢
  refine (read_returns (by omega)).bind fun testRex _ => ?_
  refine (read_returns (by omega)).bind fun testModrm _ => ?_
  exact Returns.exit (by simp) fun _ => guardedMov_returns short _ _ _

theorem derivedCaps_returns (short : text.length < 2 ^ 31) (candidate : Candidate) :
    Returns (derivedCaps text candidate) fun caps =>
      ∀ found ∈ caps, InSection text found.cap1 ∧ InSection text found.cap2 := by
  unfold derivedCaps
  refine Returns.exit (by simp) fun _ => ?_
  refine Returns.exit (by simp) fun guard => ?_
  refine (condJump_returns candidate.pos).bind fun jump _ => ?_
  cases jump with
  | none => exact Returns.pure (by simp)
  | some jumpPos =>
      refine (decodeGuardedMov_returns short jumpPos).bind fun cap inside => ?_
      cases cap with
      | none => exact Returns.pure (by simp)
      | some cap1 =>
          refine Returns.pure ?_
          rintro found ⟨⟩
          exact ⟨inside cap1 rfl, show candidate.cap2 + 4 ≤ text.length by omega⟩

structure Fd4Caps.InSection (text : List Byte) (caps : Fd4Caps) : Prop where
  cap1 : Singleton.InSection text caps.cap1
  cap2 : Singleton.InSection text caps.cap2
  cap3 : Singleton.InSection text caps.cap3

theorem fd4CapsAt_returns (short : text.length < 2 ^ 31) (candidatePos pad : Nat) :
    Returns (fd4CapsAt text candidatePos pad) fun caps => ∀ found ∈ caps, found.InSection text := by
  unfold fd4CapsAt
  refine Returns.exit (by simp) fun _ => ?_
  refine Returns.exit (by simp) fun inside => ?_
  generalize candidatePos - (5 + pad) = callPos at inside ⊢
  have small : (callPos + 5) % 2 ^ 32 = callPos + 5 := Nat.mod_eq_of_lt (by omega)
  refine (read_returns (by omega)).bind fun byte _ => ?_
  refine Returns.exit (by simp) fun guard => ?_
  rw [small] at guard
  refine Returns.exit (by simp) fun far => ?_
  refine (bytesEq_returns _ _).bind fun same _ => ?_
  refine Returns.ite (fun _ => ?_) fun _ => Returns.pure (by simp)
  refine (condJump_returns _).bind fun jump _ => ?_
  cases jump with
  | none => exact Returns.pure (by simp)
  | some jumpPos =>
      refine (decodeGuardedMov_returns short jumpPos).bind fun cap inside1 => ?_
      cases cap with
      | none => exact Returns.pure (by simp)
      | some cap1 =>
          have lea : (callPos - 7 + 3) % 2 ^ 32 = callPos - 7 + 3 := Nat.mod_eq_of_lt (by omega)
          have displacement : (callPos + 1) % 2 ^ 32 = callPos + 1 := Nat.mod_eq_of_lt (by omega)
          refine Returns.pure ?_
          rintro found ⟨⟩
          refine ⟨inside1 cap1 rfl, ?_, ?_⟩
          · change (callPos - 7 + 3) % 2 ^ 32 + 4 ≤ text.length
            omega
          · change (callPos + 1) % 2 ^ 32 + 4 ≤ text.length
            omega

theorem fd4CapsFrom_returns (short : text.length < 2 ^ 31) (candidatePos : Nat) (pads : List Nat) :
    Returns (fd4CapsFrom text candidatePos pads) fun caps => ∀ found ∈ caps, found.InSection text := by
  induction pads with
  | nil => exact Returns.pure (by simp)
  | cons pad pads ih =>
      refine (fd4CapsAt_returns short candidatePos pad).bind fun caps inside => ?_
      cases caps with
      | none => exact ih
      | some found => exact Returns.pure inside

theorem fd4Caps_returns (short : text.length < 2 ^ 31) (candidate : Candidate) :
    Returns (fd4Caps text candidate) fun caps => ∀ found ∈ caps, found.InSection text :=
  Returns.exit (by simp) fun _ => fd4CapsFrom_returns short _ _

theorem ripTarget_returns (base : Word) {cap : Nat} (inside : InSection text cap) :
    Returns (ripTarget text base cap) fun _ => True := by
  have bytes : Returns ((List.range 4).mapM fun k => text[cap + k]?) fun _ => True := by
    apply Returns.mapM
    intro k member
    have below := List.mem_range.mp member
    exact read_returns (lt_of_lt_of_le (Nat.add_lt_add_left below cap) inside)
  unfold ripTarget
  exact bytes.bind fun displacement _ => Returns.pure trivial

/-- Whatever the section holds, the matcher stays inside it: nothing is read outside of the buffer or
written outside of the array of four, and every capture is a displacement of the section. -/
theorem singleton_captures (short : text.length < 2 ^ 31) {pos : Nat} (inside : pos < text.length) :
    Returns (instructionsAt text pos) (fun result =>
      ∀ all ∈ result, all.length = 4 ∧ ∀ ins ∈ all, ins.pos < text.length) ∧
    Returns (candidateAt text pos) (fun candidate =>
      (candidate.kind ≠ .none → candidate.pos < text.length) ∧
      Returns (derivedCaps text candidate) (fun caps => ∀ found ∈ caps,
        InSection text found.cap1 ∧ InSection text found.cap2) ∧
      Returns (fd4Caps text candidate) fun caps => ∀ found ∈ caps, found.InSection text) ∧
    ∀ cap, InSection text cap → ∀ base, Returns (ripTarget text base cap) fun _ => True := by
  refine ⟨?_, ?_, fun cap inside base => ripTarget_returns base inside⟩
  · exact (instructionsAt_returns short inside).mono fun result built all member =>
      ⟨(built all member).2, (built all member).1.inside⟩
  · exact (candidateAt_returns short inside).mono fun candidate first =>
      ⟨first, derivedCaps_returns short candidate, fd4Caps_returns short candidate⟩

/-- A guarded `mov`, a short jump and the four instructions before a call. -/
def derivedText : List Byte :=
  [0x48, 0x8b, 0x05, 1, 0, 0, 0, 0x48, 0x85, 0xc0, 0x75, 0x20, 0x4c, 0x8d, 0x0d, 2, 0, 0, 0,
    0x4c, 0x8d, 0x05, 3, 0, 0, 0, 0xba, 1, 0, 0, 0, 0x48, 0x8d, 0x0d, 4, 0, 0, 0, 0xe8, 0, 0, 0, 0]

theorem singleton_captures_derived :
    Returns (candidateAt derivedText 26) fun candidate =>
      Returns (derivedCaps derivedText candidate) fun caps => ∀ found ∈ caps,
        InSection derivedText found.cap1 ∧ InSection derivedText found.cap2 :=
  (@singleton_captures derivedText (by decide) 26 (by decide)).2.1.mono fun _ captures => captures.2.1

example : (candidateAt derivedText 26).bind (derivedCaps derivedText) = some (some ⟨3, 15⟩) := by decide

end Yafsml.Process.Singleton
