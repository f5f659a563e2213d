import Mathlib.Data.List.Basic
import Mathlib.Logic.Function.Basic

/-!
# Redirected files

Operations run under other names of their files. Where a file is touched first, its other name starts as a
copy of it, unless something is there already, and from then on stands for it.
-/

namespace Redirection

/-- Operations that look at and change the files they are given and no others. They cannot tell a file from
another one `near` it: under other names for its files an operation does the same. -/
structure Operations (File Operation Content Answer : Type*) where
  near : File → File → Prop
  run : Operation → List File → (File → Option Content) → (File → Option Content) × Answer
  framed : ∀ op files disk other, other ∉ files → (run op files disk).1 other = disk other
  renamed : ∀ op (names : List (File × File)) disk disk', (∀ p ∈ names, near p.1 p.2) →
    (∀ p ∈ names, ∀ q ∈ names, p.1 = q.1 ↔ p.2 = q.2) → (∀ p ∈ names, disk p.1 = disk' p.2) →
    (run op (names.map Prod.fst) disk).2 = (run op (names.map Prod.snd) disk').2 ∧
      ∀ p ∈ names, (run op (names.map Prod.fst) disk).1 p.1 = (run op (names.map Prod.snd) disk').1 p.2

variable {File Operation Content Answer : Type*} [DecidableEq File]

structure State (File Content : Type*) where
  disk : File → Option Content
  touched : List File

def seed (redirect : File → File) (file : File) (disk : File → Option Content) : File → Option Content :=
  if (disk (redirect file)).isNone then Function.update disk (redirect file) (disk file) else disk

def touch (redirect : File → File) (s : State File Content) (file : File) : State File Content :=
  if file ∈ s.touched then s else ⟨seed redirect file s.disk, file :: s.touched⟩

def perform (operations : Operations File Operation Content Answer) (redirect : File → File)
    (s : State File Content) (call : Operation × List File) : State File Content × Answer :=
  let s := call.2.foldl (touch redirect) s
  let (disk, answer) := operations.run call.1 (call.2.map redirect) s.disk
  (⟨disk, s.touched⟩, answer)

def performAll (operations : Operations File Operation Content Answer) (redirect : File → File)
    (s : State File Content) : List (Operation × List File) → State File Content × List Answer
  | [] => (s, [])
  | call :: calls =>
      let (s, answer) := perform operations redirect s call
      let (s, answers) := performAll operations redirect s calls
      (s, answer :: answers)

def runAll (operations : Operations File Operation Content Answer) (disk : File → Option Content) :
    List (Operation × List File) → (File → Option Content) × List Answer
  | [] => (disk, [])
  | call :: calls =>
      let (disk, answer) := operations.run call.1 call.2 disk
      let (disk, answers) := runAll operations disk calls
      (disk, answer :: answers)

/-- What the file has for someone who knows nothing of the other names. -/
def view (redirect : File → File) (s : State File Content) (file : File) : Option Content :=
  if file ∈ s.touched then s.disk (redirect file) else (s.disk (redirect file)).or (s.disk file)

/-- Different files have different other names, which are not the files themselves. -/
def Separate (redirect : File → File) (names : File → Prop) : Prop :=
  ∀ f g, names f → names g → f ≠ g → redirect f ≠ redirect g ∧ redirect f ≠ g

section Touch

variable {redirect : File → File} {names : File → Prop} {s : State File Content} {f g : File}

theorem seed_self (disk : File → Option Content) :
    seed redirect f disk (redirect f) = (disk (redirect f)).or (disk f) := by
  unfold seed
  cases there : disk (redirect f) with
  | none => simp
  | some content => simp [there]

theorem seed_other (disk : File → Option Content) (other : g ≠ redirect f) : seed redirect f disk g = disk g := by
  unfold seed
  split_ifs
  · exact Function.update_of_ne other _ _
  · rfl

theorem mem_touch : g ∈ (touch redirect s f).touched ↔ g = f ∨ g ∈ s.touched := by
  unfold touch
  split_ifs with before
  · exact ⟨.inr, fun either => either.elim (fun same => same ▸ before) id⟩
  · exact List.mem_cons

theorem touch_disk_other (other : g ≠ redirect f) : (touch redirect s f).disk g = s.disk g := by
  unfold touch
  split_ifs
  · rfl
  · exact seed_other s.disk other

theorem touch_before (before : f ∈ s.touched) : touch redirect s f = s := if_pos before

theorem touch_disk_kept (kept : redirect f = f) : (touch redirect s f).disk = s.disk := by
  unfold touch
  split_ifs
  · rfl
  · dsimp only [seed]
    rw [kept]
    split_ifs
    · exact Function.update_eq_self f s.disk
    · rfl

theorem touch_disk_new (fresh : f ∉ s.touched) : (touch redirect s f).disk = seed redirect f s.disk := by
  rw [touch, if_neg fresh]

theorem view_touch (separate : Separate redirect names) (known : names f) (among : names g) :
    view redirect (touch redirect s f) g = view redirect s g := by
  by_cases before : f ∈ s.touched
  · rw [touch, if_pos before]
  by_cases same : g = f
  · subst same
    rw [view, if_pos (mem_touch.mpr (.inl rfl)), touch, if_neg before, view, if_neg before]
    exact seed_self s.disk
  · obtain ⟨apart, aside⟩ := separate f g known among (Ne.symm same)
    have touched : g ∈ (touch redirect s f).touched ↔ g ∈ s.touched := by
      rw [mem_touch, or_iff_right same]
    simp only [view, touched, touch_disk_other (Ne.symm apart), touch_disk_other (Ne.symm aside)]

theorem foldl_touch (redirect : File → File) (s : State File Content) (files : List File) :
    (∀ g, g ∈ (files.foldl (touch redirect) s).touched ↔ g ∈ files ∨ g ∈ s.touched) ∧
      (∀ g, (∀ f ∈ files, redirect f ≠ g) → (files.foldl (touch redirect) s).disk g = s.disk g) := by
  induction files generalizing s with
  | nil => simp
  | cons f rest ih =>
      obtain ⟨touched, frame⟩ := ih (touch redirect s f)
      refine ⟨fun g => ?_, fun g others => ?_⟩
      · rw [List.foldl_cons, touched, mem_touch, List.mem_cons, or_left_comm, or_assoc]
      · rw [List.foldl_cons, frame g fun f member => others f (List.mem_cons_of_mem _ member)]
        exact touch_disk_other (Ne.symm (others f List.mem_cons_self))

theorem view_foldl_touch (separate : Separate redirect names) {files : List File} (known : ∀ f ∈ files, names f)
    (among : names g) : view redirect (files.foldl (touch redirect) s) g = view redirect s g := by
  induction files generalizing s with
  | nil => rfl
  | cons f rest ih =>
      rw [List.foldl_cons, ih fun f member => known f (List.mem_cons_of_mem _ member)]
      exact view_touch separate (known f List.mem_cons_self) among

end Touch

section Runs

variable {operations : Operations File Operation Content Answer} {redirect : File → File} {names : File → Prop}
  {s : State File Content} {plain : File → Option Content}

theorem perform_view (separate : Separate redirect names) (near : ∀ f, names f → operations.near f (redirect f))
    (seen : ∀ f, names f → plain f = view redirect s f) {call : Operation × List File}
    (known : ∀ f ∈ call.2, names f) :
    let redirected := perform operations redirect s call
    let run := operations.run call.1 call.2 plain
    run.2 = redirected.2 ∧ (∀ f, names f → run.1 f = view redirect redirected.1 f) ∧
      (∀ g, g ∈ redirected.1.touched ↔ g ∈ call.2 ∨ g ∈ s.touched) ∧
      ∀ g, (∀ f ∈ call.2, redirect f ≠ g) → redirected.1.disk g = s.disk g := by
  obtain ⟨op, files⟩ := call
  obtain ⟨touched, frame⟩ := foldl_touch redirect s files
  have kept (g : File) (among : names g) :
      plain g = view redirect (files.foldl (touch redirect) s) g := by
    rw [seen g among, view_foldl_touch separate known among]
  dsimp only [perform]
  generalize files.foldl (touch redirect) s = t at touched frame kept
  let pairs := files.map fun f => (f, redirect f)
  have firsts : pairs.map Prod.fst = files := by simp [pairs, Function.comp_def]
  have seconds : pairs.map Prod.snd = files.map redirect := by simp [pairs, Function.comp_def]
  have injective (f g : File) (first : f ∈ files) (second : g ∈ files) : f = g ↔ redirect f = redirect g := by
    refine ⟨congrArg redirect, fun same => ?_⟩
    by_contra apart
    exact (separate f g (known f first) (known g second) apart).1 same
  obtain ⟨answers, contents⟩ := operations.renamed op pairs plain t.disk
    (by simpa [pairs] using fun f member => near f (known f member))
    (by simpa [pairs] using fun f first g second => injective f g first second)
    (by
      suffices ∀ f ∈ files, plain f = t.disk (redirect f) by simpa [pairs] using this
      intro f member
      rw [kept f (known f member), view, if_pos ((touched f).mpr (.inl member))])
  rw [firsts, seconds] at answers contents
  refine ⟨answers, fun f among => ?_, touched, fun g others => ?_⟩
  · by_cases member : f ∈ files
    · rw [view, if_pos ((touched f).mpr (.inl member))]
      exact contents (f, redirect f) (List.mem_map.mpr ⟨f, member, rfl⟩)
    · have other (g : File) (free : ∀ h ∈ files, redirect h ≠ g) :
          (operations.run op (files.map redirect) t.disk).1 g = t.disk g := by
        apply operations.framed
        rintro listed
        obtain ⟨h, there, same⟩ := List.mem_map.mp listed
        exact free h there same
      have apart (h : File) (there : h ∈ files) : redirect h ≠ redirect f ∧ redirect h ≠ f :=
        separate h f (known h there) among fun same => member (same ▸ there)
      rw [operations.framed op files plain f member, kept f among]
      simp only [view, other _ fun h there => (apart h there).1, other _ fun h there => (apart h there).2]
  · rw [← frame g others]
    apply operations.framed
    rintro listed
    obtain ⟨h, there, same⟩ := List.mem_map.mp listed
    exact others h there same

/-- A run under the other names answers like a run on the files themselves. At its end the other names have what
the files would have, and nothing else has changed. -/
theorem performAll_view (separate : Separate redirect names) (near : ∀ f, names f → operations.near f (redirect f))
    (seen : ∀ f, names f → plain f = view redirect s f) {calls : List (Operation × List File)}
    (known : ∀ call ∈ calls, ∀ f ∈ call.2, names f) :
    let redirected := performAll operations redirect s calls
    let run := runAll operations plain calls
    run.2 = redirected.2 ∧ (∀ f, names f → run.1 f = view redirect redirected.1 f) ∧
      (∀ call ∈ calls, ∀ f ∈ call.2, run.1 f = redirected.1.disk (redirect f)) ∧
      ∀ g, (∀ call ∈ calls, ∀ f ∈ call.2, redirect f ≠ g) → redirected.1.disk g = s.disk g := by
  suffices rest :
      let redirected := performAll operations redirect s calls
      let run := runAll operations plain calls
      run.2 = redirected.2 ∧ (∀ f, names f → run.1 f = view redirect redirected.1 f) ∧
        (∀ g, g ∈ redirected.1.touched ↔ (∃ call ∈ calls, g ∈ call.2) ∨ g ∈ s.touched) ∧
        ∀ g, (∀ call ∈ calls, ∀ f ∈ call.2, redirect f ≠ g) → redirected.1.disk g = s.disk g by
    obtain ⟨answers, views, touched, frame⟩ := rest
    refine ⟨answers, views, fun call member f there => ?_, frame⟩
    rw [views f (known call member f there), view, if_pos ((touched f).mpr (.inl ⟨call, member, there⟩))]
  induction calls generalizing s plain with
  | nil => exact ⟨rfl, seen, by simp [performAll], fun _ _ => rfl⟩
  | cons call calls ih =>
      obtain ⟨answer, views, touched, frame⟩ := perform_view separate near seen (known call List.mem_cons_self)
      obtain ⟨answers, views', touched', frame'⟩ :=
        ih views fun call member => known call (List.mem_cons_of_mem _ member)
      refine ⟨congrArg₂ List.cons answer answers, views', fun g => ?_, fun g others => ?_⟩
      · simp only [performAll, touched', touched, List.mem_cons, exists_eq_or_imp]
        rw [← or_assoc, or_comm (a := ∃ call ∈ calls, g ∈ call.2)]
      · simp only [performAll]
        rw [frame' g fun call member => others call (List.mem_cons_of_mem _ member)]
        exact frame g (others call List.mem_cons_self)

end Runs

end Redirection
