import Mathlib.Algebra.BigOperators.Group.List.Lemmas
import Yafsml.Vfs.CacheThreads

/-!
# The lists of caches

What the pointers of `CacheThreads.lean` stand for: two idle lists in the order of release, and for every
thread the chain of caches it has still to destroy.
-/

namespace Yafsml.Vfs

open DoublyLinked

/-! ## The idle lists -/

/-- `listing` gives the backend and the size of every idle cache. -/
structure IdleLedger (links : Links Nat) (idle : Backend → IdlePointers) (listing : Nat → Option (Backend × Nat))
    (released : Nat → Nat) (clock : Nat) (items : Backend → List Nat) : Prop where
  linked : ∀ b, Linked links (idle b).ends (items b)
  listed : ∀ b c, c ∈ items b ↔ ∃ size, listing c = some (b, size)
  bytes : ∀ b, (idle b).bytes = ((items b).map fun c => ((listing c).map Prod.snd).getD 0).sum
  fits : ∀ b, (idle b).bytes < 2 ^ 64
  ordered : ∀ b, (items b).Pairwise fun a c => released a < released c
  past : ∀ b, ∀ c ∈ items b, released c < clock

namespace IdleLedger

variable {links : Links Nat} {idle : Backend → IdlePointers} {listing : Nat → Option (Backend × Nat)}
  {released : Nat → Nat} {clock : Nat} {items : Backend → List Nat}

theorem backend_unique (ledger : IdleLedger links idle listing released clock items) {a b : Backend} {c : Nat}
    (in_a : c ∈ items a) (in_b : c ∈ items b) : a = b := by
  obtain ⟨size, here⟩ := (ledger.listed a c).mp in_a
  obtain ⟨size', there⟩ := (ledger.listed b c).mp in_b
  rw [here] at there
  cases there
  rfl

theorem nodup (ledger : IdleLedger links idle listing released clock items) (b : Backend) : (items b).Nodup :=
  (ledger.linked b).nodup

theorem congr_links (ledger : IdleLedger links idle listing released clock items) {links' : Links Nat}
    (same : ∀ c, listing c ≠ none → links'.older c = links.older c ∧ links'.newer c = links.newer c) :
    IdleLedger links' idle listing released clock items where
  linked b := by
    have shown : ∀ c ∈ items b, listing c ≠ none := by
      intro c member nothing
      obtain ⟨size, here⟩ := (ledger.listed b c).mp member
      rw [nothing] at here
      cases here
    exact (ledger.linked b).congr (fun c member => (same c (shown c member)).1)
      fun c member => (same c (shown c member)).2
  listed := ledger.listed
  bytes := ledger.bytes
  fits := ledger.fits
  ordered := ledger.ordered
  past := ledger.past

theorem weighs (ledger : IdleLedger links idle listing released clock items) {b : Backend} {c size : Nat}
    (here : listing c = some (b, size)) : (idle b).bytes = size +
      (((items b).erase c).map fun d => ((listing d).map Prod.snd).getD 0).sum := by
  have member : c ∈ items b := (ledger.listed b c).mpr ⟨size, here⟩
  rw [ledger.bytes b, ((List.perm_cons_erase member).map _).sum_eq, List.map_cons, List.sum_cons, here]
  rfl

theorem unlink (ledger : IdleLedger links idle listing released clock items) {b : Backend} {c size : Nat}
    (here : listing c = some (b, size)) :
    IdleLedger (unlink links (idle b).ends c).1
      (Function.update idle b ⟨(DoublyLinked.unlink links (idle b).ends c).2, sub64 (idle b).bytes size⟩)
      (Function.update listing c none) released clock (Function.update items b ((items b).erase c)) := by
  have member : c ∈ items b := (ledger.listed b c).mpr ⟨size, here⟩
  have elsewhere : ∀ a, a ≠ b → c ∉ items a := fun a other there =>
    other (ledger.backend_unique there member)
  have weighs := ledger.weighs here
  have kept : ∀ xs : List Nat, c ∉ xs → xs.map (fun d => ((Function.update listing c none d).map Prod.snd).getD 0) =
      xs.map fun d => ((listing d).map Prod.snd).getD 0 := by
    intro xs absent
    apply List.map_congr_left
    intro d in_xs
    rw [Function.update_of_ne (ne_of_mem_of_not_mem in_xs absent)]
  have gone : c ∉ (items b).erase c := fun still => (ledger.nodup b).not_mem_erase still
  constructor
  case linked =>
    intro a
    by_cases same : a = b
    · subst same
      rw [Function.update_self, Function.update_self]
      exact (ledger.linked a).unlink member
    · rw [Function.update_of_ne same, Function.update_of_ne same]
      apply (ledger.linked a).congr
      · intro d there
        exact ((ledger.linked b).unlink_other member fun twice =>
          same (ledger.backend_unique there twice)).1
      · intro d there
        exact ((ledger.linked b).unlink_other member fun twice =>
          same (ledger.backend_unique there twice)).2
  case listed =>
    intro a d
    by_cases itself : d = c
    · subst itself
      rw [Function.update_self]
      constructor
      · intro there
        by_cases same : a = b
        · subst same
          rw [Function.update_self] at there
          exact absurd there gone
        · rw [Function.update_of_ne same] at there
          exact absurd there (elsewhere a same)
      · rintro ⟨size, ⟨⟩⟩
    · rw [Function.update_of_ne itself, ← ledger.listed a d]
      by_cases same : a = b
      · subst same
        rw [Function.update_self, List.mem_erase_of_ne itself]
      · rw [Function.update_of_ne same]
  case bytes =>
    intro a
    by_cases same : a = b
    · subst same
      rw [Function.update_self, Function.update_self, kept _ gone, sub64_eq (by omega) (ledger.fits a), weighs,
        Nat.add_sub_cancel_left]
    · rw [Function.update_of_ne same, Function.update_of_ne same, kept _ (elsewhere a same)]
      exact ledger.bytes a
  case fits =>
    intro a
    by_cases same : a = b
    · subst same
      rw [Function.update_self]
      exact Nat.mod_lt _ (by decide)
    · rw [Function.update_of_ne same]
      exact ledger.fits a
  case ordered =>
    intro a
    by_cases same : a = b
    · subst same
      rw [Function.update_self]
      exact (ledger.ordered a).sublist (List.erase_sublist ..)
    · rw [Function.update_of_ne same]
      exact ledger.ordered a
  case past =>
    intro a d there
    by_cases same : a = b
    · subst same
      rw [Function.update_self] at there
      exact ledger.past a d (List.mem_of_mem_erase there)
    · rw [Function.update_of_ne same] at there
      exact ledger.past a d there

theorem push (ledger : IdleLedger links idle listing released clock items) {c : Nat} (b : Backend) (size : Nat)
    (away : listing c = none) (fits : (idle b).bytes + size < 2 ^ 64) :
    IdleLedger (push links (idle b).ends c).1
      (Function.update idle b ⟨(DoublyLinked.push links (idle b).ends c).2, add64 (idle b).bytes size⟩)
      (Function.update listing c (some (b, size))) (Function.update released c clock) (clock + 1)
      (Function.update items b (items b ++ [c])) := by
  have absent : ∀ a, c ∉ items a := by
    intro a there
    obtain ⟨size, here⟩ := (ledger.listed a c).mp there
    rw [away] at here
    cases here
  have other : ∀ {a d}, d ∈ items a → d ≠ c := fun there => ne_of_mem_of_not_mem there (absent _)
  have kept : ∀ a, (items a).map (fun d =>
      ((Function.update listing c (some (b, size)) d).map Prod.snd).getD 0) =
      (items a).map fun d => ((listing d).map Prod.snd).getD 0 := by
    intro a
    apply List.map_congr_left
    intro d there
    rw [Function.update_of_ne (other there)]
  constructor
  case linked =>
    intro a
    by_cases same : a = b
    · subst same
      rw [Function.update_self, Function.update_self]
      exact (ledger.linked a).push (absent a)
    · rw [Function.update_of_ne same, Function.update_of_ne same]
      have untouched : ∀ d ∈ items a, (DoublyLinked.push links (idle b).ends c).1.older d = links.older d ∧
          (DoublyLinked.push links (idle b).ends c).1.newer d = links.newer d := by
        intro d there
        exact (ledger.linked b).push_other (other there) fun twice => same (ledger.backend_unique there twice)
      exact (ledger.linked a).congr (fun d there => (untouched d there).1) fun d there => (untouched d there).2
  case listed =>
    intro a d
    by_cases same : a = b
    · subst same
      rw [Function.update_self, List.mem_append, List.mem_singleton]
      by_cases itself : d = c
      · subst itself
        rw [Function.update_self]
        exact ⟨fun _ => ⟨size, rfl⟩, fun _ => .inr rfl⟩
      · rw [Function.update_of_ne itself, ← ledger.listed a d]
        exact or_iff_left itself
    · rw [Function.update_of_ne same]
      by_cases itself : d = c
      · subst itself
        rw [Function.update_self]
        constructor
        · exact fun there => absurd there (absent a)
        · rintro ⟨size, ⟨⟩⟩
          exact absurd rfl same
      · rw [Function.update_of_ne itself]
        exact ledger.listed a d
  case bytes =>
    intro a
    by_cases same : a = b
    · subst same
      rw [Function.update_self, Function.update_self, List.map_append, List.sum_append, kept, ← ledger.bytes a,
        List.map_singleton, List.sum_singleton, Function.update_self, add64_eq fits]
      rfl
    · rw [Function.update_of_ne same, Function.update_of_ne same, kept]
      exact ledger.bytes a
  case fits =>
    intro a
    by_cases same : a = b
    · subst same
      rw [Function.update_self, add64_eq fits]
      exact fits
    · rw [Function.update_of_ne same]
      exact ledger.fits a
  case ordered =>
    intro a
    have still : (items a).Pairwise fun d e =>
        Function.update released c clock d < Function.update released c clock e := by
      apply (ledger.ordered a).imp_of_mem
      intro d e there there' before
      rwa [Function.update_of_ne (other there), Function.update_of_ne (other there')]
    by_cases same : a = b
    · subst same
      rw [Function.update_self, List.pairwise_append]
      refine ⟨still, List.pairwise_singleton .., ?_⟩
      intro d there e last
      rw [List.mem_singleton.mp last, Function.update_self, Function.update_of_ne (other there)]
      exact ledger.past a d there
    · rw [Function.update_of_ne same]
      exact still
  case past =>
    intro a d there
    by_cases itself : d = c
    · rw [itself, Function.update_self]
      exact Nat.lt_succ_self clock
    · rw [Function.update_of_ne itself]
      have before : d ∈ items a := by
        by_cases same : a = b
        · subst same
          rw [Function.update_self] at there
          exact (List.mem_append.mp there).resolve_right fun last => itself (List.mem_singleton.mp last)
        · rwa [Function.update_of_ne same] at there
      exact Nat.lt_succ_of_lt (ledger.past a d before)

theorem oldest_first (ledger : IdleLedger links idle listing released clock items) {b : Backend} {c d size : Nat}
    (oldest : (idle b).ends.oldest = some c) (here : listing d = some (b, size)) (other : d ≠ c) :
    released c < released d := by
  have ordered := ledger.ordered b
  have member := (ledger.listed b d).mpr ⟨size, here⟩
  rw [(ledger.linked b).oldest] at oldest
  obtain ⟨rest, whole⟩ := List.head?_eq_some_iff.mp oldest
  rw [whole] at ordered member
  exact (List.pairwise_cons.mp ordered).1 d ((List.mem_cons.mp member).resolve_left other)

end IdleLedger

/-! ## Chains of caches to destroy -/

structure Chains (newer : Nat → Option Nat) (unused : Holder → Option Nat) (spare : Nat → Prop)
    (chains : Holder → List Nat) : Prop where
  follows : ∀ h, Follows newer (unused h) (chains h)
  nodup : ∀ h, (chains h).Nodup
  apart : ∀ h k c, c ∈ chains h → c ∈ chains k → h = k
  spare : ∀ c, spare c ↔ ∃ h, c ∈ chains h
  short : ∀ c, (chains (.decode c)).length ≤ 1

namespace Chains

variable {newer newer' : Nat → Option Nat} {unused : Holder → Option Nat} {spare spare' : Nat → Prop}
  {chains : Holder → List Nat}

theorem congr (ledger : Chains newer unused spare chains) (links : ∀ c, spare c → newer' c = newer c)
    (same : ∀ c, spare' c ↔ spare c) : Chains newer' unused spare' chains where
  follows h := (ledger.follows h).congr fun c member => links c ((ledger.spare c).mpr ⟨h, member⟩)
  nodup := ledger.nodup
  apart := ledger.apart
  spare c := (same c).trans (ledger.spare c)
  short := ledger.short

theorem spare_of_unused (ledger : Chains newer unused spare chains) {h : Holder} {c : Nat}
    (head : unused h = some c) : spare c := by
  have follows := ledger.follows h
  rw [head] at follows
  refine (ledger.spare c).mpr ⟨h, ?_⟩
  cases members : chains h with
  | nil =>
      rw [members] at follows
      cases follows
  | cons first rest =>
      rw [members] at follows
      cases follows.1
      exact .head _

theorem newer_of_decode (ledger : Chains newer unused spare chains) {k c : Nat}
    (head : unused (.decode k) = some c) : newer c = none := by
  have follows := ledger.follows (.decode k)
  have short := ledger.short k
  rw [head] at follows
  cases members : chains (.decode k) with
  | nil =>
      rw [members] at follows
      cases follows
  | cons first rest =>
      rw [members] at follows short
      obtain rfl : rest = [] := List.eq_nil_of_length_eq_zero (by rw [List.length_cons] at short; omega)
      cases follows.1
      exact follows.2

theorem take (ledger : Chains newer unused spare chains) {c : Nat} {h : Holder}
    (room : ∀ k, h = .decode k → unused h = none) (fresh : ¬spare c) (same : ∀ d, spare' d ↔ spare d ∨ d = c) :
    Chains (Function.update newer c (unused h)) (Function.update unused h (some c)) spare'
      (Function.update chains h (c :: chains h)) := by
  have absent : ∀ k, c ∉ chains k := fun k member => fresh ((ledger.spare c).mpr ⟨k, member⟩)
  have follows : ∀ k, Follows (Function.update newer c (unused h)) (unused k) (chains k) := fun k =>
    (ledger.follows k).congr fun d member => Function.update_of_ne (ne_of_mem_of_not_mem member (absent k)) ..
  have members : ∀ k d, d ∈ Function.update chains h (c :: chains h) k ↔ d ∈ chains k ∨ k = h ∧ d = c := by
    intro k d
    by_cases mine : k = h
    · subst mine
      rw [Function.update_self, List.mem_cons, or_comm]
      simp
    · rw [Function.update_of_ne mine]
      simp [mine]
  constructor
  case follows =>
    intro k
    by_cases mine : k = h
    · subst mine
      rw [Function.update_self, Function.update_self]
      refine ⟨rfl, ?_⟩
      rw [Function.update_self]
      exact follows k
    · rw [Function.update_of_ne mine, Function.update_of_ne mine]
      exact follows k
  case nodup =>
    intro k
    by_cases mine : k = h
    · subst mine
      rw [Function.update_self]
      exact List.nodup_cons.mpr ⟨absent k, ledger.nodup k⟩
    · rw [Function.update_of_ne mine]
      exact ledger.nodup k
  case apart =>
    intro k l d in_k in_l
    rcases (members k d).mp in_k with old_k | ⟨here, rfl⟩
    · rcases (members l d).mp in_l with old_l | ⟨-, rfl⟩
      · exact ledger.apart k l d old_k old_l
      · exact absurd old_k (absent k)
    · rcases (members l d).mp in_l with old_l | ⟨there, -⟩
      · exact absurd old_l (absent l)
      · rw [here, there]
  case spare =>
    intro d
    rw [same, ledger.spare d]
    constructor
    · rintro (⟨k, member⟩ | rfl)
      · exact ⟨k, (members k d).mpr (.inl member)⟩
      · exact ⟨h, (members h d).mpr (.inr ⟨rfl, rfl⟩)⟩
    · rintro ⟨k, member⟩
      rcases (members k d).mp member with member | ⟨-, rfl⟩
      · exact .inl ⟨k, member⟩
      · exact .inr rfl
  case short =>
    intro k
    by_cases mine : .decode k = h
    · have follows := ledger.follows h
      rw [room k mine.symm] at follows
      cases members : chains h with
      | nil => rw [mine, Function.update_self, List.length_singleton]
      | cons first rest =>
          rw [members] at follows
          cases follows.1
    · rw [Function.update_of_ne mine]
      exact ledger.short k

theorem drop (ledger : Chains newer unused spare chains) {h : Holder} {c : Nat} (head : unused h = some c)
    (same : ∀ d, spare' d ↔ spare d ∧ d ≠ c) :
    Chains newer (Function.update unused h (newer c)) spare' (Function.update chains h (chains h).tail) := by
  have follows := ledger.follows h
  have nodup := ledger.nodup h
  rw [head] at follows
  cases members : chains h with
  | nil =>
      rw [members] at follows
      cases follows
  | cons first rest =>
      rw [members] at follows nodup
      obtain ⟨⟨⟩, follows⟩ := follows
      obtain ⟨fresh, nodup⟩ := List.nodup_cons.mp nodup
      have inside : c ∈ chains h := members ▸ .head _
      have still : ∀ k d, d ∈ Function.update chains h rest k ↔ d ∈ chains k ∧ d ≠ c := by
        intro k d
        by_cases mine : k = h
        · subst mine
          rw [Function.update_self, members, List.mem_cons]
          constructor
          · exact fun member => ⟨.inr member, ne_of_mem_of_not_mem member fresh⟩
          · exact fun member => member.1.resolve_left member.2
        · rw [Function.update_of_ne mine]
          refine ⟨fun member => ⟨member, ?_⟩, And.left⟩
          rintro rfl
          exact mine (ledger.apart k h d member inside)
      constructor
      · intro k
        by_cases mine : k = h
        · subst mine
          rw [Function.update_self, Function.update_self]
          exact follows
        · rw [Function.update_of_ne mine, Function.update_of_ne mine]
          exact ledger.follows k
      · intro k
        by_cases mine : k = h
        · subst mine
          rw [Function.update_self]
          exact nodup
        · rw [Function.update_of_ne mine]
          exact ledger.nodup k
      · intro k l d in_k in_l
        exact ledger.apart k l d ((still k d).mp in_k).1 ((still l d).mp in_l).1
      · intro d
        rw [same, ledger.spare d]
        constructor
        · rintro ⟨⟨k, member⟩, other⟩
          exact ⟨k, (still k d).mpr ⟨member, other⟩⟩
        · rintro ⟨k, member⟩
          obtain ⟨member, other⟩ := (still k d).mp member
          exact ⟨⟨k, member⟩, other⟩
      · intro k
        by_cases mine : .decode k = h
        · have short := ledger.short k
          rw [mine, members, List.length_cons] at short
          rw [mine, Function.update_self, List.tail_cons]
          omega
        · rw [Function.update_of_ne mine]
          exact ledger.short k

end Chains

end Yafsml.Vfs
