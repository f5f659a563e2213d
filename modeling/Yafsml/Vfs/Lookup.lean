import Mathlib.Data.List.TakeWhile
import Yafsml.Vfs.Index

/-!
# Lookups

UIDs, and the lookups as they answer without their caches.
-/

namespace Yafsml.Vfs

def hexValue (c : WChar) : Option Nat :=
  if 48 ≤ c ∧ c ≤ 57 then some (c.toNat - 48)
  else if 97 ≤ c ∧ c ≤ 102 then some (c.toNat - 87)
  else if 65 ≤ c ∧ c ≤ 70 then some (c.toNat - 55)
  else none

def iswxdigit (c : WChar) : Bool := (hexValue c).isSome

def hexNumber (digits : WString) : Nat :=
  digits.foldl (fun n c => n * 16 + (hexValue c).getD 0) 0

/-- `wcstoull(text, &end, 16)` for a text that starts with a hexadecimal digit: the number and the
text at `end`. It saturates at `ULLONG_MAX`, which is never below `entry_count`. -/
def wcstoull16 (text : WString) : Nat × WString :=
  let digits := match text with
    | zero :: x :: d :: rest =>
        if zero == 48 && (x == 120 || x == 88) && iswxdigit d then d :: rest else text
    | _ => text
  (hexNumber (digits.takeWhile iswxdigit), digits.dropWhile iswxdigit)

/-- `vfs_uid_entry`: the number of the entry, and whether the UID is the forward-only variant. -/
def vfsUidEntry (s : State) (uid : WString) : Option (Nat × Bool) :=
  if uidPrefix <+: uid then
    let tail := uid.drop uidPrefix.length
    let streaming := tail.head? == some 115
    let number := if streaming then tail.drop 1 else tail
    if number.head?.any iswxdigit then
      let (value, rest) := wcstoull16 number
      if rest = [] ∧ value < s.entries.length then some (value, streaming) else none
    else none
  else none

def vfsEntryReadPath (entry : VfsEntry) : Option WString :=
  if entry.zip.isSome then some entry.uid else entry.path

def vfsUidToPath (s : State) (uid : WString) : Option WString := do
  let (i, streaming) ← vfsUidEntry s uid
  let entry ← s.entries[i]?
  if streaming && entry.zip.isSome then some entry.streamingUid else vfsEntryReadPath entry

section Lookup

variable (win : Windows)

/-- The entry the index has for a path, when the buffers of `vfs_normalize_path` have the outcome
`memory`. -/
def indexedEntry (memory : Bool) (s : State) (path : WString) : Option VfsEntry :=
  let normalized := if memory then vfsNormalizePath win path else none
  normalized.bind fun key => (s.index.lookup key).bind fun i => s.entries[i]?

/-- `vfs_lookup`, and `vfs_lookup_domain` for every domain, while `generation` is zero. -/
def vfsLookup (memory : Bool) (s : State) (path : WString) : Option WString :=
  (vfsUidToPath s path).or ((indexedEntry win memory s path).bind vfsEntryReadPath)

/-- `vfs_virtual_to_uid` while `generation` is zero. -/
def vfsVirtualToUid (memory : Bool) (s : State) (path : WString) : Option WString :=
  (indexedEntry win memory s path).map (·.uid)

end Lookup

theorem hexValue_digitChar (d : Nat) (h : d < 16) :
    hexValue (Nat.digitChar d).toNat.toUInt16 = some d := by
  have all : ∀ d : Fin 16, hexValue (Nat.digitChar d).toNat.toUInt16 = some d.val := by decide
  exact all ⟨d, h⟩

theorem hexDigits_of_lt {n : Nat} (h : n < 16) :
    hexDigits n = [(Nat.digitChar n).toNat.toUInt16] := by
  rw [hexDigits, Nat.toDigits_of_lt_base h, List.map_singleton]

theorem hexDigits_of_le {n : Nat} (h : 16 ≤ n) :
    hexDigits n = hexDigits (n / 16) ++ [(Nat.digitChar (n % 16)).toNat.toUInt16] := by
  rw [hexDigits, Nat.toDigits_of_base_le (by decide) h, List.map_append, List.map_singleton]
  rfl

theorem hexNumber_hexDigits (n : Nat) : hexNumber (hexDigits n) = n := by
  induction n using Nat.strong_induction_on with
  | _ n ih =>
      by_cases h : n < 16
      · simp [hexDigits_of_lt h, hexNumber, hexValue_digitChar n h]
      · have digit := hexValue_digitChar (n % 16) (Nat.mod_lt n (by decide))
        have rest := ih (n / 16) (by omega)
        rw [hexDigits_of_le (by omega), hexNumber, List.foldl_append]
        rw [hexNumber] at rest
        simp only [rest, List.foldl_cons, List.foldl_nil, digit, Option.getD_some]
        omega

theorem hexDigits_iswxdigit (n : Nat) : ∀ c ∈ hexDigits n, iswxdigit c = true := by
  induction n using Nat.strong_induction_on with
  | _ n ih =>
      by_cases h : n < 16
      · simp [hexDigits_of_lt h, iswxdigit, hexValue_digitChar n h]
      · rw [hexDigits_of_le (by omega)]
        intro c member
        rcases List.mem_append.mp member with member | member
        · exact ih (n / 16) (by omega) c member
        · rw [List.mem_singleton.mp member, iswxdigit,
            hexValue_digitChar (n % 16) (Nat.mod_lt n (by decide)), Option.isSome_some]

theorem hexDigits_ne_nil (n : Nat) : hexDigits n ≠ [] := by
  simp [hexDigits, Nat.toDigits_ne_nil]

theorem wcstoull16_hexDigits (n : Nat) : wcstoull16 (hexDigits n) = (n, []) := by
  have digits := hexDigits_iswxdigit n
  have plain : ∀ zero x d rest, hexDigits n = zero :: x :: d :: rest → (x == 120 || x == 88) = false := by
    intro zero x d rest spelled
    have digit := digits x (by simp [spelled])
    by_contra h
    rw [Bool.not_eq_false, Bool.or_eq_true, beq_iff_eq, beq_iff_eq] at h
    rcases h with rfl | rfl <;> exact absurd digit (by decide)
  unfold wcstoull16
  have kept : (match hexDigits n with
      | zero :: x :: d :: rest =>
          if zero == 48 && (x == 120 || x == 88) && iswxdigit d then d :: rest else hexDigits n
      | _ => hexDigits n) = hexDigits n := by
    split
    · rename_i zero x d rest spelled
      simp [plain zero x d rest spelled]
    · rfl
  simp only [kept]
  rw [List.takeWhile_eq_self_iff.mpr digits, hexNumber_hexDigits,
    List.dropWhile_eq_nil_iff.mpr digits]

theorem vfsUidEntry_uidOf (s : State) (i : Nat) (h : i < s.entries.length) :
    vfsUidEntry s (uidOf i) = some (i, false) := by
  obtain ⟨d, rest, spelled⟩ := List.exists_cons_of_ne_nil (hexDigits_ne_nil i)
  have digit : iswxdigit d = true := hexDigits_iswxdigit i d (by simp [spelled])
  have plain : ((hexDigits i).head? == some 115) = false := by
    rw [spelled]
    by_contra h
    have : d = 115 := by simpa using h
    exact absurd (this ▸ digit) (by decide)
  have tail : (uidOf i).drop uidPrefix.length = hexDigits i := List.drop_left
  unfold vfsUidEntry
  rw [if_pos (show uidPrefix <+: uidOf i from List.prefix_append _ _)]
  simp only [tail, plain, if_false, Bool.false_eq_true, wcstoull16_hexDigits, h, and_self, if_true]
  simp [spelled, digit]

end Yafsml.Vfs
