import Yafsml.Foundation.Memo
import Yafsml.Text.Case
import Yafsml.Vfs.Normalize

/-!
# Writable routes

The table of `vfs_register_writable_path` and its cache by raw spelling. A route depends on the
normalized spelling only: neither the cache nor the filter on the last segment changes an answer.
-/

namespace Yafsml.Vfs

/-- `writable_entries` and `writable_cache`. -/
structure Writable where
  cache : Option (AList fun _ : WString => Option WString)
  entries : List (WString × WString)
  capacity : Nat

def writableInit (cache : Bool) : Writable := ⟨if cache then some ∅ else none, [], 0⟩

structure RouteMemory where
  normalize : Bool
  cacheKey : Bool
  put : Bool

structure RegisterMemory where
  normalize : Bool
  path : Bool
  grow : Bool

def vfsLastSegment (path : WString) : Option WString :=
  let segment := mlPathFilename path
  if segment = [] ∨ segment = [WChar.dot] ∨ segment = [WChar.dot, WChar.dot] then none
  else if WChar.colon ∈ segment then none
  else some segment

section Routes

variable (win : Windows)

def vfsWritableSegmentMayMatch (path : WString) (entries : List (WString × WString)) : Bool :=
  match vfsLastSegment path with
  | none => true
  | some segment => entries.any fun entry =>
      match vfsLastSegment entry.1 with
      | none => true
      | some keySegment => win.ordinalEqual segment keySegment

/-- The shared section of `vfs_route_writable_path`; `none` goes on to the exclusive one. -/
def routeProbe (path : WString) (w : Writable) (cache : AList fun _ : WString => Option WString) :
    Option (Option WString) :=
  if w.entries = [] then some none
  else match cache.lookup path with
    | some result => some result
    | none => if vfsWritableSegmentMayMatch win path w.entries then none else some none

/-- The exclusive section of `vfs_route_writable_path`. -/
def routeFill (path key : WString) (put : Bool) (w : Writable)
    (cache : AList fun _ : WString => Option WString) : Writable × Option WString :=
  match cache.lookup path with
  | some result => (w, result)
  | none =>
      let result := Memo.lookup w.entries key
      (if put then { w with cache := some (cache.insert path result) } else w, result)

/-- `vfs_route_writable_path`, `guarded` when `vfs_recursion_depth` is not zero. -/
def vfsRouteWritablePath (guarded : Bool) (memory : RouteMemory) (path : WString) (w : Writable) :
    Writable × Option WString :=
  match w.cache with
  | none => (w, none)
  | some cache =>
      if guarded then (w, none)
      else match routeProbe win path w cache with
        | some result => (w, result)
        | none =>
            match if memory.normalize then vfsNormalizePath win path else none with
            | none => (w, none)
            | some key => if memory.cacheKey then routeFill path key memory.put w cache else (w, none)

def vfsRegisterWritablePath (memory : RegisterMemory) (virtualPath physicalPath : WString)
    (w : Writable) : Writable × Bool :=
  if physicalPath = [] then (w, false)
  else match if memory.normalize then vfsNormalizePath win virtualPath else none with
    | none => (w, false)
    | some key =>
        if key = [] ∨ !memory.path then (w, false)
        else match Memo.lookup w.entries key with
          | some registered => (w, win.ordinalEqual physicalPath registered)
          | none =>
              if w.entries.length = w.capacity ∧ !memory.grow then (w, false)
              else
                ({ cache := w.cache.map fun _ => ∅
                   entries := w.entries ++ [(key, physicalPath)]
                   capacity := if w.entries.length = w.capacity then
                     (if w.capacity = 0 then 8 else w.capacity * 2) else w.capacity }, true)

/-- What the cache has for a spelling is what the table has for its normalized form. -/
def Consistent (w : Writable) : Prop :=
  ∀ cache, w.cache = some cache → ∀ path result, cache.lookup path = some result →
    ∃ key, vfsNormalizePath win path = some key ∧ result = Memo.lookup w.entries key

variable {win}

theorem writableInit_consistent (cache : Bool) : Consistent win (writableInit cache) := by
  intro table present path result found
  cases cache with
  | true =>
      cases present
      cases found
  | false => cases present

theorem routeFill_spec {path key : WString} (put : Bool) {w : Writable}
    {cache : AList fun _ : WString => Option WString} (consistent : Consistent win w)
    (present : w.cache = some cache) (spelled : vfsNormalizePath win path = some key) :
    let routed := routeFill path key put w cache
    Consistent win routed.1 ∧ routed.1.entries = w.entries ∧ routed.1.cache.isSome ∧
      routed.2 = Memo.lookup w.entries key := by
  unfold routeFill
  cases found : cache.lookup path with
  | some result =>
      obtain ⟨key', spelled', answer⟩ := consistent cache present path result found
      rw [spelled, Option.some.injEq] at spelled'
      exact ⟨consistent, rfl, by simp [present], spelled' ▸ answer⟩
  | none =>
      cases put with
      | false => exact ⟨consistent, rfl, by simp [present], rfl⟩
      | true =>
          refine ⟨?_, rfl, rfl, rfl⟩
          intro table filled path' result found'
          cases filled
          rw [FiniteMap.lookup_insert] at found'
          split at found'
          · rename_i same
            cases found'
            exact ⟨key, same ▸ spelled, rfl⟩
          · exact consistent cache present path' result found'

theorem vfsRouteWritablePath_spec (guarded : Bool) (memory : RouteMemory) (path : WString)
    {w : Writable} (consistent : Consistent win w) :
    let routed := vfsRouteWritablePath win guarded memory path w
    Consistent win routed.1 ∧ routed.1.entries = w.entries ∧
      routed.1.cache.isSome = w.cache.isSome ∧ ∀ target, routed.2 = some target →
        w.cache.isSome ∧
          ∃ key, vfsNormalizePath win path = some key ∧ Memo.lookup w.entries key = some target := by
  unfold vfsRouteWritablePath
  cases present : w.cache with
  | none => exact ⟨consistent, rfl, by simp [present], fun _ routed => (by cases routed)⟩
  | some cache =>
      have unrouted : Consistent win w ∧ w.entries = w.entries ∧ w.cache.isSome = true ∧
          ∀ target, (none : Option WString) = some target → (some cache).isSome ∧ ∃ key,
            vfsNormalizePath win path = some key ∧ Memo.lookup w.entries key = some target :=
        ⟨consistent, rfl, by simp [present], fun _ routed => (by cases routed)⟩
      dsimp only
      split
      · exact unrouted
      cases probe : routeProbe win path w cache with
      | some result =>
          refine ⟨consistent, rfl, by simp [present], fun target routed => ?_⟩
          dsimp only at routed
          subst routed
          unfold routeProbe at probe
          split at probe
          · cases probe
          split at probe
          · rename_i found
            cases probe
            obtain ⟨key, spelled, answer⟩ := consistent cache present path _ found
            exact ⟨rfl, key, spelled, answer.symm⟩
          · split at probe <;> cases probe
      | none =>
          dsimp only
          cases normalized : if memory.normalize then vfsNormalizePath win path else none with
          | none => exact unrouted
          | some key =>
              have spelled : vfsNormalizePath win path = some key := by
                split at normalized
                · exact normalized
                · cases normalized
              dsimp only
              split
              · obtain ⟨consistent', entries, kept, answer⟩ :=
                  routeFill_spec memory.put consistent present spelled
                exact ⟨consistent', entries, kept, fun target routed =>
                  ⟨rfl, key, spelled, answer ▸ routed⟩⟩
              · exact unrouted

theorem vfsRegisterWritablePath_spec (memory : RegisterMemory) (virtualPath physicalPath : WString)
    {w : Writable} (consistent : Consistent win w) :
    let registered := vfsRegisterWritablePath win memory virtualPath physicalPath w
    Consistent win registered.1 ∧ registered.1.cache.isSome = w.cache.isSome ∧
      (registered.1.entries = w.entries ∨ ∃ key, vfsNormalizePath win virtualPath = some key ∧
        Memo.lookup w.entries key = none ∧
        registered.1.entries = w.entries ++ [(key, physicalPath)] ∧ registered.2 = true) := by
  unfold vfsRegisterWritablePath
  split
  · exact ⟨consistent, rfl, .inl rfl⟩
  split
  · exact ⟨consistent, rfl, .inl rfl⟩
  rename_i key normalized
  have spelled : vfsNormalizePath win virtualPath = some key := by
    split at normalized
    · exact normalized
    · cases normalized
  split
  · exact ⟨consistent, rfl, .inl rfl⟩
  split
  · exact ⟨consistent, rfl, .inl rfl⟩
  rename_i fresh
  split
  · exact ⟨consistent, rfl, .inl rfl⟩
  refine ⟨?_, by simp, .inr ⟨key, spelled, fresh, rfl, rfl⟩⟩
  intro cache present path result found
  obtain ⟨_, _, rfl⟩ := Option.map_eq_some_iff.mp present
  cases found

theorem vfsRegisterWritablePath_fresh {memory : RegisterMemory} {virtualPath physicalPath key : WString}
    {w : Writable} (normalize : memory.normalize = true) (path : memory.path = true)
    (grow : memory.grow = true) (physical : physicalPath ≠ []) (nonempty : key ≠ [])
    (spelled : vfsNormalizePath win virtualPath = some key)
    (fresh : Memo.lookup w.entries key = none) :
    (vfsRegisterWritablePath win memory virtualPath physicalPath w).2 = true ∧
      (vfsRegisterWritablePath win memory virtualPath physicalPath w).1.entries =
        w.entries ++ [(key, physicalPath)] := by
  simp [vfsRegisterWritablePath, physical, normalize, path, grow, spelled, nonempty, fresh]

theorem vfsWritableSegmentMayMatch_exact
    (separator : ∀ c, isSeparator (win.towlower c) = true → isSeparator c = true)
    (ordinal : ∀ c, win.ordinalFold (win.towlower c) = win.ordinalFold c) {path key target : WString}
    {entries : List (WString × WString)} (spelled : vfsNormalizePath win path = some key)
    (registered : (key, target) ∈ entries) :
    vfsWritableSegmentMayMatch win path entries = true := by
  unfold vfsWritableSegmentMayMatch
  cases last : vfsLastSegment path with
  | none => rfl
  | some segment =>
      rw [List.any_eq_true]
      refine ⟨_, registered, ?_⟩
      unfold vfsLastSegment at last
      dsimp only at last
      split at last
      · cases last
      rename_i ordinary
      rw [not_or, not_or] at ordinary
      split at last
      · cases last
      rename_i colon
      obtain rfl : mlPathFilename path = segment := Option.some.inj last
      obtain ⟨before, whole, separated⟩ := mlPathFilename_split path
      have plain : Plain (mlPathFilename path) :=
        ⟨⟨ordinary.1, fun c => not_isSeparator_of_mem_mlPathFilename⟩, colon⟩
      rw [whole] at spelled
      obtain ⟨front, rfl, separated'⟩ :=
        vfsNormalizePath_append separated plain.toComponent (.inl plain.colon) ordinary.2.1 ordinary.2.2 spelled
      have keySegment : mlPathFilename (front ++ (mlPathFilename path).map win.towlower) = _ :=
        mlPathFilename_append separated' (by
          intro c member
          obtain ⟨d, inside, rfl⟩ := List.mem_map.mp member
          exact Bool.eq_false_iff.mpr fun appears =>
            Bool.eq_false_iff.mp (plain.separators d inside) (separator d appears))
      dsimp only
      split
      · rfl
      · rename_i keySegment' last'
        unfold vfsLastSegment at last'
        dsimp only at last'
        split at last'
        · cases last'
        split at last'
        · cases last'
        · cases last'
          rw [keySegment, Windows.ordinalEqual, List.map_map, beq_iff_eq]
          exact List.map_congr_left fun c _ => (ordinal c).symm

theorem routeProbe_exact
    (separator : ∀ c, isSeparator (win.towlower c) = true → isSeparator c = true)
    (ordinal : ∀ c, win.ordinalFold (win.towlower c) = win.ordinalFold c) {path : WString}
    {w : Writable} {cache : AList fun _ : WString => Option WString}
    (consistent : Consistent win w) (present : w.cache = some cache) {result : Option WString}
    (probe : routeProbe win path w cache = some result) :
    result = (vfsNormalizePath win path).bind (Memo.lookup w.entries) := by
  unfold routeProbe at probe
  split at probe
  · rename_i empty
    cases probe
    rw [empty]
    cases vfsNormalizePath win path <;> rfl
  split at probe
  · rename_i found
    cases probe
    obtain ⟨key, spelled, rfl⟩ := consistent cache present path _ found
    rw [spelled, Option.bind_some]
  split at probe
  · cases probe
  · rename_i filtered
    cases probe
    cases spelled : vfsNormalizePath win path with
    | none => rfl
    | some key =>
        cases found : Memo.lookup w.entries key with
        | none => exact found.symm
        | some target =>
            exact absurd (vfsWritableSegmentMayMatch_exact separator ordinal spelled
              (Memo.lookup_mem found)) filtered

theorem vfsRouteWritablePath_exact (cased : win.Cased) {memory : RouteMemory} {path : WString}
    {w : Writable} (consistent : Consistent win w) (cache : w.cache.isSome)
    (normalize : memory.normalize = true) (cacheKey : memory.cacheKey = true) :
    (vfsRouteWritablePath win false memory path w).2 =
      (vfsNormalizePath win path).bind (Memo.lookup w.entries) := by
  obtain ⟨table, present⟩ := Option.isSome_iff_exists.mp cache
  unfold vfsRouteWritablePath
  simp only [present, normalize, cacheKey, if_true, Bool.false_eq_true, if_false]
  cases probe : routeProbe win path w table with
  | some result =>
      exact routeProbe_exact (fun c => (cased.lower.isSeparator c).symm.trans) cased.ordinal
        consistent present probe
  | none =>
      cases spelled : vfsNormalizePath win path with
      | none => rfl
      | some key => exact (routeFill_spec memory.put consistent present spelled).2.2.2

end Routes

end Yafsml.Vfs
