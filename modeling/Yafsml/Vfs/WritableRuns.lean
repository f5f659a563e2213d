import Yafsml.Foundation.Interleaving
import Yafsml.Vfs.Writable

/-!
# Writable routes in every interleaving

`vfs_register_writable_path` and `vfs_route_writable_path` run by any number of threads. What a
thread does under `writable_lock` is one turn.
-/

namespace Yafsml.Vfs
open Interleaving

/-- Where a thread is in a call, outside of the recursion guard. -/
inductive RouteThread
  | idle
  | registering (virtualPath physicalPath : WString)
  | registered (result : Bool)
  /-- before the shared section of `vfs_route_writable_path` -/
  | routing (path : WString)
  /-- between the sections -/
  | normalizing (path : WString)
  /-- before the exclusive section -/
  | filling (path key : WString)
  | routed (path : WString) (result : Option WString)

inductive RouteMove
  | register (virtualPath physicalPath : WString)
  | route (path : WString)
  /-- `put` is the outcome of `kh_put`. -/
  | advance (put : Bool)

section Turn

variable (win : Windows)

def RouteThread.advance (put : Bool) (w : Writable) : RouteThread → Writable × RouteThread
  | .idle => (w, .idle)
  | .registering virtualPath physicalPath =>
      let registered := vfsRegisterWritablePath win ⟨true, true, true⟩ virtualPath physicalPath w
      (registered.1, .registered registered.2)
  | .registered _ => (w, .idle)
  | .routing path =>
      match w.cache with
      | none => (w, .routed path none)
      | some cache =>
          match routeProbe win path w cache with
          | some result => (w, .routed path result)
          | none => (w, .normalizing path)
  | .normalizing path =>
      match vfsNormalizePath win path with
      | none => (w, .routed path none)
      | some key => (w, .filling path key)
  | .filling path key =>
      match w.cache with
      | none => (w, .routed path none)
      | some cache =>
          let routed := routeFill path key put w cache
          (routed.1, .routed path routed.2)
  | .routed _ _ => (w, .idle)

def routeAct (move : RouteMove) (w : Writable) (thread : RouteThread) :
    Option (Writable × RouteThread) :=
  match move, thread with
  | .register virtualPath physicalPath, .idle => some (w, .registering virtualPath physicalPath)
  | .route path, .idle => some (w, .routing path)
  | .advance put, thread => some (thread.advance win put w)
  | _, _ => none

/-- Threads `ι`, none of them inside a call, over the empty table. -/
def startRoutes (ι : Type) : Config ι Writable RouteThread := ⟨writableInit true, fun _ => .idle⟩

/-- The thread is in a call of `vfs_route_writable_path` for a path. -/
def RouteThread.Routes (path : WString) : RouteThread → Prop
  | .routing path' | .normalizing path' | .filling path' _ => path' = path
  | _ => False

structure Routable (w : Writable) : Prop where
  consistent : Consistent win w
  cache : w.cache.isSome = true
  distinct : (w.entries.map (·.1)).Nodup

def RouteThread.Spelled : RouteThread → Prop
  | .filling path key => vfsNormalizePath win path = some key
  | _ => True

variable {win} {w : Writable}

theorem Routable.start : Routable win (writableInit true) :=
  ⟨writableInit_consistent true, rfl, List.nodup_nil⟩

theorem Routable.register (h : Routable win w) (memory : RegisterMemory)
    (virtualPath physicalPath : WString) :
    Routable win (vfsRegisterWritablePath win memory virtualPath physicalPath w).1 := by
  obtain ⟨consistent, cache, entries⟩ :=
    vfsRegisterWritablePath_spec memory virtualPath physicalPath h.consistent
  refine ⟨consistent, cache.trans h.cache, ?_⟩
  rcases entries with same | ⟨key, -, fresh, added, -⟩
  · rw [same]
    exact h.distinct
  · rw [added, List.map_append, List.nodup_append]
    refine ⟨h.distinct, by simp, ?_⟩
    intro earlier member new last same
    rw [List.mem_singleton.mp last] at same
    subst same
    exact Memo.lookup_eq_none.mp fresh member

theorem Routable.fill (h : Routable win w) {path key : WString} (put : Bool)
    {cache : AList fun _ : WString => Option WString} (present : w.cache = some cache)
    (spelled : vfsNormalizePath win path = some key) :
    Routable win (routeFill path key put w cache).1 ∧
      (routeFill path key put w cache).2 = Memo.lookup w.entries key := by
  obtain ⟨consistent, entries, cache, answer⟩ :=
    routeFill_spec put h.consistent present spelled
  exact ⟨⟨consistent, cache, entries ▸ h.distinct⟩, answer⟩

theorem Routable.advance (h : Routable win w) {thread : RouteThread}
    (spelled : thread.Spelled win) (put : Bool) :
    Routable win (thread.advance win put w).1 ∧ (thread.advance win put w).2.Spelled win := by
  cases thread with
  | idle => exact ⟨h, trivial⟩
  | registering virtualPath physicalPath => exact ⟨h.register .., trivial⟩
  | registered result => exact ⟨h, trivial⟩
  | routing path =>
      simp only [RouteThread.advance]
      split
      · exact ⟨h, trivial⟩
      · split
        · exact ⟨h, trivial⟩
        · exact ⟨h, trivial⟩
  | normalizing path =>
      simp only [RouteThread.advance]
      split
      · exact ⟨h, trivial⟩
      · rename_i key normalized
        exact ⟨h, normalized⟩
  | filling path key =>
      simp only [RouteThread.advance]
      split
      · exact ⟨h, trivial⟩
      · rename_i cache present
        exact ⟨(h.fill put present spelled).1, trivial⟩
  | routed path result => exact ⟨h, trivial⟩

theorem Routable.act (h : Routable win w) {thread thread' : RouteThread} {w' : Writable}
    {move : RouteMove} (spelled : thread.Spelled win)
    (acted : routeAct win move w thread = some (w', thread')) :
    Routable win w' ∧ thread'.Spelled win := by
  unfold routeAct at acted
  split at acted
  · cases acted
    exact ⟨h, trivial⟩
  · cases acted
    exact ⟨h, trivial⟩
  · rename_i put
    have next := h.advance spelled put
    rw [Option.some.injEq] at acted
    rwa [acted] at next
  · cases acted

theorem routes_hold {ι : Type} [DecidableEq ι] {c : Config ι Writable RouteThread}
    (reachable : Reachable (routeAct win) (startRoutes ι) c) :
    Holds (Routable win) (fun _ thread => thread.Spelled win) c :=
  reachable.holds (fun _ _ _ _ _ h spelled acted => h.act spelled acted)
    (fun _ _ _ _ _ _ _ _ _ spelled => spelled) ⟨.start, fun _ => trivial⟩

theorem Routable.answer (lowers : win.Lowers) (h : Routable win w) {thread : RouteThread}
    (spelled : thread.Spelled win) {put : Bool} {path : WString} {result : Option WString}
    (returned : (thread.advance win put w).2 = .routed path result) :
    thread.Routes path ∧ result = (vfsNormalizePath win path).bind (Memo.lookup w.entries) := by
  obtain ⟨table, present⟩ := Option.isSome_iff_exists.mp h.cache
  cases thread with
  | idle => cases returned
  | registering virtualPath physicalPath => cases returned
  | registered result => cases returned
  | routing path' =>
      simp only [RouteThread.advance, present] at returned
      split at returned
      · rename_i found probe
        cases returned
        exact ⟨rfl, routeProbe_exact lowers.separator
          (fun c => lowers.ordinal _ _ (lowers.idem c)) h.consistent present probe⟩
      · cases returned
  | normalizing path' =>
      simp only [RouteThread.advance] at returned
      split at returned
      · rename_i escaped
        cases returned
        exact ⟨rfl, by rw [escaped, Option.bind_none]⟩
      · cases returned
  | filling path' key =>
      simp only [RouteThread.advance, present] at returned
      cases returned
      refine ⟨rfl, ?_⟩
      rw [show vfsNormalizePath win _ = some key from spelled, Option.bind_some]
      exact (h.fill put present spelled).2
  | routed path' result' => cases returned

/-- In every interleaving: no two entries share a key, and a route returns the path of the entry under
the normalized spelling, or nothing where there is none, as the table is when the route returns. -/
theorem writable_routes_exact {ι : Type} [DecidableEq ι] (lowers : win.Lowers)
    {c : Config ι Writable RouteThread} (reachable : Reachable (routeAct win) (startRoutes ι) c) :
    (c.shared.entries.map (·.1)).Nodup ∧
    ∀ c' i path result, Step (routeAct win) c c' → c.threads i ≠ .routed path result →
      c'.threads i = .routed path result →
      (c.threads i).Routes path ∧ ∀ target, result = some target ↔
        ∃ key, vfsNormalizePath win path = some key ∧ (key, target) ∈ c.shared.entries := by
  have holds := routes_hold reachable
  refine ⟨holds.shared.distinct, ?_⟩
  intro c' i path result step before after
  cases step with
  | @take w' thread' j move acted =>
      have own : i = j := by
        by_contra other
        exact before (by simpa only [Function.update_of_ne other] using after)
      subst own
      have returned : thread' = .routed path result := by
        simpa only [Function.update_self] using after
      subst returned
      have answer : (c.threads i).Routes path ∧
          result = (vfsNormalizePath win path).bind (Memo.lookup c.shared.entries) := by
        unfold routeAct at acted
        split at acted
        · cases acted
        · cases acted
        · rw [Option.some.injEq] at acted
          exact holds.shared.answer lowers (holds.threads i) (congrArg Prod.snd acted)
        · cases acted
      refine ⟨answer.1, fun target => ?_⟩
      rw [answer.2, Option.bind_eq_some_iff]
      exact exists_congr fun key => and_congr_right fun _ =>
        Memo.lookup_eq_some holds.shared.distinct

end Turn

/-- The other thread registers between the two sections of a route that is already under way. -/
private def routeSchedule : List (Bool × RouteMove) :=
  [(false, .register (wide "mods\\a.ini") (wide "C:\\p\\m.ini")), (false, .advance true),
    (false, .advance true), (true, .route (wide ".\\A.ini")), (true, .advance true),
    (false, .register (wide "a.ini") (wide "C:\\p\\a.ini")), (false, .advance true),
    (true, .advance true)]

theorem writable_routes_exact_hit :
    ∃ c c' : Config Bool Writable RouteThread,
      c'.threads true = .routed (wide ".\\A.ini") (some (wide "C:\\p\\a.ini")) ∧
      ((c.threads true).Routes (wide ".\\A.ini") ∧
        ∀ target, some (wide "C:\\p\\a.ini") = some target ↔
          ∃ key, vfsNormalizePath asciiWindows (wide ".\\A.ini") = some key ∧
            (key, target) ∈ c.shared.entries) := by
  let played := play (routeAct asciiWindows) (startRoutes Bool) routeSchedule
  have finished : played.isSome := by decide
  let c := played.get finished
  have here : c.threads true = .filling (wide ".\\A.ini") (wide "a.ini") := rfl
  let turn := (c.threads true).advance asciiWindows true c.shared
  let c' : Config Bool Writable RouteThread := ⟨turn.1, Function.update c.threads true turn.2⟩
  have step : Step (routeAct asciiWindows) c c' := .take true (.advance true) rfl
  have returned : c'.threads true = .routed (wide ".\\A.ini") (some (wide "C:\\p\\a.ini")) := rfl
  exact ⟨c, c', returned, (writable_routes_exact asciiWindows_lowers
    (play_reachable (Option.some_get finished).symm)).2 c' true _ _ step (by rw [here]; nofun)
    returned⟩

end Yafsml.Vfs
