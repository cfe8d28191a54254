/-
The watches of Keeper (`processWatchesImpl`, `clearDeadWatches` and the part of
`processRequest` for watches, `src/src/Coordination/KeeperStorage.cpp`).

`watches` and `list_watches` are one function of `is_list_watch`. In `sessions_and_watchers`
a session without an entry has the empty set: nothing distinguishes the two. What a request
did to the nodes is an argument: the error of its response, and the paths and events for
which `processWatches` calls `processWatchesImpl`; for a Close, the paths of its
`RemoveNodeDelta`s. `parentNodePath` is any function. `none` is the access to an entry that
is not there, `size_t` is `ℤ`.

Both maps list the same registrations, so the invariant `Indexed` has the set of all of them,
and each operation is described by what it does to that set. The number of registrations
follows with the cardinality. `total_watches_count` follows it except in a Close: the
responses to watches that the removed nodes fire are not subtracted.
-/
import Mathlib

set_option autoImplicit false

namespace ClickHouse.Keeper

open Finset

variable {Path : Type}

/-- What happened to a node. -/
inductive Event where
  | CREATED
  | DELETED
  | CHANGED
deriving DecidableEq, Repr

/-- The requests that can set a watch. -/
inductive WatchOp where
  | List
  | SimpleList
  | FilteredList
  | Exists
  | other
deriving DecidableEq, Repr

/-- The errors on which a watch depends. -/
inductive ResponseError where
  | ZOK
  | ZNONODE
  | other
deriving DecidableEq, Repr

variable (Path) in
/-- The watches by path (`list_watches` under `true`) and by session, with their count. -/
structure WatchState where
  watches : Bool → Path → Option (Finset ℤ)
  sessions_and_watchers : ℤ → Finset (Path × Bool)
  total_watches_count : ℤ

variable (Path) in
/-- What `processWatches` and the caller read of a request and its response. -/
structure WatchRequest where
  session_id : ℤ
  op : WatchOp
  path : Path
  has_watch : Bool
  error : ResponseError
  events : List (Path × Event)

namespace WatchState

def initial : WatchState Path := ⟨fun _ _ => none, fun _ => ∅, 0⟩

variable [DecidableEq Path] (s : WatchState Path)

/-- The sessions that watch a path get a response, and are forgotten; with their number. -/
def fire (is_list_watch : Bool) (path : Path) : WatchState Path × ℕ :=
  match s.watches is_list_watch path with
  | none => (s, 0)
  | some sessions =>
    ({ s with
      watches := fun l p => if l = is_list_watch ∧ p = path then none else s.watches l p
      sessions_and_watchers := fun id =>
        if id ∈ sessions then (s.sessions_and_watchers id).erase (path, is_list_watch)
        else s.sessions_and_watchers id }, sessions.card)

/-- Several paths in a row, with the count of the responses. -/
def fireAll : WatchState Path → List (Bool × Path) → WatchState Path × ℕ
  | s, [] => (s, 0)
  | s, (l, p) :: rest =>
    let fired := s.fire l p
    let all := fireAll fired.1 rest
    (all.1, fired.2 + all.2)

variable (parentNodePath : Path → Path)

/-- The watches that `processWatchesImpl` looks for. -/
def watchesToCheck (path : Path) : Event → List (Bool × Path)
  | .CREATED => [(false, path), (true, parentNodePath path)]
  | .DELETED => [(false, path), (true, path), (true, parentNodePath path)]
  | .CHANGED => [(false, path)]

/-- `processWatchesImpl` for each of the events. -/
def processWatches (events : List (Path × Event)) : WatchState Path × ℕ :=
  s.fireAll (events.flatMap fun e => watchesToCheck parentNodePath e.1 e.2)

/-- A session that watches the path already is not counted again. -/
def addWatch (session_id : ℤ) (path : Path) (is_list_watch : Bool) : WatchState Path :=
  let sessions := (s.watches is_list_watch path).getD ∅
  let emplaced := { s with
    watches := fun l p =>
      if l = is_list_watch ∧ p = path then some (insert session_id sessions) else s.watches l p }
  if session_id ∈ sessions then emplaced
  else
    { emplaced with
      sessions_and_watchers := fun id =>
        if id = session_id then insert (path, is_list_watch) (s.sessions_and_watchers id)
        else s.sessions_and_watchers id
      total_watches_count := s.total_watches_count + 1 }

/-- `clearDeadWatches`; `none` is a watch of the session at a path that has no entry. -/
def clearDeadWatches (session_id : ℤ) : Option (WatchState Path) :=
  let infos := s.sessions_and_watchers session_id
  if ∃ info ∈ infos, s.watches info.2 info.1 = none then none
  else some {
    watches := fun l p =>
      if (p, l) ∈ infos then
        (s.watches l p).bind fun sessions =>
          if sessions.erase session_id = ∅ then none else some (sessions.erase session_id)
      else s.watches l p
    sessions_and_watchers := fun id => if id = session_id then ∅ else s.sessions_and_watchers id
    total_watches_count := s.total_watches_count - infos.card }

/-- The kind of the watch that the request leaves. -/
def watchKind (request : WatchRequest Path) : Option Bool :=
  if request.has_watch then
    if request.error = .ZOK then
      some (decide (request.op ∈ [.List, .SimpleList, .FilteredList]))
    else if request.error = .ZNONODE ∧ request.op = .Exists then some false
    else none
  else none

/-- The watch of a request that has one. -/
def emplaceWatch (request : WatchRequest Path) : WatchState Path :=
  match watchKind request with
  | some is_list_watch => s.addWatch request.session_id request.path is_list_watch
  | none => s

/-- A request that is neither a Close nor a Heartbeat. -/
def processRequest (request : WatchRequest Path) : WatchState Path :=
  let s := s.emplaceWatch request
  if request.error = .ZOK then
    let fired := s.processWatches parentNodePath request.events
    { fired.1 with total_watches_count := fired.1.total_watches_count - fired.2 }
  else s

/-- The watches that the nodes fire that a Close removes, and the number of responses. -/
def removeNodes (removed : List Path) : WatchState Path × ℕ :=
  s.processWatches parentNodePath (removed.map fun path => (path, .DELETED))

/-- A session ends: its ephemeral nodes go first, then its watches. -/
def processClose (session_id : ℤ) (removed : List Path) : Option (WatchState Path) :=
  (s.removeNodes parentNodePath removed).1.clearDeadWatches session_id

end WatchState

variable (Path) in
/-- What the storage does with watches. -/
inductive WatchStep where
  | close (session_id : ℤ) (removed : List Path)
  | request (request : WatchRequest Path)

variable [DecidableEq Path] (parentNodePath : Path → Path)

def WatchStep.apply (s : WatchState Path) : WatchStep Path → Option (WatchState Path)
  | .close session_id removed => s.processClose parentNodePath session_id removed
  | .request r => some (s.processRequest parentNodePath r)

/-- The steps one after another. -/
def runWatches : WatchState Path → List (WatchStep Path) → Option (WatchState Path)
  | s, [] => some s
  | s, step :: steps => (step.apply parentNodePath s).bind (runWatches · steps)

/-- No node that the step removes as a Close is watched, and no parent of one has a list watch. -/
def WatchStep.Unwatched (s : WatchState Path) : WatchStep Path → Prop
  | .close _ removed => ∀ path ∈ removed, s.watches false path = none ∧
      s.watches true path = none ∧ s.watches true (parentNodePath path) = none
  | .request _ => True

/-- Every Close, in the state before it, removes unwatched nodes only. -/
def ClosesUnwatched : WatchState Path → List (WatchStep Path) → Prop
  | _, [] => True
  | s, step :: steps => step.Unwatched parentNodePath s ∧
      ∀ s', step.apply parentNodePath s = some s' → ClosesUnwatched s' steps

/-! ## The registrations -/

namespace WatchState

/-- Both maps have these registrations, and `uncounted` more are counted. -/
structure Indexed (s : WatchState Path) (registrations : Finset (ℤ × Path × Bool))
    (uncounted : ℕ) : Prop where
  watchers : ∀ id p l, id ∈ (s.watches l p).getD ∅ ↔ (id, p, l) ∈ registrations
  infos : ∀ id p l, (p, l) ∈ s.sessions_and_watchers id ↔ (id, p, l) ∈ registrations
  nonempty : ∀ l p, s.watches l p ≠ some ∅
  total : s.total_watches_count = registrations.card + uncounted

variable {s : WatchState Path} {R : Finset (ℤ × Path × Bool)} {n : ℕ}

variable (h : Indexed s R n)

section

include h

/-- Firing a watch removes its registrations. The count is not changed. -/
lemma Indexed.fire (l : Bool) (p : Path) :
    ∃ R', Indexed (s.fire l p).1 R' (n + (s.fire l p).2) := by
  rw [WatchState.fire]
  cases hsessions : s.watches l p with
  | none => exact ⟨R, h⟩
  | some sessions =>
    have hfired (id : ℤ) : id ∈ sessions ↔ (id, p, l) ∈ R := by
      rw [← h.watchers, hsessions, Option.getD_some]
    -- the registrations for this path and kind are gone
    refine ⟨R.filter fun x => x.2 ≠ (p, l), ?_, ?_, ?_, ?_⟩
    · intro id p' l'
      have := h.watchers id p' l'
      by_cases hsame : l' = l ∧ p' = p <;> grind
    · intro id p' l'
      have := h.infos id p' l'
      by_cases hid : id ∈ sessions <;> grind
    · intro l' p'
      have := h.nonempty l' p'
      grind
    · -- as many as there are responses
      have himage : R.filter (fun x => ¬ x.2 ≠ (p, l)) = sessions.image fun id => (id, p, l) := by
        ext ⟨id, p', l'⟩
        grind
      have hcard := R.card_filter_add_card_filter_not fun x => x.2 ≠ (p, l)
      rw [himage, card_image_of_injective _ fun _ _ => by simp] at hcard
      have := h.total
      simp only
      omega

lemma Indexed.fireAll (checks : List (Bool × Path)) :
    ∃ R', Indexed (s.fireAll checks).1 R' (n + (s.fireAll checks).2) := by
  induction checks generalizing s R n with
  | nil => exact ⟨R, h⟩
  | cons check checks ih =>
    obtain ⟨R₁, h₁⟩ := h.fire check.1 check.2
    obtain ⟨R₂, h₂⟩ := ih h₁
    exact ⟨R₂, Nat.add_assoc n _ _ ▸ h₂⟩

lemma Indexed.addWatch (session_id : ℤ) (p : Path) (l : Bool) :
    ∃ R', Indexed (s.addWatch session_id p l) R' n := by
  obtain ⟨hwatchers, hinfos, hnonempty, htotal⟩ := h
  refine ⟨insert (session_id, p, l) R, ?_, ?_, ?_, ?_⟩ <;> rw [WatchState.addWatch]
  · intro id p' l'
    split <;> by_cases hsame : l' = l ∧ p' = p <;> grind
  · intro id p' l'
    split <;> grind
  · intro l' p'
    split <;> grind [insert_ne_empty]
  · split <;> grind

lemma Indexed.clearDeadWatches (session_id : ℤ) :
    ∃ s' R', s.clearDeadWatches session_id = some s' ∧ Indexed s' R' n := by
  obtain ⟨hwatchers, hinfos, hnonempty, htotal⟩ := h
  -- each watch of the session has its entry in the other map, so that no lookup fails
  have hthere : ¬ ∃ info ∈ s.sessions_and_watchers session_id, s.watches info.2 info.1 = none := by
    rintro ⟨⟨p, l⟩, hinfo, hnone⟩
    have := hwatchers session_id p l
    have := hinfos session_id p l
    simp_all
  rw [WatchState.clearDeadWatches, if_neg hthere]
  refine ⟨_, R.filter fun x => x.1 ≠ session_id, rfl, ?_, ?_, ?_, ?_⟩
  · intro id p l
    cases hsessions : s.watches l p <;> grind
  · intro id p l
    grind
  · intro l p
    cases hsessions : s.watches l p <;> grind
  · have himage : R.filter (fun x => ¬ x.1 ≠ session_id) =
        (s.sessions_and_watchers session_id).image fun info => (session_id, info) := by
      ext ⟨id, p, l⟩
      grind
    have hcard := R.card_filter_add_card_filter_not fun x => x.1 ≠ session_id
    rw [himage, card_image_of_injective _ fun _ _ => by simp] at hcard
    simp only
    omega

/-- Nothing is fired exactly if nothing is watched. A watch that is fired removes itself only, so
that the state before the first one decides. -/
lemma Indexed.fireAll_eq_zero_iff (checks : List (Bool × Path)) :
    (s.fireAll checks).2 = 0 ↔ ∀ check ∈ checks, s.watches check.1 check.2 = none := by
  induction checks with
  | nil => simp [WatchState.fireAll]
  | cons check checks ih =>
    rw [WatchState.fireAll, List.forall_mem_cons, WatchState.fire]
    cases hsessions : s.watches check.1 check.2 with
    | none => simpa using ih
    | some sessions =>
      have hne : sessions ≠ ∅ := fun hempty => h.nonempty _ _ (hsessions.trans (hempty ▸ rfl))
      have := card_pos.2 (nonempty_iff_ne_empty.2 hne)
      simp only [reduceCtorEq, false_and, iff_false]
      omega

/-- A removal sends no response only if no node, and no parent of one, is watched. -/
lemma Indexed.removeNodes_eq_zero_iff (removed : List Path) :
    (s.removeNodes parentNodePath removed).2 = 0 ↔ ∀ path ∈ removed, s.watches false path = none ∧
      s.watches true path = none ∧ s.watches true (parentNodePath path) = none := by
  rw [WatchState.removeNodes, processWatches, h.fireAll_eq_zero_iff, List.flatMap_map]
  simp only [List.mem_flatMap, forall_exists_index, and_imp]
  constructor
  · intro hall path hpath
    exact ⟨hall (false, path) path hpath (by simp [watchesToCheck]),
      hall (true, path) path hpath (by simp [watchesToCheck]),
      hall (true, parentNodePath path) path hpath (by simp [watchesToCheck])⟩
  · intro hall check path hpath hcheck
    obtain ⟨hnode, hlist, hparent⟩ := hall path hpath
    simp only [watchesToCheck, List.mem_cons, List.not_mem_nil, or_false] at hcheck
    rcases hcheck with rfl | rfl | rfl
    · exact hnode
    · exact hlist
    · exact hparent

/-- **One step** keeps both maps in agreement. A Close leaves the count off by the number of the
responses that it does not subtract. -/
theorem Indexed.step (step : WatchStep Path) :
    ∃ s' R' m, step.apply parentNodePath s = some s' ∧ Indexed s' R' (n + m) ∧
      (m = 0 ↔ step.Unwatched parentNodePath s) := by
  cases step with
  | close session_id removed =>
    -- the watches on the removed nodes fire before those of the session are cleared
    obtain ⟨R', h'⟩ := h.fireAll _
    obtain ⟨s', R'', hclose, h''⟩ := h'.clearDeadWatches session_id
    exact ⟨s', R'', _, hclose, h'', h.removeNodes_eq_zero_iff parentNodePath removed⟩
  | request r =>
    obtain ⟨R₁, h₁⟩ : ∃ R₁, Indexed (s.emplaceWatch r) R₁ n := by
      rw [emplaceWatch]
      cases watchKind r with
      | none => exact ⟨R, h⟩
      | some l => exact h.addWatch r.session_id r.path l
    by_cases herror : r.error = .ZOK
    · obtain ⟨R₂, h₂⟩ : ∃ R₂, Indexed ((s.emplaceWatch r).processWatches parentNodePath r.events).1
          R₂ (n + ((s.emplaceWatch r).processWatches parentNodePath r.events).2) := h₁.fireAll _
      refine ⟨_, R₂, 0, congrArg some (if_pos herror), { h₂ with total := ?_ }, by
        simp [WatchStep.Unwatched]⟩
      have := h₂.total
      simp only
      omega
    · -- a request that failed fires nothing
      exact ⟨_, R₁, 0, congrArg some (if_neg herror), h₁, by simp [WatchStep.Unwatched]⟩

/-- **All steps.** What one Close leaves off, no later step makes up for. -/
theorem Indexed.run (steps : List (WatchStep Path)) :
    ∃ s' R' m, runWatches parentNodePath s steps = some s' ∧ Indexed s' R' (n + m) ∧
      (m = 0 ↔ ClosesUnwatched parentNodePath s steps) := by
  induction steps generalizing s R n with
  | nil => exact ⟨s, R, 0, rfl, h, by simp [ClosesUnwatched]⟩
  | cons step steps ih =>
    obtain ⟨s₁, R₁, m₁, hstep, h₁, hzero₁⟩ := h.step parentNodePath step
    obtain ⟨s₂, R₂, m₂, hrun, h₂, hzero₂⟩ := ih h₁
    refine ⟨s₂, R₂, m₁ + m₂, ?_, Nat.add_assoc n _ _ ▸ h₂, ?_⟩
    · rw [runWatches, hstep, Option.bind_some, hrun]
    · rw [ClosesUnwatched, hstep, Nat.add_eq_zero_iff, hzero₁, hzero₂]
      simp

end

end WatchState

/-- **The bookkeeping of watches**: both maps agree and no set is empty after any requests.
The total is right exactly if no Close removed a watched node, or a node whose parent had a
list watch. -/
theorem runWatches_spec (steps : List (WatchStep Path)) :
    ∃ s, runWatches parentNodePath .initial steps = some s ∧
      (∀ id p l, id ∈ (s.watches l p).getD ∅ ↔ (p, l) ∈ s.sessions_and_watchers id) ∧
      (∀ l p, s.watches l p ≠ some ∅) ∧
      ∃ registrations : Finset (ℤ × Path × Bool),
        (∀ id p l, (id, p, l) ∈ registrations ↔ (p, l) ∈ s.sessions_and_watchers id) ∧
        (s.total_watches_count = registrations.card ↔
          ClosesUnwatched parentNodePath .initial steps) := by
  have hinitial : WatchState.Indexed (WatchState.initial : WatchState Path) ∅ 0 := by
    constructor <;> simp [WatchState.initial]
  obtain ⟨s, R, m, hrun, h, hzero⟩ := hinitial.run parentNodePath steps
  refine ⟨s, hrun, fun id p l => (h.watchers id p l).trans (h.infos id p l).symm, h.nonempty, R,
    fun id p l => (h.infos id p l).symm, ?_⟩
  rw [← hzero]
  have := h.total
  omega

/-- Session 2 waits for the node `1` to be removed, and the Close of session 1 removes it. -/
theorem close_leaves_total : ∃ s, runWatches (fun _ => 0) .initial
    [.request ⟨2, .Exists, 1, true, .ZOK, []⟩, .close 1 [1]] = some s ∧
      s.sessions_and_watchers 2 = ∅ ∧ s.total_watches_count = 1 :=
  ⟨_, rfl, by decide, by decide⟩

end ClickHouse.Keeper
