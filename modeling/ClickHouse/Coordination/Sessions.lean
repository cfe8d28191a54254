/-
The sessions of Keeper: `SessionExpiryQueue` and what `KeeperStorage` does with sessions
(`src/src/Coordination/SessionExpiryQueue.cpp`, `KeeperStorage.cpp`).

Hash maps are partial functions and `int64_t` is `ℤ`; the time that `getNowMilliseconds`
returns is an argument. `none` is an access to a bucket that is not there. Of
`processRequest` the part that changes the sessions is kept, which only asks whether the
request is a Close; requests that throw before it change nothing.

`step_spec` says for every step which sessions there are after it. It needs that the two maps
of the queue agree, or the queue could keep a session in a bucket that nothing leads to.
A session that was closed comes back exactly with a later step that registers it. Any
request does: `session_and_timeout[session_id]` inserts the key if it is not there.
`calls_spec` is about the queue alone.
-/
import ClickHouse.Lib.SortedList
import Mathlib

set_option autoImplicit false

namespace ClickHouse.Keeper

open List
open Function (update update_apply)

/-- `SessionExpiryQueue`: the time of each session, and the sessions of each time. -/
structure SessionExpiryQueue where
  session_to_expiration_time : ℤ → Option ℤ
  expiry_to_sessions : ℤ → Option (Finset ℤ)
  expiration_interval : ℤ

namespace SessionExpiryQueue

variable (queue : SessionExpiryQueue)

/-- Times are integers and the interval is not 0: an interval of 0, for which the code divides
by 0, and a time near the end of `Int64`, for which the product overflows, are not told from
the others. -/
def roundToNextInterval (time : ℤ) : ℤ :=
  (time.tdiv queue.expiration_interval + 1) * queue.expiration_interval

/-- The sessions of a time; a missing bucket has none. -/
def bucket (time : ℤ) : Finset ℤ := (queue.expiry_to_sessions time).getD ∅

/-- `set_it->second.insert(session_id)`, in a new bucket if there is none. -/
def insertIntoBucket (time session_id : ℤ) : SessionExpiryQueue :=
  { queue with
    expiry_to_sessions :=
      Function.update queue.expiry_to_sessions time (some (insert session_id (queue.bucket time))) }

/-- `set_it->second.erase(session_id)`; an empty bucket goes. -/
def eraseFromBucket (time session_id : ℤ) : Option SessionExpiryQueue :=
  (queue.expiry_to_sessions time).map fun sessions =>
    { queue with
      expiry_to_sessions := Function.update queue.expiry_to_sessions time
        (if sessions.erase session_id = ∅ then none else some (sessions.erase session_id)) }

def setTime (session_id : ℤ) (time : Option ℤ) : SessionExpiryQueue :=
  { queue with
    session_to_expiration_time := Function.update queue.session_to_expiration_time session_id time }

/-- The queue without the session, and whether it was there. -/
def remove (session_id : ℤ) : Option (SessionExpiryQueue × Bool) :=
  match queue.session_to_expiration_time session_id with
  | some time =>
    (queue.eraseFromBucket time session_id).map fun queue => (queue.setTime session_id none, true)
  | none => some (queue, false)

/-- `addNewSessionOrUpdate`. A session whose time does not move stays in its bucket. -/
def addNewSessionOrUpdate (now session_id timeout_ms : ℤ) : Option SessionExpiryQueue :=
  let new_expiry_time := queue.roundToNextInterval (now + timeout_ms)
  let updated := queue.setTime session_id (some new_expiry_time)
  match queue.session_to_expiration_time session_id with
  | some prev_expiry_time =>
    if new_expiry_time = prev_expiry_time then some updated
    else (updated.insertIntoBucket new_expiry_time session_id).eraseFromBucket prev_expiry_time
      session_id
  | none => some (updated.insertIntoBucket new_expiry_time session_id)

/-- `clear`. -/
def clear : SessionExpiryQueue :=
  { queue with session_to_expiration_time := fun _ => none, expiry_to_sessions := fun _ => none }

/-- `buckets` is what a loop over `expiry_to_sessions` meets: its buckets in the order of their
times, and the sessions of each in any order. -/
structure Traverses (buckets : List (ℤ × List ℤ)) : Prop where
  sorted : buckets.Pairwise fun b b' => b.1 < b'.1
  key_iff : ∀ time, time ∈ buckets.map Prod.fst ↔ queue.expiry_to_sessions time ≠ none
  sessions : ∀ b ∈ buckets, b.2.Nodup ∧ b.2.toFinset = queue.bucket b.1

/-- The loop of `getExpiredSessions`. -/
def getExpiredSessions (now : ℤ) : List (ℤ × List ℤ) → List ℤ
  | [] => []
  | (expire_time, expired_sessions) :: rest =>
    if expire_time ≤ now then expired_sessions ++ getExpiredSessions now rest else []

/-- A session is in the bucket of its time and in no other. -/
def Consistent : Prop :=
  ∀ time id, id ∈ queue.bucket time ↔ queue.session_to_expiration_time id = some time

/-- A bucket goes with its last session. -/
def NoEmptyBucket : Prop := ∀ time, queue.expiry_to_sessions time ≠ some ∅

/-- The calls that change the queue. -/
inductive Call where
  | addNewSessionOrUpdate (now session_id timeout_ms : ℤ)
  | remove (session_id : ℤ)
  | clear

/-- One call; `none` is a read of a missing bucket. -/
def call : Call → Option SessionExpiryQueue
  | .addNewSessionOrUpdate now session_id timeout_ms =>
    queue.addNewSessionOrUpdate now session_id timeout_ms
  | .remove session_id => (queue.remove session_id).map Prod.fst
  | .clear => some queue.clear

def new (expiration_interval : ℤ) : SessionExpiryQueue :=
  ⟨fun _ => none, fun _ => none, expiration_interval⟩

end SessionExpiryQueue

/-- The requests that `processRequest` tells apart. -/
inductive OpNum where
  | Close
  | Heartbeat
  | other
deriving DecidableEq, Repr

/-- What `KeeperStorage` keeps of the sessions. -/
structure KeeperSessions where
  session_id_counter : ℤ
  session_and_timeout : ℤ → Option ℤ
  session_expiry_queue : SessionExpiryQueue

namespace KeeperSessions

/-- The storage at the start, with its `tick_time_ms`. -/
def new (tick_time_ms : ℤ) : KeeperSessions :=
  ⟨1, fun _ => none, ⟨fun _ => none, fun _ => none, tick_time_ms⟩⟩

variable (s : KeeperSessions)

/-- `session_and_timeout.emplace(…)`, which keeps a value that is there. -/
def addSessionID (now session_id session_timeout_ms : ℤ) : Option KeeperSessions :=
  (s.session_expiry_queue.addNewSessionOrUpdate now session_id session_timeout_ms).map fun queue =>
    { s with
      session_and_timeout := Function.update s.session_and_timeout session_id
        (some ((s.session_and_timeout session_id).getD session_timeout_ms))
      session_expiry_queue := queue }

/-- `getSessionID`: a new session takes the counter, which moves on. -/
def getSessionID (now session_timeout_ms : ℤ) : Option KeeperSessions :=
  { s with session_id_counter := s.session_id_counter + 1 }.addSessionID now s.session_id_counter
    session_timeout_ms

def processRequest (now session_id : ℤ) (op : OpNum) : Option KeeperSessions :=
  -- `session_and_timeout[session_id]`
  let timeout := (s.session_and_timeout session_id).getD 0
  let s := { s with
    session_and_timeout := Function.update s.session_and_timeout session_id (some timeout) }
  (s.session_expiry_queue.addNewSessionOrUpdate now session_id timeout).bind fun queue =>
    if op = .Close then
      (queue.remove session_id).map fun result =>
        { s with
          session_expiry_queue := result.1
          session_and_timeout := Function.update s.session_and_timeout session_id none }
    else some { s with session_expiry_queue := queue }

/-- A key of `session_and_timeout`, or anywhere in the queue. -/
def Registered (id : ℤ) : Prop :=
  s.session_and_timeout id ≠ none ∨ s.session_expiry_queue.session_to_expiration_time id ≠ none ∨
    ∃ time, id ∈ s.session_expiry_queue.bucket time

end KeeperSessions

/-- The calls that change the sessions. -/
inductive SessionStep where
  | getSessionID (now session_timeout_ms : ℤ)
  | addSessionID (now session_id session_timeout_ms : ℤ)
  | processRequest (now session_id : ℤ) (op : OpNum)

namespace SessionStep

def apply (s : KeeperSessions) : SessionStep → Option KeeperSessions
  | getSessionID now timeout => s.getSessionID now timeout
  | addSessionID now id timeout => s.addSessionID now id timeout
  | processRequest now id op => s.processRequest now id op

/-- The step hands out the session, restores it or is a request of it. -/
def Registers (s : KeeperSessions) (id : ℤ) : SessionStep → Prop
  | getSessionID _ _ => s.session_id_counter = id
  | addSessionID _ session_id _ => session_id = id
  | processRequest _ session_id op => session_id = id ∧ op ≠ .Close

/-- The step is a request of the session `id` to close it. -/
def Closes (id : ℤ) : SessionStep → Prop
  | processRequest _ session_id op => session_id = id ∧ op = .Close
  | _ => False

end SessionStep

def KeeperSessions.run (s : KeeperSessions) (steps : List SessionStep) : Option KeeperSessions :=
  steps.foldlM SessionStep.apply s

/-! ## The queue -/

namespace SessionExpiryQueue

variable {queue : SessionExpiryQueue}

lemma setTime_time (session_id : ℤ) (time : Option ℤ) :
    (queue.setTime session_id time).session_to_expiration_time =
      update queue.session_to_expiration_time session_id time := rfl

lemma insertIntoBucket_time (time session_id : ℤ) :
    (queue.insertIntoBucket time session_id).session_to_expiration_time =
      queue.session_to_expiration_time := rfl

lemma mem_bucket_insertIntoBucket {time session_id t id : ℤ} :
    id ∈ (queue.insertIntoBucket time session_id).bucket t ↔
      id ∈ queue.bucket t ∨ t = time ∧ id = session_id := by
  simp only [bucket, insertIntoBucket, update_apply]
  split <;> grind

lemma NoEmptyBucket.insertIntoBucket (h : queue.NoEmptyBucket) (time session_id : ℤ) :
    (queue.insertIntoBucket time session_id).NoEmptyBucket := by
  intro t
  simp only [SessionExpiryQueue.insertIntoBucket, update_apply]
  split_ifs
  · simp
  · exact h t

/-- Erasing from a bucket that has the session. -/
lemma eraseFromBucket_spec {time session_id : ℤ} (h : session_id ∈ queue.bucket time) :
    ∃ erased, queue.eraseFromBucket time session_id = some erased ∧
      erased.session_to_expiration_time = queue.session_to_expiration_time ∧
      (queue.NoEmptyBucket → erased.NoEmptyBucket) ∧
      ∀ t id, id ∈ erased.bucket t ↔ id ∈ queue.bucket t ∧ ¬ (t = time ∧ id = session_id) := by
  rw [bucket] at h
  cases hsessions : queue.expiry_to_sessions time with
  | none => simp [hsessions] at h
  | some sessions =>
    rw [eraseFromBucket, hsessions]
    refine ⟨_, rfl, rfl, fun hne t => ?_, fun t id => ?_⟩
    · have := hne t
      simp only [update_apply]
      grind
    simp only [bucket, update_apply]
    by_cases ht : t = time
    · have hmem : id ∈ sessions.erase session_id ↔ id ∈ sessions ∧ id ≠ session_id := by grind
      split_ifs <;> grind
    · grind

variable (h : queue.Consistent) (session_id : ℤ)
include h

/-- The queue stays consistent, and only the time of the session changes. -/
lemma addNewSessionOrUpdate_spec (now timeout_ms : ℤ) :
    ∃ added time, queue.addNewSessionOrUpdate now session_id timeout_ms = some added ∧
      added.Consistent ∧ (queue.NoEmptyBucket → added.NoEmptyBucket) ∧
      added.session_to_expiration_time =
        update queue.session_to_expiration_time session_id (some time) := by
  rw [addNewSessionOrUpdate]
  generalize queue.roundToNextInterval (now + timeout_ms) = time
  -- the time is written first, while the buckets are still those of the old times
  have hset (t id : ℤ) : id ∈ (queue.setTime session_id (some time)).bucket t ↔
      queue.session_to_expiration_time id = some t := h t id
  cases hprev : queue.session_to_expiration_time session_id with
  | none =>
    refine ⟨_, time, rfl, fun t id => ?_, fun hne => hne.insertIntoBucket time session_id, rfl⟩
    rw [mem_bucket_insertIntoBucket, hset, insertIntoBucket_time, setTime_time, update_apply]
    grind
  | some prev =>
    by_cases hsame : time = prev
    · -- the time stays the same, and no bucket is touched
      refine ⟨_, time, if_pos hsame, fun t id => ?_, id, rfl⟩
      rw [hset, setTime_time, update_apply]
      grind
    -- into the new bucket and out of the old one
    obtain ⟨added, hadded, htimes, hne, hbuckets⟩ := eraseFromBucket_spec
      (mem_bucket_insertIntoBucket.2 (.inl ((hset prev session_id).2 hprev)))
    refine ⟨added, time, (if_neg hsame).trans hadded, fun t id => ?_,
      fun hempty => hne (hempty.insertIntoBucket time session_id), htimes⟩
    rw [hbuckets, mem_bucket_insertIntoBucket, hset, htimes, insertIntoBucket_time,
      setTime_time, update_apply]
    grind

lemma remove_spec : ∃ removed b, queue.remove session_id = some (removed, b) ∧
    removed.Consistent ∧ (queue.NoEmptyBucket → removed.NoEmptyBucket) ∧
    removed.session_to_expiration_time =
      update queue.session_to_expiration_time session_id none := by
  rw [remove]
  cases htime : queue.session_to_expiration_time session_id with
  | none => exact ⟨queue, false, rfl, h, id, by rw [← htime, Function.update_eq_self]⟩
  | some time =>
    obtain ⟨removed, hremoved, htimes, hne, hbuckets⟩ := eraseFromBucket_spec ((h _ _).2 htime)
    refine ⟨removed.setTime session_id none, true, by simp only [hremoved, Option.map_some],
      fun t id => ?_, hne, by rw [setTime_time, htimes]⟩
    have hbucket : id ∈ (removed.setTime session_id none).bucket t ↔ _ := hbuckets t id
    rw [hbucket, h t id, setTime_time, htimes, update_apply]
    grind

omit h

/-- Both maps agree, no bucket is empty, and there are finitely many sessions. -/
structure Inv (queue : SessionExpiryQueue) : Prop where
  consistent : queue.Consistent
  no_empty : queue.NoEmptyBucket
  finite : {id | queue.session_to_expiration_time id ≠ none}.Finite

lemma Inv.of_update {time : Option ℤ} {queue' : SessionExpiryQueue} (h : queue.Inv)
    (hconsistent : queue'.Consistent) (hne : queue.NoEmptyBucket → queue'.NoEmptyBucket)
    (htimes : queue'.session_to_expiration_time =
      update queue.session_to_expiration_time session_id time) : queue'.Inv := by
  refine ⟨hconsistent, hne h.no_empty, (h.finite.insert session_id).subset fun id hid => ?_⟩
  rw [Set.mem_ofPred_eq, htimes, update_apply] at hid
  grind

/-- **One call** meets no missing bucket. -/
theorem Inv.call (h : queue.Inv) (c : Call) :
    ∃ queue', queue.call c = some queue' ∧ queue'.Inv := by
  cases c with
  | addNewSessionOrUpdate now session_id timeout_ms =>
    obtain ⟨added, time, hadd, hadded, hne, htimes⟩ :=
      addNewSessionOrUpdate_spec h.consistent session_id now timeout_ms
    exact ⟨added, hadd, h.of_update session_id hadded hne htimes⟩
  | remove session_id =>
    obtain ⟨removed, b, hremove, hremoved, hne, htimes⟩ := remove_spec h.consistent session_id
    exact ⟨removed, by rw [SessionExpiryQueue.call, hremove]; rfl,
      h.of_update session_id hremoved hne htimes⟩
  | clear => exact ⟨queue.clear, rfl, by simp [Consistent, bucket, clear], nofun, by simp [clear]⟩

lemma Inv.calls (h : queue.Inv) (cs : List Call) :
    ∃ queue', cs.foldlM SessionExpiryQueue.call queue = some queue' ∧ queue'.Inv := by
  induction cs generalizing queue with
  | nil => exact ⟨queue, rfl, h⟩
  | cons c cs ih =>
    obtain ⟨queue', hcall, hqueue'⟩ := h.call c
    rw [foldlM_cons, hcall]
    exact ih hqueue'

lemma Inv.exists_traverses (h : queue.Inv) : ∃ buckets, queue.Traverses buckets := by
  have htimes : {t | queue.expiry_to_sessions t ≠ none}.Finite := by
    refine (h.finite.image fun id => (queue.session_to_expiration_time id).getD 0).subset ?_
    intro t ht
    obtain ⟨sessions, hsessions⟩ := Option.ne_none_iff_exists'.1 ht
    obtain ⟨id, hid⟩ := Finset.nonempty_iff_ne_empty.2 fun hempty =>
      h.no_empty t (hempty ▸ hsessions)
    have htime := (h.consistent t id).1 (by rwa [bucket, hsessions])
    exact ⟨id, by simp [htime], by simp [htime]⟩
  refine ⟨htimes.toFinset.sort.map fun t => (t, (queue.bucket t).toList), ?_, fun t => ?_, ?_⟩
  · exact pairwise_map.2 (Finset.sortedLT_sort _).pairwise
  · simp
  · simp [Finset.nodup_toList]

lemma getExpiredSessions_eq (now : ℤ) (buckets : List (ℤ × List ℤ)) :
    getExpiredSessions now buckets = (buckets.takeWhile (·.1 ≤ now)).flatMap Prod.snd := by
  induction buckets with
  | nil => rfl
  | cons b buckets ih =>
    by_cases hle : b.1 ≤ now <;> simp [getExpiredSessions, hle, ih]

/-- **The expiry queue** after any calls. -/
theorem calls_spec (expiration_interval : ℤ) (cs : List Call) :
    ∃ queue, cs.foldlM SessionExpiryQueue.call (new expiration_interval) = some queue ∧
      queue.Consistent ∧ queue.NoEmptyBucket ∧
      (∀ id time, queue.session_to_expiration_time id = some time → ∃! t, id ∈ queue.bucket t) ∧
      (∃ buckets, queue.Traverses buckets) ∧
      ∀ buckets now, queue.Traverses buckets → (getExpiredSessions now buckets).Nodup ∧
        ∀ id, id ∈ getExpiredSessions now buckets ↔
          ∃ time ≤ now, queue.session_to_expiration_time id = some time := by
  have hnew : (new expiration_interval).Inv :=
    ⟨by simp [Consistent, bucket, new], nofun, by simp [new]⟩
  obtain ⟨queue, hcalls, h⟩ := hnew.calls cs
  refine ⟨queue, hcalls, h.consistent, h.no_empty, fun id time htime => ?_, h.exists_traverses,
    fun buckets now ht => ?_⟩
  · simp [h.consistent _ id, htime]
  -- a session is in the bucket of its time and in no other
  have hmem : ∀ b ∈ buckets, ∀ id, id ∈ b.2 ↔ queue.session_to_expiration_time id = some b.1 := by
    intro b hb id
    rw [← h.consistent, ← (ht.sessions b hb).2, mem_toFinset]
  rw [getExpiredSessions_eq, Lib.takeWhile_eq_filter
    (ht.sorted.imp fun hlt => by simpa using hlt.le.trans)]
  constructor
  · refine nodup_flatMap.2 ⟨fun b hb => (ht.sessions b (mem_of_mem_filter hb)).1, ?_⟩
    refine (ht.sorted.imp_of_mem fun {b b'} hb hb' hlt id hid hid' => hlt.ne ?_).filter _
    exact Option.some.inj (((hmem b hb id).1 hid).symm.trans ((hmem b' hb' id).1 hid'))
  · intro id
    simp only [mem_flatMap, mem_filter, decide_eq_true_eq]
    constructor
    · rintro ⟨b, ⟨hb, hle⟩, hid⟩
      exact ⟨b.1, hle, (hmem b hb id).1 hid⟩
    · rintro ⟨time, hle, htime⟩
      -- the bucket of a session with a time is there, so the traversal comes to it
      have hbucket : queue.expiry_to_sessions time ≠ none := fun hnone => by
        simpa [bucket, hnone] using (h.consistent time id).2 htime
      obtain ⟨b, hb, rfl⟩ := mem_map.1 ((ht.key_iff time).2 hbucket)
      exact ⟨b, ⟨hb, hle⟩, (hmem b hb id).2 htime⟩

end SessionExpiryQueue

/-! ## The sessions -/

namespace KeeperSessions

variable {s : KeeperSessions} {id : ℤ}

variable (h : s.session_expiry_queue.Consistent)

section

include h

lemma registered_iff : s.Registered id ↔
    s.session_and_timeout id ≠ none ∨
      s.session_expiry_queue.session_to_expiration_time id ≠ none := by
  refine or_congr_right (or_iff_left_of_imp ?_)
  rintro ⟨time, hmem⟩
  rw [(h time id).1 hmem]
  exact Option.some_ne_none time

lemma addSessionID_spec (now session_id session_timeout_ms : ℤ) :
    ∃ s', s.addSessionID now session_id session_timeout_ms = some s' ∧
      s'.session_expiry_queue.Consistent ∧
      ∀ id, s'.Registered id ↔ session_id = id ∨ s.Registered id := by
  obtain ⟨queue, time, hadd, hqueue, -, htimes⟩ :=
    SessionExpiryQueue.addNewSessionOrUpdate_spec h session_id now session_timeout_ms
  refine ⟨_, by rw [addSessionID, hadd]; rfl, hqueue, fun id => ?_⟩
  rw [registered_iff hqueue, registered_iff h, htimes]
  grind

/-- **One step**: it does not fail, and a session is there if it was or if the step registers
it, unless the step closes it. -/
theorem step_spec (step : SessionStep) :
    ∃ s', step.apply s = some s' ∧ s'.session_expiry_queue.Consistent ∧
      ∀ id, s'.Registered id ↔ step.Registers s id ∨ s.Registered id ∧ ¬ step.Closes id := by
  cases step with
  | getSessionID now timeout =>
    obtain ⟨s', hadd, hqueue, hregistered⟩ := addSessionID_spec
      (s := { s with session_id_counter := s.session_id_counter + 1 }) h now s.session_id_counter
        timeout
    refine ⟨s', hadd, hqueue, fun id => (hregistered id).trans ?_⟩
    simp [SessionStep.Registers, SessionStep.Closes, Registered]
  | addSessionID now session_id timeout =>
    obtain ⟨s', hadd, hqueue, hregistered⟩ := addSessionID_spec h now session_id timeout
    refine ⟨s', hadd, hqueue, fun id => (hregistered id).trans ?_⟩
    simp [SessionStep.Registers, SessionStep.Closes]
  | processRequest now session_id op =>
    -- every request begins with an update of the queue, also one of a closed session
    obtain ⟨queue, time, hadd, hqueue, -, htimes⟩ :=
      SessionExpiryQueue.addNewSessionOrUpdate_spec h session_id now
      ((s.session_and_timeout session_id).getD 0)
    rw [SessionStep.apply, processRequest]
    simp only [hadd, Option.bind_some]
    by_cases hop : op = .Close
    · -- a Close takes the session out of both maps at its end
      obtain ⟨removed, b, hremove, hremoved, -, htimes'⟩ :=
        SessionExpiryQueue.remove_spec hqueue session_id
      rw [if_pos hop, hremove]
      refine ⟨_, rfl, hremoved, fun id => ?_⟩
      rw [registered_iff hremoved, registered_iff h, htimes', htimes]
      simp only [update_apply, SessionStep.Registers, SessionStep.Closes]
      grind
    · rw [if_neg hop]
      refine ⟨_, rfl, hqueue, fun id => ?_⟩
      rw [registered_iff hqueue, registered_iff h, htimes]
      simp only [update_apply, SessionStep.Registers, SessionStep.Closes]
      grind

end

lemma run_cons {s' : KeeperSessions} {step : SessionStep} (h : step.apply s = some s')
    (steps : List SessionStep) : s.run (step :: steps) = s'.run steps := by
  rw [run, foldlM_cons, h]
  rfl

include h in
lemma run_consistent (steps : List SessionStep) :
    ∃ s', s.run steps = some s' ∧ s'.session_expiry_queue.Consistent := by
  induction steps generalizing s with
  | nil => exact ⟨s, rfl, h⟩
  | cons step steps ih =>
    obtain ⟨s', hstep, hqueue, -⟩ := step_spec h step
    rw [run_cons hstep]
    exact ih hqueue

include h in
/-- A session that is not there stays away exactly if no step registers it. -/
lemma not_registered_iff (hid : ¬ s.Registered id) (steps : List SessionStep) :
    (∀ n, ∃ s', s.run (steps.take n) = some s' ∧ ¬ s'.Registered id) ↔
      ∀ n s' step, s.run (steps.take n) = some s' → steps[n]? = some step →
        ¬ step.Registers s' id := by
  induction steps generalizing s with
  | nil => exact iff_of_true (fun n => ⟨s, by rw [take_nil]; rfl, hid⟩) (by simp)
  | cons step steps ih =>
    obtain ⟨s', hstep, hqueue, hregistered⟩ := step_spec h step
    constructor
    · intro hstays
      -- the state after one step decides about that step
      have hfirst : ¬ step.Registers s id := by
        obtain ⟨s₁, hrun, hs₁⟩ := hstays 1
        obtain rfl : s' = s₁ := by simpa [run, hstep] using hrun
        exact fun hregisters => hs₁ ((hregistered id).2 (.inl hregisters))
      have hrest := (ih hqueue (by simp [hregistered, hfirst, hid])).1 fun n => by
        simpa [run_cons hstep] using hstays (n + 1)
      rintro (_ | n) s₂ step' hrun hget
      · obtain rfl : s = s₂ := by simpa [run] using hrun
        obtain rfl : step = step' := by simpa using hget
        exact hfirst
      · rw [take_succ_cons, run_cons hstep] at hrun
        exact hrest n s₂ step' hrun (by simpa using hget)
    · intro hnone
      have hfirst : ¬ step.Registers s id := hnone 0 s step rfl rfl
      have hrest := (ih hqueue (by simp [hregistered, hfirst, hid])).2 fun n s₂ step' hrun hget =>
        hnone (n + 1) s₂ step' (by rwa [take_succ_cons, run_cons hstep]) (by simpa using hget)
      rintro (_ | n)
      · exact ⟨s, rfl, hid⟩
      · simpa [run_cons hstep] using hrest n

/-- **A closed session stays closed** exactly if no later step registers it: hands out or
restores its id, or processes a request of it that is not a Close. No step of any run
accesses a bucket that is not there. -/
theorem closed_stays_closed_iff (tick_time_ms now id : ℤ) (before after : List SessionStep) :
    (∀ steps, ∃ s, (new tick_time_ms).run steps = some s) ∧
    ((∀ n, ∃ s, (new tick_time_ms).run
        (before ++ .processRequest now id .Close :: after.take n) = some s ∧ ¬ s.Registered id) ↔
      ∀ n s step, (new tick_time_ms).run
        (before ++ .processRequest now id .Close :: after.take n) = some s →
          after[n]? = some step → ¬ step.Registers s id) := by
  have hnew : (new tick_time_ms).session_expiry_queue.Consistent := by
    simp [SessionExpiryQueue.Consistent, SessionExpiryQueue.bucket, new]
  refine ⟨fun steps => (run_consistent hnew steps).imp fun _ => And.left, ?_⟩
  obtain ⟨s₀, hbefore, hqueue₀⟩ := run_consistent hnew before
  obtain ⟨s₁, hclose, hqueue₁, hregistered⟩ := step_spec hqueue₀ (.processRequest now id .Close)
  -- after the Close every run goes on from `s₁`
  have hrun (steps : List SessionStep) : (new tick_time_ms).run
      (before ++ .processRequest now id .Close :: steps) = s₁.run steps := by
    rw [run, foldlM_append, ← run, hbefore, ← run_cons hclose]
    rfl
  simp only [hrun]
  refine not_registered_iff hqueue₁ ?_ after
  simp [hregistered, SessionStep.Registers, SessionStep.Closes]

/-- A heartbeat that is processed after the Close brings the session back, with timeout 0. -/
theorem heartbeat_reopens_session : ∃ s, (new 500).run [.getSessionID 0 30000,
    .processRequest 0 1 .Close, .processRequest 0 1 .Heartbeat] = some s ∧
      s.session_and_timeout 1 = some 0 ∧ 1 ∈ s.session_expiry_queue.bucket 500 :=
  ⟨_, rfl, rfl, by decide⟩

end KeeperSessions

end ClickHouse.Keeper
