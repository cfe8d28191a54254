/-
The log by which a table without replicas recognises a repeated insert
(`src/Storages/MergeTree/MergeTreeDeduplicationLog.{h,cpp}`).

Block ids are kept in a map in memory and as records in files, which are replayed on start. The
map is bounded by its entries and the files by their records, and an entry that was dropped
leaves two records: a file can be removed while an entry it added is still in the map. What a
replay gives is always the end of the queue (`Covers`), for the newest files however many of
them are taken. So removing files needs no argument of its own, and a restart is exact if the
record of each entry is still on disk.

Which records those are does not take the files to say. A file is closed at twice the window, and
when the next one is begun the one before it alone is more than the window: the current file and
the last full one are on disk, whatever the records are (`Files`). So the condition is one on the
calls and the window, through the queue and the records that they make (`Trace`).

A line of a file is kept as the record it was written from, so that its text, with the tabs and
line ends that a block id could have as well, is not part of the model. The files are kept newest
first.
-/
import ClickHouse.MergeTree.PartInfo

set_option autoImplicit false

namespace ClickHouse.MergeTreeDeduplicationLog

open List MergeTreePartInfo

/-- `MergeTreeDeduplicationOp`. -/
inductive Op where
  | ADD
  | DROP

/-- `MergeTreeDeduplicationLogRecord`. -/
structure Record where
  operation : Op
  part_name : Bytes
  block_id : Bytes

/-- `LimitedOrderedHashMap`: the queue, its front first. The hash table over it finds the node
of a key. -/
structure LimitedOrderedHashMap (V : Type) where
  max_size : ℕ
  queue : List (Bytes × V) := []

namespace LimitedOrderedHashMap

variable {V : Type} (m : LimitedOrderedHashMap V) (key : Bytes)

/-- `contains` and `get`. -/
def get : Option V := m.queue.lookup key

/-- `erase`. -/
def erase : LimitedOrderedHashMap V := { m with queue := m.queue.filter (·.1 != key) }

/-- `insert`: a full map loses the front of its queue. -/
def insert (value : V) : LimitedOrderedHashMap V :=
  if (m.get key).isSome then m
  else
    let queue := if m.queue.length = m.max_size then m.queue.tail else m.queue
    { m with queue := queue ++ [(key, value)] }

end LimitedOrderedHashMap

/-- The deduplication window, the oldest block first. -/
abbrev Queue : Type := List (Bytes × MergeTreePartInfo)

abbrev DeduplicationMap : Type := LimitedOrderedHashMap MergeTreePartInfo

/-- A file and the count that `MergeTreeDeduplicationLogNameDescription` has for it. -/
structure LogFile where
  entries_count : ℕ := 0
  records : List Record := []

/-- The members of a log that has been loaded. The newest file is the current one. -/
structure Log where
  deduplication_window : ℕ
  format_version : ℕ
  existing_logs : List LogFile
  deduplication_map : DeduplicationMap
  stopped : Bool := false

/-- `writeRecord` to the current file, whose entries are counted. -/
def writeRecord (r : Record) (logs : List LogFile) : List LogFile :=
  logs.modifyHead fun log => ⟨log.entries_count + 1, log.records ++ [r]⟩

/-- The loops of `dropOutdatedLogs`: from the newest file on, the first one that more than
`deduplication_window` records follow is removed, with all older ones. -/
def dropOutdatedLogs (deduplication_window : ℕ) : ℕ → List LogFile → List LogFile
  | _, [] => []
  | current_sum, log :: older =>
    if deduplication_window < current_sum then []
    else log :: dropOutdatedLogs deduplication_window (current_sum + log.entries_count) older

/-- `rotateAndDropIfNeeded`: `rotate_interval` is twice the window, and `rotate` begins an empty
file. -/
def rotateAndDropIfNeeded (deduplication_window : ℕ) (logs : List LogFile) : List LogFile :=
  if ∀ log ∈ logs.head?, deduplication_window * 2 % 2 ^ 64 ≤ log.entries_count then
    dropOutdatedLogs deduplication_window 0 ({} :: logs)
  else logs

variable (s : Log)

/-- The end of `addPart` and of a step of `dropPart`: the record is written, and the map is the
new one. -/
def recorded (r : Record) (deduplication_map : DeduplicationMap) : Log :=
  { s with
    existing_logs := rotateAndDropIfNeeded s.deduplication_window (writeRecord r s.existing_logs)
    deduplication_map := deduplication_map }

/-- `addPart`. -/
def addPart (block_id : Bytes) (part_info : MergeTreePartInfo) :
    Except Exception ((MergeTreePartInfo × Bool) × Log) :=
  if s.deduplication_window = 0 then .ok ((part_info, true), s)
  else match s.deduplication_map.get block_id with
  | some info => .ok ((info, false), s)
  | none =>
    if s.stopped then .error ⟨.ABORTED, str "Storage has been shutdown when we add this part."⟩
    else do
      let part_name ← part_info.getPartNameAndCheckFormat s.format_version
      pure ((part_info, true),
        recorded s ⟨.ADD, part_name, block_id⟩ (s.deduplication_map.insert block_id part_info))

/-- The loop of `dropPart`. It erases only the node it stands at, so it visits the nodes the
queue had at first. -/
def dropLoop (drop_part_info : MergeTreePartInfo) : Queue → Log → Except Exception Log
  | [], s => .ok s
  | (key, part_info) :: nodes, s =>
    if drop_part_info.contains part_info then do
      let part_name ← part_info.getPartNameAndCheckFormat s.format_version
      dropLoop drop_part_info nodes
        (recorded s ⟨.DROP, part_name, key⟩ (s.deduplication_map.erase key))
    else dropLoop drop_part_info nodes s

/-- `dropPart`. -/
def dropPart (drop_part_info : MergeTreePartInfo) : Except Exception Log :=
  if s.deduplication_window = 0 then .ok s
  else if s.stopped then
    .error ⟨.ABORTED, str "Storage has been shutdown when we drop this part."⟩
  else dropLoop drop_part_info s.deduplication_map.queue s

/-- The body of the loop of `loadSingleLog`. -/
def loadRecord (format_version : ℕ) (m : DeduplicationMap) (r : Record) :
    Except Exception DeduplicationMap :=
  match r.operation with
  | .DROP => .ok (m.erase r.block_id)
  | .ADD => (fromPartName r.part_name format_version).map (m.insert r.block_id)

/-- `loadSingleLog`, and what an exception leaves: the map so far, and no count. -/
def loadSingleLog (format_version : ℕ) : DeduplicationMap → List Record → ℕ → DeduplicationMap × ℕ
  | m, [], total_entries => (m, total_entries)
  | m, r :: records, total_entries =>
    match loadRecord format_version m r with
    | .ok m => loadSingleLog format_version m records (total_entries + 1)
    | .error _ => (m, 0)

/-- The loop of `load`, which begins with the oldest file. -/
def loadLogs (format_version : ℕ) (m : DeduplicationMap) :
    List LogFile → DeduplicationMap × List LogFile
  | [] => (m, [])
  | log :: older =>
    let loaded := loadLogs format_version m older
    let single := loadSingleLog format_version loaded.1 log.records 0
    (single.1, ⟨single.2, log.records⟩ :: loaded.2)

/-- The constructor and `load`, with a window that is not zero, over the files of a directory. -/
def load (deduplication_window format_version : ℕ) (logs : List LogFile) : Log :=
  let loaded := loadLogs format_version ⟨deduplication_window, []⟩ logs
  { deduplication_window := deduplication_window
    format_version := format_version
    existing_logs := rotateAndDropIfNeeded deduplication_window loaded.2
    deduplication_map := loaded.1 }

/-- What happens to a log. -/
inductive Call where
  | addPart (block_id : Bytes) (part_info : MergeTreePartInfo)
  | dropPart (drop_part_info : MergeTreePartInfo)

/-- The log after a call. -/
def call : Call → Except Exception Log
  | .addPart block_id part_info => (addPart s block_id part_info).map Prod.snd
  | .dropPart drop_part_info => dropPart s drop_part_info

/-- The answers to a sequence of calls of `addPart`. -/
def addParts : Log → Queue → Except Exception (List (MergeTreePartInfo × Bool))
  | _, [] => .ok []
  | s, (block_id, part_info) :: parts => do
    let (answer, s) ← addPart s block_id part_info
    (addParts s parts).map (answer :: ·)

/-! ## What a replay gives -/

/-- The records of the files, oldest first. -/
def history (logs : List LogFile) : List Record := logs.reverse.flatMap (·.records)

/-- One of the records adds the block. -/
def Added (records : List Record) (block_id : Bytes) : Prop :=
  ∃ r ∈ records, r.operation = .ADD ∧ r.block_id = block_id

/-- The records replayed give the end of the queue, and that is what they add of it. -/
def Covers (W : ℕ) (queue : Queue) (records : List Record) : Prop :=
  ∃ lost kept, queue = lost ++ kept ∧ records.foldlM (loadRecord 1) ⟨W, []⟩ = .ok ⟨W, kept⟩ ∧
    (∀ e ∈ lost, ¬Added records e.1) ∧ ∀ e ∈ kept, Added records e.1

variable {W : ℕ} {queue queue' : Queue} {logs : List LogFile} {records : List Record} {r : Record}
  {name key : Bytes} {info : MergeTreePartInfo} {m m' : DeduplicationMap}

lemma covers_nil : Covers W queue [] :=
  ⟨queue, [], (append_nil _).symm, rfl, by simp [Added], by simp⟩

lemma added_append {block_id : Bytes} : Added (records ++ [r]) block_id ↔
    Added records block_id ∨ r.operation = .ADD ∧ r.block_id = block_id := by
  simp [Added, or_and_right, exists_or]

lemma foldlM_append_singleton (h : records.foldlM (loadRecord 1) ⟨W, []⟩ = .ok m) :
    (records ++ [r]).foldlM (loadRecord 1) ⟨W, []⟩ = loadRecord 1 m r := by
  rw [foldlM_append, h]
  exact bind_pure (loadRecord 1 m r)

/-- The queue after a new entry. -/
def push (W : ℕ) (queue : Queue) (e : Bytes × MergeTreePartInfo) : Queue :=
  (if queue.length = W then queue.tail else queue) ++ [e]

lemma lookup_eq_none : queue.lookup key = none ↔ ∀ e ∈ queue, key ≠ e.1 := by
  simp [lookup_eq_none_iff]

lemma insert_of_new (h : ∀ e ∈ queue, key ≠ e.1) :
    LimitedOrderedHashMap.insert ⟨W, queue⟩ key info = ⟨W, push W queue (key, info)⟩ := by
  rw [LimitedOrderedHashMap.insert, LimitedOrderedHashMap.get, lookup_eq_none.2 h]
  rfl

/-- A new entry: the map loses the front of its queue only if the replayed one does as well, or
does not have it. -/
lemma Covers.insert (h : Covers W queue records) (hlen : queue.length ≤ W)
    (hnew : ∀ e ∈ queue, r.block_id ≠ e.1) (hadd : r.operation = .ADD)
    (hread : fromPartName r.part_name 1 = .ok info) :
    Covers W (push W queue (r.block_id, info)) (records ++ [r]) := by
  obtain ⟨lost, kept, rfl, hfold, hlost, hkept⟩ := h
  rw [forall_mem_append] at hnew
  -- the replayed map does not have the block id either, so it takes the record
  have hload : loadRecord 1 ⟨W, kept⟩ r = .ok ⟨W, push W kept (r.block_id, info)⟩ := by
    rw [← insert_of_new hnew.2, loadRecord, hadd, hread]
    rfl
  have hfold' := (foldlM_append_singleton hfold).trans hload
  have hlost' : ∀ e ∈ lost, ¬Added (records ++ [r]) e.1 := fun e he hadded =>
    (added_append.1 hadded).elim (hlost e he) fun h => hnew.1 e he h.2
  have hkept' : ∀ e ∈ push W kept (r.block_id, info), Added (records ++ [r]) e.1 := by
    intro e he
    rw [added_append]
    rcases mem_append.1 he with he | he
    · split_ifs at he
      · exact .inl (hkept e (mem_of_mem_tail he))
      · exact .inl (hkept e he)
    · exact .inr ⟨hadd, (congrArg Prod.fst (mem_singleton.1 he)).symm⟩
  cases lost with
  | nil => exact ⟨[], _, rfl, hfold', hlost', hkept'⟩
  | cons front lost =>
    -- the replayed map is shorter than the other one, and therefore not full
    rw [length_append, length_cons] at hlen
    rw [push, if_neg (by omega : kept.length ≠ W)] at hfold' hkept'
    rw [push]
    split_ifs
    · exact ⟨lost, _, append_assoc .., hfold', fun e he => hlost' e (mem_cons_of_mem _ he), hkept'⟩
    · exact ⟨front :: lost, _, append_assoc .., hfold', hlost', hkept'⟩

lemma Covers.erase (h : Covers W queue records) :
    Covers W (queue.filter (·.1 != key)) (records ++ [⟨.DROP, name, key⟩]) := by
  obtain ⟨lost, kept, rfl, hfold, hlost, hkept⟩ := h
  have hadded : ∀ k, Added (records ++ [⟨.DROP, name, key⟩]) k ↔ Added records k := by
    simp [added_append]
  refine ⟨_, _, filter_append .., foldlM_append_singleton hfold, fun e he => ?_, fun e he => ?_⟩
  · rw [hadded]
    exact hlost e (mem_of_mem_filter he)
  · rw [hadded]
    exact hkept e (mem_of_mem_filter he)

/-! ## The files -/

lemma history_cons (log : LogFile) : history (log :: logs) = history logs ++ log.records := by
  simp [history]

/-- However many of the newest files are taken, they cover the queue. -/
def CoversAll (W : ℕ) (queue : Queue) (logs : List LogFile) : Prop :=
  ∀ n, Covers W queue (history (logs.take n))

lemma dropOutdatedLogs_eq_take (logs : List LogFile) (sum : ℕ) :
    ∃ n, dropOutdatedLogs W sum logs = logs.take n := by
  induction logs generalizing sum with
  | nil => exact ⟨0, rfl⟩
  | cons log older ih =>
    rw [dropOutdatedLogs]
    split_ifs
    · exact ⟨0, rfl⟩
    · obtain ⟨n, hn⟩ := ih (sum + log.entries_count)
      exact ⟨n + 1, by rw [hn, take_succ_cons]⟩

lemma CoversAll.rotateAndDropIfNeeded (h : CoversAll W queue logs) :
    CoversAll W queue (rotateAndDropIfNeeded W logs) := by
  rw [MergeTreeDeduplicationLog.rotateAndDropIfNeeded]
  split_ifs
  · intro n
    obtain ⟨k, hk⟩ := dropOutdatedLogs_eq_take (W := W) ({} :: logs) 0
    rw [hk, take_take]
    cases min n k with
    | zero => exact covers_nil
    | succ n =>
      rw [take_succ_cons, history_cons, append_nil]
      exact h n
  · exact h

/-- A record is written, and it covers what becomes of the queue. -/
lemma CoversAll.record (h : CoversAll W queue logs)
    (hr : ∀ {records}, Covers W queue records → Covers W queue' (records ++ [r])) :
    CoversAll W queue'
      (MergeTreeDeduplicationLog.rotateAndDropIfNeeded W (writeRecord r logs)) := by
  refine rotateAndDropIfNeeded fun n => ?_
  rw [writeRecord]
  cases n with
  | zero => exact covers_nil
  | succ n =>
    cases logs with
    | nil => exact covers_nil
    | cons log older =>
      have hcovers := hr (h (n + 1))
      rw [take_succ_cons, history_cons, append_assoc] at hcovers
      rwa [modifyHead_cons, take_succ_cons, history_cons]

/-! ## A restart -/

/-- A log in use. -/
abbrev running (W : ℕ) (logs : List LogFile) (queue : Queue) : Log :=
  ⟨W, 1, logs, ⟨W, queue⟩, false⟩

lemma loadSingleLog_fst (h : records.foldlM (loadRecord 1) m = .ok m') (total : ℕ) :
    (loadSingleLog 1 m records total).1 = m' := by
  induction records generalizing m total with
  | nil => exact Except.ok.inj h
  | cons r records ih =>
    obtain ⟨next, hload, h⟩ := bind_eq_ok.1 h
    rw [loadSingleLog, hload]
    exact ih h _

lemma loadLogs_fst (h : (history logs).foldlM (loadRecord 1) m = .ok m') :
    (loadLogs 1 m logs).1 = m' := by
  induction logs generalizing m' with
  | nil => exact Except.ok.inj h
  | cons log older ih =>
    rw [history_cons, foldlM_append] at h
    obtain ⟨loaded, holder, h⟩ := bind_eq_ok.1 h
    rw [loadLogs]
    rw [ih holder]
    exact loadSingleLog_fst h 0

/-- **What a restart keeps of the queue is what the records on disk add.** -/
theorem CoversAll.load (h : CoversAll W queue logs) : ∃ lost kept logs', queue = lost ++ kept ∧
    load W 1 logs = running W logs' kept ∧
      (∀ e ∈ lost, ¬Added (history logs) e.1) ∧ ∀ e ∈ kept, Added (history logs) e.1 := by
  obtain ⟨lost, kept, rfl, hfold, hlost, hkept⟩ := h logs.length
  rw [take_length] at hfold hlost hkept
  exact ⟨lost, kept, _, rfl, by rw [load, loadLogs_fst hfold], hlost, hkept⟩

/-! ## What is on disk -/

/-- The files after these records: full ones of twice the window, of which the last is kept, and
the current one with what is left. -/
def Files (W : ℕ) (records : List Record) (logs : List LogFile) : Prop :=
  logs = ⟨records.length % (2 * W), records.drop (2 * W * (records.length / (2 * W)))⟩ ::
    if records.length / (2 * W) = 0 then []
    else [⟨2 * W, (records.drop (2 * W * (records.length / (2 * W) - 1))).take (2 * W)⟩]

/-- The records of the last full file and of the current one. -/
def onDisk (W : ℕ) (records : List Record) : List Record :=
  records.drop (2 * W * (records.length / (2 * W) - 1))

lemma Files.history (h : Files W records logs) : history logs = onDisk W records := by
  rw [h, onDisk, history_cons]
  split_ifs with hone
  · rw [hone]
    rfl
  · -- the current file begins where the full one ends
    obtain ⟨k, hk⟩ := Nat.exists_eq_succ_of_ne_zero hone
    rw [hk, history_cons, Nat.succ_sub_one, Nat.mul_succ, ← drop_drop]
    exact take_append_drop (2 * W) _

/-- Writing a record, and the rotation that may follow it, keep the files in order. -/
lemma Files.record (h : Files W records logs) (hW : W ≠ 0) (hlt : W < 2 ^ 63) (r : Record) :
    Files W (records ++ [r]) (rotateAndDropIfNeeded W (writeRecord r logs)) := by
  have hpos : 0 < 2 * W := by omega
  have hmod := Nat.mod_lt records.length hpos
  have hdiv := Nat.div_add_mod records.length (2 * W)
  have hle : 2 * W * (records.length / (2 * W)) ≤ records.length := by omega
  -- the interval is computed modulo 2 ^ 64
  have hinterval : W * 2 % 2 ^ 64 = 2 * W := by
    rw [Nat.mod_eq_of_lt (by omega), Nat.mul_comm]
  generalize hk : records.length / (2 * W) = k at *
  rw [Files, hk] at h
  rw [h, writeRecord, modifyHead_cons, rotateAndDropIfNeeded, hinterval, Files, length_append,
    length_singleton]
  by_cases hfull : records.length % (2 * W) + 1 = 2 * W
  · -- the file is full: a new one is begun, and what is older than this one is removed
    have hnext : (records.length + 1) / (2 * W) = k + 1 ∧ (records.length + 1) % (2 * W) = 0 := by
      have hsum : records.length + 1 = 2 * W * (k + 1) := by rw [Nat.mul_succ]; omega
      rw [hsum]
      exact ⟨Nat.mul_div_cancel_left _ hpos, Nat.mul_mod_right ..⟩
    have hsize : 2 * W * (k + 1) = (records ++ [r]).length := by
      rw [Nat.mul_succ, length_append, length_singleton]
      omega
    have hwhole : (records.drop (2 * W * k) ++ [r]).take (2 * W) =
        records.drop (2 * W * k) ++ [r] :=
      take_of_length_le (by rw [length_append, length_drop, length_singleton]; omega)
    rw [if_pos (by simp [hfull]), hnext.1, hnext.2, if_neg (Nat.succ_ne_zero k), Nat.succ_sub_one,
      hsize, drop_length, drop_append_of_le_length hle, hwhole, dropOutdatedLogs,
      if_neg (by omega), dropOutdatedLogs, if_neg (by simp)]
    split_ifs
    · rw [dropOutdatedLogs, hfull]
    · rw [dropOutdatedLogs, if_pos (by simp only; omega), hfull]
  · -- the file is not full: it gets the record
    have hnext : (records.length + 1) / (2 * W) = k ∧
        (records.length + 1) % (2 * W) = records.length % (2 * W) + 1 := by
      have hsum : records.length + 1 = (records.length % (2 * W) + 1) + 2 * W * k := by omega
      rw [hsum, Nat.add_mul_div_left _ _ hpos, Nat.add_mul_mod_self_left,
        Nat.div_eq_of_lt (by omega), Nat.zero_add]
      exact ⟨rfl, Nat.mod_eq_of_lt (by omega)⟩
    rw [if_neg (by simp; omega), hnext.1, hnext.2, drop_append_of_le_length hle]
    congr 1
    split_ifs with hzero
    · rfl
    · -- the file before it is full, so the record does not come into that one
      have hprev : 2 * W * (k - 1) + 2 * W ≤ records.length := by
        obtain ⟨j, rfl⟩ := Nat.exists_eq_succ_of_ne_zero hzero
        rwa [Nat.succ_sub_one, ← Nat.mul_succ]
      rw [drop_append_of_le_length (by omega), take_append_of_le_length]
      rw [length_drop]
      omega

/-! ## Runs -/

/-- What calls make of the queue, and all the records they write. -/
structure Trace where
  queue : Queue := []
  records : List Record := []

namespace Trace

/-- A block that is in the window is not added again. -/
def add (W : ℕ) (t : Trace) (block_id : Bytes) (part_info : MergeTreePartInfo) : Trace :=
  match t.queue.lookup block_id with
  | some _ => t
  | none => ⟨push W t.queue (block_id, part_info),
      t.records ++ [⟨.ADD, part_info.getPartNameV1, block_id⟩]⟩

/-- The entries of the parts that are dropped, one after another. -/
def drop (drop_part_info : MergeTreePartInfo) : Queue → Trace → Trace
  | [], t => t
  | (key, part_info) :: nodes, t =>
    drop drop_part_info nodes
      (if drop_part_info.contains part_info then
        ⟨t.queue.filter (·.1 != key), t.records ++ [⟨.DROP, part_info.getPartNameV1, key⟩]⟩
      else t)

def call (W : ℕ) (t : Trace) : Call → Trace
  | .addPart block_id part_info => t.add W block_id part_info
  | .dropPart drop_part_info => t.drop drop_part_info t.queue

end Trace

/-- The trace of calls to an empty log. -/
def trace (W : ℕ) (calls : List Call) : Trace := calls.foldl (Trace.call W) {}

/-- A log in use whose files cover its queue, after the calls of a trace. -/
def Inv (W : ℕ) (s : Log) (t : Trace) : Prop :=
  ∃ logs, s = running W logs t.queue ∧ t.queue.length ≤ W ∧ CoversAll W t.queue logs ∧
    Files W t.records logs

section

variable (hW : W ≠ 0)
include hW

/-- `addPart` looks the block up, and adds it if it is new. -/
lemma addPart_running : addPart (running W logs queue) key info = .ok
    (match queue.lookup key with
    | some previous => ((previous, false), running W logs queue)
    | none => ((info, true), running W
        (rotateAndDropIfNeeded W (writeRecord ⟨.ADD, info.getPartNameV1, key⟩ logs))
        (push W queue (key, info)))) := by
  rw [addPart, if_neg hW, LimitedOrderedHashMap.get]
  cases h : queue.lookup key with
  | some previous => rfl
  | none =>
    rw [insert_of_new (lookup_eq_none.1 h)]
    rfl

variable (hlt : W < 2 ^ 63) {t : Trace}
include hlt

lemma Inv.dropLoop (h : Inv W s t) (drop_part_info : MergeTreePartInfo) (nodes : Queue) :
    ∃ s', dropLoop drop_part_info nodes s = .ok s' ∧ Inv W s' (t.drop drop_part_info nodes) := by
  induction nodes generalizing s t with
  | nil => exact ⟨s, rfl, h⟩
  | cons node nodes ih =>
    rw [MergeTreeDeduplicationLog.dropLoop, Trace.drop]
    split_ifs
    · obtain ⟨logs, rfl, hlen, hcovers, hfiles⟩ := h
      exact ih _ ⟨_, rfl, (length_filter_le ..).trans hlen, hcovers.record Covers.erase,
        hfiles.record hW hlt _⟩
    · exact ih s h

/-- The part of the call is read back from the name that is written for it. -/
def Call.Readable : Call → Prop
  | .addPart _ part_info => fromPartName part_info.getPartNameV1 1 = .ok part_info
  | _ => True

/-- **A call returns**, and the files cover the map after it. -/
theorem Inv.call (h : Inv W s t) {c : Call} (hread : c.Readable) :
    ∃ s', call s c = .ok s' ∧ Inv W s' (t.call W c) := by
  cases c with
  | addPart key info =>
    obtain ⟨logs, rfl, hlen, hcovers, hfiles⟩ := h
    rw [MergeTreeDeduplicationLog.call, addPart_running hW, Trace.call, Trace.add]
    cases hlookup : t.queue.lookup key with
    | some previous => exact ⟨_, rfl, logs, rfl, hlen, hcovers, hfiles⟩
    | none =>
      -- the queue does not get longer than the window
      have hlen' : (push W t.queue (key, info)).length ≤ W := by
        rw [push, length_append, length_singleton]
        split_ifs
        · rw [length_tail]
          omega
        · omega
      exact ⟨_, rfl, _, rfl, hlen', hcovers.record fun h =>
        h.insert (r := ⟨.ADD, _, key⟩) hlen (lookup_eq_none.1 hlookup) rfl hread,
        hfiles.record hW hlt _⟩
  | dropPart drop_part_info =>
    obtain ⟨s', hdrop, h'⟩ := h.dropLoop s hW hlt drop_part_info t.queue
    obtain ⟨logs, rfl, -⟩ := h
    refine ⟨s', ?_, h'⟩
    rw [MergeTreeDeduplicationLog.call, dropPart, if_neg hW]
    exact hdrop

/-- **Calls return**, and the map and the files are those of their trace. -/
theorem Inv.run (h : Inv W s t) {calls : List Call} (hread : ∀ c ∈ calls, c.Readable) :
    ∃ s', calls.foldlM MergeTreeDeduplicationLog.call s = .ok s' ∧
      Inv W s' (calls.foldl (Trace.call W) t) := by
  induction calls generalizing s t with
  | nil => exact ⟨s, rfl, h⟩
  | cons c calls ih =>
    rw [forall_mem_cons] at hread
    obtain ⟨s', hcall, h'⟩ := h.call s hW hlt hread.1
    rw [foldlM_cons, hcall]
    exact ih s' h' hread.2

omit hlt

/-- The answers depend on the queue alone. -/
lemma addParts_running (logs' : List LogFile) (parts : Queue) :
    addParts (running W logs queue) parts = addParts (running W logs' queue) parts := by
  induction parts generalizing logs logs' queue with
  | nil => rfl
  | cons part parts ih =>
    rw [addParts, addParts, addPart_running hW, addPart_running hW]
    cases queue.lookup part.1 with
    | some previous => exact congrArg (Except.map _) (ih logs')
    | none => exact congrArg (Except.map _) (ih _)

end

/-- `all_n_n_0`, a part as an insert makes it. -/
def insertedPart (n : ℕ) : MergeTreePartInfo := ⟨['a', 'l', 'l'].map ch, n, n, 0, 0, false⟩

end ClickHouse.MergeTreeDeduplicationLog
