/-
Runs of `LimitTransform` between its sources and its readers.

The chunks that the transform has pulled, in the order in which it did, are one list
whatever port they came from, and the counters and the output are those of `processAll`
over that list: `Inv`, kept by every event. A port is finished or closed only if nothing is
left to read or the limit is reached, so that a run that has come to its end has seen all
that matters. That a run does come to its end is the other half: some event always brings
it nearer (`exists_smaller`).
-/
import ClickHouse.Processors.LimitRows

set_option autoImplicit false

namespace ClickHouse.Limit

open LimitTransform List Finset Function Limit.System InputPort
open Bool (and_eq_true false_ne_true not_eq_true' or_eq_true)
open Prod (snd)
open Option (getD_none isNone_iff_eq_none some)

section

variable {q n : ℕ} {V A : Type}

namespace System

variable (sys : System q V A n) (pos : Fin n)

/-- The chunks that have not been pulled yet. -/
def waiting : List (Chunk q V A) :=
  (sys.ports.ports_data pos).input.data.toList ++ sys.sources pos

/-- What went out through a port. -/
def emitted : List (Row q V A) :=
  sys.readers pos ++ (sys.ports.ports_data pos).output.data.getD []

abbrev data : PortsData q V A := sys.ports.ports_data pos

/-- The state after a call for one pair. -/
def withPair (counters : Counters q V) (data : PortsData q V A) : System q V A n :=
  { sys with ports := { sys.ports with
      counters := counters, ports_data := Function.update sys.ports.ports_data pos data } }

end System

variable {s : Counters q V} {t : LimitTransform}

/-- A chunk is pushed; the input is closed only after the limit. -/
lemma pushChunk_cases (data : PortsData q V A) (rows : UInt64) (chunk : Chunk q V A) :
    t.pushChunk s data rows chunk =
        ⟨.PortFull, s, { data with output := { data.output with data := some chunk } }⟩ ∨
      t.is_limit_reached s = true ∧ t.pushChunk s data rows chunk =
        ⟨.PortFull, s, { data with
          input := data.input.close, output := { data.output with data := some chunk } }⟩ := by
  by_cases hclose : (!t.always_read_till_end && !t.limit_is_unreachable &&
      decide (s.rows_read ≥ t.offset + t.limit) && !(s.previous_row_chunk.isSome ||
        decide (s.rows_read - rows ≤ t.offset + t.limit))) = true
  · refine .inr ⟨?_, ?_⟩
    · -- it is closed only if no ties are waited for
      rw [and_eq_true, and_eq_true, and_eq_true] at hclose
      obtain ⟨⟨⟨-, hreach⟩, hread⟩, hno⟩ := hclose
      rw [not_eq_true', Bool.or_eq_false_iff] at hno
      rw [is_limit_reached, hreach, hread, Bool.and_self, Bool.true_and,
        isNone_iff_eq_none, ← Option.not_isSome_iff_eq_none, hno.1]
      exact false_ne_true
    · rw [pushChunk, if_pos hclose]
  · left
    rw [pushChunk, if_neg hclose]

section

variable [Ord V]

/-- What a call for a pair of ports can do. -/
inductive PairStep (t : LimitTransform) (s : Counters q V) (data : PortsData q V A) :
    PairResult q V A → Prop where
  | closed (h : data.output.IS_FINISHED = true) :
      PairStep t s data ⟨.Finished, s, { data with input := data.input.close }⟩
  | full (h : data.output.data ≠ none) :
      PairStep t s data ⟨.PortFull, s, { data with input := data.input.setNotNeeded }⟩
  | reached (h : t.is_limit_reached s = true) :
      PairStep t s data
        ⟨.Finished, s, { data with input := data.input.close, output := data.output.finish }⟩
  | finished (h : data.input.isFinished = true) :
      PairStep t s data ⟨.Finished, s, { data with output := data.output.finish }⟩
  | waits (h : data.input.data = none) (hopen : data.input.isFinished = false) :
      PairStep t s data ⟨.NeedData, s, { data with input := data.input.setNeeded }⟩
  | skips {chunk : Chunk q V A} (hchunk : data.input.data = some chunk)
      (h : t.is_limit_reached s = true ∨ data.output.IS_FINISHED = true) :
      PairStep t s data (afterDrop s { data with input := data.input.pulled })
  | processes {chunk : Chunk q V A} (hchunk : data.input.data = some chunk)
      (hopen : t.is_limit_reached s = false) (hempty : data.output.data = none)
      (houtput : data.output.IS_FINISHED = false) :
      PairStep t s data (t.outputChunk { data with input := data.input.pulled }
        (getNumRows chunk) (t.processChunk s chunk))

/-- Every branch of `preparePair` is one of the steps. -/
lemma preparePair_step (t : LimitTransform) (s : Counters q V) (data : PortsData q V A) :
    PairStep t s data (t.preparePair s data) := by
  rw [preparePair]
  split_ifs with hclosed hfull hreached hfinished hskips
  · exact .closed (and_eq_true _ _ ▸ hclosed).1
  · refine .full fun hnone => ?_
    rw [OutputPort.canPush, hnone] at hfull
    cases hf : data.output.IS_FINISHED <;> rw [hf] at hfull <;> cases hfull
  · exact .reached (and_eq_true _ _ ▸ hreached).1
  · exact .finished hfinished
  · cases hchunk : data.input.data with
    | none => exact .waits hchunk (Bool.eq_false_of_not_eq_true hfinished)
    | some chunk => exact .skips hchunk (or_eq_true _ _ ▸ hskips)
  · cases hchunk : data.input.data with
    | none => exact .waits hchunk (Bool.eq_false_of_not_eq_true hfinished)
    | some chunk =>
      -- neither dropped nor finished: the output is empty and open
      rw [or_eq_true, not_or, Bool.not_eq_true, Bool.not_eq_true] at hskips
      refine .processes hchunk hskips.1 ?_ hskips.2
      rw [hskips.2, OutputPort.canPush] at hfull
      cases hdata : data.output.data with
      | none => rfl
      | some chunk' =>
        rw [hdata] at hfull
        exact absurd rfl hfull

end

variable [Ord V] (t : LimitTransform) (S : Fin n → List (Chunk q V A))

/-- A call goes through its pairs, and closes all ports only after the limit. -/
lemma prepare_cases (ports : Ports q V A n) (inputs outputs : List (Fin n)) :
    (t.prepare ports inputs outputs).2 = (t.processPairs ports (inputs ++ outputs)).2 ∨
      t.is_limit_reached (t.processPairs ports (inputs ++ outputs)).2.counters = true ∧
        (t.prepare ports inputs outputs).2 =
          closeAll (t.processPairs ports (inputs ++ outputs)).2 := by
  rw [prepare]
  dsimp only
  split_ifs with hall hreached
  · exact .inl rfl
  · exact .inr ⟨(and_eq_true _ _ ▸ hreached).1, rfl⟩
  · exact .inl rfl
  · exact .inl rfl

/-- The chunks that were processed, of those that were pulled. -/
def processed (log : List (Fin n × Chunk q V A)) (taken : ℕ) : List (Chunk q V A) :=
  (log.map Prod.snd).take taken

/-- Nothing is left to read at a port, or the limit is reached. -/
def Done (reached : Bool) (left : List (Chunk q V A)) : Prop := left = [] ∨ reached = true

/-- The pair has closed its input or finished its output. -/
def PortsData.ended (data : PortsData q V A) : Bool :=
  data.input.is_finished || data.output.IS_FINISHED

/-- What holds along a run: `log` has the chunks pulled, of which `taken` were processed. -/
structure Inv (sys : System q V A n) (log : List (Fin n × Chunk q V A)) (taken : ℕ) : Prop where
  counters : sys.ports.counters = (processAll t ⟨0, none⟩ (processed log taken)).1
  staysOpen : StaysOpen t ⟨0, none⟩ (processed log taken)
  taken_le : taken ≤ log.length
  all_taken : taken = log.length ∨ t.is_limit_reached sys.ports.counters = true
  stream : ∀ pos, S pos = ((log.filter (·.1 = pos)).map Prod.snd) ++ sys.waiting pos
  emitted_sum : ∑ pos, (sys.emitted pos).length =
    (processAll t ⟨0, none⟩ (processed log taken)).2.length
  emitted_one : n = 1 → ∀ pos, sys.emitted pos = (processAll t ⟨0, none⟩ (processed log taken)).2
  flag : ∀ pos, (sys.ports.ports_data pos).input.IS_FINISHED = true →
    Done (t.is_limit_reached sys.ports.counters) (sys.sources pos)
  ended : ∀ pos, (sys.ports.ports_data pos).ended = true →
    Done (t.is_limit_reached sys.ports.counters) (sys.waiting pos)

variable {t S} {sys : System q V A n} {log : List (Fin n × Chunk q V A)} {taken : ℕ}

namespace Inv

lemma initial : Inv t S (initial S) [] 0 where
  counters := rfl
  staysOpen := trivial
  taken_le := le_rfl
  all_taken := .inl rfl
  stream _ := rfl
  emitted_sum := by
    exact sum_const_zero
  emitted_one _ _ := rfl
  flag _ h := absurd h false_ne_true
  ended _ h := absurd h false_ne_true

variable (h : Inv t S sys log taken) {pos : Fin n}
include h

/-- An input port that is finished for the transform. -/
lemma of_isFinished (hfinished : (sys.data pos).input.isFinished = true) :
    Done (t.is_limit_reached sys.ports.counters) (sys.waiting pos) := by
  rw [isFinished, or_eq_true, and_eq_true, isNone_iff_eq_none] at hfinished
  rcases hfinished with hfinished | ⟨hfinished, hnone⟩
  · exact h.ended pos (by rw [PortsData.ended, hfinished, Bool.true_or])
  · refine (h.flag pos hfinished).imp (fun hnil => ?_) id
    rw [waiting, hnone, hnil]
    rfl

variable {sys' : System q V A n}

/-- A change that neither pulls nor emits a chunk. -/
lemma of_eq (hcounters : sys'.ports.counters = sys.ports.counters)
    (hwaiting : ∀ pos, sys'.waiting pos = sys.waiting pos)
    (hemitted : ∀ pos, sys'.emitted pos = sys.emitted pos)
    (hflag : ∀ pos, (sys'.ports.ports_data pos).input.IS_FINISHED = true →
      Done (t.is_limit_reached sys.ports.counters) (sys'.sources pos))
    (hended : ∀ pos, (sys'.ports.ports_data pos).ended = true →
      Done (t.is_limit_reached sys.ports.counters) (sys.waiting pos)) : Inv t S sys' log taken := by
  constructor
  case counters => rw [hcounters]; exact h.counters
  case staysOpen => exact h.staysOpen
  case taken_le => exact h.taken_le
  case all_taken => rw [hcounters]; exact h.all_taken
  case stream => exact fun pos => hwaiting pos ▸ h.stream pos
  case emitted_sum => rw [funext hemitted]; exact h.emitted_sum
  case emitted_one => rw [funext hemitted]; exact h.emitted_one
  case flag => rw [hcounters]; exact hflag
  case ended => exact fun pos => by rw [hcounters, hwaiting]; exact hended pos

/-- Such a change at one pair. -/
lemma of_pair (hcounters : sys'.ports.counters = sys.ports.counters)
    (hother : ∀ pos', pos' ≠ pos → sys'.ports.ports_data pos' = sys.ports.ports_data pos' ∧
      sys'.sources pos' = sys.sources pos' ∧ sys'.readers pos' = sys.readers pos')
    (hwaiting : sys'.waiting pos = sys.waiting pos) (hemitted : sys'.emitted pos = sys.emitted pos)
    (hflag : (sys'.ports.ports_data pos).input.IS_FINISHED = true →
      Done (t.is_limit_reached sys.ports.counters) (sys'.sources pos))
    (hended : (sys'.ports.ports_data pos).ended = true →
      Done (t.is_limit_reached sys.ports.counters) (sys.waiting pos)) : Inv t S sys' log taken := by
  refine h.of_eq hcounters ?_ ?_ ?_ ?_ <;> intro pos' <;> by_cases heq : pos' = pos
  · rw [heq, hwaiting]
  · rw [waiting, waiting, (hother pos' heq).1, (hother pos' heq).2.1]
  · rw [heq, hemitted]
  · rw [emitted, emitted, (hother pos' heq).1, (hother pos' heq).2.2]
  · rw [heq]
    exact hflag
  · rw [(hother pos' heq).1, (hother pos' heq).2.1]
    exact h.flag pos'
  · rw [heq]
    exact hended
  · rw [(hother pos' heq).1]
    exact h.ended pos'

variable {data : PortsData q V A}

/-- A change that leaves the chunks of the ports alone. -/
lemma update (hinput : data.input.data = (sys.data pos).input.data)
    (houtput : data.output.data = (sys.data pos).output.data)
    (hflag : data.input.IS_FINISHED = true →
      Done (t.is_limit_reached sys.ports.counters) (sys.sources pos))
    (hended : data.ended = true → Done (t.is_limit_reached sys.ports.counters) (sys.waiting pos)) :
    Inv t S (sys.withPair pos sys.ports.counters data) log taken := by
  have hself : (sys.withPair pos sys.ports.counters data).ports.ports_data pos = data :=
    update_self ..
  refine h.of_pair rfl (fun pos' hne => ⟨update_of_ne hne .., rfl, rfl⟩) ?_ ?_
    (hself.symm ▸ hflag) (hself.symm ▸ hended)
  · rw [waiting, hself, hinput]
    rfl
  · rw [emitted, hself, houtput]
    rfl

variable {chunk : Chunk q V A}

/-- A chunk leaves its input port, and `piece` of it goes to the output. -/
lemma pull {counters' : Counters q V} {taken' : ℕ} (piece : List (Row q V A))
    (hchunk : (sys.data pos).input.data = some chunk)
    (hall : processAll t ⟨0, none⟩ (processed (log ++ [(pos, chunk)]) taken') =
      (counters', (processAll t ⟨0, none⟩ (processed log taken)).2 ++ piece))
    (hopen : StaysOpen t ⟨0, none⟩ (processed (log ++ [(pos, chunk)]) taken'))
    (htaken : taken' ≤ log.length + 1)
    (hlast : taken' = log.length + 1 ∨ t.is_limit_reached counters' = true)
    (hmono : t.is_limit_reached sys.ports.counters = true → t.is_limit_reached counters' = true)
    (hinput : data.input.data = none)
    (houtput : sys.readers pos ++ data.output.data.getD [] = sys.emitted pos ++ piece)
    (hend : data.input.IS_FINISHED = true ∨ data.ended = true →
      Done (t.is_limit_reached counters') (sys.sources pos)) :
    Inv t S (sys.withPair pos counters' data) (log ++ [(pos, chunk)]) taken' := by
  -- the chunk leaves `waiting` and its piece joins `emitted`, at this port only
  have hwaiting : (sys.withPair pos counters' data).waiting =
      Function.update sys.waiting pos (sys.sources pos) := by
    funext pos'
    simp only [waiting, withPair, update_apply]
    split
    · rename_i heq
      rw [heq, hinput]
      rfl
    · rfl
  have hemitted : (sys.withPair pos counters' data).emitted =
      Function.update sys.emitted pos (sys.emitted pos ++ piece) := by
    funext pos'
    simp only [emitted, withPair, update_apply]
    split
    · rename_i heq
      rw [heq]
      exact houtput
    · rfl
  constructor
  case counters => rw [hall]; rfl
  case staysOpen => exact hopen
  case taken_le => rw [length_append]; exact htaken
  case all_taken => rw [length_append]; exact hlast
  case stream =>
    intro pos'
    rw [hwaiting, filter_append, map_append, update_apply]
    have hstream := h.stream pos'
    split
    · rename_i heq
      subst heq
      rw [waiting, hchunk] at hstream
      rw [hstream, append_assoc]
      simp
    · rename_i hne
      rw [hstream, List.filter_singleton, decide_eq_false (Ne.symm hne)]
      simp
  case emitted_sum =>
    -- the sum over the ports changes at this one only
    rw [hemitted, hall, length_append, ← h.emitted_sum, ← add_sum_erase _ _ (mem_univ pos),
      ← add_sum_erase _ (fun pos => (sys.emitted pos).length) (mem_univ pos),
      update_self, length_append, sum_congr rfl fun pos' hpos' => by
        rw [update_of_ne (ne_of_mem_erase hpos')]]
    omega
  case emitted_one =>
    intro hn pos'
    subst hn
    rw [hemitted, hall, ← h.emitted_one rfl pos, Subsingleton.elim pos' pos, update_self]
  case flag =>
    intro pos'
    simp only [withPair, update_apply]
    split
    · rename_i heq
      rw [heq]
      exact fun hf => hend (.inl hf)
    · exact fun hf => (h.flag pos' hf).imp id hmono
  case ended =>
    intro pos'
    rw [hwaiting]
    simp only [withPair, update_apply]
    split
    · exact fun hf => hend (.inr hf)
    · exact fun hf => (h.ended pos' hf).imp id hmono

/-- A chunk is dropped after the limit. -/
lemma skip (hchunk : (sys.data pos).input.data = some chunk)
    (hreached : t.is_limit_reached sys.ports.counters = true) (hinput : data.input.data = none)
    (houtput : data.output.data = (sys.data pos).output.data) :
    Inv t S (sys.withPair pos sys.ports.counters data) (log ++ [(pos, chunk)]) taken := by
  have hsame : processed (log ++ [(pos, chunk)]) taken = processed log taken := by
    rw [processed, map_append, take_append_of_le_length, processed]
    rw [length_map]
    exact h.taken_le
  refine h.pull [] hchunk ?_ ?_ (h.taken_le.trans (Nat.le_succ _)) (.inr hreached) id
    hinput ?_ fun _ => .inr hreached
  · rw [hsame, append_nil, h.counters]
  · rw [hsame]
    exact h.staysOpen
  · rw [houtput, append_nil]
    rfl

/-- A chunk is processed. -/
lemma process (data : PortsData q V A) (hchunk : (sys.data pos).input.data = some chunk)
    (hopen : t.is_limit_reached sys.ports.counters = false) (hinput : data.input.data = none)
    (hempty : (sys.data pos).output.data = none)
    (houtput : data.output.data.getD [] = (t.processChunk sys.ports.counters chunk).2.getD [])
    (hend : data.input.IS_FINISHED = true ∨ data.ended = true →
      Done (t.is_limit_reached (t.processChunk sys.ports.counters chunk).1) (sys.sources pos)) :
    Inv t S (sys.withPair pos (t.processChunk sys.ports.counters chunk).1 data)
      (log ++ [(pos, chunk)]) (log.length + 1) := by
  -- the limit is not reached, so that all chunks of the log were processed
  have htaken : taken = log.length :=
    h.all_taken.resolve_right fun hreached => absurd (hopen.symm.trans hreached) (by decide)
  have hnext : processed (log ++ [(pos, chunk)]) (log.length + 1) =
      processed log taken ++ [chunk] := by
    rw [processed, processed, htaken, map_append, take_of_length_le (by simp),
      take_of_length_le (by simp)]
    rfl
  refine h.pull ((t.processChunk sys.ports.counters chunk).2.getD []) hchunk ?_ ?_ le_rfl
    (.inl rfl) (fun hreached => absurd (hopen.symm.trans hreached) (by decide)) hinput ?_ hend
  · rw [hnext, processAll_append, ← h.counters]
    simp only [processAll, append_nil]
  · rw [hnext, staysOpen_append, ← h.counters]
    exact ⟨h.staysOpen, hopen, trivial⟩
  · rw [houtput, emitted, hempty]
    simp

/-- **One call for a pair of ports.** -/
theorem pairStep {r : PairResult q V A} (hstep : PairStep t sys.ports.counters (sys.data pos) r) :
    ∃ log' taken', Inv t S (sys.withPair pos r.counters r.data) log' taken' := by
  have hendedOutput (hfinished : (sys.data pos).output.IS_FINISHED = true) :=
    h.ended pos (by rw [PortsData.ended, hfinished, Bool.or_true])
  cases hstep with
  | closed hfinished =>
    have hdone := hendedOutput hfinished
    exact ⟨_, _, h.update rfl rfl (fun _ => hdone.imp (fun hnil =>
      (append_eq_nil_iff.1 hnil).2) id) fun _ => hdone⟩
  | full => exact ⟨_, _, h.update rfl rfl (h.flag pos) (h.ended pos)⟩
  | reached hreached =>
    exact ⟨_, _, h.update rfl rfl (fun _ => .inr hreached) fun _ => .inr hreached⟩
  | finished hfinished =>
    exact ⟨_, _, h.update rfl rfl (h.flag pos) fun _ => h.of_isFinished hfinished⟩
  | waits => exact ⟨_, _, h.update rfl rfl (h.flag pos) (h.ended pos)⟩
  | skips hchunk hskips =>
    -- with a chunk waiting, only the limit can have finished the output
    have hwaiting : sys.waiting pos ≠ [] := by
      rw [waiting, hchunk]
      exact cons_ne_nil _ _
    have hreached : t.is_limit_reached sys.ports.counters = true := hskips.elim id
      fun hfinished => (hendedOutput hfinished).resolve_left hwaiting
    rw [afterDrop]
    split
    · exact ⟨_, _, h.skip hchunk hreached rfl rfl⟩
    · exact ⟨_, _, h.skip hchunk hreached rfl rfl⟩
  | @processes chunk hchunk hopen hempty houtput =>
    have hnot : ¬ t.is_limit_reached sys.ports.counters = true :=
      fun hreached => absurd (hopen.symm.trans hreached) (by decide)
    -- a port that was pulled is closed if its source has finished
    have hend : (sys.data pos).input.IS_FINISHED = true ∨
        ((sys.data pos).input.IS_FINISHED ||
          (sys.data pos).output.IS_FINISHED) = true → sys.sources pos = [] := by
      rw [houtput, Bool.or_false, or_self]
      exact fun hf => (h.flag pos hf).resolve_right hnot
    have hprocess := fun data => h.process data hchunk hopen
    generalize t.processChunk sys.ports.counters chunk = result at hprocess ⊢
    obtain ⟨s, piece⟩ := result
    cases piece with
    | none =>
      rw [outputChunk, afterDrop]
      split
      · rename_i hfinished
        refine ⟨_, _, hprocess _ rfl hempty (by rw [← hempty]; rfl) fun _ => .inl (hend (.inl ?_))⟩
        simpa [isFinished, pulled] using hfinished
      · exact ⟨_, _, hprocess _ rfl hempty (by rw [← hempty]) fun hf => .inl (hend hf)⟩
    | some piece =>
      rw [outputChunk]
      rcases pushChunk_cases { sys.data pos with
          input := (sys.data pos).input.pulled } (getNumRows chunk) piece with
        heq | ⟨hreached, heq⟩
      · rw [heq]
        exact ⟨_, _, hprocess _ rfl hempty rfl fun hf => .inl (hend hf)⟩
      · rw [heq]
        exact ⟨_, _, hprocess _ rfl hempty rfl fun _ => .inr hreached⟩

lemma processPair (pos : Fin n) : ∃ log' taken',
    Inv t S { sys with ports := (t.processPair sys.ports pos).2 } log' taken' := by
  obtain ⟨log', taken', hinv⟩ := h.pairStep (preparePair_step t sys.ports.counters (sys.data pos))
  refine ⟨log', taken', ?_⟩
  rw [LimitTransform.processPair]
  cases hstatus : (t.preparePair sys.ports.counters (sys.data pos)).status with
  | NeedData => exact hinv
  | PortFull => exact hinv
  | Finished =>
    -- the `is_finished` of a pair is only for the executor
    refine @of_pair _ _ _ _ _ _ _ _ _ _ hinv pos _ rfl (fun pos' hne => ⟨?_, rfl, rfl⟩) ?_ ?_ ?_ ?_
    · simp only [withPair, update_of_ne hne]
    · simp only [waiting, withPair, update_self]
    · simp only [emitted, withPair, update_self]
    · simpa only [withPair, update_self] using hinv.flag pos
    · simpa only [withPair, update_self, PortsData.ended] using hinv.ended pos

lemma processPairs (updated : List (Fin n)) : ∃ log' taken',
    Inv t S { sys with ports := (t.processPairs sys.ports updated).2 } log' taken' := by
  have hfold : ∀ (full : Bool) (sys : System q V A n) log taken, Inv t S sys log taken →
      ∃ log' taken', Inv t S { sys with
        ports := (updated.foldl t.processNext (full, sys.ports)).2 } log' taken' := by
    induction updated with
    | nil => exact fun _ _ log taken h => ⟨log, taken, h⟩
    | cons pos updated ih =>
      intro full sys log taken h
      obtain ⟨log', taken', h'⟩ := h.processPair pos
      exact ih _ _ _ _ h'
  exact hfold false sys log taken h

lemma closeAll (hreached : t.is_limit_reached sys.ports.counters = true) :
    Inv t S { sys with ports := closeAll sys.ports } log taken :=
  { h with flag := fun _ _ => .inr hreached, ended := fun _ _ => .inr hreached }

/-- **One call.** -/
theorem prepare (updated_input_ports updated_output_ports : List (Fin n)) : ∃ log' taken',
    Inv t S { sys with ports :=
      (t.prepare sys.ports updated_input_ports updated_output_ports).2 } log' taken' := by
  obtain ⟨log', taken', hinv⟩ := h.processPairs (updated_input_ports ++ updated_output_ports)
  refine ⟨log', taken', ?_⟩
  rcases prepare_cases t sys.ports updated_input_ports updated_output_ports with
    heq | ⟨hreached, heq⟩
  · rw [heq]
    exact hinv
  · rw [heq]
    exact hinv.closeAll hreached

/-- A source pushes its next chunk. -/
lemma push {rest : List (Chunk q V A)} (hsource : sys.sources pos = chunk :: rest)
    (hempty : (sys.data pos).input.data = none)
    (hopen : (sys.data pos).input.IS_FINISHED = false) :
    Inv t S { sys.setPair pos { sys.data pos with
        input := { (sys.data pos).input with data := some chunk } } with
      sources := Function.update sys.sources pos rest } log taken := by
  refine h.of_pair rfl (fun pos' hne => ⟨update_of_ne hne ..,
    update_of_ne hne .., rfl⟩) ?_ ?_ ?_ ?_ <;>
    simp only [waiting, emitted, setPair, update_self]
  · rw [hempty, hsource]
    rfl
  · exact fun hf => absurd (hopen.symm.trans hf) false_ne_true
  · exact h.ended pos

/-- A reader takes a chunk. -/
lemma read (hchunk : (sys.data pos).output.data = some chunk) :
    Inv t S { sys.setPair pos { sys.data pos with
        output := { (sys.data pos).output with data := none } } with
      readers := Function.update sys.readers pos (sys.readers pos ++ chunk) } log taken := by
  refine h.of_pair rfl (fun pos' hne => ⟨update_of_ne hne .., rfl,
    update_of_ne hne ..⟩) ?_ ?_ ?_ ?_ <;>
    simp only [waiting, emitted, setPair, update_self]
  · rw [hchunk, getD_none, Option.getD_some, append_nil]
  · exact h.flag pos
  · exact h.ended pos

/-- **One event.** -/
theorem step {event : Event n} (hstep : sys.step t event = some sys') :
    ∃ log' taken', Inv t S sys' log' taken' := by
  cases event with
  | prepare updated_input_ports updated_output_ports =>
    obtain rfl := some.inj hstep
    exact h.prepare updated_input_ports updated_output_ports
  | finish pos =>
    rw [System.step, finish] at hstep
    split at hstep
    · -- a source finishes only when it has nothing left
      rename_i hlast
      rw [and_eq_true, List.isEmpty_iff] at hlast
      obtain rfl := some.inj hstep
      exact ⟨log, taken, h.update rfl rfl (fun _ => .inl hlast.1) (h.ended pos)⟩
    · cases hstep
  | read pos =>
    rw [System.step, System.read] at hstep
    cases hchunk : (sys.data pos).output.data with
    | none =>
      rw [hchunk] at hstep
      cases hstep
    | some chunk =>
      rw [hchunk] at hstep
      obtain rfl := some.inj hstep
      exact ⟨log, taken, h.read hchunk⟩
  | push pos =>
    rw [System.step, System.push] at hstep
    cases hsource : sys.sources pos with
    | nil =>
      rw [hsource] at hstep
      cases hstep
    | cons chunk rest =>
      rw [hsource] at hstep
      dsimp only at hstep
      split at hstep
      · -- a source pushes only into a port that is empty and needed
        rename_i hneeded
        rw [and_eq_true, and_eq_true, isNone_iff_eq_none, not_eq_true'] at hneeded
        obtain rfl := some.inj hstep
        exact ⟨log, taken, h.push hsource hneeded.1.2 hneeded.2⟩
      · cases hstep

/-- **A whole run.** -/
theorem run {events : List (Event n)} (hrun : sys.run t events = some sys') :
    ∃ log' taken', Inv t S sys' log' taken' := by
  induction events generalizing sys log taken with
  | nil =>
    obtain rfl := some.inj hrun
    exact ⟨log, taken, h⟩
  | cons event events ih =>
    obtain ⟨next, hstep, hrest⟩ := Option.bind_eq_some_iff.1 hrun
    obtain ⟨log', taken', hnext⟩ := h.step hstep
    exact ih hnext hrest

/-- At the end of a run all chunks have been pulled, or the limit is reached. -/
lemma complete (hcomplete : sys.Complete) :
    (∀ pos, sys.readers pos = sys.emitted pos) ∧
      (taken = log.length ∧ (∀ pos, sys.waiting pos = []) ∨
        t.is_limit_reached sys.ports.counters = true) := by
  refine ⟨fun pos => ?_, ?_⟩
  · rw [emitted, (hcomplete pos).2, getD_none, append_nil]
  · by_cases hreached : t.is_limit_reached sys.ports.counters = true
    · exact .inr hreached
    · exact .inl ⟨h.all_taken.resolve_right hreached, fun pos =>
        (h.ended pos ((or_eq_true _ _).mpr (.inr (hcomplete pos).1))).resolve_right hreached⟩

end Inv

/-! ## Runs come to an end -/

def flagWeight : Bool → ℕ
  | true => 0
  | false => 1

def chunkWeight (k : ℕ) : Option (Chunk q V A) → ℕ
  | none => 0
  | some _ => k

/-- How far a pair of ports is from its end. -/
def pairWeight (data : PortsData q V A) : ℕ :=
  chunkWeight 3 data.input.data + chunkWeight 2 data.output.data +
    flagWeight data.input.IS_FINISHED + flagWeight data.output.IS_FINISHED

def System.weight (sys : System q V A n) : ℕ :=
  ∑ pos, (4 * (sys.sources pos).length + pairWeight (sys.ports.ports_data pos))

omit [Ord V] in
lemma pairWeight_afterDrop_le (s : Counters q V) (data : PortsData q V A) :
    pairWeight (afterDrop s data).data ≤ pairWeight data := by
  rw [afterDrop]
  split
  · simp only [pairWeight, OutputPort.finish, flagWeight]
    omega
  · exact le_rfl

variable {data : PortsData q V A} {chunk : Chunk q V A}

omit [Ord V] in
lemma pairWeight_pulled (hchunk : data.input.data = some chunk) :
    pairWeight { data with input := data.input.pulled } + 3 = pairWeight data := by
  simp only [pairWeight, pulled, hchunk, chunkWeight]
  omega

omit [Ord V] in
lemma pairWeight_pushChunk_le {rows : UInt64} (hempty : data.output.data = none) :
    pairWeight (t.pushChunk s data rows chunk).data ≤ pairWeight data + 2 := by
  rcases pushChunk_cases (t := t) (s := s) data rows chunk with heq | ⟨-, heq⟩
  · rw [heq]
    simp only [pairWeight, hempty, chunkWeight]
    omega
  · rw [heq]
    simp only [pairWeight, close, hempty, chunkWeight, flagWeight]
    omega

/-- A call for a pair whose output is open brings it nearer to its end, or it waits for its
source. -/
lemma PairStep.weight {r : PairResult q V A} (hstep : PairStep t s data r)
    (hempty : data.output.data = none) (hopen : data.output.IS_FINISHED = false) :
    pairWeight r.data < pairWeight data ∨
      r.data = { data with input := data.input.setNeeded } ∧ data.input.data = none ∧
        data.input.IS_FINISHED = false := by
  cases hstep with
  | closed hfinished => exact absurd (hopen.symm.trans hfinished) false_ne_true
  | full hfull => exact absurd hempty hfull
  | reached =>
    left
    simp only [pairWeight, close, OutputPort.finish, hopen, flagWeight]
    omega
  | finished =>
    left
    simp only [pairWeight, OutputPort.finish, hopen, flagWeight]
    omega
  | waits hnone hnot =>
    -- there is nothing to pull: the port is marked as needed, and nothing else happens
    refine .inr ⟨rfl, hnone, ?_⟩
    rw [isFinished, hnone, Bool.or_eq_false_iff] at hnot
    simpa using hnot.2
  | skips hchunk =>
    left
    -- the chunk that was pulled makes the difference
    have hle := pairWeight_afterDrop_le s { data with input := data.input.pulled }
    have := pairWeight_pulled hchunk
    omega
  | @processes chunk hchunk =>
    left
    have hpulled := pairWeight_pulled hchunk
    rcases t.processChunk s chunk with ⟨s', piece | piece⟩
    · rw [outputChunk]
      have := pairWeight_afterDrop_le s' { data with input := data.input.pulled }
      omega
    · rw [outputChunk]
      have : pairWeight (t.pushChunk s' { data with input := data.input.pulled }
          (getNumRows chunk) piece).data ≤ _ := pairWeight_pushChunk_le hempty
      omega

section Progress

variable (sys) (pos : Fin n)

lemma processPair_data : ∃ data,
    (t.processPair sys.ports pos).2.ports_data = update sys.ports.ports_data pos data ∧
      data.input = (t.preparePair sys.ports.counters (sys.ports.ports_data pos)).data.input ∧
      data.output = (t.preparePair sys.ports.counters (sys.ports.ports_data pos)).data.output := by
  rw [processPair]
  cases (t.preparePair sys.ports.counters (sys.ports.ports_data pos)).status with
  | NeedData => exact ⟨_, rfl, rfl, rfl⟩
  | PortFull => exact ⟨_, rfl, rfl, rfl⟩
  | Finished => exact ⟨_, rfl, rfl, rfl⟩

omit [Ord V] in
lemma weight_lt {sys sys' : System q V A n} (pos : Fin n)
    (hother : ∀ pos', pos' ≠ pos → 4 * (sys'.sources pos').length +
      pairWeight (sys'.ports.ports_data pos') ≤
        4 * (sys.sources pos').length + pairWeight (sys.ports.ports_data pos'))
    (hpos : 4 * (sys'.sources pos).length + pairWeight (sys'.ports.ports_data pos) <
      4 * (sys.sources pos).length + pairWeight (sys.ports.ports_data pos)) :
    sys'.weight < sys.weight := by
  refine sum_lt_sum (fun pos' _ => ?_) ⟨pos, mem_univ pos, hpos⟩
  by_cases heq : pos' = pos
  · rw [heq]
    exact hpos.le
  · exact hother pos' heq

omit [Ord V] in
lemma pairWeight_closed_le (data : PortsData q V A) :
    pairWeight { data with input := data.input.close, output := data.output.finish } +
      flagWeight data.output.IS_FINISHED ≤ pairWeight data := by
  simp only [pairWeight, close, OutputPort.finish, flagWeight]
  omega

variable {sys pos}

/-- A call for a pair whose output is open. -/
lemma prepare_weight {ports : Ports q V A n} (hports : (t.prepare sys.ports [pos] []).2 = ports)
    (hempty : (sys.ports.ports_data pos).output.data = none)
    (hopen : (sys.ports.ports_data pos).output.IS_FINISHED = false) :
    { sys with ports }.weight < sys.weight ∨
      ports.ports_data = update sys.ports.ports_data pos (ports.ports_data pos) ∧
        (ports.ports_data pos).input = (sys.ports.ports_data pos).input.setNeeded ∧
        (ports.ports_data pos).output = (sys.ports.ports_data pos).output ∧
        (sys.ports.ports_data pos).input.data = none ∧
        (sys.ports.ports_data pos).input.IS_FINISHED = false := by
  obtain ⟨data, hdata, hinput, houtput⟩ := processPair_data (t := t) sys pos
  have hweight : pairWeight data = pairWeight
      (t.preparePair sys.ports.counters (sys.ports.ports_data pos)).data := by
    simp only [pairWeight, hinput, houtput]
  have hstep :=
    (preparePair_step t sys.ports.counters (sys.ports.ports_data pos)).weight hempty hopen
  have hle : pairWeight data ≤ pairWeight (sys.ports.ports_data pos) := by
    rw [hweight]
    rcases hstep with hlt | ⟨heq, -⟩
    · exact hlt.le
    · rw [heq]
      exact le_rfl
  have hone : (t.processPairs sys.ports ([pos] ++ [])).2 = (t.processPair sys.ports pos).2 := rfl
  -- only this pair changes, or all ports are closed as well
  rcases prepare_cases t sys.ports [pos] [] with heq | ⟨-, heq⟩ <;> rw [hone, hports] at heq
  · rw [heq, hdata]
    rcases hstep with hlt | ⟨hsame, hnone, hflag⟩
    · left
      refine weight_lt pos (fun pos' hne => ?_) ?_
      · rw [hdata, update_of_ne hne]
      · dsimp only
        rw [hdata, update_self, hweight]
        omega
    · right
      rw [update_self, hinput, houtput, hsame]
      exact ⟨rfl, rfl, rfl, hnone, hflag⟩
  · -- closing all ports finishes an output that was open
    left
    rw [heq]
    refine weight_lt pos (fun pos' hne => ?_) ?_
    · dsimp only [closeAll]
      rw [hdata, update_of_ne hne]
      have := pairWeight_closed_le (sys.ports.ports_data pos')
      omega
    dsimp only [closeAll]
    rw [hdata, update_self]
    have hclosed := pairWeight_closed_le data
    rcases hstep with hlt | ⟨hsame, -⟩
    · omega
    · rw [houtput, hsame] at hclosed
      rw [hopen, flagWeight] at hclosed
      rw [houtput, hsame]
      omega

variable {next : System q V A n}

lemma run_cons {event : Event n} {events : List (Event n)}
    (hstep : sys.step t event = some next) : sys.run t (event :: events) = next.run t events := by
  rw [run, foldlM_cons, hstep]
  rfl

/-- The source of a port that needs data pushes its next chunk or finishes. -/
lemma source_weight (pos : Fin n) (hneeded : (sys.ports.ports_data pos).input.IS_NEEDED = true)
    (hnone : (sys.ports.ports_data pos).input.data = none)
    (hflag : (sys.ports.ports_data pos).input.IS_FINISHED = false) :
    ∃ event sys', sys.step t event = some sys' ∧ sys'.weight < sys.weight := by
  cases hsource : sys.sources pos with
  | nil =>
    -- nothing is left, and the source finishes
    have hstep : sys.step t (.finish pos) = some (sys.setPair pos { sys.ports.ports_data pos with
        input := { (sys.ports.ports_data pos).input with IS_FINISHED := true } }) := by
      exact if_pos (by rw [hsource, hflag]; rfl)
    refine ⟨.finish pos, _, hstep, ?_⟩
    refine weight_lt pos (fun pos' hne => ?_) ?_
    · simp only [setPair, update_of_ne hne, le_refl]
    · simp only [setPair, update_self, pairWeight, hflag, flagWeight]
      omega
  | cons chunk rest =>
    -- the next chunk goes to the port
    have hstep : sys.step t (.push pos) = some { sys.setPair pos { sys.ports.ports_data pos with
        input := { (sys.ports.ports_data pos).input with data := some chunk } } with
        sources := update sys.sources pos rest } := by
      rw [step, push, hsource]
      exact if_pos (by rw [hneeded, hnone, hflag]; rfl)
    refine ⟨.push pos, _, hstep, ?_⟩
    refine weight_lt pos (fun pos' hne => ?_) ?_
    · simp only [setPair, update_of_ne hne, le_refl]
    · simp only [setPair, update_self, pairWeight, hnone, chunkWeight, hsource, length_cons]
      omega

/-- **No state is stuck**: some events bring a run nearer to its end. -/
theorem exists_smaller (hnot : ¬ sys.Complete) :
    ∃ events sys', sys.run t events = some sys' ∧ sys'.weight < sys.weight := by
  obtain ⟨pos, hpos⟩ := not_forall.1 hnot
  cases hdata : (sys.ports.ports_data pos).output.data with
  | some chunk =>
    have hread : sys.step t (.read pos) = some { sys.setPair pos { sys.ports.ports_data pos with
        output := { (sys.ports.ports_data pos).output with data := none } } with
        readers := update sys.readers pos (sys.readers pos ++ chunk) } := by
      rw [step, System.read, hdata]
    refine ⟨[.read pos], _, (run_cons hread).trans rfl, ?_⟩
    refine weight_lt pos (fun pos' hne => ?_) ?_
    · simp only [setPair, update_of_ne hne, le_refl]
    · simp only [setPair, update_self, pairWeight, hdata, chunkWeight]
      omega
  | none =>
    have hopen : (sys.ports.ports_data pos).output.IS_FINISHED = false :=
      Bool.eq_false_of_not_eq_true fun hfinished => hpos ⟨hfinished, hdata⟩
    obtain ⟨ports, hports⟩ : ∃ ports, (t.prepare sys.ports [pos] []).2 = ports := ⟨_, rfl⟩
    have hprepare : sys.step t (.prepare [pos] []) = some { sys with ports } := hports ▸ rfl
    rcases prepare_weight hports hdata hopen with hlt | ⟨hsame, hinput, houtput, hnone, hflag⟩
    · exact ⟨[.prepare [pos] []], _, (run_cons hprepare).trans rfl, hlt⟩
    -- the pair waits for its source
    have hle : { sys with ports }.weight ≤ sys.weight := by
      refine Finset.sum_le_sum fun pos' _ => ?_
      by_cases heq : pos' = pos
      · rw [heq]
        simp only [pairWeight, hinput, houtput, setNeeded, le_refl]
      · rw [hsame, update_of_ne heq]
    obtain ⟨event, sys', hstep, hlt⟩ : ∃ event sys',
        { sys with ports }.step t event = some sys' ∧ sys'.weight < { sys with ports }.weight :=
      source_weight pos (by dsimp only; rw [hinput]; rfl) (by dsimp only; rw [hinput]; exact hnone)
        (by dsimp only; rw [hinput]; exact hflag)
    refine ⟨[.prepare [pos] [], event], sys', ?_, hlt.trans_le hle⟩
    exact (run_cons hprepare).trans ((run_cons hstep).trans rfl)

lemma run_append {events more : List (Event n)}
    (hrun : sys.run t events = some next) : sys.run t (events ++ more) = next.run t more := by
  rw [run, foldlM_append]
  exact (congrArg (· >>= _) hrun).trans rfl

/-- **Every run can be brought to its end.** -/
theorem exists_complete (sys : System q V A n) :
    ∃ events sys', sys.run t events = some sys' ∧ sys'.Complete := by
  induction hweight : sys.weight using Nat.strong_induction_on generalizing sys with
  | _ weight ih =>
    by_cases hcomplete : sys.Complete
    · exact ⟨[], sys, rfl, hcomplete⟩
    · obtain ⟨events, next, hrun, hlt⟩ := exists_smaller (t := t) hcomplete
      obtain ⟨more, last, hmore, hlast⟩ := ih _ (hweight ▸ hlt) next rfl
      exact ⟨events ++ more, last, (run_append hrun).trans hmore, hlast⟩

end Progress

/-! ## The output of a run -/

section Output

variable {rows : List (Row q V A)}

omit [Ord V] in
lemma fits_append {chunks more : List (Chunk q V A)} :
    Fits t rows (chunks ++ more) ↔ Fits t rows chunks ∧ Fits t (rows ++ chunks.flatten) more := by
  induction chunks generalizing rows with
  | nil =>
    rw [nil_append, flatten_nil, append_nil]
    exact (and_iff_right trivial).symm
  | cons chunk chunks ih =>
    rw [cons_append, Fits, Fits, ih, flatten_cons, append_assoc, and_assoc]

lemma past_le_of_reached (hs : Describes t rows s)
    (hreached : t.is_limit_reached s = true) : t.past ≤ rows.length := by
  rw [is_limit_reached, and_eq_true, and_eq_true, not_eq_true', decide_eq_true_eq] at hreached
  obtain ⟨⟨hreach, hread⟩, -⟩ := hreached
  rwa [ge_iff_le, UInt64.le_iff_toNat_le, toNat_past hreach, hs.rows_read] at hread

variable {chunks : List (Chunk q V A)}

variable (hne : ∀ chunk ∈ chunks, chunk ≠ []) (hlen : chunks.flatten.length < 2 ^ 64)

include hne hlen in
/-- What a stream of chunks that fit gives, from the start. -/
lemma processAll_from_start (hopen : StaysOpen t ⟨0, none⟩ chunks) (hfits : Fits t [] chunks) :
    Describes t chunks.flatten (processAll t ⟨0, none⟩ chunks).1 ∧
      limitRows t chunks.flatten = (processAll t ⟨0, none⟩ chunks).2 := by
  have hspec := processAll_spec (describes_nil (t := t)) hne
    (by rw [length_nil, Nat.zero_add]; exact hlen) hopen hfits
  have hnil : limitRows t ([] : List (Row q V A)) = [] := limitRows_before_offset (Nat.zero_le _)
  rwa [nil_append, hnil, nil_append] at hspec

/-- The chunks that were processed decide, if they are all or the limit is reached. -/
lemma processAll_eq_iff {done rest : List (Chunk q V A)}
    (hne : ∀ chunk ∈ done ++ rest, chunk ≠ []) (hlen : (done ++ rest).flatten.length < 2 ^ 64)
    (hopen : StaysOpen t ⟨0, none⟩ done)
    (hrest : rest = [] ∨ t.is_limit_reached (processAll t ⟨0, none⟩ done).1 = true) :
    (processAll t ⟨0, none⟩ done).2 = limitRows t (done ++ rest).flatten ↔
      Fits t [] (done ++ rest) := by
  have hne_done : ∀ chunk ∈ done, chunk ≠ [] := fun c hc => hne c (mem_append_left _ hc)
  rw [flatten_append] at hlen ⊢
  have hlen_done : done.flatten.length < 2 ^ 64 := by
    rw [length_append] at hlen
    omega
  have hspec := processAll_from_start hne_done hlen_done hopen
  constructor
  · intro heq
    by_cases hfits : Fits t [] done
    · rcases hrest with rfl | hreached
      · rwa [append_nil]
      · -- behind the limit every chunk fits
        have hpast := past_le_of_reached (hspec hfits).1 hreached
        rw [fits_append, nil_append]
        exact ⟨hfits, fits_of_same_side (.inr ((Nat.le_add_right _ _).trans hpast))⟩
    · -- a chunk that does not fit has made a difference already
      exact absurd heq (processAll_ne_of_not_fits hne_done hlen_done hopen hfits rest.flatten
        (hrest.imp (fun hnil => by rw [hnil, flatten_nil]) id))
  · intro hfits
    obtain ⟨hs, hrows⟩ := hspec (fits_append.1 hfits).1
    rw [← hrows]
    rcases hrest with rfl | hreached
    · rw [flatten_nil, append_nil]
    · exact (limitRows_of_reached hs hreached _).symm

include hne hlen in
/-- **One stream**: the output is that of the definition exactly if the sum in `splitChunk`
does not wrap around. -/
theorem single_output_iff {events : List (Event 1)} {sys : System q V A 1}
    (hrun : (initial fun _ : Fin 1 => chunks).run t events = some sys)
    (hcomplete : sys.Complete) : sys.readers 0 = limitRows t chunks.flatten ↔ Fits t [] chunks := by
  obtain ⟨log, taken, h⟩ := Inv.initial.run hrun
  obtain ⟨hreaders, hend⟩ := h.complete hcomplete
  -- what was not processed is missing at the end of the stream
  obtain ⟨rest, hsplit, hrest⟩ : ∃ rest, chunks = processed log taken ++ rest ∧
      (rest = [] ∨ t.is_limit_reached
        (processAll t ⟨0, none⟩ (processed log taken)).1 = true) := by
    have hfilter : log.filter (·.1 = 0) = log :=
      filter_eq_self.2 fun entry _ => decide_eq_true (Subsingleton.elim _ _)
    have hstream := h.stream 0
    rw [hfilter] at hstream
    refine ⟨(log.map snd).drop taken ++ sys.waiting 0, ?_, ?_⟩
    · rw [processed, ← append_assoc, take_append_drop]
      exact hstream
    · rw [← h.counters]
      refine hend.imp (fun hall => ?_) id
      rw [hall.2 0, hall.1, append_nil, drop_eq_nil_of_le (by rw [length_map])]
  rw [hreaders 0, h.emitted_one rfl 0]
  subst hsplit
  exact processAll_eq_iff hne hlen h.staysOpen hrest

omit [Ord V] in
lemma length_flatten_log (log : List (Fin n × Chunk q V A)) :
    ∑ pos, ((log.filter (·.1 = pos)).map Prod.snd).flatten.length =
      (log.map Prod.snd).flatten.length := by
  induction log with
  | nil => exact sum_const_zero
  | cons entry log ih =>
    rw [List.map_cons, flatten_cons, length_append, ← ih]
    have hentry : ∀ pos, (((entry :: log).filter (·.1 = pos)).map snd).flatten.length =
        (if entry.1 = pos then entry.2.length else 0) +
          ((log.filter (·.1 = pos)).map snd).flatten.length := by
      intro pos
      by_cases hpos : entry.1 = pos
      · rw [List.filter_cons_of_pos (by simpa using hpos), if_pos hpos, List.map_cons,
          flatten_cons, length_append]
      · rw [List.filter_cons_of_neg (by simpa using hpos), if_neg hpos, Nat.zero_add]
    rw [sum_congr rfl fun pos _ => hentry pos, sum_add_distrib, sum_ite_eq, if_pos (mem_univ _)]

lemma length_limitRows (hties : t.with_ties = false) (rows : List (Row q V A)) :
    (limitRows t rows).length = min t.limit.toNat (rows.length - t.offset.toNat) := by
  rw [limitRows, if_neg (by rw [hties]; exact fun h => false_ne_true h.1), append_nil,
    length_take, length_drop]

omit [Ord V] in
/-- Chunks that fit wherever they come. -/
lemma fits_of_forall {total : ℕ} (htotal : rows.length + chunks.flatten.length ≤ total)
    (h : ∀ chunk ∈ chunks, t.offset.toNat < total → t.offset.toNat + chunk.length < 2 ^ 64) :
    Fits t rows chunks := by
  induction chunks generalizing rows with
  | nil => trivial
  | cons chunk chunks ih =>
    obtain ⟨hchunk, hchunks⟩ := forall_mem_cons.1 h
    rw [flatten_cons, length_append] at htotal
    exact ⟨fun _ hoffset => hchunk (by omega), ih (by rw [length_append]; omega) hchunks⟩

/-- **Several streams** without ties: the number of rows. -/
theorem total_output {S : Fin n → List (Chunk q V A)} {events : List (Event n)}
    (hties : t.with_ties = false) (hne : ∀ pos, ∀ chunk ∈ S pos, chunk ≠ [])
    (hlen : ∑ pos, (S pos).flatten.length < 2 ^ 64)
    (hfits : ∀ pos, ∀ chunk ∈ S pos, t.offset.toNat < ∑ pos, (S pos).flatten.length →
      t.offset.toNat + chunk.length < 2 ^ 64)
    (hrun : (initial S).run t events = some sys) (hcomplete : sys.Complete) :
    ∑ pos, (sys.readers pos).length =
      min t.limit.toNat (∑ pos, (S pos).flatten.length - t.offset.toNat) := by
  obtain ⟨log, taken, h⟩ := Inv.initial.run hrun
  obtain ⟨hreaders, hend⟩ := h.complete hcomplete
  -- each row is in the log or still waiting
  have htotal : ∑ pos, (S pos).flatten.length =
      (log.map snd).flatten.length + ∑ pos, (sys.waiting pos).flatten.length := by
    rw [← length_flatten_log, ← sum_add_distrib]
    refine sum_congr rfl fun pos _ => ?_
    rw [h.stream pos, flatten_append, length_append]
  have hsplit := take_append_drop taken (log.map snd)
  have hlog : (log.map snd).flatten.length = (processed log taken).flatten.length +
      ((log.map snd).drop taken).flatten.length := by
    rw [← length_append, processed, ← flatten_append, hsplit]
  have hmem : ∀ chunk ∈ processed log taken, ∃ pos, chunk ∈ S pos := by
    intro chunk hchunk
    obtain ⟨entry, hentry, rfl⟩ := mem_map.1 (mem_of_mem_take hchunk)
    refine ⟨entry.1, ?_⟩
    rw [h.stream entry.1]
    exact mem_append_left _ (mem_map.2 ⟨entry, mem_filter.2 ⟨hentry, decide_eq_true rfl⟩, rfl⟩)
  have hspec := processAll_from_start
    (fun chunk hchunk => (hmem chunk hchunk).elim fun pos hpos => hne pos chunk hpos)
    (by omega) h.staysOpen
    (fits_of_forall (by rw [length_nil]; omega) fun chunk hchunk =>
      (hmem chunk hchunk).elim fun pos hpos => hfits pos chunk hpos)
  rw [sum_congr rfl fun pos _ => congrArg length (hreaders pos), h.emitted_sum,
    ← hspec.2, length_limitRows hties]
  -- every source was read to its end, or the limit was reached
  rcases hend with ⟨hall, hwaiting⟩ | hreached
  · have hnone : ∑ pos, (sys.waiting pos).flatten.length = 0 :=
      sum_eq_zero fun pos _ => by rw [hwaiting pos]; rfl
    have hrest : ((log.map snd).drop taken).flatten.length = 0 := by
      rw [hall, drop_eq_nil_of_le (by rw [length_map])]
      rfl
    rw [htotal, hlog, hnone, hrest]
    rfl
  · rw [h.counters] at hreached
    have hpast := past_le_of_reached hspec.1 hreached
    have hdef := past_eq t
    omega

/-- **What goes out at the end of a run.** On one stream it is the rows of the limit, with
their ties, exactly if the chunk with rows on both sides of the offset is not so large that
`offset + num_rows` wraps around. On several streams without ties, where no chunk is that
large, it is the right number of rows. And every run can be brought to its end. -/
theorem run_limitRows_iff (t : LimitTransform) :
    (∀ (chunks : List (Chunk q V A)) (events : List (Event 1)) (sys : System q V A 1),
      (∀ chunk ∈ chunks, chunk ≠ []) → chunks.flatten.length < 2 ^ 64 →
      (System.initial fun _ : Fin 1 => chunks).run t events = some sys → sys.Complete →
      (sys.readers 0 = limitRows t chunks.flatten ↔ Fits t [] chunks)) ∧
    (∀ (n : ℕ) (S : Fin n → List (Chunk q V A)) (events : List (Event n))
      (sys : System q V A n), t.with_ties = false → (∀ pos, ∀ chunk ∈ S pos, chunk ≠ []) →
      ∑ pos, (S pos).flatten.length < 2 ^ 64 →
      (∀ pos, ∀ chunk ∈ S pos, t.offset.toNat < ∑ pos, (S pos).flatten.length →
        t.offset.toNat + chunk.length < 2 ^ 64) →
      (System.initial S).run t events = some sys → sys.Complete →
      ∑ pos, (sys.readers pos).length =
        min t.limit.toNat (∑ pos, (S pos).flatten.length - t.offset.toNat)) ∧
    ∀ (n : ℕ) (sys : System q V A n),
      ∃ events sys', sys.run t events = some sys' ∧ sys'.Complete := by
  refine ⟨?_, ?_, fun n sys => exists_complete sys⟩
  · intro chunks events sys hne hlen hrun hcomplete
    exact single_output_iff hne hlen hrun hcomplete
  · intro n S events sys hties hne hlen hfits hrun hcomplete
    exact total_output hties hne hlen hfits hrun hcomplete

/-- A row with one sort column, and a number to tell it by. -/
def numbered (key : Bool) (number : ℕ) : Row 1 Bool ℕ := ⟨fun _ => .other key, number⟩

/-- `LIMIT 1 OFFSET 1 WITH TIES`: the tie is in the next chunk. -/
theorem run_limitRows_iff_at_ties :
    ∃ events sys, (System.initial fun _ : Fin 1 =>
        [[numbered false 0, numbered true 1], [numbered true 2]]).run ⟨1, 1, false, true⟩ events =
          some sys ∧ sys.Complete ∧ sys.readers 0 = [numbered true 1, numbered true 2] := by
  obtain ⟨events, sys, hrun, hcomplete⟩ := (run_limitRows_iff ⟨1, 1, false, true⟩).2.2 1
    (initial fun _ => [[numbered false 0, numbered true 1], [numbered true 2]])
  refine ⟨events, sys, hrun, hcomplete, ?_⟩
  have hrows := (run_limitRows_iff ⟨1, 1, false, true⟩).1 _ events sys (by simp) (by decide)
    hrun hcomplete
  exact (hrows.2 ⟨fun _ _ => by decide, fun _ _ => by decide, trivial⟩).trans rfl

/-- A chunk of `2 ^ 64 - 2` rows with the offset at its end: what goes out is not the row
after the offset. -/
theorem run_wraps :
    ∃ (chunks : List (Chunk 1 Bool ℕ)) (events : List (Event 1)) (sys : System 1 Bool ℕ 1),
      (∀ chunk ∈ chunks, chunk ≠ []) ∧ chunks.flatten.length < 2 ^ 64 ∧
      (System.initial fun _ : Fin 1 => chunks).run ⟨1, 18446744073709551606, false, false⟩ events =
        some sys ∧ sys.Complete ∧
      sys.readers 0 ≠ limitRows ⟨1, 18446744073709551606, false, false⟩ chunks.flatten := by
  obtain ⟨events, sys, hrun, hcomplete⟩ := exists_complete
    (t := ⟨1, 18446744073709551606, false, false⟩) (initial fun _ : Fin 1 =>
      [[numbered false 0], replicate 18446744073709551614 (numbered false 1)])
  have hne : ∀ chunk ∈ [[numbered false 0],
      replicate 18446744073709551614 (numbered false 1)], chunk ≠ [] := by
    intro chunk hchunk hnil
    rcases mem_pair.1 hchunk with rfl | rfl
    · exact cons_ne_nil _ _ hnil
    · rw [replicate_eq_nil_iff] at hnil
      exact absurd hnil (by decide)
  have hlen : [[numbered false 0],
      replicate 18446744073709551614 (numbered false 1)].flatten.length < 2 ^ 64 := by
    rw [flatten_cons, flatten_singleton, length_append, length_replicate]
    decide
  refine ⟨_, events, sys, hne, hlen, hrun, hcomplete, fun heq => ?_⟩
  have hfits := ((single_output_iff hne hlen hrun hcomplete).1 heq).2.1
  rw [FitsAt, length_replicate] at hfits
  exact absurd (hfits (by decide) (by decide)) (by decide)

end Output

end

end ClickHouse.Limit
