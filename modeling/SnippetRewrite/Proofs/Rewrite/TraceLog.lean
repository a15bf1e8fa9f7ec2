import Mathlib.Data.List.DropRight
import SnippetRewrite.Rewrite.Trace

/-!
The trace log as a queue of bounded length. Beside it stands a ledger, which is told of the same calls
and forgets nothing but what is taken or cleared: the log holds the last entries of the ledger, as
many as its capacity allows. Main statement: that is so after every sequence of calls, and each entry
that was ever recorded is still in the log, or was evicted, taken or cleared.
-/

namespace SnippetRewrite

inductive TraceCall where
  | record (entry : TraceEntry)
  | setEnabled (enabled : Bool)
  | snapshot
  | take
  | clear

namespace TraceLog

variable {log : TraceLog} {entries : List TraceEntry}

def answer (log : TraceLog) : TraceCall → List TraceEntry × TraceLog
  | .record entry => ([], log.record entry)
  | .setEnabled enabled => ([], log.setEnabled enabled)
  | .snapshot => (log.entries, log)
  | .take => log.take
  | .clear => ([], log.clear)

def perform : TraceLog → List TraceCall → TraceLog
  | log, [] => log
  | log, call :: calls => (log.answer call).2.perform calls

/-- The entries that are handed out by those of the calls that take, one after the other. -/
def taken : TraceLog → List TraceCall → List TraceEntry
  | _, [] => []
  | log, .take :: calls => (log.answer .take).1 ++ (log.answer .take).2.taken calls
  | log, call :: calls => (log.answer call).2.taken calls

/-- The entries that are dropped by those of the calls that clear the log, one after the other. -/
def cleared : TraceLog → List TraceCall → List TraceEntry
  | _, [] => []
  | log, .clear :: calls => log.entries ++ (log.answer .clear).2.cleared calls
  | log, call :: calls => (log.answer call).2.cleared calls

def extend (log : TraceLog) (entries : List TraceEntry) : TraceLog :=
  entries.foldl record log

def Bounded (log : TraceLog) : Prop :=
  log.entries.length ≤ log.capacity

/-! ### Recording -/

@[simp] theorem enabled_record (log : TraceLog) (entry : TraceEntry) :
    (log.record entry).enabled = log.enabled := by
  unfold record
  split <;> rfl

@[simp] theorem capacity_record (log : TraceLog) (entry : TraceEntry) :
    (log.record entry).capacity = log.capacity := by
  unfold record
  split <;> rfl

theorem enabled_extend (log : TraceLog) (entries : List TraceEntry) :
    (log.extend entries).enabled = log.enabled := by
  induction entries generalizing log with
  | nil => rfl
  | cons x rest ih => exact (ih _).trans (log.enabled_record x)

/-- What leaves is what is too much. -/
theorem makeRoom_eq {capacity : Nat} (h : 0 < capacity) (entries : List TraceEntry) (evicted : Nat) :
    makeRoom capacity entries evicted =
      (entries.drop (entries.length + 1 - capacity), evicted + (entries.length + 1 - capacity)) := by
  induction entries generalizing evicted with
  | nil => simp [makeRoom, Nat.sub_eq_zero_of_le h]
  | cons oldest rest ih =>
      rw [makeRoom, List.length_cons]
      split
      · -- the rest is shorter by one, so that one entry less is too much
        have hexcess : rest.length + 1 + 1 - capacity = rest.length + 1 - capacity + 1 := by omega
        rw [ih, hexcess, List.drop_succ_cons, Nat.add_assoc, Nat.add_comm 1]
      · have hexcess : rest.length + 1 + 1 - capacity = 0 := by omega
        rw [hexcess, List.drop_zero, Nat.add_zero]

theorem record_of_enabled (henabled : log.enabled = true) (hcapacity : 0 < log.capacity)
    (entry : TraceEntry) : log.record entry =
      { log with
        entries := log.entries.drop (log.entries.length + 1 - log.capacity) ++ [entry]
        evicted := log.evicted + (log.entries.length + 1 - log.capacity) } := by
  simp [record, henabled, Nat.ne_of_gt hcapacity, makeRoom_eq hcapacity]

theorem record_of_disabled (h : log.enabled = false) (entry : TraceEntry) : log.record entry = log := by
  simp [record, h]

/-- An enabled log keeps the last entries. -/
theorem entries_record (h : log.Bounded) (henabled : log.enabled = true) (entry : TraceEntry) :
    (log.record entry).entries = (log.entries ++ [entry]).rtake log.capacity := by
  unfold Bounded at h
  rcases Nat.eq_zero_or_pos log.capacity with hcapacity | hcapacity
  · rw [hcapacity, Nat.le_zero, List.length_eq_zero_iff] at h
    simp [record, henabled, hcapacity, h, List.rtake]
  · have hle : log.entries.length + 1 - log.capacity ≤ log.entries.length := by omega
    simp [record_of_enabled henabled hcapacity, List.rtake, List.drop_append_of_le_length hle]

theorem Bounded.record (h : log.Bounded) (entry : TraceEntry) : (log.record entry).Bounded := by
  cases henabled : log.enabled with
  | false => rwa [record_of_disabled henabled]
  | true =>
      rw [Bounded, entries_record h henabled, capacity_record, List.rtake, List.length_drop]
      omega

/-- A new entry is counted once: it stays, and each entry that leaves for it is evicted. -/
theorem length_record (henabled : log.enabled = true) (hcapacity : 0 < log.capacity)
    (entry : TraceEntry) : (log.record entry).entries.length + (log.record entry).evicted =
      log.entries.length + log.evicted + 1 := by
  rw [record_of_enabled henabled hcapacity]
  simp only [List.length_append, List.length_drop, List.length_singleton]
  omega

theorem rtake_rtake_append {α : Type} (l m : List α) (n : Nat) :
    (l.rtake n ++ m).rtake n = (l ++ m).rtake n := by
  have hle : l.length - n ≤ l.length := Nat.sub_le _ _
  rw [List.rtake, List.rtake, List.rtake, ← List.drop_append_of_le_length hle, List.drop_drop,
    List.length_drop]
  congr 1
  rw [List.length_append]
  omega

theorem entries_extend (h : log.Bounded) (henabled : log.enabled = true)
    (entries : List TraceEntry) :
    (log.extend entries).entries = (log.entries ++ entries).rtake log.capacity := by
  induction entries generalizing log with
  | nil =>
      unfold Bounded at h
      simp [extend, List.rtake, Nat.sub_eq_zero_of_le h]
  | cons x rest ih =>
      have hrest := ih (h.record x) ((log.enabled_record x).trans henabled)
      rw [capacity_record, entries_record h henabled, rtake_rtake_append, List.append_assoc] at hrest
      exact hrest

end TraceLog

/-! ### The ledger -/

/-- A record of calls without a bound on it. -/
structure TraceLedger where
  enabled : Bool
  /-- The entries recorded while recording was enabled, since the last call that takes or clears. -/
  pending : List TraceEntry
  /-- How many entries were ever recorded while recording was enabled. -/
  recorded : Nat

namespace TraceLedger

def new (enabled : Bool) : TraceLedger :=
  ⟨enabled, [], 0⟩

def enter (ledger : TraceLedger) : TraceCall → TraceLedger
  | .record entry =>
    if ledger.enabled then
      ⟨true, ledger.pending ++ [entry], ledger.recorded + 1⟩
    else ledger
  | .setEnabled enabled => { ledger with enabled }
  | .snapshot => ledger
  | .take | .clear => { ledger with pending := [] }

def enterAll : TraceLedger → List TraceCall → TraceLedger
  | ledger, [] => ledger
  | ledger, call :: calls => (ledger.enter call).enterAll calls

end TraceLedger

namespace TraceLog

variable {log : TraceLog} {ledger : TraceLedger}

/-- The log holds the last entries of the ledger. -/
structure Follows (log : TraceLog) (ledger : TraceLedger) : Prop where
  enabled : log.enabled = ledger.enabled
  entries : log.entries = ledger.pending.rtake log.capacity

theorem Follows.bounded (h : log.Follows ledger) : log.Bounded := by
  rw [Bounded, h.entries, List.rtake, List.length_drop]
  omega

@[simp] theorem capacity_answer (log : TraceLog) (call : TraceCall) :
    (log.answer call).2.capacity = log.capacity := by
  cases call with
  | record entry => exact log.capacity_record entry
  | setEnabled | snapshot | take | clear => rfl

@[simp] theorem capacity_perform (log : TraceLog) (calls : List TraceCall) :
    (log.perform calls).capacity = log.capacity := by
  induction calls generalizing log with
  | nil => rfl
  | cons call calls ih => exact (ih _).trans (log.capacity_answer call)

theorem new_follows (enabled : Bool) (capacity : Nat) :
    (new enabled capacity).Follows (.new enabled) :=
  ⟨rfl, (List.rtake_nil capacity).symm⟩

/-- One call keeps the log at the last entries of the ledger. -/
theorem Follows.answer (h : log.Follows ledger) (call : TraceCall) :
    (log.answer call).2.Follows (ledger.enter call) := by
  cases call with
  | record entry =>
      cases henabled : log.enabled with
      | false =>
          have hledger : ledger.enabled = false := h.enabled ▸ henabled
          simpa [TraceLog.answer, record_of_disabled henabled, TraceLedger.enter, hledger] using h
      | true =>
          have hledger : ledger.enabled = true := h.enabled ▸ henabled
          refine ⟨?_, ?_⟩
          · simp [TraceLog.answer, TraceLedger.enter, henabled, hledger]
          · simp only [TraceLog.answer, TraceLedger.enter, hledger, if_true, capacity_record]
            rw [entries_record h.bounded henabled, h.entries, rtake_rtake_append]
  | setEnabled enabled => exact ⟨rfl, h.entries⟩
  | snapshot => exact h
  | take | clear => exact ⟨h.enabled, (List.rtake_nil _).symm⟩

theorem Follows.perform (h : log.Follows ledger) (calls : List TraceCall) :
    (log.perform calls).Follows (ledger.enterAll calls) := by
  induction calls generalizing log ledger with
  | nil => exact h
  | cons call calls ih => exact ih (h.answer call)

/-- No entry is lost: what is recorded stays in the log, or is evicted, taken or cleared. -/
theorem Follows.conserved (h : log.Follows ledger) (hcapacity : 0 < log.capacity)
    (calls : List TraceCall) :
    (ledger.enterAll calls).recorded + (log.entries.length + log.evicted) =
      ledger.recorded + ((log.perform calls).entries.length + (log.perform calls).evicted) +
        (log.taken calls).length + (log.cleared calls).length := by
  induction calls generalizing log ledger with
  | nil => rfl
  | cons call calls ih =>
      have hrest := ih (h.answer call) ((log.capacity_answer call).symm ▸ hcapacity)
      cases call with
      | record entry =>
          cases henabled : log.enabled with
          | false =>
              have hledger : ledger.enabled = false := h.enabled ▸ henabled
              simpa [TraceLog.answer, record_of_disabled henabled, TraceLedger.enter, hledger,
                TraceLedger.enterAll, TraceLog.perform, taken, cleared] using hrest
          | true =>
              have hledger : ledger.enabled = true := h.enabled ▸ henabled
              have hcount := length_record henabled hcapacity entry
              simp only [TraceLog.answer, TraceLedger.enter, hledger, if_true] at hrest
              simp only [TraceLedger.enterAll, TraceLedger.enter, hledger, if_true,
                TraceLog.perform, TraceLog.answer, taken, cleared]
              omega
      | setEnabled | snapshot => exact hrest
      | take | clear =>
          -- the log is left empty, and what it held is counted in one of the two lists
          simp only [TraceLog.answer, TraceLog.take, TraceLog.clear, TraceLedger.enter,
            List.length_nil] at hrest
          simp only [TraceLedger.enterAll, TraceLedger.enter, TraceLog.perform, taken, cleared,
            TraceLog.answer, TraceLog.take, TraceLog.clear, List.length_append]
          omega

/-- After every sequence of calls the log holds the last entries of those recorded since it was last
emptied, switching it on or off leaves them alone, and a log with room accounts for every entry that
was ever recorded. -/
theorem perform_fifo (enabled : Bool) (capacity : Nat) (calls : List TraceCall) :
    let log := (new enabled capacity).perform calls
    let ledger := (TraceLedger.new enabled).enterAll calls
    log.entries = ledger.pending.rtake capacity ∧
    (∀ on, (log.answer (.setEnabled on)).2.entries = log.entries) ∧
    (0 < capacity → ledger.recorded = log.entries.length + log.evicted +
      ((new enabled capacity).taken calls).length + ((new enabled capacity).cleared calls).length) := by
  have hfollows := (new_follows enabled capacity).perform calls
  refine ⟨?_, fun _ => rfl, fun hcapacity => ?_⟩
  · have hentries := hfollows.entries
    rwa [capacity_perform] at hentries
  · have hconserved := (new_follows enabled capacity).conserved hcapacity calls
    simpa [new, TraceLedger.new] using hconserved

def zeroDropped (line : Nat) : TraceEntry :=
  ⟨0, ⟨"unit", line⟩, "x + 0", "x"⟩

/-- Calls that fill a log with room for two, switch it off and on again, and empty it in both ways. -/
def fillAndEmpty : List TraceCall :=
  [.record (zeroDropped 1), .record (zeroDropped 2), .record (zeroDropped 3), .setEnabled false,
    .record (zeroDropped 4), .snapshot, .take, .setEnabled true, .record (zeroDropped 5), .clear,
    .record (zeroDropped 6)]

theorem perform_fillAndEmpty :
    0 < 2 ∧ ((new true 2).perform fillAndEmpty).entries = [zeroDropped 6] ∧
    ((new true 2).perform fillAndEmpty).entries.length + ((new true 2).perform fillAndEmpty).evicted +
      ((new true 2).taken fillAndEmpty).length + ((new true 2).cleared fillAndEmpty).length = 5 := by
  obtain ⟨hentries, -, hcount⟩ := perform_fifo true 2 fillAndEmpty
  exact ⟨by decide, hentries, (hcount (by decide)).symm⟩

end TraceLog

end SnippetRewrite
