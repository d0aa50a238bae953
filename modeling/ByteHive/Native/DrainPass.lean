import ByteHive.Native.Drain

/-!
# One pass over the journal (`client.rs`)

`drain_action_journal` as the one function that it is, with its two loops: the inner one forms
a chunk, the outer one streams it, closes it and waits for the ack. The connection and the other
threads of the client are a `DrainWorld`.
-/

namespace ByteHive

/-- What a pass meets at its `n`-th turn. -/
structure DrainWorld where
  host : Nat → Host
  /-- What other threads make of the engine before the turn. -/
  others : Nat → SyncEngine → SyncEngine
  nextBundleId : Nat → Nat
  /-- Whether `send` succeeds. -/
  sends : Nat → Message → Bool
  /-- `await_ack`; `none` is an error. -/
  awaitAck : Nat → Nat → Option Nat

/-- `DrainStats`. -/
structure DrainStats where
  settledEntries : Nat
  ackedUpto : Nat
  filesSent : Nat
  bytesSent : Nat
  stoppedUnstable : Bool
deriving DecidableEq, Repr

def DrainStats.init : DrainStats := ⟨0, 0, 0, 0, false⟩

/-- A pass under way. -/
structure DrainRun where
  /-- The turns so far. -/
  clock : Nat
  engine : SyncEngine
  journal : ActionJournal
  sent : List Message
  stats : DrainStats

/-- The chunk that the inner loop has formed, and the entries behind it. -/
structure ChunkFormed where
  run : DrainRun
  chunk : Chunk
  stop : Bool
  rest : List JournalEntry

namespace DrainRun

/-- The next turn begins. -/
def turn (w : DrainWorld) (s : DrainRun) : DrainRun :=
  { s with clock := s.clock + 1, engine := w.others s.clock s.engine }

/-- The inner loop. -/
def formChunk (w : DrainWorld) (s : DrainRun) (c : Chunk) : List JournalEntry → ChunkFormed
  | [] => ⟨s, c, false, []⟩
  | entry :: rest =>
    match formEntry (w.host s.clock) (s.turn w).engine c entry with
    | .next c e => formChunk w { s.turn w with engine := e } c rest
    | .full => ⟨s.turn w, c, false, entry :: rest⟩
    | .stop => ⟨s.turn w, c, true, entry :: rest⟩

/-- `send`; the error keeps what has been done. -/
def send (w : DrainWorld) (s : DrainRun) (m : Message) : Except DrainRun DrainRun :=
  let s' := s.turn w
  if w.sends s.clock m then .ok { s' with sent := s'.sent ++ [m] } else .error s'

def sendAll (w : DrainWorld) (s : DrainRun) : List Message → Except DrainRun DrainRun
  | [] => .ok s
  | m :: ms => do sendAll w (← s.send w m) ms

/-- `stream_upserts`. -/
def streamRun (w : DrainWorld) (s : DrainRun) (run : List (PathBuf × Nat)) :
    Except DrainRun DrainRun :=
  let s' := s.turn w
  s'.sendAll w (streamUpserts (w.host s.clock) s'.engine.tree run (w.nextBundleId s.clock))

def countFile (s : DrainRun) (size : Nat) : DrainRun :=
  { s with stats :=
    { s.stats with
      filesSent := s.stats.filesSent + 1
      bytesSent := s.stats.bytesSent + size } }

/-- The loop over the wires of a chunk; `run` holds the upserts since the last rename or delete. -/
def streamWires (w : DrainWorld) (node : String) (s : DrainRun) (run : List (PathBuf × Nat)) :
    List Wire → Except DrainRun DrainRun
  | [] => s.streamRun w run
  | .upsert path actionMs size :: wires =>
    streamWires w node (s.countFile size) (run ++ [(path, actionMs)]) wires
  | .rename source target actionMs :: wires => do
    let s ← s.streamRun w run
    let s ← s.send w (.rename source target actionMs)
    streamWires w node s [] wires
  | .delete path actionMs :: wires => do
    let s ← s.streamRun w run
    let s ← s.send w (.delete [path] actionMs node)
    streamWires w node s [] wires

/-- `ActionBatchEnd` and the wait for its ack; `false` where the ack is short. -/
def closeChunk (w : DrainWorld) (s : DrainRun) (c : Chunk) (upto : Nat) :
    Except DrainRun (Bool × DrainRun) := do
  let s ← { s with engine := s.engine.flushLedger (w.host s.clock) }.send w (.actionBatchEnd upto)
  match w.awaitAck s.clock upto with
  | none => .error (s.turn w)
  | some got =>
    -- The ack must not cover entries beyond this chunk.
    let acked := min got upto
    let settled := (c.decided.filter fun x => x.1.seq ≤ acked).length
    match s.journal.ack (w.host s.clock) acked with
    | (false, j) => .error { s.turn w with journal := j }
    | (true, j) =>
      .ok (decide (upto ≤ acked),
        { s.turn w with
          journal := j
          stats := { s.stats with
            settledEntries := s.stats.settledEntries + settled
            ackedUpto := max s.stats.ackedUpto acked } })

/-- A chunk is streamed and closed unless it is empty. -/
def sendChunk (w : DrainWorld) (node : String) (s : DrainRun) (c : Chunk) :
    Except DrainRun (Bool × DrainRun) :=
  match c.upto with
  | none => .ok (true, s)
  | some upto => do (← s.streamWires w node [] c.wires).closeChunk w c upto

def stopUnstable (s : DrainRun) : DrainRun :=
  { s with stats := { s.stats with stoppedUnstable := true } }

/-! ## The outer loop -/

theorem formEntry_first (h : Host) (e : SyncEngine) (entry : JournalEntry) :
    formEntry h e .empty entry ≠ .full := by
  have hlen : ¬ drainChunkMaxEntries ≤ 0 := by decide
  unfold formEntry
  simp only [Chunk.empty, List.length_nil, hlen, if_false, Nat.lt_irrefl, false_and]
  split <;> intro h <;> cases h

theorem length_rest_formChunk (w : DrainWorld) (s : DrainRun) (c : Chunk)
    (pending : List JournalEntry) : (s.formChunk w c pending).rest.length ≤ pending.length := by
  induction pending generalizing s c with
  | nil => exact Nat.le_refl _
  | cons entry rest ih =>
    rw [formChunk]
    split
    · exact Nat.le_succ_of_le (ih _ _)
    · exact Nat.le_refl _
    · exact Nat.le_refl _

/-- A chunk that is not ended by a stop takes at least one entry. -/
theorem formChunk_progress (w : DrainWorld) (s : DrainRun) (entry : JournalEntry)
    (rest : List JournalEntry) (hstop : (s.formChunk w .empty (entry :: rest)).stop = false) :
    (s.formChunk w .empty (entry :: rest)).rest.length < (entry :: rest).length := by
  rw [formChunk] at hstop ⊢
  split at hstop
  · exact Nat.lt_succ_of_le (length_rest_formChunk _ _ _ _)
  · next hfull => exact absurd hfull (formEntry_first _ _ _)
  · cases hstop

/-- The outer loop of `drain_action_journal`, over the entries from index `i` on. -/
def drainFrom (w : DrainWorld) (node : String) (s : DrainRun) :
    List JournalEntry → Except DrainRun DrainRun
  | [] => .ok s
  | entry :: rest =>
    let f := s.formChunk w .empty (entry :: rest)
    match f.run.sendChunk w node f.chunk with
    | .error s => .error s
    -- A short ack ends the pass.
    | .ok (false, s) => .ok s
    | .ok (true, s) =>
      if _h : f.stop = true then .ok s.stopUnstable else drainFrom w node s f.rest
termination_by pending => pending.length
decreasing_by
  have hstop := Bool.eq_false_iff.mpr _h
  exact formChunk_progress w _ entry rest hstop

end DrainRun

/-- `drain_action_journal`; `error` where it returns one. -/
def drainActionJournal (w : DrainWorld) (e : SyncEngine) (j : ActionJournal) :
    Except DrainRun DrainRun :=
  DrainRun.drainFrom w e.nodeId ⟨0, e, j, [], .init⟩ j.snapshot

end ByteHive
