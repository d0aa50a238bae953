import ByteHive.Native.DrainReply
import ByteHive.Spec.JournalSeq

/-!
# Partial acknowledgements

A chunk is answered with one ack, short of the chunk when something in it failed. Where the
end of a large file finds chunks missing, the server asks for them first. After the
handshake this changes nothing; during the handshake the client takes the request for an
error and gives the session up.

Key results:
- `await_recvChunk`: what the client's waiting code makes of the replies to a chunk
- `drain_returns_iff`: when a drain returns, with the acknowledged entries gone
-/

namespace ByteHive

/-! ## Requests for chunks -/

/-- The end of a file of which chunks are missing. -/
def Short (e : SyncEngine) : Message → Prop
  | .largeFileEnd p _ => ∃ asm, e.inProgress.get p = some asm ∧ asm.receivedCount < asm.totalChunks
  | _ => False

theorem installLargeFile_ne_missing (h : Host) (e : SyncEngine) (p : PathBuf)
    (asm : LargeFileAssembly) (fh : Hash) (c : Content) (indices : List UInt32) :
    (e.installLargeFile h p asm fh c).1 ≠ some (.missingChunks indices) := by
  unfold SyncEngine.installLargeFile
  simp only
  split
  · simp
  · split <;> simp

theorem commitLargeFile_ne_missing (h : Host) (e : SyncEngine) (p : PathBuf) (fh : Hash)
    (indices : List UInt32) : (e.commitLargeFile h p fh).1 ≠ some (.missingChunks indices) := by
  unfold SyncEngine.commitLargeFile
  split
  · simp
  · simp only
    split
    · simp
    · split
      · simp
      · split
        · simp
        · split
          · simp
          · exact installLargeFile_ne_missing _ _ _ _ _ _ _

/-- Chunks are requested exactly for a file that is short of some. -/
theorem request_isSome_iff (h : Host) (e : SyncEngine) (clientId : String) (m : Message) :
    (applyClientAction h e clientId m).request.isSome = true ↔ Short e m := by
  have hnone : ∀ {P : Prop}, ¬ P → ((none : Option (PathBuf × List UInt32)).isSome = true ↔ P) := by
    intro P hP
    simp [hP]
  cases m with
  | largeFileEnd p fh =>
    simp only [applyClientAction, SyncEngine.handleRecvLargeFileEnd, Short]
    have hfin : (∃ indices, (e.finishLargeFile h p fh).1 = some (.missingChunks indices)) ↔
        ∃ asm, e.inProgress.get p = some asm ∧ asm.receivedCount < asm.totalChunks := by
      unfold SyncEngine.finishLargeFile
      cases hasm : e.inProgress.get p with
      | none => simp
      | some asm =>
        by_cases hlt : asm.receivedCount < asm.totalChunks
        · simp [hlt]
        · simp [hlt, commitLargeFile_ne_missing]
    rw [← hfin]
    split
    · next indices e' heq => simp [heq]
    · next r e' hne heq =>
      refine hnone ?_
      rintro ⟨indices, hmiss⟩
      rw [heq] at hmiss
      exact hne indices (Option.some.inj hmiss)
    · next e' heq => simp [heq]
  | bundle b =>
    simp only [applyClientAction, Short]
    split <;> simp
  | largeFileStart md n a =>
    simp only [applyClientAction, Short]
    split <;> simp
  | largeFileChunk p i data =>
    simp only [applyClientAction, Short]
    split <;> simp
  | delete ps t d => simp [applyClientAction, Short]
  | rename f g a =>
    simp only [applyClientAction, Short]
    split <;> simp
  | actionBatchEnd u => simp [applyClientAction, Short]
  | actionBatchAck u => simp [applyClientAction, Short]

/-- No end in the chunk is short when its turn comes. -/
def Complete (clientId : String) (s : ActionLoop) : List SentAction → Prop
  | [] => True
  | a :: rest => ¬ Short s.engine a.msg ∧ Complete clientId (s.recvAction a.host clientId a.msg).2 rest

theorem recvAction_replies (h : Host) (clientId : String) (s : ActionLoop) (m : Message) :
    ((s.recvAction h clientId m).1 = [] ↔ ¬ Short s.engine m) ∧
      ∀ r ∈ (s.recvAction h clientId m).1, ∃ p indices, r = .requestChunks p indices := by
  have hiff := request_isSome_iff h s.engine clientId m
  simp only [ActionLoop.recvAction]
  cases hreq : (applyClientAction h s.engine clientId m).request with
  | none =>
    rw [hreq] at hiff
    simpa using hiff
  | some x =>
    rw [hreq] at hiff
    simp only [Option.isSome_some, true_iff] at hiff
    simp [hiff]

/-- During the handshake nothing but requests comes back for the messages of a chunk. -/
theorem recvActions_handshake (clientId : String) (actions : List SentAction) (s : ActionLoop) :
    ((s.recvActions .handshake clientId actions).1 = [] ↔ Complete clientId s actions) ∧
      ∀ r ∈ (s.recvActions .handshake clientId actions).1, ∃ p indices,
        r = .requestChunks p indices := by
  induction actions generalizing s with
  | nil => exact ⟨by simp [ActionLoop.recvActions, Complete], (fun _ h => nomatch h)⟩
  | cons a rest ih =>
    obtain ⟨hone, hrequests⟩ := recvAction_replies a.host clientId s a.msg
    obtain ⟨hrest, hall⟩ := ih (s.recvAction a.host clientId a.msg).2
    simp only [ActionLoop.recvActions, DrainPhase.relayed, List.nil_append, List.append_eq_nil_iff,
      Complete, hone, hrest, true_and]
    intro r hr
    exact (List.mem_append.mp hr).elim (hrequests r) (hall r)

/-- No ack comes back before the chunk is closed. -/
theorem recvActions_no_ack (phase : DrainPhase) (clientId : String) (actions : List SentAction)
    (s : ActionLoop) :
    ∀ r ∈ (s.recvActions phase clientId actions).1, ∀ upto, r ≠ .actionBatchAck upto := by
  induction actions generalizing s with
  | nil => exact fun _ h => nomatch h
  | cons a rest ih =>
    intro r hr upto
    rcases List.mem_append.mp hr with hr | hr
    · rcases List.mem_append.mp hr with hr | hr
      · cases phase with
        | handshake => cases hr
        | live =>
          obtain ⟨m, -, rfl⟩ := List.mem_map.mp hr
          exact fun h => nomatch h
      · obtain ⟨p, indices, rfl⟩ := (recvAction_replies _ _ _ _).2 r hr
        exact fun h => nomatch h
    · exact ih _ r hr upto

/-! ## Waiting for the ack -/

/-- The ack of a chunk. -/
def ackOf (phase : DrainPhase) (clientId : String) (s : ActionLoop) (c : SentChunk) : Nat :=
  let s' := (s.recvActions phase clientId c.actions).2
  if s'.chunkFailed then s'.lastAcked else max c.upto s'.lastAcked

theorem await_recvChunk (phase : DrainPhase) (clientId : String) (s : ActionLoop) (c : SentChunk) :
    ((phase = .handshake → Complete clientId s c.actions) →
      phase.await (s.recvChunk phase clientId c).1 = some (ackOf phase clientId s c)) ∧
    (¬ (phase = .handshake → Complete clientId s c.actions) →
      phase.await (s.recvChunk phase clientId c).1 = none) := by
  cases phase with
  | handshake =>
    obtain ⟨hnil, hall⟩ := recvActions_handshake clientId c.actions s
    constructor
    · intro h
      simp [ActionLoop.recvChunk, hnil.mpr (h rfl), DrainPhase.await, ActionLoop.recvBatchEnd, ackOf]
    · intro h
      have hne : (s.recvActions .handshake clientId c.actions).1 ≠ [] :=
        fun hnone => h fun _ => hnil.mp hnone
      obtain ⟨r, rs, hrs⟩ := List.exists_cons_of_ne_nil hne
      obtain ⟨p, indices, rfl⟩ := hall r (by rw [hrs]; simp)
      simp [ActionLoop.recvChunk, hrs, DrainPhase.await]
  | live =>
    refine ⟨fun _ => ?_, fun h => absurd (fun h => nomatch h) h⟩
    simp only [ActionLoop.recvChunk, DrainPhase.await, List.findSome?_append]
    rw [List.findSome?_eq_none_iff.mpr]
    · rfl
    · intro r hr
      have hno := recvActions_no_ack .live clientId c.actions s r hr
      cases r with
      | actionBatchAck upto => exact absurd rfl (hno upto)
      | requestChunks p indices => rfl
      | relayed m => rfl

/-! ## The drain -/

/-- No end in the chunks that are sent is short. -/
def CompleteChunks (phase : DrainPhase) (clientId : String) (s : ActionLoop) :
    List SentChunk → Prop
  | [] => True
  | c :: rest => Complete clientId s c.actions ∧
      (c.upto ≤ ackOf phase clientId s c →
        CompleteChunks phase clientId (s.recvChunk phase clientId c).2 rest)

/-- What the server acknowledges: the acks of the chunks up to a short one. -/
def acknowledged (phase : DrainPhase) (clientId : String) (s : ActionLoop) :
    List SentChunk → Nat
  | [] => 0
  | c :: rest =>
    max (min (ackOf phase clientId s c) c.upto)
      (if c.upto ≤ ackOf phase clientId s c then
        acknowledged phase clientId (s.recvChunk phase clientId c).2 rest else 0)

/-- An ack that can be written. -/
theorem ack_ok {j : ActionJournal} (hj : j.Sequenced) {h : Host}
    (hok : ∀ n, h.fails (.appendJournal n) = false) (upto : Nat) :
    ∃ j', j.ack h upto = (true, j') ∧ j'.Sequenced ∧
      ∀ q, j'.state.entries.get q = if q ≤ upto then none else j.state.entries.get q := by
  obtain ⟨hseq, -, hget, -⟩ := ActionJournal.ack_spec hj h upto
  have htrue : (j.ack h upto).1 = true := by
    unfold ActionJournal.ack
    split
    · rfl
    · simp [ActionJournal.appendLine, hok]
  exact ⟨(j.ack h upto).2, Prod.ext htrue rfl, hseq, (hget htrue).2⟩

/-- A drain returns, with exactly the acknowledged entries gone, unless it is in the handshake and
    the end of a file that is short of chunks is sent. -/
theorem drain_returns_iff (phase : DrainPhase) (clientId : String) (s : ActionLoop)
    (j : ActionJournal) (hj : j.Sequenced) (chunks : List SentChunk)
    (hok : ∀ c ∈ chunks, ∀ n, c.clientHost.fails (.appendJournal n) = false) :
    (∃ s' j', drainChunks phase clientId s j chunks = some (s', j') ∧
      ∀ q, j'.state.entries.get q =
        if q ≤ acknowledged phase clientId s chunks then none else j.state.entries.get q) ↔
    (phase = .handshake → CompleteChunks phase clientId s chunks) := by
  induction chunks generalizing s j with
  | nil =>
    refine ⟨fun _ _ => trivial, fun _ => ⟨s, j, rfl, fun q => ?_⟩⟩
    -- No entry has seq zero.
    simp only [acknowledged, Nat.le_zero]
    split
    · next hq =>
      cases hget : j.state.entries.get q with
      | none => rfl
      | some e =>
        have := (hj.state.entry q e hget).2.1
        omega
    · rfl
  | cons c rest ih =>
    obtain ⟨hsome, hnone⟩ := await_recvChunk phase clientId s c
    by_cases hcomplete : phase = .handshake → Complete clientId s c.actions
    · set ack := ackOf phase clientId s c with hack
      obtain ⟨j₁, hj₁, hseq₁, hget₁⟩ := ack_ok hj (hok c (by simp)) (min ack c.upto)
      have hrest : ∀ c' ∈ rest, ∀ n, c'.clientHost.fails (.appendJournal n) = false :=
        fun c' hc' => hok c' (by simp [hc'])
      by_cases hfull : c.upto ≤ ack
      · -- The chunk is acknowledged in whole and the drain goes on.
        have hstep : drainChunks phase clientId s j (c :: rest) =
            drainChunks phase clientId (s.recvChunk phase clientId c).2 j₁ rest := by
          have hlt : ¬ min ack c.upto < c.upto := by omega
          simp only [drainChunks, hsome hcomplete, hj₁, hlt, if_false]
        rw [hstep]
        have hcond : (phase = .handshake → CompleteChunks phase clientId s (c :: rest)) ↔
            (phase = .handshake →
              CompleteChunks phase clientId (s.recvChunk phase clientId c).2 rest) := by
          simp only [CompleteChunks, ← hack, hfull, true_implies]
          exact ⟨fun h hp => (h hp).2, fun h hp => ⟨hcomplete hp, h hp⟩⟩
        rw [hcond, ← ih (s.recvChunk phase clientId c).2 j₁ hseq₁ hrest]
        refine exists_congr fun s' => exists_congr fun j' => and_congr_right fun _ => ?_
        refine forall_congr' fun q => ?_
        simp only [acknowledged, ← hack, hfull, if_true, hget₁, le_max_iff]
        by_cases h₁ : q ≤ min ack c.upto <;>
          by_cases h₂ : q ≤ acknowledged phase clientId (s.recvChunk phase clientId c).2 rest <;>
          simp [h₁, h₂]
      · -- A short ack ends the pass.
        have hstep : drainChunks phase clientId s j (c :: rest) =
            some ((s.recvChunk phase clientId c).2, j₁) := by
          have hlt : min ack c.upto < c.upto := by omega
          simp only [drainChunks, hsome hcomplete, hj₁, hlt, if_true]
        refine ⟨fun _ hp => ⟨hcomplete hp, fun h => absurd h hfull⟩, fun _ => ?_⟩
        refine ⟨_, j₁, hstep, fun q => ?_⟩
        rw [hget₁]
        simp only [acknowledged, ← hack, hfull, if_false, Nat.max_zero]
    · have hstep : drainChunks phase clientId s j (c :: rest) = none := by
        simp only [drainChunks, hnone hcomplete]
      rw [hstep]
      constructor
      · rintro ⟨s', j', h, -⟩
        cases h
      · intro h
        exact absurd (fun hp => (h hp).1) hcomplete

/-- A file of two blocks that shrinks to a byte while it is streamed. -/
private def shrunkFile : SentChunk :=
  let h : Host := .reliable (fun _ => 0) 1000
  let sent (m : Message) : SentAction := ⟨m, h, []⟩
  { actions := [sent (.largeFileStart ⟨.ofNames ["a"], fileChunkSize + 1, 0, 5, 0, false⟩ 2 (some 5)),
      sent (.largeFileChunk (.ofNames ["a"]) 0 [1]), sent (.largeFileEnd (.ofNames ["a"]) 0)]
    upto := 1, host := h, clientHost := h }

private def emptyLoop : ActionLoop := ⟨.new "server" (fun _ => false) .empty .new, 0, false⟩

/-- The journal with the upsert of the file. -/
private def oneUpsert : ActionJournal :=
  (ActionJournal.upsert (.reliable (fun _ => 0) 1000) ⟨.init, []⟩ (.ofNames ["a"]) 5).2

private theorem sequenced_oneUpsert : oneUpsert.Sequenced := by
  have hfresh : (⟨.init, []⟩ : ActionJournal).Sequenced :=
    ⟨JournalState.sequenced_init, (fun _ h => nomatch h)⟩
  exact (hfresh.append _ _ _ _).1

theorem drain_returns_iff_live :
    ∃ s' j', drainChunks .live "client" emptyLoop oneUpsert [shrunkFile] = some (s', j') ∧
      ∀ q, j'.state.entries.get q =
        if q ≤ acknowledged .live "client" emptyLoop [shrunkFile] then none
        else oneUpsert.state.entries.get q := by
  have hok : ∀ c ∈ [shrunkFile], ∀ n, c.clientHost.fails (.appendJournal n) = false := by
    intro c hc n
    rw [List.mem_singleton.mp hc]
    rfl
  exact (drain_returns_iff .live "client" emptyLoop oneUpsert sequenced_oneUpsert [shrunkFile]
    hok).mpr (fun h => nomatch h)

/-- In the handshake the request for the missing chunk ends the drain. -/
theorem drain_aborts_on_short_file :
    ¬ ∃ s' j', drainChunks .handshake "client" emptyLoop oneUpsert [shrunkFile] = some (s', j') ∧
      ∀ q, j'.state.entries.get q =
        if q ≤ acknowledged .handshake "client" emptyLoop [shrunkFile] then none
        else oneUpsert.state.entries.get q := by
  have hnone : (drainChunks .handshake "client" emptyLoop oneUpsert [shrunkFile]).isNone = true := by
    decide +kernel
  rintro ⟨s', j', hsome, -⟩
  rw [hsome] at hnone
  cases hnone

end ByteHive
