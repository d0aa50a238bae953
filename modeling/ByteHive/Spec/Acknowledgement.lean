import ByteHive.ForStd.Run
import ByteHive.Native.Drain
import ByteHive.Spec.JournalSeq

/-!
# What an acknowledgement covers

In every run of the drain protocol an entry leaves the journal by an acknowledgement only
together with the batch it was streamed in, and only when the server has applied every
message of that batch.

The invariant has to describe what is in flight. `account` says how the server will count
the frames on their way: an `ActionBatchEnd` and the two markers start a new count, and the
initial sync counts nothing.

Key results:
- `recvFrame_account`: the server counts as `account` says.
- `inv_step`: the invariant of the protocol.
- `acked_entry_was_applied`: what an acknowledgement takes out of the journal.
-/

namespace ByteHive

/-! ## Frames in flight -/

/-- The frame closes a batch. -/
def Frame.isBatchEnd : Frame → Bool
  | .msg (.actionBatchEnd _) => true
  | _ => false

/-- The frame is a message that closes no batch. -/
def Frame.isPlain : Frame → Bool
  | .msg (.actionBatchEnd _) => false
  | .msg _ => true
  | _ => false

theorem Frame.isBatchEnd_of_isPlain {f : Frame} (h : f.isPlain = true) : f.isBatchEnd = false := by
  cases f with
  | manifestExchange => rfl
  | syncComplete => rfl
  | msg m => cases m <;> first | rfl | cases h

namespace Link

/-- How one frame changes the server's phase and the list of messages it counts for the
    next acknowledgement. -/
def account (s : LinkPhase × List Message) : Frame → LinkPhase × List Message
  | .manifestExchange => if s.1 = .draining then (.initial, []) else s
  | .syncComplete => if s.1 = .initial then (.live, []) else s
  | .msg (.actionBatchEnd _) => if s.1 = .initial then s else (s.1, [])
  | .msg m => if s.1 = .initial then s else (s.1, s.2 ++ [m])

/-- The server's phase and the messages it has counted. -/
def counted (l : Link) : LinkPhase × List Message := (l.serverPhase, l.current.map (·.1))

/-- The same once the frames have arrived. -/
def ahead (l : Link) (frames : List Frame) : LinkPhase × List Message :=
  frames.foldl account l.counted

theorem account_plain {f : Frame} (h : f.isPlain = true) (s : LinkPhase × List Message) :
    (account s f).1 = s.1 ∧ s.2.Sublist (account s f).2 := by
  unfold Frame.isPlain at h
  split at h
  · contradiction
  · next m hm =>
    have : account s (.msg m) = if s.1 = .initial then s else (s.1, s.2 ++ [m]) := by
      cases m <;> first | rfl | exact absurd rfl (hm _)
    rw [this]
    split
    · exact ⟨rfl, List.Sublist.refl _⟩
    · exact ⟨rfl, List.sublist_append_left _ _⟩
  · contradiction

/-- Messages that are sent keep the phase and only add to the count. -/
theorem foldl_account_plain {fs : List Frame} (h : ∀ f ∈ fs, f.isPlain = true)
    (s : LinkPhase × List Message) :
    (fs.foldl account s).1 = s.1 ∧ s.2.Sublist (fs.foldl account s).2 := by
  induction fs generalizing s with
  | nil => exact ⟨rfl, List.Sublist.refl _⟩
  | cons f fs ih =>
    rw [List.forall_mem_cons] at h
    obtain ⟨hphase, hsub⟩ := account_plain h.1 s
    obtain ⟨hphase', hsub'⟩ := ih h.2 (account s f)
    exact ⟨hphase'.trans hphase, hsub.trans hsub'⟩

/-- Streamed messages are counted, all of them and in order. -/
theorem foldl_account_msgs {ms : List Message} (h : ∀ m ∈ ms, ∀ u, m ≠ .actionBatchEnd u)
    {s : LinkPhase × List Message} (hs : s.1 ≠ .initial) :
    (ms.map Frame.msg).foldl account s = (s.1, s.2 ++ ms) := by
  induction ms generalizing s with
  | nil => simp
  | cons m ms ih =>
    rw [List.forall_mem_cons] at h
    have hm : account s (.msg m) = (s.1, s.2 ++ [m]) := by
      cases m <;> first | exact if_neg hs | exact absurd rfl (h.1 _)
    have hs' : ((s.1, s.2 ++ [m]) : LinkPhase × List Message).1 ≠ .initial := hs
    rw [List.map_cons, List.foldl_cons, hm, ih h.2 hs']
    simp

/-- The server counts as `account` says. -/
theorem recvFrame_account {h : Host} {id : String} {l l' : Link} {server e : SyncEngine}
    {f : Frame} (hrecv : l.recvFrame h id server f = (some l', e)) :
    l'.counted = account l.counted f ∧ l'.clientPhase = l.clientPhase ∧
      l'.toServer = l.toServer := by
  cases f with
  | manifestExchange =>
    simp only [recvFrame] at hrecv
    split at hrecv <;> cases hrecv
    · next hphase => exact ⟨(if_pos hphase).symm, rfl, rfl⟩
    · next hphase => exact ⟨(if_neg hphase).symm, rfl, rfl⟩
  | syncComplete =>
    simp only [recvFrame] at hrecv
    split at hrecv <;> cases hrecv
    · next hphase => exact ⟨(if_pos hphase).symm, rfl, rfl⟩
    · next hphase => exact ⟨(if_neg hphase).symm, rfl, rfl⟩
  | msg m =>
    cases m with
    | actionBatchEnd upto =>
      simp only [recvFrame] at hrecv
      split at hrecv <;> cases hrecv
      · next hphase => exact ⟨(if_pos hphase).symm, rfl, rfl⟩
      · next hphase => exact ⟨(if_neg hphase).symm, rfl, rfl⟩
    | _ =>
      simp only [recvFrame] at hrecv
      split at hrecv <;> obtain ⟨hl, -⟩ := Prod.mk.inj hrecv
      · next hphase =>
        split at hl
        · obtain rfl := Option.some.inj hl
          exact ⟨(if_pos hphase).symm, rfl, rfl⟩
        · cases hl
      · next hphase =>
        obtain rfl := Option.some.inj hl
        refine ⟨?_, rfl, rfl⟩
        rw [counted, recvResult, List.map_append]
        exact (if_neg hphase).symm

/-- The flag says whether one of the counted messages failed. -/
def FlagOk (l : Link) : Prop := l.chunkFailed = l.current.any fun r => !r.2

/-- What a frame that closes no batch leaves alone. -/
theorem recvFrame_keeps {h : Host} {id : String} {l l' : Link} {server e : SyncEngine} {f : Frame}
    (hf : f.isBatchEnd = false) (hrecv : l.recvFrame h id server f = (some l', e)) :
    l'.toClient = l.toClient ∧ l'.lastAcked ≤ l.lastAcked ∧ (l.FlagOk → l'.FlagOk) := by
  cases f with
  | manifestExchange =>
    simp only [recvFrame] at hrecv
    split at hrecv <;> cases hrecv
    · exact ⟨rfl, Nat.zero_le _, fun _ => rfl⟩
    · exact ⟨rfl, Nat.le_refl _, fun h => h⟩
  | syncComplete =>
    simp only [recvFrame] at hrecv
    split at hrecv <;> cases hrecv
    · exact ⟨rfl, Nat.zero_le _, fun _ => rfl⟩
    · exact ⟨rfl, Nat.le_refl _, fun h => h⟩
  | msg m =>
    cases m with
    | actionBatchEnd upto => cases hf
    | _ =>
      simp only [recvFrame] at hrecv
      split at hrecv <;> obtain ⟨hl, -⟩ := Prod.mk.inj hrecv
      · split at hl
        · obtain rfl := Option.some.inj hl
          exact ⟨rfl, Nat.le_refl _, fun h => h⟩
        · cases hl
      · obtain rfl := Option.some.inj hl
        refine ⟨rfl, Nat.le_refl _, fun hflag => ?_⟩
        simp only [FlagOk, recvResult, List.any_append, List.any_cons, List.any_nil, Bool.or_false]
        rw [hflag]

/-- A plain message changes the count at most. -/
theorem recvFrame_plain {h : Host} {id : String} {l l' : Link} {server e : SyncEngine} {f : Frame}
    (hf : f.isPlain = true) (hrecv : l.recvFrame h id server f = (some l', e)) :
    l'.lastAcked = l.lastAcked ∧ l'.lastBatch = l.lastBatch ∧ l'.serverPhase = l.serverPhase := by
  cases f with
  | manifestExchange => cases hf
  | syncComplete => cases hf
  | msg m =>
    cases m with
    | actionBatchEnd upto => cases hf
    | _ =>
      simp only [recvFrame] at hrecv
      split at hrecv <;> obtain ⟨hl, -⟩ := Prod.mk.inj hrecv
      · split at hl
        · obtain rfl := Option.some.inj hl
          exact ⟨rfl, rfl, rfl⟩
        · cases hl
      · obtain rfl := Option.some.inj hl
        exact ⟨rfl, rfl, rfl⟩

/-- The server closes a batch outside the initial sync. -/
theorem recvFrame_batchEnd {l : Link} (h : Host) (id : String) (server : SyncEngine) (upto : Nat)
    (hphase : l.serverPhase ≠ .initial) :
    l.recvFrame h id server (.msg (.actionBatchEnd upto)) =
      (some (l.recvBatchEnd upto), server.flushLedger h) := by
  simp only [recvFrame]

end Link

/-! ## The invariant -/

/-- The sequence numbers of a pass that are not acknowledged yet, in order. -/
def Batch.seqs (b : Batch) : List Nat := b.chunk.decided.map (·.1.seq) ++ b.rest.map (·.seq)

/-- What holds of a pass and the journal: the pass has its entries in order, and the journal
    has no entry from before the snapshot beside them. -/
structure BatchInv (st : JournalState) (b : Batch) : Prop where
  sorted : b.seqs.Pairwise (· < ·)
  lt_horizon : ∀ s ∈ b.seqs, s < b.horizon
  horizon_le : b.horizon ≤ st.nextSeq
  covers : ∀ s, (st.entries.get s).isSome → s < b.horizon → s ∈ b.seqs

/-- Nothing that the server counts as acknowledged is in the journal. -/
def NothingAcked (st : JournalState) (l : Link) : Prop :=
  ∀ s, (st.entries.get s).isSome → l.lastAcked < s

/-- No batch is closed and not answered. -/
structure Quiet (l : Link) : Prop where
  toClient : l.toClient = []
  noEnd : ∀ f ∈ l.toServer, f.isBatchEnd = false
  phase : (l.ahead l.toServer).1 = l.clientPhase

/-- A pass with a chunk that is not closed yet. -/
structure Open (st : JournalState) (l : Link) (b : Batch) : Prop where
  quiet : Quiet l
  nothingAcked : NothingAcked st l
  batch : BatchInv st b
  above : ∀ s ∈ b.seqs, l.lastAcked < s
  phase : l.clientPhase ≠ .initial

/-- The `ActionBatchEnd` is on its way, behind the streamed messages. -/
structure InFlight (st : JournalState) (l : Link) (upto : Nat) (streamed : List Message) :
    Prop where
  toClient : l.toClient = []
  nothingAcked : NothingAcked st l
  lastAcked_lt : l.lastAcked < upto
  frames : ∃ xs ys, l.toServer = xs ++ .msg (.actionBatchEnd upto) :: ys ∧
    (∀ f ∈ xs, f.isBatchEnd = false) ∧ (∀ f ∈ ys, f.isPlain = true) ∧
    (l.ahead xs).1 = l.clientPhase ∧ streamed.Sublist (l.ahead xs).2

/-- The server has answered with `got`: with the end of the batch, all of which it has
    applied, or with less, and then nothing up to `got` is in the journal. -/
structure Answered (st : JournalState) (l : Link) (upto : Nat) (streamed : List Message)
    (got : Nat) : Prop where
  toClient : l.toClient = [got]
  plain : ∀ f ∈ l.toServer, f.isPlain = true
  phase : l.serverPhase = l.clientPhase
  lastAcked : l.lastAcked = got
  result : (got = upto ∧ streamed.Sublist (l.lastBatch.map (·.1)) ∧ ∀ r ∈ l.lastBatch, r.2 = true) ∨
    (got < upto ∧ NothingAcked st l)

def PassInv (st : JournalState) (l : Link) : Pass → Prop
  | .idle => Quiet l ∧ NothingAcked st l
  | .forming b => Open st l b
  | .streaming b _ _ streamed => Open st l b ∧ streamed.Sublist (l.ahead l.toServer).2
  | .awaiting b _ upto streamed => BatchInv st b ∧ b.chunk.upto = some upto ∧
      l.clientPhase ≠ .initial ∧
      (InFlight st l upto streamed ∨ ∃ got, Answered st l upto streamed got)

structure LinkInv (st : JournalState) (pass : Pass) (l : Link) : Prop where
  flag : l.FlagOk
  lastAcked_lt : l.lastAcked < st.nextSeq
  pass : PassInv st l pass

namespace DrainSystem

structure Inv (σ : DrainSystem) : Prop where
  journal : σ.journal.Sequenced
  link : ∀ l, σ.link = some l → LinkInv σ.journal.state σ.pass l
  idle : σ.link = none → σ.pass = .idle

end DrainSystem

/-! ### User actions -/

theorem NothingAcked.grows {st st' : JournalState} {l : Link} (h : NothingAcked st l)
    (hlt : l.lastAcked < st.nextSeq) (hg : st.Grows st') : NothingAcked st' l := by
  intro s hs
  rcases hg.isSome s hs with hs | hs
  · exact h s hs
  · omega

theorem BatchInv.grows {st st' : JournalState} {b : Batch} (h : BatchInv st b)
    (hg : st.Grows st') : BatchInv st' b := by
  refine ⟨h.sorted, h.lt_horizon, h.horizon_le.trans hg.nextSeq_le, fun s hs hlt => ?_⟩
  rcases hg.isSome s hs with hs | hs
  · exact h.covers s hs hlt
  · have := h.horizon_le
    omega

/-- New entries lie behind everything the pass and the server know of. -/
theorem LinkInv.grows {st st' : JournalState} {pass : Pass} {l : Link} (h : LinkInv st pass l)
    (hg : st.Grows st') : LinkInv st' pass l := by
  have hlt := h.lastAcked_lt
  have hnothing : NothingAcked st l → NothingAcked st' l := fun hn => hn.grows hlt hg
  have hopen : ∀ b, Open st l b → Open st' l b := fun b ho =>
    ⟨ho.quiet, hnothing ho.nothingAcked, ho.batch.grows hg, ho.above, ho.phase⟩
  refine ⟨h.flag, lt_of_lt_of_le hlt hg.nextSeq_le, ?_⟩
  have hpass := h.pass
  cases pass with
  | idle => exact ⟨hpass.1, hnothing hpass.2⟩
  | forming b => exact hopen b hpass
  | streaming b stop wires streamed => exact ⟨hopen b hpass.1, hpass.2⟩
  | awaiting b stop upto streamed =>
    obtain ⟨hb, hupto, hphase, hwhere⟩ := hpass
    refine ⟨hb.grows hg, hupto, hphase, ?_⟩
    rcases hwhere with hf | ⟨got, ha⟩
    · exact .inl ⟨hf.toClient, hnothing hf.nothingAcked, hf.lastAcked_lt, hf.frames⟩
    · refine .inr ⟨got, ha.toClient, ha.plain, ha.phase, ha.lastAcked, ?_⟩
      exact ha.result.imp_right fun hr => ⟨hr.1, hnothing hr.2⟩

/-! ### The client sends -/

theorem ahead_append (l : Link) (xs ys : List Frame) :
    l.ahead (xs ++ ys) = ys.foldl Link.account (l.ahead xs) := List.foldl_append

/-- The link with more frames on their way to the server. -/
def Link.sending (l : Link) (fs : List Frame) : Link := { l with toServer := l.toServer ++ fs }

theorem Quiet.sending {l : Link} (h : Quiet l) {fs : List Frame}
    (hfs : ∀ f ∈ fs, f.isPlain = true) : Quiet (l.sending fs) := by
  refine ⟨h.toClient, fun f hf => ?_, ?_⟩
  · rcases List.mem_append.mp hf with hf | hf
    · exact h.noEnd f hf
    · exact Frame.isBatchEnd_of_isPlain (hfs f hf)
  · have := (Link.foldl_account_plain hfs (l.ahead l.toServer)).1
    rw [← ahead_append] at this
    exact this.trans h.phase

theorem Open.sending {st : JournalState} {l : Link} {b : Batch} (h : Open st l b)
    {fs : List Frame} (hfs : ∀ f ∈ fs, f.isPlain = true) : Open st (l.sending fs) b :=
  ⟨h.quiet.sending hfs, h.nothingAcked, h.batch, h.above, h.phase⟩

/-- Messages of other threads join the batch or wait behind it. -/
theorem LinkInv.sending {st : JournalState} {pass : Pass} {l : Link} (h : LinkInv st pass l)
    {fs : List Frame} (hfs : ∀ f ∈ fs, f.isPlain = true) : LinkInv st pass (l.sending fs) := by
  refine ⟨h.flag, h.lastAcked_lt, ?_⟩
  have hpass := h.pass
  cases pass with
  | idle => exact ⟨hpass.1.sending hfs, hpass.2⟩
  | forming b => exact Open.sending hpass hfs
  | streaming b stop wires streamed =>
    refine ⟨hpass.1.sending hfs, hpass.2.trans ?_⟩
    have := (Link.foldl_account_plain hfs (l.ahead l.toServer)).2
    rw [← ahead_append] at this
    exact this
  | awaiting b stop upto streamed =>
    obtain ⟨hb, hupto, hphase, hwhere⟩ := hpass
    refine ⟨hb, hupto, hphase, ?_⟩
    rcases hwhere with hf | ⟨got, ha⟩
    · obtain ⟨xs, ys, hto, hxs, hys, hrest⟩ := hf.frames
      refine .inl ⟨hf.toClient, hf.nothingAcked, hf.lastAcked_lt, xs, ys ++ fs, ?_, hxs, ?_, hrest⟩
      · show l.toServer ++ fs = _
        rw [hto]
        simp
      · exact fun f hf => (List.mem_append.mp hf).elim (hys f) (hfs f)
    · refine .inr ⟨got, ha.toClient, fun f hf => ?_, ha.phase, ha.lastAcked, ha.result⟩
      exact (List.mem_append.mp hf).elim (ha.plain f) (hfs f)

theorem isPlain_msg {m : Message} (h : ∀ u, m ≠ .actionBatchEnd u) :
    (Frame.msg m).isPlain = true := by
  cases m <;> first | rfl | exact absurd rfl (h _)

/-- A segment of the chunk is sent. -/
theorem Open.streaming {st : JournalState} {l : Link} {b : Batch} {streamed ms : List Message}
    (h : Open st l b) (hsub : streamed.Sublist (l.ahead l.toServer).2)
    (hms : ∀ m ∈ ms, ∀ u, m ≠ .actionBatchEnd u) :
    Open st (l.sending (ms.map .msg)) b ∧
      (streamed ++ ms).Sublist ((l.sending (ms.map .msg)).ahead (l.sending (ms.map .msg)).toServer).2 := by
  have hphase : (l.ahead l.toServer).1 ≠ .initial := h.quiet.phase ▸ h.phase
  have hfold : (l.sending (ms.map .msg)).ahead (l.sending (ms.map .msg)).toServer =
      ((l.ahead l.toServer).1, (l.ahead l.toServer).2 ++ ms) := by
    rw [← Link.foldl_account_msgs hms hphase]
    exact ahead_append l l.toServer _
  refine ⟨h.sending fun f hf => ?_, ?_⟩
  · obtain ⟨m, hm, rfl⟩ := List.mem_map.mp hf
    exact isPlain_msg (hms m hm)
  · rw [hfold]
    exact hsub.append (List.Sublist.refl ms)

theorem upto_mem {c : Chunk} {upto : Nat} (h : c.upto = some upto) :
    ∃ pre x, c.decided = pre ++ [x] ∧ x.1.seq = upto := by
  obtain ⟨x, hx, hseq⟩ := Option.map_eq_some_iff.mp h
  obtain ⟨pre, hpre⟩ := List.getLast?_eq_some_iff.mp hx
  exact ⟨pre, x, hpre, hseq⟩

/-- The chunk is closed. -/
theorem Open.batchEnd {st : JournalState} {l : Link} {b : Batch} {streamed : List Message}
    {upto : Nat} (h : Open st l b) (hsub : streamed.Sublist (l.ahead l.toServer).2)
    (hupto : b.chunk.upto = some upto) :
    InFlight st (l.sending [.msg (.actionBatchEnd upto)]) upto streamed := by
  have hmem : upto ∈ b.seqs := by
    obtain ⟨pre, x, hdec, hseq⟩ := upto_mem hupto
    simp [Batch.seqs, hdec, hseq]
  refine ⟨h.quiet.toClient, h.nothingAcked, h.above upto hmem, l.toServer, [], rfl, h.quiet.noEnd,
    by simp, h.quiet.phase, hsub⟩

/-- The marker between two phases. -/
theorem Quiet.marker {l : Link} (h : Quiet l) {f : Frame} {phase : LinkPhase}
    (hf : f.isBatchEnd = false) (haccount : (Link.account (l.ahead l.toServer) f).1 = phase) :
    Quiet ({ l with clientPhase := phase }.sending [f]) := by
  refine ⟨h.toClient, fun g hg => ?_, ?_⟩
  · rcases List.mem_append.mp hg with hg | hg
    · exact h.noEnd g hg
    · rw [List.mem_singleton.mp hg]
      exact hf
  · show (l.ahead (l.toServer ++ [f])).1 = phase
    rw [ahead_append]
    exact haccount

/-! ### The server receives -/

theorem Quiet.recv {l l' : Link} {h : Host} {id : String} {server e : SyncEngine} {f : Frame}
    {fs : List Frame} (hq : Quiet l) (hto : l.toServer = f :: fs)
    (hrecv : { l with toServer := fs }.recvFrame h id server f = (some l', e)) :
    Quiet l' ∧ l'.lastAcked ≤ l.lastAcked ∧ l'.clientPhase = l.clientPhase ∧
      (l.FlagOk → l'.FlagOk) ∧ l'.ahead l'.toServer = l.ahead l.toServer := by
  have hf : f.isBatchEnd = false := hq.noEnd f (by simp [hto])
  obtain ⟨hcount, hphase, hserver⟩ := Link.recvFrame_account hrecv
  obtain ⟨hclient, hacked, hflag⟩ := Link.recvFrame_keeps hf hrecv
  have hahead : l'.ahead l'.toServer = l.ahead l.toServer := by
    rw [Link.ahead, hcount, hserver, Link.ahead, hto]
    rfl
  refine ⟨⟨hclient.trans hq.toClient, fun g hg => ?_, ?_⟩, hacked, hphase, hflag, hahead⟩
  · rw [hserver] at hg
    exact hq.noEnd g (by rw [hto]; exact List.mem_cons_of_mem f hg)
  · rw [hahead, hphase]
    exact hq.phase

/-- The server takes a frame while no batch is closed. -/
theorem Open.recv {st : JournalState} {l l' : Link} {b : Batch} {h : Host} {id : String}
    {server e : SyncEngine} {f : Frame} {fs : List Frame} (ho : Open st l b)
    (hto : l.toServer = f :: fs)
    (hrecv : { l with toServer := fs }.recvFrame h id server f = (some l', e)) : Open st l' b := by
  obtain ⟨hq, hacked, hphase, -, -⟩ := ho.quiet.recv hto hrecv
  exact ⟨hq, fun s hs => lt_of_le_of_lt hacked (ho.nothingAcked s hs), ho.batch,
    fun s hs => lt_of_le_of_lt hacked (ho.above s hs), hphase ▸ ho.phase⟩

/-- The server takes a frame while the end of the batch is on its way: one before it, or the
    end itself, which it answers. -/
theorem InFlight.recv {st : JournalState} {l l' : Link} {upto : Nat} {streamed : List Message}
    {h : Host} {id : String} {server e : SyncEngine} {f : Frame} {fs : List Frame}
    (hi : InFlight st l upto streamed) (hflag : l.FlagOk) (hphase : l.clientPhase ≠ .initial)
    (hto : l.toServer = f :: fs)
    (hrecv : { l with toServer := fs }.recvFrame h id server f = (some l', e)) :
    (l'.FlagOk ∧ l'.clientPhase = l.clientPhase ∧ l'.lastAcked ≤ max l.lastAcked upto) ∧
      (InFlight st l' upto streamed ∨ ∃ got, Answered st l' upto streamed got) := by
  obtain ⟨xs, ys, hsplit, hxs, hys, hahead, hsub⟩ := hi.frames
  obtain ⟨hcount, hclient, hserver⟩ := Link.recvFrame_account hrecv
  rw [hto] at hsplit
  cases xs with
  | cons x xs =>
    obtain ⟨rfl, rfl⟩ := List.cons.inj hsplit
    rw [List.forall_mem_cons] at hxs
    obtain ⟨htoClient, hacked, hflag'⟩ := Link.recvFrame_keeps hxs.1 hrecv
    have hahead' : l'.ahead xs = l.ahead (f :: xs) := by
      rw [Link.ahead, hcount]
      rfl
    refine ⟨⟨hflag' hflag, hclient, hacked.trans (Nat.le_max_left _ _)⟩,
      .inl ⟨htoClient.trans hi.toClient, fun s hs => lt_of_le_of_lt hacked (hi.nothingAcked s hs),
        lt_of_le_of_lt hacked hi.lastAcked_lt, xs, ys, hserver, hxs.2, hys, ?_, ?_⟩⟩
    · rw [hahead', hclient]
      exact hahead
    · rw [hahead']
      exact hsub
  | nil =>
    obtain ⟨rfl, rfl⟩ := List.cons.inj hsplit
    -- All messages of the batch are counted: the answer depends on the flag alone.
    have hserverPhase : l.serverPhase = l.clientPhase := hahead
    have hlt := hi.lastAcked_lt
    rw [Link.recvFrame_batchEnd h id server upto (by rw [hserverPhase]; exact hphase)] at hrecv
    obtain rfl := Option.some.inj (Prod.mk.inj hrecv).1
    refine ⟨⟨rfl, rfl, ?_⟩, .inr ?_⟩
    · simp only [Link.recvBatchEnd]
      split
      · exact Nat.le_max_left _ _
      · omega
    · cases hfailed : l.chunkFailed with
      | true =>
        refine ⟨l.lastAcked, ?_, hys, hserverPhase, ?_, .inr ⟨hlt, fun s hs => ?_⟩⟩
        · simp [Link.recvBatchEnd, hi.toClient]
        · simp [Link.recvBatchEnd]
        · simpa [Link.recvBatchEnd, hfailed] using hi.nothingAcked s hs
      | false =>
        have hmax : max upto l.lastAcked = upto := by omega
        refine ⟨upto, ?_, hys, hserverPhase, ?_, .inl ⟨rfl, hsub, fun r hr => ?_⟩⟩
        · simp [Link.recvBatchEnd, hi.toClient, hmax]
        · simp [Link.recvBatchEnd, hmax]
        · rw [Link.FlagOk, hfailed] at hflag
          have := List.any_eq_false.mp hflag.symm r hr
          simpa using this

/-- The answer is on its way; the server takes messages that came behind the batch. -/
theorem Answered.recv {st : JournalState} {l l' : Link} {upto got : Nat}
    {streamed : List Message} {h : Host} {id : String} {server e : SyncEngine} {f : Frame}
    {fs : List Frame} (ha : Answered st l upto streamed got) (hto : l.toServer = f :: fs)
    (hrecv : { l with toServer := fs }.recvFrame h id server f = (some l', e)) :
    (l.FlagOk → l'.FlagOk) ∧ l'.clientPhase = l.clientPhase ∧ l'.lastAcked = l.lastAcked ∧
      Answered st l' upto streamed got := by
  have hf : f.isPlain = true := ha.plain f (by simp [hto])
  obtain ⟨hacked, hbatch, hphase⟩ := Link.recvFrame_plain hf hrecv
  obtain ⟨htoClient, -, hflag⟩ := Link.recvFrame_keeps (Frame.isBatchEnd_of_isPlain hf) hrecv
  obtain ⟨-, hclient, hserver⟩ := Link.recvFrame_account hrecv
  refine ⟨hflag, hclient, hacked, htoClient.trans ha.toClient, fun g hg => ?_, ?_,
    hacked.trans ha.lastAcked, ?_⟩
  · rw [hserver] at hg
    exact ha.plain g (by rw [hto]; exact List.mem_cons_of_mem f hg)
  · rw [hphase, hclient]
    exact ha.phase
  · rw [hbatch]
    refine ha.result.imp_right fun hr => ⟨hr.1, fun s hs => ?_⟩
    rw [hacked]
    exact hr.2 s hs

/-- The server takes a frame. -/
theorem LinkInv.recv {st : JournalState} {pass : Pass} {l l' : Link} {h : Host} {id : String}
    {server e : SyncEngine} {f : Frame} {fs : List Frame} (hl : LinkInv st pass l)
    (hto : l.toServer = f :: fs)
    (hrecv : { l with toServer := fs }.recvFrame h id server f = (some l', e)) :
    LinkInv st pass l' := by
  have hlt := hl.lastAcked_lt
  have hpass := hl.pass
  -- Outside of `awaiting` no batch is closed.
  have hquiet : Quiet l → (PassInv st l' pass) → LinkInv st pass l' := fun hq hpass' => by
    obtain ⟨-, hacked, -, hflag, -⟩ := hq.recv hto hrecv
    exact ⟨hflag hl.flag, by omega, hpass'⟩
  cases pass with
  | idle =>
    obtain ⟨hq, hacked, -, -, -⟩ := hpass.1.recv hto hrecv
    exact hquiet hpass.1 ⟨hq, fun s hs => lt_of_le_of_lt hacked (hpass.2 s hs)⟩
  | forming b => exact hquiet (Open.quiet hpass) (Open.recv hpass hto hrecv)
  | streaming b stop wires streamed =>
    obtain ⟨-, -, -, -, hahead⟩ := hpass.1.quiet.recv hto hrecv
    exact hquiet hpass.1.quiet ⟨hpass.1.recv hto hrecv, by rw [hahead]; exact hpass.2⟩
  | awaiting b stop upto streamed =>
    obtain ⟨hb, hupto, hphase, hwhere⟩ := hpass
    rcases hwhere with hf | ⟨got, ha⟩
    · obtain ⟨⟨hflag, hclient, hacked⟩, hwhere'⟩ := hf.recv hl.flag hphase hto hrecv
      have hupto_lt : upto < st.nextSeq := by
        obtain ⟨pre, x, hdec, hseq⟩ := upto_mem hupto
        exact lt_of_lt_of_le (hb.lt_horizon upto (by simp [Batch.seqs, hdec, hseq])) hb.horizon_le
      exact ⟨hflag, by omega, hb, hupto, hclient ▸ hphase, hwhere'⟩
    · obtain ⟨hflag, hclient, hacked, ha'⟩ := ha.recv hto hrecv
      exact ⟨hflag hl.flag, by omega, hb, hupto, hclient ▸ hphase, .inr ⟨got, ha'⟩⟩

/-! ### Chunks -/

/-- A pass is known by its sequence numbers. -/
theorem Open.congr {st : JournalState} {l : Link} {b b' : Batch} (h : Open st l b)
    (hseqs : b'.seqs = b.seqs) (hhorizon : b'.horizon = b.horizon) : Open st l b' := by
  refine ⟨h.quiet, h.nothingAcked, ?_, hseqs ▸ h.above, h.phase⟩
  constructor
  · exact hseqs ▸ h.batch.sorted
  · rw [hseqs, hhorizon]
    exact h.batch.lt_horizon
  · exact hhorizon ▸ h.batch.horizon_le
  · rw [hseqs, hhorizon]
    exact h.batch.covers

theorem Open.afterChunk {st : JournalState} {l : Link} {b : Batch}
    (h : Open st l { b with chunk := .empty }) (stop : Bool) :
    PassInv st l (DrainSystem.afterChunk b stop) := by
  unfold DrainSystem.afterChunk
  split
  · exact ⟨h.quiet, h.nothingAcked⟩
  · exact h

theorem Open.chunkFormed {st : JournalState} {l : Link} {b : Batch} (h : Open st l b)
    (stop : Bool) : PassInv st l (DrainSystem.chunkFormed b stop) := by
  unfold DrainSystem.chunkFormed
  split
  · next hempty =>
    refine Open.afterChunk (h.congr ?_ rfl) stop
    simp [Batch.seqs, hempty, Chunk.empty]
  · exact ⟨h, List.nil_sublist _⟩

theorem formEntry_next {h : Host} {e e' : SyncEngine} {c c' : Chunk} {entry : JournalEntry}
    (hform : formEntry h e c entry = .next c' e') : ∃ w size, c' = c.push entry w size := by
  unfold formEntry at hform
  simp only at hform
  split at hform
  · cases hform
  · split at hform
    · cases hform
    · split at hform
      · cases hform
        exact ⟨_, _, rfl⟩
      · cases hform
        exact ⟨_, _, rfl⟩
      · cases hform

/-- The snapshot of the journal, as the pass sees it. -/
theorem map_seq_values {st : JournalState} (hst : st.Sequenced) :
    st.entries.values.map (·.seq) = st.entries.keys := by
  unfold OrdMap.values OrdMap.keys
  rw [List.map_map]
  refine List.map_congr_left fun x hx => ?_
  exact (hst.entry x.1 x.2 (OrdMap.get_eq_some_iff.mpr hx)).1

theorem Open.start {st : JournalState} {l : Link} (hst : st.Sequenced) (hq : Quiet l)
    (hnothing : NothingAcked st l) (hphase : l.clientPhase ≠ .initial) :
    Open st l ⟨st.nextSeq, .empty, st.entries.values⟩ := by
  have hseqs : (⟨st.nextSeq, .empty, st.entries.values⟩ : Batch).seqs = st.entries.keys :=
    map_seq_values hst
  have hmem : ∀ s ∈ st.entries.keys, ∃ e, st.entries.get s = some e := by
    intro s hs
    obtain ⟨x, hx, rfl⟩ := List.mem_map.mp hs
    exact ⟨x.2, OrdMap.get_eq_some_iff.mpr hx⟩
  refine ⟨hq, hnothing, ?_, fun s hs => ?_, hphase⟩
  · constructor
    · rw [hseqs]
      exact List.pairwise_map.mpr st.entries.sorted
    · intro s hs
      obtain ⟨e, he⟩ := hmem s (hseqs ▸ hs)
      exact (hst.entry s e he).2.2
    · exact Nat.le_refl _
    · intro s hs _
      rw [hseqs]
      by_contra hnot
      rw [OrdMap.get_eq_none_iff.mpr hnot] at hs
      cases hs
  · obtain ⟨e, he⟩ := hmem s (hseqs ▸ hs)
    exact hnothing s (by rw [he]; rfl)

/-- The end of a chunk divides the numbers of the pass. -/
theorem BatchInv.upto_spec {st : JournalState} {b : Batch} {upto : Nat} (h : BatchInv st b)
    (hupto : b.chunk.upto = some upto) :
    upto < b.horizon ∧ (∀ s ∈ b.seqs, s ≤ upto → s ∈ b.chunk.decided.map (·.1.seq)) ∧
      ∀ e ∈ b.rest, upto < e.seq := by
  obtain ⟨pre, x, hdec, hseq⟩ := upto_mem hupto
  have hmem : upto ∈ b.chunk.decided.map (·.1.seq) := by simp [hdec, hseq]
  have hrest : ∀ e ∈ b.rest, upto < e.seq := fun e he =>
    (List.pairwise_append.mp h.sorted).2.2 upto hmem e.seq (List.mem_map.mpr ⟨e, he, rfl⟩)
  refine ⟨h.lt_horizon upto (List.mem_append.mpr (.inl hmem)), fun s hs hle => ?_, hrest⟩
  rcases List.mem_append.mp hs with hs | hs
  · exact hs
  · obtain ⟨e, he, rfl⟩ := List.mem_map.mp hs
    have := hrest e he
    omega

/-! ### Acknowledgements -/

/-- The journal after an acknowledgement of the whole batch is the one the next chunk starts
    from. -/
theorem LinkInv.acked {st st' : JournalState} {b : Batch} {stop : Bool} {upto : Nat}
    {streamed : List Message} {l : Link} (hl : LinkInv st (.awaiting b stop upto streamed) l)
    (ha : Answered st l upto streamed upto) (hnext : st.nextSeq ≤ st'.nextSeq)
    (hget : ∀ s, st'.entries.get s = if s ≤ upto then none else st.entries.get s) :
    LinkInv st' (DrainSystem.afterChunk b stop) { l with toClient := [] } := by
  obtain ⟨hb, hupto, hphase, -⟩ := hl.pass
  obtain ⟨-, -, hrest⟩ := hb.upto_spec hupto
  -- What is left in the journal lies behind the batch.
  have hleft : ∀ s, (st'.entries.get s).isSome → upto < s ∧ (st.entries.get s).isSome := by
    intro s hs
    rw [hget] at hs
    split at hs
    · cases hs
    · exact ⟨by omega, hs⟩
  have hquiet : Quiet { l with toClient := [] } := by
    refine ⟨rfl, fun f hf => Frame.isBatchEnd_of_isPlain (ha.plain f hf), ?_⟩
    have := (Link.foldl_account_plain ha.plain l.counted).1
    exact this.trans ha.phase
  have hacked : l.lastAcked = upto := ha.lastAcked
  refine ⟨hl.flag, lt_of_lt_of_le hl.lastAcked_lt hnext, Open.afterChunk ⟨hquiet, ?_, ?_, ?_, hphase⟩ stop⟩
  · intro s hs
    show l.lastAcked < s
    rw [hacked]
    exact (hleft s hs).1
  · have hsub : (b.rest.map (·.seq)).Sublist b.seqs := List.sublist_append_right _ _
    refine ⟨hb.sorted.sublist hsub, fun s hs => hb.lt_horizon s (hsub.subset hs),
      hb.horizon_le.trans hnext, fun s hs hlt => ?_⟩
    obtain ⟨hgt, hold⟩ := hleft s hs
    rcases List.mem_append.mp (hb.covers s hold hlt) with hmem | hmem
    · -- A number of the chunk is not beyond its end.
      obtain ⟨pre, x, hdec, hseq⟩ := upto_mem hupto
      have hsorted := (List.pairwise_append.mp hb.sorted).1
      rw [hdec, List.map_append, List.pairwise_append] at hsorted
      rw [hdec, List.map_append, List.mem_append] at hmem
      rcases hmem with hmem | hmem
      · have := hsorted.2.2 s hmem x.1.seq (by simp)
        omega
      · have : s = x.1.seq := by simpa using hmem
        omega
    · exact hmem
  · intro s hs
    show l.lastAcked < s
    obtain ⟨e, he, rfl⟩ := List.mem_map.mp hs
    rw [hacked]
    exact hrest e he

/-- A short acknowledgement finds nothing to take out. -/
theorem LinkInv.shortAcked {st st' : JournalState} {b : Batch} {stop : Bool} {upto got : Nat}
    {streamed : List Message} {l : Link} (hl : LinkInv st (.awaiting b stop upto streamed) l)
    (ha : Answered st l upto streamed got) (hnothing : NothingAcked st l)
    (hnext : st.nextSeq ≤ st'.nextSeq)
    (hget : ∀ s, st'.entries.get s = if s ≤ got then none else st.entries.get s) :
    LinkInv st' .idle { l with toClient := [] } := by
  refine ⟨hl.flag, lt_of_lt_of_le hl.lastAcked_lt hnext, ⟨rfl, fun f hf =>
    Frame.isBatchEnd_of_isPlain (ha.plain f hf), ?_⟩, fun s hs => hnothing s ?_⟩
  · exact (Link.foldl_account_plain ha.plain l.counted).1.trans ha.phase
  · rw [hget] at hs
    split at hs
    · cases hs
    · exact hs

/-! ### Streaming -/

/-- The bundler sends no `ActionBatchEnd`. -/
theorem streamPath_sent {h : Host} {t : Tree} {stamp : PathBuf → Nat → Option Nat}
    {s : BundlerRun} (rel : PathBuf) (hs : ∀ m ∈ s.sent, ∀ u, m ≠ .actionBatchEnd u) :
    ∀ m ∈ (s.streamPath h t stamp rel).sent, ∀ u, m ≠ .actionBatchEnd u := by
  have hflush : ∀ m ∈ s.flushBundle.sent, ∀ u, m ≠ .actionBatchEnd u := by
    unfold BundlerRun.flushBundle
    split
    · exact hs
    · simpa [or_imp, forall_and] using hs
  have hseq : ∀ s' : BundlerRun, (s'.changeSequence rel).2.sent = s'.sent := by
    intro s'
    unfold BundlerRun.changeSequence
    split <;> rfl
  unfold BundlerRun.streamPath
  split
  · exact hs
  · simpa [hseq] using hs
  · split
    · unfold BundlerRun.streamLargeFile
      split
      · exact hflush
      · simp only [hseq, List.mem_append, List.mem_map, List.mem_singleton]
        rintro m (((hm | rfl) | ⟨x, -, rfl⟩) | rfl) u
        · exact hflush m hm u
        · simp
        · simp
        · simp
    · split
      · exact hs
      · simp only [hseq]
        split
        · exact hflush
        · exact hs

theorem streamUpserts_not_batchEnd (h : Host) (t : Tree) (run : List (PathBuf × Nat)) (id : Nat) :
    ∀ m ∈ streamUpserts h t run id, ∀ u, m ≠ .actionBatchEnd u := by
  have hfold : ∀ (paths : List PathBuf) (stamp : PathBuf → Nat → Option Nat) (s : BundlerRun),
      (∀ m ∈ s.sent, ∀ u, m ≠ .actionBatchEnd u) →
      ∀ m ∈ (paths.foldl (BundlerRun.streamPath h t stamp) s).sent, ∀ u, m ≠ .actionBatchEnd u := by
    intro paths stamp
    induction paths with
    | nil => exact fun _ hs => hs
    | cons p paths ih => exact fun s hs => ih _ (streamPath_sent p hs)
  intro m hm u
  unfold streamUpserts streamMessages BundlerRun.flushBundle at hm
  have hsent := hfold (run.map (·.1)) (fun rel _ => runStamp run rel) ⟨[], 0, [], id, none⟩ (by simp)
  split at hm
  · exact hsent m hm u
  · rcases List.mem_append.mp hm with hm | hm
    · exact hsent m hm u
    · rw [List.mem_singleton.mp hm]
      simp

theorem streamSegment_not_batchEnd (h : Host) (t : Tree) (node : String) (id : Nat)
    (run : List (PathBuf × Nat)) (wires : List Wire) :
    ∀ m ∈ (streamSegment h t node id run wires).1, ∀ u, m ≠ .actionBatchEnd u := by
  induction wires generalizing run with
  | nil => exact streamUpserts_not_batchEnd h t run id
  | cons w wires ih =>
    cases w with
    | upsert p a size => exact ih _
    | rename f g a =>
      intro m hm u
      rcases List.mem_append.mp hm with hm | hm
      · exact streamUpserts_not_batchEnd h t run id m hm u
      · rw [List.mem_singleton.mp hm]
        simp
    | delete p a =>
      intro m hm u
      rcases List.mem_append.mp hm with hm | hm
      · exact streamUpserts_not_batchEnd h t run id m hm u
      · rw [List.mem_singleton.mp hm]
        simp

/-! ### Runs -/

namespace DrainSystem

/-- Without a connection there is no pass. -/
theorem Inv.of_down {σ : DrainSystem} (hj : σ.journal.Sequenced) (hlink : σ.link = none)
    (hpass : σ.pass = .idle) : σ.Inv :=
  ⟨hj, fun l hl => (by rw [hlink] at hl; contradiction), fun _ => hpass⟩

/-- A new connection finds no pass under way. -/
theorem Inv.connect {σ σ' : DrainSystem} (hσ : σ.Inv)
    (h : σ.step .connect = some σ') : σ'.Inv := by
  simp only [step] at h
  split at h
  · next hnone =>
    obtain rfl := Option.some.inj h
    refine ⟨hσ.journal, fun l hl => ?_, fun h => nomatch h⟩
    obtain rfl := Option.some.inj hl
    have hidle := hσ.idle hnone
    refine ⟨rfl, hσ.journal.state.nextSeq_pos, ?_⟩
    show PassInv _ _ σ.pass
    rw [hidle]
    refine ⟨⟨rfl, by simp [Link.start], rfl⟩, fun s hs => ?_⟩
    obtain ⟨e, he⟩ := Option.isSome_iff_exists.mp hs
    exact (hσ.journal.state.entry s e he).2.1
  · contradiction

/-- A pass starts with no number sent. -/
theorem Inv.startPass {σ σ' : DrainSystem} (hσ : σ.Inv)
    (h : σ.step .startPass = some σ') : σ'.Inv := by
  simp only [step] at h
  split at h
  · next l hl hpass =>
    split at h
    · contradiction
    · next hphase =>
      obtain rfl := Option.some.inj h
      refine ⟨hσ.journal, fun l' hl' => ?_, fun hnone => by simp [hl] at hnone⟩
      obtain rfl : l = l' := Option.some.inj (hl.symm.trans hl')
      have hinv := hσ.link l hl
      have hidle := hinv.pass
      rw [hpass] at hidle
      exact ⟨hinv.flag, hinv.lastAcked_lt,
        Open.afterChunk (Open.start hσ.journal.state hidle.1 hidle.2 hphase) false⟩
  · contradiction

/-- Forming a chunk keeps the numbers of the pass. -/
theorem Inv.formNext {σ σ' : DrainSystem} {host : Host} (hσ : σ.Inv)
    (h : σ.step (.formNext host) = some σ') : σ'.Inv := by
  -- Each outcome keeps the numbers of the pass.
  have hlink : ∀ {b : Batch} {pass' : Pass}, σ.pass = .forming b →
      (∀ l, Open σ.journal.state l b → PassInv σ.journal.state l pass') →
      ∀ l, σ.link = some l → LinkInv σ.journal.state pass' l := fun {b pass'} hb hkeep l hl => by
    have hinv := hσ.link l hl
    have hopen := hinv.pass
    rw [hb] at hopen
    exact ⟨hinv.flag, hinv.lastAcked_lt, hkeep l hopen⟩
  have hsome : ∀ {b : Batch}, σ.pass = .forming b → σ.link ≠ none := fun {b} hb hnone => by
    rw [hσ.idle hnone] at hb
    cases hb
  simp only [step] at h
  split at h
  · next horizon c hpass =>
    obtain rfl := Option.some.inj h
    exact ⟨hσ.journal, hlink hpass fun l ho => ho.chunkFormed false, fun hnone =>
      absurd hnone (hsome hpass)⟩
  · next horizon c entry rest hpass =>
    split at h
    · next c' e' hform =>
      obtain rfl := Option.some.inj h
      obtain ⟨w, size, rfl⟩ := formEntry_next hform
      refine ⟨hσ.journal, hlink hpass fun l ho => ho.congr ?_ rfl, fun hnone =>
        absurd hnone (hsome hpass)⟩
      simp [Batch.seqs, Chunk.push]
    · obtain rfl := Option.some.inj h
      exact ⟨hσ.journal, hlink hpass fun l ho => ho.chunkFormed false, fun hnone =>
        absurd hnone (hsome hpass)⟩
    · obtain rfl := Option.some.inj h
      exact ⟨hσ.journal, hlink hpass fun l ho => ho.chunkFormed true, fun hnone =>
        absurd hnone (hsome hpass)⟩
  · contradiction

/-- What is streamed of a segment is no end of a batch. -/
theorem Inv.streamNext {σ σ' : DrainSystem} {host : Host} {id : Nat} (hσ : σ.Inv)
    (h : σ.step (.streamNext host id) = some σ') : σ'.Inv := by
  simp only [step] at h
  split at h
  · next l b stop wire wires streamed hl hpass =>
    obtain rfl := Option.some.inj h
    refine ⟨hσ.journal, fun l' hl' => ?_, fun hnone => nomatch hnone⟩
    obtain rfl := Option.some.inj hl'
    have hinv := hσ.link l hl
    have hopen := hinv.pass
    rw [hpass] at hopen
    exact ⟨hinv.flag, hinv.lastAcked_lt, hopen.1.streaming hopen.2
      (streamSegment_not_batchEnd host σ.client.tree σ.client.nodeId id [] (wire :: wires))⟩
  · contradiction

/-- The end of a batch carries the last number of it. -/
theorem Inv.sendBatchEnd {σ σ' : DrainSystem} {host : Host} (hσ : σ.Inv)
    (h : σ.step (.sendBatchEnd host) = some σ') : σ'.Inv := by
  simp only [step] at h
  split at h
  · next l b stop streamed hl hpass =>
    split at h
    · next upto hupto =>
      obtain rfl := Option.some.inj h
      refine ⟨hσ.journal, fun l' hl' => ?_, fun hnone => nomatch hnone⟩
      obtain rfl := Option.some.inj hl'
      have hinv := hσ.link l hl
      have hopen := hinv.pass
      rw [hpass] at hopen
      exact ⟨hinv.flag, hinv.lastAcked_lt, hopen.1.batch, hupto, hopen.1.phase,
        .inl (hopen.1.batchEnd hopen.2 hupto)⟩
    · contradiction
  · contradiction

/-- The manifest moves the connection on to the ledger, with no pass under way. -/
theorem Inv.sendManifest {σ σ' : DrainSystem} (hσ : σ.Inv)
    (h : σ.step .sendManifest = some σ') : σ'.Inv := by
  simp only [step] at h
  split at h
  · next l hl hpass =>
    split at h
    · next hphase =>
      obtain rfl := Option.some.inj h
      refine ⟨hσ.journal, fun l' hl' => ?_, fun hnone => nomatch hnone⟩
      obtain rfl := Option.some.inj hl'
      have hinv := hσ.link l hl
      have hidle := hinv.pass
      rw [hpass] at hidle
      refine ⟨hinv.flag, hinv.lastAcked_lt, ?_⟩
      show PassInv _ _ σ.pass
      rw [hpass]
      refine ⟨hidle.1.marker rfl ?_, hidle.2⟩
      simp [Link.account, hidle.1.phase, hphase]
    · contradiction
  · contradiction

/-- The end of the initial sync finds no pass under way. -/
theorem Inv.sendSyncComplete {σ σ' : DrainSystem} (hσ : σ.Inv)
    (h : σ.step .sendSyncComplete = some σ') : σ'.Inv := by
  simp only [step] at h
  split at h
  · next l hl =>
    split at h
    · next hphase =>
      obtain rfl := Option.some.inj h
      refine ⟨hσ.journal, fun l' hl' => ?_, fun hnone => nomatch hnone⟩
      obtain rfl := Option.some.inj hl'
      have hinv := hσ.link l hl
      refine ⟨hinv.flag, hinv.lastAcked_lt, ?_⟩
      show PassInv _ _ σ.pass
      -- No pass is under way in the initial sync.
      have hpass := hinv.pass
      cases hp : σ.pass with
      | idle =>
        rw [hp] at hpass
        refine ⟨hpass.1.marker rfl ?_, hpass.2⟩
        simp [Link.account, hpass.1.phase, hphase]
      | forming b =>
        rw [hp] at hpass
        exact absurd hphase hpass.phase
      | streaming b stop wires streamed =>
        rw [hp] at hpass
        exact absurd hphase hpass.1.phase
      | awaiting b stop upto streamed =>
        rw [hp] at hpass
        exact absurd hphase hpass.2.2.1
    · contradiction
  · contradiction

/-- The server reads the next message, or the connection is lost. -/
theorem Inv.serverRecv {σ σ' : DrainSystem} {host : Host} (hσ : σ.Inv)
    (h : σ.step (.serverRecv host) = some σ') : σ'.Inv := by
  simp only [step] at h
  split at h
  · next l hl =>
    split at h
    · next f fs hto =>
      split at h
      · next l' e hrecv =>
        obtain rfl := Option.some.inj h
        refine ⟨hσ.journal, fun l'' hl'' => ?_, fun hnone => nomatch hnone⟩
        obtain rfl := Option.some.inj hl''
        exact (hσ.link l hl).recv hto hrecv
      · obtain rfl := Option.some.inj h
        exact .of_down hσ.journal rfl rfl
    · contradiction
  · contradiction

/-- The client reads the answer to its batch and acknowledges what was taken. -/
theorem Inv.clientAck {σ σ' : DrainSystem} {host : Host} (hσ : σ.Inv)
    (h : σ.step (.clientAck host) = some σ') : σ'.Inv := by
  simp only [step] at h
  split at h
  · next l b stop upto streamed hl hpass =>
    split at h
    · next got acks htoClient =>
      have hspec := ActionJournal.ack_spec hσ.journal host (min got upto)
      have hinv := hσ.link l hl
      rw [hpass] at hinv
      split at h
      · next j hack =>
        obtain rfl := Option.some.inj h
        rw [hack] at hspec
        exact .of_down hspec.1 rfl rfl
      · next j hack =>
        obtain rfl := Option.some.inj h
        rw [hack] at hspec
        obtain ⟨hseq, hnext, htaken, -⟩ := hspec
        obtain ⟨-, hget⟩ := htaken rfl
        refine ⟨hseq, fun l' hl' => ?_, fun hnone => nomatch hnone⟩
        obtain rfl := Option.some.inj hl'
        obtain ⟨-, -, -, hf | ⟨got', ha⟩⟩ := hinv.pass
        · simp [hf.toClient] at htoClient
        · obtain ⟨rfl, rfl⟩ : got' = got ∧ [] = acks := by
            simpa [ha.toClient] using htoClient
          rcases ha.result with ⟨rfl, -⟩ | ⟨hlt, hnothing⟩
          · simp only [Nat.min_self, Nat.lt_irrefl, if_false] at hget ⊢
            exact hinv.acked ha hnext hget
          · rw [Nat.min_eq_left hlt.le] at hget ⊢
            rw [if_pos hlt]
            exact hinv.shortAcked ha hnothing hnext hget
    · contradiction
  · contradiction

theorem inv_step {σ σ' : DrainSystem} {ev : DrainEvent} (hσ : σ.Inv) (h : σ.step ev = some σ') :
    σ'.Inv := by
  -- The steps that change the journal or the link have their own lemmas above.
  cases ev with
  | user host call =>
    obtain rfl := Option.some.inj h
    obtain ⟨hseq, hgrows⟩ := hσ.journal.record host call
    exact ⟨hseq, fun l hl => (hσ.link l hl).grows hgrows, hσ.idle⟩
  | clientChange e =>
    obtain rfl := Option.some.inj h
    exact ⟨hσ.journal, hσ.link, hσ.idle⟩
  | serverChange e =>
    obtain rfl := Option.some.inj h
    exact ⟨hσ.journal, hσ.link, hσ.idle⟩
  | connect => exact hσ.connect h
  | disconnect =>
    obtain rfl := Option.some.inj h
    exact .of_down hσ.journal rfl rfl
  | restart host disk =>
    simp only [step] at h
    split at h
    · next hsub =>
      obtain rfl := Option.some.inj h
      exact .of_down (ActionJournal.sequenced_openJournal host fun line hline =>
        hσ.journal.disk line (hsub.subset hline)) rfl rfl
    · contradiction
  | startPass => exact hσ.startPass h
  | formNext host => exact hσ.formNext h
  | streamNext host id => exact hσ.streamNext h
  | sendBatchEnd host => exact hσ.sendBatchEnd h
  | sendOther m =>
    simp only [step] at h
    split at h
    · contradiction
    · contradiction
    · next m' l hl hm =>
      obtain rfl := Option.some.inj h
      refine ⟨hσ.journal, fun l' hl' => ?_, fun hnone => nomatch hnone⟩
      obtain rfl := Option.some.inj hl'
      refine (hσ.link l hl).sending fun f hf => ?_
      rw [List.mem_singleton.mp hf]
      exact isPlain_msg fun u hu => hm u hu
  | sendManifest => exact hσ.sendManifest h
  | sendSyncComplete => exact hσ.sendSyncComplete h
  | serverRecv host => exact hσ.serverRecv h
  | clientAck host => exact hσ.clientAck h

/-- No connection, and a journal that was opened on any file of records with positive
    sequence numbers. -/
def Fresh (σ : DrainSystem) : Prop :=
  σ.pass = .idle ∧ σ.link = none ∧
    ∃ h disk, (∀ line ∈ disk, line.Positive) ∧ σ.journal = .openJournal h disk

theorem Fresh.inv {σ : DrainSystem} (h : σ.Fresh) : σ.Inv := by
  obtain ⟨hpass, hlink, host, disk, hdisk, hj⟩ := h
  exact .of_down (hj ▸ ActionJournal.sequenced_openJournal host hdisk) hlink hpass

/-- In every run of the protocol, an entry that an acknowledgement takes out of the journal
    was in the snapshot of the pass, below `horizon`, and is one that `decide` has judged for
    the batch being closed; and the server has applied every message of that batch, the
    streamed ones among them, with a successful result. -/
theorem acked_entry_was_applied (σ₀ : DrainSystem) (hfresh : σ₀.Fresh) (evs : List DrainEvent)
    (σ σ' : DrainSystem) (host : Host) (hrun : Run.runFrom step σ₀ evs = some σ)
    (hack : σ.step (.clientAck host) = some σ') (seq : Nat)
    (hin : (σ.journal.state.entries.get seq).isSome)
    (hout : σ'.journal.state.entries.get seq = none) :
    ∃ l b stop upto streamed, σ.link = some l ∧ σ.pass = .awaiting b stop upto streamed ∧
      seq < b.horizon ∧ (∃ d ∈ b.chunk.decided, d.1.seq = seq) ∧
      streamed.Sublist (l.lastBatch.map (·.1)) ∧ ∀ r ∈ l.lastBatch, r.2 = true := by
  have hinv : σ.Inv :=
    Run.runFrom_invariant (P := Inv) (fun _ _ _ h hstep => inv_step h hstep) hfresh.inv hrun
  simp only [step] at hack
  split at hack
  · next l b stop upto streamed hl hpass =>
    split at hack
    · next got acks htoClient =>
      obtain ⟨-, -, htaken, hfailed⟩ := ActionJournal.ack_spec hinv.journal host (min got upto)
      have hpassInv := (hinv.link l hl).pass
      rw [hpass] at hpassInv
      obtain ⟨hb, hupto, -, hf | ⟨got', ha⟩⟩ := hpassInv
      · simp [hf.toClient] at htoClient
      · obtain ⟨rfl, -⟩ : got' = got ∧ [] = acks := by simpa [ha.toClient] using htoClient
        -- The entry is gone, so it lies below the acknowledged end.
        have hle : seq ≤ min got' upto := by
          split at hack
          · next j hj =>
            obtain rfl := Option.some.inj hack
            rw [hj] at hfailed
            rw [show j = σ.journal from hfailed rfl] at hout
            simp [hout] at hin
          · next j hj =>
            obtain rfl := Option.some.inj hack
            rw [hj] at htaken
            by_contra hgt
            rw [(htaken rfl).2 seq, if_neg hgt] at hout
            simp [hout] at hin
        obtain ⟨hlt, hmem, -⟩ := hb.upto_spec hupto
        have hseq : seq < b.horizon := by omega
        obtain ⟨d, hd, hdseq⟩ := List.mem_map.mp (hmem seq (hb.covers seq hin hseq) (by omega))
        rcases ha.result with ⟨rfl, hsub, hall⟩ | ⟨hshort, hnothing⟩
        · exact ⟨l, b, stop, got', streamed, hl, hpass, hseq, ⟨d, hd, hdseq⟩, hsub, hall⟩
        · have := hnothing seq hin
          have := ha.lastAcked
          omega
    · contradiction
  · contradiction

/-- A client whose journal holds one delete. -/
private def oneDelete : DrainSystem where
  client := .new "c" (fun _ => false) .empty .new
  journal := .openJournal (Host.reliable (fun _ => 0) 10) [.entry 1 "delete" (.ofNames ["f"]) none 5]
  pass := .idle
  server := .new "server" (fun _ => false) .empty .new
  link := none

private def drainOnce : List DrainEvent :=
  let h := Host.reliable (fun _ => 0) 10
  [.connect, .startPass, .formNext h, .formNext h, .streamNext h 0, .sendBatchEnd h, .serverRecv h,
    .serverRecv h]

theorem acked_delete_was_applied :
    ∃ σ l b stop upto streamed, Run.runFrom step oneDelete drainOnce = some σ ∧
      σ.link = some l ∧ σ.pass = .awaiting b stop upto streamed ∧
      1 < b.horizon ∧ (∃ d ∈ b.chunk.decided, d.1.seq = 1) ∧
      streamed.Sublist (l.lastBatch.map (·.1)) ∧ ∀ r ∈ l.lastBatch, r.2 = true := by
  have hobs : (Run.runFrom step oneDelete drainOnce).any fun σ =>
      (σ.step (.clientAck (Host.reliable (fun _ => 0) 10))).any fun σ' =>
        (σ.journal.state.entries.get 1).isSome ∧ σ'.journal.state.entries.get 1 = none := by
    decide +kernel
  simp only [Option.any_eq_true, decide_eq_true_eq] at hobs
  obtain ⟨σ, hσ, σ', hσ', hin, hout⟩ := hobs
  have hfresh : oneDelete.Fresh :=
    ⟨rfl, rfl, Host.reliable (fun _ => 0) 10, [.entry 1 "delete" (.ofNames ["f"]) none 5],
      by simp [JournalLine.Positive], rfl⟩
  obtain ⟨l, b, stop, upto, streamed, h⟩ :=
    acked_entry_was_applied oneDelete hfresh drainOnce σ σ' _ hσ hσ' 1 hin hout
  exact ⟨σ, l, b, stop, upto, streamed, hσ, h⟩

end DrainSystem

end ByteHive
