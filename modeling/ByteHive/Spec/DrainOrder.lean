import ByteHive.Native.DrainPass
import ByteHive.Spec.Acknowledgement
import ByteHive.Spec.StreamOrder

/-!
# The order of a pass

A pass of `drain_action_journal` divides what it delivers of its snapshot into consecutive runs.
Each run is decided entry by entry, its messages are those of its entries in the order of the
journal, and `ActionBatchEnd` closes it with the seq of its last entry. The inner loop is
described by `formChunk_spec`, what is sent for a chunk by `streamWires_spec` and `closeChunk_spec`;
the outer loop then is an induction over the entries that are left.

## Key results

- `formChunk_spec`: the chunk that is formed
- `streamWires_spec`: what is sent for it
- `drain_in_runs`: the whole pass
-/

namespace ByteHive

/-! ## Runs -/

/-- An entry when its turn has come: the host and the engine that it is decided with. -/
structure DrainItem where
  entry : JournalEntry
  host : Host
  engine : SyncEngine

namespace DrainItem

def size (i : DrainItem) : Nat := i.entry.wireSize i.host i.engine.tree

def decision (i : DrainItem) : Decision := (i.engine.decide i.host i.entry i.size).1

/-- What is sent for the entry. -/
def wire? (i : DrainItem) : Option Wire :=
  match i.decision with
  | .send wire => some wire
  | _ => none

end DrainItem

/-- Entries that are decided at consecutive turns, none of which stops the pass. -/
inductive Walk (w : DrainWorld) : Nat → SyncEngine → List DrainItem → Nat → SyncEngine → Prop where
  | nil {n : Nat} {e : SyncEngine} : Walk w n e [] n e
  | cons {n n' : Nat} {e e' : SyncEngine} {i : DrainItem} {items : List DrainItem}
      (hhost : i.host = w.host n) (hengine : i.engine = w.others n e) (hgoes : i.decision ≠ .stop)
      (hrest : Walk w (n + 1) (i.engine.decide i.host i.entry i.size).2 items n' e') :
      Walk w n e (i :: items) n' e'

/-- An upsert of a file that is still being written. -/
def Unstable (h : Host) (e : SyncEngine) (entry : JournalEntry) : Prop :=
  entry.op = .upsert ∧ e.tree.pathExists entry.path = true ∧ e.isFileStable h entry.path = false

/-- The messages of a run of upserts: those of `stream_upserts`. Where the files can be read, they
    deliver in order what exists of the paths. -/
def UpsertsCarried (run : List (PathBuf × Nat)) (ms : List Message) : Prop :=
  ∃ (h : Host) (t : Tree) (nextBundleId : Nat), ms = streamUpserts h t run nextBundleId ∧
    ((∀ p, h.fails (.read p) = false) →
      (∀ p c m, t.get p = some (.file c m) →
        (c.length + fileChunkSize - 1) / fileChunkSize < 2 ^ 32) →
      ∃ ds, readDeliveries none ms = some ds ∧
        DeliversAll h t (fun rel _ => runStamp run rel) (run.map (·.1)) ds)

/-- The messages are those of the wires, in their order. -/
inductive Carried (node : String) : List Wire → List Message → Prop where
  | nil : Carried node [] []
  | upserts {ups : List (PathBuf × Nat × Nat)} {wires : List Wire} {ms ms' : List Message}
      (hups : UpsertsCarried (ups.map fun u => (u.1, u.2.1)) ms) (hrest : Carried node wires ms') :
      Carried node ((ups.map fun u => .upsert u.1 u.2.1 u.2.2) ++ wires) (ms ++ ms')
  | rename {source target : PathBuf} {actionMs : Nat} {wires : List Wire} {ms : List Message}
      (hrest : Carried node wires ms) :
      Carried node (.rename source target actionMs :: wires)
        (.rename source target actionMs :: ms)
  | delete {path : PathBuf} {actionMs : Nat} {wires : List Wire} {ms : List Message}
      (hrest : Carried node wires ms) :
      Carried node (.delete path actionMs :: wires) (.delete [path] actionMs node :: ms)

/-- A run of entries that was sent and closed; it has at least one entry. -/
structure ClosedRun where
  init : List DrainItem
  last : DrainItem
  messages : List Message
  acked : Nat

namespace ClosedRun

def items (r : ClosedRun) : List DrainItem := r.init ++ [r.last]

def entries (r : ClosedRun) : List JournalEntry := r.items.map (·.entry)

def upto (r : ClosedRun) : Nat := r.last.entry.seq

/-- What is sent for the run. -/
def sent (r : ClosedRun) : List Message := r.messages ++ [.actionBatchEnd r.upto]

/-- The run is decided in turn, within its limits, its messages are those of its entries, and
    `acked` is what the peer has answered. -/
structure Sound (w : DrainWorld) (node : String) (r : ClosedRun) : Prop where
  decided : ∃ n e n' e', Walk w n e r.items n' e'
  few : r.items.length ≤ drainChunkMaxEntries
  small : (r.items.map (·.size)).sum ≤ bundleMaxBytes ∨ r.items.length = 1
  carried : Carried node (r.items.filterMap (·.wire?)) r.messages
  answered : ∃ n got, w.awaitAck n r.upto = some got ∧ r.acked = min got r.upto

end ClosedRun

/-- How a pass ends that has closed `runs` and has not got to `rest`. -/
inductive PassEnd (w : DrainWorld) (s : DrainRun) (runs : List ClosedRun)
    (rest : List JournalEntry) : Prop where
  /-- Everything is acknowledged, to the end or to an unstable file. -/
  | full (hacked : ∀ r ∈ runs, r.acked = r.upto) (hleft : s.journal.snapshot = rest)
      (hrest : rest = [] ∨ ∃ entry tail n e, rest = entry :: tail ∧
        Unstable (w.host n) (w.others n e) entry ∧ s.stats.stoppedUnstable = true)
  /-- The last run was acknowledged in part. -/
  | short {before : List ClosedRun} {r : ClosedRun} (hruns : runs = before ++ [r])
      (hacked : ∀ r' ∈ before, r'.acked = r'.upto) (hshort : r.acked < r.upto)
      (hleft : s.journal.snapshot = (r.entries.filter fun x => r.acked < x.seq) ++ rest)

/-! ## One chunk -/

theorem decide_stop {h : Host} {e : SyncEngine} {entry : JournalEntry} {size : Nat}
    (hstop : (e.decide h entry size).1 = .stop) : Unstable h e entry := by
  unfold SyncEngine.decide at hstop
  split at hstop
  · next hop =>
    split at hstop
    · cases hstop
    · next hexists =>
      split at hstop
      · next hstable => exact ⟨hop, by simpa using hexists, by simpa using hstable⟩
      · split at hstop <;> cases hstop
  · split at hstop
    · dsimp only at hstop
      split at hstop <;> cases hstop
    · cases hstop
  · split at hstop <;> cases hstop

/-- One round of the inner loop. -/
theorem formEntry_spec (h : Host) (e : SyncEngine) (c : Chunk) (entry : JournalEntry) :
    (c.decided.length < drainChunkMaxEntries ∧
      (c.decided.length = 0 ∨
        c.bytes + (DrainItem.mk entry h e).size ≤ bundleMaxBytes) ∧
      (DrainItem.mk entry h e).decision ≠ .stop ∧
      formEntry h e c entry =
        .next (c.push entry (DrainItem.mk entry h e).wire? (DrainItem.mk entry h e).size)
          (e.decide h entry (DrainItem.mk entry h e).size).2) ∨
    formEntry h e c entry = .full ∨
    (formEntry h e c entry = .stop ∧ Unstable h e entry) := by
  set i : DrainItem := ⟨entry, h, e⟩ with hi
  have hsize : entry.wireSize h e.tree = i.size := rfl
  have hdec : (e.decide h entry i.size).1 = i.decision := rfl
  unfold formEntry
  simp only [hsize]
  split
  · exact .inr (.inl rfl)
  · next hfew =>
    split
    · exact .inr (.inl rfl)
    · next hroom =>
      have hroom' : c.decided.length = 0 ∨ c.bytes + i.size ≤ bundleMaxBytes := by omega
      cases hd : e.decide h entry i.size with
      | mk d e' =>
        rw [hd] at hdec
        cases d with
        | send wire =>
          have hwire : i.wire? = some wire := by rw [DrainItem.wire?, ← hdec]
          exact .inl ⟨by omega, hroom', by rw [← hdec]; exact nofun, by rw [hwire]⟩
        | settled =>
          have hwire : i.wire? = none := by rw [DrainItem.wire?, ← hdec]
          exact .inl ⟨by omega, hroom', by rw [← hdec]; exact nofun, by rw [hwire]⟩
        | stop => exact .inr (.inr ⟨rfl, decide_stop (by rw [hd])⟩)

namespace DrainRun

/-- The chunk that the inner loop forms from `pending`, behind the entries it has already. -/
structure Forms (w : DrainWorld) (s : DrainRun) (c : Chunk) (pending : List JournalEntry)
    (f : ChunkFormed) (items : List DrainItem) : Prop where
  entries : pending = items.map (·.entry) ++ f.rest
  walk : ∃ n' e', Walk w s.clock s.engine items n' e'
  decided : f.chunk.decided = c.decided ++ items.map fun i => (i.entry, i.wire?)
  bytes : f.chunk.bytes = c.bytes + (items.map (·.size)).sum
  few : c.decided.length ≤ drainChunkMaxEntries → f.chunk.decided.length ≤ drainChunkMaxEntries
  small : (c.bytes ≤ bundleMaxBytes ∨ c.decided.length = 1) →
    f.chunk.bytes ≤ bundleMaxBytes ∨ f.chunk.decided.length = 1
  stopped : f.stop = true → ∃ entry tail n e, f.rest = entry :: tail ∧
    Unstable (w.host n) (w.others n e) entry
  journal : f.run.journal = s.journal
  sent : f.run.sent = s.sent

/-- The inner loop ends before the next entry. -/
theorem Forms.ends (w : DrainWorld) (s : DrainRun) (c : Chunk) (pending : List JournalEntry)
    (s' : DrainRun) (hjournal : s'.journal = s.journal) (hsent : s'.sent = s.sent) (stop : Bool)
    (hstop : stop = true → ∃ entry tail n e, pending = entry :: tail ∧
      Unstable (w.host n) (w.others n e) entry) :
    s.Forms w c pending ⟨s', c, stop, pending⟩ [] where
  entries := rfl
  walk := ⟨_, _, .nil⟩
  decided := by simp
  bytes := by simp
  few := id
  small := id
  stopped := hstop
  journal := hjournal
  sent := hsent

/-- One more entry at the front. -/
theorem Forms.cons {w : DrainWorld} {s : DrainRun} {c : Chunk} {entry : JournalEntry}
    {rest : List JournalEntry} {f : ChunkFormed} {items : List DrainItem} {i : DrainItem}
    (hi : i = ⟨entry, w.host s.clock, (s.turn w).engine⟩)
    (hfew : c.decided.length < drainChunkMaxEntries)
    (hroom : c.decided.length = 0 ∨ c.bytes + i.size ≤ bundleMaxBytes)
    (hgoes : i.decision ≠ .stop)
    (hf : { s.turn w with engine := (i.engine.decide i.host i.entry i.size).2 }.Forms w
      (c.push entry i.wire? i.size) rest f items) :
    s.Forms w c (entry :: rest) f (i :: items) := by
  have hentry : i.entry = entry := by rw [hi]
  obtain ⟨n', e', hwalk⟩ := hf.walk
  constructor
  · rw [List.map_cons, hentry, hf.entries]
    rfl
  · exact ⟨n', e', .cons (by rw [hi]) (by rw [hi]; rfl) hgoes hwalk⟩
  · rw [hf.decided, Chunk.push, List.map_cons, hentry, List.append_assoc]
    rfl
  · rw [hf.bytes, List.map_cons, List.sum_cons]
    show c.bytes + i.size + _ = _
    omega
  · intro _
    refine hf.few ?_
    rw [Chunk.push, List.length_append, List.length_singleton]
    omega
  · intro _
    refine hf.small ?_
    rcases hroom with hzero | hbytes
    · right
      rw [Chunk.push, List.length_append, List.length_singleton, hzero]
    · left
      exact hbytes
  · exact hf.stopped
  · exact hf.journal
  · exact hf.sent

/-- The inner loop takes entries from the front, in order, within the limits; it stops only at an
    unstable file. -/
theorem formChunk_spec (w : DrainWorld) (s : DrainRun) (c : Chunk) (pending : List JournalEntry) :
    ∃ items, s.Forms w c pending (s.formChunk w c pending) items := by
  induction pending generalizing s c with
  | nil => exact ⟨[], .ends w s c [] s rfl rfl false nofun⟩
  | cons entry rest ih =>
    rw [formChunk]
    rcases formEntry_spec (w.host s.clock) (s.turn w).engine c entry with
      ⟨hfew, hroom, hgoes, hform⟩ | hform | ⟨hform, hunstable⟩
    · rw [hform]
      obtain ⟨items, hitems⟩ := ih { s.turn w with engine := _ } _
      exact ⟨_, .cons rfl hfew hroom hgoes hitems⟩
    · rw [hform]
      exact ⟨[], .ends w s c _ (s.turn w) rfl rfl false nofun⟩
    · rw [hform]
      exact ⟨[], .ends w s c _ (s.turn w) rfl rfl true fun _ =>
        ⟨entry, rest, s.clock, s.engine, rfl, hunstable⟩⟩

/-! ## What is sent for a chunk -/

theorem bind_ok {ε α β : Type} {x : Except ε α} {f : α → Except ε β} {b : β}
    (h : (x >>= f) = .ok b) : ∃ a, x = .ok a ∧ f a = .ok b := by
  cases x with
  | error e => cases h
  | ok a => exact ⟨a, rfl, h⟩

/-- The run has sent `ms` and nothing else has happened to the journal. -/
structure Sends (s s' : DrainRun) (ms : List Message) : Prop where
  sent : s'.sent = s.sent ++ ms
  journal : s'.journal = s.journal

theorem Sends.trans {s s' s'' : DrainRun} {ms ms' : List Message} (h : s.Sends s' ms)
    (h' : s'.Sends s'' ms') : s.Sends s'' (ms ++ ms') :=
  ⟨by rw [h'.sent, h.sent, List.append_assoc], h'.journal.trans h.journal⟩

theorem send_sends {w : DrainWorld} {s s' : DrainRun} {m : Message} (h : s.send w m = .ok s') :
    s.Sends s' [m] := by
  unfold send at h
  simp only at h
  split at h
  · obtain rfl := Except.ok.inj h
    exact ⟨rfl, rfl⟩
  · cases h

theorem sendAll_sends {w : DrainWorld} {s s' : DrainRun} {ms : List Message}
    (h : s.sendAll w ms = .ok s') : s.Sends s' ms := by
  induction ms generalizing s with
  | nil =>
    obtain rfl := Except.ok.inj h
    exact ⟨(List.append_nil _).symm, rfl⟩
  | cons m ms ih =>
    obtain ⟨s₁, hsend, hrest⟩ := bind_ok h
    exact (send_sends hsend).trans (ih hrest)

/-- `stream_upserts` delivers what exists of the run, in order. -/
theorem upsertsCarried (h : Host) (t : Tree) (run : List (PathBuf × Nat)) (nextBundleId : Nat) :
    UpsertsCarried run (streamUpserts h t run nextBundleId) := by
  refine ⟨h, t, nextBundleId, rfl, fun hread hcount => ?_⟩
  have hloop : Streamed h t (fun rel _ => runStamp run rel) (run.map (·.1)) _ :=
    streamed_loop hread hcount _ nextBundleId none
  obtain ⟨ds, hds, hall⟩ := hloop.flush
  rw [flushBundle_cur, List.map_nil, List.append_nil] at hall
  exact ⟨ds, hds, hall⟩

theorem streamRun_sends {w : DrainWorld} {s s' : DrainRun} {run : List (PathBuf × Nat)}
    (h : s.streamRun w run = .ok s') : ∃ ms, s.Sends s' ms ∧ UpsertsCarried run ms := by
  have hsends := sendAll_sends h
  exact ⟨_, ⟨hsends.sent, hsends.journal⟩, upsertsCarried _ _ _ _⟩

/-- The messages of a chunk, behind a run of upserts that waits. -/
theorem streamWires_spec {w : DrainWorld} {node : String} {s s' : DrainRun}
    {run : List (PathBuf × Nat)} {wires : List Wire} (h : s.streamWires w node run wires = .ok s')
    (ups : List (PathBuf × Nat × Nat)) (hups : run = ups.map fun u => (u.1, u.2.1)) :
    ∃ ms, s.Sends s' ms ∧
      Carried node ((ups.map fun u => .upsert u.1 u.2.1 u.2.2) ++ wires) ms := by
  induction wires generalizing s run ups with
  | nil =>
    obtain ⟨ms, hsends, hcarried⟩ := streamRun_sends h
    rw [hups] at hcarried
    refine ⟨ms, hsends, ?_⟩
    have hall : Carried node _ (ms ++ []) := .upserts hcarried .nil
    rwa [List.append_nil ms] at hall
  | cons wire wires ih =>
    cases wire with
    | upsert p a size =>
      -- The upsert joins the run.
      obtain ⟨ms, hsends, hcarried⟩ := ih h (ups ++ [(p, a, size)]) (by simp [hups])
      refine ⟨ms, ⟨hsends.sent, hsends.journal⟩, ?_⟩
      simpa using hcarried
    | rename f g a =>
      obtain ⟨s₁, hrun, h⟩ := bind_ok h
      obtain ⟨s₂, hsend, h⟩ := bind_ok h
      obtain ⟨ms, hms, hcarried⟩ := streamRun_sends hrun
      obtain ⟨ms', hms', hrest⟩ := ih h [] rfl
      rw [hups] at hcarried
      exact ⟨_, hms.trans ((send_sends hsend).trans hms'), .upserts hcarried (.rename hrest)⟩
    | delete p a =>
      obtain ⟨s₁, hrun, h⟩ := bind_ok h
      obtain ⟨s₂, hsend, h⟩ := bind_ok h
      obtain ⟨ms, hms, hcarried⟩ := streamRun_sends hrun
      obtain ⟨ms', hms', hrest⟩ := ih h [] rfl
      rw [hups] at hcarried
      exact ⟨_, hms.trans ((send_sends hsend).trans hms'), .upserts hcarried (.delete hrest)⟩

end DrainRun

/-! ## Closing a chunk -/

/-- Every entry is stored under its own seq. -/
def JournalState.Keyed (st : JournalState) : Prop :=
  ∀ s e, st.entries.get s = some e → e.seq = s

theorem JournalState.Sequenced.keyed {st : JournalState} (hst : st.Sequenced) : st.Keyed :=
  fun s e hget => (hst.entry s e hget).1

theorem JournalState.Keyed.mem_toList {st : JournalState} (hst : st.Keyed)
    {x : Nat × JournalEntry} (hx : x ∈ st.entries.toList) : x.2.seq = x.1 :=
  hst x.1 x.2 (OrdMap.get_eq_some_iff.mpr hx)

namespace ActionJournal

theorem get_ack {j j' : ActionJournal} {h : Host} {upto : Nat} (hack : j.ack h upto = (true, j'))
    (s : Nat) : j'.state.entries.get s = if s ≤ upto then none else j.state.entries.get s := by
  unfold ack at hack
  split at hack
  · obtain ⟨-, rfl⟩ := Prod.mk.inj hack
    exact JournalState.get_ackLocal j.state upto s
  · split at hack
    · cases hack
    · next j₁ hj₁ =>
      obtain ⟨-, rfl⟩ := Prod.mk.inj hack
      unfold appendLine at hj₁
      split at hj₁
      · cases hj₁
      · obtain rfl := Option.some.inj hj₁
        rw [(maybeCompact_entries h _).1]
        exact JournalState.get_ackLocal _ upto s

/-- An acknowledgement leaves the entries behind it, in their order. -/
theorem snapshot_ack {j j' : ActionJournal} {h : Host} {upto : Nat}
    (hack : j.ack h upto = (true, j')) (hj : j.state.Keyed) :
    j'.state.Keyed ∧ j'.snapshot = j.snapshot.filter fun x => upto < x.seq := by
  have hget := get_ack hack
  constructor
  · intro s e hs
    rw [hget] at hs
    split at hs
    · cases hs
    · exact hj s e hs
  · have hlist : j'.state.entries.toList = j.state.entries.toList.filter fun x => upto < x.1 := by
      have hbind : ∀ k, j'.state.entries.get k =
          (j.state.entries.get k).bind fun e => if k ≤ upto then none else some e := by
        intro k
        rw [hget]
        cases j.state.entries.get k <;> simp
      rw [OrdMap.toList_eq_filterMap hbind, ← List.filterMap_eq_filter]
      refine List.filterMap_congr fun x _ => ?_
      by_cases hx : x.1 ≤ upto
      · simp [hx, Option.guard]
      · simp [hx, Option.guard, Nat.lt_of_not_le hx]
    show j'.state.entries.toList.map (·.2) = (j.state.entries.toList.map (·.2)).filter _
    rw [hlist, List.filter_map]
    refine congrArg (List.map _) (List.filter_congr fun x hx => ?_)
    simp [hj.mem_toList hx]

theorem sorted_snapshot {j : ActionJournal} (hj : j.state.Keyed) :
    j.snapshot.Pairwise fun a b => a.seq < b.seq := by
  show (j.state.entries.toList.map (·.2)).Pairwise _
  rw [List.pairwise_map]
  refine j.state.entries.sorted.imp_of_mem fun hx hy hlt => ?_
  rw [hj.mem_toList hx, hj.mem_toList hy]
  exact hlt

end ActionJournal

namespace DrainRun

/-- `ActionBatchEnd` and its ack. -/
theorem closeChunk_spec {w : DrainWorld} {s s' : DrainRun} {c : Chunk} {upto : Nat} {whole : Bool}
    (h : s.closeChunk w c upto = .ok (whole, s')) :
    ∃ n got host, w.awaitAck n upto = some got ∧ (whole = true ↔ upto ≤ min got upto) ∧
      s'.sent = s.sent ++ [.actionBatchEnd upto] ∧
      s.journal.ack host (min got upto) = (true, s'.journal) := by
  unfold closeChunk at h
  obtain ⟨s₁, hsend, h⟩ := bind_ok h
  have hsends := send_sends hsend
  split at h
  · cases h
  · next got hgot =>
    simp only at h
    split at h
    · cases h
    · next j hj =>
      obtain ⟨hwhole, rfl⟩ := Prod.mk.inj (Except.ok.inj h)
      rw [hsends.journal] at hj
      exact ⟨_, got, _, hgot, by rw [← hwhole, decide_eq_true_iff], hsends.sent, hj⟩

/-- A chunk that is not empty is sent as a run. -/
theorem sendChunk_spec {w : DrainWorld} {node : String} {s s' : DrainRun} {whole : Bool}
    {pending : List JournalEntry} {f : ChunkFormed} {items : List DrainItem}
    (hf : s.Forms w .empty pending f items)
    (h : f.run.sendChunk w node f.chunk = .ok (whole, s')) :
    (items = [] ∧ whole = true ∧ s' = f.run) ∨
    ∃ r : ClosedRun, r.items = items ∧ r.Sound w node ∧ s'.sent = s.sent ++ r.sent ∧
      (whole = true ↔ r.acked = r.upto) ∧ r.acked ≤ r.upto ∧
      ∃ host, s.journal.ack host r.acked = (true, s'.journal) := by
  have hdecided : f.chunk.decided = items.map fun i => (i.entry, i.wire?) := by
    rw [hf.decided, Chunk.empty, List.nil_append]
  unfold sendChunk at h
  rcases List.eq_nil_or_concat items with rfl | ⟨init, last, hitems⟩
  · have hupto : f.chunk.upto = none := by rw [Chunk.upto, hdecided]; rfl
    rw [hupto] at h
    obtain ⟨hwhole, rfl⟩ := Prod.mk.inj (Except.ok.inj h)
    exact .inl ⟨rfl, hwhole.symm, rfl⟩
  · right
    rw [List.concat_eq_append] at hitems
    subst hitems
    have hupto : f.chunk.upto = some last.entry.seq := by
      rw [Chunk.upto, hdecided]
      simp
    rw [hupto] at h
    obtain ⟨s₁, hstream, hclose⟩ := bind_ok h
    obtain ⟨ms, hsends, hcarried⟩ := streamWires_spec hstream [] rfl
    obtain ⟨n, got, host, hgot, hwhole, hsent, hack⟩ := closeChunk_spec hclose
    have hlen : f.chunk.decided.length = (init ++ [last]).length := by
      rw [hdecided, List.length_map]
    refine ⟨⟨init, last, ms, min got last.entry.seq⟩, rfl, ?_, ?_, ?_, ?_, host, ?_⟩
    · constructor
      · obtain ⟨n', e', hwalk⟩ := hf.walk
        exact ⟨s.clock, s.engine, n', e', hwalk⟩
      · show (init ++ [last]).length ≤ _
        rw [← hlen]
        exact hf.few (Nat.zero_le _)
      · show ((init ++ [last]).map (·.size)).sum ≤ _ ∨ (init ++ [last]).length = 1
        have hbytes : f.chunk.bytes = ((init ++ [last]).map (·.size)).sum := by
          rw [hf.bytes, Chunk.empty, Nat.zero_add]
        rw [← hlen, ← hbytes]
        exact hf.small (.inl (Nat.zero_le _))
      · have hwires : f.chunk.wires = (init ++ [last]).filterMap (·.wire?) := by
          rw [Chunk.wires, hdecided, List.filterMap_map]
          rfl
        rw [hwires] at hcarried
        exact hcarried
      · exact ⟨n, got, hgot, rfl⟩
    · rw [hsent, hsends.sent, hf.sent, List.append_assoc]
      rfl
    · show whole = true ↔ min got last.entry.seq = last.entry.seq
      rw [hwhole]
      omega
    · show min got last.entry.seq ≤ last.entry.seq
      omega
    · rw [hsends.journal, hf.journal] at hack
      exact hack

/-! ## The pass -/

/-- A pass that started with `sent` and the entries `pending`. -/
def InRuns (w : DrainWorld) (node : String) (sent : List Message) (pending : List JournalEntry)
    (s' : DrainRun) : Prop :=
  ∃ runs rest, pending = runs.flatMap ClosedRun.entries ++ rest ∧
    s'.sent = sent ++ runs.flatMap ClosedRun.sent ∧ (∀ r ∈ runs, r.Sound w node) ∧
    PassEnd w s' runs rest

/-- A run that is acknowledged in whole comes before the others. -/
theorem InRuns.cons {w : DrainWorld} {node : String} {sent : List Message}
    {rest : List JournalEntry} {s' : DrainRun} {r : ClosedRun} (hr : r.Sound w node)
    (hacked : r.acked = r.upto) (h : InRuns w node (sent ++ r.sent) rest s') :
    InRuns w node sent (r.entries ++ rest) s' := by
  obtain ⟨runs, rest', hrest, hsent, hsound, hend⟩ := h
  refine ⟨r :: runs, rest', ?_, ?_, ?_, ?_⟩
  · rw [hrest, List.flatMap_cons, List.append_assoc]
  · rw [hsent, List.flatMap_cons, List.append_assoc]
  · intro r' hr'
    rcases List.mem_cons.mp hr' with rfl | hr'
    · exact hr
    · exact hsound r' hr'
  · cases hend with
    | full hall hleft hwhere => exact .full (by simpa [hacked] using hall) hleft hwhere
    | @short before last hruns hall hshort hleft =>
      have hall' : ∀ r' ∈ r :: before, r'.acked = r'.upto := by simpa [hacked] using hall
      exact .short (by rw [hruns, List.cons_append]) hall' hshort hleft

/-- What an ack of the first run leaves of the snapshot. -/
theorem filter_acked {r : ClosedRun} {rest : List JournalEntry}
    (hsorted : (r.entries ++ rest).Pairwise fun a b => a.seq < b.seq) (hle : r.acked ≤ r.upto) :
    (r.entries ++ rest).filter (fun x => r.acked < x.seq) =
      (r.entries.filter fun x => r.acked < x.seq) ++ rest := by
  rw [List.filter_append]
  congr 1
  rw [List.filter_eq_self]
  intro x hx
  have hlt : r.last.entry.seq < x.seq :=
    (List.pairwise_append.mp hsorted).2.2 _ (by simp [ClosedRun.entries, ClosedRun.items]) x hx
  have hupto : r.upto < x.seq := hlt
  simpa using Nat.lt_of_le_of_lt hle hupto

theorem filter_acked_whole {r : ClosedRun}
    (hsorted : r.entries.Pairwise fun a b => a.seq < b.seq) (hacked : r.acked = r.upto) :
    r.entries.filter (fun x => r.acked < x.seq) = [] := by
  rw [List.filter_eq_nil_iff]
  intro x hx
  have hle : x.seq ≤ r.upto := by
    rw [ClosedRun.entries, ClosedRun.items, List.map_append] at hx hsorted
    rcases List.mem_append.mp hx with hx | hx
    · exact Nat.le_of_lt ((List.pairwise_append.mp hsorted).2.2 x hx _ (by simp))
    · rw [List.mem_singleton.mp hx]
      exact Nat.le_refl _
  simp [hacked, hle]

/-- One round of the outer loop: nothing where the chunk is empty, else a run. -/
theorem sendChunk_journal {w : DrainWorld} {node : String} {s s' : DrainRun} {whole : Bool}
    {pending : List JournalEntry} {f : ChunkFormed} {items : List DrainItem}
    (hf : s.Forms w .empty pending f items)
    (h : f.run.sendChunk w node f.chunk = .ok (whole, s')) (hkeyed : s.journal.state.Keyed)
    (hleft : s.journal.snapshot = pending) :
    s'.journal.state.Keyed ∧
    ((whole = true ∧ pending = f.rest ∧ s'.sent = s.sent ∧ s'.journal.snapshot = f.rest) ∨
    ∃ r : ClosedRun, r.Sound w node ∧ pending = r.entries ++ f.rest ∧
      s'.sent = s.sent ++ r.sent ∧
      (whole = true → r.acked = r.upto ∧ s'.journal.snapshot = f.rest) ∧
      (whole = false → r.acked < r.upto ∧
        s'.journal.snapshot = (r.entries.filter fun x => r.acked < x.seq) ++ f.rest)) := by
  rcases sendChunk_spec hf h with ⟨rfl, hwhole, rfl⟩ | ⟨r, rfl, hr, hsent, hwhole, hle, host, hack⟩
  · have hpending : pending = f.rest := hf.entries
    rw [hf.journal, hf.sent]
    exact ⟨hkeyed, .inl ⟨hwhole, hpending, rfl, hleft.trans hpending⟩⟩
  · have hpending : pending = r.entries ++ f.rest := hf.entries
    have hsorted := ActionJournal.sorted_snapshot hkeyed
    obtain ⟨hkeyed', hsnapshot⟩ := ActionJournal.snapshot_ack hack hkeyed
    rw [hleft, hpending] at hsorted hsnapshot
    rw [filter_acked hsorted hle] at hsnapshot
    refine ⟨hkeyed', .inr ⟨r, hr, hpending, hsent, fun htrue => ?_, fun hfalse => ?_⟩⟩
    · have hacked := hwhole.mp htrue
      have hnone := filter_acked_whole (List.pairwise_append.mp hsorted).1 hacked
      exact ⟨hacked, by rw [hsnapshot, hnone, List.nil_append]⟩
    · have hne : r.acked ≠ r.upto := fun heq => by
        rw [hwhole.mpr heq] at hfalse
        cases hfalse
      exact ⟨by omega, hsnapshot⟩

/-- A pass whose only run is the last one. -/
theorem InRuns.single {w : DrainWorld} {node : String} {sent : List Message}
    {rest : List JournalEntry} {s' : DrainRun} {r : ClosedRun} (hr : r.Sound w node)
    (hsent : s'.sent = sent ++ r.sent) (hend : PassEnd w s' [r] rest) :
    InRuns w node sent (r.entries ++ rest) s' := by
  refine ⟨[r], rest, by simp, by simpa using hsent, ?_, hend⟩
  intro r' hr'
  rw [List.mem_singleton.mp hr']
  exact hr

/-- The outer loop, over the entries that are left. -/
theorem drainFrom_spec {w : DrainWorld} {node : String} {s s' : DrainRun}
    {pending : List JournalEntry} (h : s.drainFrom w node pending = .ok s')
    (hkeyed : s.journal.state.Keyed) (hleft : s.journal.snapshot = pending) :
    InRuns w node s.sent pending s' := by
  fun_induction drainFrom w node s pending with
  | case1 s =>
    obtain rfl := Except.ok.inj h
    exact ⟨[], [], rfl, (List.append_nil _).symm, nofun, .full nofun hleft (.inl rfl)⟩
  | case2 s entry rest f s₁ hsend => cases h
  | case3 s entry rest f s₁ hsend =>
    -- A short ack.
    obtain rfl := Except.ok.inj h
    obtain ⟨items, hf⟩ := formChunk_spec w s .empty (entry :: rest)
    obtain ⟨-, hround⟩ := sendChunk_journal hf hsend hkeyed hleft
    rcases hround with ⟨hwhole, -⟩ | ⟨r, hr, hpending, hsent, -, hshort⟩
    · cases hwhole
    · obtain ⟨hlt, hsnapshot⟩ := hshort rfl
      rw [hpending]
      have hend : PassEnd w s₁ ([] ++ [r]) f.rest := .short rfl nofun hlt hsnapshot
      exact .single hr hsent hend
  | case4 s entry rest f s₁ hsend hstop =>
    -- An unstable file, behind what could be sent before it.
    obtain rfl := Except.ok.inj h
    obtain ⟨items, hf⟩ := formChunk_spec w s .empty (entry :: rest)
    obtain ⟨entry', tail, n, e, hrest, hunstable⟩ := hf.stopped hstop
    obtain ⟨-, hround⟩ := sendChunk_journal hf hsend hkeyed hleft
    rcases hround with ⟨-, hpending, hsent, hsnapshot⟩ | ⟨r, hr, hpending, hsent, hfull, -⟩
    · rw [hpending]
      exact ⟨[], f.rest, rfl, by rw [List.flatMap_nil, List.append_nil]; exact hsent, nofun,
        .full nofun hsnapshot (.inr ⟨entry', tail, n, e, hrest, hunstable, rfl⟩)⟩
    · obtain ⟨hacked, hsnapshot⟩ := hfull rfl
      rw [hpending]
      have hend : PassEnd w s₁.stopUnstable [r] f.rest :=
        .full (by simpa using hacked) hsnapshot
          (.inr ⟨entry', tail, n, e, hrest, hunstable, rfl⟩)
      exact .single hr hsent hend
  | case5 s entry rest f s₁ hsend hstop ih =>
    obtain ⟨items, hf⟩ := formChunk_spec w s .empty (entry :: rest)
    obtain ⟨hkeyed', hround⟩ := sendChunk_journal hf hsend hkeyed hleft
    rcases hround with ⟨-, hpending, hsent, hsnapshot⟩ | ⟨r, hr, hpending, hsent, hfull, -⟩
    · -- The chunk is not empty where it does not end at a stop.
      have hlt := formChunk_progress w s entry rest (Bool.eq_false_iff.mpr hstop)
      rw [← hpending] at hlt
      exact absurd hlt (Nat.lt_irrefl _)
    · obtain ⟨hacked, hsnapshot⟩ := hfull rfl
      have hrun := ih h hkeyed' hsnapshot
      rw [hsent] at hrun
      rw [hpending]
      exact hrun.cons hr hacked

/-! ## A connection that does not fail -/

/-- Messages are sent, acks come back and the journal can be written. -/
structure Reliable (w : DrainWorld) : Prop where
  sends : ∀ n m, w.sends n m = true
  answers : ∀ n upto, (w.awaitAck n upto).isSome = true
  writes : ∀ n k, (w.host n).fails (.appendJournal k) = false

section

variable {w : DrainWorld} (hw : Reliable w)

include hw

theorem Reliable.send (s : DrainRun) (m : Message) : ∃ s', s.send w m = .ok s' := by
  unfold DrainRun.send
  simp only [hw.sends, if_true]
  exact ⟨_, rfl⟩

theorem Reliable.sendAll (s : DrainRun) (ms : List Message) : ∃ s', s.sendAll w ms = .ok s' := by
  induction ms generalizing s with
  | nil => exact ⟨s, rfl⟩
  | cons m ms ih =>
    obtain ⟨s₁, hsend⟩ := hw.send s m
    obtain ⟨s₂, hrest⟩ := ih s₁
    exact ⟨s₂, by rw [DrainRun.sendAll, hsend]; exact hrest⟩

theorem Reliable.streamWires (node : String) (s : DrainRun) (run : List (PathBuf × Nat))
    (wires : List Wire) : ∃ s', s.streamWires w node run wires = .ok s' := by
  induction wires generalizing s run with
  | nil => exact hw.sendAll _ _
  | cons wire wires ih =>
    -- A rename or a delete goes behind the run.
    have hflush : ∀ m, ∃ s', (do
        let s ← s.streamRun w run
        let s ← s.send w m
        s.streamWires w node [] wires) = .ok s' := by
      intro m
      obtain ⟨s₁, hrun⟩ := hw.sendAll (s.turn w) (streamUpserts (w.host s.clock)
        (s.turn w).engine.tree run (w.nextBundleId s.clock))
      obtain ⟨s₂, hsend⟩ := hw.send s₁ m
      obtain ⟨s₃, hrest⟩ := ih s₂ []
      replace hrun : s.streamRun w run = .ok s₁ := hrun
      exact ⟨s₃, by rw [hrun]; show (s₁.send w m >>= _) = _; rw [hsend]; exact hrest⟩
    cases wire with
    | upsert p a size => exact ih _ _
    | rename f g a => exact hflush _
    | delete p a => exact hflush _

theorem Reliable.closeChunk (s : DrainRun) (c : Chunk) (upto : Nat) :
    ∃ x, s.closeChunk w c upto = .ok x := by
  unfold DrainRun.closeChunk
  obtain ⟨s₁, hsend⟩ := hw.send { s with engine := s.engine.flushLedger (w.host s.clock) }
    (.actionBatchEnd upto)
  obtain ⟨got, hgot⟩ := Option.isSome_iff_exists.mp (hw.answers s₁.clock upto)
  have hack : (s₁.journal.ack (w.host s₁.clock) (min got upto)).1 = true := by
    unfold ActionJournal.ack
    split
    · rfl
    · simp [ActionJournal.appendLine, hw.writes]
  simp only [hsend, bind, Except.bind, hgot]
  split
  · next hfail =>
    rw [hfail] at hack
    cases hack
  · exact ⟨_, rfl⟩

/-- The pass returns. -/
theorem Reliable.drainFrom (node : String) (s : DrainRun) (pending : List JournalEntry) :
    ∃ s', s.drainFrom w node pending = .ok s' := by
  fun_induction DrainRun.drainFrom w node s pending with
  | case1 s => exact ⟨s, rfl⟩
  | case2 s entry rest f s₁ hsend =>
    have hok : ∃ x, f.run.sendChunk w node f.chunk = .ok x := by
      unfold sendChunk
      cases hupto : f.chunk.upto with
      | none => exact ⟨_, rfl⟩
      | some upto =>
        obtain ⟨s₂, hstream⟩ := hw.streamWires node f.run [] f.chunk.wires
        obtain ⟨x, hclose⟩ := hw.closeChunk s₂ f.chunk upto
        exact ⟨x, by simp only [hstream, bind, Except.bind, hclose]⟩
    obtain ⟨x, hx⟩ := hok
    rw [hx] at hsend
    cases hsend
  | case3 s entry rest f s₁ hsend => exact ⟨s₁, rfl⟩
  | case4 s entry rest f s₁ hsend hstop => exact ⟨_, rfl⟩
  | case5 s entry rest f s₁ hsend hstop ih => exact ih

end

end DrainRun

/-- A world in which nothing happens but the pass. -/
private def quietWorld : DrainWorld where
  host _ := .reliable (fun _ => 0) 1000
  others _ e := e
  nextBundleId n := n
  sends _ _ := true
  awaitAck _ upto := some upto

/-- A journal with an upsert of a file that is gone, and a delete. -/
private def twoActions : ActionJournal :=
  let h : Host := .reliable (fun _ => 0) 1000
  ((ActionJournal.upsert h ⟨.init, []⟩ (.ofNames ["a"]) 5).2.delete h (.ofNames ["b"]) 6).2

end ByteHive
