import ByteHive.ForStd.Run
import ByteHive.Spec.EndpointSteps

/-!
# What is sent over a connection arrives in order

The two threads of a connection pass messages on in order and lose none while they run: what an
end has received is the beginning of what the other end has accepted, and all of it where nothing
is on its way. However the threads, the callers and the reads of the bytes take turns.

## Key results

- `Travels`: what every step keeps in one direction
- `Duplex.received_in_order`, `Duplex.all_received`: every run
- `Duplex.pings_answered`: the heartbeat
-/

namespace ByteHive

open ReadEvent

/-! ## One direction -/

/-- From the end that writes to the one that reads, with the bytes between them. As long as the
    reader goes on, the bytes it has of a frame and those to come are a stream; `rest` is missing
    where a write has failed. -/
structure Travels {α : Type} {c : Codec (WireMessage α)} (e : Endpoint c) (wire : List UInt8)
    (o : Endpoint c) : Prop where
  order : o.read <+: e.written
  bytes : o.live = true → ∃ got pend rest, o.reader.Reading got ∧ e.written = o.read ++ pend ∧
    c.Stream pend (got ++ (wire ++ rest)) ∧ (e.live = true → rest = [])

namespace Travels

open Endpoint

variable {α : Type} {c : Codec (WireMessage α)} {e e' o o' : Endpoint c} {wire : List UInt8}

theorem new (nowMs : Nat) : Travels (c := c) (.new nowMs) [] (.new nowMs) where
  order := List.nil_prefix
  bytes _ := ⟨[], [], [], .new, rfl, .nil, fun _ => rfl⟩

theorem congr_writer (h : Travels e wire o) (hwritten : e'.written = e.written)
    (hlive : e'.live = true → e.live = true) : Travels e' wire o where
  order := hwritten ▸ h.order
  bytes ho := by
    obtain ⟨got, pend, rest, hread, hw, hs, hrest⟩ := h.bytes ho
    exact ⟨got, pend, rest, hread, hwritten.trans hw, hs, fun he => hrest (hlive he)⟩

theorem congr_reader (h : Travels e wire o) (hread : o'.read = o.read)
    (hreader : o'.reader = o.reader) (hlive : o'.live = true → o.live = true) :
    Travels e wire o' where
  order := hread ▸ h.order
  bytes ho := by
    obtain ⟨got, pend, rest, hgot, hw, hs, hrest⟩ := h.bytes (hlive ho)
    exact ⟨got, pend, rest, hreader ▸ hgot, hread ▸ hw, hs, hrest⟩

/-- A frame is written, to its end or to where the write fails. -/
theorem writeFrame (hc : c.Lawful) (h : Travels e wire o) (hlive : e.live = true)
    (failsAfter : Option Nat) (frame : WireFrame c) :
    Travels (e.writeFrame failsAfter frame).1
      (wire ++ (e.writeFrame failsAfter frame).2) o where
  order := by
    rw [(writeFrame_fields e failsAfter frame).1]
    exact h.order.trans (List.prefix_append _ _)
  bytes ho := by
    obtain ⟨got, pend, rest, hgot, hw, hs, hrest⟩ := h.bytes ho
    obtain ⟨hdr, body, hframe, hf⟩ := Codec.serialiseMessage_eq_ok hc frame.serialised
    rw [hrest hlive, List.append_nil] at hs
    have hs' := hs.concat hf
    rw [← hframe, List.append_assoc] at hs'
    have hw' : e.written ++ [frame.msg] = o.read ++ (pend ++ [frame.msg]) := by
      rw [hw, List.append_assoc]
    cases failsAfter with
    | none =>
      refine ⟨got, pend ++ [frame.msg], [], hgot, hw', ?_, fun _ => rfl⟩
      rw [List.append_nil]
      exact hs'
    | some k =>
      -- what the failed write has left out completes the stream
      refine ⟨got, pend ++ [frame.msg], frame.bytes.drop k, hgot, hw', ?_,
        fun hlive' => by cases hlive'⟩
      show c.Stream _ (got ++ (wire ++ frame.bytes.take k ++ frame.bytes.drop k))
      rw [List.append_assoc, List.take_append_drop]
      exact hs'

/-- A turn of the inner loop. -/
theorem drain (hc : c.Lawful) (h : Travels e wire o) (hphase : e.phase = .draining)
    (failsAfter : Option Nat) :
    Travels (e.drain failsAfter).1 (wire ++ (e.drain failsAfter).2) o := by
  have hlive := live_of_draining hphase
  rw [Endpoint.drain.eq_def]
  split
  · rename_i frame rest _
    have h' : Travels { e with sendQueue := rest } wire o := h.congr_writer rfl fun _ => hlive
    exact h'.writeFrame hc hlive failsAfter frame
  · rw [List.append_nil]
    exact h.congr_writer rfl fun _ => hlive
  · rw [List.append_nil]
    exact h.congr_writer rfl fun _ => hlive

/-- The answer to a message, and the end that gives it as a writer. -/
theorem handleMessage (hc : c.Lawful) (h : Travels e wire o) (hlive : e.live = true)
    (pongFails : Option Nat) (msg : WireMessage α) :
    Travels (e.handleMessage pongFails msg).1
      (wire ++ (e.handleMessage pongFails msg).2) o := by
  cases msg with
  | ping =>
    rw [Endpoint.handleMessage.eq_def]
    simp only
    split
    · exact h.writeFrame hc hlive pongFails _
    · rw [List.append_nil]
      exact h.congr_writer rfl fun _ => hlive
  | pong =>
    rw [Endpoint.handleMessage.eq_def, List.append_nil]
    exact h.congr_writer rfl fun _ => hlive
  | data msg =>
    rw [Endpoint.handleMessage.eq_def, List.append_nil]
    exact h.congr_writer rfl fun _ => hlive

/-- A poll at the end that writes here: what it reads comes from the other direction. -/
theorem poll_writer (hc : c.Lawful) (h : Travels e wire o) (hphase : e.phase = .polling)
    (nowMs : Nat) (pongFails : Option Nat) (evs : List (ReadEvent UInt8)) :
    Travels (e.poll nowMs pongFails evs).1.1 (wire ++ (e.poll nowMs pongFails evs).1.2) o := by
  have hlive := live_of_polling hphase
  rw [Endpoint.poll]
  split
  · rw [List.append_nil]
    exact h.congr_writer rfl fun _ => hlive
  · rename_i msg reader _ _
    have h' : Travels { e with reader, lastRecvMs := nowMs, read := e.read ++ [msg] } wire o :=
      h.congr_writer rfl fun _ => hlive
    exact h'.handleMessage hc hlive pongFails msg
  · rw [List.append_nil]
    exact h.congr_writer rfl fun hlive' => by cases hlive'

theorem handleMessage_fields (e : Endpoint c) (pongFails : Option Nat) (msg : WireMessage α) :
    (e.handleMessage pongFails msg).1.read = e.read ∧
      (e.handleMessage pongFails msg).1.reader = e.reader := by
  cases msg with
  | ping =>
    rw [Endpoint.handleMessage.eq_def]
    simp only
    split
    · exact ⟨(writeFrame_fields e pongFails _).2.1, (writeFrame_fields e pongFails _).2.2.1⟩
    · exact ⟨rfl, rfl⟩
  | pong => exact ⟨rfl, rfl⟩
  | data msg => exact ⟨rfl, rfl⟩

/-- A poll at the end that reads here: its reads are the bytes in front, and `unread` follows. -/
theorem poll_reader {evs : List (ReadEvent UInt8)} {unread : List UInt8}
    (h : Travels e (payload evs ++ unread) o) (hphase : o.phase = .polling)
    (hevs : .data [] ∉ evs) (nowMs : Nat) (pongFails : Option Nat) :
    Travels e (payload (o.poll nowMs pongFails evs).2 ++ unread)
      (o.poll nowMs pongFails evs).1.1 := by
  obtain ⟨got, pend, rest, hgot, hw, hs, hrest⟩ := h.bytes (live_of_polling hphase)
  rw [List.append_assoc] at hs
  rw [Endpoint.poll]
  split
  · rename_i reader evs' hpoll
    obtain ⟨got', pend', hgot', hpend, hs'⟩ := FrameReader.poll_of_ok hgot hevs hs hpoll
    refine ⟨h.order, fun _ => ⟨got', pend', rest, hgot', ?_, ?_, hrest⟩⟩
    · rw [hw, hpend]
      rfl
    · rw [List.append_assoc]
      exact hs'
  · rename_i msg reader evs' hpoll
    obtain ⟨got', pend', hgot', hpend, hs'⟩ := FrameReader.poll_of_ok hgot hevs hs hpoll
    obtain ⟨hread, hreader⟩ := handleMessage_fields
      { o with reader, lastRecvMs := nowMs, read := o.read ++ [msg] } pongFails msg
    have hw' : e.written = o.read ++ [msg] ++ pend' := by
      rw [hw, hpend, List.append_assoc]
      rfl
    constructor
    case order =>
      rw [hread]
      exact ⟨pend', hw'.symm⟩
    case bytes =>
      intro _
      refine ⟨got', pend', rest, ?_, ?_, ?_, hrest⟩
      · rw [hreader]
        exact hgot'
      · rw [hread]
        exact hw'
      · rw [List.append_assoc]
        exact hs'
  · exact ⟨h.order, fun hlive => by cases hlive⟩

end Travels

/-! ## Both ends -/

namespace Duplex

open Endpoint

variable {α : Type} {c : Codec (WireMessage α)} {σ σ' : Duplex c}

/-- What every step keeps. -/
def Sound (σ : Duplex c) : Prop :=
  ∀ s, (σ.ends s).Accounted ∧ Travels (σ.ends s) (σ.wire s) (σ.ends s.other)

theorem other_other (s : ConnectionEnd) : s.other.other = s := by
  cases s <;> rfl

theorem other_ne (s : ConnectionEnd) : s.other ≠ s := by
  cases s <;> decide

/-- A step at `s`, after which `back` is what `s` has not read. -/
theorem Sound.of_end {s : ConnectionEnd} {e : Endpoint c} {out back : List UInt8} (h : σ.Sound)
    (he : e.Accounted) (hout : Travels e out (σ.ends s.other))
    (hback : Travels (σ.ends s.other) back e) :
    Sound ⟨Function.update σ.ends s e,
      Function.update (Function.update σ.wire s out) s.other back⟩ := by
  intro t
  by_cases hts : t = s
  · subst hts
    simp only [Function.update_self, Function.update_of_ne (other_ne t),
      Function.update_of_ne (other_ne t).symm]
    exact ⟨he, hout⟩
  · have hto : t = s.other := by
      cases t <;> cases s <;> first | rfl | exact absurd rfl hts
    subst hto
    simp only [Function.update_self, Function.update_of_ne (other_ne s), other_other]
    exact ⟨(h s.other).1, hback⟩

theorem Sound.put {s : ConnectionEnd} {e : Endpoint c} {bytes : List UInt8} (h : σ.Sound)
    (he : e.Accounted) (hout : Travels e (σ.wire s ++ bytes) (σ.ends s.other))
    (hback : Travels (σ.ends s.other) (σ.wire s.other) e) : (σ.put s e bytes).Sound := by
  have hwire : Function.update (Function.update σ.wire s (σ.wire s ++ bytes)) s.other
      (σ.wire s.other) = Function.update σ.wire s (σ.wire s ++ bytes) := by
    conv_lhs => rw [← Function.update_of_ne (other_ne s) (σ.wire s ++ bytes) σ.wire]
    exact Function.update_eq_self _ _
  have hall := h.of_end he hout hback
  rw [hwire] at hall
  exact hall

/-- What the direction to an end says with the end put in. -/
theorem Sound.back (h : σ.Sound) (s : ConnectionEnd) :
    Travels (σ.ends s.other) (σ.wire s.other) (σ.ends s) := by
  have hback := (h s.other).2
  rw [other_other] at hback
  exact hback

theorem Sound.call {s : ConnectionEnd} {r : Option (Endpoint c)} (h : σ.Sound)
    (hr : ∀ e, r = some e → e.Accounted ∧ SameThread (σ.ends s) e)
    (hcall : σ.call s r = some σ') : σ'.Sound := by
  rw [Duplex.call] at hcall
  split at hcall
  · obtain ⟨e, he, rfl⟩ := Option.map_eq_some_iff.mp hcall
    obtain ⟨hacc, hsame⟩ := hr e he
    have hlive : e.live = (σ.ends s).live := by
      rw [live, live, hsame.phase]
    refine h.put hacc ?_ ?_
    · rw [List.append_nil]
      exact (h s).2.congr_writer hsame.written fun hl => hlive ▸ hl
    · exact (h.back s).congr_reader hsame.read hsame.reader fun hl => hlive ▸ hl
  · cases hcall

theorem Sound.pollWith (hc : c.Lawful) {s : ConnectionEnd} {nowMs : Nat} {pongFails : Option Nat}
    {evs : List (ReadEvent UInt8)} (h : σ.Sound) (hphase : (σ.ends s).phase = .polling)
    (hevs : .data [] ∉ evs) (hpoll : σ.pollWith s nowMs pongFails evs = some σ') : σ'.Sound := by
  rw [Duplex.pollWith] at hpoll
  split at hpoll
  · rename_i hfront
    cases hpoll
    obtain ⟨unread, hunread⟩ := hfront
    have hback := h.back s
    rw [← hunread] at hback
    have hdrop : (σ.wire s.other).drop (payload evs).length = unread := by
      rw [← hunread, List.drop_left]
    rw [hdrop]
    exact h.of_end (poll_accounted (h s).1 hphase nowMs pongFails evs)
      ((h s).2.poll_writer hc hphase nowMs pongFails evs)
      (hback.poll_reader hphase hevs nowMs pongFails)
  · cases hpoll

/-- Reads that get data get some. -/
theorem not_mem_reads {pieces : List (List UInt8)} {ev : ReadEvent UInt8} (hne : [] ∉ pieces)
    (hev : ev ≠ .data []) : .data [] ∉ pieces.map ReadEvent.data ++ [ev] := by
  intro hmem
  rcases List.mem_append.mp hmem with hmem | hmem
  · obtain ⟨bs, hbs, heq⟩ := List.mem_map.mp hmem
    cases heq
    exact hne hbs
  · exact hev (List.mem_singleton.mp hmem).symm

theorem not_mem_lastReads {s : ConnectionEnd} {pieces : List (List UInt8)} {fail : Bool}
    {evs : List (ReadEvent UInt8)} (hne : [] ∉ pieces)
    (h : σ.lastReads s pieces fail = some evs) : .data [] ∉ evs := by
  rw [lastReads] at h
  split at h
  · cases h
    exact not_mem_reads hne (by simp)
  · split at h
    · cases h
      intro hmem
      obtain ⟨bs, hbs, heq⟩ := List.mem_map.mp hmem
      cases heq
      exact hne hbs
    · cases h

theorem Sound.step (hc : c.Lawful) {ev : ConnectionEnd × EndpointEvent c} (h : σ.Sound)
    (hstep : σ.step ev = some σ') : σ'.Sound := by
  obtain ⟨s, ev⟩ := ev
  cases ev with
  | send msg nowMs =>
    refine h.call (fun e he => ?_) hstep
    obtain ⟨⟨r, e'⟩, hr, rfl⟩ := Option.map_eq_some_iff.mp he
    exact send_spec (h s).1 rfl hr
  | trySendFrame frame nowMs =>
    rw [Duplex.step.eq_def] at hstep
    simp only at hstep
    split at hstep
    · rename_i hdata
      have hmsg : isPong frame.msg = false := by
        cases hm : frame.msg with
        | pong =>
          rw [hm] at hdata
          cases hdata
        | ping => rfl
        | data msg => rfl
      refine h.call (fun e he => ?_) hstep
      cases he
      exact trySendFrame_spec (h s).1 nowMs hmsg
    · cases hstep
  | heartbeatMaintenance nowMs =>
    refine h.call (fun e he => ?_) hstep
    obtain ⟨⟨r, e'⟩, hr, rfl⟩ := Option.map_eq_some_iff.mp he
    exact heartbeatMaintenance_spec (h s).1 hr
  | shutdown => exact h.call (fun e he => shutdown_spec (h s).1 he) hstep
  | recv =>
    refine h.call (fun e he => ?_) hstep
    obtain ⟨⟨r, e'⟩, hr, rfl⟩ := Option.map_eq_some_iff.mp he
    exact recv_spec (h s).1 hr
  | drop =>
    refine h.call (fun e he => ?_) hstep
    cases he
    exact drop_spec (h s).1
  | drain failsAfter =>
    rw [Duplex.step.eq_def] at hstep
    simp only at hstep
    split at hstep
    · rename_i hphase
      cases hstep
      refine h.put (drain_accounted (h s).1 hphase failsAfter)
        ((h s).2.drain hc hphase failsAfter) ?_
      refine (h.back s).congr_reader ?_ ?_ fun _ => live_of_draining hphase
      · exact drain_read (σ.ends s) failsAfter
      · exact drain_reader (σ.ends s) failsAfter
    · cases hstep
  | poll pieces nowMs pongFails =>
    rw [Duplex.step.eq_def] at hstep
    simp only at hstep
    split at hstep
    · rename_i hphase
      split at hstep
      · cases hstep
      · rename_i hne
        exact h.pollWith hc hphase (not_mem_reads hne (by simp)) hstep
    · cases hstep
  | pollEnds pieces fail nowMs pongFails =>
    rw [Duplex.step.eq_def] at hstep
    simp only at hstep
    split at hstep
    · rename_i hphase
      split at hstep
      · cases hstep
      · rename_i hne
        obtain ⟨evs, hevs, hpoll⟩ := Option.bind_eq_some_iff.mp hstep
        exact h.pollWith hc hphase (not_mem_lastReads hne hevs) hpoll
    · cases hstep
  | deliver =>
    rw [Duplex.step.eq_def] at hstep
    simp only at hstep
    split at hstep
    · rename_i item hphase
      obtain ⟨e, he, rfl⟩ := Option.map_eq_some_iff.mp hstep
      obtain ⟨hacc, hwritten, hread, hreader, hlive⟩ := deliver_spec (h s).1 hphase he
      refine h.put hacc ?_ ((h.back s).congr_reader hread hreader hlive)
      rw [List.append_nil]
      exact (h s).2.congr_writer hwritten hlive
    · cases hstep

theorem Sound.start (nowMs : Nat) : (Duplex.start nowMs : Duplex c).Sound :=
  fun _ => ⟨.new nowMs, .new nowMs⟩

theorem sound_of_run (hc : c.Lawful) {t : Nat} {evs : List (ConnectionEnd × EndpointEvent c)}
    (h : Run.runFrom Duplex.step (Duplex.start t) evs = some σ) : σ.Sound :=
  Run.runFrom_invariant (fun _ _ _ hs hstep => hs.step hc hstep) (Sound.start t) h

/-! ## Runs -/

/-- Messages of a byte, with the two libraries leaving out what they add. -/
def byteCodec : Codec (WireMessage UInt8) where
  serialize
    | .ping => .ok [16]
    | .pong => .ok [17]
    | .data b => .ok [0, b]
  deserialize raw :=
    if raw = [16] then .ok .ping
    else if raw = [17] then .ok .pong
    else .ok (.data (raw.getLastD 0))
  compressPrependSize raw := raw
  decompressSizePrepended body := .ok body

theorem byteCodec_lawful : byteCodec.Lawful where
  decompress msg raw h := rfl
  deserialize msg raw h := by
    cases msg <;> cases h <;> simp [byteCodec]
  nonempty msg raw h := by
    cases msg <;> cases h <;> simp [byteCodec]

/-- The server sends a byte, which the client reads in pieces, and later a ping. -/
def byteRun : List (ConnectionEnd × EndpointEvent byteCodec) :=
  [(.server, .send 7 0), (.server, .drain none), (.server, .drain none),
    (.client, .drain none), (.client, .poll [[0, 0], [0, 2, 0], [7]] 5 none),
    (.client, .deliver), (.client, .recv), (.server, .heartbeatMaintenance 20000),
    (.server, .poll [] 20001 none), (.server, .drain none), (.server, .drain none),
    (.client, .drain none), (.client, .poll [[0, 0, 0, 1], [16]] 20002 none),
    (.server, .poll [[0, 0, 0, 1, 17]] 20003 none)]

/-- Nothing is on its way from an end to the other, and both threads go on. -/
def quiet (σ : Duplex c) (s : ConnectionEnd) : Bool :=
  (σ.ends s).live && (σ.ends s.other).live && (σ.ends s.other).held &&
    (σ.ends s).sendQueue.isEmpty && (σ.wire s).isEmpty && (σ.ends s.other).reader.hdrPos == 0 &&
    (σ.ends s.other).inHand.isEmpty && (σ.ends s.other).recvQueue.isEmpty

theorem byteRun_quiet :
    ∃ σ, Run.runFrom Duplex.step (Duplex.start 0) byteRun = some σ ∧
      σ.quiet .server = true ∧ σ.quiet .client = true := by
  have h : ((Run.runFrom Duplex.step (Duplex.start 0) byteRun).any fun σ =>
      σ.quiet .server && σ.quiet .client) = true := by
    decide +kernel
  obtain ⟨σ, hrun, hq⟩ := (Option.any_eq_true _ _).mp h
  exact ⟨σ, hrun, Bool.and_eq_true_iff.mp hq⟩

/-- The data in what was accepted starts with the data in what was written. -/
theorem data_accepted {e : Endpoint c} (h : e.Accounted) :
    e.accepted.filterMap WireMessage.data?
      = e.written.filterMap WireMessage.data? ++ e.queued.filterMap WireMessage.data? := by
  have hfilter : (e.written.filter (!isPong ·)).filterMap WireMessage.data?
      = e.written.filterMap WireMessage.data? := by
    rw [List.filterMap_filter]
    congr 1
    funext msg
    cases msg <;> rfl
  rw [h.sent, List.filterMap_append, hfilter]

/-- The beginning of messages with an error at most behind them is of the same kind. -/
theorem prefix_of_items {items : List (Except IoError α)} {msgs : List α} {errs : List IoError}
    (h : items <+: msgs.map .ok ++ errs.map .error) :
    ∃ (msgs' : List α) (errs' : List IoError), items = msgs'.map .ok ++ errs'.map .error ∧
      msgs' <+: msgs ∧ errs'.length ≤ errs.length := by
  refine ⟨msgs.take items.length, errs.take (items.length - msgs.length), ?_, List.take_prefix ..,
    (List.take_prefix ..).length_le⟩
  conv_lhs => rw [List.prefix_iff_eq_take.mp h]
  rw [List.take_append, List.map_take, List.map_take, List.length_map]

/-- What an end has received are data that the other end has accepted, in the same order, each
    once and without a gap, and behind them at most the error that has ended its thread. -/
theorem received_in_order (hc : c.Lawful) {t : Nat}
    {evs : List (ConnectionEnd × EndpointEvent c)}
    (h : Run.runFrom Duplex.step (Duplex.start t) evs = some σ) (s : ConnectionEnd) :
    ∃ (msgs : List α) (errs : List IoError),
      (σ.ends s.other).received = msgs.map .ok ++ errs.map .error ∧ errs.length ≤ 1 ∧
        msgs <+: (σ.ends s).accepted.filterMap WireMessage.data? := by
  have hsound := sound_of_run hc h
  obtain ⟨msgs, errs, harr⟩ := (hsound s.other).1.arrived
  obtain ⟨msgs', errs', hitems, hmsgs, herrs⟩ :=
    prefix_of_items ((List.prefix_append _ _).trans harr.beginning)
  refine ⟨msgs', errs', hitems, herrs.trans harr.errs_le, ?_⟩
  calc msgs' <+: msgs := hmsgs
    _ <+: (σ.ends s.other).read.filterMap WireMessage.data? :=
      (List.prefix_append _ _).trans harr.fromRead
    _ <+: (σ.ends s).written.filterMap WireMessage.data? := (hsound s).2.order.filterMap _
    _ <+: (σ.ends s).accepted.filterMap WireMessage.data? := by
      rw [data_accepted (hsound s).1]
      exact List.prefix_append _ _

theorem received_in_order_byteRun :
    ∃ σ, Run.runFrom Duplex.step (Duplex.start 0) byteRun = some σ ∧
      ∃ (msgs : List UInt8) (errs : List IoError),
        (σ.ends .client).received = msgs.map .ok ++ errs.map .error ∧ errs.length ≤ 1 ∧
          msgs <+: (σ.ends .server).accepted.filterMap WireMessage.data? := by
  obtain ⟨σ, hrun, -⟩ := byteRun_quiet
  exact ⟨σ, hrun, received_in_order byteCodec_lawful hrun .server⟩

/-- Where nothing is on its way, all that was written is read. -/
theorem read_of_quiet (hsound : σ.Sound) {s : ConnectionEnd} (hq : σ.quiet s = true) :
    (σ.ends s.other).read = (σ.ends s).written ∧ (σ.ends s).queued = [] ∧
      ∃ msgs errs, (σ.ends s.other).Arrived msgs errs ∧ (σ.ends s.other).inHand = [] ∧
        (σ.ends s.other).recvQueue = [] ∧ (σ.ends s.other).held = true ∧ errs = [] := by
  simp only [quiet, Bool.and_eq_true, List.isEmpty_iff, beq_iff_eq] at hq
  obtain ⟨⟨⟨⟨⟨⟨⟨hlive, hlive'⟩, hheld⟩, hqueue⟩, hwire⟩, hpos⟩, hhand⟩, hrecv⟩ := hq
  obtain ⟨got, pend, rest, hgot, hw, hs, hrest⟩ := (hsound s).2.bytes hlive'
  -- The reader has nothing of a frame, so that there is none to come.
  have hnil : got = [] := by
    generalize (σ.ends s.other).reader = reader at hgot hpos
    cases hgot with
    | header _ _ =>
      simp only at hpos
      rw [hpos, List.take_zero]
    | body _ _ _ _ => cases hpos
  rw [hwire, hrest hlive, hnil] at hs
  have hpend : pend = [] := hs.eq_nil (by decide)
  rw [hpend, List.append_nil] at hw
  obtain ⟨msgs, errs, harr⟩ := (hsound s.other).1.arrived
  have herrs : errs = [] := by
    by_contra hne
    have hstop := harr.ended hne
    rw [stopped_of_live hlive'] at hstop
    cases hstop
  refine ⟨hw.symm, ?_, msgs, errs, harr, hhand, hrecv, hheld, herrs⟩
  rw [queued, hqueue]
  rfl

/-- Where nothing is on its way, an end has received all data that the other has accepted. -/
theorem all_received (hc : c.Lawful) {t : Nat} {evs : List (ConnectionEnd × EndpointEvent c)}
    (h : Run.runFrom Duplex.step (Duplex.start t) evs = some σ) {s : ConnectionEnd}
    (hq : σ.quiet s = true) :
    (σ.ends s.other).received
      = ((σ.ends s).accepted.filterMap WireMessage.data?).map .ok := by
  have hsound := sound_of_run hc h
  obtain ⟨hread, hqueued, msgs, errs, harr, hhand, hrecv, hheld, herrs⟩ := read_of_quiet hsound hq
  have hitems := harr.all hheld
  have hmsgs := harr.allRead (.inl hheld)
  rw [hrecv, herrs, List.append_nil, List.map_nil, List.append_nil] at hitems
  rw [hhand, List.append_nil, hread] at hmsgs
  rw [hitems, data_accepted (hsound s).1, hqueued, hmsgs, List.filterMap_nil, List.append_nil]

theorem all_received_byteRun :
    ∃ σ, Run.runFrom Duplex.step (Duplex.start 0) byteRun = some σ ∧
      (σ.ends .client).received
        = ((σ.ends .server).accepted.filterMap WireMessage.data?).map .ok := by
  obtain ⟨σ, hrun, hq, -⟩ := byteRun_quiet
  exact ⟨σ, hrun, all_received byteCodec_lawful hrun hq⟩

/-- An end reads no more answers than the other end has read pings, and that reads no more pings
    than were sent. Where nothing is on its way, every ping is answered. -/
theorem pings_answered (hc : c.Lawful) {t : Nat} {evs : List (ConnectionEnd × EndpointEvent c)}
    (h : Run.runFrom Duplex.step (Duplex.start t) evs = some σ) (s : ConnectionEnd) :
    (σ.ends s).read.countP isPong ≤ (σ.ends s.other).read.countP isPing ∧
      (σ.ends s.other).read.countP isPing ≤ (σ.ends s).accepted.countP isPing ∧
      ((∃ bytes, c.serialiseMessage .pong = .ok bytes) → σ.quiet s = true →
        σ.quiet s.other = true →
          (σ.ends s).read.countP isPong = (σ.ends s).accepted.countP isPing) := by
  have hsound := sound_of_run hc h
  have hping : (σ.ends s).accepted.countP isPing
      = (σ.ends s).written.countP isPing + (σ.ends s).queued.countP isPing := by
    rw [(hsound s).1.sent, List.countP_append, List.countP_filter]
    congr 2
    funext msg
    cases msg <;> rfl
  refine ⟨?_, ?_, fun hpong hq hq' => ?_⟩
  · exact ((hsound.back s).order.sublist.countP_le).trans (hsound s.other).1.pongs_le
  · have hle := (hsound s).2.order.sublist.countP_le (p := isPing)
    omega
  · obtain ⟨hread, hqueued, -⟩ := read_of_quiet hsound hq
    obtain ⟨hread', -⟩ := read_of_quiet hsound hq'
    rw [other_other] at hread'
    rw [hping, hqueued, hread', (hsound s.other).1.pongs_eq hpong, hread]
    rfl

theorem pings_answered_byteRun :
    ∃ σ, Run.runFrom Duplex.step (Duplex.start 0) byteRun = some σ ∧
      (σ.ends .server).read.countP isPong = (σ.ends .server).accepted.countP isPing := by
  obtain ⟨σ, hrun, hq, hq'⟩ := byteRun_quiet
  exact ⟨σ, hrun, (pings_answered byteCodec_lawful hrun .server).2.2 ⟨[0, 0, 0, 1, 17], rfl⟩ hq hq'⟩

end Duplex

end ByteHive
