import ByteHive.Native.Connection
import ByteHive.Spec.Framing

/-!
# One end of a connection

A poll that does not fail does the same where more reads follow, and so `poll_spec` also says what
it does on the beginning of a stream. What goes through an end is accounted for: the messages that
it has accepted are written or queued, those that its thread has read are received or on their way
to the receiver, and for each `Ping` that is read there is a `Pong`.

## Key results

- `FrameReader.poll_of_ok`: a poll that fails nowhere, on the beginning of a stream
- `Endpoint.Accounted`: what every step at one end keeps
-/

namespace ByteHive

open ReadEvent

/-! ## Polls on the beginning of a stream -/

/-- A read error that nobody comes to is as good as a timeout. -/
def softened : ReadEvent UInt8 → ReadEvent UInt8
  | .fail => .timeout
  | ev => ev

theorem payload_append (evs tl : List (ReadEvent UInt8)) :
    payload (evs ++ tl) = payload evs ++ payload tl := by
  induction evs with
  | nil => rfl
  | cons ev evs ih => cases ev <;> simp [payload, ih]

theorem payload_softened (evs : List (ReadEvent UInt8)) :
    payload (evs.map softened) = payload evs := by
  induction evs with
  | nil => rfl
  | cons ev evs ih => cases ev <;> simp [payload, softened, ih]

/-- A loop that is neither closed nor failed does the same where more reads follow. -/
theorem fill_softened {len pos pos' : Nat} {buf buf' : List UInt8} {stop : FillEnd}
    {evs evs' : List (ReadEvent UInt8)} (tl : List (ReadEvent UInt8))
    (h : fill len buf pos evs = (stop, buf', pos', evs')) (hstop : stop = .full ∨ stop = .timeout) :
    fill len buf pos (evs.map softened ++ tl) = (stop, buf', pos', evs'.map softened ++ tl) := by
  induction evs generalizing buf pos with
  | nil =>
    by_cases hle : len ≤ pos
    · rw [fill_of_le hle] at h
      cases h
      exact fill_of_le hle _ _
    · rw [fill_nil hle] at h
      cases h
      simp at hstop
  | cons ev evs ih =>
    by_cases hle : len ≤ pos
    · rw [fill_of_le hle] at h
      cases h
      exact fill_of_le hle _ _
    · cases ev with
      | timeout =>
        rw [fill_timeout hle] at h
        cases h
        exact fill_timeout hle _ _
      | fail =>
        rw [fill.eq_def] at h
        simp only [if_neg hle] at h
        cases h
        simp at hstop
      | data bs =>
        rw [fill.eq_def] at h
        simp only [if_neg hle] at h
        split at h
        · cases h
          simp at hstop
        · rename_i hroom
          split at h
          · rename_i hfits
            show fill len buf pos (.data bs :: (evs.map softened ++ tl)) = _
            rw [fill_data hle hroom hfits]
            exact ih h
          · rename_i hfits
            cases h
            exact fill_long hle hroom hfits _

namespace FrameReader

variable {M : Type} {c : Codec M}

theorem pollBody_softened {s s' : FrameReader} {r : Option M} {evs evs' : List (ReadEvent UInt8)}
    (tl : List (ReadEvent UInt8)) (h : s.pollBody c evs = (.ok r, s', evs')) :
    s.pollBody c (evs.map softened ++ tl) = (.ok r, s', evs'.map softened ++ tl) := by
  rw [pollBody] at h
  generalize hfill : fill s.bodyLen s.body s.bodyPos evs = filled at h
  obtain ⟨stop, body, bodyPos, evs₁⟩ := filled
  cases stop with
  | full =>
    rw [pollBody, fill_softened tl hfill (.inl rfl)]
    simp only [if_true, Prod.mk.injEq] at h ⊢
    obtain ⟨hres, hs, rfl⟩ := h
    exact ⟨hres, hs, rfl⟩
  | timeout =>
    rw [pollBody, fill_softened tl hfill (.inr rfl)]
    simp only [reduceCtorEq, if_false] at h ⊢
    cases h
    rfl
  | closed => cases h
  | failed => cases h

theorem poll_softened {s s' : FrameReader} {r : Option M} {evs evs' : List (ReadEvent UInt8)}
    (tl : List (ReadEvent UInt8)) (h : s.poll c evs = (.ok r, s', evs')) :
    s.poll c (evs.map softened ++ tl) = (.ok r, s', evs'.map softened ++ tl) := by
  rw [poll] at h
  generalize hfill : fill 4 s.hdr s.hdrPos evs = filled at h
  obtain ⟨stop, hdr, hdrPos, evs₁⟩ := filled
  cases stop with
  | full =>
    rw [poll, fill_softened tl hfill (.inl rfl)]
    simp only [if_true] at h ⊢
    split at h
    · rename_i hempty
      rw [if_pos hempty]
      split at h
      · cases h
      · rename_i hlen
        rw [if_neg hlen]
        exact pollBody_softened tl h
    · rename_i hempty
      rw [if_neg hempty]
      exact pollBody_softened tl h
  | timeout =>
    rw [poll, fill_softened tl hfill (.inr rfl)]
    simp only [reduceCtorEq, if_false] at h ⊢
    cases h
    rfl
  | closed => cases h
  | failed => cases h

/-- A poll that does not fail yields the next message of the stream, or has come to a timeout. The
    bytes at hand, the reads and `rest` are the stream. -/
theorem poll_of_ok {s s' : FrameReader} {got rest : List UInt8} {pend : List M} {r : Option M}
    {evs evs' : List (ReadEvent UInt8)} (hread : Reading s got) (hevs : .data [] ∉ evs)
    (hs : c.Stream pend (got ++ (payload evs ++ rest)))
    (h : s.poll c evs = (.ok r, s', evs')) :
    ∃ got' pend', Reading s' got' ∧ pend = r.toList ++ pend' ∧
      c.Stream pend' (got' ++ (payload evs' ++ rest)) := by
  let tl : List (ReadEvent UInt8) := if rest = [] then [] else [.data rest]
  have htl : payload tl = rest := by
    by_cases hrest : rest = []
    · simp [tl, hrest, payload]
    · simp [tl, hrest, payload]
  have hbytes : ∀ evs, payload (evs.map softened ++ tl) = payload evs ++ rest := by
    intro evs
    rw [payload_append, payload_softened, htl]
  have hsteady : Steady (evs.map softened ++ tl) := by
    intro ev hev
    rcases List.mem_append.mp hev with hev | hev
    · obtain ⟨ev', hmem, rfl⟩ := List.mem_map.mp hev
      cases ev' with
      | data bs => exact .inr ⟨bs, fun hnil => hevs (hnil ▸ hmem), rfl⟩
      | timeout => exact .inl rfl
      | fail => exact .inl rfl
    · by_cases hrest : rest = []
      · simp [tl, hrest] at hev
      · simp only [tl, if_neg hrest, List.mem_singleton] at hev
        exact .inr ⟨rest, hrest, hev⟩
  rw [← hbytes] at hs
  obtain ⟨res, s₁, evs₁, hpoll, hpolled⟩ := poll_spec hread hsteady hs
  rw [poll_softened tl h] at hpoll
  cases hpoll
  cases hpolled with
  | waits hread' _ hs' _ =>
    rw [hbytes] at hs'
    exact ⟨_, _, hread', rfl, hs'⟩
  | yields hread' _ hs' _ =>
    rw [hbytes] at hs'
    exact ⟨[], _, hread', rfl, hs'⟩

end FrameReader

theorem Codec.Stream.concat {M : Type} {c : Codec M} {msgs : List M} {bytes hdr body : List UInt8}
    {msg : M} (hs : c.Stream msgs bytes) (hf : c.IsFrame msg hdr body) :
    c.Stream (msgs ++ [msg]) (bytes ++ (hdr ++ body)) := by
  induction hs with
  | nil =>
    have h := Codec.Stream.cons hf .nil
    rw [List.append_nil] at h
    exact h
  | cons hf' hs ih =>
    rw [List.append_assoc, List.append_assoc]
    exact .cons hf' ih

/-! ## One end -/

namespace Endpoint

variable {α : Type} {c : Codec (WireMessage α)} {e e' : Endpoint c}

/-- The thread goes on reading and writing. -/
def live (e : Endpoint c) : Bool :=
  match e.phase with
  | .delivering (.error _) | .ended => false
  | _ => true

/-- The messages whose frames are in the send queue. -/
def queued (e : Endpoint c) : List (WireMessage α) :=
  e.sendQueue.filterMap fun frame => frame.map (·.msg)

/-- The message that the thread is about to pass on. -/
def inHand (e : Endpoint c) : List α :=
  match e.phase with
  | .delivering (.ok msg) => [msg]
  | _ => []

def isPong : WireMessage α → Bool
  | .pong => true
  | _ => false

def isPing : WireMessage α → Bool
  | .ping => true
  | _ => false

/-- What has come out of the thread: messages, and an error at most, which is the last. -/
structure Arrived (e : Endpoint c) (msgs : List α) (errs : List IoError) : Prop where
  beginning : e.received ++ e.recvQueue <+: msgs.map .ok ++ errs.map .error
  all : e.held = true → e.received ++ e.recvQueue = msgs.map .ok ++ errs.map .error
  errs_le : errs.length ≤ 1
  ended : errs ≠ [] → e.stopped = true
  fromRead : msgs ++ e.inHand <+: e.read.filterMap WireMessage.data?
  allRead : e.held = true ∨ e.stopped = false →
    e.read.filterMap WireMessage.data? = msgs ++ e.inHand

/-- What every step keeps at one end. -/
structure Accounted (e : Endpoint c) : Prop where
  sent : e.accepted = e.written.filter (!isPong ·) ++ e.queued
  queued_ne : ∀ msg ∈ e.queued, isPong msg = false
  arrived : ∃ msgs errs, e.Arrived msgs errs
  pongs_le : e.written.countP isPong ≤ e.read.countP isPing
  pongs_eq : (∃ bytes, c.serialiseMessage .pong = .ok bytes) →
    e.written.countP isPong = e.read.countP isPing
  sendQueue_le : e.sendQueue.length ≤ sendQueueDepth
  recvQueue_le : e.recvQueue.length ≤ recvChannelDepth

theorem Accounted.new (nowMs : Nat) : (Endpoint.new nowMs : Endpoint c).Accounted where
  sent := rfl
  queued_ne msg hmsg := by cases hmsg
  arrived := ⟨[], [], List.nil_prefix, fun _ => rfl, Nat.zero_le 1, fun h => absurd rfl h,
    List.nil_prefix, fun _ => rfl⟩
  pongs_le := Nat.le_refl 0
  pongs_eq _ := rfl
  sendQueue_le := Nat.zero_le _
  recvQueue_le := Nat.zero_le _

/-- What has arrived depends on these parts of an end only. -/
theorem Arrived.congr {msgs : List α} {errs : List IoError} (h : e.Arrived msgs errs)
    (hitems : e'.received ++ e'.recvQueue = e.received ++ e.recvQueue)
    (hread : e'.read.filterMap WireMessage.data? = e.read.filterMap WireMessage.data?)
    (hhand : e'.inHand = e.inHand) (hheld : e'.held = e.held) (hstop : e'.stopped = e.stopped) :
    e'.Arrived msgs errs where
  beginning := hitems ▸ h.beginning
  all := by
    rw [hheld, hitems]
    exact h.all
  errs_le := h.errs_le
  ended := by
    rw [hstop]
    exact h.ended
  fromRead := by
    rw [hhand, hread]
    exact h.fromRead
  allRead := by
    rw [hheld, hstop, hhand, hread]
    exact h.allRead

/-! ### The methods of `Connection` -/

/-- A method changes neither what was written nor what was read. -/
structure SameThread (e e' : Endpoint c) : Prop where
  written : e'.written = e.written
  read : e'.read = e.read
  reader : e'.reader = e.reader
  phase : e'.phase = e.phase

theorem SameThread.refl (e : Endpoint c) : SameThread e e := ⟨rfl, rfl, rfl, rfl⟩

theorem enqueue_spec (h : e.Accounted) (hlen : e.sendQueue.length < sendQueueDepth) (nowMs : Nat)
    {frame : WireFrame c} (hmsg : isPong frame.msg = false) :
    (e.enqueue nowMs frame).Accounted ∧ SameThread e (e.enqueue nowMs frame) := by
  refine ⟨?_, rfl, rfl, rfl, rfl⟩
  obtain ⟨msgs, errs, harr⟩ := h.arrived
  constructor
  case sent =>
    show e.accepted ++ [frame.msg] = _
    rw [h.sent, List.append_assoc]
    simp [enqueue, queued]
  case queued_ne =>
    intro msg hmem
    have hcases : msg ∈ e.queued ∨ msg = frame.msg := by
      simpa [enqueue, queued] using hmem
    cases hcases with
    | inl hmem => exact h.queued_ne msg hmem
    | inr heq => exact heq ▸ hmsg
  case arrived => exact ⟨msgs, errs, harr.congr rfl rfl rfl rfl rfl⟩
  case pongs_le => exact h.pongs_le
  case pongs_eq => exact h.pongs_eq
  case sendQueue_le =>
    show (e.sendQueue ++ [some frame]).length ≤ _
    rw [List.length_append, List.length_singleton]
    omega
  case recvQueue_le => exact h.recvQueue_le

theorem sendFrame_spec (h : e.Accounted) {nowMs : Nat} {frame : WireFrame c}
    (hmsg : isPong frame.msg = false) {r : Except ConnectionError Unit}
    (hr : e.sendFrame nowMs frame = some (r, e')) :
    e'.Accounted ∧ SameThread e e' := by
  rw [sendFrame] at hr
  split at hr
  · cases hr
    exact ⟨h, .refl e⟩
  · split at hr
    · rename_i hlen
      cases hr
      exact enqueue_spec h hlen nowMs hmsg
    · cases hr

theorem send_spec (h : e.Accounted) {nowMs : Nat} {msg : WireMessage α}
    (hmsg : isPong msg = false) {r : Except ConnectionError Unit}
    (hr : e.send nowMs msg = some (r, e')) :
    e'.Accounted ∧ SameThread e e' := by
  rw [send] at hr
  split at hr
  · cases hr
    exact ⟨h, .refl e⟩
  · exact sendFrame_spec h hmsg hr

theorem trySendFrame_spec (h : e.Accounted) (nowMs : Nat) {frame : WireFrame c}
    (hmsg : isPong frame.msg = false) :
    (e.trySendFrame nowMs frame).2.Accounted ∧ SameThread e (e.trySendFrame nowMs frame).2 := by
  rw [trySendFrame]
  split
  · exact ⟨h, .refl e⟩
  · rename_i hcond
    refine enqueue_spec h ?_ nowMs hmsg
    simp only [Bool.or_eq_true, decide_eq_true_eq, not_or] at hcond
    omega

/-- The times when something was sent or received do not matter. -/
theorem Accounted.setTimes (h : e.Accounted) (sendMs recvMs : Nat) :
    { e with lastSendMs := sendMs, lastRecvMs := recvMs }.Accounted := by
  obtain ⟨msgs, errs, harr⟩ := h.arrived
  exact ⟨h.sent, h.queued_ne, ⟨msgs, errs, harr.congr rfl rfl rfl rfl rfl⟩, h.pongs_le, h.pongs_eq,
    h.sendQueue_le, h.recvQueue_le⟩

theorem heartbeatMaintenance_spec (h : e.Accounted) {nowMs : Nat} {r : Except ConnectionError Unit}
    (hr : e.heartbeatMaintenance nowMs = some (r, e')) : e'.Accounted ∧ SameThread e e' := by
  rw [heartbeatMaintenance] at hr
  split at hr
  · cases hr
    exact ⟨h.setTimes nowMs nowMs, rfl, rfl, rfl, rfl⟩
  · obtain ⟨⟨res, e₁⟩, hsent, hrest⟩ := Option.map_eq_some_iff.mp hr
    have hspec : e₁.Accounted ∧ SameThread e e₁ := by
      split at hsent
      · exact send_spec h rfl hsent
      · cases hsent
        exact ⟨h, .refl e⟩
    have he : e' = e₁ := by
      cases res with
      | error err =>
        cases hrest
        rfl
      | ok _ =>
        simp only at hrest
        split at hrest <;> (cases hrest; rfl)
    rw [he]
    exact hspec

theorem shutdown_spec (h : e.Accounted) (hr : e.shutdown = some e') :
    e'.Accounted ∧ SameThread e e' := by
  rw [shutdown] at hr
  split at hr
  · cases hr
    exact ⟨h, .refl e⟩
  · split at hr
    · rename_i hlen
      cases hr
      refine ⟨?_, rfl, rfl, rfl, rfl⟩
      obtain ⟨msgs, errs, harr⟩ := h.arrived
      have hqueued : { e with sendQueue := e.sendQueue ++ [none] }.queued = e.queued := by
        simp [queued]
      refine ⟨?_, ?_, ⟨msgs, errs, harr.congr rfl rfl rfl rfl rfl⟩, h.pongs_le, h.pongs_eq, ?_,
        h.recvQueue_le⟩
      · rw [hqueued]
        exact h.sent
      · rw [hqueued]
        exact h.queued_ne
      · show (e.sendQueue ++ [none]).length ≤ _
        rw [List.length_append, List.length_singleton]
        omega
    · cases hr

theorem recv_spec (h : e.Accounted) {r : Except ConnectionError α}
    (hr : e.recv = some (r, e')) : e'.Accounted ∧ SameThread e e' := by
  rw [recv] at hr
  split at hr
  · rename_i item rest hqueue
    cases hr
    refine ⟨?_, rfl, rfl, rfl, rfl⟩
    obtain ⟨msgs, errs, harr⟩ := h.arrived
    refine ⟨h.sent, h.queued_ne, ⟨msgs, errs, harr.congr ?_ rfl rfl rfl rfl⟩, h.pongs_le,
      h.pongs_eq, h.sendQueue_le, ?_⟩
    · show e.received ++ [item] ++ rest = _
      rw [hqueue, List.append_assoc]
      rfl
    · have hle := h.recvQueue_le
      rw [hqueue, List.length_cons] at hle
      show rest.length ≤ _
      omega
  · split at hr
    · cases hr
      exact ⟨h, .refl e⟩
    · cases hr

theorem drop_spec (h : e.Accounted) : e.drop.Accounted ∧ SameThread e e.drop := by
  refine ⟨?_, rfl, rfl, rfl, rfl⟩
  obtain ⟨msgs, errs, harr⟩ := h.arrived
  refine ⟨h.sent, h.queued_ne, ⟨msgs, errs, ?_⟩, h.pongs_le, h.pongs_eq, h.sendQueue_le,
    Nat.zero_le _⟩
  constructor
  case beginning =>
    show e.received ++ [] <+: _
    rw [List.append_nil]
    exact (List.prefix_append _ _).trans harr.beginning
  case all =>
    intro hheld
    cases hheld
  case errs_le => exact harr.errs_le
  case ended => exact harr.ended
  case fromRead => exact harr.fromRead
  case allRead =>
    intro hor
    have hstop : e.stopped = false := by
      cases hor with
      | inl hheld => cases hheld
      | inr hstop => exact hstop
    exact harr.allRead (.inr hstop)

/-! ### The thread -/

theorem live_of_draining (h : e.phase = .draining) : e.live = true := by
  simp [live, h]

theorem live_of_polling (h : e.phase = .polling) : e.live = true := by
  simp [live, h]

theorem stopped_of_live (h : e.live = true) : e.stopped = false := by
  unfold live at h
  unfold stopped
  split
  · rename_i hphase
    rw [hphase] at h
    exact h.symm
  · rfl

/-- A step of a thread that is not delivering, to a phase with nothing new in hand. -/
theorem Arrived.advance {msgs : List α} {errs : List IoError} (h : e.Arrived msgs errs)
    (hlive : e.stopped = false) (hhand : e.inHand = [])
    (hreceived : e'.received = e.received) (hqueue : e'.recvQueue = e.recvQueue)
    (hheld : e'.held = e.held)
    (hread : e'.read.filterMap WireMessage.data?
      = e.read.filterMap WireMessage.data? ++ e'.inHand) : e'.Arrived msgs errs := by
  have herrs : errs = [] := by
    by_contra hne
    rw [h.ended hne] at hlive
    cases hlive
  have hall := h.allRead (.inr hlive)
  rw [hhand, List.append_nil] at hall
  constructor
  case beginning =>
    rw [hreceived, hqueue]
    exact h.beginning
  case all =>
    rw [hreceived, hqueue, hheld]
    exact h.all
  case errs_le => exact h.errs_le
  case ended => exact fun hne => absurd herrs hne
  case fromRead => rw [hread, hall]
  case allRead => exact fun _ => hread.trans (congrArg (· ++ e'.inHand) hall)

theorem inHand_writeFrame (e : Endpoint c) (failsAfter : Option Nat) (frame : WireFrame c) :
    (e.writeFrame failsAfter frame).1.inHand = [] := by
  cases failsAfter <;> rfl

/-- The fields that writing a frame leaves as they are, and what it adds. -/
theorem writeFrame_fields (e : Endpoint c) (failsAfter : Option Nat) (frame : WireFrame c) :
    let e' := (e.writeFrame failsAfter frame).1
    e'.written = e.written ++ [frame.msg] ∧ e'.read = e.read ∧ e'.reader = e.reader ∧
      e'.received = e.received ∧ e'.recvQueue = e.recvQueue ∧ e'.held = e.held ∧
      e'.accepted = e.accepted ∧ e'.sendQueue = e.sendQueue := by
  cases failsAfter <;> exact ⟨rfl, rfl, rfl, rfl, rfl, rfl, rfl, rfl⟩

theorem queued_cons_some {frame : WireFrame c} {rest : List (Option (WireFrame c))}
    (h : e.sendQueue = some frame :: rest) :
    e.queued = frame.msg :: { e with sendQueue := rest }.queued := by
  simp [queued, h]

theorem queued_cons_none {rest : List (Option (WireFrame c))}
    (h : e.sendQueue = none :: rest) : e.queued = { e with sendQueue := rest }.queued := by
  simp [queued, h]

theorem drain_accounted (h : e.Accounted) (hphase : e.phase = .draining)
    (failsAfter : Option Nat) : (e.drain failsAfter).1.Accounted := by
  have hstop := stopped_of_live (live_of_draining hphase)
  have hhand : e.inHand = [] := by
    simp [inHand, hphase]
  obtain ⟨msgs, errs, harr⟩ := h.arrived
  rw [drain.eq_def]
  split
  · rename_i frame rest hqueue
    have hqueued := queued_cons_some hqueue
    have hmsg : isPong frame.msg = false := h.queued_ne _ (by rw [hqueued]; exact .head _)
    have hlen := h.sendQueue_le
    rw [hqueue, List.length_cons] at hlen
    obtain ⟨hwritten, hread, -, hreceived, hrecvQueue, hheld, haccepted, hsendQueue⟩ :=
      writeFrame_fields { e with sendQueue := rest } failsAfter frame
    have hrest : ({ e with sendQueue := rest }.writeFrame failsAfter frame).1.queued
        = { e with sendQueue := rest }.queued := by
      rw [queued, hsendQueue]
      rfl
    constructor
    case sent =>
      have hone : [frame.msg].filter (!isPong ·) = [frame.msg] := by simp [hmsg]
      rw [haccepted, hwritten, hrest, List.filter_append, hone, List.append_assoc,
        List.singleton_append]
      exact h.sent.trans (congrArg (_ ++ ·) hqueued)
    case queued_ne =>
      intro msg hmem
      rw [hrest] at hmem
      exact h.queued_ne msg (by rw [hqueued]; exact .tail _ hmem)
    case arrived =>
      refine ⟨msgs, errs, harr.advance hstop hhand hreceived hrecvQueue hheld ?_⟩
      rw [inHand_writeFrame, hread, List.append_nil]
    case pongs_le =>
      rw [hwritten, hread, List.countP_append]
      simpa [hmsg] using h.pongs_le
    case pongs_eq =>
      intro hpong
      rw [hwritten, hread, List.countP_append]
      simpa [hmsg] using h.pongs_eq hpong
    case sendQueue_le =>
      rw [hsendQueue]
      show rest.length ≤ _
      omega
    case recvQueue_le =>
      rw [hrecvQueue]
      exact h.recvQueue_le
  · rename_i rest hqueue
    have hqueued := queued_cons_none hqueue
    have hlen := h.sendQueue_le
    rw [hqueue, List.length_cons] at hlen
    refine ⟨?_, ?_, ⟨msgs, errs, harr.advance hstop hhand rfl rfl rfl (List.append_nil _).symm⟩,
      h.pongs_le, h.pongs_eq, ?_, h.recvQueue_le⟩
    · exact h.sent.trans (congrArg (_ ++ ·) hqueued)
    · intro msg hmem
      exact h.queued_ne msg (hqueued ▸ hmem)
    · show rest.length ≤ _
      omega
  · refine ⟨h.sent, h.queued_ne, ⟨msgs, errs, harr.advance hstop hhand rfl rfl rfl ?_⟩,
      h.pongs_le, h.pongs_eq, h.sendQueue_le, h.recvQueue_le⟩
    cases hheld : e.held <;> simp [inHand]

theorem drain_read (e : Endpoint c) (failsAfter : Option Nat) :
    (e.drain failsAfter).1.read = e.read := by
  rw [drain.eq_def]
  split
  · exact (writeFrame_fields _ failsAfter _).2.1
  · rfl
  · rfl

theorem drain_reader (e : Endpoint c) (failsAfter : Option Nat) :
    (e.drain failsAfter).1.reader = e.reader := by
  rw [drain.eq_def]
  split
  · exact (writeFrame_fields _ failsAfter _).2.2.1
  · rfl
  · rfl

/-- What reading a message changes at the end that reads it. -/
theorem handleMessage_accounted (h : e.Accounted) (hphase : e.phase = .polling)
    (reader : FrameReader) (nowMs : Nat) (pongFails : Option Nat) (msg : WireMessage α) :
    ({ e with reader, lastRecvMs := nowMs, read := e.read ++ [msg] }.handleMessage
      pongFails msg).1.Accounted := by
  have hstop := stopped_of_live (live_of_polling hphase)
  have hhand : e.inHand = [] := by
    simp [inHand, hphase]
  obtain ⟨msgs, errs, harr⟩ := h.arrived
  cases msg with
  | data msg =>
    refine ⟨h.sent, h.queued_ne, ⟨msgs, errs, harr.advance hstop hhand rfl rfl rfl ?_⟩, ?_, ?_,
      h.sendQueue_le, h.recvQueue_le⟩
    · simp [handleMessage, inHand, WireMessage.data?]
    · simpa [handleMessage, isPing] using h.pongs_le
    · simpa [handleMessage, isPing] using h.pongs_eq
  | pong =>
    refine ⟨h.sent, h.queued_ne, ⟨msgs, errs, harr.advance hstop hhand rfl rfl rfl ?_⟩, ?_, ?_,
      h.sendQueue_le, h.recvQueue_le⟩
    · simp [handleMessage, inHand, WireMessage.data?]
    · simpa [handleMessage, isPing] using h.pongs_le
    · simpa [handleMessage, isPing] using h.pongs_eq
  | ping =>
    rw [handleMessage.eq_def]
    simp only
    split
    · rename_i bytes hpong
      let e₁ : Endpoint c := { e with reader, lastRecvMs := nowMs, read := e.read ++ [.ping] }
      obtain ⟨hwritten, hread, -, hreceived, hrecvQueue, hheld, haccepted, hsendQueue⟩ :=
        writeFrame_fields e₁ pongFails ⟨.pong, bytes, hpong⟩
      have hqueued : (e₁.writeFrame pongFails ⟨.pong, bytes, hpong⟩).1.queued = e.queued := by
        rw [queued, hsendQueue]
        rfl
      constructor
      case sent =>
        rw [haccepted, hwritten, hqueued, List.filter_append]
        simpa [isPong] using h.sent
      case queued_ne =>
        rw [hqueued]
        exact h.queued_ne
      case arrived =>
        refine ⟨msgs, errs, harr.advance hstop hhand hreceived hrecvQueue hheld ?_⟩
        rw [inHand_writeFrame, hread]
        simp [e₁, WireMessage.data?]
      case pongs_le =>
        rw [hwritten, hread]
        simpa [e₁, isPong, isPing] using h.pongs_le
      case pongs_eq =>
        intro hok
        rw [hwritten, hread]
        simpa [e₁, isPong, isPing] using h.pongs_eq hok
      case sendQueue_le =>
        rw [hsendQueue]
        exact h.sendQueue_le
      case recvQueue_le =>
        rw [hrecvQueue]
        exact h.recvQueue_le
    · rename_i err hpong
      refine ⟨h.sent, h.queued_ne, ⟨msgs, errs, harr.advance hstop hhand rfl rfl rfl ?_⟩, ?_, ?_,
        h.sendQueue_le, h.recvQueue_le⟩
      · simp [inHand, WireMessage.data?]
      · have hle := h.pongs_le
        show e.written.countP isPong ≤ (e.read ++ [WireMessage.ping]).countP isPing
        rw [List.countP_append]
        omega
      · intro hok
        obtain ⟨bytes, hok⟩ := hok
        rw [hpong] at hok
        cases hok

theorem poll_accounted (h : e.Accounted) (hphase : e.phase = .polling) (nowMs : Nat)
    (pongFails : Option Nat) (evs : List (ReadEvent UInt8)) :
    (e.poll nowMs pongFails evs).1.1.Accounted := by
  have hstop := stopped_of_live (live_of_polling hphase)
  have hhand : e.inHand = [] := by
    simp [inHand, hphase]
  obtain ⟨msgs, errs, harr⟩ := h.arrived
  rw [poll]
  split
  · exact ⟨h.sent, h.queued_ne, ⟨msgs, errs,
      harr.advance hstop hhand rfl rfl rfl (List.append_nil _).symm⟩, h.pongs_le, h.pongs_eq,
      h.sendQueue_le, h.recvQueue_le⟩
  · exact handleMessage_accounted h hphase _ nowMs pongFails _
  · exact ⟨h.sent, h.queued_ne, ⟨msgs, errs,
      harr.advance hstop hhand rfl rfl rfl (List.append_nil _).symm⟩, h.pongs_le, h.pongs_eq,
      h.sendQueue_le, h.recvQueue_le⟩

theorem deliver_spec (h : e.Accounted) {item : Except IoError α}
    (hphase : e.phase = .delivering item) (hr : e.deliver item = some e') :
    e'.Accounted ∧ e'.written = e.written ∧ e'.read = e.read ∧ e'.reader = e.reader ∧
      (e'.live = true → e.live = true) := by
  have hstop : e.stopped = false := by
    simp [stopped, hphase]
  obtain ⟨msgs, errs, harr⟩ := h.arrived
  have herrs : errs = [] := by
    by_contra hne
    rw [harr.ended hne] at hstop
    cases hstop
  subst herrs
  have hall := harr.allRead (.inr hstop)
  rw [deliver.eq_def] at hr
  split at hr
  · rename_i hheld
    cases hr
    refine ⟨⟨h.sent, h.queued_ne, ⟨msgs, [], ?_⟩, h.pongs_le, h.pongs_eq, h.sendQueue_le,
      h.recvQueue_le⟩, rfl, rfl, rfl, fun hlive => by cases hlive⟩
    constructor
    case beginning => exact harr.beginning
    case all => exact harr.all
    case errs_le => exact harr.errs_le
    case ended => exact fun hne => absurd rfl hne
    case fromRead =>
      show msgs ++ [] <+: _
      rw [List.append_nil]
      exact (List.prefix_append _ _).trans harr.fromRead
    case allRead =>
      intro hor
      cases hor with
      | inl hheld' =>
        have hheld' : e.held = true := hheld'
        rw [hheld'] at hheld
        cases hheld
      | inr hstop' => cases hstop'
  · split at hr
    · rename_i hheld hlen
      have hheld : e.held = true := by simpa using hheld
      have hitems := harr.all hheld
      rw [List.map_nil, List.append_nil] at hitems
      cases hr
      cases item with
      | ok msg =>
        have hhand : e.inHand = [msg] := by
          simp [inHand, hphase]
        rw [hhand] at hall
        have harr' : ({ e with recvQueue := e.recvQueue ++ [.ok msg], phase := .draining }
            : Endpoint c).Arrived (msgs ++ [msg]) [] := by
          have hnew : e.received ++ (e.recvQueue ++ [.ok msg]) =
              (msgs ++ [msg]).map .ok ++ ([] : List IoError).map .error := by
            rw [← List.append_assoc, hitems]
            simp
          refine ⟨hnew ▸ List.prefix_rfl, fun _ => hnew, Nat.zero_le 1,
            fun hne => absurd rfl hne, ?_, fun _ => ?_⟩
          · show msgs ++ [msg] ++ [] <+: _
            rw [List.append_nil]
            exact hall ▸ List.prefix_rfl
          · show _ = msgs ++ [msg] ++ []
            rw [List.append_nil]
            exact hall
        refine ⟨⟨h.sent, h.queued_ne, ⟨_, _, harr'⟩, h.pongs_le, h.pongs_eq, h.sendQueue_le, ?_⟩,
          rfl, rfl, rfl, fun _ => by simp [live, hphase]⟩
        show (e.recvQueue ++ [Except.ok msg]).length ≤ _
        rw [List.length_append, List.length_singleton]
        omega
      | error err =>
        have hhand : e.inHand = [] := by
          simp [inHand, hphase]
        rw [hhand] at hall
        have harr' : ({ e with recvQueue := e.recvQueue ++ [.error err], phase := .ended }
            : Endpoint c).Arrived msgs [err] := by
          have hnew : e.received ++ (e.recvQueue ++ [.error err]) =
              msgs.map .ok ++ [err].map .error := by
            rw [← List.append_assoc, hitems]
            rfl
          exact ⟨hnew ▸ List.prefix_rfl, fun _ => hnew, Nat.le_refl 1, fun _ => rfl,
            hall ▸ List.prefix_rfl, fun _ => hall⟩
        refine ⟨⟨h.sent, h.queued_ne, ⟨_, _, harr'⟩, h.pongs_le, h.pongs_eq, h.sendQueue_le, ?_⟩,
          rfl, rfl, rfl, fun hlive => by cases hlive⟩
        show (e.recvQueue ++ [Except.error err]).length ≤ _
        rw [List.length_append, List.length_singleton]
        omega
    · cases hr

end Endpoint

end ByteHive
