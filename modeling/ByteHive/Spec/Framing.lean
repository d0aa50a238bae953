import ByteHive.Native.Transport

/-!
# Framing is lossless under fragmentation

However a reader splits a stream of frames, and however often it times out in between,
`FrameReader.poll` yields the messages of the frames in order, and nothing at a timeout:
`FrameReader.polls_frames`. On the whole stream `read_message` yields the same messages.

The state of a `FrameReader` stands for the bytes that it has of the frame it is reading:
`FrameReader.Reading`. These and the bytes to come are always a stream of frames.
-/

namespace ByteHive

open ReadEvent

theorem fromBeBytes_toBeBytes (n : UInt32) : fromBeBytes (toBeBytes n) = n := by
  apply UInt32.toBitVec_inj.mp
  apply BitVec.eq_of_getLsbD_eq
  intro i hi
  simp only [fromBeBytes, toBeBytes, List.foldl_cons, List.foldl_nil, UInt32.toBitVec_or,
    UInt32.toBitVec_shiftLeft, UInt8.toBitVec_toUInt32, UInt32.toBitVec_toUInt8,
    UInt32.toBitVec_shiftRight]
  simp
  grind

namespace Codec

variable {M : Type}

/-- Decoding undoes encoding, and a body is never empty. -/
structure Lawful (c : Codec M) : Prop where
  decompress : ∀ msg raw, c.serialize msg = .ok raw →
    c.decompressSizePrepended (c.compressPrependSize raw) = .ok raw
  deserialize : ∀ msg raw, c.serialize msg = .ok raw → c.deserialize raw = .ok msg
  nonempty : ∀ msg raw, c.serialize msg = .ok raw → c.compressPrependSize raw ≠ []

/-- A header and the body it announces. -/
structure IsFrame (c : Codec M) (msg : M) (hdr body : List UInt8) : Prop where
  hdr_length : hdr.length = 4
  len : (fromBeBytes hdr).toNat = body.length
  le : body.length ≤ maxFrameBytes
  nonempty : body ≠ []
  decode : c.decodeBody body = .ok msg

/-- A stream of frames, one for each message. -/
inductive Stream (c : Codec M) : List M → List UInt8 → Prop where
  | nil : Stream c [] []
  | cons {msg msgs hdr body bytes} : c.IsFrame msg hdr body → Stream c msgs bytes →
      Stream c (msg :: msgs) (hdr ++ (body ++ bytes))

theorem serialiseMessage_eq_ok {c : Codec M} (hc : c.Lawful) {msg : M} {frame : List UInt8}
    (h : c.serialiseMessage msg = .ok frame) :
    ∃ hdr body, frame = hdr ++ body ∧ c.IsFrame msg hdr body := by
  simp only [serialiseMessage, bind, Except.bind] at h
  cases hraw : c.serialize msg with
  | error text => simp [hraw, invalidData] at h
  | ok raw =>
    simp only [hraw, invalidData] at h
    by_cases hlen : (c.compressPrependSize raw).length > maxFrameBytes
    · simp [hlen, throw, throwThe, MonadExceptOf.throw] at h
    · simp only [if_neg hlen, pure, Except.pure, Except.ok.injEq] at h
      have hle : (c.compressPrependSize raw).length ≤ maxFrameBytes := by omega
      have hu32 : (c.compressPrependSize raw).length < 2 ^ 32 := by
        unfold maxFrameBytes at hle
        omega
      refine ⟨_, _, h.symm, rfl, ?_, hle, hc.nonempty msg raw hraw, ?_⟩
      · rw [fromBeBytes_toBeBytes, UInt32.toNat_ofNat', Nat.mod_eq_of_lt hu32]
      · simp only [decodeBody, bind, Except.bind, hc.decompress msg raw hraw, invalidData,
          hc.deserialize msg raw hraw]

/-- The frames that `serialise_message` builds are a stream. -/
theorem Stream.of_frames {c : Codec M} (hc : c.Lawful) {msgs : List M}
    {frames : List (List UInt8)} (h : msgs.mapM c.serialiseMessage = .ok frames) :
    c.Stream msgs frames.flatten := by
  induction msgs generalizing frames with
  | nil =>
    rw [List.mapM_nil] at h
    cases h
    exact .nil
  | cons msg msgs ih =>
    rw [List.mapM_cons] at h
    simp only [bind, Except.bind] at h
    cases hframe : c.serialiseMessage msg with
    | error e => simp [hframe] at h
    | ok frame =>
      cases hframes : msgs.mapM c.serialiseMessage with
      | error e => simp [hframe, hframes] at h
      | ok frames' =>
        simp only [hframe, hframes, pure, Except.pure, Except.ok.injEq] at h
        obtain ⟨hdr, body, rfl, hf⟩ := serialiseMessage_eq_ok hc hframe
        rw [← h, List.flatten_cons, List.append_assoc]
        exact .cons hf (ih hframes)

/-- A stream that starts with the bytes of a header starts with its frame. -/
theorem Stream.of_hdr {c : Codec M} {msgs : List M} {hdr rest : List UInt8}
    (h : c.Stream msgs (hdr ++ rest)) (hlen : hdr.length = 4) :
    ∃ msg msgs' body bytes, msgs = msg :: msgs' ∧ rest = body ++ bytes ∧
      c.IsFrame msg hdr body ∧ c.Stream msgs' bytes := by
  generalize hall : hdr ++ rest = all at h
  cases h with
  | nil =>
    have hnil := congrArg List.length hall
    rw [List.length_append, List.length_nil] at hnil
    omega
  | @cons msg msgs' hdr' body bytes hf hs =>
    obtain ⟨rfl, rfl⟩ := List.append_inj hall (hlen.trans hf.hdr_length.symm)
    exact ⟨msg, msgs', body, bytes, rfl, rfl, hf, hs⟩

/-- A stream that is shorter than a header is empty. -/
theorem Stream.eq_nil {c : Codec M} {msgs : List M} {bytes : List UInt8}
    (h : c.Stream msgs bytes) (hlen : bytes.length < 4) : msgs = [] := by
  cases h with
  | nil => rfl
  | cons hf hs =>
    rw [List.length_append, hf.hdr_length] at hlen
    omega

end Codec

/-! ## Reading the whole stream -/

theorem readExact_append {n : Nat} {bs rest : List UInt8} (h : bs.length = n) :
    readExact n (bs ++ rest) = .ok (bs, rest) := by
  have hle : ¬ (bs ++ rest).length < n := by
    rw [List.length_append]
    omega
  rw [readExact, if_neg hle, List.take_left' h, List.drop_left' h]

section ReadMessage

variable {M : Type} {c : Codec M} {msg : M} {msgs : List M} {hdr body bytes : List UInt8}

theorem readMessage_frame (hf : c.IsFrame msg hdr body) (rest : List UInt8) :
    readMessage c (hdr ++ (body ++ rest)) = .ok (msg, rest) := by
  have hle : ¬ (fromBeBytes hdr).toNat > maxFrameBytes := by
    rw [hf.len]
    exact Nat.not_lt.mpr hf.le
  simp only [readMessage, bind, Except.bind, readExact_append hf.hdr_length, if_neg hle,
    pure, Except.pure, readExact_append hf.len.symm, hf.decode]

theorem readMessage_nil :
    readMessage c [] = .error ⟨.unexpectedEof, "failed to fill whole buffer"⟩ := rfl

theorem readMessages_stream (hs : c.Stream msgs bytes) (n : Nat) :
    readMessages c n bytes = (msgs.map Except.ok ++
      [Except.error (⟨.unexpectedEof, "failed to fill whole buffer"⟩ : IoError)]).take n := by
  induction hs generalizing n with
  | nil =>
    cases n with
    | zero => rfl
    | succ n =>
      rw [readMessages, readMessage_nil]
      exact (List.take_of_length_le (by simp)).symm
  | cons hf hs ih =>
    cases n with
    | zero => rfl
    | succ n =>
      rw [readMessages, readMessage_frame hf]
      simp only [ih n, List.map_cons, List.cons_append, List.take_succ_cons]

end ReadMessage

/-! ## Reading in pieces -/

namespace FrameReader

/-- The bytes that a reader has of the frame it is reading. -/
inductive Reading : FrameReader → List UInt8 → Prop where
  | header {hdr hdrPos bodyPos bodyLen} : hdr.length = 4 → hdrPos ≤ 4 →
      Reading ⟨hdr, hdrPos, [], bodyPos, bodyLen⟩ (hdr.take hdrPos)
  | body {hdr body bodyPos} : hdr.length = 4 → body ≠ [] → bodyPos ≤ body.length →
      (fromBeBytes hdr).toNat = body.length →
      Reading ⟨hdr, 4, body, bodyPos, body.length⟩ (hdr ++ body.take bodyPos)

theorem Reading.new : Reading new [] := .header rfl (Nat.zero_le 4)

/-- What one `poll` does where the bytes at hand and those to come are a stream. -/
inductive Polled {M : Type} (c : Codec M) (evs : List (ReadEvent UInt8)) :
    List M → Except IoError (Option M) → FrameReader → List (ReadEvent UInt8) → Prop where
  /-- A timeout. -/
  | waits {msgs s' got evs'} : Reading s' got → Steady evs' →
      c.Stream msgs (got ++ payload evs') → timeouts evs = timeouts evs' + 1 →
      Polled c evs msgs (.ok none) s' evs'
  /-- The next message. -/
  | yields {msg msgs s' evs'} : Reading s' [] → Steady evs' →
      c.Stream msgs (payload evs') → timeouts evs = timeouts evs' →
      Polled c evs (msg :: msgs) (.ok (some msg)) s' evs'
  /-- The end of the stream. -/
  | ends {s'} : timeouts evs = 0 →
      Polled c evs [] (.error ⟨.unexpectedEof, "connection closed"⟩) s' []

variable {M : Type} {c : Codec M} {msgs : List M} {s : FrameReader} {got : List UInt8}
  {evs : List (ReadEvent UInt8)}

theorem Polled.of_timeouts {evs' : List (ReadEvent UInt8)} {res : Except IoError (Option M)}
    {r : List (ReadEvent UInt8)} (h : Polled c evs msgs res s r)
    (htime : timeouts evs = timeouts evs') : Polled c evs' msgs res s r := by
  cases h with
  | waits hread hevs hs ht => exact .waits hread hevs hs (htime.symm.trans ht)
  | yields hread hevs hs ht => exact .yields hread hevs hs (htime.symm.trans ht)
  | ends ht => exact .ends (htime.symm.trans ht)

/-- The second loop, where the header is complete. -/
theorem pollBody_spec {hdr body : List UInt8} {bodyPos : Nat} (hhdr : hdr.length = 4)
    (hne : body ≠ []) (hpos : bodyPos ≤ body.length)
    (hlen : (fromBeBytes hdr).toNat = body.length) (hevs : Steady evs)
    (hs : c.Stream msgs (hdr ++ (body.take bodyPos ++ payload evs))) :
    ∃ res s' evs', pollBody c ⟨hdr, 4, body, bodyPos, body.length⟩ evs = (res, s', evs') ∧
      Polled c evs msgs res s' evs' := by
  obtain ⟨stop, body', bodyPos', evs', hfill, hf⟩ :=
    fill_spec rfl hpos hevs
  have hne' : body' ≠ [] := by
    intro hnil
    have hlen' := hf.length
    rw [hnil] at hlen'
    exact hne (List.length_eq_zero_iff.mp hlen'.symm)
  have hs' : c.Stream msgs (hdr ++ (body'.take bodyPos' ++ payload evs')) := by
    rw [hf.bytes]
    exact hs
  rw [pollBody, hfill]
  cases stop with
  | full =>
    -- The body is complete: it is the body of the first frame of the stream.
    obtain ⟨hpos', htime⟩ := hf.full rfl
    have htake : body'.take bodyPos' = body' := by
      rw [hpos', ← hf.length]
      exact List.take_length ..
    rw [htake] at hs'
    obtain ⟨msg, msgs', body₀, bytes, rfl, hrest, hframe, hs₀⟩ := hs'.of_hdr hhdr
    have hlen₀ : body'.length = body₀.length := by
      rw [hf.length, ← hframe.len, hlen]
    obtain ⟨rfl, rfl⟩ := List.append_inj hrest hlen₀
    have hread : Reading ⟨hdr, 0, [], 0, 0⟩ [] := .header hhdr (Nat.zero_le 4)
    refine ⟨.ok (some msg), ⟨hdr, 0, [], 0, 0⟩, evs', ?_, .yields hread hf.steady hs₀ htime.symm⟩
    simp only [decode, hframe.decode, if_true]
  | timeout =>
    refine ⟨.ok none, ⟨hdr, 4, body', bodyPos', body.length⟩, evs', ?_, ?_⟩
    · simp [stopped]
    · rw [← List.append_assoc] at hs'
      rw [← hf.length]
      have hle : bodyPos' ≤ body'.length := by
        rw [hf.length]
        exact hf.pos_le
      exact .waits (.body hhdr hne' hle (hlen.trans hf.length.symm)) hf.steady hs' (hf.timeout rfl)
  | closed =>
    -- The stream would end inside a frame.
    obtain ⟨hlt, hend, -⟩ := hf.closed rfl
    obtain ⟨msg, msgs', body₀, bytes, -, hrest, hframe, -⟩ := hs'.of_hdr hhdr
    have hshort := congrArg List.length hrest
    rw [hend, payload, List.append_nil, List.length_take, List.length_append, ← hframe.len, hlen]
      at hshort
    omega
  | failed => exact absurd rfl hf.not_failed

/-- One `poll`. -/
theorem poll_spec (hread : Reading s got) (hevs : Steady evs)
    (hs : c.Stream msgs (got ++ payload evs)) :
    ∃ res s' evs', s.poll c evs = (res, s', evs') ∧ Polled c evs msgs res s' evs' := by
  cases hread with
  | @body hdr body bodyPos hhdr hne hpos hlen =>
    have hempty : body.isEmpty = false := by
      rw [List.isEmpty_eq_false_iff]
      exact hne
    rw [List.append_assoc] at hs
    rw [poll, fill_of_le (Nat.le_refl 4)]
    simp only [hempty, Bool.false_eq_true, if_true, if_false]
    exact pollBody_spec hhdr hne hpos hlen hevs hs
  | @header hdr hdrPos bodyPos bodyLen hhdr hpos =>
    obtain ⟨stop, hdr', hdrPos', evs', hfill, hf⟩ := fill_spec hhdr hpos hevs
    have hs' : c.Stream msgs (hdr'.take hdrPos' ++ payload evs') := by
      rw [hf.bytes]
      exact hs
    rw [poll, hfill]
    cases stop with
    | full =>
      -- The header is complete: it announces the body of the first frame.
      obtain ⟨hpos', htime⟩ := hf.full rfl
      have htake : hdr'.take hdrPos' = hdr' := by
        rw [hpos', ← hf.length]
        exact List.take_length ..
      rw [htake] at hs'
      obtain ⟨msg, msgs', body, bytes, rfl, hrest, hframe, -⟩ := hs'.of_hdr hf.length
      have hle : ¬ (fromBeBytes hdr').toNat > maxFrameBytes := by
        rw [hframe.len]
        exact Nat.not_lt.mpr hframe.le
      have hne : List.replicate (fromBeBytes hdr').toNat (0 : UInt8) ≠ [] := by
        intro hnil
        have hzero := congrArg List.length hnil
        rw [List.length_replicate, hframe.len] at hzero
        exact hframe.nonempty (List.length_eq_zero_iff.mp hzero)
      have hs₀ : c.Stream (msg :: msgs') (hdr' ++
          ((List.replicate (fromBeBytes hdr').toNat 0).take 0 ++ payload evs')) := hs'
      obtain ⟨res, s', evs'', hbody, hpolled⟩ :=
        pollBody_spec hf.length hne (Nat.zero_le _) List.length_replicate.symm hf.steady hs₀
      rw [List.length_replicate] at hbody
      refine ⟨res, s', evs'', ?_, hpolled.of_timeouts htime⟩
      simp only [if_true, List.isEmpty_nil, if_neg hle, hpos']
      exact hbody
    | timeout =>
      refine ⟨.ok none, ⟨hdr', hdrPos', [], bodyPos, bodyLen⟩, evs', ?_, ?_⟩
      · simp [stopped]
      · exact .waits (.header hf.length hf.pos_le) hf.steady hs' (hf.timeout rfl)
    | closed =>
      obtain ⟨hlt, rfl, htime⟩ := hf.closed rfl
      rw [payload, List.append_nil] at hs'
      have hshort : (hdr'.take hdrPos').length < 4 := by
        rw [List.length_take]
        omega
      obtain rfl := hs'.eq_nil hshort
      exact ⟨_, ⟨hdr', hdrPos', [], bodyPos, bodyLen⟩, [], rfl, .ends htime⟩
    | failed => exact absurd rfl hf.not_failed

/-- Every `poll` on a stream, up to its end. -/
theorem polls_stream (hread : Reading s got) (hevs : Steady evs)
    (hs : c.Stream msgs (got ++ payload evs)) :
    ∃ results : List (Option M), results.filterMap id = msgs ∧ ∀ n,
      (polls c n s evs).1 = (results.map Except.ok ++
        [Except.error (⟨.unexpectedEof, "connection closed"⟩ : IoError)]).take n ∧
      timeouts evs = (results.take n).countP Option.isNone + timeouts (polls c n s evs).2 := by
  -- Each `poll` uses up a message or a timeout.
  induction hk : msgs.length + timeouts evs using Nat.strongRecOn generalizing msgs s got evs with
  | _ k ih =>
    obtain ⟨res, s', evs', hpoll, hpolled⟩ := poll_spec hread hevs hs
    cases hpolled with
    | waits hread' hevs' hs' ht =>
      obtain ⟨results, hmsgs, hpolls⟩ := ih _ (by omega) hread' hevs' hs' rfl
      refine ⟨none :: results, hmsgs, fun n => ?_⟩
      cases n with
      | zero => exact ⟨rfl, by simp [polls]⟩
      | succ n =>
        obtain ⟨hres, htime⟩ := hpolls n
        constructor
        · simp only [polls, hpoll, hres, List.map_cons, List.cons_append, List.take_succ_cons]
        · simp only [polls, hpoll, List.take_succ_cons, List.countP_cons, Option.isNone_none,
            if_true]
          omega
    | @yields msg msgs' _ _ hread' hevs' hs' ht =>
      rw [List.length_cons] at hk
      obtain ⟨results, hmsgs, hpolls⟩ := ih _ (by omega) hread' hevs' hs' rfl
      refine ⟨some msg :: results, congrArg (msg :: ·) hmsgs, fun n => ?_⟩
      cases n with
      | zero => exact ⟨rfl, by simp [polls]⟩
      | succ n =>
        obtain ⟨hres, htime⟩ := hpolls n
        constructor
        · simp only [polls, hpoll, hres, List.map_cons, List.cons_append, List.take_succ_cons]
        · simp only [polls, hpoll, List.take_succ_cons, List.countP_cons, Option.isNone_some,
            Bool.false_eq_true, if_false]
          omega
    | ends ht =>
      refine ⟨[], rfl, fun n => ?_⟩
      cases n with
      | zero => exact ⟨rfl, by simp [polls]⟩
      | succ n => exact ⟨by simp [polls, hpoll], by simp [polls, hpoll, ht, timeouts]⟩

/-- However the frames of `msgs` arrive, in pieces of any size and with timeouts in between,
    the polls yield the messages in order and `none` once for each timeout, then the end of the
    stream. `read_message` yields the same messages of the whole stream. -/
theorem polls_frames (hc : c.Lawful) {frames : List (List UInt8)}
    (hframes : msgs.mapM c.serialiseMessage = .ok frames) (hevs : Steady evs)
    (hpayload : payload evs = frames.flatten) :
    (∃ results : List (Option M), results.filterMap id = msgs ∧ ∀ n,
      (polls c n new evs).1 = (results.map Except.ok ++
        [Except.error (⟨.unexpectedEof, "connection closed"⟩ : IoError)]).take n ∧
      timeouts evs = (results.take n).countP Option.isNone + timeouts (polls c n new evs).2) ∧
    ∀ n, readMessages c n frames.flatten = (msgs.map Except.ok ++
      [Except.error (⟨.unexpectedEof, "failed to fill whole buffer"⟩ : IoError)]).take n := by
  have hs := Codec.Stream.of_frames hc hframes
  constructor
  · refine polls_stream .new hevs ?_
    rw [List.nil_append, hpayload]
    exact hs
  · exact readMessages_stream hs

end FrameReader

/-! ## The heartbeat messages -/

inductive Heartbeat where
  | ping
  | pong
deriving DecidableEq, Repr

/-- The two libraries on the heartbeat messages: a variant index of four bytes, which lz4 leaves
    as it is behind the size and a token. -/
def heartbeatCodec : Codec Heartbeat where
  serialize
    | .ping => .ok [16, 0, 0, 0]
    | .pong => .ok [17, 0, 0, 0]
  deserialize raw :=
    if raw = [16, 0, 0, 0] then .ok .ping
    else if raw = [17, 0, 0, 0] then .ok .pong
    else .error "invalid variant index"
  compressPrependSize raw := [4, 0, 0, 0, 64] ++ raw
  decompressSizePrepended body :=
    if body.take 5 = [4, 0, 0, 0, 64] then .ok (body.drop 5) else .error "invalid block"

theorem heartbeatCodec_lawful : heartbeatCodec.Lawful where
  decompress msg raw h := by
    cases msg <;> cases h <;> rfl
  deserialize msg raw h := by
    cases msg <;> cases h <;> rfl
  nonempty msg raw h := by
    cases msg <;> cases h <;> decide

theorem FrameReader.polls_frames_heartbeat :
    let frames : List (List UInt8) :=
      [[0, 0, 0, 9, 4, 0, 0, 0, 64, 16, 0, 0, 0], [0, 0, 0, 9, 4, 0, 0, 0, 64, 17, 0, 0, 0]]
    let evs : List (ReadEvent UInt8) :=
      [.data [0, 0], .timeout, .data [0, 9, 4], .data [0, 0, 0, 64, 16, 0], .timeout, .timeout,
        .data [0, 0, 0, 0, 0, 9, 4, 0, 0, 0, 64, 17, 0, 0, 0]]
    (∃ results : List (Option Heartbeat), results.filterMap id = [.ping, .pong] ∧ ∀ n,
      (polls heartbeatCodec n new evs).1 = (results.map Except.ok ++
        [Except.error (⟨.unexpectedEof, "connection closed"⟩ : IoError)]).take n ∧
      timeouts evs
        = (results.take n).countP Option.isNone + timeouts (polls heartbeatCodec n new evs).2) ∧
    ∀ n, readMessages heartbeatCodec n frames.flatten = ([Heartbeat.ping, .pong].map Except.ok ++
      [Except.error (⟨.unexpectedEof, "failed to fill whole buffer"⟩ : IoError)]).take n :=
  FrameReader.polls_frames heartbeatCodec_lawful rfl
    (by
      intro ev hev
      revert ev
      simp)
    rfl

end ByteHive
