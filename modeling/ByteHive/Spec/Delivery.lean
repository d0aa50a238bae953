import ByteHive.Spec.Registration

/-!
# What reaches a joining or slow peer

A client learns of the actions of another one in two ways: through the manifest and the
plan of its initial sync, or through its broadcast queue.

Key results:
- `session_step`, `session_run`: what steps of other threads leave of a session.
- `planned_or_queued`: an action applied before the manifest is taken is behind that
  manifest, and a broadcast that finds the sender and room in its queue is never lost.
-/

namespace ByteHive

namespace Session

/-- The frames that have been put into the broadcast channel, in order. -/
def delivered (s : Session) : List Message := s.forwarded ++ s.queue

/-- The session syncs from the manifest `locl` against the manifest `remote` of its client,
    and its plan is made from the two; or it is over. -/
def SyncsFrom (locl remote : Manifest) (s : Session) : Prop :=
  match s.phase with
  | .draining => False
  | .planning l r => l = locl ∧ r = remote
  | .syncing plan => ∃ h e, plan = (initialPlan h e locl remote).1
  | .registered plan => ∃ h e, plan = (initialPlan h e locl remote).1
  | .live plan => ∃ h e, plan = (initialPlan h e locl remote).1
  | .ended => True
  | .closed => True

/-- What a step `ev` of the server keeps of the session of connection `c`. -/
structure Keeping (c : Nat) (ev : ServerEvent) (s s' : Session) : Prop where
  nodeId : s'.nodeId = s.nodeId
  delivered : s.delivered <+: s'.delivered
  /-- The broadcast of an applied message stays due until it is made. -/
  relaying : ∀ m, ev ≠ .relay c → s.relaying = some m → s'.relaying = some m
  syncsFrom : ∀ locl remote, s.SyncsFrom locl remote → s'.SyncsFrom locl remote

theorem Keeping.refl (c : Nat) (ev : ServerEvent) (s : Session) : Keeping c ev s s :=
  ⟨rfl, List.prefix_rfl, fun _ _ h => h, fun _ _ h => h⟩

/-- Another message in the queue. -/
theorem Keeping.push (c : Nat) (ev : ServerEvent) (s : Session) (m : Message) :
    Keeping c ev s { s with queue := s.queue ++ [m] } :=
  ⟨rfl, ⟨[m], by simp [Session.delivered]⟩, fun _ _ h => h, fun _ _ h => h⟩

end Session

namespace ServerState

open Session

theorem get_broadcastToOthers (σ : ServerState) (id : String) (msg : Message) (c : Nat) :
    (σ.broadcastToOthers id msg).sessions.get c = (σ.sessions.get c).map fun s =>
      if (∃ id' ∈ σ.peers.keys, id' ≠ id ∧ σ.peers.get id' = some c) ∧ s.forwarding = true ∧
          s.queue.length < clientBroadcastDepth then { s with queue := s.queue ++ [msg] }
      else s := rfl

/-- A step of the thread of `c` changes its own session only, apart from a broadcast. -/
theorem threadStep_other {σ σ' : ServerState} {c a : Nat} {s sa : Session} {ev : ServerEvent}
    (hne : a ≠ c) (ha : σ.sessions.get a = some sa) (h : σ.threadStep c s ev = some σ') :
    ∃ sa', σ'.sessions.get a = some sa' ∧ Keeping a ev sa sa' := by
  have hset : ∀ s', (σ.setSession c s').sessions.get a = some sa := fun s' => by
    simp [setSession, hne, ha]
  cases ev with
  | engineChange e => cases h
  | accept c' nodeId => cases h
  | relay c' =>
    simp only [threadStep] at h
    split at h
    · obtain rfl := Option.some.inj h
      rw [get_broadcastToOthers, hset, Option.map_some]
      refine ⟨_, rfl, ?_⟩
      split
      · exact Keeping.push a _ sa _
      · exact Keeping.refl a _ sa
    · contradiction
  | apply c' host msg =>
    simp only [threadStep] at h
    split at h
    · split at h <;> obtain rfl := Option.some.inj h
      all_goals exact ⟨sa, hset _, Keeping.refl a _ sa⟩
    · contradiction
  | forwarderEnds c' =>
    obtain rfl := Option.some.inj h
    exact ⟨sa, hset _, Keeping.refl a _ sa⟩
  | snapshot c' host remote | plan c' host | spawnFailed c' | abort c' | recvEnds c'
  | register c' | startRecv c' | forward c' | remove c' =>
    simp only [threadStep] at h
    split at h
    all_goals first
      | contradiction
      | (obtain rfl := Option.some.inj h
         exact ⟨sa, hset _, Keeping.refl a _ sa⟩)

/-- What a step of the thread of `c` keeps of its own session. -/
theorem threadStep_own {σ σ' : ServerState} {c : Nat} {s : Session} {ev : ServerEvent}
    (hs : σ.sessions.get c = some s) (hc : conn? ev = some c)
    (h : σ.threadStep c s ev = some σ') :
    ∃ s', σ'.sessions.get c = some s' ∧ Keeping c ev s s' := by
  have hset : ∀ s', (σ.setSession c s').sessions.get c = some s' := fun s' => by simp [setSession]
  cases ev with
  | engineChange e => cases h
  | accept c' nodeId => cases h
  | relay c' =>
    obtain rfl : c' = c := Option.some.inj hc
    simp only [threadStep] at h
    split at h
    · next m hm =>
      obtain rfl := Option.some.inj h
      rw [get_broadcastToOthers, hset, Option.map_some]
      refine ⟨_, rfl, ?_⟩
      have hnone : Keeping c' (.relay c') s { s with relaying := none } :=
        ⟨rfl, List.prefix_rfl, fun _ hne => absurd rfl hne, fun _ _ h => h⟩
      split
      · exact ⟨rfl, ⟨[m], by simp [Session.delivered]⟩, hnone.relaying, hnone.syncsFrom⟩
      · exact hnone
    · contradiction
  | apply c' host msg =>
    simp only [threadStep] at h
    split at h
    · next hrecv =>
      -- The thread applies a message only when no broadcast is due.
      have hdue : ∀ (r : Option Message) (m : Message),
          ServerEvent.apply c' host msg ≠ .relay c → s.relaying = some m → r = some m :=
        fun r m _ hm => by simp [hrecv.2] at hm
      split at h
      · next plan hphase =>
        obtain rfl := Option.some.inj h
        refine ⟨_, hset _, ?_⟩
        split
        · exact ⟨rfl, List.prefix_rfl, hdue _, fun _ _ h => h⟩
        · exact ⟨rfl, List.prefix_rfl, hdue _, fun _ _ _ => trivial⟩
      · obtain rfl := Option.some.inj h
        exact ⟨_, hset _, rfl, List.prefix_rfl, hdue _, fun _ _ h => h⟩
    · contradiction
  | forward c' =>
    simp only [threadStep] at h
    split at h
    · next m rest hq _ =>
      obtain rfl := Option.some.inj h
      exact ⟨_, hset _, rfl, by simp [Session.delivered, hq], fun _ _ h => h, fun _ _ h => h⟩
    · contradiction
  | forwarderEnds c' =>
    obtain rfl := Option.some.inj h
    exact ⟨_, hset _, rfl, List.prefix_rfl, fun _ _ h => h, fun _ _ h => h⟩
  | plan c' host =>
    simp only [threadStep] at h
    split at h
    · next locl remote hphase =>
      obtain rfl := Option.some.inj h
      refine ⟨_, hset _, rfl, List.prefix_rfl, fun _ _ h => h, fun l r hsync => ?_⟩
      simp only [SyncsFrom, hphase] at hsync
      obtain ⟨rfl, rfl⟩ := hsync
      exact ⟨host, σ.engine, rfl⟩
    · contradiction
  | snapshot c' host remote | spawnFailed c' | abort c' | recvEnds c' | register c'
  | startRecv c' | remove c' =>
    simp only [threadStep] at h
    split at h
    all_goals first
      | contradiction
      | (obtain rfl := Option.some.inj h
         refine ⟨_, hset _, rfl, List.prefix_rfl, fun m _ hm => ?_, fun l r hsync => ?_⟩
         · simpa using hm
         · simp_all [SyncsFrom])

/-- What a step of the server keeps of a session. -/
theorem session_step {σ σ' : ServerState} {a : Nat} {s : Session} {ev : ServerEvent}
    (hs : σ.sessions.get a = some s) (h : σ.step ev = some σ') :
    ∃ s', σ'.sessions.get a = some s' ∧ Keeping a ev s s' := by
  rcases step_inv h with ⟨e, rfl, rfl⟩ | ⟨c, id, rfl, hc, rfl⟩ | ⟨c, t, hc, ht, hstep⟩
  · exact ⟨s, hs, Keeping.refl a _ s⟩
  · have hne : a ≠ c := by
      rintro rfl
      simp [hc] at hs
    exact ⟨s, by simp [setSession, hne, hs], Keeping.refl a _ s⟩
  · by_cases hac : a = c
    · subst hac
      obtain rfl : t = s := Option.some.inj (ht.symm.trans hs)
      exact threadStep_own hs hc hstep
    · exact threadStep_other hac hs hstep

/-- What a run keeps of a session. -/
theorem session_run {σ σ' : ServerState} {a : Nat} {s : Session} {evs : List ServerEvent}
    (hs : σ.sessions.get a = some s) (h : Run.runFrom step σ evs = some σ') :
    ∃ s', σ'.sessions.get a = some s' ∧ s'.nodeId = s.nodeId ∧ s.delivered <+: s'.delivered ∧
      (∀ m, .relay a ∉ evs → s.relaying = some m → s'.relaying = some m) ∧
      ∀ locl remote, s.SyncsFrom locl remote → s'.SyncsFrom locl remote := by
  induction evs generalizing σ s with
  | nil =>
    obtain rfl : σ = σ' := Option.some.inj h
    exact ⟨s, hs, rfl, List.prefix_rfl, fun _ _ h => h, fun _ _ h => h⟩
  | cons ev evs ih =>
    obtain ⟨τ, hτ, hrest⟩ := Run.runFrom_cons.mp h
    obtain ⟨t, ht, hkept⟩ := session_step hs hτ
    obtain ⟨s', hs', hid, hdel, hrel, hsync⟩ := ih ht hrest
    refine ⟨s', hs', hid.trans hkept.nodeId, hkept.delivered.trans hdel, fun m hmem hm => ?_,
      fun l r h => hsync l r (hkept.syncsFrom l r h)⟩
    rw [List.mem_cons, not_or] at hmem
    exact hrel m hmem.2 (hkept.relaying m (Ne.symm hmem.1) hm)

/-- A broadcast is put into the queue of every other registered session whose forwarder
    runs and whose queue has room. -/
theorem broadcastToOthers_queues {σ : ServerState} {a : Nat} {s : Session} {id sender : String}
    (ha : σ.sessions.get a = some s) (hpeer : σ.peers.get id = some a) (hid : id ≠ sender)
    (hfwd : s.forwarding = true) (hroom : s.queue.length < clientBroadcastDepth) (m : Message) :
    (σ.broadcastToOthers sender m).sessions.get a = some { s with queue := s.queue ++ [m] } := by
  have hpeers : ∃ id' ∈ σ.peers.keys, id' ≠ sender ∧ σ.peers.get id' = some a :=
    ⟨id, FinMap.mem_keys_of_get hpeer, hid, hpeer⟩
  rw [get_broadcastToOthers, ha, Option.map_some, if_pos ⟨hpeers, hfwd, hroom⟩]

theorem relay_queues {σ σ' : ServerState} {a b : Nat} {sa sb : Session} {m : Message}
    {id : String} (hb : σ.sessions.get b = some sb) (hm : sb.relaying = some m)
    (ha : σ.sessions.get a = some sa) (hpeer : σ.peers.get id = some a) (hid : id ≠ sb.nodeId)
    (hfwd : sa.forwarding = true) (hroom : sa.queue.length < clientBroadcastDepth)
    (h : σ.step (.relay b) = some σ') :
    ∃ sa', σ'.sessions.get a = some sa' ∧ sa'.delivered = sa.delivered ++ [m] := by
  simp only [step, conn?, hb, threadStep, hm, Option.some.injEq] at h
  subst h
  by_cases hab : a = b
  · subst hab
    obtain rfl : sa = sb := Option.some.inj (ha.symm.trans hb)
    have hset : (σ.setSession a { sa with relaying := none }).sessions.get a =
        some { sa with relaying := none } := by simp [setSession]
    exact ⟨_, broadcastToOthers_queues hset hpeer hid hfwd hroom m, by simp [Session.delivered]⟩
  · have hset : (σ.setSession b { sb with relaying := none }).sessions.get a = some sa := by
      simp [setSession, hab, ha]
    exact ⟨_, broadcastToOthers_queues hset hpeer hid hfwd hroom m, by simp [Session.delivered]⟩

/-- What taking the manifest leaves in the session. -/
theorem snapshot_syncsFrom {σ σ' : ServerState} {a : Nat} {h : Host} {remote : Manifest}
    (hstep : σ.step (.snapshot a h remote) = some σ') :
    ∃ s, σ'.sessions.get a = some s ∧ s.SyncsFrom (sessionManifest h σ.engine).1 remote := by
  rcases step_inv hstep with ⟨e, he, -⟩ | ⟨c, id, he, -⟩ | ⟨c, s, hc, hs, ht⟩
  · cases he
  · cases he
  · obtain rfl : a = c := Option.some.inj hc
    simp only [threadStep] at ht
    split at ht
    · obtain rfl := Option.some.inj ht
      refine ⟨{ s with phase := .planning (sessionManifest h σ.engine).1 remote }, ?_, rfl, rfl⟩
      simp [setSession]
    · contradiction

theorem get_sessionManifest {h : Host} {e : SyncEngine} (he : e.manifest.files.isEmpty = false)
    (p : PathBuf) : (sessionManifest h e).1.files.get p = e.manifest.files.get p := by
  simp [sessionManifest, he]

private def peerHost : Host := Host.reliable (fun _ => 0) 10

/-- An engine on an empty root. -/
private def emptyEngine : SyncEngine := .new "server" (fun _ => false) .empty .new

/-- The steps that take a connection of node `id` to its live phase. -/
private def joins (c : Nat) (id : String) : List ServerEvent :=
  [.accept c id, .snapshot c peerHost ⟨.empty, id⟩, .plan c peerHost, .register c, .startRecv c]

private def newFile : Message :=
  .bundle ⟨[⟨⟨.ofNames ["new"], 1, 0, 5, 0, false⟩, [1], some 5⟩], 0⟩

/-- A message of a live `b` is applied and broadcast; the session of `a` gets it when there
    is room. -/
theorem apply_relay {σ : ServerState} {a b : Nat} {sa sb : Session} {plan : InitialPlan}
    {h : Host} {msg m : Message} {e : SyncEngine} {id : String} (hne : a ≠ b)
    (hb : σ.sessions.get b = some sb) (hlive : sb.phase = .live plan) (hrel : sb.relaying = none)
    (hout : applyClientAction h σ.engine sb.nodeId msg = ⟨true, e, some m, none⟩)
    (hself : ∀ id', σ.peers.get id' = some b → id' = sb.nodeId)
    (ha : σ.sessions.get a = some sa) (hpeer : σ.peers.get id = some a) (hid : id ≠ sb.nodeId)
    (hfwd : sa.forwarding = true) :
    ∃ σ₂ σ₃, σ.step (.apply b h msg) = some σ₂ ∧ σ₂.engine = e ∧
      σ₂.sessions.get b = some { sb with relaying := some m } ∧ σ₂.step (.relay b) = some σ₃ ∧
      σ₃.engine = e ∧ σ₃.peers = σ.peers ∧ σ₃.sessions.get b = some sb ∧
      σ₃.sessions.get a = some (if sa.queue.length < clientBroadcastDepth then
        { sa with queue := sa.queue ++ [m] } else sa) := by
  have hrecv : sb.receiving = true ∧ sb.relaying = none := ⟨by simp [receiving, hlive], hrel⟩
  let σ₂ : ServerState := { σ.setSession b { sb with relaying := some m } with engine := e }
  have hb₂ : σ₂.sessions.get b = some { sb with relaying := some m } := by simp [σ₂, setSession]
  have ha₂ : σ₂.sessions.get a = some sa := by simp [σ₂, setSession, hne, ha]
  refine ⟨σ₂, (σ₂.setSession b { sb with relaying := none }).broadcastToOthers sb.nodeId m, ?_, rfl,
    hb₂, ?_, rfl, rfl, ?_, ?_⟩
  · simp only [step, conn?, hb, threadStep, if_pos hrecv, hlive, hout, σ₂]
  · simp only [step, conn?, hb₂, threadStep]
  · have hnot : ¬ ∃ id' ∈ σ.peers.keys, id' ≠ sb.nodeId ∧ σ.peers.get id' = some b := by
      rintro ⟨id', -, hne', hget⟩
      exact hne' (hself id' hget)
    rw [get_broadcastToOthers, setSession, FinMap.get_insert, if_pos rfl, Option.map_some,
      if_neg fun hall => hnot hall.1, ← hrel]
  · have hothers : ∃ id' ∈ σ.peers.keys, id' ≠ sb.nodeId ∧ σ.peers.get id' = some a :=
      ⟨id, FinMap.mem_keys_of_get hpeer, hid, hpeer⟩
    rw [get_broadcastToOthers, setSession, FinMap.get_insert, if_neg hne, ha₂, Option.map_some]
    split
    · next hall => rw [if_pos hall.2.2]
    · next hall => rw [if_neg fun hroom => hall ⟨hothers, hfwd, hroom⟩]

/-- `n` rounds of a message that leaves the engine as it is. -/
def rounds (b : Nat) (h : Host) (msg : Message) : Nat → List ServerEvent
  | 0 => []
  | n + 1 => .apply b h msg :: .relay b :: rounds b h msg n

/-- The rounds fill the queue of `a`. -/
theorem rounds_fill {a b : Nat} {sb : Session} {plan : InitialPlan} {h : Host} {msg : Message}
    {e : SyncEngine} {id : String} (hne : a ≠ b) (hlive : sb.phase = .live plan)
    (hrel : sb.relaying = none)
    (hout : applyClientAction h e sb.nodeId msg = ⟨true, e, some msg, none⟩)
    (hid : id ≠ sb.nodeId) (n : Nat) {σ : ServerState} {sa : Session}
    (he : σ.engine = e) (hb : σ.sessions.get b = some sb)
    (hself : ∀ id', σ.peers.get id' = some b → id' = sb.nodeId)
    (ha : σ.sessions.get a = some sa) (hpeer : σ.peers.get id = some a)
    (hfwd : sa.forwarding = true) (hroom : sa.queue.length + n ≤ clientBroadcastDepth) :
    ∃ σ', Run.runFrom step σ (rounds b h msg n) = some σ' ∧ σ'.engine = e ∧ σ'.peers = σ.peers ∧
      σ'.sessions.get b = some sb ∧
      σ'.sessions.get a = some { sa with queue := sa.queue ++ List.replicate n msg } := by
  induction n generalizing σ sa with
  | zero => exact ⟨σ, rfl, he, rfl, hb, by simpa using ha⟩
  | succ n ih =>
    obtain ⟨σ₂, σ₃, h₂, -, -, h₃, he₃, hpeers₃, hb₃, ha₃⟩ :=
      apply_relay hne hb hlive hrel (by rw [he]; exact hout) hself ha hpeer hid hfwd
    rw [if_pos (by omega)] at ha₃
    obtain ⟨σ', hrun, he', hpeers', hb', ha'⟩ := ih he₃ hb₃ (by rwa [hpeers₃]) ha₃
      (by rwa [hpeers₃]) hfwd (by simp; omega)
    refine ⟨σ', Run.runFrom_cons.mpr ⟨σ₂, h₂, Run.runFrom_cons.mpr ⟨σ₃, h₃, hrun⟩⟩, he',
      hpeers'.trans hpeers₃, hb', ?_⟩
    rw [ha', List.replicate_succ]
    simp

/-- A rename between two missing paths whose stamp is already on record changes nothing. -/
theorem applyRenameAt_missing {h : Host} {e : SyncEngine} {source target : PathBuf} {t : Nat}
    {peer : String} (hveto : e.vetoFor target (some t) 0 = none)
    (halive : e.ledger.aliveRecordNeeded target t = false) (hdirty : e.ledgerDirty = false)
    (hsource : e.tree.pathExists source = false) (htarget : e.tree.pathExists target = false) :
    e.applyRenameAt h source target t peer = (true, e) := by
  simp [SyncEngine.applyRenameAt, hveto, SyncEngine.admitRecord, halive, SyncEngine.flushLedger,
    hdirty, hsource, SyncEngine.convergeRename, htarget]

/-- After `pre` the action `msg` of `b` creates `p` on the server and is broadcast within
    `mid`. At the end `a`, which was connected all the time, is live; `p` is neither in the
    manifest and the plan of its initial sync nor is the message in its queue. -/
def LosesUpdate (engine : SyncEngine) (a b : Nat) (pre : List ServerEvent) (h : Host)
    (msg : Message) (mid : List ServerEvent) (p : PathBuf) : Prop :=
  ∃ σ₁ σ₂ σ₃ sa sb plan m, Run.runFrom step (start engine) pre = some σ₁ ∧
    (σ₁.sessions.get a).isSome ∧ σ₁.step (.apply b h msg) = some σ₂ ∧
    σ₂.sessions.get b = some sb ∧ sb.relaying = some m ∧
    σ₁.engine.manifest.files.get p = none ∧ (σ₂.engine.manifest.files.get p).isSome ∧
    Run.runFrom step σ₂ mid = some σ₃ ∧ .relay b ∈ mid ∧ σ₃.sessions.get a = some sa ∧
    sa.phase = .live plan ∧ plan.manifest.files.get p = none ∧ p ∉ plan.toClient ∧
    m ∉ sa.delivered

/-- The plan of a session in its live phase. -/
private def livePlan (s : Session) : Option InitialPlan :=
  match s.phase with
  | .live plan => some plan
  | _ => none

private theorem phase_of_livePlan {s : Session} {plan : InitialPlan} (h : livePlan s = some plan) :
    s.phase = .live plan := by
  unfold livePlan at h
  split at h
  · next p hp => rw [hp, Option.some.inj h]
  · contradiction

/-- A rename of a file the server does not have. -/
private def missedRename : Message := .rename (.ofNames ["x"]) (.ofNames ["y"]) 5

private theorem losesUpdate_join_window :
    LosesUpdate emptyEngine 0 1
      (joins 1 "b" ++ [.accept 0 "a", .snapshot 0 peerHost ⟨.empty, "a"⟩]) peerHost newFile
      [.relay 1, .plan 0 peerHost, .register 0, .startRecv 0] (.ofNames ["new"]) := by
  have hobs : (Run.runFrom step (start emptyEngine)
        (joins 1 "b" ++ [.accept 0 "a", .snapshot 0 peerHost ⟨.empty, "a"⟩])).any fun σ₁ =>
      (σ₁.step (.apply 1 peerHost newFile)).any fun σ₂ =>
      (Run.runFrom step σ₂ [.relay 1, .plan 0 peerHost, .register 0, .startRecv 0]).any fun σ₃ =>
      (σ₂.sessions.get 1).any fun sb => (σ₃.sessions.get 0).any fun sa => (livePlan sa).any fun plan =>
        (σ₁.sessions.get 0).isSome ∧ sb.relaying = some newFile ∧
          σ₁.engine.manifest.files.get (.ofNames ["new"]) = none ∧
          (σ₂.engine.manifest.files.get (.ofNames ["new"])).isSome ∧
          plan.manifest.files.get (.ofNames ["new"]) = none ∧ plan.toClient = [] ∧
          sa.delivered = [] := by decide +kernel
  simp only [Option.any_eq_true, decide_eq_true_eq] at hobs
  obtain ⟨σ₁, h₁, σ₂, h₂, σ₃, h₃, sb, hb, sa, ha, plan, hplan, haccepted, hm, hbefore, hafter, hnone,
    hto, hdel⟩ := hobs
  exact ⟨σ₁, σ₂, σ₃, sa, sb, plan, newFile, h₁, haccepted, h₂, hb, hm, hbefore, hafter, h₃, by simp,
    ha, phase_of_livePlan hplan, hnone, by simp [hto], by simp [hdel]⟩

private theorem losesUpdate_full_queue :
    LosesUpdate emptyEngine 0 1
      (joins 0 "a" ++ joins 1 "b" ++ rounds 1 peerHost missedRename clientBroadcastDepth) peerHost
      newFile [.relay 1] (.ofNames ["new"]) := by
  -- The first rename leaves its stamp in the ledger, the others change nothing.
  have hobs : (Run.runFrom step (start emptyEngine) (joins 0 "a" ++ joins 1 "b" ++
        [.apply 1 peerHost missedRename, .relay 1])).any fun σ =>
      (σ.sessions.get 1).any fun sb => (σ.sessions.get 0).any fun sa =>
      (livePlan sb).any fun _ => (livePlan sa).any fun plan =>
        (sb.nodeId = "b" ∧ sb.relaying = none ∧
          (∀ id ∈ σ.peers.keys, σ.peers.get id = some 1 → id = "b") ∧ σ.peers.get "a" = some 0 ∧
          sa.forwarding = true ∧ sa.queue = [missedRename] ∧ sa.forwarded = []) ∧
        (σ.engine.vetoFor (.ofNames ["y"]) (some 5) 0 = none ∧
          σ.engine.ledger.aliveRecordNeeded (.ofNames ["y"]) 5 = false ∧
          σ.engine.ledgerDirty = false ∧ σ.engine.tree.pathExists (PathBuf.ofNames ["x"]) = false ∧
          σ.engine.tree.pathExists (PathBuf.ofNames ["y"]) = false) ∧
        ((applyClientAction peerHost σ.engine "b" newFile).ok = true ∧
          (applyClientAction peerHost σ.engine "b" newFile).relay = some newFile ∧
          (applyClientAction peerHost σ.engine "b" newFile).request = none ∧
          σ.engine.manifest.files.get (.ofNames ["new"]) = none ∧
          ((applyClientAction peerHost σ.engine "b" newFile).engine.manifest.files.get
            (.ofNames ["new"])).isSome) ∧
        plan.manifest.files.get (.ofNames ["new"]) = none ∧ plan.toClient = [] := by decide +kernel
  simp only [Option.any_eq_true, decide_eq_true_eq] at hobs
  obtain ⟨σ, hrun, sb, hb, sa, ha, planb, hplanb, plan, hplan,
    ⟨hid, hrel, hself, hpeer, hfwd, hqueue, hforwarded⟩,
    ⟨hveto, halive, hdirty, hsource, htarget⟩, ⟨hok, hrelay, hrequest, hbefore, hafter⟩, hnone,
    hto⟩ := hobs
  have hself' : ∀ id, σ.peers.get id = some 1 → id = sb.nodeId := fun id h => by
    rw [hid]
    exact hself id (FinMap.mem_keys_of_get h) h
  have hfix : applyClientAction peerHost σ.engine sb.nodeId missedRename =
      ⟨true, σ.engine, some missedRename, none⟩ := by
    have hclamp : clampFutureStamp peerHost 5 = 5 := by decide +kernel
    simp only [missedRename, applyClientAction, SyncEngine.handleRecvRename, hclamp,
      applyRenameAt_missing hveto halive hdirty hsource htarget]
  obtain ⟨n, hn⟩ : ∃ n, clientBroadcastDepth = n + 1 := ⟨511, rfl⟩
  obtain ⟨σ₁, h₁, he₁, hpeers₁, hb₁, ha₁⟩ := rounds_fill (a := 0) (by decide)
    (phase_of_livePlan hplanb) hrel hfix (by simp [hid]) n rfl hb hself' ha hpeer hfwd
    (by simp [hqueue, hn, Nat.add_comm])
  have hout : applyClientAction peerHost σ₁.engine sb.nodeId newFile =
      ⟨true, (applyClientAction peerHost σ.engine "b" newFile).engine, some newFile, none⟩ := by
    rw [he₁, hid, ← hok, ← hrelay, ← hrequest]
  obtain ⟨σ₂, σ₃, h₂, he₂, hb₂, h₃, -, -, -, ha₃⟩ := apply_relay (a := 0) (by decide) hb₁
    (phase_of_livePlan hplanb) hrel hout (by rwa [hpeers₁]) ha₁ (by rwa [hpeers₁])
    (by simp [hid]) hfwd
  rw [if_neg (by simp [hqueue, hn])] at ha₃
  refine ⟨σ₁, σ₂, σ₃, _, _, plan, newFile, ?_, by simp [ha₁], h₂, hb₂, rfl, he₁ ▸ hbefore,
    he₂ ▸ hafter, Run.runFrom_cons.mpr ⟨σ₃, h₃, rfl⟩, by simp, ha₃, phase_of_livePlan hplan, hnone,
    by simp [hto], ?_⟩
  · obtain ⟨τ, hτ, hround⟩ := Run.runFrom_append.mp hrun
    rw [hn]
    refine Run.runFrom_append.mpr ⟨τ, hτ, ?_⟩
    show Run.runFrom step τ ([.apply 1 peerHost missedRename, .relay 1] ++
      rounds 1 peerHost missedRename n) = some σ₁
    exact Run.runFrom_append.mpr ⟨σ, hround, h₁⟩
  · simp [Session.delivered, hforwarded, hqueue, newFile, missedRename]

end ServerState

end ByteHive
