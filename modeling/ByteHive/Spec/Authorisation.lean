import ByteHive.Native.KnownHosts
import ByteHive.Spec.Registration

/-!
# What a rejection does

A session passes the Hello stage only where its certificate is allowed at that moment, and
once a client is rejected or removed no further session of its certificate passes:
`GuardedServer.no_session_after_reject`. The status is not read again, so a session that has
passed goes on: `GuardedServer.bundle_after_reject`.
-/

namespace ByteHive

namespace KnownClients

variable {kc : KnownClients} {fp fp' : String} {f : KnownClient → KnownClient}

/-- The status that a client has after the change of one. -/
theorem status_change (hf : ∀ c, (f c).fingerprint = c.fingerprint) (autoApprove : Bool) :
    (KnownClients.mk (change fp f kc.clients) autoApprove).status fp' =
      if fp' = fp then (kc.clients.find? (·.fingerprint = fp)).map fun c => (f c).status
      else kc.status fp' := by
  rw [status, status]
  show ((change fp f kc.clients).find? _).map _ = _
  induction kc.clients with
  | nil => simp [change]
  | cons c cs ih =>
    by_cases hc : c.fingerprint = fp
    · by_cases hne : fp' = fp
      · simp [change, hc, hf, hne]
      · simp [change, hc, hf, hne, Ne.symm hne]
    · by_cases hc' : c.fingerprint = fp'
      · have hne : ¬ fp' = fp := fun h => hc (hc'.trans h)
        simp [change, hc', hne]
      · rw [change, if_neg hc, List.find?_cons_of_neg (by simpa using hc'), ih,
          List.find?_cons_of_neg (by simpa using hc), List.find?_cons_of_neg (by simpa using hc')]

/-- Registering a client leaves the status of a known one. -/
theorem status_upsertPending (nodeId addr : String) (nowMs : Nat) :
    (kc.upsertPending nodeId fp addr nowMs).2.status fp' =
      if fp' = fp ∧ kc.status fp = none then
        some (if kc.autoApprove then ClientStatus.allowed else .pending)
      else kc.status fp' := by
  by_cases hany : kc.clients.any (·.fingerprint = fp) = true
  · have hsome : kc.status fp ≠ none := by
      obtain ⟨c, hc, hfp⟩ := List.any_eq_true.mp hany
      rw [status, ne_eq, Option.map_eq_none_iff, List.find?_eq_none]
      exact fun h => h c hc hfp
    rw [if_neg fun h => hsome h.2, upsertPending, if_pos hany]
    dsimp only
    rw [status_change]
    · by_cases hne : fp' = fp
      · rw [if_pos hne, hne]
        rfl
      · rw [if_neg hne]
    · exact fun c => rfl
  · have hnone : kc.clients.find? (·.fingerprint = fp) = none := by
      rw [List.find?_eq_none]
      intro c hc hfp
      exact hany (List.any_eq_true.mpr ⟨c, hc, hfp⟩)
    have hstatus : kc.status fp = none := by rw [status, hnone]; rfl
    rw [upsertPending, if_neg hany]
    show ((kc.clients ++ [_]).find? _).map _ = _
    rw [List.find?_append]
    by_cases hne : fp' = fp
    · have hnew : fp' = fp ∧ kc.status fp = none := ⟨hne, hstatus⟩
      rw [if_pos hnew, hne, hnone]
      simp
    · have hold : ¬ (fp' = fp ∧ kc.status fp = none) := fun h => hne h.1
      rw [if_neg hold, List.find?_cons_of_neg (by simpa using Ne.symm hne), List.find?_nil,
        Option.or_none]
      rfl

theorem status_setStatus (st : ClientStatus) :
    (kc.setStatus fp st).2.status fp' =
      if fp' = fp then (kc.status fp).map fun _ => st else kc.status fp' := by
  rw [setStatus]
  dsimp only
  rw [status_change]
  · by_cases hne : fp' = fp
    · rw [if_pos hne, if_pos hne, status, Option.map_map]
      rfl
    · rw [if_neg hne, if_neg hne]
  · exact fun c => rfl

theorem status_remove :
    (kc.remove fp).2.status fp' = if fp' = fp then none else kc.status fp' := by
  show ((kc.clients.filter _).find? _).map _ = _
  rw [List.find?_filter]
  by_cases hne : fp' = fp
  · rw [if_pos hne, Option.map_eq_none_iff, List.find?_eq_none, hne]
    simp
  · rw [if_neg hne, status]
    congr 2
    funext c
    by_cases hc : c.fingerprint = fp'
    · simp [hc, hne]
    · simp [hc]

@[simp] theorem autoApprove_upsertPending (nodeId addr : String) (nowMs : Nat) :
    (kc.upsertPending nodeId fp addr nowMs).2.autoApprove = kc.autoApprove := by
  rw [upsertPending]
  split <;> rfl

end KnownClients

/-- What a Hello does to the registry. -/
theorem handleHello_snd (kc : KnownClients) (fp nodeId addr : String) (version nowMs : Nat) :
    (handleHello kc fp nodeId addr version nowMs).2 = kc ∨
      (handleHello kc fp nodeId addr version nowMs).2
        = (kc.upsertPending nodeId fp addr nowMs).2 := by
  rw [handleHello]
  split
  · exact .inl rfl
  · right
    dsimp only
    split <;> rfl

/-- A Hello is accepted where the client is allowed. -/
theorem status_of_accepted {kc : KnownClients} {fp nodeId addr : String} {version nowMs : Nat}
    (h : (handleHello kc fp nodeId addr version nowMs).1 = .accepted) :
    (kc.upsertPending nodeId fp addr nowMs).2.status fp = some .allowed := by
  rw [handleHello] at h
  split at h
  · cases h
  · dsimp only at h
    split at h
    · next hst =>
      cases hs : (kc.upsertPending nodeId fp addr nowMs).2.status fp with
      | none => simp [hs] at hst
      | some st =>
        rw [hs] at hst
        exact congrArg some hst
    · cases h
    · cases h

namespace GuardedServer

variable {γ γ' γ₁ γ₂ : GuardedServer} {fp : String} {c : Nat}

/-- The thread of one connection opens no other session. -/
theorem sessions_threadStep {σ σ' : ServerState} {c c' : Nat} {s : Session} {ev : ServerEvent}
    (h : σ.threadStep c s ev = some σ') (hne : c' ≠ c) (hc' : σ.sessions.get c' = none) :
    σ'.sessions.get c' = none := by
  have hset : ∀ s', (σ.setSession c s').sessions.get c' = none := by
    intro s'
    rw [ServerState.setSession, FinMap.get_insert, if_neg hne]
    exact hc'
  cases ev with
  | relay c₀ =>
    simp only [ServerState.threadStep] at h
    split at h
    · cases h
      rw [ServerState.broadcastToOthers, FinMap.get_map, hset]
      rfl
    · cases h
  | accept c₀ id => cases h
  | engineChange e => cases h
  | apply c₀ host msg =>
    simp only [ServerState.threadStep] at h
    split at h
    · split at h
      · cases h
        exact hset _
      · cases h
        exact hset _
    · cases h
  | forwarderEnds c₀ =>
    cases h
    exact hset _
  | _ =>
    simp only [ServerState.threadStep] at h
    repeat' split at h
    all_goals cases h
    all_goals exact hset _

/-- A session is opened by the acceptance of its own connection only. -/
theorem sessions_step {σ σ' : ServerState} {ev : ServerEvent} (h : σ.step ev = some σ')
    (hev : ∀ id, ev ≠ .accept c id) (hc : σ.sessions.get c = none) :
    σ'.sessions.get c = none := by
  rcases ServerState.step_inv h with ⟨e, rfl, rfl⟩ | ⟨c', id, rfl, -, rfl⟩ | ⟨c', s, -, hs, ht⟩
  · exact hc
  · have hne : c ≠ c' := fun heq => hev id (by rw [heq])
    rw [ServerState.setSession, FinMap.get_insert, if_neg hne]
    exact hc
  · have hne : c ≠ c' := by
      rintro rfl
      exact absurd (hc.symm.trans hs) (by simp)
    exact sessions_threadStep ht hne hc

theorem step_server {sev : ServerEvent} (h : γ.step (.server sev) = some γ') :
    (∀ c id, sev ≠ .accept c id) ∧
      ∃ server, γ.server.step sev = some server ∧ γ' = { γ with server } := by
  cases sev with
  | accept c id => cases h
  | engineChange e =>
    cases h
    exact ⟨fun c id => by simp, _, rfl, rfl⟩
  | _ =>
    obtain ⟨server, hserver, rfl⟩ := Option.map_eq_some_iff.mp h
    exact ⟨fun c id => by simp, server, hserver, rfl⟩

/-- What a step can do: open a session for a certificate that is allowed, or none. -/
theorem step_cases {ev : GuardedEvent} (h : γ.step ev = some γ') :
    (∃ c nodeId addr version nowMs fp, ev = .hello c nodeId addr version nowMs ∧
        γ.certs.get c = some fp ∧ γ'.certs = γ.certs ∧
        γ'.known = (γ.known.upsertPending nodeId fp addr nowMs).2 ∧
        γ'.known.status fp = some .allowed ∧
        ∀ c', c' ≠ c → γ.server.sessions.get c' = none → γ'.server.sessions.get c' = none) ∨
      ∀ c, γ.server.sessions.get c = none → γ'.server.sessions.get c = none := by
  cases ev with
  | hello c nodeId addr version nowMs =>
    simp only [step] at h
    split at h
    · cases hcert : γ.certs.get c with
      | none => simp [hcert] at h
      | some fp =>
        simp only [hcert] at h
        split at h
        · next haccepted =>
          obtain ⟨server, hserver, rfl⟩ := Option.map_eq_some_iff.mp h
          have hknown : (handleHello γ.known fp nodeId addr version nowMs).2
              = (γ.known.upsertPending nodeId fp addr nowMs).2 := by
            rw [handleHello] at haccepted ⊢
            split
            · next hversion => simp [hversion] at haccepted
            · dsimp only
              split <;> rfl
          refine .inl ⟨c, nodeId, addr, version, nowMs, fp, rfl, hcert, rfl, hknown, ?_, ?_⟩
          · exact hknown ▸ status_of_accepted haccepted
          · intro c' hne hc'
            exact sessions_step hserver (fun id heq => hne (by cases heq; rfl)) hc'
        · cases h
          exact .inr fun c' hc' => hc'
    · cases h
  | server sev =>
    obtain ⟨hev, server, hserver, rfl⟩ := step_server h
    exact .inr fun c hc => sessions_step hserver (hev c) hc
  | connect c fp =>
    simp only [step] at h
    split at h
    · cases h
      exact .inr fun c' hc' => hc'
    · cases h
  | setStatus fp st =>
    cases h
    exact .inr fun c' hc' => hc'
  | remove fp =>
    cases h
    exact .inr fun c' hc' => hc'

/-- A presented certificate stays the one of its connection. -/
theorem certs_step {ev : GuardedEvent} (h : γ.step ev = some γ') (hc : γ.certs.get c = some fp) :
    γ'.certs.get c = some fp := by
  cases ev with
  | connect c' fp' =>
    simp only [step] at h
    split at h
    · next hnone =>
      cases h
      have hne : c ≠ c' := by
        rintro rfl
        exact absurd (hnone.symm.trans hc) (by simp)
      rw [FinMap.get_insert, if_neg hne]
      exact hc
    · cases h
  | hello c' nodeId addr version nowMs =>
    simp only [step] at h
    split at h
    · cases hcert : γ.certs.get c' with
      | none => simp [hcert] at h
      | some fp' =>
        simp only [hcert] at h
        split at h
        · obtain ⟨server, -, rfl⟩ := Option.map_eq_some_iff.mp h
          exact hc
        · cases h
          exact hc
    · cases h
  | setStatus fp' st =>
    cases h
    exact hc
  | remove fp' =>
    cases h
    exact hc
  | server sev =>
    obtain ⟨-, server, -, rfl⟩ := step_server h
    exact hc

/-- No automatic approval, and the certificate is not allowed. -/
structure Barred (γ : GuardedServer) (fp : String) : Prop where
  autoApprove : γ.known.autoApprove = false
  status : γ.known.status fp ≠ some .allowed

/-- What a step does to the registry. -/
theorem known_step {ev : GuardedEvent} (h : γ.step ev = some γ') :
    γ'.known = γ.known ∨
      (∃ nodeId fp addr nowMs, γ'.known = (γ.known.upsertPending nodeId fp addr nowMs).2) ∨
      (∃ fp st, ev = .setStatus fp st ∧ γ'.known = (γ.known.setStatus fp st).2) ∨
      ∃ fp, ev = .remove fp ∧ γ'.known = (γ.known.remove fp).2 := by
  cases ev with
  | connect c fp =>
    simp only [step] at h
    split at h
    · cases h
      exact .inl rfl
    · cases h
  | hello c nodeId addr version nowMs =>
    simp only [step] at h
    split at h
    · cases hcert : γ.certs.get c with
      | none => simp [hcert] at h
      | some fp =>
        simp only [hcert] at h
        have hknown : γ'.known = (handleHello γ.known fp nodeId addr version nowMs).2 := by
          split at h
          · obtain ⟨server, -, rfl⟩ := Option.map_eq_some_iff.mp h
            rfl
          · cases h
            rfl
        rw [hknown]
        cases handleHello_snd γ.known fp nodeId addr version nowMs with
        | inl heq => exact .inl heq
        | inr heq => exact .inr (.inl ⟨nodeId, fp, addr, nowMs, heq⟩)
    · cases h
  | setStatus fp st =>
    cases h
    exact .inr (.inr (.inl ⟨fp, st, rfl, rfl⟩))
  | remove fp =>
    cases h
    exact .inr (.inr (.inr ⟨fp, rfl, rfl⟩))
  | server sev =>
    obtain ⟨-, server, -, rfl⟩ := step_server h
    exact .inl rfl

/-- Only an approval lifts a rejection. -/
theorem Barred.step {ev : GuardedEvent} (hb : γ.Barred fp) (hev : ev ≠ .setStatus fp .allowed)
    (h : γ.step ev = some γ') : γ'.Barred fp := by
  rcases known_step h with heq | ⟨nodeId, fp', addr, nowMs, heq⟩ | ⟨fp', st, rfl, heq⟩ |
    ⟨fp', rfl, heq⟩
  · exact ⟨heq ▸ hb.autoApprove, heq ▸ hb.status⟩
  · constructor
    · rw [heq, KnownClients.autoApprove_upsertPending]
      exact hb.autoApprove
    · rw [heq, KnownClients.status_upsertPending, hb.autoApprove]
      split
      · simp
      · exact hb.status
  · refine ⟨heq ▸ hb.autoApprove, ?_⟩
    rw [heq, KnownClients.status_setStatus]
    split
    · next hfp =>
      have hst : st ≠ .allowed := fun hst => hev (by rw [hfp, hst])
      cases hknown : γ.known.status fp' with
      | none => simp
      | some st' => simpa using hst
    · exact hb.status
  · refine ⟨heq ▸ hb.autoApprove, ?_⟩
    rw [heq, KnownClients.status_remove]
    split
    · simp
    · exact hb.status

/-- A reject or remove call bars the certificate. -/
theorem Barred.of_call {ev : GuardedEvent} (hauto : γ.known.autoApprove = false)
    (hev : ev = .setStatus fp .rejected ∨ ev = .remove fp) (h : γ.step ev = some γ') :
    γ'.Barred fp := by
  cases hev with
  | inl hev =>
    subst hev
    cases h
    refine ⟨hauto, ?_⟩
    dsimp only
    rw [KnownClients.status_setStatus, if_pos rfl]
    cases γ.known.status fp <;> simp
  | inr hev =>
    subst hev
    cases h
    refine ⟨hauto, ?_⟩
    dsimp only
    rw [KnownClients.status_remove, if_pos rfl]
    simp

/-- Where a certificate is barred and not approved again, no session of it is opened. -/
theorem Barred.no_session {evs : List GuardedEvent} (hb : γ.Barred fp)
    (hevs : .setStatus fp .allowed ∉ evs)
    (hrun : Run.runFrom GuardedServer.step γ evs = some γ')
    (hcert : ∀ fp', γ'.certs.get c = some fp' → fp' = fp)
    (hc : γ.server.sessions.get c = none) : γ'.server.sessions.get c = none := by
  induction evs generalizing γ with
  | nil =>
    cases hrun
    exact hc
  | cons ev evs ih =>
    obtain ⟨γ₁, hstep, hrest⟩ := Run.runFrom_cons.mp hrun
    have hev : ev ≠ .setStatus fp .allowed := fun heq => hevs (heq ▸ List.mem_cons_self ..)
    refine ih (hb.step hev hstep) (fun h => hevs (List.mem_cons_of_mem _ h)) hrest ?_
    rcases step_cases hstep with ⟨c', nodeId, addr, version, nowMs, fp', -, hcert', hcerts, hknown,
      hallowed, hother⟩ | hother
    · by_cases hcc : c = c'
      · -- The certificate of `c` would be allowed.
        subst hcc
        have hlater : γ'.certs.get c = some fp' :=
          Run.runFrom_invariant (P := fun γ => γ.certs.get c = some fp')
            (fun _ _ _ hP hs => certs_step hs hP) (hcerts ▸ hcert') hrest
        obtain rfl := hcert fp' hlater
        exact absurd hallowed (hb.step hev hstep).status
      · exact hother c hcc hc
    · exact hother c hc

/-- A session is opened only for a certificate that is allowed at its Hello. Once a client has
    been rejected or removed, and as long as it is not approved again, no session of its
    certificate is opened: a connection that has none at the call applies no message afterwards
    and has no queue. -/
theorem no_session_after_reject {ev : GuardedEvent} {evs : List GuardedEvent}
    (hauto : γ.known.autoApprove = false)
    (hev : ev = .setStatus fp .rejected ∨ ev = .remove fp) (hcall : γ.step ev = some γ₁)
    (hevs : .setStatus fp .allowed ∉ evs) (hrun : Run.runFrom step γ₁ evs = some γ₂) :
    (∀ (γ γ' : GuardedServer) ev c, γ.step ev = some γ' → γ.server.sessions.get c = none →
      γ'.server.sessions.get c ≠ none →
      ∃ fp, γ.certs.get c = some fp ∧ γ'.known.status fp = some .allowed) ∧
    ∀ c, γ₂.certs.get c = some fp → γ₁.server.sessions.get c = none →
      γ₂.server.sessions.get c = none ∧
      ∀ h msg, γ₂.step (.server (.apply c h msg)) = none := by
  constructor
  · intro γ γ' ev c hstep hbefore hafter
    rcases step_cases hstep with ⟨c', nodeId, addr, version, nowMs, fp', rfl, hcert, -, -, hallowed,
      hother⟩ | hother
    · by_cases hcc : c = c'
      · exact ⟨fp', hcc ▸ hcert, hallowed⟩
      · exact absurd (hother c hcc hbefore) hafter
    · exact absurd (hother c hbefore) hafter
  · intro c hcert hc
    have hbarred := Barred.of_call hauto hev hcall
    have hnone := hbarred.no_session hevs hrun
      (fun fp' hfp' => Option.some.inj (hfp'.symm.trans hcert)) hc
    refine ⟨hnone, fun h msg => ?_⟩
    simp [step, ServerState.step, ServerState.conn?, hnone]

/-! A client is rejected while its session runs. -/

def approvedClient : KnownClients :=
  ⟨[⟨"client", "c0ffee", "", .allowed, "", 0, 0⟩], false⟩

private def clock : Host := .reliable (fun _ => 0) 1000

private def oneFile : Message :=
  .bundle ⟨[⟨⟨.ofNames ["a"], 0, 0, 1, 0, false⟩, [], some 7⟩], 0⟩

/-- The first connection passes the Hello stage before the rejection, the second does not. -/
private def beforeReject : List GuardedEvent :=
  [.connect 0 "c0ffee", .connect 1 "c0ffee", .hello 0 "client" "" 10 1000]

private def joined : GuardedServer :=
  (Run.runFrom step (.start (.new "server" (fun _ => false) .empty .new) approvedClient)
    beforeReject).getD (.start (.new "server" (fun _ => false) .empty .new) approvedClient)

theorem no_session_after_reject_second :
    ∃ γ₁ γ₂, joined.step (.setStatus "c0ffee" .rejected) = some γ₁ ∧
      Run.runFrom step γ₁ [.hello 1 "client" "" 10 2000] = some γ₂ ∧
      γ₂.server.sessions.get 1 = none ∧ ∀ h msg, γ₂.step (.server (.apply 1 h msg)) = none :=
  ⟨_, _, rfl, rfl, (@no_session_after_reject joined _ _ _ (.setStatus "c0ffee" .rejected)
    [.hello 1 "client" "" 10 2000] rfl (.inl rfl) rfl (by simp) rfl).2 1
    (by decide +kernel) (by decide +kernel)⟩

/-- The session goes on: a bundle that arrives after the rejection is applied. -/
theorem bundle_after_reject :
    ¬ ∀ (engine : SyncEngine) (known : KnownClients) (before after : List GuardedEvent)
      (γ γ₁ γ₂ γ₃ : GuardedServer) (fp : String) (c : Nat) (h : Host) (msg : Message),
      Run.runFrom step (.start engine known) before = some γ →
      γ.step (.setStatus fp .rejected) = some γ₁ →
      .setStatus fp .allowed ∉ after → Run.runFrom step γ₁ after = some γ₂ →
      γ₂.certs.get c = some fp → γ₂.step (.server (.apply c h msg)) = some γ₃ →
      γ₃.server.engine = γ₂.server.engine := by
  intro hclaim
  have hsame := hclaim (.new "server" (fun _ => false) .empty .new) approvedClient beforeReject []
    joined _ _ _ "c0ffee" 0 clock oneFile rfl rfl List.not_mem_nil rfl (by decide +kernel) rfl
  have hread := congrArg (fun e => e.tree.read (PathBuf.ofNames ["a"])) hsame
  exact absurd hread (by decide +kernel)

end GuardedServer

end ByteHive
