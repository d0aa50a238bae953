import ByteHive.ForStd.Run
import ByteHive.Native.Server

/-!
# Which sessions are registered

The peer map is keyed by the node id of the client. A session stays in it as long as no
other session of the same node id registers or is removed.

Key results:
- `step_cases`: what a step can do to the live sessions and to the map.
- `allRegistered_iff_stepAlone`: a run keeps every live session registered exactly when
  each registration and each removal happens without another live session of that id.
-/

namespace ByteHive

namespace ServerState

/-- The node id of a connection and whether its session is live. -/
def view (σ : ServerState) (c : Nat) : Option (String × Bool) :=
  (σ.sessions.get c).map fun s => (s.nodeId, s.isLive)

/-- Every live session has its own sender in the map. -/
def AllRegistered (σ : ServerState) : Prop :=
  ∀ c id, σ.view c = some (id, true) → σ.peers.get id = some c

/-- No live session but `c` carries the node id of `c`. -/
def AloneWithId (σ : ServerState) (c : Nat) : Prop :=
  ∀ id b, σ.view c = some (id, b) → ∀ c', c' ≠ c → σ.view c' ≠ some (id, true)

/-- The condition on a step: registration and removal find no other live session with the
    same node id. -/
def StepAlone (σ : ServerState) : ServerEvent → Prop
  | .register c => σ.AloneWithId c
  | .remove c => σ.AloneWithId c
  | _ => True

/-! ## Steps -/

theorem view_setSession (σ : ServerState) (c c' : Nat) (s : Session) :
    (σ.setSession c s).view c' = if c' = c then some (s.nodeId, s.isLive) else σ.view c' := by
  unfold view setSession
  by_cases h : c' = c <;> simp [h]

@[simp] theorem view_broadcastToOthers (σ : ServerState) (id : String) (msg : Message) :
    (σ.broadcastToOthers id msg).view = σ.view := by
  funext c
  simp only [view, broadcastToOthers, FinMap.get_map, Option.map_map]
  congr 1
  funext s
  simp only [Function.comp_apply]
  split <;> rfl

/-- A step that leaves the map alone and sets one session, which keeps its node id and is
    live only if it was, makes no session live. -/
theorem quiet_of_insert {σ σ' : ServerState} {c : Nat} {s s' : Session}
    (hs : σ.sessions.get c = some s) (hσ : σ'.sessions = σ.sessions.insert c s')
    (hpeers : σ'.peers = σ.peers) (hid : s'.nodeId = s.nodeId)
    (hlive : s'.isLive = true → s.isLive = true) :
    σ'.peers = σ.peers ∧ ∀ c' id, σ'.view c' = some (id, true) → σ.view c' = some (id, true) := by
  refine ⟨hpeers, fun c' id h => ?_⟩
  rw [view, hσ, FinMap.get_insert] at h
  split at h
  · next hc =>
    simp only [Option.map_some, Option.some.injEq, Prod.mk.injEq] at h
    rw [hc, view, hs, Option.map_some, hlive h.2, ← hid, h.1]
  · exact h

/-- What a step of the thread of `c` can do. -/
theorem threadStep_cases {σ σ' : ServerState} {c : Nat} {s : Session} {ev : ServerEvent}
    (hs : σ.sessions.get c = some s) (h : σ.threadStep c s ev = some σ') :
    (∃ c', ev = .register c' ∧ s.isLive = false ∧ (∃ s', s'.nodeId = s.nodeId ∧ s'.isLive = true ∧
        σ'.sessions = σ.sessions.insert c s') ∧ σ'.peers = σ.peers.insert s.nodeId c) ∨
      (∃ c', ev = .remove c' ∧ s.isLive = false ∧ (∃ s', s'.nodeId = s.nodeId ∧ s'.isLive = false ∧
        σ'.sessions = σ.sessions.insert c s') ∧ σ'.peers = σ.peers.erase s.nodeId) ∨
      ((∀ c', ev ≠ .register c') ∧ (∀ c', ev ≠ .remove c') ∧ σ'.peers = σ.peers ∧
        ∀ c' id, σ'.view c' = some (id, true) → σ.view c' = some (id, true)) := by
  have hquiet : ∀ {s' : Session}, σ'.sessions = σ.sessions.insert c s' → σ'.peers = σ.peers →
      s'.nodeId = s.nodeId → (s'.isLive = true → s.isLive = true) →
      σ'.peers = σ.peers ∧ ∀ c' id, σ'.view c' = some (id, true) → σ.view c' = some (id, true) :=
    quiet_of_insert hs
  cases ev with
  | engineChange e => cases h
  | accept c' nodeId => cases h
  | register c' =>
    simp only [threadStep] at h
    split at h
    · next plan hphase _ =>
      obtain rfl := Option.some.inj h
      exact .inl ⟨c', rfl, by simp [Session.isLive, hphase],
        ⟨{ s with phase := .registered plan }, rfl, rfl, rfl⟩, rfl⟩
    · cases h
  | remove c' =>
    simp only [threadStep] at h
    split at h
    · next hphase =>
      obtain rfl := Option.some.inj h
      exact .inr (.inl ⟨c', rfl, by simp [Session.isLive, hphase],
        ⟨{ s with phase := .closed }, rfl, rfl, rfl⟩, rfl⟩)
    · cases h
  | relay c' =>
    simp only [threadStep] at h
    split at h
    · obtain rfl := Option.some.inj h
      refine .inr (.inr ⟨by simp, by simp, rfl, fun c'' id hview => ?_⟩)
      rw [view_broadcastToOthers, view_setSession] at hview
      split at hview
      · next hcc => rw [hcc, view, hs, Option.map_some, ← hview]; rfl
      · exact hview
    · cases h
  | apply c' host msg =>
    simp only [threadStep] at h
    split at h
    · split at h
      · obtain rfl := Option.some.inj h
        refine .inr (.inr ⟨by simp, by simp, hquiet rfl rfl ?_ ?_⟩)
        · split <;> rfl
        · split
          · exact fun h => h
          · simp [Session.isLive]
      · obtain rfl := Option.some.inj h
        exact .inr (.inr ⟨by simp, by simp, hquiet rfl rfl rfl (fun h => h)⟩)
    · cases h
  | startRecv c' =>
    simp only [threadStep] at h
    split at h
    · next plan hphase =>
      obtain rfl := Option.some.inj h
      exact .inr (.inr ⟨by simp, by simp, hquiet rfl rfl rfl fun _ => by
        simp [Session.isLive, hphase]⟩)
    · cases h
  | forward c' =>
    simp only [threadStep] at h
    split at h
    · obtain rfl := Option.some.inj h
      exact .inr (.inr ⟨by simp, by simp, hquiet rfl rfl rfl (fun h => h)⟩)
    · cases h
  | forwarderEnds c' =>
    obtain rfl := Option.some.inj h
    exact .inr (.inr ⟨by simp, by simp, hquiet rfl rfl rfl (fun h => h)⟩)
  | snapshot c' host remote | plan c' host | spawnFailed c' | abort c' | recvEnds c' =>
    -- The thread leaves for a phase that is not live.
    simp only [threadStep] at h
    split at h
    all_goals first
      | contradiction
      | (obtain rfl := Option.some.inj h
         exact .inr (.inr ⟨by simp, by simp, hquiet rfl rfl rfl (by simp [Session.isLive])⟩))

/-- A step is an outside change of the engine, a new connection, or a step of the thread of
    an accepted one. -/
theorem step_inv {σ σ' : ServerState} {ev : ServerEvent} (h : σ.step ev = some σ') :
    (∃ e, ev = .engineChange e ∧ σ' = { σ with engine := e }) ∨
      (∃ c id, ev = .accept c id ∧ σ.sessions.get c = none ∧
        σ' = σ.setSession c ⟨id, .draining, none, [], [], true⟩) ∨
      (∃ c s, conn? ev = some c ∧ σ.sessions.get c = some s ∧
        σ.threadStep c s ev = some σ') := by
  unfold step at h
  split at h
  · next e => exact .inl ⟨e, rfl, (Option.some.inj h).symm⟩
  · next c id =>
    split at h
    · next hc => exact .inr (.inl ⟨c, id, rfl, hc, (Option.some.inj h).symm⟩)
    · contradiction
  · split at h
    · contradiction
    · next c hc =>
      split at h
      · contradiction
      · next s hs => exact .inr (.inr ⟨c, s, hc, hs, h⟩)

/-- What a step can do: register a session, remove a node id, or leave the map alone and
    make no session live. -/
theorem step_cases {σ σ' : ServerState} {ev : ServerEvent} (h : σ.step ev = some σ') :
    (∃ c id, ev = .register c ∧ σ.view c = some (id, false) ∧
        (∀ c', σ'.view c' = if c' = c then some (id, true) else σ.view c') ∧
        σ'.peers = σ.peers.insert id c) ∨
      (∃ c id, ev = .remove c ∧ σ.view c = some (id, false) ∧ σ'.view = σ.view ∧
        σ'.peers = σ.peers.erase id) ∨
      (σ.StepAlone ev ∧ σ'.peers = σ.peers ∧
        ∀ c id, σ'.view c = some (id, true) → σ.view c = some (id, true)) := by
  rcases step_inv h with ⟨e, rfl, rfl⟩ | ⟨c, id, rfl, -, rfl⟩ | ⟨c, s, hc, hs, ht⟩
  · exact .inr (.inr ⟨trivial, rfl, fun _ _ h => h⟩)
  · refine .inr (.inr ⟨trivial, rfl, fun c' id hview => ?_⟩)
    rw [view_setSession] at hview
    split at hview
    · simp [Session.isLive] at hview
    · exact hview
  · rcases threadStep_cases hs ht with ⟨c', rfl, hl, ⟨s', hid, hlive, hsess⟩, hpeers⟩ |
      ⟨c', rfl, hl, ⟨s', hid, hlive, hsess⟩, hpeers⟩ | ⟨hreg, hrem, hpeers, hview⟩
    · obtain rfl : c' = c := Option.some.inj hc
      refine .inl ⟨c', s.nodeId, rfl, by simp [view, hs, hl], fun c'' => ?_, hpeers⟩
      rw [view, hsess, FinMap.get_insert]
      split
      · simp [hid, hlive]
      · rfl
    · obtain rfl : c' = c := Option.some.inj hc
      refine .inr (.inl ⟨c', s.nodeId, rfl, by simp [view, hs, hl], funext fun c'' => ?_, hpeers⟩)
      rw [view, hsess, FinMap.get_insert]
      split
      · next hcc => simp [hcc, view, hs, hid, hlive, hl]
      · rfl
    · refine .inr (.inr ⟨?_, hpeers, hview⟩)
      cases ev <;> first
        | exact trivial
        | exact absurd rfl (hreg _)
        | exact absurd rfl (hrem _)

/-- From a state with every live session registered, a step keeps that exactly when it
    meets the condition. -/
theorem allRegistered_step_iff {σ σ' : ServerState} {ev : ServerEvent}
    (hreg : σ.AllRegistered) (h : σ.step ev = some σ') :
    σ'.AllRegistered ↔ σ.StepAlone ev := by
  rcases step_cases h with ⟨c, id, rfl, hc, hview, hpeers⟩ | ⟨c, id, rfl, hc, hview, hpeers⟩ |
    ⟨halone, hpeers, hview⟩
  · constructor
    · rintro hreg' id' b hid c' hne hlive
      obtain ⟨rfl, -⟩ := Prod.mk.inj (Option.some.inj (hc.symm.trans hid))
      -- The new sender has taken the place of the other one.
      have := hreg' c' id (by rw [hview, if_neg hne]; exact hlive)
      rw [hpeers, FinMap.get_insert, if_pos rfl] at this
      exact hne (Option.some.inj this).symm
    · intro halone c' id' hlive
      rw [hview] at hlive
      rw [hpeers, FinMap.get_insert]
      split at hlive
      · next hcc =>
        obtain ⟨rfl, -⟩ := Prod.mk.inj (Option.some.inj hlive)
        rw [if_pos rfl, hcc]
      · next hne =>
        rw [if_neg]
        · exact hreg c' id' hlive
        · rintro rfl
          exact halone id' false hc c' hne hlive
  · constructor
    · rintro hreg' id' b hid c' hne hlive
      obtain ⟨rfl, -⟩ := Prod.mk.inj (Option.some.inj (hc.symm.trans hid))
      have := hreg' c' id (by rw [hview]; exact hlive)
      rw [hpeers, FinMap.get_erase, if_pos rfl] at this
      cases this
    · intro halone c' id' hlive
      rw [hview] at hlive
      rw [hpeers, FinMap.get_erase, if_neg]
      · exact hreg c' id' hlive
      · rintro rfl
        refine halone id' false hc c' ?_ hlive
        rintro rfl
        cases (Prod.mk.inj (Option.some.inj (hc.symm.trans hlive))).2
  · refine ⟨fun _ => halone, fun _ c' id' hlive => ?_⟩
    rw [hpeers]
    exact hreg c' id' (hview c' id' hlive)

/-- In a run from a server without connections every live session has its own sender in
    the peer map, in every state, exactly when each registration and each removal finds no
    other live session with the same node id. -/
theorem allRegistered_iff_stepAlone (engine : SyncEngine) (evs : List ServerEvent)
    (σ : ServerState) (hrun : Run.runFrom step (start engine) evs = some σ) :
    Run.Always step AllRegistered (start engine) evs ↔
      Run.StepsMeet step StepAlone (start engine) evs :=
  Run.always_iff_stepsMeet (I := fun _ => True) (fun _ _ _ _ _ => trivial)
    (fun _ _ _ _ hreg hstep => allRegistered_step_iff hreg hstep) trivial
    (fun _ _ h => nomatch h) hrun

/-- A server with an empty root. -/
private def emptyServer : ServerState :=
  start (.new "server" (fun _ => false) .empty .new)

/-- The steps that take a connection of node `id` to its live phase. -/
private def goLive (c : Nat) (id : String) : List ServerEvent :=
  [.accept c id, .snapshot c (Host.reliable (fun _ => 0) 0) ⟨.empty, id⟩,
    .plan c (Host.reliable (fun _ => 0) 0), .register c, .startRecv c]

theorem allRegistered_single_client :
    Run.Always step AllRegistered emptyServer (goLive 0 "a") := by
  obtain ⟨σ, hσ⟩ : ∃ σ, Run.runFrom step emptyServer (goLive 0 "a") = some σ :=
    Option.isSome_iff_exists.mp (by decide)
  refine (allRegistered_iff_stepAlone _ _ σ hσ).mpr ?_
  refine (Run.stepsMeet_cons rfl).mpr ⟨trivial, (Run.stepsMeet_cons rfl).mpr ⟨trivial,
    (Run.stepsMeet_cons rfl).mpr ⟨trivial, (Run.stepsMeet_cons rfl).mpr ⟨?_,
      (Run.stepsMeet_cons rfl).mpr ⟨trivial, fun _ _ _ h => by simp at h⟩⟩⟩⟩⟩
  intro id b _ c' hne hlive
  simp [view, setSession, start, hne] at hlive

/-- The client reconnects before its old handler has ended: the removal by the old handler
    takes the sender of the new session out of the map. -/
theorem allRegistered_reconnect_before_remove :
    ¬ ∀ (engine : SyncEngine) (evs : List ServerEvent) (σ : ServerState),
      Run.runFrom step (start engine) evs = some σ → σ.AllRegistered := by
  intro hall
  have hrun : ((Run.runFrom step emptyServer
      (goLive 0 "a" ++ .recvEnds 0 :: goLive 1 "a" ++ [.remove 0])).map
        fun σ => (σ.view 1, σ.peers.get "a")) = some (some ("a", true), none) := by decide
  obtain ⟨σ, hσ, hview⟩ := Option.map_eq_some_iff.mp hrun
  obtain ⟨hlive, hpeer⟩ := Prod.mk.inj hview
  have := hall _ _ σ hσ 1 "a" hlive
  simp [hpeer] at this

end ServerState

end ByteHive
