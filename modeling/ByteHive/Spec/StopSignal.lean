import ByteHive.ForStd.Run
import ByteHive.Native.AppThreads

/-!
# Who sees the stop of an app

One value in the stop channel is for one receiver. A subscription thread that finds messages
may take them as well, and a worker that finds the sender gone takes it for a timeout. So a
stop reaches all threads of an app, whatever the schedule, exactly if the app has no
subscription and at most one worker.

## Key results

- `stop_reaches_all_iff`: that condition, over all runs
-/

namespace ByteHive

/-- A thread of a generation. -/
inductive AppThread where
  | sub (i : Nat)
  | worker (j : Nat)
deriving DecidableEq, Repr

/-- The thread that takes the step. -/
def GenerationEvent.thread : GenerationEvent → Option AppThread
  | .takeMessage i | .takeStop i => some (.sub i)
  | .workerReceive j | .workerTimeout j => some (.worker j)
  | .publish _ _ _ | .stopApp | .dropSender => none

namespace Generation

def running (g : Generation) : AppThread → Bool
  | .sub i => (g.subs[i]?).any (·.running)
  | .worker j => (g.workers[j]?).any id

/-- A thread that runs can take a step, and every step it can take ends it. -/
def OnlyTerminates (g : Generation) (t : AppThread) : Prop :=
  (∃ ev g', ev.thread = some t ∧ g.step ev = some g') ∧
    ∀ ev g', ev.thread = some t → g.step ev = some g' → g'.running t = false

/-- When the app is stopped and the sender is gone, the threads can only terminate; and no message
    is delivered that was published after the stop. -/
structure StopSeen (g : Generation) : Prop where
  terminates : g.stopped = true → g.senderAlive = false → ∀ t, g.running t = true →
    g.OnlyTerminates t
  delivered : ∀ msg ∈ g.delivered, msg.id ∉ g.late

/-! ## Where the stop does not reach all -/

theorem topicMatches_self (topic : String) : topicMatches topic topic = true := by
  unfold topicMatches
  simp

theorem offer_self (id : Nat) (source topic payload : String) :
    SubThread.offer ⟨id, source, topic, payload⟩ ⟨topic, [], true⟩ =
      ⟨topic, [⟨id, source, topic, payload⟩], true⟩ := by
  unfold SubThread.offer
  rw [if_pos ⟨topicMatches_self topic, rfl, Nat.zero_lt_succ 255⟩]
  rfl

/-- A message comes after the stop and is delivered before the thread has seen the stop. -/
theorem late_delivery (pattern : String) (patterns : List String) (m : Nat) :
    ∃ g', Run.runFrom step (wire (pattern :: patterns) m)
      [.stopApp, .publish "app" pattern "", .takeMessage 0] = some g' ∧ ¬g'.StopSeen := by
  let msg : BusMessage := ⟨1, "app", pattern, ""⟩
  let stopped : Generation := { wire (pattern :: patterns) m with units := 1, stopped := true }
  let rest := (patterns.map fun p => (⟨p, [], true⟩ : SubThread)).map (SubThread.offer msg)
  have hstop : (wire (pattern :: patterns) m).step .stopApp = some stopped := rfl
  have hpublish : stopped.step (.publish "app" pattern "") =
      some { stopped with subs := ⟨pattern, [msg], true⟩ :: rest, nextId := 2, late := [1] } := by
    show some { stopped with
      subs := SubThread.offer msg ⟨pattern, [], true⟩ :: rest, nextId := 2, late := [1] } = _
    rw [offer_self]
  have htake : step { stopped with
        subs := ⟨pattern, [msg], true⟩ :: rest, nextId := 2, late := [1] } (.takeMessage 0) =
      some { stopped with
        subs := ⟨pattern, [], true⟩ :: rest, nextId := 2, late := [1], delivered := [msg] } := rfl
  refine ⟨_, Run.runFrom_cons.mpr ⟨_, hstop, Run.runFrom_cons.mpr ⟨_, hpublish,
    Run.runFrom_cons.mpr ⟨_, htake, rfl⟩⟩⟩, ?_⟩
  intro hseen
  exact hseen.delivered msg (List.mem_singleton.mpr rfl) (List.mem_singleton.mpr rfl)

/-- Of two workers one receives the value, the other goes on for ever. -/
theorem worker_goes_on (m : Nat) :
    ∃ g', Run.runFrom step (wire [] (m + 2)) [.stopApp, .workerReceive 0, .dropSender] = some g' ∧
      ¬g'.StopSeen := by
  refine ⟨_, rfl, ?_⟩
  intro hseen
  have hends := (hseen.terminates rfl rfl (.worker 1) rfl).2 (.workerTimeout 1) _ rfl rfl
  cases hends

/-! ## Where it does -/

/-- Nothing subscribes, and while the one worker runs the value is there for it. -/
structure OneReceiver (g : Generation) : Prop where
  subs : g.subs = []
  delivered : g.delivered = []
  workers : g.workers.length ≤ 1
  units : g.stopped = true → true ∈ g.workers → g.units = 1

theorem oneReceiver_wire {m : Nat} (h : m ≤ 1) : OneReceiver (wire [] m) := by
  refine ⟨rfl, rfl, ?_, ?_⟩
  · rw [wire, List.length_replicate]
    exact h
  · intro hstopped
    cases hstopped

theorem oneReceiver_step (g : Generation) (ev : GenerationEvent) (g' : Generation)
    (hg : OneReceiver g) (h : g.step ev = some g') : OneReceiver g' := by
  obtain ⟨hsubs, hdelivered, hworkers, hunits⟩ := hg
  cases ev with
  | publish source topic payload =>
    cases h
    exact ⟨by rw [hsubs]; rfl, hdelivered, hworkers, hunits⟩
  | takeMessage i =>
    simp only [step, hsubs, List.getElem?_nil] at h
    cases h
  | takeStop i =>
    simp only [step, hsubs, List.getElem?_nil] at h
    cases h
  | workerReceive j =>
    simp only [step] at h
    split at h
    · next hguard =>
      cases h
      refine ⟨hsubs, hdelivered, by rw [List.length_set]; exact hworkers, fun _ hmem => ?_⟩
      -- the one worker has ended
      obtain ⟨hj, -⟩ := List.getElem?_eq_some_iff.mp hguard.1
      have hlength : g.workers.length = 1 := by omega
      obtain ⟨w, hw⟩ := List.length_eq_one_iff.mp hlength
      have hzero : j = 0 := by omega
      have hmem : true ∈ g.workers.set j false := hmem
      rw [hw, hzero] at hmem
      simp at hmem
    · cases h
  | workerTimeout j =>
    simp only [step] at h
    split at h
    · cases h
      exact ⟨hsubs, hdelivered, hworkers, hunits⟩
    · cases h
  | stopApp =>
    simp only [step] at h
    split at h
    · next hguard =>
      cases h
      refine ⟨hsubs, hdelivered, hworkers, fun _ _ => ?_⟩
      show g.units + 1 = 1
      omega
    · cases h
  | dropSender =>
    simp only [step] at h
    split at h
    · cases h
      exact ⟨hsubs, hdelivered, hworkers, hunits⟩
    · cases h

theorem OneReceiver.stopSeen {g : Generation} (hg : OneReceiver g) : g.StopSeen := by
  constructor
  · intro hstopped _ t hrunning
    cases t with
    | sub i =>
      simp only [running, hg.subs, List.getElem?_nil] at hrunning
      cases hrunning
    | worker j =>
      have hj : g.workers[j]? = some true := by
        obtain ⟨w, hw, hid⟩ := (Option.any_eq_true id _).mp hrunning
        rw [hw]
        exact congrArg some hid
      have hunits : g.units = 1 := hg.units hstopped (List.mem_of_getElem? hj)
      constructor
      · have hreceive : g.step (.workerReceive j) =
            some { g with workers := g.workers.set j false, units := g.units - 1 } := by
          rw [step, if_pos ⟨hj, by omega⟩]
        exact ⟨.workerReceive j, _, rfl, hreceive⟩
      · intro ev g' hthread hstep
        cases ev with
        | workerReceive k =>
          cases hthread
          rw [step, if_pos ⟨hj, by omega⟩] at hstep
          cases hstep
          show ((g.workers.set j false)[j]?).any id = false
          rw [List.getElem?_set_self (List.getElem?_eq_some_iff.mp hj).1]
          rfl
        | workerTimeout k =>
          -- the value is still there, so the wait does not time out
          simp only [step, hunits, Nat.one_ne_zero, and_false, if_false] at hstep
          cases hstep
        | takeMessage | takeStop | publish | stopApp | dropSender => cases hthread
  · rw [hg.delivered]
    intro msg hmsg
    cases hmsg

/-- The stop of an app reaches all its threads in every run exactly if the app has no subscription
    and at most one worker. -/
theorem stop_reaches_all_iff (patterns : List String) (m : Nat) :
    (∀ events g', Run.runFrom step (wire patterns m) events = some g' → g'.StopSeen) ↔
      patterns = [] ∧ m ≤ 1 := by
  constructor
  · intro h
    constructor
    · cases patterns with
      | nil => rfl
      | cons pattern patterns =>
        obtain ⟨g', hrun, hnot⟩ := late_delivery pattern patterns m
        exact absurd (h _ g' hrun) hnot
    · by_contra hle
      obtain ⟨k, rfl⟩ : ∃ k, m = k + 2 := ⟨m - 2, by omega⟩
      cases patterns with
      | nil =>
        obtain ⟨g', hrun, hnot⟩ := worker_goes_on k
        exact hnot (h _ g' hrun)
      | cons pattern patterns =>
        obtain ⟨g', hrun, hnot⟩ := late_delivery pattern patterns (k + 2)
        exact hnot (h _ g' hrun)
  · intro h events g' hrun
    obtain ⟨rfl, hm⟩ := h
    exact (Run.runFrom_invariant oneReceiver_step (oneReceiver_wire hm) hrun).stopSeen

/-- The file browser with an expiry of the trash: a thread for the shares, one for the trash. Once
    one of them has received the stop, the other waits again after the sender is gone. -/
theorem second_worker_goes_on :
    ∃ g', Run.runFrom step (wire [] 2) [.stopApp, .workerReceive 0, .dropSender] = some g' ∧
      g'.stopped = true ∧ g'.senderAlive = false ∧ g'.running (.worker 1) = true ∧
      g'.step (.workerTimeout 1) = some g' ∧ g'.step (.workerReceive 1) = none :=
  ⟨_, rfl, rfl, rfl, rfl, rfl, rfl⟩

end Generation

end ByteHive
