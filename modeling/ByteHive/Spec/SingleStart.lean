import ByteHive.ForStd.Run
import ByteHive.ForStd.Separated
import ByteHive.Native.Registry

/-!
# An app is started once

Between the look at the slots and the entry of the result nothing keeps a second call out.
The registry is right throughout exactly where every call of `App::start` finds the app
unstarted, and every `register` that pushes a slot still finds the name free.

## Key results

- `change_of_step`: what a block does, one case for each kind of block
- `safe_step_iff`: one block keeps the registry right exactly if it is in turn
- `started_once_iff`: the same for whole runs
-/

namespace ByteHive

namespace AppRegistry

variable {name : String} {f : Slot → Slot} {slots : List Slot}

theorem map_name_changeSlot (hf : ∀ slot, (f slot).name = slot.name) :
    (changeSlot name f slots).map (·.name) = slots.map (·.name) := by
  induction slots with
  | nil => rfl
  | cons slot slots ih =>
    unfold changeSlot
    split
    · rw [List.map_cons, List.map_cons, hf]
    · rw [List.map_cons, List.map_cons, ih]

/-- Where names are distinct, the first slot of a name is the only one. -/
theorem changeSlot_eq_map (h : (slots.map (·.name)).Nodup) :
    changeSlot name f slots = slots.map fun slot => if slot.name = name then f slot else slot := by
  induction slots with
  | nil => rfl
  | cons slot slots ih =>
    obtain ⟨hnew, hrest⟩ := List.nodup_cons.mp h
    unfold changeSlot
    rw [List.map_cons]
    split
    · next heq =>
      -- no other slot has the name
      have hkeep : ∀ other ∈ slots, (if other.name = name then f other else other) = id other := by
        intro other hother
        rw [if_neg]
        · rfl
        · intro hname
          exact hnew (List.mem_map.mpr ⟨other, hother, hname.trans heq.symm⟩)
      rw [List.map_congr_left hkeep, List.map_id]
    · rw [ih hrest]

end AppRegistry

/-- An app that a call has started and not yet entered. -/
structure StartedApp where
  name : String
  channel : Nat
  ok : Bool
deriving DecidableEq, Repr

namespace RegistryBlock

def started : RegistryBlock → Option StartedApp
  | .registerPush name channel => some ⟨name, channel, true⟩
  | .startUpdate name channel error => some ⟨name, channel, error.isNone⟩
  | _ => none

def hasStarted (name : String) (block : RegistryBlock) : Bool :=
  block.started.any fun app => decide (app.name = name) && app.ok

/-- The app whose slot the block has been found in. -/
def slotName : RegistryBlock → Option String
  | .startStart name | .startUpdate name _ _ => some name
  | _ => none

end RegistryBlock

/-- The outcome comes from a call of `App::start`. -/
def StartOutcome.wired : StartOutcome → Bool
  | .notWired _ => false
  | _ => true

def AppCallKind.isFailedStart : AppCallKind → Bool
  | .start _ ok => !ok
  | .stop => false

namespace AppCall

def IsStartOf (name : String) (c : AppCall) : Prop := c.name = name ∧ c.kind ≠ .stop

def IsStopOf (name : String) (c : AppCall) : Prop := c.name = name ∧ c.kind = .stop

end AppCall

namespace RegistryRun

/-- The last call of a method of the app. -/
def lastCall (s : RegistryRun) (name : String) : Option AppCallKind :=
  (s.calls.find? (·.name = name)).map (·.kind)

/-- Between two calls of `App::start` on an app there is one of `App::stop`, registered names are
    distinct, and an app that is shown as running was last started with the channel whose sender
    its slot holds. -/
structure Safe (s : RegistryRun) : Prop where
  apart : ∀ name, List.Separated (AppCall.IsStartOf name) (AppCall.IsStopOf name) s.calls
  nodup : (s.registry.slots.map (·.name)).Nodup
  running : ∀ slot ∈ s.registry.slots, slot.status = .running →
    s.lastCall slot.name = some (.start slot.stopTx true)

/-- The app is not running, no other call has started it and has still to enter it, and its last
    start did not fail. -/
def Unstarted (s : RegistryRun) (name : String) : Prop :=
  (∀ slot ∈ s.registry.slots, slot.name = name → slot.status ≠ .running) ∧
    (∀ id ∈ s.pending.keys, (s.pending.get id).any (·.hasStarted name) = false) ∧
    (s.lastCall name).any (·.isFailedStart) = false

instance (s : RegistryRun) (name : String) : Decidable (Unstarted s name) :=
  inferInstanceAs (Decidable (_ ∧ _ ∧ _))

/-- `App::start` is called on an unstarted app, a slot is pushed under a free name. -/
def BlockInTurn (s : RegistryRun) (outcome : StartOutcome) : RegistryBlock → Prop
  | .registerStart name | .startStart name => outcome.wired = true → s.Unstarted name
  | .registerPush name _ => ∀ slot ∈ s.registry.slots, slot.name ≠ name
  | .startCheck _ | .startUpdate _ _ _ => True

instance (s : RegistryRun) (outcome : StartOutcome) :
    ∀ block, Decidable (s.BlockInTurn outcome block)
  | .registerStart name | .startStart name =>
    inferInstanceAs (Decidable (outcome.wired = true → s.Unstarted name))
  | .registerPush name _ =>
    inferInstanceAs (Decidable (∀ slot ∈ s.registry.slots, slot.name ≠ name))
  | .startCheck _ | .startUpdate _ _ _ => isTrue trivial

def InTurn (s : RegistryRun) : RegistryEvent → Prop
  | .call _ _ => True
  | .next id outcome => ∀ block ∈ s.pending.get id, s.BlockInTurn outcome block

instance (s : RegistryRun) : ∀ ev, Decidable (s.InTurn ev)
  | .call _ _ => isTrue trivial
  | .next id outcome =>
    inferInstanceAs (Decidable (∀ block ∈ s.pending.get id, s.BlockInTurn outcome block))

/-! ## What a block does -/

/-- The app that a call has started and not yet entered. -/
def flying (s : RegistryRun) (id : Nat) : Option StartedApp :=
  (s.pending.get id).bind (·.started)

def Registered (s : RegistryRun) (name : String) : Prop :=
  name ∈ s.registry.slots.map (·.name)

/-- What a block does to the registry, with the calls of methods of apps that it makes; `before`
    and `after` are the block and the one that it leaves of its call. -/
inductive Change (s : RegistryRun) (ev : RegistryEvent) :
    Option RegistryBlock → Option RegistryBlock → AppRegistry → List AppCall → Prop
  /-- A look at the slots, or a start that does not come to `App::start`. -/
  | looked {before after : Option RegistryBlock} {channels : Nat} (hturn : s.InTurn ev)
      (hbefore : before.bind (·.started) = none) (hafter : after.bind (·.started) = none)
      (hle : s.registry.channels ≤ channels)
      (hfound : ∀ name, after.bind (·.slotName) = some name → s.Registered name) :
      Change s ev before after ⟨s.registry.slots, channels⟩ []
  | stopped {after : Option RegistryBlock} {slot : Slot} (hturn : s.InTurn ev)
      (hslot : slot ∈ s.registry.slots) (hstatus : slot.status ≠ .stopped)
      (hafter : after.bind (·.started) = none) (hfound : after.bind (·.slotName) = none) :
      Change s ev none after
        ⟨AppRegistry.changeSlot slot.name
          (fun slot => { slot with status := .stopped, statusDetail := none }) s.registry.slots,
          s.registry.channels⟩
        [⟨slot.name, .stop⟩]
  | appStart {before after : Option RegistryBlock} {name : String} {ok : Bool}
      (hturn : s.InTurn ev ↔ s.Unstarted name) (hbefore : before.bind (·.started) = none)
      (hafter : after.bind (·.started) = some ⟨name, s.registry.channels, ok⟩ ∨
        after.bind (·.started) = none ∧ ok = false)
      (hfound : ∀ name, after.bind (·.slotName) = some name →
        before.bind (·.slotName) = some name) :
      Change s ev before after ⟨s.registry.slots, s.registry.channels + 1⟩
        [⟨name, .start s.registry.channels ok⟩]
  | pushed {name : String} {channel : Nat} (hturn : s.InTurn ev ↔ ¬s.Registered name) :
      Change s ev (some (.registerPush name channel)) none
        ⟨s.registry.slots ++ [⟨name, channel, .running, none⟩], s.registry.channels⟩ []
  | entered {name : String} {channel : Nat} {error : Option String} (hturn : s.InTurn ev) :
      Change s ev (some (.startUpdate name channel error)) none
        ⟨AppRegistry.changeSlot name (fun slot =>
          { slot with
            stopTx := channel
            status := if error.isNone then .running else .failed
            statusDetail := error }) s.registry.slots, s.registry.channels⟩ []

variable {s s' : RegistryRun} {ev : RegistryEvent}

theorem registered_iff_find {name : String} :
    s.Registered name ↔ ∃ slot, s.registry.find name = some slot := by
  unfold Registered AppRegistry.find
  rw [← Option.isSome_iff_exists, List.find?_isSome, List.mem_map]
  simp

def RegistryEnd.block : RegistryEnd → Option RegistryBlock
  | .next block => some block
  | .returned _ => none

theorem get_settle (id i : Nat) (pending : FinMap Nat RegistryBlock) (e : RegistryEnd) :
    (settle id pending e).get i = if i = id then RegistryEnd.block e else pending.get i := by
  cases e with
  | next block => exact FinMap.get_insert pending id i block
  | returned result => exact FinMap.get_erase pending id i

theorem change_startCheck {before : Option RegistryBlock} {name : String} (hturn : s.InTurn ev)
    (hbefore : before.bind (·.started) = none) :
    Change s ev before (RegistryEnd.block (s.registry.startCheck name)) s.registry [] := by
  unfold AppRegistry.startCheck
  cases hfind : s.registry.find name with
  | none => exact .looked hturn hbefore rfl le_rfl (fun _ h => by cases h)
  | some slot =>
    simp only
    split
    · exact .looked hturn hbefore rfl le_rfl (fun _ h => by cases h)
    · refine .looked hturn hbefore rfl le_rfl (fun n h => ?_)
      cases h
      exact registered_iff_find.mpr ⟨slot, hfind⟩

theorem change_stopApp {after : Option RegistryBlock} {name : String} (hturn : s.InTurn ev)
    (hafter : after.bind (·.started) = none) (hfound : after.bind (·.slotName) = none) :
    Change s ev none after (s.registry.stopApp name).2.1 (s.registry.stopApp name).2.2 := by
  have hlooked : Change s ev none after s.registry [] :=
    .looked hturn rfl hafter le_rfl fun _ h => by rw [hfound] at h; cases h
  unfold AppRegistry.stopApp
  cases hfind : s.registry.find name with
  | none => exact hlooked
  | some slot =>
    have hname : slot.name = name := by simpa using List.find?_some hfind
    simp only
    split
    · exact hlooked
    · next hstatus =>
      rw [← hname]
      exact .stopped hturn (List.mem_of_find?_eq_some hfind) hstatus hafter hfound

theorem change_firstBlock (id : Nat) (call : RegistryCall) :
    Change s (.call id call) none (RegistryEnd.block (s.registry.firstBlock call).1)
      (s.registry.firstBlock call).2.1 (s.registry.firstBlock call).2.2 := by
  have hturn : s.InTurn (.call id call) := trivial
  cases call with
  | register name =>
    refine .looked hturn rfl ?_ le_rfl ?_
    · show (RegistryEnd.block (s.registry.registerCheck name)).bind _ = none
      unfold AppRegistry.registerCheck
      split <;> rfl
    · intro n h
      have h : (RegistryEnd.block (s.registry.registerCheck name)).bind (·.slotName) = some n := h
      unfold AppRegistry.registerCheck at h
      split at h <;> cases h
  | startApp name => exact change_startCheck hturn rfl
  | stopApp name => exact change_stopApp hturn rfl rfl
  | restartApp name =>
    simp only [AppRegistry.firstBlock]
    cases (s.registry.stopApp name).1 with
    | ok u => exact change_stopApp hturn rfl rfl
    | error e => exact change_stopApp hturn rfl rfl

theorem change_nextBlock {id : Nat} {outcome : StartOutcome} {block : RegistryBlock}
    (hblock : s.pending.get id = some block) :
    Change s (.next id outcome) (some block)
      (RegistryEnd.block (s.registry.nextBlock outcome block).1)
      (s.registry.nextBlock outcome block).2.1 (s.registry.nextBlock outcome block).2.2 := by
  have hturn : s.InTurn (.next id outcome) ↔ s.BlockInTurn outcome block := by
    constructor
    · intro h
      exact h block hblock
    · intro h b hb
      obtain rfl : block = b := Option.some.inj (hblock.symm.trans hb)
      exact h
  have hcalled : ∀ name, outcome.wired = true →
      ((outcome.wired = true → s.Unstarted name) ↔ s.Unstarted name) :=
    fun name hwired => ⟨fun h => h hwired, fun h _ => h⟩
  cases block with
  | registerStart name =>
    cases outcome with
    | notWired e =>
      have hnone : s.InTurn (.next id (.notWired e)) := hturn.mpr fun h => by cases h
      exact .looked hnone rfl rfl (Nat.le_succ _) fun _ h => by cases h
    | started =>
      have hstart := hturn.trans (hcalled name rfl)
      exact .appStart hstart rfl (.inl rfl) fun _ h => by cases h
    | failed e =>
      have hstart := hturn.trans (hcalled name rfl)
      exact .appStart hstart rfl (.inr ⟨rfl, rfl⟩) fun _ h => by cases h
  | registerPush name channel =>
    apply Change.pushed
    rw [hturn]
    unfold BlockInTurn Registered
    simp
  | startCheck name => exact change_startCheck (hturn.mpr trivial) rfl
  | startStart name =>
    cases outcome with
    | notWired e =>
      have hnone : s.InTurn (.next id (.notWired e)) := hturn.mpr fun h => by cases h
      exact .looked hnone rfl rfl (Nat.le_succ _) fun _ h => by cases h
    | started =>
      have hstart := hturn.trans (hcalled name rfl)
      exact .appStart hstart rfl (.inl rfl) fun n h => h
    | failed e =>
      have hstart := hturn.trans (hcalled name rfl)
      exact .appStart hstart rfl (.inl rfl) fun n h => h
  | startUpdate name channel error => exact .entered (hturn.mpr trivial)

/-- A step is a block of one call: the others keep theirs. -/
theorem change_of_step (h : step s ev = some s') :
    ∃ id after calls, Change s ev (s.pending.get id) after s'.registry calls ∧
      s'.calls = calls ++ s.calls ∧
      ∀ i, s'.pending.get i = if i = id then after else s.pending.get i := by
  cases ev with
  | call id call =>
    simp only [step] at h
    split at h
    · next hnone =>
      cases h
      refine ⟨id, _, _, ?_, rfl, fun i => get_settle id i s.pending _⟩
      rw [hnone]
      exact change_firstBlock id call
    · cases h
  | next id outcome =>
    obtain ⟨block, hblock, rfl⟩ := Option.map_eq_some_iff.mp h
    refine ⟨id, _, _, ?_, rfl, fun i => get_settle id i s.pending _⟩
    rw [hblock]
    exact change_nextBlock hblock

/-! ## What right registries have besides -/

/-- The slots and the calls under way go by the last call of each app. -/
structure Kept (s : RegistryRun) : Prop where
  slot_last : ∀ slot ∈ s.registry.slots, slot.status ≠ .stopped →
    s.lastCall slot.name = some (.start slot.stopTx (decide (slot.status = .running)))
  flying_last : ∀ id app, s.flying id = some app →
    s.lastCall app.name = some (.start app.channel app.ok)
  slot_lt : ∀ slot ∈ s.registry.slots, slot.stopTx < s.registry.channels
  flying_lt : ∀ id app, s.flying id = some app → app.channel < s.registry.channels
  slot_ne : ∀ slot ∈ s.registry.slots, ∀ id app, s.flying id = some app →
    slot.stopTx ≠ app.channel
  flying_ne : ∀ id id' app app', s.flying id = some app → s.flying id' = some app' →
    app.channel = app'.channel → id = id'
  /-- An app whose last start has succeeded is in a slot or under way. -/
  cover : ∀ name channel, s.lastCall name = some (.start channel true) →
    (∃ slot ∈ s.registry.slots, slot.name = name ∧ slot.status = .running) ∨
      ∃ id app, s.flying id = some app ∧ app.name = name ∧ app.ok = true
  found : ∀ id name, (s.pending.get id).bind (·.slotName) = some name → s.Registered name

theorem lastCall_cons {call : AppCall} (h : s'.calls = call :: s.calls) (name : String) :
    s'.lastCall name = if call.name = name then some call.kind else s.lastCall name := by
  unfold lastCall
  rw [h, List.find?_cons]
  split
  · next heq => rw [if_pos (of_decide_eq_true heq), Option.map_some]
  · next heq => rw [if_neg (of_decide_eq_false heq)]

/-- The calls of an app are ready for a start exactly if the last one was none. -/
theorem cleared_iff {name : String} :
    List.Cleared (AppCall.IsStartOf name) (AppCall.IsStopOf name) s.calls ↔
      ∀ channel ok, s.lastCall name ≠ some (.start channel ok) := by
  have hof : ∀ call : AppCall, decide (call.name = name) = true ↔
      call.IsStartOf name ∨ call.IsStopOf name := by
    intro call
    unfold AppCall.IsStartOf AppCall.IsStopOf
    rw [decide_eq_true_eq, ← and_or_left]
    exact (and_iff_left (ne_or_eq call.kind .stop)).symm
  rw [List.cleared_iff_find? hof]
  constructor
  · intro h channel ok hlast
    obtain ⟨call, hcall, hkind⟩ := Option.map_eq_some_iff.mp hlast
    apply h call hcall
    refine ⟨by simpa using List.find?_some hcall, ?_⟩
    rw [hkind]
    simp
  · intro h call hcall hstart
    have hlast : s.lastCall name = some call.kind := Option.map_eq_some_iff.mpr ⟨call, hcall, rfl⟩
    cases hkind : call.kind with
    | start channel ok => exact h channel ok (hlast.trans (congrArg some hkind))
    | stop => exact hstart.2 hkind

/-- In a right registry an app is unstarted exactly if its last call was no start. -/
theorem unstarted_iff (hsafe : Safe s) (hkept : Kept s) {name : String} :
    s.Unstarted name ↔ ∀ channel ok, s.lastCall name ≠ some (.start channel ok) := by
  constructor
  · intro h channel ok hlast
    obtain ⟨hslots, hpending, hfailed⟩ := h
    cases ok with
    | false =>
      rw [hlast] at hfailed
      cases hfailed
    | true =>
      cases hkept.cover name channel hlast with
      | inl hslot =>
        obtain ⟨slot, hslot, hname, hrunning⟩ := hslot
        exact hslots slot hslot hname hrunning
      | inr hflying =>
        obtain ⟨id, app, happ, hname, hok⟩ := hflying
        obtain ⟨block, hblock, hstarted⟩ := Option.bind_eq_some_iff.mp happ
        have hhas : (s.pending.get id).any (·.hasStarted name) = true := by
          rw [hblock, Option.any_some, RegistryBlock.hasStarted, hstarted]
          simp [hname, hok]
        rw [hpending id (FinMap.mem_keys_of_get hblock)] at hhas
        cases hhas
  · intro h
    refine ⟨?_, ?_, ?_⟩
    · intro slot hslot hname hrunning
      apply h slot.stopTx true
      rw [← hname]
      exact hsafe.running slot hslot hrunning
    · intro id hid
      by_contra hne
      rw [Bool.not_eq_false, Option.any_eq_true] at hne
      obtain ⟨block, hblock, hhas⟩ := hne
      unfold RegistryBlock.hasStarted at hhas
      rw [Option.any_eq_true] at hhas
      obtain ⟨app, happ, hname⟩ := hhas
      rw [Bool.and_eq_true, decide_eq_true_eq] at hname
      apply h app.channel app.ok
      rw [← hname.1]
      exact hkept.flying_last id app (Option.bind_eq_some_iff.mpr ⟨block, hblock, happ⟩)
    · cases hlast : s.lastCall name with
      | none => rfl
      | some kind =>
        cases kind with
        | start channel ok => exact absurd hlast (h channel ok)
        | stop => rfl

theorem flying_after {id : Nat} {after : Option RegistryBlock}
    (h : ∀ i, s'.pending.get i = if i = id then after else s.pending.get i) (i : Nat) :
    s'.flying i = if i = id then after.bind (·.started) else s.flying i := by
  unfold flying
  rw [h]
  split <;> rfl

theorem lastCall_of_calls_eq (h : s'.calls = s.calls) (name : String) :
    s'.lastCall name = s.lastCall name := by
  rw [lastCall, h, lastCall]

/-- A block that makes no call and starts nothing leaves the calls under way as they were. -/
theorem flying_of_none {id : Nat} {after : Option RegistryBlock}
    (h : ∀ i, s'.pending.get i = if i = id then after else s.pending.get i)
    (hbefore : (s.pending.get id).bind (·.started) = none)
    (hafter : after.bind (·.started) = none) : s'.flying = s.flying := by
  funext i
  rw [flying_after h]
  split
  · next heq => rw [heq, hafter, flying, hbefore]
  · rfl

theorem found_after {id : Nat} {after : Option RegistryBlock} (hs : Kept s)
    (hpending : ∀ i, s'.pending.get i = if i = id then after else s.pending.get i)
    (hregistered : ∀ name, s.Registered name → s'.Registered name)
    (hfound : ∀ name, after.bind (·.slotName) = some name → s.Registered name) (i : Nat)
    (name : String) (h : (s'.pending.get i).bind (·.slotName) = some name) :
    s'.Registered name := by
  rw [hpending] at h
  apply hregistered
  split at h
  · exact hfound name h
  · exact hs.found i name h

theorem kept_looked {id : Nat} {after : Option RegistryBlock} {channels : Nat} (hs : Kept s)
    (hflying : s'.flying = s.flying) (hregistry : s'.registry = ⟨s.registry.slots, channels⟩)
    (hcalls : s'.calls = s.calls) (hle : s.registry.channels ≤ channels)
    (hpending : ∀ i, s'.pending.get i = if i = id then after else s.pending.get i)
    (hfound : ∀ name, after.bind (·.slotName) = some name → s.Registered name) : Kept s' := by
  have hlast := lastCall_of_calls_eq hcalls
  have hslots : s'.registry.slots = s.registry.slots := by rw [hregistry]
  have hchannels : s'.registry.channels = channels := by rw [hregistry]
  constructor
  · intro slot hslot hstatus
    rw [hlast]
    exact hs.slot_last slot (hslots ▸ hslot) hstatus
  · intro i app happ
    rw [hlast]
    exact hs.flying_last i app (hflying ▸ happ)
  · intro slot hslot
    have := hs.slot_lt slot (hslots ▸ hslot)
    omega
  · intro i app happ
    have := hs.flying_lt i app (hflying ▸ happ)
    omega
  · rw [hslots, hflying]
    exact hs.slot_ne
  · rw [hflying]
    exact hs.flying_ne
  · intro name channel hname
    rw [hlast] at hname
    rw [hslots, hflying]
    exact hs.cover name channel hname
  · apply found_after hs hpending _ hfound
    intro name hname
    rwa [Registered, hslots]

/-- A slot after a change of the slots of one name is an old one, changed if it has the name. -/
theorem mem_changeSlot {slots : List Slot} {name : String} {f : Slot → Slot} {slot : Slot}
    (hnodup : (slots.map (·.name)).Nodup) (h : slot ∈ AppRegistry.changeSlot name f slots) :
    ∃ old ∈ slots, old.name = name ∧ slot = f old ∨ old.name ≠ name ∧ slot = old := by
  rw [AppRegistry.changeSlot_eq_map hnodup] at h
  obtain ⟨old, hold, rfl⟩ := List.mem_map.mp h
  refine ⟨old, hold, ?_⟩
  by_cases hname : old.name = name
  · exact .inl ⟨hname, if_pos hname⟩
  · exact .inr ⟨hname, if_neg hname⟩

theorem mem_changeSlot_of_ne {slots : List Slot} {name : String} {f : Slot → Slot} {slot : Slot}
    (hnodup : (slots.map (·.name)).Nodup) (h : slot ∈ slots) (hne : slot.name ≠ name) :
    slot ∈ AppRegistry.changeSlot name f slots := by
  rw [AppRegistry.changeSlot_eq_map hnodup]
  exact List.mem_map.mpr ⟨slot, h, if_neg hne⟩

theorem mem_changeSlot_of_eq {slots : List Slot} {name : String} {f : Slot → Slot} {slot : Slot}
    (hnodup : (slots.map (·.name)).Nodup) (h : slot ∈ slots) (heq : slot.name = name) :
    f slot ∈ AppRegistry.changeSlot name f slots := by
  rw [AppRegistry.changeSlot_eq_map hnodup]
  exact List.mem_map.mpr ⟨slot, h, if_pos heq⟩

/-- No call under way has started an app whose slot is not stopped. -/
theorem flying_name_ne (hs : Kept s) {slot : Slot} (hslot : slot ∈ s.registry.slots)
    (hstatus : slot.status ≠ .stopped) {id : Nat} {app : StartedApp}
    (happ : s.flying id = some app) : slot.name ≠ app.name := by
  intro heq
  have hlast := hs.slot_last slot hslot hstatus
  rw [heq, hs.flying_last id app happ] at hlast
  have hchannel : app.channel = slot.stopTx := (AppCallKind.start.inj (Option.some.inj hlast)).1
  exact hs.slot_ne slot hslot id app happ hchannel.symm

theorem registered_changeSlot {name : String} {f : Slot → Slot}
    (h : s'.registry.slots = AppRegistry.changeSlot name f s.registry.slots)
    (hf : ∀ slot, (f slot).name = slot.name) (n : String) : s'.Registered n ↔ s.Registered n := by
  rw [Registered, h, AppRegistry.map_name_changeSlot hf, Registered]

theorem nodup_changeSlot {name : String} {f : Slot → Slot}
    (h : s'.registry.slots = AppRegistry.changeSlot name f s.registry.slots)
    (hf : ∀ slot, (f slot).name = slot.name) (hnodup : (s.registry.slots.map (·.name)).Nodup) :
    (s'.registry.slots.map (·.name)).Nodup := by
  rwa [h, AppRegistry.map_name_changeSlot hf]

theorem kept_stopped {id : Nat} {after : Option RegistryBlock} {stopped : Slot} (hs : Kept s)
    (hnodup : (s.registry.slots.map (·.name)).Nodup) (hmem : stopped ∈ s.registry.slots)
    (hstatus : stopped.status ≠ .stopped) (hflying : s'.flying = s.flying)
    (hregistry : s'.registry = ⟨AppRegistry.changeSlot stopped.name
      (fun slot => { slot with status := .stopped, statusDetail := none }) s.registry.slots,
      s.registry.channels⟩)
    (hcalls : s'.calls = ⟨stopped.name, .stop⟩ :: s.calls)
    (hpending : ∀ i, s'.pending.get i = if i = id then after else s.pending.get i)
    (hfound : after.bind (·.slotName) = none) : Kept s' := by
  have hlast := lastCall_cons hcalls
  have hchannels : s'.registry.channels = s.registry.channels := by rw [hregistry]
  have hold : ∀ slot ∈ s'.registry.slots, slot.status = .stopped ∧
      (∃ old ∈ s.registry.slots, slot.stopTx = old.stopTx) ∨
      slot ∈ s.registry.slots ∧ stopped.name ≠ slot.name := by
    intro slot hslot
    rw [hregistry] at hslot
    obtain ⟨old, hold, ⟨hname, rfl⟩ | ⟨hname, rfl⟩⟩ := mem_changeSlot hnodup hslot
    · exact .inl ⟨rfl, old, hold, rfl⟩
    · exact .inr ⟨hold, fun h => hname h.symm⟩
  constructor
  · intro slot hslot hne
    obtain ⟨hstopped, -⟩ | ⟨hmem', hname⟩ := hold slot hslot
    · exact absurd hstopped hne
    · rw [hlast, if_neg hname]
      exact hs.slot_last slot hmem' hne
  · intro i app happ
    rw [hflying] at happ
    rw [hlast, if_neg (flying_name_ne hs hmem hstatus happ)]
    exact hs.flying_last i app happ
  · intro slot hslot
    rw [hchannels]
    obtain ⟨-, old, hmem', htx⟩ | ⟨hmem', -⟩ := hold slot hslot
    · rw [htx]
      exact hs.slot_lt old hmem'
    · exact hs.slot_lt slot hmem'
  · rw [hflying, hchannels]
    exact hs.flying_lt
  · intro slot hslot
    rw [hflying]
    obtain ⟨-, old, hmem', htx⟩ | ⟨hmem', -⟩ := hold slot hslot
    · rw [htx]
      exact hs.slot_ne old hmem'
    · exact hs.slot_ne slot hmem'
  · rw [hflying]
    exact hs.flying_ne
  · intro name channel hname
    rw [hlast] at hname
    split at hname
    · cases hname
    · next hne =>
      rw [hflying, hregistry]
      refine (hs.cover name channel hname).imp_left fun hslot => ?_
      obtain ⟨slot, hslot, hslotName, hrunning⟩ := hslot
      refine ⟨slot, mem_changeSlot_of_ne hnodup hslot ?_, hslotName, hrunning⟩
      rw [hslotName]
      exact fun h => hne h.symm
  · apply found_after hs hpending
    · intro name hname
      exact (registered_changeSlot (congrArg AppRegistry.slots hregistry) (fun _ => rfl) name).mpr hname
    · intro name hname
      rw [hfound] at hname
      cases hname

theorem kept_appStart {id : Nat} {after : Option RegistryBlock} {name : String} {ok : Bool}
    (hs : Kept s) (hlastName : ∀ channel ok, s.lastCall name ≠ some (.start channel ok))
    (hbefore : (s.pending.get id).bind (·.started) = none)
    (hafter : after.bind (·.started) = some ⟨name, s.registry.channels, ok⟩ ∨
      after.bind (·.started) = none ∧ ok = false)
    (hregistry : s'.registry = ⟨s.registry.slots, s.registry.channels + 1⟩)
    (hcalls : s'.calls = ⟨name, .start s.registry.channels ok⟩ :: s.calls)
    (hpending : ∀ i, s'.pending.get i = if i = id then after else s.pending.get i)
    (hfound : ∀ n, after.bind (·.slotName) = some n →
      (s.pending.get id).bind (·.slotName) = some n) : Kept s' := by
  have hlast := lastCall_cons hcalls
  have hslots : s'.registry.slots = s.registry.slots := by rw [hregistry]
  have hchannels : s'.registry.channels = s.registry.channels + 1 := by rw [hregistry]
  -- what was under way is so still, and what has come is the app that this block has started
  have hflying : ∀ i app, s'.flying i = some app →
      i ≠ id ∧ s.flying i = some app ∨ i = id ∧ app = ⟨name, s.registry.channels, ok⟩ := by
    intro i app happ
    rw [flying_after hpending] at happ
    split at happ
    · next heq =>
      right
      cases hafter with
      | inl hsome =>
        rw [hsome] at happ
        exact ⟨heq, (Option.some.inj happ).symm⟩
      | inr hnone =>
        rw [hnone.1] at happ
        cases happ
    · next hne => exact .inl ⟨hne, happ⟩
  have hother : ∀ n, n ≠ name → s'.lastCall n = s.lastCall n := by
    intro n hne
    rw [hlast, if_neg fun h => hne h.symm]
  constructor
  · intro slot hslot hstatus
    have hslotLast := hs.slot_last slot (hslots ▸ hslot) hstatus
    rw [hother, hslotLast]
    intro heq
    rw [heq] at hslotLast
    exact hlastName _ _ hslotLast
  · intro i app happ
    obtain ⟨-, hold⟩ | ⟨-, rfl⟩ := hflying i app happ
    · have happLast := hs.flying_last i app hold
      rw [hother, happLast]
      intro heq
      rw [heq] at happLast
      exact hlastName _ _ happLast
    · rw [hlast, if_pos rfl]
  · intro slot hslot
    have := hs.slot_lt slot (hslots ▸ hslot)
    omega
  · intro i app happ
    obtain ⟨-, hold⟩ | ⟨-, rfl⟩ := hflying i app happ
    · have := hs.flying_lt i app hold
      omega
    · show s.registry.channels < s'.registry.channels
      omega
  · intro slot hslot i app happ
    rw [hslots] at hslot
    obtain ⟨-, hold⟩ | ⟨-, rfl⟩ := hflying i app happ
    · exact hs.slot_ne slot hslot i app hold
    · exact Nat.ne_of_lt (hs.slot_lt slot hslot)
  · intro i j app app' happ happ' heq
    obtain ⟨-, hold⟩ | ⟨rfl, rfl⟩ := hflying i app happ
    · obtain ⟨-, hold'⟩ | ⟨-, rfl⟩ := hflying j app' happ'
      · exact hs.flying_ne i j app app' hold hold' heq
      · exact absurd heq (Nat.ne_of_lt (hs.flying_lt i app hold))
    · obtain ⟨-, hold'⟩ | ⟨rfl, -⟩ := hflying j app' happ'
      · exact absurd heq.symm (Nat.ne_of_lt (hs.flying_lt j app' hold'))
      · rfl
  · intro n channel hn
    by_cases heq : n = name
    · right
      rw [hlast, if_pos heq.symm] at hn
      obtain ⟨-, hok⟩ := AppCallKind.start.inj (Option.some.inj hn)
      refine ⟨id, ⟨name, s.registry.channels, ok⟩, ?_, heq.symm, hok⟩
      rw [flying_after hpending, if_pos rfl]
      exact hafter.resolve_right fun h => by simp [h.2] at hok
    · rw [hother n heq] at hn
      rw [hslots]
      refine (hs.cover n channel hn).imp_right fun hold => ?_
      obtain ⟨i, app, happ, hname, hok⟩ := hold
      refine ⟨i, app, ?_, hname, hok⟩
      rw [flying_after hpending, if_neg]
      · exact happ
      · rintro rfl
        rw [flying, hbefore] at happ
        cases happ
  · apply found_after hs hpending
    · intro n hn
      rwa [Registered, hslots]
    · intro n hn
      exact hs.found id n (hfound n hn)

theorem kept_pushed {id : Nat} {name : String} {channel : Nat} (hs : Kept s)
    (hbefore : s.pending.get id = some (.registerPush name channel))
    (hregistry : s'.registry =
      ⟨s.registry.slots ++ [⟨name, channel, .running, none⟩], s.registry.channels⟩)
    (hcalls : s'.calls = s.calls)
    (hpending : ∀ i, s'.pending.get i = if i = id then none else s.pending.get i) : Kept s' := by
  have hlast := lastCall_of_calls_eq hcalls
  have hslots : s'.registry.slots = s.registry.slots ++ [⟨name, channel, .running, none⟩] := by
    rw [hregistry]
  have hchannels : s'.registry.channels = s.registry.channels := by rw [hregistry]
  have hown : s.flying id = some ⟨name, channel, true⟩ := by
    rw [flying, hbefore]
    rfl
  have hflying : ∀ i app, s'.flying i = some app → i ≠ id ∧ s.flying i = some app := by
    intro i app happ
    rw [flying_after hpending] at happ
    split at happ
    · cases happ
    · next hne => exact ⟨hne, happ⟩
  have hmem : ∀ slot ∈ s'.registry.slots, slot ∈ s.registry.slots ∨
      slot = ⟨name, channel, .running, none⟩ := by
    intro slot hslot
    rw [hslots] at hslot
    exact (List.mem_append.mp hslot).imp_right List.mem_singleton.mp
  constructor
  · intro slot hslot hstatus
    rw [hlast]
    cases hmem slot hslot with
    | inl hold => exact hs.slot_last slot hold hstatus
    | inr heq =>
      rw [heq]
      exact hs.flying_last id _ hown
  · intro i app happ
    rw [hlast]
    exact hs.flying_last i app (hflying i app happ).2
  · intro slot hslot
    rw [hchannels]
    cases hmem slot hslot with
    | inl hold => exact hs.slot_lt slot hold
    | inr heq =>
      rw [heq]
      exact hs.flying_lt id _ hown
  · intro i app happ
    rw [hchannels]
    exact hs.flying_lt i app (hflying i app happ).2
  · intro slot hslot i app happ
    obtain ⟨hne, hold⟩ := hflying i app happ
    cases hmem slot hslot with
    | inl hslot => exact hs.slot_ne slot hslot i app hold
    | inr heq =>
      rw [heq]
      intro hchannel
      exact hne (hs.flying_ne i id app _ hold hown hchannel.symm)
  · intro i j app app' happ happ'
    exact hs.flying_ne i j app app' (hflying i app happ).2 (hflying j app' happ').2
  · intro n ch hn
    rw [hlast] at hn
    cases hs.cover n ch hn with
    | inl hslot =>
      obtain ⟨slot, hslot, hrunning⟩ := hslot
      exact .inl ⟨slot, by rw [hslots]; exact List.mem_append_left _ hslot, hrunning⟩
    | inr hold =>
      obtain ⟨i, app, happ, hname, hok⟩ := hold
      by_cases heq : i = id
      · left
        rw [heq, hown] at happ
        cases happ
        exact ⟨⟨name, channel, .running, none⟩, by simp [hslots], hname, rfl⟩
      · right
        refine ⟨i, app, ?_, hname, hok⟩
        rw [flying_after hpending, if_neg heq]
        exact happ
  · apply found_after hs hpending
    · intro n hn
      rw [Registered, hslots, List.map_append]
      exact List.mem_append_left _ hn
    · intro n hn
      cases hn

theorem kept_entered {id : Nat} {name : String} {channel : Nat} {error : Option String}
    (hs : Kept s) (hnodup : (s.registry.slots.map (·.name)).Nodup)
    (hbefore : s.pending.get id = some (.startUpdate name channel error))
    (hregistry : s'.registry = ⟨AppRegistry.changeSlot name (fun slot =>
      { slot with
        stopTx := channel
        status := if error.isNone then .running else .failed
        statusDetail := error }) s.registry.slots, s.registry.channels⟩)
    (hcalls : s'.calls = s.calls)
    (hpending : ∀ i, s'.pending.get i = if i = id then none else s.pending.get i) : Kept s' := by
  have hlast := lastCall_of_calls_eq hcalls
  have hchannels : s'.registry.channels = s.registry.channels := by rw [hregistry]
  have hown : s.flying id = some ⟨name, channel, error.isNone⟩ := by
    rw [flying, hbefore]
    rfl
  have hownLast := hs.flying_last id _ hown
  have hflying : ∀ i app, s'.flying i = some app → i ≠ id ∧ s.flying i = some app := by
    intro i app happ
    rw [flying_after hpending] at happ
    split at happ
    · cases happ
    · next hne => exact ⟨hne, happ⟩
  have hrunning : decide ((if error.isNone then AppStatus.running else .failed) = .running) =
      error.isNone := by
    cases error <;> rfl
  have hmem : ∀ slot ∈ s'.registry.slots, slot ∈ s.registry.slots ∧ slot.name ≠ name ∨
      slot.name = name ∧ slot.stopTx = channel ∧
        slot.status = if error.isNone then .running else .failed := by
    intro slot hslot
    rw [hregistry] at hslot
    obtain ⟨old, hold, ⟨hname, rfl⟩ | ⟨hname, rfl⟩⟩ := mem_changeSlot hnodup hslot
    · exact .inr ⟨hname, rfl, rfl⟩
    · exact .inl ⟨hold, hname⟩
  constructor
  · intro slot hslot hstatus
    rw [hlast]
    obtain ⟨hold, -⟩ | ⟨hname, htx, hnew⟩ := hmem slot hslot
    · exact hs.slot_last slot hold hstatus
    · rw [hname, htx, hnew, hrunning]
      exact hownLast
  · intro i app happ
    rw [hlast]
    exact hs.flying_last i app (hflying i app happ).2
  · intro slot hslot
    rw [hchannels]
    obtain ⟨hold, -⟩ | ⟨-, htx, -⟩ := hmem slot hslot
    · exact hs.slot_lt slot hold
    · rw [htx]
      exact hs.flying_lt id _ hown
  · intro i app happ
    rw [hchannels]
    exact hs.flying_lt i app (hflying i app happ).2
  · intro slot hslot i app happ
    obtain ⟨hne, hold⟩ := hflying i app happ
    obtain ⟨hslot, -⟩ | ⟨-, htx, -⟩ := hmem slot hslot
    · exact hs.slot_ne slot hslot i app hold
    · rw [htx]
      intro hchannel
      exact hne (hs.flying_ne i id app _ hold hown hchannel.symm)
  · intro i j app app' happ happ'
    exact hs.flying_ne i j app app' (hflying i app happ).2 (hflying j app' happ').2
  · intro n ch hn
    rw [hlast] at hn
    by_cases heq : n = name
    · -- the slot that the block has entered the start in
      left
      rw [heq, hownLast] at hn
      obtain ⟨-, hok⟩ := AppCallKind.start.inj (Option.some.inj hn)
      have hregistered : s.Registered name := by
        apply hs.found id name
        rw [hbefore]
        rfl
      obtain ⟨slot, hslot, hname⟩ := List.mem_map.mp hregistered
      refine ⟨_, by rw [hregistry]; exact mem_changeSlot_of_eq hnodup hslot hname, ?_, if_pos hok⟩
      show slot.name = n
      rw [hname, heq]
    · refine (hs.cover n ch hn).imp (fun hold => ?_) (fun hold => ?_)
      · obtain ⟨slot, hslot, hname, hstatus⟩ := hold
        refine ⟨slot, ?_, hname, hstatus⟩
        rw [hregistry]
        exact mem_changeSlot_of_ne hnodup hslot fun h => heq (hname.symm.trans h)
      · obtain ⟨i, app, happ, hname, hok⟩ := hold
        refine ⟨i, app, ?_, hname, hok⟩
        rw [flying_after hpending, if_neg]
        · exact happ
        · rintro rfl
          rw [hown] at happ
          cases happ
          exact heq hname.symm
  · apply found_after hs hpending
    · intro n hn
      exact (registered_changeSlot (congrArg AppRegistry.slots hregistry) (fun _ => rfl) n).mpr hn
    · intro n hn
      cases hn

/-! ## One block -/

/-- A call of `App::start` keeps the calls of the apps apart exactly if the last call of the app
    was no start. -/
theorem apart_start_iff {name : String} {channel : Nat} {ok : Bool}
    (hapart : ∀ n, List.Separated (AppCall.IsStartOf n) (AppCall.IsStopOf n) s.calls)
    (hcalls : s'.calls = ⟨name, .start channel ok⟩ :: s.calls) :
    (∀ n, List.Separated (AppCall.IsStartOf n) (AppCall.IsStopOf n) s'.calls) ↔
      ∀ channel ok, s.lastCall name ≠ some (.start channel ok) := by
  rw [hcalls, ← cleared_iff]
  constructor
  · intro h
    exact (List.separated_cons.mp (h name)).2 ⟨rfl, by simp⟩
  · intro h n
    refine List.separated_cons.mpr ⟨hapart n, fun hstart => ?_⟩
    obtain rfl : name = n := hstart.1
    exact h

theorem apart_stop {name : String}
    (hapart : ∀ n, List.Separated (AppCall.IsStartOf n) (AppCall.IsStopOf n) s.calls)
    (hcalls : s'.calls = ⟨name, .stop⟩ :: s.calls) (n : String) :
    List.Separated (AppCall.IsStartOf n) (AppCall.IsStopOf n) s'.calls := by
  rw [hcalls]
  exact List.separated_cons.mpr ⟨hapart n, fun hstart => absurd rfl hstart.2⟩

/-- What a right registry has besides stays while it is right. -/
theorem kept_step (hsafe : Safe s) (hs : Kept s) (hsafe' : Safe s')
    (h : step s ev = some s') : Kept s' := by
  obtain ⟨id, after, calls, hchange, hcalls, hpending⟩ := change_of_step h
  generalize hbefore : s.pending.get id = before at hchange
  generalize hregistry : s'.registry = registry at hchange
  cases hchange with
  | looked hturn hnone hafter hle hfound =>
    have hflying := flying_of_none hpending (by rw [hbefore, hnone]) hafter
    exact kept_looked hs hflying hregistry hcalls hle hpending hfound
  | stopped hturn hslot hstatus hafter hfound =>
    have hflying := flying_of_none hpending (by rw [hbefore]; rfl) hafter
    exact kept_stopped hs hsafe.nodup hslot hstatus hflying hregistry hcalls hpending hfound
  | appStart hturn hnone hafter hfound =>
    have hlast := (apart_start_iff hsafe.apart hcalls).mp hsafe'.apart
    exact kept_appStart hs hlast (by rw [hbefore, hnone]) hafter hregistry hcalls hpending
      (by rw [hbefore]; exact hfound)
  | pushed hturn => exact kept_pushed hs hbefore hregistry hcalls hpending
  | entered hturn => exact kept_entered hs hsafe.nodup hbefore hregistry hcalls hpending

/-- The slots of a registry go by the calls, whatever the block has done. -/
theorem running_of_kept (hs : Kept s) : ∀ slot ∈ s.registry.slots, slot.status = .running →
    s.lastCall slot.name = some (.start slot.stopTx true) := by
  intro slot hslot hrunning
  have hlast := hs.slot_last slot hslot (by rw [hrunning]; simp)
  rw [hlast, hrunning]
  rfl

/-- One block keeps the registry right exactly if it is in turn. -/
theorem safe_step_iff (hs : Kept s) (hsafe : Safe s) (h : step s ev = some s') :
    Safe s' ↔ InTurn s ev := by
  obtain ⟨id, after, calls, hchange, hcalls, hpending⟩ := change_of_step h
  generalize hbefore : s.pending.get id = before at hchange
  generalize hregistry : s'.registry = registry at hchange
  cases hchange with
  | looked hturn hnone hafter hle hfound =>
    have hflying := flying_of_none hpending (by rw [hbefore, hnone]) hafter
    have hkept := kept_looked hs hflying hregistry hcalls hle hpending hfound
    refine iff_of_true ⟨?_, ?_, running_of_kept hkept⟩ hturn
    · rw [hcalls]
      exact hsafe.apart
    · rw [hregistry]
      exact hsafe.nodup
  | stopped hturn hslot hstatus hafter hfound =>
    have hflying := flying_of_none hpending (by rw [hbefore]; rfl) hafter
    have hkept := kept_stopped hs hsafe.nodup hslot hstatus hflying hregistry hcalls hpending hfound
    refine iff_of_true ⟨apart_stop hsafe.apart hcalls, ?_, running_of_kept hkept⟩ hturn
    exact nodup_changeSlot (congrArg AppRegistry.slots hregistry) (fun _ => rfl) hsafe.nodup
  | appStart hturn hnone hafter hfound =>
    rw [hturn, unstarted_iff hsafe hs]
    constructor
    · intro hsafe'
      exact (apart_start_iff hsafe.apart hcalls).mp hsafe'.apart
    · intro hlast
      have hkept := kept_appStart hs hlast (by rw [hbefore, hnone]) hafter hregistry hcalls hpending
        (by rw [hbefore]; exact hfound)
      refine ⟨(apart_start_iff hsafe.apart hcalls).mpr hlast, ?_, running_of_kept hkept⟩
      rw [hregistry]
      exact hsafe.nodup
  | pushed hturn =>
    have hkept := kept_pushed hs hbefore hregistry hcalls hpending
    rw [hturn]
    constructor
    · intro hsafe' hmem
      have hnodup := hsafe'.nodup
      rw [hregistry, List.map_append] at hnodup
      exact (List.nodup_append.mp hnodup).2.2 _ hmem _ (List.mem_singleton.mpr rfl) rfl
    · intro hnew
      refine ⟨by rw [hcalls]; exact hsafe.apart, ?_, running_of_kept hkept⟩
      rw [hregistry, List.map_append]
      refine List.nodup_append.mpr ⟨hsafe.nodup, List.nodup_singleton _, ?_⟩
      intro a ha b hb heq
      rw [heq, List.mem_singleton.mp hb] at ha
      exact hnew ha
  | entered hturn =>
    have hkept := kept_entered hs hsafe.nodup hbefore hregistry hcalls hpending
    refine iff_of_true ⟨by rw [hcalls]; exact hsafe.apart, ?_, running_of_kept hkept⟩ hturn
    exact nodup_changeSlot (congrArg AppRegistry.slots hregistry) (fun _ => rfl) hsafe.nodup

/-! ## Whole runs -/

/-- Throughout a run no app is started twice, names are distinct and running slots hold the
    senders of their apps, exactly if every block is in turn. -/
theorem started_once_iff {events : List RegistryEvent} {s' : RegistryRun}
    (h : Run.runFrom step start events = some s') :
    Run.Always step Safe start events ↔ Run.StepsMeet step InTurn start events := by
  have hsafe : Safe start :=
    ⟨fun _ => List.separated_nil, List.nodup_nil, fun _ hslot => absurd hslot List.not_mem_nil⟩
  have hkept : Kept start := by
    constructor
    case cover =>
      intro name channel hlast
      cases hlast
    all_goals
      intros
      contradiction
  exact Run.always_iff_stepsMeet_of_kept
    (fun _ _ _ hs hP hP' hstep => kept_step hP hs hP' hstep)
    (fun _ _ _ hs hP hstep => safe_step_iff hs hP hstep) hkept hsafe h

/-- An app is registered and stopped, then two requests start it at the same time. -/
def twoStarts : List RegistryEvent :=
  [.call 0 (.register "files"), .next 0 .started, .next 0 .started, .call 1 (.stopApp "files"),
    .call 2 (.startApp "files"), .call 3 (.startApp "files"), .next 2 .started, .next 3 .started]

/-- Both find it stopped and start it, with no stop in between. -/
theorem started_twice :
    ∃ s', Run.runFrom step start twoStarts = some s' ∧
      s'.calls = [⟨"files", .start 2 true⟩, ⟨"files", .start 1 true⟩, ⟨"files", .stop⟩,
        ⟨"files", .start 0 true⟩] ∧ ¬s'.Safe := by
  obtain ⟨s', hs', hcalls⟩ := (Option.any_eq_true (fun s : RegistryRun => decide (s.calls =
    [⟨"files", .start 2 true⟩, ⟨"files", .start 1 true⟩, ⟨"files", .stop⟩,
      ⟨"files", .start 0 true⟩])) (Run.runFrom step start twoStarts)).mp (by decide +kernel)
  rw [decide_eq_true_eq] at hcalls
  refine ⟨s', hs', hcalls, fun hsafe => ?_⟩
  have hapart := hsafe.apart "files"
  rw [hcalls] at hapart
  have hstart : ∀ channel, AppCall.IsStartOf "files" ⟨"files", .start channel true⟩ :=
    fun channel => ⟨rfl, by simp⟩
  obtain ⟨hne, -⟩ := List.cleared_cons.mp ((List.separated_cons.mp hapart).2 (hstart 2))
  exact hne (hstart 1)

/-- One start after the other is right. -/
theorem started_once_in_turn :
    ∃ s', Run.runFrom step start (twoStarts.take 7) = some s' ∧
      Run.Always step Safe start (twoStarts.take 7) := by
  have hrun : (Run.runFrom step start (twoStarts.take 7)).isSome = true := by
    decide +kernel
  obtain ⟨s', hs'⟩ := Option.isSome_iff_exists.mp hrun
  have hmeet : Run.meets step InTurn start (twoStarts.take 7) = true := by
    decide +kernel
  exact ⟨s', hs', (started_once_iff hs').mpr (Run.stepsMeet_of_meets hmeet)⟩

end RegistryRun

end ByteHive
