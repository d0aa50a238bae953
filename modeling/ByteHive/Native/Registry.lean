import ByteHive.ForStd.FinMap
import Mathlib.Data.String.Defs

/-!
# The registry of apps (`registry.rs`)

The registry has a slot for each app. A call looks at the slots under the read lock, lets it
go, wires and starts the app, and enters the result under the write lock. Only `stop_app`
does all it does under one lock. Every start makes a stop channel of its own, which is known
here by its number; an app is known by the name in its manifest.

The threads of an app, its configuration and its HTTP side are not part of this module.
-/

namespace ByteHive

inductive AppStatus where
  | running
  | stopped
  | failed
deriving DecidableEq, Repr

inductive CoreError where
  | appAlreadyRegistered (name : String)
  | appNotFound (name : String)
  | io (error : String)
  | app (error : String)
deriving DecidableEq, Repr

/-- `to_string`. -/
def CoreError.text : CoreError → String
  | .appAlreadyRegistered name => "app already registered: " ++ name
  | .appNotFound name => "app not found: " ++ name
  | .io error => "I/O error: " ++ error
  | .app error => "app error: " ++ error

structure Slot where
  name : String
  /-- The number of the stop channel whose sender the slot holds. -/
  stopTx : Nat
  status : AppStatus
  statusDetail : Option String
deriving DecidableEq, Repr

structure AppRegistry where
  slots : List Slot
  /-- How many stop channels there have been. -/
  channels : Nat
deriving DecidableEq, Repr

inductive RegistryCall where
  | register (name : String)
  | startApp (name : String)
  | stopApp (name : String)
  | restartApp (name : String)
deriving DecidableEq, Repr

/-- What is left of a call between its locked blocks. -/
inductive RegistryBlock where
  /-- `register`: wire the app and start it. -/
  | registerStart (name : String)
  /-- `register`: push the slot, with the sender of the channel. -/
  | registerPush (name : String) (channel : Nat)
  /-- `restart_app` has slept, and goes on with `start_app`. -/
  | startCheck (name : String)
  /-- `start_app`: wire the app and start it. -/
  | startStart (name : String)
  /-- `start_app`: enter the sender, and the error of a start that has failed. -/
  | startUpdate (name : String) (channel : Nat) (error : Option String)
deriving DecidableEq, Repr

/-- What wiring and starting an app comes to. -/
inductive StartOutcome where
  | notWired (error : String)
  | started
  | failed (error : CoreError)
deriving DecidableEq, Repr

/-- `App::start` with a stop channel, and what it has returned, or `App::stop`. -/
inductive AppCallKind where
  | start (channel : Nat) (ok : Bool)
  | stop
deriving DecidableEq, Repr

/-- A call of a method of an app. -/
structure AppCall where
  name : String
  kind : AppCallKind
deriving DecidableEq, Repr

/-- A block has a block after it, or the call has returned. -/
inductive RegistryEnd where
  | next (block : RegistryBlock)
  | returned (result : Except CoreError Unit)

namespace AppRegistry

def find (r : AppRegistry) (name : String) : Option Slot := r.slots.find? (·.name = name)

/-- `iter_mut().find(..)` and a change of the slot found. -/
def changeSlot (name : String) (f : Slot → Slot) : List Slot → List Slot
  | [] => []
  | s :: ss => if s.name = name then f s :: ss else s :: changeSlot name f ss

/-- `register`, the look for a duplicate. -/
def registerCheck (r : AppRegistry) (name : String) : RegistryEnd :=
  if r.slots.any (·.name = name) then .returned (.error (.appAlreadyRegistered name))
  else .next (.registerStart name)

/-- `start_app`, the look at the slot. -/
def startCheck (r : AppRegistry) (name : String) : RegistryEnd :=
  match r.find name with
  | none => .returned (.error (.appNotFound name))
  | some slot => if slot.status = .running then .returned (.ok ()) else .next (.startStart name)

/-- `stop_app`, with the calls of `App::stop`. -/
def stopApp (r : AppRegistry) (name : String) :
    Except CoreError Unit × AppRegistry × List AppCall :=
  match r.find name with
  | none => (.error (.appNotFound name), r, [])
  | some slot =>
    if slot.status = .stopped then (.ok (), r, [])
    else
      let stop (slot : Slot) : Slot := { slot with status := .stopped, statusDetail := none }
      (.ok (), { r with slots := changeSlot name stop r.slots }, [⟨name, .stop⟩])

/-- The first block of a call, with the calls of methods of the app. -/
def firstBlock (r : AppRegistry) : RegistryCall → RegistryEnd × AppRegistry × List AppCall
  | .register name => (r.registerCheck name, r, [])
  | .startApp name => (r.startCheck name, r, [])
  | .stopApp name => (.returned (r.stopApp name).1, (r.stopApp name).2)
  | .restartApp name =>
    match (r.stopApp name).1 with
    | .ok () => (.next (.startCheck name), (r.stopApp name).2)
    | .error e => (.returned (.error e), (r.stopApp name).2)

/-- A later block. A new channel is made for every start; `App::start` runs outside the locks,
    and what it returns is used in the block after. -/
def nextBlock (r : AppRegistry) (outcome : StartOutcome) :
    RegistryBlock → RegistryEnd × AppRegistry × List AppCall
  | .registerStart name =>
    let made : AppRegistry := { r with channels := r.channels + 1 }
    match outcome with
    | .notWired e => (.returned (.error (.io e)), made, [])
    | .started => (.next (.registerPush name r.channels), made, [⟨name, .start r.channels true⟩])
    | .failed e => (.returned (.error e), made, [⟨name, .start r.channels false⟩])
  | .registerPush name channel =>
    (.returned (.ok ()), { r with slots := r.slots ++ [⟨name, channel, .running, none⟩] }, [])
  | .startCheck name => (r.startCheck name, r, [])
  | .startStart name =>
    let made : AppRegistry := { r with channels := r.channels + 1 }
    match outcome with
    | .notWired e => (.returned (.error (.io e)), made, [])
    | .started =>
      (.next (.startUpdate name r.channels none), made, [⟨name, .start r.channels true⟩])
    | .failed e =>
      (.next (.startUpdate name r.channels (some e.text)), made, [⟨name, .start r.channels false⟩])
  | .startUpdate name channel error =>
    let status := if error.isNone then AppStatus.running else .failed
    let enter (slot : Slot) : Slot :=
      { slot with stopTx := channel, status := status, statusDetail := error }
    let result : Except CoreError Unit :=
      if error.isNone then .ok () else .error (.app ("app '" ++ name ++ "' failed to start"))
    (.returned result, { r with slots := changeSlot name enter r.slots }, [])

end AppRegistry

/-! ## Any number of calls at a time -/

/-- The registry with the calls that are between two of their blocks, and the calls of methods of
    the apps, the last one first. -/
structure RegistryRun where
  registry : AppRegistry
  pending : FinMap Nat RegistryBlock
  calls : List AppCall

inductive RegistryEvent where
  /-- A call, under a number that tells it from the others. -/
  | call (id : Nat) (call : RegistryCall)
  | next (id : Nat) (outcome : StartOutcome)
deriving DecidableEq, Repr

namespace RegistryRun

def settle (id : Nat) (pending : FinMap Nat RegistryBlock) : RegistryEnd → FinMap Nat RegistryBlock
  | .next block => pending.insert id block
  | .returned _ => pending.erase id

/-- The state after a block of a call. -/
def after (s : RegistryRun) (id : Nat) (r : RegistryEnd × AppRegistry × List AppCall) :
    RegistryRun :=
  ⟨r.2.1, settle id s.pending r.1, r.2.2 ++ s.calls⟩

def step (s : RegistryRun) : RegistryEvent → Option RegistryRun
  | .call id call =>
    if s.pending.get id = none then some (s.after id (s.registry.firstBlock call)) else none
  | .next id outcome =>
    (s.pending.get id).map fun block => s.after id (s.registry.nextBlock outcome block)

/-- A registry without apps. -/
def start : RegistryRun := ⟨⟨[], 0⟩, .empty, []⟩

end RegistryRun

end ByteHive
