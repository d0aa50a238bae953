import ByteHive.Native.Server

/-!
# The initial sync of a session (`client.rs`, `server.rs`)

A client with an empty journal connects: the ledgers are exchanged, then the manifests, then
each side sends what its plan says and applies what comes in, the client first. Nothing else
changes either side meanwhile. A side that fails ends the session.

`send_paths` reads with several threads; the order in which their messages leave is a
parameter. The check of the free disk space is not modelled.
-/

namespace ByteHive

/-- `READ_THREADS`. -/
def readThreads : Nat := 4

/-- Takes the first element of the list at index `i`. -/
def takeFrom {α : Type} : List (List α) → Nat → Option (α × List (List α))
  | [], _ => none
  | [] :: _, 0 => none
  | (a :: l) :: ls, 0 => some (a, l :: ls)
  | l :: ls, i + 1 => (takeFrom ls i).map fun r => (r.1, l :: r.2)

/-- Merges the lists in the order that `schedule` gives; what it leaves comes at the end. -/
def interleave {α : Type} (ls : List (List α)) : List Nat → List α
  | [] => ls.flatten
  | i :: schedule =>
    match takeFrom ls i with
    | some r => r.1 :: interleave r.2 schedule
    | none => interleave ls schedule

namespace SyncEngine

/-- `send_paths`: each thread streams its share of the paths. -/
def sendPaths (h : Host) (e : SyncEngine) (paths : List PathBuf) (schedule : List Nat) :
    List Message :=
  interleave ((paths.toChunks ((paths.length + readThreads - 1) / readThreads)).map fun share =>
    streamMessages h e.tree share e.wireActionStamp 0) schedule

/-- One message in the receive loop of `run_session`; `none` ends the session. -/
def recvInitial (h : Host) (e : SyncEngine) : Message → Option SyncEngine
  | .bundle b =>
    match e.applyBundle h b with
    | (some _, e) => some e
    | (none, _) => none
  | .largeFileStart md n a =>
    match e.beginLargeFileWithAction h md n a with
    | (true, e) => some e
    | (false, _) => none
  | .largeFileChunk p i data =>
    match e.receiveLargeFileChunk h p i data with
    | (some (.readyToCommit hash), e) =>
      match e.commitLargeFile h p hash with
      | (some _, e) => some e
      | (none, _) => none
    | (some .pending, e) => some e
    | (none, _) => none
  | .largeFileEnd p fh =>
    match e.finishLargeFile h p fh with
    | (some _, e) => some e
    | (none, _) => none
  | .delete paths t d => some (e.handleRecvDeleteWithMeta h paths t d).2
  | _ => some e

/-- One message in the receive loop of `handle_client`. -/
def recvUpload (h : Host) (e : SyncEngine) (m : Message) : Option SyncEngine :=
  match applyInitialUpload h e m with
  | (true, r) => some r.engine
  | (false, _) => none

end SyncEngine

/-- A receive loop over all messages. -/
def recvAll (recv : SyncEngine → Message → Option SyncEngine) (e : SyncEngine) :
    List Message → Option SyncEngine
  | [] => some e
  | m :: ms => (recv e m).bind fun e => recvAll recv e ms

/-- The messages of a plan: the pushed deletes, then the files. -/
def planMessages (h : Host) (plan : InitialPlan) (e : SyncEngine) (schedule : List Nat) :
    List Message :=
  (plan.deletes.map fun d => .delete [d.1] d.2.1 d.2.2) ++ e.sendPaths h plan.toClient schedule

/-- The exchange of the ledgers: the server speaks first. Returns server and client. -/
def exchangeLedgers (hs hc : Host) (server client : SyncEngine) : SyncEngine × SyncEngine :=
  let client := (client.mergeLedger hc (server.ledgerEntries hs)).2
  ((server.mergeLedger hs (client.ledgerEntries hc)).2, client)

/-- The initial sync up to both `SyncComplete`s. Returns server and client; `none` when a side
    fails. -/
def initialSync (hs hc : Host) (schedule schedule' : List Nat) (server client : SyncEngine) :
    Option (SyncEngine × SyncEngine) :=
  let client := client.scan hc
  let remote := client.manifest
  let s := sessionManifest hs server
  let r := initialPlan hs s.2 s.1 remote
  let server := r.2.clearTombstones hs r.1.recreated
  (recvAll (SyncEngine.recvInitial hc) client (planMessages hs r.1 r.2 schedule)).bind fun client =>
    -- The client plans from the manifest it has sent.
    let q := syncPlan false hc client remote s.1
    let client := q.2.clearTombstones hc q.1.recreated
    (recvAll (SyncEngine.recvUpload hs) server (planMessages hc q.1 q.2 schedule')).map
      fun server => (server, client)

/-- A session of a client with an empty journal. -/
def runSession (hs hc : Host) (schedule schedule' : List Nat) (server client : SyncEngine) :
    Option (SyncEngine × SyncEngine) :=
  let x := exchangeLedgers hs hc server client
  initialSync hs hc schedule schedule' x.1 x.2

end ByteHive
