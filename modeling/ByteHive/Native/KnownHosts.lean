import ByteHive.ForStd.Run
import ByteHive.Native.Server

/-!
# Which clients may connect (`known_hosts.rs`, `handle_client`)

The server keeps the certificates of its clients with a status that an operator sets. A
connection presents its certificate in the TLS handshake; its first message, the Hello, is
accepted where the status of that certificate is `Allowed` at that moment.

The file that the registry is saved to is left out.
-/

namespace ByteHive

/-- `PROTOCOL_VERSION`. -/
def protocolVersion : Nat := 10

inductive ClientStatus where
  | pending
  | allowed
  | rejected
deriving DecidableEq, Repr

structure KnownClient where
  nodeId : String
  fingerprint : String
  label : String
  status : ClientStatus
  addr : String
  firstSeenMs : Nat
  lastSeenMs : Nat
deriving DecidableEq, Repr

structure KnownClients where
  clients : List KnownClient
  autoApprove : Bool
deriving DecidableEq, Repr

namespace KnownClients

/-- `iter_mut().find(..)` and a change of the client found. -/
def change (fingerprint : String) (f : KnownClient → KnownClient) :
    List KnownClient → List KnownClient
  | [] => []
  | c :: cs => if c.fingerprint = fingerprint then f c :: cs else c :: change fingerprint f cs

def status (kc : KnownClients) (fingerprint : String) : Option ClientStatus :=
  (kc.clients.find? (·.fingerprint = fingerprint)).map (·.status)

/-- `upsert_pending`; `true` for a new client. -/
def upsertPending (kc : KnownClients) (nodeId fingerprint addr : String) (nowMs : Nat) :
    Bool × KnownClients :=
  if kc.clients.any (·.fingerprint = fingerprint) then
    (false, { kc with
      clients := change fingerprint (fun c =>
        { c with
          lastSeenMs := nowMs
          nodeId := if c.nodeId = "" then nodeId else c.nodeId
          addr := if addr = "" then c.addr else addr }) kc.clients })
  else
    let status := if kc.autoApprove then ClientStatus.allowed else .pending
    (true, { kc with
      clients := kc.clients ++ [⟨nodeId, fingerprint, "", status, addr, nowMs, nowMs⟩] })

/-- `set_status`; `false` for an unknown client. -/
def setStatus (kc : KnownClients) (fingerprint : String) (status : ClientStatus) :
    Bool × KnownClients :=
  (kc.clients.any (·.fingerprint = fingerprint),
    { kc with clients := change fingerprint (fun c => { c with status }) kc.clients })

/-- `remove`; `true` where a client was known. -/
def remove (kc : KnownClients) (fingerprint : String) : Bool × KnownClients :=
  let clients := kc.clients.filter (·.fingerprint ≠ fingerprint)
  (decide (clients.length ≠ kc.clients.length), { kc with clients })

end KnownClients

/-- What becomes of a Hello. -/
inductive HelloOutcome where
  | accepted
  /-- `Message::ApprovalPending` is sent. -/
  | approvalPending (fingerprint : String)
  /-- `Message::Rejected` is sent. -/
  | rejected (reason : String)
  /-- The error of another protocol version. -/
  | mismatch (text : String)
deriving DecidableEq, Repr

/-- The Hello stage of `handle_client`: the client is registered, then its status is read. -/
def handleHello (kc : KnownClients) (fingerprint nodeId addr : String) (version nowMs : Nat) :
    HelloOutcome × KnownClients :=
  if version ≠ protocolVersion then
    (.mismatch ("filesync: protocol version mismatch — server=" ++ toString protocolVersion ++
      ", client=" ++ toString version), kc)
  else
    let kc := (kc.upsertPending nodeId fingerprint addr nowMs).2
    match (kc.status fingerprint).getD .pending with
    | .allowed => (.accepted, kc)
    | .pending => (.approvalPending fingerprint, kc)
    | .rejected => (.rejected "client rejected by administrator", kc)

/-- The server with its registry of clients. -/
structure GuardedServer where
  server : ServerState
  known : KnownClients
  /-- The fingerprint of the certificate that each connection has presented. -/
  certs : FinMap Nat String
  /-- The connections whose Hello is awaited. -/
  waiting : Finset Nat

inductive GuardedEvent where
  /-- A TLS handshake with a client certificate. -/
  | connect (conn : Nat) (fingerprint : String)
  | hello (conn : Nat) (nodeId addr : String) (version nowMs : Nat)
  /-- An operator approves or rejects a client. -/
  | setStatus (fingerprint : String) (status : ClientStatus)
  | remove (fingerprint : String)
  /-- A step of the server past the Hello stage. -/
  | server (ev : ServerEvent)

namespace GuardedServer

/-- One step of the server; `none` where the event is not possible. -/
def step (γ : GuardedServer) : GuardedEvent → Option GuardedServer
  | .connect c fp =>
    if γ.certs.get c = none then
      some { γ with certs := γ.certs.insert c fp, waiting := insert c γ.waiting }
    else none
  | .hello c nodeId addr version nowMs =>
    if c ∈ γ.waiting then
      match γ.certs.get c with
      | none => none
      | some fp =>
        let r := handleHello γ.known fp nodeId addr version nowMs
        let γ := { γ with known := r.2, waiting := γ.waiting.erase c }
        if r.1 = .accepted then
          (γ.server.step (.accept c nodeId)).map fun server => { γ with server }
        else some γ
    else none
  | .setStatus fp status => some { γ with known := (γ.known.setStatus fp status).2 }
  | .remove fp => some { γ with known := (γ.known.remove fp).2 }
  -- A session is accepted by its Hello only.
  | .server (.accept _ _) => none
  | .server ev => (γ.server.step ev).map fun server => { γ with server }

/-- A server with no connection yet. -/
def start (engine : SyncEngine) (known : KnownClients) : GuardedServer :=
  ⟨.start engine, known, .empty, ∅⟩

end GuardedServer

end ByteHive
