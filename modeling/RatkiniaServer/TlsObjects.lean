import RatkiniaServer.NetworkServer
import RatkiniaServer.Session

/-!
# The SSL objects of a `NetworkServer`

`PostAccept` makes an `SSL` object with `SSL_new` and gives it to the session, `Session::Cleanup` frees
it, and the loops of `TryPostReceive` and `TrySendAsync` call OpenSSL with it. The threads are those of
`NetworkServer`; between two of their steps there, a thread may be in `PostAccept` before it makes the
session, in `Cleanup` behind the exchange of `shouldClose_`, or in one of the loops. Every call of
OpenSSL is a step. The mutexes around the loops and around the calls only rule out orders of steps;
what is shown here needs none of them.

SSL objects are numbered in the order in which they are made; each has its connection.
-/

namespace RatkiniaServer

namespace TlsObjects

/-- The calls of OpenSSL with an SSL object or one of its two BIOs. -/
inductive TlsCall
  | sslRead
  | sslWrite
  | sslGetError
  | bioWrite
  | bioRead
  | bioPending
  deriving DecidableEq

/-- What `SSL_get_error` returns, as far as the code tells its values apart. -/
inductive SslError
  | zeroReturn
  | wantRead
  | wantWrite
  | other
  deriving DecidableEq

/-- The two calls with a loop over `TryProcessReceiveBuffers` and `TryProcessSendBuffers`. -/
inductive Caller
  | tryPostReceive
  | trySendAsync
  deriving DecidableEq

/-- Where a thread is in such a loop: in `TryProcessReceiveBuffers` at `BIO_write`, `SSL_read` and
`SSL_get_error`, in `TryProcessSendBuffers` at `SSL_write`, `SSL_get_error`, `BIO_pending` and
`BIO_read`, or behind the loop. -/
inductive BufferPc
  | bioWrite
  | sslRead
  | readError
  | sslWrite
  | writeError
  | bioPending (wantRead : Bool)
  | bioRead (wantRead : Bool)
  | returned (value : Bool)
  deriving DecidableEq

/-- Where a thread is, beside its program counter in `NetworkServer`: nowhere else, in `PostAccept` at
`SSL_accept` and at `inet_ntop`, at `SSL_free`, at `closesocket`, or in the loop of a session. -/
inductive TlsPc
  | outside
  | accepting (i : Nat)
  | accepted (i : Nat)
  | freeing (i : Nat)
  | closing (i : Nat)
  | buffers (caller : Caller) (o : Nat) (pc : BufferPc)
  deriving DecidableEq

end TlsObjects

/-- A `NetworkServer` with the SSL objects. -/
structure TlsObjects where
  server : NetworkServer
  /-- The number of SSL objects made. -/
  objects : Nat
  /-- `Ssl` of a session. -/
  ssl : Nat → Option Nat
  /-- How often `SSL_free` has been called with an object. -/
  freed : Nat → Nat
  /-- `closesocket` has been called with the connection of an object. -/
  closed : Nat → Bool
  tls : Nat → TlsObjects.TlsPc
  /-- The calls with an object that had been freed, in order. -/
  lateCalls : List (TlsObjects.TlsCall × Nat)

namespace TlsObjects

open Session (ReceiveBuffersProcessResult SendBuffersProcessResult)

def init (initialAssociatedActor : String) : TlsObjects where
  server := .init initialAssociatedActor
  objects := 0
  ssl _ := none
  freed _ := 0
  closed _ := false
  tls _ := .outside
  lateCalls := []

variable (s : TlsObjects) (t : Nat)

def goto (p : TlsPc) : TlsObjects := { s with tls := Function.update s.tls t p }

/-- A call of OpenSSL with the object of a session. -/
def call (c : TlsCall) (o : Nat) : TlsObjects :=
  match s.ssl o with
  | some i => if s.freed i = 0 then s else { s with lateCalls := s.lateCalls ++ [(c, i)] }
  | none => s

/-! ## Steps -/

/-- What the calls of a step return: `SSL_accept`, `inet_ntop`, whether there are bytes to decrypt and
room for those that are decrypted, whether `SSL_read` returns some, what `SSL_get_error` says, whether
there is a message, whether `SSL_write` takes it, whether `BIO_pending` finds bytes and the TLS ring
has room for them, and whether `BIO_read` returns some. -/
structure Answers where
  sslAccept : Bool := true
  inetNtop : Bool := true
  decryptable : Bool := false
  available : Bool := true
  sslRead : Bool := false
  sslError : SslError := .wantRead
  message : Bool := false
  sslWrite : Bool := true
  bioPending : Bool := false
  enqueuable : Bool := true
  bioRead : Bool := true

/-- A step: a thread begins with `PostAccept`, a thread goes on outside of `NetworkServer`, or a thread
takes a step of `NetworkServer`. -/
inductive Action
  | accept (t : Nat)
  | tls (t : Nat) (answers : Answers)
  | server (a : NetworkServer.Action)

/-- `TryProcessReceiveBuffers` returns to the loop that has called it. -/
def afterReceive : Caller → ReceiveBuffersProcessResult → BufferPc
  | _, .failed => .returned false
  | .tryPostReceive, .success => .returned true
  | .tryPostReceive, .wantProcessSendBuffers => .sslWrite
  | .trySendAsync, .success => .sslWrite
  | .trySendAsync, .wantProcessSendBuffers => .returned true

/-- `TryProcessSendBuffers` returns to the loop that has called it. -/
def afterSend : Caller → SendBuffersProcessResult → BufferPc
  | _, .failed => .returned false
  | .tryPostReceive, .success => .bioWrite
  | .tryPostReceive, .wantProcessReceiveBuffers => .returned true
  | .trySendAsync, .success => .returned true
  | .trySendAsync, .wantProcessReceiveBuffers => .bioWrite

/-- The call of OpenSSL that the thread makes at a point of the loop, if any, and where it goes on. -/
def bufferStep (caller : Caller) (answers : Answers) : BufferPc → Option TlsCall × BufferPc
  | .bioWrite => if answers.decryptable then (some .bioWrite, .bioWrite) else (none, .sslRead)
  | .sslRead =>
    if answers.available = false then (none, afterReceive caller .failed)
    else (some .sslRead, if answers.sslRead then .sslRead else .readError)
  | .readError =>
    (some .sslGetError,
      match answers.sslError with
      | .zeroReturn | .wantRead => afterReceive caller .success
      | .wantWrite => afterReceive caller .wantProcessSendBuffers
      | .other => afterReceive caller .failed)
  | .sslWrite =>
    if answers.message = false then (none, .bioPending false)
    else (some .sslWrite, if answers.sslWrite then .sslWrite else .writeError)
  | .writeError =>
    (some .sslGetError,
      if answers.sslError = .wantRead then .bioPending true else afterSend caller .failed)
  | .bioPending wantRead =>
    (some .bioPending,
      if answers.bioPending = false then
        afterSend caller (if wantRead then .wantProcessReceiveBuffers else .success)
      else if answers.enqueuable = false then afterSend caller .failed
      else .bioRead wantRead)
  | .bioRead wantRead =>
    (some .bioRead, if answers.bioRead then .bioPending wantRead else afterSend caller .failed)
  | .returned value => (none, .returned value)

/-- `SSL_new` and `SSL_set_fd` in `PostAccept`. -/
def acceptStep : Option TlsObjects :=
  match s.tls t, s.server.pc t with
  | .outside, .idle => some { s.goto t (.accepting s.objects) with objects := s.objects + 1 }
  | _, _ => none

/-- A step of a thread outside of `NetworkServer`. -/
def tlsStep (answers : Answers) : Option TlsObjects :=
  match s.tls t with
  | .outside => none
  -- The path of a failed `SSL_accept` closes the socket and frees nothing.
  | .accepting i => some (s.goto t (if answers.sslAccept then .accepted i else .closing i))
  | .accepted i =>
    if answers.inetNtop then
      (s.server.startStep t .accept).map fun server =>
        { s.goto t .outside with
          server := server
          ssl := Function.update s.ssl s.server.created (some i) }
    else some (s.goto t (.freeing i))
  | .freeing i =>
    some { s.goto t (.closing i) with freed := Function.update s.freed i (s.freed i + 1) }
  | .closing i => some { s.goto t .outside with closed := Function.update s.closed i true }
  | .buffers _ _ (.returned _) => none
  | .buffers caller o pc =>
    match bufferStep caller answers pc with
    | (some c, pc') => some ((s.call c o).goto t (.buffers caller o pc'))
    | (none, pc') => some (s.goto t (.buffers caller o pc'))

/-- `Cleanup` behind the exchange of `shouldClose_`: only the first call goes on. -/
def cleanup (o : Nat) : TlsPc :=
  match s.server.shouldClose o, s.ssl o with
  | false, some i => .freeing i
  | _, _ => .outside

/-- The session that the next step of the thread calls `Cleanup` of: in `Close`, and in the destructor
where the session is erased. -/
def closes (s : NetworkServer) (t : Nat) : Option Nat :=
  match s.pc t with
  | .cleanupClose _ o _ => some o
  | .cleanupLocked context _ => s.sessions context
  | _ => none

/-- Where a step of `NetworkServer` leads to outside of it: `TryPostReceive` and `TrySendAsync` come to
their loops, and `Cleanup` to `SSL_free`. `NetworkServer` erases a session and unlocks the table in
one step, so the destructor frees behind the section, which only adds orders of steps. -/
def enters (server : NetworkServer) : TlsPc :=
  match s.server.pc t, server.pc t with
  | .postReceiveLocked o _, _ => .buffers .tryPostReceive o .bioWrite
  | .trySend _ o, .sendLoop _ _ => .buffers .trySendAsync o .sslWrite
  | _, _ =>
    match closes s.server t with
    | some o => s.cleanup o
    | none => .outside

/-- A step of a thread in `NetworkServer`. -/
def runServer (answers : NetworkServer.Answers) : Option TlsObjects :=
  (s.server.runStep t answers).map fun server =>
    { s.goto t (s.enters t server) with server := server }

/-- A step of `NetworkServer`. What the loop has returned is the answer to the step behind it. -/
def serverStep : NetworkServer.Action → Option TlsObjects
  | .start _ .accept => none
  | .start t handler =>
    if s.tls t = .outside then
      (s.server.startStep t handler).map fun server => { s with server := server }
    else none
  | .run t answers =>
    match s.tls t with
    | .outside => s.runServer t answers
    | .buffers _ _ (.returned value) =>
      s.runServer t { answers with sendBuffers := value, receiveBuffers := value }
    | _ => none

/-- A step. -/
def step : Action → Option TlsObjects
  | .accept t => s.acceptStep t
  | .tls t answers => s.tlsStep t answers
  | .server a => s.serverStep a

/-! ## The life cycle -/

/-- The thread is in a loop that may still call OpenSSL for the session. -/
def TlsPc.uses (o : Nat) : TlsPc → Bool
  | .buffers _ _ (.returned _) => false
  | .buffers _ o' _ => o' = o
  | _ => false

/-- The session was made and is not in the table any more, nor on its way there. -/
def Erased (o : Nat) : Prop :=
  o < s.server.created ∧ ¬ s.server.InTable o ∧
    ∀ t, s.server.pc t ≠ .acceptCreated o ∧ s.server.pc t ≠ .acceptLocked o

/-- Every SSL object is freed at most once; it has been freed when its connection is closed; the object
of an erased session has been freed, or a thread is about to free it; and nothing is called with an
object that has been freed. -/
structure LifeCycle : Prop where
  once : ∀ i, s.freed i ≤ 1
  closed : ∀ i, s.closed i = true → s.freed i = 1
  erased : ∀ o i, s.ssl o = some i → s.Erased o → s.freed i = 1 ∨ ∃ t, s.tls t = .freeing i
  late : s.lateCalls = []

/-- `SSL_accept` succeeds; `SSL_free` is called while no thread is in a loop of the session; and
`TryPostReceive` does not begin once the object has been freed. -/
def Orderly : Action → Prop
  | .tls t answers =>
    match s.tls t with
    | .accepting _ => answers.sslAccept = true
    | .freeing i => ∀ o, s.ssl o = some i → ∀ u, (s.tls u).uses o = false
    | _ => True
  | .server (.run t _) =>
    match s.server.pc t with
    | .postReceiveLocked o _ => ∀ i, s.ssl o = some i → s.freed i = 0
    | _ => True
  | _ => True

end TlsObjects

end RatkiniaServer
