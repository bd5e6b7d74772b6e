import RatkiniaServer.AuthJob
import RatkiniaServer.Lib.Transition
import Mathlib.Logic.Function.Basic

/-!
# `A_Auth`

The actor that registers and logs in accounts. Its handlers and `Tick` run on one thread at a time;
passwords are hashed by a background thread. The two sides share two queues of jobs, each under a
mutex of its own, so a step of the model is a handler, one iteration of the loop of `Tick`, or one of
the three parts of an iteration of `AuthBackgroundThreadBody`: taking a job, executing it and handing
it on.

The database is a parameter of the steps that query it. A hash map is the function that `find` computes
on it.
-/

namespace RatkiniaServer

/-- `RatkiniaProtocol::LoginResponse_LoginResult`. -/
inductive LoginResult
  | success
  | failure
  | duplicateAccount
  | duplicateContext
  deriving DecidableEq

/-- `DbService_Account::CreateAccountResult`. -/
inductive CreateAccountResult
  | success
  | duplicateId
  | unknownError
  deriving DecidableEq

/-- `FailedReason`. -/
def failedReason : CreateAccountResult → String
  | .success => ""
  | .duplicateId => "중복된 아이디입니다."
  | .unknownError => "알 수 없는 에러가 발생하였습니다."

/-- What `A_Auth` asks of its network interface. -/
inductive Response
  | registerResponse (context : UInt32) (successful : Bool) (reason : String)
  | loginResponse (context : UInt32) (result : LoginResult)
  | notifyFatal (context : UInt32) (text : String)
  | disconnectSession (context : UInt32)
  deriving DecidableEq

/-- `AuthenticationResult`. -/
inductive AuthenticationResult
  | success
  | duplicateContext
  | idAlreadyOnline
  deriving DecidableEq

/-- The job in the hands of the background thread. -/
inductive InHand
  | nothing
  | taken (job : AuthJob)
  | executed (job : AuthJob)
  deriving DecidableEq

/-- `A_Auth`, together with its background thread, which has `inHand`. Both queues have their front
first. -/
structure A_Auth where
  contextIdMap : UInt32 → Option UInt64
  idContextMap : UInt64 → Option UInt32
  authJobForegroundQueue : List AuthJob
  authJobBackgroundQueue : List AuthJob
  inHand : InHand
  /-- The actor's thread is in the loop of `Tick`. -/
  ticking : Bool

namespace A_Auth

/-- The actor before its first message. -/
def initial : A_Auth := ⟨fun _ => none, fun _ => none, [], [], .nothing, false⟩

/-! ## The background thread -/

/-- Take the front of the background queue, if there is one. -/
def backgroundTake (a : A_Auth) : A_Auth :=
  match a.authJobBackgroundQueue with
  | [] => a
  | job :: rest => { a with authJobBackgroundQueue := rest, inHand := .taken job }

/-- Execute the job taken. -/
def backgroundExecute (b : Bcrypt) (salt : Bytes) (a : A_Auth) (job : AuthJob) : Option A_Auth :=
  (job.executeBackgroundJob b salt).map fun job => { a with inHand := .executed job }

/-- Push the executed job to the foreground queue. -/
def backgroundPush (a : A_Auth) (job : AuthJob) : A_Auth :=
  { a with authJobForegroundQueue := a.authJobForegroundQueue ++ [job], inHand := .nothing }

/-! ## The handlers -/

/-- `Handle(Msg_SessionDisconnected)`. -/
def handleSessionDisconnected (a : A_Auth) (context : UInt32) : A_Auth :=
  match a.contextIdMap context with
  | none => a
  | some id =>
    { a with
      idContextMap := Function.update a.idContextMap id none
      contextIdMap := Function.update a.contextIdMap context none }

/-- `authJobBackgroundQueue_.emplace`. -/
def pushJob (a : A_Auth) (job : AuthJob) : A_Auth :=
  { a with authJobBackgroundQueue := a.authJobBackgroundQueue ++ [job] }

/-- A byte of the given character range. -/
def inRange (lo hi : Char) (b : UInt8) : Bool :=
  decide (lo.toNat ≤ b.toNat) && decide (b.toNat ≤ hi.toNat)

/-- A byte that `invalidAccountRegex` does not find. -/
def isAccountByte (b : UInt8) : Bool := inRange 'a' 'z' b || inRange '0' '9' b || inRange '_' '_' b

/-- The punctuation that `invalidPasswordRegex` lets pass. -/
def passwordPunctuation : List Char := "!@#$%^&*()_+-=[]\x7b\x7d;':\"\\|,.<>/?".toList

/-- A byte that `invalidPasswordRegex` does not find. -/
def isPasswordByte (b : UInt8) : Bool :=
  inRange 'a' 'z' b || inRange 'A' 'Z' b || inRange '0' '9' b ||
    passwordPunctuation.any fun c => inRange c c b

/-- The checks of `OnRegisterRequest` in their order: the text of the first one that fails. -/
def registerError (account password : Bytes) : Option String :=
  if account.length < 6 then some "아이디가 너무 짧습니다."
  else if account.length > 24 then some "아이디가 너무 깁니다."
  else if account.any (fun b => !isAccountByte b) then
    some "아이디는 영문 소문자, 숫자 또는 언더스코어(_)로만 구성되어야 합니다."
  else if password.length < 8 then some "패스워드가 너무 짧습니다."
  else if password.length > 32 then some "패스워드가 너무 깁니다."
  else if password.any (fun b => !isPasswordByte b) then
    some "패스워드에 허용되지 않는 문자가 존재합니다."
  else none

/-- `OnRegisterRequest`: the job pushed, or the answers sent at once. -/
def onRegisterRequest (context : UInt32) (account password : Bytes) : AuthJob ⊕ List Response :=
  match registerError account password with
  | some reason => .inr [.registerResponse context false reason]
  | none => .inl (.register ⟨context, account, password, []⟩)

/-- `EmptyHashedPassword`. -/
def emptyHashedPassword : Bytes :=
  "$2a$12$YeNGaZyLvcdFapdGyzzBiubEj.LkPp/F0ZX0NydtGAvr6zGX6Cne6".toList.map fun c =>
    UInt8.ofNat c.toNat

/-- The job `OnLoginRequest` pushes for the row that `GetAccountIdPasswordPair` found. -/
def loginJobOf (context : UInt32) (password : Bytes) (pair : Option (UInt64 × Bytes)) : LoginJob :=
  match pair with
  | some (id, savedPassword) => ⟨context, id, password, savedPassword, false⟩
  | none => ⟨context, LoginJob.invalidId, password, emptyHashedPassword, false⟩

/-- `OnLoginRequest`: the job pushed, or the answers sent at once. -/
def onLoginRequest (a : A_Auth) (getAccountIdPasswordPair : Bytes → Option (UInt64 × Bytes))
    (context : UInt32) (account password : Bytes) : AuthJob ⊕ List Response :=
  if (a.contextIdMap context).isSome then
    .inr [.notifyFatal context "이미 로그인되어 있는 상태입니다.", .disconnectSession context]
  else .inl (.login (loginJobOf context password (getAccountIdPasswordPair account)))

/-! ## `Tick` -/

/-- The computation of `contextAddResult` in `Tick`. -/
def addContext (a : A_Auth) (context : UInt32) (id : UInt64) : A_Auth × AuthenticationResult :=
  if (a.contextIdMap context).isSome then (a, .duplicateContext)
  else if (a.idContextMap id).isSome then (a, .idAlreadyOnline)
  else
    ({ a with
        contextIdMap := Function.update a.contextIdMap context (some id)
        idContextMap := Function.update a.idContextMap id (some context) }, .success)

/-- The answer to a login by the result of `addContext`. -/
def loginResultOf : AuthenticationResult → LoginResult
  | .success => .success
  | .idAlreadyOnline => .duplicateAccount
  | .duplicateContext => .duplicateContext

/-- The loop body of `Tick` after it has popped a job: the answer to the job, and whether the loop
goes on, which it does not after a failure. -/
def answer (a : A_Auth) (tryCreateAccount : Bytes → Bytes → CreateAccountResult) :
    AuthJob → A_Auth × Response × Bool
  | .login loginJob =>
    if loginJob.isPasswordMatch = false then
      (a, .loginResponse loginJob.context .failure, false)
    else
      let (a, contextAddResult) := a.addContext loginJob.context loginJob.id
      (a, .loginResponse loginJob.context (loginResultOf contextAddResult), true)
  | .register registerJob =>
    let result := tryCreateAccount registerJob.id registerJob.hashedPassword.cString
    if result ≠ .success then
      (a, .registerResponse registerJob.context false (failedReason result), false)
    else (a, .registerResponse registerJob.context true "", true)

/-! ## Runs -/

/-- The steps of the actor's thread and of the background thread. -/
inductive Action
  | registerRequest (context : UInt32) (account password : Bytes)
  | loginRequest (getAccountIdPasswordPair : Bytes → Option (UInt64 × Bytes)) (context : UInt32)
      (account password : Bytes)
  | sessionDisconnected (context : UInt32)
  | tickBegin
  | tickIterate (tryCreateAccount : Bytes → Bytes → CreateAccountResult)
  | backgroundTake
  | backgroundExecute (salt : Bytes)
  | backgroundPush

/-- What has happened, as far as it can be seen from outside. -/
inductive Event
  | accepted (job : AuthJob)
  | refused (responses : List Response)
  | answered (job : AuthJob) (response : Response)
  | disconnected (context : UInt32)
  deriving DecidableEq

/-- The actor together with its history, oldest event first. -/
structure World where
  auth : A_Auth
  history : List Event

/-- The actor before its first message. -/
def World.initial : World := ⟨A_Auth.initial, []⟩

/-- The outcome of a request. -/
def World.request (w : World) : AuthJob ⊕ List Response → World
  | .inl job => ⟨w.auth.pushJob job, w.history ++ [.accepted job]⟩
  | .inr responses => ⟨w.auth, w.history ++ [.refused responses]⟩

/-- One iteration of the loop of `Tick`. -/
def World.tickIterate (w : World) (tryCreateAccount : Bytes → Bytes → CreateAccountResult) : World :=
  match w.auth.authJobForegroundQueue with
  | [] => ⟨{ w.auth with ticking := false }, w.history⟩
  | job :: rest =>
    let (a, response, goesOn) :=
      { w.auth with authJobForegroundQueue := rest }.answer tryCreateAccount job
    ⟨{ a with ticking := goesOn }, w.history ++ [.answered job response]⟩

/-- The loop of `Tick`, up to `fuel` iterations. `databases k` is how the database answers in the
iteration `k`. -/
def World.tickLoop (databases : Nat → Bytes → Bytes → CreateAccountResult) : Nat → World → World
  | 0, w => w
  | fuel + 1, w =>
    if w.auth.ticking then
      World.tickLoop (fun k => databases (k + 1)) fuel (w.tickIterate (databases 0))
    else w

/-- `Tick` without concurrent pushes. -/
def World.tick (w : World) (databases : Nat → Bytes → Bytes → CreateAccountResult) : World :=
  World.tickLoop databases (w.auth.authJobForegroundQueue.length + 1)
    ⟨{ w.auth with ticking := true }, w.history⟩

/-- One step. The actor's thread handles no message while it is in `Tick`. -/
def step (b : Bcrypt) (w : World) : Action → Option World
  | .registerRequest context account password =>
    if w.auth.ticking then none
    else some (w.request (onRegisterRequest context account password))
  | .loginRequest getAccountIdPasswordPair context account password =>
    if w.auth.ticking then none
    else some (w.request
      (w.auth.onLoginRequest getAccountIdPasswordPair context account password))
  | .sessionDisconnected context =>
    if w.auth.ticking then none
    else some ⟨w.auth.handleSessionDisconnected context, w.history ++ [.disconnected context]⟩
  | .tickBegin => if w.auth.ticking then none else some ⟨{ w.auth with ticking := true }, w.history⟩
  | .tickIterate tryCreateAccount =>
    if w.auth.ticking then some (w.tickIterate tryCreateAccount) else none
  | .backgroundTake =>
    match w.auth.inHand with
    | .nothing => some ⟨w.auth.backgroundTake, w.history⟩
    | _ => none
  | .backgroundExecute salt =>
    match w.auth.inHand with
    | .taken job => (w.auth.backgroundExecute b salt job).map fun a => ⟨a, w.history⟩
    | _ => none
  | .backgroundPush =>
    match w.auth.inHand with
    | .executed job => some ⟨w.auth.backgroundPush job, w.history⟩
    | _ => none

end A_Auth

end RatkiniaServer
