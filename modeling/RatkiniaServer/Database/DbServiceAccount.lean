import RatkiniaServer.Actor.AAuth

/-!
# `DbService_Account`

The statements of `DbService_Account` on the table `player.accounts`, and `A_Auth` together with that
table: what the database answers is no longer a parameter. Nobody else writes to the table. The handlers
and `Tick` of `A_Auth` run on one thread at a time, so a call of `GetAccountIdPasswordPair` or
`TryCreateAccount` is one step. An exception of the database ends the server and is no step.
-/

namespace RatkiniaServer

namespace DbService_Account

/-- A row of `player.accounts`. -/
structure Row where
  id : UInt64
  account : Bytes
  password : Bytes
  deriving DecidableEq

/-- `GetAccountIdPasswordPair`: the first row of the result. The account name is a parameter of the
query, compared byte for byte; names have no null byte here, as the driver may cut a parameter off
at one. -/
def getAccountIdPasswordPair (rows : List Row) (account : Bytes) : Option (UInt64 × Bytes) :=
  (rows.find? fun row => row.account = account).map fun row => (row.id, row.password)

/-- `TryCreateAccount`: first `SELECT EXISTS`, then `INSERT`. The database gives the new row the id
`inserted`, or does not insert it. -/
def tryCreateAccount (rows : List Row) (inserted : Option UInt64) (account password : Bytes) :
    List Row × CreateAccountResult :=
  if rows.any fun row => row.account = account then (rows, .duplicateId)
  else
    match inserted with
    | some id => (rows ++ [⟨id, account, password⟩], .success)
    | none => (rows, .unknownError)

end DbService_Account

open DbService_Account

/-- A login request, with the number of rows that the table had when it came. -/
structure LoginRequest where
  context : UInt32
  account : Bytes
  password : Bytes
  rows : Nat
  deriving DecidableEq

/-- `A_Auth` with its history, and the table. -/
structure AuthService where
  world : A_Auth.World
  accounts : List Row
  /-- History: the login requests that have become jobs, oldest first. -/
  logins : List LoginRequest

namespace AuthService

/-- No message has come and no account has been created. -/
def initial : AuthService := ⟨A_Auth.World.initial, [], []⟩

/-- The steps of `A_Auth`; `inserted` is for a job that creates an account. -/
inductive Action
  | registerRequest (context : UInt32) (account password : Bytes)
  | loginRequest (context : UInt32) (account password : Bytes)
  | sessionDisconnected (context : UInt32)
  | tickBegin
  | tickIterate (inserted : Option UInt64)
  | backgroundTake
  | backgroundExecute (salt : Bytes)
  | backgroundPush

/-- The step of `A_Auth`, with the answers of the database. -/
def Action.ofActor (accounts : List Row) : Action → A_Auth.Action
  | .registerRequest context account password => .registerRequest context account password
  | .loginRequest context account password =>
    .loginRequest (getAccountIdPasswordPair accounts) context account password
  | .sessionDisconnected context => .sessionDisconnected context
  | .tickBegin => .tickBegin
  | .tickIterate inserted =>
    .tickIterate fun account password => (tryCreateAccount accounts inserted account password).2
  | .backgroundTake => .backgroundTake
  | .backgroundExecute salt => .backgroundExecute salt
  | .backgroundPush => .backgroundPush

/-- The table after a step: only `Tick` writes to it, for the registration that it pops. -/
def accountsAfter (s : AuthService) : Action → List Row
  | .tickIterate inserted =>
    match s.world.auth.authJobForegroundQueue with
    | .register job :: _ =>
      (tryCreateAccount s.accounts inserted job.id job.hashedPassword.cString).1
    | _ => s.accounts
  | _ => s.accounts

/-- The login requests after a step: `OnLoginRequest` refuses one of a context that is online. -/
def loginsAfter (s : AuthService) : Action → List LoginRequest
  | .loginRequest context account password =>
    match s.world.auth.contextIdMap context with
    | some _ => s.logins
    | none => s.logins ++ [⟨context, account, password, s.accounts.length⟩]
  | _ => s.logins

def step (b : Bcrypt) (s : AuthService) (act : Action) : Option AuthService :=
  (A_Auth.step b s.world (act.ofActor s.accounts)).map fun world =>
    ⟨world, s.accountsAfter act, s.loginsAfter act⟩

/-! ## What the history tells -/

/-- The job of a registration that has been answered with a success. -/
def registration : A_Auth.Event → Option RegisterJob
  | .answered (.register job) (.registerResponse _ true _) => some job
  | _ => none

/-- The successful registrations, in order. -/
def registrations (history : List A_Auth.Event) : List RegisterJob := history.filterMap registration

/-- The job that the database makes of a login request. Rows are only ever appended, so the first
`r.rows` rows are those that the table had then. -/
def loginJob (accounts : List Row) (r : LoginRequest) : LoginJob :=
  A_Auth.loginJobOf r.context r.password
    (getAccountIdPasswordPair (accounts.take r.rows) r.account)

/-- The request opens the account with the id: there was a row of the name and the id, which is not
`InvalidId`, and the password, up to its first null byte, is the one that the name has been registered
with. -/
def Opens (s : AuthService) (r : LoginRequest) (id : UInt64) : Prop :=
  id ≠ LoginJob.invalidId ∧
  (∃ row ∈ s.accounts.take r.rows, row.account = r.account ∧ row.id = id) ∧
  ∃ registered ∈ registrations s.world.history,
    registered.id = r.account ∧ registered.originalPassword = r.password.cString

end AuthService

end RatkiniaServer
