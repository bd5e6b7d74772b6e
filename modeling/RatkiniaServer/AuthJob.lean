import Mathlib.Data.List.Basic

/-!
# Authentication jobs

`AuthJob.h`: what `A_Auth` hands to its background thread. The bcrypt library is a parameter. A
`std::string` is a list of bytes; bcrypt gets `c_str()`, of which it reads the part before the first
null byte.
-/

namespace RatkiniaServer

/-- `std::string`. -/
abbrev Bytes := List UInt8

/-- The C string that `c_str()` is read as. -/
def Bytes.cString (s : Bytes) : Bytes := s.takeWhile fun b => b ≠ 0

/-- The bcrypt library: `bcrypt_checkpw`, and `bcrypt_hashpw` with the given salt, `none` when it
fails. -/
structure Bcrypt where
  checkpw : Bytes → Bytes → Int
  hashpw : Bytes → Bytes → Option Bytes

/-- `LoginJob`. -/
structure LoginJob where
  context : UInt32
  id : UInt64
  requestedPassword : Bytes
  savedPassword : Bytes
  isPasswordMatch : Bool := false
  deriving DecidableEq

/-- `InvalidId`: the maximum of `uint32_t`. -/
def LoginJob.invalidId : UInt64 := 0xFFFFFFFF

/-- `LoginJob::ExecuteBackgroundJob`. -/
def LoginJob.executeBackgroundJob (b : Bcrypt) (job : LoginJob) : LoginJob :=
  let result := b.checkpw job.requestedPassword.cString job.savedPassword.cString
  { job with isPasswordMatch := decide (job.id ≠ invalidId ∧ result = 0) }

/-- `RegisterJob`, whose `Id` is the account name. -/
structure RegisterJob where
  context : UInt32
  id : Bytes
  originalPassword : Bytes
  hashedPassword : Bytes := []
  deriving DecidableEq

/-- `RegisterJob::ExecuteBackgroundJob` with the salt that `bcrypt_gensalt` drew; `none` is the abort
of `CRASH_COND`. -/
def RegisterJob.executeBackgroundJob (b : Bcrypt) (salt : Bytes) (job : RegisterJob) :
    Option RegisterJob :=
  (b.hashpw job.originalPassword.cString salt).map fun hash => { job with hashedPassword := hash }

/-- `AuthJob`. -/
inductive AuthJob
  | login (job : LoginJob)
  | register (job : RegisterJob)
  deriving DecidableEq

/-- The branch of `AuthBackgroundThreadBody` on the kind of a job. -/
def AuthJob.executeBackgroundJob (b : Bcrypt) (salt : Bytes) : AuthJob → Option AuthJob
  | .login job => some (.login (job.executeBackgroundJob b))
  | .register job => (job.executeBackgroundJob b salt).map .register

/-- The context that a job answers to. -/
def AuthJob.context : AuthJob → UInt32
  | .login job => job.context
  | .register job => job.context

end RatkiniaServer
