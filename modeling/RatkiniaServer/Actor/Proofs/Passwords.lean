import RatkiniaServer.Actor.Proofs.AAuth
import Mathlib.Data.List.TakeWhile

/-!
# Passwords

A registration stores the hash of a password that has passed the checks of `OnRegisterRequest`; a
login compares a password with it. Between the two stand the conversions to C strings, which end at
the first null byte, and `InvalidId`, which stands for an unknown account but is an id like any other.
-/

namespace RatkiniaServer

/-- `bcrypt_checkpw` accepts exactly the C string that has been hashed. Of a longer one bcrypt would
read the first 72 bytes only. -/
def Bcrypt.Correct (b : Bcrypt) : Prop :=
  ∀ s salt hash, s.cString = s → s.length < 72 → b.hashpw s salt = some hash →
    ∀ p, b.checkpw p hash.cString = 0 ↔ p = s

namespace A_Auth

variable {b : Bcrypt} {a : A_Auth} {context : UInt32} {account p q : Bytes}

/-- What the database holds for an account that is registered under the given id with the given
password, or not registered: the row of the hash that the registration has computed. -/
inductive Stored (b : Bcrypt) (account : Bytes) :
    Option (UInt64 × Bytes) → Option (UInt64 × Bytes) → Prop
  | absent : Stored b account none none
  | row (id : UInt64) (p salt : Bytes) (context : UInt32) (accepted executed : RegisterJob)
      (haccepted : onRegisterRequest context account p = .inl (.register accepted))
      (hexecuted : accepted.executeBackgroundJob b salt = some executed) :
      Stored b account (some (id, p)) (some (id, executed.hashedPassword.cString))

/-! ## C strings -/

theorem cString_eq_self_iff : p.cString = p ↔ 0 ∉ p := by
  rw [Bytes.cString, List.takeWhile_eq_self_iff]
  constructor
  · intro h hmem
    simpa using h 0 hmem
  · intro h x hx
    have hne : x ≠ 0 := fun heq => h (heq ▸ hx)
    simpa using hne

@[simp] theorem cString_cString (s : Bytes) : s.cString.cString = s.cString := by
  rw [cString_eq_self_iff]
  intro hmem
  simpa using List.mem_takeWhile_imp hmem

/-- The strings that a string without null bytes is the C string of. -/
theorem cString_eq_iff (hp : p.cString = p) : q.cString = p ↔ q = p ∨ ∃ r, q = p ++ 0 :: r := by
  constructor
  · intro h
    have hsplit : q.cString ++ q.dropWhile (fun x => x ≠ 0) = q := List.takeWhile_append_dropWhile
    rw [h] at hsplit
    cases hrest : q.dropWhile (fun x => decide (x ≠ 0)) with
    | nil =>
      rw [hrest, List.append_nil] at hsplit
      exact Or.inl hsplit.symm
    | cons x r =>
      have hx : x = 0 := by
        have hhead := List.head?_dropWhile_not (fun x : UInt8 => decide (x ≠ 0)) q
        rw [hrest] at hhead
        simpa using hhead
      rw [hrest, hx] at hsplit
      exact Or.inr ⟨r, hsplit.symm⟩
  · rintro (rfl | ⟨r, rfl⟩)
    · exact hp
    · have hall : ∀ x ∈ p, decide (x ≠ 0) = true := by
        intro x hx
        have hne : x ≠ 0 := fun heq => cString_eq_self_iff.mp hp (heq ▸ hx)
        simpa using hne
      rw [Bytes.cString, List.takeWhile_append_of_pos hall]
      simp

/-! ## Registration -/

/-- A password that passes the checks has no null byte and at most 32 bytes. -/
theorem password_of_registerError (h : registerError account p = none) :
    p.cString = p ∧ p.length ≤ 32 := by
  unfold registerError at h
  split_ifs at h with h1 h2 h3 h4 h5 h6
  refine ⟨cString_eq_self_iff.mpr fun hmem => h6 ?_, by omega⟩
  exact List.any_eq_true.mpr ⟨0, hmem, by decide⟩

/-- The hash stored for an account belongs to its password. -/
theorem checkpw_stored (hb : b.Correct) {accepted executed : RegisterJob} {salt : Bytes}
    (haccepted : onRegisterRequest context account p = .inl (.register accepted))
    (hexecuted : accepted.executeBackgroundJob b salt = some executed) :
    p.cString = p ∧ ∀ s, b.checkpw s executed.hashedPassword.cString = 0 ↔ s = p := by
  unfold onRegisterRequest at haccepted
  split at haccepted
  · cases haccepted
  · rename_i herror
    obtain rfl : ⟨context, account, p, []⟩ = accepted := by simpa using haccepted
    obtain ⟨hp, hlength⟩ := password_of_registerError herror
    obtain ⟨hash, hhash, rfl⟩ := Option.map_eq_some_iff.mp hexecuted
    rw [hp] at hhash
    exact ⟨hp, hb p salt hash hp (by omega) hhash⟩

/-! ## Login -/

/-- What a login job of a registered account reports. -/
theorem isPasswordMatch_row (hb : b.Correct) {id : UInt64} {accepted executed : RegisterJob}
    {salt : Bytes} {context' : UInt32}
    (haccepted : onRegisterRequest context account p = .inl (.register accepted))
    (hexecuted : accepted.executeBackgroundJob b salt = some executed) :
    ((loginJobOf context' q (some (id, executed.hashedPassword.cString))).executeBackgroundJob
        b).isPasswordMatch = true ↔
      id ≠ LoginJob.invalidId ∧ (q = p ∨ ∃ r, q = p ++ 0 :: r) := by
  obtain ⟨hp, hcheck⟩ := checkpw_stored hb haccepted hexecuted
  rw [← cString_eq_iff hp, ← hcheck]
  simp [LoginJob.executeBackgroundJob, loginJobOf]

/-- A login job of an unknown account reports no match. -/
theorem isPasswordMatch_unknown (b : Bcrypt) (context : UInt32) (q : Bytes) :
    ((loginJobOf context q none).executeBackgroundJob b).isPasswordMatch = false := by
  simp [LoginJob.executeBackgroundJob, loginJobOf]

/-- **The password of a login.** The job that `OnLoginRequest` builds reports a match exactly for the
registered password, if and only if the id of the account is not `InvalidId` where the password is
right, and the password is not the right one followed by a null byte where the id is another. -/
theorem isPasswordMatch_iff (b : Bcrypt) (hb : b.Correct)
    (registered getAccountIdPasswordPair : Bytes → Option (UInt64 × Bytes))
    (hstored : ∀ account, Stored b account (registered account) (getAccountIdPasswordPair account))
    (a : A_Auth) (context : UInt32) (account q : Bytes) (job : LoginJob)
    (hjob : a.onLoginRequest getAccountIdPasswordPair context account q = .inl (.login job)) :
    ((job.executeBackgroundJob b).isPasswordMatch = true ↔ ∃ id, registered account = some (id, q)) ↔
      ∀ id p, registered account = some (id, p) →
        (q = p → id ≠ LoginJob.invalidId) ∧ (id ≠ LoginJob.invalidId → ∀ r, q ≠ p ++ 0 :: r) := by
  have hbuilt : loginJobOf context q (getAccountIdPasswordPair account) = job := by
    unfold onLoginRequest at hjob
    split_ifs at hjob
    simpa using hjob
  have hrow := hstored account
  rw [← hbuilt]
  generalize registered account = entry at hrow ⊢
  generalize getAccountIdPasswordPair account = found at hrow ⊢
  cases hrow with
  | absent => simp [isPasswordMatch_unknown]
  | row id p salt context' accepted executed haccepted hexecuted =>
    rw [isPasswordMatch_row hb haccepted hexecuted]
    have hne : ∀ r, p ≠ p ++ 0 :: r := by simp
    constructor
    · intro h id' p' heq
      obtain ⟨rfl, rfl⟩ := Prod.mk.inj (Option.some.inj heq)
      refine ⟨fun hq => (h.mpr ⟨id, by rw [hq]⟩).1, fun hid r hq => ?_⟩
      obtain ⟨id', heq⟩ := h.mp ⟨hid, Or.inr ⟨r, hq⟩⟩
      have hpq : p = q := (Prod.mk.inj (Option.some.inj heq)).2
      exact hne r (hpq.trans hq)
    · intro h
      obtain ⟨hid, hnull⟩ := h id p rfl
      constructor
      · rintro ⟨hvalid, rfl | ⟨r, hq⟩⟩
        · exact ⟨id, rfl⟩
        · exact absurd hq (hnull hvalid r)
      · rintro ⟨id', heq⟩
        have hpq : p = q := (Prod.mk.inj (Option.some.inj heq)).2
        exact ⟨hid hpq.symm, Or.inl hpq.symm⟩

/-! ## Examples -/

theorem plainBcrypt_correct : plainBcrypt.Correct := by
  intro s salt hash hs _ hhash p
  obtain rfl := Option.some.inj hhash
  rw [hs]
  simp [plainBcrypt]

/-- An account of six letters with a password of eight, under the given id. -/
def oneAccount (id : UInt64) (account : Bytes) : Option (UInt64 × Bytes) :=
  if account = List.replicate 6 97 then some (id, List.replicate 8 97) else none

theorem stored_oneAccount (id : UInt64) (account : Bytes) :
    Stored plainBcrypt account (oneAccount id account) (oneAccount id account) := by
  unfold oneAccount
  split_ifs with haccount
  · subst haccount
    exact .row id _ [] 1 ⟨1, List.replicate 6 97, List.replicate 8 97, []⟩
      ⟨1, List.replicate 6 97, List.replicate 8 97, List.replicate 8 97⟩ rfl rfl
  · exact .absent

/-- The login job of the account for the given password. -/
def oneLogin (id : UInt64) (q : Bytes) : LoginJob :=
  loginJobOf 1 q (some (id, List.replicate 8 97))

theorem isPasswordMatch_iff_oneAccount :
    (((oneLogin 7 (List.replicate 8 97)).executeBackgroundJob plainBcrypt).isPasswordMatch = true ↔
        ∃ id, oneAccount 7 (List.replicate 6 97) = some (id, List.replicate 8 97)) ↔
      ∀ id p, oneAccount 7 (List.replicate 6 97) = some (id, p) →
        (List.replicate 8 97 = p → id ≠ LoginJob.invalidId) ∧
          (id ≠ LoginJob.invalidId → ∀ r, List.replicate 8 97 ≠ p ++ 0 :: r) :=
  isPasswordMatch_iff plainBcrypt plainBcrypt_correct (oneAccount 7) (oneAccount 7)
    (stored_oneAccount 7) A_Auth.initial 1 (List.replicate 6 97) (List.replicate 8 97) _ rfl

/-- A password followed by a null byte is accepted, and the right password is not where the id of the
account is `InvalidId`. -/
theorem isPasswordMatch_wrong :
    (A_Auth.initial.onLoginRequest (oneAccount 7) 1 (List.replicate 6 97)
        (List.replicate 8 97 ++ [0, 98]) = .inl (.login (oneLogin 7 (List.replicate 8 97 ++ [0, 98]))) ∧
      ((oneLogin 7 (List.replicate 8 97 ++ [0, 98])).executeBackgroundJob
        plainBcrypt).isPasswordMatch = true ∧
      ¬ ∃ id, oneAccount 7 (List.replicate 6 97) = some (id, List.replicate 8 97 ++ [0, 98])) ∧
    A_Auth.initial.onLoginRequest (oneAccount LoginJob.invalidId) 1 (List.replicate 6 97)
        (List.replicate 8 97) = .inl (.login (oneLogin LoginJob.invalidId (List.replicate 8 97))) ∧
      ((oneLogin LoginJob.invalidId (List.replicate 8 97)).executeBackgroundJob
        plainBcrypt).isPasswordMatch = false ∧
      ∃ id, oneAccount LoginJob.invalidId (List.replicate 6 97) = some (id, List.replicate 8 97) := by
  refine ⟨⟨rfl, rfl, ?_⟩, rfl, rfl, _, rfl⟩
  rintro ⟨id, heq⟩
  have hlength := congrArg List.length (Prod.mk.inj (Option.some.inj heq)).2
  simp at hlength

end A_Auth

end RatkiniaServer
