import RatkiniaServer.SessionRuns
import RatkiniaServer.Proofs.SessionCalls

/-!
# The ring of received TLS bytes

`TryReceiveAsync` posts everything from the tail to the end of the ring, while an equal head and tail
mean an empty ring. A completion that fills the whole ring from position 0 on therefore looks like no
completion at all; with any other one, every byte received reaches `ReadBio`.
-/

namespace RatkiniaServer.Session

open Ring Transition

variable {τ : Type} {T : Tls τ} {cap : Nat} {s : Session τ}

/-- Every byte received has been written to `ReadBio`, in order; the ring positions are in range; and
what would be posted next does not overlap the bytes that the ring holds. -/
structure Delivered (cap : Nat) (r : Receiver τ) : Prop where
  /-- The process is alive. -/
  not_aborted : r.aborted = false
  /-- The bytes. -/
  toReadBio_eq : r.session.log.toReadBio = r.received
  /-- The head is in range. -/
  head_lt : r.session.receiveTlsBufferHead < cap
  /-- The tail is in range. -/
  tail_lt : r.session.receiveTlsBufferTail < cap
  /-- The posted range. -/
  posted_disjoint : ∀ posted, (r.session.tryReceiveAsync cap true).2 = some posted →
    ∀ i < size cap r.session.receiveTlsBufferHead r.session.receiveTlsBufferTail,
      ¬ (posted.position ≤ (r.session.receiveTlsBufferHead + i) % cap ∧
        (r.session.receiveTlsBufferHead + i) % cap < posted.position + posted.length)

/-- The condition on a round that completes: it does not fill the whole ring, and `BIO_write` can
take its bytes in an `int`. -/
def FitsRing (cap : Nat) (r : Receiver τ) (round : Round) : Prop :=
  ∀ posted, (r.session.tryReceiveAsync cap true).2 = some posted →
    round.bytes.length ≤ posted.length → round.bytes.length < cap ∧ round.bytes.length < 2 ^ 31

/-- Between rounds the TLS ring is empty, and no receive is in flight. -/
structure Idle (cap : Nat) (r : Receiver τ) : Prop where
  /-- The ring positions are in range. -/
  inBounds : InBounds cap r.session
  /-- The TLS ring is empty. -/
  empty : r.session.receiveTlsBufferHead = r.session.receiveTlsBufferTail
  /-- No receive is in flight. -/
  offline : r.session.isReceiveOnline = false
  /-- The session is not closing. -/
  open_ : r.session.shouldClose = false

/-! ## One round -/

/-- The bytes `xs` of the TLS ring have gone to `ReadBio`. -/
structure Drains (cap : Nat) (s s' : Session τ) (xs : Bytes) : Prop where
  inBounds : InBounds cap s'
  flags_eq : s'.flags = s.flags
  head_eq : s'.receiveTlsBufferHead = s.receiveTlsBufferTail
  tail_eq : s'.receiveTlsBufferTail = s.receiveTlsBufferTail
  toReadBio_eq : s'.log.toReadBio = s.log.toReadBio ++ xs

/-- One iteration of the loop of `TryPostReceive` drains the TLS ring, and the loop returns or goes
on. -/
theorem postReceiveLoop_succ {xs : Bytes} (hb : InBounds cap s)
    (htls : Holds cap s.receiveTlsBuffer s.receiveTlsBufferHead s.receiveTlsBufferTail xs)
    (hlen : xs.length < 2 ^ 31) (fuel : Nat) :
    ∃ s', Drains cap s s' xs ∧ ((∃ v, postReceiveLoop T cap (fuel + 1) s = .ok (s', some v)) ∨
      postReceiveLoop T cap (fuel + 1) s = postReceiveLoop T cap fuel s') := by
  obtain ⟨s1, r, ys, h1, hb1, -, hflags1, -, hhead1, htail1, hlog1, -⟩ :=
    tryProcessReceiveBuffers_spec (T := T) hb htls hlen ⟨hb.receiveAppHead, hb.receiveAppTail, rfl⟩
  have hdrain : Drains cap s s1 xs := ⟨hb1, hflags1, hhead1, htail1, hlog1⟩
  simp only [postReceiveLoop, h1, bind, Except.bind]
  cases r with
  | success => exact ⟨s1, hdrain, Or.inl ⟨true, rfl⟩⟩
  | failed => exact ⟨s1, hdrain, Or.inl ⟨false, rfl⟩⟩
  | wantProcessSendBuffers =>
    obtain ⟨s2, r, new, h2, hb2, hside, hflags2, -, -, -⟩ :=
      tryProcessSendBuffers_spec (T := T) hb1
    have hdrain' : Drains cap s s2 xs := ⟨hb2, hflags2.trans hflags1,
      (congrArg ReceiveSide.tlsHead hside).trans hhead1,
      (congrArg ReceiveSide.tlsTail hside).trans htail1,
      (congrArg ReceiveSide.toReadBio hside).trans hlog1⟩
    simp only [h2]
    cases r with
    | success => exact ⟨s2, hdrain', Or.inr rfl⟩
    | wantProcessReceiveBuffers => exact ⟨s2, hdrain', Or.inl ⟨true, rfl⟩⟩
    | failed => exact ⟨s2, hdrain', Or.inl ⟨false, rfl⟩⟩

/-- Once the TLS ring is empty the loop of `TryPostReceive` leaves it empty. -/
theorem postReceiveLoop_empty (hb : InBounds cap s)
    (hempty : s.receiveTlsBufferHead = s.receiveTlsBufferTail) (fuel : Nat) :
    ∃ s' v, postReceiveLoop T cap fuel s = .ok (s', v) ∧ Drains cap s s' [] := by
  induction fuel generalizing s with
  | zero => exact ⟨s, none, rfl, hb, rfl, hempty, rfl, by rw [List.append_nil]⟩
  | succ fuel ih =>
    have htls : Holds cap s.receiveTlsBuffer s.receiveTlsBufferHead s.receiveTlsBufferTail [] := by
      rw [hempty]
      exact holds_empty hb.receiveTlsTail
    obtain ⟨s1, h1, ⟨v, heq⟩ | heq⟩ := postReceiveLoop_succ (T := T) hb htls (by simp) fuel
    · exact ⟨s1, _, heq, h1⟩
    · obtain ⟨s2, v, heq2, h2⟩ := ih h1.inBounds (h1.head_eq.trans h1.tail_eq.symm)
      exact ⟨s2, v, heq.trans heq2, h2.inBounds, h2.flags_eq.trans h1.flags_eq,
        h2.head_eq.trans h1.tail_eq, h2.tail_eq.trans h1.tail_eq, by
          rw [h2.toReadBio_eq, h1.toReadBio_eq, List.append_nil]⟩

/-- `TryPostReceive` copies what the TLS ring holds to `ReadBio`, however its loop goes on. -/
theorem postReceiveLoop_spec {xs : Bytes} (hb : InBounds cap s)
    (htls : Holds cap s.receiveTlsBuffer s.receiveTlsBufferHead s.receiveTlsBufferTail xs)
    (hlen : xs.length < 2 ^ 31) (fuel : Nat) :
    ∃ s' v, postReceiveLoop T cap (fuel + 1) s = .ok (s', v) ∧ Drains cap s s' xs := by
  obtain ⟨s1, h1, ⟨v, heq⟩ | heq⟩ := postReceiveLoop_succ (T := T) hb htls hlen fuel
  · exact ⟨s1, _, heq, h1⟩
  · obtain ⟨s2, v, heq2, h2⟩ := postReceiveLoop_empty (T := T) h1.inBounds
      (h1.head_eq.trans h1.tail_eq.symm) fuel
    exact ⟨s2, v, heq.trans heq2, h2.inBounds, h2.flags_eq.trans h1.flags_eq,
      h2.head_eq.trans h1.tail_eq, h2.tail_eq.trans h1.tail_eq, by
        rw [h2.toReadBio_eq, h1.toReadBio_eq, List.append_nil]⟩

/-- `TryReceiveAsync` on an idle session posts the range from the tail to the end of the ring. -/
theorem tryReceiveAsync_idle {r : Receiver τ} (hidle : Idle cap r) {accepted : Bool} {s' : Session τ}
    {posted : Posted} (h : r.session.tryReceiveAsync cap accepted = (s', some posted)) :
    s' = { r.session with isReceiveOnline := true } ∧
      posted = ⟨r.session.receiveTlsBufferTail,
        (cap - r.session.receiveTlsBufferTail) % 2 ^ 32⟩ := by
  have hflags : ¬ (r.session.isReceiveOnline || r.session.shouldClose) = true := by
    simp [hidle.offline, hidle.open_]
  simp only [tryReceiveAsync] at h
  rw [if_neg hflags] at h
  split_ifs at h with hfull haccepted
  · cases (Prod.mk.inj h).2
  · obtain ⟨hs, hposted⟩ := Prod.mk.inj h
    exact ⟨hs.symm, (Option.some.inj hposted).symm⟩
  · cases (Prod.mk.inj h).2

/-- The session when the loop of `TryPostReceive` starts on the bytes of a round. -/
def arrived (cap : Nat) (s : Session τ) (bytes : Bytes) : Session τ :=
  { s with
    receiveTlsBuffer := write s.receiveTlsBuffer s.receiveTlsBufferTail bytes
    isReceiveOnline := false
    receiveTlsBufferTail := (s.receiveTlsBufferTail + bytes.length) % cap }

/-- A round puts its bytes behind the tail, within the range posted, and runs the loop of
`TryPostReceive`. -/
theorem receiveStep_cases {r r' : Receiver τ} {round : Round} (hidle : Idle cap r)
    (hstep : receiveStep T cap r round = some r') :
    0 < round.bytes.length ∧ r.session.receiveTlsBufferTail + round.bytes.length ≤ cap ∧
    (∃ posted, (r.session.tryReceiveAsync cap true).2 = some posted ∧
      round.bytes.length ≤ posted.length) ∧
    ((∃ s' v, postReceiveLoop T cap (round.fuel + 1) (arrived cap r.session round.bytes) =
        .ok (s', v) ∧ r' = ⟨s', r.received ++ round.bytes, false⟩) ∨
      ∃ e, postReceiveLoop T cap (round.fuel + 1) (arrived cap r.session round.bytes) = .error e ∧
        r'.aborted = true) := by
  have ht := hidle.inBounds.receiveTlsTail
  unfold receiveStep at hstep
  split at hstep
  · cases hstep
  split at hstep
  · cases hstep
  · rename_i s posted hposted
    split_ifs at hstep with hlen
    have hrange : ∃ posted, (r.session.tryReceiveAsync cap true).2 = some posted ∧
        round.bytes.length ≤ posted.length := ⟨posted, by rw [hposted], hlen.2⟩
    obtain ⟨rfl, rfl⟩ := tryReceiveAsync_idle hidle hposted
    have hle : round.bytes.length ≤ cap - r.session.receiveTlsBufferTail :=
      Nat.le_trans hlen.2 (Nat.mod_le _ _)
    refine ⟨hlen.1, by omega, hrange, ?_⟩
    split at hstep
    · rename_i s' v hcall
      exact Or.inl ⟨s', v, hcall, (Option.some.inj hstep).symm⟩
    · rename_i e hcall
      exact Or.inr ⟨e, hcall, by rw [← Option.some.inj hstep]⟩

/-- A round that cannot complete meets the condition. -/
theorem fitsRing_of_disabled {r : Receiver τ} {round : Round} (hdel : Delivered cap r)
    (hstep : receiveStep T cap r round = none) : FitsRing cap r round := by
  intro posted hposted hlen
  have hlt := hdel.head_lt
  by_cases hpos : 0 < round.bytes.length
  · exfalso
    unfold receiveStep at hstep
    rw [hdel.not_aborted] at hstep
    cases hcall : r.session.tryReceiveAsync cap true with
    | mk s posted' =>
      obtain rfl : posted' = some posted := by rw [← hposted, hcall]
      simp only [hcall, Bool.false_eq_true, if_false] at hstep
      rw [if_pos ⟨hpos, hlen⟩] at hstep
      split at hstep <;> cases hstep
  · exact ⟨by omega, by omega⟩

/-- The ring after a completion that does not fill it. -/
theorem holds_arrived {bytes : Bytes} (hempty : s.receiveTlsBufferHead = s.receiveTlsBufferTail)
    (ht : s.receiveTlsBufferTail < cap) (hend : s.receiveTlsBufferTail + bytes.length ≤ cap)
    (hlt : bytes.length < cap) :
    Holds cap (arrived cap s bytes).receiveTlsBuffer (arrived cap s bytes).receiveTlsBufferHead
      (arrived cap s bytes).receiveTlsBufferTail bytes := by
  have hnil : Holds cap s.receiveTlsBuffer s.receiveTlsBufferHead s.receiveTlsBufferTail [] := by
    rw [hempty]
    exact holds_empty ht
  have hbytes := hnil.enqueue bytes (by simpa using hlt) hend
  rwa [List.nil_append] at hbytes

theorem inBounds_arrived {bytes : Bytes} (hb : InBounds cap s) :
    InBounds cap (arrived cap s bytes) :=
  ⟨hb.receiveTlsHead, Nat.mod_lt _ (Nat.lt_of_le_of_lt (Nat.zero_le _) hb.receiveTlsTail),
    hb.receiveAppHead, hb.receiveAppTail, hb.sendTlsHead, hb.sendTlsTail⟩

/-- A session whose TLS ring is empty posts a range that overlaps no unread byte. -/
theorem delivered_of_empty {r : Receiver τ} (hb : InBounds cap r.session)
    (hempty : r.session.receiveTlsBufferHead = r.session.receiveTlsBufferTail)
    (halive : r.aborted = false) (hbytes : r.session.log.toReadBio = r.received) :
    Delivered cap r := by
  refine ⟨halive, hbytes, hb.receiveTlsHead, hb.receiveTlsTail, fun posted _ i hi => ?_⟩
  rw [hempty, size_self] at hi
  omega

/-- A round that fits keeps the receiver idle and delivers its bytes. -/
theorem receiveStep_of_fits {r r' : Receiver τ} {round : Round} (hidle : Idle cap r)
    (hdel : Delivered cap r) (hfits : FitsRing cap r round)
    (hstep : receiveStep T cap r round = some r') : Idle cap r' ∧ Delivered cap r' := by
  obtain ⟨-, hend, ⟨posted, hposted, hlen⟩, hcases⟩ := receiveStep_cases hidle hstep
  obtain ⟨hroom, hint⟩ := hfits posted hposted hlen
  obtain ⟨s', v, hcall, hdrain⟩ := postReceiveLoop_spec (T := T) (inBounds_arrived hidle.inBounds)
    (holds_arrived hidle.empty hidle.inBounds.receiveTlsTail hend hroom) hint round.fuel
  rcases hcases with ⟨s2, v2, hcall2, rfl⟩ | ⟨e, hcall2, -⟩
  · obtain ⟨rfl, -⟩ := Prod.mk.inj (Except.ok.inj (hcall.symm.trans hcall2))
    have hempty := hdrain.head_eq.trans hdrain.tail_eq.symm
    have hflags : s'.flags = (r.session.isSendOnline, false, r.session.shouldClose) :=
      hdrain.flags_eq
    refine ⟨⟨hdrain.inBounds, hempty, congrArg (fun f => f.2.1) hflags,
      (congrArg (fun f => f.2.2) hflags).trans hidle.open_⟩,
      delivered_of_empty hdrain.inBounds hempty rfl ?_⟩
    rw [hdrain.toReadBio_eq, ← hdel.toReadBio_eq]
    rfl
  · rw [hcall] at hcall2
    cases hcall2

/-- A round that does not fit loses bytes or aborts. -/
theorem receiveStep_of_not_fits {r r' : Receiver τ} {round : Round} (hidle : Idle cap r)
    (hdel : Delivered cap r) (hfits : ¬ FitsRing cap r round)
    (hstep : receiveStep T cap r round = some r') : ¬ Delivered cap r' := by
  intro hdel'
  obtain ⟨hpos, hend, -, hcases⟩ := receiveStep_cases hidle hstep
  have ht := hidle.inBounds.receiveTlsTail
  have hhead : (arrived cap r.session round.bytes).receiveTlsBufferHead =
      r.session.receiveTlsBufferTail := hidle.empty
  have htail : (arrived cap r.session round.bytes).receiveTlsBufferTail =
      (r.session.receiveTlsBufferTail + round.bytes.length) % cap := rfl
  by_cases hfull : round.bytes.length < cap
  · -- A large piece aborts.
    have hlarge : 2 ^ 31 ≤ round.bytes.length := by
      by_contra hlt
      exact hfits fun _ _ _ => ⟨hfull, by omega⟩
    have hcrash : postReceiveLoop T cap (round.fuel + 1) (arrived cap r.session round.bytes) =
        .error .crash := by
      rw [postReceiveLoop, tryProcessReceiveBuffers, processReceiveTls_crash]
      · rfl
      · rw [hhead]
        exact ht
      · rw [hhead, htail, add_mod_eq ht (by omega)]
        split_ifs <;> omega
    rcases hcases with ⟨s', v, hcall, -⟩ | ⟨e, -, haborted⟩
    · rw [hcrash] at hcall
      cases hcall
    · rw [hdel'.not_aborted] at haborted
      cases haborted
  · -- A completion of the whole ring leaves head and tail equal, and nothing is copied.
    have hzero : r.session.receiveTlsBufferTail = 0 := by omega
    have hsame : (arrived cap r.session round.bytes).receiveTlsBufferHead =
        (arrived cap r.session round.bytes).receiveTlsBufferTail := by
      rw [hhead, htail, hzero, show 0 + round.bytes.length = cap by omega, Nat.mod_self]
    obtain ⟨s', v, hcall, hdrain⟩ := postReceiveLoop_empty (T := T)
      (inBounds_arrived hidle.inBounds) hsame (round.fuel + 1)
    rcases hcases with ⟨s2, v2, hcall2, rfl⟩ | ⟨e, hcall2, -⟩
    · obtain ⟨rfl, -⟩ := Prod.mk.inj (Except.ok.inj (hcall.symm.trans hcall2))
      have hbytes := congrArg List.length hdel'.toReadBio_eq
      have hold : s'.log.toReadBio = r.session.log.toReadBio := by
        rw [hdrain.toReadBio_eq, List.append_nil]
        rfl
      simp only [hold, hdel.toReadBio_eq, List.length_append] at hbytes
      omega
    · rw [hcall] at hcall2
      cases hcall2

/-! ## Runs -/

/-- **The receive ring.** From an empty ring at any position, every byte received reaches `ReadBio`
throughout a run of rounds exactly if no completion fills the whole ring or exceeds an `int`. -/
theorem delivered_always_iff (T : Tls τ) (cap : Nat) (s : Session τ) (hb : InBounds cap s)
    (hempty : s.receiveTlsBufferHead = s.receiveTlsBufferTail) (hoffline : s.isReceiveOnline = false)
    (hopen : s.shouldClose = false) (rounds : List Round) :
    Always (receiveStep T cap) (Delivered cap) ⟨s, s.log.toReadBio, false⟩ rounds ↔
      Meets (receiveStep T cap) (FitsRing cap) ⟨s, s.log.toReadBio, false⟩ rounds := by
  have hidle : Idle cap (⟨s, s.log.toReadBio, false⟩ : Receiver τ) := ⟨hb, hempty, hoffline, hopen⟩
  have hdel : Delivered cap (⟨s, s.log.toReadBio, false⟩ : Receiver τ) :=
    delivered_of_empty hb hempty rfl rfl
  refine always_iff_meets (I := Idle cap) (P := Delivered cap) ?_ ?_
    (fun r round _ hdel hnone => fitsRing_of_disabled hdel hnone) hidle hdel rounds
  · intro r round r' hidle hdel hstep hdel'
    by_cases hfits : FitsRing cap r round
    · exact (receiveStep_of_fits hidle hdel hfits hstep).1
    · exact absurd hdel' (receiveStep_of_not_fits hidle hdel hfits hstep)
  · intro r round r' hidle hdel hstep
    constructor
    · intro hdel'
      by_contra hfits
      exact receiveStep_of_not_fits hidle hdel hfits hstep hdel'
    · intro hfits
      exact (receiveStep_of_fits hidle hdel hfits hstep).2

/-- An OpenSSL that never has anything to read or to write. -/
def silentTls : Tls Unit where
  sslRead _ _ := ((), .wantRead)
  sslWrite _ _ := ((), .success)
  bioWrite _ _ := ()
  bioPending _ := 0
  bioRead _ _ := ((), none)

theorem delivered_always_iff_silentTls :
    Always (receiveStep silentTls 8) (Delivered 8) ⟨fresh () fun _ => 0, [], false⟩
        [⟨[1, 2, 3], 0⟩, ⟨[4, 5, 6, 7, 8], 0⟩] ↔
      Meets (receiveStep silentTls 8) (FitsRing 8) ⟨fresh () fun _ => 0, [], false⟩
        [⟨[1, 2, 3], 0⟩, ⟨[4, 5, 6, 7, 8], 0⟩] :=
  delivered_always_iff silentTls 8 (fresh () fun _ => 0) (inBounds_fresh _ _ (by decide)) rfl rfl rfl _

/-- A completion that fills the whole ring of a new session leaves nothing in `ReadBio`. -/
theorem full_completion_is_lost : ∃ r,
    receiveStep silentTls 8 ⟨fresh () fun _ => 0, [], false⟩ ⟨[1, 2, 3, 4, 5, 6, 7, 8], 0⟩ = some r ∧
      r.received = [1, 2, 3, 4, 5, 6, 7, 8] ∧ r.session.log.toReadBio = [] :=
  ⟨_, rfl, rfl, rfl⟩

end RatkiniaServer.Session
