import RatkiniaServer.SendRing
import RatkiniaServer.Proofs.SessionCalls

/-!
# The send TLS ring loses nothing

`TryProcessSendBuffers` writes behind the tail only, and always leaves one position free. So a ring with
content never looks empty, the slice of a send in flight stays as it was posted, and what is completed
and what the ring holds make up what has been filled in.
-/

namespace RatkiniaServer.Session

open Ring Transition

variable {τ : Type} {T : Tls τ} {cap : Nat} {s s' : Session τ}

/-! ## What is claimed -/

/-- What the ring holds. -/
def sendRingContent (cap : Nat) (s : Session τ) : Bytes :=
  content cap s.sendTlsBuffer s.sendTlsBufferHead (size cap s.sendTlsBufferHead s.sendTlsBufferTail)

/-- The ring position `p` is in use. -/
def InSendRing (cap : Nat) (s : Session τ) (p : Nat) : Prop :=
  ∃ k < size cap s.sendTlsBufferHead s.sendTlsBufferTail, p = (s.sendTlsBufferHead + k) % cap

/-- `TryProcessSendBuffers` returns, writes into the buffer and to no position in use, and keeps the
head. The tail stays where it is if the call fails, and does not make a ring with content look empty. -/
def FillsSafely (T : Tls τ) (cap : Nat) (s : Session τ) : Prop :=
  ∃ s' r, s.tryProcessSendBuffers T cap = .ok (s', r) ∧
    s'.sendTlsBuffer = applyWrites s.sendTlsBuffer (sendTlsWrites T cap s) ∧
    (∀ w ∈ sendTlsWrites T cap s, w.position + w.bytes.length ≤ cap ∧
      ∀ i < w.bytes.length, ¬ InSendRing cap s (w.position + i)) ∧
    s'.sendTlsBufferHead = s.sendTlsBufferHead ∧
    (r = .failed → s'.sendTlsBufferTail = s.sendTlsBufferTail) ∧
    (s.sendTlsBufferHead ≠ s.sendTlsBufferTail → s'.sendTlsBufferHead ≠ s'.sendTlsBufferTail)

/-- The slice of a send in flight starts at the head, lies in the buffer, is in use, and is what it was
when it was posted. -/
structure Intact (cap : Nat) (s : Session τ) (send : SendInFlight) : Prop where
  position_eq : send.posted.position = s.sendTlsBufferHead
  end_le : send.posted.position + send.posted.length ≤ cap
  inSendRing : ∀ i < send.posted.length, InSendRing cap s (send.posted.position + i)
  data_eq : slice s.sendTlsBuffer send.posted.position send.posted.length = send.data

/-! ## The writes of a call -/

theorem applyWrites_of_forall_ne {writes : List RingWrite} {buffer : Nat → UInt8} {p : Nat}
    (h : ∀ w ∈ writes, ∀ i < w.bytes.length, w.position + i ≠ p) :
    applyWrites buffer writes p = buffer p := by
  induction writes generalizing buffer with
  | nil => rfl
  | cons w writes ih =>
    have hw := h w (List.mem_cons_self ..)
    have hstep : write buffer w.position w.bytes p = buffer p := by
      by_cases hlt : p < w.position
      · exact write_of_lt hlt
      · refine write_of_le (Nat.not_lt.mp fun hp => hw (p - w.position) (by omega) (by omega))
    exact (ih fun w' hw' => h w' (List.mem_cons_of_mem _ hw')).trans hstep

/-- All writes are behind the content of the ring, of which `n` is the size. -/
theorem fillWrites_behind {loadedHead loadedTail n : Nat} (hh : loadedHead < cap) (fuel : Nat) (tls : τ)
    (totalEnqueued : Nat) (hn : size cap loadedHead ((loadedTail + totalEnqueued) % cap) = n) :
    ∀ w ∈ fillWrites T cap loadedHead loadedTail fuel tls totalEnqueued,
      w.position + w.bytes.length ≤ cap ∧
      ∀ i < w.bytes.length, ∃ j, n ≤ j ∧ j < cap ∧ w.position + i = (loadedHead + j) % cap := by
  induction fuel generalizing tls totalEnqueued n with
  | zero => simp [fillWrites]
  | succ fuel ih =>
    have hcap : 0 < cap := Nat.zero_lt_of_lt hh
    have ht : (loadedTail + totalEnqueued) % cap < cap := Nat.mod_lt _ hcap
    have hlt := size_lt hh ht
    have hadd := add_size hh ht
    rw [hn] at hlt hadd
    have hsize := hn
    unfold size at hsize
    rw [fillWrites]
    simp only [hsize]
    by_cases hpending : T.bioPending tls = 0
    · simp [if_pos hpending]
    rw [if_neg hpending]
    by_cases hfull : min (cap - n - 1) (cap - (loadedTail + totalEnqueued) % cap) = 0
    · rw [if_pos hfull]
      simp
    · rw [if_neg hfull]
      split
      · simp
      · rename_i tls' bs hbs _
        have hle := hbs.2
        rw [hsize] at hle
        have hroom : bs.length ≤ cap - n - 1 := Nat.le_trans hle (Nat.min_le_left ..)
        have hend : bs.length ≤ cap - (loadedTail + totalEnqueued) % cap :=
          Nat.le_trans hle (Nat.min_le_right ..)
        have hnext := size_extend (n := bs.length) hh ht (by omega)
        rw [Nat.mod_add_mod, Nat.add_assoc, hn] at hnext
        intro w hw
        rcases List.mem_cons.mp hw with rfl | hw
        · refine ⟨by dsimp only; omega, fun i hi => ⟨n + i, by omega, by dsimp only at hi; omega, ?_⟩⟩
          dsimp only at hi ⊢
          rw [← Nat.add_assoc, ← Nat.mod_add_mod (loadedHead + n), hadd]
          exact (Nat.mod_eq_of_lt (by omega)).symm
        · obtain ⟨hle', hj⟩ := ih tls' (totalEnqueued + bs.length) hnext w hw
          refine ⟨hle', fun i hi => ?_⟩
          obtain ⟨j, hnj, hjcap, heq⟩ := hj i hi
          exact ⟨j, by omega, hjcap, heq⟩

/-- The loop from `WriteBio` to the TLS ring changes the ring by its writes. -/
theorem fillLoop_writes {loadedHead loadedTail fuel totalEnqueued : Nat} {r : Option Nat}
    (h : fillLoop T cap loadedHead loadedTail fuel s totalEnqueued = .ok (s', r)) :
    s'.sendTlsBuffer =
      applyWrites s.sendTlsBuffer (fillWrites T cap loadedHead loadedTail fuel s.tls totalEnqueued) := by
  induction fuel generalizing s totalEnqueued with
  | zero => cases h
  | succ fuel ih =>
    rw [fillLoop] at h
    rw [fillWrites]
    by_cases hpending : T.bioPending s.tls = 0
    · rw [if_pos hpending] at h ⊢
      obtain ⟨rfl, -⟩ := Prod.mk.inj (Except.ok.inj h)
      rfl
    rw [if_neg hpending] at h ⊢
    simp only at h ⊢
    generalize (if loadedHead ≤ (loadedTail + totalEnqueued) % cap then
      (loadedTail + totalEnqueued) % cap - loadedHead
      else cap - loadedHead + (loadedTail + totalEnqueued) % cap) = n at h ⊢
    by_cases hfull : min (cap - n - 1) (cap - (loadedTail + totalEnqueued) % cap) = 0
    · rw [if_pos hfull] at h ⊢
      obtain ⟨rfl, -⟩ := Prod.mk.inj (Except.ok.inj h)
      rfl
    · rw [if_neg hfull] at h ⊢
      generalize T.bioRead s.tls (min (cap - n - 1) (cap - (loadedTail + totalEnqueued) % cap)) =
        result at h ⊢
      obtain ⟨tls', none | ⟨bs, _⟩⟩ := result
      · obtain ⟨rfl, -⟩ := Prod.mk.inj (Except.ok.inj h)
        rfl
      · exact ih h

/-! ## One call -/

/-- What a call does to a ring that holds `xs`: it takes `ys` from `WriteBio`, and appends them unless it
fails. -/
structure FillsRing (cap : Nat) (s s' : Session τ) (writes : List RingWrite) (xs ys : Bytes)
    (failed : Prop) : Prop where
  head_eq : s'.sendTlsBufferHead = s.sendTlsBufferHead
  log_eq : s'.log.fromWriteBio = s.log.fromWriteBio ++ ys
  buffer_eq : s'.sendTlsBuffer = applyWrites s.sendTlsBuffer writes
  tail_eq : failed → s'.sendTlsBufferTail = s.sendTlsBufferTail
  holds : ¬ failed →
    Holds cap s'.sendTlsBuffer s'.sendTlsBufferHead s'.sendTlsBufferTail (xs ++ ys)

theorem processSendTls_fills {xs : Bytes} (wantRead : Bool)
    (hring : Holds cap s.sendTlsBuffer s.sendTlsBufferHead s.sendTlsBufferTail xs) :
    ∃ s' r ys, s.processSendTls T cap wantRead = .ok (s', r) ∧
      FillsRing cap s s'
        (fillWrites T cap s.sendTlsBufferHead s.sendTlsBufferTail (cap + 1) s.tls 0) xs ys
        (r = .failed) := by
  have hmod : (s.sendTlsBufferTail + 0) % cap = s.sendTlsBufferTail :=
    Nat.mod_eq_of_lt hring.tail_lt
  obtain ⟨tls, tlsBuffer, ys, r, heq, hr⟩ := fillLoop_spec (T := T) (s := s)
    s.sendTlsBufferHead s.sendTlsBufferTail (cap + 1) 0 (by rw [hmod]; exact hring) (by omega)
  have hwrites := fillLoop_writes heq
  unfold processSendTls
  simp only [heq, bind, Except.bind]
  cases r with
  | none => exact ⟨_, .failed, ys, rfl, rfl, rfl, hwrites, fun _ => rfl, fun h => absurd rfl h⟩
  | some n =>
    obtain ⟨rfl, hholds⟩ := hr n rfl
    rw [Nat.zero_add] at hholds
    have hnot : (if wantRead = true then SendBuffersProcessResult.wantProcessReceiveBuffers
        else .success) ≠ .failed := by
      split <;> simp
    by_cases hpos : 0 < ys.length
    · simp only [Nat.zero_add, gt_iff_lt, if_pos hpos]
      exact ⟨_, _, ys, rfl, rfl, rfl, hwrites, fun h => absurd h hnot, fun _ => hholds⟩
    · have hnil : ys = [] := List.length_eq_zero_iff.mp (by omega)
      simp only [Nat.zero_add, gt_iff_lt, if_neg hpos]
      refine ⟨_, _, ys, rfl, rfl, rfl, hwrites, fun h => absurd h hnot, fun _ => ?_⟩
      rw [hnil, List.length_nil, hmod] at hholds
      rw [hnil]
      exact hholds

theorem tryProcessSendBuffers_fills {xs : Bytes}
    (hring : Holds cap s.sendTlsBuffer s.sendTlsBufferHead s.sendTlsBufferTail xs) :
    ∃ s' r ys, s.tryProcessSendBuffers T cap = .ok (s', r) ∧
      FillsRing cap s s' (sendTlsWrites T cap s) xs ys (r = .failed) := by
  obtain ⟨tls, rest, new, e, hwrite, -, -⟩ := writeLoop_spec (T := T) s.sendAppQueue s rfl
  rw [tryProcessSendBuffers, sendTlsWrites, hwrite]
  have hrest : ∀ wantRead, ∃ s' r ys, processSendTls T cap wantRead { s with
      tls := tls
      sendAppQueue := rest
      log := { s.log with sslWrites := s.log.sslWrites ++ new } } = .ok (s', r) ∧
      FillsRing cap s s' (fillWrites T cap s.sendTlsBufferHead s.sendTlsBufferTail (cap + 1) tls 0)
        xs ys (r = .failed) := fun wantRead => by
    obtain ⟨s', r, ys, heq, hfills⟩ := processSendTls_fills (T := T) (s := { s with
      tls := tls
      sendAppQueue := rest
      log := { s.log with sslWrites := s.log.sslWrites ++ new } }) wantRead hring
    exact ⟨s', r, ys, heq, hfills.head_eq, hfills.log_eq, hfills.buffer_eq, hfills.tail_eq,
      hfills.holds⟩
  cases e with
  | drained => exact hrest false
  | wantRead => exact hrest true
  | failed =>
    exact ⟨_, .failed, [], rfl, rfl, (List.append_nil _).symm, rfl, fun _ => rfl,
      fun h => absurd rfl h⟩

/-- The writes of a call are behind what the ring holds. -/
theorem sendTlsWrites_behind (hh : s.sendTlsBufferHead < cap) (ht : s.sendTlsBufferTail < cap) :
    ∀ w ∈ sendTlsWrites T cap s, w.position + w.bytes.length ≤ cap ∧
      ∀ i < w.bytes.length, ¬ InSendRing cap s (w.position + i) := by
  obtain ⟨tls, rest, new, e, hwrite, -, -⟩ := writeLoop_spec (T := T) s.sendAppQueue s rfl
  rw [sendTlsWrites, hwrite]
  have hfill : ∀ w ∈ fillWrites T cap s.sendTlsBufferHead s.sendTlsBufferTail (cap + 1) tls 0,
      w.position + w.bytes.length ≤ cap ∧
        ∀ i < w.bytes.length, ¬ InSendRing cap s (w.position + i) := by
    intro w hw
    obtain ⟨hle, hj⟩ := fillWrites_behind hh _ _ _
      (by rw [Nat.add_zero, Nat.mod_eq_of_lt ht]) w hw
    refine ⟨hle, fun i hi ⟨k, hk, heq⟩ => ?_⟩
    obtain ⟨j, hnj, hjcap, hpos⟩ := hj i hi
    rw [hpos, add_mod_eq hh (by omega), add_mod_eq hh (by omega)] at heq
    split_ifs at heq <;> omega
  cases e with
  | drained => exact hfill
  | wantRead => exact hfill
  | failed => simp

/-- Positions in use are not changed. -/
theorem FillsRing.buffer_of_inSendRing {xs ys : Bytes} {failed : Prop}
    (h : FillsRing cap s s' (sendTlsWrites T cap s) xs ys failed) (hh : s.sendTlsBufferHead < cap)
    (ht : s.sendTlsBufferTail < cap) {p : Nat} (hp : InSendRing cap s p) :
    s'.sendTlsBuffer p = s.sendTlsBuffer p := by
  rw [h.buffer_eq]
  refine applyWrites_of_forall_ne fun w hw i hi heq => ?_
  exact (sendTlsWrites_behind hh ht w hw).2 i hi (heq ▸ hp)

/-- A call that fails leaves what the ring holds. -/
theorem FillsRing.holds_of_failed {xs ys : Bytes} {failed : Prop}
    (h : FillsRing cap s s' (sendTlsWrites T cap s) xs ys failed)
    (hring : Holds cap s.sendTlsBuffer s.sendTlsBufferHead s.sendTlsBufferTail xs) (hfailed : failed) :
    Holds cap s'.sendTlsBuffer s'.sendTlsBufferHead s'.sendTlsBufferTail xs := by
  rw [h.head_eq, h.tail_eq hfailed]
  refine ⟨hring.head_lt, hring.tail_lt, ?_⟩
  rw [← hring.content_eq]
  refine List.map_congr_left fun k hk => ?_
  exact h.buffer_of_inSendRing hring.head_lt hring.tail_lt ⟨k, List.mem_range.mp hk, rfl⟩

/-- `TryProcessSendBuffers` on any ring. -/
theorem fillsSafely (T : Tls τ) (hh : s.sendTlsBufferHead < cap) (ht : s.sendTlsBufferTail < cap) :
    FillsSafely T cap s := by
  have hring : Holds cap s.sendTlsBuffer s.sendTlsBufferHead s.sendTlsBufferTail
      (sendRingContent cap s) := ⟨hh, ht, rfl⟩
  obtain ⟨s', r, ys, heq, h⟩ := tryProcessSendBuffers_fills (T := T) hring
  refine ⟨s', r, heq, h.buffer_eq, sendTlsWrites_behind hh ht, h.head_eq, h.tail_eq, fun hne => ?_⟩
  by_cases hfailed : r = .failed
  · rwa [h.head_eq, h.tail_eq hfailed]
  · have hcontent : sendRingContent cap s ≠ [] := fun hnil => hne (hring.eq_nil_iff.mp hnil)
    intro hempty
    exact hcontent (List.append_eq_nil_iff.mp ((h.holds hfailed).eq_nil_iff.mpr hempty)).1

/-! ## Runs -/

/-- The invariant, from a ring that held `start`. -/
structure Lossless (cap : Nat) (start : Bytes) (w : Transmitter τ) : Prop where
  head_lt : w.session.sendTlsBufferHead < cap
  tail_lt : w.session.sendTlsBufferTail < cap
  content_eq : w.completed ++ sendRingContent cap w.session = start ++ w.filled
  intact : ∀ send, w.inFlight = some send → Intact cap w.session send

theorem Lossless.ring {start : Bytes} {w : Transmitter τ} (h : Lossless cap start w) :
    Holds cap w.session.sendTlsBuffer w.session.sendTlsBufferHead w.session.sendTlsBufferTail
      (sendRingContent cap w.session) :=
  ⟨h.head_lt, h.tail_lt, rfl⟩

theorem Intact.withPending {send : SendInFlight} (h : Intact cap s send) (pending : Pending τ) :
    Intact cap (s.withPending pending) send :=
  ⟨h.position_eq, h.end_le, h.inSendRing, h.data_eq⟩

/-- A fill leaves a send in flight as it is. -/
theorem Intact.fill {xs ys : Bytes} {failed : Prop} {send : SendInFlight} (h : Intact cap s send)
    (hfills : FillsRing cap s s' (sendTlsWrites T cap s) xs ys failed)
    (hring : Holds cap s.sendTlsBuffer s.sendTlsBufferHead s.sendTlsBufferTail xs) :
    Intact cap s' send := by
  have hsize : size cap s.sendTlsBufferHead s.sendTlsBufferTail ≤
      size cap s'.sendTlsBufferHead s'.sendTlsBufferTail := by
    by_cases hfailed : failed
    · exact Nat.le_of_eq (by rw [hfills.head_eq, hfills.tail_eq hfailed])
    · rw [hring.size_eq, (hfills.holds hfailed).size_eq, List.length_append]
      exact Nat.le_add_right ..
  refine ⟨h.position_eq.trans hfills.head_eq.symm, h.end_le, fun i hi => ?_, ?_⟩
  · obtain ⟨k, hk, heq⟩ := h.inSendRing i hi
    exact ⟨k, Nat.lt_of_lt_of_le hk hsize, by rw [hfills.head_eq]; exact heq⟩
  · rw [← h.data_eq]
    refine List.map_congr_left fun i hi => ?_
    exact hfills.buffer_of_inSendRing hring.head_lt hring.tail_lt
      (h.inSendRing i (List.mem_range.mp hi))

/-- The slice that is posted. -/
theorem intact_sendSlice (hh : s.sendTlsBufferHead < cap) (ht : s.sendTlsBufferTail < cap) :
    Intact cap s ⟨s.sendSlice cap,
      slice s.sendTlsBuffer (s.sendSlice cap).position (s.sendSlice cap).length⟩ := by
  have hring : Holds cap s.sendTlsBuffer s.sendTlsBufferHead s.sendTlsBufferTail
      (sendRingContent cap s) := ⟨hh, ht, rfl⟩
  obtain ⟨hle, hend, -⟩ := hring.piece_le
  rw [← hring.size_eq] at hle
  have hmod : (s.sendSlice cap).length ≤ if s.sendTlsBufferHead ≤ s.sendTlsBufferTail then
      s.sendTlsBufferTail - s.sendTlsBufferHead else cap - s.sendTlsBufferHead := Nat.mod_le _ _
  refine ⟨rfl, Nat.le_trans (Nat.add_le_add_left hmod _) hend, fun i hi => ⟨i, ?_, ?_⟩, rfl⟩
  · exact Nat.lt_of_lt_of_le hi (Nat.le_trans hmod hle)
  · exact (Nat.mod_eq_of_lt (Nat.lt_of_lt_of_le (Nat.add_lt_add_left hi _)
      (Nat.le_trans (Nat.add_le_add_left hmod _) hend))).symm

/-- The slice is not longer than what the ring holds. -/
theorem Intact.length_le {send : SendInFlight} (h : Intact cap s send)
    (hh : s.sendTlsBufferHead < cap) (ht : s.sendTlsBufferTail < cap) :
    send.posted.length ≤ size cap s.sendTlsBufferHead s.sendTlsBufferTail := by
  by_contra hlt
  have hsize := size_lt hh ht
  have hend := h.end_le
  rw [h.position_eq] at hend
  obtain ⟨k, hk, heq⟩ := h.inSendRing (size cap s.sendTlsBufferHead s.sendTlsBufferTail) (by omega)
  rw [h.position_eq, Nat.mod_eq_of_lt (by omega)] at heq
  omega

/-- The slice is the front of what the ring holds. -/
theorem Intact.data_eq_take {send : SendInFlight} (h : Intact cap s send)
    (hh : s.sendTlsBufferHead < cap) (ht : s.sendTlsBufferTail < cap) :
    send.data = (sendRingContent cap s).take send.posted.length := by
  have hend := h.end_le
  rw [h.position_eq] at hend
  rw [← h.data_eq, h.position_eq, slice_eq_content hend, sendRingContent,
    take_content (h.length_le hh ht)]

/-- A call that fails leaves the invariant, and one that does not adds its bytes. -/
theorem Lossless.fill {start ys : Bytes} {failed : Prop} {w : Transmitter τ} {pending : Pending τ}
    (h : Lossless cap start w)
    (hfills : FillsRing cap (w.session.withPending pending) s'
      (sendTlsWrites T cap (w.session.withPending pending)) (sendRingContent cap w.session) ys failed)
    {filled : Bytes} (hfailed : failed → filled = w.filled) (hnot : ¬ failed → filled = w.filled ++ ys) :
    Lossless cap start { w with session := s', filled := filled } := by
  have hring : Holds cap (w.session.withPending pending).sendTlsBuffer _ _
      (sendRingContent cap w.session) := h.ring
  have hintact : ∀ send, w.inFlight = some send → Intact cap s' send := fun send hsend =>
    ((h.intact send hsend).withPending pending).fill hfills hring
  by_cases hf : failed
  · have hholds := hfills.holds_of_failed hring hf
    refine ⟨hholds.head_lt, hholds.tail_lt, ?_, hintact⟩
    rw [hfailed hf, ← h.content_eq]
    exact congrArg (w.completed ++ ·) hholds.content_eq
  · have hholds := hfills.holds hf
    refine ⟨hholds.head_lt, hholds.tail_lt, ?_, hintact⟩
    rw [hnot hf, ← List.append_assoc, ← h.content_eq, List.append_assoc]
    exact congrArg (w.completed ++ ·) hholds.content_eq

/-- A completion moves a front part of what the ring holds to what is completed. -/
theorem Lossless.tryPostSend {start : Bytes} {w : Transmitter τ} {send : SendInFlight}
    {bytesTransferred : Nat} (h : Lossless cap start w) (hsend : w.inFlight = some send)
    (hle : bytesTransferred ≤ send.posted.length) :
    Lossless cap start { w with
      session := w.session.tryPostSend cap bytesTransferred
      inFlight := none
      completed := w.completed ++ send.data.take bytesTransferred } := by
  have hintact := h.intact send hsend
  have hlength := hintact.length_le h.head_lt h.tail_lt
  have hdata : send.data.take bytesTransferred =
      (sendRingContent cap w.session).take bytesTransferred := by
    rw [hintact.data_eq_take h.head_lt h.tail_lt, List.take_take, Nat.min_eq_left hle]
  have hdrop := h.ring.dequeue (m := bytesTransferred) (by
    rw [← h.ring.size_eq]
    exact Nat.le_trans hle hlength)
  refine ⟨hdrop.head_lt, hdrop.tail_lt, ?_, fun _ hnone => by cases hnone⟩
  rw [← h.content_eq, hdata, List.append_assoc]
  refine congrArg (w.completed ++ ·) (Eq.trans ?_ (List.take_append_drop bytesTransferred _))
  exact congrArg (List.take bytesTransferred (sendRingContent cap w.session) ++ ·) hdrop.content_eq

/-- Every step keeps the invariant. -/
theorem lossless_step {start : Bytes} {w w' : Transmitter τ} {op : SendRingOp τ}
    (h : Lossless cap start w) (hstep : sendRingStep T cap w op = some w') : Lossless cap start w' := by
  cases op with
  | tryProcessSendBuffers pending =>
    obtain ⟨s', r, ys, heq, hfills⟩ := tryProcessSendBuffers_fills (T := T)
      (s := w.session.withPending pending) h.ring
    have htaken : takenSince w.session s' = ys := by
      rw [takenSince, hfills.log_eq]
      exact List.drop_left
    simp only [sendRingStep, heq] at hstep
    cases r with
    | success =>
      obtain rfl := Option.some.inj hstep
      exact h.fill hfills (fun hf => by cases hf) fun _ => by rw [htaken]
    | wantProcessReceiveBuffers =>
      obtain rfl := Option.some.inj hstep
      exact h.fill hfills (fun hf => by cases hf) fun _ => by rw [htaken]
    | failed =>
      obtain rfl := Option.some.inj hstep
      exact h.fill hfills (fun _ => rfl) fun hf => absurd rfl hf
  | post =>
    simp only [sendRingStep] at hstep
    split at hstep
    · obtain rfl := Option.some.inj hstep
      refine ⟨h.head_lt, h.tail_lt, h.content_eq, fun send hsend => ?_⟩
      obtain rfl := Option.some.inj hsend
      obtain ⟨hposition, hend, hin, hdata⟩ := intact_sendSlice h.head_lt h.tail_lt
      exact ⟨hposition, hend, hin, hdata⟩
    · cases hstep
  | tryPostSend bytesTransferred =>
    simp only [sendRingStep] at hstep
    split at hstep
    · cases hstep
    · rename_i send hsend
      split_ifs at hstep with hle
      obtain rfl := Option.some.inj hstep
      exact h.tryPostSend hsend hle

/-- **The send ring.** From any ring, in every sequence of calls: every fill is safe, the slice of a send
in flight is intact, and what is completed and what the ring holds are what it held at the start and
what has been filled in. -/
theorem sendRing_lossless (T : Tls τ) (cap : Nat) (s : Session τ) (hh : s.sendTlsBufferHead < cap)
    (ht : s.sendTlsBufferTail < cap) (ops : List (SendRingOp τ)) (w : Transmitter τ)
    (hrun : run (sendRingStep T cap) ⟨s, none, [], []⟩ ops = some w) :
    (∀ pending, FillsSafely T cap (w.session.withPending pending)) ∧
      (∀ send, w.inFlight = some send → Intact cap w.session send) ∧
      w.completed ++ sendRingContent cap w.session = sendRingContent cap s ++ w.filled := by
  have h : Lossless cap (sendRingContent cap s) w :=
    run_invariant' (P := Lossless cap (sendRingContent cap s)) (fun _ _ _ => lossless_step)
      ⟨hh, ht, by simp, fun _ hnone => by cases hnone⟩ hrun
  exact ⟨fun pending => fillsSafely T h.head_lt h.tail_lt, h.intact, h.content_eq⟩

/-- An OpenSSL that does not encrypt: its state is what `WriteBio` holds. -/
def unencryptedTls : Tls Bytes where
  sslRead t _ := (t, .wantRead)
  sslWrite t message := (t ++ message, .success)
  bioWrite t _ := t
  bioPending t := t.length
  bioRead t n :=
    if h : 0 < (t.take n).length then
      (t.drop n, some ⟨t.take n, h, by rw [List.length_take]; exact Nat.min_le_left ..⟩)
    else (t, none)

/-- A ring of eight bytes that holds 5 and 6 around its end. -/
def aroundTheEnd : Session Bytes :=
  { fresh [] (fun i => if i = 7 then 5 else 6) with
    sendTlsBufferHead := 7
    sendTlsBufferTail := 1 }

/-- A fill while a send is in flight, and the completion of a part of the slice. -/
def sendAndFill : List (SendRingOp Bytes) :=
  [.post, .tryProcessSendBuffers ⟨[], [[1, 2], [3]]⟩, .tryPostSend 1]

theorem sendRing_lossless_aroundTheEnd : ∃ w,
    run (sendRingStep unencryptedTls 8) ⟨aroundTheEnd, none, [], []⟩ sendAndFill = some w ∧
      w.completed ++ sendRingContent 8 w.session = sendRingContent 8 aroundTheEnd ++ w.filled := by
  have hsome : (run (sendRingStep unencryptedTls 8) ⟨aroundTheEnd, none, [], []⟩ sendAndFill).isSome = true :=
    rfl
  obtain ⟨w, hw⟩ := Option.isSome_iff_exists.mp hsome
  exact ⟨w, hw, (sendRing_lossless unencryptedTls 8 aroundTheEnd (by decide) (by decide) _ w hw).2.2⟩

end RatkiniaServer.Session
