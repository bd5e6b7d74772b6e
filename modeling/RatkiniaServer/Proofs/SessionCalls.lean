import RatkiniaServer.Session

/-!
# The calls of `Session`

One specification for each loop and call of a `Session`: it ends without running out of fuel, what
it does to its own side of the session, and that it leaves the other side alone.
-/

namespace RatkiniaServer.Session

open Ring

variable {τ : Type} {T : Tls τ} {cap : Nat} {s s' : Session τ}

/-! ## The two sides of a session -/

/-- The fields of the receiving side. -/
structure ReceiveSide where
  tlsBuffer : Nat → UInt8
  tlsHead : Nat
  tlsTail : Nat
  appBuffer : Nat → UInt8
  appHead : Nat
  appTail : Nat
  toReadBio : Bytes
  decrypted : Bytes

/-- The receiving side of a session. -/
def receiveSide (s : Session τ) : ReceiveSide :=
  ⟨s.receiveTlsBuffer, s.receiveTlsBufferHead, s.receiveTlsBufferTail, s.receiveAppBuffer,
    s.receiveAppBufferHead, s.receiveAppBufferTail, s.log.toReadBio, s.log.decrypted⟩

/-- The fields of the sending side. -/
structure SendSide where
  tlsBuffer : Nat → UInt8
  tlsHead : Nat
  tlsTail : Nat
  appQueue : List Bytes
  sslWrites : List (Bytes × WriteResult)
  fromWriteBio : Bytes

/-- The sending side of a session. -/
def sendSide (s : Session τ) : SendSide :=
  ⟨s.sendTlsBuffer, s.sendTlsBufferHead, s.sendTlsBufferTail, s.sendAppQueue, s.log.sslWrites,
    s.log.fromWriteBio⟩

/-- The flags of a session: sending, receiving, closing. -/
def flags (s : Session τ) : Bool × Bool × Bool := (s.isSendOnline, s.isReceiveOnline, s.shouldClose)

/-- The ring positions of a session are positions of the rings. -/
structure InBounds (cap : Nat) (s : Session τ) : Prop where
  receiveTlsHead : s.receiveTlsBufferHead < cap
  receiveTlsTail : s.receiveTlsBufferTail < cap
  receiveAppHead : s.receiveAppBufferHead < cap
  receiveAppTail : s.receiveAppBufferTail < cap
  sendTlsHead : s.sendTlsBufferHead < cap
  sendTlsTail : s.sendTlsBufferTail < cap

theorem inBounds_fresh (tls : τ) (buffer : Nat → UInt8) (hcap : 0 < cap) :
    InBounds cap (fresh tls buffer) := ⟨hcap, hcap, hcap, hcap, hcap, hcap⟩

/-! ## `TryProcessReceiveBuffers` -/

/-- The loop copies what the TLS ring holds to `ReadBio`. -/
theorem decryptLoop_spec {loadedTail : Nat} {xs : Bytes} (loadedHead fuel totalDecrypted : Nat)
    (hring : Holds cap s.receiveTlsBuffer ((loadedHead + totalDecrypted) % cap) loadedTail xs)
    (hlen : xs.length < 2 ^ 31) (hfuel : xs.length < fuel) :
    ∃ tls, decryptLoop T cap loadedHead loadedTail fuel s totalDecrypted =
      .ok ({ s with tls := tls, log := { s.log with toReadBio := s.log.toReadBio ++ xs } },
        totalDecrypted + xs.length) := by
  induction fuel generalizing s totalDecrypted xs with
  | zero => omega
  | succ fuel ih =>
    obtain ⟨hle, hend, hzero⟩ := hring.piece_le
    set adjustedHead := (loadedHead + totalDecrypted) % cap with hhead
    set decryptableSize :=
      if adjustedHead ≤ loadedTail then loadedTail - adjustedHead else cap - adjustedHead with hsize
    by_cases hempty : decryptableSize = 0
    · obtain rfl := hzero.mp hempty
      refine ⟨s.tls, ?_⟩
      simp [decryptLoop, ← hhead, ← hsize, hempty]
    · have hslice := hring.slice_eq hle hend
      have hrest := hring.dequeue hle
      have hmod : (adjustedHead + decryptableSize) % cap =
          (loadedHead + (totalDecrypted + decryptableSize)) % cap := by
        rw [hhead, Nat.mod_add_mod, Nat.add_assoc]
      rw [hmod] at hrest
      obtain ⟨tls, htls⟩ := ih (s := s.writeReadBio T (xs.take decryptableSize)) _ hrest
        (by rw [List.length_drop]; omega) (by rw [List.length_drop]; omega)
      refine ⟨tls, ?_⟩
      rw [decryptLoop]
      simp only [← hhead, ← hsize]
      rw [if_neg hempty, if_neg (by omega), hslice, htls]
      simp only [writeReadBio, List.append_assoc, List.take_append_drop, List.length_drop]
      rw [show totalDecrypted + decryptableSize + (xs.length - decryptableSize) =
        totalDecrypted + xs.length by omega]

/-- The first part of `TryProcessReceiveBuffers` empties the TLS ring into `ReadBio`. -/
theorem processReceiveTls_spec {xs : Bytes} (hring : Holds cap s.receiveTlsBuffer
      s.receiveTlsBufferHead s.receiveTlsBufferTail xs) (hlen : xs.length < 2 ^ 31) :
    ∃ tls, s.processReceiveTls T cap = .ok { s with
      tls := tls
      receiveTlsBufferHead := s.receiveTlsBufferTail
      log := { s.log with toReadBio := s.log.toReadBio ++ xs } } := by
  have hlt := hring.length_lt
  have hmod : (s.receiveTlsBufferHead + 0) % cap = s.receiveTlsBufferHead :=
    Nat.mod_eq_of_lt hring.head_lt
  obtain ⟨tls, htls⟩ := decryptLoop_spec (T := T) s.receiveTlsBufferHead (cap + 1) 0
    (by rw [hmod]; exact hring) hlen (by omega)
  refine ⟨tls, ?_⟩
  unfold processReceiveTls
  simp only [htls, bind, Except.bind, Nat.zero_add]
  split_ifs with hpos
  · rw [hring.tail_eq]
  · obtain rfl : xs = [] := List.length_eq_zero_iff.mp (by omega)
    rw [hring.eq_nil_iff.mp rfl]

/-- A piece of `2 ^ 31` bytes or more at the head of the TLS ring aborts. -/
theorem processReceiveTls_crash (hh : s.receiveTlsBufferHead < cap)
    (hlarge : 2 ^ 31 ≤ if s.receiveTlsBufferHead ≤ s.receiveTlsBufferTail then
      s.receiveTlsBufferTail - s.receiveTlsBufferHead else cap - s.receiveTlsBufferHead) :
    s.processReceiveTls T cap = .error .crash := by
  have hmod : (s.receiveTlsBufferHead + 0) % cap = s.receiveTlsBufferHead := Nat.mod_eq_of_lt hh
  unfold processReceiveTls
  simp only [decryptLoop, hmod, bind, Except.bind]
  rw [if_neg (by omega), if_pos hlarge]

/-- The result of the loop over `SSL_read` when the app ring held the bytes `xs` before: what has
been read is behind them, and unless the loop has failed, the tail it computes includes it. -/
def Enqueues (cap : Nat) (s : Session τ) (head loadedTail totalEnqueued : Nat) (xs : Bytes)
    (result : Except Stop (Session τ × EnqueueEnd)) : Prop :=
  ∃ tls appBuffer ys e, result = .ok ({ s with
    tls := tls
    receiveAppBuffer := appBuffer
    log := { s.log with decrypted := s.log.decrypted ++ ys } }, e) ∧
    ∀ n wantSend, e = .finished n wantSend → n = totalEnqueued + ys.length ∧
      Holds cap appBuffer head ((loadedTail + n) % cap) (xs ++ ys)

/-- An iteration of the loop over `SSL_read` that reads nothing. -/
theorem enqueues_stop {head loadedTail totalEnqueued : Nat} {xs : Bytes}
    (hring : Holds cap s.receiveAppBuffer head ((loadedTail + totalEnqueued) % cap) xs) (tls : τ)
    {e : EnqueueEnd} (he : ∀ n wantSend, e = .finished n wantSend → n = totalEnqueued) :
    Enqueues cap s head loadedTail totalEnqueued xs (.ok ({ s with tls := tls }, e)) := by
  refine ⟨tls, s.receiveAppBuffer, [], e, by rw [List.append_nil], fun n wantSend hn => ?_⟩
  obtain rfl := he n wantSend hn
  exact ⟨rfl, by rwa [List.append_nil]⟩

/-- The loop over `SSL_read` ends. -/
theorem enqueueLoop_spec {head : Nat} {xs : Bytes}
    (loadedTail available fuel totalEnqueued : Nat)
    (hring : Holds cap s.receiveAppBuffer head ((loadedTail + totalEnqueued) % cap) xs)
    (havail : xs.length + (available - totalEnqueued) + 1 = cap)
    (hfuel : available - totalEnqueued < fuel) :
    Enqueues cap s head loadedTail totalEnqueued xs
      (enqueueLoop T cap loadedTail available fuel s totalEnqueued) := by
  induction fuel generalizing s totalEnqueued xs with
  | zero => omega
  | succ fuel ih =>
    rw [enqueueLoop]
    dsimp only
    split_ifs with hfull
    · exact enqueues_stop hring s.tls (by simp)
    · split
      · rename_i tls bs pos le _
        have htlt := hring.tail_lt
        have hroom : bs.length ≤ available - totalEnqueued := Nat.le_trans le (Nat.min_le_left ..)
        have hend : bs.length ≤ cap - (loadedTail + totalEnqueued) % cap :=
          Nat.le_trans le (Nat.min_le_right ..)
        have hring' := hring.enqueue bs (by omega) (by omega)
        rw [Nat.mod_add_mod, Nat.add_assoc] at hring'
        obtain ⟨tls', appBuffer, ys, e, heq, he⟩ := ih
          (s := { s with
            tls := tls
            receiveAppBuffer := write s.receiveAppBuffer ((loadedTail + totalEnqueued) % cap) bs
            log := { s.log with decrypted := s.log.decrypted ++ bs } }) _ hring'
          (by rw [List.length_append]; omega) (by omega)
        refine ⟨tls', appBuffer, bs ++ ys, e, by rw [heq, List.append_assoc], fun n w hn => ?_⟩
        obtain ⟨h1, h2⟩ := he n w hn
        exact ⟨by rw [h1, List.length_append]; omega, by rwa [← List.append_assoc]⟩
      · exact enqueues_stop hring _ (by simp)
      · exact enqueues_stop hring _ (by simp)
      · exact enqueues_stop hring _ (by simp)
      · exact enqueues_stop hring _ (by simp)

/-- The second part of `TryProcessReceiveBuffers` appends what `SSL_read` returns to the app ring,
unless it fails. -/
theorem processReceiveApp_spec {xs : Bytes} (hring : Holds cap s.receiveAppBuffer
      s.receiveAppBufferHead s.receiveAppBufferTail xs) :
    ∃ tls appBuffer appTail ys r, s.processReceiveApp T cap = .ok ({ s with
      tls := tls
      receiveAppBuffer := appBuffer
      receiveAppBufferTail := appTail
      log := { s.log with decrypted := s.log.decrypted ++ ys } }, r) ∧ appTail < cap ∧
      (r ≠ .failed → Holds cap appBuffer s.receiveAppBufferHead appTail (xs ++ ys)) := by
  have hlt := hring.length_lt
  have hsize := hring.size_eq
  have hmod : (s.receiveAppBufferTail + 0) % cap = s.receiveAppBufferTail :=
    Nat.mod_eq_of_lt hring.tail_lt
  obtain ⟨tls, appBuffer, ys, e, heq, he⟩ := enqueueLoop_spec (T := T) (s := s)
    s.receiveAppBufferTail (cap - xs.length - 1) (cap + 1) 0 (by rw [hmod]; exact hring) (by omega)
    (by omega)
  unfold size at hsize
  unfold processReceiveApp
  simp only [hsize, heq, bind, Except.bind]
  cases e with
  | failed => exact ⟨tls, appBuffer, _, ys, .failed, rfl, hring.tail_lt, by simp⟩
  | finished n wantSend =>
    obtain ⟨rfl, hholds⟩ := he n wantSend rfl
    rw [Nat.zero_add] at hholds
    by_cases hpos : 0 < ys.length
    · simp only [Nat.zero_add, gt_iff_lt, if_pos hpos]
      exact ⟨tls, appBuffer, _, ys, _, rfl, hholds.tail_lt, fun _ => hholds⟩
    · obtain rfl : ys = [] := List.length_eq_zero_iff.mp (by omega)
      rw [List.length_nil, hmod] at hholds
      exact ⟨tls, appBuffer, _, [], _, rfl, hring.tail_lt, fun _ => hholds⟩

/-- `TryProcessReceiveBuffers` on a TLS ring that holds `xs` and an app ring that holds `ms`. -/
theorem tryProcessReceiveBuffers_spec {xs ms : Bytes} (hb : InBounds cap s)
    (htls : Holds cap s.receiveTlsBuffer s.receiveTlsBufferHead s.receiveTlsBufferTail xs)
    (hlen : xs.length < 2 ^ 31)
    (happ : Holds cap s.receiveAppBuffer s.receiveAppBufferHead s.receiveAppBufferTail ms) :
    ∃ s' r ys, s.tryProcessReceiveBuffers T cap = .ok (s', r) ∧ InBounds cap s' ∧
      s'.sendSide = s.sendSide ∧ s'.flags = s.flags ∧
      s'.receiveTlsBuffer = s.receiveTlsBuffer ∧
      s'.receiveTlsBufferHead = s.receiveTlsBufferTail ∧
      s'.receiveTlsBufferTail = s.receiveTlsBufferTail ∧
      s'.log.toReadBio = s.log.toReadBio ++ xs ∧
      s'.receiveAppBufferHead = s.receiveAppBufferHead ∧
      s'.log.decrypted = s.log.decrypted ++ ys ∧
      (r ≠ .failed → Holds cap s'.receiveAppBuffer s'.receiveAppBufferHead s'.receiveAppBufferTail
        (ms ++ ys)) := by
  obtain ⟨tls, h1⟩ := processReceiveTls_spec (T := T) htls hlen
  set s1 : Session τ := { s with
    tls := tls
    receiveTlsBufferHead := s.receiveTlsBufferTail
    log := { s.log with toReadBio := s.log.toReadBio ++ xs } } with hs1
  obtain ⟨tls', appBuffer, appTail, ys, r, h2, htail, hholds⟩ :=
    processReceiveApp_spec (T := T) (s := s1) happ
  have hcall : s.tryProcessReceiveBuffers T cap = s1.processReceiveApp T cap := by
    rw [tryProcessReceiveBuffers, h1]
    rfl
  exact ⟨_, r, ys, hcall.trans h2, ⟨hb.receiveTlsTail, hb.receiveTlsTail, hb.receiveAppHead, htail,
    hb.sendTlsHead, hb.sendTlsTail⟩, rfl, rfl, rfl, rfl, rfl, rfl, rfl, rfl, hholds⟩

/-- Whatever the TLS ring holds, a loop over it that ends only touches OpenSSL. -/
theorem decryptLoop_frame {loadedHead loadedTail fuel totalDecrypted n : Nat}
    (h : decryptLoop T cap loadedHead loadedTail fuel s totalDecrypted = .ok (s', n)) :
    ∃ tls bytes, s' = { s with
      tls := tls
      log := { s.log with toReadBio := s.log.toReadBio ++ bytes } } := by
  induction fuel generalizing s totalDecrypted with
  | zero => cases h
  | succ fuel ih =>
    simp only [decryptLoop] at h
    generalize (if (loadedHead + totalDecrypted) % cap ≤ loadedTail then
      loadedTail - (loadedHead + totalDecrypted) % cap
      else cap - (loadedHead + totalDecrypted) % cap) = decryptableSize at h
    split_ifs at h
    · obtain ⟨rfl, -⟩ := Prod.mk.inj (Except.ok.inj h)
      exact ⟨s.tls, [], by rw [List.append_nil]⟩
    · obtain ⟨tls, bytes, hr⟩ := ih h
      refine ⟨tls, slice s.receiveTlsBuffer ((loadedHead + totalDecrypted) % cap) decryptableSize ++
        bytes, ?_⟩
      rw [hr, ← List.append_assoc]
      rfl

theorem processReceiveTls_frame (h : s.processReceiveTls T cap = .ok s') :
    ∃ tls head bytes, (head = s.receiveTlsBufferHead ∨ ∃ n, head = n % cap) ∧ s' = { s with
      tls := tls
      receiveTlsBufferHead := head
      log := { s.log with toReadBio := s.log.toReadBio ++ bytes } } := by
  unfold processReceiveTls at h
  cases hloop : decryptLoop T cap s.receiveTlsBufferHead s.receiveTlsBufferTail (cap + 1) s 0 with
  | error e =>
    simp only [hloop, bind, Except.bind] at h
    cases h
  | ok r =>
    obtain ⟨tls, bytes, hr⟩ := decryptLoop_frame hloop
    simp only [hloop, bind, Except.bind] at h
    split_ifs at h
    · obtain rfl := Except.ok.inj h
      exact ⟨tls, _, bytes, Or.inr ⟨_, rfl⟩, by rw [hr]⟩
    · obtain rfl := Except.ok.inj h
      exact ⟨tls, _, bytes, Or.inl rfl, by rw [hr]⟩

/-- Whatever the TLS ring holds, a call that returns appends what `SSL_read` returned to the app
ring, unless it fails, and leaves the sending side alone. -/
theorem tryProcessReceiveBuffers_frame {r : ReceiveBuffersProcessResult} {ms : Bytes}
    (happ : Holds cap s.receiveAppBuffer s.receiveAppBufferHead s.receiveAppBufferTail ms)
    (h : s.tryProcessReceiveBuffers T cap = .ok (s', r)) :
    (InBounds cap s → InBounds cap s') ∧ s'.sendSide = s.sendSide ∧ s'.flags = s.flags ∧
      ∃ ys, s'.log.decrypted = s.log.decrypted ++ ys ∧ (r ≠ .failed →
        Holds cap s'.receiveAppBuffer s'.receiveAppBufferHead s'.receiveAppBufferTail (ms ++ ys)) := by
  have hcap : 0 < cap := Nat.lt_of_le_of_lt (Nat.zero_le _) happ.head_lt
  cases h1 : s.processReceiveTls T cap with
  | error e =>
    rw [tryProcessReceiveBuffers, h1] at h
    cases h
  | ok s1 =>
    obtain ⟨tls, head, bytes, hhead, rfl⟩ := processReceiveTls_frame h1
    obtain ⟨tls', appBuffer, appTail, ys, r', h2, htail, hholds⟩ := processReceiveApp_spec (T := T)
      (s := { s with
        tls := tls
        receiveTlsBufferHead := head
        log := { s.log with toReadBio := s.log.toReadBio ++ bytes } }) happ
    rw [tryProcessReceiveBuffers, h1] at h
    obtain ⟨rfl, rfl⟩ := Prod.mk.inj (Except.ok.inj (h2.symm.trans h))
    refine ⟨fun hb => ⟨?_, hb.receiveTlsTail, hb.receiveAppHead, htail, hb.sendTlsHead,
      hb.sendTlsTail⟩, rfl, rfl, ys, rfl, hholds⟩
    rcases hhead with rfl | ⟨n, rfl⟩
    · exact hb.receiveTlsHead
    · exact Nat.mod_lt _ hcap

/-! ## `TryProcessSendBuffers` -/

/-- The loop over `SSL_write` offers the messages in order, up to the first one refused. -/
theorem writeLoop_spec (queue : List Bytes) (s : Session τ) (hs : s.sendAppQueue = queue) :
    ∃ tls rest new e, writeLoop T queue s = ({ s with
      tls := tls
      sendAppQueue := rest
      log := { s.log with sslWrites := s.log.sslWrites ++ new } }, e) ∧
      new.map Prod.fst ++ rest = queue ∧ (e ≠ .failed → ∀ w ∈ new, w.2 ≠ .error) := by
  induction queue generalizing s with
  | nil => exact ⟨s.tls, [], [], .drained, by simp [writeLoop, ← hs], rfl, by simp⟩
  | cons message rest ih =>
    rw [writeLoop]
    cases hw : T.sslWrite s.tls message with
    | mk tls result =>
    cases result with
    | success =>
      obtain ⟨tls', rest', new, e, heq, hmap, herr⟩ := ih { s with
        tls := tls
        sendAppQueue := rest
        log := { s.log with sslWrites := s.log.sslWrites ++ [(message, .success)] } } rfl
      refine ⟨tls', rest', (message, .success) :: new, e, by simp [heq], by simp [hmap],
        fun he => ?_⟩
      exact List.forall_mem_cons.mpr ⟨by simp, herr he⟩
    | wantRead => exact ⟨tls, rest, [(message, .wantRead)], .wantRead, rfl, rfl, by simp⟩
    | error => exact ⟨tls, rest, [(message, .error)], .failed, rfl, rfl, by simp⟩

/-- The result of the loop over `BIO_read` when the TLS ring held the bytes `xs` before. -/
def Fills (cap : Nat) (s : Session τ) (head loadedTail totalEnqueued : Nat) (xs : Bytes)
    (result : Except Stop (Session τ × Option Nat)) : Prop :=
  ∃ tls tlsBuffer ys r, result = .ok ({ s with
    tls := tls
    sendTlsBuffer := tlsBuffer
    log := { s.log with fromWriteBio := s.log.fromWriteBio ++ ys } }, r) ∧
    ∀ n, r = some n → n = totalEnqueued + ys.length ∧
      Holds cap tlsBuffer head ((loadedTail + n) % cap) (xs ++ ys)

/-- An iteration of the loop over `BIO_read` that reads nothing. -/
theorem fills_stop {head loadedTail totalEnqueued : Nat} {xs : Bytes}
    (hring : Holds cap s.sendTlsBuffer head ((loadedTail + totalEnqueued) % cap) xs) (tls : τ)
    {r : Option Nat} (hr : ∀ n, r = some n → n = totalEnqueued) :
    Fills cap s head loadedTail totalEnqueued xs (.ok ({ s with tls := tls }, r)) := by
  refine ⟨tls, s.sendTlsBuffer, [], r, by rw [List.append_nil], fun n hn => ?_⟩
  obtain rfl := hr n hn
  exact ⟨rfl, by rwa [List.append_nil]⟩

/-- The loop over `BIO_read` ends. -/
theorem fillLoop_spec {xs : Bytes} (loadedHead loadedTail fuel totalEnqueued : Nat)
    (hring : Holds cap s.sendTlsBuffer loadedHead ((loadedTail + totalEnqueued) % cap) xs)
    (hfuel : cap - xs.length < fuel) : Fills cap s loadedHead loadedTail totalEnqueued xs
      (fillLoop T cap loadedHead loadedTail fuel s totalEnqueued) := by
  induction fuel generalizing s totalEnqueued xs with
  | zero => omega
  | succ fuel ih =>
    have hlt := hring.length_lt
    have htlt := hring.tail_lt
    have hsize := hring.size_eq
    unfold size at hsize
    rw [fillLoop]
    simp only [hsize]
    by_cases hpending : T.bioPending s.tls = 0
    · rw [if_pos hpending]
      exact fills_stop hring s.tls (by simp [eq_comm])
    rw [if_neg hpending]
    by_cases hfull : min (cap - xs.length - 1) (cap - (loadedTail + totalEnqueued) % cap) = 0
    · rw [if_pos hfull]
      exact fills_stop hring s.tls (by simp)
    · rw [if_neg hfull]
      split
      · exact fills_stop hring _ (by simp)
      · rename_i tls bs hbs _
        have hle := hbs.2
        rw [hsize] at hle
        have hroom : bs.length ≤ cap - xs.length - 1 := Nat.le_trans hle (Nat.min_le_left ..)
        have hend : bs.length ≤ cap - (loadedTail + totalEnqueued) % cap :=
          Nat.le_trans hle (Nat.min_le_right ..)
        have hring' := hring.enqueue bs (by omega) (by omega)
        rw [Nat.mod_add_mod, Nat.add_assoc] at hring'
        obtain ⟨tls', tlsBuffer, ys, r, heq, hr⟩ := ih
          (s := { s with
            tls := tls
            sendTlsBuffer := write s.sendTlsBuffer ((loadedTail + totalEnqueued) % cap) bs
            log := { s.log with fromWriteBio := s.log.fromWriteBio ++ bs } }) _ hring'
          (by have := hbs.1; rw [List.length_append]; omega)
        refine ⟨tls', tlsBuffer, bs ++ ys, r, by rw [heq, List.append_assoc], fun n hn => ?_⟩
        obtain ⟨h1, h2⟩ := hr n hn
        exact ⟨by rw [h1, List.length_append]; omega, by rwa [← List.append_assoc]⟩

/-- The second part of `TryProcessSendBuffers` appends what it takes from `WriteBio` to the TLS
ring, unless it fails. -/
theorem processSendTls_spec {xs : Bytes} (wantRead : Bool) (hring : Holds cap s.sendTlsBuffer
      s.sendTlsBufferHead s.sendTlsBufferTail xs) :
    ∃ tls tlsBuffer tlsTail ys r, s.processSendTls T cap wantRead = .ok ({ s with
      tls := tls
      sendTlsBuffer := tlsBuffer
      sendTlsBufferTail := tlsTail
      log := { s.log with fromWriteBio := s.log.fromWriteBio ++ ys } }, r) ∧ tlsTail < cap ∧
      (r ≠ .failed → Holds cap tlsBuffer s.sendTlsBufferHead tlsTail (xs ++ ys)) := by
  have hmod : (s.sendTlsBufferTail + 0) % cap = s.sendTlsBufferTail :=
    Nat.mod_eq_of_lt hring.tail_lt
  obtain ⟨tls, tlsBuffer, ys, r, heq, hr⟩ := fillLoop_spec (T := T) (s := s)
    s.sendTlsBufferHead s.sendTlsBufferTail (cap + 1) 0 (by rw [hmod]; exact hring) (by omega)
  unfold processSendTls
  simp only [heq, bind, Except.bind]
  cases r with
  | none => exact ⟨tls, tlsBuffer, _, ys, .failed, rfl, hring.tail_lt, by simp⟩
  | some n =>
    obtain ⟨rfl, hholds⟩ := hr n rfl
    rw [Nat.zero_add] at hholds
    by_cases hpos : 0 < ys.length
    · simp only [Nat.zero_add, gt_iff_lt, if_pos hpos]
      exact ⟨tls, tlsBuffer, _, ys, _, rfl, hholds.tail_lt, fun _ => hholds⟩
    · obtain rfl : ys = [] := List.length_eq_zero_iff.mp (by omega)
      rw [List.length_nil, hmod] at hholds
      exact ⟨tls, tlsBuffer, _, [], _, rfl, hring.tail_lt, fun _ => hholds⟩

/-- The result of `TryProcessSendBuffers`: it has offered messages to `SSL_write` in order, none of
which has been refused for good unless the call fails. -/
def Offers (cap : Nat) (s : Session τ)
    (result : Except Stop (Session τ × SendBuffersProcessResult)) : Prop :=
  ∃ s' r new, result = .ok (s', r) ∧ InBounds cap s' ∧ s'.receiveSide = s.receiveSide ∧
    s'.flags = s.flags ∧ s'.log.sslWrites = s.log.sslWrites ++ new ∧
    new.map Prod.fst ++ s'.sendAppQueue = s.sendAppQueue ∧
    (r ≠ .failed → ∀ w ∈ new, w.2 ≠ .error)

theorem tryProcessSendBuffers_spec (hb : InBounds cap s) :
    Offers cap s (s.tryProcessSendBuffers T cap) := by
  obtain ⟨tls, rest, new, e, hwrite, hmap, herr⟩ := writeLoop_spec (T := T) s.sendAppQueue s rfl
  have hfill : e ≠ .failed → ∀ wantRead, Offers cap s (processSendTls T cap wantRead { s with
      tls := tls
      sendAppQueue := rest
      log := { s.log with sslWrites := s.log.sslWrites ++ new } }) := by
    intro he wantRead
    obtain ⟨tls', tlsBuffer, tlsTail, ys, r, heq, htail, -⟩ := processSendTls_spec (T := T)
      (s := { s with
        tls := tls
        sendAppQueue := rest
        log := { s.log with sslWrites := s.log.sslWrites ++ new } }) wantRead
      ⟨hb.sendTlsHead, hb.sendTlsTail, rfl⟩
    exact ⟨_, r, new, heq, ⟨hb.receiveTlsHead, hb.receiveTlsTail, hb.receiveAppHead,
      hb.receiveAppTail, hb.sendTlsHead, htail⟩, rfl, rfl, rfl, hmap, fun _ => herr he⟩
  rw [tryProcessSendBuffers, hwrite]
  cases e with
  | drained => exact hfill (by simp) false
  | wantRead => exact hfill (by simp) true
  | failed =>
    exact ⟨_, .failed, new, rfl, ⟨hb.receiveTlsHead, hb.receiveTlsTail, hb.receiveAppHead,
      hb.receiveAppTail, hb.sendTlsHead, hb.sendTlsTail⟩, rfl, rfl, rfl, hmap, by simp⟩

/-! ## `TrySendAsync` -/

/-- A call returns without its loop, or the loop ends and it posts the slice at the head or returns
false, or the loop goes on. -/
theorem trySendAsync_cases {fuel : Nat} {accepted : Bool} {outcome : SendOutcome}
    (h : s.trySendAsync T cap fuel accepted = .ok (s', outcome)) :
    ((s' = s ∨ s' = { s with isSendOnline := false }) ∧ ∃ value, outcome = .returned value) ∨
    ∃ s1 e, sendLoop T cap fuel { s with isSendOnline := true } = .ok (s1, e) ∧
      ((s' = s1 ∧ e ≠ .failed ∧ (outcome = .looping ∨
          outcome = .posted ⟨s1.sendTlsBufferHead,
            (if s1.sendTlsBufferTail ≥ s1.sendTlsBufferHead then
              s1.sendTlsBufferTail - s1.sendTlsBufferHead
            else cap - s1.sendTlsBufferHead) % 2 ^ 32⟩)) ∨
        (s' = { s1 with isSendOnline := false } ∧ outcome = .returned false)) := by
  unfold trySendAsync at h
  by_cases honline : s.isSendOnline = true
  · rw [if_pos honline] at h
    obtain ⟨rfl, rfl⟩ := Prod.mk.inj (Except.ok.inj h)
    exact Or.inl ⟨Or.inl rfl, _, rfl⟩
  rw [if_neg honline] at h
  by_cases hclose : s.shouldClose = true
  · rw [if_pos hclose] at h
    obtain ⟨rfl, rfl⟩ := Prod.mk.inj (Except.ok.inj h)
    exact Or.inl ⟨Or.inl rfl, _, rfl⟩
  rw [if_neg hclose] at h
  by_cases hempty : s.sendTlsBufferHead = s.sendTlsBufferTail ∧ s.sendAppQueue.isEmpty = true
  · rw [if_pos hempty] at h
    obtain ⟨rfl, rfl⟩ := Prod.mk.inj (Except.ok.inj h)
    exact Or.inl ⟨Or.inr rfl, _, rfl⟩
  rw [if_neg hempty] at h
  cases hloop : sendLoop T cap fuel { s with isSendOnline := true } with
  | error stop =>
    simp only [hloop, bind, Except.bind] at h
    cases h
  | ok r =>
    obtain ⟨s1, e⟩ := r
    simp only [hloop, bind, Except.bind] at h
    refine Or.inr ⟨s1, e, rfl, ?_⟩
    cases e with
    | looping =>
      obtain ⟨rfl, rfl⟩ := Prod.mk.inj (Except.ok.inj h)
      exact Or.inl ⟨rfl, nofun, Or.inl rfl⟩
    | failed =>
      obtain ⟨rfl, rfl⟩ := Prod.mk.inj (Except.ok.inj h)
      exact Or.inr ⟨rfl, rfl⟩
    | ready =>
      cases accepted with
      | true =>
        obtain ⟨rfl, rfl⟩ := Prod.mk.inj (Except.ok.inj h)
        exact Or.inl ⟨rfl, nofun, Or.inr rfl⟩
      | false =>
        obtain ⟨rfl, rfl⟩ := Prod.mk.inj (Except.ok.inj h)
        exact Or.inr ⟨rfl, rfl⟩

end RatkiniaServer.Session
