import RatkiniaServer.PostReceive
import RatkiniaServer.Proofs.SessionCalls

/-!
# Room in the app ring

`TryProcessReceiveBuffers` fails as soon as the app ring is full, even if `SSL_read` has nothing more
to return. So it is not enough for a client to send small messages: what is left of an incomplete
message and what one receive brings have to stay below the capacity of the ring.
-/

namespace RatkiniaServer.Session

open Ring Framing Transition

variable {τ : Type} {T : Tls τ} {cap messageMaxSize : Nat} {s s' : Session τ}
  {c c' : Connection τ} {op : ConnectionOp} {ready : τ → Nat}

/-! ## The loop over `SSL_read` -/

/-- Where `SSL_read` has less to return than there is room for, the loop does not fill the ring. -/
theorem enqueueLoop_of_room {loadedTail available fuel totalEnqueued : Nat} {e : EnqueueEnd}
    (hroom : ∀ n tls, Reads T s.tls n tls → totalEnqueued + n < available)
    (h : enqueueLoop T cap loadedTail available fuel s totalEnqueued = .ok (s', e)) :
    s'.log.decrypted.length + totalEnqueued < s.log.decrypted.length + available := by
  induction fuel generalizing s totalEnqueued with
  | zero => cases h
  | succ fuel ih =>
    have hnow := hroom 0 s.tls (.nil _)
    rw [enqueueLoop] at h
    dsimp only at h
    rw [if_neg (by omega)] at h
    split at h
    · rename_i tls bs pos le hread
      have hrest := ih (fun n tls' hreads => by
        have hall := hroom (bs.length + n) tls' (.cons hread hreads)
        omega) h
      simp only [List.length_append] at hrest
      omega
    all_goals
      obtain ⟨rfl, -⟩ := Prod.mk.inj (Except.ok.inj h)
      dsimp only
      omega

/-- Where `SSL_read` has at least as much to return as there is room for, the loop fills the ring and
fails. -/
theorem enqueueLoop_of_full (hready : ReadsUniformly T ready)
    {loadedTail available fuel totalEnqueued : Nat} {e : EnqueueEnd} (hcap : 0 < cap)
    (hle : totalEnqueued ≤ available) (hfull : available ≤ totalEnqueued + ready s.tls)
    (h : enqueueLoop T cap loadedTail available fuel s totalEnqueued = .ok (s', e)) :
    e = .failed ∧
      s'.log.decrypted.length + totalEnqueued = s.log.decrypted.length + available := by
  induction fuel generalizing s totalEnqueued with
  | zero => cases h
  | succ fuel ih =>
    rw [enqueueLoop] at h
    dsimp only at h
    split_ifs at h with havailable
    · obtain ⟨rfl, rfl⟩ := Prod.mk.inj (Except.ok.inj h)
      exact ⟨rfl, by omega⟩
    · have hlt := Nat.mod_lt (loadedTail + totalEnqueued) hcap
      generalize hn : min (available - totalEnqueued) (cap - (loadedTail + totalEnqueued) % cap) = n
        at h
      have hpos : 0 < n := by omega
      -- Without bytes `SSL_read` would have nothing ready.
      have hstop {tls : τ} {r : ReadResult n} (hread : T.sslRead s.tls n = (tls, r))
          (hr : ∀ bs pos le, r ≠ .bytes bs pos le) : False := by
        have hzero := hready.stops hpos hread hr
        omega
      split at h
      · rename_i tls bs pos le hread
        have hbytes := hready.bytes hread
        have hmin : bs.length ≤ available - totalEnqueued := by omega
        obtain ⟨rfl, hlog⟩ := ih (by omega) (by dsimp only; omega) h
        simp only [List.length_append] at hlog
        exact ⟨rfl, by omega⟩
      all_goals
        rename_i hread
        exact (hstop hread (by simp)).elim

theorem ReadsUniformly.le (hready : ReadsUniformly T ready) {tls tls' : τ} {n : Nat}
    (h : Reads T tls n tls') : n ≤ ready tls := by
  induction h with
  | nil => exact Nat.zero_le _
  | cons hread _ ih =>
    have hbytes := hready.bytes hread
    omega

/-! ## `TryProcessReceiveBuffers` -/

/-- The second part of a call is its loop over `SSL_read`. -/
theorem processReceiveApp_loop {r : ReceiveBuffersProcessResult}
    (h : s.processReceiveApp T cap = .ok (s', r)) :
    ∃ s1 e, enqueueLoop T cap s.receiveAppBufferTail (appRingAvailable cap s) (cap + 1) s 0 =
        .ok (s1, e) ∧ s'.log = s1.log ∧ (e = .failed → r = .failed) := by
  unfold processReceiveApp at h
  change (enqueueLoop T cap s.receiveAppBufferTail (appRingAvailable cap s) (cap + 1) s 0 >>= _) =
    _ at h
  cases hloop : enqueueLoop T cap s.receiveAppBufferTail (appRingAvailable cap s) (cap + 1) s 0 with
  | error e =>
    rw [hloop] at h
    cases h
  | ok result =>
    obtain ⟨s1, e⟩ := result
    rw [hloop] at h
    refine ⟨s1, e, rfl, ?_⟩
    cases e with
    | failed =>
      obtain ⟨rfl, rfl⟩ := Prod.mk.inj (Except.ok.inj h)
      exact ⟨rfl, fun _ => rfl⟩
    | finished n wantSend =>
      simp only [bind, Except.bind] at h
      obtain ⟨rfl, -⟩ := Prod.mk.inj (Except.ok.inj h)
      refine ⟨?_, fun he => by cases he⟩
      split_ifs <;> rfl

/-- A call is its two parts. -/
theorem tryProcessReceiveBuffers_parts {r : ReceiveBuffersProcessResult}
    (h : s.tryProcessReceiveBuffers T cap = .ok (s', r)) :
    ∃ s1, s.processReceiveTls T cap = .ok s1 ∧ s1.processReceiveApp T cap = .ok (s', r) ∧
      s1.log.decrypted = s.log.decrypted ∧ appRingAvailable cap s1 = appRingAvailable cap s := by
  cases h1 : s.processReceiveTls T cap with
  | error e =>
    rw [tryProcessReceiveBuffers, h1] at h
    cases h
  | ok s1 =>
    rw [tryProcessReceiveBuffers, h1] at h
    obtain ⟨tls, head, bytes, -, rfl⟩ := processReceiveTls_frame h1
    exact ⟨_, rfl, h, rfl, rfl⟩

theorem ranOutOfSpace_of_room {r : ReceiveBuffersProcessResult} (hroom : CallHasRoom T cap s)
    (h : s.tryProcessReceiveBuffers T cap = .ok (s', r)) : ranOutOfSpace cap s s' = false := by
  obtain ⟨s1, h1, h2, hlog1, havailable⟩ := tryProcessReceiveBuffers_parts h
  obtain ⟨s2, e, hloop, hlog2, -⟩ := processReceiveApp_loop h2
  have hfits := enqueueLoop_of_room (fun n tls hreads => by
    have hall := hroom s1 h1 n tls hreads
    rw [havailable, appRingAvailable]
    omega) hloop
  rw [← hlog2, hlog1, havailable] at hfits
  unfold ranOutOfSpace
  exact decide_eq_false (by omega)

theorem ranOutOfSpace_of_full (hready : ReadsUniformly T ready) {r : ReceiveBuffersProcessResult}
    (hcap : 0 < cap) (hroom : ¬ CallHasRoom T cap s)
    (h : s.tryProcessReceiveBuffers T cap = .ok (s', r)) :
    r = .failed ∧ ranOutOfSpace cap s s' = true := by
  unfold CallHasRoom at hroom
  push Not at hroom
  obtain ⟨s1, h1, n, tls, hreads, hfull⟩ := hroom
  obtain ⟨s1', h1', h2, hlog1, havailable⟩ := tryProcessReceiveBuffers_parts h
  obtain rfl : s1 = s1' := Except.ok.inj (h1.symm.trans h1')
  obtain ⟨s2, e, hloop, hlog2, hfailed⟩ := processReceiveApp_loop h2
  have hle := hready.le hreads
  obtain ⟨he, hlog⟩ := enqueueLoop_of_full hready hcap (Nat.zero_le _) (by
    rw [havailable, appRingAvailable]
    omega) hloop
  rw [← hlog2, hlog1, havailable] at hlog
  exact ⟨hfailed he, decide_eq_true (by omega)⟩

/-! ## Runs -/

theorem inBounds_drainLoop {fuel : Nat} {messages : List (UInt16 × Bytes)} (hb : InBounds cap s)
    (h : drainLoop cap messageMaxSize fuel s = .ok (s', messages)) : InBounds cap s' := by
  induction fuel generalizing s messages with
  | zero => cases h
  | succ fuel ih =>
    rw [drainLoop] at h
    cases hpeek : s.peekReceivedMessage cap messageMaxSize with
    | error e =>
      rw [hpeek] at h
      cases h
    | ok result =>
      rw [hpeek] at h
      cases result with
      | none =>
        obtain ⟨rfl, -⟩ := Prod.mk.inj (Except.ok.inj h)
        exact hb
      | some message =>
        simp only [bind, Except.bind] at h
        cases hrest : drainLoop cap messageMaxSize fuel
            (s.popReceivedMessage cap (messageHeaderSize + message.bodySize.toNat)) with
        | error e =>
          rw [hrest] at h
          cases h
        | ok result =>
          rw [hrest] at h
          obtain ⟨rfl, -⟩ := Prod.mk.inj (Except.ok.inj h)
          have hcap : 0 < cap := Nat.zero_lt_of_lt hb.receiveAppHead
          exact ih
            (s := s.popReceivedMessage cap (messageHeaderSize + message.bodySize.toNat))
            { hb with receiveAppHead := Nat.mod_lt _ hcap } hrest

/-- The ring positions stay positions of the rings. -/
def Positioned (messageMaxSize : Nat) (c : Connection τ) : Prop :=
  InBounds (bufferCapacity messageMaxSize) c.session

theorem InBounds.tryProcessReceiveBuffers {r : ReceiveBuffersProcessResult} (hb : InBounds cap s)
    (h : s.tryProcessReceiveBuffers T cap = .ok (s', r)) : InBounds cap s' :=
  (tryProcessReceiveBuffers_frame ⟨hb.receiveAppHead, hb.receiveAppTail, rfl⟩ h).1 hb

/-- `TryReceiveAsync` changes its flag only. -/
theorem tryReceiveAsync_frame (cap : Nat) (s : Session τ) (accepted : Bool) :
    ∃ online, (s.tryReceiveAsync cap accepted).1 = { s with isReceiveOnline := online } := by
  unfold tryReceiveAsync
  dsimp only
  split_ifs
  · exact ⟨s.isReceiveOnline, rfl⟩
  · exact ⟨false, rfl⟩
  · exact ⟨true, rfl⟩
  · exact ⟨false, rfl⟩

theorem positioned_complete {bytes : Bytes} (h : Positioned messageMaxSize c)
    (hstep : c.complete messageMaxSize bytes = some c') :
    Positioned messageMaxSize c' ∧ c'.outOfSpace = c.outOfSpace := by
  unfold Connection.complete at hstep
  dsimp only at hstep
  split at hstep
  · cases hstep
  · rename_i s posted hcall
    split_ifs at hstep
    obtain rfl := Option.some.inj hstep
    obtain ⟨online, hs⟩ := tryReceiveAsync_frame (bufferCapacity messageMaxSize) c.session true
    rw [hcall] at hs
    obtain rfl : s = _ := hs
    have hcap : 0 < bufferCapacity messageMaxSize := Nat.zero_lt_of_lt h.receiveTlsHead
    exact ⟨⟨h.receiveTlsHead, Nat.mod_lt _ hcap, h.receiveAppHead, h.receiveAppTail, h.sendTlsHead,
      h.sendTlsTail⟩, rfl⟩

/-- A step that is no call of `TryProcessReceiveBuffers`. -/
theorem positioned_next_of_ne (h : Positioned messageMaxSize c) (hphase : c.phase ≠ .processReceive)
    (hstep : c.next T messageMaxSize = some c') :
    Positioned messageMaxSize c' ∧ c'.outOfSpace = c.outOfSpace := by
  unfold Connection.next at hstep
  dsimp only at hstep
  split at hstep
  · cases hstep
  · rename_i hphase'
    exact absurd hphase' hphase
  · obtain ⟨s', r, new, hcall, hb, -⟩ := tryProcessSendBuffers_spec (T := T) h
    rw [hcall] at hstep
    cases r <;> obtain rfl := Option.some.inj hstep <;> exact ⟨hb, rfl⟩
  · split at hstep
    · cases hstep
    · rename_i s messages hdrain
      obtain rfl := Option.some.inj hstep
      exact ⟨inBounds_drainLoop h hdrain, rfl⟩
  · cases hstep

/-- A call of `TryProcessReceiveBuffers`. -/
theorem next_processReceive (hphase : c.phase = .processReceive)
    (hstep : c.next T messageMaxSize = some c') :
    ∃ s r, c.session.tryProcessReceiveBuffers T (bufferCapacity messageMaxSize) = .ok (s, r) ∧
      c'.session = s ∧ c'.outOfSpace =
        if r = .failed then c.outOfSpace || ranOutOfSpace (bufferCapacity messageMaxSize) c.session s
        else c.outOfSpace := by
  unfold Connection.next at hstep
  simp only [hphase] at hstep
  split at hstep
  · cases hstep
  all_goals
    rename_i s hcall
    obtain rfl := Option.some.inj hstep
    exact ⟨s, _, hcall, rfl, by simp⟩

theorem positioned_step (h : Positioned messageMaxSize c)
    (hstep : connectionStep T messageMaxSize c op = some c') : Positioned messageMaxSize c' := by
  cases op with
  | completion bytes =>
    simp only [connectionStep] at hstep
    split_ifs at hstep
    exact (positioned_complete h hstep).1
  | next =>
    by_cases hphase : c.phase = .processReceive
    · obtain ⟨s, r, hcall, hs, -⟩ := next_processReceive hphase hstep
      rw [Positioned, hs]
      exact InBounds.tryProcessReceiveBuffers h hcall
    · exact (positioned_next_of_ne h hphase hstep).1

/-- A step that has room does not run out of space. -/
theorem outOfSpace_step_of_room (h : Positioned messageMaxSize c) (hP : c.outOfSpace = false)
    (hroom : HasRoom T messageMaxSize c op)
    (hstep : connectionStep T messageMaxSize c op = some c') : c'.outOfSpace = false := by
  cases op with
  | completion bytes =>
    simp only [connectionStep] at hstep
    split_ifs at hstep
    exact (positioned_complete h hstep).2.trans hP
  | next =>
    by_cases hphase : c.phase = .processReceive
    · obtain ⟨s, r, hcall, -, hout⟩ := next_processReceive hphase hstep
      rw [hout, hP, ranOutOfSpace_of_room (hroom hphase) hcall]
      simp
    · exact (positioned_next_of_ne h hphase hstep).2.trans hP

/-- A step that does not run out of space had room, if `SSL_read` returns the same plaintext whatever
sizes it is asked for. -/
theorem room_of_outOfSpace_step (hready : ReadsUniformly T ready) (h : Positioned messageMaxSize c)
    (hstep : connectionStep T messageMaxSize c op = some c') (hP : c'.outOfSpace = false) :
    HasRoom T messageMaxSize c op := by
  cases op with
  | completion bytes => trivial
  | next =>
    intro hphase
    by_contra hroom
    obtain ⟨s, r, hcall, -, hout⟩ := next_processReceive hphase hstep
    obtain ⟨rfl, hfull⟩ :=
      ranOutOfSpace_of_full hready (Nat.zero_lt_of_lt h.receiveTlsHead) hroom hcall
    rw [hP, hfull] at hout
    simp at hout

/-- A call that does not return has room: it has aborted before the loop over `SSL_read`. -/
theorem room_of_none (h : Positioned messageMaxSize c)
    (hstep : connectionStep T messageMaxSize c op = none) : HasRoom T messageMaxSize c op := by
  cases op with
  | completion bytes => trivial
  | next =>
    intro hphase s1 h1
    obtain ⟨tls, head, bytes, -, rfl⟩ := processReceiveTls_frame h1
    have hring : Holds (bufferCapacity messageMaxSize) c.session.receiveAppBuffer
        c.session.receiveAppBufferHead c.session.receiveAppBufferTail _ :=
      ⟨h.receiveAppHead, h.receiveAppTail, rfl⟩
    obtain ⟨tls', appBuffer, appTail, ys, r, h2, -, -⟩ := processReceiveApp_spec (T := T)
      (s := { c.session with
        tls := tls
        receiveTlsBufferHead := head
        log := { c.session.log with toReadBio := c.session.log.toReadBio ++ bytes } }) hring
    simp only [connectionStep, Connection.next, hphase, tryProcessReceiveBuffers, h1, bind,
      Except.bind, h2] at hstep
    cases r <;> cases hstep

/-- **The app ring.** In every run of receives, `TryProcessReceiveBuffers` never fails for lack of
space if at each call what is left in the app ring and the plaintext that `SSL_read` then has to
return number fewer than `BufferCapacity - 1`; and only then, if the plaintext that `SSL_read` returns
does not depend on the sizes it is asked for. -/
theorem outOfSpace_of_hasRoom (T : Tls τ) (messageMaxSize : Nat) (hmax : 0 < messageMaxSize) (tls : τ)
    (buffer : Nat → UInt8) (ops : List ConnectionOp) :
    (Meets (connectionStep T messageMaxSize) (HasRoom T messageMaxSize) (.fresh tls buffer) ops →
      Always (connectionStep T messageMaxSize) (fun c => c.outOfSpace = false) (.fresh tls buffer)
        ops) ∧
    ∀ ready, ReadsUniformly T ready →
      Always (connectionStep T messageMaxSize) (fun c => c.outOfSpace = false) (.fresh tls buffer)
        ops →
      Meets (connectionStep T messageMaxSize) (HasRoom T messageMaxSize) (.fresh tls buffer) ops := by
  have hcap : 0 < bufferCapacity messageMaxSize := by
    unfold bufferCapacity
    omega
  have hinit : Positioned messageMaxSize (.fresh tls buffer) := inBounds_fresh tls buffer hcap
  refine ⟨fun hmeets => ?_, fun ready hready halways => ?_⟩
  · exact always_of_meets (I := Positioned messageMaxSize) (P := fun c => c.outOfSpace = false)
      (fun _ _ _ h hP hroom hstep =>
        ⟨positioned_step h hstep, outOfSpace_step_of_room h hP hroom hstep⟩) hinit rfl hmeets
  · have hall : Meets (connectionStep T messageMaxSize) (fun _ _ => True) (.fresh tls buffer) ops :=
      .of_forall (fun _ _ => trivial) _ ops
    exact meets_of_always (I := Positioned messageMaxSize)
      (fun _ _ _ h _ _ hstep _ => positioned_step h hstep)
      (fun _ _ _ h _ _ hstep hP => room_of_outOfSpace_step hready h hstep hP)
      (fun _ _ h _ hstep => room_of_none h hstep) hinit hall halways

/-! ## A decoder without records -/

/-- An OpenSSL whose ciphertext is the plaintext; its state is what has not been read yet. -/
def plainTls : Tls Bytes where
  sslRead t n :=
    if h : 0 < (t.take n).length then
      (t.drop n, .bytes (t.take n) h (by rw [List.length_take]; exact Nat.min_le_left ..))
    else (t, .wantRead)
  sslWrite t _ := (t, .success)
  bioWrite t bs := t ++ bs
  bioPending _ := 0
  bioRead t _ := (t, none)

theorem plainTls_readsUniformly : ReadsUniformly plainTls List.length where
  bytes := by
    intro tls tls' n bs pos le hread
    simp only [plainTls] at hread
    split_ifs at hread
    · obtain ⟨rfl, hbytes⟩ := Prod.mk.inj hread
      obtain rfl := ReadResult.bytes.inj hbytes
      rw [List.length_take, List.length_drop]
      omega
    · cases (Prod.mk.inj hread).2
  stops := by
    intro tls tls' n r hn hread hr
    simp only [plainTls] at hread
    split_ifs at hread with hpos
    · exact absurd (Prod.mk.inj hread).2.symm (hr _ _ _)
    · rw [List.length_take] at hpos
      omega

/-- A receive of three bytes of an incomplete message. -/
def smallReceive : List ConnectionOp := [.completion [0, 1, 0], .next, .next]

theorem outOfSpace_of_hasRoom_smallReceive :
    Always (connectionStep plainTls 8) (fun c => c.outOfSpace = false) (.fresh [] fun _ => 0)
        smallReceive ∧
      (Always (connectionStep plainTls 8) (fun c => c.outOfSpace = false) (.fresh [] fun _ => 0)
          smallReceive →
        Meets (connectionStep plainTls 8) (HasRoom plainTls 8) (.fresh [] fun _ => 0)
          smallReceive) := by
  have hroom : CallHasRoom plainTls (bufferCapacity 8) { fresh [] (fun _ => 0) with
      receiveTlsBuffer := write (fun _ => 0) 0 [0, 1, 0]
      receiveTlsBufferTail := 3 } := by
    intro s h n tls hreads
    obtain rfl := Except.ok.inj h
    have hle : n ≤ 3 := plainTls_readsUniformly.le hreads
    change 0 + n < 31
    omega
  have hmeets : Meets (connectionStep plainTls 8) (HasRoom plainTls 8) (.fresh [] fun _ => 0)
      smallReceive :=
    .cons trivial rfl (.cons (fun _ => hroom) rfl (.cons (by intro hphase; cases hphase) rfl trivial))
  exact ⟨(outOfSpace_of_hasRoom plainTls 8 (by decide) [] (fun _ => 0) smallReceive).1 hmeets,
    (outOfSpace_of_hasRoom plainTls 8 (by decide) [] (fun _ => 0) smallReceive).2 _
      plainTls_readsUniformly⟩

/-- Messages of eight and of seven bytes. -/
def longFrame : Frame UInt8 := ([0, 1, 0, 4], [1, 2, 3, 4])
def shortFrame : Frame UInt8 := ([0, 1, 0, 3], [1, 2, 3])

/-- Four messages of at most eight bytes, 31 bytes in all. -/
def fourMessages : Bytes := Format.stream [longFrame, longFrame, longFrame, shortFrame]

theorem parse_fourMessages :
    messageFormat.parse fourMessages = ([longFrame, longFrame, longFrame, shortFrame], []) := by
  have hvalid : ∀ f ∈ [longFrame, longFrame, longFrame, shortFrame], messageFormat.Valid f := by
    have hlong : messageFormat.Valid longFrame := ⟨rfl, rfl⟩
    have hshort : messageFormat.Valid shortFrame := ⟨rfl, rfl⟩
    simp [hlong, hshort]
  simpa [fourMessages] using Format.parse_stream_append hvalid []

/-- A first receive that fills the app ring fails, although the ring has room for it and nothing more
is pending. -/
theorem outOfSpace_fourMessages :
    HeadersFit 8 fourMessages ∧ incompleteMessage fourMessages = [] ∧
    ∃ c, run (connectionStep plainTls 8) (.fresh [] fun _ => 0) [.completion fourMessages, .next] =
        some c ∧
      c.session.log.decrypted.length ≤ c.session.log.toReadBio.length ∧ c.outOfSpace = true := by
  have hincomplete : incompleteMessage fourMessages = [] := by
    rw [incompleteMessage, parse_fourMessages]
  refine ⟨⟨?_, ?_⟩, hincomplete, _, rfl, by decide, rfl⟩
  · rw [parse_fourMessages]
    decide
  · rw [hincomplete]
    decide

end RatkiniaServer.Session
