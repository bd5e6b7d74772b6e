import RatkiniaServer.SessionRuns
import RatkiniaServer.Proofs.SessionCalls

/-!
# The queue of outgoing messages

`TryProcessSendBuffers` pops a message before it offers it to `SSL_write`, and does not put it back
when the answer is `SSL_ERROR_WANT_READ`. So the messages offered and the queue always make up the
messages pushed, but the messages accepted and the queue do so only as long as that answer has never
come.
-/

namespace RatkiniaServer.Session

open Transition

variable {τ : Type} {T : Tls τ} {cap : Nat} {s s' s'' : Session τ}

/-- From `s` to `s'` messages have been offered to `SSL_write` in order; in a clean call none of them
has been refused for good. -/
def Offered (s s' : Session τ) (clean : Prop) : Prop :=
  ∃ new, s'.log.sslWrites = s.log.sslWrites ++ new ∧
    new.map Prod.fst ++ s'.sendAppQueue = s.sendAppQueue ∧ (clean → ∀ w ∈ new, w.2 ≠ .error)

theorem Offered.of_sendSide_eq {clean : Prop} (h : s'.sendSide = s.sendSide) :
    Offered s s' clean :=
  ⟨[], (congrArg SendSide.sslWrites h).trans (List.append_nil _).symm,
    congrArg SendSide.appQueue h, fun _ => by simp⟩

theorem Offered.trans {clean clean' : Prop} (h : Offered s s' clean) (h' : Offered s' s'' clean')
    (hclean : clean' → clean) : Offered s s'' clean' := by
  obtain ⟨new, hw, hq, he⟩ := h
  obtain ⟨new', hw', hq', he'⟩ := h'
  refine ⟨new ++ new', by rw [hw', hw, List.append_assoc], ?_, fun hc w hmem => ?_⟩
  · rw [List.map_append, List.append_assoc, hq', hq]
  · rcases List.mem_append.mp hmem with hm | hm
    · exact he (hclean hc) w hm
    · exact he' hc w hm

theorem Offered.mono {clean clean' : Prop} (h : Offered s s' clean) (hclean : clean' → clean) :
    Offered s s' clean' := by
  obtain ⟨new, hw, hq, he⟩ := h
  exact ⟨new, hw, hq, fun hc => he (hclean hc)⟩

/-- One `TryProcessSendBuffers`. -/
theorem tryProcessSendBuffers_offered {r : SendBuffersProcessResult} (hb : InBounds cap s)
    (h : s.tryProcessSendBuffers T cap = .ok (s', r)) :
    InBounds cap s' ∧ Offered s s' (r ≠ .failed) := by
  obtain ⟨s1, r1, new, h1, hb1, -, -, hw, hq, he⟩ := tryProcessSendBuffers_spec (T := T) hb
  obtain ⟨rfl, rfl⟩ := Prod.mk.inj (Except.ok.inj (h1.symm.trans h))
  exact ⟨hb1, new, hw, hq, he⟩

/-- One `TryProcessReceiveBuffers`. -/
theorem tryProcessReceiveBuffers_sendSide {r : ReceiveBuffersProcessResult} (hb : InBounds cap s)
    (h : s.tryProcessReceiveBuffers T cap = .ok (s', r)) :
    InBounds cap s' ∧ s'.sendSide = s.sendSide := by
  obtain ⟨hb', hside, -⟩ :=
    tryProcessReceiveBuffers_frame ⟨hb.receiveAppHead, hb.receiveAppTail, rfl⟩ h
  exact ⟨hb' hb, hside⟩

/-- The loop of `TryPostReceive`. -/
theorem postReceiveLoop_offered {fuel : Nat} {v : Option Bool} (hb : InBounds cap s)
    (h : postReceiveLoop T cap fuel s = .ok (s', v)) :
    InBounds cap s' ∧ Offered s s' (v ≠ some false) := by
  induction fuel generalizing s with
  | zero =>
    obtain ⟨rfl, -⟩ := Prod.mk.inj (Except.ok.inj h)
    exact ⟨hb, .of_sendSide_eq rfl⟩
  | succ fuel ih =>
    rw [postReceiveLoop] at h
    cases h1 : s.tryProcessReceiveBuffers T cap with
    | error e =>
      rw [h1] at h
      cases h
    | ok r1 =>
      obtain ⟨s1, r1⟩ := r1
      obtain ⟨hb1, hside1⟩ := tryProcessReceiveBuffers_sendSide hb h1
      have hoff1 : ∀ clean, Offered s s1 clean := fun _ => .of_sendSide_eq hside1
      simp only [h1, bind, Except.bind] at h
      cases r1 with
      | success =>
        obtain ⟨rfl, rfl⟩ := Prod.mk.inj (Except.ok.inj h)
        exact ⟨hb1, hoff1 _⟩
      | failed =>
        obtain ⟨rfl, rfl⟩ := Prod.mk.inj (Except.ok.inj h)
        exact ⟨hb1, hoff1 _⟩
      | wantProcessSendBuffers =>
        cases h2 : s1.tryProcessSendBuffers T cap with
        | error e =>
          simp only [h2] at h
          cases h
        | ok r2 =>
          obtain ⟨s2, r2⟩ := r2
          obtain ⟨hb2, hoff2⟩ := tryProcessSendBuffers_offered hb1 h2
          simp only [h2] at h
          cases r2 with
          | wantProcessReceiveBuffers =>
            obtain ⟨rfl, rfl⟩ := Prod.mk.inj (Except.ok.inj h)
            exact ⟨hb2, (hoff1 _).trans (hoff2.mono fun _ => by simp) id⟩
          | failed =>
            obtain ⟨rfl, rfl⟩ := Prod.mk.inj (Except.ok.inj h)
            exact ⟨hb2, (hoff1 _).trans (hoff2.mono fun hc => absurd rfl hc) id⟩
          | success =>
            obtain ⟨hb3, hoff3⟩ := ih hb2 h
            exact ⟨hb3, ((hoff1 _).trans hoff2 id).trans hoff3 fun _ => by simp⟩

/-- The loop of `TrySendAsync`. -/
theorem sendLoop_offered {fuel : Nat} {e : SendLoopEnd} (hb : InBounds cap s)
    (h : sendLoop T cap fuel s = .ok (s', e)) : InBounds cap s' ∧ Offered s s' (e ≠ .failed) := by
  induction fuel generalizing s with
  | zero =>
    obtain ⟨rfl, -⟩ := Prod.mk.inj (Except.ok.inj h)
    exact ⟨hb, .of_sendSide_eq rfl⟩
  | succ fuel ih =>
    rw [sendLoop] at h
    cases h1 : s.tryProcessSendBuffers T cap with
    | error e =>
      rw [h1] at h
      cases h
    | ok r1 =>
      obtain ⟨s1, r1⟩ := r1
      obtain ⟨hb1, hoff1⟩ := tryProcessSendBuffers_offered hb h1
      simp only [h1, bind, Except.bind] at h
      cases r1 with
      | success =>
        obtain ⟨rfl, rfl⟩ := Prod.mk.inj (Except.ok.inj h)
        exact ⟨hb1, hoff1.mono fun _ => by simp⟩
      | failed =>
        obtain ⟨rfl, rfl⟩ := Prod.mk.inj (Except.ok.inj h)
        exact ⟨hb1, hoff1.mono fun hc => absurd rfl hc⟩
      | wantProcessReceiveBuffers =>
        have hclean : ∀ clean, Offered s s1 clean := fun _ => hoff1.mono fun _ => by simp
        cases h2 : s1.tryProcessReceiveBuffers T cap with
        | error e =>
          simp only [h2] at h
          cases h
        | ok r2 =>
          obtain ⟨s2, r2⟩ := r2
          obtain ⟨hb2, hside2⟩ := tryProcessReceiveBuffers_sendSide hb1 h2
          have hoff2 : ∀ clean, Offered s s2 clean := fun clean =>
            (hclean clean).trans (.of_sendSide_eq hside2) id
          simp only [h2] at h
          cases r2 with
          | wantProcessSendBuffers =>
            obtain ⟨rfl, rfl⟩ := Prod.mk.inj (Except.ok.inj h)
            exact ⟨hb2, hoff2 _⟩
          | failed =>
            obtain ⟨rfl, rfl⟩ := Prod.mk.inj (Except.ok.inj h)
            exact ⟨hb2, hoff2 _⟩
          | success =>
            obtain ⟨hb3, hoff3⟩ := ih hb2 h
            exact ⟨hb3, (hoff2 _).trans hoff3 id⟩

/-- `TrySendAsync`. -/
theorem trySendAsync_offered {fuel : Nat} {taken : Bool} {outcome : SendOutcome}
    (hb : InBounds cap s) (h : s.trySendAsync T cap fuel taken = .ok (s', outcome)) :
    InBounds cap s' ∧ Offered s s' (outcome ≠ .returned false) := by
  have hflag : ∀ online, InBounds cap { s with isSendOnline := online } := fun _ => { hb with }
  rcases trySendAsync_cases h with ⟨rfl | rfl, -⟩ | ⟨s1, e, hloop, hend⟩
  · exact ⟨hb, .of_sendSide_eq rfl⟩
  · exact ⟨hflag false, .of_sendSide_eq rfl⟩
  · obtain ⟨hb1, hoff⟩ := sendLoop_offered (hflag true) hloop
    rcases hend with ⟨rfl, hnot, -⟩ | ⟨rfl, rfl⟩
    · exact ⟨hb1, hoff.mono fun _ => hnot⟩
    · have hb1' : InBounds cap { s1 with isSendOnline := false } := { hb1 with }
      exact ⟨hb1', hoff.mono fun hc => absurd rfl hc⟩

/-! ## Runs -/

/-- The invariant: the messages offered to `SSL_write` and the queue are the messages pushed, and
until a call fails none has been refused for good. -/
structure InOrder (cap : Nat) (w : Sender τ) : Prop where
  inBounds : InBounds cap w.session
  pushed_eq : w.session.log.sslWrites.map Prod.fst ++ w.session.sendAppQueue = w.pushed
  no_error : w.failed = false → ∀ r ∈ w.session.log.sslWrites, r.2 ≠ .error

theorem InOrder.of_offered {w : Sender τ} {clean : Prop} {failed : Bool} (h : InOrder cap w)
    (hb : InBounds cap s') (hoff : Offered w.session s' clean)
    (hfailed : failed = false → w.failed = false ∧ clean) : InOrder cap ⟨s', w.pushed, failed⟩ := by
  obtain ⟨new, hw, hq, he⟩ := hoff
  refine ⟨hb, ?_, fun hf r hr => ?_⟩
  · rw [hw, List.map_append, List.append_assoc, hq, h.pushed_eq]
  · obtain ⟨hf', hc⟩ := hfailed hf
    rw [hw] at hr
    rcases List.mem_append.mp hr with hr | hr
    · exact h.no_error hf' r hr
    · exact he hc r hr

/-- Every call keeps the invariant. -/
theorem inOrder_step {w w' : Sender τ} {op : SendOp} (h : InOrder cap w)
    (hstep : sendStep T cap w op = some w') : InOrder cap w' := by
  have hb := h.inBounds
  have hcap : 0 < cap := Nat.lt_of_le_of_lt (Nat.zero_le _) hb.receiveTlsHead
  cases op with
  | pushMessage messageType body =>
    obtain rfl := Option.some.inj hstep
    refine ⟨{ hb with }, ?_, h.no_error⟩
    rw [← h.pushed_eq, List.append_assoc]
    rfl
  | trySendAsync fuel taken =>
    simp only [sendStep] at hstep
    split at hstep
    · rename_i s' outcome hcall
      obtain rfl := Option.some.inj hstep
      obtain ⟨hb', hoff⟩ := trySendAsync_offered hb hcall
      exact h.of_offered hb' hoff fun hf => by simpa using hf
    · cases hstep
  | tryPostSend bytesTransferred =>
    obtain rfl := Option.some.inj hstep
    exact ⟨{ hb with sendTlsHead := Nat.mod_lt _ hcap }, h.pushed_eq, h.no_error⟩
  | tryPostReceive fuel bytesTransferred =>
    simp only [sendStep] at hstep
    split at hstep
    · rename_i s' v hcall
      obtain rfl := Option.some.inj hstep
      have hb1 : InBounds cap { w.session with
          isReceiveOnline := false
          receiveTlsBufferTail := (w.session.receiveTlsBufferTail + bytesTransferred) % cap } :=
        { hb with receiveTlsTail := Nat.mod_lt _ hcap }
      obtain ⟨hb', hoff⟩ := postReceiveLoop_offered hb1 hcall
      exact h.of_offered hb' hoff fun hf => by simpa using hf
    · cases hstep

/-- Of a log without errors, the accepted messages are all messages exactly if none wanted to
read. -/
theorem accepted_eq_iff {l : List (Bytes × WriteResult)} (hl : ∀ r ∈ l, r.2 ≠ .error) :
    (l.filter fun r => decide (r.2 = .success)).map Prod.fst = l.map Prod.fst ↔
      (l.filter fun r => decide (r.2 = .wantRead)).map Prod.fst = [] := by
  have hsome : ∀ r ∈ l, r.2 ≠ .wantRead → r.2 = .success := by
    intro r hr hne
    cases hrr : r.2 with
    | success => rfl
    | wantRead => exact absurd hrr hne
    | error => exact absurd hrr (hl r hr)
  constructor
  · intro h
    have hlen := congrArg List.length h
    rw [List.length_map, List.length_map, List.length_filter_eq_length_iff] at hlen
    rw [List.map_eq_nil_iff, List.filter_eq_nil_iff]
    intro r hr
    have hr' := hlen r hr
    simp only [decide_eq_true_eq] at hr' ⊢
    rw [hr']
    simp
  · intro h
    rw [List.map_eq_nil_iff, List.filter_eq_nil_iff] at h
    rw [List.filter_eq_self.mpr fun r hr => ?_]
    exact decide_eq_true (hsome r hr (by simpa using h r hr))

/-- **The outgoing messages.** In a run of calls on a new session in which no call has failed, the
messages that `SSL_write` accepted and the queue are the messages pushed, in order, exactly if
`SSL_write` has never answered `SSL_ERROR_WANT_READ`. -/
theorem accepted_append_queue_iff (T : Tls τ) (cap : Nat) (hcap : 0 < cap) (tls : τ)
    (buffer : Nat → UInt8) (ops : List SendOp) (w : Sender τ)
    (hrun : run (sendStep T cap) ⟨fresh tls buffer, [], false⟩ ops = some w)
    (hfailed : w.failed = false) :
    accepted w.session ++ w.session.sendAppQueue = w.pushed ↔ wantedRead w.session = [] := by
  have h : InOrder cap w := run_invariant' (P := InOrder cap) (fun _ _ _ => inOrder_step)
    ⟨inBounds_fresh tls buffer hcap, rfl, by simp [fresh]⟩ hrun
  rw [← h.pushed_eq, List.append_left_inj]
  exact accepted_eq_iff (h.no_error hfailed)

/-- An OpenSSL that answers the given list to `SSL_write`, and success after that. -/
def scriptedTls : Tls (List WriteResult) where
  sslRead t _ := (t, .wantRead)
  sslWrite t _ := (t.tail, t.headD .success)
  bioWrite t _ := t
  bioPending _ := 0
  bioRead t _ := (t, none)

/-- A sender after it has sent one message. -/
def oneMessageSent : Sender (List WriteResult) where
  session := { fresh [] (fun _ => 0) with
    isSendOnline := true
    log := { sslWrites := [(frame 1 [7], .success)] } }
  pushed := [frame 1 [7]]
  failed := false

theorem accepted_append_queue_iff_oneMessageSent :
    accepted oneMessageSent.session ++ oneMessageSent.session.sendAppQueue = oneMessageSent.pushed ↔
      wantedRead oneMessageSent.session = [] :=
  accepted_append_queue_iff scriptedTls 8 (by decide) [] (fun _ => 0)
    [.pushMessage 1 [7], .trySendAsync 1 true] oneMessageSent rfl rfl

/-- A message that `SSL_write` answers with `SSL_ERROR_WANT_READ` is gone after the next call. -/
theorem wantRead_loses_message : ∃ w,
    run (sendStep scriptedTls 8) ⟨fresh [.wantRead] fun _ => 0, [], false⟩
      [.pushMessage 1 [7], .trySendAsync 2 true] = some w ∧
    w.failed = false ∧ w.pushed = [frame 1 [7]] ∧
    accepted w.session = [] ∧ w.session.sendAppQueue = [] :=
  ⟨_, rfl, rfl, rfl, rfl, rfl⟩

end RatkiniaServer.Session
