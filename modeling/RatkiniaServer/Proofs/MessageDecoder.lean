import RatkiniaServer.SessionRuns
import RatkiniaServer.Proofs.SessionCalls

/-!
# Decoding messages from the app ring

`PeekReceivedMessage` reads a header and a body that may each go around the end of the ring. The
messages it finds are those of the plain stream parser, however `SSL_read` has cut the stream.
-/

namespace RatkiniaServer.Session

open Ring Framing Transition

variable {τ : Type} {T : Tls τ} {cap messageMaxSize : Nat} {s s' : Session τ} {xs : Bytes}

/-! ## Byte order -/

theorem toNat_loadUInt16 (low high : UInt8) :
    (loadUInt16 low high).toNat = 256 * high.toNat + low.toNat := by
  have hl : low.toNat < 2 ^ 8 := UInt8.toNat_lt low
  have hh := UInt8.toNat_lt high
  have hshift : high.toNat <<< 8 % 2 ^ 16 = high.toNat <<< 8 := by
    rw [Nat.shiftLeft_eq]
    omega
  simp only [loadUInt16, UInt16.toNat_or, UInt16.toNat_shiftLeft, UInt8.toNat_toUInt16]
  change low.toNat ||| high.toNat <<< 8 % 2 ^ 16 = _
  rw [hshift, Nat.or_comm, ← Nat.shiftLeft_add_eq_or_of_lt hl, Nat.shiftLeft_eq]
  omega

theorem toNat_htons (v : UInt16) : (htons v).toNat = 256 * (v.toNat % 256) + v.toNat / 256 := by
  have hv := UInt16.toNat_lt v
  have hlow : v.toNat &&& 0xFF = v.toNat % 256 := Nat.and_two_pow_sub_one_eq_mod v.toNat 8
  have hhigh : (v.toNat &&& 0xFF00) >>> 8 = v.toNat / 256 := by
    have hmask : v.toNat / 256 &&& 0xFF = v.toNat / 256 % 256 :=
      Nat.and_two_pow_sub_one_eq_mod (v.toNat / 256) 8
    rw [Nat.shiftRight_and_distrib, Nat.shiftRight_eq_div_pow v.toNat 8]
    change v.toNat / 256 &&& 0xFF = _
    rw [hmask]
    omega
  have hlt : v.toNat / 256 < 2 ^ 8 := by omega
  simp only [htons, UInt16.toNat_or, UInt16.toNat_shiftLeft, UInt16.toNat_shiftRight,
    UInt16.toNat_and]
  change (v.toNat &&& 0xFF00) >>> 8 ||| (v.toNat &&& 0xFF) <<< 8 % 2 ^ 16 = _
  rw [hlow, hhigh, Nat.mod_eq_of_lt (by rw [Nat.shiftLeft_eq]; omega), Nat.or_comm,
    ← Nat.shiftLeft_add_eq_or_of_lt hlt, Nat.shiftLeft_eq]
  omega

/-- A big-endian number, read on a little-endian host and converted. -/
theorem toNat_htons_loadUInt16 (low high : UInt8) :
    (htons (loadUInt16 low high)).toNat = 256 * low.toNat + high.toNat := by
  have hl := UInt8.toNat_lt low
  have hh := UInt8.toNat_lt high
  rw [toNat_htons, toNat_loadUInt16]
  omega

/-- The header that `PeekReceivedMessage` computes is that of the message format. -/
theorem headerOf_eq (f : Frame UInt8) : (headerOf f.1).1 = (messageOf f).1 ∧
    (headerOf f.1).2.toNat = messageFormat.bodySize f.1 := by
  refine ⟨?_, toNat_htons_loadUInt16 _ _⟩
  apply UInt16.toNat_inj.mp
  have h0 := UInt8.toNat_lt (f.1.getD 0 0)
  have h1 := UInt8.toNat_lt (f.1.getD 1 0)
  rw [headerOf, toNat_htons_loadUInt16, messageOf, UInt16.toNat_ofNat_of_lt' (by
    change _ < 2 ^ 16
    omega)]

/-! ## One message -/

/-- `GetReadableSizes` on a ring that holds `xs`, together with the reads it is used for. -/
theorem getReadableSizes_spec {buf : Nat → UInt8} {head tail n : Nat}
    (hring : Holds cap buf head tail xs) :
    (xs.length < n → getReadableSizes cap head tail n = none) ∧
    (n ≤ xs.length → getReadableSizes cap head tail n =
        some (min n (cap - head), n - min n (cap - head)) ∧
      slice buf head (min n (cap - head)) ++ slice buf 0 (n - min n (cap - head)) = xs.take n) := by
  have hsize : getRingBufferSize cap head tail = xs.length := hring.size_eq
  have hlt := hring.length_lt
  refine ⟨fun h => ?_, fun h => ⟨?_, ?_⟩⟩
  · rw [getReadableSizes, hsize, if_pos h]
  · rw [getReadableSizes, hsize, if_neg (by omega)]
  · rw [← content_eq_slices hring.head_lt (by omega), ← hring.content_eq,
      take_content (by rw [hring.size_eq]; exact h)]

variable (messageMaxSize) in
/-- `PeekReceivedMessage` finds the first frame of what the ring holds, if it is complete. The body of
one that goes around the end of the ring has to fit into `ReceiveContiguousPopBuffer`. -/
theorem peekAt_spec {buf : Nat → UInt8} {head tail : Nat} (hring : Holds cap buf head tail xs) :
    (messageFormat.next xs = none → peekAt cap messageMaxSize buf head tail = .ok none) ∧
    ∀ f rest, messageFormat.next xs = some (f, rest) →
      peekAt cap messageMaxSize buf head tail =
        .ok (some ⟨(messageOf f).1, (headerOf f.1).2, (messageOf f).2⟩) ∨
      messageMaxSize < messageFormat.bodySize f.1 ∧
        peekAt cap messageMaxSize buf head tail = .error .overrun := by
  obtain ⟨hshort, hlong⟩ := getReadableSizes_spec (n := messageHeaderSize) hring
  by_cases hlen : xs.length < messageHeaderSize
  · have hpeek : peekAt cap messageMaxSize buf head tail = .ok none := by
      simp only [peekAt, hshort hlen]
    refine ⟨fun _ => hpeek, fun f rest hf => ?_⟩
    rw [Format.next_eq_none_iff.mpr (Or.inl hlen)] at hf
    cases hf
  · obtain ⟨hsizes, hheader⟩ := hlong (by omega)
    have hrest := hring.dequeue (m := messageHeaderSize) (by omega)
    set header := xs.take messageHeaderSize with hhdr
    obtain ⟨hbshort, hblong⟩ := getReadableSizes_spec (n := (headerOf header).2.toNat) hrest
    have hbody : (headerOf header).2.toNat = messageFormat.bodySize header :=
      (headerOf_eq (header, [])).2
    rw [List.length_drop] at hbshort hblong
    constructor
    · intro hnone
      have hincomplete : xs.length < messageHeaderSize + messageFormat.bodySize header :=
        (Format.next_eq_none_iff.mp hnone).resolve_left hlen
      simp only [peekAt, hsizes, hheader, hbshort (by omega)]
    · intro f rest hf
      obtain ⟨hxs, hflen, hblen⟩ := Format.next_eq_some_iff.mp hf
      replace hflen : f.1.length = messageHeaderSize := hflen
      have hf1 : header = f.1 := by
        rw [hhdr, hxs]
        exact List.take_left' hflen
      have hxlen : xs.length = messageHeaderSize + messageFormat.bodySize header + rest.length := by
        rw [hxs, hf1, List.length_append, List.length_append, hflen, hblen, Nat.add_assoc]
      obtain ⟨hbsizes, hbslices⟩ := hblong (by omega)
      have hf2 : (xs.drop messageHeaderSize).take (headerOf header).2.toNat = f.2 := by
        rw [hbody, hxs, hf1, List.drop_left' hflen, List.take_left' hblen]
      rw [hf2] at hbslices
      simp only [peekAt, hsizes, hheader, hbsizes]
      split_ifs with hcontig hover
      · -- The body does not go around the end of the ring.
        rw [hcontig, Nat.sub_self, slice_zero, List.append_nil] at hbslices
        rw [hbslices, hf1, (headerOf_eq f).1]
        exact Or.inl rfl
      · exact Or.inr ⟨by rw [← hf1]; omega, rfl⟩
      · rw [hbslices, hf1, (headerOf_eq f).1]
        exact Or.inl rfl

/-! ## The loop of `PostReceive` -/

theorem headersFit_of_next {f : Frame UInt8} {rest : Bytes} (h : HeadersFit messageMaxSize xs)
    (hf : messageFormat.next xs = some (f, rest)) : HeadersFit messageMaxSize rest ∧
      messageHeaderSize + messageFormat.bodySize f.1 ≤ messageMaxSize := by
  unfold HeadersFit incompleteMessage at h ⊢
  rw [Format.parse_of_some hf] at h
  exact ⟨⟨fun g hg => h.1 g (List.mem_cons_of_mem _ hg), h.2⟩, h.1 f (List.mem_cons_self ..)⟩

/-- The loop of `PostReceive` ends; it hands out the complete messages that the ring holds and leaves
the incomplete one. -/
theorem drainLoop_spec {fuel : Nat}
    (hring : Holds cap s.receiveAppBuffer s.receiveAppBufferHead s.receiveAppBufferTail xs)
    (hfit : HeadersFit messageMaxSize xs) (hfuel : xs.length < fuel) :
    ∃ head, drainLoop cap messageMaxSize fuel s =
        .ok ({ s with receiveAppBufferHead := head }, parseMessages xs) ∧
      Holds cap s.receiveAppBuffer head s.receiveAppBufferTail (incompleteMessage xs) := by
  induction fuel generalizing s xs with
  | zero => omega
  | succ fuel ih =>
    obtain ⟨hnone, hsome⟩ := peekAt_spec messageMaxSize hring
    rw [drainLoop, peekReceivedMessage]
    cases hnext : messageFormat.next xs with
    | none =>
      refine ⟨s.receiveAppBufferHead, ?_, ?_⟩
      · simp only [hnone hnext, bind, Except.bind, parseMessages, Format.parse_of_none hnext,
          List.map_nil]
      · rwa [incompleteMessage, Format.parse_of_none hnext]
    | some r =>
      obtain ⟨f, rest⟩ := r
      obtain ⟨hxs, hflen, hblen⟩ := Format.next_eq_some_iff.mp hnext
      replace hflen : f.1.length = messageHeaderSize := hflen
      have hsize : (headerOf f.1).2.toNat = f.2.length := by rw [(headerOf_eq f).2, hblen]
      have hdrop : xs.drop (messageHeaderSize + (headerOf f.1).2.toNat) = rest := by
        rw [hsize, hxs, ← List.append_assoc]
        exact List.drop_left' (by rw [List.length_append, hflen])
      have hle : messageHeaderSize + (headerOf f.1).2.toNat ≤ xs.length := by
        rw [hsize, hxs, List.length_append, List.length_append, hflen]
        omega
      have hring' := hring.dequeue hle
      rw [hdrop] at hring'
      have hrest := Format.length_lt_of_next hnext
      have hpeek := (hsome f rest hnext).resolve_right fun hover => by
        have hfits := (headersFit_of_next hfit hnext).2
        omega
      obtain ⟨head, hdrain, hholds⟩ := ih
        (s := s.popReceivedMessage cap (messageHeaderSize + (headerOf f.1).2.toNat)) hring'
        (headersFit_of_next hfit hnext).1 (by omega)
      refine ⟨head, ?_, ?_⟩
      · simp only [hpeek, bind, Except.bind, hdrain, parseMessages,
          Format.parse_of_some hnext, List.map_cons]
        rfl
      · rw [incompleteMessage, Format.parse_of_some hnext]
        exact hholds

/-! ## Runs -/

/-- The assumptions on a round: `TryProcessReceiveBuffers` returns and does not fail, and all headers
read so far announce a body that fits. -/
def Decodable (T : Tls τ) (messageMaxSize : Nat) (d : Decoder τ) (a : Arrival τ) : Prop :=
  ∃ s r, (d.session.arrive a).tryProcessReceiveBuffers T (bufferCapacity messageMaxSize) =
    .ok (s, r) ∧ r ≠ .failed ∧ HeadersFit messageMaxSize s.log.decrypted

/-- What has been emitted are the messages of all bytes read so far, and the ring holds the incomplete
message at their end. -/
structure Decoded (messageMaxSize : Nat) (d : Decoder τ) : Prop where
  emitted_eq : d.emitted = parseMessages d.session.log.decrypted
  holds : Holds (bufferCapacity messageMaxSize) d.session.receiveAppBuffer
    d.session.receiveAppBufferHead d.session.receiveAppBufferTail
    (incompleteMessage d.session.log.decrypted)

theorem headersFit_incomplete {ys : Bytes} (h : HeadersFit messageMaxSize (xs ++ ys)) :
    HeadersFit messageMaxSize (incompleteMessage xs ++ ys) := by
  unfold HeadersFit incompleteMessage at *
  rw [Format.parse_append] at h
  exact ⟨fun f hf => h.1 f (List.mem_append_right _ hf), h.2⟩

/-- One round. -/
theorem decodeStep_spec {d : Decoder τ} {a : Arrival τ} (h : Decoded messageMaxSize d)
    (hok : Decodable T messageMaxSize d a) :
    ∃ d', decodeStep T messageMaxSize d a = some d' ∧ Decoded messageMaxSize d' := by
  obtain ⟨s, r, hcall, hr, hfit⟩ := hok
  obtain ⟨-, -, -, ys, hlog, hholds⟩ := tryProcessReceiveBuffers_frame
    (s := d.session.arrive a) h.holds hcall
  have hring := hholds hr
  rw [hlog] at hfit
  obtain ⟨head, hdrain, hleft⟩ := drainLoop_spec hring (headersFit_incomplete hfit) hring.length_lt
  have hparse : parseMessages (d.session.log.decrypted ++ ys) =
      parseMessages d.session.log.decrypted ++
        parseMessages (incompleteMessage d.session.log.decrypted ++ ys) := by
    simp only [parseMessages, incompleteMessage]
    rw [Format.parse_append, List.map_append]
  have hrest : incompleteMessage (d.session.log.decrypted ++ ys) =
      incompleteMessage (incompleteMessage d.session.log.decrypted ++ ys) := by
    simp only [incompleteMessage]
    rw [Format.parse_append]
  refine ⟨⟨{ s with receiveAppBufferHead := head }, d.emitted ++
    parseMessages (incompleteMessage d.session.log.decrypted ++ ys)⟩, ?_, ?_, ?_⟩
  · simp only [decodeStep, hcall]
    cases r with
    | failed => exact absurd rfl hr
    | success => simp only [hdrain]
    | wantProcessSendBuffers => simp only [hdrain]
  · change _ = parseMessages s.log.decrypted
    rw [hlog, h.emitted_eq]
    exact hparse.symm
  · change Holds _ _ _ _ (incompleteMessage s.log.decrypted)
    rw [hlog]
    change Holds _ _ _ _ (incompleteMessage (d.session.log.decrypted ++ ys))
    rw [hrest]
    exact hleft

/-- **The decoder.** From an empty app ring at any position, and for any arrivals, a run of rounds goes
through, the messages emitted are those of the plain stream parser on all bytes that `SSL_read` has
returned, and the ring is left with exactly the incomplete message at their end. -/
theorem decode_eq_parse (T : Tls τ) (messageMaxSize : Nat) (s : Session τ)
    (hempty : s.receiveAppBufferHead = s.receiveAppBufferTail)
    (hlt : s.receiveAppBufferTail < bufferCapacity messageMaxSize) (hlog : s.log.decrypted = [])
    (arrivals : List (Arrival τ))
    (hok : Meets (decodeStep T messageMaxSize) (Decodable T messageMaxSize) ⟨s, []⟩ arrivals) :
    ∃ d, run (decodeStep T messageMaxSize) ⟨s, []⟩ arrivals = some d ∧
      d.emitted = parseMessages d.session.log.decrypted ∧
      Holds (bufferCapacity messageMaxSize) d.session.receiveAppBuffer
        d.session.receiveAppBufferHead d.session.receiveAppBufferTail
        (incompleteMessage d.session.log.decrypted) := by
  have hstart : Decoded messageMaxSize (⟨s, []⟩ : Decoder τ) := by
    refine ⟨?_, ?_⟩
    · change [] = parseMessages s.log.decrypted
      rw [hlog, parseMessages, Format.parse_nil]
      rfl
    · change Holds _ _ _ _ (incompleteMessage s.log.decrypted)
      rw [hlog, incompleteMessage, Format.parse_nil]
      change Holds _ _ s.receiveAppBufferHead s.receiveAppBufferTail []
      rw [hempty]
      exact holds_empty hlt
  obtain ⟨d, hrun, hd⟩ := run_total (fun _ _ => decodeStep_spec) hstart hok
  exact ⟨d, hrun, hd.emitted_eq, hd.holds⟩

/-- An OpenSSL whose `SSL_read` returns the given chunks in turn, and then wants to read. -/
def chunkedTls : Tls (List Bytes) where
  sslRead t n :=
    match t with
    | [] => ([], .wantRead)
    | bs :: rest =>
      if h : 0 < bs.length ∧ bs.length ≤ n then (rest, .bytes bs h.1 h.2) else (bs :: rest, .wantRead)
  sslWrite t _ := (t, .success)
  bioWrite t _ := t
  bioPending _ := 0
  bioRead t _ := (t, none)

/-- A new session whose app ring is about to go around its end. -/
def nearEnd : Session (List Bytes) :=
  { fresh [] (fun _ => 0) with receiveAppBufferHead := 30, receiveAppBufferTail := 30 }

/-- A message of type 1 with the body 5, 6, in three chunks that meet the end of the ring. -/
theorem decode_eq_parse_nearEnd : ∃ d, run (decodeStep chunkedTls 8) ⟨nearEnd, []⟩
      [⟨[[0], [1], [0, 2, 5, 6]], fun _ => 0, 0, 0⟩] = some d ∧
    d.emitted = parseMessages d.session.log.decrypted ∧
    Holds (bufferCapacity 8) d.session.receiveAppBuffer d.session.receiveAppBufferHead
      d.session.receiveAppBufferTail (incompleteMessage d.session.log.decrypted) := by
  have hnext : messageFormat.next [0, 1, 0, 2, 5, 6] = some (([0, 1, 0, 2], [5, 6]), []) := by decide
  have hfit : HeadersFit 8 [0, 1, 0, 2, 5, 6] := by
    simp only [HeadersFit, incompleteMessage, Format.parse_of_some hnext, Format.parse_nil]
    decide
  exact decode_eq_parse chunkedTls 8 nearEnd rfl (by decide) rfl
    [⟨[[0], [1], [0, 2, 5, 6]], fun _ => 0, 0, 0⟩]
    ⟨⟨_, _, rfl, by decide, hfit⟩, fun _ _ => trivial⟩

end RatkiniaServer.Session
