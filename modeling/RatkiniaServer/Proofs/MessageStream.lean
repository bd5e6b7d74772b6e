import RatkiniaServer.Proofs.MessageDecoder

/-!
# The stream of pushed messages

The header that `PushMessage` writes has the size of the body in 16 bits. A message whose size fits
is a frame of the message format, so a sequence of such messages is decoded as it was pushed. A
longer one is queued in full behind a header with a smaller size, and the bytes that the header does
not count are taken for further messages.
-/

namespace RatkiniaServer.Session

open Framing

variable {τ : Type} {s : Session τ} {messages : List (UInt16 × Bytes)} {message : UInt16 × Bytes}

/-! ## One message -/

/-- The two parts of the buffer that `PushMessage` queues. -/
def frameOf (message : UInt16 × Bytes) : Frame UInt8 :=
  (storeUInt16 (htons message.1) ++
    storeUInt16 (htons (UInt16.ofNat (serializeToArray message.2).length)),
    serializeToArray message.2)

theorem frame_eq (message : UInt16 × Bytes) :
    frame message.1 (serializeToArray message.2) = (frameOf message).1 ++ (frameOf message).2 := rfl

@[simp] theorem length_serializeToArray (body : Bytes) :
    (serializeToArray body).length = body.length := by
  unfold serializeToArray
  split_ifs <;> simp

theorem serializeToArray_of_lt {body : Bytes} (h : body.length < 2 ^ 16) :
    serializeToArray body = body := if_pos (by omega)

/-- The bytes of a number in network byte order. -/
theorem storeUInt16_htons (v : UInt16) : ∃ high low : UInt8, storeUInt16 (htons v) = [high, low] ∧
    256 * high.toNat + low.toNat = v.toNat := by
  refine ⟨_, _, rfl, ?_⟩
  have hv := UInt16.toNat_lt v
  have hswap := toNat_htons v
  have hhigh : (htons v).toNat % 256 = v.toNat / 256 := by omega
  have hlow : (htons v).toNat / 256 = v.toNat % 256 := by omega
  have hshift : (htons v).toNat >>> 8 = (htons v).toNat / 256 := Nat.shiftRight_eq_div_pow _ 8
  rw [UInt16.toNat_toUInt8, UInt16.toNat_toUInt8, UInt16.toNat_shiftRight]
  change 256 * ((htons v).toNat % 256) + (htons v).toNat >>> 8 % 256 = _
  rw [hshift, hhigh, hlow]
  omega

/-- A representable message is a frame that carries it. -/
theorem frameOf_spec (h : Representable message) :
    messageFormat.Valid (frameOf message) ∧ messageOf (frameOf message) = message := by
  obtain ⟨messageType, body⟩ := message
  replace h : body.length < 2 ^ 16 := h
  obtain ⟨t0, t1, htype, htypeNat⟩ := storeUInt16_htons messageType
  obtain ⟨n0, n1, hsize, hsizeNat⟩ := storeUInt16_htons (UInt16.ofNat body.length)
  rw [UInt16.toNat_ofNat_of_lt' h] at hsizeNat
  have hframe : frameOf (messageType, body) = ([t0, t1, n0, n1], body) := by
    simp only [frameOf, serializeToArray_of_lt h, htype, hsize]
    rfl
  rw [hframe]
  refine ⟨⟨rfl, hsizeNat.symm⟩, ?_⟩
  change (UInt16.ofNat (256 * t0.toNat + t1.toNat), body) = _
  rw [htypeNat, UInt16.ofNat_toNat]

/-! ## Sequences of messages -/

theorem sendAppQueue_pushMessages (s : Session τ) (messages : List (UInt16 × Bytes)) :
    (s.pushMessages messages).sendAppQueue =
      s.sendAppQueue ++ messages.map fun m => frame m.1 (serializeToArray m.2) := by
  induction messages generalizing s with
  | nil => simp [pushMessages]
  | cons m messages ih =>
    change ((s.pushMessage m.1 (serializeToArray m.2)).pushMessages messages).sendAppQueue = _
    rw [ih, pushMessage, List.append_assoc]
    rfl

/-- What is queued is the stream of the frames. -/
theorem pushedStream_eq (s : Session τ) (messages : List (UInt16 × Bytes)) :
    s.pushedStream messages = Format.stream (messages.map frameOf) := by
  rw [pushedStream, sendAppQueue_pushMessages, List.drop_left, Format.stream, List.flatMap_map,
    List.flatMap]
  simp only [frame_eq]

theorem length_pushedStream (s : Session τ) (messages : List (UInt16 × Bytes)) :
    (s.pushedStream messages).length =
      (messages.map fun m => messageHeaderSize + m.2.length).sum := by
  rw [pushedStream_eq, Format.stream, List.flatMap_map]
  induction messages with
  | nil => rfl
  | cons m messages ih =>
    rw [List.flatMap_cons, List.length_append, ih, List.map_cons, List.sum_cons, List.length_append]
    simp [frameOf, storeUInt16, messageHeaderSize]

/-- Representable messages are decoded as they were pushed. -/
theorem pushedDecode_of_representable (s : Session τ) (h : ∀ m ∈ messages, Representable m) :
    PushedDecode s messages := by
  have hvalid : ∀ f ∈ messages.map frameOf, messageFormat.Valid f := by
    intro f hf
    obtain ⟨m, hm, rfl⟩ := List.mem_map.mp hf
    exact (frameOf_spec (h m hm)).1
  have hparse := Format.parse_stream_append hvalid []
  rw [List.append_nil, Format.parse_nil, List.append_nil] at hparse
  have hmessages : (messages.map frameOf).map messageOf = messages := by
    rw [List.map_map]
    conv_rhs => rw [← List.map_id messages]
    exact List.map_congr_left fun m hm => (frameOf_spec (h m hm)).2
  have hfilter : messages.filter (fun m => decide (Representable m)) = messages :=
    List.filter_eq_self.mpr fun m hm => decide_eq_true (h m hm)
  unfold PushedDecode parseMessages incompleteMessage
  rw [pushedStream_eq, hparse, hfilter, hmessages]
  exact ⟨rfl, rfl⟩

/-- The bytes of decoded messages whose stream is complete. -/
theorem length_of_complete {stream : Bytes} (h : incompleteMessage stream = []) :
    stream.length = ((parseMessages stream).map fun m => messageHeaderSize + m.2.length).sum := by
  have hall := Format.stream_parse_append (F := messageFormat) stream
  rw [incompleteMessage] at h
  rw [h, List.append_nil] at hall
  conv_lhs => rw [← hall]
  rw [Format.length_stream fun f hf => Format.valid_of_mem_parse hf, parseMessages, List.map_map]
  rfl

theorem sum_filter_le (l : List (UInt16 × Bytes)) :
    ((l.filter fun m => decide (Representable m)).map fun m => messageHeaderSize + m.2.length).sum ≤
      (l.map fun m => messageHeaderSize + m.2.length).sum := by
  induction l with
  | nil => exact Nat.le_refl _
  | cons m l ih =>
    by_cases hm : Representable m
    · rw [List.filter_cons_of_pos (by simpa using hm)]
      simp only [List.map_cons, List.sum_cons]
      exact Nat.add_le_add_left ih _
    · rw [List.filter_cons_of_neg (by simpa using hm)]
      simp only [List.map_cons, List.sum_cons]
      exact Nat.le_add_left_of_le ih

/-- A message that no header can represent leaves bytes in the stream that belong to no message. -/
theorem not_pushedDecode (s : Session τ) (hm : message ∈ messages) (hlarge : ¬ Representable message) :
    ¬ PushedDecode s messages := by
  rintro ⟨hdecoded, hcomplete⟩
  have hlength := length_of_complete hcomplete
  rw [hdecoded, length_pushedStream] at hlength
  obtain ⟨before, after, rfl⟩ := List.append_of_mem hm
  have hbefore := sum_filter_le before
  have hafter := sum_filter_le after
  rw [List.filter_append, List.filter_cons_of_neg (by simpa using hlarge)] at hlength
  simp only [List.map_append, List.map_cons, List.sum_append, List.sum_cons, messageHeaderSize]
    at hlength hbefore hafter
  omega

/-- **The stream of pushed messages.** What `PushMessage` queues for a sequence of messages is decoded
as that sequence, with those refused that no header can represent, exactly if the size of every body
fits into 16 bits. -/
theorem pushedDecode_iff (s : Session τ) (messages : List (UInt16 × Bytes)) :
    PushedDecode s messages ↔ ∀ m ∈ messages, m.2.length < 2 ^ 16 := by
  constructor
  · intro h m hm
    by_contra hlarge
    exact not_pushedDecode s hm hlarge h
  · exact pushedDecode_of_representable s

/-- After a body of 65536 bytes even a short message is not decoded as it was pushed. -/
theorem not_pushedDecode_longBody :
    ¬ PushedDecode (fresh () fun _ => 0) [(1, List.replicate 65536 0), (2, [7])] :=
  not_pushedDecode _ (List.mem_cons_self ..) (by
    unfold Representable
    rw [List.length_replicate]
    decide)

end RatkiniaServer.Session
