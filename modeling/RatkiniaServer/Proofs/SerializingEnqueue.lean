import RatkiniaServer.SerializingEnqueue
import RatkiniaServer.Proofs.SpscRingBuffer

/-!
# The two paths of `TryEnqueue`

Up to the end of the ring a message serializes itself to where `memcpy` would put its bytes. A message
that wraps around goes through `tempEnqueueBuffer_`, which is null.
-/

namespace RatkiniaServer.SpscRingBuffer

open Ring Transition

namespace EnqueueSide

variable {s s' : EnqueueSide} {capacity maxBlockSize : Nat} {b : Bytes}

/-! ## What is claimed -/

/-- Both paths return, with the same result, and leave the same ring bytes, head and tail. -/
def Agrees (s : EnqueueSide) (b : Bytes) : Prop :=
  ∃ s1 s2 r, s.tryEnqueueBytes b = .ok (s1, r) ∧ s.tryEnqueueMessage b = .ok (s2, r) ∧
    s2.ringBuffer = s1.ringBuffer ∧ s2.head = s1.head ∧ s2.tail = s1.tail

/-- The ring is too full for `b`, or `b` fits before its end. In the latter case the size of `b` is an
`int`, or its bytes are in the ring already. -/
def RefusedOrContiguous (s : EnqueueSide) (b : Bytes) : Prop :=
  s.available < b.length ∨ b.length ≤ s.capacity - s.tail ∧
    (b.length < 2 ^ 31 ∨ slice s.ringBuffer s.tail b.length = b)

/-! ## Reachable states -/

/-- A sequence of two steps that succeeds. -/
theorem exists_of_bind_eq_ok {α β : Type} {x : Except Undefined α} {f : α → Except Undefined β} {y : β}
    (h : x >>= f = .ok y) : ∃ a, x = .ok a ∧ f a = .ok y := by
  cases x with
  | error e => cases h
  | ok a => exact ⟨a, rfl, h⟩

/-- What the constructor leaves and no call changes. -/
structure Built (capacity maxBlockSize : Nat) (s : EnqueueSide) : Prop where
  capacity_eq : s.capacity = capacity
  maxBlockSize_eq : s.maxBlockSize = maxBlockSize
  temp_eq : s.tempEnqueueBuffer = none
  head_lt : s.head < max capacity 1
  tail_lt : s.tail < max capacity 1

theorem built_construct : Built capacity maxBlockSize (construct capacity maxBlockSize) :=
  ⟨rfl, rfl, rfl, Nat.le_max_right capacity 1, Nat.le_max_right capacity 1⟩

/-- An index that is stored. -/
theorem mod_lt_max {n : Nat} (hne : ¬ capacity = 0) : n % capacity < max capacity 1 :=
  Nat.lt_of_lt_of_le (Nat.mod_lt _ (Nat.pos_of_ne_zero hne)) (Nat.le_max_left ..)

theorem Built.storeTail {size : Nat} (h : Built capacity maxBlockSize s)
    (heq : s.storeTail size = .ok s') : Built capacity maxBlockSize s' := by
  unfold EnqueueSide.storeTail at heq
  split_ifs at heq with hzero
  obtain rfl := Except.ok.inj heq
  refine ⟨h.capacity_eq, h.maxBlockSize_eq, h.temp_eq, h.head_lt, ?_⟩
  rw [h.capacity_eq] at hzero ⊢
  exact mod_lt_max hzero

theorem Built.setRing (h : Built capacity maxBlockSize s) (ringBuffer : Nat → UInt8) :
    Built capacity maxBlockSize { s with ringBuffer := ringBuffer } :=
  ⟨h.capacity_eq, h.maxBlockSize_eq, h.temp_eq, h.head_lt, h.tail_lt⟩

theorem Built.copy {primary secondary : Bytes} (h : Built capacity maxBlockSize s)
    (heq : s.copy primary secondary = .ok s') : Built capacity maxBlockSize s' := by
  unfold EnqueueSide.copy at heq
  split_ifs at heq
  obtain rfl := Except.ok.inj heq
  exact h.setRing _

theorem Built.tryEnqueueBytes {r : Bool} (h : Built capacity maxBlockSize s)
    (heq : s.tryEnqueueBytes b = .ok (s', r)) : Built capacity maxBlockSize s' := by
  unfold EnqueueSide.tryEnqueueBytes at heq
  split_ifs at heq
  · obtain ⟨rfl, -⟩ := Prod.mk.inj (Except.ok.inj heq)
    exact h
  · obtain ⟨s1, hcopy, heq⟩ := exists_of_bind_eq_ok heq
    obtain ⟨s2, hstore, heq⟩ := exists_of_bind_eq_ok heq
    obtain ⟨rfl, -⟩ := Prod.mk.inj (Except.ok.inj heq)
    exact (h.copy hcopy).storeTail hstore

theorem Built.serialize {primarySize secondarySize : Nat} (h : Built capacity maxBlockSize s)
    (heq : s.serialize b primarySize secondarySize = .ok s') : Built capacity maxBlockSize s' := by
  unfold EnqueueSide.serialize at heq
  rw [h.temp_eq] at heq
  split_ifs at heq
  obtain rfl := Except.ok.inj heq
  exact ⟨h.capacity_eq, h.maxBlockSize_eq, rfl, h.head_lt, h.tail_lt⟩

theorem Built.tryEnqueueMessage {r : Bool} (h : Built capacity maxBlockSize s)
    (heq : s.tryEnqueueMessage b = .ok (s', r)) : Built capacity maxBlockSize s' := by
  unfold EnqueueSide.tryEnqueueMessage at heq
  split_ifs at heq
  · obtain ⟨rfl, -⟩ := Prod.mk.inj (Except.ok.inj heq)
    exact h
  · obtain ⟨s1, hserialize, heq⟩ := exists_of_bind_eq_ok heq
    obtain ⟨s2, hstore, heq⟩ := exists_of_bind_eq_ok heq
    obtain ⟨rfl, -⟩ := Prod.mk.inj (Except.ok.inj heq)
    exact (h.serialize hserialize).storeTail hstore

theorem Built.dequeue {size : Nat} (h : Built capacity maxBlockSize s)
    (heq : s.dequeue size = .ok s') : Built capacity maxBlockSize s' := by
  unfold EnqueueSide.dequeue at heq
  split_ifs at heq with hzero
  obtain rfl := Except.ok.inj heq
  refine ⟨h.capacity_eq, h.maxBlockSize_eq, h.temp_eq, ?_, h.tail_lt⟩
  rw [h.capacity_eq] at hzero ⊢
  exact mod_lt_max hzero

theorem eq_ok_of_toOption {ε β : Type} {result : Except ε β} {x : β}
    (h : result.toOption = some x) : result = .ok x := by
  cases result with
  | error e => cases h
  | ok y => exact congrArg Except.ok (Option.some.inj h)

theorem Built.step {call : Call} (h : Built capacity maxBlockSize s)
    (hstep : s.step call = some s') : Built capacity maxBlockSize s' := by
  cases call with
  | tryEnqueueBytes data =>
    obtain ⟨result, heq, rfl⟩ := Option.map_eq_some_iff.mp hstep
    exact h.tryEnqueueBytes (eq_ok_of_toOption heq)
  | tryEnqueueMessage b =>
    obtain ⟨result, heq, rfl⟩ := Option.map_eq_some_iff.mp hstep
    exact h.tryEnqueueMessage (eq_ok_of_toOption heq)
  | dequeue size => exact h.dequeue (eq_ok_of_toOption hstep)

/-! ## Space -/

theorem Built.available_lt (h : Built capacity maxBlockSize s) (hpos : 0 < capacity)
    (hcapacity : capacity < 2 ^ 64) : s.available < capacity := by
  have hh := h.head_lt
  have ht := h.tail_lt
  unfold available bufferSize
  rw [h.capacity_eq]
  split_ifs <;> omega

/-- Without a capacity everything seems to fit, but no call returns. -/
theorem Built.not_agrees_of_zero (h : Built 0 maxBlockSize s) (hb : b.length < 2 ^ 64) :
    ¬ Agrees s b := by
  rintro ⟨s1, s2, r, heq, -⟩
  have havailable : s.available = 2 ^ 64 - 1 := by
    rw [available, h.capacity_eq, Nat.lt_one_iff.mp h.head_lt, Nat.lt_one_iff.mp h.tail_lt]
    rfl
  unfold EnqueueSide.tryEnqueueBytes at heq
  rw [if_neg (by omega)] at heq
  obtain ⟨s1, hcopy, heq⟩ := exists_of_bind_eq_ok heq
  obtain ⟨s2, hstore, -⟩ := exists_of_bind_eq_ok heq
  unfold EnqueueSide.storeTail at hstore
  rw [if_pos (h.copy hcopy).capacity_eq] at hstore
  cases hstore

/-! ## The two paths -/

theorem storeTail_eq (hpos : 0 < s.capacity) (size : Nat) :
    s.storeTail size = .ok { s with tail := (s.tail + size) % 2 ^ 64 % s.capacity } :=
  if_neg (Nat.ne_of_gt hpos)

theorem copy_eq {primary secondary : Bytes} (hle : secondary.length ≤ s.capacity) :
    s.copy primary secondary =
      .ok { s with ringBuffer := write (write s.ringBuffer s.tail primary) 0 secondary } :=
  if_neg (Nat.not_lt.mpr hle)

/-- With a capacity, raw bytes for which there is space are always copied. -/
theorem Built.tryEnqueueBytes_eq (h : Built capacity maxBlockSize s) (hpos : 0 < capacity)
    (hcapacity : capacity < 2 ^ 64) (hroom : b.length ≤ s.available) :
    s.tryEnqueueBytes b = .ok ({ s with
      ringBuffer := write (write s.ringBuffer s.tail (b.take (min b.length (s.capacity - s.tail)))) 0
        (b.drop (min b.length (s.capacity - s.tail)))
      tail := (s.tail + b.length) % 2 ^ 64 % s.capacity }, true) := by
  have hlt := h.available_lt hpos hcapacity
  have hcapacity_eq := h.capacity_eq
  have hle : (b.drop (min b.length (s.capacity - s.tail))).length ≤ s.capacity := by
    rw [List.length_drop]
    omega
  rw [EnqueueSide.tryEnqueueBytes, if_neg (Nat.not_lt.mpr hroom)]
  simp only [copy_eq hle, bind, Except.bind]
  rw [storeTail_eq (hcapacity_eq.symm ▸ hpos)]

/-- A message that fits before the end of the ring. -/
theorem Built.tryEnqueueMessage_contiguous (h : Built capacity maxBlockSize s) (hpos : 0 < capacity)
    (hroom : b.length ≤ s.available) (hend : b.length ≤ s.capacity - s.tail) :
    s.tryEnqueueMessage b = .ok ({ s with
      ringBuffer := serializeTo s.ringBuffer s.tail b
      tail := (s.tail + b.length) % 2 ^ 64 % s.capacity }, true) := by
  have hserialize : s.serialize b b.length 0 =
      .ok { s with ringBuffer := serializeTo s.ringBuffer s.tail b } := if_pos rfl
  rw [EnqueueSide.tryEnqueueMessage, if_neg (Nat.not_lt.mpr hroom)]
  simp only [Nat.min_eq_left hend, Nat.sub_self, hserialize, bind, Except.bind]
  rw [storeTail_eq (h.capacity_eq.symm ▸ hpos)]

/-- A message that does not. -/
theorem Built.tryEnqueueMessage_wrapped (h : Built capacity maxBlockSize s)
    (hroom : b.length ≤ s.available) (hend : s.capacity - s.tail < b.length) :
    s.tryEnqueueMessage b = .error .nullTemp := by
  have hserialize : s.serialize b (s.capacity - s.tail) (b.length - (s.capacity - s.tail)) =
      .error .nullTemp := by
    rw [EnqueueSide.serialize, if_neg (by omega), h.temp_eq]
  rw [EnqueueSide.tryEnqueueMessage, if_neg (Nat.not_lt.mpr hroom)]
  simp only [Nat.min_eq_right (Nat.le_of_lt hend), hserialize, bind, Except.bind]

/-! ## The steps of the path of raw bytes -/

/-- The ring without its users, as a new ring would be with these bytes and indices. -/
def between (capacity maxBlockSize : Nat) (s : SpscRingBuffer) : EnqueueSide :=
  ⟨capacity, maxBlockSize, s.ringBuffer, none, s.head, s.tail⟩

/-- The ring after the first `copied` bytes of `data`, of which the first `primarySize` are contiguous. -/
def partlyCopied (ringBuffer : Nat → UInt8) (loadedTail primarySize : Nat) (data : Bytes)
    (copied : Nat) : Nat → UInt8 :=
  write (write ringBuffer loadedTail ((data.take primarySize).take copied)) 0
    ((data.drop primarySize).take (copied - primarySize))

/-- The byte that is copied next. -/
theorem write_partlyCopied {ringBuffer : Nat → UInt8} {loadedTail primarySize copied : Nat}
    {data : Bytes} (hcopied : copied < data.length) :
    write (partlyCopied ringBuffer loadedTail primarySize data copied)
        (blockPosition loadedTail primarySize copied) [data[copied]] =
      partlyCopied ringBuffer loadedTail primarySize data (copied + 1) := by
  unfold partlyCopied blockPosition
  split_ifs with hprimary
  · have hlength : ((data.take primarySize).take copied).length = copied := by
      rw [List.length_take, List.length_take]
      omega
    have hnext : (data.take primarySize).take (copied + 1) =
        (data.take primarySize).take copied ++ [data[copied]] := by
      rw [List.take_succ_eq_append_getElem (by rw [List.length_take]; omega), List.getElem_take]
    have happend := write_append ringBuffer loadedTail ((data.take primarySize).take copied)
      [data[copied]]
    rw [hlength] at happend
    rw [Nat.sub_eq_zero_of_le (Nat.le_of_lt hprimary), Nat.sub_eq_zero_of_le hprimary, List.take_zero,
      write_nil, write_nil, happend, hnext]
  · have hle : primarySize ≤ copied := Nat.le_of_not_lt hprimary
    have hall (n : Nat) (hn : primarySize ≤ n) :
        (data.take primarySize).take n = data.take primarySize := by
      rw [List.take_take, Nat.min_eq_right hn]
    have hlength : ((data.drop primarySize).take (copied - primarySize)).length =
        copied - primarySize := by
      rw [List.length_take, List.length_drop]
      omega
    have hnext : (data.drop primarySize).take (copied + 1 - primarySize) =
        (data.drop primarySize).take (copied - primarySize) ++ [data[copied]] := by
      rw [Nat.sub_add_comm hle,
        List.take_succ_eq_append_getElem (by rw [List.length_drop]; omega), List.getElem_drop]
      simp only [Nat.add_sub_cancel' hle]
    have happend := write_append (write ringBuffer loadedTail (data.take primarySize)) 0
      ((data.drop primarySize).take (copied - primarySize)) [data[copied]]
    rw [hlength, Nat.zero_add] at happend
    rw [hall copied hle, hall (copied + 1) (Nat.le_succ_of_le hle), happend, hnext]

/-- The steps from a byte on to the end of the call. -/
theorem run_partlyCopied (capacity maxBlockSize : Nat) (ringBuffer : Nat → UInt8)
    {loadedTail primarySize copied m : Nat} {data : Bytes} {t : SpscRingBuffer}
    (hprimary : min data.length (capacity - loadedTail) = primarySize)
    (hproducer : t.producer = .copying data loadedTail copied)
    (hbuffer : t.ringBuffer = partlyCopied ringBuffer loadedTail primarySize data copied)
    (hm : data.length = copied + m) :
    run (SpscRingBuffer.step capacity maxBlockSize) t (List.replicate (m + 1) .produce) = some { t with
      ringBuffer := partlyCopied ringBuffer loadedTail primarySize data data.length
      tail := (loadedTail + data.length) % 2 ^ 64 % capacity
      producer := .idle
      results := t.results ++ [(data, true)] } := by
  induction m generalizing t copied with
  | zero =>
    have hstep : t.produce capacity = some { t with
        tail := (loadedTail + data.length) % 2 ^ 64 % capacity
        producer := .idle
        results := t.results ++ [(data, true)] } := by
      simp only [SpscRingBuffer.produce, hproducer]
      exact dif_neg (by omega)
    refine run_cons_eq_some.mpr ⟨_, hstep, congrArg some ?_⟩
    rw [hm, Nat.add_zero, ← hbuffer]
  | succ m ih =>
    have hcopied : copied < data.length := by omega
    have hstep : t.produce capacity = some { t with
        ringBuffer := write t.ringBuffer (blockPosition loadedTail primarySize copied) [data[copied]]
        producer := .copying data loadedTail (copied + 1) } := by
      simp only [SpscRingBuffer.produce, hproducer, hprimary]
      exact dif_pos hcopied
    refine run_cons_eq_some.mpr ⟨_, hstep, ih rfl ?_ (by omega)⟩
    rw [hbuffer]
    exact write_partlyCopied hcopied

theorem available_between (maxBlockSize : Nat) (hpos : 0 < capacity) (hcapacity : capacity < 2 ^ 64)
    {t : SpscRingBuffer} (hh : t.head < capacity) (ht : t.tail < capacity) :
    (between capacity maxBlockSize t).available = availableSize capacity t.head t.tail := by
  have hsize : bufferSize capacity t.head t.tail < capacity := by
    unfold bufferSize
    split_ifs <;> omega
  change (2 ^ 64 + capacity - bufferSize capacity t.head t.tail - 1) % 2 ^ 64 = _
  rw [availableSize]
  omega

/-- Without a concurrent step, the steps of `TryEnqueue` make up the call. -/
theorem run_tryEnqueueBytes {t : SpscRingBuffer} (hidle : t.producer = .idle) (hpos : 0 < capacity)
    (hcapacity : capacity < 2 ^ 64) (hh : t.head < capacity) (ht : t.tail < capacity) (data : Bytes) :
    ∃ k t' r, run (SpscRingBuffer.step capacity maxBlockSize) t
        (.tryEnqueue data :: List.replicate k .produce) = some t' ∧
      t'.results = t.results ++ [(data, r)] ∧ (between capacity maxBlockSize t).tryEnqueueBytes data =
        .ok (between capacity maxBlockSize t', r) := by
  have hbuilt : Built capacity maxBlockSize (between capacity maxBlockSize t) :=
    ⟨rfl, rfl, rfl, Nat.lt_of_lt_of_le hh (Nat.le_max_left ..),
      Nat.lt_of_lt_of_le ht (Nat.le_max_left ..)⟩
  have havailable := available_between maxBlockSize hpos hcapacity hh ht
  have hcall : SpscRingBuffer.step capacity maxBlockSize t (.tryEnqueue data) =
      some { t with producer := .called data } := if_pos hidle
  have hload : SpscRingBuffer.step capacity maxBlockSize { t with producer := .called data } .produce =
      some { t with producer := .headLoaded data t.head } := rfl
  by_cases hroom : data.length ≤ availableSize capacity t.head t.tail
  · have hcheck : SpscRingBuffer.step capacity maxBlockSize
        { t with producer := .headLoaded data t.head } .produce =
        some { t with producer := .copying data t.tail 0 } := if_neg (Nat.not_lt.mpr hroom)
    have hnone : t.ringBuffer = partlyCopied t.ringBuffer t.tail
        (min data.length (capacity - t.tail)) data 0 := by
      simp [partlyCopied]
    have hcopy := run_partlyCopied capacity maxBlockSize t.ringBuffer
      (t := { t with producer := .copying data t.tail 0 }) rfl rfl hnone (Nat.zero_add _).symm
    refine ⟨data.length + 1 + 1 + 1, _, true, run_cons_eq_some.mpr ⟨_, hcall,
      run_cons_eq_some.mpr ⟨_, hload, run_cons_eq_some.mpr ⟨_, hcheck, hcopy⟩⟩⟩, rfl, ?_⟩
    rw [hbuilt.tryEnqueueBytes_eq hpos hcapacity (by rw [havailable]; exact hroom)]
    simp only [between, partlyCopied]
    rw [List.take_of_length_le (List.length_take_le' ..),
      List.take_of_length_le (Nat.le_of_eq List.length_drop)]
  · have hrefused : availableSize capacity t.head t.tail < data.length := Nat.not_le.mp hroom
    have hcheck : SpscRingBuffer.step capacity maxBlockSize
        { t with producer := .headLoaded data t.head } .produce =
        some { t with producer := .idle, results := t.results ++ [(data, false)] } := if_pos hrefused
    refine ⟨2, _, false, run_cons_eq_some.mpr ⟨_, hcall, run_cons_eq_some.mpr ⟨_, hload,
      run_cons_eq_some.mpr ⟨_, hcheck, rfl⟩⟩⟩, rfl, ?_⟩
    rw [EnqueueSide.tryEnqueueBytes, havailable]
    exact if_pos hrefused

theorem serializeTo_eq_write_iff {buffer : Nat → UInt8} {position : Nat} :
    serializeTo buffer position b = write buffer position b ↔
      b.length < 2 ^ 31 ∨ slice buffer position b.length = b := by
  unfold serializeTo
  split_ifs with hint
  · exact iff_of_true rfl (Or.inl hint)
  · rw [eq_comm, write_eq_self_iff]
    exact (or_iff_right hint).symm

/-- **`TryEnqueue`.** On every ring that calls on a new one lead to, the two paths agree on `b` exactly
if there is a capacity and `b` is refused or fits before the end of the ring. -/
theorem agrees_iff (capacity maxBlockSize : Nat) (hcapacity : capacity < 2 ^ 64)
    (hblock : maxBlockSize < 2 ^ 64) (calls : List Call) (s : EnqueueSide)
    (hrun : run step (construct capacity maxBlockSize) calls = some s) (b : Bytes)
    (hb : b.length ≤ maxBlockSize) : Agrees s b ↔ 0 < capacity ∧ RefusedOrContiguous s b := by
  have h : Built capacity maxBlockSize s :=
    run_invariant' (P := Built capacity maxBlockSize) (fun _ _ _ h hstep => h.step hstep)
      built_construct hrun
  rcases Nat.eq_zero_or_pos capacity with rfl | hpos
  · exact iff_of_false (h.not_agrees_of_zero (by omega)) fun hc => Nat.lt_irrefl 0 hc.1
  rw [and_iff_right hpos]
  by_cases hroom : b.length ≤ s.available
  · have hbytes := h.tryEnqueueBytes_eq hpos hcapacity hroom
    rw [RefusedOrContiguous, or_iff_right (Nat.not_lt.mpr hroom)]
    by_cases hend : b.length ≤ s.capacity - s.tail
    · have hmessage := h.tryEnqueueMessage_contiguous hpos hroom hend
      rw [Nat.min_eq_left hend, List.take_length, List.drop_length, write_nil] at hbytes
      rw [and_iff_right hend, ← serializeTo_eq_write_iff]
      constructor
      · rintro ⟨s1, s2, r, h1, h2, hring, -⟩
        obtain ⟨rfl, -⟩ := Prod.mk.inj (Except.ok.inj (hbytes.symm.trans h1))
        obtain ⟨rfl, -⟩ := Prod.mk.inj (Except.ok.inj (hmessage.symm.trans h2))
        exact hring
      · exact fun hring => ⟨_, _, true, hbytes, hmessage, hring, rfl, rfl⟩
    · have hmessage := h.tryEnqueueMessage_wrapped hroom (Nat.not_le.mp hend)
      refine iff_of_false ?_ fun hc => hend hc.1
      rintro ⟨s1, s2, r, -, h2, -⟩
      cases hmessage.symm.trans h2
  · have hrefused : s.available < b.length := Nat.not_le.mp hroom
    refine iff_of_true ⟨s, s, false, if_pos hrefused, if_pos hrefused, rfl, rfl, rfl⟩
      (Or.inl hrefused)

/-- A message for which there is space before the end of the ring. -/
theorem agrees_iff_contiguous : ∃ s,
    run step (construct 4 3) [.tryEnqueueBytes [1], .dequeue 1] = some s ∧
      [4, 5].length ≤ s.available ∧ Agrees s [4, 5] :=
  ⟨_, rfl, by decide, (agrees_iff 4 3 (by decide) (by decide) [.tryEnqueueBytes [1], .dequeue 1] _ rfl
    [4, 5] (by decide)).mpr ⟨by decide, Or.inr ⟨by decide, Or.inl (by decide)⟩⟩⟩

/-- Once the ring is empty, there is space for two bytes, but only one of them fits before its end. -/
theorem not_agrees_wrapped : ∃ s,
    run step (construct 4 3) [.tryEnqueueBytes [1, 2, 3], .dequeue 3] = some s ∧ ¬ Agrees s [4, 5] := by
  refine ⟨_, rfl, ?_⟩
  rintro ⟨s1, s2, r, -, h2, -⟩
  cases h2

end EnqueueSide

end RatkiniaServer.SpscRingBuffer
