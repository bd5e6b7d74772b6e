import RatkiniaServer.SpscRingBuffer

/-!
# `SpscRingBuffer` is a queue of bytes

The ring is a window on the stream of the bytes that `TryEnqueue` has taken, from the first byte that
has not been dequeued on, with the bytes that a call has copied but not yet published behind it. A
loaded head that is out of date only makes the producer see less room than there is, and a loaded tail
only makes the consumer see fewer bytes than there are.
-/

namespace RatkiniaServer.SpscRingBuffer

open Ring Transition

variable {cap maxBlockSize : Nat} {s s' : SpscRingBuffer}

/-! ## What is claimed -/

/-- The number of bytes in the ring. -/
def stored (s : SpscRingBuffer) : Nat := s.enqueued.length - s.dequeued.length

/-- The ring is a queue of bytes. -/
structure Fifo (cap : Nat) (s : SpscRingBuffer) : Prop where
  /-- Bytes come out in the order in which they went in. -/
  dequeued_prefix : s.dequeued <+: s.enqueued
  /-- The bytes between the head and the tail are those that have not been dequeued. -/
  holds : Holds cap s.ringBuffer s.head s.tail (s.enqueued.drop s.dequeued.length)
  /-- One byte of the ring stays free. -/
  stored_le : s.stored ≤ cap - 1
  /-- As long as nothing is dequeued, a pointer shows the next bytes. -/
  exposes : ∀ peek ∈ s.peeks, peek.start = s.dequeued.length →
    peek.start + peek.size ≤ s.enqueued.length ∧
      s.exposed peek = (s.enqueued.drop peek.start).take peek.size
  /-- When some of them have been dequeued, a pointer still shows the others, one to the temporary
  buffer as long as no `TryPeek` has begun to fill that buffer again. -/
  exposes_rest : ∀ peek ∈ s.peeks, (peek.pointer = .tempDequeueBuffer → s.tempStart = peek.start) →
    (s.exposed peek).drop (s.dequeued.length - peek.start) =
      ((s.enqueued.drop peek.start).take peek.size).drop (s.dequeued.length - peek.start)

/-- The action begins a call of `TryEnqueue`. -/
def Action.isTryEnqueue : Action → Bool
  | .tryEnqueue _ => true
  | _ => false

/-- If a call of `TryEnqueue` fails, the steps of the consumer do without it what they do around it. -/
def FailureChangesNothing (cap maxBlockSize : Nat) (s : SpscRingBuffer) (data : Bytes) : Prop :=
  ∀ as s', (∀ a ∈ as, Action.isTryEnqueue a = false) →
    run (step cap maxBlockSize) s (.tryEnqueue data :: as) = some s' →
    s'.results = s.results ++ [(data, false)] →
    run (step cap maxBlockSize) s (as.filter Action.ofConsumer) = some { s' with results := s.results }

/-- Run alone, a call of `TryEnqueue` returns, and it succeeds exactly if there is room. -/
def SucceedsIfRoom (cap maxBlockSize : Nat) (s : SpscRingBuffer) (data : Bytes) : Prop :=
  ∃ n s', run (step cap maxBlockSize) s (.tryEnqueue data :: List.replicate n .produce) = some s' ∧
    s'.producer = .idle ∧
    s'.results = s.results ++ [(data, decide (data.length ≤ cap - 1 - s.stored))]

/-! ## Positions -/

/-- The positions of the bytes of a block go around the ring. -/
theorem blockPosition_eq {start primarySize i : Nat} (hstart : start < cap) (hi : i < cap)
    (hprimary : i < primarySize → start + i < cap)
    (hsecondary : ¬ i < primarySize → primarySize = cap - start) :
    blockPosition start primarySize i = (start + i) % cap := by
  rw [blockPosition, add_mod_eq hstart (Nat.le_of_lt hi)]
  by_cases hlt : i < primarySize
  · rw [if_pos hlt, if_pos (hprimary hlt)]
  · have heq := hsecondary hlt
    rw [if_neg hlt, if_neg (by omega)]
    omega

/-- `GetBufferStatus` computes the size of the ring, without overflow. -/
theorem bufferSize_eq {loadedHead loadedTail : Nat} (hlt : cap < 2 ^ 63) (hh : loadedHead < cap) :
    bufferSize cap loadedHead loadedTail = size cap loadedHead loadedTail := by
  unfold bufferSize size
  split_ifs with hle
  · rfl
  · rw [Nat.mod_eq_of_lt (by omega)]
    omega

/-- The size of the ring from the positions of two indices of the stream. -/
theorem bufferSize_mod {lo hi : Nat} (hpos : 0 < cap) (hlt : cap < 2 ^ 63) (hle : lo ≤ hi)
    (hroom : hi - lo < cap) : bufferSize cap (lo % cap) (hi % cap) = hi - lo := by
  have hadd : hi % cap = (lo % cap + (hi - lo)) % cap := by
    rw [Nat.mod_add_mod, Nat.add_sub_cancel' hle]
  rw [bufferSize_eq hlt (Nat.mod_lt _ hpos), hadd,
    size_add (Nat.mod_lt _ hpos) hroom]

/-- Advancing an index does not overflow. -/
theorem advance_mod {n m : Nat} (hpos : 0 < cap) (hlt : cap < 2 ^ 63) (hm : m ≤ cap) :
    (n % cap + m) % 2 ^ 64 % cap = (n + m) % cap := by
  have hn := Nat.mod_lt n hpos
  have hsum : (n % cap + m) % 2 ^ 64 = n % cap + m := Nat.mod_eq_of_lt (by omega)
  rw [hsum, Nat.mod_add_mod]

/-! ## The invariant -/

/-- The bytes that a call of `TryEnqueue` has copied into the ring and not yet published. -/
def copied (s : SpscRingBuffer) : Bytes :=
  match s.producer with
  | .copying data _ k => data.take k
  | _ => []

/-- What the producer knows: the loaded head is the head of some moment, and a block that is being
copied fits behind the tail. -/
def ProducerInv (cap : Nat) (s : SpscRingBuffer) : Prop :=
  match s.producer with
  | .idle | .called _ => True
  | .headLoaded _ loadedHead =>
    ∃ lo ≤ s.dequeued.length, loadedHead = lo % cap ∧ s.enqueued.length - lo < cap
  | .copying data loadedTail k =>
    loadedTail = s.tail ∧ k ≤ data.length ∧ s.stored + data.length < cap

/-- What the consumer knows: the head is its own, the bytes that it copies are those of the stream, and
what it dequeues has been observed. -/
def ConsumerInv (s : SpscRingBuffer) : Prop :=
  match s.consumer with
  | .idle | .called _ => True
  | .headLoaded _ loadedHead => loadedHead = s.head
  | .copying size loadedHead k =>
    loadedHead = s.head ∧ s.dequeued.length + size ≤ s.enqueued.length ∧ k ≤ size ∧
      s.tempStart = s.dequeued.length ∧
      ∀ i < k, s.enqueued[s.dequeued.length + i]? = some (s.tempDequeueBuffer i)
  | .dequeueCalled size => size ≤ s.observed
  | .dequeueLoaded size loadedHead => loadedHead = s.head ∧ size ≤ s.observed

/-- What a pointer shows: the bytes of the stream from its start on. -/
structure PeekInv (cap : Nat) (s : SpscRingBuffer) (peek : Peek) : Prop where
  start_le : peek.start ≤ s.dequeued.length
  end_le : peek.start + peek.size ≤ s.enqueued.length
  ring : ∀ offset, peek.pointer = .ringBuffer offset →
    offset = peek.start % cap ∧ offset + peek.size ≤ cap
  temp : peek.pointer = .tempDequeueBuffer → peek.start ≤ s.tempStart ∧
    (s.tempStart = peek.start →
      ∀ i < peek.size, s.enqueued[peek.start + i]? = some (s.tempDequeueBuffer i))

structure Inv (cap : Nat) (s : SpscRingBuffer) : Prop where
  head_eq : s.head = s.dequeued.length % cap
  tail_eq : s.tail = s.enqueued.length % cap
  dequeued_prefix : s.dequeued <+: s.enqueued
  window : Window cap s.ringBuffer s.dequeued.length (s.enqueued ++ s.copied)
  observed_le : s.dequeued.length + s.observed ≤ s.enqueued.length
  tempStart_le : s.tempStart ≤ s.dequeued.length
  producer : ProducerInv cap s
  consumer : ConsumerInv s
  peeks : ∀ peek ∈ s.peeks, PeekInv cap s peek

theorem inv_init (hcap : 0 < cap) (ringBuffer tempDequeueBuffer : Nat → UInt8) :
    Inv cap (init ringBuffer tempDequeueBuffer) :=
  ⟨rfl, rfl, List.prefix_refl _, window_nil hcap, Nat.le_refl _, Nat.le_refl _, trivial, trivial,
    fun _ hpeek => absurd hpeek List.not_mem_nil⟩

namespace Inv

theorem le (h : Inv cap s) : s.dequeued.length ≤ s.enqueued.length := h.dequeued_prefix.length_le

/-- The ring without the bytes that are not yet published. -/
theorem published (h : Inv cap s) : Window cap s.ringBuffer s.dequeued.length s.enqueued :=
  h.window.truncate h.le

theorem stored_lt (h : Inv cap s) : s.stored < cap := by
  have hlt := h.published.holds.length_lt
  rwa [List.length_drop] at hlt

theorem cap_pos (h : Inv cap s) : 0 < cap := Nat.zero_lt_of_lt h.stored_lt

end Inv

/-! ## More of the stream -/

/-- The bytes of the stream stay when more are appended. -/
theorem getElem?_mono {xs ys : Bytes} {i : Nat} {b : UInt8} (hpre : xs <+: ys)
    (h : xs[i]? = some b) : ys[i]? = some b := by
  obtain ⟨zs, rfl⟩ := hpre
  have hi := (List.getElem?_eq_some_iff.mp h).1
  rw [List.getElem?_append_left hi, h]

/-- A pointer keeps showing its bytes when bytes are enqueued or dequeued. -/
theorem PeekInv.mono {peek : Peek} (h : PeekInv cap s peek)
    (hdeq : s.dequeued.length ≤ s'.dequeued.length) (henq : s.enqueued <+: s'.enqueued)
    (htemp : s'.tempDequeueBuffer = s.tempDequeueBuffer) (hstart : s'.tempStart = s.tempStart) :
    PeekInv cap s' peek := by
  refine ⟨Nat.le_trans h.start_le hdeq, Nat.le_trans h.end_le henq.length_le, h.ring, fun hp => ?_⟩
  obtain ⟨hle, hbytes⟩ := h.temp hp
  rw [hstart, htemp]
  exact ⟨hle, fun heq i hi => getElem?_mono henq (hbytes heq i hi)⟩

/-- What the consumer knows stays true when bytes are enqueued. -/
theorem ConsumerInv.publish {tail : Nat} {r : Bytes × Bool} (h : ConsumerInv s)
    (henq : s.enqueued <+:
      ({ s with tail := tail, producer := .idle, results := s.results ++ [r] } : SpscRingBuffer).enqueued) :
    ConsumerInv { s with tail := tail, producer := .idle, results := s.results ++ [r] } := by
  unfold ConsumerInv at *
  dsimp only
  cases hc : s.consumer with
  | copying size loadedHead k =>
    rw [hc] at h
    obtain ⟨hhead, hlen, hk, hstart, hbytes⟩ := h
    exact ⟨hhead, Nat.le_trans hlen henq.length_le, hk, hstart,
      fun i hi => getElem?_mono henq (hbytes i hi)⟩
  | idle => trivial
  | called size => trivial
  | headLoaded size loadedHead =>
    rw [hc] at h
    exact h
  | dequeueCalled size =>
    rw [hc] at h
    exact h
  | dequeueLoaded size loadedHead =>
    rw [hc] at h
    exact h

/-! ## Steps of the producer -/

/-- A step that changes nothing but where `TryEnqueue` is. -/
theorem Inv.setProducer (h : Inv cap s) {p : Producer} (hcopied : s.copied = [])
    (hcopied' : ({ s with producer := p } : SpscRingBuffer).copied = [])
    (hp : ProducerInv cap { s with producer := p }) : Inv cap { s with producer := p } := by
  have hwindow := h.window
  rw [hcopied] at hwindow
  refine ⟨h.head_eq, h.tail_eq, h.dequeued_prefix, ?_, h.observed_le, h.tempStart_le, hp, h.consumer,
    fun peek hpeek => (h.peeks peek hpeek).mono (Nat.le_refl _) (List.prefix_refl _) rfl rfl⟩
  rw [hcopied']
  exact hwindow

/-- `TryEnqueue` returns: what it has copied is now part of the stream. -/
theorem Inv.publish (h : Inv cap s) {tail : Nat} {r : Bytes × Bool}
    (henq : ({ s with tail := tail, producer := .idle, results := s.results ++ [r] } :
      SpscRingBuffer).enqueued = s.enqueued ++ s.copied)
    (htail : tail = (s.enqueued ++ s.copied).length % cap) :
    Inv cap { s with tail := tail, producer := .idle, results := s.results ++ [r] } := by
  have hpre : s.enqueued <+: ({ s with tail := tail, producer := .idle, results := s.results ++ [r] } :
      SpscRingBuffer).enqueued := by
    rw [henq]
    exact List.prefix_append _ _
  refine ⟨h.head_eq, by rw [henq, htail], h.dequeued_prefix.trans hpre, ?_,
    Nat.le_trans h.observed_le hpre.length_le, h.tempStart_le, trivial, h.consumer.publish hpre,
    fun peek hpeek => (h.peeks peek hpeek).mono (Nat.le_refl _) hpre rfl rfl⟩
  rw [henq]
  exact (List.append_nil _).symm ▸ h.window

/-- One more byte of the block is copied. -/
theorem Inv.copyByte (h : Inv cap s) {data : Bytes} {loadedTail k : Nat}
    (hp : s.producer = .copying data loadedTail k) (hk : k < data.length) :
    Inv cap { s with
      ringBuffer := write s.ringBuffer
        (blockPosition loadedTail (min data.length (cap - loadedTail)) k) [data[k]]
      producer := .copying data loadedTail (k + 1) } := by
  have hprod := h.producer
  have hwindow := h.window
  rw [ProducerInv, hp] at hprod
  rw [copied, hp] at hwindow
  obtain ⟨htail, hle, hroom⟩ := hprod
  have hlt : loadedTail < cap := by
    rw [htail, h.tail_eq]
    exact Nat.mod_lt _ h.cap_pos
  have hcopied : (s.enqueued ++ data.take k).length = s.enqueued.length + k := by
    rw [List.length_append, List.length_take, Nat.min_eq_left hle]
  have hpos : blockPosition loadedTail (min data.length (cap - loadedTail)) k =
      (s.enqueued ++ data.take k).length % cap := by
    rw [hcopied, blockPosition_eq hlt (by omega) (by omega) (by omega), htail, h.tail_eq,
      Nat.mod_add_mod]
  refine ⟨h.head_eq, h.tail_eq, h.dequeued_prefix, ?_, h.observed_le, h.tempStart_le,
    ⟨htail, hk, hroom⟩, h.consumer,
    fun peek hpeek => (h.peeks peek hpeek).mono (Nat.le_refl _) (List.prefix_refl _) rfl rfl⟩
  have hext := hwindow.extend [data[k]]
    (by
      have hle := h.le
      simp only [hcopied, stored] at hroom ⊢
      simp only [List.length_singleton]
      omega)
    (Nat.mod_lt _ h.cap_pos)
  rw [List.append_assoc, List.take_append_getElem hk, ← hpos] at hext
  exact hext

theorem enqueued_append_false (results : List (Bytes × Bool)) (data : Bytes) :
    ((results ++ [(data, false)]).filter Prod.snd).flatMap Prod.fst =
      (results.filter Prod.snd).flatMap Prod.fst := by
  simp

theorem enqueued_append_true (results : List (Bytes × Bool)) (data : Bytes) :
    ((results ++ [(data, true)]).filter Prod.snd).flatMap Prod.fst =
      (results.filter Prod.snd).flatMap Prod.fst ++ data := by
  simp

/-- The steps of `TryEnqueue`. -/
theorem produce_inv (hlt : cap < 2 ^ 63) (h : Inv cap s) (hstep : s.produce cap = some s') :
    Inv cap s' := by
  have hprod := h.producer
  unfold produce at hstep
  unfold ProducerInv at hprod
  cases hp : s.producer with
  | idle =>
    rw [hp] at hstep
    cases hstep
  | called data =>
    rw [hp] at hstep
    obtain rfl := Option.some.inj hstep
    refine h.setProducer (by rw [copied, hp]) rfl ?_
    exact ⟨s.dequeued.length, Nat.le_refl _, h.head_eq, h.stored_lt⟩
  | headLoaded data loadedHead =>
    rw [hp] at hstep hprod
    obtain ⟨lo, hlo, rfl, hroom⟩ := hprod
    have hcopied : s.copied = [] := by rw [copied, hp]
    have hsize : bufferSize cap (lo % cap) s.tail = s.enqueued.length - lo := by
      rw [h.tail_eq]
      exact bufferSize_mod h.cap_pos hlt (Nat.le_trans hlo h.le) hroom
    simp only [availableSize, hsize] at hstep
    split_ifs at hstep with hfull
    · obtain rfl := Option.some.inj hstep
      refine h.publish ?_ ?_
      · rw [hcopied, List.append_nil]
        exact enqueued_append_false _ _
      · rw [hcopied, List.append_nil]
        exact h.tail_eq
    · obtain rfl := Option.some.inj hstep
      refine h.setProducer hcopied rfl ⟨rfl, Nat.zero_le _, ?_⟩
      show s.enqueued.length - s.dequeued.length + data.length < cap
      omega
  | copying data loadedTail k =>
    rw [hp] at hstep hprod
    dsimp only at hstep
    split_ifs at hstep with hk
    · obtain rfl := Option.some.inj hstep
      exact h.copyByte hp hk
    · obtain rfl := Option.some.inj hstep
      obtain ⟨rfl, hle, hroom⟩ := hprod
      have hcopied : s.copied = data := by
        rw [copied, hp]
        exact List.take_of_length_le (by omega)
      refine h.publish ?_ ?_
      · rw [hcopied]
        exact enqueued_append_true _ _
      · rw [hcopied, h.tail_eq, List.length_append]
        exact advance_mod h.cap_pos hlt (by omega)

/-! ## Steps of the consumer -/

/-- The step of a consumer that is not dequeuing: it may record a pointer or write to the temporary
buffer, and touches nothing that the producer uses. -/
theorem Inv.setConsumer (h : Inv cap s) {c : Consumer} {temp : Nat → UInt8} {peeks : List Peek}
    {observed tempStart : Nat} (hobserved : s.dequeued.length + observed ≤ s.enqueued.length)
    (hstart : tempStart ≤ s.dequeued.length)
    (hc : ConsumerInv { s with
      tempDequeueBuffer := temp, consumer := c, peeks := peeks, observed := observed
      tempStart := tempStart })
    (hpeeks : ∀ peek ∈ peeks, PeekInv cap { s with
      tempDequeueBuffer := temp, consumer := c, peeks := peeks, observed := observed
      tempStart := tempStart } peek) :
    Inv cap { s with
      tempDequeueBuffer := temp, consumer := c, peeks := peeks, observed := observed
      tempStart := tempStart } :=
  ⟨h.head_eq, h.tail_eq, h.dequeued_prefix, h.window, hobserved, hstart, h.producer, hc, hpeeks⟩

/-- A step that changes nothing but where `TryPeek` or `Dequeue` is. -/
theorem Inv.goOn (h : Inv cap s) {c : Consumer} (hc : ConsumerInv { s with consumer := c }) :
    Inv cap { s with consumer := c } :=
  h.setConsumer h.observed_le h.tempStart_le hc fun peek hpeek =>
    (h.peeks peek hpeek).mono (Nat.le_refl _) (List.prefix_refl _) rfl rfl

/-- `TryPeek` returns a pointer. -/
theorem Inv.peeked (h : Inv cap s) {pointer : Pointer} {size : Nat}
    (hsize : s.dequeued.length + size ≤ s.enqueued.length)
    (hpeek : PeekInv cap s ⟨pointer, s.dequeued.length, size⟩) : Inv cap (s.peeked pointer size) := by
  have hobserved := h.observed_le
  refine h.setConsumer (by omega) h.tempStart_le trivial fun peek hmem => ?_
  have hold : PeekInv cap s peek := by
    rcases List.mem_append.mp hmem with hmem | hmem
    · exact h.peeks peek hmem
    · rw [List.mem_singleton.mp hmem]
      exact hpeek
  exact hold.mono (Nat.le_refl _) (List.prefix_refl _) rfl rfl

/-- `TryPeek` begins to copy to the temporary buffer. What that buffer shows is then only known of
pointers that start here. -/
theorem Inv.beginCopy (h : Inv cap s) {size : Nat}
    (hsize : s.dequeued.length + size ≤ s.enqueued.length) :
    Inv cap { s with consumer := .copying size s.head 0, tempStart := s.dequeued.length } := by
  refine h.setConsumer h.observed_le (Nat.le_refl _)
    ⟨rfl, hsize, Nat.zero_le _, rfl, fun i hi => absurd hi (Nat.not_lt_zero i)⟩ fun peek hpeek => ?_
  have hold := h.peeks peek hpeek
  refine ⟨hold.start_le, hold.end_le, hold.ring, fun hp => ⟨hold.start_le, fun heq => ?_⟩⟩
  obtain ⟨hle, hbytes⟩ := hold.temp hp
  have hstart := h.tempStart_le
  exact hbytes (Nat.le_antisymm (heq ▸ hstart) hle)

/-- A byte of the ring that has not been dequeued is one of the stream. -/
theorem Inv.byte (h : Inv cap s) {j : Nat} (hlo : s.dequeued.length ≤ j) (hj : j < s.enqueued.length) :
    s.enqueued[j]? = some (s.ringBuffer (j % cap)) := by
  rw [List.getElem?_eq_getElem hj, h.published.apply_mod hlo hj]

/-- `TryPeek` copies one more byte to the temporary buffer. -/
theorem Inv.copyTemp (h : Inv cap s) {size loadedHead k : Nat}
    (hc : s.consumer = .copying size loadedHead k) (hk : k < size) :
    Inv cap { s with
      tempDequeueBuffer := write s.tempDequeueBuffer k
        [s.ringBuffer (blockPosition loadedHead (cap - loadedHead) k)]
      consumer := .copying size loadedHead (k + 1) } := by
  have hcons := h.consumer
  rw [ConsumerInv, hc] at hcons
  obtain ⟨rfl, hlen, hle, hstart, hbytes⟩ := hcons
  have hlt : s.head < cap := by
    rw [h.head_eq]
    exact Nat.mod_lt _ h.cap_pos
  have hstored := h.stored_lt
  unfold stored at hstored
  have hpos : blockPosition s.head (cap - s.head) k = (s.dequeued.length + k) % cap := by
    rw [blockPosition_eq hlt (by omega) (by omega) (by omega), h.head_eq, Nat.mod_add_mod]
  have hbyte := h.byte (Nat.le_add_right s.dequeued.length k) (by omega)
  -- the byte written at `k` is the byte of the stream that belongs there
  have hwrite (i : Nat) (hi : i ≠ k → s.enqueued[s.dequeued.length + i]? = some (s.tempDequeueBuffer i)) :
      s.enqueued[s.dequeued.length + i]? = some (write s.tempDequeueBuffer k
        [s.ringBuffer (blockPosition s.head (cap - s.head) k)] i) := by
    rcases Nat.lt_trichotomy i k with hik | rfl | hik
    · rw [write_of_lt hik, hi (by omega)]
    · rw [hpos, hbyte, write_self]
    · rw [write_of_le (Nat.succ_le_of_lt hik), hi (by omega)]
  refine h.setConsumer h.observed_le h.tempStart_le
    ⟨rfl, hlen, hk, hstart, fun i hi => hwrite i fun hne => hbytes i (by omega)⟩ fun peek hpeek => ?_
  have hold := h.peeks peek hpeek
  refine ⟨hold.start_le, hold.end_le, hold.ring, fun hp => ⟨(hold.temp hp).1, fun heq i hi => ?_⟩⟩
  have hdeq : peek.start = s.dequeued.length := heq.symm.trans hstart
  have hshown := (hold.temp hp).2 heq i hi
  rw [hdeq] at hshown ⊢
  exact hwrite i fun _ => hshown

/-- `Dequeue` stores the head: the bytes that it passes are the next ones of the stream. -/
theorem Inv.advance (h : Inv cap s) (hlt : cap < 2 ^ 63) {size : Nat} (hsize : size ≤ s.observed) :
    Inv cap { s with
      head := (s.head + size) % 2 ^ 64 % cap
      consumer := .idle
      dequeued := s.dequeued ++ content cap s.ringBuffer s.head size
      observed := s.observed - size } := by
  have hobserved := h.observed_le
  have hstored := h.stored_lt
  have htemp := h.tempStart_le
  unfold stored at hstored
  have hcontent : content cap s.ringBuffer s.head size =
      (s.enqueued.drop s.dequeued.length).take size := by
    rw [h.head_eq, h.published.content_eq (by omega)]
  have hlen : (s.dequeued ++ content cap s.ringBuffer s.head size).length =
      s.dequeued.length + size := by
    rw [List.length_append, length_content]
  have hprod := h.producer
  refine ⟨?_, h.tail_eq, ?_, ?_, ?_, ?_, ?_, trivial, fun peek hpeek =>
    (h.peeks peek hpeek).mono ?_ (List.prefix_refl _) rfl rfl⟩
  · rw [hlen, h.head_eq]
    exact advance_mod h.cap_pos hlt (by omega)
  · show s.dequeued ++ content cap s.ringBuffer s.head size <+: s.enqueued
    rw [hcontent]
    nth_rewrite 1 [List.prefix_iff_eq_take.mp h.dequeued_prefix]
    rw [← List.take_add]
    exact List.take_prefix _ _
  · refine h.window.advance (by rw [hlen]; omega) ?_
    rw [hlen, List.length_append]
    omega
  · show (s.dequeued ++ content cap s.ringBuffer s.head size).length + (s.observed - size) ≤
      s.enqueued.length
    rw [hlen]
    omega
  · show s.tempStart ≤ (s.dequeued ++ content cap s.ringBuffer s.head size).length
    rw [hlen]
    omega
  · unfold ProducerInv at hprod ⊢
    dsimp only
    cases hp : s.producer with
    | idle => trivial
    | called data => trivial
    | headLoaded data loadedHead =>
      rw [hp] at hprod
      obtain ⟨lo, hlo, heq, hroom⟩ := hprod
      exact ⟨lo, by rw [hlen]; omega, heq, hroom⟩
    | copying data loadedTail k =>
      rw [hp] at hprod
      obtain ⟨heq, hle, hroom⟩ := hprod
      refine ⟨heq, hle, ?_⟩
      show s.enqueued.length - (s.dequeued ++ content cap s.ringBuffer s.head size).length +
        data.length < cap
      unfold stored at hroom
      rw [hlen]
      omega
  · rw [hlen]
    exact Nat.le_add_right _ _

/-- The steps of `TryPeek` and `Dequeue`. -/
theorem consume_inv (hlt : cap < 2 ^ 63) (h : Inv cap s) (hstep : s.consume cap = some s') :
    Inv cap s' := by
  have hcons := h.consumer
  have hle := h.le
  have hstored := h.stored_lt
  unfold consume at hstep
  unfold ConsumerInv at hcons
  unfold stored at hstored
  cases hc : s.consumer with
  | idle =>
    rw [hc] at hstep
    cases hstep
  | called size =>
    rw [hc] at hstep
    obtain rfl := Option.some.inj hstep
    exact h.goOn rfl
  | headLoaded size loadedHead =>
    rw [hc] at hstep hcons
    obtain rfl : loadedHead = s.head := hcons
    have hsize : bufferSize cap s.head s.tail = s.enqueued.length - s.dequeued.length := by
      rw [h.head_eq, h.tail_eq]
      exact bufferSize_mod h.cap_pos hlt hle hstored
    simp only [hsize] at hstep
    split_ifs at hstep with hfew hcontiguous
    · obtain rfl := Option.some.inj hstep
      exact h.goOn trivial
    · obtain rfl := Option.some.inj hstep
      refine h.peeked (by omega) ⟨Nat.le_refl _, ?_, fun offset hoffset => ?_, fun hp => by cases hp⟩
      · show s.dequeued.length + size ≤ s.enqueued.length
        omega
      · obtain rfl := Pointer.ringBuffer.inj hoffset
        have hhead := Nat.mod_lt s.dequeued.length h.cap_pos
        rw [← h.head_eq] at hhead
        refine ⟨h.head_eq, ?_⟩
        show s.head + size ≤ cap
        omega
    · obtain rfl := Option.some.inj hstep
      exact h.beginCopy (by omega)
  | copying size loadedHead k =>
    rw [hc] at hstep hcons
    dsimp only at hstep
    split_ifs at hstep with hk
    · obtain rfl := Option.some.inj hstep
      exact h.copyTemp hc hk
    · obtain rfl := Option.some.inj hstep
      obtain ⟨-, hlen, -, hstart, hbytes⟩ := hcons
      refine h.peeked hlen ⟨Nat.le_refl _, hlen, fun offset hoffset => (by cases hoffset), fun _ => ?_⟩
      exact ⟨Nat.le_of_eq hstart.symm, fun _ i hi => hbytes i (Nat.lt_of_lt_of_le hi (Nat.le_of_not_lt hk))⟩
  | dequeueCalled size =>
    rw [hc] at hstep hcons
    obtain rfl := Option.some.inj hstep
    exact h.goOn ⟨rfl, hcons⟩
  | dequeueLoaded size loadedHead =>
    rw [hc] at hstep hcons
    obtain ⟨rfl, hsize⟩ := hcons
    obtain rfl := Option.some.inj hstep
    exact h.advance hlt hsize

/-- Every step keeps the invariant. -/
theorem step_inv (hlt : cap < 2 ^ 63) (h : Inv cap s) {a : Action}
    (hstep : step cap maxBlockSize s a = some s') : Inv cap s' := by
  cases a with
  | tryEnqueue data =>
    dsimp only [step] at hstep
    split_ifs at hstep with hidle
    obtain rfl := Option.some.inj hstep
    exact h.setProducer (by rw [copied, hidle]) rfl trivial
  | produce => exact produce_inv hlt h hstep
  | tryPeek size =>
    dsimp only [step] at hstep
    split_ifs at hstep
    obtain rfl := Option.some.inj hstep
    exact h.goOn trivial
  | dequeue size =>
    dsimp only [step] at hstep
    split_ifs at hstep with hsize
    obtain rfl := Option.some.inj hstep
    exact h.goOn hsize.2
  | consume => exact consume_inv hlt h hstep

/-! ## What the pointers show -/

theorem length_exposed (s : SpscRingBuffer) (peek : Peek) :
    (s.exposed peek).length = peek.size := by
  unfold exposed
  split <;> exact length_slice

/-- A pointer shows each byte that has not been dequeued. -/
theorem Inv.exposed_byte (h : Inv cap s) {peek : Peek} (hpeek : peek ∈ s.peeks)
    (htemp : peek.pointer = .tempDequeueBuffer → s.tempStart = peek.start) {i : Nat}
    (hi : i < peek.size) (hlo : s.dequeued.length ≤ peek.start + i) :
    (s.exposed peek)[i]? = s.enqueued[peek.start + i]? := by
  have hshown := h.peeks peek hpeek
  have hend := hshown.end_le
  unfold exposed
  cases hpointer : peek.pointer with
  | ringBuffer offset =>
    obtain ⟨rfl, hle⟩ := hshown.ring offset hpointer
    have hmod : (peek.start + i) % cap = peek.start % cap + i := by
      rw [← Nat.mod_add_mod, Nat.mod_eq_of_lt (by omega)]
    rw [getElem?_slice hi, h.byte hlo (by omega), hmod]
  | tempDequeueBuffer =>
    rw [getElem?_slice hi, (hshown.temp hpointer).2 (htemp hpointer) i hi, Nat.zero_add]

/-- Lists that agree with a piece of a stream from an index on. -/
theorem drop_eq_drop_piece {xs stream : Bytes} {start size d : Nat} (hlen : xs.length = size)
    (hbytes : ∀ i < size, d ≤ i → xs[i]? = stream[start + i]?) :
    xs.drop d = ((stream.drop start).take size).drop d := by
  refine List.ext_getElem? fun j => ?_
  rw [List.getElem?_drop, List.getElem?_drop, List.getElem?_take]
  split_ifs with hj
  · rw [hbytes _ hj (Nat.le_add_right d j), List.getElem?_drop]
  · exact List.getElem?_eq_none (by omega)

theorem Inv.exposes_rest (h : Inv cap s) {peek : Peek} (hpeek : peek ∈ s.peeks)
    (htemp : peek.pointer = .tempDequeueBuffer → s.tempStart = peek.start) :
    (s.exposed peek).drop (s.dequeued.length - peek.start) =
      ((s.enqueued.drop peek.start).take peek.size).drop (s.dequeued.length - peek.start) := by
  have hstart := (h.peeks peek hpeek).start_le
  exact drop_eq_drop_piece (length_exposed s peek)
    fun i hi hlo => h.exposed_byte hpeek htemp hi (by omega)

theorem Inv.fifo (h : Inv cap s) : Fifo cap s := by
  have hstored := h.stored_lt
  refine ⟨h.dequeued_prefix, ?_, by omega, fun peek hpeek hstart => ?_,
    fun peek hpeek htemp => h.exposes_rest hpeek htemp⟩
  · rw [h.head_eq, h.tail_eq]
    exact h.published.holds
  · have hshown := h.peeks peek hpeek
    have htemp := h.tempStart_le
    -- nothing has been dequeued, so the temporary buffer has only been filled from here
    have hrest := h.exposes_rest hpeek fun hpointer => by
      have hle := (hshown.temp hpointer).1
      omega
    rw [hstart, Nat.sub_self, List.drop_zero, List.drop_zero] at hrest
    exact ⟨hshown.end_le, by rw [hstart]; exact hrest⟩

/-! ## Calls that fail -/

/-- The steps of the consumer do not depend on the producer and leave it alone. -/
theorem step_ofConsumer {a : Action} (ha : a.ofConsumer = true) (p : Producer)
    (results : List (Bytes × Bool)) :
    step cap maxBlockSize { s with producer := p, results := results } a =
      (step cap maxBlockSize s a).map fun t => { t with producer := p, results := results } := by
  cases a with
  | tryEnqueue data => cases ha
  | produce => cases ha
  | tryPeek size =>
    simp only [step]
    split_ifs <;> rfl
  | dequeue size =>
    simp only [step]
    split_ifs <;> rfl
  | consume =>
    simp only [step, consume]
    cases s.consumer with
    | headLoaded size loadedHead =>
      dsimp only
      split_ifs <;> rfl
    | copying size loadedHead k =>
      dsimp only
      split_ifs <;> rfl
    | idle => rfl
    | called size => rfl
    | dequeueCalled size => rfl
    | dequeueLoaded size loadedHead => rfl

theorem step_ofConsumer_frame {a : Action} (ha : a.ofConsumer = true)
    (hstep : step cap maxBlockSize s a = some s') :
    s'.producer = s.producer ∧ s'.results = s.results := by
  have hsame := @step_ofConsumer cap maxBlockSize s a ha s.producer s.results
  rw [hstep] at hsame
  have heq : s' = { s' with producer := s.producer, results := s.results } :=
    Option.some.inj hsame
  exact ⟨by rw [heq], by rw [heq]⟩

/-- A call of `TryEnqueue` that has passed its check succeeds. -/
def Succeeding (results : List (Bytes × Bool)) (data : Bytes) (s : SpscRingBuffer) : Prop :=
  (s.results = results ∧ ∃ loadedTail k, s.producer = .copying data loadedTail k) ∨
    (s.results = results ++ [(data, true)] ∧ s.producer = .idle)

theorem step_succeeding {results : List (Bytes × Bool)} {data : Bytes} {a : Action}
    (ha : a.isTryEnqueue = false) (h : Succeeding results data s)
    (hstep : step cap maxBlockSize s a = some s') : Succeeding results data s' := by
  by_cases hc : a.ofConsumer = true
  · obtain ⟨hproducer, hresults⟩ := step_ofConsumer_frame hc hstep
    unfold Succeeding
    rw [hproducer, hresults]
    exact h
  · obtain rfl : a = .produce := by cases a <;> simp_all [Action.ofConsumer, Action.isTryEnqueue]
    simp only [step, produce] at hstep
    rcases h with ⟨hresults, loadedTail, k, hp⟩ | ⟨-, hp⟩
    · rw [hp] at hstep
      dsimp only at hstep
      split_ifs at hstep
      · obtain rfl := Option.some.inj hstep
        exact Or.inl ⟨hresults, loadedTail, k + 1, rfl⟩
      · obtain rfl := Option.some.inj hstep
        exact Or.inr ⟨by rw [hresults], rfl⟩
    · rw [hp] at hstep
      cases hstep

theorem run_succeeding {results : List (Bytes × Bool)} {data : Bytes} {as : List Action}
    (has : ∀ a ∈ as, Action.isTryEnqueue a = false) (h : Succeeding results data s)
    (hrun : run (step cap maxBlockSize) s as = some s') : s'.results ≠ results ++ [(data, false)] := by
  have hmeets : Meets (step cap maxBlockSize) (fun _ a => a.isTryEnqueue = false) s as :=
    meets_of_invariant (P := fun _ => True) (A := fun a => Action.isTryEnqueue a = false)
      (fun _ _ _ ha => ha) (fun _ _ _ _ _ _ => trivial) trivial has
  have hlast := run_invariant (P := Succeeding results data)
    (fun _ _ _ hP ha hstep => step_succeeding ha hP hstep) h hmeets hrun
  rcases hlast with ⟨heq, -⟩ | ⟨heq, -⟩ <;> simp [heq]

/-- The state without the call of `TryEnqueue` that began when `results` was the history. -/
def withoutCall (results : List (Bytes × Bool)) (s : SpscRingBuffer) : SpscRingBuffer :=
  { s with producer := .idle, results := results }

/-- A call of `TryEnqueue` that has not passed its check has changed nothing, whether it has returned
or not. -/
def Undecided (results : List (Bytes × Bool)) (data : Bytes) (s : SpscRingBuffer) : Prop :=
  (s.results = results ∧ (s.producer = .called data ∨ ∃ loadedHead, s.producer = .headLoaded data loadedHead)) ∨
    (s.results = results ++ [(data, false)] ∧ s.producer = .idle)

/-- A step of an undecided call leaves the state without the call alone, or decides the call. -/
theorem produce_undecided {results : List (Bytes × Bool)} {data : Bytes}
    (h : Undecided results data s) (hstep : s.produce cap = some s') :
    (Undecided results data s' ∧ withoutCall results s' = withoutCall results s) ∨
      Succeeding results data s' := by
  unfold produce at hstep
  rcases h with ⟨hresults, hp | ⟨loadedHead, hp⟩⟩ | ⟨-, hp⟩
  · rw [hp] at hstep
    obtain rfl := Option.some.inj hstep
    exact Or.inl ⟨Or.inl ⟨hresults, Or.inr ⟨s.head, rfl⟩⟩, rfl⟩
  · rw [hp] at hstep
    dsimp only at hstep
    split_ifs at hstep
    · obtain rfl := Option.some.inj hstep
      exact Or.inl ⟨Or.inr ⟨by rw [hresults], rfl⟩, rfl⟩
    · obtain rfl := Option.some.inj hstep
      exact Or.inr (Or.inl ⟨hresults, s.tail, 0, rfl⟩)
  · rw [hp] at hstep
    cases hstep

/-- What the consumer does around a call that fails. -/
theorem run_undecided {results : List (Bytes × Bool)} {data : Bytes} {as : List Action}
    (has : ∀ a ∈ as, Action.isTryEnqueue a = false) (h : Undecided results data s)
    (hrun : run (step cap maxBlockSize) s as = some s')
    (hresult : s'.results = results ++ [(data, false)]) :
    run (step cap maxBlockSize) (withoutCall results s) (as.filter Action.ofConsumer) =
      some (withoutCall results s') ∧ s'.producer = .idle := by
  induction as generalizing s with
  | nil =>
    obtain rfl := Option.some.inj hrun
    rcases h with ⟨heq, -⟩ | ⟨-, hp⟩
    · rw [heq] at hresult
      simp at hresult
    · exact ⟨rfl, hp⟩
  | cons a as ih =>
    obtain ⟨t, hstep, hrest⟩ := run_cons_eq_some.mp hrun
    have has' : ∀ b ∈ as, Action.isTryEnqueue b = false :=
      fun b hb => has b (List.mem_cons_of_mem a hb)
    by_cases hc : a.ofConsumer = true
    · obtain ⟨hproducer, hresults⟩ := step_ofConsumer_frame hc hstep
      have ht : Undecided results data t := by
        unfold Undecided
        rw [hproducer, hresults]
        exact h
      have hwithout : step cap maxBlockSize (withoutCall results s) a =
          some (withoutCall results t) := by
        rw [withoutCall, step_ofConsumer hc, hstep]
        rfl
      obtain ⟨hfiltered, hidle⟩ := ih has' ht hrest
      rw [List.filter_cons_of_pos hc]
      exact ⟨run_cons_eq_some.mpr ⟨_, hwithout, hfiltered⟩, hidle⟩
    · obtain rfl : a = .produce := by
        have ha := has a (List.mem_cons_self ..)
        cases a <;> simp_all [Action.ofConsumer, Action.isTryEnqueue]
      rw [List.filter_cons_of_neg hc]
      rcases produce_undecided h hstep with ⟨ht, hsame⟩ | hsucc
      · rw [← hsame]
        exact ih has' ht hrest
      · exact absurd hresult (run_succeeding has' hsucc hrest)

theorem failureChangesNothing (hidle : s.producer = .idle) (data : Bytes) :
    FailureChangesNothing cap maxBlockSize s data := by
  intro as s' has hrun hresult
  obtain ⟨t, hstep, hrest⟩ := run_cons_eq_some.mp hrun
  simp only [step, if_pos hidle] at hstep
  obtain rfl := Option.some.inj hstep
  obtain ⟨hfiltered, hidle'⟩ := run_undecided has (Or.inl ⟨rfl, Or.inl rfl⟩) hrest hresult
  have hbefore : withoutCall s.results { s with producer := .called data } = s := by
    unfold withoutCall
    rw [← hidle]
  have hafter : withoutCall s.results s' = { s' with results := s.results } := by
    unfold withoutCall
    rw [← hidle']
  rwa [hbefore, hafter] at hfiltered

/-! ## Calls without a concurrent step -/

/-- The steps of a call that has passed its check. -/
theorem run_copying {data : Bytes} {loadedTail k : Nat} (hp : s.producer = .copying data loadedTail k)
    {m : Nat} (hm : data.length - k = m) :
    ∃ s', run (step cap maxBlockSize) s (List.replicate (m + 1) .produce) = some s' ∧
      s'.producer = .idle ∧ s'.results = s.results ++ [(data, true)] := by
  induction m generalizing s k with
  | zero =>
    have hstep : s.produce cap = some { s with
        tail := (loadedTail + data.length) % 2 ^ 64 % cap
        producer := .idle
        results := s.results ++ [(data, true)] } := by
      simp only [produce, hp]
      exact dif_neg (by omega)
    exact ⟨_, run_cons_eq_some.mpr ⟨_, hstep, rfl⟩, rfl, rfl⟩
  | succ m ih =>
    have hk : k < data.length := by omega
    have hstep : s.produce cap = some { s with
        ringBuffer := write s.ringBuffer
          (blockPosition loadedTail (min data.length (cap - loadedTail)) k) [data[k]]
        producer := .copying data loadedTail (k + 1) } := by
      simp only [produce, hp]
      exact dif_pos hk
    obtain ⟨s', hrun, hidle, hresults⟩ := ih (s := { s with
        ringBuffer := write s.ringBuffer
          (blockPosition loadedTail (min data.length (cap - loadedTail)) k) [data[k]]
        producer := .copying data loadedTail (k + 1) }) rfl (by omega)
    exact ⟨s', run_cons_eq_some.mpr ⟨_, hstep, hrun⟩, hidle, hresults⟩

theorem Inv.succeedsIfRoom (h : Inv cap s) (hlt : cap < 2 ^ 63) (hidle : s.producer = .idle)
    (data : Bytes) : SucceedsIfRoom cap maxBlockSize s data := by
  have hstored := h.stored_lt
  have hsize : bufferSize cap s.head s.tail = s.stored := by
    rw [h.head_eq, h.tail_eq]
    exact bufferSize_mod h.cap_pos hlt h.le hstored
  have hcall : step cap maxBlockSize s (.tryEnqueue data) =
      some { s with producer := .called data } := if_pos hidle
  have hload : step cap maxBlockSize { s with producer := .called data } .produce =
      some { s with producer := .headLoaded data s.head } := rfl
  by_cases hroom : data.length ≤ cap - 1 - s.stored
  · have hcheck : step cap maxBlockSize { s with producer := .headLoaded data s.head } .produce =
        some { s with producer := .copying data s.tail 0 } := by
      simp only [step, produce, availableSize, hsize]
      exact if_neg (by omega)
    obtain ⟨s', hrun, hidle', hresults⟩ := @run_copying cap maxBlockSize
      { s with producer := .copying data s.tail 0 } data s.tail 0 rfl _ rfl
    refine ⟨data.length - 0 + 1 + 1 + 1, s', ?_, hidle', by rw [hresults, decide_eq_true hroom]⟩
    exact run_cons_eq_some.mpr ⟨_, hcall, run_cons_eq_some.mpr ⟨_, hload,
      run_cons_eq_some.mpr ⟨_, hcheck, hrun⟩⟩⟩
  · have hcheck : step cap maxBlockSize { s with producer := .headLoaded data s.head } .produce =
        some { s with producer := .idle, results := s.results ++ [(data, false)] } := by
      simp only [step, produce, availableSize, hsize]
      exact if_pos (by omega)
    refine ⟨2, _, run_cons_eq_some.mpr ⟨_, hcall, run_cons_eq_some.mpr ⟨_, hload,
      run_cons_eq_some.mpr ⟨_, hcheck, rfl⟩⟩⟩, rfl, by rw [decide_eq_false hroom]⟩

/-! ## Runs -/

/-- A block of three bytes goes through a ring of 4, of which one byte stays free: two bytes are taken
out while the second block, around the end of the ring, is being copied. -/
def blocksOfThree : List Action :=
  [.tryEnqueue [1, 2, 3], .produce, .produce, .produce, .produce, .produce, .produce, .tryPeek 2,
    .consume, .consume, .dequeue 2, .consume, .consume, .tryEnqueue [4, 5], .produce, .produce,
    .produce, .tryPeek 1, .consume, .produce, .produce, .consume, .tryEnqueue [6], .produce, .produce]

example : (run (step 4 2) (init (fun _ => 0) fun _ => 0) blocksOfThree).map
      (fun s => (s.enqueued, s.dequeued, s.results.map Prod.snd)) =
    some ([1, 2, 3, 4, 5], [1, 2], [true, true, false]) := by
  decide

end RatkiniaServer.SpscRingBuffer
