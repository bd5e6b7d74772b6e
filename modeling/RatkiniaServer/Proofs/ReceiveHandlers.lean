import RatkiniaServer.ReceiveHandlers
import RatkiniaServer.Proofs.MessageDecoder

/-!
# Messages are dispatched once and in order

The receive that is posted, or the handler that has not yet posted the next one, is a token: so the
ring has one producer, and it is a window on the stream of all bytes decrypted. The consumers are not
guarded by anything. As long as the push and the Pop of one do not get in between those of another,
each message pushed is the first one of the window.
-/

namespace RatkiniaServer.ReceiveHandlers

open Ring Session Framing Threads Transition

variable {cap messageMaxSize : Nat} {s s' : State} {t : Nat} {p q : Pc}

/-! ## The messages of frames -/

theorem streamSize_append (ms : List (UInt16 × Bytes)) (m : UInt16 × Bytes) :
    streamSize (ms ++ [m]) = streamSize ms + (messageHeaderSize + m.2.length) := by
  simp [streamSize]

theorem streamSize_map {fs : List (Frame UInt8)} (hfs : ∀ f ∈ fs, messageFormat.Valid f) :
    streamSize (fs.map messageOf) = (Format.stream fs).length := by
  rw [Format.length_stream hfs, streamSize, List.map_map]
  rfl

/-! ## The invariant -/

/-- The thread is to post the next receive, or has just been told of the last one. -/
def Pc.receives : Pc → Bool
  | .postReceive _ | .processReceiveBuffers _ | .fillTail _ | .fillHead _ _ => true
  | .filling _ _ _ _ | .sendBuffers _ | .receiveAsync _ | .receiveArming _ => true
  | _ => false

/-- The part of the state that the assertions of the threads are about. -/
structure ReceiveRing where
  buffer : Nat → UInt8
  head : Nat
  tail : Nat
  decrypted : Bytes
  published : Bytes
  pushed : List (UInt16 × Bytes)
  popped : Nat

/-- The ring of a state. -/
def State.ring (s : State) : ReceiveRing :=
  ⟨s.buffer, s.head, s.tail, s.decrypted, s.published, s.pushed, s.popped⟩

/-- What a thread knows of the ring. -/
def Local (cap : Nat) (r : ReceiveRing) : Pc → Prop
  | .postReceive _ | .processReceiveBuffers _ | .fillTail _ => r.decrypted = r.published
  | .sendBuffers _ | .receiveAsync _ | .receiveArming _ => r.decrypted = r.published
  | .fillHead _ loadedTail => r.decrypted = r.published ∧ loadedTail = r.tail
  | .filling _ loadedTail loadedHead written =>
    loadedTail = r.tail ∧ r.decrypted = r.published ++ written ∧
      ∃ k ≤ r.popped, loadedHead = k % cap ∧ Window cap r.buffer k (r.published ++ written)
  | .peekHead _ loadedHead => loadedHead = r.head
  | .peekTail _ loadedHead loadedTail =>
    loadedHead = r.head ∧
      ∃ xs, xs <+: r.published ∧ r.popped ≤ xs.length ∧ loadedTail = xs.length % cap
  | .pushing _ message =>
    ∃ f rest, messageFormat.next (r.published.drop r.popped) = some (f, rest) ∧
      message = ⟨(messageOf f).1, (headerOf f.1).2, (messageOf f).2⟩
  | .popping _ size => r.popped + size = streamSize r.pushed
  | .popHead _ size loadedHead => r.popped + size = streamSize r.pushed ∧ loadedHead = r.head
  | _ => True

/-- The ring is a window on the stream, and the messages pushed are those of its first frames. -/
structure RingInv (cap : Nat) (r : ReceiveRing) : Prop where
  window : Window cap r.buffer r.popped r.published
  head_eq : r.head = r.popped % cap
  tail_eq : r.tail = r.published.length % cap
  published_prefix : r.published <+: r.decrypted
  frames : ∃ fs : List (Frame UInt8), (∀ f ∈ fs, messageFormat.Valid f) ∧
    r.pushed = fs.map messageOf ∧ Format.stream fs <+: r.published

/-- The invariant. -/
structure Inv (cap : Nat) (s : State) : Prop where
  /-- At most one thread or call has the token of the receive operation. -/
  token : ∃ b, Token Pc.receives s.pc (s.receiveIo ≠ .none) b
  /-- At most one thread has pushed a message and not yet advanced the head. -/
  popper : ∃ b, Token Pc.beforePop s.pc False b
  ring : RingInv cap s.ring
  io : s.receiveIo ≠ .none → s.decrypted = s.published
  threads : ∀ u, Local cap s.ring (s.pc u)
  /-- Where no Pop is pending, the head is at the end of the messages pushed. -/
  settled : (∀ u, (s.pc u).beforePop = false) → s.popped = streamSize s.pushed

/-! ## Steps that leave the ring alone -/

/-- A step of one thread that leaves the ring and the pending Pops alone. -/
theorem Inv.local_step (h : Inv cap s) (hq : s.pc t = q) (hpc : s'.pc = Function.update s.pc t p)
    (hring : s'.ring = s.ring) (hpop : p.beforePop = q.beforePop)
    (htoken : ∃ b, Token Pc.receives s'.pc (s'.receiveIo ≠ .none) b)
    (hio : s'.receiveIo ≠ .none → s'.decrypted = s'.published)
    (hlocal : Local cap s.ring p) : Inv cap s' := by
  obtain ⟨b, hb⟩ := h.popper
  refine ⟨htoken, ⟨b, ?_⟩, hring ▸ h.ring, hio, ?_, fun hnone => ?_⟩
  · rw [hpc]
    exact hb.move (by rw [hq, hpop])
  · rw [hpc, hring]
    exact forall_update (A := fun _ => Local cap s.ring) (fun u _ => h.threads u) hlocal
  · have hpopped : s'.popped = s.popped := congrArg ReceiveRing.popped hring
    have hpushed : s'.pushed = s.pushed := congrArg ReceiveRing.pushed hring
    rw [hpopped, hpushed]
    refine h.settled fun u => ?_
    have hu := hnone u
    rw [hpc] at hu
    rcases eq_or_ne u t with rfl | hne
    · rw [Function.update_self] at hu
      rw [hq, ← hpop, hu]
    · rwa [Function.update_of_ne hne] at hu

/-- A step that does not take the token. -/
theorem Inv.walk (h : Inv cap s) (hq : s.pc t = q) (hpc : s'.pc = Function.update s.pc t p)
    (hguarded : (s'.ring, s'.receiveIo) = (s.ring, s.receiveIo)) (hpop : p.beforePop = q.beforePop)
    (hreceives : p.receives = true → q.receives = true) (hlocal : Local cap s.ring p) :
    Inv cap s' := by
  obtain ⟨hring, hio⟩ := Prod.mk.inj hguarded
  have hdecrypted : s'.decrypted = s.decrypted := congrArg ReceiveRing.decrypted hring
  have hpublished : s'.published = s.published := congrArg ReceiveRing.published hring
  obtain ⟨b, hb⟩ := h.token
  refine h.local_step hq hpc hring hpop ?_ ?_ hlocal
  · rw [hpc, hio]
    exact hb.exists_step fun hp => by rw [hq, hreceives hp]
  · rw [hio, hdecrypted, hpublished]
    exact h.io

/-! ## Steps on the ring -/

/-- What a thread that does not receive knows survives what one that does can do. -/
theorem Local.of_fill {r r' : ReceiveRing} (h : Local cap r p) (hreceives : p.receives = false)
    (hhead : r'.head = r.head) (hpopped : r'.popped = r.popped) (hpushed : r'.pushed = r.pushed)
    (hle : r.popped ≤ r.published.length) (hpublished : r.published <+: r'.published) :
    Local cap r' p := by
  cases p <;> try trivial
  case peekHead succeeded loadedHead => simpa [Local, hhead] using h
  case peekTail succeeded loadedHead loadedTail =>
    obtain ⟨hh, xs, hxs, hlo, ht⟩ := h
    exact ⟨by rw [hhead, hh], xs, hxs.trans hpublished, by rw [hpopped]; exact hlo, ht⟩
  case pushing succeeded message =>
    obtain ⟨f, rest, hnext, hmessage⟩ := h
    obtain ⟨ys, hys⟩ := hpublished
    refine ⟨f, rest ++ ys, ?_, hmessage⟩
    rw [hpopped, ← hys, List.drop_append_of_le_length hle]
    exact Format.next_append hnext
  case popping succeeded size => simpa [Local, hpopped, hpushed] using h
  case popHead succeeded size loadedHead => simpa [Local, hpopped, hpushed, hhead] using h

/-- What a thread that does not drain knows survives an advance of the head. -/
theorem Local.of_pop {r r' : ReceiveRing} (h : Local cap r p) (hpush : p.beforePush = false)
    (hpop : p.beforePop = false) (hbuffer : r'.buffer = r.buffer) (htail : r'.tail = r.tail)
    (hdecrypted : r'.decrypted = r.decrypted) (hpublished : r'.published = r.published)
    (hpopped : r.popped ≤ r'.popped) : Local cap r' p := by
  cases p <;> try trivial
  case filling n loadedTail loadedHead written =>
    obtain ⟨ht, hd, k, hk, hh, hw⟩ := h
    exact ⟨by rw [htail, ht], by rw [hdecrypted, hd, hpublished], k, Nat.le_trans hk hpopped, hh,
      by rw [hbuffer, hpublished]; exact hw⟩
  case fillHead n loadedTail => simpa [Local, hdecrypted, hpublished, htail] using h
  all_goals simpa [Local, hdecrypted, hpublished] using h

/-- What a thread that has no Pop pending knows survives a push. -/
theorem Local.of_push {r : ReceiveRing} (h : Local cap r p) (hpop : p.beforePop = false)
    (pushed : List (UInt16 × Bytes)) : Local cap { r with pushed := pushed } p := by
  cases p <;> trivial

/-- A thread that has the token has it alone. -/
theorem Inv.receives_alone (h : Inv cap s) (hreceives : (s.pc t).receives = true) :
    s.receiveIo = .none ∧ ∀ u, u ≠ t → (s.pc u).receives = false := by
  obtain ⟨b, hb⟩ := h.token
  refine ⟨of_not_not (hb.of_mem hreceives).2, fun u hne => ?_⟩
  cases hu : (s.pc u).receives with
  | false => rfl
  | true => exact absurd (hb.unique hu hreceives) hne

/-- What holds of a thread that fills the ring. -/
theorem Inv.filling {n loadedTail loadedHead : Nat} {written : Bytes} (h : Inv cap s)
    (hq : s.pc t = .filling n loadedTail loadedHead written) : loadedTail = s.tail ∧
      s.decrypted = s.published ++ written ∧ ∃ k ≤ s.popped, loadedHead = k % cap ∧
        Window cap s.buffer k (s.published ++ written) := by
  have hlocal := h.threads t
  rwa [hq] at hlocal

/-- Bytes that `SSL_read` returns are written behind the ring. -/
theorem Inv.fillBytes {n loadedTail loadedHead : Nat} {written bytes : Bytes} (h : Inv cap s)
    (hq : s.pc t = .filling n loadedTail loadedHead written)
    (hroom : size cap loadedHead loadedTail + written.length + bytes.length < cap)
    (hend : (loadedTail + written.length) % cap + bytes.length ≤ cap) :
    Inv cap { s.goto t (.filling n loadedTail loadedHead (written ++ bytes)) with
      buffer := write s.buffer ((loadedTail + written.length) % cap) bytes
      decrypted := s.decrypted ++ bytes } := by
  obtain ⟨htail, hdecrypted, k, hk, hhead, hwindow⟩ := h.filling hq
  have hreceives : (s.pc t).receives = true := by rw [hq]; rfl
  obtain ⟨hnone, hother⟩ := h.receives_alone hreceives
  have htail' : s.tail = s.published.length % cap := h.ring.tail_eq
  have hle : s.popped ≤ s.published.length := h.ring.window.le
  have hpos : (loadedTail + written.length) % cap = (s.published ++ written).length % cap := by
    rw [htail, htail', Nat.mod_add_mod, List.length_append]
  have hsize : size cap loadedHead loadedTail = s.published.length - k := by
    rw [hhead, htail, htail']
    exact (hwindow.truncate (Nat.le_trans hk hle)).size_eq
  rw [hpos] at hend
  obtain ⟨hnext, hglobal⟩ := hwindow.extend_behind bytes hk hle
    (by rw [List.length_append]; omega) hend
  obtain ⟨b, hb⟩ := h.token
  obtain ⟨b', hb'⟩ := h.popper
  refine ⟨⟨b, hb.move (by rw [hq]; rfl)⟩, ⟨b', hb'.move (by rw [hq]; rfl)⟩,
    ⟨?_, h.ring.head_eq, h.ring.tail_eq, ?_, h.ring.frames⟩, fun hio => absurd hnone hio, ?_, ?_⟩
  · rw [hpos]
    exact hglobal
  · exact h.ring.published_prefix.trans (List.prefix_append _ _)
  · refine forall_update (A := fun _ => Local cap _) (fun u hne => ?_)
      ⟨htail, ?_, k, hk, hhead, ?_⟩
    · exact (h.threads u).of_fill (hother u hne) rfl rfl rfl hle (List.prefix_refl _)
    · change s.decrypted ++ bytes = s.published ++ (written ++ bytes)
      rw [hdecrypted, List.append_assoc]
    · rw [hpos]
      exact hnext
  · refine fun hall => h.settled fun u => ?_
    have hu := hall u
    rcases eq_or_ne u t with rfl | hne
    · rw [hq]
      rfl
    · simpa [State.goto, Function.update_of_ne hne] using hu

/-- The tail is advanced over the bytes written. -/
theorem Inv.storeTail {n loadedTail loadedHead : Nat} {written : Bytes} (h : Inv cap s)
    (hq : s.pc t = .filling n loadedTail loadedHead written) (hp : p.beforePop = false)
    (hlocal : ∀ r : ReceiveRing, r.decrypted = r.published → Local cap r p) :
    Inv cap { s.goto t p with
      processMutex := none
      tail := (loadedTail + written.length) % cap
      published := s.published ++ written } := by
  obtain ⟨htail, hdecrypted, k, hk, -, hwindow⟩ := h.filling hq
  have hreceives : (s.pc t).receives = true := by rw [hq]; rfl
  obtain ⟨hnone, hother⟩ := h.receives_alone hreceives
  have hle : s.popped ≤ s.published.length := h.ring.window.le
  have hglobal : Window cap s.buffer s.popped (s.published ++ written) :=
    hwindow.advance hk (by rw [List.length_append]; omega)
  obtain ⟨b, hb⟩ := h.token
  obtain ⟨b', hb'⟩ := h.popper
  obtain ⟨fs, hvalid, hpushed, hstream⟩ := h.ring.frames
  refine ⟨hb.exists_step fun _ => hreceives, ⟨b', hb'.move (by rw [hq, hp]; rfl)⟩,
    ⟨hglobal, h.ring.head_eq, ?_, ?_, fs, hvalid, hpushed,
      hstream.trans (List.prefix_append _ _)⟩, fun hio => absurd hnone hio, ?_, ?_⟩
  · have htail' : s.tail = s.published.length % cap := h.ring.tail_eq
    change (loadedTail + written.length) % cap = (s.published ++ written).length % cap
    rw [htail, htail', Nat.mod_add_mod, List.length_append]
  · change s.published ++ written <+: s.decrypted
    exact hdecrypted ▸ List.prefix_refl _
  · refine forall_update (A := fun _ => Local cap _) (fun u hne => ?_) (hlocal _ hdecrypted)
    exact (h.threads u).of_fill (hother u hne) rfl rfl rfl hle (List.prefix_append _ _)
  · refine fun hall => h.settled fun u => ?_
    have hu := hall u
    rcases eq_or_ne u t with rfl | hne
    · rw [hq]
      rfl
    · simpa [State.goto, Function.update_of_ne hne] using hu

/-- A message is pushed while no Pop is pending. -/
theorem Inv.push {succeeded : Bool} {message : MessagePeekResult} (h : Inv cap s)
    (hq : s.pc t = .pushing succeeded message)
    (hok : ∀ u, u ≠ t → (s.pc u).beforePop = false) :
    Inv cap { s.goto t (.popping succeeded (messageHeaderSize + message.bodySize.toNat)) with
      pushed := s.pushed ++ [(message.messageType, message.body)] } := by
  obtain ⟨f, rest, hnext, rfl⟩ : ∃ f rest,
      messageFormat.next (s.published.drop s.popped) = some (f, rest) ∧
        message = ⟨(messageOf f).1, (headerOf f.1).2, (messageOf f).2⟩ := by
    have hlocal := h.threads t
    rwa [hq] at hlocal
  obtain ⟨fs, hvalid, hpushed, hstream⟩ := h.ring.frames
  have hnot : ∀ u, (s.pc u).beforePop = false := fun u => by
    rcases eq_or_ne u t with rfl | hne
    · rw [hq]
      rfl
    · exact hok u hne
  have hsettled : s.popped = streamSize s.pushed := h.settled hnot
  have hlength : (Format.stream fs).length = s.popped := by
    have hpushed' : s.pushed = fs.map messageOf := hpushed
    rw [hsettled, hpushed', streamSize_map hvalid]
  have hf := Format.valid_of_next hnext
  have hsplit : s.published = Format.stream fs ++ (f.1 ++ (f.2 ++ rest)) := by
    have htake : Format.stream fs = s.published.take s.popped := by
      rw [← hlength]
      exact List.prefix_iff_eq_take.mp hstream
    rw [htake, ← (Format.next_eq_some_iff.mp hnext).1, List.take_append_drop]
  obtain ⟨b, hb⟩ := h.token
  obtain ⟨b', hb'⟩ := h.popper
  obtain rfl := hb'.flag_eq_false hnot id
  refine ⟨⟨b, hb.move (by rw [hq]; rfl)⟩, ⟨true, hb'.take rfl⟩,
    ⟨h.ring.window, h.ring.head_eq, h.ring.tail_eq, h.ring.published_prefix, fs ++ [f], ?_, ?_, ?_⟩,
    h.io, ?_, ?_⟩
  · intro g hg
    rcases List.mem_append.mp hg with hg | hg
    · exact hvalid g hg
    · rw [List.mem_singleton.mp hg]
      exact hf
  · change s.pushed ++ _ = _
    have hpushed' : s.pushed = fs.map messageOf := hpushed
    rw [hpushed', List.map_append]
    rfl
  · change Format.stream (fs ++ [f]) <+: s.published
    rw [hsplit, Format.stream_append, Format.stream_singleton, ← List.append_assoc,
      ← List.append_assoc, ← List.append_assoc]
    exact List.prefix_append _ _
  · refine forall_update (A := fun _ => Local cap _) (fun u hne => ?_) ?_
    · exact (h.threads u).of_push (hnot u) _
    · change s.popped + _ = streamSize (s.pushed ++ _)
      rw [streamSize_append, hsettled, (headerOf_eq f).2, ← hf.2]
      rfl
  · intro hall
    have ht := hall t
    simp [State.goto, Pc.beforePop] at ht

/-- The head is advanced while no other thread drains. -/
theorem Inv.pop {succeeded : Bool} {n loadedHead : Nat} (h : Inv cap s)
    (hq : s.pc t = .popHead succeeded n loadedHead)
    (hok : ∀ u, u ≠ t → (s.pc u).beforePush = false) :
    Inv cap { s.goto t (.peek succeeded) with
      head := (loadedHead + n) % cap
      popped := s.popped + n } := by
  obtain ⟨hsum, hhead⟩ : s.popped + n = streamSize s.pushed ∧ loadedHead = s.head := by
    have hlocal := h.threads t
    rwa [hq] at hlocal
  obtain ⟨fs, hvalid, hpushed, hstream⟩ := h.ring.frames
  have hle : s.popped + n ≤ s.published.length := by
    have hpushed' : s.pushed = fs.map messageOf := hpushed
    rw [hsum, hpushed', streamSize_map hvalid]
    exact hstream.length_le
  obtain ⟨b, hb⟩ := h.token
  obtain ⟨b', hb'⟩ := h.popper
  have hpop : (s.pc t).beforePop = true := by rw [hq]; rfl
  have hother : ∀ u, u ≠ t → (s.pc u).beforePop = false := fun u hne => by
    cases hu : (s.pc u).beforePop with
    | false => rfl
    | true => exact absurd (hb'.unique hu hpop) hne
  refine ⟨⟨b, hb.move (by rw [hq]; rfl)⟩, ⟨false, hb'.release hpop rfl⟩,
    ⟨h.ring.window.advance (Nat.le_add_right ..) hle, ?_, h.ring.tail_eq, h.ring.published_prefix,
      fs, hvalid, hpushed, hstream⟩, h.io, ?_, fun _ => hsum⟩
  · have hhead' : s.head = s.popped % cap := h.ring.head_eq
    change (loadedHead + n) % cap = (s.popped + n) % cap
    rw [hhead, hhead', Nat.mod_add_mod]
  · exact forall_update (A := fun _ => Local cap _) (fun u hne => (h.threads u).of_pop (hok u hne)
      (hother u hne) rfl rfl rfl rfl (Nat.le_add_right ..)) trivial

/-- What a Peek finds is the next message of the stream. -/
theorem Inv.peekFinds {succeeded : Bool} {loadedHead loadedTail : Nat} {message : MessagePeekResult}
    (h : Inv cap s) (hq : s.pc t = .peekTail succeeded loadedHead loadedTail)
    (hpeek : peekAt cap messageMaxSize s.buffer loadedHead loadedTail = .ok (some message)) :
    Local cap s.ring (.pushing succeeded message) := by
  obtain ⟨hhead, xs, ⟨ys, hys⟩, hle, htail⟩ : loadedHead = s.head ∧ ∃ xs, xs <+: s.published ∧
      s.popped ≤ xs.length ∧ loadedTail = xs.length % cap := by
    have hlocal := h.threads t
    rwa [hq] at hlocal
  have hwindow : Window cap s.buffer s.popped xs := by
    have hall : Window cap s.buffer s.popped s.published := h.ring.window
    rw [← hys] at hall
    exact hall.truncate hle
  have hhead' : s.head = s.popped % cap := h.ring.head_eq
  rw [hhead, hhead', htail] at hpeek
  obtain ⟨hnone, hsome⟩ := peekAt_spec messageMaxSize hwindow.holds
  cases hnext : messageFormat.next (xs.drop s.popped) with
  | none =>
    rw [hnone hnext] at hpeek
    cases hpeek
  | some r =>
    obtain ⟨f, rest⟩ := r
    refine ⟨f, rest ++ ys, ?_, ?_⟩
    · change messageFormat.next (s.published.drop s.popped) = _
      rw [← hys, List.drop_append_of_le_length hle]
      exact Format.next_append hnext
    · rcases hsome f rest hnext with hfound | ⟨-, hover⟩
      · rw [hfound] at hpeek
        exact (Option.some.inj (Except.ok.inj hpeek)).symm
      · rw [hover] at hpeek
        cases hpeek

/-! ## All steps -/

theorem beforePop_afterReceiveBuffers (n : Nat) (r : ReceiveBuffersProcessResult) :
    (afterReceiveBuffers n r).beforePop = false := by
  cases r <;> simp only [afterReceiveBuffers] <;> first | rfl | (split_ifs <;> rfl)

theorem local_afterReceiveBuffers (n : Nat) {r : ReceiveBuffersProcessResult} (ring : ReceiveRing)
    (h : r ≠ .failed → ring.decrypted = ring.published) :
    Local cap ring (afterReceiveBuffers n r) := by
  cases r with
  | success =>
    simp only [afterReceiveBuffers]
    split_ifs
    · exact h nofun
    · trivial
  | wantProcessSendBuffers => exact h nofun
  | failed => trivial

theorem local_afterSendBuffers (n : Nat) (r : SendBuffersProcessResult) (ring : ReceiveRing)
    (h : ring.decrypted = ring.published) : Local cap ring (afterSendBuffers n r) := by
  cases r with
  | success => exact h
  | wantProcessReceiveBuffers =>
    simp only [afterSendBuffers]
    split_ifs
    · exact h
    · trivial
  | failed => trivial

theorem beforePop_afterSendBuffers (n : Nat) (r : SendBuffersProcessResult) :
    (afterSendBuffers n r).beforePop = false := by
  cases r <;> simp only [afterSendBuffers] <;> first | rfl | (split_ifs <;> rfl)

/-- A call of `TryReceiveAsync` returns to a place that knows nothing. -/
theorem goesOn_spec (cap : Nat) (caller : Caller) (value : Bool) :
    (caller.goesOn value).beforePop = false ∧ (caller.goesOn value).receives = false ∧
      ∀ ring, Local cap ring (caller.goesOn value) := by
  cases caller <;> cases value <;> exact ⟨rfl, rfl, fun _ => trivial⟩

/-- One iteration of the loop over `SSL_read`, or its end. -/
theorem Inv.fillStep {sslRead : SslAnswer} {n loadedTail loadedHead : Nat} {written : Bytes}
    (h : Inv cap s) (hq : s.pc t = .filling n loadedTail loadedHead written)
    (hstep : fillStep cap s t sslRead n loadedTail loadedHead written = some s') : Inv cap s' := by
  have hfailed : Inv cap { s.goto t (afterReceiveBuffers n .failed) with processMutex := none } :=
    h.walk hq rfl rfl rfl nofun trivial
  have hend : ∀ r, Inv cap { (if written.length > 0 then
        { s with tail := (loadedTail + written.length) % cap, published := s.published ++ written }
      else s).goto t (afterReceiveBuffers n r) with processMutex := none } := by
    intro r
    split_ifs with hwritten
    · exact h.storeTail hq (beforePop_afterReceiveBuffers n r) fun ring hring =>
        local_afterReceiveBuffers n ring fun _ => hring
    · refine h.walk hq rfl rfl (beforePop_afterReceiveBuffers n r) (fun _ => rfl)
        (local_afterReceiveBuffers n _ fun _ => ?_)
      obtain rfl : written = [] := List.eq_nil_of_length_eq_zero (by omega)
      have hlocal := h.threads t
      rw [hq] at hlocal
      exact hlocal.2.1.trans (List.append_nil _)
  let available := cap - size cap loadedHead loadedTail - 1
  let adjustedTail := (loadedTail + written.length) % cap
  unfold ReceiveHandlers.fillStep at hstep
  change (if available - written.length = 0 then _ else _) = some s' at hstep
  by_cases hfull : available - written.length = 0
  · rw [if_pos hfull] at hstep
    cases hstep
    exact hfailed
  rw [if_neg hfull] at hstep
  cases sslRead with
  | bytes bytes =>
    change (if 0 < bytes.length ∧ bytes.length ≤
      min (available - written.length) (cap - adjustedTail) then _ else none) = some s' at hstep
    split_ifs at hstep with hfits
    cases hstep
    obtain ⟨hpos, hle⟩ : 0 < bytes.length ∧ bytes.length ≤
      min (cap - size cap loadedHead loadedTail - 1 - written.length)
        (cap - (loadedTail + written.length) % cap) := hfits
    exact h.fillBytes hq (by omega) (by omega)
  | zeroReturn =>
    cases hstep
    exact hend _
  | wantRead =>
    cases hstep
    exact hend _
  | wantWrite =>
    cases hstep
    exact hend _
  | error =>
    cases hstep
    exact hfailed

/-- A step of a thread. -/
theorem Inv.runStep {answers : Answers} (h : Inv cap s) (hok : DrainsApart s (.run t answers))
    (hstep : runStep cap messageMaxSize s t answers = some s') : Inv cap s' := by
  unfold ReceiveHandlers.runStep at hstep
  have hlocal := h.threads t
  cases hq : s.pc t with
  | idle =>
    rw [hq] at hstep
    cases hstep
  | postReceive n =>
    simp only [hq] at hstep hlocal
    cases hstep
    exact h.walk hq rfl rfl rfl (fun _ => rfl) hlocal
  | processReceiveBuffers n =>
    simp only [hq] at hstep hlocal
    split_ifs at hstep
    cases hstep
    exact h.walk hq rfl rfl rfl (fun _ => rfl) hlocal
  | fillTail n =>
    simp only [hq] at hstep hlocal
    cases hstep
    exact h.walk hq rfl rfl rfl (fun _ => rfl) ⟨hlocal, rfl⟩
  | fillHead n loadedTail =>
    simp only [hq] at hstep hlocal
    cases hstep
    obtain ⟨hdecrypted, htail⟩ := hlocal
    refine h.walk hq rfl rfl rfl (fun _ => rfl)
      ⟨htail, ?_, s.popped, Nat.le_refl _, h.ring.head_eq, ?_⟩
    · rw [List.append_nil]
      exact hdecrypted
    · rw [List.append_nil]
      exact h.ring.window
  | filling n loadedTail loadedHead written =>
    simp only [hq] at hstep
    exact h.fillStep hq hstep
  | sendBuffers n =>
    simp only [hq] at hstep hlocal
    cases hstep
    exact h.walk hq rfl rfl (beforePop_afterSendBuffers n _) (fun _ => rfl)
      (local_afterSendBuffers n _ _ hlocal)
  | receiveAsync caller =>
    simp only [hq] at hstep hlocal
    obtain ⟨hpop, hreceives, hnothing⟩ := goesOn_spec cap caller false
    split_ifs at hstep
    all_goals cases hstep
    · exact h.walk hq rfl rfl hpop (by simp [hreceives]) (hnothing _)
    · exact h.walk hq rfl rfl rfl (fun _ => rfl) hlocal
  | receiveArming caller =>
    simp only [hq] at hstep hlocal
    split_ifs at hstep
    all_goals cases hstep
    · obtain ⟨hpop, hreceives, hnothing⟩ := goesOn_spec cap caller true
      obtain ⟨b, hb⟩ := h.token
      exact h.local_step hq rfl rfl hpop ⟨b, hb.give (by rw [hq]; rfl) hreceives (by simp)⟩
        (fun _ => hlocal) (hnothing _)
    · exact h.walk hq rfl rfl rfl nofun trivial
  | receiveFailed caller =>
    simp only [hq] at hstep hlocal
    cases hstep
    obtain ⟨hpop, hreceives, hnothing⟩ := goesOn_spec cap caller false
    exact h.walk hq rfl rfl hpop (by simp [hreceives]) (hnothing _)
  | peek succeeded =>
    simp only [hq] at hstep
    cases hstep
    exact h.walk hq rfl rfl rfl nofun rfl
  | peekHead succeeded loadedHead =>
    simp only [hq] at hstep hlocal
    cases hstep
    exact h.walk hq rfl rfl rfl nofun
      ⟨hlocal, s.published, List.prefix_refl _, h.ring.window.le, h.ring.tail_eq⟩
  | peekTail succeeded loadedHead loadedTail =>
    simp only [hq] at hstep
    split at hstep
    · cases hstep
    · cases hstep
      cases succeeded with
      | true => exact h.walk hq rfl rfl rfl nofun trivial
      | false => exact h.walk hq rfl rfl rfl nofun trivial
    · rename_i message hpeek
      cases hstep
      exact h.walk hq rfl rfl rfl nofun (h.peekFinds hq hpeek)
  | pushing succeeded message =>
    simp only [hq] at hstep
    cases hstep
    exact h.push hq ((hok t answers rfl).1 succeeded message hq)
  | popping succeeded n =>
    simp only [hq] at hstep hlocal
    cases hstep
    exact h.walk hq rfl rfl rfl nofun ⟨hlocal, rfl⟩
  | popHead succeeded n loadedHead =>
    simp only [hq] at hstep
    cases hstep
    exact h.pop hq ((hok t answers rfl).2 succeeded n loadedHead hq)
  | postIoFailed =>
    simp only [hq] at hstep
    cases hstep
    exact h.walk hq rfl rfl rfl nofun trivial
  | close =>
    simp only [hq] at hstep
    cases hstep
    exact h.walk hq rfl rfl rfl nofun trivial

/-- The receive in flight ends. -/
theorem Inv.ends {io : ReceiveIo} (h : Inv cap s) (hio : s.receiveIo = .inFlight) (hne : io ≠ .none) :
    Inv cap { s with receiveIo := io } := by
  obtain ⟨b, hb⟩ := h.token
  exact ⟨⟨b, hb.out_congr (by simp [hio, hne])⟩, h.popper, h.ring,
    fun _ => h.io (by rw [hio]; nofun), h.threads, h.settled⟩

/-- Every step that meets the condition keeps the invariant. -/
theorem inv_step {a : Action} (h : Inv cap s) (hok : DrainsApart s a)
    (hstep : step cap messageMaxSize s a = some s') : Inv cap s' := by
  cases a with
  | start t handler =>
    simp only [step, startStep] at hstep
    split at hstep
    · rename_i hq
      cases handler with
      | receiveCompletion =>
        dsimp only at hstep
        obtain ⟨b, hb⟩ := h.token
        split at hstep
        · rename_i n hio
          cases hstep
          have hout : s.receiveIo ≠ .none := by rw [hio]; nofun
          exact h.local_step hq rfl rfl rfl ⟨b, hb.accept hout rfl (by simp)⟩
            (fun hne => absurd rfl hne) (h.io hout)
        · rename_i hio
          cases hstep
          have hout : s.receiveIo ≠ .none := by rw [hio]; nofun
          refine h.local_step hq rfl rfl rfl ⟨false, .off_of ?_ (by simp)⟩
            (fun hne => absurd rfl hne) trivial
          exact forall_update (A := fun _ p => Pc.receives p = false)
            (fun u _ => (hb.of_out hout).2 u) rfl
        · cases hstep
      | disconnectSession =>
        cases hstep
        exact h.walk hq rfl rfl rfl nofun trivial
    · cases hstep
  | run t answers => exact h.runStep hok hstep
  | complete n =>
    simp only [step] at hstep
    split at hstep
    · rename_i hio
      cases hstep
      exact h.ends hio (by simp)
    · cases hstep
  | fail =>
    simp only [step] at hstep
    split at hstep
    · rename_i hio
      cases hstep
      exact h.ends hio (by simp)
    · cases hstep

/-! ## Runs -/

theorem inv_init (buffer : Nat → UInt8) (t : Nat) (hcap : 0 < cap) :
    Inv cap (State.init buffer t) where
  token := by
    have hoff : Token Pc.receives (fun _ : Nat => Pc.idle) False false :=
      .off_of (fun _ => rfl) id
    exact ⟨true, (hoff.take rfl).out_congr (by simp [State.init])⟩
  popper := ⟨false, .off_of
    (forall_update (A := fun _ p => Pc.beforePop p = false) (fun _ _ => rfl) rfl) id⟩
  ring := ⟨window_nil hcap, (Nat.zero_mod cap).symm, (Nat.zero_mod cap).symm, List.prefix_refl _,
    [], by simp, rfl, List.prefix_refl _⟩
  io hio := absurd rfl hio
  threads := forall_update (A := fun _ => Local cap _) (fun _ _ => trivial) rfl
  settled _ := rfl

theorem Inv.dispatchedOnce (h : Inv cap s) : s.DispatchedOnce := by
  obtain ⟨fs, hvalid, hpushed, hstream⟩ := h.ring.frames
  have hpushed' : s.pushed = fs.map messageOf := hpushed
  refine ⟨?_, ?_⟩
  · obtain ⟨rest, hrest⟩ := hstream.trans h.ring.published_prefix
    have hdecrypted : Format.stream fs ++ rest = s.decrypted := hrest
    rw [hpushed', parseMessages, ← hdecrypted, Format.parse_stream_append hvalid, List.map_append]
    exact List.prefix_append _ _
  · by_cases hall : ∀ u, (s.pc u).beforePop = false
    · exact Nat.le_of_eq (h.settled hall)
    · obtain ⟨u, hu⟩ := not_forall.mp hall
      have hlocal := h.threads u
      cases hp : s.pc u with
      | popping succeeded n =>
        rw [hp] at hlocal
        exact Nat.le.intro hlocal
      | popHead succeeded n loadedHead =>
        rw [hp] at hlocal
        exact Nat.le.intro hlocal.1
      | _ => exact absurd (by rw [hp]; rfl) hu

/-- **Each message once and in order.** However the stream is split into completions and the handlers
interleave: as long as no handler pushes a message between the push and the Pop of another one, and
none advances the head between the Peek and the push of another one, the messages pushed are always
the first ones of the stream, and the head has not passed the end of the last of them. -/
theorem dispatchedOnce_of_drainsApart (cap messageMaxSize : Nat) (hcap : 0 < cap)
    (buffer : Nat → UInt8) (t : Nat) (as : List Action)
    (hok : Meets (step cap messageMaxSize) DrainsApart (State.init buffer t) as) (s : State)
    (hrun : run (step cap messageMaxSize) (State.init buffer t) as = some s) : s.DispatchedOnce :=
  (run_invariant (P := Inv cap) (fun _ _ _ h hok => inv_step h hok) (inv_init buffer t hcap) hok
    hrun).dispatchedOnce

/-! ## Finitely many threads -/

/-- The thread that an action is a step of. -/
def Action.thread : Action → Option Nat
  | .start t _ | .run t _ => some t
  | .complete _ | .fail => none

theorem goto_pc_of_ne {u : Nat} (hne : t ≠ u) (p : Pc) : (s.goto t p).pc u = s.pc u := by
  simp [State.goto, Function.update_of_ne hne.symm]

/-- A step leaves all other threads where they are. -/
theorem pc_of_step {a : Action} {u : Nat} (hstep : step cap messageMaxSize s a = some s')
    (hu : a.thread ≠ some u) : s'.pc u = s.pc u := by
  cases a with
  | start t handler =>
    have hne : t ≠ u := fun h => hu (congrArg some h)
    simp only [step, startStep] at hstep
    repeat' split at hstep
    all_goals first
      | (obtain rfl := Option.some.inj hstep; exact goto_pc_of_ne hne _)
      | cases hstep
  | run t answers =>
    have hne : t ≠ u := fun h => hu (congrArg some h)
    simp only [step, runStep, fillStep] at hstep
    repeat' split at hstep
    all_goals first
      | (obtain rfl := Option.some.inj hstep; exact goto_pc_of_ne hne _)
      | cases hstep
  | complete n =>
    simp only [step] at hstep
    split at hstep
    · cases hstep
      rfl
    · cases hstep
  | fail =>
    simp only [step] at hstep
    split at hstep
    · cases hstep
      rfl
    · cases hstep

/-- The step is one of the first `n` threads or of the system, and the condition is met as far as these
threads go. -/
def DrainsApartBelow (n : Nat) (s : State) (a : Action) : Prop :=
  a.thread.all (· < n) = true ∧
  match a with
  | .run t _ =>
    match s.pc t with
    | .pushing _ _ => ∀ u < n, u ≠ t → (s.pc u).beforePop = false
    | .popHead _ _ _ => ∀ u < n, u ≠ t → (s.pc u).beforePush = false
    | _ => True
  | _ => True

instance (n : Nat) (s : State) (a : Action) : Decidable (DrainsApartBelow n s a) := by
  unfold DrainsApartBelow
  split
  · split <;> infer_instance
  · infer_instance

/-- While only the first `n` threads do anything, the condition is about them. -/
theorem drainsApart_of_below {n : Nat} {as : List Action} (hidle : ∀ u, n ≤ u → s.pc u = .idle)
    (h : Meets (step cap messageMaxSize) (DrainsApartBelow n) s as) :
    Meets (step cap messageMaxSize) DrainsApart s as := by
  refine h.imp (P := fun s : State => ∀ u, n ≤ u → s.pc u = .idle) ?_ ?_ hidle
  · rintro s a hidle ha t answers rfl
    obtain ⟨-, ha⟩ := ha
    dsimp only at ha
    constructor
    · intro succeeded message hq u hne
      rw [hq] at ha
      by_cases hu : u < n
      · exact ha u hu hne
      · rw [hidle u (Nat.le_of_not_lt hu)]
        rfl
    · intro succeeded size loadedHead hq u hne
      rw [hq] at ha
      by_cases hu : u < n
      · exact ha u hu hne
      · rw [hidle u (Nat.le_of_not_lt hu)]
        rfl
  · intro s a s' hidle ha hstep u hu
    have hother : a.thread ≠ some u := by
      intro hthread
      obtain ⟨hbelow, -⟩ := ha
      simp [hthread] at hbelow
      omega
    rw [pc_of_step hstep hother, hidle u hu]

/-! ## An example and a counterexample -/

/-- The thread `t` goes on `k` times, without any answer of its own. -/
def goOn (t k : Nat) : List Action := List.replicate k (.run t {})

/-- The thread `t` takes a completion, of which `SSL_read` returns these bytes, and posts the next
receive. -/
def receive (t : Nat) (bytes : Bytes) : List Action :=
  [.complete 5, .start t .receiveCompletion] ++ goOn t 4 ++ [.run t { sslRead := .bytes bytes }] ++
    goOn t 3

/-- A thread accepts the session. Another one receives a message of type 1 without a body, and while it
drains, a third one receives a message of type 2 and dispatches it. -/
def receiveBoth : List Action :=
  goOn 0 2 ++ receive 1 [0, 1, 0, 0] ++ goOn 1 3 ++ receive 2 [0, 2, 0, 1, 9] ++ goOn 1 3 ++ goOn 2 6 ++
    goOn 1 3 ++ goOn 2 3

theorem dispatchedOnce_of_drainsApart_receiveBoth :
    ∃ s, run (step 32 8) (State.init (fun _ => 0) 0) receiveBoth = some s ∧
      s.pushed = [(1, []), (2, [9])] ∧ s.popped = 9 ∧ s.DispatchedOnce :=
  ⟨_, rfl, rfl, rfl, dispatchedOnce_of_drainsApart 32 8 (by decide) (fun _ => 0) 0 receiveBoth
    (drainsApart_of_below (n := 3) (fun u hu => by
      simp [State.init, Function.update_of_ne (show u ≠ 0 by omega)]) (by decide)) _ rfl⟩

/-- The handlers of two completions peek at the same message, and both push it. -/
theorem dispatchedOnce_fails : ∃ s, run (step 32 8) (State.init (fun _ => 0) 0)
      (let one := Action.run 1 {}
       let two := Action.run 2 {}
       [.run 0 {}, .run 0 {}, .complete 5, .start 1 .receiveCompletion, one, one, one, one,
        .run 1 { sslRead := .bytes [0, 1, 0, 0] }, one, one, one,
        .complete 1, .start 2 .receiveCompletion, two, two, two, two, two, two, two,
        one, one, two, two, one, two, one, two]) = some s ∧
    s.decrypted = [0, 1, 0, 0] ∧ s.pushed = [(1, []), (1, [])] ∧ ¬ s.DispatchedOnce := by
  refine ⟨_, rfl, rfl, rfl, fun h => ?_⟩
  have hnext : messageFormat.next [0, 1, 0, 0] = some (([0, 1, 0, 0], []), []) := by decide
  have hlength := h.1.length_le
  change 2 ≤ (parseMessages [0, 1, 0, 0]).length at hlength
  rw [parseMessages, Format.parse_of_some hnext, Format.parse_nil] at hlength
  exact absurd hlength (by decide)

end RatkiniaServer.ReceiveHandlers
