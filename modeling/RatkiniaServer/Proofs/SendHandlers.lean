import RatkiniaServer.Proofs.SendSteps

/-!
# Outgoing bytes are sent once and in order

The flag of the send operation is a token: at most one thread or call has it. What keeps the bytes in
order is a second region that the code does not guard by a flag of its own, from the load of the head
for `WSASend` through the call and its completion up to the store of the head. As long as the region
is entered only while nobody else is in it, the ring is a window on the stream of all bytes appended,
and every call in flight carries the front of the window.
-/

namespace RatkiniaServer.SendHandlers

open Ring Session Threads Transition

variable {cap : Nat} {s s' r : State} {t : Nat} {p q : Pc}

/-! ## The regions -/

/-- The caller has the token of the send operation. -/
def Caller.sends : Caller → Bool
  | .trySendAsync => true
  | .tryPostReceive => false

/-- The thread has the token of the send operation. -/
def Pc.ownsSend : Pc → Bool
  | .postSend _ | .postIoFailed => true
  | .sendOnline | .sendHeadLoaded _ | .sendTailLoaded _ _ | .sendReceiveBuffers => true
  | .sendReady | .sendReadyHead _ | .sendReadyTail _ _ | .sendFailed => true
  | .processSendBuffers caller | .writing caller | .sslWriting caller _ => caller.sends
  | .fillHead caller _ | .fillTail caller _ _ | .filling caller _ _ _ _ => caller.sends
  | _ => false

/-- The thread relies on the head: it has loaded it for `WSASend`, or it is to advance it. -/
def Pc.usesHead : Pc → Bool
  | .sendReadyHead _ | .sendReadyTail _ _ => true
  | p => p.updatesHead

/-- The thread holds `sendBuffersProcessMutex_`. -/
def Pc.fills : Pc → Bool
  | .writing _ | .sslWriting _ _ | .fillHead _ _ | .fillTail _ _ _ | .filling _ _ _ _ _ => true
  | _ => false

/-- The regions that a program counter is in. -/
def Pc.regions (p : Pc) : Bool × Bool × Bool × Bool :=
  (p.ownsSend, p.usesHead, p.updatesHead, p.fills)

@[simp] theorem regions_goesOn (caller : Caller) (r : SendBuffersProcessResult) :
    (caller.goesOn r).regions = (caller.sends, false, false, false) := by
  cases caller <;> cases r <;> rfl

/-! ## The invariant -/

/-- The part of the state that the assertions of the threads are about. -/
structure SendRing where
  buffer : Nat → UInt8
  head : Nat
  tail : Nat
  appended : Bytes
  completed : Bytes
  acknowledged : Nat
  sendIo : SendIo

/-- The ring of a state. -/
def State.ring (s : State) : SendRing :=
  ⟨s.buffer, s.head, s.tail, s.appended, s.completed, s.acknowledged, s.sendIo⟩

/-- What a thread knows of the ring. -/
def Local (cap : Nat) (r : SendRing) : Pc → Prop
  | .postSend n | .flagCleared n => r.acknowledged + n = r.completed.length
  | .headLoaded n loadedHead =>
    r.acknowledged + n = r.completed.length ∧ loadedHead = r.head
  | .sendReadyHead loadedHead => loadedHead = r.head
  | .sendReadyTail loadedHead loadedTail =>
    loadedHead = r.head ∧
      ∃ xs, xs <+: r.appended ∧ r.acknowledged ≤ xs.length ∧ loadedTail = xs.length % cap
  | .fillTail _ _ loadedHead =>
    ∃ k ≤ r.acknowledged, loadedHead = k % cap ∧ Window cap r.buffer k r.appended
  | .filling _ _ loadedHead loadedTail written =>
    loadedTail = r.tail ∧
      ∃ k ≤ r.acknowledged, loadedHead = k % cap ∧ Window cap r.buffer k (r.appended ++ written)
  | _ => True

/-- What is known of the send operation. -/
def IoLocal (r : SendRing) : SendIo → Prop
  | .inFlight call =>
    call.data <+: r.appended.drop r.acknowledged ∧ call.data.length = call.length
  | .completed n => r.acknowledged + n = r.completed.length
  | _ => True

/-- The ring is a window on the stream of the bytes appended. -/
structure RingInv (cap : Nat) (r : SendRing) : Prop where
  window : Window cap r.buffer r.acknowledged r.appended
  head_eq : r.head = r.acknowledged % cap
  tail_eq : r.tail = r.appended.length % cap
  completed_prefix : r.completed <+: r.appended
  io : IoLocal r r.sendIo

/-- The invariant. -/
structure Inv (cap : Nat) (s : State) : Prop where
  /-- The flag stands for the token of the send operation. -/
  token : Token Pc.ownsSend s.pc (s.sendIo ≠ .none) s.isSendOnline
  /-- At most one thread or call relies on the head. -/
  region : ∃ b, Token Pc.usesHead s.pc (s.sendIo ≠ .none) b
  /-- The mutex records who fills the ring. -/
  filler : Tracks Pc.fills s.pc s.processMutex
  ring : RingInv cap s.ring
  threads : ∀ u, Local cap s.ring (s.pc u)
  /-- Where no update of the head is pending, the head has passed all completed bytes. -/
  settled : s.NoHeadUpdatePending → s.completed.length = s.acknowledged

theorem Pc.usesHead_of_updatesHead (h : p.updatesHead = true) : p.usesHead = true := by
  cases p <;> first | rfl | cases h

theorem Pc.updatesHead_of_usesHead (h : p.usesHead = false) : p.updatesHead = false := by
  cases hp : p.updatesHead with
  | false => rfl
  | true =>
    rw [Pc.usesHead_of_updatesHead hp] at h
    cases h

/-- Whoever relies on the head has the token or has cleared the flag. -/
theorem Pc.usesHead_eq_false (howns : p.ownsSend = false) (hflag : p.flagBeforeHead = false) :
    p.usesHead = false := by
  cases p <;> trivial

/-- A thread that relies on the head does so alone. -/
theorem Inv.usesHead_alone (h : Inv cap s) (huses : (s.pc t).usesHead = true) :
    s.sendIo = .none ∧ ∀ u, u ≠ t → (s.pc u).usesHead = false := by
  obtain ⟨b, hb⟩ := h.region
  refine ⟨of_not_not (hb.of_mem huses).2, fun u hne => ?_⟩
  cases hu : (s.pc u).usesHead with
  | false => rfl
  | true => exact absurd (hb.unique hu huses) hne

/-- While the operation is on, no thread relies on the head. -/
theorem Inv.usesHead_of_io (h : Inv cap s) (hio : s.sendIo ≠ .none) (u : Nat) :
    (s.pc u).usesHead = false := by
  obtain ⟨b, hb⟩ := h.region
  exact (hb.of_out hio).2 u

/-- A step of a thread that leaves the pending updates alone. -/
theorem State.NoHeadUpdatePending.of_step (hnone : s'.NoHeadUpdatePending)
    (hpc : s'.pc = Function.update s.pc t p) (hio : s'.sendIo = s.sendIo)
    (hupdates : p.updatesHead = (s.pc t).updatesHead) : s.NoHeadUpdatePending := by
  refine ⟨hio ▸ hnone.1, fun u => ?_⟩
  have hu := hnone.2 u
  rw [hpc] at hu
  rcases eq_or_ne u t with rfl | hne
  · rwa [Function.update_self, hupdates] at hu
  · rwa [Function.update_of_ne hne] at hu

/-! ## Steps that leave the ring alone -/

/-- The assertion of a thread outside of both regions says nothing. -/
theorem local_of_outside {r : SendRing} (huses : p.usesHead = false) (hfills : p.fills = false) :
    Local cap r p := by
  cases p <;> trivial

/-- A step of one thread that leaves the ring and the pending updates of the head alone. -/
theorem Inv.local_step (h : Inv cap s) (hq : s.pc t = q) (hpc : s'.pc = Function.update s.pc t p)
    (hring : s'.ring = s.ring) (hupdates : p.updatesHead = q.updatesHead)
    (htoken : Token Pc.ownsSend s'.pc (s'.sendIo ≠ .none) s'.isSendOnline)
    (hregion : ∃ b, Token Pc.usesHead s'.pc (s'.sendIo ≠ .none) b)
    (hfiller : Tracks Pc.fills s'.pc s'.processMutex) (hlocal : Local cap s.ring p) :
    Inv cap s' := by
  have hio : s'.sendIo = s.sendIo := congrArg SendRing.sendIo hring
  refine ⟨htoken, hregion, hfiller, hring ▸ h.ring, ?_, ?_⟩
  · rw [hpc, hring]
    exact forall_update (A := fun _ => Local cap s.ring) (fun u _ => h.threads u) hlocal
  · intro hnone
    have hcompleted : s'.completed = s.completed := congrArg SendRing.completed hring
    have hacknowledged : s'.acknowledged = s.acknowledged := congrArg SendRing.acknowledged hring
    rw [hcompleted, hacknowledged]
    exact h.settled (hnone.of_step hpc hio (by rw [hq, hupdates]))

/-- A step that does not enter or leave the region that relies on the head. -/
theorem Inv.beside (h : Inv cap s) (hq : s.pc t = q) (hpc : s'.pc = Function.update s.pc t p)
    (hring : s'.ring = s.ring)
    (hhead : (p.usesHead, p.updatesHead) = (q.usesHead, q.updatesHead))
    (htoken : Token Pc.ownsSend (Function.update s.pc t p) (s.sendIo ≠ .none) s'.isSendOnline)
    (hfiller : Tracks Pc.fills (Function.update s.pc t p) s'.processMutex)
    (hlocal : Local cap s.ring p) : Inv cap s' := by
  obtain ⟨huses, hupdates⟩ := Prod.mk.inj hhead
  have hio : s'.sendIo = s.sendIo := congrArg SendRing.sendIo hring
  obtain ⟨b, hb⟩ := h.region
  refine h.local_step hq hpc hring hupdates ?_ ⟨b, ?_⟩ ?_ hlocal
  · rwa [hpc, hio]
  · rw [hpc, hio]
    exact hb.move (by rw [hq, huses])
  · rwa [hpc]

/-- The ring, the flag and the mutex that the regions are about. -/
def State.guarded (s : State) : SendRing × Bool × Option Nat :=
  (s.ring, s.isSendOnline, s.processMutex)

/-- A step that stays in the same regions. -/
theorem Inv.walk (h : Inv cap s) (hq : s.pc t = q) (hpc : s'.pc = Function.update s.pc t p)
    (hguarded : s'.guarded = s.guarded) (hregions : p.regions = q.regions)
    (hlocal : Local cap s.ring p) : Inv cap s' := by
  obtain ⟨hown, huses, hupdates, hfills⟩ : p.ownsSend = q.ownsSend ∧ p.usesHead = q.usesHead ∧
      p.updatesHead = q.updatesHead ∧ p.fills = q.fills := by
    simpa [Pc.regions] using hregions
  obtain ⟨hring, honline, hmutex⟩ : s'.ring = s.ring ∧ s'.isSendOnline = s.isSendOnline ∧
      s'.processMutex = s.processMutex := by
    simpa [State.guarded] using hguarded
  refine h.beside hq hpc hring (by rw [huses, hupdates]) ?_ ?_ hlocal
  · rw [honline]
    exact h.token.move (by rw [hq, hown])
  · rw [hmutex]
    exact h.filler.move (by rw [hq, hfills])

/-- `TryProcessSendBuffers` returns without a store to the tail. -/
theorem Inv.leaveFill {caller : Caller} {r : SendBuffersProcessResult} (h : Inv cap s)
    (hq : s.pc t = q) (hpc : s'.pc = Function.update s.pc t (caller.goesOn r))
    (hring : s'.ring = s.ring) (honline : s'.isSendOnline = s.isSendOnline)
    (hmutex : s'.processMutex = none) (hregions : q.regions = (caller.sends, false, false, true)) :
    Inv cap s' := by
  obtain ⟨hown, huses, hupdates, hfills⟩ : (caller.goesOn r).ownsSend = caller.sends ∧
      (caller.goesOn r).usesHead = false ∧ (caller.goesOn r).updatesHead = false ∧
      (caller.goesOn r).fills = false := by
    simpa [Pc.regions] using regions_goesOn caller r
  obtain ⟨hown', huses', hupdates', hfills'⟩ : q.ownsSend = caller.sends ∧ q.usesHead = false ∧
      q.updatesHead = false ∧ q.fills = true := by
    simpa [Pc.regions] using hregions
  refine h.beside hq hpc hring (by rw [huses, huses', hupdates, hupdates']) ?_ ?_
    (local_of_outside huses hfills)
  · rw [honline]
    exact h.token.move (by rw [hq, hown, hown'])
  · rw [hmutex]
    exact h.filler.leave (by rw [hq, hfills']) hfills

/-! ## Steps on the ring -/

/-- What a thread that does not fill the ring knows survives what a thread that does can do. -/
theorem Local.of_fill {r r' : SendRing} (h : Local cap r p) (hfills : p.fills = false)
    (hhead : r'.head = r.head) (hack : r'.acknowledged = r.acknowledged)
    (hcompleted : r'.completed = r.completed) (happended : r.appended <+: r'.appended) :
    Local cap r' p := by
  cases p <;> try trivial
  case postSend n => simpa [Local, hack, hcompleted] using h
  case flagCleared n => simpa [Local, hack, hcompleted] using h
  case headLoaded n loadedHead => simpa [Local, hack, hcompleted, hhead] using h
  case sendReadyHead loadedHead => simpa [Local, hhead] using h
  case sendReadyTail loadedHead loadedTail =>
    obtain ⟨hh, xs, hxs, hle, ht⟩ := h
    exact ⟨by rw [hhead, hh], xs, hxs.trans happended, by rw [hack]; exact hle, ht⟩

/-- What a thread that does not rely on the head knows survives an advance of the head. -/
theorem Local.of_advance {r r' : SendRing} (h : Local cap r p) (huses : p.usesHead = false)
    (hbuffer : r'.buffer = r.buffer) (htail : r'.tail = r.tail)
    (happended : r'.appended = r.appended) (hack : r.acknowledged ≤ r'.acknowledged) :
    Local cap r' p := by
  cases p <;> try trivial
  case fillTail caller wantRead loadedHead =>
    obtain ⟨k, hk, hh, hw⟩ := h
    exact ⟨k, Nat.le_trans hk hack, hh, by rw [hbuffer, happended]; exact hw⟩
  case filling caller wantRead loadedHead loadedTail written =>
    obtain ⟨ht, k, hk, hh, hw⟩ := h
    exact ⟨by rw [htail, ht], k, Nat.le_trans hk hack, hh, by rw [hbuffer, happended]; exact hw⟩

/-- No thread knows anything of the send operation. -/
theorem Local.of_io {r : SendRing} (h : Local cap r p) (io : SendIo) :
    Local cap { r with sendIo := io } p := by
  cases p <;> exact h

/-- The head is advanced for a completion. -/
theorem Inv.advanceHead {n loadedHead : Nat} (h : Inv cap s) (hq : s.pc t = .headLoaded n loadedHead) :
    Inv cap { s.goto t .trySendAsync with
      head := (loadedHead + n) % cap, acknowledged := s.acknowledged + n } := by
  obtain ⟨b, hb⟩ := h.region
  have huses : (s.pc t).usesHead = true := by rw [hq]; rfl
  obtain ⟨hnone, hother⟩ := h.usesHead_alone huses
  obtain ⟨hsum, hhead⟩ : s.acknowledged + n = s.completed.length ∧ loadedHead = s.head := by
    have hlocal := h.threads t
    rwa [hq] at hlocal
  have hle : s.acknowledged + n ≤ s.appended.length := hsum ▸ h.ring.completed_prefix.length_le
  refine ⟨h.token.move (by rw [hq]; rfl), ⟨false, hb.release huses rfl⟩,
    h.filler.move (by rw [hq]; rfl), ⟨h.ring.window.advance (Nat.le_add_right ..) hle, ?_, h.ring.tail_eq,
      h.ring.completed_prefix, ?_⟩, ?_, fun _ => hsum.symm⟩
  · have hhead' : s.head = s.acknowledged % cap := h.ring.head_eq
    change (loadedHead + n) % cap = (s.acknowledged + n) % cap
    rw [hhead, hhead', Nat.mod_add_mod]
  · change IoLocal _ s.sendIo
    rw [hnone]
    trivial
  · exact forall_update (A := fun _ => Local cap _)
      (fun u hne => (h.threads u).of_advance (hother u hne) rfl rfl rfl (Nat.le_add_right ..)) trivial

/-- `WSASend` takes a call. -/
theorem Inv.postCall {loadedHead loadedTail : Nat} (h : Inv cap s)
    (hq : s.pc t = .sendReadyTail loadedHead loadedTail) :
    let len :=
      (if loadedTail ≥ loadedHead then loadedTail - loadedHead else cap - loadedHead) % 2 ^ 32
    Inv cap { s.goto t .idle with
      sendIo := .inFlight ⟨loadedHead, len, slice s.buffer loadedHead len⟩ } := by
  intro len
  obtain ⟨b, hb⟩ := h.region
  have huses : (s.pc t).usesHead = true := by rw [hq]; rfl
  obtain ⟨hhead, xs, ⟨ys, hys⟩, hle, htail⟩ : loadedHead = s.head ∧ ∃ xs, xs <+: s.appended ∧
      s.acknowledged ≤ xs.length ∧ loadedTail = xs.length % cap := by
    have hlocal := h.threads t
    rwa [hq] at hlocal
  have hhead' : loadedHead = s.acknowledged % cap := hhead.trans h.ring.head_eq
  have hwindow : Window cap s.buffer s.acknowledged xs := by
    have hall : Window cap s.buffer s.acknowledged s.appended := h.ring.window
    rw [← hys] at hall
    exact hall.truncate hle
  obtain ⟨hpiece, hend, -⟩ := hwindow.holds.piece_le
  rw [← hhead', ← htail, List.length_drop] at hpiece
  rw [← hhead', ← htail] at hend
  have hlen : len ≤ if loadedHead ≤ loadedTail then loadedTail - loadedHead else cap - loadedHead :=
    Nat.mod_le _ _
  have hdata : slice s.buffer loadedHead len = (xs.drop s.acknowledged).take len := by
    rw [hhead']
    exact hwindow.slice_eq (by omega) (by omega)
  have hout : SendIo.inFlight ⟨loadedHead, len, slice s.buffer loadedHead len⟩ ≠ .none := nofun
  refine ⟨h.token.give (by rw [hq]; rfl) rfl hout, ⟨b, hb.give huses rfl hout⟩,
    h.filler.move (by rw [hq]; rfl), ⟨h.ring.window, h.ring.head_eq, h.ring.tail_eq,
      h.ring.completed_prefix, ?_, length_slice⟩, ?_, ?_⟩
  · change slice s.buffer loadedHead len <+: s.appended.drop s.acknowledged
    rw [hdata, ← hys, List.drop_append_of_le_length hle]
    exact (List.take_prefix _ _).trans (List.prefix_append _ _)
  · exact forall_update (A := fun _ => Local cap _) (fun u _ => (h.threads u).of_io _) trivial
  · rintro -
    obtain ⟨hnone, hother⟩ := h.usesHead_alone huses
    refine h.settled ⟨by rw [hnone]; nofun, fun u => ?_⟩
    rcases eq_or_ne u t with rfl | hne
    · rw [hq]
      rfl
    · exact Pc.updatesHead_of_usesHead (hother u hne)

/-- The bytes of `WriteBio` that fit are written behind the ring. -/
theorem Inv.fillBytes {caller : Caller} {wantRead : Bool} {loadedHead loadedTail : Nat}
    {written bytes : Bytes} (h : Inv cap s)
    (hq : s.pc t = .filling caller wantRead loadedHead loadedTail written)
    (hroom : size cap loadedHead ((loadedTail + written.length) % cap) + bytes.length < cap)
    (hend : (loadedTail + written.length) % cap + bytes.length ≤ cap) :
    Inv cap { s.goto t (.filling caller wantRead loadedHead loadedTail (written ++ bytes)) with
      buffer := write s.buffer ((loadedTail + written.length) % cap) bytes } := by
  obtain ⟨htail, k, hk, hhead, hwindow⟩ : loadedTail = s.tail ∧ ∃ k ≤ s.acknowledged,
      loadedHead = k % cap ∧ Window cap s.buffer k (s.appended ++ written) := by
    have hlocal := h.threads t
    rwa [hq] at hlocal
  have hfills : (s.pc t).fills = true := by rw [hq]; rfl
  have hpos : (loadedTail + written.length) % cap = (s.appended ++ written).length % cap := by
    have htail' : s.tail = s.appended.length % cap := h.ring.tail_eq
    rw [htail, htail', Nat.mod_add_mod, List.length_append]
  rw [hpos, hhead, hwindow.size_eq] at hroom
  rw [hpos] at hend
  obtain ⟨hnext, hglobal⟩ := hwindow.extend_behind bytes hk h.ring.window.le hroom hend
  obtain ⟨b, hb⟩ := h.region
  refine ⟨h.token.move (by rw [hq]; rfl), ⟨b, hb.move (by rw [hq]; rfl)⟩,
    h.filler.move (by rw [hq]; rfl), ⟨?_, h.ring.head_eq, h.ring.tail_eq,
      h.ring.completed_prefix, h.ring.io⟩, ?_, ?_⟩
  · rw [hpos]
    exact hglobal
  · refine forall_update (A := fun _ => Local cap _) (fun u hne => ?_)
      ⟨htail, k, hk, hhead, ?_⟩
    · refine (h.threads u).of_fill ?_ rfl rfl rfl (List.prefix_refl _)
      cases hu : (s.pc u).fills with
      | false => rfl
      | true => exact absurd (h.filler.unique hu hfills) hne
    · rw [hpos]
      exact hnext
  · exact fun hnone => h.settled (hnone.of_step rfl rfl (by rw [hq]; rfl))

/-- The tail is advanced over the bytes written. -/
theorem Inv.storeTail {caller : Caller} {wantRead : Bool} {loadedHead loadedTail : Nat}
    {written : Bytes} {r : SendBuffersProcessResult} (h : Inv cap s)
    (hq : s.pc t = .filling caller wantRead loadedHead loadedTail written) :
    Inv cap { s.goto t (caller.goesOn r) with
      processMutex := none
      tail := (loadedTail + written.length) % cap
      appended := s.appended ++ written } := by
  obtain ⟨htail, k, hk, -, hwindow⟩ : loadedTail = s.tail ∧ ∃ k ≤ s.acknowledged,
      loadedHead = k % cap ∧ Window cap s.buffer k (s.appended ++ written) := by
    have hlocal := h.threads t
    rwa [hq] at hlocal
  obtain ⟨hown, huses, hupdates, hfills'⟩ : (caller.goesOn r).ownsSend = caller.sends ∧
      (caller.goesOn r).usesHead = false ∧ (caller.goesOn r).updatesHead = false ∧
      (caller.goesOn r).fills = false := by
    simpa [Pc.regions] using regions_goesOn caller r
  have hfills : (s.pc t).fills = true := by rw [hq]; rfl
  have hle : s.acknowledged ≤ s.appended.length := h.ring.window.le
  have hglobal := hwindow.advance hk (by rw [List.length_append]; omega)
  obtain ⟨b, hb⟩ := h.region
  refine ⟨h.token.move (by rw [hq, hown]; rfl), ⟨b, hb.move (by rw [hq, huses]; rfl)⟩,
    h.filler.leave hfills hfills', ⟨hglobal, h.ring.head_eq, ?_,
      h.ring.completed_prefix.trans (List.prefix_append _ _), ?_⟩, ?_, ?_⟩
  · have htail' : s.tail = s.appended.length % cap := h.ring.tail_eq
    change (loadedTail + written.length) % cap = (s.appended ++ written).length % cap
    rw [htail, htail', Nat.mod_add_mod, List.length_append]
  · have hio : IoLocal s.ring s.sendIo := h.ring.io
    change IoLocal _ s.sendIo
    cases hs : s.sendIo with
    | none => trivial
    | failed => trivial
    | completed n =>
      rw [hs] at hio
      exact hio
    | inFlight call =>
      rw [hs] at hio
      refine ⟨hio.1.trans ?_, hio.2⟩
      change s.appended.drop s.acknowledged <+: (s.appended ++ written).drop s.acknowledged
      rw [List.drop_append_of_le_length hle]
      exact List.prefix_append _ _
  · refine forall_update (A := fun _ => Local cap _) (fun u hne => ?_)
      (local_of_outside huses hfills')
    refine (h.threads u).of_fill ?_ rfl rfl rfl (List.prefix_append _ _)
    cases hu : (s.pc u).fills with
    | false => rfl
    | true => exact absurd (h.filler.unique hu hfills) hne
  · exact fun hnone => h.settled (hnone.of_step rfl rfl (by rw [hq, hupdates]; rfl))

/-- The call in flight completes. -/
theorem Inv.complete {call : SendCall} {n : Nat} (h : Inv cap s) (hio : s.sendIo = .inFlight call)
    (hn : n ≤ call.length) : Inv cap { s with
      sendIo := .completed n, completed := s.completed ++ call.data.take n } := by
  obtain ⟨b, hb⟩ := h.region
  have hout : s.sendIo ≠ .none := by rw [hio]; nofun
  have hnot := h.usesHead_of_io hout
  have hsettled : s.completed.length = s.acknowledged := h.settled
    ⟨by rw [hio]; nofun, fun u => Pc.updatesHead_of_usesHead (hnot u)⟩
  obtain ⟨hdata, hlen⟩ : call.data <+: s.appended.drop s.acknowledged ∧
      call.data.length = call.length := by
    have hlocal : IoLocal s.ring s.sendIo := h.ring.io
    rwa [hio] at hlocal
  have hiff : SendIo.completed n ≠ .none ↔ s.sendIo ≠ .none := by simp [hio]
  refine ⟨h.token.out_congr hiff, ⟨b, hb.out_congr hiff⟩, h.filler,
    ⟨h.ring.window, h.ring.head_eq, h.ring.tail_eq, ?_, ?_⟩, fun u => ?_, ?_⟩
  · -- The completed bytes are the acknowledged ones, and the call carries those that follow.
    change s.completed ++ call.data.take n <+: s.appended
    have hcompleted : s.completed = s.appended.take s.acknowledged := by
      rw [← hsettled]
      exact List.prefix_iff_eq_take.mp h.ring.completed_prefix
    rw [hcompleted]
    conv_rhs => rw [← List.take_append_drop s.acknowledged s.appended]
    exact (List.prefix_append_right_inj _).mpr ((List.take_prefix _ _).trans hdata)
  · change s.acknowledged + n = (s.completed ++ call.data.take n).length
    rw [List.length_append, List.length_take, hlen, hsettled, Nat.min_eq_left hn]
  · exact (h.threads u).of_advance (hnot u) rfl rfl rfl (Nat.le_refl _)
  · rintro ⟨hnone, -⟩
    exact absurd rfl (hnone n)

/-- The call in flight fails. -/
theorem Inv.fail {call : SendCall} (h : Inv cap s) (hio : s.sendIo = .inFlight call) :
    Inv cap { s with sendIo := .failed } := by
  obtain ⟨b, hb⟩ := h.region
  have hiff : SendIo.failed ≠ .none ↔ s.sendIo ≠ .none := by simp [hio]
  exact ⟨h.token.out_congr hiff, ⟨b, hb.out_congr hiff⟩, h.filler,
    ⟨h.ring.window, h.ring.head_eq, h.ring.tail_eq, h.ring.completed_prefix, trivial⟩,
    fun u => (h.threads u).of_io _, fun hnone => h.settled ⟨by rw [hio]; nofun, hnone.2⟩⟩

/-- A thread takes the completion from the queue. -/
theorem Inv.dequeueCompleted {n : Nat} (h : Inv cap s) (hq : s.pc t = .idle)
    (hio : s.sendIo = .completed n) : Inv cap { s.goto t (.postSend n) with sendIo := .none } := by
  obtain ⟨b, hb⟩ := h.region
  have hout : s.sendIo ≠ .none := by rw [hio]; nofun
  have hlocal : s.acknowledged + n = s.completed.length := by
    have hlocal : IoLocal s.ring s.sendIo := h.ring.io
    rwa [hio] at hlocal
  refine ⟨h.token.accept hout rfl (by simp), ⟨b, hb.accept hout rfl (by simp)⟩,
    h.filler.move (by rw [hq]; rfl),
    ⟨h.ring.window, h.ring.head_eq, h.ring.tail_eq, h.ring.completed_prefix, trivial⟩, ?_, ?_⟩
  · exact forall_update (A := fun _ => Local cap _) (fun u _ => (h.threads u).of_io _) hlocal
  · rintro ⟨-, hall⟩
    have ht := hall t
    simp [State.goto, Pc.updatesHead] at ht

/-- A thread takes the failure from the queue. -/
theorem Inv.dequeueFailed (h : Inv cap s) (hq : s.pc t = .idle) (hio : s.sendIo = .failed) :
    Inv cap { s.goto t .postIoFailed with sendIo := .none } := by
  have hout : s.sendIo ≠ .none := by rw [hio]; nofun
  have hnot := h.usesHead_of_io hout
  refine ⟨h.token.accept hout rfl (by simp),
    ⟨false, .off_of (forall_update (A := fun _ p => Pc.usesHead p = false)
      (fun u _ => hnot u) rfl) (by simp)⟩,
    h.filler.move (by rw [hq]; rfl),
    ⟨h.ring.window, h.ring.head_eq, h.ring.tail_eq, h.ring.completed_prefix, trivial⟩, ?_, ?_⟩
  · exact forall_update (A := fun _ => Local cap _) (fun u _ => (h.threads u).of_io _) trivial
  · exact fun _ => h.settled
      ⟨by rw [hio]; nofun, fun u => Pc.updatesHead_of_usesHead (hnot u)⟩

/-! ## All steps -/

/-- The head is loaded for `WSASend`. -/
theorem Inv.loadHead (h : Inv cap s) (hq : s.pc t = .sendReady)
    (hok : ∀ u, (s.pc u).flagBeforeHead = false) : Inv cap (s.goto t (.sendReadyHead s.head)) := by
  have hown : (s.pc t).ownsSend = true := by rw [hq]; rfl
  have hnot : ∀ u, (s.pc u).usesHead = false := fun u => by
    rcases eq_or_ne u t with rfl | hne
    · rw [hq]
      rfl
    · cases howns : (s.pc u).ownsSend with
      | false => exact Pc.usesHead_eq_false howns (hok u)
      | true => exact absurd (h.token.unique howns hown) hne
  obtain ⟨b, hb⟩ := h.region
  obtain rfl := hb.flag_eq_false hnot (h.token.of_mem hown).2
  exact h.local_step hq rfl rfl rfl (h.token.move (by rw [hq]; rfl)) ⟨true, hb.take rfl⟩
    (h.filler.move (by rw [hq]; rfl)) rfl

/-- One iteration of the loop over `WriteBio`, or its end. -/
theorem Inv.fillStep {bio : BioAnswer} {caller : Caller} {wantRead : Bool}
    {loadedHead loadedTail : Nat} {written : Bytes} (h : Inv cap s)
    (hq : s.pc t = .filling caller wantRead loadedHead loadedTail written)
    (hstep : fillStep cap s t bio caller wantRead loadedHead loadedTail written = some s') :
    Inv cap s' := by
  have hstop : ∀ r, Inv cap { s.goto t (caller.goesOn r) with processMutex := none } := fun r =>
    h.leaveFill hq rfl rfl rfl rfl rfl
  cases bio with
  | nothingPending =>
    simp only [SendHandlers.fillStep] at hstep
    split_ifs at hstep
    all_goals cases hstep
    · exact h.storeTail hq
    · exact h.storeTail hq
    · exact hstop _
    · exact hstop _
  | readError =>
    cases hstep
    exact hstop _
  | bytes bytes =>
    let adjustedTail := (loadedTail + written.length) % cap
    change (if min (cap - size cap loadedHead adjustedTail - 1) (cap - adjustedTail) = 0 then _
      else if 0 < bytes.length ∧
        bytes.length ≤ min (cap - size cap loadedHead adjustedTail - 1) (cap - adjustedTail) then _
      else none) = some s' at hstep
    split_ifs at hstep with hfull hfits
    all_goals cases hstep
    · exact hstop _
    · obtain ⟨hpos, hle⟩ : 0 < bytes.length ∧ bytes.length ≤
          min (cap - size cap loadedHead ((loadedTail + written.length) % cap) - 1)
            (cap - (loadedTail + written.length) % cap) := hfits
      exact h.fillBytes hq (by omega) (by omega)

/-- A step of a thread. -/
theorem Runs.inv (hruns : Runs cap s t q p r) (h : Inv cap s) (hq : s.pc t = q)
    (hok : q = .sendReady → ∀ u, (s.pc u).flagBeforeHead = false) : Inv cap (r.goto t p) := by
  have hlocal := h.threads t
  rw [hq] at hlocal
  cases hruns with
  | postSend n =>
    exact h.beside hq rfl rfl rfl (h.token.release (by rw [hq]; rfl) rfl)
      (h.filler.move (by rw [hq]; rfl)) hlocal
  | flagCleared n => exact h.walk hq rfl rfl rfl ⟨hlocal, rfl⟩
  | headLoaded n loadedHead => exact h.advanceHead hq
  | postIoFailed | sendTailLoaded_nothing | sendFailed =>
    exact h.beside hq rfl rfl rfl (h.token.release (by rw [hq]; rfl) rfl)
      (h.filler.move (by rw [hq]; rfl)) trivial
  | trySendAsync hoff =>
    have htoken := h.token
    rw [hoff] at htoken
    exact h.beside hq rfl rfl rfl (htoken.take rfl) (h.filler.move (by rw [hq]; rfl)) trivial
  | sendReady => exact h.loadHead hq (hok rfl)
  | sendReadyHead loadedHead =>
    exact h.walk hq rfl rfl rfl
      ⟨hlocal, s.appended, List.prefix_refl _, h.ring.window.le, h.ring.tail_eq⟩
  | sendReadyTail loadedHead loadedTail len hlen =>
    subst hlen
    exact h.postCall hq
  | sendReadyTail_fails loadedHead loadedTail =>
    obtain ⟨b, hb⟩ := h.region
    exact h.local_step hq rfl rfl rfl (h.token.move (by rw [hq]; rfl))
      ⟨false, hb.release (by rw [hq]; rfl) rfl⟩ (h.filler.move (by rw [hq]; rfl)) trivial
  | processSendBuffers caller hmutex =>
    have hfiller := h.filler
    rw [hmutex] at hfiller
    exact h.beside hq rfl rfl rfl (h.token.move (by rw [hq]; rfl)) (hfiller.enter rfl) trivial
  | sslWriting_error caller message => exact h.leaveFill hq rfl rfl rfl rfl rfl
  | fillHead caller wantRead =>
    exact h.walk hq rfl rfl rfl ⟨s.acknowledged, Nat.le_refl _, h.ring.head_eq, h.ring.window⟩
  | fillTail caller wantRead loadedHead =>
    obtain ⟨k, hk, hhead, hwindow⟩ := hlocal
    refine h.walk hq rfl rfl rfl ⟨rfl, k, hk, hhead, ?_⟩
    rw [List.append_nil]
    exact hwindow
  | filling caller wantRead loadedHead loadedTail written hfill => exact h.fillStep hq hfill
  | _ => exact h.walk hq rfl rfl rfl trivial

/-- A thread begins with a handler. -/
theorem Begins.inv (hbegins : Begins s p r) (h : Inv cap s) (hq : s.pc t = .idle) :
    Inv cap (r.goto t p) := by
  cases hbegins with
  | sendCompletion n hio => exact h.dequeueCompleted hq hio
  | sendCompletion_failed hio => exact h.dequeueFailed hq hio
  | _ => exact h.walk hq rfl rfl rfl trivial

/-- Every step that meets the condition keeps the invariant. -/
theorem inv_step {a : Action} (h : Inv cap s) (hok : HeadSettled s a)
    (hstep : step cap s a = some s') : Inv cap s' := by
  cases a with
  | start t handler =>
    obtain ⟨hq, p, r, hbegins, rfl⟩ := begins_of_startStep hstep
    exact hbegins.inv h hq
  | run t answers =>
    obtain ⟨p, r, hruns, rfl⟩ := runs_of_runStep hstep
    exact hruns.inv h rfl (hok t answers rfl)
  | complete n =>
    simp only [step] at hstep
    split at hstep
    · rename_i call hio
      split_ifs at hstep with hn
      cases hstep
      exact h.complete hio hn.1
    · cases hstep
  | fail =>
    simp only [step] at hstep
    split at hstep
    · rename_i call hio
      cases hstep
      exact h.fail hio
    · cases hstep

/-! ## Runs -/

theorem inv_init (buffer : Nat → UInt8) (hcap : 0 < cap) : Inv cap (State.init buffer) where
  token := .off_of (fun _ => rfl) (by simp [State.init])
  region := ⟨false, .off_of (fun _ => rfl) (by simp [State.init])⟩
  filler u := by simp [State.init, Pc.fills]
  ring := ⟨window_nil hcap, (Nat.zero_mod cap).symm, (Nat.zero_mod cap).symm,
    List.prefix_refl _, trivial⟩
  threads _ := trivial
  settled _ := rfl

theorem Inv.sentOnce (h : Inv cap s) : s.SentOnce cap := by
  refine ⟨h.ring.completed_prefix, fun hnone => ?_⟩
  have hhead : s.head = s.acknowledged % cap := h.ring.head_eq
  have htail : s.tail = s.appended.length % cap := h.ring.tail_eq
  rw [hhead, htail, h.settled hnone]
  exact h.ring.window.size_eq

/-- **Exactly once and in order.** Whatever the threads do, and however `TryProcessSendBuffers` fills
the ring and `WSASend` completes: as long as the head is not loaded for `WSASend` between the clearing
of the flag and the store of the head for a completion, the completed bytes are always the first ones
appended, and the ring holds the others. -/
theorem sentOnce_of_headSettled (cap : Nat) (hcap : 0 < cap) (buffer : Nat → UInt8)
    (as : List Action) (hok : Meets (step cap) HeadSettled (State.init buffer) as) (s : State)
    (hrun : run (step cap) (State.init buffer) as = some s) : s.SentOnce cap :=
  (run_invariant (P := Inv cap) (fun _ _ _ h hok => inv_step h hok) (inv_init buffer hcap) hok
    hrun).sentOnce

/-! ## Finitely many threads -/

/-- The thread that an action is a step of. -/
def Action.thread : Action → Option Nat
  | .start t _ | .run t _ => some t
  | .complete _ | .fail => none

/-- A step leaves all other threads where they are. -/
theorem pc_of_step {a : Action} {u : Nat} (hstep : step cap s a = some s')
    (hu : a.thread ≠ some u) : s'.pc u = s.pc u := by
  cases a with
  | start t handler =>
    have hne : u ≠ t := fun h => hu (congrArg some h.symm)
    obtain ⟨-, p, r, hbegins, rfl⟩ := begins_of_startStep hstep
    rw [hbegins.pc_goto, Function.update_of_ne hne]
  | run t answers =>
    have hne : u ≠ t := fun h => hu (congrArg some h.symm)
    obtain ⟨p, r, hruns, rfl⟩ := runs_of_runStep hstep
    obtain ⟨p', hpc⟩ := hruns.exists_pc
    rw [hpc, Function.update_of_ne hne]
  | complete n =>
    simp only [step] at hstep
    split at hstep
    · split_ifs at hstep
      cases hstep
      rfl
    · cases hstep
  | fail =>
    simp only [step] at hstep
    split at hstep
    · cases hstep
      rfl
    · cases hstep

/-- The step is one of the first `n` threads or of the system, and the condition is met as far as these
threads go. -/
def HeadSettledBelow (n : Nat) (s : State) (a : Action) : Prop :=
  a.thread.all (· < n) = true ∧
  match a with
  | .run t _ =>
    match s.pc t with
    | .sendReady => ∀ u < n, (s.pc u).flagBeforeHead = false
    | _ => True
  | _ => True

instance (n : Nat) (s : State) (a : Action) : Decidable (HeadSettledBelow n s a) := by
  unfold HeadSettledBelow
  split
  · split <;> infer_instance
  · infer_instance

/-- While only the first `n` threads do anything, the condition is about them. -/
theorem headSettled_of_below {n : Nat} {as : List Action} (hidle : ∀ u, n ≤ u → s.pc u = .idle)
    (h : Meets (step cap) (HeadSettledBelow n) s as) : Meets (step cap) HeadSettled s as := by
  refine h.imp (P := fun s : State => ∀ u, n ≤ u → s.pc u = .idle) ?_ ?_ hidle
  · rintro s a hidle ha t answers rfl hq u
    obtain ⟨-, ha⟩ := ha
    simp only [hq] at ha
    by_cases hu : u < n
    · exact ha u hu
    · rw [hidle u (Nat.le_of_not_lt hu)]
      rfl
  · intro s a s' hidle ha hstep u hu
    have hother : a.thread ≠ some u := by
      intro hthread
      obtain ⟨hbelow, -⟩ := ha
      simp [hthread] at hbelow
      omega
    rw [pc_of_step hstep hother, hidle u hu]

/-! ## An example and a counterexample -/

/-- The thread `t` goes on `k` times, without any answer of its own. -/
def goOn (t k : Nat) : List Action := List.replicate k (.run t {})

/-- The thread `t` runs `TrySendAsync` with one message in the queue, for which `SSL_write` has written
this ciphertext to `WriteBio`. -/
def sendAll (t : Nat) (ciphertext : Bytes) : List Action :=
  goOn t 10 ++ [.run t { bio := .bytes ciphertext }] ++ goOn t 4

/-- One thread pushes a message; another one sends two bytes of ciphertext for it. -/
def sendFirst : List Action :=
  [.start 0 (.pushMessage 1 [7])] ++ goOn 0 2 ++ [.start 1 .initiateSendCompletion] ++ goOn 1 1 ++
    sendAll 1 [1, 2] ++ [.complete 2, .start 0 .sendCompletion]

/-- The first thread stores the head. Then the other one pushes and sends a second message, and the
first one finds the flag on. -/
def sendBoth : List Action :=
  sendFirst ++ goOn 0 3 ++ [.start 1 (.pushMessage 1 [8])] ++ goOn 1 2 ++
    [.start 1 .initiateSendCompletion] ++ goOn 1 5 ++ goOn 0 1 ++ goOn 1 6 ++
    [.run 1 { bio := .bytes [3, 4] }] ++ goOn 1 4 ++ [.complete 2]

theorem sentOnce_of_headSettled_sendBoth :
    ∃ s, run (step 8) (State.init fun _ => 0) sendBoth = some s ∧ s.completed = [1, 2, 3, 4] ∧
      s.SentOnce 8 :=
  ⟨_, rfl, rfl, sentOnce_of_headSettled 8 (by decide) (fun _ => 0) sendBoth
    (headSettled_of_below (n := 2) (fun _ _ => rfl) (by decide)) _ rfl⟩

/-- Between the clearing of the flag and the store of the head another thread sends a second message,
and the bytes of the first one once more. -/
theorem sentOnce_fails : ∃ s, run (step 8) (State.init fun _ => 0)
      (sendFirst ++ goOn 0 1 ++ [.start 1 (.pushMessage 1 [8])] ++ goOn 1 2 ++
        [.start 1 .initiateSendCompletion] ++ goOn 1 1 ++ sendAll 1 [3, 4] ++ [.complete 4]) = some s ∧
    s.appended = [1, 2, 3, 4] ∧ s.completed = [1, 2, 1, 2, 3, 4] ∧ ¬ s.SentOnce 8 :=
  ⟨_, rfl, rfl, rfl, fun h => absurd h.1 (by decide)⟩

end RatkiniaServer.SendHandlers
