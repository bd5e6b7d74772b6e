import RatkiniaServer.Proofs.MessageDecoder

/-!
# The contiguous pop buffer

`PeekReceivedMessage` copies a body that goes around the end of the ring into a buffer of
`MessageMaxSize` bytes. It takes the size of the body from the header as the client has sent it.
-/

namespace RatkiniaServer.Session

open Ring Framing

variable {cap messageMaxSize head tail n : Nat} {buf : Nat → UInt8}

/-! ## What a call may do -/

/-- The position is one of a readable byte of the ring. -/
def Readable (cap head tail position : Nat) : Prop :=
  ∃ k < getRingBufferSize cap head tail, position = (head + k) % cap

/-- A copy that reads readable bytes only, or writes to the first `messageMaxSize` bytes. -/
def PeekAccess.InBounds (cap messageMaxSize head tail : Nat) : PeekAccess → Prop
  | .read position size => ∀ i < size, Readable cap head tail (position + i)
  | .write position size => position + size ≤ messageMaxSize

/-- `PeekReceivedMessage` returns nothing or a message of at most `messageMaxSize` bytes, and makes no
copy out of bounds. -/
structure PeekInBounds (messageMaxSize : Nat) (buf : Nat → UInt8) (head tail : Nat) : Prop where
  returns : ∃ result,
    peekAt (bufferCapacity messageMaxSize) messageMaxSize buf head tail = .ok result ∧
      ∀ message ∈ result, message.bodySize.toNat ≤ messageMaxSize - messageHeaderSize
  copies : ∀ access ∈ peekAccesses (bufferCapacity messageMaxSize) buf head tail,
    access.InBounds (bufferCapacity messageMaxSize) messageMaxSize head tail

/-- The size of the body that the header at the head of the ring announces. -/
def announcedSize (cap : Nat) (buf : Nat → UInt8) (head : Nat) : Nat :=
  messageFormat.bodySize (content cap buf head messageHeaderSize)

/-- The ring holds no complete message whose body is too large. -/
def NoLargeMessage (messageMaxSize : Nat) (buf : Nat → UInt8) (head tail : Nat) : Prop :=
  let cap := bufferCapacity messageMaxSize
  messageHeaderSize + announcedSize cap buf head ≤ getRingBufferSize cap head tail →
    announcedSize cap buf head ≤ messageMaxSize - messageHeaderSize

/-! ## Reads -/

/-- The two pieces that `GetReadableSizes` returns are readable. -/
theorem readable_of_sizes (hh : head < cap) (ht : tail < cap) {primarySize secondarySize : Nat}
    (hsizes : getReadableSizes cap head tail n = some (primarySize, secondarySize)) :
    primarySize + secondarySize = n ∧ (∀ i < primarySize, Readable cap head tail (head + i)) ∧
      ∀ i < secondarySize, Readable cap head tail i := by
  unfold getReadableSizes at hsizes
  dsimp only at hsizes
  split_ifs at hsizes with hshort
  obtain ⟨rfl, rfl⟩ := Prod.mk.inj (Option.some.inj hsizes)
  have hlt : getRingBufferSize cap head tail < cap := size_lt hh ht
  refine ⟨by omega, fun i hi => ⟨i, by omega, ?_⟩, fun i hi => ⟨cap - head + i, by omega, ?_⟩⟩
  · exact (Nat.mod_eq_of_lt (by omega)).symm
  · have hwrap : head + (cap - head + i) = i + cap := by omega
    rw [hwrap, Nat.add_mod_right, Nat.mod_eq_of_lt (by omega)]

/-- What is readable behind the first `m` bytes is readable. -/
theorem Readable.of_advance {m position : Nat} (hh : head < cap) (ht : tail < cap)
    (hm : m ≤ getRingBufferSize cap head tail)
    (h : Readable cap ((head + m) % cap) tail position) : Readable cap head tail position := by
  obtain ⟨k, hk, rfl⟩ := h
  have hadvance : getRingBufferSize cap ((head + m) % cap) tail =
      getRingBufferSize cap head tail - m := size_advance hh ht hm
  exact ⟨m + k, by omega, by rw [Nat.mod_add_mod, Nat.add_assoc]⟩

/-- The copies of a call read readable bytes, and write no more than the body. -/
theorem access_spec (hh : head < cap) (ht : tail < cap) {access : PeekAccess}
    (haccess : access ∈ peekAccesses cap buf head tail) :
    access.InBounds cap (announcedSize cap buf head) head tail ∧
      (∀ position size, access = .write position size →
        messageHeaderSize + announcedSize cap buf head ≤ getRingBufferSize cap head tail) := by
  have hring : Holds cap buf head tail (content cap buf head (size cap head tail)) := ⟨hh, ht, rfl⟩
  obtain ⟨hshort, hlong⟩ := getReadableSizes_spec (n := messageHeaderSize) hring
  rw [length_content] at hshort hlong
  unfold peekAccesses at haccess
  by_cases hlen : size cap head tail < messageHeaderSize
  · simp only [hshort hlen, List.not_mem_nil] at haccess
  · obtain ⟨hsizes, hheader⟩ := hlong (by omega)
    obtain ⟨-, hprimary, hsecondary⟩ := readable_of_sizes hh ht hsizes
    rw [take_content (by omega)] at hheader
    have hbody : (headerOf (content cap buf head messageHeaderSize)).2.toNat =
        announcedSize cap buf head :=
      (headerOf_eq (content cap buf head messageHeaderSize, [])).2
    simp only [hsizes, hheader, hbody] at haccess
    rcases List.mem_append.mp haccess with haccess | haccess
    · simp only [List.mem_cons, List.not_mem_nil, or_false] at haccess
      rcases haccess with rfl | rfl
      · exact ⟨hprimary, by simp⟩
      · exact ⟨fun i hi => by rw [Nat.zero_add]; exact hsecondary i hi, by simp⟩
    · have hmod : (head + messageHeaderSize) % cap < cap := Nat.mod_lt _ (by omega)
      have hadvance : getRingBufferSize cap ((head + messageHeaderSize) % cap) tail =
          getRingBufferSize cap head tail - messageHeaderSize := size_advance hh ht (by omega)
      split at haccess
      · cases haccess
      · rename_i primaryBodySize secondaryBodySize hbsizes
        have hcomplete : messageHeaderSize + announcedSize cap buf head ≤
            getRingBufferSize cap head tail := by
          have hsize : getRingBufferSize cap head tail = size cap head tail := rfl
          unfold getReadableSizes at hbsizes
          dsimp only at hbsizes
          split_ifs at hbsizes
          omega
        obtain ⟨hsum, hbprimary, hbsecondary⟩ := readable_of_sizes hmod ht hbsizes
        have hback : ∀ position, Readable cap ((head + messageHeaderSize) % cap) tail position →
            Readable cap head tail position := fun _ => .of_advance hh ht (by omega)
        split_ifs at haccess with hcontig
        · cases haccess
        · simp only [List.mem_cons, List.not_mem_nil, or_false] at haccess
          refine ⟨?_, fun _ _ _ => hcomplete⟩
          rcases haccess with rfl | rfl | rfl | rfl
          · exact fun i hi => hback _ (hbprimary i hi)
          · change 0 + primaryBodySize ≤ _
            omega
          · exact fun i hi => by
              rw [Nat.zero_add]
              exact hback _ (hbsecondary i hi)
          · exact Nat.le_of_eq hsum

/-! ## Exactness -/

/-- Without a complete message nothing is returned. -/
theorem peekAt_of_incomplete (messageMaxSize : Nat) (hh : head < cap) (ht : tail < cap)
    (h : getRingBufferSize cap head tail < messageHeaderSize + announcedSize cap buf head) :
    peekAt cap messageMaxSize buf head tail = .ok none := by
  have hring : Holds cap buf head tail (content cap buf head (size cap head tail)) := ⟨hh, ht, rfl⟩
  refine (peekAt_spec messageMaxSize hring).1 (Format.next_eq_none_iff.mpr ?_)
  have hsize : getRingBufferSize cap head tail = size cap head tail := rfl
  rw [length_content]
  by_cases hshort : size cap head tail < messageHeaderSize
  · exact Or.inl hshort
  · refine Or.inr ?_
    rw [show messageFormat.headerSize = messageHeaderSize from rfl, take_content (by omega)]
    change size cap head tail < messageHeaderSize + announcedSize cap buf head
    omega

/-- A complete message is returned, or its body goes around the end of the ring and overruns the
contiguous pop buffer. -/
theorem peekAt_of_complete (messageMaxSize : Nat) (hh : head < cap) (ht : tail < cap)
    (h : messageHeaderSize + announcedSize cap buf head ≤ getRingBufferSize cap head tail) :
    (∃ message, peekAt cap messageMaxSize buf head tail = .ok (some message) ∧
        message.bodySize.toNat = announcedSize cap buf head) ∨
      messageMaxSize < announcedSize cap buf head ∧
        peekAt cap messageMaxSize buf head tail = .error .overrun := by
  have hring : Holds cap buf head tail (content cap buf head (size cap head tail)) := ⟨hh, ht, rfl⟩
  have hsize : getRingBufferSize cap head tail = size cap head tail := rfl
  have htake : (content cap buf head (size cap head tail)).take messageFormat.headerSize =
      content cap buf head messageHeaderSize := take_content (by
    change messageHeaderSize ≤ _
    omega)
  cases hnext : messageFormat.next (content cap buf head (size cap head tail)) with
  | none =>
    rcases Format.next_eq_none_iff.mp hnext with hshort | hshort
    · rw [length_content] at hshort
      change size cap head tail < messageHeaderSize at hshort
      omega
    · rw [length_content, htake] at hshort
      change size cap head tail < messageHeaderSize + announcedSize cap buf head at hshort
      omega
  | some r =>
    obtain ⟨f, rest⟩ := r
    obtain ⟨hxs, hflen, -⟩ := Format.next_eq_some_iff.mp hnext
    have hf : f.1 = content cap buf head messageHeaderSize := by
      rw [← htake, hxs]
      exact (List.take_left' hflen).symm
    have hannounced : messageFormat.bodySize f.1 = announcedSize cap buf head := by
      rw [hf, announcedSize]
    rcases (peekAt_spec messageMaxSize hring).2 f rest hnext with hpeek | ⟨hlarge, hpeek⟩
    · exact Or.inl ⟨_, hpeek, (headerOf_eq f).2.trans hannounced⟩
    · exact Or.inr ⟨hannounced ▸ hlarge, hpeek⟩

/-- **The contiguous pop buffer.** `PeekReceivedMessage` stays in bounds exactly if the ring does not
hold a complete message whose body is larger than `MessageMaxSize - MessageHeaderSize`. -/
theorem peekInBounds_iff (messageMaxSize : Nat) (hmax : messageHeaderSize < messageMaxSize)
    (buf : Nat → UInt8) (head tail : Nat) (hh : head < bufferCapacity messageMaxSize)
    (ht : tail < bufferCapacity messageMaxSize) :
    PeekInBounds messageMaxSize buf head tail ↔ NoLargeMessage messageMaxSize buf head tail := by
  constructor
  · rintro ⟨⟨result, hpeek, hreturns⟩, -⟩ hcomplete
    rcases peekAt_of_complete messageMaxSize hh ht hcomplete with ⟨message, hok, hsize⟩ | ⟨-, herror⟩
    · rw [hok] at hpeek
      have hmem : message ∈ result := by rw [← Except.ok.inj hpeek]; rfl
      rw [← hsize]
      exact hreturns message hmem
    · rw [herror] at hpeek
      cases hpeek
  · intro hsmall
    refine ⟨?_, fun access haccess => ?_⟩
    · by_cases hcomplete : messageHeaderSize + announcedSize (bufferCapacity messageMaxSize) buf head ≤
          getRingBufferSize (bufferCapacity messageMaxSize) head tail
      · have hfits := hsmall hcomplete
        rcases peekAt_of_complete messageMaxSize hh ht hcomplete with ⟨message, hok, hsize⟩ | ⟨hlarge, -⟩
        · refine ⟨some message, hok, fun m hm => ?_⟩
          obtain rfl := Option.mem_some.mp hm
          omega
        · omega
      · exact ⟨none, peekAt_of_incomplete messageMaxSize hh ht (by omega), by simp⟩
    · obtain ⟨hin, hwrites⟩ := access_spec hh ht haccess
      cases access with
      | read position size => exact hin
      | write position size =>
        have hfits := hsmall (hwrites position size rfl)
        have hsize : position + size ≤ announcedSize (bufferCapacity messageMaxSize) buf head := hin
        change position + size ≤ messageMaxSize
        omega

theorem peekInBounds_iff_wrapped :
    PeekInBounds 8 (fun position => if position = 29 then 3 else 0) 26 1 ↔
      NoLargeMessage 8 (fun position => if position = 29 then 3 else 0) 26 1 :=
  peekInBounds_iff 8 (by decide) _ 26 1 (by decide) (by decide)

/-- A body of ten bytes that goes around the end of a ring of 32 overruns the buffer of eight. -/
theorem not_peekInBounds_wrapped :
    ¬ PeekInBounds 8 (fun position => if position = 27 then 10 else 0) 24 6 := by
  rintro ⟨⟨result, hpeek, -⟩, -⟩
  cases hpeek

end RatkiniaServer.Session
