import Jubilee.Common.Slice
/-!
# A byte buffer with two indices

Netty's `ByteBuf`, without a capacity: bytes are appended at the writer
index and consumed at the reader index, and the reader index never
passes the writer index, which is a field of the structure. The reader
moves only by `readBytes`, `rewind` and `clear`, and nothing but
`clear` takes a written byte away.
-/

namespace Jubilee

/-- A byte string. -/
abbrev Bytes := List UInt8

/-- The buffer: what was written so far, and how far it has been read. -/
structure ByteBuf where
  /-- The bytes from index `0` up to the writer index. -/
  bytes : Bytes
  readerIndex : ℕ
  readerIndex_le : readerIndex ≤ bytes.length
  deriving DecidableEq

namespace ByteBuf

/-- What a call on the buffer may throw. -/
inductive Fault
  /-- A negative number of bytes was asked for. -/
  | illegalArgument
  /-- More bytes were asked for than are readable. -/
  | indexOutOfBounds
  deriving DecidableEq, Repr

variable (b : ByteBuf)

/-- The buffer nothing was written to. -/
def empty : ByteBuf := ⟨[], 0, le_rfl⟩

def writerIndex : ℕ := b.bytes.length

def readableBytes : ℕ := b.writerIndex - b.readerIndex

/-- The bytes between the two indices. -/
def unread : Bytes := b.bytes.drop b.readerIndex

/-- Append at the writer index. -/
def writeBytes (src : Bytes) : ByteBuf where
  bytes := b.bytes ++ src
  readerIndex := b.readerIndex
  readerIndex_le := by
    have := b.readerIndex_le
    simp only [List.length_append]; omega

/-- Move the reader index back to the start: `readerIndex(0)`. -/
def rewind : ByteBuf := ⟨b.bytes, 0, Nat.zero_le _⟩

/-- Both indices to the start, which makes every byte inaccessible. -/
def clear : ByteBuf := empty

/-- Consume `n` bytes at the reader index. -/
def readBytes (n : ℤ) : Except Fault (Bytes × ByteBuf) :=
  if n < 0 then .error .illegalArgument
  else if h : n.toNat ≤ b.readableBytes then
    .ok (b.unread.take n.toNat,
      { bytes := b.bytes
        readerIndex := b.readerIndex + n.toNat
        readerIndex_le := by
          have := b.readerIndex_le
          simp only [readableBytes, writerIndex] at h; omega })
  else .error .indexOutOfBounds

/-- Consume `n` bytes at the reader index, into an array from `dstIndex`
on. Where they do not fit there nothing is consumed. -/
def readBytesInto (data : Bytes) (dstIndex n : ℕ) : Except Fault (Bytes × ByteBuf) :=
  match b.readBytes n with
  | .error f => .error f
  | .ok (src, b') =>
    if data.length < dstIndex + n then .error .indexOutOfBounds
    else .ok (data.take dstIndex ++ src ++ data.drop (dstIndex + n), b')

/-- The absolute position of the first `value` at a position from
`fromIndex` up to `toIndex`, and `-1` if there is none. Netty searches
backwards where `toIndex < fromIndex`; no caller here asks for that. -/
def indexOf (fromIndex toIndex : ℕ) (value : UInt8) : ℤ :=
  match (slice b.bytes fromIndex toIndex).findIdx? (· = value) with
  | some i => (fromIndex + i : ℕ)
  | none => -1

variable {b}

/-! ## The indices under each operation -/

theorem length_unread : b.unread.length = b.readableBytes := by
  simp [unread, readableBytes, writerIndex]

theorem readableBytes_eq_zero_iff : b.readableBytes = 0 ↔ b.readerIndex = b.bytes.length := by
  have := b.readerIndex_le
  simp only [readableBytes, writerIndex]; omega

theorem readerIndex_add_readableBytes : b.readerIndex + b.readableBytes = b.bytes.length := by
  have := b.readerIndex_le
  simp only [readableBytes, writerIndex]; omega

@[simp] theorem bytes_writeBytes (src : Bytes) : (b.writeBytes src).bytes = b.bytes ++ src := rfl

@[simp] theorem readerIndex_writeBytes (src : Bytes) :
    (b.writeBytes src).readerIndex = b.readerIndex := rfl

@[simp] theorem readableBytes_writeBytes (src : Bytes) :
    (b.writeBytes src).readableBytes = b.readableBytes + src.length := by
  have := b.readerIndex_le
  simp only [readableBytes, writerIndex, bytes_writeBytes, readerIndex_writeBytes,
    List.length_append]
  omega

/-- A read keeps the written bytes. -/
theorem bytes_of_readBytes {n : ℤ} {data : Bytes} {b' : ByteBuf}
    (h : b.readBytes n = .ok (data, b')) : b'.bytes = b.bytes := by
  unfold readBytes at h
  by_cases hneg : n < 0
  · rw [if_pos hneg] at h
    cases h
  · rw [if_neg hneg] at h
    by_cases hle : n.toNat ≤ b.readableBytes
    · rw [dif_pos hle] at h
      obtain ⟨-, rfl⟩ := Prod.mk.inj (Except.ok.inj h)
      rfl
    · rw [dif_neg hle] at h
      cases h

/-- A read of at most the readable bytes succeeds. -/
theorem exists_readBytes {n : ℕ} (h : n ≤ b.readableBytes) :
    ∃ b', b.readBytes n = .ok (slice b.bytes b.readerIndex (b.readerIndex + n), b') ∧
      b'.bytes = b.bytes ∧ b'.readerIndex = b.readerIndex + n := by
  have hle : b.readerIndex + n ≤ b.bytes.length := by
    rw [← readerIndex_add_readableBytes]; omega
  refine ⟨⟨b.bytes, b.readerIndex + n, hle⟩, ?_, rfl, rfl⟩
  rw [readBytes, if_neg (by omega), dif_pos (by simpa using h)]
  simp [slice_eq_take_drop, unread]

/-- The number of bytes such a read returns. -/
theorem exists_readBytes_length {n : ℕ} (h : n ≤ b.readableBytes) :
    ∃ data b', b.readBytes n = .ok (data, b') ∧ data.length = n ∧ b'.bytes = b.bytes ∧
      b'.readerIndex = b.readerIndex + n := by
  obtain ⟨b', hread, hbytes, hindex⟩ := exists_readBytes h
  have hle := b'.readerIndex_le
  rw [hbytes, hindex] at hle
  exact ⟨_, b', hread, by rw [length_slice hle, Nat.add_sub_cancel_left], hbytes, hindex⟩

/-- **A read into an array** that succeeds: the array holds the next bytes,
and the reader index is past them. -/
theorem readBytesInto_eq_ok {data data' : Bytes} {dstIndex n : ℕ} {b' : ByteBuf} :
    b.readBytesInto data dstIndex n = .ok (data', b') ↔
      n ≤ b.readableBytes ∧ dstIndex + n ≤ data.length ∧
      data' = data.take dstIndex ++ b.unread.take n ++ data.drop (dstIndex + n) ∧
      b'.bytes = b.bytes ∧ b'.readerIndex = b.readerIndex + n := by
  unfold readBytesInto
  by_cases hn : n ≤ b.readableBytes
  · obtain ⟨b₁, hread, hbytes, hindex⟩ := exists_readBytes hn
    rw [hread]
    have hb : b₁ = b' ↔ b'.bytes = b.bytes ∧ b'.readerIndex = b.readerIndex + n := by
      rw [← hbytes, ← hindex]
      obtain ⟨bytes, index, hle⟩ := b₁
      obtain ⟨bytes', index', hle'⟩ := b'
      simp only [ByteBuf.mk.injEq, eq_comm]
    have hsrc : slice b.bytes b.readerIndex (b.readerIndex + n) = b.unread.take n := by
      rw [slice_eq_take_drop, Nat.add_sub_cancel_left, unread]
    rw [hsrc]
    by_cases hfits : data.length < dstIndex + n
    · simp only [hfits, if_true, reduceCtorEq, false_iff]
      rintro ⟨-, h, -⟩
      omega
    · simp only [hfits, if_false, Except.ok.injEq, Prod.mk.injEq]
      rw [hb]
      constructor
      · rintro ⟨rfl, hleft⟩
        exact ⟨hn, not_lt.mp hfits, rfl, hleft⟩
      · rintro ⟨-, -, rfl, hleft⟩
        exact ⟨rfl, hleft⟩
  · have hread : b.readBytes n = .error .indexOutOfBounds := by
      rw [readBytes, if_neg (by omega), dif_neg (by simpa using hn)]
    rw [hread]
    simp [hn]

/-- One that finds the bytes, and space for them, succeeds. -/
theorem exists_readBytesInto {data : Bytes} {dstIndex n : ℕ} (hn : n ≤ b.readableBytes)
    (hfits : dstIndex + n ≤ data.length) : ∃ r, b.readBytesInto data dstIndex n = .ok r := by
  obtain ⟨b', hread, hbytes, hindex⟩ := exists_readBytes hn
  exact ⟨(_, b'), readBytesInto_eq_ok.mpr ⟨hn, hfits, rfl, hbytes, hindex⟩⟩

/-- What was read and what is unread is what was unread. -/
theorem slice_append_unread {b b' : ByteBuf} (hbytes : b'.bytes = b.bytes)
    (hindex : b.readerIndex ≤ b'.readerIndex) :
    slice b.bytes b.readerIndex b'.readerIndex ++ b'.unread = b.unread := by
  have hle := b'.readerIndex_le
  rw [unread, unread, ← slice_of_length_le (p := b'.readerIndex) le_rfl, hbytes,
    slice_append_slice _ hindex (hbytes ▸ hle), slice_of_length_le le_rfl]

@[simp] theorem unread_writeBytes (src : Bytes) :
    (b.writeBytes src).unread = b.unread ++ src := by
  rw [unread, bytes_writeBytes, readerIndex_writeBytes,
    List.drop_append_of_le_length b.readerIndex_le, unread]

/-- Searching all that is readable finds the first value of the unread
bytes. -/
theorem indexOf_readable (value : UInt8) :
    b.indexOf b.readerIndex b.writerIndex value =
      match b.unread.findIdx? (· = value) with
      | some i => (b.readerIndex + i : ℕ)
      | none => -1 := by
  rw [indexOf, slice_of_length_le (q := b.writerIndex) (le_of_eq rfl), unread]

end ByteBuf

end Jubilee
