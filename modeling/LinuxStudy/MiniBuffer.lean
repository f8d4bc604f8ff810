import LinuxStudy.Socket

/-!
# The buffer of a connection

A `Buffer` is a vector of bytes with two positions: what stands between the
read and the write position is there to be read, what stands after the write
position is room. Bytes are read from a descriptor into the room with
`readv`, and what does not fit goes by way of a second, temporary buffer: it
is appended afterwards, once the vector has been enlarged, or once what is
there to be read has been moved to the front.

The positions are in order and within the vector; both are fields of the
structure, so each operation shows that it keeps them, which covers the
assertions of the source. What a buffer is *for* is `readable`, and each
operation is described by what it does to it: `readFd` adds what was read at
the end, whichever way it went (`readable_readFd`), and `AlltoStr` returns
everything and leaves nothing.
-/

namespace MiniDcs

open Socket

/-- `Buffer`. -/
structure Buffer where
  /-- The vector. -/
  buffer : Bytes
  readPos : ℕ
  writePos : ℕ
  readPos_le : readPos ≤ writePos
  writePos_le : writePos ≤ buffer.length

namespace Buffer

/-- The constructor. -/
def new (initBuffersize : ℕ) : Buffer :=
  ⟨List.replicate initBuffersize 0, 0, 0, Nat.le_refl 0, Nat.zero_le _⟩

/-- `readableBytes`. -/
def readableBytes (b : Buffer) : ℕ := b.writePos - b.readPos

/-- `writeableBytes`. -/
def writeableBytes (b : Buffer) : ℕ := b.buffer.length - b.writePos

/-- `readBytes`. -/
def readBytes (b : Buffer) : ℕ := b.readPos

/-- **What is there to be read.** -/
def readable (b : Buffer) : Bytes := (b.buffer.take b.writePos).drop b.readPos

theorem length_readable (b : Buffer) : b.readable.length = b.readableBytes := by
  unfold readable readableBytes
  rw [List.length_drop, List.length_take, Nat.min_eq_left b.writePos_le]

/-! ## Copying within the vector -/

/-- `std::copy` into a vector, at a position. -/
def overwrite (v : Bytes) (pos : ℕ) (s : Bytes) : Bytes :=
  v.take pos ++ s ++ v.drop (pos + s.length)

theorem length_overwrite {v : Bytes} {pos : ℕ} {s : Bytes} (h : pos + s.length ≤ v.length) :
    (overwrite v pos s).length = v.length := by
  unfold overwrite
  rw [List.length_append, List.length_append, List.length_take, List.length_drop]
  omega

theorem take_overwrite {v : Bytes} {pos : ℕ} (s : Bytes) (h : pos ≤ v.length) :
    (overwrite v pos s).take (pos + s.length) = v.take pos ++ s := by
  unfold overwrite
  have hlen : (v.take pos ++ s).length = pos + s.length := by
    rw [List.length_append, List.length_take, Nat.min_eq_left h]
  rw [← hlen, List.take_left]

/-! ## What the functions do

The functions are followed by what they do to the bytes that are there to be read.
That the positions stay in order and within the vector is the type of a buffer, so
each function has to show it where it makes one. -/

/-- `initPtr`. -/
def initPtr (b : Buffer) : Buffer :=
  ⟨List.replicate b.buffer.length 0, 0, 0, Nat.le_refl 0, Nat.zero_le _⟩

/-- `allocateSpace`: the vector is enlarged, or, if the room before the read
position helps, what is there to be read is moved to the front. -/
def allocateSpace (b : Buffer) (len : ℕ) : Buffer :=
  if b.writeableBytes + b.readBytes < len then
    { b with
      buffer := b.buffer ++ List.replicate (b.writePos + len + 1 - b.buffer.length) 0
      writePos_le := by
        rw [List.length_append]
        exact Nat.le_trans b.writePos_le (Nat.le_add_right _ _) }
  else
    { buffer := overwrite b.buffer 0 b.readable
      readPos := 0
      writePos := b.readableBytes
      readPos_le := Nat.zero_le _
      writePos_le := by
        have hlen := b.length_readable
        have hbound := b.writePos_le
        unfold readableBytes at hlen ⊢
        rw [length_overwrite (by omega)]
        omega }

/-- `ensureWriteable`. -/
def ensureWriteable (b : Buffer) (len : ℕ) : Buffer :=
  if b.writeableBytes < len then b.allocateSpace len else b

/-- The assertion of `ensureWriteable`: there is room. -/
theorem le_writeableBytes_ensureWriteable (b : Buffer) (len : ℕ) :
    len ≤ (b.ensureWriteable len).writeableBytes := by
  unfold ensureWriteable
  split
  · next hroom =>
    unfold allocateSpace
    split
    · show len ≤ (b.buffer ++ List.replicate _ 0).length - b.writePos
      rw [List.length_append, List.length_replicate]
      omega
    · next hmove =>
      show len ≤ (overwrite b.buffer 0 b.readable).length - b.readableBytes
      have hlen := b.length_readable
      have hread := b.readPos_le
      have hbound := b.writePos_le
      unfold writeableBytes readBytes at hmove
      unfold readableBytes at hlen ⊢
      rw [length_overwrite (by omega)]
      omega
  · next hroom => exact Nat.le_of_not_lt hroom

/-- Making room changes nothing of what is there to be read. -/
theorem readable_ensureWriteable (b : Buffer) (len : ℕ) :
    (b.ensureWriteable len).readable = b.readable := by
  unfold ensureWriteable
  split
  · unfold allocateSpace
    split
    · show ((b.buffer ++ List.replicate _ 0).take b.writePos).drop b.readPos = _
      rw [List.take_append_of_le_length b.writePos_le]
      rfl
    · show ((overwrite b.buffer 0 b.readable).take b.readableBytes).drop 0 = _
      have htake := take_overwrite (v := b.buffer) b.readable (Nat.zero_le _)
      rw [Nat.zero_add, length_readable, List.take_zero, List.nil_append] at htake
      rw [htake, List.drop_zero]
  · rfl

/-- Bytes copied into the room, and the write position moved past them. -/
def fill (b : Buffer) (s : Bytes) (h : s.length ≤ b.writeableBytes) : Buffer :=
  { b with
    buffer := overwrite b.buffer b.writePos s
    writePos := b.writePos + s.length
    readPos_le := Nat.le_trans b.readPos_le (Nat.le_add_right _ _)
    writePos_le := by
      have hbound := b.writePos_le
      unfold writeableBytes at h
      rw [length_overwrite (by omega)]
      omega }

theorem readable_fill (b : Buffer) (s : Bytes) (h : s.length ≤ b.writeableBytes) :
    (b.fill s h).readable = b.readable ++ s := by
  show ((overwrite b.buffer b.writePos s).take (b.writePos + s.length)).drop b.readPos = _
  have hpos : b.readPos ≤ (b.buffer.take b.writePos).length := by
    rw [List.length_take, Nat.min_eq_left b.writePos_le]
    exact b.readPos_le
  rw [take_overwrite s b.writePos_le, List.drop_append_of_le_length hpos]
  rfl

/-- `append`. -/
def append (b : Buffer) (s : Bytes) : Buffer :=
  (b.ensureWriteable s.length).fill s (b.le_writeableBytes_ensureWriteable s.length)

theorem readable_append (b : Buffer) (s : Bytes) :
    (b.append s).readable = b.readable ++ s := by
  unfold append
  rw [readable_fill, readable_ensureWriteable]

/-- `append` of another buffer. -/
def appendBuffer (b other : Buffer) : Buffer := b.append other.readable

theorem length_take_le (b : Buffer) (data : Bytes) :
    (data.take b.writeableBytes).length ≤ b.writeableBytes :=
  List.length_take_le _ _

/-- `readFd`: the buffer, what the function returns, and the error if there
is one. What fits goes into the room, the rest is appended. -/
def readFd (b : Buffer) : ReadResult → Buffer × ℤ × Option Errno
  | .error errno => (b, -1, some errno)
  | .data data =>
    let writable := b.writeableBytes
    if h : data.length ≤ writable then (b.fill data h, data.length, none)
    else
      ((b.fill (data.take writable) (b.length_take_le data)).append (data.drop writable),
        data.length, none)

/-- **What was read is there to be read**, after what was there before. -/
theorem readable_readFd (b : Buffer) (r : ReadResult) :
    (b.readFd r).1.readable = b.readable ++ r.bytes := by
  cases r with
  | error errno => exact (List.append_nil _).symm
  | data data =>
    unfold readFd
    dsimp only
    split
    · next hfits => exact readable_fill b data hfits
    · rw [readable_append, readable_fill, List.append_assoc, List.take_append_drop]
      rfl

/-- `updateReadPtr`, undefined where its assertion fails. -/
def updateReadPtr (b : Buffer) (len : ℕ) : Option Buffer :=
  if h : len ≤ b.readableBytes then
    some { b with
      readPos := b.readPos + len
      readPos_le := by
        have hread := b.readPos_le
        unfold readableBytes at h
        omega }
  else none

/-- **Moving the read position drops from the front** as many bytes, where
there are as many. -/
theorem updateReadPtr_eq_some {b : Buffer} {len : ℕ} (h : len ≤ b.readableBytes) :
    ∃ b', b.updateReadPtr len = some b' ∧ b'.buffer = b.buffer
      ∧ b'.readPos = b.readPos + len ∧ b'.writePos = b.writePos
      ∧ b'.readable = b.readable.drop len := by
  unfold updateReadPtr
  rw [dif_pos h]
  refine ⟨_, rfl, rfl, rfl, rfl, ?_⟩
  show (b.buffer.take b.writePos).drop (b.readPos + len) = _
  unfold readable
  rw [List.drop_drop]

/-- `writeFd`: the buffer, what the function returns, and the error if there
is one. -/
def writeFd (b : Buffer) : WriteResult → Buffer × ℤ × Option Errno
  | .error errno => (b, -1, some errno)
  | .accepts n =>
    let len := min n b.readableBytes
    ({ b with
      readPos := b.readPos + len
      readPos_le := by
        have hread := b.readPos_le
        have hlen : len ≤ b.readableBytes := Nat.min_le_right _ _
        unfold readableBytes at hlen
        omega }, len, none)

/-- **What the kernel takes is dropped from the front.** -/
theorem readable_writeFd_accepts (b : Buffer) (n : ℕ) :
    (b.writeFd (.accepts n)).1.readable = b.readable.drop n := by
  show (b.buffer.take b.writePos).drop (b.readPos + min n b.readableBytes) = _
  unfold readable
  rw [List.drop_drop, ← length_readable]
  rcases Nat.le_total n b.readable.length with hle | hle
  · rw [Nat.min_eq_left hle]
  · -- the kernel may say that it took all
    have hlen := b.length_readable
    unfold readableBytes at hlen
    rw [Nat.min_eq_right hle, List.drop_of_length_le, List.drop_of_length_le]
    · rw [List.length_take]
      omega
    · rw [List.length_take]
      omega

/-- `AlltoStr`. -/
def alltoStr (b : Buffer) : Buffer × Bytes := (b.initPtr, b.readable)

theorem readable_initPtr (b : Buffer) : b.initPtr.readable = [] := by
  unfold readable initPtr
  rw [List.take_zero, List.drop_nil]

end Buffer

end MiniDcs
