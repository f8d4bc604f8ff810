import Mathlib.Algebra.Group.Nat.Defs
import LinuxStudy.MiniBuffer
import LinuxStudy.Runs

/-!
# The buffer as a queue of bytes

What a `Buffer` is for is a queue: bytes are added at its end and taken from
its front. Whether what is there to be read is moved to the front or the
vector is enlarged, and whether a chunk goes into the room or by way of the
second buffer, does not show: every sequence of operations is one of a list of
bytes, with the same outputs (`exec_rel_queue`), and meets every assertion of
the source on its way (`asserts_of_allowed`). The positions are in order and
within the vector by the type of a buffer.

`printContent` shows the difference. It prints up to the write position and
the byte there as well, which is past the end of the vector if the vector is
full. Enlarging leaves a byte free, so a vector is full only after an `append`
or a `readFd` of exactly as many bytes as there was room for, after the write
position or in all (`printsInRange_iff`).
-/

namespace MiniDcs

open Socket

namespace Buffer

/-- What is done to a buffer. The memory or the string an `append` takes its
bytes from is the bytes, and another buffer has a vector that is not empty. -/
inductive Op
  | append (s : Bytes)
  | appendBuffer (other : { b : Buffer // 0 < b.buffer.length })
  | readFd (r : ReadResult)
  | updateReadPtr (len : ℕ)
  | writeFd (w : WriteResult)
  | alltoStr
  | initPtr

/-- What an operation puts out. -/
inductive Output
  /-- What `readFd` returns. -/
  | read (rtn : ℤ) (errno : Option Errno)
  /-- What `writeFd` hands over, and what it returns. -/
  | written (bytes : Bytes) (rtn : ℤ) (errno : Option Errno)
  /-- What `AlltoStr` returns. -/
  | text (s : Bytes)

/-- **One operation**, undefined where the assertion on its argument fails. -/
def step (b : Buffer) : Op → Option Buffer
  | .append s => some (b.append s)
  | .appendBuffer other => some (b.appendBuffer other)
  | .readFd r => some (b.readFd r).1
  | .updateReadPtr len => b.updateReadPtr len
  | .writeFd w => some (b.writeFd w).1
  | .alltoStr => some b.alltoStr.1
  | .initPtr => some b.initPtr

@[inherit_doc Output]
def output (b : Buffer) : Op → List Output
  | .readFd r => [.read (b.readFd r).2.1 (b.readFd r).2.2]
  | .writeFd w =>
    let r := b.writeFd w
    [.written (b.readable.take r.2.1.toNat) r.2.1 r.2.2]
  | .alltoStr => [.text b.alltoStr.2]
  | _ => []

/-! ## The queue

The operations are those of the class, each with what it is given: bytes, a number
of bytes to be skipped, what `readv` or `writev` has returned. The queue has the
same operations on a list of bytes, and knows nothing of positions. That the
buffer does what the queue does is shown for one operation, and for a sequence it
follows by the rule for two machines in step. -/

namespace Queue

/-- What an operation does to a queue of bytes. -/
def step (q : Bytes) : Op → Option Bytes
  | .append s => some (q ++ s)
  | .appendBuffer other => some (q ++ other.1.readable)
  | .readFd r => some (q ++ r.bytes)
  | .updateReadPtr len => if len ≤ q.length then some (q.drop len) else none
  | .writeFd (.accepts n) => some (q.drop n)
  | .writeFd (.error _) => some q
  | .alltoStr => some []
  | .initPtr => some []

/-- What an operation puts out, for a queue of bytes. -/
def output (q : Bytes) : Op → List Output
  | .readFd (.data data) => [.read data.length none]
  | .readFd (.error errno) => [.read (-1) (some errno)]
  | .writeFd (.accepts n) => [.written (q.take n) (min n q.length : ℕ) none]
  | .writeFd (.error errno) => [.written [] (-1) (some errno)]
  | .alltoStr => [.text q]
  | _ => []

end Queue

/-- **One operation of the buffer is one of the queue**, with the same
output. -/
theorem step_rel {b : Buffer} {q : Bytes} (op : Op) (h : b.readable = q) :
    Option.Rel (fun b q => b.readable = q) (b.step op) (Queue.step q op)
      ∧ b.output op = Queue.output q op := by
  subst h
  cases op with
  | append s => exact ⟨Option.Rel.some (b.readable_append s), rfl⟩
  | appendBuffer other => exact ⟨Option.Rel.some (b.readable_append _), rfl⟩
  | readFd r =>
    refine ⟨Option.Rel.some (b.readable_readFd r), ?_⟩
    cases r with
    | error errno => rfl
    | data data =>
      show [Output.read (b.readFd (.data data)).2.1 (b.readFd (.data data)).2.2] = _
      unfold readFd
      dsimp only
      split <;> rfl
  | updateReadPtr len =>
    refine ⟨?_, rfl⟩
    unfold step Queue.step
    dsimp only
    rw [length_readable]
    split
    · next hlen =>
      obtain ⟨b', hb', -, -, -, hreadable⟩ := updateReadPtr_eq_some hlen
      rw [hb']
      exact Option.Rel.some hreadable
    · next hlen =>
      unfold updateReadPtr
      rw [dif_neg hlen]
      exact Option.Rel.none
  | writeFd w =>
    cases w with
    | error errno => exact ⟨Option.Rel.some rfl, rfl⟩
    | accepts n =>
      refine ⟨Option.Rel.some (b.readable_writeFd_accepts n), ?_⟩
      show [Output.written (b.readable.take (min n b.readableBytes))
          (min n b.readableBytes : ℕ) none]
        = [Output.written (b.readable.take n) (min n b.readable.length : ℕ) none]
      rw [← length_readable, List.take_eq_take_min (i := n)]
  | alltoStr => exact ⟨Option.Rel.some b.readable_initPtr, rfl⟩
  | initPtr => exact ⟨Option.Rel.some b.readable_initPtr, rfl⟩

theorem readable_new (size : ℕ) : (new size).readable = [] := by
  unfold readable new
  rw [List.take_zero, List.drop_nil]

/-- **Every sequence of operations is one of the queue**, with the same
outputs. -/
theorem exec_rel_queue (size : ℕ) (ops : List Op) :
    Option.Rel (fun b q => b.readable = q) (Runs.exec step (new size) ops)
        (Runs.exec Queue.step [] ops)
      ∧ Runs.trace step output (new size) ops = Runs.trace Queue.step Queue.output [] ops :=
  Runs.exec_rel step_rel (readable_new size) ops

/-! ## The assertions

The source asserts that the room is enough after `allocateSpace`, that a position
does not go past another when bytes are skipped, and that a pointer is not null.
The first holds because `allocateSpace` makes the room; the second is what the
caller has to see to, and the queue fails in the same case. `readFd` appends what
did not fit into the room with the room full, and so the state it appends to is
described on its own (`fillRoom`). -/

/-- **The assertions of an `append`** of so many bytes: of `allocateSpace`,
where it moves what is there to be read, and of `ensureWriteable`, which
`updateWritePtr` repeats. -/
structure AppendAsserts (b : Buffer) (len : ℕ) : Prop where
  allocateSpace : ¬ b.writeableBytes + b.readBytes < len →
    (b.allocateSpace len).readableBytes = b.readableBytes
  ensureWriteable : len ≤ (b.ensureWriteable len).writeableBytes

theorem appendAsserts (b : Buffer) (len : ℕ) : AppendAsserts b len where
  allocateSpace := by
    intro hmove
    unfold allocateSpace
    rw [if_neg hmove]
    exact Nat.sub_zero _
  ensureWriteable := b.le_writeableBytes_ensureWriteable len

/-- What `readFd` has done before it appends what did not fit: the room is
full. -/
def fillRoom (b : Buffer) (data : Bytes) : Buffer :=
  b.fill (data.take b.writeableBytes) (b.length_take_le data)

/-- **The assertions an operation meets.** The pointer to what is there to be
read of another buffer is not null if its vector is not empty. -/
def Asserts (b : Buffer) : Op → Prop
  | .append s => b.AppendAsserts s.length
  | .appendBuffer other => 0 < other.1.buffer.length ∧ b.AppendAsserts other.1.readableBytes
  | .readFd (.data data) =>
    b.writeableBytes < data.length →
      (b.fillRoom data).AppendAsserts (data.length - b.writeableBytes)
  | .readFd (.error _) => True
  | .updateReadPtr len => len ≤ b.readableBytes
  | .writeFd _ => True
  | .alltoStr => True
  | .initPtr => True

/-- What may be done: not more is skipped than is there. -/
def Allowed (b : Buffer) : Op → Prop
  | .updateReadPtr len => len ≤ b.readableBytes
  | _ => True

/-- **No assertion fails**, and the operation is done. -/
theorem asserts_of_allowed {b : Buffer} {op : Op} (h : b.Allowed op) :
    b.Asserts op ∧ (b.step op).isSome := by
  cases op with
  | append s => exact ⟨b.appendAsserts s.length, rfl⟩
  | appendBuffer other => exact ⟨⟨other.2, b.appendAsserts _⟩, rfl⟩
  | readFd r =>
    refine ⟨?_, rfl⟩
    cases r with
    | data data => exact fun _ => appendAsserts _ _
    | error errno => trivial
  | updateReadPtr len =>
    obtain ⟨b', hb', -⟩ := updateReadPtr_eq_some (show len ≤ b.readableBytes from h)
    exact ⟨h, Option.isSome_iff_exists.mpr ⟨b', hb'⟩⟩
  | writeFd w => exact ⟨trivial, rfl⟩
  | alltoStr => exact ⟨trivial, rfl⟩
  | initPtr => exact ⟨trivial, rfl⟩

/-! ## How long the vector is

A buffer never gives room back, and it is enlarged to one byte more than what is
needed. So after an operation the write position is before the end of the vector
in every case but one: the bytes went into the room, or were moved together with
what was there, and filled it to the last one. That is what the condition for
`printContent` is about. -/

theorem length_fill (b : Buffer) (s : Bytes) (h : s.length ≤ b.writeableBytes) :
    (b.fill s h).buffer.length = b.buffer.length := by
  have hbound := b.writePos_le
  unfold writeableBytes at h
  exact length_overwrite (by omega)

/-- **What an `append` makes of the positions**: the bytes go into the room, or
the vector is enlarged and a byte is left free, or what is there to be read is
moved to the front. -/
theorem append_cases (b : Buffer) (s : Bytes) :
    (s.length ≤ b.writeableBytes ∧ (b.append s).writePos = b.writePos + s.length
        ∧ (b.append s).buffer.length = b.buffer.length)
      ∨ (b.writeableBytes + b.readPos < s.length
        ∧ (b.append s).writePos = b.writePos + s.length
        ∧ (b.append s).buffer.length = b.writePos + s.length + 1)
      ∨ (b.writeableBytes < s.length ∧ s.length ≤ b.writeableBytes + b.readPos
        ∧ (b.append s).writePos = b.readableBytes + s.length
        ∧ (b.append s).buffer.length = b.buffer.length) := by
  have hbound := b.writePos_le
  have hlen := b.length_readable
  unfold append
  rw [length_fill]
  show _ ∧ (b.ensureWriteable s.length).writePos + s.length = _ ∧ _ ∨
    _ ∧ (b.ensureWriteable s.length).writePos + s.length = _ ∧ _ ∨
    _ ∧ _ ∧ (b.ensureWriteable s.length).writePos + s.length = _ ∧ _
  unfold ensureWriteable
  split
  · next hroom =>
    unfold allocateSpace
    split
    · next hgrow =>
      refine Or.inr (Or.inl ⟨hgrow, rfl, ?_⟩)
      show (b.buffer ++ List.replicate _ 0).length = _
      unfold writeableBytes readBytes at hgrow
      rw [List.length_append, List.length_replicate]
      omega
    · next hmove =>
      refine Or.inr (Or.inr ⟨hroom, Nat.le_of_not_lt hmove, rfl, ?_⟩)
      show (overwrite b.buffer 0 b.readable).length = _
      unfold readableBytes at hlen
      exact length_overwrite (by omega)
  · next hroom => exact Or.inl ⟨Nat.le_of_not_lt hroom, rfl, rfl⟩

/-- **What a `readFd` makes of the positions** is what an `append` of the bytes
would. -/
theorem readFd_positions (b : Buffer) (r : ReadResult) :
    (b.readFd r).1.writePos = (b.append r.bytes).writePos
      ∧ (b.readFd r).1.buffer.length = (b.append r.bytes).buffer.length := by
  cases r with
  | error errno =>
    have happend := b.append_cases []
    simp only [List.length_nil, Nat.not_lt_zero, false_and, or_false, Nat.zero_le, true_and,
      Nat.add_zero] at happend
    exact ⟨happend.1.symm, happend.2.symm⟩
  | data data =>
    show _ = (b.append data).writePos ∧ _ = (b.append data).buffer.length
    have happend := b.append_cases data
    unfold readFd
    dsimp only
    split
    · next hfits =>
      rw [length_fill]
      show b.writePos + data.length = _ ∧ _
      omega
    · next hover =>
      have hroom := (b.fillRoom data).append_cases (data.drop b.writeableBytes)
      have hlength : (b.fillRoom data).buffer.length = b.buffer.length := b.length_fill _ _
      have hwrite : (b.fillRoom data).writePos = b.buffer.length := by
        show b.writePos + (data.take b.writeableBytes).length = _
        have hbound := b.writePos_le
        rw [List.length_take]
        unfold writeableBytes at hover ⊢
        omega
      have hread : (b.fillRoom data).readPos = b.readPos := rfl
      have hbound := b.writePos_le
      have hpos := b.readPos_le
      show ((b.fillRoom data).append (data.drop b.writeableBytes)).writePos = _ ∧
        ((b.fillRoom data).append (data.drop b.writeableBytes)).buffer.length = _
      -- the room is full now, so what is left is moved or the vector enlarged
      rw [List.length_drop] at hroom
      generalize (b.fillRoom data).append (data.drop b.writeableBytes) = c at hroom ⊢
      generalize b.append data = c' at happend ⊢
      unfold writeableBytes readableBytes at hroom happend
      unfold writeableBytes at hover
      omega

/-- The bytes an operation brings. -/
def Op.brings : Op → Option ℕ
  | .append s => some s.length
  | .appendBuffer other => some other.1.readableBytes
  | .readFd r => some r.bytes.length
  | _ => none

/-- **What an operation makes of the positions.** -/
theorem step_positions {b b' : Buffer} {op : Op} (h : b.step op = some b') :
    (∃ s : Bytes, op.brings = some s.length ∧ b'.writePos = (b.append s).writePos
        ∧ b'.buffer.length = (b.append s).buffer.length)
      ∨ (op.brings = none ∧ (b'.writePos = b.writePos ∨ b'.writePos = 0)
        ∧ b'.buffer.length = b.buffer.length) := by
  cases op with
  | append s =>
    obtain rfl := Option.some.inj h
    exact Or.inl ⟨s, rfl, rfl, rfl⟩
  | appendBuffer other =>
    obtain rfl := Option.some.inj h
    exact Or.inl ⟨other.1.readable, congrArg some other.1.length_readable.symm, rfl, rfl⟩
  | readFd r =>
    obtain rfl := Option.some.inj h
    exact Or.inl ⟨r.bytes, rfl, b.readFd_positions r⟩
  | updateReadPtr len =>
    have hlen : len ≤ b.readableBytes := by
      by_contra hlen
      exact absurd ((dif_neg hlen).symm.trans h) (by simp)
    obtain ⟨b'', hb'', hbuffer, -, hwrite, -⟩ := updateReadPtr_eq_some hlen
    obtain rfl := Option.some.inj (hb''.symm.trans h)
    exact Or.inr ⟨rfl, Or.inl hwrite, congrArg List.length hbuffer⟩
  | writeFd w =>
    obtain rfl := Option.some.inj h
    cases w with
    | error errno => exact Or.inr ⟨rfl, Or.inl rfl, rfl⟩
    | accepts n => exact Or.inr ⟨rfl, Or.inl rfl, rfl⟩
  | alltoStr =>
    obtain rfl := Option.some.inj h
    exact Or.inr ⟨rfl, Or.inr rfl, List.length_replicate⟩
  | initPtr =>
    obtain rfl := Option.some.inj h
    exact Or.inr ⟨rfl, Or.inr rfl, List.length_replicate⟩

theorem length_le_of_step {b b' : Buffer} {op : Op} (h : b.step op = some b') :
    b.buffer.length ≤ b'.buffer.length := by
  rcases step_positions h with ⟨s, -, -, hlength⟩ | ⟨-, -, hlength⟩
  · rw [hlength]
    have hcases := b.append_cases s
    have hbound := b.writePos_le
    unfold writeableBytes at hcases
    omega
  · exact hlength.ge

/-- **A buffer is a queue of bytes.** For every size of a new one, not `0`, and
every sequence of operations: it can be done exactly if the queue can do it,
what is there to be read is the queue, and the outputs are the same. In every
state the positions are in order and within the vector, which is not empty, no
assertion fails, and a `readFd` or a `writeFd` that fails changes nothing. -/
theorem buffer_refines_queue {size : ℕ} (hsize : 1 ≤ size) (ops : List Op) :
    Option.Rel (fun b q => b.readable = q) (Runs.exec step (new size) ops)
        (Runs.exec Queue.step [] ops)
      ∧ Runs.trace step output (new size) ops = Runs.trace Queue.step Queue.output [] ops
      ∧ ∀ b, Runs.exec step (new size) ops = some b →
        (b.readPos ≤ b.writePos ∧ b.writePos ≤ b.buffer.length ∧ 1 ≤ b.buffer.length)
          ∧ (∀ op, b.Allowed op → b.Asserts op ∧ (b.step op).isSome)
          ∧ ∀ errno, b.step (.readFd (.error errno)) = some b
            ∧ b.step (.writeFd (.error errno)) = some b := by
  obtain ⟨hrel, htrace⟩ := exec_rel_queue size ops
  refine ⟨hrel, htrace, fun b hb => ⟨⟨b.readPos_le, b.writePos_le, ?_⟩, ?_,
    fun errno => ⟨rfl, rfl⟩⟩⟩
  · have hnew : 1 ≤ (new size).buffer.length := by
      show 1 ≤ (List.replicate size 0).length
      rwa [List.length_replicate]
    exact Runs.exec_invariant' (fun b => 1 ≤ b.buffer.length)
      (fun hs hstep => Nat.le_trans hs (length_le_of_step hstep)) hnew hb
  · exact fun op hop => asserts_of_allowed hop

/-- Five bytes through a buffer of two, the first two of them written out. -/
theorem buffer_refines_queue_five_bytes :
    Runs.trace step output (new 2)
        [.append [97, 98], .readFd (.data [99, 100, 101]), .writeFd (.accepts 2), .alltoStr]
      = [.read 3 none, .written [97, 98] 2 none, .text [99, 100, 101]] := by
  refine (buffer_refines_queue (by decide) _).2.1.trans ?_
  rfl

/-! ## Printing

The loop goes on while its index is not greater than the write position, so the
write position is the last index it reads. It is in range exactly if the vector is
not full. The index is an `int` and the position a `size_t`: past `2 ^ 31` the
index overflows before it gets there, and what happens then is not defined, so
that such a vector is not said to be read out of range. -/

/-- The loop of `printContent` from an index on, in at most so many rounds: the
indices it reads. The index is an `int`; as a `size_t`, a negative one is
beyond every position. What happens after it overflows is undefined, and the
list ends there. -/
def printLoop (writePos : ℕ) : ℕ → ℤ → List ℕ
  | 0, _ => []
  | rounds + 1, i =>
    if 0 ≤ i ∧ i ≤ writePos then
      i.toNat :: if i = 2 ^ 31 - 1 then [] else printLoop writePos rounds (i + 1)
    else []

/-- **`printContent`**: the indices of the vector it reads. -/
def printContent (b : Buffer) : List ℕ :=
  printLoop b.writePos (b.writePos + 1) (BitVec.ofNat 32 b.readPos).toInt

/-- What is read is up to the write position, and an `int`. -/
theorem le_of_mem_printLoop {writePos rounds k : ℕ} {i : ℤ} (hi : i < 2 ^ 31)
    (h : k ∈ printLoop writePos rounds i) : k ≤ writePos ∧ k < 2 ^ 31 := by
  induction rounds generalizing i with
  | zero => exact absurd h List.not_mem_nil
  | succ rounds ih =>
    unfold printLoop at h
    split at h
    · next hcond =>
      rcases List.mem_cons.mp h with rfl | hrest
      · omega
      · split at hrest
        · exact absurd hrest List.not_mem_nil
        · exact ih (by omega) hrest
    · exact absurd h List.not_mem_nil

/-- **The write position itself is read**, where no index overflows. -/
theorem writePos_mem_printLoop {writePos i rounds : ℕ} (hi : i ≤ writePos)
    (hint : writePos < 2 ^ 31) (hrounds : writePos + 1 ≤ rounds + i) :
    writePos ∈ printLoop writePos rounds (i : ℤ) := by
  induction rounds generalizing i with
  | zero => omega
  | succ rounds ih =>
    unfold printLoop
    rw [if_pos (by omega), Int.toNat_natCast, List.mem_cons]
    rcases Nat.lt_or_ge i writePos with hlt | hge
    · refine Or.inr ?_
      rw [if_neg (by omega)]
      exact ih (i := i + 1) hlt (by omega)
    · exact Or.inl (by omega)

/-- **When `printContent` reads in range**: if the vector is not full, or so
long that the index overflows first. -/
theorem printContent_lt_iff (b : Buffer) :
    (∀ i ∈ b.printContent, i < b.buffer.length)
      ↔ b.writePos < b.buffer.length ∨ 2 ^ 31 ≤ b.buffer.length := by
  have hpos := b.readPos_le
  have hbound := b.writePos_le
  constructor
  · intro h
    by_contra hfull
    rw [not_or] at hfull
    have hstart : (BitVec.ofNat 32 b.readPos).toInt = (b.readPos : ℤ) := by
      rw [BitVec.toInt_ofNat']
      exact Int.bmod_eq_of_le (by omega) (by omega)
    have hmem : b.writePos ∈ printLoop b.writePos (b.writePos + 1) (b.readPos : ℤ) :=
      writePos_mem_printLoop hpos (by omega) (by omega)
    rw [← hstart] at hmem
    exact absurd (h _ hmem) hfull.1
  · intro h i hi
    have hint : (BitVec.ofNat 32 b.readPos).toInt < 2 ^ 31 := BitVec.toInt_lt
    obtain ⟨hle, hlt⟩ := le_of_mem_printLoop hint hi
    omega

/-- **The operation fills the vector exactly**: it brings as many bytes as there
is room for, after the write position or in all. -/
def FillsExactly (b : Buffer) (op : Op) : Prop :=
  ∃ len ∈ op.brings, len = b.writeableBytes ∨ len = b.writeableBytes + b.readPos

/-- The condition on an operation: it does not fill the vector exactly, unless
the vector is too long for the index of `printContent`. -/
def LeavesRoom (b : Buffer) (op : Op) : Prop := b.FillsExactly op → 2 ^ 31 ≤ b.buffer.length

theorem step_isSome_of_brings {op : Op} {len : ℕ} (b : Buffer) (h : op.brings = some len) :
    (b.step op).isSome := by
  refine (asserts_of_allowed ?_).2
  cases op with
  | updateReadPtr n => exact absurd h (by simp [Op.brings])
  | _ => trivial

/-- **An operation leaves a buffer that can be printed exactly if it leaves
room.** -/
theorem leavesRoom_iff {b : Buffer} {op : Op}
    (h : b.writePos < b.buffer.length ∨ 2 ^ 31 ≤ b.buffer.length) :
    b.LeavesRoom op ↔ ∀ b', b.step op = some b' →
      b'.writePos < b'.buffer.length ∨ 2 ^ 31 ≤ b'.buffer.length := by
  have hbound := b.writePos_le
  have hpos := b.readPos_le
  constructor
  · intro hroom b' hstep
    rcases Nat.lt_or_ge b.buffer.length (2 ^ 31) with hshort | hlong
    · rcases step_positions hstep with ⟨s, hbrings, hwrite, hlength⟩ | ⟨-, hwrite, hlength⟩
      · have hnot : ¬ b.FillsExactly op := fun hfills => Nat.not_le_of_lt hshort (hroom hfills)
        have hnot' : s.length ≠ b.writeableBytes
            ∧ s.length ≠ b.writeableBytes + b.readPos := by
          rw [← not_or]
          exact fun heq => hnot ⟨s.length, hbrings, heq⟩
        have hcases := b.append_cases s
        rw [hwrite, hlength]
        generalize b.append s = c at hcases ⊢
        unfold writeableBytes readableBytes at hcases
        unfold writeableBytes at hnot'
        omega
      · omega
    · exact Or.inr (Nat.le_trans hlong (length_le_of_step hstep))
  · rintro hafter ⟨len, hbrings, hlen⟩
    by_contra hshort
    obtain ⟨b', hstep⟩ := Option.isSome_iff_exists.mp (b.step_isSome_of_brings hbrings)
    have hafter' := hafter b' hstep
    rcases step_positions hstep with ⟨s, hs, hwrite, hlength⟩ | ⟨hnone, -⟩
    · obtain rfl : s.length = len := Option.some.inj (hs.symm.trans hbrings)
      have hcases := b.append_cases s
      rw [hwrite, hlength] at hafter'
      generalize b.append s = c at hcases hafter'
      unfold writeableBytes readableBytes at hcases
      unfold writeableBytes at hlen
      omega
    · exact absurd (hnone.symm.trans hbrings) (by simp)

/-- **When every state can be printed.** For any new buffer and any sequence of
operations, `printContent` reads only within the vector in every state reached
exactly if the new vector is not empty and no operation fills it exactly, up to
vectors of `2 ^ 31` bytes. -/
theorem printsInRange_iff (size : ℕ) (ops : List Op) :
    (∀ ops', ops' <+: ops → ∀ b, Runs.exec step (new size) ops' = some b →
        ∀ i ∈ b.printContent, i < b.buffer.length)
      ↔ 1 ≤ size ∧ Runs.Guarded step LeavesRoom (new size) ops := by
  have hlength : (new size).buffer.length = size := List.length_replicate
  simp only [printContent_lt_iff]
  constructor
  · intro h
    have hnew := h [] List.nil_prefix (new size) rfl
    refine ⟨?_, (Runs.guarded_iff_forall_prefix leavesRoom_iff hnew).mpr h⟩
    rw [hlength] at hnew
    rcases hnew with hlt | hle
    · exact hlt
    · omega
  · rintro ⟨hsize, hguard⟩
    have hnew : (new size).writePos < (new size).buffer.length
        ∨ 2 ^ 31 ≤ (new size).buffer.length := by
      rw [hlength]
      exact Or.inl hsize
    exact (Runs.guarded_iff_forall_prefix leavesRoom_iff hnew).mp hguard

/-- **A request as long as the room**: `1024` bytes are read into a buffer of
`1024`, and the byte past them is printed. -/
theorem not_printsInRange_exact_fit :
    ¬ ∀ (ops : List Op) (b : Buffer), Runs.exec step (new 1024) ops = some b →
      ∀ i ∈ b.printContent, i < b.buffer.length := by
  intro h
  have hprint := h [.readFd (.data (List.replicate 1024 0))] _ rfl
  rw [printContent_lt_iff] at hprint
  exact absurd hprint (by decide +kernel)

end Buffer

end MiniDcs
