import LinuxStudy.MiniBuffer
import LinuxStudy.Runs
import LinuxStudy.SockAddr

/-!
# What a connection sends

A message for a connection is appended to its write buffer by
`connnectionSend`, and sent by `writeBuffer`, which hands `iov_[0]` to
`writev` and moves it past what was taken. So what is not sent yet is
recorded twice: by the positions of the buffer, and by the base and length of
`iov_[0]`. The base is a pointer; here it is a position in the vector of the
write buffer, which is what it points into, since `connnectionSend` sets it
again whenever the vector may have moved.

`initConnection` sets neither `iov_` nor `iovCnt_`: `iov_[0]` and `iovCnt_`
have no value before the first `connnectionSend`, and `iov_[1]` never gets
one. `iovCnt_` is `1` from the first `connnectionSend` on, so `writev` is
given `iov_[0]` alone.

`Describes` says that the two records agree. Each operation keeps it, moves
bytes from the front of the buffer to the kernel and loses none
(`writeBuffer_spec`), and the loop of `writeBuffer` ends, whatever `writev`
does (`exists_writeBuffer_ok`).
-/

namespace MiniDcs

open Socket

/-- `iovec`, with its base as a position in the vector of the write
buffer. -/
structure Iovec where
  base : ℕ
  len : ℕ
  deriving DecidableEq

/-- **`Connection`.** -/
structure Connection where
  fd : ℤ
  addr : SockAddr
  readBuffer_ : Buffer
  writeBuffer_ : Buffer
  /-- `iov_[0]`. -/
  iov₀ : Iovec
  /-- `iov_[1]`. -/
  iov₁ : Iovec
  needSend : Bool

namespace Connection

/-- The constructor. `iov_` and `needSend` are not set; they are what the
memory held. -/
def new (iov₀ iov₁ : Iovec) (needSend : Bool) : Connection where
  fd := -1
  addr := ⟨⟨0, 0, 0, 0⟩, 0⟩
  readBuffer_ := Buffer.new 1024
  writeBuffer_ := Buffer.new 1024
  iov₀ := iov₀
  iov₁ := iov₁
  needSend := needSend

/-- `initConnection`. -/
def initConnection (c : Connection) (sockFd : ℤ) (addr : SockAddr) : Connection :=
  { c with
    addr := addr
    fd := sockFd
    readBuffer_ := c.readBuffer_.initPtr
    writeBuffer_ := c.writeBuffer_.initPtr }

/-- `getIp`. -/
def getIp (c : Connection) : Bytes := inetNtoa c.addr.sinAddr

/-- `getPort`: the number as it stands, without `ntohs`. -/
def getPort (c : Connection) : ℕ := c.addr.sinPort.toNat

/-- `writeBytes`: a `size_t` returned as an `int`. -/
def writeBytes (c : Connection) : ℤ := Int.bmod (c.iov₁.len + c.iov₀.len) (2 ^ 32)

/-- `connnectionSend`. -/
def connnectionSend (c : Connection) (msg : Bytes) : Connection :=
  let buff := c.writeBuffer_.append msg
  { c with
    needSend := true
    writeBuffer_ := buff
    iov₀ := ⟨buff.readPos, buff.readableBytes⟩ }

/-- What `writev` takes if it takes `len` bytes. -/
def taken (c : Connection) (len : ℕ) : Bytes :=
  (c.writeBuffer_.buffer.drop c.iov₀.base).take len

/-- The second and third branch of the loop of `writeBuffer`: past what was
taken. It is undefined where the assertion of `updateReadPtr` fails. -/
def advance (c : Connection) (len : ℕ) : Option Connection :=
  if c.iov₀.len < len then
    let iov₁ : Iovec := ⟨c.iov₁.base + (len - c.iov₀.len), c.iov₁.len - (len - c.iov₀.len)⟩
    if c.iov₀.len ≠ 0 then
      some { c with
        iov₁ := iov₁, writeBuffer_ := c.writeBuffer_.initPtr, iov₀ := ⟨c.iov₀.base, 0⟩ }
    else some { c with iov₁ := iov₁ }
  else
    (c.writeBuffer_.updateReadPtr len).map (fun buff =>
      { c with
        iov₀ := ⟨c.iov₀.base + len, c.iov₀.len - len⟩
        writeBuffer_ := buff })

/-- Why a call of `writeBuffer` gives nothing. -/
inductive Stop
  /-- An assertion fails. -/
  | assertion
  /-- The results of `writev` to come end before the call does. -/
  | unfinished
  deriving DecidableEq

/-- What a call of `writeBuffer` gives: the connection, what the kernel took,
what the function returns and the error, if there is one. -/
structure Written where
  conn : Connection
  accepted : Bytes
  len : ℤ
  saveErrno : Option Errno

/-- `writeBuffer`, by the results of `writev` to come. -/
def writeBuffer (isET : Bool) : List WriteResult → Connection → Except Stop Written
  | [], _ => .error .unfinished
  | .error errno :: _, c => .ok ⟨c, [], -1, some errno⟩
  | .accepts n :: rest, c =>
    let len := min n c.iov₀.len
    -- nothing is taken; `errno` is saved, and not looked at
    if len = 0 then .ok ⟨c, [], 0, none⟩
    else if (c.iov₀.len + c.iov₁.len) % 2 ^ 64 = 0 then .ok ⟨c, c.taken len, len, none⟩
    else
      match c.advance len with
      | none => .error .assertion
      | some c' =>
        if isET = true ∨ 10240 < c'.writeBytes then
          (writeBuffer isET rest c').map (fun w => { w with accepted := c.taken len ++ w.accepted })
        else .ok ⟨c', c.taken len, len, none⟩

/-- **The two records of what is not sent agree**: `iov_[0]` is the part of
the write buffer that is there to be read. -/
def Describes (c : Connection) : Prop :=
  c.iov₀ = ⟨c.writeBuffer_.readPos, c.writeBuffer_.readableBytes⟩

instance (c : Connection) : Decidable c.Describes := inferInstanceAs (Decidable (_ = _))

/-- The vector of the write buffer is within `max_size`. -/
def Fits (c : Connection) : Prop := c.writeBuffer_.buffer.length < 2 ^ 63

instance (c : Connection) : Decidable c.Fits := inferInstanceAs (Decidable (_ < _))

/-! ## What the operations do to what is not sent

There are two records of what is not sent: the bytes of the write buffer that are
there to be read, and `iov_[0]`, a base and a length. `connnectionSend` appends to
the buffer and sets `iov_[0]` from it, so they agree from then on. In
`writeBuffer` both are moved by what `writev` took, in a branch that depends on
whether this was more than `iov_[0]` has. -/

variable {c : Connection} {isET : Bool}

/-- What is not sent. -/
def unsent (c : Connection) : Bytes := c.writeBuffer_.readable

theorem describes_connnectionSend (c : Connection) (msg : Bytes) :
    (c.connnectionSend msg).Describes := rfl

theorem unsent_connnectionSend (c : Connection) (msg : Bytes) :
    (c.connnectionSend msg).unsent = c.unsent ++ msg :=
  c.writeBuffer_.readable_append msg

theorem unsent_initConnection (c : Connection) (fd : ℤ) (addr : SockAddr) :
    (c.initConnection fd addr).unsent = [] :=
  c.writeBuffer_.readable_initPtr

namespace Describes

theorem len_eq (hd : c.Describes) : c.iov₀.len = c.unsent.length := by
  unfold unsent
  rw [Buffer.length_readable, hd]

theorem writeBytes_eq (hd : c.Describes) (h₁ : c.iov₁.len = 0) :
    c.writeBytes = Int.bmod c.unsent.length (2 ^ 32) := by
  unfold writeBytes
  rw [h₁, hd.len_eq, Nat.cast_zero, Int.zero_add]

theorem taken_eq (hd : c.Describes) {len : ℕ} (hlen : len ≤ c.iov₀.len) :
    c.taken len = c.unsent.take len := by
  have hbound : len ≤ c.writeBuffer_.writePos - c.writeBuffer_.readPos := by
    rw [hd] at hlen
    exact hlen
  unfold taken unsent Buffer.readable
  rw [hd, List.drop_take, List.take_take, Nat.min_eq_left hbound]

/-- **Past what was taken the two records agree again**, and no assertion
fails. -/
theorem advance (hd : c.Describes) {len : ℕ} (hlen : len ≤ c.iov₀.len) :
    ∃ c', c.advance len = some c' ∧ c'.Describes
      ∧ c'.unsent = c.unsent.drop len
      ∧ c'.writeBuffer_.buffer = c.writeBuffer_.buffer
      ∧ c' = { c with iov₀ := c'.iov₀, writeBuffer_ := c'.writeBuffer_ } := by
  have hread : len ≤ c.writeBuffer_.readableBytes := by
    rw [hd] at hlen
    exact hlen
  obtain ⟨buff, hupdate, hbuffer, hreadPos, hwritePos, hreadable⟩ :=
    Buffer.updateReadPtr_eq_some hread
  unfold Connection.advance
  rw [if_neg (Nat.not_lt.mpr hlen), hupdate]
  refine ⟨_, rfl, ?_, hreadable, hbuffer, rfl⟩
  show (⟨c.iov₀.base + len, c.iov₀.len - len⟩ : Iovec) = ⟨buff.readPos, buff.readableBytes⟩
  unfold Buffer.readableBytes
  rw [hd, hreadPos, hwritePos, Nat.sub_add_eq]
  rfl

end Describes

/-- **What a call of `writeBuffer` does**: bytes go from the front of what is
not sent to the kernel, the two records agree, and nothing else changes. -/
structure Sends (c : Connection) (w : Written) : Prop where
  describes : w.conn.Describes
  fits : w.conn.Fits
  stream : w.accepted ++ w.conn.unsent = c.unsent
  frame : w.conn = { c with iov₀ := w.conn.iov₀, writeBuffer_ := w.conn.writeBuffer_ }

theorem Sends.refl (hd : c.Describes) (hf : c.Fits) (len : ℤ) (saveErrno : Option Errno) :
    Sends c ⟨c, [], len, saveErrno⟩ :=
  ⟨hd, hf, rfl, rfl⟩

theorem Describes.sum_ne_zero (hd : c.Describes) (hf : c.Fits) (h₁ : c.iov₁.len = 0)
    (hpos : 0 < c.iov₀.len) : (c.iov₀.len + c.iov₁.len) % 2 ^ 64 ≠ 0 := by
  have hbound := c.writeBuffer_.writePos_le
  have hlen : c.iov₀.len ≤ c.writeBuffer_.writePos := by
    rw [hd]
    exact Nat.sub_le _ _
  unfold Fits at hf
  omega

/-- One round of the loop that takes something. -/
theorem Describes.writeBuffer_accepts (hd : c.Describes) (hf : c.Fits) (h₁ : c.iov₁.len = 0)
    {n : ℕ} (hpos : 0 < min n c.iov₀.len) (isET : Bool) :
    ∃ c', c.advance (min n c.iov₀.len) = some c' ∧ c'.Describes ∧ c'.Fits ∧ c'.iov₁.len = 0
      ∧ c'.unsent = c.unsent.drop (min n c.iov₀.len)
      ∧ c' = { c with iov₀ := c'.iov₀, writeBuffer_ := c'.writeBuffer_ }
      ∧ ∀ rest, writeBuffer isET (.accepts n :: rest) c
        = if isET = true ∨ 10240 < c'.writeBytes then
            (writeBuffer isET rest c').map (fun w =>
              { w with accepted := c.unsent.take (min n c.iov₀.len) ++ w.accepted })
          else .ok ⟨c', c.unsent.take (min n c.iov₀.len), (min n c.iov₀.len : ℕ), none⟩ := by
  have hle : min n c.iov₀.len ≤ c.iov₀.len := Nat.min_le_right _ _
  obtain ⟨c', hadvance, hd', hunsent, hbuffer, hframe⟩ := hd.advance hle
  have hf' : c'.Fits := by
    unfold Fits
    rw [hbuffer]
    exact hf
  have h₁' : c'.iov₁.len = 0 := by
    rw [hframe]
    exact h₁
  refine ⟨c', hadvance, hd', hf', h₁', hunsent, hframe, fun rest => ?_⟩
  rw [writeBuffer, if_neg (Nat.ne_of_gt hpos),
    if_neg (hd.sum_ne_zero hf h₁ (Nat.lt_of_lt_of_le hpos hle)), hadvance, hd.taken_eq hle]

/-- **The loop of `writeBuffer` sends what is not sent**, round by round, and
no assertion fails. -/
theorem writeBuffer_spec (hd : c.Describes) (hf : c.Fits) (h₁ : c.iov₁.len = 0)
    (results : List WriteResult) :
    c.writeBuffer isET results ≠ .error .assertion
      ∧ ∀ w, c.writeBuffer isET results = .ok w → Sends c w := by
  induction results generalizing c with
  | nil => exact ⟨by simp [writeBuffer], fun w h => by simp [writeBuffer] at h⟩
  | cons r rest ih =>
    cases r with
    | error errno =>
      refine ⟨by simp [writeBuffer], fun w h => ?_⟩
      obtain rfl := Except.ok.inj h
      exact Sends.refl hd hf _ _
    | accepts n =>
      rcases Nat.eq_zero_or_pos (min n c.iov₀.len) with hzero | hpos
      · rw [writeBuffer, if_pos hzero]
        refine ⟨by simp, fun w h => ?_⟩
        obtain rfl := Except.ok.inj h
        exact Sends.refl hd hf _ _
      · obtain ⟨c', -, hd', hf', h₁', hunsent, hframe, hround⟩ :=
          hd.writeBuffer_accepts hf h₁ hpos isET
        have hstream : c.unsent.take (min n c.iov₀.len) ++ c'.unsent = c.unsent := by
          rw [hunsent, List.take_append_drop]
        obtain ⟨hassert, hsends⟩ := ih hd' hf' h₁'
        rw [hround]
        split
        · -- the loop goes on with the rest
          cases hrest : c'.writeBuffer isET rest with
          | error stop =>
            refine ⟨fun h => hassert ?_, fun w h => by simp [Except.map] at h⟩
            rw [hrest, Except.error.inj h]
          | ok w' =>
            have hw' := hsends w' hrest
            refine ⟨by simp [Except.map], fun w h => ?_⟩
            obtain rfl := Except.ok.inj h
            refine ⟨hw'.describes, hw'.fits, ?_, ?_⟩
            · show _ ++ w'.accepted ++ w'.conn.unsent = _
              rw [List.append_assoc, hw'.stream, hstream]
            · show w'.conn = _
              rw [hw'.frame, hframe]
        · refine ⟨by simp, fun w h => ?_⟩
          obtain rfl := Except.ok.inj h
          exact ⟨hd', hf', hstream, hframe⟩

/-- **The loop of `writeBuffer` ends**, whatever `writev` does: where it takes
something, less is left, and where nothing is left it takes nothing. -/
theorem exists_writeBuffer_ok (hd : c.Describes) (hf : c.Fits) (h₁ : c.iov₁.len = 0)
    (kernel : ℕ → WriteResult) :
    ∃ n w, c.writeBuffer isET ((List.range n).map kernel) = .ok w := by
  induction hlen : c.iov₀.len using Nat.strong_induction_on generalizing c kernel with
  | _ k ih =>
    have hfirst : ∀ n, (List.range (n + 1)).map kernel
        = kernel 0 :: (List.range n).map (fun i => kernel (i + 1)) := by
      intro n
      rw [List.range_succ_eq_map, List.map_cons, List.map_map]
      rfl
    cases hk : kernel 0 with
    | error errno => exact ⟨1, _, by rw [hfirst, hk]; rfl⟩
    | accepts n =>
      rcases Nat.eq_zero_or_pos (min n c.iov₀.len) with hzero | hpos
      · exact ⟨1, _, by rw [hfirst, hk, writeBuffer, if_pos hzero]⟩
      · obtain ⟨c', -, hd', hf', h₁', hunsent, -, hround⟩ :=
          hd.writeBuffer_accepts hf h₁ hpos isET
        have hless : c'.iov₀.len < k := by
          rw [hd'.len_eq, hunsent, List.length_drop, ← hd.len_eq]
          omega
        obtain ⟨m, w, hw⟩ := ih _ hless hd' hf' h₁' (fun i => kernel (i + 1)) rfl
        refine ⟨m + 1, ?_⟩
        rw [hfirst, hk, hround, hw]
        split
        · exact ⟨_, rfl⟩
        · exact ⟨_, rfl⟩

end Connection

/-! ## The stream

What was taken by the kernel and what is not sent are, one behind the other, what
was to be sent. A message is added to the second part, a call of `writeBuffer`
moves bytes from the second to the first, and nothing else is done to either.
Before the first message `iov_[0]` is what the memory held, and nothing reads it. -/

namespace Outgoing

open Connection

/-- A connection, and what the kernel has taken from it. -/
structure Sending where
  conn : Connection
  accepted : Bytes

/-- A call on the connection. -/
inductive Call
  | connnectionSend (msg : Bytes)
  /-- By the results of its calls of `writev`. -/
  | writeBuffer (results : List WriteResult)

/-- One call. A message for which the vector would grow beyond `max_size`
throws, and a call of `writeBuffer` that has not returned is not done. -/
def step (isET : Bool) (s : Sending) : Call → Option Sending
  | .connnectionSend msg =>
    let conn := s.conn.connnectionSend msg
    if conn.Fits then some { s with conn := conn } else none
  | .writeBuffer results =>
    match s.conn.writeBuffer isET results with
    | .ok w => some ⟨w.conn, s.accepted ++ w.accepted⟩
    | .error _ => none

/-- The message of a call. -/
def Call.message : Call → Bytes
  | .connnectionSend msg => msg
  | .writeBuffer _ => []

/-- `m_1 ++ … ++ m_n`. -/
def messages (calls : List Call) : Bytes := calls.flatMap Call.message

/-- `writeBuffer` is called only after some `connnectionSend`. -/
def SendsFirst : List Call → Prop
  | .writeBuffer _ :: _ => False
  | _ => True

instance (calls : List Call) : Decidable (SendsFirst calls) :=
  match calls with
  | [] => inferInstanceAs (Decidable True)
  | .connnectionSend _ :: _ => inferInstanceAs (Decidable True)
  | .writeBuffer _ :: _ => inferInstanceAs (Decidable False)

/-- What holds from the first `connnectionSend` on. -/
structure Sound (s : Sending) : Prop where
  describes : s.conn.Describes
  fits : s.conn.Fits
  iov₁ : s.conn.iov₁.len = 0

variable {isET : Bool} {s t : Sending}

/-- **`connnectionSend` adds its message** to the stream, and makes the two
records agree. -/
theorem step_connnectionSend {msg : Bytes} (h₁ : s.conn.iov₁.len = 0)
    (h : step isET s (.connnectionSend msg) = some t) :
    Sound t ∧ t.accepted ++ t.conn.unsent = s.accepted ++ s.conn.unsent ++ msg := by
  unfold step at h
  dsimp only at h
  split at h
  · next hfits =>
    obtain rfl := Option.some.inj h
    refine ⟨⟨describes_connnectionSend _ _, hfits, h₁⟩, ?_⟩
    show s.accepted ++ (s.conn.connnectionSend msg).unsent = _
    rw [unsent_connnectionSend, List.append_assoc]
  · exact absurd h (by simp)

/-- **`writeBuffer` leaves the stream as it is.** -/
theorem step_writeBuffer {results : List WriteResult} (hs : Sound s)
    (h : step isET s (.writeBuffer results) = some t) :
    Sound t ∧ t.accepted ++ t.conn.unsent = s.accepted ++ s.conn.unsent := by
  unfold step at h
  dsimp only at h
  split at h
  · next w hw =>
    obtain rfl := Option.some.inj h
    have hsends := (writeBuffer_spec hs.describes hs.fits hs.iov₁ results).2 w hw
    refine ⟨⟨hsends.describes, hsends.fits, ?_⟩, ?_⟩
    · show w.conn.iov₁.len = 0
      rw [hsends.frame]
      exact hs.iov₁
    · show s.accepted ++ w.accepted ++ w.conn.unsent = _
      rw [List.append_assoc, hsends.stream]
  · exact absurd h (by simp)

/-- **Every sequence of calls adds its messages** to the stream. -/
theorem exec_stream {calls : List Call} (hs : Sound s)
    (h : Runs.exec (step isET) s calls = some t) :
    Sound t ∧ t.accepted ++ t.conn.unsent = s.accepted ++ s.conn.unsent ++ messages calls := by
  induction calls generalizing s with
  | nil =>
    obtain rfl : s = t := Option.some.inj h
    exact ⟨hs, (List.append_nil _).symm⟩
  | cons call calls ih =>
    obtain ⟨u, hu, hrest⟩ := Runs.exec_cons_eq_some.mp h
    have hmessages : messages (call :: calls) = call.message ++ messages calls :=
      List.flatMap_cons
    have hcall : Sound u ∧ u.accepted ++ u.conn.unsent
        = s.accepted ++ s.conn.unsent ++ call.message := by
      cases call with
      | connnectionSend msg => exact step_connnectionSend hs.iov₁ hu
      | writeBuffer results =>
        obtain ⟨hsound, hstream⟩ := step_writeBuffer hs hu
        exact ⟨hsound, hstream.trans (List.append_nil _).symm⟩
    obtain ⟨hsound, hstream⟩ := ih hcall.1 hrest
    refine ⟨hsound, ?_⟩
    rw [hstream, hcall.2, hmessages, List.append_assoc]

/-- **The bytes sent are the messages**, whatever `writev` does: what the
kernel took, followed by what is not sent, are the messages one after the
other; from the first call on `iov_[0]` is what is not sent, no assertion of
the buffer fails, and every call of `writeBuffer` returns. -/
theorem outgoing_stream_integrity (isET : Bool) {c : Connection} (h₁ : c.iov₁.len = 0)
    (fd : ℤ) (addr : SockAddr) {calls : List Call} (hcalls : SendsFirst calls)
    (h : Runs.exec (step isET) ⟨c.initConnection fd addr, []⟩ calls = some s) :
    s.accepted ++ s.conn.unsent = messages calls
      ∧ (calls ≠ [] → s.conn.Describes
        ∧ (∀ results, s.conn.writeBuffer isET results ≠ .error .assertion)
        ∧ ∀ kernel : ℕ → WriteResult,
          ∃ n w, s.conn.writeBuffer isET ((List.range n).map kernel) = .ok w) := by
  cases calls with
  | nil =>
    obtain rfl := Option.some.inj h
    exact ⟨unsent_initConnection c fd addr, fun hne => absurd rfl hne⟩
  | cons call calls =>
    cases call with
    | writeBuffer results => exact absurd hcalls id
    | connnectionSend msg =>
      obtain ⟨u, hu, hrest⟩ := Runs.exec_cons_eq_some.mp h
      obtain ⟨hsound, hfirst⟩ := step_connnectionSend h₁ hu
      obtain ⟨hs, hstream⟩ := exec_stream hsound hrest
      refine ⟨?_, fun _ => ⟨hs.describes, fun results => ?_, fun kernel => ?_⟩⟩
      · rw [hstream, hfirst]
        show [] ++ (c.initConnection fd addr).unsent ++ msg ++ messages calls = _
        rw [unsent_initConnection, List.nil_append, List.nil_append]
        rfl
      · exact (writeBuffer_spec hs.describes hs.fits hs.iov₁ results).1
      · exact exists_writeBuffer_ok hs.describes hs.fits hs.iov₁ kernel

/-- A connection whose memory held a `7` where `iov_[0].iov_len` stands. -/
def fresh : Connection := Connection.new ⟨0, 7⟩ ⟨0, 0⟩ false

/-- A peer. -/
def peer : SockAddr := ⟨⟨127, 0, 0, 1⟩, 34463⟩

/-- Two messages, the first sent in part before the second comes. -/
def calls : List Call :=
  [.connnectionSend (str "abc"), .writeBuffer [.accepts 2, .error .eagain],
    .connnectionSend (str "de"), .writeBuffer [.accepts 1, .accepts 9, .accepts 0]]

/-- The statement on this sequence, edge-triggered: everything was sent. -/
theorem outgoing_stream_integrity_calls :
    ∃ s, Runs.exec (step true) ⟨fresh.initConnection 5 peer, []⟩ calls = some s
      ∧ s.accepted = str "abcde" ∧ s.accepted ++ s.conn.unsent = messages calls := by
  have hsome : (Runs.exec (step true) ⟨fresh.initConnection 5 peer, []⟩ calls).isSome
      ∧ ((Runs.exec (step true) ⟨fresh.initConnection 5 peer, []⟩ calls).map
        Sending.accepted) = some (str "abcde") := by
    decide +kernel
  obtain ⟨s, hs⟩ := Option.isSome_iff_exists.mp hsome.1
  have haccepted : s.accepted = str "abcde" := by
    have hmap := hsome.2
    rw [hs] at hmap
    exact Option.some.inj hmap
  exact ⟨s, hs, haccepted, (outgoing_stream_integrity true rfl 5 peer (by decide) hs).1⟩

/-- **Before the first message `iov_[0]` is not set**: on a new connection it
need not be what is not sent. -/
theorem iov_not_set_before_first_send :
    fresh.iov₁.len = 0 ∧ SendsFirst []
      ∧ Runs.exec (step true) ⟨fresh.initConnection 5 peer, []⟩ []
        = some ⟨fresh.initConnection 5 peer, []⟩
      ∧ ¬ (fresh.initConnection 5 peer).Describes := by
  refine ⟨rfl, trivial, rfl, ?_⟩
  decide +kernel

end Outgoing

end MiniDcs
