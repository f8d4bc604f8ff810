import Mathlib.Algebra.Order.Ring.Int
import LinuxStudy.Bytes

/-!
# The log file of the client

`LogFile` writes lines to a file and goes on with another one when the file has
reached a limit: `WriteToFile` gives a line to `fwrite`, opens the next file if
the line has made the size greater than the limit, flushes, and counts the
line.

`fwrite` only fills the buffer of the stream, and by the time of `fflush` the
stream is the one of the new file. The line that goes over the limit thus stays
in the buffer of a stream that nothing refers to any more, and is counted for a
file it is not in. As long as the lines stay within the limit nothing of this
happens, and otherwise the first that does not is lost
(`losesNothing_iff`).

The size is an `int` and the limit is one, but the comparison is of `size_t`: a
negative limit is greater than every size, and then the size is what goes over,
at `2 ^ 31`.
-/

namespace Dcs

/-- A `FILE`: what is in its buffer, and what has been flushed. -/
structure Stream where
  name : Bytes
  pending : Bytes
  flushed : Bytes

namespace Stream

/-- `fwrite`. -/
def fwrite (f : Stream) (bytes : Bytes) : Stream := { f with pending := f.pending ++ bytes }

/-- `fflush`. -/
def fflush (f : Stream) : Stream := { f with pending := [], flushed := f.flushed ++ f.pending }

/-- The number of bytes written to the file. -/
def size (f : Stream) : ℕ := f.flushed.length + f.pending.length

end Stream

/-- **`LogFile`**, with the streams it has opened, the first first. `plogfile`
is the index of one of them, or `NULL`. -/
structure LogFile where
  streams : List Stream
  plogfile : Option ℕ
  m_size : ℤ
  m_filenum : ℕ
  m_sizelimit : ℤ
  m_filename : Bytes

namespace LogFile

/-- The constructor. -/
def new (sizelimit : ℤ) : LogFile := ⟨[], none, 0, 0, sizelimit, str "my.log"⟩

/-- `str.insert(str.find_last_of("//")+1, …)`: the text is put before the last
part of the path. -/
def insertMark (filename mark : Bytes) : Bytes :=
  let pos := match findLastOf 47 filename with
    | some i => i + 1
    | none => 0
  filename.take pos ++ mark ++ filename.drop pos

/-- `fopen`, which may fail. -/
def fopen (opened : Bool) (name : Bytes) (s : LogFile) : LogFile :=
  if opened then
    { s with streams := s.streams ++ [⟨name, [], []⟩], plogfile := some s.streams.length }
  else { s with plogfile := none }

/-- `fclose`, which flushes, if the stream is not `NULL`. -/
def fclose (s : LogFile) : LogFile :=
  match s.plogfile with
  | some i => { s with streams := s.streams.modify i Stream.fflush }
  | none => s

/-- `fflush(plogfile)`, which flushes all streams if it is `NULL`. -/
def fflush (s : LogFile) : LogFile :=
  match s.plogfile with
  | some i => { s with streams := s.streams.modify i Stream.fflush }
  | none => { s with streams := s.streams.map Stream.fflush }

/-- **`OpenLogFile`.** -/
def openLogFile (opened : Bool) (filename : Bytes) (s : LogFile) : LogFile :=
  let s := { s with m_filename := filename }.fclose.fopen opened (insertMark filename (str "0_"))
  { s with m_filenum := 1 }

/-- A number as a `size_t`. -/
def sizeT (x : ℤ) : ℤ := x % 2 ^ 64

/-- `m_size + line.length() > m_sizelimit`. -/
def overLimit (s : LogFile) (line : Bytes) : Prop :=
  sizeT s.m_sizelimit < sizeT (s.m_size + line.length)

instance (s : LogFile) (line : Bytes) : Decidable (s.overLimit line) :=
  inferInstanceAs (Decidable (sizeT s.m_sizelimit < sizeT (s.m_size + line.length)))

/-- The next file. -/
def rotate (opened : Bool) (s : LogFile) : LogFile :=
  let s := s.fopen opened (insertMark s.m_filename (decimal s.m_filenum ++ str "_"))
  { s with m_filenum := s.m_filenum + 1, m_size := 0 }

/-- `fwrite` to one of the streams. -/
def fwrite (i : ℕ) (bytes : Bytes) (s : LogFile) : LogFile :=
  { s with streams := s.streams.modify i fun f => f.fwrite bytes }

/-- `m_size += line.length()`. -/
def count (line : Bytes) (s : LogFile) : LogFile :=
  { s with m_size := Int.bmod (s.m_size + line.length) (2 ^ 32) }

/-- **`WriteToFile`**, with the number of bytes `fwrite` has written and whether
`fopen` succeeds. -/
def writeToFile (written : ℕ) (opened : Bool) (line : Bytes) (s : LogFile) : Bool × LogFile :=
  match s.plogfile with
  | none => (false, s)
  | some i =>
    let s := s.fwrite i (line.take written)
    if written ≠ line.length then (false, s)
    else
      let s := if s.overLimit line then s.rotate opened else s
      (true, s.fflush.count line)

/-- A line written while all calls succeed. -/
def writeLine (s : LogFile) (line : Bytes) : LogFile := (s.writeToFile line.length true line).2

/-- The log file after the lines, one after the other. -/
def afterLines (filename : Bytes) (sizelimit : ℤ) (lines : List Bytes) : LogFile :=
  lines.foldl writeLine ((new sizelimit).openLogFile true filename)

/-- **Nothing is lost**: the lines are in the files, in order and flushed, and
the size is that of the current file. -/
structure LosesNothing (filename : Bytes) (lines : List Bytes) (s : LogFile) : Prop where
  names : s.streams.map Stream.name
    = (List.range s.streams.length).map fun k => insertMark filename (decimal k ++ str "_")
  flushed : (s.streams.map Stream.flushed).flatten = lines.flatten
  size : ∃ i f, s.plogfile = some i ∧ s.streams[i]? = some f ∧ s.m_size = f.size

/-! ## Up to the limit

A line is written to the stream that `plogfile` was when `WriteToFile` began. If
the size with the line is over the limit, the next file is opened first, and then
the flush goes to the new one, while the line is in the buffer of the old one. So
the first line over the limit is where something is lost, and up to there the sum
of the lines is all that has to be known.

The comparison is one of a `size_t` with an `int`, which is converted. A negative
limit becomes a number greater than any size, and then it is the size itself that
goes wrong first: it is an `int`, and the sum is converted back. -/

/-- The greatest size up to which nothing is lost. -/
def bound (sizelimit : ℤ) : ℤ := if 0 ≤ sizelimit then sizelimit else 2 ^ 31 - 1

/-- The log file with its first file, and some bytes in it. -/
def single (filename : Bytes) (sizelimit : ℤ) (bytes : Bytes) : LogFile where
  streams := [⟨insertMark filename (str "0_"), [], bytes⟩]
  plogfile := some 0
  m_size := bytes.length
  m_filenum := 1
  m_sizelimit := sizelimit
  m_filename := filename

section

variable {filename : Bytes} {sizelimit : ℤ} {bytes line : Bytes}

theorem writeLine_eq {s : LogFile} {i : ℕ} (h : s.plogfile = some i) (line : Bytes) :
    s.writeLine line = ((if (s.fwrite i line).overLimit line then (s.fwrite i line).rotate true
      else s.fwrite i line).fflush).count line := by
  unfold writeLine writeToFile
  rw [h]
  simp only [List.take_length, ne_eq, not_true_eq_false, if_false]

theorem overLimit_iff (hlimit : -2 ^ 31 ≤ sizelimit ∧ sizelimit < 2 ^ 31)
    (hbytes : (bytes.length : ℤ) < 2 ^ 31) (hline : line.length < 2 ^ 63) :
    ((single filename sizelimit bytes).fwrite 0 line).overLimit line
      ↔ 0 ≤ sizelimit ∧ sizelimit < bytes.length + line.length := by
  obtain ⟨hlo, hhi⟩ := hlimit
  show sizelimit % 2 ^ 64 < ((bytes.length : ℤ) + line.length) % 2 ^ 64 ↔ _
  omega

theorem stayed_eq (filename : Bytes) (sizelimit : ℤ) (bytes line : Bytes) :
    ((single filename sizelimit bytes).fwrite 0 line).fflush.count line
      = { single filename sizelimit (bytes ++ line) with
          m_size := Int.bmod ((bytes.length : ℤ) + line.length) (2 ^ 32) } := rfl

theorem bound_lt (hlimit : sizelimit < 2 ^ 31) : bound sizelimit < 2 ^ 31 := by
  unfold bound
  split
  · exact hlimit
  · decide

/-- **A line within the limit** is flushed and counted. -/
theorem writeLine_single (hlimit : -2 ^ 31 ≤ sizelimit ∧ sizelimit < 2 ^ 31)
    (hline : line.length < 2 ^ 63) (h : (bytes.length + line.length : ℤ) ≤ bound sizelimit) :
    (single filename sizelimit bytes).writeLine line
      = single filename sizelimit (bytes ++ line) := by
  have hbound := bound_lt hlimit.2
  have hstay : ¬ ((single filename sizelimit bytes).fwrite 0 line).overLimit line := by
    rw [overLimit_iff hlimit (by omega) hline]
    rintro ⟨hpos, hover⟩
    rw [bound, if_pos hpos] at h
    omega
  have hsize : Int.bmod ((bytes.length : ℤ) + line.length) (2 ^ 32) = (bytes ++ line).length := by
    rw [List.length_append, Nat.cast_add]
    exact Int.bmod_eq_of_le (by omega) (by omega)
  rw [writeLine_eq rfl, if_neg hstay, stayed_eq, hsize]
  rfl

theorem losesNothing_single (filename : Bytes) (sizelimit : ℤ) (lines : List Bytes) :
    LosesNothing filename lines (single filename sizelimit lines.flatten) where
  names := by
    show [insertMark filename (str "0_")] = [insertMark filename (decimal 0 ++ str "_")]
    rw [show decimal 0 ++ str "_" = str "0_" by decide +kernel]
  flushed := List.append_nil _
  size := ⟨0, _, rfl, rfl, rfl⟩

/-- **The first line over the limit is lost**, or the size is no longer that of
the file. -/
theorem not_losesNothing_of_over (hlimit : -2 ^ 31 ≤ sizelimit ∧ sizelimit < 2 ^ 31)
    (hline : line.length < 2 ^ 63) {lines : List Bytes}
    (hbytes : (lines.flatten.length : ℤ) ≤ bound sizelimit)
    (hover : bound sizelimit < (lines.flatten.length + line.length : ℤ)) :
    ¬ LosesNothing filename (lines ++ [line])
      ((single filename sizelimit lines.flatten).writeLine line) := by
  have hbound := bound_lt hlimit.2
  have hiff : ((single filename sizelimit lines.flatten).fwrite 0 line).overLimit line ↔ _ :=
    overLimit_iff hlimit (show (lines.flatten.length : ℤ) < 2 ^ 31 by omega) hline
  rw [writeLine_eq rfl]
  intro hnothing
  by_cases hpos : 0 ≤ sizelimit
  · -- the line is in the buffer of the first file, and the second is flushed
    rw [bound, if_pos hpos] at hbytes hover
    rw [if_pos (hiff.mpr ⟨hpos, hover⟩)] at hnothing
    have hflushed : lines.flatten ++ ([] ++ []) = (lines ++ [line]).flatten := hnothing.flushed
    have hlength := congrArg List.length hflushed
    simp only [List.append_nil, List.flatten_append, List.length_append, List.flatten_singleton]
      at hlength
    omega
  · -- the size is no `int`
    rw [if_neg (fun hrot => hpos (hiff.mp hrot).1)] at hnothing
    rw [bound, if_neg hpos] at hover
    rw [stayed_eq] at hnothing
    obtain ⟨i, f, hi, hf, hsize⟩ := hnothing.size
    obtain rfl : 0 = i := Option.some_inj.mp hi
    obtain rfl := Option.some_inj.mp hf
    have hint : Int.bmod ((lines.flatten.length : ℤ) + line.length) (2 ^ 32)
        < ((2 ^ 32 : ℕ) + 1) / 2 := Int.bmod_lt (by decide)
    simp only [Stream.size, List.length_append, List.length_nil] at hsize
    omega

/-- From a point on where nothing has been lost. -/
theorem losesNothing_from (hlimit : -2 ^ 31 ≤ sizelimit ∧ sizelimit < 2 ^ 31)
    (lines rest : List Bytes) (hrest : ∀ line ∈ rest, line.length < 2 ^ 63)
    (hbytes : (lines.flatten.length : ℤ) ≤ bound sizelimit) :
    (∀ p, p <+: rest → LosesNothing filename (lines ++ p)
        (p.foldl writeLine (single filename sizelimit lines.flatten)))
      ↔ ((lines ++ rest).flatten.length : ℤ) ≤ bound sizelimit := by
  induction rest generalizing lines with
  | nil =>
    refine iff_of_true (fun p hp => ?_) (by rwa [List.append_nil])
    obtain rfl := List.prefix_nil.mp hp
    rw [List.append_nil]
    exact losesNothing_single filename sizelimit lines
  | cons line rest ih =>
    have hline := hrest line List.mem_cons_self
    have hsplit : lines ++ line :: rest = (lines ++ [line]) ++ rest := by
      rw [List.append_assoc]
      rfl
    rcases lt_or_ge (bound sizelimit) (lines.flatten.length + line.length) with hover | hstay
    · refine iff_of_false (fun hall => ?_) (fun hle => ?_)
      · exact not_losesNothing_of_over hlimit hline hbytes hover
          (hall [line] (List.prefix_append [line] rest))
      · simp only [List.flatten_append, List.flatten_cons, List.length_append] at hle
        omega
    · have hnext : ((lines ++ [line]).flatten.length : ℤ) ≤ bound sizelimit := by
        simp only [List.flatten_append, List.flatten_singleton, List.length_append]
        omega
      have hstep : (single filename sizelimit lines.flatten).writeLine line
          = single filename sizelimit (lines ++ [line]).flatten := by
        rw [writeLine_single hlimit hline hstay, List.flatten_append, List.flatten_singleton]
      rw [hsplit, ← ih (lines ++ [line]) (fun l hl => hrest l (List.mem_cons_of_mem line hl)) hnext,
        ← hstep]
      constructor
      · intro hall p hp
        have hline' := hall (line :: p) (List.cons_prefix_cons.mpr ⟨rfl, hp⟩)
        rwa [List.append_assoc]
      · intro hall p hp
        cases p with
        | nil =>
          rw [List.append_nil]
          exact losesNothing_single filename sizelimit lines
        | cons line' p =>
          obtain ⟨rfl, htail⟩ := List.cons_prefix_cons.mp hp
          have hrest' := hall p htail
          rwa [List.append_assoc] at hrest'

end

/-- **When nothing is lost**: after every call exactly if the lines together are
within the limit, or below `2 ^ 31` if it is negative. -/
theorem losesNothing_iff (filename : Bytes) {sizelimit : ℤ} {lines : List Bytes}
    (hlimit : -2 ^ 31 ≤ sizelimit ∧ sizelimit < 2 ^ 31)
    (hlines : ∀ line ∈ lines, line.length < 2 ^ 63) :
    (∀ p, p <+: lines → LosesNothing filename p (afterLines filename sizelimit p))
      ↔ (lines.flatten.length : ℤ) ≤ if 0 ≤ sizelimit then sizelimit else 2 ^ 31 - 1 := by
  have hempty : (([] : List Bytes).flatten.length : ℤ) ≤ bound sizelimit := by
    unfold bound
    split
    · assumption
    · decide
  exact losesNothing_from hlimit [] lines hlines hempty

/-- Two lines within the limit. -/
theorem losesNothing_iff_two_lines :
    (∀ p, p <+: [str "a\n", str "b\n"] →
        LosesNothing (str "log/my.log") p (afterLines (str "log/my.log") 10 p))
      ↔ ([str "a\n", str "b\n"].flatten.length : ℤ)
        ≤ if (0 : ℤ) ≤ 10 then (10 : ℤ) else 2 ^ 31 - 1 :=
  losesNothing_iff (str "log/my.log") (by decide) (by decide +kernel)

/-- A line of two bytes, and one: the second line stays in the buffer. -/
theorem not_losesNothing_second_line :
    ¬ ∀ p, p <+: [[97, 10], [10]] →
      LosesNothing (str "my.log") p (afterLines (str "my.log") 2 p) := by
  intro hall
  have hlost := (hall [[97, 10], [10]] (List.prefix_refl _)).flushed
  exact absurd hlost (by decide)

end LogFile

end Dcs
