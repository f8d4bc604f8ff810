import LinuxStudy.Bytes

/-!
# Reading from and writing to a socket

What the kernel gives a program that reads a stream socket: bytes, cut and
merged as it sees fit, or an error. A list of such results is everything a
run of reads can show, and the bytes in it are the stream. What it gives a
program that writes is how many of the bytes it was given it took, or an
error.
-/

namespace Socket

/-- What `errno` may be. -/
inductive Errno
  /-- The call was interrupted. -/
  | eintr
  /-- The call would block. -/
  | eagain
  /-- Anything else. -/
  | other (code : ℕ)
  deriving DecidableEq

/-- What one `read` returns: bytes, none at the end of the file, or `-1` with
an error. -/
inductive ReadResult
  | data (bytes : Bytes)
  | error (errno : Errno)

namespace ReadResult

/-- The bytes of a result. -/
def bytes : ReadResult → Bytes
  | .data bytes => bytes
  | .error _ => []

/-- A result that does not end a sequence of reads: some bytes, or an
interruption. -/
def Goes : ReadResult → Prop
  | .data bytes => bytes ≠ []
  | .error errno => errno = Errno.eintr

instance (r : ReadResult) : Decidable r.Goes :=
  match r with
  | .data bytes => inferInstanceAs (Decidable (bytes ≠ []))
  | .error errno => inferInstanceAs (Decidable (errno = Errno.eintr))

end ReadResult

/-- What one `write` does: it takes so many of the bytes it is given, or all
of them if there are fewer, or it fails. -/
inductive WriteResult
  | accepts (n : ℕ)
  | error (errno : Errno)
  deriving DecidableEq

/-- The bytes of a sequence of reads. -/
def drained (reads : List ReadResult) : Bytes := reads.flatMap ReadResult.bytes

end Socket
