import Mathlib.Data.Nat.Init
import Mathlib.Data.List.Basic
import Mathlib.Algebra.Order.Ring.Int

/-!
# Writing a whole buffer

`writen` calls `write` until all of a buffer is taken. `write` may take less than
it is given: the next call then goes on behind what was taken, and is to be given
what is left.

There are two of them in the repository. The one of the library of the book,
`libWriten`, gives `nleft` to every call. The one of `rwn.c`, next to a `readn`
that does the same for `read`, gives `n` to every call. That is the same as long
as nothing is taken, so that the first call is right; a call behind a part that
was taken is handed the bytes behind the buffer, and if it takes more than is
left, `nleft` gets past zero and the loop goes on.

The kernel is what it answers to every call, for any count it may be given: that
the call fails, or how many bytes it takes, at most as many as there are.
-/

namespace Rwn

/-- A buffer of `n` bytes, and what is in memory from its first byte on. No
object is longer than `PTRDIFF_MAX`. -/
structure Buffer where
  n : ℕ
  n_lt : n < 2 ^ 63
  memory : ℕ → UInt8

/-- What the kernel answers to the calls of `write`, counted from zero: how many
of the `count` bytes it takes, or that the call fails. -/
structure Kernel where
  write : ℕ → ℕ → Option ℕ
  write_le : ∀ i count nwritten, write i count = some nwritten → nwritten ≤ count

/-- The bytes from `ptr` on. -/
def Buffer.read (b : Buffer) (ptr count : ℕ) : List UInt8 :=
  (List.range count).map (fun j => b.memory (ptr + j))

/-- The bytes of the buffer. -/
def Buffer.bytes (b : Buffer) : List UInt8 := b.read 0 b.n

/-- The variables of `writen`, and what it has done so far. -/
structure State where
  nleft : ℕ
  /-- `ptr`, counted from the first byte of the buffer. -/
  ptr : ℕ
  /-- Where the bytes are that the kernel was handed, and how many, call by
  call. -/
  calls : List (ℕ × ℕ)
  /-- What the kernel has taken. -/
  accepted : List UInt8
  /-- What `writen` has returned. -/
  result : Option ℤ

/-- `a - b` of two `size_t`. -/
def subSize (a b : ℕ) : ℕ := (a + 2 ^ 64 - b) % 2 ^ 64

/-- A `size_t` that is returned as a `ssize_t`. -/
def toSsize (a : ℕ) : ℤ := Int.bmod a (2 ^ 64)

/-- `return (n-nleft)`. -/
def State.done (s : State) (b : Buffer) : State :=
  { s with result := some (toSsize (subSize b.n s.nleft)) }

/-- A call of `write`. -/
def State.call (s : State) (count : ℕ) : State := { s with calls := s.calls ++ [(s.ptr, count)] }

/-- The body of the loop behind the call of `write`, by what the kernel has
answered. -/
def State.answered (s : State) (b : Buffer) : Option ℕ → State
  | none => if s.nleft = b.n then { s with result := some (-1) } else s.done b
  | some nwritten =>
    if nwritten = 0 then s.done b
    else
      { s with
        nleft := subSize s.nleft nwritten
        ptr := s.ptr + nwritten
        accepted := s.accepted ++ b.read s.ptr nwritten }

/-- A round of the loop, or the return behind it. `given` is the count of the
call of `write`, by `n` and `nleft`. -/
def round (given : ℕ → ℕ → ℕ) (kernel : Kernel) (b : Buffer) (s : State) : State :=
  if 0 < s.nleft then
    let count := given b.n s.nleft
    (s.call count).answered b (kernel.write s.calls.length count)
  else s.done b

/-- What is left to do is a round, until `writen` has returned. -/
def step (given : ℕ → ℕ → ℕ) (kernel : Kernel) (b : Buffer) (s : State) : State :=
  if s.result.isSome then s else round given kernel b s

/-- The state before the loop. -/
def Buffer.start (b : Buffer) : State := ⟨b.n, 0, [], [], none⟩

/-- A step of the `writen` of `rwn.c`: `write(fd, ptr, n)`. -/
def rwnStep : Kernel → Buffer → State → State := step (fun n _ => n)

/-- A step of the `writen` of the library: `write(fd, ptr, nleft)`. -/
def libStep : Kernel → Buffer → State → State := step (fun _ nleft => nleft)

/-- **`writen` of `rwn.c`**, after so many steps. -/
def writen (kernel : Kernel) (b : Buffer) (k : ℕ) : State := (rwnStep kernel b)^[k] b.start

/-- **`writen` of the library**, after so many steps. -/
def libWriten (kernel : Kernel) (b : Buffer) (k : ℕ) : State := (libStep kernel b)^[k] b.start

/-- The very first call of `write` fails. It is given all of the buffer. -/
def FirstFails (kernel : Kernel) (b : Buffer) : Prop := 0 < b.n ∧ kernel.write 0 b.n = none

instance (kernel : Kernel) (b : Buffer) : Decidable (FirstFails kernel b) :=
  inferInstanceAs (Decidable (_ ∧ _))

/-- **What `writen` is for.** No byte outside the buffer is handed to the kernel,
and what it takes are the first bytes of the buffer; `writen` returns how many
they are, or `-1` if the first call fails. -/
structure SendsExactly (kernel : Kernel) (b : Buffer) (run : ℕ → State) : Prop where
  inside : ∀ k, ∀ c ∈ (run k).calls, c.1 + c.2 ≤ b.n
  inOrder : ∀ k, (run k).accepted <+: b.bytes
  returns : ∃ k, (run k).result
    = some (if FirstFails kernel b then -1 else ((run k).accepted.length : ℤ))

/-! ## What was taken -/

theorem Buffer.length_read (b : Buffer) (ptr count : ℕ) : (b.read ptr count).length = count := by
  rw [Buffer.read, List.length_map, List.length_range]

theorem Buffer.read_append (b : Buffer) (ptr k : ℕ) :
    b.read 0 ptr ++ b.read ptr k = b.read 0 (ptr + k) := by
  unfold Buffer.read
  rw [List.range_add, List.map_append, List.map_map]
  refine congrArg (_ ++ ·) (List.map_congr_left (fun j _ => ?_))
  show b.memory (ptr + j) = b.memory (0 + (ptr + j))
  rw [Nat.zero_add]

theorem Buffer.read_isPrefix (b : Buffer) {ptr : ℕ} (h : ptr ≤ b.n) : b.read 0 ptr <+: b.bytes := by
  refine ⟨b.read ptr (b.n - ptr), ?_⟩
  rw [b.read_append, Nat.add_sub_cancel' h]
  rfl

theorem subSize_of_le {a b : ℕ} (ha : a < 2 ^ 64) (h : b ≤ a) : subSize a b = a - b := by
  unfold subSize
  rw [show a + 2 ^ 64 - b = a - b + 2 ^ 64 by omega, Nat.add_mod_right, Nat.mod_eq_of_lt (by omega)]

theorem toSsize_of_lt {a : ℕ} (h : a < 2 ^ 63) : toSsize a = a := by
  unfold toSsize
  rw [Int.bmod_eq_of_le (by omega) (by omega)]

theorem State.result_done {s : State} {b : Buffer} (h : s.ptr + s.nleft = b.n) :
    (s.done b).result = some (s.ptr : ℤ) := by
  have hn := b.n_lt
  show some (toSsize (subSize b.n s.nleft)) = _
  rw [subSize_of_le (by omega) (by omega), toSsize_of_lt (by omega)]
  congr 2
  omega

/-! ## The library's `writen`

Before each round what was taken is the beginning of the buffer, and what is left
is the rest. A round hands the kernel exactly the rest. It takes some of it, and
then there is less; or the call fails, and `writen` returns how much was taken, or
`-1` if nothing was. -/

section

variable {kernel : Kernel} {b : Buffer} {s : State}

/-- Before a round of the library's `writen`: what was taken are the first bytes,
`nleft` is the rest, and something was taken if there was a call. -/
structure Sending (kernel : Kernel) (b : Buffer) (s : State) : Prop where
  running : s.result = none
  rest : s.ptr + s.nleft = b.n
  accepted : s.accepted = b.read 0 s.ptr
  inside : ∀ c ∈ s.calls, c.1 + c.2 ≤ b.n
  first : (s.calls = [] ∧ s.ptr = 0) ∨ (0 < s.ptr ∧ ¬ FirstFails kernel b)

/-- When `writen` has returned. -/
structure Sent (kernel : Kernel) (b : Buffer) (s : State) : Prop where
  inside : ∀ c ∈ s.calls, c.1 + c.2 ≤ b.n
  inOrder : s.accepted <+: b.bytes
  result : s.result = some (if FirstFails kernel b then -1 else (s.accepted.length : ℤ))

/-! What a step does, and what the kernel's answer makes of a call. -/

theorem step_of_isSome {given : ℕ → ℕ → ℕ} (h : s.result.isSome) : step given kernel b s = s :=
  if_pos h

theorem step_of_pos {given : ℕ → ℕ → ℕ} (h : s.result = none) (hpos : 0 < s.nleft) :
    step given kernel b s = (s.call (given b.n s.nleft)).answered b
      (kernel.write s.calls.length (given b.n s.nleft)) := by
  have hrunning : ¬ s.result.isSome := by rw [h]; exact Bool.false_ne_true
  exact (if_neg hrunning).trans (if_pos hpos)

theorem step_of_zero {given : ℕ → ℕ → ℕ} (h : s.result = none) (hzero : s.nleft = 0) :
    step given kernel b s = s.done b := by
  have hrunning : ¬ s.result.isSome := by rw [h]; exact Bool.false_ne_true
  exact (if_neg hrunning).trans (if_neg (by omega))

theorem State.answered_none_of_eq (h : s.nleft = b.n) :
    s.answered b none = { s with result := some (-1) } :=
  if_pos h

theorem State.answered_none_of_ne (h : s.nleft ≠ b.n) : s.answered b none = s.done b := if_neg h

theorem State.answered_some_of_ne {nwritten : ℕ} (h : nwritten ≠ 0) :
    s.answered b (some nwritten)
      = { s with
          nleft := subSize s.nleft nwritten
          ptr := s.ptr + nwritten
          accepted := s.accepted ++ b.read s.ptr nwritten } :=
  if_neg h

/-- The answer does not change what was handed to the kernel. -/
theorem State.calls_answered (s : State) (b : Buffer) (answer : Option ℕ) :
    (s.answered b answer).calls = s.calls := by
  cases answer with
  | none =>
    by_cases h : s.nleft = b.n
    · rw [answered_none_of_eq h]
    · rw [answered_none_of_ne h]
      rfl
  | some nwritten =>
    by_cases h : nwritten = 0
    · rw [h]
      rfl
    · rw [answered_some_of_ne h]

namespace Sending

theorem start (kernel : Kernel) (b : Buffer) : Sending kernel b b.start :=
  ⟨rfl, Nat.zero_add _, rfl, nofun, Or.inl ⟨rfl, rfl⟩⟩

theorem inside_call (h : Sending kernel b s) :
    ∀ c ∈ s.calls ++ [(s.ptr, s.nleft)], c.1 + c.2 ≤ b.n := by
  intro c hc
  rcases List.mem_append.mp hc with hmem | hmem
  · exact h.inside c hmem
  · rw [List.mem_singleton.mp hmem]
    exact h.rest.le

/-- A call that does not fail: if it is the first, it is given all of the
buffer. -/
theorem not_firstFails (h : Sending kernel b s) {nwritten : ℕ}
    (hcall : kernel.write s.calls.length s.nleft = some nwritten) : ¬ FirstFails kernel b := by
  rcases h.first with ⟨hcalls, hptr⟩ | ⟨_, hnot⟩
  · rintro ⟨_, hfails⟩
    have hrest := h.rest
    rw [hptr, Nat.zero_add] at hrest
    rw [hcalls, List.length_nil, hrest, hfails] at hcall
    cases hcall
  · exact hnot

theorem accepted_isPrefix (h : Sending kernel b s) : s.accepted <+: b.bytes := by
  rw [h.accepted]
  exact b.read_isPrefix (h.rest ▸ Nat.le_add_right _ _)

theorem done (h : Sending kernel b s) (hnot : ¬ FirstFails kernel b) :
    Sent kernel b (s.done b) := by
  refine ⟨h.inside, h.accepted_isPrefix, ?_⟩
  have hlength : s.accepted.length = s.ptr := by rw [h.accepted, b.length_read]
  rw [State.result_done h.rest, if_neg hnot]
  exact congrArg (fun l : ℕ => some (l : ℤ)) hlength.symm

theorem done_call (h : Sending kernel b s) (hnot : ¬ FirstFails kernel b) :
    Sent kernel b ((s.call s.nleft).done b) :=
  ⟨h.inside_call, (h.done hnot).inOrder, (h.done hnot).result⟩

/-- A call that fails. -/
theorem answered_none (h : Sending kernel b s) (hpos : 0 < s.nleft)
    (hcall : kernel.write s.calls.length s.nleft = none) :
    Sent kernel b ((s.call s.nleft).answered b none) := by
  have hrest := h.rest
  rcases h.first with ⟨hcalls, hptr⟩ | ⟨hptr, hnot⟩
  · -- the very first
    have hall : s.nleft = b.n := by omega
    rw [hcalls, List.length_nil, hall] at hcall
    have hfails : FirstFails kernel b := ⟨by omega, hcall⟩
    rw [State.answered_none_of_eq (show (s.call s.nleft).nleft = b.n from hall)]
    exact ⟨h.inside_call, h.accepted_isPrefix, by rw [if_pos hfails]⟩
  · have hpart : s.nleft ≠ b.n := by omega
    rw [State.answered_none_of_ne (show (s.call s.nleft).nleft ≠ b.n from hpart)]
    exact h.done_call hnot

/-- A call that takes something. -/
theorem answered_some (h : Sending kernel b s) {nwritten : ℕ}
    (hcall : kernel.write s.calls.length s.nleft = some nwritten) (hsome : nwritten ≠ 0) :
    Sending kernel b ((s.call s.nleft).answered b (some nwritten))
      ∧ ((s.call s.nleft).answered b (some nwritten)).nleft < s.nleft := by
  have hrest := h.rest
  have hn := b.n_lt
  have hle := kernel.write_le _ _ _ hcall
  have hnleft : subSize s.nleft nwritten = s.nleft - nwritten := subSize_of_le (by omega) hle
  rw [State.answered_some_of_ne hsome]
  refine ⟨⟨h.running, ?_, ?_, h.inside_call, Or.inr ⟨?_, h.not_firstFails hcall⟩⟩, ?_⟩
  · show s.ptr + nwritten + subSize s.nleft nwritten = b.n
    omega
  · show s.accepted ++ b.read s.ptr nwritten = b.read 0 (s.ptr + nwritten)
    rw [h.accepted, b.read_append]
  · show 0 < s.ptr + nwritten
    omega
  · show subSize s.nleft nwritten < s.nleft
    omega

end Sending

/-- **A round of the library's `writen`** returns, or takes something and goes
on. -/
theorem Sending.step (h : Sending kernel b s) :
    Sent kernel b (libStep kernel b s)
      ∨ (Sending kernel b (libStep kernel b s) ∧ (libStep kernel b s).nleft < s.nleft) := by
  have hrest := h.rest
  unfold libStep
  rcases Nat.eq_zero_or_pos s.nleft with hzero | hpos
  · rw [step_of_zero h.running hzero]
    refine Or.inl (h.done ?_)
    rcases h.first with ⟨_, hptr⟩ | ⟨_, hnot⟩
    · rintro ⟨hpos, _⟩
      omega
    · exact hnot
  · rw [step_of_pos h.running hpos]
    rcases hcall : kernel.write s.calls.length s.nleft with _ | nwritten
    · exact Or.inl (h.answered_none hpos hcall)
    · by_cases hsome : nwritten = 0
      · subst hsome
        exact Or.inl (h.done_call (h.not_firstFails hcall))
      · exact Or.inr (h.answered_some hcall hsome)

/-- The library's `writen` from a round on. -/
theorem Sending.iterate (h : Sending kernel b s) :
    (∀ k, Sending kernel b ((libStep kernel b)^[k] s) ∨ Sent kernel b ((libStep kernel b)^[k] s))
      ∧ ∃ k, Sent kernel b ((libStep kernel b)^[k] s) := by
  induction hleft : s.nleft using Nat.strong_induction_on generalizing s with
  | _ nleft ih =>
    rcases h.step with hsent | ⟨hsending, hless⟩
    · have hstays : ∀ k, (libStep kernel b)^[k] (libStep kernel b s) = libStep kernel b s :=
        fun k => Function.iterate_fixed (step_of_isSome (by rw [hsent.result]; rfl)) k
      refine ⟨fun k => ?_, 1, hsent⟩
      cases k with
      | zero => exact Or.inl h
      | succ k =>
        rw [Function.iterate_succ_apply, hstays]
        exact Or.inr hsent
    · obtain ⟨hall, k, hk⟩ := ih _ (hleft ▸ hless) hsending rfl
      refine ⟨fun k => ?_, k + 1, hk⟩
      cases k with
      | zero => exact Or.inl h
      | succ k => exact hall k

/-- **The library's `writen` sends exactly the requested bytes**, whatever the
kernel answers. -/
theorem libWriten_sendsExactly (kernel : Kernel) (b : Buffer) :
    SendsExactly kernel b (libWriten kernel b) := by
  obtain ⟨hall, k, hk⟩ := (Sending.start kernel b).iterate
  refine ⟨fun k => ?_, fun k => ?_, k, hk.result⟩
  · rcases hall k with hsending | hsent
    · exact hsending.inside
    · exact hsent.inside
  · rcases hall k with hsending | hsent
    · exact hsending.accepted_isPrefix
    · exact hsent.inOrder

end

/-! ## `writen` of `rwn.c`

The two differ in the third argument of `write`. As long as nothing was taken the
arguments are the same. If all is taken at once, there is no second call. So a
difference can come only from a first call that takes a part: then the second one
is handed as many bytes as the whole buffer has, from a place in the middle of it,
and so goes past its end, whatever the kernel makes of it. -/

section

variable {kernel : Kernel} {b : Buffer}

/-- The first call of `write` takes all it is given, or nothing, or fails. -/
def FirstDecides (kernel : Kernel) (b : Buffer) : Prop :=
  ∀ nwritten, kernel.write 0 b.n = some nwritten → nwritten = 0 ∨ nwritten = b.n

theorem rwnStep_eq_libStep {s : State} (h : s.nleft = b.n ∨ s.nleft = 0 ∨ s.result.isSome) :
    rwnStep kernel b s = libStep kernel b s := by
  unfold rwnStep libStep
  rcases h with hall | hnone | hreturned
  · unfold step round
    rw [hall]
  · unfold step round
    rw [if_neg (show ¬ 0 < s.nleft by omega), if_neg (show ¬ 0 < s.nleft by omega)]
  · rw [step_of_isSome hreturned, step_of_isSome hreturned]

theorem rwnStep_start (kernel : Kernel) (hpos : 0 < b.n) : rwnStep kernel b b.start
    = (b.start.call b.n).answered b (kernel.write 0 b.n) :=
  step_of_pos rfl hpos

/-- A first call that decides leaves nothing, or is the last. -/
theorem FirstDecides.rwnStep_start (h : FirstDecides kernel b) :
    (rwnStep kernel b b.start).nleft = 0 ∨ (rwnStep kernel b b.start).result.isSome := by
  rcases Nat.eq_zero_or_pos b.n with hzero | hpos
  · unfold rwnStep
    rw [step_of_zero rfl hzero]
    exact Or.inr rfl
  · rw [Rwn.rwnStep_start kernel hpos]
    rcases hcall : kernel.write 0 b.n with _ | nwritten
    · rw [State.answered_none_of_eq rfl]
      exact Or.inr rfl
    · by_cases hsome : nwritten = 0
      · subst hsome
        exact Or.inr rfl
      · have hn := b.n_lt
        have hall := (h nwritten hcall).resolve_left hsome
        rw [State.answered_some_of_ne hsome, hall]
        left
        show subSize b.n b.n = 0
        rw [subSize_of_le (by omega) (Nat.le_refl _), Nat.sub_self]

/-- **A first call that decides** leaves nothing to do but to return. -/
theorem FirstDecides.writen (h : FirstDecides kernel b) (k : ℕ) :
    writen kernel b k = b.start ∨ (writen kernel b k).nleft = 0
      ∨ (writen kernel b k).result.isSome := by
  induction k with
  | zero => exact Or.inl rfl
  | succ k ih =>
    have hsucc : Rwn.writen kernel b (k + 1) = rwnStep kernel b (Rwn.writen kernel b k) :=
      Function.iterate_succ_apply' _ _ _
    right
    rw [hsucc]
    rcases ih with hstart | hleft
    · rw [hstart]
      exact h.rwnStep_start
    · right
      rcases hresult : (Rwn.writen kernel b k).result with _ | r
      · have hzero := hleft.resolve_right (by rw [hresult]; exact Bool.false_ne_true)
        unfold rwnStep
        rw [step_of_zero hresult hzero]
        rfl
      · unfold rwnStep
        rw [step_of_isSome (by rw [hresult]; rfl), hresult]
        rfl

/-- The two `writen` do the same where the first call decides. -/
theorem writen_eq_libWriten (h : FirstDecides kernel b) : writen kernel b = libWriten kernel b := by
  funext k
  induction k with
  | zero => rfl
  | succ k ih =>
    have hstate := h.writen k
    unfold writen libWriten at *
    rw [Function.iterate_succ_apply', Function.iterate_succ_apply', ← ih]
    refine rwnStep_eq_libStep ?_
    rcases hstate with hstart | hrest
    · rw [hstart]
      exact Or.inl rfl
    · exact Or.inr hrest

/-- **A part that is taken** by the first call makes the second one hand the
kernel as many bytes behind the buffer. -/
theorem calls_writen_two {nwritten : ℕ} (hcall : kernel.write 0 b.n = some nwritten)
    (hpos : 0 < nwritten) (hlt : nwritten < b.n) :
    (writen kernel b 2).calls = [(0, b.n), (nwritten, b.n)] := by
  have hn := b.n_lt
  obtain ⟨s, hs⟩ : ∃ s, s = rwnStep kernel b b.start := ⟨_, rfl⟩
  have hfirst : s = ⟨b.n - nwritten, nwritten, [(0, b.n)], b.read 0 nwritten, none⟩ := by
    rw [hs, rwnStep_start kernel (by omega), hcall, State.answered_some_of_ne (by omega)]
    show State.mk (subSize b.n nwritten) (0 + nwritten) _ _ _ = _
    rw [subSize_of_le (by omega) hlt.le, Nat.zero_add]
    rfl
  have hsecond : writen kernel b 2 = (s.call b.n).answered b (kernel.write 1 b.n) := by
    show rwnStep kernel b (rwnStep kernel b b.start) = _
    rw [← hs]
    unfold rwnStep
    rw [step_of_pos (by rw [hfirst]) (by rw [hfirst]; show 0 < b.n - nwritten; omega), hfirst]
    rfl
  rw [hsecond, State.calls_answered, hfirst]
  rfl

/-- **`writen` of `rwn.c` sends exactly the requested bytes** if and only if the
first call of `write` does not take a part of them. -/
theorem writen_sendsExactly_iff (kernel : Kernel) (b : Buffer) :
    SendsExactly kernel b (writen kernel b) ↔ FirstDecides kernel b := by
  constructor
  · intro h nwritten hcall
    by_contra hpart
    have hle := kernel.write_le _ _ _ hcall
    have hcalls := calls_writen_two hcall (by omega) (by omega)
    have hinside := h.inside 2 (nwritten, b.n) (by rw [hcalls]; simp)
    exact hpart (Or.inl (by omega))
  · intro h
    rw [writen_eq_libWriten h]
    exact libWriten_sendsExactly kernel b

/-- A kernel that takes one byte of the first call, and all of the others. -/
def oneByteFirst : Kernel where
  write := fun i count => some (if i = 0 then min 1 count else count)
  write_le := by
    intro i count nwritten h
    obtain rfl := Option.some_inj.mp h
    split
    · exact Nat.min_le_right 1 count
    · exact Nat.le_refl count

/-- Two bytes, of which the first call takes one: the second call is handed two
from the second on, and takes them. -/
theorem writen_past_the_buffer :
    (writen oneByteFirst ⟨2, by decide, fun k => k.toUInt8⟩ 2).calls = [(0, 2), (1, 2)]
      ∧ (writen oneByteFirst ⟨2, by decide, fun k => k.toUInt8⟩ 2).accepted = [0, 1, 2]
      ∧ ¬ SendsExactly oneByteFirst ⟨2, by decide, fun k => k.toUInt8⟩
        (writen oneByteFirst ⟨2, by decide, fun k => k.toUInt8⟩) := by
  refine ⟨by decide, by decide, fun h => ?_⟩
  exact absurd (h.inside 2 (1, 2) (by decide)) (by decide)

end

end Rwn
