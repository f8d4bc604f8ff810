import LinuxStudy.UnblockRead

/-!
# Where a call of `unblock_read_net` ends and where it writes

The `do` loop goes on while `n>0 || errno==EINTR`. The test of `errno` is made
after a `read` that did not fail as well, and such a read leaves `errno` as it
was: so the end of the file ends the loop only if the last `read` that failed
did so for another reason than `EINTR`. Which of the results to come a call
takes is `callReads`, and `returns_iff` says for which sequences of results a
call returns.

The text is collected in a string, over any number of reads, and copied back
into the buffer at the end, with a terminator. Each `read` keeps to the size of
the buffer, and the copy does not: it writes one cell more than the text is
long (`writes_lt_iff`).

The copies of the function in the cache server, in both masters and in the
small cache server have one text.
-/

namespace Dcs

open Socket

namespace UnblockRead

/-! ## Where the loop ends

`errno` is set by a read that fails and by no other. A read that returns zero, at
the end of the stream, leaves it. So if the last error before was an interruption,
the loop goes on although nothing is left to read, and the next read returns zero
again. A call that has no such error before the end of the stream returns. -/

/-- `errno` after a `read`. -/
def errnoAfter (errno : Errno) : ReadResult → Errno
  | .data _ => errno
  | .error errno' => errno'

/-- The loop ends with this read: it gives nothing, and `errno` is not
`EINTR`. -/
def Ends (errno : Errno) (r : ReadResult) : Prop :=
  r.bytes = [] ∧ errnoAfter errno r ≠ Errno.eintr

instance (errno : Errno) (r : ReadResult) : Decidable (Ends errno r) :=
  inferInstanceAs (Decidable (_ ∧ _))

/-- **The reads of a call**, and the results it leaves: up to the first read
the loop ends with. It is undefined where no result to come is one. -/
def callReads : Errno → List ReadResult → Option (List ReadResult × List ReadResult)
  | _, [] => none
  | errno, r :: rest =>
    if Ends errno r then some ([r], rest)
    else (callReads (errnoAfter errno r) rest).map (fun c => (r :: c.1, c.2))

variable {s : UnblockRead} {d : Bytes} {errno : Errno}

/-- The scan leaves what `read` returned and `errno`. -/
theorem scan_frame (bytes : Bytes) (s : UnblockRead) :
    (scan bytes s).n = s.n ∧ (scan bytes s).errno = s.errno := by
  induction bytes generalizing s with
  | nil => exact ⟨rfl, rfl⟩
  | cons b bytes ih =>
    unfold scan
    split
    · exact ⟨rfl, rfl⟩
    · split
      · exact ih _
      · exact ih _

/-- A turn sets `n` and `errno` as its `read` does. -/
theorem turn_frame (s : UnblockRead) (r : ReadResult) :
    (s.turn r).n = (s.read r).n ∧ (s.turn r).errno = errnoAfter s.errno r := by
  have hread : (s.read r).errno = errnoAfter s.errno r := by
    cases r <;> rfl
  unfold turn
  dsimp only
  rw [← hread]
  split
  · exact scan_frame _ _
  · exact ⟨rfl, rfl⟩

theorem read_n_pos_iff (s : UnblockRead) (r : ReadResult) :
    (s.read r).n > 0 ↔ r.bytes ≠ [] := by
  cases r with
  | error errno => exact iff_of_false (show ¬ (-1 : ℤ) > 0 by decide) (fun h => h rfl)
  | data bytes =>
    show ((bytes.length : ℕ) : ℤ) > 0 ↔ bytes ≠ []
    rw [← List.length_pos_iff]
    exact Int.natCast_pos

/-- **Whatever was read**, a turn collects what it should. -/
theorem After.turn_append (h : s.After d) (r : ReadResult) :
    (s.turn r).After (d ++ r.bytes) := by
  by_cases hr : r.bytes = []
  · have hturn : s.turn r = s.read r := if_neg (fun hn => (s.read_n_pos_iff r).mp hn.1 hr)
    rw [hturn, hr, List.append_nil]
    cases r with
    | error errno => exact ⟨h.flag, h.res, h.rtn⟩
    | data bytes => exact ⟨h.flag, h.res, h.rtn⟩
  · cases r with
    | error errno => exact absurd rfl hr
    | data bytes =>
      have hgoes : ReadResult.Goes (.data bytes) := hr
      exact (h.turn hgoes).1

/-- **The test of the loop.** -/
theorem goes_on_iff (s : UnblockRead) (r : ReadResult) :
    ((s.turn r).n > 0 ∨ (s.turn r).errno = Errno.eintr) ↔ ¬ Ends s.errno r := by
  unfold Ends
  rw [(s.turn_frame r).1, (s.turn_frame r).2, read_n_pos_iff, not_and_or, not_not]

/-- **What the loop leaves**: it ends exactly where a call should, and has
collected what stands before the first terminator of what it has read. -/
theorem After.loop_rel (h : s.After d) (script : List ReadResult) :
    Option.Rel (fun p c => p.2 = c.2 ∧ p.1.After (d ++ drained c.1))
      (UnblockRead.loop script s) (callReads s.errno script) := by
  induction script generalizing s d with
  | nil => exact Option.Rel.none
  | cons r rest ih =>
    have hturn := h.turn_append r
    unfold UnblockRead.loop callReads
    dsimp only
    by_cases hends : Ends s.errno r
    · rw [if_neg (fun hgo => (s.goes_on_iff r).mp hgo hends), if_pos hends]
      refine Option.Rel.some ⟨rfl, ?_⟩
      show (s.turn r).After (d ++ (r.bytes ++ []))
      rwa [List.append_nil]
    · rw [if_pos ((s.goes_on_iff r).mpr hends), if_neg hends]
      have hrest := ih hturn
      rw [(s.turn_frame r).2] at hrest
      generalize UnblockRead.loop rest (s.turn r) = p at hrest ⊢
      generalize callReads (errnoAfter s.errno r) rest = c at hrest ⊢
      cases hrest with
      | none => exact Option.Rel.none
      | some hp =>
        refine Option.Rel.some ⟨hp.1, ?_⟩
        show After (d ++ (r.bytes ++ _)) _
        rw [← List.append_assoc]
        exact hp.2

/-- A call ends with one of the results if one of them ends it, with `errno` as
those before it leave it. -/
theorem callReads_isSome_iff (errno : Errno) (script : List ReadResult) :
    (callReads errno script).isSome
      ↔ ∃ (k : ℕ) (r : ReadResult), script[k]? = some r
        ∧ Ends ((script.take k).foldl errnoAfter errno) r := by
  induction script generalizing errno with
  | nil => simp [callReads]
  | cons r rest ih =>
    unfold callReads
    split
    · next hends => exact iff_of_true rfl ⟨0, r, rfl, hends⟩
    · next hends =>
      rw [Option.isSome_map, ih]
      constructor
      · rintro ⟨k, r', hget, hr'⟩
        exact ⟨k + 1, r', hget, hr'⟩
      · rintro ⟨k, r', hget, hr'⟩
        cases k with
        | zero =>
          obtain rfl : r = r' := Option.some.inj hget
          exact absurd hr' hends
        | succ k => exact ⟨k, r', hget, hr'⟩

/-- `errno` does not become `EINTR` without an interrupted read. -/
theorem foldl_errnoAfter_ne_eintr {errno : Errno} {script : List ReadResult}
    (herrno : errno ≠ Errno.eintr) (hscript : ReadResult.error Errno.eintr ∉ script) :
    script.foldl errnoAfter errno ≠ Errno.eintr := by
  induction script generalizing errno with
  | nil => exact herrno
  | cons r rest ih =>
    rw [List.mem_cons, not_or] at hscript
    obtain ⟨hr, hrest⟩ := hscript
    refine ih ?_ hrest
    cases r with
    | data bytes => exact herrno
    | error e => exact fun he => hr (congrArg _ (Eq.symm he))

/-- **How `errno` can be another than `EINTR`**: by another error, or if it was
and no read was interrupted. -/
theorem of_foldl_errnoAfter_ne_eintr {errno : Errno} {script : List ReadResult}
    (h : script.foldl errnoAfter errno ≠ Errno.eintr) :
    (∃ e, e ≠ Errno.eintr ∧ ReadResult.error e ∈ script)
      ∨ (errno ≠ Errno.eintr ∧ ReadResult.error Errno.eintr ∉ script) := by
  induction script generalizing errno with
  | nil => exact Or.inr ⟨h, List.not_mem_nil⟩
  | cons r rest ih =>
    rcases ih h with ⟨e, he, hmem⟩ | ⟨hafter, hrest⟩
    · exact Or.inl ⟨e, he, List.mem_cons_of_mem _ hmem⟩
    · cases r with
      | data bytes => exact Or.inr ⟨hafter, by simpa using hrest⟩
      | error e => exact Or.inl ⟨e, hafter, List.mem_cons_self⟩

end UnblockRead

open UnblockRead

/-- **A call returns**, with a sequence of results of `read` to come: so many of
them are enough. -/
def Returns (buf : Cells) (errno : Errno) (reads : ℕ → ReadResult) : Prop :=
  ∃ n, (unblockReadNet buf errno ((List.range n).map reads)).isSome

/-- A call of the function returns exactly if one of the results ends the
loop. -/
theorem unblockReadNet_isSome_iff (buf : Cells) (errno : Errno) (script : List ReadResult) :
    (unblockReadNet buf errno script).isSome ↔ (callReads errno script).isSome := by
  have hstart : After [] ⟨buf, errno, 0, false, [], 0⟩ := ⟨rfl, rfl, rfl⟩
  have hrel := hstart.loop_rel script
  unfold unblockReadNet
  rw [Option.isSome_map]
  generalize callReads errno script = c at hrel ⊢
  generalize UnblockRead.loop script _ = p at hrel ⊢
  cases hrel with
  | none => exact Iff.rfl
  | some hp => exact iff_of_true rfl rfl

/-- A call returns exactly if one of the results ends the loop, with `errno` as
those before it leave it. -/
theorem returns_iff_ends (buf : Cells) (errno : Errno) (reads : ℕ → ReadResult) :
    Returns buf errno reads
      ↔ ∃ k, Ends (((List.range k).map reads).foldl errnoAfter errno) (reads k) := by
  have hget : ∀ {n k : ℕ}, k < n → ((List.range n).map reads)[k]? = some (reads k) := by
    intro n k hk
    rw [List.getElem?_map, List.getElem?_range hk, Option.map_some]
  have htake : ∀ {n k : ℕ}, k < n →
      ((List.range n).map reads).take k = (List.range k).map reads := by
    intro n k hk
    rw [← List.map_take, List.take_range, Nat.min_eq_left (Nat.le_of_lt hk)]
  constructor
  · rintro ⟨n, hn⟩
    rw [unblockReadNet_isSome_iff, callReads_isSome_iff] at hn
    obtain ⟨k, r, hr, hends⟩ := hn
    have hk : k < n := by
      have hlt := (List.getElem?_eq_some_iff.mp hr).1
      rwa [List.length_map, List.length_range] at hlt
    rw [hget hk, Option.some_inj] at hr
    rw [htake hk, ← hr] at hends
    exact ⟨k, hends⟩
  · rintro ⟨k, hends⟩
    refine ⟨k + 1, ?_⟩
    rw [unblockReadNet_isSome_iff, callReads_isSome_iff]
    exact ⟨k, reads k, hget (Nat.lt_succ_self k), by rwa [htake (Nat.lt_succ_self k)]⟩

/-- **When a call returns.** For any `errno` before it and any sequence of
results of `read`: exactly if some `read` fails for another reason than
`EINTR`, or if `errno` is not `EINTR` before the call and an end of the file
comes before every interrupted `read`. -/
theorem returns_iff (buf : Cells) (errno : Errno) (reads : ℕ → ReadResult) :
    Returns buf errno reads
      ↔ (∃ k e, reads k = .error e ∧ e ≠ Errno.eintr)
        ∨ (errno ≠ Errno.eintr
          ∧ ∃ k, reads k = .data [] ∧ ∀ j < k, reads j ≠ .error Errno.eintr) := by
  have hmem : ∀ {k : ℕ} {r : ReadResult}, r ∈ (List.range k).map reads ↔ ∃ j < k, reads j = r := by
    intro k r
    simp only [List.mem_map, List.mem_range]
  rw [returns_iff_ends]
  constructor
  · rintro ⟨k, hbytes, herrno⟩
    cases hk : reads k with
    | error e =>
      rw [hk] at herrno
      exact Or.inl ⟨k, e, hk, herrno⟩
    | data bytes =>
      rw [hk] at hbytes herrno
      obtain rfl : bytes = [] := hbytes
      rcases of_foldl_errnoAfter_ne_eintr herrno with ⟨e, he, herror⟩ | ⟨hbefore, hnone⟩
      · obtain ⟨j, -, hj⟩ := hmem.mp herror
        exact Or.inl ⟨j, e, hj, he⟩
      · exact Or.inr ⟨hbefore, k, hk, fun j hj hj' => hnone (hmem.mpr ⟨j, hj, hj'⟩)⟩
  · rintro (⟨k, e, hk, he⟩ | ⟨hbefore, k, hk, hnone⟩)
    · refine ⟨k, ?_⟩
      rw [hk]
      exact ⟨rfl, he⟩
    · refine ⟨k, ?_⟩
      rw [hk]
      refine ⟨rfl, foldl_errnoAfter_ne_eintr hbefore (fun hin => ?_)⟩
      obtain ⟨j, hj, hj'⟩ := hmem.mp hin
      exact hnone j hj hj'

/-- **The peer closes after an interrupted `read`**: the call does not
return. -/
theorem not_returns_after_eintr :
    ¬ ∀ (buf : Cells) (errno : Errno) (reads : ℕ → ReadResult),
      ((∃ m, ∀ k, m ≤ k → reads k = .data []) ∨ ∃ k e, reads k = .error e ∧ e ≠ Errno.eintr) →
      Returns buf errno reads := by
  intro h
  have hreturns := h (fun _ => 0) (Errno.other 0)
    (fun k => if k = 0 then .error Errno.eintr else .data [])
    (Or.inl ⟨1, fun k hk => if_neg (Nat.ne_of_gt hk)⟩)
  obtain ⟨k, -, herrno⟩ := (returns_iff_ends _ _ _).mp hreturns
  cases k with
  | zero => exact herrno rfl
  | succ k =>
    -- the interrupted read is the first, and all after it succeed
    rw [List.range_succ_eq_map, List.map_cons, List.foldl_cons] at herrno
    rcases of_foldl_errnoAfter_ne_eintr herrno with ⟨e, -, hmem⟩ | ⟨hne, -⟩
    · simp at hmem
    · exact hne rfl

/-! ## Where a call writes

`read` fills the buffer of the caller and is given its size, so these writes are
within it. What is collected of the message is a string of its own, and at the end
it is copied to the beginning of the buffer with a terminator behind it. Nothing
compares its length with the size. -/

namespace UnblockRead

/-- The cells of the buffer the loop and what follows it write: those `read`
fills, and those the text and the terminator are copied to. -/
def writes : List ReadResult → UnblockRead → List ℕ
  | [], _ => []
  | r :: rest, s =>
    let s := s.turn r
    List.range r.bytes.length
      ++ if s.n > 0 ∨ s.errno = Errno.eintr then writes rest s
        else if s.rtn = 0 then [] else List.range s.res.length ++ [s.res.length]

variable {s : UnblockRead} {d : Bytes} {size : ℕ}

/-- The copy stays within the buffer if the text and the terminator fit. -/
theorem After.copy_lt_iff (h : s.After d) (hsize : 1 ≤ size) :
    (∀ i ∈ (if s.rtn = 0 then [] else List.range s.res.length ++ [s.res.length]), i < size)
      ↔ (Framing.head nul d).length < size := by
  rw [h.rtn, h.res]
  split
  · next hzero => exact iff_of_true (by simp) (by omega)
  · simp only [List.mem_append, List.mem_range, List.mem_singleton]
    constructor
    · exact fun hall => hall _ (Or.inr rfl)
    · rintro hlt i (hi | rfl)
      · exact Nat.lt_trans hi hlt
      · exact hlt

/-- **The loop and the copy stay within the buffer** exactly if the text of the
call fits with its terminator. -/
theorem After.writes_lt_iff (h : s.After d) (hsize : 1 ≤ size) {script : List ReadResult}
    (hscript : ∀ r ∈ script, r.bytes.length ≤ size) :
    (∀ i ∈ writes script s, i < size)
      ↔ ∀ c rest, callReads s.errno script = some (c, rest) →
        (Framing.head nul (d ++ drained c)).length < size := by
  induction script generalizing s d with
  | nil => exact iff_of_true (by simp [writes]) (by simp [callReads])
  | cons r rest ih =>
    have hturn := h.turn_append r
    have hread : ∀ i ∈ List.range r.bytes.length, i < size := by
      intro i hi
      exact Nat.lt_of_lt_of_le (List.mem_range.mp hi) (hscript r List.mem_cons_self)
    have hrest := ih hturn (fun r' hr' => hscript r' (List.mem_cons_of_mem _ hr'))
    rw [(s.turn_frame r).2] at hrest
    unfold writes callReads
    dsimp only
    rw [List.forall_mem_append, and_iff_right hread]
    by_cases hends : Ends s.errno r
    · rw [if_neg (fun hgo => (s.goes_on_iff r).mp hgo hends), if_pos hends,
        hturn.copy_lt_iff hsize]
      have hone : drained [r] = r.bytes := List.append_nil _
      constructor
      · rintro hlt c rest' heq
        obtain ⟨rfl, rfl⟩ := Prod.mk.inj (Option.some.inj heq)
        rwa [hone]
      · intro hall
        have hlt := hall [r] rest rfl
        rwa [hone] at hlt
    · rw [if_pos ((s.goes_on_iff r).mpr hends), if_neg hends, hrest]
      have hcons : ∀ c, d ++ r.bytes ++ drained c = d ++ drained (r :: c) := by
        intro c
        rw [List.append_assoc]
        rfl
      constructor
      · rintro hall c rest' heq
        obtain ⟨⟨c', rest''⟩, hc', hpair⟩ := Option.map_eq_some_iff.mp heq
        obtain ⟨rfl, rfl⟩ := Prod.mk.inj hpair
        rw [← hcons]
        exact hall c' rest'' hc'
      · intro hall c rest' heq
        rw [hcons]
        exact hall (r :: c) rest' (by rw [heq]; rfl)

end UnblockRead

/-- The cells of the buffer a call writes. -/
def unblockReadNetWrites (buf : Cells) (errno : Errno) (script : List ReadResult) : List ℕ :=
  writes script ⟨buf, errno, 0, false, [], 0⟩

/-- **When a call stays within its buffer.** With any results of `read`, of at
most the size of the buffer each: exactly if the text it collects is shorter
than the buffer, what stands before the first terminator in all it reads until
its loop ends. -/
theorem unblockReadNetWrites_lt_iff {size : ℕ} (hsize : 1 ≤ size) (buf : Cells) (errno : Errno)
    {script : List ReadResult} (hscript : ∀ r ∈ script, r.bytes.length ≤ size) :
    (∀ i ∈ unblockReadNetWrites buf errno script, i < size)
      ↔ ∀ c rest, callReads errno script = some (c, rest) →
        (Framing.head nul (drained c)).length < size := by
  have hstart : After [] ⟨buf, errno, 0, false, [], 0⟩ := ⟨rfl, rfl, rfl⟩
  exact hstart.writes_lt_iff hsize hscript

/-- A text of three bytes in two reads, into a buffer of four: the last cell
takes the terminator. -/
theorem unblockReadNetWrites_lt_iff_two_reads :
    callReads (Errno.other 0) [.data [97, 98], .data [99], .error Errno.eagain]
        = some ([.data [97, 98], .data [99], .error Errno.eagain], [])
      ∧ 3 ∈ unblockReadNetWrites (fun _ => 0) (Errno.other 0)
        [.data [97, 98], .data [99], .error Errno.eagain]
      ∧ ∀ i ∈ unblockReadNetWrites (fun _ => 0) (Errno.other 0)
        [.data [97, 98], .data [99], .error Errno.eagain], i < 4 := by
  have hcall : callReads (Errno.other 0) [.data [97, 98], .data [99], .error Errno.eagain]
      = some ([.data [97, 98], .data [99], .error Errno.eagain], []) := rfl
  refine ⟨hcall, by decide, (unblockReadNetWrites_lt_iff (by decide) _ _ (by decide)).mpr ?_⟩
  intro c rest hc
  obtain ⟨rfl, rfl⟩ := Prod.mk.inj (Option.some.inj (hcall.symm.trans hc))
  decide

/-- **A text as long as the buffer**: its terminator is written past the end. -/
theorem not_unblockReadNetWrites_lt_exact_fit :
    ¬ ∀ (size : ℕ), 1 ≤ size → ∀ (buf : Cells) (errno : Errno) (script : List ReadResult),
      (∀ r ∈ script, r.bytes.length ≤ size) →
      ∀ i ∈ unblockReadNetWrites buf errno script, i < size := by
  intro h
  have hlt := h 4 (by decide) (fun _ => 0) (Errno.other 0)
    [.data (str "abcd"), .error Errno.eagain] (by decide +kernel) 4 (by decide +kernel)
  exact absurd hlt (by decide)

end Dcs
