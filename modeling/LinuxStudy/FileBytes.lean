import LinuxStudy.Bytes

/-!
# Bytes of a file

A file is its bytes, and a program that keeps records in it reads and writes so
many bytes at an offset. What it relies on is that a record stands where it was
written (`Has`) until something is written over it: a write that is elsewhere
leaves it alone (`Has.pwrite`), and an append leaves all there is.

A number in a record is right-aligned in a field of fixed width, as `printf` does
it for `%*d`, so that another number fits in its place.
-/

namespace FileBytes

/-- `pread`: the bytes that are there. -/
def pread (f : Bytes) (off n : ℕ) : Bytes := (f.drop off).take n

/-- `pwrite`. What is skipped behind the end is filled with zeros. -/
def pwrite (f : Bytes) (off : ℕ) (b : Bytes) : Bytes :=
  f.take off ++ List.replicate (off - f.length) nul ++ b ++ f.drop (off + b.length)

/-! ## What stands at an offset

Two facts carry everything that is read back: what was written stands where it was
written, and what stands elsewhere goes on standing there. Elsewhere means before
the first byte that is written or behind the last. An append writes behind
everything. -/

/-- **These bytes stand at an offset.** -/
def Has (f : Bytes) (off : ℕ) (b : Bytes) : Prop := b <+: f.drop off ∧ off ≤ f.length

variable {f a b : Bytes} {off off' n m w : ℕ}

theorem has_length (h : Has f off b) : off + b.length ≤ f.length := by
  have hlength := h.1.length_le
  rw [List.length_drop] at hlength
  have hoff := h.2
  omega

/-- **What stands there is read.** -/
theorem Has.pread_eq (h : Has f off b) : pread f off b.length = b :=
  (List.prefix_iff_eq_take.mp h.1).symm

theorem has_append : Has f off (a ++ b) ↔ Has f off a ∧ Has f (off + a.length) b := by
  constructor
  · intro h
    have hlength := has_length h
    rw [List.length_append] at hlength
    obtain ⟨⟨t, ht⟩, hoff⟩ := h
    refine ⟨⟨⟨b ++ t, by rw [← ht, List.append_assoc]⟩, hoff⟩, ⟨t, ?_⟩, by omega⟩
    rw [← List.drop_drop, ← ht, List.append_assoc, List.drop_left]
  · rintro ⟨⟨⟨t, ht⟩, hoff⟩, ⟨u, hu⟩, -⟩
    rw [← List.drop_drop, ← ht, List.drop_left] at hu
    exact ⟨⟨u, by rw [← ht, ← hu, List.append_assoc]⟩, hoff⟩

theorem pwrite_of_le (h : off ≤ f.length) :
    pwrite f off b = f.take off ++ (b ++ f.drop (off + b.length)) := by
  unfold pwrite
  rw [Nat.sub_eq_zero_of_le h, List.replicate_zero, List.append_nil, List.append_assoc]

theorem length_pwrite (h : off + b.length ≤ f.length) : (pwrite f off b).length = f.length := by
  rw [pwrite_of_le (by omega), List.length_append, List.length_append, List.length_take,
    List.length_drop]
  omega

theorem pwrite_end (f b : Bytes) : pwrite f f.length b = f ++ b := by
  rw [pwrite_of_le (Nat.le_refl _), List.take_length, List.drop_eq_nil_of_le (Nat.le_add_right _ _),
    List.append_nil]

/-- **What was written stands there.** -/
theorem has_pwrite_self (h : off ≤ f.length) : Has (pwrite f off b) off b := by
  have htake : (f.take off).length = off := List.length_take_of_le h
  rw [pwrite_of_le h]
  refine ⟨⟨f.drop (off + b.length), ?_⟩, ?_⟩
  · rw [List.drop_append, List.drop_of_length_le (Nat.le_of_eq htake), htake, Nat.sub_self]
    rfl
  · rw [List.length_append, htake]
    exact Nat.le_add_right _ _

/-- **A write elsewhere leaves it.** -/
theorem Has.pwrite (h : Has f off b) (hoff : off' ≤ f.length)
    (haway : off + b.length ≤ off' ∨ off' + a.length ≤ off) : Has (pwrite f off' a) off b := by
  have hlength := has_length h
  have htake : (f.take off').length = off' := List.length_take_of_le hoff
  obtain ⟨⟨t, ht⟩, hle⟩ := h
  rw [pwrite_of_le hoff]
  rcases haway with hbefore | hbehind
  · refine ⟨⟨((f.drop off).take (off' - off)).drop b.length ++ (a ++ f.drop (off' + a.length)), ?_⟩,
      ?_⟩
    · rw [List.drop_append, htake, show off - off' = 0 by omega, List.drop_zero, List.drop_take,
        ← List.append_assoc]
      congr 1
      rw [← ht, List.drop_left, List.drop_take, ← ht, List.take_append,
        List.take_of_length_le (show b.length ≤ off' - off by omega), Nat.sub_sub]
    · rw [List.length_append, htake]
      omega
  · refine ⟨⟨t, ?_⟩, ?_⟩
    · rw [List.drop_append, List.drop_of_length_le (by omega), htake, List.nil_append,
        List.drop_append, List.drop_of_length_le (by omega), List.nil_append, List.drop_drop, ht]
      congr 1
      omega
    · rw [List.length_append, List.length_append, htake, List.length_drop]
      omega

/-- **An append leaves everything.** -/
theorem Has.append (h : Has f off b) (a : Bytes) : Has (f ++ a) off b := by
  obtain ⟨⟨t, ht⟩, hoff⟩ := h
  refine ⟨⟨t ++ a, ?_⟩, by rw [List.length_append]; omega⟩
  rw [List.drop_append_of_le_length hoff, ← ht, List.append_assoc]

theorem has_append_self (f a : Bytes) : Has (f ++ a) f.length a :=
  ⟨⟨[], by rw [List.append_nil, List.drop_left]⟩,
    by rw [List.length_append]; exact Nat.le_add_right _ _⟩

/-! ## Numbers in fields

A number is printed with blanks before it to a fixed number of characters, or to
more if it has more digits. Read by `atoi`, the blanks are skipped. -/

abbrev blank : UInt8 := 32

/-- `%*d`. -/
def field (w n : ℕ) : Bytes := List.replicate (w - (decimal n).length) blank ++ decimal n

theorem length_field (hw : 0 < w) (hn : n < 10 ^ w) : (field w n).length = w := by
  have hle := (length_decimal_le_iff hw).mpr hn
  unfold field
  rw [List.length_append, List.length_replicate]
  omega

/-- **A number is read back from its field.** -/
theorem atoi_field (w n : ℕ) : atoi (field w n) = n := by
  have hblanks : ∀ k, (List.replicate k blank ++ decimal n).dropWhile isSpace
      = (decimal n).dropWhile isSpace := by
    intro k
    induction k with
    | zero => rfl
    | succ k ih =>
      rw [List.replicate_succ, List.cons_append, List.dropWhile_cons_of_pos (by decide), ih]
  rw [← atoi_decimal n]
  unfold field atoi
  rw [hblanks]

end FileBytes
