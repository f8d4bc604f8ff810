import Mathlib.Data.List.Basic
import Mathlib.Data.List.TakeWhile
import Mathlib.Data.Nat.Digits.Defs

/-!
# Byte strings

A C++ string is a sequence of bytes, and every reading the programs make of
one – a search for a separator, a decimal number, a terminator – is a
reading of the bytes. `Bytes` is that sequence; `str` turns a literal into
it.

The functions of the C library the programs rely on are written here once,
for any byte string: the decimal text of a number, the last position of a
character, the cut of a string at its last separator and `atoi`.
-/

/-- A byte string. -/
abbrev Bytes := List UInt8

/-- Byte strings are compared byte by byte. -/
instance instLawfulBEqBytes : LawfulBEq Bytes := inferInstance

/-- The bytes of a literal. -/
def str (s : String) : Bytes := s.toUTF8.toList

/-- The terminator of a C string. -/
abbrev nul : UInt8 := 0

/-- `std::to_string` of a non-negative number: its decimal digits. -/
def decimal (n : ℕ) : Bytes :=
  (Nat.toDigits 10 n).map (fun c => UInt8.ofNat c.toNat)

/-- `find_last_of`: the position of the last occurrence of a byte, `none`
standing for `npos`. -/
def findLastOf (c : UInt8) : Bytes → Option ℕ
  | [] => none
  | b :: s =>
    match findLastOf c s with
    | some i => some (i + 1)
    | none => if b = c then some 0 else none

/-- The two parts of a string around the last occurrence of a separator,
as `substr(0, cut)` and `substr(cut + 1)` give them. Without a separator
`cut` is `-1` and both calls return the whole string. -/
def cutAtLast (c : UInt8) (s : Bytes) : Bytes × Bytes :=
  match findLastOf c s with
  | some cut => (s.take cut, s.drop (cut + 1))
  | none => (s, s)

/-- `isspace`. -/
def isSpace (b : UInt8) : Bool := b = 32 || (9 ≤ b && b ≤ 13)

/-- `isdigit`. -/
def isDigit (b : UInt8) : Bool := 48 ≤ b && b ≤ 57

/-- The number the leading digits of a string spell, `0` when there is
none. -/
def leadingNumber (s : Bytes) : ℕ :=
  (s.takeWhile isDigit).foldl (fun n b => 10 * n + (b.toNat - 48)) 0

/-- `atoi`: leading white space and a sign are skipped, and what follows
the digits is ignored. The value is exact; C leaves a number that does not
fit undefined. -/
def atoi (s : Bytes) : ℤ :=
  match s.dropWhile isSpace with
  | 45 :: t => -(leadingNumber t : ℤ)
  | 43 :: t => leadingNumber t
  | t => leadingNumber t

/-- What `atoi` and `stoi` read the digits from: white space and a sign are
skipped. -/
def afterSign (s : Bytes) : Bytes :=
  match s.dropWhile isSpace with
  | 45 :: t => t
  | 43 :: t => t
  | t => t

/-- `std::stoi`, undefined where it throws: there is no digit, or the number
does not fit. -/
def stoi (s : Bytes) : Option ℤ :=
  if (afterSign s).takeWhile isDigit = [] then none
  else if -2 ^ 31 ≤ atoi s ∧ atoi s < 2 ^ 31 then some (atoi s)
  else none

/-- `substr(pos, n)`, undefined where it throws: the position is past the
end. -/
def substr (s : Bytes) (pos n : ℕ) : Option Bytes :=
  if pos ≤ s.length then some ((s.drop pos).take n) else none

/-! ## Decimal texts

A decimal text is made by `std::to_string` and read by `atoi` and `stoi`. It is
made of digits, so there is nothing to skip before it and nothing to ignore behind
it, and what the digits spell is the number. The lengths are needed where a
program takes so many characters of a text: a number has at most `n` digits, for
`n` from one on, exactly if it is less than `10 ^ n`. -/

theorem toNat_of_mem_toDigits {n : ℕ} {c : Char} (h : c ∈ Nat.toDigits 10 n) :
    48 ≤ c.toNat ∧ c.toNat ≤ 57 := by
  have hdigit := Nat.isDigit_of_mem_toDigits (by decide) (by decide) h
  simpa [Char.isDigit, UInt32.le_iff_toNat_le] using hdigit

theorem isDigit_of_mem_decimal {n : ℕ} {b : UInt8} (h : b ∈ decimal n) : isDigit b = true := by
  obtain ⟨c, hc, rfl⟩ := List.mem_map.mp h
  have hbounds := toNat_of_mem_toDigits hc
  have hval : (UInt8.ofNat c.toNat).toNat = c.toNat :=
    UInt8.toNat_ofNat_of_lt' (show c.toNat < 256 by omega)
  unfold isDigit
  simp only [Bool.and_eq_true, decide_eq_true_eq, UInt8.le_iff_toNat_le, hval]
  exact hbounds

theorem notMem_decimal {c : UInt8} (hc : isDigit c = false) (n : ℕ) : c ∉ decimal n := by
  intro hmem
  rw [isDigit_of_mem_decimal hmem] at hc
  exact absurd hc (by simp)

/-- **A number is got back from its decimal text.** -/
theorem decimal_injective : Function.Injective decimal := by
  intro m n h
  -- the characters are got back from the bytes, and the number from the characters
  have hback : ∀ k, (decimal k).map (fun b => Char.ofNat b.toNat) = Nat.toDigits 10 k := by
    intro k
    unfold decimal
    rw [List.map_map]
    refine (List.map_congr_left (fun c hc => ?_)).trans (List.map_id _)
    have hbounds := toNat_of_mem_toDigits hc
    show Char.ofNat (UInt8.ofNat c.toNat).toNat = c
    rw [UInt8.toNat_ofNat_of_lt' (show c.toNat < 256 by omega), Char.ofNat_toNat]
  have hdigits : Nat.toDigits 10 m = Nat.toDigits 10 n := by
    rw [← hback m, h, hback n]
  have hof := congrArg (fun l => Nat.ofDigitChars 10 l 0) hdigits
  simpa using hof

theorem length_decimal_le_iff {n k : ℕ} (hk : 0 < k) : (decimal n).length ≤ k ↔ n < 10 ^ k := by
  unfold decimal
  rw [List.length_map]
  exact Nat.length_toDigits_le_iff (by decide) hk

theorem decimal_ne_nil (n : ℕ) : decimal n ≠ [] := by
  unfold decimal
  rw [Ne, List.map_eq_nil_iff]
  exact Nat.toDigits_ne_nil

/-- In a text of digits there is nothing to skip. -/
theorem dropWhile_isSpace_of_digits {s : Bytes} (h : ∀ b ∈ s, isDigit b = true) :
    s.dropWhile isSpace = s ∧ ∀ t, s ≠ 45 :: t ∧ s ≠ 43 :: t := by
  cases s with
  | nil => simp
  | cons b s =>
    have hb := h b List.mem_cons_self
    have hspace : isSpace b = false := by
      unfold isDigit at hb
      unfold isSpace
      simp only [Bool.and_eq_true, decide_eq_true_eq, UInt8.le_iff_toNat_le] at hb
      simp only [Bool.or_eq_false_iff, Bool.and_eq_false_imp, decide_eq_true_eq,
        decide_eq_false_iff_not, UInt8.le_iff_toNat_le, ← UInt8.toNat_inj]
      constructor
      · exact fun heq => absurd (heq ▸ hb.1) (by decide)
      · exact fun _ hle => absurd (Nat.le_trans hb.1 hle) (by decide)
    refine ⟨List.dropWhile_cons_of_neg (by simp [hspace]), fun t => ⟨?_, ?_⟩⟩
    · rintro heq
      obtain ⟨rfl, -⟩ := List.cons.inj heq
      exact absurd hb (by decide)
    · rintro heq
      obtain ⟨rfl, -⟩ := List.cons.inj heq
      exact absurd hb (by decide)

/-- A text of digits is read as the number they spell. -/
theorem atoi_of_digits {s : Bytes} (h : ∀ b ∈ s, isDigit b = true) :
    atoi s = leadingNumber s ∧ afterSign s = s := by
  obtain ⟨hdrop, hsign⟩ := dropWhile_isSpace_of_digits h
  unfold atoi afterSign
  rw [hdrop]
  constructor
  · split
    · next t => exact absurd rfl (hsign t).1
    · next t => exact absurd rfl (hsign t).2
    · rfl
  · split
    · next t => exact absurd rfl (hsign t).1
    · next t => exact absurd rfl (hsign t).2
    · rfl

/-- **So many digits spell no greater number.** -/
theorem leadingNumber_lt {s : Bytes} (h : ∀ b ∈ s, isDigit b = true) :
    leadingNumber s < 10 ^ s.length := by
  have hfold : ∀ (s : Bytes), (∀ b ∈ s, isDigit b = true) → ∀ acc,
      s.foldl (fun n b => 10 * n + (b.toNat - 48)) acc < (acc + 1) * 10 ^ s.length := by
    intro s
    induction s with
    | nil => simp
    | cons b s ih =>
      intro hs acc
      have hb := hs b List.mem_cons_self
      unfold isDigit at hb
      simp only [Bool.and_eq_true, decide_eq_true_eq, UInt8.le_iff_toNat_le] at hb
      have hb' : b.toNat ≤ 57 := hb.2
      rw [List.foldl_cons]
      calc s.foldl (fun n b => 10 * n + (b.toNat - 48)) (10 * acc + (b.toNat - 48))
          < (10 * acc + (b.toNat - 48) + 1) * 10 ^ s.length :=
            ih (fun c hc => hs c (List.mem_cons_of_mem _ hc)) _
        _ ≤ (acc + 1) * 10 * 10 ^ s.length := Nat.mul_le_mul_right _ (by omega)
        _ = (acc + 1) * 10 ^ (b :: s).length := by
            rw [List.length_cons, Nat.pow_succ, Nat.mul_assoc, Nat.mul_comm 10]
  unfold leadingNumber
  rw [List.takeWhile_eq_self_iff.mpr h]
  have hlt := hfold s h 0
  rwa [Nat.zero_add, Nat.one_mul] at hlt

/-- **A decimal text spells its number.** -/
theorem leadingNumber_decimal (n : ℕ) : leadingNumber (decimal n) = n := by
  have hchar : ∀ acc, ∀ c ∈ Nat.toDigits 10 n,
      10 * acc + ((UInt8.ofNat c.toNat).toNat - 48) = 10 * acc + (c.toNat - 48) := by
    intro acc c hc
    have hbounds := toNat_of_mem_toDigits hc
    rw [UInt8.toNat_ofNat_of_lt' (show c.toNat < 256 by omega)]
  unfold leadingNumber
  rw [List.takeWhile_eq_self_iff.mpr (fun _ hb => isDigit_of_mem_decimal hb)]
  unfold decimal
  rw [List.foldl_map, List.foldl_ext _ _ _ hchar]
  exact Nat.ofDigitChars_ten_toDigits

theorem atoi_decimal (n : ℕ) : atoi (decimal n) = n := by
  rw [(atoi_of_digits (fun _ hb => isDigit_of_mem_decimal hb)).1, leadingNumber_decimal]

theorem stoi_decimal {n : ℕ} (hn : n < 2 ^ 31) : stoi (decimal n) = some (n : ℤ) := by
  have hdigits : ∀ b ∈ decimal n, isDigit b = true := fun _ hb => isDigit_of_mem_decimal hb
  unfold stoi
  rw [(atoi_of_digits hdigits).2, List.takeWhile_eq_self_iff.mpr hdigits, atoi_decimal,
    if_neg (decimal_ne_nil n), if_pos (by omega)]

/-- **A separator cuts a string in one way**, if it is not in the part before
it. -/
theorem append_cons_cancel {c : UInt8} {s t s' t' : Bytes} (hs : c ∉ s) (hs' : c ∉ s')
    (h : s ++ c :: t = s' ++ c :: t') : s = s' ∧ t = t' := by
  induction s generalizing s' with
  | nil =>
    cases s' with
    | nil => exact ⟨rfl, (List.cons.inj h).2⟩
    | cons b s' =>
      obtain ⟨rfl, -⟩ := List.cons.inj h
      exact absurd List.mem_cons_self hs'
  | cons b s ih =>
    cases s' with
    | nil =>
      obtain ⟨rfl, -⟩ := List.cons.inj h
      exact absurd List.mem_cons_self hs
    | cons b' s' =>
      obtain ⟨rfl, htail⟩ := List.cons.inj h
      obtain ⟨rfl, rfl⟩ := ih (fun hc => hs (List.mem_cons_of_mem _ hc))
        (fun hc => hs' (List.mem_cons_of_mem _ hc)) htail
      exact ⟨rfl, rfl⟩

/-! ## The last separator

To cut a text made of two parts where they meet, the separator must not occur in
the second part. That is so for a port, whatever the ip. -/

/-- A byte that is nowhere has no last position. -/
theorem findLastOf_eq_none_iff {c : UInt8} {s : Bytes} : findLastOf c s = none ↔ c ∉ s := by
  induction s with
  | nil => simp [findLastOf]
  | cons b s ih =>
    cases hs : findLastOf c s with
    | some i =>
      have hmem : c ∈ s := not_not.mp (fun hc => absurd (hs.symm.trans (ih.mpr hc)) (by simp))
      simp [findLastOf, hs, hmem]
    | none =>
      have hmem : c ∉ s := ih.mp hs
      simp [findLastOf, hs, hmem, eq_comm]

theorem findLastOf_append_cons {c : UInt8} {t : Bytes} (ht : c ∉ t) (s : Bytes) :
    findLastOf c (s ++ c :: t) = some s.length := by
  induction s with
  | nil => simp [findLastOf, findLastOf_eq_none_iff.mpr ht]
  | cons b s ih => simp [findLastOf, ih]

/-- **Two parts put together are cut where they meet.** -/
theorem cutAtLast_append_cons {c : UInt8} {t : Bytes} (ht : c ∉ t) (s : Bytes) :
    cutAtLast c (s ++ c :: t) = (s, t) := by
  unfold cutAtLast
  rw [findLastOf_append_cons ht]
  simp

/-- The second part has no separator. -/
theorem notMem_cutAtLast_snd (c : UInt8) (s : Bytes) : c ∉ (cutAtLast c s).2 := by
  by_cases hc : c ∈ s
  · -- the last occurrence is the first one from behind
    obtain ⟨t, s', hsplit, ht⟩ := List.eq_append_cons_of_mem (List.mem_reverse.mpr hc)
    have hs : s = s'.reverse ++ c :: t.reverse := by
      rw [← List.reverse_reverse s, hsplit]
      simp
    have ht' : c ∉ t.reverse := fun hmem => ht (List.mem_reverse.mp hmem)
    rw [hs, cutAtLast_append_cons ht']
    exact ht'
  · unfold cutAtLast
    rw [findLastOf_eq_none_iff.mpr hc]
    exact hc

/-! ## Memory

A buffer is a function from places to bytes, so that what was written before can
still stand behind what is written now. Where its size matters, it is with the
operations that write to it. -/

/-- The cells of a buffer. -/
abbrev Cells := ℕ → UInt8

namespace Cells

/-- Write a string at the start of a buffer. -/
def store (buf : Cells) (s : Bytes) : Cells := fun i => (s[i]?).getD (buf i)

/-- The first cells of a buffer. -/
def load (buf : Cells) (n : ℕ) : Bytes := (List.range n).map buf

theorem load_store_append (buf : Cells) (s t : Bytes) :
    (buf.store (s ++ t)).load s.length = s := by
  unfold load store
  refine List.ext_getElem (by simp) (fun i h₁ h₂ => ?_)
  rw [List.getElem_map, List.getElem_range, List.getElem?_append_left h₂,
    List.getElem?_eq_getElem h₂, Option.getD_some]

theorem load_store (buf : Cells) (s : Bytes) : (buf.store s).load s.length = s := by
  have h := load_store_append buf s []
  rwa [List.append_nil] at h

end Cells
