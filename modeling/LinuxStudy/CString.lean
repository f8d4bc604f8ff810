import LinuxStudy.Bytes
import Mathlib.Logic.Function.Basic

/-!
# Strings in a memory

A C string is no value but a place in a memory: it begins at a pointer and goes
on to the first cell that holds the terminator. What the functions of the C
library say of a string they say of those bytes (`Cells.cstr`), and a pointer
into a string is a place of the same memory, so that a write in the middle makes
two strings of one.

A program that works in place relies on two facts. A string depends only on the
cells up to its terminator (`cstr_congr`), so that whatever is written behind it
leaves it alone; and a terminator that is written into a string ends it there,
while the rest can still be read from the next cell on
(`cstr_update_self`, `cstr_add`).
-/

namespace Cells

/-- The bytes from a cell on up to the first terminator, among at most so many
cells. -/
def cstr (buf : Cells) : ℕ → ℕ → Bytes
  | 0, _ => []
  | n + 1, p => if buf p = nul then [] else buf p :: cstr buf n (p + 1)

/-- Write a string from a cell on. -/
def storeAt (buf : Cells) (p : ℕ) (s : Bytes) : Cells :=
  fun i => if p ≤ i then (s[i - p]?).getD (buf i) else buf i

/-- `buf[p] = b`. -/
abbrev put (buf : Cells) (p : ℕ) (b : UInt8) : Cells := Function.update buf p b

variable {buf buf' : Cells} {n m p q i : ℕ} {b : UInt8} {s : Bytes}

/-! ## What a string depends on

A string is what stands from a place on up to the first terminator, if there is
one among the cells that may be looked at. So it is decided by the cells up to
that terminator. A write before the place, or behind the terminator, does not
change it; a terminator written into the string makes it shorter; and what stands
behind the new terminator is the rest of the string, or a string of its own if one
begins there. This is what a parser does that takes a line apart by putting
terminators into it. -/

/-- **A string depends on the cells up to its terminator** only, and not on how
many more there are. -/
theorem cstr_congr (h : ∀ i, p ≤ i → i ≤ q → buf' i = buf i) (hq : buf q = nul) (hpq : p ≤ q)
    (hn : q < p + n) (hm : q < p + m) : buf'.cstr m p = buf.cstr n p := by
  induction n generalizing m p with
  | zero => omega
  | succ n ih =>
    obtain ⟨m, rfl⟩ : ∃ k, m = k + 1 := ⟨m - 1, by omega⟩
    unfold cstr
    rw [h p (Nat.le_refl p) hpq]
    split
    · rfl
    · next hp =>
      have hlt : p < q := by
        rcases Nat.lt_or_eq_of_le hpq with hlt | rfl
        · exact hlt
        · exact absurd hq hp
      rw [ih (fun i hi hiq => h i (by omega) hiq) hlt (by omega) (by omega)]

/-- There is no terminator in a string. -/
theorem nul_notMem_cstr : nul ∉ buf.cstr n p := by
  induction n generalizing p with
  | zero => exact List.not_mem_nil
  | succ n ih =>
    unfold cstr
    split
    · exact List.not_mem_nil
    · next hp =>
      intro hmem
      rcases List.mem_cons.mp hmem with heq | hmem
      · exact hp heq.symm
      · exact ih hmem

/-- **A string that stands in the memory** with its terminator is what is
read. -/
theorem cstr_of_stands (hs : ∀ k, (hk : k < s.length) → buf (p + k) = s[k]) (hnul : nul ∉ s)
    (hend : buf (p + s.length) = nul) (hn : s.length < n) : buf.cstr n p = s := by
  induction s generalizing n p with
  | nil =>
    obtain ⟨n, rfl⟩ : ∃ k, n = k + 1 := ⟨n - 1, by
      have : 0 < n := hn
      omega⟩
    unfold cstr
    exact if_pos hend
  | cons c s ih =>
    rw [List.length_cons] at hn hend
    obtain ⟨n, rfl⟩ : ∃ k, n = k + 1 := ⟨n - 1, by omega⟩
    have hc : buf p = c := hs 0 (Nat.succ_pos _)
    have hne : c ≠ nul := by
      rintro rfl
      exact hnul List.mem_cons_self
    unfold cstr
    rw [hc, if_neg hne]
    congr 1
    refine ih (fun k hk => ?_) (fun hmem => hnul (List.mem_cons_of_mem _ hmem)) ?_ (by omega)
    · have hk' := hs (k + 1) (Nat.succ_lt_succ hk)
      rwa [Nat.add_assoc, Nat.add_comm 1 k]
    · rwa [Nat.add_assoc, Nat.add_comm 1 s.length]

/-- The bytes of a string stand in the memory. -/
theorem getElem_cstr {k : ℕ} (hk : k < (buf.cstr n p).length) :
    (buf.cstr n p)[k] = buf (p + k) ∧ k < n := by
  induction n generalizing p k with
  | zero => exact absurd hk (Nat.not_lt_zero _)
  | succ n ih =>
    unfold cstr at hk ⊢
    split at hk
    · exact absurd hk (Nat.not_lt_zero _)
    · next hp =>
      simp only [if_neg hp]
      cases k with
      | zero => exact ⟨rfl, Nat.succ_pos n⟩
      | succ k =>
        have hk' : k < (buf.cstr n (p + 1)).length := Nat.lt_of_succ_lt_succ hk
        obtain ⟨heq, hlt⟩ := ih hk'
        refine ⟨?_, Nat.succ_lt_succ hlt⟩
        rw [List.getElem_cons_succ, heq, Nat.add_assoc, Nat.add_comm 1 k]

/-- And so do those of a part of it. -/
theorem getElem_cstr_mid {a w rest : Bytes} (h : buf.cstr n p = a ++ (w ++ rest)) {k : ℕ}
    (hk : k < w.length) : buf (p + a.length + k) = w[k] := by
  have hk' : a.length + k < (buf.cstr n p).length := by
    rw [h, List.length_append, List.length_append]
    omega
  rw [Nat.add_assoc, ← (getElem_cstr hk').1]
  simp only [h]
  rw [List.getElem_append_right (Nat.le_add_right _ _)]
  simp only [Nat.add_sub_cancel_left]
  exact List.getElem_append_left hk

/-- Behind a string stands its terminator, if there are cells enough. -/
theorem end_cstr (h : (buf.cstr n p).length < n) : buf (p + (buf.cstr n p).length) = nul := by
  induction n generalizing p with
  | zero => exact absurd h (Nat.not_lt_zero _)
  | succ n ih =>
    unfold cstr at h ⊢
    split at h
    · next hp =>
      rw [if_pos hp]
      exact hp
    · next hp =>
      rw [if_neg hp, List.length_cons, ← Nat.add_assoc, Nat.add_right_comm]
      exact ih (Nat.lt_of_succ_lt_succ h)

theorem length_cstr_le (hq : buf q = nul) (hpq : p ≤ q) : (buf.cstr n p).length ≤ q - p := by
  by_contra hlong
  have hk : q - p < (buf.cstr n p).length := by omega
  have hcell := (getElem_cstr hk).1
  rw [Nat.add_sub_cancel' hpq, hq] at hcell
  exact nul_notMem_cstr (hcell ▸ List.getElem_mem hk)

/-- **From further on** the rest of the string is read. -/
theorem cstr_add {k : ℕ} (hk : k ≤ (buf.cstr n p).length) (hend : (buf.cstr n p).length < n)
    (hm : n ≤ m + k) : buf.cstr m (p + k) = (buf.cstr n p).drop k := by
  refine cstr_of_stands (fun j hj => ?_) (fun hmem => nul_notMem_cstr (List.mem_of_mem_drop hmem))
    ?_ ?_
  · rw [List.getElem_drop, (getElem_cstr _).1, Nat.add_assoc]
  · rw [List.length_drop, Nat.add_assoc, Nat.add_sub_cancel' hk]
    exact end_cstr hend
  · rw [List.length_drop]
    omega

/-- **A terminator that is written into a string** ends it there. -/
theorem cstr_update_self {k : ℕ} (hk : k ≤ (buf.cstr n p).length) (hkn : k < n) :
    (buf.put (p + k) nul).cstr n p = (buf.cstr n p).take k := by
  have hlength : ((buf.cstr n p).take k).length = k := List.length_take_of_le hk
  refine cstr_of_stands (fun j hj => ?_) (fun hmem => nul_notMem_cstr (List.mem_of_mem_take hmem))
    ?_ (by omega)
  · have hne : p + j ≠ p + k := by omega
    rw [put, Function.update_of_ne hne, List.getElem_take, (getElem_cstr _).1]
  · rw [hlength]
    exact Function.update_self _ _ _

theorem cstr_put_of_lt (h : i < p) : (buf.put i b).cstr n p = buf.cstr n p := by
  induction n generalizing p with
  | zero => rfl
  | succ n ih =>
    unfold cstr
    rw [put, Function.update_of_ne (by omega), ← put, ih (by omega)]

/-- **To put a terminator in place of a byte** makes two strings of one. -/
theorem cstr_split {a rest : Bytes} (h : buf.cstr n p = a ++ b :: rest)
    (hend : (buf.cstr n p).length < n) (hm : n ≤ m + (a.length + 1)) :
    (buf.put (p + a.length) nul).cstr n p = a ∧
      (buf.put (p + a.length) nul).cstr m (p + a.length + 1) = rest := by
  have hlength : a.length + 1 ≤ (buf.cstr n p).length := by
    rw [h, List.length_append, List.length_cons]
    omega
  constructor
  · rw [cstr_update_self (by omega) (by omega), h, List.take_left]
  · rw [cstr_put_of_lt (Nat.lt_add_one _), Nat.add_assoc, cstr_add hlength hend hm, h,
      List.drop_append, List.drop_of_length_le (Nat.le_succ _), Nat.add_sub_cancel_left,
      List.nil_append, List.drop_one, List.tail_cons]

/-! ## What is written from a cell on

`storeAt` writes bytes one behind the other. What is in a cell afterwards is one
of the bytes, or what was there. Two writes that do not meet can be made in either
order, and this is how what was received is separated from the terminators that
were put into it since. -/

theorem storeAt_of_lt (h : i < p) : buf.storeAt p s i = buf i := if_neg (by omega)

theorem storeAt_add {k : ℕ} (hk : k < s.length) : buf.storeAt p s (p + k) = s[k] := by
  unfold storeAt
  rw [if_pos (Nat.le_add_right p k), Nat.add_sub_cancel_left, List.getElem?_eq_getElem hk,
    Option.getD_some]

theorem storeAt_of_le (h : p + s.length ≤ i) : buf.storeAt p s i = buf i := by
  unfold storeAt
  rw [if_pos (by omega), List.getElem?_eq_none (by omega), Option.getD_none]

/-- To write two strings one behind the other is to write both at once. -/
theorem storeAt_append (buf : Cells) (p : ℕ) (s t : Bytes) :
    (buf.storeAt p s).storeAt (p + s.length) t = buf.storeAt p (s ++ t) := by
  funext i
  rcases Nat.lt_or_ge i p with hlt | hge
  · rw [storeAt_of_lt hlt, storeAt_of_lt (by omega), storeAt_of_lt hlt]
  · obtain ⟨k, rfl⟩ := Nat.exists_eq_add_of_le hge
    unfold storeAt
    rw [if_pos hge, if_pos hge, Nat.add_sub_cancel_left]
    rcases Nat.lt_or_ge k s.length with hk | hk
    · rw [if_neg (by omega), List.getElem?_append_left hk]
    · rw [if_pos (by omega), List.getElem?_append_right hk, List.getElem?_eq_none hk,
        Option.getD_none, Nat.add_sub_add_left]

/-- **A string that is written** with its terminator is what is read. -/
theorem cstr_storeAt (hs : nul ∉ s) (hn : s.length < n) :
    (buf.storeAt p (s ++ [nul])).cstr n p = s := by
  refine cstr_of_stands (fun k hk => ?_) hs ?_ hn
  · rw [storeAt_add (by rw [List.length_append]; omega), List.getElem_append_left hk]
  · rw [storeAt_add (by rw [List.length_append]; exact Nat.lt_succ_self _)]
    simp

theorem storeAt_congr (h : buf' i = buf i) : buf'.storeAt p s i = buf.storeAt p s i := by
  unfold storeAt
  rw [h]

theorem put_ne {d : UInt8} (hb : b ≠ d) (h : buf i ≠ d) : buf.put p b i ≠ d := by
  by_cases hip : i = p
  · subst hip
    rw [put, Function.update_self]
    exact hb
  · rw [put, Function.update_of_ne hip]
    exact h

theorem storeAt_ne {d : UInt8} (hs : d ∉ s) (h : buf i ≠ d) : buf.storeAt p s i ≠ d := by
  rcases Nat.lt_or_ge i p with hlt | hge
  · rwa [storeAt_of_lt hlt]
  · rcases Nat.lt_or_ge (i - p) s.length with hk | hk
    · obtain ⟨k, rfl⟩ := Nat.exists_eq_add_of_le hge
      rw [Nat.add_sub_cancel_left] at hk
      rw [storeAt_add hk]
      exact fun heq => hs (heq ▸ List.getElem_mem hk)
    · rwa [storeAt_of_le (by omega)]

theorem put_storeAt (h : i < p) : (buf.storeAt p s).put i b = (buf.put i b).storeAt p s := by
  funext j
  by_cases hj : j = i
  · subst hj
    rw [put, Function.update_self, storeAt_of_lt h, put, Function.update_self]
  · rw [put, Function.update_of_ne hj]
    exact (storeAt_congr (Function.update_of_ne hj _ _)).symm

theorem storeAt_storeAt {t : Bytes} (h : q + t.length ≤ p) :
    (buf.storeAt p s).storeAt q t = (buf.storeAt q t).storeAt p s := by
  funext j
  rcases Nat.lt_or_ge j p with hlt | hge
  · rw [storeAt_of_lt hlt, storeAt_congr (storeAt_of_lt hlt)]
  · rw [storeAt_of_le (by omega)]
    exact (storeAt_congr (storeAt_of_le (by omega))).symm

end Cells
