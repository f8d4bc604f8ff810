import Mathlib.Data.Nat.ModEq

/-!
# A list laid out in a ring

An array of `n` cells is used as a ring: the place `k` places on from `head`
is the cell `(head + k) % n`. A list is laid out in the ring from `head` on if
each of its elements stands in its place (`Stores`). Writing one place past
the list makes it longer at its end, and moving `head` on by one place makes it
shorter at its front; neither moves anything.

With fewer elements than cells, the place past the list tells how many there
are: it is `head` only if there are none, and one place before `head` only if
all cells but one are used. All `n` cells used would look like none used.
-/

namespace RingArray

variable {α : Type} {cells : Array α} {l : List α} {a : α} {n head j k : ℕ}

/-- The cell so many places on. -/
def slot (n head k : ℕ) : ℕ := (head + k) % n

theorem slot_lt (hn : 0 < n) (head k : ℕ) : slot n head k < n := Nat.mod_lt _ hn

theorem slot_zero (hhead : head < n) : slot n head 0 = head := Nat.mod_eq_of_lt hhead

theorem slot_slot (n head j k : ℕ) : slot n (slot n head j) k = slot n head (j + k) := by
  unfold slot
  rw [Nat.mod_add_mod, Nat.add_assoc]

/-- **Less than once round, different numbers of places lead to different
cells.** -/
theorem slot_inj (hj : j < n) (hk : k < n) : slot n head j = slot n head k ↔ j = k := by
  refine ⟨fun h => ?_, fun h => by rw [h]⟩
  exact Nat.ModEq.eq_of_lt_of_lt (Nat.ModEq.add_left_cancel' head h) hj hk

theorem slot_eq (hhead : head < n) (hk : k ≤ n) :
    slot n head k = if head + k < n then head + k else head + k - n := by
  unfold slot
  split
  · next h => exact Nat.mod_eq_of_lt h
  · next h =>
    rw [Nat.mod_eq_sub_mod (by omega)]
    exact Nat.mod_eq_of_lt (by omega)

/-- **The number of places can be told from the cell.** -/
theorem slot_sub_mod (hhead : head < n) (hk : k < n) : (slot n head k + n - head) % n = k := by
  rw [slot_eq hhead (Nat.le_of_lt hk)]
  split
  · rw [show head + k + n - head = k + n by omega, Nat.add_mod_right, Nat.mod_eq_of_lt hk]
  · rw [show head + k - n + n - head = k by omega, Nat.mod_eq_of_lt hk]

theorem slot_eq_head_iff (hhead : head < n) (hk : k < n) : slot n head k = head ↔ k = 0 := by
  have hiff : slot n head k = slot n head 0 ↔ k = 0 := slot_inj hk (Nat.zero_lt_of_lt hk)
  rwa [slot_zero hhead] at hiff

theorem slot_succ_eq_head_iff (hhead : head < n) (hk : k < n) :
    slot n head (k + 1) = head ↔ k + 1 = n := by
  rw [slot_eq hhead hk]
  split <;> omega

/-! ## Lists in a ring

The cell behind the last of a list must not be one of the list, so the list is
shorter than the ring. Then an element is added by one write to that cell, and the
first one is taken by moving on the place where the list begins; what else stands
in the ring is of no account. -/

/-- **The list stands in the ring**, from `head` on. -/
def Stores (cells : Array α) (head : ℕ) (l : List α) : Prop :=
  ∀ k, k < l.length → cells[slot cells.size head k]? = l[k]?

theorem stores_nil (cells : Array α) (head : ℕ) : Stores cells head [] :=
  fun k hk => absurd hk (Nat.not_lt_zero k)

/-- **Written one place past its end**, the list is longer by one. -/
theorem Stores.concat (h : Stores cells head l) (hroom : l.length < cells.size) (a : α) :
    Stores (cells.setIfInBounds (slot cells.size head l.length) a) head (l ++ [a]) := by
  intro k hk
  rw [List.length_append, List.length_singleton] at hk
  have hlast : slot cells.size head l.length < cells.size :=
    slot_lt (Nat.zero_lt_of_lt hroom) _ _
  rw [Array.size_setIfInBounds]
  rcases Nat.lt_succ_iff_lt_or_eq.mp hk with hold | hnew
  · -- another place of the ring, as less than once round has been written
    have hne : slot cells.size head l.length ≠ slot cells.size head k := by
      intro heq
      have := (slot_inj hroom (Nat.lt_trans hold hroom)).mp heq
      omega
    rw [Array.getElem?_setIfInBounds_ne hne, List.getElem?_append_left hold]
    exact h k hold
  · rw [hnew, Array.getElem?_setIfInBounds_self_of_lt hlast, List.getElem?_concat_length]

theorem Stores.first (h : Stores cells head (a :: l)) (hhead : head < cells.size) :
    cells[head]? = some a := by
  have hzero := h 0 (Nat.zero_lt_succ _)
  rwa [slot_zero hhead] at hzero

/-- **From the next place on**, the list without its first element. -/
theorem Stores.rest (h : Stores cells head (a :: l)) : Stores cells (slot cells.size head 1) l := by
  intro k hk
  rw [slot_slot, Nat.add_comm 1 k]
  exact h (k + 1) (Nat.succ_lt_succ hk)

end RingArray
