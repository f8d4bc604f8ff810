import Mathlib.Data.Multiset.Replicate

/-!
# One slot for many hand-overs

A producer hands values to consumers through one slot: it writes the value
and announces a consumer; the consumer, when it runs, copies what the slot
has. Nothing says when it runs. Between the two the producer may write again,
and then the consumer copies the later value.

Where nothing is lost, the values handed over are those copied and, for each
consumer announced and not yet run, the one in the slot (`Balanced`). A
consumer that runs keeps the balance whatever the slot has. A producer that
writes keeps it when no consumer is announced, or when it writes what is
there already – and these are the only cases in which it may write without
changing what an announced consumer will copy.
-/

namespace SharedSlot

variable {α : Type} {slot a : α} {pending : ℕ} {given taken : Multiset α}

/-- **Nothing is lost or doubled**: what was handed over is what was copied,
and what the consumers announced will copy if they run now. -/
def Balanced (slot : α) (pending : ℕ) (given taken : Multiset α) : Prop :=
  given = Multiset.replicate pending slot + taken

theorem balanced_zero (slot : α) : Balanced slot 0 0 0 := rfl

/-- **A write keeps the balance** when no consumer would copy something else
on account of it. -/
theorem Balanced.put (h : Balanced slot pending given taken)
    (hput : pending = 0 ∨ a = slot) : Balanced a (pending + 1) (a ::ₘ given) taken := by
  unfold Balanced at h ⊢
  have hslot : Multiset.replicate pending slot = Multiset.replicate pending a := by
    rcases hput with rfl | rfl
    · rfl
    · rfl
  rw [h, hslot, Multiset.replicate_succ, Multiset.cons_add]

/-- **A copy keeps the balance.** -/
theorem Balanced.take (h : Balanced slot (pending + 1) given taken) :
    Balanced slot pending given (slot ::ₘ taken) := by
  unfold Balanced at h ⊢
  rw [h, Multiset.replicate_succ, Multiset.cons_add, Multiset.add_cons]

theorem Balanced.eq_of_done (h : Balanced slot 0 given taken) : taken = given := by
  unfold Balanced at h
  rw [h, Multiset.replicate_zero, Multiset.zero_add]

end SharedSlot
