/-
**A fresh allocator fills its range in order.**

`TestIntegrationChannelIDsExhausted` opens channels on a connection with channel limit 16 until
one fails with `ErrChannelMax`.  For every range without overflow, the first `high - low + 1`
calls of `next` on `newAllocator low high` return `low, …, high` in order, and the next call
returns `(0, false)`: after `k` numbers (`Amqp091.Allocator.filled`), the first free number in the
cyclic order from the cursor is `low + k`.

Main results:

* `Amqp091.Allocator.run_next_fresh` — **a fresh allocator hands out its range in increasing
  order, then reports exhaustion**.
-/

import Amqp091.Next

set_option relaxedAutoImplicit false
set_option autoImplicit false

namespace Amqp091

namespace Allocator

/-- The number of numbers in `[low, high]`. -/
def size (low high : GoInt) : Nat := (high.val - low.val + 1).toNat

/-- The allocator of `[low, high]` once its first `k` numbers are handed out: their bits are set,
and the cursor stands on the next number, or back on `low` once the range is full. -/
def filled (low high : GoInt) (k : Nat) : Allocator where
  pool := 2 ^ k - 1
  follow := if k = size low high then low else GoInt.ofInt (low.val + k)
  low := low
  high := high

@[simp] theorem filled_pool (low high : GoInt) (k : Nat) : (filled low high k).pool = 2 ^ k - 1 := rfl
@[simp] theorem filled_low (low high : GoInt) (k : Nat) : (filled low high k).low = low := rfl
@[simp] theorem filled_high (low high : GoInt) (k : Nat) : (filled low high k).high = high := rfl

theorem filled_zero (low high : GoInt) (h : low ≤ high) : filled low high 0 = newAllocator low high := by
  have : (0 : Nat) ≠ size low high := by simp [size] at h ⊢; omega
  simp [filled, newAllocator, this]

/-- The numbers already handed out are exactly the first `k`. -/
theorem marked_filled (low high : GoInt) (k : Nat) {m : Int} (hm : low.val ≤ m) :
    (filled low high k).marked m = decide (m < low.val + k) := by
  simp only [marked, filled, Nat.testBit_two_pow_sub_one]
  exact decide_eq_decide.2 (by omega)

section Fill

variable {low high : GoInt} (hmax : high.val < intMax) (hspan : high.val - low.val ≤ intMax)
include hmax hspan

/-- Before the range is full, `next` hands out `low + k`: it is free and under the cursor. -/
theorem next_filled {k : Nat} (hk : k < size low high) :
    (filled low high k).next =
      some ((GoInt.ofInt (low.val + k), true), filled low high (k + 1)) := by
  simp only [size] at hk
  have hofInt : ∀ j : Nat, low.val + j ≤ high.val → (GoInt.ofInt (low.val + j)).val = low.val + j :=
    fun j hj => GoInt.val_ofInt (by have := low.val_mem; unfold intMin; omega) (by omega)
  have hv := hofInt k (by omega)
  have hf : (filled low high k).follow = GoInt.ofInt (low.val + k) := by
    simp only [filled, size]; rw [if_neg (by omega)]
  have hfree : (filled low high k).marked (low.val + k) = false := by
    simp [marked_filled low high k (show low.val ≤ low.val + k by omega)]
  rw [next_of_follow_free (by simp [hf, hv]) (by simp [hf, hv]; omega) (by simp [hf, hv]; omega)
    (by rw [hf, hv]; exact hfree), hf, hv]
  refine congrArg some (Prod.ext rfl (Allocator.ext ?_ (GoInt.ext ?_) (by simp) (by simp)))
  · rw [advance_pool, filled_pool, mark, filled_pool, filled_low,
      show (low.val + k - low.val).toNat = k by omega, two_pow_sub_one_or_two_pow]
  · rw [advance_follow_val (by simp [hf, hv]; omega)]
    simp only [mark_follow, mark_high, mark_low, filled_high, filled_low, hf, hv]
    simp only [filled]
    by_cases hkh : low.val + k = high.val
    · rw [if_pos hkh, if_pos (by simp only [size]; omega)]
    · rw [if_neg hkh, if_neg (by simp only [size]; omega), hofInt (k + 1) (by omega)]
      push_cast; omega

/-- Once the range is full, `next` reports exhaustion. -/
theorem next_filled_size (hlh : low ≤ high) :
    ∃ a', (filled low high (size low high)).next = some ((0, false), a') := by
  have hf : (filled low high (size low high)).follow = low := by simp [filled]
  obtain ⟨⟨n, ok⟩, a', h, hspec⟩ := next_spec (a := filled low high (size low high))
    (by simp [hf, GoInt.le_refl]) (by simpa [hf] using hlh) hmax hspan
  cases ok with
  | false => exact ⟨a', by rw [h, hspec.2.1]⟩
  | true =>
      obtain ⟨⟨hn₁, hn₂, hn, -⟩, -⟩ := hspec
      simp only [filled_low, filled_high] at hn₁ hn₂
      rw [marked_filled _ _ _ hn₁] at hn
      simp only [size, decide_eq_false_iff_not] at hn
      omega

/-- From the state with `k` numbers handed out, `j` more calls of `next` hand out
`low + k, …, low + k + j - 1`, and the call after them reports exhaustion. -/
theorem run_filled (hlh : low ≤ high) : ∀ (j k : Nat), k + j = size low high →
    ∃ a, (filled low high k).run (List.replicate (j + 1) .next) =
      some ((List.range j).map (fun i => .next (GoInt.ofInt (low.val + (k + i : Nat))) true) ++
        [.next 0 false], a)
  | 0, k, hk => by
      obtain ⟨a', h⟩ := next_filled_size hmax hspan hlh
      obtain rfl : k = size low high := by omega
      exact ⟨a', by simp [run, exec, h]⟩
  | j + 1, k, hk => by
      obtain ⟨a, ha⟩ := run_filled hlh j (k + 1) (by omega)
      refine ⟨a, ?_⟩
      rw [List.replicate_succ, run, exec, next_filled hmax hspan (by omega)]
      simp only [Option.map_some', bind, Option.bind, ha, List.range_succ_eq_map, List.map_cons,
        List.map_map, List.cons_append, Nat.add_zero]
      simp only [show ∀ i, k + 1 + i = k + (i + 1) from fun i => by omega]
      rfl

end Fill

/-- **A fresh allocator hands out its range in increasing order, then reports exhaustion.** -/
theorem run_next_fresh {low high : GoInt} (hlh : low ≤ high) (hmax : high.val < intMax)
    (hspan : high.val - low.val ≤ intMax) :
    ∃ a, (newAllocator low high).run (List.replicate (size low high + 1) .next) =
      some ((List.range (size low high)).map (fun i => .next (GoInt.ofInt (low.val + i)) true) ++
        [.next 0 false], a) := by
  simpa [filled_zero low high hlh] using run_filled hmax hspan hlh (size low high) 0 (by omega)

theorem run_next_fresh_sixteen :
    (1 : GoInt) ≤ 16 ∧ (16 : GoInt).val < intMax ∧ (16 : GoInt).val - (1 : GoInt).val ≤ intMax ∧
      ∃ a, (newAllocator 1 16).run (List.replicate (size 1 16 + 1) .next) =
        some ((List.range (size 1 16)).map
          (fun i => .next (GoInt.ofInt ((1 : GoInt).val + i)) true) ++ [.next 0 false], a) :=
  ⟨by decide, by decide, by decide, run_next_fresh (by decide) (by decide) (by decide)⟩

end Allocator

end Amqp091
