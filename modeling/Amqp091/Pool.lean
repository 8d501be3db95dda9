/-
**What `reserved`, `reserve` and `release` do to the pool.**

The number `m` owns bit `m - low` of the pool, `Amqp091.Allocator.marked` read with exact
arithmetic.  The three functions compute that index in Go's `int`, so they agree with `marked`
when `low ≤ n ≤ low + intMax`, and panic exactly when the index comes out negative.

Main results:

* `Amqp091.Allocator.reserved_of_index`, `Amqp091.Allocator.reserve_of_not_marked`,
  `Amqp091.Allocator.release_of_index` — the three functions inside that window;
* `Amqp091.Allocator.release_of_reserve` — **`release` undoes a `reserve` that succeeded**;
* `Amqp091.Allocator.release_total` — **both calls panic exactly when the index is negative**,
  and releasing a number that is not reserved changes nothing.
-/

import Amqp091.Allocator

set_option relaxedAutoImplicit false
set_option autoImplicit false

namespace Amqp091

namespace Allocator

/-! ### The bit of a number -/

/-- Whether the pool marks `m` as allocated: its bit `m - low`, computed without overflow. -/
def marked (a : Allocator) (m : Int) : Bool := a.pool.testBit (m - a.low.val).toNat

/-- The allocator with the bit of `m` set, as `reserve` leaves it. -/
def mark (a : Allocator) (m : Int) : Allocator :=
  { a with pool := a.pool ||| 2 ^ (m - a.low.val).toNat }

/-- The allocator with the bit of `m` cleared, as `release` leaves it. -/
def unmark (a : Allocator) (m : Int) : Allocator :=
  { a with pool := andNot a.pool (2 ^ (m - a.low.val).toNat) }

@[simp] theorem mark_follow (a : Allocator) (m : Int) : (a.mark m).follow = a.follow := rfl
@[simp] theorem mark_low (a : Allocator) (m : Int) : (a.mark m).low = a.low := rfl
@[simp] theorem mark_high (a : Allocator) (m : Int) : (a.mark m).high = a.high := rfl
@[simp] theorem unmark_follow (a : Allocator) (m : Int) : (a.unmark m).follow = a.follow := rfl
@[simp] theorem unmark_low (a : Allocator) (m : Int) : (a.unmark m).low = a.low := rfl
@[simp] theorem unmark_high (a : Allocator) (m : Int) : (a.unmark m).high = a.high := rfl

@[simp] theorem marked_follow (a : Allocator) (f : GoInt) (m : Int) :
    ({ a with follow := f } : Allocator).marked m = a.marked m := rfl

theorem marked_congr {a b : Allocator} (hp : a.pool = b.pool) (hl : a.low = b.low) :
    a.marked = b.marked := by
  funext m; simp only [marked, hp, hl]

/-- Setting the bit of `n` marks `n` and leaves every other number at or above `low` alone. -/
theorem marked_mark (a : Allocator) {n m : Int} (hn : a.low.val ≤ n) (hm : a.low.val ≤ m) :
    (a.mark n).marked m = (a.marked m || decide (m = n)) := by
  simp only [marked, mark, testBit_or_two_pow]
  congr 1
  exact decide_eq_decide.2 (by omega)

/-- Clearing the bit of `n` unmarks `n` and leaves every other number at or above `low` alone. -/
theorem marked_unmark (a : Allocator) {n m : Int} (hn : a.low.val ≤ n) (hm : a.low.val ≤ m) :
    (a.unmark n).marked m = (a.marked m && !decide (m = n)) := by
  simp only [marked, unmark, testBit_andNot_two_pow]
  congr 2
  exact decide_eq_decide.2 (by omega)

/-! ### The three functions inside the window -/

section Window

variable {a : Allocator} {n : GoInt} (h₁ : a.low ≤ n) (h₂ : n.val - a.low.val ≤ intMax)
include h₁ h₂

theorem val_index : (n - a.low).val = n.val - a.low.val :=
  GoInt.val_sub (by have := n.val_mem; have := a.low.val_mem; simp at h₁; unfold intMin; omega) h₂

theorem index_nonneg : 0 ≤ (n - a.low).val := by
  rw [val_index h₁ h₂]; simp at h₁; omega

theorem reserved_of_index : a.reserved n = some (a.marked n.val) := by
  simp only [reserved, Big.bit_of_nonneg _ (index_nonneg h₁ h₂), val_index h₁ h₂, marked,
    allocated]
  cases a.pool.testBit (n.val - a.low.val).toNat <;> rfl

theorem reserve_of_marked (hm : a.marked n.val = true) : a.reserve n = some (false, a) := by
  simp [reserve, reserved_of_index h₁ h₂, hm]

theorem reserve_of_not_marked (hm : a.marked n.val = false) :
    a.reserve n = some (true, a.mark n.val) := by
  simp [reserve, reserved_of_index h₁ h₂, hm, allocated, Big.setBit_one _ (index_nonneg h₁ h₂),
    val_index h₁ h₂, mark]

theorem release_of_index : a.release n = some (a.unmark n.val) := by
  simp [release, free, Big.setBit_zero _ (index_nonneg h₁ h₂), val_index h₁ h₂, unmark]

end Window

/-! ### Any bit index, and panics -/

section Index

variable {a : Allocator} {n : GoInt} (h : 0 ≤ (n - a.low).val)
include h

theorem reserved_of_nonneg : a.reserved n = some (a.pool.testBit (n - a.low).val.toNat) := by
  simp only [reserved, Big.bit_of_nonneg _ h, allocated]
  cases a.pool.testBit (n - a.low).val.toNat <;> rfl

theorem release_of_nonneg :
    a.release n = some { a with pool := andNot a.pool (2 ^ (n - a.low).val.toNat) } := by
  simp [release, free, Big.setBit_zero _ h]

end Index

theorem reserved_eq_none_iff (a : Allocator) (n : GoInt) :
    a.reserved n = none ↔ (n - a.low).val < 0 := by
  by_cases h : (n - a.low).val < 0
  · simp [reserved, Big.bit_of_neg _ h, h]
  · simp [reserved_of_nonneg (Int.not_lt.1 h), h]

theorem release_eq_none_iff (a : Allocator) (n : GoInt) :
    a.release n = none ↔ (n - a.low).val < 0 := by
  by_cases h : (n - a.low).val < 0
  · simp [release, Big.setBit_of_neg _ h, h]
  · simp [release_of_nonneg (Int.not_lt.1 h), h]

theorem unmark_of_not_marked {a : Allocator} {m : Int} (h : a.marked m = false) :
    a.unmark m = a := by
  simp only [unmark, andNot_two_pow_of_testBit h]

theorem unmark_mark {a : Allocator} {m : Int} (h : a.marked m = false) : (a.mark m).unmark m = a :=
  congrArg (fun p => { a with pool := p }) (andNot_or_two_pow_of_testBit h)

/-- A `reserve(n)` that answers `true`, in any state, set the clear bit `n - low` and nothing
else. -/
theorem reserve_eq_some_true {a a' : Allocator} {n : GoInt} (h : a.reserve n = some (true, a')) :
    0 ≤ (n - a.low).val ∧ a.pool.testBit (n - a.low).val.toNat = false ∧
      a' = { a with pool := a.pool ||| 2 ^ (n - a.low).val.toNat } := by
  by_cases hneg : (n - a.low).val < 0
  · simp [reserve, (reserved_eq_none_iff a n).2 hneg] at h
  have hi := Int.not_lt.1 hneg
  cases hb : a.pool.testBit (n - a.low).val.toNat
  · simp [reserve, reserved_of_nonneg hi, hb, allocated, Big.setBit_one _ hi] at h
    exact ⟨hi, rfl, h.symm⟩
  · simp [reserve, reserved_of_nonneg hi, hb] at h

/-- **`release` undoes a `reserve` that succeeded**, in every state and for every `n`. -/
theorem release_of_reserve {a b : Allocator} {n : GoInt} (h : a.reserve n = some (true, b)) :
    b.release n = some a := by
  obtain ⟨hi, hb, rfl⟩ := reserve_eq_some_true h
  simp [release, free, Big.setBit_zero _ hi, andNot_or_two_pow_of_testBit hb]

theorem release_of_reserve_two :
    (newAllocator 1 3).reserve 2 = some (true, ⟨2, 1, 1, 3⟩) ∧
      (⟨2, 1, 1, 3⟩ : Allocator).release 2 = some (newAllocator 1 3) :=
  ⟨by decide, release_of_reserve (by decide)⟩

/-- **`reserved` and `release` on any `int`**: both panic exactly when the bit index `n - low` is
negative, and `release(n)` changes nothing when `reserved(n)` answers `false`. -/
theorem release_total (a : Allocator) (n : GoInt) :
    (a.reserved n = none ↔ (n - a.low).val < 0) ∧ (a.release n = none ↔ (n - a.low).val < 0) ∧
      (a.low ≤ n → n.val - a.low.val ≤ intMax → a.reserved n ≠ none ∧ a.release n ≠ none) ∧
      (a.reserved n = some false → a.release n = some a) := by
  refine ⟨reserved_eq_none_iff a n, release_eq_none_iff a n, fun h₁ h₂ =>
    ⟨by simp [reserved_of_index h₁ h₂], by simp [release_of_index h₁ h₂]⟩, fun h => ?_⟩
  have hi : 0 ≤ (n - a.low).val :=
    Int.not_lt.1 fun hneg => by simp [(reserved_eq_none_iff a n).2 hneg] at h
  rw [reserved_of_nonneg hi, Option.some_inj] at h
  rw [release_of_nonneg hi, andNot_two_pow_of_testBit h]

/-- **`release` and `reserved` panic below `low`**: on `newAllocator 1 1`, both panic on `0`. -/
theorem release_below_low :
    Reachable 1 1 (newAllocator 1 1) ∧
      (newAllocator 1 1).reserved 0 = none ∧ (newAllocator 1 1).release 0 = none :=
  ⟨.init, by decide, by decide⟩

end Allocator

end Amqp091
