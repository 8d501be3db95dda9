/-
**The two `math/big` methods the allocator calls.**

The allocator's `pool` is a `*big.Int` that starts at `0` and is changed only by `SetBit` with bit
value `0` or `1`, so it stays non-negative; it is modelled as an unbounded `Nat`, leaving out the
runtime's cap on the size of an allocation.  `x.Bit(i)` is `(x >> i) & 1` and `z.SetBit(x, i, b)`
sets or clears bit `i`, as `math/big` documents them; both panic (`none`) when `i < 0`.

Main results:

* `Amqp091.Big.bit_of_nonneg`, `Amqp091.Big.setBit_one`, `Amqp091.Big.setBit_zero` — the
  methods on a non-negative index, and `Amqp091.Big.bit_of_neg`, `Amqp091.Big.setBit_of_neg`;
* `Amqp091.testBit_or_two_pow`, `Amqp091.testBit_andNot_two_pow` — setting or clearing one bit.
-/

import Amqp091.GoInt

set_option relaxedAutoImplicit false
set_option autoImplicit false

namespace Amqp091

/-! ### Bits of a natural number -/

/-- Go's bit-clear operator `x &^ y`: the bits of `x` that are not bits of `y`. -/
def andNot (x y : Nat) : Nat := x ^^^ (x &&& y)

@[simp] theorem testBit_andNot (x y i : Nat) :
    (andNot x y).testBit i = (x.testBit i && !y.testBit i) := by
  simp only [andNot, Nat.testBit_xor, Nat.testBit_and]
  cases x.testBit i <;> cases y.testBit i <;> rfl

theorem testBit_or_two_pow (x k i : Nat) :
    (x ||| 2 ^ k).testBit i = (x.testBit i || decide (k = i)) := by
  rw [Nat.testBit_or, Nat.testBit_two_pow]

theorem testBit_andNot_two_pow (x k i : Nat) :
    (andNot x (2 ^ k)).testBit i = (x.testBit i && !decide (k = i)) := by
  rw [testBit_andNot, Nat.testBit_two_pow]

/-- Clearing a bit that is not set changes nothing. -/
theorem andNot_two_pow_of_testBit {x k : Nat} (h : x.testBit k = false) : andNot x (2 ^ k) = x := by
  apply Nat.eq_of_testBit_eq
  intro i
  rw [testBit_andNot_two_pow]
  by_cases hk : k = i
  · subst hk; simp [h]
  · simp [hk]

theorem andNot_or_two_pow_of_testBit {x k : Nat} (h : x.testBit k = false) :
    andNot (x ||| 2 ^ k) (2 ^ k) = x := by
  apply Nat.eq_of_testBit_eq
  intro i
  rw [testBit_andNot_two_pow, testBit_or_two_pow]
  by_cases hk : k = i
  · subst hk; simp [h]
  · simp [hk]

/-- The first `k` bits together with bit `k` are the first `k + 1` bits. -/
theorem two_pow_sub_one_or_two_pow (k : Nat) : (2 ^ k - 1) ||| 2 ^ k = 2 ^ (k + 1) - 1 := by
  apply Nat.eq_of_testBit_eq
  intro i
  rw [testBit_or_two_pow, Nat.testBit_two_pow_sub_one, Nat.testBit_two_pow_sub_one]
  by_cases hi : i < k
  · simp [hi, show i < k + 1 by omega]
  · by_cases hk : k = i
    · simp [hk]
    · simp [hi, hk]; omega

namespace Big

/-! ### `Bit` and `SetBit` -/

/-- `x.Bit(i)`: bit `i` of `x`, as `0` or `1`.  A negative index panics. -/
def bit (x : Nat) (i : GoInt) : Option Nat :=
  if i.val < 0 then none else some (if x.testBit i.val.toNat then 1 else 0)

/-- `z.SetBit(x, i, b)`: `x` with bit `i` set to `b`; it panics on a negative index or a bad `b`. -/
def setBit (x : Nat) (i : GoInt) (b : Nat) : Option Nat :=
  if i.val < 0 then none
  else if b = 0 then some (andNot x (1 <<< i.val.toNat))
  else if b = 1 then some (x ||| 1 <<< i.val.toNat)
  else none

theorem bit_of_nonneg (x : Nat) {i : GoInt} (h : 0 ≤ i.val) :
    bit x i = some (if x.testBit i.val.toNat then 1 else 0) := by
  simp [bit, Int.not_lt.2 h]

theorem bit_of_neg (x : Nat) {i : GoInt} (h : i.val < 0) : bit x i = none := by
  simp [bit, h]

theorem setBit_one (x : Nat) {i : GoInt} (h : 0 ≤ i.val) :
    setBit x i 1 = some (x ||| 2 ^ i.val.toNat) := by
  simp [setBit, Int.not_lt.2 h, Nat.one_shiftLeft]

theorem setBit_zero (x : Nat) {i : GoInt} (h : 0 ≤ i.val) :
    setBit x i 0 = some (andNot x (2 ^ i.val.toNat)) := by
  simp [setBit, Int.not_lt.2 h, Nat.one_shiftLeft]

theorem setBit_of_neg (x : Nat) {i : GoInt} (h : i.val < 0) (b : Nat) : setBit x i b = none := by
  simp [setBit, h]

end Big

end Amqp091
