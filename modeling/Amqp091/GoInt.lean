/-
**Go's `int`, as the channel-id allocator uses it.**

`src/allocator.go` keeps the bounds, the cursor, the loop variables of `String` and the bit index
`n - a.low` in Go's `int`, a 64-bit two's complement word, so `x + 1` past the largest `int` is
the smallest one.  An `int` is the integer it denotes with the proof that it lies in range, and
arithmetic is the exact operation followed by the reduction `Amqp091.wrap`.

Main results:

* `Amqp091.GoInt.val_add`, `Amqp091.GoInt.val_sub` — without overflow `+` and `-` are exact;
* `Amqp091.GoInt.val_max_add_one` — the largest `int` plus one is the smallest.
-/

import Mathlib

set_option relaxedAutoImplicit false
set_option autoImplicit false

namespace Amqp091

/-- The smallest `int`, `-2 ^ 63`. -/
def intMin : Int := -9223372036854775808

/-- The largest `int`, `2 ^ 63 - 1`. -/
def intMax : Int := 9223372036854775807

/-- The two's complement reduction of an integer into `[intMin, intMax]`. -/
def wrap (x : Int) : Int :=
  (x + 9223372036854775808) % 18446744073709551616 - 9223372036854775808

theorem intMin_le_wrap (x : Int) : intMin ≤ wrap x := by
  unfold wrap intMin; omega

theorem wrap_le_intMax (x : Int) : wrap x ≤ intMax := by
  unfold wrap intMax; omega

/-- Integers already in range are not moved. -/
theorem wrap_of_mem {x : Int} (h₁ : intMin ≤ x) (h₂ : x ≤ intMax) : wrap x = x := by
  unfold wrap; unfold intMin at h₁; unfold intMax at h₂; omega

/-- A Go `int`: the integer it denotes, in range. -/
structure GoInt where
  val : Int
  min_le : intMin ≤ val
  le_max : val ≤ intMax
deriving DecidableEq, Repr

namespace GoInt

/-- The conversion `int(x)` of an integer constant or result: reduction modulo `2 ^ 64`. -/
def ofInt (x : Int) : GoInt := ⟨wrap x, intMin_le_wrap x, wrap_le_intMax x⟩

/-- Go's `+` and `-` on `int`, which wrap on overflow. -/
instance : Add GoInt := ⟨fun x y => ofInt (x.val + y.val)⟩

instance : Sub GoInt := ⟨fun x y => ofInt (x.val - y.val)⟩

instance (n : Nat) : OfNat GoInt n := ⟨ofInt n⟩

/-- The smallest and the largest `int`. -/
def min : GoInt := ⟨intMin, Int.le_refl _, by decide⟩
def max : GoInt := ⟨intMax, by decide, Int.le_refl _⟩

instance : LE GoInt := ⟨fun x y => x.val ≤ y.val⟩
instance : LT GoInt := ⟨fun x y => x.val < y.val⟩

instance (x y : GoInt) : Decidable (x ≤ y) := inferInstanceAs (Decidable (x.val ≤ y.val))
instance (x y : GoInt) : Decidable (x < y) := inferInstanceAs (Decidable (x.val < y.val))

/-- Go's `%d`: the decimal digits of the integer, with a leading `-` when negative. -/
instance : ToString GoInt := ⟨fun x => toString x.val⟩

@[simp] theorem toString_eq (x : GoInt) : toString x = toString x.val := rfl

@[ext] theorem ext {x y : GoInt} (h : x.val = y.val) : x = y := by
  cases x; cases y; cases h; rfl

@[simp] theorem le_def {x y : GoInt} : x ≤ y ↔ x.val ≤ y.val := Iff.rfl

@[simp] theorem lt_def {x y : GoInt} : x < y ↔ x.val < y.val := Iff.rfl

theorem le_refl (x : GoInt) : x ≤ x := Int.le_refl x.val

/-- The bounds of an `int` as literals, the form `omega` reads. -/
theorem val_mem (x : GoInt) :
    -9223372036854775808 ≤ x.val ∧ x.val ≤ 9223372036854775807 :=
  ⟨x.min_le, x.le_max⟩

theorem val_ofInt {x : Int} (h₁ : intMin ≤ x) (h₂ : x ≤ intMax) : (ofInt x).val = x :=
  wrap_of_mem h₁ h₂

theorem val_sub_eq_wrap (x y : GoInt) : (x - y).val = wrap (x.val - y.val) := rfl

@[simp] theorem ofInt_val (x : GoInt) : ofInt x.val = x := ext (val_ofInt x.min_le x.le_max)

@[simp] theorem val_zero : (0 : GoInt).val = 0 := rfl

@[simp] theorem val_one : (1 : GoInt).val = 1 := rfl

@[simp] theorem val_min : min.val = intMin := rfl

@[simp] theorem val_max : max.val = intMax := rfl

theorem val_add {x y : GoInt} (h₁ : intMin ≤ x.val + y.val) (h₂ : x.val + y.val ≤ intMax) :
    (x + y).val = x.val + y.val :=
  val_ofInt h₁ h₂

theorem val_sub {x y : GoInt} (h₁ : intMin ≤ x.val - y.val) (h₂ : x.val - y.val ≤ intMax) :
    (x - y).val = x.val - y.val :=
  val_ofInt h₁ h₂

theorem val_add_one {x : GoInt} (h : x.val < intMax) : (x + 1).val = x.val + 1 := by
  have := x.val_mem
  exact val_add (by unfold intMin; simp; omega) (by simpa using h)

theorem val_sub_one {x : GoInt} (h : intMin < x.val) : (x - 1).val = x.val - 1 := by
  have := x.val_mem
  exact val_sub (by simp; omega) (by unfold intMax; simp; omega)

/-- **The overflow of `follow++`**: the largest `int` plus one is the smallest. -/
theorem val_max_add_one : (max + 1).val = intMin := by decide

end GoInt

end Amqp091
