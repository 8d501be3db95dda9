/-
**The allocator as a state machine.**

A client drives `newAllocator low high` with calls `next()`, `reserve(n)` and `release(n)`, the
numbers in `[low, high]`.  This module says once what one call does from every state that
satisfies `Amqp091.Allocator.Inv` (the bounds are those given to `newAllocator` and the cursor
lies between them), and that every reachable state does when `high < intMax` and
`high - low ≤ intMax`.  With `high = intMax` the first loop of `next` runs `follow++` past the
largest `int` and hands out the smallest one (`Amqp091.Allocator.next_past_intMax`).

Main results:

* `Amqp091.Allocator.exec_spec` — **every call returns, and does what `CallSpec` says**;
* `Amqp091.Allocator.next_of_reachable` — **in every reachable state the cursor lies in
  `[low, high]` and `next` meets `NextSpec`**.
-/

import Amqp091.Next

set_option relaxedAutoImplicit false
set_option autoImplicit false

namespace Amqp091

namespace Allocator

/-- The invariant of the states reachable from `newAllocator low high`. -/
structure Inv (low high : GoInt) (a : Allocator) : Prop where
  low_eq : a.low = low
  high_eq : a.high = high
  low_le_follow : low ≤ a.follow
  follow_le_high : a.follow ≤ high

section Step

variable {low high : GoInt} (hmax : high.val < intMax) (hspan : high.val - low.val ≤ intMax)
include hmax hspan

/-- What one call does: `next` meets `NextSpec`, `reserve(n)` marks `n` and answers `true` unless
`n` is marked, and `release(n)` unmarks `n`. -/
def CallSpec (a : Allocator) (op : Op) (r : Ret) (a' : Allocator) : Prop :=
  (op = .next ∧ ∃ n ok, r = .next n ok ∧ NextSpec a (n, ok) a') ∨
  (∃ n, op = .reserve n ∧
    (a.marked n.val = true ∧ r = .reserve false ∧ a' = a ∨
      a.marked n.val = false ∧ r = .reserve true ∧ a' = a.mark n.val)) ∨
  (∃ n, op = .release n ∧ r = .release ∧ a' = a.unmark n.val)

/-- **Every call returns, and does what `CallSpec` says**, from a state with the invariant. -/
theorem exec_spec {a : Allocator} {op : Op} (hi : Inv low high a) (hop : op.InRange low high) :
    ∃ r a', a.exec op = some (r, a') ∧ CallSpec a op r a' := by
  obtain ⟨rfl, rfl, hl, hh⟩ := hi
  cases op with
  | next =>
      obtain ⟨⟨n, ok⟩, a₁, hn, hspec⟩ := next_spec hl hh hmax hspan
      exact ⟨_, _, by simp [exec, hn], .inl ⟨rfl, n, ok, rfl, hspec⟩⟩
  | reserve n =>
      obtain ⟨hn₁, hn₂⟩ := hop
      have h₂ : n.val - a.low.val ≤ intMax := by simp at hn₂; omega
      cases hm : a.marked n.val with
      | true => exact ⟨_, _, by simp [exec, reserve_of_marked hn₁ h₂ hm],
          .inr (.inl ⟨n, rfl, .inl ⟨hm, rfl, rfl⟩⟩)⟩
      | false => exact ⟨_, _, by simp [exec, reserve_of_not_marked hn₁ h₂ hm],
          .inr (.inl ⟨n, rfl, .inr ⟨hm, rfl, rfl⟩⟩)⟩
  | release n =>
      obtain ⟨hn₁, hn₂⟩ := hop
      exact ⟨_, _, by simp [exec, release_of_index hn₁ (by simp at hn₂; omega)],
        .inr (.inr ⟨n, rfl, rfl, rfl⟩)⟩

/-- **What one call can do** from a state satisfying the invariant. -/
theorem exec_cases {a a' : Allocator} {op : Op} {r : Ret} (hi : Inv low high a)
    (hop : op.InRange low high) (h : a.exec op = some (r, a')) : CallSpec a op r a' := by
  obtain ⟨r₁, a₁, h₁, hc⟩ := exec_spec hmax hspan hi hop
  rw [h, Option.some.injEq, Prod.mk.injEq] at h₁
  obtain ⟨rfl, rfl⟩ := h₁
  exact hc

theorem Inv.exec {a a' : Allocator} {op : Op} {r : Ret} (hi : Inv low high a)
    (hop : op.InRange low high) (h : a.exec op = some (r, a')) : Inv low high a' := by
  rcases exec_cases hmax hspan hi hop h with
    ⟨-, n, ok, -, hspec⟩ | ⟨n, -, ⟨-, -, rfl⟩ | ⟨-, -, rfl⟩⟩ | ⟨n, -, -, rfl⟩
  · obtain ⟨rfl, rfl, hf₁, hf₂⟩ := hi
    simp only [GoInt.le_def] at hf₁ hf₂
    cases ok with
    | true =>
        obtain ⟨⟨hn₁, hn₂, -⟩, -, hf, hl', hh'⟩ := hspec
        refine ⟨hl', hh', ?_, ?_⟩ <;> (simp only [GoInt.le_def, hf]; split_ifs <;> omega)
    | false =>
        obtain ⟨-, -, -, hf, hl', hh'⟩ := hspec
        refine ⟨hl', hh', ?_, ?_⟩ <;> (simp only [GoInt.le_def, hf]; split_ifs <;> omega)
  all_goals exact ⟨hi.1, hi.2, hi.3, hi.4⟩

/-- Every reachable state satisfies the invariant. -/
theorem inv_of_reachable (hlh : low ≤ high) {a : Allocator} (ha : Reachable low high a) :
    Inv low high a := by
  induction ha with
  | init => exact ⟨rfl, rfl, GoInt.le_refl _, hlh⟩
  | step _ hop h ih => exact ih.exec hmax hspan hop h

end Step

/-- **`next` in every reachable state**: the cursor lies in `[low, high]`, and `next` returns as
`NextSpec` says. -/
theorem next_of_reachable {low high : GoInt} (hlh : low ≤ high) (hmax : high.val < intMax)
    (hspan : high.val - low.val ≤ intMax) {a : Allocator} (ha : Reachable low high a) :
    low ≤ a.follow ∧ a.follow ≤ high ∧ ∃ r a', a.next = some (r, a') ∧ NextSpec a r a' := by
  obtain ⟨rfl, rfl, hl, hh⟩ := inv_of_reachable hmax hspan hlh ha
  exact ⟨hl, hh, next_spec hl hh hmax hspan⟩

/-- After `next`, `next`, `release 1` on `[1, 4]`: a hole at `1` and the cursor on `3`. -/
theorem next_of_reachable_holes :
    (1 : GoInt) ≤ 4 ∧ (4 : GoInt).val < intMax ∧ (4 : GoInt).val - (1 : GoInt).val ≤ intMax ∧
      Reachable 1 4 ⟨2, 3, 1, 4⟩ ∧
      ((1 : GoInt) ≤ (⟨2, 3, 1, 4⟩ : Allocator).follow ∧ (⟨2, 3, 1, 4⟩ : Allocator).follow ≤ 4 ∧
        ∃ r a', (⟨2, 3, 1, 4⟩ : Allocator).next = some (r, a') ∧ NextSpec ⟨2, 3, 1, 4⟩ r a') := by
  have h : Reachable 1 4 ⟨2, 3, 1, 4⟩ :=
    @Reachable.step _ _ ⟨3, 3, 1, 4⟩ _ (.release 1) .release
      (@Reachable.step _ _ ⟨1, 2, 1, 4⟩ _ .next (.next 2 true)
        (@Reachable.step _ _ _ _ .next (.next 1 true) .init trivial (by decide)) trivial
        (by decide))
      (by decide) (by decide)
  exact ⟨by decide, by decide, by decide, h,
    next_of_reachable (by decide) (by decide) (by decide) h⟩

/-- **`next` wraps past the largest `int`**: on `[intMax - 1, intMax]` with both numbers taken, the
third call hands out the smallest `int` and leaves the cursor outside the range. -/
theorem next_past_intMax :
    Reachable (GoInt.max - 1) GoInt.max
        ⟨3, GoInt.max - 1, GoInt.max - 1, GoInt.max⟩ ∧
      (⟨3, GoInt.max - 1, GoInt.max - 1, GoInt.max⟩ : Allocator).reserved (GoInt.max - 1) =
        some true ∧
      (⟨3, GoInt.max - 1, GoInt.max - 1, GoInt.max⟩ : Allocator).reserved GoInt.max = some true ∧
      (⟨3, GoInt.max - 1, GoInt.max - 1, GoInt.max⟩ : Allocator).next =
        some ((GoInt.min, true), ⟨7, GoInt.min + 1, GoInt.max - 1, GoInt.max⟩) :=
  ⟨@Reachable.step _ _ _ _ .next (.next GoInt.max true)
    (@Reachable.step _ _ _ ⟨1, GoInt.max, GoInt.max - 1, GoInt.max⟩ .next
      (.next (GoInt.max - 1) true) .init trivial (by decide)) trivial (by decide),
    by decide, by decide, by decide⟩

end Allocator

end Amqp091
