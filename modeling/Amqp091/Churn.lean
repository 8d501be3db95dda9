/-
**Open, close, open, close: the ids go round the range.**

`TestIntegrationHighChannelChurnInTightLoop` and each goroutine of
`TestChannelCounterShouldNotPanicIssue136` open and close a channel many times in a row; on the
allocator a round is `next`, then `release` of the number it returned.  Because the deferred
update moves the cursor past the number handed out, round `i` from a cursor `f` on a free range
takes `low + (f - low + i) mod (high - low + 1)` and leaves the pool as it found it.

Main results:

* `Amqp091.Allocator.churn_eq` — **every number of rounds succeeds, and the rounds take the
  numbers of the range in cyclic order**;
* `Amqp091.Allocator.churn_nodup_iff` — **`k` rounds take `k` different numbers exactly when
  `k ≤ high - low + 1`**.
-/

import Amqp091.Fresh

set_option relaxedAutoImplicit false
set_option autoImplicit false

namespace Amqp091

namespace Allocator

/-- `k` rounds of the churn loop of the tests: take a number with `next` and release it at once;
`none` when a call panics or `next` reports exhaustion, which fails the test. -/
def churn : Nat → Allocator → Option (List GoInt × Allocator)
  | 0, a => some ([], a)
  | k + 1, a => do
    let ((n, ok), a) ← a.next
    if ok then
      let a ← a.release n
      let (ns, a) ← churn k a
      return (n :: ns, a)
    else none

/-- The `i`-th number from `f` in the cyclic order `low, …, high, low, …` of the range. -/
def cycle (low high f : GoInt) (i : Nat) : GoInt :=
  GoInt.ofInt (low.val + (((f.val - low.val).toNat + i) % size low high : Nat))

/-! ### The cyclic order -/

section Cycle

variable {low high f : GoInt} (hf₁ : low ≤ f) (hf₂ : f ≤ high)
include hf₁ hf₂

theorem size_pos : 0 < size low high := by
  simp only [size, GoInt.le_def] at hf₁ hf₂ ⊢; omega

theorem toNat_sub_lt_size : (f.val - low.val).toNat < size low high := by
  simp only [size, GoInt.le_def] at hf₁ hf₂ ⊢; omega

theorem size_eq : (size low high : Int) = high.val - low.val + 1 := by
  simp only [size, GoInt.le_def] at hf₁ hf₂ ⊢; omega

theorem offset_lt_size (i : Nat) :
    ((((f.val - low.val).toNat + i) % size low high : Nat) : Int) < size low high :=
  Int.ofNat_lt.2 (Nat.mod_lt _ (size_pos hf₁ hf₂))

theorem val_cycle (i : Nat) :
    (cycle low high f i).val = low.val + (((f.val - low.val).toNat + i) % size low high : Nat) := by
  have hlt := offset_lt_size hf₁ hf₂ i
  have hS := size_eq hf₁ hf₂
  have := low.val_mem
  have := high.val_mem
  exact GoInt.val_ofInt (by unfold intMin; omega) (by unfold intMax; omega)

theorem cycle_mem (i : Nat) : low ≤ cycle low high f i ∧ cycle low high f i ≤ high := by
  have hlt := offset_lt_size hf₁ hf₂ i
  have hS := size_eq hf₁ hf₂
  simp only [GoInt.le_def, val_cycle hf₁ hf₂]
  omega

theorem cycle_zero : cycle low high f 0 = f := by
  apply GoInt.ext
  rw [val_cycle hf₁ hf₂, Nat.add_zero, Nat.mod_eq_of_lt (toNat_sub_lt_size hf₁ hf₂)]
  simp only [GoInt.le_def] at hf₁; omega

theorem cycle_cycle (j i : Nat) :
    cycle low high (cycle low high f j) i = cycle low high f (j + i) := by
  obtain ⟨hc₁, hc₂⟩ := cycle_mem hf₁ hf₂ j
  apply GoInt.ext
  rw [val_cycle hc₁ hc₂, val_cycle hf₁ hf₂, val_cycle hf₁ hf₂,
    show (low.val + (((f.val - low.val).toNat + j) % size low high : Nat) - low.val).toNat =
      ((f.val - low.val).toNat + j) % size low high by omega, Nat.mod_add_mod, Nat.add_assoc]

/-- One step of the cyclic order is the cursor update of `next`. -/
theorem val_cycle_one :
    (cycle low high f 1).val = if f.val = high.val then low.val else f.val + 1 := by
  have hlt := toNat_sub_lt_size hf₁ hf₂
  rw [val_cycle hf₁ hf₂]
  simp only [size, GoInt.le_def] at hf₁ hf₂ hlt ⊢
  split_ifs with h
  · rw [show (f.val - low.val).toNat + 1 = (high.val - low.val + 1).toNat by omega, Nat.mod_self]
    omega
  · rw [Nat.mod_eq_of_lt (by omega)]
    omega

/-- Two positions give the same number exactly when they agree modulo the size of the range. -/
theorem cycle_eq_cycle_iff {i j : Nat} :
    cycle low high f i = cycle low high f j ↔ i % size low high = j % size low high := by
  rw [show cycle low high f i = cycle low high f j ↔
      (cycle low high f i).val = (cycle low high f j).val from ⟨congrArg _, GoInt.ext⟩,
    val_cycle hf₁ hf₂, val_cycle hf₁ hf₂, add_right_inj, Nat.cast_inj]
  exact ⟨Nat.ModEq.add_left_cancel' _, Nat.ModEq.add_left _⟩

end Cycle

/-! ### One round, and every number of rounds -/

/-- **One round from a free cursor**: `next` takes the number under the cursor, `release` gives
it back, and the allocator is as before with its cursor moved on. -/
theorem churn_succ {a : Allocator} (k : Nat) (h₁ : a.low ≤ a.follow) (h₂ : a.follow ≤ a.high)
    (hidx : a.follow.val - a.low.val ≤ intMax) (hm : a.marked a.follow.val = false) :
    a.churn (k + 1) = ((advance a).churn k).map fun (ns, b) => (a.follow :: ns, b) := by
  have hrel : (advance (a.mark a.follow.val)).release a.follow = some (advance a) := by
    rw [release_of_index (by simpa using h₁) (by simpa using hidx), advance_unmark,
      unmark_mark hm]
  cases hk : (advance a).churn k <;> simp [churn, next_of_follow_free h₁ h₂ hidx hm, hrel, hk]

section Rounds

variable {a : Allocator} (hmax : a.high.val < intMax) (hspan : a.high.val - a.low.val ≤ intMax)
  (hfree : ∀ m, a.low.val ≤ m → m ≤ a.high.val → a.marked m = false)
include hmax hspan hfree

/-- The rounds from every cursor of the range, with the pool of `a`. -/
theorem churn_setFollow : ∀ (k : Nat) (f : GoInt), a.low ≤ f → f ≤ a.high →
    ({ a with follow := f } : Allocator).churn k =
      some ((List.range k).map (cycle a.low a.high f), { a with follow := cycle a.low a.high f k })
  | 0, f, hf₁, hf₂ => by rw [cycle_zero hf₁ hf₂]; rfl
  | k + 1, f, hf₁, hf₂ => by
      have hnext : advance ({ a with follow := f } : Allocator) =
          { a with follow := cycle a.low a.high f 1 } :=
        Allocator.ext (by simp)
          (GoInt.ext (by rw [advance_follow_val (by simp at hf₂ ⊢; omega), val_cycle_one hf₁ hf₂]))
          (by simp) (by simp)
      obtain ⟨hc₁, hc₂⟩ := cycle_mem hf₁ hf₂ 1
      rw [churn_succ (a := { a with follow := f }) k hf₁ hf₂ (by simp at hf₂ ⊢; omega)
          (hfree f.val hf₁ hf₂), hnext,
        churn_setFollow k _ hc₁ hc₂, Option.map_some', cycle_cycle hf₁ hf₂, Nat.add_comm 1 k,
        List.range_succ_eq_map, List.map_cons, List.map_map, cycle_zero hf₁ hf₂]
      have hl : (List.range k).map (cycle a.low a.high (cycle a.low a.high f 1)) =
          (List.range k).map (cycle a.low a.high f ∘ Nat.succ) :=
        List.map_congr_left fun i _ => by
          rw [Function.comp_apply, cycle_cycle hf₁ hf₂, Nat.add_comm]
      rw [hl]

/-- **Churn goes round the range.**  From every allocator with its cursor in range and no number
reserved, `k` rounds succeed, take the numbers in cyclic order from the cursor, and leave the
pool as it was. -/
theorem churn_eq (k : Nat) (h₁ : a.low ≤ a.follow) (h₂ : a.follow ≤ a.high) :
    a.churn k = some ((List.range k).map (cycle a.low a.high a.follow),
      { a with follow := cycle a.low a.high a.follow k }) :=
  churn_setFollow hmax hspan hfree k a.follow h₁ h₂

/-- **No number comes back before the range is used up.** -/
theorem churn_nodup_iff (k : Nat) (h₁ : a.low ≤ a.follow) (h₂ : a.follow ≤ a.high) :
    ∃ ns b, a.churn k = some (ns, b) ∧ (ns.Nodup ↔ k ≤ size a.low a.high) := by
  refine ⟨_, _, churn_eq hmax hspan hfree k h₁ h₂, ⟨fun hnd => ?_, fun hk => ?_⟩⟩
  · by_contra hk
    have h0 := List.inj_on_of_nodup_map hnd (x := 0) (y := size a.low a.high)
      (List.mem_range.2 (by omega)) (List.mem_range.2 (by omega))
      ((cycle_eq_cycle_iff h₁ h₂).2 (by simp))
    exact absurd h0 (Nat.ne_of_lt (size_pos h₁ h₂))
  · refine (List.nodup_range k).map_on fun i hi j hj hij => ?_
    rw [cycle_eq_cycle_iff h₁ h₂, Nat.mod_eq_of_lt (by simp at hi; omega),
      Nat.mod_eq_of_lt (by simp at hj; omega)] at hij
    exact hij

end Rounds

theorem churn_eq_five :
    (3 : GoInt).val < intMax ∧ (3 : GoInt).val - (1 : GoInt).val ≤ intMax ∧
      (∀ m, (1 : GoInt).val ≤ m → m ≤ (3 : GoInt).val → (newAllocator 1 3).marked m = false) ∧
      (1 : GoInt) ≤ 1 ∧ (1 : GoInt) ≤ 3 ∧
      (newAllocator 1 3).churn 5 = some ((List.range 5).map (cycle 1 3 1),
        { newAllocator 1 3 with follow := cycle 1 3 1 5 }) :=
  ⟨by decide, by decide, fun _ _ _ => Nat.zero_testBit _, by decide, by decide,
    churn_eq (a := newAllocator 1 3) (by decide) (by decide) (fun _ _ _ => Nat.zero_testBit _) 5
      (by decide) (by decide)⟩

theorem churn_nodup_iff_four :
    (3 : GoInt).val < intMax ∧ (3 : GoInt).val - (1 : GoInt).val ≤ intMax ∧
      (∀ m, (1 : GoInt).val ≤ m → m ≤ (3 : GoInt).val → (newAllocator 1 3).marked m = false) ∧
      (1 : GoInt) ≤ 1 ∧ (1 : GoInt) ≤ 3 ∧
      ∃ ns b, (newAllocator 1 3).churn 4 = some (ns, b) ∧ (ns.Nodup ↔ 4 ≤ size 1 3) :=
  ⟨by decide, by decide, fun _ _ _ => Nat.zero_testBit _, by decide, by decide,
    churn_nodup_iff (a := newAllocator 1 3) (by decide) (by decide)
      (fun _ _ _ => Nat.zero_testBit _) 4 (by decide) (by decide)⟩

end Allocator

end Amqp091
