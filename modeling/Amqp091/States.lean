/-
**The reachable states, exactly.**

Every reachable state of an allocator of `[low, high]` has those bounds, its cursor between them
and no bit of the pool past `high - low`, and every state of that shape is reached from
`newAllocator low high`: `k` calls of `next` put the cursor on `low + k`
(`Amqp091.Allocator.filled`), reserving the numbers the target marks adds them, and releasing the
others removes them.  So no property holds on the reachable states that does not follow from
those three facts.

Main results:

* `Amqp091.Allocator.reachable_reserve_all`, `Amqp091.Allocator.reachable_release_all` —
  reserving or releasing a set of numbers, one call each;
* `Amqp091.Allocator.reachable_iff` — **the reachable states are exactly those with the bounds,
  a cursor in the range and no bit past it**.
-/

import Amqp091.Churn
import Amqp091.Refinement

set_option relaxedAutoImplicit false
set_option autoImplicit false

namespace Amqp091

namespace Allocator

/-- The numbers of `[low, high]` whose bit is set. -/
def markedSet (a : Allocator) : Finset Int :=
  (Finset.Icc a.low.val a.high.val).filter fun m => a.marked m

/-- A pool that marks a live set of the range has no bit past `high - low`. -/
theorem Refines.pool_lt {a : Allocator} {L : Finset Int} (hr : Refines a L) :
    a.pool < 2 ^ size a.low a.high :=
  Nat.lt_pow_two_of_testBit _ fun i hi => by
    by_contra hb
    have hm : a.marked (a.low.val + i) = true := by simpa [marked] using hb
    have := (hr.mem_range _ ((hr.marked_iff _ (by omega)).1 hm)).2
    simp only [size] at hi
    omega

/-- A pool with no bit past `high - low` marks the numbers of the range whose bit is set. -/
theorem refines_markedSet {a : Allocator} (h : a.pool < 2 ^ size a.low a.high) :
    Refines a a.markedSet := by
  refine ⟨fun m hm => ?_, fun m hm => Finset.mem_Icc.1 (Finset.mem_filter.1 hm).1⟩
  rw [markedSet, Finset.mem_filter, Finset.mem_Icc]
  refine ⟨fun hmk => ⟨⟨hm, ?_⟩, hmk⟩, fun h => h.2⟩
  by_contra hgt
  have hbit : a.pool.testBit (m - a.low.val).toNat = false := Nat.testBit_eq_false_of_lt
    (h.trans_le (Nat.pow_le_pow_right (by norm_num) (by simp only [size]; omega)))
  simp [marked, hbit] at hmk

theorem exists_index {low high : GoInt} {a : Allocator} {m : Int} (hi : Inv low high a)
    (hspan : high.val - low.val ≤ intMax) (hm : m ∈ Finset.Icc low.val high.val) :
    ∃ n : GoInt, n.val = m ∧ low ≤ n ∧ n ≤ high ∧ a.low ≤ n ∧ n.val - a.low.val ≤ intMax := by
  obtain ⟨rfl, -, -, -⟩ := hi
  have hm := Finset.mem_Icc.1 hm
  exact ⟨⟨m, a.low.min_le.trans hm.1, hm.2.trans high.le_max⟩, rfl, hm.1, hm.2, hm.1,
    show m - a.low.val ≤ intMax by omega⟩

section Build

variable {low high : GoInt} (hlh : low ≤ high) (hmax : high.val < intMax)
  (hspan : high.val - low.val ≤ intMax)
include hlh hmax hspan

theorem refines_of_reachable {a : Allocator} (ha : Reachable low high a) : ∃ L, Refines a L := by
  induction ha with
  | init => exact ⟨∅, refines_newAllocator low high⟩
  | step ha hop h ih =>
      obtain ⟨L, hr⟩ := ih
      obtain ⟨L', -, hr'⟩ := hr.exec hmax hspan (inv_of_reachable hmax hspan hlh ha) hop h
      exact ⟨L', hr'⟩

/-- One `reserve(m)` with `m` in the range adds `m` to the live set, and leaves the cursor. -/
theorem reachable_reserve {a : Allocator} {L : Finset Int} {m : Int} (ha : Reachable low high a)
    (hr : Refines a L) (hm : m ∈ Finset.Icc low.val high.val) :
    ∃ a', Reachable low high a' ∧ Refines a' (insert m L) ∧ a'.follow = a.follow := by
  have hi := inv_of_reachable hmax hspan hlh ha
  obtain ⟨n, rfl, hn₁, hn₂, h₁, h₂⟩ := exists_index hi hspan hm
  have hop : Op.InRange low high (.reserve n) := ⟨hn₁, hn₂⟩
  cases hmk : a.marked n.val with
  | true =>
      refine ⟨a, .step ha hop (r := .reserve false) (by simp [exec, reserve_of_marked h₁ h₂ hmk]),
        ?_, rfl⟩
      rwa [Finset.insert_eq_of_mem ((hr.marked_iff _ h₁).1 hmk)]
  | false =>
      exact ⟨a.mark n.val,
        .step ha hop (r := .reserve true) (by simp [exec, reserve_of_not_marked h₁ h₂ hmk]),
        hr.mark h₁ (hi.high_eq ▸ hn₂), rfl⟩

/-- One `release(m)` with `m` in the range takes `m` from the live set, and leaves the cursor. -/
theorem reachable_release {a : Allocator} {L : Finset Int} {m : Int} (ha : Reachable low high a)
    (hr : Refines a L) (hm : m ∈ Finset.Icc low.val high.val) :
    ∃ a', Reachable low high a' ∧ Refines a' (L.erase m) ∧ a'.follow = a.follow := by
  obtain ⟨n, rfl, hn₁, hn₂, h₁, h₂⟩ :=
    exists_index (inv_of_reachable hmax hspan hlh ha) hspan hm
  exact ⟨a.unmark n.val, .step ha (show Op.InRange low high (.release n) from ⟨hn₁, hn₂⟩)
    (r := .release) (by simp [exec, release_of_index h₁ h₂]), hr.unmark h₁, rfl⟩

/-- Reserving every number of a set `S` of the range adds `S` to the live set. -/
theorem reachable_reserve_all {a : Allocator} {L : Finset Int} (ha : Reachable low high a)
    (hr : Refines a L) (S : Finset Int) (hS : S ⊆ Finset.Icc low.val high.val) :
    ∃ a', Reachable low high a' ∧ Refines a' (L ∪ S) ∧ a'.follow = a.follow := by
  induction S using Finset.induction_on with
  | empty => exact ⟨a, ha, by rwa [Finset.union_empty], rfl⟩
  | @insert m S _ ih =>
      obtain ⟨a₁, ha₁, hr₁, hf₁⟩ := ih ((Finset.subset_insert m S).trans hS)
      obtain ⟨a₂, ha₂, hr₂, hf₂⟩ :=
        reachable_reserve hlh hmax hspan ha₁ hr₁ (hS (Finset.mem_insert_self m S))
      exact ⟨a₂, ha₂, by rwa [Finset.union_insert], hf₂.trans hf₁⟩

/-- Releasing every number of a set `S` of the range takes `S` from the live set. -/
theorem reachable_release_all {a : Allocator} {L : Finset Int} (ha : Reachable low high a)
    (hr : Refines a L) (S : Finset Int) (hS : S ⊆ Finset.Icc low.val high.val) :
    ∃ a', Reachable low high a' ∧ Refines a' (L \ S) ∧ a'.follow = a.follow := by
  induction S using Finset.induction_on with
  | empty => exact ⟨a, ha, by rwa [Finset.sdiff_empty], rfl⟩
  | @insert m S _ ih =>
      obtain ⟨a₁, ha₁, hr₁, hf₁⟩ := ih ((Finset.subset_insert m S).trans hS)
      obtain ⟨a₂, ha₂, hr₂, hf₂⟩ :=
        reachable_release hlh hmax hspan ha₁ hr₁ (hS (Finset.mem_insert_self m S))
      exact ⟨a₂, ha₂, by rwa [Finset.sdiff_insert], hf₂.trans hf₁⟩

/-- The first `k` calls of `next` on a fresh allocator reach `filled low high k`. -/
theorem reachable_filled : ∀ k, k ≤ size low high → Reachable low high (filled low high k)
  | 0, _ => filled_zero low high hlh ▸ .init
  | k + 1, hk => .step (reachable_filled k (by omega)) (show Op.InRange low high .next from trivial)
      (r := .next (GoInt.ofInt (low.val + k)) true) (by simp [exec, next_filled hmax hspan hk])

end Build

/-- **The reachable states, exactly**: those with the bounds `low` and `high`, the cursor in
`[low, high]`, and no bit of the pool past `high - low`. -/
theorem reachable_iff {low high : GoInt} (hlh : low ≤ high) (hmax : high.val < intMax)
    (hspan : high.val - low.val ≤ intMax) (a : Allocator) :
    Reachable low high a ↔ Inv low high a ∧ a.pool < 2 ^ size low high := by
  constructor
  · intro ha
    have hi := inv_of_reachable hmax hspan hlh ha
    obtain ⟨L, hr⟩ := refines_of_reachable hlh hmax hspan ha
    exact ⟨hi, hi.low_eq ▸ hi.high_eq ▸ hr.pool_lt⟩
  · rintro ⟨⟨rfl, rfl, hf₁, hf₂⟩, hp⟩
    -- hand out the numbers below the cursor, then set the pool to the target's
    have hk := toNat_sub_lt_size hf₁ hf₂
    have ha₀ := reachable_filled hlh hmax hspan _ hk.le
    obtain ⟨L, hr₀⟩ := refines_of_reachable hlh hmax hspan ha₀
    obtain ⟨a₁, ha₁, hr₁, hfo₁⟩ := reachable_reserve_all hlh hmax hspan ha₀ hr₀ a.markedSet
      (Finset.filter_subset _ _)
    obtain ⟨a₂, ha₂, hr₂, hfo₂⟩ := reachable_release_all hlh hmax hspan ha₁ hr₁
      (Finset.Icc a.low.val a.high.val \ a.markedSet) Finset.sdiff_subset
    have hL : (L ∪ a.markedSet) \ (Finset.Icc a.low.val a.high.val \ a.markedSet) =
        a.markedSet := by
      ext x
      simp only [Finset.mem_sdiff, Finset.mem_union]
      constructor
      · rintro ⟨hx | hx, hn⟩
        · by_contra hM
          exact hn ⟨Finset.mem_Icc.2 (by simpa using hr₀.mem_range x hx), hM⟩
        · exact hx
      · exact fun hM => ⟨.inr hM, fun h => h.2 hM⟩
    rw [hL] at hr₂
    have hi₂ := inv_of_reachable hmax hspan hlh ha₂
    have hfo : a₂.follow = a.follow := by
      rw [hfo₂, hfo₁]
      simp only [filled, if_neg (Nat.ne_of_lt hk)]
      apply GoInt.ext
      rw [GoInt.val_ofInt] <;> simp only [GoInt.le_def] at hf₁ hf₂
      · omega
      · have := a.low.val_mem; unfold intMin; omega
      · have := a.high.val_mem; unfold intMax; omega
    have heq : a₂ = a := Allocator.ext (hr₂.pool_eq (refines_markedSet hp) hi₂.low_eq) hfo
      hi₂.low_eq hi₂.high_eq
    exact heq ▸ ha₂

theorem reachable_iff_five :
    (1 : GoInt) ≤ 3 ∧ (3 : GoInt).val < intMax ∧ (3 : GoInt).val - (1 : GoInt).val ≤ intMax ∧
      (Reachable 1 3 ⟨5, 2, 1, 3⟩ ↔ Inv 1 3 ⟨5, 2, 1, 3⟩ ∧ 5 < 2 ^ size 1 3) :=
  ⟨by decide, by decide, by decide, reachable_iff (by decide) (by decide) (by decide) _⟩

end Allocator

end Amqp091
