/-
**Every free number is handed out.**

Every call of `next` that succeeds takes the first free number in the cyclic order from its
cursor, so repeated calls cannot pass over a free number for ever: from every state with the
invariant, a free number is handed out by one of the next `k` calls, `k` the number of free
numbers.  The measure is the free set, which each successful call shrinks by one.

Main results:

* `Amqp091.Allocator.freeSet_of_next` — a successful `next` removes exactly the number it hands
  out from the free set;
* `Amqp091.Allocator.run_next_hands_out` — **a free number is handed out within as many calls of
  `next` as there are free numbers**.
-/

import Amqp091.Reachable

set_option relaxedAutoImplicit false
set_option autoImplicit false

namespace Amqp091

namespace Allocator

/-- The numbers of `[low, high]` whose bit is clear. -/
def freeSet (a : Allocator) : Finset Int :=
  (Finset.Icc a.low.val a.high.val).filter fun m => a.marked m = false

theorem mem_freeSet {a : Allocator} {m : Int} :
    m ∈ a.freeSet ↔ a.low.val ≤ m ∧ m ≤ a.high.val ∧ a.marked m = false := by
  simp [freeSet, and_assoc]

section Live

variable {low high : GoInt} (hmax : high.val < intMax) (hspan : high.val - low.val ≤ intMax)
include hmax hspan

/-- A call of `next` that hands out `m` takes `m` out of the free set, and nothing else. -/
theorem freeSet_of_next {a a' : Allocator} {m : GoInt} (hi : Inv low high a)
    (h : a.next = some ((m, true), a')) :
    m.val ∈ a.freeSet ∧ a'.freeSet = a.freeSet.erase m.val := by
  obtain ⟨rfl, rfl, hl, hh⟩ := hi
  obtain ⟨⟨hm₁, hm₂, hfree, -⟩, hp, -, hl', hh'⟩ := nextSpec_of_next hl hh hmax hspan h
  refine ⟨mem_freeSet.2 ⟨hm₁, hm₂, hfree⟩, Finset.ext fun x => ?_⟩
  rw [mem_freeSet, Finset.mem_erase, mem_freeSet, hl', hh']
  constructor
  · rintro ⟨hx₁, hx₂, hx⟩
    rw [marked_congr (b := a.mark m.val) hp hl', marked_mark a hm₁ hx₁] at hx
    simp only [Bool.or_eq_false_iff, decide_eq_false_iff_not] at hx
    exact ⟨hx.2, hx₁, hx₂, hx.1⟩
  · rintro ⟨hne, hx₁, hx₂, hx⟩
    rw [marked_congr (b := a.mark m.val) hp hl', marked_mark a hm₁ hx₁]
    simp [hx₁, hx₂, hx, hne]

/-- While some number of the range is free, `next` succeeds. -/
theorem next_of_mem_freeSet {a : Allocator} {n : Int} (hi : Inv low high a)
    (hn : n ∈ a.freeSet) : ∃ m a', a.next = some ((m, true), a') := by
  obtain ⟨rfl, rfl, hl, hh⟩ := hi
  obtain ⟨⟨m, ok⟩, a', h, hspec⟩ := next_spec hl hh hmax hspan
  obtain ⟨hn₁, hn₂, hfree⟩ := mem_freeSet.1 hn
  cases ok with
  | true => exact ⟨m, a', h⟩
  | false => simp [hspec.1 n hn₁ hn₂] at hfree

/-- **A free number is handed out within as many calls of `next` as there are free numbers.** -/
theorem run_next_hands_out {a : Allocator} {n : GoInt} (hi : Inv low high a)
    (hn : n.val ∈ a.freeSet) :
    ∃ j < a.freeSet.card, ∃ rs a',
      a.run (List.replicate (j + 1) .next) = some (rs ++ [.next n true], a') := by
  obtain ⟨k, hk⟩ : ∃ k, a.freeSet.card = k := ⟨_, rfl⟩
  rw [hk]
  induction k generalizing a with
  | zero => exact absurd hn (by rw [Finset.card_eq_zero.1 hk]; exact Finset.not_mem_empty _)
  | succ k ih =>
      obtain ⟨m, a', h⟩ := next_of_mem_freeSet hmax hspan hi hn
      have hexec : a.exec .next = some (.next m true, a') := by simp [exec, h]
      obtain ⟨hm, hfree⟩ := freeSet_of_next hmax hspan hi h
      by_cases hmn : m = n
      · subst hmn
        exact ⟨0, Nat.succ_pos _, [], a', by simp [run, hexec]⟩
      · have hn' : n.val ∈ a'.freeSet :=
          hfree ▸ Finset.mem_erase.2 ⟨fun he => hmn (GoInt.ext he.symm), hn⟩
        have hk' : a'.freeSet.card = k := by rw [hfree, Finset.card_erase_of_mem hm, hk]; rfl
        obtain ⟨j, hj, rs, a'', hrun⟩ :=
          ih (hi.exec hmax hspan (show Op.InRange low high .next from trivial) hexec) hn' hk'
        exact ⟨j + 1, by omega, .next m true :: rs, a'',
          by rw [List.replicate_succ, run, hexec]; simp only [bind, Option.bind, hrun]; rfl⟩

end Live

theorem run_next_hands_out_three :
    (3 : GoInt).val < intMax ∧ (3 : GoInt).val - (1 : GoInt).val ≤ intMax ∧
      Inv 1 3 (newAllocator 1 3) ∧ (3 : GoInt).val ∈ (newAllocator 1 3).freeSet ∧
      ∃ j < (newAllocator 1 3).freeSet.card, ∃ rs a',
        (newAllocator 1 3).run (List.replicate (j + 1) .next) = some (rs ++ [.next 3 true], a') :=
  ⟨by decide, by decide, ⟨rfl, rfl, by decide, by decide⟩,
    mem_freeSet.2 ⟨by decide, by decide, by decide⟩,
    run_next_hands_out (by decide) (by decide) ⟨rfl, rfl, by decide, by decide⟩
      (mem_freeSet.2 ⟨by decide, by decide, by decide⟩)⟩

end Allocator

end Amqp091
