/-
**The allocator implements a set of live numbers.**

What an allocator is for: it keeps a set `L` of live numbers inside `[low, high]`, starting empty.
`next()` adds a number of the range that is not live, and may fail only when every number is
live; `reserve(n)` adds `n`, saying whether it was missing; `release(n)` removes `n`
(`Amqp091.AbsStep`).  The code refines this model: the pool marks exactly the live numbers
(`Amqp091.Allocator.Refines`), and every call is simulated by one abstract step, from
`newAllocator low high` with `low ≤ high < intMax` and `high - low ≤ intMax`.

Main results:

* `Amqp091.Allocator.Refines.exec` — **one call is simulated by one abstract step**;
* `Amqp091.Allocator.newAllocator_refines` — **the allocator refines the abstract one from its
  creation, and no call faults**;
* `Amqp091.Allocator.reserve_index_overflow` — without `high - low ≤ intMax` a call faults.
-/

import Amqp091.Reachable

set_option relaxedAutoImplicit false
set_option autoImplicit false

namespace Amqp091

/-! ### The abstract allocator -/

/-- What one call may do to the live set `L` of an allocator of `[low, high]`, and answer. -/
inductive AbsStep (low high : Int) : Finset Int → Op → Ret → Finset Int → Prop
  | next_fresh {L : Finset Int} {n : GoInt} : low ≤ n.val → n.val ≤ high → n.val ∉ L →
      AbsStep low high L .next (.next n true) (insert n.val L)
  | next_full {L : Finset Int} {n : GoInt} : L = Finset.Icc low high →
      AbsStep low high L .next (.next n false) L
  | reserve {L : Finset Int} {n : GoInt} :
      AbsStep low high L (.reserve n) (.reserve (decide (n.val ∉ L))) (insert n.val L)
  | release {L : Finset Int} {n : GoInt} :
      AbsStep low high L (.release n) .release (L.erase n.val)

/-- A run of the abstract allocator: the calls, their answers, and the live set at the end. -/
inductive AbsRun (low high : Int) : Finset Int → List Op → List Ret → Finset Int → Prop
  | nil {L : Finset Int} : AbsRun low high L [] [] L
  | cons {L L' L'' : Finset Int} {op : Op} {r : Ret} {ops : List Op} {rs : List Ret} :
      AbsStep low high L op r L' → AbsRun low high L' ops rs L'' →
      AbsRun low high L (op :: ops) (r :: rs) L''

namespace Allocator

/-! ### The refinement relation -/

/-- The state `a` implements the live set `L`: a number at or above `low` is marked exactly when it
is live, and every live number lies in `[low, high]`. -/
structure Refines (a : Allocator) (L : Finset Int) : Prop where
  marked_iff : ∀ m, a.low.val ≤ m → (a.marked m = true ↔ m ∈ L)
  mem_range : ∀ m ∈ L, a.low.val ≤ m ∧ m ≤ a.high.val

theorem refines_newAllocator (low high : GoInt) : Refines (newAllocator low high) ∅ :=
  ⟨fun m _ => by simp [marked, newAllocator], by simp⟩

/-- **`reserved(m)` answers membership** for every `m` at or above `low`. -/
theorem Refines.reserved_iff {a : Allocator} {L : Finset Int} (h : Refines a L)
    (hspan : a.high.val - a.low.val ≤ intMax) (m : GoInt) (hm : a.low ≤ m) :
    a.reserved m = some true ↔ m.val ∈ L := by
  by_cases h₂ : m.val - a.low.val ≤ intMax
  · rw [reserved_of_index hm h₂, Option.some_inj]
    exact h.marked_iff m.val hm
  · have hneg : (m - a.low).val < 0 := by
      have := m.val_mem; have := a.low.val_mem
      rw [GoInt.val_sub_eq_wrap]; unfold wrap; unfold intMax at h₂; omega
    rw [(reserved_eq_none_iff a m).2 hneg]
    exact ⟨fun h => by simp at h, fun hL => absurd (h.mem_range _ hL).2 (by omega)⟩

theorem Refines.congr {a b : Allocator} {L : Finset Int} (h : Refines a L) (hp : b.pool = a.pool)
    (hl : b.low = a.low) (hh : b.high = a.high) : Refines b L :=
  ⟨fun m hm => by rw [marked_congr hp hl]; exact h.marked_iff m (hl ▸ hm),
    fun m hm => hl ▸ hh ▸ h.mem_range m hm⟩

theorem Refines.mark {a : Allocator} {L : Finset Int} {n : Int} (h : Refines a L)
    (hn₁ : a.low.val ≤ n) (hn₂ : n ≤ a.high.val) : Refines (a.mark n) (insert n L) := by
  refine ⟨fun m hm => ?_, fun m hm => ?_⟩
  · rw [marked_mark a hn₁ hm]
    simp [h.marked_iff m hm, or_comm]
  · rcases Finset.mem_insert.1 hm with rfl | hm
    · exact ⟨hn₁, hn₂⟩
    · exact h.mem_range m hm

theorem Refines.unmark {a : Allocator} {L : Finset Int} {n : Int} (h : Refines a L)
    (hn : a.low.val ≤ n) : Refines (a.unmark n) (L.erase n) :=
  ⟨fun m hm => by rw [marked_unmark a hn hm]; simp [h.marked_iff m hm, and_comm],
    fun m hm => h.mem_range m (Finset.mem_of_mem_erase hm)⟩

/-- The pool is a function of the live set. -/
theorem Refines.pool_eq {a b : Allocator} {L : Finset Int} (ha : Refines a L) (hb : Refines b L)
    (hl : a.low = b.low) : a.pool = b.pool :=
  Nat.eq_of_testBit_eq fun i => by
    have hm : a.low.val ≤ a.low.val + i := by omega
    have h := (ha.marked_iff _ hm).trans (hb.marked_iff _ (hl ▸ hm)).symm
    simpa [marked, hl] using Bool.eq_iff_iff.2 h

section Step

variable {low high : GoInt} (hmax : high.val < intMax) (hspan : high.val - low.val ≤ intMax)
include hmax hspan

/-- **One call is simulated by one abstract step.** -/
theorem Refines.exec {a a' : Allocator} {L : Finset Int} {op : Op} {r : Ret}
    (hi : Inv low high a) (hr : Refines a L) (hop : op.InRange low high)
    (h : a.exec op = some (r, a')) : ∃ L', AbsStep low.val high.val L op r L' ∧ Refines a' L' := by
  have hi' := hi
  obtain ⟨rfl, rfl, -, -⟩ := hi'
  rcases exec_cases hmax hspan hi hop h with
    ⟨rfl, n, ok, rfl, hspec⟩ | ⟨n, rfl, ⟨hm, rfl, rfl⟩ | ⟨hm, rfl, rfl⟩⟩ | ⟨n, rfl, rfl, rfl⟩
  · cases ok with
    | true =>
        obtain ⟨⟨hn₁, hn₂, hfree, -⟩, hp, -, hl, hh⟩ := hspec
        have hnL : n.val ∉ L := fun hL => by simp [(hr.marked_iff _ hn₁).2 hL] at hfree
        exact ⟨_, .next_fresh hn₁ hn₂ hnL, (hr.mark hn₁ hn₂).congr hp hl hh⟩
    | false =>
        obtain ⟨hall, -, hp, -, hl, hh⟩ := hspec
        refine ⟨L, .next_full ?_, hr.congr hp hl hh⟩
        ext m
        simp only [Finset.mem_Icc]
        exact ⟨hr.mem_range m, fun hm => (hr.marked_iff m hm.1).1 (hall m hm.1 hm.2)⟩
  · have hnL : n.val ∈ L := (hr.marked_iff _ hop.1).1 hm
    have hd : decide (n.val ∉ L) = false := by simp [hnL]
    exact ⟨insert n.val L, hd ▸ .reserve, by rwa [Finset.insert_eq_of_mem hnL]⟩
  · have hnL : n.val ∉ L := fun hL => by simp [(hr.marked_iff _ hop.1).2 hL] at hm
    have hd : decide (n.val ∉ L) = true := by simp [hnL]
    exact ⟨insert n.val L, hd ▸ .reserve, hr.mark hop.1 hop.2⟩
  · exact ⟨L.erase n.val, .release, hr.unmark hop.1⟩

/-- **A sequence of calls is simulated by an abstract run**, and none of the calls faults. -/
theorem run_refines : ∀ (ops : List Op) (a : Allocator) (L : Finset Int),
    Inv low high a → Refines a L → (∀ op ∈ ops, op.InRange low high) →
    ∃ rs a' L', a.run ops = some (rs, a') ∧ AbsRun low.val high.val L ops rs L' ∧
      Inv low high a' ∧ Refines a' L'
  | [], a, L, hi, hr, _ => ⟨[], a, L, rfl, .nil, hi, hr⟩
  | op :: ops, a, L, hi, hr, hops => by
      have hop := hops op (List.mem_cons_self _ _)
      obtain ⟨r, a₁, h, -⟩ := exec_spec hmax hspan hi hop
      obtain ⟨L₁, hstep, hr₁⟩ := hr.exec hmax hspan hi hop h
      obtain ⟨rs, a', L', hrun, habs, hi', hr'⟩ := run_refines ops a₁ L₁ (hi.exec hmax hspan hop h)
        hr₁ (fun op' h' => hops op' (List.mem_cons_of_mem _ h'))
      exact ⟨r :: rs, a', L', by simp [run, h, hrun], .cons hstep habs, hi', hr'⟩

end Step

/-- **The allocator refines a set of live numbers**: every sequence of calls in `[low, high]` on
`newAllocator low high` returns, its answers are an abstract run from `∅`, and `reserved`
answers membership in the final live set. -/
theorem newAllocator_refines {low high : GoInt} (hlh : low ≤ high) (hmax : high.val < intMax)
    (hspan : high.val - low.val ≤ intMax) (ops : List Op)
    (hops : ∀ op ∈ ops, op.InRange low high) :
    ∃ rs a L, (newAllocator low high).run ops = some (rs, a) ∧
      AbsRun low.val high.val ∅ ops rs L ∧
      ∀ m : GoInt, low ≤ m → (a.reserved m = some true ↔ m.val ∈ L) := by
  obtain ⟨rs, a, L, hrun, habs, hi, hr⟩ := run_refines hmax hspan ops _ _
    ⟨rfl, rfl, GoInt.le_refl _, hlh⟩ (refines_newAllocator low high) hops
  refine ⟨rs, a, L, hrun, habs, fun m hm => ?_⟩
  obtain ⟨hl, hh, -, -⟩ := hi
  exact hr.reserved_iff (by rw [hl, hh]; exact hspan) m (hl ▸ hm)

theorem newAllocator_refines_example :
    (1 : GoInt) ≤ 3 ∧ (3 : GoInt).val < intMax ∧ (3 : GoInt).val - (1 : GoInt).val ≤ intMax ∧
      (∀ op ∈ [Op.next, .reserve 2, .release 1], op.InRange 1 3) ∧
      ∃ rs a L, (newAllocator 1 3).run [.next, .reserve 2, .release 1] = some (rs, a) ∧
        AbsRun (1 : GoInt).val (3 : GoInt).val ∅ [.next, .reserve 2, .release 1] rs L ∧
        ∀ m : GoInt, 1 ≤ m → (a.reserved m = some true ↔ m.val ∈ L) :=
  ⟨by decide, by decide, by decide, by decide,
    newAllocator_refines (by decide) (by decide) (by decide) _ (by decide)⟩

/-- **The bit index overflows**: on `[-2, intMax - 1]`, `reserve(high)` computes the index
`2 ^ 63`, which wraps to the smallest `int`, and `math/big` panics. -/
theorem reserve_index_overflow :
    GoInt.ofInt (-2) ≤ GoInt.max - 1 ∧ (GoInt.max - 1).val < intMax ∧
      (Op.reserve (GoInt.max - 1)).InRange (GoInt.ofInt (-2)) (GoInt.max - 1) ∧
      (newAllocator (GoInt.ofInt (-2)) (GoInt.max - 1)).run [.reserve (GoInt.max - 1)] = none :=
  ⟨by decide, by decide, by decide, by decide⟩

end Allocator

end Amqp091
