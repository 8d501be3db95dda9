/-
**Which number `next` hands out.**

`next` searches the range in the cyclic order `follow, …, high, low, …, follow - 1` and reserves
the first number whose bit is clear.  This module proves that the code does exactly that from
every state whose cursor lies in `[low, high]`, when `high < intMax` (so `follow++` does not wrap)
and `high - low ≤ intMax` (so no bit index overflows), and what `next` touches in every state.

Main results:

* `Amqp091.Allocator.scan_spec` — the loop invariant of both loops of `next`;
* `Amqp091.Allocator.next_spec`, `Amqp091.Allocator.next_eq_some_iff` — **`next` does exactly
  what `NextSpec` says** from any state with its cursor in range;
* `Amqp091.Allocator.next_frame` — in every state `next` sets the bit it hands out and no other;
* `Amqp091.Allocator.run_next_next_of_lt` — on an empty range the second call hands out `low`.
-/

import Amqp091.Fuel
import Amqp091.Pool

set_option relaxedAutoImplicit false
set_option autoImplicit false

namespace Amqp091

namespace Allocator

@[simp] theorem mark_setFollow (a : Allocator) (f : GoInt) (m : Int) :
    ({ a with follow := f } : Allocator).mark m = { a.mark m with follow := f } := rfl

/-! ### The scanning loop -/

/-- How a loop of `next` with condition `follow < bound` ends: it reserved the first number from
`a.follow` on whose bit is clear, or every number of `[a.follow, bound)` is marked. -/
def ScanSpec (a : Allocator) (bound : GoInt) : Scan → Prop
  | .found n a' =>
      a.follow ≤ n ∧ n < bound ∧ (∀ m, a.follow.val ≤ m → m < n.val → a.marked m = true) ∧
        a.marked n.val = false ∧ a' = { a.mark n.val with follow := n }
  | .done a' => (∀ m, a.follow.val ≤ m → m < bound.val → a.marked m = true) ∧
      a' = { a with follow := bound }

theorem ScanSpec.cons {a : Allocator} {bound : GoInt} {s : Scan} {f : GoInt}
    (hf : f.val = a.follow.val + 1) (hm : a.marked a.follow.val = true)
    (h : ScanSpec { a with follow := f } bound s) : ScanSpec a bound s := by
  cases s with
  | found n a' =>
      obtain ⟨h₁, h₂, h₃, h₄, rfl⟩ := h
      refine ⟨by simp at h₁ ⊢; omega, h₂, fun m hm₁ hm₂ => ?_, h₄, rfl⟩
      obtain hlt | rfl : a.follow.val < m ∨ a.follow.val = m := by omega
      · exact h₃ m (by simp; omega) hm₂
      · exact hm
  | done a' =>
      obtain ⟨h₁, rfl⟩ := h
      refine ⟨fun m hm₁ hm₂ => ?_, rfl⟩
      obtain hlt | rfl : a.follow.val < m ∨ a.follow.val = m := by omega
      · exact h₁ m (by simp; omega) hm₂
      · exact hm

/-- **The loop invariant of `next`'s loops.**  With enough fuel, a loop whose condition is
`follow < bound`, started at a cursor in `[low, bound]`, returns as `ScanSpec` says. -/
theorem scan_spec (cond : GoInt → Bool) (bound : GoInt)
    (hcond : ∀ f : GoInt, cond f = decide (f.val < bound.val)) :
    ∀ (fuel : Nat) (a : Allocator), a.low ≤ a.follow → a.follow ≤ bound →
      bound.val - 1 - a.low.val ≤ intMax → (bound.val - a.follow.val).toNat < fuel →
      ∃ s, a.scan cond fuel = some s ∧ ScanSpec a bound s := by
  intro fuel
  induction fuel with
  | zero => intro a _ _ _ h; omega
  | succ fuel ih =>
      intro a hlow hb hspan hfuel
      by_cases hlt : a.follow.val < bound.val
      · have h₂ : a.follow.val - a.low.val ≤ intMax := by omega
        cases hm : a.marked a.follow.val with
        | false =>
            exact ⟨.found a.follow (a.mark a.follow.val),
              scan_found (by simp [hcond, hlt]) (reserve_of_not_marked hlow h₂ hm),
              GoInt.le_refl _, hlt, fun m h₁ h₂ => absurd h₂ (by omega), hm, rfl⟩
        | true =>
            have hf : (a.follow + 1).val = a.follow.val + 1 :=
              GoInt.val_add_one (Int.lt_of_lt_of_le hlt bound.le_max)
            obtain ⟨s, hs, hspec⟩ := ih { a with follow := a.follow + 1 }
              (by simp at hlow ⊢; omega) (by simp; omega) hspan (by simp only [hf]; omega)
            refine ⟨s, ?_, hspec.cons hf hm⟩
            rw [scan_continue (by simp [hcond, hlt]) (reserve_of_marked hlow h₂ hm), hs]
      · have hfb : a.follow = bound := GoInt.ext (by simp at hb; omega)
        refine ⟨.done a, scan_done (by simp [hcond, hlt]), fun m h₁ h₂ => absurd h₂ (by omega), ?_⟩
        rw [← hfb]

end Allocator

/-! ### The order of the search -/

/-- The position of `m` in the cyclic order `f, f + 1, …, high, low, …, f - 1` of
`[low, high]`. -/
def cyclicRank (low high f m : Int) : Int :=
  if f ≤ m then m - f else m - low + (high + 1 - f)

namespace Allocator

/-- `n` is the first number of `[low, high]` whose bit is clear, in the cyclic order that starts
at the cursor. -/
def FirstFree (a : Allocator) (n : Int) : Prop :=
  a.low.val ≤ n ∧ n ≤ a.high.val ∧ a.marked n = false ∧
    ∀ m, a.low.val ≤ m → m ≤ a.high.val →
      cyclicRank a.low.val a.high.val a.follow.val m <
        cyclicRank a.low.val a.high.val a.follow.val n → a.marked m = true

/-- **What `next` should do**: hand out the first free number, set its bit and move the cursor
just past it, from `high` back to `low`; or, when every number is marked, answer `(0, false)`,
leave the pool alone and move the cursor one step. -/
def NextSpec (a : Allocator) : GoInt × Bool → Allocator → Prop
  | (n, true), a' =>
      FirstFree a n.val ∧ a'.pool = a.pool ||| 2 ^ (n.val - a.low.val).toNat ∧
        a'.follow.val = (if n.val = a.high.val then a.low.val else n.val + 1) ∧
        a'.low = a.low ∧ a'.high = a.high
  | (n, false), a' =>
      (∀ m, a.low.val ≤ m → m ≤ a.high.val → a.marked m = true) ∧ n = 0 ∧ a'.pool = a.pool ∧
        a'.follow.val = (if a.follow.val = a.high.val then a.low.val else a.follow.val + 1) ∧
        a'.low = a.low ∧ a'.high = a.high

theorem cyclicRank_injOn {low high f m m' : Int} (hm₁ : low ≤ m) (hm₂ : m ≤ high)
    (hm₁' : low ≤ m') (hm₂' : m' ≤ high)
    (h : cyclicRank low high f m = cyclicRank low high f m') : m = m' := by
  unfold cyclicRank at h
  split_ifs at h <;> omega

theorem FirstFree.unique {a : Allocator} {n n' : Int} (h : FirstFree a n) (h' : FirstFree a n') :
    n = n' := by
  obtain ⟨h₁, h₂, hfree, hmin⟩ := h
  obtain ⟨h₁', h₂', hfree', hmin'⟩ := h'
  by_contra hne
  rcases Int.lt_or_gt_of_ne (mt (cyclicRank_injOn (f := a.follow.val) h₁ h₂ h₁' h₂') hne)
    with hlt | hlt
  · simp [hmin' n h₁ h₂ hlt] at hfree
  · simp [hmin n' h₁' h₂' hlt] at hfree'

/-- **`NextSpec` allows one answer and one final state only.** -/
theorem NextSpec.unique {a a₁ a₂ : Allocator} {r₁ r₂ : GoInt × Bool} (h₁ : NextSpec a r₁ a₁)
    (h₂ : NextSpec a r₂ a₂) : r₁ = r₂ ∧ a₁ = a₂ := by
  obtain ⟨n₁, _ | _⟩ := r₁ <;> obtain ⟨n₂, _ | _⟩ := r₂
  · -- both report exhaustion
    obtain ⟨-, rfl, hp₁, hf₁, hl₁, hh₁⟩ := h₁
    obtain ⟨-, rfl, hp₂, hf₂, hl₂, hh₂⟩ := h₂
    exact ⟨rfl, Allocator.ext (hp₁.trans hp₂.symm) (GoInt.ext (hf₁.trans hf₂.symm))
      (hl₁.trans hl₂.symm) (hh₁.trans hh₂.symm)⟩
  · -- a full range has no free number
    exact absurd (h₁.1 _ h₂.1.1 h₂.1.2.1) (by simp [h₂.1.2.2.1])
  · exact absurd (h₂.1 _ h₁.1.1 h₁.1.2.1) (by simp [h₁.1.2.2.1])
  · -- both hand out the first free number
    obtain ⟨hn₁, hp₁, hf₁, hl₁, hh₁⟩ := h₁
    obtain ⟨hn₂, hp₂, hf₂, hl₂, hh₂⟩ := h₂
    obtain rfl : n₁ = n₂ := GoInt.ext (hn₁.unique hn₂)
    exact ⟨rfl, Allocator.ext (hp₁.trans hp₂.symm) (GoInt.ext (hf₁.trans hf₂.symm))
      (hl₁.trans hl₂.symm) (hh₁.trans hh₂.symm)⟩

/-! ### The deferred cursor update -/

@[simp] theorem advance_pool (a : Allocator) : (advance a).pool = a.pool := by
  unfold advance; split <;> rfl

@[simp] theorem advance_low (a : Allocator) : (advance a).low = a.low := by
  unfold advance; split <;> rfl

@[simp] theorem advance_high (a : Allocator) : (advance a).high = a.high := by
  unfold advance; split <;> rfl

theorem advance_unmark (a : Allocator) (m : Int) : (advance a).unmark m = advance (a.unmark m) := by
  by_cases h : a.follow = a.high <;> simp [advance, unmark, h]

/-- Below the largest `int`, `advance` moves the cursor one step, from `high` back to `low`. -/
theorem advance_follow_val {a : Allocator} (h : a.follow.val < intMax) :
    (advance a).follow.val = if a.follow.val = a.high.val then a.low.val else a.follow.val + 1 := by
  unfold advance
  by_cases he : a.follow = a.high
  · simp [he]
  · have hv : a.follow.val ≠ a.high.val := fun hv => he (GoInt.ext hv)
    simp [he, hv, GoInt.val_add_one h]

/-! ### `next` -/

section Next

variable {a : Allocator}

/-- A number found by the first loop is the first free number. -/
theorem firstFree_of_trailing {n : GoInt} (hlow : a.low ≤ a.follow) (hf : a.follow ≤ n)
    (hn : n ≤ a.high) (hm : ∀ m, a.follow.val ≤ m → m < n.val → a.marked m = true)
    (hfree : a.marked n.val = false) : FirstFree a n.val := by
  simp only [GoInt.le_def] at hlow hf hn
  refine ⟨by omega, hn, hfree, fun m hm₁ hm₂ hr => hm m ?_ ?_⟩ <;>
    · unfold cyclicRank at hr; split_ifs at hr <;> omega

/-- A number found by the second loop, after the first found nothing, is the first free one. -/
theorem firstFree_of_preceding {n : GoInt} (hn₁ : a.low ≤ n) (hn₂ : n < a.follow)
    (hh : ∀ m, a.follow.val ≤ m → m < a.high.val + 1 → a.marked m = true)
    (hm : ∀ m, a.low.val ≤ m → m < n.val → a.marked m = true)
    (hfree : a.marked n.val = false) (hhigh : a.follow ≤ a.high) : FirstFree a n.val := by
  simp only [GoInt.le_def, GoInt.lt_def] at hn₁ hn₂ hhigh
  refine ⟨hn₁, by omega, hfree, fun m hm₁ hm₂ hr => ?_⟩
  by_cases hfm : a.follow.val ≤ m
  · exact hh m hfm (by omega)
  · exact hm m hm₁ (by unfold cyclicRank at hr; split_ifs at hr <;> omega)

theorem toNat_sub_lt_loopFuel (x y : GoInt) : (x.val - y.val).toNat < loopFuel := by
  have := x.val_mem; have := y.val_mem; unfold loopFuel; omega

theorem next_of_trailing {n : GoInt} {a₁ : Allocator}
    (hs : a.scan (fun f => decide (f ≤ a.high)) loopFuel = some (.found n a₁)) :
    a.next = some ((n, true), advance a₁) := by
  rw [next, hs]; rfl

theorem next_of_preceding {n : GoInt} {a₁ a₂ : Allocator}
    (hs : a.scan (fun f => decide (f ≤ a.high)) loopFuel = some (.done a₁))
    (hs₂ : ({ a₁ with follow := a₁.low } : Allocator).scan (fun f => decide (f < a.follow))
      loopFuel = some (.found n a₂)) :
    a.next = some ((n, true), advance a₂) := by
  rw [next, hs]; simp only [bind, Option.bind]; rw [hs₂]; rfl

theorem next_of_exhausted {a₁ a₂ : Allocator}
    (hs : a.scan (fun f => decide (f ≤ a.high)) loopFuel = some (.done a₁))
    (hs₂ : ({ a₁ with follow := a₁.low } : Allocator).scan (fun f => decide (f < a.follow))
      loopFuel = some (.done a₂)) :
    a.next = some ((0, false), advance a₂) := by
  rw [next, hs]; simp only [bind, Option.bind]; rw [hs₂]; rfl

/-- **The fast path of `next`**: when the number under the cursor is free, the first loop
reserves it in its first iteration and `next` hands it out. -/
theorem next_of_follow_free (h₁ : a.low ≤ a.follow) (h₂ : a.follow ≤ a.high)
    (hidx : a.follow.val - a.low.val ≤ intMax) (hm : a.marked a.follow.val = false) :
    a.next = some ((a.follow, true), advance (a.mark a.follow.val)) :=
  next_of_trailing (scan_found (decide_eq_true h₂) (reserve_of_not_marked h₁ hidx hm))

variable (hlow : a.low ≤ a.follow) (hhigh : a.follow ≤ a.high) (hmax : a.high.val < intMax)
  (hspan : a.high.val - a.low.val ≤ intMax)
include hlow hhigh hmax hspan

/-- **`next` meets `NextSpec`** from every state whose cursor lies in `[low, high]`. -/
theorem next_spec : ∃ r a', a.next = some (r, a') ∧ NextSpec a r a' := by
  have hb : (a.high + 1).val = a.high.val + 1 := GoInt.val_add_one hmax
  simp only [GoInt.le_def] at hlow hhigh
  obtain ⟨s, hs, hspec⟩ := scan_spec (fun f => decide (f ≤ a.high)) (a.high + 1)
    (fun f => by simp [hb, Int.lt_add_one_iff]) loopFuel a hlow (by simp [hb]; omega)
    (by omega) (toNat_sub_lt_loopFuel _ _)
  cases s with
  | found n a₁ =>
      obtain ⟨h₁, h₂, h₃, h₄, rfl⟩ := hspec
      have hn : n ≤ a.high := by simp [hb] at h₂ ⊢; omega
      refine ⟨(n, true), _, next_of_trailing hs, firstFree_of_trailing hlow h₁ hn h₃ h₄,
        by simp [mark], ?_, by simp, by simp⟩
      exact advance_follow_val (show n.val < intMax by simp at hn; omega)
  | done a₁ =>
      obtain ⟨h₁, rfl⟩ := hspec
      obtain ⟨s, hs₂, hspec⟩ := scan_spec (fun f => decide (f < a.follow)) a.follow
        (fun f => by simp) loopFuel { a with follow := a.low } (GoInt.le_refl _) hlow
        (show a.follow.val - 1 - a.low.val ≤ intMax by omega) (toNat_sub_lt_loopFuel _ _)
      cases s with
      | found n a₂ =>
          obtain ⟨h₁', h₂', h₃', h₄', rfl⟩ := hspec
          refine ⟨(n, true), _, next_of_preceding hs hs₂,
            firstFree_of_preceding h₁' h₂' (by simpa [hb] using h₁) (by simpa using h₃')
              (by simpa using h₄') hhigh, by simp [mark], ?_, by simp, by simp⟩
          exact advance_follow_val (show n.val < intMax by simp at h₂'; omega)
      | done a₂ =>
          obtain ⟨h₁', rfl⟩ := hspec
          refine ⟨(0, false), _, next_of_exhausted hs hs₂, fun m hm₁ hm₂ => ?_, rfl, by simp, ?_,
            by simp, by simp⟩
          · by_cases hfm : a.follow.val ≤ m
            · exact h₁ m hfm (by simp [hb]; omega)
            · simpa using h₁' m hm₁ (by omega)
          · exact advance_follow_val (show a.follow.val < intMax by omega)

theorem nextSpec_of_next {r : GoInt × Bool} {a' : Allocator} (h : a.next = some (r, a')) :
    NextSpec a r a' := by
  obtain ⟨r₀, a₀, h₀, hspec⟩ := next_spec hlow hhigh hmax hspan
  obtain ⟨rfl, rfl⟩ := Prod.mk.inj (Option.some.inj (h₀.symm.trans h))
  exact hspec

/-- **`NextSpec` is exactly what `next` does** from every state with its cursor in range. -/
theorem next_eq_some_iff {r : GoInt × Bool} {a' : Allocator} :
    a.next = some (r, a') ↔ NextSpec a r a' := by
  obtain ⟨r₀, a₀, h₀, hspec⟩ := next_spec hlow hhigh hmax hspan
  refine ⟨nextSpec_of_next hlow hhigh hmax hspan, fun h => ?_⟩
  obtain ⟨rfl, rfl⟩ := hspec.unique h
  exact h₀

end Next

theorem next_eq_some_iff_two :
    (1 : GoInt) ≤ 2 ∧ (2 : GoInt) ≤ 3 ∧ (3 : GoInt).val < intMax ∧
      (3 : GoInt).val - (1 : GoInt).val ≤ intMax ∧
      ((⟨0b101, 2, 1, 3⟩ : Allocator).next = some ((2, true), ⟨0b111, 3, 1, 3⟩) ↔
        NextSpec ⟨0b101, 2, 1, 3⟩ (2, true) ⟨0b111, 3, 1, 3⟩) :=
  ⟨by decide, by decide, by decide, by decide,
    next_eq_some_iff (a := ⟨0b101, 2, 1, 3⟩) (by decide) (by decide) (by decide) (by decide)⟩

/-! ### An empty range -/

section Empty

variable {low high : GoInt} (hlh : high < low)
include hlh

/-- **On every empty range the second `next` hands out `low`**: the first call's deferred update
moves the cursor to `low + 1`, and the second call's wrap-around loop reaches `low`. -/
theorem run_next_next_of_lt (hmax : low.val < intMax) :
    (newAllocator low high).next = some ((0, false), ⟨0, low + 1, low, high⟩) ∧
      (⟨0, low + 1, low, high⟩ : Allocator).next = some ((low, true), ⟨1, low + 1, low, high⟩) := by
  have hlt : high.val < low.val := hlh
  have hne : low ≠ high := fun h => by subst h; omega
  refine ⟨?_, ?_⟩
  · rw [next_of_exhausted (scan_done (by simpa [newAllocator] using hlt))
      (scan_done (by simp [newAllocator]))]
    simp [advance, newAllocator, hne]
  · have h₁ : (low + 1).val = low.val + 1 := GoInt.val_add_one hmax
    have hr := reserve_of_not_marked (a := newAllocator low high) (GoInt.le_refl low)
      (by simp [newAllocator, intMax]) (by simp [marked, newAllocator])
    rw [next_of_preceding (a := ⟨0, low + 1, low, high⟩) (scan_done (by simp; omega))
      (scan_found (by simp [newAllocator, h₁]) hr)]
    simp [advance, mark, newAllocator, hne]

end Empty

theorem run_next_next_of_lt_two :
    (1 : GoInt) < 2 ∧ (2 : GoInt).val < intMax ∧
      (newAllocator 2 1).next = some ((0, false), ⟨0, 2 + 1, 2, 1⟩) ∧
      (⟨0, 2 + 1, 2, 1⟩ : Allocator).next = some ((2, true), ⟨1, 2 + 1, 2, 1⟩) :=
  ⟨by decide, by decide, run_next_next_of_lt (by decide) (by decide)⟩

/-- **`next` hands out a number of an empty range**: `2` on `newAllocator 2 1`. -/
theorem empty_range_second_next :
    (newAllocator 2 1).run [.next, .next] =
      some ([.next 0 false, .next 2 true], { pool := 1, follow := 3, low := 2, high := 1 }) := by
  decide

/-! ### What `next` touches, in every state -/

/-- **What a loop of `next` does**, from any state: it moves the cursor only, or it returns `n`
after one `reserve(n)` that answered `true` on the pool it started with. -/
theorem scan_frame (cond : GoInt → Bool) : ∀ (fuel : Nat) (a : Allocator) (s : Scan),
    a.scan cond fuel = some s →
      match s with
      | .found n a' => ({ a with follow := n } : Allocator).reserve n = some (true, a')
      | .done a' => a' = { a with follow := a'.follow }
  | 0, _, _, h => by simp [scan] at h
  | fuel + 1, a, s, h => by
      by_cases hc : cond a.follow = true
      · rcases hr : a.reserve a.follow with _ | ⟨_ | _, a'⟩
        · simp [scan, hc, hr] at h
        · rw [scan_continue hc (eq_of_reserve_false hr ▸ hr)] at h
          exact scan_frame cond fuel { a with follow := a.follow + 1 } s h
        · simp only [scan, hc, hr, if_true] at h
          cases h
          obtain ⟨-, -, rfl⟩ := reserve_eq_some_true hr
          exact hr
      · simp only [scan, hc] at h
        cases h
        rfl

theorem frame_of_found {a a₁ : Allocator} {n : GoInt}
    (h : ({ a with follow := n } : Allocator).reserve n = some (true, a₁)) :
    (advance a₁).low = a.low ∧ (advance a₁).high = a.high ∧
      0 ≤ (n - a.low).val ∧ a.pool.testBit (n - a.low).val.toNat = false ∧
      (advance a₁).pool = a.pool ||| 2 ^ (n - a.low).val.toNat := by
  obtain ⟨hi, hb, rfl⟩ := reserve_eq_some_true h
  exact ⟨by simp, by simp, hi, hb, by simp⟩

/-- **`next` sets the bit of the number it hands out, and no other**, in every state and with no
condition on the range; a call that answers `false` leaves the pool alone. -/
theorem next_frame {a b : Allocator} {n : GoInt} {ok : Bool} (h : a.next = some ((n, ok), b)) :
    b.low = a.low ∧ b.high = a.high ∧
      (ok = true → 0 ≤ (n - a.low).val ∧ a.pool.testBit (n - a.low).val.toNat = false ∧
        b.pool = a.pool ||| 2 ^ (n - a.low).val.toNat) ∧
      (ok = false → b.pool = a.pool) := by
  rcases h₁ : a.scan (fun f => decide (f ≤ a.high)) loopFuel with _ | ⟨n₁, a₁⟩ | a₁
  · rw [next, h₁] at h
    cases h
  · -- the first loop found `n₁`
    rw [next_of_trailing h₁, Option.some.injEq, Prod.mk.injEq, Prod.mk.injEq] at h
    obtain ⟨⟨rfl, rfl⟩, rfl⟩ := h
    obtain ⟨hl, hh, hfound⟩ := frame_of_found (scan_frame _ _ _ _ h₁)
    exact ⟨hl, hh, fun _ => hfound, fun h => by cases h⟩
  · have hd : a₁ = { a with follow := a₁.follow } := scan_frame _ _ _ _ h₁
    rcases h₂ : ({ a₁ with follow := a₁.low } : Allocator).scan (fun f => decide (f < a.follow))
      loopFuel with _ | ⟨n₂, a₂⟩ | a₂
    · rw [next, h₁] at h
      simp only [bind, Option.bind] at h
      rw [h₂] at h
      cases h
    · -- the second loop found `n₂`
      rw [next_of_preceding h₁ h₂, Option.some.injEq, Prod.mk.injEq, Prod.mk.injEq] at h
      obtain ⟨⟨rfl, rfl⟩, rfl⟩ := h
      have hr := scan_frame _ _ _ _ h₂
      rw [hd] at hr
      obtain ⟨hl, hh, hfound⟩ := frame_of_found hr
      exact ⟨hl, hh, fun _ => hfound, fun h => by cases h⟩
    · -- both loops ended on their conditions: only the cursor moved
      rw [next_of_exhausted h₁ h₂, Option.some.injEq, Prod.mk.injEq, Prod.mk.injEq] at h
      obtain ⟨⟨-, rfl⟩, rfl⟩ := h
      have he : a₂ = _ := scan_frame _ _ _ _ h₂
      have hp : a₂.pool = a.pool := by rw [he, hd]
      have hl : a₂.low = a.low := by rw [he, hd]
      have hh : a₂.high = a.high := by rw [he, hd]
      exact ⟨(advance_low a₂).trans hl, (advance_high a₂).trans hh, fun h => absurd h (by decide),
        fun _ => (advance_pool a₂).trans hp⟩

theorem next_frame_two :
    (⟨0b101, 3, 1, 3⟩ : Allocator).next = some ((2, true), ⟨0b111, 3, 1, 3⟩) ∧
      ((⟨0b111, 3, 1, 3⟩ : Allocator).low = (⟨0b101, 3, 1, 3⟩ : Allocator).low ∧
        (⟨0b111, 3, 1, 3⟩ : Allocator).high = (⟨0b101, 3, 1, 3⟩ : Allocator).high ∧
        (true = true → 0 ≤ ((2 : GoInt) - (⟨0b101, 3, 1, 3⟩ : Allocator).low).val ∧
          (⟨0b101, 3, 1, 3⟩ : Allocator).pool.testBit
            ((2 : GoInt) - (⟨0b101, 3, 1, 3⟩ : Allocator).low).val.toNat = false ∧
          (⟨0b111, 3, 1, 3⟩ : Allocator).pool = (⟨0b101, 3, 1, 3⟩ : Allocator).pool |||
            2 ^ ((2 : GoInt) - (⟨0b101, 3, 1, 3⟩ : Allocator).low).val.toNat) ∧
        (true = false →
          (⟨0b111, 3, 1, 3⟩ : Allocator).pool = (⟨0b101, 3, 1, 3⟩ : Allocator).pool)) :=
  ⟨by decide, next_frame (by decide)⟩

end Allocator

end Amqp091
