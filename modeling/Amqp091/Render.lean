/-
**What `String` prints.**

`String()` writes `allocator[low..high]` and one item for each maximal run of reserved numbers of
`[low, high]`, in increasing order: ` a..b` for a run of two or more numbers, ` a` for one.
`Amqp091.IsRuns` says what that list of runs is, with no reference to the loops.  The code prints
it whenever `high ≤ intMax - 2` and `high - low < intMax`, so that the loop variables and the bit
indices do not overflow.  At the top of the `int` range `low = high; low++` wraps past the largest
`int`, and `String` never returns (`Amqp091.Allocator.string_top_of_int`).

Main results:

* `Amqp091.IsRuns.unique` — a window has only one list of runs;
* `Amqp091.Allocator.runEnd_spec`, `Amqp091.Allocator.runs_spec` — the invariants of the inner
  and the outer loop;
* `Amqp091.Allocator.string_spec` — **`String` prints the maximal runs of reserved numbers**.
-/

import Amqp091.Next

set_option relaxedAutoImplicit false
set_option autoImplicit false

namespace Amqp091

/-! ### Runs -/

/-- How `String` writes the run `x..y`: ` x..y`, or ` x` when it is the single number `x`. -/
def renderRun (p : Int × Int) : String :=
  if p.1 < p.2 then " " ++ toString p.1 ++ ".." ++ toString p.2 else " " ++ toString p.1

/-- A list of runs, written one after the other. -/
def renderRuns : List (Int × Int) → String
  | [] => ""
  | p :: ps => renderRun p ++ renderRuns ps

/-- `rs` lists the maximal runs of `r` in the window `[lo, hi]`, in increasing order: nonempty
intervals of the window that neither overlap nor touch, and cover exactly the numbers of `r`. -/
structure IsRuns (r : Int → Prop) (lo hi : Int) (rs : List (Int × Int)) : Prop where
  bounds : ∀ p ∈ rs, lo ≤ p.1 ∧ p.1 ≤ p.2 ∧ p.2 ≤ hi
  apart : rs.Pairwise fun p q => p.2 + 1 < q.1
  cover : ∀ m, lo ≤ m → m ≤ hi → (r m ↔ ∃ p ∈ rs, p.1 ≤ m ∧ m ≤ p.2)

namespace IsRuns

variable {r : Int → Prop} {lo hi : Int}

theorem nil (h : hi < lo) : IsRuns r lo hi [] :=
  ⟨by simp, List.Pairwise.nil, fun m h₁ h₂ => absurd h₂ (by omega)⟩

/-- A number outside `r` in front of a window adds no run. -/
theorem skip {rs : List (Int × Int)} (h : IsRuns r (lo + 1) hi rs) (hlo : ¬ r lo) :
    IsRuns r lo hi rs := by
  refine ⟨fun p hp => ?_, h.apart, fun m h₁ h₂ => ?_⟩
  · have := h.bounds p hp; omega
  · obtain hlt | rfl : lo < m ∨ lo = m := by omega
    · exact h.cover m (by omega) h₂
    · exact ⟨fun hm => absurd hm hlo, fun ⟨p, hp, hp₁, _⟩ => absurd hp₁ (by have := h.bounds p hp; omega)⟩

/-- A run `x..y - 1` in front of a window that starts at `y + 1`, where `y` is past the window or
outside `r`. -/
theorem cons {rs : List (Int × Int)} {y : Int} (h : IsRuns r (y + 1) hi rs) (hxy : lo < y)
    (hy : y ≤ hi + 1) (hrun : ∀ m, lo ≤ m → m < y → r m) (hend : y ≤ hi → ¬ r y) :
    IsRuns r lo hi ((lo, y - 1) :: rs) := by
  refine ⟨fun p hp => ?_, List.pairwise_cons.2 ⟨fun q hq => ?_, h.apart⟩, fun m h₁ h₂ => ?_⟩
  · rcases List.mem_cons.1 hp with rfl | hp
    · simp only; omega
    · have := h.bounds p hp; omega
  · have := h.bounds q hq; simp only; omega
  · rw [List.exists_mem_cons_iff]
    by_cases hm : m < y
    · exact ⟨fun _ => .inl ⟨h₁, by simp only; omega⟩, fun _ => hrun m h₁ hm⟩
    · rw [or_iff_right (by simp only; omega)]
      obtain hlt | rfl : y < m ∨ y = m := by omega
      · exact h.cover m (by omega) h₂
      · exact ⟨fun hm' => absurd hm' (hend h₂),
          fun ⟨p, hp, hp₁, _⟩ => absurd hp₁ (by have := h.bounds p hp; omega)⟩

theorem fst_le {p : Int × Int} {ps : List (Int × Int)} (h : IsRuns r lo hi (p :: ps)) {m : Int}
    (h₁ : lo ≤ m) (h₂ : m ≤ hi) (hm : r m) : p.1 ≤ m := by
  obtain ⟨q, hq, hq₁, -⟩ := (h.cover m h₁ h₂).1 hm
  rcases List.mem_cons.1 hq with rfl | hq
  · exact hq₁
  · have := (List.pairwise_cons.1 h.apart).1 q hq
    have := h.bounds p (List.mem_cons_self _ _)
    omega

theorem not_succ_snd {p : Int × Int} {ps : List (Int × Int)} (h : IsRuns r lo hi (p :: ps))
    (hp : p.2 + 1 ≤ hi) : ¬ r (p.2 + 1) := by
  have hb := h.bounds p (List.mem_cons_self _ _)
  rw [h.cover _ (by omega) hp]
  rintro ⟨q, hq, hq₁, hq₂⟩
  rcases List.mem_cons.1 hq with rfl | hq
  · omega
  · have := (List.pairwise_cons.1 h.apart).1 q hq; omega

theorem mem_head {p : Int × Int} {ps : List (Int × Int)} (h : IsRuns r lo hi (p :: ps))
    {m : Int} (h₁ : p.1 ≤ m) (h₂ : m ≤ p.2) : r m := by
  have hb := h.bounds p (List.mem_cons_self _ _)
  exact (h.cover m (by omega) (by omega)).2 ⟨p, List.mem_cons_self _ _, h₁, h₂⟩

/-- After the first run come the runs of the window that starts two past its end. -/
theorem tail {p : Int × Int} {ps : List (Int × Int)} (h : IsRuns r lo hi (p :: ps)) :
    IsRuns r (p.2 + 2) hi ps := by
  have hlt := (List.pairwise_cons.1 h.apart).1
  refine ⟨fun q hq => ?_, (List.pairwise_cons.1 h.apart).2, fun m h₁ h₂ => ?_⟩
  · have := h.bounds q (List.mem_cons_of_mem _ hq); have := hlt q hq; omega
  · have hb := h.bounds p (List.mem_cons_self _ _)
    rw [h.cover m (by omega) h₂]
    constructor
    · rintro ⟨q, hq, hq'⟩
      rcases List.mem_cons.1 hq with rfl | hq
      · omega
      · exact ⟨q, hq, hq'⟩
    · exact fun ⟨q, hq, hq'⟩ => ⟨q, List.mem_cons_of_mem _ hq, hq'⟩

/-- **A window has only one list of runs.** -/
theorem unique : ∀ {rs rs' : List (Int × Int)} {lo : Int}, IsRuns r lo hi rs →
    IsRuns r lo hi rs' → rs = rs'
  | [], [], _, _, _ => rfl
  | [], p :: _, _, h, h' => by
      have hb := h'.bounds p (List.mem_cons_self _ _)
      obtain ⟨q, hq, -⟩ := (h.cover p.1 hb.1 (by omega)).1 (h'.mem_head (Int.le_refl _) hb.2.1)
      simp at hq
  | p :: _, [], _, h, h' => by
      have hb := h.bounds p (List.mem_cons_self _ _)
      obtain ⟨q, hq, -⟩ := (h'.cover p.1 hb.1 (by omega)).1 (h.mem_head (Int.le_refl _) hb.2.1)
      simp at hq
  | p :: ps, q :: qs, lo, h, h' => by
      have hp := h.bounds p (List.mem_cons_self _ _)
      have hq := h'.bounds q (List.mem_cons_self _ _)
      have h₁ : p.1 = q.1 := Int.le_antisymm
        (h.fst_le hq.1 (by omega) (h'.mem_head (Int.le_refl _) hq.2.1))
        (h'.fst_le hp.1 (by omega) (h.mem_head (Int.le_refl _) hp.2.1))
      have h₂ : p.2 = q.2 := by
        by_contra hne
        rcases Int.lt_or_gt_of_ne hne with hlt | hlt
        · exact h.not_succ_snd (by omega) (h'.mem_head (by omega) (by omega))
        · exact h'.not_succ_snd (by omega) (h.mem_head (by omega) (by omega))
      have hpq : p = q := Prod.ext h₁ h₂
      subst hpq
      rw [unique h.tail h'.tail]

theorem congr {r' : Int → Prop} {rs : List (Int × Int)} (h : IsRuns r lo hi rs)
    (hr : ∀ m, lo ≤ m → m ≤ hi → (r m ↔ r' m)) : IsRuns r' lo hi rs :=
  ⟨h.bounds, h.apart, fun m h₁ h₂ => (hr m h₁ h₂).symm.trans (h.cover m h₁ h₂)⟩

end IsRuns

namespace Allocator

/-! ### The two loops of `String` -/

/-- A step of the outer loop: run the inner loop from `x`, write what it found, go on past it. -/
theorem runs_succ {a : Allocator} {x y : GoInt} {fuel : Nat} (b : String) (hx : x ≤ a.high)
    (hy : a.runEnd loopFuel x = some y) :
    a.runs (fuel + 1) x b = a.runs fuel (y + 1)
      (if y > x + 1 then b ++ " " ++ toString x ++ ".." ++ toString (y - 1)
        else if y > x then b ++ " " ++ toString (y - 1) else b) := by
  simp only [runs, if_pos hx, hy]; rfl

/-- When the inner loop stops where it started, the outer loop writes nothing. -/
theorem runText_self (b : String) {x : GoInt} (hx : x.val < intMax) :
    (if x > x + 1 then b ++ " " ++ toString x ++ ".." ++ toString (x - 1)
      else if x > x then b ++ " " ++ toString (x - 1) else b) = b := by
  have h₁ : ¬ x > x + 1 := by
    simp only [gt_iff_lt, GoInt.lt_def, GoInt.val_add_one hx]; omega
  rw [if_neg h₁, if_neg (show ¬ x > x from Int.lt_irrefl _)]

/-- What the outer loop writes for a run `x..y - 1` with `x < y` is `renderRun`. -/
theorem runText_eq {x y : GoInt} (b : String) (hxy : x.val < y.val) (hx : x.val < intMax) :
    (if y > x + 1 then b ++ " " ++ toString x ++ ".." ++ toString (y - 1)
      else if y > x then b ++ " " ++ toString (y - 1) else b) =
      b ++ renderRun (x.val, y.val - 1) := by
  have h₁ : (x + 1).val = x.val + 1 := GoInt.val_add_one hx
  have h₂ : (y - 1).val = y.val - 1 := GoInt.val_sub_one (by have := x.val_mem; unfold intMin; omega)
  by_cases hc : x.val + 1 < y.val
  · simp [renderRun, h₁, h₂, hc, String.append_assoc, show x.val < y.val - 1 by omega]
  · have hy : y.val - 1 = x.val := by omega
    simp [renderRun, h₁, h₂, hc, hxy, String.append_assoc, hy]

section Loops

variable {a : Allocator} (hmax : a.high.val + 2 ≤ intMax) (hspan : a.high.val - a.low.val < intMax)
include hmax hspan

/-- **The inner loop of `String`** stops at the first number from `x` on that is not marked or
lies past `high`. -/
theorem runEnd_spec : ∀ (fuel : Nat) (x : GoInt), a.low ≤ x → x.val ≤ a.high.val + 1 →
    (a.high.val + 1 - x.val).toNat < fuel →
    ∃ y : GoInt, a.runEnd fuel x = some y ∧ x.val ≤ y.val ∧ y.val ≤ a.high.val + 1 ∧
      (∀ m, x.val ≤ m → m < y.val → a.marked m = true) ∧
      (y.val ≤ a.high.val → a.marked y.val = false) := by
  intro fuel
  induction fuel with
  | zero => intro x _ _ h; omega
  | succ fuel ih =>
      intro x hx₁ hx₂ hfuel
      have hr := reserved_of_index hx₁ (show x.val - a.low.val ≤ intMax by omega)
      by_cases hc : a.marked x.val = true ∧ x.val ≤ a.high.val
      · have hx1 : (x + 1).val = x.val + 1 := GoInt.val_add_one (by omega)
        obtain ⟨y, hy, h₁, h₂, h₃, h₄⟩ := ih (x + 1) (by simp only [GoInt.le_def, hx1] at hx₁ ⊢; omega)
          (by omega) (by omega)
        rw [hx1] at h₁ h₃
        refine ⟨y, by rw [runEnd_succ_of_marked (hc.1 ▸ hr) hc.2, hy], by omega, h₂,
          fun m hm₁ hm₂ => ?_, h₄⟩
        obtain hlt | rfl : x.val < m ∨ x.val = m := by omega
        · exact h₃ m (by omega) hm₂
        · exact hc.1
      · refine ⟨x, runEnd_succ_of_not hr (by simpa using hc), (Int.le_refl _), hx₂,
          fun m h₁ h₂ => absurd h₂ (by omega), fun hx => ?_⟩
        simpa [hx] using hc

/-- **The outer loop of `String`**, from the loop variable `x`, appends the maximal runs of
marked numbers of `[x, high]`. -/
theorem runs_spec : ∀ (fuel : Nat) (x : GoInt) (b : String), a.low ≤ x →
    (a.high.val + 2 - x.val).toNat < fuel →
    ∃ rs, IsRuns (fun m => a.marked m = true) x.val a.high.val rs ∧
      a.runs fuel x b = some (b ++ renderRuns rs) := by
  intro fuel
  induction fuel with
  | zero => intro x b _ h; omega
  | succ fuel ih =>
      intro x b hx₁ hfuel
      by_cases hx : x ≤ a.high
      · simp only [GoInt.le_def] at hx hx₁
        obtain ⟨y, hy, h₁, h₂, h₃, h₄⟩ := runEnd_spec hmax hspan loopFuel x hx₁ (by omega)
          (by have := x.val_mem; unfold intMax at hmax; unfold loopFuel; omega)
        have hy₁ : (y + 1).val = y.val + 1 := GoInt.val_add_one (by omega)
        rw [runs_succ b hx hy]
        obtain hlt | heq : x.val < y.val ∨ x.val = y.val := by omega
        · obtain ⟨rs, hrs, hrun⟩ := ih (y + 1) (b ++ renderRun (x.val, y.val - 1))
            (by simp only [GoInt.le_def, hy₁]; omega) (by rw [hy₁]; omega)
          rw [hy₁] at hrs
          refine ⟨(x.val, y.val - 1) :: rs, hrs.cons hlt h₂ h₃ (fun h => by simp [h₄ h]), ?_⟩
          rw [runText_eq b hlt (by omega), hrun, renderRuns, String.append_assoc]
        · obtain rfl : y = x := GoInt.ext heq.symm
          obtain ⟨rs, hrs, hrun⟩ := ih (y + 1) b (by simp only [GoInt.le_def, hy₁]; omega)
            (by rw [hy₁]; omega)
          rw [hy₁] at hrs
          refine ⟨rs, hrs.skip (by simp [h₄ hx]), ?_⟩
          rw [runText_self b (by omega), hrun]
      · exact ⟨[], IsRuns.nil (by simp at hx; omega), by simp [runs, hx, renderRuns]⟩

end Loops

/-- **What `String` prints**: `allocator[low..high]` followed by the maximal runs of the numbers
that `reserved` reports, for every pool, when `high ≤ intMax - 2` and `high - low < intMax`. -/
theorem string_spec (a : Allocator) (hmax : a.high.val + 2 ≤ intMax)
    (hspan : a.high.val - a.low.val < intMax) :
    ∃ rs, IsRuns (fun m => a.marked m = true) a.low.val a.high.val rs ∧
      (∀ m : GoInt, a.low ≤ m → m ≤ a.high → a.reserved m = some (a.marked m.val)) ∧
      a.string = some ("allocator[" ++ toString a.low.val ++ ".." ++ toString a.high.val ++ "]" ++
        renderRuns rs) := by
  obtain ⟨rs, hrs, h⟩ := runs_spec hmax hspan loopFuel a.low
    ("allocator[" ++ toString a.low ++ ".." ++ toString a.high ++ "]") (GoInt.le_refl _)
    (by have := a.low.val_mem; unfold intMax at hmax; unfold loopFuel; omega)
  refine ⟨rs, hrs, fun m h₁ h₂ => reserved_of_index h₁ (by simp at h₂; omega), ?_⟩
  simpa [string] using h

theorem string_spec_example :
    (12 : GoInt).val + 2 ≤ intMax ∧ (12 : GoInt).val - (3 : GoInt).val < intMax ∧
      ∃ rs, IsRuns (fun m => (⟨0b1101101, 0, 3, 12⟩ : Allocator).marked m = true) 3 12 rs ∧
        (∀ m : GoInt, 3 ≤ m → m ≤ 12 →
          (⟨0b1101101, 0, 3, 12⟩ : Allocator).reserved m =
            some ((⟨0b1101101, 0, 3, 12⟩ : Allocator).marked m.val)) ∧
        (⟨0b1101101, 0, 3, 12⟩ : Allocator).string =
          some ("allocator[" ++ toString (3 : Int) ++ ".." ++ toString (12 : Int) ++ "]" ++
            renderRuns rs) :=
  ⟨by decide, by decide, string_spec _ (by decide) (by decide)⟩

/-! ### Past the window -/

/-- Unmarked numbers in front of the outer loop write nothing: `k` iterations on, the loop
variable has moved `k` further. -/
theorem runs_of_unmarked {a : Allocator} (b : String) (hmax : a.high.val < intMax) :
    ∀ (k fuel : Nat) (x : GoInt), a.low ≤ x → x.val + k ≤ a.high.val →
      x.val + k - a.low.val ≤ intMax + 1 →
      (∀ m, x.val ≤ m → m < x.val + k → a.marked m = false) →
      a.runs (fuel + k) x b = a.runs fuel (GoInt.ofInt (x.val + k)) b
  | 0, fuel, x, _, _, _, _ => by simp
  | k + 1, fuel, x, hx, hk, hidx, hm => by
      have hx1 : (x + 1).val = x.val + 1 := GoInt.val_add_one (by omega)
      have hr := reserved_of_index hx (show x.val - a.low.val ≤ intMax by omega)
      rw [hm x.val (Int.le_refl _) (by omega)] at hr
      have hy : a.runEnd loopFuel x = some x := runEnd_succ_of_not hr (by simp)
      rw [show fuel + (k + 1) = fuel + k + 1 by omega, runs_succ b (by simp; omega) hy,
        runText_self b (by omega), runs_of_unmarked b hmax k fuel (x + 1)
          (by simp [hx1] at hx ⊢; omega) (by rw [hx1]; omega) (by rw [hx1]; omega)
          (fun m h₁ h₂ => hm m (by omega) (by omega)), hx1]
      congr 2
      push_cast
      omega

/-- Past the wrap, the outer loop on `[intMax - 1, intMax - 1]` with pool `1` moves over
`2 ^ 63 - 2` numbers that write nothing. -/
theorem runs_wrapped (b : String) (fuel : Nat) :
    (⟨1, GoInt.max - 1, GoInt.max - 1, GoInt.max - 1⟩ : Allocator).runs (fuel + (2 ^ 63 - 2))
        (GoInt.max + 1) b =
      (⟨1, GoInt.max - 1, GoInt.max - 1, GoInt.max - 1⟩ : Allocator).runs fuel
        (GoInt.ofInt (-2)) b := by
  have hhigh : (GoInt.max - 1).val = intMax - 1 := by decide
  have hval : ∀ i : Nat, i < 2 ^ 63 - 2 → ((· + 1)^[i] (GoInt.max + 1)).val = intMin + i :=
    fun i hi => by
      rw [GoInt.val_iterate_add_one, GoInt.val_max_add_one]; unfold wrap intMin; omega
  have hend : (· + 1)^[2 ^ 63 - 2] (GoInt.max + 1) = GoInt.ofInt (-2) :=
    GoInt.ext (by rw [GoInt.val_iterate_add_one, GoInt.val_max_add_one]; decide)
  refine (loop_iterate (fun n x => (⟨1, GoInt.max - 1, GoInt.max - 1, GoInt.max - 1⟩ :
      Allocator).runs n x b) (· + 1) (fun x => x ≤ GoInt.max - 1 ∧
        (⟨1, GoInt.max - 1, GoInt.max - 1, GoInt.max - 1⟩ : Allocator).reserved x = some false)
      (fun n x ⟨hx, hr⟩ => by
        dsimp only
        rw [runs_succ b hx (runEnd_succ_of_not hr (by simp)), runText_self b
          (by simp only [GoInt.le_def, hhigh] at hx; omega)])
      (2 ^ 63 - 2) (GoInt.max + 1) (fun i hi => ?_) fuel).trans (by rw [hend])
  -- the `i`-th number past the wrap is `intMin + i`, with bit index `i + 2`
  have hv := hval i hi
  have hidx : ((· + 1)^[i] (GoInt.max + 1) - (GoInt.max - 1)).val = i + 2 := by
    rw [GoInt.val_sub_eq_wrap, hv, hhigh]; unfold wrap intMin intMax; omega
  refine ⟨by simp only [GoInt.le_def, hv, hhigh]; unfold intMin intMax; omega, ?_⟩
  rw [reserved_of_nonneg (by rw [hidx]; omega), hidx]
  exact congrArg some (Nat.testBit_eq_false_of_lt (Nat.one_lt_two_pow (by omega)))

/-- **`String` never returns at the top of the `int` range.**  On `[intMax - 1, intMax - 1]` after
one `next`, `low++` wraps to the smallest `int` and the loop runs on until the bit index of `-2`
is negative; on `[-2, intMax - 1]` the bit index of `intMax - 1` wraps at once. -/
theorem string_top_of_int :
    Reachable (GoInt.max - 1) (GoInt.max - 1) ⟨1, GoInt.max - 1, GoInt.max - 1, GoInt.max - 1⟩ ∧
      (⟨1, GoInt.max - 1, GoInt.max - 1, GoInt.max - 1⟩ : Allocator).string = none ∧
      (newAllocator (GoInt.ofInt (-2)) (GoInt.max - 1)).string = none := by
  refine ⟨@Reachable.step _ _ _ _ .next (.next (GoInt.max - 1) true) .init trivial (by decide),
    ?_, ?_⟩
  · rw [string, show loopFuel = (2 ^ 63 + 1) + (2 ^ 63 - 2) + 1 by rfl,
      runs_succ _ (by decide) (show (⟨1, GoInt.max - 1, GoInt.max - 1, GoInt.max - 1⟩ :
        Allocator).runEnd loopFuel (GoInt.max - 1) = some GoInt.max by decide), runs_wrapped]
    decide
  · show (⟨0, GoInt.ofInt (-2), GoInt.ofInt (-2), GoInt.max - 1⟩ : Allocator).string = none
    have hskip := runs_of_unmarked (a := ⟨0, GoInt.ofInt (-2), GoInt.ofInt (-2), GoInt.max - 1⟩)
      ("allocator[" ++ toString (GoInt.ofInt (-2)) ++ ".." ++ toString (GoInt.max - 1) ++ "]")
      (by decide) (2 ^ 63) (2 ^ 63) (GoInt.ofInt (-2)) (by decide) (by decide) (by decide)
      (fun m _ _ => Nat.zero_testBit _)
    rw [string, show loopFuel = 2 ^ 63 + 2 ^ 63 by rfl, hskip]
    decide

end Allocator

end Amqp091
