/-
**The loops have enough fuel.**

A loop of `next`, or the inner loop of `String`, carries from one iteration to the next only an
`int` moved by `+ 1`: an iteration that goes on changes nothing else.  After `2 ^ 64` iterations
that `int` is back where it started, so a loop that has not ended within `loopFuel` tests never
ends, and giving up with `none` there changes no answer.  The argument is made once, for any
fuelled loop with a periodic state, and applied to each loop.

Main results:

* `Amqp091.fuel_periodic` — fuel past the period changes nothing;
* `Amqp091.Allocator.scan_loopFuel_add`, `Amqp091.Allocator.runEnd_loopFuel_add` — **fuel past
  `loopFuel` changes nothing**.
-/

import Amqp091.Allocator

set_option relaxedAutoImplicit false
set_option autoImplicit false

namespace Amqp091

/-! ### Fuelled loops with a periodic state -/

section Periodic

variable {σ τ : Type} (loop : Nat → σ → Option τ) (step : σ → σ) (cont : σ → Prop)

/-- While every iteration goes on, `j` iterations use `j` fuel and move the state `j` steps. -/
theorem loop_iterate (hcont : ∀ n s, cont s → loop (n + 1) s = loop n (step s)) :
    ∀ (j : Nat) (s : σ), (∀ i < j, cont (step^[i] s)) → ∀ n, loop (n + j) s = loop n (step^[j] s)
  | 0, _, _, _ => rfl
  | j + 1, s, h, n => by
      rw [← Nat.add_assoc, hcont _ _ (show cont s from h 0 (Nat.succ_pos _))]
      exact loop_iterate hcont j (step s) (fun i hi => h (i + 1) (by omega)) n

/-- **A loop whose state comes back after `P` iterations needs no more than `P` fuel.**  From `s`
it goes on to `step s` when `cont s`, or ends with an answer that does not depend on the fuel. -/
theorem fuel_periodic (h0 : ∀ s, loop 0 s = none)
    (hcont : ∀ n s, cont s → loop (n + 1) s = loop n (step s))
    (hstop : ∀ n m s, ¬ cont s → loop (n + 1) s = loop (m + 1) s)
    {P : Nat} (hP : 0 < P) (hper : ∀ s, Function.IsPeriodicPt step P s) (k : Nat) (s : σ) :
    loop (P + k) s = loop P s := by
  classical
  by_cases hall : ∀ i < P, cont (step^[i] s)
  · -- every iteration goes on, and the loop never ends
    have hever : ∀ i, cont (step^[i] s) := fun i => by
      rw [← (hper s).iterate_mod_apply i]
      exact hall _ (Nat.mod_lt _ hP)
    have hnone : ∀ j, loop j s = none := fun j => by
      rw [← Nat.zero_add j, loop_iterate loop step cont hcont j s (fun i _ => hever i), h0]
    rw [hnone, hnone]
  · -- the loop ends at the first state that does not go on
    push_neg at hall
    obtain ⟨hjP, hj⟩ := Nat.find_spec hall
    have hbefore : ∀ i < Nat.find hall, cont (step^[i] s) := fun i hi => by
      by_contra hc
      exact Nat.find_min hall hi ⟨by omega, hc⟩
    have hrun := loop_iterate loop step cont hcont _ s hbefore
    calc loop (P + k) s = loop (P - Nat.find hall - 1 + k + 1 + Nat.find hall) s := by
          congr 1; omega
      _ = loop (P - Nat.find hall - 1 + 1 + Nat.find hall) s := by
          rw [hrun, hrun, hstop _ _ _ hj]
      _ = loop P s := by congr 1; omega

end Periodic

/-! ### `+ 1` on `int` -/

namespace GoInt

/-- Adding one `k` times adds `k` and wraps. -/
theorem val_iterate_add_one (x : GoInt) : ∀ k : Nat, ((· + 1)^[k] x).val = wrap (x.val + k)
  | 0 => by rw [Function.iterate_zero_apply, Nat.cast_zero, Int.add_zero,
      wrap_of_mem x.min_le x.le_max]
  | k + 1 => by
      rw [Function.iterate_succ_apply']
      show wrap (((· + 1)^[k] x).val + 1) = _
      rw [val_iterate_add_one x k]
      unfold wrap
      omega

theorem isPeriodicPt_add_one (x : GoInt) : Function.IsPeriodicPt (· + 1) (2 ^ 64) x :=
  ext (by rw [val_iterate_add_one]; have := x.val_mem; unfold wrap; push_cast; omega)

end GoInt

namespace Allocator

/-! ### The loops of `next` -/

/-- A `reserve` that fails leaves the allocator as it was. -/
theorem eq_of_reserve_false {a a' : Allocator} {n : GoInt} (h : a.reserve n = some (false, a')) :
    a' = a := by
  cases hr : a.reserved n with
  | none => simp [reserve, hr] at h
  | some b =>
      cases b with
      | false => cases hs : Big.setBit a.pool (n - a.low) allocated <;> simp [reserve, hr, hs] at h
      | true => simpa [reserve, hr, eq_comm] using h

/-- What an iteration of a loop of `next` that goes on does: `a.follow++`. -/
def bump (a : Allocator) : Allocator := { a with follow := a.follow + 1 }

theorem iterate_bump (a : Allocator) :
    ∀ k : Nat, bump^[k] a = { a with follow := (· + 1)^[k] a.follow }
  | 0 => rfl
  | k + 1 => by
      rw [Function.iterate_succ_apply', iterate_bump a k, Function.iterate_succ_apply']; rfl

theorem isPeriodicPt_bump (a : Allocator) : Function.IsPeriodicPt bump loopFuel a := by
  show bump^[2 ^ 64] a = a
  rw [iterate_bump, (GoInt.isPeriodicPt_add_one a.follow).eq]

/-- **A loop of `next` with more fuel than `loopFuel` ends as it does with `loopFuel`.** -/
theorem scan_loopFuel_add (cond : GoInt → Bool) (k : Nat) (a : Allocator) :
    a.scan cond (loopFuel + k) = a.scan cond loopFuel :=
  fuel_periodic (fun n a => a.scan cond n) bump
    (fun a => cond a.follow = true ∧ a.reserve a.follow = some (false, a)) (fun _ => rfl)
    (fun _ _ h => scan_continue h.1 h.2)
    (fun n m a h => by
      by_cases hc : cond a.follow = true
      · rcases hr : a.reserve a.follow with _ | ⟨_ | _, a'⟩
        · simp [scan, hc, hr]
        · exact absurd ⟨hc, eq_of_reserve_false hr ▸ hr⟩ h
        · simp [scan, hc, hr]
      · simp [scan, hc])
    (Nat.two_pow_pos 64) isPeriodicPt_bump k a

/-! ### The inner loop of `String` -/

/-- **The inner loop of `String` with more fuel than `loopFuel` ends as with `loopFuel`.** -/
theorem runEnd_loopFuel_add (a : Allocator) (k : Nat) (x : GoInt) :
    a.runEnd (loopFuel + k) x = a.runEnd loopFuel x :=
  fuel_periodic (fun n x => a.runEnd n x) (· + 1)
    (fun x => a.reserved x = some true ∧ x ≤ a.high) (fun _ => rfl)
    (fun _ _ h => runEnd_succ_of_marked h.1 h.2)
    (fun n m x h => by
      rcases hr : a.reserved x with _ | ok
      · simp [runEnd, hr]
      · have hstop : ¬ (ok = true ∧ x ≤ a.high) := fun ⟨hok, hx⟩ => h ⟨hok ▸ hr, hx⟩
        exact (runEnd_succ_of_not hr hstop).trans (runEnd_succ_of_not hr hstop).symm)
    (Nat.two_pow_pos 64) GoInt.isPeriodicPt_add_one k x

end Allocator

end Amqp091
