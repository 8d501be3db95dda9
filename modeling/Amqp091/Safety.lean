/-
**No channel id is handed out twice.**

The allocator exists so that two live channels never share an id.  Through the refinement of
`Amqp091/Refinement.lean` this becomes a statement about any run of the code: between two calls
that both hand out `n`, some call in between is `release(n)`.  The argument is on the abstract
allocator: a number handed out becomes live, only `release` makes it dead again, and no call
hands out a live number.  The same refinement says what `String` prints in every reachable state.

Main results:

* `Amqp091.Allocator.release_between_handouts` — **between two handouts of the same number the
  code runs a `release` of it**;
* `Amqp091.Allocator.string_of_run` — `String` prints the maximal runs of the live set.
-/

import Amqp091.Refinement
import Amqp091.Render

set_option relaxedAutoImplicit false
set_option autoImplicit false

namespace Amqp091

/-- The number a call hands out: `next()` answering `(n, true)`, or `reserve(n)` answering `true`. -/
def handout : Op → Ret → Option GoInt
  | .next, .next n true => some n
  | .reserve n, .reserve true => some n
  | _, _ => none

/-! ### The abstract argument -/

/-- A number handed out was not live, and is live afterwards. -/
theorem AbsStep.handout {low high : Int} {L L' : Finset Int} {op : Op} {r : Ret} {n : GoInt}
    (h : AbsStep low high L op r L') (hn : Amqp091.handout op r = some n) :
    n.val ∉ L ∧ n.val ∈ L' := by
  cases h with
  | next_fresh _ _ hL =>
      simp only [Amqp091.handout, Option.some.injEq] at hn
      subst hn
      exact ⟨hL, Finset.mem_insert_self _ _⟩
  | next_full => simp [Amqp091.handout] at hn
  | reserve =>
      rename_i m
      by_cases hm : m.val ∈ L
      · simp [Amqp091.handout, hm] at hn
      · obtain rfl : m = n := by simpa [Amqp091.handout, hm] using hn
        exact ⟨hm, Finset.mem_insert_self _ _⟩
  | release => simp [Amqp091.handout] at hn

/-- A live number stays live through a step that does not release it. -/
theorem AbsStep.mem_of_mem {low high : Int} {L L' : Finset Int} {op : Op} {r : Ret} {m : Int}
    (h : AbsStep low high L op r L') (hm : m ∈ L) (hop : ∀ n : GoInt, op = .release n → n.val ≠ m) :
    m ∈ L' := by
  cases h with
  | next_fresh => exact Finset.mem_insert_of_mem hm
  | next_full => exact hm
  | reserve => exact Finset.mem_insert_of_mem hm
  | release => exact Finset.mem_erase.2 ⟨(hop _ rfl).symm, hm⟩

/-- A live number stays live through a run that does not release it. -/
theorem AbsRun.mem_of_mem {low high : Int} {L L' : Finset Int} {ops : List Op} {rs : List Ret}
    {m : Int} (h : AbsRun low high L ops rs L') (hm : m ∈ L)
    (hops : ∀ n : GoInt, .release n ∈ ops → n.val ≠ m) : m ∈ L' := by
  induction h with
  | nil => exact hm
  | cons hstep _ ih =>
      exact ih (hstep.mem_of_mem hm fun n hn => hops n (hn ▸ List.mem_cons_self _ _))
        fun n hn => hops n (List.mem_cons_of_mem _ hn)

namespace Allocator

section Safety

variable {low high : GoInt} (hlh : low ≤ high) (hmax : high.val < intMax)
  (hspan : high.val - low.val ≤ intMax)
include hlh hmax hspan

theorem refines_of_run {ops : List Op} {rs : List Ret} {a : Allocator}
    (hops : ∀ op ∈ ops, op.InRange low high) (h : (newAllocator low high).run ops = some (rs, a)) :
    Inv low high a ∧ ∃ L, Refines a L := by
  obtain ⟨rs', a', L, hrun, -, hi, hr⟩ := run_refines hmax hspan ops _ _
    ⟨rfl, rfl, GoInt.le_refl _, hlh⟩ (refines_newAllocator low high) hops
  rw [h, Option.some.injEq, Prod.mk.injEq] at hrun
  obtain ⟨-, rfl⟩ := hrun
  exact ⟨hi, L, hr⟩

/-- **Between two handouts of a number, the code releases it**: if `op₁` and `op₂` both hand out
`n`, one of the calls `mid` between them is `release(n)`. -/
theorem release_between_handouts {pre mid : List Op} {op₁ op₂ : Op} {rs₀ rs : List Ret}
    {r₁ r₂ : Ret} {a₀ a₁ a₂ a₃ : Allocator} {n : GoInt}
    (hops : ∀ op ∈ pre ++ op₁ :: mid ++ [op₂], op.InRange low high)
    (h₀ : (newAllocator low high).run pre = some (rs₀, a₀)) (h₁ : a₀.exec op₁ = some (r₁, a₁))
    (h₂ : a₁.run mid = some (rs, a₂)) (h₃ : a₂.exec op₂ = some (r₂, a₃))
    (hn₁ : handout op₁ r₁ = some n) (hn₂ : handout op₂ r₂ = some n) : Op.release n ∈ mid := by
  have hv : ∀ op ∈ pre, op.InRange low high := fun op h => hops op (by simp [h])
  obtain ⟨hi₀, L₀, hr₀⟩ := refines_of_run hlh hmax hspan hv h₀
  have hop₁ : op₁.InRange low high := hops op₁ (by simp)
  obtain ⟨L₁, hstep₁, hr₁⟩ := hr₀.exec hmax hspan hi₀ hop₁ h₁
  obtain ⟨rs', a', L₂, hrun, habs, hi₂, hr₂⟩ := run_refines hmax hspan mid a₁ L₁
    (hi₀.exec hmax hspan hop₁ h₁) hr₁ (fun op h => hops op (by simp [h]))
  rw [h₂, Option.some.injEq, Prod.mk.injEq] at hrun
  obtain ⟨rfl, rfl⟩ := hrun
  obtain ⟨L₃, hstep₂, -⟩ := hr₂.exec hmax hspan hi₂ (hops op₂ (by simp)) h₃
  by_contra hrel
  exact (hstep₂.handout hn₂).1 (habs.mem_of_mem (hstep₁.handout hn₁).2
    fun m hm hmn => hrel (GoInt.ext hmn ▸ hm))

end Safety

theorem release_between_handouts_one :
    (1 : GoInt) ≤ 1 ∧ (1 : GoInt).val < intMax ∧ (1 : GoInt).val - (1 : GoInt).val ≤ intMax ∧
      (∀ op ∈ ([] : List Op) ++ Op.next :: [Op.release 1] ++ [Op.next], op.InRange 1 1) ∧
      (newAllocator 1 1).run [] = some ([], newAllocator 1 1) ∧
      (newAllocator 1 1).exec .next = some (.next 1 true, ⟨1, 1, 1, 1⟩) ∧
      (⟨1, 1, 1, 1⟩ : Allocator).run [.release 1] = some ([.release], ⟨0, 1, 1, 1⟩) ∧
      (⟨0, 1, 1, 1⟩ : Allocator).exec .next = some (.next 1 true, ⟨1, 1, 1, 1⟩) ∧
      handout .next (.next 1 true) = some 1 ∧ Op.release 1 ∈ [Op.release 1] :=
  ⟨by decide, by decide, by decide, by decide, by decide, by decide, by decide, by decide,
    by decide, @release_between_handouts 1 1 (by decide) (by decide) (by decide) [] [.release 1]
      .next .next [] [.release] (.next 1 true) (.next 1 true) (newAllocator 1 1) ⟨1, 1, 1, 1⟩
      ⟨0, 1, 1, 1⟩ ⟨1, 1, 1, 1⟩ 1 (by decide) (by decide) (by decide) (by decide) (by decide)
      (by decide) (by decide)⟩

/-- **`String` prints the live set**: after every sequence of calls in `[low, high]`, it prints the
maximal runs of the live set of the abstract run. -/
theorem string_of_run {low high : GoInt} (hlh : low ≤ high) (hmax : high.val + 2 ≤ intMax)
    (hspan : high.val - low.val < intMax) (ops : List Op)
    (hops : ∀ op ∈ ops, op.InRange low high) :
    ∃ rs a L runs, (newAllocator low high).run ops = some (rs, a) ∧
      AbsRun low.val high.val ∅ ops rs L ∧ IsRuns (· ∈ L) low.val high.val runs ∧
      a.string = some ("allocator[" ++ toString low.val ++ ".." ++ toString high.val ++ "]" ++
        renderRuns runs) := by
  have hmax' : high.val < intMax := by omega
  have hspan' : high.val - low.val ≤ intMax := by omega
  obtain ⟨rs, a, L, hrun, habs, ⟨hl, hh, -, -⟩, hr⟩ := run_refines hmax' hspan' ops _ _
    ⟨rfl, rfl, GoInt.le_refl _, hlh⟩ (refines_newAllocator low high) hops
  subst hl hh
  obtain ⟨runs, hruns, hs⟩ := runs_spec hmax hspan loopFuel a.low
    ("allocator[" ++ toString a.low ++ ".." ++ toString a.high ++ "]") (GoInt.le_refl _)
    (by have := a.low.val_mem; unfold intMax at hmax; unfold loopFuel; omega)
  exact ⟨rs, a, L, runs, hrun, habs, hruns.congr fun m h₁ _ => hr.marked_iff m h₁,
    by simpa [string] using hs⟩

theorem string_of_run_example :
    (1 : GoInt) ≤ 4 ∧ (4 : GoInt).val + 2 ≤ intMax ∧ (4 : GoInt).val - (1 : GoInt).val < intMax ∧
      (∀ op ∈ [Op.next, .next, .reserve 4, .release 1], op.InRange 1 4) ∧
      ∃ rs a L runs, (newAllocator 1 4).run [.next, .next, .reserve 4, .release 1] = some (rs, a) ∧
        AbsRun (1 : GoInt).val (4 : GoInt).val ∅ [.next, .next, .reserve 4, .release 1] rs L ∧
        IsRuns (· ∈ L) (1 : GoInt).val (4 : GoInt).val runs ∧
        a.string = some ("allocator[" ++ toString (1 : GoInt).val ++ ".." ++
          toString (4 : GoInt).val ++ "]" ++ renderRuns runs) :=
  ⟨by decide, by decide, by decide, by decide,
    string_of_run (by decide) (by decide) (by decide) _ (by decide)⟩

end Allocator

end Amqp091
