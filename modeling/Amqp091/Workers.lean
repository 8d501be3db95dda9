/-
**Workers sharing one allocator.**

The integration tests open and close channels from several goroutines of one connection
(`TestChannelCounterShouldNotPanicIssue136`, `TestIntegrationChannelClosing`); an open is one call
of `next`, failing with `ErrChannelMax` when it answers `(0, false)`, and a close is one call of
`release`.  This module models that workload as `W` workers, each opening while it holds fewer
than `cap` channels and closing only a channel it holds, with their calls interleaved in any
order.  Over every interleaving no id is held twice and the pool is the held ids, no allowed
call panics, an open fails exactly when every id is held, and with `W * cap ≤ high - low + 1` no
open ever fails.

Main results:

* `Amqp091.Workers.Inv.step` — every allowed call keeps the invariant;
* `Amqp091.Workers.reachable_safe` — **no id is held twice, and the pool is the held ids**;
* `Amqp091.Workers.channel_ok_of_capacity` — **no open fails while `W * cap` ids fit in the
  range**, and `Amqp091.Workers.channel_fails_of_capacity` — that bound is exact;
* `Amqp091.Workers.reachable_alloc` — every allocator state of an interleaving is reachable by the
  allocator alone.
-/

import Amqp091.Fresh
import Amqp091.Refinement

set_option relaxedAutoImplicit false
set_option autoImplicit false

namespace Amqp091

/-- An allocator shared by `W` workers, with the ids each worker opened and has not closed. -/
structure Workers (W : Nat) where
  alloc : Allocator
  held : Fin W → Finset Int

namespace Workers

variable {W : Nat}

/-- Before any call: `newAllocator low high`, and no worker holds anything. -/
def init (low high : GoInt) : Workers W := ⟨newAllocator low high, fun _ => ∅⟩

/-- The ids some worker holds. -/
def live (s : Workers W) : Finset Int := Finset.univ.biUnion s.held

theorem mem_live {s : Workers W} {m : Int} : m ∈ s.live ↔ ∃ w, m ∈ s.held w := by
  simp [live]

@[simp] theorem live_mk (a : Allocator) (f : Fin W → Finset Int) :
    (⟨a, f⟩ : Workers W).live = Finset.univ.biUnion f := rfl

@[simp] theorem live_init (low high : GoInt) : (init low high : Workers W).live = ∅ :=
  Finset.eq_empty_of_forall_not_mem fun _ hm => by simpa [init] using mem_live.1 hm

/-- A call of a worker: open a channel, or close the channel of id `n`. -/
inductive Act (W : Nat)
  | channel (w : Fin W)
  | close (w : Fin W) (n : GoInt)
deriving DecidableEq, Repr

/-- The calls the workload makes: a worker opens while it holds fewer than `cap` channels, and
closes only a channel it holds. -/
def Act.Allowed (cap : Nat) (s : Workers W) : Act W → Prop
  | .channel w => (s.held w).card < cap
  | .close w n => n.val ∈ s.held w

instance (cap : Nat) (s : Workers W) : (act : Act W) → Decidable (act.Allowed cap s)
  | .channel w => inferInstanceAs (Decidable ((s.held w).card < cap))
  | .close w n => inferInstanceAs (Decidable (n.val ∈ s.held w))

/-- One call, and who holds what after it: an open that `next` answers `(n, true)` gives `n` to the
worker, one answered `(0, false)` fails; a close releases the id.  `none` when the allocator
panics. -/
def step (s : Workers W) : Act W → Option (Workers W)
  | .channel w => s.alloc.next.map fun ((n, ok), a) =>
      ⟨a, if ok then Function.update s.held w (insert n.val (s.held w)) else s.held⟩
  | .close w n => (s.alloc.release n).map fun a =>
      ⟨a, Function.update s.held w ((s.held w).erase n.val)⟩

/-- The states of every interleaving of the workers' calls from `newAllocator low high`. -/
inductive Reachable (low high : GoInt) (cap : Nat) : Workers W → Prop
  | start : Reachable low high cap (init low high)
  | step {s s' : Workers W} {act : Act W} : Reachable low high cap s → act.Allowed cap s →
      s.step act = some s' → Reachable low high cap s'

/-! ### What one call does -/

theorem step_channel {s s' : Workers W} {w : Fin W} (h : s.step (.channel w) = some s') :
    (∃ n a, s.alloc.next = some ((n, true), a) ∧
      s' = ⟨a, Function.update s.held w (insert n.val (s.held w))⟩) ∨
    (∃ n a, s.alloc.next = some ((n, false), a) ∧ s' = ⟨a, s.held⟩) := by
  simp only [step, Option.map_eq_some'] at h
  obtain ⟨⟨⟨n, _ | _⟩, a⟩, hn, rfl⟩ := h
  · exact .inr ⟨n, a, hn, rfl⟩
  · exact .inl ⟨n, a, hn, rfl⟩

theorem step_close {s s' : Workers W} {w : Fin W} {n : GoInt}
    (h : s.step (.close w n) = some s') :
    ∃ a, s.alloc.release n = some a ∧
      s' = ⟨a, Function.update s.held w ((s.held w).erase n.val)⟩ := by
  simp only [step, Option.map_eq_some'] at h
  obtain ⟨a, ha, rfl⟩ := h
  exact ⟨a, ha, rfl⟩

theorem step_channel_eq {s : Workers W} (w : Fin W) (n : GoInt) {a : Allocator}
    {f : Fin W → Finset Int} (hn : s.alloc.next = some ((n, true), a))
    (hf : Function.update s.held w (insert n.val (s.held w)) = f) :
    s.step (.channel w) = some ⟨a, f⟩ := by
  simp [step, hn, hf]

theorem step_close_eq {s : Workers W} (w : Fin W) (n : GoInt) {a : Allocator}
    {f : Fin W → Finset Int} (hr : s.alloc.release n = some a)
    (hf : Function.update s.held w ((s.held w).erase n.val) = f) :
    s.step (.close w n) = some ⟨a, f⟩ := by
  simp [step, hr, hf]

/-! ### Changing what one worker holds -/

section Update

variable {f : Fin W → Finset Int} {w : Fin W} {t : Finset Int}

theorem exists_mem_update {m : Int} :
    (∃ v, m ∈ Function.update f w t v) ↔ m ∈ t ∨ ∃ v, v ≠ w ∧ m ∈ f v := by
  constructor
  · rintro ⟨v, hv⟩
    by_cases hvw : v = w
    · subst hvw
      exact .inl (by simpa using hv)
    · exact .inr ⟨v, hvw, by simpa [Function.update_noteq hvw] using hv⟩
  · rintro (hm | ⟨v, hvw, hm⟩)
    · exact ⟨w, by simpa using hm⟩
    · exact ⟨v, by simpa [Function.update_noteq hvw] using hm⟩

theorem biUnion_update_insert (x : Int) :
    Finset.univ.biUnion (Function.update f w (insert x (f w))) =
      insert x (Finset.univ.biUnion f) := by
  ext m
  simp only [Finset.mem_biUnion, Finset.mem_univ, true_and, Finset.mem_insert, exists_mem_update]
  constructor
  · rintro ((rfl | hm) | ⟨v, -, hm⟩)
    · exact .inl rfl
    · exact .inr ⟨w, hm⟩
    · exact .inr ⟨v, hm⟩
  · rintro (rfl | ⟨v, hm⟩)
    · exact .inl (.inl rfl)
    · by_cases hvw : v = w
      · exact .inl (.inr (hvw ▸ hm))
      · exact .inr ⟨v, hvw, hm⟩

theorem biUnion_update_erase {x : Int} (hx : ∀ v, v ≠ w → x ∉ f v) :
    Finset.univ.biUnion (Function.update f w ((f w).erase x)) =
      (Finset.univ.biUnion f).erase x := by
  ext m
  simp only [Finset.mem_biUnion, Finset.mem_univ, true_and, Finset.mem_erase, exists_mem_update]
  constructor
  · rintro (⟨hne, hm⟩ | ⟨v, hvw, hm⟩)
    · exact ⟨hne, w, hm⟩
    · exact ⟨fun he => hx v hvw (he ▸ hm), v, hm⟩
  · rintro ⟨hne, v, hm⟩
    by_cases hvw : v = w
    · exact .inl ⟨hne, hvw ▸ hm⟩
    · exact .inr ⟨v, hvw, hm⟩

theorem disjoint_update (hf : ∀ v v', v ≠ v' → Disjoint (f v) (f v'))
    (ht : ∀ v, v ≠ w → Disjoint t (f v)) :
    ∀ v v', v ≠ v' → Disjoint (Function.update f w t v) (Function.update f w t v') := by
  intro v v' hne
  by_cases hv : v = w <;> by_cases hv' : v' = w
  · exact absurd (hv.trans hv'.symm) hne
  · subst hv
    simpa [Function.update_noteq hv'] using ht v' hv'
  · subst hv'
    simpa [Function.update_noteq hv] using (ht v hv).symm
  · simpa [Function.update_noteq hv, Function.update_noteq hv'] using hf v v' hne

theorem card_update_le {cap : Nat} (hf : ∀ v, (f v).card ≤ cap) (ht : t.card ≤ cap) (v : Fin W) :
    (Function.update f w t v).card ≤ cap := by
  by_cases hv : v = w
  · subst hv
    simpa using ht
  · simpa [Function.update_noteq hv] using hf v

end Update

theorem live_insert (a : Allocator) (s : Workers W) (w : Fin W) (x : Int) :
    (⟨a, Function.update s.held w (insert x (s.held w))⟩ : Workers W).live = insert x s.live :=
  biUnion_update_insert x

theorem live_erase (a : Allocator) {s : Workers W} {w : Fin W} {x : Int}
    (hx : ∀ v, v ≠ w → x ∉ s.held v) :
    (⟨a, Function.update s.held w ((s.held w).erase x)⟩ : Workers W).live = s.live.erase x :=
  biUnion_update_erase hx

/-! ### The invariant of every interleaving -/

/-- The invariant: the allocator keeps its bounds and its cursor in range, its pool marks exactly
the ids some worker holds, no id is held by two workers, and no worker holds more than `cap`. -/
structure Inv (low high : GoInt) (cap : Nat) (s : Workers W) : Prop where
  alloc : Allocator.Inv low high s.alloc
  refines : s.alloc.Refines s.live
  disjoint : ∀ v w, v ≠ w → Disjoint (s.held v) (s.held w)
  capped : ∀ w, (s.held w).card ≤ cap

theorem inv_init {low high : GoInt} (cap : Nat) (hlh : low ≤ high) :
    Inv low high cap (init low high : Workers W) :=
  ⟨⟨rfl, rfl, GoInt.le_refl _, hlh⟩,
    live_init (W := W) low high ▸ Allocator.refines_newAllocator low high,
    fun _ _ _ => Finset.disjoint_empty_left _, fun _ => by simp [init]⟩

section Step

variable {low high : GoInt} {cap : Nat} (hmax : high.val < intMax)
  (hspan : high.val - low.val ≤ intMax)
include hmax hspan

/-- **Every allowed call keeps the invariant.** -/
theorem Inv.step {s s' : Workers W} {act : Act W} (hi : Inv low high cap s)
    (ha : act.Allowed cap s) (h : s.step act = some s') : Inv low high cap s' := by
  -- a call of a worker is one call of the allocator, simulated by one abstract step
  have hcall : ∀ {op : Op} {r : Ret} {a : Allocator}, op.InRange low high →
      s.alloc.exec op = some (r, a) →
      Allocator.Inv low high a ∧ ∃ L, AbsStep low.val high.val s.live op r L ∧ a.Refines L :=
    fun hop h => ⟨hi.alloc.exec hmax hspan hop h, hi.refines.exec hmax hspan hi.alloc hop h⟩
  obtain ⟨⟨hl, hh, -, -⟩, hr, hd, hc⟩ := hi
  cases act with
  | channel w =>
      rcases step_channel h with ⟨n, a, hn, rfl⟩ | ⟨n, a, hn, rfl⟩
      · obtain ⟨halloc, L, hstep, hr'⟩ := hcall (show Op.InRange low high .next from trivial)
          (show s.alloc.exec .next = some (.next n true, a) by simp [Allocator.exec, hn])
        cases hstep with
        | next_fresh _ _ hnL =>
            refine ⟨halloc, by rw [live_insert]; exact hr', disjoint_update hd fun v hv =>
              Finset.disjoint_insert_left.2
                ⟨fun hv' => hnL (mem_live.2 ⟨v, hv'⟩), hd w v (Ne.symm hv)⟩,
              card_update_le hc ((Finset.card_insert_le _ _).trans ha)⟩
      · obtain ⟨halloc, L, hstep, hr'⟩ := hcall (show Op.InRange low high .next from trivial)
          (show s.alloc.exec .next = some (.next n false, a) by simp [Allocator.exec, hn])
        cases hstep with
        | next_full _ => exact ⟨halloc, hr', hd, hc⟩
  | close w n =>
      obtain ⟨a, hrel, rfl⟩ := step_close h
      have hn := hr.mem_range _ (mem_live.2 ⟨w, ha⟩)
      obtain ⟨halloc, L, hstep, hr'⟩ :=
        hcall (show Op.InRange low high (.release n) from hl ▸ hh ▸ hn)
          (show s.alloc.exec (.release n) = some (.release, a) by simp [Allocator.exec, hrel])
      cases hstep
      refine ⟨halloc, ?_, disjoint_update hd fun v hv =>
        Finset.disjoint_of_subset_left (Finset.erase_subset _ _) (hd w v (Ne.symm hv)),
        card_update_le hc (Finset.card_erase_le.trans (hc w))⟩
      rw [live_erase _ fun v hv hnv => Finset.disjoint_left.1 (hd w v (Ne.symm hv)) ha hnv]
      exact hr'

/-- **What `next` answers under the invariant**: an id of the range that no worker holds, or
`(0, false)` when every id of the range is held. -/
theorem Inv.next_cases {s : Workers W} (hi : Inv low high cap s) :
    (∃ n a, s.alloc.next = some ((n, true), a) ∧ low ≤ n ∧ n ≤ high ∧ n.val ∉ s.live) ∨
      (∃ a, s.alloc.next = some ((0, false), a) ∧
        ∀ m, low.val ≤ m → m ≤ high.val → ∃ w, m ∈ s.held w) := by
  obtain ⟨⟨rfl, rfl, hf₁, hf₂⟩, hr, -, -⟩ := hi
  obtain ⟨⟨n, _ | _⟩, a, hn, hspec⟩ := Allocator.next_spec hf₁ hf₂ hmax hspan
  · obtain ⟨hall, rfl, -⟩ := hspec
    exact .inr ⟨a, hn, fun m h₁ h₂ => mem_live.1 ((hr.marked_iff m h₁).1 (hall m h₁ h₂))⟩
  · obtain ⟨⟨hn₁, hn₂, hfree, -⟩, -⟩ := hspec
    exact .inl ⟨n, a, hn, hn₁, hn₂, fun hL => by simp [(hr.marked_iff _ hn₁).2 hL] at hfree⟩

theorem Inv.step_isSome {s : Workers W} {act : Act W} (hi : Inv low high cap s)
    (ha : act.Allowed cap s) : ∃ s', s.step act = some s' := by
  cases act with
  | channel w =>
      rcases hi.next_cases hmax hspan with ⟨n, a, hn, -⟩ | ⟨a, hn, -⟩ <;>
        exact Option.isSome_iff_exists.1 (by simp [Workers.step, hn])
  | close w n =>
      obtain ⟨⟨rfl, rfl, -, -⟩, hr, -, -⟩ := hi
      have hn := hr.mem_range _ (mem_live.2 ⟨w, ha⟩)
      exact Option.isSome_iff_exists.1
        (by simp [Workers.step, Allocator.release_of_index hn.1 (show n.val - _ ≤ intMax by omega)])

theorem Inv.next_false_iff {s : Workers W} (hi : Inv low high cap s) :
    (∃ a, s.alloc.next = some ((0, false), a)) ↔
      ∀ m, low.val ≤ m → m ≤ high.val → ∃ w, m ∈ s.held w := by
  rcases hi.next_cases hmax hspan with ⟨n, a, hn, hn₁, hn₂, hnL⟩ | ⟨a, hn, hall⟩
  · exact ⟨fun ⟨_, h⟩ => by simp [hn] at h, fun hall => absurd (mem_live.2 (hall _ hn₁ hn₂)) hnL⟩
  · exact ⟨fun _ => hall, fun _ => ⟨a, hn⟩⟩

end Step

theorem inv_of_reachable {low high : GoInt} {cap : Nat} (hlh : low ≤ high)
    (hmax : high.val < intMax) (hspan : high.val - low.val ≤ intMax) {s : Workers W}
    (hs : Reachable low high cap s) : Inv low high cap s := by
  induction hs with
  | start => exact inv_init cap hlh
  | step _ ha h ih => exact ih.step hmax hspan ha h

/-- While a worker holds fewer than `cap` ids and no worker more, fewer than `W * cap` are held. -/
theorem card_live_lt {cap : Nat} {s : Workers W} (hc : ∀ v, (s.held v).card ≤ cap) {w : Fin W}
    (hw : (s.held w).card < cap) : s.live.card < W * cap :=
  calc s.live.card ≤ ∑ v, (s.held v).card := Finset.card_biUnion_le
    _ < ∑ _v : Fin W, cap := Finset.sum_lt_sum (fun v _ => hc v) ⟨w, Finset.mem_univ _, hw⟩
    _ = W * cap := by simp

/-- While fewer than `W * cap` ids are held, in disjoint sets, some worker holds fewer than `cap`. -/
theorem exists_card_lt {cap : Nat} {s : Workers W}
    (hd : ∀ v w, v ≠ w → Disjoint (s.held v) (s.held w)) (h : s.live.card < W * cap) :
    ∃ w, (s.held w).card < cap := by
  by_contra hall
  push_neg at hall
  have : W * cap ≤ s.live.card :=
    calc W * cap = ∑ _v : Fin W, cap := by simp
      _ ≤ ∑ v, (s.held v).card := Finset.sum_le_sum fun v _ => hall v
      _ = s.live.card := (Finset.card_biUnion fun v _ w _ hvw => hd v w hvw).symm
  omega

theorem card_Icc_eq_size (low high : GoInt) :
    (Finset.Icc low.val high.val).card = Allocator.size low high := by
  rw [Int.card_Icc, Allocator.size]
  omega

theorem Inv.live_subset {low high : GoInt} {cap : Nat} {s : Workers W} (hi : Inv low high cap s) :
    s.live ⊆ Finset.Icc low.val high.val := fun m hm => by
  obtain ⟨⟨rfl, rfl, -, -⟩, hr, -, -⟩ := hi
  exact Finset.mem_Icc.2 (hr.mem_range m hm)

theorem size_le_card_live {low high : GoInt} {s : Workers W}
    (hall : ∀ m, low.val ≤ m → m ≤ high.val → ∃ w, m ∈ s.held w) :
    Allocator.size low high ≤ s.live.card :=
  card_Icc_eq_size low high ▸ Finset.card_le_card fun m hm =>
    mem_live.2 (hall m (Finset.mem_Icc.1 hm).1 (Finset.mem_Icc.1 hm).2)

/-! ### Every interleaving -/

section Runs

variable {low high : GoInt} {cap : Nat} (hlh : low ≤ high) (hmax : high.val < intMax)
  (hspan : high.val - low.val ≤ intMax)
include hlh hmax hspan

/-- **No id is held by two workers, and the pool is the held ids**, in every state of every
interleaving; every held id lies in `[low, high]`, and no worker holds more than `cap`. -/
theorem reachable_safe {s : Workers W} (hs : Reachable low high cap s) :
    (∀ v w, v ≠ w → Disjoint (s.held v) (s.held w)) ∧
      (∀ m : GoInt, low ≤ m → (s.alloc.reserved m = some true ↔ ∃ w, m.val ∈ s.held w)) ∧
      (∀ w, ∀ m ∈ s.held w, low.val ≤ m ∧ m ≤ high.val) ∧ (∀ w, (s.held w).card ≤ cap) := by
  obtain ⟨⟨hl, hh, -, -⟩, hr, hd, hc⟩ := inv_of_reachable hlh hmax hspan hs
  subst hl hh
  exact ⟨hd, fun m hm => (hr.reserved_iff hspan m hm).trans mem_live,
    fun w m hm => hr.mem_range m (mem_live.2 ⟨w, hm⟩), hc⟩

/-- **No allowed call panics**, in every state of every interleaving. -/
theorem step_of_reachable {s : Workers W} (hs : Reachable low high cap s) {act : Act W}
    (ha : act.Allowed cap s) : ∃ s', s.step act = some s' :=
  (inv_of_reachable hlh hmax hspan hs).step_isSome hmax hspan ha

/-- **An open fails with `ErrChannelMax` exactly when every id is held.** -/
theorem channel_fails_iff {s : Workers W} (hs : Reachable low high cap s) :
    (∃ a, s.alloc.next = some ((0, false), a)) ↔
      ∀ m, low.val ≤ m → m ≤ high.val → ∃ w, m ∈ s.held w :=
  (inv_of_reachable hlh hmax hspan hs).next_false_iff hmax hspan

/-- **Closing every channel gives the memory back**: the pool is zero exactly when no worker holds
an id. -/
theorem pool_eq_zero_iff {s : Workers W} (hs : Reachable low high cap s) :
    s.alloc.pool = 0 ↔ ∀ w, s.held w = ∅ := by
  obtain ⟨⟨hl, -, -, -⟩, hr, -, -⟩ := inv_of_reachable hlh hmax hspan hs
  constructor
  · intro h0 w
    refine Finset.eq_empty_of_forall_not_mem fun m hm => ?_
    have hlive := mem_live.2 ⟨w, hm⟩
    have hmarked := (hr.marked_iff m (hr.mem_range m hlive).1).2 hlive
    simp [Allocator.marked, h0] at hmarked
  · intro hempty
    have hL : s.live = ∅ := Finset.eq_empty_of_forall_not_mem fun m hm => by
      obtain ⟨w, hw⟩ := mem_live.1 hm
      simp [hempty w] at hw
    rw [hL] at hr
    exact hr.pool_eq (Allocator.refines_newAllocator low high) hl

/-- **No open fails while the workers fit in the range**: with `W * cap ≤ high - low + 1` an
allowed open hands out an id of `[low, high]` that no worker holds. -/
theorem channel_ok_of_capacity (hcap : W * cap ≤ Allocator.size low high) {s : Workers W}
    (hs : Reachable low high cap s) {w : Fin W} (hw : (s.held w).card < cap) :
    ∃ n a, s.alloc.next = some ((n, true), a) ∧ low ≤ n ∧ n ≤ high ∧ ∀ v, n.val ∉ s.held v := by
  have hi := inv_of_reachable hlh hmax hspan hs
  rcases hi.next_cases hmax hspan with ⟨n, a, hn, hn₁, hn₂, hnL⟩ | ⟨a, -, hall⟩
  · exact ⟨n, a, hn, hn₁, hn₂, fun v hv => hnL (mem_live.2 ⟨v, hv⟩)⟩
  · -- every id of the range is held: at least `high - low + 1 ≥ W * cap` of them
    have := size_le_card_live hall
    have := card_live_lt hi.capped hw
    omega

/-- **The workers are clients of the allocator**: every allocator state of an interleaving is
reached by the allocator alone, so every result about its reachable states holds here. -/
theorem reachable_alloc {s : Workers W} (hs : Reachable low high cap s) :
    Amqp091.Reachable low high s.alloc := by
  induction hs with
  | start => exact .init
  | @step s s' act hs ha h ih =>
      cases act with
      | channel w =>
          rcases step_channel h with ⟨n, a, hn, rfl⟩ | ⟨n, a, hn, rfl⟩ <;>
            exact .step ih (show Op.InRange low high .next from trivial)
              (by simp only [Allocator.exec, hn, Option.map_some']; rfl)
      | close w n =>
          obtain ⟨a, hrel, rfl⟩ := step_close h
          obtain ⟨⟨hl, hh, -, -⟩, hr, -, -⟩ := inv_of_reachable hlh hmax hspan hs
          have hn := hr.mem_range _ (mem_live.2 ⟨w, ha⟩)
          exact .step ih (show Op.InRange low high (.release n) from hl ▸ hh ▸ hn)
            (by simp only [Allocator.exec, hrel, Option.map_some']; rfl)

/-- While the workers could hold more ids than the range has, some interleaving goes on opening
until every id is held. -/
theorem reachable_full (hcap : Allocator.size low high < W * cap) :
    ∀ (k : Nat) (s : Workers W), Reachable low high cap s →
      s.live.card + k = Allocator.size low high →
      ∃ s' : Workers W, Reachable low high cap s' ∧
        ∀ m, low.val ≤ m → m ≤ high.val → ∃ w, m ∈ s'.held w := by
  intro k
  induction k with
  | zero =>
      intro s hs hk
      have hi := inv_of_reachable hlh hmax hspan hs
      have hL := Finset.eq_of_subset_of_card_le hi.live_subset
        (by rw [card_Icc_eq_size]; omega)
      exact ⟨s, hs, fun m h₁ h₂ => mem_live.1 (hL ▸ Finset.mem_Icc.2 ⟨h₁, h₂⟩)⟩
  | succ k ih =>
      intro s hs hk
      have hi := inv_of_reachable hlh hmax hspan hs
      obtain ⟨w, hw⟩ := exists_card_lt hi.disjoint (show s.live.card < W * cap by omega)
      rcases hi.next_cases hmax hspan with ⟨n, a, hn, -, -, hnL⟩ | ⟨a, -, hall⟩
      · -- the worker opens, and one more id is held
        have hs' : Reachable low high cap ⟨a, Function.update s.held w (insert n.val (s.held w))⟩ :=
          .step hs (show (Act.channel w : Act W).Allowed cap s from hw)
            (by simp [Workers.step, hn])
        exact ih _ hs'
          (by rw [live_insert, Finset.card_insert_of_not_mem hnL]; omega)
      · have := size_le_card_live hall
        omega

/-- **The capacity bound is exact**: with `high - low + 1 < W * cap`, some interleaving reaches an
allowed open that fails with `ErrChannelMax`. -/
theorem channel_fails_of_capacity (hcap : Allocator.size low high < W * cap) :
    ∃ s : Workers W, Reachable low high cap s ∧ ∃ w, (s.held w).card < cap ∧
      ∃ a, s.alloc.next = some ((0, false), a) := by
  obtain ⟨s, hs, hall⟩ :=
    reachable_full hlh hmax hspan hcap (Allocator.size low high) (init low high) .start (by simp)
  have hi := inv_of_reachable hlh hmax hspan hs
  obtain ⟨w, hw⟩ := exists_card_lt hi.disjoint
    ((Finset.card_le_card hi.live_subset).trans_lt (card_Icc_eq_size low high ▸ hcap))
  exact ⟨s, hs, w, hw, (hi.next_false_iff hmax hspan).2 hall⟩

end Runs

/-! ### One interleaving

Two workers of at most two channels on `[1, 4]`: worker 0 opens `1`, worker 1 opens `2`, worker 0
opens `3` and closes `1`.  From there either both open until every id is held, or both close
everything they hold. -/

def interleaved : Workers 2 := ⟨⟨6, 4, 1, 4⟩, ![{3}, {2}]⟩

def saturated : Workers 2 := ⟨⟨15, 2, 1, 4⟩, ![{1, 3}, {4, 2}]⟩

def drained : Workers 2 := ⟨⟨0, 4, 1, 4⟩, ![∅, ∅]⟩

theorem interleaved_reachable : Reachable 1 4 2 interleaved :=
  .step (s := ⟨⟨7, 4, 1, 4⟩, ![{3, 1}, {2}]⟩)
    (.step (s := ⟨⟨3, 3, 1, 4⟩, ![{1}, {2}]⟩)
      (.step (s := ⟨⟨1, 2, 1, 4⟩, ![{1}, ∅]⟩)
        (.step .start (by decide) (step_channel_eq 0 1 (by decide) (by decide)))
        (by decide) (step_channel_eq 1 2 (by decide) (by decide)))
      (by decide) (step_channel_eq 0 3 (by decide) (by decide)))
    (by decide) (step_close_eq 0 1 (by decide) (by decide))

theorem saturated_reachable : Reachable 1 4 2 saturated :=
  .step (s := ⟨⟨14, 1, 1, 4⟩, ![{3}, {4, 2}]⟩)
    (.step interleaved_reachable (by decide) (step_channel_eq 1 4 (by decide) (by decide)))
    (by decide) (step_channel_eq 0 1 (by decide) (by decide))

theorem drained_reachable : Reachable 1 4 2 drained :=
  .step (s := ⟨⟨2, 4, 1, 4⟩, ![∅, {2}]⟩)
    (.step interleaved_reachable (by decide) (step_close_eq 0 3 (by decide) (by decide)))
    (by decide) (step_close_eq 1 2 (by decide) (by decide))

theorem reachable_safe_interleaved :
    (1 : GoInt) ≤ 4 ∧ (4 : GoInt).val < intMax ∧ (4 : GoInt).val - (1 : GoInt).val ≤ intMax ∧
      Reachable 1 4 2 interleaved ∧
      (∀ v w, v ≠ w → Disjoint (interleaved.held v) (interleaved.held w)) ∧
      (∀ m : GoInt, 1 ≤ m →
        (interleaved.alloc.reserved m = some true ↔ ∃ w, m.val ∈ interleaved.held w)) ∧
      (∀ w, ∀ m ∈ interleaved.held w, (1 : GoInt).val ≤ m ∧ m ≤ (4 : GoInt).val) ∧
      (∀ w, (interleaved.held w).card ≤ 2) :=
  ⟨by decide, by decide, by decide, interleaved_reachable,
    reachable_safe (by decide) (by decide) (by decide) interleaved_reachable⟩

theorem step_of_reachable_interleaved :
    (1 : GoInt) ≤ 4 ∧ (4 : GoInt).val < intMax ∧ (4 : GoInt).val - (1 : GoInt).val ≤ intMax ∧
      Reachable 1 4 2 interleaved ∧ (Act.channel 1 : Act 2).Allowed 2 interleaved ∧
      ∃ s', interleaved.step (.channel 1) = some s' :=
  ⟨by decide, by decide, by decide, interleaved_reachable, by decide,
    step_of_reachable (by decide) (by decide) (by decide) interleaved_reachable (by decide)⟩

theorem channel_fails_iff_saturated :
    (1 : GoInt) ≤ 4 ∧ (4 : GoInt).val < intMax ∧ (4 : GoInt).val - (1 : GoInt).val ≤ intMax ∧
      Reachable 1 4 2 saturated ∧
      ((∃ a, saturated.alloc.next = some ((0, false), a)) ↔
        ∀ m, (1 : GoInt).val ≤ m → m ≤ (4 : GoInt).val → ∃ w, m ∈ saturated.held w) :=
  ⟨by decide, by decide, by decide, saturated_reachable,
    channel_fails_iff (by decide) (by decide) (by decide) saturated_reachable⟩

theorem pool_eq_zero_iff_drained :
    (1 : GoInt) ≤ 4 ∧ (4 : GoInt).val < intMax ∧ (4 : GoInt).val - (1 : GoInt).val ≤ intMax ∧
      Reachable 1 4 2 drained ∧ (drained.alloc.pool = 0 ↔ ∀ w, drained.held w = ∅) :=
  ⟨by decide, by decide, by decide, drained_reachable,
    pool_eq_zero_iff (by decide) (by decide) (by decide) drained_reachable⟩

theorem channel_ok_of_capacity_interleaved :
    (1 : GoInt) ≤ 4 ∧ (4 : GoInt).val < intMax ∧ (4 : GoInt).val - (1 : GoInt).val ≤ intMax ∧
      2 * 2 ≤ Allocator.size 1 4 ∧ Reachable 1 4 2 interleaved ∧
      (interleaved.held 1).card < 2 ∧
      ∃ n a, interleaved.alloc.next = some ((n, true), a) ∧ 1 ≤ n ∧ n ≤ 4 ∧
        ∀ v, n.val ∉ interleaved.held v :=
  ⟨by decide, by decide, by decide, by decide, interleaved_reachable, by decide,
    channel_ok_of_capacity (by decide) (by decide) (by decide) (by decide) interleaved_reachable
      (w := 1) (by decide)⟩

theorem reachable_alloc_interleaved :
    (1 : GoInt) ≤ 4 ∧ (4 : GoInt).val < intMax ∧ (4 : GoInt).val - (1 : GoInt).val ≤ intMax ∧
      Reachable 1 4 2 interleaved ∧ Amqp091.Reachable 1 4 interleaved.alloc :=
  ⟨by decide, by decide, by decide, interleaved_reachable,
    reachable_alloc (by decide) (by decide) (by decide) interleaved_reachable⟩

theorem channel_fails_of_capacity_two :
    (1 : GoInt) ≤ 1 ∧ (1 : GoInt).val < intMax ∧ (1 : GoInt).val - (1 : GoInt).val ≤ intMax ∧
      Allocator.size 1 1 < 2 * 1 ∧
      ∃ s : Workers 2, Reachable 1 1 1 s ∧ ∃ w, (s.held w).card < 1 ∧
        ∃ a, s.alloc.next = some ((0, false), a) :=
  ⟨by decide, by decide, by decide, by decide,
    channel_fails_of_capacity (by decide) (by decide) (by decide) (by decide)⟩

end Workers

end Amqp091
