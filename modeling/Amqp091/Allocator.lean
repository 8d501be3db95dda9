/-
**The channel-id allocator of `src/allocator.go`.**

An `allocator` hands out the integers of `[low, high]`: bit `n - low` of the `pool` records that
`n` is taken, and the cursor `follow` says where the next search starts.  This module translates
the type and its functions line by line.  Go's `for` loops recurse on a `fuel` argument, one test
of the loop condition for each `int` (`Amqp091.Allocator.loopFuel`); a loop that uses it all has
come back to where it started (`Amqp091/Fuel.lean`), so `none` is a panic of `math/big` or a call
that never returns.

`Amqp091.Op`, `Amqp091.Allocator.exec` and `Amqp091.Reachable` are the calls of a client and the
states they reach.
-/

import Amqp091.Bits

set_option relaxedAutoImplicit false
set_option autoImplicit false

namespace Amqp091

/-! ### The type -/

/-- The bit value of a number that is not allocated, `free = 0`. -/
def free : Nat := 0

/-- The bit value of an allocated number, `allocated = 1`. -/
def allocated : Nat := 1

/-- `allocator`: the bitset `pool` of allocated numbers, the cursor `follow` where the next
search starts, and the bounds of the range. -/
@[ext] structure Allocator where
  pool : Nat
  follow : GoInt
  low : GoInt
  high : GoInt
deriving DecidableEq, Repr

/-- `newAllocator(low, high)`: an empty pool, with the cursor at `low`. -/
def newAllocator (low high : GoInt) : Allocator :=
  { pool := 0, follow := low, low := low, high := high }

namespace Allocator

/-! ### `reserved`, `reserve`, `release` -/

/-- `reserved(n)`: `a.pool.Bit(n-a.low) == allocated`. -/
def reserved (a : Allocator) (n : GoInt) : Option Bool := do
  let b ← Big.bit a.pool (n - a.low)
  return b == allocated

/-- `reserve(n)`: claims the bit of `n` if it is not already claimed, and says whether it did. -/
def reserve (a : Allocator) (n : GoInt) : Option (Bool × Allocator) := do
  if ← a.reserved n then return (false, a)
  let pool ← Big.setBit a.pool (n - a.low) allocated
  return (true, { a with pool := pool })

/-- `release(n)`: `a.pool.SetBit(a.pool, n-a.low, free)`. -/
def release (a : Allocator) (n : GoInt) : Option Allocator := do
  let pool ← Big.setBit a.pool (n - a.low) free
  return { a with pool := pool }

/-! ### `next` -/

/-- The fuel of every loop: one test of the loop condition for each `int`. -/
def loopFuel : Nat := 2 ^ 64

/-- How a loop of `next` ends: it returned `n`, which it reserved, or its condition failed. -/
inductive Scan
  | found (n : GoInt) (a : Allocator)
  | done (a : Allocator)
deriving DecidableEq, Repr

/-- A loop of `next`:
`for ; cond(a.follow); a.follow++ { if a.reserve(a.follow) { return a.follow, true } }`. -/
def scan (cond : GoInt → Bool) : Nat → Allocator → Option Scan
  | 0, _ => none
  | fuel + 1, a =>
    if cond a.follow then do
      let (ok, a) ← a.reserve a.follow
      if ok then return .found a.follow a
      scan cond fuel { a with follow := a.follow + 1 }
    else return .done a

theorem scan_done {cond : GoInt → Bool} {fuel : Nat} {a : Allocator} (h : cond a.follow = false) :
    a.scan cond (fuel + 1) = some (.done a) := by
  simp [scan, h]

theorem scan_found {cond : GoInt → Bool} {fuel : Nat} {a a' : Allocator}
    (h : cond a.follow = true) (hr : a.reserve a.follow = some (true, a')) :
    a.scan cond (fuel + 1) = some (.found a'.follow a') := by
  simp [scan, h, hr]

theorem scan_continue {cond : GoInt → Bool} {fuel : Nat} {a : Allocator}
    (h : cond a.follow = true) (hr : a.reserve a.follow = some (false, a)) :
    a.scan cond (fuel + 1) = scan cond fuel { a with follow := a.follow + 1 } := by
  simp [scan, h, hr]

/-- The function `next` defers: make `a.follow` point to the next value. -/
def advance (a : Allocator) : Allocator :=
  if a.follow = a.high then { a with follow := a.low } else { a with follow := a.follow + 1 }

/-- `next()`: searches from the cursor to `high`, then from `low` up to where it started. -/
def next (a : Allocator) : Option ((GoInt × Bool) × Allocator) := do
  let wrapped := a.follow
  -- Find trailing bit
  match ← scan (fun f => decide (f ≤ a.high)) loopFuel a with
  | .found n a => return ((n, true), advance a)
  | .done a =>
    -- Find preceding free'd pool
    match ← scan (fun f => decide (f < wrapped)) loopFuel { a with follow := a.low } with
    | .found n a => return ((n, true), advance a)
    | .done a => return ((0, false), advance a)

/-! ### `String` -/

/-- The inner loop of `String`, `for a.reserved(high) && high <= a.high { high++ }`. -/
def runEnd (a : Allocator) : Nat → GoInt → Option GoInt
  | 0, _ => none
  | fuel + 1, high => do
    if (← a.reserved high) && decide (high ≤ a.high) then runEnd a fuel (high + 1)
    else return high

theorem runEnd_succ_of_marked {a : Allocator} {x : GoInt} {fuel : Nat}
    (hr : a.reserved x = some true) (hx : x ≤ a.high) :
    a.runEnd (fuel + 1) x = a.runEnd fuel (x + 1) := by
  simp [runEnd, hr, hx]

theorem runEnd_succ_of_not {a : Allocator} {x : GoInt} {fuel : Nat} {ok : Bool}
    (hr : a.reserved x = some ok) (hx : ¬ (ok = true ∧ x ≤ a.high)) :
    a.runEnd (fuel + 1) x = some x := by
  cases ok with
  | false => simp [runEnd, hr]
  | true =>
      have : ¬ x.val ≤ a.high.val := fun h => hx ⟨rfl, h⟩
      simp [runEnd, hr, this]

/-- The outer loop of `String`, `for low := a.low; low <= a.high; low++ { … }`, writing to `b`. -/
def runs (a : Allocator) : Nat → GoInt → String → Option String
  | 0, _, _ => none
  | fuel + 1, low, b =>
    if low ≤ a.high then do
      let high ← runEnd a loopFuel low
      let b :=
        if high > low + 1 then b ++ " " ++ toString low ++ ".." ++ toString (high - 1)
        else if high > low then b ++ " " ++ toString (high - 1)
        else b
      runs a fuel (high + 1) b
    else return b

/-- `String()`: `allocator[low..high]` followed by the runs of reserved numbers. -/
def string (a : Allocator) : Option String :=
  runs a loopFuel a.low ("allocator[" ++ toString a.low ++ ".." ++ toString a.high ++ "]")

end Allocator

/-! ### Calls and reachable states -/

/-- A call a client makes on an allocator. -/
inductive Op
  | next
  | reserve (n : GoInt)
  | release (n : GoInt)
deriving DecidableEq, Repr

/-- What a call returns. -/
inductive Ret
  | next (n : GoInt) (ok : Bool)
  | reserve (ok : Bool)
  | release
deriving DecidableEq, Repr

/-- The argument of a call lies in `[low, high]`. -/
def Op.InRange (low high : GoInt) : Op → Prop
  | .next => True
  | .reserve n | .release n => low ≤ n ∧ n ≤ high

instance (low high : GoInt) : (op : Op) → Decidable (op.InRange low high)
  | .next => isTrue trivial
  | .reserve n | .release n => inferInstanceAs (Decidable (low ≤ n ∧ n ≤ high))

namespace Allocator

/-- One call. -/
def exec (a : Allocator) : Op → Option (Ret × Allocator)
  | .next => a.next.map fun ((n, ok), a) => (.next n ok, a)
  | .reserve n => (a.reserve n).map fun (ok, a) => (.reserve ok, a)
  | .release n => (a.release n).map fun a => (.release, a)

/-- A sequence of calls, with what each returned; `none` when one of them does not return. -/
def run (a : Allocator) : List Op → Option (List Ret × Allocator)
  | [] => some ([], a)
  | op :: ops => do
    let (r, a) ← a.exec op
    let (rs, a) ← a.run ops
    return (r :: rs, a)

end Allocator

/-- The states reached from `newAllocator low high` by calls in `[low, high]` that return. -/
inductive Reachable (low high : GoInt) : Allocator → Prop
  | init : Reachable low high (newAllocator low high)
  | step {a a' : Allocator} {op : Op} {r : Ret} :
      Reachable low high a → op.InRange low high → a.exec op = some (r, a') →
      Reachable low high a'

end Amqp091
