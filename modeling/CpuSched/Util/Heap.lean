import Mathlib.Logic.Function.Basic

/-!
# The binary heap

`src/util/heap.c`: a fixed-capacity binary min-heap of process indices.  The
comparator is an argument of each operation because the arrays it reads belong
to the caller and change between calls.  An operation whose precondition is
asserted returns `none` when it fails.
-/

namespace CpuSched

/-- `Heap`, less its comparator. -/
structure Heap where
  items : Nat → Nat
  len : Nat
  cap : Nat

/-- `heap_init`; the allocation succeeds. -/
def heapInit (cap : Nat) : Heap := ⟨fun _ => 0, 0, cap⟩

/-- `heap_empty`. -/
def Heap.isEmpty (h : Heap) : Bool := h.len = 0

/-- `swap(&items[i], &items[j])`. -/
def swapItems (items : Nat → Nat) (i j : Nat) : Nat → Nat :=
  Function.update (Function.update items i (items j)) j (items i)

/-- The loop of `heap_push`: `i` climbs while it is less than its parent.  The
position at least halves, so `i` rounds are enough. -/
def siftUp (less : Nat → Nat → Bool) : Nat → (Nat → Nat) → Nat → Nat → Nat
  | 0, items, _ => items
  | fuel + 1, items, i =>
      if i = 0 then items
      else if less (items i) (items ((i - 1) / 2)) then
        siftUp less fuel (swapItems items i ((i - 1) / 2)) ((i - 1) / 2)
      else items

/-- `heap_push`. -/
def heapPush (less : Nat → Nat → Bool) (h : Heap) (v : Nat) : Option Heap :=
  if h.len < h.cap then
    some { h with
      items := siftUp less h.len (Function.update h.items h.len v) h.len
      len := h.len + 1 }
  else none

/-- The position `m` of one round of `heap_pop`: the least of `i` and its two
children. -/
def leastChild (less : Nat → Nat → Bool) (items : Nat → Nat) (len i : Nat) : Nat :=
  let l := 2 * i + 1
  let r := l + 1
  let m := if l < len ∧ less (items l) (items i) then l else i
  if r < len ∧ less (items r) (items m) then r else m

/-- The loop of `heap_pop`: `i` sinks below its lesser child.  The position at
least doubles, so `len` rounds are enough. -/
def siftDown (less : Nat → Nat → Bool) (len : Nat) : Nat → (Nat → Nat) → Nat → Nat → Nat
  | 0, items, _ => items
  | fuel + 1, items, i =>
      let m := leastChild less items len i
      if m = i then items else siftDown less len fuel (swapItems items i m) m

/-- `heap_pop`: the least entry and the rest. -/
def heapPop (less : Nat → Nat → Bool) (h : Heap) : Option (Nat × Heap) :=
  if 0 < h.len then
    let len := h.len - 1
    let items := Function.update h.items 0 (h.items len)
    some (h.items 0, { h with items := siftDown less len len items 0, len })
  else none

end CpuSched
