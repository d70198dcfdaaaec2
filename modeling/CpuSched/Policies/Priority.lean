import CpuSched.Policy.Core
import CpuSched.Util.Treap

/-!
# Priority scheduling with aging

`src/policies/priority.c`, for the non-preemptive `prio` and the preemptive
`prio-p`.  The subtraction of priorities is a parameter `sub`: the code's own is
`satSub`, which saturates at the ends of the 64-bit range.
-/

namespace CpuSched

variable {D : Type}

/-- `Prio`. -/
structure Prio where
  preemptive : Bool
  aging : Int
  /-- Ready time accumulated in the current burst. -/
  waited : Nat → Int
  /-- When the process last entered the ready set. -/
  readySince : Nat → Int
  root : Option Nat
  links : Links
  heapPrio : Nat → BitVec 64
  /-- `c mod K`. -/
  r : Nat → Int
  /-- `priority - floor(c / K)`. -/
  base : Nat → Int

/-- `mix`. -/
def mix (z : BitVec 64) : BitVec 64 := splitMixFinal (z + goldenGamma)

/-- `sat_sub`. -/
def satSub (a b : Int) : Int :=
  match ckSubI64 a b with
  | some out => out
  | none => if b < 0 then int64Max else int64Min

/-- `create`. -/
def prioCreateWith (preemptive : Bool) (_ : SchedView D) (params : PolicyParams) :
    Except SchedError Prio :=
  .ok { preemptive, aging := params.aging, waited := fun _ => 0, readySince := fun _ => 0,
        root := none, links := ⟨fun _ => none, fun _ => none, fun _ => 0⟩,
        heapPrio := fun i => mix (BitVec.ofNat 64 i), r := fun _ => 0, base := fun _ => 0 }

section Ordering

variable (sub : Int → Int → Int)

/-- `key_less`: `(base - bump, arrival, pid)` of `x` is smaller than that of
`y`. -/
def keyLess (view : SchedView D) (s : Prio) (x : Nat) (bumpX : Int) (y : Nat) (bumpY : Int) :
    Bool :=
  let ex := sub (s.base x) bumpX
  let ey := sub (s.base y) bumpY
  if ex ≠ ey then ex < ey
  else if (view.procs x).arrival ≠ (view.procs y).arrival then
    (view.procs x).arrival < (view.procs y).arrival
  else (view.procs x).pid < (view.procs y).pid

/-- `key_less(s, x, 0, y, 0)`, the order of the subtree minima. -/
def baseLess (view : SchedView D) (s : Prio) (x y : Nat) : Bool := keyLess sub view s x 0 y 0

/-- `node_before`: the treap order `(r, pid)`. -/
def nodeBefore (view : SchedView D) (s : Prio) (x y : Nat) : Bool :=
  if s.r x ≠ s.r y then s.r x < s.r y else (view.procs x).pid < (view.procs y).pid

/-- More levels than a treap over `n` processes can have. -/
def treapDepth (view : SchedView D) : Nat := view.n + 1

/-- `enqueue`. -/
def prioEnqueue (view : SchedView D) (s : Prio) (p : Nat) : Option Prio :=
  let now := view.now
  let s := { s with readySince := Function.update s.readySince p now }
  let base := (view.procs p).priority
  let s :=
    if 0 < s.aging then
      let c := s.waited p - now
      let k := s.aging
      let q := if c.tmod k < 0 then c.tdiv k - 1 else c.tdiv k
      { s with
        r := Function.update s.r p (c - q * k)
        base := Function.update s.base p (sub base q) }
    else
      { s with
        r := Function.update s.r p 0
        base := Function.update s.base p base }
  let links : Links :=
    { left := Function.update s.links.left p none
      right := Function.update s.links.right p none
      best := Function.update s.links.best p p }
  (Treap.insert (nodeBefore view s) (baseLess sub view s) s.heapPrio (treapDepth view) links
      s.root p).map fun (links, root) => { s with links, root := some root }

/-- `prio_new_burst`. -/
def prioNewBurst (view : SchedView D) (s : Prio) (p : Nat) : Option Prio :=
  prioEnqueue sub view { s with waited := Function.update s.waited p 0 } p

/-- `prio_requeue`. -/
def prioRequeue (view : SchedView D) (s : Prio) (p : Nat) (_ : Int) : Option Prio :=
  prioEnqueue sub view s p

/-- The choice of `prio_next_slice` among the nodes of a non-empty treap. -/
def prioChoose (view : SchedView D) (s : Prio) (root : Nat) (limit : Int) : Option Nat :=
  if 0 < s.aging then do
    let depth := treapDepth view
    let low ← Treap.bestBelow (baseLess sub view s) s.links s.r limit depth none (some root)
    let high ← Treap.bestAtOrAbove (baseLess sub view s) s.links s.r limit depth none (some root)
    match low, high with
    | none, high => high
    | some low, none => some low
    | some low, some high => some (if keyLess sub view s high 1 low 0 then high else low)
  else some (s.links.best root)

/-- The aging deadline of `prio_next_slice` while `root` is queued: the next
instant a queued process gains a level. -/
def prioDeadline (view : SchedView D) (s : Prio) (root : Nat) (limit : Int) : Option Int := do
  let depth := treapDepth view
  let rLow ← Treap.maxRBelow s.links s.r limit depth (-1) (some root)
  let step ←
    if 0 ≤ rLow then some (limit - rLow)
    else (Treap.maxR s.links s.r depth root).map fun rHigh => s.aging - (rHigh - limit)
  some ((ckAddI64 view.now step).getD schedNoDeadline)

/-- `prio_next_slice`. -/
def prioNextSlice (view : SchedView D) (s : Prio) : Option (Prio × Option Slice) :=
  match s.root with
  | none => some (s, none)
  | some root => do
      let now := view.now
      let k := s.aging
      let limit := if 0 < k then k - now.tmod k else 0
      let p ← prioChoose sub view s root limit
      let (links, root) ← Treap.erase (nodeBefore view s) (baseLess sub view s) s.heapPrio
        (treapDepth view) s.links (some root) p
      let s := { s with
        links, root
        waited := Function.update s.waited p (s.waited p + (now - s.readySince p)) }
      let deadline ←
        match root with
        | none => some schedNoDeadline
        | some root =>
            if s.preemptive = true ∧ 0 < k then prioDeadline view s root limit
            else some schedNoDeadline
      some (s, some { proc := p, length := view.remaining p, deadline })

/-- `POLICY_PRIO`, with `sub` for `sat_sub`. -/
def policyPrioWith : Policy D where
  State := Prio
  name := "prio"
  preemptive := false
  preemptOnReady := false
  usesQuantum := false
  usesEstimates := false
  workConserving := true
  offline := false
  create := prioCreateWith false
  onArrival := prioNewBurst sub
  onReady := some (prioNewBurst sub)
  nextSlice := prioNextSlice sub
  onPreempt := none
  onBlock := none
  onComplete := none

/-- `POLICY_PRIO_P`, with `sub` for `sat_sub`. -/
def policyPrioPWith : Policy D where
  State := Prio
  name := "prio-p"
  preemptive := true
  preemptOnReady := true
  usesQuantum := false
  usesEstimates := false
  workConserving := true
  offline := false
  create := prioCreateWith true
  onArrival := prioNewBurst sub
  onReady := some (prioNewBurst sub)
  nextSlice := prioNextSlice sub
  onPreempt := some (prioRequeue sub)
  onBlock := none
  onComplete := none

end Ordering

/-- `POLICY_PRIO`. -/
def policyPrio : Policy D := policyPrioWith satSub

/-- `POLICY_PRIO_P`. -/
def policyPrioP : Policy D := policyPrioPWith satSub

end CpuSched
