import CpuSched.Policy.Core
import CpuSched.Util.SplitMix

/-!
# Highest response ratio next

`src/policies/hrrn.c`: the ready processes grouped by burst length, one doubly
linked queue per group, an open-addressing map from burst length to group and a
linked list of the non-empty groups.  A walk over links or over the map that
does not end, and an access through `NIL`, are `none`.
-/

namespace CpuSched

variable {D : Type}

/-- `Hrrn`; `NIL` is `none`. -/
structure Hrrn where
  readySince : Nat → Int
  next : Nat → Option Nat
  prev : Nat → Option Nat
  groupOf : Nat → Nat
  /-- Stack of unused group ids. -/
  freeIds : Nat → Nat
  nfree : Nat
  head : Nat → Option Nat
  tail : Nat → Option Nat
  /-- Bit pattern of the burst length of each group. -/
  key : Nat → BitVec 64
  /-- Hash slot holding each group. -/
  slotOf : Nat → Nat
  actNext : Nat → Option Nat
  actPrev : Nat → Option Nat
  active : Option Nat
  /-- The map: key to group + 1, 0 for an empty slot. -/
  slots : Nat → Nat
  mask : Nat

/-- The loop of `cmp_fraction`: the sign of `a/b - c/d`, times `sign`. -/
def cmpFractionLoop : Nat → Int → Int → Int → Int → Int → Int
  | 0, _, _, _, _, _ => 0
  | fuel + 1, sign, a, b, c, d =>
      let qa := a.tdiv b
      let qc := c.tdiv d
      if qa ≠ qc then (if qa < qc then -sign else sign)
      else
        let ra := a.tmod b
        let rc := c.tmod d
        if ra = 0 ∨ rc = 0 then
          sign * ((if ra ≠ 0 then 1 else 0) - (if rc ≠ 0 then 1 else 0))
        else cmpFractionLoop fuel (-sign) b ra d rc

/-- `cmp_fraction`; the denominators shrink, so `b` rounds are enough. -/
def cmpFraction (a b c d : Int) : Int := cmpFractionLoop (b.toNat + 1) 1 a b c d

section Comparators

variable [Double D]

/-- `cmp_ratio`. -/
def cmpRatio (view : SchedView D) (s : Hrrn) (x y : Nat) : Int :=
  let wx := view.now - s.readySince x
  let wy := view.now - s.readySince y
  match view.predicted with
  | none => cmpFraction wx (view.burstLen x) wy (view.burstLen y)
  | some predicted =>
      cmpDouble (Double.div (Double.ofInt wx) (predicted x))
        (Double.div (Double.ofInt wy) (predicted y))

/-- `better`. -/
def hrrnBetter (view : SchedView D) (s : Hrrn) (a b : Nat) : Bool :=
  let c := cmpRatio view s a b
  if c ≠ 0 then 0 < c
  else if (view.procs a).arrival ≠ (view.procs b).arrival then
    (view.procs a).arrival < (view.procs b).arrival
  else (view.procs a).pid < (view.procs b).pid

/-- `queued_before`: the order `(ready time, arrival, pid)` within a group. -/
def queuedBefore (view : SchedView D) (s : Hrrn) (a b : Nat) : Bool :=
  if s.readySince a ≠ s.readySince b then s.readySince a < s.readySince b
  else if (view.procs a).arrival ≠ (view.procs b).arrival then
    (view.procs a).arrival < (view.procs b).arrival
  else (view.procs a).pid < (view.procs b).pid

/-- `burst_key`. -/
def burstKey (view : SchedView D) (p : Nat) : BitVec 64 :=
  match view.predicted with
  | none => BitVec.ofInt 64 (view.burstLen p)
  | some predicted => Double.bits (predicted p)

end Comparators

/-- The loop `while (nslots < 2 * n) nslots *= 2`. -/
def growSlots (n : Nat) : Nat → Nat → Nat
  | 0, nslots => nslots
  | fuel + 1, nslots => if nslots < 2 * n then growSlots n fuel (nslots * 2) else nslots

/-- `hrrn_create`. -/
def hrrnCreate (view : SchedView D) (_ : PolicyParams) : Except SchedError Hrrn :=
  let n := view.n
  let nslots := growSlots n (2 * n) 2
  .ok { readySince := fun _ => 0, next := fun _ => none, prev := fun _ => none,
        groupOf := fun _ => 0, freeIds := fun g => n - 1 - g, nfree := n,
        head := fun _ => none, tail := fun _ => none, key := fun _ => 0, slotOf := fun _ => 0,
        actNext := fun _ => none, actPrev := fun _ => none, active := none,
        slots := fun _ => 0, mask := nslots - 1 }

/-- `hash(k) & s->mask`. -/
def homeSlot (mask : Nat) (k : BitVec 64) : Nat := (splitMixFinal k).toNat &&& mask

/-- The probe loop of `group_for`, from slot `i` on. -/
def probeGroup (s : Hrrn) (k : BitVec 64) : Nat → Nat → Option (Hrrn × Nat)
  | 0, _ => none
  | fuel + 1, i =>
      if s.slots i = 0 then
        if s.nfree = 0 then none
        else
          let g := s.freeIds (s.nfree - 1)
          some ({ s with
            nfree := s.nfree - 1
            slots := Function.update s.slots i (g + 1)
            slotOf := Function.update s.slotOf g i
            key := Function.update s.key g k
            head := Function.update s.head g none
            tail := Function.update s.tail g none }, g)
      else if s.key (s.slots i - 1) = k then some (s, s.slots i - 1)
      else probeGroup s k fuel ((i + 1) &&& s.mask)

/-- `group_for`: the group of key `k`, created if there is none. -/
def groupFor (s : Hrrn) (k : BitVec 64) : Option (Hrrn × Nat) :=
  probeGroup s k (s.mask + 1) (homeSlot s.mask k)

/-- The shift loop of `release_group`: the hole is at `i`, the scan at `j`. -/
def shiftBack : Nat → Hrrn → Nat → Nat → Option (Hrrn × Nat)
  | 0, _, _, _ => none
  | fuel + 1, s, i, j =>
      if s.slots j = 0 then some (s, i)
      else
        let home := homeSlot s.mask (s.key (s.slots j - 1))
        let homeBetween :=
          if i ≤ j then decide (i < home ∧ home ≤ j) else decide (i < home ∨ home ≤ j)
        if homeBetween = false then
          shiftBack fuel { s with
            slots := Function.update s.slots i (s.slots j)
            slotOf := Function.update s.slotOf (s.slots j - 1) i } j ((j + 1) &&& s.mask)
        else shiftBack fuel s i ((j + 1) &&& s.mask)

/-- `release_group`. -/
def releaseGroup (s : Hrrn) (g : Nat) : Option Hrrn := do
  let i := s.slotOf g
  let (s, i) ← shiftBack (s.mask + 1) s i ((i + 1) &&& s.mask)
  some { s with
    slots := Function.update s.slots i 0
    freeIds := Function.update s.freeIds s.nfree g
    nfree := s.nfree + 1 }

section Hooks

variable [Double D]

/-- The insertion scan of `hrrn_enqueue`, from the tail. -/
def insertAfter (view : SchedView D) (s : Hrrn) (p : Nat) : Nat → Option Nat → Option (Option Nat)
  | 0, _ => none
  | _ + 1, none => some none
  | fuel + 1, some after =>
      if queuedBefore view s p after then insertAfter view s p fuel (s.prev after)
      else some (some after)

/-- The links of group `g` after `p` is inserted behind `after`. -/
def linkGroup (s : Hrrn) (g p : Nat) (after : Option Nat) : Hrrn :=
  let s := { s with prev := Function.update s.prev p after }
  let nextP := match after with
    | none => s.head g
    | some a => s.next a
  let s := { s with next := Function.update s.next p nextP }
  let s := match after with
    | none => { s with head := Function.update s.head g (some p) }
    | some a => { s with next := Function.update s.next a (some p) }
  match nextP with
  | none => { s with tail := Function.update s.tail g (some p) }
  | some b => { s with prev := Function.update s.prev b (some p) }

/-- A group that was empty joins the list of active groups. -/
def activateGroup (s : Hrrn) (g : Nat) : Hrrn :=
  if s.head g = none then
    let s := { s with
      actPrev := Function.update s.actPrev g none
      actNext := Function.update s.actNext g s.active }
    let s := match s.active with
      | none => s
      | some a => { s with actPrev := Function.update s.actPrev a (some g) }
    { s with active := some g }
  else s

/-- `hrrn_enqueue`. -/
def hrrnEnqueue (view : SchedView D) (s : Hrrn) (p : Nat) : Option Hrrn := do
  let s := { s with readySince := Function.update s.readySince p view.now }
  let (s, g) ← groupFor s (burstKey view p)
  let s := { s with groupOf := Function.update s.groupOf p g }
  let s := activateGroup s g
  let after ← insertAfter view s p (view.n + 1) (s.tail g)
  some (linkGroup s g p after)

/-- The scan of `hrrn_next_slice` over the heads of the active groups. -/
def bestHead (view : SchedView D) (s : Hrrn) : Nat → Option Nat → Option Nat → Option (Option Nat)
  | 0, _, _ => none
  | _ + 1, none, best => some best
  | fuel + 1, some g, best =>
      match s.head g with
      | none => none
      | some h =>
          let better := match best with
            | none => true
            | some b => hrrnBetter view s h b
          bestHead view s fuel (s.actNext g) (if better then some h else best)

/-- An empty group leaves the list of active groups. -/
def deactivateGroup (s : Hrrn) (g : Nat) : Hrrn :=
  let s := match s.actPrev g with
    | none => { s with active := s.actNext g }
    | some a => { s with actNext := Function.update s.actNext a (s.actNext g) }
  match s.actNext g with
  | none => s
  | some b => { s with actPrev := Function.update s.actPrev b (s.actPrev g) }

/-- The removal of the head `best` from its group. -/
def popGroup (s : Hrrn) (best : Nat) : Option Hrrn :=
  let g := s.groupOf best
  let s := { s with head := Function.update s.head g (s.next best) }
  match s.head g with
  | none =>
      let s := { s with tail := Function.update s.tail g none }
      releaseGroup (deactivateGroup s g) g
  | some h => some { s with prev := Function.update s.prev h none }

/-- `hrrn_next_slice`. -/
def hrrnNextSlice (view : SchedView D) (s : Hrrn) : Option (Hrrn × Option Slice) :=
  match s.active with
  | none => some (s, none)
  | some g => do
      match ← bestHead view s (view.n + 1) (some g) none with
      | none => none
      | some best =>
          let s ← popGroup s best
          some (s, some
            { proc := best, length := view.remaining best, deadline := schedNoDeadline })

/-- `POLICY_HRRN`. -/
def policyHrrn : Policy D where
  State := Hrrn
  name := "hrrn"
  preemptive := false
  preemptOnReady := false
  usesQuantum := false
  usesEstimates := true
  workConserving := true
  offline := false
  create := hrrnCreate
  onArrival := hrrnEnqueue
  onReady := none
  nextSlice := hrrnNextSlice
  onPreempt := none
  onBlock := none
  onComplete := none

end Hooks

end CpuSched
