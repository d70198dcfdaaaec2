import CpuSched.Util.SplitMix
import Mathlib.Logic.Function.Basic

/-!
# The treap of the priority policies

The treap section of `src/policies/priority.c`.  Nodes are process indices and
the tree lives in the arrays `left`, `right` and `best`.  The search order
`before` (by `(r, pid)`), the key order `less` of the subtree minima and the heap
priorities `prio` are fixed while an operation runs.

The recursion follows pointers, so it carries a depth bound; `none` is a
recursion that does not end, or an access through `NIL`.
-/

namespace CpuSched

/-- The linked part of `Prio`; `NIL` is `none`. -/
structure Links where
  left : Nat → Option Nat
  right : Nat → Option Nat
  best : Nat → Nat

namespace Treap

variable (before less : Nat → Nat → Bool) (prio : Nat → BitVec 64)

/-- `better_of`. -/
def betterOf : Option Nat → Option Nat → Option Nat
  | none, y => y
  | some x, none => some x
  | some x, some y => some (if less y x then y else x)

/-- `better_of` of a node and a subtree that may be empty. -/
def betterChild (links : Links) (b : Nat) : Option Nat → Nat
  | none => b
  | some t => if less (links.best t) b then links.best t else b

/-- `pull`. -/
def pull (links : Links) (t : Nat) : Links :=
  let b := betterChild less links t (links.left t)
  let b := betterChild less links b (links.right t)
  { links with best := Function.update links.best t b }

/-- `s->left[t] = l`. -/
def setLeft (links : Links) (t : Nat) (l : Option Nat) : Links :=
  { links with left := Function.update links.left t l }

/-- `s->right[t] = r`. -/
def setRight (links : Links) (t : Nat) (r : Option Nat) : Links :=
  { links with right := Function.update links.right t r }

/-- `split`: the nodes of `t` ordered before `x`, and the rest. -/
def split : Nat → Links → Option Nat → Nat → Option (Links × Option Nat × Option Nat)
  | 0, _, _, _ => none
  | _ + 1, links, none, _ => some (links, none, none)
  | depth + 1, links, some t, x =>
      if before t x then do
        let (links, l, r) ← split depth links (links.right t) x
        some (pull less (setRight links t l) t, some t, r)
      else do
        let (links, l, r) ← split depth links (links.left t) x
        some (pull less (setLeft links t r) t, l, some t)

/-- `insert`: the new root of the subtree. -/
def insert : Nat → Links → Option Nat → Nat → Option (Links × Nat)
  | 0, _, _, _ => none
  | _ + 1, links, none, x => some (links, x)
  | depth + 1, links, some t, x =>
      if prio t < prio x then do
        let (links, l, r) ← split before less (depth + 1) links (some t) x
        some (pull less (setRight (setLeft links x l) x r) x, x)
      else if before x t then do
        let (links, l) ← insert depth links (links.left t) x
        some (pull less (setLeft links t (some l)) t, t)
      else do
        let (links, r) ← insert depth links (links.right t) x
        some (pull less (setRight links t (some r)) t, t)

/-- `merge`. -/
def merge : Nat → Links → Option Nat → Option Nat → Option (Links × Option Nat)
  | 0, _, _, _ => none
  | _ + 1, links, none, b => some (links, b)
  | _ + 1, links, some a, none => some (links, some a)
  | depth + 1, links, some a, some b =>
      if prio b < prio a then do
        let (links, r) ← merge depth links (links.right a) (some b)
        some (pull less (setRight links a r) a, some a)
      else do
        let (links, l) ← merge depth links (some a) (links.left b)
        some (pull less (setLeft links b l) b, some b)

/-- `erase`. -/
def erase : Nat → Links → Option Nat → Nat → Option (Links × Option Nat)
  | 0, _, _, _ => none
  | _ + 1, _, none, _ => none
  | depth + 1, links, some t, x =>
      if t = x then merge less prio (depth + 1) links (links.left t) (links.right t)
      else if before x t then do
        let (links, l) ← erase depth links (links.left t) x
        some (pull less (setLeft links t l) t, some t)
      else do
        let (links, r) ← erase depth links (links.right t) x
        some (pull less (setRight links t r) t, some t)

/-- `better_of` of the running result and a subtree that may be empty. -/
def betterSubtree (links : Links) (res : Option Nat) : Option Nat → Option Nat
  | none => res
  | some t => betterOf less res (some (links.best t))

/-- `best_below`: the best node with `r < limit`. -/
def bestBelow (links : Links) (r : Nat → Int) (limit : Int) :
    Nat → Option Nat → Option Nat → Option (Option Nat)
  | 0, _, _ => none
  | _ + 1, res, none => some res
  | depth + 1, res, some t =>
      if r t < limit then
        let res := betterOf less res (some t)
        bestBelow links r limit depth (betterSubtree less links res (links.left t))
          (links.right t)
      else bestBelow links r limit depth res (links.left t)

/-- `best_at_or_above`: the best node with `r >= limit`. -/
def bestAtOrAbove (links : Links) (r : Nat → Int) (limit : Int) :
    Nat → Option Nat → Option Nat → Option (Option Nat)
  | 0, _, _ => none
  | _ + 1, res, none => some res
  | depth + 1, res, some t =>
      if limit ≤ r t then
        let res := betterOf less res (some t)
        bestAtOrAbove links r limit depth (betterSubtree less links res (links.right t))
          (links.left t)
      else bestAtOrAbove links r limit depth res (links.right t)

/-- `max_r_below`: the largest `r` below `limit`, or `-1`. -/
def maxRBelow (links : Links) (r : Nat → Int) (limit : Int) :
    Nat → Int → Option Nat → Option Int
  | 0, _, _ => none
  | _ + 1, ans, none => some ans
  | depth + 1, ans, some t =>
      if r t < limit then maxRBelow links r limit depth (r t) (links.right t)
      else maxRBelow links r limit depth ans (links.left t)

/-- `max_r`: the largest `r`. -/
def maxR (links : Links) (r : Nat → Int) : Nat → Nat → Option Int
  | 0, _ => none
  | depth + 1, t =>
      match links.right t with
      | none => some (r t)
      | some u => maxR links r depth u

end Treap

end CpuSched
