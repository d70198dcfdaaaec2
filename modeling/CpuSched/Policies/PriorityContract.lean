import CpuSched.Policies.Priority
import CpuSched.Policy.ReadySet
import CpuSched.Util.TreapOrder

/-!
# Priority scheduling keeps the contract

The treap holds exactly the ready processes.  The key of a ready process is the
remainder and the quotient of its waiting time at clock zero by the aging period,
so it does not change while the process waits.  Nothing is assumed about the
subtraction `sub` of priorities here.
-/

namespace CpuSched

variable {D : Type} {w : Workload} {sub : Int → Int → Int}

/-! ## The orders -/

/-- `(key, arrival, pid)` of `x`, bumped, is smaller than that of `y`. -/
theorem keyLess_iff (v : SchedView D) (s : Prio) (x : Nat) (bx : Int) (y : Nat) (by_ : Int) :
    keyLess sub v s x bx y by_ = true ↔
      sub (s.base x) bx < sub (s.base y) by_ ∨ (sub (s.base x) bx = sub (s.base y) by_ ∧
        ((v.procs x).arrival < (v.procs y).arrival ∨
          ((v.procs x).arrival = (v.procs y).arrival ∧ (v.procs x).pid < (v.procs y).pid))) := by
  unfold keyLess
  dsimp only
  split_ifs with h1 h2
  · simp only [decide_eq_true_eq]
    omega
  · simp only [decide_eq_true_eq]
    omega
  · simp only [decide_eq_true_eq]
    omega

theorem satSub_zero (a : Int) : satSub a 0 = a := by
  simp [satSub, ckSubI64]

theorem baseLess_total {v : SchedView D} (valid : w.Valid) (procs_eq : v.procs = w.proc)
    (s : Prio) :
    StrictTotalOn (baseLess sub v s) (· < w.len) where
  irrefl a _ := by
    rw [Bool.eq_false_iff]
    intro h
    have := (keyLess_iff v s a 0 a 0).mp h
    omega
  trans a b c _ _ _ hab hbc := by
    have hab := (keyLess_iff v s a 0 b 0).mp hab
    have hbc := (keyLess_iff v s b 0 c 0).mp hbc
    exact (keyLess_iff v s a 0 c 0).mpr (by omega)
  total a b ha hb hne := by
    have hpid : (v.procs a).pid ≠ (v.procs b).pid := by
      rw [procs_eq]
      exact fun same => hne (valid.pid_injective ha hb same)
    rw [baseLess, baseLess, keyLess_iff, keyLess_iff]
    omega

theorem nodeBefore_iff (v : SchedView D) (s : Prio) (a b : Nat) :
    nodeBefore v s a b = true ↔
      s.r a < s.r b ∨ (s.r a = s.r b ∧ (v.procs a).pid < (v.procs b).pid) := by
  unfold nodeBefore
  split_ifs with h
  · simp only [decide_eq_true_eq]
    omega
  · simp only [decide_eq_true_eq]
    omega

theorem nodeBefore_total {v : SchedView D} (valid : w.Valid) (procs_eq : v.procs = w.proc)
    (s : Prio) : StrictTotalOn (nodeBefore v s) (· < w.len) where
  irrefl a _ := by
    rw [Bool.eq_false_iff]
    intro h
    have := (nodeBefore_iff v s a a).mp h
    omega
  trans a b c _ _ _ hab hbc := by
    have hab := (nodeBefore_iff v s a b).mp hab
    have hbc := (nodeBefore_iff v s b c).mp hbc
    exact (nodeBefore_iff v s a c).mpr (by omega)
  total a b ha hb hne := by
    have hpid : (v.procs a).pid ≠ (v.procs b).pid := by
      rw [procs_eq]
      exact fun same => hne (valid.pid_injective ha hb same)
    rw [nodeBefore_iff, nodeBefore_iff]
    omega

/-! ## The invariant -/

/-- The key of a waiting process. -/
structure Keyed (sub : Int → Int → Int) (v : SchedView D) (s : Prio) (p : Nat) : Prop where
  remainder : s.r p = if 0 < s.aging then (s.waited p - s.readySince p) % s.aging else 0
  quotient : s.base p = if 0 < s.aging then
    sub (v.procs p).priority ((s.waited p - s.readySince p) / s.aging) else (v.procs p).priority

theorem Keyed.bounds {v : SchedView D} {s : Prio} {p : Nat} (keyed : Keyed sub v s p)
    (aging : 0 < s.aging) : 0 ≤ s.r p ∧ s.r p < s.aging := by
  have h := keyed.remainder
  rw [if_pos aging] at h
  have := Int.emod_nonneg (s.waited p - s.readySince p) aging.ne'
  have := Int.emod_lt_of_pos (s.waited p - s.readySince p) aging
  omega

/-- The links spell `tree`, in search order. -/
structure TreapHolds (sub : Int → Int → Int) (w : Workload) (v : SchedView D) (s : Prio)
    (tree : Tree) : Prop where
  root : s.root = tree.root
  treap : IsTreap (baseLess sub v s) s.heapPrio s.links tree
  sorted : Sorted (nodeBefore v s) (· < w.len) tree.nodes

namespace TreapHolds

variable {v v' : SchedView D} {s s' : Prio} {tree : Tree}

/-- Only the links and the keys of the nodes matter. -/
theorem congr (inv : TreapHolds sub w v s tree) (procs_eq : v'.procs = v.procs)
    (root : s'.root = s.root) (links : s'.links = s.links) (heapPrio : s'.heapPrio = s.heapPrio)
    (keys : ∀ q ∈ tree.nodes, s'.r q = s.r q ∧ s'.base q = s.base q) :
    TreapHolds sub w v' s' tree := by
  refine ⟨root.trans inv.root, ?_, ⟨inv.sorted.valid, ?_⟩⟩
  · rw [links, heapPrio]
    refine ⟨inv.treap.spells.congr_less fun a ha b hb => ?_, inv.treap.nodup⟩
    simp only [baseLess, keyLess, procs_eq, (keys a ha).2, (keys b hb).2]
  · refine inv.sorted.sorted.imp_of_mem fun {a b} ha hb h => ?_
    simpa only [nodeBefore, procs_eq, (keys a ha).1, (keys b hb).1] using h

theorem length_lt (inv : TreapHolds sub w v s tree) : tree.nodes.length < w.len + 1 := by
  have subset : tree.nodes ⊆ List.range w.len := fun q hq =>
    List.mem_range.mpr (inv.sorted.valid q hq)
  simpa [Nat.lt_succ_iff] using (List.subperm_of_subset inv.treap.nodup subset).length_le

theorem enough (inv : TreapHolds sub w v s tree) (n_eq : v.n = w.len) :
    tree.nodes.length < treapDepth v := by
  rw [treapDepth, n_eq]
  exact inv.length_lt

/-- The nodes stand in order of the remainder. -/
theorem monotone (inv : TreapHolds sub w v s tree) : Monotone s.r (· < w.len) tree.nodes :=
  ⟨inv.sorted.valid, inv.sorted.sorted.imp fun h => by
    have := (nodeBefore_iff v s _ _).mp h
    omega⟩

end TreapHolds

/-- The treap spells `tree`, which holds the ready processes. -/
structure PrioTree (sub : Int → Int → Int) (w : Workload) (v : SchedView D) (s : Prio) (pl : Places)
    (tree : Tree) : Prop where
  root : s.root = tree.root
  treap : IsTreap (baseLess sub v s) s.heapPrio s.links tree
  sorted : Sorted (nodeBefore v s) (· < w.len) tree.nodes
  holds : Holds pl tree.nodes
  keyed : ∀ p, pl p = .ready → Keyed sub v s p

/-- The invariant of the priority policies. -/
def PrioInv (sub : Int → Int → Int) (w : Workload) (v : SchedView D) (s : Prio) (pl : Places) :
    Prop :=
  ∃ tree, PrioTree sub w v s pl tree

namespace PrioTree

variable {v v' : SchedView D} {s s' : Prio} {pl : Places} {tree : Tree} {p : Nat}

theorem treapHolds (inv : PrioTree sub w v s pl tree) : TreapHolds sub w v s tree :=
  ⟨inv.root, inv.treap, inv.sorted⟩

/-- The invariant only reads the links and the keys of the ready processes. -/
theorem congr (inv : PrioTree sub w v s pl tree) (procs_eq : v'.procs = v.procs)
    (root : s'.root = s.root) (links : s'.links = s.links) (heapPrio : s'.heapPrio = s.heapPrio)
    (aging : s'.aging = s.aging)
    (keys : ∀ q, pl q = .ready → s'.r q = s.r q ∧ s'.base q = s.base q ∧
      s'.waited q = s.waited q ∧ s'.readySince q = s.readySince q) :
    PrioTree sub w v' s' pl tree := by
  have inv' := inv.treapHolds.congr procs_eq root links heapPrio fun q hq =>
    ⟨(keys q ((inv.holds.mem_iff q).mp hq)).1, (keys q ((inv.holds.mem_iff q).mp hq)).2.1⟩
  refine ⟨inv'.root, inv'.treap, inv'.sorted, inv.holds, fun q hq => ?_⟩
  obtain ⟨hr, hb, hw, hs⟩ := keys q hq
  obtain ⟨remainder, quotient⟩ := inv.keyed q hq
  exact ⟨by rw [hr, remainder, aging, hw, hs], by rw [hb, quotient, aging, hw, hs, procs_eq]⟩

/-- A move between places other than `ready` does not show. -/
theorem other {z : Place} (inv : PrioTree sub w v s pl tree) (notReady : pl p ≠ .ready)
    (stays : z ≠ .ready) : PrioTree sub w v s (pl.move p z) tree := by
  refine ⟨inv.root, inv.treap, inv.sorted, inv.holds.other notReady stays, fun q hq => ?_⟩
  have ne : q ≠ p := by
    rintro rfl
    rw [Places.move_self] at hq
    exact stays hq
  rw [pl.move_of_ne _ ne] at hq
  exact inv.keyed q hq

end PrioTree

/-! ## Enqueueing -/

/-- The correction after the division makes it a floor division. -/
theorem floorDiv_eq (c : Int) {k : Int} (hk : 0 < k) :
    (if c.tmod k < 0 then c.tdiv k - 1 else c.tdiv k) = c / k := by
  have split := Int.mul_tdiv_add_tmod c k
  have upper := Int.tmod_lt_of_pos c hk
  have lower : -k < c.tmod k := by
    have := Int.tmod_lt_of_pos (-c) hk
    rw [Int.neg_tmod] at this
    omega
  symm
  split_ifs with negative
  · refine ((Int.ediv_emod_unique hk).mpr ⟨?_, (by omega : 0 ≤ c.tmod k + k), by omega⟩).1
    rw [Int.mul_sub, Int.mul_one]
    omega
  · refine ((Int.ediv_emod_unique hk).mpr ⟨?_, (by omega : 0 ≤ c.tmod k), upper⟩).1
    omega

/-- The state of `enqueue` before the insertion. -/
def prioStamp (sub : Int → Int → Int) (v : SchedView D) (s : Prio) (p : Nat) : Prio :=
  { s with
    readySince := Function.update s.readySince p v.now
    r := Function.update s.r p (if 0 < s.aging then (s.waited p - v.now) % s.aging else 0)
    base := Function.update s.base p (if 0 < s.aging then
      sub (v.procs p).priority ((s.waited p - v.now) / s.aging) else (v.procs p).priority) }

/-- The links of a process before it is inserted. -/
def resetLinks (links : Links) (p : Nat) : Links :=
  { left := Function.update links.left p none
    right := Function.update links.right p none
    best := Function.update links.best p p }

theorem prioEnqueue_eq (v : SchedView D) (s : Prio) (p : Nat) :
    prioEnqueue sub v s p =
      (Treap.insert (nodeBefore v (prioStamp sub v s p)) (baseLess sub v (prioStamp sub v s p))
        s.heapPrio (treapDepth v) (resetLinks s.links p) s.root p).map
        fun (links, root) => { prioStamp sub v s p with links, root := some root } := by
  by_cases aging : 0 < s.aging
  · have emod : s.waited p - v.now - (s.waited p - v.now) / s.aging * s.aging =
        (s.waited p - v.now) % s.aging := by
      rw [Int.emod_def, Int.mul_comm]
    simp only [prioEnqueue, aging, if_true, floorDiv_eq _ aging, emod]
    simp only [prioStamp, aging, if_true, resetLinks]
  · simp only [prioEnqueue, aging, if_false]
    simp only [prioStamp, aging, if_false, resetLinks]

theorem prioStamp_keyed (v : SchedView D) (s : Prio) (p : Nat) :
    Keyed sub v (prioStamp sub v s p) p := by
  constructor <;> simp [prioStamp]

/-- `enqueue` adds a node, and the others stay with their keys. -/
theorem TreapHolds.enqueue (valid : w.Valid) {v : SchedView D} {s : Prio} {p : Nat} {tree : Tree}
    (inv : TreapHolds sub w v s tree) (procs_eq : v.procs = w.proc) (n_eq : v.n = w.len)
    (hp : p < w.len) (fresh : p ∉ tree.nodes) :
    ∃ links root tree', prioEnqueue sub v s p =
        some { prioStamp sub v s p with links, root := some root } ∧
      TreapHolds sub w v { prioStamp sub v s p with links, root := some root } tree' ∧
      tree'.nodes.Perm (p :: tree.nodes) := by
  have stamped : TreapHolds sub w v (prioStamp sub v s p) tree :=
    inv.congr rfl rfl rfl rfl fun q hq => by
      have ne : q ≠ p := fun same => fresh (same ▸ hq)
      simp [prioStamp, ne]
  have reset : SameOutside s.links (resetLinks s.links p) [p] := by
    intro y hy
    have := List.ne_of_not_mem_cons hy
    simp [resetLinks, this]
  have treap : IsTreap (baseLess sub v (prioStamp sub v s p)) s.heapPrio (resetLinks s.links p)
      tree := by
    refine stamped.treap.frame reset fun y hy h => ?_
    exact fresh (List.mem_singleton.mp h ▸ hy)
  have before_total := nodeBefore_total (D := D) valid procs_eq (prioStamp sub v s p)
  obtain ⟨links, root, tree', xs, ys, inserted, root_eq, treap', split, nodes, before_xs,
    before_ys, -⟩ := insert_spec before_total hp tree treap stamped.sorted fresh
      (IsTreap.single (by simp [resetLinks]) (by simp [resetLinks]) (by simp [resetLinks]))
      (inv.enough n_eq)
  have perm : tree'.nodes.Perm (p :: tree.nodes) := by
    rw [nodes, split]
    exact List.perm_middle
  refine ⟨links, root, tree', ?_, ⟨root_eq.symm, treap', ⟨fun y hy => ?_, ?_⟩⟩, perm⟩
  · rw [prioEnqueue_eq, inv.root, inserted]
    rfl
  · rcases List.mem_cons.mp (perm.mem_iff.mp hy) with rfl | hy
    · exact hp
    · exact inv.sorted.valid y hy
  · have sorted := stamped.sorted.sorted
    rw [split, List.pairwise_append] at sorted
    rw [nodes, List.pairwise_append]
    refine ⟨sorted.1, List.pairwise_cons.mpr ⟨before_ys, sorted.2.1⟩, fun a ha b hb => ?_⟩
    rcases List.mem_cons.mp hb with rfl | hb
    · exact before_xs a ha
    · exact sorted.2.2 a ha b hb

theorem prioEnqueue_spec (valid : w.Valid) {v : SchedView D} {s : Prio} {pl : Places} {p : Nat}
    {tree : Tree} (inv : PrioTree sub w v s pl tree) (ok : ViewOk w v pl) (hp : p < w.len)
    (notReady : pl p ≠ .ready) :
    ∃ links root tree', prioEnqueue sub v s p =
        some { prioStamp sub v s p with links, root := some root } ∧
      PrioTree sub w v { prioStamp sub v s p with links, root := some root } (pl.move p .ready)
        tree' := by
  have fresh : p ∉ tree.nodes := fun mem => notReady ((inv.holds.mem_iff p).mp mem)
  obtain ⟨links, root, tree', enqueued, inv', perm⟩ :=
    inv.treapHolds.enqueue valid ok.procs_eq ok.n_eq hp fresh
  refine ⟨links, root, tree', enqueued, inv'.root, inv'.treap, inv'.sorted,
    (inv.holds.push notReady).perm perm, fun q hq => ?_⟩
  by_cases hqp : q = p
  · rw [hqp]
    obtain ⟨remainder, quotient⟩ := prioStamp_keyed v s p
    exact ⟨remainder, quotient⟩
  · rw [pl.move_of_ne _ hqp] at hq
    obtain ⟨remainder, quotient⟩ := inv.keyed q hq
    constructor
    · simpa [prioStamp, hqp] using remainder
    · simpa [prioStamp, hqp] using quotient

/-! ## Picking -/

/-- What `prio_next_slice` chooses among the nodes: without aging the least one,
with aging the better of the least node below the limit and the least at or above
it, which counts one level better. -/
inductive PrioChosen (sub : Int → Int → Int) (v : SchedView D) (s : Prio) (nodes : List Nat)
    (limit : Int) (p : Nat) : Prop
  | plain (aging : ¬0 < s.aging) (least : LeastOf (baseLess sub v s) (· ∈ nodes) (some p))
  | aged {low high : Option Nat} (aging : 0 < s.aging)
      (below : LeastOf (baseLess sub v s) (fun y => y ∈ nodes ∧ s.r y < limit) low)
      (above : LeastOf (baseLess sub v s) (fun y => y ∈ nodes ∧ limit ≤ s.r y) high)
      (better : (low = none ∧ high = some p) ∨ (low = some p ∧ high = none) ∨
        ∃ l h, low = some l ∧ high = some h ∧ p = if keyLess sub v s h 1 l 0 then h else l)

theorem PrioChosen.mem {v : SchedView D} {s : Prio} {nodes : List Nat} {limit : Int} {p : Nat}
    (chosen : PrioChosen sub v s nodes limit p) : p ∈ nodes := by
  cases chosen with
  | plain _ least => exact least.mem p rfl
  | aged _ below above better =>
      rcases better with ⟨-, rfl⟩ | ⟨rfl, -⟩ | ⟨l, h, rfl, rfl, rfl⟩
      · exact (above.mem p rfl).1
      · exact (below.mem p rfl).1
      · split_ifs
        · exact (above.mem h rfl).1
        · exact (below.mem l rfl).1

theorem prioChoose_spec (valid : w.Valid) {v : SchedView D} {s : Prio} {tree : Tree}
    (inv : TreapHolds sub w v s tree) (procs_eq : v.procs = w.proc) (n_eq : v.n = w.len)
    {root : Nat} (root_eq : tree.root = some root) (limit : Int) :
    ∃ p, prioChoose sub v s root limit = some p ∧ PrioChosen sub v s tree.nodes limit p := by
  have order : StrictTotalOn (baseLess sub v s) (· < w.len) :=
    baseLess_total valid procs_eq s
  have enough := inv.enough n_eq
  by_cases aging : 0 < s.aging
  · obtain ⟨low, foundLow, below⟩ := bestBelow_spec (k := limit) order tree inv.treap.spells
      inv.monotone enough (.none (S := fun _ => False) (by simp)) (by simp)
    obtain ⟨high, foundHigh, above⟩ := bestAtOrAbove_spec (k := limit) order tree
      inv.treap.spells inv.monotone enough (.none (S := fun _ => False) (by simp)) (by simp)
    simp only [false_or] at below above
    rw [root_eq] at foundLow foundHigh
    cases low with
    | none =>
        cases high with
        | none =>
            have mem : root ∈ tree.nodes := by
              cases tree with
              | leaf => simp [Tree.root] at root_eq
              | node l x r =>
                  cases root_eq
                  simp
            have low := below.eq_none root
            have high := above.eq_none root
            simp only [mem, true_and] at low high
            omega
        | some h =>
            refine ⟨h, ?_, .aged aging below above (.inl ⟨rfl, rfl⟩)⟩
            simp [prioChoose, aging, foundLow, foundHigh]
    | some l =>
        cases high with
        | none =>
            refine ⟨l, ?_, .aged aging below above (.inr (.inl ⟨rfl, rfl⟩))⟩
            simp [prioChoose, aging, foundLow, foundHigh]
        | some h =>
            refine ⟨_, ?_, .aged aging below above (.inr (.inr ⟨l, h, rfl, rfl, rfl⟩))⟩
            simp [prioChoose, aging, foundLow, foundHigh]
  · refine ⟨s.links.best root, by simp [prioChoose, aging], .plain aging ?_⟩
    rw [inv.treap.spells.best_eq root_eq]
    exact tree.least_spec order inv.sorted.valid

/-- How long process `y` waits for its next level, when the clock stands `limit`
ticks before a multiple of the aging period. -/
def nextLevel (s : Prio) (limit : Int) (y : Nat) : Int :=
  if s.r y < limit then limit - s.r y else s.aging - (s.r y - limit)

/-- The deadline is the first instant at which a queued process gains a level. -/
theorem prioDeadline_spec {v : SchedView D} {s : Prio} {pl : Places} {tree : Tree}
    (inv : PrioTree sub w v s pl tree) (n_eq : v.n = w.len) {root : Nat}
    (root_eq : tree.root = some root) (aging : 0 < s.aging) (limit : Int) :
    ∃ step, prioDeadline v s root limit = some ((ckAddI64 v.now step).getD schedNoDeadline) ∧
      (∃ y ∈ tree.nodes, nextLevel s limit y = step) ∧
      ∀ y ∈ tree.nodes, step ≤ nextLevel s limit y := by
  have bounds : ∀ y ∈ tree.nodes, 0 ≤ s.r y ∧ s.r y < s.aging := fun y hy =>
    (inv.keyed y ((inv.holds.mem_iff y).mp hy)).bounds aging
  have enough := inv.treapHolds.enough n_eq
  have monotone := inv.treapHolds.monotone
  obtain ⟨rLow, foundLow, low⟩ := maxRBelow_spec (k := limit) (a := -1) tree
    inv.treap.spells monotone enough
  obtain ⟨rHigh, foundHigh, ⟨z, hz, rank_z⟩, most⟩ := maxR_spec tree root_eq inv.treap.spells
    monotone enough.le
  rw [root_eq] at foundLow
  rcases low with ⟨rfl, above⟩ | ⟨y, hy, rfl, hlt, below⟩
  · refine ⟨s.aging - (rHigh - limit), ?_, ⟨z, hz, ?_⟩, fun y hy => ?_⟩
    · simp [prioDeadline, foundLow, foundHigh]
    · rw [nextLevel, if_neg (not_lt.mpr (above z hz)), rank_z]
    · rw [nextLevel, if_neg (not_lt.mpr (above y hy))]
      have := most y hy
      omega
  · have nonneg := (bounds y hy).1
    refine ⟨limit - s.r y, ?_, ⟨y, hy, ?_⟩, fun z hz => ?_⟩
    · simp [prioDeadline, foundLow, nonneg]
    · rw [nextLevel, if_pos hlt]
    · have := bounds z hz
      unfold nextLevel
      split_ifs with h
      · have := below z hz h
        omega
      · omega

/-- The clock stands between one tick and a whole period before the next multiple
of the aging period. -/
theorem limit_bounds {now k : Int} (hk : 0 < k) (now_nonneg : 0 ≤ now) :
    0 < k - now.tmod k ∧ k - now.tmod k ≤ k := by
  have := Int.tmod_lt_of_pos now hk
  have := Int.tmod_nonneg k now_nonneg
  omega

/-- The state after the pick of `p`. -/
def prioTaken (s : Prio) (now : Int) (links : Links) (root : Option Nat) (p : Nat) : Prio :=
  { s with
    links, root
    waited := Function.update s.waited p (s.waited p + (now - s.readySince p)) }

/-- The limit of `prio_next_slice`. -/
def prioLimit (s : Prio) (now : Int) : Int := if 0 < s.aging then s.aging - now.tmod s.aging else 0

/-- `erase` removes a node. -/
theorem TreapHolds.erase (valid : w.Valid) {v : SchedView D} {s : Prio} {tree : Tree}
    (inv : TreapHolds sub w v s tree) (procs_eq : v.procs = w.proc) (n_eq : v.n = w.len) {p : Nat}
    (mem : p ∈ tree.nodes) :
    ∃ links tree', Treap.erase (nodeBefore v s) (baseLess sub v s) s.heapPrio (treapDepth v) s.links
        tree.root p = some (links, tree'.root) ∧
      TreapHolds sub w v { s with links, root := tree'.root } tree' ∧
      tree.nodes.Perm (p :: tree'.nodes) := by
  obtain ⟨links, tree', xs, ys, erased, treap', split, nodes, -⟩ := erase_spec
    (nodeBefore_total (D := D) valid procs_eq s) tree inv.treap inv.sorted mem
    (d := treapDepth v) (inv.enough n_eq)
  have perm : tree.nodes.Perm (p :: tree'.nodes) := by
    rw [nodes, split]
    exact List.perm_middle
  have sub_nodes : ∀ y ∈ tree'.nodes, y ∈ tree.nodes := fun y hy =>
    perm.mem_iff.mpr (List.mem_cons_of_mem _ hy)
  refine ⟨links, tree', erased,
    ⟨rfl, treap', ⟨fun y hy => inv.sorted.valid y (sub_nodes y hy), ?_⟩⟩, perm⟩
  have sorted := inv.sorted.sorted
  rw [split] at sorted
  rw [nodes]
  exact sorted.sublist ((List.Sublist.refl xs).append (List.sublist_cons_self p ys))

/-- A node is taken out of the treap, and the others stay with their keys. -/
theorem PrioTree.erase (valid : w.Valid) {v : SchedView D} {s : Prio} {pl : Places} {tree : Tree}
    (inv : PrioTree sub w v s pl tree) (ok : ViewOk w v pl) {p : Nat} (mem : p ∈ tree.nodes)
    {z : Place} (leaves : z ≠ .ready) :
    ∃ links tree', Treap.erase (nodeBefore v s) (baseLess sub v s) s.heapPrio (treapDepth v) s.links
        tree.root p = some (links, tree'.root) ∧
      PrioTree sub w v (prioTaken s v.now links tree'.root p) (pl.move p z) tree' ∧
      tree.nodes.Perm (p :: tree'.nodes) := by
  obtain ⟨links, tree', erased, inv', perm⟩ :=
    inv.treapHolds.erase valid ok.procs_eq ok.n_eq mem
  obtain ⟨ready, holds⟩ := (inv.holds.perm perm.symm).pop leaves
  refine ⟨links, tree', erased, ⟨rfl, inv'.treap, inv'.sorted, holds, fun y hy => ?_⟩, perm⟩
  have hne : y ≠ p := by
    rintro rfl
    rw [Places.move_self] at hy
    exact leaves hy
  rw [pl.move_of_ne _ hne] at hy
  obtain ⟨remainder, quotient⟩ := inv.keyed y hy
  exact ⟨by simpa [prioTaken, hne] using remainder, by simpa [prioTaken, hne] using quotient⟩

/-- A pick takes the chosen process out of the treap and returns its remaining
burst, with the aging deadline of the others for the preemptive policy. -/
theorem prioNextSlice_some (valid : w.Valid) {v : SchedView D} {s : Prio}
    {pl : Places} {tree : Tree}
    (inv : PrioTree sub w v s pl tree) (ok : ViewOk w v pl) (nonempty : tree.root ≠ none)
    {z : Nat → Place} (leaves : ∀ q, z q ≠ .ready) :
    ∃ p links tree' deadline,
      prioNextSlice sub v s = some (prioTaken s v.now links tree'.root p,
        some ⟨p, v.remaining p, deadline⟩) ∧
      PrioChosen sub v s tree.nodes (prioLimit s v.now) p ∧
      PrioTree sub w v (prioTaken s v.now links tree'.root p) (pl.move p (z p)) tree' ∧
      tree.nodes.Perm (p :: tree'.nodes) ∧
      ((deadline = schedNoDeadline ∧
          (tree'.nodes = [] ∨ s.preemptive = false ∨ ¬0 < s.aging)) ∨
        ∃ step, deadline = (ckAddI64 v.now step).getD schedNoDeadline ∧ 0 < s.aging ∧
          s.preemptive = true ∧
          (∃ y ∈ tree'.nodes, nextLevel s (prioLimit s v.now) y = step) ∧
          ∀ y ∈ tree'.nodes, step ≤ nextLevel s (prioLimit s v.now) y) := by
  obtain ⟨root, root_eq⟩ := Option.ne_none_iff_exists'.mp nonempty
  obtain ⟨p, choose, chosen⟩ := prioChoose_spec valid inv.treapHolds ok.procs_eq ok.n_eq root_eq
    (prioLimit s v.now)
  obtain ⟨links, tree', erased, inv', perm⟩ := inv.erase valid ok chosen.mem (leaves p)
  rw [root_eq] at erased
  refine ⟨p, links, tree', ?_⟩
  have start : s.root = some root := inv.root.trans root_eq
  cases hroot : tree'.root with
  | none =>
      refine ⟨schedNoDeadline, ?_, chosen, hroot ▸ inv', perm, .inl ⟨rfl, .inl ?_⟩⟩
      · simp only [prioNextSlice, start]
        rw [prioLimit] at choose
        simp [choose, erased, hroot, prioTaken]
      · rw [Tree.root_eq_none.mp hroot]
        rfl
  | some root' =>
      by_cases aged : s.preemptive = true ∧ 0 < s.aging
      · obtain ⟨step, deadline, attained, least⟩ := prioDeadline_spec inv' ok.n_eq hroot aged.2
          (prioLimit s v.now)
        refine ⟨_, ?_, chosen, hroot ▸ inv', perm,
          .inr ⟨step, rfl, aged.2, aged.1, attained, least⟩⟩
        rw [prioLimit] at choose deadline
        rw [hroot, prioTaken] at deadline
        simp only [prioNextSlice, start, Option.bind_eq_bind, choose, Option.bind_some, erased,
          hroot, if_pos aged, deadline]
        rfl
      · refine ⟨schedNoDeadline, ?_, chosen, hroot ▸ inv', perm, .inl ⟨rfl, .inr ?_⟩⟩
        · simp only [prioNextSlice, start]
          rw [prioLimit] at choose
          simp [choose, erased, hroot, prioTaken, aged]
        · by_cases preemptive : s.preemptive = true
          · exact .inr fun aging => aged ⟨preemptive, aging⟩
          · exact .inl (by simpa using preemptive)

/-! ## The contract -/

theorem nextLevel_pos {s : Prio} {now : Int} {y : Nat} (aging : 0 < s.aging) (now_nonneg : 0 ≤ now)
    (bounds : 0 ≤ s.r y ∧ s.r y < s.aging) : 0 < nextLevel s (prioLimit s now) y := by
  have := limit_bounds aging now_nonneg
  rw [prioLimit, if_pos aging]
  unfold nextLevel
  split_ifs <;> omega

/-- The part of the invariant that no hook changes. -/
structure PrioInvBoth (sub : Int → Int → Int) (preemptive : Bool) (w : Workload) (v : SchedView D)
    (s : Prio) (pl : Places) : Prop where
  preemptive_eq : s.preemptive = preemptive
  inv : PrioInv sub w v s pl

namespace PrioInvBoth

variable {preemptive : Bool} {v : SchedView D} {s : Prio} {pl : Places} {p : Nat}

theorem view {v' : SchedView D} (both : PrioInvBoth sub preemptive w v s pl)
    (procs_eq : v'.procs = v.procs) : PrioInvBoth sub preemptive w v' s pl := by
  obtain ⟨tree, inv⟩ := both.inv
  exact ⟨both.preemptive_eq, tree, inv.congr procs_eq rfl rfl rfl rfl fun _ _ =>
    ⟨rfl, rfl, rfl, rfl⟩⟩

theorem other {z : Place} (both : PrioInvBoth sub preemptive w v s pl)
    (notReady : pl p ≠ .ready) (stays : z ≠ .ready) :
    PrioInvBoth sub preemptive w v s (pl.move p z) := by
  obtain ⟨tree, inv⟩ := both.inv
  exact ⟨both.preemptive_eq, tree, inv.other notReady stays⟩

theorem requeue (valid : w.Valid) (both : PrioInvBoth sub preemptive w v s pl) (ok : ViewOk w v pl)
    (hp : p < w.len) (notReady : pl p ≠ .ready) :
    ∃ s', prioEnqueue sub v s p = some s' ∧
      PrioInvBoth sub preemptive w v s' (pl.move p .ready) := by
  obtain ⟨tree, inv⟩ := both.inv
  obtain ⟨links, root, tree', enqueued, inv'⟩ := prioEnqueue_spec valid inv ok hp notReady
  exact ⟨_, enqueued, both.preemptive_eq, tree', inv'⟩

theorem newBurst (valid : w.Valid) (both : PrioInvBoth sub preemptive w v s pl)
    (ok : ViewOk w v pl) (hp : p < w.len) (notReady : pl p ≠ .ready) :
    ∃ s', prioNewBurst sub v s p = some s' ∧
      PrioInvBoth sub preemptive w v s' (pl.move p .ready) := by
  obtain ⟨tree, inv⟩ := both.inv
  have fresh : PrioInvBoth sub preemptive w v
      { s with waited := Function.update s.waited p 0 } pl := by
    refine ⟨both.preemptive_eq, tree, inv.congr rfl rfl rfl rfl rfl fun q hq => ?_⟩
    have ne : q ≠ p := by
      rintro rfl
      exact notReady hq
    simp [ne]
  exact fresh.requeue valid ok hp notReady

theorem next (valid : w.Valid) (both : PrioInvBoth sub preemptive w v s pl) (ok : ViewOk w v pl)
    (now_lt : v.now < int64Max) :
    ∃ s' r, prioNextSlice sub v s = some (s', r) ∧
      NextOk (PrioInvBoth sub preemptive w) (preemptive = false) False v pl s' r := by
  obtain ⟨tree, inv⟩ := both.inv
  by_cases nonempty : tree.root = none
  · refine ⟨s, none, ?_, both, .inl ?_⟩
    · simp [prioNextSlice, inv.root, nonempty]
    · have holds := inv.holds
      rw [Tree.root_eq_none.mp nonempty] at holds
      exact holds.none_ready
  · obtain ⟨p, links, tree', deadline, sliced, chosen, inv', -, due⟩ := prioNextSlice_some
      (z := fun q => .out ⟨q, v.remaining q, schedNoDeadline⟩) valid inv ok nonempty (by simp)
    have ready := (inv.holds.mem_iff p).mp chosen.mem
    refine ⟨_, _, sliced, ready, ok.ready_pos p ready, ?_, ?_, fun whole => ⟨le_rfl, ?_⟩,
      both.preemptive_eq, tree', ?_⟩
    · rcases due with ⟨rfl, -⟩ | ⟨step, rfl, aging, -, ⟨y, hy, attained⟩, -⟩
      · exact now_lt
      · have hy : (pl.move p _) y = .ready := (inv'.holds.mem_iff y).mp hy
        have hne : y ≠ p := by
          rintro rfl
          simp at hy
        rw [pl.move_of_ne _ hne] at hy
        have := nextLevel_pos aging ok.now_nonneg ((inv.keyed y hy).bounds aging)
        cases added : ckAddI64 v.now step with
        | none => exact now_lt
        | some t =>
            have := ckAddI64_eq_some added
            simp only [Option.getD_some]
            omega
    · rcases due with ⟨rfl, -⟩ | ⟨step, rfl, aging, -, ⟨y, hy, attained⟩, -⟩
      · exact le_rfl
      · have hy : (pl.move p _) y = .ready := (inv'.holds.mem_iff y).mp hy
        have hne : y ≠ p := by
          rintro rfl
          simp at hy
        rw [pl.move_of_ne _ hne] at hy
        have := nextLevel_pos aging ok.now_nonneg ((inv.keyed y hy).bounds aging)
        cases added : ckAddI64 v.now step with
        | none => exact le_rfl
        | some t => exact ckAddI64_le (by omega) added
    · rcases due with ⟨rfl, -⟩ | ⟨step, -, -, preempts, -⟩
      · rfl
      · rw [both.preemptive_eq, whole] at preempts
        cases preempts
    · have moved := inv'.other (p := p) (z := .out ⟨p, v.remaining p, deadline⟩) (by simp)
        (by simp)
      simpa [Places.move] using moved

end PrioInvBoth

theorem prio_contract (valid : w.Valid) :
    Contract (D := D) w (policyPrioWith sub) (PrioInvBoth sub false w) where
  interruptible _ := rfl
  view both _ _ step := both.view step.procs_eq
  arrival both ok hp new _ := both.newBurst valid ok hp (by simp [new])
  wake both ok blocked _ :=
    both.newBurst valid ok (ok.outside _ (by simp [blocked])) (by simp [blocked])
  next {v s pl} both ok hnow := by
    obtain ⟨s', r, sliced, next⟩ := both.next valid ok hnow
    refine ⟨s', r, sliced, ?_⟩
    cases r with
    | none => exact ⟨next.1, .inl (next.2.resolve_right fun h => h.1)⟩
    | some slice =>
        obtain ⟨h1, h2, h3, h4, h5, h6⟩ := next
        exact ⟨h1, h2, h3, h4, fun _ => h5 rfl, h6⟩
  preempt _ _ _ _ _ _ hook := by simp [policyPrioWith] at hook
  block {v s pl p slice ran} both _ out _ _ _ := ⟨s, rfl, both.other (by simp [out]) (by simp)⟩
  complete {v s pl p slice ran} both _ out _ _ := ⟨s, rfl, both.other (by simp [out]) (by simp)⟩

theorem prioP_contract (valid : w.Valid) :
    Contract (D := D) w (policyPrioPWith sub) (PrioInvBoth sub true w) where
  interruptible h := by simp [policyPrioPWith] at h
  view both _ _ step := both.view step.procs_eq
  arrival both ok hp new _ := both.newBurst valid ok hp (by simp [new])
  wake both ok blocked _ :=
    both.newBurst valid ok (ok.outside _ (by simp [blocked])) (by simp [blocked])
  next {v s pl} both ok hnow := by
    obtain ⟨s', r, sliced, next⟩ := both.next valid ok hnow
    refine ⟨s', r, sliced, ?_⟩
    cases r with
    | none => exact ⟨next.1, .inl (next.2.resolve_right fun h => h.1)⟩
    | some slice =>
        obtain ⟨h1, h2, h3, h4, -, h6⟩ := next
        exact ⟨h1, h2, h3, h4, fun hook => by simp [policyPrioPWith] at hook, h6⟩
  preempt {v s pl p slice ran f} both ok out _ _ _ hook := by
    cases hook
    exact both.requeue valid ok (ok.outside p (by simp [out])) (by simp [out])
  block {v s pl p slice ran} both _ out _ _ _ := ⟨s, rfl, both.other (by simp [out]) (by simp)⟩
  complete {v s pl p slice ran} both _ out _ _ := ⟨s, rfl, both.other (by simp [out]) (by simp)⟩

/-- A fresh treap is empty. -/
theorem prioCreate_inv {preemptive : Bool} {v : SchedView D} {params : PolicyParams} {s : Prio}
    (created : prioCreateWith preemptive v params = .ok s) :
    PrioInvBoth sub preemptive w v s (fun _ => .new) := by
  cases created
  exact ⟨rfl, .leaf, rfl, ⟨trivial, List.nodup_nil⟩, ⟨by simp, .nil⟩, Holds.nil, by simp⟩

/-- The child links lead from each node of the tree to the roots of its
subtrees. -/
def Links.Shape (links : Links) : Tree → Prop
  | .leaf => True
  | .node l x r => links.left x = l.root ∧ links.right x = r.root ∧ links.Shape l ∧ links.Shape r

theorem Spells.shape {less : Nat → Nat → Bool} {prio : Nat → BitVec 64}
    {links : Links} {tree : Tree}
    (spells : Spells less prio links tree) : links.Shape tree := by
  induction tree with
  | leaf => trivial
  | node l x r ihl ihr =>
      obtain ⟨⟨left, right, -⟩, -, hl, hr⟩ := spells
      exact ⟨left, right, ihl hl, ihr hr⟩

/-- What the treap of the priority policies holds. -/
def prioStores (s : Prio) (entries : List Nat) : Prop :=
  ∃ tree, s.root = tree.root ∧ s.links.Shape tree ∧ tree.nodes = entries

theorem PrioInv.stores {v : SchedView D} {s : Prio} {pl : Places} (inv : PrioInv sub w v s pl) :
    ∃ ready, prioStores s ready ∧ Holds pl ready := by
  obtain ⟨tree, inv⟩ := inv
  exact ⟨tree.nodes, ⟨tree, inv.root, inv.treap.spells.shape, rfl⟩, inv.holds⟩

theorem prio_lawful (valid : w.Valid) (v : SchedView D) (params : PolicyParams) :
    Lawful w (policyPrioWith sub) prioStores v params := fun _ created =>
  ⟨_, prio_contract valid, prioCreate_inv created, fun both _ => both.inv.stores⟩

theorem prioP_lawful (valid : w.Valid) (v : SchedView D) (params : PolicyParams) :
    Lawful w (policyPrioPWith sub) prioStores v params := fun _ created =>
  ⟨_, prioP_contract valid, prioCreate_inv created, fun both _ => both.inv.stores⟩

end CpuSched
