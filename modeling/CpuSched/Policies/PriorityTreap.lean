import CpuSched.Policies.PriorityContract

/-!
# The treap of the priority policies over whole sequences of operations

`enqueue` and `erase` may come in any order.  The treap then holds each queued process
once, as a search tree by `(r, pid)` and a heap by `heap_prio`, every node knows the least
process of its subtree by `(base, arrival, pid)`, and the four queries answer from the
queued processes alone.
-/

namespace CpuSched

variable {D : Type} {w : Workload}

/-- The view shows the processes of the workload. -/
structure ShowsProcs (w : Workload) (v : SchedView D) : Prop where
  procs_eq : v.procs = w.proc
  n_eq : v.n = w.len

/-- The states that `enqueue` and `erase` reach from `create`, with the queued processes.
The waiting times may be set between two operations. -/
inductive TreapRun (D : Type) (w : Workload) : List Nat → Prio → Prop
  | create {v : SchedView D} {preemptive : Bool} {params : PolicyParams} {s : Prio}
      (created : prioCreateWith preemptive v params = .ok s) : TreapRun D w [] s
  | enqueue {queued : List Nat} {s s' : Prio} {v : SchedView D} {p : Nat}
      (run : TreapRun D w queued s) (shows_ : ShowsProcs w v) (hp : p < w.len)
      (fresh : p ∉ queued) (call : prioEnqueue satSub v s p = some s') :
      TreapRun D w (p :: queued) s'
  | erase {queued : List Nat} {s : Prio} {v : SchedView D} {p : Nat} {links : Links}
      {root : Option Nat} (run : TreapRun D w queued s) (shows_ : ShowsProcs w v)
      (mem : p ∈ queued) (call : Treap.erase (nodeBefore v s) (baseLess satSub v s) s.heapPrio
        (treapDepth v) s.links s.root p = some (links, root)) :
      TreapRun D w (queued.erase p) { s with links, root }
  | waits {queued : List Nat} {s : Prio} (run : TreapRun D w queued s) (waited : Nat → Int) :
      TreapRun D w queued { s with waited }

/-! ## The orders -/

/-- The order `(base, arrival, pid)`. -/
def keyOrder (w : Workload) (s : Prio) (x y : Nat) : Bool :=
  s.base x < s.base y ∨ (s.base x = s.base y ∧ ((w.proc x).arrival < (w.proc y).arrival ∨
    ((w.proc x).arrival = (w.proc y).arrival ∧ (w.proc x).pid < (w.proc y).pid)))

/-- The order `(r, pid)`. -/
def nodeOrder (w : Workload) (s : Prio) (x y : Nat) : Bool :=
  s.r x < s.r y ∨ (s.r x = s.r y ∧ (w.proc x).pid < (w.proc y).pid)

theorem baseLess_eq {v : SchedView D} (procs_eq : v.procs = w.proc) (s : Prio) :
    baseLess satSub v s = keyOrder w s := by
  funext x y
  rw [Bool.eq_iff_iff, baseLess, keyLess_iff, procs_eq, satSub_zero, satSub_zero, keyOrder,
    decide_eq_true_eq]

theorem nodeBefore_eq {v : SchedView D} (procs_eq : v.procs = w.proc) (s : Prio) :
    nodeBefore v s = nodeOrder w s := by
  funext x y
  rw [Bool.eq_iff_iff, nodeBefore_iff, procs_eq, nodeOrder, decide_eq_true_eq]

/-! ## The tree -/

/-- The links spell the tree, a search tree and a heap whose nodes know the least process
below them. -/
def SearchTreap (w : Workload) (s : Prio) : Tree → Prop
  | .leaf => True
  | .node l t r =>
      (s.links.left t = l.root ∧ s.links.right t = r.root) ∧
      ((∀ y ∈ l.nodes, nodeOrder w s y t = true) ∧ ∀ y ∈ r.nodes, nodeOrder w s t y = true) ∧
      (∀ y ∈ l.nodes ++ r.nodes, s.heapPrio y ≤ s.heapPrio t) ∧
      LeastOf (keyOrder w s) (· ∈ (Tree.node l t r).nodes) (some (s.links.best t)) ∧
      SearchTreap w s l ∧ SearchTreap w s r

theorem SearchTreap.of_spells {s : Prio} {tree : Tree}
    (order : StrictTotalOn (keyOrder w s) (· < w.len))
    (spells : Spells (keyOrder w s) s.heapPrio s.links tree)
    (sorted : Sorted (nodeOrder w s) (· < w.len) tree.nodes) : SearchTreap w s tree := by
  induction tree with
  | leaf => trivial
  | node l t r ihl ihr =>
      obtain ⟨sl, sr, -, before, after⟩ := sorted.node
      obtain ⟨⟨left, right, best⟩, heap, hl, hr⟩ := spells
      refine ⟨⟨left, right⟩, ⟨before, after⟩, heap, ?_, ihl hl sl, ihr hr sr⟩
      rw [best]
      exact (Tree.node l t r).least_spec order sorted.valid

/-- A treap does not depend on the waiting times, nor on which view shows the processes. -/
theorem TreapHolds.shows {v v' : SchedView D} {s s' : Prio} {tree : Tree}
    (inv : TreapHolds satSub w v s tree) (before : ShowsProcs w v) (after : ShowsProcs w v')
    (root : s'.root = s.root) (links : s'.links = s.links) (heapPrio : s'.heapPrio = s.heapPrio)
    (r : s'.r = s.r) (base : s'.base = s.base) : TreapHolds satSub w v' s' tree :=
  inv.congr (after.procs_eq.trans before.procs_eq.symm) root links heapPrio fun q _ =>
    ⟨congrFun r q, congrFun base q⟩

theorem TreapRun.holds (valid : w.Valid) {queued : List Nat} {s : Prio}
    (run : TreapRun D w queued s) {v : SchedView D} (shows_ : ShowsProcs w v) :
    ∃ tree, TreapHolds satSub w v s tree ∧ tree.nodes.Perm queued := by
  induction run generalizing v with
  | create created =>
      cases created
      exact ⟨.leaf, ⟨rfl, ⟨trivial, List.nodup_nil⟩, ⟨by simp, List.Pairwise.nil⟩⟩, .refl _⟩
  | @enqueue queued s s' u p run other hp fresh call ih =>
      obtain ⟨tree, inv, perm⟩ := ih other
      obtain ⟨links, root, tree', enqueued, inv', perm'⟩ := inv.enqueue valid other.procs_eq
        other.n_eq hp fun mem => fresh (perm.mem_iff.mp mem)
      rw [enqueued] at call
      obtain rfl := Option.some.inj call
      exact ⟨tree', inv'.shows other shows_ rfl rfl rfl rfl rfl, perm'.trans (perm.cons p)⟩
  | @erase queued s u p links root run other mem call ih =>
      obtain ⟨tree, inv, perm⟩ := ih other
      obtain ⟨links', tree', erased, inv', perm'⟩ := inv.erase valid other.procs_eq other.n_eq
        (perm.mem_iff.mpr mem)
      rw [inv.root, erased] at call
      obtain ⟨rfl, rfl⟩ : links' = links ∧ tree'.root = root := by simpa using call
      have rest : (p :: tree'.nodes).Perm (p :: queued.erase p) :=
        perm'.symm.trans (perm.trans (List.perm_cons_erase mem))
      exact ⟨tree', inv'.shows other shows_ rfl rfl rfl rfl rfl, rest.cons_inv⟩
  | waits run waited ih =>
      obtain ⟨tree, inv, perm⟩ := ih shows_
      exact ⟨tree, inv.shows shows_ shows_ rfl rfl rfl rfl rfl, perm⟩

/-! ## The hooks are sequences of these operations -/

theorem TreapRun.newBurst {queued : List Nat} {s s' : Prio} {v : SchedView D} {p : Nat}
    (run : TreapRun D w queued s) (shows_ : ShowsProcs w v) (hp : p < w.len) (fresh : p ∉ queued)
    (call : prioNewBurst satSub v s p = some s') : TreapRun D w (p :: queued) s' :=
  .enqueue (run.waits (Function.update s.waited p 0)) shows_ hp fresh call

theorem TreapRun.requeue {queued : List Nat} {s s' : Prio} {v : SchedView D} {p : Nat} {ran : Int}
    (run : TreapRun D w queued s) (shows_ : ShowsProcs w v) (hp : p < w.len) (fresh : p ∉ queued)
    (call : prioRequeue satSub v s p ran = some s') : TreapRun D w (p :: queued) s' :=
  .enqueue run shows_ hp fresh call

/-- `prio_next_slice` erases the process it picks. -/
theorem TreapRun.nextSlice (valid : w.Valid) {queued : List Nat} {s s' : Prio} {v : SchedView D}
    {slice : Slice} (run : TreapRun D w queued s) (shows_ : ShowsProcs w v)
    (call : prioNextSlice satSub v s = some (s', some slice)) :
    slice.proc ∈ queued ∧ TreapRun D w (queued.erase slice.proc) s' := by
  obtain ⟨tree, inv, perm⟩ := run.holds valid shows_
  cases hroot : s.root with
  | none => simp [prioNextSlice, hroot] at call
  | some root =>
      obtain ⟨p, choose, chosen⟩ := prioChoose_spec valid inv shows_.procs_eq shows_.n_eq
        (inv.root.symm.trans hroot) (prioLimit s v.now)
      rw [prioLimit] at choose
      have mem : p ∈ queued := perm.mem_iff.mp chosen.mem
      obtain ⟨links, tree', erased, -⟩ := inv.erase valid shows_.procs_eq shows_.n_eq chosen.mem
      rw [← inv.root, hroot] at erased
      have erases : TreapRun D w (queued.erase p) { s with links, root := tree'.root } :=
        .erase run shows_ mem (by rw [hroot]; exact erased)
      have taken := erases.waits
        (Function.update s.waited p (s.waited p + (v.now - s.readySince p)))
      simp only [prioNextSlice, hroot, choose, Option.bind_eq_bind, Option.bind_some,
        erased] at call
      cases rest : tree'.root with
      | none =>
          rw [rest] at call taken
          simp only [Option.some.injEq, Prod.mk.injEq] at call
          obtain ⟨rfl, rfl⟩ := call
          exact ⟨mem, taken⟩
      | some root' =>
          rw [rest] at call taken
          by_cases aged : s.preemptive = true ∧ 0 < s.aging
          · simp only [if_pos aged] at call
            obtain ⟨deadline, -, call⟩ := Option.bind_eq_some_iff.mp call
            simp only [Option.some.injEq, Prod.mk.injEq] at call
            obtain ⟨rfl, rfl⟩ := call
            exact ⟨mem, taken⟩
          · simp only [if_neg aged, Option.some.injEq, Prod.mk.injEq] at call
            obtain ⟨rfl, rfl⟩ := call
            exact ⟨mem, taken⟩

/-! ## The treap after every sequence of operations -/

/-- After every sequence of `enqueue` and `erase` operations the links below `root` spell a
search tree and heap over exactly the queued processes, `best` is the least process of each
subtree, the queries find the least processes and the largest remainders on
their side of every limit, and the next operation succeeds. -/
theorem treap_run_correct (valid : w.Valid) {queued : List Nat} {s : Prio}
    (run : TreapRun D w queued s) {v : SchedView D} (shows_ : ShowsProcs w v) :
    (∃ tree, s.root = tree.root ∧ tree.nodes.Nodup ∧ tree.nodes.Perm queued ∧
      SearchTreap w s tree) ∧
    (∀ limit, ∃ low, Treap.bestBelow (baseLess satSub v s) s.links s.r limit (treapDepth v) none
        s.root = some low ∧
      LeastOf (keyOrder w s) (fun y => y ∈ queued ∧ s.r y < limit) low) ∧
    (∀ limit, ∃ high, Treap.bestAtOrAbove (baseLess satSub v s) s.links s.r limit (treapDepth v)
        none s.root = some high ∧
      LeastOf (keyOrder w s) (fun y => y ∈ queued ∧ limit ≤ s.r y) high) ∧
    (∀ limit, ∃ m, Treap.maxRBelow s.links s.r limit (treapDepth v) (-1) s.root = some m ∧
      ((m = -1 ∧ ∀ y ∈ queued, limit ≤ s.r y) ∨
        ∃ y ∈ queued, s.r y = m ∧ m < limit ∧ ∀ z ∈ queued, s.r z < limit → s.r z ≤ m)) ∧
    (∀ t, s.root = some t → ∃ m, Treap.maxR s.links s.r (treapDepth v) t = some m ∧
      (∃ y ∈ queued, s.r y = m) ∧ ∀ z ∈ queued, s.r z ≤ m) ∧
    (∀ p < w.len, p ∉ queued → ∃ s', prioEnqueue satSub v s p = some s') ∧
    (∀ p ∈ queued, ∃ links root, Treap.erase (nodeBefore v s) (baseLess satSub v s) s.heapPrio
      (treapDepth v) s.links s.root p = some (links, root)) := by
  obtain ⟨tree, inv, perm⟩ := run.holds valid shows_
  have order : StrictTotalOn (keyOrder w s) (· < w.len) :=
    baseLess_eq shows_.procs_eq s ▸ baseLess_total valid shows_.procs_eq s
  have treap := inv.treap
  have sorted := inv.sorted
  rw [baseLess_eq shows_.procs_eq] at treap
  rw [nodeBefore_eq shows_.procs_eq] at sorted
  have mono := inv.monotone
  have enough := inv.enough shows_.n_eq
  refine ⟨⟨tree, inv.root, treap.nodup, perm, .of_spells order treap.spells sorted⟩,
    fun limit => ?_, fun limit => ?_, fun limit => ?_, fun t root => ?_, fun p hp fresh => ?_,
    fun p mem => ?_⟩
  · obtain ⟨low, found, least⟩ := bestBelow_spec (k := limit) order tree treap.spells mono enough
      (.none (S := fun _ => False) (by simp)) (by simp)
    rw [baseLess_eq shows_.procs_eq, inv.root]
    refine ⟨low, found, least.congr fun y => ?_⟩
    rw [false_or, perm.mem_iff]
  · obtain ⟨high, found, least⟩ := bestAtOrAbove_spec (k := limit) order tree treap.spells mono
      enough (.none (S := fun _ => False) (by simp)) (by simp)
    rw [baseLess_eq shows_.procs_eq, inv.root]
    refine ⟨high, found, least.congr fun y => ?_⟩
    rw [false_or, perm.mem_iff]
  · obtain ⟨m, found, result⟩ := maxRBelow_spec (k := limit) (a := -1) tree treap.spells mono enough
    rw [inv.root]
    refine ⟨m, found, ?_⟩
    simpa only [perm.mem_iff] using result
  · obtain ⟨m, found, attained, most⟩ := maxR_spec tree (inv.root.symm.trans root) treap.spells
      mono enough.le
    refine ⟨m, found, ?_⟩
    simpa only [perm.mem_iff] using And.intro attained most
  · obtain ⟨links, root, tree', enqueued, -⟩ := inv.enqueue valid shows_.procs_eq shows_.n_eq hp
      fun mem => fresh (perm.mem_iff.mp mem)
    exact ⟨_, enqueued⟩
  · obtain ⟨links, tree', erased, -⟩ := inv.erase valid shows_.procs_eq shows_.n_eq
      (perm.mem_iff.mpr mem)
    rw [inv.root]
    exact ⟨links, tree'.root, erased⟩

/-- Two processes that arrive together. -/
def treapSample : Workload := ⟨[processMake 1 0 3, processMake 2 0 1]⟩

theorem treapSample_valid : treapSample.Valid where
  nonempty := by decide
  procs p hp := by
    simp only [treapSample, List.mem_cons, List.not_mem_nil, or_false] at hp
    rcases hp with rfl | rfl
    · constructor <;> decide
    · constructor <;> decide
  pids_nodup := by decide
  horizon_le := by decide

/-- A view of the pair at the tick `now`. -/
def treapSampleView (now : Int) : SchedView Unit :=
  { procs := treapSample.proc, n := 2, cores := 1, csCost := 0, now, remaining := fun _ => 1,
    burstLen := fun _ => 1, predicted := none }

/-- Both processes are queued and the first is erased, with an aging period of 4. -/
theorem treap_run_correct_pair : ∃ s, TreapRun Unit treapSample [1] s ∧
    ∃ tree : Tree, s.root = tree.root ∧ tree.nodes.Nodup ∧ tree.nodes.Perm [1] ∧
      SearchTreap treapSample s tree := by
  have shows_ : ∀ now, ShowsProcs treapSample (treapSampleView now) := fun _ => ⟨rfl, rfl⟩
  have created : prioCreateWith true (treapSampleView 0) { aging := 4 } = .ok _ := rfl
  have start : TreapRun Unit treapSample [] _ := .create created
  have run : TreapRun Unit treapSample [1] _ :=
    .erase (p := 0) (v := treapSampleView 5)
      (.enqueue (p := 1) (v := treapSampleView 3) (.enqueue (p := 0) start (shows_ 0) (by decide)
        (by decide) rfl) (shows_ 3) (by decide) (by decide) rfl) (shows_ 5) (by decide) rfl
  exact ⟨_, run, (treap_run_correct treapSample_valid run (shows_ 5)).1⟩

end CpuSched
