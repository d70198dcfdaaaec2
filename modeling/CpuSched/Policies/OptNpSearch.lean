import CpuSched.Policies.OptNpBound
import Mathlib.Data.Nat.Bitwise

/-!
# The search of the offline optimum is exact

No order of the jobs costs less than the incumbent that the search leaves behind.  A node
of the search is closed when no order that goes on from it is better than the incumbent.
Each pruning closes its node: the lower bound, an entry of the memo whose own node is
closed, a gap that another candidate fills, and the search of the candidates closes the
rest.  The memo may hold entries of nodes whose search is under way; their masks are
those of the ancestors, which no node below shares.
-/

namespace CpuSched

variable {s s₁ s₂ : Search} {mask depth : Nat} {t sum : Int}

/-! ## Nodes of the search -/

/-- The jobs take time and are released before the end of time. -/
structure Jobs (s : Search) : Prop where
  nonneg : ∀ j, 0 ≤ s.p j
  pos : ∀ j < s.n, 0 < s.p j
  early : ∀ j < s.n, s.r j < int64Max

/-- No order that goes on from the node is better than the incumbent. -/
def NodeClosed (s : Search) (mask : Nat) (t sum : Int) : Prop :=
  ∀ js : List Nat, js.Perm (openJobs s.n mask) → s.best ≤ sum + orderCost s.r s.p t js

/-- The incumbent is the cost of its order. -/
def Attained (s : Search) : Prop :=
  s.best = orderCost s.r s.p 0 ((List.range s.n).map s.bestOrder)

/-- Node `i` is on the list that starts at `head`. -/
inductive Listed (pool : Nat → MemoNode) (head : Option Nat) : Nat → Prop
  | head {i} (h : head = some i) : Listed pool head i
  | next {i k} (listed : Listed pool head i) (h : (pool i).next = some k) : Listed pool head k

/-- The lists of the memo stay within the pool, and the nodes recorded are closed unless
they are under way. -/
structure MemoOk (underWay : Nat → Prop) (s : Search) : Prop where
  head_lt : ∀ m i, s.memoHead m = some i → i < s.poolLen
  next_lt : ∀ i < s.poolLen, ∀ k, (s.pool i).next = some k → k < s.poolLen
  closed : ∀ m, ¬underWay m → ∀ i, Listed s.pool (s.memoHead m) i →
    NodeClosed s m (s.pool i).t (s.pool i).sum

/-- From `s` to `s'` the jobs stay, the incumbent improves, and the memo grows by nodes
with masks from `mask` on. -/
structure Improves (mask : Nat) (s s' : Search) : Prop where
  n_eq : s'.n = s.n
  r_eq : s'.r = s.r
  p_eq : s'.p = s.p
  best_le : s'.best ≤ s.best
  poolLen_le : s.poolLen ≤ s'.poolLen
  pool_eq : ∀ i < s.poolLen, s'.pool i = s.pool i
  head_eq : ∀ m < mask, s'.memoHead m = s.memoHead m

namespace Improves

theorem refl (mask : Nat) (s : Search) : Improves mask s s :=
  ⟨rfl, rfl, rfl, le_rfl, le_rfl, fun _ _ => rfl, fun _ _ => rfl⟩

theorem trans (first : Improves mask s s₁) (then_ : Improves mask s₁ s₂) : Improves mask s s₂ :=
  ⟨then_.n_eq.trans first.n_eq, then_.r_eq.trans first.r_eq, then_.p_eq.trans first.p_eq,
    then_.best_le.trans first.best_le, first.poolLen_le.trans then_.poolLen_le,
    fun i hi => (then_.pool_eq i (hi.trans_le first.poolLen_le)).trans (first.pool_eq i hi),
    fun m hm => (then_.head_eq m hm).trans (first.head_eq m hm)⟩

theorem mono {mask' : Nat} (improves : Improves mask' s s₁) (le : mask ≤ mask') :
    Improves mask s s₁ :=
  { improves with head_eq := fun m hm => improves.head_eq m (hm.trans_le le) }

theorem jobs (improves : Improves mask s s₁) (jobs : Jobs s) : Jobs s₁ := by
  refine ⟨?_, ?_, ?_⟩
  · rw [improves.p_eq]
    exact jobs.nonneg
  · rw [improves.p_eq, improves.n_eq]
    exact jobs.pos
  · rw [improves.r_eq, improves.n_eq]
    exact jobs.early

/-- A closed node stays closed. -/
theorem closed (improves : Improves mask s s₁) {m : Nat} (closed : NodeClosed s m t sum) :
    NodeClosed s₁ m t sum := by
  intro js perm
  rw [improves.n_eq] at perm
  rw [improves.r_eq, improves.p_eq]
  exact improves.best_le.trans (closed js perm)

end Improves

/-- A list that starts where it started is the list it was. -/
theorem Listed.back {pool pool' : Nat → MemoNode} {head : Option Nat} {len i : Nat}
    (head_lt : ∀ i, head = some i → i < len)
    (next_lt : ∀ i < len, ∀ k, (pool i).next = some k → k < len)
    (same : ∀ i < len, pool' i = pool i) (listed : Listed pool' head i) :
    Listed pool head i ∧ i < len := by
  induction listed with
  | head h => exact ⟨.head h, head_lt _ h⟩
  | @next i k _ h ih =>
      rw [same i ih.2] at h
      exact ⟨.next ih.1 h, next_lt i ih.2 k h⟩

/-! ## Dominance -/

/-- The walk of `dominated` finds a node of the list. -/
theorem memoDominates_listed {head : Option Nat} {fuel : Nat} {link : Option Nat}
    (onList : ∀ i, link = some i → Listed s.pool head i)
    (dominates : memoDominates s t sum fuel link = true) :
    ∃ i, Listed s.pool head i ∧ (s.pool i).t ≤ t ∧ (s.pool i).sum ≤ sum := by
  induction fuel generalizing link with
  | zero => cases link <;> simp [memoDominates] at dominates
  | succ fuel ih =>
      cases link with
      | none => simp [memoDominates] at dominates
      | some i =>
          rw [memoDominates] at dominates
          split_ifs at dominates with less
          · exact ⟨i, onList i rfl, less⟩
          · exact ih (fun k h => .next (onList i rfl) h) dominates

/-- A node dominated by a closed one is closed. -/
theorem NodeClosed.of_dominates {t₀ sum₀ : Int} (closed : NodeClosed s mask t₀ sum₀) (t_le : t₀ ≤ t)
    (sum_le : sum₀ ≤ sum) : NodeClosed s mask t sum := by
  intro js perm
  have := closed js perm
  have := orderCost_mono (r := s.r) (p := s.p) t_le js
  omega

/-- `dominated` leaves the jobs and the incumbent alone, and records at most the node. -/
structure Records (mask : Nat) (t sum : Int) (s s' : Search) : Prop where
  improves : Improves mask s s'
  pid_eq : s'.pid = s.pid
  best_eq : s'.best = s.best
  order_eq : s'.order = s.order
  bestOrder_eq : s'.bestOrder = s.bestOrder
  memo : ∀ {L : Nat → Prop}, MemoOk L s → MemoOk (fun m => L m ∨ m = mask) s'
  listed : ∀ {L : Nat → Prop}, MemoOk L s → ∀ i, Listed s'.pool (s'.memoHead mask) i →
    Listed s.pool (s.memoHead mask) i ∧ i < s.poolLen ∨ (s'.pool i).t = t ∧ (s'.pool i).sum = sum

/-- A pool that could not grow records nothing. -/
theorem Records.nothing (s : Search) (mask : Nat) (t sum : Int) (memoFull : Bool) :
    Records mask t sum s { s with memoFull } where
  improves := ⟨rfl, rfl, rfl, le_rfl, le_rfl, fun _ _ => rfl, fun _ _ => rfl⟩
  pid_eq := rfl
  best_eq := rfl
  order_eq := rfl
  bestOrder_eq := rfl
  memo ok := ⟨ok.head_lt, ok.next_lt, fun m notL => ok.closed m fun h => notL (.inl h)⟩
  listed ok _ listed := .inl (listed.back (ok.head_lt mask) ok.next_lt fun _ _ => rfl)

theorem Records.record (s : Search) (mask : Nat) (t sum : Int) (poolCap : Nat) :
    Records mask t sum s (memoRecord { s with poolCap } mask t sum) := by
  have pool_eq : ∀ i < s.poolLen, (memoRecord { s with poolCap } mask t sum).pool i = s.pool i :=
    fun i hi => Function.update_of_ne hi.ne ..
  have head_eq : ∀ m, m ≠ mask → (memoRecord { s with poolCap } mask t sum).memoHead m =
      s.memoHead m := fun m ne => Function.update_of_ne ne ..
  have own : (memoRecord { s with poolCap } mask t sum).memoHead mask = some s.poolLen :=
    Function.update_self ..
  have node : (memoRecord { s with poolCap } mask t sum).pool s.poolLen =
    ⟨t, sum, s.memoHead mask⟩ :=
    Function.update_self ..
  refine ⟨⟨rfl, rfl, rfl, le_rfl, Nat.le_succ _, pool_eq, fun m hm => head_eq m
    hm.ne⟩, rfl, rfl, rfl,
    rfl, fun {L} ok => ⟨fun m i h => ?_, fun i hi k h => ?_, fun m notL i listed => ?_⟩,
    fun {L} ok i listed => ?_⟩
  · by_cases same : m = mask
    · subst same
      obtain rfl := Option.some.inj (own.symm.trans h)
      exact Nat.lt_succ_self _
    · rw [head_eq m same] at h
      exact (ok.head_lt m i h).trans (Nat.lt_succ_self _)
  · rcases Nat.lt_succ_iff_lt_or_eq.mp hi with hi | rfl
    · rw [pool_eq i hi] at h
      exact (ok.next_lt i hi k h).trans (Nat.lt_succ_self _)
    · rw [node] at h
      exact (ok.head_lt mask k h).trans (Nat.lt_succ_self _)
  · rw [not_or] at notL
    rw [head_eq m notL.2] at listed
    obtain ⟨listed, hi⟩ := listed.back (ok.head_lt m) ok.next_lt pool_eq
    rw [pool_eq i hi]
    exact ok.closed m notL.1 i listed
  · have either : i = s.poolLen ∨ Listed s.pool (s.memoHead mask) i ∧ i < s.poolLen := by
      induction listed with
      | head h => exact .inl (Option.some.inj (own.symm.trans h)).symm
      | next _ h ih =>
          right
          rcases ih with rfl | ⟨listed, hi⟩
          · rw [node] at h
            exact ⟨.head h, ok.head_lt mask _ h⟩
          · rw [pool_eq _ hi] at h
            exact ⟨.next listed h, ok.next_lt _ hi _ h⟩
    rcases either with rfl | listed
    · rw [node]
      exact .inr ⟨rfl, rfl⟩
    · exact .inl listed

/-- Either a node of the list dominates, or the node is recorded if there is room. -/
theorem dominated_cases (realloc : Nat → Bool) (s : Search) (mask : Nat) (t sum : Int) :
    (dominated realloc s mask t sum = (s, true) ∧
      memoDominates s t sum s.poolLen (s.memoHead mask) = true) ∨
    ∃ s', dominated realloc s mask t sum = (s', false) ∧ Records mask t sum s s' := by
  unfold dominated
  dsimp only
  generalize (if s.poolCap = 0 then 1024 else s.poolCap * 2) = ncap
  split_ifs with dominates
  · exact .inl ⟨rfl, dominates⟩
  · exact .inr ⟨_, rfl, .nothing s mask t sum s.memoFull⟩
  · exact .inr ⟨_, rfl, .record s mask t sum _⟩
  · exact .inr ⟨_, rfl, .nothing s mask t sum true⟩
  · exact .inr ⟨_, rfl, .record s mask t sum s.poolCap⟩

/-! ## The candidates -/

theorem lt_mask_or {j : Nat} (open_ : mask.testBit j = false) : mask < mask ||| 1 <<< j := by
  refine Nat.lt_of_testBit j open_ (by simp [Nat.one_shiftLeft]) fun k later => ?_
  rw [Nat.testBit_or, Nat.one_shiftLeft, Nat.testBit_two_pow_of_ne (by omega), Bool.or_false]

/-- Once `j` is placed, the other jobs of an order are open. -/
theorem perm_openJobs_or {n j : Nat} {js : List Nat} (perm : (j :: js).Perm (openJobs n mask)) :
    js.Perm (openJobs n (mask ||| 1 <<< j)) := by
  obtain ⟨fresh, nodup⟩ := List.nodup_cons.mp (perm.nodup_iff.mpr (openJobs_nodup n mask))
  refine (List.perm_ext_iff_of_nodup nodup (openJobs_nodup n _)).mpr fun i => ?_
  have mem := perm.mem_iff (a := i)
  rw [List.mem_cons, mem_openJobs] at mem
  rw [mem_openJobs, Nat.testBit_or, Nat.one_shiftLeft, Nat.testBit_two_pow, Bool.or_eq_false_iff,
    decide_eq_false_iff_not, ← and_assoc, ← mem]
  constructor
  · intro hi
    refine ⟨.inr hi, ?_⟩
    rintro rfl
    exact fresh hi
  · rintro ⟨rfl | hi, ne⟩
    · exact absurd rfl ne
    · exact hi

/-- When the searches of the candidates are closed, so is the node. -/
theorem closed_of_candidates (jobs : Jobs s₁) (improves : Improves (mask + 1) s₁ s₂)
    (some_open : ∃ j < s₁.n, mask.testBit j = false)
    (each : ∀ x ∈ candidates s₁ mask t, NodeClosed s₂ (mask ||| 1 <<< x.1) x.2
      (sum + x.2 - s₁.r x.1)) :
    NodeClosed s₂ mask t sum := by
  -- an order that starts with a candidate is no better than the incumbent
  have first : ∀ j js, (j :: js).Perm (openJobs s₁.n mask) →
      gapFillable s₁ mask j t (max t (s₁.r j)) = false →
      s₂.best ≤ sum + orderCost s₁.r s₁.p t (j :: js) := by
    intro j js perm fills
    obtain ⟨hj, open_⟩ := mem_openJobs.mp (perm.mem_iff.mp List.mem_cons_self)
    have rest := each (j, max t (s₁.r j) + s₁.p j) (mem_candidates.mpr ⟨hj, open_, fills, rfl⟩) js
      (by rw [improves.n_eq]; exact perm_openJobs_or perm)
    rw [improves.r_eq, improves.p_eq] at rest
    rw [orderCost_cons]
    simp only at rest
    omega
  intro js perm
  rw [improves.n_eq] at perm
  rw [improves.r_eq, improves.p_eq]
  cases js with
  | nil =>
      obtain ⟨j, hj, open_⟩ := some_open
      cases perm.mem_iff.mpr (mem_openJobs.mpr ⟨hj, open_⟩)
  | cons j js =>
      cases fills : gapFillable s₁ mask j t (max t (s₁.r j)) with
      | false => exact first j js perm fills
      | true =>
          -- another job fits before `j`: it costs no more to run it first
          simp only [gapFillable, List.any_eq_true, List.mem_range, Bool.and_eq_true,
            decide_eq_true_eq,
            Bool.not_eq_true', bne_iff_ne] at fills
          obtain ⟨k, hk, ⟨waits, open_, ne⟩, released, fits⟩ := fills
          have mem : k ∈ js := (List.mem_cons.mp
            (perm.mem_iff.mpr (mem_openJobs.mpr ⟨hk, open_⟩))).resolve_left ne
          have filled := orderCost_fill (r := s₁.r) jobs.nonneg mem (t := t) (j := j)
            (by omega) released
            (by omega)
          have swap : (k :: j :: js.erase k).Perm (j :: js) :=
            (List.Perm.swap j k _).trans ((List.perm_cons_erase mem).symm.cons j)
          have := first k (j :: js.erase k) (swap.trans perm) (by simp [gapFillable, released])
          omega

/-! ## The search -/

/-- Where the search is: the first `depth` jobs are placed, and run until `t` at the cost
`sum`. -/
structure AtNode (s : Search) (mask depth : Nat) (t sum : Int) : Prop where
  placed : Placed s.n s.order depth mask
  reach : t = orderEnd s.r s.p 0 ((List.range depth).map s.order)
  spent : sum = orderCost s.r s.p 0 ((List.range depth).map s.order)

/-- What the search of a node leaves behind. -/
structure Explored (L : Nat → Prop) (depth : Nat) (s s' : Search) : Prop where
  memo : MemoOk L s'
  attained : Attained s'
  order_eq : ∀ i < depth, s'.order i = s.order i

/-- From `s` to `s'` the jobs stay, and so do the first `depth` of the order. -/
structure JobsStay (depth : Nat) (s s' : Search) : Prop where
  n_eq : s'.n = s.n
  r_eq : s'.r = s.r
  p_eq : s'.p = s.p
  order_eq : ∀ i < depth, s'.order i = s.order i

/-- The position is that of any state with the same jobs and the same placed ones. -/
theorem AtNode.congr (at_ : AtNode s mask depth t sum) (same : JobsStay depth s s₁) :
    AtNode s₁ mask depth t sum := by
  have orders : (List.range depth).map s₁.order = (List.range depth).map s.order :=
    List.map_congr_left fun i hi => same.order_eq i (List.mem_range.mp hi)
  refine ⟨?_, ?_, ?_⟩
  · rw [same.n_eq]
    exact at_.placed.congr same.order_eq
  · rw [same.r_eq, same.p_eq, orders]
    exact at_.reach
  · rw [same.r_eq, same.p_eq, orders]
    exact at_.spent

/-- The next job is placed. -/
theorem AtNode.snoc (at_ : AtNode s mask depth t sum) (room : depth < s.n) {j : Nat} (hj : j < s.n)
    (open_ : mask.testBit j = false) :
    AtNode { s with order := Function.update s.order depth j } (mask ||| 1 <<< j) (depth + 1)
      (max t (s.r j) + s.p j) (sum + (max t (s.r j) + s.p j) - s.r j) := by
  have before : (List.range depth).map (Function.update s.order depth j) =
      (List.range depth).map s.order :=
    List.map_congr_left fun i hi => Function.update_of_ne (List.mem_range.mp hi).ne ..
  refine ⟨at_.placed.snoc room hj open_, ?_, ?_⟩
  · rw [List.range_succ, List.map_append, orderEnd_append]
    simp only [before, ← at_.reach, List.map_cons, List.map_nil, Function.update_self]
    rfl
  · rw [List.range_succ, List.map_append, orderCost_append]
    simp only [before, ← at_.reach, ← at_.spent, List.map_cons, List.map_nil, Function.update_self,
      orderCost_cons, orderCost_nil]
    omega

/-- A complete order is closed by its own cost. -/
theorem AtNode.closed_leaf (at_ : AtNode s mask s.n t sum) (le : s₁.best ≤ sum)
    (n_eq : s₁.n = s.n) :
    NodeClosed s₁ mask t sum := by
  intro js perm
  have none : openJobs s.n mask = [] := by
    refine List.eq_nil_iff_forall_not_mem.mpr fun j hj => ?_
    obtain ⟨hj, open_⟩ := mem_openJobs.mp hj
    rw [(at_.placed.mask_iff j hj).mpr (at_.placed.isOrder.surj hj)] at open_
    cases open_
  rw [n_eq, none, List.perm_nil] at perm
  subst perm
  simpa using le

/-- The searches of the candidates in turn, if each does what a search does. -/
theorem foldl_candidates {child : Search → Nat × Int → Search} {L : Nat → Prop}
    (each : ∀ (s' : Search) (x : Nat × Int), x ∈ candidates s₁ mask t → Improves (mask + 1) s₁ s' →
      Explored L depth s s' → Improves (mask + 1) s' (child s' x) ∧
        Explored L depth s (child s' x) ∧
        NodeClosed (child s' x) (mask ||| 1 <<< x.1) x.2 (sum + x.2 - s₁.r x.1))
    (cand : List (Nat × Int)) (sub : ∀ x ∈ cand, x ∈ candidates s₁ mask t) {s' : Search}
    (before : Improves (mask + 1) s₁ s') (explored : Explored L depth s s') :
    Improves (mask + 1) s' (cand.foldl child s') ∧ Explored L depth s (cand.foldl child s') ∧
      ∀ x ∈ cand, NodeClosed (cand.foldl child s') (mask ||| 1 <<< x.1) x.2
        (sum + x.2 - s₁.r x.1) := by
  induction cand generalizing s' with
  | nil => exact ⟨.refl _ s', explored, by simp⟩
  | cons x rest ih =>
      obtain ⟨step, explored, closed⟩ := each s' x (sub x List.mem_cons_self) before explored
      obtain ⟨improves, explored, others⟩ := ih (fun y hy => sub y (List.mem_cons_of_mem x hy))
        (before.trans step) explored
      refine ⟨step.trans improves, explored, fun y hy => ?_⟩
      rcases List.mem_cons.mp hy with rfl | hy
      · exact improves.closed closed
      · exact others y hy

/-- Once the node itself is closed, it is no longer under way. -/
theorem MemoOk.leave {L : Nat → Prop} (memo : MemoOk L s) (records : Records mask t sum s s₁)
    (improves : Improves (mask + 1) s₁ s₂) (after : MemoOk (fun m => L m ∨ m = mask) s₂)
    (notUnderWay : ¬L mask) (closed : NodeClosed s₂ mask t sum) : MemoOk L s₂ := by
  refine ⟨after.head_lt, after.next_lt, fun m notL i listed => ?_⟩
  by_cases same : m = mask
  · subst same
    have recorded := records.memo memo
    rw [improves.head_eq m (Nat.lt_succ_self m)] at listed
    obtain ⟨listed, hi⟩ := listed.back (recorded.head_lt m) recorded.next_lt improves.pool_eq
    rw [improves.pool_eq i hi]
    rcases records.listed memo i listed with ⟨listed, hi⟩ | ⟨t_eq, sum_eq⟩
    · rw [records.improves.pool_eq i hi]
      exact improves.closed (records.improves.closed (memo.closed m notUnderWay i listed))
    · rw [t_eq, sum_eq]
      exact closed
  · exact after.closed m (not_or.mpr ⟨notL, same⟩) i listed

/-- The search closes its node. -/
theorem search_closed (realloc : Nat → Bool) (fuel : Nat) {L : Nat → Prop} (jobs : Jobs s)
    (at_ : AtNode s mask depth t sum) (enough : s.n < fuel + depth) (memo : MemoOk L s)
    (below : ∀ m, L m → m < mask) (attained : Attained s) :
    Improves mask s (search realloc fuel s mask depth t sum) ∧
      Explored L depth s (search realloc fuel s mask depth t sum) ∧
      NodeClosed (search realloc fuel s mask depth t sum) mask t sum := by
  induction fuel generalizing s mask depth t sum L with
  | zero =>
      have := at_.placed.depth_le
      omega
  | succ fuel ih =>
      have unchanged : Improves mask s s ∧ Explored L depth s s :=
        ⟨.refl mask s, memo, attained, fun _ _ => rfl⟩
      rw [search]
      split_ifs with leaf better bound
      · subst leaf
        refine ⟨⟨rfl, rfl, rfl, better.le, le_rfl, fun _ _ => rfl, fun _ _ => rfl⟩,
          ⟨⟨memo.head_lt, memo.next_lt, fun m notL i listed js perm => better.le.trans
            (memo.closed m notL i listed js perm)⟩, at_.spent, fun _ _ => rfl⟩,
          at_.closed_leaf le_rfl rfl⟩
      · subst leaf
        exact ⟨unchanged.1, unchanged.2, at_.closed_leaf (not_lt.mp better) rfl⟩
      · refine ⟨unchanged.1, unchanged.2, fun js perm => ?_⟩
        have := srptBound_le (t := t) jobs.nonneg jobs.pos jobs.early perm
        omega
      · have room : depth < s.n := lt_of_le_of_ne at_.placed.depth_le leaf
        have notUnderWay : ¬L mask := fun h => (below mask h).false
        rcases dominated_cases realloc s mask t sum with ⟨eq, dominates⟩ | ⟨s₁, eq, records⟩
        · rw [eq]
          obtain ⟨i, listed, t_le, sum_le⟩ := memoDominates_listed (fun _ h => .head h) dominates
          exact ⟨unchanged.1, unchanged.2,
            (memo.closed mask notUnderWay i listed).of_dominates t_le sum_le⟩
        · rw [eq]
          have improves := records.improves
          have jobs₁ := improves.jobs jobs
          have start : Explored (fun m => L m ∨ m = mask) depth s s₁ := by
            refine ⟨records.memo memo, ?_, fun i _ => by rw [records.order_eq]⟩
            rw [Attained, records.best_eq, improves.r_eq, improves.p_eq, improves.n_eq,
              records.bestOrder_eq]
            exact attained
          have child : ∀ (s' : Search) (x : Nat × Int), x ∈ candidates s₁ mask t →
              Improves (mask + 1) s₁ s' → Explored (fun m => L m ∨ m = mask) depth s s' →
              let s₂ := search realloc fuel { s' with order := Function.update s'.order depth x.1 }
                (mask ||| 1 <<< x.1) (depth + 1) x.2 (sum + x.2 - s'.r x.1)
              Improves (mask + 1) s' s₂ ∧ Explored (fun m => L m ∨ m = mask) depth s s₂ ∧
                NodeClosed s₂ (mask ||| 1 <<< x.1) x.2 (sum + x.2 - s₁.r x.1) := by
            intro s' x mem before explored
            obtain ⟨hj, open_, -, done⟩ := mem_candidates.mp mem
            obtain ⟨j, done⟩ := x
            simp only at hj open_ done ⊢
            subst done
            have all := improves.trans (before.mono (Nat.le_succ mask))
            rw [← before.r_eq, ← before.p_eq]
            have lt := lt_mask_or open_
            have at' := (at_.congr ⟨all.n_eq, all.r_eq, all.p_eq, explored.order_eq⟩).snoc
              (by rw [all.n_eq]; exact room)
              (by rw [before.n_eq]; exact hj) open_
            obtain ⟨step, explored', closed⟩ := ih (L := fun m => L m ∨ m = mask)
              (s := { s' with order := Function.update s'.order depth j })
              ⟨(all.jobs jobs).nonneg, (all.jobs jobs).pos, (all.jobs jobs).early⟩ at'
              (by simp only [all.n_eq]; omega)
              ⟨explored.memo.head_lt, explored.memo.next_lt, explored.memo.closed⟩
              (fun m h => by
                rcases h with h | rfl
                · exact (below m h).trans lt
                · exact lt) explored.attained
            refine ⟨Improves.mono { step with } lt, ⟨explored'.memo, explored'.attained,
              fun i hi => ?_⟩, closed⟩
            rw [explored'.order_eq i (by omega), ← explored.order_eq i hi]
            exact Function.update_of_ne hi.ne ..
          obtain ⟨improves₂, explored, each⟩ :=
            foldl_candidates child (candidates s₁ mask t) (fun _ h => h) (.refl _ s₁) start
          have some_open : ∃ j < s₁.n, mask.testBit j = false := by
            rw [improves.n_eq]
            exact at_.placed.exists_open room
          have closed := closed_of_candidates jobs₁ improves₂ some_open each
          exact ⟨improves.trans (improves₂.mono (Nat.le_succ mask)),
            ⟨memo.leave records improves₂ explored.memo notUnderWay closed, explored.attained,
              explored.order_eq⟩, closed⟩

/-! ## The incumbent -/

theorem orderTotal_eq (s : Search) (order : Nat → Nat) :
    orderTotal s order = orderCost s.r s.p 0 ((List.range s.n).map order) := by
  have loop : ∀ (jobs : List Nat) (t sum : Int),
      orderTotalLoop s order jobs t sum = sum + orderCost s.r s.p t (jobs.map order) := by
    intro jobs
    induction jobs with
    | nil => exact fun t sum => (add_zero sum).symm
    | cons i rest ih =>
        intro t sum
        have start_eq : (if s.r (order i) < t then t else s.r (order i)) =
          max t (s.r (order i)) := by
          split_ifs <;> omega
        simp only [orderTotalLoop, start_eq]
        rw [ih, List.map_cons, orderCost_cons]
        omega
  rw [orderTotal, loop, zero_add]

/-- The better of the two greedy orders comes with its cost. -/
theorem startSearch_attained (s : Search) : Attained (startSearch s) := by
  unfold startSearch
  dsimp only
  split_ifs
  · exact orderTotal_eq s _
  · exact orderTotal_eq s _

/-- The jobs of the search are those of the view, and its memo is empty. -/
theorem startSearch_fields (s : Search) : (startSearch s).n = s.n ∧ (startSearch s).r = s.r ∧
    (startSearch s).p = s.p ∧ (startSearch s).memoHead = s.memoHead ∧
    (startSearch s).poolLen = s.poolLen := by
  unfold startSearch
  dsimp only
  split_ifs
  · exact ⟨rfl, rfl, rfl, rfl, rfl⟩
  · exact ⟨rfl, rfl, rfl, rfl, rfl⟩

/-- The jobs are the processes of the workload. -/
theorem initSearch_fields {D : Type} {w : Workload} {v : SchedView D}
    (procs_eq : v.procs = w.proc) :
    (initSearch v).r = (fun j => (w.proc j).arrival) ∧
      (initSearch v).p = fun j => (w.proc j).burst := by
  rw [← procs_eq]
  exact ⟨rfl, rfl⟩

theorem startSearch_jobs {D : Type} {w : Workload} {v : SchedView D} (valid : w.Valid)
    (procs_eq : v.procs = w.proc) (n_eq : v.n = w.len) : Jobs (startSearch (initSearch v)) := by
  obtain ⟨start_n, start_r, start_p, -, -⟩ := startSearch_fields (initSearch v)
  obtain ⟨r_eq, p_eq⟩ := initSearch_fields procs_eq
  have inside : ∀ {j}, j < (startSearch (initSearch v)).n → j < w.len := fun {j} hj => by
    rwa [start_n, initSearch, n_eq] at hj
  refine ⟨fun j => ?_, fun j hj => ?_, fun j hj => ?_⟩
  · rw [start_p, p_eq]
    exact valid.burst_nonneg j
  · rw [start_p, p_eq]
    exact (valid.proc (inside hj)).burst_pos
  · rw [start_r, r_eq]
    exact valid.arrival_lt (inside hj)

/-- The search of the whole tree ends with an order of the least cost. -/
theorem search_least (realloc : Nat → Bool) (jobs : Jobs s) (attained : Attained s)
    (heads : s.memoHead = fun _ => none) (pool : s.poolLen = 0) {js : List Nat}
    (perm : js.Perm (List.range s.n)) :
    orderCost s.r s.p 0 ((List.range s.n).map (search realloc (s.n + 1) s 0 0 0 0).bestOrder) ≤
      orderCost s.r s.p 0 js := by
  have memo : MemoOk (fun _ => False) s := by
    refine ⟨by simp [heads], by simp [pool], fun m _ i listed => ?_⟩
    rw [heads] at listed
    have outside : Listed s.pool none i ∧ i < 0 := listed.back (by simp) (by simp) fun _ _ => rfl
    exact absurd outside.2 (Nat.not_lt_zero i)
  have root : AtNode s 0 0 0 0 := ⟨Placed.empty s.n s.order, rfl, rfl⟩
  obtain ⟨improves, explored, closed⟩ := search_closed realloc (s.n + 1) jobs root (by omega) memo
    (by simp) attained
  have least := closed js (by rw [improves.n_eq]; simpa [openJobs] using perm)
  rwa [explored.attained, improves.n_eq, improves.r_eq, improves.p_eq, zero_add] at least

end CpuSched
