import CpuSched.Policies.PriorityArithmetic
import CpuSched.Policies.OptNpSearch
import CpuSched.Policies.SrptTotal

/-!
# The arithmetic of the offline optimum

The model computes with exact integers.  Here every signed addition and subtraction of
`greedy`, `order_total`, `srpt_bound` and `search` is listed.  The times among them fit in
any valid workload.  The totals of up to twenty turnaround times need not: they fit
exactly when those of the two greedy orders do and those of the partial schedules that
the search visits, with what the rest costs at least.
-/

namespace CpuSched

variable {D : Type}

/-! ## The operations -/

/-- The results of the additions of `greedy`. -/
def greedyLoopInts (s : Search) (byBurst : Bool) : List Nat → Nat → Int → List Int
  | [], _, _ => []
  | _ :: rest, mask, t =>
      let earliest := greedyEarliest s mask
      let t := if t < earliest then earliest else t
      match greedyPick s byBurst mask t with
      | none => []
      | some b => (t + s.p b) :: greedyLoopInts s byBurst rest (mask ||| 1 <<< b) (t + s.p b)

/-- The results of the operations of `order_total`. -/
def orderTotalLoopInts (s : Search) (order : Nat → Nat) : List Nat → Int → Int → List Int
  | [], _, _ => []
  | i :: rest, t, sum =>
      let j := order i
      let t := (if s.r j < t then t else s.r j) + s.p j
      t :: (t - s.r j) :: (sum + (t - s.r j)) :: orderTotalLoopInts s order rest t
        (sum + (t - s.r j))

/-- The results of the operations of the loop of `srpt_bound`. -/
def srptLoopInts (rel : Nat → Int) (jobs : List Nat) :
    Nat → (Nat → Int) → Nat → Int → Int → List Int
  | 0, _, _, _, _ => []
  | fuel + 1, rem, left, t, total =>
      if left = 0 then []
      else
        let scan := srptScan rem rel t jobs ⟨none, int64Max⟩
        match scan.best with
        | none => srptLoopInts rel jobs fuel rem left scan.nextRelease total
        | some b =>
            let run :=
              if scan.nextRelease ≠ int64Max ∧ scan.nextRelease - t < rem b then
                scan.nextRelease - t
              else rem b
            let gap := if scan.nextRelease ≠ int64Max then [scan.nextRelease - t] else []
            let t := t + run
            let rem := Function.update rem b (rem b - run)
            gap ++ [t, rem b] ++
              if rem b = 0 then
                [t - rel b, total + (t - rel b)] ++
                  srptLoopInts rel jobs fuel rem (left - 1) t (total + (t - rel b))
              else srptLoopInts rel jobs fuel rem left t total

/-- The results of the operations of `srpt_bound`. -/
def srptInts (s : Search) (mask : Nat) (t : Int) : List Int :=
  let jobs := openJobs s.n mask
  srptLoopInts s.r jobs (3 * jobs.length) s.p jobs.length t 0

/-- The results of the operations by which `search` finds its candidates. -/
def candidateInts (s : Search) (mask : Nat) (t : Int) : List Int :=
  (openJobs s.n mask).flatMap fun j =>
    let start := if s.r j < t then t else s.r j
    ((List.range s.n).flatMap fun k =>
      if t < start ∧ mask.testBit k = false ∧ k ≠ j ∧ s.r k ≤ t then [start - t] else []) ++
      if gapFillable s mask j t start then [] else [start + s.p j]

/-! ## The calls of the search -/

/-- The arguments of a call of `search`. -/
structure SearchCall where
  state : Search
  mask : Nat
  depth : Nat
  t : Int
  sum : Int

namespace SearchCall

/-- The state in which a call tries its candidates, unless it returns before that. -/
def expands (realloc : Nat → Bool) (c : SearchCall) : Option Search :=
  if c.depth = c.state.n ∨ c.state.best ≤ c.sum + srptBound c.state c.mask c.t then none
  else
    match dominated realloc c.state c.mask c.t c.sum with
    | (_, true) => none
    | (s, false) => some s

/-- The results of the operations of one call. -/
def ints (realloc : Nat → Bool) (c : SearchCall) : List Int :=
  (if c.depth = c.state.n then []
    else srptInts c.state c.mask c.t ++ [c.sum + srptBound c.state c.mask c.t]) ++
    match c.expands realloc with
    | none => []
    | some s =>
        candidateInts s c.mask c.t ++ (candidates s c.mask c.t).flatMap fun (j, done) =>
          [c.sum + done, c.sum + done - s.r j]

/-- The call for the candidate `j`, in the state `s`. -/
def child (c : SearchCall) (s : Search) (j : Nat) (done : Int) : SearchCall where
  state := { s with order := Function.update s.order c.depth j }
  mask := c.mask ||| 1 <<< j
  depth := c.depth + 1
  t := done
  sum := c.sum + done - s.r j

/-- What the call leaves behind. -/
def run (realloc : Nat → Bool) (fuel : Nat) (c : SearchCall) : Search :=
  search realloc fuel c.state c.mask c.depth c.t c.sum

/-- The partial schedule of the call: the jobs placed so far, in their order. -/
def placed (c : SearchCall) : List Nat := (List.range c.depth).map c.state.order

/-- The calls made along a list, each in the state that the one before left. -/
def along {X : Type} (run : Search → X → Search) (calls : Search → X → List SearchCall) :
    Search → List X → List SearchCall
  | _, [] => []
  | s, x :: rest => calls s x ++ along run calls (run s x) rest

/-- A call and all that it makes. -/
def all (realloc : Nat → Bool) : Nat → SearchCall → List SearchCall
  | 0, _ => []
  | fuel + 1, c =>
      c :: match c.expands realloc with
        | none => []
        | some s =>
            along (fun s (j, done) => (c.child s j done).run realloc fuel)
              (fun s (j, done) => all realloc fuel (c.child s j done)) s (candidates s c.mask c.t)

end SearchCall

/-- The calls of `search` that `optnp_create` leads to. -/
def optNpCalls (realloc : Nat → Bool) (v : SchedView D) : List SearchCall :=
  SearchCall.all realloc (v.n + 1) ⟨startSearch (initSearch v), 0, 0, 0, 0⟩

/-- The results of the signed additions and subtractions of `optnp_create`. -/
def optNpInts (realloc : Nat → Bool) (v : SchedView D) : List Int :=
  let s := initSearch v
  greedyLoopInts s false (List.range s.n) 0 0 ++ greedyLoopInts s true (List.range s.n) 0 0 ++
    orderTotalLoopInts s (greedy s false) (List.range s.n) 0 0 ++
    orderTotalLoopInts s (greedy s true) (List.range s.n) 0 0 ++
    (optNpCalls realloc v).flatMap (SearchCall.ints realloc)

/-! ## The times -/

variable {s : Search} {mask : Nat} {t : Int}

/-- The bursts of the open jobs. -/
def workOpen (s : Search) (mask : Nat) : Int := ∑ j ∈ (openJobs s.n mask).toFinset, s.p j

/-- The open jobs end within the range, wherever they start from. -/
structure InTime (s : Search) (mask : Nat) (t : Int) : Prop where
  nonneg : 0 ≤ t
  arrival : ∀ j < s.n, 0 ≤ s.r j
  now : t + workOpen s mask ≤ int64Max
  later : ∀ j < s.n, s.r j + workOpen s mask ≤ int64Max

theorem workOpen_nonneg (jobs : Jobs s) (mask : Nat) : 0 ≤ workOpen s mask :=
  Finset.sum_nonneg fun j _ => jobs.nonneg j

theorem workOpen_or {j : Nat} (hj : j < s.n) (open_ : mask.testBit j = false) :
    s.p j + workOpen s (mask ||| 1 <<< j) = workOpen s mask := by
  have mem : j ∈ (openJobs s.n mask).toFinset :=
    List.mem_toFinset.mpr (mem_openJobs.mpr ⟨hj, open_⟩)
  have rest : (openJobs s.n (mask ||| 1 <<< j)).toFinset =
    (openJobs s.n mask).toFinset.erase j := by
    have perm := perm_openJobs_or (List.perm_cons_erase (List.mem_toFinset.mp mem)).symm
    rw [← List.toFinset_eq_of_perm _ _ perm]
    ext i
    rw [List.mem_toFinset, (openJobs_nodup s.n mask).mem_erase_iff, Finset.mem_erase,
      List.mem_toFinset]
  rw [workOpen, workOpen, rest, Finset.add_sum_erase _ _ mem]

/-- An open job that starts no later than it can ends within the range, with the rest
after it. -/
theorem InTime.snoc (inTime : InTime s mask t) (jobs : Jobs s) {j : Nat} (hj : j < s.n)
    (open_ : mask.testBit j = false) {start : Int} (start_nonneg : 0 ≤ start)
    (start_le : start ≤ max t (s.r j)) :
    start + s.p j ≤ int64Max ∧ InTime s (mask ||| 1 <<< j) (start + s.p j) := by
  have split := workOpen_or hj open_
  have rest := workOpen_nonneg jobs (mask ||| 1 <<< j)
  have := jobs.nonneg j
  have := inTime.now
  have := inTime.later j hj
  refine ⟨by omega, by omega, inTime.arrival, by omega, fun i hi => ?_⟩
  have := inTime.later i hi
  omega

/-! ## `greedy` -/

theorem greedyEarliest_le {j : Nat} (mem : j ∈ openJobs s.n mask) :
    greedyEarliest s mask ≤ s.r j := by
  have fold : ∀ (jobs : List Nat) (e : Int),
      jobs.foldl (fun earliest j => if s.r j < earliest then s.r j else earliest) e ≤ e ∧
        ∀ j ∈ jobs, jobs.foldl
          (fun earliest j => if s.r j < earliest then s.r j else earliest) e ≤ s.r j := by
    intro jobs
    induction jobs with
    | nil => exact fun e => ⟨le_rfl, by simp⟩
    | cons k rest ih =>
        intro e
        rw [List.foldl_cons]
        obtain ⟨le, each⟩ := ih (if s.r k < e then s.r k else e)
        refine ⟨by split_ifs at le ⊢ <;> omega, fun j hj => ?_⟩
        rcases List.mem_cons.mp hj with rfl | hj
        · split_ifs at le ⊢ <;> omega
        · exact each j hj
  exact (fold _ _).2 j mem

/-- No addition of `greedy` leaves the range. -/
theorem greedyLoopInts_fit (jobs : Jobs s) (byBurst : Bool) (places : List Nat)
    (inTime : InTime s mask t) : ∀ x ∈ greedyLoopInts s byBurst places mask t, InI64 x := by
  induction places generalizing mask t with
  | nil => simp [greedyLoopInts]
  | cons i rest ih =>
      by_cases none : openJobs s.n mask = []
      · simp [greedyLoopInts, greedyPick, none]
      · obtain ⟨k, hk⟩ := List.exists_mem_of_ne_nil _ none
        obtain ⟨j, hj, early⟩ := greedyEarliest_spec (fun j hj => (jobs.early j hj).le) ⟨k, hk⟩
        obtain ⟨start, start_eq⟩ : ∃ start,
            (if t < greedyEarliest s mask then greedyEarliest s mask else t) = start := ⟨_, rfl⟩
        obtain ⟨b, hb, pick⟩ := greedyPick_spec (b := byBurst) (t := start)
          ⟨j, hj, by split_ifs at start_eq <;> omega⟩
        have least := greedyEarliest_le hb
        obtain ⟨hb, open_⟩ := mem_openJobs.mp hb
        have nonneg := inTime.nonneg
        have job_nonneg := jobs.nonneg b
        have start_nonneg : 0 ≤ start := by split_ifs at start_eq <;> omega
        have start_le : start ≤ max t (s.r b) := by split_ifs at start_eq <;> omega
        obtain ⟨fits, after⟩ := inTime.snoc jobs hb open_ start_nonneg start_le
        simp only [greedyLoopInts, start_eq, pick, List.forall_mem_cons]
        refine ⟨⟨?_, fits⟩, ih after⟩
        have := after.nonneg
        unfold int64Min
        omega

/-! ## `order_total` -/

/-- Of the operations of `order_total` only the total can leave the range. -/
theorem orderTotalLoopInts_fit (jobs : Jobs s) {order : Nat → Nat} {places : List Nat} {sum : Int}
    (t_nonneg : 0 ≤ t) (sum_nonneg : 0 ≤ sum) (sum_le : sum ≤ int64Max)
    (arrival : ∀ i ∈ places, 0 ≤ s.r (order i))
    (now : t + ((places.map order).map s.p).sum ≤ int64Max)
    (later : ∀ i ∈ places, s.r (order i) + ((places.map order).map s.p).sum ≤ int64Max) :
    (∀ x ∈ orderTotalLoopInts s order places t sum, InI64 x) ↔
      sum + orderCost s.r s.p t (places.map order) ≤ int64Max := by
  induction places generalizing t sum with
  | nil => simpa [orderTotalLoopInts] using sum_le
  | cons i rest ih =>
      have start_eq : (if s.r (order i) < t then t else s.r (order i)) = max t (s.r (order i)) := by
        split_ifs <;> omega
      simp only [List.map_cons, List.sum_cons] at now later ⊢
      have rest_nonneg : 0 ≤ ((rest.map order).map s.p).sum := by
        refine List.sum_nonneg fun x hx => ?_
        obtain ⟨j, -, rfl⟩ := List.mem_map.mp hx
        exact jobs.nonneg j
      have burst_nonneg := jobs.nonneg (order i)
      have released := arrival i List.mem_cons_self
      have last := later i List.mem_cons_self
      have cost_nonneg := orderCost_nonneg (r := s.r) jobs.nonneg
        (max t (s.r (order i)) + s.p (order i))
        (rest.map order)
      simp only [orderTotalLoopInts, start_eq, List.forall_mem_cons, orderCost_cons, ← add_assoc]
      have step : sum + (max t (s.r (order i)) + s.p (order i) - s.r (order i)) ≤ int64Max →
          ((∀ x ∈ orderTotalLoopInts s order rest (max t (s.r (order i)) + s.p (order i))
            (sum + (max t (s.r (order i)) + s.p (order i) - s.r (order i))), InI64 x) ↔ _) :=
              fun le =>
        ih (by omega) (by omega) le
          (fun k hk => arrival k (List.mem_cons_of_mem i hk)) (by omega) fun k hk => by
            have := later k (List.mem_cons_of_mem i hk)
            omega
      constructor
      · rintro ⟨-, -, total, others⟩
        exact (step total.2).mp others
      · intro fits
        refine ⟨?_, ?_, ?_, (step (by omega)).mpr fits⟩ <;> unfold InI64 int64Min <;> omega

/-! ## `srpt_bound` -/

/-- Of the operations of `srpt_bound` only the total can leave the range, and it grows. -/
theorem srptLoopInts_fit {rel rem : Nat → Int} {jobs : List Nat} (fuel : Nat)
    {left : Nat} {total : Int}
    (early : ∀ j ∈ jobs, rel j < int64Max) (arrival : ∀ j ∈ jobs, 0 ≤ rel j)
    (left_eq : left = (jobs.toFinset.filter fun j => rem j ≠ 0).card)
      (nonneg : ∀ j ∈ jobs, 0 ≤ rem j)
    (t_nonneg : 0 ≤ t) (total_nonneg : 0 ≤ total) (now : t + ∑ j ∈ jobs.toFinset, rem j ≤ int64Max)
    (later : ∀ j ∈ jobs, rel j + ∑ j ∈ jobs.toFinset, rem j ≤ int64Max) :
    total ≤ srptLoop rel jobs fuel rem left t total ∧
      (srptLoop rel jobs fuel rem left t total ≤ int64Max →
        ∀ x ∈ srptLoopInts rel jobs fuel rem left t total, InI64 x) := by
  have mem : ∀ {j}, j ∈ jobs ↔ j ∈ jobs.toFinset := fun {j} => List.mem_toFinset.symm
  induction fuel generalizing rem left t total with
  | zero => exact ⟨le_rfl, fun _ => by simp [srptLoopInts]⟩
  | succ fuel ih =>
      rw [srptLoop, srptLoopInts]
      split_ifs with empty
      · exact ⟨le_rfl, fun _ => by simp⟩
      · have finds := srptScan_finds rem rel t jobs ⟨none, int64Max⟩
        generalize srptScan rem rel t jobs ⟨none, int64Max⟩ = scan at finds ⊢
        dsimp only
        cases best : scan.best with
        | none =>
            obtain ⟨j, hj⟩ := Finset.card_pos.mp
              (by omega : 0 < (jobs.toFinset.filter fun j => rem j ≠ 0).card)
            obtain ⟨hj, more⟩ := Finset.mem_filter.mp hj
            have first := finds.next_first j (mem.mpr hj) more
              ((finds.none_due best).2 j (mem.mpr hj) more)
            have := early j (mem.mpr hj)
            obtain ⟨i, hi, -, -, eq⟩ := finds.next_attained.resolve_left (by simp only; omega)
            exact ih left_eq nonneg (eq ▸ arrival i hi) total_nonneg (eq ▸ later i hi) later
        | some b =>
            obtain ⟨hb, more, due⟩ := (finds.some_mem b best).resolve_left (by simp)
            have pos : 0 < rem b := lt_of_le_of_ne (nonneg b hb) more.symm
            have b_le : rem b ≤ ∑ j ∈ jobs.toFinset, rem j :=
              Finset.single_le_sum (fun j hj => nonneg j (mem.mpr hj)) (mem.mp hb)
            have next_le : scan.nextRelease ≤ int64Max := finds.next_le
            have next_later := finds.next_later
            obtain ⟨run, run_eq⟩ : ∃ run,
              (if scan.nextRelease ≠ int64Max ∧ scan.nextRelease - t < rem b then
              scan.nextRelease - t else rem b) = run := ⟨_, rfl⟩
            obtain ⟨run_pos, run_le⟩ : 0 < run ∧ run ≤ rem b := by
              simp only at next_later
              split_ifs at run_eq <;> omega
            have left_eq' := card_unfinished_update (x := rem b - run) (mem.mp hb) more
            have nonneg' : ∀ j ∈ jobs, 0 ≤ Function.update rem b (rem b - run) j := by
              intro j hj
              by_cases same : j = b
              · rw [same, Function.update_self]
                omega
              · rw [Function.update_of_ne same]
                exact nonneg j hj
            have work : ∑ j ∈ jobs.toFinset, Function.update rem b (rem b - run) j =
                ∑ j ∈ jobs.toFinset, rem j - run := by
              rw [Finset.sum_update_of_mem (mem.mp hb), Finset.sdiff_singleton_eq_erase,
                ← Finset.add_sum_erase _ _ (mem.mp hb)]
              omega
            have goesOn : ∀ {l : Nat} {a : Int},
                l = (jobs.toFinset.filter fun j => Function.update rem b (rem b - run) j ≠
                  0).card → 0 ≤ a →
                a ≤ srptLoop rel jobs fuel (Function.update rem b (rem b - run)) l (t + run) a ∧
                  (srptLoop rel jobs fuel (Function.update rem b (rem b - run)) l
                    (t + run) a ≤ int64Max →
                    ∀ x ∈ srptLoopInts rel jobs fuel (Function.update rem b (rem b - run)) l
                      (t + run) a, InI64 x) := fun eq le =>
              ih eq nonneg' (by omega) le (by omega) fun j hj => by
                have := later j hj
                omega
            have gap : ∀ x ∈ (if scan.nextRelease ≠ int64Max then [scan.nextRelease - t] else []),
              InI64 x := by
              simp only at next_later
              split_ifs with hx
              · simp only [List.forall_mem_cons, List.not_mem_nil, false_implies,
                  implies_true, and_true]
                unfold InI64 int64Min
                omega
              · simp
            have clock : ∀ x ∈ [t + run, rem b - run], InI64 x := by
              simp only [List.forall_mem_cons, List.not_mem_nil, false_implies,
                implies_true, and_true]
              unfold InI64 int64Min int64Max at *
              omega
            have := arrival b hb
            simp only [run_eq, Function.update_self]
            by_cases done : rem b - run = 0
            · rw [if_pos done] at left_eq'
              simp only [if_pos done]
              obtain ⟨le, fit⟩ := goesOn (l := left - 1) (a := total + (t + run - rel b)) (by omega)
                (by omega)
              refine ⟨by omega, fun small => ?_⟩
              simp only [List.forall_mem_append]
              refine ⟨⟨gap, clock⟩, ?_, fit small⟩
              simp only [List.forall_mem_cons, List.not_mem_nil, false_implies,
                implies_true, and_true]
              unfold InI64 int64Min
              omega
            · rw [if_neg done, Nat.sub_zero] at left_eq'
              simp only [if_neg done]
              obtain ⟨le, fit⟩ := goesOn (l := left) (a := total) (by omega) total_nonneg
              refine ⟨le, fun small => ?_⟩
              simp only [List.forall_mem_append]
              exact ⟨⟨gap, clock⟩, fit small⟩

theorem srptInts_fit (jobs : Jobs s) (inTime : InTime s mask t) : 0 ≤ srptBound s mask t ∧
    (srptBound s mask t ≤ int64Max → ∀ x ∈ srptInts s mask t, InI64 x) := by
  have inside : ∀ j ∈ openJobs s.n mask, j < s.n := fun j hj => (mem_openJobs.mp hj).1
  refine srptLoopInts_fit _ (fun j hj => jobs.early j (inside j hj))
    (fun j hj => inTime.arrival j (inside j hj)) ?_ (fun j _ => jobs.nonneg j) inTime.nonneg le_rfl
    inTime.now fun j hj => inTime.later j (inside j hj)
  rw [Finset.filter_true_of_mem fun j hj => (jobs.pos j (inside j (List.mem_toFinset.mp hj))).ne',
    List.toFinset_card_of_nodup (openJobs_nodup s.n mask)]

/-! ## `search` -/

/-- No operation that finds the candidates leaves the range. -/
theorem candidateInts_fit (jobs : Jobs s) (inTime : InTime s mask t) :
    ∀ x ∈ candidateInts s mask t, InI64 x := by
  intro x hx
  obtain ⟨j, hj, hx⟩ := List.mem_flatMap.mp hx
  obtain ⟨hj, open_⟩ := mem_openJobs.mp hj
  have start_eq : (if s.r j < t then t else s.r j) = max t (s.r j) := by
    split_ifs <;> omega
  have nonneg := inTime.nonneg
  have released := inTime.arrival j hj
  obtain ⟨fits, after⟩ := inTime.snoc jobs hj open_ (le_max_of_le_left nonneg) le_rfl
  have := after.nonneg
  have := jobs.nonneg j
  simp only [start_eq] at hx
  rcases List.mem_append.mp hx with hx | hx
  · obtain ⟨k, -, hx⟩ := List.mem_flatMap.mp hx
    split_ifs at hx with waits
    · obtain rfl := List.mem_singleton.mp hx
      unfold InI64 int64Min
      omega
    · cases hx
  · split_ifs at hx
    · cases hx
    · obtain rfl := List.mem_singleton.mp hx
      unfold InI64 int64Min
      omega

variable {c : SearchCall}

/-- A search below the call leaves the jobs that the call has placed. -/
theorem JobsStay.child {s' : Search} {j : Nat} {done : Int} (stay : JobsStay c.depth c.state s)
    (below : JobsStay (c.depth + 1) (c.child s j done).state s') : JobsStay c.depth c.state s' := by
  refine ⟨below.n_eq.trans stay.n_eq, below.r_eq.trans stay.r_eq, below.p_eq.trans stay.p_eq,
    fun i hi => ?_⟩
  rw [below.order_eq i (Nat.lt_succ_of_lt hi), ← stay.order_eq i hi]
  exact Function.update_of_ne hi.ne ..

namespace SearchCall

variable {realloc : Nat → Bool}

/-- A call that tries its candidates does so with the same jobs and the same incumbent. -/
theorem expands_same (expands : c.expands realloc = some s) : c.depth ≠ c.state.n ∧
    JobsStay c.depth c.state s ∧ s.best = c.state.best ∧ s.bestOrder = c.state.bestOrder := by
  unfold SearchCall.expands at expands
  split_ifs at expands with early
  rw [not_or] at early
  rcases dominated_cases realloc c.state c.mask c.t c.sum with ⟨eq, -⟩ | ⟨s₁, eq, records⟩
  · rw [eq] at expands
    cases expands
  · rw [eq] at expands
    obtain rfl := Option.some.inj expands
    exact ⟨early.1, ⟨records.improves.n_eq, records.improves.r_eq,
      records.improves.p_eq, fun i _ => by
      rw [records.order_eq]⟩, records.best_eq, records.bestOrder_eq⟩

/-- What a call computes fits if its bound does and the sums for its candidates do. -/
theorem ints_fit (jobs : Jobs c.state) (inTime : InTime c.state c.mask c.t)
    (sum_nonneg : 0 ≤ c.sum) :
    (∀ x ∈ c.ints realloc, InI64 x) ↔
      (c.depth ≠ c.state.n → c.sum + srptBound c.state c.mask c.t ≤ int64Max) ∧
        ∀ s, c.expands realloc = some s → ∀ x ∈ candidates s c.mask c.t,
          c.sum + x.2 ≤ int64Max := by
  obtain ⟨bound_nonneg, bound_fits⟩ := srptInts_fit jobs inTime
  rw [SearchCall.ints, List.forall_mem_append]
  refine and_congr ?_ ?_
  · split_ifs with leaf
    · simp [leaf]
    · simp only [ne_eq, leaf, not_false_eq_true, forall_const, List.forall_mem_append,
        List.forall_mem_cons, List.not_mem_nil, false_implies, and_true]
      constructor
      · exact fun fits => fits.2.2
      · intro fits
        refine ⟨bound_fits (by omega), ?_, fits⟩
        unfold int64Min
        omega
  · cases expands : c.expands realloc with
    | none => simp
    | some s =>
        obtain ⟨-, same, -, -⟩ := expands_same expands
        have jobs' : Jobs s := ⟨same.p_eq ▸ jobs.nonneg, same.p_eq ▸ same.n_eq ▸ jobs.pos,
          same.r_eq ▸ same.n_eq ▸ jobs.early⟩
        have inTime' : InTime s c.mask c.t := by
          refine ⟨inTime.nonneg, same.r_eq ▸ same.n_eq ▸ inTime.arrival, ?_, ?_⟩
          · rw [workOpen, same.n_eq, same.p_eq]
            exact inTime.now
          · rw [workOpen, same.n_eq, same.p_eq, same.r_eq]
            exact inTime.later
        simp only [List.forall_mem_append, Option.some.injEq, forall_eq']
        refine ⟨fun fits x hx => ?_, fun fits => ⟨candidateInts_fit jobs' inTime', fun y hy => ?_⟩⟩
        · exact (fits.2 (c.sum + x.2) (List.mem_flatMap.mpr ⟨x, hx, List.mem_cons_self⟩)).2
        · obtain ⟨x, hx, hy⟩ := List.mem_flatMap.mp hy
          obtain ⟨hj, open_, -, done⟩ := mem_candidates.mp hx
          have := fits x hx
          have := inTime'.arrival x.1 hj
          have := inTime'.nonneg
          have := jobs'.nonneg x.1
          simp only [List.mem_cons, List.not_mem_nil, or_false] at hy
          rcases hy with rfl | rfl <;> unfold InI64 int64Min <;> omega

/-! ## The calls of a search -/

/-- What a call relies on: the jobs are those of `s₀`, the arguments belong to the partial
schedule, and the incumbent is the total of its order. -/
structure Sound (s₀ : Search) (c : SearchCall) : Prop where
  stay : JobsStay 0 s₀ c.state
  at_ : AtNode c.state c.mask c.depth c.t c.sum
  attained : Attained c.state
  inTime : InTime c.state c.mask c.t

theorem Sound.jobs {s₀ : Search} (sound : c.Sound s₀) (jobs : Jobs s₀) : Jobs c.state :=
  ⟨sound.stay.p_eq ▸ jobs.nonneg, sound.stay.p_eq ▸ sound.stay.n_eq ▸ jobs.pos,
    sound.stay.r_eq ▸ sound.stay.n_eq ▸ jobs.early⟩

theorem run_succ (fuel : Nat) : c.run realloc (fuel + 1) =
    if c.depth = c.state.n then
      if c.sum < c.state.best then { c.state with best := c.sum, bestOrder := c.state.order }
      else c.state
    else
      match c.expands realloc with
      | none => c.state
      | some s => (candidates s c.mask c.t).foldl
          (fun s (j, done) => (c.child s j done).run realloc fuel) s := by
  rw [SearchCall.run, search, SearchCall.expands]
  by_cases leaf : c.depth = c.state.n
  · rw [if_pos leaf, if_pos leaf]
  · rw [if_neg leaf, if_neg leaf]
    by_cases bound : c.state.best ≤ c.sum + srptBound c.state c.mask c.t
    · rw [if_pos bound, if_pos (.inr bound)]
    · rw [if_neg bound, if_neg (by simp [leaf, bound])]
      rcases dominated_cases realloc c.state c.mask c.t c.sum with ⟨eq, -⟩ | ⟨s₁, eq, -⟩
      · rw [eq]
      · rw [eq]
        rfl

/-- The calls for the candidates are sound. -/
theorem Sound.child {s₀ s₁ : Search} (sound : c.Sound s₀) (jobs : Jobs s₀)
    (room : c.depth ≠ c.state.n)
    (stay : JobsStay c.depth c.state s) (attained : Attained s)
      (stay₁ : JobsStay c.depth c.state s₁)
    {x : Nat × Int} (mem : x ∈ candidates s₁ c.mask c.t) : (c.child s x.1 x.2).Sound s₀ := by
  obtain ⟨hj, open_, -, done⟩ := mem_candidates.mp mem
  rw [stay₁.n_eq] at hj
  rw [stay₁.r_eq, stay₁.p_eq, ← stay.r_eq, ← stay.p_eq] at done
  have nonneg := sound.inTime.nonneg
  have after := (sound.inTime.snoc (sound.jobs jobs) hj open_ (le_max_of_le_left nonneg) le_rfl).2
  have at' := (sound.at_.congr stay).snoc
    (by rw [stay.n_eq]; exact lt_of_le_of_ne sound.at_.placed.depth_le room)
    (by rwa [stay.n_eq]) open_
  rw [← done] at at'
  refine ⟨⟨stay.n_eq.trans sound.stay.n_eq, stay.r_eq.trans sound.stay.r_eq,
    stay.p_eq.trans sound.stay.p_eq,
    by simp⟩, at', attained, ?_⟩
  rw [← stay.r_eq, ← stay.p_eq, ← done] at after
  refine ⟨after.nonneg, ?_, ?_, ?_⟩
  · simp only [SearchCall.child, stay.r_eq, stay.n_eq]
    exact after.arrival
  · simpa only [SearchCall.child, workOpen, stay.p_eq, stay.n_eq] using after.now
  · simpa only [SearchCall.child, workOpen, stay.p_eq, stay.n_eq, stay.r_eq] using after.later

theorem Sound.expanded {s₀ : Search} (sound : c.Sound s₀) (expands : c.expands realloc = some s) :
    JobsStay c.depth c.state s ∧ Attained s := by
  obtain ⟨-, stay, best_eq, bestOrder_eq⟩ := expands_same expands
  refine ⟨stay, ?_⟩
  rw [Attained, best_eq, stay.r_eq, stay.p_eq, stay.n_eq, bestOrder_eq]
  exact sound.attained

/-- The search of a node leaves the jobs placed before it, and an incumbent with its
total. -/
theorem Sound.run {s₀ : Search} (sound : c.Sound s₀) (jobs : Jobs s₀) (fuel : Nat) :
    JobsStay c.depth c.state (c.run realloc fuel) ∧ Attained (c.run realloc fuel) := by
  induction fuel generalizing c with
  | zero => exact ⟨⟨rfl, rfl, rfl, fun _ _ => rfl⟩, sound.attained⟩
  | succ fuel ih =>
      rw [run_succ]
      split_ifs with leaf better
      · refine ⟨⟨rfl, rfl, rfl, fun _ _ => rfl⟩, ?_⟩
        have spent := sound.at_.spent
        rw [leaf] at spent
        exact spent
      · exact ⟨⟨rfl, rfl, rfl, fun _ _ => rfl⟩, sound.attained⟩
      · cases expands : c.expands realloc with
        | none => exact ⟨⟨rfl, rfl, rfl, fun _ _ => rfl⟩, sound.attained⟩
        | some s₁ =>
            have start := sound.expanded expands
            refine List.foldlRecOn
              (motive := fun s => JobsStay c.depth c.state s ∧ Attained s) _ _ start
              fun s ⟨stay, attained⟩ x mem => ?_
            obtain ⟨stay', attained'⟩ := ih (sound.child jobs leaf stay attained start.1 mem)
            exact ⟨stay.child stay', attained'⟩

section Along

variable {X : Type} {f : Search → X → Search} {g : Search → X → List SearchCall} {I : Search → Prop}
  {P Q : SearchCall → Prop} {l : List X}

theorem forall_along (step : ∀ s, I s → ∀ x ∈ l, I (f s x) ∧ ∀ c ∈ g s x, P c) (start : I s) :
    ∀ c ∈ along f g s l, P c := by
  induction l generalizing s with
  | nil => simp [along]
  | cons x rest ih =>
      obtain ⟨goesOn, here⟩ := step s start x List.mem_cons_self
      rw [along, List.forall_mem_append]
      exact ⟨here, ih (fun s hs y hy => step s hs y (List.mem_cons_of_mem x hy)) goesOn⟩

/-- What is equivalent for the calls of each candidate is so for all of them. -/
theorem forall_along_iff {B : X → Prop}
    (step : ∀ s, I s → ∀ x ∈ l, I (f s x) ∧
      (((∀ c ∈ g s x, P c) ∧ B x) ↔ ∀ c ∈ g s x, Q c)) (start : I s) :
    ((∀ c ∈ along f g s l, P c) ∧ ∀ x ∈ l, B x) ↔ ∀ c ∈ along f g s l, Q c := by
  induction l generalizing s with
  | nil => simp [along]
  | cons x rest ih =>
      obtain ⟨goesOn, here⟩ := step s start x List.mem_cons_self
      have others := ih (fun s hs y hy => step s hs y (List.mem_cons_of_mem x hy)) goesOn
      rw [along, List.forall_mem_append, List.forall_mem_append, List.forall_mem_cons,
        ← here, ← others]
      exact and_and_and_comm

end Along

/-- All calls of a search are sound. -/
theorem Sound.all {s₀ : Search} (sound : c.Sound s₀) (jobs : Jobs s₀) (fuel : Nat) :
    ∀ d ∈ all realloc fuel c, d.Sound s₀ := by
  induction fuel generalizing c with
  | zero => simp [SearchCall.all]
  | succ fuel ih =>
      rw [SearchCall.all, List.forall_mem_cons]
      refine ⟨sound, ?_⟩
      cases expands : c.expands realloc with
      | none => simp
      | some s₁ =>
          have start := sound.expanded expands
          refine forall_along (I := fun s => JobsStay c.depth c.state s ∧ Attained s) ?_ start
          rintro s ⟨stay, attained⟩ x mem
          have child := sound.child jobs (expands_same expands).1 stay attained start.1 mem
          obtain ⟨stay', attained'⟩ := child.run jobs fuel
          exact ⟨⟨stay.child stay', attained'⟩, ih child⟩

end SearchCall

/-! ## The totals -/

/-- A partial schedule whose totals fit: that of its turnaround times with the arrival of
its last job, and with what the other jobs cost in some schedule that goes on from it,
with preemption allowed. -/
structure PartialFits (r p : Nat → Int) (n : Nat) (js : List Nat) : Prop where
  last : ∀ j, js.getLast? = some j → orderCost r p 0 js + r j ≤ int64Max
  rest : js.length < n → ∃ σ C, Serves r p (Finset.range n \ js.toFinset) (orderEnd r p 0 js) σ C ∧
    orderCost r p 0 js + ∑ j ∈ Finset.range n \ js.toFinset, (C j - r j) ≤ int64Max

namespace SearchCall

variable {realloc : Nat → Bool} {s₀ : Search}

theorem Sound.sum_eq (sound : c.Sound s₀) : c.sum = orderCost s₀.r s₀.p 0 c.placed := by
  rw [← sound.stay.r_eq, ← sound.stay.p_eq]
  exact sound.at_.spent

theorem Sound.openJobs_eq (sound : c.Sound s₀) :
    (openJobs c.state.n c.mask).toFinset = Finset.range s₀.n \ c.placed.toFinset := by
  ext j
  rw [List.mem_toFinset, mem_openJobs, Finset.mem_sdiff, Finset.mem_range, ← sound.stay.n_eq]
  refine and_congr_right fun hj => ?_
  rw [← Bool.not_eq_true, sound.at_.placed.mask_iff j hj]
  simp [placed]

/-- The bound of a call fits if some schedule of the open jobs does. -/
theorem Sound.rest_iff (sound : c.Sound s₀) (jobs : Jobs s₀) :
    (c.depth ≠ c.state.n → c.sum + srptBound c.state c.mask c.t ≤ int64Max) ↔
      (c.placed.length < s₀.n → ∃ σ C,
        Serves s₀.r s₀.p (Finset.range s₀.n \ c.placed.toFinset)
          (orderEnd s₀.r s₀.p 0 c.placed) σ C ∧
        orderCost s₀.r s₀.p 0 c.placed + ∑ j ∈ Finset.range s₀.n \ c.placed.toFinset,
          (C j - s₀.r j) ≤
          int64Max) := by
  obtain ⟨-, pos, early⟩ := sound.jobs jobs
  have length : c.placed.length = c.depth := by simp [placed]
  have depth_le := sound.at_.placed.depth_le
  have reach : c.t = orderEnd s₀.r s₀.p 0 c.placed := by
    rw [← sound.stay.r_eq, ← sound.stay.p_eq]
    exact sound.at_.reach
  rw [length, ← sound.openJobs_eq, ← reach, ← sound.sum_eq, ← sound.stay.n_eq, ← sound.stay.r_eq,
    ← sound.stay.p_eq]
  refine imp_congr ⟨lt_of_le_of_ne depth_le, Nat.ne_of_lt⟩ ⟨fun fits => ?_, ?_⟩
  · obtain ⟨σ, C, serves, total⟩ := srptBound_serves pos early c.mask c.t
    exact ⟨σ, C, serves, total ▸ fits⟩
  · rintro ⟨σ, C, serves, fits⟩
    have := srptBound_le_serves pos early serves
    omega

/-- The sum for a candidate is what the last job of its partial schedule adds. -/
theorem Sound.last_iff {j : Nat} {done : Int} (child : (c.child s j done).Sound s₀)
    (r_eq : s.r = s₀.r) :
    c.sum + done ≤ int64Max ↔ ∀ i, (c.child s j done).placed.getLast? = some i →
      orderCost s₀.r s₀.p 0 (c.child s j done).placed + s₀.r i ≤ int64Max := by
  have last : (c.child s j done).placed.getLast? = some j := by
    simp [placed, SearchCall.child, List.range_succ]
  have sum_eq : (c.child s j done).sum = c.sum + done - s₀.r j := by
    rw [SearchCall.child, r_eq]
  simp only [last, ← child.sum_eq, sum_eq, Option.some.injEq, forall_eq', sub_add_cancel]

/-- What a search computes fits if the partial schedules that it visits do. -/
theorem Sound.fits_iff (sound : c.Sound s₀) (jobs : Jobs s₀) (realloc : Nat → Bool) (fuel : Nat)
    (enough : s₀.n < fuel + c.depth) :
    ((∀ d ∈ SearchCall.all realloc fuel c, ∀ x ∈ d.ints realloc, InI64 x) ∧
        ∀ i, c.placed.getLast? = some i → orderCost s₀.r s₀.p 0 c.placed + s₀.r i ≤ int64Max) ↔
      ∀ d ∈ SearchCall.all realloc fuel c, PartialFits s₀.r s₀.p s₀.n d.placed := by
  induction fuel generalizing c with
  | zero =>
      have := sound.at_.placed.depth_le
      have := sound.stay.n_eq
      omega
  | succ fuel ih =>
      have sum_nonneg : 0 ≤ c.sum := by
        rw [sound.sum_eq]
        exact orderCost_nonneg jobs.nonneg _ _
      have own : PartialFits s₀.r s₀.p s₀.n c.placed ↔ _ ∧ _ :=
        ⟨fun h => ⟨h.last, h.rest⟩, fun h => ⟨h.1, h.2⟩⟩
      rw [SearchCall.all, List.forall_mem_cons, List.forall_mem_cons, own,
        ints_fit (sound.jobs jobs)
        sound.inTime sum_nonneg, sound.rest_iff jobs]
      cases expands : c.expands realloc with
      | none => simp [and_comm]
      | some s₁ =>
          have start := sound.expanded expands
          have below := forall_along_iff
            (f := fun s (j, done) => (c.child s j done).run realloc fuel)
            (g := fun s (j, done) => SearchCall.all realloc fuel (c.child s j done))
            (I := fun s => JobsStay c.depth c.state s ∧ Attained s)
              (P := fun d => ∀ x ∈ d.ints realloc, InI64 x)
            (Q := fun d => PartialFits s₀.r s₀.p s₀.n d.placed)
              (B := fun x => c.sum + x.2 ≤ int64Max)
            (l := candidates s₁ c.mask c.t) ?_ start
          · simp only [Option.some.injEq, forall_eq', ← below]
            tauto
          · rintro s ⟨stay, attained⟩ x mem
            have child := sound.child jobs (expands_same expands).1 stay attained start.1 mem
            obtain ⟨stay', attained'⟩ := child.run jobs fuel
            refine ⟨⟨stay.child stay', attained'⟩, ?_⟩
            rw [child.last_iff (stay.r_eq.trans sound.stay.r_eq)]
            exact ih child (by simp only [SearchCall.child]; omega)

end SearchCall

/-! ## Every order -/

/-- Whatever jobs run first, in whatever order and each as early as possible, the sum of
their turnaround times and the arrival of the last one of them is in the range. -/
def OrdersFit (r p : Nat → Int) (n : Nat) : Prop :=
  ∀ js : List Nat, js.Nodup → (∀ j ∈ js, j < n) → ∀ j, js.getLast? = some j →
    orderCost r p 0 js + r j ≤ int64Max

theorem OrdersFit.total {r p : Nat → Int} {n : Nat} (fits : OrdersFit r p n)
    (arrival : ∀ j < n, 0 ≤ r j) {js : List Nat} (nodup : js.Nodup) (inside : ∀ j ∈ js, j < n) :
    orderCost r p 0 js ≤ int64Max := by
  rcases js.eq_nil_or_concat' with rfl | ⟨ks, j, rfl⟩
  · rw [orderCost_nil]
    decide
  · have last := fits _ nodup inside j List.getLast?_concat
    have := arrival j (inside j (by simp))
    omega

/-- A call of the search places different jobs. -/
theorem SearchCall.Sound.placed_nodup {s₀ : Search} (sound : c.Sound s₀) :
    c.placed.Nodup ∧ ∀ j ∈ c.placed, j < s₀.n := by
  have placed := sound.at_.placed
  constructor
  · refine List.nodup_range.map_on fun i hi k hk same => ?_
    exact placed.inj i (List.mem_range.mp hi) k (List.mem_range.mp hk) same
  · intro j hj
    obtain ⟨i, hi, rfl⟩ := List.mem_map.mp hj
    rw [← sound.stay.n_eq]
    exact placed.lt i (List.mem_range.mp hi)

/-- If all orders fit, the partial schedule of a call does: the other jobs can follow it one
after the other. -/
theorem SearchCall.Sound.partialFits {s₀ : Search} (sound : c.Sound s₀) (jobs : Jobs s₀)
    (arrival : ∀ j < s₀.n, 0 ≤ s₀.r j) (fits : OrdersFit s₀.r s₀.p s₀.n) :
    PartialFits s₀.r s₀.p s₀.n c.placed := by
  obtain ⟨nodup, inside⟩ := sound.placed_nodup
  refine ⟨fits c.placed nodup inside, (sound.rest_iff jobs).mp fun _ => ?_⟩
  obtain ⟨nonneg, pos, early⟩ := sound.jobs jobs
  have bound := srptBound_le (t := c.t) nonneg pos early
    (List.Perm.refl (openJobs c.state.n c.mask))
  have mem : ∀ j, j ∈ openJobs c.state.n c.mask ↔ j ∈ Finset.range s₀.n \ c.placed.toFinset :=
    fun j => by rw [← sound.openJobs_eq, List.mem_toFinset]
  have whole : orderCost s₀.r s₀.p 0 (c.placed ++ openJobs c.state.n c.mask) ≤ int64Max := by
    refine fits.total arrival ?_ fun j hj => ?_
    · refine nodup.append (openJobs_nodup _ _) fun j placed rest => ?_
      rw [mem, Finset.mem_sdiff, List.mem_toFinset] at rest
      exact rest.2 placed
    · rcases List.mem_append.mp hj with placed | rest
      · exact inside j placed
      · rw [mem, Finset.mem_sdiff, Finset.mem_range] at rest
        exact rest.1
  have reach : c.t = orderEnd s₀.r s₀.p 0 c.placed := by
    rw [← sound.stay.r_eq, ← sound.stay.p_eq]
    exact sound.at_.reach
  rw [orderCost_append, ← reach, ← sound.sum_eq] at whole
  rw [sound.stay.r_eq, sound.stay.p_eq] at bound
  omega

/-! ## The workloads -/

section Workloads

variable {w : Workload} {v : SchedView D} (valid : w.Valid) (procs_eq : v.procs = w.proc)
    (n_eq : v.n = w.len)
include valid procs_eq n_eq

theorem initSearch_jobs : Jobs (initSearch v) := by
  obtain ⟨start_n, start_r, start_p, -, -⟩ := startSearch_fields (initSearch v)
  obtain ⟨nonneg, pos, early⟩ := startSearch_jobs valid procs_eq n_eq
  rw [start_n, start_p] at pos
  rw [start_n, start_r] at early
  rw [start_p] at nonneg
  exact ⟨nonneg, pos, early⟩

/-- Validation bounds the latest arrival with all bursts after it. -/
theorem initSearch_inTime : InTime (initSearch v) 0 0 := by
  obtain ⟨r_eq, p_eq⟩ := initSearch_fields procs_eq
  have inside : ∀ {j}, j < (initSearch v).n → j < w.len := fun hj => n_eq ▸ hj
  have work : workOpen (initSearch v) 0 ≤ w.totalWork := by
    have jobs : (openJobs (initSearch v).n 0).toFinset = Finset.range w.len := by
      ext j
      rw [List.mem_toFinset, mem_openJobs, Finset.mem_range, initSearch, n_eq]
      simp
    rw [workOpen, jobs, p_eq, Workload.totalWork, ← Workload.sum_range]
    refine Finset.sum_le_sum fun j hj => ?_
    have proc := valid.proc (Finset.mem_range.mp hj)
    have := oddSum_nonneg proc.phases_pos
    rw [← proc.io_eq] at this
    omega
  have horizon := valid.horizon_le
  rw [workloadHorizon_eq] at horizon
  have := w.maxArrival_nonneg
  refine ⟨le_rfl, fun j hj => ?_, by omega, fun j hj => ?_⟩
  · rw [r_eq]
    exact (valid.proc (inside hj)).arrival_nonneg
  · have latest := Workload.arrival_le_maxArrival (Workload.proc_mem (inside hj))
    rw [r_eq]
    dsimp only
    omega

/-- `order_total` of a greedy order fits if its total does. -/
theorem orderTotalInts_fit (byBurst : Bool) :
    (∀ x ∈ orderTotalLoopInts (initSearch v) (greedy (initSearch v) byBurst) (List.range v.n) 0 0,
      InI64 x) ↔
      orderCost (initSearch v).r (initSearch v).p 0
        ((List.range v.n).map (greedy (initSearch v) byBurst)) ≤ int64Max := by
  have jobs := initSearch_jobs valid procs_eq n_eq
  have inTime := initSearch_inTime valid procs_eq n_eq
  have isOrder := greedy_isOrder (fun j hj => (jobs.early j hj).le) byBurst
  have work : (((List.range v.n).map (greedy (initSearch v) byBurst)).map (initSearch v).p).sum =
      workOpen (initSearch v) 0 := by
    have all : openJobs (initSearch v).n 0 = List.range v.n := by simp [openJobs, initSearch]
    rw [workOpen, all, List.sum_toFinset _ List.nodup_range]
    exact (isOrder.perm.map _).sum_eq
  have inside : ∀ i ∈ List.range v.n, greedy (initSearch v) byBurst i <
    (initSearch v).n := fun i hi =>
    isOrder.lt i (List.mem_range.mp hi)
  have fit := orderTotalLoopInts_fit jobs le_rfl le_rfl (by decide : (0 : Int) ≤ int64Max)
    (fun i hi => inTime.arrival _ (inside i hi)) (by rw [work]; exact inTime.now) fun i hi => by
      rw [work]
      exact inTime.later _ (inside i hi)
  rwa [zero_add] at fit

/-- The first call of the search. -/
theorem startSearch_sound :
    SearchCall.Sound (initSearch v) ⟨startSearch (initSearch v), 0, 0, 0, 0⟩ := by
  have inTime := initSearch_inTime valid procs_eq n_eq
  obtain ⟨start_n, start_r, start_p, -, -⟩ := startSearch_fields (initSearch v)
  refine ⟨⟨start_n, start_r, start_p, by simp⟩, ⟨Placed.empty _ _, rfl, rfl⟩,
    startSearch_attained _, ⟨le_rfl, ?_, ?_, ?_⟩⟩
  · simp only [start_n, start_r]
    exact inTime.arrival
  · simpa only [workOpen, start_n, start_p] using inTime.now
  · simpa only [workOpen, start_n, start_r, start_p] using inTime.later

/-- No signed addition or subtraction of `optnp_create` leaves the 64-bit range if and only
if the totals of the two greedy orders fit, and those of every partial schedule that the
search visits. -/
theorem optNpInts_fit_iff (realloc : Nat → Bool) : (∀ x ∈ optNpInts realloc v, InI64 x) ↔
    (∀ byBurst, orderCost (initSearch v).r (initSearch v).p 0
      ((List.range v.n).map (greedy (initSearch v) byBurst)) ≤ int64Max) ∧
    ∀ c ∈ optNpCalls realloc v,
      PartialFits (initSearch v).r (initSearch v).p v.n c.placed := by
  have jobs := initSearch_jobs valid procs_eq n_eq
  have root := startSearch_sound valid procs_eq n_eq
  have visited := root.fits_iff jobs realloc (v.n + 1) (Nat.lt_succ_self v.n)
  have greedyFits := fun byBurst => greedyLoopInts_fit jobs byBurst (List.range v.n)
    (initSearch_inTime valid procs_eq n_eq)
  have totals := orderTotalInts_fit valid procs_eq n_eq
  have calls : (∀ x ∈ (optNpCalls realloc v).flatMap (SearchCall.ints realloc), InI64 x) ↔
      ∀ c ∈ optNpCalls realloc v, PartialFits (initSearch v).r (initSearch v).p v.n c.placed := by
    refine Iff.trans ⟨fun fits c hc x hx => fits x (List.mem_flatMap.mpr ⟨c, hc, hx⟩),
      fun fits x hx => ?_⟩
      ((and_iff_left (by simp [SearchCall.placed])).symm.trans visited)
    obtain ⟨c, hc, hx⟩ := List.mem_flatMap.mp hx
    exact fits c hc x hx
  rw [← calls, Bool.forall_bool, ← totals, ← totals]
  simp only [optNpInts, List.forall_mem_append]
  constructor
  · rintro ⟨⟨⟨-, fcfs⟩, sjf⟩, fits⟩
    exact ⟨⟨fcfs, sjf⟩, fits⟩
  · rintro ⟨⟨fcfs, sjf⟩, fits⟩
    exact ⟨⟨⟨⟨greedyFits false, greedyFits true⟩, fcfs⟩, sjf⟩, fits⟩

end Workloads

/-- A short job arrives just after a long one. -/
def longThenShort : Workload := ⟨[processMake 1 0 5, processMake 2 1 1]⟩

/-- The view of `optnp_create`. -/
def longThenShortView : SchedView Float where
  procs := longThenShort.proc
  n := 2
  cores := 1
  csCost := 0
  now := 0
  remaining := fun _ => 0
  burstLen := fun _ => 0
  predicted := none

theorem longThenShort_valid : longThenShort.Valid where
  nonempty := by decide
  procs p mem := by
    simp only [longThenShort, List.mem_cons, List.not_mem_nil, or_false] at mem
    rcases mem with rfl | rfl
    · constructor <;> decide
    · constructor <;> decide
  pids_nodup := by decide
  horizon_le := by decide

theorem longThenShort_ordersFit : OrdersFit (fun j => (longThenShort.proc j).arrival)
    (fun j => (longThenShort.proc j).burst) 2 := by
  intro js nodup inside j last
  rcases js with _ | ⟨a, _ | ⟨b, _ | ⟨c, rest⟩⟩⟩
  · cases last
  · have small := inside a (by simp)
    obtain rfl : a = j := Option.some.inj last
    have cases : a = 0 ∨ a = 1 := by omega
    rcases cases with rfl | rfl <;> decide
  · have small := inside a (by simp)
    have small' := inside b (by simp)
    have ne : a ≠ b := fun eq => (List.nodup_cons.mp nodup).1 (by simp [eq])
    obtain rfl : b = j := Option.some.inj last
    have cases : a = 0 ∧ b = 1 ∨ a = 1 ∧ b = 0 := by omega
    rcases cases with ⟨rfl, rfl⟩ | ⟨rfl, rfl⟩ <;> decide
  · -- there are only two jobs
    have sub : List.Subperm _ (List.range 2) :=
      nodup.subperm fun i hi => List.mem_range.mpr (inside i hi)
    have := sub.length_le
    simp at this

/-- The search comes to the short job first. -/
theorem longThenShort_visits : ((optNpCalls (fun _ => true) longThenShortView).any fun c =>
    c.placed == [1, 0] && c.sum == 8) = true := by
  decide +kernel

/-- Two processes at once that together take almost all of the range. -/
def hugePair : Workload := ⟨[processMake 1 0 (2 ^ 62 - 1), processMake 2 0 (2 ^ 62 - 1)]⟩

/-- The view of `optnp_create`. -/
def hugePairView : SchedView Float := { longThenShortView with procs := hugePair.proc }

end CpuSched
