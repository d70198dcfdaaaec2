import CpuSched.Policies.OptNp
import CpuSched.Policy.ReadySet

/-!
# The offline optimum keeps the contract

The order that the search leaves behind lists every process once, whatever the
memo pool manages to hold.  The hooks walk along it: the processes before the
position have been dispatched, those from it on are still to come.
-/

namespace CpuSched

variable {D : Type} {w : Workload}

/-! ## Orders -/

/-- The first `depth` entries are different jobs, those in `mask`. -/
structure Placed (n : Nat) (order : Nat → Nat) (depth mask : Nat) : Prop where
  depth_le : depth ≤ n
  lt : ∀ i < depth, order i < n
  inj : ∀ i < depth, ∀ k < depth, order i = order k → i = k
  mask_iff : ∀ j < n, mask.testBit j = true ↔ ∃ i < depth, order i = j

namespace Placed

variable {n : Nat} {order order' : Nat → Nat} {depth mask : Nat}

theorem empty (n : Nat) (order : Nat → Nat) : Placed n order 0 0 :=
  ⟨by omega, by simp, by simp, by simp⟩

theorem congr (placed : Placed n order depth mask) (same : ∀ i < depth, order' i = order i) :
    Placed n order' depth mask := by
  refine ⟨placed.depth_le, fun i hi => ?_, fun i hi k hk h => ?_, fun j hj => ?_⟩
  · rw [same i hi]
    exact placed.lt i hi
  · rw [same i hi, same k hk] at h
    exact placed.inj i hi k hk h
  · rw [placed.mask_iff j hj]
    exact exists_congr fun i => and_congr_right fun hi => by rw [same i hi]

/-- One more job is placed. -/
theorem snoc (placed : Placed n order depth mask) (room : depth < n) {j : Nat} (hj : j < n)
    (open_ : mask.testBit j = false) :
    Placed n (Function.update order depth j) (depth + 1) (mask ||| 1 <<< j) := by
  have fresh : ∀ i < depth, order i ≠ j := by
    intro i hi same
    have := (placed.mask_iff j hj).mpr ⟨i, hi, same⟩
    rw [open_] at this
    cases this
  have old : ∀ i < depth, Function.update order depth j i = order i := fun i hi =>
    Function.update_of_ne hi.ne ..
  refine ⟨room, fun i hi => ?_, fun i hi k hk h => ?_, fun l hl => ?_⟩
  · rcases Nat.lt_succ_iff_lt_or_eq.mp hi with hi | rfl
    · rw [old i hi]
      exact placed.lt i hi
    · rwa [Function.update_self]
  · rcases Nat.lt_succ_iff_lt_or_eq.mp hi with hi | rfl <;>
      rcases Nat.lt_succ_iff_lt_or_eq.mp hk with hk | rfl
    · rw [old i hi, old k hk] at h
      exact placed.inj i hi k hk h
    · rw [old i hi, Function.update_self] at h
      exact absurd h (fresh i hi)
    · rw [old k hk, Function.update_self] at h
      exact absurd h.symm (fresh k hk)
    · rfl
  · rw [Nat.testBit_or, Nat.one_shiftLeft, Nat.testBit_two_pow, Bool.or_eq_true,
      placed.mask_iff l hl, decide_eq_true_eq]
    constructor
    · rintro (⟨i, hi, same⟩ | rfl)
      · exact ⟨i, by omega, by rw [old i hi, same]⟩
      · exact ⟨depth, by omega, Function.update_self ..⟩
    · rintro ⟨i, hi, same⟩
      rcases Nat.lt_succ_iff_lt_or_eq.mp hi with hi | rfl
      · rw [old i hi] at same
        exact .inl ⟨i, hi, same⟩
      · rw [Function.update_self] at same
        exact .inr same

/-- Some job is open while the order is not complete. -/
theorem exists_open (placed : Placed n order depth mask) (room : depth < n) :
    ∃ j < n, mask.testBit j = false := by
  by_contra full
  push Not at full
  have subset : List.range n ⊆ (List.range depth).map order := by
    intro j hj
    have hj := List.mem_range.mp hj
    obtain ⟨i, hi, same⟩ := (placed.mask_iff j hj).mp (by simpa using full j hj)
    exact List.mem_map.mpr ⟨i, List.mem_range.mpr hi, same⟩
  have := (List.subperm_of_subset List.nodup_range subset).length_le
  simp only [List.length_range, List.length_map] at this
  omega

end Placed

/-- The order lists every job once. -/
structure IsOrder (n : Nat) (order : Nat → Nat) : Prop where
  lt : ∀ i < n, order i < n
  inj : ∀ i < n, ∀ k < n, order i = order k → i = k

theorem Placed.isOrder {n : Nat} {order : Nat → Nat} {mask : Nat}
    (placed : Placed n order n mask) : IsOrder n order := ⟨placed.lt, placed.inj⟩

/-- An order lists every job once. -/
theorem IsOrder.perm {n : Nat} {order : Nat → Nat} (isOrder : IsOrder n order) :
    ((List.range n).map order).Perm (List.range n) := by
  have nodup : ((List.range n).map order).Nodup :=
    List.Nodup.map_on (fun i hi k hk same => isOrder.inj i (List.mem_range.mp hi) k
      (List.mem_range.mp hk) same) List.nodup_range
  have subset : (List.range n).map order ⊆ List.range n := by
    intro j hj
    obtain ⟨i, hi, rfl⟩ := List.mem_map.mp hj
    exact List.mem_range.mpr (isOrder.lt i (List.mem_range.mp hi))
  exact (List.subperm_of_subset nodup subset).perm_of_length_le (by simp)

/-- Every job has a position. -/
theorem IsOrder.surj {n : Nat} {order : Nat → Nat} (isOrder : IsOrder n order) {j : Nat}
    (hj : j < n) : ∃ i < n, order i = j := by
  obtain ⟨i, hi, same⟩ := List.mem_map.mp (isOrder.perm.mem_iff.mpr (List.mem_range.mpr hj))
  exact ⟨i, List.mem_range.mp hi, same⟩

theorem mem_openJobs {n mask j : Nat} : j ∈ openJobs n mask ↔ j < n ∧ mask.testBit j = false := by
  simp [openJobs]

/-! ## The greedy orders -/

/-- One turn of the loop of `greedy` over the open jobs. -/
def greedyStep (s : Search) (byBurst : Bool) (t : Int) (best : Option Nat) (j : Nat) :
    Option Nat :=
  if t < s.r j then best
  else
    match best with
    | none => some j
    | some b => if greedyBetter s byBurst j b then some j else best

theorem greedyPick_spec {s : Search} {b : Bool} {mask : Nat} {t : Int}
    (released : ∃ j ∈ openJobs s.n mask, s.r j ≤ t) :
    ∃ x ∈ openJobs s.n mask, greedyPick s b mask t = some x := by
  have fold : ∀ (jobs : List Nat) (best : Option Nat), (∀ j ∈ jobs, j ∈ openJobs s.n mask) →
      (∀ x, best = some x → x ∈ openJobs s.n mask) →
      (best ≠ none ∨ ∃ j ∈ jobs, s.r j ≤ t) →
      ∃ x ∈ openJobs s.n mask, jobs.foldl (greedyStep s b t) best = some x := by
    intro jobs
    induction jobs with
    | nil =>
        intro best _ valid has
        obtain ⟨x, rfl⟩ := Option.ne_none_iff_exists'.mp (has.resolve_right (by simp))
        exact ⟨x, valid x rfl, rfl⟩
    | cons j rest ih =>
        intro best sub valid has
        have hj := sub j List.mem_cons_self
        have sub' := fun k hk => sub k (List.mem_cons_of_mem j hk)
        rw [List.foldl_cons]
        by_cases late : t < s.r j
        · rw [show greedyStep s b t best j = best from if_pos late]
          refine ih best sub' valid (has.imp_right ?_)
          rintro ⟨k, hk, hle⟩
          rcases List.mem_cons.mp hk with rfl | hk
          · omega
          · exact ⟨k, hk, hle⟩
        · cases best with
          | none =>
              rw [show greedyStep s b t none j = some j from if_neg late]
              exact ih (some j) sub' (by simpa using hj) (.inl (by simp))
          | some x =>
              rw [show greedyStep s b t (some x) j =
                if greedyBetter s b j x then some j else some x from if_neg late]
              by_cases better : greedyBetter s b j x = true
              · simp only [better, if_true]
                exact ih (some j) sub' (by simpa using hj) (.inl (by simp))
              · simp only [better]
                exact ih (some x) sub' valid (.inl (by simp))
  exact fold _ none (fun _ h => h) (by simp) (.inr released)

/-- Some open job is released by the time `greedy` waits for. -/
theorem greedyEarliest_spec {s : Search} {mask : Nat} (fits : ∀ j < s.n, s.r j ≤ int64Max)
    (open_ : ∃ j, j ∈ openJobs s.n mask) :
    ∃ j ∈ openJobs s.n mask, s.r j ≤ greedyEarliest s mask := by
  have fold : ∀ (jobs : List Nat) (e : Int), (∀ j ∈ jobs, j ∈ openJobs s.n mask) →
      (∃ j ∈ openJobs s.n mask, s.r j ≤ e) →
      ∃ j ∈ openJobs s.n mask, s.r j ≤
        jobs.foldl (fun earliest j => if s.r j < earliest then s.r j else earliest) e := by
    intro jobs
    induction jobs with
    | nil => exact fun _ _ h => h
    | cons j rest ih =>
        intro e sub h
        rw [List.foldl_cons]
        refine ih _ (fun k hk => sub k (List.mem_cons_of_mem j hk)) ?_
        split_ifs
        · exact ⟨j, sub j List.mem_cons_self, le_rfl⟩
        · exact h
  obtain ⟨j, hj⟩ := open_
  exact fold _ _ (fun _ h => h) ⟨j, hj, fits j (mem_openJobs.mp hj).1⟩

theorem greedyLoop_spec {s : Search} {byBurst : Bool} (fits : ∀ j < s.n, s.r j ≤ int64Max)
    (k i : Nat) {mask : Nat} {t : Int} {order : Nat → Nat} (length : i + k = s.n)
    (placed : Placed s.n order i mask) :
    IsOrder s.n (greedyLoop s byBurst (List.range' i k) mask t order) := by
  induction k generalizing i mask t order with
  | zero =>
      obtain rfl : i = s.n := by omega
      exact placed.isOrder
  | succ k ih =>
      have room : i < s.n := by omega
      obtain ⟨j, hj, open_⟩ := placed.exists_open room
      obtain ⟨j, hj, early⟩ := greedyEarliest_spec fits ⟨j, mem_openJobs.mpr ⟨hj, open_⟩⟩
      obtain ⟨b, hb, pick⟩ := greedyPick_spec (b := byBurst)
        (t := if t < greedyEarliest s mask then greedyEarliest s mask else t)
        ⟨j, hj, by split_ifs <;> omega⟩
      obtain ⟨hb, open_b⟩ := mem_openJobs.mp hb
      rw [List.range'_succ]
      simp only [greedyLoop, pick]
      exact ih (i + 1) (by omega) (placed.snoc room hb open_b)

theorem greedy_isOrder {s : Search} (fits : ∀ j < s.n, s.r j ≤ int64Max) (byBurst : Bool) :
    IsOrder s.n (greedy s byBurst) := by
  rw [greedy, List.range_eq_range']
  exact greedyLoop_spec fits s.n 0 (by omega) (Placed.empty _ _)

/-! ## The search -/

theorem mem_insertCand {s : Search} {j : Nat} {c : Int} {cand : List (Nat × Int)} {x : Nat × Int} :
    x ∈ insertCand s j c cand ↔ x = (j, c) ∨ x ∈ cand := by
  induction cand with
  | nil => simp [insertCand]
  | cons head rest ih =>
      obtain ⟨prev, done⟩ := head
      rw [insertCand]
      split_ifs
      · exact List.mem_cons
      · rw [List.mem_cons, ih, List.mem_cons]
        exact or_left_comm

/-- The candidates are the open jobs before which no other one fits; they start as early
as possible. -/
theorem mem_candidates {s : Search} {mask : Nat} {t : Int} {x : Nat × Int} :
    x ∈ candidates s mask t ↔ x.1 < s.n ∧ mask.testBit x.1 = false ∧
      gapFillable s mask x.1 t (max t (s.r x.1)) = false ∧ x.2 = max t (s.r x.1) + s.p x.1 := by
  have start_eq : ∀ j, (if s.r j < t then t else s.r j) = max t (s.r j) := by
    intro j
    split_ifs <;> omega
  have fold : ∀ (jobs : List Nat) (cand : List (Nat × Int)),
      x ∈ jobs.foldl (fun cand j =>
        if mask.testBit j then cand
        else
          let start := if s.r j < t then t else s.r j
          if gapFillable s mask j t start then cand
          else insertCand s j (start + s.p j) cand) cand ↔
        x ∈ cand ∨ (x.1 ∈ jobs ∧ mask.testBit x.1 = false ∧
          gapFillable s mask x.1 t (max t (s.r x.1)) = false ∧
          x.2 = max t (s.r x.1) + s.p x.1) := by
    intro jobs
    induction jobs with
    | nil => simp
    | cons j rest ih =>
        intro cand
        rw [List.foldl_cons, ih]
        simp only [start_eq, List.mem_cons]
        by_cases closed : mask.testBit j = true
        · rw [if_pos closed]
          refine or_congr_right ⟨fun h => ⟨.inr h.1, h.2⟩, fun h => ⟨h.1.resolve_left ?_, h.2⟩⟩
          rintro same
          rw [← same, h.2.1] at closed
          cases closed
        · rw [if_neg closed]
          by_cases fills : gapFillable s mask j t (max t (s.r j)) = true
          · rw [if_pos fills]
            refine or_congr_right ⟨fun h => ⟨.inr h.1, h.2⟩, fun h => ⟨h.1.resolve_left ?_, h.2⟩⟩
            rintro same
            rw [← same, h.2.2.1] at fills
            cases fills
          · rw [if_neg fills, mem_insertCand]
            constructor
            · rintro ((rfl | mem) | h)
              · exact .inr ⟨.inl rfl, by simpa using closed, by simpa using fills, rfl⟩
              · exact .inl mem
              · exact .inr ⟨.inr h.1, h.2⟩
            · rintro (mem | ⟨same | mem, h⟩)
              · exact .inl (.inr mem)
              · refine .inl (.inl (Prod.ext same ?_))
                rw [h.2.2, same]
              · exact .inr ⟨mem, h⟩
  rw [candidates, List.mem_reverse, fold]
  simp

/-- Recording a node only touches the memo. -/
theorem dominated_same (realloc : Nat → Bool) (s : Search) (mask : Nat) (t sum : Int) :
    (dominated realloc s mask t sum).1.n = s.n ∧
      (dominated realloc s mask t sum).1.order = s.order ∧
      (dominated realloc s mask t sum).1.bestOrder = s.bestOrder := by
  unfold dominated
  dsimp only
  split_ifs <;> simp [memoRecord]

/-- One turn of the loop of `search`: the job `x.1` is placed next, done at `x.2`. -/
def tryCandidate (realloc : Nat → Bool) (fuel mask depth : Nat) (sum : Int) (s : Search)
    (x : Nat × Int) : Search :=
  search realloc fuel { s with order := Function.update s.order depth x.1 }
    (mask ||| 1 <<< x.1) (depth + 1) x.2 (sum + x.2 - s.r x.1)

/-- The search keeps an incumbent that lists every job. -/
theorem search_spec (realloc : Nat → Bool) (fuel : Nat) {s : Search} {mask depth : Nat}
    {t sum : Int} (placed : Placed s.n s.order depth mask) (best : IsOrder s.n s.bestOrder) :
    (search realloc fuel s mask depth t sum).n = s.n ∧
      IsOrder s.n (search realloc fuel s mask depth t sum).bestOrder ∧
      ∀ i < depth, (search realloc fuel s mask depth t sum).order i = s.order i := by
  induction fuel generalizing s mask depth t sum with
  | zero => exact ⟨rfl, best, fun _ _ => rfl⟩
  | succ fuel ih =>
      rw [search]
      split_ifs with leaf better bound
      · subst leaf
        exact ⟨rfl, placed.isOrder, fun _ _ => rfl⟩
      · exact ⟨rfl, best, fun _ _ => rfl⟩
      · exact ⟨rfl, best, fun _ _ => rfl⟩
      · obtain ⟨⟨s₁, dom⟩, hdom⟩ : ∃ r, dominated realloc s mask t sum = r := ⟨_, rfl⟩
        obtain ⟨n_eq, order_eq, best_eq⟩ := dominated_same realloc s mask t sum
        simp only [hdom] at n_eq order_eq best_eq ⊢
        cases dom with
        | true => exact ⟨n_eq, best_eq ▸ best, fun i _ => by rw [order_eq]⟩
        | false =>
            have room : depth < s.n := lt_of_le_of_ne placed.depth_le leaf
            have fold : ∀ (cand : List (Nat × Int)) (s' : Search),
                (∀ x ∈ cand, x.1 < s.n ∧ mask.testBit x.1 = false) → s'.n = s.n →
                IsOrder s.n s'.bestOrder → (∀ i < depth, s'.order i = s.order i) →
                (cand.foldl (tryCandidate realloc fuel mask depth sum) s').n = s.n ∧
                IsOrder s.n (cand.foldl (tryCandidate realloc fuel mask depth sum) s').bestOrder ∧
                ∀ i < depth, (cand.foldl (tryCandidate realloc fuel mask depth sum) s').order i =
                  s.order i := by
              intro cand
              induction cand with
              | nil => exact fun s' _ h₁ h₂ h₃ => ⟨h₁, h₂, h₃⟩
              | cons x rest ihc =>
                  intro s' valid n_eq' best' order'
                  obtain ⟨j, done⟩ := x
                  obtain ⟨hj, open_⟩ := valid _ List.mem_cons_self
                  have placed' := (placed.congr order').snoc room hj open_
                  rw [← n_eq'] at placed' best'
                  obtain ⟨hn, hb, ho⟩ := ih (s := { s' with
                    order := Function.update s'.order depth j }) (t := done)
                    placed' best'
                  have hb := (congrArg (fun m => IsOrder m _) n_eq').mp hb
                  refine ihc _ (fun y hy => valid y (List.mem_cons_of_mem _ hy)) (hn.trans n_eq') hb
                    fun i hi => ?_
                  refine (ho i (by omega)).trans ?_
                  simp only [Function.update_of_ne (Nat.ne_of_lt hi)]
                  exact order' i hi
            refine fold _ s₁ (fun x hx => ?_) n_eq (best_eq ▸ best) fun i _ => by rw [order_eq]
            obtain ⟨lt, open_, -⟩ := mem_candidates.mp hx
            exact ⟨n_eq ▸ lt, open_⟩

theorem startSearch_spec {s : Search} (fits : ∀ j < s.n, s.r j ≤ int64Max) :
    (startSearch s).n = s.n ∧ IsOrder s.n (startSearch s).bestOrder := by
  unfold startSearch
  dsimp only
  split_ifs
  · exact ⟨rfl, greedy_isOrder fits true⟩
  · exact ⟨rfl, greedy_isOrder fits false⟩

/-! ## The contract -/

/-- The processes before the position have been dispatched, the others are still
to come. -/
structure OptNpInv (w : Workload) (_ : SchedView D) (o : OptNp) (pl : Places) : Prop where
  n_eq : o.n = w.len
  single : ∀ p < w.len, (w.proc p).phaseCount = 1
  isOrder : IsOrder w.len o.order
  pos_le : o.pos ≤ w.len
  past : ∀ i < o.pos, (∃ slice, pl (o.order i) = .out slice) ∨ pl (o.order i) = .done
  future : ∀ i, o.pos ≤ i → i < w.len → pl (o.order i) = .new ∨ pl (o.order i) = .ready
  arrived : ∀ p < w.len, o.arrived p = true ↔ pl p ≠ .new

namespace OptNpInv

variable {v : SchedView D} {o : OptNp} {pl : Places} {p : Nat}

/-- A process moves on within the past, or within the future. -/
theorem move {place : Place} (inv : OptNpInv w v o pl)
    (past : (∃ slice, pl p = .out slice) ∨ pl p = .done →
      (∃ slice, place = .out slice) ∨ place = .done)
    (future : pl p = .new ∨ pl p = .ready → place = .ready) (arrived : Nat → Bool)
    (arrived_iff : ∀ q < w.len, arrived q = true ↔ (pl.move p place) q ≠ .new) :
    OptNpInv w v { o with arrived } (pl.move p place) := by
  refine ⟨inv.n_eq, inv.single, inv.isOrder, inv.pos_le, fun i hi => ?_, fun i hi hn => ?_,
    arrived_iff⟩
  · by_cases h : o.order i = p
    · rw [h, Places.move_self]
      exact past (h ▸ inv.past i hi)
    · rw [pl.move_of_ne _ h]
      exact inv.past i hi
  · by_cases h : o.order i = p
    · rw [h, Places.move_self]
      exact .inr (future (h ▸ inv.future i hi hn))
    · rw [pl.move_of_ne _ h]
      exact inv.future i hi hn

/-- No process ever blocks. -/
theorem not_blocked (inv : OptNpInv w v o pl) (hp : p < w.len) : pl p ≠ .blocked := by
  intro blocked
  obtain ⟨i, hi, rfl⟩ := inv.isOrder.surj hp
  by_cases past : i < o.pos
  · rcases inv.past i past with ⟨slice, h⟩ | h <;> simp [blocked] at h
  · rcases inv.future i (by omega) hi with h | h <;> simp [blocked] at h

end OptNpInv

theorem optNp_contract (realloc : Nat → Bool) :
    Contract (D := D) w (policyOptNp realloc) (OptNpInv w) where
  interruptible _ := rfl
  view inv _ _ _ := ⟨inv.n_eq, inv.single, inv.isOrder, inv.pos_le, inv.past,
    inv.future, inv.arrived⟩
  arrival {v o pl p} inv ok hp new _ := by
    refine ⟨_, rfl, inv.move (by simp [new]) (fun _ => rfl) _ fun q hq => ?_⟩
    rw [Function.update_apply, Places.move_apply]
    split_ifs
    · simp
    · exact inv.arrived q hq
  wake {v o pl p} inv ok blocked _ :=
    absurd blocked (inv.not_blocked (ok.outside p (by simp [blocked])))
  next {v o pl} inv ok hnow := by
    have n_eq := inv.n_eq
    have order := inv.isOrder
    by_cases finished : o.pos = o.n
    · refine ⟨o, none, by simp [policyOptNp, optNpNextSlice, finished], inv, .inl fun p ready => ?_⟩
      obtain ⟨i, hi, rfl⟩ := order.surj (ok.ready_lt p ready)
      rcases inv.past i (by omega) with ⟨slice, h⟩ | h <;> simp [ready] at h
    · have hpos : o.pos < w.len := by
        have := inv.pos_le
        omega
      have hlt := order.lt o.pos hpos
      cases arrived : o.arrived (o.order o.pos) with
      | false =>
          refine ⟨o, none, by simp [policyOptNp, optNpNextSlice, arrived], inv,
            .inr ⟨rfl, o.order o.pos, by rw [ok.n_eq]; exact hlt, ?_⟩⟩
          by_contra h
          rw [(inv.arrived _ hlt).mpr h] at arrived
          cases arrived
      | true =>
          have ready : pl (o.order o.pos) = .ready :=
            (inv.future o.pos le_rfl hpos).resolve_left ((inv.arrived _ hlt).mp arrived)
          have apart : ∀ i < w.len, i ≠ o.pos → o.order i ≠ o.order o.pos := fun i hi ne same =>
            ne (order.inj i hi o.pos hpos same)
          refine ⟨{ o with pos := o.pos + 1 },
            some ⟨o.order o.pos, v.remaining (o.order o.pos), schedNoDeadline⟩,
            by simp [policyOptNp, optNpNextSlice, finished, arrived], ready, ok.ready_pos _ ready,
            hnow, le_rfl, fun _ => ⟨le_rfl, rfl⟩, n_eq, inv.single, order, hpos, fun i hi => ?_,
            fun i hi hn => ?_, fun q hq => ?_⟩
          · by_cases here : i = o.pos
            · rw [here]
              exact .inl ⟨_, Places.move_self ..⟩
            · have hi : i < o.pos + 1 := hi
              rw [pl.move_of_ne _ (apart i (by omega) here)]
              exact inv.past i (by omega)
          · have hi : o.pos + 1 ≤ i := hi
            rw [pl.move_of_ne _ (apart i hn (by omega))]
            exact inv.future i (by omega) hn
          · rw [Places.move_apply]
            split_ifs with h
            · rw [h]
              exact iff_of_true arrived (by simp)
            · exact inv.arrived q hq
  preempt _ _ _ _ _ _ hook := by simp [policyOptNp] at hook
  block {v o pl p slice ran} inv ok out _ _ more := by
    have := inv.single p (ok.outside p (by simp [out]))
    omega
  complete {v o pl p slice ran} inv ok out _ _ := by
    refine ⟨o, rfl, inv.move (fun _ => .inr rfl) (by simp [out]) o.arrived fun q hq => ?_⟩
    rw [Places.move_apply, inv.arrived q hq]
    split_ifs with h
    · simp [h, out]
    · rfl

/-- What is left of the order of opt-np and has arrived. -/
def optNpStores (o : OptNp) (entries : List Nat) : Prop :=
  ((List.range o.n).filter fun i => decide (o.pos ≤ i) && o.arrived (o.order i)).map o.order =
    entries

theorem OptNpInv.stores {v : SchedView D} {o : OptNp} {pl : Places} (inv : OptNpInv w v o pl)
    (ok : ViewOk w v pl) : ∃ ready, optNpStores o ready ∧ Holds pl ready := by
  refine ⟨_, rfl, ?_, fun p => ?_⟩
  · refine List.Nodup.map_on (fun i hi k hk same => ?_) (List.nodup_range.filter _)
    have hi := List.mem_range.mp (List.mem_of_mem_filter hi)
    have hk := List.mem_range.mp (List.mem_of_mem_filter hk)
    rw [inv.n_eq] at hi hk
    exact inv.isOrder.inj i hi k hk same
  · simp only [List.mem_map, List.mem_filter, List.mem_range, Bool.and_eq_true, decide_eq_true_eq,
      inv.n_eq]
    constructor
    · rintro ⟨i, ⟨hi, left, arrived⟩, rfl⟩
      rcases inv.future i left hi with new | ready
      · exact absurd new ((inv.arrived _ (inv.isOrder.lt i hi)).mp arrived)
      · exact ready
    · intro ready
      have hp := ok.ready_lt p ready
      obtain ⟨i, hi, rfl⟩ := inv.isOrder.surj hp
      refine ⟨i, ⟨hi, ?_, (inv.arrived _ hp).mpr (by simp [ready])⟩, rfl⟩
      by_contra past
      rcases inv.past i (by omega) with ⟨slice, h⟩ | h <;> simp [ready] at h

/-- What `optnp_create` accepts, and what it returns. -/
theorem optNpCreate_ok {realloc : Nat → Bool} {v : SchedView D} {params : PolicyParams} {o : OptNp}
    (created : optNpCreate realloc v params = .ok o) :
    v.n ≤ optNpMax ∧ v.cores = 1 ∧ v.csCost = 0 ∧ (∀ p < v.n, (v.procs p).phaseCount = 1) ∧
      o = { n := v.n, pos := 0, arrived := fun _ => false,
            order := (search realloc (v.n + 1) (startSearch (initSearch v)) 0 0 0
              0).bestOrder } := by
  unfold optNpCreate at created
  split_ifs at created with many several phases
  cases created
  refine ⟨not_lt.mp many, ?_, ?_, fun p hp => ?_, rfl⟩
  · by_contra h
    exact several (.inl h)
  · by_contra h
    exact several (.inr h)
  · simp only [List.any_eq_true, List.mem_range, not_exists, not_and] at phases
    simpa using phases p hp

/-- What holds of the state that `optnp_create` returns. -/
theorem OptNpInv.init (valid : w.Valid) {realloc : Nat → Bool} {v : SchedView D}
    {params : PolicyParams} {o : OptNp} (procs_eq : v.procs = w.proc) (n_eq : v.n = w.len)
    (created : optNpCreate realloc v params = .ok o) : OptNpInv w v o fun _ => .new := by
  obtain ⟨-, -, -, single, rfl⟩ := optNpCreate_ok created
  have fits : ∀ j < (initSearch v).n, (initSearch v).r j ≤ int64Max := by
    intro j hj
    have hj : j < w.len := lt_of_lt_of_eq hj n_eq
    simp only [initSearch, procs_eq]
    exact valid.arrival_le hj
  obtain ⟨start_n, start_best⟩ := startSearch_spec fits
  have start_best := (congrArg (fun m => IsOrder m _) start_n).mpr start_best
  obtain ⟨-, best, -⟩ := search_spec realloc (v.n + 1) (t := 0)
    (Placed.empty (startSearch (initSearch v)).n _) start_best
  refine ⟨n_eq, fun p hp => ?_, (congrArg (fun m => IsOrder m _) (start_n.trans n_eq)).mp best,
    by simp, by simp, by simp, by simp⟩
  rw [← procs_eq]
  exact single p (by rwa [n_eq])

theorem optNp_lawful (valid : w.Valid) (realloc : Nat → Bool) (v : SchedView D)
    (params : PolicyParams) (procs_eq : v.procs = w.proc) (n_eq : v.n = w.len) :
    Lawful w (policyOptNp realloc) optNpStores v params := by
  intro o created
  have created : optNpCreate realloc v params = .ok o := created
  exact ⟨OptNpInv w, optNp_contract realloc, .init valid procs_eq n_eq created,
    fun inv ok => inv.stores ok⟩

end CpuSched
