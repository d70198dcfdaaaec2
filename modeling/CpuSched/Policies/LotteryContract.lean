import CpuSched.Policies.Lottery
import CpuSched.Policy.ReadySet

/-!
# Lottery keeps the contract

The Fenwick tree holds the tickets of the ready processes by pid rank.  A draw
ends, since the generator reaches every output, and its winner lies on a rank
with a ticket, so the process there is ready.
-/

namespace CpuSched

variable {D : Type} {w : Workload}

/-! ## The draw -/

theorem drawThreshold_lt (bound : Nat) : drawThreshold bound < 2 ^ 64 := by
  unfold drawThreshold
  exact (Nat.mod_le _ _).trans_lt (Nat.mod_lt _ (by positivity))

theorem drawLoop_succ (bound threshold fuel : Nat) (state : BitVec 64) :
    drawLoop bound threshold (fuel + 1) state =
      if threshold ≤ (splitMixFinal (state + goldenGamma)).toNat then
        some (state + goldenGamma, (splitMixFinal (state + goldenGamma)).toNat % bound)
      else drawLoop bound threshold fuel (state + goldenGamma) := rfl

/-- The rejection loop ends if an accepted output comes within `fuel` rounds. -/
theorem drawLoop_spec {bound threshold : Nat} (hbound : 0 < bound) (fuel : Nat) (state : BitVec 64)
    (hit : ∃ k, 1 ≤ k ∧ k ≤ fuel ∧
      threshold ≤ (splitMixFinal (state + BitVec.ofNat 64 k * goldenGamma)).toNat) :
    ∃ state' x, drawLoop bound threshold fuel state = some (state', x) ∧ x < bound := by
  induction fuel generalizing state with
  | zero =>
      obtain ⟨k, h1, h2, -⟩ := hit
      omega
  | succ fuel ih =>
      rw [drawLoop_succ]
      by_cases accept : threshold ≤ (splitMixFinal (state + goldenGamma)).toNat
      · rw [if_pos accept]
        exact ⟨_, _, rfl, Nat.mod_lt _ hbound⟩
      · rw [if_neg accept]
        obtain ⟨k, h1, h2, h3⟩ := hit
        have hk : k ≠ 1 := by
          rintro rfl
          simp only [BitVec.one_mul] at h3
          exact accept h3
        refine ih _ ⟨k - 1, by omega, by omega, ?_⟩
        have same : state + goldenGamma + BitVec.ofNat 64 (k - 1) * goldenGamma =
            state + BitVec.ofNat 64 k * goldenGamma := by
          obtain ⟨j, rfl⟩ : ∃ j, k = j + 1 := ⟨k - 1, by omega⟩
          rw [Nat.add_sub_cancel, BitVec.ofNat_add, BitVec.add_mul, BitVec.one_mul,
            BitVec.add_assoc, BitVec.add_comm goldenGamma]
        rwa [same]

/-- `draw_below` ends. -/
theorem drawBelow_spec (state : BitVec 64) {b : Nat} (hbound : 0 < b) :
    ∃ state' x, drawBelow state b = some (state', x) ∧ x < b := by
  obtain ⟨k, h1, h2, h3⟩ := exists_round state (BitVec.allOnes 64)
  refine drawLoop_spec hbound _ state ⟨k, h1, h2, ?_⟩
  rw [h3, BitVec.toNat_allOnes]
  have := drawThreshold_lt b
  omega

/-! ## Ranks -/

theorem pidOrder_perm (v : SchedView D) : (pidOrder v).Perm (List.range v.n) :=
  List.mergeSort_perm ..

theorem pidOrder_length (v : SchedView D) : (pidOrder v).length = v.n := by
  rw [(pidOrder_perm v).length_eq, List.length_range]

/-- The ranks number the processes. -/
structure Ranked (n : Nat) (rank byRank : Nat → Nat) : Prop where
  rank_lt : ∀ p < n, rank p < n
  byRank_lt : ∀ r < n, byRank r < n
  byRank_rank : ∀ p < n, byRank (rank p) = p
  rank_byRank : ∀ r < n, rank (byRank r) = r

theorem ranked_pidOrder (v : SchedView D) :
    Ranked v.n (fun i => (pidOrder v).idxOf i) fun r => (pidOrder v).getD r 0 := by
  have length_eq := pidOrder_length v
  have nodup : (pidOrder v).Nodup := (pidOrder_perm v).nodup_iff.mpr List.nodup_range
  have mem : ∀ p, p ∈ pidOrder v ↔ p < v.n := fun p => by
    rw [(pidOrder_perm v).mem_iff, List.mem_range]
  refine ⟨fun p hp => ?_, fun r hr => ?_, fun p hp => ?_, fun r hr => ?_⟩
  · rw [← length_eq]
    exact List.idxOf_lt_length_iff.mpr ((mem p).mpr hp)
  · rw [← length_eq] at hr
    rw [List.getD_eq_getElem _ _ hr]
    exact (mem _).mp (List.getElem_mem hr)
  · have hlt := List.idxOf_lt_length_iff.mpr ((mem p).mpr hp)
    rw [List.getD_eq_getElem _ _ hlt]
    exact List.getElem_idxOf hlt
  · rw [← length_eq] at hr
    rw [List.getD_eq_getElem _ _ hr]
    exact nodup.idxOf_getElem r hr

/-! ## The invariant -/

/-- The tickets of the process of rank `r` if it is ready. -/
def readyTickets (w : Workload) (byRank : Nat → Nat) (pl : Places) (r : Nat) : Int :=
  if pl (byRank r) = .ready then (w.proc (byRank r)).tickets else 0

/-- The invariant of lottery scheduling. -/
structure LotteryInv (w : Workload) (_ : SchedView D) (s : Lottery) (pl : Places) : Prop where
  n_eq : s.n = w.len
  ranked : Ranked w.len s.rank s.byRank
  log2n_eq : s.log2n = highestPower w.len w.len 1
  tree : ∃ f, FenwickTree w.len f s.tree ∧ s.total = prefixSum f w.len ∧
    ∀ r < w.len, f r = readyTickets w s.byRank pl r
  quantum_pos : 0 < s.quantum

theorem LotteryInv.tickets_pos {s : Lottery} {pl : Places} {v : SchedView D} (valid : w.Valid)
    (inv : LotteryInv w v s pl) {r : Nat} (hr : r < w.len) :
    0 ≤ readyTickets w s.byRank pl r ∧
      (0 < readyTickets w s.byRank pl r ↔ pl (s.byRank r) = .ready) := by
  have := (valid.proc (inv.ranked.byRank_lt r hr)).tickets_pos
  unfold readyTickets
  split_ifs with h
  · simp only [h, iff_true]
    omega
  · simp [h]

/-- A process whose tickets enter or leave the tree moves in or out of the ready
set. -/
theorem LotteryInv.move {v : SchedView D} {s : Lottery} {pl : Places} {p : Nat} {z : Place}
    (inv : LotteryInv w v s pl) (hp : p < w.len) (rng : BitVec 64) (delta : Int)
    (delta_eq : readyTickets w s.byRank (pl.move p z) (s.rank p) =
      readyTickets w s.byRank pl (s.rank p) + delta) :
    LotteryInv w v { fenwickAdd s (s.rank p) delta with total := s.total + delta, rng }
      (pl.move p z) := by
  obtain ⟨f, fen, total_eq, entries⟩ := inv.tree
  refine ⟨inv.n_eq, inv.ranked, inv.log2n_eq,
    ⟨Function.update f (s.rank p) (f (s.rank p) + delta), ?_, ?_, fun r hr => ?_⟩, inv.quantum_pos⟩
  · simp only [fenwickAdd, inv.n_eq]
    exact fen.add (s.rank p) delta
  · rw [prefixSum_update, if_pos (inv.ranked.rank_lt p hp), ← total_eq]
  · simp only [fenwickAdd]
    by_cases heq : r = s.rank p
    · subst heq
      rw [Function.update_self, delta_eq, entries _ hr]
    · have other : s.byRank r ≠ p := by
        rintro rfl
        exact heq (inv.ranked.rank_byRank r hr).symm
      rw [Function.update_of_ne heq, entries r hr, readyTickets, readyTickets,
        pl.move_of_ne _ other]

/-- A move between places other than `ready` does not show. -/
theorem LotteryInv.other {v : SchedView D} {s : Lottery} {pl : Places} {p : Nat} {z : Place}
    (inv : LotteryInv w v s pl) (notReady : pl p ≠ .ready) (stays : z ≠ .ready) :
    LotteryInv w v s (pl.move p z) := by
  obtain ⟨f, fen, total_eq, entries⟩ := inv.tree
  refine ⟨inv.n_eq, inv.ranked, inv.log2n_eq, ⟨f, fen, total_eq, fun r hr => ?_⟩, inv.quantum_pos⟩
  rw [entries r hr, readyTickets, readyTickets]
  by_cases heq : s.byRank r = p
  · rw [heq, pl.move_self, if_neg notReady, if_neg stays]
  · rw [pl.move_of_ne _ heq]

theorem lotteryEnqueue_spec {v : SchedView D} {s : Lottery} {pl : Places} {p : Nat}
    (inv : LotteryInv w v s pl) (ok : ViewOk w v pl) (hp : p < w.len) (notReady : pl p ≠ .ready) :
    ∃ s', lotteryEnqueue v s p = some s' ∧ LotteryInv w v s' (pl.move p .ready) := by
  refine ⟨_, rfl, inv.move hp s.rng _ ?_⟩
  simp only [readyTickets, inv.ranked.byRank_rank p hp, Places.move_self, if_true, if_neg notReady,
    ok.procs_eq, zero_add]

theorem LotteryInv.none_ready {v : SchedView D} {s : Lottery} {pl : Places} (valid : w.Valid)
    (inv : LotteryInv w v s pl) (ok : ViewOk w v pl) (empty : s.total = 0) : ∀ p,
      pl p ≠ .ready := by
  intro p hp
  obtain ⟨f, fen, total_eq, entries⟩ := inv.tree
  have hlen := ok.ready_lt p hp
  have hrank := inv.ranked.rank_lt p hlen
  have positive : 0 < f (s.rank p) := by
    rw [entries _ hrank, (inv.tickets_pos valid hrank).2, inv.ranked.byRank_rank p hlen]
    exact hp
  have : f (s.rank p) ≤ prefixSum f w.len := by
    refine Finset.single_le_sum (fun r hr => ?_) (Finset.mem_range.mpr hrank)
    rw [entries r (Finset.mem_range.mp hr)]
    exact (inv.tickets_pos valid (Finset.mem_range.mp hr)).1
  omega

/-- The process found for a draw below the total is ready. -/
theorem LotteryInv.winner {v : SchedView D} {s : Lottery} {pl : Places} (valid : w.Valid)
    (inv : LotteryInv w v s pl) {x : Nat} (below : (x : Int) < s.total) :
    ∃ p < w.len, s.byRank (fenwickFind s x) = p ∧ pl p = .ready := by
  obtain ⟨f, fen, total_eq, entries⟩ := inv.tree
  obtain ⟨r, hr, found, low, high⟩ := fen.find valid.nonempty (r := x) (by omega)
    (by rw [← total_eq]; exact below)
  have positive : 0 < f r := by
    rw [prefixSum, Finset.sum_range_succ] at high
    rw [prefixSum] at low
    omega
  rw [entries r hr, (inv.tickets_pos valid hr).2] at positive
  refine ⟨s.byRank r, inv.ranked.byRank_lt r hr, ?_, positive⟩
  rw [fenwickFind, inv.n_eq, inv.log2n_eq, found]

theorem lottery_contract (valid : w.Valid) :
    Contract (D := D) w policyLottery (LotteryInv w) where
  interruptible _ := rfl
  view inv _ _ _ := ⟨inv.n_eq, inv.ranked, inv.log2n_eq, inv.tree, inv.quantum_pos⟩
  arrival inv ok hp new _ := lotteryEnqueue_spec inv ok hp (by simp [new])
  wake {v s pl p} inv ok blocked _ :=
    lotteryEnqueue_spec inv ok (ok.outside p (by simp [blocked])) (by simp [blocked])
  next {v s pl} inv ok hnow := by
    obtain ⟨f, fen, total_eq, entries⟩ := inv.tree
    have nonneg : 0 ≤ s.total := by
      rw [total_eq]
      refine Finset.sum_nonneg fun r hr => ?_
      rw [entries r (Finset.mem_range.mp hr)]
      exact (inv.tickets_pos valid (Finset.mem_range.mp hr)).1
    by_cases empty : s.total = 0
    · exact ⟨s, none, by simp [policyLottery, lotteryNextSlice, empty], inv,
        .inl (inv.none_ready valid ok empty)⟩
    · obtain ⟨rng, x, drawn, below⟩ := drawBelow_spec s.rng (b := s.total.toNat) (by omega)
      obtain ⟨p, hp, found, ready⟩ := inv.winner valid (x := x) (by omega)
      have found' : s.byRank (fenwickFind { s with rng } x) = p := found
      obtain ⟨slice, hslice⟩ : ∃ slice : Slice, slice = ⟨p, s.quantum, schedNoDeadline⟩ := ⟨_, rfl⟩
      have left := inv.move (z := .out slice) hp rng (-(w.proc p).tickets) (by
        simp [readyTickets, inv.ranked.byRank_rank p hp, ready])
      refine ⟨{ fenwickAdd s (s.rank p) (-(w.proc p).tickets) with
        total := s.total + -(w.proc p).tickets, rng }, some slice, ?_, ?_⟩
      · simp only [policyLottery, lotteryNextSlice, empty, if_false, drawn, Option.bind_eq_bind,
          Option.bind_some, found', ok.procs_eq, sub_eq_add_neg, hslice]
        rfl
      · subst hslice
        exact ⟨ready, inv.quantum_pos, hnow, le_rfl, fun hook => by simp [policyLottery] at hook,
          left⟩
  preempt {v s pl p slice ran f} inv ok out _ _ _ hook := by
    cases hook
    exact lotteryEnqueue_spec inv ok (ok.outside p (by simp [out])) (by simp [out])
  block {v s pl p slice ran} inv _ out _ _ _ := ⟨s, rfl, inv.other (by simp [out]) (by simp)⟩
  complete {v s pl p slice ran} inv _ out _ _ := ⟨s, rfl, inv.other (by simp [out]) (by simp)⟩

/-- What the ticket tree of the lottery holds: the ranks with tickets. -/
def lotteryStores (s : Lottery) (entries : List Nat) : Prop :=
  ∃ tickets, FenwickTree s.n tickets s.tree ∧
    ((List.range s.n).filter fun r => 0 < tickets r).map s.byRank = entries

theorem LotteryInv.stores {v : SchedView D} {s : Lottery} {pl : Places} (valid : w.Valid)
    (inv : LotteryInv w v s pl) (ok : ViewOk w v pl) :
    ∃ ready, lotteryStores s ready ∧ Holds pl ready := by
  obtain ⟨f, fen, -, entries⟩ := inv.tree
  have ready_iff : ∀ r < w.len, 0 < f r ↔ pl (s.byRank r) = .ready := fun r hr => by
    rw [entries r hr]
    exact (inv.tickets_pos valid hr).2
  refine ⟨_, ⟨f, inv.n_eq ▸ fen, rfl⟩, ?_, fun p => ?_⟩
  · refine List.Nodup.map_on (fun r hr r' hr' same => ?_) (List.nodup_range.filter _)
    have hr := List.mem_range.mp (List.mem_of_mem_filter hr)
    have hr' := List.mem_range.mp (List.mem_of_mem_filter hr')
    rw [inv.n_eq] at hr hr'
    rw [← inv.ranked.rank_byRank r hr, ← inv.ranked.rank_byRank r' hr', same]
  · simp only [List.mem_map, List.mem_filter, List.mem_range, decide_eq_true_eq, inv.n_eq]
    constructor
    · rintro ⟨r, ⟨hr, pos⟩, rfl⟩
      exact (ready_iff r hr).mp pos
    · intro ready
      have hp := ok.ready_lt p ready
      have back := inv.ranked.byRank_rank p hp
      exact ⟨s.rank p, ⟨inv.ranked.rank_lt p hp,
        (ready_iff _ (inv.ranked.rank_lt p hp)).mpr (by rwa [back])⟩, back⟩

/-- What holds of the state that `lottery_create` returns. -/
theorem LotteryInv.init {v : SchedView D} {params : PolicyParams} {s : Lottery} (n_eq : v.n = w.len)
    (quantum_pos : 0 < params.quantum) (created : lotteryCreate v params = .ok s) :
    LotteryInv w v s fun _ => .new := by
  cases created
  refine ⟨n_eq, n_eq ▸ ranked_pidOrder v, ?_,
    ⟨fun _ => 0, fun i _ _ => ?_, ?_, fun r _ => ?_⟩, quantum_pos⟩
  · simp only [n_eq]
  · simp [prefixSum]
  · simp [prefixSum]
  · simp [readyTickets]

theorem lottery_lawful (valid : w.Valid) (v : SchedView D) (params : PolicyParams)
    (n_eq : v.n = w.len) (quantum_pos : 0 < params.quantum) :
    Lawful w policyLottery lotteryStores v params := by
  intro s created
  exact ⟨LotteryInv w, lottery_contract valid, .init n_eq quantum_pos created,
    fun inv ok => inv.stores valid ok⟩

end CpuSched
