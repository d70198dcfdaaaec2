import CpuSched.Policies.LotterySelection
import CpuSched.Reference.Matching

/-!
# The ticket tree against a plain list

The lottery draws below the root of its Fenwick tree and descends to the winner; the
reference adds up the tickets of a list, draws with integers under a mask, sorts the list
and walks it.  They keep the same generator state and select the same process, as long as
the tickets of all processes together fit in the `int64_t` that counts them.
-/

namespace CpuSched

variable {D : Type} {w : Workload}

/-! ## The generator -/

/-- A sum under the mask. -/
theorem add_mask64 (z : BitVec 64) (k : Nat) :
    (z.toNat + k) &&& mask64 = (z + BitVec.ofNat 64 k).toNat := by
  rw [mask64, Nat.and_two_pow_sub_one_eq_mod, BitVec.toNat_add, BitVec.toNat_ofNat,
    Nat.add_mod_mod]

/-- A product under the mask. -/
theorem mul_mask64 (z : BitVec 64) (k : Nat) :
    (z.toNat * k) &&& mask64 = (z * BitVec.ofNat 64 k).toNat := by
  rw [mask64, Nat.and_two_pow_sub_one_eq_mod, BitVec.toNat_mul, BitVec.toNat_ofNat,
    Nat.mul_mod_mod]

theorem xorShift_toNat (z : BitVec 64) (k : Nat) :
    z.toNat ^^^ (z.toNat >>> k) = (z ^^^ (z >>> k)).toNat := by
  rw [BitVec.toNat_xor, BitVec.toNat_ushiftRight]

/-- The integers of the reference are the words of the code. -/
theorem refSplitmix64_eq (state : BitVec 64) : refSplitmix64 state.toNat =
    ((state + goldenGamma).toNat, (splitMixFinal (state + goldenGamma)).toNat) := by
  rw [refSplitmix64, splitMixFinal, goldenGamma]
  rw [add_mask64, xorShift_toNat, mul_mask64, xorShift_toNat, mul_mask64, xorShift_toNat]

/-- The two loops accept the same output. -/
theorem refDraw_of_drawLoop {bound threshold : Nat} (fuel : Nat) {state state' : BitVec 64}
    {x : Nat} (run : drawLoop bound threshold fuel state = some (state', x)) :
    ∃ y, refDraw threshold fuel state.toNat = some (state'.toNat, y) ∧ x = y % bound := by
  induction fuel generalizing state with
  | zero => cases run
  | succ fuel ih =>
      rw [drawLoop_succ] at run
      rw [refDraw, refSplitmix64_eq]
      generalize splitMixFinal (state + goldenGamma) = output at run ⊢
      dsimp only
      by_cases accept : threshold ≤ output.toNat
      · rw [if_pos accept] at run
        obtain ⟨rfl, rfl⟩ := Prod.mk.inj (Option.some.inj run)
        exact ⟨output.toNat, if_pos (Int.ofNat_le.mpr accept), rfl⟩
      · rw [if_neg accept] at run
        obtain ⟨y, drawn, x_eq⟩ := ih run
        exact ⟨y, (if_neg (mt Int.ofNat_le.mp accept)).trans drawn, x_eq⟩

/-- The thresholds agree while the total is a 64-bit integer. -/
theorem refThreshold_eq {total : Int} (pos : 0 < total) (lt : total < 2 ^ 64) :
    (2 ^ 64 - total) % total = drawThreshold total.toNat := by
  have small : total.toNat < 2 ^ 64 := by omega
  rw [drawThreshold_eq (by omega) small, Int.natCast_mod, Int.toNat_of_nonneg pos.le,
    Int.sub_emod_right]
  norm_num

/-! ## The walk -/

/-- The tickets of all processes together fit in the `total` of the lottery. -/
def Workload.TicketsFit (w : Workload) : Prop :=
  ∑ p ∈ Finset.range w.len, (w.proc p).tickets ≤ int64Max

instance (w : Workload) : Decidable w.TicketsFit := inferInstanceAs (Decidable (_ ≤ _))

section Walk

variable {v : SchedView D} {s : Lottery} {pl : Places} {q : List Nat}

/-- The total of the tree is that of the list. -/
theorem LotteryInv.total_eq (inv : LotteryInv w v s pl) (ok : ViewOk w v pl) (holds : Holds pl q) :
    (q.map fun p => (v.procs p).tickets).sum = s.total := by
  obtain ⟨f, fen, total_eq, entries⟩ := inv.tree
  rw [total_eq, inv.prefixSum_eq entries le_rfl, ← List.sum_toFinset _ holds.nodup, ok.procs_eq]
  refine Finset.sum_congr ?_ fun _ _ => rfl
  ext p
  rw [List.mem_toFinset, holds.mem_iff, Finset.mem_filter, Finset.mem_range]
  exact ⟨fun ready => ⟨ok.ready_lt p ready, ready, inv.ranked.rank_lt p (ok.ready_lt p ready)⟩,
    fun both => both.2.1⟩

/-- The total of a list of ready processes fits. -/
theorem Holds.total_lt (valid : w.Valid) (fits : w.TicketsFit) (holds : Holds pl q)
    (ok : ViewOk w v pl) : (q.map fun p => (v.procs p).tickets).sum < 2 ^ 64 := by
  rw [← List.sum_toFinset _ holds.nodup, ok.procs_eq]
  have le : ∑ p ∈ q.toFinset, (w.proc p).tickets ≤ ∑ p ∈ Finset.range w.len, (w.proc p).tickets :=
    Finset.sum_le_sum_of_subset_of_nonneg
      (fun p hp => Finset.mem_range.mpr
        (ok.ready_lt p ((holds.mem_iff p).mp (List.mem_toFinset.mp hp))))
      fun p hp _ => by
        have := (valid.proc (Finset.mem_range.mp hp)).tickets_pos
        omega
  unfold Workload.TicketsFit int64Max at fits
  omega

/-- The walk over the sorted list ends at the process whose tickets the draw falls on. -/
theorem Holds.refLotteryPick_eq (valid : w.Valid) (holds : Holds pl q) (ok : ViewOk w v pl)
    {p : Nat} (ready : pl p = .ready) {r : Int} (low : ticketsBefore w pl p ≤ r)
    (high : r < ticketsBefore w pl p + (w.proc p).tickets) : refLotteryPick v q r = some p := by
  obtain ⟨l, l_eq⟩ : ∃ l, l = q.mergeSort fun a b => (v.procs a).pid ≤ (v.procs b).pid := ⟨_, rfl⟩
  have sorted : l.Pairwise fun a b => (v.procs a).pid ≤ (v.procs b).pid :=
    l_eq ▸ pairwise_mergeSort_key (fun p => (v.procs p).pid) q
  have list : Holds pl l := holds.perm (l_eq ▸ List.mergeSort_perm ..)
  have inside : ∀ a ∈ l, a < w.len := fun a ha => ok.ready_lt a ((list.mem_iff a).mp ha)
  have strict : l.Pairwise fun a b => (v.procs a).pid < (v.procs b).pid := by
    refine (sorted.and list.nodup).imp_of_mem fun {a b} ha hb both => ?_
    refine lt_of_le_of_ne both.1 fun same => both.2 ?_
    rw [ok.procs_eq] at same
    exact valid.pid_injective (inside a ha) (inside b hb) same
  have before : ((l.filter fun a => (v.procs a).pid < (v.procs p).pid).map fun a =>
      (v.procs a).tickets).sum = ticketsBefore w pl p := by
    rw [← List.sum_toFinset _ (list.nodup.filter _), ticketsBefore, ok.procs_eq]
    refine Finset.sum_congr ?_ fun _ _ => rfl
    ext a
    rw [List.mem_toFinset, List.mem_filter, list.mem_iff, decide_eq_true_eq, Finset.mem_filter,
      Finset.mem_range]
    exact ⟨fun both => ⟨ok.ready_lt a both.1, both⟩, fun both => both.2⟩
  rw [refLotteryPick, ← l_eq]
  refine refLotteryWalk_eq strict ((list.mem_iff p).mpr ready) (by rwa [before]) ?_ fun a ha => ?_
  · rwa [before, ok.procs_eq]
  · rw [ok.procs_eq]
    exact (valid.proc (inside a ha)).tickets_pos

end Walk

/-! ## The policy -/

/-- The lottery and its class have the same generator state and quantum, and the list holds
the ready processes. -/
def LotteryAlike (w : Workload) (_ : SchedView D) (s : Lottery) (t : RefLottery) (pl : Places) :
    Prop :=
  ∃ q, Holds pl q ∧ RankedByPid w s.rank ∧ t = ⟨q, s.quantum, s.rng.toNat⟩

namespace LotteryAlike

variable {v : SchedView D} {s s' : Lottery} {t : RefLottery} {pl : Places} {p : Nat}

theorem push (alike : LotteryAlike w v s t pl) (notReady : pl p ≠ .ready)
    (run : lotteryEnqueue v s p = some s') :
    ∃ t', RefLottery.arrive v t p = some t' ∧ LotteryAlike w v s' t' (pl.move p .ready) := by
  obtain ⟨q, holds, byPid, rfl⟩ := alike
  cases run
  exact ⟨_, rfl, _, holds.append notReady, byPid, rfl⟩

theorem other {z : Place} (alike : LotteryAlike w v s t pl) (notReady : pl p ≠ .ready)
    (stays : z ≠ .ready) : LotteryAlike w v s t (pl.move p z) := by
  obtain ⟨q, holds, byPid, rfl⟩ := alike
  exact ⟨q, holds.other notReady stays, byPid, rfl⟩

/-- The descent in the tree and the walk over the list select the same process. -/
theorem next (valid : w.Valid) (fits : w.TicketsFit) (inv : LotteryInv w v s pl)
    (alike : LotteryAlike w v s t pl) (ok : ViewOk w v pl) {r : Option Slice}
    (run : lotteryNextSlice v s = some (s', r)) :
    ∃ t', RefLottery.pick v t = some (t', r) ∧ LotteryAlike w v s' t' (pl.afterNext r) := by
  obtain ⟨q, holds, byPid, rfl⟩ := alike
  have total_eq := inv.total_eq ok holds
  have total_lt := holds.total_lt valid fits ok
  rw [total_eq] at total_lt
  unfold lotteryNextSlice at run
  split_ifs at run with empty
  · cases run
    refine ⟨_, ?_, q, holds, byPid, rfl⟩
    rw [holds.eq_nil (inv.none_ready valid ok empty)]
    rfl
  · obtain ⟨⟨rng, x⟩, drawn, run⟩ := Option.bind_eq_some_iff.mp run
    cases run
    have nonneg : 0 ≤ s.total := by
      rw [← total_eq]
      refine List.sum_nonneg fun y hy => ?_
      obtain ⟨a, ha, rfl⟩ := List.mem_map.mp hy
      have := (valid.proc (ok.ready_lt a ((holds.mem_iff a).mp ha))).tickets_pos
      rw [ok.procs_eq]
      omega
    have pos : 0 < s.total := by omega
    obtain ⟨y, drawn', rfl⟩ := refDraw_of_drawLoop _ drawn
    have below : ((y % s.total.toNat : Nat) : Int) < s.total := by
      have := Nat.mod_lt y (by omega : 0 < s.total.toNat)
      omega
    obtain ⟨p, hp, found, ready⟩ := inv.winner valid below
    have found' : s.byRank (fenwickFind { s with rng } (y % s.total.toNat : Nat)) = p := found
    have range : ((y % s.total.toNat : Nat) : Int) ∈
        Set.Ico (ticketsBefore w pl p) (ticketsBefore w pl p + (w.proc p).tickets) := by
      rw [← inv.selects valid byPid hp ready]
      exact ⟨Int.natCast_nonneg _, below, found⟩
    have picked := holds.refLotteryPick_eq valid ok ready range.1 range.2
    rw [found']
    refine ⟨⟨q.erase p, s.quantum, rng.toNat⟩, ?_, q.erase p, holds.erase ready (by simp), byPid,
      rfl⟩
    obtain ⟨a, rest, cons⟩ : ∃ a rest, q = a :: rest :=
      List.exists_cons_of_ne_nil fun none => by
        have := (holds.mem_iff p).mpr ready
        simp [none] at this
    have draw : refDraw ((2 ^ 64 - s.total) % s.total) (2 ^ 64) s.rng.toNat =
        some (rng.toNat, y) := by
      rw [refThreshold_eq pos total_lt]
      exact drawn'
    have sum : (⟨q, s.quantum, s.rng.toNat⟩ : RefLottery).total v = s.total := total_eq
    have residue : (y : Int) % s.total = (y % s.total.toNat : Nat) := by
      rw [Int.natCast_mod, Int.toNat_of_nonneg nonneg]
    have unfolded : RefLottery.pick v ⟨q, s.quantum, s.rng.toNat⟩ =
        (refDraw ((2 ^ 64 - s.total) % s.total) (2 ^ 64) s.rng.toNat).bind fun drawn =>
          (refLotteryPick v q (drawn.2 % s.total)).bind fun p =>
            some (⟨q.erase p, s.quantum, drawn.1⟩, some ⟨p, s.quantum, schedNoDeadline⟩) := by
      rw [← sum, RefLottery.pick, cons]
      rfl
    rw [unfolded, draw, Option.bind_some, residue, picked]
    rfl

end LotteryAlike

/-- The lottery and the class `Lottery` answer alike. -/
theorem lottery_matches (valid : w.Valid) (fits : w.TicketsFit) :
    Matches (D := D) w policyLottery refLottery (LotteryInv w) (LotteryAlike w) where
  preemptOnReady_eq := rfl
  workConserving_eq := rfl
  preempt_none := by simp [policyLottery, refLottery]
  view _ alike _ _ := alike
  arrival _ alike _ _ new run := alike.push (by simp [new]) run
  wake _ alike _ blocked run := alike.push (by simp [blocked]) run
  next inv alike ok _ run := alike.next valid fits inv ok run
  preempt _ alike _ out hook hook' run := by
    cases hook
    cases hook'
    exact alike.push (by simp [out]) run
  block {v s s' t pl p slice ran} _ alike _ out run :=
    ⟨t, rfl, Option.some.inj run ▸ alike.other (by simp [out]) (by simp)⟩
  complete {v s s' t pl p slice ran} _ alike _ out run :=
    ⟨t, rfl, Option.some.inj run ▸ alike.other (by simp [out]) (by simp)⟩

end CpuSched
