import CpuSched.Policies.Protocol
import CpuSched.Reference.Policies
import CpuSched.Util.Intervals
import Mathlib.Data.Set.Card

/-!
# The draw of the lottery

`draw_below` stops within a period of the generator and accepts every residue equally
often.  Each ready process is selected by as many consecutive draws as it has tickets,
in pid order.
-/

namespace CpuSched

variable {D : Type} {w : Workload}

/-! ## `draw_below` -/

/-- The output of the generator `k` rounds after `state`. -/
def outputAt (state : BitVec 64) (k : Nat) : BitVec 64 :=
  splitMixFinal (state + BitVec.ofNat 64 k * goldenGamma)

theorem outputAt_succ (state : BitVec 64) (k : Nat) :
    outputAt (state + goldenGamma) k = outputAt state (k + 1) := by
  unfold outputAt
  rw [BitVec.ofNat_add, BitVec.add_mul, BitVec.one_mul, BitVec.add_assoc,
    BitVec.add_comm goldenGamma]

/-- The threshold is the remainder of the number of outputs. -/
theorem drawThreshold_eq {b : Nat} (pos : 0 < b) (lt : b < 2 ^ 64) :
    drawThreshold b = 2 ^ 64 % b := by
  unfold drawThreshold
  rw [Nat.mod_eq_of_lt lt, Nat.mod_eq_of_lt (by omega : 2 ^ 64 - b < 2 ^ 64)]
  exact (Nat.mod_eq_sub_mod lt.le).symm

/-- The loop returns the residue of the first output that is accepted. -/
theorem drawLoop_first {b threshold : Nat} (fuel : Nat) {state state' : BitVec 64} {x : Nat}
    (run : drawLoop b threshold fuel state = some (state', x)) :
    ∃ k, 1 ≤ k ∧ k ≤ fuel ∧ (∀ i, 1 ≤ i → i < k → (outputAt state i).toNat < threshold) ∧
      threshold ≤ (outputAt state k).toNat ∧ state' = state + BitVec.ofNat 64 k * goldenGamma ∧
      x = (outputAt state k).toNat % b := by
  induction fuel generalizing state with
  | zero => cases run
  | succ fuel ih =>
      rw [drawLoop_succ] at run
      split_ifs at run with accept
      · obtain ⟨rfl, rfl⟩ := Prod.mk.inj (Option.some.inj run)
        refine ⟨1, le_rfl, by omega, fun i h1 h2 => by omega, ?_, ?_, ?_⟩
        · simpa [outputAt] using accept
        · simp
        · simp [outputAt]
      · obtain ⟨k, one, le, rejected, accepted, state_eq, x_eq⟩ := ih run
        refine ⟨k + 1, by omega, by omega, fun i h1 h2 => ?_, ?_, ?_, ?_⟩
        · obtain ⟨i, rfl⟩ : ∃ j, i = j + 1 := ⟨i - 1, by omega⟩
          rw [← outputAt_succ]
          by_cases first : i = 0
          · subst first
            simpa [outputAt] using accept
          · exact rejected i (by omega) (by omega)
        · rw [← outputAt_succ]
          exact accepted
        · rw [state_eq, BitVec.ofNat_add, BitVec.add_mul, BitVec.one_mul, BitVec.add_assoc,
            BitVec.add_comm goldenGamma]
        · rw [← outputAt_succ]
          exact x_eq

/-- Among the outputs from `t` on, where `n = t + q * b`, every residue occurs `q` times. -/
theorem card_residue {n t q b c : Nat} (split : n = t + q * b) (lt : c < b) :
    ((Finset.range n).filter fun y => t ≤ y ∧ y % b = c).card = q := by
  -- the first number from `t` on with the residue `c`
  obtain ⟨o, ge, le, residue⟩ : ∃ o, t ≤ o ∧ o < t + b ∧ o % b = c := by
    have period : t + (c + b - t % b) = c + b * (t / b + 1) := by
      have := Nat.div_add_mod t b
      have := Nat.mod_lt t (by omega : 0 < b)
      rw [Nat.mul_succ]
      omega
    refine ⟨t + (c + b - t % b) % b, by omega, ?_, ?_⟩
    · have := Nat.mod_lt (c + b - t % b) (by omega : 0 < b)
      omega
    · rw [Nat.add_mod_mod, period, Nat.add_mul_mod_self_left, Nat.mod_eq_of_lt lt]
  have image : ((Finset.range n).filter fun y => t ≤ y ∧ y % b = c) =
      (Finset.range q).image fun i => o + i * b := by
    ext y
    simp only [Finset.mem_filter, Finset.mem_range, Finset.mem_image]
    constructor
    · rintro ⟨inside, from_, same⟩
      have modEq : o ≡ y [MOD b] := residue.trans same.symm
      have from_o : o ≤ y := by
        by_contra! before
        have := Nat.le_of_dvd (by omega) ((Nat.modEq_iff_dvd' before.le).mp modEq.symm)
        omega
      obtain ⟨i, steps⟩ := (Nat.modEq_iff_dvd' from_o).mp modEq
      refine ⟨i, ?_, by rw [Nat.mul_comm]; omega⟩
      by_contra! many
      have := Nat.mul_le_mul_left b many
      rw [Nat.mul_comm b q] at this
      omega
    · rintro ⟨i, hi, rfl⟩
      refine ⟨?_, by omega, by rw [Nat.add_mul_mod_self_right, residue]⟩
      have : (i + 1) * b ≤ q * b := Nat.mul_le_mul_right b hi
      rw [Nat.add_mul, Nat.one_mul] at this
      omega
  rw [image, Finset.card_image_of_injective _ fun i k same => ?_, Finset.card_range]
  have same : o + i * b = o + k * b := same
  exact Nat.eq_of_mul_eq_mul_right (by omega : 0 < b) (by omega)

/-- `draw_below` stops within a period of the generator, at the first output that is
accepted, and the accepted outputs hit every residue equally often. -/
theorem drawBelow_uniform (state : BitVec 64) {b : Nat} (pos : 1 ≤ b) (lt : b < 2 ^ 63) :
    (∃ state' x, drawBelow state b = some (state', x) ∧ x < b ∧
      ∃ k, 1 ≤ k ∧ k ≤ 2 ^ 64 ∧
        (∀ i, 1 ≤ i → i < k → (outputAt state i).toNat < drawThreshold b) ∧
        drawThreshold b ≤ (outputAt state k).toNat ∧
        state' = state + BitVec.ofNat 64 k * goldenGamma ∧ x = (outputAt state k).toNat % b) ∧
    ∀ c < b, {y : BitVec 64 | drawThreshold b ≤ y.toNat ∧ y.toNat % b = c}.ncard = 2 ^ 64 / b := by
  obtain ⟨state', x, run, below⟩ := drawBelow_spec state pos
  refine ⟨⟨state', x, run, below, drawLoop_first _ run⟩, fun c hc => ?_⟩
  have threshold : drawThreshold b = 2 ^ 64 % b := drawThreshold_eq pos (by omega)
  have split : 2 ^ 64 = drawThreshold b + 2 ^ 64 / b * b := by
    rw [threshold, Nat.mul_comm]
    exact (Nat.mod_add_div ..).symm
  have words : BitVec.toNat '' {y : BitVec 64 | drawThreshold b ≤ y.toNat ∧ y.toNat % b = c} =
      ((Finset.range (2 ^ 64)).filter fun y => drawThreshold b ≤ y ∧ y % b = c : Finset Nat) := by
    ext y
    simp only [Set.mem_image, Set.mem_ofPred_eq, Finset.coe_filter, Finset.mem_range]
    constructor
    · rintro ⟨z, accepted, rfl⟩
      exact ⟨z.isLt, accepted⟩
    · rintro ⟨inside, accepted⟩
      have word : (BitVec.ofNat 64 y).toNat = y := by
        rw [BitVec.toNat_ofNat, Nat.mod_eq_of_lt inside]
      exact ⟨BitVec.ofNat 64 y, by rwa [word], word⟩
  rw [← Set.ncard_image_of_injective _ fun y z => BitVec.eq_of_toNat_eq, words,
    Set.ncard_coe_finset]
  exact card_residue split hc

/-- Three residues, from the state 0. -/
theorem drawBelow_three :
    (∃ state' x, drawBelow 0 3 = some (state', x) ∧ x < 3 ∧
      ∃ k, 1 ≤ k ∧ k ≤ 2 ^ 64 ∧
        (∀ i, 1 ≤ i → i < k → (outputAt 0 i).toNat < drawThreshold 3) ∧
        drawThreshold 3 ≤ (outputAt 0 k).toNat ∧
        state' = 0 + BitVec.ofNat 64 k * goldenGamma ∧ x = (outputAt 0 k).toNat % 3) ∧
    ∀ c < 3, {y : BitVec 64 | drawThreshold 3 ≤ y.toNat ∧ y.toNat % 3 = c}.ncard = 2 ^ 64 / 3 :=
  drawBelow_uniform 0 (by decide) (by decide)

/-! ## Ranks -/

/-- The ranks follow the pids. -/
def RankedByPid (w : Workload) (rank : Nat → Nat) : Prop :=
  ∀ p < w.len, ∀ q < w.len, rank p < rank q ↔ (w.proc p).pid < (w.proc q).pid

theorem rankedByPid_pidOrder (valid : w.Valid) {v : SchedView D} (procs_eq : v.procs = w.proc)
    (n_eq : v.n = w.len) : RankedByPid w fun p => (pidOrder v).idxOf p := by
  have sorted : (pidOrder v).Pairwise fun a b => (w.proc a).pid ≤ (w.proc b).pid := by
    rw [pidOrder, procs_eq]
    exact pairwise_mergeSort_key (fun p => (w.proc p).pid) _
  have mem : ∀ p < w.len, (pidOrder v).idxOf p < (pidOrder v).length := fun p hp =>
    List.idxOf_lt_length_iff.mpr
      ((pidOrder_perm v).mem_iff.mpr (by rw [n_eq]; exact List.mem_range.mpr hp))
  -- a smaller rank means a pid that is not larger
  have le : ∀ p < w.len, ∀ q < w.len, (pidOrder v).idxOf p < (pidOrder v).idxOf q →
      (w.proc p).pid ≤ (w.proc q).pid := by
    intro p hp q hq before
    have := List.pairwise_iff_getElem.mp sorted _ _ (mem p hp) (mem q hq) before
    rwa [List.getElem_idxOf, List.getElem_idxOf] at this
  intro p hp q hq
  constructor
  · intro before
    refine lt_of_le_of_ne (le p hp q hq before) fun same => ?_
    rw [valid.pid_injective hp hq same] at before
    exact before.false
  · intro less
    by_contra! after
    rcases after.lt_or_eq with after | same
    · have := le q hq p hp after
      omega
    · have mem : q ∈ pidOrder v :=
        (pidOrder_perm v).mem_iff.mpr (by rw [n_eq]; exact List.mem_range.mpr hq)
      obtain rfl := (List.idxOf_inj mem).mp same
      exact less.false

/-- The ranks stay as they were created. -/
theorem Protocol.rankedByPid {params : PolicyParams} (valid : w.Valid) {v : SchedView D}
    {s : (policyLottery (D := D)).State} {pl : Places}
    (run : Protocol w policyLottery params v s pl) :
    RankedByPid w (Lottery.rank s) := by
  induction run with
  | create view run =>
      cases run
      exact rankedByPid_pidOrder valid view.procs_eq view.n_eq
  | lend before view step ih => exact ih
  | arrival before call run ih =>
      cases run
      exact ih
  | wake before call run ih =>
      cases run
      exact ih
  | @next v s s' pl r before early run ih =>
      have run : lotteryNextSlice v s = some (s', r) := run
      unfold lotteryNextSlice at run
      split_ifs at run
      · cases run
        exact ih
      · obtain ⟨⟨rng, x⟩, -, run⟩ := Option.bind_eq_some_iff.mp run
        cases run
        exact ih
  | preempt before call pos hook run ih =>
      cases hook
      cases run
      exact ih
  | block before call more run ih =>
      cases run
      exact ih
  | complete before call run ih =>
      cases run
      exact ih

/-! ## Selection -/

/-- The tickets of the ready processes with a smaller pid. -/
def ticketsBefore (w : Workload) (pl : Places) (p : Nat) : Int :=
  ∑ q ∈ (Finset.range w.len).filter fun q => pl q = .ready ∧ (w.proc q).pid < (w.proc p).pid,
    (w.proc q).tickets

section Selection

variable {v : SchedView D} {s : Lottery} {pl : Places} {f : Nat → Int}

/-- The tickets of the first `k` ranks are those of the processes on them. -/
theorem LotteryInv.prefixSum_eq (inv : LotteryInv w v s pl)
    (entries : ∀ r < w.len, f r = readyTickets w s.byRank pl r) {k : Nat} (le : k ≤ w.len) :
    prefixSum f k = ∑ q ∈ (Finset.range w.len).filter fun q => pl q = .ready ∧ s.rank q < k,
      (w.proc q).tickets := by
  have ranked := inv.ranked
  calc prefixSum f k = ∑ r ∈ Finset.range k, if pl (s.byRank r) = .ready then
        (w.proc (s.byRank r)).tickets else 0 := by
        refine Finset.sum_congr rfl fun r hr => ?_
        exact entries r ((Finset.mem_range.mp hr).trans_le le)
    _ = ∑ q ∈ (Finset.range w.len).filter fun q => s.rank q < k, if pl q = .ready then
        (w.proc q).tickets else 0 := by
        refine Finset.sum_nbij s.byRank (fun r hr => ?_) (fun r hr r' hr' same => ?_)
          (fun q hq => ?_)
          fun _ _ => rfl
        · have hr := (Finset.mem_range.mp hr)
          rw [Finset.mem_filter, Finset.mem_range, ranked.rank_byRank r (hr.trans_le le)]
          exact ⟨ranked.byRank_lt r (hr.trans_le le), hr⟩
        · have hr : r < k := by simpa using hr
          have hr' : r' < k := by simpa using hr'
          rw [← ranked.rank_byRank r (hr.trans_le le), ← ranked.rank_byRank r'
            (hr'.trans_le le), same]
        · obtain ⟨hq, less⟩ : q < w.len ∧ s.rank q < k := by simpa using hq
          exact ⟨s.rank q, by simpa using less, ranked.byRank_rank q hq⟩
    _ = _ := by
        rw [← Finset.sum_filter, Finset.filter_filter]
        exact Finset.sum_congr (Finset.filter_congr fun q _ => and_comm) fun _ _ => rfl

/-- The tickets of the ranks below that of `p`. -/
theorem LotteryInv.prefixSum_rank (inv : LotteryInv w v s pl) (byPid : RankedByPid w s.rank)
    (entries : ∀ r < w.len, f r = readyTickets w s.byRank pl r) {p : Nat} (hp : p < w.len)
    (ready : pl p = .ready) : prefixSum f (s.rank p) = ticketsBefore w pl p ∧
      prefixSum f (s.rank p + 1) = ticketsBefore w pl p + (w.proc p).tickets := by
  have rank_lt := inv.ranked.rank_lt p hp
  have below : prefixSum f (s.rank p) = ticketsBefore w pl p := by
    rw [inv.prefixSum_eq entries rank_lt.le]
    refine Finset.sum_congr (Finset.filter_congr fun q hq => ?_) fun _ _ => rfl
    rw [byPid q (Finset.mem_range.mp hq) p hp]
  refine ⟨below, ?_⟩
  rw [← below, prefixSum, Finset.sum_range_succ, entries _ rank_lt, readyTickets,
    inv.ranked.byRank_rank p hp, if_pos ready]
  rfl

/-- Each ready process is selected by as many consecutive draws as it has tickets. -/
theorem LotteryInv.selects (valid : w.Valid) (inv : LotteryInv w v s pl)
    (byPid : RankedByPid w s.rank) {p : Nat} (hp : p < w.len) (ready : pl p = .ready) :
    {r | 0 ≤ r ∧ r < s.total ∧ s.byRank (fenwickFind s r) = p} =
      Set.Ico (ticketsBefore w pl p) (ticketsBefore w pl p + (w.proc p).tickets) := by
  obtain ⟨f, fen, total_eq, entries⟩ := inv.tree
  have rank_lt := inv.ranked.rank_lt p hp
  obtain ⟨low, high⟩ := inv.prefixSum_rank byPid entries hp ready
  have mono : ∀ i k, i ≤ k → k ≤ w.len → prefixSum f i ≤ prefixSum f k := by
    intro i k le le_len
    refine Finset.sum_le_sum_of_subset_of_nonneg (Finset.range_subset_range.mpr le) fun r hr _ => ?_
    have hr := (Finset.mem_range.mp hr).trans_le le_len
    rw [entries r hr]
    exact (inv.tickets_pos valid hr).1
  ext r
  rw [Set.mem_ofPred_eq, Set.mem_Ico, ← high, ← low]
  have found : 0 ≤ r → r < s.total → ∃ i < w.len, fenwickFind s r = i ∧ prefixSum f i ≤ r ∧
      r < prefixSum f (i + 1) := by
    intro nonneg below
    obtain ⟨i, hi, eq, range⟩ := fen.find valid.nonempty nonneg (by rwa [← total_eq])
    exact ⟨i, hi, by rw [fenwickFind, inv.n_eq, inv.log2n_eq, eq], range⟩
  constructor
  · rintro ⟨nonneg, below, rfl⟩
    obtain ⟨i, hi, eq, range⟩ := found nonneg below
    rw [eq, inv.ranked.rank_byRank i hi]
    exact range
  · rintro ⟨from_, up⟩
    have nonneg : 0 ≤ r :=
      le_trans (by simpa [prefixSum] using mono 0 _ (Nat.zero_le _) rank_lt.le) from_
    have below : r < s.total := by
      rw [total_eq]
      exact up.trans_le (mono _ _ rank_lt le_rfl)
    refine ⟨nonneg, below, ?_⟩
    -- the intervals of two ranks do not overlap
    obtain ⟨i, hi, eq, low', high'⟩ := found nonneg below
    have same : i = s.rank p := by
      by_contra ne
      rcases Nat.lt_or_gt_of_ne ne with less | more
      · have := mono (i + 1) (s.rank p) less rank_lt.le
        omega
      · have := mono (s.rank p + 1) i more hi.le
        omega
    rw [eq, same, inv.ranked.byRank_rank p hp]

/-- The walk ends at the process whose tickets the draw falls on. -/
theorem refLotteryWalk_eq {l : List Nat}
    (sorted : l.Pairwise fun a b => (v.procs a).pid < (v.procs b).pid) {p : Nat}
      (mem : p ∈ l) {r : Int}
    (low : ((l.filter fun q => (v.procs q).pid < (v.procs p).pid).map fun q =>
      (v.procs q).tickets).sum ≤ r)
    (high : r < ((l.filter fun q => (v.procs q).pid < (v.procs p).pid).map fun q =>
      (v.procs q).tickets).sum + (v.procs p).tickets)
    (pos : ∀ q ∈ l, 1 ≤ (v.procs q).tickets) : refLotteryWalk v l r = some p := by
  induction l generalizing r with
  | nil => cases mem
  | cons a rest ih =>
      obtain ⟨first, sorted⟩ := List.pairwise_cons.mp sorted
      have others : ∀ q ∈ rest, 1 ≤ (v.procs q).tickets :=
        fun q hq => pos q (List.mem_cons_of_mem a hq)
      rcases List.mem_cons.mp mem with rfl | mem
      · have none : (p :: rest).filter (fun q => (v.procs q).pid < (v.procs p).pid) = [] := by
          refine List.filter_eq_nil_iff.mpr fun q hq => ?_
          rw [decide_eq_true_eq, not_lt]
          rcases List.mem_cons.mp hq with rfl | hq
          · exact le_rfl
          · exact (first q hq).le
        rw [none, List.map_nil, List.sum_nil] at high
        rw [refLotteryWalk]
        exact if_pos (by omega)
      · have before := first p mem
        rw [List.filter_cons_of_pos (by simpa using before), List.map_cons,
          List.sum_cons] at low high
        have nonneg : 0 ≤ ((rest.filter fun q => (v.procs q).pid < (v.procs p).pid).map fun q =>
            (v.procs q).tickets).sum := by
          refine List.sum_nonneg fun x hx => ?_
          obtain ⟨q, hq, rfl⟩ := List.mem_map.mp hx
          have := others q (List.mem_of_mem_filter hq)
          omega
        rw [refLotteryWalk]
        refine (if_neg (by omega)).trans (ih sorted mem (by omega) (by omega) others)

end Selection

/-- What the draws of a lottery select. -/
theorem LotteryInv.selection (valid : w.Valid) {v : SchedView D} {s : Lottery} {pl : Places}
    (inv : LotteryInv w v s pl) (ok : ViewOk w v pl) (byPid : RankedByPid w s.rank) :
    s.total = ∑ q ∈ (Finset.range w.len).filter fun q => pl q = .ready, (w.proc q).tickets ∧
    (∀ p, pl p = .ready → {r | 0 ≤ r ∧ r < s.total ∧ s.byRank (fenwickFind s r) = p} =
      Set.Ico (ticketsBefore w pl p) (ticketsBefore w pl p + (w.proc p).tickets)) ∧
    ∀ r, 0 ≤ r → r < s.total → fenwickFind s r < w.len ∧ pl (s.byRank (fenwickFind s r)) = .ready ∧
      ∀ q, Holds pl q → refLotteryPick v q r = some (s.byRank (fenwickFind s r)) := by
  have selects : ∀ p, pl p = .ready → {r | 0 ≤ r ∧ r < s.total ∧ s.byRank (fenwickFind s r) = p} =
      Set.Ico (ticketsBefore w pl p) (ticketsBefore w pl p + (w.proc p).tickets) := fun p ready =>
    LotteryInv.selects valid inv byPid (ok.ready_lt p ready) ready
  obtain ⟨f, fen, total_eq, entries⟩ := inv.tree
  refine ⟨?_, selects, fun r nonneg below => ?_⟩
  · rw [total_eq, inv.prefixSum_eq entries le_rfl]
    refine Finset.sum_congr (Finset.filter_congr fun q hq => and_iff_left ?_) fun _ _ => rfl
    exact inv.ranked.rank_lt q (Finset.mem_range.mp hq)
  · obtain ⟨p, hp, found, ready⟩ := inv.winner valid (x := r.toNat) (by omega)
    rw [Int.toNat_of_nonneg nonneg] at found
    have range : r ∈ Set.Ico (ticketsBefore w pl p)
      (ticketsBefore w pl p + (w.proc p).tickets) := by
      rw [← selects p ready]
      exact ⟨nonneg, below, found⟩
    obtain ⟨i, hi, eq, -⟩ := fen.find valid.nonempty nonneg (by rwa [← total_eq])
    refine ⟨by rwa [fenwickFind, inv.n_eq, inv.log2n_eq, eq], by rwa [found], fun q holds => ?_⟩
    have perm : (q.mergeSort fun a b => (v.procs a).pid ≤ (v.procs b).pid).Perm q :=
      List.mergeSort_perm ..
    have member : ∀ {a}, a ∈ (q.mergeSort fun a b => (v.procs a).pid ≤ (v.procs b).pid) ↔
      pl a = .ready :=
      fun {a} => perm.mem_iff.trans (holds.mem_iff a)
    have nodup := perm.nodup_iff.mpr holds.nodup
    have sorted : (q.mergeSort fun a b => (v.procs a).pid ≤ (v.procs b).pid).Pairwise fun a b =>
        (v.procs a).pid < (v.procs b).pid := by
      refine ((pairwise_mergeSort_key (fun p => (v.procs p).pid) q).and nodup).imp_of_mem
        fun {a b} ha hb both => lt_of_le_of_ne both.1 ?_
      rw [ok.procs_eq]
      exact fun same => both.2 (valid.pid_injective (ok.ready_lt a (member.mp ha))
        (ok.ready_lt b (member.mp hb)) same)
    have before : (((q.mergeSort fun a b => (v.procs a).pid ≤ (v.procs b).pid).filter fun a =>
        (v.procs a).pid < (v.procs p).pid).map fun a => (v.procs a).tickets).sum =
          ticketsBefore w pl p := by
      rw [← List.sum_toFinset _ (nodup.filter _), ticketsBefore, ok.procs_eq]
      refine Finset.sum_congr ?_ fun _ _ => rfl
      ext a
      simp only [List.mem_toFinset, List.mem_filter, Finset.mem_filter, Finset.mem_range,
        decide_eq_true_eq]
      rw [← ok.procs_eq, member]
      exact ⟨fun h => ⟨ok.ready_lt a h.1, h⟩, fun h => h.2⟩
    rw [found, refLotteryPick]
    refine refLotteryWalk_eq sorted (member.mpr ready) (by rw [before]; exact range.1)
      ?_ fun a ha => ?_
    · rw [before, ok.procs_eq]
      exact range.2
    · rw [ok.procs_eq]
      exact (valid.proc (ok.ready_lt a (member.mp ha))).tickets_pos

/-- In every state that calls of its hooks reach by the protocol, the total of the lottery
is that of the ready processes; each of them is selected by as many consecutive draws as it
has tickets, from the tickets of those with smaller pids on; every draw selects a ready
process, the one that the walk of the reference selects. -/
theorem lottery_selects (valid : w.Valid) {params : PolicyParams} (admitted : params.Admitted)
    {v : SchedView D} {s : Lottery} {pl : Places} (run : Protocol w policyLottery params v s pl) :
    s.total = ∑ q ∈ (Finset.range w.len).filter fun q => pl q = .ready, (w.proc q).tickets ∧
    (∀ p, pl p = .ready → {r | 0 ≤ r ∧ r < s.total ∧ s.byRank (fenwickFind s r) = p} =
      Set.Ico (ticketsBefore w pl p) (ticketsBefore w pl p + (w.proc p).tickets)) ∧
    ∀ r, 0 ≤ r → r < s.total → fenwickFind s r < w.len ∧ pl (s.byRank (fenwickFind s r)) = .ready ∧
      ∀ q, Holds pl q → refLotteryPick v q r = some (s.byRank (fenwickFind s r)) := by
  obtain ⟨inv, ok⟩ := run.keep (lottery_contract valid) fun v s view created =>
    LotteryInv.init view.n_eq admitted.quantum_pos created
  exact inv.selection valid ok (run.rankedByPid valid)

/-- The state that `lottery_create` starts from. -/
def pausingLottery : Lottery where
  quantum := 2
  rng := 5
  n := 2
  rank := fun i => [0, 1].idxOf i
  byRank := fun r => [0, 1].getD r 0
  tree := fun _ => 0
  total := 0
  log2n := 2

theorem pausingLottery_create :
    policyLottery.create (pausingStart.view pausing) { seed := 5 } = .ok pausingLottery := by
  have order : pidOrder (pausingStart.view pausing) = [0, 1] :=
    List.mergeSort_of_pairwise (by decide)
  simp only [policyLottery, lotteryCreate, order]
  rfl

/-- The second draw is for the second process, the third one for the first process. -/
theorem pausing_lottery_follow : ((policyLottery.follow pausing noteAnswers pausingStart
    pausingLottery (fun _ => .new) [] pausingCalls).map fun e =>
      (e.1.now, e.2.2.2, e.2.2.1 0, e.2.2.1 1)) =
      some (7, [(1, 2), (0, 2), (1, 2), (0, 2)], .ready, .ready) := by
  decide +kernel

theorem pausing_lottery_run {e : Lent × Lottery × Places × List (Nat × Int)}
    (follow : policyLottery.follow pausing noteAnswers pausingStart pausingLottery (fun _ => .new)
      [] pausingCalls = some e) :
    policyLottery.runs pausing { seed := 5 } noteAnswers pausingStart [] pausingCalls = some e := by
  rw [Policy.runs, pausingLottery_create]
  exact Option.bind_eq_some_iff.mpr ⟨pausingLottery, rfl, follow⟩

/-- When both processes are ready, each of the two hundred draws selects the one that holds the
ticket. -/
theorem pausing_lottery : ∃ (l : Lent) (s : Lottery) (pl : Places),
    Protocol pausing policyLottery { seed := 5 } (l.view pausing) s pl ∧ l.now = 7 ∧
    pl 0 = .ready ∧ pl 1 = .ready ∧ s.total = 200 ∧
    {r | 0 ≤ r ∧ r < s.total ∧ s.byRank (fenwickFind s r) = 0} = Set.Ico 0 100 ∧
    {r | 0 ≤ r ∧ r < s.total ∧ s.byRank (fenwickFind s r) = 1} = Set.Ico 100 200 := by
  obtain ⟨⟨l, s, pl, answers⟩, follow, seen⟩ := Option.map_eq_some_iff.mp pausing_lottery_follow
  simp only [Prod.mk.injEq] at seen
  obtain ⟨now, -, first, second⟩ := seen
  have reached := Protocol.computed le_rfl (pausing_lottery_run follow)
  have admitted : PolicyParams.Admitted { seed := 5 } := { PolicyParams.admitted_default with }
  obtain ⟨total, selects, -⟩ := lottery_selects pausing_valid admitted reached
  have ready : ∀ q ∈ Finset.range pausing.len, pl q = .ready := by
    intro q hq
    have inside : q < 2 := Finset.mem_range.mp hq
    have two : q = 0 ∨ q = 1 := by omega
    rcases two with rfl | rfl
    · exact first
    · exact second
  have tickets : s.total = 200 := by
    rw [total, Finset.filter_true_of_mem ready]
    decide
  have before : ticketsBefore pausing pl 0 = 0 ∧ ticketsBefore pausing pl 1 = 100 := by
    have eq : ∀ p, ticketsBefore pausing pl p = ∑ q ∈ (Finset.range pausing.len).filter fun q =>
        (pausing.proc q).pid < (pausing.proc p).pid, (pausing.proc q).tickets := by
      intro p
      rw [ticketsBefore]
      refine Finset.sum_congr (Finset.filter_congr fun q hq => ?_) fun _ _ => rfl
      rw [and_iff_right (ready q hq)]
    rw [eq, eq]
    decide
  have low := selects 0 first
  have high := selects 1 second
  have hundred : (pausing.proc 0).tickets = 100 ∧ (pausing.proc 1).tickets = 100 := by decide
  rw [before.1, hundred.1, zero_add] at low
  rw [before.2, hundred.2] at high
  exact ⟨l, s, pl, reached, now, first, second, tickets, low, high⟩

end CpuSched
