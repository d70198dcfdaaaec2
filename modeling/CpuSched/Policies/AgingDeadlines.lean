import CpuSched.Policies.PriorityAging
import CpuSched.Policies.Protocol
import Mathlib.Order.Bounds.Defs

/-!
# Aging deadlines

A process that waits gains a level whenever its waiting time reaches a multiple of the
aging period.  The deadline of `prio-p` is the first instant at which one of the
processes left in the ready set does so.
-/

namespace CpuSched

variable {D : Type} {w : Workload} {sub : Int → Int → Int}

/-- At `t` the quotient `floor(W / K)` of `q`, which stays in the ready set until then, is
larger than at `now`. -/
def GainsLevel (aging : Int) (log : List TimedCall) (now t : Int) (q : Nat) : Prop :=
  readyTime log now q / aging < readyTime log t q / aging

/-- The instants after `now` at which one of the ready processes has gained a level. -/
def levelInstants (aging : Int) (log : List TimedCall) (pl : Places) (now : Int) : Set Int :=
  {t | now < t ∧ ∃ q, pl q = .ready ∧ GainsLevel aging log now t q}

/-- A sum of quotients carries as soon as the remainder and the clock fill a period. -/
theorem ediv_lt_ediv_iff (c now t : Int) {k : Int} (hk : 0 < k) :
    (c + now) / k < (c + t) / k ↔ now + (k - (c + now) % k) ≤ t := by
  have split := Int.mul_ediv_add_emod (c + now) k
  rw [← Int.add_one_le_iff, Int.le_ediv_iff_mul_le hk, add_mul, one_mul, mul_comm]
  omega

/-- Up to a later instant, too, a process that stays accumulates the ticks. -/
theorem WaitsOk.readyTime_at {aging : Int} {v : SchedView D} {s : Logged Prio}
    {pl : Places} {q : Nat}
    (waits : WaitsOk aging v s pl) (ready : pl q = .ready) (t : Int) :
    readyTime s.log t q = s.state.waited q - s.state.readySince q + t := by
  rw [readyTime, (waits.ready q ready).1]
  simp only [Stays.upTo]
  omega

/-- `K - (r + now) mod K`, from the side of the limit on which `r` is. -/
theorem WaitsOk.nextLevel_eq {aging : Int} (pos : 0 < aging) {v : SchedView D} {s : Logged Prio}
    {pl : Places} (waits : WaitsOk aging v s pl) (now_nonneg : 0 ≤ v.now) {q : Nat}
    (keyed : Keyed sub v s.state q) :
    nextLevel s.state (prioLimit s.state v.now) q =
      aging - (s.state.waited q - s.state.readySince q + v.now) % aging := by
  have remainder := keyed.remainder
  rw [waits.aging_eq, if_pos pos] at remainder
  have carry := ediv_add_split (s.state.waited q - s.state.readySince q) v.now pos
  have splitC := Int.mul_ediv_add_emod (s.state.waited q - s.state.readySince q) aging
  have splitNow := Int.mul_ediv_add_emod v.now aging
  have splitSum := Int.mul_ediv_add_emod (s.state.waited q - s.state.readySince q + v.now) aging
  rw [carry] at splitSum
  rw [nextLevel, prioLimit, waits.aging_eq, if_pos pos, Int.tmod_eq_emod_of_nonneg now_nonneg,
    remainder]
  split_ifs at splitSum ⊢ with above below
  · omega
  · rw [mul_add, mul_add] at splitSum
    omega
  · rw [mul_add, mul_add] at splitSum
    omega
  · omega

/-- The instants at which a ready process has gained a level are those from its next
level on. -/
theorem WaitsOk.gainsLevel_iff {aging : Int} (pos : 0 < aging) {v : SchedView D} {s : Logged Prio}
    {pl : Places} (waits : WaitsOk aging v s pl) (now_nonneg : 0 ≤ v.now) {q : Nat}
    (ready : pl q = .ready) (keyed : Keyed sub v s.state q) (t : Int) :
    GainsLevel aging s.log v.now t q ↔
      v.now + nextLevel s.state (prioLimit s.state v.now) q ≤ t := by
  rw [GainsLevel, waits.readyTime_at ready, waits.readyTime_at ready, ediv_lt_ediv_iff _ _ _ pos,
    waits.nextLevel_eq pos now_nonneg keyed]

/-- What `prio-p` starts with. -/
theorem prioP_waits_start {params : PolicyParams} {v : SchedView D}
    {s : (policyPrioPWith (D := D) sub).logged.State}
    (created : (policyPrioPWith sub).logged.create v params = .ok s) :
    LoggedInv (PrioInvBoth sub true w) v s (fun _ => .new) ∧
      WaitsOk params.aging v s fun _ => .new := by
  have start : PrioInvBoth sub true w v s.state fun _ => .new := by
    cases created
    exact prioCreate_inv rfl
  cases created
  exact ⟨⟨start, [], rfl, Holds.nil⟩, rfl, by simp, by simp⟩

/-- What a call of `next_slice` of `prio-p` sets as the deadline. -/
theorem WaitsOk.deadline (valid : w.Valid) {aging : Int} (aged : 0 < aging)
    {v : SchedView D} {s s' : (policyPrioPWith (D := D) sub).logged.State} {pl : Places}
    {slice : Slice} (waits : WaitsOk aging v s pl)
    (logged : LoggedInv (PrioInvBoth sub true w) v s pl) (ok : ViewOk w v pl)
    (call : (policyPrioPWith sub).logged.nextSlice v s = some (s', some slice)) :
    ((∃ q, pl.afterNext (some slice) q = .ready) →
      ∃ t, IsLeast (levelInstants aging s'.log (pl.afterNext (some slice)) v.now) t ∧
        slice.deadline = if t ≤ int64Max then t else schedNoDeadline) ∧
    ((∀ q, pl.afterNext (some slice) q ≠ .ready) → slice.deadline = schedNoDeadline) := by
  obtain ⟨⟨state, r⟩, source, eq⟩ := Option.map_eq_some_iff.mp call
  cases r with
  | none => cases eq
  | some slice' =>
  obtain ⟨rfl, ⟨⟩⟩ := Prod.mk.inj eq
  obtain ⟨tree, links, tree', inv, rfl, chosen, perm, -, due⟩ :=
    prioNextSlice_inv valid logged.inv.inv ok source
  have left : ∀ q, pl.afterNext (some slice) q = .ready ↔ q ∈ tree'.nodes := fun q =>
    (((inv.holds.perm perm.symm).pop (by simp)).2.mem_iff q).symm
  have still : ∀ q ∈ tree'.nodes, pl q = .ready ∧ q ≠ slice.proc := by
    intro q hq
    have nodup := perm.nodup_iff.mp inv.treap.nodup
    exact ⟨(inv.holds.mem_iff q).mp (perm.mem_iff.mpr (List.mem_cons_of_mem _ hq)),
      ne_of_mem_of_not_mem hq (List.nodup_cons.mp nodup).1⟩
  -- the call itself tells nothing of the others
  have gains : ∀ q ∈ tree'.nodes, ∀ t, GainsLevel aging
    (⟨v.now, .slice slice⟩ :: s.log) v.now t q ↔
      v.now + nextLevel s.state (prioLimit s.state v.now) q ≤ t := by
    intro q hq t
    obtain ⟨ready, ne⟩ := still q hq
    rw [← waits.gainsLevel_iff aged ok.now_nonneg ready (inv.keyed q ready) t]
    unfold GainsLevel readyTime
    rw [staysOf_of_ne (.inr (.inr (.inr ⟨slice, rfl, rfl⟩))) ne]
  rcases due with ⟨none_, kind⟩ | ⟨step, due, -, -, ⟨y, hy, attained⟩, least⟩
  · have empty : tree'.nodes = [] := by
      rcases kind with empty | still | still
      · exact empty
      · cases still.symm.trans logged.inv.preemptive_eq
      · exact absurd (waits.aging_eq ▸ aged) still
    refine ⟨fun ⟨q, hq⟩ => ?_, fun _ => none_⟩
    rw [left, empty] at hq
    exact absurd hq List.not_mem_nil
  · refine ⟨fun _ => ⟨v.now + step,
      ⟨⟨?_, y, (left y).mpr hy, (gains y hy _).mpr (by omega)⟩, ?_⟩, ?_⟩,
      fun nobody => absurd ((left y).mpr hy) (nobody y)⟩
    · have aged' : 0 < s.state.aging := waits.aging_eq ▸ aged
      have := nextLevel_pos aged' ok.now_nonneg ((inv.keyed y (still y hy).1).bounds aged')
      omega
    · rintro t ⟨-, q, hq, gain⟩
      have hq := (left q).mp hq
      have := (gains q hq t).mp gain
      have := least q hq
      omega
    · have aged' : 0 < s.state.aging := waits.aging_eq ▸ aged
      have := nextLevel_pos aged' ok.now_nonneg ((inv.keyed y (still y hy).1).bounds aged')
      have := ok.now_nonneg
      rw [due, ckAddI64]
      unfold int64Min int64Max
      split_ifs
      · omega
      · rfl
      · rfl
      · omega

/-- `prio-p` sets the deadline to the first instant at which a process left in the ready
set gains a level, if the clock can show it, and sets none when no process is left. -/
theorem prioP_deadlines (valid : w.Valid) {params : PolicyParams} (aged : 0 < params.aging)
    {v : SchedView D} {s s' : (policyPrioPWith (D := D) sub).logged.State} {pl : Places}
    {slice : Slice} (run : Protocol w (policyPrioPWith sub).logged params v s pl)
    (call : (policyPrioPWith sub).logged.nextSlice v s = some (s', some slice)) :
    ((∃ q, pl.afterNext (some slice) q = .ready) →
      ∃ t, IsLeast (levelInstants params.aging s'.log (pl.afterNext (some slice)) v.now) t ∧
        slice.deadline = if t ≤ int64Max then t else schedNoDeadline) ∧
    ((∀ q, pl.afterNext (some slice) q ≠ .ready) → slice.deadline = schedNoDeadline) := by
  have keeps : KeptLog (D := D) w (policyPrioPWith sub) (LoggedInv (PrioInvBoth sub true w))
      (WaitsOk params.aging) := prioP_waits valid
  obtain ⟨⟨logged, waits⟩, ok⟩ := run.keep ((prioP_contract valid).logged.and keeps.kept)
    fun v s _ created => prioP_waits_start created
  exact waits.deadline valid aged logged ok call

/-- Two processes that arrive together. -/
def twinTicks : Workload := ⟨[processMake 1 0 2, processMake 2 0 2]⟩

/-- The view of both at `now`. -/
def twinTicksView (now : Int) : SchedView Float :=
  { Lent.view twinTicks ⟨now, []⟩ with remaining := fun _ => 2, burstLen := fun _ => 2 }

theorem twinTicks_valid : twinTicks.Valid where
  nonempty := by decide
  procs p mem := by
    simp only [twinTicks, List.mem_cons, List.not_mem_nil, or_false] at mem
    rcases mem with rfl | rfl <;> constructor <;> decide
  pids_nodup := by decide
  horizon_le := by decide

theorem twinTicksView_ok {now : Int} (nonneg : 0 ≤ now) (pl : Places)
    (outside : ∀ p, pl p ≠ .new → p < 2) :
    ViewOk twinTicks (twinTicksView now) pl where
  procs_eq := rfl
  n_eq := rfl
  now_nonneg := nonneg
  ready_pos _ _ := two_pos
  outside := outside

/-- Both are handed over at 0. -/
theorem twinTicks_ready {P : Policy Float} {params : PolicyParams} {s₀ s₁ s₂ : P.State}
    (created : P.create (twinTicksView 0) params = .ok s₀)
    (first : P.onArrival (twinTicksView 0) s₀ 0 = some s₁)
    (second : P.onArrival (twinTicksView 0) s₁ 1 = some s₂) {now : Int} (nonneg : 0 ≤ now) :
    Protocol twinTicks P params (twinTicksView now) s₂
      ((Places.move (fun _ => .new) 0 .ready).move 1 .ready) := by
  have start := twinTicksView_ok le_rfl (fun _ => .new) (by simp)
  refine .lend (.arrival (.arrival (.create start created) ⟨by decide, rfl, two_pos⟩ first)
    ⟨by decide, rfl, two_pos⟩ second) (twinTicksView_ok nonneg _ fun p known => ?_)
    ⟨rfl, rfl, rfl, rfl, nonneg, Iff.rfl, fun _ _ => rfl, fun _ _ => rfl, fun _ _ => rfl⟩
  simp only [Places.move_apply] at known
  split_ifs at known
  · omega
  · omega
  · exact absurd rfl known

/-- With a level for every three ticks of waiting, the one left at 4 gains a level at 6. -/
theorem twinTicks_deadline : ∃ (s s' : (policyPrioPWith (D := Float) satSub).logged.State)
    (pl : Places) (slice : Slice),
    (policyPrioPWith satSub).logged.nextSlice (twinTicksView 4) s = some (s', some slice) ∧
    ((∃ q, pl.afterNext (some slice) q = .ready) →
      ∃ t, IsLeast (levelInstants 3 s'.log (pl.afterNext (some slice)) 4) t ∧
        slice.deadline = if t ≤ int64Max then t else schedNoDeadline) ∧
    ((∀ q, pl.afterNext (some slice) q ≠ .ready) → slice.deadline = schedNoDeadline) := by
  obtain ⟨s, pl, run, s', call⟩ : ∃ s pl,
      Protocol twinTicks (policyPrioPWith satSub).logged { aging := 3 } (twinTicksView 4) s pl ∧
      ∃ s', (policyPrioPWith satSub).logged.nextSlice (twinTicksView 4) s =
        some (s', some ⟨0, 2, 6⟩) :=
    ⟨_, _, twinTicks_ready rfl rfl rfl (by decide), _, rfl⟩
  exact ⟨s, s', pl, _, call, prioP_deadlines twinTicks_valid (by decide) run call⟩

end CpuSched
