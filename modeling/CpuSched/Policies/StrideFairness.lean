import CpuSched.Policies.Chronicle
import CpuSched.Policies.NoInversion
import CpuSched.Policies.PriorityArithmetic

/-!
# The shares of stride scheduling

The pass of a process grows by its stride for every tick that it runs, and the virtual
time is the pass of the process picked last.  On one core a ready process is never ahead
of the virtual time by more than its stride for a quantum, so two processes that compete
run for times in the inverse ratio of their strides.  On any number of cores no pass
exceeds the greatest stride for all ticks charged so far, which the range check of
`stride_create` keeps within 64 bits.
-/

namespace CpuSched

variable {D : Type} {w : Workload}

/-- `stride_of` a process. -/
def Process.stride (p : Process) : Int := stride1 / p.tickets

theorem strideOf_eq {v : SchedView D} (procs_eq : v.procs = w.proc) (p : Nat) :
    strideOf v p = (w.proc p).stride := by
  rw [strideOf, procs_eq]
  rfl

theorem Process.Valid.stride_bounds {p : Process} (valid : p.Valid) :
    0 ≤ p.stride ∧ p.stride ≤ stride1 := by
  have := valid.tickets_pos
  have nonneg : (0 : Int) ≤ stride1 := by decide
  exact ⟨Int.ediv_nonneg nonneg (by omega), Int.ediv_le_self _ nonneg⟩

/-! ## What a call does -/

/-- What a call does to the passes and to the virtual time. -/
def strideAfter (v : SchedView D) (s : Stride) : HookCall → Stride
  | .arrival p => { s with pass := Function.update s.pass p s.vtime }
  | .ready p => { s with pass := Function.update s.pass p (max (s.pass p) s.vtime) }
  | .slice slice => { s with vtime := s.pass slice.proc }
  | .preempt p ran => strideCharge v s p ran
  | .block p ran => strideCharge v s p ran
  | .complete p ran => strideCharge v s p ran

/-- A call changes no other pass. -/
theorem strideAfter_of_ne {v : SchedView D} {s : Stride} {call : HookCall} {p : Nat}
    (ne : p ≠ call.proc) :
    (strideAfter v s call).pass p = s.pass p := by
  cases call with
  | slice => rfl
  | _ => exact Function.update_of_ne ne ..

theorem stridePush_eq {v : SchedView D} {s s' : Stride} {p : Nat}
    (run : stridePush v s p = some s') :
    s' = { s with ready := s'.ready } := by
  obtain ⟨ready, -, rfl⟩ := Option.map_eq_some_iff.mp run
  rfl

theorem stride_redo {v : SchedView D} {s s' : Stride} {call : HookCall}
    (run : policyStride.redo v s call = some s') : s' =
      { strideAfter v s call with ready := s'.ready } := by
  cases call with
  | arrival p => exact stridePush_eq run
  | ready p =>
      have run : strideReady v s p = some s' := run
      have eq := stridePush_eq run
      rw [eq]
      simp only [strideAfter]
      split_ifs with behind
      · simp [max_eq_right behind.le]
      · simp [max_eq_left (not_lt.mp behind)]
  | slice slice =>
      have next : strideNextSlice v s = some (s', some slice) := Policy.redo_slice.mp run
      unfold strideNextSlice at next
      split_ifs at next with empty
      · cases next
      obtain ⟨⟨proc, ready⟩, -, eq⟩ := Option.map_eq_some_iff.mp next
      simp only [Prod.mk.injEq, Option.some.injEq] at eq
      obtain ⟨rfl, rfl⟩ := eq
      rfl
  | preempt p ran => exact stridePush_eq run
  | block p ran =>
      cases run
      rfl
  | complete p ran =>
      cases run
      rfl

/-- The pick has the least pass, and its slice is a quantum. -/
theorem stride_pick (valid : w.Valid) {v : SchedView D} {s s' : Stride}
    {pl : Places} {slice : Slice}
    (inv : StrideInv w v s pl) (ok : ViewOk w v pl)
      (run : policyStride.redo v s (.slice slice) = some s') :
    slice.length = s.quantum ∧ ∀ q, pl q = .ready → s.pass slice.proc ≤ s.pass q := by
  have next : strideNextSlice v s = some (s', some slice) := Policy.redo_slice.mp run
  unfold strideNextSlice at next
  split_ifs at next with empty
  · cases next
  obtain ⟨p, ready, popped, -, -, least⟩ := inv.ready.pop valid ok (by simpa using empty)
    (z := fun _ => .done) (by simp)
  have popped : heapPop (strideLess v s) s.ready = some (p, ready) := popped
  rw [popped, Option.map_some] at next
  simp only [Option.some.injEq, Prod.mk.injEq] at next
  obtain ⟨-, rfl⟩ := next
  refine ⟨rfl, fun q isReady => ?_⟩
  by_cases same : q = p
  · rw [same]
  · have := (lessByPid_iff v s.pass p q).mp (least q isReady same)
    dsimp only
    omega

theorem stride_reports : (policyStride : Policy D).Reports where
  ready := by simp [policyStride]
  preempt := by simp [policyStride]
  block := by simp [policyStride]
  complete := by simp [policyStride]
  refuse {v s s'} run := by
    have run : strideNextSlice v s = some (s', none) := run
    unfold strideNextSlice at run
    split_ifs at run
    · cases run
      rfl
    · obtain ⟨x, -, eq⟩ := Option.map_eq_some_iff.mp run
      cases eq

theorem stride_readsProcs : (policyStride : Policy D).ReadsProcs := by
  intro v v' s call same
  have less : ∀ s, strideLess v' s = strideLess v s := fun s => by
    funext a b
    simp only [strideLess, lessByPid, same]
  have push : stridePush v' = stridePush v := by
    funext s p
    simp only [stridePush, less]
  have charge : strideCharge v' = strideCharge v := by
    funext s p ran
    simp only [strideCharge, strideOf, same]
  have next : strideNextSlice v' = strideNextSlice v := by
    funext s
    simp only [strideNextSlice, less]
  cases call <;> simp only [Policy.redo, policyStride, Policy.wakeHook, Option.getD_some, optCall,
    Option.bind_some, strideArrival, strideReady, stridePreempt, strideDone, push, charge, next]

/-! ## No overflow -/

section Bound

variable {s : Stride} {log : List TimedCall}

/-- No pass and no virtual time exceeds `bound`. -/
structure PassesWithin (s : Stride) (bound : Int) : Prop where
  vtime_nonneg : 0 ≤ s.vtime
  vtime_le : s.vtime ≤ bound
  pass_nonneg : ∀ p, 0 ≤ s.pass p
  pass_le : ∀ p, s.pass p ≤ bound

theorem PassesWithin.mono {bound bound' : Int} (within : PassesWithin s bound)
    (le : bound ≤ bound') :
    PassesWithin s bound' :=
  ⟨within.vtime_nonneg, within.vtime_le.trans le, within.pass_nonneg,
    fun p => (within.pass_le p).trans le⟩

/-- A pass is replaced. -/
theorem PassesWithin.update {bound x : Int} (within : PassesWithin s bound) {p : Nat}
    (nonneg : 0 ≤ x)
    (le : x ≤ bound) : PassesWithin { s with pass := Function.update s.pass p x } bound := by
  refine ⟨within.vtime_nonneg, within.vtime_le, fun q => ?_, fun q => ?_⟩
  all_goals
    by_cases same : q = p
    · subst same
      simpa
    · simp only [Function.update_of_ne same]
      first
        | exact within.pass_nonneg q
        | exact within.pass_le q

/-- The ticks of all processes that the calls report. -/
def chargedAll (w : Workload) (log : List TimedCall) : Int :=
  ∑ p ∈ Finset.range w.len, charged p log

/-- The ticks reported in a legal call are some. -/
theorem HookCall.Legal.ran_nonneg {pl : Places} {call : HookCall} (legal : call.Legal w pl) :
    0 ≤ call.ran := by
  cases call with
  | preempt p ran =>
      obtain ⟨slice, -, one, -⟩ := legal
      exact le_trans zero_le_one one
  | block p ran =>
      obtain ⟨slice, -, one, -⟩ := legal
      exact le_trans zero_le_one one
  | complete p ran =>
      obtain ⟨slice, -, one, -⟩ := legal
      exact le_trans zero_le_one one
  | _ => exact le_rfl

/-- A legal call is about a process of the workload. -/
theorem HookCall.Legal.inside {v : SchedView D} {pl : Places} {call : HookCall}
    (legal : call.Legal w pl) (ok : ViewOk w v pl) : call.proc < w.len := by
  cases call with
  | arrival p => exact legal.1
  | ready p => exact ok.outside p (by simp [show pl p = .blocked from legal])
  | slice s => exact ok.ready_lt s.proc legal
  | preempt p ran => exact Ran.inside legal ok
  | block p ran => exact Ran.inside legal ok
  | complete p ran => exact Ran.inside legal ok

theorem chargedAll_call {v : SchedView D} {call : TimedCall}
    (legal : call.call.Legal w (placesAfter log))
    (ok : ViewOk w v (placesAfter log)) :
    chargedAll w (call :: log) = chargedAll w log + call.call.ran :=
  sum_charged w.len call log fun _ => legal.inside ok

/-- More calls report more ticks. -/
theorem Chronicle.chargedAll_mono {P : Policy D} {Inv : SchedView D → P.State → Places → Prop}
    {start s : P.State} {calls :
      List TimedCall} (chronicle : Chronicle w P Inv start (calls ++ log) s) :
    chargedAll w log ≤ chargedAll w (calls ++ log) := by
  induction calls generalizing s with
  | nil => exact le_rfl
  | cons call calls ih =>
      cases chronicle with
      | @call v now s₁ _ call _ earlier time ok inv legal run =>
          have total : chargedAll w (⟨now, call⟩ :: (calls ++ log)) = chargedAll w
            (calls ++ log) + call.ran :=
            chargedAll_call legal ok
          have := ih earlier
          have := legal.ran_nonneg
          rw [List.cons_append]
          omega

/-- No pass exceeds the greatest stride for every tick reported so far. -/
theorem Chronicle.passesWithin (valid : w.Valid) {start s : (policyStride : Policy D).State}
    {Inv : SchedView D → (policyStride : Policy D).State → Places → Prop}
    (chronicle : Chronicle w policyStride Inv start log s) (zero : PassesWithin start 0) :
    0 ≤ chargedAll w log ∧ PassesWithin s (stride1 * chargedAll w log) := by
  induction chronicle with
  | start => simpa [chargedAll, charged] using zero
  | @call v now s s' call before earlier time ok inv legal run ih =>
      obtain ⟨nonneg, within⟩ := ih
      have total : chargedAll w (⟨now, call⟩ :: before) = chargedAll w before + call.ran :=
        chargedAll_call legal ok
      have ran := legal.ran_nonneg
      have inside := legal.inside ok
      have positive : (0 : Int) ≤ stride1 := by decide
      refine ⟨by omega, ?_⟩
      rw [stride_redo run, total, mul_add]
      have grown := within.mono (le_add_of_nonneg_right (mul_nonneg positive ran))
      suffices PassesWithin (strideAfter v s call)
        (stride1 * chargedAll w before + stride1 * call.ran) from
        ⟨this.vtime_nonneg, this.vtime_le, this.pass_nonneg, this.pass_le⟩
      have charge : ∀ p, p < w.len →
          PassesWithin (strideCharge v s p call.ran)
            (stride1 * chargedAll w before + stride1 * call.ran) := by
        intro p hp
        obtain ⟨low, high⟩ := (valid.proc hp).stride_bounds
        have product := mul_le_mul_of_nonneg_right high ran
        have := mul_nonneg low ran
        have := within.pass_nonneg p
        have := within.pass_le p
        refine grown.update ?_ ?_
        · rw [strideOf_eq ok.procs_eq]
          omega
        · rw [strideOf_eq ok.procs_eq]
          omega
      cases call with
      | arrival p => exact grown.update grown.vtime_nonneg grown.vtime_le
      | ready p =>
          exact grown.update (le_max_of_le_right grown.vtime_nonneg)
            (max_le (grown.pass_le p) grown.vtime_le)
      | slice slice =>
          exact ⟨grown.pass_nonneg _, grown.pass_le _, grown.pass_nonneg, grown.pass_le⟩
      | preempt p ran => exact charge p inside
      | block p ran => exact charge p inside
      | complete p ran => exact charge p inside

/-- What `stride_of` and `charge` compute in the call. -/
def strideInts (v : SchedView D) (s : Stride) (call : HookCall) : List Int :=
  [strideOf v call.proc, strideOf v call.proc * call.ran,
    s.pass call.proc + strideOf v call.proc * call.ran]

end Bound

/-! ## The shares on one core -/

section Shares

variable {start s s' : (policyStride : Policy D).State} {log calls : List TimedCall} {q : Int}

/-- How far the passes are from the virtual time. -/
structure StrideShares (w : Workload) (q : Int) (s : Stride) (pl : Places) : Prop where
  quantum_eq : s.quantum = q
  ready : ∀ p, pl p = .ready → s.vtime ≤ s.pass p ∧ s.pass p ≤ s.vtime + (w.proc p).stride * q
  blocked : ∀ p, pl p = .blocked → s.pass p ≤ s.vtime + (w.proc p).stride * q
  out : ∀ p slice, pl p = .out slice → s.pass p = s.vtime ∧ slice.length = q

/-- One process moves, with another pass. -/
theorem StrideShares.move {s : Stride} {pl : Places} (shares : StrideShares w q s pl)
    {p : Nat} {z : Place}
    {x : Int} (off : ∀ slice, z ≠ .out slice) (ready : z = .ready → s.vtime ≤ x)
    (within : z = .ready ∨ z = .blocked → x ≤ s.vtime + (w.proc p).stride * q) :
    StrideShares w q { s with pass := Function.update s.pass p x } (pl.move p z) := by
  refine ⟨shares.quantum_eq, fun r at_ => ?_, fun r at_ => ?_, fun r slice at_ => ?_⟩
  all_goals
    dsimp only
    by_cases same : r = p
    · subst same
      rw [Places.move_self] at at_
      rw [Function.update_self]
      first
        | exact ⟨ready at_, within (.inl at_)⟩
        | exact within (.inr at_)
        | exact absurd at_ (off slice)
    · rw [pl.move_of_ne _ same] at at_
      rw [Function.update_of_ne same]
      first
        | exact shares.ready r at_
        | exact shares.blocked r at_
        | exact shares.out r slice at_

theorem Chronicle.strideShares (valid : w.Valid)
    (chronicle : Chronicle w policyStride (StrideInv w) start log s) (positive : 0 ≤ q)
    (begins : (start : Stride).quantum = q) (one : ∀ l, l <:+ log → OneOut (placesAfter l)) :
    StrideShares w q s (placesAfter log) := by
  induction chronicle with
  | start =>
      exact ⟨begins, fun _ at_ => (by cases at_), fun _ at_ => (by cases at_),
        fun _ _ at_ => (by cases at_)⟩
  | @call v now s s' call before earlier time ok inv legal run ih =>
      have shares := ih fun l suffix => one l (suffix.trans (List.suffix_cons _ _))
      have alone := one _ (List.suffix_refl _)
      have inside := legal.inside ok
      have low := ((valid.proc inside).stride_bounds).1
      have room := mul_nonneg low positive
      rw [stride_redo run]
      suffices StrideShares w q (strideAfter v s call) (placesAfter (⟨now, call⟩ :: before)) from
        ⟨this.quantum_eq, this.ready, this.blocked, this.out⟩
      -- what a slice is charged, at most a quantum
      have charge : ∀ {p ran}, Ran (placesAfter before) p ran → 0 ≤ (w.proc p).stride →
          s.pass p + strideOf v p * ran = s.vtime + (w.proc p).stride * ran ∧
            0 ≤ (w.proc p).stride * ran ∧ (w.proc p).stride * ran ≤ (w.proc p).stride * q := by
        rintro p ran ⟨slice, out, one, le⟩ low
        obtain ⟨pass_eq, length_eq⟩ := shares.out p slice out
        have pass_eq : s.pass p = s.vtime := pass_eq
        refine ⟨by rw [strideOf_eq ok.procs_eq, pass_eq], mul_nonneg low (by omega),
          mul_le_mul_of_nonneg_left (by omega) low⟩
      cases call with
      | arrival p =>
          exact shares.move (fun _ at_ => by cases at_) (fun _ => le_rfl) fun _ =>
            le_add_of_nonneg_right room
      | ready p =>
          refine shares.move (fun _ at_ => by cases at_) (fun _ => le_max_right _ _) fun _ =>
            max_le (shares.blocked p legal) (le_add_of_nonneg_right room)
      | slice slice =>
          obtain ⟨length_eq, least⟩ := stride_pick valid inv ok run
          have ahead := (shares.ready slice.proc legal).1
          refine ⟨shares.quantum_eq, fun r at_ => ?_, fun r at_ => ?_, fun r slice' at_ => ?_⟩
          · have ne : r ≠ slice.proc := by
              rintro rfl
              simp [placesAfter, HookCall.proc, HookCall.place] at at_
            have at_ : placesAfter before r = .ready := by
              rwa [placesAfter_of_ne (show _ ≠ (HookCall.slice slice).proc from ne)] at at_
            have := (shares.ready r at_).2
            have first := least r at_
            simp only [strideAfter]
            omega
          · have ne : r ≠ slice.proc := by
              rintro rfl
              simp [placesAfter, HookCall.proc, HookCall.place] at at_
            have at_ : placesAfter before r = .blocked := by
              rwa [placesAfter_of_ne (show _ ≠ (HookCall.slice slice).proc from ne)] at at_
            have := shares.blocked r at_
            simp only [strideAfter]
            omega
          · have own : placesAfter (⟨now, .slice slice⟩ :: before) slice.proc = .out slice := by
              simp [placesAfter, HookCall.proc, HookCall.place]
            obtain rfl := alone r slice.proc slice' slice at_ own
            cases own.symm.trans at_
            exact ⟨rfl, length_eq.trans shares.quantum_eq⟩
      | preempt p ran =>
          obtain ⟨eq, nonneg, le⟩ := charge legal low
          exact shares.move (fun _ at_ => by cases at_) (fun _ => by rw [eq]; omega) fun _ => by
            rw [eq]; omega
      | block p ran =>
          obtain ⟨eq, nonneg, le⟩ := charge legal low
          exact shares.move (fun _ at_ => by cases at_) (fun at_ => by cases at_) fun _ => by
            rw [eq]; omega
      | complete p ran =>
          exact shares.move (fun _ at_ => by cases at_) (fun at_ => by cases at_)
            (by simp [HookCall.place])

/-- The virtual time does not decrease. -/
theorem Chronicle.vtime_mono (valid : w.Valid)
    (chronicle : Chronicle w policyStride (StrideInv w) start (calls ++ log) s)
    (before : Chronicle w policyStride (StrideInv w) start log s') (positive : 0 ≤ q)
    (begins : (start : Stride).quantum = q)
      (one : ∀ l, l <:+ calls ++ log → OneOut (placesAfter l)) :
    (s' : Stride).vtime ≤ (s : Stride).vtime := by
  induction calls generalizing s with
  | nil => rw [before.unique stride_readsProcs chronicle]
  | cons call calls ih =>
      have one' : ∀ l, l <:+ calls ++ log → OneOut (placesAfter l) :=
        fun l suffix => one l (suffix.trans (List.suffix_cons _ _))
      cases chronicle with
      | @call v now s₁ _ call _ earlier time ok inv legal run =>
          refine (ih earlier one').trans ?_
          have shares := earlier.strideShares valid positive begins one'
          rw [stride_redo run]
          cases call with
          | slice slice => exact (shares.ready slice.proc legal).1
          | _ => exact le_rfl

/-- While a process neither blocks nor completes, its pass grows by its stride for every
tick that it runs. -/
theorem Chronicle.pass_eq
    (chronicle : Chronicle w policyStride (StrideInv w) start (calls ++ log) s)
    (before : Chronicle w policyStride (StrideInv w) start log s') {p : Nat}
    (active : Active (placesAfter log) p)
    (stays : ∀ call ∈ calls, ¬(call.call.Leaves ∧ call.call.proc = p)) :
    Active (placesAfter (calls ++ log)) p ∧ (s : Stride).pass p = (s' : Stride).pass p +
      (w.proc p).stride * (charged p (calls ++ log) - charged p log) := by
  induction calls generalizing s with
  | nil =>
      refine ⟨active, ?_⟩
      rw [before.unique stride_readsProcs chronicle]
      simp
  | cons call calls ih =>
      cases chronicle with
      | @call v now s₁ _ call _ earlier time ok inv legal run =>
          obtain ⟨active, eq⟩ := ih earlier fun c mem => stays c (List.mem_cons_of_mem _ mem)
          have stays := stays _ List.mem_cons_self
          refine ⟨active.call stays, ?_⟩
          have grows : (s : Stride).pass p = (s₁ : Stride).pass p +
              if call.proc = p then (w.proc p).stride * call.ran else 0 := by
            rw [stride_redo run]
            by_cases own : call.proc = p
            · rw [if_pos own]
              subst own
              rcases legal.of_active active fun leaves => stays ⟨leaves, rfl⟩
                with ⟨slice, rfl⟩ | ⟨r, ran, rfl⟩
              · simp [strideAfter, HookCall.ran]
              · simp [strideAfter, strideCharge, strideOf_eq ok.procs_eq,
                  HookCall.ran, HookCall.proc]
            · rw [if_neg own, add_zero]
              exact strideAfter_of_ne (Ne.symm own)
          rw [grows, eq]
          simp only [List.cons_append, charged]
          split_ifs <;> ring

/-- Two processes that compete run for times in the inverse ratio of their strides. -/
theorem Chronicle.stride_fair (valid : w.Valid)
    (chronicle : Chronicle w policyStride (StrideInv w) start (calls ++ log) s)
    (before : Chronicle w policyStride (StrideInv w) start log s') (positive : 0 ≤ q)
    (begins : (start : Stride).quantum = q) (one : ∀ l, l <:+ calls ++ log → OneOut (placesAfter l))
    {i j : Nat} (ready : ∀ p, p = i ∨ p = j → placesAfter log p = .ready ∧
      placesAfter (calls ++ log) p = .ready ∧
        ∀ call ∈ calls, ¬(call.call.Leaves ∧ call.call.proc = p)) :
    |(w.proc i).stride * (charged i (calls ++ log) - charged i log) -
        (w.proc j).stride * (charged j (calls ++ log) - charged j log)| ≤
      ((w.proc i).stride + (w.proc j).stride) * q := by
  have first := before.strideShares valid positive begins fun l suffix =>
    one l (suffix.trans (List.suffix_append _ _))
  have second := chronicle.strideShares valid positive begins one
  obtain ⟨ready_i, ready_i', stays_i⟩ := ready i (.inl rfl)
  obtain ⟨ready_j, ready_j', stays_j⟩ := ready j (.inr rfl)
  obtain ⟨-, eq_i⟩ := chronicle.pass_eq before (.inl ready_i) stays_i
  obtain ⟨-, eq_j⟩ := chronicle.pass_eq before (.inl ready_j) stays_j
  obtain ⟨low_i, high_i⟩ := first.ready i ready_i
  obtain ⟨low_j, high_j⟩ := first.ready j ready_j
  obtain ⟨low_i', high_i'⟩ := second.ready i ready_i'
  obtain ⟨low_j', high_j'⟩ := second.ready j ready_j'
  rw [abs_le, add_mul]
  constructor <;> linarith

end Shares

/-! ## Runs -/

namespace Sim

variable [Double D]

/-- The logged runs of `S`, of which its runs are the projections. -/
def Logs (S : Sim D) (state : S.policy.State) : Prop :=
  ∀ point e, Reached S state point e →
    ∃ e', Reached S.logged ⟨state, []⟩ point e' ∧ e'.map Logged.state = e

theorem logs (S : Sim D) (state : S.policy.State) : S.Logs state := by
  intro point e reached
  obtain ⟨e', eq, reached'⟩ := Reached.lift S.policy.logged_projects
    (show Reached S (Logged.state (⟨state, []⟩ : Logged S.policy.State)) point e from reached)
  exact ⟨e', reached', eq⟩

/-- The simulation under `POLICY_STRIDE`. -/
abbrev stride (S : Sim D) : Sim D := S.withPolicy policyStride

omit [Double D] in
/-- The range check bounds the total. -/
theorem strideTotal_le {v : SchedView D} {l : List Nat} {total r : Int}
    (le : total ≤ int64Max / stride1)
    (run : strideTotal v l total = some r) :
    total + (l.map fun i => (v.procs i).burst).sum ≤ int64Max / stride1 := by
  induction l generalizing total with
  | nil => simpa
  | cons i rest ih =>
      rw [strideTotal] at run
      split_ifs at run with fits
      have := ih (by omega) run
      rw [List.map_cons, List.sum_cons]
      omega

theorem Started.stride_created {S : Sim D} {state : Stride} (started : Started S.stride state) :
    0 < S.params.quantum ∧ ∑ p ∈ Finset.range S.w.len, (S.w.proc p).burst ≤ int64Max / stride1 ∧
      StrideInv S.w S.initView state (fun _ => .new) ∧ state.quantum = S.params.quantum ∧
      PassesWithin state 0 := by
  have positive : 0 < S.params.quantum := by
    have options := started.options
    by_contra none
    rw [checkOptions, if_pos ⟨rfl, not_lt.mp none⟩] at options
    cases options
  have created : strideCreate S.initView S.params = .ok state := started.created
  unfold strideCreate at created
  cases total : strideTotal S.initView (List.range S.initView.n) 0 with
  | none =>
      rw [total] at created
      cases created
  | some t =>
      rw [total] at created
      cases created
      have within := strideTotal_le (by decide) total
      rw [zero_add] at within
      exact ⟨positive, within, ⟨HeapReady.init _ _ _, positive⟩, rfl, le_rfl, le_rfl,
        fun _ => le_rfl,
        fun _ => le_rfl⟩

/-- In every run of stride scheduling on one core, every ready process is at most its
stride for a quantum ahead of the virtual time, which never decreases; two processes that
are ready at two points and in between neither block nor complete run for times in the
inverse ratio of their strides, up to a quantum each. -/
theorem stride_shares (S : Sim D) (one : S.opt.cores = 1) {state : Stride}
    (started : Started S.stride state) : S.stride.Logs state ∧
    ∀ point e, Reached S.stride.logged ⟨state, []⟩ point e →
      (∀ p, placesAfter e.state.log p = .ready → e.state.state.vtime ≤ e.state.state.pass p ∧
        e.state.state.pass p ≤ e.state.state.vtime + (S.w.proc p).stride * S.params.quantum) ∧
      ∀ point₀ e₀ calls, Reached S.stride.logged ⟨state, []⟩ point₀ e₀ →
        e.state.log = calls ++ e₀.state.log →
        e₀.state.state.vtime ≤ e.state.state.vtime ∧
        ∀ i j, (∀ p, p = i ∨ p = j → placesAfter e₀.state.log p = .ready ∧
            placesAfter e.state.log p = .ready ∧
              ∀ call ∈ calls, ¬(call.call.Leaves ∧ call.call.proc = p)) →
          |(S.w.proc i).stride * (S.stride.logged.executed e i - S.stride.logged.executed e₀ i) -
              (S.w.proc j).stride * (S.stride.logged.executed e j -
                S.stride.logged.executed e₀ j)| ≤
            ((S.w.proc i).stride + (S.w.proc j).stride) * S.params.quantum := by
  refine ⟨S.stride.logs state, fun point e reached => ?_⟩
  have valid : S.w.Valid := workloadValidate_ok started.validated
  obtain ⟨positive, -, start, quantum_eq, -⟩ := started.stride_created
  have launched := started.chronicled (stride_contract valid) stride_reports start
  have apart := reached.oneOut launched one
  obtain ⟨sp, -, here⟩ := reached.recounted launched
  have chronicle : Chronicle S.w policyStride (StrideInv S.w) state e.state.log
    e.state.state := here.chronicle
  refine ⟨(chronicle.strideShares valid positive.le quantum_eq apart).ready,
    fun point₀ e₀ calls reached₀ log => ?_⟩
  obtain ⟨sp₀, -, here₀⟩ := reached₀.recounted launched
  have before : Chronicle S.w policyStride (StrideInv S.w) state e₀.state.log
    e₀.state.state := here₀.chronicle
  have told := (reached.charged_eq launched stride_reports).1
  have told₀ := (reached₀.charged_eq launched stride_reports).1
  rw [log] at apart chronicle
  refine ⟨chronicle.vtime_mono valid before positive.le quantum_eq apart, fun i j ready => ?_⟩
  rw [log] at ready
  simp only [← told, ← told₀, log]
  exact chronicle.stride_fair valid before positive.le quantum_eq apart ready

/-! ## Two long processes -/

/-- Two processes that arrive together, with different shares. -/
def twinWorkload : Workload :=
  ⟨[processMake 1 0 20, { processMake 2 0 20 with tickets := 50, nice := 5 }]⟩

theorem twinWorkload_valid : twinWorkload.Valid where
  nonempty := by decide
  procs p mem := by
    simp only [twinWorkload, List.mem_cons, List.not_mem_nil, or_false] at mem
    rcases mem with rfl | rfl
    · constructor <;> decide
    · constructor <;> decide
  pids_nodup := by decide
  horizon_le := by decide

/-- Their run on one core without switch cost. -/
def twinSim : Sim Float := { pairSim with w := twinWorkload }

def twinOrder : List ArrivalKey := [⟨0, 1, 0⟩, ⟨0, 2, 1⟩]

theorem twinSim_order (P : Policy Float) : (twinSim.withPolicy P).logged.order = twinOrder := by
  have sorted : twinSim.order = twinOrder := List.mergeSort_of_pairwise (by decide)
  exact (show (twinSim.withPolicy P).logged.order = twinSim.order from rfl).trans sorted

/-- The first state of the run and the one after `k` rounds, from what is computed of them. -/
theorem twinSim_reached {P : Policy Float} {σ : Type} {f : (twinSim.withPolicy P).logged.Eng → σ}
    {k : Nat} {x y : σ}
    (run : ((P.create (twinSim.withPolicy P).initView {}).toOption.bind fun s =>
      ((twinSim.withPolicy P).logged.settledAfter ⟨s, []⟩ twinOrder 0).bind fun e₀ =>
        ((twinSim.withPolicy P).logged.settledAfter ⟨s, []⟩ twinOrder k).map fun e => (f e₀, f e)) =
      some (x, y)) :
    ∃ s e₀ e, P.create (twinSim.withPolicy P).initView {} = .ok s ∧
      Reached (twinSim.withPolicy P).logged ⟨s, []⟩ .settled e₀ ∧
      Reached (twinSim.withPolicy P).logged ⟨s, []⟩ .settled e ∧ f e₀ = x ∧ f e = y := by
  obtain ⟨s, created, run⟩ := Option.bind_eq_some_iff.mp run
  obtain ⟨e₀, first, run⟩ := Option.bind_eq_some_iff.mp run
  obtain ⟨e, last, seen⟩ := Option.map_eq_some_iff.mp run
  obtain ⟨seen₀, seen⟩ := Prod.mk.inj seen
  exact ⟨s, e₀, e, eq_ok_of_toOption created, .settledAfter (twinSim_order P) first,
    .settledAfter (twinSim_order P) last, seen₀, seen⟩

/-- What is seen of a state under stride scheduling. -/
structure StrideSeen where
  log : List TimedCall
  ran : Int × Int
  vtime : Int
  pass : Int × Int
  deriving DecidableEq

def strideSeen (e : twinSim.stride.logged.Eng) : StrideSeen where
  log := e.state.log
  ran := (twinSim.stride.logged.executed e 0, twinSim.stride.logged.executed e 1)
  vtime := e.state.state.vtime
  pass := (e.state.state.pass 0, e.state.state.pass 1)

/-- The calls while each of the two runs for a quantum. -/
def twinStrideCalls : List TimedCall :=
  [⟨4, .preempt 1 2⟩, ⟨2, .slice ⟨1, 2, schedNoDeadline⟩⟩, ⟨2, .preempt 0 2⟩,
    ⟨0, .slice ⟨0, 2, schedNoDeadline⟩⟩]

theorem twinSim_stride_run :
    ((policyStride.create twinSim.stride.initView {}).toOption.bind fun s =>
      (twinSim.stride.logged.settledAfter ⟨s, []⟩ twinOrder 0).bind fun e₀ =>
        (twinSim.stride.logged.settledAfter ⟨s, []⟩ twinOrder 2).map fun e =>
          (strideSeen e₀, strideSeen e)) =
      some (⟨[⟨0, .arrival 1⟩, ⟨0, .arrival 0⟩], (0, 0), 0, (0, 0)⟩,
        ⟨twinStrideCalls ++ [⟨0, .arrival 1⟩, ⟨0, .arrival 0⟩], (2, 2), 0, (20970, 41942)⟩) := by
  decide +kernel

theorem twinSim_stride_started {s : Stride}
    (created : policyStride.create twinSim.stride.initView {} = .ok s) : Started twinSim.stride s :=
  ⟨twinWorkload_valid.validates, rfl, created⟩

/-- After a quantum for each of the two, the one with half of the tickets has used twice the share
of the other one, and they are two quanta of their strides apart at most. -/
theorem twinSim_strideShares : ∃ s e₀ e, Reached twinSim.stride.logged ⟨s, []⟩ .settled e₀ ∧
    Reached twinSim.stride.logged ⟨s, []⟩ .settled e ∧
    e.state.log = twinStrideCalls ++ e₀.state.log ∧
    twinSim.stride.logged.executed e 0 - twinSim.stride.logged.executed e₀ 0 = 2 ∧
    twinSim.stride.logged.executed e 1 - twinSim.stride.logged.executed e₀ 1 = 2 ∧
    |(twinSim.w.proc 0).stride * 2 - (twinSim.w.proc 1).stride * 2| ≤
      ((twinSim.w.proc 0).stride + (twinSim.w.proc 1).stride) * twinSim.params.quantum ∧
    e.state.state.vtime ≤ e.state.state.pass 1 ∧
    e.state.state.pass 1 ≤
      e.state.state.vtime + (twinSim.w.proc 1).stride * twinSim.params.quantum := by
  obtain ⟨s, e₀, e, created, reached₀, reached, seen₀, seen⟩ :=
    twinSim_reached (P := policyStride) twinSim_stride_run
  simp only [strideSeen, StrideSeen.mk.injEq, Prod.mk.injEq] at seen₀ seen
  obtain ⟨log₀, ⟨ran₀, ran₀'⟩, -⟩ := seen₀
  obtain ⟨log, ⟨ran, ran'⟩, -⟩ := seen
  obtain ⟨-, points⟩ := stride_shares twinSim rfl (twinSim_stride_started created)
  obtain ⟨near, pairs⟩ := points _ e reached
  have split : e.state.log = twinStrideCalls ++ e₀.state.log := by rw [log, log₀]
  have share := (pairs _ e₀ _ reached₀ split).2 0 1 fun p kind => by
    rw [log₀, log]
    rcases kind with rfl | rfl
    · exact ⟨rfl, rfl, by simp [twinStrideCalls, HookCall.Leaves]⟩
    · exact ⟨rfl, rfl, by simp [twinStrideCalls, HookCall.Leaves]⟩
  rw [ran, ran', ran₀, ran₀', sub_zero] at share
  have ready : placesAfter e.state.log 1 = .ready := by
    rw [log]
    rfl
  exact ⟨s, e₀, e, reached₀, reached, split, by rw [ran, ran₀]; rfl, by rw [ran', ran₀']; rfl,
    share, near 1 ready⟩

/-- In every run of stride scheduling no pass exceeds the greatest stride for all ticks
charged so far, which fits into 64 bits, and so does every product and sum that a charge
computes. -/
theorem stride_fits (S : Sim D) {state : Stride} (started : Started S.stride state) :
    S.stride.Logs state ∧ ∀ point e, Reached S.stride.logged ⟨state, []⟩ point e →
      (∀ p, charged p e.state.log = S.stride.logged.executed e p) ∧
      History S.w S.stride.policy state e.state.log e.state.state ∧
      ∀ log s, log <:+ e.state.log → History S.w S.stride.policy state log s →
        PassesWithin s (stride1 * chargedAll S.w log) ∧ stride1 * chargedAll S.w log ≤ int64Max ∧
          ∀ call, call :: log <:+ e.state.log →
            ∀ x ∈ strideInts S.initView s call.call, InI64 x := by
  refine ⟨S.stride.logs state, fun point e reached => ?_⟩
  have valid : S.w.Valid := workloadValidate_ok started.validated
  obtain ⟨positive, total, start, -, zero⟩ := started.stride_created
  have launched := started.chronicled (stride_contract valid) stride_reports start
  obtain ⟨told, le⟩ := reached.charged_eq launched stride_reports
  obtain ⟨sp, -, here⟩ := reached.recounted launched
  have history : History S.w S.stride.policy state e.state.log e.state.state :=
    here.chronicle.mono fun _ => trivial
  have spent : chargedAll S.w e.state.log ≤ int64Max / stride1 :=
    (Finset.sum_le_sum fun p hp => le p (Finset.mem_range.mp hp)).trans total
  have fits : ∀ log, log <:+ e.state.log → stride1 * chargedAll S.w log ≤ int64Max := by
    rintro log ⟨calls, split⟩
    rw [← split] at spent history
    exact (mul_le_mul_of_nonneg_left (history.chargedAll_mono.trans spent) (by decide)).trans
      (Int.mul_ediv_self_le (by decide))
  refine ⟨told, history, fun log s suffix before => ?_⟩
  obtain ⟨-, within⟩ := before.passesWithin valid zero
  refine ⟨within, fits log suffix, fun call called => ?_⟩
  have room := fits _ called
  obtain ⟨calls, split⟩ := called
  rw [← split] at history
  obtain ⟨s', after⟩ := history.earlier
  cases after with
  | @call v now s₁ _ call _ earlier time ok inv legal run =>
      obtain ⟨low, high⟩ := (valid.proc (legal.inside ok)).stride_bounds
      have ran := legal.ran_nonneg
      have product := mul_le_mul_of_nonneg_right high ran
      have nonneg := mul_nonneg low ran
      have all : chargedAll S.w (⟨now, call⟩ :: log) = chargedAll S.w log + call.ran :=
        chargedAll_call legal ok
      rw [all, mul_add] at room
      have := within.pass_nonneg call.proc
      have := within.pass_le call.proc
      have greatest : stride1 ≤ int64Max := by decide
      have least : int64Min ≤ 0 := by decide
      have stride_eq : strideOf S.initView call.proc = (S.w.proc call.proc).stride :=
        strideOf_eq rfl call.proc
      simp only [strideInts, stride_eq, InI64, List.forall_mem_cons,
        List.not_mem_nil, false_imp_iff,
        implies_true, and_true]
      exact ⟨⟨by omega, by omega⟩, ⟨by omega, by omega⟩, by omega, by omega⟩

/-- After a quantum for each of the two processes four ticks are charged, and the last charge
leaves no integer out of the range. -/
theorem twinSim_strideFits : ∃ s e, Reached twinSim.stride.logged ⟨s, []⟩ .settled e ∧
    e.state.log = twinStrideCalls ++ [⟨0, .arrival 1⟩, ⟨0, .arrival 0⟩] ∧
    charged 0 e.state.log = 2 ∧ charged 1 e.state.log = 2 ∧
    e.state.state.pass 1 = 41942 ∧
    e.state.state.pass 1 ≤ stride1 * chargedAll twinSim.w e.state.log ∧
    stride1 * chargedAll twinSim.w e.state.log ≤ int64Max ∧
    ∃ s₁, ∀ x ∈ strideInts twinSim.initView s₁ (.preempt 1 2), InI64 x := by
  obtain ⟨s, e₀, e, created, -, reached, -, seen⟩ :=
    twinSim_reached (P := policyStride) twinSim_stride_run
  simp only [strideSeen, StrideSeen.mk.injEq, Prod.mk.injEq] at seen
  obtain ⟨log, ⟨ran, ran'⟩, -, -, pass⟩ := seen
  obtain ⟨-, points⟩ := stride_fits twinSim (twinSim_stride_started created)
  obtain ⟨told, history, fits⟩ := points _ e reached
  obtain ⟨within, total, -⟩ := fits _ _ (List.suffix_refl _) history
  have split : e.state.log = [⟨4, .preempt 1 2⟩] ++ e.state.log.tail := by
    rw [log]
    rfl
  rw [split] at history
  obtain ⟨s₁, before⟩ := history.earlier
  have charge := (fits _ s₁ (List.tail_suffix _) before).2.2 ⟨4, .preempt 1 2⟩
    (split ▸ List.suffix_refl _)
  exact ⟨s, e, reached, log, (told 0).trans ran, (told 1).trans ran', pass, within.pass_le 1, total,
    s₁, charge⟩

end Sim

end CpuSched
