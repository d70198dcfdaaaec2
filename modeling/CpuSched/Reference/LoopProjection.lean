import CpuSched.Engine.Projection
import CpuSched.Reference.TickLoop

/-!
# The tick loop and the state of the policy

The tick loop, too, touches the state of a policy through the hooks alone: with a policy
that only adds to its state, it is the same loop.
-/

namespace CpuSched

variable {D : Type} [Double D]

/-- The variables of the loop with another policy state. -/
abbrev RefEngine.map {σ τ : Type} (f : σ → τ) (r : RefEngine D σ) : RefEngine D τ where
  state := f r.state
  t := r.t
  phase := r.phase
  remaining := r.remaining
  burstLen := r.burstLen
  tau := r.tau
  wake := r.wake
  done := r.done
  cores := r.cores
  ticks := r.ticks
  start := r.start
  completion := r.completion
  switches := r.switches
  csTime := r.csTime

namespace Sim

variable {S : Sim D} {Q : Policy D} {f : Q.State → S.policy.State}

/-! ## Steps that call no hook -/

section Silent

variable (r : RefEngine D Q.State)

omit [Double D] in
theorem refStartRun_map (c : Nat) (length : Int) : S.refStartRun (r.map f) c length =
    ((S.withPolicy Q).refStartRun r c length).map (RefEngine.map f) := by
  simp only [refStartRun]
  cases (r.cores c).proc <;> rfl

omit [Double D] in
theorem refFinishSwitch_map (c : Nat) : S.refFinishSwitch (r.map f) c =
    ((S.withPolicy Q).refFinishSwitch r c).map (RefEngine.map f) := by
  simp only [refFinishSwitch]
  split_ifs
  · exact refStartRun_map r c _
  · rfl

omit [Double D] in
theorem refPlace_map (entry : Nat × Slice) : S.refPlace (r.map f) entry =
    ((S.withPolicy Q).refPlace r entry).map (RefEngine.map f) := by
  have direct : ∀ switches : Int, S.refStartRun (RefEngine.map f { r with
      cores := Function.update r.cores entry.1 { r.cores entry.1 with
        proc := some entry.2.proc, context := some entry.2.proc, length := entry.2.length }
      switches }) entry.1 entry.2.length = _ := fun switches => refStartRun_map _ _ _
  simp only [refPlace]
  split_ifs
  · rfl
  · rfl
  · exact direct _
  · exact direct _

omit [Double D] in
theorem refTick_map (c : Nat) : S.refTick (r.map f) c = ((S.withPolicy Q).refTick r c).map f := by
  simp only [refTick]
  cases (r.cores c).proc with
  | none => rfl
  | some p =>
      dsimp only
      split_ifs <;> rfl

omit [Double D] in
theorem refPass_map : S.refPass (r.map f) = ((S.withPolicy Q).refPass r).map f := by
  have ticks : ∀ (cs : List Nat) (r : RefEngine D Q.State),
      cs.foldl S.refTick (r.map f) = (cs.foldl (S.withPolicy Q).refTick r).map f := by
    intro cs
    induction cs with
    | nil => exact fun _ => rfl
    | cons c rest ih =>
        intro r
        rw [List.foldl_cons, List.foldl_cons, refTick_map, ih]
  simp only [refPass, ticks]

omit [Double D] in
/-- A loop whose steps agree. -/
theorem foldlM_map {α : Type} {step : S.Ref → α → Option S.Ref}
    {step' : (S.withPolicy Q).Ref → α → Option (S.withPolicy Q).Ref}
    (commutes : ∀ r a, step (r.map f) a = (step' r a).map (RefEngine.map f)) (l : List α) :
    l.foldlM step (r.map f) = (l.foldlM step' r).map (RefEngine.map f) := by
  induction l generalizing r with
  | nil => rfl
  | cons a rest ih =>
      rw [List.foldlM_cons, List.foldlM_cons]
      exact bind_map (commutes r a) fun r₁ => ih r₁

end Silent

/-! ## Steps that call hooks -/

section Calls

variable (proj : Q.Projects S.policy f)

omit [Double D] in
theorem refHook_map (r : RefEngine D Q.State)
    {g : SchedView D → S.policy.State → Option S.policy.State}
    {h : SchedView D → Q.State → Option Q.State} (commutes : ∀ v s, g v (f s) = (h v s).map f) :
    S.refHook (r.map f) g = ((S.withPolicy Q).refHook r h).map (RefEngine.map f) := by
  simp only [refHook, commutes, Option.map_map]
  rfl

omit [Double D] in
theorem refOptHook_map (r : RefEngine D Q.State)
    {g : Option (SchedView D → S.policy.State → Nat → Int → Option S.policy.State)}
    {h : Option (SchedView D → Q.State → Nat → Int → Option Q.State)} (p : Nat) (ran : Int)
    (commutes : ∀ v s, optCall g v (f s) p ran = (optCall h v s p ran).map f) :
    S.refOptHook (r.map f) g p ran =
      ((S.withPolicy Q).refOptHook r h p ran).map (RefEngine.map f) := by
  have called : ∀ {T : Sim D} (r : T.Ref)
      (g : Option (SchedView D → T.policy.State → Nat → Int → Option T.policy.State)),
      T.refOptHook r g p ran = (optCall g (T.refView r) r.state p ran).map fun state =>
        { r with state } := by
    intro T r g
    cases g <;> rfl
  refine (called (r.map f) g).trans
    (Eq.trans ?_ (congrArg _ (called (T := S.withPolicy Q) r h).symm))
  rw [commutes, Option.map_map, Option.map_map]
  rfl

include proj

theorem endSlice_map (r : RefEngine D Q.State) (c : Nat) : S.endSlice (r.map f) c =
    ((S.withPolicy Q).endSlice r c).map (RefEngine.map f) := by
  unfold endSlice
  dsimp only
  cases (r.cores c).proc with
  | none => rfl
  | some p =>
      dsimp only
      by_cases left : 0 < r.remaining p
      · rw [if_pos (show 0 < (S.refFree (r.map f) c).remaining p from left),
          if_pos (show 0 < ((S.withPolicy Q).refFree r c).remaining p from left)]
        cases target : S.policy.onPreempt with
        | none =>
            have source : Q.onPreempt = none := proj.preempt_none.mp target
            simp [source]
        | some g =>
            cases source : Q.onPreempt with
            | none => simp [proj.preempt_none.mpr source] at target
            | some h =>
                exact refHook_map ((S.withPolicy Q).refFree r c) fun v s =>
                  proj.onPreempt v s p _ g h target source
      · rw [if_neg (show ¬ 0 < (S.refFree (r.map f) c).remaining p from left),
          if_neg (show ¬ 0 < ((S.withPolicy Q).refFree r c).remaining p from left)]
        by_cases last : r.phase p + 1 = (S.w.proc p).phaseCount
        · rw [if_pos (show (S.refFree (r.map f) c).phase p + 1 = _ from last),
            if_pos (show ((S.withPolicy Q).refFree r c).phase p + 1 = _ from last)]
          exact refOptHook_map ((S.withPolicy Q).refComplete { (S.withPolicy Q).refFree r c with
            tau := (S.withPolicy Q).refTau ((S.withPolicy Q).refFree r c) p } p) p _
            fun v s => proj.onComplete v s p _
        · rw [if_neg (show ¬ (S.refFree (r.map f) c).phase p + 1 = _ from last),
            if_neg (show ¬ ((S.withPolicy Q).refFree r c).phase p + 1 = _ from last)]
          exact refOptHook_map ((S.withPolicy Q).refBlock { (S.withPolicy Q).refFree r c with
            tau := (S.withPolicy Q).refTau ((S.withPolicy Q).refFree r c) p } p) p _
            fun v s => proj.onBlock v s p _

omit [Double D] in
theorem refArrivals_map (r : RefEngine D Q.State) : S.refArrivals (r.map f) =
    ((S.withPolicy Q).refArrivals r).map (RefEngine.map f) := by
  unfold refArrivals
  refine foldlM_map r ?_ _
  intro r p
  exact refHook_map r fun v s => proj.onArrival v s p

omit [Double D] in
theorem refWakes_map (r : RefEngine D Q.State) : S.refWakes (r.map f) =
    ((S.withPolicy Q).refWakes r).map (RefEngine.map f) := by
  unfold refWakes
  refine foldlM_map r ?_ _
  intro r p
  exact refHook_map { r with wake := Function.update r.wake p none } fun v s => proj.wakeHook v s p

theorem refFinish_map (r : RefEngine D Q.State) (c : Nat) : S.refFinish (r.map f) c =
    ((S.withPolicy Q).refFinish r c).map (RefEngine.map f) := by
  simp only [refFinish]
  split_ifs
  · exact endSlice_map proj r c
  · rfl

theorem refHandBack_map (r : RefEngine D Q.State) (c : Nat) : S.refHandBack (r.map f) c =
    ((S.withPolicy Q).refHandBack r c).map (RefEngine.map f) := by
  simp only [refHandBack]
  split_ifs
  · exact endSlice_map proj r c
  · rfl

theorem refEvents_map (r : RefEngine D Q.State) : S.refEvents (r.map f) =
    ((S.withPolicy Q).refEvents r).map (RefEngine.map f) := by
  refine bind_map (refArrivals_map proj r) fun r₁ => ?_
  refine bind_map (refWakes_map proj r₁) fun r₂ => ?_
  refine bind_map (foldlM_map r₂ (refFinish_map proj) _) fun r₃ => ?_
  refine bind_map (foldlM_map r₃ refFinishSwitch_map _) fun r₄ => ?_
  rw [proj.preemptOnReady_eq]
  split_ifs
  · exact foldlM_map r₄ (refHandBack_map proj) _
  · rfl

omit [Double D] in
theorem refPicks_map (nfree : Nat) (r : RefEngine D Q.State) : S.refPicks nfree (r.map f) =
    ((S.withPolicy Q).refPicks nfree r).map (Prod.map (RefEngine.map f) id) := by
  induction nfree generalizing r with
  | zero => rfl
  | succ nfree ih =>
      refine bind_map (proj.nextSlice _ _) fun (state, pick) => ?_
      cases pick with
      | none => rfl
      | some s => exact bind_map (ih { r with state }) fun _ => rfl

omit [Double D] in
theorem refDispatch_map (r : RefEngine D Q.State) : S.refDispatch (r.map f) =
    ((S.withPolicy Q).refDispatch r).map (RefEngine.map f) := by
  refine bind_map (refPicks_map proj _ r) fun (r₁, picks) => ?_
  have homes : ∀ (free : List Nat) (picks : List Slice) (taken : List Nat),
      S.refHomes (r₁.map f) free picks taken = (S.withPolicy Q).refHomes r₁ free picks taken := by
    intro free picks
    induction picks with
    | nil => exact fun _ => rfl
    | cons s rest ih =>
        intro taken
        simp only [refHomes, ih]
  simp only [Prod.map, id, homes]
  refine bind_map (g := id) Option.map_id'.symm fun rest => ?_
  exact foldlM_map r₁ refPlace_map _

theorem refLoop_map (fuel : Nat) (r : RefEngine D Q.State) : S.refLoop fuel (r.map f) =
    ((S.withPolicy Q).refLoop fuel r).map (RefEngine.map f) := by
  induction fuel generalizing r with
  | zero => rfl
  | succ fuel ih =>
      simp only [refLoop]
      split_ifs
      · refine bind_map (refEvents_map proj r) fun r₁ => ?_
        split_ifs
        · rfl
        · refine bind_map (refDispatch_map proj r₁) fun r₂ => ?_
          rw [refPass_map]
          exact ih _
      · rfl

/-- The loop that drives `Q` is the loop that drives `P`. -/
theorem refSimulate_map (fuel : Nat) (state : Q.State) : S.refSimulate fuel (f state) =
    ((S.withPolicy Q).refSimulate fuel state).map (RefEngine.map f) :=
  refLoop_map proj fuel ((S.withPolicy Q).refInit state)

end Calls

end Sim

end CpuSched
