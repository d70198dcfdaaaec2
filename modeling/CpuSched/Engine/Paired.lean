import CpuSched.Engine.AlikeRuns
import CpuSched.Policy.Paired

/-!
# Runs of policies that answer alike

Two simulations that differ in their policies end alike when one policy follows the other.
A policy follows the pair it belongs to, so the runs of two policies that match each other
end as the run of the pair does.
-/

namespace CpuSched

variable {D : Type} {P R : Policy D}

/-- The first policy follows the pair. -/
theorem Policy.follows_paired_left :
    P.Follows (P.paired R) (fun _ => True) fun st s => st.1 = s where
  preemptOnReady_eq := rfl
  onArrival {v st s st' p} same run := by
    subst same
    exact ⟨_, (map₂_mk_eq_some.mp run).1, rfl⟩
  wakeHook {v st s st' p} same run := by
    subst same
    exact ⟨_, (map₂_mk_eq_some.mp run).1, rfl⟩
  refuse {v st s st'} _ same run := by
    subst same
    exact ⟨_, (paired_nextSlice.mp run).1, rfl⟩
  pick {v st s st' slice} _ same run := by
    subst same
    exact ⟨_, slice, (paired_nextSlice.mp run).1, rfl, rfl, rfl, id, rfl⟩
  onPreempt hook := by
    obtain ⟨f, g, here, -, rfl⟩ := paired_onPreempt.mp hook
    refine ⟨f, here, fun {v st s st' p ran} same run => ?_⟩
    subst same
    exact ⟨_, (map₂_mk_eq_some.mp run).1, rfl⟩
  onBlock {v st s st' p ran} same run := by
    subst same
    exact ⟨_, (map₂_mk_eq_some.mp run).1, rfl⟩
  onComplete {v st s st' p ran} same run := by
    subst same
    exact ⟨_, (map₂_mk_eq_some.mp run).1, rfl⟩

/-- So does the second. -/
theorem Policy.follows_paired_right (preemptOnReady_eq : R.preemptOnReady = P.preemptOnReady) :
    R.Follows (P.paired R) (fun _ => True) fun st t => st.2 = t where
  preemptOnReady_eq := preemptOnReady_eq
  onArrival {v st t st' p} same run := by
    subst same
    exact ⟨_, (map₂_mk_eq_some.mp run).2, rfl⟩
  wakeHook {v st t st' p} same run := by
    subst same
    exact ⟨_, (map₂_mk_eq_some.mp run).2, rfl⟩
  refuse {v st t st'} _ same run := by
    subst same
    exact ⟨_, (paired_nextSlice.mp run).2, rfl⟩
  pick {v st t st' slice} _ same run := by
    subst same
    exact ⟨_, slice, (paired_nextSlice.mp run).2, rfl, rfl, rfl, id, rfl⟩
  onPreempt hook := by
    obtain ⟨f, g, -, there, rfl⟩ := paired_onPreempt.mp hook
    refine ⟨g, there, fun {v st t st' p ran} same run => ?_⟩
    subst same
    exact ⟨_, (map₂_mk_eq_some.mp run).2, rfl⟩
  onBlock {v st t st' p ran} same run := by
    subst same
    exact ⟨_, (map₂_mk_eq_some.mp run).2, rfl⟩
  onComplete {v st t st' p ran} same run := by
    subst same
    exact ⟨_, (map₂_mk_eq_some.mp run).2, rfl⟩

namespace Sim

variable [Double D] {S : Sim D} {Q : Policy D} {state : S.policy.State}
  {PInv : SchedView D → S.policy.State → Places → Prop}

/-- A run ends as that of a policy it follows. -/
theorem Launched.simRun_iff {View : SchedView D → Prop} {States : S.policy.State → Q.State → Prop}
    (launched : Launched S PInv state) (started : Started S state)
    (follows : Q.Follows S.policy View States)
    (views : ∀ {e}, Reached S state .settled e → View (S.view e)) {state' : Q.State}
    (started' : Started (S.withPolicy Q) state') (states : States state state') (r : SimResult) :
    (S.withPolicy Q).simRun = .ok r ↔ S.simRun = .ok r := by
  obtain ⟨e, sp, run, -, -⟩ := launched.first (I := fun _ => True)
  obtain ⟨e', run', alike⟩ := Alike.first follows (tapesKept_eq S.opt.maxSegments) states rfl run
  have run' : (S.withPolicy Q).processInstant ((S.withPolicy Q).initEngine state') = some e' :=
    run'
  have reached : Reached S state .settled e := .first run
  rw [started.simRun_eq, started'.simRun_eq, run, run']
  rcases launched.mainLoop loopFuel reached (reached.fuel_enough launched) with
    ⟨f, done, -, -⟩ | ⟨aborted, -⟩
  · obtain ⟨f', done', alike' | ⟨failed, g, k, -, running, alike', -⟩⟩ :=
      Alike.mainLoop launched follows (tapesKept_eq S.opt.maxSegments) views reached alike done
        fun _ {t t'} same failed => same ▸ failed
    · have done' : (S.withPolicy Q).mainLoop loopFuel e' = .done f' := done'
      simp only [done, done']
      exact Alike.finish_iff (tapesKept_eq S.opt.maxSegments) alike' r
    · exact absurd ((congrArg Tape.fail alike'.tapes).symm.trans (running_iff.mp running).2) failed
  · have aborted' : (S.withPolicy Q).mainLoop loopFuel e' = .aborted :=
      Alike.mainLoop_aborted launched follows (tapesKept_eq S.opt.maxSegments) views
        reached alike aborted fun same ok => same ▸ ok
    simp only [aborted, aborted']
    exact Iff.rfl

/-- Policies that match each other end their runs alike. -/
theorem Launched.simRun_iff_matched
    {Rel : SchedView D → S.policy.State → Q.State → Places → Prop}
    (launched : Launched S PInv state) (started : Started S state)
    (alike : Matches S.w S.policy Q PInv Rel) {state' : Q.State}
    (started' : Started (S.withPolicy Q) state')
    (rel : Rel S.initView state state' fun _ => .new) (r : SimResult) :
    (S.withPolicy Q).simRun = .ok r ↔ S.simRun = .ok r := by
  have both : Started (S.withPolicy (S.policy.paired Q)) (state, state') :=
    ⟨started.validated, started.options, paired_create started.created started'.created⟩
  have launched' : Launched (S.withPolicy (S.policy.paired Q)) (PairedInv PInv Rel)
      (state, state') :=
    ⟨launched.valid, checkOptions_ok launched.valid both.options, launched.contract.paired alike,
      launched.start, rel⟩
  have left := launched'.simRun_iff both Policy.follows_paired_left (fun _ => trivial)
    started rfl r
  have right := launched'.simRun_iff both
    (Policy.follows_paired_right alike.preemptOnReady_eq) (fun _ => trivial) started' rfl r
  exact right.trans left.symm

end Sim

end CpuSched
