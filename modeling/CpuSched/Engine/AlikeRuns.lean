import CpuSched.Engine.Alike
import CpuSched.Engine.Termination

/-!
# Two runs side by side

Rounds of the main loop, whole runs and the idle time at their end, for two simulations
whose steps agree.  The second run may stop earlier, when its segment limit is reached.
-/

namespace CpuSched

namespace Sim

variable {D : Type} [Double D] {S : Sim D} {Q : Policy D} {limit : Nat}
variable {States : S.policy.State → Q.State → Prop} {Tapes : Tape → Tape → Prop}
  {View : SchedView D → Prop} {e e₁ : S.Eng} {e' : (S.alter Q limit).Eng}
  {PInv : SchedView D → S.policy.State → Places → Prop} {state : S.policy.State}

section Alike

variable {σ τ : Type} {cores : Nat} {R : σ → τ → Prop} {e : Engine D σ} {e' : Engine D τ}

omit [Double D] in
theorem Alike.tapes (alike : Alike cores R Tapes e e') : Tapes e.tape e'.tape := by
  obtain ⟨s, t, len, rfl, -, tapes, -⟩ := alike
  exact tapes

omit [Double D] in
theorem Alike.completed_eq (alike : Alike cores R Tapes e e') : e'.completed = e.completed := by
  obtain ⟨s, t, len, rfl, -⟩ := alike
  rfl

end Alike

omit [Double D] in
theorem Alike.later (alike : Alike S.opt.cores States Tapes e e') (t : Int) :
    Alike S.opt.cores States Tapes { e with now := t } { e' with now := t } := by
  obtain ⟨s, t, len, rfl, states, tapes, fit⟩ := alike
  exact ⟨s, t, len, rfl, states, tapes, fit⟩

omit [Double D] in
theorem Alike.nextEvent_eq (alike : Alike S.opt.cores States Tapes e e') :
    (S.alter Q limit).nextEvent e' = S.nextEvent e := by
  obtain ⟨s, t, len, rfl, -⟩ := alike
  rfl

/-! ## Rounds of the main loop -/

section Rounds

variable (launched : Launched S PInv state)

include launched

/-- In a run no process is on two cores. -/
theorem Reached.oneCoreEach {point : LoopPoint} (reached : Reached S state point e) :
    OneCoreEach S.opt.cores e := by
  obtain ⟨sp, course, -⟩ := reached.course launched RunInv.true
  obtain ⟨budget, sound⟩ := course.sound
  intro c hc c' hc' p on on'
  obtain ⟨s, seat⟩ := sound.cores.owner c hc p on
  obtain ⟨s', seat'⟩ := sound.cores.owner c' hc' p on'
  exact (Spot.core.inj (seat'.symm.trans seat)).1

variable (follows : Q.Follows S.policy View States) (kept : TapesKept S.opt.maxSegments limit Tapes)
  (views : ∀ {e}, Reached S state .settled e → View (S.view e))

include follows kept views

/-- A round that succeeds. -/
theorem Alike.round (reached : Reached S state .settled e) (running : S.running e = true)
    (alike : Alike S.opt.cores States Tapes e e') (run : S.iterate e = some e₁) :
    ∃ e₁', (S.alter Q limit).iterate e' = some e₁' ∧ Alike S.opt.cores States Tapes e₁ e₁' := by
  obtain ⟨e₂, dispatched, rest⟩ := Option.bind_eq_some_iff.mp run
  obtain ⟨⟨⟩, event, instant⟩ := Option.bind_eq_some_iff.mp rest
  have one := (reached.dispatch running dispatched).oneCoreEach launched
  obtain ⟨e₂', dispatched', alike₂⟩ := alike.dispatch follows kept (views reached) dispatched
  obtain ⟨e₁', instant', alike₁⟩ :=
    (alike₂.later (S.nextEvent e₂)).processInstant follows kept one instant
  refine ⟨e₁', ?_, alike₁⟩
  have event' : (S.alter Q limit).build.assert
    ((S.alter Q limit).nextEvent e₂' ≠ int64Max) = some () := by
    rw [alike₂.nextEvent_eq]
    exact event
  rw [iterate_of dispatched', event', alike₂.nextEvent_eq]
  exact instant'

/-- A round that an assertion ends. -/
theorem Alike.round_none (reached : Reached S state .settled e) (running : S.running e = true)
    (alike : Alike S.opt.cores States Tapes e e') (run : S.iterate e = none) :
    (S.alter Q limit).iterate e' = none := by
  obtain ⟨sp, course, -⟩ := reached.course launched RunInv.true
  obtain ⟨e₂, sp₂, dispatched, -, course₂, -⟩ := launched.dispatch
    (I := fun _ => True) course running
  obtain ⟨-, -, e₃, sp₃, instant, -⟩ := launched.advance (I := fun _ => True) course₂
  obtain ⟨e₂', dispatched', alike₂⟩ := alike.dispatch follows kept (views reached) dispatched
  rw [iterate_of dispatched] at run
  rw [iterate_of dispatched', alike₂.nextEvent_eq]
  rcases assert_eq S.build (S.nextEvent e₂ ≠ int64Max) with event | ⟨-, -, stop⟩
  · rw [event] at run
    cases instant.symm.trans run
  · have stop' : (S.alter Q limit).build.assert (S.nextEvent e₂ ≠ int64Max) = none := stop
    rw [stop']
    rfl

/-- The second run ends where the first does, or it stops with a failure on the way. -/
theorem Alike.mainLoop {fuel : Nat} {f : S.Eng} (reached : Reached S state .settled e)
    (alike : Alike S.opt.cores States Tapes e e') (done : S.mainLoop fuel e = .done f)
    (fails : f.fail ≠ .ok → ∀ {t t'}, Tapes t t' → t.fail ≠ .ok → t'.fail ≠ .ok) :
    ∃ f', (S.alter Q limit).mainLoop fuel e' = .done f' ∧
      (Alike S.opt.cores States Tapes f f' ∨ (f'.fail ≠ .ok ∧ ∃ g k, Reached S state .settled g ∧
        S.running g = true ∧ Alike S.opt.cores States Tapes g f' ∧ S.mainLoop k g = .done f)) := by
  have running_eq : ∀ {e e'}, Alike S.opt.cores States Tapes e e' → e'.fail = .ok →
      S.running e = true → (S.alter Q limit).running e' = true := by
    intro e e' alike ok running
    refine running_iff.mpr ⟨?_, ok⟩
    rw [alike.completed_eq]
    exact (running_iff.mp running).1
  have stopped : ∀ {e e'}, Alike S.opt.cores States Tapes e e' → S.running e = false → e = f →
      (S.alter Q limit).running e' = false := by
    rintro e e' alike stop rfl
    by_contra running
    obtain ⟨unfinished, ok⟩ := running_iff.mp (Bool.eq_true_of_not_eq_false running)
    rw [alike.completed_eq] at unfinished
    by_cases failed : e.fail = .ok
    · rw [running_iff.mpr ⟨unfinished, failed⟩] at stop
      cases stop
    · exact fails failed alike.tapes failed ok
  induction fuel generalizing e e' with
  | zero =>
      rw [Sim.mainLoop] at done
      split_ifs at done with running
      cases done
      have stop := stopped alike (Bool.eq_false_of_not_eq_true running) rfl
      exact ⟨e', by rw [Sim.mainLoop, stop]; rfl, .inl alike⟩
  | succ fuel ih =>
      rw [Sim.mainLoop] at done
      by_cases running : S.running e = true
      · by_cases ok : e'.fail = .ok
        · rw [if_pos running] at done
          rw [Sim.mainLoop, if_pos (running_eq alike ok running)]
          cases run : S.iterate e with
          | none =>
              rw [run] at done
              cases done
          | some e₁ =>
              rw [run] at done
              obtain ⟨e₁', run', alike₁⟩ :=
                alike.round launched follows kept views reached running run
              rw [run']
              rcases launched.iterate reached running with ⟨e₂, run₂, reached₂, -⟩ | ⟨run₂, -⟩
              · cases run₂.symm.trans run
                exact ih reached₂ alike₁ done
              · cases run₂.symm.trans run
        · refine ⟨e', ?_, .inr ⟨ok, e, fuel + 1, reached, running, alike, by rwa [Sim.mainLoop]⟩⟩
          have stop : (S.alter Q limit).running e' = false :=
            Bool.eq_false_of_not_eq_true fun running => ok (running_iff.mp running).2
          rw [Sim.mainLoop, stop]
          rfl
      · rw [if_neg running] at done
        cases done
        have stop := stopped alike (Bool.eq_false_of_not_eq_true running) rfl
        exact ⟨e', by rw [Sim.mainLoop, stop]; rfl, .inl alike⟩

/-- If an assertion ends the first run, it ends the second. -/
theorem Alike.mainLoop_aborted {fuel : Nat} (reached : Reached S state .settled e)
    (alike : Alike S.opt.cores States Tapes e e') (aborted : S.mainLoop fuel e = .aborted)
    (ok : ∀ {t t'}, Tapes t t' → t.fail = .ok → t'.fail = .ok) :
    (S.alter Q limit).mainLoop fuel e' = .aborted := by
  induction fuel generalizing e e' with
  | zero =>
      rw [Sim.mainLoop] at aborted
      split_ifs at aborted
  | succ fuel ih =>
      rw [Sim.mainLoop] at aborted ⊢
      by_cases running : S.running e = true
      · have running' : (S.alter Q limit).running e' = true := by
          obtain ⟨unfinished, fine⟩ := running_iff.mp running
          exact running_iff.mpr ⟨by rw [alike.completed_eq]; exact unfinished, ok alike.tapes fine⟩
        rw [if_pos running] at aborted
        rw [if_pos running']
        rcases launched.iterate reached running with ⟨e₂, run₂, reached₂, -⟩ | ⟨run₂, -⟩
        · rw [run₂] at aborted
          obtain ⟨e₂', run₂', alike₂⟩ :=
            alike.round launched follows kept views reached running run₂
          rw [run₂']
          exact ih reached₂ alike₂ aborted
        · rw [alike.round_none launched follows kept views reached running run₂]
      · rw [if_neg running] at aborted
        cases aborted

end Rounds

/-! ## The first instant and the last segments -/

omit [Double D] in
/-- Two runs start alike. -/
theorem Alike.init (start : Q.State) (states : States state start)
    (tapes : Tapes ⟨fun _ => [], 0, .ok⟩ ⟨fun _ => [], 0, .ok⟩) :
    Alike S.opt.cores States Tapes (S.initEngine state) ((S.alter Q limit).initEngine start) :=
  ⟨start, ⟨fun _ => [], 0, .ok⟩, fun _ => 0, rfl, states, tapes, fun c _ p on => by cases on⟩

/-- The first instants agree. -/
theorem Alike.first {start : Q.State} (follows : Q.Follows S.policy View States)
    (kept : TapesKept S.opt.maxSegments limit Tapes) (states : States state start)
    (tapes : Tapes ⟨fun _ => [], 0, .ok⟩ ⟨fun _ => [], 0, .ok⟩)
    (run : S.processInstant (S.initEngine state) = some e) :
    ∃ e', (S.alter Q limit).processInstant ((S.alter Q limit).initEngine start) = some e' ∧
      Alike S.opt.cores States Tapes e e' :=
  (Alike.init start states tapes).processInstant follows kept (fun c _ c' _ p on => by cases on) run

omit [Double D] in
/-- The idle time after the last event. -/
theorem Alike.trailing (kept : TapesKept S.opt.maxSegments limit Tapes) (cs : List Nat)
    (alike : Alike S.opt.cores States Tapes e e') :
    Alike S.opt.cores States Tapes (cs.foldl S.appendTrailing e)
      (cs.foldl (S.alter Q limit).appendTrailing e') := by
  induction cs generalizing e e' with
  | nil => exact alike
  | cons c rest ih =>
      refine ih ?_
      obtain ⟨s, t, len, rfl, states, tapes, fit⟩ := alike
      refine ⟨s, t.append limit c (e.cores c).freeSince e.now none .idle, len, ?_, ?_, ?_, ?_⟩
      · unfold appendTrailing
        rw [recast_append]
        exact append_recast ..
      · unfold appendTrailing
        rw [append_eq]
        exact states
      · unfold appendTrailing
        rw [append_tape]
        exact kept.append _ _ _ _ _ tapes
      · unfold appendTrailing
        rw [append_eq]
        exact fit

omit [Double D] in
/-- What is handed out depends on the engine and on the timelines alone. -/
theorem Alike.result_eq {e' : Engine D Q.State} (limit : Nat)
    (alike : Alike S.opt.cores States Tapes e e')
    (timelines : e'.timelines = e.timelines) : (S.alter Q limit).result e' = S.result e := by
  obtain ⟨s, t, len, rfl, -⟩ := alike
  have timelines : t.timelines = e.timelines := timelines
  simp only [result, timelines]
  rfl

omit [Double D] in
/-- Writing keeps equal tapes equal. -/
theorem tapesKept_eq (limit : Nat) : TapesKept limit limit Eq where
  append := by
    rintro t _ c start stop proc kind rfl
    rfl
  overflow := by
    rintro t _ rfl
    rfl

omit [Double D] in
/-- Runs that wrote the same tape hand out the same. -/
theorem Alike.finish_iff (kept : TapesKept S.opt.maxSegments limit Eq)
    (alike : Alike S.opt.cores States Eq e e') (r : SimResult) :
    (S.alter Q limit).finish (.done e') = .ok r ↔ S.finish (.done e) = .ok r := by
  have trailing := alike.trailing kept (List.range S.opt.cores)
  have tapes := trailing.tapes
  have fails := congrArg Tape.fail tapes
  have results := trailing.result_eq limit (congrArg Tape.timelines tapes.symm)
  have fails : ((List.range S.opt.cores).foldl S.appendTrailing e).fail =
      ((List.range S.opt.cores).foldl (S.alter Q limit).appendTrailing e').fail := fails
  unfold finish
  dsimp only
  rw [← fails]
  split_ifs with ok
  · rw [results]
  · exact ⟨nofun, nofun⟩

end Sim

end CpuSched
