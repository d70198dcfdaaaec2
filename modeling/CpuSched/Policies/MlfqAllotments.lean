import CpuSched.Policies.MlfqBoosts

/-!
# The allotments of MLFQ

A tally kept beside the calls counts, for each process, level and boost epoch, the ticks
executed in the slices that were dispatched from that level in that epoch: a stay at a
level lasts until a demotion or a boost, and within an epoch a process only moves down.
The tally reads the level from which a process is taken and the ticks that the engine
reports, none of the fields by which the policy keeps its own account.
-/

namespace CpuSched

variable {D : Type} {w : Workload} {params : PolicyParams}

/-! ## The tally -/

/-- The number of boosts up to `now`. -/
def boostEpoch (params : PolicyParams) (now : Int) : Int :=
  if 0 < params.mlfqBoost then now / params.mlfqBoost else 0

/-- The level that `mlfq_next_slice` takes a process from. -/
def dispatchLevel (v : SchedView D) (s : Mlfq) : Option Nat :=
  (List.range (maybeBoost v s).levels).find? fun l => ((maybeBoost v s).head l).isSome

/-- What the calls tell about the stays at the levels. -/
structure Tally where
  /-- The level of the latest dispatch. -/
  level : Nat → Nat
  /-- The boost epoch of the latest dispatch. -/
  epoch : Nat → Int
  /-- The ticks executed in the slices dispatched from a level in an epoch. -/
  ran : Nat → Nat → Int → Int
  /-- The level and epoch of a stay whose ticks reached the allotment when its last slice
  ended, until the next dispatch. -/
  full : Nat → Option (Nat × Int)

namespace Tally

/-- Nothing has been dispatched. -/
def start : Tally := ⟨fun _ => 0, fun _ => 0, fun _ _ _ => 0, fun _ => none⟩

/-- `p` is dispatched. -/
def dispatch (params : PolicyParams) (v : SchedView D) (s : Mlfq) (p : Nat) (t : Tally) : Tally :=
  { t with
    level := Function.update t.level p ((dispatchLevel v s).getD 0)
    epoch := Function.update t.epoch p (boostEpoch params v.now)
    full := Function.update t.full p none }

/-- The slice of `p` ends after `ran` ticks. -/
def ended (p : Nat) (ran : Int) (t : Tally) : Tally :=
  { t with
    ran := fun q l e =>
      if q = p ∧ l = t.level p ∧ e = t.epoch p then t.ran q l e + ran else t.ran q l e }

/-- The slice of `p` ends before the process does; no boost came in between when the
epoch is still that of the dispatch. -/
def handBack (params : PolicyParams) (v : SchedView D) (p : Nat) (ran : Int) (t : Tally) : Tally :=
  let u := t.ended p ran
  if t.level p + 1 < params.mlfqLevels ∧ boostEpoch params v.now = t.epoch p ∧
      u.ran p (t.level p) (t.epoch p) = params.mlfqAllotment (t.level p) then
    { u with full := Function.update u.full p (some (t.level p, t.epoch p)) }
  else u

/-- The tally after a call of the policy in the state `s`. -/
def after (params : PolicyParams) (v : SchedView D) (s : Mlfq) (t : Tally) : Call →
    Option Slice → Tally
  | .next, some slice => t.dispatch params v s slice.proc
  | .preempt p ran, _ => t.handBack params v p ran
  | .block p ran, _ => t.handBack params v p ran
  | .complete p ran, _ => t.ended p ran
  | _, _ => t

end Tally

/-- The states of MLFQ that calls of the protocol reach, with the tally of these calls. -/
inductive Tallied (w : Workload) (params : PolicyParams) :
    SchedView D → Mlfq → Places → Tally → Prop
  | create {v s} (view : ViewOk w v fun _ => .new) (run : mlfqCreate v params = .ok s) :
      Tallied w params v s (fun _ => .new) .start
  | lend {v v' s pl t} (before : Tallied w params v s pl t) (view : ViewOk w v' pl)
      (step : ViewStep pl v v') : Tallied w params v' s pl t
  | call {v s s' pl t c r} (before : Tallied w params v s pl t) (allowed : c.Allowed w v pl)
      (run : policyMlfq.call v s c = some (s', r)) :
      Tallied w params v s' (c.after pl r) (t.after params v s c r)

/-- The tally exists in every state that the protocol reaches. -/
theorem Protocol.tallied {v : SchedView D} {s : (policyMlfq (D := D)).State} {pl : Places}
    (run : Protocol w policyMlfq params v s pl) : ∃ t, Tallied w params v s pl t := by
  induction run with
  | create view run => exact ⟨_, .create view run⟩
  | lend before view step ih =>
      obtain ⟨t, tallied⟩ := ih
      exact ⟨_, .lend tallied view step⟩
  | @arrival v s s' pl p before call run ih =>
      obtain ⟨t, tallied⟩ := ih
      exact ⟨_, .call (c := .arrival p) (r := none) tallied call
        (congrArg (Option.map (·, none)) run)⟩
  | @wake v s s' pl p before call run ih =>
      obtain ⟨t, tallied⟩ := ih
      exact ⟨_, .call (c := .wake p) (r := none) tallied call (congrArg (Option.map (·, none)) run)⟩
  | next before early run ih =>
      obtain ⟨t, tallied⟩ := ih
      exact ⟨_, .call (c := .next) tallied early run⟩
  | @preempt v s s' pl p ran f before call pos hook run ih =>
      obtain ⟨t, tallied⟩ := ih
      obtain rfl := Option.some.inj hook
      exact ⟨_, .call (c := .preempt p ran) (r := none) tallied ⟨call, pos⟩
        (congrArg (Option.map (·, none)) run)⟩
  | @block v s s' pl p ran before call more run ih =>
      obtain ⟨t, tallied⟩ := ih
      exact ⟨_, .call (c := .block p ran) (r := none) tallied ⟨call, more⟩
        (congrArg (Option.map (·, none)) run)⟩
  | @complete v s s' pl p ran before call run ih =>
      obtain ⟨t, tallied⟩ := ih
      exact ⟨_, .call (c := .complete p ran) (r := none) tallied call
        (congrArg (Option.map (·, none)) run)⟩

/-! ## The account of the policy -/

/-- How the tally agrees with the account that the reference keeps. -/
structure TallyOk (params : PolicyParams) (a : RefMlfq) (pl : Places) (t : Tally) : Prop where
  levels_eq : a.levels = params.mlfqLevels
  allot_eq : a.allot = params.mlfqAllotment
  boost_eq : a.boost = params.mlfqBoost
  still : a.boost = 0 → a.epoch = 0
  within : ∀ p l e, l + 1 < params.mlfqLevels → t.ran p l e ≤ params.mlfqAllotment l
  future : ∀ p l e, a.epoch < e → t.ran p l e = 0
  deeper : ∀ p l, a.level p < l → t.ran p l a.epoch = 0
  here : ∀ p, pl p ≠ .done → t.ran p (a.level p) a.epoch = a.used p
  fresh : ∀ p, pl p = .new → t.level p = 0 ∧ ∀ l e, t.ran p l e = 0
  order : ∀ p, t.epoch p ≤ a.epoch ∧ (t.epoch p = a.epoch → t.level p ≤ a.level p)
  out : ∀ p slice, pl p = .out slice → t.epoch p = a.dispatchedIn p ∧
    (t.epoch p = a.epoch → t.level p = a.level p) ∧ (t.level p + 1 < params.mlfqLevels →
      t.ran p (t.level p) (t.epoch p) + slice.length ≤ params.mlfqAllotment (t.level p))
  full : ∀ p l e, t.full p = some (l, e) → pl p ≠ .new ∧ (∀ slice, pl p ≠ .out slice) ∧
    e ≤ a.epoch ∧ a.level p = if e = a.epoch then l + 1 else 0

namespace TallyOk

variable {a b : RefMlfq} {pl : Places} {t : Tally} {p : Nat} {z : Place}

/-- The queues and the rests of the slices do not count. -/
theorem congr (ok : TallyOk params a pl t) (levels : b.levels = a.levels)
    (allot : b.allot = a.allot)
    (boost : b.boost = a.boost) (epoch : b.epoch = a.epoch) (level : b.level = a.level)
    (used : b.used = a.used) (dispatchedIn : b.dispatchedIn = a.dispatchedIn) :
    TallyOk params b pl t := by
  refine ⟨levels.trans ok.levels_eq, allot.trans ok.allot_eq,
    boost.trans ok.boost_eq, ?_, ok.within,
    ?_, ?_, ?_, ok.fresh, ?_, ?_, ?_⟩
  · rw [boost, epoch]
    exact ok.still
  · rw [epoch]
    exact ok.future
  · rw [epoch, level]
    exact ok.deeper
  · rw [epoch, level, used]
    exact ok.here
  · rw [epoch, level]
    exact ok.order
  · rw [epoch, level, dispatchedIn]
    exact ok.out
  · rw [epoch, level]
    exact ok.full

/-- A boost begins an epoch in which nothing has run. -/
theorem boost (ok : TallyOk params a pl t) {v : SchedView D} (inv : RefMlfqOk a v.now pl) :
    TallyOk params (a.doBoost v) pl t ∧ (a.doBoost v).epoch = boostEpoch params v.now := by
  obtain ⟨-, epoch_eq, boost_eq⟩ := inv.boost (v := v) rfl
  have nonneg := inv.boost_nonneg
  refine ⟨?_, ?_⟩
  · by_cases idle : a.boost = 0 ∨ v.now / a.boost = a.epoch
    · rwa [RefMlfq.doBoost_idle idle]
    · have le := inv.epoch_le (by omega)
      rw [RefMlfq.doBoost_due idle]
      exact { ok with
        still := fun zero => absurd (.inl zero) idle
        future := fun q l e lt => ok.future q l e (by dsimp only at lt; omega)
        deeper := fun q l _ => ok.future q l _ (by dsimp only; omega)
        here := fun q _ => ok.future q 0 _ (by dsimp only; omega)
        order := fun q => by
          have := (ok.order q).1
          exact ⟨by dsimp only; omega, fun now_ => by dsimp only at now_; omega⟩
        out := fun q slice hq => by
          have := inv.dispatched_le q slice hq
          obtain ⟨same, -, room⟩ := ok.out q slice hq
          exact ⟨same, fun now_ => by dsimp only at now_; omega, room⟩
        full := fun q l e hq => by
          obtain ⟨known, off, le', -⟩ := ok.full q l e hq
          refine ⟨known, off, by dsimp only; omega, ?_⟩
          dsimp only
          rw [if_neg (by omega)] }
  · rw [boostEpoch, ← ok.boost_eq]
    by_cases pos : 0 < a.boost
    · rw [if_pos pos, epoch_eq pos]
    · have zero : a.boost = 0 := by omega
      rw [if_neg pos, RefMlfq.doBoost_idle (.inl zero), ok.still zero]

/-- A process that is on no core and stays off the cores. -/
theorem other (ok : TallyOk params a pl t) (off : ∀ slice, pl p ≠ .out slice)
    (stays : ∀ slice, z ≠ .out slice) (known : z ≠ .new) (alive : z = .done ∨ pl p ≠ .done) :
    TallyOk params a (pl.move p z) t :=
  { ok with
    here := fun q hq => by
      by_cases same : q = p
      · subst same
        rw [pl.move_self] at hq
        exact ok.here q (alive.resolve_left hq)
      · rw [pl.move_of_ne _ same] at hq
        exact ok.here q hq
    fresh := fun q hq => by
      by_cases same : q = p
      · subst same
        rw [pl.move_self] at hq
        exact absurd hq known
      · rw [pl.move_of_ne _ same] at hq
        exact ok.fresh q hq
    out := fun q slice hq => by
      by_cases same : q = p
      · subst same
        rw [pl.move_self] at hq
        exact absurd hq (stays slice)
      · rw [pl.move_of_ne _ same] at hq
        exact ok.out q slice hq
    full := fun q l e hq => by
      obtain ⟨known', off', le, level⟩ := ok.full q l e hq
      by_cases same : q = p
      · subst same
        rw [pl.move_self]
        exact ⟨known, stays, le, level⟩
      · rw [pl.move_of_ne _ same]
        exact ⟨known', off', le, level⟩ }

/-- A process arrives. -/
theorem arrive (ok : TallyOk params a pl t) (new : pl p = .new) :
    TallyOk params { a with
      level := Function.update a.level p 0
      used := Function.update a.used p 0 } (pl.move p .ready) t := by
  have off : ∀ slice, pl p ≠ .out slice := by simp [new]
  have reset : TallyOk params { a with
      level := Function.update a.level p 0
      used := Function.update a.used p 0 } pl t :=
    { ok with
      deeper := fun q l lt => by
        by_cases same : q = p
        · exact same ▸ (ok.fresh p new).2 l _
        · simp only [Function.update_of_ne same] at lt
          exact ok.deeper q l lt
      here := fun q hq => by
        by_cases same : q = p
        · subst same
          simp only [Function.update_self]
          exact (ok.fresh q new).2 0 _
        · simp only [Function.update_of_ne same]
          exact ok.here q hq
      order := fun q => by
        by_cases same : q = p
        · subst same
          exact ⟨(ok.order q).1, fun _ => by simp [(ok.fresh q new).1]⟩
        · simp only [Function.update_of_ne same]
          exact ok.order q
      out := fun q slice hq => by
        have same : q ≠ p := by
          rintro rfl
          exact off slice hq
        simp only [Function.update_of_ne same]
        exact ok.out q slice hq
      full := fun q l e hq => by
        obtain ⟨known, off', le, level⟩ := ok.full q l e hq
        have same : q ≠ p := by
          rintro rfl
          exact known new
        simp only [Function.update_of_ne same]
        exact ⟨known, off', le, level⟩ }
  exact reset.other off (by simp) (by simp) (.inr (by simp [new]))

section Ends

variable {slice : Slice} {ran : Int} (ok : TallyOk params a pl t) (out : pl p = .out slice)
  (fits : ran ≤ slice.length) (dispatched_le : a.dispatchedIn p ≤ a.epoch)
include ok out fits

/-- The slice was cut to the allotment. -/
theorem ended_within (q l : Nat) (e : Int) (above : l + 1 < params.mlfqLevels) :
    (t.ended p ran).ran q l e ≤ params.mlfqAllotment l := by
  simp only [Tally.ended]
  split_ifs with here
  · obtain ⟨rfl, rfl, rfl⟩ := here
    have := (ok.out q slice out).2.2 above
    omega
  · exact ok.within q l e above

omit fits in
include dispatched_le in
theorem ended_future (q l : Nat) (e : Int) (lt : a.epoch < e) : (t.ended p ran).ran q l e = 0 := by
  have := (ok.out p slice out).1
  simp only [Tally.ended]
  rw [if_neg (by omega)]
  exact ok.future q l e lt

omit fits in
theorem ended_fresh (known : z ≠ .new) (q : Nat) (new : pl.move p z q = .new) :
    t.level q = 0 ∧ ∀ l e, (t.ended p ran).ran q l e = 0 := by
  have ne : q ≠ p := by
    rintro rfl
    exact known (by simpa using new)
  rw [pl.move_of_ne _ ne] at new
  simp only [Tally.ended, if_neg fun here : q = p ∧ _ => ne here.1]
  exact ok.fresh q new

omit fits in
theorem ended_out (stays : ∀ slice, z ≠ .out slice) (q : Nat) (slice' : Slice)
    (hq : pl.move p z q = .out slice') : q ≠ p ∧ t.epoch q = a.dispatchedIn q ∧
      (t.epoch q = a.epoch → t.level q = a.level q) ∧ (t.level q + 1 < params.mlfqLevels →
        (t.ended p ran).ran q (t.level q) (t.epoch q) + slice'.length ≤
          params.mlfqAllotment (t.level q)) := by
  have ne : q ≠ p := by
    rintro rfl
    exact stays slice' (by simpa using hq)
  rw [pl.move_of_ne _ ne] at hq
  simp only [Tally.ended, if_neg fun here : q = p ∧ _ => ne here.1]
  exact ⟨ne, ok.out q slice' hq⟩

omit fits in
theorem ended_full (q l : Nat) (e : Int) (hq : t.full q = some (l, e)) : q ≠ p ∧
    pl.move p z q ≠ .new ∧ (∀ slice, pl.move p z q ≠ .out slice) ∧
    e ≤ a.epoch ∧ a.level q = if e = a.epoch then l + 1 else 0 := by
  obtain ⟨known, off, rest⟩ := ok.full q l e hq
  have ne : q ≠ p := by
    rintro rfl
    exact off slice out
  rw [pl.move_of_ne _ ne]
  exact ⟨ne, known, off, rest⟩

include dispatched_le

/-- A process completes, or its slice ends after a boost and is not charged. -/
theorem ended (stays : ∀ slice, z ≠ .out slice) (known : z ≠ .new)
    (settled : z = .done ∨ t.epoch p ≠ a.epoch) : TallyOk params a (pl.move p z) (t.ended p ran) :=
  { ok with
    within := ok.ended_within out fits
    future := ok.ended_future out dispatched_le
    deeper := fun q l lt => by
      have same := (ok.out p slice out).2.1
      simp only [Tally.ended]
      rw [if_neg]
      · exact ok.deeper q l lt
      · rintro ⟨rfl, rfl, epoch⟩
        have := same epoch.symm
        omega
    here := fun q hq => by
      have apart : ¬(q = p ∧ a.level q = t.level p ∧ a.epoch = t.epoch p) := by
        rintro ⟨rfl, -, epoch⟩
        rcases settled with rfl | old
        · exact hq (pl.move_self ..)
        · exact old epoch.symm
      simp only [Tally.ended, if_neg apart]
      refine ok.here q fun done => hq ?_
      have ne : q ≠ p := by
        rintro rfl
        cases done.symm.trans out
      rwa [pl.move_of_ne _ ne]
    fresh := ok.ended_fresh out known
    out := fun q slice' hq => (ok.ended_out out stays q slice' hq).2
    full := fun q l e hq => (ok.ended_full out q l e hq).2 }

/-- The charge of a slice that ends in its epoch, above the allotment or not. -/
theorem charged (stays : ∀ slice, z ≠ .out slice) (known : z ≠ .new)
    (current : t.epoch p = a.epoch) {v : SchedView D} (now_eq : boostEpoch params v.now = a.epoch)
    {demoted : Bool} (run : a.charge p ran = (b, demoted)) :
    TallyOk params b (pl.move p z) (t.handBack params v p ran) := by
  obtain ⟨-, level, room⟩ := ok.out p slice out
  have level := level current
  have here := ok.here p (by simp [out])
  have total : (t.ended p ran).ran p (t.level p) (t.epoch p) = a.used p + ran := by
    simp only [Tally.ended, and_self, if_true]
    rw [level, current, here]
  rw [level, current, here] at room
  unfold RefMlfq.charge at run
  simp only [Function.update_self, Function.update_idem] at run
  have same : (a.level p + 1 < a.levels ∧ a.allot (a.level p) ≤ a.used p + ran) ↔
      a.level p + 1 < params.mlfqLevels ∧ params.mlfqAllotment (a.level p) ≤ a.used p + ran := by
    rw [ok.levels_eq, ok.allot_eq]
  by_cases demotes : a.level p + 1 < params.mlfqLevels ∧
    params.mlfqAllotment (a.level p) ≤ a.used p + ran
  · rw [if_pos (same.mpr demotes)] at run
    cases run
    have reached : t.level p + 1 < params.mlfqLevels ∧ boostEpoch params v.now = t.epoch p ∧
        (t.ended p ran).ran p (t.level p) (t.epoch p) = params.mlfqAllotment (t.level p) := by
      have := room demotes.1
      rw [total, level, current]
      exact ⟨demotes.1, now_eq, by omega⟩
    simp only [Tally.handBack, if_pos reached]
    exact { ok with
      within := ok.ended_within out fits
      future := ok.ended_future out dispatched_le
      deeper := fun q l lt => by
        by_cases same : q = p
        · subst same
          simp only [Function.update_self] at lt
          simp only [Tally.ended]
          rw [if_neg (by omega)]
          exact ok.deeper q l (by omega)
        · simp only [Function.update_of_ne same] at lt
          simp only [Tally.ended, if_neg fun here : q = p ∧ _ => same here.1]
          exact ok.deeper q l lt
      here := fun q hq => by
        by_cases same : q = p
        · subst same
          simp only [Function.update_self, Tally.ended]
          rw [if_neg (by omega)]
          exact ok.deeper q _ (by omega)
        · rw [pl.move_of_ne _ same] at hq
          simp only [Function.update_of_ne same, Tally.ended,
            if_neg fun here : q = p ∧ _ => same here.1]
          exact ok.here q hq
      fresh := ok.ended_fresh out known
      order := fun q => by
        have := ok.order q
        by_cases same : q = p
        · subst same
          simp only [Tally.ended, Function.update_self]
          exact ⟨this.1, fun now_ => (this.2 now_).trans (Nat.le_succ _)⟩
        · simp only [Tally.ended, Function.update_of_ne same]
          exact this
      out := fun q slice' hq => by
        obtain ⟨ne, rest⟩ := ok.ended_out out stays q slice' hq
        simp only [Function.update_of_ne ne]
        exact rest
      full := fun q l e hq => by
        by_cases same : q = p
        · subst same
          simp only [Function.update_self, Option.some.injEq, Prod.mk.injEq] at hq
          obtain ⟨rfl, rfl⟩ := hq
          rw [pl.move_self]
          refine ⟨known, stays, current.le, ?_⟩
          simp only [Function.update_self, if_pos current, level]
        · simp only [Function.update_of_ne same] at hq ⊢
          exact (ok.ended_full out q l e hq).2 }
  · rw [if_neg (mt same.mp demotes)] at run
    cases run
    have short : ¬(t.level p + 1 < params.mlfqLevels ∧ boostEpoch params v.now = t.epoch p ∧
        (t.ended p ran).ran p (t.level p) (t.epoch p) = params.mlfqAllotment (t.level p)) := by
      rintro ⟨above, -, full⟩
      rw [total, level] at full
      rw [level] at above
      exact demotes ⟨above, full.ge⟩
    simp only [Tally.handBack, if_neg short]
    exact { ok with
      within := ok.ended_within out fits
      future := ok.ended_future out dispatched_le
      deeper := fun q l lt => by
        simp only [Tally.ended]
        rw [if_neg]
        · exact ok.deeper q l lt
        · rintro ⟨rfl, rfl, -⟩
          dsimp only at lt
          omega
      here := fun q hq => by
        by_cases same : q = p
        · subst same
          simp only [Function.update_self]
          rw [← total, level, current]
        · rw [pl.move_of_ne _ same] at hq
          simp only [Function.update_of_ne same, Tally.ended,
            if_neg fun here : q = p ∧ _ => same here.1]
          exact ok.here q hq
      fresh := ok.ended_fresh out known
      out := fun q slice' hq => (ok.ended_out out stays q slice' hq).2
      full := fun q l e hq => (ok.ended_full out q l e hq).2 }

end Ends

/-- A process is dispatched from the queue of its level. -/
theorem pick (ok : TallyOk params a pl t) {v : SchedView D} (inv : RefMlfqOk a v.now pl)
    (epoch_eq : a.epoch = boostEpoch params v.now) {l : Nat} {rest : List Nat}
    (queue : a.queues l = p :: rest) {slice : Slice}
    (length_eq : slice.length = (a.slice l p rest).2.length) {s : Mlfq}
    (level_eq : dispatchLevel v s = some l) :
    TallyOk params (a.slice l p rest).1 (pl.move p (.out slice)) (t.dispatch params v s p) := by
  obtain ⟨ready, -, inv'⟩ := inv.pick queue length_eq
  have level : a.level p = l := inv.at_level (by simp [queue])
  have here := ok.here p (by simp [ready])
  have room := (inv'.slice p slice (by simp) (by simp [RefMlfq.slice])).2
  simp only [RefMlfq.slice, ok.levels_eq, ok.allot_eq] at room
  refine { ok with
    here := fun q hq => ok.here q ?_
    fresh := fun q hq => ?_
    order := fun q => ?_
    out := fun q slice' hq => ?_
    full := fun q l' e hq => ?_ }
  · by_cases same : q = p
    · subst same
      simp [ready]
    · rwa [pl.move_of_ne _ same] at hq
  · by_cases same : q = p
    · subst same
      simp at hq
    · rw [pl.move_of_ne _ same] at hq
      simp only [Tally.dispatch, Function.update_of_ne same]
      exact ok.fresh q hq
  · by_cases same : q = p
    · subst same
      simp [Tally.dispatch, RefMlfq.slice, level_eq, epoch_eq, level]
    · simp only [Tally.dispatch, RefMlfq.slice, Function.update_of_ne same]
      exact ok.order q
  · by_cases same : q = p
    · subst same
      rw [pl.move_self, Place.out.injEq] at hq
      subst hq
      simp only [Tally.dispatch, RefMlfq.slice, Function.update_self, level_eq, Option.getD_some,
        ← epoch_eq, level, true_and, forall_const]
      rw [← level, here]
      exact room
    · rw [pl.move_of_ne _ same] at hq
      simp only [Tally.dispatch, RefMlfq.slice, Function.update_of_ne same]
      exact ok.out q slice' hq
  · by_cases same : q = p
    · subst same
      simp [Tally.dispatch] at hq
    · simp only [Tally.dispatch, Function.update_of_ne same] at hq
      rw [pl.move_of_ne _ same]
      exact ok.full q l' e hq

end TallyOk

/-! ## The runs -/

/-- After a boost the slice is not charged. -/
theorem Tally.handBack_boosted {t : Tally} {v : SchedView D} {p : Nat} {ran : Int}
    (boosted : boostEpoch params v.now ≠ t.epoch p) : t.handBack params v p ran = t.ended p ran :=
  if_neg fun reached => boosted reached.2.1

/-- A slice that was dispatched before the latest boost is handed back uncharged. -/
theorem TallyOk.stale {a : RefMlfq} {pl : Places} {t : Tally} (ok : TallyOk params a pl t)
    {v : SchedView D} (inv : RefMlfqOk a v.now pl) (epoch_eq : a.epoch = boostEpoch params v.now)
    {p : Nat} {slice : Slice} {ran :
      Int} (out : pl p = .out slice) (fits : ran ≤ slice.length) {z : Place}
    (stays : ∀ slice, z ≠ .out slice) (known : z ≠ .new) (before : a.dispatchedIn p ≠ a.epoch) :
    TallyOk params a (pl.move p z) (t.handBack params v p ran) := by
  have stale : t.epoch p ≠ a.epoch := (ok.out p slice out).1 ▸ before
  rw [Tally.handBack_boosted fun same => stale (same.symm.trans epoch_eq.symm)]
  exact ok.ended out fits (inv.dispatched_le p slice out) stays known (.inr stale)

/-- `Mlfq.pick` takes the head of the first queue that is not empty. -/
theorem RefMlfq.pick_inv {v : SchedView D} {a a' : RefMlfq} {slice : Slice}
    (run : a.pick v = some (a', some slice)) : ∃ l p rest,
    ((List.range (a.doBoost v).levels).find? fun l => !((a.doBoost v).queues l).isEmpty) = some l ∧
      (a.doBoost v).queues l = p :: rest ∧ (a.doBoost v).slice l p rest = (a', slice) := by
  unfold RefMlfq.pick at run
  dsimp only at run
  cases first : (List.range (a.doBoost v).levels).find? fun l =>
    !((a.doBoost v).queues l).isEmpty with
  | none =>
      rw [first] at run
      cases run
  | some l =>
      rw [first] at run
      cases queue : (a.doBoost v).queues l with
      | nil => simp [queue] at run
      | cons p rest =>
          simp only [queue, Option.some.injEq, Prod.mk.injEq] at run
          exact ⟨l, p, rest, rfl, queue, Prod.ext run.1 run.2⟩

/-- The levels with a process are those whose list in the reference is not empty. -/
theorem Rep.dispatchLevel_eq {v : SchedView D} {s : Mlfq} {b : RefMlfq} {out : Nat → Prop}
    (rep : Rep (CpuSched.maybeBoost v s) b out) :
    dispatchLevel v s = (List.range b.levels).find? fun l => !(b.queues l).isEmpty := by
  have heads : (fun l => ((CpuSched.maybeBoost v s).head l).isSome) = fun l =>
    !(b.queues l).isEmpty := by
    funext l
    rw [rep.linked.head]
    cases b.queues l <;> rfl
  rw [dispatchLevel, heads, rep.levels_eq]

/-- The process dispatched next comes from the level that the reference gives it. -/
theorem Eager.dispatch {v : SchedView D} {s s' : Mlfq} {a : RefMlfq} {pl : Places} {slice : Slice}
    (eager : Eager v s a pl) (early : v.now < int64Max)
    (run : policyMlfq.call v s .next = some (s', some slice)) : ∃ l rest,
    dispatchLevel v s = some l ∧ (a.doBoost v).queues l = slice.proc :: rest ∧
      slice.length = ((a.doBoost v).slice l slice.proc rest).2.length ∧
      Eager v s' ((a.doBoost v).slice l slice.proc rest).1 (pl.move slice.proc (.out slice)) := by
  obtain ⟨rep, ok⟩ := eager
  rcases mlfqNextSlice_spec rep ok early with ⟨-, -, run'⟩ |
    ⟨s₁, a', slice', ref, run', -, -, -, -, -, rep', ok'⟩
  · cases run.symm.trans run'
  obtain ⟨rfl, same⟩ := Prod.mk.inj (Option.some.inj (run'.symm.trans run))
  obtain rfl := Option.some.inj same
  obtain ⟨l, p, rest, first, queue, sliced⟩ := RefMlfq.pick_inv ref
  obtain ⟨rfl, slice_eq⟩ := Prod.mk.inj sliced
  have proc : slice'.proc = p := (congrArg Slice.proc slice_eq).symm
  have length := (congrArg Slice.length slice_eq).symm
  subst proc
  exact ⟨l, rest, (rep.boosted ok).1.dispatchLevel_eq.trans first, queue, length, rep', ok'⟩

/-- One call. -/
theorem TallyOk.call {v : SchedView D} {s s' : Mlfq} {a : RefMlfq} {pl : Places}
    {t : Tally} {c : Call}
    {r : Option Slice} (ok : TallyOk params a pl t) (eager : Eager v s a pl)
    (allowed : c.Allowed w v pl)
    (run : policyMlfq.call v s c = some (s', r)) :
    ∃ a', Eager v s' a' (c.after pl r) ∧
      TallyOk params a' (c.after pl r) (t.after params v s c r) := by
  obtain ⟨boosted, epoch_eq⟩ := ok.boost (v := v) eager.ok
  have inv := (eager.rep.boosted eager.ok).2
  cases c with
  | next =>
      cases r with
      | none =>
          rcases mlfqNextSlice_spec eager.rep eager.ok allowed
            with ⟨-, -, run'⟩ | ⟨_, _, _, -, run', -⟩
          · obtain rfl := (Prod.mk.inj (Option.some.inj (run'.symm.trans run))).1
            exact ⟨_, ⟨(eager.rep.boosted eager.ok).1, inv⟩, boosted⟩
          · cases run'.symm.trans run
      | some slice =>
          obtain ⟨l, rest, level, queue, length, eager'⟩ := eager.dispatch allowed run
          exact ⟨_, eager', boosted.pick inv epoch_eq queue length level⟩
  | arrival p =>
      have new : pl p = .new := allowed.new
      obtain ⟨a', r', ref, eager'⟩ := eager.called allowed run
      obtain ⟨rfl, -⟩ := Prod.mk.inj (Option.some.inj ref)
      exact ⟨_, eager', (boosted.arrive new).congr rfl rfl rfl rfl rfl rfl rfl⟩
  | wake p =>
      have blocked : pl p = .blocked := allowed.blocked
      obtain ⟨a', r', ref, eager'⟩ := eager.called allowed run
      obtain ⟨rfl, -⟩ := Prod.mk.inj (Option.some.inj ref)
      have moved := boosted.other (p := p) (z := .ready) (by simp [blocked]) (by simp) (by simp)
        (.inr (by simp [blocked]))
      exact ⟨_, eager', moved.congr rfl rfl rfl rfl rfl rfl rfl⟩
  | complete p ran =>
      obtain ⟨a', r', ref, eager'⟩ := eager.called allowed run
      obtain ⟨rfl, -⟩ := Prod.mk.inj (Option.some.inj ref)
      obtain ⟨slice, out, -, fits⟩ := allowed
      exact ⟨_, eager', ok.ended out fits (eager.ok.dispatched_le p slice out) (by simp) (by simp)
        (.inl rfl)⟩
  | preempt p ran =>
      obtain ⟨a', r', ref, eager'⟩ := eager.called allowed run
      simp only [Policy.call, refMlfq, Option.bind_some, Option.map_eq_some_iff] at ref
      obtain ⟨a₁, source, eq⟩ := ref
      obtain rfl := (Prod.mk.inj eq).1
      obtain ⟨⟨slice, out, -, fits⟩, -⟩ := allowed
      have dispatched := (boosted.out p slice out).1
      have le := inv.dispatched_le p slice out
      refine ⟨_, eager', ?_⟩
      by_cases here : (a.doBoost v).dispatchedIn p = (a.doBoost v).epoch
      · have rest := boosted.congr (b := { a.doBoost v with
          left := Function.update (a.doBoost v).left p ((a.doBoost v).left p - ran) })
          rfl rfl rfl rfl rfl rfl rfl
        obtain ⟨⟨b, demoted⟩, charge⟩ : ∃ r, RefMlfq.charge { a.doBoost v with
          left := Function.update (a.doBoost v).left p ((a.doBoost v).left p - ran) } p ran = r :=
            ⟨_, rfl⟩
        rw [RefMlfq.preempt_eq here charge] at source
        have charged := rest.charged (z := .ready) out fits le (by simp) (by simp)
          (dispatched.trans here) epoch_eq.symm charge
        obtain rfl := Option.some.inj source
        split_ifs <;> exact charged.congr rfl rfl rfl rfl rfl rfl rfl
      · have kept := boosted.stale (z := .ready) inv epoch_eq out fits (by simp) (by simp) here
        simp only [RefMlfq.preempt, ne_eq, here, not_false_eq_true, if_true,
          Option.some.injEq] at source
        subst source
        exact kept.congr rfl rfl rfl rfl rfl rfl rfl
  | block p ran =>
      obtain ⟨a', r', ref, eager'⟩ := eager.called allowed run
      simp only [Policy.call, refMlfq, optCall, Option.map_eq_some_iff] at ref
      obtain ⟨a₁, source, eq⟩ := ref
      obtain rfl := (Prod.mk.inj eq).1
      obtain ⟨⟨slice, out, -, fits⟩, -⟩ := allowed
      have dispatched := (boosted.out p slice out).1
      have le := inv.dispatched_le p slice out
      refine ⟨_, eager', ?_⟩
      by_cases here : (a.doBoost v).dispatchedIn p = (a.doBoost v).epoch
      · obtain ⟨⟨b, demoted⟩, charge⟩ : ∃ r, (a.doBoost v).charge p ran = r := ⟨_, rfl⟩
        have charged := boosted.charged (z := .blocked) out fits le (by simp) (by simp)
          (dispatched.trans here) epoch_eq.symm charge
        simp only [RefMlfq.block, if_pos here, charge, Option.some.injEq] at source
        subst source
        exact charged.congr rfl rfl rfl rfl rfl rfl rfl
      · have kept := boosted.stale (z := .blocked) inv epoch_eq out fits (by simp) (by simp) here
        simp only [RefMlfq.block, if_neg here, Option.some.injEq] at source
        subst source
        exact kept.congr rfl rfl rfl rfl rfl rfl rfl

/-- A run. -/
theorem Tallied.ok (admitted : params.Admitted) {v : SchedView D} {s : Mlfq}
    {pl : Places} {t : Tally}
    (run : Tallied w params v s pl t) : ∃ a, Eager v s a pl ∧ TallyOk params a pl t := by
  induction run with
  | @create v s view created =>
      obtain ⟨s', a, run, run', rep, ok⟩ := mlfqCreate_spec v admitted
      cases run.symm.trans created
      have nonneg := admitted.boost_nonneg
      have now_nonneg := view.now_nonneg
      cases run'
      refine ⟨_, ⟨rep, ok⟩, ?_⟩
      exact {
        levels_eq := rfl
        allot_eq := rfl
        boost_eq := rfl
        still := fun zero => if_neg (not_not.mpr zero)
        within := fun _ l _ above => (admitted.allotment_pos l (by omega)).le
        future := fun _ _ _ _ => rfl
        deeper := fun _ _ _ => rfl
        here := fun _ _ => rfl
        fresh := fun _ _ => ⟨rfl, fun _ _ => rfl⟩
        order := fun _ => by
          refine ⟨?_, fun _ => le_rfl⟩
          dsimp only [Tally.start]
          split_ifs
          · exact Int.ediv_nonneg now_nonneg nonneg
          · exact le_rfl
        out := fun _ _ out => nomatch out
        full := fun _ _ _ full => nomatch full }
  | lend before view step ih =>
      obtain ⟨a, eager, ok⟩ := ih
      exact ⟨a, eager.lend step, ok⟩
  | call before allowed run ih =>
      obtain ⟨a, eager, ok⟩ := ih
      exact ok.call eager allowed run

/-- What the tally of a run says of the next call. -/
theorem TallyOk.notGamed {v : SchedView D} {s : Mlfq} {a : RefMlfq} {pl : Places} {t : Tally}
    (ok : TallyOk params a pl t) (eager : Eager v s a pl) :
    (∀ p l e, l + 1 < params.mlfqLevels → t.ran p l e ≤ params.mlfqAllotment l) ∧
    (∀ p ran, Ran pl p ran → t.level p + 1 < params.mlfqLevels →
      t.ran p (t.level p) (t.epoch p) + ran ≤ params.mlfqAllotment (t.level p)) ∧
    ∀ s' slice, v.now < int64Max → policyMlfq.call v s .next = some (s', some slice) →
      (∀ l e, t.full slice.proc = some (l, e) →
        dispatchLevel v s = some (if boostEpoch params v.now = e then l + 1 else 0)) ∧
      ∃ l, dispatchLevel v s = some l ∧
        (boostEpoch params v.now = t.epoch slice.proc → t.level slice.proc ≤ l) := by
  refine ⟨ok.within, fun p ran running above => ?_, fun s' slice early call => ?_⟩
  · obtain ⟨slice, out, -, fits⟩ := running
    have room := (ok.out p slice out).2.2 above
    omega
  · obtain ⟨l, rest, dispatched, queue, -⟩ := eager.dispatch early call
    obtain ⟨boosted, epoch_eq⟩ := ok.boost (v := v) eager.ok
    have level : (a.doBoost v).level slice.proc = l :=
      (eager.rep.boosted eager.ok).2.at_level (by simp [queue])
    refine ⟨fun l' e full => ?_, l, dispatched, fun same => ?_⟩
    · obtain ⟨-, -, -, next⟩ := boosted.full _ _ _ full
      rw [dispatched, ← level, next, epoch_eq]
      simp only [eq_comm]
    · rw [← level]
      exact (boosted.order slice.proc).2 (same.symm.trans epoch_eq.symm)

/-- In every run of MLFQ, the ticks executed in the slices dispatched during a stay above
the bottom level never exceed its allotment, those of a slice still running included.
Where they reached the allotment when a slice ended, the next dispatch is from the next
level, or from the top after a boost; and between two boosts a process is never dispatched
from a higher level than before. -/
theorem mlfq_not_gamed (admitted : params.Admitted) {v : SchedView D} {s : Mlfq} {pl : Places}
    {t : Tally} (run : Tallied w params v s pl t) :
    (∀ p l e, l + 1 < params.mlfqLevels → t.ran p l e ≤ params.mlfqAllotment l) ∧
    (∀ p ran, Ran pl p ran → t.level p + 1 < params.mlfqLevels →
      t.ran p (t.level p) (t.epoch p) + ran ≤ params.mlfqAllotment (t.level p)) ∧
    ∀ s' slice, v.now < int64Max → policyMlfq.call v s .next = some (s', some slice) →
      (∀ l e, t.full slice.proc = some (l, e) →
        dispatchLevel v s = some (if boostEpoch params v.now = e then l + 1 else 0)) ∧
      ∃ l, dispatchLevel v s = some l ∧
        (boostEpoch params v.now = t.epoch slice.proc → t.level slice.proc ≤ l) := by
  obtain ⟨a, eager, ok⟩ := run.ok admitted
  exact ok.notGamed eager

/-- The first process uses up its allotment of the top level while the second one is out. -/
def pausingUsed : List (Lent × Call) :=
  [(pausingStart, .arrival 0), (pausingStart, .next), (⟨1, [(2, 3), (5, 5)]⟩, .arrival 1),
    (⟨1, [(2, 3), (5, 5)]⟩, .next), (⟨2, [(1, 3), (4, 5)]⟩, .preempt 0 2)]

/-- What is seen of a state with its tally. -/
structure TallySeen where
  now : Int
  second : Place
  used : Int
  full : Option (Nat × Int)
  other : Int
  level : Nat
  epoch : Int
  answer : Option (Option (Nat × Int))
  deriving DecidableEq

def tallySeen (e : Lent × Mlfq × Places × Tally) : TallySeen where
  now := e.1.now
  second := e.2.2.1 1
  used := e.2.2.2.ran 0 0 0
  full := e.2.2.2.full 0
  other := e.2.2.2.ran 1 0 0
  level := e.2.2.2.level 1
  epoch := e.2.2.2.epoch 1
  answer := (policyMlfq.call (e.1.view pausing) e.2.1 .next).map fun x => x.2.map Slice.choice

theorem pausing_tally : ((policyMlfq.runs pausing {} (fun t v s c r => t.after {} v s c r)
    pausingStart Tally.start pausingUsed).map tallySeen) =
      some ⟨2, .out ⟨1, 2, schedNoDeadline⟩, 2, some (0, 0), 0, 0, 0, some (some (0, 4))⟩ := by
  decide +kernel

/-- The first process has run for its allotment of 2 at the top level, so the next dispatch is
from the level below it, while the second one may still run for its own. -/
theorem pausing_tallied : ∃ (l : Lent) (s : Mlfq) (pl : Places) (t : Tally),
    Tallied pausing {} (l.view pausing) s pl t ∧ l.now = 2 ∧
    t.ran 0 0 0 = 2 ∧ t.ran 0 0 0 ≤ ({} : PolicyParams).mlfqAllotment 0 ∧
    Ran pl 1 1 ∧ t.ran 1 0 0 + 1 ≤ ({} : PolicyParams).mlfqAllotment 0 ∧
    t.full 0 = some (0, 0) ∧ ∃ s' slice, slice.proc = 0 ∧
      policyMlfq.call (l.view pausing) s .next = some (s', some slice) ∧
      dispatchLevel (l.view pausing) s = some 1 := by
  obtain ⟨⟨l, s, pl, t⟩, run, seen⟩ := Option.map_eq_some_iff.mp pausing_tally
  simp only [tallySeen, TallySeen.mk.injEq] at seen
  obtain ⟨now, out, used, full, other, level, epoch, call⟩ := seen
  obtain ⟨s₀, created, follow⟩ := Policy.runs_start run
  have start : Tallied pausing {} (pausingStart.view pausing) s₀ (fun _ => .new) Tally.start :=
    .create (Lent.start_ok le_rfl) created
  have reached : Tallied pausing {} (l.view pausing) s pl t := by
    refine Policy.follow_keeps (I := fun v s pl t => Tallied pausing {} v s pl t)
      ?_ ?_ ?_ start follow
    · exact fun before ok step => .lend before ok step
    · exact fun before allowed run => .call before allowed run
    · exact fun p known => absurd rfl known
  obtain ⟨within, running, next⟩ := mlfq_not_gamed PolicyParams.admitted_default reached
  have mayRun : Ran pl 1 1 := ⟨_, out, le_rfl, by decide⟩
  have room := running 1 1 mayRun (by rw [level]; decide)
  rw [level, epoch] at room
  obtain ⟨⟨s', r⟩, called, returned⟩ := Option.map_eq_some_iff.mp call
  obtain ⟨slice, rfl, choice⟩ := Option.map_eq_some_iff.mp returned
  have proc : slice.proc = 0 := congrArg Prod.fst choice
  have early : (l.view pausing).now < int64Max := by
    show l.now < int64Max
    rw [now]
    decide
  have from_ := (next s' slice early called).1 0 0 (by rw [proc]; exact full)
  have noBoost : boostEpoch {} (l.view pausing).now = 0 := rfl
  rw [if_pos noBoost] at from_
  exact ⟨l, s, pl, t, reached, now, used, within 0 0 0 (by decide), mayRun, room, full, s', slice,
    proc, called, from_⟩

end CpuSched
