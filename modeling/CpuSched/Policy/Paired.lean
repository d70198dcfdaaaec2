import CpuSched.Policy.Kept
import Mathlib.Data.Option.NAry

/-!
# Policies that answer alike

Two policies may store the ready processes in different structures and still give the same
answers.  `Matches` states this call by call, under the invariant of the first policy and a
relation of the two states.  A policy that matches one with a contract has a contract
itself, and so has the pair that makes every call of both.
-/

namespace CpuSched

variable {D : Type}

/-- Where `P`, which keeps `Inv`, answers a call of the protocol, `R` gives the same answer
in a state that `Rel` relates, and the states stay related. -/
structure Matches (w : Workload) (P R : Policy D) (Inv : SchedView D → P.State → Places → Prop)
    (Rel : SchedView D → P.State → R.State → Places → Prop) : Prop where
  preemptOnReady_eq : R.preemptOnReady = P.preemptOnReady
  workConserving_eq : R.workConserving = P.workConserving
  preempt_none : R.onPreempt = none ↔ P.onPreempt = none
  view : ∀ {v v' s t pl}, Inv v s pl → Rel v s t pl → ViewOk w v pl → ViewStep pl v v' →
    Rel v' s t pl
  arrival : ∀ {v s s' t pl p}, Inv v s pl → Rel v s t pl → ViewOk w v pl → p < w.len →
    pl p = .new → P.onArrival v s p = some s' →
    ∃ t', R.onArrival v t p = some t' ∧ Rel v s' t' (pl.move p .ready)
  wake : ∀ {v s s' t pl p}, Inv v s pl → Rel v s t pl → ViewOk w v pl → pl p = .blocked →
    P.wakeHook v s p = some s' →
    ∃ t', R.wakeHook v t p = some t' ∧ Rel v s' t' (pl.move p .ready)
  next : ∀ {v s s' t pl r}, Inv v s pl → Rel v s t pl → ViewOk w v pl → v.now < int64Max →
    P.nextSlice v s = some (s', r) →
    ∃ t', R.nextSlice v t = some (t', r) ∧ Rel v s' t' (pl.afterNext r)
  preempt : ∀ {v s s' t pl p slice ran f g}, Inv v s pl → Rel v s t pl → ViewOk w v pl →
    pl p = .out slice → P.onPreempt = some f → R.onPreempt = some g →
    f v s p ran = some s' → ∃ t', g v t p ran = some t' ∧ Rel v s' t' (pl.move p .ready)
  block : ∀ {v s s' t pl p slice ran}, Inv v s pl → Rel v s t pl → ViewOk w v pl →
    pl p = .out slice → optCall P.onBlock v s p ran = some s' →
    ∃ t', optCall R.onBlock v t p ran = some t' ∧ Rel v s' t' (pl.move p .blocked)
  complete : ∀ {v s s' t pl p slice ran}, Inv v s pl → Rel v s t pl → ViewOk w v pl →
    pl p = .out slice → optCall P.onComplete v s p ran = some s' →
    ∃ t', optCall R.onComplete v t p ran = some t' ∧ Rel v s' t' (pl.move p .done)

/-! ## Both policies at once -/

section Pair

/-- Both policies, each called whenever the pair is: a call succeeds where both answer, and
`next_slice` where they answer alike. -/
def Policy.paired (P R : Policy D) : Policy D where
  State := P.State × R.State
  name := P.name
  preemptive := P.preemptive
  preemptOnReady := P.preemptOnReady
  usesQuantum := P.usesQuantum
  usesEstimates := P.usesEstimates
  workConserving := P.workConserving
  offline := P.offline
  create v params := (P.create v params).bind fun s => (R.create v params).map fun t => (s, t)
  onArrival v st p := Option.map₂ Prod.mk (P.onArrival v st.1 p) (R.onArrival v st.2 p)
  onReady := some fun v st p => Option.map₂ Prod.mk (P.wakeHook v st.1 p) (R.wakeHook v st.2 p)
  nextSlice v st :=
    (P.nextSlice v st.1).bind fun (s, r) => (R.nextSlice v st.2).bind fun (t, r') =>
      if r' = r then some ((s, t), r) else none
  onPreempt :=
    P.onPreempt.bind fun f => R.onPreempt.map fun g => fun v st p ran =>
      Option.map₂ Prod.mk (f v st.1 p ran) (g v st.2 p ran)
  onBlock := some fun v st p ran =>
    Option.map₂ Prod.mk (optCall P.onBlock v st.1 p ran) (optCall R.onBlock v st.2 p ran)
  onComplete := some fun v st p ran =>
    Option.map₂ Prod.mk (optCall P.onComplete v st.1 p ran) (optCall R.onComplete v st.2 p ran)

variable {P R : Policy D} {v : SchedView D}

/-- Both calls succeed. -/
theorem map₂_mk_eq_some {α β : Type} {x : Option α} {y : Option β} {z : α × β} :
    Option.map₂ Prod.mk x y = some z ↔ x = some z.1 ∧ y = some z.2 := by
  rw [Option.map₂_eq_some_iff]
  constructor
  · rintro ⟨a, b, here, there, rfl⟩
    exact ⟨here, there⟩
  · rintro ⟨here, there⟩
    exact ⟨z.1, z.2, here, there, rfl⟩

/-- Both policies give the answer of the pair. -/
theorem paired_nextSlice {st st' : P.State × R.State} {r : Option Slice} :
    (P.paired R).nextSlice v st = some (st', r) ↔
      P.nextSlice v st.1 = some (st'.1, r) ∧ R.nextSlice v st.2 = some (st'.2, r) := by
  constructor
  · intro run
    obtain ⟨⟨s, r₁⟩, here, run⟩ := Option.bind_eq_some_iff.mp run
    obtain ⟨⟨t, r₂⟩, there, run⟩ := Option.bind_eq_some_iff.mp run
    dsimp only at run
    split_ifs at run with same
    cases run
    subst same
    exact ⟨here, there⟩
  · rintro ⟨here, there⟩
    refine Option.bind_eq_some_iff.mpr ⟨_, here, Option.bind_eq_some_iff.mpr ⟨_, there, ?_⟩⟩
    exact if_pos rfl

/-- The pair hands a process back where both do. -/
theorem paired_onPreempt {h : SchedView D → P.State × R.State → Nat → Int →
      Option (P.State × R.State)} :
    (P.paired R).onPreempt = some h ↔ ∃ f g, P.onPreempt = some f ∧ R.onPreempt = some g ∧
      h = fun v st p ran => Option.map₂ Prod.mk (f v st.1 p ran) (g v st.2 p ran) := by
  constructor
  · intro hook
    obtain ⟨f, here, hook⟩ := Option.bind_eq_some_iff.mp hook
    obtain ⟨g, there, rfl⟩ := Option.map_eq_some_iff.mp hook
    exact ⟨f, g, here, there, rfl⟩
  · rintro ⟨f, g, here, there, rfl⟩
    exact Option.bind_eq_some_iff.mpr ⟨f, here, Option.map_eq_some_iff.mpr ⟨g, there, rfl⟩⟩

/-- Both policies start. -/
theorem paired_create {params : PolicyParams} {st : P.State × R.State}
    (here : P.create v params = .ok st.1) (there : R.create v params = .ok st.2) :
    (P.paired R).create v params = .ok st := by
  simp only [Policy.paired, here, there, Except.bind, Except.map]

end Pair

/-! ## The contracts -/

section Contracts

variable {w : Workload} {P R : Policy D} {Inv : SchedView D → P.State → Places → Prop}
  {Rel : SchedView D → P.State → R.State → Places → Prop}

/-- The invariant of the pair. -/
def PairedInv (Inv : SchedView D → P.State → Places → Prop)
    (Rel : SchedView D → P.State → R.State → Places → Prop) (v : SchedView D)
    (st : P.State × R.State) (pl : Places) : Prop :=
  Inv v st.1 pl ∧ Rel v st.1 st.2 pl

/-- The invariant of the second policy: the first could be in a related state. -/
def MatchedInv (Inv : SchedView D → P.State → Places → Prop)
    (Rel : SchedView D → P.State → R.State → Places → Prop) (v : SchedView D)
    (t : R.State) (pl : Places) : Prop :=
  ∃ s, Inv v s pl ∧ Rel v s t pl

/-- If the pair hands nothing back, the first policy does not. -/
theorem Matches.paired_onPreempt_none (alike : Matches w P R Inv Rel)
    (whole : (P.paired R).onPreempt = none) : P.onPreempt = none := by
  cases here : P.onPreempt with
  | none => rfl
  | some f =>
      cases there : R.onPreempt with
      | none => exact here.symm.trans (alike.preempt_none.mp there)
      | some g => cases whole.symm.trans (paired_onPreempt.mpr ⟨f, g, here, there, rfl⟩)

/-- The contract of the first policy is one of the pair. -/
theorem Contract.paired (contract : Contract w P Inv) (alike : Matches w P R Inv Rel) :
    Contract w (P.paired R) (PairedInv Inv Rel) where
  interruptible whole := contract.interruptible (alike.paired_onPreempt_none whole)
  view both ok ok' step := ⟨contract.view both.1 ok ok' step, alike.view both.1 both.2 ok step⟩
  arrival both ok hp new pos := by
    obtain ⟨s', run, inv⟩ := contract.arrival both.1 ok hp new pos
    obtain ⟨t', run', rel⟩ := alike.arrival both.1 both.2 ok hp new run
    exact ⟨(s', t'), map₂_mk_eq_some.mpr ⟨run, run'⟩, inv, rel⟩
  wake both ok blocked pos := by
    obtain ⟨s', run, inv⟩ := contract.wake both.1 ok blocked pos
    obtain ⟨t', run', rel⟩ := alike.wake both.1 both.2 ok blocked run
    exact ⟨(s', t'), map₂_mk_eq_some.mpr ⟨run, run'⟩, inv, rel⟩
  next both ok early := by
    obtain ⟨s', r, run, next⟩ := contract.next both.1 ok early
    obtain ⟨t', run', rel⟩ := alike.next both.1 both.2 ok early run
    refine ⟨(s', t'), r, paired_nextSlice.mpr ⟨run, run'⟩, ?_⟩
    cases r with
    | none => exact ⟨⟨next.1, rel⟩, next.2⟩
    | some slice =>
        obtain ⟨ready, pos, later, le, whole, inv⟩ := next
        exact ⟨ready, pos, later, le, fun hook => whole (alike.paired_onPreempt_none hook),
          inv, rel⟩
  preempt both ok out one le pos hook := by
    obtain ⟨f, g, here, there, rfl⟩ := paired_onPreempt.mp hook
    obtain ⟨s', run, inv⟩ := contract.preempt both.1 ok out one le pos here
    obtain ⟨t', run', rel⟩ := alike.preempt both.1 both.2 ok out here there run
    exact ⟨(s', t'), map₂_mk_eq_some.mpr ⟨run, run'⟩, inv, rel⟩
  block both ok out one le more := by
    obtain ⟨s', run, inv⟩ := contract.block both.1 ok out one le more
    obtain ⟨t', run', rel⟩ := alike.block both.1 both.2 ok out run
    exact ⟨(s', t'), map₂_mk_eq_some.mpr ⟨run, run'⟩, inv, rel⟩
  complete both ok out one le := by
    obtain ⟨s', run, inv⟩ := contract.complete both.1 ok out one le
    obtain ⟨t', run', rel⟩ := alike.complete both.1 both.2 ok out run
    exact ⟨(s', t'), map₂_mk_eq_some.mpr ⟨run, run'⟩, inv, rel⟩

/-- The contract of the first policy is one of the second. -/
theorem Contract.matched (contract : Contract w P Inv) (alike : Matches w P R Inv Rel) :
    Contract w R (MatchedInv Inv Rel) where
  interruptible whole :=
    alike.preemptOnReady_eq.trans (contract.interruptible (alike.preempt_none.mp whole))
  view related ok ok' step := by
    obtain ⟨s, inv, rel⟩ := related
    exact ⟨s, contract.view inv ok ok' step, alike.view inv rel ok step⟩
  arrival related ok hp new pos := by
    obtain ⟨s, inv, rel⟩ := related
    obtain ⟨s', run, inv'⟩ := contract.arrival inv ok hp new pos
    obtain ⟨t', run', rel'⟩ := alike.arrival inv rel ok hp new run
    exact ⟨t', run', s', inv', rel'⟩
  wake related ok blocked pos := by
    obtain ⟨s, inv, rel⟩ := related
    obtain ⟨s', run, inv'⟩ := contract.wake inv ok blocked pos
    obtain ⟨t', run', rel'⟩ := alike.wake inv rel ok blocked run
    exact ⟨t', run', s', inv', rel'⟩
  next related ok early := by
    obtain ⟨s, inv, rel⟩ := related
    obtain ⟨s', r, run, next⟩ := contract.next inv ok early
    obtain ⟨t', run', rel'⟩ := alike.next inv rel ok early run
    refine ⟨t', r, run', ?_⟩
    cases r with
    | none =>
        refine ⟨⟨s', next.1, rel'⟩, next.2.imp_right fun idle => ?_⟩
        exact ⟨alike.workConserving_eq.trans idle.1, idle.2⟩
    | some slice =>
        obtain ⟨ready, length_pos, later, le, whole, inv'⟩ := next
        exact ⟨ready, length_pos, later, le, fun hook => whole (alike.preempt_none.mp hook),
          s', inv', rel'⟩
  preempt {v t pl p slice ran g} related ok out one le pos hook := by
    obtain ⟨s, inv, rel⟩ := related
    cases here : P.onPreempt with
    | none => cases hook.symm.trans (alike.preempt_none.mpr here)
    | some f =>
        obtain ⟨s', run, inv'⟩ := contract.preempt inv ok out one le pos here
        obtain ⟨t', run', rel'⟩ := alike.preempt inv rel ok out here hook run
        exact ⟨t', run', s', inv', rel'⟩
  block related ok out one le more := by
    obtain ⟨s, inv, rel⟩ := related
    obtain ⟨s', run, inv'⟩ := contract.block inv ok out one le more
    obtain ⟨t', run', rel'⟩ := alike.block inv rel ok out run
    exact ⟨t', run', s', inv', rel'⟩
  complete related ok out one le := by
    obtain ⟨s, inv, rel⟩ := related
    obtain ⟨s', run, inv'⟩ := contract.complete inv ok out one le
    obtain ⟨t', run', rel'⟩ := alike.complete inv rel ok out run
    exact ⟨t', run', s', inv', rel'⟩

end Contracts

end CpuSched
