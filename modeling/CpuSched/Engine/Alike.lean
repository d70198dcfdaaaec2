import CpuSched.Engine.Recast

/-!
# Steps of two runs side by side

Two simulations of one workload whose policies answer alike, but for lengths that the
remaining burst cuts anyway, and whose segment limits differ: a step of the one is a step
of the other.
-/

namespace CpuSched

variable {D : Type} {σ τ : Type}

/-- Both lengths let the process on a core run equally long. -/
def LengthsFit (cores : Nat) (e : Engine D σ) (len : Nat → Int) : Prop :=
  ∀ c < cores, ∀ p, (e.cores c).proc = some p →
    min (e.cores c).length (e.remaining p) = min (len c) (e.remaining p)

/-- No process is on two cores. -/
def OneCoreEach (cores : Nat) (e : Engine D σ) : Prop :=
  ∀ c < cores, ∀ c' < cores, ∀ p, (e.cores c).proc = some p → (e.cores c').proc = some p → c' = c

/-- The slices let their process run equally long, given what remains. -/
structure SlicesFit (remaining : Nat → Int) (s s' : Slice) : Prop where
  proc_eq : s'.proc = s.proc
  deadline_eq : s'.deadline = s.deadline
  pos : 0 < s.length → 0 < s'.length
  fits : min s.length (remaining s.proc) = min s'.length (remaining s.proc)

/-- A relation of tapes that writing keeps. -/
structure TapesKept (limit limit' : Nat) (Tapes : Tape → Tape → Prop) : Prop where
  append : ∀ {t t'} c start stop proc kind, Tapes t t' →
    Tapes (t.append limit c start stop proc kind) (t'.append limit' c start stop proc kind)
  overflow : ∀ {t t'}, Tapes t t' → Tapes t.overflow t'.overflow

/-- A relation that writing keeps covers a sum that may not fit. -/
theorem TapesKept.addTime {limit limit' : Nat} {Tapes : Tape → Tape → Prop}
    (kept : TapesKept limit limit' Tapes) {t t' : Tape} (related : Tapes t t') (cond : Prop)
      [Decidable cond] :
    Tapes (if cond then t.overflow else t) (if cond then t'.overflow else t') := by
  split_ifs
  · exact kept.overflow related
  · exact related

/-- `Q` answers wherever `P` does, and alike, in related states. -/
structure Policy.Follows (Q P : Policy D) (View : SchedView D → Prop)
    (States : P.State → Q.State → Prop) :
    Prop where
  preemptOnReady_eq : Q.preemptOnReady = P.preemptOnReady
  onArrival : ∀ {v s s' r p}, States s s' → P.onArrival v s p = some r →
    ∃ r', Q.onArrival v s' p = some r' ∧ States r r'
  wakeHook : ∀ {v s s' r p}, States s s' → P.wakeHook v s p = some r →
    ∃ r', Q.wakeHook v s' p = some r' ∧ States r r'
  refuse : ∀ {v s s' r}, View v → States s s' → P.nextSlice v s = some (r, none) →
    ∃ r', Q.nextSlice v s' = some (r', none) ∧ States r r'
  pick : ∀ {v s s' r slice}, View v → States s s' → P.nextSlice v s = some (r, some slice) →
    ∃ r' slice', Q.nextSlice v s' = some (r', some slice') ∧ States r r' ∧
      SlicesFit v.remaining slice slice'
  onPreempt : ∀ {f}, P.onPreempt = some f → ∃ g, Q.onPreempt = some g ∧
    ∀ {v s s' r p ran}, States s s' → f v s p ran = some r →
      ∃ r', g v s' p ran = some r' ∧ States r r'
  onBlock : ∀ {v s s' r p ran}, States s s' → optCall P.onBlock v s p ran = some r →
    ∃ r', optCall Q.onBlock v s' p ran = some r' ∧ States r r'
  onComplete : ∀ {v s s' r p ran}, States s s' → optCall P.onComplete v s p ran = some r →
    ∃ r', optCall Q.onComplete v s' p ran = some r' ∧ States r r'

namespace Sim

/-- The engines differ in the states of the policies, in the tapes and in the lengths. -/
def Alike (cores : Nat) (States : σ → τ → Prop) (Tapes : Tape → Tape → Prop) (e : Engine D σ)
    (e' : Engine D τ) : Prop :=
  ∃ s t len, e' = e.recast s t len ∧ States e.state s ∧ Tapes e.tape t ∧ LengthsFit cores e len

variable {S : Sim D} {Q : Policy D} {limit : Nat}

/-! ## Steps that do not choose -/

section Steps

variable {States : S.policy.State → Q.State → Prop} {Tapes : Tape → Tape → Prop}
  {View : SchedView D → Prop} {e e₁ : S.Eng} {e' : (S.alter Q limit).Eng}

/-- A hook call. -/
theorem Alike.hook (alike : Alike S.opt.cores States Tapes e e')
    {f : SchedView D → S.policy.State → Option S.policy.State}
    (g : SchedView D → Q.State → Option Q.State)
    (step : ∀ {v s s' r}, States s s' → f v s = some r → ∃ r', g v s' = some r' ∧ States r r')
    (run : S.hook e f = some e₁) : ∃ e₁', (S.alter Q limit).hook e' g = some e₁' ∧
      Alike S.opt.cores States Tapes e₁ e₁' ∧ e₁.cores = e.cores := by
  obtain ⟨s, t, len, rfl, states, tapes, fit⟩ := alike
  obtain ⟨r, answer, rfl⟩ := Option.map_eq_some_iff.mp run
  obtain ⟨r', answer', states'⟩ := step states answer
  have answer' : g ((S.alter Q limit).view (e.recast s t len)) s = some r' := answer'
  exact ⟨{ e with state := r }.recast r' t len, by simp only [Sim.hook, answer', Option.map_some],
    ⟨r', t, len, rfl, states', tapes, fit⟩, rfl⟩

variable [Double D] (follows : Q.Follows S.policy View States)

section Arrivals

include follows

omit [Double D] in
theorem Alike.admitArrivals {pending : List ArrivalKey}
    (alike : Alike S.opt.cores States Tapes e e')
    {flag : Bool} (run : S.admitArrivals pending e = some (e₁, flag)) :
    ∃ e₁', (S.alter Q limit).admitArrivals pending e' = some (e₁', flag) ∧
      Alike S.opt.cores States Tapes e₁ e₁' ∧ e₁.cores = e.cores := by
  induction pending generalizing e e' e₁ flag with
  | nil =>
      cases run
      exact ⟨e', rfl, alike, rfl⟩
  | cons key rest ih =>
      have now_eq : e'.now = e.now := by
        obtain ⟨s, t, len, rfl, -⟩ := alike
        rfl
      rw [Sim.admitArrivals] at run ⊢
      by_cases due : key.arrival ≤ e.now
      · rw [if_pos due] at run
        obtain ⟨e₂, hooked, run⟩ := Option.bind_eq_some_iff.mp run
        obtain ⟨⟨e₃, flag'⟩, admitted, run⟩ := Option.bind_eq_some_iff.mp run
        cases run
        obtain ⟨e₂', hooked', ⟨s, t, len, rfl, states, tapes, fit⟩, cores₂⟩ :=
          alike.hook (fun v state => Q.onArrival v state key.index)
            (fun states run => follows.onArrival states run) hooked
        have alike₂ : Alike S.opt.cores States Tapes { e₂ with pending := rest }
            ({ e₂ with pending := rest }.recast s t len) := ⟨s, t, len, rfl, states, tapes, fit⟩
        obtain ⟨e₃', admitted', alike₃, cores₃⟩ := ih alike₂ admitted
        refine ⟨e₃', ?_, alike₃, cores₃.trans cores₂⟩
        rw [if_pos (now_eq.symm ▸ due), hooked']
        simp only [Option.bind_eq_bind, Option.bind_some]
        rw [admitted']
        rfl
      · rw [if_neg due] at run
        cases run
        exact ⟨e', by rw [if_neg (now_eq.symm ▸ due)], alike, rfl⟩

omit [Double D] in
theorem Alike.wakeBlocked {fuel : Nat} (alike : Alike S.opt.cores States Tapes e e')
    {flag : Bool} (run : S.wakeBlocked fuel e = some (e₁, flag)) :
    ∃ e₁', (S.alter Q limit).wakeBlocked fuel e' = some (e₁', flag) ∧
      Alike S.opt.cores States Tapes e₁ e₁' ∧ e₁.cores = e.cores := by
  induction fuel generalizing e e' e₁ flag with
  | zero =>
      cases run
      exact ⟨e', rfl, alike, rfl⟩
  | succ fuel ih =>
      obtain ⟨s, t, len, rfl, states, tapes, fit⟩ := alike
      rw [Sim.wakeBlocked] at run ⊢
      by_cases due : e.blocked.isEmpty = false ∧ e.wake (e.blocked.items 0) ≤ e.now
      · rw [if_pos due] at run ⊢
        obtain ⟨⟨p, blocked⟩, popped, run⟩ := Option.bind_eq_some_iff.mp run
        obtain ⟨e₂, hooked, run⟩ := Option.bind_eq_some_iff.mp run
        obtain ⟨⟨e₃, flag'⟩, woken, run⟩ := Option.bind_eq_some_iff.mp run
        cases run
        have alike : Alike S.opt.cores States Tapes { e with blocked }
            ({ e with blocked }.recast s t len) := ⟨s, t, len, rfl, states, tapes, fit⟩
        obtain ⟨e₂', hooked', alike₂, cores₂⟩ :=
          alike.hook (fun v state => Q.wakeHook v state p)
            (fun states run => follows.wakeHook states run) hooked
        obtain ⟨e₃', woken', alike₃, cores₃⟩ := ih alike₂ woken
        refine ⟨e₃', ?_, alike₃, cores₃.trans cores₂⟩
        have popped : heapPop ((S.alter Q limit).blockedLess (e.recast s t len).wake)
            (e.recast s t len).blocked = some (p, blocked) := popped
        rw [popped]
        simp only [Option.bind_eq_bind, Option.bind_some]
        have hooked' : (S.alter Q limit).hook { e.recast s t len with blocked }
            (fun v state => (S.alter Q limit).policy.wakeHook v state p) = some e₂' := hooked'
        rw [hooked']
        simp only [Option.bind_some]
        rw [woken']
        rfl
      · rw [if_neg due] at run ⊢
        cases run
        exact ⟨_, rfl, ⟨s, t, len, rfl, states, tapes, fit⟩, rfl⟩

end Arrivals

omit [Double D] in
theorem lengthsFit_other {len : Nat → Int} {p : Nat} (fit : LengthsFit S.opt.cores e len)
    (cores : e₁.cores = e.cores) (same : ∀ q, q ≠ p → e₁.remaining q = e.remaining q)
    (off : ∀ c < S.opt.cores, (e.cores c).proc ≠ some p) : LengthsFit S.opt.cores e₁ len := by
  intro c hc q on
  rw [cores] at on ⊢
  have ne : q ≠ p := by
    rintro rfl
    exact off c hc on
  rw [same q ne]
  exact fit c hc q on

omit [Double D] in
/-- A call of an optional hook. -/
theorem Alike.optHook (alike : Alike S.opt.cores States Tapes e e')
    {f : Option (SchedView D → S.policy.State → Nat → Int → Option S.policy.State)}
    (g : Option (SchedView D → Q.State → Nat → Int → Option Q.State)) {p : Nat} {ran : Int}
    (step : ∀ {v s s' r p ran}, States s s' → optCall f v s p ran = some r →
      ∃ r', optCall g v s' p ran = some r' ∧ States r r')
    (run : S.optHook e f p ran = some e₁) : ∃ e₁', (S.alter Q limit).optHook e' g p ran = some e₁' ∧
      Alike S.opt.cores States Tapes e₁ e₁' ∧ e₁.cores = e.cores := by
  obtain ⟨s, t, len, rfl, states, tapes, fit⟩ := alike
  rw [optHook_eq] at run ⊢
  obtain ⟨r, answer, rfl⟩ := Option.map_eq_some_iff.mp run
  obtain ⟨r', answer', states'⟩ := step states answer
  have answer' : optCall g ((S.alter Q limit).view (e.recast s t len)) s p ran = some r' := answer'
  exact ⟨{ e with state := r }.recast r' t len, by simp only [answer', Option.map_some],
    ⟨r', t, len, rfl, states', tapes, fit⟩, rfl⟩

variable (kept : TapesKept S.opt.maxSegments limit Tapes)

section Ends

include follows kept

/-- The end of a burst. -/
theorem Alike.burstDone {p : Nat} {ran : Int} (alike : Alike S.opt.cores States Tapes e e')
    (off : ∀ c < S.opt.cores, (e.cores c).proc ≠ some p) (run : S.burstDone e p ran = some e₁) :
    ∃ e₁', (S.alter Q limit).burstDone e' p ran = some e₁' ∧
      Alike S.opt.cores States Tapes e₁ e₁' ∧ e₁.cores = e.cores := by
  obtain ⟨s, t, len, rfl, states, tapes, fit⟩ := alike
  obtain ⟨e₂, e₂_eq⟩ : ∃ e₂ : S.Eng, e₂ = { e with predicted := S.ewma e p } := ⟨_, rfl⟩
  have cores₂ : e₂.cores = e.cores := by rw [e₂_eq]
  have alike₂ : Alike S.opt.cores States Tapes e₂ (e₂.recast s t len) := by
    rw [e₂_eq]
    exact ⟨s, t, len, rfl, states, tapes, fit⟩
  have source : S.burstDone e p ran =
      if e.phase p + 1 = (S.w.proc p).phaseCount then
        S.optHook (S.finishProcess e₂ p) S.policy.onComplete p ran
      else (heapPush (S.blockedLess (S.startIo e₂ p).wake) (S.startIo e₂ p).blocked
        p).bind fun blocked =>
        S.optHook { S.startIo e₂ p with blocked } S.policy.onBlock p ran := by
    rw [e₂_eq]
    rfl
  have target : (S.alter Q limit).burstDone (e.recast s t len) p ran =
      if e.phase p + 1 = (S.w.proc p).phaseCount then
        (S.alter Q limit).optHook ((S.alter Q limit).finishProcess (e₂.recast s t len) p)
          Q.onComplete p ran
      else (heapPush (S.blockedLess ((S.alter Q limit).startIo (e₂.recast s t len) p).wake)
          ((S.alter Q limit).startIo (e₂.recast s t len) p).blocked p).bind fun blocked =>
        (S.alter Q limit).optHook { (S.alter Q limit).startIo (e₂.recast s t len) p with blocked }
          Q.onBlock p ran := by
    rw [e₂_eq]
    rfl
  rw [source] at run
  rw [target]
  subst e₂_eq
  split_ifs at run ⊢ with last
  · have alike₃ : Alike S.opt.cores States Tapes
      (S.finishProcess { e with predicted := S.ewma e p } p)
        ((S.alter Q limit).finishProcess ({ e with predicted := S.ewma e p }.recast s t len) p) :=
      ⟨s, t, len, rfl, states, tapes, fit⟩
    exact alike₃.optHook Q.onComplete follows.onComplete run
  · obtain ⟨blocked, pushed, run⟩ := Option.bind_eq_some_iff.mp run
    rw [startIo_recast]
    have pushed : heapPush (S.blockedLess ((S.startIo { e with predicted := S.ewma e p } p).recast s
        (if ckAddI64 e.now ((S.w.proc p).phase (e.phase p + 1)) = none then t.overflow else t)
          len).wake)
        ((S.startIo { e with predicted := S.ewma e p } p).recast s
        (if ckAddI64 e.now ((S.w.proc p).phase (e.phase p + 1)) = none then t.overflow else t)
          len).blocked p =
          some blocked := pushed
    rw [pushed]
    have cores₃ : (S.startIo { e with predicted := S.ewma e p } p).cores = e.cores := by
      simp only [startIo, addTime_cores]
    have alike₃ : Alike S.opt.cores States Tapes
        { S.startIo { e with predicted := S.ewma e p } p with blocked }
        ({ S.startIo { e with predicted := S.ewma e p } p with blocked }.recast s
          (if ckAddI64 e.now ((S.w.proc p).phase (e.phase p + 1)) = none then t.overflow else t)
            len) := by
      refine ⟨s, _, len, rfl, ?_, ?_, lengthsFit_other fit cores₃ (fun q ne => ?_) off⟩
      · simpa only [startIo, addTime_state] using states
      · have written := startIo_tape { e with predicted := S.ewma e p } p
        have related := kept.addTime tapes
          (ckAddI64 e.now ((S.w.proc p).phase (e.phase p + 1)) = none)
        exact written ▸ related
      · simp [startIo, ne]
    obtain ⟨e₁', run', alike', cores'⟩ := alike₃.optHook Q.onBlock follows.onBlock run
    exact ⟨e₁', run', alike', cores'.trans cores₃⟩

/-- The end of the slice on a core. -/
theorem Alike.endRun {c : Nat} {flag : Bool} (alike : Alike S.opt.cores States Tapes e e')
    (one : OneCoreEach S.opt.cores e) (hc : c < S.opt.cores)
      (run : S.endRun e c = some (e₁, flag)) :
    ∃ e₁', (S.alter Q limit).endRun e' c = some (e₁', flag) ∧
      Alike S.opt.cores States Tapes e₁ e₁' ∧ OneCoreEach S.opt.cores e₁ := by
  obtain ⟨s, t, len, rfl, states, tapes, fit⟩ := alike
  unfold Sim.endRun at run ⊢
  cases on : (e.cores c).proc with
  | none =>
      rw [on] at run
      cases run
  | some p =>
      rw [on] at run
      dsimp only at run ⊢
      have freed : (S.chargeRun e c p).cores =
          Function.update e.cores c { e.cores c with proc := none, freeSince := e.now } :=
            chargeRun_cores ..
      have off : ∀ c' < S.opt.cores, ((S.chargeRun e c p).cores c').proc ≠ some p := by
        intro c' hc' on'
        rw [freed] at on'
        by_cases same : c' = c
        · subst same
          simp at on'
        · rw [Function.update_of_ne same] at on'
          exact same (one c hc c' hc' p on on')
      have one' : OneCoreEach S.opt.cores (S.chargeRun e c p) := by
        intro c₁ h₁ c₂ h₂ q on₁ on₂
        rw [freed] at on₁ on₂
        have ne : ∀ {c'}, (Function.update e.cores c
          { e.cores c with proc := none, freeSince := e.now } c').proc =
            some q → c' ≠ c ∧ (e.cores c').proc = some q := by
          intro c' on'
          by_cases same : c' = c
          · subst same
            simp at on'
          · rw [Function.update_of_ne same] at on'
            exact ⟨same, on'⟩
        exact one c₁ h₁ c₂ h₂ q (ne on₁).2 (ne on₂).2
      have alike₂ : Alike S.opt.cores States Tapes (S.chargeRun e c p)
          ((S.alter Q limit).chargeRun (e.recast s t len) c p) := by
        rw [chargeRun_recast]
        refine ⟨s, _, len, rfl, by simpa using states, ?_, fun c' hc' q on' => ?_⟩
        · rw [chargeRun_tape]
          exact kept.append _ _ _ _ _ tapes
        · have ne : c' ≠ c := by
            rintro rfl
            rw [freed] at on'
            simp at on'
          rw [freed, Function.update_of_ne ne] at on' ⊢
          have other : q ≠ p := by
            rintro rfl
            exact ne (one c hc c' hc' q on on')
          rw [chargeRun_remaining, Function.update_of_ne other]
          exact fit c' hc' q on'
      have remaining : ((S.alter Q limit).chargeRun (e.recast s t len) c p).remaining p =
          (S.chargeRun e c p).remaining p := by
        rw [chargeRun_recast]
      rw [remaining]
      split_ifs at run ⊢ with used
      · obtain ⟨e₂, done, eq⟩ := Option.map_eq_some_iff.mp run
        cases eq
        obtain ⟨e₂', done', alike', cores'⟩ := alike₂.burstDone follows kept off done
        refine ⟨e₂', ?_, alike', fun c₁ h₁ c₂ h₂ q on₁ on₂ => ?_⟩
        · have done' : (S.alter Q limit).burstDone
            ((S.alter Q limit).chargeRun (e.recast s t len) c p) p
              ((e.recast s t len).now - ((e.recast s t len).cores c).runStart) = some e₂' := done'
          rw [done']
          rfl
        · rw [cores'] at on₁ on₂
          exact one' c₁ h₁ c₂ h₂ q on₁ on₂
      · cases source : S.policy.onPreempt with
        | none =>
            rw [source] at run
            cases run
        | some f =>
            rw [source] at run
            obtain ⟨g, target, step⟩ := follows.onPreempt source
            obtain ⟨e₂, hooked, eq⟩ := Option.map_eq_some_iff.mp run
            cases eq
            obtain ⟨e₂', hooked', alike', cores'⟩ := alike₂.hook
              (fun v state => g v state p (e.now - (e.cores c).runStart))
                (fun states run => step states run) hooked
            refine ⟨e₂', ?_, alike', fun c₁ h₁ c₂ h₂ q on₁ on₂ => ?_⟩
            · have target : (S.alter Q limit).policy.onPreempt = some g := target
              rw [target]
              have hooked' : (S.alter Q limit).hook
                ((S.alter Q limit).chargeRun (e.recast s t len) c p)
                (fun v state => g v state p
                  ((e.recast s t len).now - ((e.recast s t len).cores c).runStart)) =
                    some e₂' := hooked'
              simp only
              rw [hooked']
              rfl
            · rw [cores'] at on₁ on₂
              exact one' c₁ h₁ c₂ h₂ q on₁ on₂

/-- Slices that used up their length. -/
theorem Alike.endFinished {cs : List Nat} (inside : ∀ c ∈ cs, c < S.opt.cores) {flag : Bool}
    (alike : Alike S.opt.cores States Tapes e e') (one : OneCoreEach S.opt.cores e)
    (run : S.endFinished cs e = some (e₁, flag)) :
    ∃ e₁', (S.alter Q limit).endFinished cs e' = some (e₁', flag) ∧
      Alike S.opt.cores States Tapes e₁ e₁' ∧ OneCoreEach S.opt.cores e₁ := by
  induction cs generalizing e e' e₁ flag with
  | nil =>
      cases run
      exact ⟨e', rfl, alike, one⟩
  | cons c rest ih =>
      have hc := inside c List.mem_cons_self
      have rest_inside : ∀ c ∈ rest, c < S.opt.cores :=
        fun c mem => inside c (List.mem_cons_of_mem _ mem)
      have same : ((e'.cores c).proc ≠ none ∧ (e'.cores c).inCs = false ∧
        (e'.cores c).runEnd = e'.now) ↔
          ((e.cores c).proc ≠ none ∧ (e.cores c).inCs = false ∧ (e.cores c).runEnd = e.now) := by
        obtain ⟨s, t, len, rfl, -⟩ := alike
        rfl
      rw [Sim.endFinished] at run ⊢
      by_cases due : (e.cores c).proc ≠ none ∧ (e.cores c).inCs = false ∧ (e.cores c).runEnd = e.now
      · rw [if_pos due] at run
        rw [if_pos (same.mpr due)]
        obtain ⟨⟨e₂, requeued⟩, ended, run⟩ := Option.bind_eq_some_iff.mp run
        obtain ⟨⟨e₃, more⟩, finished, run⟩ := Option.bind_eq_some_iff.mp run
        cases run
        obtain ⟨e₂', ended', alike₂, one₂⟩ := alike.endRun follows kept one hc ended
        obtain ⟨e₃', finished', alike₃, one₃⟩ := ih rest_inside alike₂ one₂ finished
        refine ⟨e₃', ?_, alike₃, one₃⟩
        rw [ended']
        simp only [Option.bind_eq_bind, Option.bind_some]
        rw [finished']
        rfl
      · rw [if_neg due] at run
        rw [if_neg fun due' => due (same.mp due')]
        exact ih rest_inside alike one run

/-- Interrupted slices. -/
theorem Alike.interrupt {cs : List Nat} (inside : ∀ c ∈ cs, c < S.opt.cores) {redecide : Bool}
    (alike : Alike S.opt.cores States Tapes e e') (one : OneCoreEach S.opt.cores e)
    (run : S.interrupt redecide cs e = some e₁) :
    ∃ e₁', (S.alter Q limit).interrupt redecide cs e' = some e₁' ∧
      Alike S.opt.cores States Tapes e₁ e₁' := by
  induction cs generalizing e e' with
  | nil =>
      cases run
      exact ⟨e', rfl, alike⟩
  | cons c rest ih =>
      have hc := inside c List.mem_cons_self
      have rest_inside : ∀ c ∈ rest, c < S.opt.cores :=
        fun c mem => inside c (List.mem_cons_of_mem _ mem)
      have same : ((e'.cores c).proc ≠ none ∧ (e'.cores c).inCs = false ∧
        (e'.cores c).runStart ≠ e'.now ∧
            (redecide = true ∨ (e'.cores c).busyUntil = e'.now)) ↔
          ((e.cores c).proc ≠ none ∧ (e.cores c).inCs = false ∧ (e.cores c).runStart ≠ e.now ∧
            (redecide = true ∨ (e.cores c).busyUntil = e.now)) := by
        obtain ⟨s, t, len, rfl, -⟩ := alike
        rfl
      rw [Sim.interrupt] at run ⊢
      by_cases due : (e.cores c).proc ≠ none ∧ (e.cores c).inCs = false ∧
        (e.cores c).runStart ≠ e.now ∧
          (redecide = true ∨ (e.cores c).busyUntil = e.now)
      · rw [if_pos due] at run
        rw [if_pos (same.mpr due)]
        obtain ⟨⟨e₂, requeued⟩, ended, run⟩ := Option.bind_eq_some_iff.mp run
        obtain ⟨e₂', ended', alike₂, one₂⟩ := alike.endRun follows kept one hc ended
        obtain ⟨e₃', finished', alike₃⟩ := ih rest_inside alike₂ one₂ run
        refine ⟨e₃', ?_, alike₃⟩
        rw [ended']
        exact finished'
      · rw [if_neg due] at run
        rw [if_neg fun due' => due (same.mp due')]
        exact ih rest_inside alike one run

end Ends

section Cores

omit [Double D] in
theorem oneCoreEach_congr (one : OneCoreEach S.opt.cores e)
    (procs : ∀ c, (e₁.cores c).proc = (e.cores c).proc) : OneCoreEach S.opt.cores e₁ := by
  intro c₁ h₁ c₂ h₂ p on₁ on₂
  rw [procs] at on₁ on₂
  exact one c₁ h₁ c₂ h₂ p on₁ on₂

omit [Double D] in
/-- A core changes, but neither who is on it nor the length that was asked for. -/
theorem Alike.modify {f : Core → Core} (proc_eq : ∀ core, (f core).proc = core.proc)
    (length_eq : ∀ core l, f { core with length := l } = { f core with length := l })
    (alike : Alike S.opt.cores States Tapes e e') (c : Nat) :
    Alike S.opt.cores States Tapes (S.setCore e c (f (e.cores c)))
      ((S.alter Q limit).setCore e' c (f (e'.cores c))) := by
  obtain ⟨s, t, len, rfl, states, tapes, fit⟩ := alike
  refine ⟨s, t, len, ?_, states, tapes, fun c' hc' p on => ?_⟩
  · change (S.alter Q limit).setCore (e.recast s t len) c (f { e.cores c with length := len c }) = _
    rw [length_eq, setCore_recast, Function.update_eq_self]
  · by_cases same : c' = c
    · subst same
      have same_length : (f (e.cores c')).length = (e.cores c').length := by
        have unchanged := length_eq (e.cores c') (e.cores c').length
        have lengths := congrArg Core.length unchanged
        exact lengths
      simp only [setCore, Function.update_self, proc_eq, same_length] at on ⊢
      exact fit c' hc' p on
    · simp only [setCore, Function.update_of_ne same] at on ⊢
      exact fit c' hc' p on

omit [Double D] in
theorem setCore_procs {c : Nat} {core : Core} (proc_eq : core.proc = (e.cores c).proc) (c' : Nat) :
    ((S.setCore e c core).cores c').proc = (e.cores c').proc := by
  by_cases same : c' = c
  · subst same
    simpa [setCore] using proc_eq
  · simp [setCore, same]

omit [Double D] in
theorem beginRun_procs (c p c' : Nat) : ((S.beginRun e c p).cores c').proc = (e.cores c').proc := by
  rw [beginRun_eq_setCore, setCore_procs]
  · simp only [addTime_cores]
    rfl
  · simp only [addTime_cores]
    rfl

omit [Double D] in
theorem beginRun_remaining (c p : Nat) : (S.beginRun e c p).remaining = e.remaining := by
  rw [beginRun_eq_setCore]
  exact addTime_remaining ..

include kept

omit [Double D] in
/-- A slice starts. -/
theorem Alike.beginRun {c p : Nat} (alike : Alike S.opt.cores States Tapes e e')
    (hc : c < S.opt.cores)
    (on : (e.cores c).proc = some p) :
    Alike S.opt.cores States Tapes (S.beginRun e c p) ((S.alter Q limit).beginRun e' c p) := by
  obtain ⟨s, t, len, rfl, states, tapes, fit⟩ := alike
  rw [beginRun_recast e s t len c p (fit c hc p on)]
  refine ⟨s, _, len, rfl, ?_, ?_, fun c' hc' q on' => ?_⟩
  · rw [beginRun_eq_setCore]
    change States (S.addTime (stampStart e p) _ _).1.state s
    rw [addTime_state]
    exact states
  · rw [beginRun_tape]
    exact kept.addTime tapes _
  · rw [beginRun_procs] at on'
    have length : ((S.beginRun e c p).cores c').length = (e.cores c').length := by
      rw [beginRun_eq_setCore]
      simp only [setCore, addTime_cores]
      by_cases same : c' = c
      · subst same
        simp [runningCore]
      · rw [Function.update_of_ne same]
        rfl
    rw [length, beginRun_remaining]
    exact fit c' hc' q on'

omit [Double D] in
/-- A sum on the clock. -/
theorem Alike.addTime (alike : Alike S.opt.cores States Tapes e e') (a b : Int) :
    Alike S.opt.cores States Tapes (S.addTime e a b).1 ((S.alter Q limit).addTime e' a b).1 ∧
      ((S.alter Q limit).addTime e' a b).2 = (S.addTime e a b).2 := by
  obtain ⟨s, t, len, rfl, states, tapes, fit⟩ := alike
  rw [addTime_recast]
  refine ⟨⟨s, _, len, (recast_addTime ..).symm, by rwa [addTime_state], ?_, ?_⟩, rfl⟩
  · rw [addTime_tape]
    exact kept.addTime tapes _
  · intro c hc p on
    rw [addTime_cores] at on ⊢
    rw [addTime_remaining]
    exact fit c hc p on

omit [Double D] in
/-- The end of a switch-in. -/
theorem Alike.finishSwitch {c : Nat} (alike : Alike S.opt.cores States Tapes e e')
    (hc : c < S.opt.cores) :
    Alike S.opt.cores States Tapes (S.finishSwitch e c) ((S.alter Q limit).finishSwitch e' c) := by
  have core_eq : e'.cores c = { e.cores c with length := (e'.cores c).length } ∧
    e'.now = e.now := by
    obtain ⟨s, t, len, rfl, -⟩ := alike
    exact ⟨rfl, rfl⟩
  obtain ⟨core_eq, now_eq⟩ := core_eq
  have proc_eq : (e'.cores c).proc = (e.cores c).proc := by rw [core_eq]
  have idle : ((e'.cores c).inCs = false ∨ (e'.cores c).busyUntil ≠ e'.now) ↔
      ((e.cores c).inCs = false ∨ (e.cores c).busyUntil ≠ e.now) := by
    rw [core_eq, now_eq]
  have cut : ((e'.cores c).recheck = true ∨ (e'.cores c).deadline ≤ e'.now) ↔
      ((e.cores c).recheck = true ∨ (e.cores c).deadline ≤ e.now) := by
    rw [core_eq, now_eq]
  unfold Sim.finishSwitch
  dsimp only
  rw [proc_eq]
  cases on : (e.cores c).proc with
  | none => exact alike
  | some p =>
      dsimp only
      by_cases busy : (e.cores c).inCs = false ∨ (e.cores c).busyUntil ≠ e.now
      · rw [if_pos busy, if_pos (idle.mpr busy)]
        exact alike
      · rw [if_neg busy, if_neg fun h => busy (idle.mp h)]
        by_cases due : (e.cores c).recheck = true ∨ (e.cores c).deadline ≤ e.now
        · rw [if_pos due, if_pos (cut.mpr due)]
          obtain ⟨alike₂, same⟩ := alike.addTime kept e.now 1
          rw [now_eq]
          have cores₂ : (S.addTime e e.now 1).1.cores = e.cores := addTime_cores ..
          have alike₃ := alike₂.modify
            (f := fun core => { core with deadline := (S.addTime e e.now 1).2 })
            (fun _ => rfl) (fun _ _ => rfl) c
          have proc₃ : ((S.setCore (S.addTime e e.now 1).1 c
              { (S.addTime e e.now 1).1.cores c with
                deadline := (S.addTime e e.now 1).2 }).cores c).proc = some p := by
            rw [setCore_procs (by rfl), cores₂]
            exact on
          have alike₄ := alike₃.beginRun kept hc proc₃
          rw [cores₂] at alike₄
          have cores' : ((S.alter Q limit).addTime e' e.now 1).1.cores = e'.cores :=
            addTime_cores ..
          have proc' : (e'.cores c).proc = some p := proc_eq.trans on
          rw [cores', ← same] at alike₄
          rw [← same]
          simp only [on, proc'] at alike₄
          exact alike₄
        · rw [if_neg due, if_neg fun h => due (cut.mp h)]
          exact alike.beginRun kept hc on

omit [Double D] kept in
theorem finishSwitch_procs (e : S.Eng) (c c' : Nat) : ((S.finishSwitch e c).cores c').proc =
    (e.cores c').proc := by
  unfold Sim.finishSwitch
  dsimp only
  cases on : (e.cores c).proc with
  | none => rfl
  | some p =>
      dsimp only
      split_ifs
      · rfl
      · rw [beginRun_procs, setCore_procs]
        · rw [addTime_cores]
        · rw [addTime_cores]
          exact on.symm
      · exact beginRun_procs ..

omit [Double D] kept in
/-- A core that is still switching in is marked. -/
theorem Alike.markRecheck (redecide : Bool) (alike : Alike S.opt.cores States Tapes e e')
    (c : Nat) :
    Alike S.opt.cores States Tapes (S.markRecheck redecide e c)
      ((S.alter Q limit).markRecheck redecide e' c) := by
  have same : (redecide = true ∧ (e'.cores c).proc ≠ none ∧ (e'.cores c).inCs = true) ↔
      (redecide = true ∧ (e.cores c).proc ≠ none ∧ (e.cores c).inCs = true) := by
    obtain ⟨s, t, len, rfl, -⟩ := alike
    rfl
  unfold Sim.markRecheck
  dsimp only
  by_cases due : redecide = true ∧ (e.cores c).proc ≠ none ∧ (e.cores c).inCs = true
  · rw [if_pos due, if_pos (same.mpr due)]
    exact alike.modify (f := fun core => { core with recheck := true }) (fun _ => rfl)
      (fun _ _ => rfl) c
  · rw [if_neg due, if_neg fun due' => due (same.mp due')]
    exact alike

omit [Double D] kept in
theorem markRecheck_procs (redecide : Bool) (e : S.Eng) (c c' : Nat) :
    ((S.markRecheck redecide e c).cores c').proc = (e.cores c').proc := by
  unfold Sim.markRecheck
  dsimp only
  split_ifs
  · exact setCore_procs (by rfl) c'
  · rfl

omit [Double D] kept in
/-- A scan of the cores whose steps keep the processes on them. -/
theorem Alike.scan {step : S.Eng → Nat → S.Eng}
    {step' : (S.alter Q limit).Eng → Nat → (S.alter Q limit).Eng} (cs : List Nat)
    (next : ∀ {e e'}, ∀ c ∈ cs, Alike S.opt.cores States Tapes e e' →
      Alike S.opt.cores States Tapes (step e c) (step' e' c))
    (procs : ∀ e c c', ((step e c).cores c').proc = (e.cores c').proc)
    (alike : Alike S.opt.cores States Tapes e e') (one : OneCoreEach S.opt.cores e) :
    Alike S.opt.cores States Tapes (cs.foldl step e) (cs.foldl step' e') ∧
      OneCoreEach S.opt.cores (cs.foldl step e) := by
  induction cs generalizing e e' with
  | nil => exact ⟨alike, one⟩
  | cons c rest ih =>
      exact ih (fun c mem => next c (List.mem_cons_of_mem _ mem)) (next c List.mem_cons_self alike)
        (oneCoreEach_congr one (procs e c))

end Cores

/-! ## One instant -/

section Instants

include follows kept

/-- Everything that happens at one instant. -/
theorem Alike.processInstant (alike : Alike S.opt.cores States Tapes e e')
    (one : OneCoreEach S.opt.cores e) (run : S.processInstant e = some e₁) :
    ∃ e₁', (S.alter Q limit).processInstant e' = some e₁' ∧
      Alike S.opt.cores States Tapes e₁ e₁' := by
  have inside : ∀ c ∈ List.range S.opt.cores, c < S.opt.cores := fun c mem => List.mem_range.mp mem
  have same : (S.alter Q limit).cutDue e' = S.cutDue e ∧ e'.pending = e.pending := by
    obtain ⟨s, t, len, rfl, -⟩ := alike
    exact ⟨rfl, rfl⟩
  obtain ⟨⟨e₂, arrived⟩, admitted, run⟩ := Option.bind_eq_some_iff.mp run
  obtain ⟨⟨e₃, woken⟩, awake, run⟩ := Option.bind_eq_some_iff.mp run
  obtain ⟨⟨e₄, requeued⟩, finished, run⟩ := Option.bind_eq_some_iff.mp run
  obtain ⟨e₂', admitted', alike₂, cores₂⟩ := alike.admitArrivals follows admitted
  have blocked : e₂'.blocked.len = e₂.blocked.len := by
    obtain ⟨s, t, len, rfl, -⟩ := alike₂
    rfl
  obtain ⟨e₃', awake', alike₃, cores₃⟩ := alike₂.wakeBlocked follows awake
  have one₃ : OneCoreEach S.opt.cores e₃ := oneCoreEach_congr one fun c => by rw [cores₃, cores₂]
  obtain ⟨e₄', finished', alike₄, one₄⟩ := alike₃.endFinished follows kept inside one₃ finished
  obtain ⟨redecide, redecide_eq⟩ : ∃ redecide : Bool, redecide =
    (S.policy.preemptOnReady && ((arrived || woken) || requeued || S.cutDue e)) := ⟨_, rfl⟩
  obtain ⟨alike₅, one₅⟩ := alike₄.scan (List.range S.opt.cores)
    (fun c _ alike => alike.markRecheck redecide c) (markRecheck_procs redecide) one₄
  obtain ⟨alike₆, one₆⟩ := alike₅.scan (List.range S.opt.cores)
    (fun c mem alike => alike.finishSwitch kept (c := c) (inside c mem)) finishSwitch_procs one₅
  dsimp only at run
  rw [← redecide_eq] at run
  obtain ⟨e₁', interrupted', alike₁⟩ := alike₆.interrupt follows kept inside one₆ run
  refine ⟨e₁', ?_, alike₁⟩
  have preempts : (S.alter Q limit).policy.preemptOnReady = S.policy.preemptOnReady :=
    follows.preemptOnReady_eq
  unfold Sim.processInstant
  rw [same.1, same.2, admitted', preempts]
  simp only [Option.bind_eq_bind, Option.bind_some]
  rw [blocked, awake']
  simp only [Option.bind_some]
  have finished' : (S.alter Q limit).endFinished (List.range (S.alter Q limit).opt.cores) e₃' =
      some (e₄', requeued) := finished'
  rw [finished']
  simp only [Option.bind_some]
  rw [← redecide_eq]
  exact interrupted'

end Instants

/-! ## Dispatching -/

/-- The first pass of `dispatch`. -/
def homePass (S : Sim D) (picks : List Slice) (e : S.Eng) :
    Option (S.Eng × (Nat → Bool) × List Slice) :=
  if 1 < S.opt.cores then S.placeHome picks e fun _ => false else some (e, fun _ => false, picks)

omit [Double D] in
theorem dispatch_eq_bind (e : S.Eng) : S.dispatch e =
    (S.collectPicks ((List.range S.opt.cores).countP fun c => (e.cores c).proc = none) e).bind
      fun picked => (S.homePass picked.2 picked.1).bind fun home => S.placeRest home.2.2 0
        home.1 home.2.1 := by
  unfold Sim.dispatch homePass
  split_ifs <;> rfl

section Placing

include kept

omit [Double D] in
/-- A slice is seated. -/
theorem Alike.seat {c : Nat} {slice slice' : Slice} (alike : Alike S.opt.cores States Tapes e e')
    (fits : SlicesFit e.remaining slice slice') :
    Alike S.opt.cores States Tapes (S.seat e c slice) ((S.alter Q limit).seat e' c slice') := by
  obtain ⟨s, t, len, rfl, states, tapes, fit⟩ := alike
  rw [seat_recast e s t len c slice slice' fits.proc_eq fits.deadline_eq]
  refine ⟨s, _, _, rfl, ?_, ?_, fun c' hc' p on => ?_⟩
  · rw [seat_eq, append_eq]
    exact states
  · rw [seat_tape]
    exact kept.append _ _ _ _ _ tapes
  · have cores : (S.seat e c slice).cores = Function.update e.cores c
      (seatedCore (e.cores c) slice) ∧
        (S.seat e c slice).remaining = e.remaining := by
      rw [seat_eq, append_eq]
      exact ⟨rfl, rfl⟩
    rw [cores.1] at on ⊢
    rw [cores.2]
    by_cases same : c' = c
    · subst same
      simp only [Function.update_self] at on ⊢
      cases on
      exact fits.fits
    · simp only [Function.update_of_ne same] at on ⊢
      exact fit c' hc' p on

omit [Double D] in
/-- A switch-in starts. -/
theorem Alike.switchIn (alike : Alike S.opt.cores States Tapes e e') (c p : Nat) :
    Alike S.opt.cores States Tapes (S.switchIn e c p) ((S.alter Q limit).switchIn e' c p) := by
  obtain ⟨s, t, len, rfl, states, tapes, fit⟩ := alike
  rw [switchIn_recast]
  have shape : (S.switchIn e c p).state = e.state ∧ (S.switchIn e c p).remaining = e.remaining ∧
      (S.switchIn e c p).cores = Function.update e.cores c { e.cores c with
        inCs := true, busyUntil := (ckAddI64 e.now S.opt.csCost).getD int64Max } := by
    rw [switchIn_eq_append, append_eq, addTime_eq]
    exact ⟨rfl, rfl, rfl⟩
  refine ⟨s, _, len, rfl, by rwa [shape.1], ?_, fun c' hc' q on => ?_⟩
  · rw [switchIn_tape]
    exact kept.append _ _ _ _ _ (kept.addTime tapes _)
  · rw [shape.2.2] at on ⊢
    rw [shape.2.1]
    by_cases same : c' = c
    · subst same
      simp only [Function.update_self] at on ⊢
      exact fit c' hc' q on
    · simp only [Function.update_of_ne same] at on ⊢
      exact fit c' hc' q on

omit [Double D] in
/-- A slice is dispatched. -/
theorem Alike.dispatchOne {c : Nat} {slice slice' : Slice} (hc : c < S.opt.cores)
    (alike : Alike S.opt.cores States Tapes e e') (fits : SlicesFit e.remaining slice slice')
    (run : S.dispatchOne e c slice = some e₁) :
    ∃ e₁', (S.alter Q limit).dispatchOne e' c slice' = some e₁' ∧
      Alike S.opt.cores States Tapes e₁ e₁' ∧ e₁.remaining = e.remaining := by
  have same : (S.alter Q limit).switching e' c slice'.proc = S.switching e c slice.proc ∧
      e'.remaining = e.remaining ∧ e'.now = e.now := by
    obtain ⟨s, t, len, rfl, -⟩ := alike
    rw [fits.proc_eq]
    exact ⟨rfl, rfl, rfl⟩
  have alike₂ := alike.seat kept (c := c) fits
  obtain ⟨⟨⟩, pass, run⟩ := Option.bind_eq_some_iff.mp run
  have pass' : S.build.assert (slice'.proc < S.w.len ∧ 0 < e'.remaining slice'.proc ∧
      0 < slice'.length ∧ e'.now < slice'.deadline) = some () := by
    unfold Build.assert at pass ⊢
    split_ifs at pass with cond
    rw [if_pos]
    refine cond.imp_right fun holds => ?_
    simp only [decide_eq_true_eq] at holds ⊢
    rw [same.2.1, same.2.2, fits.proc_eq, fits.deadline_eq]
    exact ⟨holds.1, holds.2.1, fits.pos holds.2.2.1, holds.2.2.2⟩
  have seated : ((S.seat e c slice).cores c).proc = some slice.proc ∧
      (S.seat e c slice).remaining = e.remaining := by
    rw [seat_eq, append_eq]
    exact ⟨by simp [seatedCore], rfl⟩
  have target : (S.alter Q limit).dispatchOne e' c slice' =
      if S.switching e c slice.proc = true ∧ 0 < S.opt.csCost then
        some ((S.alter Q limit).switchIn ((S.alter Q limit).seat e' c slice') c slice.proc)
      else some ((S.alter Q limit).beginRun ((S.alter Q limit).seat e' c slice') c slice.proc) := by
    unfold Sim.dispatchOne
    rw [pass', same.1, fits.proc_eq]
    rfl
  rw [target]
  split_ifs at run ⊢ with switch
  · cases run
    refine ⟨_, rfl, alike₂.switchIn kept c slice.proc, ?_⟩
    rw [switchIn_eq_append, append_eq, addTime_eq]
    exact seated.2
  · cases run
    exact ⟨_, rfl, alike₂.beginRun kept hc seated.1, (beginRun_remaining ..).trans seated.2⟩

omit [Double D] in
/-- The slices whose process last ran on a free core. -/
theorem Alike.placeHome {picks picks' left : List Slice} {used used₁ : Nat → Bool}
    {remaining : Nat → Int} (alike : Alike S.opt.cores States Tapes e e')
    (fits : List.Forall₂ (SlicesFit remaining) picks picks')
      (remaining_eq : e.remaining = remaining)
    (run : S.placeHome picks e used = some (e₁, used₁, left)) :
    ∃ e₁' left', (S.alter Q limit).placeHome picks' e' used = some (e₁', used₁, left') ∧
      Alike S.opt.cores States Tapes e₁ e₁' ∧ e₁.remaining = remaining ∧
      List.Forall₂ (SlicesFit remaining) left left' := by
  induction fits generalizing e e' used left with
  | nil =>
      cases run
      exact ⟨e', [], rfl, alike, remaining_eq, .nil⟩
  | @cons slice slice' picks picks' here rest ih =>
      have home : ((List.range (S.alter Q limit).opt.cores).find? fun c =>
            (S.alter Q limit).isFree e' used c && ((e'.cores c).context = some slice'.proc)) =
          (List.range S.opt.cores).find? fun c =>
            S.isFree e used c && ((e.cores c).context = some slice.proc) := by
        obtain ⟨s, t, len, rfl, -⟩ := alike
        rw [here.proc_eq]
        rfl
      rw [Sim.placeHome] at run ⊢
      rw [home]
      cases found : (List.range S.opt.cores).find? fun c =>
          S.isFree e used c && ((e.cores c).context = some slice.proc) with
      | some c =>
          rw [found] at run
          have hc := List.mem_range.mp (List.mem_of_find?_eq_some found)
          obtain ⟨e₂, placed, run⟩ := Option.bind_eq_some_iff.mp run
          obtain ⟨e₂', placed', alike₂, remaining₂⟩ :=
            alike.dispatchOne kept hc (remaining_eq ▸ here) placed
          obtain ⟨e₁', left', run', alike₁, remaining₁, fits⟩ :=
            ih alike₂ (remaining₂.trans remaining_eq) run
          refine ⟨e₁', left', ?_, alike₁, remaining₁, fits⟩
          dsimp only
          rw [placed']
          exact run'
      | none =>
          rw [found] at run
          obtain ⟨⟨e₂, used₂, left₂⟩, placed, run⟩ := Option.bind_eq_some_iff.mp run
          cases run
          obtain ⟨e₁', left', run', alike₁, remaining₁, fits⟩ := ih alike remaining_eq placed
          refine ⟨e₁', slice' :: left', ?_, alike₁, remaining₁, .cons here fits⟩
          dsimp only
          rw [run']
          rfl

omit [Double D] in
/-- The other slices. -/
theorem Alike.placeRest {picks picks' : List Slice} {used : Nat → Bool} {c : Nat}
    {remaining : Nat → Int} (alike : Alike S.opt.cores States Tapes e e')
    (fits : List.Forall₂ (SlicesFit remaining) picks picks')
      (remaining_eq : e.remaining = remaining)
    (run : S.placeRest picks c e used = some e₁) :
    ∃ e₁', (S.alter Q limit).placeRest picks' c e' used = some e₁' ∧
      Alike S.opt.cores States Tapes e₁ e₁' := by
  induction fits generalizing e e' used c with
  | nil =>
      cases run
      exact ⟨e', rfl, alike⟩
  | @cons slice slice' picks picks' here rest ih =>
      have first : ((List.range (S.alter Q limit).opt.cores).find? fun i =>
            decide (c ≤ i) && (S.alter Q limit).isFree e' used i) =
          (List.range S.opt.cores).find? fun i => decide (c ≤ i) && S.isFree e used i := by
        obtain ⟨s, t, len, rfl, -⟩ := alike
        rfl
      rw [Sim.placeRest] at run ⊢
      rw [first]
      cases found : (List.range S.opt.cores).find? fun i => decide (c ≤ i) && S.isFree e used i with
      | none =>
          rw [found] at run
          cases run
      | some i =>
          rw [found] at run
          have hi := List.mem_range.mp (List.mem_of_find?_eq_some found)
          obtain ⟨e₂, placed, run⟩ := Option.bind_eq_some_iff.mp run
          obtain ⟨e₂', placed', alike₂, remaining₂⟩ :=
            alike.dispatchOne kept hi (remaining_eq ▸ here) placed
          obtain ⟨e₁', run', alike₁⟩ := ih alike₂ (remaining₂.trans remaining_eq) run
          refine ⟨e₁', ?_, alike₁⟩
          dsimp only
          rw [placed']
          exact run'

omit [Double D] in
/-- The first pass of `dispatch`, which one core does not need. -/
theorem Alike.homePass {picks picks' left : List Slice} {used : Nat → Bool}
    (alike : Alike S.opt.cores States Tapes e e')
    (fits : List.Forall₂ (SlicesFit e.remaining) picks picks')
    (run : S.homePass picks e = some (e₁, used, left)) :
    ∃ e₁' left', (S.alter Q limit).homePass picks' e' = some (e₁', used, left') ∧
      Alike S.opt.cores States Tapes e₁ e₁' ∧ e₁.remaining = e.remaining ∧
      List.Forall₂ (SlicesFit e.remaining) left left' := by
  unfold Sim.homePass at run ⊢
  dsimp only
  split_ifs at run ⊢ with many
  · exact alike.placeHome kept fits rfl run
  · cases run
    exact ⟨e', picks', rfl, alike, rfl, fits⟩

end Placing

section Picking

include follows

omit [Double D] in
/-- The slices that are offered. -/
theorem Alike.collectPicks {nfree : Nat} {picks : List Slice}
    (alike : Alike S.opt.cores States Tapes e e') (view : View (S.view e))
    (run : S.collectPicks nfree e = some (e₁, picks)) :
    ∃ e₁' picks', (S.alter Q limit).collectPicks nfree e' = some (e₁', picks') ∧
      Alike S.opt.cores States Tapes e₁ e₁' ∧ e₁.remaining = e.remaining ∧
      List.Forall₂ (SlicesFit e.remaining) picks picks' := by
  induction nfree generalizing e e' picks with
  | zero =>
      cases run
      exact ⟨e', [], rfl, alike, rfl, .nil⟩
  | succ nfree ih =>
      obtain ⟨s, t, len, rfl, states, tapes, fit⟩ := alike
      obtain ⟨⟨state, pick⟩, answer, run⟩ := Option.bind_eq_some_iff.mp run
      cases pick with
      | none =>
          cases run
          obtain ⟨state', answer', states'⟩ := follows.refuse view states answer
          have answer' : (S.alter Q limit).policy.nextSlice
            ((S.alter Q limit).view (e.recast s t len)) s =
              some (state', none) := answer'
          refine ⟨{ e with state }.recast state' t len, [], ?_,
            ⟨state', t, len, rfl, states', tapes, fit⟩,
            rfl, .nil⟩
          rw [Sim.collectPicks, answer']
          rfl
      | some slice =>
          obtain ⟨⟨e₂, rest⟩, collected, run⟩ := Option.bind_eq_some_iff.mp run
          cases run
          obtain ⟨state', slice', answer', states', fits⟩ := follows.pick view states answer
          have answer' : (S.alter Q limit).policy.nextSlice
            ((S.alter Q limit).view (e.recast s t len)) s =
              some (state', some slice') := answer'
          have alike₂ : Alike S.opt.cores States Tapes { e with state }
              ({ e with state }.recast state' t len) := ⟨state', t, len, rfl, states', tapes, fit⟩
          obtain ⟨e₁', picks', run', alike₁, remaining₁, more⟩ := ih alike₂ view collected
          refine ⟨e₁', slice' :: picks', ?_, alike₁, remaining₁, .cons fits more⟩
          have run' : (S.alter Q limit).collectPicks nfree
            { e.recast s t len with state := state' } =
              some (e₁', picks') := run'
          rw [Sim.collectPicks, answer']
          simp only [Option.bind_eq_bind, Option.bind_some]
          rw [run']
          rfl

include kept

omit [Double D] in
/-- The free cores are offered. -/
theorem Alike.dispatch (alike : Alike S.opt.cores States Tapes e e') (view : View (S.view e))
    (run : S.dispatch e = some e₁) :
    ∃ e₁', (S.alter Q limit).dispatch e' = some e₁' ∧ Alike S.opt.cores States Tapes e₁ e₁' := by
  have free : ((List.range (S.alter Q limit).opt.cores).countP fun c => (e'.cores c).proc = none) =
      (List.range S.opt.cores).countP fun c => (e.cores c).proc = none := by
    obtain ⟨s, t, len, rfl, -⟩ := alike
    rfl
  rw [dispatch_eq_bind] at run
  obtain ⟨⟨e₂, picks⟩, collected, run⟩ := Option.bind_eq_some_iff.mp run
  obtain ⟨⟨e₃, used, left⟩, home, placed⟩ := Option.bind_eq_some_iff.mp run
  obtain ⟨e₂', picks', collected', alike₂, remaining₂, fits₂⟩ :=
    alike.collectPicks follows view collected
  rw [← remaining₂] at fits₂
  obtain ⟨e₃', left', home', alike₃, remaining₃, fits₃⟩ := alike₂.homePass kept fits₂ home
  obtain ⟨e₁', placed', alike₁⟩ := alike₃.placeRest kept fits₃ remaining₃ placed
  refine ⟨e₁', ?_, alike₁⟩
  rw [dispatch_eq_bind, free, collected']
  simp only [Option.bind_some]
  rw [home']
  exact placed'

end Picking

end Steps

end Sim

end CpuSched
