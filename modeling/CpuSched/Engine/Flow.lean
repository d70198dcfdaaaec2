import CpuSched.Engine.Schedule

/-!
# Flow times

For processes of a single burst and switches that cost nothing: what each process still
has to run, and the time it has spent since its arrival.  Within an instant both change
only by the admission of a process.
-/

namespace CpuSched

namespace Sim

variable {D : Type} {S : Sim D}

/-- What a process that has been admitted still has to run. -/
def Config.left (a : S.Config) (p : Nat) : Int :=
  match a.spots p with
  | .new => 0
  | .blocked => 0
  | .done => 0
  | .core c _ => a.eng.remaining p - (a.eng.now - (a.eng.cores c).runStart)
  | _ => a.eng.remaining p

/-- The time since the arrival of a process, up to its completion. -/
def Config.flow (a : S.Config) (p : Nat) : Int :=
  match a.spots p with
  | .new => 0
  | .done => (a.eng.outcomes p).completion - (S.w.proc p).arrival
  | _ => a.eng.now - (S.w.proc p).arrival

/-- No core is switching in and no process is in I/O. -/
structure Direct (a : S.Config) : Prop where
  runs : ∀ p c s, a.spots p = .core c s → (a.eng.cores c).inCs = false
  unblocked : ∀ p, a.spots p ≠ .blocked

/-- The two configurations agree on a process. -/
structure SameProc (a b : S.Config) (p : Nat) : Prop where
  left : b.left p = a.left p
  flow : b.flow p = a.flow p
  new_iff : b.spots p = .new ↔ a.spots p = .new

/-- Process `p`, which arrives now, is admitted. -/
structure Admits (a b : S.Config) (p : Nat) : Prop where
  inside : p < S.w.len
  new : a.spots p = .new
  arrival_eq : (S.w.proc p).arrival = a.eng.now
  left : b.left p = (S.w.proc p).burst
  flow : b.flow p = 0
  known : b.spots p ≠ .new
  others : ∀ q, q ≠ p → SameProc a b q

/-- A process that stays where it is keeps both. -/
theorem SameProc.of_eq {a b : S.Config} {p : Nat} (spots : b.spots p = a.spots p)
    (now_eq : b.eng.now = a.eng.now) (remaining : b.eng.remaining p = a.eng.remaining p)
    (completion : (b.eng.outcomes p).completion = (a.eng.outcomes p).completion)
    (runStart : ∀ c s, a.spots p = .core c s →
      (b.eng.cores c).runStart = (a.eng.cores c).runStart) : SameProc a b p := by
  refine ⟨?_, ?_, by rw [spots]⟩
  · unfold Config.left
    rw [spots]
    cases here : a.spots p with
    | core c s => simp only [now_eq, remaining, runStart c s here]
    | _ => simp only [remaining]
  · unfold Config.flow
    rw [spots]
    cases here : a.spots p <;> simp only [now_eq, completion]

/-- One process moves to another spot, the others stay where they are. -/
theorem Direct.moved {e e' : S.Eng} {sp : Nat → Spot} {p : Nat} {z : Spot} (direct : Direct ⟨e, sp⟩)
    (own : SameProc ⟨e, sp⟩ ⟨e', Function.update sp p z⟩ p) (unblocked : z ≠ .blocked)
    (runs : ∀ c s, z = .core c s → (e'.cores c).inCs = false) (now_eq : e'.now = e.now)
    (rest : ∀ q, q ≠ p → e'.remaining q = e.remaining q ∧
      (e'.outcomes q).completion = (e.outcomes q).completion)
    (cores : ∀ q c s, q ≠ p → sp q = .core c s → e'.cores c = e.cores c) :
    Direct ⟨e', Function.update sp p z⟩ ∧ ∀ q, SameProc ⟨e, sp⟩ ⟨e', Function.update sp p z⟩ q := by
  refine ⟨⟨fun q c s here => ?_, fun q here => ?_⟩, fun q => ?_⟩
  · by_cases same : q = p
    · subst same
      exact runs c s (by simpa using here)
    · simp only [Function.update_of_ne same] at here
      rw [cores q c s same here]
      exact direct.runs q c s here
  · by_cases same : q = p
    · subst same
      exact unblocked (by simpa using here)
    · simp only [Function.update_of_ne same] at here
      exact direct.unblocked q here
  · by_cases same : q = p
    · exact same ▸ own
    · exact .of_eq (Function.update_of_ne same ..) now_eq (rest q same).1 (rest q same).2
        fun c s here => by rw [cores q c s same here]

/-- The processes have a single burst, and a switch costs nothing. -/
structure Plain (S : Sim D) : Prop where
  oneBurst : ∀ p < S.w.len, (S.w.proc p).phaseCount = 1
  free : S.opt.csCost = 0

section Moves

variable [Double D] {PInv : SchedView D → S.policy.State → Places → Prop} {budget : Int}
  {a b : S.Config}

omit [Double D] in
/-- The only burst is the first phase. -/
theorem Plain.burst_eq (plain : Plain S) (valid : S.w.Valid) {p : Nat} (hp : p < S.w.len) :
    (S.w.proc p).phase 0 = (S.w.proc p).burst := by
  have one := plain.oneBurst p hp
  rw [(valid.proc hp).burst_eq]
  unfold Process.phaseCount at one
  obtain ⟨x, phases⟩ := List.length_eq_one_iff.mp one
  simp [Process.phase, phases]

omit [Double D] in
theorem Plain.phase_eq (plain : Plain S) (sound : S.Sound PInv budget a) {p : Nat}
    (hp : p < S.w.len)
    (unfinished : a.spots p ≠ .done) : a.eng.phase p = 0 := by
  have := (sound.data.progress p hp unfinished).phase_lt
  have := plain.oneBurst p hp
  omega

/-- A move admits a process that arrives now, or changes neither what the processes have
left nor their time in the system. -/
theorem Move.flow (plain : Plain S) (valid : S.w.Valid)
    (contract : Contract S.w S.policy PInv) (move : S.Move a b)
    (sound : S.Sound PInv budget a) (direct : Direct a) :
    Direct b ∧ ((∀ p, SameProc a b p) ∨ ∃ p, Admits a b p) := by
  have hcs : 0 ≤ S.opt.csCost := plain.free.ge
  -- a process that leaves its core leaves the others alone
  have others : ∀ {e e' : S.Eng} {sp : Nat → Spot} {c p : Nat} {s : Slice} {core : Core},
      S.Sound PInv budget ⟨e, sp⟩ → sp p = .core c s →
      e'.cores = Function.update e.cores c core →
      ∀ q c' s', q ≠ p → sp q = .core c' s' → e'.cores c' = e.cores c' := by
    intro e e' sp c p s core sound seat cores_eq q c' s' ne here
    rw [cores_eq, Function.update_of_ne]
    rintro rfl
    exact ne (sound.alone seat here)
  have stay : (Direct b ∧ ∀ p, SameProc a b p) → Direct b ∧
    ((∀ p, SameProc a b p) ∨ ∃ p, Admits a b p) :=
    fun both => ⟨both.1, .inl both.2⟩
  cases move with
  | @arrive e sp key rest state pending due hook =>
      have mem : key ∈ e.pending := by
        rw [pending]
        exact List.mem_cons_self
      obtain ⟨hp, new⟩ := (sound.pending.mem_iff key.index).mp (List.mem_map_of_mem mem)
      have new : sp key.index = .new := new
      have arrives : (S.w.proc key.index).arrival = e.now := by
        rw [← (sound.pending.keys key mem).1]
        exact le_antisymm due (sound.pending.arrival_ge key mem)
      have unfinished : sp key.index ≠ .done := by simp [new]
      have burst : e.remaining key.index = (S.w.proc key.index).burst := by
        rw [sound.data.fresh key.index hp (.inl new),
          (sound.data.progress key.index hp unfinished).burstLen_eq,
          plain.phase_eq sound hp unfinished, plain.burst_eq valid hp]
      refine ⟨⟨fun p c s here => ?_, fun p here => ?_⟩,
        .inr ⟨key.index, hp, new, arrives, ?_, ?_, by simp, fun q ne => ?_⟩⟩
      · by_cases same : p = key.index
        · subst same
          simp at here
        · simp only [Function.update_of_ne same] at here
          exact direct.runs p c s here
      · by_cases same : p = key.index
        · subst same
          simp at here
        · simp only [Function.update_of_ne same] at here
          exact direct.unblocked p here
      · simpa [Config.left] using burst
      · simp [Config.flow, arrives]
      · exact .of_eq (by simp [ne]) rfl rfl rfl fun _ _ _ => rfl
  | @wake e sp p heap state popped due hook =>
      have blocked : sp p = .blocked := (sound.blocked.pop (blockedLess_total valid _)
        (fun q hq => sound.inside fun h => by cases hq.symm.trans h) popped (z := .ready)
        (by simp)).1
      exact absurd blocked (direct.unblocked p)
  | @preempt e sp c p s f state seat runs ran left hook_eq hook =>
      have cores : (S.chargeRun e c p).cores =
          Function.update e.cores c { e.cores c with proc := none, freeSince := e.now } := by simp
      refine stay (direct.moved
        ⟨by simp [Config.left, seat], by simp [Config.flow, seat], by simp [seat]⟩ (by simp)
        (by simp) (by simp) (fun q ne => ⟨by simp [ne], by simp⟩) (others sound seat cores))
  | @block e sp c p s heap state seat runs ran used more pushed hook =>
      have hp : p < S.w.len := sound.inside (by simp [seat])
      have phase : e.phase p = 0 := plain.phase_eq sound hp (by simp [seat])
      exact absurd (by rw [plain.oneBurst p hp, phase]) more
  | @complete e sp c p s state seat runs ran used last hook =>
      have cores : (S.finishProcess (S.burstOver e c p) p).cores =
          Function.update e.cores c { e.cores c with proc := none, freeSince := e.now } := by
        simp [finishProcess, burstOver]
      simp only [chargeRun_remaining, Function.update_self] at used
      refine stay (direct.moved
        ⟨by simp [Config.left, seat, used], by simp [Config.flow, seat, finishProcess, burstOver],
          by simp [seat]⟩ (by simp) (by simp) (by simp [finishProcess, burstOver])
        (fun q ne => ⟨by simp [finishProcess, burstOver,
          ne], by simp [finishProcess, burstOver, ne]⟩)
        (others sound seat cores))
  | @mark e sp c p s seat switching redecides =>
      cases (direct.runs p c s seat).symm.trans switching
  | @start e sp c p s deadline seat switching elapsed deadline_eq =>
      cases (direct.runs p c s seat).symm.trans switching
  | @pick e sp s state hook early =>
      have ready := (sound.pick contract hook early).1
      refine stay (direct.moved
        ⟨by simp [Config.left, ready], by simp [Config.flow, ready], by simp [ready]⟩ (by simp)
        (by simp) rfl (fun _ _ => ⟨rfl, rfl⟩) (fun _ _ _ _ _ => rfl))
  | refuse hook early => exact ⟨⟨direct.runs, direct.unblocked⟩, .inl fun _ => ⟨rfl, rfl, Iff.rfl⟩⟩
  | @place e sp c s held core_lt free fits =>
      rw [sound.placed_eq valid hcs held fits] at stay ⊢
      have core : S.placedCore e c s = startedCore (seatedCore (e.cores c) s) e.now
        (e.remaining s.proc) := by
        simp [placedCore, plain.free]
      have untouched : ∀ q c' s', q ≠ s.proc → sp q = .core c' s' →
          Function.update e.cores c (S.placedCore e c s) c' = e.cores c' := by
        intro q c' s' ne here
        rw [Function.update_of_ne]
        rintro rfl
        have on := (sound.cores.seat q c' s' here).2.2.proc_eq
        cases free.symm.trans on
      have completion : ∀ q, (S.placedOutcomes e c s q).completion = (e.outcomes q).completion := by
        intro q
        simp only [placedOutcomes, plain.free, lt_irrefl, and_false, if_false]
        by_cases same : q = s.proc
        · subst same
          simp
        · simp [same]
      refine stay (direct.moved
        ⟨by simp [Config.left, held, core,
          startedCore], by simp [Config.flow, held], by simp [held]⟩
        (by simp) (fun c' s' eq => ?_) rfl (fun q _ => ⟨rfl, completion q⟩) untouched)
      cases eq
      simp [core, startedCore]

end Moves

end Sim

end CpuSched
