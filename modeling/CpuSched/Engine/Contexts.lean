import CpuSched.Engine.Ledger
import CpuSched.Engine.Assertions

/-!
# Contexts

The context of a core outlives the process on it.  `dispatch` seats every slice on
a free core of its own and keeps the contexts of the cores apart, so a process that
is interrupted and picked again finds its own core.
-/

namespace CpuSched

namespace Sim

variable {D : Type} [Double D] {S : Sim D}
variable {PInv : SchedView D → S.policy.State → Places → Prop}

/-- No two cores have the context of the same process. -/
def ContextsApart (S : Sim D) (e : S.Eng) : Prop :=
  ∀ c < S.opt.cores, ∀ c' < S.opt.cores, ∀ p, (e.cores c).context = some p →
    (e.cores c').context = some p → c = c'

/-! ## Seating slices -/

/-- The slices of `seats` have entered the engine `e`, each on its core, and the
engine is now `e'`. -/
structure Seated (S : Sim D) (e : S.Eng) (seats : List (Nat × Slice)) (e' : S.Eng) : Prop where
  now_eq : e'.now = e.now
  nodup : (seats.map Prod.fst).Nodup
  free : ∀ x ∈ seats, x.1 < S.opt.cores ∧ (e.cores x.1).proc = none
  others : ∀ c ∉ seats.map Prod.fst, e'.cores c = e.cores c ∧ e'.timelines c = e.timelines c
  on : ∀ x ∈ seats, (e'.cores x.1).proc = some x.2.proc ∧ (e'.cores x.1).context = some x.2.proc
  /-- A core that last ran the process, until now, just goes on with it. -/
  goesOn : ∀ x ∈ seats, (e.cores x.1).context = some x.2.proc → (e.cores x.1).freeSince = e.now →
    (e'.cores x.1).inCs = false ∧ (e'.cores x.1).runStart = e.now ∧
      e'.timelines x.1 = e.timelines x.1
  switches_eq : e'.switches = e.switches +
    (seats.map fun x => switchesTo (e.cores x.1) x.2.proc).sum
  csTime_eq : e'.csTime = e.csTime +
    (seats.map fun x => switchesTo (e.cores x.1) x.2.proc).sum * S.opt.csCost

omit [Double D] in
theorem Seated.nil (e : S.Eng) : Seated S e [] e :=
  ⟨rfl, by simp, by simp, by simp, by simp, by simp, by simp, by simp⟩

omit [Double D] in
theorem switching_iff {e : S.Eng} {c p : Nat} :
    S.switching e c p = true ↔ switchesTo (e.cores c) p = 1 := by
  unfold switching switchesTo
  split_ifs with stays
  · simp only [decide_eq_true_eq]
    exact iff_of_false (fun h => stays.elim h.1 h.2) (by simp)
  · simpa using not_or.mp stays

theorem switchesTo_cases (core : Core) (p : Nat) : switchesTo core p = 0 ∨
    switchesTo core p = 1 := by
  unfold switchesTo
  split_ifs
  · exact .inl rfl
  · exact .inr rfl

omit [Double D] in
theorem append_timelines_ne (e : S.Eng) {c c' : Nat} (ne : c' ≠ c) (a b : Int) (r : Option Nat)
    (k : SegmentKind) : (S.append e c a b r k).timelines c' = e.timelines c' := by
  have pushed : ∀ seg, (S.pushSegment e c seg).timelines c' = e.timelines c' := by
    intro seg
    unfold pushSegment
    split_ifs
    · rfl
    · exact Function.update_of_ne ne ..
  unfold append
  split_ifs
  · rfl
  · split
    · split_ifs
      · exact Function.update_of_ne ne ..
      · exact pushed _
    · exact pushed _

section DispatchOne

variable (e : S.Eng) (c : Nat) (s : Slice)

omit [Double D] in
theorem beginRun_keeps (p : Nat) : (S.beginRun e c p).timelines = e.timelines ∧
    (S.beginRun e c p).switches = e.switches ∧ (S.beginRun e c p).csTime = e.csTime ∧
    ∃ runEnd busyUntil, (S.beginRun e c p).cores = Function.update e.cores c
      { e.cores c with inCs := false, runStart := e.now, runEnd, busyUntil } := by
  unfold beginRun
  split_ifs
  all_goals
    simp only [setCore, addTime_cores, addTime_timelines, addTime_switches, addTime_csTime,
      addTime_now, true_and]
    exact ⟨_, _, rfl⟩

omit [Double D] in
theorem switchIn_keeps (p : Nat) : (S.switchIn e c p).switches = e.switches ∧
    (S.switchIn e c p).csTime = e.csTime + S.opt.csCost ∧
    (∀ c', c' ≠ c → (S.switchIn e c p).timelines c' = e.timelines c') ∧
    ∃ busyUntil, (S.switchIn e c p).cores = Function.update e.cores c
      { e.cores c with inCs := true, busyUntil } := by
  refine ⟨by simp [switchIn, setCore], by simp [switchIn, setCore], fun c' ne => ?_, ?_⟩
  · simp only [switchIn]
    rw [append_timelines_ne _ ne]
    simp [setCore]
  · simp only [switchIn, setCore, addTime_cores, append_cores]
    exact ⟨_, rfl⟩

end DispatchOne

omit [Double D] in
/-- `dispatch_one` seats one slice. -/
theorem dispatchOne_seated (hcs : 0 ≤ S.opt.csCost) {e e' : S.Eng} {c : Nat} {s : Slice}
    (core_lt : c < S.opt.cores) (free : (e.cores c).proc = none)
    (run : S.dispatchOne e c s = some e') : Seated S e [(c, s)] e' := by
  simp only [dispatchOne, Option.bind_eq_bind, Option.bind_eq_some_iff] at run
  obtain ⟨-, -, run⟩ := run
  have seat := S.seat_eq e c s
  have counted : (S.seat e c s).switches = e.switches + switchesTo (e.cores c) s.proc := by
    rw [seat]
    split_ifs with switches
    · rw [switching_iff.mp switches]
    · rw [switching_iff] at switches
      rw [(switchesTo_cases _ _).resolve_right switches, add_zero]
  have untouched : ∀ c', c' ≠ c → (S.seat e c s).timelines c' = e.timelines c' := by
    intro c' ne
    rw [seat]
    exact append_timelines_ne e ne ..
  have now_eq : (S.seat e c s).now = e.now := by rw [seat]
  have cores_eq : (S.seat e c s).cores = Function.update e.cores c (seatedCore (e.cores c) s) := by
    rw [seat]
  have csTime_eq : (S.seat e c s).csTime = e.csTime := by rw [seat]
  split_ifs at run with switches
  · cases run
    have one := switching_iff.mp switches.1
    obtain ⟨kept, charged, timelines, busyUntil, cores⟩ := S.switchIn_keeps (S.seat e c s) c s.proc
    rw [cores_eq, Function.update_self, Function.update_idem] at cores
    constructor
    case now_eq => rw [switchIn_now, now_eq]
    case nodup => simp
    case free => simpa using ⟨core_lt, free⟩
    case others =>
      intro c' ne
      have ne : c' ≠ c := by simpa using ne
      rw [cores, Function.update_of_ne ne, timelines c' ne, untouched c' ne]
      exact ⟨rfl, rfl⟩
    case on => simp [cores, seatedCore]
    case goesOn =>
      intro x mem context
      obtain rfl := List.mem_singleton.mp mem
      simp [switching, context] at switches
    case switches_eq => simp [kept, counted]
    case csTime_eq => simp [charged, csTime_eq, one]
  · cases run
    have gratis : switchesTo (e.cores c) s.proc * S.opt.csCost = 0 := by
      rcases switchesTo_cases (e.cores c) s.proc with none | one
      · rw [none, zero_mul]
      · have : ¬ 0 < S.opt.csCost := fun pos => switches ⟨switching_iff.mpr one, pos⟩
        rw [show S.opt.csCost = 0 by omega, mul_zero]
    obtain ⟨timelines, kept, charged, runEnd, busyUntil, cores⟩ :=
      S.beginRun_keeps (S.seat e c s) c s.proc
    rw [cores_eq, Function.update_self, Function.update_idem, now_eq] at cores
    constructor
    case now_eq => rw [beginRun_now, now_eq]
    case nodup => simp
    case free => simpa using ⟨core_lt, free⟩
    case others =>
      intro c' ne
      have ne : c' ≠ c := by simpa using ne
      rw [cores, Function.update_of_ne ne, timelines, untouched c' ne]
      exact ⟨rfl, rfl⟩
    case on => simp [cores, seatedCore]
    case goesOn =>
      intro x mem context since
      obtain rfl := List.mem_singleton.mp mem
      rw [cores, timelines, seat, Function.update_self, S.append_of_le e c _ _ _ _ since.ge]
      exact ⟨rfl, rfl, rfl⟩
    case switches_eq => simp [kept, counted]
    case csTime_eq => simp [charged, csTime_eq, gratis]

omit [Double D] in
/-- Some slices are seated, then others. -/
theorem Seated.append {e e₁ e' : S.Eng} {seats seats' : List (Nat × Slice)}
    (first : Seated S e seats e₁) (rest : Seated S e₁ seats' e') :
    Seated S e (seats ++ seats') e' := by
  have apart : ∀ y ∈ seats', y.1 ∉ seats.map Prod.fst := by
    intro y mem seated
    obtain ⟨x, hx, same⟩ := List.mem_map.mp seated
    have on := (first.on x hx).1
    have free := (rest.free y mem).2
    rw [← same, on] at free
    cases free
  have untouched : ∀ y ∈ seats', e₁.cores y.1 = e.cores y.1 ∧ e₁.timelines y.1 = e.timelines y.1 :=
    fun y mem => first.others y.1 (apart y mem)
  have kept : ∀ x ∈ seats, e'.cores x.1 = e₁.cores x.1 ∧ e'.timelines x.1 = e₁.timelines x.1 := by
    intro x mem
    refine rest.others x.1 fun seated => ?_
    obtain ⟨y, hy, same⟩ := List.mem_map.mp seated
    exact apart y hy (same ▸ List.mem_map_of_mem mem)
  have sum_eq : (seats'.map fun y => switchesTo (e₁.cores y.1) y.2.proc).sum =
      (seats'.map fun y => switchesTo (e.cores y.1) y.2.proc).sum := by
    refine congrArg List.sum (List.map_congr_left fun y mem => ?_)
    rw [(untouched y mem).1]
  constructor
  case now_eq => rw [rest.now_eq, first.now_eq]
  case nodup =>
    rw [List.map_append]
    refine List.nodup_append.mpr ⟨first.nodup, rest.nodup, fun c hc c' hc' same => ?_⟩
    obtain ⟨y, hy, rfl⟩ := List.mem_map.mp hc'
    exact apart y hy (same ▸ hc)
  case free =>
    intro y mem
    rcases List.mem_append.mp mem with mem | mem
    · exact first.free y mem
    · rw [← (untouched y mem).1]
      exact rest.free y mem
  case others =>
    intro c absent
    rw [List.map_append, List.mem_append, not_or] at absent
    have before := first.others c absent.1
    have after := rest.others c absent.2
    exact ⟨after.1.trans before.1, after.2.trans before.2⟩
  case on =>
    intro y mem
    rcases List.mem_append.mp mem with mem | mem
    · rw [(kept y mem).1]
      exact first.on y mem
    · exact rest.on y mem
  case goesOn =>
    intro y mem context since
    rcases List.mem_append.mp mem with mem | mem
    · rw [(kept y mem).1, (kept y mem).2]
      exact first.goesOn y mem context since
    · have same := untouched y mem
      have := rest.goesOn y mem (by rw [same.1, context]) (by rw [same.1, since, first.now_eq])
      rwa [same.2, first.now_eq] at this
  case switches_eq =>
    rw [rest.switches_eq, first.switches_eq, sum_eq, List.map_append, List.sum_append]
    ring
  case csTime_eq =>
    rw [rest.csTime_eq, first.csTime_eq, sum_eq, List.map_append, List.sum_append]
    ring

/-! ## Placing -/

/-- What `dispatch` relies on when it places `picks`: they are slices of different
processes, none of which is on a core, and the context of a busy core is the process
on it. -/
structure Placeable (S : Sim D) (picks : List Slice) (e : S.Eng) : Prop where
  nodup : (picks.map Slice.proc).Nodup
  off : ∀ s ∈ picks, ∀ c < S.opt.cores, (e.cores c).proc ≠ some s.proc
  busy : ∀ c < S.opt.cores, ∀ p, (e.cores c).proc = some p → (e.cores c).context = some p

omit [Double D] in
/-- After one slice is seated the others can still be placed. -/
theorem Placeable.seat {s : Slice} {picks : List Slice} {e e' : S.Eng} {c : Nat}
    (placeable : Placeable S (s :: picks) e) (seated : Seated S e [(c, s)] e') :
    Placeable S picks e' := by
  obtain ⟨absent, nodup⟩ := List.nodup_cons.mp placeable.nodup
  have here := seated.on (c, s) List.mem_cons_self
  have others : ∀ c', c' ≠ c → e'.cores c' = e.cores c' := fun c' ne =>
    (seated.others c' (by simpa using ne)).1
  refine ⟨nodup, fun s' mem c' hc' => ?_, fun c' hc' p on => ?_⟩
  · by_cases same : c' = c
    · subst same
      rw [here.1]
      intro eq
      exact absent (List.mem_map.mpr ⟨s', mem, (Option.some.inj eq).symm⟩)
    · rw [others c' same]
      exact placeable.off s' (List.mem_cons_of_mem _ mem) c' hc'
  · by_cases same : c' = c
    · subst same
      exact here.2.trans (here.1.symm.trans on)
    · rw [others c' same] at on ⊢
      exact placeable.busy c' hc' p on

omit [Double D] in
/-- The first pass seats slices on the cores that last ran their processes; no core
last ran one of the processes that are left. -/
theorem placeHome_seated (hcs : 0 ≤ S.opt.csCost) (picks : List Slice) {e e' : S.Eng}
    {used used' : Nat → Bool} {left : List Slice} (placeable : Placeable S picks e)
    (usedBusy : ∀ c, used c = true → (e.cores c).proc ≠ none)
    (run : S.placeHome picks e used = some (e', used', left)) :
    ∃ seats, Seated S e seats e' ∧ (seats.map Prod.snd ++ left).Perm picks ∧
      (∀ x ∈ seats, (e.cores x.1).context = some x.2.proc) ∧
      (∀ s ∈ left, ∀ c < S.opt.cores, (e.cores c).context ≠ some s.proc) := by
  induction picks generalizing e used left with
  | nil =>
      simp only [placeHome, Option.some.injEq, Prod.mk.injEq] at run
      obtain ⟨rfl, -, rfl⟩ := run
      exact ⟨[], .nil e, .refl _, by simp, by simp⟩
  | cons s picks ih =>
      cases home : (List.range S.opt.cores).find? fun c =>
          S.isFree e used c && ((e.cores c).context = some s.proc) with
      | some c =>
          have hc := List.mem_range.mp (List.mem_of_find?_eq_some home)
          have hfree := List.find?_some home
          simp only [isFree, Bool.and_eq_true, decide_eq_true_eq] at hfree
          obtain ⟨⟨-, free⟩, context⟩ := hfree
          simp only [placeHome, home, Option.bind_eq_bind, Option.bind_eq_some_iff] at run
          obtain ⟨e₁, run₁, run⟩ := run
          have first := dispatchOne_seated hcs hc free run₁
          have here := first.on (c, s) List.mem_cons_self
          have others : ∀ c', c' ≠ c → e₁.cores c' = e.cores c' := fun c' ne =>
            (first.others c' (by simpa using ne)).1
          have contexts : ∀ c', (e₁.cores c').context = (e.cores c').context := by
            intro c'
            by_cases same : c' = c
            · subst same
              exact here.2.trans context.symm
            · rw [others c' same]
          obtain ⟨seats, rest, perm, atHome, nowhere⟩ :=
            ih (placeable.seat first) (fun c' hused => by
            by_cases same : c' = c
            · subst same
              simp [here.1]
            · rw [Function.update_of_ne same] at hused
              rw [others c' same]
              exact usedBusy c' hused) run
          refine ⟨(c, s) :: seats, first.append rest, by simpa using perm.cons s, ?_, ?_⟩
          · intro x mem
            rcases List.mem_cons.mp mem with rfl | mem
            · exact context
            · rw [← contexts]
              exact atHome x mem
          · intro s' mem c' hc'
            rw [← contexts]
            exact nowhere s' mem c' hc'
      | none =>
          simp only [placeHome, home, Option.bind_eq_bind, Option.bind_eq_some_iff,
            Option.some.injEq, Prod.mk.injEq] at run
          obtain ⟨⟨e₁, used₁, left₁⟩, run₁, rfl, rfl, rfl⟩ := run
          have homeless : ∀ c < S.opt.cores, (e.cores c).context ≠ some s.proc := by
            intro c hc context
            have missed := List.find?_eq_none.mp home c (List.mem_range.mpr hc)
            -- a busy core has the context of its own process
            have free : (e.cores c).proc = none := by
              by_contra busy
              obtain ⟨p, on⟩ := Option.ne_none_iff_exists'.mp busy
              have own := placeable.busy c hc p on
              exact placeable.off s List.mem_cons_self c hc (on.trans (own.symm.trans context))
            have unused : used c = false := by
              by_contra hused
              exact usedBusy c (by simpa using hused) free
            simp [isFree, free, unused, context] at missed
          obtain ⟨seats, rest, perm, atHome, nowhere⟩ := ih
            ⟨(List.nodup_cons.mp placeable.nodup).2,
              fun s' mem => placeable.off s' (List.mem_cons_of_mem _ mem),
                placeable.busy⟩ usedBusy run₁
          refine ⟨seats, rest, (List.perm_middle).trans (perm.cons s), atHome, ?_⟩
          intro s' mem
          rcases List.mem_cons.mp mem with rfl | mem
          · exact homeless
          · exact nowhere s' mem

omit [Double D] in
/-- The second pass seats the rest on free cores. -/
theorem placeRest_seated (hcs : 0 ≤ S.opt.csCost) (picks : List Slice) {c : Nat} {e e' : S.Eng}
    {used : Nat → Bool} (run : S.placeRest picks c e used = some e') :
    ∃ seats, Seated S e seats e' ∧ seats.map Prod.snd = picks := by
  induction picks generalizing c e used with
  | nil =>
      cases run
      exact ⟨[], .nil _, rfl⟩
  | cons s picks ih =>
      cases first : (List.range S.opt.cores).find? fun i => decide (c ≤ i) && S.isFree e used i with
      | none => simp [placeRest, first] at run
      | some i =>
          have hi := List.mem_range.mp (List.mem_of_find?_eq_some first)
          have hfree := List.find?_some first
          simp only [isFree, Bool.and_eq_true, decide_eq_true_eq] at hfree
          simp only [placeRest, first, Option.bind_eq_bind, Option.bind_eq_some_iff] at run
          obtain ⟨e₁, run₁, run⟩ := run
          obtain ⟨seats, rest, rfl⟩ := ih run
          exact ⟨(i, s) :: seats, (dispatchOne_seated hcs hi hfree.2.2 run₁).append rest, rfl⟩

/-! ## Dispatching -/

/-- `dispatch` takes `e` to `e'`: it asks the policy for the slices `picks`, seats
each on a free core of its own, and a process whose context is on some core goes
there. -/
structure Dispatches (S : Sim D) (e : S.Eng) (picks : List Slice) (seats : List (Nat × Slice))
    (e' : S.Eng) : Prop where
  run : S.dispatch e = some e'
  asked : ∃ state, S.collectPicks ((List.range S.opt.cores).countP fun c =>
    (e.cores c).proc = none) e = some ({ e with state }, picks)
  perm : (seats.map Prod.snd).Perm picks
  nodup : (picks.map Slice.proc).Nodup
  seated : Seated S e seats e'
  home : ∀ x ∈ seats, ∀ c < S.opt.cores, (e.cores c).context = some x.2.proc → x.1 = c

omit [Double D] in
/-- A dispatch keeps the contexts apart. -/
theorem Dispatches.contextsApart {e e' : S.Eng} {picks : List Slice} {seats : List (Nat × Slice)}
    (dispatches : Dispatches S e picks seats e') (apart : ContextsApart S e) :
    ContextsApart S e' := by
  have seated := dispatches.seated
  have procs : (seats.map fun x => x.2.proc).Nodup := by
    have := (dispatches.perm.map Slice.proc).nodup_iff.mpr dispatches.nodup
    rwa [List.map_map] at this
  -- a seated process has no context elsewhere
  have home : ∀ x ∈ seats, ∀ c < S.opt.cores, c ∉ seats.map Prod.fst →
      (e'.cores c).context ≠ some x.2.proc := by
    intro x mem c hc absent context
    rw [(seated.others c absent).1] at context
    exact absent (dispatches.home x mem c hc context ▸ List.mem_map_of_mem mem)
  intro c hc c' hc' p context context'
  by_cases here : c ∈ seats.map Prod.fst
  · obtain ⟨x, hx, rfl⟩ := List.mem_map.mp here
    have own := Option.some.inj ((seated.on x hx).2.symm.trans context)
    by_cases here' : c' ∈ seats.map Prod.fst
    · obtain ⟨y, hy, rfl⟩ := List.mem_map.mp here'
      have own' := Option.some.inj ((seated.on y hy).2.symm.trans context')
      rw [List.inj_on_of_nodup_map procs hx hy (own.trans own'.symm)]
    · exact absurd (own ▸ context') (home x hx c' hc' here')
  · by_cases here' : c' ∈ seats.map Prod.fst
    · obtain ⟨y, hy, rfl⟩ := List.mem_map.mp here'
      have own' := Option.some.inj ((seated.on y hy).2.symm.trans context')
      exact absurd (own' ▸ context) (home y hy c hc here)
    · rw [(seated.others c here).1] at context
      rw [(seated.others c' here').1] at context'
      exact apart c hc c' hc' p context context'

/-- `dispatch` on a state of the main loop. -/
theorem Launched.dispatches {state : S.policy.State} (launched : Launched S PInv state)
    {a : S.Config} (course : Course PInv .settled a) (running : S.running a.eng = true)
    (apart : ContextsApart S a.eng) :
    ∃ e' picks seats, Dispatches S a.eng picks seats e' := by
  have hcs := launched.options.cs_nonneg
  obtain ⟨e', sp', run, -, -, -⟩ := launched.dispatch (I := fun _ => True) course running
  obtain ⟨budget, sound⟩ := course.sound
  obtain ⟨state', picks, sp₁, asked, -, -, nodup, ready, -, -⟩ :=
    collectPicks_spec launched.contract (freeCores a.eng).card sound (launched.early course running)
      (noneHeld_iff.mp course.settled.noneHeld)
  rw [← countP_free] at asked
  have placeable : Placeable S picks { a.eng with state := state' } := by
    refine ⟨nodup, fun s mem c hc on => ?_, fun c hc p on => ?_⟩
    · obtain ⟨s', seat⟩ := sound.cores.owner c hc s.proc on
      cases seat.symm.trans (ready s mem)
    · obtain ⟨s', seat⟩ := sound.cores.owner c hc p on
      obtain ⟨-, hs', here⟩ := sound.cores.seat p c s' seat
      exact here.context_eq.trans (congrArg some hs')
  have run' := run
  by_cases many : 1 < S.opt.cores
  · simp only [Sim.dispatch, asked, if_pos many, Option.bind_eq_bind, Option.bind_some,
      Option.bind_eq_some_iff] at run'
    obtain ⟨⟨e₁, used, left⟩, run₁, run₂⟩ := run'
    obtain ⟨seats₁, seated₁, perm, atHome, nowhere⟩ :=
      placeHome_seated hcs picks placeable (by simp) run₁
    obtain ⟨seats₂, seated₂, rfl⟩ := placeRest_seated hcs left run₂
    have seated := seated₁.append seated₂
    refine ⟨e', picks, seats₁ ++ seats₂, run, ⟨state', asked⟩, by simpa using perm, nodup,
      ⟨seated.now_eq, seated.nodup, seated.free, seated.others, seated.on, seated.goesOn,
        seated.switches_eq, seated.csTime_eq⟩, fun x mem c hc context => ?_⟩
    rcases List.mem_append.mp mem with mem | mem
    · exact apart x.1 (seated₁.free x mem).1 c hc x.2.proc (atHome x mem) context
    · exact absurd context (nowhere x.2 (List.mem_map_of_mem mem) c hc)
  · simp only [Sim.dispatch, asked, if_neg many, Option.bind_eq_bind, Option.bind_some] at run'
    obtain ⟨seats, seated, rfl⟩ := placeRest_seated hcs picks run'
    refine ⟨e', _, seats, run, ⟨state', asked⟩, .refl _, nodup,
      ⟨seated.now_eq, seated.nodup, seated.free, seated.others, seated.on, seated.goesOn,
        seated.switches_eq, seated.csTime_eq⟩, fun x mem c hc _ => ?_⟩
    have := (seated.free x mem).1
    omega

/-! ## The events of an instant -/

/-- What the events at `now` do to a core: its context stays, and so does its process
unless it leaves now. -/
structure Spared (now : Int) (core core' : Core) : Prop where
  context_eq : core'.context = core.context
  stays : (core'.proc = core.proc ∧ (core.proc = none → core'.freeSince = core.freeSince)) ∨
    (core.proc ≠ none ∧ core'.proc = none ∧ core'.freeSince = now)

theorem Spared.trans {now : Int} {core core' core'' : Core} (first : Spared now core core')
    (then_ : Spared now core' core'') : Spared now core core'' := by
  refine ⟨then_.context_eq.trans first.context_eq, ?_⟩
  rcases first.stays with ⟨same, free⟩ | ⟨busy, free, since⟩
  · rcases then_.stays with ⟨same', free'⟩ | ⟨busy', free', since'⟩
    · exact .inl ⟨same'.trans same, fun none => (free' (same.trans none)).trans (free none)⟩
    · exact .inr ⟨same ▸ busy', free', since'⟩
  · rcases then_.stays with ⟨same', free'⟩ | ⟨busy', -, -⟩
    · exact .inr ⟨busy, same'.trans free, (free' free).trans since⟩
    · exact absurd free busy'

theorem Spared.refl (now : Int) (core : Core) : Spared now core core :=
  ⟨rfl, .inl ⟨rfl, fun _ => rfl⟩⟩

omit [Double D] in
theorem chargeRun_spared (e : S.Eng) {c p : Nat} (on : (e.cores c).proc = some p) (c' : Nat) :
    Spared e.now (e.cores c') ((S.chargeRun e c p).cores c') := by
  rw [chargeRun_cores]
  by_cases same : c' = c
  · subst same
    rw [Function.update_self]
    exact ⟨rfl, .inr ⟨by simp [on], rfl, rfl⟩⟩
  · rw [Function.update_of_ne same]
    exact .refl ..

/-- An event spares every core. -/
theorem Event.spared (valid : S.w.Valid) {budget : Int} {a b : S.Config} (event : Event a b)
    (sound : S.Sound PInv budget a) (none : NoneHeld a) (c : Nat) :
    Spared a.eng.now (a.eng.cores c) (b.eng.cores c) := by
  obtain ⟨move, keeps⟩ := event
  have on : ∀ {c p s}, a.spots p = .core c s → (a.eng.cores c).proc = some p := by
    intro c p s seat
    obtain ⟨-, hs, here⟩ := sound.cores.seat p c s seat
    exact here.proc_eq.trans (congrArg some hs)
  cases move with
  | arrive => exact .refl ..
  | wake => exact .refl ..
  | refuse => exact .refl ..
  | pick => exact .refl ..
  | place held => exact absurd held (none _ _)
  | preempt seat => exact chargeRun_spared _ (on seat) c
  | complete seat =>
      simpa [finishProcess, burstOver] using chargeRun_spared _ (on seat) c
  | block seat runs ran used more =>
      rw [(sound.startIo_eq valid seat runs used more).2]
      simpa [burstOver] using chargeRun_spared _ (on seat) c
  | @mark e sp c₁ p s seat =>
      by_cases same : c = c₁
      · subst same
        simp only [setCore, Function.update_self]
        exact ⟨rfl, .inl ⟨rfl, fun _ => rfl⟩⟩
      · simp only [setCore, Function.update_of_ne same]
        exact .refl ..
  | @start e sp c₁ p s deadline seat switching =>
      rw [sound.startRun_eq valid seat switching]
      by_cases same : c = c₁
      · subst same
        simp only [Function.update_self]
        exact ⟨rfl, .inl ⟨rfl, fun _ => rfl⟩⟩
      · simp only [Function.update_of_ne same]
        exact .refl ..

theorem Events.spared (valid : S.w.Valid) (hcs : 0 ≤ S.opt.csCost)
    (contract : Contract S.w S.policy PInv) {budget : Int} {a b : S.Config}
    (events : S.Events a b) (sound : S.Sound PInv budget a) (none : NoneHeld a) (c : Nat) :
    Spared a.eng.now (a.eng.cores c) (b.eng.cores c) := by
  induction events with
  | refl => exact .refl ..
  | tail before event ih =>
      have moves := Events.moves before
      have here := event.spared valid (moves.sound valid hcs contract sound)
        (Events.noneHeld before none) c
      rw [moves.now_eq] at here
      exact ih.trans here

/-! ## Runs -/

section Runs

variable {state : S.policy.State} (launched : Launched S PInv state)
include launched

/-- The instant of the next event spares every core. -/
theorem Launched.instant {I : S.Config → Prop} {e e' : S.Eng} {sp : Nat → Spot}
    (course : Course PInv .dispatched ⟨e, sp⟩)
    (run : S.processInstant { e with now := S.nextEvent e } = some e') :
    (∃ sp', Course PInv .settled ⟨e', sp'⟩ ∧ (RunInv S PInv I → I ⟨e, sp⟩ → I ⟨e', sp'⟩)) ∧
      e'.now = S.nextEvent e ∧ ∀ c, Spared (S.nextEvent e) (e.cores c) (e'.cores c) := by
  obtain ⟨budget, sound⟩ := course.sound
  obtain ⟨rounds, bound, hlimit⟩ := course.bound
  obtain ⟨dispatched, unfinished⟩ := course.dispatched rfl
  obtain ⟨gt, event, e₂, sp', run', events, course', keeps⟩ := launched.advance (I := I) course
  cases run.symm.trans run'
  obtain ⟨budget', sound', -⟩ := dispatched.advance launched.valid launched.contract
    launched.options sound unfinished bound (hlimit rfl)
  exact ⟨⟨sp', course', fun inv here => keeps inv.move
    (inv.advance sound dispatched event (sound.nextEvent_le launched.valid) gt here)⟩,
      events.moves.now_eq, events.spared launched.valid
    launched.options.cs_nonneg launched.contract sound' course.settled.noneHeld⟩

/-- In every state of the main loop the contexts are apart. -/
theorem Reached.contextsApart {point : LoopPoint} {e : S.Eng}
    (reached : Reached S state point e) : ContextsApart S e := by
  have valid := launched.valid
  have hcs := launched.options.cs_nonneg
  induction reached with
  | @first e run =>
      obtain ⟨e', sp, run', events, -, -⟩ := launched.first (I := fun _ => True)
      cases run.symm.trans run'
      have sound := Sound.init valid launched.start
      have spared := events.spared valid hcs launched.contract sound nofun
      intro c _ c' _ p context
      cases context.symm.trans (spared c).context_eq
  | dispatch before running run ih =>
      obtain ⟨sp, course, -⟩ := before.course launched RunInv.true
      obtain ⟨e', picks, seats, dispatches⟩ := launched.dispatches course running ih
      cases run.symm.trans dispatches.run
      exact dispatches.contextsApart ih
  | instant before event run ih =>
      obtain ⟨sp, course, -⟩ := before.course launched RunInv.true
      obtain ⟨-, -, spared⟩ := launched.instant (I := fun _ => True) course run
      intro c hc c' hc' p context context'
      rw [(spared c).context_eq] at context
      rw [(spared c').context_eq] at context'
      exact ih c hc c' hc' p context context'

/-- Process `p` goes on in `e'` on core `c`, which it left at this instant in `e`: no
segment is between, and its run up to now will be extended. -/
structure GoesOn (S : Sim D) (c p : Nat) (e e' : S.Eng) : Prop where
  on : (e'.cores c).proc = some p
  runs : (e'.cores c).inCs = false
  start_eq : (e'.cores c).runStart = e'.now
  timeline : ∃ a rest, e.timelines c = ⟨a, e'.now, some p, .run⟩ :: rest ∧
    e'.timelines c = e.timelines c ∧ ∀ t, e'.now < t → e'.fail = .ok →
      (S.chargeRun { e' with now := t } c p).timelines c = ⟨a, t, some p, .run⟩ :: rest ∧
      (S.chargeRun { e' with now := t } c p).segments = e'.segments
  noSwitch : switchesTo (e.cores c) p = 0

/-- A process that is taken off its core and picked again at the same instant goes on
where it was. -/
theorem Reached.goesOn {e e₁ e₂ : S.Eng} (reached : Reached S state .dispatched e)
    (event : S.build.assert (S.nextEvent e ≠ int64Max) = some ())
    (instant : S.processInstant { e with now := S.nextEvent e } = some e₁)
    (running : S.running e₁ = true) (dispatch : S.dispatch e₁ = some e₂) {c c' p : Nat}
    (hc : c < S.opt.cores) (hc' : c' < S.opt.cores) (before : (e.cores c).proc = some p)
    (left : (e₁.cores c).proc ≠ some p) (again : (e₂.cores c').proc = some p) :
    c' = c ∧ GoesOn S c p e₁ e₂ := by
  have apart := Reached.contextsApart launched (reached.instant event instant)
  obtain ⟨sp, course, ledger⟩ := reached.course launched
    (Ledger.runInv launched.valid launched.options.cs_nonneg)
  obtain ⟨⟨sp₁, course₁, keeps⟩, now_eq, spared⟩ := launched.instant
    (I := fun a => a.eng.fail = .ok → Ledger S a.eng) course instant
  obtain ⟨e', picks, seats, dispatches⟩ := launched.dispatches course₁ running apart
  cases dispatch.symm.trans dispatches.run
  have ledger₁ := keeps (Ledger.runInv launched.valid launched.options.cs_nonneg) ledger
    (running_iff.mp running).2
  obtain ⟨budget, sound⟩ := course.sound
  obtain ⟨budget₁, sound₁⟩ := course₁.sound
  have seated := dispatches.seated
  -- the process leaves its core at this instant, and the context of the core stays
  obtain ⟨s, seat⟩ := sound.cores.owner c hc p before
  obtain ⟨-, hs, here⟩ := sound.cores.seat p c s seat
  have own : (e.cores c).context = some p := here.context_eq.trans (congrArg some hs)
  have context : (e₁.cores c).context = some p := (spared c).context_eq.trans own
  obtain ⟨free, since⟩ : (e₁.cores c).proc = none ∧ (e₁.cores c).freeSince = e₁.now := by
    rcases (spared c).stays with ⟨same, -⟩ | ⟨-, free, since⟩
    · exact absurd (same.trans before) left
    · exact ⟨free, since.trans now_eq.symm⟩
  obtain ⟨a, rest, timeline⟩ : ∃ a rest,
      e₁.timelines c = ⟨a, e₁.now, some p, .run⟩ :: rest := by
    cases (ledger₁.lanes c hc).tail with
    | unused _ unset => cases context.symm.trans unset
    | @ran a q rest _ last timeline =>
        obtain rfl := Option.some.inj (context.symm.trans last)
        exact ⟨a, rest, since ▸ timeline⟩
    | switching on => cases free.symm.trans on
    | goesOn on => cases free.symm.trans on
    | fresh on => cases free.symm.trans on
  -- it is seated again, and at home
  obtain ⟨x, hx, rfl, rfl⟩ : ∃ x ∈ seats, x.1 = c' ∧ x.2.proc = p := by
    by_cases here' : c' ∈ seats.map Prod.fst
    · obtain ⟨x, hx, rfl⟩ := List.mem_map.mp here'
      exact ⟨x, hx, rfl, Option.some.inj ((seated.on x hx).1.symm.trans again)⟩
    · rw [(seated.others c' here').1] at again
      obtain ⟨s', seat'⟩ := sound₁.cores.owner c' hc' p again
      obtain ⟨-, hs', there⟩ := sound₁.cores.seat p c' s' seat'
      have := apart c hc c' hc' p context (there.context_eq.trans (congrArg some hs'))
      subst this
      cases free.symm.trans again
  obtain rfl := dispatches.home x hx c hc context
  obtain ⟨runs, start_eq, same⟩ := seated.goesOn x hx context since
  refine ⟨rfl, again, runs, start_eq.trans seated.now_eq.symm, ⟨a, rest, ?_, same, ?_⟩, ?_⟩
  · rw [seated.now_eq, timeline]
  · intro t lt ok
    have last : e₂.timelines x.1 = ⟨a, e₁.now, some x.2.proc, .run⟩ :: rest := same.trans timeline
    rw [seated.now_eq] at lt
    rw [chargeRun_timelines, chargeRun_segments]
    simp only [append, last, start_eq, lt.not_ge, ok, ne_eq, not_true_eq_false, or_self, if_false,
      and_self, if_true, Function.update_self]
  · unfold switchesTo
    rw [if_pos (.inr context)]

end Runs

/-- What the contexts of the cores do for every run from `state`. -/
structure ContextsOk (S : Sim D) (state : S.policy.State) : Prop where
  apart : ∀ {point e}, Reached S state point e → ContextsApart S e
  /-- `dispatch` never runs past the last core. -/
  dispatches : ∀ {e}, Reached S state .settled e → S.running e = true →
    ∃ e' picks seats, Dispatches S e picks seats e'
  goesOn : ∀ {e e₁ e₂}, Reached S state .dispatched e →
    S.build.assert (S.nextEvent e ≠ int64Max) = some () →
    S.processInstant { e with now := S.nextEvent e } = some e₁ → S.running e₁ = true →
    S.dispatch e₁ = some e₂ → ∀ c < S.opt.cores, ∀ c' < S.opt.cores, ∀ p,
    (e.cores c).proc = some p → (e₁.cores c).proc ≠ some p → (e₂.cores c').proc = some p →
    c' = c ∧ GoesOn S c p e₁ e₂

/-- In every run of a built-in policy the contexts of the cores are pairwise distinct,
`dispatch` seats each pick on a free core of its own, and a process that is interrupted
and picked again at the same instant goes on where it was, without a switch. -/
theorem started_contexts {state : S.policy.State} (started : Started S state)
    (builtIn : BuiltIn S) : ContextsOk S state := by
  obtain ⟨PInv, launched⟩ := started.launched builtIn
  refine ⟨fun reached => reached.contextsApart launched, fun reached running => ?_, ?_⟩
  · obtain ⟨sp, course, -⟩ := reached.course launched RunInv.true
    exact launched.dispatches course running (reached.contextsApart launched)
  · intro e e₁ e₂ reached event instant running dispatch c hc c' hc' p before left again
    exact reached.goesOn launched event instant running dispatch hc hc' before left again

/-- The contexts of the run of the three processes.  At the clock 2 the first process is taken off
the first core, picked again and goes on. -/
theorem trioSim_contexts : ContextsOk trioSim ⟨queueInit 3, 2⟩ ∧
    ∃ e₁ e₂, Reached trioSim ⟨queueInit 3, 2⟩ .settled e₁ ∧ e₁.now = 2 ∧
      (e₁.cores 0).proc = none ∧ GoesOn trioSim 0 0 e₁ e₂ := by
  have contexts := started_contexts trioSim_started trioSim_builtIn
  refine ⟨contexts, ?_⟩
  obtain ⟨e₀, e, e₁, e₂, run, running, dispatch, event, instant, running₁, dispatch₁, seen⟩ :
      ∃ e₀ e e₁ e₂, trioSim.settledAfter ⟨queueInit 3, 2⟩ trioOrder 1 = some e₀ ∧
        trioSim.running e₀ = true ∧ trioSim.dispatch e₀ = some e ∧
        trioSim.build.assert (trioSim.nextEvent e ≠ int64Max) = some () ∧
        trioSim.processInstant { e with now := trioSim.nextEvent e } = some e₁ ∧
        trioSim.running e₁ = true ∧ trioSim.dispatch e₁ = some e₂ ∧
        ((e.cores 0).proc, e₁.now, (e₁.cores 0).proc, (e₂.cores 0).proc) =
          (some 0, 2, none, some 0) :=
    ⟨_, _, _, _, rfl, rfl, rfl, rfl, rfl, rfl, rfl, rfl⟩
  simp only [Prod.mk.injEq] at seen
  obtain ⟨on, now, left, again⟩ := seen
  have before := (Reached.settledAfter trioSim_order run).dispatch running dispatch
  have goesOn := contexts.goesOn before event instant running₁ dispatch₁ 0 two_pos 0 two_pos 0 on
    (by rw [left]; simp) again
  exact ⟨e₁, e₂, .instant before event instant, now, left, goesOn.2⟩

end Sim

end CpuSched
