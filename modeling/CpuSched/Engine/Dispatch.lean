import CpuSched.Engine.Instant

/-!
# Dispatching

`dispatch` on a settled engine succeeds: every slice that the policy returns
finds a free core, and a core stays free only after the policy refused.
-/

namespace CpuSched

namespace Sim

variable {D : Type} {S : Sim D}
variable {PInv : SchedView D → S.policy.State → Places → Prop} {budget : Int}

/-- The slices that wait to be placed. -/
def HeldBy (slices : List Slice) (sp : Nat → Spot) : Prop :=
  ∀ p s, sp p = .held s ↔ s ∈ slices ∧ s.proc = p

/-- The policy had nothing more to offer. -/
def Refused (S : Sim D) (sp : Nat → Spot) : Prop :=
  (∀ p, sp p ≠ .ready) ∨ (S.policy.workConserving = false ∧ ∃ p < S.w.len, sp p = .new)

/-- The free cores. -/
def freeCores (e : S.Eng) : Finset Nat :=
  (Finset.range S.opt.cores).filter fun c => (e.cores c).proc = none

theorem mem_freeCores {e : S.Eng} {c : Nat} :
    c ∈ freeCores e ↔ c < S.opt.cores ∧ (e.cores c).proc = none := by
  simp [freeCores]

theorem countP_free (e : S.Eng) :
    ((List.range S.opt.cores).countP fun c => (e.cores c).proc = none) = (freeCores e).card := by
  rw [List.countP_eq_length_filter]
  rfl

theorem noneHeld_iff {e : S.Eng} {sp : Nat → Spot} : NoneHeld ⟨e, sp⟩ ↔ HeldBy [] sp := by
  simp [NoneHeld, HeldBy]

/-! ## Picking -/

variable [Double D] (valid : S.w.Valid) (hcs : 0 ≤ S.opt.csCost)
  (contract : Contract S.w S.policy PInv)
include valid hcs contract

omit valid hcs in
/-- The policy is asked until it refuses or every free core has a slice. -/
theorem collectPicks_spec (nfree : Nat) {e : S.Eng} {sp : Nat → Spot}
    (sound : S.Sound PInv budget ⟨e, sp⟩) (early : e.now < int64Max) {before : List Slice}
    (held : HeldBy before sp) :
    ∃ state picks sp', S.collectPicks nfree e = some ({ e with state }, picks) ∧
      S.Moves ⟨e, sp⟩ ⟨{ e with state }, sp'⟩ ∧ HeldBy (before ++ picks) sp' ∧
      (picks.map Slice.proc).Nodup ∧ (∀ s ∈ picks, sp s.proc = .ready) ∧ picks.length ≤ nfree ∧
      (picks.length < nfree → Refused S sp') := by
  induction nfree generalizing e sp before with
  | zero =>
      exact ⟨e.state, [], sp, rfl, .refl, by simpa using held, by simp, by simp, by simp, by simp⟩
  | succ nfree ih =>
      obtain ⟨state, pick, hook, ok⟩ := contract.next sound.policy
        (sound.viewOk rfl fun _ _ => rfl) early
      have hook : S.policy.nextSlice (S.view e) e.state = some (state, pick) := hook
      cases pick with
      | none =>
          have move : S.Move ⟨e, sp⟩ ⟨{ e with state }, sp⟩ := .refuse hook early
          refine ⟨state, [], sp, by simp [collectPicks, hook], .single move, by simpa using held,
            by simp, by simp, by simp, fun _ => (sound.refuse contract hook early).2⟩
      | some s =>
          have move : S.Move ⟨e, sp⟩ ⟨{ e with state }, Function.update sp s.proc (.held s)⟩ :=
            .pick hook early
          obtain ⟨ready, sound'⟩ := sound.pick contract hook early
          have held' : HeldBy (before ++ [s]) (Function.update sp s.proc (.held s)) := by
            intro p s'
            by_cases hp : p = s.proc
            · subst hp
              have notBefore : ∀ s' ∈ before, s'.proc ≠ s.proc := by
                intro s' mem same
                have := (held s.proc s').mpr ⟨mem, same⟩
                simp [ready] at this
              simp only [Function.update_self, Spot.held.injEq, List.mem_append, List.mem_singleton]
              constructor
              · rintro rfl
                exact ⟨.inr rfl, rfl⟩
              · rintro ⟨mem | rfl, same⟩
                · exact absurd same (notBefore s' mem)
                · rfl
            · rw [Function.update_of_ne hp, held p s', List.mem_append, List.mem_singleton]
              constructor
              · rintro ⟨mem, same⟩
                exact ⟨.inl mem, same⟩
              · rintro ⟨mem | rfl, same⟩
                · exact ⟨mem, same⟩
                · exact absurd same.symm hp
          obtain ⟨state', picks, sp', run, moves, held'', nodup, readys, le, refused⟩ :=
            ih sound' early held'
          have others : ∀ s' ∈ picks, s'.proc ≠ s.proc := by
            intro s' mem same
            have := readys s' mem
            rw [same, Function.update_self] at this
            cases this
          refine ⟨state', s :: picks, sp', by simp [collectPicks, hook, run], .head move moves,
            by simpa using held'', ?_, ?_, by simpa using le, fun h => refused (by simpa using h)⟩
          · rw [List.map_cons, List.nodup_cons]
            refine ⟨fun mem => ?_, nodup⟩
            obtain ⟨s', mem, same⟩ := List.mem_map.mp mem
            exact others s' mem same
          · intro s' mem
            rcases List.mem_cons.mp mem with rfl | mem
            · exact ready
            · have := readys s' mem
              rwa [Function.update_of_ne (others s' mem)] at this

/-! ## Placing -/

omit contract in
/-- `dispatch_one` of a held slice on a free core. -/
theorem dispatchOne_spec {e : S.Eng} {sp : Nat → Spot} {c : Nat} {s : Slice}
    (sound : S.Sound PInv budget ⟨e, sp⟩) (held : sp s.proc = .held s)
    (free : c ∈ freeCores e) (fits : e.now + S.opt.csCost ≤ int64Max) :
    S.dispatchOne e c s = some (S.placed e c s) ∧
      S.Move ⟨e, sp⟩ ⟨S.placed e c s, Function.update sp s.proc (.core c s)⟩ ∧
      freeCores (S.placed e c s) = (freeCores e).erase c := by
  obtain ⟨hc, hfree⟩ := mem_freeCores.mp free
  have hp : s.proc < S.w.len := sound.inside (by simp [held])
  have positive : 0 < e.remaining s.proc :=
    (sound.progress (p := s.proc) (by simp [held]) (by simp [held])).remaining_pos
  obtain ⟨-, slice⟩ : _ ∧ SliceOk _ e.now (e.remaining s.proc) s := sound.cores.held _ _ held
  refine ⟨?_, .place held hc hfree fits, ?_⟩
  · have pass : s.proc < S.w.len ∧ 0 < e.remaining s.proc ∧ 0 < s.length ∧ e.now < s.deadline :=
      ⟨hp, positive, slice.length_pos, slice.deadline_gt⟩
    simp only [dispatchOne, Build.assert, decide_eq_true pass, or_true, if_true, placed,
      Option.bind_eq_bind, Option.bind_some]
    split <;> rfl
  · ext c'
    rw [sound.placed_eq (c := c) valid hcs held fits]
    by_cases h : c' = c
    · subst h
      have : (S.placedCore e c' s).proc = some s.proc := by
        unfold placedCore
        split <;> rfl
      simp [freeCores, this]
    · simp [freeCores, h]

omit valid hcs contract [Double D] in
/-- Placing takes one slice from the held ones. -/
theorem HeldBy.place {l rest : List Slice} {s : Slice} {sp : Nat → Spot} {c : Nat}
    (held : HeldBy (l ++ s :: rest) sp) (nodup : ((l ++ s :: rest).map Slice.proc).Nodup) :
    HeldBy (l ++ rest) (Function.update sp s.proc (.core c s)) := by
  have others : ∀ s' ∈ l ++ rest, s'.proc ≠ s.proc := by
    rw [List.map_append, List.map_cons, List.nodup_middle, List.nodup_cons] at nodup
    intro s' mem same
    apply nodup.1
    rw [← List.map_append]
    exact List.mem_map.mpr ⟨s', mem, same⟩
  intro p s'
  by_cases hp : p = s.proc
  · subst hp
    simp only [Function.update_self, reduceCtorEq, false_iff, not_and]
    exact fun mem => others s' mem
  · rw [Function.update_of_ne hp, held p s']
    simp only [List.mem_append, List.mem_cons]
    constructor
    · rintro ⟨mem | rfl | mem, same⟩
      · exact ⟨.inl mem, same⟩
      · exact absurd same.symm hp
      · exact ⟨.inr mem, same⟩
    · rintro ⟨mem | mem, same⟩
      · exact ⟨.inl mem, same⟩
      · exact ⟨.inr (.inr mem), same⟩

/-- Ready and new processes stay where they are. -/
def SameWaiting (sp sp' : Nat → Spot) : Prop :=
  ∀ p, (sp' p = .ready ↔ sp p = .ready) ∧ (sp' p = .new ↔ sp p = .new)

omit valid hcs contract [Double D] in
theorem SameWaiting.place {sp sp' : Nat → Spot} {s : Slice} {c : Nat} (held : sp s.proc = .held s)
    (same : SameWaiting (Function.update sp s.proc (.core c s)) sp') : SameWaiting sp sp' := by
  intro p
  by_cases hp : p = s.proc
  · subst hp
    simpa [held] using same s.proc
  · simpa [hp] using same p

omit contract in
/-- The first pass: slices whose process last ran on a free core. -/
theorem placeHome_spec (picks : List Slice) {e : S.Eng} {sp : Nat → Spot} {u : Nat → Bool}
    {l : List Slice} (sound : S.Sound PInv budget ⟨e, sp⟩)
    (fits : e.now + S.opt.csCost ≤ int64Max) (held : HeldBy (l ++ picks) sp)
    (nodup : ((l ++ picks).map Slice.proc).Nodup)
    (usedBusy : ∀ c, u c = true → (e.cores c).proc ≠ none) :
    ∃ e' used' left sp', S.placeHome picks e u = some (e', used', left) ∧
      S.Moves ⟨e, sp⟩ ⟨e', sp'⟩ ∧ HeldBy (l ++ left) sp' ∧ left.Sublist picks ∧
      (freeCores e').card + picks.length = (freeCores e).card + left.length ∧
      (∀ c, used' c = true → (e'.cores c).proc ≠ none) ∧ SameWaiting sp sp' := by
  induction picks generalizing e sp u l with
  | nil => exact ⟨e, u, [], sp, rfl, .refl, held, .refl _, rfl, usedBusy, fun p => by simp⟩
  | cons s rest ih =>
      cases home : (List.range S.opt.cores).find? fun c =>
          S.isFree e u c && ((e.cores c).context = some s.proc) with
      | some c =>
          have hc := List.mem_range.mp (List.mem_of_find?_eq_some home)
          have hfree := List.find?_some home
          simp only [isFree, Bool.and_eq_true, decide_eq_true_eq] at hfree
          have free : c ∈ freeCores e := mem_freeCores.mpr ⟨hc, hfree.1.2⟩
          have hs : sp s.proc = .held s := (held s.proc s).mpr ⟨by simp, rfl⟩
          obtain ⟨run, move, erased⟩ := dispatchOne_spec valid hcs sound hs free fits
          have cores_eq : ∀ c', c' ≠ c → (S.placed e c s).cores c' = e.cores c' := by
            intro c' hc'
            rw [sound.placed_eq (c := c) valid hcs hs fits]
            simp [hc']
          have busy : ((S.placed e c s).cores c).proc ≠ none := by
            intro hnone
            have : c ∈ freeCores (S.placed e c s) := mem_freeCores.mpr ⟨hc, hnone⟩
            simp [erased] at this
          have nodup' : ((l ++ rest).map Slice.proc).Nodup :=
            nodup.sublist (List.Sublist.map _
              (List.Sublist.append_left (List.sublist_cons_self _ _) _))
          have fits' : (S.placed e c s).now + S.opt.csCost ≤ int64Max := by
            have : (S.placed e c s).now = e.now := move.now_eq
            rwa [this]
          obtain ⟨e', used', left, sp', run', moves, held', sub, card, usedBusy', same⟩ :=
            ih (sound.place valid hcs hs hc hfree.1.2 fits) fits' (held.place nodup) nodup'
              (u := Function.update u c true) (by
                intro c' hused
                by_cases h : c' = c
                · subst h
                  exact busy
                · rw [Function.update_of_ne h] at hused
                  rw [cores_eq c' h]
                  exact usedBusy c' hused)
          refine ⟨e', used', left,
            sp', by simp [placeHome, home, run, run'], .head move moves, held',
            sub.trans (List.sublist_cons_self _ _), ?_, usedBusy', same.place hs⟩
          rw [erased, Finset.card_erase_of_mem free] at card
          have := Finset.card_pos.mpr ⟨c, free⟩
          simp only [List.length_cons]
          omega
      | none =>
          have held₀ : HeldBy ((l ++ [s]) ++ rest) sp := by simpa using held
          have nodup₀ : (((l ++ [s]) ++ rest).map Slice.proc).Nodup := by simpa using nodup
          obtain ⟨e', used', left, sp', run', moves, held', sub, card, usedBusy', same⟩ :=
            ih sound fits held₀ nodup₀ usedBusy
          refine ⟨e', used', s :: left, sp', by simp [placeHome, home, run'], moves,
            by simpa using held', sub.cons_cons s, ?_, usedBusy', same⟩
          simp only [List.length_cons]
          omega

omit contract in
/-- The second pass: the rest fills the free cores in order. -/
theorem placeRest_spec (picks : List Slice) {e : S.Eng} {sp : Nat → Spot} {u : Nat → Bool}
    {c : Nat} (sound : S.Sound PInv budget ⟨e, sp⟩) (fits : e.now + S.opt.csCost ≤ int64Max)
    (held : HeldBy picks sp) (nodup : (picks.map Slice.proc).Nodup)
    (usedBusy : ∀ c, u c = true → (e.cores c).proc ≠ none)
    (scanned : ∀ c' ∈ freeCores e, c ≤ c') (enough : picks.length ≤ (freeCores e).card) :
    ∃ e' sp', S.placeRest picks c e u = some e' ∧ S.Moves ⟨e, sp⟩ ⟨e', sp'⟩ ∧
      NoneHeld ⟨e', sp'⟩ ∧ (freeCores e').card + picks.length = (freeCores e).card ∧
      SameWaiting sp sp' := by
  induction picks generalizing e sp u c with
  | nil => exact ⟨e, sp, rfl, .refl, noneHeld_iff.mpr held, rfl, fun p => by simp⟩
  | cons s rest ih =>
      cases first : (List.range S.opt.cores).find? fun i =>
          decide (c ≤ i) && S.isFree e u i with
      | none =>
          -- a free core is left, and the scan cannot miss it
          obtain ⟨i, hi⟩ : (freeCores e).Nonempty :=
            Finset.card_pos.mp (by simp only [List.length_cons] at enough; omega)
          have := List.find?_eq_none.mp first i (List.mem_range.mpr (mem_freeCores.mp hi).1)
          have hused : u i = false := by
            by_contra h
            exact usedBusy i (by simpa using h) (mem_freeCores.mp hi).2
          simp [isFree, scanned i hi, hused, (mem_freeCores.mp hi).2] at this
      | some i =>
          have hi := List.mem_range.mp (List.mem_of_find?_eq_some first)
          have hfree := List.find?_some first
          simp only [isFree, Bool.and_eq_true, decide_eq_true_eq] at hfree
          have free : i ∈ freeCores e := mem_freeCores.mpr ⟨hi, hfree.2.2⟩
          have hs : sp s.proc = .held s := (held s.proc s).mpr ⟨by simp, rfl⟩
          obtain ⟨run, move, erased⟩ := dispatchOne_spec valid hcs sound hs free fits
          have cores_eq : ∀ c', c' ≠ i → (S.placed e i s).cores c' = e.cores c' := by
            intro c' hc'
            rw [sound.placed_eq (c := i) valid hcs hs fits]
            simp [hc']
          have busy : ((S.placed e i s).cores i).proc ≠ none := by
            intro hnone
            have : i ∈ freeCores (S.placed e i s) := mem_freeCores.mpr ⟨hi, hnone⟩
            simp [erased] at this
          have fits' : (S.placed e i s).now + S.opt.csCost ≤ int64Max := by
            have : (S.placed e i s).now = e.now := move.now_eq
            rwa [this]
          have scanned' : ∀ c' ∈ freeCores (S.placed e i s), i ≤ c' := by
            intro c' hc'
            rw [erased, Finset.mem_erase] at hc'
            by_contra hlt
            -- a free core before `i` would have been found first
            have hused : u c' = false := by
              by_contra h
              exact usedBusy c' (by simpa using h) (mem_freeCores.mp hc'.2).2
            have := List.find?_range_eq_some.mp first
            have := this.2.2 c' (by omega)
            simp [isFree, scanned c' hc'.2, hused, (mem_freeCores.mp hc'.2).2] at this
          have held' : HeldBy rest (Function.update sp s.proc (.core i s)) := by
            simpa using HeldBy.place (l := []) held (by simpa using nodup) (c := i)
          have card := Finset.card_erase_of_mem free
          obtain ⟨e', sp', run', moves, none, card', same⟩ :=
            ih (sound.place valid hcs hs hi hfree.2.2 fits) fits' held' (List.nodup_cons.mp nodup).2
              (u := Function.update u i true) (by
                intro c' hused
                by_cases h : c' = i
                · subst h
                  exact busy
                · rw [Function.update_of_ne h] at hused
                  rw [cores_eq c' h]
                  exact usedBusy c' hused)
              scanned' (by rw [erased]; simp only [List.length_cons] at enough; omega)
          refine ⟨e', sp', by simp [placeRest, first, run, run'], .head move moves, none, ?_,
            same.place hs⟩
          rw [erased] at card'
          have := Finset.card_pos.mpr ⟨i, free⟩
          simp only [List.length_cons]
          omega

/-- `dispatch` succeeds; afterwards no slice waits, and a core is free only when
the policy refused. -/
theorem dispatch_spec {e : S.Eng} {sp : Nat → Spot} (sound : S.Sound PInv budget ⟨e, sp⟩)
    (settled : Settled ⟨e, sp⟩) (early : e.now < int64Max)
    (fits : e.now + S.opt.csCost ≤ int64Max) :
    ∃ e' sp', S.dispatch e = some e' ∧ S.Moves ⟨e, sp⟩ ⟨e', sp'⟩ ∧ Dispatched ⟨e', sp'⟩ := by
  obtain ⟨state, picks, sp₁, run₁, moves₁, held₁, nodup, -, le, refused⟩ :=
    collectPicks_spec contract (freeCores e).card sound early
      (noneHeld_iff.mp settled.noneHeld)
  have sound₁ := moves₁.sound valid hcs contract sound
  rw [List.nil_append] at held₁
  have unused : ∀ c, (fun _ : Nat => false) c = true →
      ((⟨{ e with state }, sp₁⟩ : S.Config).eng.cores c).proc ≠ none := by simp
  obtain ⟨e₂, used, left, sp₂, run₂, moves₂, held₂, sub, card₂, usedBusy, same₂⟩ :
      ∃ e₂ used left sp₂,
        (if 1 < S.opt.cores then S.placeHome picks { e with state } fun _ => false
          else some ({ e with state }, fun _ => false, picks)) = some (e₂, used, left) ∧
        S.Moves ⟨{ e with state }, sp₁⟩ ⟨e₂, sp₂⟩ ∧ HeldBy left sp₂ ∧ left.Sublist picks ∧
        (freeCores e₂).card + picks.length = (freeCores e).card + left.length ∧
        (∀ c, used c = true → (e₂.cores c).proc ≠ none) ∧ SameWaiting sp₁ sp₂ := by
    by_cases many : 1 < S.opt.cores
    · rw [if_pos many]
      exact placeHome_spec valid hcs picks (l := []) sound₁ fits held₁ nodup unused
    · rw [if_neg many]
      exact ⟨_, _, _, sp₁, rfl, .refl, held₁, .refl _, rfl, unused, fun p => by simp⟩
  have sound₂ := moves₂.sound valid hcs contract sound₁
  have fits₂ : e₂.now + S.opt.csCost ≤ int64Max := by
    have : e₂.now = e.now := moves₂.now_eq
    rwa [this]
  have := sub.length_le
  obtain ⟨e₃, sp₃, run₃, moves₃, none, card₃, same₃⟩ :=
    placeRest_spec valid hcs left (c := 0) sound₂ fits₂ held₂ (nodup.sublist (sub.map _)) usedBusy
      (fun _ _ => Nat.zero_le _) (by omega)
  have moves : S.Moves ⟨e, sp⟩ ⟨e₃, sp₃⟩ := moves₁.trans (moves₂.trans moves₃)
  refine ⟨e₃, sp₃, ?_, moves, ⟨?_, ?_, ?_, ?_, none⟩, ?_⟩
  · simp only [dispatch, countP_free, run₁, Option.bind_eq_bind, Option.bind_some]
    by_cases many : 1 < S.opt.cores
    · rw [if_pos many] at run₂ ⊢
      simp only [run₂, Option.bind_some, run₃]
    · rw [if_neg many] at run₂ ⊢
      cases run₂
      exact run₃
  · exact Moves.keep valid hcs contract (I := ArrivalsDone) (fun move _ => move.arrivalsDone) moves
      sound settled.arrivals
  · exact Moves.keep valid hcs contract (I := WakesDone)
      (fun move sound => move.wakesDone valid hcs sound) moves sound settled.wakes
  · exact fun c => Moves.keep valid hcs contract
      (I := fun a => OnCore (SwitchDone a.eng.now) c a)
      (fun move sound => move.switchDone valid hcs sound) moves sound (settled.switches c)
  · exact fun c => Moves.keep valid hcs contract
      (I := fun a => OnCore (CutDone a.eng.now) c a)
      (fun move sound => move.cutDone valid hcs sound) moves sound (settled.cuts c)
  · rintro ⟨c, hc, hfree⟩
    have hpos : 0 < (freeCores e₃).card := Finset.card_pos.mpr ⟨c, mem_freeCores.mpr ⟨hc, hfree⟩⟩
    have same : SameWaiting sp₁ sp₃ := fun p =>
      ⟨(same₃ p).1.trans (same₂ p).1, (same₃ p).2.trans (same₂ p).2⟩
    rcases refused (by omega) with idle | ⟨waits, p, hp, new⟩
    · exact .inl fun p hready => idle p ((same p).1.mp hready)
    · exact .inr ⟨waits, p, hp, (same p).2.mpr new⟩

end Sim

end CpuSched
