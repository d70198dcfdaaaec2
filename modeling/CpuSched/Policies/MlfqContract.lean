import CpuSched.Policies.MlfqRefinement
import CpuSched.Policies.Registry

/-!
# MLFQ keeps the contract

The invariant is stated on the reference: every ready job is in the queue of its
level, a job below the bottom level has allotment left, and the rest of a slice
that is out fits the allotment.  Each hook of `mlfq.c` follows the reference by
`Rep` and so keeps it.
-/

namespace CpuSched

variable {D : Type}

/-- The invariant of the reference at the time `now`. -/
structure RefMlfqOk (a : RefMlfq) (now : Int) (pl : Places) : Prop where
  levels_pos : 1 ≤ a.levels
  quanta_pos : ∀ l < a.levels, 0 < a.quanta l
  allot_pos : ∀ l < a.levels, 0 < a.allot l
  boost_nonneg : 0 ≤ a.boost
  epoch_le : 0 < a.boost → a.epoch ≤ now / a.boost
  separate : Separate a.queues
  outside : ∀ l, a.levels ≤ l → a.queues l = []
  mem_iff : ∀ p, (∃ l, p ∈ a.queues l) ↔ pl p = .ready
  at_level : ∀ {l p}, p ∈ a.queues l → a.level p = l
  level_lt : ∀ p, a.level p < a.levels
  used_lt : ∀ p, a.level p + 1 < a.levels → a.used p < a.allot (a.level p)
  left_nonneg : ∀ p, 0 ≤ a.left p
  dispatched_le : ∀ p slice, pl p = .out slice → a.dispatchedIn p ≤ a.epoch
  slice : ∀ p slice, pl p = .out slice → a.dispatchedIn p = a.epoch → slice.length = a.left p ∧
    (a.level p + 1 < a.levels → a.used p + slice.length ≤ a.allot (a.level p))
  stale : ∀ p slice, pl p = .out slice → a.dispatchedIn p ≠ a.epoch →
    a.level p = 0 ∧ a.used p = 0 ∧ a.left p = 0

namespace RefMlfqOk

variable {a : RefMlfq} {now : Int} {pl : Places} {p : Nat} {z : Place}

theorem fresh (ok : RefMlfqOk a now pl) (notReady : pl p ≠ .ready) (l : Nat) : p ∉ a.queues l :=
  fun mem => notReady ((ok.mem_iff p).mp ⟨l, mem⟩)

theorem later (ok : RefMlfqOk a now pl) {now' : Int} (le : now ≤ now') : RefMlfqOk a now' pl :=
  { ok with epoch_le := fun pos => (ok.epoch_le pos).trans (Int.ediv_le_ediv pos le) }

/-- A process that is not ready moves to a place off the cores. -/
theorem other (ok : RefMlfqOk a now pl) (notReady : pl p ≠ .ready) (stays : z ≠ .ready)
    (off : ∀ slice, z ≠ .out slice) : RefMlfqOk a now (pl.move p z) :=
  { ok with
    mem_iff := fun q => by
      rw [ok.mem_iff]
      by_cases h : q = p
      · subst h
        simp [notReady, stays]
      · rw [pl.move_of_ne _ h]
    dispatched_le := fun q slice hq => by
      by_cases h : q = p
      · subst h
        rw [pl.move_self] at hq
        exact absurd hq (off slice)
      · rw [pl.move_of_ne _ h] at hq
        exact ok.dispatched_le q slice hq
    slice := fun q slice hq => by
      by_cases h : q = p
      · subst h
        rw [pl.move_self] at hq
        exact absurd hq (off slice)
      · rw [pl.move_of_ne _ h] at hq
        exact ok.slice q slice hq
    stale := fun q slice hq => by
      by_cases h : q = p
      · subst h
        rw [pl.move_self] at hq
        exact absurd hq (off slice)
      · rw [pl.move_of_ne _ h] at hq
        exact ok.stale q slice hq }

/-- The fields of a job off the cores and the queues change. -/
theorem setJob (ok : RefMlfqOk a now pl) (notReady : pl p ≠ .ready)
    (off : ∀ slice, pl p ≠ .out slice) {l : Nat} {u x : Int} (hl : l < a.levels)
    (hu : l + 1 < a.levels → u < a.allot l) (hx : 0 ≤ x) :
    RefMlfqOk { a with
      level := Function.update a.level p l
      used := Function.update a.used p u
      left := Function.update a.left p x } now pl := by
  have inQueue : ∀ {l' q}, q ∈ a.queues l' → q ≠ p := by
    rintro l' q mem rfl
    exact ok.fresh notReady l' mem
  have onCore : ∀ {q slice}, pl q = .out slice → q ≠ p := by
    rintro q slice hq rfl
    exact off slice hq
  exact { ok with
    at_level := fun {l' q} mem => by
      simp only [Function.update_of_ne (inQueue mem)]
      exact ok.at_level mem
    level_lt := fun q => by
      simp only [Function.update_apply]
      split_ifs
      · exact hl
      · exact ok.level_lt q
    used_lt := fun q => by
      simp only [Function.update_apply]
      split_ifs
      · exact hu
      · exact ok.used_lt q
    left_nonneg := fun q => by
      simp only [Function.update_apply]
      split_ifs
      · exact hx
      · exact ok.left_nonneg q
    slice := fun q slice hq => by
      simp only [Function.update_of_ne (onCore hq)]
      exact ok.slice q slice hq
    stale := fun q slice hq => by
      simp only [Function.update_of_ne (onCore hq)]
      exact ok.stale q slice hq }

/-- A job enters the queue of its level, at either end. -/
theorem enqueue (ok : RefMlfqOk a now pl) (notReady : pl p ≠ .ready) {t : List Nat}
    (ends : t = a.queues (a.level p) ++ [p] ∨ t = p :: a.queues (a.level p)) :
    RefMlfqOk { a with queues := Function.update a.queues (a.level p) t } now
      (pl.move p .ready) := by
  have fresh := ok.fresh notReady
  have mem_xs : ∀ q, q ∈ t ↔ q = p ∨ q ∈ a.queues (a.level p) := by
    intro q
    rcases ends with rfl | rfl
    · rw [List.mem_append, List.mem_singleton, or_comm]
    · exact List.mem_cons
  exact { ok with
    separate := by
      rcases ends with rfl | rfl
      · exact ok.separate.pushBack fresh _
      · exact ok.separate.pushFront fresh _
    outside := fun l hl => by
      have := ok.level_lt p
      dsimp only at hl ⊢
      rw [Function.update_of_ne (by omega)]
      exact ok.outside l hl
    mem_iff := fun q => by
      rw [exists_mem_update, mem_xs]
      by_cases h : q = p
      · subst h
        simp
      · rw [pl.move_of_ne _ h, ← ok.mem_iff]
        constructor
        · rintro ((rfl | mem) | ⟨l, -, mem⟩)
          · exact absurd rfl h
          · exact ⟨_, mem⟩
          · exact ⟨l, mem⟩
        · rintro ⟨l, mem⟩
          by_cases hl : l = a.level p
          · exact .inl (.inr (hl ▸ mem))
          · exact .inr ⟨l, hl, mem⟩
    at_level := fun {l q} mem => by
      dsimp only at mem ⊢
      by_cases hl : l = a.level p
      · subst hl
        rw [Function.update_self, mem_xs] at mem
        rcases mem with rfl | mem
        · rfl
        · exact ok.at_level mem
      · rw [Function.update_of_ne hl] at mem
        exact ok.at_level mem
    dispatched_le := fun q slice hq => by
      by_cases h : q = p
      · subst h
        simp at hq
      · rw [pl.move_of_ne _ h] at hq
        exact ok.dispatched_le q slice hq
    slice := fun q slice hq => by
      by_cases h : q = p
      · subst h
        simp at hq
      · rw [pl.move_of_ne _ h] at hq
        exact ok.slice q slice hq
    stale := fun q slice hq => by
      by_cases h : q = p
      · subst h
        simp at hq
      · rw [pl.move_of_ne _ h] at hq
        exact ok.stale q slice hq }

/-- A boost keeps the invariant, and brings the epoch up to date. -/
theorem boost (ok : RefMlfqOk a now pl) {v : SchedView D} (now_eq : v.now = now) :
    RefMlfqOk (a.doBoost v) now pl ∧ (0 < a.boost → (a.doBoost v).epoch = now / a.boost) ∧
      (a.doBoost v).boost = a.boost := by
  subst now_eq
  by_cases idle : a.boost = 0 ∨ v.now / a.boost = a.epoch
  · rw [RefMlfq.doBoost_idle idle]
    exact ⟨ok, by omega, rfl⟩
  · rw [RefMlfq.doBoost_due idle]
    have nonneg := ok.boost_nonneg
    have le := ok.epoch_le (by omega)
    have mem : ∀ {l p}, p ∈ (if l = 0 then a.merged else []) → l = 0 ∧ p ∈ a.merged := by
      intro l p h
      split_ifs at h with h0
      · exact ⟨h0, h⟩
      · simp at h
    refine ⟨{ ok with
      epoch_le := fun _ => le_rfl
      separate := ?_
      outside := fun l hl => if_neg (by
        have := ok.levels_pos
        dsimp only at hl
        omega)
      mem_iff := fun q => ?_
      at_level := fun {l q} h => (mem h).1.symm
      level_lt := fun _ => ok.levels_pos
      used_lt := fun _ _ => ok.allot_pos 0 ok.levels_pos
      left_nonneg := fun _ => le_rfl
      dispatched_le := fun q slice hq => (ok.dispatched_le q slice hq).trans le
      slice := fun q slice hq h => ?_
      stale := fun _ _ _ _ => ⟨rfl, rfl, rfl⟩ }, fun _ => rfl, rfl⟩
    · rw [← RefMlfq.merged_eq ok.levels_pos ok.outside]
      exact separate_foldl_boost (by simp) ok.separate
    · rw [← ok.mem_iff]
      constructor
      · rintro ⟨l, h⟩
        obtain ⟨l', -, h'⟩ := List.mem_flatMap.mp (mem h).2
        exact ⟨l', h'⟩
      · rintro ⟨l, h⟩
        have hl : l < a.levels := by
          by_contra hge
          rw [ok.outside l (by omega)] at h
          simp at h
        exact ⟨0, List.mem_flatMap.mpr ⟨l, List.mem_range.mpr hl, h⟩⟩
    · have := ok.dispatched_le q slice hq
      simp only at h
      omega

/-- The head of a queue leaves for a core with a slice of the length that
`pick` computes. -/
theorem pick (ok : RefMlfqOk a now pl) {l : Nat} {rest : List Nat} (queue : a.queues l = p :: rest)
    {s : Slice} (length_eq : s.length = (a.slice l p rest).2.length) :
    pl p = .ready ∧ 0 < s.length ∧
      RefMlfqOk (a.slice l p rest).1 now (pl.move p (.out s)) := by
  have mem : p ∈ a.queues l := by
    rw [queue]
    exact List.mem_cons_self
  have level : a.level p = l := ok.at_level mem
  have hl : l < a.levels := level ▸ ok.level_lt p
  have ready : pl p = .ready := (ok.mem_iff p).mp ⟨l, mem⟩
  have room := ok.used_lt p
  rw [level] at room
  have left_pos : 0 < if a.left p = 0 then a.quanta l else a.left p := by
    have := ok.left_nonneg p
    have := ok.quanta_pos l hl
    split_ifs <;> omega
  have bounds : 0 < s.length ∧ (l + 1 < a.levels → a.used p + s.length ≤ a.allot l) := by
    rw [length_eq]
    simp only [RefMlfq.slice]
    generalize (if a.left p = 0 then a.quanta l else a.left p) = left at left_pos
    split_ifs with h
    · have := room h
      omega
    · exact ⟨left_pos, fun h' => absurd h' h⟩
  have left_eq : (a.slice l p rest).1.left = Function.update a.left p s.length := by
    rw [length_eq]
    rfl
  refine ⟨ready, bounds.1, { ok with
    separate := ok.separate.pop queue
    outside := fun l' hl' => ?_
    mem_iff := fun q => ?_
    at_level := fun {l' q} mem' => ?_
    left_nonneg := fun q => ?_
    dispatched_le := fun q slice hq => ?_
    slice := fun q slice hq same => ?_
    stale := fun q slice hq ne => ?_ }⟩
  · have hne : l' ≠ l := by
      rintro rfl
      exact absurd hl (by simpa [RefMlfq.slice] using hl')
    simp only [RefMlfq.slice, Function.update_of_ne hne]
    exact ok.outside l' hl'
  · have fresh := ok.separate.pop_fresh queue
    simp only [RefMlfq.slice]
    by_cases h : q = p
    · subst h
      simp only [Places.move_self, reduceCtorEq, iff_false, not_exists]
      exact fresh
    · rw [exists_mem_update, pl.move_of_ne _ h, ← ok.mem_iff]
      constructor
      · rintro (mem' | ⟨l', -, mem'⟩)
        · exact ⟨l, by rw [queue]; exact List.mem_cons_of_mem _ mem'⟩
        · exact ⟨l', mem'⟩
      · rintro ⟨l', mem'⟩
        by_cases hl' : l' = l
        · subst hl'
          rw [queue] at mem'
          rcases List.mem_cons.mp mem' with rfl | mem'
          · exact absurd rfl h
          · exact .inl mem'
        · exact .inr ⟨l', hl', mem'⟩
  · simp only [RefMlfq.slice] at mem' ⊢
    by_cases hl' : l' = l
    · subst hl'
      rw [Function.update_self] at mem'
      exact ok.at_level (by rw [queue]; exact List.mem_cons_of_mem _ mem')
    · rw [Function.update_of_ne hl'] at mem'
      exact ok.at_level mem'
  · rw [left_eq, Function.update_apply]
    split_ifs
    · exact bounds.1.le
    · exact ok.left_nonneg q
  · simp only [RefMlfq.slice]
    by_cases h : q = p
    · subst h
      rw [Function.update_self]
    · rw [pl.move_of_ne _ h] at hq
      rw [Function.update_of_ne h]
      exact ok.dispatched_le q slice hq
  · by_cases h : q = p
    · subst h
      simp only [Places.move_self, Place.out.injEq] at hq
      subst hq
      rw [left_eq, Function.update_self]
      refine ⟨rfl, ?_⟩
      simp only [RefMlfq.slice, level]
      exact bounds.2
    · rw [pl.move_of_ne _ h] at hq
      rw [left_eq, Function.update_of_ne h]
      simp only [RefMlfq.slice, Function.update_of_ne h] at same ⊢
      exact ok.slice q slice hq same
  · by_cases h : q = p
    · subst h
      simp [RefMlfq.slice] at ne
    · rw [pl.move_of_ne _ h] at hq
      rw [left_eq, Function.update_of_ne h]
      simp only [RefMlfq.slice, Function.update_of_ne h] at ne ⊢
      exact ok.stale q slice hq ne

/-- A job that ran within its allotment is charged, and its slice gets the rest
`x`. -/
theorem charge (ok : RefMlfqOk a now pl) (notReady : pl p ≠ .ready)
    (off : ∀ slice, pl p ≠ .out slice) {ran x : Int} (hx : 0 ≤ x)
    (fits : a.level p + 1 < a.levels → a.used p + ran ≤ a.allot (a.level p)) {b : RefMlfq}
    {demoted : Bool} (run : a.charge p ran = (b, demoted)) :
    b.left = a.left ∧ RefMlfqOk { b with left := Function.update b.left p x } now pl := by
  unfold RefMlfq.charge at run
  simp only [Function.update_self] at run
  split_ifs at run with demotes
  · cases run
    have := ok.setJob notReady off (l := a.level p + 1) (u := 0) demotes.1
      (fun h => ok.allot_pos _ (by omega)) hx
    exact ⟨rfl, by simpa only [Function.update_idem] using this⟩
  · cases run
    have := ok.setJob notReady off (ok.level_lt p) (u := a.used p + ran) (fun h => by
      have := fits h
      omega) hx
    exact ⟨rfl, by simpa only [Function.update_eq_self] using this⟩

end RefMlfqOk

/-! ## The hooks, written out -/

section Equations

variable {v : SchedView D} {s t : Mlfq} {p : Nat} {ran : Int} {boosted : Bool}
  (sync : mlfqSync (maybeBoost v s) p = (t, boosted))
include sync

theorem mlfqArrival_eq : mlfqArrival v s p = some (mlfqPushBack { t with
    level := Function.update t.level p 0
    used := Function.update t.used p 0
    sliceLeft := Function.update t.sliceLeft p 0 } 0 p) := by
  simp only [mlfqArrival, sync]

theorem mlfqReady_eq : mlfqReady v s p = some (mlfqPushBack { t with
    sliceLeft := Function.update t.sliceLeft p 0 } (t.level p) p) := by
  simp only [mlfqReady, sync]

theorem mlfqBlock_eq {u : Mlfq} (hu : (if boosted then t else (mlfqCharge t p ran).1) = u) :
    mlfqBlock v s p ran = some { u with sliceLeft := Function.update u.sliceLeft p 0 } := by
  simp only [mlfqBlock, sync, hu]

theorem mlfqPreempt_eq {u : Mlfq} {demoted : Bool} (here : boosted = false)
    (charge : mlfqCharge { t with
      sliceLeft := Function.update t.sliceLeft p (t.sliceLeft p - ran) } p ran = (u, demoted)) :
    mlfqPreempt v s p ran = some (if demoted = true ∨ u.sliceLeft p = 0 then
      mlfqPushBack { u with sliceLeft := Function.update u.sliceLeft p 0 } (u.level p) p
      else mlfqPushFront u (u.level p) p) := by
  simp only [mlfqPreempt, sync, here, charge, Bool.false_eq_true, if_false]
  split <;> rfl

end Equations

theorem RefMlfq.preempt_eq {v : SchedView D} {a b : RefMlfq} {p : Nat} {ran : Int} {demoted : Bool}
    (here : (a.doBoost v).dispatchedIn p = (a.doBoost v).epoch)
    (charge : RefMlfq.charge { a.doBoost v with
      left := Function.update (a.doBoost v).left p ((a.doBoost v).left p - ran) } p ran =
        (b, demoted)) :
    a.preempt v p ran = some (if demoted = true ∨ b.left p = 0 then
      RefMlfq.pushBack { b with left := Function.update b.left p 0 } (b.level p) p
      else b.pushFront (b.level p) p) := by
  simp only [RefMlfq.preempt, here, charge, ne_eq, not_true_eq_false, if_false]
  split <;> rfl

/-! ## The hooks -/

variable {w : Workload}

/-- The invariant of MLFQ. -/
def MlfqInv (v : SchedView D) (s : Mlfq) (pl : Places) : Prop :=
  ∃ a, Rep s a (fun p => ∃ slice, pl p = .out slice) ∧ RefMlfqOk a v.now pl

section Hooks

variable {v : SchedView D} {s : Mlfq} {a : RefMlfq} {pl : Places} {p : Nat}
  (rep : Rep s a fun p => ∃ slice, pl p = .out slice) (ok : RefMlfqOk a v.now pl)
include rep ok

theorem Rep.boosted : Rep (CpuSched.maybeBoost v s) (a.doBoost v)
    (fun p => ∃ slice, pl p = .out slice) ∧
    RefMlfqOk (a.doBoost v) v.now pl :=
  ⟨rep.maybeBoost v ok.separate ok.levels_pos ok.outside ok.boost_nonneg ok.epoch_le,
    (ok.boost rfl).1⟩

omit rep ok in
/-- What is on a core after `p` moved off the cores was there before. -/
theorem out_of_move {z : Place} (off : ∀ slice, z ≠ .out slice) (q : Nat)
    (out : ∃ slice, pl.move p z q = .out slice) :
    (∃ slice, pl q = .out slice) ∧ q ≠ p := by
  obtain ⟨slice, hq⟩ := out
  have hne : q ≠ p := by
    rintro rfl
    rw [pl.move_self] at hq
    exact off slice hq
  rw [pl.move_of_ne _ hne] at hq
  exact ⟨⟨slice, hq⟩, hne⟩

/-- `mlfq_arrival` follows `Mlfq.arrive`. -/
theorem mlfqArrival_spec (notReady : pl p ≠ .ready) (off : ∀ slice, pl p ≠ .out slice) :
    ∃ s' a', mlfqArrival v s p = some s' ∧ a.arrive v p = some a' ∧
      Rep s' a' (fun q => ∃ slice, pl.move p .ready q = .out slice) ∧
      RefMlfqOk a' v.now (pl.move p .ready) := by
  obtain ⟨rep, ok⟩ := rep.boosted ok
  obtain ⟨⟨t, boosted⟩, sync⟩ : ∃ r, mlfqSync (maybeBoost v s) p = r := ⟨_, rfl⟩
  obtain ⟨rep, synced, -⟩ := rep.sync sync
  have ok' := ok.setJob notReady off (l := 0) (u := 0) (x := 0) ok.levels_pos
    (fun _ => ok.allot_pos 0 ok.levels_pos) le_rfl
  refine ⟨_, _, mlfqArrival_eq sync, rfl, ?_, ?_⟩
  · exact ((((rep.setLevel synced 0).setUsed synced 0).setLeft synced 0).pushBack ok.separate
      (ok.fresh notReady) 0).mono (out_of_move (by simp))
  · have := ok'.enqueue notReady (t := (a.doBoost v).queues 0 ++ [p]) (.inl (by simp))
    simpa [RefMlfq.pushBack] using this

/-- `mlfq_ready` follows `Mlfq.ready`. -/
theorem mlfqReady_spec (notReady : pl p ≠ .ready) (off : ∀ slice, pl p ≠ .out slice) :
    ∃ s' a', mlfqReady v s p = some s' ∧ a.ready v p = some a' ∧
      Rep s' a' (fun q => ∃ slice, pl.move p .ready q = .out slice) ∧
      RefMlfqOk a' v.now (pl.move p .ready) := by
  obtain ⟨rep, ok⟩ := rep.boosted ok
  obtain ⟨⟨t, boosted⟩, sync⟩ : ∃ r, mlfqSync (maybeBoost v s) p = r := ⟨_, rfl⟩
  obtain ⟨rep, synced, -⟩ := rep.sync sync
  have ok' := ok.setJob notReady off (x := 0) (ok.level_lt p) (ok.used_lt p) le_rfl
  simp only [Function.update_eq_self] at ok'
  refine ⟨_, _, mlfqReady_eq sync, rfl, ?_, ok'.enqueue notReady (.inl rfl)⟩
  rw [rep.level_synced synced]
  exact ((rep.setLeft synced 0).pushBack ok.separate (ok.fresh notReady) _).mono
    (out_of_move (by simp))

/-- What `sync` tells about a job that was on a core. -/
theorem sync_out {slice : Slice} (out : pl p = .out slice) {t : Mlfq} {boosted : Bool}
    (sync : mlfqSync (maybeBoost v s) p = (t, boosted)) :
    Rep t (a.doBoost v) (fun q => (∃ slice, pl q = .out slice) ∧ q ≠ p) ∧
      t.seenEpoch p = t.epoch ∧
      (boosted = false ↔ (a.doBoost v).dispatchedIn p = (a.doBoost v).epoch) := by
  obtain ⟨rep, -⟩ := rep.boosted ok
  obtain ⟨rep', synced, flag⟩ := rep.sync sync
  refine ⟨rep', synced, ?_⟩
  rw [rep.dispatched_eq p ⟨slice, out⟩, ← rep.epoch_eq]
  cases boosted
  · simp only [true_iff]
    by_contra h
    cases flag.mpr h
  · simp only [Bool.true_eq_false, false_iff]
    exact flag.mp rfl

/-- `mlfq_block` follows `Mlfq.block`. -/
theorem mlfqBlock_spec {slice : Slice} {ran : Int} (out : pl p = .out slice)
    (fits : ran ≤ slice.length) :
    ∃ s' a', mlfqBlock v s p ran = some s' ∧ a.block v p ran = some a' ∧
      Rep s' a' (fun q => ∃ slice, pl.move p .blocked q = .out slice) ∧
      RefMlfqOk a' v.now (pl.move p .blocked) := by
  obtain ⟨⟨t, boosted⟩, sync⟩ : ∃ r, mlfqSync (maybeBoost v s) p = r := ⟨_, rfl⟩
  obtain ⟨rep', synced, flag⟩ := sync_out rep ok out sync
  obtain ⟨-, ok⟩ := rep.boosted ok
  have ok' := ok.other (p := p) (z := .blocked) (by simp [out]) (by simp) (by simp)
  have moved : ∀ q, (∃ slice, pl.move p .blocked q = .out slice) →
      (∃ slice, pl q = .out slice) ∧ q ≠ p := out_of_move (by simp)
  cases boosted with
  | false =>
      have here := flag.mp rfl
      obtain ⟨-, room⟩ := ok.slice p slice out here
      obtain ⟨⟨u, demoted⟩, run⟩ : ∃ r, mlfqCharge t p ran = r := ⟨_, rfl⟩
      obtain ⟨b, run', charged, synced'⟩ := rep'.charge synced run
      refine ⟨_, { b with left := Function.update b.left p 0 }, mlfqBlock_eq sync (by simp [run]),
        by simp [RefMlfq.block, here, run'], (charged.setLeft synced' 0).mono moved, ?_⟩
      exact (ok'.charge (by simp) (by simp) le_rfl (fun h => by
        have := room h
        omega) run').2
  | true =>
      have here := mt flag.mpr (by simp)
      refine ⟨_, _, mlfqBlock_eq sync (if_pos rfl), rfl, ?_, ?_⟩
      · simp only [if_neg here]
        exact (rep'.setLeft synced 0).mono moved
      · simp only [if_neg here]
        have := ok'.setJob (p := p) (by simp) (by simp) (x := 0) (ok.level_lt p) (ok.used_lt p)
          le_rfl
        simpa only [Function.update_eq_self] using this

/-- `mlfq_preempt` follows `Mlfq.preempt`. -/
theorem mlfqPreempt_spec {slice : Slice} {ran : Int} (out : pl p = .out slice)
    (fits : ran ≤ slice.length) :
    ∃ s' a', mlfqPreempt v s p ran = some s' ∧ a.preempt v p ran = some a' ∧
      Rep s' a' (fun q => ∃ slice, pl.move p .ready q = .out slice) ∧
      RefMlfqOk a' v.now (pl.move p .ready) := by
  obtain ⟨⟨t, boosted⟩, sync⟩ : ∃ r, mlfqSync (maybeBoost v s) p = r := ⟨_, rfl⟩
  obtain ⟨rep', synced, flag⟩ := sync_out rep ok out sync
  obtain ⟨-, ok⟩ := rep.boosted ok
  have ok' := ok.other (p := p) (z := .blocked) (by simp [out]) (by simp) (by simp)
  have moved : ∀ q, (∃ slice, pl.move p .ready q = .out slice) →
      (∃ slice, pl q = .out slice) ∧ q ≠ p := out_of_move (by simp)
  have fresh := ok.fresh (p := p) (by simp [out])
  have again : (pl.move p .blocked).move p .ready = pl.move p .ready := Function.update_idem ..
  cases boosted with
  | false =>
      have here := flag.mp rfl
      obtain ⟨length_eq, room⟩ := ok.slice p slice out here
      -- the ticks leave the rest of the slice, then the job is charged
      have rest := rep'.setLeft synced (t.sliceLeft p - ran)
      obtain ⟨⟨u, demoted⟩, run⟩ : ∃ r, mlfqCharge { t with
        sliceLeft := Function.update t.sliceLeft p (t.sliceLeft p - ran) } p ran = r := ⟨_, rfl⟩
      obtain ⟨b, run', charged, synced'⟩ := rest.charge synced run
      rw [rep'.left_synced synced] at run'
      have ok'' := ok'.setJob (p := p) (by simp) (by simp) (x := (a.doBoost v).left p - ran)
        (ok.level_lt p) (ok.used_lt p) (by omega)
      simp only [Function.update_eq_self] at ok''
      have charge := fun {x : Int} (hx : 0 ≤ x) => ok''.charge (by simp) (by simp) hx (fun h => by
        have := room h
        dsimp only
        omega) run'
      have queues : b.queues = (a.doBoost v).queues := by
        unfold RefMlfq.charge at run'
        dsimp only at run'
        split_ifs at run' <;> cases run' <;> rfl
      have left : u.sliceLeft p = b.left p := charged.left_synced synced'
      have level : u.level p = b.level p := charged.level_synced synced'
      have fresh' : ∀ l, p ∉ b.queues l := fun l => queues ▸ fresh l
      have left_pos : 0 ≤ b.left p := by
        simp only [(charge le_rfl).1, Function.update_self]
        omega
      refine ⟨_, _, mlfqPreempt_eq sync rfl run, RefMlfq.preempt_eq here run', ?_, ?_⟩
      · rw [left, level]
        split
        · exact ((charged.setLeft synced' 0).pushBack (queues ▸ ok.separate) fresh' _).mono moved
        · exact (charged.pushFront fresh' _).mono moved
      · rw [← again]
        split
        · exact (charge le_rfl).2.enqueue (by simp) (.inl rfl)
        · have := (charge left_pos).2
          simp only [Function.update_eq_self] at this
          exact this.enqueue (by simp) (.inr rfl)
  | true =>
      have here := mt flag.mpr (by simp)
      have level := (ok.stale p slice out here).1
      have run : mlfqPreempt v s p ran = some (mlfqPushBack t 0 p) := by
        simp only [mlfqPreempt, sync, if_true]
      have run' : a.preempt v p ran = some ((a.doBoost v).pushBack 0 p) := by
        simp only [RefMlfq.preempt, ne_eq, here, not_false_eq_true, if_true]
      refine ⟨_, _, run, run', (rep'.pushBack ok.separate fresh 0).mono moved, ?_⟩
      rw [← again]
      have := ok'.enqueue (p := p) (by simp)
        (.inl (by rw [level]))
      rw [level] at this
      exact this

end Hooks

/-! ## `next_slice` -/

/-- The deadline of a slice: the next boost. -/
def boostDeadline (a : RefMlfq) : Int :=
  if 0 < a.boost ∧ a.epoch < int64Max / a.boost then (a.epoch + 1) * a.boost else schedNoDeadline

/-- The slice of `mlfq_next_slice` is that of `Mlfq.pick`, with a deadline. -/
theorem mlfqSlice_spec {s : Mlfq} {a : RefMlfq} {out : Nat → Prop} (rep : Rep s a out) {l p : Nat}
    {rest : List Nat} (queue : a.queues l = p :: rest) :
    ∃ s', mlfqSlice s l p = (s', { (a.slice l p rest).2 with deadline := boostDeadline a }) ∧
      Rep s' (a.slice l p rest).1 (fun q => (out q ∧ q ≠ p) ∨ q = p) := by
  have popped : Rep (mlfqPopFront s l p) { a with queues := Function.update a.queues l rest } out :=
    rep.links (sameJobs_popFront s l p) (rep.linked.popFront queue)
  obtain ⟨⟨t, boosted⟩, sync⟩ : ∃ r, mlfqSync (mlfqPopFront s l p) p = r := ⟨_, rfl⟩
  obtain ⟨rep', synced, -⟩ := popped.sync sync
  have left : t.sliceLeft p = a.left p := rep'.left_synced synced
  have used : t.used p = a.used p := rep'.used_synced synced
  have length : (if l + 1 < t.levels ∧ t.allot l - t.used p <
        (if t.sliceLeft p = 0 then t.quanta l else t.sliceLeft p) then t.allot l - t.used p
        else (if t.sliceLeft p = 0 then t.quanta l else t.sliceLeft p)) =
      (a.slice l p rest).2.length := by
    rw [rep'.levels_eq, rep'.allot_eq, rep'.quanta_eq, left, used]
    simp only [RefMlfq.slice]
    generalize (if a.left p = 0 then a.quanta l else a.left p) = x
    split_ifs <;> omega
  have deadline : (if 0 < t.boost ∧ t.epoch < int64Max / t.boost then (t.epoch + 1) * t.boost
      else schedNoDeadline) = boostDeadline a := by
    rw [rep'.boost_eq, rep'.epoch_eq]
    rfl
  have set := rep'.setLeft synced (a.slice l p rest).2.length
  refine ⟨{ t with sliceLeft := Function.update t.sliceLeft p (a.slice l p rest).2.length }, ?_,
    { set with
      linked := ⟨set.linked.head, set.linked.tail, set.linked.chain⟩
      dispatched_eq := fun q hq => ?_ }⟩
  · simp only [mlfqSlice, sync, length, deadline]
    rfl
  · simp only [RefMlfq.slice]
    by_cases h : q = p
    · subst h
      rw [Function.update_self]
      exact (rep'.epoch_eq.symm.trans synced.symm)
    · rw [Function.update_of_ne h]
      rcases hq with hq | hq
      · exact rep'.dispatched_eq q hq
      · exact absurd hq h

theorem boostDeadline_spec {a : RefMlfq} {now : Int} (early : now < int64Max)
    (epoch_eq : 0 < a.boost → a.epoch = now / a.boost) :
    now < boostDeadline a ∧ boostDeadline a ≤ int64Max := by
  unfold boostDeadline
  split_ifs with h
  · obtain ⟨pos, lt⟩ := h
    have := epoch_eq pos
    constructor
    · have := Int.lt_ediv_add_one_mul_self now pos
      rwa [epoch_eq pos]
    · have : (a.epoch + 1) * a.boost ≤ int64Max / a.boost * a.boost :=
        Int.mul_le_mul_of_nonneg_right (by omega) pos.le
      have := Int.ediv_mul_le int64Max pos.ne'
      omega
  · exact ⟨early, le_rfl⟩

/-- `mlfq_next_slice` follows `Mlfq.pick`. -/
theorem mlfqNextSlice_spec {v : SchedView D} {s : Mlfq} {a : RefMlfq} {pl : Places}
    (rep : Rep s a fun p => ∃ slice, pl p = .out slice) (ok : RefMlfqOk a v.now pl)
    (early : v.now < int64Max) :
    ((∀ p, pl p ≠ .ready) ∧ a.pick v = some (a.doBoost v, none) ∧
      mlfqNextSlice v s = some (maybeBoost v s, none)) ∨
    ∃ s' a' slice, a.pick v = some (a', some { slice with deadline := schedNoDeadline }) ∧
      mlfqNextSlice v s = some (s', some slice) ∧ pl slice.proc = .ready ∧ 0 < slice.length ∧
      v.now < slice.deadline ∧ slice.deadline ≤ int64Max ∧
      slice.deadline = boostDeadline (a.doBoost v) ∧
      Rep s' a' (fun q => ∃ slice', pl.move slice.proc (.out slice) q = .out slice') ∧
      RefMlfqOk a' v.now (pl.move slice.proc (.out slice)) := by
  obtain ⟨-, epoch_eq, boost_eq⟩ := ok.boost rfl
  obtain ⟨rep, ok⟩ := rep.boosted ok
  rw [← boost_eq] at epoch_eq
  obtain ⟨later, le⟩ := boostDeadline_spec early epoch_eq
  have heads : (fun l => ((maybeBoost v s).head l).isSome) =
      fun l => !((a.doBoost v).queues l).isEmpty := by
    funext l
    rw [rep.linked.head]
    cases (a.doBoost v).queues l <;> rfl
  unfold mlfqNextSlice RefMlfq.pick
  simp only [heads, rep.levels_eq]
  generalize a.doBoost v = b at *
  generalize maybeBoost v s = t at *
  cases first : (List.range b.levels).find? fun l => !(b.queues l).isEmpty with
  | none =>
      refine .inl ⟨fun p ready => ?_, rfl, rfl⟩
      obtain ⟨l, mem⟩ := (ok.mem_iff p).mpr ready
      have hl : l < b.levels := by
        by_contra hge
        rw [ok.outside l (by omega)] at mem
        simp at mem
      have := List.find?_eq_none.mp first l (List.mem_range.mpr hl)
      simp only [Bool.not_eq_true'] at this
      simp only [Bool.not_eq_false, List.isEmpty_iff] at this
      rw [this] at mem
      simp at mem
  | some l =>
      have nonempty := List.find?_some first
      cases queue : b.queues l with
      | nil => simp [queue] at nonempty
      | cons p rest =>
          have head : t.head l = some p := by
            rw [rep.linked.head, queue]
            rfl
          obtain ⟨s', run, rep'⟩ := mlfqSlice_spec rep queue
          obtain ⟨slice, hslice⟩ : ∃ slice : Slice,
            slice = { (b.slice l p rest).2 with deadline := boostDeadline b } := ⟨_, rfl⟩
          obtain ⟨ready, pos, ok'⟩ := ok.pick queue (s := slice) (by rw [hslice])
          have proc : slice.proc = p := by rw [hslice]; rfl
          have deadline : slice.deadline = boostDeadline b := by rw [hslice]
          rw [← hslice] at run
          refine .inr ⟨s', (b.slice l p rest).1, slice, ?_, ?_, proc ▸ ready, pos, ?_, ?_, deadline,
            ?_, proc ▸ ok'⟩
          · rw [hslice]
            simp only [queue]
            rfl
          · simp only [head, run]
          · rw [deadline]
            exact later
          · rw [deadline]
            exact le
          · refine rep'.mono fun q hq => ?_
            rw [proc] at hq
            by_cases h : q = p
            · exact .inr h
            · rw [pl.move_of_ne _ h] at hq
              exact .inl ⟨hq, h⟩

/-! ## The contract -/

theorem mlfq_contract (w : Workload) : Contract (D := D) w policyMlfq MlfqInv where
  interruptible hook := by simp [policyMlfq] at hook
  view inv _ _ step := by
    obtain ⟨a, rep, ok⟩ := inv
    exact ⟨a, rep, ok.later step.now_le⟩
  arrival {v s pl p} inv _ _ new _ := by
    obtain ⟨a, rep, ok⟩ := inv
    obtain ⟨s', a', run, -, rep', ok'⟩ :=
      mlfqArrival_spec rep ok (p := p) (by simp [new]) (by simp [new])
    exact ⟨s', run, a', rep', ok'⟩
  wake {v s pl p} inv _ blocked _ := by
    obtain ⟨a, rep, ok⟩ := inv
    obtain ⟨s', a', run, -, rep', ok'⟩ :=
      mlfqReady_spec rep ok (p := p) (by simp [blocked]) (by simp [blocked])
    exact ⟨s', run, a', rep', ok'⟩
  next {v s pl} inv _ hnow := by
    obtain ⟨a, rep, ok⟩ := inv
    rcases mlfqNextSlice_spec rep ok hnow with ⟨empty, -, run⟩ |
      ⟨s', a', slice, -, run, ready, pos, later, le, -, rep', ok'⟩
    · obtain ⟨rep', ok'⟩ := rep.boosted ok
      exact ⟨_, none, run, ⟨_, rep', ok'⟩, .inl empty⟩
    · exact ⟨s', some slice, run, ready, pos, later, le,
        fun hook => by simp [policyMlfq] at hook, a', rep', ok'⟩
  preempt {v s pl p slice ran f} inv _ out _ fits _ hook := by
    cases hook
    obtain ⟨a, rep, ok⟩ := inv
    obtain ⟨s', a', run, -, rep', ok'⟩ := mlfqPreempt_spec rep ok out fits
    exact ⟨s', run, a', rep', ok'⟩
  block {v s pl p slice ran} inv _ out _ fits _ := by
    obtain ⟨a, rep, ok⟩ := inv
    obtain ⟨s', a', run, -, rep', ok'⟩ := mlfqBlock_spec rep ok out fits
    exact ⟨s', run, a', rep', ok'⟩
  complete {v s pl p slice ran} inv _ out _ _ := by
    obtain ⟨a, rep, ok⟩ := inv
    exact ⟨s, rfl, a, rep.mono fun q hq => (out_of_move (by simp) q hq).1,
      ok.other (by simp [out]) (by simp) (by simp)⟩

theorem mlfqCreate_spec (v : SchedView D) {params : PolicyParams} (admitted : params.Admitted) :
    ∃ s a, mlfqCreate v params = .ok s ∧ RefMlfq.create v params = .ok a ∧
      Rep s a (fun p => ∃ slice, (fun _ => Place.new) p = .out slice) ∧
      RefMlfqOk a v.now fun _ => .new := by
  have nonneg := admitted.boost_nonneg
  refine ⟨_, _, rfl, rfl, ?_, ?_⟩
  · refine ⟨rfl, rfl, rfl, rfl, ?_, ⟨fun _ => rfl, fun _ => rfl, fun _ => trivial⟩, fun _ => ?_,
      fun _ => ?_, fun _ => ?_, fun _ => le_rfl, fun p hp => ?_⟩
    · by_cases h : params.mlfqBoost = 0
      · simp [h]
      · have : 0 < params.mlfqBoost := by omega
        simp [h, this]
    · simp
    · simp
    · simp
    · simp at hp
  · exact {
      levels_pos := admitted.levels_pos
      quanta_pos := admitted.quanta_pos
      allot_pos := admitted.allotment_pos
      boost_nonneg := nonneg
      epoch_le := fun pos => by
        dsimp only at pos ⊢
        rw [if_pos pos.ne']
      separate := ⟨fun _ => List.nodup_nil, fun h => by simp at h⟩
      outside := fun _ _ => rfl
      mem_iff := fun p => by simp
      at_level := fun h => by simp at h
      level_lt := fun _ => admitted.levels_pos
      used_lt := fun _ _ => admitted.allotment_pos 0 admitted.levels_pos
      left_nonneg := fun _ => le_rfl
      dispatched_le := fun p slice h => by simp at h
      slice := fun p slice h => by simp at h
      stale := fun p slice h => by simp at h }

/-- What the queues of MLFQ hold. -/
def mlfqStores (s : Mlfq) (entries : List Nat) : Prop :=
  ∃ qs : Nat → List Nat, (∀ l < s.levels, s.head l = (qs l).head? ∧ Chain s.next (qs l)) ∧
    (List.range s.levels).flatMap qs = entries

theorem MlfqInv.stores {v : SchedView D} {s : Mlfq} {pl : Places} (inv : MlfqInv v s pl) :
    ∃ ready, mlfqStores s ready ∧ Holds pl ready := by
  obtain ⟨a, rep, ok⟩ := inv
  refine ⟨_, ⟨a.queues, fun l _ => ⟨rep.linked.head l, rep.linked.chain l⟩, rfl⟩,
    ok.separate.nodup_flatMap List.nodup_range, fun p => ?_⟩
  rw [← ok.mem_iff, List.mem_flatMap]
  constructor
  · rintro ⟨l, -, mem⟩
    exact ⟨l, mem⟩
  · rintro ⟨l, mem⟩
    refine ⟨l, List.mem_range.mpr ?_, mem⟩
    rw [rep.levels_eq]
    by_contra out
    rw [ok.outside l (by omega)] at mem
    exact List.not_mem_nil mem

theorem mlfq_lawful (w : Workload) (v : SchedView D) {params : PolicyParams}
    (admitted : params.Admitted) : Lawful w policyMlfq mlfqStores v params := by
  intro s created
  obtain ⟨s', a, run, -, rep, ok⟩ := mlfqCreate_spec v admitted
  cases run.symm.trans created
  exact ⟨MlfqInv, mlfq_contract w, ⟨a, rep, ok⟩, fun inv _ => inv.stores⟩

end CpuSched
