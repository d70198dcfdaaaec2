import CpuSched.Engine.Invariant
import Mathlib.Data.List.Perm.Subperm

/-!
# The steps of an instant

Everything `process_instant` and `dispatch` do at one instant is a sequence of
moves: a process is admitted, woken, taken off a core in one of three ways,
picked or placed, or a core is marked or starts its run.  A move changes neither
the clock nor the unserved work, and keeps `Sound`.
-/

namespace CpuSched

namespace Sim

variable {D : Type} [Double D] (S : Sim D)

/-- The engine after the slice of `p` on core `c` used up its burst. -/
def burstOver (e : S.Eng) (c p : Nat) : S.Eng :=
  { S.chargeRun e c p with predicted := S.ewma (S.chargeRun e c p) p }

/-- The engine after a switch-in on core `c` ended with the deadline
`deadline`. -/
def startRun (e : S.Eng) (c p : Nat) (deadline : Int) : S.Eng :=
  S.beginRun (S.setCore e c { e.cores c with deadline }) c p

/-- The engine after `dispatch_one`. -/
def placed (e : S.Eng) (c : Nat) (s : Slice) : S.Eng :=
  if S.switching e c s.proc ∧ 0 < S.opt.csCost then S.switchIn (S.seat e c s) c s.proc
  else S.beginRun (S.seat e c s) c s.proc

/-- One step inside an instant. -/
inductive Move : S.Config → S.Config → Prop
  | arrive {e sp key rest state} (pending : e.pending = key :: rest) (due : key.arrival ≤ e.now)
      (hook : S.policy.onArrival (S.view e) e.state key.index = some state) :
      Move ⟨e, sp⟩ ⟨{ e with state, pending := rest }, Function.update sp key.index .ready⟩
  | wake {e sp p heap state} (popped : heapPop (S.blockedLess e.wake) e.blocked = some (p, heap))
      (due : e.wake p ≤ e.now) (hook : S.policy.wakeHook (S.view e) e.state p = some state) :
      Move ⟨e, sp⟩ ⟨{ e with state, blocked := heap }, Function.update sp p .ready⟩
  | preempt {e sp c p s f state} (seat : sp p = .core c s) (runs : (e.cores c).inCs = false)
      (ran : (e.cores c).runStart < e.now) (left : (S.chargeRun e c p).remaining p ≠ 0)
      (hook_eq : S.policy.onPreempt = some f)
      (hook : f (S.view (S.chargeRun e c p)) e.state p (e.now - (e.cores c).runStart) =
        some state) :
      Move ⟨e, sp⟩ ⟨{ S.chargeRun e c p with state }, Function.update sp p .ready⟩
  | block {e sp c p s heap state} (seat : sp p = .core c s) (runs : (e.cores c).inCs = false)
      (ran : (e.cores c).runStart < e.now) (used : (S.chargeRun e c p).remaining p = 0)
      (more : e.phase p + 1 ≠ (S.w.proc p).phaseCount)
      (pushed : heapPush (S.blockedLess (S.startIo (S.burstOver e c p) p).wake)
        (S.startIo (S.burstOver e c p) p).blocked p = some heap)
      (hook : optCall S.policy.onBlock (S.view (S.startIo (S.burstOver e c p) p)) e.state p
        (e.now - (e.cores c).runStart) = some state) :
      Move ⟨e, sp⟩ ⟨{ S.startIo (S.burstOver e c p) p with blocked := heap, state },
        Function.update sp p .blocked⟩
  | complete {e sp c p s state} (seat : sp p = .core c s) (runs : (e.cores c).inCs = false)
      (ran : (e.cores c).runStart < e.now) (used : (S.chargeRun e c p).remaining p = 0)
      (last : e.phase p + 1 = (S.w.proc p).phaseCount)
      (hook : optCall S.policy.onComplete (S.view (S.burstOver e c p)) e.state p
        (e.now - (e.cores c).runStart) = some state) :
      Move ⟨e, sp⟩ ⟨{ S.finishProcess (S.burstOver e c p) p with state },
        Function.update sp p .done⟩
  | mark {e sp c p s} (seat : sp p = .core c s) (switching : (e.cores c).inCs = true)
      (redecides : S.policy.preemptOnReady = true) :
      Move ⟨e, sp⟩ ⟨S.setCore e c { e.cores c with recheck := true }, sp⟩
  | start {e sp c p s deadline} (seat : sp p = .core c s) (switching : (e.cores c).inCs = true)
      (elapsed : (e.cores c).busyUntil = e.now)
      (deadline_eq : (deadline = (e.cores c).deadline ∧ e.now < deadline ∧
          (e.cores c).recheck = false) ∨
        (deadline = e.now + 1 ∧ ((e.cores c).recheck = true ∨ (e.cores c).deadline ≤ e.now))) :
      Move ⟨e, sp⟩ ⟨S.startRun e c p deadline, sp⟩
  | pick {e sp s state} (hook : S.policy.nextSlice (S.view e) e.state = some (state, some s))
      (early : e.now < int64Max) :
      Move ⟨e, sp⟩ ⟨{ e with state }, Function.update sp s.proc (.held s)⟩
  | refuse {e sp state} (hook : S.policy.nextSlice (S.view e) e.state = some (state, none))
      (early : e.now < int64Max) :
      Move ⟨e, sp⟩ ⟨{ e with state }, sp⟩
  | place {e sp c s} (held : sp s.proc = .held s) (core_lt : c < S.opt.cores)
      (free : (e.cores c).proc = none) (fits : e.now + S.opt.csCost ≤ int64Max) :
      Move ⟨e, sp⟩ ⟨S.placed e c s, Function.update sp s.proc (.core c s)⟩

end Sim

/-! ## Moving one process -/

section Frames

variable {w : Workload} {now : Int} {sp sp' : Nat → Spot} {p : Nat} {z : Spot}

theorem PendingOk.congr {pending : List ArrivalKey} (ok : PendingOk w now pending sp)
    (same : ∀ q < w.len, sp' q = .new ↔ sp q = .new) : PendingOk w now pending sp' := by
  refine ⟨ok.sorted, ok.keys, ok.arrival_ge, ok.nodup, fun q => ?_⟩
  rw [ok.mem_iff]
  constructor
  · rintro ⟨hq, new⟩
    exact ⟨hq, (same q hq).mpr new⟩
  · rintro ⟨hq, new⟩
    exact ⟨hq, (same q hq).mp new⟩

/-- A process that is not new moves to another place. -/
theorem PendingOk.move {pending : List ArrivalKey} (ok : PendingOk w now pending sp)
    (leaves : sp p ≠ .new) (enters : z ≠ .new) :
    PendingOk w now pending (Function.update sp p z) := by
  refine ok.congr fun q _ => ?_
  by_cases hq : q = p
  · subst hq
    simp [leaves, enters]
  · simp [hq]

/-- The head of the pending processes is admitted. -/
theorem PendingOk.arrive {key : ArrivalKey} {rest : List ArrivalKey}
    (ok : PendingOk w now (key :: rest) sp) (enters : z ≠ .new) :
    PendingOk w now rest (Function.update sp key.index z) := by
  have hnodup := ok.nodup
  rw [List.map_cons, List.nodup_cons] at hnodup
  refine ⟨(List.pairwise_cons.mp ok.sorted).2, fun k hk => ok.keys k (List.mem_cons_of_mem _ hk),
    fun k hk => ok.arrival_ge k (List.mem_cons_of_mem _ hk), hnodup.2, fun q => ?_⟩
  have hq := ok.mem_iff q
  rw [List.map_cons, List.mem_cons] at hq
  by_cases h : q = key.index
  · subst h
    simp [hnodup.1, enters]
  · rw [Function.update_of_ne h, ← hq]
    simp [h]

theorem BlockedOk.congr {n : Nat} {less : Nat → Nat → Bool} {wake : Nat → Int} {blocked : Heap}
    (ok : BlockedOk n less now wake blocked sp) (same : ∀ q, sp' q = .blocked ↔ sp q = .blocked) :
    BlockedOk n less now wake blocked sp' :=
  ⟨ok.cap_eq, ok.nodup, fun q => by rw [ok.mem_iff, same], ok.ordered,
    fun q hq => ok.wake_ge q ((same q).mp hq)⟩

/-- A process that is not blocked moves to another place. -/
theorem BlockedOk.move {n : Nat} {less : Nat → Nat → Bool} {wake : Nat → Int} {blocked : Heap}
    (ok : BlockedOk n less now wake blocked sp) (leaves : sp p ≠ .blocked) (enters : z ≠ .blocked) :
    BlockedOk n less now wake blocked (Function.update sp p z) := by
  refine ok.congr fun q => ?_
  by_cases hq : q = p
  · subst hq
    simp [leaves, enters]
  · simp [hq]

/-- Popping the blocked heap takes the first process to wake. -/
theorem BlockedOk.pop {n : Nat} {less : Nat → Nat → Bool} {wake : Nat → Int}
    {blocked heap : Heap} (ok : BlockedOk n less now wake blocked sp)
    (total : StrictTotalOn less (· < n)) (inside : ∀ q, sp q = .blocked → q < n)
    (popped : heapPop less blocked = some (p, heap)) (enters : z ≠ .blocked) :
    sp p = .blocked ∧ p = blocked.items 0 ∧
      BlockedOk n less now wake heap (Function.update sp p z) := by
  have nonempty : 0 < blocked.len := by
    by_contra hempty
    simp [heapPop, hempty] at popped
  have members : ∀ q ∈ blocked.toList, q < n := fun q hq => inside q ((ok.mem_iff q).mp hq)
  obtain ⟨h', popped', perm, cap, _⟩ := heapPop_spec less nonempty
  obtain ⟨rfl, rfl⟩ : p = blocked.items 0 ∧ heap = h' := by
    rw [popped] at popped'
    simpa using popped'
  have nodup := List.nodup_cons.mp (perm.nodup_iff.mp ok.nodup)
  have mem : blocked.items 0 ∈ blocked.toList := perm.mem_iff.mpr List.mem_cons_self
  refine ⟨(ok.mem_iff _).mp mem, rfl, cap.trans ok.cap_eq, nodup.2, fun q => ?_,
    heapPop_ordered total ok.ordered members popped, fun q hq => ?_⟩
  · by_cases hq : q = blocked.items 0
    · subst hq
      simp [nodup.1, enters]
    · rw [Function.update_of_ne hq, ← ok.mem_iff, perm.mem_iff, List.mem_cons]
      simp [hq]
  · by_cases h : q = blocked.items 0
    · subst h
      rw [Function.update_self] at hq
      exact absurd hq enters
    · rw [Function.update_of_ne h] at hq
      exact ok.wake_ge q hq

/-- A process enters the blocked heap with its wake time set. -/
theorem BlockedOk.push {n : Nat} {less : (Nat → Int) → Nat → Nat → Bool} {wake : Nat → Int}
    {blocked : Heap} {at_ : Int} (ok : BlockedOk n (less wake) now wake blocked sp)
    (total : ∀ wake, StrictTotalOn (less wake) (· < n))
    (local_ : ∀ wake wake' a b, wake' a = wake a → wake' b = wake b →
      less wake' a b = less wake a b)
    (inside : ∀ q, sp q = .blocked → q < n) (hp : p < n) (leaves : sp p ≠ .blocked)
    (later : now ≤ at_) :
    ∃ heap, heapPush (less (Function.update wake p at_)) blocked p = some heap ∧
      BlockedOk n (less (Function.update wake p at_)) now (Function.update wake p at_) heap
        (Function.update sp p .blocked) := by
  have notMem : p ∉ blocked.toList := fun mem => leaves ((ok.mem_iff p).mp mem)
  have members : ∀ q ∈ blocked.toList, q < n := fun q hq => inside q ((ok.mem_iff q).mp hq)
  have room : blocked.len < blocked.cap := by
    have subset : (p :: blocked.toList) ⊆ List.range n := by
      intro q hq
      rcases List.mem_cons.mp hq with rfl | hq
      · exact List.mem_range.mpr hp
      · exact List.mem_range.mpr (members q hq)
    have := (List.subperm_of_subset (List.nodup_cons.mpr ⟨notMem, ok.nodup⟩) subset).length_le
    rw [ok.cap_eq]
    simpa [Nat.succ_le_iff] using this
  -- the heap is still in order: the only wake time that changed is not in it
  have ordered : HeapOrdered (less (Function.update wake p at_)) blocked.items blocked.len := by
    refine ok.ordered.congr fun i hi j hj => ?_
    have stays : ∀ i < blocked.len, Function.update wake p at_ (blocked.items i) =
        wake (blocked.items i) := by
      intro i hi
      apply Function.update_of_ne
      rintro rfl
      exact notMem (Heap.mem_toList.mpr ⟨i, hi, rfl⟩)
    exact local_ _ _ _ _ (stays i hi) (stays j hj)
  obtain ⟨heap, pushed, perm, cap, _⟩ :=
    heapPush_spec (less (Function.update wake p at_)) p room
  refine ⟨heap, pushed, cap.trans ok.cap_eq,
    perm.nodup_iff.mpr (List.nodup_cons.mpr ⟨notMem, ok.nodup⟩), fun q => ?_,
    heapPush_ordered (total _) ordered members hp pushed, fun q hq => ?_⟩
  · rw [perm.mem_iff, List.mem_cons, ok.mem_iff]
    by_cases hq : q = p
    · subst hq
      simp
    · simp [hq]
  · by_cases h : q = p
    · subst h
      simpa using later
    · rw [Function.update_of_ne h] at hq ⊢
      exact ok.wake_ge q hq

/-- Places off the cores that no slice is held in. -/
def Spot.OffCore : Spot → Prop
  | .core _ _ => False
  | .held _ => False
  | _ => True

theorem Spot.OffCore.ne_core {z : Spot} (h : z.OffCore) (c : Nat) (s : Slice) :
    z ≠ .core c s := by
  rintro rfl
  exact h

theorem Spot.OffCore.ne_held {z : Spot} (h : z.OffCore) (s : Slice) : z ≠ .held s := by
  rintro rfl
  exact h

section Stays

variable {sp : Nat → Spot} {p r : Nat} {z spot : Spot} (off : z.OffCore)
  (kind : (∃ s, spot = .held s) ∨ ∃ c s, spot = .core c s)
  (here : Function.update sp p z r = spot)
include off kind here

/-- Who is held or on a core is not the process that moved elsewhere. -/
theorem Spot.OffCore.other : r ≠ p := by
  rintro rfl
  rw [Function.update_self] at here
  rcases kind with ⟨s, rfl⟩ | ⟨c, s, rfl⟩
  · exact off.ne_held s here
  · exact off.ne_core c s here

/-- Who is held or on a core after a process moved elsewhere was so before. -/
theorem Spot.OffCore.stays : sp r = spot := by
  rwa [Function.update_of_ne (off.other kind here)] at here

end Stays

/-- A process moves between places off the cores. -/
theorem CoresOk.move {whole : Prop} {ncores : Nat} {remaining : Nat → Int} {cores : Nat → Core}
    (ok : CoresOk whole ncores now remaining cores sp) (leaves : (sp p).OffCore)
    (enters : z.OffCore) :
    CoresOk whole ncores now remaining cores (Function.update sp p z) := by
  refine ⟨fun q c s hq => ?_, fun c hc q hq => ?_, ok.free, fun q s hq => ?_⟩
  · exact ok.seat q c s (enters.stays (.inr ⟨c, s, rfl⟩) hq)
  · obtain ⟨s, hs⟩ := ok.owner c hc q hq
    have h : q ≠ p := by
      rintro rfl
      exact leaves.ne_core c s hs
    exact ⟨s, by rw [Function.update_of_ne h, hs]⟩
  · exact ok.held q s (enters.stays (.inl ⟨s, rfl⟩) hq)

/-- A process leaves its core. -/
theorem CoresOk.leave {whole : Prop} {ncores : Nat} {remaining remaining' : Nat → Int}
    {cores : Nat → Core} {c : Nat} {s : Slice}
    (ok : CoresOk whole ncores now remaining cores sp) (seat : sp p = .core c s)
    (runs : (cores c).inCs = false) (enters : z.OffCore)
    (same : ∀ q, q ≠ p → remaining' q = remaining q) :
    CoresOk whole ncores now remaining'
      (Function.update cores c { cores c with proc := none, freeSince := now })
      (Function.update sp p z) := by
  obtain ⟨_, hsp, ok_seat⟩ := ok.seat p c s seat
  have alone : ∀ q c' s', q ≠ p → sp q = .core c' s' → c' ≠ c := by
    rintro q c' s' hq hs rfl
    obtain ⟨_, hs', seat'⟩ := ok.seat q c' s' hs
    have := ok_seat.proc_eq.symm.trans seat'.proc_eq
    simp only [Option.some.injEq] at this
    exact hq (hs'.symm.trans (this.symm.trans hsp))
  refine ⟨fun q c' s' hq => ?_, fun c' hc' q hq => ?_, fun c' hc' hfree => ?_, fun q s' hq => ?_⟩
  · have other := enters.other (.inr ⟨c', s', rfl⟩) hq
    have stays := enters.stays (.inr ⟨c', s', rfl⟩) hq
    rw [Function.update_of_ne (alone q c' s' other stays), same q other]
    exact ok.seat q c' s' stays
  · by_cases h : c' = c
    · subst h
      simp at hq
    · rw [Function.update_of_ne h] at hq
      obtain ⟨s', hs'⟩ := ok.owner c' hc' q hq
      refine ⟨s', ?_⟩
      rw [Function.update_of_ne ?_, hs']
      rintro rfl
      rw [seat] at hs'
      exact h (Spot.core.inj hs').1.symm
  · by_cases h : c' = c
    · subst h
      simp [runs]
    · rw [Function.update_of_ne h] at hfree ⊢
      exact ok.free c' hc' hfree
  · rw [same q (enters.other (.inl ⟨s', rfl⟩) hq)]
    exact ok.held q s' (enters.stays (.inl ⟨s', rfl⟩) hq)

/-- The process on a core stays and the core changes. -/
theorem CoresOk.reseat {whole : Prop} {ncores : Nat} {remaining : Nat → Int}
    {cores : Nat → Core} {c : Nat} {s : Slice} {core : Core}
    (ok : CoresOk whole ncores now remaining cores sp) (seat : sp p = .core c s)
    (fits : SeatOk whole now (remaining p) core s) :
    CoresOk whole ncores now remaining (Function.update cores c core) sp := by
  obtain ⟨_, hsp, ok_seat⟩ := ok.seat p c s seat
  refine ⟨fun q c' s' hq => ?_, fun c' hc' q hq => ?_, fun c' hc' hfree => ?_, ok.held⟩
  · obtain ⟨hc', hs', seat'⟩ := ok.seat q c' s' hq
    by_cases h : c' = c
    · subst h
      have := ok_seat.proc_eq.symm.trans seat'.proc_eq
      simp only [Option.some.injEq] at this
      obtain rfl : q = p := hs'.symm.trans (this.symm.trans hsp)
      obtain ⟨_, rfl⟩ := Spot.core.inj (seat.symm.trans hq)
      rw [Function.update_self]
      exact ⟨hc', hs', fits⟩
    · rw [Function.update_of_ne h]
      exact ⟨hc', hs', seat'⟩
  · by_cases h : c' = c
    · subst h
      rw [Function.update_self, fits.proc_eq, Option.some.injEq] at hq
      exact ⟨s, by rw [← hq, hsp, seat]⟩
    · rw [Function.update_of_ne h] at hq
      exact ok.owner c' hc' q hq
  · by_cases h : c' = c
    · subst h
      rw [Function.update_self, fits.proc_eq] at hfree
      simp at hfree
    · rw [Function.update_of_ne h] at hfree ⊢
      exact ok.free c' hc' hfree

/-- A process whose slice is held enters a free core. -/
theorem CoresOk.enter {whole : Prop} {ncores : Nat} {remaining : Nat → Int}
    {cores : Nat → Core} {c : Nat} {s : Slice} {core : Core}
    (ok : CoresOk whole ncores now remaining cores sp) (held : sp s.proc = .held s)
    (hc : c < ncores) (free : (cores c).proc = none)
    (fits : SeatOk whole now (remaining s.proc) core s) :
    CoresOk whole ncores now remaining (Function.update cores c core)
      (Function.update sp s.proc (.core c s)) := by
  have alone : ∀ q c' s', sp q = .core c' s' → c' ≠ c := by
    rintro q c' s' hs rfl
    have := (ok.seat q c' s' hs).2.2.proc_eq
    rw [free] at this
    cases this
  refine ⟨fun q c' s' hq => ?_, fun c' hc' q hq => ?_, fun c' hc' hfree => ?_, fun q s' hq => ?_⟩
  · by_cases h : q = s.proc
    · subst h
      rw [Function.update_self] at hq
      obtain ⟨rfl, rfl⟩ := Spot.core.inj hq
      rw [Function.update_self]
      exact ⟨hc, rfl, fits⟩
    · rw [Function.update_of_ne h] at hq
      rw [Function.update_of_ne (alone q c' s' hq)]
      exact ok.seat q c' s' hq
  · by_cases h : c' = c
    · subst h
      rw [Function.update_self, fits.proc_eq, Option.some.injEq] at hq
      subst hq
      exact ⟨s, Function.update_self ..⟩
    · rw [Function.update_of_ne h] at hq
      obtain ⟨s', hs'⟩ := ok.owner c' hc' q hq
      refine ⟨s', ?_⟩
      rw [Function.update_of_ne ?_, hs']
      rintro rfl
      rw [held] at hs'
      cases hs'
  · by_cases h : c' = c
    · subst h
      rw [Function.update_self, fits.proc_eq] at hfree
      simp at hfree
    · rw [Function.update_of_ne h] at hfree ⊢
      exact ok.free c' hc' hfree
  · by_cases h : q = s.proc
    · subst h
      rw [Function.update_self] at hq
      cases hq
    · rw [Function.update_of_ne h] at hq
      exact ok.held q s' hq

/-- A ready process is picked. -/
theorem CoresOk.hold {whole : Prop} {ncores : Nat} {remaining : Nat → Int}
    {cores : Nat → Core} {s : Slice} (ok : CoresOk whole ncores now remaining cores sp)
    (leaves : (sp s.proc).OffCore) (fits : SliceOk whole now (remaining s.proc) s) :
    CoresOk whole ncores now remaining cores (Function.update sp s.proc (.held s)) := by
  refine ⟨fun q c' s' hq => ?_, fun c' hc' q hq => ?_, ok.free, fun q s' hq => ?_⟩
  · by_cases h : q = s.proc
    · subst h
      rw [Function.update_self] at hq
      cases hq
    · rw [Function.update_of_ne h] at hq
      exact ok.seat q c' s' hq
  · obtain ⟨s', hs'⟩ := ok.owner c' hc' q hq
    refine ⟨s', ?_⟩
    rw [Function.update_of_ne ?_, hs']
    rintro rfl
    exact leaves.ne_core c' s' hs'
  · by_cases h : q = s.proc
    · subst h
      rw [Function.update_self] at hq
      obtain rfl := Spot.held.inj hq
      exact ⟨rfl, fits⟩
    · rw [Function.update_of_ne h] at hq
      exact ok.held q s' hq

/-- The progress data of the other processes stays. -/
theorem DataOk.move {phase phase' : Nat → Nat} {burstLen burstLen' remaining remaining' : Nat → Int}
    (ok : DataOk w phase burstLen remaining sp)
    (same : ∀ q < w.len, q ≠ p →
      phase' q = phase q ∧ burstLen' q = burstLen q ∧ remaining' q = remaining q)
    (progress : p < w.len → z ≠ .done →
      ProgressOk (w.proc p) (phase' p) (burstLen' p) (remaining' p))
    (fresh : p < w.len → z = .new ∨ z = .blocked → remaining' p = burstLen' p) :
    DataOk w phase' burstLen' remaining' (Function.update sp p z) := by
  constructor
  · intro q hq live
    by_cases h : q = p
    · subst h
      rw [Function.update_self] at live
      exact progress hq live
    · rw [Function.update_of_ne h] at live
      obtain ⟨hphase, hburst, hrem⟩ := same q hq h
      rw [hphase, hburst, hrem]
      exact ok.progress q hq live
  · intro q hq waiting
    by_cases h : q = p
    · subst h
      rw [Function.update_self] at waiting
      exact fresh hq waiting
    · rw [Function.update_of_ne h] at waiting
      obtain ⟨_, hburst, hrem⟩ := same q hq h
      rw [hburst, hrem]
      exact ok.fresh q hq waiting

theorem doneSet_move {n : Nat} (leaves : sp p ≠ .done) (enters : z ≠ .done) :
    doneSet n (Function.update sp p z) = doneSet n sp := by
  unfold doneSet
  apply Finset.filter_congr
  intro q _
  by_cases hq : q = p
  · subst hq
    simp [leaves, enters]
  · simp [hq]

theorem card_doneSet_complete {n : Nat} (hp : p < n) (leaves : sp p ≠ .done) :
    (doneSet n (Function.update sp p .done)).card = (doneSet n sp).card + 1 := by
  have : doneSet n (Function.update sp p .done) = insert p (doneSet n sp) := by
    ext q
    by_cases hq : q = p
    · subst hq
      simp [doneSet, hp]
    · simp [doneSet, hq]
  rw [this, Finset.card_insert_of_notMem]
  simp [doneSet, leaves]

end Frames

end CpuSched
