import CpuSched.Engine.Uninterrupted
import CpuSched.Reference.Mirror
import Mathlib.Data.List.Find

/-!
# One instant in step

At an event the engine and the tick loop handle the same processes in the same order:
arrivals and wake-ups by pid, slices and switch-ins by core, picks in the order of the
policy, and placements core by core.
-/

namespace CpuSched

namespace Sim

variable {D : Type} {S : Sim D}

/-! ## Orders by pid -/

theorem mem_sortedPids {cond : Nat → Bool} {p : Nat} :
    p ∈ S.sortedPids cond ↔ p < S.w.len ∧ cond p = true := by
  rw [sortedPids, List.mem_insertionSort, List.mem_filter, List.mem_range]

theorem sortedPids_sorted (valid : S.w.Valid) (cond : Nat → Bool) :
    (S.sortedPids cond).Pairwise fun p q => (S.w.proc p).pid < (S.w.proc q).pid := by
  let le : Nat → Nat → Prop := fun p q => (S.w.proc p).pid ≤ (S.w.proc q).pid
  have total : Std.Total le := ⟨fun p q => le_total _ _⟩
  have transitive : IsTrans Nat le := ⟨fun _ _ _ => le_trans⟩
  have weak : (S.sortedPids cond).Pairwise le :=
    List.pairwise_insertionSort le ((List.range S.w.len).filter cond)
  have distinct : (S.sortedPids cond).Nodup :=
    (List.perm_insertionSort _ _).nodup_iff.mpr (List.nodup_range.filter _)
  refine (weak.and distinct).imp_of_mem fun {p q} hp hq => ?_
  rintro ⟨before, ne⟩
  have before : (S.w.proc p).pid ≤ (S.w.proc q).pid := before
  have pid_ne : (S.w.proc p).pid ≠ (S.w.proc q).pid := fun same =>
    ne (valid.pid_injective (mem_sortedPids.mp hp).1 (mem_sortedPids.mp hq).1 same)
  omega

/-- The list of the processes that meet a condition, by pid. -/
theorem sortedPids_eq (valid : S.w.Valid) {cond : Nat → Bool} {l : List Nat}
    (mem_iff : ∀ p, p ∈ l ↔ p < S.w.len ∧ cond p = true)
    (sorted : l.Pairwise fun p q => (S.w.proc p).pid < (S.w.proc q).pid) :
    S.sortedPids cond = l := by
  have sorted' := sortedPids_sorted valid cond
  have nodup : ∀ {l : List Nat}, (l.Pairwise fun p q => (S.w.proc p).pid < (S.w.proc q).pid) →
      l.Nodup := fun sorted => sorted.imp fun lt same => by
    rw [same] at lt
    exact lt_irrefl _ lt
  have perm : (S.sortedPids cond).Perm l := by
    rw [List.perm_ext_iff_of_nodup (nodup sorted') (nodup sorted)]
    intro p
    rw [mem_sortedPids, mem_iff]
  exact perm.eq_of_pairwise (fun p q _ _ lt gt => absurd gt lt.asymm) sorted' sorted

theorem sortedPids_nil {cond : Nat → Bool} (none : ∀ p < S.w.len, cond p = false) :
    S.sortedPids cond = [] := by
  rw [List.eq_nil_iff_forall_not_mem]
  intro p mem
  obtain ⟨hp, h⟩ := mem_sortedPids.mp mem
  simp [none p hp] at h

/-! ## The arrival order -/

/-- A sorted list splits at `t`. -/
theorem splitArrivals {l : List ArrivalKey} (sorted : l.Pairwise fun a b => a.arrival ≤ b.arrival)
    (t : Int) : (l.takeWhile fun key => key.arrival ≤ t) = l.filter (fun key => key.arrival ≤ t) ∧
      (l.dropWhile fun key => key.arrival ≤ t) = l.filter fun key => t + 1 ≤ key.arrival := by
  induction l with
  | nil => exact ⟨rfl, rfl⟩
  | cons key rest ih =>
      obtain ⟨first, sorted⟩ := List.pairwise_cons.mp sorted
      obtain ⟨take, drop⟩ := ih sorted
      by_cases due : key.arrival ≤ t
      · have early : ¬ t + 1 ≤ key.arrival := by omega
        simp only [List.takeWhile_cons, List.dropWhile_cons, List.filter_cons, due,
          early, decide_true,
          decide_false, Bool.false_eq_true, if_true, if_false, take, drop, and_self]
      · have late : t + 1 ≤ key.arrival := by omega
        have later : ∀ key' ∈ rest, t < key'.arrival := fun key' mem => by
          have := first key' mem
          omega
        simp only [due, late, decide_false, decide_true, Bool.false_eq_true, not_false_eq_true,
          List.takeWhile_cons_of_neg, List.filter_cons_of_neg, List.dropWhile_cons_of_neg,
          List.filter_cons_of_pos]
        constructor
        · rw [eq_comm, List.filter_eq_nil_iff]
          intro key' mem
          simpa using later key' mem
        · rw [List.filter_eq_self.mpr fun key' mem => ?_]
          have := later key' mem
          simp only [decide_eq_true_eq]
          omega

/-- Where no key is earlier than `t` and none at `t` is missing, the keys that are due at `t`
are those of the arrivals at `t`, by pid. -/
theorem due_eq_sortedPids (valid : S.w.Valid) {t : Int} {keys : List ArrivalKey}
    (sorted : keys.Pairwise fun a b =>
      a.arrival < b.arrival ∨ (a.arrival = b.arrival ∧ a.pid < b.pid))
    (own : ∀ key ∈ keys, key ∈ S.order) (late : ∀ key ∈ keys, t ≤ key.arrival)
    (all : ∀ p < S.w.len, (S.w.proc p).arrival = t → p ∈ keys.map ArrivalKey.index) :
    (keys.takeWhile fun key => key.arrival ≤ t).map ArrivalKey.index =
      S.sortedPids fun p => decide ((S.w.proc p).arrival = t) := by
  have due : ∀ key ∈ keys.filter (fun key => key.arrival ≤ t),
      key ∈ S.order ∧ key.arrival = t := by
    intro key mem
    obtain ⟨mem, le⟩ := List.mem_filter.mp mem
    exact ⟨own key mem, le_antisymm (by simpa using le) (late key mem)⟩
  rw [(splitArrivals (sorted.imp fun h => by omega) t).1]
  refine (sortedPids_eq valid (fun p => ?_) ?_).symm
  · rw [List.mem_map, decide_eq_true_eq]
    constructor
    · rintro ⟨key, mem, rfl⟩
      obtain ⟨mem, at_⟩ := due key mem
      obtain ⟨hi, harrival, -⟩ := S.mem_order.mp mem
      exact ⟨hi, harrival.symm.trans at_⟩
    · rintro ⟨hp, at_⟩
      obtain ⟨key, mem, rfl⟩ := List.mem_map.mp (all p hp at_)
      refine ⟨key, List.mem_filter.mpr ⟨mem, ?_⟩, rfl⟩
      rw [decide_eq_true_eq, (S.mem_order.mp (own key mem)).2.1]
      exact at_.le
  · rw [List.pairwise_map]
    refine (sorted.sublist List.filter_sublist).imp_of_mem fun {a b} ha hb before => ?_
    obtain ⟨mem, at_⟩ := due a ha
    obtain ⟨mem', at'⟩ := due b hb
    rw [← (S.mem_order.mp mem).2.2, ← (S.mem_order.mp mem').2.2]
    omega

/-- The processes that have not arrived before `t`. -/
def waiting (S : Sim D) (t : Int) : List ArrivalKey := S.order.filter fun key => t ≤ key.arrival

theorem waiting_sorted (valid : S.w.Valid) (t : Int) :
    (waiting S t).Pairwise fun a b => a.arrival ≤ b.arrival :=
  ((S.order_sorted valid).sublist List.filter_sublist).imp fun h => by omega

/-- After the arrivals at `t`. -/
theorem waiting_dropWhile (valid : S.w.Valid) (t : Int) :
    ((waiting S t).dropWhile fun key => key.arrival ≤ t) = waiting S (t + 1) := by
  rw [(splitArrivals (waiting_sorted valid t) t).2, waiting, List.filter_filter]
  refine List.filter_congr fun key _ => ?_
  rw [← Bool.decide_and, decide_eq_decide]
  omega

/-- The arrivals at `t`. -/
theorem waiting_takeWhile (valid : S.w.Valid) (t : Int) :
    ((waiting S t).takeWhile fun key => key.arrival ≤ t).map ArrivalKey.index =
      S.sortedPids fun p => decide ((S.w.proc p).arrival = t) := by
  refine due_eq_sortedPids valid ((S.order_sorted valid).sublist List.filter_sublist)
    (fun key mem => (List.mem_filter.mp mem).1) (fun key mem => ?_) fun p hp at_ => ?_
  · simpa using (List.mem_filter.mp mem).2
  · have mem : (⟨(S.w.proc p).arrival, (S.w.proc p).pid, p⟩ : ArrivalKey) ∈ S.order :=
      S.mem_order.mpr ⟨hp, rfl, rfl⟩
    refine List.mem_map.mpr ⟨_, List.mem_filter.mpr ⟨mem, ?_⟩, rfl⟩
    simpa using at_.ge

/-! ## In step -/

/-- The engine and the tick loop are at the same time and have the rest in common. -/
structure Synced (S : Sim D) (e : S.Eng) (r : S.Ref) : Prop where
  mirrors : Mirrors S e (fun _ => r.t) r
  t_eq : r.t = e.now

variable [Double D] {PInv : SchedView D → S.policy.State → Places → Prop} {budget : Int}

omit [Double D] in
/-- Nothing to do in step 2. -/
theorem Synced.refWakes_of {e : S.Eng} {r : S.Ref} (synced : Synced S e r)
    (later : ∀ q ∈ e.blocked.toList, e.now < e.wake q) : S.refWakes r = some r := by
  have t_eq := synced.t_eq
  rw [refWakes, sortedPids_nil fun q _ => ?_]
  · rfl
  · rw [decide_eq_false_iff_not, synced.mirrors.wake]
    split_ifs with mem
    · have := later q mem
      simp only [Option.some.injEq]
      omega
    · simp

omit [Double D] in
/-- The root of the blocked heap is the first process to wake. -/
theorem Synced.sortedPids_wake (valid : S.w.Valid) {e : S.Eng} {sp : Nat → Spot} {r : S.Ref}
    (synced : Synced S e r) (sound : S.Sound PInv budget ⟨e, sp⟩)
      (nonempty : e.blocked.isEmpty = false)
    (due : e.wake (e.blocked.items 0) ≤ e.now) :
    S.sortedPids (fun p => decide (r.wake p = some r.t)) = e.blocked.items 0 ::
      S.sortedPids fun p =>
        decide (Function.update r.wake (e.blocked.items 0) none p = some r.t) := by
  have t_eq := synced.t_eq
  have inBlocked : ∀ q, q ∈ e.blocked.toList ↔ sp q = .blocked := sound.blocked.mem_iff
  have inside : ∀ q ∈ e.blocked.toList, q < S.w.len := fun q mem => sound.inside fun new => by
    cases ((inBlocked q).mp mem).symm.trans new
  have root : e.blocked.items 0 ∈ e.blocked.toList :=
    Heap.mem_toList.mpr ⟨0, Heap.isEmpty_eq_false_iff.mp nonempty, rfl⟩
  have wake_ge : ∀ q ∈ e.blocked.toList, e.now ≤ e.wake q := fun q mem =>
    sound.blocked.wake_ge q ((inBlocked q).mp mem)
  have now_eq := wake_ge _ root
  have wakes : ∀ q, r.wake q = some r.t ↔ q ∈ e.blocked.toList ∧ e.wake q = e.now := by
    intro q
    rw [synced.mirrors.wake, t_eq]
    split_ifs with mem <;> simp [mem]
  refine sortedPids_eq valid (fun q => ?_) (List.pairwise_cons.mpr ⟨fun q mem => ?_,
    sortedPids_sorted valid _⟩)
  · rw [List.mem_cons, mem_sortedPids, decide_eq_true_eq, decide_eq_true_eq]
    by_cases hq : q = e.blocked.items 0
    · subst hq
      simp only [true_or, true_iff]
      exact ⟨inside _ root, (wakes _).mpr ⟨root, by omega⟩⟩
    · simp [hq]
  · obtain ⟨hq, due'⟩ := mem_sortedPids.mp mem
    rw [decide_eq_true_eq] at due'
    by_cases same : q = e.blocked.items 0
    · simp [same] at due'
    · rw [Function.update_of_ne same, wakes] at due'
      have less := Heap.root_least (blockedLess_total valid e.wake) sound.blocked.ordered inside q
        due'.1 same
      have wake_eq : e.wake (e.blocked.items 0) = e.wake q := by omega
      simpa [blockedLess, wake_eq] using less

/-! ## Arrivals wait for `admit_arrivals` -/

omit [Double D] in
theorem hook_pending {e e' : S.Eng} {f : SchedView D → S.policy.State → Option S.policy.State}
    (run : S.hook e f = some e') : e'.pending = e.pending := by
  obtain ⟨state, -, rfl⟩ := Option.map_eq_some_iff.mp run
  rfl

omit [Double D] in
theorem optHook_pending {e e' : S.Eng}
    {f : Option (SchedView D → S.policy.State → Nat → Int → Option S.policy.State)} {p : Nat}
    {ran : Int} (run : S.optHook e f p ran = some e') : e'.pending = e.pending := by
  cases f with
  | none =>
      obtain rfl := Option.some.inj run
      rfl
  | some f => exact hook_pending (f := fun v state => f v state p ran) run

theorem endRun_pending {e e' : S.Eng} {c : Nat} {requeued : Bool}
    (run : S.endRun e c = some (e', requeued)) : e'.pending = e.pending := by
  unfold endRun at run
  cases on : (e.cores c).proc with
  | none => simp [on] at run
  | some p =>
      simp only [on] at run
      split_ifs at run with used
      · obtain ⟨e₁, finished, last⟩ := Option.map_eq_some_iff.mp run
        obtain ⟨rfl, -⟩ : e₁ = e' ∧ _ := by simpa using last
        unfold burstDone at finished
        dsimp only at finished
        split_ifs at finished
        · rw [optHook_pending finished]
          simp [finishProcess]
        · obtain ⟨heap, -, blocked⟩ := Option.bind_eq_some_iff.mp finished
          rw [optHook_pending blocked]
          simp [startIo]
      · cases hook : S.policy.onPreempt with
        | none => simp [hook] at run
        | some f =>
            simp only [hook] at run
            obtain ⟨e₁, called, last⟩ := Option.map_eq_some_iff.mp run
            obtain ⟨rfl, -⟩ : e₁ = e' ∧ _ := by simpa using last
            rw [hook_pending called, chargeRun_pending]

/-- A run that has not failed had not failed before. -/
theorem Moves.ok {a b : S.Config} (valid : S.w.Valid) (hcs : 0 ≤ S.opt.csCost)
    (contract : Contract S.w S.policy PInv) (moves : S.Moves a b) (sound : S.Sound PInv budget a)
    (ok : b.eng.fail = .ok) : a.eng.fail = .ok := by
  induction moves with
  | refl => exact ok
  | tail before move ih =>
      exact ih (move.effect valid hcs (Moves.sound valid hcs contract before sound) ok).1

section Loops

variable (valid : S.w.Valid) (hcs : 0 ≤ S.opt.csCost) (contract : Contract S.w S.policy PInv)
  (calm : Calm S.w S.policy PInv)
include valid hcs contract calm

/-- `admit_arrivals` and step 1. -/
theorem Synced.admitArrivals (pending : List ArrivalKey) {e e' : S.Eng}
    {sp : Nat → Spot} {r : S.Ref}
    {any : Bool} (sound : S.Sound PInv budget ⟨e, sp⟩) (synced : Synced S e r)
    (pending_eq : e.pending = pending) (run : S.admitArrivals pending e = some (e', any)) :
    ∃ sp' r', ((pending.takeWhile fun key => key.arrival ≤ e.now).map ArrivalKey.index).foldlM
        (fun r p => S.refHook r fun v state => S.policy.onArrival v state p) r = some r' ∧
      Synced S e' r' ∧ r'.t = r.t ∧ S.Moves ⟨e, sp⟩ ⟨e', sp'⟩ ∧
      e'.pending = pending.dropWhile fun key => key.arrival ≤ e.now := by
  induction pending generalizing e sp r any with
  | nil =>
      simp only [Sim.admitArrivals, Option.some.injEq, Prod.mk.injEq] at run
      obtain ⟨rfl, -⟩ := run
      exact ⟨sp, r, rfl, synced, rfl, .refl, pending_eq⟩
  | cons key rest ih =>
      by_cases due : key.arrival ≤ e.now
      · simp only [Sim.admitArrivals, due, if_true, Option.bind_eq_bind, Option.bind_eq_some_iff]
          at run
        obtain ⟨e₁, hook, ⟨e₂, any'⟩, run, last⟩ := run
        obtain ⟨rfl, -⟩ : e₂ = e' ∧ _ := by simpa using last
        obtain ⟨state, called, rfl⟩ := Option.map_eq_some_iff.mp hook
        have called : S.policy.onArrival (S.view e) e.state key.index = some state := called
        obtain ⟨hp, new⟩ : key.index < S.w.len ∧ sp key.index = .new :=
          (sound.pending.mem_iff key.index).mp (by simp [pending_eq])
        have move : S.Move ⟨e, sp⟩ ⟨{ e with state, pending := rest },
            Function.update sp key.index .ready⟩ := .arrive pending_eq due called
        have same := calm.arrival sound.policy (sound.viewOk rfl fun _ _ => rfl)
          (synced.mirrors.shadow_of_sound synced.t_eq sound) (places_eq_new.mpr new)
        have hook' : S.refHook r (fun v state => S.policy.onArrival v state key.index) =
            some { r with state } := by
          rw [refHook, synced.mirrors.state, same, called]
          rfl
        have mirrors := synced.mirrors.withState state
        obtain ⟨sp', r', run', synced', t_eq, moves, left⟩ :=
          ih (move.sound valid hcs contract sound)
          (r := { r with state })
          ⟨⟨mirrors.state, mirrors.phase, mirrors.burstLen, mirrors.predicted, mirrors.wake,
            mirrors.done, mirrors.completion, mirrors.switches, mirrors.csTime, mirrors.clocks,
            mirrors.lanes⟩, synced.t_eq⟩ rfl run
        refine ⟨sp', r', ?_, synced', t_eq, .head move moves, ?_⟩
        · rw [List.takeWhile_cons_of_pos (by simpa using due), List.map_cons,
            List.foldlM_cons, hook']
          exact run'
        · rw [List.dropWhile_cons_of_pos (by simpa using due)]
          exact left
      · simp only [Sim.admitArrivals, due, if_false, Option.some.injEq, Prod.mk.injEq] at run
        obtain ⟨rfl, -⟩ := run
        refine ⟨sp, r, ?_, synced, rfl, .refl, ?_⟩
        · rw [List.takeWhile_cons_of_neg (by simpa using due)]
          rfl
        · rw [List.dropWhile_cons_of_neg (by simpa using due), pending_eq]

/-- `wake_blocked` and step 2. -/
theorem Synced.wakeBlocked (fuel : Nat) {e e' : S.Eng} {sp : Nat → Spot} {r : S.Ref}
    {any : Bool} (sound : S.Sound PInv budget ⟨e, sp⟩) (synced : Synced S e r)
    (enough : e.blocked.len ≤ fuel) (run : S.wakeBlocked fuel e = some (e', any)) :
    ∃ sp' r', S.refWakes r = some r' ∧ Synced S e' r' ∧ r'.t = r.t ∧
      S.Moves ⟨e, sp⟩ ⟨e', sp'⟩ ∧ e'.pending = e.pending := by
  induction fuel generalizing e sp r any with
  | zero =>
      simp only [Sim.wakeBlocked, Option.some.injEq, Prod.mk.injEq] at run
      obtain ⟨rfl, -⟩ := run
      refine ⟨sp, r, synced.refWakes_of fun q mem => ?_, synced, rfl, .refl, rfl⟩
      obtain ⟨i, hi, -⟩ := Heap.mem_toList.mp mem
      omega
  | succ fuel ih =>
      by_cases due : e.blocked.isEmpty = false ∧ e.wake (e.blocked.items 0) ≤ e.now
      · obtain ⟨heap, popped, -, -, len_eq⟩ := heapPop_spec (S.blockedLess e.wake)
          (Heap.isEmpty_eq_false_iff.mp due.1)
        simp only [Sim.wakeBlocked, if_pos due, popped, Option.bind_eq_bind, Option.bind_some,
          Option.bind_eq_some_iff] at run
        obtain ⟨e₁, hook, ⟨e₂, any'⟩, run, last⟩ := run
        obtain ⟨rfl, -⟩ : e₂ = e' ∧ _ := by simpa using last
        obtain ⟨state, called, rfl⟩ := Option.map_eq_some_iff.mp hook
        have called : S.policy.wakeHook (S.view e) e.state (e.blocked.items 0) =
          some state := called
        obtain ⟨blocked, -, -⟩ : sp (e.blocked.items 0) = .blocked ∧ _ ∧ _ :=
          sound.blocked.pop (blockedLess_total valid e.wake)
            (fun _ hq => sound.inside fun new => by cases hq.symm.trans new) popped
            (z := .ready) (by simp)
        have move : S.Move ⟨e, sp⟩ ⟨{ e with state, blocked := heap },
            Function.update sp (e.blocked.items 0) .ready⟩ := .wake popped due.2 called
        have sound' := move.sound valid hcs contract sound
        have same := calm.wake sound.policy (sound.viewOk rfl fun _ _ => rfl)
          (synced.mirrors.shadow_of_sound synced.t_eq sound) (places_eq_blocked.mpr blocked)
        have mirrors := synced.mirrors.woken sound sound'
        have hook' : S.refWake r (e.blocked.items 0) = some { r with
            wake := Function.update r.wake (e.blocked.items 0) none, state } := by
          have called' : S.policy.wakeHook (S.refView r) r.state (e.blocked.items 0) =
            some state := by
            rw [synced.mirrors.state]
            exact same.trans called
          change (S.policy.wakeHook (S.refView r) r.state (e.blocked.items 0)).map _ = _
          rw [called']
          rfl
        obtain ⟨sp', r', run', synced', t_eq', moves, left⟩ := ih sound'
          (r := { r with wake := Function.update r.wake (e.blocked.items 0) none, state })
          ⟨mirrors, synced.t_eq⟩ (by simp only; omega) run
        have first := synced.sortedPids_wake valid sound due.1 due.2
        refine ⟨sp', r', ?_, synced', t_eq', .head move moves, left⟩
        rw [refWakes, first, List.foldlM_cons, hook']
        exact run'
      · simp only [Sim.wakeBlocked, if_neg due, Option.some.injEq, Prod.mk.injEq] at run
        obtain ⟨rfl, -⟩ := run
        refine ⟨sp, r, synced.refWakes_of fun q mem => ?_, synced, rfl, .refl, rfl⟩
        obtain ⟨nonempty, first⟩ := sound.wake_first valid ((sound.blocked.mem_iff q).mp mem)
        by_contra h
        exact due ⟨nonempty, by simp only at first; omega⟩

/-- The slices that ran their full length, and step 3. -/
theorem Synced.endFinished (cs : List Nat) (inside : ∀ c ∈ cs, c < S.opt.cores) {e e' : S.Eng}
    {sp : Nat → Spot} {r : S.Ref} {any : Bool} (sound : S.Sound PInv budget ⟨e, sp⟩)
    (synced : Synced S e r) (run : S.endFinished cs e = some (e', any)) (ok : e'.fail = .ok) :
    ∃ sp' r', cs.foldlM S.refFinish r = some r' ∧ Synced S e' r' ∧ r'.t = r.t ∧
      S.Moves ⟨e, sp⟩ ⟨e', sp'⟩ ∧ e'.pending = e.pending := by
  induction cs generalizing e sp r any with
  | nil =>
      simp only [Sim.endFinished, Option.some.injEq, Prod.mk.injEq] at run
      obtain ⟨rfl, -⟩ := run
      exact ⟨sp, r, rfl, synced, rfl, .refl, rfl⟩
  | cons c rest ih =>
      simp only [List.mem_cons, forall_eq_or_imp] at inside
      have lane := synced.mirrors.lanes c inside.1
      rw [List.foldlM_cons]
      by_cases elapsed : (e.cores c).proc ≠ none ∧ (e.cores c).inCs = false ∧
          (e.cores c).runEnd = e.now
      · obtain ⟨p, on_core⟩ := Option.ne_none_iff_exists'.mp elapsed.1
        obtain ⟨s, seat⟩ : ∃ s, sp p = .core c s := sound.cores.owner c inside.1 p on_core
        have ok_seat : SeatOk _ e.now (e.remaining p) (e.cores c) s :=
          (sound.cores.seat p c s seat).2.2
        obtain ⟨ran, handed⟩ := sound.elapsed seat elapsed.2.1 elapsed.2.2
        simp only [Sim.endFinished, if_pos elapsed, Option.bind_eq_bind, Option.bind_eq_some_iff]
          at run
        obtain ⟨⟨e₁, requeued⟩, ended, ⟨e₂, more⟩, run, last⟩ := run
        obtain ⟨rfl, -⟩ : e₂ = e' ∧ _ := by simpa using last
        obtain ⟨e₁', z, requeued', ended', -, event⟩ := endRun_spec valid contract sound seat
          elapsed.2.1 ran handed
        obtain ⟨rfl, rfl⟩ : e₁' = e₁ ∧ requeued' = requeued := by
          simpa using ended'.symm.trans ended
        have sound₁ := event.1.sound valid hcs contract sound
        obtain ⟨e₂', sp₂, more', run', events, -⟩ :=
          endFinished_spec valid hcs contract rest inside.2 sound₁
        obtain ⟨rfl, -⟩ : e₂' = e₂ ∧ more' = more := by simpa using run'.symm.trans run
        have ok₁ := Moves.ok valid hcs contract events.moves sound₁ ok
        obtain ⟨r₁, ended_ref, mirrors₁, t_eq₁⟩ := synced.mirrors.endRun valid contract calm
          synced.t_eq sound seat elapsed.2.1 ran synced.t_eq ended ok₁
        have ends : (r.cores c).proc ≠ none ∧ (r.cores c).inCs = false ∧ (r.cores c).left = 0 := by
          have on : (e.cores c).proc ≠ none := elapsed.1
          have left := (lane.running on elapsed.2.1).1
          have t_eq := synced.t_eq
          exact ⟨lane.proc_eq ▸ on, (lane.on on).1.trans elapsed.2.1, by omega⟩
        have now_eq : e₁'.now = e.now := event.1.now_eq
        obtain ⟨sp', r', run_ref, synced', t_eq', moves, pending_eq⟩ := ih inside.2 sound₁
          (r := r₁) ⟨t_eq₁ ▸ mirrors₁, by rw [t_eq₁, now_eq]; exact synced.t_eq⟩ run
        refine ⟨sp', r', ?_, synced', t_eq'.trans t_eq₁, .head event.1 moves,
          pending_eq.trans (endRun_pending ended)⟩
        simp only [refFinish, if_pos ends, ended_ref, Option.bind_eq_bind, Option.bind_some]
        exact run_ref
      · have stays : ¬ ((r.cores c).proc ≠ none ∧ (r.cores c).inCs = false ∧
          (r.cores c).left = 0) := by
          rintro ⟨on, runs, left⟩
          rw [lane.proc_eq] at on
          rw [(lane.on on).1] at runs
          have := (lane.running on runs).1
          have := synced.t_eq
          exact elapsed ⟨on, runs, by omega⟩
        simp only [Sim.endFinished, if_neg elapsed] at run
        simp only [refFinish, if_neg stays, Option.bind_eq_bind, Option.bind_some]
        exact ih inside.2 sound synced run

omit calm in
/-- The switch-ins that finished, and step 4. -/
theorem Synced.finishSwitches (cs : List Nat) (inside : ∀ c ∈ cs, c < S.opt.cores) {e : S.Eng}
    {sp : Nat → Spot} {r : S.Ref} (sound : S.Sound PInv budget ⟨e, sp⟩) (synced : Synced S e r) :
    ∃ r', cs.foldlM S.refFinishSwitch r = some r' ∧ Synced S (cs.foldl S.finishSwitch e) r' ∧
      r'.t = r.t ∧ S.Moves ⟨e, sp⟩ ⟨cs.foldl S.finishSwitch e, sp⟩ ∧
      (cs.foldl S.finishSwitch e).pending = e.pending := by
  induction cs generalizing e r with
  | nil => exact ⟨r, rfl, synced, rfl, .refl, rfl⟩
  | cons c rest ih =>
      simp only [List.mem_cons, forall_eq_or_imp] at inside
      have lane := synced.mirrors.lanes c inside.1
      have t_eq := synced.t_eq
      rw [List.foldlM_cons, List.foldl_cons]
      by_cases elapsed : (e.cores c).proc ≠ none ∧ (e.cores c).inCs = true ∧
          (e.cores c).busyUntil = e.now
      · obtain ⟨p, on_core⟩ := Option.ne_none_iff_exists'.mp elapsed.1
        obtain ⟨s, seat⟩ : ∃ s, sp p = .core c s := sound.cores.owner c inside.1 p on_core
        obtain ⟨inCs_eq, -, undated, quiet⟩ := lane.on elapsed.1
        -- the tick that is left of the burst is before the end of time
        have early : e.now < int64Max := by
          have := sound.switching_fits valid seat elapsed.2.1
          omega
        have eq : S.finishSwitch e c = S.startRun e c p (e.cores c).deadline := by
          have fresh : ¬ ((e.cores c).recheck = true ∨ (e.cores c).deadline ≤ e.now) := by
            rw [undated, quiet]
            simpa [schedNoDeadline] using early
          rw [startRun, setCore_self]
          simp only [finishSwitch, on_core, elapsed.2.1, elapsed.2.2, if_neg fresh]
          simp
        have move : S.Move ⟨e, sp⟩ ⟨S.startRun e c p (e.cores c).deadline, sp⟩ :=
          .start seat elapsed.2.1 elapsed.2.2 (.inl ⟨rfl, by rw [undated]; exact early, quiet⟩)
        have sound₁ := move.sound valid hcs contract sound
        obtain ⟨r₁, started, mirrors₁, t_eq₁⟩ := synced.mirrors.startRun valid sound seat
          elapsed.2.1 elapsed.2.2 t_eq
        have now_eq : (S.startRun e c p (e.cores c).deadline).now = e.now := move.now_eq
        have ends : (r.cores c).proc ≠ none ∧ (r.cores c).inCs = true ∧ (r.cores c).left = 0 := by
          have left := lane.switching elapsed.1 elapsed.2.1
          exact ⟨lane.proc_eq ▸ elapsed.1, inCs_eq.trans elapsed.2.1, by omega⟩
        rw [eq]
        obtain ⟨r', run, synced', t_eq', moves, pending_eq⟩ := ih inside.2 sound₁
          (r := r₁) ⟨t_eq₁ ▸ mirrors₁, by rw [t_eq₁, now_eq]; exact t_eq⟩
        refine ⟨r', ?_, synced', t_eq'.trans t_eq₁, .head move moves, pending_eq.trans ?_⟩
        · simp only [refFinishSwitch, if_pos ends, started, Option.bind_eq_bind, Option.bind_some]
          exact run
        · rw [sound.startRun_eq valid seat elapsed.2.1]
      · have stays : ¬ ((r.cores c).proc ≠ none ∧ (r.cores c).inCs = true ∧
          (r.cores c).left = 0) := by
          rintro ⟨on, switching, left⟩
          rw [lane.proc_eq] at on
          rw [(lane.on on).1] at switching
          have := lane.switching on switching
          exact elapsed ⟨on, switching, by omega⟩
        rw [finishSwitch_of_going elapsed]
        simp only [refFinishSwitch, if_neg stays, Option.bind_eq_bind, Option.bind_some]
        exact ih inside.2 sound synced

/-- `process_instant` and steps 1 to 5. -/
theorem Synced.processInstant {e e' : S.Eng} {sp : Nat → Spot} {r : S.Ref}
    (sound : S.Sound PInv budget ⟨e, sp⟩) (synced : Synced S e r)
    (pending_eq : e.pending = waiting S r.t) (run : S.processInstant e = some e')
    (ok : e'.fail = .ok) :
    ∃ r', S.refEvents r = some r' ∧ Synced S e' r' ∧ r'.t = r.t ∧
      e'.pending = waiting S (r.t + 1) := by
  have inside : ∀ c ∈ List.range S.opt.cores, c < S.opt.cores := fun c hc => List.mem_range.mp hc
  simp only [Sim.processInstant, calm.notReady, Bool.false_and, markRecheck_false,
    Option.bind_eq_bind, Option.bind_eq_some_iff] at run
  obtain ⟨⟨e₁, arrived⟩, run₁, ⟨e₂, woken⟩, run₂, ⟨e₃, requeued⟩, run₃, run₄⟩ := run
  obtain ⟨sp₁, r₁, arrivals, synced₁, t₁, moves₁, pending₁⟩ :=
    synced.admitArrivals valid hcs contract calm e.pending sound rfl run₁
  have sound₁ := moves₁.sound valid hcs contract sound
  obtain ⟨sp₂, r₂, wakes, synced₂, t₂, moves₂, pending₂⟩ :=
    synced₁.wakeBlocked valid hcs contract calm e₁.blocked.len sound₁ le_rfl run₂
  have sound₂ := moves₂.sound valid hcs contract sound₁
  obtain ⟨sp₃, moves₃, moves₄, lengths⟩ := sound₂.ends valid hcs contract run₃
  have sound₃ := moves₃.sound valid hcs contract sound₂
  have sound₄ := moves₄.sound valid hcs contract sound₃
  obtain ⟨e₅, sp₅, run₅, events₅, -⟩ := interrupt_spec valid hcs contract false (by simp)
    (List.range S.opt.cores) inside sound₄ lengths
  obtain rfl : e₅ = e' := Option.some.inj (run₅.symm.trans run₄)
  have ok₃ := Moves.ok valid hcs contract (moves₄.trans events₅.moves) sound₃ ok
  obtain ⟨-, r₃, finishes, synced₃, t₃, -, pending₃⟩ :=
    synced₂.endFinished valid hcs contract calm (List.range S.opt.cores) inside sound₂ run₃ ok₃
  obtain ⟨r₄, switches, synced₄, t₄, -, pending₄⟩ :=
    synced₃.finishSwitches valid hcs contract (List.range S.opt.cores) inside sound₃
  have stays := sound₄.interrupt_none valid (List.range S.opt.cores) inside
    (fun c hc on => ((synced₄.mirrors.lanes c hc).on on).2.2.1) lengths
  obtain rfl := Option.some.inj (run₄.symm.trans stays)
  have t_eq : r₄.t = r.t := t₄.trans (t₃.trans (t₂.trans t₁))
  refine ⟨r₄, ?_, synced₄, t_eq, ?_⟩
  · have arrivals' : S.refArrivals r = some r₁ := by
      rw [refArrivals, ← waiting_takeWhile valid, ← pending_eq, synced.t_eq]
      exact arrivals
    simp only [refEvents, arrivals', wakes, finishes, switches, calm.notReady, Option.bind_eq_bind,
      Option.bind_some, Bool.false_eq_true, if_false]
  · rw [pending₄, pending₃, pending₂, pending₁, pending_eq, ← synced.t_eq, waiting_dropWhile valid]

/-! ## Dispatching -/

omit [Double D] valid hcs in
/-- The picks are the same. -/
theorem Synced.collectPicks (nfree : Nat) {e e' : S.Eng} {sp : Nat → Spot} {r : S.Ref}
    {picks : List Slice} (sound : S.Sound PInv budget ⟨e, sp⟩) (synced : Synced S e r)
    (early : e.now < int64Max) (run : S.collectPicks nfree e = some (e', picks)) :
    ∃ r', S.refPicks nfree r = some (r', picks) ∧ Synced S e' r' ∧ r'.t = r.t ∧
      r'.cores = r.cores ∧ (∀ s ∈ picks, s.deadline = schedNoDeadline) ∧
        e'.pending = e.pending := by
  induction nfree generalizing e sp r picks with
  | zero =>
      simp only [Sim.collectPicks, Option.some.injEq, Prod.mk.injEq] at run
      obtain ⟨rfl, rfl⟩ := run
      exact ⟨r, rfl, synced, rfl, rfl, by simp, rfl⟩
  | succ nfree ih =>
      simp only [Sim.collectPicks, Option.bind_eq_bind, Option.bind_eq_some_iff] at run
      obtain ⟨⟨state, pick⟩, hook, run⟩ := run
      have viewOk := sound.viewOk (e := e) rfl fun _ _ => rfl
      have hook' : S.policy.nextSlice (S.refView r) r.state = some (state, pick) := by
        rw [synced.mirrors.state]
        exact (calm.next sound.policy viewOk early
          (synced.mirrors.shadow_of_sound synced.t_eq sound)).trans hook
      have synced₁ : Synced S { e with state } { r with state } :=
        have mirrors := synced.mirrors.withState state
        ⟨mirrors, synced.t_eq⟩
      cases pick with
      | none =>
          obtain ⟨rfl, rfl⟩ : { e with state } = e' ∧ [] = picks := by simpa using run
          refine ⟨{ r with state }, ?_, synced₁, rfl, rfl, by simp, rfl⟩
          simp only [refPicks, hook', Option.bind_eq_bind, Option.bind_some]
      | some s =>
          obtain ⟨⟨e₂, picks'⟩, collected, last⟩ := Option.bind_eq_some_iff.mp run
          obtain ⟨rfl, rfl⟩ : e₂ = e' ∧ s :: picks' = picks := by simpa using last
          obtain ⟨-, sound'⟩ := sound.pick contract hook early
          obtain ⟨r', picked, synced', t_eq, cores, undated, pending⟩ :=
            ih sound' synced₁ early collected
          refine ⟨r', ?_, synced', t_eq, cores, ?_, pending⟩
          · simp only [refPicks, hook', Option.bind_eq_bind, Option.bind_some, picked]
          · intro s' mem
            rcases List.mem_cons.mp mem with rfl | mem
            · exact calm.undated sound.policy viewOk early hook
            · exact undated s' mem

end Loops

/-- The cores that `dispatch` may still use, and those the plan of the tick loop, made in
`r`, may still use. -/
structure PlanOk (S : Sim D) (e : S.Eng) (used : Nat → Bool) (r : S.Ref)
    (taken : List Nat) : Prop where
  free_iff : ∀ c < S.opt.cores, S.isFree e used c = true ↔ (r.cores c).proc = none ∧ c ∉ taken
  context_eq : ∀ c < S.opt.cores, S.isFree e used c = true →
    (r.cores c).context = (e.cores c).context

omit [Double D] in
/-- Core `c` is taken. -/
theorem PlanOk.take {e e' : S.Eng} {used : Nat → Bool} {r : S.Ref} {taken : List Nat} {c : Nat}
    (plan : PlanOk S e used r taken) (same : ∀ c', c' ≠ c → e'.cores c' = e.cores c') :
    PlanOk S e' (Function.update used c true) r (c :: taken) := by
  have others : ∀ c', c' ≠ c → S.isFree e' (Function.update used c true) c' =
    S.isFree e used c' := by
    intro c' ne
    simp [isFree, ne, same c' ne]
  have gone : S.isFree e' (Function.update used c true) c = false := by simp [isFree]
  refine ⟨fun c' hc' => ?_, fun c' hc' free => ?_⟩
  · by_cases h : c' = c
    · subst h
      simp [gone]
    · rw [others c' h, plan.free_iff c' hc', List.mem_cons, not_or]
      simp [h]
  · by_cases h : c' = c
    · subst h
      rw [gone] at free
      cases free
    · rw [others c' h] at free
      rw [same c' h]
      exact plan.context_eq c' hc' free

/-- The free cores of the tick loop. -/
def refFreeCores (S : Sim D) (r : S.Ref) : List Nat :=
  (List.range S.opt.cores).filter fun c => (r.cores c).proc = none

omit [Double D] in
/-- The core a process last ran on. -/
theorem PlanOk.find_home {e : S.Eng} {used : Nat → Bool} {r : S.Ref} {taken : List Nat}
    (plan : PlanOk S e used r taken) (p : Nat) :
    ((refFreeCores S r).find? fun i => decide (i ∉ taken ∧ (r.cores i).context = some p)) =
      (List.range S.opt.cores).find? fun c =>
        S.isFree e used c && decide ((e.cores c).context = some p) := by
  rw [refFreeCores, List.find?_filter]
  refine List.find?_congr fun c mem => ?_
  have free_iff := plan.free_iff c (List.mem_range.mp mem)
  have context_eq := plan.context_eq c (List.mem_range.mp mem)
  by_cases free : S.isFree e used c = true
  · obtain ⟨none, untaken⟩ := free_iff.mp free
    simp [free, none, untaken, context_eq free]
  · have busy : ¬ ((r.cores c).proc = none ∧ c ∉ taken) := fun h => free (free_iff.mpr h)
    rw [Bool.not_eq_true] at free
    simp only [free, Bool.false_and, decide_eq_false_iff_not, decide_eq_true_eq]
    exact fun h => busy ⟨h.1, h.2.1⟩

omit [Double D] in
/-- The first free core. -/
theorem PlanOk.find_rest {e : S.Eng} {used : Nat → Bool} {r : S.Ref} {taken : List Nat}
    (plan : PlanOk S e used r taken) {c : Nat}
    (scanned : ∀ c' < S.opt.cores, S.isFree e used c' = true → c ≤ c') :
    ((refFreeCores S r).find? fun i => decide (i ∉ taken)) =
      (List.range S.opt.cores).find? fun i => decide (c ≤ i) && S.isFree e used i := by
  rw [refFreeCores, List.find?_filter]
  refine List.find?_congr fun i mem => ?_
  have free_iff := plan.free_iff i (List.mem_range.mp mem)
  have scanned := scanned i (List.mem_range.mp mem)
  by_cases free : S.isFree e used i = true
  · simp [free, scanned free, free_iff.mp free]
  · have busy : ¬ ((r.cores i).proc = none ∧ i ∉ taken) := fun h => free (free_iff.mpr h)
    rw [Bool.not_eq_true] at free
    simp only [free, Bool.and_false, decide_eq_false_iff_not, decide_eq_true_eq]
    exact busy

section Placing

variable (valid : S.w.Valid) (hcs : 0 ≤ S.opt.csCost) (contract : Contract S.w S.policy PInv)
include valid hcs

/-- `dispatch_one` and one entry of `placement`. -/
theorem Synced.dispatchOne {e e' : S.Eng} {sp : Nat → Spot} {r : S.Ref} {c : Nat} {s : Slice}
    (sound : S.Sound PInv budget ⟨e, sp⟩) (synced : Synced S e r) (held : sp s.proc = .held s)
    (free : c ∈ freeCores e) (fits : e.now + S.opt.csCost ≤ int64Max)
    (undated : s.deadline = schedNoDeadline) (run : S.dispatchOne e c s = some e')
    (ok : e'.fail = .ok) :
    ∃ r', S.refPlace r (c, s) = some r' ∧ Synced S e' r' ∧ r'.t = r.t := by
  obtain ⟨hc, hfree⟩ := mem_freeCores.mp free
  obtain ⟨run', move, -⟩ := dispatchOne_spec valid hcs sound held free fits
  obtain rfl := Option.some.inj (run'.symm.trans run)
  obtain ⟨r', placed, mirrors, t_eq⟩ := synced.mirrors.placed valid hcs sound held hc hfree fits
    undated synced.t_eq ok
  have now_eq : (S.placed e c s).now = e.now := move.now_eq
  exact ⟨r', placed, ⟨t_eq ▸ mirrors, by rw [t_eq, now_eq]; exact synced.t_eq⟩, t_eq⟩

omit [Double D] hcs in
/-- Placing on core `c` changes core `c` only, and no arrivals. -/
theorem Sound.placed_others (hcs : 0 ≤ S.opt.csCost) {e : S.Eng} {sp : Nat → Spot}
    {c : Nat} {s : Slice}
    (sound : S.Sound PInv budget ⟨e, sp⟩) (held : sp s.proc = .held s)
    (fits : e.now + S.opt.csCost ≤ int64Max) :
    (∀ c', c' ≠ c → (S.placed e c s).cores c' = e.cores c') ∧
      (S.placed e c s).pending = e.pending ∧ ((S.placed e c s).cores c).proc = some s.proc := by
  rw [sound.placed_eq (c := c) valid hcs held fits]
  refine ⟨fun c' ne => by simp [ne], rfl, ?_⟩
  simp only [Function.update_self, placedCore]
  split <;> rfl

include contract

/-- The first placement pass. -/
theorem Synced.placeHome (many : 1 < S.opt.cores) (picks : List Slice) {e e' : S.Eng}
    {sp : Nat → Spot} {r r₀ : S.Ref} {used used' : Nat →
      Bool} {taken : List Nat} {l left : List Slice}
    (sound : S.Sound PInv budget ⟨e, sp⟩) (synced : Synced S e r)
    (fits : e.now + S.opt.csCost ≤ int64Max) (held : HeldBy (l ++ picks) sp)
    (nodup : ((l ++ picks).map Slice.proc).Nodup)
    (usedBusy : ∀ c, used c = true → (e.cores c).proc ≠ none)
    (undated : ∀ s ∈ picks, s.deadline = schedNoDeadline) (plan : PlanOk S e used r₀ taken)
    (run : S.placeHome picks e used = some (e', used', left)) (ok : e'.fail = .ok) :
    ∃ placement taken' r', S.refHomes r₀ (refFreeCores S r₀) picks taken =
      (placement, left, taken') ∧
      placement.foldlM S.refPlace r = some r' ∧ Synced S e' r' ∧ r'.t = r.t ∧
      PlanOk S e' used' r₀ taken' ∧ e'.pending = e.pending := by
  induction picks generalizing e sp r used taken l left with
  | nil =>
      simp only [Sim.placeHome, Option.some.injEq, Prod.mk.injEq] at run
      obtain ⟨rfl, rfl, rfl⟩ := run
      exact ⟨[], taken, r, rfl, rfl, synced, rfl, plan, rfl⟩
  | cons s rest ih =>
      simp only [List.mem_cons, forall_eq_or_imp] at undated
      have found := plan.find_home s.proc
      cases home : (List.range S.opt.cores).find? fun c =>
          S.isFree e used c && ((e.cores c).context = some s.proc) with
      | some c =>
          rw [home] at found
          have hc := List.mem_range.mp (List.mem_of_find?_eq_some home)
          have hfree := List.find?_some home
          simp only [isFree, Bool.and_eq_true, decide_eq_true_eq] at hfree
          have free : c ∈ freeCores e := mem_freeCores.mpr ⟨hc, hfree.1.2⟩
          have hs : sp s.proc = .held s := (held s.proc s).mpr ⟨by simp, rfl⟩
          obtain ⟨run₁, move, -⟩ := dispatchOne_spec valid hcs sound hs free fits
          obtain ⟨cores_eq, pending_eq, on⟩ := sound.placed_others valid hcs (c := c) hs fits
          simp only [Sim.placeHome, home, run₁, Option.bind_eq_bind, Option.bind_some] at run
          have now_eq : (S.placed e c s).now = e.now := move.now_eq
          have fits' : (S.placed e c s).now + S.opt.csCost ≤ int64Max := by rwa [now_eq]
          have nodup' : ((l ++ rest).map Slice.proc).Nodup :=
            nodup.sublist (List.Sublist.map _
              (List.Sublist.append_left (List.sublist_cons_self _ _) _))
          have usedBusy' : ∀ c', Function.update used c true c' = true →
              ((S.placed e c s).cores c').proc ≠ none := by
            intro c' hused
            by_cases h : c' = c
            · subst h
              simp [on]
            · rw [Function.update_of_ne h] at hused
              rw [cores_eq c' h]
              exact usedBusy c' hused
          have sound₁ := sound.place valid hcs hs hc hfree.1.2 fits
          obtain ⟨e₂, u₂, l₂, sp₂, run₂, moves, -⟩ := placeHome_spec valid hcs rest
            (l := l) sound₁ fits'
            (held.place nodup) nodup' usedBusy'
          obtain ⟨rfl, -, -⟩ : e₂ = e' ∧ u₂ = used' ∧
            l₂ = left := by simpa using run₂.symm.trans run
          have ok₁ := Moves.ok valid hcs contract moves sound₁ ok
          obtain ⟨r₁, placed, synced₁, t_eq⟩ :=
            synced.dispatchOne valid hcs sound hs free fits undated.1 run₁ ok₁
          obtain ⟨placement, taken', r', homes, places, synced', t_eq', plan', pending'⟩ :=
            ih sound₁ synced₁ fits' (held.place nodup) nodup' usedBusy' undated.2
              (plan.take cores_eq) run
          refine ⟨(c, s) :: placement, taken', r', ?_, ?_, synced', t_eq'.trans t_eq, plan',
            pending'.trans pending_eq⟩
          · simp only [refHomes, found, if_pos many, homes]
          · rw [List.foldlM_cons, placed]
            exact places
      | none =>
          rw [home] at found
          simp only [Sim.placeHome, home, Option.bind_eq_bind, Option.bind_eq_some_iff] at run
          obtain ⟨⟨e₂, u₂, l₂⟩, run₂, last⟩ := run
          obtain ⟨rfl, rfl, rfl⟩ : e₂ = e' ∧ u₂ = used' ∧ s :: l₂ = left := by simpa using last
          obtain ⟨placement, taken', r', homes, places, synced', t_eq, plan', pending'⟩ :=
            ih (l := l ++ [s]) sound synced fits (by simpa using held)
              (by simpa using nodup) usedBusy
              undated.2 plan run₂
          refine ⟨placement, taken', r', ?_, places, synced', t_eq, plan', pending'⟩
          simp only [refHomes, found, homes]

/-- The second placement pass. -/
theorem Synced.placeRest (picks : List Slice) {e e' : S.Eng} {sp : Nat → Spot} {r r₀ : S.Ref}
    {used : Nat → Bool} {taken : List Nat} {c : Nat} (sound : S.Sound PInv budget ⟨e, sp⟩)
    (synced : Synced S e r) (fits : e.now + S.opt.csCost ≤ int64Max) (held : HeldBy picks sp)
    (nodup : (picks.map Slice.proc).Nodup) (usedBusy : ∀ c, used c = true → (e.cores c).proc ≠ none)
    (scanned : ∀ c' < S.opt.cores, S.isFree e used c' = true → c ≤ c')
    (enough : picks.length ≤ (freeCores e).card)
    (undated : ∀ s ∈ picks, s.deadline = schedNoDeadline) (plan : PlanOk S e used r₀ taken)
    (run : S.placeRest picks c e used = some e') (ok : e'.fail = .ok) :
    ∃ rest r', refRest (refFreeCores S r₀) picks taken = some rest ∧
      rest.foldlM S.refPlace r = some r' ∧ Synced S e' r' ∧ r'.t = r.t ∧
      e'.pending = e.pending := by
  induction picks generalizing e sp r used taken c with
  | nil =>
      simp only [Sim.placeRest, Option.some.injEq] at run
      subst run
      exact ⟨[], r, rfl, rfl, synced, rfl, rfl⟩
  | cons s rest ih =>
      simp only [List.mem_cons, forall_eq_or_imp] at undated
      have found := plan.find_rest scanned
      cases first : (List.range S.opt.cores).find? fun i =>
          decide (c ≤ i) && S.isFree e used i with
      | none => simp [Sim.placeRest, first] at run
      | some i =>
          rw [first] at found
          have hi := List.mem_range.mp (List.mem_of_find?_eq_some first)
          have hfree := List.find?_some first
          simp only [isFree, Bool.and_eq_true, decide_eq_true_eq] at hfree
          have free : i ∈ freeCores e := mem_freeCores.mpr ⟨hi, hfree.2.2⟩
          have hs : sp s.proc = .held s := (held s.proc s).mpr ⟨by simp, rfl⟩
          obtain ⟨run₁, move, erased⟩ := dispatchOne_spec valid hcs sound hs free fits
          obtain ⟨cores_eq, pending_eq, on⟩ := sound.placed_others valid hcs (c := i) hs fits
          simp only [Sim.placeRest, first, run₁, Option.bind_eq_bind, Option.bind_some] at run
          have now_eq : (S.placed e i s).now = e.now := move.now_eq
          have fits' : (S.placed e i s).now + S.opt.csCost ≤ int64Max := by rwa [now_eq]
          have usedBusy' : ∀ c', Function.update used i true c' = true →
              ((S.placed e i s).cores c').proc ≠ none := by
            intro c' hused
            by_cases h : c' = i
            · subst h
              simp [on]
            · rw [Function.update_of_ne h] at hused
              rw [cores_eq c' h]
              exact usedBusy c' hused
          have scanned' : ∀ c' < S.opt.cores,
              S.isFree (S.placed e i s) (Function.update used i true) c' = true → i ≤ c' := by
            intro c' hc' free'
            by_contra hlt
            have ne : c' ≠ i := by omega
            have free' : S.isFree e used c' = true := by
              simpa [isFree, ne, cores_eq c' ne] using free'
            -- a free core before `i` would have been found first
            have := (List.find?_range_eq_some.mp first).2.2 c' (by omega)
            simp [scanned c' hc' free', free'] at this
          have held' : HeldBy rest (Function.update sp s.proc (.core i s)) := by
            simpa using HeldBy.place (l := []) held (by simpa using nodup) (c := i)
          have sound₁ := sound.place valid hcs hs hi hfree.2.2 fits
          have card := Finset.card_erase_of_mem free
          have enough' : rest.length ≤ (freeCores (S.placed e i s)).card := by
            rw [erased]
            simp only [List.length_cons] at enough
            omega
          obtain ⟨e₂, sp₂, run₂, moves, -⟩ := placeRest_spec valid hcs rest (c := i)
            sound₁ fits' held'
            (List.nodup_cons.mp nodup).2 usedBusy' (fun c' mem => by
              obtain ⟨hc', none⟩ := mem_freeCores.mp mem
              refine scanned' c' hc' ?_
              have unused : Function.update used i true c' = false := by
                by_contra h
                exact usedBusy' c' (by simpa using h) none
              simp [isFree, unused, none]) enough'
          obtain rfl : e₂ = e' := Option.some.inj (run₂.symm.trans run)
          have ok₁ := Moves.ok valid hcs contract moves sound₁ ok
          obtain ⟨r₁, placed, synced₁, t_eq⟩ :=
            synced.dispatchOne valid hcs sound hs free fits undated.1 run₁ ok₁
          obtain ⟨placement, r', filled, places, synced', t_eq', pending'⟩ :=
            ih sound₁ synced₁ fits' held' (List.nodup_cons.mp nodup).2 usedBusy' scanned' enough'
              undated.2 (plan.take cores_eq) run
          refine ⟨(i, s) :: placement, r', ?_, ?_, synced', t_eq'.trans t_eq,
            pending'.trans pending_eq⟩
          · simp only [refRest, found, filled, Option.bind_eq_bind, Option.bind_some]
          · rw [List.foldlM_cons, placed]
            exact places

omit [Double D] valid hcs contract in
/-- On one core no pick goes home. -/
theorem refHomes_one (one : ¬ 1 < S.opt.cores) (r : S.Ref) (free : List Nat) (picks : List Slice)
    (taken : List Nat) : S.refHomes r free picks taken = ([], picks, taken) := by
  induction picks generalizing taken with
  | nil => rfl
  | cons s rest ih =>
      simp only [refHomes, if_neg one, ih]
      split <;> rfl

/-- `dispatch` and step 6. -/
theorem Synced.dispatch (calm : Calm S.w S.policy PInv) {e e' : S.Eng} {sp : Nat → Spot}
    {r : S.Ref} (sound : S.Sound PInv budget ⟨e, sp⟩) (synced : Synced S e r)
    (noneHeld : NoneHeld ⟨e, sp⟩) (early : e.now < int64Max)
      (fits : e.now + S.opt.csCost ≤ int64Max)
    (run : S.dispatch e = some e') (ok : e'.fail = .ok) :
    ∃ r', S.refDispatch r = some r' ∧ Synced S e' r' ∧ r'.t = r.t ∧ e'.pending = e.pending := by
  have procs_eq : ∀ c < S.opt.cores, (r.cores c).proc = (e.cores c).proc := fun c hc =>
    (synced.mirrors.lanes c hc).proc_eq
  have nfree : (refFreeCores S r).length = (freeCores e).card := by
    rw [refFreeCores, ← countP_free, List.countP_eq_length_filter]
    congr 1
    refine List.filter_congr fun c mem => ?_
    rw [procs_eq c (List.mem_range.mp mem)]
  obtain ⟨state, picks, sp₁, run₁, moves₁, held₁, nodup, -, le, -⟩ :=
    collectPicks_spec contract (freeCores e).card sound early (noneHeld_iff.mp noneHeld)
  have sound₁ := moves₁.sound valid hcs contract sound
  rw [List.nil_append] at held₁
  obtain ⟨r₁, picked, synced₁, t₁, cores₁, undated, -⟩ :=
    synced.collectPicks contract calm (freeCores e).card sound early run₁
  have plan : PlanOk S { e with state } (fun _ => false) r₁ [] := by
    refine ⟨fun c hc => ?_, fun c hc _ => ?_⟩
    · simp [isFree, cores₁, procs_eq c hc]
    · rw [cores₁]
      exact (synced.mirrors.lanes c hc).context_eq
  have free₁ : refFreeCores S r₁ = refFreeCores S r := by rw [refFreeCores, cores₁, refFreeCores]
  have unused : ∀ c, (fun _ : Nat => false) c = true →
      ((⟨{ e with state }, sp₁⟩ : S.Config).eng.cores c).proc ≠ none := by simp
  simp only [Sim.dispatch, countP_free, run₁, Option.bind_eq_bind, Option.bind_some] at run
  by_cases many : 1 < S.opt.cores
  · rw [if_pos many, Option.bind_eq_some_iff] at run
    obtain ⟨⟨e₂, used, left⟩, run₂, run₃⟩ := run
    obtain ⟨e₂', used', left', sp₂, run₂', moves₂, held₂, sub, card₂, usedBusy, -⟩ :=
      placeHome_spec valid hcs picks (l := []) sound₁ fits held₁ nodup unused
    obtain ⟨rfl, rfl, rfl⟩ : e₂' = e₂ ∧ used' = used ∧ left' = left := by
      simpa using run₂'.symm.trans run₂
    have sound₂ := moves₂.sound valid hcs contract sound₁
    have now₂ : e₂'.now = e.now := moves₂.now_eq
    have fits₂ : e₂'.now + S.opt.csCost ≤ int64Max := by rwa [now₂]
    have length_le := sub.length_le
    have same_card : (freeCores { e with state }).card = (freeCores e).card := rfl
    have enough : left'.length ≤ (freeCores e₂').card := by omega
    have nodup₂ := nodup.sublist (sub.map Slice.proc)
    obtain ⟨e₃, sp₃, run₃', moves₃, -⟩ := placeRest_spec valid hcs left' (c := 0) sound₂ fits₂ held₂
      nodup₂ usedBusy (fun _ _ => Nat.zero_le _) enough
    obtain rfl := Option.some.inj (run₃'.symm.trans run₃)
    have ok₂ := Moves.ok valid hcs contract moves₃ sound₂ ok
    obtain ⟨placement, taken, r₂, homes, places, synced₂, t₂, plan₂, pending₂⟩ :=
      synced₁.placeHome valid hcs contract many picks (l := []) sound₁ fits held₁
        nodup unused undated
        plan run₂ ok₂
    obtain ⟨rest, r₃, filled, places', synced₃, t₃, pending₃⟩ :=
      synced₂.placeRest valid hcs contract left' sound₂ fits₂ held₂ nodup₂ usedBusy
        (fun _ _ _ => Nat.zero_le _) enough (fun s mem => undated s (sub.subset mem)) plan₂ run₃ ok
    refine ⟨r₃, ?_, synced₃, t₃.trans (t₂.trans t₁), pending₃.trans pending₂⟩
    rw [free₁] at homes filled
    simp only [refFreeCores] at nfree homes filled
    simp only [refDispatch, nfree, picked, homes, filled, Option.bind_eq_bind, Option.bind_some,
      List.foldlM_append, places]
    exact places'
  · rw [if_neg many] at run
    obtain ⟨rest, r₃, filled, places, synced₃, t₃, pending₃⟩ :=
      synced₁.placeRest valid hcs contract picks sound₁ fits held₁ nodup unused
        (fun _ _ _ => Nat.zero_le _) le undated plan run ok
    refine ⟨r₃, ?_, synced₃, t₃.trans t₁, pending₃⟩
    rw [free₁] at filled
    simp only [refFreeCores] at nfree filled
    simp only [refDispatch, nfree, picked, refHomes_one many, filled, Option.bind_eq_bind,
      Option.bind_some, List.nil_append]
    exact places

end Placing

end Sim

end CpuSched
