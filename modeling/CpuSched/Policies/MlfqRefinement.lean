import CpuSched.Policies.Mlfq
import CpuSched.Policy.Contract
import CpuSched.Reference.Policies
import CpuSched.Util.Chain

/-!
# The linked queues of MLFQ refine the lists of the reference

`Rep` relates the state of `mlfq.c` to that of the class `Mlfq`: the links spell
the lists, and the fields of a job are those that the reference has once the
boosts it missed are applied.  Each hook keeps `Rep`.
-/

namespace CpuSched

variable {D : Type}

/-! ## The links -/

/-- The links of `s` spell the queues. -/
structure Linked (s : Mlfq) (qs : Nat → List Nat) : Prop where
  head : ∀ l, s.head l = (qs l).head?
  tail : ∀ l, s.tail l = (qs l).getLast?
  chain : ∀ l, Chain s.next (qs l)

/-- The two states differ in their links only. -/
structure SameJobs (s s' : Mlfq) : Prop where
  levels : s'.levels = s.levels
  quanta : s'.quanta = s.quanta
  allot : s'.allot = s.allot
  boost : s'.boost = s.boost
  epoch : s'.epoch = s.epoch
  level : s'.level = s.level
  used : s'.used = s.used
  sliceLeft : s'.sliceLeft = s.sliceLeft
  seenEpoch : s'.seenEpoch = s.seenEpoch

theorem SameJobs.refl (s : Mlfq) : SameJobs s s := ⟨rfl, rfl, rfl, rfl, rfl, rfl, rfl, rfl, rfl⟩

theorem SameJobs.trans {s s' s'' : Mlfq} (h : SameJobs s s') (h' : SameJobs s' s'') :
    SameJobs s s'' :=
  ⟨h'.levels.trans h.levels, h'.quanta.trans h.quanta, h'.allot.trans h.allot,
    h'.boost.trans h.boost, h'.epoch.trans h.epoch, h'.level.trans h.level, h'.used.trans h.used,
    h'.sliceLeft.trans h.sliceLeft, h'.seenEpoch.trans h.seenEpoch⟩

theorem sameJobs_pushBack (s : Mlfq) (l p : Nat) : SameJobs s (mlfqPushBack s l p) := by
  unfold mlfqPushBack
  cases h : s.tail l <;> simp only [h] <;> exact ⟨rfl, rfl, rfl, rfl, rfl, rfl, rfl, rfl, rfl⟩

theorem sameJobs_pushFront (s : Mlfq) (l p : Nat) : SameJobs s (mlfqPushFront s l p) := by
  unfold mlfqPushFront
  cases h : s.head l <;> simp only [h] <;> exact ⟨rfl, rfl, rfl, rfl, rfl, rfl, rfl, rfl, rfl⟩

theorem sameJobs_popFront (s : Mlfq) (l p : Nat) : SameJobs s (mlfqPopFront s l p) := by
  unfold mlfqPopFront
  simp only [Function.update_self]
  cases s.next p <;> exact ⟨rfl, rfl, rfl, rfl, rfl, rfl, rfl, rfl, rfl⟩

theorem sameJobs_boostLevel (s : Mlfq) (l : Nat) : SameJobs s (boostLevel s l) := by
  unfold boostLevel
  cases h : s.head l with
  | none => exact .refl s
  | some _ =>
      cases h' : s.tail 0 <;> simp only <;> exact ⟨rfl, rfl, rfl, rfl, rfl, rfl, rfl, rfl, rfl⟩

namespace Linked

variable {s s' : Mlfq} {qs : Nat → List Nat}

/-- The links of one queue change. -/
theorem update (linked : Linked s qs) {l : Nat} {xs : List Nat}
    (head : s'.head = Function.update s.head l xs.head?)
    (tail : s'.tail = Function.update s.tail l xs.getLast?) (chain : Chain s'.next xs)
    (others : ∀ l', l' ≠ l → Chain s'.next (qs l')) : Linked s' (Function.update qs l xs) := by
  refine ⟨fun l' => ?_, fun l' => ?_, fun l' => ?_⟩
  all_goals
    by_cases h : l' = l
    · subst h
      simp only [head, tail, Function.update_self, chain]
    · simp only [head, tail, Function.update_of_ne h, linked.head, linked.tail, others l' h]

/-- `push_back` appends. -/
theorem pushBack (linked : Linked s qs) (sep : Separate qs) {p : Nat} (fresh : ∀ l, p ∉ qs l)
    (l : Nat) : Linked (mlfqPushBack s l p) (Function.update qs l (qs l ++ [p])) := by
  have htail := linked.tail l
  have single : Chain (Function.update s.next p none) [p] :=
    (show Chain _ [] from trivial).cons (by simp)
  have kept : ∀ l', Chain (Function.update s.next p none) (qs l') :=
    fun l' => (linked.chain l').update (fresh l') none
  have last' : (qs l ++ [p]).getLast? = some p := by simp
  cases last : (qs l).getLast? with
  | none =>
      have empty : qs l = [] := List.getLast?_eq_none_iff.mp last
      rw [last] at htail
      refine linked.update ?_ ?_ ?_ fun l' _ => ?_
      · simp [mlfqPushBack, htail, empty]
      · simp [mlfqPushBack, htail]
      · simpa [mlfqPushBack, htail, empty] using single
      · simpa [mlfqPushBack, htail] using kept l'
  | some t =>
      have memt : t ∈ qs l := List.mem_of_getLast? last
      have outside : t ∉ [p] := fun mem => fresh l (List.mem_singleton.mp mem ▸ memt)
      have head' : (qs l ++ [p]).head? = s.head l := by
        rw [linked.head, List.head?_append]
        cases queue : qs l with
        | nil => simp [queue] at memt
        | cons => rfl
      rw [last] at htail
      refine linked.update ?_ ?_ ?_ fun l' hl' => ?_
      · rw [head', Function.update_eq_self]
        simp [mlfqPushBack, htail]
      · simp [mlfqPushBack, htail]
      · simpa [mlfqPushBack, htail] using (kept l).join single last (sep.nodup l) outside
      · simpa [mlfqPushBack, htail] using
          (kept l').update (fun mem => hl' (sep.apart mem memt)) (some p)

/-- `push_front` prepends. -/
theorem pushFront (linked : Linked s qs) {p : Nat} (fresh : ∀ l, p ∉ qs l) (l : Nat) :
    Linked (mlfqPushFront s l p) (Function.update qs l (p :: qs l)) := by
  have hhead := linked.head l
  have chain : Chain (Function.update s.next p (qs l).head?) (p :: qs l) :=
    (linked.chain l).cons (fresh l)
  have kept : ∀ l', Chain (Function.update s.next p (qs l).head?) (qs l') :=
    fun l' => (linked.chain l').update (fresh l') _
  cases queue : qs l with
  | nil =>
      rw [queue, List.head?_nil] at hhead chain kept
      refine linked.update ?_ ?_ ?_ fun l' _ => ?_
      · simp [mlfqPushFront, hhead]
      · simp [mlfqPushFront, hhead]
      · simpa [mlfqPushFront, hhead] using chain
      · simpa [mlfqPushFront, hhead] using kept l'
  | cons q rest =>
      rw [queue, List.head?_cons] at hhead chain kept
      have tail' : (p :: q :: rest).getLast? = s.tail l := by
        rw [linked.tail, queue, List.getLast?_cons_cons]
      refine linked.update ?_ ?_ ?_ fun l' _ => ?_
      · simp [mlfqPushFront, hhead]
      · rw [tail', Function.update_eq_self]
        simp [mlfqPushFront, hhead]
      · simpa [mlfqPushFront, hhead] using chain
      · simpa [mlfqPushFront, hhead] using kept l'

/-- `pop_front` removes the head. -/
theorem popFront (linked : Linked s qs) {l p : Nat} {rest : List Nat} (queue : qs l = p :: rest) :
    Linked (mlfqPopFront s l p) (Function.update qs l rest) := by
  have hchain := linked.chain l
  rw [queue] at hchain
  have hnext := hchain.1
  cases hrest : rest with
  | nil =>
      rw [hrest, List.head?_nil] at hnext
      refine linked.update ?_ ?_ ?_ fun l' _ => ?_
      · simp [mlfqPopFront, hnext]
      · simp [mlfqPopFront, hnext]
      · trivial
      · simpa [mlfqPopFront, hnext] using linked.chain l'
  | cons q rest' =>
      rw [hrest, List.head?_cons] at hnext
      have tail' : (q :: rest').getLast? = s.tail l := by
        rw [linked.tail, queue, hrest, List.getLast?_cons_cons]
      refine linked.update ?_ ?_ ?_ fun l' _ => ?_
      · simp [mlfqPopFront, hnext]
      · rw [tail', Function.update_eq_self]
        simp [mlfqPopFront, hnext]
      · simpa [mlfqPopFront, hnext, hrest] using hchain.2
      · simpa [mlfqPopFront, hnext] using linked.chain l'

end Linked

/-! ## The boost -/

/-- Queue `l` moves to the end of queue 0. -/
def boostStep (qs : Nat → List Nat) (l : Nat) : Nat → List Nat :=
  Function.update (Function.update qs 0 (qs 0 ++ qs l)) l []

theorem Separate.boostStep {qs : Nat → List Nat} (sep : Separate qs) {l : Nat} (hl : l ≠ 0) :
    Separate (boostStep qs l) := by
  have mem : ∀ {l' p}, p ∈ CpuSched.boostStep qs l l' → p ∈ qs l' ∨ (l' = 0 ∧ p ∈ qs l) := by
    intro l' p hp
    unfold CpuSched.boostStep at hp
    simp only [Function.update_apply] at hp
    split_ifs at hp with h1 h2
    · simp at hp
    · subst h2
      rcases List.mem_append.mp hp with hp | hp
      · exact .inl hp
      · exact .inr ⟨rfl, hp⟩
    · exact .inl hp
  have leaves : ∀ {l' p}, p ∈ CpuSched.boostStep qs l l' → l' ≠ l := by
    rintro l' p hp rfl
    simp [CpuSched.boostStep] at hp
  refine ⟨fun l' => ?_, fun {l₁ l₂ p} h₁ h₂ => ?_⟩
  · unfold CpuSched.boostStep
    simp only [Function.update_apply]
    split_ifs
    · exact List.nodup_nil
    · refine List.nodup_append.mpr ⟨sep.nodup 0, sep.nodup l, ?_⟩
      rintro a ha b hb rfl
      exact hl (sep.apart hb ha)
    · exact sep.nodup l'
  · rcases mem h₁ with m₁ | ⟨rfl, m₁⟩ <;> rcases mem h₂ with m₂ | ⟨rfl, m₂⟩
    · exact sep.apart m₁ m₂
    · exact absurd (sep.apart m₁ m₂) (leaves h₁)
    · exact absurd (sep.apart m₂ m₁) (leaves h₂)
    · rfl

theorem Linked.boostLevel {s : Mlfq} {qs : Nat → List Nat} (linked : Linked s qs)
    (sep : Separate qs) {l : Nat} (hl : l ≠ 0) : Linked (boostLevel s l) (boostStep qs l) := by
  have hhead := linked.head l
  cases queue : qs l with
  | nil =>
      rw [queue, List.head?_nil] at hhead
      have same : CpuSched.boostStep qs l = qs := by
        rw [boostStep, queue, List.append_nil, Function.update_eq_self, ← queue,
          Function.update_eq_self]
      rw [same, CpuSched.boostLevel, hhead]
      exact linked
  | cons h rest =>
      rw [queue, List.head?_cons] at hhead
      have htail := linked.tail 0
      -- queue 0 grows first, then queue `l` is emptied
      obtain ⟨next, hnext, chain, kept⟩ : ∃ next,
          (CpuSched.boostLevel s l).next = next ∧ Chain next (qs 0 ++ qs l) ∧
            ∀ l', l' ≠ 0 → Chain next (qs l') := by
        cases last : (qs 0).getLast? with
        | none =>
            have empty : qs 0 = [] := List.getLast?_eq_none_iff.mp last
            rw [last] at htail
            refine ⟨s.next, by simp [CpuSched.boostLevel, hhead, htail], ?_,
              fun l' _ => linked.chain l'⟩
            rw [empty]
            exact linked.chain l
        | some t =>
            have memt : t ∈ qs 0 := List.mem_of_getLast? last
            have apart : ∀ l', l' ≠ 0 → t ∉ qs l' := fun l' hl' mem => hl' (sep.apart mem memt)
            rw [last] at htail
            refine ⟨Function.update s.next t (qs l).head?, ?_,
              (linked.chain 0).join (linked.chain l) last (sep.nodup 0) (apart l hl),
              fun l' hl' => (linked.chain l').update (apart l' hl') _⟩
            simp [CpuSched.boostLevel, hhead, htail, queue]
      have last' : (qs 0 ++ qs l).getLast? = s.tail l := by
        rw [linked.tail, List.getLast?_append, queue]
        cases hgl : (h :: rest).getLast? with
        | none => simp at hgl
        | some => rfl
      have grown : Linked { s with
          head := Function.update s.head 0 (qs 0 ++ qs l).head?
          tail := Function.update s.tail 0 (qs 0 ++ qs l).getLast?
          next := next } (Function.update qs 0 (qs 0 ++ qs l)) :=
        linked.update rfl rfl chain kept
      refine grown.update (l := l) ?_ ?_ trivial fun l' hl' => ?_
      · rw [List.head?_append, ← linked.head, ← linked.head, hhead]
        cases last : (qs 0).getLast? with
        | none =>
            have empty : s.head 0 = none := by
              rw [linked.head, List.getLast?_eq_none_iff.mp last]
              rfl
            simp [CpuSched.boostLevel, hhead, htail, last, empty]
        | some t =>
            obtain ⟨q, hq⟩ : ∃ q, s.head 0 = some q := by
              rw [linked.head]
              cases h0 : qs 0 with
              | nil => simp [h0] at last
              | cons q => exact ⟨q, rfl⟩
            have same : Function.update s.head 0 (some q) = s.head := by
              rw [← hq, Function.update_eq_self]
            simp [CpuSched.boostLevel, hhead, htail, last, hq, same]
      · rw [last']
        cases last : (qs 0).getLast? <;> simp [CpuSched.boostLevel, hhead, htail, last]
      · rw [hnext]
        exact grown.chain l'

/-- The queues after the loop of `maybe_boost` over the levels `ls`. -/
theorem foldl_boostStep {ls : List Nat} (nodup : ls.Nodup) (zero : 0 ∉ ls) (qs : Nat → List Nat) :
    ls.foldl boostStep qs =
      fun l => if l = 0 then qs 0 ++ ls.flatMap qs else if l ∈ ls then [] else qs l := by
  induction ls generalizing qs with
  | nil =>
      funext l
      simp only [List.foldl_nil, List.flatMap_nil, List.append_nil, List.not_mem_nil, if_false]
      split_ifs with h
      · rw [h]
      · rfl
  | cons k ls ih =>
      obtain ⟨notMem, nodup⟩ := List.nodup_cons.mp nodup
      simp only [List.mem_cons, not_or] at zero
      have hk : k ≠ 0 := fun h => zero.1 h.symm
      rw [List.foldl_cons, ih nodup zero.2]
      funext l
      have others : ls.flatMap (boostStep qs k) = ls.flatMap qs := by
        refine List.flatMap_congr fun l' hl' => ?_
        have h1 : l' ≠ k := fun h => notMem (h ▸ hl')
        have h2 : l' ≠ 0 := fun h => zero.2 (h ▸ hl')
        rw [boostStep, Function.update_of_ne h1, Function.update_of_ne h2]
      rw [others]
      by_cases h0 : l = 0
      · subst h0
        simp only [if_true, boostStep, Function.update_of_ne hk.symm, Function.update_self,
          List.flatMap_cons, List.append_assoc]
      · simp only [if_neg h0, List.mem_cons]
        by_cases hlk : l = k
        · subst hlk
          simp [boostStep]
        · rw [boostStep, Function.update_of_ne hlk, Function.update_of_ne h0]
          simp [hlk]

theorem separate_foldl_boost {ls : List Nat} (zero : 0 ∉ ls) {qs : Nat → List Nat}
    (sep : Separate qs) : Separate (ls.foldl boostStep qs) := by
  induction ls generalizing qs with
  | nil => exact sep
  | cons k ls ih =>
      simp only [List.mem_cons, not_or] at zero
      exact ih zero.2 (sep.boostStep fun h => zero.1 h.symm)

theorem linked_foldl_boost {l : List Nat} (zero : 0 ∉ l) {s : Mlfq} {qs : Nat → List Nat}
    (linked : Linked s qs) (sep : Separate qs) :
    Linked (l.foldl boostLevel s) (l.foldl boostStep qs) ∧ SameJobs s (l.foldl boostLevel s) := by
  induction l generalizing s qs with
  | nil => exact ⟨linked, .refl s⟩
  | cons k l ih =>
      simp only [List.mem_cons, not_or] at zero
      have hk : k ≠ 0 := fun h => zero.1 h.symm
      obtain ⟨linked', same⟩ := ih zero.2 (linked.boostLevel sep hk) (sep.boostStep hk)
      exact ⟨linked', (sameJobs_boostLevel s k).trans same⟩

/-! ## The relation -/

/-- The state `s` represents the state `a` of the reference; `out` are the
processes on a core. -/
structure Rep (s : Mlfq) (a : RefMlfq) (out : Nat → Prop) : Prop where
  levels_eq : s.levels = a.levels
  quanta_eq : s.quanta = a.quanta
  allot_eq : s.allot = a.allot
  boost_eq : s.boost = a.boost
  epoch_eq : s.epoch = a.epoch
  linked : Linked s a.queues
  level_eq : ∀ p, a.level p = if s.seenEpoch p = s.epoch then s.level p else 0
  used_eq : ∀ p, a.used p = if s.seenEpoch p = s.epoch then s.used p else 0
  left_eq : ∀ p, a.left p = if s.seenEpoch p = s.epoch then s.sliceLeft p else 0
  seen_le : ∀ p, s.seenEpoch p ≤ s.epoch
  dispatched_eq : ∀ p, out p → a.dispatchedIn p = s.seenEpoch p

namespace Rep

variable {s : Mlfq} {a : RefMlfq} {out out' : Nat → Prop} {p : Nat}

theorem mono (rep : Rep s a out) (fewer : ∀ q, out' q → out q) : Rep s a out' :=
  { rep with dispatched_eq := fun q hq => rep.dispatched_eq q (fewer q hq) }

/-- Only the links change. -/
theorem links (rep : Rep s a out) {s' : Mlfq} {qs : Nat → List Nat} (same : SameJobs s s')
    (linked : Linked s' qs) : Rep s' { a with queues := qs } out where
  levels_eq := same.levels.trans rep.levels_eq
  quanta_eq := same.quanta.trans rep.quanta_eq
  allot_eq := same.allot.trans rep.allot_eq
  boost_eq := same.boost.trans rep.boost_eq
  epoch_eq := same.epoch.trans rep.epoch_eq
  linked := linked
  level_eq q := by rw [same.seenEpoch, same.epoch, same.level, rep.level_eq]
  used_eq q := by rw [same.seenEpoch, same.epoch, same.used, rep.used_eq]
  left_eq q := by rw [same.seenEpoch, same.epoch, same.sliceLeft, rep.left_eq]
  seen_le q := by
    rw [same.seenEpoch, same.epoch]
    exact rep.seen_le q
  dispatched_eq q hq := by rw [same.seenEpoch, rep.dispatched_eq q hq]

/-- After `sync` the fields of `p` are those of the reference. -/
theorem sync (rep : Rep s a out) {t : Mlfq} {boosted : Bool} (run : mlfqSync s p = (t, boosted)) :
    Rep t a (fun q => out q ∧ q ≠ p) ∧ t.seenEpoch p = t.epoch ∧
      (boosted = true ↔ s.seenEpoch p ≠ s.epoch) := by
  unfold mlfqSync at run
  by_cases seen : s.seenEpoch p = s.epoch
  · rw [if_pos seen] at run
    cases run
    exact ⟨rep.mono fun _ hq => hq.1, seen, by simp [seen]⟩
  · rw [if_neg seen] at run
    cases run
    have here := And.intro (rep.level_eq p) (And.intro (rep.used_eq p) (rep.left_eq p))
    simp only [if_neg seen] at here
    refine ⟨⟨rep.levels_eq, rep.quanta_eq, rep.allot_eq, rep.boost_eq, rep.epoch_eq,
      ⟨rep.linked.head, rep.linked.tail, rep.linked.chain⟩, fun q => ?_, fun q => ?_, fun q => ?_,
      fun q => ?_, fun q hq => ?_⟩, by simp, by simpa using seen⟩
    · by_cases h : q = p
      · subst h
        simp [here]
      · simp only [Function.update_of_ne h, rep.level_eq]
    · by_cases h : q = p
      · subst h
        simp [here]
      · simp only [Function.update_of_ne h, rep.used_eq]
    · by_cases h : q = p
      · subst h
        simp [here]
      · simp only [Function.update_of_ne h, rep.left_eq]
    · by_cases h : q = p
      · subst h
        simp
      · simp only [Function.update_of_ne h]
        exact rep.seen_le q
    · simp only [Function.update_of_ne hq.2, rep.dispatched_eq q hq.1]

section Fields

variable (rep : Rep s a out) (synced : s.seenEpoch p = s.epoch)
include rep synced

theorem level_synced : s.level p = a.level p := by rw [rep.level_eq, if_pos synced]

theorem used_synced : s.used p = a.used p := by rw [rep.used_eq, if_pos synced]

theorem left_synced : s.sliceLeft p = a.left p := by rw [rep.left_eq, if_pos synced]

theorem setLevel (l : Nat) : Rep { s with level := Function.update s.level p l }
    { a with level := Function.update a.level p l } out :=
  { rep with
    linked := ⟨rep.linked.head, rep.linked.tail, rep.linked.chain⟩
    level_eq := fun q => by
      by_cases h : q = p
      · subst h
        simp [synced]
      · simp only [Function.update_of_ne h, rep.level_eq] }

theorem setUsed (x : Int) : Rep { s with used := Function.update s.used p x }
    { a with used := Function.update a.used p x } out :=
  { rep with
    linked := ⟨rep.linked.head, rep.linked.tail, rep.linked.chain⟩
    used_eq := fun q => by
      by_cases h : q = p
      · subst h
        simp [synced]
      · simp only [Function.update_of_ne h, rep.used_eq] }

theorem setLeft (x : Int) : Rep { s with sliceLeft := Function.update s.sliceLeft p x }
    { a with left := Function.update a.left p x } out :=
  { rep with
    linked := ⟨rep.linked.head, rep.linked.tail, rep.linked.chain⟩
    left_eq := fun q => by
      by_cases h : q = p
      · subst h
        simp [synced]
      · simp only [Function.update_of_ne h, rep.left_eq] }

/-- `charge` demotes the same jobs. -/
theorem charge {ran : Int} {u : Mlfq} {demoted : Bool}
    (run : mlfqCharge s p ran = (u, demoted)) :
    ∃ b, a.charge p ran = (b, demoted) ∧ Rep u b out ∧ u.seenEpoch p = u.epoch := by
  have level := rep.level_synced synced
  have used := rep.used_synced synced
  have charged := rep.setUsed synced (s.used p + ran)
  have same : (s.level p + 1 < s.levels ∧ s.allot (s.level p) ≤ s.used p + ran) ↔
      (a.level p + 1 < a.levels ∧ a.allot (a.level p) ≤ a.used p + ran) := by
    rw [level, used, rep.levels_eq, rep.allot_eq]
  unfold mlfqCharge at run
  unfold RefMlfq.charge
  simp only [Function.update_self] at run ⊢
  rw [used] at charged
  by_cases demotes : a.level p + 1 < a.levels ∧ a.allot (a.level p) ≤ a.used p + ran
  · rw [if_pos (same.mpr demotes), used, level] at run
    cases run
    rw [if_pos demotes]
    exact ⟨_, rfl, (charged.setLevel synced _).setUsed synced 0, synced⟩
  · rw [if_neg (mt same.mp demotes), used] at run
    cases run
    rw [if_neg demotes]
    exact ⟨_, rfl, charged, synced⟩

end Fields

theorem pushBack (rep : Rep s a out) (sep : Separate a.queues) (fresh : ∀ l, p ∉ a.queues l)
    (l : Nat) : Rep (mlfqPushBack s l p) (a.pushBack l p) out :=
  rep.links (sameJobs_pushBack s l p) (rep.linked.pushBack sep fresh l)

theorem pushFront (rep : Rep s a out) (fresh : ∀ l, p ∉ a.queues l) (l : Nat) :
    Rep (mlfqPushFront s l p) (a.pushFront l p) out :=
  rep.links (sameJobs_pushFront s l p) (rep.linked.pushFront fresh l)

end Rep

/-- The queues of the reference after a boost. -/
theorem RefMlfq.merged_eq {a : RefMlfq} (levels_pos : 1 ≤ a.levels)
    (outside : ∀ l, a.levels ≤ l → a.queues l = []) :
    (List.range' 1 (a.levels - 1)).foldl boostStep a.queues =
      fun l => if l = 0 then a.merged else [] := by
  rw [foldl_boostStep List.nodup_range' (by simp)]
  funext l
  by_cases h0 : l = 0
  · rw [if_pos h0, if_pos h0, RefMlfq.merged]
    obtain ⟨n, hn⟩ : ∃ n, a.levels = n + 1 := ⟨a.levels - 1, by omega⟩
    rw [hn, Nat.add_sub_cancel, List.range_eq_range', List.range'_succ, List.flatMap_cons]
  · rw [if_neg h0, if_neg h0]
    split_ifs with h
    · rfl
    · rw [List.mem_range'_1] at h
      exact outside l (by omega)

theorem maybeBoost_idle {v : SchedView D} {s : Mlfq} (h : s.boost ≤ 0 ∨ v.now / s.boost = s.epoch) :
    maybeBoost v s = s := by
  unfold maybeBoost
  rcases h with h | h
  · rw [if_pos h]
  · simp [h]

theorem maybeBoost_due {v : SchedView D} {s : Mlfq}
    (h : ¬ (s.boost ≤ 0 ∨ v.now / s.boost = s.epoch)) :
    maybeBoost v s = (List.range' 1 (s.levels - 1)).foldl boostLevel
      { s with epoch := v.now / s.boost } := by
  rw [not_or] at h
  unfold maybeBoost
  rw [if_neg h.1]
  simp only [if_neg h.2]

theorem RefMlfq.doBoost_idle {v : SchedView D} {a : RefMlfq}
    (h : a.boost = 0 ∨ v.now / a.boost = a.epoch) : a.doBoost v = a := if_pos h

theorem RefMlfq.doBoost_due {v : SchedView D} {a : RefMlfq}
    (h : ¬ (a.boost = 0 ∨ v.now / a.boost = a.epoch)) :
    a.doBoost v = { a with
      epoch := v.now / a.boost
      queues := fun l => if l = 0 then a.merged else []
      level := fun _ => 0
      used := fun _ => 0
      left := fun _ => 0 } := if_neg h

/-- The boost of `maybe_boost` is that of the reference. -/
theorem Rep.maybeBoost {s : Mlfq} {a : RefMlfq} {out : Nat → Prop} (rep : Rep s a out)
    (v : SchedView D) (sep : Separate a.queues) (levels_pos : 1 ≤ a.levels)
    (outside : ∀ l, a.levels ≤ l → a.queues l = []) (boost_nonneg : 0 ≤ a.boost)
    (epoch_le : 0 < a.boost → a.epoch ≤ v.now / a.boost) :
    Rep (maybeBoost v s) (a.doBoost v) out := by
  by_cases idle : a.boost = 0 ∨ v.now / a.boost = a.epoch
  · have idle' : s.boost ≤ 0 ∨ v.now / s.boost = s.epoch := by
      rw [rep.boost_eq, rep.epoch_eq]
      exact idle.imp_left fun h => h.le
    rw [maybeBoost_idle idle', RefMlfq.doBoost_idle idle]
    exact rep
  · have due : ¬ (s.boost ≤ 0 ∨ v.now / s.boost = s.epoch) := by
      rw [rep.boost_eq, rep.epoch_eq]
      omega
    have same : v.now / s.boost = v.now / a.boost := by rw [rep.boost_eq]
    rw [maybeBoost_due due, RefMlfq.doBoost_due idle, same]
    have le := epoch_le (by omega)
    obtain ⟨linked, jobs⟩ := linked_foldl_boost (l := List.range' 1 (s.levels - 1)) (by simp)
      (s := { s with epoch := v.now / a.boost })
      ⟨rep.linked.head, rep.linked.tail, rep.linked.chain⟩ sep
    rw [rep.levels_eq, RefMlfq.merged_eq levels_pos outside, ← rep.levels_eq] at linked
    have missed : ∀ q, s.seenEpoch q ≠ v.now / a.boost := by
      intro q
      have := rep.seen_le q
      have := rep.epoch_eq
      omega
    have boosted : Rep { s with epoch := v.now / a.boost }
        { a with
          epoch := v.now / a.boost
          level := fun _ => 0
          used := fun _ => 0
          left := fun _ => 0 } out :=
      { rep with
        epoch_eq := rfl
        linked := ⟨rep.linked.head, rep.linked.tail, rep.linked.chain⟩
        level_eq := fun q => by simp [missed q]
        used_eq := fun q => by simp [missed q]
        left_eq := fun q => by simp [missed q]
        seen_le := fun q => by
          have := rep.seen_le q
          have := rep.epoch_eq
          simp only
          omega }
    exact boosted.links jobs linked

end CpuSched
