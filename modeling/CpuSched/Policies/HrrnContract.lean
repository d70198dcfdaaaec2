import CpuSched.Policies.Hrrn
import CpuSched.Policy.ReadySet
import CpuSched.Util.Chain
import CpuSched.Util.ProbeTable

/-!
# HRRN keeps the contract

The ready processes stand in one linked queue for each burst length.  The map
finds the queue of a burst length, and its probes end because at least half of
its slots are empty; the non-empty queues are linked among themselves.
-/

namespace CpuSched

variable {D : Type} {w : Workload}

/-! ## The group map -/

/-- The home slot of the key of group `g`. -/
def Hrrn.home (s : Hrrn) (g : Nat) : Nat := homeSlot s.mask (s.key g)

theorem homeSlot_lt (mask : Nat) (k : BitVec 64) : homeSlot mask k < mask + 1 :=
  Nat.lt_succ_of_le Nat.and_le_right

/-- The map holds the live groups under different keys, and the stack of unused
ids holds the others. -/
structure GroupMap (n : Nat) (s : Hrrn) (live : List Nat) : Prop where
  pow : ∃ k, s.mask + 1 = 2 ^ k
  wide : 2 * n ≤ s.mask + 1 ∧ 2 ≤ s.mask + 1
  table : ProbeTable (s.mask + 1) s.home s.slots s.slotOf live none
  keys : ∀ g ∈ live, ∀ g' ∈ live, s.key g = s.key g' → g = g'
  ids : ((List.range s.nfree).map s.freeIds ++ live).Perm (List.range n)

namespace GroupMap

variable {n : Nat} {s : Hrrn} {live : List Nat}

theorem length_add (map : GroupMap n s live) : s.nfree + live.length = n := by
  simpa using map.ids.length_eq

theorem exists_empty (map : GroupMap n s live) : ∃ z < s.mask + 1, s.slots z = 0 := by
  have := map.length_add
  have := map.wide
  exact map.table.exists_empty (by omega)

theorem next_eq (map : GroupMap n s live) {i : Nat} (hi : i < s.mask + 1) :
    (i + 1) &&& s.mask = ringNext (s.mask + 1) i :=
  and_mask_eq_ringNext map.pow.choose_spec hi

/-- The id on top of the stack is unused. -/
theorem unused (map : GroupMap n s live) (room : 0 < s.nfree) :
    s.freeIds (s.nfree - 1) ∉ live ∧
      ((List.range (s.nfree - 1)).map s.freeIds ++ s.freeIds (s.nfree - 1) :: live).Perm
        (List.range n) := by
  have ids := map.ids
  obtain ⟨f, hf⟩ : ∃ f, s.nfree = f + 1 := ⟨s.nfree - 1, by omega⟩
  rw [hf, List.range_succ, List.map_append, List.map_cons, List.map_nil, List.append_assoc,
    List.singleton_append] at ids
  rw [hf, Nat.add_sub_cancel]
  refine ⟨?_, ids⟩
  have nodup := ids.nodup_iff.mpr List.nodup_range
  exact (List.nodup_cons.mp (List.nodup_append.mp nodup).2.1).1

end GroupMap

/-- The new state of the map when key `k` gets the unused group `g` in slot `i`. -/
def addGroup (s : Hrrn) (k : BitVec 64) (g i : Nat) : Hrrn :=
  { s with
    nfree := s.nfree - 1
    slots := Function.update s.slots i (g + 1)
    slotOf := Function.update s.slotOf g i
    key := Function.update s.key g k
    head := Function.update s.head g none
    tail := Function.update s.tail g none }

/-- What `group_for` leaves behind: a live group of that key, or a new one. -/
inductive GroupFound (n : Nat) (s : Hrrn) (live : List Nat) (k : BitVec 64) : Hrrn → Nat → Prop
  | old {g : Nat} (mem : g ∈ live) (key : s.key g = k) : GroupFound n s live k s g
  | new {g i : Nat} (fresh : g ∉ live) (map : GroupMap n (addGroup s k g i) (g :: live)) :
      GroupFound n s live k (addGroup s k g i) g

/-- The probe passes slots of other keys until it finds the key or an empty
slot. -/
theorem probeGroup_spec {n : Nat} {s : Hrrn} {live : List Nat} {k : BitVec 64}
    (map : GroupMap n s live) (room : (∀ g ∈ live, s.key g ≠ k) → live.length < n) {z : Nat}
    (hz : z < s.mask + 1) (empty : s.slots z = 0) (fuel : Nat) {i : Nat} (hi : i < s.mask + 1)
    (enough : ringDist (s.mask + 1) i z < fuel)
    (passed : ∀ y < s.mask + 1, ringDist (s.mask + 1) (homeSlot s.mask k) y <
      ringDist (s.mask + 1) (homeSlot s.mask k) i → s.slots y ≠ 0 ∧ s.key (s.slots y - 1) ≠ k) :
    ∃ s' g, probeGroup s k fuel i = some (s', g) ∧ GroupFound n s live k s' g := by
  induction fuel generalizing i with
  | zero => omega
  | succ fuel ih =>
      have home_lt := homeSlot_lt s.mask k
      by_cases free : s.slots i = 0
      · -- a live group of this key would stand on the probed slots
        have newKey : ∀ g ∈ live, s.key g ≠ k := by
          intro g hg same
          obtain ⟨lt, -, held⟩ := map.table.held g hg
          have home_eq : s.home g = homeSlot s.mask k := by rw [Hrrn.home, same]
          by_cases hlt : ringDist (s.mask + 1) (homeSlot s.mask k) (s.slotOf g) <
              ringDist (s.mask + 1) (homeSlot s.mask k) i
          · refine (passed _ lt hlt).2 ?_
            rw [held, Nat.add_sub_cancel, same]
          · rcases Nat.lt_or_eq_of_le (Nat.not_lt.mp hlt) with hlt | heq
            · exact map.table.path g hg i hi (by rwa [home_eq]) free
            · have := eq_of_ringDist_eq home_lt hi lt heq
              rw [this, held] at free
              omega
        have nfree_pos : 0 < s.nfree := by
          have := map.length_add
          have := room newKey
          omega
        obtain ⟨fresh, ids⟩ := map.unused nfree_pos
        have apart : ∀ g ∈ live, g ≠ s.freeIds (s.nfree - 1) := fun g hg same => fresh (same ▸ hg)
        have home_old : ∀ g ∈ live,
            (addGroup s k (s.freeIds (s.nfree - 1)) i).home g = s.home g := by
          intro g hg
          simp only [Hrrn.home, addGroup, Function.update_of_ne (apart g hg)]
        have home_new : (addGroup s k (s.freeIds (s.nfree - 1)) i).home
            (s.freeIds (s.nfree - 1)) = homeSlot s.mask k := by
          simp only [Hrrn.home, addGroup, Function.update_self]
        refine ⟨addGroup s k (s.freeIds (s.nfree - 1)) i, s.freeIds (s.nfree - 1), ?_,
          .new fresh ⟨map.pow, map.wide, ?_, ?_, ids⟩⟩
        · simp only [probeGroup, free, if_true, nfree_pos.ne', if_false]
          rfl
        · refine (map.table.congr home_old).insert hi free fresh fun y hy hlt => ?_
          rw [home_new] at hlt
          exact (passed y hy hlt).1
        · intro g hg g' hg' same
          simp only [addGroup] at same
          rcases List.mem_cons.mp hg with rfl | hg <;> rcases List.mem_cons.mp hg' with rfl | hg'
          · rfl
          · rw [Function.update_self, Function.update_of_ne (apart g' hg')] at same
            exact absurd same.symm (newKey g' hg')
          · rw [Function.update_self, Function.update_of_ne (apart g hg)] at same
            exact absurd same (newKey g hg)
          · rw [Function.update_of_ne (apart g hg), Function.update_of_ne (apart g' hg')] at same
            exact map.keys g hg g' hg' same
      · by_cases hit : s.key (s.slots i - 1) = k
        · refine ⟨s, s.slots i - 1, ?_, .old (map.table.entry i hi (by simp) free).1 hit⟩
          simp only [probeGroup, free, if_false, hit, if_true]
        · have ne : i ≠ z := by
            rintro rfl
            exact free empty
          have passed' : ∀ y < s.mask + 1, ringDist (s.mask + 1) (homeSlot s.mask k) y ≤
              ringDist (s.mask + 1) (homeSlot s.mask k) i →
              s.slots y ≠ 0 ∧ s.key (s.slots y - 1) ≠ k := by
            intro y hy hle
            rcases Nat.lt_or_eq_of_le hle with hlt | heq
            · exact passed y hy hlt
            · rw [eq_of_ringDist_eq home_lt hy hi heq]
              exact ⟨free, hit⟩
          have open_ : ringNext (s.mask + 1) i ≠ homeSlot s.mask k := by
            intro round
            refine (passed' z hz ?_).1 empty
            have := ringDist_lt home_lt hz
            unfold ringDist at this ⊢
            unfold ringNext at round
            split_ifs at this round ⊢ <;> omega
          have closer := ringDist_next hi hz ne
          have further := ringDist_to_next home_lt open_
          obtain ⟨s', g, found, result⟩ := ih (ringNext_lt hi) (by omega) fun y hy hlt =>
            passed' y hy (by omega)
          refine ⟨s', g, ?_, result⟩
          simp only [probeGroup, free, if_false, hit]
          rw [map.next_eq hi, found]

/-- `group_for` ends with a group of the key. -/
theorem groupFor_spec {n : Nat} {s : Hrrn} {live : List Nat} (map : GroupMap n s live)
    (k : BitVec 64) (room : (∀ g ∈ live, s.key g ≠ k) → live.length < n) :
    ∃ s' g, groupFor s k = some (s', g) ∧ GroupFound n s live k s' g := by
  obtain ⟨z, hz, empty⟩ := map.exists_empty
  have home_lt := homeSlot_lt s.mask k
  refine probeGroup_spec map room hz empty _ home_lt (ringDist_lt home_lt hz) fun y hy hlt => ?_
  rw [ringDist_self] at hlt
  omega

/-- The comparison in `release_group`: the home lies in `(i, j]`. -/
theorem homeBetween_iff {N i j home : Nat} (hi : i < N) (hj : j < N) (hh : home < N) :
    (if i ≤ j then decide (i < home ∧ home ≤ j) else decide (i < home ∨ home ≤ j)) = true ↔
      0 < ringDist N i home ∧ ringDist N i home ≤ ringDist N i j := by
  unfold ringDist
  split_ifs <;> simp only [decide_eq_true_eq] <;> omega

/-- The entry in slot `j` moves into the hole at `i`. -/
def moveEntry (s : Hrrn) (i j : Nat) : Hrrn :=
  { s with
    slots := Function.update s.slots i (s.slots j)
    slotOf := Function.update s.slotOf (s.slots j - 1) i }

/-- Every entry probed across the hole lies behind slot `j`; when `j` is empty
there is none, and the shift ends. -/
theorem shiftBack_spec {live : List Nat} {z : Nat} (fuel : Nat) {s : Hrrn} {i j : Nat}
    (pow : ∃ k, s.mask + 1 = 2 ^ k)
    (table : ProbeTable (s.mask + 1) s.home s.slots s.slotOf live (some i))
    (hi : i < s.mask + 1) (hj : j < s.mask + 1) (ne : i ≠ j) (stale : s.slots i ≠ 0)
    (hz : z < s.mask + 1) (empty : s.slots z = 0)
    (enough : ringDist (s.mask + 1) j z < fuel)
    (ahead : ringDist (s.mask + 1) j z < ringDist (s.mask + 1) j i)
    (scanned : ∀ g ∈ live,
      ringDist (s.mask + 1) i (s.slotOf g) < ringDist (s.mask + 1) i j →
      ringDist (s.mask + 1) (s.home g) (s.slotOf g) ≤ ringDist (s.mask + 1) (s.home g) i) :
    ∃ s' i', shiftBack fuel s i j = some (s', i') ∧
      s' = { s with slots := s'.slots, slotOf := s'.slotOf } ∧
      ProbeTable (s.mask + 1) s.home (Function.update s'.slots i' 0) s'.slotOf live none := by
  have homes : ∀ g ∈ live, s.home g < s.mask + 1 := fun g _ => homeSlot_lt ..
  induction fuel generalizing s i j with
  | zero => omega
  | succ fuel ih =>
      by_cases free : s.slots j = 0
      · refine ⟨s, i, by simp only [shiftBack, free, if_true], rfl, table.close fun g hg => ?_⟩
        obtain ⟨lt, hole, held⟩ := table.held g hg
        by_cases hlt : ringDist (s.mask + 1) i (s.slotOf g) < ringDist (s.mask + 1) i j
        · exact scanned g hg hlt
        · have apart : j ≠ s.slotOf g := by
            intro same
            rw [same, held] at free
            omega
          by_contra across
          refine table.path g hg j hj ?_ free
          have hh := homes g hg
          unfold ringDist at hlt across ⊢
          split_ifs at hlt across ⊢ <;> omega
      · have nej : j ≠ z := by
          rintro rfl
          exact free empty
        have nei : i ≠ z := by
          rintro rfl
          exact stale empty
        obtain ⟨mem, at_⟩ := table.entry j hj (by simpa using ne) free
        have closer := ringDist_next hj hz nej
        have closer_i := ringDist_next hj hi ne.symm
        have hlt := ringNext_lt hj
        have hnext : (j + 1) &&& s.mask = ringNext (s.mask + 1) j :=
          and_mask_eq_ringNext pow.choose_spec hj
        have between := homeBetween_iff hi hj (homes _ mem)
        rw [Hrrn.home] at between
        by_cases stay : 0 < ringDist (s.mask + 1) i (s.home (s.slots j - 1)) ∧
            ringDist (s.mask + 1) i (s.home (s.slots j - 1)) ≤ ringDist (s.mask + 1) i j
        · have ne' : i ≠ ringNext (s.mask + 1) j := by
            intro round
            rw [← round, ringDist_self] at closer_i
            omega
          obtain ⟨s', i', shifted, same, table'⟩ := ih pow table hi hlt ne' stale hz
            empty (by omega) (by omega) (by
              intro g hg hlt'
              rw [ringDist_to_next hi ne'.symm] at hlt'
              rcases Nat.lt_or_eq_of_le (Nat.le_of_lt_succ hlt') with before | here
              · exact scanned g hg before
              · obtain ⟨lt, -, held⟩ := table.held g hg
                have here := eq_of_ringDist_eq hi lt hj here
                have g_eq : s.slots j - 1 = g := by rw [← here, held, Nat.add_sub_cancel]
                rw [g_eq] at stay
                rw [here]
                have hh := homes g hg
                unfold ringDist at stay ⊢
                split_ifs at stay ⊢ <;> omega) homes
          refine ⟨s', i', ?_, same, table'⟩
          simp only [shiftBack, free, if_false]
          rw [between.mpr stay, hnext]
          simpa using shifted
        · have moved := table.shift hi hj ne stale free homes stay
          have round : ringDist (s.mask + 1) (ringNext (s.mask + 1) j) j = s.mask := by
            unfold ringDist
            unfold ringNext at hlt ⊢
            split_ifs at hlt ⊢ <;> omega
          have ne' : j ≠ ringNext (s.mask + 1) j := by
            intro same
            rw [← same, ringDist_self] at round
            omega
          have bound := ringDist_lt hlt hz
          have slot_j : (moveEntry s i j).slots j ≠ 0 := by
            simp only [moveEntry, Function.update_of_ne ne.symm]
            exact free
          have slot_z : (moveEntry s i j).slots z = 0 := by
            simp only [moveEntry, Function.update_of_ne nei.symm, empty]
          have ahead' : ringDist (s.mask + 1) (ringNext (s.mask + 1) j) z <
              ringDist (s.mask + 1) (ringNext (s.mask + 1) j) j := by
            rw [round]
            refine Nat.lt_of_le_of_ne (by omega) fun last => nej ?_
            exact (eq_of_ringDist_eq hlt hz hj (last.trans round.symm)).symm
          obtain ⟨s', i', shifted, same, table'⟩ := ih (s := moveEntry s i j) pow moved hj hlt ne'
            slot_j hz slot_z (by dsimp only [moveEntry]; omega) ahead' (by
              intro g hg near
              obtain ⟨lt, hole, -⟩ := moved.held g hg
              dsimp only [moveEntry] at near
              rw [ringDist_to_next hj ne'.symm, ringDist_self] at near
              exact absurd (congrArg some (eq_of_ringDist_eq hj hj lt
                ((ringDist_self ..).trans (by omega)))) hole) homes
          refine ⟨s', i', ?_, same, table'⟩
          simp only [shiftBack, free, if_false]
          rw [Bool.eq_false_iff.mpr fun h => stay (between.mp h), if_pos rfl, hnext]
          exact shifted

/-- `release_group` forgets the group and keeps the others. -/
theorem releaseGroup_spec {n : Nat} {s : Hrrn} {live rest : List Nat} {g : Nat}
    (map : GroupMap n s live) (split : live.Perm (g :: rest)) :
    ∃ s', releaseGroup s g = some s' ∧
      s' = { s with
        slots := s'.slots, slotOf := s'.slotOf, freeIds := s'.freeIds, nfree := s'.nfree } ∧
      GroupMap n s' rest := by
  obtain ⟨z, hz, empty⟩ := map.exists_empty
  obtain ⟨hi, -, held⟩ := map.table.held g (split.mem_iff.mpr List.mem_cons_self)
  have stale : s.slots (s.slotOf g) ≠ 0 := by omega
  have apart : s.slotOf g ≠ z := by
    intro same
    rw [same] at stale
    exact stale empty
  have wide := map.wide.2
  have hlt := ringNext_lt hi
  have closer := ringDist_next hi hz apart
  have bound := ringDist_lt hi hz
  have round : ringDist (s.mask + 1) (ringNext (s.mask + 1) (s.slotOf g))
    (s.slotOf g) = s.mask := by
    unfold ringDist
    unfold ringNext at hlt ⊢
    split_ifs at hlt ⊢ <;> omega
  have ne : s.slotOf g ≠ ringNext (s.mask + 1) (s.slotOf g) := by
    intro same
    rw [← same, ringDist_self] at round
    omega
  obtain ⟨s', i', shifted, same, table⟩ := shiftBack_spec (s.mask + 1) map.pow
    (map.table.punch split) hi hlt ne stale hz empty (by omega) (by omega) (by
      intro g' hg' near
      obtain ⟨lt, hole, -⟩ := (map.table.punch split).held g' hg'
      rw [ringDist_to_next hi ne.symm, ringDist_self] at near
      exact absurd (congrArg some (eq_of_ringDist_eq hi hi lt
        ((ringDist_self ..).trans (by omega)))) hole)
  refine ⟨{ s' with
    slots := Function.update s'.slots i' 0
    freeIds := Function.update s'.freeIds s'.nfree g
    nfree := s'.nfree + 1 }, ?_, ?_, ?_⟩
  · simp only [releaseGroup, map.next_eq hi, shifted, Option.bind_eq_bind, Option.bind_some]
  · rw [same]
  · have ids := map.ids.symm.trans (split.append_left _)
    have others : ∀ i ∈ List.range s.nfree, Function.update s.freeIds s.nfree g i =
      s.freeIds i := by
      intro i hi
      exact Function.update_of_ne (Nat.ne_of_lt (List.mem_range.mp hi)) ..
    rw [same]
    refine ⟨map.pow, map.wide, table, fun g₁ h₁ g₂ h₂ => map.keys g₁ ?_ g₂ ?_, ?_⟩
    · exact split.mem_iff.mpr (List.mem_cons_of_mem _ h₁)
    · exact split.mem_iff.mpr (List.mem_cons_of_mem _ h₂)
    · simp only [List.range_succ, List.map_append, List.map_cons, List.map_nil,
        Function.update_self, List.map_congr_left others, List.append_assoc, List.singleton_append]
      exact ids.symm

/-! ## The queues -/

section Queues

variable [Double D]

/-- Queue `g` holds the ready processes of burst length `key g`; the active
groups include those with a non-empty queue. -/
structure HrrnQueues (n : Nat) (v : SchedView D) (s : Hrrn) (pl : Places) (qs : Nat → List Nat)
    (acts : List Nat) : Prop where
  separate : Separate qs
  holds : ∀ p, (∃ g, p ∈ qs g) ↔ pl p = .ready
  group : ∀ g, ∀ p ∈ qs g, s.groupOf p = g
  key : ∀ g, ∀ p ∈ qs g, s.key g = burstKey v p
  active : ∀ g, qs g ≠ [] → g ∈ acts
  linked : ∀ g, DoublyLinked s.next s.prev (qs g)
  ends : ∀ g ∈ acts, s.head g = (qs g).head? ∧ s.tail g = (qs g).getLast?
  acts_linked : DoublyLinked s.actNext s.actPrev acts
  acts_head : s.active = acts.head?
  map : GroupMap n s acts

namespace HrrnQueues

variable {n : Nat} {v : SchedView D} {s : Hrrn} {pl : Places} {qs : Nat → List Nat}
  {acts : List Nat} {p : Nat}

theorem fresh (queues : HrrnQueues n v s pl qs acts) (notReady : pl p ≠ .ready) (g : Nat) :
    p ∉ qs g := fun mem => notReady ((queues.holds p).mp ⟨g, mem⟩)

theorem nodup_acts (queues : HrrnQueues n v s pl qs acts) : acts.Nodup := queues.map.table.nodup

/-- A move between places other than `ready` does not show. -/
theorem other {z : Place} (queues : HrrnQueues n v s pl qs acts) (notReady : pl p ≠ .ready)
    (stays : z ≠ .ready) : HrrnQueues n v s (pl.move p z) qs acts := by
  refine { queues with holds := fun q => ?_ }
  rw [queues.holds, Places.move_apply]
  split_ifs with h
  · subst h
    simp [notReady, stays]
  · rfl

/-- Only the burst lengths of the ready processes matter. -/
theorem view {v' : SchedView D} (queues : HrrnQueues n v s pl qs acts)
    (same : ∀ p, pl p = .ready → burstKey v' p = burstKey v p) :
    HrrnQueues n v' s pl qs acts :=
  { queues with
    key := fun g p mem =>
      (queues.key g p mem).trans (same p ((queues.holds p).mp ⟨g, mem⟩)).symm }

/-- A queue is shorter than the workload. -/
theorem length_le (queues : HrrnQueues n v s pl qs acts) (bound : ∀ q, pl q = .ready → q < n)
    (g : Nat) : (qs g).length ≤ n := by
  have subset : qs g ⊆ List.range n := fun q hq =>
    List.mem_range.mpr (bound q ((queues.holds q).mp ⟨g, hq⟩))
  simpa using (List.subperm_of_subset (queues.separate.nodup g) subset).length_le

/-- Every active group has a ready process of its own, so a process that is not
ready leaves room for one more group. -/
theorem acts_length_lt (queues : HrrnQueues n v s pl qs acts) (full : ∀ g ∈ acts, qs g ≠ [])
    (bound : ∀ q, pl q = .ready → q < n) (hp : p < n) (notReady : pl p ≠ .ready) :
    acts.length < n := by
  have head_mem : ∀ g ∈ acts, (qs g).headD 0 ∈ qs g := by
    intro g hg
    cases h : qs g with
    | nil => exact absurd h (full g hg)
    | cons q rest => exact List.mem_cons_self
  have nodup : (acts.map fun g => (qs g).headD 0).Nodup := by
    refine List.Nodup.map_on (fun g hg g' hg' same => ?_) queues.nodup_acts
    exact queues.separate.apart (head_mem g hg) (same ▸ head_mem g' hg')
  have ready : ∀ q ∈ acts.map fun g => (qs g).headD 0, pl q = .ready := by
    intro q hq
    obtain ⟨g, hg, rfl⟩ := List.mem_map.mp hq
    exact (queues.holds _).mp ⟨g, head_mem g hg⟩
  have subset : (p :: acts.map fun g => (qs g).headD 0) ⊆ List.range n := by
    intro q hq
    rcases List.mem_cons.mp hq with rfl | hq
    · exact List.mem_range.mpr hp
    · exact List.mem_range.mpr (bound q (ready q hq))
  have := (List.subperm_of_subset
    (List.nodup_cons.mpr ⟨fun mem => notReady (ready p mem), nodup⟩) subset).length_le
  simpa [Nat.succ_le_iff] using this

end HrrnQueues

/-- The invariant of HRRN. -/
def HrrnInv (w : Workload) (v : SchedView D) (s : Hrrn) (pl : Places) : Prop :=
  ∃ qs acts, HrrnQueues w.len v s pl qs acts ∧ ∀ g ∈ acts, qs g ≠ []

/-! ### Enqueueing -/

theorem activateGroup_of_some {s : Hrrn} {g : Nat} (h : s.head g ≠ none) :
    activateGroup s g = s := by
  simp only [activateGroup, if_neg h]

theorem activateGroup_of_none {s : Hrrn} {g : Nat} (h : s.head g = none) :
    activateGroup s g = { s with
      actPrev := Chain.link (Function.update s.actPrev g none) s.active (some g)
      actNext := Function.update s.actNext g s.active
      active := some g } := by
  simp only [activateGroup, if_pos h]
  cases s.active <;> rfl

/-- `group_for` and the activation together: the group of the key is active. -/
theorem HrrnQueues.open {n : Nat} {v : SchedView D} {s : Hrrn} {pl : Places}
    {qs : Nat → List Nat} {acts : List Nat} {p : Nat} (queues : HrrnQueues n v s pl qs acts)
    (full : ∀ g ∈ acts, qs g ≠ []) (room : acts.length < n) (fresh : ∀ g, p ∉ qs g) :
    ∃ s₁ s₂ g acts', groupFor s (burstKey v p) = some (s₁, g) ∧
      activateGroup { s₁ with groupOf := Function.update s₁.groupOf p g } g = s₂ ∧
      HrrnQueues n v s₂ pl qs acts' ∧ g ∈ acts' ∧ (∀ g' ∈ acts', g' ≠ g → qs g' ≠ []) ∧
      s₂.groupOf p = g ∧ s₂.key g = burstKey v p ∧ s₂.readySince = s.readySince := by
  obtain ⟨s₁, g, found, result⟩ := groupFor_spec queues.map (burstKey v p) fun _ => room
  have group : ∀ g', ∀ q ∈ qs g', Function.update s.groupOf p g q = g' := by
    intro g' q hq
    rw [Function.update_of_ne (ne_of_mem_of_not_mem hq (fresh g'))]
    exact queues.group g' q hq
  cases result with
  | old mem key =>
      have head_some : s.head g ≠ none := by
        rw [(queues.ends g mem).1]
        simpa using full g mem
      refine ⟨s, { s with groupOf := Function.update s.groupOf p g }, g, acts, found,
        activateGroup_of_some head_some, { queues with group, map := ?_ }, mem,
        fun g' h _ => full g' h, Function.update_self .., key, rfl⟩
      exact ⟨queues.map.pow, queues.map.wide, queues.map.table, queues.map.keys, queues.map.ids⟩
  | @new _ i notMem map =>
      have empty : qs g = [] := by
        by_contra h
        exact notMem (queues.active g h)
      have apart : ∀ g' ∈ acts, g' ≠ g := fun g' h same => notMem (same ▸ h)
      have head_none : (addGroup s (burstKey v p) g i).head g = none := Function.update_self ..
      have relinked := DoublyLinked.insert (p := g) (show DoublyLinked _ _ ([] ++ acts) from
        queues.acts_linked) queues.nodup_acts notMem
      rw [← queues.acts_head] at relinked
      refine ⟨_, _, g, g :: acts, found, activateGroup_of_none head_none, { queues with
        group, key := fun g' q hq => ?_, active := fun g' h => ?_, ends := fun g' h => ?_,
        acts_linked := relinked, acts_head := rfl,
        map := ⟨map.pow, map.wide, map.table, map.keys, map.ids⟩ },
        List.mem_cons_self, fun g' h ne => ?_, Function.update_self ..,
          Function.update_self .., rfl⟩
      · have ne : g' ≠ g := by
          rintro rfl
          rw [empty] at hq
          exact absurd hq List.not_mem_nil
        exact (Function.update_of_ne ne ..).trans (queues.key g' q hq)
      · exact List.mem_cons_of_mem _ (queues.active g' h)
      · rcases List.mem_cons.mp h with rfl | h
        · rw [empty]
          exact ⟨Function.update_self .., Function.update_self ..⟩
        · obtain ⟨head, tail⟩ := queues.ends g' h
          exact ⟨(Function.update_of_ne (apart g' h) ..).trans head,
            (Function.update_of_ne (apart g' h) ..).trans tail⟩
      · exact full g' ((List.mem_cons.mp h).resolve_left ne)

omit [Double D] in
/-- The scan from the tail splits the queue where the process belongs. -/
theorem insertAfter_spec {v : SchedView D} {s : Hrrn} {p : Nat} (fuel : Nat) (xs : List Nat)
    (back : Chain s.prev xs.reverse) (enough : xs.length < fuel) :
    ∃ ys zs, xs = ys ++ zs ∧ insertAfter v s p fuel xs.getLast? = some ys.getLast? ∧
      (∀ z ∈ zs, queuedBefore v s p z = true) ∧
      ∀ y, ys.getLast? = some y → queuedBefore v s p y = false := by
  induction fuel generalizing xs with
  | zero => omega
  | succ fuel ih =>
      rcases List.eq_nil_or_concat xs with rfl | ⟨init, last, rfl⟩
      · exact ⟨[], [], rfl, rfl, by simp, by simp⟩
      · simp only [List.concat_eq_append, List.reverse_append, List.reverse_cons, List.reverse_nil,
          List.nil_append, List.singleton_append, List.length_append, List.length_singleton,
          List.getLast?_append, List.getLast?_singleton, Option.some_or] at back enough ⊢
        by_cases before : queuedBefore v s p last = true
        · obtain ⟨ys, zs, split, scan, after, stop⟩ := ih init back.2 (by omega)
          refine ⟨ys, zs ++ [last], by rw [split, List.append_assoc], ?_, fun z hz => ?_, stop⟩
          · rw [insertAfter, if_pos before, back.1, List.head?_reverse, scan]
          · rcases List.mem_append.mp hz with hz | hz
            · exact after z hz
            · rwa [List.mem_singleton.mp hz]
        · refine ⟨init ++ [last], [], by simp, ?_, by simp, fun y hy => ?_⟩
          · rw [insertAfter, if_neg before]
            simp
          · simp only [List.getLast?_append, List.getLast?_singleton, Option.some_or,
              Option.some.injEq] at hy
            rwa [← hy, ← Bool.not_eq_true]

/-- The links that `hrrn_enqueue` writes. -/
theorem linkGroup_eq {s : Hrrn} {g p : Nat} {xs ys : List Nat}
    (linked : DoublyLinked s.next s.prev (xs ++ ys)) (head : s.head g = (xs ++ ys).head?) :
    linkGroup s g p xs.getLast? = { s with
      next := Chain.link (Function.update s.next p ys.head?) xs.getLast? (some p)
      prev := Chain.link (Function.update s.prev p xs.getLast?) ys.head? (some p)
      head := if xs = [] then Function.update s.head g (some p) else s.head
      tail := if ys = [] then Function.update s.tail g (some p) else s.tail } := by
  rcases List.eq_nil_or_concat xs with rfl | ⟨init, last, rfl⟩
  · rw [List.nil_append] at head
    cases ys <;> simp [linkGroup, head]
  · have next_last : s.next last = ys.head? := by
      rw [List.concat_eq_append, List.append_assoc] at linked
      exact linked.forth.right.1
    cases ys <;> simp [linkGroup, next_last]

/-- A process of the right burst length is linked into its queue. -/
theorem HrrnQueues.link {n : Nat} {v : SchedView D} {s : Hrrn} {pl : Places}
    {qs : Nat → List Nat} {acts : List Nat} {p g : Nat} {xs ys : List Nat}
    (queues : HrrnQueues n v s pl qs acts) (split : qs g = xs ++ ys) (mem : g ∈ acts)
    (notReady : pl p ≠ .ready) (group : s.groupOf p = g) (key : s.key g = burstKey v p) :
    HrrnQueues n v (linkGroup s g p xs.getLast?) (pl.move p .ready)
      (Function.update qs g (xs ++ p :: ys)) acts := by
  have fresh := queues.fresh notReady
  have linked := queues.linked g
  have nodup := queues.separate.nodup g
  have here := fresh g
  obtain ⟨head, tail⟩ := queues.ends g mem
  rw [split] at linked nodup here head tail
  have mem_iff : ∀ q, q ∈ xs ++ p :: ys ↔ q = p ∨ q ∈ qs g := by
    intro q
    simp only [split, List.mem_append, List.mem_cons]
    tauto
  -- entries of the other queues are not linked to
  have apart : ∀ g', g' ≠ g → ∀ q ∈ qs g', q ≠ p ∧ q ∉ xs ++ ys := by
    intro g' ne q hq
    refine ⟨ne_of_mem_of_not_mem hq (fresh g'), fun hq' => ne ?_⟩
    exact queues.separate.apart hq (by rwa [split])
  rw [linkGroup_eq linked head]
  refine { queues with
    separate := queues.separate.update ?_ fun q hq g' ne hq' => ?_
    holds := fun q => ?_
    group := fun g' q hq => ?_
    key := fun g' q hq => ?_
    active := fun g' ne => ?_
    linked := fun g' => ?_
    ends := fun g' hg' => ?_
    map := ⟨queues.map.pow, queues.map.wide, queues.map.table, queues.map.keys, queues.map.ids⟩ }
  · refine (List.perm_middle.nodup_iff).mpr (List.nodup_cons.mpr ⟨here, nodup⟩)
  · obtain ⟨ne_p, notMem⟩ := apart g' ne q hq'
    rcases (mem_iff q).mp hq with rfl | hq
    · exact ne_p rfl
    · exact notMem (split ▸ hq)
  · rw [exists_mem_update, mem_iff, Places.move_apply]
    by_cases hq : q = p
    · simp [hq]
    · rw [if_neg hq, ← queues.holds]
      constructor
      · rintro ((rfl | h) | ⟨g', -, h⟩)
        · exact absurd rfl hq
        · exact ⟨g, h⟩
        · exact ⟨g', h⟩
      · rintro ⟨g', h⟩
        by_cases same : g' = g
        · exact .inl (.inr (same ▸ h))
        · exact .inr ⟨g', same, h⟩
  · by_cases same : g' = g
    · subst same
      rw [Function.update_self, mem_iff] at hq
      rcases hq with rfl | hq
      · exact group
      · exact queues.group g' q hq
    · rw [Function.update_of_ne same] at hq
      exact queues.group g' q hq
  · by_cases same : g' = g
    · subst same
      rw [Function.update_self, mem_iff] at hq
      rcases hq with rfl | hq
      · exact key
      · exact queues.key g' q hq
    · rw [Function.update_of_ne same] at hq
      exact queues.key g' q hq
  · by_cases same : g' = g
    · exact same ▸ mem
    · rw [Function.update_of_ne same] at ne
      exact queues.active g' ne
  · by_cases same : g' = g
    · subst same
      rw [Function.update_self]
      exact linked.insert nodup here
    · rw [Function.update_of_ne same]
      refine (queues.linked g').congr (fun q hq => ?_) fun q hq => ?_
      · obtain ⟨ne_p, notMem⟩ := apart g' same q hq
        refine (Chain.link_of_not_mem (fun t ht same => ?_) _).trans (Function.update_of_ne ne_p ..)
        exact notMem (List.mem_append_left _ (same ▸ List.mem_of_getLast? ht))
      · obtain ⟨ne_p, notMem⟩ := apart g' same q hq
        refine (Chain.link_of_not_mem (fun t ht same => ?_) _).trans (Function.update_of_ne ne_p ..)
        exact notMem (List.mem_append_right _ (same ▸ List.mem_of_head? ht))
  · by_cases same : g' = g
    · subst same
      rw [Function.update_self]
      constructor
      · cases xs with
        | nil => simp
        | cons x xs => simpa using head
      · rcases List.eq_nil_or_concat ys with rfl | ⟨init, last, rfl⟩
        · simp
        · simpa [List.getLast?_cons] using tail
    · obtain ⟨head', tail'⟩ := queues.ends g' hg'
      rw [Function.update_of_ne same, ← head', ← tail']
      dsimp only
      exact ⟨by split_ifs <;> simp [Function.update_of_ne same],
        by split_ifs <;> simp [Function.update_of_ne same]⟩

omit [Double D] in
/-- The order within a queue reads no other field. -/
theorem queuedBefore_congr {v : SchedView D} {s s' : Hrrn} (since : s'.readySince = s.readySince) :
    queuedBefore v s' = queuedBefore v s := by
  funext a b
  simp only [queuedBefore, since]

/-- The process joins the queue of its burst length where the scan stops. -/
theorem hrrnEnqueue_queues {v : SchedView D} {s : Hrrn} {pl : Places} {p : Nat}
    {qs : Nat → List Nat} {acts : List Nat} (queues : HrrnQueues w.len v s pl qs acts)
    (full : ∀ g ∈ acts, qs g ≠ []) (ok : ViewOk w v pl) (hp : p < w.len)
      (notReady : pl p ≠ .ready) :
    ∃ s' acts' g xs ys, hrrnEnqueue v s p = some s' ∧
      HrrnQueues w.len v s' (pl.move p .ready) (Function.update qs g (xs ++ p :: ys)) acts' ∧
      (∀ g' ∈ acts', Function.update qs g (xs ++ p :: ys) g' ≠ []) ∧ qs g = xs ++ ys ∧
      s'.readySince = Function.update s.readySince p v.now ∧
      (∀ y ∈ ys, queuedBefore v s' p y = true) ∧
      ∀ x, xs.getLast? = some x → queuedBefore v s' p x = false := by
  have bound := ok.ready_lt
  have stamped : HrrnQueues w.len v
      { s with readySince := Function.update s.readySince p v.now } pl qs acts :=
    { queues with
      map := ⟨queues.map.pow, queues.map.wide, queues.map.table, queues.map.keys,
        queues.map.ids⟩ }
  obtain ⟨s₁, s₂, g, acts', found, activated, queues', mem, full', group, key, since⟩ :=
    stamped.open full (queues.acts_length_lt full bound hp notReady) (queues.fresh notReady)
  obtain ⟨xs, ys, split, scan, after, stop⟩ := insertAfter_spec (v := v) (s := s₂) (p := p)
    (w.len + 1) (qs g) (queues'.linked g).back (Nat.lt_succ_of_le (queues'.length_le bound g))
  rw [← (queues'.ends g mem).2] at scan
  have linked := queues'.linked g
  have head := (queues'.ends g mem).1
  rw [split] at linked head
  have unlinked : (linkGroup s₂ g p xs.getLast?).readySince = s₂.readySince := by
    rw [linkGroup_eq linked head]
  refine ⟨linkGroup s₂ g p xs.getLast?, acts', g, xs, ys, ?_,
    queues'.link split mem notReady group key, fun g' hg' => ?_, split,
      unlinked.trans since, ?_, ?_⟩
  · simp only [hrrnEnqueue, found, Option.bind_eq_bind, Option.bind_some, activated, ok.n_eq, scan]
  · by_cases same : g' = g
    · subst same
      simp
    · rw [Function.update_of_ne same]
      exact full' g' hg' same
  · rwa [queuedBefore_congr unlinked]
  · rwa [queuedBefore_congr unlinked]

theorem hrrnEnqueue_spec {v : SchedView D} {s : Hrrn} {pl : Places} {p : Nat}
    (inv : HrrnInv w v s pl) (ok : ViewOk w v pl) (hp : p < w.len) (notReady : pl p ≠ .ready) :
    ∃ s', hrrnEnqueue v s p = some s' ∧ HrrnInv w v s' (pl.move p .ready) := by
  obtain ⟨qs, acts, queues, full⟩ := inv
  obtain ⟨s', acts', g, xs, ys, run, queues', full', -⟩ :=
    hrrnEnqueue_queues queues full ok hp notReady
  exact ⟨s', run, _, acts', queues', full'⟩

/-! ### Picking -/

omit [Double D] in
/-- `better` over the heads, some head of an active group is chosen. -/
theorem bestHead_spec [Double D] {v : SchedView D} {s : Hrrn} (fuel : Nat) (gs : List Nat)
    (forth : Chain s.actNext gs) (heads : ∀ g ∈ gs, s.head g ≠ none) (enough : gs.length < fuel)
    (best : Option Nat) (some_ : gs ≠ [] ∨ best ≠ none) :
    ∃ b, bestHead v s fuel gs.head? best = some (some b) ∧
      (best = some b ∨ ∃ g ∈ gs, s.head g = some b) := by
  induction fuel generalizing gs best with
  | zero => omega
  | succ fuel ih =>
      cases gs with
      | nil =>
          obtain ⟨b, rfl⟩ := Option.ne_none_iff_exists'.mp (some_.resolve_left (by simp))
          exact ⟨b, rfl, .inl rfl⟩
      | cons g rest =>
          obtain ⟨h, hh⟩ := Option.ne_none_iff_exists'.mp (heads g List.mem_cons_self)
          obtain ⟨best', step, from'⟩ : ∃ best', bestHead v s (fuel + 1) (some g) best =
              bestHead v s fuel (s.actNext g) best' ∧
              ((best' = best ∧ best ≠ none) ∨ best' = some h) := by
            cases best with
            | none => exact ⟨some h, by simp [bestHead, hh], .inr rfl⟩
            | some b =>
                by_cases better : hrrnBetter v s h b = true
                · exact ⟨some h, by simp [bestHead, hh, better], .inr rfl⟩
                · exact ⟨some b, by simp [bestHead, hh, better], .inl ⟨rfl, by simp⟩⟩
          have some' : best' ≠ none := by
            rcases from' with ⟨rfl, h⟩ | rfl
            · exact h
            · simp
          obtain ⟨b, scan, from_⟩ := ih rest forth.2
            (fun g' hg' => heads g' (List.mem_cons_of_mem _ hg')) (by simpa using enough) best'
            (.inr some')
          refine ⟨b, ?_, ?_⟩
          · rw [List.head?_cons, step, forth.1, scan]
          · rcases from_ with same | ⟨g', hg', head⟩
            · rcases from' with ⟨old, -⟩ | new
              · exact .inl (old.symm.trans same)
              · exact .inr ⟨g, List.mem_cons_self, hh.trans (new.symm.trans same)⟩
            · exact .inr ⟨g', List.mem_cons_of_mem _ hg', head⟩

namespace HrrnQueues

variable {n : Nat} {v : SchedView D} {s : Hrrn} {pl : Places} {qs : Nat → List Nat}
  {acts : List Nat} {g best : Nat} {rest : List Nat} {z : Place}

/-- The first process of a queue is unlinked. -/
theorem leave (queues : HrrnQueues n v s pl qs acts) (queue : qs g = best :: rest)
    (leaves : z ≠ .ready) :
    HrrnQueues n v { s with
      head := Function.update s.head g rest.head?
      tail := if rest = [] then Function.update s.tail g none else s.tail
      prev := Chain.link s.prev rest.head? none } (pl.move best z) (Function.update qs g rest)
      acts := by
  have mem : g ∈ acts := queues.active g (by simp [queue])
  have linked := queues.linked g
  have nodup := queues.separate.nodup g
  rw [queue] at linked nodup
  have linked' : DoublyLinked s.next s.prev ([] ++ best :: rest) := linked
  have back : s.prev best = none := by simpa using linked'.links.2
  have sub : ∀ q ∈ rest, q ∈ qs g := fun q hq => by
    rw [queue]
    exact List.mem_cons_of_mem _ hq
  have gone := queues.separate.pop_fresh queue
  have still : ∀ g', ∀ q ∈ Function.update qs g rest g', q ∈ qs g' := by
    intro g' q hq
    by_cases same : g' = g
    · subst same
      rw [Function.update_self] at hq
      exact sub q hq
    · rwa [Function.update_of_ne same] at hq
  refine { queues with
    separate := queues.separate.pop queue
    holds := fun q => ?_
    group := fun g' q hq => queues.group g' q (still g' q hq)
    key := fun g' q hq => queues.key g' q (still g' q hq)
    active := fun g' ne => ?_
    linked := fun g' => ?_
    ends := fun g' hg' => ?_
    map := ⟨queues.map.pow, queues.map.wide, queues.map.table, queues.map.keys, queues.map.ids⟩ }
  · rw [Places.move_apply]
    by_cases hq : q = best
    · subst hq
      rw [if_pos rfl]
      exact iff_of_false (fun ⟨g', h⟩ => gone g' h) leaves
    · rw [if_neg hq, ← queues.holds]
      refine ⟨fun ⟨g', h⟩ => ⟨g', still g' q h⟩, fun ⟨g', h⟩ => ⟨g', ?_⟩⟩
      by_cases same : g' = g
      · subst same
        rw [Function.update_self]
        rw [queue] at h
        exact (List.mem_cons.mp h).resolve_left hq
      · rwa [Function.update_of_ne same]
  · by_cases same : g' = g
    · exact same ▸ mem
    · rw [Function.update_of_ne same] at ne
      exact queues.active g' ne
  · by_cases same : g' = g
    · subst same
      rw [Function.update_self]
      have := linked'.remove nodup
      rwa [back] at this
    · rw [Function.update_of_ne same]
      refine (queues.linked g').congr (fun q hq => rfl) fun q hq => ?_
      refine Chain.link_of_not_mem (fun t ht same' => same ?_) _
      exact queues.separate.apart hq (sub q (same' ▸ List.mem_of_head? ht))
  · by_cases same : g' = g
    · subst same
      rw [Function.update_self]
      have tail := (queues.ends g' mem).2
      rw [queue] at tail
      refine ⟨Function.update_self .., ?_⟩
      cases rest with
      | nil => simp
      | cons h rest => simpa using tail
    · obtain ⟨head', tail'⟩ := queues.ends g' hg'
      rw [Function.update_of_ne same, ← head', ← tail']
      dsimp only
      exact ⟨Function.update_of_ne same .., by split_ifs <;> simp [Function.update_of_ne same]⟩

omit [Double D] in
/-- The links that taking a group off the active list writes. -/
theorem deactivateGroup_eq {s : Hrrn} {xs ys : List Nat} {g : Nat}
    (linked : DoublyLinked s.actNext s.actPrev (xs ++ g :: ys))
    (head : s.active = (xs ++ g :: ys).head?) (notMem : g ∉ xs) :
    deactivateGroup s g = { s with
      actNext := Chain.link s.actNext xs.getLast? (s.actNext g)
      actPrev := Chain.link s.actPrev ys.head? (s.actPrev g)
      active := (xs ++ ys).head? } := by
  obtain ⟨next_g, prev_g⟩ := linked.links
  rcases List.eq_nil_or_concat xs with rfl | ⟨init, last, rfl⟩
  · cases ys <;> simp [deactivateGroup, next_g, prev_g]
  · have apart : (init.concat last ++ ys).head? = s.active := by
      rw [head]
      cases init <;> simp
    have ne : g ≠ last := by
      rintro rfl
      exact notMem (by simp)
    rw [apart]
    rw [List.concat_eq_append, List.getLast?_append, List.getLast?_singleton, Option.some_or] at *
    cases ys <;> simp [deactivateGroup, next_g, prev_g, ne]

/-- A group whose queue is empty is released. -/
theorem retire (queues : HrrnQueues n v s pl qs acts) (empty : qs g = []) (mem : g ∈ acts) :
    ∃ s' acts', releaseGroup (deactivateGroup s g) g = some s' ∧
      HrrnQueues n v s' pl qs acts' ∧ (∀ g' ∈ acts', g' ∈ acts ∧ g' ≠ g) ∧
      s'.readySince = s.readySince := by
  obtain ⟨xs, ys, rfl⟩ := List.append_of_mem mem
  have nodup := queues.nodup_acts
  have split : (xs ++ g :: ys).Perm (g :: (xs ++ ys)) := List.perm_middle
  have notMem := (List.nodup_cons.mp (split.nodup_iff.mp nodup)).1
  have kept : ∀ g' ∈ xs ++ ys, g' ∈ xs ++ g :: ys := fun g' h =>
    split.mem_iff.mpr (List.mem_cons_of_mem _ h)
  rw [deactivateGroup_eq queues.acts_linked queues.acts_head
    fun h => notMem (List.mem_append_left _ h)]
  obtain ⟨s', released, same, map⟩ := releaseGroup_spec (s := { s with
    actNext := Chain.link s.actNext xs.getLast? (s.actNext g)
    actPrev := Chain.link s.actPrev ys.head? (s.actPrev g)
    active := (xs ++ ys).head? })
    ⟨queues.map.pow, queues.map.wide, queues.map.table, queues.map.keys, queues.map.ids⟩ split
  refine ⟨s', xs ++ ys, released, ?_, fun g' h =>
    ⟨kept g' h, ne_of_mem_of_not_mem h notMem⟩, by rw [same]⟩
  rw [same]
  rw [same] at map
  exact { queues with
    active := fun g' ne =>
      (List.mem_cons.mp (split.mem_iff.mp (queues.active g' ne))).resolve_left
        (fun same => ne (same ▸ empty))
    ends := fun g' h => queues.ends g' (kept g' h)
    acts_linked := queues.acts_linked.remove nodup
    acts_head := rfl
    map }

end HrrnQueues

/-- The first process of an active group is taken off. -/
theorem popGroup_spec {n : Nat} {v : SchedView D} {s : Hrrn} {pl : Places} {qs : Nat → List Nat}
    {acts : List Nat} {g best : Nat} {rest : List Nat} {z : Place}
    (queues : HrrnQueues n v s pl qs acts) (full : ∀ g ∈ acts, qs g ≠ [])
    (queue : qs g = best :: rest) (leaves : z ≠ .ready) :
    ∃ s' acts', popGroup s best = some s' ∧
      HrrnQueues n v s' (pl.move best z) (Function.update qs g rest) acts' ∧
      (∀ g' ∈ acts', Function.update qs g rest g' ≠ []) ∧ s'.readySince = s.readySince := by
  have group : s.groupOf best = g := queues.group g best (by simp [queue])
  have linked := queues.linked g
  rw [queue] at linked
  have next_best : s.next best = rest.head? := linked.forth.1
  have left := queues.leave queue leaves
  cases rest with
  | nil =>
      obtain ⟨s', acts', released, queues', kept, since⟩ := left.retire (Function.update_self ..)
        (queues.active g (by simp [queue]))
      refine ⟨s', acts', ?_, queues', fun g' h => ?_, since⟩
      · rw [← released]
        simp [popGroup, group, next_best]
      · rw [Function.update_of_ne (kept g' h).2]
        exact full g' (kept g' h).1
  | cons h rest =>
      refine ⟨_, acts, ?_, left, fun g' hg' => ?_, rfl⟩
      · simp [popGroup, group, next_best]
      · by_cases same : g' = g
        · subst same
          simp
        · rw [Function.update_of_ne same]
          exact full g' hg'

/-- Only without active groups nothing is returned; otherwise the result of the scan
leaves its queue. -/
theorem hrrnNextSlice_queues {v : SchedView D} {s : Hrrn} {pl : Places} {qs : Nat → List Nat}
    {acts : List Nat} (queues : HrrnQueues w.len v s pl qs acts) (full : ∀ g ∈ acts, qs g ≠ [])
    (ok : ViewOk w v pl) :
    (acts = [] ∧ hrrnNextSlice v s = some (s, none)) ∨
      ∃ s' g best rest acts',
        hrrnNextSlice v s = some (s', some ⟨best, v.remaining best, schedNoDeadline⟩) ∧
        bestHead v s (w.len + 1) acts.head? none = some (some best) ∧ qs g = best :: rest ∧
        HrrnQueues w.len v s' (pl.move best (.out ⟨best, v.remaining best, schedNoDeadline⟩))
          (Function.update qs g rest) acts' ∧
        (∀ g' ∈ acts', Function.update qs g rest g' ≠ []) ∧ s'.readySince = s.readySince := by
  have active := queues.acts_head
  cases hacts : acts with
  | nil =>
      rw [hacts, List.head?_nil] at active
      exact .inl ⟨rfl, by simp only [hrrnNextSlice, active]⟩
  | cons g₀ gs =>
      right
      rw [hacts, List.head?_cons] at active
      have enough : acts.length < w.len + 1 := by
        have := queues.map.length_add
        omega
      have heads : ∀ g ∈ acts, s.head g ≠ none := by
        intro g hg
        rw [(queues.ends g hg).1]
        simpa using full g hg
      obtain ⟨best, scan, from_⟩ := bestHead_spec (v := v) _ acts queues.acts_linked.forth heads
        enough none (.inl (by simp [hacts]))
      obtain ⟨g, hg, head⟩ := from_.resolve_left (by simp)
      rw [(queues.ends g hg).1] at head
      obtain ⟨rest, queue⟩ : ∃ rest, qs g = best :: rest := by
        cases h : qs g with
        | nil => simp [h] at head
        | cons q rest =>
            rw [h, List.head?_cons, Option.some.injEq] at head
            exact ⟨rest, by rw [head]⟩
      obtain ⟨s', acts', popped, queues', full', since⟩ := popGroup_spec
        (z := .out ⟨best, v.remaining best, schedNoDeadline⟩) queues full queue (by simp)
      rw [hacts] at scan
      refine ⟨s', g, best, rest, acts', ?_, scan, queue, queues', full', since⟩
      rw [List.head?_cons] at scan
      simp only [hrrnNextSlice, active, ok.n_eq, scan, Option.bind_eq_bind,
        Option.bind_some, popped]

theorem hrrnNextSlice_spec {v : SchedView D} {s : Hrrn} {pl : Places} (inv : HrrnInv w v s pl)
    (ok : ViewOk w v pl) (now_lt : v.now < int64Max) :
    ∃ s' r, hrrnNextSlice v s = some (s', r) ∧ NextOk (HrrnInv w) True False v pl s' r := by
  obtain ⟨qs, acts, queues, full⟩ := inv
  rcases hrrnNextSlice_queues queues full ok with
    ⟨rfl, sliced⟩ | ⟨s', g, best, rest, acts', sliced, -, queue, queues', full', -⟩
  · refine ⟨s, none, sliced, ⟨qs, [], queues, full⟩, .inl fun p ready => ?_⟩
    obtain ⟨g, mem⟩ := (queues.holds p).mpr ready
    exact List.not_mem_nil (queues.active g (List.ne_nil_of_mem mem))
  · have ready : pl best = .ready := (queues.holds best).mp ⟨g, by simp [queue]⟩
    exact ⟨s', _, sliced, ready, ok.ready_pos best ready, now_lt, le_rfl, fun _ => ⟨le_rfl, rfl⟩,
      _, acts', queues', full'⟩

/-! ## The contract -/

theorem burstKey_congr {pl : Places} {v v' : SchedView D} (step : ViewStep pl v v') {p : Nat}
    (ready : pl p = .ready) : burstKey v' p = burstKey v p := by
  have burst := step.burstLen_eq p ready
  have predicted := step.predicted_eq p ready
  unfold burstKey
  cases h : v.predicted with
  | none =>
      rw [step.oracle_iff.mpr h]
      simp only [burst]
  | some f =>
      rw [h] at predicted
      cases h' : v'.predicted with
      | none => simp [h'] at predicted
      | some f' =>
          rw [h'] at predicted
          simp only [Option.map_some, Option.some.injEq] at predicted
          simp only [predicted]

theorem HrrnInv.other {v : SchedView D} {s : Hrrn} {pl : Places} {p : Nat} {z : Place}
    (inv : HrrnInv w v s pl) (notReady : pl p ≠ .ready) (stays : z ≠ .ready) :
    HrrnInv w v s (pl.move p z) := by
  obtain ⟨qs, acts, queues, full⟩ := inv
  exact ⟨qs, acts, queues.other notReady stays, full⟩

theorem hrrn_contract : Contract (D := D) w policyHrrn (HrrnInv w) where
  interruptible _ := rfl
  view inv _ _ step := by
    obtain ⟨qs, acts, queues, full⟩ := inv
    exact ⟨qs, acts, queues.view fun p ready => burstKey_congr step ready, full⟩
  arrival inv ok hp new _ := hrrnEnqueue_spec inv ok hp (by simp [new])
  wake inv ok blocked _ :=
    hrrnEnqueue_spec inv ok (ok.outside _ (by simp [blocked])) (by simp [blocked])
  next {v s pl} inv ok hnow := by
    obtain ⟨s', r, sliced, next⟩ := hrrnNextSlice_spec inv ok hnow
    refine ⟨s', r, sliced, ?_⟩
    cases r with
    | none => exact ⟨next.1, .inl (next.2.resolve_right (by simp))⟩
    | some slice =>
        obtain ⟨h1, h2, h3, h4, h5, h6⟩ := next
        exact ⟨h1, h2, h3, h4, fun _ => h5 trivial, h6⟩
  preempt _ _ _ _ _ _ hook := by simp [policyHrrn] at hook
  block {v s pl p slice ran} inv _ out _ _ _ := ⟨s, rfl, inv.other (by simp [out]) (by simp)⟩
  complete {v s pl p slice ran} inv _ out _ _ := ⟨s, rfl, inv.other (by simp [out]) (by simp)⟩

end Queues

/-- The number of slots is a power of two, and at least twice the workload. -/
theorem growSlots_spec {n f m : Nat} (pos : 0 < m) (enough : 2 * n ≤ m + f)
    (pow : ∃ k, m = 2 ^ k) :
    2 * n ≤ growSlots n f m ∧ m ≤ growSlots n f m ∧
      ∃ k, growSlots n f m = 2 ^ k := by
  induction f generalizing m with
  | zero => exact ⟨enough, le_rfl, pow⟩
  | succ f ih =>
      rw [growSlots]
      split_ifs with small
      · obtain ⟨k, hk⟩ := pow
        obtain ⟨wide, grown, pow'⟩ := ih (m := m * 2) (by omega) (by omega)
          ⟨k + 1, by rw [hk, pow_succ]⟩
        exact ⟨wide, by omega, pow'⟩
      · exact ⟨by omega, le_rfl, pow⟩

/-- What the queues of the active groups of HRRN hold. -/
def hrrnStores (s : Hrrn) (entries : List Nat) : Prop :=
  ∃ (acts : List Nat) (qs : Nat → List Nat), s.active = acts.head? ∧ Chain s.actNext acts ∧
    (∀ g ∈ acts, s.head g = (qs g).head? ∧ Chain s.next (qs g)) ∧ acts.flatMap qs = entries

theorem HrrnInv.stores [Double D] {v : SchedView D} {s : Hrrn} {pl : Places}
    (inv : HrrnInv w v s pl) : ∃ ready, hrrnStores s ready ∧ Holds pl ready := by
  obtain ⟨qs, acts, queues, -⟩ := inv
  refine ⟨acts.flatMap qs, ⟨acts, qs, queues.acts_head, queues.acts_linked.forth,
    fun g hg => ⟨(queues.ends g hg).1, (queues.linked g).forth⟩, rfl⟩,
    queues.separate.nodup_flatMap queues.nodup_acts, fun p => ?_⟩
  rw [← queues.holds, List.mem_flatMap]
  constructor
  · rintro ⟨g, -, mem⟩
    exact ⟨g, mem⟩
  · rintro ⟨g, mem⟩
    exact ⟨g, queues.active g (List.ne_nil_of_mem mem), mem⟩

/-- No group is active at the start, and all ids are on the stack. -/
theorem hrrnCreate_queues [Double D] {v : SchedView D} {params : PolicyParams} {s : Hrrn}
    (n_eq : v.n = w.len) (created : hrrnCreate v params = .ok s) :
    HrrnQueues w.len v s (fun _ => .new) (fun _ => []) [] := by
  obtain ⟨wide, two, k, pow⟩ := growSlots_spec (n := w.len) (f := 2 * w.len) (m := 2)
    (by omega) (by omega) ⟨1, rfl⟩
  cases created
  have mask_eq : growSlots v.n (2 * v.n) 2 - 1 + 1 = growSlots w.len (2 * w.len) 2 := by
    rw [n_eq]
    omega
  refine ⟨⟨fun _ => List.nodup_nil, by simp⟩, by simp, by simp, by simp, by simp,
    fun _ => ⟨trivial, trivial⟩, by simp, ⟨trivial, trivial⟩, rfl,
    ⟨⟨k, mask_eq.trans pow⟩, ?_, ProbeTable.empty .., by simp, ?_⟩⟩
  · dsimp only
    rw [mask_eq]
    exact ⟨wide, two⟩
  · simp only [List.append_nil, n_eq]
    refine (List.perm_ext_iff_of_nodup ?_ List.nodup_range).mpr fun g => ?_
    · refine List.Nodup.map_on (fun g hg g' hg' same => ?_) List.nodup_range
      rw [List.mem_range] at hg hg'
      omega
    · simp only [List.mem_map, List.mem_range]
      exact ⟨fun ⟨g', h, same⟩ => by omega, fun h => ⟨w.len - 1 - g, by omega, by omega⟩⟩

theorem hrrn_lawful [Double D] (v : SchedView D) (params : PolicyParams) (n_eq : v.n = w.len) :
    Lawful w policyHrrn hrrnStores v params := by
  intro s created
  exact ⟨HrrnInv w, hrrn_contract,
    ⟨_, [], hrrnCreate_queues n_eq (show hrrnCreate v params = .ok s from created), by simp⟩,
    fun inv _ => inv.stores⟩

end CpuSched
