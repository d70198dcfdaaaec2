import CpuSched.Policies.HrrnContract

/-!
# The group map of HRRN over whole sequences of calls

`group_for` and `release_group` may be called in any order, with any change of the
other fields between them, as long as no more groups are live than there are ids.
The map then finds every live group from its key, and the stack of unused ids
together with the live groups holds every id once.
-/

namespace CpuSched

/-- The states that `group_for` and `release_group` reach from an empty table of a power
of two of at least `2 * n` slots, with the groups that are live. -/
inductive GroupRun (n : Nat) : List Nat → Hrrn → Prop
  | empty {s : Hrrn} (pow : ∃ k, s.mask + 1 = 2 ^ k) (wide : 2 * n ≤ s.mask + 1)
      (slots : ∀ i < s.mask + 1, s.slots i = 0)
      (ids : ((List.range s.nfree).map s.freeIds).Perm (List.range n)) : GroupRun n [] s
  | groupFor {live : List Nat} {s s' : Hrrn} {k : BitVec 64} {g : Nat} (run : GroupRun n live s)
      (room : (∃ g ∈ live, s.key g = k) ∨ live.length < n)
      (call : groupFor s k = some (s', g)) : GroupRun n (live.insert g) s'
  | releaseGroup {live : List Nat} {s s' : Hrrn} {g : Nat} (run : GroupRun n live s)
      (mem : g ∈ live) (call : releaseGroup s g = some s') : GroupRun n (live.erase g) s'
  | other {live : List Nat} {s s' : Hrrn} (run : GroupRun n live s)
      (same : s'.mask = s.mask ∧ s'.slots = s.slots ∧ s'.slotOf = s.slotOf ∧ s'.key = s.key ∧
        s'.freeIds = s.freeIds ∧ s'.nfree = s.nfree) : GroupRun n live s'

/-- Empty slots hold no group, whatever else the state says. -/
theorem ProbeTable.of_empty {N : Nat} {slots : Nat → Nat} (empty : ∀ i < N, slots i = 0)
    (home slotOf : Nat → Nat) : ProbeTable N home slots slotOf [] none :=
  ⟨List.nodup_nil, fun i hi _ nz => absurd (empty i hi) nz, by simp, by simp⟩

/-- Only the fields of the map matter. -/
theorem GroupMap.congr {n : Nat} {s s' : Hrrn} {live : List Nat} (map : GroupMap n s live)
    (mask : s'.mask = s.mask) (slots : s'.slots = s.slots) (slotOf : s'.slotOf = s.slotOf)
    (key : s'.key = s.key) (freeIds : s'.freeIds = s.freeIds) (nfree : s'.nfree = s.nfree) :
    GroupMap n s' live := by
  have home : s'.home = s.home := by
    funext g
    rw [Hrrn.home, Hrrn.home, mask, key]
  refine ⟨?_, ?_, ?_, ?_, ?_⟩
  · rw [mask]
    exact map.pow
  · rw [mask]
    exact map.wide
  · rw [mask, home, slots, slotOf]
    exact map.table
  · rw [key]
    exact map.keys
  · rw [nfree, freeIds]
    exact map.ids

/-- A live key is found where its group stands, and the state does not change. -/
theorem GroupMap.groupFor_live {n : Nat} {s : Hrrn} {live : List Nat} (map : GroupMap n s live)
    {g : Nat} (mem : g ∈ live) : groupFor s (s.key g) = some (s, g) := by
  obtain ⟨s', g', call, found⟩ := groupFor_spec map (s.key g) fun absent =>
    absurd rfl (absent g mem)
  cases found with
  | old mem' key =>
      rw [call, map.keys g' mem' g mem key]
  | new fresh map' =>
      have apart : g ≠ g' := by
        rintro rfl
        exact fresh mem
      refine absurd (map'.keys g' List.mem_cons_self g (List.mem_cons_of_mem _ mem) ?_) apart.symm
      simp only [addGroup, Function.update_self, Function.update_of_ne apart]

theorem GroupRun.map {n : Nat} {live : List Nat} {s : Hrrn} (run : GroupRun n live s)
    (pos : 0 < n) : GroupMap n s live := by
  induction run with
  | empty pow wide slots ids =>
      refine ⟨pow, ⟨wide, by omega⟩, .of_empty slots _ _, by simp, ?_⟩
      rw [List.append_nil]
      exact ids
  | @groupFor live s s' k g run room call map =>
      obtain ⟨t, g', call', found⟩ := groupFor_spec map k fun absent => by
        rcases room with ⟨g, mem, key⟩ | room
        · exact absurd key (absent g mem)
        · exact room
      obtain ⟨rfl, rfl⟩ : t = s' ∧ g' = g := by simpa [call] using call'.symm
      cases found with
      | old mem key =>
          rw [List.insert_of_mem mem]
          exact map
      | new fresh map' =>
          rw [List.insert_of_not_mem fresh]
          exact map'
  | @releaseGroup live s s' g run mem call map =>
      obtain ⟨t, call', -, map'⟩ := releaseGroup_spec map (List.perm_cons_erase mem)
      obtain rfl : t = s' := by simpa [call] using call'.symm
      exact map'
  | other run same map =>
      obtain ⟨mask, slots, slotOf, key, freeIds, nfree⟩ := same
      exact map.congr mask slots slotOf key freeIds nfree

/-- Without ids there is nothing to call for. -/
theorem GroupRun.live_nil {live : List Nat} {s : Hrrn} (run : GroupRun 0 live s) :
    live = [] ∧ s.nfree = 0 := by
  induction run with
  | empty pow wide slots ids => simpa using ids
  | groupFor run room call ih =>
      rw [ih.1] at room
      simp at room
  | releaseGroup run mem call ih =>
      rw [ih.1] at mem
      simp at mem
  | other run same ih => exact ⟨ih.1, by rw [same.2.2.2.2.2, ih.2]⟩

/-- After every sequence of `group_for` and `release_group` calls with at most `n` live
groups, each live group stands in one slot, at `slot_of`, where `group_for` finds it from its
key; no two share a key; the unused and the live ids are all ids once; and the next
call of either ends. -/
theorem group_run_correct {n : Nat} {live : List Nat} {s : Hrrn} (run : GroupRun n live s) :
    (∀ g ∈ live, groupFor s (s.key g) = some (s, g) ∧ s.slotOf g < s.mask + 1 ∧
      ∀ i < s.mask + 1, s.slots i = g + 1 ↔ i = s.slotOf g) ∧
    (∀ g ∈ live, ∀ g' ∈ live, g ≠ g' → s.key g ≠ s.key g') ∧
    ((List.range s.nfree).map s.freeIds ++ live).Perm (List.range n) ∧
    (∀ k, (∃ g ∈ live, s.key g = k) ∨ live.length < n →
      ∃ s' g, groupFor s k = some (s', g) ∧ s'.key g = k ∧ (g ∈ live ∨
        (∀ g' ∈ live, s.key g' ≠ k))) ∧
    (∀ g ∈ live, ∃ s', releaseGroup s g = some s') := by
  rcases Nat.eq_zero_or_pos n with rfl | pos
  · obtain ⟨rfl, nfree⟩ := run.live_nil
    simp [nfree]
  have map := run.map pos
  refine ⟨fun g mem => ?_, ?_, map.ids, fun k room => ?_, fun g mem => ?_⟩
  · obtain ⟨lt, -, held⟩ := map.table.held g mem
    refine ⟨map.groupFor_live mem, lt, fun i hi => ?_⟩
    constructor
    · intro same
      have stands := (map.table.entry i hi (by simp) (by omega)).2
      rw [same, Nat.add_sub_cancel] at stands
      exact stands.symm
    · rintro rfl
      exact held
  · intro g mem g' mem' ne same
    exact ne (map.keys g mem g' mem' same)
  · obtain ⟨s', g, call, found⟩ := groupFor_spec map k fun absent => by
      rcases room with ⟨g, mem, key⟩ | room
      · exact absurd key (absent g mem)
      · exact room
    refine ⟨s', g, call, ?_⟩
    cases found with
    | old mem key => exact ⟨key, .inl mem⟩
    | @new g i fresh map' =>
        have own : (addGroup s k g i).key g = k := Function.update_self ..
        refine ⟨own, .inr fun g' mem' same => fresh ?_⟩
        have apart : g' ≠ g := fun same => fresh (same ▸ mem')
        have key' : (addGroup s k g i).key g' = k := (Function.update_of_ne apart ..).trans same
        rw [map'.keys g List.mem_cons_self g' (List.mem_cons_of_mem _ mem') (own.trans key'.symm)]
        exact mem'
  · obtain ⟨s', call, -⟩ := releaseGroup_spec map (List.perm_cons_erase mem)
    exact ⟨s', call⟩

/-- `hrrn_create` makes such a table. -/
theorem hrrnCreate_groupRun {D : Type} [Double D] {v : SchedView D} {params : PolicyParams}
    {s : Hrrn} (created : hrrnCreate v params = .ok s) : GroupRun v.n [] s := by
  have queues := hrrnCreate_queues (w := ⟨List.replicate v.n default⟩)
    (by rw [Workload.len, List.length_replicate]) created
  have map := queues.map
  rw [Workload.len, List.length_replicate] at map
  refine .empty map.pow map.wide.1 ?_ ?_
  · cases created
    exact fun _ _ => rfl
  · have ids := map.ids
    rwa [List.append_nil] at ids

/-- A table of four slots, as `hrrn_create` makes it for two processes. -/
def twoGroups : Hrrn :=
  { readySince := fun _ => 0, next := fun _ => none, prev := fun _ => none,
    groupOf := fun _ => 0, freeIds := fun g => 1 - g, nfree := 2,
    head := fun _ => none, tail := fun _ => none, key := fun _ => 0, slotOf := fun _ => 0,
    actNext := fun _ => none, actPrev := fun _ => none, active := none,
    slots := fun _ => 0, mask := 3 }

/-- Two groups are made, one is released. -/
theorem group_run_correct_two : ∃ s, GroupRun 2 [1] s ∧ groupFor s (s.key 1) = some (s, 1) := by
  have start : GroupRun 2 [] twoGroups := .empty ⟨2, rfl⟩ (by decide) (fun _ _ => rfl) (by decide)
  have run : GroupRun 2 [1] _ :=
    .releaseGroup (g := 0) (.groupFor (k := 7) (.groupFor (k := 5) start (.inr (by decide)) rfl)
      (.inr (by decide)) rfl) (by decide) rfl
  exact ⟨_, run, ((group_run_correct run).1 1 (by decide)).1⟩

end CpuSched
