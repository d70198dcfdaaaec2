import Mathlib.Algebra.Group.Nat.Defs
import Mathlib.Data.List.Basic
import Mathlib.Data.List.Nodup
import Mathlib.Data.List.Perm.Subperm
import Mathlib.Logic.Function.Basic

/-!
# Linear probing in a ring of slots

A table of `N` slots holds numbered entries; slot 0 means empty and `g + 1`
means entry `g`.  An entry sits somewhere behind its home slot with no empty
slot between, so a probe from its home finds it.  Removal punches a hole and
moves later entries back into it until the next empty slot.
-/

namespace CpuSched

/-! ## The ring -/

/-- How far slot `b` lies ahead of slot `a` in a ring of `N`. -/
def ringDist (N a b : Nat) : Nat := if a ≤ b then b - a else b + N - a

/-- The slot after `i`. -/
def ringNext (N i : Nat) : Nat := if i + 1 = N then 0 else i + 1

theorem ringNext_lt {N i : Nat} (hi : i < N) : ringNext N i < N := by
  unfold ringNext
  split_ifs <;> omega

/-- Masking with a power of two wraps around. -/
theorem and_mask_eq_ringNext {mask k i : Nat} (hk : mask + 1 = 2 ^ k) (hi : i < mask + 1) :
    (i + 1) &&& mask = ringNext (mask + 1) i := by
  have wrap : (i + 1) &&& mask = (i + 1) % (mask + 1) := by
    rw [hk, ← Nat.and_two_pow_sub_one_eq_mod, ← hk, Nat.add_sub_cancel]
  rw [wrap, ringNext]
  split_ifs with h
  · rw [h, Nat.mod_self]
  · exact Nat.mod_eq_of_lt (by omega)

/-- A probe comes one slot closer to its aim. -/
theorem ringDist_next {N i z : Nat} (hi : i < N) (hz : z < N) (ne : i ≠ z) :
    ringDist N (ringNext N i) z + 1 = ringDist N i z := by
  unfold ringDist ringNext
  split_ifs <;> omega

/-- A probe that starts at `h` and has not come round to it moves one slot on. -/
theorem ringDist_to_next {N h i : Nat} (hh : h < N) (open_ : ringNext N i ≠ h) :
    ringDist N h (ringNext N i) = ringDist N h i + 1 := by
  unfold ringDist
  unfold ringNext at open_ ⊢
  split_ifs at open_ ⊢ <;> omega

theorem ringDist_self (N a : Nat) : ringDist N a a = 0 := by simp [ringDist]

theorem ringDist_lt {N a b : Nat} (ha : a < N) (hb : b < N) : ringDist N a b < N := by
  unfold ringDist
  split_ifs <;> omega

theorem eq_of_ringDist_eq {N a b c : Nat} (ha : a < N) (hb : b < N) (hc : c < N)
    (same : ringDist N a b = ringDist N a c) : b = c := by
  unfold ringDist at same
  split_ifs at same <;> omega

/-! ## The table -/

/-- The slots hold the entries of `live`, each where `slotOf` says, with no empty
slot between its home and it.  The content of the hole is stale. -/
structure ProbeTable (N : Nat) (home slots slotOf : Nat → Nat) (live : List Nat)
    (hole : Option Nat) : Prop where
  nodup : live.Nodup
  entry : ∀ i < N, hole ≠ some i → slots i ≠ 0 →
    slots i - 1 ∈ live ∧ slotOf (slots i - 1) = i
  held : ∀ g ∈ live, slotOf g < N ∧ hole ≠ some (slotOf g) ∧ slots (slotOf g) = g + 1
  path : ∀ g ∈ live, ∀ y < N,
    ringDist N (home g) y < ringDist N (home g) (slotOf g) → slots y ≠ 0

namespace ProbeTable

variable {N : Nat} {home slots slotOf : Nat → Nat} {live : List Nat} {hole : Option Nat}

theorem empty (N : Nat) (home slotOf : Nat → Nat) :
    ProbeTable N home (fun _ => 0) slotOf [] none :=
  ⟨List.nodup_nil, fun _ _ _ h => absurd rfl h, by simp, by simp⟩

/-- Only the homes of the entries matter. -/
theorem congr {home' : Nat → Nat} (table : ProbeTable N home slots slotOf live hole)
    (same : ∀ g ∈ live, home' g = home g) : ProbeTable N home' slots slotOf live hole :=
  ⟨table.nodup, table.entry, table.held, fun g hg y hy hlt =>
    table.path g hg y hy (by rwa [same g hg] at hlt)⟩

theorem perm {live' : List Nat} (table : ProbeTable N home slots slotOf live hole)
    (same : live'.Perm live) : ProbeTable N home slots slotOf live' hole :=
  ⟨same.nodup_iff.mpr table.nodup,
    fun i hi hne hnz => ⟨same.mem_iff.mpr (table.entry i hi hne hnz).1,
      (table.entry i hi hne hnz).2⟩,
    fun g hg => table.held g (same.mem_iff.mp hg), fun g hg => table.path g (same.mem_iff.mp hg)⟩

/-- Entries in different slots differ. -/
theorem entry_inj (table : ProbeTable N home slots slotOf live hole) {i j : Nat} (hi : i < N)
    (hj : j < N) (hole_i : hole ≠ some i) (hole_j : hole ≠ some j) (nz : slots i ≠ 0)
    (same : slots i = slots j) : i = j := by
  rw [← (table.entry i hi hole_i nz).2, same, (table.entry j hj hole_j (same ▸ nz)).2]

/-- A table with fewer entries than slots has an empty slot. -/
theorem exists_empty (table : ProbeTable N home slots slotOf live none)
    (room : live.length < N) : ∃ z < N, slots z = 0 := by
  by_contra full
  push Not at full
  have nodup : ((List.range N).map fun i => slots i - 1).Nodup := by
    refine List.Nodup.map_on (fun i hi j hj same => ?_) List.nodup_range
    have hi := List.mem_range.mp hi
    have hj := List.mem_range.mp hj
    have hi' := full i hi
    have hj' := full j hj
    exact table.entry_inj hi hj (by simp) (by simp) hi' (by omega)
  have subset : ((List.range N).map fun i => slots i - 1) ⊆ live := by
    intro g hg
    obtain ⟨i, hi, rfl⟩ := List.mem_map.mp hg
    exact (table.entry i (List.mem_range.mp hi) (by simp) (full i (List.mem_range.mp hi))).1
  have := (List.subperm_of_subset nodup subset).length_le
  simp only [List.length_map, List.length_range] at this
  omega

/-- An entry is put into the first empty slot from its home on. -/
theorem insert (table : ProbeTable N home slots slotOf live none) {g i : Nat} (hi : i < N)
    (free : slots i = 0) (fresh : g ∉ live)
    (reach : ∀ y < N, ringDist N (home g) y < ringDist N (home g) i → slots y ≠ 0) :
    ProbeTable N home (Function.update slots i (g + 1)) (Function.update slotOf g i) (g :: live)
      none := by
  have kept : ∀ g' ∈ live, slotOf g' ≠ i ∧ g' ≠ g := by
    intro g' hg'
    refine ⟨fun same => ?_, fun same => fresh (same ▸ hg')⟩
    have := (table.held g' hg').2.2
    rw [same, free] at this
    omega
  have nonzero : ∀ y, slots y ≠ 0 → Function.update slots i (g + 1) y ≠ 0 := by
    intro y hy
    rw [Function.update_apply]
    split_ifs
    · omega
    · exact hy
  refine ⟨List.nodup_cons.mpr ⟨fresh, table.nodup⟩, fun j hj _ nz => ?_, fun g' hg' => ?_,
    fun g' hg' y hy hlt => ?_⟩
  · by_cases h : j = i
    · subst h
      simp
    · rw [Function.update_of_ne h] at nz ⊢
      obtain ⟨mem, at_⟩ := table.entry j hj (by simp) nz
      exact ⟨List.mem_cons_of_mem _ mem, by rw [Function.update_of_ne (kept _ mem).2, at_]⟩
  · rcases List.mem_cons.mp hg' with rfl | hg'
    · simp [hi]
    · obtain ⟨lt, -, eq⟩ := table.held g' hg'
      obtain ⟨apart, ne⟩ := kept g' hg'
      rw [Function.update_of_ne ne, Function.update_of_ne apart]
      exact ⟨lt, by simp, eq⟩
  · refine nonzero y ?_
    rcases List.mem_cons.mp hg' with rfl | hg'
    · rw [Function.update_self] at hlt
      exact reach y hy hlt
    · rw [Function.update_of_ne (kept g' hg').2] at hlt
      exact table.path g' hg' y hy hlt

/-- Removing an entry leaves a hole. -/
theorem punch {g : Nat} {rest : List Nat} (table : ProbeTable N home slots slotOf live none)
    (split : live.Perm (g :: rest)) :
    ProbeTable N home slots slotOf rest (some (slotOf g)) := by
  have table := table.perm split.symm
  have nodup := List.nodup_cons.mp table.nodup
  refine ⟨nodup.2, fun i hi ne nz => ?_, fun g' hg' => ?_, fun g' hg' =>
    table.path g' (List.mem_cons_of_mem _ hg')⟩
  · obtain ⟨mem, at_⟩ := table.entry i hi (by simp) nz
    refine ⟨(List.mem_cons.mp mem).resolve_left fun same => ne ?_, at_⟩
    rw [← same, at_]
  · obtain ⟨lt, -, eq⟩ := table.held g' (List.mem_cons_of_mem _ hg')
    refine ⟨lt, fun same => ?_, eq⟩
    have here := (table.held g List.mem_cons_self).2.2
    rw [Option.some.inj same, eq] at here
    have : g' = g := by omega
    exact nodup.1 (this ▸ hg')

/-- The entry in slot `j` moves into the hole at `i`, unless its home lies after
`i`; the hole is then at `j`. -/
theorem shift {i j : Nat} (table : ProbeTable N home slots slotOf live (some i)) (hi : i < N)
    (hj : j < N) (ne : i ≠ j) (stale : slots i ≠ 0) (nz : slots j ≠ 0)
    (homes : ∀ g ∈ live, home g < N)
    (outside : ¬(0 < ringDist N i (home (slots j - 1)) ∧
      ringDist N i (home (slots j - 1)) ≤ ringDist N i j)) :
    ProbeTable N home (Function.update slots i (slots j))
      (Function.update slotOf (slots j - 1) i) live (some j) := by
  obtain ⟨mem, at_⟩ := table.entry j hj (by simpa using ne) nz
  have nonzero : ∀ y, slots y ≠ 0 → Function.update slots i (slots j) y ≠ 0 := by
    intro y hy
    rw [Function.update_apply]
    split_ifs
    · exact nz
    · exact hy
  refine ⟨table.nodup, fun x hx hole nzx => ?_, fun g hg => ?_, fun g hg y hy hlt => ?_⟩
  · by_cases h : x = i
    · subst h
      rw [Function.update_self]
      exact ⟨mem, Function.update_self ..⟩
    · rw [Function.update_of_ne h] at nzx ⊢
      obtain ⟨mem', at'⟩ := table.entry x hx (by simpa using Ne.symm h) nzx
      refine ⟨mem', ?_⟩
      rw [Function.update_of_ne ?_, at']
      intro same
      rw [same, at_] at at'
      exact hole (by rw [at'])
  · by_cases h : g = slots j - 1
    · subst h
      rw [Function.update_self, Function.update_self]
      exact ⟨hi, by simpa using Ne.symm ne, by omega⟩
    · obtain ⟨lt, hole, eq⟩ := table.held g hg
      rw [Function.update_of_ne h, Function.update_of_ne (by simpa [eq_comm] using hole)]
      refine ⟨lt, fun same => h ?_, eq⟩
      rw [Option.some.inj same, eq]
      omega
  · refine nonzero y ?_
    by_cases h : g = slots j - 1
    · subst h
      rw [Function.update_self] at hlt
      have hh := homes _ hg
      refine table.path _ mem y hy (Nat.lt_of_lt_of_le hlt ?_)
      rw [at_]
      unfold ringDist at outside ⊢
      split_ifs at outside ⊢ <;> omega
    · rw [Function.update_of_ne h] at hlt
      exact table.path g hg y hy hlt

/-- The hole may be emptied when no entry is probed across it. -/
theorem close {i : Nat} (table : ProbeTable N home slots slotOf live (some i))
    (clear : ∀ g ∈ live, ringDist N (home g) (slotOf g) ≤ ringDist N (home g) i) :
    ProbeTable N home (Function.update slots i 0) slotOf live none := by
  refine ⟨table.nodup, fun x hx _ nz => ?_, fun g hg => ?_, fun g hg y hy hlt => ?_⟩
  · by_cases h : x = i
    · subst h
      simp at nz
    · rw [Function.update_of_ne h] at nz ⊢
      exact table.entry x hx (by simpa using Ne.symm h) nz
  · obtain ⟨lt, hole, eq⟩ := table.held g hg
    rw [Function.update_of_ne (by simpa [eq_comm] using hole)]
    exact ⟨lt, by simp, eq⟩
  · have apart : y ≠ i := by
      rintro rfl
      have := clear g hg
      omega
    rw [Function.update_of_ne apart]
    exact table.path g hg y hy hlt

end ProbeTable

end CpuSched
