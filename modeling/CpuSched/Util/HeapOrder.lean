import CpuSched.Util.Heap
import Mathlib.Data.List.Nodup
import Mathlib.Data.List.Perm.Basic
import Mathlib.Logic.Equiv.Basic
import Mathlib.Data.List.Range
import Mathlib.Data.Multiset.AddSub
import Mathlib.Tactic.Common

/-!
# The binary heap keeps its contents and its order

Whatever the comparator, `heap_push` adds one entry and `heap_pop` removes the
entry at the root.  When the comparator is a strict total order on the stored
values, both keep the heap order, so the root is the least entry.
-/

namespace CpuSched

/-- The entries in array order. -/
def Heap.toList (h : Heap) : List Nat := (List.range h.len).map h.items

@[simp]
theorem Heap.length_toList (h : Heap) : h.toList.length = h.len := by
  simp [Heap.toList]

theorem Heap.mem_toList {h : Heap} {v : Nat} : v ∈ h.toList ↔ ∃ i < h.len, h.items i = v := by
  simp [Heap.toList]

theorem Heap.isEmpty_iff {h : Heap} : h.isEmpty = true ↔ h.toList = [] := by
  rw [← List.length_eq_zero_iff, Heap.length_toList]
  simp [Heap.isEmpty]

theorem Heap.isEmpty_eq_false_iff {h : Heap} : h.isEmpty = false ↔ 0 < h.len := by
  simp [Heap.isEmpty, Nat.pos_iff_ne_zero]

@[simp]
theorem heapInit_toList (cap : Nat) : (heapInit cap).toList = [] := rfl

/-! ## Contents -/

theorem swapItems_apply (items : Nat → Nat) (i j x : Nat) :
    swapItems items i j x = if x = j then items i else if x = i then items j else items x := by
  simp [swapItems, Function.update_apply]

theorem swapItems_eq_comp (items : Nat → Nat) (i j : Nat) :
    swapItems items i j = items ∘ Equiv.swap i j := by
  funext x
  simp only [swapItems_apply, Function.comp, Equiv.swap_apply_def]
  by_cases hj : x = j
  · by_cases hi : x = i <;> simp_all
  · by_cases hi : x = i <;> simp_all

/-- Exchanging two entries permutes the contents. -/
theorem swapItems_perm (items : Nat → Nat) {i j len : Nat} (hi : i < len) (hj : j < len) :
    ((List.range len).map (swapItems items i j)).Perm ((List.range len).map items) := by
  rw [swapItems_eq_comp, ← List.map_map]
  apply List.Perm.map
  rw [List.perm_ext_iff_of_nodup (List.nodup_range.map (Equiv.swap i j).injective)
    List.nodup_range]
  intro x
  simp only [List.mem_map, List.mem_range]
  constructor
  · rintro ⟨y, hy, rfl⟩
    rw [Equiv.swap_apply_def]
    split_ifs <;> assumption
  · intro hx
    refine ⟨Equiv.swap i j x, ?_, Equiv.swap_apply_self i j x⟩
    rw [Equiv.swap_apply_def]
    split_ifs <;> assumption

theorem siftUp_perm (less : Nat → Nat → Bool) (fuel : Nat) (items : Nat → Nat) {i len : Nat}
    (hi : i < len) :
    ((List.range len).map (siftUp less fuel items i)).Perm ((List.range len).map items) := by
  induction fuel generalizing items i with
  | zero => exact List.Perm.refl _
  | succ fuel ih =>
      simp only [siftUp]
      split_ifs with h0 hless
      · exact List.Perm.refl _
      · have hparent : (i - 1) / 2 < len := by omega
        exact (ih _ hparent).trans (swapItems_perm items hi hparent)
      · exact List.Perm.refl _

theorem leastChild_lt (less : Nat → Nat → Bool) (items : Nat → Nat) {len i : Nat}
    (hi : i < len) : leastChild less items len i < len := by
  simp only [leastChild]
  split_ifs <;> omega

theorem siftDown_perm (less : Nat → Nat → Bool) (fuel : Nat) (items : Nat → Nat) {i len : Nat}
    (hi : i < len) :
    ((List.range len).map (siftDown less len fuel items i)).Perm
      ((List.range len).map items) := by
  induction fuel generalizing items i with
  | zero => exact List.Perm.refl _
  | succ fuel ih =>
      simp only [siftDown]
      split_ifs with hm
      · exact List.Perm.refl _
      · have hleast := leastChild_lt less items hi
        exact (ih _ hleast).trans (swapItems_perm items hi hleast)

theorem map_range_update_last (items : Nat → Nat) (len v : Nat) :
    (List.range (len + 1)).map (Function.update items len v) =
      (List.range len).map items ++ [v] := by
  rw [List.range_succ, List.map_append]
  congr 1
  · apply List.map_congr_left
    intro x hx
    exact Function.update_of_ne (List.mem_range.mp hx).ne _ _
  · simp

/-- `heap_push` succeeds below capacity and adds exactly `v`. -/
theorem heapPush_spec (less : Nat → Nat → Bool) {h : Heap} (v : Nat) (room : h.len < h.cap) :
    ∃ h', heapPush less h v = some h' ∧ h'.toList.Perm (v :: h.toList) ∧ h'.cap = h.cap ∧
      h'.len = h.len + 1 := by
  refine ⟨_, if_pos room, ?_, rfl, rfl⟩
  refine (siftUp_perm less h.len _ (Nat.lt_succ_self h.len)).trans ?_
  rw [map_range_update_last]
  exact List.perm_append_singleton v _

/-- `heap_pop` succeeds on a non-empty heap and removes exactly its root. -/
theorem heapPop_spec (less : Nat → Nat → Bool) {h : Heap} (nonempty : 0 < h.len) :
    ∃ h', heapPop less h = some (h.items 0, h') ∧ h.toList.Perm (h.items 0 :: h'.toList) ∧
      h'.cap = h.cap ∧ h'.len = h.len - 1 := by
  refine ⟨_, if_pos nonempty, ?_, rfl, rfl⟩
  obtain ⟨len, hlen⟩ : ∃ len, h.len = len + 1 := ⟨h.len - 1, by omega⟩
  -- the last entry moves to the root before it sinks
  have moved : ((List.range h.len).map h.items).Perm
      (h.items 0 :: (List.range len).map (Function.update h.items 0 (h.items len))) := by
    rw [hlen]
    cases len with
    | zero => simp
    | succ m =>
        rw [List.range_succ, List.map_append]
        have tail : (List.range (m + 1)).map (Function.update h.items 0 (h.items (m + 1))) =
            h.items (m + 1) :: (List.range m).map fun i => h.items (i + 1) := by
          rw [List.range_succ_eq_map]
          simp [List.map_map, Function.comp_def]
        rw [tail, List.range_succ_eq_map]
        simp only [List.map_cons, List.map_map, List.map_nil, List.cons_append]
        refine List.Perm.cons _ ?_
        exact List.perm_append_singleton _ _
  refine moved.trans (List.Perm.cons _ ?_)
  simp only [Heap.toList, hlen, Nat.add_sub_cancel]
  cases len with
  | zero => simp
  | succ m => exact (siftDown_perm less _ _ (Nat.succ_pos m)).symm

/-! ## Order -/

/-- `less` is a strict total order on the values that satisfy `V`. -/
structure StrictTotalOn (less : Nat → Nat → Bool) (V : Nat → Prop) : Prop where
  irrefl : ∀ a, V a → less a a = false
  trans : ∀ a b c, V a → V b → V c → less a b = true → less b c = true → less a c = true
  total : ∀ a b, V a → V b → a ≠ b → less a b = true ∨ less b a = true

namespace StrictTotalOn

variable {less : Nat → Nat → Bool} {V : Nat → Prop} (order : StrictTotalOn less V)
include order

theorem asymm {a b : Nat} (ha : V a) (hb : V b) (hab : less a b = true) : less b a = false := by
  by_contra hba
  have := order.trans a b a ha hb ha hab (by simpa using hba)
  simp [order.irrefl a ha] at this

/-- Not being below is transitive. -/
theorem not_less_trans {a b c : Nat} (ha : V a) (hb : V b) (hc : V c)
    (hab : less a b = false) (hbc : less b c = false) : less a c = false := by
  by_contra hac
  have hac : less a c = true := by simpa using hac
  by_cases hcb : c = b
  · subst hcb
    rw [hab] at hac
    contradiction
  · rcases order.total c b hc hb hcb with hless | hless
    · have := order.trans a c b ha hc hb hac hless
      rw [hab] at this
      contradiction
    · rw [hbc] at hless
      contradiction

end StrictTotalOn

/-- Every entry is not less than its parent. -/
def HeapOrdered (less : Nat → Nat → Bool) (items : Nat → Nat) (len : Nat) : Prop :=
  ∀ c, 0 < c → c < len → less (items c) (items ((c - 1) / 2)) = false

/-- The order while `i` climbs: only the pair of `i` and its parent may be out
of order, and the children of `i` are in order with that parent. -/
structure UpOrder (less : Nat → Nat → Bool) (items : Nat → Nat) (len i : Nat) : Prop where
  except : ∀ c, 0 < c → c < len → c ≠ i → less (items c) (items ((c - 1) / 2)) = false
  grand : 0 < i → ∀ c, 0 < c → c < len → (c - 1) / 2 = i →
    less (items c) (items ((i - 1) / 2)) = false

/-- The order while `i` sinks: only the pairs of `i` and its children may be out
of order, and these children are in order with the parent of `i`. -/
structure DownOrder (less : Nat → Nat → Bool) (items : Nat → Nat) (len i : Nat) : Prop where
  except : ∀ c, 0 < c → c < len → (c - 1) / 2 ≠ i → less (items c) (items ((c - 1) / 2)) = false
  grand : 0 < i → ∀ c, 0 < c → c < len → (c - 1) / 2 = i →
    less (items c) (items ((i - 1) / 2)) = false

section Order

variable {less : Nat → Nat → Bool} {V : Nat → Prop} (order : StrictTotalOn less V)
include order

theorem UpOrder.climb {items : Nat → Nat} {len i : Nat} (up : UpOrder less items len i)
    (stored : ∀ j < len, V (items j)) (hi : i < len) (h0 : i ≠ 0)
    (hless : less (items i) (items ((i - 1) / 2)) = true) :
    UpOrder less (swapItems items i ((i - 1) / 2)) len ((i - 1) / 2) := by
  obtain ⟨q, hq⟩ : ∃ q, q = (i - 1) / 2 := ⟨_, rfl⟩
  rw [← hq] at hless ⊢
  have hqi : q < i := by omega
  have vi := stored i hi
  have vq := stored q (by omega)
  constructor
  · intro c c0 clen cq
    have vc := stored c clen
    simp only [swapItems_apply]
    by_cases ci : c = i
    · subst ci
      simp [cq, ← hq, order.asymm vi vq hless]
    · rw [if_neg cq, if_neg ci]
      have base := up.except c c0 clen ci
      by_cases pq : (c - 1) / 2 = q
      · rw [if_pos pq]
        rw [pq] at base
        -- otherwise `c` would be below the old parent `q`
        by_contra below
        have below : less (items c) (items i) = true := by simpa using below
        have := order.trans _ _ _ vc vi vq below hless
        rw [base] at this
        contradiction
      · rw [if_neg pq]
        by_cases pi : (c - 1) / 2 = i
        · rw [if_pos pi]
          have := up.grand (by omega) c c0 clen pi
          rwa [← hq] at this
        · rw [if_neg pi]
          exact base
  · intro q0 c c0 clen pc
    have vc := stored c clen
    have hpq : (q - 1) / 2 < q := by omega
    have base := up.except q q0 (by omega) (by omega)
    simp only [swapItems_apply]
    rw [if_neg (show (q - 1) / 2 ≠ q by omega), if_neg (show (q - 1) / 2 ≠ i by omega)]
    by_cases ci : c = i
    · subst ci
      rw [if_neg (by omega), if_pos rfl]
      exact base
    · rw [if_neg (by omega), if_neg ci]
      have := up.except c c0 clen ci
      rw [pc] at this
      exact order.not_less_trans vc vq (stored _ (by omega)) this base

omit order in
theorem UpOrder.done {items : Nat → Nat} {len i : Nat} (up : UpOrder less items len i)
    (stop : 0 < i → less (items i) (items ((i - 1) / 2)) = false) :
    HeapOrdered less items len := by
  intro c c0 clen
  by_cases ci : c = i
  · subst ci
    exact stop c0
  · exact up.except c c0 clen ci

theorem siftUp_ordered (fuel : Nat) {items : Nat → Nat} {len i : Nat}
    (up : UpOrder less items len i) (stored : ∀ j < len, V (items j)) (hi : i < len)
    (enough : i ≤ fuel) : HeapOrdered less (siftUp less fuel items i) len := by
  induction fuel generalizing items i with
  | zero =>
      have : i = 0 := by omega
      exact up.done (by omega)
  | succ fuel ih =>
      simp only [siftUp]
      split_ifs with h0 hless
      · exact up.done (by omega)
      · refine ih (up.climb order stored hi h0 hless) ?_ (by omega) (by omega)
        intro j hj
        rw [swapItems_apply]
        split_ifs
        · exact stored _ hi
        · exact stored _ (by omega)
        · exact stored j hj
      · exact up.done fun _ => by simpa using hless

omit order in
theorem leastChild_cases (less : Nat → Nat → Bool) (items : Nat → Nat) (len i : Nat) :
    leastChild less items len i = i ∨ leastChild less items len i = 2 * i + 1 ∨
      leastChild less items len i = 2 * i + 2 := by
  simp only [leastChild]
  split_ifs <;> simp

/-- No child is less than the one `heap_pop` compares last. -/
theorem leastChild_least {items : Nat → Nat} {len i c : Nat}
    (stored : ∀ j < len, V (items j)) (hi : i < len) (clen : c < len)
    (child : c = i ∨ c = 2 * i + 1 ∨ c = 2 * i + 2) :
    less (items c) (items (leastChild less items len i)) = false := by
  have vi := stored i hi
  have vc := stored c clen
  have same : less (items c) (items c) = false := order.irrefl _ vc
  simp only [leastChild]
  split_ifs with hl hr hr
  · have vl := stored (2 * i + 1) hl.1
    have vr := stored (2 * i + 1 + 1) hr.1
    rcases child with rfl | rfl | rfl
    · exact order.asymm vr vi (order.trans _ _ _ vr vl vi hr.2 hl.2)
    · exact order.asymm vr vl hr.2
    · exact same
  · have vl := stored (2 * i + 1) hl.1
    rcases child with rfl | rfl | rfl
    · exact order.asymm vl vi hl.2
    · exact same
    · simpa [clen] using hr
  · have vr := stored (2 * i + 1 + 1) hr.1
    rcases child with rfl | rfl | rfl
    · exact order.asymm vr vi hr.2
    · have hl : less (items (2 * i + 1)) (items i) = false := by simpa [clen] using hl
      exact order.not_less_trans vc vi vr hl (order.asymm vr vi hr.2)
    · exact same
  · rcases child with rfl | rfl | rfl
    · exact same
    · simpa [clen] using hl
    · simpa [clen] using hr

theorem DownOrder.sink {items : Nat → Nat} {len i m : Nat} (down : DownOrder less items len i)
    (stored : ∀ j < len, V (items j)) (hi : i < len)
    (hm : leastChild less items len i = m) (moved : m ≠ i) :
    DownOrder less (swapItems items i m) len m := by
  have hmlen : m < len := hm ▸ leastChild_lt less items hi
  have hchild : m = 2 * i + 1 ∨ m = 2 * i + 2 := by
    rcases leastChild_cases less items len i with h | h | h <;> omega
  have least := fun c clen child => hm ▸ leastChild_least order (c := c) stored hi clen child
  constructor
  · intro c c0 clen pc
    simp only [swapItems_apply]
    by_cases cm : c = m
    · subst cm
      have hp : (c - 1) / 2 = i := by omega
      rw [if_pos rfl, hp, if_neg moved.symm, if_pos rfl]
      exact least i hi (.inl rfl)
    · rw [if_neg cm, if_neg pc]
      by_cases ci : c = i
      · subst ci
        rw [if_pos rfl, if_neg (by omega)]
        exact down.grand (by omega) m (by omega) hmlen (by omega)
      · rw [if_neg ci]
        by_cases pi : (c - 1) / 2 = i
        · rw [if_pos pi]
          exact least c clen (by omega)
        · rw [if_neg pi]
          exact down.except c c0 clen pi
  · intro m0 c c0 clen pc
    have hp : (m - 1) / 2 = i := by omega
    simp only [swapItems_apply]
    rw [hp, if_neg (show i ≠ m by omega), if_pos rfl, if_neg (show c ≠ m by omega),
      if_neg (show c ≠ i by omega)]
    have := down.except c c0 clen (by omega)
    rwa [pc] at this

theorem DownOrder.done {items : Nat → Nat} {len i : Nat} (down : DownOrder less items len i)
    (stored : ∀ j < len, V (items j)) (hi : i < len)
    (stop : leastChild less items len i = i) : HeapOrdered less items len := by
  intro c c0 clen
  by_cases pi : (c - 1) / 2 = i
  · have := leastChild_least order stored hi clen (c := c) (by omega)
    rwa [stop, ← pi] at this
  · exact down.except c c0 clen pi

theorem siftDown_ordered (fuel : Nat) {items : Nat → Nat} {len i : Nat}
    (down : DownOrder less items len i) (stored : ∀ j < len, V (items j)) (hi : i < len)
    (enough : len ≤ fuel + i) : HeapOrdered less (siftDown less len fuel items i) len := by
  induction fuel generalizing items i with
  | zero => omega
  | succ fuel ih =>
      simp only [siftDown]
      split_ifs with hm
      · exact down.done order stored hi hm
      · have hmlen := leastChild_lt less items hi
        have hchild := leastChild_cases less items len i
        refine ih (down.sink order stored hi rfl hm) ?_ hmlen (by omega)
        intro j hj
        rw [swapItems_apply]
        split_ifs
        · exact stored _ hi
        · exact stored _ hmlen
        · exact stored j hj

/-- The root of an ordered heap is not above any entry. -/
theorem HeapOrdered.root_least {items : Nat → Nat} {len : Nat}
    (ordered : HeapOrdered less items len) (stored : ∀ j < len, V (items j)) :
    ∀ i < len, less (items i) (items 0) = false := by
  intro i
  induction i using Nat.strong_induction_on with
  | _ i ih =>
      intro hi
      by_cases h0 : i = 0
      · subst h0
        exact order.irrefl _ (stored 0 hi)
      · have hp : (i - 1) / 2 < i := by omega
        exact order.not_less_trans (stored i hi) (stored _ (by omega)) (stored 0 (by omega))
          (ordered i (by omega) hi) (ih _ hp (by omega))

/-! ## The two operations -/

omit order in
theorem Heap.stored_of_forall {h : Heap} (members : ∀ v ∈ h.toList, V v) :
    ∀ i < h.len, V (h.items i) :=
  fun i hi => members _ (Heap.mem_toList.mpr ⟨i, hi, rfl⟩)

/-- `heap_push` keeps the heap order. -/
theorem heapPush_ordered {h h' : Heap} {v : Nat} (ordered : HeapOrdered less h.items h.len)
    (members : ∀ x ∈ h.toList, V x) (hv : V v) (pushed : heapPush less h v = some h') :
    HeapOrdered less h'.items h'.len := by
  unfold heapPush at pushed
  split_ifs at pushed
  cases pushed
  have stored : ∀ j < h.len + 1, V (Function.update h.items h.len v j) := by
    intro j hj
    by_cases hlast : j = h.len
    · subst hlast
      simpa using hv
    · rw [Function.update_of_ne hlast]
      exact Heap.stored_of_forall members j (by omega)
  refine siftUp_ordered order _ ⟨?_, ?_⟩ stored (Nat.lt_succ_self _) le_rfl
  · intro c c0 (clen : c < h.len + 1) hne
    rw [Function.update_of_ne hne, Function.update_of_ne (by omega)]
    exact ordered c c0 (by omega)
  · intro _ c _ (clen : c < h.len + 1) hparent
    omega

/-- `heap_pop` keeps the heap order. -/
theorem heapPop_ordered {h h' : Heap} {v : Nat} (ordered : HeapOrdered less h.items h.len)
    (members : ∀ x ∈ h.toList, V x) (popped : heapPop less h = some (v, h')) :
    HeapOrdered less h'.items h'.len := by
  unfold heapPop at popped
  split_ifs at popped with hpos
  cases popped
  have stored : ∀ j < h.len - 1, V (Function.update h.items 0 (h.items (h.len - 1)) j) := by
    intro j hj
    by_cases hroot : j = 0
    · subst hroot
      simpa using Heap.stored_of_forall members (h.len - 1) (by omega)
    · rw [Function.update_of_ne hroot]
      exact Heap.stored_of_forall members j (by omega)
  by_cases hlen : h.len - 1 = 0
  · intro c c0 clen
    simp only at clen
    omega
  · refine siftDown_ordered order _ ⟨?_, ?_⟩ stored (by omega) (by omega)
    · intro c c0 clen hparent
      rw [Function.update_of_ne (by omega), Function.update_of_ne hparent]
      exact ordered c c0 (by omega)
    · intro h0
      omega

/-- The root of an ordered heap is the least entry. -/
theorem Heap.root_least {h : Heap} (ordered : HeapOrdered less h.items h.len)
    (members : ∀ x ∈ h.toList, V x) :
    ∀ x ∈ h.toList, x ≠ h.items 0 → less (h.items 0) x = true := by
  intro x hx hne
  obtain ⟨i, hi, rfl⟩ := Heap.mem_toList.mp hx
  have stored := Heap.stored_of_forall members
  have notBelow := ordered.root_least order stored i hi
  rcases order.total _ _ (stored i hi) (stored 0 (by omega)) hne with below | above
  · rw [notBelow] at below
    contradiction
  · exact above

end Order

/-- The heap order depends on the comparator only through the stored values. -/
theorem HeapOrdered.congr {less less' : Nat → Nat → Bool} {items : Nat → Nat} {len : Nat}
    (ordered : HeapOrdered less items len)
    (same : ∀ i < len, ∀ j < len, less' (items i) (items j) = less (items i) (items j)) :
    HeapOrdered less' items len := by
  intro c c0 clen
  rw [same c clen _ (by omega)]
  exact ordered c c0 clen

/-! ## Whole sequences of calls -/

/-- The states that calls within capacity reach from `heap_init`, each push made
while the comparator is a strict total order on the stored values, with the
values pushed and popped so far. -/
inductive HeapRun (less : Nat → Nat → Bool) (cap : Nat) :
    List Nat → List Nat → Heap → Prop
  | init : HeapRun less cap [] [] (heapInit cap)
  | push {pushed popped : List Nat} {h h' : Heap} {v : Nat} (run : HeapRun less cap pushed popped h)
      (order : StrictTotalOn less (· ∈ v :: h.toList)) (step : heapPush less h v = some h') :
      HeapRun less cap (v :: pushed) popped h'
  | pop {pushed popped : List Nat} {h h' : Heap} {v : Nat} (run : HeapRun less cap pushed popped h)
      (step : heapPop less h = some (v, h')) : HeapRun less cap pushed (v :: popped) h'

theorem StrictTotalOn.mono {less : Nat → Nat → Bool} {V W : Nat → Prop}
    (order : StrictTotalOn less V) (sub : ∀ a, W a → V a) : StrictTotalOn less W where
  irrefl a ha := order.irrefl a (sub a ha)
  trans a b c ha hb hc := order.trans a b c (sub a ha) (sub b hb) (sub c hc)
  total a b ha hb := order.total a b (sub a ha) (sub b hb)

/-- What every reached heap satisfies. -/
structure HeapHolds (less : Nat → Nat → Bool) (pushed popped : List Nat) (h : Heap) : Prop where
  order : StrictTotalOn less (· ∈ h.toList)
  ordered : HeapOrdered less h.items h.len
  contents : (popped ++ h.toList).Perm pushed

theorem HeapHolds.init (less : Nat → Nat → Bool) (cap : Nat) :
    HeapHolds less [] [] (heapInit cap) where
  order := ⟨fun _ h => by simp at h, fun _ _ _ h => by simp at h, fun _ _ h => by simp at h⟩
  ordered := fun c _ clen => by simp [heapInit] at clen
  contents := by simp

theorem HeapHolds.push {less : Nat → Nat → Bool} {pushed popped : List Nat} {h h' : Heap} {v : Nat}
    (holds : HeapHolds less pushed popped h) (order : StrictTotalOn less (· ∈ v :: h.toList))
    (step : heapPush less h v = some h') : HeapHolds less (v :: pushed) popped h' := by
  have room : h.len < h.cap := by
    by_contra full
    simp [heapPush, full] at step
  obtain ⟨g, hg, perm, -, -⟩ := heapPush_spec less v room
  obtain rfl : g = h' := by simpa [hg] using step
  refine ⟨order.mono fun a ha => perm.mem_iff.mp ha, ?_, ?_⟩
  · exact heapPush_ordered order holds.ordered (fun x hx => List.mem_cons_of_mem v hx)
      List.mem_cons_self step
  · calc (popped ++ g.toList).Perm (popped ++ v :: h.toList) := perm.append_left popped
      _ |>.Perm (v :: (popped ++ h.toList)) := List.perm_middle
      _ |>.Perm (v :: pushed) := holds.contents.cons v

theorem HeapHolds.pop {less : Nat → Nat → Bool} {pushed popped : List Nat} {h h' : Heap} {v : Nat}
    (holds : HeapHolds less pushed popped h) (step : heapPop less h = some (v, h')) :
    HeapHolds less pushed (v :: popped) h' := by
  have nonempty : 0 < h.len := by
    by_contra empty
    simp [heapPop, empty] at step
  obtain ⟨g, hg, perm, -, -⟩ := heapPop_spec less nonempty
  obtain ⟨rfl, rfl⟩ : h.items 0 = v ∧ g = h' := by simpa [hg] using step
  refine ⟨holds.order.mono fun a ha => perm.mem_iff.mpr (List.mem_cons_of_mem _ ha), ?_, ?_⟩
  · exact heapPop_ordered holds.order holds.ordered (fun x hx => hx) step
  · calc (h.items 0 :: popped ++ g.toList).Perm (popped ++ h.items 0 :: g.toList) :=
          List.perm_middle.symm
      _ |>.Perm (popped ++ h.toList) := perm.symm.append_left popped
      _ |>.Perm pushed := holds.contents

theorem HeapRun.holds {less : Nat → Nat → Bool} {cap : Nat} {pushed popped : List Nat} {h : Heap}
    (run : HeapRun less cap pushed popped h) : HeapHolds less pushed popped h := by
  induction run with
  | init => exact .init less cap
  | push _ order step ih => exact ih.push order step
  | pop _ step ih => exact ih.pop step

theorem HeapRun.cap_eq {less : Nat → Nat → Bool} {cap : Nat} {pushed popped : List Nat} {h : Heap}
    (run : HeapRun less cap pushed popped h) : h.cap = cap := by
  induction run with
  | init => rfl
  | push _ _ step ih =>
      unfold heapPush at step
      split_ifs at step
      cases step
      exact ih
  | pop _ step ih =>
      unfold heapPop at step
      split_ifs at step
      cases step
      exact ih

/-- Every sequence of calls within capacity keeps the array in heap order and its
contents the pushed values less the popped ones; the next call succeeds within
capacity, and a pop returns the least value present. -/
theorem heap_run_correct {less : Nat → Nat → Bool} {cap : Nat} {pushed popped : List Nat}
    {h : Heap} (run : HeapRun less cap pushed popped h) :
    HeapOrdered less h.items h.len ∧
    (h.toList : Multiset Nat) = (pushed : Multiset Nat) - (popped : Multiset Nat) ∧
    (popped : Multiset Nat) ≤ (pushed : Multiset Nat) ∧
    (∀ v, h.len < cap → ∃ h', heapPush less h v = some h') ∧
    (0 < h.len → ∃ v h', heapPop less h = some (v, h')) ∧
    (∀ v h', heapPop less h = some (v, h') →
      v ∈ h.toList ∧ ∀ x ∈ h.toList, x ≠ v → less v x = true) := by
  have holds := run.holds
  have sum : (popped : Multiset Nat) + (h.toList : Multiset Nat) = pushed := by
    rw [Multiset.coe_add]
    exact Multiset.coe_eq_coe.mpr holds.contents
  refine ⟨holds.ordered, ?_, ?_, ?_, ?_, ?_⟩
  · rw [← sum, Multiset.add_comm, Multiset.add_sub_cancel_right]
  · rw [← sum]
    exact Multiset.le_add_right _ _
  · intro v room
    obtain ⟨h', step, -⟩ := heapPush_spec less v (run.cap_eq.symm ▸ room)
    exact ⟨h', step⟩
  · intro nonempty
    obtain ⟨h', step, -⟩ := heapPop_spec less nonempty
    exact ⟨_, h', step⟩
  · intro v h' step
    have nonempty : 0 < h.len := by
      by_contra empty
      simp [heapPop, empty] at step
    obtain ⟨g, hg, perm, -, -⟩ := heapPop_spec less nonempty
    obtain ⟨rfl, rfl⟩ : h.items 0 = v ∧ g = h' := by simpa [hg] using step
    exact ⟨perm.mem_iff.mpr List.mem_cons_self,
      Heap.root_least holds.order holds.ordered fun x hx => hx⟩

/-- The natural order on indices, pushed out of order and popped once. -/
theorem heap_run_correct_three :
    ∃ h : Heap, HeapRun (fun a b => decide (a < b)) 3 [1, 2, 3] [1] h ∧
      HeapOrdered (fun a b => decide (a < b)) h.items h.len := by
  have order : ∀ V : Nat → Prop, StrictTotalOn (fun a b => decide (a < b)) V := fun V =>
    ⟨fun a _ => by simp, fun a b c _ _ _ => by simp only [decide_eq_true_eq]; omega,
      fun a b _ _ => by simp only [decide_eq_true_eq]; omega⟩
  have run : HeapRun (fun a b => decide (a < b)) 3 [1, 2, 3] [1] _ :=
    .pop (.push (.push (.push .init (order _) rfl) (order _) rfl) (order _) rfl) rfl
  exact ⟨_, run, (heap_run_correct run).1⟩

end CpuSched
