import CpuSched.Util.HeapOrder
import CpuSched.Util.Treap

/-!
# Treaps as trees

The links of the treap spell a binary tree over the queued processes, in search
order from left to right and in heap order of the priorities, and every node
knows the least process of its subtree.  Each operation on the links is described
by the list of the nodes from left to right.
-/

namespace CpuSched

/-- The shape of a treap. -/
inductive Tree
  | leaf
  | node (l : Tree) (x : Nat) (r : Tree)

namespace Tree

def root : Tree → Option Nat
  | leaf => none
  | node _ x _ => some x

/-- The nodes from left to right. -/
def nodes : Tree → List Nat
  | leaf => []
  | node l x r => l.nodes ++ x :: r.nodes

/-- The least node, as the links record it. -/
def least (less : Nat → Nat → Bool) : Tree → Option Nat
  | leaf => none
  | node l x r => Treap.betterOf less (Treap.betterOf less (some x) (l.least less)) (r.least less)

@[simp]
theorem nodes_leaf : leaf.nodes = [] := rfl

@[simp]
theorem nodes_node (l : Tree) (x : Nat) (r : Tree) : (node l x r).nodes = l.nodes ++ x :: r.nodes :=
  rfl

@[simp]
theorem root_node (l : Tree) (x : Nat) (r : Tree) : (node l x r).root = some x := rfl

theorem root_eq_none {t : Tree} : t.root = none ↔ t = leaf := by
  cases t <;> simp [root]

end Tree

/-! ## The least node -/

theorem Treap.betterOf_mem {less : Nat → Nat → Bool} {a b : Option Nat} {m : Nat}
    (h : Treap.betterOf less a b = some m) : a = some m ∨ b = some m := by
  cases a with
  | none => exact .inr h
  | some x =>
      cases b with
      | none => exact .inl h
      | some y =>
          simp only [Treap.betterOf, Option.some.injEq] at h ⊢
          split_ifs at h
          · exact .inr h
          · exact .inl h

theorem Treap.betterOf_congr {less less' : Nat → Nat → Bool} {a b : Option Nat}
    (same : ∀ x y, a = some x → b = some y → less' y x = less y x) :
    Treap.betterOf less' a b = Treap.betterOf less a b := by
  cases a with
  | none => rfl
  | some x =>
      cases b with
      | none => rfl
      | some y => simp only [Treap.betterOf, same x y rfl rfl]

namespace Tree

variable {less less' : Nat → Nat → Bool} {tree : Tree}

theorem least_mem {m : Nat} (h : tree.least less = some m) : m ∈ tree.nodes := by
  induction tree generalizing m with
  | leaf => simp [least] at h
  | node l x r ihl ihr =>
      simp only [nodes_node, List.mem_append, List.mem_cons]
      rcases Treap.betterOf_mem h with h | h
      · rcases Treap.betterOf_mem h with h | h
        · exact .inr (.inl (Option.some.inj h).symm)
        · exact .inl (ihl h)
      · exact .inr (.inr (ihr h))

/-- The least node only depends on the order of the nodes. -/
theorem least_congr (same : ∀ a ∈ tree.nodes, ∀ b ∈ tree.nodes, less' a b = less a b) :
    tree.least less' = tree.least less := by
  induction tree with
  | leaf => rfl
  | node l x r ihl ihr =>
      simp only [nodes_node, List.mem_append, List.mem_cons] at same
      have hl := ihl fun a ha b hb => same a (.inl ha) b (.inl hb)
      have hr := ihr fun a ha b hb => same a (.inr (.inr ha)) b (.inr (.inr hb))
      have inner : Treap.betterOf less' (some x) (l.least less) =
          Treap.betterOf less (some x) (l.least less) := by
        refine Treap.betterOf_congr fun x' y hx hy => ?_
        cases hx
        exact same y (.inl (least_mem hy)) x (.inr (.inl rfl))
      rw [least, least, hl, hr, inner]
      refine Treap.betterOf_congr fun x' y hx hy => same y (.inr (.inr (least_mem hy))) x' ?_
      rcases Treap.betterOf_mem hx with hx | hx
      · exact .inr (.inl (Option.some.inj hx).symm)
      · exact .inl (least_mem hx)

end Tree

/-! ## What the links spell -/

/-- The links of all nodes outside `S` agree. -/
def SameOutside (links links' : Links) (S : List Nat) : Prop :=
  ∀ y ∉ S, links'.left y = links.left y ∧ links'.right y = links.right y ∧
    links'.best y = links.best y

namespace SameOutside

variable {links links' links'' : Links} {S S' : List Nat}

theorem mono (same : SameOutside links links' S) (sub : S ⊆ S') : SameOutside links links' S' :=
  fun y hy => same y fun h => hy (sub h)

theorem trans (h₁ : SameOutside links links' S) (h₂ : SameOutside links' links'' S) :
    SameOutside links links'' S := fun y hy =>
  ⟨(h₂ y hy).1.trans (h₁ y hy).1, (h₂ y hy).2.1.trans (h₁ y hy).2.1,
    (h₂ y hy).2.2.trans (h₁ y hy).2.2⟩

theorem setLeft (links : Links) (t : Nat) (l : Option Nat) :
    SameOutside links (Treap.setLeft links t l) [t] := fun _ hy =>
  ⟨Function.update_of_ne (List.ne_of_not_mem_cons hy) .., rfl, rfl⟩

theorem setRight (links : Links) (t : Nat) (r : Option Nat) :
    SameOutside links (Treap.setRight links t r) [t] := fun _ hy =>
  ⟨rfl, Function.update_of_ne (List.ne_of_not_mem_cons hy) .., rfl⟩

theorem pull (less : Nat → Nat → Bool) (links : Links) (t : Nat) :
    SameOutside links (Treap.pull less links t) [t] := fun _ hy =>
  ⟨rfl, rfl, Function.update_of_ne (List.ne_of_not_mem_cons hy) ..⟩

end SameOutside

/-- The links spell the tree, which is in heap order. -/
def Spells (less : Nat → Nat → Bool) (prio : Nat → BitVec 64) (links : Links) : Tree → Prop
  | .leaf => True
  | .node l x r =>
      (links.left x = l.root ∧ links.right x = r.root ∧
        some (links.best x) = (Tree.node l x r).least less) ∧
      (∀ y ∈ l.nodes ++ r.nodes, prio y ≤ prio x) ∧ Spells less prio links l ∧
        Spells less prio links r

namespace Spells

variable {less : Nat → Nat → Bool} {prio : Nat → BitVec 64} {links links' : Links} {tree : Tree}

theorem congr (spells : Spells less prio links tree)
    (same : ∀ y ∈ tree.nodes, links'.left y = links.left y ∧ links'.right y = links.right y ∧
      links'.best y = links.best y) : Spells less prio links' tree := by
  induction tree with
  | leaf => trivial
  | node l x r ihl ihr =>
      obtain ⟨⟨left, right, best⟩, heap, hl, hr⟩ := spells
      obtain ⟨left', right', best'⟩ := same x (by simp)
      exact ⟨⟨left'.trans left, right'.trans right, by rw [best', best]⟩, heap,
        ihl hl fun y hy => same y (by simp [hy]), ihr hr fun y hy => same y (by simp [hy])⟩

theorem frame {S : List Nat} (spells : Spells less prio links tree)
    (same : SameOutside links links' S) (apart : ∀ y ∈ tree.nodes, y ∉ S) :
    Spells less prio links' tree :=
  spells.congr fun y hy => same y (apart y hy)

/-- Only the order of the nodes matters. -/
theorem congr_less {less' : Nat → Nat → Bool} (spells : Spells less prio links tree)
    (same : ∀ a ∈ tree.nodes, ∀ b ∈ tree.nodes, less' a b = less a b) :
    Spells less' prio links tree := by
  induction tree with
  | leaf => trivial
  | node l x r ihl ihr =>
      obtain ⟨⟨left, right, best⟩, heap, hl, hr⟩ := spells
      refine ⟨⟨left, right, by rw [best, Tree.least_congr same]⟩, heap, ihl hl ?_, ihr hr ?_⟩
      · exact fun a ha b hb => same a (by simp [ha]) b (by simp [hb])
      · exact fun a ha b hb => same a (by simp [ha]) b (by simp [hb])

theorem best_eq (spells : Spells less prio links tree) {t : Nat} (root : tree.root = some t) :
    some (links.best t) = tree.least less := by
  cases tree with
  | leaf => simp [Tree.root] at root
  | node l x r =>
      cases root
      exact spells.1.2.2

theorem betterChild_eq (spells : Spells less prio links tree) (b : Nat) :
    some (Treap.betterChild less links b tree.root) =
      Treap.betterOf less (some b) (tree.least less) := by
  cases tree with
  | leaf => rfl
  | node l x r =>
      rw [← spells.best_eq rfl]
      rfl

/-- `pull` completes a node over two subtrees. -/
theorem pull {l r : Tree} {t : Nat} (left : links.left t = l.root) (right : links.right t = r.root)
    (hl : Spells less prio links l) (hr : Spells less prio links r)
      (notMem : t ∉ l.nodes ++ r.nodes)
    (heap : ∀ y ∈ l.nodes ++ r.nodes, prio y ≤ prio t) :
    Spells less prio (Treap.pull less links t) (.node l t r) := by
  have apart : ∀ y ∈ l.nodes ++ r.nodes, y ∉ [t] := by
    intro y hy h
    exact notMem (List.mem_singleton.mp h ▸ hy)
  refine ⟨⟨left, right, ?_⟩, heap,
    hl.frame (SameOutside.pull less links t) fun y hy => apart y (List.mem_append_left _ hy),
    hr.frame (SameOutside.pull less links t) fun y hy => apart y (List.mem_append_right _ hy)⟩
  simp only [Treap.pull, Function.update_self, Tree.least]
  rw [left, right, hr.betterChild_eq, hl.betterChild_eq]

end Spells

/-! ## The operations on the links -/

section Operations

variable {before less : Nat → Nat → Bool} {prio : Nat → BitVec 64} {V : Nat → Prop}

/-- A treap: the links spell a tree without repetition. -/
structure IsTreap (less : Nat → Nat → Bool) (prio : Nat → BitVec 64) (links : Links) (tree : Tree) :
    Prop where
  spells : Spells less prio links tree
  nodup : tree.nodes.Nodup

namespace IsTreap

variable {links links' : Links} {l r l' r' : Tree} {t : Nat}

theorem left (treap : IsTreap less prio links (.node l t r)) : IsTreap less prio links l :=
  ⟨treap.spells.2.2.1, (List.nodup_append.mp treap.nodup).1⟩

theorem right (treap : IsTreap less prio links (.node l t r)) : IsTreap less prio links r :=
  ⟨treap.spells.2.2.2, (List.nodup_cons.mp (List.nodup_append.mp treap.nodup).2.1).2⟩

theorem apart (treap : IsTreap less prio links (.node l t r)) :
    t ∉ l.nodes ++ r.nodes ∧ ∀ y ∈ l.nodes, y ∉ r.nodes := by
  obtain ⟨-, nodup, disjoint⟩ := List.nodup_append.mp treap.nodup
  refine ⟨fun mem => ?_, fun y hl hr => disjoint y hl y (List.mem_cons_of_mem _ hr) rfl⟩
  rcases List.mem_append.mp mem with h | h
  · exact disjoint t h t List.mem_cons_self rfl
  · exact (List.nodup_cons.mp nodup).1 h

theorem frame {S : List Nat} {tree : Tree} (treap : IsTreap less prio links tree)
    (same : SameOutside links links' S) (apart : ∀ y ∈ tree.nodes, y ∉ S) :
    IsTreap less prio links' tree :=
  ⟨treap.spells.frame same apart, treap.nodup⟩

/-- The root has the highest priority. -/
theorem prio_le {tree : Tree} (treap : IsTreap less prio links tree) (root : tree.root = some t) :
    ∀ y ∈ tree.nodes, prio y ≤ prio t := by
  intro y hy
  cases tree with
  | leaf => simp [Tree.root] at root
  | node l x r =>
      cases root
      simp only [Tree.nodes_node, List.mem_append, List.mem_cons] at hy
      rcases hy with h | rfl | h
      · exact treap.spells.2.1 y (by simp [h])
      · exact BitVec.le_refl _
      · exact treap.spells.2.1 y (by simp [h])

theorem nodup_node (hl : l.nodes.Nodup) (hr : r.nodes.Nodup) (notMem : t ∉ l.nodes ++ r.nodes)
    (apart : ∀ y ∈ l.nodes, y ∉ r.nodes) : (Tree.node l t r).nodes.Nodup := by
  rw [List.mem_append, not_or] at notMem
  refine List.nodup_append.mpr ⟨hl, List.nodup_cons.mpr ⟨notMem.2, hr⟩, ?_⟩
  rintro y hy z hz rfl
  rcases List.mem_cons.mp hz with rfl | hz
  · exact notMem.1 hy
  · exact apart y hy hz

/-- A node over two treaps of lower priority, after its links are written. -/
theorem join (hl : IsTreap less prio links l) (hr : IsTreap less prio links r)
    (same : SameOutside links links' [t]) (left : links'.left t = l.root)
    (right : links'.right t = r.root) (notMem : t ∉ l.nodes ++ r.nodes)
    (apart : ∀ y ∈ l.nodes, y ∉ r.nodes) (heap : ∀ y ∈ l.nodes ++ r.nodes, prio y ≤ prio t) :
    IsTreap less prio (Treap.pull less links' t) (.node l t r) ∧
      SameOutside links (Treap.pull less links' t) [t] := by
  have other : ∀ y ∈ l.nodes ++ r.nodes, y ∉ [t] := by
    intro y hy h
    exact notMem (List.mem_singleton.mp h ▸ hy)
  refine ⟨⟨Spells.pull left right ?_ ?_ notMem heap,
    nodup_node hl.nodup hr.nodup notMem apart⟩, same.trans (SameOutside.pull less links' t)⟩
  · exact hl.spells.frame same fun y hy => other y (List.mem_append_left _ hy)
  · exact hr.spells.frame same fun y hy => other y (List.mem_append_right _ hy)

/-- The right subtree was rebuilt from the nodes of `S`. -/
theorem rebuildRight {S : List Nat} (treap : IsTreap less prio links (.node l t r))
    (new : IsTreap less prio links' r') (same : SameOutside links links' S)
    (outside : ∀ y ∈ t :: l.nodes, y ∉ S) (sub : r'.nodes ⊆ S)
    (heap : ∀ y ∈ r'.nodes, prio y ≤ prio t) :
    IsTreap less prio (Treap.pull less (Treap.setRight links' t r'.root) t) (.node l t r') ∧
      SameOutside links' (Treap.pull less (Treap.setRight links' t r'.root) t) [t] := by
  have notMem := treap.apart.1
  rw [List.mem_append, not_or] at notMem
  have ht := outside t List.mem_cons_self
  have hl := fun y hy => outside y (List.mem_cons_of_mem t hy)
  refine join (treap.left.frame same hl) new (SameOutside.setRight links' t _) ?_
    (Function.update_self ..) ?_ (fun y hy h => hl y hy (sub h)) ?_
  · exact (same t ht).1.trans treap.spells.1.1
  · rw [List.mem_append, not_or]
    exact ⟨notMem.1, fun h => ht (sub h)⟩
  · intro y hy
    rcases List.mem_append.mp hy with hy | hy
    · exact treap.spells.2.1 y (List.mem_append_left _ hy)
    · exact heap y hy

/-- The left subtree was rebuilt from the nodes of `S`. -/
theorem rebuildLeft {S : List Nat} (treap : IsTreap less prio links (.node l t r))
    (new : IsTreap less prio links' l') (same : SameOutside links links' S)
    (outside : ∀ y ∈ t :: r.nodes, y ∉ S) (sub : l'.nodes ⊆ S)
    (heap : ∀ y ∈ l'.nodes, prio y ≤ prio t) :
    IsTreap less prio (Treap.pull less (Treap.setLeft links' t l'.root) t) (.node l' t r) ∧
      SameOutside links' (Treap.pull less (Treap.setLeft links' t l'.root) t) [t] := by
  have notMem := treap.apart.1
  rw [List.mem_append, not_or] at notMem
  have ht := outside t List.mem_cons_self
  have hr := fun y hy => outside y (List.mem_cons_of_mem t hy)
  refine join new (treap.right.frame same hr) (SameOutside.setLeft links' t _)
    (Function.update_self ..) ?_ ?_ (fun y hy h => hr y h (sub hy)) ?_
  · exact (same t ht).2.1.trans treap.spells.1.2.1
  · rw [List.mem_append, not_or]
    exact ⟨fun h => ht (sub h), notMem.2⟩
  · intro y hy
    rcases List.mem_append.mp hy with hy | hy
    · exact heap y hy
    · exact treap.spells.2.1 y (List.mem_append_right _ hy)

end IsTreap

/-! ### Splitting and merging -/

/-- The nodes are valid and stand in search order. -/
structure Sorted (before : Nat → Nat → Bool) (V : Nat → Prop) (xs : List Nat) : Prop where
  valid : ∀ y ∈ xs, V y
  sorted : xs.Pairwise fun a b => before a b = true

theorem Sorted.node {l r : Tree} {t : Nat} (sorted : Sorted before V (Tree.node l t r).nodes) :
    Sorted before V l.nodes ∧ Sorted before V r.nodes ∧ V t ∧
      (∀ y ∈ l.nodes, before y t = true) ∧ ∀ y ∈ r.nodes, before t y = true := by
  obtain ⟨hl, hr, cross⟩ := List.pairwise_append.mp sorted.sorted
  obtain ⟨ht, hr⟩ := List.pairwise_cons.mp hr
  have valid := sorted.valid
  simp only [Tree.nodes_node, List.mem_append, List.mem_cons] at valid
  exact ⟨⟨fun y hy => valid y (.inl hy), hl⟩, ⟨fun y hy => valid y (.inr (.inr hy)), hr⟩,
    valid t (.inr (.inl rfl)), fun y hy => cross y hy t List.mem_cons_self, ht⟩

/-- `split` cuts the list of nodes at `x`. -/
theorem split_spec (order : StrictTotalOn before V) {x : Nat} (vx : V x) (tree : Tree)
    {links : Links} {d : Nat} (treap : IsTreap less prio links tree)
    (sorted : Sorted before V tree.nodes) (enough : tree.nodes.length < d) :
    ∃ links' a b, Treap.split before less d links tree.root x =
        some (links', a.root, b.root) ∧
      IsTreap less prio links' a ∧ IsTreap less prio links' b ∧ a.nodes ++ b.nodes = tree.nodes ∧
      (∀ y ∈ a.nodes, before y x = true) ∧ (∀ y ∈ b.nodes, before y x = false) ∧
      SameOutside links links' tree.nodes := by
  induction tree generalizing links d with
  | leaf =>
      cases d with
      | zero => simp at enough
      | succ d =>
          exact ⟨links, .leaf, .leaf, rfl, treap, treap, rfl, by simp, by simp,
            fun _ _ => ⟨rfl, rfl, rfl⟩⟩
  | node l t r ihl ihr =>
      obtain ⟨sl, sr, vt, lt, tr⟩ := sorted.node
      obtain ⟨notMem, apart⟩ := treap.apart
      rw [List.mem_append, not_or] at notMem
      simp only [Tree.nodes_node, List.length_append, List.length_cons] at enough
      cases d with
      | zero => omega
      | succ d =>
          by_cases ht : before t x = true
          · obtain ⟨links₁, a, b, split, ha, hb, nodes, before_a, before_b, same⟩ :=
              ihr treap.right sr (d := d) (by omega)
            have mem_r : ∀ y, y ∈ r.nodes ↔ y ∈ a.nodes ∨ y ∈ b.nodes := by
              intro y
              rw [← nodes, List.mem_append]
            obtain ⟨new, same'⟩ := treap.rebuildRight ha same (by
                intro y hy
                rcases List.mem_cons.mp hy with rfl | hy
                · exact notMem.2
                · exact apart y hy) (fun y hy => (mem_r y).mpr (.inl hy))
              (fun y hy => treap.spells.2.1 y (by simp [(mem_r y).mpr (.inl hy)]))
            refine ⟨_, .node l t a, b, ?_, new, hb.frame same' fun y hy h => ?_, ?_, fun y hy => ?_,
              before_b, ?_⟩
            · simp only [Tree.root_node, Treap.split, ht, if_true]
              rw [treap.spells.1.2.1, split]
              rfl
            · rw [List.mem_singleton] at h
              exact notMem.2 ((mem_r t).mpr (.inr (h ▸ hy)))
            · simp [← nodes]
            · simp only [Tree.nodes_node, List.mem_append, List.mem_cons] at hy
              rcases hy with hy | rfl | hy
              · exact order.trans y t x (sl.valid y hy) vt vx (lt y hy) ht
              · exact ht
              · exact before_a y hy
            · exact (same.mono fun y hy => by simp [hy]).trans (same'.mono (by simp))
          · have ht := Bool.eq_false_iff.mpr ht
            obtain ⟨links₁, a, b, split, ha, hb, nodes, before_a, before_b, same⟩ :=
              ihl treap.left sl (d := d) (by omega)
            have mem_l : ∀ y, y ∈ l.nodes ↔ y ∈ a.nodes ∨ y ∈ b.nodes := by
              intro y
              rw [← nodes, List.mem_append]
            obtain ⟨new, same'⟩ := treap.rebuildLeft hb same (by
                intro y hy
                rcases List.mem_cons.mp hy with rfl | hy
                · exact notMem.1
                · exact fun h => apart y h hy) (fun y hy => (mem_l y).mpr (.inr hy))
              (fun y hy => treap.spells.2.1 y (by simp [(mem_l y).mpr (.inr hy)]))
            refine ⟨_, a, .node b t r, ?_, ha.frame same' fun y hy h => ?_, new, ?_, before_a,
              fun y hy => ?_, ?_⟩
            · simp only [Tree.root_node, Treap.split, ht]
              rw [treap.spells.1.1, split]
              rfl
            · rw [List.mem_singleton] at h
              exact notMem.1 ((mem_l t).mpr (.inl (h ▸ hy)))
            · simp [← nodes]
            · simp only [Tree.nodes_node, List.mem_append, List.mem_cons] at hy
              rcases hy with hy | rfl | hy
              · exact before_b y hy
              · exact ht
              · by_contra h
                have := order.trans t y x vt (sr.valid y hy) vx (tr y hy) (by simpa using h)
                rw [ht] at this
                exact absurd this (by simp)
            · exact (same.mono fun y hy => by simp [hy]).trans (same'.mono (by simp))

/-- `merge` puts the nodes of `b` behind those of `a`. -/
theorem merge_spec {links : Links} {d : Nat} {a b : Tree} (ha : IsTreap less prio links a)
    (hb : IsTreap less prio links b) (apart : ∀ y ∈ a.nodes, y ∉ b.nodes)
    (enough : a.nodes.length + b.nodes.length < d) :
    ∃ links' tree, Treap.merge less prio d links a.root b.root = some (links', tree.root) ∧
      IsTreap less prio links' tree ∧ tree.nodes = a.nodes ++ b.nodes ∧
      SameOutside links links' (a.nodes ++ b.nodes) := by
  induction d generalizing links a b with
  | zero => omega
  | succ d ih =>
      cases a with
      | leaf => exact ⟨links, b, rfl, hb, rfl, fun _ _ => ⟨rfl, rfl, rfl⟩⟩
      | node al at_ ar =>
        cases b with
        | leaf => exact ⟨links, .node al at_ ar, rfl, ha, by simp, fun _ _ => ⟨rfl, rfl, rfl⟩⟩
        | node bl bt br =>
          simp only [Tree.nodes_node, List.length_append, List.length_cons] at enough
          simp only [Tree.nodes_node, List.mem_append, List.mem_cons] at apart
          obtain ⟨notMem_a, apart_a⟩ := ha.apart
          obtain ⟨notMem_b, apart_b⟩ := hb.apart
          rw [List.mem_append, not_or] at notMem_a notMem_b
          by_cases higher : prio bt < prio at_
          · obtain ⟨links₁, tree, merged, ht, nodes, same⟩ := ih ha.right hb
              (fun y hy h => apart y (.inr (.inr hy)) (by simpa using h))
              (by simp only [Tree.nodes_node, List.length_append, List.length_cons]; omega)
            obtain ⟨new, same'⟩ := ha.rebuildRight ht same (by
                intro y hy h
                rcases List.mem_append.mp h with h | h
                · rcases List.mem_cons.mp hy with rfl | hy
                  · exact notMem_a.2 h
                  · exact apart_a y hy h
                · refine apart y ?_ (by simpa using h)
                  rcases List.mem_cons.mp hy with rfl | hy
                  · exact .inr (.inl rfl)
                  · exact .inl hy) (fun y hy => by rwa [← nodes])
              (fun y hy => by
                rw [nodes] at hy
                rcases List.mem_append.mp hy with hy | hy
                · exact ha.spells.2.1 y (List.mem_append_right _ hy)
                · exact BitVec.le_trans (hb.prio_le rfl y hy) (BitVec.le_of_lt higher))
            refine ⟨_, .node al at_ tree, ?_, new, by simp [nodes], ?_⟩
            · simp only [Tree.root_node, Treap.merge, higher, if_true]
              rw [ha.spells.1.2.1]
              rw [show some bt = (Tree.node bl bt br).root from rfl, merged]
              rfl
            · refine (same.mono fun y hy => ?_).trans (same'.mono (by simp))
              simp only [Tree.nodes_node, List.mem_append, List.mem_cons] at hy ⊢
              tauto
          · obtain ⟨links₁, tree, merged, ht, nodes, same⟩ := ih ha hb.left
              (fun y hy h => apart y (by simpa using hy) (.inl h))
              (by simp only [Tree.nodes_node, List.length_append, List.length_cons]; omega)
            obtain ⟨new, same'⟩ := hb.rebuildLeft ht same (by
                intro y hy h
                rcases List.mem_append.mp h with h | h
                · refine apart y (by simpa using h) ?_
                  rcases List.mem_cons.mp hy with rfl | hy
                  · exact .inr (.inl rfl)
                  · exact .inr (.inr hy)
                · rcases List.mem_cons.mp hy with rfl | hy
                  · exact notMem_b.1 h
                  · exact apart_b y h hy) (fun y hy => by rwa [← nodes])
              (fun y hy => by
                rw [nodes] at hy
                rcases List.mem_append.mp hy with hy | hy
                · exact BitVec.le_trans (ha.prio_le rfl y hy) (BitVec.not_lt.mp higher)
                · exact hb.spells.2.1 y (List.mem_append_left _ hy))
            refine ⟨_, .node tree bt br, ?_, new, by simp [nodes], ?_⟩
            · simp only [Tree.root_node, Treap.merge, higher, if_false]
              rw [hb.spells.1.1]
              rw [show some at_ = (Tree.node al at_ ar).root from rfl, merged]
              rfl
            · refine (same.mono fun y hy => ?_).trans (same'.mono (by simp))
              simp only [Tree.nodes_node, List.mem_append, List.mem_cons] at hy ⊢
              tauto

/-! ### Insertion and removal -/

theorem IsTreap.single {links : Links} {x : Nat} (left : links.left x = none)
    (right : links.right x = none) (best : links.best x = x) :
    IsTreap less prio links (.node .leaf x .leaf) :=
  ⟨⟨⟨left, right, by rw [best]; rfl⟩, by simp, trivial, trivial⟩, by simp⟩

/-- `insert` puts the new node where it belongs in the search order. -/
theorem insert_spec (order : StrictTotalOn before V) {x : Nat} (vx : V x) (tree : Tree)
    {links : Links} {d : Nat} (treap : IsTreap less prio links tree)
    (sorted : Sorted before V tree.nodes) (fresh : x ∉ tree.nodes)
    (single : IsTreap less prio links (.node .leaf x .leaf)) (enough : tree.nodes.length < d) :
    ∃ links' root tree' xs ys, Treap.insert before less prio d links tree.root x =
        some (links', root) ∧ tree'.root = some root ∧
      IsTreap less prio links' tree' ∧ tree.nodes = xs ++ ys ∧ tree'.nodes = xs ++ x :: ys ∧
      (∀ y ∈ xs, before y x = true) ∧ (∀ y ∈ ys, before x y = true) ∧
      SameOutside links links' (x :: tree.nodes) := by
  induction tree generalizing links d with
  | leaf =>
      cases d with
      | zero => simp at enough
      | succ d =>
          exact ⟨links, x, .node .leaf x .leaf, [], [], rfl, rfl, single, rfl, rfl, by simp,
            by simp, fun _ _ => ⟨rfl, rfl, rfl⟩⟩
  | node l t r ihl ihr =>
      obtain ⟨sl, sr, vt, lt, tr⟩ := sorted.node
      obtain ⟨notMem, apart⟩ := treap.apart
      rw [List.mem_append, not_or] at notMem
      have ne : x ≠ t := by
        rintro rfl
        exact fresh (by simp)
      have fresh_l : x ∉ l.nodes := fun h => fresh (by simp [h])
      have fresh_r : x ∉ r.nodes := fun h => fresh (by simp [h])
      cases d with
      | zero => omega
      | succ d =>
          by_cases higher : prio t < prio x
          · obtain ⟨links₁, a, b, split, ha, hb, nodes, before_a, before_b, same⟩ :=
              split_spec order vx (.node l t r) treap sorted enough
            have mem_ab : ∀ y, y ∈ (Tree.node l t r).nodes ↔ y ∈ a.nodes ∨ y ∈ b.nodes := by
              intro y
              rw [← nodes, List.mem_append]
            have nodup : (a.nodes ++ b.nodes).Nodup := nodes ▸ treap.nodup
            have wrote : SameOutside links₁
                (Treap.setRight (Treap.setLeft links₁ x a.root) x b.root) [x] :=
              (SameOutside.setLeft links₁ x _).trans (SameOutside.setRight _ x _)
            obtain ⟨new, same'⟩ := ha.join hb wrote (Function.update_self ..)
              (Function.update_self ..) (by rwa [nodes])
              (fun y hy h => (List.nodup_append.mp nodup).2.2 y hy y h rfl)
              (fun y hy => by
                rw [nodes] at hy
                exact BitVec.le_trans (treap.prio_le rfl y hy) (BitVec.le_of_lt higher))
            refine ⟨_, x, .node a x b, a.nodes, b.nodes, ?_, rfl, new, nodes.symm, rfl, before_a,
              fun y hy => ?_, ?_⟩
            · simp only [Tree.root_node, Treap.insert, higher, if_true]
              rw [show some t = (Tree.node l t r).root from rfl, split]
              rfl
            · have hy' := (mem_ab y).mpr (.inr hy)
              have hne : y ≠ x := fun h => fresh (h ▸ hy')
              refine (order.total y x (sorted.valid y hy') vx hne).resolve_left ?_
              rw [before_b y hy]
              simp
            · exact (same.mono fun y hy => List.mem_cons_of_mem _ hy).trans
                (same'.mono (by simp))
          · have lower := BitVec.not_lt.mp higher
            simp only [Tree.nodes_node, List.length_append, List.length_cons] at enough
            by_cases hx : before x t = true
            · obtain ⟨links₁, root, l', xs, ys, inserted, root_eq, hl', split, nodes, before_xs,
                before_ys, same⟩ := ihl treap.left sl fresh_l single (d := d) (by omega)
              have mem_l' : ∀ y, y ∈ l'.nodes ↔ y = x ∨ y ∈ l.nodes := by
                intro y
                simp only [nodes, split, List.mem_append, List.mem_cons]
                tauto
              obtain ⟨new, same'⟩ := treap.rebuildLeft hl' same (by
                  intro y hy h
                  rcases List.mem_cons.mp h with rfl | h
                  · rcases List.mem_cons.mp hy with h | h
                    · exact ne h
                    · exact fresh_r h
                  · rcases List.mem_cons.mp hy with rfl | hy
                    · exact notMem.1 h
                    · exact apart y h hy)
                (fun y hy => List.mem_cons.mpr ((mem_l' y).mp hy))
                (fun y hy => by
                  rcases (mem_l' y).mp hy with rfl | hy
                  · exact lower
                  · exact treap.spells.2.1 y (List.mem_append_left _ hy))
              rw [root_eq] at new same'
              refine ⟨_, t, .node l' t r, xs, ys ++ t :: r.nodes, ?_, rfl, new, by simp [split],
                by simp [nodes], before_xs, fun y hy => ?_, ?_⟩
              · simp only [Tree.root_node, Treap.insert, higher, if_false, hx, if_true]
                rw [treap.spells.1.1, inserted]
                rfl
              · rcases List.mem_append.mp hy with hy | hy
                · exact before_ys y hy
                · rcases List.mem_cons.mp hy with rfl | hy
                  · exact hx
                  · exact order.trans x t y vx vt (sr.valid y hy) hx (tr y hy)
              · refine (same.mono fun y hy => ?_).trans (same'.mono (by simp))
                simp only [Tree.nodes_node, List.mem_append, List.mem_cons] at hy ⊢
                tauto
            · have htx : before t x = true := (order.total t x vt vx ne.symm).resolve_right hx
              obtain ⟨links₁, root, r', xs, ys, inserted, root_eq, hr', split, nodes, before_xs,
                before_ys, same⟩ := ihr treap.right sr fresh_r single (d := d) (by omega)
              have mem_r' : ∀ y, y ∈ r'.nodes ↔ y = x ∨ y ∈ r.nodes := by
                intro y
                simp only [nodes, split, List.mem_append, List.mem_cons]
                tauto
              obtain ⟨new, same'⟩ := treap.rebuildRight hr' same (by
                  intro y hy h
                  rcases List.mem_cons.mp h with rfl | h
                  · rcases List.mem_cons.mp hy with h | h
                    · exact ne h
                    · exact fresh_l h
                  · rcases List.mem_cons.mp hy with rfl | hy
                    · exact notMem.2 h
                    · exact apart y hy h)
                (fun y hy => List.mem_cons.mpr ((mem_r' y).mp hy))
                (fun y hy => by
                  rcases (mem_r' y).mp hy with rfl | hy
                  · exact lower
                  · exact treap.spells.2.1 y (List.mem_append_right _ hy))
              rw [root_eq] at new same'
              refine ⟨_, t, .node l t r', l.nodes ++ t :: xs, ys, ?_, rfl, new, by simp [split],
                by simp [nodes], fun y hy => ?_, before_ys, ?_⟩
              · simp only [Tree.root_node, Treap.insert, higher, if_false, hx]
                rw [treap.spells.1.2.1, inserted]
                rfl
              · rcases List.mem_append.mp hy with hy | hy
                · exact order.trans y t x (sl.valid y hy) vt vx (lt y hy) htx
                · rcases List.mem_cons.mp hy with rfl | hy
                  · exact htx
                  · exact before_xs y hy
              · refine (same.mono fun y hy => ?_).trans (same'.mono (by simp))
                simp only [Tree.nodes_node, List.mem_append, List.mem_cons] at hy ⊢
                tauto

/-- `erase` takes the node out of the list. -/
theorem erase_spec (order : StrictTotalOn before V) {x : Nat} (tree : Tree)
    {links : Links} {d : Nat} (treap : IsTreap less prio links tree)
    (sorted : Sorted before V tree.nodes) (mem : x ∈ tree.nodes)
    (enough : tree.nodes.length < d) :
    ∃ links' tree' xs ys, Treap.erase before less prio d links tree.root x =
        some (links', tree'.root) ∧
      IsTreap less prio links' tree' ∧ tree.nodes = xs ++ x :: ys ∧ tree'.nodes = xs ++ ys ∧
      SameOutside links links' tree.nodes := by
  induction tree generalizing links d with
  | leaf => simp at mem
  | node l t r ihl ihr =>
      obtain ⟨sl, sr, vt, lt, tr⟩ := sorted.node
      obtain ⟨notMem, apart⟩ := treap.apart
      rw [List.mem_append, not_or] at notMem
      simp only [Tree.nodes_node, List.length_append, List.length_cons] at enough
      simp only [Tree.nodes_node, List.mem_append, List.mem_cons] at mem
      cases d with
      | zero => omega
      | succ d =>
          by_cases here : t = x
          · subst here
            obtain ⟨links', tree', merged, ht, nodes, same⟩ := merge_spec (d := d + 1)
              treap.left treap.right apart (by omega)
            refine ⟨links', tree', l.nodes, r.nodes, ?_, ht, rfl, nodes, same.mono ?_⟩
            · simp only [Tree.root_node, Treap.erase, if_true]
              rw [treap.spells.1.1, treap.spells.1.2.1, merged]
            · intro y hy
              simp only [Tree.nodes_node, List.mem_append, List.mem_cons] at hy ⊢
              tauto
          · by_cases hx : before x t = true
            · have in_l : x ∈ l.nodes := by
                rcases mem with h | h | h
                · exact h
                · exact absurd h.symm here
                · have := order.asymm vt (sr.valid x h) (tr x h)
                  rw [hx] at this
                  exact absurd this (by simp)
              obtain ⟨links₁, l', xs, ys, erased, hl', split, nodes, same⟩ :=
                ihl treap.left sl in_l (d := d) (by omega)
              have sub : l'.nodes ⊆ l.nodes := by
                intro y hy
                rw [nodes] at hy
                simp only [split, List.mem_append, List.mem_cons] at hy ⊢
                tauto
              obtain ⟨new, same'⟩ := treap.rebuildLeft hl' same (by
                  intro y hy h
                  rcases List.mem_cons.mp hy with rfl | hy
                  · exact notMem.1 h
                  · exact apart y h hy) sub
                (fun y hy => treap.spells.2.1 y (List.mem_append_left _ (sub hy)))
              refine ⟨_, .node l' t r, xs, ys ++ t :: r.nodes, ?_, new, by simp [split],
                by simp [nodes], ?_⟩
              · simp only [Tree.root_node, Treap.erase, here, if_false, hx, if_true]
                rw [treap.spells.1.1, erased]
                rfl
              · exact (same.mono fun y hy => by simp [hy]).trans (same'.mono (by simp))
            · have in_r : x ∈ r.nodes := by
                rcases mem with h | h | h
                · exact absurd (lt x h) hx
                · exact absurd h.symm here
                · exact h
              obtain ⟨links₁, r', xs, ys, erased, hr', split, nodes, same⟩ :=
                ihr treap.right sr in_r (d := d) (by omega)
              have sub : r'.nodes ⊆ r.nodes := by
                intro y hy
                rw [nodes] at hy
                simp only [split, List.mem_append, List.mem_cons] at hy ⊢
                tauto
              obtain ⟨new, same'⟩ := treap.rebuildRight hr' same (by
                  intro y hy h
                  rcases List.mem_cons.mp hy with rfl | hy
                  · exact notMem.2 h
                  · exact apart y hy h) sub
                (fun y hy => treap.spells.2.1 y (List.mem_append_right _ (sub hy)))
              refine ⟨_, .node l t r', l.nodes ++ t :: xs, ys, ?_, new, by simp [split],
                by simp [nodes], ?_⟩
              · simp only [Tree.root_node, Treap.erase, here, if_false, hx]
                rw [treap.spells.1.2.1, erased]
                rfl
              · exact (same.mono fun y hy => by simp [hy]).trans (same'.mono (by simp))

end Operations

/-! ## Queries -/

section Queries

variable {less : Nat → Nat → Bool} {prio : Nat → BitVec 64} {V : Nat → Prop} {links : Links}

/-- The least member of a set of processes, if it has one. -/
structure LeastOf (less : Nat → Nat → Bool) (S : Nat → Prop) (m : Option Nat) : Prop where
  mem : ∀ x, m = some x → S x
  least : ∀ y, S y → ∃ x, m = some x ∧ (y ≠ x → less x y = true)

namespace LeastOf

variable {S S' : Nat → Prop} {m m' : Option Nat}

theorem congr (h : LeastOf less S m) (same : ∀ y, S' y ↔ S y) : LeastOf less S' m :=
  ⟨fun x hx => (same x).mpr (h.mem x hx), fun y hy => h.least y ((same y).mp hy)⟩

theorem none (empty : ∀ y, ¬S y) : LeastOf less S none :=
  ⟨by simp, fun y hy => absurd hy (empty y)⟩

theorem single (x : Nat) : LeastOf less (· = x) (some x) :=
  ⟨by rintro y ⟨⟩; rfl, fun y hy => ⟨x, rfl, fun ne => absurd hy ne⟩⟩

theorem eq_none (h : LeastOf less S Option.none) : ∀ y, ¬S y := by
  intro y hy
  obtain ⟨x, hx, -⟩ := h.least y hy
  cases hx

/-- `better_of` is the least member of a union. -/
theorem union (order : StrictTotalOn less V) (h : LeastOf less S m) (h' : LeastOf less S' m')
    (vS : ∀ y, S y → V y) (vS' : ∀ y, S' y → V y) :
    LeastOf less (fun y => S y ∨ S' y) (Treap.betterOf less m m') := by
  cases m with
  | none => exact h'.congr fun y => or_iff_right (h.eq_none y)
  | some x =>
    cases m' with
    | none => exact h.congr fun y => or_iff_left (h'.eq_none y)
    | some x' =>
      have hx := h.mem x rfl
      have hx' := h'.mem x' rfl
      have low : ∀ y, S y → y ≠ x → less x y = true := fun y hy => by
        obtain ⟨_, ⟨⟩, h⟩ := h.least y hy
        exact h
      have low' : ∀ y, S' y → y ≠ x' → less x' y = true := fun y hy => by
        obtain ⟨_, ⟨⟩, h⟩ := h'.least y hy
        exact h
      by_cases swap : less x' x = true
      · simp only [Treap.betterOf, swap, if_true]
        refine ⟨by rintro _ ⟨⟩; exact .inr hx', fun y hy => ⟨x', rfl, fun ne => ?_⟩⟩
        rcases hy with hy | hy
        · by_cases same : y = x
          · rwa [same]
          · exact order.trans x' x y (vS' x' hx') (vS x hx) (vS y hy) swap (low y hy same)
        · exact low' y hy ne
      · simp only [Treap.betterOf, swap]
        refine ⟨by rintro _ ⟨⟩; exact .inl hx, fun y hy => ⟨x, rfl, fun ne => ?_⟩⟩
        rcases hy with hy | hy
        · exact low y hy ne
        · by_cases same : x = x'
          · rw [same]
            exact low' y hy (by rwa [← same])
          · have less_x : less x x' = true :=
              (order.total x x' (vS x hx) (vS' x' hx') same).resolve_right swap
            by_cases same' : y = x'
            · rwa [same']
            · exact order.trans x x' y (vS x hx) (vS' x' hx') (vS' y hy) less_x (low' y hy same')

end LeastOf

/-- The recorded minimum is the least node. -/
theorem Tree.least_spec (order : StrictTotalOn less V) (tree : Tree)
    (valid : ∀ y ∈ tree.nodes, V y) :
    LeastOf less (· ∈ tree.nodes) (tree.least less) := by
  induction tree with
  | leaf => exact .none (by simp)
  | node l x r ihl ihr =>
      simp only [Tree.nodes_node, List.mem_append, List.mem_cons] at valid
      have hl := ihl fun y hy => valid y (.inl hy)
      have hr := ihr fun y hy => valid y (.inr (.inr hy))
      have hxl := (LeastOf.single x).union order hl
        (fun y hy => valid y (.inr (.inl hy))) fun y hy => valid y (.inl hy)
      refine (hxl.union order hr (fun y hy => ?_) fun y hy => valid y (.inr (.inr hy))).congr
        fun y => ?_
      · rcases hy with hy | hy
        · exact valid y (.inr (.inl hy))
        · exact valid y (.inl hy)
      · simp only [Tree.nodes_node, List.mem_append, List.mem_cons]
        tauto

theorem betterSubtree_eq {tree : Tree} (spells : Spells less prio links tree) (res : Option Nat) :
    Treap.betterSubtree less links res tree.root = Treap.betterOf less res (tree.least less) := by
  cases tree with
  | leaf => cases res <;> rfl
  | node l x r =>
      rw [← spells.best_eq rfl]
      rfl

/-- The nodes are valid and stand in order of `r`. -/
structure Monotone (r : Nat → Int) (V : Nat → Prop) (xs : List Nat) : Prop where
  valid : ∀ y ∈ xs, V y
  sorted : xs.Pairwise fun a b => r a ≤ r b

theorem Monotone.node {rank : Nat → Int} {l r : Tree} {t : Nat}
    (mono : Monotone rank V (Tree.node l t r).nodes) :
    Monotone rank V l.nodes ∧ Monotone rank V r.nodes ∧ V t ∧
      (∀ y ∈ l.nodes, rank y ≤ rank t) ∧ ∀ y ∈ r.nodes, rank t ≤ rank y := by
  obtain ⟨hl, hr, cross⟩ := List.pairwise_append.mp mono.sorted
  obtain ⟨ht, hr⟩ := List.pairwise_cons.mp hr
  have valid := mono.valid
  simp only [Tree.nodes_node, List.mem_append, List.mem_cons] at valid
  exact ⟨⟨fun y hy => valid y (.inl hy), hl⟩, ⟨fun y hy => valid y (.inr (.inr hy)), hr⟩,
    valid t (.inr (.inl rfl)), fun y hy => cross y hy t List.mem_cons_self, ht⟩

/-- `best_below` adds the nodes below the limit to the candidates. -/
theorem bestBelow_spec (order : StrictTotalOn less V) {rank : Nat → Int} {k : Int} (tree : Tree)
    {d : Nat} {S : Nat → Prop} {res : Option Nat} (spells : Spells less prio links tree)
    (mono : Monotone rank V tree.nodes) (enough : tree.nodes.length < d)
    (hres : LeastOf less S res) (vS : ∀ y, S y → V y) :
    ∃ m, Treap.bestBelow less links rank k d res tree.root = some m ∧
      LeastOf less (fun y => S y ∨ (y ∈ tree.nodes ∧ rank y < k)) m := by
  induction tree generalizing d S res with
  | leaf =>
      cases d with
      | zero => simp at enough
      | succ d => exact ⟨res, rfl, hres.congr (by simp)⟩
  | node l t r ihl ihr =>
      obtain ⟨ml, mr, vt, lt, tr⟩ := mono.node
      simp only [Tree.nodes_node, List.length_append, List.length_cons] at enough
      cases d with
      | zero => omega
      | succ d =>
          by_cases below : rank t < k
          · have here := hres.union order (LeastOf.single t) vS fun y hy => hy ▸ vt
            have both := here.union order (l.least_spec order ml.valid)
              (fun y hy => hy.elim (vS y) fun h => h ▸ vt) ml.valid
            obtain ⟨m, found, least⟩ := ihr (d := d) spells.2.2.2 mr (by omega) both
              (fun y hy => hy.elim (fun hy => hy.elim (vS y) fun h => h ▸ vt) (ml.valid y))
            refine ⟨m, ?_, least.congr fun y => ?_⟩
            · simp only [Tree.root_node, Treap.bestBelow, below, if_true]
              rw [spells.1.1, spells.1.2.1, betterSubtree_eq spells.2.2.1, found]
            · simp only [Tree.nodes_node, List.mem_append, List.mem_cons]
              constructor
              · rintro (h | ⟨h | rfl | h, hlt⟩)
                · exact .inl (.inl (.inl h))
                · exact .inl (.inr h)
                · exact .inl (.inl (.inr rfl))
                · exact .inr ⟨h, hlt⟩
              · rintro (((h | rfl) | h) | ⟨h, hlt⟩)
                · exact .inl h
                · exact .inr ⟨.inr (.inl rfl), below⟩
                · exact .inr ⟨.inl h, by have := lt y h; omega⟩
                · exact .inr ⟨.inr (.inr h), hlt⟩
          · obtain ⟨m, found, least⟩ := ihl (d := d) spells.2.2.1 ml (by omega) hres vS
            refine ⟨m, ?_, least.congr fun y => ?_⟩
            · simp only [Tree.root_node, Treap.bestBelow, below, if_false]
              rw [spells.1.1, found]
            · simp only [Tree.nodes_node, List.mem_append, List.mem_cons]
              constructor
              · rintro (h | ⟨h | rfl | h, hlt⟩)
                · exact .inl h
                · exact .inr ⟨h, hlt⟩
                · exact absurd hlt below
                · have := tr y h
                  omega
              · rintro (h | ⟨h, hlt⟩)
                · exact .inl h
                · exact .inr ⟨.inl h, hlt⟩

/-- `best_at_or_above` adds the nodes at or above the limit. -/
theorem bestAtOrAbove_spec (order : StrictTotalOn less V) {rank : Nat → Int} {k : Int}
    (tree : Tree) {d : Nat} {S : Nat → Prop} {res : Option Nat}
    (spells : Spells less prio links tree) (mono : Monotone rank V tree.nodes)
    (enough : tree.nodes.length < d) (hres : LeastOf less S res) (vS : ∀ y, S y → V y) :
    ∃ m, Treap.bestAtOrAbove less links rank k d res tree.root = some m ∧
      LeastOf less (fun y => S y ∨ (y ∈ tree.nodes ∧ k ≤ rank y)) m := by
  induction tree generalizing d S res with
  | leaf =>
      cases d with
      | zero => simp at enough
      | succ d => exact ⟨res, rfl, hres.congr (by simp)⟩
  | node l t r ihl ihr =>
      obtain ⟨ml, mr, vt, lt, tr⟩ := mono.node
      simp only [Tree.nodes_node, List.length_append, List.length_cons] at enough
      cases d with
      | zero => omega
      | succ d =>
          by_cases above : k ≤ rank t
          · have here := hres.union order (LeastOf.single t) vS fun y hy => hy ▸ vt
            have both := here.union order (r.least_spec order mr.valid)
              (fun y hy => hy.elim (vS y) fun h => h ▸ vt) mr.valid
            obtain ⟨m, found, least⟩ := ihl (d := d) spells.2.2.1 ml (by omega) both
              (fun y hy => hy.elim (fun hy => hy.elim (vS y) fun h => h ▸ vt) (mr.valid y))
            refine ⟨m, ?_, least.congr fun y => ?_⟩
            · simp only [Tree.root_node, Treap.bestAtOrAbove, above, if_true]
              rw [spells.1.1, spells.1.2.1, betterSubtree_eq spells.2.2.2, found]
            · simp only [Tree.nodes_node, List.mem_append, List.mem_cons]
              constructor
              · rintro (h | ⟨h | rfl | h, hle⟩)
                · exact .inl (.inl (.inl h))
                · exact .inr ⟨h, hle⟩
                · exact .inl (.inl (.inr rfl))
                · exact .inl (.inr h)
              · rintro (((h | rfl) | h) | ⟨h, hle⟩)
                · exact .inl h
                · exact .inr ⟨.inr (.inl rfl), above⟩
                · exact .inr ⟨.inr (.inr h), by have := tr y h; omega⟩
                · exact .inr ⟨.inl h, hle⟩
          · obtain ⟨m, found, least⟩ := ihr (d := d) spells.2.2.2 mr (by omega) hres vS
            refine ⟨m, ?_, least.congr fun y => ?_⟩
            · simp only [Tree.root_node, Treap.bestAtOrAbove, above, if_false]
              rw [spells.1.2.1, found]
            · simp only [Tree.nodes_node, List.mem_append, List.mem_cons]
              constructor
              · rintro (h | ⟨h | rfl | h, hle⟩)
                · exact .inl h
                · have := lt y h
                  omega
                · exact absurd hle above
                · exact .inr ⟨h, hle⟩
              · rintro (h | ⟨h, hle⟩)
                · exact .inl h
                · exact .inr ⟨.inr (.inr h), hle⟩

/-- `max_r_below` is the largest rank below the limit, or the default. -/
theorem maxRBelow_spec {rank : Nat → Int} {k : Int} (tree : Tree) {d : Nat} {a : Int}
    (spells : Spells less prio links tree) (mono : Monotone rank V tree.nodes)
    (enough : tree.nodes.length < d) :
    ∃ m, Treap.maxRBelow links rank k d a tree.root = some m ∧
      ((m = a ∧ ∀ y ∈ tree.nodes, k ≤ rank y) ∨
        ∃ y ∈ tree.nodes, rank y = m ∧ m < k ∧
          ∀ z ∈ tree.nodes, rank z < k → rank z ≤ m) := by
  induction tree generalizing d a with
  | leaf =>
      cases d with
      | zero => simp at enough
      | succ d => exact ⟨a, rfl, .inl ⟨rfl, by simp⟩⟩
  | node l t r ihl ihr =>
      obtain ⟨ml, mr, -, lt, tr⟩ := mono.node
      simp only [Tree.nodes_node, List.length_append, List.length_cons] at enough
      simp only [Tree.nodes_node, List.mem_append, List.mem_cons]
      cases d with
      | zero => omega
      | succ d =>
          by_cases below : rank t < k
          · obtain ⟨m, found, result⟩ := ihr (d := d) spells.2.2.2 mr
              (by omega)
            refine ⟨m, ?_, .inr ?_⟩
            · simp only [Tree.root_node, Treap.maxRBelow, below, if_true]
              rw [spells.1.2.1, found]
            · rcases result with ⟨rfl, above⟩ | ⟨y, hy, rfl, hlt, most⟩
              · refine ⟨t, .inr (.inl rfl), rfl, below, fun z hz hlt => ?_⟩
                rcases hz with hz | rfl | hz
                · exact lt z hz
                · exact le_rfl
                · have := above z hz
                  omega
              · refine ⟨y, .inr (.inr hy), rfl, hlt, fun z hz hz' => ?_⟩
                rcases hz with hz | rfl | hz
                · exact (lt z hz).trans (tr y hy)
                · exact tr y hy
                · exact most z hz hz'
          · obtain ⟨m, found, result⟩ := ihl (d := d) spells.2.2.1 ml (by omega)
            refine ⟨m, ?_, ?_⟩
            · simp only [Tree.root_node, Treap.maxRBelow, below, if_false]
              rw [spells.1.1, found]
            · rcases result with ⟨rfl, above⟩ | ⟨y, hy, rfl, hlt, most⟩
              · refine .inl ⟨rfl, fun z hz => ?_⟩
                rcases hz with hz | rfl | hz
                · exact above z hz
                · omega
                · have := tr z hz
                  omega
              · refine .inr ⟨y, .inl hy, rfl, hlt, fun z hz hz' => ?_⟩
                rcases hz with hz | rfl | hz
                · exact most z hz hz'
                · omega
                · have := tr z hz
                  omega

/-- `max_r` is the largest rank. -/
theorem maxR_spec {rank : Nat → Int} (tree : Tree) {d : Nat} {t : Nat}
    (root : tree.root = some t) (spells : Spells less prio links tree)
    (mono : Monotone rank V tree.nodes) (enough : tree.nodes.length ≤ d) :
    ∃ m, Treap.maxR links rank d t = some m ∧
      (∃ y ∈ tree.nodes, rank y = m) ∧ ∀ z ∈ tree.nodes, rank z ≤ m := by
  induction tree generalizing d t with
  | leaf => simp [Tree.root] at root
  | node l x r _ ihr =>
      cases root
      obtain ⟨-, mr, -, lt, tr⟩ := mono.node
      simp only [Tree.nodes_node, List.length_append, List.length_cons] at enough
      simp only [Tree.nodes_node, List.mem_append, List.mem_cons]
      cases d with
      | zero => omega
      | succ d =>
          cases hroot : r.root with
          | none =>
              refine ⟨rank x, ?_, ⟨x, .inr (.inl rfl), rfl⟩, fun z hz => ?_⟩
              · simp only [Treap.maxR]
                rw [spells.1.2.1, hroot]
              · rw [Tree.root_eq_none.mp hroot] at hz
                rcases hz with hz | rfl | hz
                · exact lt z hz
                · exact le_rfl
                · simp at hz
          | some u =>
              obtain ⟨m, found, ⟨y, hy, rank_y⟩, most⟩ := ihr (d := d) hroot spells.2.2.2
                mr (by omega)
              refine ⟨m, ?_, ⟨y, .inr (.inr hy), rank_y⟩, fun z hz => ?_⟩
              · simp only [Treap.maxR]
                rw [spells.1.2.1, hroot]
                exact found
              · rcases hz with hz | rfl | hz
                · exact (lt z hz).trans ((tr y hy).trans (most y hy))
                · exact (tr y hy).trans (most y hy)
                · exact most z hz

end Queries

end CpuSched
