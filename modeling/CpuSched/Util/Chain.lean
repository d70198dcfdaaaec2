import Mathlib.Data.List.Basic
import Mathlib.Data.List.Nodup
import Mathlib.Logic.Function.Basic

/-!
# Linked lists in arrays

Several queues share one array `next` of links.  `Chain next xs` says that the
links spell the list `xs`; `Separate` queues have no entry in common, so a write
to the links of one queue does not show in the others.
-/

namespace CpuSched

/-- The links lead along the list and end with it. -/
def Chain (next : Nat → Option Nat) : List Nat → Prop
  | [] => True
  | p :: rest => next p = rest.head? ∧ Chain next rest

namespace Chain

variable {next next' : Nat → Option Nat} {xs ys : List Nat}

theorem congr (chain : Chain next xs) (same : ∀ p ∈ xs, next' p = next p) : Chain next' xs := by
  induction xs with
  | nil => trivial
  | cons p rest ih =>
      simp only [List.mem_cons, forall_eq_or_imp] at same
      exact ⟨same.1.trans chain.1, ih chain.2 same.2⟩

/-- A write to a link outside the list does not show. -/
theorem update (chain : Chain next xs) {p : Nat} (outside : p ∉ xs) (link : Option Nat) :
    Chain (Function.update next p link) xs :=
  chain.congr fun _ hq => Function.update_of_ne (ne_of_mem_of_not_mem hq outside) ..

theorem cons (chain : Chain next xs) {p : Nat} (outside : p ∉ xs) :
    Chain (Function.update next p xs.head?) (p :: xs) :=
  ⟨Function.update_self .., chain.update outside _⟩

/-- The link of the last entry leads to the next list. -/
theorem join (left : Chain next xs) (right : Chain next ys) {last : Nat}
    (last_eq : xs.getLast? = some last) (nodup : xs.Nodup) (outside : last ∉ ys) :
    Chain (Function.update next last ys.head?) (xs ++ ys) := by
  induction xs with
  | nil => simp at last_eq
  | cons x rest ih =>
      obtain ⟨notMem, nodup⟩ := List.nodup_cons.mp nodup
      cases rest with
      | nil =>
          simp only [List.getLast?_singleton, Option.some.injEq] at last_eq
          subst last_eq
          exact right.cons outside
      | cons y rest =>
          rw [List.getLast?_cons_cons] at last_eq
          have hne : x ≠ last := by
            rintro rfl
            exact notMem (List.mem_of_getLast? last_eq)
          exact ⟨by rw [Function.update_of_ne hne, left.1]; rfl, ih left.2 last_eq nodup⟩

/-- Writes the link of an entry, if there is one. -/
def link (next : Nat → Option Nat) (at_ : Option Nat) (to_ : Option Nat) : Nat → Option Nat :=
  match at_ with
  | none => next
  | some t => Function.update next t to_

@[simp]
theorem link_none (to_ : Option Nat) : link next none to_ = next := rfl

@[simp]
theorem link_some (t : Nat) (to_ : Option Nat) :
    link next (some t) to_ = Function.update next t to_ := rfl

/-- The write does not show elsewhere. -/
theorem link_of_not_mem {at_ : Option Nat} {q : Nat} (apart : ∀ t, at_ = some t → q ≠ t)
    (to_ : Option Nat) : link next at_ to_ q = next q := by
  cases at_ with
  | none => rfl
  | some t => exact Function.update_of_ne (apart t rfl) ..

theorem left (chain : Chain next (xs ++ ys)) (empty : ys = []) : Chain next xs := by
  simpa [empty] using chain

/-- The list from some entry on. -/
theorem right (chain : Chain next (xs ++ ys)) : Chain next ys := by
  induction xs with
  | nil => exact chain
  | cons x rest ih => exact ih chain.2

/-- The last link before a list leads to it, so another list can follow. -/
theorem splice {zs : List Nat} (chain : Chain next (xs ++ ys)) (chain' : Chain next' zs)
    (same : ∀ p ∈ xs, next' p = next p) (nodup : xs.Nodup) (apart : ∀ p ∈ xs, p ∉ zs) :
    Chain (link next' xs.getLast? zs.head?) (xs ++ zs) := by
  induction xs with
  | nil => exact chain'
  | cons x rest ih =>
      obtain ⟨notMem, nodup⟩ := List.nodup_cons.mp nodup
      simp only [List.mem_cons, forall_eq_or_imp] at same apart
      cases rest with
      | nil => exact chain'.cons apart.1
      | cons y rest =>
          rw [List.getLast?_cons_cons]
          refine ⟨?_, ih chain.2 same.2 nodup apart.2⟩
          obtain ⟨t, ht⟩ : ∃ t, (y :: rest).getLast? = some t := by
            cases h : (y :: rest).getLast? with
            | none => simp at h
            | some t => exact ⟨t, rfl⟩
          have hne : x ≠ t := by
            rintro rfl
            exact notMem (List.mem_of_getLast? ht)
          rw [ht, link_some, Function.update_of_ne hne, same.1, chain.1]
          rfl

/-- An entry is linked in between. -/
theorem insert (chain : Chain next (xs ++ ys)) {p : Nat} (nodup : (xs ++ ys).Nodup)
    (fresh : p ∉ xs ++ ys) :
    Chain (link (Function.update next p ys.head?) xs.getLast? (some p)) (xs ++ p :: ys) := by
  rw [List.mem_append, not_or] at fresh
  obtain ⟨nodup₁, -, apart⟩ := List.nodup_append.mp nodup
  refine chain.splice (chain.right.cons fresh.2) (fun q hq => ?_) nodup₁
    fun q hq mem => ?_
  · exact Function.update_of_ne (ne_of_mem_of_not_mem hq fresh.1) ..
  · rcases List.mem_cons.mp mem with rfl | mem
    · exact fresh.1 hq
    · exact apart q hq q mem rfl

/-- An entry is linked out. -/
theorem remove {p : Nat} (chain : Chain next (xs ++ p :: ys)) (nodup : (xs ++ p :: ys).Nodup) :
    Chain (link next xs.getLast? (next p)) (xs ++ ys) := by
  obtain ⟨nodup₁, -, apart⟩ := List.nodup_append.mp nodup
  have rest := chain.right
  rw [rest.1]
  exact chain.splice rest.2 (fun _ _ => rfl) nodup₁ fun q hq mem =>
    apart q hq q (List.mem_cons_of_mem _ mem) rfl

end Chain

/-- The links in both directions. -/
structure DoublyLinked (next prev : Nat → Option Nat) (xs : List Nat) : Prop where
  forth : Chain next xs
  back : Chain prev xs.reverse

namespace DoublyLinked

variable {next prev next' prev' : Nat → Option Nat} {xs ys : List Nat} {p : Nat}

theorem congr (linked : DoublyLinked next prev xs) (forth : ∀ q ∈ xs, next' q = next q)
    (back : ∀ q ∈ xs, prev' q = prev q) : DoublyLinked next' prev' xs :=
  ⟨linked.forth.congr forth, linked.back.congr fun q hq => back q (List.mem_reverse.mp hq)⟩

theorem insert (linked : DoublyLinked next prev (xs ++ ys)) (nodup : (xs ++ ys).Nodup)
    (fresh : p ∉ xs ++ ys) :
    DoublyLinked (Chain.link (Function.update next p ys.head?) xs.getLast? (some p))
      (Chain.link (Function.update prev p xs.getLast?) ys.head? (some p)) (xs ++ p :: ys) := by
  refine ⟨linked.forth.insert nodup fresh, ?_⟩
  have back := linked.back
  rw [List.reverse_append] at back
  have := back.insert (p := p) (by rw [← List.reverse_append]; exact List.nodup_reverse.mpr nodup)
    (by rwa [← List.reverse_append, List.mem_reverse])
  simpa using this

theorem remove (linked : DoublyLinked next prev (xs ++ p :: ys)) (nodup : (xs ++ p :: ys).Nodup) :
    DoublyLinked (Chain.link next xs.getLast? (next p)) (Chain.link prev ys.head? (prev p))
      (xs ++ ys) := by
  refine ⟨linked.forth.remove nodup, ?_⟩
  have back := linked.back
  have hrev : (xs ++ p :: ys).reverse = ys.reverse ++ p :: xs.reverse := by simp
  rw [hrev] at back
  have := back.remove (by rw [← hrev]; exact List.nodup_reverse.mpr nodup)
  simpa using this

/-- The links of an entry in the middle. -/
theorem links (linked : DoublyLinked next prev (xs ++ p :: ys)) :
    next p = ys.head? ∧ prev p = xs.getLast? := by
  have back := linked.back
  have hrev : (xs ++ p :: ys).reverse = ys.reverse ++ p :: xs.reverse := by simp
  rw [hrev] at back
  have := back.right.1
  exact ⟨linked.forth.right.1, by simpa using this⟩

end DoublyLinked

/-- Queues without repetition and without a common entry. -/
structure Separate (qs : Nat → List Nat) : Prop where
  nodup : ∀ l, (qs l).Nodup
  apart : ∀ {l l' p}, p ∈ qs l → p ∈ qs l' → l = l'

namespace Separate

variable {qs : Nat → List Nat} (sep : Separate qs)
include sep

/-- The queues laid end to end. -/
theorem nodup_flatMap {ls : List Nat} (nodup : ls.Nodup) : (ls.flatMap qs).Nodup := by
  refine List.nodup_flatMap.mpr ⟨fun l _ => sep.nodup l, nodup.imp fun {l l'} ne p mem mem' => ?_⟩
  exact ne (sep.apart mem mem')

/-- Queue `l` changes; its new entries were in no other queue. -/
theorem update {l : Nat} {xs : List Nat} (nodup : xs.Nodup)
    (fresh : ∀ p ∈ xs, ∀ l', l' ≠ l → p ∉ qs l') : Separate (Function.update qs l xs) := by
  refine ⟨fun l' => ?_, fun {l₁ l₂ p} h₁ h₂ => ?_⟩
  · by_cases h : l' = l
    · subst h
      rwa [Function.update_self]
    · rw [Function.update_of_ne h]
      exact sep.nodup l'
  · by_cases e₁ : l₁ = l <;> by_cases e₂ : l₂ = l
    · exact e₁.trans e₂.symm
    · subst e₁
      rw [Function.update_self] at h₁
      rw [Function.update_of_ne e₂] at h₂
      exact absurd h₂ (fresh p h₁ l₂ e₂)
    · subst e₂
      rw [Function.update_of_ne e₁] at h₁
      rw [Function.update_self] at h₂
      exact absurd h₁ (fresh p h₂ l₁ e₁)
    · rw [Function.update_of_ne e₁] at h₁
      rw [Function.update_of_ne e₂] at h₂
      exact sep.apart h₁ h₂

theorem pushBack {p : Nat} (fresh : ∀ l, p ∉ qs l) (l : Nat) :
    Separate (Function.update qs l (qs l ++ [p])) := by
  refine sep.update ?_ fun q hq l' hl' mem => ?_
  · rw [List.nodup_append]
    refine ⟨sep.nodup l, List.nodup_singleton p, ?_⟩
    rintro a ha b hb rfl
    exact fresh l (List.mem_singleton.mp hb ▸ ha)
  · rcases List.mem_append.mp hq with hq | hq
    · exact hl' (sep.apart mem hq)
    · exact fresh l' (List.mem_singleton.mp hq ▸ mem)

theorem pushFront {p : Nat} (fresh : ∀ l, p ∉ qs l) (l : Nat) :
    Separate (Function.update qs l (p :: qs l)) := by
  refine sep.update (List.nodup_cons.mpr ⟨fresh l, sep.nodup l⟩) fun q hq l' hl' mem => ?_
  rcases List.mem_cons.mp hq with rfl | hq
  · exact fresh l' mem
  · exact hl' (sep.apart mem hq)

theorem pop {p l : Nat} {rest : List Nat} (queue : qs l = p :: rest) :
    Separate (Function.update qs l rest) := by
  have nodup := sep.nodup l
  rw [queue] at nodup
  refine sep.update (List.nodup_cons.mp nodup).2 fun q hq l' hl' mem => ?_
  have : q ∈ qs l := by
    rw [queue]
    exact List.mem_cons_of_mem _ hq
  exact hl' (sep.apart mem this)

/-- The popped entry is in no queue. -/
theorem pop_fresh {p l : Nat} {rest : List Nat} (queue : qs l = p :: rest) (l' : Nat) :
    p ∉ Function.update qs l rest l' := by
  have nodup := sep.nodup l
  rw [queue] at nodup
  by_cases h : l' = l
  · subst h
    rw [Function.update_self]
    exact (List.nodup_cons.mp nodup).1
  · rw [Function.update_of_ne h]
    intro mem
    exact h (sep.apart mem (by rw [queue]; exact List.mem_cons_self))

end Separate

/-- Where the entries are after a queue changed. -/
theorem exists_mem_update {qs : Nat → List Nat} {l : Nat} {xs : List Nat} {p : Nat} :
    (∃ l', p ∈ Function.update qs l xs l') ↔ p ∈ xs ∨ ∃ l', l' ≠ l ∧ p ∈ qs l' := by
  constructor
  · rintro ⟨l', mem⟩
    by_cases h : l' = l
    · subst h
      rw [Function.update_self] at mem
      exact .inl mem
    · rw [Function.update_of_ne h] at mem
      exact .inr ⟨l', h, mem⟩
  · rintro (mem | ⟨l', h, mem⟩)
    · exact ⟨l, by rwa [Function.update_self]⟩
    · exact ⟨l', by rwa [Function.update_of_ne h]⟩

end CpuSched
