import Mathlib.Data.List.Basic
import Mathlib.Tactic.Common

/-!
# Words

The words of a list are its longest runs of elements that are not separators.  A reader
that skips separators and then takes elements up to the next one reads them one by one.
-/

namespace CpuSched

variable {α : Type*} (sep : α → Bool)

/-- The parts of a list between separators that are not empty. -/
def words (l : List α) : List (List α) := (l.splitOnP sep).filter fun part => !part.isEmpty

/-- The first word of a list that starts with one, and what comes after the separator that
ends it. -/
def firstWord (l : List α) : List α × List α :=
  (l.takeWhile (!sep ·), (l.dropWhile (!sep ·)).tail)

variable {sep}

@[simp] theorem words_nil : words sep [] = [] := rfl

/-- A separator at the start is skipped. -/
theorem words_cons_sep {a : α} (isSep : sep a = true) (l : List α) :
    words sep (a :: l) = words sep l := by
  simp [words, List.splitOnP_cons_eq_if_modifyHead, isSep]

theorem words_dropWhile (l : List α) : words sep (l.dropWhile sep) = words sep l := by
  induction l with
  | nil => rfl
  | cons a l ih =>
      by_cases isSep : sep a = true
      · rw [List.dropWhile_cons_of_pos isSep, words_cons_sep isSep, ih]
      · rw [List.dropWhile_cons_of_neg isSep]

/-- A list that does not start with a separator starts with a word. -/
theorem words_firstWord {a : α} (noSep : sep a = false) (l : List α) :
    words sep (a :: l) = (firstWord sep (a :: l)).1 :: words sep (firstWord sep (a :: l)).2 := by
  have plain : ∀ x ∈ (a :: l).takeWhile (!sep ·), sep x = false := fun x mem => by
    simpa using List.all_eq_true.mp List.all_takeWhile x mem
  have starts : (a :: l).takeWhile (!sep ·) ≠ [] := by
    rw [List.takeWhile_cons_of_pos (by simp [noSep])]
    exact List.cons_ne_nil _ _
  have split := List.takeWhile_append_dropWhile (p := (!sep ·)) (l := a :: l)
  unfold firstWord words
  dsimp only
  generalize (a :: l).takeWhile (!sep ·) = word at plain starts split
  cases rest : (a :: l).dropWhile (!sep ·) with
  | nil =>
      rw [rest, List.append_nil] at split
      rw [← split, List.splitOnP_eq_singleton plain]
      simp [starts]
  | cons b rest' =>
      have isSep : sep b = true := by
        have := List.head_dropWhile_not (!sep ·) (by rw [rest]; exact List.cons_ne_nil _ _)
        simpa [rest] using this
      rw [rest] at split
      rw [← split, List.splitOnP_append_cons_of_forall_mem plain b isSep]
      simp [starts]

/-- What is left of a list after its first word. -/
theorem words_eq_cons_iff {l : List α} {word : List α} {rest : List (List α)} :
    words sep l = word :: rest ↔ l.dropWhile sep ≠ [] ∧
      (firstWord sep (l.dropWhile sep)).1 = word ∧
      words sep (firstWord sep (l.dropWhile sep)).2 = rest := by
  rw [← words_dropWhile l]
  cases starts : l.dropWhile sep with
  | nil => simp
  | cons a l' =>
      have noSep : sep a = false := by
        have := List.head_dropWhile_not sep (by rw [starts]; exact List.cons_ne_nil _ _)
        simpa [starts] using this
      rw [words_firstWord noSep]
      simp

end CpuSched
