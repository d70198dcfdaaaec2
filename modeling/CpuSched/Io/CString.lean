import CpuSched.Workload.Core
import Mathlib.Data.List.DropRight
import Mathlib.Tactic.Common

/-!
# C strings and their numbers

A C string is the list of its bytes before the NUL.  `parse_i64` of `src/io/input.c`
accepts exactly the base-10 numerals of the 64-bit range, with an optional sign and
leading zeros, and nothing around them.
-/

namespace CpuSched

/-- The bytes of a string before its NUL. -/
abbrev CString := List UInt8

/-- A string literal of the source. -/
def cstr (s : String) : CString := s.toList.map fun c => c.toNat.toUInt8

/-- The bytes of a string in a message. -/
def showBytes (s : CString) : String := String.ofList (s.map fun b => Char.ofNat b.toNat)

/-- `isspace` of the C locale. -/
def isSpace (b : UInt8) : Bool := b = 32 ∨ (9 ≤ b ∧ b ≤ 13)

/-- `isdigit`. -/
def isDigit (b : UInt8) : Bool := 48 ≤ b ∧ b ≤ 57

/-- The value of a string of digits. -/
def digitsValue (digits : CString) : Nat :=
  digits.foldl (fun value d => 10 * value + (d.toNat - 48)) 0

/-- What `strtoll` returns, whether it sets `errno` to `ERANGE`, and where it stops. -/
structure Strtoll where
  value : Int
  rangeError : Bool
  rest : CString
  deriving DecidableEq, Repr

/-- `strtoll(s, &end, 10)` of the C library: white space, a sign, digits.  Without digits
nothing is read, and a value outside the range becomes the nearest end of it. -/
def strtoll (s : CString) : Strtoll :=
  let t := s.dropWhile isSpace
  let negative := t.head? = some 45
  let u := if t.head? = some 45 ∨ t.head? = some 43 then t.tail else t
  let digits := u.takeWhile isDigit
  let rest := u.dropWhile isDigit
  if digits = [] then ⟨0, false, s⟩
  else
    let value : Int := if negative then -(digitsValue digits : Int) else digitsValue digits
    if value < int64Min then ⟨int64Min, true, rest⟩
    else if int64Max < value then ⟨int64Max, true, rest⟩
    else ⟨value, false, rest⟩

/-- `parse_i64`. -/
def parseI64 : CString → Option Int
  | [] => none
  | b :: rest =>
      if isSpace b then none
      else
        let r := strtoll (b :: rest)
        if r.rangeError = true ∨ r.rest ≠ [] then none else some r.value

theorem startsWith_iff {s t : CString} : s.isPrefixOf t = true ↔ s <+: t :=
  List.isPrefixOf_iff_prefix

/-! ## Numerals -/

/-- A base-10 numeral and its value: digits with an optional sign. -/
inductive Numeral : CString → Int → Prop
  | unsigned {digits : CString} (nonempty : digits ≠ []) (all : ∀ d ∈ digits, isDigit d = true) :
      Numeral digits (digitsValue digits)
  | plus {digits : CString} (nonempty : digits ≠ []) (all : ∀ d ∈ digits, isDigit d = true) :
      Numeral (43 :: digits) (digitsValue digits)
  | minus {digits : CString} (nonempty : digits ≠ []) (all : ∀ d ∈ digits, isDigit d = true) :
      Numeral (45 :: digits) (-(digitsValue digits : Int))

theorem isDigit_iff {b : UInt8} : isDigit b = true ↔ 48 ≤ b.toNat ∧ b.toNat ≤ 57 := by
  simp [isDigit, UInt8.le_iff_toNat_le]

theorem isSpace_iff {b : UInt8} :
    isSpace b = true ↔ b.toNat = 32 ∨ (9 ≤ b.toNat ∧ b.toNat ≤ 13) := by
  simp [isSpace, UInt8.le_iff_toNat_le, ← UInt8.toNat_inj]

theorem isSpace_of_isDigit {b : UInt8} (digit : isDigit b = true) : isSpace b = false := by
  have := isDigit_iff.mp digit
  rw [Bool.eq_false_iff]
  intro space
  have := isSpace_iff.mp space
  omega

theorem takeWhile_all {α : Type} {p : α → Bool} {xs : List α} (all : ∀ x ∈ xs, p x = true) :
    xs.takeWhile p = xs := List.takeWhile_eq_self_iff.mpr all

theorem dropWhile_all {α : Type} {p : α → Bool} {xs : List α} (all : ∀ x ∈ xs, p x = true) :
    xs.dropWhile p = [] := List.dropWhile_eq_nil_iff.mpr all

/-- The digits of a numeral stop `strtoll` only at its end. -/
theorem Numeral.strtoll_eq {s : CString} {v : Int} (numeral : Numeral s v) (fits : InI64 v) :
    strtoll s = ⟨v, false, []⟩ := by
  obtain ⟨low, high⟩ := fits
  have plain : ∀ {digits : CString}, digits ≠ [] → (∀ d ∈ digits, isDigit d = true) →
      digits.head? ≠ some 45 ∧ digits.head? ≠ some 43 ∧ digits.dropWhile isSpace = digits := by
    intro digits nonempty all
    obtain ⟨d, rest, rfl⟩ := List.exists_cons_of_ne_nil nonempty
    have digit := all d List.mem_cons_self
    have range := isDigit_iff.mp digit
    refine ⟨?_, ?_, List.dropWhile_cons_of_neg (by simp [isSpace_of_isDigit digit])⟩
    · rintro ⟨⟩
      simp at range
    · rintro ⟨⟩
      simp at range
  cases numeral with
  | unsigned nonempty all =>
      obtain ⟨notMinus, notPlus, start⟩ := plain nonempty all
      simp only [strtoll, start, notMinus, notPlus, or_self, if_false, takeWhile_all all,
        dropWhile_all all, nonempty]
      rw [if_neg (by omega), if_neg (by omega)]
  | plus nonempty all =>
      have start : ∀ digits : CString, (43 :: digits).dropWhile isSpace = 43 :: digits :=
        fun digits => List.dropWhile_cons_of_neg (by decide)
      simp only [strtoll, start, List.head?_cons, List.tail_cons, or_true, if_true,
        takeWhile_all all, dropWhile_all all, nonempty, if_false]
      simp only [show ¬(some (43 : UInt8) = some 45) by decide, if_false]
      rw [if_neg (by omega), if_neg (by omega)]
  | minus nonempty all =>
      have start : ∀ digits : CString, (45 :: digits).dropWhile isSpace = 45 :: digits :=
        fun digits => List.dropWhile_cons_of_neg (by decide)
      simp only [strtoll, start, List.head?_cons, List.tail_cons, true_or, if_true,
        takeWhile_all all, dropWhile_all all, nonempty, if_false]
      rw [if_neg (by omega), if_neg (by omega)]

theorem Numeral.head {s : CString} {v : Int} (numeral : Numeral s v) :
    ∃ b rest, s = b :: rest ∧ isSpace b = false := by
  cases numeral with
  | unsigned nonempty all =>
      obtain ⟨d, rest, rfl⟩ := List.exists_cons_of_ne_nil nonempty
      exact ⟨d, rest, rfl, isSpace_of_isDigit (all d List.mem_cons_self)⟩
  | plus => exact ⟨_, _, rfl, by decide⟩
  | minus => exact ⟨_, _, rfl, by decide⟩

theorem takeWhile_eq_of_dropWhile {α : Type} {p : α → Bool} {xs : List α}
    (none : xs.dropWhile p = []) : xs.takeWhile p = xs := by
  have split := List.takeWhile_append_dropWhile (p := p) (l := xs)
  rwa [none, List.append_nil] at split

/-- Where `strtoll` reads a whole string without a range error, it is a numeral. -/
theorem numeral_of_strtoll {s : CString} (nonempty : s ≠ [])
    (start : s.dropWhile isSpace = s) (noRange : (strtoll s).rangeError = false)
    (whole : (strtoll s).rest = []) :
    Numeral s (strtoll s).value ∧ InI64 (strtoll s).value := by
  obtain ⟨u, u_eq⟩ : ∃ u, u = if s.head? = some 45 ∨ s.head? = some 43 then s.tail else s :=
    ⟨_, rfl⟩
  simp only [strtoll, start, ← u_eq] at noRange whole ⊢
  by_cases empty : u.takeWhile isDigit = []
  · rw [if_pos empty] at whole
    exact absurd whole nonempty
  rw [if_neg empty] at noRange whole ⊢
  obtain ⟨v, v_eq⟩ : ∃ v : Int, v = if s.head? = some 45 then
      -(digitsValue (u.takeWhile isDigit) : Int) else digitsValue (u.takeWhile isDigit) := ⟨_, rfl⟩
  simp only [← v_eq] at noRange whole ⊢
  by_cases low : v < int64Min
  · rw [if_pos low] at noRange
    cases noRange
  by_cases high : int64Max < v
  · rw [if_neg low, if_pos high] at noRange
    cases noRange
  rw [if_neg low, if_neg high] at whole ⊢
  refine ⟨?_, not_lt.mp low, not_lt.mp high⟩
  have digits : u.takeWhile isDigit = u := takeWhile_eq_of_dropWhile whole
  have all : ∀ d ∈ u, isDigit d = true := List.takeWhile_eq_self_iff.mp digits
  rw [digits] at empty v_eq
  rw [v_eq]
  by_cases minus : s.head? = some 45
  · obtain ⟨rest, rfl⟩ := List.head?_eq_some_iff.mp minus
    obtain rfl : u = rest := by simpa using u_eq
    rw [if_pos minus]
    exact .minus empty all
  rw [if_neg minus]
  by_cases plus : s.head? = some 43
  · obtain ⟨rest, rfl⟩ := List.head?_eq_some_iff.mp plus
    obtain rfl : u = rest := by simpa using u_eq
    exact .plus empty all
  · rw [if_neg (not_or.mpr ⟨minus, plus⟩)] at u_eq
    rw [← u_eq]
    exact .unsigned empty all

/-- `parse_i64` accepts exactly the numerals of the 64-bit range. -/
theorem parseI64_eq_some_iff {s : CString} {v : Int} :
    parseI64 s = some v ↔ Numeral s v ∧ InI64 v := by
  constructor
  · intro parsed
    cases s with
    | nil => simp [parseI64] at parsed
    | cons b rest =>
        simp only [parseI64] at parsed
        split_ifs at parsed with space bad
        obtain ⟨noRange, noRest⟩ := not_or.mp bad
        obtain ⟨numeral, fits⟩ := numeral_of_strtoll (List.cons_ne_nil b rest)
          (List.dropWhile_cons_of_neg space) (by simpa using noRange) (not_not.mp noRest)
        obtain rfl := Option.some.inj parsed
        exact ⟨numeral, fits⟩
  · rintro ⟨numeral, fits⟩
    obtain ⟨b, rest, rfl, space⟩ := numeral.head
    simp only [parseI64, space, numeral.strtoll_eq fits]
    simp

/-! ## Failures -/

/-- A sequence of two steps succeeds where both do. -/
theorem exceptBind_ok_iff {ε α β : Type} {x : Except ε α} {f : α → Except ε β} {r : β} :
    x >>= f = .ok r ↔ ∃ a, x = .ok a ∧ f a = .ok r := by
  cases x with
  | error err =>
      constructor
      · intro failed
        cases failed
      · rintro ⟨a, ⟨⟩, -⟩
  | ok a =>
      constructor
      · exact fun done => ⟨a, rfl, done⟩
      · rintro ⟨_, ⟨⟩, done⟩
        exact done

end CpuSched
