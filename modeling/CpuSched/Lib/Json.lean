import Mathlib.Data.List.Forall2
import Mathlib.Tactic.Common

/-!
# JSON texts

The values of JSON and the texts that write them.  What a number says is a parameter, and
so is the type of numbers.  The grammar is that part of JSON whose strings have no escapes
and no bytes outside ASCII; the names of an object are distinct.
-/

namespace CpuSched

/-- A JSON value with numbers in `ν`. -/
inductive Json (ν : Type)
  | null
  | bool (b : Bool)
  | num (x : ν)
  | str (s : List UInt8)
  | arr (vs : List (Json ν))
  | obj (ms : List (List UInt8 × Json ν))

namespace Json

/-- White space between tokens. -/
def Blank (s : List UInt8) : Prop := ∀ b ∈ s, b = 32 ∨ b = 9 ∨ b = 10 ∨ b = 13

/-- A byte that stands for itself in a string. -/
def plainByte (b : UInt8) : Bool := 32 ≤ b ∧ b ≤ 126 ∧ b ≠ 34 ∧ b ≠ 92

/-- A string without escapes. -/
def Plain (s : List UInt8) : Prop := ∀ b ∈ s, plainByte b = true

/-- A string with its quotation marks. -/
def quoted (s : List UInt8) : List UInt8 := 34 :: (s ++ [34])

/-- `null`. -/
def nullBytes : List UInt8 := [110, 117, 108, 108]

/-- `true` and `false`. -/
def boolBytes : Bool → List UInt8
  | true => [116, 114, 117, 101]
  | false => [102, 97, 108, 115, 101]

variable {ν : Type} (N : List UInt8 → ν → Prop)

mutual

/-- The text of a value. -/
inductive ValueText : List UInt8 → Json ν → Prop
  | null : ValueText nullBytes .null
  | bool (b : Bool) : ValueText (boolBytes b) (.bool b)
  | num {t : List UInt8} {x : ν} (text : N t x) : ValueText t (.num x)
  | str {s : List UInt8} (plain : Plain s) : ValueText (quoted s) (.str s)
  | emptyArr {a : List UInt8} (blank : Blank a) : ValueText (91 :: (a ++ [93])) (.arr [])
  | arr {t : List UInt8} {vs : List (Json ν)} (elements : ElementsText t vs) :
      ValueText (91 :: (t ++ [93])) (.arr vs)
  | emptyObj {a : List UInt8} (blank : Blank a) : ValueText (123 :: (a ++ [125])) (.obj [])
  | obj {t : List UInt8} {ms : List (List UInt8 × Json ν)} (members : MembersText t ms)
      (distinct : (ms.map Prod.fst).Nodup) : ValueText (123 :: (t ++ [125])) (.obj ms)

/-- The text of one or more values with commas between them. -/
inductive ElementsText : List UInt8 → List (Json ν) → Prop
  | one {t : List UInt8} {v : Json ν} (value : ValueText t v) : ElementsText t [v]
  | pad {a t b : List UInt8} {vs : List (Json ν)} (before : Blank a) (elements : ElementsText t vs)
      (after : Blank b) : ElementsText (a ++ (t ++ b)) vs
  | more {t u : List UInt8} {vs vs' : List (Json ν)} (elements : ElementsText t vs)
      (others : ElementsText u vs') : ElementsText (t ++ 44 :: u) (vs ++ vs')

/-- The text of one or more members of an object with commas between them. -/
inductive MembersText : List UInt8 → List (List UInt8 × Json ν) → Prop
  | one {s a b t : List UInt8} {v : Json ν} (plain : Plain s) (before : Blank a) (after : Blank b)
      (value : ValueText t v) : MembersText (quoted s ++ (a ++ 58 :: (b ++ t))) [(s, v)]
  | pad {a t b : List UInt8} {ms : List (List UInt8 × Json ν)} (before : Blank a)
      (members : MembersText t ms) (after : Blank b) : MembersText (a ++ (t ++ b)) ms
  | more {t u : List UInt8} {ms ms' : List (List UInt8 × Json ν)} (members : MembersText t ms)
      (others : MembersText u ms') : MembersText (t ++ 44 :: u) (ms ++ ms')

end

/-- The text of a document. -/
def DocumentText (t : List UInt8) (v : Json ν) : Prop :=
  ∃ a u b, Blank a ∧ Blank b ∧ t = a ++ (u ++ b) ∧ ValueText N u v

variable {N}

theorem Blank.nil : Blank [] := fun _ mem => absurd mem List.not_mem_nil

theorem ElementsText.before {a t : List UInt8} {vs : List (Json ν)} (blank : Blank a)
    (elements : ElementsText N t vs) : ElementsText N (a ++ t) vs := by
  have padded := elements.pad blank .nil
  rwa [List.append_nil] at padded

theorem ElementsText.after {t b : List UInt8} {vs : List (Json ν)}
    (elements : ElementsText N t vs) (blank : Blank b) : ElementsText N (t ++ b) vs :=
  elements.pad .nil blank

theorem MembersText.before {a t : List UInt8} {ms : List (List UInt8 × Json ν)} (blank : Blank a)
    (members : MembersText N t ms) : MembersText N (a ++ t) ms := by
  have padded := members.pad blank .nil
  rwa [List.append_nil] at padded

theorem MembersText.after {t b : List UInt8} {ms : List (List UInt8 × Json ν)}
    (members : MembersText N t ms) (blank : Blank b) : MembersText N (t ++ b) ms :=
  members.pad .nil blank

/-- Members with a comma and white space between any two. -/
theorem MembersText.intercalate {b : List UInt8} (blank : Blank b) {ts : List (List UInt8)}
    {ms : List (List UInt8 × Json ν)} (nonempty : ts ≠ [])
    (each : List.Forall₂ (fun t m => MembersText N t [m]) ts ms) :
    MembersText N ((44 :: b).intercalate ts) ms := by
  induction each with
  | nil => exact absurd rfl nonempty
  | @cons t m ts ms first rest ih =>
      cases rest with
      | nil => simpa [List.intercalate] using first
      | cons second others =>
          rw [List.intercalate_cons_cons, List.append_assoc, List.cons_append]
          exact first.more ((ih (List.cons_ne_nil _ _)).before blank)

/-- Values with a comma and white space between any two. -/
theorem ElementsText.intercalate {b : List UInt8} (blank : Blank b) {ts : List (List UInt8)}
    {vs : List (Json ν)} (nonempty : ts ≠ [])
    (each : List.Forall₂ (fun t v => ElementsText N t [v]) ts vs) :
    ElementsText N ((44 :: b).intercalate ts) vs := by
  induction each with
  | nil => exact absurd rfl nonempty
  | @cons t v ts vs first rest ih =>
      cases rest with
      | nil => simpa [List.intercalate] using first
      | cons second others =>
          rw [List.intercalate_cons_cons, List.append_assoc, List.cons_append]
          exact first.more ((ih (List.cons_ne_nil _ _)).before blank)

/-- An array on lines of its own, also when it has no elements. -/
theorem ValueText.arr_of {a b t : List UInt8} {vs : List (Json ν)} (before : Blank a)
    (after : Blank b) (rows : t = [] ∧ vs = [] ∨ ElementsText N t vs) :
    ValueText N (91 :: (a ++ (t ++ b) ++ [93])) (.arr vs) := by
  rcases rows with ⟨rfl, rfl⟩ | elements
  · refine .emptyArr fun c mem => ?_
    rw [List.nil_append, List.mem_append] at mem
    exact mem.elim (before c) (after c)
  · exact .arr (elements.pad before after)

/-! ## The numbers of a value -/

mutual

/-- The numbers of a value, from left to right. -/
def numbers : Json ν → List ν
  | null => []
  | bool _ => []
  | num x => [x]
  | str _ => []
  | arr vs => elementNumbers vs
  | obj ms => memberNumbers ms

/-- The numbers of an array. -/
def elementNumbers : List (Json ν) → List ν
  | [] => []
  | v :: vs => v.numbers ++ elementNumbers vs

/-- The numbers of an object. -/
def memberNumbers : List (List UInt8 × Json ν) → List ν
  | [] => []
  | (_, v) :: ms => v.numbers ++ memberNumbers ms

end

theorem elementNumbers_append (vs vs' : List (Json ν)) :
    elementNumbers (vs ++ vs') = elementNumbers vs ++ elementNumbers vs' := by
  induction vs with
  | nil => rfl
  | cons v vs ih => rw [List.cons_append, elementNumbers, elementNumbers, ih, List.append_assoc]

theorem memberNumbers_append (ms ms' : List (List UInt8 × Json ν)) :
    memberNumbers (ms ++ ms') = memberNumbers ms ++ memberNumbers ms' := by
  induction ms with
  | nil => rfl
  | cons m ms ih => rw [List.cons_append, memberNumbers, memberNumbers, ih, List.append_assoc]

/-- A text is one in another sense where its numbers are. -/
theorem ValueText.mono {N' : List UInt8 → ν → Prop} {P : ν → Prop}
    (same : ∀ t x, N t x → P x → N' t x) {t : List UInt8} {v : Json ν} (text : ValueText N t v)
    (all : ∀ x ∈ v.numbers, P x) : ValueText N' t v := by
  -- the texts of values, of elements and of members are one induction
  refine @ValueText.rec ν N (fun t v _ => (∀ x ∈ v.numbers, P x) → ValueText N' t v)
    (fun t vs _ => (∀ x ∈ elementNumbers vs, P x) → ElementsText N' t vs)
    (fun t ms _ => (∀ x ∈ memberNumbers ms, P x) → MembersText N' t ms)
    ?null ?bool ?num ?str ?emptyArr ?arr ?emptyObj ?obj ?element ?elementsPad ?elementsMore
    ?member ?membersPad ?membersMore t v text all
  case null => exact fun _ => .null
  case bool => exact fun b _ => .bool b
  case num => exact fun text all => .num (same _ _ text (all _ List.mem_cons_self))
  case str => exact fun plain _ => .str plain
  case emptyArr => exact fun blank _ => .emptyArr blank
  case arr => exact fun _ ih all => .arr (ih all)
  case emptyObj => exact fun blank _ => .emptyObj blank
  case obj => exact fun _ distinct ih all => .obj (ih all) distinct
  case element => exact fun _ ih all => .one (ih fun x mem => all x (List.mem_append_left _ mem))
  case elementsPad => exact fun before _ after ih all => .pad before (ih all) after
  case elementsMore =>
    intro t u vs vs' _ _ ih ih' all
    rw [elementNumbers_append] at all
    exact .more (ih fun x mem => all x (List.mem_append_left _ mem))
      (ih' fun x mem => all x (List.mem_append_right _ mem))
  case member =>
    exact fun plain before after _ ih all =>
      .one plain before after (ih fun x mem => all x (List.mem_append_left _ mem))
  case membersPad => exact fun before _ after ih all => .pad before (ih all) after
  case membersMore =>
    intro t u ms ms' _ _ ih ih' all
    rw [memberNumbers_append] at all
    exact .more (ih fun x mem => all x (List.mem_append_left _ mem))
      (ih' fun x mem => all x (List.mem_append_right _ mem))

theorem DocumentText.mono {N' : List UInt8 → ν → Prop} {P : ν → Prop}
    (same : ∀ t x, N t x → P x → N' t x) {t : List UInt8} {v : Json ν} (text : DocumentText N t v)
    (all : ∀ x ∈ v.numbers, P x) : DocumentText N' t v := by
  obtain ⟨a, u, b, before, after, split, value⟩ := text
  exact ⟨a, u, b, before, after, split, value.mono same all⟩

end Json

end CpuSched
