import Mathlib.Algebra.BigOperators.Group.List.Basic
import Mathlib.Algebra.Order.Ring.Rat
import Mathlib.Data.List.SplitBy

/-!
# Quantities

Texts such as `1h59m` or `4.500ms` are sums of decimal numbers with units. The names of the units
consist of letters, so the runs of letters and of other characters give the numbers and the names in
turn.
-/

namespace Quantities

/-- The runs of letters and of other characters. -/
def runs (text : List Char) : List (List Char) := text.splitBy fun a b => a.isAlpha == b.isAlpha

def IsDigits (text : List Char) : Prop := text ≠ [] ∧ text.all Char.isDigit

instance (text : List Char) : Decidable (IsDigits text) := inferInstanceAs (Decidable (_ ∧ _))

/-- The number of a string of digits. -/
def whole (text : List Char) : ℕ := Nat.ofDigitChars 10 text 0

/-- A decimal number, with or without a point. -/
def readDecimal (text : List Char) : Option ℚ :=
  match text.splitOn '.' with
  | [digits] => if IsDigits digits then some (whole digits : ℚ) else none
  | [digits, fraction] =>
    if IsDigits digits ∧ IsDigits fraction then
      some ((whole digits : ℚ) + whole fraction / 10 ^ fraction.length)
    else none
  | _ => none

/-- The sum of numbers and names in turn. -/
def readSum (unit : List Char → Option ℚ) : List (List Char) → Option ℚ
  | [] => some 0
  | [_] => none
  | number :: name :: rest =>
    (readDecimal number).bind fun n => (unit name).bind fun u =>
      (readSum unit rest).map fun sum => n * u + sum

/-- The sum of quantities that a text gives. -/
def read (unit : List Char → Option ℚ) (text : List Char) : Option ℚ := readSum unit (runs text)

/-- A number and the name of its unit. -/
structure Term where
  number : List Char
  name : List Char
  number_ne : number ≠ []
  number_plain : number.all fun c => !c.isAlpha
  name_ne : name ≠ []
  name_alpha : name.all Char.isAlpha

def Term.text (term : Term) : List Char := term.number ++ term.name

theorem Term.isAlpha_number (term : Term) {c : Char} (hc : c ∈ term.number) :
    c.isAlpha = false := by
  simpa using List.all_eq_true.mp term.number_plain c hc

theorem Term.isAlpha_name (term : Term) {c : Char} (hc : c ∈ term.name) : c.isAlpha = true :=
  List.all_eq_true.mp term.name_alpha c hc

/-- Characters of one kind are a run. -/
theorem isChain_of_isAlpha {run : List Char} {kind : Bool} (h : ∀ c ∈ run, c.isAlpha = kind) :
    run.IsChain fun a b => a.isAlpha == b.isAlpha := by
  apply List.Pairwise.isChain
  rw [List.pairwise_iff_forall_sublist]
  intro a b hsublist
  rw [h a (hsublist.subset (by simp)), h b (hsublist.subset (by simp)), BEq.rfl]

/-- Where a list of numbers and names is cut the characters change their kind. -/
theorem isChain_terms (terms : List Term) :
    (terms.flatMap fun term => [term.number, term.name]).IsChain fun a b =>
      ∃ ha hb, ((a.getLast ha).isAlpha == (b.head hb).isAlpha) = false := by
  have hchange (c d : Char) (hc : c.isAlpha = false) (hd : d.isAlpha = true) :
      (c.isAlpha == d.isAlpha) = false ∧ (d.isAlpha == c.isAlpha) = false := by
    rw [hc, hd]
    exact ⟨rfl, rfl⟩
  induction terms with
  | nil => exact List.isChain_nil
  | cons term terms ih =>
    rw [List.flatMap_cons, List.cons_append, List.cons_append, List.nil_append,
      List.isChain_cons_cons, List.isChain_cons]
    refine ⟨⟨term.number_ne, term.name_ne, ?_⟩, ?_, ih⟩
    · exact (hchange _ _ (term.isAlpha_number (List.getLast_mem _))
        (term.isAlpha_name (List.head_mem _))).1
    · intro number hnumber
      cases terms with
      | nil => cases hnumber
      | cons next terms =>
        obtain rfl : next.number = number := by simpa using hnumber
        exact ⟨term.name_ne, next.number_ne, (hchange _ _
          (next.isAlpha_number (List.head_mem _)) (term.isAlpha_name (List.getLast_mem _))).2⟩

/-- Quantities that are written one after another are read one after another. -/
theorem runs_text (terms : List Term) :
    runs (terms.flatMap Term.text) = terms.flatMap fun term => [term.number, term.name] := by
  have hflatten : terms.flatMap Term.text =
      (terms.flatMap fun term => [term.number, term.name]).flatten := by
    induction terms with
    | nil => rfl
    | cons term terms ih => simp [List.flatMap_cons, Term.text, ih]
  rw [runs, hflatten]
  apply List.splitBy_flatten
  · simp only [List.mem_flatMap, List.mem_cons, List.not_mem_nil, or_false, not_exists, not_and,
      not_or]
    exact fun term _ => ⟨fun h => term.number_ne h.symm, fun h => term.name_ne h.symm⟩
  · simp only [List.mem_flatMap, List.mem_cons, List.not_mem_nil, or_false]
    rintro run ⟨term, _, rfl | rfl⟩
    · exact isChain_of_isAlpha fun c hc => term.isAlpha_number hc
    · exact isChain_of_isAlpha fun c hc => term.isAlpha_name hc
  · exact isChain_terms terms

/-- A term that is read as a value. -/
def Term.Gives (unit : List Char → Option ℚ) (term : Term) (value : ℚ) : Prop :=
  ∃ n u, readDecimal term.number = some n ∧ unit term.name = some u ∧ n * u = value

/-- The sum of quantities that are written one after another. -/
theorem read_text {unit : List Char → Option ℚ} {terms : List Term} {values : List ℚ}
    (h : List.Forall₂ (Term.Gives unit) terms values) :
    read unit (terms.flatMap Term.text) = some values.sum := by
  rw [read, runs_text]
  induction h with
  | nil => rfl
  | cons hterm _ ih =>
    obtain ⟨n, u, hnumber, hname, rfl⟩ := hterm
    rw [List.flatMap_cons, List.cons_append, List.cons_append, List.nil_append, readSum, hnumber,
      Option.bind_some, hname, Option.bind_some, ih, Option.map_some, List.sum_cons]

theorem IsDigits.not_mem {text : List Char} (h : IsDigits text) : '.' ∉ text :=
  fun hmem => absurd (List.all_eq_true.mp h.2 _ hmem) (by decide)

theorem IsDigits.isAlpha {text : List Char} (h : IsDigits text) :
    text.all fun c => !c.isAlpha := by
  rw [List.all_eq_true]
  intro c hc
  have hdigit := List.all_eq_true.mp h.2 c hc
  simp only [Char.isDigit, Bool.and_eq_true, decide_eq_true_eq] at hdigit
  have hall : ∀ n < 58, 48 ≤ n → (!(Char.ofNat n).isAlpha) = true := by decide
  rw [← Char.ofNat_toNat c]
  exact hall c.toNat (Nat.lt_succ_of_le (UInt32.le_iff_toNat_le.mp hdigit.2))
    (UInt32.le_iff_toNat_le.mp hdigit.1)

/-- A number without a point. -/
theorem readDecimal_digits {digits : List Char} (h : IsDigits digits) :
    readDecimal digits = some (whole digits : ℚ) := by
  have hsplit : digits.splitOn '.' = [digits] := by
    have hplain : ∀ part ∈ [digits], '.' ∉ part := by simpa using h.not_mem
    simpa using List.splitOn_intercalate '.' hplain (List.cons_ne_nil _ _)
  rw [readDecimal, hsplit]
  exact if_pos h

/-- A number with a point. -/
theorem readDecimal_point {digits fraction : List Char} (h : IsDigits digits)
    (hfraction : IsDigits fraction) : readDecimal (digits ++ '.' :: fraction) =
      some ((whole digits : ℚ) + whole fraction / 10 ^ fraction.length) := by
  have hsplit : (digits ++ '.' :: fraction).splitOn '.' = [digits, fraction] := by
    have hplain : ∀ part ∈ [digits, fraction], '.' ∉ part := by
      simp [h.not_mem, hfraction.not_mem]
    simpa using List.splitOn_intercalate '.' hplain (List.cons_ne_nil _ _)
  rw [readDecimal, hsplit]
  exact if_pos (And.intro h hfraction)

section Decimal

/-- The digits of a number with zeros up to a width. -/
def decimal (width n : ℕ) : List Char := (Nat.toDigits 10 n).leftpad width '0'

theorem isDigits_decimal (width n : ℕ) : IsDigits (decimal width n) := by
  constructor
  · exact List.append_ne_nil_of_right_ne_nil _ Nat.toDigits_ne_nil
  · rw [decimal, List.leftpad, List.all_append, Bool.and_eq_true, List.all_eq_true,
      List.all_eq_true]
    refine ⟨fun c hc => ?_, fun c hc => ?_⟩
    · rw [List.eq_of_mem_replicate hc]
      decide
    · exact Nat.isDigit_of_mem_toDigits (by decide) (by decide) hc

@[simp]
theorem whole_decimal (width n : ℕ) : whole (decimal width n) = n := by
  rw [whole, decimal, List.leftpad, Nat.ofDigitChars_append, Nat.ofDigitChars_replicate_zero,
    Nat.mul_zero, Nat.ofDigitChars_ten_toDigits]

/-- A number of at most `width` digits has exactly `width` characters. -/
theorem length_decimal {width n : ℕ} (hwidth : 0 < width) (hn : n < 10 ^ width) :
    (decimal width n).length = width := by
  rw [decimal, List.length_leftpad, Nat.max_eq_left]
  exact (Nat.length_toDigits_le_iff (by decide) hwidth).mpr hn

/-- Without a width a number has the digits that it needs. -/
theorem length_decimal_le_iff {n digits : ℕ} (hdigits : 0 < digits) :
    (decimal 0 n).length ≤ digits ↔ n < 10 ^ digits := by
  rw [decimal, List.length_leftpad, Nat.max_eq_right (Nat.zero_le _)]
  exact Nat.length_toDigits_le_iff (by decide) hdigits

/-- A whole number of a unit. -/
def wholeTerm (n : ℕ) (name : List Char) (name_ne : name ≠ [])
    (name_alpha : name.all Char.isAlpha) :
    Term where
  number := decimal 0 n
  name := name
  number_ne := (isDigits_decimal 0 n).1
  number_plain := (isDigits_decimal 0 n).isAlpha
  name_ne := name_ne
  name_alpha := name_alpha

/-- A number with a fraction of a width. -/
def pointTerm (n width fraction : ℕ) (name : List Char) (name_ne : name ≠ [])
    (name_alpha : name.all Char.isAlpha) : Term where
  number := decimal 0 n ++ '.' :: decimal width fraction
  name := name
  number_ne := List.append_ne_nil_of_right_ne_nil _ (List.cons_ne_nil _ _)
  number_plain := by
    rw [List.all_append, List.all_cons, (isDigits_decimal 0 n).isAlpha,
      (isDigits_decimal width fraction).isAlpha]
    decide
  name_ne := name_ne
  name_alpha := name_alpha

variable {unit : List Char → Option ℚ} {name : List Char} {name_ne : name ≠ []}
  {name_alpha : name.all Char.isAlpha} {u : ℚ}

theorem wholeTerm_gives (n : ℕ) (hunit : unit name = some u) :
    (wholeTerm n name name_ne name_alpha).Gives unit (n * u) :=
  ⟨n, u, by rw [wholeTerm, readDecimal_digits (isDigits_decimal 0 n), whole_decimal], hunit, rfl⟩

theorem pointTerm_gives (n width fraction : ℕ) (hunit : unit name = some u) :
    (pointTerm n width fraction name name_ne name_alpha).Gives unit
      ((n + fraction / 10 ^ (decimal width fraction).length) * u) :=
  ⟨_, u, by rw [pointTerm, readDecimal_point (isDigits_decimal 0 n)
    (isDigits_decimal width fraction), whole_decimal, whole_decimal], hunit, rfl⟩

end Decimal

end Quantities
