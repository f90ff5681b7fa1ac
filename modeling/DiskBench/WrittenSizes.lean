import DiskBench.Arguments
import DiskBench.Foundations.Tokens

/-!
# Written sizes

What `parse_size` makes of a numeral with a unit. The product with the factor of the unit is formed
in 64 bits, and `apr_strtoi64` has no numbers from 2^63 on.
-/

namespace DiskBench

open Tokens

/-- The units, with the letters of `ord`. -/
inductive SizeUnit where
  | kilo
  | mega
  | giga
  | tera
  deriving DecidableEq

/-- The letter of a unit. -/
def SizeUnit.letter : SizeUnit → Char
  | .kilo => 'K'
  | .mega => 'M'
  | .giga => 'G'
  | .tera => 'T'

/-- The power of 1024 that a unit stands for. -/
def SizeUnit.exponent : SizeUnit → ℕ
  | .kilo => 1
  | .mega => 2
  | .giga => 3
  | .tera => 4

/-- A decimal numeral. -/
structure Numeral where
  digits : List Char
  ne_nil : digits ≠ []
  isDigit : digits.all Char.isDigit

/-- The number that it denotes. -/
def Numeral.value (numeral : Numeral) : ℕ := Nat.ofDigitChars 10 numeral.digits 0

/-- A numeral, perhaps with a unit. -/
structure WrittenSize where
  numeral : Numeral
  unit : Option SizeUnit

/-- The characters of a size. -/
def WrittenSize.text (size : WrittenSize) : List Char :=
  size.numeral.digits ++ (size.unit.map SizeUnit.letter).toList

/-- The power of 1024 of its unit. -/
def WrittenSize.exponent (size : WrittenSize) : ℕ := (size.unit.map SizeUnit.exponent).getD 0

/-- The size that is written. -/
def WrittenSize.value (size : WrittenSize) : ℕ := size.numeral.value * 1024 ^ size.exponent

/-- What follows a size does not belong to it. -/
def WrittenSize.Ends (size : WrittenSize) (rest : List Char) : Prop :=
  (rest.head?.any Char.isDigit) = false ∧
    (size.unit = none → ∀ unit : SizeUnit, rest.head? ≠ some unit.letter)

/-- What the portable runtime documents. A number that is out of range becomes the largest one. -/
structure AprStrings.Documented (apr : AprStrings) : Prop where
  strtoi64_eq : ∀ (numeral : Numeral) (rest : List Char), (rest.head?.any Char.isDigit) = false →
    apr.strtoi64 (numeral.digits ++ rest) = (Int64.ofNat (min (2 ^ 63 - 1) numeral.value), rest)
  strtok_eq : ∀ s sep, apr.strtok s sep = tokens sep s

section Parse

variable {apr : AprStrings} {size : WrittenSize} {rest : List Char}

theorem SizeUnit.letter_not_isDigit (unit : SizeUnit) : unit.letter.isDigit = false := by
  cases unit <;> rfl

/-- The loop of `parse_size` finds the unit. -/
theorem unitLoop_letter (rv : UInt64) (unit : SizeUnit) :
    unitLoop rv unit.letter ['K', 'M', 'G', 'T'] kilo =
      rv * UInt64.ofNat (1024 ^ unit.exponent) := by
  cases unit <;> rfl

/-- Without a unit the loop leaves the number as it is. -/
theorem unitLoop_other (rv : UInt64) {c : Char} (h : ∀ unit : SizeUnit, c ≠ unit.letter) :
    unitLoop rv c ['K', 'M', 'G', 'T'] kilo = rv := by
  have hkilo : c ≠ 'K' := h .kilo
  have hmega : c ≠ 'M' := h .mega
  have hgiga : c ≠ 'G' := h .giga
  have htera : c ≠ 'T' := h .tera
  simp [unitLoop, hkilo, hmega, hgiga, htera]

/-- `parse_size` returns the size modulo 2^64, with the largest number for a larger one. -/
theorem parseSize_text (hapr : apr.Documented) (hends : size.Ends rest) :
    parseSize apr (size.text ++ rest) =
      UInt64.ofNat (min (2 ^ 63 - 1) size.numeral.value * 1024 ^ size.exponent) := by
  obtain ⟨numeral, unit⟩ := size
  cases unit with
  | none =>
    have hscan := hapr.strtoi64_eq numeral rest hends.1
    have hother : ∀ unit : SizeUnit, rest.headD '\x00' ≠ unit.letter := by
      intro unit
      cases rest with
      | nil => cases unit <;> decide
      | cons c rest => exact fun h => hends.2 rfl unit (congrArg some h)
    simp only [WrittenSize.text, WrittenSize.exponent, parseSize, Option.map_none,
      Option.toList_none, List.append_nil, hscan, unitLoop_other _ hother, Option.getD_none,
      pow_zero, Nat.mul_one]
    rfl
  | some unit =>
    have hscan := hapr.strtoi64_eq numeral (unit.letter :: rest)
      (by simp [unit.letter_not_isDigit])
    simp only [WrittenSize.text, WrittenSize.exponent, parseSize, Option.map_some,
      Option.toList_some, List.append_assoc, List.singleton_append, hscan, List.headD_cons,
      unitLoop_letter, Option.getD_some]
    rw [UInt64.ofNat_mul]
    rfl

/-- The sizes that are parsed as they are written. -/
structure WrittenSize.Fits (size : WrittenSize) : Prop where
  numeral_lt : size.numeral.value < 2 ^ 63
  value_lt : size.value < 2 ^ 64

/-- A large numeral is written without a unit if its size has 64 bits. -/
theorem WrittenSize.exponent_eq_zero (hlarge : 2 ^ 63 ≤ size.numeral.value)
    (hlt : size.value < 2 ^ 64) : size.exponent = 0 := by
  by_contra hne
  have hfactor : 1024 ^ 1 ≤ 1024 ^ size.exponent :=
    Nat.pow_le_pow_right (by decide) (Nat.one_le_iff_ne_zero.mpr hne)
  have hle : 2 ^ 63 * 1024 ^ 1 ≤ size.value := Nat.mul_le_mul hlarge hfactor
  omega

/-- Exactly the sizes that fit are parsed as they are written. -/
theorem parseSize_toNat_eq_iff (hapr : apr.Documented) (hends : size.Ends rest) :
    (parseSize apr (size.text ++ rest)).toNat = size.value ↔ size.Fits := by
  rw [parseSize_text hapr hends, UInt64.toNat_ofNat']
  constructor
  · intro h
    have hlt : size.value < 2 ^ 64 := by
      rw [← h]
      exact Nat.mod_lt _ (by decide)
    refine ⟨?_, hlt⟩
    by_contra hlarge
    have hexponent := WrittenSize.exponent_eq_zero (by omega) hlt
    rw [WrittenSize.value, hexponent, min_eq_left (by omega)] at h
    omega
  · intro h
    have hlt := h.numeral_lt
    rw [min_eq_right (by omega)]
    exact Nat.mod_eq_of_lt h.value_lt

/-- **Exact sizes.** `parse_size` returns the size that is written exactly when it is below 2^64,
and sizes below 2^64 are parsed in their order. -/
theorem parseSize_exact_iff (hapr : apr.Documented) (hends : size.Ends rest)
    (hnumeral : size.numeral.value < 2 ^ 63) :
    ((parseSize apr (size.text ++ rest)).toNat = size.value ↔ size.value < 2 ^ 64) ∧
      ∀ (size' : WrittenSize) (rest' : List Char), size'.Ends rest' →
        size'.numeral.value < 2 ^ 63 → size.value < 2 ^ 64 → size'.value < 2 ^ 64 →
          (parseSize apr (size.text ++ rest) ≤ parseSize apr (size'.text ++ rest') ↔
            size.value ≤ size'.value) := by
  refine ⟨?_, fun size' rest' hends' hnumeral' hvalue hvalue' => ?_⟩
  · rw [parseSize_toNat_eq_iff hapr hends]
    exact ⟨fun h => h.value_lt, fun h => ⟨hnumeral, h⟩⟩
  · rw [UInt64.le_iff_toNat_le, (parseSize_toNat_eq_iff hapr hends).mpr ⟨hnumeral, hvalue⟩,
      (parseSize_toNat_eq_iff hapr hends').mpr ⟨hnumeral', hvalue'⟩]

end Parse

section Documented

/-- The digits of a string are scanned up to the first character that is none. -/
theorem scanDigits_append {digits rest : List Char} (hdigits : digits.all Char.isDigit)
    (hrest : (rest.head?.any Char.isDigit) = false) (n : ℕ) :
    scanDigits (digits ++ rest) n = (Nat.ofDigitChars 10 digits n, rest) := by
  induction digits generalizing n with
  | nil =>
    rw [List.nil_append, Nat.ofDigitChars_nil]
    cases rest with
    | nil => rfl
    | cons c rest =>
      have hc : c.isDigit = false := hrest
      simp [scanDigits, hc]
  | cons d digits ih =>
    rw [List.all_cons, Bool.and_eq_true] at hdigits
    rw [List.cons_append, scanDigits, if_pos hdigits.1, ih hdigits.2, Nat.ofDigitChars_cons]
    rfl

/-- A digit is neither white space nor a sign. -/
theorem not_blank_of_isDigit {c : Char} (h : c.isDigit) :
    isSpace c = false ∧ c ≠ '-' ∧ c ≠ '+' := by
  have hne : ∀ x : Char, x.isDigit = false → c ≠ x := by
    rintro x hx rfl
    rw [h] at hx
    cases hx
  have hlarge : ¬c ≤ '\r' := by
    simp only [Char.isDigit, Bool.and_eq_true, decide_eq_true_eq] at h
    exact fun hle => absurd (UInt32.le_trans h.1 hle) (by decide)
  exact ⟨by simp [isSpace, hne ' ' rfl, hlarge], hne '-' rfl, hne '+' rfl⟩

/-- The functions that do what is documented. -/
def runtime : AprStrings := ⟨strtoi64, fun s sep => tokens sep s⟩

theorem runtime_documented : runtime.Documented where
  strtoi64_eq := by
    rintro ⟨digits, hne, hdigits⟩ rest hrest
    cases digits with
    | nil => exact absurd rfl hne
    | cons d digits =>
      have hd : d.isDigit := by
        rw [List.all_cons, Bool.and_eq_true] at hdigits
        exact hdigits.1
      obtain ⟨hspace, hminus, hplus⟩ := not_blank_of_isDigit hd
      have hscan := scanDigits_append hdigits hrest 0
      have hnumber : runtime.strtoi64 (d :: digits ++ rest) =
          (Int64.ofInt (max (-9223372036854775808) (min 9223372036854775807
            (Nat.ofDigitChars 10 (d :: digits) 0 : ℤ))), rest) := by
        simp only [runtime, strtoi64, List.cons_append, List.dropWhile_cons, hspace,
          Bool.false_eq_true, if_false, List.head?_cons, Option.some.injEq, hminus, hplus,
          or_self, Option.any_some, hd, if_true]
        rw [← List.cons_append, hscan]
      have hclamp : max (-9223372036854775808) (min 9223372036854775807
          (Nat.ofDigitChars 10 (d :: digits) 0 : ℤ)) =
            ((min (2 ^ 63 - 1) (Nat.ofDigitChars 10 (d :: digits) 0) : ℕ) : ℤ) := by
        omega
      rw [hnumber, hclamp]
      rfl
  strtok_eq := fun _ _ => rfl

end Documented

/-- The size of the example in the help text. -/
def eightGiga : WrittenSize := ⟨⟨['8'], by decide, by decide⟩, some .giga⟩

/-- It is parsed as it is written, with the letter behind it. -/
theorem parseSize_exact_eightGiga :
    (parseSize runtime ['8', 'G', 'B']).toNat = 8 * 1024 ^ 3 :=
  (@parseSize_exact_iff runtime eightGiga ['B'] runtime_documented
    ⟨by decide, fun h => absurd h (by decide)⟩ (by decide)).1.mpr (by decide)

/-- A size of 2^64 is parsed as 0, below a size of 1K. -/
theorem parseSize_wraps :
    parseSize runtime ['1', '6', '7', '7', '7', '2', '1', '6', 'T'] = 0 ∧
      parseSize runtime ['1', 'K'] = 1024 := by
  decide

end DiskBench
