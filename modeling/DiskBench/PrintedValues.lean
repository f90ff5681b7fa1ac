import Mathlib.Tactic.Linarith
import Mathlib.Tactic.NormNum
import Mathlib.Tactic.Ring
import DiskBench.Foundations.Quantities
import DiskBench.XmlOutput

/-!
# Printed times and sizes

What the strings of `print_time` and `print_size` denote. A time is read as a sum of quantities and
compared with the time itself, rounded down to the smallest place that is shown: only the fraction
behind minutes is printed without its zeros. A size goes through the units of the table and leaves
them behind 1024 TiB.
-/

namespace DiskBench

open Quantities

/-- The units of a printed time, in microseconds. -/
def timeUnit : List Char → Option ℚ
  | ['d'] => some 86400000000
  | ['h'] => some 3600000000
  | ['m'] => some 60000000
  | ['s'] => some 1000000
  | ['m', 's'] => some 1000
  | ['u', 's'] => some 1
  | _ => none

/-- The microseconds that a printed time denotes. -/
def readTime (text : List Char) : Option ℚ := read timeUnit text

/-- The smallest place that is shown: minutes with days, seconds with hours, milliseconds with
minutes and seconds. -/
def smallestPlace (time : ℕ) : ℕ :=
  if 86400000000 ≤ time then 60000000
  else if 3600000000 ≤ time then 1000000
  else if 1000000 ≤ time then 1000
  else 1

/-- A time rounded down to the smallest place that is shown. -/
def roundedTime (time : ℕ) : ℕ := time / smallestPlace time * smallestPlace time

/-- The milliseconds of a time between a minute and an hour have zeros in front. -/
def DropsZeros (time : ℕ) : Prop :=
  60000000 ≤ time ∧ time < 3600000000 ∧ 1 ≤ time % 1000000 / 1000 ∧ time % 1000000 / 1000 ≤ 99

section Times

/-- What is printed for each place, as quantities. -/
def timeTerms (time : ℕ) : List Term :=
  let days := time / 86400000000
  let hours := time % 86400000000 / 3600000000
  let minutes := time % 3600000000 / 60000000
  let seconds := time % 60000000 / 1000000
  let msecs := time % 1000000 / 1000
  let usecs := time % 1000
  if 0 < days then
    [wholeTerm days ['d'] (by decide) (by decide), wholeTerm hours ['h'] (by decide) (by decide),
      wholeTerm minutes ['m'] (by decide) (by decide)]
  else if 0 < hours then
    [wholeTerm hours ['h'] (by decide) (by decide), wholeTerm minutes ['m'] (by decide) (by decide),
      wholeTerm seconds ['s'] (by decide) (by decide)]
  else if 0 < minutes then
    [wholeTerm minutes ['m'] (by decide) (by decide),
      pointTerm seconds 0 msecs ['s'] (by decide) (by decide)]
  else if 0 < seconds then [pointTerm seconds 3 msecs ['s'] (by decide) (by decide)]
  else if 0 < msecs then [pointTerm msecs 3 usecs ['m', 's'] (by decide) (by decide)]
  else [wholeTerm usecs ['u', 's'] (by decide) (by decide)]

/-- A number that is no negative `int` is printed as its digits. -/
theorem printInt_ofNat {width n : ℕ} (h : n < 2 ^ 31) :
    printInt width (UInt32.ofNat n) = decimal width n := by
  have hint : (UInt32.ofNat n).toInt32.toInt = n := by
    rw [UInt32.toInt32_ofNat', Int32.toInt_ofNat_of_lt h]
  rw [printInt, hint]
  simp only [Int.natAbs_natCast]
  rw [if_neg (by omega), decimal]

theorem ofInt_natCast (n : ℕ) : UInt32.ofInt n = UInt32.ofNat n := by
  apply UInt32.toNat_inj.mp
  rw [UInt32.ofInt, UInt32.toNat_ofNat', UInt32.toNat_ofNat']
  omega

theorem ofInt_tdiv (time d : ℕ) : UInt32.ofInt ((time : ℤ).tdiv d) = UInt32.ofNat (time / d) := by
  rw [← Int.ofNat_tdiv, ofInt_natCast]

/-- Taking away what a place shows leaves the remainder. -/
theorem sub_place {time d : ℕ} (h : time / d < 2 ^ 32) :
    (time : ℤ) - (UInt32.ofNat (time / d)).toNat * d = (time % d : ℕ) := by
  have hsplit := Nat.div_add_mod' time d
  rw [UInt32.toNat_ofNat_of_lt' h]
  omega

theorem msecs_eq {time : ℕ} (h : time < 1000000) :
    UInt32.ofInt (((time : ℤ).tdiv 1000).tmod 1000) = UInt32.ofNat (time / 1000) := by
  have hmsecs : ((time : ℤ).tdiv 1000).tmod 1000 = (time / 1000 % 1000 : ℕ) := rfl
  rw [hmsecs, ofInt_natCast, Nat.mod_eq_of_lt (by omega)]

theorem usecs_eq {time : ℕ} (h : time < 1000000) :
    UInt32.ofInt (((time : ℤ) - (UInt32.ofNat (time / 1000)).toNat * 1000).tmod 1000000) =
      UInt32.ofNat (time % 1000) := by
  have hrest : (time : ℤ) - (UInt32.ofNat (time / 1000)).toNat * 1000 = (time % 1000 : ℕ) :=
    sub_place (by omega)
  have husecs : ((time % 1000 : ℕ) : ℤ).tmod 1000000 = (time % 1000 % 1000000 : ℕ) := rfl
  rw [hrest, husecs, ofInt_natCast, Nat.mod_eq_of_lt (by omega)]

theorem ofNat_pos_iff {n : ℕ} (h : n < 2 ^ 31) : UInt32.ofNat n > 0 ↔ 0 < n := by
  rw [gt_iff_lt, UInt32.lt_iff_toNat_lt, UInt32.toNat_ofNat_of_lt' (Nat.lt_trans h (by decide))]
  rfl

/-- `print_time` prints the quantities. -/
theorem printTime_eq {time : ℕ} (h : time < 2 ^ 63) :
    printTime time = (timeTerms time).flatMap Term.text := by
  have hdays : time / 86400000000 < 2 ^ 31 := by omega
  have hhours : time % 86400000000 / 3600000000 < 2 ^ 31 := by omega
  have hminutes : time % 3600000000 / 60000000 < 2 ^ 31 := by omega
  have hseconds : time % 60000000 / 1000000 < 2 ^ 31 := by omega
  have hmsecs : time % 1000000 / 1000 < 2 ^ 31 := by omega
  have husecs : time % 1000 < 2 ^ 31 := by omega
  have hday : (24 * (60 * (60 * 1000000)) : ℤ) = (86400000000 : ℕ) := rfl
  have hhour : (60 * (60 * 1000000) : ℤ) = (3600000000 : ℕ) := rfl
  have hminute : (60 * 1000000 : ℤ) = (60000000 : ℕ) := rfl
  have hsecond : (1000000 : ℤ) = (1000000 : ℕ) := rfl
  have hrest : time % 86400000000 % 3600000000 = time % 3600000000 ∧
      time % 3600000000 % 60000000 = time % 60000000 ∧
      time % 60000000 % 1000000 = time % 1000000 ∧ time % 1000000 % 1000 = time % 1000 :=
    ⟨Nat.mod_mod_of_dvd _ (by decide), Nat.mod_mod_of_dvd _ (by decide),
      Nat.mod_mod_of_dvd _ (by decide), Nat.mod_mod_of_dvd _ (by decide)⟩
  simp only [printTime]
  rw [hday, ofInt_tdiv, sub_place (by omega), hhour, ofInt_tdiv, sub_place (by omega), hrest.1,
    hminute, ofInt_tdiv, sub_place (by omega), hrest.2.1, hsecond, ofInt_tdiv,
    sub_place (by omega), hrest.2.2.1, ← hsecond, msecs_eq (by omega), usecs_eq (by omega),
    hrest.2.2.2]
  simp only [ofNat_pos_iff hdays, ofNat_pos_iff hhours, ofNat_pos_iff hminutes,
    ofNat_pos_iff hseconds, ofNat_pos_iff hmsecs, printInt_ofNat hdays, printInt_ofNat hhours,
    printInt_ofNat hminutes, printInt_ofNat hseconds, printInt_ofNat hmsecs,
    printInt_ofNat husecs, timeTerms, apply_ite (List.flatMap Term.text)]
  simp [Term.text, wholeTerm, pointTerm]

theorem roundedTime_eq {time place : ℕ} (h : smallestPlace time = place) :
    roundedTime time = time / place * place := by
  rw [roundedTime, h]

/-- A fraction of three digits counts in thousandths of the unit. -/
theorem three_digits {n fraction : ℕ} {unit place : ℚ} (h : fraction < 1000)
    (hunit : unit = 1000 * place) :
    (n + fraction / 10 ^ (decimal 3 fraction).length) * unit = (n * 1000 + fraction) * place := by
  rw [length_decimal (by decide) h, hunit]
  ring

/-- Outside of the hour behind the first minute the time is read back, rounded down. -/
theorem readTime_printTime {time : ℕ} (h : time < 2 ^ 63)
    (hminutes : ¬(60000000 ≤ time ∧ time < 3600000000)) :
    readTime (printTime time) = some (roundedTime time : ℚ) := by
  rw [printTime_eq h, timeTerms, readTime]
  split_ifs with hdays hhours hmin hseconds hmsecs
  · rw [read_text (.cons (wholeTerm_gives _ rfl) (.cons (wholeTerm_gives _ rfl)
      (.cons (wholeTerm_gives _ rfl) .nil)))]
    have hplace : smallestPlace time = 60000000 := if_pos (by omega)
    have hsum : time / 86400000000 * 86400000000 + (time % 86400000000 / 3600000000 * 3600000000 +
        (time % 3600000000 / 60000000 * 60000000 + 0)) = roundedTime time := by
      rw [roundedTime_eq hplace]
      omega
    rw [← hsum]
    push_cast
    rfl
  · rw [read_text (.cons (wholeTerm_gives _ rfl) (.cons (wholeTerm_gives _ rfl)
      (.cons (wholeTerm_gives _ rfl) .nil)))]
    have hplace : smallestPlace time = 1000000 := by
      rw [smallestPlace, if_neg (by omega), if_pos (by omega)]
    have hsum : time % 86400000000 / 3600000000 * 3600000000 +
        (time % 3600000000 / 60000000 * 60000000 + (time % 60000000 / 1000000 * 1000000 + 0)) =
          roundedTime time := by
      rw [roundedTime_eq hplace]
      omega
    rw [← hsum]
    push_cast
    rfl
  · omega
  · rw [read_text (.cons (pointTerm_gives _ _ _ rfl) .nil)]
    have hplace : smallestPlace time = 1000 := by
      rw [smallestPlace, if_neg (by omega), if_neg (by omega), if_pos (by omega)]
    have hsum : (time % 60000000 / 1000000 * 1000 + time % 1000000 / 1000) * 1000 =
        roundedTime time := by
      rw [roundedTime_eq hplace]
      omega
    have hunit : (1000000 : ℚ) = 1000 * 1000 := by norm_num
    rw [List.sum_cons, List.sum_nil, add_zero, three_digits (by omega) hunit, ← hsum]
    push_cast
    rfl
  · rw [read_text (.cons (pointTerm_gives _ _ _ rfl) .nil)]
    have hplace : smallestPlace time = 1 := by
      rw [smallestPlace, if_neg (by omega), if_neg (by omega), if_neg (by omega)]
    have hsum : (time % 1000000 / 1000 * 1000 + time % 1000) * 1 = roundedTime time := by
      rw [roundedTime_eq hplace]
      omega
    have hunit : (1000 : ℚ) = 1000 * 1 := by norm_num
    rw [List.sum_cons, List.sum_nil, add_zero, three_digits (by omega) hunit, ← hsum]
    push_cast
    rfl
  · rw [read_text (.cons (wholeTerm_gives _ rfl) .nil)]
    have hplace : smallestPlace time = 1 := by
      rw [smallestPlace, if_neg (by omega), if_neg (by omega), if_neg (by omega)]
    have hsum : time % 1000 * 1 + 0 = roundedTime time := by
      rw [roundedTime_eq hplace]
      omega
    rw [← hsum]
    push_cast
    rfl

/-- In the hour behind the first minute the milliseconds are read as the digits of a fraction. -/
theorem readTime_minutes {time : ℕ} (hle : 60000000 ≤ time) (hlt : time < 3600000000) :
    readTime (printTime time) = some ((time / 60000000 : ℕ) * 60000000 +
      ((time % 60000000 / 1000000 : ℕ) + (time % 1000000 / 1000 : ℕ) /
        10 ^ (decimal 0 (time % 1000000 / 1000)).length) * 1000000 : ℚ) := by
  have hminutes : time % 3600000000 = time := Nat.mod_eq_of_lt hlt
  rw [printTime_eq (by omega), timeTerms, readTime, if_neg (by omega), if_neg (by omega),
    if_pos (by omega), hminutes,
    read_text (.cons (wholeTerm_gives _ rfl) (.cons (pointTerm_gives _ _ _ rfl) .nil))]
  rw [List.sum_cons, List.sum_cons, List.sum_nil, add_zero]

/-- A fraction without zeros in front has as many digits as it needs when it has three of them, or
when it is 0. -/
theorem fraction_eq_iff {msecs : ℕ} (h : msecs < 1000) :
    (msecs : ℚ) / 10 ^ (decimal 0 msecs).length = msecs / 1000 ↔ ¬(1 ≤ msecs ∧ msecs ≤ 99) := by
  obtain rfl | hpos := Nat.eq_zero_or_pos msecs
  · simp
  have hne : (msecs : ℚ) ≠ 0 := Nat.cast_ne_zero.mpr hpos.ne'
  have hthousand : (1000 : ℚ) = 10 ^ 3 := by norm_num
  have hthree := @length_decimal_le_iff msecs 3 (by decide)
  have htwo := @length_decimal_le_iff msecs 2 (by decide)
  rw [div_eq_mul_inv, div_eq_mul_inv, mul_right_inj' hne, inv_inj, hthousand,
    pow_right_inj₀ (by norm_num) (by norm_num)]
  omega

/-- In this hour the time is read back unless zeros are dropped. -/
theorem readTime_minutes_iff {time : ℕ} (hle : 60000000 ≤ time) (hlt : time < 3600000000) :
    readTime (printTime time) = some (roundedTime time : ℚ) ↔ ¬DropsZeros time := by
  have hplace : smallestPlace time = 1000 := by
    rw [smallestPlace, if_neg (by omega), if_neg (by omega), if_pos (by omega)]
  have hsum : roundedTime time = time / 60000000 * 60000000 +
      (time % 60000000 / 1000000 * 1000000 + time % 1000000 / 1000 * 1000) := by
    rw [roundedTime_eq hplace]
    omega
  have hdrops : DropsZeros time ↔
      1 ≤ time % 1000000 / 1000 ∧ time % 1000000 / 1000 ≤ 99 :=
    ⟨fun h => h.2.2, fun h => ⟨hle, hlt, h⟩⟩
  rw [readTime_minutes hle hlt, hdrops, ← fraction_eq_iff (by omega), Option.some_inj, hsum]
  push_cast
  constructor
  · intro heq
    linarith
  · intro heq
    rw [heq]
    ring

/-- Rounded times are ordered as the times are, although the places are not the same. -/
theorem roundedTime_mono {time time' : ℕ} (h : time ≤ time') :
    roundedTime time ≤ roundedTime time' := by
  unfold roundedTime smallestPlace
  split_ifs <;> omega

theorem readTime_eq_roundedTime_iff {time : ℕ} (h : time < 2 ^ 63) :
    readTime (printTime time) = some (roundedTime time : ℚ) ↔ ¬DropsZeros time := by
  by_cases hminutes : 60000000 ≤ time ∧ time < 3600000000
  · exact readTime_minutes_iff hminutes.1 hminutes.2
  · exact iff_of_true (readTime_printTime h hminutes)
      fun hdrops => hminutes ⟨hdrops.1, hdrops.2.1⟩

/-- **A printed time denotes the time, rounded down to the smallest place that is shown, exactly
when no zeros are dropped**: between a minute and an hour the milliseconds must not be 1 to 99. The
values of such times are ordered as the times are. -/
theorem readTime_printTime_iff {time : ℕ} (h : time < 2 ^ 63) :
    (readTime (printTime time) = some (roundedTime time : ℚ) ↔ ¬DropsZeros time) ∧
    ∀ time' : ℕ, time ≤ time' → time' < 2 ^ 63 → ¬DropsZeros time → ¬DropsZeros time' →
      ∃ q q', readTime (printTime time) = some q ∧ readTime (printTime time') = some q' ∧
        q ≤ q' := by
  refine ⟨readTime_eq_roundedTime_iff h, fun time' hle hlt hexact hexact' => ?_⟩
  exact ⟨_, _, (readTime_eq_roundedTime_iff h).mpr hexact,
    (readTime_eq_roundedTime_iff hlt).mpr hexact', Nat.cast_le.mpr (roundedTime_mono hle)⟩

/-- A time of 1h23m45.678901s is read back without its milliseconds, and comes before 2 days. -/
theorem readTime_printTime_hour :
    readTime (printTime 5025678901) = some 5025000000 ∧
      ∃ q q', readTime (printTime 5025678901) = some q ∧
        readTime (printTime 172800000000) = some q' ∧ q ≤ q' := by
  obtain ⟨hread, horder⟩ := @readTime_printTime_iff 5025678901 (by decide)
  have hexact (time : ℕ) (h : 3600000000 ≤ time) : ¬DropsZeros time :=
    fun hdrops => absurd hdrops.2.1 (Nat.not_lt.mpr h)
  constructor
  · have hrounded : roundedTime 5025678901 = 5025000000 := by decide
    have heq := hread.mpr (hexact _ (by decide))
    rw [hrounded] at heq
    exact_mod_cast heq
  · exact_mod_cast horder 172800000000 (by decide) (by decide) (hexact _ (by decide))
      (hexact _ (by decide))

/-- A minute and 1.050 seconds is printed as `1m1.50s`, which is more than what is printed 150
milliseconds later. -/
theorem printTime_drops_zeros :
    printTime 61050000 = "1m1.50s".toList ∧ readTime (printTime 61050000) = some 61500000 ∧
      readTime (printTime 61050000) ≠ some (roundedTime 61050000 : ℚ) ∧
      readTime (printTime 61200000) = some 61200000 := by
  have hdropped : readTime (printTime 61050000) = some 61500000 := by
    have hread := @readTime_minutes 61050000 (by decide) (by decide)
    have hlength : (decimal 0 (61050000 % 1000000 / 1000)).length = 2 := by decide
    rw [hlength] at hread
    norm_num at hread
    exact hread
  have hkept : readTime (printTime 61200000) = some 61200000 := by
    have hread := @readTime_minutes 61200000 (by decide) (by decide)
    have hlength : (decimal 0 (61200000 % 1000000 / 1000)).length = 3 := by decide
    rw [hlength] at hread
    norm_num at hread
    exact hread
  have hrounded : roundedTime 61050000 = 61050000 := by decide
  refine ⟨rfl, hdropped, ?_, hkept⟩
  rw [hdropped, hrounded]
  norm_num

end Times

section Sizes

/-- The loop of `print_size` ends with a number and a place in the table for every large bound
on its passes, and the number is the value in the unit of that place. -/
structure ScaledSize (value number : ℚ) (place : ℕ) : Prop where
  ends : ∃ passes, ∀ n, passes ≤ n → printSizeLoop n value 0 = (number, place)
  value_eq : value = number * 1024 ^ place
  le : number ≤ 1024
  gt : 0 < place → 1 < number

/-- The characters of the units. -/
def sizeUnits : List Char := " KMGT".toList

variable {value : ℚ} {n o : ℕ}

/-- Each pass divides the number and goes on by one place. -/
theorem printSizeLoop_value (n : ℕ) (value : ℚ) (o : ℕ) :
    ∃ k, (printSizeLoop n value o).2 = o + k ∧
      value = (printSizeLoop n value o).1 * 1024 ^ k ∧
      (0 < k → 1 < (printSizeLoop n value o).1) := by
  induction n generalizing value o with
  | zero => exact ⟨0, rfl, by rw [printSizeLoop, pow_zero, mul_one], fun h => absurd h (by decide)⟩
  | succ n ih =>
    rw [printSizeLoop]
    split
    · rename_i hlarge
      obtain ⟨k, hplace, hvalue, hgt⟩ := ih (value / 1024) (o + 1)
      refine ⟨k + 1, by omega, ?_, fun _ => ?_⟩
      · rw [pow_succ, ← mul_assoc, ← hvalue, div_mul_cancel₀ _ (by norm_num)]
      · obtain rfl | hpos := Nat.eq_zero_or_pos k
        · rw [pow_zero, mul_one] at hvalue
          rw [← hvalue, lt_div_iff₀ (by norm_num), one_mul]
          exact hlarge
        · exact hgt hpos
    · exact ⟨0, rfl, by rw [pow_zero, mul_one], fun h => absurd h (by decide)⟩

/-- With passes to spare the loop has ended. -/
theorem printSizeLoop_ends (h : value ≤ 1024 ^ (n + 1)) {n' : ℕ} (hn : n ≤ n') :
    printSizeLoop n' value o = printSizeLoop n value o ∧ (printSizeLoop n value o).1 ≤ 1024 := by
  induction n generalizing value o n' with
  | zero =>
    rw [zero_add, pow_one] at h
    refine ⟨?_, h⟩
    cases n' with
    | zero => rfl
    | succ n' => exact if_neg (not_lt.mpr h)
  | succ n ih =>
    obtain ⟨n', rfl⟩ := Nat.exists_eq_succ_of_ne_zero (by omega : n' ≠ 0)
    rw [printSizeLoop, printSizeLoop]
    split
    · refine ih ?_ (by omega)
      rw [div_le_iff₀ (by norm_num), ← pow_succ]
      exact h
    · rename_i hsmall
      exact ⟨rfl, not_lt.mp hsmall⟩

/-- Where the loop ends is told by the size of the value. -/
theorem ScaledSize.place_le_iff {number : ℚ} {place k : ℕ} (h : ScaledSize value number place) :
    place ≤ k ↔ value ≤ 1024 ^ (k + 1) := by
  obtain ⟨passes, hends⟩ := h.ends
  have hiff := @printSizeLoop_place_le_iff value (passes + (k + 1)) 0 k (by omega)
  rwa [hends _ (Nat.le_add_right _ _), Nat.zero_add] at hiff

/-- The loop ends for each size. -/
theorem exists_scaledSize (size : UInt64) :
    ∃ number place, ScaledSize size.toNat number place := by
  have hsize : (size.toNat : ℚ) ≤ 1024 ^ (6 + 1) := by
    have hlt := size.toNat_lt
    exact_mod_cast (by omega : size.toNat ≤ 1024 ^ 7)
  obtain ⟨k, hk, hvalue, hgt⟩ := printSizeLoop_value 6 (size.toNat : ℚ) 0
  rw [Nat.zero_add] at hk
  refine ⟨(printSizeLoop 6 (size.toNat : ℚ) 0).1, k, ⟨6, fun n hn => ?_⟩, hvalue, ?_, hgt⟩
  · rw [(printSizeLoop_ends hsize hn).1, ← hk]
  · exact (printSizeLoop_ends hsize (Nat.le_refl 6)).2

/-- **The unit of a printed size is one of the five exactly for sizes up to 1024 TiB.** -/
theorem printSize_unit_iff (size : UInt64) :
    (∃ number place, ScaledSize size.toNat number place ∧ place < sizeUnits.length) ↔
      size.toNat ≤ 1024 ^ 5 := by
  have hunit {number : ℚ} {place : ℕ} (h : ScaledSize size.toNat number place) :
      place < sizeUnits.length ↔ size.toNat ≤ 1024 ^ 5 := by
    rw [show sizeUnits.length = 4 + 1 from rfl, Nat.lt_succ_iff, h.place_le_iff]
    exact_mod_cast Iff.rfl
  constructor
  · rintro ⟨number, place, hscaled, hlt⟩
    exact (hunit hscaled).mp hlt
  · intro h
    obtain ⟨number, place, hscaled⟩ := exists_scaledSize size
    exact ⟨number, place, hscaled, (hunit hscaled).mpr h⟩

/-- A size of one byte more than 1024 TiB ends at the character behind the units, which terminates
the table. -/
theorem printSize_leaves_units :
    (∃ number, ScaledSize 1125899906842625 number 5) ∧ ordbig[5]? = some '\x00' ∧
      ¬∃ number place, ScaledSize 1125899906842625 number place ∧ place < sizeUnits.length := by
  obtain ⟨number, place, hscaled⟩ := exists_scaledSize 1125899906842625
  have hsize : ((1125899906842625 : UInt64).toNat : ℚ) = 1125899906842625 := by
    exact_mod_cast (by decide : (1125899906842625 : UInt64).toNat = 1125899906842625)
  rw [hsize] at hscaled
  have hle : place ≤ 5 := hscaled.place_le_iff.mpr (by norm_num)
  have hbehind {number : ℚ} {place : ℕ} (h : ScaledSize 1125899906842625 number place) :
      ¬place ≤ 4 := by
    rw [h.place_le_iff]
    norm_num
  refine ⟨⟨number, ?_⟩, rfl, ?_⟩
  · have hlast := hbehind hscaled
    rwa [show place = 5 by omega] at hscaled
  · rintro ⟨number, place, h, hlt⟩
    exact hbehind h (Nat.lt_succ_iff.mp hlt)

end Sizes

end DiskBench
