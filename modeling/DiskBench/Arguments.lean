import Mathlib.Data.Nat.Find
import DiskBench.Slots

/-!
# Sizes on the command line

`parse_size` with the options `-s`, `-q`, `-r` and `-c` of `main`, and the arrays that `main` makes
of them before the tests. A string is the list of its characters; what the portable runtime makes
of a string is given by `AprStrings`.
-/

namespace DiskBench

/-- The functions of the portable runtime that read arguments. -/
structure AprStrings where
  /-- `apr_strtoi64` in base 10: the value, and the string from `*end` on. -/
  strtoi64 : List Char → Int64 × List Char
  /-- The tokens that the calls of `apr_strtok` return one after the other. -/
  strtok : List Char → Char → List (List Char)

/-- The constant `K`. -/
def kilo : UInt64 := 1024

/-- The loop of `parse_size` over the letters of `ord`. -/
def unitLoop (rv : UInt64) (unit : Char) : List Char → UInt64 → UInt64
  | [], _ => rv
  | o :: ord, factor => if unit = o then rv * factor else unitLoop rv unit ord (factor * kilo)

/-- `parse_size`. -/
def parseSize (apr : AprStrings) (value : List Char) : UInt64 :=
  let parsed := apr.strtoi64 value
  unitLoop parsed.1.toUInt64 (parsed.2.headD '\x00') ['K', 'M', 'G', 'T'] kilo

/-- The options of `main` about sizes and depths, with their arguments. -/
inductive SweepOption where
  /-- `-s`. -/
  | sectorSize (optarg : List Char)
  /-- `-q`. -/
  | queueDepth (optarg : List Char)
  /-- `-r`. -/
  | requestSize (optarg : List Char)
  /-- `-c`, with the value of `atoi(optarg)`. -/
  | complete (value : Int32)

/-- The variables of `main` that these options set. -/
structure Sweep where
  sectorSize : UInt32
  queueDepthArray : List UInt32
  requestsizeArrayRandom : List UInt64
  requestsizeArraySequential : List UInt64
  autoTerminateRequest : Bool
  autoTerminateDepth : Bool
  quick : Bool

/-- The variables before the first option. -/
def Sweep.initial : Sweep := ⟨512, [], [], [], true, true, true⟩

/-- The variables after one more option. -/
def Sweep.next (apr : AprStrings) (sweep : Sweep) : SweepOption → Sweep
  | .sectorSize optarg => { sweep with sectorSize := (parseSize apr optarg).toUInt32 }
  | .queueDepth optarg =>
    let depths := (apr.strtok optarg ',').map fun last => (parseSize apr last).toUInt32
    { sweep with
      queueDepthArray := sweep.queueDepthArray ++ depths
      autoTerminateDepth := false }
  | .requestSize optarg =>
    let sizes := (apr.strtok optarg ',').map (parseSize apr)
    { sweep with
      requestsizeArrayRandom := sweep.requestsizeArrayRandom ++ sizes
      requestsizeArraySequential := sweep.requestsizeArraySequential ++ sizes
      autoTerminateRequest := false }
  | .complete value => { sweep with quick := !(value == 1) }

/-- The variables after all options. -/
def Sweep.parse (apr : AprStrings) (options : List SweepOption) : Sweep :=
  options.foldl (Sweep.next apr) .initial

/-- The loop that fills `queue_depth_array` with the powers of two up to `MAX_QUEUE_SIZE`, with a
bound on its passes. -/
def depthLoop : ℕ → Int32 → List UInt32 → List UInt32
  | 0, _, array => array
  | n + 1, i, array =>
    let array := array ++ [i.toUInt32]
    if i * 2 ≤ 4096 then depthLoop n (i * 2) array else array

/-- The bound on the passes is not reached. -/
theorem depthLoop_default (n : ℕ) :
    depthLoop (n + 13) 1 [] = [1, 2, 4, 8, 16, 32, 64, 128, 256, 512, 1024, 2048, 4096] := by
  simp only [depthLoop]
  rfl

/-- The loop that fills the request sizes of a complete test, with at most `fuel` passes. -/
def requestsizeLoop (bound : UInt64) : ℕ → Int32 → Sweep → Option Sweep
  | 0, _, _ => none
  | fuel + 1, i, sweep =>
    if i.toInt64.toUInt64 ≤ bound then
      requestsizeLoop bound fuel (i * 2) { sweep with
        requestsizeArrayRandom := sweep.requestsizeArrayRandom ++ [i.toInt64.toUInt64]
        requestsizeArraySequential := sweep.requestsizeArraySequential ++ [i.toInt64.toUInt64] }
    else some sweep

/-- The depths that `main` tests without `-q`. -/
def Sweep.completeDepths (sweep : Sweep) : Sweep :=
  if sweep.queueDepthArray.isEmpty then
    { sweep with queueDepthArray := depthLoop 13 1 sweep.queueDepthArray }
  else sweep

/-- The request sizes that `main` tests without `-r`, with at most `fuel` passes of the loop. -/
def Sweep.completeSizes (fuel : ℕ) (iobufsize : UInt64) (nelts : Int32) (sweep : Sweep) :
    Option Sweep :=
  if sweep.requestsizeArrayRandom.isEmpty && sweep.requestsizeArraySequential.isEmpty then
    if sweep.quick then
      some { sweep with
        requestsizeArrayRandom := sweep.requestsizeArrayRandom ++ [4 * 1024]
        requestsizeArraySequential := sweep.requestsizeArraySequential ++ [128 * 1024] }
    else
      requestsizeLoop (iobufsize / nelts.toInt64.toUInt64) fuel sweep.sectorSize.toInt32 sweep
  else some sweep

/-- `main` completes the arrays before the tests. -/
def Sweep.complete (fuel : ℕ) (iobufsize : UInt64) (nelts : Int32) (sweep : Sweep) :
    Option Sweep :=
  sweep.completeDepths.completeSizes fuel iobufsize nelts

/-- The depths are completed apart from everything else. -/
theorem Sweep.completeDepths_eq (sweep : Sweep) :
    ∃ depths, sweep.completeDepths = { sweep with queueDepthArray := depths } := by
  unfold Sweep.completeDepths
  split
  · exact ⟨_, rfl⟩
  · exact ⟨_, rfl⟩

/-- The sizes that a complete list holds: `s * 2^k` for every `k` with `s * 2^k ≤ bound`, in
increasing order. -/
structure CompleteList (s bound : ℕ) (array : List UInt64) : Prop where
  sorted : (array.map UInt64.toNat).Pairwise (· < ·)
  mem_iff : ∀ v, v ∈ array.map UInt64.toNat ↔ ∃ k, v = s * 2 ^ k ∧ v ≤ bound

section RequestsizeLoop

variable {bound : UInt64} {fuel : ℕ} {sweep : Sweep} {s : UInt32}

/-- The variables after sizes have been pushed on both arrays. -/
def Sweep.push (sweep : Sweep) (sizes : List UInt64) : Sweep :=
  { sweep with
    requestsizeArrayRandom := sweep.requestsizeArrayRandom ++ sizes
    requestsizeArraySequential := sweep.requestsizeArraySequential ++ sizes }

theorem Sweep.push_push (sweep : Sweep) (sizes sizes' : List UInt64) :
    (sweep.push sizes).push sizes' = sweep.push (sizes ++ sizes') := by
  simp [Sweep.push]

/-- The loop variable after `k` passes. -/
def loopVariable (s : UInt32) (k : ℕ) : Int32 := (UInt32.ofNat (s.toNat * 2 ^ k)).toInt32

theorem loopVariable_zero (s : UInt32) : loopVariable s 0 = s.toInt32 := by
  simp [loopVariable]

theorem loopVariable_succ (s : UInt32) (k : ℕ) :
    loopVariable s k * 2 = loopVariable s (k + 1) := by
  have hword : UInt32.ofNat (s.toNat * 2 ^ k) * 2 = UInt32.ofNat (s.toNat * 2 ^ (k + 1)) := by
    rw [Nat.pow_succ, ← Nat.mul_assoc, UInt32.ofNat_mul (s.toNat * 2 ^ k) 2]
    rfl
  rw [loopVariable, loopVariable, ← hword]
  rfl

/-- One pass pushes the loop variable, sign extended. -/
theorem requestsizeLoop_le {k : ℕ} (h : (loopVariable s k).toInt64.toUInt64 ≤ bound) :
    requestsizeLoop bound (fuel + 1) (loopVariable s k) sweep =
      requestsizeLoop bound fuel (loopVariable s (k + 1))
        (sweep.push [(loopVariable s k).toInt64.toUInt64]) := by
  rw [requestsizeLoop, if_pos h, loopVariable_succ]
  rfl

/-- From a loop variable of 0 on the loop never ends. -/
theorem requestsizeLoop_zero (bound : UInt64) (fuel : ℕ) (sweep : Sweep) :
    requestsizeLoop bound fuel 0 sweep = none := by
  induction fuel generalizing sweep with
  | zero => rfl
  | succ fuel ih =>
    rw [requestsizeLoop, if_pos (show (0 : Int32).toInt64.toUInt64 ≤ bound from UInt64.zero_le)]
    exact ih _

/-- All sizes that the loop pushes are sign extended values of its variable. -/
theorem requestsizeLoop_signExtend {i : Int32} {sweep' : Sweep}
    (h : requestsizeLoop bound fuel i sweep = some sweep') :
    ∃ sizes, sweep' = sweep.push sizes ∧
      ∀ size ∈ sizes, ∃ x : UInt32, size = x.toInt32.toInt64.toUInt64 := by
  induction fuel generalizing i sweep with
  | zero => cases h
  | succ fuel ih =>
    rw [requestsizeLoop] at h
    split at h
    · obtain ⟨sizes, rfl, hsizes⟩ := ih h
      refine ⟨[i.toInt64.toUInt64] ++ sizes, sweep.push_push _ sizes, fun size hsize => ?_⟩
      rw [List.singleton_append, List.mem_cons] at hsize
      obtain rfl | hsize := hsize
      · exact ⟨i.toUInt32, rfl⟩
      · exact hsizes size hsize
    · cases h
      exact ⟨[], by simp [Sweep.push], fun size hsize => absurd hsize List.not_mem_nil⟩

/-- A value between 2^31 and 2^32 is never pushed. -/
theorem not_mem_of_signExtend {sizes : List UInt64} {v : ℕ}
    (h : ∀ size ∈ sizes, ∃ x : UInt32, size = x.toInt32.toInt64.toUInt64)
    (hlow : 2 ^ 31 ≤ v) (hhigh : v < 2 ^ 32) : v ∉ sizes.map UInt64.toNat := by
  intro hv
  obtain ⟨size, hsize, rfl⟩ := List.mem_map.mp hv
  obtain ⟨x, rfl⟩ := h size hsize
  rw [toNat_signExtend] at hlow hhigh
  have hlt := x.toNat_lt
  split at hlow <;> split at hhigh <;> omega

/-- The comparison of a loop variable that is a size below 2^32 with the bound. -/
theorem loopVariable_toNat {k : ℕ} (h : s.toNat * 2 ^ k < 2 ^ 32) :
    (loopVariable s k).toInt64.toUInt64.toNat =
      if s.toNat * 2 ^ k < 2 ^ 31 then s.toNat * 2 ^ k
      else s.toNat * 2 ^ k + (2 ^ 64 - 2 ^ 32) := by
  rw [loopVariable, toNat_signExtend, UInt32.toNat_ofNat_of_lt' h]

/-- The first size above the bound. -/
theorem exists_first_above (hs : s ≠ 0) (bound : ℕ) :
    ∃ n, bound < s.toNat * 2 ^ n ∧ ∀ k < n, s.toNat * 2 ^ k ≤ bound := by
  have hpos : 0 < s.toNat := Nat.pos_of_ne_zero fun hzero => hs (UInt32.toNat_inj.mp hzero)
  have hex : ∃ n, bound < s.toNat * 2 ^ n :=
    ⟨bound, Nat.lt_of_lt_of_le Nat.lt_two_pow_self (Nat.le_mul_of_pos_left _ hpos)⟩
  exact ⟨Nat.find hex, Nat.find_spec hex, fun k hk => Nat.le_of_not_lt (Nat.find_min hex hk)⟩

/-- A size whose predecessors are below 2^31 is below 2^32. -/
theorem size_lt_of_below {n : ℕ} (h : ∀ k < n, s.toNat * 2 ^ k < 2 ^ 31) :
    s.toNat * 2 ^ n < 2 ^ 32 := by
  cases n with
  | zero => simpa using s.toNat_lt
  | succ m =>
    have hm := h m (Nat.lt_succ_self m)
    rw [Nat.pow_succ, ← Nat.mul_assoc]
    omega

/-- The first size above the bound ends the loop when the sizes up to the bound are below 2^31. -/
theorem loopVariable_above {n : ℕ} (habove : bound.toNat < s.toNat * 2 ^ n)
    (hbelow : ∀ k < n, s.toNat * 2 ^ k ≤ bound.toNat)
    (hsmall : ∀ k, s.toNat * 2 ^ k ≤ bound.toNat → s.toNat * 2 ^ k < 2 ^ 31) :
    ¬(loopVariable s n).toInt64.toUInt64 ≤ bound := by
  have hlt := size_lt_of_below fun k hk => hsmall k (hbelow k hk)
  rw [UInt64.le_iff_toNat_le, loopVariable_toNat hlt]
  split <;> omega

/-- The sizes below 2^31 that do not exceed the bound are pushed one after the other, and the loop
ends behind them. -/
theorem requestsizeLoop_ends {n : ℕ} (habove : bound.toNat < s.toNat * 2 ^ n)
    (hbelow : ∀ k < n, s.toNat * 2 ^ k ≤ bound.toNat)
    (hsmall : ∀ k, s.toNat * 2 ^ k ≤ bound.toNat → s.toNat * 2 ^ k < 2 ^ 31) {k : ℕ} (hk : k ≤ n)
    (sweep : Sweep) :
    requestsizeLoop bound (n - k + 1) (loopVariable s k) sweep =
      some (sweep.push ((List.range' k (n - k)).map fun j => UInt64.ofNat (s.toNat * 2 ^ j))) := by
  induction hd : n - k generalizing k sweep with
  | zero =>
    obtain rfl : k = n := by omega
    rw [requestsizeLoop, if_neg (loopVariable_above habove hbelow hsmall)]
    simp [Sweep.push]
  | succ d ih =>
    have hle := hbelow k (by omega)
    have hlt := hsmall k hle
    have hvalue : (loopVariable s k).toInt64.toUInt64 = UInt64.ofNat (s.toNat * 2 ^ k) := by
      apply UInt64.toNat_inj.mp
      rw [loopVariable_toNat (by omega), if_pos hlt,
        UInt64.toNat_ofNat_of_lt' (Nat.lt_trans hlt (by decide))]
    have hpass : (loopVariable s k).toInt64.toUInt64 ≤ bound := by
      rw [UInt64.le_iff_toNat_le, loopVariable_toNat (by omega), if_pos hlt]
      exact hle
    rw [requestsizeLoop_le hpass, ih (by omega) _ (by omega), Sweep.push_push, hvalue,
      List.range'_succ, List.map_cons, List.singleton_append]

/-- The list of all sizes up to the bound is complete. -/
theorem completeList_map {n bound : ℕ} (hs : s ≠ 0) (hbound : bound < 2 ^ 64)
    (habove : bound < s.toNat * 2 ^ n) (hbelow : ∀ k < n, s.toNat * 2 ^ k ≤ bound) :
    CompleteList s.toNat bound
      ((List.range n).map fun j => UInt64.ofNat (s.toNat * 2 ^ j)) := by
  have hpos : 0 < s.toNat := Nat.pos_of_ne_zero fun hzero => hs (UInt32.toNat_inj.mp hzero)
  have hsizes : ((List.range n).map fun j => UInt64.ofNat (s.toNat * 2 ^ j)).map UInt64.toNat =
      (List.range n).map fun j => s.toNat * 2 ^ j := by
    rw [List.map_map]
    refine List.map_congr_left fun j hj => ?_
    have hle := hbelow j (List.mem_range.mp hj)
    exact UInt64.toNat_ofNat_of_lt' (Nat.lt_of_le_of_lt hle hbound)
  constructor
  · rw [hsizes, List.pairwise_map]
    refine List.pairwise_lt_range.imp fun hij => ?_
    exact Nat.mul_lt_mul_of_pos_left (Nat.pow_lt_pow_right (Nat.lt_succ_self 1) hij) hpos
  · intro v
    rw [hsizes, List.mem_map]
    constructor
    · rintro ⟨j, hj, rfl⟩
      exact ⟨j, rfl, hbelow j (List.mem_range.mp hj)⟩
    · rintro ⟨k, rfl, hle⟩
      refine ⟨k, List.mem_range.mpr ?_, rfl⟩
      by_contra hk
      have hmono := Nat.mul_le_mul_left s.toNat
        (Nat.pow_le_pow_right Nat.two_pos (Nat.le_of_not_lt hk))
      omega

/-- **The complete list.** The loop ends with the complete list on both arrays exactly when the
sector size is not 0 and the sizes up to the bound are below 2^31. -/
theorem requestsizeLoop_complete_iff (hrandom : sweep.requestsizeArrayRandom = [])
    (hsequential : sweep.requestsizeArraySequential = []) :
    (∃ fuel sweep', requestsizeLoop bound fuel s.toInt32 sweep = some sweep' ∧
        CompleteList s.toNat bound.toNat sweep'.requestsizeArrayRandom ∧
        CompleteList s.toNat bound.toNat sweep'.requestsizeArraySequential) ↔
      s ≠ 0 ∧ ∀ k, s.toNat * 2 ^ k ≤ bound.toNat → s.toNat * 2 ^ k < 2 ^ 31 := by
  constructor
  · rintro ⟨fuel, sweep', hloop, hcomplete, _⟩
    have hs : s ≠ 0 := by
      rintro rfl
      rw [show UInt32.toInt32 0 = 0 from rfl, requestsizeLoop_zero] at hloop
      cases hloop
    refine ⟨hs, fun k hle => ?_⟩
    by_contra hlarge
    -- The first size from 2^31 on is below 2^32, and the loop variable cannot hold it.
    obtain ⟨n, habove, hbelow⟩ := exists_first_above hs (2 ^ 31 - 1)
    have hn : n ≤ k := by
      by_contra hk
      have := hbelow k (Nat.lt_of_not_le hk)
      omega
    have hmono := Nat.mul_le_mul_left s.toNat (Nat.pow_le_pow_right Nat.two_pos hn)
    have hmem := (hcomplete.mem_iff _).mpr ⟨n, rfl, hmono.trans hle⟩
    have hhigh := @size_lt_of_below s n fun j hj => by
      have := hbelow j hj
      omega
    obtain ⟨sizes, rfl, hsizes⟩ := requestsizeLoop_signExtend hloop
    rw [Sweep.push, hrandom] at hmem
    exact not_mem_of_signExtend hsizes (by omega) hhigh hmem
  · rintro ⟨hs, hsmall⟩
    obtain ⟨n, habove, hbelow⟩ := exists_first_above hs bound.toNat
    have hends := requestsizeLoop_ends habove hbelow hsmall (Nat.zero_le n) sweep
    rw [loopVariable_zero, Nat.sub_zero, ← List.range_eq_range'] at hends
    have hlist := completeList_map hs bound.toNat_lt habove hbelow
    refine ⟨_, _, hends, ?_, ?_⟩
    · rw [Sweep.push, hrandom]
      exact hlist
    · rw [Sweep.push, hsequential]
      exact hlist

end RequestsizeLoop

/-- Without `-r` the arrays of request sizes are empty after the options. -/
theorem parse_sizes_nil (apr : AprStrings) {options : List SweepOption}
    (h : ∀ optarg, .requestSize optarg ∉ options) :
    (Sweep.parse apr options).requestsizeArrayRandom = [] ∧
      (Sweep.parse apr options).requestsizeArraySequential = [] := by
  suffices hfold : ∀ sweep : Sweep, sweep.requestsizeArrayRandom = [] ∧
      sweep.requestsizeArraySequential = [] →
        (options.foldl (Sweep.next apr) sweep).requestsizeArrayRandom = [] ∧
          (options.foldl (Sweep.next apr) sweep).requestsizeArraySequential = [] from
    hfold .initial ⟨rfl, rfl⟩
  induction options with
  | nil => exact fun _ hnil => hnil
  | cons o options ih =>
    intro sweep hnil
    refine ih (fun optarg hmem => h optarg (List.mem_cons_of_mem _ hmem)) _ ?_
    cases o with
    | requestSize optarg => exact absurd List.mem_cons_self (h optarg)
    | sectorSize optarg => exact hnil
    | queueDepth optarg => exact hnil
    | complete value => exact hnil

/-- In a complete test without `-r` the arrays are filled by the loop. -/
theorem completeSizes_eq_loop {sweep : Sweep} (hrandom : sweep.requestsizeArrayRandom = [])
    (hsequential : sweep.requestsizeArraySequential = []) (hquick : sweep.quick = false)
    (fuel : ℕ) (iobufsize : UInt64) (nelts : Int32) :
    sweep.completeSizes fuel iobufsize nelts =
      requestsizeLoop (iobufsize / nelts.toInt64.toUInt64) fuel sweep.sectorSize.toInt32 sweep := by
  rw [Sweep.completeSizes, hrandom, hsequential, hquick]
  rfl

/-- The request sizes of a complete test without `-r`, for any arguments of `-s`: the loop of `main`
ends with all sizes `sector_size * 2^k` up to the share of a worker in the buffer, in increasing
order on both arrays, exactly when the narrowed sector size is not 0 and these sizes are all below
2^31. -/
theorem defaultSizes_complete_iff (apr : AprStrings) (options : List SweepOption)
    (hsizes : ∀ optarg, .requestSize optarg ∉ options)
    (hcomplete : (Sweep.parse apr options).quick = false) (iobufsize : UInt64) {nelts : Int32}
    (hnelts : 1 ≤ nelts) :
    (∃ fuel sweep, (Sweep.parse apr options).complete fuel iobufsize nelts = some sweep ∧
        CompleteList (Sweep.parse apr options).sectorSize.toNat
          (iobufsize.toNat / nelts.toInt.toNat) sweep.requestsizeArrayRandom ∧
        CompleteList (Sweep.parse apr options).sectorSize.toNat
          (iobufsize.toNat / nelts.toInt.toNat) sweep.requestsizeArraySequential) ↔
      (Sweep.parse apr options).sectorSize ≠ 0 ∧
        ∀ k, (Sweep.parse apr options).sectorSize.toNat * 2 ^ k ≤
            iobufsize.toNat / nelts.toInt.toNat →
          (Sweep.parse apr options).sectorSize.toNat * 2 ^ k < 2 ^ 31 := by
  obtain ⟨hrandom, hsequential⟩ := parse_sizes_nil apr hsizes
  obtain ⟨depths, hdepths⟩ := (Sweep.parse apr options).completeDepths_eq
  have hbound : (iobufsize / nelts.toInt64.toUInt64).toNat =
      iobufsize.toNat / nelts.toInt.toNat := by
    have hword := toNat_signExtend nelts.toUInt32
    have hnat := toNat_toUInt32_of_pos hnelts
    have hlt := nelts.toInt_lt
    rw [if_pos (by omega), hnat] at hword
    rw [UInt64.toNat_div]
    exact congrArg (iobufsize.toNat / ·) hword
  have hloop := fun fuel => completeSizes_eq_loop (show
    ({ Sweep.parse apr options with queueDepthArray := depths } : Sweep).requestsizeArrayRandom = []
      from hrandom) hsequential hcomplete fuel iobufsize nelts
  rw [← hbound]
  simp only [Sweep.complete, hdepths, hloop]
  exact requestsizeLoop_complete_iff hrandom hsequential

/-- White space, as `isspace` has it in the C locale. -/
def isSpace (c : Char) : Bool := c = ' ' || '\t' ≤ c && c ≤ '\r'

/-- The number of the digits at the start of a string, and the string behind them. -/
def scanDigits : List Char → ℕ → ℕ × List Char
  | [], n => (n, [])
  | c :: cs, n => if c.isDigit then scanDigits cs (10 * n + (c.toNat - 48)) else (n, c :: cs)

/-- What `apr_strtoi64` documents for base 10: blanks, a sign and digits are read, a value out of
range becomes the nearest one in range, and a string without digits is 0 and left as it is. -/
def strtoi64 (s : List Char) : Int64 × List Char :=
  let body := s.dropWhile isSpace
  let negative := body.head? = some '-'
  let digits := if negative ∨ body.head? = some '+' then body.tail else body
  if digits.head?.any Char.isDigit then
    let scanned := scanDigits digits 0
    let value : ℤ := if negative then -scanned.1 else scanned.1
    (Int64.ofInt (max (-9223372036854775808) (min 9223372036854775807 value)), scanned.2)
  else (0, s)

/-- What `apr_strtok` documents: the nonempty strings between the separators. -/
def strtok (s : List Char) (sep : Char) : List (List Char) :=
  (s.splitBy fun a b => (a == sep) == (b == sep)).filter fun token => token.head? != some sep

/-- The documented functions. -/
def documented : AprStrings := ⟨strtoi64, strtok⟩

/-- The statement for a sector size of 4K, a buffer of 16K and one worker. -/
theorem defaultSizes_complete_4K :
    (∃ fuel sweep, (Sweep.parse documented
        [.sectorSize ['4', 'K'], .complete 1]).complete fuel 16384 1 = some sweep ∧
      CompleteList 4096 16384 sweep.requestsizeArrayRandom ∧
      CompleteList 4096 16384 sweep.requestsizeArraySequential) := by
  have hsector : (Sweep.parse documented [.sectorSize ['4', 'K'], .complete 1]).sectorSize = 4096 :=
    by decide
  have h := defaultSizes_complete_iff documented [.sectorSize ['4', 'K'], .complete 1]
    (by simp) (by decide) 16384 (show (1 : Int32) ≤ 1 by decide)
  rw [hsector] at h
  refine h.mpr ⟨by decide, fun k hk => Nat.lt_of_le_of_lt hk (by decide)⟩

/-- With `-s 0 -c 1` the loop never ends. -/
theorem defaultSizes_zero_sector : ¬∃ fuel sweep, (Sweep.parse documented
    [.sectorSize ['0'], .complete 1]).complete fuel (32 * 1024 * 1024) 1 = some sweep := by
  rintro ⟨fuel, sweep, h⟩
  rw [Sweep.complete, completeSizes_eq_loop rfl rfl rfl] at h
  exact absurd ((requestsizeLoop_zero _ fuel _).symm.trans h) (by simp)

end DiskBench
