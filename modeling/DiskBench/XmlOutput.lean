import Mathlib.Algebra.Order.Ring.Rat
import Mathlib.Algebra.Order.Field.Basic
import Mathlib.Data.List.TakeWhile
import Mathlib.Data.UInt
import DiskBench.Foundations.Xml
import DiskBench.Types

/-!
# The XML output

The functions `print_xml_*` of `diskBench.c`, each of which adds one line to a fragment, with
`print_size` and `print_time`. A `%c` that prints the character 0 ends its string, and `print_size`
has no result where it reads behind its table of units. What the portable runtime makes of a
`double` is given by `AprFormat`.
-/

namespace DiskBench

/-- What `apr_psprintf` makes of a number with `%3.nf`: digits, with a point and blanks. -/
structure AprFormat where
  fixed : ℕ → ℚ → List Char
  fixed_mem : ∀ {decimals : ℕ} {value : ℚ} {c : Char}, 0 ≤ value → c ∈ fixed decimals value →
    c.isDigit ∨ c = '.' ∨ c = ' '

/-- A character without markup, and no bracket that may be part of some. -/
def isBare (c : Char) : Bool := Xml.isValue c && c ≠ ']'

/-- The formats of `print_size`: the decimals of the number, what comes before the unit and what
comes behind it, neither of them with markup. -/
structure SizeFormat where
  decimals : ℕ
  separator : List Char
  suffix : List Char
  noMarkup : (separator ++ suffix).all isBare := by decide

/-- `REQUEST_FMT`. -/
def requestFmt : SizeFormat where
  decimals := 1
  separator := [' ']
  suffix := []

/-- `THROUGHPUT_FMT`. -/
def throughputFmt : SizeFormat where
  decimals := 1
  separator := [' ']
  suffix := ['B', '/', 's']

/-- `BYTES_FMT`. -/
def bytesFmt : SizeFormat where
  decimals := 1
  separator := [' ']
  suffix := ['B']

/-- `IOPS_FMT`. -/
def iopsFmt : SizeFormat where
  decimals := 1
  separator := [' ']
  suffix := ['I', 'O', 'P', 'S']

/-- The format of `print_array_size`. -/
def arrayFmt : SizeFormat where
  decimals := 0
  separator := []
  suffix := ['B']

/-- The conversion of an unsigned number to a `double` with its 53 bits, to the nearest one and to
the even one of two. -/
def toDouble (x : UInt64) : ℕ :=
  let unit := 2 ^ (x.toNat.log2 - 52)
  let quotient := x.toNat / unit
  let rest := x.toNat % unit
  if unit < 2 * rest ∨ unit = 2 * rest ∧ quotient % 2 = 1 then (quotient + 1) * unit
  else quotient * unit

/-- The string up to its terminating character. -/
def cString (s : List Char) : List Char := s.takeWhile (· ≠ '\x00')

/-- The table of `print_size`, with its last character. -/
def ordbig : List Char := [' ', 'K', 'M', 'G', 'T', '\x00']

/-- The loop of `print_size`, with a bound on its passes: the number and the place in the table. -/
def printSizeLoop : ℕ → ℚ → ℕ → ℚ × ℕ
  | 0, value, o => (value, o)
  | n + 1, value, o => if value > 1024 then printSizeLoop n (value / 1024) (o + 1) else (value, o)

/-- `print_size` with the constant `K`. -/
def printSize (apr : AprFormat) (fmt : SizeFormat) (value : ℚ) : Option (List Char) :=
  let scaled := printSizeLoop 8 value 0
  ordbig[scaled.2]?.map fun unit =>
    cString (apr.fixed fmt.decimals scaled.1 ++ fmt.separator ++ unit :: fmt.suffix)

/-- A number as `%d` prints it, with leading zeros up to a width. -/
def printInt (width : ℕ) (x : UInt32) : List Char :=
  let n := x.toInt32.toInt
  if n < 0 then '-' :: (Nat.toDigits 10 n.natAbs).leftpad (width - 1) '0'
  else (Nat.toDigits 10 n.natAbs).leftpad width '0'

/-- `print_time`. -/
def printTime (time : AprTime) : List Char :=
  let oneSecond : AprTime := 1000000
  let oneMinute := 60 * oneSecond
  let oneHour := 60 * oneMinute
  let oneDay := 24 * oneHour
  let days := UInt32.ofInt (time.tdiv oneDay)
  let time := time - days.toNat * oneDay
  let hours := UInt32.ofInt (time.tdiv oneHour)
  let time := time - hours.toNat * oneHour
  let minutes := UInt32.ofInt (time.tdiv oneMinute)
  let time := time - minutes.toNat * oneMinute
  let seconds := UInt32.ofInt (time.tdiv oneSecond)
  let time := time - seconds.toNat * oneSecond
  let msecs := UInt32.ofInt ((time.tdiv 1000).tmod 1000)
  let time := time - msecs.toNat * 1000
  let usecs := UInt32.ofInt (time.tmod oneSecond)
  if days > 0 then
    printInt 0 days ++ 'd' :: printInt 0 hours ++ 'h' :: printInt 0 minutes ++ ['m']
  else if hours > 0 then
    printInt 0 hours ++ 'h' :: printInt 0 minutes ++ 'm' :: printInt 0 seconds ++ ['s']
  else if minutes > 0 then
    printInt 0 minutes ++ 'm' :: printInt 0 seconds ++ '.' :: printInt 0 msecs ++ ['s']
  else if seconds > 0 then printInt 0 seconds ++ '.' :: printInt 3 msecs ++ ['s']
  else if msecs > 0 then printInt 0 msecs ++ '.' :: printInt 3 usecs ++ ['m', 's']
  else printInt 0 usecs ++ ['u', 's']

/-- A number as `APR_UINT64_T_FMT` prints it. -/
def printUInt64 (number : UInt64) : List Char := Nat.toDigits 10 number.toNat

/-- `print_xml_start`. -/
def printXmlStart : List Char := "<?xml version='1.0'?>\n".toList

/-- `print_xml_tag_open`. -/
def printXmlTagOpen (xmlFragment tagname : List Char) : List Char :=
  xmlFragment ++ "<".toList ++ tagname ++ ">\n".toList

/-- `print_xml_tag_close`. -/
def printXmlTagClose (xmlFragment tagname : List Char) : List Char :=
  xmlFragment ++ "</".toList ++ tagname ++ ">\n".toList

/-- `print_xml_tag_str`. -/
def printXmlTagStr (xmlFragment tagname str : List Char) : List Char :=
  xmlFragment ++ "<".toList ++ tagname ++ " value=\"".toList ++ str ++ "\">".toList ++ str ++
    "</".toList ++ tagname ++ ">\n".toList

/-- `print_xml_tag_number`. -/
def printXmlTagNumber (xmlFragment tagname : List Char) (number : UInt64) : List Char :=
  xmlFragment ++ "<".toList ++ tagname ++ " value=\"".toList ++ printUInt64 number ++
    "\">".toList ++ printUInt64 number ++ "</".toList ++ tagname ++ ">\n".toList

/-- `print_xml_tag_size`. -/
def printXmlTagSize (apr : AprFormat) (xmlFragment tagname : List Char) (fmt : SizeFormat)
    (size : UInt64) : Option (List Char) :=
  (printSize apr fmt (toDouble size)).map fun formatted =>
    xmlFragment ++ "<".toList ++ tagname ++ " formatted=\"".toList ++ formatted ++
      "\" value=\"".toList ++ printUInt64 size ++ "\">".toList ++ printUInt64 size ++
      "</".toList ++ tagname ++ ">\n".toList

/-- `print_xml_tag_time`. -/
def printXmlTagTime (xmlFragment tagname : List Char) (time : AprTime) : List Char :=
  xmlFragment ++ "<".toList ++ tagname ++ " formatted=\"".toList ++ printTime time ++
    "\" value=\"".toList ++ printUInt64 (UInt64.ofInt time) ++ "\">".toList ++
    printUInt64 (UInt64.ofInt time) ++ "</".toList ++ tagname ++ ">\n".toList

/-- A call of one of these functions, without the fragment. -/
inductive XmlCall where
  | tagOpen (tagname : List Char)
  | tagClose (tagname : List Char)
  | tagStr (tagname str : List Char)
  | tagNumber (tagname : List Char) (number : UInt64)
  | tagSize (tagname : List Char) (fmt : SizeFormat) (size : UInt64)
  | tagTime (tagname : List Char) (time : AprTime)

/-- The fragment after a call. -/
def XmlCall.print (apr : AprFormat) (xmlFragment : List Char) : XmlCall → Option (List Char)
  | .tagOpen tagname => some (printXmlTagOpen xmlFragment tagname)
  | .tagClose tagname => some (printXmlTagClose xmlFragment tagname)
  | .tagStr tagname str => some (printXmlTagStr xmlFragment tagname str)
  | .tagNumber tagname number => some (printXmlTagNumber xmlFragment tagname number)
  | .tagSize tagname fmt size => printXmlTagSize apr xmlFragment tagname fmt size
  | .tagTime tagname time => some (printXmlTagTime xmlFragment tagname time)

/-- The fragment after calls one after another. -/
def printCalls (apr : AprFormat) (xmlFragment : List Char) (calls : List XmlCall) :
    Option (List Char) :=
  calls.foldlM (XmlCall.print apr) xmlFragment

section Characters

/-- A string of bare characters. -/
def NoMarkup (s : List Char) : Prop := ∀ c ∈ s, isBare c

theorem noMarkup_of_all {s : List Char} (h : s.all isBare) : NoMarkup s := List.all_eq_true.mp h

@[simp] theorem noMarkup_nil : NoMarkup [] := fun _ hc => absurd hc List.not_mem_nil

@[simp] theorem noMarkup_append {s t : List Char} : NoMarkup (s ++ t) ↔ NoMarkup s ∧ NoMarkup t :=
  List.forall_mem_append

@[simp] theorem noMarkup_cons {c : Char} {s : List Char} :
    NoMarkup (c :: s) ↔ isBare c ∧ NoMarkup s :=
  List.forall_mem_cons

/-- A digit is no markup. -/
theorem isBare_of_isDigit {c : Char} (h : c.isDigit) : isBare c := by
  have hne : ∀ x : Char, ¬x.isDigit → c ≠ x := by
    rintro x hx rfl
    exact hx h
  have hblank : 0x20 ≤ c.toNat := by
    simp only [Char.isDigit, Bool.and_eq_true, decide_eq_true_eq] at h
    exact (by decide : 0x20 ≤ 48).trans (UInt32.le_iff_toNat_le.mp h.1)
  simp [isBare, Xml.isValue, Xml.isText, Xml.isChar, hblank, hne '\uFFFE' (by decide),
    hne '\uFFFF' (by decide), hne '<' (by decide), hne '&' (by decide), hne '"' (by decide),
    hne ']' (by decide)]

theorem noMarkup_toDigits (n : ℕ) : NoMarkup (Nat.toDigits 10 n) := fun _ hc =>
  isBare_of_isDigit (Nat.isDigit_of_mem_toDigits (by decide) (by decide) hc)

theorem noMarkup_printUInt64 (number : UInt64) : NoMarkup (printUInt64 number) :=
  noMarkup_toDigits number.toNat

theorem noMarkup_leftpad (width n : ℕ) : NoMarkup ((Nat.toDigits 10 n).leftpad width '0') := by
  refine noMarkup_append.mpr ⟨fun c hc => ?_, noMarkup_toDigits n⟩
  rw [List.eq_of_mem_replicate hc]
  decide

theorem noMarkup_printInt (width : ℕ) (x : UInt32) : NoMarkup (printInt width x) := by
  unfold printInt
  dsimp only
  split
  · exact noMarkup_cons.mpr ⟨by decide, noMarkup_leftpad _ _⟩
  · exact noMarkup_leftpad _ _

/-- `print_time` prints no markup. -/
theorem noMarkup_printTime (time : AprTime) : NoMarkup (printTime time) := by
  unfold printTime
  dsimp only
  split_ifs <;>
    simp only [noMarkup_append, noMarkup_cons, noMarkup_nil, noMarkup_printInt] <;> decide

end Characters

section Sizes

variable {apr : AprFormat} {fmt : SizeFormat} {value : ℚ}

/-- The place in the table that the loop comes to, with passes to spare. -/
theorem printSizeLoop_place_le_iff {n o k : ℕ} (hk : k < n) :
    (printSizeLoop n value o).2 ≤ o + k ↔ value ≤ 1024 ^ (k + 1) := by
  induction n generalizing value o k with
  | zero => omega
  | succ n ih =>
    rw [printSizeLoop]
    split
    next hlarge =>
      cases k with
      | zero =>
        have hplace : o + 1 ≤ (printSizeLoop n (value / 1024) (o + 1)).2 := by
          clear ih hlarge hk
          induction n generalizing value o with
          | zero => exact Nat.le_refl _
          | succ n ih =>
            rw [printSizeLoop]
            split
            · exact (Nat.le_succ _).trans ih
            · exact Nat.le_refl _
        constructor
        · intro hle
          omega
        · intro hle
          rw [pow_one] at hle
          exact absurd hlarge (not_lt.mpr hle)
      | succ k =>
        have hdiv : value / 1024 ≤ 1024 ^ (k + 1) ↔ value ≤ 1024 ^ (k + 1 + 1) := by
          rw [div_le_iff₀ (by norm_num), ← pow_succ]
        rw [← hdiv, ← ih (by omega), show o + (k + 1) = o + 1 + k by omega]
    next hsmall =>
      have hone : (1024 : ℚ) ^ 1 ≤ 1024 ^ (k + 1) :=
        pow_le_pow_right₀ (by norm_num) (by omega)
      rw [pow_one] at hone
      exact ⟨fun _ => (not_lt.mp hsmall).trans hone, fun _ => Nat.le_add_right _ _⟩

theorem printSizeLoop_nonneg {n o : ℕ} (h : 0 ≤ value) : 0 ≤ (printSizeLoop n value o).1 := by
  induction n generalizing value o with
  | zero => exact h
  | succ n ih =>
    rw [printSizeLoop]
    split
    · exact ih (div_nonneg h (by norm_num))
    · exact h

/-- `print_size` stays in its table for numbers up to 1024^6. -/
theorem printSize_isSome_iff : (printSize apr fmt value).isSome ↔ value ≤ 1024 ^ 6 := by
  rw [← @printSizeLoop_place_le_iff value 8 0 5 (by omega), printSize, Option.isSome_map]
  rw [isSome_getElem?, Nat.zero_add]
  exact Nat.lt_succ_iff

/-- What `print_size` prints is no markup. -/
theorem noMarkup_printSize {formatted : List Char} (hvalue : 0 ≤ value)
    (h : printSize apr fmt value = some formatted) : NoMarkup formatted := by
  obtain ⟨unit, hunit, rfl⟩ := Option.map_eq_some_iff.mp h
  intro c hc
  have hmem := (List.takeWhile_prefix _).subset hc
  have hzero : c ≠ '\x00' := by simpa using List.mem_takeWhile_imp hc
  simp only [List.mem_append, List.mem_cons] at hmem
  obtain (hfixed | hseparator) | rfl | hsuffix := hmem
  · obtain hdigit | rfl | rfl := apr.fixed_mem (printSizeLoop_nonneg hvalue) hfixed
    · exact isBare_of_isDigit hdigit
    · decide
    · decide
  · exact noMarkup_of_all fmt.noMarkup c (List.mem_append_left _ hseparator)
  · have hunits : ordbig.all fun x => x = '\x00' || isBare x := rfl
    have hbare := List.all_eq_true.mp hunits c (List.mem_of_getElem? hunit)
    rwa [Bool.or_eq_true, decide_eq_true_eq, or_iff_right hzero] at hbare
  · exact noMarkup_of_all fmt.noMarkup c (List.mem_append_right _ hsuffix)

end Sizes

/-- The pieces of an element without elements, and the end of its line. -/
def leafTokens (tagname : List Char) (attributes : List Xml.Attribute) (text : List Char) :
    List Xml.Token :=
  .start tagname attributes :: text.map .char ++ [.stop tagname, .char '\n']

/-- What a call means: the pieces of its line. -/
def XmlCall.tokens (apr : AprFormat) : XmlCall → List Xml.Token
  | .tagOpen tagname => [.start tagname [], .char '\n']
  | .tagClose tagname => [.stop tagname, .char '\n']
  | .tagStr tagname str => leafTokens tagname [("value".toList, str)] str
  | .tagNumber tagname number =>
    leafTokens tagname [("value".toList, printUInt64 number)] (printUInt64 number)
  | .tagSize tagname fmt size =>
    leafTokens tagname [("formatted".toList, (printSize apr fmt (toDouble size)).getD []),
      ("value".toList, printUInt64 size)] (printUInt64 size)
  | .tagTime tagname time =>
    leafTokens tagname [("formatted".toList, printTime time),
      ("value".toList, printUInt64 (UInt64.ofInt time))] (printUInt64 (UInt64.ofInt time))

/-- What calls mean one after another. -/
def tokensOf (apr : AprFormat) (calls : List XmlCall) : List Xml.Token :=
  calls.flatMap (XmlCall.tokens apr)

/-- The text of calls. -/
def textOf (apr : AprFormat) (calls : List XmlCall) : List Char :=
  (tokensOf apr calls).flatMap Xml.Token.render

@[simp] theorem textOf_nil (apr : AprFormat) : textOf apr [] = [] := rfl

@[simp] theorem textOf_append (apr : AprFormat) (calls calls' : List XmlCall) :
    textOf apr (calls ++ calls') = textOf apr calls ++ textOf apr calls' := by
  simp [textOf, tokensOf]

/-- The sizes that `print_size` has a unit for. -/
def XmlCall.Printable : XmlCall → Prop
  | .tagSize _ _ size => (toDouble size : ℚ) ≤ 1024 ^ 6
  | _ => True

section Printing

variable {apr : AprFormat} {xmlFragment out : List Char} {calls : List XmlCall}

theorem render_leafTokens (tagname text : List Char) (attributes : List Xml.Attribute) :
    (leafTokens tagname attributes text).flatMap Xml.Token.render =
      '<' :: tagname ++ attributes.flatMap Xml.renderAttribute ++ '>' :: text ++
        '<' :: '/' :: tagname ++ ['>', '\n'] := by
  simp [leafTokens, Xml.Token.render, Xml.flatMap_render_chars]

/-- A call prints its pieces, when its size has a unit. -/
theorem print_eq_some_iff (call : XmlCall) : call.print apr xmlFragment = some out ↔
    call.Printable ∧ out = xmlFragment ++ (call.tokens apr).flatMap Xml.Token.render := by
  cases call with
  | tagOpen tagname =>
    simp [XmlCall.print, XmlCall.Printable, XmlCall.tokens, printXmlTagOpen, Xml.Token.render,
      eq_comm]
  | tagClose tagname =>
    simp [XmlCall.print, XmlCall.Printable, XmlCall.tokens, printXmlTagClose, Xml.Token.render,
      eq_comm]
  | tagStr tagname str =>
    simp [XmlCall.print, XmlCall.Printable, XmlCall.tokens, printXmlTagStr, render_leafTokens,
      Xml.renderAttribute, eq_comm]
  | tagNumber tagname number =>
    simp [XmlCall.print, XmlCall.Printable, XmlCall.tokens, printXmlTagNumber, render_leafTokens,
      Xml.renderAttribute, eq_comm]
  | tagTime tagname time =>
    simp [XmlCall.print, XmlCall.Printable, XmlCall.tokens, printXmlTagTime, render_leafTokens,
      Xml.renderAttribute, eq_comm]
  | tagSize tagname fmt size =>
    simp only [XmlCall.print, printXmlTagSize, XmlCall.Printable, XmlCall.tokens, render_leafTokens,
      ← @printSize_isSome_iff apr fmt]
    cases printSize apr fmt (toDouble size) with
    | none => simp
    | some formatted => simp [Xml.renderAttribute, eq_comm]

/-- So do calls one after another. -/
theorem printCalls_eq_some_iff : printCalls apr xmlFragment calls = some out ↔
    (∀ call ∈ calls, call.Printable) ∧ out = xmlFragment ++ textOf apr calls := by
  induction calls generalizing xmlFragment with
  | nil => simp [printCalls, textOf, tokensOf, eq_comm]
  | cons call calls ih =>
    have hcons : printCalls apr xmlFragment (call :: calls) =
        (call.print apr xmlFragment).bind fun next => printCalls apr next calls := rfl
    rw [hcons, Option.bind_eq_some_iff, List.forall_mem_cons, textOf, tokensOf, List.flatMap_cons,
      List.flatMap_append, ← List.append_assoc]
    constructor
    · rintro ⟨next, hcall, hcalls⟩
      obtain ⟨hprintable, rfl⟩ := (print_eq_some_iff call).mp hcall
      obtain ⟨hall, rfl⟩ := ih.mp hcalls
      exact ⟨⟨hprintable, hall⟩, rfl⟩
    · rintro ⟨⟨hprintable, hall⟩, rfl⟩
      exact ⟨_, (print_eq_some_iff call).mpr ⟨hprintable, rfl⟩, ih.mpr ⟨hall, rfl⟩⟩

end Printing

/-- The name of the tag that a call prints. -/
def XmlCall.tagname : XmlCall → List Char
  | .tagOpen tagname => tagname
  | .tagClose tagname => tagname
  | .tagStr tagname _ => tagname
  | .tagNumber tagname _ => tagname
  | .tagSize tagname _ _ => tagname
  | .tagTime tagname _ => tagname

/-- Characters without markup, as values have them. -/
def Plain (s : List Char) : Prop := ∀ c ∈ s, Xml.isValue c

@[simp] theorem plain_nil : Plain [] := fun _ hc => absurd hc List.not_mem_nil

theorem NoMarkup.plain {s : List Char} (h : NoMarkup s) : Plain s := fun c hc =>
  (Bool.and_eq_true _ _ ▸ h c hc : _ ∧ _).1

/-- A string that can be both the value of an attribute and a text as it is. -/
structure SafeString (s : List Char) : Prop where
  plain : Plain s
  noSectionEnd : ¬Xml.sectionEnd <:+: s

instance (s : List Char) : Decidable (SafeString s) :=
  decidable_of_iff (s.all Xml.isValue ∧ ¬Xml.sectionEnd <:+: s)
    ⟨fun h => ⟨List.all_eq_true.mp h.1, h.2⟩, fun h => ⟨List.all_eq_true.mpr h.1, h.2⟩⟩

/-- The string that a call prints as it has been given. -/
def XmlCall.str : XmlCall → List Char
  | .tagOpen _ => []
  | .tagClose _ => []
  | .tagStr _ str => str
  | .tagNumber _ _ => []
  | .tagSize _ _ _ => []
  | .tagTime _ _ => []

section Meaning

variable {apr : AprFormat} {call : XmlCall} {calls : List XmlCall} {tagname text : List Char}
  {attributes : List Xml.Attribute}

/-- Strings without markup are safe. -/
theorem NoMarkup.safe {s : List Char} (h : NoMarkup s) : SafeString s := by
  refine ⟨h.plain, fun hinside => ?_⟩
  exact absurd (h ']' (hinside.subset (by decide))) (by decide)

theorem isText_of_isValue {c : Char} (h : Xml.isValue c) : Xml.isText c :=
  (Bool.and_eq_true _ _ ▸ h : _ ∧ _).1

/-- Nothing but names and strings can keep a line from being clean. -/
theorem leafTokens_clean (hattributes : Xml.CleanValues attributes) (htext : Plain text) :
    ∀ token ∈ leafTokens tagname attributes text, token.Clean := by
  simp only [leafTokens, List.cons_append, List.forall_mem_cons, List.forall_mem_append,
    List.forall_mem_map]
  exact ⟨hattributes, fun c hc => isText_of_isValue (htext c hc), trivial,
    (by decide : Xml.isText '\n' = true), fun _ h => absurd h List.not_mem_nil⟩

/-- The sizes that are formatted have no markup. -/
theorem plain_formatted (fmt : SizeFormat) (size : UInt64) :
    Plain ((printSize apr fmt (toDouble size)).getD []) := by
  cases hprint : printSize apr fmt (toDouble size) with
  | none => exact plain_nil
  | some formatted => exact (noMarkup_printSize (Nat.cast_nonneg _) hprint).plain

/-- The pieces of a line are clean when its string is plain. -/
theorem tokens_clean_iff : (∀ token ∈ call.tokens apr, token.Clean) ↔ Plain call.str := by
  have hvalue : ∀ {key s : List Char}, Plain s → Xml.CleanValues [(key, s)] :=
    fun hs => List.forall_mem_singleton.mpr hs
  have htwo : ∀ {key key' s s' : List Char}, Plain s → Plain s' →
      Xml.CleanValues [(key, s), (key', s')] :=
    fun hs hs' => List.forall_mem_cons.mpr ⟨hs, List.forall_mem_singleton.mpr hs'⟩
  have hnewline : Xml.isText '\n' = true := by decide
  have hnumber : ∀ {number : UInt64}, Plain (printUInt64 number) :=
    fun {_} => (noMarkup_printUInt64 _).plain
  cases call with
  | tagOpen tagname =>
    simp [XmlCall.tokens, XmlCall.str, Xml.Token.Clean, Xml.cleanValues_nil, hnewline]
  | tagClose tagname => simp [XmlCall.tokens, XmlCall.str, Xml.Token.Clean, hnewline]
  | tagStr tagname str =>
    refine ⟨fun h => ?_, fun h => leafTokens_clean (hvalue h) h⟩
    have hattributes : Xml.CleanValues [("value".toList, str)] := h _ List.mem_cons_self
    exact hattributes _ List.mem_cons_self
  | tagNumber tagname number =>
    exact iff_of_true (leafTokens_clean (hvalue hnumber) hnumber) plain_nil
  | tagSize tagname fmt size =>
    exact iff_of_true (leafTokens_clean (htwo (plain_formatted _ _) hnumber) hnumber) plain_nil
  | tagTime tagname time =>
    have htime := (noMarkup_printTime time).plain
    exact iff_of_true (leafTokens_clean (htwo htime hnumber) hnumber) plain_nil

/-- The end of a section in a line and what follows it is in its text or in what follows. -/
theorem sectionEnd_leafTokens_iff {rest : List Xml.Token} :
    Xml.sectionEnd.map Xml.Token.char <:+: leafTokens tagname attributes text ++ rest ↔
      Xml.sectionEnd <:+: text ∨ Xml.sectionEnd.map Xml.Token.char <:+: rest := by
  have hne : Xml.sectionEnd.map Xml.Token.char ≠ [] := by decide
  have hnil : ¬Xml.sectionEnd.map Xml.Token.char <:+: [] := fun h => hne (List.infix_nil.mp h)
  have hstart : Xml.Token.start tagname attributes ∉ Xml.sectionEnd.map Xml.Token.char := by
    simp
  have hstop : Xml.Token.stop tagname ∉ Xml.sectionEnd.map Xml.Token.char := by simp
  have hnewline : Xml.Token.char '\n' ∉ Xml.sectionEnd.map Xml.Token.char := by decide
  have hsplit : leafTokens tagname attributes text ++ rest = [] ++ .start tagname attributes ::
      (text.map .char ++ .stop tagname :: ([] ++ .char '\n' :: rest)) := by
    simp [leafTokens]
  have hmap : Xml.sectionEnd.map Xml.Token.char <:+: text.map .char ↔ Xml.sectionEnd <:+: text := by
    rw [List.infix_map_iff]
    constructor
    · rintro ⟨l, hl, heq⟩
      rwa [(List.map_inj_right fun _ _ h => Xml.Token.char.inj h).mp heq]
    · exact fun h => ⟨_, h, rfl⟩
  rw [hsplit, Xml.infix_append_cons_iff hne hstart, Xml.infix_append_cons_iff hne hstop,
    Xml.infix_append_cons_iff hne hnewline, hmap]
  simp only [hnil, false_or]

/-- A line of a tag alone has none. -/
theorem sectionEnd_tag_iff {token : Xml.Token} {rest : List Xml.Token}
    (htoken : token ∉ Xml.sectionEnd.map Xml.Token.char) :
    Xml.sectionEnd.map Xml.Token.char <:+: [token, .char '\n'] ++ rest ↔
      Xml.sectionEnd.map Xml.Token.char <:+: rest := by
  have hne : Xml.sectionEnd.map Xml.Token.char ≠ [] := by decide
  have hnil : ¬Xml.sectionEnd.map Xml.Token.char <:+: [] := fun h => hne (List.infix_nil.mp h)
  have hsplit : [token, .char '\n'] ++ rest = [] ++ token :: ([] ++ .char '\n' :: rest) := rfl
  rw [hsplit, Xml.infix_append_cons_iff hne htoken, Xml.infix_append_cons_iff hne (by decide)]
  simp only [hnil, false_or]

/-- The end of a section in a line is in its string. -/
theorem sectionEnd_tokens_iff {rest : List Xml.Token} :
    Xml.sectionEnd.map Xml.Token.char <:+: call.tokens apr ++ rest ↔
      Xml.sectionEnd <:+: call.str ∨ Xml.sectionEnd.map Xml.Token.char <:+: rest := by
  have hnil : ¬Xml.sectionEnd <:+: [] := fun h => absurd (List.infix_nil.mp h) (by decide)
  have hnumber : ∀ number, ¬Xml.sectionEnd <:+: printUInt64 number :=
    fun number => (noMarkup_printUInt64 number).safe.noSectionEnd
  cases call with
  | tagOpen tagname =>
    rw [XmlCall.tokens, sectionEnd_tag_iff (by simp), XmlCall.str, or_iff_right hnil]
  | tagClose tagname =>
    rw [XmlCall.tokens, sectionEnd_tag_iff (by simp), XmlCall.str, or_iff_right hnil]
  | tagStr tagname str => exact sectionEnd_leafTokens_iff
  | tagNumber tagname number =>
    rw [XmlCall.tokens, sectionEnd_leafTokens_iff, XmlCall.str, or_iff_right hnil,
      or_iff_right (hnumber _)]
  | tagSize tagname fmt size =>
    rw [XmlCall.tokens, sectionEnd_leafTokens_iff, XmlCall.str, or_iff_right hnil,
      or_iff_right (hnumber _)]
  | tagTime tagname time =>
    rw [XmlCall.tokens, sectionEnd_leafTokens_iff, XmlCall.str, or_iff_right hnil,
      or_iff_right (hnumber _)]

/-- **Clean lines.** The pieces of calls are clean, and there is no end of a section in their texts,
exactly when all their strings are safe. -/
theorem tokensOf_clean_iff : ((∀ token ∈ tokensOf apr calls, token.Clean) ∧
      ¬Xml.sectionEnd.map Xml.Token.char <:+: tokensOf apr calls) ↔
    ∀ call ∈ calls, SafeString call.str := by
  induction calls with
  | nil =>
    refine iff_of_true ⟨fun _ h => absurd h List.not_mem_nil, fun h => ?_⟩
      fun _ h => absurd h List.not_mem_nil
    exact absurd (List.infix_nil.mp h) (by decide)
  | cons call calls ih =>
    rw [List.forall_mem_cons, ← ih, tokensOf, List.flatMap_cons, List.forall_mem_append,
      tokens_clean_iff, sectionEnd_tokens_iff, not_or]
    constructor
    · rintro ⟨⟨hplain, hclean⟩, hsection, hrest⟩
      exact ⟨⟨hplain, hsection⟩, hclean, hrest⟩
    · rintro ⟨⟨hplain, hsection⟩, hclean, hrest⟩
      exact ⟨⟨hplain, hclean⟩, hsection, hrest⟩

theorem leafTokens_named (hname : Xml.isName tagname) (hnodup : (attributes.map Prod.fst).Nodup)
    (hkeys : ∀ entry ∈ attributes, Xml.isName entry.1) :
    ∀ token ∈ leafTokens tagname attributes text, token.Named := by
  simp only [leafTokens, List.cons_append, List.forall_mem_cons, List.forall_mem_append,
    List.forall_mem_map]
  exact ⟨⟨hname, hnodup, hkeys⟩, fun _ _ => trivial, hname, trivial,
    fun _ h => absurd h List.not_mem_nil⟩

/-- The names of a line are names when its tag is one. -/
theorem tokens_named (h : Xml.isName call.tagname) : ∀ token ∈ call.tokens apr, token.Named := by
  have hnames : Xml.isName "value".toList ∧ Xml.isName "formatted".toList := by decide
  have hvalue : ∀ {s : List Char}, ∀ entry ∈ [("value".toList, s)], Xml.isName entry.1 :=
    fun {_} => List.forall_mem_singleton.mpr hnames.1
  have hformatted : ∀ {s s' : List Char},
      ∀ entry ∈ [("formatted".toList, s), ("value".toList, s')], Xml.isName entry.1 :=
    fun {_ _} => List.forall_mem_cons.mpr ⟨hnames.2, hvalue⟩
  have hnodup : ["formatted".toList, "value".toList].Nodup := by decide
  cases call with
  | tagOpen tagname =>
    exact List.forall_mem_cons.mpr ⟨⟨h, List.nodup_nil, fun _ hmem => absurd hmem List.not_mem_nil⟩,
      List.forall_mem_singleton.mpr trivial⟩
  | tagClose tagname => exact List.forall_mem_cons.mpr ⟨h, List.forall_mem_singleton.mpr trivial⟩
  | tagStr tagname str => exact leafTokens_named h (List.nodup_singleton _) hvalue
  | tagNumber tagname number => exact leafTokens_named h (List.nodup_singleton _) hvalue
  | tagSize tagname fmt size => exact leafTokens_named h hnodup hformatted
  | tagTime tagname time => exact leafTokens_named h hnodup hformatted

/-- Calls that may stand in an element. -/
def Inner (apr : AprFormat) (calls : List XmlCall) : Prop := Xml.Content (tokensOf apr calls)

theorem inner_nil : Inner apr [] := .nil

theorem Inner.append {calls' : List XmlCall} (h : Inner apr calls) (h' : Inner apr calls') :
    Inner apr (calls ++ calls') := by
  rw [Inner, tokensOf, List.flatMap_append]
  exact Xml.Content.append h h'

theorem inner_chars (cs : List Char) : Xml.Content (cs.map .char) := by
  induction cs with
  | nil => exact .nil
  | cons c cs ih => exact ih.char c

theorem inner_leafTokens : Xml.Content (leafTokens tagname attributes text) :=
  .element tagname attributes (inner_chars text) (.char '\n' .nil)

/-- The lines between an opening and a closing tag are an element. -/
theorem Inner.element (tagname : List Char) (h : Inner apr calls) :
    Inner apr (.tagOpen tagname :: calls ++ [.tagClose tagname]) := by
  have helement := Xml.Content.element tagname [] (Xml.Content.char '\n' h) (.char '\n' .nil)
  simpa [Inner, tokensOf, XmlCall.tokens] using helement

/-- The calls that print an element of their own. -/
def XmlCall.isLeaf : XmlCall → Bool
  | .tagOpen _ => false
  | .tagClose _ => false
  | _ => true

/-- Parts that may stand in an element one after another. -/
theorem inner_flatMap {α : Type*} {l : List α} {f : α → List XmlCall}
    (h : ∀ x ∈ l, Inner apr (f x)) : Inner apr (l.flatMap f) := by
  induction l with
  | nil => exact inner_nil
  | cons x l ih =>
    rw [List.forall_mem_cons] at h
    exact h.1.append (ih h.2)

/-- What a call takes part in a document with: a name, and a safe string if it has one. -/
structure XmlCall.Fine (call : XmlCall) : Prop where
  tagname : Xml.isName call.tagname
  str : SafeString call.str

/-- The tag of a call is a name, and it has no string. -/
def XmlCall.isFixed (call : XmlCall) : Bool := Xml.isName call.tagname && call.str.isEmpty

theorem fine_of_isFixed (h : calls.all XmlCall.isFixed) : ∀ call ∈ calls, call.Fine := by
  intro call hmem
  have hfixed := List.all_eq_true.mp h call hmem
  rw [XmlCall.isFixed, Bool.and_eq_true, List.isEmpty_iff] at hfixed
  refine ⟨hfixed.1, ?_⟩
  rw [hfixed.2]
  exact noMarkup_nil.safe

theorem fine_tagOpen (h : Xml.isName tagname) : (XmlCall.tagOpen tagname).Fine :=
  ⟨h, noMarkup_nil.safe⟩

theorem names_of_all (h : calls.all fun call => Xml.isName call.tagname) :
    ∀ call ∈ calls, Xml.isName call.tagname :=
  List.all_eq_true.mp h

theorem inner_of_isLeaf (h : calls.all XmlCall.isLeaf) : Inner apr calls := by
  induction calls with
  | nil => exact inner_nil
  | cons call calls ih =>
    rw [List.all_cons, Bool.and_eq_true] at h
    refine Xml.Content.append ?_ (ih h.2)
    cases call with
    | tagOpen tagname => cases h.1
    | tagClose tagname => cases h.1
    | tagStr tagname str => exact inner_leafTokens
    | tagNumber tagname number => exact inner_leafTokens
    | tagSize tagname fmt size => exact inner_leafTokens
    | tagTime tagname time => exact inner_leafTokens

/-- The tags around lines have no strings. -/
theorem element_safe_iff :
    (∀ call ∈ (.tagOpen tagname :: calls ++ [.tagClose tagname] : List XmlCall),
      SafeString call.str) ↔ ∀ call ∈ calls, SafeString call.str := by
  have hopen : SafeString (XmlCall.tagOpen tagname).str := noMarkup_nil.safe
  have hclose : SafeString (XmlCall.tagClose tagname).str := noMarkup_nil.safe
  rw [List.forall_mem_append, List.forall_mem_cons, List.forall_mem_singleton, and_iff_right hopen,
    and_iff_left hclose]

theorem element_names (hname : Xml.isName tagname)
    (hcalls : ∀ call ∈ calls, Xml.isName call.tagname) :
    ∀ call ∈ (.tagOpen tagname :: calls ++ [.tagClose tagname] : List XmlCall),
      Xml.isName call.tagname :=
  List.forall_mem_append.mpr
    ⟨List.forall_mem_cons.mpr ⟨hname, hcalls⟩, List.forall_mem_singleton.mpr hname⟩

/-- An element behind the line of `print_xml_start` is a document. -/
theorem document_element (tagname : List Char) (h : Inner apr calls) :
    Xml.Document (.char '\n' ::
      tokensOf apr (.tagOpen tagname :: calls ++ [.tagClose tagname])) := by
  have hspace : ∀ c ∈ ['\n'], Xml.isSpace c := List.forall_mem_singleton.mpr rfl
  have hdocument := Xml.Document.root ['\n'] ['\n'] tagname [] hspace (.char '\n' h) hspace
  simpa [tokensOf, XmlCall.tokens] using hdocument

/-- **Reading the output.** What calls print into an element behind `print_xml_start` is read as
they mean it exactly when all their strings are safe. -/
theorem read_printed_iff (h : Inner apr calls) (hname : Xml.isName tagname)
    (hcalls : ∀ call ∈ calls, Xml.isName call.tagname) :
    Xml.read (printXmlStart ++ textOf apr (.tagOpen tagname :: calls ++ [.tagClose tagname])) =
        some (.char '\n' :: tokensOf apr (.tagOpen tagname :: calls ++ [.tagClose tagname])) ↔
      ∀ call ∈ calls, SafeString call.str := by
  have hnamed : ∀ token ∈ Xml.Token.char '\n' ::
      tokensOf apr (.tagOpen tagname :: calls ++ [.tagClose tagname]), token.Named := by
    refine List.forall_mem_cons.mpr ⟨trivial, fun token htoken => ?_⟩
    obtain ⟨call, hcall, htoken⟩ := List.mem_flatMap.mp htoken
    exact tokens_named (element_names hname hcalls call hcall) token htoken
  have hstart : printXmlStart ++ textOf apr (.tagOpen tagname :: calls ++ [.tagClose tagname]) =
      Xml.declaration ++ (.char '\n' :: tokensOf apr (.tagOpen tagname :: calls ++
        [.tagClose tagname]) : List Xml.Token).flatMap Xml.Token.render := by
    rw [List.flatMap_cons, ← List.append_assoc]
    rfl
  have hnewline : Xml.isText '\n' = true := by decide
  have hcons : ∀ tokens, Xml.sectionEnd.map Xml.Token.char <:+: Xml.Token.char '\n' :: tokens ↔
      Xml.sectionEnd.map Xml.Token.char <:+: tokens := fun tokens => by
    have hne : Xml.sectionEnd.map Xml.Token.char ≠ [] := by decide
    have hsplit := @Xml.infix_append_cons_iff _ (Xml.sectionEnd.map Xml.Token.char) [] tokens
      (.char '\n') hne (by decide)
    rw [List.nil_append, List.infix_nil, or_iff_right hne] at hsplit
    exact hsplit
  rw [hstart, Xml.read_render_iff (document_element tagname h) hnamed, List.forall_mem_cons, hcons,
    and_iff_right (show (Xml.Token.char '\n').Clean from hnewline), tokensOf_clean_iff,
    element_safe_iff]

end Meaning

end DiskBench
