import DiskBench.Foundations.Xml

/-!
# Looking values up in a document

What a program that reads a document asks for: the values of the elements at a place, which is given
by the names of the open elements, the innermost one first. The values of an element are those of
its parts one after another, and each of them is at a place inside it. A value is handed out in its
normal form, in which tabs and line ends are blanks.
-/

namespace Xml

/-- The names of the open elements, the innermost one first. -/
abbrev Place := List (List Char)

/-- White space other than the blank. -/
def isBreak (c : Char) : Bool := c = '\t' || c = '\n' || c = '\r'

/-- A value as a reader hands it out. A carriage return in front of a newline belongs to the same
line end, and every tab or line end becomes a blank. -/
def normalizeValue : List Char → List Char
  | [] => []
  | c :: rest =>
    if c = '\r' ∧ rest.head? = some '\n' then normalizeValue rest
    else (if isBreak c then ' ' else c) :: normalizeValue rest

/-- The attributes called `value`, with the places of their elements. -/
def fields : Place → List Token → List (Place × List Char)
  | _, [] => []
  | place, .start name attributes :: rest =>
    ((attributes.lookup "value".toList).map fun value =>
        (name :: place, normalizeValue value)).toList ++
      fields (name :: place) rest
  | place, .stop _ :: rest => fields place.tail rest
  | place, .char _ :: rest => fields place rest

/-- The values at a place. -/
def valuesAt (place : Place) (fields : List (Place × List Char)) : List (List Char) :=
  (fields.filter fun field => field.1 = place).map Prod.snd

/-- A value without tabs and line ends is handed out as it is. -/
theorem normalizeValue_eq_self {value : List Char} (h : ∀ c ∈ value, ¬isBreak c) :
    normalizeValue value = value := by
  induction value with
  | nil => rfl
  | cons c rest ih =>
    obtain ⟨hc, hrest⟩ := List.forall_mem_cons.mp h
    have hne : c ≠ '\r' := by
      rintro rfl
      exact hc rfl
    rw [normalizeValue, if_neg (fun hend => hne hend.1), if_neg hc, ih hrest]

section Fields

variable {tokens rest : List Token} {place : Place} {name : List Char}
  {attributes : List Attribute} {found found' : List (Place × List Char)}

@[simp] theorem valuesAt_append :
    valuesAt place (found ++ found') = valuesAt place found ++ valuesAt place found' := by
  simp [valuesAt]

/-- Content leaves the place as it is. -/
theorem fields_append (h : Content tokens) (place : Place) (rest : List Token) :
    fields place (tokens ++ rest) = fields place tokens ++ fields place rest := by
  induction h generalizing place rest with
  | nil => rfl
  | char c hrest ih => exact ih place rest
  | @element name attributes body rest' hbody hrest ihbody ihrest =>
    simp only [List.cons_append, List.append_assoc, fields, ihbody, ihrest, List.tail_cons]

/-- The values of an element are those of its content, inside it. -/
theorem fields_element (h : Content tokens) :
    fields place (.start name attributes :: tokens ++ .stop name :: rest) =
      ((attributes.lookup "value".toList).map fun value =>
          (name :: place, normalizeValue value)).toList ++
        fields (name :: place) tokens ++ fields place rest := by
  rw [List.cons_append, fields, fields_append h, List.append_assoc]
  rfl

/-- All values of an element are inside it. -/
theorem suffix_of_mem_fields (h : Content tokens) :
    ∀ field ∈ fields place tokens, place <:+ field.1 := by
  induction h generalizing place with
  | nil => exact fun _ hmem => absurd hmem List.not_mem_nil
  | char c hrest ih => exact ih
  | @element name attributes body rest hbody hrest ihbody ihrest =>
    rw [fields_element hbody]
    intro field hmem
    obtain (hvalue | hinside) | hbehind := by simpa only [List.mem_append] using hmem
    · obtain ⟨value, -, rfl⟩ := Option.map_eq_some_iff.mp (Option.mem_toList.mp hvalue)
      exact List.suffix_cons name place
    · exact (List.suffix_cons name place).trans (ihbody field hinside)
    · exact ihrest field hbehind

/-- There are no values at a place that is not inside. -/
theorem valuesAt_eq_nil {outer : Place} (h : Content tokens) (houter : ¬outer <:+ place) :
    valuesAt place (fields outer tokens) = [] := by
  rw [valuesAt, List.map_eq_nil_iff, List.filter_eq_nil_iff]
  intro field hmem hplace
  rw [decide_eq_true_eq] at hplace
  exact houter (hplace ▸ suffix_of_mem_fields h field hmem)

end Fields

end Xml
