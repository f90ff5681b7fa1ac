import Mathlib.Data.List.Infix
import DiskBench.Foundations.Transition

/-!
# Reading XML

A reader for the part of XML that has elements, attributes in double quotes and character data, and
no references, comments or sections. It goes through a document one character after another and
keeps the elements that are open. What it accepts has one root, closes its elements in nesting
order and has no markup in values and texts, and what it returns is what the document says.
-/

namespace Xml

open Transition

/-- The characters of a document. -/
def isChar (c : Char) : Bool :=
  c = '\t' || c = '\n' || c = '\r' || 0x20 ≤ c.toNat && c ≠ '\uFFFE' && c ≠ '\uFFFF'

/-- White space. -/
def isSpace (c : Char) : Bool := c = ' ' || c = '\t' || c = '\n' || c = '\r'

/-- The characters that a name begins with, of those below 128. -/
def isNameStart (c : Char) : Bool := c.isAlpha || c = '_' || c = ':'

/-- The characters of a name, of those below 128. -/
def isNameChar (c : Char) : Bool := isNameStart c || c.isDigit || c = '-' || c = '.'

/-- The characters of a text, which are those of a value but for the quote. -/
def isText (c : Char) : Bool := isChar c && c ≠ '<' && c ≠ '&'

/-- The characters of a value in double quotes. -/
def isValue (c : Char) : Bool := isText c && c ≠ '"'

/-- A name. -/
def isName : List Char → Bool
  | [] => false
  | c :: cs => isNameStart c && cs.all isNameChar

/-- An attribute with its value. -/
abbrev Attribute := List Char × List Char

/-- A piece of a document: a start tag, an end tag or a character of a text. -/
inductive Token where
  | start (name : List Char) (attributes : List Attribute)
  | stop (name : List Char)
  | char (c : Char)
  deriving DecidableEq

/-- Where the reader is in a tag, or that it is in none. -/
inductive Mode where
  | content
  /-- Behind `<`. -/
  | markup
  | startName (name : List Char)
  /-- Behind a blank in a start tag. -/
  | blank (name : List Char) (attributes : List Attribute)
  | keyName (name : List Char) (attributes : List Attribute) (key : List Char)
  /-- Behind `=`. -/
  | equals (name : List Char) (attributes : List Attribute) (key : List Char)
  | quoted (name : List Char) (attributes : List Attribute) (key value : List Char)
  /-- Behind the attributes so far. -/
  | afterValue (name : List Char) (attributes : List Attribute)
  | stopName (name : List Char)
  deriving DecidableEq

/-- The state of the reader. -/
structure Reader where
  mode : Mode
  /-- The names of the open elements, innermost first. -/
  names : List (List Char)
  /-- Whether the root has been opened. -/
  rooted : Bool
  tokens : List Token

/-- The end of a start tag. There is one root. -/
def Reader.start (name : List Char) (attributes : List Attribute) (reader : Reader) :
    Option Reader :=
  if reader.names = [] ∧ reader.rooted then none
  else some ⟨.content, name :: reader.names, true, reader.tokens ++ [.start name attributes]⟩

/-- The end of an end tag, which closes the innermost element. -/
def Reader.stop (name : List Char) (reader : Reader) : Option Reader :=
  if reader.names.head? = some name then
    some ⟨.content, reader.names.tail, reader.rooted, reader.tokens ++ [.stop name]⟩
  else none

/-- A character behind the name or an attribute of a start tag. -/
def Reader.inTag (name : List Char) (attributes : List Attribute) (c : Char) (reader : Reader) :
    Option Reader :=
  if c = ' ' then some { reader with mode := .blank name attributes }
  else if c = '>' then reader.start name attributes
  else none

/-- The next character. -/
def step (reader : Reader) (c : Char) : Option Reader :=
  match reader.mode with
  | .content =>
    if c = '<' then some { reader with mode := .markup }
    else if isText c ∧ (reader.names = [] → isSpace c) then
      some { reader with tokens := reader.tokens ++ [.char c] }
    else none
  | .markup =>
    if c = '/' then some { reader with mode := .stopName [] }
    else if isNameStart c then some { reader with mode := .startName [c] }
    else none
  | .startName name =>
    if isNameChar c then some { reader with mode := .startName (name ++ [c]) }
    else reader.inTag name [] c
  | .blank name attributes =>
    if isNameStart c then some { reader with mode := .keyName name attributes [c] } else none
  | .keyName name attributes key =>
    if isNameChar c then
      some { reader with mode := .keyName name attributes (key ++ [c]) }
    else if c = '=' ∧ key ∉ attributes.map Prod.fst then
      some { reader with mode := .equals name attributes key }
    else none
  | .equals name attributes key =>
    if c = '"' then some { reader with mode := .quoted name attributes key [] } else none
  | .quoted name attributes key value =>
    if c = '"' then
      some { reader with mode := .afterValue name (attributes ++ [(key, value)]) }
    else if isText c then
      some { reader with mode := .quoted name attributes key (value ++ [c]) }
    else none
  | .afterValue name attributes => reader.inTag name attributes c
  | .stopName name =>
    if isNameChar c then some { reader with mode := .stopName (name ++ [c]) }
    else if c = '>' then reader.stop name
    else none

/-- The end of a section, which no text contains. -/
def sectionEnd : List Char := [']', ']', '>']

/-- What a document begins with. -/
def declaration : List Char := "<?xml version='1.0'?>".toList

/-- What has been read at the end of a document. -/
def Reader.result (reader : Reader) : Option (List Token) :=
  if reader.mode = .content ∧ reader.names = [] ∧ reader.rooted ∧
      ¬sectionEnd.map Token.char <:+: reader.tokens then some reader.tokens
  else none

/-- Read a document. -/
def read (document : List Char) : Option (List Token) :=
  if declaration <+: document then
    (exec step ⟨.content, [], false, []⟩ (document.drop declaration.length)).bind Reader.result
  else none

/-- An attribute as it is written. -/
def renderAttribute (entry : Attribute) : List Char :=
  ' ' :: entry.1 ++ '=' :: '"' :: entry.2 ++ ['"']

/-- A piece as it is written. -/
def Token.render : Token → List Char
  | .start name attributes => '<' :: name ++ attributes.flatMap renderAttribute ++ ['>']
  | .stop name => '<' :: '/' :: name ++ ['>']
  | .char c => [c]

/-- The names of a piece are names, and the attributes of a tag have different ones. -/
def Token.Named : Token → Prop
  | .start name attributes => isName name ∧ (attributes.map Prod.fst).Nodup ∧
      ∀ entry ∈ attributes, isName entry.1
  | .stop name => isName name
  | .char _ => True

/-- No value has markup. -/
def CleanValues (attributes : List Attribute) : Prop :=
  ∀ entry ∈ attributes, ∀ c ∈ entry.2, isValue c

/-- Values and texts have no markup. -/
def Token.Clean : Token → Prop
  | .start _ attributes => CleanValues attributes
  | .stop _ => True
  | .char c => isText c

/-- What may stand in an element: each start tag has its end tag behind the content between. -/
inductive Content : List Token → Prop
  | nil : Content []
  | char (c : Char) {rest : List Token} (hrest : Content rest) : Content (.char c :: rest)
  | element (name : List Char) (attributes : List Attribute) {body rest : List Token}
      (hbody : Content body) (hrest : Content rest) :
      Content (.start name attributes :: body ++ .stop name :: rest)

/-- White space, one root, and white space. -/
inductive Document : List Token → Prop
  | root (before after name : List Char) (attributes : List Attribute) {body : List Token}
      (hbefore : ∀ c ∈ before, isSpace c) (hbody : Content body) (hafter : ∀ c ∈ after, isSpace c) :
      Document (before.map .char ++ (.start name attributes :: body ++ .stop name ::
        after.map .char))

section Sound

variable {reader reader' : Reader} {c : Char} {name : List Char} {attributes : List Attribute}

/-- The values that have been read have no markup. -/
def Mode.Clean : Mode → Prop
  | .blank _ attributes => CleanValues attributes
  | .keyName _ attributes _ => CleanValues attributes
  | .equals _ attributes _ => CleanValues attributes
  | .quoted _ attributes _ value => CleanValues attributes ∧ ∀ c ∈ value, isValue c
  | .afterValue _ attributes => CleanValues attributes
  | _ => True

/-- Neither have the pieces. -/
structure Reader.Clean (reader : Reader) : Prop where
  mode : reader.mode.Clean
  tokens : ∀ token ∈ reader.tokens, token.Clean

theorem cleanValues_nil : CleanValues [] := fun _ h => absurd h List.not_mem_nil

/-- One more attribute. -/
theorem CleanValues.snoc {entry : Attribute} (h : CleanValues attributes)
    (hentry : ∀ c ∈ entry.2, isValue c) : CleanValues (attributes ++ [entry]) :=
  List.forall_mem_append.mpr ⟨h, List.forall_mem_singleton.mpr hentry⟩

/-- One more piece. -/
theorem Reader.Clean.snoc {token : Token} (h : reader.Clean) (htoken : token.Clean) :
    ∀ token' ∈ reader.tokens ++ [token], token'.Clean :=
  List.forall_mem_append.mpr ⟨h.tokens, List.forall_mem_singleton.mpr htoken⟩

theorem Reader.Clean.inTag (h : reader.Clean) (hvalues : CleanValues attributes)
    (htag : reader.inTag name attributes c = some reader') : reader'.Clean := by
  unfold Reader.inTag Reader.start at htag
  split at htag
  · cases htag
    exact ⟨hvalues, h.tokens⟩
  · split at htag
    · split at htag
      · cases htag
      · cases htag
        exact ⟨trivial, h.snoc hvalues⟩
    · cases htag

theorem Reader.Clean.stop (h : reader.Clean) (hstop : reader.stop name = some reader') :
    reader'.Clean := by
  unfold Reader.stop at hstop
  split at hstop
  · cases hstop
    exact ⟨trivial, h.snoc trivial⟩
  · cases hstop

/-- A character keeps what has been read clean. -/
theorem Reader.Clean.step (h : reader.Clean) (hstep : step reader c = some reader') :
    reader'.Clean := by
  obtain ⟨mode, names, rooted, tokens⟩ := reader
  have hmode : mode.Clean := h.mode
  cases mode with
  | content =>
    simp only [Xml.step] at hstep
    split at hstep
    · cases hstep
      exact ⟨trivial, h.tokens⟩
    · split at hstep
      next htext =>
        cases hstep
        exact ⟨trivial, h.snoc htext.1⟩
      next => cases hstep
  | markup =>
    simp only [Xml.step] at hstep
    split at hstep
    · cases hstep
      exact ⟨trivial, h.tokens⟩
    · split at hstep
      · cases hstep
        exact ⟨trivial, h.tokens⟩
      · cases hstep
  | startName name =>
    simp only [Xml.step] at hstep
    split at hstep
    · cases hstep
      exact ⟨trivial, h.tokens⟩
    · exact h.inTag cleanValues_nil hstep
  | blank name attributes =>
    simp only [Xml.step] at hstep
    split at hstep
    · cases hstep
      exact ⟨hmode, h.tokens⟩
    · cases hstep
  | keyName name attributes key =>
    simp only [Xml.step] at hstep
    split at hstep
    · cases hstep
      exact ⟨hmode, h.tokens⟩
    · split at hstep
      · cases hstep
        exact ⟨hmode, h.tokens⟩
      · cases hstep
  | equals name attributes key =>
    simp only [Xml.step] at hstep
    split at hstep
    · cases hstep
      exact ⟨⟨hmode, fun _ hc => absurd hc List.not_mem_nil⟩, h.tokens⟩
    · cases hstep
  | quoted name attributes key value =>
    simp only [Xml.step] at hstep
    split at hstep
    next =>
      cases hstep
      exact ⟨hmode.1.snoc hmode.2, h.tokens⟩
    next hquote =>
      split at hstep
      next htext =>
        cases hstep
        refine ⟨⟨hmode.1, List.forall_mem_append.mpr ⟨hmode.2, ?_⟩⟩, h.tokens⟩
        rw [List.forall_mem_singleton, isValue, htext]
        simpa using hquote
      next => cases hstep
  | afterValue name attributes => exact h.inTag hmode hstep
  | stopName name =>
    simp only [Xml.step] at hstep
    split at hstep
    · cases hstep
      exact ⟨trivial, h.tokens⟩
    · split at hstep
      · exact h.stop hstep
      · cases hstep

/-- **What is read is clean**: no markup in values and texts, and no end of a section. -/
theorem clean_of_read {document : List Char} {tokens : List Token}
    (h : read document = some tokens) :
    (∀ token ∈ tokens, token.Clean) ∧ ¬sectionEnd.map Token.char <:+: tokens := by
  unfold read at h
  split at h
  next =>
    obtain ⟨reader, hexec, hresult⟩ := Option.bind_eq_some_iff.mp h
    have hclean : reader.Clean := exec_invariant (P := fun _ _ => True)
      (fun _ _ _ hreader _ hstep => hreader.step hstep) hexec along_true
      ⟨trivial, fun _ htoken => absurd htoken List.not_mem_nil⟩
    unfold Reader.result at hresult
    split at hresult
    next hend =>
      cases hresult
      exact ⟨hclean.tokens, hend.2.2.2⟩
    next => cases hresult
  next => cases h

end Sound

section Complete

variable {name : List Char} {attributes attributes' : List Attribute}
  {names : List (List Char)} {rooted : Bool} {tokens tokens' : List Token}

/-- A part of the mode that collects characters. -/
theorem exec_collect {f : List Char → Reader} {p : Char → Bool}
    (hstep : ∀ read c, p c → step (f read) c = some (f (read ++ [c]))) {cs : List Char}
    (hcs : ∀ c ∈ cs, p c) (read : List Char) : exec step (f read) cs = some (f (read ++ cs)) := by
  induction cs generalizing read with
  | nil => rw [List.append_nil, exec_nil]
  | cons c cs ih =>
    rw [List.forall_mem_cons] at hcs
    refine exec_cons_eq_some.mpr ⟨_, hstep read c hcs.1, ?_⟩
    rw [ih hcs.2, List.append_assoc, List.singleton_append]

/-- A name is a first character and others. -/
theorem exists_of_isName (h : isName name) :
    ∃ c cs, name = c :: cs ∧ isNameStart c ∧ ∀ x ∈ cs, isNameChar x := by
  cases name with
  | nil => cases h
  | cons c cs =>
    rw [isName, Bool.and_eq_true, List.all_eq_true] at h
    exact ⟨c, cs, rfl, h.1, h.2⟩

/-- All of them are characters of a name. -/
theorem isNameChar_of_isName (h : isName name) : ∀ c ∈ name, isNameChar c := by
  obtain ⟨c, cs, rfl, hstart, hcs⟩ := exists_of_isName h
  refine List.forall_mem_cons.mpr ⟨?_, hcs⟩
  rw [isNameChar, hstart]
  rfl

/-- An end tag is read. -/
theorem exec_stop (hname : isName name) :
    exec step ⟨.content, name :: names, rooted, tokens⟩ (Token.stop name).render =
      some ⟨.content, names, rooted, tokens ++ [.stop name]⟩ := by
  refine exec_append.mpr ⟨⟨.stopName name, name :: names, rooted, tokens⟩, ?_, ?_⟩
  · refine exec_cons_eq_some.mpr ⟨⟨.markup, _, _, _⟩, rfl, ?_⟩
    refine exec_cons_eq_some.mpr ⟨⟨.stopName [], _, _, _⟩, rfl, ?_⟩
    exact exec_collect (f := fun read => ⟨.stopName read, name :: names, rooted, tokens⟩)
      (fun read c hc => by simp [step, hc]) (isNameChar_of_isName hname) []
  · have hend : isNameChar '>' = false := by decide
    refine exec_cons_eq_some.mpr ⟨_, ?_, rfl⟩
    simp [step, hend, Reader.stop]

/-- An attribute is read when its name is new and its value has no markup. -/
theorem exec_attribute {entry : Attribute} (hkey : isName entry.1)
    (hnew : entry.1 ∉ attributes.map Prod.fst) (hvalue : ∀ c ∈ entry.2, isValue c) :
    exec step ⟨.afterValue name attributes, names, rooted, tokens⟩ (renderAttribute entry) =
      some ⟨.afterValue name (attributes ++ [entry]), names, rooted, tokens⟩ := by
  obtain ⟨key, value⟩ := entry
  dsimp only at hkey hnew hvalue
  obtain ⟨c, cs, rfl, hstart, hcs⟩ := exists_of_isName hkey
  have hequals : isNameChar '=' = false := by decide
  refine exec_append.mpr ⟨⟨.quoted name attributes (c :: cs) value, names, rooted, tokens⟩, ?_, rfl⟩
  refine exec_append.mpr ⟨⟨.keyName name attributes (c :: cs), names, rooted, tokens⟩, ?_, ?_⟩
  · refine exec_cons_eq_some.mpr ⟨⟨.blank name attributes, _, _, _⟩, rfl, ?_⟩
    refine exec_cons_eq_some.mpr ⟨⟨.keyName name attributes [c], _, _, _⟩, if_pos hstart, ?_⟩
    exact exec_collect (f := fun read => ⟨.keyName name attributes read, names, rooted, tokens⟩)
      (fun read c hc => by simp [step, hc]) hcs [c]
  · refine exec_cons_eq_some.mpr
      ⟨⟨.equals name attributes (c :: cs), names, rooted, tokens⟩, ?_, ?_⟩
    · simp [step, hequals, hnew]
    · refine exec_cons_eq_some.mpr ⟨⟨.quoted name attributes (c :: cs) [], _, _, _⟩, rfl, ?_⟩
      refine exec_collect
        (f := fun read => ⟨.quoted name attributes (c :: cs) read, names, rooted, tokens⟩)
        (fun read c hc => ?_) hvalue []
      rw [isValue, Bool.and_eq_true, decide_eq_true_eq] at hc
      simp [step, hc.1, hc.2]

/-- So are all attributes of a tag. -/
theorem exec_attributes (hnodup : ((attributes ++ attributes').map Prod.fst).Nodup)
    (hkeys : ∀ entry ∈ attributes', isName entry.1) (hvalues : CleanValues attributes') :
    exec step ⟨.afterValue name attributes, names, rooted, tokens⟩
        (attributes'.flatMap renderAttribute) =
      some ⟨.afterValue name (attributes ++ attributes'), names, rooted, tokens⟩ := by
  induction attributes' generalizing attributes with
  | nil => rw [List.append_nil, List.flatMap_nil, exec_nil]
  | cons entry attributes' ih =>
    rw [List.forall_mem_cons] at hkeys
    obtain ⟨hvalue, hvalues⟩ := List.forall_mem_cons.mp hvalues
    have hnew : entry.1 ∉ attributes.map Prod.fst := by
      rw [List.map_append, List.map_cons] at hnodup
      exact fun hmem => (List.nodup_append.mp hnodup).2.2 _ hmem _ List.mem_cons_self rfl
    rw [List.append_cons] at hnodup
    rw [List.flatMap_cons, List.append_cons attributes]
    exact exec_append.mpr ⟨_, exec_attribute hkeys.1 hnew hvalue, ih hnodup hkeys.2 hvalues⟩

/-- Behind the name a tag goes on as behind an attribute. -/
theorem exec_startName {c : Char} (hc : isNameChar c = false) (cs : List Char) :
    exec step ⟨.startName name, names, rooted, tokens⟩ (c :: cs) =
      exec step ⟨.afterValue name [], names, rooted, tokens⟩ (c :: cs) := by
  simp only [exec, step, hc, Bool.false_eq_true, if_false]
  rfl

/-- A start tag is read. -/
theorem exec_start (hroot : names = [] → rooted = false)
    (hnamed : (Token.start name attributes).Named) (hvalues : CleanValues attributes) :
    exec step ⟨.content, names, rooted, tokens⟩ (Token.start name attributes).render =
      some ⟨.content, name :: names, true, tokens ++ [.start name attributes]⟩ := by
  obtain ⟨hname, hnodup, hkeys⟩ := hnamed
  have hrest : exec step ⟨.afterValue name [], names, rooted, tokens⟩
      (attributes.flatMap renderAttribute ++ ['>']) =
        some ⟨.content, name :: names, true, tokens ++ [.start name attributes]⟩ := by
    refine exec_append.mpr ⟨_, exec_attributes hnodup hkeys hvalues, ?_⟩
    refine exec_cons_eq_some.mpr ⟨_, ?_, rfl⟩
    have hopen : ¬(names = [] ∧ rooted = true) := by
      rintro ⟨hnil, htrue⟩
      rw [hroot hnil] at htrue
      cases htrue
    simp [step, Reader.inTag, Reader.start, hopen]
  rw [Token.render, List.append_assoc]
  refine exec_append.mpr ⟨⟨.startName name, names, rooted, tokens⟩, ?_, ?_⟩
  · obtain ⟨c, cs, rfl, hstart, hcs⟩ := exists_of_isName hname
    have hslash : c ≠ '/' := by
      rintro rfl
      exact absurd hstart (by decide)
    refine exec_cons_eq_some.mpr ⟨⟨.markup, _, _, _⟩, rfl, ?_⟩
    refine exec_cons_eq_some.mpr ⟨⟨.startName [c], names, rooted, tokens⟩, ?_, ?_⟩
    · simp [step, hslash, hstart]
    · exact exec_collect (f := fun read => ⟨.startName read, names, rooted, tokens⟩)
        (fun read c hc => by simp [step, hc]) hcs [c]
  · rw [← hrest]
    cases attributes with
    | nil => exact exec_startName (by decide) _
    | cons entry attributes => exact exec_startName (by decide) _

/-- The content of an element is read while the element stays open. -/
theorem exec_content (h : Content tokens) (hnamed : ∀ token ∈ tokens, token.Named)
    (hclean : ∀ token ∈ tokens, token.Clean) :
    exec step ⟨.content, name :: names, true, tokens'⟩ (tokens.flatMap Token.render) =
      some ⟨.content, name :: names, true, tokens' ++ tokens⟩ := by
  induction h generalizing name names tokens' with
  | nil => rw [List.append_nil, List.flatMap_nil, exec_nil]
  | char c hrest ih =>
    rw [List.forall_mem_cons] at hnamed hclean
    have htext : isText c = true := hclean.1
    have hless : c ≠ '<' := by
      rintro rfl
      exact absurd htext (by decide)
    rw [List.flatMap_cons, Token.render, List.singleton_append]
    refine exec_cons_eq_some.mpr
      ⟨⟨.content, name :: names, true, tokens' ++ [.char c]⟩, ?_, ?_⟩
    · simp [step, hless, htext]
    · rw [ih hnamed.2 hclean.2, List.append_assoc, List.singleton_append]
  | @element name' attributes body rest hbody hrest ihbody ihrest =>
    simp only [List.cons_append, List.forall_mem_cons, List.forall_mem_append] at hnamed hclean
    obtain ⟨hstart, hnamedBody, hstop, hnamedRest⟩ := hnamed
    obtain ⟨hvalues, hcleanBody, _, hcleanRest⟩ := hclean
    rw [List.cons_append, List.flatMap_cons, List.flatMap_append, List.flatMap_cons]
    refine exec_append.mpr ⟨_, exec_start (by simp) hstart hvalues, ?_⟩
    refine exec_append.mpr ⟨_, ihbody hnamedBody hcleanBody, ?_⟩
    refine exec_append.mpr ⟨_, exec_stop hstop, ?_⟩
    rw [ihrest hnamedRest hcleanRest]
    simp

/-- White space is read outside the root, too. -/
theorem exec_spaces {cs : List Char} (hcs : ∀ c ∈ cs, isSpace c) :
    exec step ⟨.content, names, rooted, tokens⟩ cs =
      some ⟨.content, names, rooted, tokens ++ cs.map .char⟩ := by
  induction cs generalizing tokens with
  | nil => rw [List.map_nil, List.append_nil, exec_nil]
  | cons c cs ih =>
    rw [List.forall_mem_cons] at hcs
    have htext : isText c = true ∧ c ≠ '<' := by
      simp only [isSpace, Bool.or_eq_true, decide_eq_true_eq] at hcs
      obtain (((rfl | rfl) | rfl) | rfl) := hcs.1 <;> decide
    refine exec_cons_eq_some.mpr ⟨⟨.content, names, rooted, tokens ++ [.char c]⟩, ?_, ?_⟩
    · simp [step, htext, hcs.1]
    · rw [ih hcs.2, List.map_cons, List.append_assoc, List.singleton_append]

theorem flatMap_render_chars (cs : List Char) : (cs.map Token.char).flatMap Token.render = cs := by
  induction cs with
  | nil => rfl
  | cons c cs ih => rw [List.map_cons, List.flatMap_cons, ih, Token.render, List.singleton_append]

/-- **Reading a document.** A document whose names are names is read as it was meant exactly when
its values and texts have no markup and its texts no end of a section. -/
theorem read_render_iff (h : Document tokens) (hnamed : ∀ token ∈ tokens, token.Named) :
    read (declaration ++ tokens.flatMap Token.render) = some tokens ↔
      (∀ token ∈ tokens, token.Clean) ∧ ¬sectionEnd.map Token.char <:+: tokens := by
  refine ⟨clean_of_read, ?_⟩
  rintro ⟨hclean, hsection⟩
  obtain @⟨before, after, name, attributes, body, hbefore, hbody, hafter⟩ := h
  have hexec : exec step ⟨.content, [], false, []⟩ ((before.map Token.char ++
      (Token.start name attributes :: body ++ Token.stop name :: after.map .char)).flatMap
        Token.render) = some ⟨.content, [], true, before.map .char ++
          (.start name attributes :: body ++ .stop name :: after.map .char)⟩ := by
    simp only [List.cons_append, List.forall_mem_cons, List.forall_mem_append] at hnamed hclean
    obtain ⟨_, hstart, hnamedBody, hstop, _⟩ := hnamed
    obtain ⟨_, hvalues, hcleanBody, _, _⟩ := hclean
    rw [List.flatMap_append, flatMap_render_chars, List.cons_append, List.flatMap_cons,
      List.flatMap_append, List.flatMap_cons, flatMap_render_chars]
    refine exec_append.mpr ⟨_, exec_spaces hbefore, ?_⟩
    refine exec_append.mpr ⟨_, exec_start (fun _ => rfl) hstart hvalues, ?_⟩
    refine exec_append.mpr ⟨_, exec_content hbody hnamedBody hcleanBody, ?_⟩
    refine exec_append.mpr ⟨_, exec_stop hstop, ?_⟩
    rw [exec_spaces hafter]
    simp
  rw [read, if_pos (List.prefix_append _ _), List.drop_left, hexec, Option.bind_some,
    Reader.result, if_pos ⟨rfl, rfl, rfl, hsection⟩]

/-- What stands in an element may be followed by more of it. -/
theorem Content.append (h : Content tokens) (h' : Content tokens') :
    Content (tokens ++ tokens') := by
  induction h with
  | nil => exact h'
  | char c _ ih => exact ih.char c
  | @element name attributes body rest hbody _ _ ih =>
    have hall := Content.element name attributes hbody ih
    rwa [← List.cons_append, ← List.append_assoc] at hall

end Complete

/-- What goes wrong at the beginning is not made good by what follows. -/
theorem read_append_eq_none {document rest : List Char} (hdeclaration : declaration <+: document)
    (h : exec step ⟨.content, [], false, []⟩ (document.drop declaration.length) = none) :
    read (document ++ rest) = none := by
  have hlength : declaration.length ≤ document.length := hdeclaration.length_le
  rw [read, if_pos (hdeclaration.trans (List.prefix_append _ _)),
    List.drop_append_of_le_length hlength]
  cases hexec : exec step ⟨.content, [], false, []⟩
      (document.drop declaration.length ++ rest) with
  | none => rfl
  | some reader =>
    obtain ⟨_, hbegin, _⟩ := exec_append.mp hexec
    rw [h] at hbegin
    cases hbegin

/-- An infix without a separator lies on one side of it. -/
theorem infix_append_cons_iff {α : Type*} {p l l' : List α} {x : α} (hp : p ≠ []) (hx : x ∉ p) :
    p <:+: l ++ x :: l' ↔ p <:+: l ∨ p <:+: l' := by
  rw [List.infix_append_iff, List.infix_cons_iff]
  constructor
  · rintro (hl | (hbegin | hl') | ⟨s, t, rfl, hs, ht⟩)
    · exact Or.inl hl
    · cases p with
      | nil => exact absurd rfl hp
      | cons y p =>
        obtain rfl := (List.cons_prefix_cons.mp hbegin).1
        exact absurd List.mem_cons_self hx
    · exact Or.inr hl'
    · cases t with
      | nil =>
        rw [List.append_nil]
        exact Or.inl hs.isInfix
      | cons y t =>
        obtain rfl := (List.cons_prefix_cons.mp ht).1
        exact absurd (List.mem_append_right _ List.mem_cons_self) hx
  · rintro (hl | hl')
    · exact Or.inl hl
    · exact Or.inr (Or.inl (Or.inr hl'))

end Xml
