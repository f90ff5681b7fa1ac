import DiskBench.Preparation
import DiskBench.WrittenSizes

/-!
# The files on the command line

The option `-f` of `main`: one tokenizer goes over the entries and another one over the fields of an
entry. Neither of them returns an empty token, so a field that is left out moves the next one into
its place.
-/

namespace DiskBench

open Tokens

/-- A worker with the name of its file. -/
structure FileWorker where
  filename : List Char
  worker : IoWorker

/-- The size of a worker from its field, when there is one. -/
def parseFilesize (apr : AprStrings) (strFilesize : Option (List Char)) : UInt64 :=
  ((strFilesize.filter (· ≠ [])).map (parseSize apr)).getD 0

/-- The limit of a worker from its field, when there is one. -/
def parseIolimit (apr : AprStrings) (strIolimit : Option (List Char)) : UInt64 :=
  ((strIolimit.filter fun s => s ≠ [] && parseSize apr s > 0).map (parseSize apr)).getD
    0xFFFFFFFFFFFFFFFF

/-- The worker of an entry. Without a file name `main` returns. -/
def fileWorker (apr : AprStrings) (iobufsize : UInt64) (filetoken : List Char) :
    Option FileWorker :=
  let fields := apr.strtok filetoken ';'
  let strFilesize := fields[1]?
  let strIolimit := fields[2]?
  (fields[0]?.filter (· ≠ [])).map fun filename =>
    ⟨filename, createWorker iobufsize (parseFilesize apr strFilesize)
      (parseIolimit apr strIolimit)⟩

/-- The option `-f`: `worker_array` after all entries. -/
def filesOption (apr : AprStrings) (iobufsize : UInt64) (optarg : List Char)
    (workerArray : List FileWorker) : Option (List FileWorker) :=
  (apr.strtok optarg '&').foldlM (fun workerArray filetoken =>
    (fileWorker apr iobufsize filetoken).map fun worker => workerArray ++ [worker]) workerArray

/-- An entry: the name of a file, and perhaps a size and a limit. -/
structure FileEntry where
  filename : List Char
  filename_ne : filename ≠ []
  filename_plain : ';' ∉ filename ∧ '&' ∉ filename
  filesize : Option WrittenSize
  iolimit : Option WrittenSize

/-- A field that may be left out. -/
def fieldText (size : Option WrittenSize) : List Char := (size.map WrittenSize.text).getD []

/-- The fields of an entry. -/
def FileEntry.fields (entry : FileEntry) : List (List Char) :=
  [entry.filename, fieldText entry.filesize, fieldText entry.iolimit]

/-- The texts of an entry: empty fields at its end are optional. -/
def FileEntry.Renders (entry : FileEntry) (text : List Char) : Prop :=
  ∃ n, 1 ≤ n ∧ text = [';'].intercalate (entry.fields.take n) ∧
    ∀ field ∈ entry.fields.drop n, field = []

/-- The size that an entry gives, which is 0 when it gives none. -/
def FileEntry.givenFilesize (entry : FileEntry) : ℕ := (entry.filesize.map WrittenSize.value).getD 0

/-- The limit that an entry gives. Without one, and with 0, there is no limit. -/
def FileEntry.givenIolimit (entry : FileEntry) : ℕ :=
  ((entry.iolimit.map WrittenSize.value).filter (· ≠ 0)).getD (2 ^ 64 - 1)

/-- The worker of an entry is the one that the entry describes. -/
structure FileEntry.Creates (entry : FileEntry) (created : FileWorker) : Prop where
  filename : created.filename = entry.filename
  filesize : created.worker.filesize.toNat = entry.givenFilesize
  iolimit : created.worker.iolimit.toNat = entry.givenIolimit

/-- The entries whose values land in their fields: a limit other than 0 comes with a size, and the
sizes fit. -/
structure FileEntry.Complete (entry : FileEntry) : Prop where
  filesize_fits : ∀ size ∈ entry.filesize, size.Fits
  iolimit_fits : ∀ size ∈ entry.iolimit, size.Fits
  filesize_given : entry.filesize = none → ∀ size ∈ entry.iolimit, size.value = 0

section Fields

variable {entry : FileEntry} {text : List Char}

/-- A size is a nonempty text without separators. -/
theorem WrittenSize.text_plain (size : WrittenSize) :
    size.text ≠ [] ∧ ';' ∉ size.text ∧ '&' ∉ size.text := by
  obtain ⟨⟨digits, hne, hdigits⟩, unit⟩ := size
  have hdigit : ∀ c : Char, c.isDigit = false → c ∉ digits := by
    intro c hc hmem
    rw [List.all_eq_true.mp hdigits c hmem] at hc
    cases hc
  have hunit : ∀ c : Char, (∀ unit : SizeUnit, c ≠ unit.letter) →
      c ∉ (unit.map SizeUnit.letter).toList := by
    intro c hc hmem
    obtain ⟨u, _, hu⟩ := Option.map_eq_some_iff.mp (Option.mem_toList.mp hmem)
    exact hc u hu.symm
  simp only [WrittenSize.text, List.mem_append, not_or]
  refine ⟨by simp [hne], ⟨hdigit _ rfl, hunit _ ?_⟩, hdigit _ rfl, hunit _ ?_⟩
  · rintro ⟨⟩ <;> decide
  · rintro ⟨⟩ <;> decide

theorem fields_plain : ∀ field ∈ entry.fields, ';' ∉ field ∧ '&' ∉ field := by
  have hfield : ∀ size, ';' ∉ fieldText size ∧ '&' ∉ fieldText size := by
    rintro (_ | size)
    · exact ⟨List.not_mem_nil, List.not_mem_nil⟩
    · exact size.text_plain.2
  simp only [FileEntry.fields, List.forall_mem_cons]
  exact ⟨entry.filename_plain, hfield _, hfield _, fun _ h => absurd h List.not_mem_nil⟩

/-- The tokens of an entry are its fields that are not empty. -/
theorem FileEntry.Renders.tokens_eq (h : entry.Renders text) :
    tokens ';' text = entry.fields.filter (· ≠ []) := by
  obtain ⟨n, _, rfl, hempty⟩ := h
  have hdrop : (entry.fields.drop n).filter (· ≠ []) = [] := by
    rw [List.filter_eq_nil_iff]
    intro field hfield
    simp [hempty field hfield]
  rw [tokens_intercalate fun field hfield => (fields_plain field (List.mem_of_mem_take hfield)).1]
  conv_rhs =>
    rw [← List.take_append_drop n entry.fields, List.filter_append, hdrop, List.append_nil]

/-- The text of an entry is a token of the argument. -/
theorem FileEntry.Renders.plain (h : entry.Renders text) : text ≠ [] ∧ '&' ∉ text := by
  refine ⟨?_, ?_⟩
  · rintro rfl
    have hmem : entry.filename ∈ entry.fields.filter (· ≠ []) := by
      simp [FileEntry.fields, entry.filename_ne]
    rw [← h.tokens_eq] at hmem
    exact absurd hmem List.not_mem_nil
  · obtain ⟨n, _, rfl, _⟩ := h
    exact not_mem_intercalate (by decide) fun field hfield =>
      (fields_plain field (List.mem_of_mem_take hfield)).2

end Fields

section Create

variable {apr : AprStrings} {iobufsize : UInt64} {size : WrittenSize} {entry : FileEntry}
  {text : List Char}

theorem WrittenSize.ends_nil (size : WrittenSize) : size.Ends [] :=
  ⟨rfl, fun _ _ h => by cases h⟩

/-- `parse_size` on the text of a size alone. -/
theorem parseSize_eq_iff (hapr : apr.Documented) :
    (parseSize apr size.text).toNat = size.value ↔ size.Fits := by
  have h := parseSize_toNat_eq_iff hapr size.ends_nil
  rwa [List.append_nil] at h

/-- A size of 0 fits. -/
theorem WrittenSize.fits_of_value_eq_zero (h : size.value = 0) : size.Fits := by
  have hnumeral : size.numeral.value = 0 := by
    refine (Nat.mul_eq_zero.mp h).resolve_right ?_
    exact Nat.pos_iff_ne_zero.mp (Nat.pow_pos (by decide))
  exact ⟨by omega, by omega⟩

/-- The largest 64-bit number is written without a unit and parsed as another one, but not as 0. -/
theorem parseSize_ne_zero (hapr : apr.Documented) (h : size.value = 2 ^ 64 - 1) :
    parseSize apr size.text ≠ 0 := by
  intro hzero
  have hexponent : 2 ^ 63 ≤ size.numeral.value → size.exponent = 0 := fun hlarge =>
    WrittenSize.exponent_eq_zero hlarge (by omega)
  have hparse := parseSize_text hapr size.ends_nil
  rw [List.append_nil, hzero] at hparse
  by_cases hlarge : 2 ^ 63 ≤ size.numeral.value
  · rw [hexponent hlarge, min_eq_left (by omega)] at hparse
    exact absurd hparse (by decide)
  · have hfits := (parseSize_eq_iff hapr).mpr ⟨not_le.mp hlarge, by omega⟩
    rw [hzero, h] at hfits
    exact absurd hfits (by decide)

/-- The limit in its field is the given one exactly when it fits. -/
theorem parseIolimit_eq_iff (hapr : apr.Documented) :
    (parseIolimit apr (some size.text)).toNat =
        ((some size.value).filter (· ≠ 0)).getD (2 ^ 64 - 1) ↔ size.Fits := by
  have hparse := @parseSize_eq_iff apr size hapr
  have hne : size.text ≠ [] := size.text_plain.1
  unfold parseIolimit
  by_cases hzero : parseSize apr size.text = 0
  · have hlimit : ((some size.text).filter fun s => s ≠ [] && parseSize apr s > 0) = none := by
      simp [Option.filter, hzero]
    rw [hlimit]
    by_cases hvalue : size.value = 0
    · refine iff_of_true ?_ (WrittenSize.fits_of_value_eq_zero hvalue)
      rw [hvalue]
      rfl
    · refine iff_of_false (fun h => ?_) fun hfits => ?_
      · have hgiven : ((some size.value).filter (· ≠ 0)).getD (2 ^ 64 - 1) = size.value := by
          simp [Option.filter, hvalue]
        rw [hgiven] at h
        exact parseSize_ne_zero hapr h.symm hzero
      · have heq := hparse.mpr hfits
        rw [hzero] at heq
        exact hvalue heq.symm
  · have hpos : 0 < parseSize apr size.text := UInt64.pos_iff_ne_zero.mpr hzero
    have hlimit : ((some size.text).filter fun s => s ≠ [] && parseSize apr s > 0) =
        some size.text := by
      simp [Option.filter, hpos, hne]
    rw [hlimit, Option.map_some, Option.getD_some]
    by_cases hvalue : size.value = 0
    · have heq := hparse.mpr (WrittenSize.fits_of_value_eq_zero hvalue)
      rw [hvalue] at heq
      exact absurd (UInt64.toNat_inj.mp heq) hzero
    · rw [← hparse]
      simp [Option.filter, hvalue]

/-- A limit that is taken for the size is as if it were none exactly when it is 0. -/
theorem moved_iff (hapr : apr.Documented) : ((parseSize apr size.text).toNat = 0 ∧
      2 ^ 64 - 1 = ((some size.value).filter (· ≠ 0)).getD (2 ^ 64 - 1)) ↔
    size.Fits ∧ size.value = 0 := by
  constructor
  · rintro ⟨hparse, hgiven⟩
    have hzero : size.value = 0 := by
      by_contra hvalue
      have hlarge : size.value = 2 ^ 64 - 1 := by simpa [Option.filter, hvalue] using hgiven.symm
      exact parseSize_ne_zero hapr hlarge (UInt64.toNat_inj.mp hparse)
    exact ⟨WrittenSize.fits_of_value_eq_zero hzero, hzero⟩
  · rintro ⟨hfits, hzero⟩
    rw [(parseSize_eq_iff hapr).mpr hfits, hzero]
    exact ⟨rfl, rfl⟩

/-- The size in its field is parsed. -/
theorem parseFilesize_text : parseFilesize apr (some size.text) = parseSize apr size.text := by
  simp [parseFilesize, Option.filter, size.text_plain.1]

/-- A complete entry, part by part. -/
theorem complete_iff : entry.Complete ↔ (∀ size ∈ entry.filesize, size.Fits) ∧
    (∀ size ∈ entry.iolimit, size.Fits) ∧
      (entry.filesize = none → ∀ size ∈ entry.iolimit, size.value = 0) :=
  ⟨fun h => ⟨h.filesize_fits, h.iolimit_fits, h.filesize_given⟩, fun h => ⟨h.1, h.2.1, h.2.2⟩⟩

/-- The values of a worker that are those of its entry. -/
theorem creates_iff {filesize iolimit : UInt64} :
    entry.Creates ⟨entry.filename, createWorker iobufsize filesize iolimit⟩ ↔
      filesize.toNat = entry.givenFilesize ∧ iolimit.toNat = entry.givenIolimit :=
  ⟨fun h => ⟨h.filesize, h.iolimit⟩, fun h => ⟨rfl, h.1, h.2⟩⟩

/-- What is made of the tokens of an entry. -/
theorem fileWorker_creates {fields : List (List Char)}
    (htokens : apr.strtok text ';' = entry.filename :: fields) :
    ∃ created, fileWorker apr iobufsize text = some created ∧
      (entry.Creates created ↔
        (parseFilesize apr fields[0]?).toNat = entry.givenFilesize ∧
          (parseIolimit apr fields[1]?).toNat = entry.givenIolimit) := by
  refine ⟨_, ?_, @creates_iff iobufsize _ _ _⟩
  simp [fileWorker, htokens, entry.filename_ne, Option.filter]

/-- The worker of an entry is the one that it describes exactly when the entry is complete. -/
theorem fileWorker_creates_iff (hapr : apr.Documented) (h : entry.Renders text) :
    ∃ created, fileWorker apr iobufsize text = some created ∧
      (entry.Creates created ↔ entry.Complete) := by
  have htokens : apr.strtok text ';' = entry.filename :: ([fieldText entry.filesize,
      fieldText entry.iolimit].filter (· ≠ [])) := by
    rw [hapr.strtok_eq, h.tokens_eq, FileEntry.fields, List.filter_cons_of_pos]
    simpa using entry.filename_ne
  obtain ⟨created, hcreated, hiff⟩ := @fileWorker_creates _ iobufsize _ _ _ htokens
  refine ⟨created, hcreated, hiff.trans ?_⟩
  have htext : ∀ size : WrittenSize, size.text ≠ [] := fun size => size.text_plain.1
  rw [complete_iff, FileEntry.givenFilesize, FileEntry.givenIolimit]
  cases entry.filesize with
  | some filesize =>
    cases entry.iolimit with
    | some iolimit =>
      have hfields : [fieldText (some filesize), fieldText (some iolimit)].filter (· ≠ []) =
          [filesize.text, iolimit.text] := by simp [fieldText, htext]
      have hsize := @parseSize_eq_iff apr filesize hapr
      have hlimit := @parseIolimit_eq_iff apr iolimit hapr
      rw [← parseFilesize_text] at hsize
      rw [hfields]
      simpa using and_congr hsize hlimit
    | none =>
      have hfields : [fieldText (some filesize), fieldText none].filter (· ≠ []) =
          [filesize.text] := by simp [fieldText, htext]
      have hsize := @parseSize_eq_iff apr filesize hapr
      rw [← parseFilesize_text] at hsize
      rw [hfields]
      simpa [parseIolimit, Option.filter] using hsize
  | none =>
    cases entry.iolimit with
    | some iolimit =>
      -- The limit is the second token, and so it is taken for the size.
      have hfields : [fieldText none, fieldText (some iolimit)].filter (· ≠ []) =
          [iolimit.text] := by simp [fieldText, htext]
      rw [hfields]
      have hmoved := @moved_iff _ iolimit hapr
      rw [← parseFilesize_text] at hmoved
      simpa [parseIolimit, Option.filter] using hmoved
    | none =>
      have hfields : [fieldText none, fieldText none].filter (· ≠ []) = [] := rfl
      rw [hfields]
      simp [parseFilesize, parseIolimit, Option.filter]

/-- The loop over the entries pushes a worker for each of them. -/
theorem foldlM_fileWorker {texts : List (List Char)} {created : List FileWorker}
    (h : List.Forall₂ (fun text worker => fileWorker apr iobufsize text = some worker) texts
      created) (workerArray : List FileWorker) :
    texts.foldlM (fun workerArray filetoken => (fileWorker apr iobufsize filetoken).map
      fun worker => workerArray ++ [worker]) workerArray = some (workerArray ++ created) := by
  induction h generalizing workerArray with
  | nil => rw [List.append_nil, List.foldlM_nil, Option.pure_def]
  | @cons text worker texts created htext _ ih =>
    rw [List.foldlM_cons, htext]
    exact (ih (workerArray ++ [worker])).trans (by rw [List.append_assoc, List.singleton_append])

/-- Two lists of the same workers. -/
theorem forall₂_creates_iff {entries : List FileEntry} {created : List FileWorker}
    (h : List.Forall₂ (fun entry worker => entry.Creates worker ↔ entry.Complete) entries
      created) :
    List.Forall₂ FileEntry.Creates entries created ↔ ∀ entry ∈ entries, entry.Complete := by
  induction h with
  | nil => exact iff_of_true .nil fun _ h => absurd h List.not_mem_nil
  | cons hentry _ ih => rw [List.forall₂_cons, List.forall_mem_cons, hentry, ih]

/-- **The option `-f`.** Every entry creates a worker with the values of its fields, in order,
exactly when each entry with a limit other than 0 gives a size and all values fit. -/
theorem files_created_iff (hapr : apr.Documented) {entries : List FileEntry}
    {texts : List (List Char)} (hrenders : List.Forall₂ FileEntry.Renders entries texts)
    (workerArray : List FileWorker) :
    (∃ created, filesOption apr iobufsize (['&'].intercalate texts) workerArray =
        some (workerArray ++ created) ∧ List.Forall₂ FileEntry.Creates entries created) ↔
      ∀ entry ∈ entries, entry.Complete := by
  have hplain : ∀ text ∈ texts, text ≠ [] ∧ '&' ∉ text := by
    induction hrenders with
    | nil => exact fun _ h => absurd h List.not_mem_nil
    | cons htext _ ih => exact List.forall_mem_cons.mpr ⟨htext.plain, ih⟩
  have htokens : apr.strtok (['&'].intercalate texts) '&' = texts := by
    rw [hapr.strtok_eq]
    exact tokens_intercalate_of_ne (fun text htext => (hplain text htext).2) fun text htext =>
      (hplain text htext).1
  obtain ⟨created, hcreated, hcomplete⟩ : ∃ created,
      List.Forall₂ (fun text worker => fileWorker apr iobufsize text = some worker) texts
        created ∧
      List.Forall₂ (fun entry worker => entry.Creates worker ↔ entry.Complete) entries
        created := by
    clear htokens hplain
    induction hrenders with
    | nil => exact ⟨[], .nil, .nil⟩
    | cons htext _ ih =>
      obtain ⟨worker, hworker, hiff⟩ := @fileWorker_creates_iff _ iobufsize _ _ hapr htext
      obtain ⟨created, hcreated, hcomplete⟩ := ih
      exact ⟨worker :: created, .cons hworker hcreated, .cons hiff hcomplete⟩
  have hoption : filesOption apr iobufsize (['&'].intercalate texts) workerArray =
      some (workerArray ++ created) := by
    rw [filesOption, htokens]
    exact foldlM_fileWorker hcreated workerArray
  rw [← forall₂_creates_iff hcomplete]
  constructor
  · rintro ⟨created', hcreated', hcreates⟩
    rw [hoption, Option.some.injEq, List.append_cancel_left_eq] at hcreated'
    rwa [hcreated']
  · exact fun h => ⟨created, hoption, h⟩

end Create

/-- The size of the example in the help text fits. -/
theorem eightGiga_fits : eightGiga.Fits := ⟨by decide, by decide⟩

/-- An entry with a size, and an entry with a limit. -/
def sizeEntry : FileEntry := ⟨['a'], by decide, by decide, some eightGiga, none⟩

def limitEntry : FileEntry := ⟨['b'], by decide, by decide, none, some eightGiga⟩

/-- The size of `a;8G` is the size of its file, with and without a separator behind it. -/
theorem files_created_size : ∃ created,
    filesOption runtime 33554432 ['a', ';', '8', 'G', '&', 'a', ';', '8', 'G', ';'] [] =
        some created ∧ List.Forall₂ FileEntry.Creates [sizeEntry, sizeEntry] created := by
  have hcomplete : sizeEntry.Complete := by
    refine ⟨?_, fun size h => (by cases h), fun h => by cases h⟩
    rintro size ⟨⟩
    exact eightGiga_fits
  have hshort : sizeEntry.Renders ['a', ';', '8', 'G'] := ⟨2, by decide, rfl, by decide⟩
  have hlong : sizeEntry.Renders ['a', ';', '8', 'G', ';'] := ⟨3, by decide, rfl, by decide⟩
  exact (@files_created_iff _ 33554432 runtime_documented _ _ (.cons hshort (.cons hlong .nil))
    []).mpr (by simp [hcomplete])

/-- The limit of `b;;8G` becomes the size of its file, and there is no limit. -/
theorem limit_becomes_filesize : limitEntry.Renders ['b', ';', ';', '8', 'G'] ∧
    filesOption runtime 33554432 ['b', ';', ';', '8', 'G'] [] =
      some [⟨['b'], createWorker 33554432 8589934592 0xFFFFFFFFFFFFFFFF⟩] ∧
    limitEntry.givenFilesize = 0 ∧ limitEntry.givenIolimit = 8589934592 :=
  ⟨⟨3, by decide, rfl, by decide⟩, rfl, rfl, rfl⟩

end DiskBench
