import QueryWeave.Http.Url
import QueryWeave.Json.Reader
import QueryWeave.Proofs.Files.Loading

/-!
# Reading Forms

How `application/x-www-form-urlencoded` is read: between `&` stand pairs, the first `=` of a pair
ends its name, a plus sign is a space, and a percent sign with two hexadecimal digits is a byte.
The bytes of names and values are UTF-8. Whatever parameters are written, they are read back, also
if they stand behind another form.

- `readForm`: the pairs of a form.
- `readForm_formChars`: parameters are read back as they were.
- `readForm_kept_append`: a URL keeps the pairs of its query in front of what is added.
-/

namespace QueryWeave.Http

/-! ## §1 Reading -/

/-- The bytes that a name or a value of a form stands for. -/
def formBytes : List Char → List UInt8
  | [] => []
  | '+' :: rest => 0x20 :: formBytes rest
  | '%' :: a :: b :: rest =>
    match StringUnit.hexNumber? [a, b] with
    | some byte => UInt8.ofNat byte :: formBytes rest
    | none => 0x25 :: formBytes (a :: b :: rest)
  | c :: rest => String.utf8EncodeChar c ++ formBytes rest

/-- The text of a name or a value of a form, unless its bytes are no text. -/
def readFormText (cs : List Char) : Option String :=
  String.fromUTF8? (formBytes cs).toByteArray

/-- The name and the value of a pair of a form. -/
def readPair (cs : List Char) : Option String × Option String :=
  (readFormText (cs.takeWhile (· ≠ '=')), readFormText ((cs.dropWhile (· ≠ '=')).drop 1))

/-- The pairs of a form in order. -/
def readForm (cs : List Char) : List (Option String × Option String) :=
  ((Files.splitAt '&' cs).filter (· ≠ [])).map readPair

/-! ## §2 Characters -/

/-- A number below sixteen is read back from its digit. -/
theorem hexValue?_upperHex {n : Nat} (h : n < 16) : StringUnit.hexValue? (upperHex n) = some n := by
  revert n
  decide

theorem hexNumber?_percentByte (b : UInt8) :
    StringUnit.hexNumber? [upperHex (b.toNat / 16), upperHex (b.toNat % 16)] = some b.toNat := by
  have hb : b.toNat < 256 := b.toNat_lt
  have hhigh := hexValue?_upperHex (n := b.toNat / 16) (by omega)
  have hlow := hexValue?_upperHex (n := b.toNat % 16) (by omega)
  have hsum : b.toNat / 16 * 16 + b.toNat % 16 = b.toNat := by omega
  simp [StringUnit.hexNumber?, List.foldlM, hhigh, hlow, hsum]

theorem formBytes_percentByte (b : UInt8) (rest : List Char) :
    formBytes (percentByte b ++ rest) = b :: formBytes rest := by
  rw [percentByte, List.cons_append, List.cons_append, List.cons_append, List.nil_append, formBytes,
    hexNumber?_percentByte]
  simp

theorem formBytes_percentBytes (bytes : List UInt8) (rest : List Char) :
    formBytes (bytes.flatMap percentByte ++ rest) = bytes ++ formBytes rest := by
  induction bytes with
  | nil => rfl
  | cons b more ih =>
    rw [List.flatMap_cons, List.append_assoc, formBytes_percentByte, ih]
    rfl

/-- What stands for itself is no mark of a form. -/
theorem isFormKept_ne {c : Char} (h : isFormKept c = true) :
    c ≠ '+' ∧ c ≠ '%' ∧ c ≠ '&' ∧ c ≠ '=' := by
  refine ⟨?_, ?_, ?_, ?_⟩ <;>
  · rintro rfl
    revert h
    decide

/-- A character is read back as its bytes. -/
theorem formBytes_formChar (c : Char) (rest : List Char) :
    formBytes (formChar c ++ rest) = String.utf8EncodeChar c ++ formBytes rest := by
  rw [formChar]
  split
  · rename_i hkept
    -- It is neither of the two characters that are read in another way
    obtain ⟨hplus, hpercent, -, -⟩ := isFormKept_ne hkept
    rw [List.singleton_append, formBytes]
    · exact fun heq => hplus heq
    · exact fun a b more heq => absurd heq hpercent
  · split
    · rename_i hspace
      subst hspace
      rfl
    · rw [percentChar, formBytes_percentBytes]

theorem formBytes_formText (s : String) :
    formBytes (formText s) = s.toList.flatMap String.utf8EncodeChar := by
  rw [formText]
  induction s.toList with
  | nil => rfl
  | cons c rest ih =>
    rw [List.flatMap_cons, formBytes_formChar, ih, List.flatMap_cons]

/-- **A text is read back**, whatever characters it has. -/
theorem readFormText_formText (s : String) : readFormText (formText s) = some s := by
  have hbytes : (formBytes (formText s)).toByteArray = s.toByteArray := by
    rw [formBytes_formText, ← String.utf8Encode_toList]
    rfl
  rw [readFormText, hbytes, String.fromUTF8?, dif_pos s.isValidUTF8]
  rfl

/-! ## §3 Pairs -/

theorem upperHex_ne {n : Nat} (h : n < 16) : upperHex n ≠ '&' ∧ upperHex n ≠ '=' := by
  revert n
  decide

/-- Marks between pairs do not stand in them. -/
theorem mem_formText {s : String} {c : Char} (h : c ∈ formText s) : c ≠ '&' ∧ c ≠ '=' := by
  obtain ⟨d, -, hc⟩ := List.mem_flatMap.1 h
  -- A character is kept, is a blank, or is written as bytes in hexadecimal
  rw [formChar] at hc
  split at hc
  · rename_i hkept
    rw [List.mem_singleton.1 hc]
    exact (isFormKept_ne hkept).2.2
  · split at hc
    · rw [List.mem_singleton.1 hc]
      decide
    · obtain ⟨b, -, hb⟩ := List.mem_flatMap.1 hc
      have hlt : b.toNat < 256 := b.toNat_lt
      simp only [percentByte, List.mem_cons, List.not_mem_nil, or_false] at hb
      rcases hb with rfl | rfl | rfl
      · decide
      · exact upperHex_ne (by omega)
      · exact upperHex_ne (by omega)

theorem readPair_formParameter (parameter : String × String) :
    readPair (formParameter parameter) = (some parameter.1, some parameter.2) := by
  have hname : ∀ c ∈ formText parameter.1, (decide (c ≠ '=')) = true := fun c hc =>
    decide_eq_true (mem_formText hc).2
  -- The first equals sign is the one that was written
  have htake : (formParameter parameter).takeWhile (· ≠ '=') = formText parameter.1 := by
    rw [formParameter, List.takeWhile_append_of_pos hname]
    simp
  have hdrop : (formParameter parameter).dropWhile (· ≠ '=') = '=' :: formText parameter.2 := by
    rw [formParameter, List.dropWhile_append_of_pos hname]
    simp
  rw [readPair, htake, hdrop, List.drop_one, List.tail_cons, readFormText_formText,
    readFormText_formText]

/-! ## §4 Forms -/

/-- What holds no mark is not split. -/
theorem splitAt_of_not_mem {mark : Char} {cs : List Char} (h : mark ∉ cs) :
    Files.splitAt mark cs = [cs] := by
  induction cs with
  | nil => rfl
  | cons c rest ih =>
    rw [List.mem_cons, not_or] at h
    rw [Files.splitAt, if_neg (Ne.symm h.1), ih h.2]

/-- The parts of two texts with a mark between them are those of either. -/
theorem splitAt_append_mark (mark : Char) (front behind : List Char) :
    Files.splitAt mark (front ++ mark :: behind) =
      Files.splitAt mark front ++ Files.splitAt mark behind := by
  induction front with
  | nil => simp [Files.splitAt]
  | cons c rest ih =>
    rw [List.cons_append, Files.splitAt, Files.splitAt, ih]
    split
    · rfl
    · obtain ⟨part, parts, hparts⟩ := List.exists_cons_of_ne_nil (Files.splitAt_ne_nil mark rest)
      rw [hparts]
      rfl

theorem readForm_append_mark (front behind : List Char) :
    readForm (front ++ '&' :: behind) = readForm front ++ readForm behind := by
  rw [readForm, splitAt_append_mark, List.filter_append, List.map_append]
  rfl

theorem readForm_formParameter (parameter : String × String) :
    readForm (formParameter parameter) = [(some parameter.1, some parameter.2)] := by
  -- No mark that separates pairs stands in one, so the form is a single part
  have hmark : '&' ∉ formParameter parameter := by
    rw [formParameter, List.mem_append, List.mem_cons]
    rintro (hname | hsign | hvalue)
    · exact (mem_formText hname).1 rfl
    · cases hsign
    · exact (mem_formText hvalue).1 rfl
  have hsome : formParameter parameter ≠ [] := by simp [formParameter]
  rw [readForm, splitAt_of_not_mem hmark, List.filter_cons_of_pos (by simpa using hsome)]
  simp [readPair_formParameter]

/-- **Parameters are read back as they were**, in order. -/
theorem readForm_formChars (parameters : List (String × String)) :
    readForm (formChars parameters) = parameters.map fun p => (some p.1, some p.2) := by
  induction parameters with
  | nil => rfl
  | cons parameter rest ih =>
    cases rest with
    | nil => exact readForm_formParameter parameter
    | cons next more =>
      rw [formChars, readForm_append_mark, readForm_formParameter, ih]
      rfl

/-- Bytes that are no text are read as none. -/
example : readForm "q=%C3%A9+%26&&r=%C3".toList = [(some "q", some "é &"), (some "r", none)] := by
  decide +kernel

/-! ## §5 Queries of URLs -/

namespace Url

/-- The pairs of the query of a URL. -/
def pairs (u : Url) : List (Option String × Option String) :=
  readForm (u.query.getD [])

/-- What stands in front of parameters that are added to a URL. -/
def kept (u : Url) : List Char :=
  match u.query with
  | none | some [] => []
  | some before => before ++ ['&']

/-- Parameters are added behind the query of a URL, and nothing else of it changes. -/
theorem addParameters_eq (u : Url) (parameters : List (String × String)) :
    u.addParameters parameters = { u with query := some (u.kept ++ formChars parameters) } := by
  obtain ⟨scheme, server, path, query⟩ := u
  rcases query with _ | _ | ⟨c, rest⟩ <;> simp [addParameters, kept]

/-- **A URL keeps the pairs of its query** in front of what is added. -/
theorem readForm_kept_append (u : Url) (added : List Char) :
    readForm (u.kept ++ added) = u.pairs ++ readForm added := by
  obtain ⟨scheme, server, path, query⟩ := u
  rcases query with _ | _ | ⟨c, rest⟩
  · rfl
  · rfl
  · have hmark := readForm_append_mark (c :: rest) added
    rw [List.append_cons] at hmark
    exact hmark

end Url

end QueryWeave.Http
