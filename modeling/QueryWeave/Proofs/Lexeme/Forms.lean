import QueryWeave.Proofs.Lexeme.Spelling

/-!
# The Forms of Lexemes

The lexical grammar, apart from how the scanner measures its classes. A lexeme is the longest text
of the first form that applies where it begins. Where a string ends is told by the places in the
text at which quotes stand and backslashes do not, not by a reading from the left; the text between
lexemes is built from ignored characters and comments, not read with a state.

- `through_blockLength`, `through_quotedLength`: the scanner finds the first end of a string.
- `Lexeme.Form.isFirst_iff`: the scanner cuts off the longest text of the first form.
- `ignored_iff`: the scanner passes over what the grammar ignores.
-/

namespace QueryWeave

/-! ## §1 Where strings end -/

/-- Whether three quotes at a place close a block string: none of them stands behind a backslash
with two more quotes, which escapes all three. The condition speaks of every place of the text at
once, and of no reading from the left. -/
def ClosesAt (cs : List Char) (place : Nat) : Prop :=
  (cs.drop place).take 3 = ['"', '"', '"'] ∧
    ∀ i, (cs.drop i).take 4 = ['\\', '"', '"', '"'] → place + 3 ≤ i + 1 ∨ i + 4 ≤ place

/-- Whether the character at a place is escaped: it stands behind a backslash that is not escaped
itself. -/
def Escaped (cs : List Char) : Nat → Prop
  | 0 => False
  | place + 1 => cs[place]? = some '\\' ∧ ¬Escaped cs place

/-- Whether a quote or a line feed at a place ends a string. -/
def EndsAt (cs : List Char) (place : Nat) : Prop :=
  (cs[place]? = some '"' ∨ cs[place]? = some '\n') ∧ ¬Escaped cs place

/-- The number of characters through the first place at which something ends, the `width` characters
of the end included, or to the end of the text if there is no such place. Both sorts of string are
measured so, with their own notion of an end. -/
def Through (ends : Nat → Prop) (width : Nat) (cs : List Char) (length : Nat) : Prop :=
  (∃ place, ends place ∧ (∀ earlier < place, ¬ends earlier) ∧ length = place + width) ∨
    ((∀ place, ¬ends place) ∧ length = cs.length)

section Through

variable {ends : Nat → Prop} {width : Nat} {cs : List Char} {length : Nat}

theorem Through.unique {other : Nat} (h : Through ends width cs length)
    (hother : Through ends width cs other) : length = other := by
  obtain ⟨place, hends, hfirst, rfl⟩ | ⟨hnone, rfl⟩ := h
  · obtain ⟨place', hends', hfirst', rfl⟩ | ⟨hnone', -⟩ := hother
    · rcases Nat.lt_trichotomy place place' with hlt | rfl | hlt
      · exact absurd hends (hfirst' place hlt)
      · rfl
      · exact absurd hends' (hfirst place' hlt)
    · exact absurd hends (hnone' place)
  · obtain ⟨place', hends', -⟩ | ⟨-, rfl⟩ := hother
    · exact absurd hends' (hnone place')
    · rfl

/-- Nothing ends in the characters in front, and the search goes on behind them. -/
theorem Through.behind {others : Nat → Prop} {n : Nat} (hlength : n ≤ cs.length)
    (hnone : ∀ earlier < n, ¬ends earlier) (hbehind : ∀ place, ends (place + n) ↔ others place)
    (h : Through others width (cs.drop n) length) : Through ends width cs (length + n) := by
  have hiff : ∀ place, ¬place < n → (ends place ↔ others (place - n)) := by
    intro place hlate
    rw [← hbehind, Nat.sub_add_cancel (Nat.le_of_not_lt hlate)]
  -- The first end behind the front is the first end of all, and without one there is none at all
  obtain ⟨place, hends, hfirst, rfl⟩ | ⟨hnever, rfl⟩ := h
  · refine .inl ⟨place + n, (hbehind place).2 hends, fun earlier hlt => ?_, by omega⟩
    by_cases hearly : earlier < n
    · exact hnone earlier hearly
    · rw [hiff earlier hearly]
      exact hfirst _ (by omega)
  · refine .inr ⟨fun place => ?_, by rw [List.length_drop]; omega⟩
    by_cases hearly : place < n
    · exact hnone place hearly
    · rw [hiff place hearly]
      exact hnever _

/-- Nothing ends at the first character, and the search goes on behind it. -/
theorem Through.cons {others : Nat → Prop} {c : Char} {rest : List Char} (hnone : ¬ends 0)
    (hbehind : ∀ place, ends (place + 1) ↔ others place) (h : Through others width rest length) :
    Through ends width (c :: rest) (length + 1) := by
  refine Through.behind (by simp) ?_ hbehind h
  intro earlier hlt
  rwa [Nat.lt_one_iff.1 hlt]

end Through

/-- Behind characters across whose end no escape reaches, a block string is closed as it is there by
itself. -/
theorem closesAt_drop {cs : List Char} {n : Nat}
    (h : ∀ i < n, (cs.drop i).take 4 = ['\\', '"', '"', '"'] → i + 4 ≤ n) (place : Nat) :
    ClosesAt cs (place + n) ↔ ClosesAt (cs.drop n) place := by
  simp only [ClosesAt, List.drop_drop, Nat.add_comm n]
  -- An escape that begins in the front ends there, so none reaches over a place behind it
  refine and_congr_right fun _ => ⟨fun hall i hi => ?_, fun hall i hi => ?_⟩
  · have hplaces := hall (i + n) hi
    omega
  · by_cases hearly : i < n
    · have hbefore := h i hearly hi
      omega
    · have hplaces := hall (i - n) (by rwa [Nat.sub_add_cancel (by omega)])
      omega

/-- **A block string ends with the first three quotes that close it.** Where none do, it runs to the
end of the text; the scanner takes the rest for a string in this case. -/
theorem through_blockLength (cs : List Char) : Through (ClosesAt cs) 3 cs (blockLength cs) := by
  match cs with
  | [] => exact .inr ⟨fun place h => by simp [ClosesAt] at h, rfl⟩
  | c :: rest =>
    rw [blockLength_cons]
    split_ifs with hescaped hclosing
    · -- None of the four characters of an escape begins an end, nor another escape
      obtain ⟨rfl, hquotes⟩ := hescaped
      obtain ⟨more, rfl⟩ : ∃ more, rest = ['"', '"', '"'] ++ more := ⟨_, eq_append_drop hquotes⟩
      have hbehind : ∀ place, ClosesAt ('\\' :: (['"', '"', '"'] ++ more)) (place + 4) ↔
          ClosesAt more place := by
        apply closesAt_drop
        intro i hi hescape
        have hi' : i = 0 ∨ i = 1 ∨ i = 2 ∨ i = 3 := by omega
        rcases hi' with rfl | rfl | rfl | rfl <;> simp at hescape ⊢
      refine Through.behind (by simp) ?_ hbehind (through_blockLength more)
      intro earlier hlt hcloses
      have hplaces := hcloses.2 0 rfl
      have hzero : earlier = 0 := by omega
      subst hzero
      exact absurd hcloses.1 (by simp)
    · obtain ⟨rfl, hquotes⟩ := hclosing
      refine .inl ⟨0, ⟨by simp [hquotes], fun i hi => ?_⟩, by simp, rfl⟩
      -- An escape begins with a backslash, so none begins at the first two quotes
      have hlate : ¬(i = 0 ∨ i = 1) := by
        rw [eq_append_drop hquotes] at hi
        rintro (rfl | rfl) <;> simp at hi
      omega
    · -- Any other character is passed over by itself
      have hbehind : ∀ place, ClosesAt (c :: rest) (place + 1) ↔ ClosesAt rest place := by
        apply closesAt_drop
        intro i hi hescape
        have hzero : i = 0 := by omega
        subst hzero
        exact absurd (by simpa using hescape) hescaped
      have hnone : ¬ClosesAt (c :: rest) 0 := fun h => hclosing (by simpa using h.1)
      exact (through_blockLength rest).cons hnone hbehind
termination_by cs.length

/-- Behind a character that is not escaped, characters are escaped as they are there by
themselves. -/
theorem escaped_drop {cs : List Char} {n : Nat} (h : ¬Escaped cs n) (place : Nat) :
    Escaped cs (place + n) ↔ Escaped (cs.drop n) place := by
  induction place with
  | zero => simpa [Escaped] using h
  | succ place ih =>
    rw [Nat.succ_add]
    simp only [Escaped, ih, List.getElem?_drop, Nat.add_comm n]

theorem endsAt_drop {cs : List Char} {n : Nat} (h : ¬Escaped cs n) (place : Nat) :
    EndsAt cs (place + n) ↔ EndsAt (cs.drop n) place := by
  simp only [EndsAt, escaped_drop h, List.getElem?_drop, Nat.add_comm n]

/-- **A string ends with the first quote or line feed that is not escaped.** A line feed ends it as
well, so an open string does not reach into the next line. -/
theorem through_quotedLength (cs : List Char) : Through (EndsAt cs) 1 cs (quotedLength cs) := by
  match cs with
  | [] => exact .inr ⟨fun place h => by simp [EndsAt] at h, rfl⟩
  | c :: rest =>
    rw [quotedLength_cons]
    split_ifs with hescape hend hquote
    · -- A backslash at the end of the text escapes nothing
      subst hescape hend
      refine .inr ⟨fun place h => ?_, rfl⟩
      cases place <;> simp [EndsAt] at h
    · -- A backslash does not end a string, and the character behind it is escaped
      subst hescape
      obtain ⟨d, more, rfl⟩ := List.exists_cons_of_ne_nil hend
      have hescaped : Escaped ('\\' :: d :: more) 1 := ⟨rfl, id⟩
      have hbehind : ∀ place, EndsAt ('\\' :: d :: more) (place + 2) ↔ EndsAt more place :=
        endsAt_drop fun h => h.2 hescaped
      refine Through.behind (by simp) ?_ hbehind (through_quotedLength more)
      intro earlier hlt hends
      have hearly : earlier = 0 ∨ earlier = 1 := by omega
      rcases hearly with rfl | rfl
      · simp [EndsAt] at hends
      · exact hends.2 hescaped
    · refine .inl ⟨0, ⟨?_, id⟩, by simp, rfl⟩
      simpa using hquote
    · -- Any other character is passed over by itself, and escapes nothing
      have hbehind : ∀ place, EndsAt (c :: rest) (place + 1) ↔ EndsAt rest place :=
        endsAt_drop fun h => hescape (by simpa using h.1)
      have hnone : ¬EndsAt (c :: rest) 0 := fun h => hquote (by simpa using h.1)
      exact (through_quotedLength rest).cons hnone hbehind
termination_by cs.length

/-! ## §2 Forms

The grammar has a form for each class of lexemes. A form says which texts are of it, what they open
with and how far they reach; which one applies is settled by the order of the forms. -/

namespace Lexeme

/-- The forms of lexemes. -/
inductive Form where
  /-- Three dots. -/
  | ellipsis
  /-- A dollar sign directly followed by a name. -/
  | variable
  /-- From three quotes through the next three quotes that close it, or to the end of the text. -/
  | block
  /-- From a quote through the next quote or line feed that ends it, or to the end of the text. -/
  | string
  | name
  /-- A run of characters like those of a number, which begins with a digit or a minus sign. -/
  | number
  /-- A single character. -/
  | mark (c : Char)

namespace Form

/-- What a lexeme of a form is. -/
def kind : Form → LexemeKind
  | ellipsis => .ellipsis
  | .variable => .variable
  | block | string => .stringValue
  | name => .name
  | number => .other
  | mark c => .punctuator c

/-- The place of a form in the order in which the forms are tried. -/
def rank : Form → Nat
  | ellipsis => 0
  | .variable => 1
  | block => 2
  | string => 3
  | name => 4
  | number => 5
  | mark _ => 6

/-- Whether a text is of a form where `following` stands behind it. -/
def Fits (text following : List Char) : Form → Prop
  | ellipsis => text = ['.', '.', '.']
  | .variable => ∃ named, text = '$' :: named ∧ IsName named
  | block => ∃ inside, text = '"' :: '"' :: '"' :: inside ∧
      Through (ClosesAt (inside ++ following)) 3 (inside ++ following) inside.length
  | string => ∃ inside, text = '"' :: inside ∧
      Through (EndsAt (inside ++ following)) 1 (inside ++ following) inside.length
  | name => IsName text
  | number => ∃ c more, text = c :: more ∧ isNumberStart c = true ∧ more.all isNumberPart = true
  | mark c => text = [c]

/-- Whether a text begins with one of a form. -/
def Applies (f : Form) (cs : List Char) : Prop :=
  ∃ text following, text ++ following = cs ∧ f.Fits text following

/-- Whether a text is the longest one of a form that applies where it begins, and no form that is
tried earlier applies there. This is how the grammar is stated: nothing in it says how a lexeme is
measured. -/
structure IsFirst (f : Form) (text following : List Char) : Prop where
  fits : f.Fits text following
  longest : ∀ other behind, other ++ behind = text ++ following → f.Fits other behind →
    other.length ≤ text.length
  first : ∀ g : Form, g.rank < f.rank → ¬g.Applies (text ++ following)

/-! ## §3 What the scanner cuts off -/

/-- Whether a form applies to a text, as its first characters tell. -/
def opens (c : Char) (rest : List Char) : Form → Bool
  | ellipsis => c = '.' && rest.take 2 = ['.', '.']
  | .variable => c = '$' && rest.head?.any isNameStart
  | block => c = '"' && rest.take 2 = ['"', '"']
  | string => c = '"'
  | name => isNameStart c
  | number => isNumberStart c
  | mark d => c = d

/-- How far a form reaches behind the first character. -/
def reach (rest : List Char) : Form → Nat
  | ellipsis => 2
  | .variable | name => runLength isNamePart rest
  | block => blockLength (rest.drop 2) + 2
  | string => quotedLength rest
  | number => runLength isNumberPart rest
  | mark _ => 0

/-- A run at the front of a text is no longer than the longest one. -/
theorem length_le_runLength {p : Char → Bool} {front rest : List Char} (h : front.all p = true) :
    front.length ≤ runLength p (front ++ rest) := by
  rw [runLength, List.takeWhile_append_of_pos (by simpa using h), List.length_append]
  omega

/-- A text of a form has what the form opens with, and does not reach further than the form. This is
one half of longest match: nothing of the form is longer than what is cut off. -/
theorem Fits.opens {f : Form} {text following : List Char} (h : f.Fits text following) :
    ∃ c more, text = c :: more ∧ f.opens c (more ++ following) = true ∧
      more.length ≤ f.reach (more ++ following) := by
  cases f with
  | ellipsis =>
    subst h
    exact ⟨'.', ['.', '.'], rfl, rfl, Nat.le_refl _⟩
  | «variable» =>
    obtain ⟨named, rfl, c, more, rfl, hstart, hmore⟩ := h
    refine ⟨'$', c :: more, rfl, by simpa [Form.opens] using hstart, ?_⟩
    apply length_le_runLength
    simp [isNamePart_of_isNameStart hstart, hmore]
  | block =>
    -- A string has one end, and the scanner finds it
    obtain ⟨inside, rfl, hthrough⟩ := h
    have hlength := hthrough.unique (through_blockLength _)
    exact ⟨'"', '"' :: '"' :: inside, rfl, rfl, by simp [reach, hlength]⟩
  | string =>
    obtain ⟨inside, rfl, hthrough⟩ := h
    have hlength := hthrough.unique (through_quotedLength _)
    exact ⟨'"', inside, rfl, rfl, by simp [reach, hlength]⟩
  | name =>
    obtain ⟨c, more, rfl, hstart, hmore⟩ := h
    exact ⟨c, more, rfl, hstart, length_le_runLength hmore⟩
  | number =>
    obtain ⟨c, more, rfl, hstart, hmore⟩ := h
    exact ⟨c, more, rfl, hstart, length_le_runLength hmore⟩
  | mark c =>
    subst h
    exact ⟨c, [], rfl, by simp [Form.opens], Nat.le_refl _⟩

/-- The longest run at the front of a text. -/
theorem all_take_runLength (p : Char → Bool) (rest : List Char) :
    runLength p rest ≤ rest.length ∧ (rest.take (runLength p rest)).all p = true := by
  have hle : runLength p rest ≤ rest.length := (List.takeWhile_sublist p).length_le
  refine ⟨hle, ((runLength_append_iff p _ (rest.drop (runLength p rest))).1 ?_).1⟩
  rw [List.take_append_drop, List.length_take_of_le hle]

/-- Where a form opens, the text is of the form as far as it reaches. This is the other half: what
is cut off is of the form. -/
theorem fits_of_opens {f : Form} {c : Char} {rest : List Char} (h : f.opens c rest = true) :
    f.reach rest ≤ rest.length ∧
      f.Fits (c :: rest.take (f.reach rest)) (rest.drop (f.reach rest)) := by
  cases f with
  | ellipsis =>
    simp only [Form.opens, Bool.and_eq_true, decide_eq_true_eq] at h
    obtain ⟨rfl, hdots⟩ := h
    have hlength := congrArg List.length hdots
    simp only [List.length_take, List.length_cons, List.length_nil] at hlength
    refine ⟨?_, ?_⟩
    · show 2 ≤ rest.length
      omega
    · show '.' :: rest.take 2 = ['.', '.', '.']
      rw [hdots]
  | «variable» =>
    simp only [Form.opens, Bool.and_eq_true, decide_eq_true_eq] at h
    obtain ⟨rfl, hstart⟩ := h
    obtain ⟨hle, hall⟩ := all_take_runLength isNamePart rest
    refine ⟨hle, rest.take (runLength isNamePart rest), rfl, ?_⟩
    cases rest with
    | nil => simp at hstart
    | cons d more =>
      -- The run of the name takes its first character in
      have hpart : isNamePart d = true := isNamePart_of_isNameStart (by simpa using hstart)
      have hrun : runLength isNamePart (d :: more) = runLength isNamePart more + 1 := by
        simp [runLength, hpart]
      rw [hrun, List.take_succ_cons, List.all_cons, hpart, Bool.true_and] at hall
      rw [hrun, List.take_succ_cons]
      exact ⟨d, _, rfl, by simpa using hstart, hall⟩
  | block =>
    simp only [Form.opens, Bool.and_eq_true, decide_eq_true_eq] at h
    obtain ⟨rfl, hquotes⟩ := h
    obtain ⟨inside, rfl⟩ : ∃ inside, rest = ['"', '"'] ++ inside := ⟨_, eq_append_drop hquotes⟩
    have hle := blockLength_le_length inside
    refine ⟨by simpa [reach] using hle, inside.take (blockLength inside), rfl, ?_⟩
    have hthrough := through_blockLength inside
    simpa [reach, List.length_take_of_le hle] using hthrough
  | string =>
    obtain rfl : c = '"' := by simpa [Form.opens] using h
    have hle := quotedLength_le_length rest
    refine ⟨hle, rest.take (quotedLength rest), rfl, ?_⟩
    have hthrough := through_quotedLength rest
    simpa [reach, List.length_take_of_le hle] using hthrough
  | name =>
    obtain ⟨hle, hall⟩ := all_take_runLength isNamePart rest
    exact ⟨hle, c, _, rfl, h, hall⟩
  | number =>
    obtain ⟨hle, hall⟩ := all_take_runLength isNumberPart rest
    exact ⟨hle, c, _, rfl, h, hall⟩
  | mark d =>
    obtain rfl : c = d := by simpa [Form.opens] using h
    exact ⟨Nat.zero_le _, rfl⟩

/-- A form opens where it applies. -/
theorem opens_of_applies {f : Form} {c : Char} {rest : List Char} (h : f.Applies (c :: rest)) :
    f.opens c rest = true := by
  obtain ⟨text, following, happend, hfits⟩ := h
  obtain ⟨d, more, rfl, hopens, -⟩ := hfits.opens
  obtain ⟨rfl, rfl⟩ := List.cons.inj happend
  exact hopens

/-- The first form that opens reaches over the longest text of the first form that applies. Forms
are tried in the order of their ranks, as the scanner tries them. -/
theorem isFirst_of_opens {f : Form} {c : Char} {rest : List Char} (h : f.opens c rest = true)
    (hfirst : ∀ g : Form, g.rank < f.rank → g.opens c rest = false) :
    f.IsFirst (c :: rest.take (f.reach rest)) (rest.drop (f.reach rest)) := by
  obtain ⟨hle, hfits⟩ := fits_of_opens h
  have htext : c :: rest.take (f.reach rest) ++ rest.drop (f.reach rest) = c :: rest := by
    rw [List.cons_append, List.take_append_drop]
  constructor
  case fits => exact hfits
  -- Any other text of the form begins with the same character, and reaches no further behind it
  case longest =>
    intro other behind happend hother
    obtain ⟨d, more, rfl, -, hreach⟩ := hother.opens
    rw [htext] at happend
    obtain ⟨-, rfl⟩ := List.cons.inj happend
    rw [List.length_cons, List.length_cons, List.length_take_of_le hle]
    exact Nat.succ_le_succ hreach
  case first =>
    intro g hrank happlies
    rw [htext] at happlies
    have hopens := opens_of_applies happlies
    rw [hfirst g hrank] at hopens
    cases hopens

/-- The scanner takes the first form that opens, as far as it reaches. The order of its tests is the
rank of the forms. -/
theorem exists_opens_classify (c : Char) (rest : List Char) :
    ∃ f : Form, classify c rest = (f.kind, f.reach rest) ∧ f.opens c rest = true ∧
      ∀ g : Form, g.rank < f.rank → g.opens c rest = false := by
  unfold classify
  split_ifs with hdots hvariable hquote hname hnumber
  · exact ⟨ellipsis, rfl, hdots, fun g hrank => absurd hrank (Nat.not_lt_zero _)⟩
  · refine ⟨.variable, rfl, hvariable, fun g hrank => ?_⟩
    cases g <;> simp_all [rank, opens]
  · -- The scanner tells the two forms of strings apart later
    rw [stringLength_eq]
    split_ifs with hquotes
    · refine ⟨block, rfl, by simp [opens, hquote, hquotes], fun g hrank => ?_⟩
      cases g <;> simp_all [rank, opens]
    · refine ⟨string, rfl, by simp [opens, hquote], fun g hrank => ?_⟩
      cases g <;> simp_all [rank, opens]
  · refine ⟨name, rfl, hname, fun g hrank => ?_⟩
    cases g <;> simp_all [rank, opens]
  · refine ⟨number, rfl, hnumber, fun g hrank => ?_⟩
    cases g <;> simp_all [rank, opens]
  · refine ⟨mark c, rfl, by simp [opens], fun g hrank => ?_⟩
    cases g <;> simp_all [rank, opens]

theorem isFirst_classify (c : Char) (rest : List Char) :
    ∃ f : Form, f.kind = (classify c rest).1 ∧ f.IsFirst (c :: rest.take (classify c rest).2)
      (rest.drop (classify c rest).2) := by
  obtain ⟨f, hclass, hopens, hfirst⟩ := exists_opens_classify c rest
  rw [hclass]
  exact ⟨f, rfl, isFirst_of_opens hopens hfirst⟩

/-- A text begins with one lexeme at most. The forms are ranked, and the texts of one form are
compared by length, so two first lexemes are the same. -/
theorem IsFirst.unique {f g : Form} {text following other behind : List Char}
    (hf : f.IsFirst text following) (hg : g.IsFirst other behind)
    (happend : text ++ following = other ++ behind) : f = g ∧ text = other := by
  have hrank : f.rank = g.rank := by
    rcases Nat.lt_trichotomy f.rank g.rank with hlt | heq | hlt
    · exact absurd ⟨text, following, happend, hf.fits⟩ (hg.first f hlt)
    · exact heq
    · exact absurd ⟨other, behind, happend.symm, hg.fits⟩ (hf.first g hlt)
  -- Only single characters have their place in the order in common
  have hform : f = g := by
    cases f <;> cases g <;> simp only [rank, Nat.reduceEqDiff, reduceCtorEq] at hrank ⊢
    have htext := hf.fits
    have hother := hg.fits
    simp only [Fits] at htext hother
    rw [htext, hother] at happend
    rw [(List.cons.inj happend).1]
  subst hform
  have hle := hf.longest other behind happend.symm hg.fits
  have hge := hg.longest text following happend hf.fits
  exact ⟨rfl, (List.append_inj happend (Nat.le_antisymm hge hle)).1⟩

end Form

/-- **The scanner cuts a text off exactly if it is the longest one of the first form that applies.**
The scanner's own measurements are gone from the right side of this equivalence, and its class is
the kind of the form. -/
theorem isFirst_iff {kind : LexemeKind} {text following : List Char} :
    (∃ f : Form, f.kind = kind ∧ f.IsFirst text following) ↔
      ∃ c more, text = c :: more ∧ classify c (more ++ following) = (kind, more.length) := by
  constructor
  · -- The scanner cuts off some text of this description, and there is only one
    rintro ⟨f, rfl, hf⟩
    obtain ⟨c, more, rfl, -⟩ := hf.fits.opens
    obtain ⟨g, hkind, hg⟩ := Form.isFirst_classify c (more ++ following)
    have hle := classify_le_length c (more ++ following)
    obtain ⟨rfl, htext⟩ := hf.unique hg (by rw [List.cons_append, List.cons_append,
      List.take_append_drop])
    refine ⟨c, more, rfl, Prod.ext hkind.symm ?_⟩
    have hlength := congrArg List.length (List.cons.inj htext).2
    rw [List.length_take_of_le hle] at hlength
    exact hlength.symm
  · rintro ⟨c, more, rfl, hclass⟩
    obtain ⟨f, hkind, hf⟩ := Form.isFirst_classify c (more ++ following)
    rw [hclass] at hkind hf
    refine ⟨f, hkind, ?_⟩
    simpa using hf

end Lexeme

/-! ## §4 Ignored text -/

/-- Text that is ignored where `following` stands behind it: ignored characters, and comments, which
run to the next line break or to the end of the text. -/
inductive Ignored : List Char → List Char → Prop where
  | nil {following : List Char} : Ignored [] following
  | char {c : Char} {more following : List Char} (hc : isIgnored c = true)
      (hmore : Ignored more following) : Ignored (c :: more) following
  | comment {line more following : List Char} (hline : ∀ c ∈ line, isLineBreak c = false)
      (hends : (more ++ following).head?.all isLineBreak = true) (hmore : Ignored more following) :
      Ignored ('#' :: (line ++ more)) following

/-- A comment goes on through its line. -/
theorem gapState_line {line : List Char} (h : ∀ c ∈ line, isLineBreak c = false)
    (rest : List Char) : gapState true (line ++ rest) = gapState true rest := by
  induction line with
  | nil => rfl
  | cons c more ih =>
    obtain ⟨hc, hmore⟩ := List.forall_mem_cons.1 h
    rw [List.cons_append, gapState, hc]
    exact ih hmore

/-- A line break ends a comment. -/
theorem gapState_lineBreak {c : Char} (h : isLineBreak c = true) (rest : List Char) :
    gapState true (c :: rest) = gapState false (c :: rest) := by
  simp [gapState, h]

/-- Ignored text ends outside of comments, unless the text ends with it. A comment that runs to the
end of the text is the one case in which the state behind is another. -/
theorem Ignored.gapState {gap following : List Char} (h : Ignored gap following)
    (hfollowing : following.head?.all beginsLexeme = true) :
    ∃ state, QueryWeave.gapState false gap = some state ∧ (state = true → following = []) := by
  induction h with
  | nil => exact ⟨false, rfl, by simp⟩
  | @char c more following hc _ ih =>
    obtain ⟨state, hstate, hends⟩ := ih hfollowing
    have hhash : c ≠ '#' := by
      rintro rfl
      exact absurd hc (by decide)
    exact ⟨state, by rw [gapState_cons_of_isIgnored hc hhash, hstate], hends⟩
  | @comment line more following hline hends _ ih =>
    obtain ⟨state, hstate, hlast⟩ := ih hfollowing
    have hopen : QueryWeave.gapState false ('#' :: (line ++ more)) =
        QueryWeave.gapState true more :=
      gapState_line hline more
    rw [hopen]
    cases more with
    | cons c rest => exact ⟨state, by rw [gapState_lineBreak hends, hstate], hlast⟩
    | nil =>
      -- No lexeme begins with a line break, so the comment runs to the end of the text
      refine ⟨true, rfl, fun _ => ?_⟩
      cases following with
      | nil => rfl
      | cons c rest =>
        have hbreak : isIgnored c = true := (isIgnored_of_isLineBreak hends).1
        have hbegins : beginsLexeme c = true := hfollowing
        simp [beginsLexeme, hbreak] at hbegins

/-- What is read as ignored text is ignored. Inside a comment, the rest of its line is read
first. -/
theorem ignored_of_gapState {following : List Char} {state : Bool}
    (hstate : state = true → following = []) (gap : List Char) :
    (gapState false gap = some state → Ignored gap following) ∧
      (gapState true gap = some state → ∃ line more, gap = line ++ more ∧
        (∀ c ∈ line, isLineBreak c = false) ∧ (more ++ following).head?.all isLineBreak = true ∧
          Ignored more following) := by
  -- Both states at once: outside of comments, the sign of a comment leads inside
  induction gap with
  | nil =>
    refine ⟨fun _ => .nil, fun h => ⟨[], [], rfl, by simp, ?_, .nil⟩⟩
    rw [hstate (Option.some.inj h).symm]
    rfl
  | cons c rest ih =>
    have houtside : gapState false (c :: rest) = some state → Ignored (c :: rest) following := by
      intro h
      rw [gapState] at h
      split_ifs at h with hcomment hhash hignored
      · cases hcomment
      · obtain ⟨line, more, rfl, hline, hends, hmore⟩ := ih.2 h
        subst hhash
        exact .comment hline hends hmore
      · exact .char hignored (ih.1 h)
    refine ⟨houtside, fun h => ?_⟩
    by_cases hbreak : isLineBreak c = true
    · rw [gapState_lineBreak hbreak] at h
      exact ⟨[], c :: rest, rfl, by simp, hbreak, houtside h⟩
    · -- The character belongs to the comment, whose line begins with it
      have hgoes : gapState true (c :: rest) = gapState true rest := by
        simp [gapState, hbreak]
      rw [hgoes] at h
      obtain ⟨line, more, rfl, hline, hends, hmore⟩ := ih.2 h
      exact ⟨c :: line, more, rfl, List.forall_mem_cons.2 ⟨by simpa using hbreak, hline⟩, hends,
        hmore⟩

/-- **In front of a lexeme, exactly the gaps are ignored.** A comment that were still open there
would have taken the lexeme in. -/
theorem ignored_iff_isGap {gap following : List Char} (hmore : following ≠ [])
    (hfollowing : following.head?.all beginsLexeme = true) :
    Ignored gap following ↔ IsGap gap := by
  constructor
  · intro h
    obtain ⟨state, hstate, hends⟩ := h.gapState hfollowing
    have hclosed : state = false := by
      by_contra hopen
      exact hmore (hends (by simpa using hopen))
    rw [IsGap, hstate, hclosed]
  · intro h
    exact (ignored_of_gapState (by simp) gap).1 h

/-- **At the end of a text, a comment may be left open.** -/
theorem ignored_nil_iff {gap : List Char} : Ignored gap [] ↔ (gapState false gap).isSome := by
  constructor
  · intro h
    obtain ⟨state, hstate, -⟩ := h.gapState rfl
    rw [hstate]
    rfl
  · intro h
    obtain ⟨state, hstate⟩ := Option.isSome_iff_exists.1 h
    exact (ignored_of_gapState (fun _ => rfl) gap).1 hstate

end QueryWeave
