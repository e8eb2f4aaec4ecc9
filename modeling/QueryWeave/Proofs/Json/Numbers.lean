import Mathlib.Data.Option.Basic
import QueryWeave.Proofs.Json.Marks

/-!
# Numbers as They Are Written

A number is a literal in every layout that it is written in. Where a literal may not begin with a
zero, it does not: a natural number other than zero begins with another digit, and the digits of a
shortest decimal are zero only if nothing is to stand behind them.

- `IsLiteral`: the layouts of literals.
- `isLiteral_numberChars`: every number is written as a literal.
- `read?_isLiteral`: a literal is read as one mark.
-/

namespace QueryWeave

/-! ## §1 Literals -/

namespace Literal

/-- Digits, at least one. -/
def AreDigits (cs : List Char) : Prop :=
  cs ≠ [] ∧ ∀ c ∈ cs, c.isDigit = true

/-- What may stand behind the whole part of a literal. -/
inductive IsFraction : List Char → Prop
  | none : IsFraction []
  | point {digits : List Char} (h : AreDigits digits) : IsFraction ('.' :: digits)

/-- What may end a literal. -/
inductive IsExponent : List Char → Prop
  | none : IsExponent []
  | signed {sign : Char} {digits : List Char} (hsign : sign = '-' ∨ sign = '+')
      (h : AreDigits digits) : IsExponent ('e' :: sign :: digits)

/-- A literal without a sign. A zero in front stands alone. -/
inductive IsUnsigned : List Char → Prop
  | parts {whole fraction exponent : List Char} (hwhole : AreDigits whole)
      (hzero : whole.head? ≠ some '0' ∨ whole.length = 1) (hfraction : IsFraction fraction)
      (hexponent : IsExponent exponent) : IsUnsigned (whole ++ (fraction ++ exponent))

theorem isDigit_of_mem_zeros {n : Nat} {c : Char} (hc : c ∈ List.replicate n '0') :
    c.isDigit = true := by
  rw [List.eq_of_mem_replicate hc]
  rfl

/-- Zeros may stand in front of the digits behind a point. -/
theorem AreDigits.zeros_append {digits : List Char} (n : Nat) (h : AreDigits digits) :
    AreDigits (List.replicate n '0' ++ digits) :=
  ⟨by simp [h.1], List.forall_mem_append.2 ⟨fun _ hc => isDigit_of_mem_zeros hc, h.2⟩⟩

/-- One digit in front of a fraction and an exponent, either of which may be missing. -/
theorem IsUnsigned.oneDigit {c : Char} (hc : c.isDigit = true) {fraction exponent : List Char}
    (hfraction : IsFraction fraction) (hexponent : IsExponent exponent) :
    IsUnsigned (c :: (fraction ++ exponent)) := by
  have hone : AreDigits [c] := ⟨by simp, by simpa using hc⟩
  exact .parts hone (.inr rfl) hfraction hexponent

section Layouts

variable {digits : List Char} (hdigits : AreDigits digits)
  (hzero : digits.head? ≠ some '0' ∨ digits.length = 1)

include hdigits hzero

/-- Zeros behind the digits, and a fraction of zero. None is put behind a zero. -/
theorem IsUnsigned.zerosBehind {zeros : Nat} (hnone : digits.head? = some '0' → zeros = 0) :
    IsUnsigned (digits ++ List.replicate zeros '0' ++ ['.', '0']) := by
  have hfront : AreDigits (digits ++ List.replicate zeros '0') :=
    ⟨by simp [hdigits.1],
      List.forall_mem_append.2 ⟨hdigits.2, fun _ hc => isDigit_of_mem_zeros hc⟩⟩
  have hstart : (digits ++ List.replicate zeros '0').head? ≠ some '0' ∨
      (digits ++ List.replicate zeros '0').length = 1 := by
    -- A leading zero stands alone, so nothing may be appended to it
    by_cases hhead : digits.head? = some '0'
    · rw [hnone hhead, List.replicate_zero, List.append_nil]
      exact hzero
    · left
      rwa [List.head?_append_of_ne_nil _ hdigits.1]
  have hpoint : AreDigits ['0'] := ⟨by simp, by simp⟩
  have hparts := IsUnsigned.parts hfront hstart (.point hpoint) .none
  simpa using hparts

/-- A point between the digits, of which there are several then. -/
theorem IsUnsigned.pointBetween {place : Nat} (hpos : 0 < place) (hlt : place < digits.length) :
    IsUnsigned (digits.take place ++ '.' :: digits.drop place) := by
  have htake : AreDigits (digits.take place) :=
    ⟨by simp [hdigits.1, Nat.ne_of_gt hpos], fun z hz => hdigits.2 z (List.mem_of_mem_take hz)⟩
  have hdrop : AreDigits (digits.drop place) :=
    ⟨by simpa using hlt, fun z hz => hdigits.2 z (List.mem_of_mem_drop hz)⟩
  have hstart : (digits.take place).head? ≠ some '0' := by
    rw [List.head?_take, if_neg (Nat.ne_of_gt hpos)]
    exact hzero.resolve_right (by omega)
  have hparts := IsUnsigned.parts htake (.inl hstart) (.point hdrop) .none
  simpa using hparts

end Layouts

theorem takeDigits_append {digits rest : List Char} (h : AreDigits digits)
    (hrest : rest.head?.all (fun c => !c.isDigit) = true) :
    takeDigits (digits ++ rest) = (digits.map digitValue, rest) := by
  obtain ⟨htake, hdrop⟩ := takeWhile_append_stop (List.all_eq_true.2 h.2) hrest
  rw [takeDigits, htake, hdrop]

theorem takeExponent_of_isExponent {cs : List Char} (h : IsExponent cs) :
    ∃ exponent, takeExponent cs = some (exponent, []) := by
  cases h with
  | none => exact ⟨none, rfl⟩
  | @signed sign digits hsign h =>
    obtain ⟨c, more, rfl⟩ := List.exists_cons_of_ne_nil h.1
    -- The digits reach to the end, so the whole rest is taken
    have hdigits : takeDigits (c :: more) = ((c :: more).map digitValue, []) := by
      have htake := @takeDigits_append (c :: more) [] h rfl
      rwa [List.append_nil] at htake
    have hsigned : takeSign (sign :: c :: more) = (decide (sign = '-'), c :: more) := by
      rcases hsign with rfl | rfl <;> rfl
    refine ⟨some (decide (sign = '-'), (c :: more).map digitValue), ?_⟩
    simp [takeExponent, hsigned, hdigits]

theorem head?_isExponent {cs : List Char} (h : IsExponent cs) :
    cs.head?.all (fun c => !c.isDigit) = true ∧ cs.head? ≠ some '.' := by
  cases h with
  | none => simp
  | signed => simp

theorem takeFraction_append {fraction exponent : List Char} (hfraction : IsFraction fraction)
    (hexponent : IsExponent exponent) :
    ∃ digits, takeFraction (fraction ++ exponent) = some (digits, exponent) := by
  obtain ⟨hhead, hpoint⟩ := head?_isExponent hexponent
  cases hfraction with
  | none =>
    refine ⟨none, ?_⟩
    rw [List.nil_append, takeFraction]
    -- Without a fraction, the next character begins the exponent or is none
    rintro rest rfl
    exact hpoint rfl
  | @point digits h =>
    obtain ⟨c, more, rfl⟩ := List.exists_cons_of_ne_nil h.1
    have htake := takeDigits_append h hhead
    refine ⟨some ((c :: more).map digitValue), ?_⟩
    rw [List.cons_append, takeFraction, htake]
    rfl

theorem digitValue_eq_zero {c : Char} (hc : c.isDigit = true) (h : digitValue c = 0) : c = '0' := by
  have hle : '0'.toNat ≤ c.toNat := by
    simp only [Char.isDigit, Bool.and_eq_true, decide_eq_true_eq] at hc
    exact hc.1
  apply Char.toNat_inj.1
  rw [digitValue] at h
  omega

theorem exists_ofChars?_unsigned {cs : List Char} (h : IsUnsigned cs) :
    (∃ l, ofChars? cs = some l) ∧ ∃ l, ofChars? ('-' :: cs) = some l := by
  obtain ⟨hwhole, hzero, hfraction, hexponent⟩ := h
  rename_i whole fraction exponent
  have hbehind : (fraction ++ exponent).head?.all (fun c => !c.isDigit) = true := by
    cases hfraction with
    | none => exact (head?_isExponent hexponent).1
    | point => rfl
  have htake := takeDigits_append hwhole hbehind
  obtain ⟨digits, hdigits⟩ := takeFraction_append hfraction hexponent
  obtain ⟨power, hpower⟩ := takeExponent_of_isExponent hexponent
  -- A leading zero would be refused, unless it stands alone
  have hguard : (whole.map digitValue ≠ [] && ((whole.map digitValue).head? ≠ some 0 ||
      (whole.map digitValue).length = 1)) = true := by
    obtain ⟨c, more, rfl⟩ := List.exists_cons_of_ne_nil hwhole.1
    have hc := hwhole.2 c List.mem_cons_self
    rcases hzero with hzero | hone
    · have hdigit : digitValue c ≠ 0 := fun h => hzero (congrArg some (digitValue_eq_zero hc h))
      simp [hdigit]
    · simp at hone
      simp [hone]
  refine ⟨⟨⟨false, whole.map digitValue, digits, power⟩, ?_⟩,
    ⟨⟨true, whole.map digitValue, digits, power⟩, ?_⟩⟩
  · rw [ofChars?, htake]
    · dsimp only
      rw [hguard, hdigits]
      change (takeExponent exponent).bind _ = _
      rw [hpower]
      rfl
    · -- A digit is no sign
      intro rest heq
      obtain ⟨c, more, rfl⟩ := List.exists_cons_of_ne_nil hwhole.1
      cases heq
      exact absurd (hwhole.2 '-' List.mem_cons_self) (by decide)
  · rw [ofChars?, htake]
    dsimp only
    rw [hguard, hdigits]
    change (takeExponent exponent).bind _ = _
    rw [hpower]
    rfl

end Literal

/-! ## §2 Digits -/

namespace Json

open Literal (AreDigits IsUnsigned IsFraction IsExponent)

theorem areDigits_natChars (n : Nat) : AreDigits (natChars n) :=
  ⟨Nat.toDigits_ne_nil, fun _ hc => Nat.isDigit_of_mem_toDigits (by decide) (Nat.le_refl 10) hc⟩

/-- A number other than zero does not begin with a zero. -/
theorem head?_natChars {n : Nat} (h : n ≠ 0) : (natChars n).head? ≠ some '0' := by
  induction n using Nat.strongRecOn with
  | ind n ih =>
    rw [natChars, Nat.toDigits_eq_if (by decide)]
    split
    · rename_i hlt
      have hdigit : ∀ m < 10, m ≠ 0 → Nat.digitChar m ≠ '0' := by decide
      simpa using hdigit n hlt h
    · rename_i hle
      -- The first digit is that of what is in front of the last one
      have hfront := ih (n / 10) (by omega) (by omega)
      rw [natChars] at hfront
      obtain ⟨c, more, hchars⟩ := List.exists_cons_of_ne_nil (@Nat.toDigits_ne_nil (n / 10) 10)
      rw [hchars] at hfront ⊢
      exact hfront

/-- A number is the whole part of a literal. -/
theorem zero_natChars (n : Nat) : (natChars n).head? ≠ some '0' ∨ (natChars n).length = 1 := by
  by_cases h : n = 0
  · subst h
    exact .inr rfl
  · exact .inl (head?_natChars h)

theorem isUnsigned_natChars (n : Nat) : IsUnsigned (natChars n) := by
  have hparts := IsUnsigned.parts (areDigits_natChars n) (zero_natChars n) .none .none
  simpa using hparts

/-! ## §3 Decimals -/

theorem isExponent_exponentChars (e : Int) : IsExponent (exponentChars e) := by
  rw [exponentChars]
  apply IsExponent.signed _ (areDigits_natChars _)
  split
  · exact .inl rfl
  · exact .inr rfl

/-- A decimal is a literal in every layout. Zeros are put behind its digits only if these are not
zero. -/
theorem isUnsigned_decimalChars {d : Decimal} (h : d.digits = 0 → d.exponent ≤ 0) :
    IsUnsigned (decimalChars d) := by
  have hdigits := areDigits_natChars d.digits
  have hzero := zero_natChars d.digits
  rw [decimalChars]
  split_ifs with hwhole hmixed hfraction
  · apply IsUnsigned.zerosBehind hdigits hzero
    intro hhead
    have hnone : d.digits = 0 := not_ne_iff.1 fun hsome => head?_natChars hsome hhead
    have hle := h hnone
    omega
  · simp only [Bool.and_eq_true, decide_eq_true_eq] at hwhole hmixed
    exact .pointBetween hdigits hzero (by omega) (by omega)
  · have hlayout := IsUnsigned.oneDigit (c := '0') rfl
      (.point (AreDigits.zeros_append (-(((natChars d.digits).length : Int) + d.exponent)).toNat
        hdigits)) .none
    simpa using hlayout
  · have hexponent := isExponent_exponentChars (((natChars d.digits).length : Int) + d.exponent - 1)
    generalize exponentChars (((natChars d.digits).length : Int) + d.exponent - 1) = exponent
      at hexponent ⊢
    obtain ⟨c, more, hchars⟩ := List.exists_cons_of_ne_nil hdigits.1
    rw [hchars] at hdigits ⊢
    have hc := hdigits.2 c List.mem_cons_self
    -- There is a point only if there is a digit to stand behind it
    cases more with
    | nil => exact .oneDigit hc .none hexponent
    | cons next rest =>
      have hbehind : AreDigits (next :: rest) :=
        ⟨by simp, fun z hz => hdigits.2 z (List.mem_cons_of_mem _ hz)⟩
      exact .oneDigit hc (.point hbehind) hexponent

end Json

/-! ## §4 Shortest decimals -/

namespace Decimal

theorem significandOf_pos {magnitude : Nat} (h : magnitude ≠ 0) : 0 < significandOf magnitude := by
  rw [significandOf]
  split
  · omega
  · have hbit : 0 < leadingBit := by decide
    omega

theorem powerAbove_pos (e : Int) : 0 < powerAbove e :=
  Nat.pow_pos (by decide)

/-- Zero lies below every interval. -/
theorem low_intervalOf_pos {magnitude : Nat} (h : magnitude ≠ 0) :
    0 < (intervalOf magnitude).low := by
  have hsignificand := significandOf_pos h
  apply Nat.mul_pos _ (powerAbove_pos _)
  split <;> omega

theorem not_holds_zero {i : Interval} (h : 0 < i.low) (k : Int) : i.holds 0 k = false := by
  have hten : 0 < tenBelow k := Nat.pow_pos (by decide)
  have hlow : 0 < i.low * tenBelow k := Nat.mul_pos h hten
  rw [Interval.holds]
  split
  · simp
    omega
  · simp

theorem digits_onGrid {i : Interval} (h : 0 < i.low) {lead : Int} {n : Nat} {d : Decimal}
    (hd : onGrid i lead n = some d) : d.digits ≠ 0 := by
  have hne : ∀ {digits : Nat} {k : Int}, i.holds digits k = true → digits ≠ 0 := by
    rintro digits k hholds rfl
    rw [not_holds_zero h] at hholds
    cases hholds
  rw [onGrid] at hd
  -- The point that is taken lies in the interval, or follows another
  split at hd
  · rename_i hlower _
    split at hd
    · cases hd
      exact hne hlower
    · cases hd
      exact Nat.succ_ne_zero _
  · rename_i hlower _
    cases hd
    exact hne hlower
  · cases hd
    exact Nat.succ_ne_zero _
  · cases hd

/-- The digits of a shortest decimal are zero only if the decimal is plainly zero. -/
theorem digits_shortest {magnitude : Nat} (h : (shortest magnitude).digits = 0) :
    (shortest magnitude).exponent ≤ 0 := by
  revert h
  rw [shortest]
  split
  · intro _
    exact Int.le_refl 0
  · rename_i hsome
    dsimp only
    split
    · rename_i d hd
      -- What is found on a grid is not zero, and carrying a ten keeps it so
      obtain ⟨n, -, hgrid⟩ := List.exists_of_findSome?_eq_some hd
      have hdigits := digits_onGrid (low_intervalOf_pos hsome) hgrid
      intro hzero
      rw [carryTen] at hzero
      split at hzero
      · cases hzero
      · exact absurd hzero hdigits
    · intro _
      exact Int.le_refl 0

end Decimal

/-! ## §5 Numbers -/

namespace Literal

/-- A literal, with or without a sign. -/
inductive IsLiteral : List Char → Prop
  | unsigned {cs : List Char} (h : IsUnsigned cs) : IsLiteral cs
  | negative {cs : List Char} (h : IsUnsigned cs) : IsLiteral ('-' :: cs)

theorem IsLiteral.exists_ofChars? {cs : List Char} (h : IsLiteral cs) :
    ∃ l, ofChars? cs = some l := by
  cases h with
  | unsigned h => exact (exists_ofChars?_unsigned h).1
  | negative h => exact (exists_ofChars?_unsigned h).2

theorem AreDigits.isNumberChar {cs : List Char} (h : AreDigits cs) :
    ∀ c ∈ cs, JsonMark.isNumberChar c = true := by
  intro c hc
  simp [JsonMark.isNumberChar, h.2 c hc]

theorem IsUnsigned.isNumberChar {cs : List Char} (h : IsUnsigned cs) :
    ∀ c ∈ cs, JsonMark.isNumberChar c = true := by
  obtain ⟨hwhole, -, hfraction, hexponent⟩ := h
  refine List.forall_mem_append.2 ⟨hwhole.isNumberChar, List.forall_mem_append.2 ⟨?_, ?_⟩⟩
  · cases hfraction with
    | none => simp
    | point hdigits => exact List.forall_mem_cons.2 ⟨rfl, hdigits.isNumberChar⟩
  · cases hexponent with
    | none => simp
    | signed hsign hdigits =>
      refine List.forall_mem_cons.2 ⟨rfl, List.forall_mem_cons.2 ⟨?_, hdigits.isNumberChar⟩⟩
      rcases hsign with rfl | rfl <;> rfl

theorem IsLiteral.isNumberChar {cs : List Char} (h : IsLiteral cs) :
    ∀ c ∈ cs, JsonMark.isNumberChar c = true := by
  cases h with
  | unsigned h => exact h.isNumberChar
  | negative h => exact List.forall_mem_cons.2 ⟨rfl, h.isNumberChar⟩

/-- A literal begins with a digit or a minus sign. -/
theorem IsLiteral.exists_cons {cs : List Char} (h : IsLiteral cs) :
    ∃ c more, cs = c :: more ∧ (c = '-' ∨ c.isDigit = true) := by
  cases h with
  | negative h => exact ⟨'-', _, rfl, .inl rfl⟩
  | unsigned h =>
    obtain ⟨hwhole, -, -, -⟩ := h
    obtain ⟨c, more, rfl⟩ := List.exists_cons_of_ne_nil hwhole.1
    exact ⟨c, _, rfl, .inr (hwhole.2 c List.mem_cons_self)⟩

end Literal

namespace Json

open Literal (IsLiteral)

/-- **A number is written as a literal.** -/
theorem isLiteral_numberChars (n : Number) : IsLiteral (numberChars n) := by
  cases n with
  | int value =>
    rw [numberChars, intChars]
    split
    · exact .negative (isUnsigned_natChars _)
    · exact .unsigned (isUnsigned_natChars _)
  | float value =>
    -- A minus sign is the only thing that can stand in front of the digits
    have hdecimal := isUnsigned_decimalChars (d := Decimal.shortest value.magnitude)
      Decimal.digits_shortest
    rw [numberChars, doubleChars]
    split
    · exact .negative hdecimal
    · exact .unsigned hdecimal

end Json

/-- **A literal is read as one mark**, up to what may not stand in a number. Whatever it stands for
is given by its characters alone, be it in the range of a float or beyond. -/
theorem JsonMark.read?_isLiteral {c : Char} {more rest : List Char}
    (h : Literal.IsLiteral (c :: more))
    (hrest : rest.head?.all (fun d => !JsonMark.isNumberChar d) = true) :
    ∃ draft, numberDraft? (c :: more) = some draft ∧
      read? c (more ++ rest) = some (.atom draft, more.length) := by
  obtain ⟨l, hl⟩ := h.exists_ofChars?
  obtain ⟨d, others, heq, hstart⟩ := h.exists_cons
  cases heq
  have hnumber := (List.forall_mem_cons.1 h.isNumberChar).2
  -- What begins a number begins no other mark
  have hmark : isPunctuation c = false ∧ c ≠ '"' := by
    have hc : isNumberChar c = true := h.isNumberChar c List.mem_cons_self
    refine ⟨?_, ?_⟩
    · by_contra hpunctuation
      have hother := (isPunctuation_excludes (Bool.of_not_eq_false hpunctuation)).2.1
      rw [hother] at hc
      cases hc
    · rintro rfl
      cases hc
  refine ⟨(l.number.map Draft.number).getD .beyond, by rw [numberDraft?, hl]; rfl, ?_⟩
  rw [read?, if_neg (by simp [hmark.1]), if_neg hmark.2, if_pos (by simpa using hstart),
    (takeWhile_append_stop (List.all_eq_true.2 hnumber) hrest).1]
  dsimp only
  rw [numberDraft?, hl]
  rfl

end QueryWeave
