import QueryWeave.Proofs.Lexeme.Nesting
import QueryWeave.Proofs.Lexeme.Spans
import QueryWeave.Proofs.Operation.Compile

/-!
# Brackets of Operations

Where the signature and the selection set of an operation begin is settled by what stands in front
of them; where they end is settled by counting brackets of all kinds together. So an outline is
found exactly if the counts come out, and a source without one is refused. Counting does not see a
bracket that is closed by one of another kind: what is found nests by kind exactly if no bracket in
it is closed so.

- `Outline.Cuts`: parts that begin where an outline looks for them.
- `Outline.Nests`: signatures and selection sets that nest by kind.
- `balanceLaws`: which sources have an outline, and which of those nest.
-/

namespace QueryWeave

/-! ## §1 Parts that nest -/

/-- A part that is opened by `left`, closed by `right`, and nests in between. -/
structure Enclosed.Nests (e : Enclosed) (left right : Char) : Prop where
  opener : e.opener.isMark left = true
  inner : Nested Lexeme.mates e.inner
  closer : e.closer.isMark right = true

/-- A part nests, from its opening bracket through its mate, exactly if all of its brackets are
closed by their own kind. -/
theorem Enclosed.Closed.nests_iff {e : Enclosed} {left right : Char} (h : e.Closed left)
    (hpair : (left, right) ∈ [('{', '}'), ('(', ')')]) :
    e.Nests left right ↔
      ∀ opener closer, Paired e.row opener closer → opener.mates closer = true := by
  have hopener := Lexeme.isMark_iff.1 h.opener
  -- The mate of the opening bracket is a matter of its kind
  have hends : e.opener.mates e.closer = true ↔ e.closer.isMark right = true := by
    simp only [List.mem_cons, Prod.mk.injEq, List.not_mem_nil, or_false] at hpair
    rcases hpair with ⟨rfl, rfl⟩ | ⟨rfl, rfl⟩ <;> simp [Lexeme.mates, Lexeme.isMark, hopener]
  have hopens : e.opener.opens = true := by
    simp only [List.mem_cons, Prod.mk.injEq, List.not_mem_nil, or_false] at hpair
    rcases hpair with ⟨rfl, -⟩ | ⟨rfl, -⟩ <;> simp [Lexeme.opens, h.opener]
  constructor
  · intro hnests opener closer hpaired
    exact (hnests.inner.enclose (hends.2 hnests.closer)).mates_of_paired hpaired
  · intro hmates
    have hinner : Nested Lexeme.mates e.inner :=
      nested_iff_balanced.2 ⟨h.inner, fun opener closer hpaired =>
        hmates opener closer (hpaired.behind [e.opener] [e.closer])⟩
    exact ⟨h.opener, hinner, hends.1 (hmates _ _ ⟨[], e.inner, [], rfl, h.inner, hopens, h.closer⟩)⟩

theorem Enclosed.Nests.closed {e : Enclosed} {left right : Char} (h : e.Nests left right)
    (hright : right ∈ ['}', ')', ']']) : e.Closed left := by
  refine ⟨h.opener, h.inner.balanced, ?_⟩
  simp only [List.mem_cons, List.not_mem_nil, or_false] at hright
  rcases hright with rfl | rfl | rfl <;> simp [Lexeme.closes, h.closer]

namespace Outline

/-! ## §2 Where parts begin -/

/-- Parts that make up a source, and begin where an outline of the source looks for them: the
signature directly behind the lead, the selection set at the first brace behind that. Nothing is
said about where they end. -/
structure Cuts (o : Outline) (source : String) : Prop where
  scan : o.scan = scanText source
  lead : cutLead (scanText source).lexemes =
    (o.lead, o.name, o.signatureRow ++ (o.middle ++ o.selection.row ++ o.after))
  signature : ∀ e ∈ o.signature, e.opener.isMark '(' = true
  absent : o.signature = none →
    (o.middle ++ o.selection.row ++ o.after).head?.any (Lexeme.isMark '(') = false
  middle : ∀ l ∈ o.middle, l.isMark '{' = false
  selection : o.selection.opener.isMark '{' = true

/-- Helper: no signature is taken for absent. -/
private theorem cutSignature_none {row rest : List Lexeme}
    (h : cutSignature row = some (none, rest)) :
    rest.head?.any (Lexeme.isMark '(') = false := by
  unfold cutSignature at h
  split at h
  · cases h
    rfl
  · rename_i l more
    split_ifs at h with hopens
    · obtain ⟨closed, -, heq⟩ := Option.map_eq_some_iff.1 h
      cases heq
    · cases h
      simpa using hopens

theorem cuts_of_ofText? {source : String} {o : Outline} (h : ofText? source = some o) :
    o.Cuts source := by
  obtain ⟨hscan, hparted⟩ := parted_of_ofScan? h
  obtain ⟨behindLead, behindSignature, hlead, hsignature, hselection, -⟩ := ofScan?_inversion h
  obtain ⟨hsignatureRow, -⟩ := cutSignature_inversion hsignature
  obtain ⟨hselectionRow, -, -⟩ := cutSelection_inversion hselection
  refine ⟨hscan, ?_, fun e he => (hparted.signature e he).opener, fun hnone => ?_, hparted.middle,
    hparted.selection.opener⟩
  · rw [hselectionRow, signatureRow, hsignatureRow, hlead]
  · rw [hnone] at hsignature
    rw [hselectionRow]
    exact cutSignature_none hsignature

/-- An outline is found exactly if parts begin where it looks for them and are closed, all kinds of
bracket counted together. -/
theorem ofText?_iff {source : String} {o : Outline} :
    ofText? source = some o ↔ o.Cuts source ∧ o.Parted := by
  constructor
  · exact fun h => ⟨cuts_of_ofText? h, (parted_of_ofScan? h).2⟩
  · rintro ⟨hcuts, hparted⟩
    rw [ofText?, ← hcuts.scan]
    refine ofScan?_of_parted hparted ?_ hcuts.absent
    have hlead := hcuts.lead
    rw [← hcuts.scan] at hlead
    rw [← hlead, scan]
    simp

/-! ## §3 Where parts stand -/

/-- Whether a lexeme stands in a source at a range of bytes. -/
def StandsAt (source : String) (span : Span) (l : Lexeme) : Prop :=
  (span, l) ∈ Lexeme.locate 0 (scanText source).lexemes

theorem standsAt_of_append {source : String} {before after : List Lexeme} {l : Lexeme}
    (h : (scanText source).lexemes = before ++ l :: after) {start : Nat}
    (hstart : start = byteLength (Lexeme.charsOf before ++ l.gap)) :
    StandsAt source ⟨start, start + byteLength l.text⟩ l := by
  rw [StandsAt, h, Lexeme.locate_append]
  apply List.mem_append_right
  simp [Lexeme.locate, Lexeme.spanAt, hstart]

/-- The brackets of an outline stand in a source at the bytes that the outline gives for them. So an
offset may be used as a place in the source, whether or not the brackets match by kind. -/
structure Located (source : String) (o : Outline) : Prop where
  signature : ∀ e ∈ o.signature, ∃ start behind front stop, o.signatureSpan = some ⟨start, stop⟩ ∧
    StandsAt source ⟨start, behind⟩ e.opener ∧ StandsAt source ⟨front, stop⟩ e.closer
  selection : ∃ behindOpen behindClose,
    StandsAt source ⟨o.selectionOpen, behindOpen⟩ o.selection.opener ∧
      StandsAt source ⟨o.selectionClose, behindClose⟩ o.selection.closer

theorem located_of_scan {source : String} {o : Outline} (h : o.scan = scanText source) :
    Located source o := by
  have hrow : (scanText source).lexemes =
      o.lead ++ o.signatureRow ++ o.middle ++ o.selection.row ++ o.after :=
    (congrArg Scan.lexemes h).symm
  constructor
  · rintro ⟨opener, inner, closer⟩ he
    have hsignature : o.signatureRow = opener :: inner ++ [closer] := by
      rw [signatureRow, show o.signature = _ from he]
      rfl
    rw [hsignature] at hrow
    -- The signature begins behind the gap of its parenthesis and ends behind its last lexeme
    have hspan : o.signatureSpan = some ⟨byteLength (Lexeme.charsOf o.lead ++ opener.gap),
        byteLength (Lexeme.charsOf (o.lead ++ opener :: inner) ++ closer.gap) +
          byteLength closer.text⟩ := by
      rw [signatureSpan, show o.signature = _ from he]
      simp [Enclosed.row, Lexeme.spanText, Lexeme.charsOf, Lexeme.chars, Nat.add_assoc]
    have hopener : (scanText source).lexemes =
        o.lead ++ opener :: (inner ++ closer :: (o.middle ++ o.selection.row ++ o.after)) := by
      simp [hrow]
    have hcloser : (scanText source).lexemes =
        (o.lead ++ opener :: inner) ++ closer :: (o.middle ++ o.selection.row ++ o.after) := by
      simp [hrow]
    exact ⟨_, _, _, _, hspan, standsAt_of_append hopener rfl, standsAt_of_append hcloser rfl⟩
  · have hopener : (scanText source).lexemes =
        (o.lead ++ o.signatureRow ++ o.middle) ++
          o.selection.opener :: (o.selection.inner ++ o.selection.closer :: o.after) := by
      simp [hrow, Enclosed.row]
    have hcloser : (scanText source).lexemes =
        (o.lead ++ o.signatureRow ++ o.middle ++ o.selection.opener :: o.selection.inner) ++
          o.selection.closer :: o.after := by
      simp [hrow, Enclosed.row]
    -- The closing brace is found by the length of what stands between the braces
    refine ⟨_, _, standsAt_of_append hopener rfl, standsAt_of_append hcloser ?_⟩
    simp [selectionClose, selectionChars, Lexeme.charsOf]

/-! ## §4 Sources without an outline -/

/-- Only a source without an outline is refused for its brackets. Filling in the signature and
resolving the spreads report errors of their own, and never this one. -/
theorem compile_eq_unbalanced_iff (lib : Library) (template : Template) (values : JsonObject)
    (whenAbsent : Bool) (text : String) :
    lib.compile template values whenAbsent = .error (.unbalancedTemplate text) ↔
      text = template.source ∧ ofText? template.source = none := by
  cases houtline : ofText? template.source with
  | none =>
    have herror : lib.compile template values whenAbsent =
        .error (.unbalancedTemplate template.source) := by
      unfold Library.compile
      rw [houtline]
      rfl
    rw [herror]
    simp [eq_comm]
  | some o =>
    have hnot : lib.compile template values whenAbsent ≠ .error (.unbalancedTemplate text) := by
      intro herror
      rcases lib.resolve_cases (o.declare template.source values whenAbsent).text with
        ⟨resolved, hresolve, -⟩ | ⟨e, hresolve, hfailure⟩
      · obtain ⟨compiled, hcompiled, -⟩ := Library.exists_compiled houtline hresolve
        rw [hcompiled] at herror
        cases herror
      · -- The search fails with errors of its own
        have hfails : lib.compile template values whenAbsent = .error e := by
          unfold Library.compile
          simp only [houtline, hresolve, bind, Except.bind]
        rw [hfails] at herror
        cases herror
        cases hfailure
    simp [hnot]

/-! ## §5 Brackets by kind and by count

The brackets of an outline are found by counting, and a count does not tell the kinds apart. A
source nests by kind or it does not; the laws say what follows in either case. -/

/-- An outline whose signature and selection set nest by kind. -/
structure Nests (o : Outline) : Prop where
  signature : ∀ e ∈ o.signature, e.Nests '(' ')'
  selection : o.selection.Nests '{' '}'

/-- Whether two brackets of the signature or of the selection set have a balanced row in between. -/
def Brackets (o : Outline) (opener closer : Lexeme) : Prop :=
  (∃ e ∈ o.signature, Paired e.row opener closer) ∨ Paired o.selection.row opener closer

theorem Nests.parted {source : String} {o : Outline} (h : o.Nests) (hcuts : o.Cuts source) :
    o.Parted where
  signature := fun e he => (h.signature e he).closed (by decide)
  middle := hcuts.middle
  selection := h.selection.closed (by decide)

/-- What is closed by count nests by kind exactly if every bracket is closed by its own kind. -/
theorem Parted.nests_iff {o : Outline} (h : o.Parted) :
    o.Nests ↔ ∀ opener closer, o.Brackets opener closer → opener.mates closer = true := by
  constructor
  · rintro ⟨hsignature, hselection⟩ opener closer (⟨e, he, hpaired⟩ | hpaired)
    · exact ((h.signature e he).nests_iff (by decide)).1 (hsignature e he) opener closer hpaired
    · exact (h.selection.nests_iff (by decide)).1 hselection opener closer hpaired
  · intro hmates
    refine ⟨fun e he => ((h.signature e he).nests_iff (by decide)).2 ?_,
      (h.selection.nests_iff (by decide)).2 ?_⟩
    · exact fun opener closer hpaired => hmates opener closer (.inl ⟨e, he, hpaired⟩)
    · exact fun opener closer hpaired => hmates opener closer (.inr hpaired)

end Outline

/-- What is to be expected of a source: an outline of it nests by kind, and it is refused if no
parts of it would. Landmarks are meant to be the bytes of the parentheses around the signature and
of the braces around the selection set, and no other brackets will do. -/
structure NestsOrRefused (source : String) : Prop where
  nests : ∀ o, Outline.ofText? source = some o → o.Nests
  refused : (¬∃ o : Outline, o.Cuts source ∧ o.Nests) →
    ∀ (lib : Library) (kind : OperationKind) (values : JsonObject) (whenAbsent : Bool),
      lib.compile ⟨kind, source⟩ values whenAbsent = .error (.unbalancedTemplate source)

/-- **The laws of brackets.** They say which sources have an outline, and what it makes of their
brackets. One count stands for all kinds of bracket, so that a part may be closed by a bracket of
another kind; the last two laws say exactly when that happens. -/
structure BalanceLaws (source : String) : Prop where
  /-- An outline is found exactly if brackets, counted together, are closed. -/
  found : ∀ o, Outline.ofText? source = some o ↔ o.Cuts source ∧ o.Parted
  located : ∀ o, Outline.ofText? source = some o → o.Located source
  /-- A source is refused for its brackets exactly if it has no outline. -/
  refused : ∀ (lib : Library) (kind : OperationKind) (values : JsonObject) (whenAbsent : Bool)
    (text : String),
    lib.compile ⟨kind, source⟩ values whenAbsent = .error (.unbalancedTemplate text) ↔
      text = source ∧ ¬∃ o : Outline, o.Cuts source ∧ o.Parted
  /-- Parts that nest by kind are found. -/
  accepted : ∀ o : Outline, o.Cuts source → o.Nests → Outline.ofText? source = some o
  /-- What is found nests by kind exactly if no bracket is closed by one of another kind. -/
  nests : ∀ o, Outline.ofText? source = some o →
    (o.Nests ↔ ∀ opener closer, o.Brackets opener closer → opener.mates closer = true)
  /-- So the expectation is met exactly if no bracket of an outline is closed so. -/
  expected : NestsOrRefused source ↔ ∀ o, Outline.ofText? source = some o →
    ∀ opener closer, o.Brackets opener closer → opener.mates closer = true

/-- Every source obeys the laws. Nothing is assumed of the source: where it has no outline the laws
say why it is refused, and where it has one they locate its brackets. -/
theorem balanceLaws (source : String) : BalanceLaws source := by
  have hnests : ∀ o, Outline.ofText? source = some o →
      (o.Nests ↔ ∀ opener closer, o.Brackets opener closer → opener.mates closer = true) :=
    fun o ho => (Outline.ofText?_iff.1 ho).2.nests_iff
  have haccepted : ∀ o : Outline, o.Cuts source → o.Nests → Outline.ofText? source = some o :=
    fun o hcuts ho => Outline.ofText?_iff.2 ⟨hcuts, ho.parted hcuts⟩
  have hnone : Outline.ofText? source = none ↔ ¬∃ o : Outline, o.Cuts source ∧ o.Parted := by
    simp only [← Outline.ofText?_iff, Option.eq_none_iff_forall_ne_some, not_exists, ne_eq]
  constructor
  · exact fun o => Outline.ofText?_iff
  · exact fun o ho => Outline.located_of_scan (Outline.cuts_of_ofText? ho).scan
  · intro lib kind values whenAbsent text
    rw [Outline.compile_eq_unbalanced_iff, ← hnone]
  · exact haccepted
  · exact hnests
  · constructor
    · exact fun hexpected o ho => (hnests o ho).1 (hexpected.nests o ho)
    · intro hmates
      refine ⟨fun o ho => (hnests o ho).2 (hmates o ho), fun hno lib kind values whenAbsent => ?_⟩
      -- An outline would nest, and be found among the parts that do
      apply (Outline.compile_eq_unbalanced_iff lib ⟨kind, source⟩ values whenAbsent source).2
      refine ⟨rfl, Option.eq_none_iff_forall_ne_some.2 fun o ho => hno ⟨o, ?_, ?_⟩⟩
      · exact Outline.cuts_of_ofText? ho
      · exact (hnests o ho).2 (hmates o ho)

/-- A brace that is closed by a square bracket. -/
theorem not_nestsOrRefused_squareClose : ¬NestsOrRefused "query \x7ba]" := by
  intro hexpected
  have hcloser : (Outline.ofText? "query \x7ba]").map (fun o => o.selection.closer.kind) =
      some (.punctuator ']') := by
    decide +kernel
  obtain ⟨o, ho, hkind⟩ := Option.map_eq_some_iff.1 hcloser
  have hbrace := (hexpected.nests o ho).selection.closer
  rw [Lexeme.isMark_iff, hkind] at hbrace
  cases hbrace

end QueryWeave
