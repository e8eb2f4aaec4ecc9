import QueryWeave.Proofs.Batch.Isolation

/-!
# Inlined Selections

What selections say once every spread in them is replaced by the body it stands for, again and
again, until none is left. Which body a path stands for is a parameter: for an operation by itself
it is the library, for an entry of a batch it is the document. If the bodies on one side are copies
of those on the other, then so is what is inlined.

- `Inlines`: inlining as a relation.
- `Inlines.unique`, `inlines_of_covers`: its result is unique, and exists for resolved texts.
- `Inlines.copy`: inlining goes along with copying.
-/

namespace QueryWeave

/-! ## §1 Inlining

To inline is to put bodies in the places of spreads, again and again. As a relation it has one case
for each sort of piece, and no measure is needed: a derivation that exists is finite. -/

/-- Pieces with every spread replaced by the body of its path, the ellipsis kept in front.
Derivations are finite, so a fragment that spreads itself has nothing that it inlines to. -/
inductive Inlines (body : String → Option (List Lexeme)) : List Piece → List Lexeme → Prop
  | nil : Inlines body [] []
  | single {l : Lexeme} {rest : List Piece} {inlined : List Lexeme} :
      Inlines body rest inlined → Inlines body (.single l :: rest) (l :: inlined)
  | spread {s : Spread} {definition inner inlined : List Lexeme} {rest : List Piece} :
      body s.path = some definition → Inlines body (pieces definition) inner →
      Inlines body rest inlined →
      Inlines body (.spread s :: rest) (s.dots :: inner ++ inlined)

/-- There is one way to inline at most. -/
theorem Inlines.unique {body : String → Option (List Lexeme)} {ps : List Piece}
    {first second : List Lexeme} (h : Inlines body ps first) (h' : Inlines body ps second) :
    first = second := by
  -- The pieces say which rule applies, and the body of a path is unique
  induction h generalizing second with
  | nil =>
    cases h'
    rfl
  | single _ ih =>
    cases h' with
    | single hrest => rw [ih hrest]
  | spread hbody _ _ ihInner ihRest =>
    cases h' with
    | spread hbody' hinner hrest =>
      rw [hbody] at hbody'
      cases hbody'
      rw [ihInner hinner, ihRest hrest]

/-- The spreads among pieces. -/
def Piece.spreadsOf (ps : List Piece) : List Spread :=
  ps.filterMap Piece.spread?

/-- Pieces can be inlined if the body of each of their spreads can. -/
theorem inlines_of_bodies {body : String → Option (List Lexeme)} {ps : List Piece}
    (h : ∀ s ∈ Piece.spreadsOf ps, ∃ definition inner,
      body s.path = some definition ∧ Inlines body (pieces definition) inner) :
    ∃ inlined, Inlines body ps inlined := by
  induction ps with
  | nil => exact ⟨[], .nil⟩
  | cons piece rest ih =>
    -- Single lexemes stay, and each spread is replaced by what its body inlines to
    cases piece with
    | single l =>
      obtain ⟨inlined, hinlined⟩ := ih h
      exact ⟨l :: inlined, .single hinlined⟩
    | spread s =>
      obtain ⟨definition, inner, hbody, hinner⟩ := h s List.mem_cons_self
      obtain ⟨inlined, hinlined⟩ := ih fun t ht => h t (List.mem_cons_of_mem _ ht)
      exact ⟨_, .spread hbody hinner hinlined⟩

/-! ## §2 The bodies of a library -/

/-- The body that a path stands for in a library. -/
def Library.bodyOf (lib : Library) (path : String) : Option (List Lexeme) :=
  (lib.find? path).map Fragment.row

/-- Whatever spreads fragments of a resolved list can be inlined. The induction is along the list,
since inlining has no measure of its own: a body spreads only fragments listed in front of it. -/
theorem inlines_of_covers {lib : Library} {listed : List String}
    (horder : lib.DependenciesFirst listed) {ps : List Piece}
    (hcovers : lib.Covers listed ((Piece.spreadsOf ps).map Spread.path)) :
    ∃ inlined, Inlines lib.bodyOf ps inlined := by
  induction horder generalizing ps with
  | nil =>
    apply inlines_of_bodies
    intro s hs
    obtain ⟨f, -, hnone⟩ := hcovers s.path (List.mem_map_of_mem hs)
    cases hnone
  | @snoc listed f _ hfind _ _ hbelow ih =>
    -- The body of the last fragment spreads only fragments in front of it
    obtain ⟨inner, hinner⟩ := @ih (pieces f.row) hbelow
    apply inlines_of_bodies
    intro s hs
    obtain ⟨g, hg, hlisted⟩ := hcovers s.path (List.mem_map_of_mem hs)
    have hbody : lib.bodyOf s.path = some g.row := by
      rw [Library.bodyOf, hg]
      rfl
    rcases List.mem_append.1 hlisted with hlisted | hlast
    · -- A spread of an earlier fragment is inlined by itself
      obtain ⟨inlined, hinlined⟩ := @ih [.spread s] fun path hpath => by
        simp only [Piece.spreadsOf, List.filterMap_cons, Piece.spread?, List.filterMap_nil,
          List.map_cons, List.map_nil, List.mem_singleton] at hpath
        exact hpath ▸ ⟨g, hg, hlisted⟩
      cases hinlined with
      | spread hdefinition hinlined _ => exact ⟨_, _, hdefinition, hinlined⟩
    · rw [List.mem_singleton] at hlast
      have hsame := lib.find?_flatName hg
      rw [hlast, hfind] at hsame
      cases hsame
      exact ⟨_, _, hbody, hinner⟩

/-- What is inlined comes from the pieces, or from the bodies below them. Names that are closed
under spreading stay so, which is what the induction needs of `listed`. -/
theorem Inlines.mem {body : String → Option (List Lexeme)} {listed : List String}
    (hbodies : ∀ path ∈ listed, ∀ definition, body path = some definition →
      ∀ path ∈ spreadPaths definition, path ∈ listed)
    {ps : List Piece} {inlined : List Lexeme} (h : Inlines body ps inlined)
    (hlisted : ∀ s ∈ Piece.spreadsOf ps, s.path ∈ listed) {l : Lexeme} (hl : l ∈ inlined) :
    l ∈ Piece.rowOf ps ∨
      ∃ path ∈ listed, ∃ definition, body path = some definition ∧ l ∈ definition := by
  induction h with
  | nil => cases hl
  | @single m rest inlined _ ih =>
    rcases List.mem_cons.1 hl with rfl | hl
    · exact .inl List.mem_cons_self
    · exact (ih hlisted hl).imp (List.mem_cons_of_mem _) id
  | @spread s definition inner inlined rest hbody _ _ ihInner ihRest =>
    have hhere : s.path ∈ listed := hlisted s List.mem_cons_self
    rcases List.mem_append.1 hl with hl | hl
    · rcases List.mem_cons.1 hl with rfl | hl
      · exact .inl List.mem_cons_self
      · -- Below a spread stand the pieces of a listed body
        have hbelow := hbodies s.path hhere definition hbody
        rcases ihInner (fun t ht => hbelow t.path (List.mem_map_of_mem ht)) hl with hl | hl
        · rw [rowOf_pieces] at hl
          exact .inr ⟨s.path, hhere, definition, hbody, hl⟩
        · exact .inr hl
    · have hrest := ihRest (fun t ht => hlisted t (List.mem_cons_of_mem _ ht)) hl
      exact hrest.imp (fun hrow => List.mem_append_right _ hrow) id

/-! ## §3 Views

Two texts can inline to the same tokens and still differ in their gaps. A view of a piece forgets
these, and keeps the token or the path. -/

/-- What a piece is, apart from its gaps: a lexeme, or an ellipsis and a path. -/
def Piece.view : Piece → Token × Option String
  | .single l => (l.token, none)
  | .spread s => (s.dots.token, some s.path)

/-- A piece with more text in front of its first gap. -/
def Piece.indent (gap : List Char) : Piece → Piece
  | .single l => .single { l with gap := gap ++ l.gap }
  | .spread s => .spread { s with dots := { s.dots with gap := gap ++ s.dots.gap } }

/-- A gap in front of a text goes into its first piece. So an indented body has the pieces of the
body, and inlines to the same tokens. -/
theorem pieces_indent (gap : List Char) (s : Scan) :
    pieces (s.indent gap).lexemes = (pieces s.lexemes).modifyHead (Piece.indent gap) := by
  obtain ⟨row, trailer⟩ := s
  cases row with
  | nil => simp [Scan.indent]
  | cons l rest =>
    show pieces ({ l with gap := gap ++ l.gap } :: rest) = _
    -- The gap goes to the ellipsis of a spread, or to a lexeme by itself
    by_cases hspread : l.kind = .ellipsis ∧ rest.head?.any beginsPath = true
    · obtain ⟨hdots, hhead⟩ := hspread
      cases rest with
      | nil => cases hhead
      | cons next more =>
        rw [@pieces_cons_spread l next hdots hhead more]
        exact @pieces_cons_spread { l with gap := gap ++ l.gap } next hdots hhead more
    · have hsingle : l.kind = .ellipsis → rest.head?.any beginsPath = false := fun hdots =>
        Bool.eq_false_iff.2 fun hhead => hspread ⟨hdots, hhead⟩
      rw [pieces_cons_single (l := l) hsingle]
      exact pieces_cons_single (l := { l with gap := gap ++ l.gap }) hsingle

theorem map_view_indent (gap : List Char) (s : Scan) :
    (pieces (s.indent gap).lexemes).map Piece.view = (pieces s.lexemes).map Piece.view := by
  rw [pieces_indent]
  cases pieces s.lexemes with
  | nil => rfl
  | cons piece rest => cases piece <;> rfl

/-- Spreads with their paths are part of the view. -/
theorem spreadPaths_eq (row : List Lexeme) :
    spreadPaths row = ((pieces row).map Piece.view).filterMap Prod.snd := by
  rw [spreadPaths, spreads, List.map_filterMap, List.filterMap_map]
  congr 1
  funext piece
  cases piece <;> rfl

theorem spreadPaths_indent (gap : List Char) (s : Scan) :
    spreadPaths (s.indent gap).lexemes = spreadPaths s.lexemes := by
  rw [spreadPaths_eq, map_view_indent, ← spreadPaths_eq]

theorem FlatSpreads.of_indent {gap : List Char} {s : Scan}
    (h : FlatSpreads (s.indent gap).lexemes) :
    FlatSpreads s.lexemes := by
  unfold FlatSpreads spreads at h ⊢
  rw [pieces_indent] at h
  -- Only the ellipsis of the first spread differs, and its segments are the same
  cases hpieces : pieces s.lexemes with
  | nil => simp
  | cons piece rest =>
    rw [hpieces] at h
    intro t ht
    cases piece with
    | single l => exact h t ht
    | spread first =>
      rcases List.mem_cons.1 ht with rfl | ht
      · exact h { t with dots := { t.dots with gap := gap ++ t.dots.gap } } List.mem_cons_self
      · exact h t (List.mem_cons_of_mem _ ht)

/-! ## §4 Copies -/

/-- A variable under its name for an entry, and any other token as it is. -/
def Token.rename (aliasName : String) (t : Token) : Token :=
  if t.1 = .variable then
    (t.1, '$' :: (entryVariable aliasName (String.ofList (t.2.drop 1))).toList)
  else t

/-- The path of a spread in a copy. -/
def copiedPath (aliasName : String) (copied : List String) (path : String) : String :=
  if path ∈ copied then entryName aliasName path else path

/-- What a piece is in a copy. -/
def copiedView (aliasName : String) (copied : List String) (view : Token × Option String) :
    Token × Option String :=
  (view.1.rename aliasName, view.2.map (copiedPath aliasName copied))

section Copy

variable {aliasName : String} {copied : List String}

theorem view_copy {piece : Piece} (hflat : ∀ s ∈ piece.spread?, s.segments = [] ∧ s.Formed) :
    (piece.copy aliasName copied).view = copiedView aliasName copied piece.view := by
  -- A single lexeme changes if it is a variable, a spread if its path was copied
  cases piece with
  | single l =>
    by_cases hvariable : l.kind = .variable
    · simp [Piece.copy, Piece.view, copiedView, Token.rename, Lexeme.token, Lexeme.isVariable,
        hvariable, Lexeme.toEntryVariable, Lexeme.respell, Lexeme.variableName]
    · simp [Piece.copy, Piece.view, copiedView, Token.rename, Lexeme.token, Lexeme.isVariable,
        hvariable]
  | spread s =>
    obtain ⟨hsegments, hformed⟩ := hflat s rfl
    have hpath : ∀ head : Lexeme, Spread.path { s with head } = head.word := fun head => by
      simp [Spread.path, Spread.pathText, Spread.pathRow, hsegments, Spread.segmentRow,
        Lexeme.spanText, Lexeme.word]
    simp only [Piece.copy, Piece.view, copiedView, Token.rename, Lexeme.token, hformed.dots, hpath,
      Option.map_some, copiedPath]
    split <;> simp

/-- What the pieces of a copy are. -/
theorem map_view_copyRow (hon : "on" ∉ copied) {row : List Lexeme} (hflat : FlatSpreads row) :
    (pieces (copyRow aliasName copied none row)).map Piece.view =
      ((pieces row).map Piece.view).map (copiedView aliasName copied) := by
  rw [pieces_copyRow hon hflat (by simp), List.map_map, List.map_map]
  apply List.map_congr_left
  intro piece hpiece
  apply view_copy
  intro s hs
  have hmem : s ∈ spreads row := List.mem_filterMap.2 ⟨piece, hpiece, hs⟩
  exact ⟨hflat s hmem, formed_of_mem_spreads hmem⟩

/-- What is inlined from copies is a copy of what is inlined from the originals. The bodies need to
agree by what is seen of their pieces only, since the gaps of a copy may differ. -/
theorem Inlines.copy {listed : List String} {body other : String → Option (List Lexeme)}
    (hbodies : ∀ path ∈ listed, ∀ definition, body path = some definition →
      (∀ path ∈ spreadPaths definition, path ∈ listed) ∧
      ∃ copy, other (copiedPath aliasName copied path) = some copy ∧
        (pieces copy).map Piece.view =
          ((pieces definition).map Piece.view).map (copiedView aliasName copied))
    {ps qs : List Piece} {inlined : List Lexeme} (h : Inlines body ps inlined)
    (hlisted : ∀ s ∈ Piece.spreadsOf ps, s.path ∈ listed)
    (hviews : qs.map Piece.view = (ps.map Piece.view).map (copiedView aliasName copied)) :
    ∃ copy, Inlines other qs copy ∧
      copy.map Lexeme.token = inlined.map fun l => l.token.rename aliasName := by
  induction h generalizing qs with
  | nil =>
    simp only [List.map_nil, List.map_eq_nil_iff] at hviews
    exact ⟨[], hviews ▸ .nil, rfl⟩
  | @single l rest inlined _ ih =>
    obtain ⟨piece, qs, rfl, hpiece, hrest⟩ := List.map_eq_cons_iff.1 hviews
    obtain ⟨copy, hcopy, htokens⟩ := ih hlisted hrest
    cases piece with
    | single m =>
      have htoken : m.token = l.token.rename aliasName := congrArg Prod.fst hpiece
      refine ⟨m :: copy, .single hcopy, ?_⟩
      rw [List.map_cons, List.map_cons, htoken, htokens]
    | spread t => cases congrArg Prod.snd hpiece
  | @spread s definition inner inlined rest hbody _ _ ihInner ihRest =>
    obtain ⟨piece, qs, rfl, hpiece, hrest⟩ := List.map_eq_cons_iff.1 hviews
    cases piece with
    | single m => cases congrArg Prod.snd hpiece
    | spread t =>
      -- The same ellipsis, and a path to the copy of the body
      have hdots : t.dots.token = s.dots.token.rename aliasName := congrArg Prod.fst hpiece
      have hpath : t.path = copiedPath aliasName copied s.path :=
        Option.some.inj (congrArg Prod.snd hpiece)
      obtain ⟨hbelow, definition', hother, hpieces⟩ :=
        hbodies s.path (hlisted s List.mem_cons_self) definition hbody
      obtain ⟨copyInner, hcopyInner, htokensInner⟩ :=
        ihInner (fun u hu => hbelow u.path (List.mem_map_of_mem hu)) hpieces
      obtain ⟨copy, hcopy, htokens⟩ :=
        ihRest (fun u hu => hlisted u (List.mem_cons_of_mem _ hu)) hrest
      refine ⟨t.dots :: copyInner ++ copy, .spread (hpath ▸ hother) hcopyInner hcopy, ?_⟩
      simp only [List.cons_append, List.map_cons, List.map_append, hdots, htokensInner, htokens]

end Copy

end QueryWeave
