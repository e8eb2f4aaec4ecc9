import QueryWeave.Operation.Compile
import QueryWeave.Proofs.Fragment.Reachable
import QueryWeave.Proofs.Operation.Outline

/-!
# Compiled Operations

What a compiled operation is read as: the operation with its signature filled in, every spread
written by flat name. The fragments it needs come dependencies first, and everything that its
selections spread is among them.

- `Library.Compilation`: what lies behind a compiled operation.
- `Library.compilation_of_compile`: every compiled operation has it.
- `Outline.mem_spreads`: what the selections spread, the operation spreads.
-/

namespace QueryWeave

/-! ## §1 Spreads of parts -/

/-- Whatever the selections of an operation spread, the operation spreads. -/
theorem Outline.mem_spreads {source : String} {o : Outline} (h : Outline.ofText? source = some o)
    {s : Spread} (hs : s ∈ spreads o.selection.inner) : s ∈ spreads (scanText source).lexemes := by
  obtain ⟨hscan, hparted⟩ := Outline.parted_of_ofScan? h
  have hrow : (scanText source).lexemes =
      (o.lead ++ o.signatureRow ++ o.middle) ++ (o.selection.opener :: o.selection.inner) ++
        (o.selection.closer :: o.after) := by
    rw [← hscan]
    simp [Outline.scan, Enclosed.row]
  -- No path reaches over a brace, so the row is cut into pieces at both of them
  have hopener := Lexeme.isMark_iff.1 hparted.selection.opener
  have hopens : o.selection.opener.opens = true := Lexeme.opens_iff.2 (.inl hopener)
  have hcloser := continuable_of_isBracket
    (Bool.or_eq_true_iff.2 (.inr hparted.selection.closer)) o.after
  have hbehind := continuable_of_isBracket (Bool.or_eq_true_iff.2 (.inl hopens)) o.selection.inner
  rw [hrow, spreads_append hcloser, spreads_append hbehind,
    spreads_cons_single (by simp [hopener])]
  exact List.mem_append_left _ (List.mem_append_right _ hs)

/-! ## §2 Compilation -/

/-- What lies behind a compiled operation: the outline of its template, the row that its text is
read as, and the fragments that came with it, in an order in which each stands behind what it
spreads. -/
structure Library.Compilation (lib : Library) (template : Template) (values : JsonObject)
    (compiled : Compiled) where
  outline : Outline
  outlines : Outline.ofText? template.source = some outline
  declarations_eq : compiled.declarations =
    (outline.declare template.source values true).declarations
  scans : scanText compiled.operation =
    ⟨respread Spread.resolved
        (scanText (outline.declare template.source values true).text).lexemes,
      (scanText (outline.declare template.source values true).text).trailer⟩
  flat : FlatSpreads (scanText compiled.operation).lexemes
  order : lib.DependenciesFirst compiled.fragmentNames
  covers : lib.Covers compiled.fragmentNames (spreadPaths (scanText compiled.operation).lexemes)
  reached : ∀ name ∈ compiled.fragmentNames, lib.Reaches (pathsSpread compiled.operation) name

/-- What a compilation has made of the outline of its template: the text that was resolved, and the
definitions of what that text needs. -/
theorem Library.compile_inversion_of_outline {lib : Library} {template : Template}
    {values : JsonObject} {whenAbsent : Bool} {compiled : Compiled} {o : Outline}
    (ho : Outline.ofText? template.source = some o)
    (h : lib.compile template values whenAbsent = .ok compiled) :
    ∃ resolved, lib.resolve (o.declare template.source values whenAbsent).text = .ok resolved ∧
      lib.definitions resolved.used = .ok compiled.fragments ∧
      compiled.declarations = (o.declare template.source values whenAbsent).declarations ∧
      compiled.warnings = (o.declare template.source values whenAbsent).warnings ∧
      compiled.operation = resolved.text ∧ compiled.fragmentNames = resolved.used := by
  -- Resolution and the definitions are all that can fail behind the outline
  unfold compile at h
  simp only [ho] at h
  cases hresolve : lib.resolve (o.declare template.source values whenAbsent).text with
  | error e => simp [hresolve, bind, Except.bind] at h
  | ok resolved =>
    simp only [hresolve, bind, Except.bind] at h
    cases hdefinitions : lib.definitions resolved.used with
    | error e => simp [hdefinitions] at h
    | ok fragments =>
      simp only [hdefinitions, pure, Except.pure, Except.ok.injEq] at h
      subst h
      exact ⟨resolved, rfl, hdefinitions, rfl, rfl, rfl, rfl⟩

/-- Behind a compiled operation stand the outline of its template, the text that was resolved, and
the definitions of what that text needs. -/
theorem Library.compile_inversion {lib : Library} {template : Template} {values : JsonObject}
    {whenAbsent : Bool} {compiled : Compiled}
    (h : lib.compile template values whenAbsent = .ok compiled) :
    ∃ o resolved, Outline.ofText? template.source = some o ∧
      lib.resolve (o.declare template.source values whenAbsent).text = .ok resolved ∧
      lib.definitions resolved.used = .ok compiled.fragments ∧
      compiled.declarations = (o.declare template.source values whenAbsent).declarations ∧
      compiled.operation = resolved.text ∧ compiled.fragmentNames = resolved.used := by
  -- Without an outline nothing compiles
  cases houtline : Outline.ofText? template.source with
  | none =>
    unfold compile at h
    simp [houtline, throw, throwThe, MonadExceptOf.throw] at h
  | some o =>
    obtain ⟨resolved, hresolve, hdefinitions, hdeclarations, -, hoperation, hnames⟩ :=
      compile_inversion_of_outline houtline h
    exact ⟨o, resolved, rfl, hresolve, hdefinitions, hdeclarations, hoperation, hnames⟩

theorem Library.compilation_of_compile {lib : Library} {template : Template} {values : JsonObject}
    {compiled : Compiled} (h : lib.compile template values true = .ok compiled) :
    Nonempty (lib.Compilation template values compiled) := by
  obtain ⟨o, resolved, houtline, hresolve, -, hdeclarations, hoperation, hnames⟩ :=
    compile_inversion h
  -- Resolution writes the paths flat, and lists what they need
  obtain ⟨-, horder, hcovers⟩ := dependenciesFirst_of_resolve hresolve
  have hflattened :
      Flattened Spread.resolved (scanText (o.declare template.source values true).text) :=
    flattened_resolved _
  have hscan := lib.scan_resolved hresolve
  rw [← hoperation] at hscan
  rw [← hnames] at horder hcovers
  refine ⟨{
    outline := o
    outlines := houtline
    declarations_eq := hdeclarations
    scans := hscan
    flat := by rw [hscan]; exact hflattened.flat
    order := horder
    covers := fun path hpath => ?_
    reached := fun name hname => ?_ }⟩
  -- The paths are flat now, and lead to the same fragments
  · rw [hscan] at hpath
    dsimp only at hpath
    rw [hflattened.paths] at hpath
    obtain ⟨old, hold, rfl⟩ := List.mem_map.1 hpath
    rw [lib.find?_flattenPath]
    exact hcovers old hold
  · rw [pathsSpread, hscan]
    dsimp only
    rw [hflattened.paths]
    rw [hnames] at hname
    exact (reaches_of_resolve hresolve name hname).flatten

/-! ## §3 Compilation succeeds -/

/-- Results computed for a list are computed entry by entry. -/
theorem forall₂_of_mapM {α β ε : Type} {f : α → Except ε β} {entries : List α} {results : List β}
    (h : entries.mapM f = .ok results) : List.Forall₂ (fun x y => f x = .ok y) entries results := by
  induction entries generalizing results with
  | nil =>
    cases h
    exact .nil
  | cons entry rest ih =>
    rw [List.mapM_cons] at h
    -- The first error would be the result of the whole list
    cases hentry : f entry with
    | error e => simp [hentry, bind, Except.bind] at h
    | ok result =>
      cases hrest : rest.mapM f with
      | error e => simp [hentry, hrest, bind, Except.bind] at h
      | ok later =>
        simp only [hentry, hrest, bind, Except.bind, pure, Except.pure, Except.ok.injEq] at h
        subst h
        exact .cons hentry (ih hrest)

namespace Library

/-- The definitions of several names are those of the fragments found under them. -/
theorem forall₂_definitions {lib : Library} {names texts : List String}
    (h : lib.definitions names = .ok texts) :
    List.Forall₂ (fun name text => ∃ f, lib.find? name = some f ∧ text = f.definition)
      names texts := by
  exact (forall₂_of_mapM h).imp fun name text => (lib.definition_eq_ok_iff name text).1

/-- Fragments that are found have definitions. -/
theorem exists_definitions {lib : Library} {names : List String}
    (h : ∀ name ∈ names, ∃ f, lib.find? name = some f) :
    ∃ texts, lib.definitions names = .ok texts := by
  induction names with
  | nil => exact ⟨[], rfl⟩
  | cons name rest ih =>
    obtain ⟨⟨f, hfind⟩, hrest⟩ := List.forall_mem_cons.1 h
    obtain ⟨texts, htexts⟩ := ih hrest
    refine ⟨f.definition :: texts, ?_⟩
    have hdefinition := (lib.definition_eq_ok_iff name _).2 ⟨f, hfind, rfl⟩
    unfold definitions at htexts ⊢
    rw [List.mapM_cons, hdefinition, htexts]
    rfl

/-- Texts that spread the same paths are resolved alike. -/
theorem resolve_congr {lib : Library} {text other : String} {resolved : Resolved}
    (h : lib.resolve text = .ok resolved)
    (hpaths : spreadPaths (scanText other).lexemes = spreadPaths (scanText text).lexemes) :
    lib.resolve other = .ok ⟨String.ofList (resolveSpreads (scanText other)), resolved.used⟩ := by
  refine resolve_eq_ok_iff.2 ⟨?_, rfl⟩
  rw [hpaths]
  exact (resolve_eq_ok_iff.1 h).1

/-- A text that spreads nothing needs nothing, and is left as it is. -/
theorem resolve_of_no_spreads (lib : Library) {text : String}
    (h : spreadPaths (scanText text).lexemes = []) : lib.resolve text = .ok ⟨text, []⟩ := by
  have hchars : (scanText text).chars = text.toList := chars_scan _
  have htext : String.ofList (resolveSpreads (scanText text)) = text := by
    rw [resolveSpreads_eq, respread_of_no_spreads (List.map_eq_nil_iff.1 h)]
    exact String.toList_inj.1 (by rw [String.toList_ofList, ← hchars]; rfl)
  refine resolve_eq_ok_iff.2 ⟨?_, ?_⟩
  · rw [h, needs]
  · rw [htext]

/-- A text that spreads one fragment, which spreads nothing itself, needs that one alone. -/
theorem resolve_of_leaf {lib : Library} {text path : String} {f : Fragment}
    (hpaths : pathsSpread text = [path]) (hfind : lib.find? path = some f)
    (hleaf : f.spreadPaths = []) :
    lib.resolve text = .ok ⟨String.ofList (resolveSpreads (scanText text)), [f.flatName]⟩ := by
  have hneeds : lib.needs [] (pathsSpread text) [] = .ok [f.flatName] := by
    rw [hpaths, needs_of_no_spreads hfind hleaf]
  exact resolve_eq_ok_iff.2 ⟨hneeds, rfl⟩

/-- What an operation is compiled to, if its variables give rise to no warning. -/
theorem compile_eq_ok {lib : Library} {template : Template} {values : JsonObject}
    {whenAbsent : Bool} {name : Option String} {text : String} {ds : List Declaration}
    {resolved : Resolved} {texts : List String}
    (hdeclared : (Outline.ofText? template.source).map (fun o =>
      let declared := o.declare template.source values whenAbsent
      (o.name, declared.text, declared.declarations, declared.warnings.isEmpty)) =
        some (name, text, ds, true))
    (hresolved : lib.resolve text = .ok resolved)
    (hdefinitions : lib.definitions resolved.used = .ok texts) :
    lib.compile template values whenAbsent = .ok {
      kind := template.kind
      name
      declarations := ds
      operation := resolved.text
      fragmentNames := resolved.used
      fragments := texts
      warnings := [] } := by
  -- The hypothesis is one equation of a tuple, so that one evaluation gives all of it
  obtain ⟨o, ho, hparts⟩ := Option.map_eq_some_iff.1 hdeclared
  simp only [Prod.mk.injEq, List.isEmpty_iff] at hparts
  obtain ⟨rfl, rfl, rfl, hwarnings⟩ := hparts
  simp only [compile, ho, hresolved, hdefinitions, hwarnings, bind, Except.bind, pure, Except.pure]

/-- An operation that spreads nothing is compiled to its text with the signature filled in. -/
theorem compile_of_no_spreads (lib : Library) {template : Template} {values : JsonObject}
    {whenAbsent : Bool} {name : Option String} {text : String} {ds : List Declaration}
    (hdeclared : (Outline.ofText? template.source).map (fun o =>
      let declared := o.declare template.source values whenAbsent
      (o.name, declared.text, declared.declarations, declared.warnings.isEmpty)) =
        some (name, text, ds, true))
    (hspreads : spreadPaths (scanText text).lexemes = []) :
    lib.compile template values whenAbsent = .ok {
      kind := template.kind
      name
      declarations := ds
      operation := text
      fragmentNames := []
      fragments := []
      warnings := [] } :=
  compile_eq_ok hdeclared (lib.resolve_of_no_spreads hspreads) rfl

/-- An operation compiles if, with its signature filled in, its spreads are resolved. -/
theorem exists_compiled {lib : Library} {template : Template} {values : JsonObject}
    {whenAbsent : Bool} {o : Outline} (ho : Outline.ofText? template.source = some o)
    {resolved : Resolved}
    (h : lib.resolve (o.declare template.source values whenAbsent).text = .ok resolved) :
    ∃ compiled, lib.compile template values whenAbsent = .ok compiled ∧
      compiled.declarations = (o.declare template.source values whenAbsent).declarations ∧
      compiled.operation = resolved.text ∧ compiled.fragmentNames = resolved.used := by
  obtain ⟨-, horder, -⟩ := dependenciesFirst_of_resolve h
  -- Every listed name is registered, so no definition can be missing
  obtain ⟨texts, htexts⟩ := exists_definitions fun name hname => by
    obtain ⟨f, hfind, -⟩ := horder.fragment name hname
    exact ⟨f, hfind⟩
  unfold compile
  simp only [ho, h, htexts, bind, Except.bind, pure, Except.pure]
  exact ⟨_, rfl, rfl, rfl, rfl⟩

end Library

end QueryWeave
