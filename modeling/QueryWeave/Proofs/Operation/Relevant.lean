import QueryWeave.Proofs.Fragment.History
import QueryWeave.Proofs.Operation.Compile

/-!
# What a Compilation Depends On

A compilation looks at a library only where its operation leads: under the flat names reached from
the spreads of the operation, once the signature is filled in. Two libraries that have the same
definitions there, or both have none, are searched step for step alike, and the compilation ends in
the same way, be it with a document or with an error. What else they hold does not matter, nor in
which order it was registered, nor whether it is sound in itself.

- `Library.AgreeOn`: agreement on what is reached from paths.
- `Library.AgreeOn.needs_eq`: the searches through two libraries that agree, step for step.
- `relevanceLaws_compile`: libraries that agree compile alike, and so do libraries behind later
  calls.
-/

namespace QueryWeave

namespace Library

/-! ## §1 Libraries that agree

Two libraries agree on what is reached from some paths if they find the same there, and agree on
what that spreads. The relation says nothing about other fragments, of which there may be any. -/

/-- Whether two libraries agree on everything reached from paths: under every name reached they have
the same definition, or neither has one. What is reached is told by the first of them. -/
def AgreeOn (lib other : Library) (paths : List String) : Prop :=
  ∀ name, lib.Reaches paths name → other.definition name = lib.definition name

variable {lib other : Library} {paths : List String}

theorem AgreeOn.mono {fewer : List String} (h : lib.AgreeOn other paths)
    (hfewer : ∀ path ∈ fewer, path ∈ paths) : lib.AgreeOn other fewer :=
  fun name hname => h name (hname.mono hfewer)

/-- What two libraries have under a name on which they agree. -/
theorem found_of_definition_eq {name : String} (h : other.definition name = lib.definition name) :
    (lib.find? name = none ∧ other.find? name = none) ∨
      ∃ f g, lib.find? name = some f ∧ other.find? name = some g ∧ g.flatName = f.flatName ∧
        g.body = f.body := by
  -- A definition tells the flat name and the body, so both fragments agree on them
  cases hfound : lib.definition name with
  | error e =>
    rw [hfound] at h
    exact .inl ⟨((lib.definition_eq_error_iff name e).1 hfound).1,
      ((other.definition_eq_error_iff name e).1 h).1⟩
  | ok text =>
    rw [hfound] at h
    obtain ⟨f, hf, rfl⟩ := (lib.definition_eq_ok_iff name text).1 hfound
    obtain ⟨g, hg, htext⟩ := (other.definition_eq_ok_iff name _).1 h
    have hname : g.flatName = f.flatName := by
      rw [other.flatName_of_find? hg, lib.flatName_of_find? hf]
    rw [Fragment.definition, Fragment.definition, hname] at htext
    exact .inr ⟨f, g, hf, hg, hname, (Fragment.define_inj htext).symm⟩

/-- A path that is reached leads nowhere in both, or to fragments with the same name and spreads. -/
theorem AgreeOn.found (h : lib.AgreeOn other paths) {path : String}
    (hpath : lib.Reaches paths (flattenPath path)) :
    (lib.find? path = none ∧ other.find? path = none) ∨
      ∃ f g, lib.find? path = some f ∧ other.find? path = some g ∧ g.flatName = f.flatName ∧
        g.spreadPaths = f.spreadPaths := by
  have hfound := found_of_definition_eq (h _ hpath)
  rw [lib.find?_flattenPath, other.find?_flattenPath] at hfound
  refine hfound.imp id ?_
  rintro ⟨f, g, hf, hg, hname, hbody⟩
  have hpaths : g.spreadPaths = f.spreadPaths := by
    rw [Fragment.spreadPaths, Fragment.spreadPaths, Fragment.row, Fragment.row, hbody]
  exact ⟨f, g, hf, hg, hname, hpaths⟩

theorem AgreeOn.spreads_iff (h : lib.AgreeOn other paths) {name : String}
    (hname : lib.Reaches paths name) (next : String) :
    other.Spreads name next ↔ lib.Spreads name next := by
  have hflat : lib.Reaches paths (flattenPath name) := by rwa [hname.flattenPath_eq]
  rcases h.found hflat with ⟨hf, hg⟩ | ⟨f, g, hf, hg, -, hpaths⟩
  · simp [Spreads, hf, hg]
  · simp [Spreads, hf, hg, hpaths]

/-- The same is reached in both, so it does not matter in which of them the names are followed. -/
theorem AgreeOn.reaches_iff (h : lib.AgreeOn other paths) (name : String) :
    other.Reaches paths name ↔ lib.Reaches paths name := by
  constructor
  · rintro ⟨path, hpath, hleads⟩
    induction hleads with
    | refl => exact reaches_of_mem hpath
    | tail _ hspreads ih => exact ih.spreads ((h.spreads_iff ih _).1 hspreads)
  · rintro ⟨path, hpath, hleads⟩
    -- A step can be taken in the other library because its name is reached in this one
    have hboth : lib.Reaches paths name ∧ other.Reaches paths name := by
      induction hleads with
      | refl => exact ⟨reaches_of_mem hpath, reaches_of_mem hpath⟩
      | tail _ hspreads ih =>
        exact ⟨ih.1.spreads hspreads, ih.2.spreads ((h.spreads_iff ih.1 _).2 hspreads)⟩
    exact hboth.2

theorem AgreeOn.symm (h : lib.AgreeOn other paths) : other.AgreeOn lib paths :=
  fun name hname => (h name ((h.reaches_iff name).1 hname)).symm

/-! ## §2 Resolution -/

/-- At a path that leads to a fragment in the one library, the other one has a fragment with the
same name and the same spreads, and both agree on the rest and on what the fragment spreads. -/
theorem AgreeOn.visit {path : String} {rest : List String} {f : Fragment}
    (h : lib.AgreeOn other (path :: rest)) (hfind : lib.find? path = some f) :
    ∃ g, other.find? path = some g ∧ g.flatName = f.flatName ∧ g.spreadPaths = f.spreadPaths ∧
      lib.AgreeOn other rest ∧ lib.AgreeOn other f.spreadPaths := by
  rcases h.found (reaches_of_mem List.mem_cons_self) with
    ⟨hnone, -⟩ | ⟨f', g, hf, hg, hname, hpaths⟩
  · rw [hfind] at hnone
    cases hnone
  · rw [hfind] at hf
    cases hf
    exact ⟨g, hg, hname, hpaths, h.mono fun _ => List.mem_cons_of_mem _,
      fun name hreached => h name (.through List.mem_cons_self hfind hreached)⟩

/-- The searches through two libraries that agree take the same steps. The induction is on the one
search; agreement goes down to the spreads of each body that is entered. -/
theorem AgreeOn.needs_eq {visiting used : List String} (h : lib.AgreeOn other paths) :
    other.needs visiting paths used = lib.needs visiting paths used := by
  -- On the steps of the one search: the other one is at the same path, with the same lists
  fun_induction lib.needs visiting paths used with
  | case1 => exact needs_nil _ _ _
  | case2 visiting used path rest hnone =>
    rcases h.found (reaches_of_mem List.mem_cons_self) with ⟨-, hg⟩ | ⟨f, g, hf, -⟩
    · exact needs_of_none hg _ _ _
    · rw [hnone] at hf
      cases hf
  | case3 visiting used path rest f hfind hlisted ih =>
    obtain ⟨g, hg, hname, -, hrest, -⟩ := h.visit hfind
    rw [needs_of_find? hg, hname, if_pos hlisted, ih hrest]
  | case4 visiting used path rest f hfind hlisted hvisiting =>
    obtain ⟨g, hg, hname, -⟩ := h.visit hfind
    rw [needs_of_find? hg, hname, if_neg hlisted, if_pos hvisiting]
  | case5 visiting used path rest f hfind hlisted hvisiting e hbelow ih =>
    obtain ⟨g, hg, hname, hpaths, -, hspread⟩ := h.visit hfind
    rw [needs_of_find? hg, hname, hpaths, if_neg hlisted, if_neg hvisiting, ih hspread, hbelow]
    rfl
  | case6 visiting used path rest f hfind hlisted hvisiting below hbelow ihbelow ihrest =>
    obtain ⟨g, hg, hname, hpaths, hrest, hspread⟩ := h.visit hfind
    rw [needs_of_find? hg, hname, hpaths, if_neg hlisted, if_neg hvisiting, ihbelow hspread, hbelow]
    exact ihrest hrest

theorem AgreeOn.resolve_eq {text : String} (h : lib.AgreeOn other (pathsSpread text)) :
    other.resolve text = lib.resolve text :=
  congrArg (Except.map _) h.needs_eq

theorem definitions_congr {names : List String}
    (h : ∀ name ∈ names, other.definition name = lib.definition name) :
    other.definitions names = lib.definitions names := by
  unfold definitions
  induction names with
  | nil => rfl
  | cons name rest ih =>
    obtain ⟨hname, hrest⟩ := List.forall_mem_cons.1 h
    rw [List.mapM_cons, List.mapM_cons, hname, ih hrest]

/-- Where a text is resolved, what is reached from it is what is listed for it. -/
theorem agreeOn_of_resolve {text : String} {resolved : Resolved}
    (hresolve : lib.resolve text = .ok resolved)
    (h : ∀ name ∈ resolved.used, other.definition name = lib.definition name) :
    lib.AgreeOn other (pathsSpread text) := by
  intro name hname
  have hlisted := ((lib.closureLaws_resolve text).listed resolved hresolve).2 name
  exact h name (hlisted.2 hname)

end Library

/-! ## §3 Compilation -/

/-- The paths that a template spreads once its signature is filled in. -/
def Template.pathsSpread (t : Template) (values : JsonObject) (whenAbsent : Bool) : List String :=
  (Outline.ofText? t.source).toList.flatMap fun o =>
    QueryWeave.pathsSpread (o.declare t.source values whenAbsent).text

theorem Template.pathsSpread_of_outline {t : Template} {o : Outline}
    (ho : Outline.ofText? t.source = some o) (values : JsonObject) (whenAbsent : Bool) :
    t.pathsSpread values whenAbsent =
      QueryWeave.pathsSpread (o.declare t.source values whenAbsent).text := by
  simp [Template.pathsSpread, ho]

namespace Library

variable {lib other : Library} {template : Template} {values : JsonObject} {whenAbsent : Bool}

theorem AgreeOn.compile_eq (h : lib.AgreeOn other (template.pathsSpread values whenAbsent)) :
    other.compile template values whenAbsent = lib.compile template values whenAbsent := by
  unfold compile
  -- Up to the spreads, compilation does not look at a library at all
  cases ho : Outline.ofText? template.source with
  | none => rfl
  | some o =>
    rw [Template.pathsSpread_of_outline ho] at h
    simp only [h.resolve_eq]
    cases hresolve : lib.resolve (o.declare template.source values whenAbsent).text with
    | error e => rfl
    | ok resolved =>
      have hdefinitions : other.definitions resolved.used = lib.definitions resolved.used :=
        definitions_congr fun name hname => h name (reaches_of_resolve hresolve name hname)
      simp only [bind, Except.bind, hdefinitions]

/-- For an operation that compiles it is enough to agree on the fragments that came with it. -/
theorem compile_eq_of_definitions {compiled : Compiled}
    (hcompile : lib.compile template values whenAbsent = .ok compiled)
    (h : ∀ name ∈ compiled.fragmentNames, other.definition name = lib.definition name) :
    other.compile template values whenAbsent = .ok compiled := by
  obtain ⟨o, resolved, ho, hresolve, -, -, -, hnames⟩ := compile_inversion hcompile
  rw [hnames] at h
  rw [← hcompile]
  apply AgreeOn.compile_eq
  rw [Template.pathsSpread_of_outline ho]
  exact agreeOn_of_resolve hresolve h

/-- The fragments that come with an operation go by flat names. -/
theorem flattenPath_of_mem_fragmentNames {compiled : Compiled}
    (hcompile : lib.compile template values whenAbsent = .ok compiled) {name : String}
    (hname : name ∈ compiled.fragmentNames) : flattenPath name = name := by
  obtain ⟨o, resolved, -, hresolve, -, -, -, hnames⟩ := compile_inversion hcompile
  rw [hnames] at hname
  exact (reaches_of_resolve hresolve name hname).flattenPath_eq

/-! ## §4 Later registrations -/

theorem find?_registerAll_of_ne {bodies : List (String × String)} {name : String}
    (h : ∀ pair ∈ lib.acceptedAmong bodies, flattenPath pair.1 ≠ flattenPath name) :
    (lib.registerAll bodies).1.find? name = lib.find? name := by
  induction bodies generalizing lib with
  | nil => rfl
  | cons pair rest ih =>
    obtain ⟨path, body⟩ := pair
    -- The first body that is rejected ends the call
    cases hregister : lib.register path body with
    | error e => simp only [registerAll, hregister]
    | ok next =>
      simp only [acceptedAmong, hregister] at h
      simp only [registerAll, hregister]
      obtain ⟨hfirst, hrest⟩ := List.forall_mem_cons.1 h
      rw [ih hrest, find?_register_of_ne hregister hfirst]

/-- Calls leave alone what is found under the flat names that they accept no body for. -/
theorem find?_run_of_ne {calls : List RegistryCall} {name : String}
    (h : ∀ pair ∈ lib.accepted calls, flattenPath pair.1 ≠ flattenPath name) :
    (lib.run calls).find? name = lib.find? name := by
  induction calls generalizing lib with
  | nil => rfl
  | cons call rest ih =>
    rw [accepted] at h
    obtain ⟨hcall, hrest⟩ := List.forall_mem_append.1 h
    rw [run, ih hrest, call_eq_registerAll, find?_registerAll_of_ne hcall]

/-- An operation that compiles is compiled alike behind calls that accept none of its fragments. -/
theorem compile_run_of_ne {calls : List RegistryCall} {compiled : Compiled}
    (hcompile : lib.compile template values whenAbsent = .ok compiled)
    (h : ∀ pair ∈ lib.accepted calls, flattenPath pair.1 ∉ compiled.fragmentNames) :
    (lib.run calls).compile template values whenAbsent = .ok compiled := by
  apply compile_eq_of_definitions hcompile
  intro name hname
  have hfind : (lib.run calls).find? name = lib.find? name := by
    apply find?_run_of_ne
    intro pair hpair heq
    rw [flattenPath_of_mem_fragmentNames hcompile hname] at heq
    exact h pair hpair (heq ▸ hname)
  rw [definition, lookup, definition, lookup, hfind]

end Library

/-- What a compilation depends on. The first law is about any two libraries. The last two are about
what a caller can see: the fragments that came with the document, and the bodies that later calls
accept. -/
structure RelevanceLaws (template : Template) (values : JsonObject) (whenAbsent : Bool) : Prop where
  /-- Libraries that agree on what is reached from the operation compile it alike, errors
  included. -/
  agree : ∀ lib other : Library, lib.AgreeOn other (template.pathsSpread values whenAbsent) →
    other.compile template values whenAbsent = lib.compile template values whenAbsent
  /-- It does not matter in which of them the names are followed. -/
  symm : ∀ lib other : Library, lib.AgreeOn other (template.pathsSpread values whenAbsent) →
    other.AgreeOn lib (template.pathsSpread values whenAbsent)
  /-- If the operation compiles, then what is reached are the fragments that came with it. -/
  listed : ∀ (lib other : Library) compiled,
    lib.compile template values whenAbsent = .ok compiled →
      (∀ name ∈ compiled.fragmentNames, other.definition name = lib.definition name) →
        other.compile template values whenAbsent = .ok compiled
  /-- So it compiles alike behind any calls that accept no body under the flat name of one of them,
  whatever bodies they accept. -/
  later : ∀ (lib : Library) calls compiled,
    lib.compile template values whenAbsent = .ok compiled →
      (∀ pair ∈ lib.accepted calls, flattenPath pair.1 ∉ compiled.fragmentNames) →
        (lib.run calls).compile template values whenAbsent = .ok compiled

/-- **A compilation depends on the fragments that it reaches, and on nothing else in a library.**
The libraries may be any two that agree there; errors and warnings are part of what is the same. -/
theorem relevanceLaws_compile (template : Template) (values : JsonObject) (whenAbsent : Bool) :
    RelevanceLaws template values whenAbsent where
  agree := fun _ _ h => h.compile_eq
  symm := fun _ _ h => h.symm
  listed := fun _ _ _ hcompile h => Library.compile_eq_of_definitions hcompile h
  later := fun _ _ _ hcompile h => Library.compile_run_of_ne hcompile h

/-- Fragments that spread themselves, or spread what is not there, do not matter to an operation
that reaches neither. -/
theorem compile_behindLoop :
    let template : Template := ⟨.query, "query {...card}"⟩
    let sound := Library.empty.run [.single "card" "on Post {id}"]
    let other := Library.empty.run [.single "loop" "on Post {...loop}",
      .single "stray" "on Post {...gone}", .single "card" "on Post {id}"]
    other.compile template [] false = sound.compile template [] false := by
  intro template sound other
  -- Both libraries are asked for the one card, and have the same there
  have hpaths : template.pathsSpread [] false = pathsSpread "...card" := by decide +kernel
  have hfind : sound.find? "card" = some ⟨"card", "on Post {id}"⟩ := by decide +kernel
  have hother : other.find? "card" = sound.find? "card" := by decide +kernel
  have hresolve := @Library.resolve_of_leaf sound "...card" "card" _ (by decide +kernel) hfind
    (by decide +kernel)
  apply (relevanceLaws_compile template [] false).agree sound other
  rw [hpaths]
  apply Library.agreeOn_of_resolve hresolve
  intro name hname
  have hcard : name = "card" := (List.mem_singleton.1 hname).trans (by decide +kernel)
  rw [hcard, Library.definition, Library.lookup, hother]
  rfl

end QueryWeave
