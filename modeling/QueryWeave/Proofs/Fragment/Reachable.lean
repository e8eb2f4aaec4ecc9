import Mathlib.Data.List.Chain
import Mathlib.Data.List.TakeWhile
import Mathlib.Logic.Relation
import QueryWeave.Proofs.Fragment.Closure

/-!
# What a Text Reaches

Flat names are reached from a text along spreads: the text spreads paths, the fragments behind these
spread further paths, and so on. Resolution is a search along the spreads. It succeeds exactly if
every name reached is registered and none of them leads back to itself, and it then lists the names
reached, each behind those that it spreads. A search that fails has gone in a circle, or has come to
a path under which nothing is registered.

- `Library.Spreads`, `Library.Reaches`: spreads from name to name, and what they lead to.
- `Library.Search`: where the search stands.
- `Library.closureLaws_resolve`: how resolution ends, for every library and every text.
-/

namespace QueryWeave

/-- The paths that a text spreads. -/
def pathsSpread (text : String) : List String :=
  spreadPaths (scanText text).lexemes

namespace Library

open Relation

/-! ## §1 Spreads from name to name -/

/-- Whether the fragment under a name spreads a path with the flat name `other`. -/
def Spreads (lib : Library) (name other : String) : Prop :=
  ∃ f, lib.find? name = some f ∧ ∃ path ∈ f.spreadPaths, flattenPath path = other

/-- Whether a flat name is reached: one of the paths has it, or leads to it along spreads. This says
nothing of a search, of the order of names or of a stack. -/
def Reaches (lib : Library) (paths : List String) (name : String) : Prop :=
  ∃ path ∈ paths, ReflTransGen lib.Spreads (flattenPath path) name

/-- Whether a path is looked up in the end: it is one of the paths, or the body of a fragment that
is reached spreads it. A missing path is named as it is written, so paths and flat names are told
apart here. -/
def Requires (lib : Library) (paths : List String) (path : String) : Prop :=
  path ∈ paths ∨
    ∃ name f, lib.Reaches paths name ∧ lib.find? name = some f ∧ path ∈ f.spreadPaths

/-- A row of names along spreads that ends where it begins. It has two names at least: a fragment
that spreads itself is the shortest one. -/
structure Cycle (lib : Library) (cycle : List String) : Prop where
  closed : ∃ name inner, cycle = name :: inner ++ [name]
  spreads : cycle.IsChain lib.Spreads

variable {lib : Library}

theorem Reaches.mono {paths more : List String} (h : ∀ path ∈ paths, path ∈ more) {name : String}
    (hname : lib.Reaches paths name) : lib.Reaches more name := by
  obtain ⟨path, hpath, hleads⟩ := hname
  exact ⟨path, h path hpath, hleads⟩

theorem reaches_of_mem {paths : List String} {path : String} (h : path ∈ paths) :
    lib.Reaches paths (flattenPath path) :=
  ⟨path, h, .refl⟩

/-- What is reached is a flat name. -/
theorem Reaches.flattenPath_eq {paths : List String} {name : String} (h : lib.Reaches paths name) :
    flattenPath name = name := by
  obtain ⟨path, -, hleads⟩ := h
  cases hleads with
  | refl => exact flattenPath_flattenPath path
  | tail _ hspreads =>
    obtain ⟨-, -, next, -, rfl⟩ := hspreads
    exact flattenPath_flattenPath next

/-- It does not matter whether the paths are flat. -/
theorem Reaches.flatten {paths : List String} {name : String} (h : lib.Reaches paths name) :
    lib.Reaches (paths.map flattenPath) name := by
  obtain ⟨path, hpath, hleads⟩ := h
  refine ⟨flattenPath path, List.mem_map_of_mem hpath, ?_⟩
  rwa [flattenPath_flattenPath]

theorem Reaches.spreads {paths : List String} {name other : String} (h : lib.Reaches paths name)
    (hspreads : lib.Spreads name other) : lib.Reaches paths other := by
  obtain ⟨path, hpath, hleads⟩ := h
  exact ⟨path, hpath, hleads.tail hspreads⟩

/-- What the body of a fragment leads to, a path to the fragment leads to. -/
theorem Reaches.through {paths : List String} {path : String} (hpath : path ∈ paths) {f : Fragment}
    (hfind : lib.find? path = some f) {name : String} (h : lib.Reaches f.spreadPaths name) :
    lib.Reaches paths name := by
  obtain ⟨next, hnext, hleads⟩ := h
  have hfirst : lib.Spreads (flattenPath path) (flattenPath next) :=
    ⟨f, (lib.find?_flattenPath path).trans hfind, next, hnext, rfl⟩
  exact ⟨path, hpath, .head hfirst hleads⟩

theorem Requires.reaches {paths : List String} {path : String} (h : lib.Requires paths path) :
    lib.Reaches paths (flattenPath path) := by
  rcases h with hpath | ⟨name, f, hname, hfind, hpath⟩
  · exact reaches_of_mem hpath
  · exact hname.spreads ⟨f, hfind, path, hpath, rfl⟩

/-- Along a chain the first name leads to the last. -/
theorem transGen_of_chain {first last : String} {inner : List String}
    (h : (first :: inner ++ [last]).IsChain lib.Spreads) : TransGen lib.Spreads first last := by
  induction inner generalizing first with
  | nil => exact .single (List.isChain_cons_cons.1 h).1
  | cons next rest ih =>
    obtain ⟨hstep, hrest⟩ := List.isChain_cons_cons.1 h
    exact .head hstep (ih hrest)

/-- Every cycle has a name that leads back to itself. -/
theorem Cycle.transGen {cycle : List String} (h : lib.Cycle cycle) :
    ∃ name ∈ cycle, TransGen lib.Spreads name name := by
  obtain ⟨⟨name, inner, rfl⟩, hchain⟩ := h
  exact ⟨name, List.mem_cons_self, transGen_of_chain hchain⟩

/-! ## §2 Lists in the order of resolution -/

/-- Every name of such a list stands behind the names that its fragment spreads. -/
theorem DependenciesFirst.mem_before {listed : List String} (h : lib.DependenciesFirst listed)
    {before after : List String} {name : String} (hsplit : listed = before ++ name :: after)
    {other : String} (hspreads : lib.Spreads name other) : other ∈ before := by
  induction h generalizing after with
  | nil => simp at hsplit
  | @snoc listed f _ hfind _ _ hcovers ih =>
    rcases List.eq_nil_or_concat after with rfl | ⟨front, last, rfl⟩
    · -- The name is the one added last: what it spreads is covered by the names in front
      obtain ⟨rfl, hlast⟩ := List.append_inj' hsplit rfl
      cases hlast
      obtain ⟨g, hg, path, hpath, rfl⟩ := hspreads
      rw [hfind] at hg
      cases hg
      obtain ⟨found, hfound, hmem⟩ := hcovers path hpath
      rwa [lib.flatName_of_find? hfound] at hmem
    · rw [List.concat_eq_append, ← List.cons_append, ← List.append_assoc] at hsplit
      exact ih (List.append_inj' hsplit rfl).1

/-- Whatever a name leads to along spreads stands in front of it. -/
theorem DependenciesFirst.mem_before_of_transGen {listed : List String}
    (h : lib.DependenciesFirst listed) {name other : String}
    (hleads : TransGen lib.Spreads name other) {before after : List String}
    (hsplit : listed = before ++ name :: after) : other ∈ before := by
  induction hleads with
  | single hspreads => exact h.mem_before hsplit hspreads
  | @tail middle other _ hspreads ih =>
    -- The name in between stands in front, and what it spreads stands in front of that
    obtain ⟨front, behind, rfl⟩ := List.append_of_mem ih
    have hmiddle : listed = front ++ middle :: (behind ++ name :: after) := by
      rw [hsplit, List.append_assoc, List.cons_append]
    exact List.mem_append_left _ (h.mem_before hmiddle hspreads)

/-- No name of such a list leads back to itself. -/
theorem DependenciesFirst.acyclic {listed : List String} (h : lib.DependenciesFirst listed)
    {name : String} (hname : name ∈ listed) : ¬ TransGen lib.Spreads name name := by
  intro hleads
  obtain ⟨before, after, rfl⟩ := List.append_of_mem hname
  have hbefore : name ∈ before := h.mem_before_of_transGen hleads rfl
  have hdisjoint := (List.nodup_append.1 h.nodup).2.2
  exact hdisjoint name hbefore name List.mem_cons_self rfl

/-- Such a list, if it covers paths, has everything that is reached from them. -/
theorem DependenciesFirst.mem_of_reaches {listed paths : List String}
    (h : lib.DependenciesFirst listed) (hcovers : lib.Covers listed paths) {name : String}
    (hname : lib.Reaches paths name) : name ∈ listed := by
  obtain ⟨path, hpath, hleads⟩ := hname
  induction hleads with
  | refl =>
    obtain ⟨f, hfind, hmem⟩ := hcovers path hpath
    rwa [lib.flatName_of_find? hfind] at hmem
  | tail _ hspreads ih =>
    obtain ⟨before, after, hsplit⟩ := List.append_of_mem ih
    rw [hsplit]
    exact List.mem_append_left _ (h.mem_before hsplit hspreads)

/-! ## §3 A search that succeeds

The search goes over the paths from left to right and into each body first. By functional induction
on it, what it lists is reached, has all its spreads in front of it, and has everything that was
asked for. -/

/-- The search lists nothing but what is reached. By induction along the search: what is listed
below a fragment is reached through it. -/
theorem reaches_of_needs {visiting paths used all : List String}
    (h : lib.needs visiting paths used = .ok all) :
    ∀ name ∈ all, name ∈ used ∨ lib.Reaches paths name := by
  fun_induction lib.needs visiting paths used generalizing all with
  | case1 visiting used =>
    cases h
    exact fun name hname => .inl hname
  | case2 => cases h
  | case3 visiting used path rest f hfind hlisted ih =>
    -- What was listed before was listed already, and a path that is not the first is one of the
    -- paths
    intro name hname
    exact (ih h name hname).imp id (Reaches.mono fun _ => List.mem_cons_of_mem _)
  | case4 => cases h
  | case5 => cases h
  | case6 visiting used path rest f hfind hlisted hvisiting below hbelow ihbelow ihrest =>
    intro name hname
    have hhere : path ∈ path :: rest := List.mem_cons_self
    rcases ihrest h name hname with hadded | hrest
    · rcases Names.mem_add.1 hadded with hmem | rfl
      · -- Listed for the body of the fragment
        exact (ihbelow hbelow name hmem).imp id (Reaches.through hhere hfind)
      · right
        rw [lib.flatName_of_find? hfind]
        exact reaches_of_mem hhere
    · exact .inr (hrest.mono fun _ => List.mem_cons_of_mem _)

/-! ## §4 A search that fails

`Search` is the state of the search, as far as errors need it: the fragments being visited are a
chain of spreads from the roots, and all paths that are left are required. -/

/-- Where the search stands: the names being visited lie along spreads, all of them are reached from
`roots`, and the last of them is the one that spreads the paths still to be searched. A fragment
that comes up twice on such a chain closes a cycle. -/
structure Search (lib : Library) (roots visiting paths : List String) : Prop where
  chain : visiting.IsChain lib.Spreads
  reached : ∀ name ∈ visiting, lib.Reaches roots name
  required : ∀ path ∈ paths, lib.Requires roots path
  last : ∀ name ∈ visiting.getLast?, ∀ path ∈ paths, lib.Spreads name (flattenPath path)

theorem search_start (roots : List String) : lib.Search roots [] roots where
  chain := .nil
  reached := by simp
  required := fun _ hpath => .inl hpath
  last := by simp

/-- One path is done with. -/
theorem Search.next {roots visiting rest : List String} {path : String}
    (h : lib.Search roots visiting (path :: rest)) : lib.Search roots visiting rest where
  chain := h.chain
  reached := h.reached
  required := fun other hother => h.required other (List.mem_cons_of_mem _ hother)
  last := fun name hname other hother => h.last name hname other (List.mem_cons_of_mem _ hother)

/-- The fragment of a path is visited. -/
theorem Search.visit {roots visiting rest : List String} {path : String} {f : Fragment}
    (h : lib.Search roots visiting (path :: rest)) (hfind : lib.find? path = some f) :
    lib.Search roots (visiting ++ [f.flatName]) f.spreadPaths := by
  have hflat : f.flatName = flattenPath path := lib.flatName_of_find? hfind
  have hreached : lib.Reaches roots f.flatName :=
    hflat ▸ (h.required path List.mem_cons_self).reaches
  constructor
  · apply List.isChain_append.2
    refine ⟨h.chain, .singleton _, fun name hname other hother => ?_⟩
    obtain rfl : f.flatName = other := Option.some.inj hother
    rw [hflat]
    exact h.last name hname path List.mem_cons_self
  · -- What is being visited was reached from the roots
    intro name hname
    rcases List.mem_append.1 hname with hname | hname
    · exact h.reached name hname
    · exact List.mem_singleton.1 hname ▸ hreached
  · intro next hnext
    exact .inr ⟨f.flatName, f, hreached, lib.find?_flatName hfind, hnext⟩
  · intro name hname next hnext
    obtain rfl : f.flatName = name := by simpa using hname
    exact ⟨f, lib.find?_flatName hfind, next, hnext, rfl⟩

/-- A fragment that is being visited already closes a cycle. The fragments being visited are a chain
of spreads, and the cycle is the part of the chain from its first visit on. -/
theorem Search.cycle {roots visiting rest : List String} {path : String} {f : Fragment}
    (h : lib.Search roots visiting (path :: rest)) (hfind : lib.find? path = some f)
    (hmem : f.flatName ∈ visiting) :
    lib.Cycle (cycleFrom visiting f.flatName) ∧
      ∀ name ∈ cycleFrom visiting f.flatName, lib.Reaches roots name := by
  have hvisit := h.visit hfind
  -- What is dropped in front of the first visit is no part of the cycle
  have hsuffix : cycleFrom visiting f.flatName <:+ visiting ++ [f.flatName] := by
    obtain ⟨front, hfront⟩ := List.dropWhile_suffix (· ≠ f.flatName) (l := visiting)
    refine ⟨front, ?_⟩
    rw [cycleFrom, ← List.append_assoc, hfront]
  have hclosed : ∃ name inner, cycleFrom visiting f.flatName = name :: inner ++ [name] := by
    unfold cycleFrom
    have hhead := List.head?_dropWhile_not (· ≠ f.flatName) visiting
    cases hdrop : visiting.dropWhile (· ≠ f.flatName) with
    | nil =>
      exact absurd (List.dropWhile_eq_nil_iff.1 hdrop f.flatName hmem) (by simp)
    | cons first behind =>
      rw [hdrop] at hhead
      obtain rfl : first = f.flatName := by simpa using hhead
      exact ⟨_, behind, rfl⟩
  refine ⟨⟨hclosed, hvisit.chain.suffix hsuffix⟩, fun name hname => ?_⟩
  exact hvisit.reached name (hsuffix.subset hname)

/-- How a search can fail: a name that is required is not registered, or names that are reached
spread each other in a circle. Both say where the failure lies, so an error is never a false
alarm. -/
inductive Failure (lib : Library) (roots : List String) : CompileError → Prop
  | missing {path : String} (hrequired : lib.Requires roots path) (hnone : lib.find? path = none) :
      Failure lib roots (.fragmentNotFound path)
  | cycle {cycle : List String} (hcycle : lib.Cycle cycle)
      (hreached : ∀ name ∈ cycle, lib.Reaches roots name) :
      Failure lib roots (.fragmentCycle cycle)

/-- A search that fails has come to a path that leads nowhere, or has gone in a circle. The state of
the search says where it stands, so the error can be traced to spreads of the library. -/
theorem Search.failure {roots visiting paths used : List String} {e : CompileError}
    (h : lib.Search roots visiting paths) (hneeds : lib.needs visiting paths used = .error e) :
    lib.Failure roots e := by
  fun_induction lib.needs visiting paths used with
  | case1 => cases hneeds
  | case2 visiting used path rest hnone =>
    cases hneeds
    exact .missing (h.required path List.mem_cons_self) hnone
  | case3 visiting used path rest f hfind hlisted ih => exact ih h.next hneeds
  | case4 visiting used path rest f hfind hlisted hvisiting =>
    cases hneeds
    obtain ⟨hcycle, hreached⟩ := h.cycle hfind hvisiting
    exact .cycle hcycle hreached
  | case5 visiting used path rest f hfind hlisted hvisiting below hbelow ih =>
    -- The search below the fragment has failed already
    cases hneeds
    exact ih (h.visit hfind) hbelow
  | case6 visiting used path rest f hfind hlisted hvisiting below hbelow ihbelow ihrest =>
    exact ihrest h.next hneeds

/-! ## §5 Resolution -/

/-- What resolution lists, or why it fails. -/
theorem resolve_cases (lib : Library) (text : String) :
    (∃ resolved, lib.resolve text = .ok resolved ∧ lib.DependenciesFirst resolved.used ∧
      lib.Covers resolved.used (pathsSpread text) ∧
      ∀ name ∈ resolved.used, lib.Reaches (pathsSpread text) name) ∨
    ∃ e, lib.resolve text = .error e ∧ lib.Failure (pathsSpread text) e := by
  -- A text is resolved exactly if its search succeeds, and fails for the reason of the search
  cases hneeds : lib.needs [] (pathsSpread text) [] with
  | ok used =>
    left
    have hresolve : lib.resolve text =
        .ok ⟨String.ofList (resolveSpreads (scanText text)), used⟩ :=
      resolve_eq_ok_iff.2 ⟨hneeds, rfl⟩
    obtain ⟨-, horder, hcovers⟩ := dependenciesFirst_of_resolve hresolve
    refine ⟨_, hresolve, horder, hcovers, fun name hname => ?_⟩
    exact (reaches_of_needs hneeds name hname).resolve_left (by simp)
  | error e =>
    right
    exact ⟨e, resolve_eq_error_iff.2 hneeds, (search_start _).failure hneeds⟩

/-- Resolution lists nothing but what is reached. -/
theorem reaches_of_resolve {text : String} {resolved : Resolved}
    (h : lib.resolve text = .ok resolved) :
    ∀ name ∈ resolved.used, lib.Reaches (pathsSpread text) name := by
  rcases lib.resolve_cases text with ⟨other, hother, -, -, hreached⟩ | ⟨e, herror, -⟩
  · rw [h] at hother
    cases hother
    exact hreached
  · rw [h] at herror
    cases herror

/-- A resolved text spreads what the text spread, by flat name. -/
theorem pathsSpread_resolved {text : String} {resolved : Resolved}
    (h : lib.resolve text = .ok resolved) :
    pathsSpread resolved.text = (pathsSpread text).map flattenPath := by
  have hflattened : Flattened Spread.resolved (scanText text) := flattened_resolved _
  rw [pathsSpread, lib.scan_resolved h]
  exact hflattened.paths

/-- How the resolution of a text ends. `Reaches` and `Spreads` are relations on the library alone,
so the laws determine the set of names, and the order up to fragments that do not need one
another. -/
structure ClosureLaws (lib : Library) (text : String) : Prop where
  /-- It ends in one of three ways. -/
  ends : (∃ resolved, lib.resolve text = .ok resolved) ∨
    (∃ cycle, lib.resolve text = .error (.fragmentCycle cycle)) ∨
    ∃ path, lib.resolve text = .error (.fragmentNotFound path)
  /-- It succeeds if and only if every name reached is registered, and none lies on a cycle. -/
  succeeds : (∃ resolved, lib.resolve text = .ok resolved) ↔
    ∀ name, lib.Reaches (pathsSpread text) name →
      (∃ f, lib.find? name = some f) ∧ ¬ TransGen lib.Spreads name name
  /-- What is reached is listed, each name once, and nothing else. -/
  listed : ∀ resolved, lib.resolve text = .ok resolved →
    resolved.used.Nodup ∧ ∀ name, name ∈ resolved.used ↔ lib.Reaches (pathsSpread text) name
  /-- A name stands behind all that its fragment spreads. -/
  order : ∀ resolved, lib.resolve text = .ok resolved →
    ∀ before name after, resolved.used = before ++ name :: after →
      ∀ other, lib.Spreads name other → other ∈ before
  /-- A cycle that is reported is one, and is reached. -/
  cycle : ∀ cycle, lib.resolve text = .error (.fragmentCycle cycle) →
    lib.Cycle cycle ∧ ∀ name ∈ cycle, lib.Reaches (pathsSpread text) name
  /-- A path that is reported missing is spread by the text or by a fragment reached, and nothing is
  registered under it. -/
  missing : ∀ path, lib.resolve text = .error (.fragmentNotFound path) →
    lib.Requires (pathsSpread text) path ∧ lib.find? path = none

/-- A search that failed has met a name that is not registered, or lies on a cycle. -/
theorem Failure.obstacle {roots : List String} {e : CompileError} (h : lib.Failure roots e) :
    ∃ name, lib.Reaches roots name ∧
      ¬((∃ f, lib.find? name = some f) ∧ ¬ TransGen lib.Spreads name name) := by
  cases h with
  | @missing path hrequired hnone =>
    refine ⟨flattenPath path, hrequired.reaches, ?_⟩
    rintro ⟨⟨f, hfind⟩, -⟩
    rw [lib.find?_flattenPath, hnone] at hfind
    cases hfind
  | cycle hcycle hreached =>
    obtain ⟨name, hname, hleads⟩ := hcycle.transGen
    exact ⟨name, hreached name hname, fun hsound => hsound.2 hleads⟩

/-- A text is resolved exactly if every name reached is registered, and none lies on a cycle. -/
theorem exists_resolve_iff (lib : Library) (text : String) :
    (∃ resolved, lib.resolve text = .ok resolved) ↔
      ∀ name, lib.Reaches (pathsSpread text) name →
        (∃ f, lib.find? name = some f) ∧ ¬ TransGen lib.Spreads name name := by
  constructor
  · rintro ⟨resolved, hresolve⟩ name hname
    -- What is listed is registered, and the order of the list rules out cycles
    obtain ⟨-, horder, hcovers⟩ := dependenciesFirst_of_resolve hresolve
    have hlisted := horder.mem_of_reaches hcovers hname
    obtain ⟨f, hfind, -⟩ := horder.fragment name hlisted
    exact ⟨⟨f, hfind⟩, horder.acyclic hlisted⟩
  · intro hall
    rcases lib.resolve_cases text with ⟨resolved, hresolve, -⟩ | ⟨e, -, hfailure⟩
    · exact ⟨resolved, hresolve⟩
    · obtain ⟨name, hname, hobstacle⟩ := hfailure.obstacle
      exact absurd (hall name hname) hobstacle

/-- **Resolution computes the closure** of what a text spreads.

The library is any list of fragments; it need not have come about by registration. -/
theorem closureLaws_resolve (lib : Library) (text : String) : lib.ClosureLaws text := by
  rcases lib.resolve_cases text with
    ⟨resolved, hresolve, horder, hcovers, hreached⟩ | ⟨e, hresolve, hfailure⟩
  · -- The list has what is reached; its order rules out cycles
    have hmem : ∀ name, name ∈ resolved.used ↔ lib.Reaches (pathsSpread text) name :=
      fun name => ⟨hreached name, horder.mem_of_reaches hcovers⟩
    constructor
    · exact .inl ⟨resolved, hresolve⟩
    · refine ⟨fun _ name hname => ?_, fun _ => ⟨resolved, hresolve⟩⟩
      have hlisted := (hmem name).2 hname
      obtain ⟨f, hfind, -⟩ := horder.fragment name hlisted
      exact ⟨⟨f, hfind⟩, horder.acyclic hlisted⟩
    · intro other hother
      rw [hresolve] at hother
      cases hother
      exact ⟨horder.nodup, hmem⟩
    · intro other hother before name after hsplit next hspreads
      rw [hresolve] at hother
      cases hother
      exact horder.mem_before hsplit hspreads
    · intro cycle hcycle
      rw [hresolve] at hcycle
      cases hcycle
    · intro path hmissing
      rw [hresolve] at hmissing
      cases hmissing
  · have hnot : ¬∃ resolved, lib.resolve text = .ok resolved := by
      rintro ⟨resolved, hok⟩
      rw [hresolve] at hok
      cases hok
    constructor
    · cases hfailure with
      | missing => exact .inr (.inr ⟨_, hresolve⟩)
      | cycle => exact .inr (.inl ⟨_, hresolve⟩)
    · refine ⟨fun hok => absurd hok hnot, fun hall => ?_⟩
      obtain ⟨name, hname, hobstacle⟩ := hfailure.obstacle
      exact absurd (hall name hname) hobstacle
    · exact fun resolved hok => absurd ⟨resolved, hok⟩ hnot
    · exact fun resolved hok => absurd ⟨resolved, hok⟩ hnot
    · intro cycle hcycle
      rw [hresolve] at hcycle
      cases hcycle
      cases hfailure with
      | cycle hcycle hreached => exact ⟨hcycle, hreached⟩
    · intro path hmissing
      rw [hresolve] at hmissing
      cases hmissing
      cases hfailure with
      | missing hrequired hnone => exact ⟨hrequired, hnone⟩

end Library

end QueryWeave
