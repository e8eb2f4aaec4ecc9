import QueryWeave.Proofs.Fragment.Registered
import QueryWeave.Proofs.Names

/-!
# What Resolution Needs

The flat names that resolution gives for a text. Every fragment spread by the text is among them,
and each of them stands behind all that it spreads itself. So an induction along the list is an
induction along the spreads.

- `Library.DependenciesFirst`: lists of flat names in such an order.
- `Library.dependenciesFirst_of_resolve`: what resolution gives is one.
-/

namespace QueryWeave

namespace Library

/-- A name that spreads can be written by. -/
def IsSpreadName (name : String) : Prop :=
  IsName name.toList ∧ name ≠ "on"

/-- Whether every path leads to a fragment whose flat name is listed. -/
def Covers (lib : Library) (listed paths : List String) : Prop :=
  ∀ path ∈ paths, ∃ f, lib.find? path = some f ∧ f.flatName ∈ listed

theorem Covers.mono {lib : Library} {listed more paths : List String}
    (h : lib.Covers listed paths) (hmore : ∀ name ∈ listed, name ∈ more) :
    lib.Covers more paths := by
  intro path hpath
  obtain ⟨f, hfind, hlisted⟩ := h path hpath
  exact ⟨f, hfind, hmore _ hlisted⟩

/-- Paths of a flat row are listed under the very names, if they are covered. -/
theorem Covers.mem {lib : Library} {listed : List String} {row : List Lexeme}
    (hcovers : lib.Covers listed (QueryWeave.spreadPaths row)) (hflat : FlatSpreads row)
    {following : List Char} (h : Lexeme.Spells row following) :
    ∀ path ∈ QueryWeave.spreadPaths row, path ∈ listed := by
  intro path hpath
  obtain ⟨g, hfind, hlisted⟩ := hcovers path hpath
  rw [lib.flatName_of_find? hfind, hflat.flattenPath_eq h path hpath] at hlisted
  exact hlisted

/-- Flat names of fragments, each once and behind those that its fragment spreads. All of them can
be spread. Such a list has no cycles, and an induction along it may use what is known of all that a
fragment spreads. -/
inductive DependenciesFirst (lib : Library) : List String → Prop
  | nil : DependenciesFirst lib []
  | snoc {listed : List String} {f : Fragment} :
      DependenciesFirst lib listed → lib.find? f.flatName = some f → f.flatName ∉ listed →
      IsSpreadName f.flatName → lib.Covers listed f.spreadPaths →
      DependenciesFirst lib (listed ++ [f.flatName])

/-- The flat name of a path that is spread can be spread. -/
theorem isSpreadName_flattenPath {cs : List Char} :
    ∀ path ∈ QueryWeave.spreadPaths (scan cs).lexemes, IsSpreadName (flattenPath path) := by
  intro path hpath
  obtain ⟨s, hs, rfl⟩ := List.mem_map.1 hpath
  obtain ⟨behind, hspells⟩ := spells_of_mem_spreads (spells_scan cs).1 hs
  obtain ⟨hwhole, hbegins⟩ := whole_flattened (formed_of_mem_spreads hs) hspells []
  -- A path that is spread does not begin with `on`, and neither does its flat name
  have hchars : (flattenPath s.path).toList = flattenChars s.pathText := by
    simp [flattenPath, Spread.path]
  refine ⟨hchars ▸ hwhole.isName rfl, fun heq => ?_⟩
  have hon : flattenChars s.pathText = ['o', 'n'] := by
    rw [← hchars, heq]
    rfl
  simp [beginsPath, hon] at hbegins

@[simp] theorem needs_nil (lib : Library) (visiting used : List String) :
    lib.needs visiting [] used = .ok used := by
  rw [needs]

/-- A step of the search, at a path that leads to a fragment. It is the definition with the lookup
done, and with the bodies below as one search; all inductions over the search cite it. -/
theorem needs_of_find? {lib : Library} {path : String} {f : Fragment}
    (hfind : lib.find? path = some f) (visiting rest used : List String) :
    lib.needs visiting (path :: rest) used =
      if f.flatName ∈ used then lib.needs visiting rest used
      else if f.flatName ∈ visiting then .error (.fragmentCycle (cycleFrom visiting f.flatName))
      else
        (lib.needs (visiting ++ [f.flatName]) f.spreadPaths used).bind fun below =>
          lib.needs visiting rest (Names.add below f.flatName) := by
  rw [needs]
  split
  · rename_i hnone
    rw [hfind] at hnone
    cases hnone
  · -- What is found is the fragment
    rename_i g hsome
    rw [hfind] at hsome
    cases hsome
    cases lib.needs (visiting ++ [f.flatName]) f.spreadPaths used <;>
      simp only [dite_eq_ite, Except.bind]

/-- A step of the search, at a path that leads nowhere. -/
theorem needs_of_none {lib : Library} {path : String} (hnone : lib.find? path = none)
    (visiting rest used : List String) :
    lib.needs visiting (path :: rest) used = .error (.fragmentNotFound path) := by
  rw [needs]
  split
  · rfl
  · rename_i f hsome
    rw [hnone] at hsome
    cases hsome

/-- A fragment that spreads nothing is needed alone. -/
theorem needs_of_no_spreads {lib : Library} {path : String} {f : Fragment}
    (hfind : lib.find? path = some f) (hpaths : f.spreadPaths = []) :
    lib.needs [] [path] [] = .ok [f.flatName] := by
  simp [needs_of_find? hfind, hpaths, Except.bind, Names.add]

/-- What is added for paths keeps the order, and covers the paths. The induction follows the search;
what has been listed in front is kept, so that a path covered once stays covered. -/
theorem needs_spec {lib : Library} {visiting paths used all : List String}
    (h : lib.needs visiting paths used = .ok all)
    (hpaths : ∀ path ∈ paths, IsSpreadName (flattenPath path))
    (hused : lib.DependenciesFirst used) :
    lib.DependenciesFirst all ∧ (∀ name ∈ used, name ∈ all) ∧ lib.Covers all paths := by
  fun_induction lib.needs visiting paths used generalizing all with
  | case1 visiting used =>
    cases h
    exact ⟨hused, fun _ hname => hname, by simp [Covers]⟩
  | case2 => cases h
  | case3 visiting used path rest f hfind hlisted ih =>
    -- The fragment was listed for an earlier path
    obtain ⟨horder, hkept, hcovers⟩ := ih h (fun p hp => hpaths p (List.mem_cons_of_mem _ hp)) hused
    refine ⟨horder, hkept, fun p hp => ?_⟩
    rcases List.mem_cons.1 hp with rfl | hp
    · exact ⟨f, hfind, hkept _ hlisted⟩
    · exact hcovers p hp
  | case4 => cases h
  | case5 => cases h
  | case6 visiting used path rest f hfind hlisted hvisiting below hbelow ihbelow ihrest =>
    -- First everything below the fragment, then the fragment itself, then the other paths
    have hspread : ∀ p ∈ f.spreadPaths, IsSpreadName (flattenPath p) := isSpreadName_flattenPath
    obtain ⟨horderBelow, hkeptBelow, hcoversBelow⟩ := ihbelow hbelow hspread hused
    have hname : IsSpreadName f.flatName := by
      rw [lib.flatName_of_find? hfind]
      exact hpaths path List.mem_cons_self
    have horderHere : lib.DependenciesFirst (Names.add below f.flatName) := by
      unfold Names.add
      split
      · exact horderBelow
      · rename_i hnew
        exact .snoc horderBelow (lib.find?_flatName hfind) hnew hname hcoversBelow
    obtain ⟨horder, hkept, hcovers⟩ :=
      ihrest h (fun p hp => hpaths p (List.mem_cons_of_mem _ hp)) horderHere
    refine ⟨horder, fun name hn => hkept _ (Names.mem_add.2 (.inl (hkeptBelow name hn))), ?_⟩
    intro p hp
    rcases List.mem_cons.1 hp with rfl | hp
    · exact ⟨f, hfind, hkept _ (Names.mem_add.2 (.inr rfl))⟩
    · exact hcovers p hp

/-- A text is resolved exactly if the search for what it needs is successful. -/
theorem resolve_eq_ok_iff {lib : Library} {text : String} {resolved : Resolved} :
    lib.resolve text = .ok resolved ↔
      lib.needs [] (QueryWeave.spreadPaths (scanText text).lexemes) [] = .ok resolved.used ∧
        resolved.text = String.ofList (resolveSpreads (scanText text)) := by
  obtain ⟨written, listed⟩ := resolved
  rw [resolve]
  cases lib.needs [] (QueryWeave.spreadPaths (scanText text).lexemes) [] with
  | error e => simp [Except.map]
  | ok used => simp [Except.map, and_comm, eq_comm]

/-- It fails for the reason for which the search fails. -/
theorem resolve_eq_error_iff {lib : Library} {text : String} {e : CompileError} :
    lib.resolve text = .error e ↔
      lib.needs [] (QueryWeave.spreadPaths (scanText text).lexemes) [] = .error e := by
  rw [resolve]
  cases lib.needs [] (QueryWeave.spreadPaths (scanText text).lexemes) [] <;> simp [Except.map]

/-- What resolution gives for a text: the text with its paths renamed, and the flat names of all
that it needs. -/
theorem dependenciesFirst_of_resolve {lib : Library} {text : String} {resolved : Resolved}
    (h : lib.resolve text = .ok resolved) :
    resolved.text = String.ofList (resolveSpreads (scanText text)) ∧
      lib.DependenciesFirst resolved.used ∧
      lib.Covers resolved.used (QueryWeave.spreadPaths (scanText text).lexemes) := by
  obtain ⟨hneeds, htext⟩ := resolve_eq_ok_iff.1 h
  obtain ⟨horder, -, hcovers⟩ := needs_spec hneeds isSpreadName_flattenPath .nil
  exact ⟨htext, horder, hcovers⟩

/-- A resolved text is read as its row, with the paths in it written flat. -/
theorem scan_resolved {lib : Library} {text : String} {resolved : Resolved}
    (h : lib.resolve text = .ok resolved) :
    scanText resolved.text =
      ⟨respread Spread.resolved (scanText text).lexemes, (scanText text).trailer⟩ := by
  have hflattened : Flattened Spread.resolved (scanText text) := flattened_resolved _
  rw [(dependenciesFirst_of_resolve h).1, scanText, String.toList_ofList, resolveSpreads_eq]
  exact hflattened.scans

/-! ## Lists in the order of resolution -/

theorem DependenciesFirst.nodup {lib : Library} {listed : List String}
    (h : lib.DependenciesFirst listed) : listed.Nodup := by
  induction h with
  | nil => exact List.nodup_nil
  | @snoc listed f _ _ hnew _ _ ih =>
    rw [List.nodup_append]
    refine ⟨ih, by simp, fun name hname other hother heq => ?_⟩
    rw [List.mem_singleton] at hother
    exact hnew (hother ▸ heq ▸ hname)

/-- Every name listed is the flat name of a fragment whose spreads are covered. -/
theorem DependenciesFirst.fragment {lib : Library} {listed : List String}
    (h : lib.DependenciesFirst listed) : ∀ name ∈ listed,
      ∃ f, lib.find? name = some f ∧ f.flatName = name ∧ IsSpreadName name ∧
        lib.Covers listed f.spreadPaths := by
  induction h with
  | nil => simp
  | @snoc listed f _ hfind _ hon hcovers ih =>
    intro name hname
    -- A name was listed before, or it is the last one; a longer list covers what a shorter one did
    rcases List.mem_append.1 hname with hname | hname
    · obtain ⟨g, hg, hgname, hgon, hgcovers⟩ := ih name hname
      exact ⟨g, hg, hgname, hgon, hgcovers.mono fun _ => List.mem_append_left _⟩
    · rw [List.mem_singleton] at hname
      subst hname
      exact ⟨f, hfind, rfl, hon, hcovers.mono fun _ => List.mem_append_left _⟩

/-- The word that begins a type condition is the name of no fragment listed. -/
theorem DependenciesFirst.on_not_mem {lib : Library} {listed : List String}
    (h : lib.DependenciesFirst listed) : "on" ∉ listed := by
  intro hmem
  obtain ⟨-, -, -, hname, -⟩ := h.fragment "on" hmem
  exact hname.2 rfl

end Library

end QueryWeave
