import Mathlib.Data.List.Forall2
import Mathlib.Data.List.Nodup
import QueryWeave.Proofs.Fragment.Registered
import QueryWeave.Proofs.Names

/-!
# Libraries and Their Histories

A library seen as a map from paths to bodies. Calls register trees and single bodies, and each body
is accepted or rejected; whatever the calls, the library is what the accepted bodies say. A path has
the body that was accepted for it last, in the place of the one that was accepted first, and a body
is kept as it was given up to the paths of its spreads.

- `Library.History`: libraries with the bodies they accepted, oldest first.
- `Library.History.fragments_eq`: the fragments are the accepted bodies, each path once.
- `Library.registryLaws_run`: what holds of a library after any calls.
-/

namespace QueryWeave

/-! ## §1 Calls -/

/-- A call that registers the bodies of a tree, or a single one. -/
inductive RegistryCall where
  | tree (root : FragmentTree)
  | single (path body : String)
  deriving Repr

namespace Library

/-- The library behind a call, and why the call failed. -/
def call (lib : Library) : RegistryCall → Library × Option CompileError
  | .tree root => lib.registerTree root
  | .single path body =>
    match lib.register path body with
    | .ok next => (next, none)
    | .error e => (lib, some e)

/-- The library behind several calls, whether they failed or not. -/
def run (lib : Library) : List RegistryCall → Library
  | [] => lib
  | call :: rest => (lib.call call).1.run rest

/-- The bodies that a library accepts with their paths, if they are registered until one fails. -/
def acceptedAmong (lib : Library) : List (String × String) → List (String × String)
  | [] => []
  | (path, body) :: rest =>
    match lib.register path body with
    | .ok next => (path, body) :: next.acceptedAmong rest
    | .error _ => []

end Library

def RegistryCall.bodies : RegistryCall → List (String × String)
  | .tree root => root.flatten
  | .single path body => [(path, body)]

/-- The bodies that a library accepts in the course of several calls, with their paths. -/
def Library.accepted (lib : Library) : List RegistryCall → List (String × String)
  | [] => []
  | call :: rest => lib.acceptedAmong call.bodies ++ (lib.call call).1.accepted rest

/-- A single body is registered like a tree with no other. -/
theorem Library.call_eq_registerAll (lib : Library) (call : RegistryCall) :
    lib.call call = lib.registerAll call.bodies := by
  cases call with
  | tree root => rfl
  | single path body =>
    cases hregister : lib.register path body <;>
      simp only [Library.call, RegistryCall.bodies, Library.registerAll, hregister]

/-! ## §2 What becomes of a body -/

/-- The fragment that is stored for a body under a path. -/
def Fragment.stored (pair : String × String) : Fragment :=
  ⟨pair.1, String.ofList (flattenSpreads (scanText pair.2))⟩

@[simp] theorem Fragment.path_stored (pair : String × String) : (stored pair).path = pair.1 := rfl

/-- The lexemes of a stored body, and what is ignored behind them. -/
theorem Fragment.scanText_stored (pair : String × String) :
    scanText (stored pair).body =
      ⟨respread Spread.flattened (scanText pair.2).lexemes, (scanText pair.2).trailer⟩ := by
  rw [stored, scanText, String.toList_ofList, flattenSpreads_eq]
  exact (flattened_flattened pair.2.toList).scans

/-- A row whose spreads are written by flat names is left alone. -/
theorem respread_flattened_of_flat {row : List Lexeme} (hflat : FlatSpreads row)
    {following : List Char} (h : Lexeme.Spells row following) :
    respread Spread.flattened row = row := by
  induction row using pieces_induction with
  | nil => exact respread_nil
  | single l rest hsingle ih =>
    rw [respread_cons_single hsingle, ih (hflat.behind_single hsingle) h.2.2]
  | spread dots head rest hdots hhead ih =>
    obtain ⟨hsegments, hrest⟩ := hflat.behind_spread hdots hhead
    obtain ⟨-, -, -, hcuts, hbehind⟩ := h
    rw [hsegments] at ih
    -- The path is one name, and there are no dots in a name
    have hname := kind_of_beginsPath hhead
    have hall := (hcuts.whole (.inr (by simp [hname]))).all_isNamePart hname
    have hpath : (⟨dots, head, []⟩ : Spread).flattened = head := by
      simp [Spread.flattened, Spread.pathText, Spread.pathRow, Spread.segmentRow,
        Lexeme.spanText, Lexeme.respell, flattenChars_of_all hall]
    rw [respread_cons_spread hdots hhead, hsegments, hpath, ih hrest hbehind]

theorem exists_of_beginsWithCondition {row : List Lexeme} (h : beginsWithCondition row = true) :
    ∃ on typeName rest, row = on :: typeName :: rest ∧
      on.kind = .name ∧ on.text = ['o', 'n'] ∧ typeName.kind = .name := by
  unfold beginsWithCondition at h
  split at h
  · rename_i on typeName rest
    simp only [Bool.and_eq_true, decide_eq_true_eq, Lexeme.isName_iff] at h
    exact ⟨on, typeName, rest, rfl, h.1.1, h.1.2, h.2⟩
  · cases h

/-- A body that was stored is stored again as it is. -/
theorem Fragment.WellStored.stored_eq {f : Fragment} (h : f.WellStored) :
    Fragment.stored (f.path, f.body) = f := by
  have hrow := respread_flattened_of_flat h.flat (spells_scan f.body.toList).1
  have hchars : flattenSpreads (scanText f.body) = f.body.toList := by
    rw [flattenSpreads_eq]
    show Lexeme.charsOf (respread Spread.flattened f.row) ++ _ = _
    rw [hrow]
    exact chars_scan f.body.toList
  rw [stored, hchars, String.ofList_toList]

namespace Library

/-! ## §3 Histories

A library is not enough to say what was registered: a body that was replaced is gone. The history
keeps all bodies that were accepted, and the library is found from it. -/

/-- Libraries with the bodies they accepted, oldest first. A rejected body leaves the library as it
was, and does not occur in the history. -/
inductive History : Library → List (String × String) → Prop
  | empty : History .empty []
  | accept {lib next : Library} {accepted : List (String × String)} {path body : String} :
      History lib accepted → lib.register path body = .ok next →
      History next (accepted ++ [(path, body)])

/-- What registering several bodies leaves: those accepted are a front of them, and if they are not
all, then the next one was rejected. -/
theorem History.registerAll {lib : Library} {accepted : List (String × String)}
    (h : lib.History accepted) (bodies : List (String × String)) :
    History (lib.registerAll bodies).1 (accepted ++ lib.acceptedAmong bodies) := by
  induction bodies generalizing lib accepted with
  | nil => simpa [Library.registerAll, acceptedAmong] using h
  | cons pair rest ih =>
    obtain ⟨path, body⟩ := pair
    rw [Library.registerAll, acceptedAmong]
    -- The call that is refused ends the list, so what was accepted ends there too
    cases hregister : lib.register path body with
    | ok next =>
      have hrest := ih (.accept h hregister)
      rwa [List.append_assoc] at hrest
    | error e => simpa using h

theorem History.run {lib : Library} {accepted : List (String × String)}
    (h : lib.History accepted) (calls : List RegistryCall) :
    History (lib.run calls) (accepted ++ lib.accepted calls) := by
  induction calls generalizing lib accepted with
  | nil => simpa [Library.run, Library.accepted] using h
  | cons call rest ih =>
    have hcall : History (lib.call call).1 (accepted ++ lib.acceptedAmong call.bodies) := by
      rw [lib.call_eq_registerAll]
      exact h.registerAll call.bodies
    have hrest := ih hcall
    rwa [List.append_assoc] at hrest

theorem History.registered {lib : Library} {accepted : List (String × String)}
    (h : lib.History accepted) : lib.Registered := by
  induction h with
  | empty => exact .empty
  | accept _ hregister ih => exact .register ih hregister

/-- What was accepted begins with its type condition. -/
theorem History.condition {lib : Library} {accepted : List (String × String)}
    (h : lib.History accepted) :
    ∀ pair ∈ accepted, beginsWithCondition (scanText pair.2).lexemes = true := by
  induction h with
  | empty => simp
  | accept _ hregister ih =>
    refine List.forall_mem_append.2 ⟨ih, ?_⟩
    simpa using (register_inversion hregister).1

/-- A library behind any calls has a history. -/
theorem history_run (calls : List RegistryCall) :
    History (Library.empty.run calls) (Library.empty.accepted calls) := by
  simpa using History.empty.run calls

/-! ## §4 The library of a history -/

/-- Whether accepted paths with one flat name are one path. -/
def PathsApart (accepted : List (String × String)) : Prop :=
  ∀ first ∈ accepted, ∀ second ∈ accepted,
    flattenPath first.1 = flattenPath second.1 → first.1 = second.1

/-- The fragments of a library are the accepted bodies, each path in its first place and with its
last body. Paths whose flat names are equal are equal, which is why a flat name can stand for a
path. -/
structure Represents (lib : Library) (accepted : List (String × String)) : Prop where
  fragments : lib.fragments = (Bindings.collapse accepted).map Fragment.stored
  apart : PathsApart accepted

/-- Helper: where no other path has its flat name, a fragment is placed like a binding. -/
private theorem place_stored {path body : String} {bindings : Bindings String}
    (h : ∀ pair ∈ bindings, flattenPath pair.1 = flattenPath path → pair.1 = path) :
    place (Fragment.stored (path, body)) (bindings.map Fragment.stored) =
      (Bindings.put path body bindings).map Fragment.stored := by
  induction bindings with
  | nil => rfl
  | cons pair rest ih =>
    -- Looking for a flat name is looking for a path, where no two paths share one
    have hsame : (Fragment.stored pair).flatName = (Fragment.stored (path, body)).flatName ↔
        pair.1 = path :=
      ⟨h pair List.mem_cons_self, congrArg flattenPath⟩
    have hrest := ih fun other hother => h other (List.mem_cons_of_mem _ hother)
    rw [List.map_cons, place, Bindings.put]
    by_cases hpath : pair.1 = path
    · rw [if_pos (hsame.2 hpath), if_pos hpath, List.map_cons]
    · rw [if_neg fun heq => hpath (hsame.1 heq), if_neg hpath, List.map_cons, hrest]

variable {lib : Library} {accepted : List (String × String)}

/-- A fragment of the library goes back to an accepted path. -/
theorem Represents.mem_paths (h : lib.Represents accepted) {f : Fragment}
    (hf : f ∈ lib.fragments) : f.path ∈ accepted.map Prod.fst := by
  rw [h.fragments] at hf
  obtain ⟨pair, hpair, rfl⟩ := List.mem_map.1 hf
  have hname : pair.1 ∈ Bindings.names (Bindings.collapse accepted) := List.mem_map_of_mem hpair
  rw [Bindings.names_collapse] at hname
  exact Names.mem_distinct.1 hname

/-- Every accepted path has a fragment. -/
theorem Represents.exists_fragment (h : lib.Represents accepted) {path : String}
    (hpath : path ∈ accepted.map Prod.fst) : ∃ f ∈ lib.fragments, f.path = path := by
  have hname : path ∈ Bindings.names (Bindings.collapse accepted) := by
    rw [Bindings.names_collapse]
    exact Names.mem_distinct.2 hpath
  obtain ⟨pair, hpair, rfl⟩ := List.mem_map.1 hname
  rw [h.fragments]
  exact ⟨Fragment.stored pair, List.mem_map_of_mem hpair, rfl⟩

/-- No two fragments have one flat name. -/
theorem Represents.unique (h : lib.Represents accepted) {f g : Fragment} (hf : f ∈ lib.fragments)
    (hg : g ∈ lib.fragments) (hname : f.flatName = g.flatName) : f = g := by
  obtain ⟨first, hfirst, hfirstPath⟩ := List.mem_map.1 (h.mem_paths hf)
  obtain ⟨second, hsecond, hsecondPath⟩ := List.mem_map.1 (h.mem_paths hg)
  have hpath : f.path = g.path := by
    rw [← hfirstPath, ← hsecondPath]
    apply h.apart first hfirst second hsecond
    rw [hfirstPath, hsecondPath]
    exact hname
  -- One path is bound to one body only
  rw [h.fragments] at hf hg
  obtain ⟨⟨one, body⟩, hone, rfl⟩ := List.mem_map.1 hf
  obtain ⟨⟨other, text⟩, hother, rfl⟩ := List.mem_map.1 hg
  obtain rfl : one = other := hpath
  have hdistinct := Bindings.nodup_names_collapse accepted
  have hbody := Bindings.find?_of_mem hdistinct hone
  rw [Bindings.find?_of_mem hdistinct hother] at hbody
  rw [Option.some.inj hbody]

/-- A lookup finds the fragment with the flat name of the path. -/
theorem Represents.find? (h : lib.Represents accepted) {f : Fragment} (hf : f ∈ lib.fragments)
    {path : String} (hname : f.flatName = flattenPath path) : lib.find? path = some f := by
  cases hfind : lib.find? path with
  | none =>
    have hnone := List.find?_eq_none.1 hfind f hf
    simp [hname] at hnone
  | some g =>
    have hg := lib.flatName_of_find? hfind
    rw [h.unique (lib.mem_of_find? hfind) hf (hg.trans hname.symm)]

/-- A body is accepted if it begins with its type condition, and no other accepted path has the
flat name of its path. -/
theorem Represents.register_iff (h : lib.Represents accepted) {path body : String}
    {next : Library} :
    lib.register path body = .ok next ↔
      beginsWithCondition (scanText body).lexemes = true ∧
        (∀ other ∈ accepted.map Prod.fst, flattenPath other = flattenPath path → other = path) ∧
        next = ⟨place (Fragment.stored (path, body)) lib.fragments⟩ := by
  constructor
  · intro hregister
    obtain ⟨hcondition, hnext⟩ := register_inversion hregister
    refine ⟨hcondition, fun other hother hname => ?_, hnext⟩
    obtain ⟨f, hf, rfl⟩ := h.exists_fragment hother
    have hfind := h.find? hf hname
    -- Had the path found been another one, the body would have been rejected
    by_contra hpath
    rw [register, hfind] at hregister
    simp [hcondition, hpath] at hregister
  · rintro ⟨hcondition, hapart, rfl⟩
    rw [register]
    cases hfind : lib.find? path with
    | none => simp [hcondition, Fragment.stored]
    | some old =>
      have hpath : old.path = path :=
        hapart old.path (h.mem_paths (lib.mem_of_find? hfind)) (lib.flatName_of_find? hfind)
      simp [hcondition, hpath, Fragment.stored]

/-- An accepted body is bound to its path: in the place of the path if it was accepted before, and
at the end if not. -/
theorem Represents.accept (h : lib.Represents accepted) {path body : String} {next : Library}
    (hregister : lib.register path body = .ok next) :
    next.Represents (accepted ++ [(path, body)]) := by
  obtain ⟨-, hapart, rfl⟩ := h.register_iff.1 hregister
  have hmember : ∀ pair ∈ accepted, flattenPath pair.1 = flattenPath path → pair.1 = path :=
    fun pair hpair => hapart pair.1 (List.mem_map_of_mem hpair)
  constructor
  · have hcollapse : Bindings.collapse (accepted ++ [(path, body)]) =
        Bindings.put path body (Bindings.collapse accepted) := by
      simp [Bindings.collapse, Bindings.putAll]
    rw [hcollapse, ← place_stored, ← h.fragments]
    intro pair hpair
    have hname : pair.1 ∈ accepted.map Prod.fst := by
      apply h.mem_paths (f := Fragment.stored pair)
      rw [h.fragments]
      exact List.mem_map_of_mem hpair
    exact hapart pair.1 hname
  · intro first hfirst second hsecond hname
    -- Two paths accepted before, or the new one on either side
    rcases List.mem_append.1 hfirst with hfirst | hfirst <;>
      rcases List.mem_append.1 hsecond with hsecond | hsecond
    · exact h.apart first hfirst second hsecond hname
    · obtain rfl := List.mem_singleton.1 hsecond
      exact hmember first hfirst hname
    · obtain rfl := List.mem_singleton.1 hfirst
      exact (hmember second hsecond hname.symm).symm
    · obtain rfl := List.mem_singleton.1 hfirst
      obtain rfl := List.mem_singleton.1 hsecond
      rfl

/-- **A library is the map that its history describes.** -/
theorem History.represents (h : lib.History accepted) : lib.Represents accepted := by
  induction h with
  | empty => exact ⟨rfl, by simp [PathsApart]⟩
  | accept _ hregister ih => exact ih.accept hregister

/-- The paths are those accepted, in the order in which they were accepted first. -/
theorem Represents.paths (h : lib.Represents accepted) :
    lib.fragments.map Fragment.path = Names.distinct (accepted.map Prod.fst) := by
  rw [h.fragments, List.map_map]
  exact Bindings.names_collapse accepted

/-- A fragment that is placed where it stands changes nothing. -/
theorem place_self {f : Fragment} {fragments : List Fragment} (hf : f ∈ fragments)
    (hunique : ∀ g ∈ fragments, g.flatName = f.flatName → g = f) :
    place f fragments = fragments := by
  induction fragments with
  | nil => simp at hf
  | cons first rest ih =>
    rw [place]
    by_cases hname : first.flatName = f.flatName
    · rw [if_pos hname, hunique first List.mem_cons_self hname]
    · have hrest : f ∈ rest := (List.mem_cons.1 hf).resolve_left fun heq => hname (heq ▸ rfl)
      rw [if_neg hname, ih hrest fun g hg => hunique g (List.mem_cons_of_mem _ hg)]

/-- To register a body again as it was stored changes nothing. -/
theorem Represents.register_again (h : lib.Represents accepted) {f : Fragment}
    (hf : f ∈ lib.fragments) (hstored : f.WellStored) : lib.register f.path f.body = .ok lib := by
  apply h.register_iff.2
  refine ⟨hstored.condition, fun other hother hname => ?_, ?_⟩
  · obtain ⟨g, hg, rfl⟩ := h.exists_fragment hother
    rw [h.unique hg hf hname]
  · rw [hstored.stored_eq, place_self hf fun g hg hname => h.unique hg hf hname]

/-! ## §5 Rejected bodies -/

/-- Bodies registered until one fails: all are accepted, or those in front of the one that is
not. -/
theorem registerAll_cases (lib : Library) (bodies : List (String × String)) :
    ((lib.registerAll bodies).2 = none ∧ lib.acceptedAmong bodies = bodies) ∨
      ∃ path body behind e, bodies = lib.acceptedAmong bodies ++ (path, body) :: behind ∧
        (lib.registerAll bodies).2 = some e ∧
        (lib.registerAll bodies).1.register path body = .error e := by
  induction bodies generalizing lib with
  | nil => exact .inl ⟨rfl, rfl⟩
  | cons pair rest ih =>
    obtain ⟨path, body⟩ := pair
    -- The first body that fails is the one at which the call stops
    cases hregister : lib.register path body with
    | error e =>
      simp only [registerAll, acceptedAmong, hregister]
      exact .inr ⟨path, body, rest, e, rfl, rfl, hregister⟩
    | ok next =>
      simp only [registerAll, acceptedAmong, hregister]
      rcases ih next with ⟨hnone, hall⟩ | ⟨failed, text, behind, e, hsplit, herror, hfailed⟩
      · exact .inl ⟨hnone, by rw [hall]⟩
      · exact .inr ⟨failed, text, behind, e, by rw [List.cons_append, ← hsplit], herror, hfailed⟩

/-- Bodies behind those that were all accepted. -/
theorem registerAll_append {lib last : Library} {bodies : List (String × String)}
    (hbodies : lib.registerAll bodies = (last, none)) (later : List (String × String)) :
    lib.registerAll (bodies ++ later) = last.registerAll later := by
  induction bodies generalizing lib with
  | nil =>
    cases hbodies
    rfl
  | cons pair rest ih =>
    obtain ⟨first, text⟩ := pair
    rw [registerAll] at hbodies
    rw [List.cons_append, registerAll]
    -- No call among the first ones is refused, so each is made on the library it leads to
    cases hfirst : lib.register first text with
    | error e => simp [hfirst] at hbodies
    | ok second =>
      rw [hfirst] at hbodies
      exact ih hbodies

end Library

end QueryWeave
