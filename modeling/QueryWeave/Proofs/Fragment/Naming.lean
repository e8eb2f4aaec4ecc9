import QueryWeave.Proofs.Fragment.History
import QueryWeave.Proofs.Fragment.Reachable

/-!
# Fragments by Name

A fragment goes by two names: the path it was registered under, and its flat name. Those are the
names that lookups are to accept. A lookup flattens whatever it is given, so it accepts every name
that flattens to the flat name of a fragment, with dots and underscores exchanged at will.
Registration tells such paths apart, and rejects the second one; lookups do not.

- `plainPath_iff`: the paths that have no other spelling than these two names.
- `Library.LeadsTo`: what it is for a name to lead to the fragment that is called by it.
- `Library.namingLaws_run`: what a name leads to after any calls, and when it is a name of the
  fragment.
-/

namespace QueryWeave

/-! ## §1 Spellings of a path

A path has joints, which are dots or underscores, and flattening makes them all the same. So the
names that lead to a path are its spellings with other joints. -/

/-- Whether a character joins the parts of a path or of a flat name. -/
def isJoint (c : Char) : Bool :=
  c = '.' || c = '_'

/-- Whether a path is a name without underscores, or two of them joined by a dot. All other paths
share their flat name with a text that is neither the path nor the flat name. -/
def PlainPath (path : String) : Prop :=
  path.toList.filter isJoint = [] ∨ path.toList.filter isJoint = ['.']

/-- Only a text without underscores flattens to one. -/
theorem eq_of_flattenChars_eq {cs other : List Char} (h : '_' ∉ cs)
    (hflat : flattenChars other = cs) : other = cs := by
  have hdot : '.' ∉ other := by
    intro hmem
    apply h
    rw [← hflat]
    exact List.mem_map.2 ⟨'.', hmem, rfl⟩
  rwa [flattenChars_of_no_dot hdot] at hflat

/-- Helper: there are no dots and no underscores where there is no joint. -/
private theorem no_dot_no_underscore {cs : List Char} (h : ∀ c ∈ cs, ¬isJoint c = true) :
    '.' ∉ cs ∧ '_' ∉ cs :=
  ⟨fun hmem => h _ hmem rfl, fun hmem => h _ hmem rfl⟩

/-- Helper: a text with one joint, a dot, has two spellings. -/
private theorem spellings_of_dot {front behind other : List Char} (hfront : '_' ∉ front)
    (hbehind : '_' ∉ behind) (h : flattenChars other = front ++ '_' :: behind) :
    other = front ++ '.' :: behind ∨ other = front ++ '_' :: behind := by
  obtain ⟨first, rest, rfl, hfirst, hrest⟩ := List.map_eq_append_iff.1 h
  obtain ⟨c, last, rfl, hc, hlast⟩ := List.map_eq_cons_iff.1 hrest
  rw [eq_of_flattenChars_eq hfront hfirst, eq_of_flattenChars_eq hbehind hlast]
  by_cases hdot : c = '.'
  · exact .inl (by rw [hdot])
  · rw [if_neg hdot] at hc
    exact .inr (by rw [hc])

/-- Helper: a text has a third spelling if its first joint is an underscore, or a dot with another
joint behind it. -/
private theorem exists_spelling {cs : List Char}
    (h : ¬(cs.filter isJoint = [] ∨ cs.filter isJoint = ['.'])) :
    ∃ other, flattenChars other = flattenChars cs ∧ other ≠ cs ∧ other ≠ flattenChars cs := by
  obtain ⟨hsome, hdots⟩ := not_or.1 h
  obtain ⟨joint, more, hjoints⟩ := List.exists_cons_of_ne_nil hsome
  obtain ⟨front, behind, rfl, hfront, hjoint, hmore⟩ := List.filter_eq_cons_iff.1 hjoints
  have hflat := flattenChars_of_no_dot (no_dot_no_underscore hfront).1
  simp only [isJoint, Bool.or_eq_true, decide_eq_true_eq] at hjoint
  rcases hjoint with rfl | rfl
  · -- The second joint is where the spelling differs from the flat name
    obtain ⟨second, last, rfl⟩ : ∃ second last, more = second :: last := by
      apply List.exists_cons_of_ne_nil
      rintro rfl
      exact hdots hjoints
    obtain ⟨middle, rest, rfl, hmiddle, hsecond, -⟩ := List.filter_eq_cons_iff.1 hmore
    have hflat' := flattenChars_of_no_dot (no_dot_no_underscore hmiddle).1
    have hsecond' : (if second = '.' then '_' else second) = '_' := by
      simp only [isJoint, Bool.or_eq_true, decide_eq_true_eq] at hsecond
      rcases hsecond with rfl | rfl <;> rfl
    refine ⟨front ++ '_' :: (middle ++ '.' :: rest), ?_, ?_, ?_⟩
    · simp [flattenChars, hsecond']
    · simp
    · have htext : flattenChars (front ++ '.' :: (middle ++ second :: rest)) =
          front ++ '_' :: (middle ++ '_' :: flattenChars rest) := by
        rw [flattenChars_append, hflat, flattenChars_cons, flattenChars_append, hflat',
          flattenChars_cons, hsecond', if_pos rfl]
      rw [htext]
      simp
  · refine ⟨front ++ '.' :: behind, by simp [flattenChars], by simp, ?_⟩
    rw [flattenChars_append, hflat]
    simp [flattenChars]

/-- **The paths that nothing flattens to but themselves and their flat names.** Such a path has one
dot at the most and no underscore. In any other path a joint can be exchanged, which gives a third
name for it. -/
theorem plainPath_iff (path : String) :
    PlainPath path ↔ ∀ name, flattenPath name = flattenPath path →
      name = path ∨ name = flattenPath path := by
  constructor
  · intro hplain name hname
    have hchars : flattenChars name.toList = flattenChars path.toList := by
      simpa [flattenPath] using congrArg String.toList hname
    -- Without a joint nothing else flattens to the path; with one dot, only its flat name does
    rcases hplain with hnone | hone
    · have hno := no_dot_no_underscore (List.filter_eq_nil_iff.1 hnone)
      rw [flattenChars_of_no_dot hno.1] at hchars
      exact .inl (String.toList_inj.1 (eq_of_flattenChars_eq hno.2 hchars))
    · obtain ⟨front, behind, hpath, hfront, -, hrest⟩ := List.filter_eq_cons_iff.1 hone
      have hfront := no_dot_no_underscore hfront
      have hbehind := no_dot_no_underscore (List.filter_eq_nil_iff.1 hrest)
      have hflat : flattenChars path.toList = front ++ '_' :: behind := by
        rw [hpath, flattenChars_append, flattenChars_of_no_dot hfront.1]
        exact congrArg (front ++ '_' :: ·) (flattenChars_of_no_dot hbehind.1)
      rw [hflat] at hchars
      refine (spellings_of_dot hfront.2 hbehind.2 hchars).imp (fun heq => ?_) fun heq => ?_
      · exact String.toList_inj.1 (heq.trans hpath.symm)
      · exact String.toList_inj.1 (by rw [heq, flattenPath, String.toList_ofList, hflat])
  · intro hnames
    -- Any other path has a third spelling, which the lookup takes for it
    by_contra hplain
    obtain ⟨other, hflat, hne, hne'⟩ := exists_spelling hplain
    rcases hnames (String.ofList other) (by simp [flattenPath, hflat]) with heq | heq
    · exact hne (by rw [← heq, String.toList_ofList])
    · exact hne' (by simpa [flattenPath] using congrArg String.toList heq)

/-! ## §2 Names of fragments -/

/-- Whether a name is one of a fragment: the path it was registered under, or its flat name. -/
def Fragment.NamedBy (f : Fragment) (name : String) : Prop :=
  name = f.path ∨ name = f.flatName

/-- A name of a fragment flattens to its flat name. -/
theorem Fragment.NamedBy.flatName_eq {f : Fragment} {name : String} (h : f.NamedBy name) :
    f.flatName = flattenPath name := by
  rcases h with rfl | rfl
  · rfl
  · exact (flattenPath_flatName f).symm

namespace Library

/-- Whether a name leads to the fragment that is called by it, and to nothing else. All ways to ask
for a fragment are covered: by lookup, by definition, and by a spread in a text. -/
structure LeadsTo (lib : Library) (name : String) (called : Fragment → Prop) : Prop where
  /-- A lookup finds the fragment. -/
  find : ∀ f, lib.find? name = some f ↔ f ∈ lib.fragments ∧ called f
  /-- Its definition is given. -/
  get : ∀ text, lib.definition name = .ok text ↔
    ∃ f ∈ lib.fragments, called f ∧ text = f.definition
  /-- Where there is none, the name is reported as missing, as it was given. -/
  missing : ∀ e, lib.definition name = .error e ↔
    (∀ f ∈ lib.fragments, ¬called f) ∧ e = .fragmentNotFound name
  /-- So it is when a text spreads it. -/
  spread : ∀ text rest, pathsSpread text = name :: rest →
    (lib.resolve text = .error (.fragmentNotFound name) ↔ ∀ f ∈ lib.fragments, ¬called f)
  /-- A text that is resolved gets the fragment, and spreads it by its flat name. -/
  resolved : ∀ text result, lib.resolve text = .ok result → name ∈ pathsSpread text →
    ∃ f ∈ lib.fragments, called f ∧ f.flatName ∈ result.used ∧
      f.flatName ∈ pathsSpread result.text

/-- What is to be expected of a name: it leads to the fragment that has it as its path or as its
flat name. -/
def ResolvesByName (lib : Library) (name : String) : Prop :=
  lib.LeadsTo name fun f => f.NamedBy name

/-! ## §3 What names lead to -/

variable {lib : Library} {accepted : List (String × String)} {name : String}

/-- A text whose first spread leads nowhere is not resolved for that reason. -/
theorem resolve_eq_missing_iff (lib : Library) {text : String} {rest : List String}
    (hspread : pathsSpread text = name :: rest) :
    lib.resolve text = .error (.fragmentNotFound name) ↔ lib.find? name = none := by
  constructor
  · exact fun hresolve => ((lib.closureLaws_resolve text).missing name hresolve).2
  · intro hnone
    have hneeds : lib.needs [] (pathsSpread text) [] = .error (.fragmentNotFound name) := by
      rw [hspread, needs_of_none hnone]
    exact congrArg (Except.map _) hneeds

/-- All that is said about a name goes back to its lookup. Definitions, errors and spreads follow
from what is found, so the naming laws need to speak of lookups only. -/
theorem leadsTo_of_find? {called : Fragment → Prop}
    (h : ∀ f, lib.find? name = some f ↔ f ∈ lib.fragments ∧ called f) :
    lib.LeadsTo name called := by
  have hnone : lib.find? name = none ↔ ∀ f ∈ lib.fragments, ¬called f := by
    rw [Option.eq_none_iff_forall_ne_some]
    exact forall_congr' fun f => by rw [ne_eq, h, not_and]
  -- Definitions and spreads look a name up and do nothing else with it
  constructor
  case find => exact h
  case get =>
    intro text
    rw [definition_eq_ok_iff]
    exact exists_congr fun f => by rw [h, and_assoc]
  case missing =>
    intro e
    rw [definition_eq_error_iff, hnone]
  case spread =>
    intro text rest hspread
    rw [lib.resolve_eq_missing_iff hspread, hnone]
  case resolved =>
    intro text result hresolve hname
    obtain ⟨f, hfind, hused⟩ := (dependenciesFirst_of_resolve hresolve).2.2 name hname
    obtain ⟨hf, hcalled⟩ := (h f).1 hfind
    refine ⟨f, hf, hcalled, hused, ?_⟩
    rw [pathsSpread_resolved hresolve, lib.flatName_of_find? hfind]
    exact List.mem_map_of_mem hname

/-- A name leads to the fragment whose flat name it flattens to. -/
theorem Represents.leadsTo (h : lib.Represents accepted) (name : String) :
    lib.LeadsTo name fun f => f.flatName = flattenPath name :=
  leadsTo_of_find? fun _ =>
    ⟨fun hfind => ⟨lib.mem_of_find? hfind, lib.flatName_of_find? hfind⟩,
      fun hf => h.find? hf.1 hf.2⟩

/-- That is as expected exactly if the fragment is called by the name. -/
theorem Represents.resolvesByName_iff (h : lib.Represents accepted) (name : String) :
    lib.ResolvesByName name ↔
      ∀ f ∈ lib.fragments, f.flatName = flattenPath name → f.NamedBy name := by
  constructor
  · intro hexpected f hf hname
    exact ((hexpected.find f).1 (h.find? hf hname)).2
  · intro hnamed
    apply leadsTo_of_find?
    intro f
    rw [(h.leadsTo name).find]
    exact and_congr_right fun hf => ⟨hnamed f hf, Fragment.NamedBy.flatName_eq⟩

/-- What names lead to in a library. The first two laws say what is found. The last two compare this
with what is to be expected, name by name and for all names at once. -/
structure NamingLaws (lib : Library) : Prop where
  /-- A name leads to the fragment whose flat name it flattens to. -/
  leads : ∀ name, lib.LeadsTo name fun f => f.flatName = flattenPath name
  /-- The names of a fragment lead to it. -/
  named : ∀ f ∈ lib.fragments, ∀ name, f.NamedBy name → lib.find? name = some f
  /-- The expectation is met by a name exactly if the fragment that it leads to is called by it. -/
  expected : ∀ name, lib.ResolvesByName name ↔
    ∀ f ∈ lib.fragments, f.flatName = flattenPath name → f.NamedBy name
  /-- It is met by every name exactly if all fragments have plain paths. -/
  always : (∀ name, lib.ResolvesByName name) ↔ ∀ f ∈ lib.fragments, PlainPath f.path

/-- **After any calls a name leads to the fragment whose flat name it flattens to**, be it a name of
the fragment or not. -/
theorem namingLaws_run (calls : List RegistryCall) : NamingLaws (Library.empty.run calls) := by
  have hmap := (history_run calls).represents
  generalize Library.empty.run calls = lib at hmap
  constructor
  case leads => exact hmap.leadsTo
  case named => exact fun f hf name hname => hmap.find? hf hname.flatName_eq
  case expected => exact hmap.resolvesByName_iff
  case always =>
    simp only [hmap.resolvesByName_iff, plainPath_iff]
    constructor
    · exact fun h f hf name hname => h name f hf hname.symm
    · exact fun h name f hf hname => h f hf name hname.symm

/-- A path that is rejected beside another one leads to the other one. -/
theorem not_resolvesByName_collision :
    ¬(Library.empty.run [.single "a.b_c" "on A {id}"]).ResolvesByName "a_b.c" := by
  intro hexpected
  have hfind : (Library.empty.run [.single "a.b_c" "on A {id}"]).find? "a_b.c" =
      some ⟨"a.b_c", "on A {id}"⟩ := by decide +kernel
  rcases ((hexpected.find _).1 hfind).2 with hpath | hflat
  · exact absurd hpath (by decide)
  · exact absurd hflat (by decide +kernel)

end Library

end QueryWeave
