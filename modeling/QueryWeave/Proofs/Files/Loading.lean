import Mathlib.Data.Option.Basic
import QueryWeave.Proofs.Files.Leaves

/-!
# Fragments Loaded from a Directory

A file below a directory is a fragment: the way to the file, without the extension and with dots for
separators, is its path. The files are met in the order of a walk, and each body is put into the
tree at the segments of its path. A body that would come to stand below another one is refused. But
one that is put in the place of others, or above them, takes them away without a word; so a tree
holds every file exactly if the walk meets none whose place is that of an earlier file, or above it.

- `Planted`, `Blocked`: what putting in bodies one after the other comes to.
- `loadingLaws_directory`: when a tree is returned, and when it holds every file.
- `not_keeps_besideLibrary`: a library that loses a fragment.
-/

namespace QueryWeave

namespace Files

/-! ## §1 Paths and their segments -/

theorem splitAt_ne_nil (mark : Char) (cs : List Char) : splitAt mark cs ≠ [] := by
  cases cs with
  | nil => simp [splitAt]
  | cons c rest =>
    rw [splitAt]
    split
    · simp
    · split <;> simp

def segments (path : String) : List String :=
  (splitAt '.' path.toList).map String.ofList

/-- A text cut at its dots is put together again with dots in between. -/
theorem toList_intercalate_splitAt (cs : List Char) :
    (".".intercalate ((splitAt '.' cs).map String.ofList)).toList = cs := by
  induction cs with
  | nil => rfl
  | cons c rest ih =>
    obtain ⟨part, parts, hparts⟩ := List.exists_cons_of_ne_nil (splitAt_ne_nil '.' rest)
    rw [hparts] at ih
    rw [splitAt, hparts]
    split
    · rename_i hc
      subst hc
      simp only [List.map_cons] at ih ⊢
      rw [String.intercalate_cons_cons]
      simp [ih]
    · -- The character belongs to the first segment of what follows it
      cases parts with
      | nil => simpa using ih
      | cons next more =>
        simp only [List.map_cons, String.intercalate_cons_cons, String.toList_append,
          String.toList_ofList] at ih ⊢
        simp [← ih]

/-- A path is its segments with dots between them. Empty segments count, so two dots in a row are
kept. -/
theorem intercalate_segments (path : String) : ".".intercalate (segments path) = path := by
  rw [← String.toList_inj]
  exact toList_intercalate_splitAt path.toList

/-! ## §2 Fragments of files -/

/-- The fragment that a file is: the way to it without the extension, dots for separators, and its
contents without blank characters at the ends. -/
def fragmentOf? (extensions : List String) (file : List String × String) :
    Option (String × String) := do
  let name ← file.1.getLast?
  let (stem, extension) ← splitExtension name.toList
  guard (String.ofList extension ∈ extensions)
  return (".".intercalate (file.1.dropLast ++ [String.ofList stem]), Text.trim file.2)

/-- A name is cut at its last dot, unless that stands at the front. The name of two dots is the one
exception: it leads upwards, and is no file. -/
theorem splitExtension_eq_some_iff {name stem extension : List Char} :
    splitExtension name = some (stem, extension) ↔
      name = stem ++ '.' :: extension ∧ stem ≠ [] ∧ '.' ∉ extension ∧ name ≠ ['.', '.'] := by
  -- Read backwards, the extension is what stands in front of the first dot
  have hcut : name.reverse.takeWhile (· ≠ '.') ++ name.reverse.dropWhile (· ≠ '.') = name.reverse :=
    List.takeWhile_append_dropWhile
  have hpass : ∀ c ∈ name.reverse.takeWhile (· ≠ '.'), c ≠ '.' := fun c hc => by
    simpa using List.all_eq_true.1 List.all_takeWhile c hc
  have hstop := List.head?_dropWhile_not (· ≠ '.') name.reverse
  constructor
  · intro h
    unfold splitExtension at h
    dsimp only at h
    split at h
    · cases h
    · cases h
    · rename_i dot front hnot hdrop
      rw [hdrop] at hcut hstop
      have hdot : dot = '.' := by simpa using hstop
      split at h
      · cases h
      · rename_i hup
        cases h
        have hname := congrArg List.reverse hcut
        simp only [List.reverse_append, List.reverse_cons, List.reverse_reverse,
          List.append_assoc] at hname
        refine ⟨by simpa [hdot] using hname.symm, ?_, fun hmem => ?_, hup⟩
        · exact fun hnil => hnot (List.reverse_eq_nil_iff.1 hnil)
        · exact hpass '.' (List.mem_reverse.1 hmem) rfl
  · rintro ⟨rfl, hstem, hdot, hup⟩
    have hreversed : (stem ++ '.' :: extension).reverse =
        extension.reverse ++ '.' :: stem.reverse := by
      simp
    have hall : ∀ c ∈ extension.reverse, decide (c ≠ '.') = true := fun c hc => by
      rw [List.mem_reverse] at hc
      exact decide_eq_true fun heq => hdot (heq ▸ hc)
    obtain ⟨last, front, hlast⟩ := List.exists_cons_of_ne_nil (mt List.reverse_eq_nil_iff.1 hstem)
    unfold splitExtension
    dsimp only
    rw [hreversed, List.takeWhile_append_of_pos hall, List.dropWhile_append_of_pos hall]
    simp only [ne_eq, decide_not, List.takeWhile_cons, decide_true, Bool.not_true,
      Bool.false_eq_true, if_false, List.append_nil, List.reverse_reverse, List.dropWhile_cons]
    rw [hlast]
    simp [hup, ← hlast]

theorem fragmentOf?_eq_some_iff (extensions : List String) (names : List String)
    (contents : String) (fragment : String × String) :
    fragmentOf? extensions (names, contents) = some fragment ↔
      ∃ front stem extension, names = front ++ [stem ++ "." ++ extension] ∧ stem ≠ "" ∧
        '.' ∉ extension.toList ∧ stem ++ "." ++ extension ≠ ".." ∧ extension ∈ extensions ∧
        fragment = (".".intercalate (front ++ [stem]), Text.trim contents) := by
  -- How a name is split, told of texts
  have hname : ∀ {name : String} {stem extension : List Char},
      splitExtension name.toList = some (stem, extension) ↔
        name = String.ofList stem ++ "." ++ String.ofList extension ∧ stem ≠ [] ∧
          '.' ∉ extension ∧ name ≠ ".." := by
    intro name stem extension
    rw [splitExtension_eq_some_iff, ← String.toList_inj, Ne, Ne, Ne, ← String.toList_inj]
    simp
  unfold fragmentOf?
  constructor
  · intro h
    simp only [bind, Option.bind_eq_some_iff, guard, pure] at h
    obtain ⟨name, hlast, ⟨stem, extension⟩, hsplit, h⟩ := h
    obtain ⟨rfl, hstem, hdot, hup⟩ := hname.1 hsplit
    obtain ⟨front, hfront⟩ := List.getLast?_eq_some_iff.1 hlast
    by_cases hmem : String.ofList extension ∈ extensions
    · rw [if_pos hmem] at h
      obtain ⟨-, -, h⟩ := h
      cases h
      refine ⟨front, String.ofList stem, String.ofList extension, hfront, by simpa using hstem,
        by simpa using hdot, hup, hmem, ?_⟩
      rw [hfront, List.dropLast_concat]
    · rw [if_neg hmem] at h
      obtain ⟨_, h, -⟩ := h
      cases h
  · rintro ⟨front, stem, extension, rfl, hstem, hdot, hup, hmem, rfl⟩
    have hsplit := (@hname (stem ++ "." ++ extension) stem.toList extension.toList).2
      ⟨by simp, by simpa using hstem, hdot, hup⟩
    simp only [List.getLast?_concat, List.dropLast_concat, bind, Option.bind_some, hsplit,
      String.ofList_toList, guard, if_pos hmem, pure]

/-- Where the body of a file is put, and the body. -/
def leafOf? (extensions : List String) (file : List String × String) : Option Leaf :=
  (fragmentPath? extensions file.1).map fun path => (segments path, Text.trim file.2)

/-- The bodies of the files below a directory and where they are put, in the order of a walk. -/
def planted (fs : Files) (extensions directory : List String) : List Leaf :=
  (fs.below directory).filterMap (leafOf? extensions)

/-- The fragments that the files below a directory are. -/
def fragmentsBelow (fs : Files) (extensions directory : List String) : List (String × String) :=
  (fs.files.filter fun file => leadsInto directory file.1).filterMap fun file =>
    fragmentOf? extensions (file.1.drop directory.length, file.2)

/-- Whether the name of a file is two dots and an extension. -/
def TwoDots (extensions : List String) (file : List String × String) : Prop :=
  ∃ extension ∈ extensions, extension ≠ "" ∧ '.' ∉ extension.toList ∧
    file.1.getLast? = some (".." ++ extension)

/-- Helper: the stem of such a name is one dot. -/
private theorem twoDots_iff {extensions : List String} {file : List String × String} {name : String}
    (hname : file.1.getLast? = some name) :
    TwoDots extensions file ↔
      ∃ extension, splitExtension name.toList = some (['.'], extension) ∧
        String.ofList extension ∈ extensions := by
  constructor
  · -- Both sides cut the name at its last dot, one by the characters and one by the equation
    rintro ⟨extension, hmem, hsome, hdot, hlast⟩
    rw [hname, Option.some.injEq] at hlast
    refine ⟨extension.toList, splitExtension_eq_some_iff.2 ⟨by simp [hlast], by simp, hdot, ?_⟩,
      by simpa using hmem⟩
    simpa [hlast] using hsome
  · rintro ⟨extension, hsplit, hmem⟩
    obtain ⟨hchars, -, hdot, hup⟩ := splitExtension_eq_some_iff.1 hsplit
    refine ⟨String.ofList extension, hmem, fun hnil => ?_, by simpa using hdot, ?_⟩
    · rw [← String.toList_inj, String.toList_ofList] at hnil
      exact hup (by rw [hchars, hnil]; rfl)
    · rw [hname, Option.some.injEq, ← String.toList_inj, hchars]
      simp

/-- Helper: only the last segments of two paths make a difference between their lengths. -/
private theorem length_intercalate_concat (front : List String) (first second : String) :
    (".".intercalate (front ++ [first])).length + second.length =
      (".".intercalate (front ++ [second])).length + first.length := by
  induction front with
  | nil => simp [Nat.add_comm]
  | cons name rest ih =>
    -- A separator stands in front of the last part only if something is before it
    cases rest with
    | nil =>
      simp only [List.cons_append, List.nil_append, String.intercalate_cons_cons,
        String.intercalate_singleton, String.length_append]
      omega
    | cons next more =>
      simp only [List.cons_append, String.intercalate_cons_cons, String.length_append] at ih ⊢
      omega

/-- Helper: a file is put where it belongs, except that a stem of one dot gets another dot. -/
private theorem leafOf?_cases (extensions : List String) (file : List String × String) :
    (leafOf? extensions file = none ∧ fragmentOf? extensions file = none ∧
      ¬ TwoDots extensions file) ∨
    ∃ leaf fragment, leafOf? extensions file = some leaf ∧
      fragmentOf? extensions file = some fragment ∧ leaf.1 ≠ [] ∧
      (TwoDots extensions file → leaf.fragment.1.length = fragment.1.length + 1) ∧
      (¬ TwoDots extensions file → leaf.fragment = fragment) := by
  unfold leafOf? fragmentPath? fragmentOf?
  cases hname : file.1.getLast? with
  | none =>
    refine .inl ⟨rfl, rfl, ?_⟩
    rintro ⟨extension, -, -, -, hlast⟩
    rw [hname] at hlast
    cases hlast
  | some name =>
    rw [twoDots_iff hname]
    cases hsplit : splitExtension name.toList with
    | none => exact .inl ⟨by simp [hsplit], by simp [hsplit], by simp⟩
    | some parts =>
      obtain ⟨stem, extension⟩ := parts
      -- The stem is a fragment if its extension is accepted; a stem of one dot becomes two segments
      by_cases hmem : String.ofList extension ∈ extensions
      · refine .inr ⟨_, _, by simp [hsplit, hmem]; rfl, by simp [hsplit, hmem]; rfl, ?_, ?_, ?_⟩
        · simp [segments, splitAt_ne_nil]
        · rintro ⟨_, heq, -⟩
          cases heq
          have hlength := length_intercalate_concat file.1.dropLast ".." (String.ofList ['.'])
          have hdots : "..".length = 2 ∧ (String.ofList ['.']).length = 1 := by decide
          simp only [Leaf.fragment, intercalate_segments, leafOfStem, if_true]
          omega
        · intro hnot
          have hstem : stem ≠ ['.'] := fun heq => hnot ⟨extension, by rw [heq], hmem⟩
          simp [Leaf.fragment, intercalate_segments, leafOfStem, hstem]
      · refine .inl ⟨by simp [hsplit, hmem], by simp [hsplit, hmem], ?_⟩
        rintro ⟨_, heq, hother⟩
        cases heq
        exact hmem hother

/-! ## §3 Bodies planted one after the other

Files are planted in the order of the walk. A leaf can be in the way of a later one, or be taken
away by it; `StaysOut` and `Spares` say that neither is so, and are asked of each pair. -/

section Plant

open FragmentTree

/-- Put a body where it belongs. -/
def plant (entries : List (String × FragmentTree)) (leaf : Leaf) :
    Except LoadError (List (String × FragmentTree)) :=
  insertFragment leaf.fragment.1 leaf.2 entries leaf.1

/-- Files that name no fragment are skipped, the others are planted at their segments. -/
theorem foldlM_insertFile (extensions : List String) (files : List (List String × String))
    (entries : List (String × FragmentTree)) :
    files.foldlM (insertFile extensions) entries =
      (files.filterMap (leafOf? extensions)).foldlM plant entries := by
  induction files generalizing entries with
  | nil => rfl
  | cons file rest ih =>
    rw [List.foldlM_cons, List.filterMap_cons, insertFile, leafOf?]
    cases fragmentPath? extensions file.1 with
    | none => exact ih entries
    | some path =>
      rw [Option.map_some, List.foldlM_cons, plant, Leaf.fragment, intercalate_segments]
      simp only [ih]
      rfl

/-- The tree of a directory has the bodies of its files planted. Reading a file and planting its
body are told apart here; all that follows is about leaves. -/
theorem directoryTree_eq (fs : Files) (extensions directory : List String) :
    fs.directoryTree extensions directory =
      ((fs.planted extensions directory).foldlM plant []).map .branch := by
  rw [directoryTree, planted, foldlM_insertFile]

/-- Whether a relation holds between every leaf and every later one, those in `known` being
first. -/
structure Ahead (R : Leaf → Leaf → Prop) (known later : List Leaf) : Prop where
  known : ∀ first ∈ known, ∀ second ∈ later, R first second
  later : later.Pairwise R

theorem Ahead.cons {R : Leaf → Leaf → Prop} {known later : List Leaf} {leaf : Leaf}
    (hleaf : ∀ first ∈ known, R first leaf)
    (hknown : ∀ first ∈ known, ∀ second ∈ later, R first second)
    (hbehind : ∀ second ∈ later, R leaf second) (h : later.Pairwise R) :
    Ahead R known (leaf :: later) where
  known first hfirst := List.forall_mem_cons.2 ⟨hleaf first hfirst, hknown first hfirst⟩
  later := List.pairwise_cons.2 ⟨hbehind, h⟩

/-- The later body is not put below the earlier one. -/
def StaysOut (first second : Leaf) : Prop :=
  ¬ OnTheWay first second.1

/-- The later body is put neither in the place of the earlier one nor above it. -/
def Spares (first second : Leaf) : Prop :=
  ¬ second.1 <+: first.1

/-- What planting `later` behind `known` makes of the leaves. Leaves get lost where one is planted
in the place of another or above it, so what is counted here tells whether any was. -/
structure Planted (known later now : List Leaf) : Prop where
  staysOut : Ahead StaysOut known later
  length_le : now.length ≤ known.length + later.length
  spares : now.length = known.length + later.length → Ahead Spares known later
  perm : Ahead Spares known later → now.Perm (known ++ later)

/-- Why planting bodies fails: one of them is put below one planted before. -/
def Blocked (known later : List Leaf) (e : LoadError) : Prop :=
  ∃ before second after, later = before ++ second :: after ∧
    ∃ first ∈ known ++ before, OnTheWay first second.1 ∧
      ∃ segment ∈ first.1.getLast?, e = .nestedInFragment second.fragment.1 segment

theorem Blocked.not_ahead {known later : List Leaf} {e : LoadError} (h : Blocked known later e) :
    ¬ Ahead StaysOut known later := by
  obtain ⟨before, second, after, rfl, first, hfirst, hway, -⟩ := h
  intro hahead
  rcases List.mem_append.1 hfirst with hknown | hbefore
  · exact hahead.known first hknown second (by simp) hway
  · exact (List.pairwise_append.1 hahead.later).2.2 first hbefore second (by simp) hway

/-- Helper: the leaves behind one more body. -/
private theorem mem_of_planted {known now : List Leaf} {leaf : Leaf}
    (hperm : now.Perm (leaf :: known.filter fun first => !standsIn leaf.1 first)) {first : Leaf} :
    first ∈ now ↔ first = leaf ∨ first ∈ known ∧ ¬ leaf.1 <+: first.1 := by
  rw [hperm.mem_iff, List.mem_cons, List.mem_filter, Bool.not_eq_true', standsIn_eq_false_iff]

/-- **Planting one more body first.** The leaves that it takes away are gone when the later ones are
planted. That they stay out of the way of these follows from the leaf in whose place they stood. -/
theorem Planted.cons {known between later now : List Leaf} {leaf : Leaf}
    (hstays : ∀ first ∈ known, StaysOut first leaf)
    (hperm : between.Perm (leaf :: known.filter fun first => !standsIn leaf.1 first))
    (h : Planted between later now) : Planted known (leaf :: later) now := by
  have hlength : between.length ≤ known.length + 1 := by
    rw [hperm.length_eq, List.length_cons]
    exact Nat.succ_le_succ (List.length_filter_le ..)
  have hleaf : leaf ∈ between := (mem_of_planted hperm).2 (.inl rfl)
  constructor
  case staysOut =>
    refine .cons hstays (fun first hfirst second hsecond => ?_) (h.staysOut.known leaf hleaf)
      h.staysOut.later
    by_cases hcovered : leaf.1 <+: first.1
    · -- The new body has taken the place, and stays in the way
      rintro ⟨hcovers, hne⟩
      refine h.staysOut.known leaf hleaf second hsecond
        ⟨hcovered.trans hcovers, fun heq => hne ?_⟩
      exact hcovers.eq_of_length_le (heq ▸ hcovered.length_le)
    · exact h.staysOut.known first ((mem_of_planted hperm).2 (.inr ⟨hfirst, hcovered⟩)) second
        hsecond
  case length_le =>
    have := h.length_le
    rw [List.length_cons]
    omega
  case spares =>
    intro hfull
    rw [List.length_cons] at hfull
    have hle := h.length_le
    -- Nothing was taken away, neither now nor later
    have hrest := h.spares (by omega)
    have hkept : ∀ first ∈ known, ¬ leaf.1 <+: first.1 := by
      have hfilter : (known.filter fun first => !standsIn leaf.1 first).length = known.length := by
        have := hperm.length_eq
        rw [List.length_cons] at this
        have := List.length_filter_le (fun first => !standsIn leaf.1 first) known
        omega
      intro first hfirst
      simpa [standsIn_eq_false_iff] using List.length_filter_eq_length_iff.1 hfilter first hfirst
    exact .cons hkept
      (fun first hfirst => hrest.known first ((mem_of_planted hperm).2
        (.inr ⟨hfirst, hkept first hfirst⟩)))
      (hrest.known leaf hleaf) hrest.later
  case perm =>
    intro hspares
    have hfilter : (known.filter fun first => !standsIn leaf.1 first) = known := by
      apply List.filter_eq_self.2
      intro first hfirst
      simpa [standsIn_eq_false_iff, Spares] using hspares.known first hfirst leaf List.mem_cons_self
    rw [hfilter] at hperm
    obtain ⟨hhead, hlater⟩ := List.pairwise_cons.1 hspares.later
    have hrest := h.perm ⟨fun first hfirst second hsecond => ?_, hlater⟩
    · exact (hrest.trans (hperm.append_right later)).trans List.perm_middle.symm
    · rcases List.mem_cons.1 (hperm.mem_iff.1 hfirst) with rfl | hfirst
      · exact hhead second hsecond
      · exact hspares.known first hfirst second (List.mem_cons_of_mem _ hsecond)

/-- Bodies are planted one after the other, until one of them is put below another. Nothing else can
go wrong, since every body has a place. -/
theorem plantAll_cases {later : List Leaf} (hplaces : ∀ leaf ∈ later, leaf.1 ≠ [])
    {entries : List (String × FragmentTree)} (hdistinct : DistinctEntries entries) :
    (∃ planted, later.foldlM plant entries = .ok planted ∧
      Planted (leavesOf entries) later (leavesOf planted)) ∨
    ∃ e, later.foldlM plant entries = .error e ∧ Blocked (leavesOf entries) later e := by
  induction later generalizing entries with
  | nil =>
    refine .inl ⟨entries, rfl, ⟨⟨by simp, .nil⟩, by simp, fun _ => ⟨by simp, .nil⟩, by simp⟩⟩
  | cons leaf rest ih =>
    rw [List.foldlM_cons]
    -- The next body is planted, or something stands in its way
    have hcases := @insertFragment_cases leaf.fragment.1 leaf.2 leaf.1 entries hdistinct
    rcases hcases with ⟨⟨between, hok⟩, hstays⟩ | ⟨first, hfirst, hway, segment, hlast, herror⟩
    · obtain ⟨hbetween, hperm⟩ :=
        leavesOf_insertFragment (hplaces leaf List.mem_cons_self) hdistinct hok
      have hbind : (plant entries leaf >>= fun entries => rest.foldlM plant entries) =
          rest.foldlM plant between := by
        rw [plant, hok]
        rfl
      rw [hbind]
      rcases ih (fun l hl => hplaces l (List.mem_cons_of_mem _ hl)) hbetween with
        ⟨planted, hplanted, hleaves⟩ | ⟨e, he, before, second, after, rfl, first, hfirst, hrest⟩
      · exact .inl ⟨planted, hplanted, hleaves.cons hstays hperm⟩
      · refine .inr ⟨e, he, leaf :: before, second, after, rfl, first, ?_, hrest⟩
        rcases List.mem_append.1 hfirst with hfirst | hfirst
        · rcases (mem_of_planted hperm).1 hfirst with rfl | hfirst
          · simp
          · simp [hfirst.1]
        · simp [hfirst]
    · refine .inr ⟨_, ?_, [], leaf, rest, rfl, first, by simpa using hfirst, hway, segment, hlast,
        rfl⟩
      rw [plant, herror]
      rfl

end Plant

/-! ## §4 Libraries in directories -/

def totalLength : List (String × String) → Nat
  | [] => 0
  | fragment :: fragments => fragment.1.length + totalLength fragments

theorem totalLength_perm {first second : List (String × String)} (hperm : first.Perm second) :
    totalLength first = totalLength second := by
  induction hperm with
  | nil => rfl
  | cons _ _ ih => simp only [totalLength, ih]
  | swap _ _ _ => simp only [totalLength, Nat.add_left_comm]
  | trans _ _ ih₁ ih₂ => exact ih₁.trans ih₂

/-- Helper: what is planted for some files, against the fragments that they are. -/
private structure PlantedFor (extensions : List String) (files : List (List String × String))
    (leaves : List Leaf) (fragments : List (String × String)) : Prop where
  length_eq : leaves.length = fragments.length
  places : ∀ leaf ∈ leaves, leaf.1 ≠ []
  totalLength_le : totalLength fragments ≤ totalLength (leaves.map Leaf.fragment)
  no_dots : totalLength (leaves.map Leaf.fragment) = totalLength fragments →
    ∀ file ∈ files, ¬ TwoDots extensions file
  eq : (∀ file ∈ files, ¬ TwoDots extensions file) → leaves.map Leaf.fragment = fragments

private theorem plantedFor (extensions : List String) (files : List (List String × String)) :
    PlantedFor extensions files (files.filterMap (leafOf? extensions))
      (files.filterMap (fragmentOf? extensions)) := by
  induction files with
  | nil => exact ⟨rfl, by simp, Nat.le_refl _, fun _ => by simp, fun _ => rfl⟩
  | cons file rest ih =>
    rcases leafOf?_cases extensions file with
      ⟨hleaf, hfragment, hnot⟩ | ⟨leaf, fragment, hleaf, hfragment, hplace, hdots, hplain⟩
    · -- The file is no fragment
      rw [List.filterMap_cons_none hleaf, List.filterMap_cons_none hfragment]
      refine ⟨ih.length_eq, ih.places, ih.totalLength_le, fun heq => ?_, fun hnone => ?_⟩
      · exact List.forall_mem_cons.2 ⟨hnot, ih.no_dots heq⟩
      · exact ih.eq (List.forall_mem_cons.1 hnone).2
    · rw [List.filterMap_cons_some hleaf, List.filterMap_cons_some hfragment]
      have hle := ih.totalLength_le
      refine ⟨by simp [ih.length_eq], List.forall_mem_cons.2 ⟨hplace, ih.places⟩, ?_, ?_, ?_⟩
      · rw [List.map_cons, totalLength, totalLength]
        -- Only a stem of one dot makes a path longer
        by_cases htwo : TwoDots extensions file
        · have := hdots htwo
          omega
        · rw [hplain htwo]
          omega
      · intro heq
        rw [List.map_cons, totalLength, totalLength] at heq
        have hnot : ¬ TwoDots extensions file := fun htwo => by
          have := hdots htwo
          omega
        rw [hplain hnot] at heq
        exact List.forall_mem_cons.2 ⟨hnot, ih.no_dots (by omega)⟩
      · intro hnone
        obtain ⟨hhead, hrest⟩ := List.forall_mem_cons.1 hnone
        rw [List.map_cons, hplain hhead, ih.eq hrest]

/-- The fragments below a directory, in the order of a walk. -/
theorem fragmentsBelow_perm (fs : Files) (extensions directory : List String) :
    ((fs.below directory).filterMap (fragmentOf? extensions)).Perm
      (fs.fragmentsBelow extensions directory) := by
  have hwalk := List.mergeSort_perm ((fs.files.filter fun file => leadsInto directory file.1).map
    fun file => (file.1.drop directory.length, file.2)) fun a b => standsBefore a.1 b.1
  refine (hwalk.filterMap _).trans (List.Perm.of_eq ?_)
  rw [fragmentsBelow, List.filterMap_map]
  rfl

/-- What loading a library from a directory does: which files it reads as fragments, when it returns
a tree, what it reports otherwise, and when the tree has all the fragments. The walk order matters,
so the laws are about the files in that order. -/
structure LoadingLaws (fs : Files) (extensions : List String) (path : String)
    (directory : List String) : Prop where
  /-- Which files are fragments, and which fragments they are. -/
  fragments : ∀ names contents fragment,
    fragmentOf? extensions (names, contents) = some fragment ↔
      ∃ front stem extension, names = front ++ [stem ++ "." ++ extension] ∧ stem ≠ "" ∧
        '.' ∉ extension.toList ∧ stem ++ "." ++ extension ≠ ".." ∧ extension ∈ extensions ∧
        fragment = (".".intercalate (front ++ [stem]), Text.trim contents)
  /-- A tree is returned exactly if no file is put below one that the walk met before. -/
  returned : (∃ tree, fs.loadFragments extensions path = .ok tree) ↔
    (fs.planted extensions directory).Pairwise StaysOut
  /-- The error names the path of the file, and the fragment that stands in its way. -/
  failed : ∀ e, fs.loadFragments extensions path = .error e →
    Blocked [] (fs.planted extensions directory) e
  /-- A tree that is returned has one fragment for each file exactly if none is put in the place of
  one that the walk met before, or above it. -/
  kept : ∀ tree, fs.loadFragments extensions path = .ok tree →
    (tree.flatten.Perm (fs.fragmentsBelow extensions directory) ↔
      (fs.planted extensions directory).Pairwise Spares ∧
        ∀ file ∈ fs.below directory, ¬ TwoDots extensions file)

/-- Loading a directory plants the bodies of its files. -/
theorem loadFragments_directory {fs : Files} {path : String} {directory : List String}
    (h : fs.locate path = .ok (.directory directory)) (extensions : List String) :
    fs.loadFragments extensions path =
      ((fs.planted extensions directory).foldlM plant []).map .branch := by
  rw [loadFragments, h]
  exact directoryTree_eq ..

/-- **A directory is loaded as the fragments that its files are**, up to those that stand in each
other's way. The laws hold of all files and extensions, wherever the path leads to a directory. -/
theorem loadingLaws_directory (fs : Files) (extensions : List String) (path : String)
    (directory : List String) (h : fs.locate path = .ok (.directory directory)) :
    LoadingLaws fs extensions path directory := by
  have hload := loadFragments_directory h extensions
  have hfiles := plantedFor extensions (fs.below directory)
  have hcases := @plantAll_cases _ hfiles.places [] trivial
  have hahead : ∀ R, Ahead R [] (fs.planted extensions directory) ↔
      (fs.planted extensions directory).Pairwise R :=
    fun R => ⟨Ahead.later, fun h => ⟨by simp, h⟩⟩
  constructor
  case fragments => exact fragmentOf?_eq_some_iff extensions
  case returned =>
    rw [← hahead, hload]
    rcases hcases with ⟨entries, hok, hplanted⟩ | ⟨e, herror, hblocked⟩
    · rw [planted, hok]
      exact ⟨fun _ => hplanted.staysOut, fun _ => ⟨_, rfl⟩⟩
    · rw [planted, herror]
      refine ⟨?_, fun hnone => absurd hnone hblocked.not_ahead⟩
      rintro ⟨tree, htree⟩
      cases htree
  case failed =>
    intro e he
    rw [hload] at he
    rcases hcases with ⟨entries, hok, -⟩ | ⟨e', herror, hblocked⟩
    · rw [planted, hok] at he
      cases he
    · rw [planted, herror] at he
      cases he
      exact hblocked
  case kept =>
    intro tree htree
    rw [hload] at htree
    rcases hcases with ⟨entries, hok, hplanted⟩ | ⟨e, herror, -⟩
    · rw [planted, hok] at htree
      cases htree
      rw [FragmentTree.flatten_branch, ← hahead, planted,
        ← (fragmentsBelow_perm fs extensions directory).congr_right]
      constructor
      · intro hperm
        have hlength := hperm.length_eq
        rw [List.length_map, ← hfiles.length_eq] at hlength
        have hspares := hplanted.spares (by simpa [FragmentTree.leavesOf] using hlength)
        refine ⟨hspares, hfiles.no_dots ?_⟩
        -- The paths are as long together as those of the files
        have hpaths := ((hplanted.perm hspares).map Leaf.fragment).symm.trans hperm
        simpa [FragmentTree.leavesOf] using totalLength_perm hpaths
      · rintro ⟨hspares, hnone⟩
        rw [← hfiles.eq hnone]
        exact (hplanted.perm hspares).map _
    · rw [planted, herror] at htree
      cases htree

/-- A library of two files, neither of which is in the way of the other. -/
def apartLibrary : Files :=
  ⟨[(["lib", "user.graphql"], "on User {name}\n"),
    (["lib", "auth", "user.graphql"], "on User {token}")], []⟩

theorem loadingLaws_apartLibrary :
    apartLibrary.locate "lib" = .ok (.directory ["lib"]) ∧
      LoadingLaws apartLibrary ["graphql"] "lib" ["lib"] :=
  ⟨by decide +kernel, loadingLaws_directory _ _ _ _ (by decide +kernel)⟩

/-- A library with a file and a directory of one name. -/
def besideLibrary : Files :=
  ⟨[(["lib", "user.graphql"], "on User {id}"),
    (["lib", "user", "name.graphql"], "on User {name}")], []⟩

/-- The directory is walked first. The file is then put in its place, and what was loaded from
it is lost. -/
theorem not_keeps_besideLibrary :
    ∃ tree, besideLibrary.loadFragments ["graphql"] "lib" = .ok tree ∧
      tree.flatten = [("user", "on User {id}")] ∧
      besideLibrary.fragmentsBelow ["graphql"] ["lib"] =
        [("user", "on User {id}"), ("user.name", "on User {name}")] ∧
      ¬ tree.flatten.Perm (besideLibrary.fragmentsBelow ["graphql"] ["lib"]) := by
  -- `user.graphql` is read after `user/name.graphql`, and is planted over what stands there
  have hlocate : besideLibrary.locate "lib" = .ok (.directory ["lib"]) := by decide +kernel
  have hbelow : besideLibrary.below ["lib"] =
      [(["user", "name.graphql"], "on User {name}"),
        (["user.graphql"], "on User {id}")] := by
    have hafter : standsBefore ["user.graphql"] ["user", "name.graphql"] = false := by
      decide +kernel
    simp [below, besideLibrary, leadsInto, List.isPrefixOf, List.mergeSort, hafter]
  have hplanted : besideLibrary.planted ["graphql"] ["lib"] =
      [(["user", "name"], "on User {name}"), (["user"], "on User {id}")] := by
    rw [planted, hbelow]
    decide +kernel
  have hfragments : besideLibrary.fragmentsBelow ["graphql"] ["lib"] =
      [("user", "on User {id}"), ("user.name", "on User {name}")] := by
    decide +kernel
  refine ⟨.branch [("user", .body "on User {id}")], ?_, rfl, hfragments, fun hperm => ?_⟩
  · rw [loadFragments_directory hlocate, hplanted]
    rfl
  · have hlength := hperm.length_eq
    rw [hfragments] at hlength
    cases hlength

end Files

end QueryWeave
