import Mathlib.Data.List.Perm.Basic
import Mathlib.Data.List.Perm.Lattice
import QueryWeave.Files.Loading
import QueryWeave.Proofs.Bindings

/-!
# Leaves of Fragment Trees

The leaves of a tree are its bodies, each with the names on the way to it. Putting a body into a
namespace takes away every leaf at its place or below and adds one. It fails exactly if a
leaf stands on the way to its place.

- `flatten_branch`: paths and bodies are read off the leaves.
- `leavesOf_insertFragment`: what putting a body in does to the leaves.
- `insertFragment_ok_iff`: when a body can be put in.
-/

namespace QueryWeave

/-- A body and the names on the way to it. -/
abbrev Leaf := List String × String

/-- The path and the body that a leaf stands for. -/
def Leaf.fragment (leaf : Leaf) : String × String :=
  (".".intercalate leaf.1, leaf.2)

namespace FragmentTree

/-! ## §1 Leaves

A namespace is seen as the list of its leaves, each a body under the segments that lead to it. What
is put into a tree is put into this list, and the tree is not looked at any more. -/

/-- A leaf of a subtree as a leaf of the tree. -/
def under (name : String) (leaf : Leaf) : Leaf :=
  (name :: leaf.1, leaf.2)

mutual

def leaves : FragmentTree → List Leaf
  | .body text => [([], text)]
  | .branch entries => leavesOf entries

/-- The leaves of the entries of a namespace. -/
def leavesOf : List (String × FragmentTree) → List Leaf
  | [] => []
  | (name, tree) :: rest => (leaves tree).map (under name) ++ leavesOf rest

end

mutual

/-- Whether no namespace of a tree has two entries of one name. -/
def Distinct : FragmentTree → Prop
  | .body _ => True
  | .branch entries => DistinctEntries entries

/-- Whether neither a namespace nor any below it has two entries of one name. -/
def DistinctEntries : List (String × FragmentTree) → Prop
  | [] => True
  | (name, tree) :: rest => Distinct tree ∧ name ∉ Bindings.names rest ∧ DistinctEntries rest

end

mutual

/-- Helper: a tree in a namespace has its leaves there. -/
private theorem flattenIn_some (parent : String) (tree : FragmentTree) :
    flattenIn (some parent) tree =
      (leaves tree).map fun leaf => (".".intercalate (parent :: leaf.1), leaf.2) := by
  cases tree with
  | body text => simp [flattenIn, leaves]
  | branch entries =>
    rw [flattenIn, leaves]
    exact flattenEntries_some parent entries

private theorem flattenEntries_some (parent : String) (entries : List (String × FragmentTree)) :
    flattenEntries (some parent) entries =
      (leavesOf entries).map fun leaf => (".".intercalate (parent :: leaf.1), leaf.2) := by
  cases entries with
  | nil => rfl
  | cons entry rest =>
    obtain ⟨name, tree⟩ := entry
    rw [flattenEntries, leavesOf, flattenIn_some, flattenEntries_some parent rest,
      List.map_append, List.map_map]
    rfl

end

/-- The paths and bodies of a namespace at the root are those of its leaves. -/
theorem flatten_branch (entries : List (String × FragmentTree)) :
    flatten (.branch entries) = (leavesOf entries).map Leaf.fragment := by
  rw [flatten, flattenIn]
  induction entries with
  | nil => rfl
  | cons entry rest ih =>
    obtain ⟨name, tree⟩ := entry
    rw [flattenEntries, leavesOf, flattenIn_some, ih, List.map_append, List.map_map]
    rfl

/-- Every leaf of a namespace goes by the name of an entry first. -/
theorem head_of_mem_leavesOf {entries : List (String × FragmentTree)} {leaf : Leaf}
    (h : leaf ∈ leavesOf entries) : ∃ name ∈ Bindings.names entries, leaf.1.head? = some name := by
  induction entries with
  | nil => simp [leavesOf] at h
  | cons entry rest ih =>
    obtain ⟨name, tree⟩ := entry
    rw [leavesOf] at h
    rcases List.mem_append.1 h with h | h
    · obtain ⟨below, -, rfl⟩ := List.mem_map.1 h
      exact ⟨name, by simp, rfl⟩
    · obtain ⟨other, hother, hhead⟩ := ih h
      exact ⟨other, by simp [hother], hhead⟩

/-! ## §2 One entry of a namespace -/

/-- Whether a leaf goes by a name first. -/
def startsAt (name : String) (leaf : Leaf) : Bool :=
  leaf.1.head? = some name

@[simp] theorem startsAt_under (name other : String) (leaf : Leaf) :
    startsAt name (under other leaf) = decide (other = name) := by
  simp [startsAt, under]

/-- The leaves that go by a name first are those of its entry. Names are distinct, so no other entry
has a leaf that begins so. -/
theorem filter_startsAt {entries : List (String × FragmentTree)} (h : DistinctEntries entries)
    (name : String) :
    (leavesOf entries).filter (startsAt name) =
      (((Bindings.find? name entries).map leaves).getD []).map (under name) := by
  induction entries with
  | nil => rfl
  | cons entry rest ih =>
    obtain ⟨bound, tree⟩ := entry
    rw [leavesOf, List.filter_append, List.filter_map]
    rw [DistinctEntries] at h
    by_cases hname : bound = name
    · subst hname
      -- The name stands once, so that no later leaf goes by it
      have hnone : (leavesOf rest).filter (startsAt bound) = [] := by
        rw [ih h.2.2, Bindings.find?_eq_none_iff.2 h.2.1]
        rfl
      rw [hnone, List.append_nil, List.filter_eq_self.2 (by simp)]
      simp [Bindings.find?]
    · rw [List.filter_eq_nil_iff.2 (by simp [hname]), ih h.2.2]
      simp [Bindings.find?, hname]

/-- Binding a name replaces the leaves that go by it, and no others. Their order may change, since a
new name goes to the end. -/
theorem leavesOf_put {entries : List (String × FragmentTree)} (h : DistinctEntries entries)
    (name : String) (tree : FragmentTree) :
    (leavesOf (Bindings.put name tree entries)).Perm
      ((leaves tree).map (under name) ++
        (leavesOf entries).filter fun leaf => !startsAt name leaf) := by
  induction entries with
  | nil => simp [Bindings.put, leavesOf]
  | cons entry rest ih =>
    obtain ⟨bound, old⟩ := entry
    rw [DistinctEntries] at h
    rw [leavesOf, List.filter_append, List.filter_map, Bindings.put]
    by_cases hname : bound = name
    · subst hname
      rw [if_pos rfl, leavesOf]
      -- All leaves of the old entry go, and all later ones stay
      have hlater : (leavesOf rest).filter (fun leaf => !startsAt bound leaf) = leavesOf rest := by
        apply List.filter_eq_self.2
        intro leaf hleaf
        obtain ⟨other, hother, hhead⟩ := head_of_mem_leavesOf hleaf
        have hne : other ≠ bound := fun heq => h.2.1 (heq ▸ hother)
        simp [startsAt, hhead, hne]
      rw [List.filter_eq_nil_iff.2 (by simp), hlater]
      simp
    · rw [if_neg hname, leavesOf, List.filter_eq_self.2 (by simp [hname])]
      refine ((ih h.2.2).append_left _).trans ?_
      rw [← List.append_assoc, ← List.append_assoc]
      exact List.perm_append_comm.append_right _

theorem distinctEntries_put {entries : List (String × FragmentTree)} (h : DistinctEntries entries)
    {name : String} {tree : FragmentTree} (htree : Distinct tree) :
    DistinctEntries (Bindings.put name tree entries) := by
  induction entries with
  | nil => simp [Bindings.put, DistinctEntries, htree]
  | cons entry rest ih =>
    obtain ⟨bound, old⟩ := entry
    rw [DistinctEntries] at h
    rw [Bindings.put]
    split
    · rename_i hname
      subst hname
      exact ⟨htree, h.2.1, h.2.2⟩
    · -- Behind another name, the put entry must not meet the name in front
      rename_i hname
      refine ⟨h.1, fun hmem => ?_, ih h.2.2⟩
      rcases Bindings.mem_names_put.1 hmem with hmem | heq
      · exact h.2.1 hmem
      · exact hname heq

theorem distinct_of_find? {entries : List (String × FragmentTree)} (h : DistinctEntries entries)
    {name : String} {tree : FragmentTree} (hfind : Bindings.find? name entries = some tree) :
    Distinct tree := by
  induction entries with
  | nil => simp at hfind
  | cons entry rest ih =>
    obtain ⟨bound, old⟩ := entry
    rw [DistinctEntries] at h
    rw [Bindings.find?] at hfind
    split at hfind
    · cases hfind
      exact h.1
    · exact ih h.2.2 hfind

/-- The leaves of a namespace are those of one entry, and the others. -/
theorem leavesOf_split {entries : List (String × FragmentTree)} (h : DistinctEntries entries)
    (name : String) :
    (leavesOf entries).Perm
      ((((Bindings.find? name entries).map leaves).getD []).map (under name) ++
        (leavesOf entries).filter fun leaf => !startsAt name leaf) := by
  rw [← filter_startsAt h]
  exact (List.filter_append_perm _ _).symm

/-! ## §3 Bodies put into a namespace -/

/-- Whether a leaf stands at a place or below. -/
def standsIn (place : List String) (leaf : Leaf) : Bool :=
  place.isPrefixOf leaf.1

theorem standsIn_eq_false_iff {place : List String} {leaf : Leaf} :
    standsIn place leaf = false ↔ ¬ place <+: leaf.1 := by
  rw [← Bool.not_eq_true, standsIn, List.isPrefixOf_iff_prefix]

@[simp] theorem standsIn_under (name other : String) (place : List String) (leaf : Leaf) :
    standsIn (name :: place) (under other leaf) =
      (decide (other = name) && standsIn place leaf) := by
  simp [standsIn, under, List.isPrefixOf, Bool.beq_eq_decide_eq, eq_comm]

/-- Helper: below a name stand no leaves but those that go by it. -/
private theorem filter_standsIn {entries : List (String × FragmentTree)}
    (h : DistinctEntries entries) (name : String) (place : List String) :
    ((leavesOf entries).filter fun leaf => !standsIn (name :: place) leaf).Perm
      (((((Bindings.find? name entries).map leaves).getD []).filter
          fun leaf => !standsIn place leaf).map (under name) ++
        (leavesOf entries).filter fun leaf => !startsAt name leaf) := by
  refine ((leavesOf_split h name).filter _).trans ?_
  rw [List.filter_append, List.filter_map, List.filter_filter]
  -- Leaves that go by another name stand below no place of this name
  have hothers : ∀ leaf : Leaf, (!standsIn (name :: place) leaf && !startsAt name leaf) =
      !startsAt name leaf := by
    rintro ⟨names, text⟩
    cases names with
    | nil => simp [standsIn, startsAt]
    | cons other rest =>
      by_cases hother : other = name
      · simp [startsAt, hother]
      · simp [standsIn, startsAt, List.isPrefixOf, hother, Ne.symm hother]
  have hthere : (fun leaf => !standsIn (name :: place) leaf) ∘ under name =
      fun leaf => !standsIn place leaf := by
    funext leaf
    simp
  simp only [hothers, hthere]
  exact List.Perm.refl _

variable {path body : String}

/-- Helper: a body is put in below an entry. -/
private theorem insertFragment_cons (name : String) {place : List String} (hplace : place ≠ [])
    (entries : List (String × FragmentTree)) :
    insertFragment path body entries (name :: place) =
      match Bindings.find? name entries with
      | some (.body _) => .error (.nestedInFragment path name)
      | some (.branch inner) => (insertFragment path body inner place).map fun below =>
          Bindings.put name (.branch below) entries
      | none => (insertFragment path body [] place).map fun below =>
          Bindings.put name (.branch below) entries := by
  -- The recursion looks one segment further, so the place is taken apart once more
  obtain ⟨next, rest, rfl⟩ := List.exists_cons_of_ne_nil hplace
  rw [insertFragment]
  · cases Bindings.find? name entries with
    | none => rfl
    | some tree => cases tree <;> rfl
  · simp

/-- **Putting a body in takes away every leaf at its place or below, and adds one.** The induction
is on the place, one branch deeper at each step; below a name that is not there yet, there are no
leaves to lose. -/
theorem leavesOf_insertFragment {place : List String} (hplace : place ≠ [])
    {entries inserted : List (String × FragmentTree)} (hdistinct : DistinctEntries entries)
    (h : insertFragment path body entries place = .ok inserted) :
    DistinctEntries inserted ∧
      (leavesOf inserted).Perm
        ((place, body) :: (leavesOf entries).filter fun leaf => !standsIn place leaf) := by
  induction place generalizing entries inserted with
  | nil => exact absurd rfl hplace
  | cons name place ih =>
    have hthere := filter_standsIn hdistinct name place
    by_cases hlast : place = []
    · -- The body stands here
      subst hlast
      rw [insertFragment, Except.ok.injEq] at h
      subst h
      refine ⟨distinctEntries_put hdistinct trivial, (leavesOf_put hdistinct name _).trans ?_⟩
      refine List.Perm.trans ?_ (hthere.symm.cons _)
      simp [leaves, under, standsIn]
    · -- The body stands below an entry, whose other leaves stay
      have hbelow : ∀ inner, DistinctEntries inner →
          ((Bindings.find? name entries).map leaves).getD [] = leavesOf inner →
          (insertFragment path body inner place).map
            (fun below => Bindings.put name (.branch below) entries) = .ok inserted →
          DistinctEntries inserted ∧ (leavesOf inserted).Perm ((name :: place, body) ::
            (leavesOf entries).filter fun leaf => !standsIn (name :: place) leaf) := by
        intro inner hinner hleaves hmap
        cases hinsert : insertFragment path body inner place with
        | error e =>
          rw [hinsert] at hmap
          cases hmap
        | ok below =>
          rw [hinsert] at hmap
          cases hmap
          obtain ⟨hdistinctBelow, hperm⟩ := ih hlast hinner hinsert
          refine ⟨distinctEntries_put hdistinct hdistinctBelow,
            (leavesOf_put hdistinct name _).trans ?_⟩
          rw [hleaves] at hthere
          refine List.Perm.trans ?_ (hthere.symm.cons _)
          rw [leaves]
          exact (hperm.map (under name)).append_right _
      rw [insertFragment_cons name hlast] at h
      split at h
      · cases h
      · rename_i inner hfind
        exact hbelow inner (distinct_of_find? hdistinct hfind) (by simp [hfind, leaves]) h
      · rename_i hfind
        exact hbelow [] trivial (by simp [hfind, leavesOf]) h

/-! ## §4 Leaves on the way -/

/-- A leaf that stands on the way to a place. -/
def OnTheWay (leaf : Leaf) (place : List String) : Prop :=
  leaf.1 <+: place ∧ leaf.1 ≠ place

/-- Helper: the leaves on the way to a place below an entry stand on the way in the entry. -/
private theorem onTheWay_cons_iff {entries : List (String × FragmentTree)}
    (hdistinct : DistinctEntries entries) {name : String} {place : List String} {leaf : Leaf} :
    leaf ∈ leavesOf entries ∧ OnTheWay leaf (name :: place) ↔
      ∃ below ∈ ((Bindings.find? name entries).map leaves).getD [],
        OnTheWay below place ∧ leaf = under name below := by
  have hunder : ∀ below : Leaf, OnTheWay (under name below) (name :: place) ↔
      OnTheWay below place := fun below => by
    simp [OnTheWay, under, List.cons_prefix_cons]
  constructor
  · rintro ⟨hmem, hway⟩
    -- A leaf goes by some name, and one on the way goes by the first name of the place
    have hstarts : startsAt name leaf = true := by
      obtain ⟨other, -, hhead⟩ := head_of_mem_leavesOf hmem
      obtain ⟨rest, hrest⟩ := hway.1
      cases hnames : leaf.1 with
      | nil => simp [hnames] at hhead
      | cons first more =>
        rw [hnames] at hrest
        simp [startsAt, hnames, (List.cons.inj hrest).1]
    have hfilter := List.mem_filter.2 ⟨hmem, hstarts⟩
    rw [filter_startsAt hdistinct] at hfilter
    obtain ⟨below, hbelow, rfl⟩ := List.mem_map.1 hfilter
    exact ⟨below, hbelow, (hunder below).1 hway, rfl⟩
  · rintro ⟨below, hbelow, hway, rfl⟩
    have hfilter := List.mem_map_of_mem (f := under name) hbelow
    rw [← filter_startsAt hdistinct] at hfilter
    exact ⟨(List.mem_filter.1 hfilter).1, (hunder below).2 hway⟩

/-- **A body can be put in exactly if no leaf stands on the way to its place.** Otherwise the error
names the last segment of such a leaf. -/
theorem insertFragment_cases (place : List String) {entries : List (String × FragmentTree)}
    (hdistinct : DistinctEntries entries) :
    ((∃ inserted, insertFragment path body entries place = .ok inserted) ∧
      ∀ leaf ∈ leavesOf entries, ¬ OnTheWay leaf place) ∨
    ∃ leaf ∈ leavesOf entries, OnTheWay leaf place ∧
      ∃ segment ∈ leaf.1.getLast?,
        insertFragment path body entries place = .error (.nestedInFragment path segment) := by
  induction place generalizing entries with
  | nil => exact .inl ⟨⟨entries, rfl⟩, fun leaf _ hway => hway.2 (List.prefix_nil.1 hway.1)⟩
  | cons name place ih =>
    by_cases hlast : place = []
    · subst hlast
      refine .inl ⟨⟨_, rfl⟩, fun leaf hmem hway => ?_⟩
      obtain ⟨below, -, hbelow, -⟩ := (onTheWay_cons_iff hdistinct).1 ⟨hmem, hway⟩
      exact hbelow.2 (List.prefix_nil.1 hbelow.1)
    · have hbranch : ∀ inner, DistinctEntries inner →
          ((Bindings.find? name entries).map leaves).getD [] = leavesOf inner →
          insertFragment path body entries (name :: place) =
            (insertFragment path body inner place).map
              (fun below => Bindings.put name (.branch below) entries) →
          ((∃ inserted, insertFragment path body entries (name :: place) = .ok inserted) ∧
            ∀ leaf ∈ leavesOf entries, ¬ OnTheWay leaf (name :: place)) ∨
          ∃ leaf ∈ leavesOf entries, OnTheWay leaf (name :: place) ∧
            ∃ segment ∈ leaf.1.getLast?, insertFragment path body entries (name :: place) =
              .error (.nestedInFragment path segment) := by
        intro inner hinner hleaves hinsert
        rw [hinsert]
        rcases ih hinner with ⟨⟨below, hok⟩, hnone⟩ | ⟨leaf, hmem, hway, segment, hlast, herror⟩
        · refine .inl ⟨⟨_, by rw [hok]; rfl⟩, fun leaf hmem hway => ?_⟩
          obtain ⟨under, hunder, hon, -⟩ := (onTheWay_cons_iff hdistinct).1 ⟨hmem, hway⟩
          exact hnone under (hleaves ▸ hunder) hon
        · obtain ⟨hmem, hon⟩ := (onTheWay_cons_iff hdistinct).2
            ⟨leaf, hleaves ▸ hmem, hway, rfl⟩
          refine .inr ⟨_, hmem, hon, segment, ?_, by rw [herror]; rfl⟩
          rw [Option.mem_def] at hlast ⊢
          rw [under, List.getLast?_cons, hlast]
          rfl
      have hcons := @insertFragment_cons path body name place hlast entries
      split at hcons
      · -- The entry is a body, which stands on the way itself
        rename_i text hfind
        have hbody : (([], text) : Leaf) ∈ ((Bindings.find? name entries).map leaves).getD [] := by
          simp [hfind, leaves]
        obtain ⟨hmem, hon⟩ := (onTheWay_cons_iff hdistinct).2
          ⟨_, hbody, ⟨List.nil_prefix, Ne.symm hlast⟩, rfl⟩
        exact .inr ⟨_, hmem, hon, name, rfl, hcons⟩
      · rename_i inner hfind
        exact hbranch inner (distinct_of_find? hdistinct hfind) (by simp [hfind, leaves]) hcons
      · rename_i hfind
        exact hbranch [] trivial (by simp [hfind, leavesOf]) hcons

end FragmentTree

end QueryWeave
