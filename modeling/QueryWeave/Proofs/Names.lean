import Mathlib.Data.List.Basic
import QueryWeave.Names
import QueryWeave.Proofs.Bindings

/-!
# Laws of Lists of Names

Which names a list has after names were added to it, and how lists of names go with bindings:
binding names one after the other leaves the names that adding them would leave.
-/

namespace QueryWeave.Names

@[simp] theorem mem_add {seen : List String} {name other : String} :
    other ∈ add seen name ↔ other ∈ seen ∨ other = name := by
  unfold add
  split
  · rename_i hmem
    constructor
    · exact .inl
    · rintro (h | rfl)
      · exact h
      · exact hmem
  · simp

@[simp] theorem mem_addAll {seen names : List String} {name : String} :
    name ∈ addAll seen names ↔ name ∈ seen ∨ name ∈ names := by
  unfold addAll
  induction names generalizing seen with
  | nil => simp
  | cons first rest ih =>
    rw [List.foldl_cons, ih, mem_add, List.mem_cons, or_assoc]

@[simp] theorem mem_distinct {names : List String} {name : String} :
    name ∈ distinct names ↔ name ∈ names := by
  simp [distinct]

theorem nodup_addAll {seen : List String} (h : seen.Nodup) (names : List String) :
    (addAll seen names).Nodup := by
  unfold addAll
  induction names generalizing seen with
  | nil => exact h
  | cons name rest ih => exact ih (nodup_add h name)

theorem nodup_distinct (names : List String) : (distinct names).Nodup :=
  nodup_addAll List.nodup_nil names

/-- Adding names that were all seen changes nothing. -/
theorem addAll_of_mem {seen names : List String} (h : ∀ name ∈ names, name ∈ seen) :
    addAll seen names = seen := by
  unfold addAll
  induction names with
  | nil => rfl
  | cons name rest ih =>
    obtain ⟨hname, hrest⟩ := List.forall_mem_cons.1 h
    rw [List.foldl_cons, add, if_pos hname, ih hrest]

/-- Added names come behind those that were seen, each once, and those that were seen do not come
again. So a pass that starts with some names is one that starts with none, with its result cut down
to what is new. -/
theorem addAll_eq (seen names : List String) :
    addAll seen names = seen ++ (distinct names).filter fun name => name ∉ seen := by
  -- On the names, for all seen at once: the step puts the first name among them
  induction names generalizing seen with
  | nil => simp [addAll, distinct]
  | cons first rest ih =>
    have hdistinct : distinct (first :: rest) =
        [first] ++ (distinct rest).filter fun name => name ∉ [first] := ih [first]
    rw [hdistinct, addAll, List.foldl_cons]
    change addAll (add seen first) rest = _
    rw [ih]
    unfold add
    split
    · -- The first name was seen, and so leaves with those that were
      rename_i hmem
      congr 1
      rw [List.filter_append, List.filter_filter, List.filter_cons_of_neg (by simpa using hmem),
        List.filter_nil, List.nil_append]
      apply List.filter_congr
      intro name _
      by_cases hname : name = first
      · simp [hname, hmem]
      · simp [hname]
    · -- A new name goes to the end, and what was seen now includes it
      rename_i hnew
      rw [List.append_assoc, List.filter_append, List.filter_filter,
        List.filter_cons_of_pos (by simpa using hnew), List.filter_nil]
      congr 2
      apply List.filter_congr
      intro name _
      simp [not_or]

/-- Whether a list has the names of another, each once, in the order in which they are first seen
there. This is what `distinct` is said to do, without the pass that does it. -/
structure FirstSeen (names seen : List String) : Prop where
  nodup : seen.Nodup
  mem_iff : ∀ name, name ∈ seen ↔ name ∈ names
  order : seen.Pairwise fun first second => names.idxOf first < names.idxOf second

/-- A name more, at the end. If it was seen before, its place is the old one, and the list of names
that were seen stays as it is. -/
theorem FirstSeen.add {names seen : List String} (h : FirstSeen names seen) (name : String) :
    FirstSeen (names ++ [name]) (Names.add seen name) := by
  -- Names that were seen stay where they were seen first
  have hold : ∀ other ∈ seen, (names ++ [name]).idxOf other = names.idxOf other :=
    fun other hother => List.idxOf_append_of_mem ((h.mem_iff other).1 hother)
  have horder : seen.Pairwise fun first second =>
      (names ++ [name]).idxOf first < (names ++ [name]).idxOf second := by
    apply h.order.imp_of_mem
    intro first second hfirst hsecond hlt
    rwa [hold first hfirst, hold second hsecond]
  refine ⟨nodup_add h.nodup name, fun other => by simp [h.mem_iff], ?_⟩
  unfold Names.add
  split
  · exact horder
  · rename_i hnew
    refine List.pairwise_append.2
      ⟨horder, List.pairwise_singleton _ _, fun other hother _ hlast => ?_⟩
    have hnot : name ∉ names := fun hmem => hnew ((h.mem_iff _).2 hmem)
    -- The new name was not there, so that it is seen first behind everything else
    have hlt := List.idxOf_lt_length_of_mem ((h.mem_iff other).1 hother)
    rw [List.mem_singleton.1 hlast, hold other hother, List.idxOf_append_of_notMem hnot]
    omega

theorem FirstSeen.addAll {names seen : List String} (h : FirstSeen names seen)
    (later : List String) : FirstSeen (names ++ later) (Names.addAll seen later) := by
  induction later generalizing names seen with
  | nil => rwa [List.append_nil]
  | cons name rest ih =>
    rw [← List.singleton_append, ← List.append_assoc]
    exact ih (h.add name)

theorem firstSeen_distinct (names : List String) : FirstSeen names (distinct names) :=
  FirstSeen.addAll ⟨List.nodup_nil, fun _ => Iff.rfl, .nil⟩ names

/-- The first name with a property is the same, whether repeated names are left out or not. -/
theorem find?_addAll (p : String → Bool) (seen names : List String) :
    (addAll seen names).find? p = (seen.find? p).or (names.find? p) := by
  unfold addAll
  induction names generalizing seen with
  | nil => simp
  | cons name rest ih =>
    have hadd : (add seen name).find? p = (seen.find? p).or ([name].find? p) := by
      unfold add
      split
      · rename_i hmem
        -- A name that is seen already would have been found
        cases hfind : seen.find? p with
        | some found => rfl
        | none =>
          have hnot := List.find?_eq_none.1 hfind name hmem
          simp [hnot]
      · exact List.find?_append
    rw [List.foldl_cons, ih, hadd, Option.or_assoc, ← List.find?_append, List.singleton_append]

end QueryWeave.Names

namespace QueryWeave.Bindings

variable {α : Type}

/-- Binding names one after the other leaves each where it was first seen. -/
theorem names_foldl_put (value : String → α) (keys : List String) (start : Bindings α) :
    names (keys.foldl (fun known key => put key (value key) known) start) =
      Names.addAll (names start) keys := by
  induction keys generalizing start with
  | nil => rfl
  | cons first rest ih =>
    rw [List.foldl_cons, ih, names_put]
    rfl

/-- Binding names one after the other, each to the value that belongs to it, leaves every one of
them bound to its value. The value depends on the name alone, and so it does not matter which of
several bindings came last. -/
theorem find?_foldl_put (value : String → α) (keys : List String) (start : Bindings α)
    (key : String) :
    find? key (keys.foldl (fun known k => put k (value k) known) start) =
      if key ∈ keys then some (value key) else find? key start := by
  induction keys generalizing start with
  | nil => simp
  | cons first rest ih =>
    rw [List.foldl_cons, ih]
    -- Bound again behind here, bound here for the last time, or not bound at all
    by_cases hrest : key ∈ rest
    · rw [if_pos hrest, if_pos (List.mem_cons_of_mem _ hrest)]
    · by_cases hfirst : key = first
      · subst hfirst
        rw [if_neg hrest, if_pos List.mem_cons_self, find?_put_self]
      · have hnot : key ∉ first :: rest := by simp [hfirst, hrest]
        rw [if_neg hrest, if_neg hnot, find?_put_of_ne hfirst]

/-! ## Pairs bound one after the other -/

/-- Binding pairs unless their names are bound leaves each name where it was first seen. -/
theorem names_foldl_putNew (later known : Bindings α) :
    names (later.foldl (fun acc pair => putNew pair.1 pair.2 acc) known) =
      Names.addAll (names known) (names later) := by
  induction later generalizing known with
  | nil => rfl
  | cons pair rest ih =>
    -- One step adds the name if it is not bound yet, as adding to the names does
    have hnames : names (putNew pair.1 pair.2 known) = Names.add (names known) pair.1 := by
      have hbinds : binds pair.1 known = true ↔ pair.1 ∈ names known := by
        rw [binds, Option.isSome_iff_ne_none, ne_eq, find?_eq_none_iff, not_not]
      unfold putNew Names.add
      by_cases hmem : pair.1 ∈ names known
      · rw [if_pos (hbinds.2 hmem), if_pos hmem]
      · rw [if_neg fun hbound => hmem (hbinds.1 hbound), if_neg hmem, names, List.map_append]
        rfl
    rw [List.foldl_cons, ih, hnames]
    rfl

theorem nodup_names_foldl_putNew (later : Bindings α) {known : Bindings α}
    (h : (names known).Nodup) :
    (names (later.foldl (fun acc pair => putNew pair.1 pair.2 acc) known)).Nodup := by
  rw [names_foldl_putNew]
  exact Names.nodup_addAll h (names later)

/-- Pairs of new, distinct names are bound one behind the other. -/
theorem foldl_putNew_of_nodup {later known : Bindings α}
    (h : (names (known ++ later)).Nodup) :
    later.foldl (fun acc pair => putNew pair.1 pair.2 acc) known = known ++ later := by
  induction later generalizing known with
  | nil => simp
  | cons pair rest ih =>
    -- The first of the later names is not among those that are known
    have hnew : pair.1 ∉ names known := by
      rw [names, List.map_append, List.nodup_append] at h
      exact fun hmem => h.2.2 _ hmem _ List.mem_cons_self rfl
    have hunbound : binds pair.1 known = false := by
      rw [binds, find?_eq_none_iff.2 hnew]
      rfl
    have hput : putNew pair.1 pair.2 known = known ++ [pair] := by
      rw [putNew, if_neg (by simp [hunbound])]
    rw [List.foldl_cons, hput, ih (by simpa using h), List.append_assoc, List.singleton_append]

/-- A new name is bound behind the others. -/
theorem put_of_not_mem {name : String} {bindings : Bindings α} (h : name ∉ names bindings)
    (value : α) : put name value bindings = bindings ++ [(name, value)] := by
  induction bindings with
  | nil => rfl
  | cons pair rest ih =>
    rw [names_cons, List.mem_cons, not_or] at h
    rw [put, if_neg (Ne.symm h.1), ih h.2, List.cons_append]

/-- Pairs of new, distinct names are bound one behind the other, as by `foldl_putNew_of_nodup`. -/
theorem putAll_of_nodup {known later : Bindings α} (h : (names (known ++ later)).Nodup) :
    putAll known later = known ++ later := by
  unfold putAll
  induction later generalizing known with
  | nil => simp
  | cons pair rest ih =>
    have hnew : pair.1 ∉ names known := by
      rw [names, List.map_append, List.nodup_append] at h
      exact fun hmem => h.2.2 _ hmem _ List.mem_cons_self rfl
    rw [List.foldl_cons, put_of_not_mem hnew, ih (by simpa using h), List.append_assoc,
      List.singleton_append]

theorem collapse_of_nodup {pairs : Bindings α} (h : (names pairs).Nodup) : collapse pairs = pairs :=
  putAll_of_nodup h

/-- Binding pairs one after the other leaves each name where it was first seen. -/
theorem names_putAll (known later : Bindings α) :
    names (putAll known later) = Names.addAll (names known) (names later) := by
  unfold putAll
  induction later generalizing known with
  | nil => rfl
  | cons pair rest ih =>
    rw [List.foldl_cons, ih, names_put]
    rfl

theorem names_collapse (pairs : Bindings α) :
    names (collapse pairs) = Names.distinct (names pairs) :=
  names_putAll [] pairs

theorem nodup_names_collapse (pairs : Bindings α) : (names (collapse pairs)).Nodup := by
  rw [names_collapse]
  exact Names.nodup_distinct _

theorem mem_putAll {pair : String × α} {known later : Bindings α} (h : pair ∈ putAll known later) :
    pair ∈ known ∨ pair ∈ later := by
  unfold putAll at h
  induction later generalizing known with
  | nil => exact .inl h
  | cons next rest ih =>
    rcases ih h with hput | hrest
    · rcases mem_put hput with ⟨hname, hvalue⟩ | hknown
      · exact .inr (List.mem_cons.2 (.inl (Prod.ext hname hvalue)))
      · exact .inl hknown
    · exact .inr (List.mem_cons_of_mem _ hrest)

theorem mem_of_mem_collapse {pair : String × α} {pairs : Bindings α} (h : pair ∈ collapse pairs) :
    pair ∈ pairs :=
  (mem_putAll h).resolve_left (by simp)

/-- What was bound last is found first. -/
theorem find?_putAll_last (name : String) (known later : Bindings α) :
    find? name (putAll known later) = (find? name later.reverse).or (find? name known) := by
  unfold putAll
  induction later generalizing known with
  | nil => rfl
  | cons pair rest ih =>
    obtain ⟨bound, value⟩ := pair
    rw [List.foldl_cons, ih, List.reverse_cons, find?_append, Option.or_assoc, find?]
    by_cases hname : bound = name
    · rw [hname, find?_put_self, if_pos rfl, Option.some_or]
    · rw [find?_put_of_ne (Ne.symm hname), if_neg hname, find?_nil, Option.none_or]

/-- To bind the same pairs again, in the same order, changes nothing. No name is new the second
time, and each gets the value that it has. -/
theorem putAll_again {known : Bindings α} (hdistinct : (names known).Nodup) (later : Bindings α) :
    putAll (putAll known later) later = putAll known later := by
  have hnames : names (putAll (putAll known later) later) = names (putAll known later) := by
    rw [names_putAll]
    apply Names.addAll_of_mem
    intro name hname
    rw [names_putAll]
    exact Names.mem_addAll.2 (.inr hname)
  -- Bindings with the same names are the same if lookups agree on these
  apply ext_find? hnames
  · rw [hnames, names_putAll]
    exact Names.nodup_addAll hdistinct _
  · intro name _
    rw [find?_putAll_last, find?_putAll_last, ← Option.or_assoc, Option.or_self]

end QueryWeave.Bindings
