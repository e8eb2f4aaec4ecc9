import QueryWeave.Bindings

/-!
# Laws of Ordered Bindings

How the operations on bindings act on the bound names, on lookups, and on the values taken
together. Names that are distinct stay distinct; unbinding a name takes away exactly what a
lookup of it would have found.
-/

namespace QueryWeave.Bindings

variable {α β : Type}

/-! ## §1 Lookups and membership -/

@[simp] theorem names_nil : names ([] : Bindings α) = [] := rfl

@[simp] theorem names_cons (name : String) (value : α) (rest : Bindings α) :
    names ((name, value) :: rest) = name :: names rest := rfl

theorem mem_of_find? {name : String} {value : α} {bindings : Bindings α}
    (h : find? name bindings = some value) : (name, value) ∈ bindings := by
  induction bindings with
  | nil => simp at h
  | cons pair rest ih =>
    obtain ⟨bound, old⟩ := pair
    simp only [find?] at h
    split at h
    · rename_i hb
      cases h
      exact hb ▸ List.mem_cons_self
    · exact List.mem_cons_of_mem _ (ih h)

theorem find?_eq_none_iff {name : String} {bindings : Bindings α} :
    find? name bindings = none ↔ name ∉ names bindings := by
  induction bindings with
  | nil => simp
  | cons pair rest ih =>
    obtain ⟨bound, old⟩ := pair
    simp only [find?, names_cons, List.mem_cons, not_or]
    split
    · rename_i hb
      simp [hb]
    · rename_i hb
      rw [ih]
      exact ⟨fun h => ⟨Ne.symm hb, h⟩, fun h => h.2⟩

/-- Among distinct names, a lookup finds the binding that is there. -/
theorem find?_of_mem {name : String} {value : α} {bindings : Bindings α}
    (hdistinct : (names bindings).Nodup) (h : (name, value) ∈ bindings) :
    find? name bindings = some value := by
  induction bindings with
  | nil => simp at h
  | cons pair rest ih =>
    obtain ⟨bound, old⟩ := pair
    rw [names_cons, List.nodup_cons] at hdistinct
    rcases List.mem_cons.1 h with heq | hrest
    · cases heq
      simp [find?]
    · -- The binding in front has another name, because names are not repeated
      have hne : bound ≠ name := by
        intro hb
        exact hdistinct.1 (hb ▸ List.mem_map.2 ⟨(name, value), hrest, rfl⟩)
      rw [find?, if_neg hne]
      exact ih hdistinct.2 hrest

/-- Bindings of the same distinct names, in one order, are the same if the lookups are. This is how
maps are compared that were built in different ways. -/
theorem ext_find? {first second : Bindings α} (hnames : names first = names second)
    (hdistinct : (names first).Nodup)
    (hfind : ∀ name ∈ names first, find? name first = find? name second) : first = second := by
  induction first generalizing second with
  | nil => exact (List.map_eq_nil_iff.1 hnames.symm).symm
  | cons pair rest ih =>
    obtain ⟨name, value⟩ := pair
    cases second with
    | nil => simp at hnames
    | cons other more =>
      obtain ⟨bound, found⟩ := other
      obtain ⟨rfl, hmore⟩ := List.cons.inj hnames
      obtain ⟨hnew, hrest⟩ := List.nodup_cons.1 hdistinct
      have hvalue : value = found := by simpa [find?] using hfind name List.mem_cons_self
      -- A name further behind is another one, so its lookup goes past the first pair
      have hbehind : ∀ later ∈ names rest, find? later rest = find? later more := by
        intro later hlater
        have hne : name ≠ later := fun heq => hnew (heq ▸ hlater)
        simpa [find?, hne] using hfind later (List.mem_cons_of_mem _ hlater)
      rw [hvalue, ih hmore hrest hbehind]

/-- Behind a binding, every other binding was there before. -/
theorem mem_put {name bound : String} {value old : α} {bindings : Bindings α}
    (h : (bound, old) ∈ put name value bindings) :
    (bound = name ∧ old = value) ∨ (bound, old) ∈ bindings := by
  induction bindings with
  | nil => simpa [put] using h
  | cons pair rest ih =>
    obtain ⟨first, kept⟩ := pair
    rw [put] at h
    split at h
    · rcases List.mem_cons.1 h with heq | hrest
      · cases heq
        exact .inl ⟨rfl, rfl⟩
      · exact .inr (List.mem_cons_of_mem _ hrest)
    · rcases List.mem_cons.1 h with heq | hrest
      · exact .inr (heq ▸ List.mem_cons_self)
      · exact (ih hrest).imp id (List.mem_cons_of_mem _)

/-- A lookup in joined bindings looks at the first ones first. -/
theorem find?_append (name : String) (first second : Bindings α) :
    find? name (first ++ second) = (find? name first).or (find? name second) := by
  induction first with
  | nil => simp
  | cons pair rest ih =>
    obtain ⟨bound, value⟩ := pair
    rw [List.cons_append, find?, find?]
    split
    · rfl
    · exact ih

/-- Renaming all names apart from each other renames the lookups. -/
theorem find?_map_key (rename : String → String)
    (hrename : ∀ name other, rename name = rename other → name = other) (name : String)
    (bindings : Bindings α) :
    find? (rename name) (bindings.map fun pair => (rename pair.1, pair.2)) =
      find? name bindings := by
  induction bindings with
  | nil => rfl
  | cons pair rest ih =>
    obtain ⟨bound, value⟩ := pair
    rw [List.map_cons, find?, find?, ih]
    by_cases hb : bound = name
    · rw [if_pos hb, if_pos (congrArg rename hb)]
    · rw [if_neg hb, if_neg fun heq => hb (hrename _ _ heq)]

/-- Changing all values changes what the lookups find. -/
theorem find?_map_value (f : α → β) (name : String) (bindings : Bindings α) :
    find? name (bindings.map fun pair => (pair.1, f pair.2)) = (find? name bindings).map f := by
  induction bindings with
  | nil => rfl
  | cons pair rest ih =>
    obtain ⟨bound, value⟩ := pair
    rw [List.map_cons, find?, find?, ih]
    split <;> rfl

theorem find?_putNew (name bound : String) (value : α) (bindings : Bindings α) :
    find? name (putNew bound value bindings) =
      (find? name bindings).or (if bound = name then some value else none) := by
  unfold putNew
  split
  · rename_i hbound
    by_cases heq : bound = name
    · subst heq
      obtain ⟨old, hold⟩ := Option.isSome_iff_exists.1 hbound
      rw [hold, Option.some_or]
    · rw [if_neg heq, Option.or_none]
  · rw [find?_append]
    rfl

/-- Of lists of bindings one behind the other, the first one with the name counts. -/
theorem find?_flatMap {β : Type} (name : String) (f : β → Bindings α) (items : List β) :
    find? name (items.flatMap f) = items.findSome? fun item => find? name (f item) := by
  induction items with
  | nil => rfl
  | cons item rest ih =>
    rw [List.flatMap_cons, find?_append, ih, List.findSome?_cons]
    cases find? name (f item) <;> rfl

/-- Of bindings put together, the first one of a name counts. -/
theorem find?_foldl_putNew (name : String) (later known : Bindings α) :
    find? name (later.foldl (fun acc pair => putNew pair.1 pair.2 acc) known) =
      (find? name known).or (find? name later) := by
  induction later generalizing known with
  | nil => simp
  | cons pair rest ih =>
    obtain ⟨bound, value⟩ := pair
    rw [List.foldl_cons, ih, find?_putNew, Option.or_assoc, find?]
    split <;> simp

/-! ## §2 Bound names -/

/-- Binding a name adds it behind the others, unless it was bound. -/
theorem names_put (name : String) (value : α) (bindings : Bindings α) :
    names (put name value bindings) =
      if name ∈ names bindings then names bindings else names bindings ++ [name] := by
  induction bindings with
  | nil => simp [put]
  | cons pair rest ih =>
    obtain ⟨bound, old⟩ := pair
    by_cases hb : bound = name
    · simp [put, hb]
    · rw [put, if_neg hb, names_cons, names_cons, ih]
      by_cases hmem : name ∈ names rest
      · rw [if_pos hmem, if_pos (List.mem_cons_of_mem _ hmem)]
      · have hnew : name ∉ bound :: names rest := by simp [hmem, Ne.symm hb]
        rw [if_neg hmem, if_neg hnew, List.cons_append]

theorem mem_names_put {name bound : String} {value : α} {bindings : Bindings α} :
    bound ∈ names (put name value bindings) ↔ bound ∈ names bindings ∨ bound = name := by
  rw [names_put]
  split
  · rename_i hmem
    constructor
    · exact .inl
    · rintro (hbound | rfl)
      · exact hbound
      · exact hmem
  · rw [List.mem_append, List.mem_singleton]

theorem nodup_names_put {name : String} {value : α} {bindings : Bindings α}
    (h : (names bindings).Nodup) : (names (put name value bindings)).Nodup := by
  rw [names_put]
  split
  · exact h
  · rename_i hnew
    rw [List.nodup_append]
    refine ⟨h, by simp, ?_⟩
    intro a ha b hb hab
    rw [List.mem_singleton] at hb
    exact hnew (hb ▸ hab ▸ ha)

theorem nodup_names_drop {name : String} {bindings : Bindings α}
    (h : (names bindings).Nodup) : (names (drop name bindings)).Nodup :=
  List.Nodup.sublist (List.filter_sublist.map Prod.fst) h

/-! ## §3 Unbinding -/

theorem drop_cons_self (name : String) (value : α) (rest : Bindings α) :
    drop name ((name, value) :: rest) = drop name rest := by
  simp [drop]

theorem drop_cons_of_ne {bound name : String} (h : bound ≠ name) (value : α)
    (rest : Bindings α) :
    drop name ((bound, value) :: rest) = (bound, value) :: drop name rest := by
  simp [drop, h]

@[simp] theorem find?_drop_self (name : String) (bindings : Bindings α) :
    find? name (drop name bindings) = none := by
  rw [find?_eq_none_iff]
  simp [names, drop]

/-- Unbinding one name leaves the value of every other name alone. -/
theorem find?_drop_of_ne {name other : String} (h : other ≠ name) (bindings : Bindings α) :
    find? other (drop name bindings) = find? other bindings := by
  induction bindings with
  | nil => rfl
  | cons pair rest ih =>
    obtain ⟨bound, old⟩ := pair
    by_cases hb : bound = name
    · subst hb
      rw [drop_cons_self, ih, find?, if_neg (Ne.symm h)]
    · rw [drop_cons_of_ne hb, find?, find?, ih]

/-- Where no name is bound twice, dropping a name that is not bound changes nothing. -/
theorem drop_of_not_mem {name : String} {bindings : Bindings α}
    (h : name ∉ names bindings) : drop name bindings = bindings := by
  apply List.filter_eq_self.2
  intro pair hpair
  have hne : pair.1 ≠ name := fun hb => h (hb ▸ List.mem_map_of_mem hpair)
  simpa using hne

/-! ## §4 All values together -/

/-- What `f` makes of all values, one after the other. Sessions count their tickets so: an entry is
where some list of entries has it. -/
def gather (f : α → List β) (bindings : Bindings α) : List β :=
  bindings.flatMap fun pair => f pair.2

/-- What a lookup finds and what unbinding leaves make up everything. -/
theorem gather_drop_perm (f : α → List β) (name : String)
    {bindings : Bindings α} (hdistinct : (names bindings).Nodup) :
    (gather f bindings).Perm
      (((find? name bindings).map f).getD [] ++ gather f (drop name bindings)) := by
  induction bindings with
  | nil => simp [gather, drop]
  | cons pair rest ih =>
    obtain ⟨bound, old⟩ := pair
    rw [names_cons, List.nodup_cons] at hdistinct
    by_cases hb : bound = name
    · -- The name is bound here, and nowhere behind
      subst hb
      rw [drop_cons_self, drop_of_not_mem hdistinct.1, find?, if_pos rfl]
      exact List.Perm.refl _
    · rw [drop_cons_of_ne hb, find?, if_neg hb]
      have hrest := (ih hdistinct.2).append_left (f old)
      exact hrest.trans (List.perm_append_comm_assoc ..)

/-- Binding a name puts what `f` makes of its new value in the place of what it makes of its
old one. -/
theorem gather_put_perm (f : α → List β) (name : String) (value : α) (bindings : Bindings α) :
    (gather f (put name value bindings) ++ ((find? name bindings).map f).getD []).Perm
      (f value ++ gather f bindings) := by
  induction bindings with
  | nil => simp [gather, put]
  | cons pair rest ih =>
    obtain ⟨bound, old⟩ := pair
    -- The replaced value moves to the end, past everything that was gathered behind it
    by_cases hb : bound = name
    · simp only [put, if_pos hb, gather, List.flatMap_cons, find?, Option.map_some,
        Option.getD_some]
      rw [List.append_assoc]
      exact List.perm_append_comm.append_left (f value)
    · simp only [put, if_neg hb, gather, List.flatMap_cons, find?] at ih ⊢
      rw [List.append_assoc]
      exact (ih.append_left (f old)).trans (List.perm_append_comm_assoc ..)

end QueryWeave.Bindings
