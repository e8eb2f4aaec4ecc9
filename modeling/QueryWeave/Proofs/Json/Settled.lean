import QueryWeave.Json.Draft
import QueryWeave.Proofs.Names

/-!
# Settled Values

A JSON value is *settled* if no object in it binds a name twice. Reading settles: of a repeated name
the first place and the last value are kept, in every object however deep it lies. So what is read
is settled, and a settled value is read back as it is.

- `Draft.settled_of_value?`: what is read is settled.
- `Json.Settled.value?_ofJson`: a settled value is read back as it is.
- `Draft.record?_ofMembers`: what is read under the fields of a record that was written as an
  object.
-/

namespace QueryWeave

/-- Values in which every object binds each name once. Reading gives only such values, since a name
bound again replaces the value in its place; values built otherwise need not be settled. -/
inductive Json.Settled : Json → Prop
  | null : Settled .null
  | bool (value : Bool) : Settled (.bool value)
  | number (value : Number) : Settled (.number value)
  | string (value : String) : Settled (.string value)
  | array {items : List Json} (hitems : ∀ item ∈ items, Settled item) : Settled (.array items)
  | object {members : List (String × Json)} (hnames : (Bindings.names members).Nodup)
      (hvalues : ∀ member ∈ members, Settled member.2) : Settled (.object members)

namespace Draft

/-! ## §1 What is read is settled -/

mutual

theorem settled_of_value? : ∀ {draft : Draft} {value : Json}, draft.value? = some value →
    value.Settled
  | .null, _, h => by cases h; exact .null
  | .bool value, _, h => by cases h; exact .bool value
  | .number value, _, h => by cases h; exact .number value
  | .string value, _, h => by cases h; exact .string value
  | .array items, _, h => by
    obtain ⟨values, hvalues, rfl⟩ := Option.map_eq_some_iff.1 h
    exact .array (settled_of_values? hvalues)
  | .object members, _, h => by
    obtain ⟨pairs, hpairs, rfl⟩ := Option.map_eq_some_iff.1 h
    -- Collapsing leaves each name once, and takes its values from the pairs
    refine .object (Bindings.nodup_names_collapse pairs) fun member hmember => ?_
    exact settled_of_memberValues? hpairs member (Bindings.mem_of_mem_collapse hmember)
  | .beyond, _, h => by cases h

theorem settled_of_values? : ∀ {items : List Draft} {values : List Json},
    values? items = some values → ∀ value ∈ values, value.Settled
  | [], _, h => by
    cases h
    simp
  | item :: rest, _, h => by
    obtain ⟨value, hvalue, hrest⟩ := Option.bind_eq_some_iff.1 h
    obtain ⟨others, hothers, heq⟩ := Option.bind_eq_some_iff.1 hrest
    cases heq
    exact List.forall_mem_cons.2 ⟨settled_of_value? hvalue, settled_of_values? hothers⟩

theorem settled_of_memberValues? : ∀ {members : List (Option String × Draft)}
    {pairs : List (String × Json)}, memberValues? members = some pairs →
    ∀ pair ∈ pairs, pair.2.Settled
  | [], _, h => by
    cases h
    simp
  | (name, member) :: rest, _, h => by
    obtain ⟨name, -, hmember⟩ := Option.bind_eq_some_iff.1 h
    obtain ⟨value, hvalue, hrest⟩ := Option.bind_eq_some_iff.1 hmember
    obtain ⟨others, hothers, heq⟩ := Option.bind_eq_some_iff.1 hrest
    -- All three steps succeed: the name is known, the value settles, and so do the rest
    cases heq
    exact List.forall_mem_cons.2 ⟨settled_of_value? hvalue, settled_of_memberValues? hothers⟩

end

theorem settled_of_items? {draft : Draft} {items : List Json} (h : draft.items? = some items) :
    (Json.array items).Settled := by
  cases draft with
  | array parts => exact .array (settled_of_values? h)
  | _ => cases h

theorem settled_of_object? {draft : Draft} {members : JsonObject}
    (h : draft.object? = some members) : (Json.object members).Settled := by
  cases draft with
  | object parts =>
    -- The members are read as those of any object
    obtain ⟨pairs, hpairs, rfl⟩ := Option.map_eq_some_iff.1 h
    have hvalue : (Draft.object parts).value? = some (.object (Bindings.collapse pairs)) := by
      rw [value?, hpairs, Option.map_some]
    exact settled_of_value? hvalue
  | _ => cases h

/-! ## §2 What is settled is read back -/

/-- Helper: items that are read back one by one are read back together. -/
private theorem values?_ofItems {items : List Json}
    (h : ∀ item ∈ items, value? (ofJson item) = some item) :
    values? (ofItems items) = some items := by
  induction items with
  | nil => rfl
  | cons item rest ih =>
    obtain ⟨hitem, hrest⟩ := List.forall_mem_cons.1 h
    rw [ofItems, values?, hitem, ih hrest]
    rfl

private theorem memberValues?_ofMembers {members : List (String × Json)}
    (h : ∀ member ∈ members, value? (ofJson member.2) = some member.2) :
    memberValues? (ofMembers members) = some members := by
  induction members with
  | nil => rfl
  | cons member rest ih =>
    obtain ⟨hmember, hrest⟩ := List.forall_mem_cons.1 h
    rw [ofMembers, memberValues?, hmember, ih hrest]
    rfl

end Draft

namespace Json

/-- **A settled value is read back as it is.** -/
theorem Settled.value?_ofJson {value : Json} (h : value.Settled) :
    (Draft.ofJson value).value? = some value := by
  induction h with
  | null | bool | number | string => rfl
  | array hitems ih => rw [Draft.ofJson, Draft.value?, Draft.values?_ofItems ih, Option.map_some]
  | object hnames hvalues ih =>
    rw [Draft.ofJson, Draft.value?, Draft.memberValues?_ofMembers ih, Option.map_some,
      Bindings.collapse_of_nodup hnames]

theorem Settled.items?_ofJson {items : List Json} (h : (Json.array items).Settled) :
    (Draft.ofJson (.array items)).items? = some items := by
  obtain ⟨values, hvalues, heq⟩ := Option.map_eq_some_iff.1 h.value?_ofJson
  cases heq
  exact hvalues

theorem Settled.object?_ofJson {members : JsonObject} (h : (Json.object members).Settled) :
    (Draft.ofJson (.object members)).object? = some members := by
  obtain ⟨pairs, hpairs, heq⟩ := Option.map_eq_some_iff.1 h.value?_ofJson
  cases heq
  rw [Draft.ofJson, Draft.object?, hpairs, Option.map_some]

end Json

namespace Draft

/-! ## §3 Records that were written as objects -/

theorem ofItems_eq_map (items : List Json) : ofItems items = items.map ofJson := by
  induction items with
  | nil => rfl
  | cons item rest ih => rw [ofItems, ih, List.map_cons]

theorem ofMembers_eq_map (members : List (String × Json)) :
    ofMembers members = members.map fun member => (some member.1, ofJson member.2) := by
  induction members with
  | nil => rfl
  | cons member rest ih => rw [ofMembers, ih, List.map_cons]

/-- A field that stands once is found by its name. -/
theorem field?_ofMembers {members : List (String × Json)} (h : (Bindings.names members).Nodup)
    (field : String) :
    field? (ofMembers members) field = some ((Bindings.find? field members).map ofJson) := by
  induction members with
  | nil => rfl
  | cons member rest ih =>
    obtain ⟨name, value⟩ := member
    rw [Bindings.names_cons, List.nodup_cons] at h
    rw [Bindings.find?]
    by_cases hname : name = field
    · -- No later member has the same name
      subst hname
      have hnone : (ofMembers rest).filter (fun member => member.1 = some name) = [] := by
        rw [ofMembers_eq_map, List.filter_eq_nil_iff]
        intro member hmember
        obtain ⟨other, hother, rfl⟩ := List.mem_map.1 hmember
        intro heq
        rw [decide_eq_true_eq, Option.some.injEq] at heq
        exact h.1 (heq ▸ List.mem_map_of_mem hother)
      rw [ofMembers, field?, List.filter_cons_of_pos (by simp), hnone, if_pos rfl]
      rfl
    · have hskip : field? (ofMembers ((name, value) :: rest)) field =
          field? (ofMembers rest) field := by
        rw [ofMembers, field?, List.filter_cons_of_neg (by simpa using hname)]
        rfl
      rw [hskip, ih h.2, if_neg hname]

/-- The parts of a record that was written as an object are those under the names of its fields. -/
theorem record?_ofMembers {members : List (String × Json)} (h : (Bindings.names members).Nodup)
    (fields : List String) :
    record? fields (ofJson (.object members)) =
      some (fields.map fun field => (Bindings.find? field members).map ofJson) := by
  have hnamed : ((ofMembers members).all fun member => member.1.isSome) = true := by
    simp [ofMembers_eq_map]
  rw [ofJson, record?, if_pos hnamed]
  -- From here on the fields are asked for one by one
  clear hnamed
  induction fields with
  | nil => rfl
  | cons field rest ih =>
    rw [List.mapM_cons, field?_ofMembers h, ih]
    rfl

/-! ## §4 Parts of records -/

/-- What is read under a field is its default, or is read from a part. -/
theorem fieldOr_inversion {α : Type} {absent x : α} {read : Draft → Option α} {part : Option Draft}
    (h : fieldOr absent read part = some x) : x = absent ∨ ∃ draft, read draft = some x := by
  cases part with
  | none =>
    cases h
    exact .inl rfl
  | some draft => exact .inr ⟨draft, h⟩

/-- What is present in an optional field is read from a part. -/
theorem exists_of_nullable {α : Type} {x : α} {read : Draft → Option α} {part : Option Draft}
    (h : fieldOr none (nullable read) part = some (some x)) : ∃ draft, read draft = some x := by
  obtain hnone | ⟨draft, hdraft⟩ := fieldOr_inversion h
  · cases hnone
  · refine ⟨draft, ?_⟩
    cases draft with
    | null => cases hdraft
    | _ =>
      obtain ⟨value, hvalue, heq⟩ := Option.map_eq_some_iff.1 hdraft
      cases heq
      exact hvalue

/-- An optional field that is written if it is present is read back. -/
theorem fieldOr_nullable_map {α : Type} {read : Draft → Option α} {write : α → Json}
    {part : Option α}
    (h : ∀ x, part = some x → nullable read (ofJson (write x)) = some (some x)) :
    fieldOr none (nullable read) ((part.map write).map ofJson) = some part := by
  cases part with
  | none => rfl
  | some x => exact h x rfl

end Draft

theorem Json.Settled.nullable_items?_ofJson {items : List Json} (h : (Json.array items).Settled) :
    Draft.nullable Draft.items? (Draft.ofJson (.array items)) = some (some items) := by
  have hitems := congrArg (Option.map some) h.items?_ofJson
  exact hitems

theorem Json.Settled.nullable_object?_ofJson {members : JsonObject}
    (h : (Json.object members).Settled) :
    Draft.nullable Draft.object? (Draft.ofJson (.object members)) = some (some members) := by
  have hmembers := congrArg (Option.map some) h.object?_ofJson
  exact hmembers

end QueryWeave
