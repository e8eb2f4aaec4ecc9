import Mathlib.Data.List.TakeWhile
import QueryWeave.Proofs.Names
import QueryWeave.Variable.Inference

/-!
# Names Carried by Keys

Variables are given under keys, and several keys may carry one name. What is kept for a name is the
first key that carries it, with its value; what is sent is that value, under the bare name.

- `Carries`: the first key that carries a name.
- `names_stripModifiers`, `Carries.find?_stripModifiers`: names and values that are sent.
- `stripModifiers_again`: bare names are left as they are.
-/

namespace QueryWeave

/-! ## §1 Carriers -/

/-- The names in the keys, in order. -/
def keyNames (values : JsonObject) : List String :=
  values.map fun pair => (VariableKey.read pair.1).name

/-- Whether a key with its value is the first one that carries a name. Later keys may carry it too,
with other modifiers and other values. -/
def Carries (values : JsonObject) (name key : String) (value : Json) : Prop :=
  ∃ before after, values = before ++ (key, value) :: after ∧
    (VariableKey.read key).name = name ∧ name ∉ keyNames before

/-- Every name in a key has a first carrier. -/
theorem exists_carrier {values : JsonObject} {name : String} (h : name ∈ keyNames values) :
    ∃ key value, Carries values name key value := by
  induction values with
  | nil => cases h
  | cons pair rest ih =>
    obtain ⟨key, value⟩ := pair
    by_cases hname : (VariableKey.read key).name = name
    · exact ⟨key, value, [], rest, rfl, hname, List.not_mem_nil⟩
    · -- The first key carries another name, and is passed over
      have hrest : name ∈ keyNames rest :=
        (List.mem_cons.1 h).resolve_left fun heq => hname heq.symm
      obtain ⟨later, found, before, after, rfl, hlater, hnew⟩ := ih hrest
      refine ⟨later, found, (key, value) :: before, after, rfl, hlater, ?_⟩
      exact List.not_mem_cons_of_ne_of_not_mem (Ne.symm hname) hnew

/-! ## §2 What is sent -/

/-- The values by the names in their keys, repeated names included. -/
def bareValues (values : JsonObject) : JsonObject :=
  values.map fun pair => ((VariableKey.read pair.1).name, pair.2)

theorem names_bareValues (values : JsonObject) :
    Bindings.names (bareValues values) = keyNames values := by
  simp [bareValues, keyNames, Bindings.names]

/-- What is sent is put together name by name, the first value of each. -/
theorem stripModifiers_eq (values : JsonObject) :
    stripModifiers values =
      (bareValues values).foldl (fun sent pair => Bindings.putNew pair.1 pair.2 sent) [] := by
  rw [bareValues, List.foldl_map]
  rfl

theorem names_stripModifiers (values : JsonObject) :
    Bindings.names (stripModifiers values) = Names.distinct (keyNames values) := by
  rw [stripModifiers_eq, Bindings.names_foldl_putNew, names_bareValues]
  rfl

/-- No name is sent twice. -/
theorem nodup_stripModifiers (values : JsonObject) :
    (Bindings.names (stripModifiers values)).Nodup := by
  rw [names_stripModifiers]
  exact Names.nodup_distinct _

/-- The value sent under a name is that of the first key that carries it. -/
theorem Carries.find?_stripModifiers {values : JsonObject} {name key : String} {value : Json}
    (h : Carries values name key value) :
    Bindings.find? name (stripModifiers values) = some value := by
  obtain ⟨before, after, rfl, rfl, hnew⟩ := h
  have hbefore : Bindings.find? (VariableKey.read key).name (bareValues before) = none :=
    Bindings.find?_eq_none_iff.2 (by rwa [names_bareValues])
  -- A lookup in what is sent is one in all values, and goes past those in front
  rw [stripModifiers_eq, Bindings.find?_foldl_putNew, Bindings.find?_nil, Option.none_or,
    bareValues, List.map_append, Bindings.find?_append]
  change Option.or (Bindings.find? _ (bareValues before)) _ = _
  rw [hbefore, Option.none_or, List.map_cons, Bindings.find?, if_pos rfl]

/-- No exclamation mark stands in a name. -/
theorem VariableKey.not_mem_name (key : String) : '!' ∉ (read key).name.toList := by
  have hname : (read key).name.toList = key.toList.takeWhile (· ≠ '!') := by
    unfold read
    dsimp only
    split <;> simp
  rw [hname]
  intro hmem
  have hpass := List.all_eq_true.1 (List.all_takeWhile (p := fun c => decide (c ≠ '!'))) _ hmem
  simp at hpass

/-- A key without an exclamation mark is a name. -/
theorem VariableKey.read_bare {key : String} (h : '!' ∉ key.toList) : read key = ⟨key, .none⟩ := by
  have hpass : ∀ c ∈ key.toList, decide (c ≠ '!') = true := fun c hc =>
    decide_eq_true fun heq => h (heq ▸ hc)
  have htake : key.toList.takeWhile (· ≠ '!') = key.toList :=
    List.takeWhile_eq_self_iff.2 hpass
  have hdrop : key.toList.dropWhile (· ≠ '!') = [] :=
    List.dropWhile_eq_nil_iff.2 hpass
  unfold read
  dsimp only
  rw [htake, hdrop, String.ofList_toList]

/-- What is sent has bare names already, and is sent as it is. So a caller may take the modifiers
off before the client does. -/
theorem stripModifiers_again (values : JsonObject) :
    stripModifiers (stripModifiers values) = stripModifiers values := by
  have hbare : ∀ pair ∈ stripModifiers values, VariableKey.read pair.1 = ⟨pair.1, .none⟩ := by
    intro pair hpair
    have hname : pair.1 ∈ keyNames values := by
      rw [← Names.mem_distinct, ← names_stripModifiers]
      exact List.mem_map_of_mem hpair
    obtain ⟨given, -, heq⟩ := List.mem_map.1 hname
    exact VariableKey.read_bare (heq ▸ VariableKey.not_mem_name given.1)
  have hnodup := nodup_stripModifiers values
  generalize stripModifiers values = sent at hbare hnodup
  -- Every key is a name already, and no name stands there twice
  have hbareValues : bareValues sent = sent := by
    refine (List.map_congr_left fun pair hpair => ?_).trans (List.map_id sent)
    rw [hbare pair hpair]
    rfl
  rw [stripModifiers_eq, hbareValues, Bindings.foldl_putNew_of_nodup (by simpa using hnodup),
    List.nil_append]

end QueryWeave
