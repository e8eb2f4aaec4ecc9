import QueryWeave.Proofs.Variable.Carried

/-!
# What Inference Finds Out

Inference is a loop over the keys that are given, and then one over the names that are referenced.
Its state has the names that were looked at, and one finding for each of them. A name is looked at
once: what was found out first stays where it is, and nothing is found out about the name again.

- `Inferring.look`: one step, with what it keeps and what it adds.
- `Inferring.Sound`: findings are about the names seen, one by one; every step keeps this.
- `names_inferFindings`, `mem_inferFindings`: what the two loops come to.
- `Carries.mem_inferFindings`: about a name that is given, the first key that carries it counts.
-/

namespace QueryWeave

/-! ## §1 Names of findings -/

def Warning.name : Warning → String
  | .untyped name _ => name
  | .unknown name => name

def Finding.name : Finding → String
  | .declared d => d.name
  | .warned w => w.name

theorem Finding.name_ofVariable (key : VariableKey) (value : Json) :
    (ofVariable key value).name = key.name := by
  unfold ofVariable
  cases hdeclaration : key.declaration? (some value) with
  | none => rfl
  | some d =>
    unfold VariableKey.declaration? at hdeclaration
    split at hdeclaration
    · cases hdeclaration
      rfl
    · obtain ⟨type, -, rfl⟩ := Option.map_eq_some_iff.1 hdeclaration
      rfl

theorem Finding.name_ofReference (name : String) : (ofReference name).name = name := by
  unfold ofReference
  split <;> rfl

namespace Inferring

/-! ## §2 One look -/

section Look

variable {state : Inferring} {name : String} {finding : Finding}

theorem seen_look (state : Inferring) (name : String) (finding : Finding) :
    (state.look name finding).seen = Names.add state.seen name := by
  unfold look Names.add
  split <;> rfl

theorem findings_look_of_not_mem (h : name ∉ state.seen) (finding : Finding) :
    (state.look name finding).findings = state.findings ++ [finding] := by
  rw [look, if_neg h]

/-- A look takes no finding away. -/
theorem prefix_look (state : Inferring) (name : String) (finding : Finding) :
    state.findings <+: (state.look name finding).findings := by
  unfold look
  split
  · exact List.prefix_refl _
  · exact List.prefix_append _ _

theorem mem_look {found : Finding} (h : found ∈ (state.look name finding).findings) :
    found ∈ state.findings ∨ found = finding := by
  unfold look at h
  split at h
  · exact .inl h
  · simpa using h

/-- Whether the findings are about the names that were looked at, one by one. -/
def Sound (state : Inferring) : Prop :=
  state.findings.map Finding.name = state.seen

theorem Sound.look (h : state.Sound) (hname : finding.name = name) :
    (state.look name finding).Sound := by
  unfold Sound Inferring.look at *
  split
  · exact h
  · rw [List.map_append, h, List.map_singleton, hname]

end Look

/-! ## §3 Loops of looks

The loop over the keys and the loop over the references do the same with different things. Both are
`looks`, and what is known of one step is proved of the loops by induction on the list. -/

section Looks

variable {α : Type} (name : α → String) (finding : α → Finding)

/-- Look at a list of things, each of which has a name and gives a finding. Both loops of inference
are of this form. -/
def looks (state : Inferring) (things : List α) : Inferring :=
  things.foldl (fun s thing => s.look (name thing) (finding thing)) state

theorem seen_looks (state : Inferring) (things : List α) :
    (state.looks name finding things).seen = Names.addAll state.seen (things.map name) := by
  unfold looks Names.addAll
  induction things generalizing state with
  | nil => rfl
  | cons thing rest ih =>
    rw [List.foldl_cons, ih, seen_look]
    rfl

theorem prefix_looks (state : Inferring) (things : List α) :
    state.findings <+: (state.looks name finding things).findings := by
  unfold looks
  induction things generalizing state with
  | nil => exact List.prefix_refl _
  | cons thing rest ih => exact (prefix_look state _ _).trans (ih _)

variable {name finding}

theorem mem_looks {state : Inferring} {things : List α} {found : Finding}
    (h : found ∈ (state.looks name finding things).findings) :
    found ∈ state.findings ∨ ∃ thing ∈ things, found = finding thing := by
  unfold looks at h
  induction things generalizing state with
  | nil => exact .inl h
  | cons thing rest ih =>
    rcases ih h with hlook | ⟨later, hlater, heq⟩
    · -- It was there, or comes from the first thing
      rcases mem_look hlook with hold | heq
      · exact .inl hold
      · exact .inr ⟨thing, List.mem_cons_self, heq⟩
    · exact .inr ⟨later, List.mem_cons_of_mem _ hlater, heq⟩

theorem Sound.looks {state : Inferring} (h : state.Sound) {things : List α}
    (hname : ∀ thing ∈ things, (finding thing).name = name thing) :
    (state.looks name finding things).Sound := by
  unfold Inferring.looks
  induction things generalizing state with
  | nil => exact h
  | cons thing rest ih =>
    obtain ⟨hthing, hrest⟩ := List.forall_mem_cons.1 hname
    exact ih (h.look hthing) hrest

/-- The first thing of a name that was not seen before is the one that counts: its finding is added
when the loop comes to it, and stays. -/
theorem mem_looks_of_first {state : Inferring} {before after : List α} {thing : α}
    (hseen : name thing ∉ state.seen) (hbefore : name thing ∉ before.map name) :
    finding thing ∈ (state.looks name finding (before ++ thing :: after)).findings := by
  have hnew : name thing ∉ (state.looks name finding before).seen := by
    rw [seen_looks, Names.mem_addAll]
    exact not_or.2 ⟨hseen, hbefore⟩
  -- In front of it the loop has not seen the name, so its finding is added; behind it, findings
  -- stay
  have hadded : finding thing ∈
      ((state.looks name finding before).look (name thing) (finding thing)).findings := by
    rw [findings_look_of_not_mem hnew]
    exact List.mem_append_right _ (List.mem_singleton_self _)
  have hsplit : state.looks name finding (before ++ thing :: after) =
      ((state.looks name finding before).look (name thing) (finding thing)).looks
        name finding after := by
    rw [looks, List.foldl_append, List.foldl_cons]
    rfl
  rw [hsplit]
  exact (prefix_looks name finding _ after).subset hadded

end Looks

end Inferring

/-! ## §4 The findings -/

variable {referenced : List String} {values : JsonObject}

/-- What the loop over the given variables comes to. -/
def inferringGiven (values : JsonObject) : Inferring :=
  Inferring.looks (fun pair : String × Json => (VariableKey.read pair.1).name)
    (fun pair => .ofVariable (VariableKey.read pair.1) pair.2) ⟨[], []⟩ values

/-- The loop over the references goes on where the one over the given variables has ended. -/
theorem inferFindings_eq (referenced : List String) (values : JsonObject) :
    inferFindings referenced values =
      ((inferringGiven values).looks id Finding.ofReference referenced).findings :=
  rfl

theorem seen_inferringGiven (values : JsonObject) :
    (inferringGiven values).seen = Names.distinct (keyNames values) :=
  Inferring.seen_looks _ _ _ values

theorem sound_inferringGiven (values : JsonObject) : (inferringGiven values).Sound := by
  have hstart : (⟨[], []⟩ : Inferring).Sound := rfl
  exact hstart.looks fun pair _ => Finding.name_ofVariable _ pair.2

/-- There is one finding for each name that is given, and then one for each that is referenced and
not given. The second loop goes on with the names that the first one has seen. -/
theorem names_inferFindings (referenced : List String) (values : JsonObject) :
    (inferFindings referenced values).map Finding.name =
      Names.addAll (Names.distinct (keyNames values)) referenced := by
  have hsound : ((inferringGiven values).looks id Finding.ofReference referenced).Sound :=
    (sound_inferringGiven values).looks fun name _ => Finding.name_ofReference name
  rw [inferFindings_eq, hsound, Inferring.seen_looks, seen_inferringGiven, List.map_id]

/-- No name is looked at twice. -/
theorem nodup_names_inferFindings (referenced : List String) (values : JsonObject) :
    ((inferFindings referenced values).map Finding.name).Nodup := by
  rw [names_inferFindings]
  exact Names.nodup_addAll (Names.nodup_distinct _) _

/-- A finding is what some given variable says, or some name that is referenced. -/
theorem mem_inferFindings {finding : Finding} (h : finding ∈ inferFindings referenced values) :
    (∃ pair ∈ values, finding = .ofVariable (VariableKey.read pair.1) pair.2) ∨
      ∃ name ∈ referenced, finding = .ofReference name := by
  rw [inferFindings_eq] at h
  rcases Inferring.mem_looks h with hgiven | hreferenced
  · left
    rcases Inferring.mem_looks hgiven with hnone | hpair
    · cases hnone
    · exact hpair
  · exact .inr hreferenced

/-- About a name that is given, what the first key that carries it says is found out, even if it is
that the value has no type. -/
theorem Carries.mem_inferFindings {name key : String} {value : Json}
    (h : Carries values name key value) (referenced : List String) :
    .ofVariable (VariableKey.read key) value ∈ inferFindings referenced values := by
  obtain ⟨before, after, rfl, rfl, hnew⟩ := h
  have hgiven : Finding.ofVariable (VariableKey.read key) value ∈
      (inferringGiven (before ++ (key, value) :: after)).findings :=
    @Inferring.mem_looks_of_first _ _ _ ⟨[], []⟩ before after (key, value) List.not_mem_nil hnew
  rw [inferFindings_eq]
  exact (Inferring.prefix_looks _ _ _ referenced).subset hgiven

/-- Something is found out about a name exactly if it is given or referenced. -/
theorem exists_finding_iff {name : String} :
    (∃ finding ∈ inferFindings referenced values, finding.name = name) ↔
      (∃ pair ∈ values, (VariableKey.read pair.1).name = name) ∨ name ∈ referenced := by
  rw [← List.mem_map, names_inferFindings, Names.mem_addAll, Names.mem_distinct, keyNames,
    List.mem_map]

end QueryWeave
