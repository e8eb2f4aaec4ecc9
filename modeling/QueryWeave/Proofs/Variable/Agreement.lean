import QueryWeave.Proofs.Variable.Findings

/-!
# Declarations Agree With What Is Sent

Declarations are inferred in one loop over the keys, and the values to be sent are picked in
another. Each loop keeps an account of its own: inference of the names it has looked at, the other
of the names it has bound. It is proved of each of them that it goes by the first key that carries a
name, whatever the value under it. So they agree: a value without a type is not passed over for a
later one that has a type, it is warned about, and it is the value that is sent. Names that are only
referenced come behind those that are given.

- `Carries.findingsAbout_eq`: inference goes by the first key that carries a name.
- `agreementLaws`: what is declared, what is warned about, and what is sent.
-/

namespace QueryWeave

/-! ## §1 Findings, one for each name

A finding belongs to one name, and the names of findings are distinct. So what is declared and what
is warned about are told apart name by name. -/

/-- Helper: where `f` tells the entries of a list apart, one of them is all that has its image. -/
private theorem filter_eq_singleton {α : Type} {f : α → String} {xs : List α}
    (hnodup : (xs.map f).Nodup) {x : α} (hx : x ∈ xs) : xs.filter (fun y => f y = f x) = [x] := by
  induction xs with
  | nil => cases hx
  | cons first rest ih =>
    obtain ⟨hnew, hrest⟩ := List.nodup_cons.1 hnodup
    rcases List.mem_cons.1 hx with rfl | hmem
    · -- No other entry has the image of the first
      have hnone : rest.filter (fun y => f y = f x) = [] := by
        apply List.filter_eq_nil_iff.2
        intro y hy hsame
        exact hnew (List.mem_map.2 ⟨y, hy, of_decide_eq_true hsame⟩)
      rw [List.filter_cons_of_pos (by simp), hnone]
    · have hne : f first ≠ f x := fun heq => hnew (heq ▸ List.mem_map_of_mem hmem)
      rw [List.filter_cons_of_neg (by simpa using hne), ih hrest hmem]

variable {referenced : List String} {values : JsonObject}

/-- The names that are only referenced, in first-seen order. -/
def onlyReferenced (referenced : List String) (values : JsonObject) : List String :=
  (Names.distinct referenced).filter fun name => name ∉ keyNames values

theorem mem_onlyReferenced {name : String} :
    name ∈ onlyReferenced referenced values ↔ name ∈ referenced ∧ name ∉ keyNames values := by
  rw [onlyReferenced, List.mem_filter, Names.mem_distinct, decide_eq_true_eq]

/-- The findings are about the names that are sent, in the order in which they are sent, and then
about those that are only referenced. This ties the account of the one loop to that of the other. -/
theorem names_inferFindings_eq (referenced : List String) (values : JsonObject) :
    (inferFindings referenced values).map Finding.name =
      Bindings.names (stripModifiers values) ++ onlyReferenced referenced values := by
  have hseen : ∀ name, decide (name ∉ Names.distinct (keyNames values)) =
      decide (name ∉ keyNames values) := fun name => by simp
  rw [names_inferFindings, Names.addAll_eq, names_stripModifiers, onlyReferenced]
  simp only [hseen]

/-- What is found out about one name: something exactly if it is given or referenced. -/
def findingsAbout (referenced : List String) (values : JsonObject) (name : String) : List Finding :=
  (inferFindings referenced values).filter fun finding => finding.name = name

/-- About a name that is given, what is found out is what its first carrier says. -/
theorem Carries.findingsAbout_eq {name key : String} {value : Json}
    (h : Carries values name key value) (referenced : List String) :
    findingsAbout referenced values name = [.ofVariable (VariableKey.read key) value] := by
  have hmem := h.mem_inferFindings referenced
  have hname : (Finding.ofVariable (VariableKey.read key) value).name = name := by
    obtain ⟨-, -, -, hkey, -⟩ := h
    rw [Finding.name_ofVariable, hkey]
  have hsingle := filter_eq_singleton (nodup_names_inferFindings referenced values) hmem
  rwa [hname] at hsingle

/-- About a name that is only referenced, what is found out is what the name says. -/
theorem findingsAbout_of_onlyReferenced {name : String}
    (h : name ∈ onlyReferenced referenced values) :
    findingsAbout referenced values name = [.ofReference name] := by
  obtain ⟨hreferenced, hnot⟩ := mem_onlyReferenced.1 h
  obtain ⟨finding, hfinding, hname⟩ := exists_finding_iff.2 (.inr hreferenced)
  -- It is not what a given variable says, for no key carries the name
  have hfound : finding = .ofReference name := by
    obtain ⟨pair, hpair, rfl⟩ | ⟨other, -, rfl⟩ := mem_inferFindings hfinding
    · rw [Finding.name_ofVariable] at hname
      exact absurd (List.mem_map.2 ⟨pair, hpair, hname⟩) hnot
    · rw [Finding.name_ofReference] at hname
      rw [hname]
  have hsingle := filter_eq_singleton (nodup_names_inferFindings referenced values) hfinding
  rwa [hname, hfound] at hsingle

/-- About no other name is anything found out. -/
theorem findingsAbout_eq_nil {name : String} (hgiven : name ∉ keyNames values)
    (hother : name ∉ referenced) : findingsAbout referenced values name = [] := by
  apply List.filter_eq_nil_iff.2
  intro finding hfinding hname
  rcases exists_finding_iff.1 ⟨finding, hfinding, of_decide_eq_true hname⟩
    with ⟨pair, hpair, heq⟩ | h
  · exact hgiven (List.mem_map.2 ⟨pair, hpair, heq⟩)
  · exact hother h

/-! ## §2 Declarations and warnings by name -/

namespace Inference

def declaring (i : Inference) (name : String) : List Declaration :=
  i.declarations.filter fun d => d.name = name

def warning (i : Inference) (name : String) : List Warning :=
  i.warnings.filter fun w => w.name = name

end Inference

theorem declaring_infer (referenced : List String) (values : JsonObject) (name : String) :
    (infer referenced values).declaring name =
      (findingsAbout referenced values name).filterMap Finding.declaration? := by
  rw [Inference.declaring, infer, findingsAbout, List.filter_filterMap, List.filterMap_filter]
  congr 1
  funext finding
  cases finding with
  | declared d => by_cases h : d.name = name <;> simp [Finding.declaration?, Finding.name, h]
  | warned w => simp [Finding.declaration?]

theorem warning_infer (referenced : List String) (values : JsonObject) (name : String) :
    (infer referenced values).warning name =
      (findingsAbout referenced values name).filterMap Finding.warning? := by
  rw [Inference.warning, infer, findingsAbout, List.filter_filterMap, List.filterMap_filter]
  congr 1
  funext finding
  cases finding with
  | declared d => simp [Finding.warning?]
  | warned w => by_cases h : w.name = name <;> simp [Finding.warning?, Finding.name, h]

/-- A finding is a declaration or a warning, and never both. -/
theorem Finding.length_singleton (finding : Finding) :
    ([finding].filterMap declaration?).length + ([finding].filterMap warning?).length = 1 := by
  cases finding <;> rfl

/-- The findings that are declarations keep the order of the findings. -/
theorem Finding.sublist_declarations (findings : List Finding) :
    ((findings.filterMap declaration?).map Declaration.name).Sublist (findings.map name) := by
  induction findings with
  | nil => exact .slnil
  | cons finding rest ih =>
    cases finding with
    | declared d => exact ih.cons_cons _
    | warned w => exact ih.cons _

/-! ## §3 The laws -/

/-- What is declared, warned about and sent, for the names referenced and the variables given. The
one loop declares and warns, the other sends; `first` says that for every name they go by the same
key. -/
structure AgreementLaws (referenced : List String) (values : JsonObject) : Prop where
  /-- A name in a key or among those referenced is declared once or warned about once, and not both;
  no other name is either. -/
  once : ∀ name,
    ((infer referenced values).declaring name).length +
        ((infer referenced values).warning name).length =
      if name ∈ keyNames values ∨ name ∈ referenced then 1 else 0
  /-- The names that are given are declared in the order in which they are sent, and those that are
  only referenced behind them. -/
  order : ∃ given others,
    (infer referenced values).declarations.map Declaration.name = given ++ others ∧
      given.Sublist (Bindings.names (stripModifiers values)) ∧
      others.Sublist (onlyReferenced referenced values)
  /-- The first key that carries a name says how it is declared, and which value is sent. Where it
  says nothing of a type the name is not declared, whatever later keys say. -/
  first : ∀ name ∈ keyNames values, ∃ key value, Carries values name key value ∧
    Bindings.find? name (stripModifiers values) = some value ∧
    (infer referenced values).declaring name =
      ((VariableKey.read key).declaration? (some value)).toList ∧
    ((VariableKey.read key).declaration? (some value) = none →
      (infer referenced values).warning name = [.untyped name value])
  /-- A name that is only referenced is declared if it speaks of an identifier. -/
  others : ∀ name ∈ onlyReferenced referenced values,
    if namesIdentifier name then (infer referenced values).declaring name = [⟨name, "ID!", none⟩]
    else (infer referenced values).warning name = [.unknown name]
  /-- What is sent has the names in the keys, each once, where it is first seen. -/
  sent : Names.FirstSeen (keyNames values) (Bindings.names (stripModifiers values))
  /-- What is sent would be sent as it is. -/
  again : stripModifiers (stripModifiers values) = stripModifiers values

/-- **Every name is declared or warned about once, and declared as the key whose value is sent
says.** No key is assumed to be of a documented form, and no value to have a type. -/
theorem agreementLaws (referenced : List String) (values : JsonObject) :
    AgreementLaws referenced values := by
  constructor
  case once =>
    intro name
    rw [declaring_infer, warning_infer]
    -- A name is given, only referenced, or neither
    by_cases hgiven : name ∈ keyNames values
    · obtain ⟨key, value, hcarries⟩ := exists_carrier hgiven
      rw [hcarries.findingsAbout_eq, if_pos (.inl hgiven), Finding.length_singleton]
    · by_cases hother : name ∈ referenced
      · rw [findingsAbout_of_onlyReferenced (mem_onlyReferenced.2 ⟨hother, hgiven⟩),
          if_pos (.inr hother), Finding.length_singleton]
      · rw [findingsAbout_eq_nil hgiven hother, if_neg (not_or.2 ⟨hgiven, hother⟩)]
        rfl
  case order =>
    have hnames : (infer referenced values).declarations.map Declaration.name |>.Sublist
        (Bindings.names (stripModifiers values) ++ onlyReferenced referenced values) := by
      rw [← names_inferFindings_eq]
      exact Finding.sublist_declarations _
    obtain ⟨given, others, heq, hgiven, hothers⟩ := List.sublist_append_iff.1 hnames
    exact ⟨given, others, heq, hgiven, hothers⟩
  case first =>
    intro name hname
    obtain ⟨key, value, hcarries⟩ := exists_carrier hname
    have hkey : (VariableKey.read key).name = name := by
      obtain ⟨-, -, -, hkey, -⟩ := hcarries
      exact hkey
    -- The one carrier answers for both loops
    refine ⟨key, value, hcarries, hcarries.find?_stripModifiers, ?_, ?_⟩
    · rw [declaring_infer, hcarries.findingsAbout_eq, Finding.ofVariable]
      cases (VariableKey.read key).declaration? (some value) <;> rfl
    · intro hnone
      rw [warning_infer, hcarries.findingsAbout_eq, Finding.ofVariable, hnone, hkey]
      rfl
  case others =>
    intro name hname
    rw [declaring_infer, warning_infer, findingsAbout_of_onlyReferenced hname, Finding.ofReference]
    split
    · rfl
    · rfl
  case sent =>
    rw [names_stripModifiers]
    exact Names.firstSeen_distinct _
  case again => exact stripModifiers_again values

end QueryWeave
