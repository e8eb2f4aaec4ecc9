import QueryWeave.Proofs.Fragment.Complete
import QueryWeave.Proofs.Operation.Mentioned
import QueryWeave.Proofs.Operation.Relevant
import QueryWeave.Proofs.Variable.Findings

/-!
# Variables That Are Accounted For

Where declarations are inferred, every variable of a document is to be declared, or named in a
warning: none is to be left out in silence. Inference looks at the variables that are given and at
the selection set of the operation, before the spreads of the operation are resolved. So a variable
that stands in a fragment, or in the operation outside of its selection set, is accounted for only
if it is given, or if the selection set references it as well.

- `Compiled.AccountsForVariables`: what is to be expected of a compiled operation.
- `Outline.Considers`: the names that inference looks at.
- `accountingLaws_of_compile`: what is accounted for, and which variables a document has.
-/

namespace QueryWeave

open OperationParts (variablesIn)

/-! ## §1 Findings and their names -/

/-- Helper: a quoted name inside of a text. -/
private theorem quoted_name {front back before after : String} (name : String)
    (hfront : front = before ++ "`$") (hback : back = "`" ++ after) (rest : String) :
    front ++ name ++ back ++ rest = before ++ "`$" ++ name ++ "`" ++ (after ++ rest) := by
  simp only [hfront, hback, String.append_assoc]

/-- The text of a warning has the name in it. -/
theorem Warning.exists_message (w : Warning) :
    ∃ before after, w.message = before ++ "`$" ++ w.name ++ "`" ++ after := by
  -- Both messages have the name in quotes behind their first words
  cases w with
  | untyped name value =>
    have hmessage := @quoted_name "Unable to infer a GraphQL type for variable `$"
      "` from value `" "Unable to infer a GraphQL type for variable " " from value `" name
      (by decide +kernel) (by decide +kernel) (value.compact ++ "`; it will not be declared.")
    rw [← String.append_assoc] at hmessage
    exact ⟨_, _, hmessage⟩
  | unknown name =>
    exact ⟨_, _, @quoted_name "Variable `$"
      "` is referenced but has no value to infer a type from; " "Variable "
      " is referenced but has no value to infer a type from; " name (by decide +kernel)
      (by decide +kernel) "it will not be declared."⟩

/-- Every finding is a declaration or a warning about its name. So a name is accounted for exactly
if it is a key of the values, or referenced. -/
theorem infer_accounts_iff {referenced : List String} {values : JsonObject} {name : String} :
    ((∃ d ∈ (infer referenced values).declarations, d.name = name) ∨
        ∃ w ∈ (infer referenced values).warnings, w.name = name) ↔
      (∃ pair ∈ values, (VariableKey.read pair.1).name = name) ∨ name ∈ referenced := by
  rw [← exists_finding_iff]
  constructor
  · rintro (⟨d, hd, rfl⟩ | ⟨w, hw, rfl⟩)
    · obtain ⟨finding, hfinding, hdeclared⟩ := List.mem_filterMap.1 hd
      cases finding with
      | declared other =>
        cases hdeclared
        exact ⟨_, hfinding, rfl⟩
      | warned w => cases hdeclared
    · obtain ⟨finding, hfinding, hwarned⟩ := List.mem_filterMap.1 hw
      cases finding with
      | declared d => cases hwarned
      | warned other =>
        cases hwarned
        exact ⟨_, hfinding, rfl⟩
  · -- The other way around, each finding goes to the list of its sort
    rintro ⟨finding, hfinding, rfl⟩
    cases finding with
    | declared d => exact .inl ⟨d, List.mem_filterMap.2 ⟨_, hfinding, rfl⟩, rfl⟩
    | warned w => exact .inr ⟨w, List.mem_filterMap.2 ⟨_, hfinding, rfl⟩, rfl⟩

/-! ## §2 Operations -/

namespace Outline

variable {source : String} {o : Outline} {values : JsonObject} {whenAbsent : Bool}

/-- The names that inference looks at: those of the variables that are given, and those referenced
in the selection set. -/
def Considers (o : Outline) (values : JsonObject) (name : String) : Prop :=
  (∃ pair ∈ values, (VariableKey.read pair.1).name = name) ∨ name ∈ variablesIn o.selection.row

/-- Where declarations are inferred, they take the place of the request, or are put in. -/
theorem declare_of_infers (source : String) (values : JsonObject) (h : o.Infers whenAbsent) :
    ∃ text, o.declare source values whenAbsent =
        ⟨text, (infer o.referencedVariables values).declarations,
          (infer o.referencedVariables values).warnings⟩ ∧
      ((∃ old, o.signature = some old ∧ text = String.ofList
          (o.replaceSignature old (infer o.referencedVariables values).declarations)) ∨
        o.signature = none ∧ text = String.ofList
          (o.insertSignature (infer o.referencedVariables values).declarations)) := by
  rcases h with hkind | ⟨hnone, rfl⟩
  · -- A request is a signature that is there
    obtain ⟨old, hold⟩ : ∃ old, o.signature = some old := by
      cases hsignature : o.signature with
      | none => simp [signatureKind, hsignature] at hkind
      | some old => exact ⟨old, rfl⟩
    exact ⟨_, declare_autodeclare hold hkind source values whenAbsent, .inl ⟨old, hold, rfl⟩⟩
  · exact ⟨_, declare_absent hnone source values, .inr ⟨hnone, rfl⟩⟩

/-- An operation has the variables that are declared for it, and those that stood outside of its
signature. -/
theorem mem_textVariables_declare (ho : ofText? source = some o) (hinfers : o.Infers whenAbsent)
    (hkeys : ∀ pair ∈ values, DocumentedKey pair.1) (name : String) :
    name ∈ textVariables (o.declare source values whenAbsent).text ↔
      (∃ d ∈ (o.declare source values whenAbsent).declarations, d.name = name) ∨
        name ∈ variablesIn (o.middle ++ o.selection.row ++ o.after) := by
  have hprintable : ∀ d ∈ (infer o.referencedVariables values).declarations, d.Printable :=
    fun d hd => (printable_inferred ho hkeys d hd).1
  obtain ⟨text, hdeclare, htext⟩ := declare_of_infers source values hinfers
  rw [hdeclare]
  -- The declarations come first in the one text, and behind the directives in the other
  rcases htext with ⟨old, hold, htext⟩ | ⟨hnone, htext⟩
  · rw [textVariables, htext, scanText, String.toList_ofList,
      variablesIn_replaceSignature ho hold hprintable, List.mem_append, List.mem_map]
  · rw [textVariables, htext, scanText, String.toList_ofList,
      variablesIn_insertSignature ho hnone hprintable]
    simp only [variablesIn_append, List.mem_append, List.mem_map, or_assoc]
    exact or_left_comm

end Outline

/-! ## §3 Definitions

A document has the variables of the operation and of every definition behind it. The operation's own
are declared or warned about; those of the definitions are not looked at. -/

/-- The definition of a fragment has the variables of its body. -/
theorem Fragment.textVariables_definition {f : Fragment} (hname : IsName f.flatName.toList) :
    textVariables f.definition = variablesIn f.row := by
  rw [textVariables, definition, scanText_define hname, variablesIn_cons_of_not rfl,
    variablesIn_cons_of_not rfl, variablesIn_indent]
  rfl

namespace Library

variable {lib : Library} {template : Template} {values : JsonObject} {whenAbsent : Bool}
  {compiled : Compiled}

/-- The variables in the body under a name, if there is one. -/
def variablesUnder (lib : Library) (name : String) : List String :=
  (lib.find? name).toList.flatMap fun f => variablesIn f.row

/-- Helper: what entries give one by one, they give together. -/
private theorem flatMap_eq_of_forall₂ {α β γ : Type} {f : α → List γ} {g : β → List γ}
    {xs : List α} {ys : List β} (h : List.Forall₂ (fun x y => g y = f x) xs ys) :
    ys.flatMap g = xs.flatMap f := by
  induction h with
  | nil => rfl
  | cons hfirst _ ih => rw [List.flatMap_cons, List.flatMap_cons, hfirst, ih]

/-- The definitions that come with an operation have the variables of the bodies. -/
theorem textVariables_fragments (h : lib.compile template values whenAbsent = .ok compiled) :
    compiled.fragments.flatMap textVariables =
      compiled.fragmentNames.flatMap lib.variablesUnder := by
  obtain ⟨o, resolved, -, hresolve, hdefinitions, -, -, hnames⟩ := compile_inversion h
  obtain ⟨-, horder, -⟩ := dependenciesFirst_of_resolve hresolve
  rw [hnames]
  -- Every name listed has a fragment, and its definition stands at the same place
  have heach : List.Forall₂ (fun name text => textVariables text = lib.variablesUnder name)
      resolved.used compiled.fragments := by
    refine ((List.forall₂_and_left _ _).2
      ⟨horder.fragment, forall₂_definitions hdefinitions⟩).imp fun name text hfound => ?_
    obtain ⟨⟨g, hg, hname, hspread, -⟩, f, hfind, rfl⟩ := hfound
    rw [hfind] at hg
    cases hg
    rw [Fragment.textVariables_definition (hname ▸ hspread.1), variablesUnder, hfind]
    simp
  exact flatMap_eq_of_forall₂ heach

/-- They are those that are reached. -/
theorem mem_fragmentNames_iff (h : lib.compile template values whenAbsent = .ok compiled)
    (name : String) : name ∈ compiled.fragmentNames ↔
      lib.Reaches (template.pathsSpread values whenAbsent) name := by
  obtain ⟨o, resolved, ho, hresolve, -, -, -, hnames⟩ := compile_inversion h
  rw [hnames, Template.pathsSpread_of_outline ho]
  exact ((lib.closureLaws_resolve _).listed resolved hresolve).2 name

end Library

/-! ## §4 Documents -/

namespace Compiled

/-- Whether a compilation has something to say about a name: it declares it, or warns about it. -/
def AccountsFor (c : Compiled) (name : String) : Prop :=
  (∃ d ∈ c.declarations, d.name = name) ∨ ∃ w ∈ c.warnings, w.name = name

/-- The variables of a document: those of the operation, and those of every definition. -/
def documentVariables (c : Compiled) : List String :=
  (c.operation :: c.fragments).flatMap textVariables

theorem mem_documentVariables {c : Compiled} {name : String} : name ∈ c.documentVariables ↔
    name ∈ textVariables c.operation ∨ name ∈ c.fragments.flatMap textVariables := by
  rw [documentVariables, List.flatMap_cons, List.mem_append]

/-- What is to be expected of a compiled operation: no variable of its document goes undeclared in
silence. -/
def AccountsForVariables (c : Compiled) : Prop :=
  ∀ name ∈ c.documentVariables, c.AccountsFor name

end Compiled

/-- What is accounted for is what inference looks at. -/
theorem Library.accountsFor_iff {lib : Library} {template : Template} {values : JsonObject}
    {whenAbsent : Bool} {o : Outline} {compiled : Compiled}
    (ho : Outline.ofText? template.source = some o) (hinfers : o.Infers whenAbsent)
    (hcompile : lib.compile template values whenAbsent = .ok compiled) (name : String) :
    compiled.AccountsFor name ↔ o.Considers values name := by
  obtain ⟨resolved, -, -, hdeclarations, hwarnings, -⟩ := compile_inversion_of_outline ho hcompile
  obtain ⟨text, hdeclare, -⟩ := Outline.declare_of_infers template.source values hinfers
  rw [Compiled.AccountsFor, hdeclarations, hwarnings, hdeclare, infer_accounts_iff,
    Outline.Considers, Outline.referencedVariables, Names.mem_distinct, variablesIn]

/-- What a compilation accounts for where declarations are inferred, and which variables it has. The
first two laws are about declarations and warnings, the next three about the variables of the
document, and the last two compare both. -/
structure AccountingLaws (lib : Library) (template : Template) (values : JsonObject)
    (whenAbsent : Bool) (o : Outline) (compiled : Compiled) : Prop where
  /-- The names of the variables that are given and of those referenced in the selection set are
  accounted for, and no others. -/
  accounted : ∀ name, compiled.AccountsFor name ↔ o.Considers values name
  /-- A warning has its name in the text. -/
  named : ∀ w ∈ compiled.warnings, ∃ before after,
    w.message = before ++ "`$" ++ w.name ++ "`" ++ after
  /-- The operation has the variables that are declared, if their keys have one of the documented
  forms, and those that stood outside of its signature. -/
  operation : (∀ pair ∈ values, DocumentedKey pair.1) → ∀ name,
    name ∈ textVariables compiled.operation ↔
      (∃ d ∈ compiled.declarations, d.name = name) ∨
        name ∈ variablesIn (o.middle ++ o.selection.row ++ o.after)
  /-- The definitions have the variables of the bodies that are reached from it. -/
  definitions : ∀ name, name ∈ compiled.fragments.flatMap textVariables ↔
    ∃ flat, lib.Reaches (template.pathsSpread values whenAbsent) flat ∧
      name ∈ lib.variablesUnder flat
  /-- The document has the variables of both, if none of its parts but the last is left open. -/
  document : (∀ text ∈ (compiled.operation :: compiled.fragments).dropLast, ¬LeftOpen text) →
    textVariables compiled.document = compiled.documentVariables
  /-- The expectation is met exactly if every variable is given, or referenced in the selection
  set. -/
  expected : compiled.AccountsForVariables ↔
    ∀ name ∈ compiled.documentVariables, o.Considers values name
  /-- With documented keys, that is a matter of the variables in fragments, and of those in the
  operation outside of its signature and its selection set. -/
  elsewhere : (∀ pair ∈ values, DocumentedKey pair.1) →
    (compiled.AccountsForVariables ↔
      (∀ name ∈ variablesIn (o.middle ++ o.after), o.Considers values name) ∧
        ∀ flat, lib.Reaches (template.pathsSpread values whenAbsent) flat →
          ∀ name ∈ lib.variablesUnder flat, o.Considers values name)

/-- **Where declarations are inferred, the variables that are given and those referenced in the
selection set are accounted for**, and those that stand elsewhere are not on their own account. They
stand in directives in front of the selection set, in definitions behind it, and in fragments. -/
theorem accountingLaws_of_compile {lib : Library} {template : Template} {values : JsonObject}
    {whenAbsent : Bool} {o : Outline} {compiled : Compiled}
    (ho : Outline.ofText? template.source = some o) (hinfers : o.Infers whenAbsent)
    (hcompile : lib.compile template values whenAbsent = .ok compiled) :
    AccountingLaws lib template values whenAbsent o compiled := by
  obtain ⟨resolved, hresolve, -, hdeclarations, -, htext, -⟩ :=
    Library.compile_inversion_of_outline ho hcompile
  have haccounted := Library.accountsFor_iff ho hinfers hcompile
  -- Resolution renames spreads, and leaves the variables where they are
  have hoperation : textVariables compiled.operation =
      textVariables (o.declare template.source values whenAbsent).text := by
    rw [htext, textVariables, lib.scan_resolved hresolve, variablesIn, filter_respread]
    · rfl
    · rintro l (hkind | hkind) <;> simp [Lexeme.isVariable, hkind]
    · exact fun _ _ => rfl
  have hdefinitions : ∀ name, name ∈ compiled.fragments.flatMap textVariables ↔
      ∃ flat, lib.Reaches (template.pathsSpread values whenAbsent) flat ∧
        name ∈ lib.variablesUnder flat := by
    intro name
    rw [Library.textVariables_fragments hcompile, List.mem_flatMap]
    simp only [Library.mem_fragmentNames_iff hcompile]
  have hexpected : compiled.AccountsForVariables ↔
      ∀ name ∈ compiled.documentVariables, o.Considers values name :=
    forall₂_congr fun name _ => haccounted name
  have hfilled : (∀ pair ∈ values, DocumentedKey pair.1) → ∀ name,
      name ∈ textVariables compiled.operation ↔
        (∃ d ∈ compiled.declarations, d.name = name) ∨
          name ∈ variablesIn (o.middle ++ o.selection.row ++ o.after) := by
    intro hkeys name
    rw [hoperation, hdeclarations]
    exact Outline.mem_textVariables_declare ho hinfers hkeys name
  constructor
  case accounted => exact haccounted
  case named => exact fun w _ => w.exists_message
  case operation => exact hfilled
  case definitions => exact hdefinitions
  case document => exact fun hclosed => textVariables_joined hclosed
  case expected => exact hexpected
  case elsewhere =>
    intro hkeys
    simp only [hexpected, Compiled.mem_documentVariables, hfilled hkeys, hdefinitions,
      variablesIn_append, List.mem_append]
    constructor
    · exact fun h => ⟨fun name hname => h name (.inl (.inr (hname.imp .inl id))),
        fun flat hflat name hname => h name (.inr ⟨flat, hflat, hname⟩)⟩
    · rintro ⟨houtside, hreached⟩ name ((hdeclared | (hmiddle | hselection) | hafter) | hbody)
      · -- What is declared is accounted for
        exact (haccounted name).1 (.inl hdeclared)
      · exact houtside name (.inl hmiddle)
      · exact .inr hselection
      · exact houtside name (.inr hafter)
      · obtain ⟨flat, hflat, hname⟩ := hbody
        exact hreached flat hflat name hname

/-- A library with a fragment that takes an argument from a variable. -/
def sizedCards : Library :=
  Library.empty.run [.single "card" "on Post {size(width: $width)}"]

/-- An operation that spreads this fragment, and references nothing itself. -/
def postWithCard : Template :=
  ⟨.query, "query (@autodeclare) {post {...card}}"⟩

/-- Helper: how the operation is compiled. -/
private theorem exists_compiled_postWithCard :
    ∃ o compiled, Outline.ofText? postWithCard.source = some o ∧ o.Infers false ∧
      sizedCards.compile postWithCard [] false = .ok compiled ∧
      variablesIn o.selection.row = [] ∧ "width" ∈ compiled.documentVariables := by
  have hsome : (Outline.ofText? postWithCard.source).isSome = true := by decide +kernel
  obtain ⟨o, ho⟩ := Option.isSome_iff_exists.1 hsome
  -- What can be computed of the outline is computed at once
  have hfacts : (Outline.ofText? postWithCard.source).all (fun o =>
      o.signatureKind = .autodeclare ∧ variablesIn o.selection.row = [] ∧
        pathsSpread (o.declare postWithCard.source [] false).text = ["card"]) = true := by
    decide +kernel
  rw [ho] at hfacts
  simp only [Option.all_some, decide_eq_true_eq] at hfacts
  obtain ⟨hkind, hnone, hpaths⟩ := hfacts
  have hfind : sizedCards.find? "card" =
      some ⟨"card", "on Post {size(width: $width)}"⟩ := by decide +kernel
  obtain ⟨compiled, hcompile, -, -, hnames⟩ := Library.exists_compiled ho
    (Library.resolve_of_leaf hpaths hfind (by decide +kernel))
  refine ⟨o, compiled, ho, .inl hkind, hcompile, hnone, Compiled.mem_documentVariables.2 (.inr ?_)⟩
  rw [Library.textVariables_fragments hcompile, hnames]
  exact List.mem_flatMap.2 ⟨_, List.mem_singleton.2 rfl, by decide +kernel⟩

/-- The laws hold of an operation whose only variable stands in a fragment. -/
theorem accountingLaws_postWithCard :
    ∃ o compiled, (Outline.ofText? postWithCard.source = some o ∧ o.Infers false ∧
        sizedCards.compile postWithCard [] false = .ok compiled) ∧
      AccountingLaws sizedCards postWithCard [] false o compiled := by
  obtain ⟨o, compiled, ho, hinfers, hcompile, -⟩ := exists_compiled_postWithCard
  exact ⟨o, compiled, ⟨ho, hinfers, hcompile⟩, accountingLaws_of_compile ho hinfers hcompile⟩

/-- The variable of the fragment is neither declared nor named in a warning. -/
theorem not_accountsForVariables_postWithCard :
    ∃ o compiled, (Outline.ofText? postWithCard.source = some o ∧ o.Infers false ∧
        sizedCards.compile postWithCard [] false = .ok compiled) ∧
      ¬compiled.AccountsForVariables := by
  obtain ⟨o, compiled, ho, hinfers, hcompile, hnone, hwidth⟩ := exists_compiled_postWithCard
  refine ⟨o, compiled, ⟨ho, hinfers, hcompile⟩, fun hexpected => ?_⟩
  have hconsidered := (Library.accountsFor_iff ho hinfers hcompile _).1 (hexpected _ hwidth)
  simp [Outline.Considers, hnone] at hconsidered

end QueryWeave
