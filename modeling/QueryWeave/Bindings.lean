/-!
# Ordered Bindings

Names bound to values, in the order in which the names were first bound. Binding a name
again changes its value and keeps its place. Variables, response data, headers and the
fragments of a library are all kept this way, because their order shows in what is written.
-/

namespace QueryWeave

/-- Names with their values, oldest name first.

A list and no tree or hash table: what is read of bindings is their order as much as their values,
and equality of lists is equality of what is written. -/
abbrev Bindings (α : Type) := List (String × α)

namespace Bindings

/-! ## §1 Reading -/

def names {α : Type} (bindings : Bindings α) : List String :=
  bindings.map Prod.fst

/-- The value bound to a name. Of several pairs with one name the first counts; lists made by `put`
and `putNew` have no second one. -/
def find? {α : Type} (name : String) : Bindings α → Option α
  | [] => none
  | (bound, value) :: rest => if bound = name then some value else find? name rest

def binds {α : Type} (name : String) (bindings : Bindings α) : Bool :=
  (find? name bindings).isSome

/-! ## §2 Binding -/

/-- Bind a name: in its old place if it has one, else at the end. This is how a JSON object or a
table of headers takes an entry that it may have already. -/
def put {α : Type} (name : String) (value : α) : Bindings α → Bindings α
  | [] => [(name, value)]
  | (bound, old) :: rest =>
    if bound = name then (name, value) :: rest else (bound, old) :: put name value rest

/-- Bind a name unless it is bound already. This is how definitions and sent variables are
collected, of which the first counts. -/
def putNew {α : Type} (name : String) (value : α) (bindings : Bindings α) : Bindings α :=
  if binds name bindings then bindings else bindings ++ [(name, value)]

/-- Bind every pair of `later`, one after the other. -/
def putAll {α : Type} (bindings later : Bindings α) : Bindings α :=
  later.foldl (fun acc pair => put pair.1 pair.2 acc) bindings

/-- Give each repeated name its first place and its last value. So are members of a JSON object read
that repeat a name. -/
def collapse {α : Type} (pairs : Bindings α) : Bindings α :=
  putAll [] pairs

def drop {α : Type} (name : String) (bindings : Bindings α) : Bindings α :=
  bindings.filter fun pair => pair.1 ≠ name

/-! ## §3 What a lookup sees -/

@[simp] theorem find?_nil {α : Type} (name : String) :
    find? name ([] : Bindings α) = none := rfl

/-- A name just bound has the value it was bound to. With `find?_put_of_ne`, this is all that a
lookup ever needs to know of `put`. -/
@[simp] theorem find?_put_self {α : Type} (name : String) (value : α) (bindings : Bindings α) :
    find? name (put name value bindings) = some value := by
  induction bindings with
  | nil => simp [put, find?]
  | cons pair rest ih =>
    obtain ⟨bound, old⟩ := pair
    by_cases h : bound = name
    · simp [put, find?, h]
    · simp [put, find?, h, ih]

/-- Binding one name leaves the value of every other name alone. -/
theorem find?_put_of_ne {α : Type} {name other : String} (h : other ≠ name) (value : α)
    (bindings : Bindings α) : find? other (put name value bindings) = find? other bindings := by
  induction bindings with
  | nil => simp [put, find?, Ne.symm h]
  | cons pair rest ih =>
    obtain ⟨bound, old⟩ := pair
    by_cases hb : bound = name
    · -- The replaced pair carries `name`, so `other` looks past it on both sides
      subst hb
      simp [put, find?, Ne.symm h]
    · rw [put, if_neg hb, find?, find?, ih]

end Bindings

end QueryWeave
