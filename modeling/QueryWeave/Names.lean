/-!
# Lists of Names

Lists in which every name stands once, at the place where it was first seen.
-/

namespace QueryWeave.Names

/-- Add a name behind the names seen so far, unless it is among them. -/
def add (seen : List String) (name : String) : List String :=
  if name ∈ seen then seen else seen ++ [name]

def addAll (seen names : List String) : List String :=
  names.foldl add seen

/-- The names of a list, each once, in first-seen order. -/
def distinct (names : List String) : List String :=
  addAll [] names

/-- Adding a name keeps the names distinct. -/
theorem nodup_add {seen : List String} (h : seen.Nodup) (name : String) :
    (add seen name).Nodup := by
  unfold add
  split
  · exact h
  · rename_i hnew
    rw [List.nodup_append]
    exact ⟨h, by simp, fun a ha b hb => by
      simp only [List.mem_singleton] at hb
      subst hb
      exact fun hab => hnew (hab ▸ ha)⟩

end QueryWeave.Names
