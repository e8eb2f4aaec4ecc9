import QueryWeave.Proofs.Fragment.History

/-!
# Repeated Registrations

To register a tree a second time is the same as to register it once, whatever the library and the
tree are. A tree is not taken in as a whole: a body that is rejected stops it, and leaves those in
front of it in the library. They are what a second registration comes to first. It accepts them
again, since acceptance depends on a body's type condition and on the paths accepted so far; it puts
each where it stands; and it stops at the same body, rejected by the same library.

- `Library.History.registerAll_last`: bodies accepted last leave a library as it is.
- `Library.registerTree_again`: a tree is registered once.
-/

namespace QueryWeave.Library

variable {lib : Library} {accepted : List (String × String)}

/-! ## §1 Bodies that were accepted before -/

/-- A body that was accepted is accepted again: its path is apart from the others already. -/
theorem History.register_again (h : lib.History accepted) {pair : String × String}
    (hpair : pair ∈ accepted) : ∃ next, lib.register pair.1 pair.2 = .ok next := by
  have hapart : ∀ other ∈ accepted.map Prod.fst,
      flattenPath other = flattenPath pair.1 → other = pair.1 := by
    intro other hother hname
    obtain ⟨first, hfirst, rfl⟩ := List.mem_map.1 hother
    exact h.represents.apart first hfirst pair hpair hname
  exact ⟨_, h.represents.register_iff.2 ⟨h.condition pair hpair, hapart, rfl⟩⟩

/-- So are several of them, one after the other. -/
theorem History.registerAll_again (h : lib.History accepted) {bodies : List (String × String)}
    (hbodies : ∀ pair ∈ bodies, pair ∈ accepted) :
    ∃ next, lib.registerAll bodies = (next, none) ∧ next.History (accepted ++ bodies) := by
  induction bodies generalizing lib accepted with
  | nil => exact ⟨lib, rfl, by simpa using h⟩
  | cons pair rest ih =>
    obtain ⟨hpair, hrest⟩ := List.forall_mem_cons.1 hbodies
    obtain ⟨next, hregister⟩ := h.register_again hpair
    obtain ⟨last, hlast, hhistory⟩ := ih (.accept h hregister) fun other hother =>
      List.mem_append_left _ (hrest other hother)
    refine ⟨last, ?_, by simpa using hhistory⟩
    simp only [Library.registerAll, hregister, hlast]

/-- The bodies that were accepted last leave the library as it is: every path comes back to the body
that it had last. -/
theorem History.registerAll_last {behind : List (String × String)}
    (h : lib.History (accepted ++ behind)) : lib.registerAll behind = (lib, none) := by
  obtain ⟨next, hnext, hhistory⟩ := h.registerAll_again fun pair => List.mem_append_right accepted
  have hsplit : ∀ first second : Bindings String, Bindings.collapse (first ++ second) =
      Bindings.putAll (Bindings.collapse first) second := fun _ _ => List.foldl_append
  have hcollapse : Bindings.collapse (accepted ++ behind ++ behind) =
      Bindings.collapse (accepted ++ behind) := by
    rw [hsplit, hsplit, Bindings.putAll_again (Bindings.nodup_names_collapse accepted)]
  -- What a library holds is a matter of the bodies accepted, and so is the order
  have hfragments : next.fragments = lib.fragments := by
    rw [hhistory.represents.fragments, h.represents.fragments, hcollapse]
  have hsame : next = lib := congrArg Library.mk hfragments
  rw [hnext, hsame]

/-! ## §2 Trees -/

/-- Bodies that were registered until one failed are registered again with the same result. -/
theorem History.registerAll_twice (h : lib.History accepted) (bodies : List (String × String)) :
    (lib.registerAll bodies).1.registerAll bodies = lib.registerAll bodies := by
  have haccepted := (h.registerAll bodies).registerAll_last
  rcases lib.registerAll_cases bodies with
    ⟨hnone, hall⟩ | ⟨path, body, behind, e, hsplit, herror, hfailed⟩
  · rw [hall] at haccepted
    rw [haccepted, ← hnone]
  · -- Those accepted change nothing, and the next one meets the library that rejected it
    have hagain : (lib.registerAll bodies).1.registerAll bodies =
        (lib.registerAll bodies).1.registerAll ((path, body) :: behind) :=
      (congrArg _ hsplit).trans (registerAll_append haccepted _)
    rw [hagain]
    simp only [Library.registerAll, hfailed]
    exact Prod.ext rfl herror.symm

/-- **To register a tree twice is the same as to register it once**: after any calls, the second
registration ends like the first, and leaves the library as the first left it. -/
theorem registerTree_again (calls : List RegistryCall) (tree : FragmentTree) :
    ((Library.empty.run calls).registerTree tree).1.registerTree tree =
      (Library.empty.run calls).registerTree tree :=
  (history_run calls).registerAll_twice tree.flatten

end QueryWeave.Library
