import ProviderMigration.Proofs.Storage.Entrance

/-!
# Resolving absolute paths

A path can be read from the root as well: the names of the directory that it is read from
are put in front of it. Nothing changes by that, because these names lead through
directories and nothing else.
-/

namespace ProviderMigration.Storage

namespace Disk

variable {disk : Disk} {followLast : Bool} {links : Nat} {here start place goal : Place}
  {steps outer names more : List String} {name : String} {path : Pathname}

/-! ## The names of places -/

/-- The names of a place where there is something. -/
theorem IsTree.isName (tree : disk.IsTree) (present : disk.node? place ≠ none) :
    ∀ name ∈ place, IsName name := by
  induction place using List.reverseRecOn with
  | nil => nofun
  | append_singleton outer name ih =>
      obtain ⟨node, here⟩ := Option.ne_none_iff_exists'.1 present
      obtain ⟨above, named⟩ := tree.parent here
      rw [List.forall_mem_append, List.forall_mem_singleton]
      exact ⟨ih (by simp [above]), named⟩

/-- The absolute path of a place has the names of the place. -/
theorem IsTree.names_ofNames (tree : disk.IsTree) (present : disk.node? place ≠ none) :
    (Pathname.ofNames place).names = place := by
  have proper := tree.isName present
  rw [Pathname.names, Pathname.steps_ofNames fun name member => (proper name member).isPart,
    List.filter_eq_self]
  exact fun name member => decide_eq_true (proper name member).dot

/-- Names that lead through directories can be left out in front of a route. -/
theorem IsTree.locate_append (tree : disk.IsTree)
    (directory : disk.node? (start ++ names) = some .directory) (steps : List String) :
    disk.locate followLast links start (names ++ steps) =
      disk.locate followLast links (start ++ names) steps := by
  induction names generalizing start with
  | nil => rw [List.append_nil, List.nil_append]
  | cons name names ih =>
      have split : start ++ name :: names = start ++ [name] ++ names := List.append_cons ..
      rw [split] at directory
      have between := tree.directory_of_append directory
      obtain ⟨above, named⟩ := tree.parent between
      rw [split, ← ih directory, List.cons_append, locate_eq_walk,
        walk_inward above named.isInward, between]

/-! ## Something at the end of a route -/

/-- Nothing can be found by way of a name where there is nothing. -/
theorem Resolves.node?_ne_none (resolves : disk.Resolves start (outer ++ name :: more) goal)
    (enters : disk.Enters start outer place) (dot : name ≠ ".") (dots : name ≠ "..") :
    disk.node? (place ++ [name]) ≠ none := by
  obtain ⟨between, front, -, left, last⟩ := resolves.route.exists_cut (List.cons_ne_nil _ _)
  obtain rfl := enters.route.unique front
  cases last with
  | stay => contradiction
  | outward => contradiction
  | missing => exact resolves.present
  | unfollowed => contradiction
  | link _ _ here => simp [here]
  | entry _ _ here => simp [here]

/-- The same of a path, by its names. -/
theorem Resolves.node?_ne_none_of_names (resolves : disk.Resolves start path.steps goal)
    (split : path.names = outer ++ name :: more) (enters : disk.Enters start outer place)
    (dots : name ≠ "..") : disk.node? (place ++ [name]) ≠ none := by
  have member : name ∈ path.names := split ▸ List.mem_append_right _ List.mem_cons_self
  have dot := (Pathname.isPart_of_mem_names name member).2
  obtain ⟨front, later, steps, fronted, onward⟩ := List.filter_eq_append_iff.1 split
  obtain ⟨idle, rest, rfl, only, -, -⟩ := List.filter_eq_cons_iff.1 onward
  have same : (front ++ idle).filter (· ≠ ".") = outer.filter (· ≠ ".") := by
    rw [List.filter_append, List.filter_eq_nil_iff.2 only, List.append_nil, ← fronted,
      List.filter_filter]
    simp
  rw [steps, ← List.append_assoc] at resolves
  exact resolves.node?_ne_none (enters.of_filter_eq same) dot dots

/-- The path as it is read from the root. -/
theorem IsTree.join_spec (tree : disk.IsTree) (directory : disk.node? here = some .directory)
    (given : path.text ≠ "") :
    ((Pathname.ofNames here).join path).isAbsolute = true ∧
      ((Pathname.ofNames here).join path).steps = path.origin here ++ path.steps ∧
      ((Pathname.ofNames here).join path).text ≠ "" := by
  have nonempty : (Pathname.ofNames here).text ≠ "" := by
    rw [ne_eq, ← String.toList_eq_nil_iff, Pathname.toList_ofNames]
    exact List.cons_ne_nil _ _
  have proper : ∀ name ∈ here, IsName name := tree.isName (by simp [directory])
  rw [Pathname.origin]
  split
  next absolute =>
    rw [Pathname.join, absolute, Bool.true_or, if_pos rfl]
    exact ⟨absolute, rfl, given⟩
  next relative =>
    rw [Bool.not_eq_true] at relative
    obtain ⟨outer, last, above, ends, below⟩ := Pathname.steps_join nonempty relative given
    obtain ⟨front, whole, -⟩ := Pathname.exists_text_join nonempty relative
    rw [Pathname.steps_ofNames fun name member => (proper name member).isPart] at above
    refine ⟨(Pathname.isAbsolute_join nonempty relative).trans (Pathname.isAbsolute_ofNames here),
      ?_, ?_⟩
    · rcases ends with rfl | rfl
      · rw [below, above, List.append_nil]
      · exact absurd rfl (proper "." (above ▸ List.mem_append_right _ (by simp))).dot
    · rw [ne_eq, ← String.toList_eq_nil_iff, whole]
      exact List.append_ne_nil_of_right_ne_nil _ (List.cons_ne_nil _ _)

/-- Read from the root, steps resolve as they do from where they begin. -/
theorem IsTree.resolves_origin_iff (tree : disk.IsTree)
    (directory : disk.node? start = some .directory) :
    disk.Resolves [] (start ++ steps) place ↔ disk.Resolves start steps place := by
  have rooted : disk.node? ([] ++ start) = some .directory := directory
  have same : disk.locate true maxLinks [] (start ++ steps) =
      disk.locate true maxLinks ([] ++ start) steps := tree.locate_append rooted steps
  constructor
  · rintro ⟨route, present⟩
    refine ⟨?_, present⟩
    rwa [← locate_eq_ok_iff, same, List.nil_append, locate_eq_ok_iff] at route
  · rintro ⟨route, present⟩
    refine ⟨?_, present⟩
    rwa [← locate_eq_ok_iff, same, List.nil_append, locate_eq_ok_iff]

/-- Read from the root, a path has the names of the directory that it is read from in front
of its own. -/
theorem IsTree.names_join (tree : disk.IsTree) (directory : disk.node? here = some .directory)
    (given : path.text ≠ "") :
    ((Pathname.ofNames here).join path).names = path.origin here ++ path.names := by
  have present : disk.node? (path.origin here) ≠ none := by
    simp [origin_directory path directory]
  have plain : (path.origin here).filter (· ≠ ".") = path.origin here := by
    rw [List.filter_eq_self]
    exact fun name member => decide_eq_true (tree.isName present name member).dot
  rw [Pathname.names, (tree.join_spec directory given).2.1, List.filter_append, plain]
  rfl

/-- Read from the root, a path resolves as its steps do from where they begin. -/
theorem IsTree.resolve_join_eq_ok_iff (tree : disk.IsTree)
    (directory : disk.node? here = some .directory) (given : path.text ≠ "") :
    disk.resolve here ((Pathname.ofNames here).join path) = .ok place ↔
      disk.Resolves (path.origin here) path.steps place := by
  obtain ⟨absolute, steps, nonempty⟩ := tree.join_spec directory given
  rw [resolve_eq_ok_iff, and_iff_right nonempty, steps, Pathname.origin, absolute, if_pos rfl,
    tree.resolves_origin_iff (origin_directory path directory)]

end Disk

end ProviderMigration.Storage
