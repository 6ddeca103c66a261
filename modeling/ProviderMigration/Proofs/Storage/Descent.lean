import Mathlib.Data.List.Induction
import ProviderMigration.Proofs.Storage.Route
import ProviderMigration.Proofs.Storage.Spelling

/-!
# Paths that go on below a directory

The files of a directory are found by the path of the directory with their names
behind it. On a disk whose nodes all stand in directories, such a path leads to the
place that is the directory's own with those names behind it, whatever links the path
of the directory itself leads through.
-/

namespace ProviderMigration.Storage

theorem IsName.isInward {name : String} (named : IsName name) : Disk.IsInward name :=
  ⟨named.dot, named.dots, named.short⟩

/-! ## Where such a path leads -/

namespace Disk

variable {disk : Disk}

/-- The names lead from a place to a file, through nothing but directories. -/
inductive Leads (disk : Disk) : Place → List String → Prop where
  | file {start : Place} {name : String} {data : ByteArray} {mode : Nat}
      (directory : disk.node? start = some .directory) (named : IsName name)
      (here : disk.node? (start ++ [name]) = some (.file data mode)) : Leads disk start [name]
  | directory {start : Place} {name : String} {names : List String}
      (directory : disk.node? start = some .directory) (named : IsName name)
      (later : Leads disk (start ++ [name]) names) : Leads disk start (name :: names)

variable {start : Place} {names : List String}

theorem Leads.directory_start (leads : disk.Leads start names) :
    disk.node? start = some .directory := by
  cases leads with
  | file directory => exact directory
  | directory directory => exact directory

theorem Leads.ne_nil (leads : disk.Leads start names) : names ≠ [] := by
  cases leads <;> exact List.cons_ne_nil _ _

theorem Leads.isName (leads : disk.Leads start names) : ∀ name ∈ names, IsName name := by
  induction leads with
  | file directory named here => exact List.forall_mem_singleton.2 named
  | directory directory named later ih => exact List.forall_mem_cons.2 ⟨named, ih⟩

theorem Leads.exists_file (leads : disk.Leads start names) :
    ∃ data mode, disk.node? (start ++ names) = some (.file data mode) := by
  induction leads with
  | file directory named here => exact ⟨_, _, here⟩
  | directory directory named later ih =>
      rw [List.append_assoc, List.singleton_append] at ih
      exact ih

theorem Leads.route (leads : disk.Leads start names) (followLast : Bool) (links : Nat) :
    Route disk followLast links start names (start ++ names) := by
  induction leads with
  | file directory named here => exact .entry directory named.isInward here nofun .done
  | directory directory named later ih =>
      rw [List.append_assoc, List.singleton_append] at ih
      exact .entry directory named.isInward later.directory_start nofun ih

/-- Behind the steps that lead to a directory, the names of a file lead on from
there. -/
theorem locate_append {place : Place} {outer last : List String} {links : Nat}
    (ends : last = [] ∨ last = ["."])
    (found : disk.locate true links start (outer ++ last) = .ok place)
    (leads : disk.Leads place names) (followLast : Bool) :
    disk.locate followLast links start (outer ++ names) = .ok (place ++ names) := by
  rw [locate_eq_ok_iff] at found ⊢
  have front : Route disk true links start outer place := by
    refine found.of_filter_eq leads.directory_start ?_
    rcases ends with rfl | rfl <;> simp
  exact front.append leads.directory_start leads.ne_nil (leads.route followLast)

/-- A path with the names of a file behind it leads to the file. -/
theorem find_descend {here place : Place} {dir : Pathname} {followLast : Bool}
    (found : disk.find here true dir = .ok place) (leads : disk.Leads place names)
    (fits : (dir.descend names).text.utf8ByteSize ≤ maxPathSize) :
    disk.find here followLast (dir.descend names) = .ok (place ++ names) := by
  rw [find] at found
  split at found
  next => contradiction
  next given =>
    split at found
    next => contradiction
    next =>
      have nonempty : dir.text ≠ "" := by simpa using given
      have proper : ∀ name ∈ names, IsPart name :=
        fun name member => (leads.isName name member).isPart
      obtain ⟨absolute, outer, last, above, ends, below⟩ :=
        Pathname.steps_descend nonempty leads.ne_nil proper
      have further : (dir.descend names).text.isEmpty = false := by
        simpa using Pathname.text_descend_ne_empty nonempty leads.ne_nil proper
      rw [find, further, if_neg Bool.false_ne_true, if_neg (Nat.not_lt.2 fits), absolute, below]
      rw [above] at found
      exact locate_append ends found leads followLast

/-! ## The files of a directory -/

/-- A disk whose nodes all stand in directories, and have proper names there. -/
structure IsTree (disk : Disk) : Prop where
  root : disk.nodes[([] : Place)]? = none
  parent : ∀ {place : Place} {name : String} {node : Node},
    disk.node? (place ++ [name]) = some node → disk.node? place = some .directory ∧ IsName name

namespace IsTree

variable (tree : disk.IsTree)
include tree

/-- Whatever is below a place shows that the place is a directory. -/
theorem directory_above {place : Place} (nonempty : names ≠ []) {node : Node}
    (here : disk.node? (place ++ names) = some node) : disk.node? place = some .directory := by
  induction names using List.reverseRecOn generalizing node with
  | nil => contradiction
  | append_singleton names name ih =>
      rw [← List.append_assoc] at here
      have above := (tree.parent here).1
      cases names with
      | nil => rwa [List.append_nil] at above
      | cons first names => exact ih (List.cons_ne_nil _ _) above

/-- On the way to a directory there are directories. -/
theorem directory_of_append {place : Place}
    (here : disk.node? (place ++ names) = some .directory) :
    disk.node? place = some .directory := by
  by_cases last : names = []
  · rwa [last, List.append_nil] at here
  · exact tree.directory_above last here

theorem leads {place : Place} (nonempty : names ≠ []) {data : ByteArray} {mode : Nat}
    (here : disk.node? (place ++ names) = some (.file data mode)) : disk.Leads place names := by
  induction names generalizing place with
  | nil => contradiction
  | cons name names ih =>
      have directory := tree.directory_above (List.cons_ne_nil name names) here
      cases names with
      | nil => exact .file directory (tree.parent here).2 here
      | cons next names =>
          rw [List.append_cons] at here
          have between := tree.directory_above (List.cons_ne_nil next names) here
          exact .directory directory (tree.parent between).2 (ih (List.cons_ne_nil _ _) here)

end IsTree

/-- Whether a place is in a directory and has a proper name there. -/
def standsInDirectory (disk : Disk) (place : Place) : Bool :=
  match place.getLast? with
  | none => false
  | some name => disk.isDirectory place.dropLast && decide (IsName name)

theorem isTree_iff :
    disk.IsTree ↔ ∀ found ∈ disk.nodes.toList, disk.standsInDirectory found.1 = true := by
  constructor
  · rintro tree ⟨place, node⟩ member
    have here := Std.TreeMap.mem_toList_iff_getElem?_eq_some.1 member
    have inside : place ≠ [] := by
      rintro rfl
      exact nomatch tree.root.symm.trans here
    obtain ⟨outer, name, rfl⟩ := (List.eq_nil_or_concat place).resolve_left inside
    rw [List.concat_eq_append] at inside here ⊢
    have found : disk.node? (outer ++ [name]) = some node := by rw [node?, if_neg inside, here]
    obtain ⟨above, named⟩ := tree.parent found
    simp [standsInDirectory, isDirectory_iff.2 above, named]
  · intro stands
    constructor
    · by_contra present
      obtain ⟨node, here⟩ := Option.ne_none_iff_exists'.1 present
      exact Bool.false_ne_true (stands _ (Std.TreeMap.mem_toList_iff_getElem?_eq_some.2 here))
    · intro place name node here
      have inside : place ++ [name] ≠ [] := by simp
      rw [node?, if_neg inside] at here
      have standing := stands _ (Std.TreeMap.mem_toList_iff_getElem?_eq_some.2 here)
      simpa [standsInDirectory, isDirectory_iff] using standing

instance (disk : Disk) : Decidable disk.IsTree := decidable_of_iff _ isTree_iff.symm

/-- What a listing takes for a file below a place. -/
theorem exists_of_listed {place found : Place} {node : Node}
    (listed : (match (found, node) with
      | (found, .file _ _) =>
          if place.isPrefixOf found then some (found.drop place.length) else none
      | _ => none) = some names) :
    found = place ++ names ∧ ∃ data mode, node = .file data mode := by
  cases node with
  | file data mode =>
      simp only [Option.ite_none_right_eq_some, Option.some.injEq,
        List.isPrefixOf_iff_prefix] at listed
      obtain ⟨⟨rest, rfl⟩, rfl⟩ := listed
      exact ⟨by rw [List.drop_left], data, mode, rfl⟩
  | directory => contradiction
  | link target => contradiction

theorem exists_of_mem_filesBelow {place : Place} (listed : names ∈ disk.filesBelow place) :
    ∃ data mode, disk.nodes[place ++ names]? = some (.file data mode) := by
  rw [filesBelow, List.mem_filterMap] at listed
  obtain ⟨⟨found, node⟩, member, listed⟩ := listed
  obtain ⟨rfl, data, mode, rfl⟩ := exists_of_listed listed
  exact ⟨data, mode, Std.TreeMap.mem_toList_iff_getElem?_eq_some.1 member⟩

/-- A file below a place is listed. -/
theorem mem_filesBelow {place : Place} {data : ByteArray} {mode : Nat}
    (here : disk.nodes[place ++ names]? = some (.file data mode)) :
    names ∈ disk.filesBelow place := by
  rw [filesBelow, List.mem_filterMap]
  refine ⟨(place ++ names, .file data mode),
    Std.TreeMap.mem_toList_iff_getElem?_eq_some.2 here, ?_⟩
  dsimp only
  rw [if_pos (List.isPrefixOf_iff_prefix.2 (List.prefix_append place names)), List.drop_left]

theorem nodup_filesBelow (disk : Disk) (place : Place) : (disk.filesBelow place).Nodup := by
  have distinct : disk.nodes.toList.Pairwise fun first second => first.1 ≠ second.1 := by
    refine Std.TreeMap.distinct_keys_toList.imp fun differ same => ?_
    exact differ (same ▸ Std.ReflCmp.compare_self)
  refine distinct.filterMap _ ?_
  rintro ⟨place₁, node₁⟩ ⟨place₂, node₂⟩ differ names₁ listed₁ names₂ listed₂ rfl
  exact differ ((exists_of_listed listed₁).1.trans (exists_of_listed listed₂).1.symm)

/-- The files below a directory are found by their names. -/
theorem IsTree.leads_of_mem_filesBelow (tree : disk.IsTree) {place : Place}
    (directory : disk.node? place = some .directory) (listed : names ∈ disk.filesBelow place) :
    disk.Leads place names := by
  obtain ⟨data, mode, here⟩ := exists_of_mem_filesBelow listed
  have inside : place ++ names ≠ [] := by
    intro root
    rw [root, tree.root] at here
    contradiction
  have found : disk.node? (place ++ names) = some (.file data mode) := by
    rw [node?, if_neg inside, here]
  have nonempty : names ≠ [] := by
    rintro rfl
    rw [List.append_nil, directory] at found
    cases found
  exact tree.leads nonempty found

/-- The files below a directory are those that names lead to. -/
theorem IsTree.mem_filesBelow_iff (tree : disk.IsTree) {place : Place}
    (directory : disk.node? place = some .directory) :
    names ∈ disk.filesBelow place ↔ disk.Leads place names := by
  refine ⟨tree.leads_of_mem_filesBelow directory, fun leads => ?_⟩
  obtain ⟨data, mode, here⟩ := leads.exists_file
  have inside : place ++ names ≠ [] := List.append_ne_nil_of_right_ne_nil place leads.ne_nil
  rw [node?, if_neg inside] at here
  exact mem_filesBelow here

end Disk

end ProviderMigration.Storage
