import ProviderMigration.Proofs.Storage.Growth

/-!
# Entering directories

Creating a directory takes one that exists: the steps in front of its name enter it. This
module says where a new directory comes to stand, and how far the steps of a path lead
before there is something missing.
-/

namespace ProviderMigration.Storage

/-- Where the steps of a path begin when it is read from the directory `here`. -/
def Pathname.origin (path : Pathname) (here : Place) : Place :=
  if path.isAbsolute then [] else here

namespace Disk

variable {disk later : Disk} {start place goal : Place} {steps outer : List String}
  {name : String}

/-! ## Trees -/

/-- In front of a directory there are directories. -/
theorem IsTree.directory_dropLast (tree : disk.IsTree)
    (here : disk.node? place = some .directory) :
    disk.node? place.dropLast = some .directory := by
  obtain rfl | ⟨outer, name, rfl⟩ := List.eq_nil_or_concat place
  · rfl
  · rw [List.concat_eq_append] at here ⊢
    rw [List.dropLast_concat]
    exact (tree.parent here).1

/-- There is nothing below where there is nothing. -/
theorem IsTree.node?_eq_none (tree : disk.IsTree) (absent : disk.node? place = none)
    (names : List String) : disk.node? (place ++ names) = none := by
  cases names with
  | nil => rwa [List.append_nil]
  | cons name names =>
      by_contra present
      obtain ⟨node, here⟩ := Option.ne_none_iff_exists'.1 present
      exact nomatch absent.symm.trans (tree.directory_above (List.cons_ne_nil _ _) here)

/-- A tree is one with a node more in a directory, or with another one where there was no
directory. -/
theorem IsTree.put (tree : disk.IsTree) (directory : disk.node? place = some .directory)
    (named : IsName name) {node : Node}
    (free : disk.node? (place ++ [name]) ≠ some .directory) :
    (disk.put (place ++ [name]) node).IsTree := by
  have inside : place ++ [name] ≠ [] := by simp
  constructor
  · rw [Disk.put, Std.TreeMap.getElem?_insert, if_neg, tree.root]
    simp
  · intro outer other found here
    by_cases same : outer ++ [other] = place ++ [name]
    · obtain ⟨rfl, rfl⟩ := List.append_inj' same rfl |>.imp_right List.singleton_inj.1
      rw [node?_put_of_ne (by simp)]
      exact ⟨directory, named⟩
    · rw [node?_put_of_ne same] at here
      obtain ⟨above, proper⟩ := tree.parent here
      refine ⟨?_, proper⟩
      rwa [node?_put_of_ne]
      rintro rfl
      exact free above

/-! ## Entering -/

/-- The steps lead from one place into a directory. -/
structure Enters (disk : Disk) (start : Place) (steps : List String) (place : Place) : Prop where
  leads : disk.locate true maxLinks start steps = .ok place
  directory : disk.node? place = some .directory

namespace Enters

theorem route (enters : disk.Enters start steps place) :
    disk.Route true maxLinks start steps place :=
  locate_eq_ok_iff.1 enters.leads

theorem of_route (route : disk.Route true maxLinks start steps place)
    (directory : disk.node? place = some .directory) : disk.Enters start steps place :=
  ⟨locate_eq_ok_iff.2 route, directory⟩

theorem nil (directory : disk.node? start = some .directory) : disk.Enters start [] start :=
  .of_route .done directory

theorem unique (enters : disk.Enters start steps place) (enters' : disk.Enters start steps goal) :
    place = goal :=
  enters.route.unique enters'.route

theorem mono (grows : disk.Grows later) (enters : disk.Enters start steps place) :
    later.Enters start steps place :=
  .of_route (grows.route enters.route) (grows.directory enters.directory)

/-- Dots make no difference to which directory is entered. -/
theorem of_filter_eq {other : List String} (enters : disk.Enters start steps place)
    (same : other.filter (· ≠ ".") = steps.filter (· ≠ ".")) : disk.Enters start other place :=
  .of_route (enters.route.of_filter_eq enters.directory same) enters.directory

/-- Whatever enters a directory has entered one in front of each of its steps. -/
theorem exists_front {more : List String} (enters : disk.Enters start (outer ++ more) place) :
    ∃ between, disk.Enters start outer between := by
  cases more with
  | nil => exact ⟨place, by simpa using enters⟩
  | cons step more =>
      obtain ⟨between, route, directory, -⟩ := enters.route.exists_cut (List.cons_ne_nil _ _)
      exact ⟨between, .of_route route directory⟩

/-- One step further, into a directory that is there. -/
theorem snoc (enters : disk.Enters start outer place) (inward : IsInward name)
    (directory : disk.node? (place ++ [name]) = some .directory) :
    disk.Enters start (outer ++ [name]) (place ++ [name]) := by
  refine .of_route (enters.route.append enters.directory (List.cons_ne_nil _ _) fun links => ?_)
    directory
  exact .entry enters.directory inward directory nofun .done

/-- One step back. -/
theorem snoc_dots (tree : disk.IsTree) (enters : disk.Enters start outer place) :
    disk.Enters start (outer ++ [".."]) place.dropLast := by
  refine .of_route (enters.route.append enters.directory (List.cons_ne_nil _ _) fun links => ?_)
    (tree.directory_dropLast enters.directory)
  exact .outward enters.directory .done

end Enters

/-- The steps lead to something. -/
structure Resolves (disk : Disk) (start : Place) (steps : List String) (place : Place) : Prop where
  route : disk.Route true maxLinks start steps place
  present : disk.node? place ≠ none

theorem Enters.resolves (enters : disk.Enters start steps place) :
    disk.Resolves start steps place :=
  ⟨enters.route, by simp [enters.directory]⟩

/-- Where a step further leads, if there is no link to follow. -/
theorem Route.eq_of_snoc (route : disk.Route true maxLinks start (outer ++ [name]) goal)
    (enters : disk.Enters start outer place) (dot : name ≠ ".")
    (dots : name ≠ "..") (plain : ∀ target, disk.node? (place ++ [name]) ≠ some (.link target)) :
    goal = place ++ [name] := by
  obtain ⟨between, front, -, left, last⟩ := route.exists_cut (List.cons_ne_nil _ _)
  obtain rfl := enters.route.unique front
  cases last with
  | stay => contradiction
  | outward => contradiction
  | missing => rfl
  | unfollowed => contradiction
  | link _ _ here => exact absurd here (plain _)
  | entry _ _ _ _ onward =>
      cases onward
      rfl

/-! ## Paths that enter -/

section Paths

variable {here : Place} {path : Pathname}

theorem filter_steps (path : Pathname) :
    path.names.filter (· ≠ ".") = path.steps.filter (· ≠ ".") := by
  rw [Pathname.names, List.filter_filter]
  simp

theorem find_eq_ok_iff {followLast : Bool} :
    disk.find here followLast path = .ok place ↔
      path.text ≠ "" ∧ path.text.utf8ByteSize ≤ maxPathSize ∧
        disk.Route followLast maxLinks (path.origin here) path.steps place := by
  rw [find, ← locate_eq_ok_iff, Pathname.origin]
  by_cases blank : path.text = ""
  · simp [blank]
  · rw [if_neg (by simpa using blank)]
    by_cases long : maxPathSize < path.text.utf8ByteSize
    · rw [if_pos long]
      exact iff_of_false (by rintro ⟨⟩) fun known => absurd known.2.1 (Nat.not_le.2 long)
    · rw [if_neg long]
      exact ⟨fun found => ⟨blank, Nat.not_lt.1 long, found⟩, fun known => known.2.2⟩

theorem resolve_eq_ok_iff :
    disk.resolve here path = .ok place ↔
      path.text ≠ "" ∧ disk.Resolves (path.origin here) path.steps place := by
  rw [resolve]
  by_cases blank : path.text = ""
  · simp [blank]
  · rw [if_neg (by simpa using blank), bind_eq_ok_iff]
    constructor
    · rintro ⟨found, located, answered⟩
      split at answered
      next present =>
        obtain rfl := Except.ok.inj answered
        exact ⟨blank, locate_eq_ok_iff.1 located, Option.isSome_iff_ne_none.1 present⟩
      next => contradiction
    · rintro ⟨-, route, present⟩
      refine ⟨place, locate_eq_ok_iff.2 route, ?_⟩
      rw [if_pos (Option.isSome_iff_ne_none.2 present)]
      rfl

/-- A path that leads to a directory enters it by its names. -/
theorem enters_of_find (found : disk.find here true path = .ok place)
    (directory : disk.node? place = some .directory) :
    disk.Enters (path.origin here) path.names place :=
  .of_filter_eq (.of_route (find_eq_ok_iff.1 found).2.2 directory) (filter_steps path)

theorem find_of_enters (enters : disk.Enters (path.origin here) path.names place)
    (given : path.text ≠ "") (short : path.text.utf8ByteSize ≤ maxPathSize) :
    disk.find here true path = .ok place :=
  find_eq_ok_iff.2 ⟨given, short, (enters.of_filter_eq (filter_steps path).symm).route⟩

/-- A path that goes on below a directory enters one in front of its last name, by the names
of the directory and then its own. -/
theorem exists_of_find_descend {dir : Pathname} {inside : List String} (given : dir.text ≠ "")
    (proper : ∀ other ∈ inside ++ [name], IsPart other)
    (found : disk.find here true (dir.descend (inside ++ [name])) = .ok goal) :
    dir.text.utf8ByteSize ≤ maxPathSize ∧ ∃ outer between,
      disk.Enters (dir.origin here) outer between ∧
        outer.filter (· ≠ ".") = (dir.names ++ inside).filter (· ≠ ".") ∧
        disk.Route true maxLinks (dir.origin here) (outer ++ [name]) goal := by
  have nonempty : inside ++ [name] ≠ [] := by simp
  obtain ⟨-, fits, route⟩ := find_eq_ok_iff.1 found
  obtain ⟨absolute, front, last, above, ends, below⟩ :=
    Pathname.steps_descend given nonempty proper
  rw [Pathname.origin, absolute, ← Pathname.origin, below, ← List.append_assoc] at route
  obtain ⟨between, onward, directory, -⟩ := route.exists_cut (List.cons_ne_nil _ _)
  refine ⟨Nat.le_trans (Pathname.utf8ByteSize_le_descend nonempty proper) fits, front ++ inside,
    between, .of_route onward directory, ?_, route⟩
  rw [List.filter_append, List.filter_append, filter_steps, above, List.filter_append]
  rcases ends with rfl | rfl <;> simp

theorem origin_directory (path : Pathname) (directory : disk.node? here = some .directory) :
    disk.node? (path.origin here) = some .directory := by
  rw [Pathname.origin]
  split
  next => rfl
  next => exact directory

/-- A directory is created right below the one that the names in front of its own enter,
where there was nothing. -/
theorem exists_of_createDirectory (tree : disk.IsTree)
    (directory : disk.node? here = some .directory)
    (created : disk.createDirectory here path = .ok later) :
    path.text ≠ "" ∧ path.text.utf8ByteSize ≤ maxPathSize ∧
      ∃ outer name place, path.names = outer ++ [name] ∧
        disk.Enters (path.origin here) outer place ∧ IsName name ∧
        disk.node? (place ++ [name]) = none ∧ later = disk.put (place ++ [name]) .directory := by
  obtain ⟨goal, named, answered⟩ := bind_eq_ok_iff.1 created
  have absent : disk.node? goal = none ∧ later = disk.put goal .directory := by
    split at answered
    next => contradiction
    next free => exact ⟨free, (Except.ok.inj answered).symm⟩
  obtain ⟨free, rfl⟩ := absent
  rw [findName] at named
  split at named
  next => contradiction
  next given =>
    split at named
    next => contradiction
    next short =>
      have present : disk.node? (path.origin here) ≠ none := by
        rw [origin_directory path directory]
        nofun
      obtain ⟨outer, place, name, parts, rfl, inward, route, entered⟩ :=
        (locate_eq_ok_iff.1 named).exists_front (fun _ => tree.directory_dropLast) present free
      have names : path.names = outer.filter (· ≠ ".") ++ [name] := by
        rw [path.names_eq, parts, List.filter_append,
          List.filter_cons_of_pos (by simpa using inward.dot), List.filter_nil]
      have part := (path.isPart_of_mem_names name (names ▸ List.mem_append_right _ (by simp))).1
      refine ⟨by simpa using given, Nat.not_lt.1 short, _, name, place, names, ?_,
        ⟨part.nonempty, part.slash, inward.dot, inward.dots, inward.short⟩, free, rfl⟩
      exact (Enters.of_route route entered).of_filter_eq (by simp)

end Paths

/-! ## How far names lead -/

/-- Of the names `front ++ back`, those in front enter a directory, and no more of them
enter one. -/
structure Furthest (disk : Disk) (start : Place) (front : List String) (place : Place)
    (back : List String) : Prop where
  enters : disk.Enters start front place
  ends : ∀ name rest, back = name :: rest → ∀ goal, ¬ disk.Enters start (front ++ [name]) goal

/-- From a directory that some names enter, further names lead as far as they can. -/
theorem Enters.exists_furthest {front : List String} (enters : disk.Enters start front place)
    (back : List String) :
    ∃ made left goal, back = made ++ left ∧ disk.Furthest start (front ++ made) goal left := by
  induction back generalizing front place with
  | nil => exact ⟨[], [], place, rfl, by simpa using enters, nofun⟩
  | cons name rest ih =>
      by_cases further : ∃ goal, disk.Enters start (front ++ [name]) goal
      · obtain ⟨goal, enters⟩ := further
        obtain ⟨made, left, goal, rfl, furthest⟩ := ih enters
        exact ⟨name :: made, left, goal, rfl, by simpa using furthest⟩
      · refine ⟨[], name :: rest, place, rfl, by simpa using enters, ?_⟩
        rintro _ _ same goal enters
        obtain ⟨rfl, -⟩ := List.cons_eq_cons.1 same
        exact further ⟨goal, by simpa using enters⟩

namespace Furthest

variable {front back more rest : List String}

theorem not_enters (furthest : disk.Furthest start front place back) (nonempty : more ≠ [])
    (split : back = more ++ rest) : ¬ disk.Enters start (front ++ more) goal := by
  obtain ⟨name, more, rfl⟩ := List.exists_cons_of_ne_nil nonempty
  rw [List.append_cons]
  intro enters
  obtain ⟨between, enters⟩ := enters.exists_front
  exact furthest.ends name (more ++ rest) split between enters

/-- More names behind those that do not enter anything do not matter. -/
theorem append (furthest : disk.Furthest start front place back) (nonempty : back ≠ []) :
    disk.Furthest start front place (back ++ more) where
  enters := furthest.enters
  ends name rest split := by
    obtain ⟨name, back, rfl⟩ := List.exists_cons_of_ne_nil nonempty
    obtain ⟨rfl, -⟩ := List.cons_eq_cons.1 split
    exact furthest.ends name back rfl

/-- The only directory that can be created on the way is the next one. -/
theorem eq_of_created (furthest : disk.Furthest start front place back)
    (split : outer ++ name :: more = front ++ back) (enters : disk.Enters start outer goal)
    (named : IsName name) (absent : disk.node? (goal ++ [name]) = none) :
    outer = front ∧ goal = place ∧ back = name :: more := by
  have here : outer = front → goal = place := by
    rintro rfl
    exact enters.unique furthest.enters
  obtain ⟨names, rfl, onward⟩ | ⟨names, rfl, onward⟩ := List.append_eq_append_iff.1 split
  · cases names with
    | nil => exact ⟨by simp, here (by simp), onward.symm⟩
    | cons other names =>
        obtain ⟨rfl, -⟩ := List.cons_eq_cons.1 onward
        rw [List.append_cons] at furthest
        obtain ⟨between, further⟩ := furthest.enters.exists_front
        obtain rfl := further.route.eq_of_snoc enters named.dot named.dots (by simp [absent])
        exact nomatch absent.symm.trans further.directory
  · cases names with
    | nil => exact ⟨by simp, here (by simp), onward⟩
    | cons other names => exact absurd enters (furthest.not_enters (List.cons_ne_nil _ _) onward)

/-- Once the next directory is there, the names lead to it, and no further. -/
theorem put (furthest : disk.Furthest start front place (name :: rest)) (tree : disk.IsTree)
    (named : IsName name) (absent : disk.node? (place ++ [name]) = none)
    (forward : ∀ next ∈ rest, next ≠ "." ∧ next ≠ "..") :
    (disk.put (place ++ [name]) .directory).Furthest start (front ++ [name]) (place ++ [name])
      rest := by
  have inside : place ++ [name] ≠ [] := by simp
  have made := node?_put_self inside disk .directory
  have entered := (furthest.enters.mono (.put_directory absent)).snoc named.isInward made
  refine ⟨entered, ?_⟩
  rintro next rest rfl goal enters
  obtain ⟨dot, dots⟩ := forward next List.mem_cons_self
  have vacant :
      (disk.put (place ++ [name]) .directory).node? (place ++ [name] ++ [next]) = none := by
    rw [node?_put_of_ne (by simp)]
    exact tree.node?_eq_none absent [next]
  obtain rfl := enters.route.eq_of_snoc entered dot dots fun _ here =>
    nomatch vacant.symm.trans here
  exact nomatch vacant.symm.trans enters.directory

end Furthest

end Disk

end ProviderMigration.Storage
