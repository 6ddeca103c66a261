import ProviderMigration.Proofs.Migration.Report
import ProviderMigration.Proofs.Storage.Resolution

/-!
# What the check of a backup establishes

The check resolves the part of the path of the backup that exists, and takes the rest as
it is written. If the rest does not lead back, and nothing stands in the way of its first
name, this is where the directory comes to stand when it is created: the check has seen
that this is not in the directory that is migrated, and that nothing is there.
-/

namespace ProviderMigration.Migration

open Storage

variable {machine later : Machine} {target place goal : Place} {path dir backup : Pathname}
  {names front back : List String}

/-! ## Resolving names -/

theorem canonicalize_on (path : Pathname) (machine : Machine) :
    (perform (Host.canonicalize path) : Attempt Machine.Action _).on machine =
      (.ok ((machine.disk.resolve machine.here path).map .ofNames), machine) := by
  change (Except.ok (machine.disk.resolve machine.here path >>= _), machine) = _
  cases machine.disk.resolve machine.here path <;> rfl

theorem resolve_ofNames (proper : ∀ name ∈ names, IsPart name) (disk : Disk) (here : Place) :
    disk.resolve here (.ofNames names) = .ok place ↔ disk.Resolves [] names place := by
  have given : (Pathname.ofNames names).text ≠ "" := by
    rw [ne_eq, ← String.toList_eq_nil_iff, Pathname.toList_ofNames]
    exact List.cons_ne_nil _ _
  rw [Disk.resolve_eq_ok_iff, Pathname.origin, Pathname.isAbsolute_ofNames, if_pos rfl,
    Pathname.steps_ofNames proper, and_iff_right given]

/-- Some names lead to something, and with one more of those behind them, unless it is the
last, they do not. -/
structure Longest (disk : Disk) (start : Place) (front : List String) (place : Place)
    (back : List String) : Prop where
  resolves : disk.Resolves start front place
  nonempty : back ≠ []
  ends : ∀ name more, back = name :: more → more ≠ [] →
    ∀ goal, ¬ disk.Resolves start (front ++ [name]) goal

theorem exists_of_resolveOuter (tree : machine.disk.IsTree) {reversed rest : List String}
    (proper : ∀ name ∈ reversed, IsPart name)
    (done : (resolveNames.resolveOuter path reversed rest).on machine = (.ok names, later)) :
    ∃ front place back, reversed.reverse = front ++ back ∧
      Longest machine.disk [] front place back ∧ names = place ++ back ++ rest := by
  induction reversed generalizing rest with
  | nil => exact nomatch (Prod.mk.inj done).1
  | cons name outer ih =>
      rw [List.forall_mem_cons] at proper
      have proper' : ∀ name ∈ outer.reverse, IsPart name := by simpa using proper.2
      rw [resolveNames.resolveOuter, Attempt.on_bind_of_ok (canonicalize_on _ _)] at done
      rw [List.reverse_cons]
      cases resolved : machine.disk.resolve machine.here (.ofNames outer.reverse) with
      | ok place =>
          rw [resolved] at done
          have resolves := (resolve_ofNames proper' _ _).1 resolved
          obtain rfl := Except.ok.inj (Prod.mk.inj done).1
          refine ⟨outer.reverse, place, [name], rfl,
            ⟨resolves, List.cons_ne_nil _ _, fun _ more same => ?_⟩, ?_⟩
          · obtain ⟨-, rfl⟩ := List.cons_eq_cons.1 same
            exact fun further => absurd rfl further
          · rw [tree.names_ofNames resolves.present, List.append_assoc]
            rfl
      | error error =>
          rw [resolved] at done
          obtain ⟨front, place, back, split, longest, rfl⟩ := ih proper.2 done
          refine ⟨front, place, back ++ [name], by rw [split, List.append_assoc],
            ⟨longest.resolves, by simp, ?_⟩, by simp⟩
          intro next more same _ goal resolves
          obtain ⟨other, back, rfl⟩ := List.exists_cons_of_ne_nil longest.nonempty
          obtain ⟨rfl, rfl⟩ := List.cons_eq_cons.1 same
          by_cases last : back = []
          · rw [last] at split
            rw [← split, ← resolve_ofNames proper' machine.disk machine.here] at resolves
            exact nomatch resolves.symm.trans resolved
          · exact longest.ends other back rfl last goal resolves

/-- Some names that are read from the root go through a directory first. Those of them that
lead to something go at least as far, because the names of the directory do. -/
theorem Longest.exists_inner {disk : Disk} {start : Place} (tree : disk.IsTree)
    (directory : disk.node? start = some .directory) (further : names ≠ [])
    (longest : Longest disk [] front place back) (split : start ++ names = front ++ back) :
    ∃ inner, front = start ++ inner ∧ names = inner ++ back ∧
      Longest disk start inner place back := by
  obtain ⟨inner, rfl, onward⟩ : ∃ inner, front = start ++ inner ∧ names = inner ++ back := by
    obtain ⟨inner, rfl, onward⟩ | ⟨between, rfl, rfl⟩ := List.append_eq_append_iff.1 split
    · exact ⟨inner, rfl, onward⟩
    · cases between with
      | nil => exact ⟨[], by simp, rfl⟩
      | cons name between =>
          rw [List.append_cons] at directory
          have entered := Disk.Enters.nil (tree.directory_of_append directory)
          have resolves : disk.Resolves [] (front ++ [name]) (front ++ [name]) := by
            simpa using (tree.resolves_origin_iff entered.directory).2 entered.resolves
          exact absurd resolves (longest.ends name _ rfl
            (List.append_ne_nil_of_right_ne_nil between further) _)
  refine ⟨inner, rfl, onward, (tree.resolves_origin_iff directory).1 longest.resolves,
    longest.nonempty, ?_⟩
  intro name more same last goal resolves
  refine longest.ends name more same last goal ?_
  rw [List.append_assoc]
  exact (tree.resolves_origin_iff directory).2 resolves

/-- If nothing stands in the way of the first name that does not lead on, the names in front
of it are all that lead to something. -/
theorem Longest.eq_of_furthest {disk : Disk} {start : Place} {name : String}
    {front' back' rest : List String} {place' : Place}
    (longest : Longest disk start front' place' back')
    (furthest : disk.Furthest start front place (name :: rest))
    (split : front' ++ back' = front ++ name :: rest) (dot : name ≠ ".") (dots : name ≠ "..")
    (absent : disk.node? (place ++ [name]) = none) :
    place' = place ∧ back' = name :: rest := by
  have same : front' = front := by
    obtain ⟨names, rfl, onward⟩ | ⟨names, rfl, onward⟩ := List.append_eq_append_iff.1 split
    · cases names with
      | nil => simp
      | cons next names =>
          subst onward
          rw [List.append_cons] at furthest
          obtain ⟨between, enters⟩ := furthest.enters.exists_front
          exact absurd enters.resolves (longest.ends next _ rfl (by simp) between)
    · cases names with
      | nil => simp
      | cons next names =>
          obtain ⟨rfl, -⟩ := List.cons_eq_cons.1 onward
          exact absurd absent (longest.resolves.node?_ne_none furthest.enters dot dots)
  subst same
  exact ⟨longest.resolves.route.unique furthest.enters.route, List.append_cancel_left split⟩

section Resolved

variable (tree : machine.disk.IsTree) (begin : machine.disk.node? machine.here = some .directory)
  (given : path.text ≠ "")
include tree begin given

/-- The names of a path that exists are those of its place. Of one that does not, they are
those of the place to which its longest part leads, and the rest as it is written. -/
theorem exists_of_resolveNames
    (done : (resolveNames path).on machine = (.ok names, later)) :
    machine.disk.Resolves (path.origin machine.here) path.steps names ∨
      ((∀ goal, ¬ machine.disk.Resolves (path.origin machine.here) path.steps goal) ∧
        ∃ front place back, path.names = front ++ back ∧
          Longest machine.disk (path.origin machine.here) front place back ∧
          names = place ++ back) := by
  have start := Disk.origin_directory path begin
  rw [resolveNames, Attempt.on_bind_of_ok (Attempt.on_perform _ _)] at done
  change (perform (Host.canonicalize ((Pathname.ofNames machine.here).join path)) >>= _ :
    Attempt Machine.Action _).on machine = _ at done
  rw [Attempt.on_bind_of_ok (canonicalize_on _ _)] at done
  cases resolved : machine.disk.resolve machine.here
      ((Pathname.ofNames machine.here).join path) with
  | ok goal =>
      rw [resolved] at done
      have resolves := (tree.resolve_join_eq_ok_iff begin given).1 resolved
      obtain rfl := Except.ok.inj (Prod.mk.inj done).1
      refine .inl ?_
      rw [tree.names_ofNames resolves.present]
      exact resolves
  | error error =>
      rw [resolved] at done
      have lost : ∀ goal, ¬ machine.disk.Resolves (path.origin machine.here) path.steps goal := by
        intro goal resolves
        exact nomatch ((tree.resolve_join_eq_ok_iff begin given).2 resolves).symm.trans resolved
      refine .inr ⟨lost, ?_⟩
      have proper : ∀ name ∈ ((Pathname.ofNames machine.here).join path).names.reverse,
          IsPart name := by
        intro name member
        exact (Pathname.isPart_of_mem_names name (List.mem_reverse.1 member)).1
      obtain ⟨front, place, back, split, longest, rfl⟩ := exists_of_resolveOuter tree proper done
      rw [List.reverse_reverse, tree.names_join begin given] at split
      -- A path without names would lead to the directory where it starts.
      have further : path.names ≠ [] := by
        intro blank
        have enters := (Disk.Enters.nil start).of_filter_eq
          ((Disk.filter_steps path).symm.trans (by rw [blank]))
        exact lost _ enters.resolves
      obtain ⟨inner, -, onward, longest⟩ := longest.exists_inner tree start further split
      exact ⟨inner, place, back, onward, longest, List.append_nil _⟩

/-- If nothing stands in the way of the first name that does not lead on, the names of a
path are those of the directory in front of it and the rest as it is written. -/
theorem eq_of_resolveNames (done : (resolveNames path).on machine = (.ok names, later))
    (split : path.names = front ++ back)
    (furthest : machine.disk.Furthest (path.origin machine.here) front place back)
    (open_ : ∀ name rest, back = name :: rest → machine.disk.node? (place ++ [name]) = none)
    (forward : ".." ∉ back) : names = place ++ back := by
  obtain resolves | ⟨lost, front', place', back', split', longest, rfl⟩ :=
    exists_of_resolveNames tree begin given done
  · cases back with
    | nil =>
        rw [List.append_nil] at split ⊢
        have enters := (split ▸ furthest.enters).of_filter_eq (Disk.filter_steps path).symm
        exact resolves.route.unique enters.route
    | cons name rest =>
        have dots : name ≠ ".." := fun same => forward (same ▸ List.mem_cons_self)
        exact absurd (open_ name rest rfl)
          (resolves.node?_ne_none_of_names split furthest.enters dots)
  · cases back with
    | nil =>
        rw [List.append_nil] at split
        have enters := (split ▸ furthest.enters).of_filter_eq (Disk.filter_steps path).symm
        exact absurd enters.resolves (lost place)
    | cons name rest =>
        have dots : name ≠ ".." := fun same => forward (same ▸ List.mem_cons_self)
        have member : name ∈ path.names := split ▸ List.mem_append_right _ List.mem_cons_self
        have dot := (Pathname.isPart_of_mem_names name member).2
        obtain ⟨rfl, rfl⟩ := longest.eq_of_furthest furthest (split'.symm.trans split) dot dots
          (open_ name rest rfl)
        rfl

end Resolved

/-! ## The check -/

/-- A check that succeeds has compared the two paths by their names, and has found nothing
in the directory of the backup. -/
theorem exists_of_checkBackup (done : (checkBackup dir backup).on machine = (.ok (), later)) :
    ∃ targetNames backupNames first second,
      (resolveNames dir).on machine = (.ok targetNames, first) ∧ SameFiles machine first ∧
        (resolveNames backup).on first = (.ok backupNames, second) ∧
        ¬ targetNames <+: backupNames ∧
        ∀ place, machine.disk.find machine.here true backup = .ok place →
          machine.disk.node? place = some .directory → machine.disk.hasEntry place = false := by
  obtain ⟨targetNames, first, resolved, done⟩ := Attempt.exists_of_on_bind done
  obtain ⟨backupNames, second, resolved', done⟩ := Attempt.exists_of_on_bind done
  have same : SameFiles machine first := (LooksOnly.resolveNames dir).sameFiles resolved
  have same' : SameFiles machine second :=
    .trans _ first _ same ((LooksOnly.resolveNames backup).sameFiles resolved')
  refine ⟨targetNames, backupNames, first, second, resolved, same, resolved', ?_⟩
  split at done
  next => exact nomatch (Prod.mk.inj done).1
  next apart =>
    refine ⟨by simpa using apart, fun place found directory => ?_⟩
    rw [← same'.disk, ← same'.here] at found
    rw [← same'.disk] at directory ⊢
    have opened := Disk.open?_eq_ok_iff.2 ⟨found, directory⟩
    have leads : ∀ kind, (perform (Host.leadsTo backup kind) : Attempt Machine.Action _).on second =
        (.ok (Kind.directory == kind), second) := by
      intro kind
      rw [Attempt.on_perform, leadsTo_on, opened]
    rw [Attempt.on_bind_of_ok (leads .file)] at done
    rw [if_neg (by decide), Attempt.on_bind_of_ok (leads .directory), if_pos (by decide)] at done
    obtain ⟨filled, _, looked, done⟩ := Attempt.exists_of_on_bind done
    have answer : filled = second.disk.hasEntry place := by
      have looked := Attempt.of_on_attempt looked
      change (second.disk.open? second.here backup >>= _, second) = _ at looked
      rw [opened] at looked
      exact (Except.ok.inj (Prod.mk.inj looked).1).symm
    rw [← answer]
    cases filled with
    | false => rfl
    | true => exact nomatch (Prod.mk.inj done).1

theorem node?_eq_none_of_hasEntry {disk : Disk} (empty : disk.hasEntry place = false)
    (nonempty : names ≠ []) : disk.node? (place ++ names) = none := by
  by_contra present
  obtain ⟨node, here⟩ := Option.ne_none_iff_exists'.1 present
  have inside : place ++ names ≠ [] := List.append_ne_nil_of_right_ne_nil _ nonempty
  rw [Disk.node?, if_neg inside] at here
  have member : place ++ names ∈ disk.nodes.keys :=
    Std.TreeMap.mem_keys.2 (Std.TreeMap.mem_iff_isSome_getElem?.2 (by simp [here]))
  rw [Disk.hasEntry, List.any_eq_false] at empty
  simpa [nonempty] using empty _ member

/-- The path of a backup outside a directory, on the disk before the backup: how far it
leads, and what is known of the place where the rest of it leads as it is written. -/
structure Site (machine : Machine) (target : Place) (backup : Pathname) (front : List String)
    (place : Place) (back : List String) : Prop where
  tree : machine.disk.IsTree
  begin : machine.disk.node? machine.here = some .directory
  directory : machine.disk.node? target = some .directory
  split : backup.names = front ++ back
  furthest : machine.disk.Furthest (backup.origin machine.here) front place back
  forward : ".." ∉ back
  /-- Unless something stands in the way of the rest. -/
  outside : (∀ name rest, back = name :: rest → machine.disk.node? (place ++ [name]) = none) →
    ¬ target <+: place ++ back
  /-- A path with too long a text cannot be opened, so nothing is known of what is there. -/
  vacant : backup.text.utf8ByteSize ≤ Disk.maxPathSize → back = [] → ∀ names, names ≠ [] →
    machine.disk.node? (place ++ names) = none

/-- If every `..` of a path stands behind a directory that exists, none is behind those
names of it that lead furthest. -/
theorem dots_not_mem_of_furthest {disk : Disk} {start : Place} (tree : disk.IsTree)
    (furthest : disk.Furthest start front place back)
    (behind : ∀ outer inner, front ++ back = outer ++ ".." :: inner →
      ∃ between, disk.Enters start outer between) : ".." ∉ back := by
  intro member
  obtain ⟨outer, inner, rfl⟩ := List.append_of_mem member
  obtain ⟨between, enters⟩ := behind (front ++ outer) inner (by simp)
  cases outer with
  | nil =>
      rw [List.append_nil] at enters
      exact furthest.ends ".." inner rfl _ (enters.snoc_dots tree)
  | cons name outer => exact furthest.not_enters (List.cons_ne_nil _ _) rfl enters

/-- What a check that succeeds establishes. -/
theorem exists_site (tree : machine.disk.IsTree)
    (begin : machine.disk.node? machine.here = some .directory)
    (found : machine.disk.find machine.here true dir = .ok target)
    (directory : machine.disk.node? target = some .directory) (given : backup.text ≠ "")
    (behind : ∀ outer inner, backup.names = outer ++ ".." :: inner →
      ∃ between, machine.disk.Enters (backup.origin machine.here) outer between)
    (done : (checkBackup dir backup).on machine = (.ok (), later)) :
    ∃ front place back, Site machine target backup front place back := by
  obtain ⟨targetNames, backupNames, first, second, resolved, same, resolved', apart, empty⟩ :=
    exists_of_checkBackup done
  have start := Disk.origin_directory backup begin
  obtain ⟨front, back, place, split, furthest⟩ :=
    (Disk.Enters.nil start).exists_furthest backup.names
  rw [List.nil_append] at furthest
  have forward : ".." ∉ back :=
    dots_not_mem_of_furthest tree furthest fun outer inner whole => behind outer inner
      (split.trans whole)
  have located := Disk.find_eq_ok_iff.1 found
  have target_eq : targetNames = target := by
    obtain resolves | ⟨lost, -⟩ := exists_of_resolveNames tree begin located.1 resolved
    · exact resolves.route.unique located.2.2
    · exact absurd ⟨located.2.2, by simp [directory]⟩ (lost target)
  refine ⟨front, place, back, tree, begin, directory, split, furthest, forward, fun open_ => ?_,
    fun short last names nonempty => ?_⟩
  · rw [← same.disk, ← same.here] at furthest
    rw [← same.disk] at tree open_
    rw [← same.disk, ← same.here] at begin
    rw [← eq_of_resolveNames tree begin given resolved' split furthest open_ forward, ← target_eq]
    exact apart
  · subst last
    rw [List.append_nil] at split
    rw [← split] at furthest
    exact node?_eq_none_of_hasEntry (empty place (Disk.find_of_enters furthest.enters given short)
      furthest.enters.directory) nonempty

end ProviderMigration.Migration
