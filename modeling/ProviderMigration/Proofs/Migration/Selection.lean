import Mathlib.Data.Set.List
import ProviderMigration.Proofs.Migration.Stages

/-!
# What a walk selects

A walk lists the files of a directory that no pattern leaves out. The patterns matter only as
a set: whether they can be used at all depends on each of them alone, and so does whether a
file is left out. More patterns therefore never bring a file back, and their order and their
repetitions make no difference. The files are in the order of their paths, name by name.
-/

namespace ProviderMigration.Ignore

namespace Glob

/-- Whether a glob can be used: it needs no expression, or one that does not nest too deep. -/
def IsUsable (glob : Glob) : Prop := glob.use = .comparison ∨ glob.isTooDeep = false

end Glob

/-- Globs can be used together if each of them can be used. -/
theorem ExpressionError.find?_eq_none_iff {globs : List Glob} :
    find? globs = none ↔ ∀ glob ∈ globs, glob.IsUsable := by
  rw [find?]
  cases own : globs.find? fun glob => glob.use = .ownExpression && glob.isTooDeep with
  | some glob =>
      have spoilt := List.find?_some own
      rw [Bool.and_eq_true, decide_eq_true_eq] at spoilt
      simp only [reduceCtorEq, false_iff]
      intro usable
      rcases usable glob (List.mem_of_find?_eq_some own) with compared | shallow
      · exact nomatch compared.symm.trans spoilt.1
      · exact nomatch shallow.symm.trans spoilt.2
  | none =>
      simp only [List.find?_eq_none, Bool.and_eq_true, decide_eq_true_eq, not_and,
        Bool.not_eq_true] at own
      simp only [Option.map_eq_none_iff, List.findIdx?_eq_none_iff, List.mem_filter,
        decide_eq_true_eq, and_imp]
      refine forall₂_congr fun glob member => ?_
      rw [Glob.IsUsable]
      cases use : glob.use with
      | comparison => simp
      | ownExpression => simp [own glob member use]
      | sharedExpression => simp

end ProviderMigration.Ignore

namespace ProviderMigration.Migration

open Storage Ignore

/-! ## The patterns as a set -/

/-- Reading one thing after the other comes to something if reading each of them does. -/
theorem mapM_mapError_eq_ok_iff {α β ε δ : Type} {read : α → Except ε β} (context : α → ε → δ)
    {texts : List α} {results : List β} :
    (texts.mapM fun text => (read text).mapError (context text)) = .ok results ↔
      texts.map read = results.map .ok := by
  induction texts generalizing results with
  | nil =>
      rw [List.map_nil, List.nil_eq, List.map_eq_nil_iff]
      exact ⟨fun done => (Except.ok.inj done).symm, fun empty => congrArg Except.ok empty.symm⟩
  | cons text texts ih =>
      rw [List.mapM_cons, List.map_cons]
      cases read text with
      | error failure =>
          refine ⟨nofun, fun same => ?_⟩
          cases results <;> simp at same
      | ok first =>
          cases later : texts.mapM fun text => (read text).mapError (context text) with
          | error failure =>
              refine ⟨nofun, fun same => ?_⟩
              obtain ⟨_, rest, rfl, -, same⟩ := List.map_eq_cons_iff.1 same.symm
              exact nomatch later.symm.trans (ih.2 same.symm)
          | ok rest =>
              rw [ih] at later
              rw [later]
              constructor
              · intro done
                rw [← Except.ok.inj done]
                rfl
              · intro same
                rw [← List.map_cons] at same
                exact congrArg Except.ok
                  (List.map_injective_iff.2 (fun _ _ => Except.ok.inj) same)

section Patterns

variable {texts others : List String} {patterns : List Pattern}

/-- Patterns are read text by text, and each of them has to be usable. -/
theorem readPatterns_eq_ok_iff :
    readPatterns texts = .ok patterns ↔
      texts.map Pattern.ofText = patterns.map .ok ∧
        ∀ pattern ∈ patterns, pattern.glob.IsUsable := by
  have usable : ∀ patterns : List Pattern, ExpressionError.find? (patterns.map (·.glob)) = none ↔
      ∀ pattern ∈ patterns, pattern.glob.IsUsable := by
    intro patterns
    rw [ExpressionError.find?_eq_none_iff, List.forall_mem_map]
  rw [← mapM_mapError_eq_ok_iff Failure.invalidPattern, ← usable, readPatterns]
  cases texts.mapM fun text => (Pattern.ofText text).mapError (Failure.invalidPattern text) with
  | error failure =>
      refine ⟨fun same => ?_, fun both => ?_⟩
      · contradiction
      · have same := both.1
        contradiction
  | ok found =>
      dsimp only [bind, Except.bind]
      cases spoilt : ExpressionError.find? (found.map (·.glob)) with
      | some error =>
          refine ⟨fun same => ?_, fun both => ?_⟩
          · contradiction
          · obtain rfl := Except.ok.inj both.1
            have unspoilt := spoilt.symm.trans both.2
            contradiction
      | none =>
          refine ⟨fun same => ?_, And.left⟩
          obtain rfl := Except.ok.inj same
          exact ⟨rfl, spoilt⟩

/-- Which patterns are read. -/
theorem mem_of_readPatterns (read : readPatterns texts = .ok patterns) {pattern : Pattern} :
    pattern ∈ patterns ↔ ∃ text ∈ texts, Pattern.ofText text = .ok pattern := by
  rw [← List.mem_map, (readPatterns_eq_ok_iff.1 read).1]
  exact (List.mem_map_of_injective fun _ _ => Except.ok.inj).symm

/-- If some texts can be read as patterns, so can any of them. -/
theorem exists_readPatterns (read : readPatterns texts = .ok patterns) (within : others ⊆ texts) :
    ∃ fewer, readPatterns others = .ok fewer := by
  obtain ⟨same, usable⟩ := readPatterns_eq_ok_iff.1 read
  have readable : others.map Pattern.ofText ∈ Set.range (List.map Except.ok) := by
    rw [Set.range_list_map]
    intro result member
    obtain ⟨text, listed, rfl⟩ := List.mem_map.1 member
    have known : Pattern.ofText text ∈ texts.map Pattern.ofText :=
      List.mem_map_of_mem (within listed)
    rw [same] at known
    obtain ⟨pattern, -, known⟩ := List.mem_map.1 known
    exact ⟨pattern, known⟩
  obtain ⟨fewer, same'⟩ := readable
  refine ⟨fewer, readPatterns_eq_ok_iff.2 ⟨same'.symm, fun pattern member => ?_⟩⟩
  have known : .ok pattern ∈ others.map Pattern.ofText := same' ▸ List.mem_map_of_mem member
  obtain ⟨text, listed, known⟩ := List.mem_map.1 known
  exact usable pattern ((mem_of_readPatterns read).2 ⟨text, within listed, known⟩)

end Patterns

/-! ## The files that are selected -/

section Selected

variable {patterns others : List Pattern} {outer : List String} {files : List (List String)}

/-- A file is selected if no pattern leaves it out. -/
theorem mem_selectFiles_iff {names : List String} :
    names ∈ selectFiles patterns outer files ↔
      names ∈ files ∧ ∀ pattern ∈ patterns, pattern.excludes outer names = false := by
  rw [selectFiles, List.mem_mergeSort, List.mem_filter, Bool.not_eq_true', List.any_eq_false]
  simp only [Bool.not_eq_true]

/-- The same patterns select the same files. -/
theorem selectFiles_congr (same : ∀ pattern, pattern ∈ patterns ↔ pattern ∈ others) :
    selectFiles patterns outer files = selectFiles others outer files := by
  have left : ∀ names : List String,
      patterns.any (·.excludes outer names) = others.any (·.excludes outer names) := by
    intro names
    rw [Bool.eq_iff_iff, List.any_eq_true, List.any_eq_true]
    simp only [same]
  rw [selectFiles, selectFiles]
  simp only [left]

end Selected

/-- Paths with a common start are in the order of what follows. -/
theorem compare_append_left (outer first second : List String) :
    compare (outer ++ first) (outer ++ second) = compare first second := by
  induction outer with
  | nil => rfl
  | cons name outer ih =>
      have same : compare name name = .eq := Std.ReflCmp.compare_self
      rw [List.compare_eq_compareLex] at ih ⊢
      rw [List.cons_append, List.cons_append, List.compareLex_cons_cons, same, Ordering.eq_then, ih]

/-! ## Walks of a directory -/

section Walk

variable {machine later : Machine} {dir : Pathname} {target : Place} {ignored : List String}
  {entries : List Entry}

/-- The path of a file of a directory goes on with the names that lead to the file. -/
theorem names_below {names : List String}
    (found : machine.disk.find machine.here true dir = .ok target)
    (leads : machine.disk.Leads target names) :
    (Entry.below dir names).path.names = dir.names ++ names := by
  have given : dir.text ≠ "" := by
    intro blank
    rw [Disk.find, blank] at found
    contradiction
  have plain : "." ∉ names := fun member => (leads.isName _ member).dot rfl
  have proper : ∀ name ∈ names, IsPart name := fun name member => (leads.isName name member).isPart
  exact Pathname.names_descend given leads.ne_nil proper plain

variable (tree : machine.disk.IsTree)
  (found : machine.disk.find machine.here true dir = .ok target)
  (directory : machine.disk.node? target = some .directory)
include tree found directory

/-- A walk lists a file if there is one, and no pattern leaves it out. -/
theorem below_mem_collectFiles_iff (plain : isStandardInput dir = false)
    (done : (collectFiles dir ignored).on machine = (.ok entries, later)) {names : List String} :
    Entry.below dir names ∈ entries ↔ machine.disk.Leads target names ∧
      ∀ text ∈ ignored, ∀ pattern, Pattern.ofText text = .ok pattern →
        pattern.excludes (namesInSight dir) names = false := by
  obtain ⟨patterns, read⟩ := exists_patterns_of_collectFiles done
  rw [collectFiles_on found directory read, plain] at done
  obtain rfl := Except.ok.inj (Prod.mk.inj done).1
  have distinct : ∀ first second, Entry.below dir first = Entry.below dir second → first = second :=
    fun _ _ same => congrArg Entry.names same
  rw [if_neg Bool.false_ne_true, List.mem_map_of_injective distinct, mem_selectFiles_iff,
    tree.mem_filesBelow_iff directory]
  refine and_congr_right fun _ => ?_
  constructor
  · intro kept text listed pattern parsed
    exact kept pattern ((mem_of_readPatterns read).2 ⟨text, listed, parsed⟩)
  · intro kept pattern member
    obtain ⟨text, listed, parsed⟩ := (mem_of_readPatterns read).1 member
    exact kept text listed pattern parsed

omit tree in
/-- Patterns that are listed again or in another order select the same files, and any of them
alone select these files among others. -/
theorem exists_collectFiles_of_subset {few : List String} (within : few ⊆ ignored)
    (done : (collectFiles dir ignored).on machine = (.ok entries, later)) :
    ∃ more, (collectFiles dir few).on machine = (.ok more, later) ∧
      entries ⊆ more ∧ (ignored ⊆ few → more = entries) := by
  obtain ⟨patterns, read⟩ := exists_patterns_of_collectFiles done
  obtain ⟨fewer, read'⟩ := exists_readPatterns read within
  rw [collectFiles_on found directory read] at done
  obtain ⟨lists, rfl⟩ := Prod.mk.inj done
  obtain rfl := Except.ok.inj lists
  refine ⟨_, collectFiles_on found directory read', ?_⟩
  have weaker : ∀ pattern ∈ fewer, pattern ∈ patterns := by
    intro pattern member
    obtain ⟨text, listed, parsed⟩ := (mem_of_readPatterns read').1 member
    exact (mem_of_readPatterns read).2 ⟨text, within listed, parsed⟩
  split
  next => exact ⟨List.Subset.refl _, fun _ => rfl⟩
  next =>
    constructor
    · refine List.map_subset _ fun names selected => ?_
      rw [mem_selectFiles_iff] at selected ⊢
      exact ⟨selected.1, fun pattern member => selected.2 pattern (weaker pattern member)⟩
    · intro same
      refine congrArg _ (selectFiles_congr fun pattern => ⟨weaker pattern, fun member => ?_⟩)
      obtain ⟨text, listed, parsed⟩ := (mem_of_readPatterns read).1 member
      exact (mem_of_readPatterns read').2 ⟨text, same listed, parsed⟩

/-- A walk of a directory that is not the standard input lists regular files, none of them
twice, in the order of their paths: those that are reached from the directory through nothing
but directories, and that no pattern leaves out. The patterns matter only as a set, and with
more of them no further file is listed. -/
theorem collectFiles_selects (plain : isStandardInput dir = false) :
    (∃ all, (collectFiles dir []).on machine = (.ok all, machine) ∧
      ∀ names, Entry.below dir names ∈ all ↔ machine.disk.Leads target names) ∧
    ∀ ignored entries later, (collectFiles dir ignored).on machine = (.ok entries, later) →
      later = machine ∧
      (entries.Pairwise fun first second =>
        compare first.path.names second.path.names = .lt) ∧
      (∀ entry ∈ entries, entry = .below dir entry.names ∧
        entry.path.names = dir.names ++ entry.names ∧ machine.disk.Leads target entry.names) ∧
      (∀ names, Entry.below dir names ∈ entries ↔ machine.disk.Leads target names ∧
        ∀ text ∈ ignored, ∀ pattern, Pattern.ofText text = .ok pattern →
          pattern.excludes (namesInSight dir) names = false) ∧
      ∀ few, few ⊆ ignored → ∃ more, (collectFiles dir few).on machine = (.ok more, later) ∧
        entries ⊆ more ∧ (ignored ⊆ few → more = entries) := by
  constructor
  · have read : readPatterns [] = .ok [] := readPatterns_eq_ok_iff.2 ⟨rfl, nofun⟩
    have done := collectFiles_on found directory read
    refine ⟨_, done, fun names => ?_⟩
    rw [below_mem_collectFiles_iff tree found directory plain done]
    exact and_iff_left nofun
  · intro ignored entries later done
    have listed := listed_of_collectFiles found directory done
    have leads := listed.leads tree directory
    have paths : ∀ entry ∈ entries, entry.path.names = dir.names ++ entry.names := by
      intro entry member
      rw [(listed.below entry member).1]
      exact names_below found (leads entry member)
    refine ⟨?_, ?_, fun entry member => ⟨(listed.below entry member).1, paths entry member,
      leads entry member⟩, fun names => below_mem_collectFiles_iff tree found directory plain done,
      fun few within => exists_collectFiles_of_subset found directory within done⟩
    · obtain ⟨patterns, read⟩ := exists_patterns_of_collectFiles done
      rw [collectFiles_on found directory read] at done
      exact (Prod.mk.inj done).2.symm
    · refine listed.sorted.imp_of_mem fun {first second} here there ordered => ?_
      rw [paths first here, paths second there, compare_append_left]
      exact ordered

end Walk

/-- A machine whose files have names that stand in another order than the texts of their
paths do, beside a link. -/
def mixedMachine : Machine :=
  let disk := (Disk.empty.put ["a"] .directory).put ["a.tf"] (.file .empty 0o644)
  let disk := disk.put ["a", "x.tf"] (.file .empty 0o644)
  .fresh (disk.put ["b.tf"] (.link ⟨"a.tf"⟩)) [] ⟨"/xdg"⟩ false

theorem mixed_disk :
    mixedMachine.disk.IsTree ∧ mixedMachine.disk.find mixedMachine.here true ⟨"."⟩ = .ok [] ∧
      mixedMachine.disk.isDirectory [] = true := by
  decide +kernel

theorem collectFiles_selects_of_mixed :
    mixedMachine.disk.IsTree ∧ mixedMachine.disk.find mixedMachine.here true ⟨"."⟩ = .ok [] ∧
      mixedMachine.disk.node? [] = some .directory ∧ isStandardInput ⟨"."⟩ = false ∧
      ∃ all kept, (collectFiles ⟨"."⟩ []).on mixedMachine = (.ok all, mixedMachine) ∧
        (collectFiles ⟨"."⟩ ["/a", "*.md"]).on mixedMachine = (.ok kept, mixedMachine) ∧
        (∀ names, Entry.below ⟨"."⟩ names ∈ all ↔ mixedMachine.disk.Leads [] names) ∧
        (all.Pairwise fun first second => compare first.path.names second.path.names = .lt) ∧
        kept ⊆ all := by
  obtain ⟨tree, found, root⟩ := mixed_disk
  have directory := Disk.isDirectory_iff.1 root
  have plain : isStandardInput ⟨"."⟩ = false := by decide
  obtain ⟨⟨all, done, leads⟩, walk⟩ := collectFiles_selects tree found directory plain
  have readable : (readPatterns ["/a", "*.md"]).isOk = true := by decide +kernel
  obtain ⟨patterns, read⟩ : ∃ patterns, readPatterns ["/a", "*.md"] = .ok patterns := by
    cases read : readPatterns ["/a", "*.md"] with
    | error failure =>
        rw [read] at readable
        contradiction
    | ok patterns => exact ⟨patterns, rfl⟩
  have done' := collectFiles_on found directory read
  obtain ⟨-, -, -, -, fewer⟩ := walk _ _ _ done'
  obtain ⟨more, done'', within, -⟩ := fewer [] (List.nil_subset _)
  obtain rfl := Except.ok.inj (Prod.mk.inj (done.symm.trans done'')).1
  exact ⟨tree, found, directory, plain, all, _, done, done', leads, (walk _ _ _ done).2.1, within⟩

/-- A machine with a directory that has the name of the standard input, and a file in it. -/
def dashMachine : Machine :=
  .fresh ((Disk.empty.put ["-"] .directory).put ["-", "a.tf"] (.file .empty 0o644)) [] ⟨"/xdg"⟩
    false

theorem dash_disk :
    dashMachine.disk.IsTree ∧ dashMachine.disk.find dashMachine.here true ⟨"-"⟩ = .ok ["-"] ∧
      dashMachine.disk.isDirectory ["-"] = true ∧ ["a.tf"] ∈ dashMachine.disk.filesBelow ["-"] := by
  decide +kernel

/-- The files of a directory that has the name of the standard input are not listed. -/
theorem not_collectFiles_selects :
    ¬ ∀ (machine : Machine) (dir : Pathname) (target : Place) (entries : List Entry),
      machine.disk.IsTree → machine.disk.find machine.here true dir = .ok target →
        machine.disk.node? target = some .directory →
        (collectFiles dir []).on machine = (.ok entries, machine) →
        ∀ names, machine.disk.Leads target names → Entry.below dir names ∈ entries := by
  obtain ⟨tree, found, isDirectory, listed⟩ := dash_disk
  have directory := Disk.isDirectory_iff.1 isDirectory
  have read : readPatterns [] = .ok [] := readPatterns_eq_ok_iff.2 ⟨rfl, nofun⟩
  have done := collectFiles_on found directory read
  have dash : isStandardInput ⟨"-"⟩ = true := by decide
  rw [dash, if_pos rfl] at done
  intro claim
  have member := claim dashMachine ⟨"-"⟩ ["-"] [] tree found directory done ["a.tf"]
    (tree.leads_of_mem_filesBelow directory listed)
  exact List.not_mem_nil member

end ProviderMigration.Migration
