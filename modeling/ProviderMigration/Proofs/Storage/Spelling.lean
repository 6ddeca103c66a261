import Mathlib.Data.List.Basic
import ProviderMigration.Storage.Disk

/-!
# How paths are spelled

The steps of a path are the parts of its text between slashes. This module reads the
steps back from the paths that are put together from others: from names, by going on
below a directory, or by leaving out what does not count at the end.
-/

namespace ProviderMigration.Storage

/-! ## Cutting a text at slashes -/

namespace Pathname

theorem cutAtSlashes_ne_nil (text : List Char) : cutAtSlashes text ≠ [] := by
  cases text with
  | nil => exact List.cons_ne_nil _ _
  | cons c text =>
      simp only [cutAtSlashes, List.foldr_cons]
      split
      next => exact List.cons_ne_nil _ _
      next =>
        split
        next => exact List.cons_ne_nil _ _
        next => exact List.cons_ne_nil _ _

theorem cutAtSlashes_slash (text : List Char) :
    cutAtSlashes ('/' :: text) = [] :: cutAtSlashes text := rfl

theorem cutAtSlashes_cons {c : Char} (other : c ≠ '/') {text part : List Char}
    {parts : List (List Char)} (cut : cutAtSlashes text = part :: parts) :
    cutAtSlashes (c :: text) = (c :: part) :: parts := by
  rw [cutAtSlashes] at cut
  rw [cutAtSlashes, List.foldr_cons, if_neg other, cut]

theorem cutAtSlashes_append (front back : List Char) :
    cutAtSlashes (front ++ '/' :: back) = cutAtSlashes front ++ cutAtSlashes back := by
  induction front with
  | nil => rfl
  | cons c front ih =>
      by_cases slash : c = '/'
      · rw [slash, List.cons_append, cutAtSlashes_slash, cutAtSlashes_slash, ih, List.cons_append]
      · obtain ⟨part, parts, cut⟩ := List.exists_cons_of_ne_nil (cutAtSlashes_ne_nil front)
        rw [cut, List.cons_append] at ih
        rw [List.cons_append, cutAtSlashes_cons slash ih, cutAtSlashes_cons slash cut,
          List.cons_append]

theorem cutAtSlashes_of_not_mem {part : List Char} (clean : '/' ∉ part) :
    cutAtSlashes part = [part] := by
  induction part with
  | nil => rfl
  | cons c part ih =>
      rw [List.mem_cons, not_or] at clean
      exact cutAtSlashes_cons (Ne.symm clean.1) (ih clean.2)

theorem cutAtSlashes_intercalate {names : List String} (nonempty : names ≠ [])
    (clean : ∀ name ∈ names, '/' ∉ name.toList) :
    cutAtSlashes ("/".intercalate names).toList = names.map String.toList := by
  induction names with
  | nil => contradiction
  | cons name names ih =>
      rw [List.forall_mem_cons] at clean
      cases names with
      | nil => rw [String.intercalate_singleton, cutAtSlashes_of_not_mem clean.1]; rfl
      | cons next names =>
          have joined : ("/".intercalate (name :: next :: names)).toList =
              name.toList ++ '/' :: ("/".intercalate (next :: names)).toList := by
            rw [String.intercalate_cons_cons, String.toList_append, String.toList_append,
              List.append_assoc]
            rfl
          rw [joined, cutAtSlashes_append, cutAtSlashes_of_not_mem clean.1,
            ih (List.cons_ne_nil _ _) clean.2]
          rfl

end Pathname

/-- A step of a path: it is not blank, and there is no slash in it. -/
structure IsPart (part : String) : Prop where
  nonempty : part ≠ ""
  slash : '/' ∉ part.toList

namespace Pathname

theorem slash_not_mem_cutAtSlashes {text : List Char} :
    ∀ part ∈ cutAtSlashes text, '/' ∉ part := by
  induction text with
  | nil => simp [cutAtSlashes]
  | cons c text ih =>
      by_cases slash : c = '/'
      · rw [slash, cutAtSlashes_slash, List.forall_mem_cons]
        exact ⟨List.not_mem_nil, ih⟩
      · obtain ⟨part, parts, cut⟩ := List.exists_cons_of_ne_nil (cutAtSlashes_ne_nil text)
        rw [cut, List.forall_mem_cons] at ih
        rw [cutAtSlashes_cons slash cut, List.forall_mem_cons, List.mem_cons, not_or]
        exact ⟨⟨Ne.symm slash, ih.1⟩, ih.2⟩

variable {path dir next : Pathname} {names : List String}

theorem slash_not_mem_parts (path : Pathname) : ∀ part ∈ path.parts, '/' ∉ part.toList := by
  intro part member
  obtain ⟨letters, cut, rfl⟩ := List.mem_map.1 member
  rw [String.toList_ofList]
  exact slash_not_mem_cutAtSlashes letters cut

theorem parts_ne_nil (path : Pathname) : path.parts ≠ [] := by
  rw [parts, ne_eq, List.map_eq_nil_iff]
  exact cutAtSlashes_ne_nil _

theorem parts_of_toList_eq {front back : List Char}
    (split : path.text.toList = front ++ '/' :: back) :
    path.parts =
      (cutAtSlashes front).map String.ofList ++ (cutAtSlashes back).map String.ofList := by
  rw [parts, split, cutAtSlashes_append, List.map_append]

theorem parts_intercalate (nonempty : names ≠ []) (clean : ∀ name ∈ names, '/' ∉ name.toList) :
    parts ⟨"/".intercalate names⟩ = names := by
  rw [parts, cutAtSlashes_intercalate nonempty clean]
  simp [Function.comp_def]

/-- The first part of a path tells how it begins. -/
theorem parts_cases (path : Pathname) :
    (path.text = "" ∧ path.isAbsolute = false ∧ path.parts = [""]) ∨
      (path.text ≠ "" ∧ path.isAbsolute = true ∧ ∃ rest, rest ≠ [] ∧ path.parts = "" :: rest) ∨
      (path.text ≠ "" ∧ path.isAbsolute = false ∧
        ∃ first rest, first ≠ "" ∧ path.parts = first :: rest) := by
  have given : path.text = "" ↔ path.text.toList = [] := String.toList_eq_nil_iff.symm
  rw [ne_eq, given, isAbsolute, parts]
  cases path.text.toList with
  | nil => exact .inl ⟨rfl, rfl, rfl⟩
  | cons c text =>
      by_cases slash : c = '/'
      · refine .inr (.inl ⟨List.cons_ne_nil _ _, by simp [slash], ?_⟩)
        rw [slash, cutAtSlashes_slash]
        exact ⟨_, by simpa using cutAtSlashes_ne_nil text, rfl⟩
      · obtain ⟨part, parts, cut⟩ := List.exists_cons_of_ne_nil (cutAtSlashes_ne_nil text)
        refine .inr (.inr ⟨List.cons_ne_nil _ _, by simpa using slash, ?_⟩)
        rw [cutAtSlashes_cons slash cut]
        refine ⟨String.ofList (c :: part), _, fun blank => ?_, rfl⟩
        have letters := congrArg String.toList blank
        rw [String.toList_ofList] at letters
        exact List.cons_ne_nil _ _ letters

theorem isAbsolute_iff {first : String} {rest : List String} (cut : path.parts = first :: rest) :
    path.isAbsolute = true ↔ first = "" ∧ rest ≠ [] := by
  obtain ⟨-, relative, parts⟩ | ⟨-, absolute, _, further, parts⟩ |
    ⟨-, relative, _, _, ink, parts⟩ := path.parts_cases
  all_goals
    obtain ⟨rfl, rfl⟩ := List.cons_eq_cons.1 (cut.symm.trans parts)
    simp [*]

theorem text_eq_empty_iff {first : String} {rest : List String} (cut : path.parts = first :: rest) :
    path.text = "" ↔ first = "" ∧ rest = [] := by
  obtain ⟨blank, -, parts⟩ | ⟨given, -, _, further, parts⟩ | ⟨given, -, _, _, ink, parts⟩ :=
    path.parts_cases
  all_goals
    obtain ⟨rfl, rfl⟩ := List.cons_eq_cons.1 (cut.symm.trans parts)
    simp [*]

theorem names_eq (path : Pathname) :
    path.names = (path.parts.filter (· ≠ "")).filter (· ≠ ".") := by
  rw [names, steps]
  split
  next => simp
  next => rfl

theorem isPart_of_mem_names : ∀ name ∈ path.names, IsPart name ∧ name ≠ "." := by
  intro name member
  rw [names_eq, List.mem_filter, List.mem_filter] at member
  obtain ⟨⟨part, nonempty⟩, dot⟩ := member
  exact ⟨⟨by simpa using nonempty, path.slash_not_mem_parts name part⟩, by simpa using dot⟩

/-- Parts that are steps stay steps. -/
theorem filter_parts (proper : ∀ name ∈ names, IsPart name) : names.filter (· ≠ "") = names := by
  rw [List.filter_eq_self]
  exact fun name member => by simpa using (proper name member).nonempty

/-- A path whose last part is a step asks for no directory at its end. -/
theorem steps_of_parts {outer : List String} (cut : path.parts = outer ++ names)
    (nonempty : names ≠ []) (proper : ∀ name ∈ names, IsPart name) :
    path.steps = outer.filter (· ≠ "") ++ names := by
  have inked : (path.parts.getLast? == some "") = false := by
    rw [cut, List.getLast?_append, List.getLast?_eq_some_getLast nonempty, Option.some_or]
    simpa using (proper _ (List.getLast_mem nonempty)).nonempty
  rw [steps]
  rw [inked, Bool.and_false, if_neg Bool.false_ne_true, cut, List.filter_append,
    filter_parts proper]

/-! ## Paths with given names -/

theorem isAbsolute_intercalate (nonempty : names ≠ []) (proper : ∀ name ∈ names, IsPart name) :
    isAbsolute ⟨"/".intercalate names⟩ = false := by
  obtain ⟨first, rest, rfl⟩ := List.exists_cons_of_ne_nil nonempty
  rw [Bool.eq_false_iff, ne_eq,
    isAbsolute_iff (parts_intercalate nonempty fun name member => (proper name member).slash)]
  exact fun rooted => (proper first List.mem_cons_self).nonempty rooted.1

theorem toList_ofNames (names : List String) :
    (ofNames names).text.toList = [] ++ '/' :: ("/".intercalate names).toList := by
  rw [ofNames, String.toList_append]
  rfl

theorem isAbsolute_ofNames (names : List String) : (ofNames names).isAbsolute = true := by
  rw [isAbsolute, toList_ofNames]
  rfl

theorem steps_ofNames (proper : ∀ name ∈ names, IsPart name) : (ofNames names).steps = names := by
  cases names with
  | nil => rfl
  | cons name rest =>
      have cut : (ofNames (name :: rest)).parts = [""] ++ name :: rest := by
        rw [parts_of_toList_eq (toList_ofNames _)]
        exact congrArg ([""] ++ ·) (parts_intercalate (List.cons_ne_nil _ _)
          fun name member => (proper name member).slash)
      exact steps_of_parts cut (List.cons_ne_nil _ _) proper

/-- A path with other names takes them as its steps, from where it started. -/
theorem parts_withNames (path : Pathname) (nonempty : names ≠ [])
    (proper : ∀ name ∈ names, IsPart name) :
    ∃ outer, (path.withNames names).parts = outer ++ names ∧ outer.filter (· ≠ "") = [] := by
  have clean : ∀ name ∈ names, '/' ∉ name.toList := fun name member => (proper name member).slash
  rw [withNames]
  split
  next =>
    refine ⟨[""], ?_, rfl⟩
    rw [parts_of_toList_eq (toList_ofNames _)]
    exact congrArg ([""] ++ ·) (parts_intercalate nonempty clean)
  next => exact ⟨[], parts_intercalate nonempty clean, rfl⟩

theorem isAbsolute_withNames (path : Pathname) (nonempty : names ≠ [])
    (proper : ∀ name ∈ names, IsPart name) :
    (path.withNames names).isAbsolute = path.isAbsolute := by
  rw [withNames]
  split
  next absolute => rw [isAbsolute_ofNames, absolute]
  next relative => rw [isAbsolute_intercalate nonempty proper, Bool.eq_false_iff.2 relative]

theorem steps_withNames (path : Pathname) (nonempty : names ≠ [])
    (proper : ∀ name ∈ names, IsPart name) : (path.withNames names).steps = names := by
  obtain ⟨outer, cut, blank⟩ := path.parts_withNames nonempty proper
  rw [steps_of_parts cut nonempty proper, blank, List.nil_append]

/-! ## Paths that go on below a directory -/

/-- A slash stands between a path and another behind it, and only one. -/
theorem exists_text_join (given : dir.text ≠ "") (relative : next.isAbsolute = false) :
    ∃ front, (dir.join next).text.toList = front ++ '/' :: next.text.toList ∧
      (dir.text.toList = front ∨ dir.text.toList = front ++ ['/']) := by
  have nonblank : dir.text.isEmpty = false := by simpa using given
  rw [join, relative, nonblank, Bool.or_self, if_neg Bool.false_ne_true]
  by_cases slash : dir.text.toList.getLast? = some '/'
  · obtain ⟨front, split⟩ := List.getLast?_eq_some_iff.1 slash
    rw [if_pos (by simp [slash])]
    exact ⟨front, by simp [split], .inr split⟩
  · rw [if_neg (by simpa using slash)]
    exact ⟨dir.text.toList, by simp, .inl rfl⟩

theorem isAbsolute_join (given : dir.text ≠ "") (relative : next.isAbsolute = false) :
    (dir.join next).isAbsolute = dir.isAbsolute := by
  obtain ⟨front, whole, dirs⟩ := exists_text_join given relative
  rw [isAbsolute, isAbsolute, whole]
  cases front with
  | nil =>
      rcases dirs with none | slash
      · exact absurd (String.toList_eq_nil_iff.1 none) given
      · rw [slash]
        rfl
  | cons c front => rcases dirs with same | slash <;> simp [*]

theorem text_join_ne_empty (given : next.text ≠ "") : (dir.join next).text ≠ "" := by
  rw [join]
  split
  next => exact given
  next =>
    split
    all_goals
      rw [ne_eq, ← String.toList_eq_nil_iff, String.toList_append]
      exact List.append_ne_nil_of_right_ne_nil _ (String.toList_eq_nil_iff.not.2 given)

/-- A path that goes on below a directory takes the steps to the directory and then its
own. -/
theorem steps_join (given : dir.text ≠ "") (relative : next.isAbsolute = false)
    (nonempty : next.text ≠ "") :
    ∃ outer last, dir.steps = outer ++ last ∧ (last = [] ∨ last = ["."]) ∧
      (dir.join next).steps = outer ++ next.steps := by
  obtain ⟨front, whole, dirs⟩ := exists_text_join given relative
  have cut : (dir.join next).parts = (cutAtSlashes front).map String.ofList ++ next.parts :=
    parts_of_toList_eq whole
  have ink : next.parts.filter (· ≠ "") ≠ [] := by
    obtain ⟨blank, -⟩ | ⟨-, absolute, -⟩ | ⟨-, -, first, rest, ink, parts⟩ := next.parts_cases
    · exact absurd blank nonempty
    · exact nomatch relative.symm.trans absolute
    · rw [parts, List.filter_cons_of_pos (by simpa using ink)]
      exact List.cons_ne_nil _ _
  have below : (dir.join next).steps =
      ((cutAtSlashes front).map String.ofList).filter (· ≠ "") ++ next.steps := by
    have last : (dir.join next).parts.getLast? = next.parts.getLast? := by
      rw [cut, List.getLast?_append, List.getLast?_eq_some_getLast next.parts_ne_nil,
        Option.some_or]
    have further : (dir.join next).parts.filter (· ≠ "") ≠ [] := by
      rw [cut, List.filter_append]
      exact List.append_ne_nil_of_right_ne_nil _ ink
    rw [steps, steps]
    rw [List.isEmpty_eq_false_iff.2 further, List.isEmpty_eq_false_iff.2 ink, last, cut,
      List.filter_append]
    split
    next => rw [List.append_assoc]
    next => rfl
  have filtered : dir.parts.filter (· ≠ "") =
      ((cutAtSlashes front).map String.ofList).filter (· ≠ "") := by
    rcases dirs with same | slash
    · rw [Pathname.parts, same]
    · rw [parts_of_toList_eq slash, List.filter_append]
      exact List.append_nil _
  have above : dir.steps = ((cutAtSlashes front).map String.ofList).filter (· ≠ "") ∨
      dir.steps = ((cutAtSlashes front).map String.ofList).filter (· ≠ "") ++ ["."] := by
    rw [steps]
    rw [filtered]
    split
    next => exact .inr rfl
    next => exact .inl rfl
  rcases above with same | dot
  · exact ⟨_, [], by rw [same, List.append_nil], .inl rfl, below⟩
  · exact ⟨_, ["."], dot, .inr rfl, below⟩

theorem steps_intercalate (nonempty : names ≠ []) (proper : ∀ name ∈ names, IsPart name) :
    steps ⟨"/".intercalate names⟩ = names := by
  have cut : parts ⟨"/".intercalate names⟩ = [] ++ names :=
    parts_intercalate nonempty fun name member => (proper name member).slash
  exact steps_of_parts cut nonempty proper

theorem intercalate_ne_empty (nonempty : names ≠ []) (proper : ∀ name ∈ names, IsPart name) :
    "/".intercalate names ≠ "" := by
  intro blank
  have cut := parts_intercalate nonempty fun name member => (proper name member).slash
  rw [blank] at cut
  exact (proper "" (cut ▸ List.mem_singleton_self "")).nonempty rfl

/-- A path with names behind it starts where the path does, and takes its steps and
then the names. -/
theorem steps_descend (given : dir.text ≠ "") (nonempty : names ≠ [])
    (proper : ∀ name ∈ names, IsPart name) :
    (dir.descend names).isAbsolute = dir.isAbsolute ∧
      ∃ outer last, dir.steps = outer ++ last ∧ (last = [] ∨ last = ["."]) ∧
        (dir.descend names).steps = outer ++ names := by
  have relative := isAbsolute_intercalate nonempty proper
  refine ⟨isAbsolute_join given relative, ?_⟩
  have steps := steps_join given relative (intercalate_ne_empty nonempty proper)
  rwa [steps_intercalate nonempty proper] at steps

theorem text_descend_ne_empty (given : dir.text ≠ "") (nonempty : names ≠ [])
    (proper : ∀ name ∈ names, IsPart name) : (dir.descend names).text ≠ "" := by
  obtain ⟨front, whole, -⟩ := exists_text_join given (isAbsolute_intercalate nonempty proper)
  rw [ne_eq, ← String.toList_eq_nil_iff, descend, whole]
  exact List.append_ne_nil_of_right_ne_nil _ (List.cons_ne_nil _ _)

/-- Such a path is no shorter than that of the directory. -/
theorem utf8ByteSize_le_descend (nonempty : names ≠ []) (proper : ∀ name ∈ names, IsPart name) :
    dir.text.utf8ByteSize ≤ (dir.descend names).text.utf8ByteSize := by
  rw [descend, join, isAbsolute_intercalate nonempty proper, Bool.false_or]
  split
  next blank => simp [String.isEmpty_iff.1 blank]
  next =>
    split
    next => simp
    next =>
      simp only [String.utf8ByteSize_append]
      omega

/-- The names of such a path are those of the directory and then its own. -/
theorem names_descend (given : dir.text ≠ "") (nonempty : names ≠ [])
    (proper : ∀ name ∈ names, IsPart name) (plain : "." ∉ names) :
    (dir.descend names).names = dir.names ++ names := by
  obtain ⟨-, outer, last, above, ends, below⟩ := steps_descend given nonempty proper
  have kept : names.filter (· ≠ ".") = names := by
    rw [List.filter_eq_self]
    exact fun name member => decide_eq_true fun dot => plain (dot ▸ member)
  rw [Pathname.names, Pathname.names, below, above, List.filter_append, List.filter_append, kept]
  rcases ends with rfl | rfl <;> simp

/-! ## Paths without what does not count at their end -/

/-- What is left out of the parts of a path does not count. -/
theorem exists_kept (rest : List String) :
    ∃ kept left, rest = kept ++ left ∧ (∀ part ∈ left, part = "" ∨ part = ".") ∧
      (rest.reverse.dropWhile fun part => part == "" || part == ".").reverse = kept := by
  let idle : String → Bool := fun part => part == "" || part == "."
  refine ⟨_, (rest.reverse.takeWhile idle).reverse, ?_, ?_, rfl⟩
  · rw [← List.reverse_append, List.takeWhile_append_dropWhile, List.reverse_reverse]
  · intro part member
    have taken := List.all_eq_true.1 List.all_takeWhile part (List.mem_reverse.1 member)
    simpa [idle] using taken

/-- Leaving out what does not count at the end of a path changes neither where it starts
nor its names. -/
theorem trimmed_spec (path : Pathname) :
    path.trimmed.isAbsolute = path.isAbsolute ∧ path.trimmed.names = path.names ∧
      (path.trimmed.text = "" ↔ path.text = "") := by
  obtain ⟨first, rest, cut⟩ := List.exists_cons_of_ne_nil path.parts_ne_nil
  obtain ⟨kept, left, rfl, idle, trimmed⟩ := exists_kept rest
  have clean : ∀ part ∈ first :: kept, '/' ∉ part.toList := by
    intro part member
    refine path.slash_not_mem_parts part ?_
    rw [cut, ← List.cons_append]
    exact List.mem_append_left left member
  have parts := parts_intercalate (List.cons_ne_nil first kept) clean
  have blank : (left.filter (· ≠ "")).filter (· ≠ ".") = [] := by
    rw [List.filter_filter, List.filter_eq_nil_iff]
    intro part member
    rcases idle part member with rfl | rfl <;> simp
  have names : path.names = ((first :: kept).filter (· ≠ "")).filter (· ≠ ".") := by
    rw [names_eq, cut, ← List.cons_append, List.filter_append, List.filter_append, blank,
      List.append_nil]
  rw [Pathname.trimmed, cut]
  dsimp only
  rw [trimmed]
  split
  next bare =>
    simp only [Bool.and_eq_true, List.isEmpty_iff, beq_iff_eq] at bare
    obtain ⟨⟨rfl, rfl⟩, absolute⟩ := bare
    have further := ((isAbsolute_iff cut).1 absolute).2
    refine ⟨absolute.symm, by rw [names]; rfl, iff_of_false (by decide) fun none => ?_⟩
    exact further ((text_eq_empty_iff cut).1 none).2
  next rooted =>
    simp only [Bool.and_eq_true, List.isEmpty_iff, beq_iff_eq, isAbsolute_iff cut] at rooted
    refine ⟨?_, by rw [names, names_eq, parts], ?_⟩
    · rw [Bool.eq_iff_iff, isAbsolute_iff parts, isAbsolute_iff cut]
      refine and_congr_right fun blank => ?_
      cases kept with
      | nil => simpa [blank] using rooted
      | cons next kept => simp
    · rw [text_eq_empty_iff parts, text_eq_empty_iff cut]
      refine and_congr_right fun blank => ?_
      cases kept with
      | nil => simpa [blank] using rooted
      | cons next kept => simp

end Pathname

/-- A name that an entry of a directory may have. -/
structure IsName (name : String) : Prop where
  nonempty : name ≠ ""
  slash : '/' ∉ name.toList
  dot : name ≠ "."
  dots : name ≠ ".."
  short : name.utf8ByteSize ≤ Disk.maxNameSize

theorem IsName.isPart {name : String} (named : IsName name) : IsPart name :=
  ⟨named.nonempty, named.slash⟩

instance (name : String) : Decidable (IsName name) :=
  decidable_of_iff (name ≠ "" ∧ '/' ∉ name.toList ∧ name ≠ "." ∧ name ≠ ".." ∧
      name.utf8ByteSize ≤ Disk.maxNameSize)
    ⟨fun ⟨nonempty, slash, dot, dots, short⟩ => ⟨nonempty, slash, dot, dots, short⟩,
      fun ⟨nonempty, slash, dot, dots, short⟩ => ⟨nonempty, slash, dot, dots, short⟩⟩

end ProviderMigration.Storage
