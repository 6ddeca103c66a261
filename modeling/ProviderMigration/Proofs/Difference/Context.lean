import Mathlib.Data.List.Chain
import ProviderMigration.Proofs.Difference.Numbering

/-!
# The kept rows around a change

The stretches of a script alternate between kept items and changes. What a hunk leaves out is far
from every change: a hunk is again an alternation of stretches, and those of kept items at its two
ends are short.
-/

namespace ProviderMigration.Difference

variable {α : Type}

/-- How many kept rows stand in front of every change. -/
def Row.lead (rows : List (Row α)) : Nat :=
  (rows.takeWhile fun row => row.mark = .kept).length

/-- Whether a chunk is a change. -/
def Chunk.changed : Chunk α → Bool
  | .same _ => false
  | .change _ _ => true

namespace Stretch

/-- A stretch holds kept rows only, or at least one row and no kept ones. -/
structure Proper (stretch : Stretch α) : Prop where
  marks : ∀ row ∈ stretch.rows, row.mark ≠ .kept ↔ stretch.changed = true
  rows : stretch.changed = true → stretch.rows ≠ []

/-- A stretch of kept rows is no longer than what is shown beside a change. -/
def Short (stretch : Stretch α) : Prop :=
  stretch.changed = false → stretch.rows.length ≤ contextSize

/-- Stretches of kept rows and of changes in turn. -/
structure Alternate (stretches : List (Stretch α)) : Prop where
  proper : ∀ stretch ∈ stretches, stretch.Proper
  turns : (stretches.map (·.changed)).IsChain (· ≠ ·)

/-- Stretches that show no more kept rows in front of the first change and behind the last one
than they should. -/
structure Trimmed (stretches : List (Stretch α)) : Prop extends Alternate stretches where
  first : ∀ stretch ∈ stretches.head?, stretch.Short
  last : ∀ stretch ∈ stretches.getLast?, stretch.Short

/-- Part of a stretch of kept rows. -/
theorem Proper.part {rows part : List (Row α)} (proper : Proper ⟨false, rows⟩)
    (sub : List.Sublist part rows) : Proper ⟨false, part⟩ :=
  ⟨fun row mem => proper.marks row (sub.subset mem), fun changed => Bool.noConfusion changed⟩

theorem Proper.filter_kept {rows : List (Row α)} (proper : Proper ⟨false, rows⟩) :
    (rows.filter fun row => row.mark ≠ .kept) = [] :=
  List.filter_eq_nil_iff.2 fun row mem change =>
    Bool.noConfusion ((proper.marks row mem).1 (of_decide_eq_true change))

/-! ## The ends of trimmed stretches -/

theorem Trimmed.lead_le {stretches : List (Stretch α)} (trimmed : Trimmed stretches)
    (change : ∃ stretch ∈ stretches, stretch.changed = true) :
    Row.lead (allRows stretches) ≤ contextSize := by
  -- The first change begins with a row that is not kept.
  have stop (stretch : Stretch α) (proper : stretch.Proper) (changed : stretch.changed = true)
      (rest : List (Row α)) :
      (stretch.rows ++ rest).takeWhile (fun row => row.mark = .kept) = [] := by
    obtain ⟨row, rows, same⟩ := List.exists_cons_of_ne_nil (proper.rows changed)
    have mark := (proper.marks row (by simp [same])).2 changed
    simp [same, mark]
  obtain ⟨⟨proper, turns⟩, first, -⟩ := trimmed
  cases stretches with
  | nil => simp at change
  | cons stretch rest =>
      rw [Row.lead, allRows_cons]
      cases changed : stretch.changed with
      | true => simp [stop stretch (proper _ (by simp)) changed]
      | false =>
          cases rest with
          | nil => simp [changed] at change
          | cons next rest =>
              have turn : next.changed = true := by
                have different := (List.isChain_cons_cons.1 turns).1
                dsimp only at different
                rw [changed] at different
                simpa using different.symm
              have kept : ∀ row ∈ stretch.rows, decide (row.mark = .kept) = true := by
                intro row mem
                have marks := (proper stretch (by simp)).marks row mem
                rw [changed] at marks
                simpa using marks
              rw [List.takeWhile_append_of_pos kept, allRows_cons,
                stop next (proper _ (by simp)) turn, List.append_nil]
              exact first stretch rfl changed

/-- The stretches read from the end. -/
def mirror (stretches : List (Stretch α)) : List (Stretch α) :=
  stretches.reverse.map fun stretch => ⟨stretch.changed, stretch.rows.reverse⟩

theorem allRows_mirror (stretches : List (Stretch α)) :
    allRows (mirror stretches) = (allRows stretches).reverse := by
  induction stretches with
  | nil => rfl
  | cons stretch stretches ih =>
      rw [allRows_cons, List.reverse_append, ← ih]
      simp [mirror, allRows]

theorem Trimmed.mirror {stretches : List (Stretch α)} (trimmed : Trimmed stretches) :
    Trimmed (mirror stretches) where
  proper := by
    intro stretch mem
    obtain ⟨original, there, rfl⟩ := List.mem_map.1 mem
    have proper := trimmed.proper original (List.mem_reverse.1 there)
    exact ⟨fun row mem => proper.marks row (List.mem_reverse.1 mem),
      fun changed => by simpa using proper.rows changed⟩
  turns := by
    have flags : (Stretch.mirror stretches).map (·.changed) =
        (stretches.map (·.changed)).reverse := by
      simp [Stretch.mirror, Function.comp_def]
    rw [flags, List.isChain_reverse]
    exact trimmed.turns.imp fun _ _ different => different.symm
  first := by
    intro stretch mem
    simp only [Stretch.mirror, List.head?_map, List.head?_reverse, Option.mem_def,
      Option.map_eq_some_iff] at mem
    obtain ⟨original, there, rfl⟩ := mem
    intro kept
    simpa using trimmed.last original there kept
  last := by
    intro stretch mem
    simp only [Stretch.mirror, List.getLast?_map, List.getLast?_reverse, Option.mem_def,
      Option.map_eq_some_iff] at mem
    obtain ⟨original, there, rfl⟩ := mem
    intro kept
    simpa using trimmed.first original there kept

/-! ## The stretches of a script -/

theorem isChain_join {run : Run α} {chunks : List (Chunk α)}
    (turns : (chunks.map Chunk.changed).IsChain (· ≠ ·)) :
    ((Chunk.ofScript.join run chunks).map Chunk.changed).IsChain (· ≠ ·) := by
  have front (chunk : Chunk α) (other : ∀ next ∈ chunks.head?, chunk.changed ≠ next.changed) :
      ((chunk :: chunks).map Chunk.changed).IsChain (· ≠ ·) := by
    cases chunks with
    | nil => simp
    | cons next chunks => simpa using ⟨other next rfl, turns⟩
  unfold Chunk.ofScript.join
  split
  case h_1 | h_3 | h_5 => exact turns
  all_goals
    rename_i merges
    refine front _ fun next mem => ?_
    cases chunks with
    | nil => cases mem
    | cons head chunks =>
        obtain rfl := Option.some.inj mem
        cases head <;> simp_all [Chunk.changed]

theorem solid_join {run : Run α} (change : run.isChange = true → run.old ++ run.new ≠ [])
    {chunks : List (Chunk α)} (solid : .change [] [] ∉ chunks) :
    .change [] [] ∉ Chunk.ofScript.join run chunks := by
  unfold Chunk.ofScript.join
  split <;> simp_all [Run.old, Run.new]

/-- The chunks of a script take turns, and every change changes something. -/
theorem turns_ofScript {script : Script α} (solid : script.Solid) :
    ((Chunk.ofScript script).map Chunk.changed).IsChain (· ≠ ·) ∧
      .change [] [] ∉ Chunk.ofScript script := by
  induction script with
  | nil => simp [Chunk.ofScript]
  | cons run script ih =>
      obtain ⟨turns, changes⟩ := ih ((Script.solid_cons run script).1 solid).2
      exact ⟨isChain_join turns, solid_join ((Script.solid_cons run script).1 solid).1 changes⟩

theorem changed_ofChunks (old new : Nat) (chunks : List (Chunk α)) :
    (ofChunks old new chunks).map (·.changed) = chunks.map Chunk.changed := by
  fun_induction ofChunks old new chunks <;> simp_all [Chunk.changed]

theorem proper_ofChunks (old new : Nat) {chunks : List (Chunk α)}
    (solid : .change [] [] ∉ chunks) : ∀ stretch ∈ ofChunks old new chunks, stretch.Proper := by
  fun_induction ofChunks old new chunks with
  | case1 => simp
  | case2 old new items rest ih =>
      intro stretch mem
      rcases List.mem_cons.1 mem with rfl | later
      · refine ⟨fun row mem => ?_, fun changed => Bool.noConfusion changed⟩
        simp [Row.mark_of_mem_numbered mem]
      · exact ih (fun there => solid (List.mem_cons_of_mem _ there)) stretch later
  | case3 old new removed added rest ih =>
      intro stretch mem
      rcases List.mem_cons.1 mem with rfl | later
      · refine ⟨fun row mem => ?_, fun _ empty => ?_⟩
        · rcases List.mem_append.1 mem with there | there <;>
            simp [Row.mark_of_mem_numbered there]
        · simp [Row.numbered] at empty
          simp [empty] at solid
      · exact ih (fun there => solid (List.mem_cons_of_mem _ there)) stretch later

theorem alternate_ofChunks (old new : Nat) {script : Script α} (solid : script.Solid) :
    Alternate (ofChunks old new (Chunk.ofScript script)) := by
  obtain ⟨turns, changes⟩ := turns_ofScript solid
  exact ⟨proper_ofChunks old new changes, by rwa [changed_ofChunks]⟩

/-! ## Trimming -/

/-- Rows of which only kept ones have been left out. -/
structure Shows (rows all : List (Row α)) : Prop where
  sub : List.Sublist rows all
  changes : rows.filter (fun row => row.mark ≠ .kept) = all.filter fun row => row.mark ≠ .kept

theorem Shows.refl (rows : List (Row α)) : Shows rows rows := ⟨.refl _, rfl⟩

theorem Shows.trans {first second third : List (Row α)} (left : Shows first second)
    (right : Shows second third) : Shows first third :=
  ⟨left.sub.trans right.sub, left.changes.trans right.changes⟩

theorem Shows.append {first second all more : List (Row α)} (left : Shows first all)
    (right : Shows second more) : Shows (first ++ second) (all ++ more) :=
  ⟨left.sub.append right.sub, by
    rw [List.filter_append, List.filter_append, left.changes, right.changes]⟩

theorem Proper.shows {rows part : List (Row α)} (proper : Proper ⟨false, rows⟩)
    (sub : List.Sublist part rows) : Shows part rows :=
  ⟨sub, (proper.part sub).filter_kept.trans proper.filter_kept.symm⟩

theorem alternate_trimStart {stretches : List (Stretch α)} (alternate : Alternate stretches) :
    Alternate (trim.trimStart stretches) ∧
      (∀ stretch ∈ (trim.trimStart stretches).head?, stretch.Short) ∧
        Shows (allRows (trim.trimStart stretches)) (allRows stretches) := by
  unfold trim.trimStart
  split
  next rows rest =>
    have part := List.drop_sublist (rows.length - contextSize) rows
    have proper := alternate.proper ⟨false, rows⟩ (by simp)
    refine ⟨⟨?_, alternate.turns⟩, ?_, (proper.shows part).append (.refl _)⟩
    · intro stretch mem
      rcases List.mem_cons.1 mem with rfl | later
      · exact proper.part part
      · exact alternate.proper stretch (List.mem_cons_of_mem _ later)
    · rintro stretch ⟨⟩ -
      simp only [List.length_drop]
      omega
  next other =>
    refine ⟨alternate, ?_, .refl _⟩
    intro stretch mem kept
    cases stretches with
    | nil => cases mem
    | cons head rest =>
        obtain rfl := Option.some.inj mem
        obtain ⟨changed, rows⟩ := head
        obtain rfl : changed = false := kept
        exact absurd rfl (other rows rest)

theorem trimmed_trimEnd {stretches : List (Stretch α)} (alternate : Alternate stretches)
    (first : ∀ stretch ∈ stretches.head?, stretch.Short) :
    Trimmed (trim.trimEnd stretches) ∧
      Shows (allRows (trim.trimEnd stretches)) (allRows stretches) := by
  unfold trim.trimEnd
  split
  next rows ends =>
    obtain ⟨init, rfl⟩ := List.getLast?_eq_some_iff.1 ends
    have part := List.take_sublist contextSize rows
    have proper := alternate.proper ⟨false, rows⟩ (by simp)
    have short : Short ⟨false, rows.take contextSize⟩ := fun _ => by
      simp only [List.length_take]
      omega
    rw [List.dropLast_concat]
    refine ⟨⟨⟨?_, ?_⟩, ?_, ?_⟩, ?_⟩
    · intro stretch mem
      rcases List.mem_append.1 mem with earlier | here
      · exact alternate.proper stretch (List.mem_append_left _ earlier)
      · obtain rfl := List.mem_singleton.1 here
        exact proper.part part
    · simpa using alternate.turns
    · cases init with
      | nil =>
          rintro stretch ⟨⟩
          exact short
      | cons head init => exact first
    · intro stretch mem
      rw [List.getLast?_concat] at mem
      cases mem
      exact short
    · simpa [allRows] using (Shows.refl (allRows init)).append (proper.shows part)
  next other =>
    refine ⟨⟨alternate, first, ?_⟩, .refl _⟩
    intro stretch mem kept
    obtain ⟨changed, rows⟩ := stretch
    obtain rfl : changed = false := kept
    exact absurd mem (other rows)

theorem trimmed_trim {stretches : List (Stretch α)} (alternate : Alternate stretches) :
    Trimmed (trim stretches) ∧ Shows (allRows (trim stretches)) (allRows stretches) := by
  obtain ⟨started, first, shows⟩ := alternate_trimStart alternate
  obtain ⟨trimmed, rest⟩ := trimmed_trimEnd started first
  exact ⟨trimmed, rest.trans shows⟩

/-! ## Hunks -/

/-- Hunks that show the rows of some stretches, with few kept rows around the changes. -/
structure Divided (stretches : List (Stretch α)) (hunks : List (List (Row α))) : Prop where
  shows : Shows hunks.flatten (allRows stretches)
  parts : ∀ hunk ∈ hunks, ∃ part, Trimmed part ∧ (∃ stretch ∈ part, stretch.changed = true) ∧
    hunk = allRows part

section Cut

variable {earlier rest : List (Stretch α)} {rows : List (Row α)}
  (trimmed : Trimmed (earlier ++ ⟨false, rows⟩ :: rest))
include trimmed

/-- The stretches up to the start of one of kept rows. -/
theorem Trimmed.front : Trimmed (earlier ++ [⟨false, rows.take contextSize⟩]) := by
  obtain ⟨⟨proper, turns⟩, first, -⟩ := trimmed
  have short : Short ⟨false, rows.take contextSize⟩ := fun _ => List.length_take_le _ _
  refine ⟨⟨?_, ?_⟩, ?_, ?_⟩
  · intro stretch mem
    rcases List.mem_append.1 mem with before | here
    · exact proper stretch (List.mem_append_left _ before)
    · obtain rfl := List.mem_singleton.1 here
      exact (proper ⟨false, rows⟩ (by simp)).part (List.take_sublist _ _)
  · rw [List.map_append, List.map_cons, List.append_cons] at turns
    simpa using turns.left_of_append
  · cases earlier with
    | nil =>
        rintro stretch ⟨⟩
        exact short
    | cons head earlier => exact first
  · intro stretch mem
    rw [List.getLast?_concat] at mem
    cases mem
    exact short

/-- The stretches from the end of one of kept rows on. -/
theorem Trimmed.back : Trimmed (⟨false, rows.drop (rows.length - contextSize)⟩ :: rest) := by
  obtain ⟨⟨proper, turns⟩, -, last⟩ := trimmed
  have short : Short ⟨false, rows.drop (rows.length - contextSize)⟩ := fun _ => by
    simp only [List.length_drop]
    omega
  rw [List.map_append, List.map_cons] at turns
  refine ⟨⟨?_, turns.right_of_append⟩, ?_, ?_⟩
  · intro stretch mem
    rcases List.mem_cons.1 mem with rfl | later
    · exact (proper ⟨false, rows⟩ (by simp)).part (List.drop_sublist _ _)
    · exact proper stretch (List.mem_append_right _ (List.mem_cons_of_mem _ later))
  · rintro stretch ⟨⟩
    exact short
  · intro stretch mem
    cases rest with
    | nil =>
        cases mem
        exact short
    | cons next rest => exact last stretch (by simpa using mem)

/-- A long stretch of kept rows is not the first one, and the one in front of it is a change. -/
theorem Trimmed.exists_changed (long : contextSize < rows.length) :
    ∃ stretch ∈ earlier, stretch.changed = true := by
  rcases List.eq_nil_or_concat' earlier with rfl | ⟨init, before, rfl⟩
  · have short := trimmed.first ⟨false, rows⟩ rfl rfl
    exact absurd long (Nat.not_lt.2 short)
  · have turns := trimmed.turns
    rw [List.append_assoc, List.map_append, List.singleton_append, List.map_cons, List.map_cons]
      at turns
    exact ⟨before, by simp, by simpa using (List.isChain_cons_cons.1 turns.right_of_append).1⟩

end Cut

/-- What is shown of a long stretch of kept rows. -/
theorem Proper.shows_cut {rows : List (Row α)} (proper : Proper ⟨false, rows⟩)
    (long : 2 * contextSize < rows.length) :
    Shows (rows.take contextSize ++ rows.drop (rows.length - contextSize)) rows := by
  refine proper.shows ?_
  conv => rhs; rw [← List.take_append_drop contextSize rows]
  exact List.Sublist.append_left (List.drop_sublist_drop_left _ (by omega)) _

theorem divided_go (done : List (List (Row α))) (hunk rest : List (Stretch α))
    (trimmed : Trimmed (hunk.reverse ++ rest)) :
    ∃ shown, hunks.go done hunk rest = done.reverse ++ shown ∧
      Divided (hunk.reverse ++ rest) shown := by
  fun_induction hunks.go done hunk rest with
  | case1 done hunk =>
      rw [List.append_nil] at trimmed ⊢
      split
      next change =>
        refine ⟨[allRows hunk.reverse], by simp [hunks.close, allRows], ?_, ?_⟩
        · simpa using Shows.refl _
        · intro shown mem
          obtain rfl := List.mem_singleton.1 mem
          exact ⟨hunk.reverse, trimmed, by simpa using change, rfl⟩
      next none =>
        have kept : (allRows hunk.reverse).filter (fun row => row.mark ≠ .kept) = [] := by
          refine List.filter_eq_nil_iff.2 fun row mem change => none ?_
          obtain ⟨stretch, there, inside⟩ := List.mem_flatMap.1 mem
          have marks := (trimmed.proper stretch there).marks row inside
          exact List.any_eq_true.2
            ⟨stretch, List.mem_reverse.1 there, marks.1 (of_decide_eq_true change)⟩
        exact ⟨[], by simp, ⟨List.nil_sublist _, kept.symm⟩, by simp⟩
  | case2 done hunk changed rows rest long ih =>
      simp only [Bool.and_eq_true, Bool.not_eq_true', decide_eq_true_eq] at long
      obtain ⟨rfl, long⟩ := long
      obtain ⟨stretch, inside, change⟩ := trimmed.exists_changed
        (Nat.lt_of_le_of_lt (by decide) long)
      obtain ⟨shown, result, divided⟩ := ih (by simpa using trimmed.back)
      have proper := trimmed.proper ⟨false, rows⟩ (by simp)
      refine ⟨allRows (hunk.reverse ++ [⟨false, rows.take contextSize⟩]) :: shown, ?_, ?_, ?_⟩
      · simpa [hunks.close, allRows] using result
      · have whole := (Shows.refl (allRows hunk.reverse)).append
          ((proper.shows_cut long).append (Shows.refl (allRows rest)))
        have later := (Shows.refl (allRows hunk.reverse ++ rows.take contextSize)).append
          divided.shows
        simp only [allRows_append, allRows_cons, allRows_nil, List.flatten_cons, List.append_assoc,
          List.reverse_singleton, List.singleton_append, List.append_nil] at later whole ⊢
        exact later.trans whole
      · intro part mem
        rcases List.mem_cons.1 mem with rfl | later
        · exact ⟨_, trimmed.front, ⟨stretch, List.mem_append_left _ inside, change⟩, rfl⟩
        · exact divided.parts part later
  | case3 done hunk changed rows rest short ih =>
      obtain ⟨shown, result, divided⟩ := ih (by simpa using trimmed)
      exact ⟨shown, result, by simpa using divided⟩

theorem divided_hunks {script : Script α} (solid : script.Solid) :
    Divided (trim (ofChunks 1 1 (Chunk.ofScript script))) (hunks script) := by
  obtain ⟨trimmed, -⟩ := trimmed_trim (alternate_ofChunks 1 1 solid)
  obtain ⟨shown, result, divided⟩ := divided_go [] []
    (trim (ofChunks 1 1 (Chunk.ofScript script))) trimmed
  rw [hunks, result]
  exact divided

end Stretch

/-- Hunks that tell two sequences apart, each with a change and with few kept rows in front of its
first change and behind its last one. -/
structure Faithful (old new : List α) (hunks : List (List (Row α))) : Prop where
  tells : Tells old new hunks.flatten
  change : ∀ hunk ∈ hunks, ∃ row ∈ hunk, row.mark ≠ .kept
  lead : ∀ hunk ∈ hunks, Row.lead hunk ≤ contextSize
  trail : ∀ hunk ∈ hunks, Row.lead hunk.reverse ≤ contextSize

/-- The hunks of a script show what the script does. -/
theorem Leads.faithful {old new : List α} {script : Script α} (leads : Leads old new script) :
    Faithful old new (hunks script) := by
  have divided := Stretch.divided_hunks leads.solid
  obtain ⟨-, trimming⟩ := Stretch.trimmed_trim (Stretch.alternate_ofChunks 1 1 leads.solid)
  have shows := divided.shows.trans trimming
  refine ⟨?_, ?_, ?_, ?_⟩
  · have tells := Stretch.tells_rowsOf script
    rw [leads.old_eq, leads.new_eq] at tells
    exact tells.sublist shows.sub shows.changes
  · intro hunk mem
    obtain ⟨part, trimmed, ⟨stretch, there, changed⟩, rfl⟩ := divided.parts hunk mem
    have proper := trimmed.proper stretch there
    obtain ⟨row, inside⟩ := List.exists_mem_of_ne_nil _ (proper.rows changed)
    exact ⟨row, List.mem_flatMap.2 ⟨stretch, there, inside⟩, (proper.marks row inside).2 changed⟩
  · intro hunk mem
    obtain ⟨part, trimmed, change, rfl⟩ := divided.parts hunk mem
    exact trimmed.lead_le change
  · intro hunk mem
    obtain ⟨part, trimmed, ⟨stretch, there, changed⟩, rfl⟩ := divided.parts hunk mem
    rw [← Stretch.allRows_mirror]
    exact trimmed.mirror.lead_le
      ⟨_, List.mem_map_of_mem (List.mem_reverse.2 there), changed⟩

end ProviderMigration.Difference
