import ProviderMigration.Difference.Hunk
import ProviderMigration.Proofs.Difference.Sliding

/-!
# Rows and their numbers

The rows of a script are its old and its new sequence, laid side by side. To see which items have
a row of which mark it is enough to know of each item whether it is changed: the removed rows are
the changed items of the old sequence, and the others are those of the new sequence.
-/

namespace ProviderMigration.Difference

variable {α : Type}

/-! ## Items and whether they are changed -/

namespace Row

/-- The rows of the items that are changed, or of those that are not. -/
def marked (mark : Mark) (changed : Bool) (start : Nat) (items : List (α × Bool)) : List (Row α) :=
  ((items.zipIdx start).filter fun item => item.1.2 = changed).map
    fun item => ⟨mark, item.2, item.1.1⟩

theorem mark_of_mem_numbered {mark : Mark} {start : Nat} {items : List α} {row : Row α}
    (mem : row ∈ numbered mark start items) : row.mark = mark := by
  obtain ⟨item, -, rfl⟩ := List.mem_map.1 mem
  rfl

theorem filter_numbered (mark other : Mark) (start : Nat) (items : List α) :
    ((numbered other start items).filter fun row => row.mark = mark) =
      if other = mark then numbered other start items else [] := by
  split
  next same =>
    exact List.filter_eq_self.2 fun row mem =>
      decide_eq_true ((mark_of_mem_numbered mem).trans same)
  next different =>
    exact List.filter_eq_nil_iff.2 fun row mem same =>
      different ((mark_of_mem_numbered mem).symm.trans (of_decide_eq_true same))

theorem marked_append (mark : Mark) (changed : Bool) (start : Nat)
    (first second : List (α × Bool)) :
    marked mark changed start (first ++ second) =
      marked mark changed start first ++ marked mark changed (start + first.length) second := by
  simp [marked, List.zipIdx_append]

theorem marked_same (mark : Mark) (changed : Bool) (start : Nat) (items : List α) :
    marked mark changed start (items.map (·, changed)) = numbered mark start items := by
  have all : (items.zipIdx start).filter (fun _ => true) = items.zipIdx start :=
    List.filter_eq_self.2 fun _ _ => rfl
  simp [marked, numbered, List.zipIdx_map, List.filter_map, Function.comp_def, all]

theorem marked_other (mark : Mark) {changed other : Bool} (different : other ≠ changed)
    (start : Nat) (items : List α) : marked mark changed start (items.map (·, other)) = [] := by
  simp [marked, List.zipIdx_map, List.filter_map, Function.comp_def, different]

theorem mem_marked {mark : Mark} {changed : Bool} {start : Nat} {items : List (α × Bool)}
    {row : Row α} (mem : row ∈ marked mark changed start items) :
    row.mark = mark ∧ start ≤ row.number ∧
      items[row.number - start]? = some (row.item, changed) := by
  obtain ⟨⟨⟨item, flag⟩, number⟩, chosen, rfl⟩ := List.mem_map.1 mem
  obtain ⟨there, same⟩ := List.mem_filter.1 chosen
  obtain rfl : flag = changed := of_decide_eq_true same
  obtain ⟨later, place⟩ := List.mk_mem_zipIdx_iff_le_and_getElem?_sub.1 there
  exact ⟨rfl, later, place⟩

/-- Numbers rise from row to row. -/
theorem pairwise_marked (mark : Mark) (changed : Bool) (start : Nat) (items : List (α × Bool)) :
    ((marked mark changed start items).map (·.number)).Pairwise (· < ·) := by
  have places : ((items.zipIdx start).map (·.2)).Pairwise (· < ·) := by
    rw [List.zipIdx_map_snd]
    exact List.pairwise_lt_range'
  rw [marked, List.map_map]
  exact places.sublist (List.filter_sublist.map _)

/-- The changed items have a row. -/
theorem mem_numbers_marked {mark : Mark} {changed : Bool} {start number : Nat}
    {items : List (α × Bool)} :
    number ∈ (marked mark changed start items).map (·.number) ↔
      ∃ item, ((item, changed), number) ∈ items.zipIdx start := by
  simp [marked]

end Row

/-- The items without those whose number, counted from one, is listed. -/
def without (numbers : List Nat) (items : List α) : List α :=
  ((items.zipIdx 1).filter fun item => item.2 ∉ numbers).map (·.1)

theorem without_nil (items : List α) : without [] items = items := by
  have all : (items.zipIdx 1).filter (fun item => item.2 ∉ []) = items.zipIdx 1 :=
    List.filter_eq_self.2 (by simp)
  rw [without, all]
  exact List.zipIdx_map_fst _ _

theorem without_marked (mark : Mark) (items : List (α × Bool)) :
    without ((Row.marked mark true 1 items).map (·.number)) (items.map (·.1)) =
      (items.filter fun item => !item.2).map (·.1) := by
  have unchanged : ∀ item ∈ items.zipIdx 1,
      decide (item.2 ∉ (Row.marked mark true 1 items).map (·.number)) = !item.1.2 := by
    rintro ⟨⟨item, flag⟩, number⟩ there
    -- No two items have the same number.
    have only (other : α) (same : ((other, true), number) ∈ items.zipIdx 1) : flag = true := by
      have here := (List.mk_mem_zipIdx_iff_le_and_getElem?_sub.1 there).2
      rw [(List.mk_mem_zipIdx_iff_le_and_getElem?_sub.1 same).2] at here
      exact (Prod.mk.inj (Option.some.inj here)).2.symm
    cases flag with
    | false =>
        refine decide_eq_true fun mem => ?_
        obtain ⟨other, same⟩ := Row.mem_numbers_marked.1 mem
        exact Bool.noConfusion (only other same)
    | true => exact decide_eq_false fun absent => absent (Row.mem_numbers_marked.2 ⟨item, there⟩)
  have places : (items.zipIdx 1).map (·.1) = items := List.zipIdx_map_fst _ _
  rw [without, List.zipIdx_map, List.filter_map, List.map_map]
  calc ((items.zipIdx 1).filter _).map _
      = ((items.zipIdx 1).filter fun item => !item.1.2).map (·.1.1) :=
        congrArg _ (List.filter_congr unchanged)
    _ = (((items.zipIdx 1).map (·.1)).filter fun item => !item.2).map (·.1) := by
        rw [List.filter_map, List.map_map]
        rfl
    _ = (items.filter fun item => !item.2).map (·.1) := by rw [places]

/-! ## The rows of a script -/

namespace Chunk

/-- The old items of a chunk, and whether they are removed. -/
def before : Chunk α → List (α × Bool)
  | .same items => items.map (·, false)
  | .change removed _ => removed.map (·, true)

/-- The new items of a chunk, and whether they are added. -/
def after : Chunk α → List (α × Bool)
  | .same items => items.map (·, false)
  | .change _ added => added.map (·, true)

/-- What is not changed stands in both sequences. -/
theorem unchanged_eq (chunk : Chunk α) :
    (chunk.before.filter fun item => !item.2) = chunk.after.filter fun item => !item.2 := by
  cases chunk with
  | same => rfl
  | change removed added =>
      have none (items : List α) : ((items.map (·, true)).filter fun item => !item.2) = [] := by
        simp [List.filter_eq_nil_iff]
      exact (none removed).trans (none added).symm

theorem old_join (run : Run α) (chunks : List (Chunk α)) :
    ((ofScript.join run chunks).flatMap before).map (·.1) =
      run.old ++ (chunks.flatMap before).map (·.1) := by
  unfold ofScript.join
  split <;> simp [before, Run.old, Function.comp_def]

theorem new_join (run : Run α) (chunks : List (Chunk α)) :
    ((ofScript.join run chunks).flatMap after).map (·.1) =
      run.new ++ (chunks.flatMap after).map (·.1) := by
  unfold ofScript.join
  split <;> simp [after, Run.new, Function.comp_def]

theorem old_ofScript (script : Script α) :
    ((ofScript script).flatMap before).map (·.1) = script.old := by
  induction script with
  | nil => rfl
  | cons run script ih =>
      rw [ofScript, List.foldr_cons, old_join, Script.old_cons, ← ih]
      rfl

theorem new_ofScript (script : Script α) :
    ((ofScript script).flatMap after).map (·.1) = script.new := by
  induction script with
  | nil => rfl
  | cons run script ih =>
      rw [ofScript, List.foldr_cons, new_join, Script.new_cons, ← ih]
      rfl

end Chunk

namespace Stretch

/-- All rows of some stretches. -/
def allRows (stretches : List (Stretch α)) : List (Row α) :=
  stretches.flatMap (·.rows)

@[simp] theorem allRows_nil : allRows ([] : List (Stretch α)) = [] := rfl

theorem allRows_append (first second : List (Stretch α)) :
    allRows (first ++ second) = allRows first ++ allRows second :=
  List.flatMap_append

theorem allRows_cons (stretch : Stretch α) (stretches : List (Stretch α)) :
    allRows (stretch :: stretches) = stretch.rows ++ allRows stretches := rfl

/-- The rows with a mark are those of the old sequence or those of the new one. -/
theorem filter_ofChunks (mark : Mark) (old new : Nat) (chunks : List (Chunk α)) :
    (allRows (ofChunks old new chunks)).filter (·.mark = mark) =
      Row.marked mark (mark ≠ .kept) (if mark = .removed then old else new)
        (chunks.flatMap fun chunk => if mark = .removed then chunk.before else chunk.after) := by
  fun_induction ofChunks old new chunks with
  | case1 => rfl
  | case2 old new items rest ih =>
      rw [allRows_cons, List.filter_append, ih, List.flatMap_cons, Row.marked_append]
      cases mark <;>
        simp [Row.filter_numbered, Chunk.before, Chunk.after, Row.marked_same, Row.marked_other]
  | case3 old new removed added rest ih =>
      rw [allRows_cons, List.filter_append, ih, List.flatMap_cons, Row.marked_append]
      cases mark <;>
        simp [Row.filter_numbered, Chunk.before, Chunk.after, Row.marked_same, Row.marked_other]

end Stretch

/-- The numbers of the rows with a mark. -/
def Row.numbers (mark : Mark) (rows : List (Row α)) : List Nat :=
  (rows.filter fun row => row.mark = mark).map (·.number)

/-- Rows that tell two sequences apart: they show the items that have their numbers, and without
the items that are shown as removed or added both sequences are the same. -/
structure Tells (old new : List α) (rows : List (Row α)) : Prop where
  removed : ∀ row ∈ rows, row.mark = .removed →
    1 ≤ row.number ∧ old[row.number - 1]? = some row.item
  present : ∀ row ∈ rows, row.mark ≠ .removed →
    1 ≤ row.number ∧ new[row.number - 1]? = some row.item
  removedOrder : (Row.numbers .removed rows).Pairwise (· < ·)
  addedOrder : (Row.numbers .added rows).Pairwise (· < ·)
  rest : without (Row.numbers .removed rows) old = without (Row.numbers .added rows) new

namespace Stretch

/-- All rows of a script. -/
def rowsOf (script : Script α) : List (Row α) :=
  allRows (ofChunks 1 1 (Chunk.ofScript script))

theorem removed_rowsOf (script : Script α) :
    (rowsOf script).filter (·.mark = .removed) =
      Row.marked .removed true 1 ((Chunk.ofScript script).flatMap Chunk.before) :=
  filter_ofChunks .removed 1 1 (Chunk.ofScript script)

theorem added_rowsOf (script : Script α) :
    (rowsOf script).filter (·.mark = .added) =
      Row.marked .added true 1 ((Chunk.ofScript script).flatMap Chunk.after) :=
  filter_ofChunks .added 1 1 (Chunk.ofScript script)

theorem kept_rowsOf (script : Script α) :
    (rowsOf script).filter (·.mark = .kept) =
      Row.marked .kept false 1 ((Chunk.ofScript script).flatMap Chunk.after) :=
  filter_ofChunks .kept 1 1 (Chunk.ofScript script)

/-- The rows of a script tell its sequences apart. -/
theorem tells_rowsOf (script : Script α) : Tells script.old script.new (rowsOf script) where
  removed := by
    intro row mem mark
    have here : row ∈ (rowsOf script).filter (·.mark = .removed) :=
      List.mem_filter.2 ⟨mem, decide_eq_true mark⟩
    rw [removed_rowsOf] at here
    obtain ⟨-, first, place⟩ := Row.mem_marked here
    rw [← Chunk.old_ofScript, List.getElem?_map, place]
    exact ⟨first, rfl⟩
  present := by
    intro row mem mark
    have here : row ∈ (rowsOf script).filter (·.mark = row.mark) :=
      List.mem_filter.2 ⟨mem, decide_eq_true rfl⟩
    rw [← Chunk.new_ofScript, List.getElem?_map]
    cases same : row.mark with
    | removed => exact absurd same mark
    | added =>
        rw [same, added_rowsOf] at here
        obtain ⟨-, first, place⟩ := Row.mem_marked here
        rw [place]
        exact ⟨first, rfl⟩
    | kept =>
        rw [same, kept_rowsOf] at here
        obtain ⟨-, first, place⟩ := Row.mem_marked here
        rw [place]
        exact ⟨first, rfl⟩
  removedOrder := by
    rw [Row.numbers, removed_rowsOf]
    exact Row.pairwise_marked _ _ _ _
  addedOrder := by
    rw [Row.numbers, added_rowsOf]
    exact Row.pairwise_marked _ _ _ _
  rest := by
    have unchanged : ((Chunk.ofScript script).flatMap Chunk.before).filter (fun item => !item.2) =
        ((Chunk.ofScript script).flatMap Chunk.after).filter fun item => !item.2 := by
      rw [List.filter_flatMap, List.filter_flatMap]
      simp only [Chunk.unchanged_eq]
    rw [Row.numbers, removed_rowsOf, Row.numbers, added_rowsOf, ← Chunk.old_ofScript,
      ← Chunk.new_ofScript, without_marked, without_marked, unchanged]

end Stretch

/-- Leaving out kept rows makes no difference. -/
theorem Tells.sublist {old new : List α} {all rows : List (Row α)} (tells : Tells old new all)
    (sub : List.Sublist rows all)
    (changes : rows.filter (·.mark ≠ .kept) = all.filter (·.mark ≠ .kept)) :
    Tells old new rows := by
  have numbers (mark : Mark) (change : mark ≠ .kept) :
      Row.numbers mark rows = Row.numbers mark all := by
    have part (rows : List (Row α)) : rows.filter (·.mark = mark) =
        (rows.filter (·.mark ≠ .kept)).filter (·.mark = mark) := by
      rw [List.filter_filter]
      refine List.filter_congr fun row _ => ?_
      by_cases same : row.mark = mark <;> simp [same, change]
    rw [Row.numbers, part, changes, ← part]
    rfl
  have removed := numbers .removed (by decide)
  have added := numbers .added (by decide)
  exact {
    removed := fun row mem => tells.removed row (sub.subset mem)
    present := fun row mem => tells.present row (sub.subset mem)
    removedOrder := removed ▸ tells.removedOrder
    addedOrder := added ▸ tells.addedOrder
    rest := by rw [removed, added, tells.rest] }

end ProviderMigration.Difference
