import ProviderMigration.Difference.Preview
import ProviderMigration.Proofs.Difference.Context

/-!
# What the preview shows

A preview can be read back: none of its lines holds a newline, so they are what its newlines
separate. Its numbered lines show how the lines of the two texts differ.
-/

namespace ProviderMigration.Difference

open Console

/-! ## Lines -/

/-- The ends that a line can have. -/
def LineEnd (ending : List Char) : Prop :=
  ending = ['\r', '\n'] ∨ ending = ['\r'] ∨ ending = ['\n']

theorem LineEnd.mem {ending : List Char} (isEnd : LineEnd ending) :
    ∀ c ∈ ending, c = '\r' ∨ c = '\n' := by
  rcases isEnd with rfl | rfl | rfl <;> simp

/-- A text without ends of lines. -/
def Plain (body : List Char) : Prop := ∀ c ∈ body, c ≠ '\r' ∧ c ≠ '\n'

/-- How a text falls into lines, each with its end. Only the last line may have none. -/
inductive InLines : List Char → List (List Char) → Prop where
  | nil : InLines [] []
  | last {body : List Char} (nonempty : body ≠ []) (plain : Plain body) : InLines body [body]
  | line {body ending text : List Char} {lines : List (List Char)} (plain : Plain body)
      (isEnd : LineEnd ending) (whole : ending = ['\r'] → text.head? ≠ some '\n')
      (rest : InLines text lines) :
      InLines (body ++ ending ++ text) ((body ++ ending) :: lines)

theorem inLines_go (done : List (List Char)) (line text : List Char) (plain : Plain line.reverse) :
    ∃ lines, linesWithEnds.go done line text = done.reverse ++ lines ∧
      InLines (line.reverse ++ text) lines := by
  fun_induction linesWithEnds.go done line text with
  | case1 done line =>
      split
      next empty =>
        obtain rfl := List.isEmpty_iff.1 empty
        exact ⟨[], by simp, .nil⟩
      next some =>
        refine ⟨[line.reverse], by simp, ?_⟩
        rw [List.append_nil]
        exact .last (by simpa using some) plain
  | case2 done line rest ih =>
      obtain ⟨lines, result, inLines⟩ := ih (by simp [Plain])
      refine ⟨(line.reverse ++ ['\r', '\n']) :: lines, by simpa using result, ?_⟩
      simpa using InLines.line plain (.inl rfl) (by simp) inLines
  | case3 done line c rest other isEnd ih =>
      obtain ⟨lines, result, inLines⟩ := ih (by simp [Plain])
      refine ⟨(line.reverse ++ [c]) :: lines, by simpa using result, ?_⟩
      have ending : LineEnd [c] := by
        rcases isEnd with rfl | rfl <;> simp [LineEnd]
      have whole : [c] = ['\r'] → rest.head? ≠ some '\n' := by
        rintro ⟨⟩ next
        obtain ⟨rest', rfl⟩ := List.head?_eq_some_iff.1 next
        exact other rest' rfl rfl
      simpa using InLines.line plain ending whole inLines
  | case4 done line c rest other inside ih =>
      obtain ⟨lines, result, inLines⟩ := ih (by
        intro d mem
        rw [List.reverse_cons] at mem
        rcases List.mem_append.1 mem with before | here
        · exact plain d before
        · obtain rfl := List.mem_singleton.1 here
          exact not_or.1 inside)
      exact ⟨lines, result, by simpa using inLines⟩

/-- The lines of a text are what it falls into. -/
theorem inLines_linesWithEnds (text : List Char) :
    InLines text ((linesWithEnds text).map String.toList) := by
  obtain ⟨lines, result, inLines⟩ := inLines_go [] [] text (by simp [Plain])
  have same : (linesWithEnds text).map String.toList = lines := by
    simp [linesWithEnds, result, Function.comp_def]
  rw [same]
  exact inLines

theorem InLines.flatten {text : List Char} {lines : List (List Char)}
    (inLines : InLines text lines) : lines.flatten = text := by
  induction inLines with
  | nil => rfl
  | last => simp
  | line plain isEnd whole rest ih => simp [ih]

theorem withoutEnds_append {body ending : List Char} (plain : Plain body)
    (ends : ∀ c ∈ ending, c = '\r' ∨ c = '\n') : withoutEnds (body ++ ending) = body := by
  have skip : ∀ c ∈ ending.reverse, decide (c = '\r') || decide (c = '\n') := by
    intro c mem
    simpa using ends c (List.mem_reverse.1 mem)
  have stop : body.reverse.dropWhile (fun c => decide (c = '\r') || decide (c = '\n')) =
      body.reverse := by
    cases shape : body.reverse with
    | nil => rfl
    | cons c rest =>
        have here := plain c (List.mem_reverse.1 (shape ▸ List.mem_cons_self))
        simp [here]
  rw [withoutEnds, List.reverse_append, List.dropWhile_append_of_pos skip, stop,
    List.reverse_reverse]

/-- Without its end a line is plain. -/
theorem InLines.plain {text : List Char} {lines : List (List Char)} (inLines : InLines text lines) :
    ∀ line ∈ lines, Plain (withoutEnds line) := by
  induction inLines with
  | nil => simp
  | @last body nonempty plain =>
      have same : withoutEnds (body ++ []) = body := withoutEnds_append plain (by simp)
      rw [List.append_nil] at same
      simpa [same] using plain
  | line plain isEnd whole rest ih =>
      have same := withoutEnds_append plain isEnd.mem
      rintro line (_ | ⟨_, later⟩)
      · rw [same]
        exact plain
      · exact ih line later

/-! ## Printed lines -/

/-- The lines that a preview prints for some hunks. -/
def printed (colored : Bool) (hunks : List (List (Row String))) : List String :=
  ((hunks.map fun hunk => hunk.map (Row.render colored)).intersperse [hunkSeparator]).flatten

theorem newline_notMem_paddedNumber (number : Nat) : '\n' ∉ (paddedNumber number).toList := by
  have digits : '\n' ∉ Nat.toDigits 10 number := fun mem =>
    absurd (Nat.isDigit_of_mem_toDigits (by decide) (by decide) mem) (by decide)
  simp [paddedNumber, digits]

theorem newline_notMem_paint (colored : Bool) (style : Style) {text : String}
    (inside : '\n' ∉ text.toList) : '\n' ∉ (paint colored [style] text).toList := by
  cases colored with
  | false => simpa [paint] using inside
  | true => cases style <;> simp [paint, Style.parameter, String.join, inside]

theorem newline_notMem_render (colored : Bool) {row : Row String}
    (plain : Plain (withoutEnds row.item.toList)) : '\n' ∉ (row.render colored).toList := by
  have item : '\n' ∉ withoutEnds row.item.toList := fun mem => (plain _ mem).2 rfl
  have number := newline_notMem_paddedNumber row.number
  unfold Row.render
  dsimp only
  split
  · simp [number, item]
  · exact newline_notMem_paint _ _ (by simp [number, item])
  · exact newline_notMem_paint _ _ (by simp [number, item])

theorem mem_intersperse {β : Type} {separator part : β} {parts : List β}
    (mem : part ∈ parts.intersperse separator) : part = separator ∨ part ∈ parts := by
  fun_induction List.intersperse separator parts <;> grind

/-- A printed line separates hunks or is that of a row. -/
theorem mem_printed {colored : Bool} {hunks : List (List (Row String))} {line : String}
    (mem : line ∈ printed colored hunks) :
    line = hunkSeparator ∨ ∃ row ∈ hunks.flatten, line = row.render colored := by
  obtain ⟨part, there, inside⟩ := List.mem_flatten.1 mem
  rcases mem_intersperse there with rfl | shown
  · exact .inl (List.mem_singleton.1 inside)
  · obtain ⟨hunk, chosen, rfl⟩ := List.mem_map.1 shown
    obtain ⟨row, member, rfl⟩ := List.mem_map.1 inside
    exact .inr ⟨row, List.mem_flatten.2 ⟨hunk, chosen, member⟩, rfl⟩

theorem printed_ne_nil (colored : Bool) {hunk : List (Row String)}
    (hunks : List (List (Row String))) (some : hunk ≠ []) : printed colored (hunk :: hunks) ≠ [] := by
  cases hunks <;> simp [printed, some]

/-! ## Previews -/

section Preview

variable {old new : List Char} {hunks : List (List (Row String))}
  (faithful : Faithful (linesWithEnds old) (linesWithEnds new) hunks)

include faithful

/-- Every row shows a line of one of the texts. -/
theorem Faithful.plain : ∀ row ∈ hunks.flatten, Plain (withoutEnds row.item.toList) := by
  intro row mem
  by_cases mark : row.mark = .removed
  · have place := (faithful.tells.removed row mem mark).2
    exact (inLines_linesWithEnds old).plain _
      (List.mem_map_of_mem (List.mem_of_getElem? place))
  · have place := (faithful.tells.present row mem mark).2
    exact (inLines_linesWithEnds new).plain _
      (List.mem_map_of_mem (List.mem_of_getElem? place))

/-- Different texts have something to show. -/
theorem Faithful.printed_ne_nil (colored : Bool) (different : old ≠ new) :
    printed colored hunks ≠ [] := by
  cases hunks with
  | nil =>
      have same := faithful.tells.rest
      rw [List.flatten_nil, Row.numbers, List.filter_nil, List.map_nil, without_nil, Row.numbers,
        List.filter_nil, List.map_nil, without_nil] at same
      refine absurd ?_ different
      rw [← (inLines_linesWithEnds old).flatten, same, (inLines_linesWithEnds new).flatten]
  | cons hunk hunks =>
      obtain ⟨row, mem, -⟩ := faithful.change hunk List.mem_cons_self
      exact Difference.printed_ne_nil colored hunks (List.ne_nil_of_mem mem)

end Preview

/-- A preview of different texts is a faithful account of how their lines differ. Its newlines
separate the lines that it prints. -/
theorem preview_faithful (colored : Bool) {old new : List Char} (different : old ≠ new) :
    ∃ script later,
      Divides (linesWithEnds old) (linesWithEnds new)
          (.start (linesWithEnds old).length (linesWithEnds new).length) script later ∧
        InLines old ((linesWithEnds old).map String.toList) ∧
        InLines new ((linesWithEnds new).map String.toList) ∧
        Faithful (linesWithEnds old) (linesWithEnds new) (hunks script.compact) ∧
        (preview colored old new).toList.splitOn '\n' =
          (printed colored (hunks script.compact)).map String.toList := by
  obtain ⟨later, divides⟩ := divides_shortest (linesWithEnds old) (linesWithEnds new)
  have faithful := (leads_compact divides.leads).faithful
  refine ⟨_, later, divides, inLines_linesWithEnds old, inLines_linesWithEnds new, faithful, ?_⟩
  rw [preview, if_neg different, String.toList_intercalate]
  refine List.splitOn_intercalate '\n' ?_ fun empty =>
    faithful.printed_ne_nil colored different (List.map_eq_nil_iff.1 empty)
  intro line mem
  obtain ⟨line, there, rfl⟩ := List.mem_map.1 mem
  rcases mem_printed there with rfl | ⟨row, shown, rfl⟩
  · decide
  · exact newline_notMem_render colored (faithful.plain row shown)

/-- A text of several lines. -/
def formerText : List Char :=
  List.flatMap String.toList ["a\n", "b\n", "c\n", "d\n", "e\n", "f\n", "g\n"]

/-- The text with another first line, and another last line that does not end. -/
def laterText : List Char :=
  List.flatMap String.toList ["x\n", "b\n", "c\n", "d\n", "e\n", "f\n", "y"]

/-- The changes are too far apart for one hunk. In both the script adds before it removes, which
its compact form turns around. -/
theorem preview_faithful_of_distant_changes : formerText ≠ laterText ∧
    (∃ script later,
      Divides (linesWithEnds formerText) (linesWithEnds laterText)
          (.start (linesWithEnds formerText).length (linesWithEnds laterText).length) script later ∧
        InLines formerText ((linesWithEnds formerText).map String.toList) ∧
        InLines laterText ((linesWithEnds laterText).map String.toList) ∧
        Faithful (linesWithEnds formerText) (linesWithEnds laterText) (hunks script.compact) ∧
        (preview false formerText laterText).toList.splitOn '\n' =
          (printed false (hunks script.compact)).map String.toList) ∧
    preview false formerText laterText = "\n".intercalate
      ["-    1: a", "+    1: x", "     2: b", "     3: c", "...", "     5: e", "     6: f",
        "-    7: g", "+    7: y"] := by
  have different : formerText ≠ laterText := by decide
  refine ⟨different, preview_faithful false different, ?_⟩
  have script : Script.shortest (linesWithEnds formerText) (linesWithEnds laterText) =
      [.add ["x\n"], .remove ["a\n"], .keep ["b\n", "c\n", "d\n", "e\n", "f\n"], .add ["y"],
        .remove ["g\n"]] := by decide +kernel
  have compact : Script.compact [.add ["x\n"], .remove ["a\n"],
      .keep ["b\n", "c\n", "d\n", "e\n", "f\n"], .add ["y"], .remove ["g\n"]] =
      [.remove ["a\n"], .add ["x\n"], .keep ["b\n", "c\n", "d\n", "e\n", "f\n"], .remove ["g\n"],
        .add ["y"]] := by cbv
  rw [preview, if_neg different, lineScript, script, compact]
  cbv

end ProviderMigration.Difference
