import ProviderMigration.Proofs.Toml.Document
import ProviderMigration.Settings.Document

/-!
# Settings that are read back

The settings in a document are written as a document of their own, and reading that gives the
same settings again, whatever characters are in their texts. The size that a document gives is
always below the bound for sizes, so this goes for all settings that come from a document.
-/

namespace ProviderMigration.Settings

open Toml Document

variable {fuel depth : Nat} {rest : List Char}

/-! ## Values -/

/-- What stands on the line of one of several strings. -/
def itemLine (text : String) : List Char :=
  "    ".toList ++ Quoted.write text.toList ++ ",\n".toList

theorem isVisible_quote {quote : Char} (mark : quote = '"' ∨ quote = '\'') : IsVisible quote := by
  rcases mark with rfl | rfl <;> exact ⟨by decide, by decide, by decide, by decide⟩

/-- A string in an array, between what may be skipped and a mark. -/
theorem skipLines_write (text : String) (rest : List Char) :
    skipLines false (Quoted.write text.toList ++ rest) =
      some (Quoted.write text.toList ++ rest) := by
  obtain ⟨quote, content, written, mark⟩ := Quoted.exists_quote_write text.toList
  rw [written]
  exact skipLines_of_isVisible (isVisible_quote mark)

/-- An array with a line for each string. -/
theorem readItems_lines (texts : List String) {items : List Value} (enough : texts.length < fuel) :
    readItems (fuel + 1) depth items ('\n' :: (texts.flatMap itemLine ++ ']' :: rest)) =
      some (items.reverse ++ texts.map .string, rest) := by
  induction texts generalizing fuel items with
  | nil =>
      have skipped : skipLines false ('\n' :: ']' :: rest) = some (']' :: rest) := rfl
      rw [List.map_nil, List.append_nil]
      exact readItems_close skipped
  | cons text texts ih =>
      have positive : fuel ≠ 0 := Nat.ne_of_gt (Nat.zero_lt_of_lt enough)
      obtain ⟨fuel, rfl⟩ := Nat.exists_eq_add_one_of_ne_zero positive
      have indented : '\n' :: ((text :: texts).flatMap itemLine ++ ']' :: rest) =
          '\n' :: ' ' :: ' ' :: ' ' :: ' ' :: (Quoted.write text.toList ++
            ',' :: '\n' :: (texts.flatMap itemLine ++ ']' :: rest)) := by
        simp [itemLine]
      have skipped : skipLines false ('\n' :: ((text :: texts).flatMap itemLine ++ ']' :: rest)) =
          some (Quoted.write text.toList ++
            ',' :: '\n' :: (texts.flatMap itemLine ++ ']' :: rest)) := by
        rw [indented]
        exact skipLines_write text _
      rw [readItems_further skipped, ih (Nat.lt_of_succ_lt_succ enough), List.reverse_cons,
        List.append_assoc, List.singleton_append, List.map_cons]

/-- An array of strings is read back. -/
theorem readValue_writeTexts (texts : List String) (enough : texts.length + 2 < fuel) :
    readValue fuel (depth + 1) (writeTexts texts ++ rest) =
      some (.array (texts.map .string), rest) := by
  obtain ⟨fuel, rfl⟩ : ∃ less, fuel = less + 3 := ⟨fuel - 3, by omega⟩
  rw [writeTexts.eq_def]
  split
  next =>
    have skipped : skipLines false (']' :: rest) = some (']' :: rest) := rfl
    exact readValue_array (readItems_close skipped)
  next text =>
    have inner : "[".toList ++ Quoted.write text.toList ++ "]".toList ++ rest =
        '[' :: (Quoted.write text.toList ++ ']' :: rest) := by simp
    rw [inner]
    exact readValue_array (readItems_last (skipLines_write text _))
  next =>
    have inner : "[\n".toList ++ texts.flatMap itemLine ++ "]".toList ++ rest =
        '[' :: '\n' :: (texts.flatMap itemLine ++ ']' :: rest) := by simp
    change readValue _ _ ("[\n".toList ++ texts.flatMap itemLine ++ "]".toList ++ rest) = _
    rw [inner]
    exact readValue_array (readItems_lines texts (by omega))

/-! ## Documents -/

theorem length_le_writeTexts (texts : List String) : texts.length ≤ (writeTexts texts).length := by
  have lines : texts.length ≤ (texts.flatMap itemLine).length := by
    induction texts with
    | nil => exact Nat.le_refl 0
    | cons text texts ih =>
        rw [List.flatMap_cons, List.length_append, List.length_cons, itemLine]
        simp only [List.length_append]
        change _ ≤ 4 + _ + 2 + _
        omega
  rw [writeTexts.eq_def]
  split
  next => exact Nat.zero_le _
  next => simp
  next =>
    change _ ≤ ("[\n".toList ++ texts.flatMap itemLine ++ "]".toList).length
    simp only [List.length_append]
    omega

theorem textsOf?_strings (texts : List String) :
    textsOf? (.array (texts.map .string)) = some texts := by
  rw [textsOf?]
  induction texts with
  | nil => rfl
  | cons text texts ih =>
      rw [List.map_cons, List.mapM_cons, ih]
      rfl

section Lines

variable {key : String} {bound : Nat} (bare : isBare key = true)
include bare

/-- The line of some texts is read back. -/
theorem reads_texts {texts : List String} (enough : texts.length + 2 < bound) :
    Line.Reads ⟨key, writeTexts texts, .array (texts.map .string)⟩ bound where
  bare := bare
  starts := by
    rw [writeTexts.eq_def]
    split <;> exact ⟨'[', rfl, by decide⟩
  reads _ _ above := readValue_writeTexts texts (Nat.lt_of_lt_of_le enough above)

/-- The line of a size is read back. -/
theorem reads_size {size : Nat} (fits : size < sizeBound) (enough : 0 < bound) :
    Line.Reads ⟨key, (toString size).toList, .integer size⟩ bound where
  bare := bare
  starts := by
    have written : (toString size).toList = Nat.toDigits 10 size := Nat.toList_repr
    obtain ⟨c, digits, spelled⟩ :=
      List.exists_cons_of_ne_nil (Nat.toDigits_ne_nil (b := 10) (n := size))
    have digit := Scalar.isDigit_of_mem_toDigits size c (spelled ▸ List.mem_cons_self)
    have letter : isKeyChar c = true := by simp [isKeyChar, Char.isAlphanum, digit]
    rw [written, spelled]
    exact ⟨c, rfl, (isVisible_of_isKeyChar letter).gap⟩
  reads fuel rest above := by
    have positive : fuel ≠ 0 := Nat.ne_of_gt (Nat.lt_of_lt_of_le enough above)
    obtain ⟨fuel, rfl⟩ := Nat.exists_eq_add_one_of_ne_zero positive
    exact readValue_toString size (Nat.lt_trans fits (by decide))

/-- The line of a text is read back. -/
theorem reads_text (text : String) (enough : 0 < bound) :
    Line.Reads ⟨key, Quoted.write text.toList, .string text⟩ bound where
  bare := bare
  starts := by
    obtain ⟨quote, content, written, mark⟩ := Quoted.exists_quote_write text.toList
    rw [written]
    exact ⟨quote, rfl, (isVisible_quote mark).gap⟩
  reads fuel rest above := by
    have positive : fuel ≠ 0 := Nat.ne_of_gt (Nat.lt_of_lt_of_le enough above)
    obtain ⟨fuel, rfl⟩ := Nat.exists_eq_add_one_of_ne_zero positive
    exact readValue_write text (by simp) (by simp)

end Lines

/-- The lines of the document with all the settings. -/
def documentLines (settings : Settings) : List Line :=
  [⟨"extensions", writeTexts settings.extensions, .array (settings.extensions.map .string)⟩,
    ⟨"provider_extensions", writeTexts settings.providerExtensions,
      .array (settings.providerExtensions.map .string)⟩,
    ⟨"ignored_paths", writeTexts settings.ignoredPaths,
      .array (settings.ignoredPaths.map .string)⟩,
    ⟨"max_file_size", (toString settings.maxFileSize).toList, .integer settings.maxFileSize⟩,
    ⟨"backup_suffix", Quoted.write settings.backupSuffix.toList, .string settings.backupSuffix⟩]

theorem toText_eq (settings : Settings) :
    settings.toText = (documentLines settings).flatMap Line.written := by
  simp [toText, documentLines, Line.written, writeLine]

/-- The settings in the table of a document with all of them. -/
theorem ofTable?_documentLines (settings : Settings) (fits : settings.maxFileSize < sizeBound) :
    ofTable? ((documentLines settings).map Line.entry) = some settings := by
  have size : sizeOf? (.integer settings.maxFileSize) = some settings.maxFileSize := by
    rw [sizeOf?, if_pos ⟨Int.natCast_nonneg _, Int.ofNat_lt.2 fits⟩, Int.toNat_natCast]
  have found : ∀ {α : Type} (key : String) (read : Value → Option α) (standard : α)
      (value : Value), ((documentLines settings).map Line.entry).lookup key = some value →
        lookUp ((documentLines settings).map Line.entry) key read standard = read value := by
    intro α key read standard value listed
    rw [lookUp, listed]
  rw [ofTable?, found "extensions" textsOf? _ _ rfl, found "provider_extensions" textsOf? _ _ rfl,
    found "ignored_paths" textsOf? _ _ rfl, found "max_file_size" sizeOf? _ _ rfl,
    found "backup_suffix" textOf? _ _ rfl, textsOf?_strings, textsOf?_strings, textsOf?_strings,
    size]
  rfl

/-- The settings in a document are those that were written there. -/
theorem ofText?_toText (settings : Settings) (fits : settings.maxFileSize < sizeBound) :
    ofText? settings.toText = some settings := by
  have extensions := length_le_writeTexts settings.extensions
  have providerExtensions := length_le_writeTexts settings.providerExtensions
  have ignoredPaths := length_le_writeTexts settings.ignoredPaths
  have long : settings.toText.length = 88 + (writeTexts settings.extensions).length +
      (writeTexts settings.providerExtensions).length +
      (writeTexts settings.ignoredPaths).length + (toString settings.maxFileSize).toList.length +
      (Quoted.write settings.backupSuffix.toList).length := by
    simp only [toText, writeLine, List.length_append]
    change 10 + 3 + _ + 1 + (19 + 3 + _ + 1) + (13 + 3 + _ + 1) + (13 + 3 + _ + 1) +
      (13 + 3 + _ + 1) = _
    omega
  have reads : ∀ line ∈ documentLines settings, line.Reads settings.toText.length := by
    simp only [documentLines, List.forall_mem_cons, List.not_mem_nil, false_implies, implies_true,
      and_true]
    exact ⟨reads_texts (by decide) (by omega), reads_texts (by decide) (by omega),
      reads_texts (by decide) (by omega), reads_size (by decide) fits (by omega),
      reads_text (by decide) _ (by omega)⟩
  have enough : settings.toText.length + (documentLines settings).length <
      2 * settings.toText.length + 3 := by
    change settings.toText.length + 5 < _
    omega
  have distinct : ((documentLines settings).map Line.key).Nodup := by simp [documentLines]
  have entries : Document.ofText? settings.toText =
      some ((documentLines settings).map Line.entry) := by
    rw [toText_eq] at enough reads ⊢
    exact ofText?_lines reads distinct enough
  rw [ofText?, entries]
  exact ofTable?_documentLines settings fits

/-! ## Sizes -/

/-- The settings of any document have a size that can be written. -/
theorem maxFileSize_lt_of_ofText? {text : List Char} {settings : Settings}
    (read : ofText? text = some settings) : settings.maxFileSize < sizeBound := by
  have readable : ∀ {table : Table} {size : Nat},
      lookUp table "max_file_size" sizeOf? standard.maxFileSize = some size → size < sizeBound := by
    intro table size found
    rw [lookUp] at found
    split at found
    next =>
      rw [← Option.some.inj found]
      decide
    next value =>
      rw [sizeOf?.eq_def] at found
      split at found
      next given =>
        split at found
        next fits =>
          rw [← Option.some.inj found]
          exact (Int.toNat_lt fits.1).2 fits.2
        next => contradiction
      next => contradiction
  simp only [ofText?, ofTable?, Option.bind_eq_bind, Option.bind_eq_some_iff] at read
  obtain ⟨table, -, extensions, -, providerExtensions, -, ignoredPaths, -, size, found,
    backupSuffix, -, given⟩ := read
  obtain rfl := Option.some.inj given
  exact readable found

theorem maxFileSize_completed_lt {settings : Settings} (fits : settings.maxFileSize < sizeBound) :
    settings.completed.maxFileSize < sizeBound := by
  dsimp only [completed]
  split
  next => decide
  next => exact fits

end ProviderMigration.Settings
