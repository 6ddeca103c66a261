import ProviderMigration.Proofs.Block.Grammar
import ProviderMigration.Proofs.Provider.Repetition

/-!
# The attributes behind a mention

The attributes that an edit updates reach from the mention of a legacy provider to the brace
that closes the first braces after it. Where this brace stands can be read off the block as it
was: the renaming in front of it moves it, but does not exchange it for another one. A block
that stands right behind the mention, but for characters that mean nothing to a scan, is the one
that is found.
-/

namespace ProviderMigration.Provider

open Text Block

variable {block lead body front rest : List Char} {mention : Mention}

/-- A text in front of a closing brace that opens no braces it does not close. -/
def IsBody (body : List Char) : Prop := Items true (symbol '\x7d') (utf8 body)

/-- Bytes that mean nothing stand for themselves, whatever follows them. -/
theorem items_append_of_isInert {nested : Bool} {next : UInt8} {stretch items : List UInt8}
    (inert : ∀ b ∈ stretch, IsInert b) (later : Items nested next items) :
    Items nested next (stretch ++ items) := by
  induction stretch with
  | nil => exact later
  | cons a stretch ih =>
      rw [List.forall_mem_cons] at inert
      have known := inert.1
      simp only [IsInert, meaningful, List.forall_mem_cons, List.not_mem_nil, false_implies,
        implies_true, and_true] at known
      obtain ⟨quote, hash, slash, dollar, -, -, -, opening, closing⟩ := known
      exact .plain ⟨by simp [quote, hash, opening, closing], fun same => absurd same slash,
        fun same => absurd same dollar⟩ (ih inert.2)

theorem isInert_of_mem_utf8 (meaningless : isMeaningless body = true) :
    ∀ b ∈ utf8 body, IsInert b := by
  intro b member
  obtain ⟨c, letter, encoded⟩ := List.mem_flatMap.1 member
  by_cases narrow : c.utf8Size = 1
  · rw [String.utf8EncodeChar_eq_singleton narrow, List.mem_singleton] at encoded
    intro d listed
    rw [encoded, ne_eq, byte_eq_symbol_iff narrow (utf8Size_of_mem_meaningful d listed)]
    exact isInert_of_isMeaningless meaningless c letter d listed
  · exact isInert_of_mem_utf8EncodeChar narrow encoded

theorem isBody_of_isMeaningless (meaningless : isMeaningless body = true) : IsBody body := by
  have items : Items true (symbol '\x7d') (utf8 body ++ []) :=
    items_append_of_isInert (isInert_of_mem_utf8 meaningless) .nil
  rwa [List.append_nil] at items

/-- A text without a quote and a backslash may stand between quotes. -/
theorem isQuoted_of_not_mem {text : List UInt8} (quote : symbol '"' ∉ text)
    (backslash : symbol '\\' ∉ text) : IsQuoted text := by
  induction text with
  | nil => exact .nil
  | cons a text ih =>
      rw [List.mem_cons, not_or] at quote backslash
      exact .plain (Ne.symm quote.1) (Ne.symm backslash.1) (ih quote.2 backslash.2)

/-- Braces behind a stretch that means nothing are found, whatever follows them. -/
theorem closing?_ofBraces_of_lead (inert : ∀ c ∈ lead, IsInert c) (complete : IsBody body)
    (rest : List Char) :
    (Balance.ofBraces (lead ++ '\x7b' :: (body ++ '\x7d' :: rest))).closing? =
      some (byteSize (lead ++ '\x7b' :: body)) := by
  have passed : Balance.Passes .code .code lead := by
    cases lead with
    | nil =>
        intro index depth first? text
        simp
    | cons c lead => exact Balance.passes_of_isInert inert (List.cons_ne_nil c lead) .code
  have opened : utf8 ('\x7b' :: (body ++ '\x7d' :: rest)) =
      symbol '\x7b' :: (utf8 body ++ symbol '\x7d' :: utf8 rest) := by
    change symbol '\x7b' :: utf8 (body ++ '\x7d' :: rest) = _
    rw [utf8_append]
    rfl
  rw [Balance.ofBraces, Balance.find, passed, opened, Balance.scan_opening,
    Balance.scan_items complete rfl _ fun _ => ⟨by decide, rfl⟩, Balance.scan_closing,
    if_pos (by decide)]
  have brace : Char.utf8Size '\x7b' = 1 := by decide
  simp [length_utf8, brace, Nat.add_assoc]

/-- What the edit of a block does when the braces behind the mention close at some place. -/
theorem editRequirements_of_closing (found : Mention.find? block = some mention)
    (split : mention.found = front ++ '\x7d' :: rest)
    (closes : (Balance.ofBraces mention.found).closing? = some (byteSize front)) :
    ∃ rest', renameKeys mention.found = renameKeys front ++ '\x7d' :: rest' ∧
      editRequirements block =
        .ok (mention.before ++ updateAttributes (renameKeys front) ++ '\x7d' :: rest') := by
  have kept := (keepsBraces_renameKeys mention.found).closing
  rw [closes] at kept
  cases moved : (Balance.ofBraces (renameKeys mention.found)).closing? with
  | none =>
      rw [moved] at kept
      cases kept
  | some place =>
      rw [moved] at kept
      cases kept with
      | some carried =>
          obtain ⟨front', old, rest', split', renamed, size, rfl⟩ := carried
          obtain rfl : front' = front := by
            rw [← takeBytes_byteSize_append front' ('\x7d' :: old), ← split', split, size,
              takeBytes_byteSize_append]
          obtain ⟨opened, bounded⟩ := Balance.exists_require_of_closing? moved mention.name
          refine ⟨rest', renamed, ?_⟩
          rw [editRequirements, found]
          dsimp only
          rw [bounded, renamed]
          simp [bind, Except.bind, pure, Except.pure]

/-- An edit that is done has found the braces behind the mention. -/
theorem exists_of_editRequirements {out : List Char} (found : Mention.find? block = some mention)
    (done : editRequirements block = .ok out) :
    ∃ front rest, mention.found = front ++ '\x7d' :: rest ∧
      (Balance.ofBraces mention.found).closing? = some (byteSize front) := by
  rw [editRequirements, found] at done
  dsimp only at done
  cases bounded : (Balance.ofBraces (renameKeys mention.found)).require mention.name with
  | error fault =>
      rw [bounded] at done
      contradiction
  | ok places =>
      obtain ⟨opened, closed⟩ := places
      have kept := (keepsBraces_renameKeys mention.found).closing
      rw [(Balance.require_eq_ok_iff.1 bounded).2] at kept
      cases closes : (Balance.ofBraces mention.found).closing? with
      | none =>
          rw [closes] at kept
          cases kept
      | some place =>
          obtain ⟨front, rest, split, rfl⟩ := Balance.exists_of_closing?_ofBraces closes
          exact ⟨front, rest, split, rfl⟩

end ProviderMigration.Provider
