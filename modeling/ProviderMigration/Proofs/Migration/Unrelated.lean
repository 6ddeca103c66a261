import ProviderMigration.Proofs.Identifier.Absence
import ProviderMigration.Proofs.Migration.Report
import ProviderMigration.Proofs.Provider.Exchange

/-!
# Files without legacy names

A text that mentions no legacy name at all has no names to rename, and no block to edit. What
its migration comes to is the text with its lines ended alike, or a fault of a block that is
not complete. A run compares the migration of a file with exactly that text, so it writes
nothing: the file keeps every byte, whichever way its lines end.
-/

namespace ProviderMigration.Migration

open Text Block Identifier Provider Storage

variable {content : List Char}

/-! ## Texts -/

/-- Ending the lines of a text alike brings no legacy name about. -/
theorem isClear_normalizeEnds (clear : IsClear content) : IsClear (normalizeEnds content) := by
  intro name legacy within
  have single : ∀ name ∈ legacyNames, '\n' ∉ name.toList ∧ name.toList ≠ [] := by decide
  obtain ⟨line, member, inside⟩ :=
    exists_row_of_within_unlines (single name legacy).1 (single name legacy).2 within
  exact clear name legacy (inside.trans (within_of_mem_lines member).1)

/-- No line of a text without legacy names has a name to be replaced. -/
theorem renameText_of_isClear (dialect : Dialect) (clear : IsClear content) :
    dialect.renameText content = normalizeEnds content := by
  have named : ∀ word ∈ legacyWords, ∃ name ∈ legacyNames, name.toList = word := by decide
  have kept : ∀ line ∈ lines content, dialect.renameLine line = line := by
    intro line member
    obtain ⟨within, single⟩ := within_of_mem_lines member
    apply dialect.renameLine_eq_self single
    intro word legacy inside
    obtain ⟨name, listed, rfl⟩ := named word legacy
    exact clear name listed (inside.trans within)
  rw [Dialect.renameText, normalizeEnds, List.map_congr_left kept, List.map_id']

/-- A pass keeps a text without legacy names, unless a block that its keyword announces is not
complete. -/
theorem editBlocks_of_isClear {edit : List Char → Except Malformed (List Char)}
    (lowers : Lowers edit) (keyword : String) (clear : IsClear content) :
    editBlocks keyword edit content =
      (Division.of keyword content).fault?.elim (.ok content) .error := by
  have blocks : ∀ part ∈ (Division.of keyword content).parts, IsClear part.block :=
    fun part member => clear.block member
  rw [editBlocks_eq, ← Division.edited_of, lowers.edited_of_clear blocks, Division.text_of]

/-- A fault of a block of one of the two kinds that name a provider. -/
def IsDeclarationFault (fault : Malformed) : Prop :=
  fault.keyword = requirementsKeyword ∨ fault.keyword = providerKeyword

/-- The first fault that the passes over a document meet, if they change nothing in it. -/
def declarationFault? (document : List Char) : Option Malformed :=
  (Division.of requirementsKeyword document).fault?.or (Division.of providerKeyword document).fault?

theorem isDeclarationFault_of_declarationFault? {document : List Char} {fault : Malformed}
    (ends : declarationFault? document = some fault) : IsDeclarationFault fault := by
  rcases Option.or_eq_some_iff.1 ends with required | ⟨-, configured⟩
  · exact .inl (Division.keyword_of_fault? required)
  · exact .inr (Division.keyword_of_fault? configured)

theorem editDeclarations_of_isClear (clear : IsClear content) :
    editDeclarations content = (declarationFault? content).elim (.ok content) .error := by
  rw [editDeclarations, editBlocks_of_isClear editRequirements_lowers requirementsKeyword clear,
    declarationFault?]
  cases (Division.of requirementsKeyword content).fault? with
  | none => exact editBlocks_of_isClear editLabel_lowers providerKeyword clear
  | some fault => rfl

/-- The fault at which the migration of a text without legacy names fails. -/
def contentFault? (settings : Settings) (extension : String) (text : List Char) :
    Option Malformed :=
  if settings.editsProviders extension then declarationFault? (normalizeEnds text) else none

variable (settings : Settings) (extension : String)

theorem migrateText_of_isClear (clear : IsClear content) :
    migrateText settings extension content =
      (contentFault? settings extension content).elim (.ok (normalizeEnds content)) .error := by
  rw [migrateText, renameText_of_isClear _ clear, contentFault?]
  split
  next => exact editDeclarations_of_isClear (isClear_normalizeEnds clear)
  next => rfl

variable {settings extension} in
theorem isDeclarationFault_of_contentFault? {fault : Malformed}
    (ends : contentFault? settings extension content = some fault) : IsDeclarationFault fault := by
  rw [contentFault?] at ends
  split at ends
  next => exact isDeclarationFault_of_declarationFault? ends
  next => contradiction

/-- Such a text does not change, and at a fault there is no outcome at all. -/
theorem outcomeOf_of_isClear (clear : IsClear content) :
    outcomeOf settings extension content =
      (contentFault? settings extension content).elim (.ok .unchanged) .error := by
  rw [outcomeOf, migrateText_of_isClear settings extension clear]
  cases contentFault? settings extension content with
  | none => exact congrArg Except.ok (if_pos rfl)
  | some fault => rfl

/-! ## Files -/

/-- What may become of a file that there is nothing to do about: the given answer, or a failure
to get there, in which a fault of a block is one of a block that names a provider. -/
inductive Spares {α : Type} (answer : α) : Except Failure α → Prop where
  | done : Spares answer (.ok answer)
  | failed {failure : Failure}
      (declared : ∀ fault, failure = .malformed fault → IsDeclarationFault fault) :
      Spares answer (.error failure)

section Found

variable {entry : Entry} {machine : Machine}
  (clear : ∀ text, ((Host.readText entry.path : Machine.Action _) machine).1 = .ok text →
    IsClear text)
include clear

/-- A file in which no legacy name is read does not change, unless it cannot be examined. -/
theorem examineText_of_isClear :
    ∃ examined, (Plan.examineText settings entry : Attempt Machine.Action Outcome).on machine =
        (examined, machine) ∧ Spares .unchanged examined := by
  have reading : (attempt (.unreadable entry.path) (Host.readText entry.path) :
      Attempt Machine.Action _).on machine =
        (((Host.readText entry.path : Machine.Action _) machine).1.mapError
          (.unreadable entry.path), machine) := Attempt.on_attempt _ _ machine
  rw [Plan.examineText]
  cases read : ((Host.readText entry.path : Machine.Action _) machine).1 with
  | error error =>
      rw [read] at reading
      rw [Attempt.on_bind_of_error reading]
      exact ⟨_, rfl, .failed fun _ same => Failure.noConfusion same⟩
  | ok text =>
      rw [read] at reading
      rw [Attempt.on_bind_of_ok reading,
        outcomeOf_of_isClear settings entry.extension (clear text read)]
      cases ends : contentFault? settings entry.extension text with
      | none => exact ⟨.ok .unchanged, rfl, .done⟩
      | some fault =>
          refine ⟨.error (.malformed fault), rfl, .failed fun other same => ?_⟩
          rw [← Failure.malformed.inj same]
          exact isDeclarationFault_of_contentFault? ends

theorem examine_of_isClear :
    ∃ examined, (Plan.examine settings entry).on machine = (examined, machine) ∧
      Spares .unchanged examined := by
  have known := examineText_of_isClear settings clear
  rw [Plan.examine]
  by_cases edits : settings.editsProviders entry.extension = true
  · have sizing : (attempt .os (Host.size entry.path) : Attempt Machine.Action Nat).on machine =
        (((Host.size entry.path : Machine.Action _) machine).1.mapError .os, machine) :=
      Attempt.on_attempt _ _ machine
    rw [if_pos edits]
    cases sized : ((Host.size entry.path : Machine.Action _) machine).1 with
    | error error =>
        rw [sized] at sizing
        rw [Attempt.on_bind_of_error sizing]
        exact ⟨_, rfl, .failed fun _ same => Failure.noConfusion same⟩
    | ok size =>
        rw [sized] at sizing
        rw [Attempt.on_bind_of_ok sizing]
        by_cases large : settings.maxFileSize < size
        · rw [if_pos large]
          exact ⟨_, rfl, .failed fun _ same => Failure.noConfusion same⟩
        · rw [if_neg large]
          exact known
  · rw [if_neg edits]
    exact known

end Found

/-- The migration of a text without legacy names is the text with its lines ended alike, or it
fails at a block that one of the two keywords announces; it fails exactly if such a block is not
complete. The migration of a file in which no legacy name is read leaves the machine as it is
and fails only where the examination of the file fails: nothing is written, neither to the disk
nor to the streams. -/
theorem unrelated_untouched (settings : Settings) :
    (∀ extension content, IsClear content →
      (migrateText settings extension content = .ok (normalizeEnds content) ∨
        ∃ fault, migrateText settings extension content = .error fault ∧
          IsDeclarationFault fault) ∧
      (migrateText settings extension content = .ok (normalizeEnds content) ↔
        contentFault? settings extension content = none)) ∧
    ∀ (plan : Plan) (entry : Entry) (machine : Machine),
      (∀ text, ((Host.readText entry.path : Machine.Action _) machine).1 = .ok text →
        IsClear text) →
      ∃ examined, (Plan.examine settings entry).on machine = (examined, machine) ∧
        Spares .unchanged examined ∧
        (plan.migrateFile settings entry).on machine =
          (examined.map fun _ => false, machine) := by
  constructor
  · intro extension content clear
    rw [migrateText_of_isClear settings extension clear]
    cases ends : contentFault? settings extension content with
    | none => exact ⟨.inl rfl, iff_of_true rfl rfl⟩
    | some fault =>
        refine ⟨.inr ⟨fault, rfl, isDeclarationFault_of_contentFault? ends⟩,
          iff_of_false ?_ (Option.some_ne_none fault)⟩
        intro same
        contradiction
  · intro plan entry machine clear
    obtain ⟨examined, done, spares⟩ := examine_of_isClear settings clear
    refine ⟨examined, done, spares, ?_⟩
    rw [Plan.migrateFile]
    cases spares with
    | done =>
        rw [Attempt.on_bind_of_ok done]
        rfl
    | failed declared =>
        rw [Attempt.on_bind_of_error done]
        rfl

/-- A configuration of another provider, with a version, and with lines that do not end
alike. -/
def otherText : List Char := "provider \"aws\" \x7b\r\n  version = \"1\"\n\x7d".toList

/-- A machine with such a configuration. -/
def otherMachine : Machine :=
  .fresh (Disk.empty.put ["a.tf"] (.file (bytesOf otherText) 0o644)) [] ⟨"/xdg"⟩ false

def otherEntry : Entry := ⟨⟨"a.tf"⟩, ["a.tf"]⟩

theorem unrelated_untouched_of_otherText :
    (migrateText .standard "tf" otherText = .ok (normalizeEnds otherText) ↔
        contentFault? .standard "tf" otherText = none) ∧
      ∃ examined, (Plan.examine .standard otherEntry).on otherMachine = (examined, otherMachine) ∧
        Spares .unchanged examined ∧
        ((samplePlan ⟨"out"⟩).migrateFile .standard otherEntry).on otherMachine =
          (examined.map fun _ => false, otherMachine) := by
  have clear : IsClear otherText := Mention.find?_eq_none_iff.1 (by decide)
  have known := unrelated_untouched .standard
  refine ⟨(known.1 "tf" otherText clear).2, known.2 _ otherEntry otherMachine ?_⟩
  intro text read
  have other : ((Host.readText otherEntry.path : Machine.Action _) otherMachine).1 =
      textOf (bytesOf otherText) := by decide +kernel
  rw [other, textOf_bytesOf] at read
  rwa [← Except.ok.inj read]

end ProviderMigration.Migration
