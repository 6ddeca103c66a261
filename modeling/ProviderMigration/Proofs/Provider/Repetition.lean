import ProviderMigration.Proofs.Identifier.Respelling
import ProviderMigration.Proofs.Provider.Correspondence
import ProviderMigration.Proofs.Provider.Letter

/-!
# Passing over the providers again

The names of providers mean nothing to a scan for braces. A text in which the first mention
of each legacy provider is renamed has its braces where it had them, in a string, a comment
or wherever the names stand, but for the characters that the names in front of them gain.
The keyword of a provider has nothing in common with the names either. So what a pass over
the providers of a document leaves behind is divided like the document, and a second pass
finds every block again.
-/

namespace ProviderMigration.Provider

open Text Block

/-! ## Letters are columns -/

namespace Letter

/-- A letter, as a column of the document and the outcome of the pass. -/
def column : Letter → Column
  | kept c => .same c
  | renamed name => .changed name.toList currentName.toList

theorem oldText_map_column (letters : List Letter) :
    Column.oldText (letters.map column) = oldText letters := by
  induction letters with
  | nil => rfl
  | cons letter letters ih =>
      rw [List.map_cons, Column.oldText_cons, oldText_cons, ih]
      cases letter <;> rfl

theorem newText_map_column (letters : List Letter) :
    Column.newText (letters.map column) = newText letters := by
  induction letters with
  | nil => rfl
  | cons letter letters ih =>
      rw [List.map_cons, Column.newText_cons, newText_cons, ih]
      cases letter <;> rfl

/-- A name and its successor mean nothing to a scan. -/
theorem isSilent_name (name : String) (legacy : name ∈ legacyNames) :
    IsSilent name.toList currentName.toList := by
  have known : ∀ name ∈ currentName :: legacyNames,
      isMeaningless name.toList = true ∧ name.toList ≠ [] := by decide
  obtain ⟨old, nonempty⟩ := known name (List.mem_cons_of_mem currentName legacy)
  obtain ⟨new, nonempty'⟩ := known currentName List.mem_cons_self
  exact isSilent_of_isInert (isInert_of_isMeaningless old) nonempty (isInert_of_isMeaningless new)
    nonempty'

/-- What holds of every name and its successor holds of the changes of some letters. -/
theorem allChanged_map_column {meets : List Char → List Char → Prop}
    (names : ∀ name ∈ legacyNames, meets name.toList currentName.toList) {letters : List Letter}
    (legacy : ∀ name, renamed name ∈ letters → name ∈ legacyNames) :
    Column.AllChanged meets (letters.map column) := by
  intro old new member
  obtain ⟨letter, listed, same⟩ := List.mem_map.1 member
  cases letter with
  | kept c => contradiction
  | renamed name =>
      obtain ⟨rfl, rfl⟩ := Column.changed.inj same
      exact names name (legacy name listed)

/-- The letters in front of some character of a text are those of the text in front of it. -/
theorem ofFirst_of_append {name : String} (nonempty : name.toList ≠ []) {text : List Char}
    {first last : List Letter} (split : ofFirst name text = first ++ last) :
    ofFirst name (oldText first) = first := by
  have clear : ∀ {front : List Char}, ¬ name.toList <:+: front →
      ofFirst name (oldText (front.map kept)) = front.map kept := by
    intro front absent
    rw [oldText_map_kept, ofFirst, cutAt?_eq_none_iff.2 absent]
  rw [ofFirst] at split
  cases cut : cutAt? name.toList text with
  | none =>
      rw [cut] at split
      obtain ⟨front, back, rfl, rfl, rfl⟩ := List.map_eq_append_iff.1 split
      apply clear
      intro within
      exact cutAt?_eq_none_iff.1 cut (within.trans (List.prefix_append front back).isInfix)
  | some parts =>
      obtain ⟨before, found⟩ := parts
      rw [cut] at split
      rcases List.append_eq_append_iff.1 split with ⟨inner, rfl, rest⟩ | ⟨inner, rest, rfl⟩
      · cases inner with
        | nil =>
            rw [List.append_nil]
            exact clear (not_within_of_cutAt? cut nonempty)
        | cons letter inner =>
            obtain ⟨rfl, later⟩ := List.cons_eq_cons.1 rest
            obtain ⟨front, back, -, rfl, -⟩ := List.map_eq_append_iff.1 later
            have here := cutAt?_of_cutAt? cut (List.prefix_append name.toList front)
            simp [ofFirst, old, here]
      · obtain ⟨front, back, rfl, rfl, rfl⟩ := List.map_eq_append_iff.1 rest
        apply clear
        intro within
        exact not_within_of_cutAt? cut nonempty (within.trans (List.prefix_append front back).isInfix)

end Letter

/-! ## Braces of a renamed text -/

/-- A place in front of a character of a text. The character has its other place in the renamed
text, behind what the text in front of it is renamed to. -/
def Carried (rename : List Char → List Char) (text : List Char) (c : Char)
    (place place' : Nat) : Prop :=
  ∃ front rest rest', text = front ++ c :: rest ∧ rename text = rename front ++ c :: rest' ∧
    byteSize front = place ∧ byteSize (rename front) = place'

/-- The braces of a renamed text are those of the text, carried along by the renaming. -/
structure KeepsBraces (rename : List Char → List Char) (text : List Char) : Prop where
  opening : Option.Rel (Carried rename text '\x7b') (Balance.ofBraces text).opening?
    (Balance.ofBraces (rename text)).opening?
  closing : Option.Rel (Carried rename text '\x7d') (Balance.ofBraces text).closing?
    (Balance.ofBraces (rename text)).closing?

theorem Carried.trans {rename rename' : List Char → List Char} {text : List Char} {c : Char}
    {place place' place'' : Nat} (one : Carried rename text c place place')
    (two : Carried rename' (rename text) c place' place'') :
    Carried (fun text => rename' (rename text)) text c place place'' := by
  obtain ⟨front, rest, rest', split, renamed, size, size'⟩ := one
  obtain ⟨front', other, other', split', renamed', size'', last⟩ := two
  obtain rfl : front' = rename front := by
    rw [← takeBytes_byteSize_append front' (c :: other), ← split', renamed, size'', ← size',
      takeBytes_byteSize_append]
  exact ⟨front, rest, other', split, renamed', size, last⟩

theorem KeepsBraces.trans {rename rename' : List Char → List Char} {text : List Char}
    (one : KeepsBraces rename text) (two : KeepsBraces rename' (rename text)) :
    KeepsBraces (fun text => rename' (rename text)) text := by
  have compose : ∀ {c : Char} {place? place?' place?'' : Option Nat},
      Option.Rel (Carried rename text c) place? place?' →
      Option.Rel (Carried rename' (rename text) c) place?' place?'' →
      Option.Rel (Carried (fun text => rename' (rename text)) text c) place? place?'' := by
    intro c place? place?' place?'' first second
    cases first with
    | none =>
        cases second with
        | none => exact .none
    | some carried =>
        cases second with
        | some carried' => exact .some (carried.trans carried')
  exact ⟨compose one.opening two.opening, compose one.closing two.closing⟩

/-- A renaming that aligns a text column by column keeps its braces. -/
theorem keepsBraces_of_agree {rename : List Char → List Char} {text : List Char}
    {columns : List Column}
    (agree : Agree columns (Balance.ofBraces text) (Balance.ofBraces (rename text)))
    (carried : ∀ c place place', Facing columns c place place' →
      Carried rename text c place place') : KeepsBraces rename text := by
  have carry : ∀ {c : Char} {place? place?' : Option Nat},
      Option.Rel (Facing columns c) place? place?' →
      Option.Rel (Carried rename text c) place? place?' := by
    intro c place? place?' faced
    cases faced with
    | none => exact .none
    | some faced => exact .some (carried c _ _ faced)
  exact ⟨carry agree.opening, carry agree.closing⟩

theorem keepsBraces_id (text : List Char) : KeepsBraces (fun text => text) text := by
  have agree := agree_ofBraces (Column.AllChanged.map_same text)
  rw [Column.oldText_map_same, Column.newText_map_same] at agree
  apply keepsBraces_of_agree agree
  rintro c place place' ⟨first, last, split, rfl, rfl⟩
  obtain ⟨front, rest, rfl, rfl, later⟩ := List.map_eq_append_iff.1 split
  obtain ⟨d, after, rfl, same, rfl⟩ := List.map_eq_cons_iff.1 later
  obtain rfl := Column.same.inj same
  rw [Column.oldText_map_same, Column.newText_map_same]
  exact ⟨front, after, after, rfl, rfl, rfl, rfl⟩

theorem keepsBraces_replaceFirst {name : String} (legacy : name ∈ legacyNames)
    (text : List Char) : KeepsBraces (replaceFirst name.toList currentName.toList) text := by
  have nonempty : ∀ name ∈ legacyNames, name.toList ≠ [] := by decide
  have named : ∀ other, .renamed other ∈ Letter.ofFirst name text → other ∈ legacyNames :=
    fun other member => Letter.eq_of_mem_ofFirst member ▸ legacy
  have agree := agree_ofBraces (Letter.allChanged_map_column Letter.isSilent_name named)
  rw [Letter.oldText_map_column, Letter.newText_map_column, Letter.oldText_ofFirst,
    Letter.newText_ofFirst] at agree
  apply keepsBraces_of_agree agree
  rintro c place place' ⟨first, last, split, rfl, rfl⟩
  obtain ⟨front, later, joined, rfl, more⟩ := List.map_eq_append_iff.1 split
  obtain ⟨letter, after, rfl, same, rfl⟩ := List.map_eq_cons_iff.1 more
  obtain rfl : letter = .kept c := by
    cases letter with
    | kept d => rw [Column.same.inj same]
    | renamed name => contradiction
  have renamed := Letter.newText_ofFirst name (Letter.oldText front)
  rw [Letter.ofFirst_of_append (nonempty name legacy) joined] at renamed
  rw [Letter.oldText_map_column, Letter.newText_map_column]
  refine ⟨Letter.oldText front, Letter.oldText after, Letter.newText after, ?_, ?_, rfl, ?_⟩
  · rw [← Letter.oldText_ofFirst name text, joined, Letter.oldText_append]
    rfl
  · rw [← Letter.newText_ofFirst, joined, Letter.newText_append, renamed]
    rfl
  · rw [renamed]

theorem keepsBraces_foldl {names : List String} (legacy : ∀ name ∈ names, name ∈ legacyNames)
    (text : List Char) :
    KeepsBraces
      (fun text =>
        names.foldl (fun text name => replaceFirst name.toList currentName.toList text) text)
      text := by
  induction names generalizing text with
  | nil => exact keepsBraces_id text
  | cons name names ih =>
      have here := keepsBraces_replaceFirst (legacy name List.mem_cons_self) text
      exact here.trans (ih (fun other member => legacy other (List.mem_cons_of_mem name member)) _)

theorem keepsBraces_renameKeys (text : List Char) : KeepsBraces renameKeys text :=
  keepsBraces_foldl (fun _ member => member) text

/-! ## The blocks of the outcome -/

/-- Whether no end of a token starts a word, and the token starts at no end of the word. -/
def cannotOverlap (token word : List Char) : Bool :=
  token.tails.all (fun tail => tail.isEmpty || Identifier.diverge tail word) &&
    word.tails.all (fun tail => tail.isEmpty || Identifier.diverge token tail)

/-- A token avoids a word if they cannot overlap. -/
theorem avoids_of_cannotOverlap {token word : List Char}
    (distinct : cannotOverlap token word = true) : Avoids token word := by
  obtain ⟨ends, starts⟩ := Bool.and_eq_true_iff.1 distinct
  constructor
  · intro tail within nonempty text
    have apart := List.all_eq_true.1 ends tail ((List.mem_tails _ _).2 within)
    exact Identifier.not_prefix_append_of_diverge (by simpa [nonempty] using apart) text
  · intro text
    apply cutAt?_append_of_not_prefix
    intro tail nonempty within
    have apart := List.all_eq_true.1 starts tail ((List.mem_tails _ _).2 within)
    exact Identifier.not_prefix_append_of_diverge (by simpa [nonempty] using apart) text

theorem avoids_name :
    ∀ name ∈ currentName :: legacyNames, Avoids providerKeyword.toList name.toList := by
  have distinct : ∀ name ∈ currentName :: legacyNames,
      cannotOverlap providerKeyword.toList name.toList = true := by decide
  exact fun name listed => avoids_of_cannotOverlap (distinct name listed)

namespace Division

/-- The division that corresponds to a division with its letters has the renamed labels. -/
theorem eq_mapBlocks_of_corresponds {columns : List Column} {one other : Division}
    (corresponds : Corresponds columns one other) (solid : Column.AllChanged Column.IsSolid columns)
    (spelled : columns = one.letters.map Letter.column) : other = one.mapBlocks editLabel := by
  have kept : ∀ text : List Char, (text.map Letter.kept).map Letter.column = text.map .same := by
    intro text
    rw [List.map_map]
    rfl
  induction corresponds with
  | rest columns fault? =>
      have unchanged : columns = (Column.oldText columns).map .same := by
        rw [← kept]
        exact spelled
      rw [unchanged, Column.oldText_map_same, Column.newText_map_same]
      rfl
  | @part before block columns one other later ih =>
      rw [letters_cons, List.map_append, List.map_append, kept, List.append_assoc,
        List.append_assoc] at spelled
      rw [List.append_assoc] at solid
      obtain ⟨front, behind⟩ := solid.append_inj spelled (Column.oldText_map_same _).symm
      obtain ⟨middle, rest⟩ := solid.right.append_inj behind
        (by rw [Letter.oldText_map_column, Letter.oldText_ofBlock])
      have same : Column.newText before = Column.oldText before := by
        rw [front, Column.oldText_map_same, Column.newText_map_same]
      have edited : Column.newText block = editLabel (Column.oldText block) := by
        rw [← Letter.newText_ofBlock, ← Letter.newText_map_column, ← middle]
      rw [ih solid.right.right rest, same, edited]
      rfl

/-- What a pass over the providers leaves behind is divided like the document. -/
theorem of_newText_letters (document : List Char) :
    of providerKeyword (Letter.newText (of providerKeyword document).letters) =
      (of providerKeyword document).mapBlocks editLabel := by
  have legacy := fun name => @legacy_of_mem_letters (of providerKeyword document) name
  have nonempty : ∀ name ∈ legacyNames, name.toList ≠ [] := by decide
  have avoids : ∀ name ∈ legacyNames,
      AvoidsChange providerKeyword.toList name.toList currentName.toList := fun name listed =>
    ⟨avoids_name name (List.mem_cons_of_mem currentName listed), avoids_name _ List.mem_cons_self⟩
  have solid : Column.AllChanged Column.IsSolid _ :=
    Letter.allChanged_map_column nonempty legacy
  have corresponds := corresponds_of (Letter.allChanged_map_column Letter.isSilent_name legacy)
    (Letter.allChanged_map_column avoids legacy) (by decide)
  rw [Letter.oldText_map_column, Letter.newText_map_column, oldText_letters, text_of]
    at corresponds
  exact eq_mapBlocks_of_corresponds corresponds solid rfl

end Division

/-- Renaming the providers of a text leaves its braces where they are, but for what the text in
front of them has grown or shrunk. A pass over the providers that is done leaves behind a
document with the same blocks, each between the same texts and with its label renamed, so a
second pass is done as well. -/
theorem renaming_keeps_blocks :
    (∀ text, KeepsBraces renameKeys text) ∧
      ∀ document out,
        editBlocks providerKeyword (fun block => .ok (editLabel block)) document = .ok out →
          Division.of providerKeyword out = (Division.of providerKeyword document).mapBlocks editLabel ∧
            ∃ again, editBlocks providerKeyword (fun block => .ok (editLabel block)) out =
              .ok again := by
  refine ⟨keepsBraces_renameKeys, fun document out done => ?_⟩
  rw [editBlocks_eq, ← Division.edited_of] at done
  have same := Division.of_newText_letters document
  rw [Division.newText_letters done] at same
  refine ⟨same, ?_⟩
  have complete : (Division.of providerKeyword document).fault? = none := by
    rw [Division.edited_mapBlocks] at done
    cases fault : (Division.of providerKeyword document).fault? with
    | none => rfl
    | some fault =>
        rw [fault] at done
        contradiction
  have still : ((Division.of providerKeyword document).mapBlocks editLabel).fault? = none := complete
  rw [editBlocks_eq, ← Division.edited_of, same, Division.edited_mapBlocks, still]
  exact ⟨_, rfl⟩

/-- A block with one legacy provider for its label, and the other behind a brace in a string. -/
def quotedProvider : List Char := "provider \"metal\" \x7b\n  x = \"\x7dpacket\"\n\x7d\n".toList

/-- The block after a pass over the providers. -/
def renamedProvider : List Char := "provider \"equinix\" \x7b\n  x = \"\x7dequinix\"\n\x7d\n".toList

theorem renaming_keeps_blocks_of_quotedProvider :
    editBlocks providerKeyword (fun block => .ok (editLabel block)) quotedProvider =
        .ok renamedProvider ∧
      Division.of providerKeyword renamedProvider =
        (Division.of providerKeyword quotedProvider).mapBlocks editLabel ∧
      ∃ again, editBlocks providerKeyword (fun block => .ok (editLabel block)) renamedProvider =
        .ok again := by
  have cut : cutAt? providerKeyword.toList quotedProvider = some ([], quotedProvider) := by decide
  have bounded : (Balance.ofBraces quotedProvider).require providerKeyword = .ok (17, 35) := rfl
  have done : editBlocks providerKeyword (fun block => .ok (editLabel block)) quotedProvider =
      .ok renamedProvider := editBlocks_of_single cut bounded (by decide)
  exact ⟨done, renaming_keeps_blocks.2 quotedProvider renamedProvider done⟩

end ProviderMigration.Provider
