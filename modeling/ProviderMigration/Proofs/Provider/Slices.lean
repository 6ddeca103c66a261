import ProviderMigration.Proofs.Block.Extent
import ProviderMigration.Proofs.Provider.Exchange
import ProviderMigration.Proofs.Text.Bytes

/-!
# Slices of a document

A pass cuts a document at offsets that it has added up from offsets in parts of it, while the
document gets longer and shorter from round to round; and what it looks for is found by a
scan of bytes that may stand inside a character when it passes over an escape. This module
carries the passes out on bytes, where a cut at an offset that is no place of the text is
refused. No cut ever is: the passes over bytes come to the bytes of what the passes over
characters come to.
-/

namespace ProviderMigration.Provider

open Text Block

variable {keyword : String} {edit : List Char → Except Malformed (List Char)}

/-! ## Edits of bytes -/

/-- What a round over bytes comes to. -/
inductive Round where
  | finished (outcome : Except Malformed Bytes)
  | further (document : Bytes) (cursor : Nat)

/-- One round over a document whose bytes are finished up to `cursor`. There is none if one
of the cuts is refused: that where the search is taken up again, those around the block, or
those of what is kept on either side of it. An edit gets to see characters, so a block whose
bytes are not those of characters is refused too. -/
def round? (keyword : String) (edit : List Char → Except Malformed (List Char))
    (document : Bytes) (cursor : Nat) : Option Round := do
  let unread ← document.slice? cursor document.length
  match Bytes.offsetOf? (utf8 keyword.toList) unread with
  | none => return .finished (.ok document)
  | some offset =>
      let start := cursor + offset
      let found ← document.slice? start document.length
      match (Balance.find (symbol '{') (symbol '}') found).require keyword with
      | .error fault => return .finished (.error fault)
      | .ok (_, closing) =>
          let stop := start + closing + 1
          let block ← document.slice? start stop
          match edit (← block.decode?) with
          | .error fault => return .finished (.error fault)
          | .ok new =>
              let before ← document.slice? 0 start
              let after ← document.slice? stop document.length
              return .further (before ++ utf8 new ++ after) (start + (utf8 new).length)

/-- What has not been read gets shorter with every round, on any bytes. -/
theorem unread_lt_of_round? {document later : Bytes} {cursor next : Nat}
    (round : round? keyword edit document cursor = some (.further later next)) :
    later.length - next < document.length - cursor := by
  obtain ⟨unread, -, round⟩ := Option.bind_eq_some_iff.1 round
  split at round
  next => exact nomatch Option.some.inj round
  next offset _ =>
    obtain ⟨found, -, round⟩ := Option.bind_eq_some_iff.1 round
    split at round
    next => exact nomatch Option.some.inj round
    next opened closing _ =>
      obtain ⟨block, -, round⟩ := Option.bind_eq_some_iff.1 round
      obtain ⟨characters, -, round⟩ := Option.bind_eq_some_iff.1 round
      split at round
      next => exact nomatch Option.some.inj round
      next new _ =>
        obtain ⟨before, front, round⟩ := Option.bind_eq_some_iff.1 round
        obtain ⟨after, back, round⟩ := Option.bind_eq_some_iff.1 round
        obtain ⟨rfl, rfl⟩ := Round.further.inj (Option.some.inj round)
        obtain ⟨-, within, front⟩ := Bytes.length_of_slice? front
        obtain ⟨beyond, -, back⟩ := Bytes.length_of_slice? back
        simp only [List.length_append]
        omega

/-- The document with every block that `keyword` announces at or after the byte `cursor`
edited, unless a cut is refused. -/
def editFrom? (keyword : String) (edit : List Char → Except Malformed (List Char))
    (document : Bytes) (cursor : Nat) : Option (Except Malformed Bytes) :=
  match _ : round? keyword edit document cursor with
  | none => none
  | some (.finished outcome) => some outcome
  | some (.further later next) => editFrom? keyword edit later next
termination_by document.length - cursor
decreasing_by exact unread_lt_of_round? ‹_›

/-- The document with every block that `keyword` announces edited, unless a cut is refused. -/
def editBlocks? (keyword : String) (edit : List Char → Except Malformed (List Char))
    (document : Bytes) : Option (Except Malformed Bytes) :=
  editFrom? keyword edit document 0

/-- Renames the first mention of each legacy provider. -/
def renameKeyBytes (bytes : Bytes) : Bytes :=
  legacyNames.foldl
    (fun bytes name => Bytes.replaceFirst (utf8 name.toList) (utf8 currentName.toList) bytes) bytes

/-- Renames the first mention of each legacy source and comments the first version out. -/
def updateAttributeBytes (bytes : Bytes) : Bytes :=
  Bytes.replaceFirst (utf8 "version".toList) (utf8 "#version".toList) <|
    legacySources.foldl
      (fun bytes source =>
        Bytes.replaceFirst (utf8 source.toList) (utf8 currentSource.toList) bytes)
      bytes

/-- The block of requirements with its legacy entry renamed, unless a cut is refused: that in
front of the mention, or that in front of the brace that ends the attributes. -/
def editRequirements? (block : Bytes) : Option (Except Malformed Bytes) :=
  let mention? := legacyNames.findSome? fun name =>
    (Bytes.offsetOf? (utf8 name.toList) block).map fun offset => (name, offset)
  match mention? with
  | none => some (.ok block)
  | some (name, start) => do
      let entry := renameKeyBytes (← block.slice? start block.length)
      match (Balance.find (symbol '{') (symbol '}') entry).require name with
      | .error fault => return .error fault
      | .ok (_, closing) =>
          let before ← block.slice? 0 start
          let attributes ← entry.slice? 0 closing
          let after ← entry.slice? closing entry.length
          return .ok (before ++ updateAttributeBytes attributes ++ after)

/-! ## No cut is refused -/

/-- The bytes of a block that a brace ends, and those in front of it and behind it. -/
theorem slices_utf8 (front inner after : List Char) :
    let document : Bytes := utf8 (front ++ (inner ++ '}' :: after))
    document.slice? 0 (byteSize front) = some (utf8 front) ∧
      document.slice? (byteSize front) (byteSize front + byteSize inner + 1) =
        some (utf8 (inner ++ ['}'])) ∧
      document.slice? (byteSize front + byteSize inner + 1) document.length =
        some (utf8 after) := by
  have divided : front ++ (inner ++ '}' :: after) = front ++ (inner ++ ['}']) ++ after := by simp
  have stop : byteSize front + byteSize inner + 1 = byteSize (front ++ (inner ++ ['}'])) := by
    simp only [byteSize_append, Nat.add_assoc]
    rfl
  dsimp only
  refine ⟨Bytes.slice?_utf8_before front _, ?_, ?_⟩
  · rw [stop]
    exact Bytes.slice?_utf8 divided
  · rw [stop, divided]
    exact Bytes.slice?_utf8_behind _ after

/-- A round over the bytes of a text, finished up to a place of it. -/
theorem round?_utf8 (keyword : String) (edit : List Char → Except Malformed (List Char))
    (passed rest : List Char) :
    round? keyword edit (utf8 (passed ++ rest)) (byteSize passed) = some (
      match cutAt? keyword.toList rest with
      | none => .finished (.ok (utf8 (passed ++ rest)))
      | some (before, found) =>
          match (Balance.ofBraces found).require keyword with
          | .error fault => .finished (.error fault)
          | .ok (_, closing) =>
              match edit (takeBytes (closing + 1) found) with
              | .error fault => .finished (.error fault)
              | .ok new =>
                  .further (utf8 (passed ++ before ++ new ++ dropBytes (closing + 1) found))
                    (byteSize (passed ++ before ++ new))) := by
  rw [round?, Bytes.slice?_utf8_behind, Option.bind_eq_bind, Option.bind_some,
    Bytes.offsetOf?_utf8]
  cases cut : cutAt? keyword.toList rest with
  | none => rfl
  | some parts =>
      obtain ⟨before, found⟩ := parts
      obtain rfl := append_of_cutAt? cut
      have anchored := Bytes.slice?_utf8_behind (passed ++ before) found
      rw [List.append_assoc, byteSize_append] at anchored
      have bytes : Balance.find (symbol '{') (symbol '}') (utf8 found) =
        Balance.ofBraces found := rfl
      simp only [Option.map_some, anchored, Option.bind_some, bytes]
      cases bounded : (Balance.ofBraces found).require keyword with
      | error fault => rfl
      | ok places =>
          obtain ⟨opened, closing⟩ := places
          obtain ⟨inner, after, rfl, rfl⟩ :=
            Balance.exists_of_closing?_ofBraces (Balance.require_eq_ok_iff.1 bounded).2
          obtain ⟨front, block, back⟩ := slices_utf8 (passed ++ before) inner after
          rw [List.append_assoc, byteSize_append] at front block back
          simp only [front, block, back, Option.bind_eq_bind, Option.bind_some,
            Bytes.decode?_utf8, Balance.takeBytes_closed, Balance.dropBytes_closed]
          cases edit (inner ++ ['}']) with
          | error fault => rfl
          | ok new => simp [utf8_append, length_utf8, Nat.add_assoc]

theorem editFrom?_of_finished {document : Bytes} {cursor : Nat} {outcome : Except Malformed Bytes}
    (round : round? keyword edit document cursor = some (.finished outcome)) :
    editFrom? keyword edit document cursor = some outcome := by
  rw [editFrom?]
  split
  next refused => simp [refused] at round
  next other same => simpa [same] using round
  next later next same => simp [same] at round

theorem editFrom?_of_further {document later : Bytes} {cursor next : Nat}
    (round : round? keyword edit document cursor = some (.further later next)) :
    editFrom? keyword edit document cursor = editFrom? keyword edit later next := by
  rw [editFrom?]
  split
  next refused => simp [refused] at round
  next other same => simp [same] at round
  next other further same =>
    obtain ⟨rfl, rfl⟩ := by simpa [same] using round
    rfl

/-- A pass over the bytes of a text that is finished up to a place of it. -/
theorem editFrom?_utf8 (keyword : String) (edit : List Char → Except Malformed (List Char))
    (passed rest : List Char) :
    editFrom? keyword edit (utf8 (passed ++ rest)) (byteSize passed) =
      some ((streamBlocks keyword edit rest).map fun rest => utf8 (passed ++ rest)) := by
  fun_induction streamBlocks keyword edit rest generalizing passed with
  | case1 rest absent =>
      have round := round?_utf8 keyword edit passed rest
      rw [absent] at round
      exact editFrom?_of_finished round
  | case2 rest before found cut fault malformed =>
      have round := round?_utf8 keyword edit passed rest
      simp only [cut, malformed] at round
      exact editFrom?_of_finished round
  | case3 rest before found cut opened closing bounded ih =>
      have round := round?_utf8 keyword edit passed rest
      simp only [cut, bounded] at round
      cases edited : edit (takeBytes (closing + 1) found) with
      | error fault =>
          simp only [edited] at round
          exact editFrom?_of_finished round
      | ok new =>
          simp only [edited] at round
          rw [editFrom?_of_further round, ih (passed ++ before ++ new)]
          cases streamBlocks keyword edit (dropBytes (closing + 1) found) with
          | error fault => rfl
          | ok rest => simp [Except.map, bind, Except.bind, pure, Except.pure]

/-- A pass over the bytes of a text comes to the bytes of what it comes to on the text. -/
theorem editBlocks?_utf8 (keyword : String) (edit : List Char → Except Malformed (List Char))
    (document : List Char) :
    editBlocks? keyword edit (utf8 document) =
      some ((editBlocks keyword edit document).map utf8) := by
  rw [editBlocks_eq]
  exact editFrom?_utf8 keyword edit [] document

/-- Exchanges of bytes, one after the other, are exchanges of characters. -/
theorem foldl_replaceFirst_utf8 (tokens : List String) (other : String) (text : List Char) :
    tokens.foldl
        (fun bytes token => Bytes.replaceFirst (utf8 token.toList) (utf8 other.toList) bytes)
        (utf8 text) =
      utf8 (tokens.foldl (fun text token => replaceFirst token.toList other.toList text) text) :=
  List.foldl_hom utf8 fun text token => Bytes.replaceFirst_utf8 token.toList other.toList text

theorem renameKeyBytes_utf8 (text : List Char) :
    renameKeyBytes (utf8 text) = utf8 (renameKeys text) :=
  foldl_replaceFirst_utf8 legacyNames currentName text

theorem updateAttributeBytes_utf8 (text : List Char) :
    updateAttributeBytes (utf8 text) = utf8 (updateAttributes text) := by
  rw [updateAttributeBytes, foldl_replaceFirst_utf8, Bytes.replaceFirst_utf8]
  rfl

/-- A mention is found at the offset that it has in the block. -/
theorem findSome?_offsetOf? (block : List Char) :
    (legacyNames.findSome? fun name =>
        (Bytes.offsetOf? (utf8 name.toList) (utf8 block)).map fun offset => (name, offset)) =
      (Mention.find? block).map fun mention => (mention.name, byteSize mention.before) := by
  rw [Mention.find?, List.map_findSome?]
  congr 1
  funext name
  rw [Function.comp_apply, Bytes.offsetOf?_utf8, Option.map_map, Option.map_map]
  rfl

/-- The edit of requirements comes to the same on the bytes of a block. -/
theorem editRequirements?_utf8 (block : List Char) :
    editRequirements? (utf8 block) = some ((editRequirements block).map utf8) := by
  rw [editRequirements?, editRequirements, findSome?_offsetOf?]
  cases mentioned : Mention.find? block with
  | none => rfl
  | some mention =>
      obtain ⟨divided, -⟩ := Mention.spec mentioned
      obtain ⟨name, before, found⟩ := mention
      have bytes : ∀ text, Balance.find (symbol '{') (symbol '}') (utf8 text) =
        Balance.ofBraces text := fun _ => rfl
      simp only [divided, Option.map_some, Bytes.slice?_utf8_behind, Bytes.slice?_utf8_before,
        Option.bind_eq_bind, Option.bind_some, renameKeyBytes_utf8, bytes]
      generalize renameKeys found = entry
      cases bounded : (Balance.ofBraces entry).require name with
      | error fault => rfl
      | ok places =>
          obtain ⟨opened, closing⟩ := places
          obtain ⟨inner, after, rfl, rfl⟩ :=
            Balance.exists_of_closing?_ofBraces (Balance.require_eq_ok_iff.1 bounded).2
          simp only [Bytes.slice?_utf8_behind, Bytes.slice?_utf8_before, Option.bind_some,
            updateAttributeBytes_utf8]
          change _ = some (Except.ok (utf8 (before ++
            updateAttributes (takeBytes (byteSize inner) (inner ++ '}' :: after)) ++
              dropBytes (byteSize inner) (inner ++ '}' :: after))))
          rw [takeBytes_byteSize_append, dropBytes_byteSize_append, utf8_append, utf8_append]
          rfl

/-- Where a block is found, it is opened in front of the place where it is closed, and the text
may be cut on both sides of both delimiters. No cut that a pass or the edit of requirements
makes is refused, and what comes out are the bytes of characters. -/
theorem cuts_at_places {opening closing : UInt8} (narrow : opening.toNat < 0x80)
    (narrow' : closing.toNat < 0x80) (distinct : opening ≠ closing) (keyword : String)
    (edit : List Char → Except Malformed (List Char)) (text : List Char) :
    (∀ closed, (Balance.find opening closing (utf8 text)).closing? = some closed →
      ∃ opened, (Balance.find opening closing (utf8 text)).opening? = some opened ∧
        opened < closed ∧ closed < byteSize text ∧
        ∀ place ∈ [opened, opened + 1, closed, closed + 1],
          Bytes.isPlace (utf8 text) place = true) ∧
    editBlocks? keyword edit (utf8 text) = some ((editBlocks keyword edit text).map utf8) ∧
    editRequirements? (utf8 text) = some ((editRequirements text).map utf8) := by
  refine ⟨fun closed found => ?_, editBlocks?_utf8 keyword edit text, editRequirements?_utf8 text⟩
  obtain ⟨opened, opens, ordered, first, last⟩ :=
    Balance.exists_opening_of_closing?_find distinct found
  obtain ⟨front, within⟩ := Bytes.isPlace_of_getElem? first narrow
  obtain ⟨back, behind⟩ := Bytes.isPlace_of_getElem? last narrow'
  have bound : closed < byteSize text := by
    rw [← length_utf8]
    exact (List.getElem?_eq_some_iff.1 last).1
  refine ⟨opened, opens, ordered, bound, ?_⟩
  simp only [List.forall_mem_cons, List.not_mem_nil, false_implies, implies_true, and_true]
  exact ⟨front, within, back, behind⟩

/-- A provider with an escape in front of a wide character, and a brace in a string. -/
def escapedProvider : List Char := "provider \"metal\" \x7b\"\\é\x7d\"\x7d".toList

/-- The escape passes over the first byte of a character, and the brace behind the character
is one of the string. -/
theorem cuts_at_places_of_escape :
    (symbol '{' : UInt8).toNat < 0x80 ∧ (symbol '}' : UInt8).toNat < 0x80 ∧
      (symbol '{' : UInt8) ≠ symbol '}' ∧
      Balance.find (symbol '{') (symbol '}') (utf8 escapedProvider) = ⟨some 17, some 24⟩ ∧
      (∃ opened, some 17 = some opened ∧ opened < 24 ∧ 24 < byteSize escapedProvider ∧
        ∀ place ∈ [opened, opened + 1, 24, 25],
          Bytes.isPlace (utf8 escapedProvider) place = true) ∧
      editBlocks? providerKeyword (fun block => .ok (editLabel block)) (utf8 escapedProvider) =
        some ((editBlocks providerKeyword (fun block => .ok (editLabel block))
          escapedProvider).map utf8) := by
  have scanned : Balance.find (symbol '{') (symbol '}') (utf8 escapedProvider) =
    ⟨some 17, some 24⟩ := by decide
  have narrow : (symbol '{' : UInt8).toNat < 0x80 := by decide
  have narrow' : (symbol '}' : UInt8).toNat < 0x80 := by decide
  have cut := cuts_at_places narrow narrow' (by decide) providerKeyword
    (fun block => .ok (editLabel block)) escapedProvider
  have places := cut.1 24 (by rw [scanned])
  rw [scanned] at places
  exact ⟨narrow, narrow', by decide, scanned, places, cut.2.1⟩

/-! ## What is cut out -/

/-- The scan of a block that is cut out of a document ends with the last byte of the block. -/
theorem Division.balance_of_mem_parts {keyword : String} {document : List Char} {part : Part}
    (member : part ∈ (Division.of keyword document).parts) :
    ∃ opened closed, Balance.ofBraces part.block = ⟨some opened, some closed⟩ ∧
      closed + 1 = byteSize part.block := by
  fun_induction Division.of keyword document with
  | case1 document absent => contradiction
  | case2 document before found cut fault malformed => contradiction
  | case3 document before found cut opened closing bounded following ih =>
      rcases List.mem_cons.1 member with rfl | later
      · obtain ⟨opens, closes⟩ := Balance.require_eq_ok_iff.1 bounded
        have alone := Balance.find_take_append closes []
        obtain ⟨inner, after, rfl, rfl⟩ := Balance.exists_of_closing?_ofBraces closes
        have size : byteSize inner + 1 = byteSize (inner ++ ['}']) := by
          rw [byteSize_append]
          rfl
        have taken : (utf8 (inner ++ '}' :: after)).take (byteSize inner + 1) =
            utf8 (inner ++ ['}']) := by
          rw [List.append_cons, utf8_append, size, ← length_utf8, List.take_left]
        rw [List.append_nil, taken] at alone
        dsimp only
        rw [Balance.takeBytes_closed]
        refine ⟨opened, byteSize inner, ?_, size⟩
        change Balance.find _ _ _ = _
        rw [alone, ← opens, ← closes]
        rfl
      · exact ih later

/-- Where a block ends is settled by the block alone: nothing behind it has a say in that, and
a text without a block does not start with one. What a pass hands to its edit are texts whose
scan ends with their last byte. -/
theorem extent_of_block (opening closing : UInt8) (text : Bytes) (keyword : String)
    (edit : List Char → Except Malformed (List Char)) (document : List Char) :
    (∀ closed, (Balance.find opening closing text).closing? = some closed →
      ∀ more, Balance.find opening closing (text.take (closed + 1) ++ more) =
        Balance.find opening closing text) ∧
    ((Balance.find opening closing text).closing? = none →
      ∀ start, start <+: text → (Balance.find opening closing start).closing? = none) ∧
    editBlocks keyword edit document = (Division.of keyword document).edited edit ∧
    ∀ part ∈ (Division.of keyword document).parts,
      ∃ opened closed, Balance.ofBraces part.block = ⟨some opened, some closed⟩ ∧
        closed + 1 = byteSize part.block := by
  refine ⟨fun closed found more => Balance.find_take_append found more,
    fun unclosed start starts => Balance.closing?_find_of_prefix starts unclosed, ?_,
    fun part member => Division.balance_of_mem_parts member⟩
  rw [editBlocks_eq, Division.edited_of]

/-- A comment that is opened right behind a block, and one that swallows the end of a block. -/
theorem extent_of_block_of_escape :
    (Balance.find (symbol '{') (symbol '}') (utf8 escapedProvider)).closing? = some 24 ∧
      Balance.find (symbol '{') (symbol '}') ((utf8 escapedProvider).take 25 ++ utf8 "/*".toList) =
        Balance.find (symbol '{') (symbol '}') (utf8 escapedProvider) ∧
      (Balance.find (symbol '{') (symbol '}') (utf8 "\x7b/*\x7d".toList)).closing? = none ∧
      utf8 "\x7b/".toList <+: utf8 "\x7b/*\x7d".toList ∧
      (Balance.find (symbol '{') (symbol '}') (utf8 "\x7b/".toList)).closing? = none := by
  have closes : (Balance.find (symbol '{') (symbol '}') (utf8 escapedProvider)).closing? =
    some 24 := by decide
  have swallowed : (Balance.find (symbol '{') (symbol '}') (utf8 "\x7b/*\x7d".toList)).closing? =
    none := by decide
  have starts : utf8 "\x7b/".toList <+: utf8 "\x7b/*\x7d".toList := by decide
  have extent := fun text => extent_of_block (symbol '{') (symbol '}') text providerKeyword
    (fun block => .ok (editLabel block)) escapedProvider
  exact ⟨closes, (extent _).1 24 closes _, swallowed, starts, (extent _).2.1 swallowed _ starts⟩

end ProviderMigration.Provider
