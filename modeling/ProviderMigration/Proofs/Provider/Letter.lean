import ProviderMigration.Proofs.Provider.Exchange

/-!
# What a pass over the providers renames

The pass over the providers of a document renames one mention of each legacy
provider in an announced block at most. Spelled out, the document is a sequence of
letters: characters that the pass keeps, and names that it renames. Both the
document and the outcome can be read off the letters, so a stretch of the document
that has no renamed name in it is found in the outcome at the same place.
-/

namespace ProviderMigration.Provider

open Text Block

/-- A character of a document that a pass keeps, or a name that it renames. -/
inductive Letter where
  | kept (c : Char)
  | renamed (name : String)
  deriving DecidableEq, Repr

namespace Letter

/-- What a letter stands for in the document. -/
def old : Letter → List Char
  | kept c => [c]
  | renamed name => name.toList

/-- What a letter stands for in the outcome of the pass. -/
def new : Letter → List Char
  | kept c => [c]
  | renamed _ => currentName.toList

def oldText (letters : List Letter) : List Char := letters.flatMap old

def newText (letters : List Letter) : List Char := letters.flatMap new

@[simp] theorem oldText_append (first last : List Letter) :
    oldText (first ++ last) = oldText first ++ oldText last := List.flatMap_append

@[simp] theorem newText_append (first last : List Letter) :
    newText (first ++ last) = newText first ++ newText last := List.flatMap_append

@[simp] theorem oldText_cons (letter : Letter) (letters : List Letter) :
    oldText (letter :: letters) = letter.old ++ oldText letters := List.flatMap_cons

@[simp] theorem newText_cons (letter : Letter) (letters : List Letter) :
    newText (letter :: letters) = letter.new ++ newText letters := List.flatMap_cons

@[simp] theorem oldText_map_kept (text : List Char) : oldText (text.map kept) = text := by
  induction text with
  | nil => rfl
  | cons c text ih => simp [ih, old]

@[simp] theorem newText_map_kept (text : List Char) : newText (text.map kept) = text := by
  induction text with
  | nil => rfl
  | cons c text ih => simp [ih, new]

/-! ## The letters of a block -/

/-- A text with the first mention of a name renamed. -/
def ofFirst (name : String) (text : List Char) : List Letter :=
  match cutAt? name.toList text with
  | none => text.map kept
  | some (before, found) =>
      before.map kept ++ renamed name :: (found.drop name.toList.length).map kept

/-- A block with the first mention of the preferred legacy provider renamed, and
the first mention of the other one behind it. A block without a mention of the
preferred one has the first mention of the other one renamed. -/
def ofBlock (block : List Char) : List Letter :=
  match cutAt? "metal".toList block with
  | none => ofFirst "packet" block
  | some (before, found) =>
      before.map kept ++ renamed "metal" :: ofFirst "packet" (found.drop "metal".toList.length)

theorem oldText_ofFirst (name : String) (text : List Char) : oldText (ofFirst name text) = text := by
  rw [ofFirst]
  split
  next => exact oldText_map_kept text
  next before found cut =>
    obtain ⟨after, rfl⟩ := prefix_of_cutAt? cut
    rw [← append_of_cutAt? cut]
    simp [old]

theorem newText_ofFirst (name : String) (text : List Char) :
    newText (ofFirst name text) = replaceFirst name.toList currentName.toList text := by
  rw [ofFirst, replaceFirst]
  cases cutAt? name.toList text with
  | none => exact newText_map_kept text
  | some parts => simp only [newText_append, newText_cons, newText_map_kept, new, List.append_assoc]

theorem oldText_ofBlock (block : List Char) : oldText (ofBlock block) = block := by
  rw [ofBlock]
  split
  next => exact oldText_ofFirst "packet" block
  next before found cut =>
    obtain ⟨after, rfl⟩ := prefix_of_cutAt? cut
    rw [← append_of_cutAt? cut, List.drop_left]
    simp [old, oldText_ofFirst]

/-- No mention of the other provider starts in the current name. -/
theorem replaceFirst_packet_append (text : List Char) :
    replaceFirst "packet".toList currentName.toList (currentName.toList ++ text) =
      currentName.toList ++ replaceFirst "packet".toList currentName.toList text := by
  have foreign : 'p' ∉ currentName.toList := by decide
  have word : "packet".toList = 'p' :: "acket".toList := rfl
  rw [replaceFirst, replaceFirst, word, cutAt?_append_of_not_mem foreign]
  cases cutAt? ('p' :: "acket".toList) text with
  | none => rfl
  | some parts => simp

/-- The letters of a block show what the edit of its label does. -/
theorem newText_ofBlock (block : List Char) : newText (ofBlock block) = editLabel block := by
  rw [ofBlock, editLabel, Mention.find?, legacyNames, List.findSome?_cons]
  cases cut : cutAt? "metal".toList block with
  | some parts =>
      obtain ⟨before, found⟩ := parts
      have start := prefix_of_cutAt? cut
      have first : replaceFirst "metal".toList currentName.toList found =
          currentName.toList ++ found.drop "metal".toList.length := by
        rw [replaceFirst, cutAt?_of_prefix start]
        rfl
      dsimp only [Option.map_some]
      rw [renameKeys, legacyNames, List.foldl_cons, List.foldl_cons, List.foldl_nil, first,
        replaceFirst_packet_append]
      simp [new, newText_ofFirst]
  | none =>
      have absent := cutAt?_eq_none_iff.1 cut
      dsimp only [Option.map_none]
      rw [List.findSome?_cons, newText_ofFirst, replaceFirst]
      cases other : cutAt? "packet".toList block with
      | none => rfl
      | some parts =>
          obtain ⟨before, found⟩ := parts
          have start := prefix_of_cutAt? other
          have clear : ¬ "metal".toList <:+: found := by
            intro within
            apply absent
            rw [← append_of_cutAt? other]
            exact within.trans (List.suffix_append before found).isInfix
          have first : replaceFirst "packet".toList currentName.toList found =
              currentName.toList ++ found.drop "packet".toList.length := by
            rw [replaceFirst, cutAt?_of_prefix start]
            rfl
          dsimp only [Option.map_some]
          rw [renameKeys, legacyNames, List.foldl_cons, List.foldl_cons, List.foldl_nil,
            replaceFirst_of_absent clear, first, List.append_assoc]

theorem eq_of_mem_ofFirst {name other : String} {text : List Char}
    (member : renamed name ∈ ofFirst other text) : name = other := by
  have characters : ∀ stretch : List Char, renamed name ∉ stretch.map kept := by simp
  rw [ofFirst] at member
  split at member
  next => exact absurd member (characters text)
  next before found cut =>
    rw [List.mem_append, List.mem_cons] at member
    rcases member with inside | same | inside
    · exact absurd inside (characters before)
    · exact renamed.inj same
    · exact absurd inside (characters _)

/-- A block has at most one name renamed for each legacy provider. -/
theorem legacy_of_mem_ofBlock {block : List Char} {name : String}
    (member : renamed name ∈ ofBlock block) : name ∈ legacyNames := by
  rw [ofBlock] at member
  split at member
  next =>
    rw [eq_of_mem_ofFirst member]
    decide
  next before found cut =>
    simp only [List.mem_append, List.mem_cons, List.mem_map, reduceCtorEq, and_false, exists_false,
      false_or, renamed.injEq] at member
    rcases member with rfl | later
    · decide
    · rw [eq_of_mem_ofFirst later]
      decide

/-! ## Cutting letters -/

/-- Letters can be cut wherever no renamed name is divided. -/
theorem exists_append_of_oldText {letters : List Letter} {front back : List Char}
    (split : oldText letters = front ++ back)
    (whole : ∀ first name last, letters = first ++ renamed name :: last →
      oldText first ++ name.toList <+: front ∨ front <+: oldText first) :
    ∃ first last, letters = first ++ last ∧ oldText first = front ∧ oldText last = back := by
  induction letters generalizing front with
  | nil =>
      obtain ⟨rfl, rfl⟩ := List.append_eq_nil_iff.1 split.symm
      exact ⟨[], [], rfl, rfl, rfl⟩
  | cons letter letters ih =>
      cases front with
      | nil => exact ⟨[], letter :: letters, rfl, rfl, split⟩
      | cons c front =>
          -- In both cases the first letter belongs to the part in front of the cut.
          have fits : ∃ front', c :: front = letter.old ++ front' := by
            cases letter with
            | kept d =>
                rw [oldText_cons] at split
                obtain ⟨rfl, -⟩ := List.cons_eq_cons.1 split
                exact ⟨front, rfl⟩
            | renamed name =>
                rcases whole [] name letters rfl with ⟨front', joined⟩ | within
                · exact ⟨front', joined.symm⟩
                · exact absurd (List.prefix_nil.1 within) (List.cons_ne_nil c front)
          obtain ⟨front', joined⟩ := fits
          rw [joined] at split whole ⊢
          rw [oldText_cons, List.append_assoc] at split
          obtain ⟨first, last, rfl, rfl, rfl⟩ := ih (List.append_cancel_left split) (by
            intro first name last listed
            have known := whole (letter :: first) name last (by rw [listed, List.cons_append])
            rwa [oldText_cons, List.append_assoc, List.prefix_append_right_inj,
              List.prefix_append_right_inj] at known)
          exact ⟨letter :: first, last, rfl, oldText_cons letter first, rfl⟩

/-- Letters without a renamed name are characters. -/
theorem eq_map_kept {letters : List Letter} (characters : ∀ name, renamed name ∉ letters) :
    letters = (oldText letters).map kept := by
  induction letters with
  | nil => rfl
  | cons letter letters ih =>
      cases letter with
      | renamed name => exact absurd List.mem_cons_self (characters name)
      | kept c =>
          have later := ih fun name member => characters name (List.mem_cons_of_mem _ member)
          rw [oldText_cons, List.map_append, ← later]
          rfl

/-- A stretch without a part of a renamed name is made of letters that are kept. -/
theorem exists_append_of_apart {letters : List Letter} {before block after : List Char}
    (split : oldText letters = before ++ block ++ after)
    (nonempty : ∀ name, renamed name ∈ letters → name.toList ≠ [])
    (apart : ∀ first name last, letters = first ++ renamed name :: last →
      oldText first ++ name.toList <+: before ∨ before ++ block <+: oldText first) :
    ∃ first last, letters = first ++ block.map kept ++ last ∧ oldText first = before ∧
      oldText last = after := by
  have behind : ∀ first name last, letters = first ++ renamed name :: last →
      oldText first ++ name.toList <+: before ++ block ∨ before ++ block <+: oldText first := by
    intro first name last listed
    rcases apart first name last listed with front | back
    · exact .inl (front.trans (List.prefix_append before block))
    · exact .inr back
  obtain ⟨inner, last, rfl, joined, rfl⟩ := exists_append_of_oldText split behind
  have inside : ∀ first name rest, inner = first ++ renamed name :: rest →
      oldText first ++ name.toList <+: before := by
    intro first name rest listed
    rcases apart first name (rest ++ last) (by simp [listed]) with front | back
    · exact front
    · -- A name behind the stretch would be empty.
      rw [← joined, listed, oldText_append, oldText_cons, old] at back
      have short := back.length_le
      simp only [List.length_append] at short
      have := List.length_pos_iff.2 (nonempty name (by simp [listed]))
      omega
  obtain ⟨first, middle, rfl, rfl, rfl⟩ :=
    exists_append_of_oldText joined fun first name rest listed => .inl (inside first name rest listed)
  refine ⟨first, last, ?_, rfl, rfl⟩
  rw [← eq_map_kept]
  intro name member
  obtain ⟨front, back, rfl⟩ := List.append_of_mem member
  have short := (inside (first ++ front) name back (by simp)).length_le
  have := List.length_pos_iff.2 (nonempty name (by simp))
  rw [oldText_append, List.length_append, List.length_append] at short
  omega

end Letter

/-! ## The letters of a document -/

/-- The letters of a divided document. -/
def Division.letters (division : Division) : List Letter :=
  division.parts.flatMap (fun part => part.before.map .kept ++ Letter.ofBlock part.block) ++
    division.rest.map .kept

theorem Division.letters_cons (before block : List Char) (following : Division) :
    Division.letters { following with parts := ⟨before, block⟩ :: following.parts } =
      before.map .kept ++ Letter.ofBlock block ++ following.letters := by
  simp [Division.letters]

namespace Division

open Letter

theorem oldText_letters (division : Division) : oldText division.letters = division.text := by
  induction division using Division.induction with
  | nil rest fault? => exact oldText_map_kept rest
  | cons before block following ih =>
      rw [letters_cons, text_cons, oldText_append, oldText_append, oldText_map_kept,
        oldText_ofBlock, ih]

theorem newText_letters {division : Division} {out : List Char}
    (done : division.edited (fun block => .ok (editLabel block)) = .ok out) :
    newText division.letters = out := by
  induction division using Division.induction generalizing out with
  | nil rest fault? =>
      cases fault? with
      | some fault => contradiction
      | none =>
          obtain rfl := Except.ok.inj done
          exact newText_map_kept rest
  | cons before block following ih =>
      obtain ⟨new, rest, edited, later, rfl⟩ := exists_of_edited_cons done
      rw [letters_cons, newText_append, newText_append, newText_map_kept, newText_ofBlock, ih later,
        Except.ok.inj edited]

theorem legacy_of_mem_letters {division : Division} {name : String}
    (member : renamed name ∈ division.letters) : name ∈ legacyNames := by
  simp only [letters, List.mem_append, List.mem_flatMap, List.mem_map, reduceCtorEq, and_false,
    exists_false, false_or, or_false] at member
  obtain ⟨part, -, member⟩ := member
  exact legacy_of_mem_ofBlock member

/-- Whether a name is renamed in a stretch of the divided document that has the
given text in front of it. -/
def RenamesWithin (division : Division) (before block : List Char) : Prop :=
  ∃ first name last, division.letters = first ++ renamed name :: last ∧
    before <+: oldText first ∧ oldText first ++ name.toList <+: before ++ block

end Division

/-! ## Blocks that a pass keeps -/

/-- A block that configures no provider, from its keyword to the brace that closes
it. -/
def IsOther (block : List Char) : Prop :=
  ∃ keyword ∈ [requirementsKeyword, "resource", "data"], ∃ inner,
    block = keyword.toList ++ inner ++ ['\x7d']

/-- The first and the last character of another block are in no legacy name. -/
theorem IsOther.exists_ends {block : List Char} (other : IsOther block) :
    ∃ c d, block.head? = some c ∧ block.getLast? = some d ∧
      ∀ name ∈ legacyNames, c ∉ name.toList ∧ d ∉ name.toList := by
  obtain ⟨keyword, listed, inner, rfl⟩ := other
  have starts : ∀ keyword ∈ [requirementsKeyword, "resource", "data"],
      keyword.toList.head?.any (fun c => legacyNames.all (!·.toList.contains c)) = true := by
    decide
  have brace : ∀ name ∈ legacyNames, '\x7d' ∉ name.toList := by decide
  obtain ⟨c, start, foreign⟩ := (Option.any_eq_true _ _).1 (starts keyword listed)
  refine ⟨c, '\x7d', ?_, List.getLast?_concat, fun name legacy => ⟨?_, brace name legacy⟩⟩
  · rw [List.append_assoc, List.head?_append, start, Option.some_or]
  · simpa using List.all_eq_true.1 foreign name legacy

private theorem mem_of_getElem?_append {front middle back : List Char} {index : Nat} {c : Char}
    (found : (front ++ middle ++ back)[index]? = some c) (start : front.length ≤ index)
    (stop : index < (front ++ middle).length) : c ∈ middle := by
  rw [List.getElem?_append_left stop, List.getElem?_append_right start] at found
  exact List.mem_of_getElem? found

namespace Division

open Letter

variable {division : Division} {before block after : List Char}

/-- A renamed name lies in another block as a whole or not at all. -/
theorem apart_of_not_renamesWithin (split : division.text = before ++ block ++ after)
    (other : IsOther block) (kept : ¬ division.RenamesWithin before block) :
    ∀ first name last, division.letters = first ++ renamed name :: last →
      oldText first ++ name.toList <+: before ∨ before ++ block <+: oldText first := by
  intro first name last listed
  have joined : oldText first ++ name.toList ++ oldText last = before ++ block ++ after := by
    rw [← split, ← oldText_letters, listed, oldText_append, oldText_cons, List.append_assoc]
    rfl
  have member : renamed name ∈ division.letters := by simp [listed]
  have legacy := legacy_of_mem_letters member
  obtain ⟨c, d, head, last', foreign⟩ := other.exists_ends
  have named : oldText first ++ name.toList <+: before ++ block ++ after :=
    joined ▸ List.prefix_append _ _
  have front : oldText first <+: before ++ block ++ after :=
    (List.prefix_append _ _).trans named
  by_cases ends : (oldText first ++ name.toList).length ≤ before.length
  · left
    exact List.prefix_of_prefix_length_le named
      ((List.prefix_append before block).trans (List.prefix_append _ after)) ends
  by_cases starts : (before ++ block).length ≤ (oldText first).length
  · exact .inr (List.prefix_of_prefix_length_le (List.prefix_append _ after) front starts)
  exfalso
  by_cases early : (oldText first).length < before.length
  · -- The name reaches into the block from the front, over its first character.
    have found : (oldText first ++ name.toList ++ oldText last)[before.length]? = some c := by
      rw [joined, List.append_assoc, List.getElem?_append_right (Nat.le_refl _), Nat.sub_self,
        ← List.head?_eq_getElem?, List.head?_append, head, Option.some_or]
    exact (foreign name legacy).1 (mem_of_getElem?_append found (by omega) (by omega))
  by_cases late : (before ++ block).length < (oldText first ++ name.toList).length
  · -- The name reaches out of the block, over its last character.
    have found : (oldText first ++ name.toList ++ oldText last)[(before ++ block).length - 1]? =
        some d := by
      rw [joined, List.getElem?_append_left (by omega), ← List.getLast?_eq_getElem?,
        List.getLast?_append, last', Option.some_or]
    exact (foreign name legacy).2 (mem_of_getElem?_append found (by omega) (by omega))
  apply kept
  refine ⟨first, name, last, listed, ?_, ?_⟩
  · exact List.prefix_of_prefix_length_le
      ((List.prefix_append before block).trans (List.prefix_append _ after)) front (by omega)
  · exact List.prefix_of_prefix_length_le named (List.prefix_append _ after) (by omega)

/-- No name is renamed in a block that mentions none. -/
theorem not_renamesWithin_of_isClear (clear : IsClear block) :
    ¬ division.RenamesWithin before block := by
  rintro ⟨first, name, last, listed, ⟨gap, joined⟩, within⟩
  have member : renamed name ∈ division.letters := by simp [listed]
  apply clear name (legacy_of_mem_letters member)
  rw [← joined, List.append_assoc, List.prefix_append_right_inj] at within
  exact (List.suffix_append gap _).isInfix.trans within.isInfix

end Division

/-- The pass over the providers of a document renames the names that its letters
show and nothing else. A block that configures no provider is found in the outcome
at its place, unless a renamed name lies in it, and none does in a block that
mentions no legacy provider. -/
theorem editBlocks_keeps_other {document out before block after : List Char}
    (done : editBlocks providerKeyword (fun block => .ok (editLabel block)) document = .ok out)
    (split : document = before ++ block ++ after) (other : IsOther block) :
    Letter.oldText (Division.of providerKeyword document).letters = document ∧
      Letter.newText (Division.of providerKeyword document).letters = out ∧
      (IsClear block → ¬ (Division.of providerKeyword document).RenamesWithin before block) ∧
      (¬ (Division.of providerKeyword document).RenamesWithin before block →
        ∃ first last,
          (Division.of providerKeyword document).letters = first ++ block.map .kept ++ last ∧
          Letter.oldText first = before ∧ Letter.oldText last = after ∧
          out = Letter.newText first ++ block ++ Letter.newText last) := by
  have whole := Division.text_of providerKeyword document
  rw [editBlocks_eq, ← Division.edited_of] at done
  have written := Division.newText_letters done
  have read : Letter.oldText (Division.of providerKeyword document).letters = document := by
    rw [Division.oldText_letters, whole]
  refine ⟨read, written, Division.not_renamesWithin_of_isClear, fun kept => ?_⟩
  have nonempty : ∀ name, .renamed name ∈ (Division.of providerKeyword document).letters →
      name.toList ≠ [] := by
    intro name member
    have named : ∀ name ∈ legacyNames, name.toList ≠ [] := by decide
    exact named name (Division.legacy_of_mem_letters member)
  obtain ⟨first, last, listed, rfl, rfl⟩ := Letter.exists_append_of_apart (read.trans split)
    nonempty (Division.apart_of_not_renamesWithin (whole.trans split) other kept)
  refine ⟨first, last, listed, rfl, rfl, ?_⟩
  rw [← written, listed]
  simp

/-- The outcome for a document in which a single block is announced. -/
theorem editBlocks_of_single {document before found : List Char} {opened closing : Nat}
    (cut : cutAt? providerKeyword.toList document = some (before, found))
    (bounded : (Balance.ofBraces found).require providerKeyword = .ok (opened, closing))
    (last : cutAt? providerKeyword.toList (dropBytes (closing + 1) found) = none) :
    editBlocks providerKeyword (fun block => .ok (editLabel block)) document =
      .ok (before ++ editLabel (takeBytes (closing + 1) found) ++ dropBytes (closing + 1) found) := by
  rw [editBlocks_eq, streamBlocks_of_single cut bounded last]
  rfl

/-- A resource of another provider. -/
def plainResource : List Char := "resource \"aws_vlan\" \"x\" \x7b\x7d".toList

/-- The resource behind a comment that announces it, and that has the first
mention of a legacy provider. -/
def remarkedResource : List Char := "# provider of metal\n".toList ++ plainResource

theorem editBlocks_keeps_plainResource :
    IsClear plainResource ∧ ∃ first last,
      (Division.of providerKeyword remarkedResource).letters =
        first ++ plainResource.map .kept ++ last ∧
      Letter.oldText first = "# provider of metal\n".toList ∧ Letter.oldText last = [] ∧
      "# provider of equinix\n".toList ++ plainResource =
        Letter.newText first ++ plainResource ++ Letter.newText last := by
  have cut : cutAt? providerKeyword.toList remarkedResource =
      some (['#', ' '], remarkedResource.drop 2) := by decide
  have bounded : (Balance.ofBraces (remarkedResource.drop 2)).require providerKeyword =
      .ok (42, 43) := rfl
  have other : IsOther plainResource :=
    ⟨"resource", by decide, " \"aws_vlan\" \"x\" \x7b".toList, by decide⟩
  have clear : IsClear plainResource := by
    rw [← Mention.find?_eq_none_iff]
    rfl
  have split : remarkedResource = "# provider of metal\n".toList ++ plainResource ++ [] := by
    decide
  have kept := editBlocks_keeps_other (editBlocks_of_single cut bounded (by decide)) split other
  exact ⟨clear, kept.2.2.2 (kept.2.2.1 clear)⟩

/-- A resource whose name is renamed once more when a comment announces it. -/
def renamedResource : List Char := "resource \"equinix_metal_vlan\" \"x\" \x7b\x7d".toList

/-- A complete block that does not mention the keyword of the pass, and that the
pass changes all the same. -/
theorem exists_other_not_kept :
    ∃ document out, editBlocks providerKeyword (fun block => .ok (editLabel block)) document =
        .ok out ∧
      IsOther renamedResource ∧ (Balance.ofBraces renamedResource).closing? =
        some (byteSize renamedResource - 1) ∧ ¬ providerKeyword.toList <:+: renamedResource ∧
      renamedResource <:+: document ∧ ¬ renamedResource <:+: out := by
  have cut : cutAt? providerKeyword.toList ("# provider\n".toList ++ renamedResource) =
      some (['#', ' '], "provider\n".toList ++ renamedResource) := by decide
  have bounded : (Balance.ofBraces ("provider\n".toList ++ renamedResource)).require
      providerKeyword = .ok (43, 44) := rfl
  refine ⟨_, _, editBlocks_of_single cut bounded (by decide), ?_, rfl, ?_, ?_, ?_⟩
  · exact ⟨"resource", by decide, " \"equinix_metal_vlan\" \"x\" \x7b".toList, by decide⟩
  · exact cutAt?_eq_none_iff.1 (by decide)
  · exact (List.suffix_append _ _).isInfix
  · exact cutAt?_eq_none_iff.1 (by decide)

end ProviderMigration.Provider
