import ProviderMigration.Provider.Declaration

/-!
# The division of a document

A pass over a document exchanges one block after the other in a document that it
builds anew each time. This module shows that the pass could as well read the
document once: which blocks are edited depends on the keyword and the original
text alone, and never on what an edit produces. The text outside those blocks is
kept as it is.
-/

namespace ProviderMigration.Provider

open Text Block

variable {keyword : String} {edit : List Char → Except Malformed (List Char)}

/-! ## One round of a pass -/

theorem editFrom_of_absent {document : List Char} {cursor : Nat}
    (absent : Span.findFrom? keyword.toList document cursor = none) :
    editFrom keyword edit document cursor = .ok document := by
  rw [editFrom]
  split
  next => rfl
  next anchor located => simp [absent] at located

theorem editFrom_of_malformed {document : List Char} {cursor : Nat} {anchor : Span}
    {fault : Malformed}
    (located : Span.findFrom? keyword.toList document cursor = some anchor)
    (malformed : (Balance.ofBraces (dropBytes (cursor + anchor.start) document)).require keyword =
      .error fault) :
    editFrom keyword edit document cursor = .error fault := by
  rw [editFrom]
  split
  next absent => simp [located] at absent
  next other found =>
    obtain rfl := Option.some.inj (located.symm.trans found)
    dsimp only
    split
    next other found =>
      obtain rfl := by simpa [malformed] using found
      rfl
    next bounded => simp [malformed] at bounded

theorem editFrom_of_bounded {document : List Char} {cursor : Nat} {anchor : Span}
    {opened closing : Nat}
    (located : Span.findFrom? keyword.toList document cursor = some anchor)
    (bounded : (Balance.ofBraces (dropBytes (cursor + anchor.start) document)).require keyword =
      .ok (opened, closing)) :
    editFrom keyword edit document cursor =
      edit (takeBytes (closing + 1) (dropBytes (cursor + anchor.start) document)) >>= fun block =>
        editFrom keyword edit
          (takeBytes (cursor + anchor.start) document ++ block ++
            dropBytes (cursor + anchor.start + closing + 1) document)
          (cursor + anchor.start + byteSize block) := by
  rw [editFrom]
  split
  next absent => simp [located] at absent
  next other found =>
    obtain rfl := Option.some.inj (located.symm.trans found)
    dsimp only
    split
    next malformed => simp [bounded] at malformed
    next _ other found =>
      obtain ⟨rfl, rfl⟩ := by simpa [bounded] using found
      have size : cursor + anchor.start + closing + 1 - (cursor + anchor.start) = closing + 1 := by
        omega
      rw [size]

/-! ## Reading a document once -/

/-- What follows a block is shorter than the text up to it. -/
theorem length_dropBytes_lt {document before found : List Char} {opened closing : Nat}
    (cut : cutAt? keyword.toList document = some (before, found))
    (bounded : (Balance.ofBraces found).require keyword = .ok (opened, closing)) :
    (dropBytes (closing + 1) found).length < document.length := by
  obtain ⟨inner, after, rfl, -, dropped⟩ :=
    Balance.exists_cut_of_closing?_ofBraces (Balance.require_eq_ok_iff.1 bounded).2
  rw [dropped, ← append_of_cutAt? cut]
  simp only [List.length_append, List.length_cons]
  omega

/-- The document with its announced blocks edited, read once from left to right. -/
def streamBlocks (keyword : String) (edit : List Char → Except Malformed (List Char))
    (document : List Char) : Except Malformed (List Char) :=
  match _ : cutAt? keyword.toList document with
  | none => .ok document
  | some (before, found) =>
      match _ : (Balance.ofBraces found).require keyword with
      | .error fault => .error fault
      | .ok (_, closing) => do
          let block ← edit (takeBytes (closing + 1) found)
          let rest ← streamBlocks keyword edit (dropBytes (closing + 1) found)
          return before ++ block ++ rest
termination_by document.length
decreasing_by
  exact length_dropBytes_lt ‹cutAt? _ _ = _› ‹(Balance.ofBraces _).require _ = _›

theorem streamBlocks_of_absent {document : List Char}
    (absent : cutAt? keyword.toList document = none) :
    streamBlocks keyword edit document = .ok document := by
  rw [streamBlocks]
  split
  next => rfl
  next cut => simp [absent] at cut

theorem streamBlocks_of_malformed {document before found : List Char} {fault : Malformed}
    (cut : cutAt? keyword.toList document = some (before, found))
    (malformed : (Balance.ofBraces found).require keyword = .error fault) :
    streamBlocks keyword edit document = .error fault := by
  rw [streamBlocks]
  split
  next absent => simp [cut] at absent
  next other =>
    obtain ⟨rfl, rfl⟩ := by simpa [cut] using other
    split
    next other =>
      obtain rfl := by simpa [malformed] using other
      rfl
    next bounded => simp [malformed] at bounded

theorem streamBlocks_of_bounded {document before found : List Char} {opened closing : Nat}
    (cut : cutAt? keyword.toList document = some (before, found))
    (bounded : (Balance.ofBraces found).require keyword = .ok (opened, closing)) :
    streamBlocks keyword edit document =
      edit (takeBytes (closing + 1) found) >>= fun block =>
        (streamBlocks keyword edit (dropBytes (closing + 1) found)).map (before ++ block ++ ·) := by
  rw [streamBlocks]
  split
  next absent => simp [cut] at absent
  next other =>
    obtain ⟨rfl, rfl⟩ := by simpa [cut] using other
    split
    next malformed => simp [bounded] at malformed
    next other =>
      obtain ⟨rfl, rfl⟩ := by simpa [bounded] using other
      rfl

/-- A document with a single announced block has that block edited. -/
theorem streamBlocks_of_single {document before found : List Char} {opened closing : Nat}
    (cut : cutAt? keyword.toList document = some (before, found))
    (bounded : (Balance.ofBraces found).require keyword = .ok (opened, closing))
    (last : cutAt? keyword.toList (dropBytes (closing + 1) found) = none) :
    streamBlocks keyword edit document =
      (edit (takeBytes (closing + 1) found)).map
        (before ++ · ++ dropBytes (closing + 1) found) := by
  rw [streamBlocks_of_bounded cut bounded, streamBlocks_of_absent last]
  rfl

/-- Behind a place of a text, a token is found where it is found in what follows. -/
theorem findFrom?_of_cutAt? {token rest before found : List Char} (passed : List Char)
    (cut : cutAt? token rest = some (before, found)) :
    Span.findFrom? token (passed ++ rest) (byteSize passed) =
      some ⟨byteSize before, byteSize before + byteSize token⟩ := by
  simp [Span.findFrom?_byteSize_append, Span.find?, cut]

/-- A pass that is finished up to some byte reads what follows as a document of
its own. Whatever stands in front of the cursor, and however long it has become,
does not matter. -/
theorem editFrom_append (keyword : String) (edit : List Char → Except Malformed (List Char))
    (passed rest : List Char) :
    editFrom keyword edit (passed ++ rest) (byteSize passed) =
      (streamBlocks keyword edit rest).map (passed ++ ·) := by
  fun_induction streamBlocks keyword edit rest generalizing passed with
  | case1 rest absent =>
      rw [editFrom_of_absent (by simp [Span.findFrom?_byteSize_append, Span.find?, absent])]
      rfl
  | case2 rest before found cut fault malformed =>
      have located := findFrom?_of_cutAt? passed cut
      rw [editFrom_of_malformed located]
      · rfl
      · rw [← append_of_cutAt? cut, ← List.append_assoc, ← byteSize_append,
          dropBytes_byteSize_append, malformed]
  | case3 rest before found cut opened closing bounded ih =>
      have located := findFrom?_of_cutAt? passed cut
      have joined : passed ++ rest = (passed ++ before) ++ found := by
        rw [List.append_assoc, append_of_cutAt? cut]
      have dropped : dropBytes (byteSize passed + byteSize before) (passed ++ rest) = found := by
        rw [joined, ← byteSize_append, dropBytes_byteSize_append]
      have taken : takeBytes (byteSize passed + byteSize before) (passed ++ rest) =
          passed ++ before := by
        rw [joined, ← byteSize_append, takeBytes_byteSize_append]
      have following : dropBytes (byteSize passed + byteSize before + closing + 1)
          (passed ++ rest) = dropBytes (closing + 1) found := by
        rw [joined, ← byteSize_append, Nat.add_assoc, dropBytes_byteSize_add]
      rw [editFrom_of_bounded located (by rw [dropped, bounded])]
      dsimp only
      rw [dropped, taken, following]
      cases edited : edit (takeBytes (closing + 1) found) with
      | error fault => rfl
      | ok block =>
          have later := ih (passed ++ before ++ block)
          rw [byteSize_append, byteSize_append] at later
          change editFrom _ _ _ _ = _
          rw [later]
          cases streamBlocks keyword edit (dropBytes (closing + 1) found) with
          | error fault => rfl
          | ok rest => simp [Except.map, bind, Except.bind, pure, Except.pure]

/-! ## What an edit gets to see -/

/-- A block that a keyword announces, with the text since the block before it. -/
structure Part where
  before : List Char
  block : List Char
  deriving DecidableEq, Repr

/-- A document divided by a keyword: the blocks that the keyword announces, the
text after the last one, and the fault that ends a pass there, if any. -/
structure Division where
  parts : List Part
  rest : List Char
  fault? : Option Malformed
  deriving DecidableEq, Repr

namespace Division

/-- The division of a document. No edit has a say in it. -/
def of (keyword : String) (document : List Char) : Division :=
  match _ : cutAt? keyword.toList document with
  | none => ⟨[], document, none⟩
  | some (before, found) =>
      match _ : (Balance.ofBraces found).require keyword with
      | .error fault => ⟨[], document, some fault⟩
      | .ok (_, closing) =>
          let following := of keyword (dropBytes (closing + 1) found)
          ⟨⟨before, takeBytes (closing + 1) found⟩ :: following.parts, following.rest,
            following.fault?⟩
termination_by document.length
decreasing_by
  exact length_dropBytes_lt ‹cutAt? _ _ = _› ‹(Balance.ofBraces _).require _ = _›

theorem of_eq_of_absent {document : List Char}
    (absent : cutAt? keyword.toList document = none) :
    of keyword document = ⟨[], document, none⟩ := by
  rw [of]
  split
  next => rfl
  next cut => simp [absent] at cut

theorem of_eq_of_malformed {document before found : List Char} {fault : Malformed}
    (cut : cutAt? keyword.toList document = some (before, found))
    (malformed : (Balance.ofBraces found).require keyword = .error fault) :
    of keyword document = ⟨[], document, some fault⟩ := by
  rw [of]
  split
  next absent => simp [cut] at absent
  next other =>
    obtain ⟨rfl, rfl⟩ := by simpa [cut] using other
    split
    next other =>
      obtain rfl := by simpa [malformed] using other
      rfl
    next bounded => simp [malformed] at bounded

theorem of_eq_of_bounded {document before found : List Char} {opened closing : Nat}
    (cut : cutAt? keyword.toList document = some (before, found))
    (bounded : (Balance.ofBraces found).require keyword = .ok (opened, closing)) :
    of keyword document =
      let following := of keyword (dropBytes (closing + 1) found)
      { following with
        parts := ⟨before, takeBytes (closing + 1) found⟩ :: following.parts } := by
  rw [of]
  split
  next absent => simp [cut] at absent
  next other =>
    obtain ⟨rfl, rfl⟩ := by simpa [cut] using other
    split
    next malformed => simp [bounded] at malformed
    next other =>
      obtain ⟨rfl, rfl⟩ := by simpa [bounded] using other
      rfl

/-- The same by the brace that closes the block. -/
theorem of_eq_of_closed {document before inner after : List Char} {opened : Nat}
    (cut : cutAt? keyword.toList document = some (before, inner ++ '\x7d' :: after))
    (bounded : (Balance.ofBraces (inner ++ '\x7d' :: after)).require keyword =
      .ok (opened, byteSize inner)) :
    of keyword document =
      { of keyword after with
        parts := ⟨before, inner ++ ['\x7d']⟩ :: (of keyword after).parts } := by
  rw [of_eq_of_bounded cut bounded, Balance.takeBytes_closed, Balance.dropBytes_closed]

/-- The text that a division divides. -/
def text (division : Division) : List Char :=
  division.parts.flatMap (fun part => part.before ++ part.block) ++ division.rest

/-- The text with every block edited once and everything else kept. The first
error counts, in the order of the text. -/
def edited (division : Division) (edit : List Char → Except Malformed (List Char)) :
    Except Malformed (List Char) := do
  let blocks ← division.parts.mapM fun part => edit part.block
  match division.fault? with
  | some fault => .error fault
  | none =>
      return (division.parts.zipWith (fun part block => part.before ++ block) blocks).flatten ++
        division.rest

theorem edited_cons (edit : List Char → Except Malformed (List Char))
    (before block : List Char) (following : Division) :
    edited { following with parts := ⟨before, block⟩ :: following.parts } edit =
      edit block >>= fun changed => (following.edited edit).map (before ++ changed ++ ·) := by
  simp only [edited, List.mapM_cons]
  cases edit block with
  | error fault => rfl
  | ok changed =>
      cases following.parts.mapM fun part => edit part.block with
      | error fault => rfl
      | ok blocks =>
          cases following.fault? with
          | some fault => rfl
          | none => simp [Except.map, bind, Except.bind, pure, Except.pure]

theorem exists_of_edited_cons {before block changed : List Char} {following : Division}
    (done : edited { following with parts := ⟨before, block⟩ :: following.parts } edit =
      .ok changed) :
    ∃ new rest, edit block = .ok new ∧ following.edited edit = .ok rest ∧
      changed = before ++ new ++ rest := by
  rw [edited_cons] at done
  cases edited : edit block with
  | error fault =>
      rw [edited] at done
      contradiction
  | ok new =>
      cases later : following.edited edit with
      | error fault =>
          rw [edited, later] at done
          contradiction
      | ok rest =>
          rw [edited, later] at done
          exact ⟨new, rest, rfl, rfl, (Except.ok.inj done).symm⟩

theorem text_cons (before block : List Char) (following : Division) :
    text { following with parts := ⟨before, block⟩ :: following.parts } =
      before ++ block ++ following.text := by
  simp [Division.text]

/-- Divisions are built from the last block to the first. -/
@[elab_as_elim] theorem induction {motive : Division → Prop}
    (nil : ∀ rest fault?, motive ⟨[], rest, fault?⟩)
    (cons : ∀ before block following, motive following →
      motive { following with parts := ⟨before, block⟩ :: following.parts })
    (division : Division) : motive division := by
  obtain ⟨parts, rest, fault?⟩ := division
  induction parts with
  | nil => exact nil rest fault?
  | cons part parts ih => exact cons part.before part.block ⟨parts, rest, fault?⟩ ih

/-- The division with every block exchanged for its edited form. -/
def mapBlocks (edit : List Char → List Char) (division : Division) : Division :=
  { division with
    parts := division.parts.map fun part => { part with block := edit part.block } }

/-- An edit that never fails leaves the fault of the division to count. -/
theorem edited_mapBlocks (edit : List Char → List Char) (division : Division) :
    division.edited (fun block => .ok (edit block)) =
      division.fault?.elim (.ok (division.mapBlocks edit).text) .error := by
  induction division using induction with
  | nil rest fault? => cases fault? <;> rfl
  | cons before block following ih =>
      have mapped : mapBlocks edit { following with parts := ⟨before, block⟩ :: following.parts } =
          { following.mapBlocks edit with
            parts := ⟨before, edit block⟩ :: (following.mapBlocks edit).parts } := rfl
      rw [edited_cons, ih, mapped, text_cons]
      cases following.fault? <;> rfl

/-- A division loses nothing. -/
theorem text_of (keyword : String) (document : List Char) :
    (of keyword document).text = document := by
  fun_induction of keyword document with
  | case1 document absent => rfl
  | case2 document before found cut fault malformed => rfl
  | case3 document before found cut opened closing bounded following ih =>
      calc
        Division.text _ = before ++ takeBytes (closing + 1) found ++ following.text := by
          simp [text]
        _ = before ++ found := by
          rw [ih, List.append_assoc, takeBytes_append_dropBytes]
        _ = document := append_of_cutAt? cut

theorem keyword_of_require {balance : Balance} {keyword : String} {fault : Malformed}
    (malformed : balance.require keyword = .error fault) : fault.keyword = keyword := by
  obtain ⟨opening?, closing?⟩ := balance
  cases opening? with
  | none => exact congrArg Malformed.keyword (Except.error.inj malformed).symm
  | some opened =>
      cases closing? with
      | none => exact congrArg Malformed.keyword (Except.error.inj malformed).symm
      | some closing => contradiction

/-- A fault names the keyword of the block that it is found in. -/
theorem keyword_of_fault? {keyword : String} {document : List Char} {fault : Malformed}
    (ends : (of keyword document).fault? = some fault) : fault.keyword = keyword := by
  fun_induction of keyword document with
  | case1 document absent => contradiction
  | case2 document before found cut other malformed =>
      obtain rfl := Option.some.inj ends
      exact keyword_of_require malformed
  | case3 document before found cut opened closing bounded following ih => exact ih ends

/-- The blocks of a division are found in its text. -/
theorem block_within_text {division : Division} {part : Part} (member : part ∈ division.parts) :
    part.block <:+: division.text := by
  obtain ⟨front, back, split⟩ := List.append_of_mem member
  refine ⟨front.flatMap (fun part => part.before ++ part.block) ++ part.before,
    back.flatMap (fun part => part.before ++ part.block) ++ division.rest, ?_⟩
  simp [text, split]

/-- Reading a document once is editing the blocks of its division. -/
theorem edited_of (keyword : String) (edit : List Char → Except Malformed (List Char))
    (document : List Char) :
    (of keyword document).edited edit = streamBlocks keyword edit document := by
  fun_induction of keyword document with
  | case1 document absent =>
      rw [streamBlocks_of_absent absent]
      rfl
  | case2 document before found cut fault malformed =>
      rw [streamBlocks_of_malformed cut malformed]
      rfl
  | case3 document before found cut opened closing bounded following ih =>
      rw [streamBlocks_of_bounded cut bounded, ← ih]
      exact edited_cons edit _ _ following

end Division

/-- A pass reads the document once. -/
theorem editBlocks_eq (keyword : String) (edit : List Char → Except Malformed (List Char))
    (document : List Char) :
    editBlocks keyword edit document = streamBlocks keyword edit document := by
  have start := editFrom_append keyword edit [] document
  rw [List.nil_append, byteSize_nil] at start
  rw [editBlocks, start]
  cases streamBlocks keyword edit document <;> rfl

/-- A pass keeps every byte outside the announced blocks, hands each announced
block once and in its original form to the edit, and never reads what an edit
has produced. -/
theorem editBlocks_eq_streamBlocks (keyword : String)
    (edit : List Char → Except Malformed (List Char)) (document : List Char) :
    editBlocks keyword edit document = streamBlocks keyword edit document ∧
      editBlocks keyword edit document = (Division.of keyword document).edited edit ∧
      (Division.of keyword document).text = document := by
  have once := editBlocks_eq keyword edit document
  refine ⟨once, ?_, Division.text_of keyword document⟩
  rw [once, Division.edited_of]

end ProviderMigration.Provider
