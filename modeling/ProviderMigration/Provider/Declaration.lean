import ProviderMigration.Provider.Entry

/-!
# Provider declarations of a document

A keyword announces a block wherever it occurs in a document, even in a comment.
A pass holds the document as it stands and the byte up to which it is finished.
Each round takes the next announced block, which reaches from its keyword to the
brace that closes it, puts the edited block in its place, and goes on after it.
An edit may make the document longer or shorter. What still has to be read only
ever gets shorter.
-/

namespace ProviderMigration.Provider

open Text Block

/-- A round divides the document at four places: where the search starts, where
the keyword is found, in front of the brace that closes the block, and after it. -/
theorem exists_of_round {keyword : String} {document : List Char} {cursor : Nat} {anchor : Span}
    {closing : Nat}
    (located : Span.findFrom? keyword.toList document cursor = some anchor)
    (closes : (Balance.ofBraces (dropBytes (cursor + anchor.start) document)).closing? =
      some closing) :
    ∃ passed before inner after,
      document = passed ++ before ++ (inner ++ ['}']) ++ after ∧
      byteSize passed = cursor ∧ byteSize before = anchor.start ∧
      byteSize (inner ++ ['}']) = closing + 1 := by
  obtain ⟨passed, before, found, rfl, rfl, size, -⟩ :=
    Span.exists_of_findFrom?_eq_some located
  rw [← size, ← byteSize_append, ← List.append_assoc, dropBytes_byteSize_append] at closes
  obtain ⟨inner, after, rfl, rfl⟩ := Balance.exists_of_closing?_ofBraces closes
  exact ⟨passed, before, inner, after, by simp, rfl, size, by simp; decide⟩

/-- What a pass still has to read gets shorter with every round, whatever the
edited block is. -/
theorem unread_lt {keyword : String} {document : List Char} {cursor : Nat} {anchor : Span}
    {closing : Nat} (block : List Char)
    (located : Span.findFrom? keyword.toList document cursor = some anchor)
    (closes : (Balance.ofBraces (dropBytes (cursor + anchor.start) document)).closing? =
      some closing) :
    byteSize (takeBytes (cursor + anchor.start) document ++ block ++
        dropBytes (cursor + anchor.start + closing + 1) document) -
        (cursor + anchor.start + byteSize block) <
      byteSize document - cursor := by
  obtain ⟨passed, before, inner, after, rfl, rfl, start, stop⟩ := exists_of_round located closes
  have taken := byteSize_takeBytes_le (byteSize passed + anchor.start)
    (passed ++ before ++ (inner ++ ['}']) ++ after)
  have dropped : dropBytes (byteSize passed + anchor.start + closing + 1)
      (passed ++ before ++ (inner ++ ['}']) ++ after) = after := by
    rw [Nat.add_assoc _ closing, ← stop, ← start, ← byteSize_append, ← byteSize_append,
      dropBytes_byteSize_append]
  rw [dropped]
  simp only [byteSize_append] at stop ⊢
  omega

/-- The document with every block that `keyword` announces at or after the byte
`cursor` edited. -/
def editFrom (keyword : String) (edit : List Char → Except Malformed (List Char))
    (document : List Char) (cursor : Nat) : Except Malformed (List Char) :=
  match _ : Span.findFrom? keyword.toList document cursor with
  | none => .ok document
  | some anchor =>
      let start := cursor + anchor.start
      match _ : (Balance.ofBraces (dropBytes start document)).require keyword with
      | .error fault => .error fault
      | .ok (_, closing) => do
          let stop := start + closing + 1
          let block ← edit (takeBytes (stop - start) (dropBytes start document))
          editFrom keyword edit (takeBytes start document ++ block ++ dropBytes stop document)
            (start + byteSize block)
termination_by byteSize document - cursor
decreasing_by
  exact unread_lt _ ‹Span.findFrom? _ _ _ = _›
    (Balance.require_eq_ok_iff.1 ‹(Balance.ofBraces _).require _ = _›).2

/-- The document with every block that `keyword` announces edited. -/
def editBlocks (keyword : String) (edit : List Char → Except Malformed (List Char))
    (document : List Char) : Except Malformed (List Char) :=
  editFrom keyword edit document 0

/-- The keyword of the block that lists the providers a module requires. -/
def requirementsKeyword : String := "required_providers"

/-- The keyword of the block that configures a provider. -/
def providerKeyword : String := "provider"

/-- The document with the requirements edited, and then the providers. -/
def editDeclarations (document : List Char) : Except Malformed (List Char) := do
  let document ← editBlocks requirementsKeyword editRequirements document
  editBlocks providerKeyword (fun block => .ok (editLabel block)) document

end ProviderMigration.Provider
