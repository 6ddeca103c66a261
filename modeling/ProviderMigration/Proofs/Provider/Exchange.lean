import Mathlib.Logic.Relation
import ProviderMigration.Proofs.Provider.Division

/-!
# Exchanges

Whatever an edit does to a document comes down to exchanges of a few tokens, one
at a time. Each exchange takes the document down in the alphabetical order, so an
edit that changes anything is never undone by another one. This decides which
documents the edits leave alone.
-/

namespace ProviderMigration.Provider

open Text Block Relation

/-- The tokens that edits exchange, with what takes their place. -/
def exchanges : List (List Char × List Char) :=
  legacyNames.map (fun name => (name.toList, currentName.toList)) ++
    legacySources.map (fun source => (source.toList, currentSource.toList)) ++
      [("version".toList, "#version".toList)]

/-- One token exchanged in a document. -/
inductive Exchange : List Char → List Char → Prop where
  | mk {token other : List Char} (listed : (token, other) ∈ exchanges)
      (before after : List Char) : Exchange (before ++ token ++ after) (before ++ other ++ after)

variable {text other : List Char}

/-! ## The order of documents -/

/-- Whether the first characters in which two texts differ are in order. -/
def isLower : List Char → List Char → Bool
  | c :: one, d :: other => c < d || c == d && isLower one other
  | _, _ => false

theorem append_lt_append_of_isLower {one other : List Char} (lower : isLower one other = true)
    (first second : List Char) : one ++ first < other ++ second := by
  induction one generalizing other with
  | nil => contradiction
  | cons c one ih =>
      cases other with
      | nil => contradiction
      | cons d other =>
          rw [List.cons_append, List.cons_append, List.cons_lt_cons_iff]
          simp only [isLower, Bool.or_eq_true, Bool.and_eq_true, decide_eq_true_eq,
            beq_iff_eq] at lower
          rcases lower with less | ⟨same, lower⟩
          · exact .inl less
          · exact .inr ⟨same, ih lower⟩

theorem append_lt_append_left (common : List Char) {one other : List Char} (less : one < other) :
    common ++ one < common ++ other := by
  induction common with
  | nil => exact less
  | cons c common ih =>
      rw [List.cons_append, List.cons_append, List.cons_lt_cons_iff]
      exact .inr ⟨rfl, ih⟩

theorem Exchange.lt (exchange : Exchange text other) : other < text := by
  cases exchange with
  | @mk token new listed before after =>
      have lower : ∀ pair ∈ exchanges, isLower pair.2 pair.1 = true := by decide
      rw [List.append_assoc, List.append_assoc]
      apply append_lt_append_left
      exact append_lt_append_of_isLower (lower (token, new) listed) after after

theorem lt_of_transGen (chain : TransGen Exchange text other) : other < text := by
  induction chain with
  | single exchange => exact exchange.lt
  | tail _ exchange ih => exact List.lt_trans exchange.lt ih

/-- A document that exchanges lead away from is not reached again. -/
theorem eq_of_reflTransGen (chain : ReflTransGen Exchange text other)
    (back : ReflTransGen Exchange other text) : other = text := by
  rcases reflTransGen_iff_eq_or_transGen.1 chain with same | away
  · exact same
  · exact absurd (lt_of_transGen (away.trans_left back)) (List.lt_irrefl text)

/-! ## Edits as exchanges -/

theorem Exchange.append (front back : List Char) (exchange : Exchange text other) :
    Exchange (front ++ text ++ back) (front ++ other ++ back) := by
  cases exchange with
  | mk listed before after =>
      have joined := Exchange.mk listed (front ++ before) (after ++ back)
      simpa using joined

theorem reflTransGen_append (front back : List Char) (chain : ReflTransGen Exchange text other) :
    ReflTransGen Exchange (front ++ text ++ back) (front ++ other ++ back) :=
  chain.lift (fun text => front ++ text ++ back) fun _ _ => Exchange.append front back

theorem transGen_append (front back : List Char) (chain : TransGen Exchange text other) :
    TransGen Exchange (front ++ text ++ back) (front ++ other ++ back) :=
  chain.lift (fun text => front ++ text ++ back) fun _ _ => Exchange.append front back

theorem exchange_replaceFirst {token new : List Char} (listed : (token, new) ∈ exchanges)
    (present : token <:+: text) : Exchange text (replaceFirst token new text) := by
  obtain ⟨before, after, split, exchanged⟩ := exists_of_replaceFirst present new
  rw [exchanged, split]
  exact .mk listed before after

theorem reflTransGen_replaceFirst {token new : List Char} (listed : (token, new) ∈ exchanges)
    (text : List Char) : ReflTransGen Exchange text (replaceFirst token new text) := by
  by_cases present : token <:+: text
  · exact .single (exchange_replaceFirst listed present)
  · rw [replaceFirst_of_absent present]

theorem reflTransGen_foldl {tokens : List String} {new : String}
    (listed : ∀ token ∈ tokens, (token.toList, new.toList) ∈ exchanges) (text : List Char) :
    ReflTransGen Exchange text
      (tokens.foldl (fun text token => replaceFirst token.toList new.toList text) text) := by
  induction tokens generalizing text with
  | nil => exact .refl
  | cons token tokens ih =>
      have first := reflTransGen_replaceFirst (listed token List.mem_cons_self) text
      exact first.trans (ih (fun other member => listed other (List.mem_cons_of_mem _ member)) _)

theorem transGen_foldl {tokens : List String} {new : String}
    (listed : ∀ token ∈ tokens, (token.toList, new.toList) ∈ exchanges)
    (present : ∃ token ∈ tokens, token.toList <:+: text) :
    TransGen Exchange text
      (tokens.foldl (fun text token => replaceFirst token.toList new.toList text) text) := by
  induction tokens generalizing text with
  | nil =>
      obtain ⟨token, member, -⟩ := present
      contradiction
  | cons token tokens ih =>
      have others : ∀ other ∈ tokens, (other.toList, new.toList) ∈ exchanges :=
        fun other member => listed other (List.mem_cons_of_mem _ member)
      rw [List.foldl_cons]
      by_cases here : token.toList <:+: text
      · have first := exchange_replaceFirst (listed token List.mem_cons_self) here
        exact .head' first (reflTransGen_foldl others _)
      · rw [replaceFirst_of_absent here]
        apply ih others
        obtain ⟨other, member, found⟩ := present
        cases member with
        | head => exact absurd found here
        | tail _ member => exact ⟨other, member, found⟩

/-! ## Blocks that an edit leaves alone -/

/-- A block without legacy names. -/
def IsClear (block : List Char) : Prop :=
  ∀ name ∈ legacyNames, ¬ name.toList <:+: block

theorem Mention.find?_eq_none_iff {block : List Char} :
    Mention.find? block = none ↔ IsClear block := by
  simp only [Mention.find?, List.findSome?_eq_none_iff, Option.map_eq_none_iff,
    cutAt?_eq_none_iff, IsClear]

theorem Mention.spec {block : List Char} {mention : Mention}
    (found : Mention.find? block = some mention) :
    block = mention.before ++ mention.found ∧
      ∃ name ∈ legacyNames, name.toList <:+: mention.found := by
  obtain ⟨name, member, named⟩ := List.exists_of_findSome?_eq_some found
  obtain ⟨⟨before, rest⟩, cut, rfl⟩ := Option.map_eq_some_iff.1 named
  exact ⟨(append_of_cutAt? cut).symm, name, member, (prefix_of_cutAt? cut).isInfix⟩

theorem transGen_renameKeys (present : ∃ name ∈ legacyNames, name.toList <:+: text) :
    TransGen Exchange text (renameKeys text) := by
  have listed : ∀ name ∈ legacyNames, (name.toList, currentName.toList) ∈ exchanges := by decide
  exact transGen_foldl listed present

theorem reflTransGen_updateAttributes (text : List Char) :
    ReflTransGen Exchange text (updateAttributes text) := by
  have listed : ∀ source ∈ legacySources, (source.toList, currentSource.toList) ∈ exchanges := by
    decide
  have version : ("version".toList, "#version".toList) ∈ exchanges := by decide
  exact (reflTransGen_foldl listed text).trans (reflTransGen_replaceFirst version _)

/-- An edit that exchanges tokens in the blocks with a legacy name, and does
nothing to others. -/
structure Lowers (edit : List Char → Except Malformed (List Char)) : Prop where
  clear : ∀ {block}, IsClear block → edit block = .ok block
  lower : ∀ {block changed}, ¬ IsClear block → edit block = .ok changed →
    TransGen Exchange block changed

theorem editLabel_lowers : Lowers fun block => .ok (editLabel block) where
  clear clear := by
    rw [editLabel, Mention.find?_eq_none_iff.2 clear]
  lower {block changed} mentions done := by
    obtain rfl := Except.ok.inj done
    rw [← Mention.find?_eq_none_iff] at mentions
    obtain ⟨mention, found⟩ := Option.ne_none_iff_exists'.1 mentions
    obtain ⟨split, present⟩ := Mention.spec found
    rw [editLabel, found]
    have chain := transGen_append mention.before [] (transGen_renameKeys present)
    rwa [List.append_nil, List.append_nil, ← split] at chain

theorem editRequirements_lowers : Lowers editRequirements where
  clear clear := by
    rw [editRequirements, Mention.find?_eq_none_iff.2 clear]
  lower {block changed} mentions done := by
    rw [← Mention.find?_eq_none_iff] at mentions
    obtain ⟨mention, found⟩ := Option.ne_none_iff_exists'.1 mentions
    obtain ⟨split, present⟩ := Mention.spec found
    rw [editRequirements, found] at done
    dsimp only at done
    cases bounded : (Balance.ofBraces (renameKeys mention.found)).require mention.name with
    | error fault =>
        rw [bounded] at done
        contradiction
    | ok places =>
        obtain ⟨_, closing⟩ := places
        rw [bounded] at done
        obtain rfl := Except.ok.inj done
        have renamed := transGen_append mention.before [] (transGen_renameKeys present)
        have updated := reflTransGen_append mention.before
          (dropBytes closing (renameKeys mention.found))
          (reflTransGen_updateAttributes (takeBytes closing (renameKeys mention.found)))
        rw [List.append_assoc, takeBytes_append_dropBytes] at updated
        rw [List.append_nil, List.append_nil, ← split] at renamed
        exact renamed.trans_left updated

/-! ## Documents that a pass leaves alone -/

/-- Every block of a division is complete and without legacy names. -/
structure Division.Settled (division : Division) : Prop where
  complete : division.fault? = none
  clear : ∀ part ∈ division.parts, IsClear part.block

variable {edit : List Char → Except Malformed (List Char)} {division : Division}

/-- The blocks of a document without legacy names have none either. -/
theorem IsClear.block {keyword : String} {document : List Char} (clear : IsClear document)
    {part : Part} (member : part ∈ (Division.of keyword document).parts) : IsClear part.block := by
  intro name legacy within
  have inside := Division.block_within_text member
  rw [Division.text_of] at inside
  exact clear name legacy (within.trans inside)

theorem Division.settled_cons (before block : List Char) (following : Division) :
    Division.Settled { following with parts := ⟨before, block⟩ :: following.parts } ↔
      IsClear block ∧ following.Settled := by
  constructor
  · intro settled
    constructor
    · exact settled.clear _ List.mem_cons_self
    · refine ⟨settled.complete, fun part member => ?_⟩
      exact settled.clear part (List.mem_cons_of_mem _ member)
  · rintro ⟨clear, settled⟩
    refine ⟨settled.complete, fun part member => ?_⟩
    cases member with
    | head => exact clear
    | tail _ member => exact settled.clear part member

/-- Blocks without legacy names are kept up to the fault that ends a pass, if there is one. -/
theorem Lowers.edited_of_clear (lowers : Lowers edit)
    (clear : ∀ part ∈ division.parts, IsClear part.block) :
    division.edited edit = division.fault?.elim (.ok division.text) .error := by
  induction division using Division.induction with
  | nil rest fault? => cases fault? <;> rfl
  | cons before block following ih =>
      have here : IsClear block := clear ⟨before, block⟩ List.mem_cons_self
      have later := ih fun part member => clear part (List.mem_cons_of_mem _ member)
      rw [Division.edited_cons, Division.text_cons, lowers.clear here, later]
      cases following.fault? <;> rfl

theorem Lowers.edited_of_settled (lowers : Lowers edit) (settled : division.Settled) :
    division.edited edit = .ok division.text := by
  rw [lowers.edited_of_clear settled.clear, settled.complete]
  rfl

/-- A pass over a division that is not settled exchanges tokens in its text. -/
theorem Lowers.transGen_of_edited (lowers : Lowers edit) {changed : List Char}
    (done : division.edited edit = .ok changed) (unsettled : ¬ division.Settled) :
    TransGen Exchange division.text changed := by
  induction division using Division.induction generalizing changed with
  | nil rest fault? =>
      cases fault? with
      | some fault => contradiction
      | none => exact absurd ⟨rfl, fun part member => absurd member List.not_mem_nil⟩ unsettled
  | cons before block following ih =>
      obtain ⟨new, rest, edited, later, rfl⟩ := Division.exists_of_edited_cons done
      rw [Division.text_cons]
      -- The exchanges in the block come first, then those in the text that follows it.
      have behind : ¬ following.Settled →
          TransGen Exchange (before ++ new ++ following.text) (before ++ new ++ rest) := by
        intro remaining
        have chain := transGen_append (before ++ new) [] (ih later remaining)
        rwa [List.append_nil, List.append_nil] at chain
      by_cases clear : IsClear block
      · obtain rfl := Except.ok.inj (edited.symm.trans (lowers.clear clear))
        apply behind
        intro settled
        exact unsettled ((Division.settled_cons before _ following).2 ⟨clear, settled⟩)
      · have here := transGen_append before following.text (lowers.lower clear edited)
        by_cases settled : following.Settled
        · have same := Except.ok.inj (later.symm.trans (lowers.edited_of_settled settled))
          rwa [same]
        · exact here.trans (behind settled)

/-- A pass that is done has exchanged tokens. -/
theorem Lowers.reflTransGen_of_editBlocks (lowers : Lowers edit) {keyword : String}
    {document changed : List Char} (done : editBlocks keyword edit document = .ok changed) :
    ReflTransGen Exchange document changed := by
  rw [editBlocks_eq, ← Division.edited_of] at done
  by_cases settled : (Division.of keyword document).Settled
  · rw [lowers.edited_of_settled settled, Division.text_of] at done
    rw [Except.ok.inj done]
  · have chain := lowers.transGen_of_edited done settled
    rw [Division.text_of] at chain
    exact chain.to_reflTransGen

theorem Lowers.editBlocks_eq_self_iff (lowers : Lowers edit) {keyword : String}
    {document : List Char} :
    editBlocks keyword edit document = .ok document ↔ (Division.of keyword document).Settled := by
  rw [editBlocks_eq, ← Division.edited_of]
  constructor
  · intro same
    apply Classical.byContradiction
    intro unsettled
    have chain := lowers.transGen_of_edited same unsettled
    rw [Division.text_of] at chain
    exact List.lt_irrefl document (lt_of_transGen chain)
  · intro settled
    rw [lowers.edited_of_settled settled, Division.text_of]

theorem reflTransGen_of_editDeclarations {document changed : List Char}
    (done : editDeclarations document = .ok changed) : ReflTransGen Exchange document changed := by
  rw [editDeclarations] at done
  cases required : editBlocks requirementsKeyword editRequirements document with
  | error fault =>
      rw [required] at done
      contradiction
  | ok middle =>
      rw [required] at done
      have first := editRequirements_lowers.reflTransGen_of_editBlocks required
      exact first.trans (editLabel_lowers.reflTransGen_of_editBlocks done)

/-- Which documents the edits of provider declarations leave alone. -/
theorem editDeclarations_eq_self_iff {document : List Char} :
    editDeclarations document = .ok document ↔
      (Division.of requirementsKeyword document).Settled ∧
        (Division.of providerKeyword document).Settled := by
  rw [editDeclarations]
  constructor
  · intro same
    cases required : editBlocks requirementsKeyword editRequirements document with
    | error fault =>
        rw [required] at same
        contradiction
    | ok middle =>
        rw [required] at same
        have first := editRequirements_lowers.reflTransGen_of_editBlocks required
        have second := editLabel_lowers.reflTransGen_of_editBlocks same
        obtain rfl := eq_of_reflTransGen first second
        constructor
        · exact editRequirements_lowers.editBlocks_eq_self_iff.1 required
        · exact editLabel_lowers.editBlocks_eq_self_iff.1 same
  · intro settled
    rw [editRequirements_lowers.editBlocks_eq_self_iff.2 settled.1]
    exact editLabel_lowers.editBlocks_eq_self_iff.2 settled.2

end ProviderMigration.Provider
