import ProviderMigration.Identifier.Chain
import ProviderMigration.Proofs.Identifier.Composition

/-!
# Rules as passes

The rules for configurations have one shape: a text that leads to a name, a gap,
and the name, which may be quoted. Such a rule looks for its leading text and
reads on from there, whereas a pass looks for the name and back at the text in
front of it. Both rename the same sites, because a leading text neither starts a
site nor begins in a name.
-/

namespace ProviderMigration.Identifier

open Text

/-! ## Slots -/

/-- Whether a text, latest character first, ends with one of the given literals. -/
def endsWith (literals : List String) (passed : List Char) : Bool :=
  literals.any fun literal => literal.toList.reverse.isPrefixOf passed

theorem endsWith_append (some other : List String) (passed : List Char) :
    endsWith (some ++ other) passed = (endsWith some passed || endsWith other passed) :=
  List.any_append

theorem endsWith_iff {literals : List String} {passed : List Char} :
    endsWith literals passed = true ↔
      ∃ literal ∈ literals, literal.toList.reverse <+: passed := by
  simp [endsWith]

/-- The shape of a rule for configurations: the texts that lead to a name, the
least number of blanks behind them and what becomes of those, unless the name
has to follow at once, and whether the name is quoted. -/
structure Slot where
  leads : List String
  gap? : Option (Nat × Edit)
  quoted : Bool
  deriving DecidableEq, Repr

namespace Slot

variable {slot : Slot}

def namePieces (quoted : Bool) : List Piece :=
  if quoted then [.oneOf ["\""] .keep, legacyWord] else [legacyWord, underscore]

/-- The pieces behind the leading text. -/
def followingPieces (slot : Slot) : List Piece :=
  match slot.gap? with
  | none => namePieces slot.quoted
  | some (least, edit) => .blanks least edit :: namePieces slot.quoted

def pieces (slot : Slot) : List Piece :=
  .oneOf slot.leads .keep :: slot.followingPieces

/-- What becomes of a gap. -/
def gapFor (slot : Slot) (gap : List Char) : Option (List Char) :=
  match slot.gap? with
  | none => if gap = [] then some [] else none
  | some (least, edit) => if least ≤ gap.length then some (edit.apply gap) else none

theorem gapFor_of_none {gap new : List Char} (given : slot.gap? = none) :
    slot.gapFor gap = some new ↔ gap = [] ∧ new = [] := by
  rw [gapFor, given, Option.ite_none_right_eq_some, Option.some.injEq, eq_comm (a := [])]

theorem gapFor_of_some {gap new : List Char} {least : Nat} {edit : Edit}
    (given : slot.gap? = some (least, edit)) :
    slot.gapFor gap = some new ↔ least ≤ gap.length ∧ edit.apply gap = new := by
  rw [gapFor, given, Option.ite_none_right_eq_some, Option.some.injEq]

/-- The filling of a rule. -/
def filling (slot : Slot) : Filling := fun passed gap quoted =>
  if endsWith slot.leads passed && quoted == slot.quoted then slot.gapFor gap else none

/-- Whether no end of a text shares its start with a legacy or a current word,
when all are read backwards. -/
def unspelled : List Char → Bool
  | [] => true
  | c :: text =>
      ((currentWord :: legacyWords).all fun word =>
        !(c :: text).isPrefixOf word.reverse && !word.reverse.isPrefixOf (c :: text)) &&
      unspelled text

/-- Whether a text leads to names only: it starts no site, ends no gap, and has no
part in a name. -/
def isLead (lead : List Char) : Bool :=
  !lead.isEmpty && lead.all (fun c => isPlain c && !isBarrier c) && unspelled lead.reverse

/-- A slot whose leading texts can be told from each other and from names, and
whose gaps stay gaps. -/
structure Proper (slot : Slot) : Prop where
  lead : ∀ lead ∈ slot.leads, isLead lead.toList = true
  separate : ∀ one ∈ slot.leads, ∀ other ∈ slot.leads, one.toList <+: other.toList → one = other
  blank : ∀ least text, slot.gap? = some (least, .replace text) →
    ∀ c ∈ text.toList, isBlank c = true

theorem not_prefix_of_unspelled {lead word : List Char} (strange : unspelled lead = true)
    (nonempty : lead ≠ []) (known : word ∈ currentWord :: legacyWords) (passed : List Char) :
    ¬ lead <+: word.reverse ++ passed := by
  cases lead with
  | nil => exact absurd rfl nonempty
  | cons c lead =>
      intro here
      simp only [unspelled, Bool.and_eq_true, List.all_eq_true, Bool.not_eq_true'] at strange
      have apart := strange.1 word known
      rcases List.prefix_or_prefix_of_prefix here (List.prefix_append _ _) with short | long
      · rw [List.isPrefixOf_iff_prefix.2 short] at apart
        exact Bool.noConfusion apart.1
      · rw [List.isPrefixOf_iff_prefix.2 long] at apart
        exact Bool.noConfusion apart.2

theorem isPrefixOf_of_alike {passed other : List Char} (alike : Alike passed other)
    {lead : List Char} (strange : unspelled lead = true) :
    lead.isPrefixOf passed = lead.isPrefixOf other := by
  induction alike generalizing lead with
  | same passed => rfl
  | renamed legacy passed other =>
      by_cases empty : lead = []
      · rw [empty]
        rfl
      · have one := not_prefix_of_unspelled strange empty (List.mem_cons_of_mem _ legacy) passed
        have two := not_prefix_of_unspelled strange empty List.mem_cons_self other
        rw [← List.isPrefixOf_iff_prefix, Bool.not_eq_true] at one two
        rw [one, two]
  | cons c alike ih =>
      cases lead with
      | nil => rfl
      | cons d lead =>
          simp only [unspelled, Bool.and_eq_true] at strange
          rw [List.isPrefixOf_cons_cons, List.isPrefixOf_cons_cons, ih strange.2]

theorem Proper.gapFor_blank (proper : slot.Proper) {gap new : List Char}
    (blank : ∀ c ∈ gap, isBlank c = true) (filled : slot.gapFor gap = some new) :
    ∀ c ∈ new, isBlank c = true := by
  cases given : slot.gap? with
  | none =>
      obtain ⟨-, rfl⟩ := (gapFor_of_none given).1 filled
      exact List.forall_mem_nil _
  | some bound =>
      obtain ⟨least, edit⟩ := bound
      obtain ⟨-, rfl⟩ := (gapFor_of_some given).1 filled
      cases edit with
      | keep => exact blank
      | replace text => exact proper.blank least text given

theorem ne_nil_of_isLead {lead : List Char} (leads : isLead lead = true) : lead ≠ [] := by
  rintro rfl
  exact absurd leads (by decide)

theorem reverse_ne_cons_of_isLead {lead passed : List Char} {c : Char} (leads : isLead lead = true)
    (barrier : isBarrier c = true) : lead.reverse.isPrefixOf (c :: passed) = false := by
  rw [← Bool.not_eq_true, List.isPrefixOf_iff_prefix]
  intro here
  simp only [isLead, Bool.and_eq_true, Bool.not_eq_true', List.all_eq_true] at leads
  cases reversed : lead.reverse with
  | nil => simp_all
  | cons d rest =>
      rw [reversed, List.cons_prefix_cons] at here
      have member : d ∈ lead := by
        rw [← List.mem_reverse, reversed]
        exact List.mem_cons_self
      have free := (leads.1.2 d member).2
      rw [here.1, barrier] at free
      exact Bool.noConfusion free

theorem Proper.lawful (proper : slot.Proper) : slot.filling.Lawful where
  blank blank filled := by
    rw [filling] at filled
    split at filled
    next => exact proper.gapFor_blank blank filled
    next => contradiction
  barrier {c passed gap quoted} barrier := by
    have missed : endsWith slot.leads (c :: passed) = false := by
      rw [endsWith, List.any_eq_false]
      intro lead member
      rw [reverse_ne_cons_of_isLead (proper.lead lead member) barrier]
      exact Bool.noConfusion
    rw [filling, missed]
    rfl
  alike {passed other} alike gap quoted := by
    have same : endsWith slot.leads passed = endsWith slot.leads other := by
      rw [endsWith, endsWith, Bool.eq_iff_iff, List.any_eq_true, List.any_eq_true]
      refine exists_congr fun lead => and_congr_right fun member => ?_
      have leads := proper.lead lead member
      simp only [isLead, Bool.and_eq_true] at leads
      rw [isPrefixOf_of_alike alike leads.2]
    rw [filling, filling, same]

/-! ## Reading a name -/

def closing (quoted : Bool) : List Char := if quoted then [] else ['_']

theorem mark_eq_append (site : Site) :
    site.mark = site.gap ++ (site.quote ++ site.word ++ closing site.quoted) :=
  rfl

theorem length_mark (site : Site) :
    site.mark.length =
      site.gap.length + (site.quote ++ site.word ++ closing site.quoted).length :=
  List.length_append

theorem find?_legacyWord {pieces : List Piece} {text : List Char} {found : Match} :
    Match.find? text (legacyWord :: pieces) = some found ↔
      ∃ word ∈ legacyWords, ∃ rest following, text = word ++ rest ∧
        Match.find? rest pieces = some following ∧
        found = ⟨currentWord ++ following.emitted, word.length + following.length⟩ := by
  have separate : ∀ one ∈ ["metal", "packet"], ∀ other ∈ ["metal", "packet"],
      one.toList <+: other.toList → one = other := by decide
  have words : legacyWords = ["metal", "packet"].map String.toList := rfl
  rw [legacyWord, Match.find?_oneOf separate, words]
  constructor
  · rintro ⟨literal, member, rest, following, split, read, rfl⟩
    exact ⟨literal.toList, List.mem_map_of_mem member, rest, following, split, read, rfl⟩
  · rintro ⟨word, legacy, rest, following, split, read, rfl⟩
    obtain ⟨literal, member, rfl⟩ := List.mem_map.1 legacy
    exact ⟨literal, member, rest, following, split, read, rfl⟩

theorem find?_namePieces {quoted : Bool} {text : List Char} {found : Match} :
    Match.find? text (namePieces quoted) = some found ↔
      ∃ word ∈ legacyWords, ∃ rest,
        text = (if quoted then ['"'] else []) ++ word ++ closing quoted ++ rest ∧
        found = ⟨(if quoted then ['"'] else []) ++ currentWord ++ closing quoted,
          ((if quoted then ['"'] else []) ++ word ++ closing quoted).length⟩ := by
  have quote : "\"".toList = ['"'] := rfl
  have mark : "_".toList = ['_'] := rfl
  have kept : ∀ read, Edit.keep.apply read = read := fun _ => rfl
  cases quoted with
  | true =>
      rw [namePieces, if_pos rfl, Match.find?_literal]
      simp only [find?_legacyWord, Match.find?_nil_iff, kept, quote, closing, if_true]
      constructor
      · rintro ⟨_, _, rfl, ⟨word, legacy, rest, _, rfl, rfl, rfl⟩, rfl⟩
        exact ⟨word, legacy, rest, by simp, by simp [Nat.add_comm]⟩
      · rintro ⟨word, legacy, rest, rfl, rfl⟩
        exact ⟨word ++ rest, _, by simp, ⟨word, legacy, rest, _, rfl, rfl, rfl⟩,
          by simp [Nat.add_comm]⟩
  | false =>
      rw [namePieces, if_neg Bool.false_ne_true, underscore, find?_legacyWord]
      simp only [Match.find?_literal, Match.find?_nil_iff, kept, mark, closing,
        Bool.false_eq_true, if_false]
      constructor
      · rintro ⟨word, legacy, _, _, rfl, ⟨rest, _, rfl, rfl, rfl⟩, rfl⟩
        exact ⟨word, legacy, rest, by simp, by simp⟩
      · rintro ⟨word, legacy, rest, rfl, rfl⟩
        exact ⟨word, legacy, '_' :: rest, _, by simp, ⟨rest, _, rfl, rfl, rfl⟩, by simp⟩

/-- A name that is read at once is that of a site without a gap. -/
theorem find?_namePieces_iff_site {quoted : Bool} {text : List Char} {found : Match} :
    Match.find? text (namePieces quoted) = some found ↔
      ∃ site, Site.find? text = some site ∧ site.quoted = quoted ∧ site.gap = [] ∧
        found = ⟨site.quote ++ currentWord ++ closing quoted, site.mark.length⟩ := by
  rw [find?_namePieces]
  constructor
  · rintro ⟨word, legacy, rest, rfl, rfl⟩
    refine ⟨⟨[], quoted, word⟩, ?_, rfl, rfl, rfl⟩
    rw [Site.find?_eq_some_iff]
    refine ⟨⟨List.forall_mem_nil _, legacy⟩, rest, ?_⟩
    rw [Site.mark, List.nil_append]
    rfl
  · rintro ⟨site, here, rfl, empty, rfl⟩
    obtain ⟨valid, rest, rfl⟩ := Site.find?_eq_some_iff.1 here
    rw [Site.mark, empty, List.nil_append]
    exact ⟨site.word, valid.legacy, rest, rfl, rfl⟩

/-- A name that is read behind all blanks is that of a site whose gap they are. -/
theorem find?_namePieces_dropWhile {quoted : Bool} {text : List Char} {found : Match} :
    Match.find? (text.dropWhile isBlank) (namePieces quoted) = some found ↔
      ∃ site, Site.find? text = some site ∧ site.quoted = quoted ∧
        text.takeWhile isBlank = site.gap ∧
        found = ⟨site.quote ++ currentWord ++ closing quoted,
          (site.quote ++ site.word ++ closing quoted).length⟩ := by
  have divided := List.takeWhile_append_dropWhile (p := isBlank) (l := text)
  rw [find?_namePieces]
  constructor
  · rintro ⟨word, legacy, rest, joined, rfl⟩
    refine ⟨⟨text.takeWhile isBlank, quoted, word⟩, ?_, rfl, rfl, rfl⟩
    rw [Site.find?_eq_some_iff]
    refine ⟨⟨fun c member => List.all_eq_true.1 List.all_takeWhile c member, legacy⟩, rest, ?_⟩
    rw [joined] at divided
    rw [mark_eq_append, List.append_assoc]
    exact divided
  · rintro ⟨site, here, rfl, run, rfl⟩
    obtain ⟨valid, rest, rfl⟩ := Site.find?_eq_some_iff.1 here
    rw [run] at divided
    refine ⟨site.word, valid.legacy, rest, List.append_cancel_left (divided.trans ?_), rfl⟩
    rw [mark_eq_append, List.append_assoc]
    rfl

/-- Behind its leading text, a rule reads the site there, if its gap will do. -/
theorem find?_followingPieces {text : List Char} {found : Match} :
    Match.find? text slot.followingPieces = some found ↔
      ∃ site gap, Site.find? text = some site ∧ site.quoted = slot.quoted ∧
        slot.gapFor site.gap = some gap ∧
        found = ⟨gap ++ (site.quote ++ currentWord ++ closing site.quoted), site.mark.length⟩ := by
  rw [followingPieces]
  cases given : slot.gap? with
  | none =>
      simp only [gapFor_of_none given, find?_namePieces_iff_site]
      constructor
      · rintro ⟨site, here, same, empty, rfl⟩
        exact ⟨site, [], here, same, ⟨empty, rfl⟩, by rw [same]; rfl⟩
      · rintro ⟨site, gap, here, same, ⟨empty, rfl⟩, rfl⟩
        exact ⟨site, here, same, empty, by rw [same]; rfl⟩
  | some bound =>
      obtain ⟨least, edit⟩ := bound
      simp only [gapFor_of_some given, Match.find?_blanks, find?_namePieces_dropWhile]
      constructor
      · rintro ⟨enough, following, ⟨site, here, same, run, rfl⟩, rfl⟩
        rw [run] at enough ⊢
        refine ⟨site, edit.apply site.gap, here, same, ⟨enough, rfl⟩, ?_⟩
        rw [length_mark, same]
      · rintro ⟨site, gap, here, same, ⟨enough, rfl⟩, rfl⟩
        obtain ⟨valid, rest, rfl⟩ := Site.find?_eq_some_iff.1 here
        have run := valid.takeWhile_mark_append rest
        rw [run]
        refine ⟨enough, _, ⟨site, here, same, rfl, rfl⟩, ?_⟩
        rw [length_mark, same]

/-! ## Two ways to look for a name -/

/-- No leading text that begins in front of a place ends behind it with a name
to follow. -/
def Settled (slot : Slot) (passed text : List Char) : Prop :=
  ∀ lead ∈ slot.leads, ∀ front back rest, lead.toList = front ++ back → front ≠ [] →
    front.reverse <+: passed → text = back ++ rest →
      Match.find? rest slot.followingPieces = none

theorem isCalm_of_isLead {lead : List Char} (leads : isLead lead = true) :
    Filling.isCalm lead = true := by
  simp only [isLead, Bool.and_eq_true, List.all_eq_true] at leads
  have plain := leads.1.2
  clear leads
  fun_induction Filling.isCalm lead with
  | case1 c d lead ih =>
      rw [Bool.and_eq_true, Bool.or_eq_true]
      exact ⟨.inl (plain d (by simp)).1, ih fun e member => plain e (by simp [member])⟩
  | case2 lead short => rfl

theorem unspelled_of_append {text more : List Char} (strange : unspelled (text ++ more) = true) :
    unspelled more = true := by
  induction text with
  | nil => exact strange
  | cons c text ih =>
      rw [List.cons_append, unspelled, Bool.and_eq_true] at strange
      exact ih strange.2

/-- No leading text begins in a name. -/
theorem Proper.settled_of_site (proper : slot.Proper) {site : Site} (valid : site.Valid)
    (passed text : List Char) :
    slot.Settled ((closing site.quoted).reverse ++ (site.stretch.reverse ++ passed)) text := by
  intro lead member front back rest split nonempty here
  have leads := proper.lead lead member
  simp only [isLead, Bool.and_eq_true, List.all_eq_true, Bool.not_eq_true'] at leads
  exfalso
  cases quoted : site.quoted with
  | true =>
      have strange := leads.2
      rw [split, List.reverse_append] at strange
      rw [quoted, Site.stretch, List.reverse_append, List.reverse_append, List.append_assoc,
        List.append_assoc] at here
      exact not_prefix_of_unspelled (unspelled_of_append strange) (by simpa using nonempty)
        (List.mem_cons_of_mem _ valid.legacy) _ here
  | false =>
      cases reversed : front.reverse with
      | nil => exact nonempty (List.reverse_eq_nil_iff.1 reversed)
      | cons d front' =>
          have inside : d ∈ lead.toList := by
            rw [split, List.mem_append, ← List.mem_reverse, reversed]
            exact .inl List.mem_cons_self
          rw [quoted, reversed] at here
          have underscore : d = '_' := (List.cons_prefix_cons.1 here).1
          have free := (leads.1.2 d inside).2
          rw [underscore] at free
          exact absurd free (by decide)

theorem Settled.cons {passed rest : List Char} {c : Char}
    (settled : slot.Settled passed (c :: rest))
    (missed : ∀ lead ∈ slot.leads, ∀ after, c :: rest = lead.toList ++ after →
      Match.find? after slot.followingPieces = none) :
    slot.Settled (c :: passed) rest := by
  intro lead member front back after split nonempty here joined
  cases reversed : front.reverse with
  | nil => exact absurd (List.reverse_eq_nil_iff.1 reversed) nonempty
  | cons d earlier =>
      rw [reversed, List.cons_prefix_cons] at here
      obtain ⟨rfl, here⟩ := here
      have front_eq : front = earlier.reverse ++ [d] := by
        rw [← List.reverse_reverse front, reversed, List.reverse_cons]
      by_cases first : earlier = []
      · apply missed lead member
        rw [split, front_eq, first, joined]
        rfl
      · apply settled lead member earlier.reverse (d :: back) after
        · rw [split, front_eq, List.append_assoc]
          rfl
        · simpa using first
        · rwa [List.reverse_reverse]
        · rw [joined]
          rfl

theorem filling_eq_some_iff {passed gap new : List Char} {quoted : Bool} :
    slot.filling passed gap quoted = some new ↔
      (∃ lead ∈ slot.leads, lead.toList.reverse <+: passed) ∧ quoted = slot.quoted ∧
        slot.gapFor gap = some new := by
  rw [filling, ← endsWith_iff]
  by_cases leads : endsWith slot.leads passed = true <;> by_cases same : quoted = slot.quoted <;>
    simp [leads, same]

/-- Whether a rule reads as the slot does. -/
def Describes (slot : Slot) (rule : Rule) : Prop :=
  ∀ text, rule.match? text = Match.find? text slot.pieces

theorem Proper.match?_eq_some_iff (proper : slot.Proper) {rule : Rule}
    (describes : slot.Describes rule) {text : List Char} {found : Match} :
    rule.match? text = some found ↔
      ∃ lead ∈ slot.leads, ∃ (site : Site) (gap after : List Char),
        text = lead.toList ++ (site.mark ++ after) ∧ site.Valid ∧
        site.quoted = slot.quoted ∧ slot.gapFor site.gap = some gap ∧
        found = ⟨lead.toList ++ (gap ++ (site.quote ++ currentWord ++ closing site.quoted)),
          (lead.toList ++ site.mark).length⟩ := by
  rw [describes, pieces, Match.find?_oneOf proper.separate]
  constructor
  · rintro ⟨lead, member, rest, following, rfl, named, rfl⟩
    obtain ⟨site, gap, here, same, filled, rfl⟩ := find?_followingPieces.1 named
    obtain ⟨valid, after, rfl⟩ := Site.find?_eq_some_iff.1 here
    exact ⟨lead, member, site, gap, after, rfl, valid, same, filled,
      congrArg (Match.mk _) List.length_append.symm⟩
  · rintro ⟨lead, member, site, gap, after, rfl, valid, same, filled, rfl⟩
    have here := Site.find?_eq_some_iff.2 ⟨valid, List.prefix_append site.mark after⟩
    exact ⟨lead, member, site.mark ++ after, _, rfl,
      find?_followingPieces.2 ⟨site, gap, here, same, filled, rfl⟩,
      congrArg (Match.mk _) List.length_append⟩

/-- A text that a rule of this shape reads. -/
def Reads (slot : Slot) (stretch : List Char) : Prop :=
  ∃ lead ∈ slot.leads, ∃ (site : Site) (gap : List Char), site.Valid ∧
    site.quoted = slot.quoted ∧ slot.gapFor site.gap = some gap ∧
      stretch = lead.toList ++ site.mark

theorem Proper.reads_of_match? (proper : slot.Proper) {rule : Rule}
    (describes : slot.Describes rule) {text : List Char} {found : Match}
    (here : rule.match? text = some found) : ∃ stretch, slot.Reads stretch ∧ stretch <+: text := by
  obtain ⟨lead, member, site, gap, after, rfl, valid, same, filled, -⟩ :=
    (proper.match?_eq_some_iff describes).1 here
  refine ⟨lead.toList ++ site.mark, ⟨lead, member, site, gap, valid, same, filled, rfl⟩, ?_⟩
  rw [← List.append_assoc]
  exact List.prefix_append _ _

/-- Where a text can be read, its pass renames a site. -/
theorem Reads.exists_at? {stretch text : List Char} (reads : slot.Reads stretch)
    (within : stretch <:+: text) :
    ∃ before after, text = before ++ after ∧ slot.filling.at? before.reverse after ≠ none := by
  obtain ⟨lead, member, site, gap, valid, same, filled, rfl⟩ := reads
  obtain ⟨before, after, rfl⟩ := within
  refine ⟨before ++ lead.toList, site.mark ++ after, by simp only [List.append_assoc], ?_⟩
  have renamed : slot.filling.at? (before ++ lead.toList).reverse (site.mark ++ after) =
      some (site, gap) := by
    rw [Filling.at?_eq_some_iff, Site.find?_eq_some_iff, filling_eq_some_iff, List.reverse_append]
    exact ⟨⟨valid, List.prefix_append _ _⟩, ⟨lead, member, List.prefix_append _ _⟩, same, filled⟩
  rw [renamed]
  exact Option.some_ne_none _

theorem exists_reads_of_at? {before after gap : List Char} {site : Site}
    (renamed : slot.filling.at? before.reverse after = some (site, gap)) :
    ∃ stretch, slot.Reads stretch ∧ stretch <:+: before ++ after := by
  rw [Filling.at?_eq_some_iff, Site.find?_eq_some_iff, filling_eq_some_iff] at renamed
  obtain ⟨⟨valid, rest, rfl⟩, ⟨lead, member, leads⟩, same, filled⟩ := renamed
  rw [List.reverse_prefix] at leads
  obtain ⟨front, rfl⟩ := leads
  refine ⟨_, ⟨lead, member, site, gap, valid, same, filled, rfl⟩, front, rest, ?_⟩
  simp only [List.append_assoc]

/-- A pass copies a leading text and renames the name that follows it. -/
theorem Proper.pass_lead (proper : slot.Proper) {lead : String} (member : lead ∈ slot.leads)
    {site : Site} (valid : site.Valid) (same : site.quoted = slot.quoted) {gap : List Char}
    (filled : slot.gapFor site.gap = some gap) (passed after : List Char) :
    slot.filling.pass passed (lead.toList ++ (site.mark ++ after)) =
      lead.toList ++ (gap ++ (site.quote ++ currentWord ++ closing site.quoted)) ++
        slot.filling.pass ((closing site.quoted).reverse ++
          (site.stretch.reverse ++ (lead.toList.reverse ++ passed))) after := by
  have leads := proper.lead lead member
  have parts : site.mark ++ after = site.stretch ++ (closing site.quoted ++ after) := by
    simp [Site.mark, Site.stretch, closing]
  have start : slot.filling.at? passed (lead.toList ++ (site.mark ++ after)) = none := by
    simp only [isLead, Bool.and_eq_true, List.all_eq_true] at leads
    cases chars : lead.toList with
    | nil => simp [chars] at leads
    | cons c rest => exact Filling.at?_of_isPlain (leads.1.2 c (by simp [chars])).1
  have here : slot.filling.at? (lead.toList.reverse ++ passed)
      (site.stretch ++ (closing site.quoted ++ after)) = some (site, gap) := by
    rw [Filling.at?_eq_some_iff, ← parts, Site.find?_eq_some_iff, filling_eq_some_iff]
    exact ⟨⟨valid, List.prefix_append _ _⟩, ⟨lead, member, List.prefix_append _ _⟩, same, filled⟩
  have close : ∀ passed, slot.filling.pass passed (closing site.quoted ++ after) =
      closing site.quoted ++ slot.filling.pass ((closing site.quoted).reverse ++ passed) after := by
    intro passed
    cases site.quoted with
    | true => rfl
    | false => exact Filling.pass_cons (Filling.at?_of_isPlain (by decide))
  rw [proper.lawful.pass_append start (isCalm_of_isLead leads), parts, Filling.pass_site here,
    close]
  simp only [List.append_assoc]

/-- No leading text ends where none is open. -/
theorem Settled.at?_eq_none {passed text : List Char} (settled : slot.Settled passed text)
    (proper : slot.Proper) : slot.filling.at? passed text = none := by
  rw [Filling.at?_eq_none_iff]
  intro site found
  rw [Option.eq_none_iff_forall_ne_some]
  intro gap filled
  obtain ⟨⟨lead, member, leads⟩, same, filled⟩ := filling_eq_some_iff.1 filled
  have named := find?_followingPieces.2 ⟨site, gap, found, same, filled, rfl⟩
  have missed := settled lead member lead.toList [] text (by simp)
    (ne_nil_of_isLead (proper.lead lead member)) leads rfl
  exact nomatch missed.symm.trans named

/-- Where a rule reads nothing, no leading text has a name behind it. -/
theorem Proper.find?_followingPieces_eq_none (proper : slot.Proper) {rule : Rule}
    (describes : slot.Describes rule) {lead : String} {after : List Char}
    (missed : rule.match? (lead.toList ++ after) = none) (member : lead ∈ slot.leads) :
    Match.find? after slot.followingPieces = none := by
  rw [Option.eq_none_iff_forall_ne_some]
  intro following named
  rw [describes, pieces, Option.eq_none_iff_forall_ne_some] at missed
  exact missed _ ((Match.find?_oneOf proper.separate).2
    ⟨lead, member, after, following, rfl, named, rfl⟩)

/-- A rule renames the sites that its pass renames. -/
theorem Proper.editEvery_eq_pass_of_settled (proper : slot.Proper) {rule : Rule}
    (describes : slot.Describes rule) {passed text : List Char}
    (settled : slot.Settled passed text) :
    rule.editEvery text = slot.filling.pass passed text := by
  induction size : text.length using Nat.strongRecOn generalizing text passed with
  | ind length ih =>
  subst size
  cases here : rule.match? text with
  | some found =>
      obtain ⟨lead, member, site, gap, after, rfl, valid, same, filled, rfl⟩ :=
        (proper.match?_eq_some_iff describes).1 here
      have marked : site.mark ≠ [] := by
        obtain ⟨c, rest, mark, -⟩ := valid.exists_mark_eq_cons
        rw [mark]
        exact List.cons_ne_nil c rest
      have shorter : after.length < (lead.toList ++ (site.mark ++ after)).length := by
        have positive := List.length_pos_iff.2 marked
        rw [List.length_append, List.length_append]
        omega
      rw [proper.pass_lead member valid same filled, ← List.append_assoc lead.toList,
        Rule.editEvery_of_some (List.append_ne_nil_of_right_ne_nil _ marked)
          (by rwa [List.append_assoc]) rfl,
        ih after.length shorter (proper.settled_of_site valid _ _) rfl]
  | none =>
      cases text with
      | nil => simp
      | cons c rest =>
          have missed : ∀ lead ∈ slot.leads, ∀ after, c :: rest = lead.toList ++ after →
              Match.find? after slot.followingPieces = none := by
            intro lead member after joined
            exact proper.find?_followingPieces_eq_none describes (joined ▸ here) member
          rw [Rule.editEvery_cons_of_none here, Filling.pass_cons (settled.at?_eq_none proper),
            ih rest.length (by simp) (settled.cons missed) rfl]

theorem Proper.editEvery_eq_pass (proper : slot.Proper) {rule : Rule}
    (describes : slot.Describes rule) (text : List Char) :
    rule.editEvery text = slot.filling.pass [] text := by
  apply proper.editEvery_eq_pass_of_settled describes
  intro lead member front back rest split nonempty here
  rw [List.prefix_nil, List.reverse_eq_nil_iff] at here
  exact absurd here nonempty

end Slot

end ProviderMigration.Identifier
