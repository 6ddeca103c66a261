import ProviderMigration.Proofs.Identifier.Site

/-!
# Passes

A pass goes over a text once, from left to right. It knows the text in front of
the place where it stands, and may rename the site there. What it renames looks
like no legacy name and ends no context in which another name is renamed, so every
pass leaves the renamed sites of another one alone, and finds the same sites
everywhere else.
-/

namespace ProviderMigration.Identifier

open Text

/-! ## Fillings and their passes -/

/-- What a pass makes of a site: the blanks that take the place of its gap, if
the site is renamed at all. The text in front of the gap is given with its latest
character first. -/
abbrev Filling := (passed gap : List Char) → (quoted : Bool) → Option (List Char)

namespace Filling

variable {filling first second : Filling}

/-- The site at the start of a text that is renamed, and its new gap. -/
def at? (filling : Filling) (passed text : List Char) : Option (Site × List Char) := do
  let site ← Site.find? text
  let gap ← filling passed site.gap site.quoted
  return (site, gap)

/-- The text with every site renamed that the filling has a gap for. -/
def pass (filling : Filling) (passed : List Char) : List Char → List Char
  | [] => []
  | c :: rest =>
      match filling.at? passed (c :: rest) with
      | some (site, gap) =>
          gap ++ (site.quote ++ currentWord) ++
            pass filling (site.stretch.reverse ++ passed) (rest.drop (site.stretch.length - 1))
      | none => c :: pass filling (c :: passed) rest
termination_by text => text.length

theorem at?_eq_some_iff {passed text gap : List Char} {site : Site} :
    filling.at? passed text = some (site, gap) ↔
      Site.find? text = some site ∧ filling passed site.gap site.quoted = some gap := by
  simp only [at?, Option.bind_eq_bind, Option.bind_eq_some_iff, Option.pure_def,
    Option.some.injEq, Prod.mk.injEq]
  constructor
  · rintro ⟨_, found, _, filled, rfl, rfl⟩
    exact ⟨found, filled⟩
  · rintro ⟨found, filled⟩
    exact ⟨site, found, gap, filled, rfl, rfl⟩

theorem at?_eq_none_iff {passed text : List Char} :
    filling.at? passed text = none ↔
      ∀ site, Site.find? text = some site → filling passed site.gap site.quoted = none := by
  rw [at?]
  cases Site.find? text with
  | none => simp
  | some site =>
      cases filled : filling passed site.gap site.quoted <;> simp [filled]

@[simp] theorem pass_nil (passed : List Char) : filling.pass passed [] = [] := by
  rw [pass]

theorem pass_cons {passed rest : List Char} {c : Char}
    (still : filling.at? passed (c :: rest) = none) :
    filling.pass passed (c :: rest) = c :: filling.pass (c :: passed) rest := by
  rw [pass, still]

theorem pass_site {passed after gap : List Char} {site : Site}
    (here : filling.at? passed (site.stretch ++ after) = some (site, gap)) :
    filling.pass passed (site.stretch ++ after) =
      gap ++ (site.quote ++ currentWord) ++
        filling.pass (site.stretch.reverse ++ passed) after := by
  have positive := (Site.find?_eq_some_iff.1 (at?_eq_some_iff.1 here).1).1.length_stretch_pos
  cases joined : site.stretch ++ after with
  | nil => simp_all
  | cons c rest =>
      have following : rest.drop (site.stretch.length - 1) = after := by
        have dropped := congrArg (List.drop site.stretch.length) joined
        rw [List.drop_left] at dropped
        rw [dropped, ← Nat.sub_add_cancel positive]
        simp
      rw [joined] at here
      rw [pass, here]
      dsimp only
      rw [following]

/-- A pass renames the site where it stands, or it goes on by one character. -/
theorem induction (filling : Filling) {motive : List Char → List Char → Prop}
    (nil : ∀ passed, motive passed [])
    (site : ∀ passed site gap after,
      filling.at? passed (site.stretch ++ after) = some (site, gap) →
        motive (site.stretch.reverse ++ passed) after → motive passed (site.stretch ++ after))
    (cons : ∀ passed c rest, filling.at? passed (c :: rest) = none →
      motive (c :: passed) rest → motive passed (c :: rest))
    (passed text : List Char) : motive passed text := by
  induction size : text.length using Nat.strongRecOn generalizing text passed with
  | ind length ih =>
  subst size
  cases here : filling.at? passed text with
  | some found =>
      obtain ⟨place, gap⟩ := found
      obtain ⟨found, -⟩ := at?_eq_some_iff.1 here
      obtain ⟨after, rfl⟩ := Site.exists_append_of_find? found
      have positive := (Site.find?_eq_some_iff.1 found).1.length_stretch_pos
      exact site passed place gap after here (ih after.length (by simpa using positive) _ after rfl)
  | none =>
      cases text with
      | nil => exact nil passed
      | cons c rest => exact cons passed c rest here (ih rest.length (by simp) _ rest rfl)

end Filling

/-! ## Places where nothing is renamed -/

/-- A character after which no lawful filling renames a site. -/
def isBarrier (c : Char) : Bool := isBlank c || c == '"' || c == '_'

/-- Two texts that a context cannot tell apart: one has a legacy word where the
other has the current one, and the same characters follow. -/
inductive Alike : List Char → List Char → Prop where
  | same (passed : List Char) : Alike passed passed
  | renamed {word : List Char} (legacy : word ∈ legacyWords) (passed other : List Char) :
      Alike (word.reverse ++ passed) (currentWord.reverse ++ other)
  | cons (c : Char) {passed other : List Char} :
      Alike passed other → Alike (c :: passed) (c :: other)

theorem Alike.append {passed other : List Char} (alike : Alike passed other) :
    (text : List Char) → Alike (text ++ passed) (text ++ other)
  | [] => alike
  | c :: text => .cons c (alike.append text)

namespace Filling

variable {filling first second : Filling}

/-- What the fillings of renaming rules have in common. -/
structure Lawful (filling : Filling) : Prop where
  blank : ∀ {passed gap new : List Char} {quoted : Bool}, (∀ c ∈ gap, isBlank c = true) →
    filling passed gap quoted = some new → ∀ c ∈ new, isBlank c = true
  barrier : ∀ {c : Char} {passed gap : List Char} {quoted : Bool},
    isBarrier c = true → filling (c :: passed) gap quoted = none
  alike : ∀ {passed other : List Char}, Alike passed other → ∀ (gap : List Char) (quoted : Bool),
    filling passed gap quoted = filling other gap quoted

theorem at?_of_isPlain {passed rest : List Char} {c : Char} (plain : isPlain c = true) :
    filling.at? passed (c :: rest) = none := by
  rw [at?, Site.find?_of_isPlain plain]
  rfl

theorem Lawful.at?_of_isBarrier (lawful : filling.Lawful) {passed text : List Char} {c : Char}
    (barrier : isBarrier c = true) : filling.at? (c :: passed) text = none := by
  rw [at?_eq_none_iff]
  intro site found
  exact lawful.barrier barrier

/-- Whether no site is renamed behind the first character of a text, for the
reason that each character starts no site or comes after a barrier. -/
def isCalm : List Char → Bool
  | c :: d :: text => (isPlain d || isBarrier c) && isCalm (d :: text)
  | _ => true

/-- A pass copies a text in which no site is renamed. -/
theorem Lawful.pass_append (lawful : filling.Lawful) {passed text after : List Char}
    (still : filling.at? passed (text ++ after) = none) (calm : isCalm text = true) :
    filling.pass passed (text ++ after) =
      text ++ filling.pass (text.reverse ++ passed) after := by
  fun_induction isCalm text generalizing passed with
  | case1 c d text ih =>
      simp only [Bool.and_eq_true, Bool.or_eq_true] at calm
      have next : filling.at? (c :: passed) (d :: text ++ after) = none := by
        rcases calm.1 with plain | barrier
        · exact at?_of_isPlain plain
        · exact lawful.at?_of_isBarrier barrier
      calc
        filling.pass passed (c :: d :: text ++ after) =
            c :: filling.pass (c :: passed) (d :: text ++ after) := pass_cons still
        _ = c :: (d :: text ++ filling.pass ((d :: text).reverse ++ c :: passed) after) := by
          rw [ih next calm.2]
        _ = _ := by simp
  | case2 text short =>
      cases text with
      | nil => rfl
      | cons c text =>
          cases text with
          | nil => exact pass_cons still
          | cons d text => exact absurd rfl (short c d text)

theorem isCalm_append_of_isBlank {gap text : List Char} (blank : ∀ c ∈ gap, isBlank c = true)
    (calm : isCalm text = true) : isCalm (gap ++ text) = true := by
  induction gap with
  | nil => exact calm
  | cons c gap ih =>
      have here : isBarrier c = true := by simp [isBarrier, blank c (by simp)]
      have later := ih fun d member => blank d (by simp [member])
      cases joined : gap ++ text with
      | nil => simp [joined, isCalm]
      | cons d rest =>
          rw [joined] at later
          simp [joined, isCalm, here, later]

/-- Whether a text, and every end of it, starts neither a site nor a current
word. -/
def apart : List Char → Bool
  | [] => true
  | c :: text =>
      isPlain c && !(c :: text).isPrefixOf currentWord && !currentWord.isPrefixOf (c :: text) &&
        apart text

/-- A text that is apart does not start where a pass renames a site. -/
theorem Lawful.not_prefix_pass_of_apart (lawful : filling.Lawful) {passed text part gap : List Char}
    {site : Site} {c : Char} (strange : apart (c :: part) = true)
    (here : filling.at? passed text = some (site, gap)) :
    ¬ c :: part <+: filling.pass passed text := by
  simp only [apart, Bool.and_eq_true, Bool.not_eq_true'] at strange
  obtain ⟨⟨⟨plain, notStart⟩, notWord⟩, -⟩ := strange
  intro written
  obtain ⟨found, filled⟩ := at?_eq_some_iff.1 here
  have blank := lawful.blank (Site.find?_eq_some_iff.1 found).1.blank filled
  obtain ⟨after, rfl⟩ := Site.exists_append_of_find? found
  rw [pass_site here] at written
  cases gap with
  | cons b gap =>
      rw [List.cons_append, List.cons_append, List.cons_prefix_cons] at written
      simp [written.1, isPlain, blank b (by simp)] at plain
  | nil =>
      rw [Site.quote, List.nil_append] at written
      split at written
      next =>
        rw [List.append_assoc, List.singleton_append, List.cons_prefix_cons] at written
        simp [written.1, isPlain] at plain
      next =>
        rw [List.nil_append] at written
        rcases List.prefix_or_prefix_of_prefix written (List.prefix_append _ _) with start | word
        · rw [← List.isPrefixOf_iff_prefix, notStart] at start
          exact Bool.false_ne_true start
        · rw [← List.isPrefixOf_iff_prefix, notWord] at word
          exact Bool.false_ne_true word

/-- A pass neither adds nor removes a text that is apart from what it reads and
from what it writes. -/
theorem Lawful.prefix_pass_iff_of_apart (lawful : filling.Lawful) {passed text part : List Char}
    (strange : apart part = true) :
    part <+: filling.pass passed text ↔ part <+: text := by
  induction part generalizing passed text with
  | nil => simp
  | cons c part ih =>
      have parts := strange
      simp only [apart, Bool.and_eq_true] at parts
      obtain ⟨⟨⟨plain, -⟩, -⟩, later⟩ := parts
      cases text with
      | nil => simp
      | cons d rest =>
          cases here : filling.at? passed (d :: rest) with
          | none => rw [pass_cons here, List.cons_prefix_cons, List.cons_prefix_cons, ih later]
          | some found =>
              have unwritten := lawful.not_prefix_pass_of_apart strange here
              have unread : ¬ c :: part <+: d :: rest := by
                intro read
                rw [List.cons_prefix_cons] at read
                rw [← read.1, at?_of_isPlain plain] at here
                contradiction
              exact iff_of_false unwritten unread

/-- Whether a text is copied up to a place behind which it is apart. -/
def isGuarded : List Char → Bool
  | c :: d :: text => apart (d :: text) || isBarrier c && isGuarded (d :: text)
  | _ => true

theorem Lawful.prefix_pass_iff_of_isGuarded (lawful : filling.Lawful)
    {passed text part : List Char} (still : filling.at? passed text = none)
    (guarded : isGuarded part = true) : part <+: filling.pass passed text ↔ part <+: text := by
  fun_induction isGuarded part generalizing passed text with
  | case1 c d part ih =>
      cases text with
      | nil => simp
      | cons e rest =>
          rw [pass_cons still, List.cons_prefix_cons, List.cons_prefix_cons]
          refine and_congr_right fun same => ?_
          subst same
          simp only [Bool.or_eq_true, Bool.and_eq_true] at guarded
          rcases guarded with strange | ⟨barrier, guarded⟩
          · exact lawful.prefix_pass_iff_of_apart strange
          · exact ih (lawful.at?_of_isBarrier barrier) guarded
  | case2 part short =>
      cases part with
      | nil => simp
      | cons c part =>
          cases part with
          | nil =>
              cases text with
              | nil => simp
              | cons d rest =>
                  rw [pass_cons still, List.cons_prefix_cons, List.cons_prefix_cons]
                  simp
          | cons d part => exact absurd rfl (short c d part)

theorem isGuarded_append_of_isBlank {gap text : List Char}
    (blank : ∀ c ∈ gap, isBlank c = true) (guarded : isGuarded text = true) :
    isGuarded (gap ++ text) = true := by
  induction gap with
  | nil => exact guarded
  | cons c gap ih =>
      have here : isBarrier c = true := by simp [isBarrier, blank c (by simp)]
      have later := ih fun d member => blank d (by simp [member])
      cases joined : gap ++ text with
      | nil => simp [joined, isGuarded]
      | cons d rest =>
          rw [joined] at later
          simp [joined, isGuarded, here, later]

/-! ## Sites under a pass -/

theorem isCalm_stretch {site : Site} (valid : site.Valid) : isCalm site.stretch = true := by
  have core : ∀ quoted : Bool, ∀ word ∈ legacyWords,
      isCalm ((if quoted then ['"'] else []) ++ word) = true := by decide
  exact isCalm_append_of_isBlank valid.blank (core site.quoted site.word valid.legacy)

theorem isGuarded_mark {site : Site} (valid : site.Valid) : isGuarded site.mark = true := by
  have core : ∀ quoted : Bool, ∀ word ∈ legacyWords,
      isGuarded ((if quoted then ['"'] else []) ++ word ++ if quoted then [] else ['_']) =
        true := by decide
  exact isGuarded_append_of_isBlank valid.blank (core site.quoted site.word valid.legacy)

theorem isCalm_renamed (site : Site) {gap : List Char} (blank : ∀ c ∈ gap, isBlank c = true) :
    isCalm (gap ++ (site.quote ++ currentWord)) = true := by
  have core : ∀ quoted : Bool, isCalm ((if quoted then ['"'] else []) ++ currentWord) = true := by
    decide
  exact isCalm_append_of_isBlank blank (core site.quoted)

/-- No pass finds or loses a site in front of which it stands and which it does
not rename. -/
theorem Lawful.find?_pass (lawful : filling.Lawful) {passed text : List Char}
    (still : filling.at? passed text = none) :
    Site.find? (filling.pass passed text) = Site.find? text := by
  have same : ∀ site : Site, site.Valid →
      (site.mark <+: filling.pass passed text ↔ site.mark <+: text) := by
    intro site valid
    exact lawful.prefix_pass_iff_of_isGuarded still (isGuarded_mark valid)
  ext site
  rw [Site.find?_eq_some_iff, Site.find?_eq_some_iff]
  exact and_congr_right fun valid => same site valid

/-- A pass copies a site that it does not rename. -/
theorem Lawful.pass_stretch (lawful : filling.Lawful) {passed after : List Char} {site : Site}
    (valid : site.Valid) (still : filling.at? passed (site.stretch ++ after) = none) :
    filling.pass passed (site.stretch ++ after) =
      site.stretch ++ filling.pass (site.stretch.reverse ++ passed) after :=
  lawful.pass_append still (isCalm_stretch valid)

/-- A pass copies a renamed site. -/
theorem Lawful.pass_renamed (lawful : filling.Lawful) {passed gap : List Char} {site : Site}
    (blank : ∀ c ∈ gap, isBlank c = true) (after : List Char) :
    filling.pass passed (gap ++ (site.quote ++ currentWord) ++ after) =
      gap ++ (site.quote ++ currentWord) ++
        filling.pass (currentWord.reverse ++ (site.quote.reverse ++ (gap.reverse ++ passed)))
          after := by
  have still : filling.at? passed (gap ++ (site.quote ++ currentWord) ++ after) = none := by
    rw [at?, find?_renamed blank]
    rfl
  rw [lawful.pass_append still (isCalm_renamed site blank)]
  simp

end Filling

end ProviderMigration.Identifier
