import ProviderMigration.Proofs.Identifier.Pass

/-!
# Passes one after the other

A pass over what another one has written is one pass that lets the first decide
wherever it has an opinion. A pass that covers another one leaves nothing for it
to do.
-/

namespace ProviderMigration.Identifier

open Text

namespace Filling

variable {filling first second : Filling}

/-! ## Composition -/

/-- The filling that asks a second filling where the first has no gap. -/
def orElse (first second : Filling) : Filling := fun passed gap quoted =>
  (first passed gap quoted).or (second passed gap quoted)

theorem Lawful.orElse (one : first.Lawful) (two : second.Lawful) :
    (first.orElse second).Lawful where
  blank blank filled := by
    rcases Option.or_eq_some_iff.1 filled with filled | ⟨-, filled⟩
    · exact one.blank blank filled
    · exact two.blank blank filled
  barrier isBarrier := by
    rw [Filling.orElse, one.barrier isBarrier, two.barrier isBarrier]
    rfl
  alike alike gap quoted := by
    rw [Filling.orElse, Filling.orElse, one.alike alike, two.alike alike]

theorem at?_orElse (first second : Filling) (passed text : List Char) :
    (first.orElse second).at? passed text =
      (first.at? passed text).or (second.at? passed text) := by
  simp only [at?, Filling.orElse]
  cases Site.find? text with
  | none => rfl
  | some site =>
      simp only [Option.bind_eq_bind, Option.bind_some]
      cases first passed site.gap site.quoted <;> rfl

/-- Whether a site is renamed depends on the site, and on the context up to
likeness. -/
theorem Lawful.at?_of_alike (lawful : filling.Lawful) {passed other text written : List Char}
    (alike : Alike passed other) (same : Site.find? written = Site.find? text) :
    filling.at? other written = filling.at? passed text := by
  rw [at?, at?, same]
  cases Site.find? text with
  | none => rfl
  | some site =>
      simp only [Option.bind_eq_bind, Option.bind_some]
      rw [lawful.alike alike]

/-- Two contexts stay alike behind a site that has been renamed in one of them. -/
theorem Alike.stretch {site : Site} (valid : site.Valid) (gap passed other : List Char) :
    Alike (site.stretch.reverse ++ passed)
      (currentWord.reverse ++ (site.quote.reverse ++ (gap.reverse ++ other))) := by
  rw [Site.stretch, List.reverse_append, List.reverse_append, List.append_assoc,
    List.append_assoc]
  exact .renamed valid.legacy _ _

/-- A pass over the outcome of a pass is a single pass. The second one sees the
context as the first has left it. -/
theorem Lawful.pass_pass (one : first.Lawful) (two : second.Lawful) (text : List Char)
    {passed other : List Char} (alike : Alike passed other) :
    second.pass other (first.pass passed text) = (first.orElse second).pass passed text := by
  induction passed, text using (first.orElse second).induction generalizing other with
  | nil passed => simp
  | site passed site gap after both ih =>
      obtain ⟨found, filled⟩ := at?_eq_some_iff.1 both
      have valid := (Site.find?_eq_some_iff.1 found).1
      rw [pass_site both]
      rw [at?_orElse, Option.or_eq_some_iff] at both
      rcases both with renamed | ⟨renamed, kept⟩
      · have blank := one.blank valid.blank (at?_eq_some_iff.1 renamed).2
        rw [pass_site renamed, two.pass_renamed blank, ih (Alike.stretch valid gap passed other)]
      · have still := one.find?_pass renamed
        rw [one.pass_stretch valid renamed] at still ⊢
        have later := two.at?_of_alike alike still
        rw [kept] at later
        rw [pass_site later, ih (alike.append site.stretch.reverse)]
  | cons passed c rest both ih =>
      rw [pass_cons both]
      rw [at?_orElse, Option.or_eq_none_iff] at both
      obtain ⟨renamed, kept⟩ := both
      have later := two.at?_of_alike alike (one.find?_pass renamed)
      rw [kept] at later
      rw [pass_cons renamed] at later ⊢
      rw [pass_cons later, ih (alike.cons c)]

/-- The filling that renames nothing. -/
def idle : Filling := fun _ _ _ => none

theorem idle_pass (passed text : List Char) : idle.pass passed text = text := by
  induction text generalizing passed with
  | nil => exact pass_nil passed
  | cons c rest ih =>
      have still : idle.at? passed (c :: rest) = none := by
        rw [at?]
        cases Site.find? (c :: rest) <;> rfl
      rw [pass_cons still, ih]

theorem idle_lawful : idle.Lawful where
  blank _ filled := absurd filled (Option.some_ne_none _).symm
  barrier _ := rfl
  alike _ _ _ := rfl

/-- The filling that asks one filling after the other. -/
def firstOf (fillings : List Filling) : Filling := fillings.foldr orElse idle

theorem Lawful.firstOf {fillings : List Filling} (lawful : ∀ filling ∈ fillings, filling.Lawful) :
    (firstOf fillings).Lawful := by
  induction fillings with
  | nil => exact idle_lawful
  | cons filling fillings ih =>
      apply (lawful filling List.mem_cons_self).orElse
      exact ih fun other member => lawful other (List.mem_cons_of_mem _ member)

/-- Passes one after the other are a single pass. -/
theorem foldl_pass {fillings : List Filling} (lawful : ∀ filling ∈ fillings, filling.Lawful)
    (text : List Char) :
    fillings.foldl (fun text filling => filling.pass [] text) text =
      (firstOf fillings).pass [] text := by
  induction fillings generalizing text with
  | nil => exact (idle_pass [] text).symm
  | cons filling fillings ih =>
      have others : ∀ other ∈ fillings, other.Lawful :=
        fun other member => lawful other (List.mem_cons_of_mem _ member)
      calc
        fillings.foldl (fun text filling => filling.pass [] text) (filling.pass [] text) =
            (firstOf fillings).pass [] (filling.pass [] text) := ih others _
        _ = (filling.orElse (firstOf fillings)).pass [] text :=
          (lawful filling List.mem_cons_self).pass_pass (Lawful.firstOf others) text (.same [])

/-! ## Texts that a pass leaves alone -/

theorem Lawful.at?_of_pass_eq_self (lawful : filling.Lawful) {passed text : List Char}
    (same : filling.pass passed text = text) : filling.at? passed text = none := by
  rw [at?_eq_none_iff]
  intro site found
  rw [Option.eq_none_iff_forall_ne_some]
  intro gap filled
  have here := at?_eq_some_iff.2 ⟨found, filled⟩
  have blank := lawful.blank (Site.find?_eq_some_iff.1 found).1.blank filled
  obtain ⟨rest, rfl⟩ := Site.exists_append_of_find? found
  rw [← same, pass_site here, find?_renamed blank] at found
  contradiction

/-- A text that a pass does not change has no site that the pass renames. -/
theorem Lawful.at?_of_pass_append_eq_self (lawful : filling.Lawful)
    {passed before after : List Char}
    (same : filling.pass passed (before ++ after) = before ++ after) :
    filling.at? (before.reverse ++ passed) after = none := by
  induction before generalizing passed with
  | nil => exact lawful.at?_of_pass_eq_self same
  | cons c before ih =>
      have start := lawful.at?_of_pass_eq_self same
      rw [List.cons_append] at start same
      rw [pass_cons start, List.cons.injEq] at same
      rw [List.reverse_cons, List.append_assoc]
      exact ih same.2

/-- A pass leaves a text alone in which it renames nothing. -/
theorem pass_eq_self {passed text : List Char}
    (still : ∀ before after, text = before ++ after →
      filling.at? (before.reverse ++ passed) after = none) : filling.pass passed text = text := by
  induction text generalizing passed with
  | nil => exact pass_nil passed
  | cons c rest ih =>
      have here : filling.at? passed (c :: rest) = none := still [] (c :: rest) rfl
      have later : ∀ before after, rest = before ++ after →
          filling.at? (before.reverse ++ c :: passed) after = none := by
        intro before after split
        have beyond := still (c :: before) after (congrArg (c :: ·) split)
        rwa [List.reverse_cons, List.append_assoc] at beyond
      rw [pass_cons here, ih later]

/-- A filling that renames every site that another one renames. -/
def Covers (first second : Filling) : Prop :=
  ∀ passed gap quoted, first passed gap quoted = none → second passed gap quoted = none

theorem Covers.orElse_eq (covers : first.Covers second) : first.orElse second = first := by
  funext passed gap quoted
  rw [Filling.orElse]
  cases filled : first passed gap quoted with
  | none => rw [covers _ _ _ filled, Option.or_none]
  | some new => rfl

theorem Covers.at?_eq_none (covers : first.Covers second) {passed text : List Char}
    (still : first.at? passed text = none) : second.at? passed text = none := by
  rw [at?_eq_none_iff] at still ⊢
  intro site found
  exact covers _ _ _ (still site found)

theorem covers_firstOf {fillings : List Filling} {filling : Filling} (member : filling ∈ fillings) :
    (firstOf fillings).Covers filling := by
  intro passed gap quoted missed
  induction fillings with
  | nil => contradiction
  | cons other fillings ih =>
      have both := Option.or_eq_none_iff.1 missed
      cases member with
      | head => exact both.1
      | tail _ member => exact ih member both.2

theorem exists_of_firstOf {fillings : List Filling} {passed gap new : List Char} {quoted : Bool}
    (filled : firstOf fillings passed gap quoted = some new) :
    ∃ filling ∈ fillings, filling passed gap quoted = some new := by
  induction fillings with
  | nil => contradiction
  | cons filling fillings ih =>
      rcases Option.or_eq_some_iff.1 filled with here | ⟨-, later⟩
      · exact ⟨filling, List.mem_cons_self, here⟩
      · obtain ⟨other, member, filled⟩ := ih later
        exact ⟨other, List.mem_cons_of_mem _ member, filled⟩

/-- A second pass finds nothing to rename. -/
theorem Lawful.pass_idempotent (lawful : filling.Lawful) (text : List Char) :
    filling.pass [] (filling.pass [] text) = filling.pass [] text := by
  have covers : filling.Covers filling := fun _ _ _ missed => missed
  calc
    filling.pass [] (filling.pass [] text) = (filling.orElse filling).pass [] text :=
      lawful.pass_pass lawful text (.same [])
    _ = filling.pass [] text := by rw [covers.orElse_eq]

end Filling

end ProviderMigration.Identifier
