import ProviderMigration.Proofs.Identifier.Respelling

/-!
# The order of the rules

Two rules for configurations that never rename the same site can be applied in either order.
All of them are apart in this way except two: a name behind a bar is renamed both as the branch
of a conditional and as an operand of an expression, and only the former sets the blanks in
front of it right. So a chain of the eight rules does the same in every order in which those
two stand as they do in the dialect, and in no other order.
-/

namespace ProviderMigration.Identifier

/-! ## Fillings that are apart -/

namespace Filling

variable {first second : Filling}

/-- Two fillings that never have a gap for the same site. -/
def Apart (first second : Filling) : Prop :=
  ∀ passed gap quoted, first passed gap quoted = none ∨ second passed gap quoted = none

theorem Apart.orElse_comm (apart : first.Apart second) :
    first.orElse second = second.orElse first := by
  funext passed gap quoted
  rw [orElse, orElse]
  rcases apart passed gap quoted with missed | missed
  · rw [missed, Option.none_or, Option.or_none]
  · rw [missed, Option.none_or, Option.or_none]

/-- Passes that are apart can be made in either order. -/
theorem Apart.pass_comm (apart : first.Apart second) (one : first.Lawful) (two : second.Lawful)
    (text : List Char) :
    first.pass [] (second.pass [] text) = second.pass [] (first.pass [] text) := by
  calc
    first.pass [] (second.pass [] text) = (second.orElse first).pass [] text :=
      two.pass_pass one text (.same [])
    _ = (first.orElse second).pass [] text := by rw [apart.orElse_comm]
    _ = second.pass [] (first.pass [] text) := (one.pass_pass two text (.same [])).symm

end Filling

/-- Whether no text ends with leading texts of both slots, unless the one takes quoted names
and the other takes names that are not. -/
def Slot.isApart (one other : Slot) : Bool :=
  one.quoted != other.quoted ||
    one.leads.all fun lead => other.leads.all fun lead' =>
      diverge lead.toList.reverse lead'.toList.reverse

theorem Slot.apart_of_isApart {one other : Slot} (apart : one.isApart other = true) :
    one.filling.Apart other.filling := by
  intro passed gap quoted
  cases filled : one.filling passed gap quoted with
  | none => exact .inl rfl
  | some new =>
      right
      rw [Option.eq_none_iff_forall_ne_some]
      intro new' filled'
      obtain ⟨⟨lead, member, back, rfl⟩, rfl, -⟩ := filling_eq_some_iff.1 filled
      obtain ⟨⟨lead', member', ends⟩, same, -⟩ := filling_eq_some_iff.1 filled'
      simp only [isApart, Bool.or_eq_true, bne_iff_ne, List.all_eq_true] at apart
      rcases apart with distinct | diverged
      · exact distinct same
      · have diverged' : diverge lead'.toList.reverse lead.toList.reverse = true := by
          rw [diverge, Bool.and_comm]
          exact diverged lead member lead' member'
        exact not_prefix_append_of_diverge diverged' back ends

/-! ## Chains whose rules are in another order -/

/-- Two rules that can be applied in either order. -/
def Rule.Commutes (one other : Rule) : Prop :=
  ∀ text, one.apply (other.apply text) = other.apply (one.apply text)

/-- The outcome of some rules that are applied one after the other. -/
def applyAll (rules : List Rule) (text : List Char) : List Char :=
  rules.foldl (fun text rule => rule.apply text) text

/-- A rule that commutes with those in front of it may as well come first. -/
theorem applyAll_move {rule : Rule} {front : List Rule}
    (commutes : ∀ other ∈ front, rule.Commutes other) (back : List Rule) (text : List Char) :
    applyAll (front ++ rule :: back) text = applyAll (rule :: (front ++ back)) text := by
  induction front generalizing text with
  | nil => rfl
  | cons other front ih =>
      have later := ih fun next member => commutes next (List.mem_cons_of_mem other member)
      calc
        applyAll (other :: front ++ rule :: back) text =
            applyAll (front ++ back) (rule.apply (other.apply text)) := later _
        _ = applyAll (front ++ back) (other.apply (rule.apply text)) := by
          rw [commutes other List.mem_cons_self]

/-- Two elements of a list without repetitions stand in one order only. -/
theorem not_pair_sublist_of_reversed {α : Type} {a b : α} {list : List α} (distinct : list.Nodup)
    (reversed : [b, a].Sublist list) : ¬ [a, b].Sublist list := by
  induction list with
  | nil => contradiction
  | cons c list ih =>
      rw [List.nodup_cons] at distinct
      simp only [List.cons_sublist_cons', List.singleton_sublist] at reversed ⊢
      rintro (pair | ⟨rfl, behind⟩)
      · rcases reversed with reversed | ⟨rfl, -⟩
        · exact ih distinct.2 reversed pair
        · exact distinct.1 (pair.subset (List.mem_cons_of_mem a List.mem_cons_self))
      · rcases reversed with reversed | ⟨-, behind'⟩
        · exact distinct.1 (reversed.subset (List.mem_cons_of_mem b List.mem_cons_self))
        · exact distinct.1 behind'

/-- Of two elements of a list, one comes first. -/
theorem pair_sublist_or {α : Type} {a b : α} {list : List α} (one : a ∈ list) (other : b ∈ list)
    (distinct : a ≠ b) : [a, b].Sublist list ∨ [b, a].Sublist list := by
  induction list with
  | nil => contradiction
  | cons c list ih =>
      simp only [List.cons_sublist_cons', List.singleton_sublist]
      rcases List.mem_cons.1 one with rfl | one'
      · exact .inl (.inr ⟨rfl, (List.mem_cons.1 other).resolve_left distinct.symm⟩)
      · rcases List.mem_cons.1 other with rfl | other'
        · exact .inr (.inr ⟨rfl, one'⟩)
        · exact (ih one' other').imp .inl .inl

/-- Chains of the same rules do the same if rules that do not commute keep their order. -/
theorem applyAll_eq_of_perm {rules others : List Rule} (same : rules.Perm others)
    (distinct : rules.Nodup)
    (ordered : rules.Pairwise fun one other => one.Commutes other ∨ [one, other].Sublist others)
    (text : List Char) : applyAll rules text = applyAll others text := by
  induction rules generalizing others text with
  | nil => rw [same.nil_eq]
  | cons rule rules ih =>
      obtain ⟨front, back, rfl⟩ := List.append_of_mem (same.subset List.mem_cons_self)
      have remaining : rules.Perm (front ++ back) := (same.trans List.perm_middle).cons_inv
      obtain ⟨fresh, distinct'⟩ := List.nodup_cons.1 distinct
      have unlisted : rule ∉ front ++ back := fun member => fresh (remaining.symm.subset member)
      obtain ⟨first, later⟩ := List.pairwise_cons.1 ordered
      have movable : ∀ other ∈ front, rule.Commutes other := by
        intro other member
        have listed : other ∈ rules := remaining.symm.subset (List.mem_append_left back member)
        have reversed : [other, rule].Sublist (front ++ rule :: back) :=
          (List.singleton_sublist.2 member).append
            (List.singleton_sublist.2 List.mem_cons_self)
        exact (first other listed).resolve_right
          (not_pair_sublist_of_reversed (same.nodup_iff.1 distinct) reversed)
      have kept : rules.Pairwise fun one other =>
          one.Commutes other ∨ [one, other].Sublist (front ++ back) := by
        apply later.imp_of_mem
        intro one other member member' ordered
        apply ordered.imp_right
        intro pair
        have absent : rule ∉ [one, other] := by
          intro listed
          apply unlisted
          rcases List.mem_pair.1 listed with rfl | rfl
          · exact remaining.subset member
          · exact remaining.subset member'
        have erased := pair.erase rule
        rwa [List.erase_of_not_mem absent,
          List.erase_append_right _ fun member => unlisted (List.mem_append_left back member),
          List.erase_cons_head] at erased
      calc
        applyAll (rule :: rules) text = applyAll rules (rule.apply text) := rfl
        _ = applyAll (front ++ back) (rule.apply text) :=
          ih remaining distinct' kept (rule.apply text)
        _ = applyAll (front ++ rule :: back) text := (applyAll_move movable back text).symm

/-! ## The rules for configurations -/

/-- The two rules that do not commute, in either order. -/
def Contend (one other : Rule) : Prop :=
  one = conditional ∧ other = expression ∨ one = expression ∧ other = conditional

instance (one other : Rule) : Decidable (Contend one other) :=
  inferInstanceAs (Decidable (_ ∨ _))

/-- Two stations never rename the same site, unless they are the same or those for conditionals
and for expressions. -/
theorem Station.isApart_or : ∀ one ∈ template, ∀ other ∈ template,
    one.slot.isApart other.slot = true ∨ one.rule = other.rule ∨ Contend one.rule other.rule := by
  decide

namespace Dialect

variable {one other : Rule} {rules others : List Rule}

/-- A name behind a bar, at which the rules that do not commute can be told apart. -/
def barred : List Char := "a |  metal_x".toList

/-- Two rules for configurations commute unless both rename a name behind a bar. -/
theorem commutes_iff (listed : one ∈ template.rules) (listed' : other ∈ template.rules) :
    one.Commutes other ↔ ¬ Contend one other := by
  constructor
  · rintro commutes (⟨rfl, rfl⟩ | ⟨rfl, rfl⟩)
    · exact absurd (commutes barred) (by decide)
    · exact absurd (commutes barred) (by decide)
  · intro free text
    rw [← Station.rules_template] at listed listed'
    obtain ⟨station, member, rfl⟩ := List.mem_map.1 listed
    obtain ⟨station', member', rfl⟩ := List.mem_map.1 listed'
    rcases Station.isApart_or station member station' member' with apart | same | contend
    · have faithful := Station.faithful member
      have faithful' := Station.faithful member'
      simp only [faithful.apply_eq_pass, faithful'.apply_eq_pass]
      exact (Slot.apart_of_isApart apart).pass_comm faithful.proper.lawful
        faithful'.proper.lawful text
    · rw [same]
    · exact absurd contend free

theorem nodup_rules (dialect : Dialect) : dialect.rules.Nodup :=
  List.Pairwise.of_map Rule.name (fun _ _ other same => other (congrArg Rule.name same))
    dialect.nodup_ruleNames

/-- Two orders of the rules for configurations do the same if the rules that do not commute
are in the same order. -/
theorem applyAll_eq_of_contend (same : rules.Perm template.rules)
    (same' : others.Perm template.rules)
    (ordered : ∀ one other, Contend one other → [one, other].Sublist rules →
      [one, other].Sublist others) (text : List Char) :
    applyAll rules text = applyAll others text := by
  apply applyAll_eq_of_perm (same.trans same'.symm) (same.nodup_iff.2 (nodup_rules .template))
  rw [List.pairwise_iff_forall_sublist]
  intro one other pair
  have listed : one ∈ rules := pair.subset List.mem_cons_self
  have listed' : other ∈ rules := pair.subset (List.mem_cons_of_mem one List.mem_cons_self)
  by_cases contend : Contend one other
  · exact .inr (ordered one other contend pair)
  · exact .inl ((commutes_iff (same.subset listed) (same.subset listed')).2 contend)

/-- The rules for configurations with the two that do not commute exchanged. -/
def swapped : List Rule :=
  [blockHeader, interpolation, reference, functionArgument, expression, forLoop, conditional,
    datasource]

/-- The rules for configurations rename as the dialect does in every order in which the rule
for conditionals comes before the one for expressions, and in no other order; and of the
rules, only these two do not commute. -/
theorem order_of_template :
    (∀ rules : List Rule, rules.Perm template.rules →
      ((∀ text, applyAll rules text = template.renameLine text) ↔
        [conditional, expression].Sublist rules)) ∧
    ∀ one ∈ template.rules, ∀ other ∈ template.rules, one.Commutes other ↔ ¬ Contend one other := by
  refine ⟨fun rules same => ⟨fun renames => ?_, fun ordered text => ?_⟩,
    fun one listed other listed' => commutes_iff listed listed'⟩
  · have distinct := same.nodup_iff.2 (nodup_rules .template)
    have either : [conditional, expression].Sublist rules ∨
        [expression, conditional].Sublist rules :=
      pair_sublist_or (same.symm.subset (by decide)) (same.symm.subset (by decide)) (by decide)
    refine either.resolve_right fun reversed => ?_
    have asSwapped : applyAll rules barred = applyAll swapped barred := by
      apply applyAll_eq_of_contend same (by decide)
      rintro one other (⟨rfl, rfl⟩ | ⟨rfl, rfl⟩) pair
      · exact absurd pair (not_pair_sublist_of_reversed distinct reversed)
      · decide
    have different : applyAll swapped barred ≠ template.renameLine barred := by decide
    exact different (asSwapped.symm.trans (renames barred))
  · have distinct := same.nodup_iff.2 (nodup_rules .template)
    apply applyAll_eq_of_contend same (List.Perm.refl _)
    rintro one other (⟨rfl, rfl⟩ | ⟨rfl, rfl⟩) pair
    · decide
    · exact absurd ordered (not_pair_sublist_of_reversed distinct pair)

theorem order_of_template_backwards :
    applyAll [datasource, conditional, forLoop, expression, functionArgument, reference,
        interpolation, blockHeader] barred = template.renameLine barred ∧
      conditional.Commutes forLoop :=
  ⟨(order_of_template.1 _ (by decide)).2 (by decide) barred,
    (order_of_template.2 conditional (by decide) forLoop (by decide)).2 (by decide)⟩

end Dialect

end ProviderMigration.Identifier
