import ProviderMigration.Proofs.Identifier.Literal
import ProviderMigration.Proofs.Identifier.Respelling

/-!
# Names that are left in a state file

How often a name occurs in a line can be followed through the rules for state files: an
occurrence lies in one of two texts that are put together or begins at an open end of the first
one, and an exchange that keeps the open ends changes the count by what it takes away itself.
Two of the rules edit every occurrence, and leave none. The rule for quoted names edits the last
one of a line, so all the others are left.
-/

namespace ProviderMigration.Identifier

open Text Block Column

variable {tokens : List (List Char)} {text other old new : List Char} {lost more : Nat}

/-! ## Counting -/

/-- Whether one of some tokens stands at the start of a text. -/
def startsAny (tokens : List (List Char)) (text : List Char) : Bool :=
  tokens.any (·.isPrefixOf text)

/-- At how many places of a text one of some tokens begins. -/
def occurrences (tokens : List (List Char)) : List Char → Nat
  | [] => 0
  | c :: text => (if startsAny tokens (c :: text) then 1 else 0) + occurrences tokens text

/-- The ends of a text that become a token if they go on in the right way. -/
def openEnds (tokens : List (List Char)) : List Char → List (List Char)
  | [] => []
  | c :: text =>
      if !startsAny tokens (c :: text) && tokens.any ((c :: text).isPrefixOf ·) then
        (c :: text) :: openEnds tokens text
      else openEnds tokens text

theorem startsAny_iff : startsAny tokens text = true ↔ ∃ token ∈ tokens, token <+: text := by
  simp [startsAny]

theorem occurrences_eq_zero_iff (solid : [] ∉ tokens) :
    occurrences tokens text = 0 ↔ ∀ token ∈ tokens, ¬ token <:+: text := by
  induction text with
  | nil =>
      refine iff_of_true rfl fun token member within => solid ?_
      rwa [← List.infix_nil.1 within]
  | cons c text ih =>
      rw [occurrences, Nat.add_eq_zero_iff, ih]
      have here : (if startsAny tokens (c :: text) then 1 else 0) = 0 ↔
          ∀ token ∈ tokens, ¬ token <+: c :: text := by
        simp [startsAny]
      rw [here]
      constructor
      · rintro ⟨start, later⟩ token member within
        exact (List.infix_cons_iff.1 within).elim (start token member) (later token member)
      · intro absent
        exact ⟨fun token member start => absent token member start.isInfix,
          fun token member within => absent token member (List.infix_cons_iff.2 (.inr within))⟩

theorem ne_nil_of_mem_openEnds {stretch : List Char} (member : stretch ∈ openEnds tokens text) :
    stretch ≠ [] := by
  induction text with
  | nil => contradiction
  | cons c text ih =>
      rw [openEnds] at member
      split at member
      next =>
        rcases List.mem_cons.1 member with rfl | later
        · exact List.cons_ne_nil c text
        · exact ih later
      next => exact ih member

/-- An occurrence in two texts put together is in one of them, or begins at an open end of the
first one. -/
theorem occurrences_append (front back : List Char) :
    occurrences tokens (front ++ back) =
      occurrences tokens front +
        (openEnds tokens front).countP (fun stretch => startsAny tokens (stretch ++ back)) +
        occurrences tokens back := by
  induction front with
  | nil => simp [occurrences, openEnds]
  | cons c front ih =>
      rw [List.cons_append, occurrences, occurrences, openEnds, ih]
      by_cases whole : startsAny tokens (c :: front) = true
      · have longer : startsAny tokens (c :: (front ++ back)) = true := by
          obtain ⟨token, member, start⟩ := startsAny_iff.1 whole
          exact startsAny_iff.2 ⟨token, member, start.trans (List.prefix_append (c :: front) back)⟩
        simp only [whole, longer, Bool.not_true, Bool.false_and, if_true, Bool.false_eq_true,
          if_false]
        omega
      · by_cases goesOn : tokens.any ((c :: front).isPrefixOf ·) = true
        · simp only [whole, goesOn, Bool.not_false, Bool.and_true, if_true, if_false,
            List.countP_cons, Bool.false_eq_true, List.cons_append]
          omega
        · have absent : startsAny tokens (c :: (front ++ back)) = false := by
            rw [← Bool.not_eq_true, startsAny_iff]
            rintro ⟨token, member, start⟩
            rcases List.prefix_or_prefix_of_prefix start (List.prefix_append (c :: front) back)
              with short | long
            · exact whole (startsAny_iff.2 ⟨token, member, short⟩)
            · exact goesOn (List.any_eq_true.2 ⟨token, member, List.isPrefixOf_iff_prefix.2 long⟩)
          simp only [whole, goesOn, absent, Bool.and_false, if_false, Bool.false_eq_true]
          omega

/-! ## Exchanges -/

/-- Two texts that go on with the same ends of tokens. -/
def EndsAlike (tokens : List (List Char)) (text other : List Char) : Prop :=
  ∀ token ∈ tokens, ∀ tail, tail <:+ token.tail → (tail <+: text ↔ tail <+: other)

namespace EndsAlike

theorem symm (alike : EndsAlike tokens text other) : EndsAlike tokens other text :=
  fun token member tail ends => (alike token member tail ends).symm

/-- A token that begins in front of one of the texts begins in front of the other. -/
theorem startsAny_append (alike : EndsAlike tokens text other) {front : List Char}
    (nonempty : front ≠ []) :
    startsAny tokens (front ++ text) = startsAny tokens (front ++ other) := by
  have onward : ∀ {text other : List Char}, EndsAlike tokens text other →
      startsAny tokens (front ++ text) = true → startsAny tokens (front ++ other) = true := by
    intro text other alike here
    obtain ⟨token, member, start⟩ := startsAny_iff.1 here
    refine startsAny_iff.2 ⟨token, member, ?_⟩
    rcases List.prefix_or_prefix_of_prefix start (List.prefix_append front text)
      with short | ⟨tail, rfl⟩
    · exact short.trans (List.prefix_append front other)
    · rw [List.prefix_append_right_inj] at start ⊢
      refine (alike _ member tail ?_).1 start
      rw [List.tail_append_of_ne_nil nonempty]
      exact List.suffix_append front.tail tail
  exact Bool.eq_iff_iff.2 ⟨onward alike, onward alike.symm⟩

/-- Stretches with the same open ends differ by what they hold themselves. -/
theorem occurrences_append_eq (alike : EndsAlike tokens text other)
    (count : occurrences tokens old = occurrences tokens new + lost)
    (ends : openEnds tokens old = openEnds tokens new)
    (rest : occurrences tokens text = occurrences tokens other + more) :
    occurrences tokens (old ++ text) = occurrences tokens (new ++ other) + (lost + more) := by
  have crossing : (openEnds tokens new).countP (fun stretch => startsAny tokens (stretch ++ text)) =
      (openEnds tokens new).countP (fun stretch => startsAny tokens (stretch ++ other)) := by
    apply List.countP_congr
    intro stretch member
    rw [alike.startsAny_append (ne_nil_of_mem_openEnds member)]
  rw [occurrences_append, occurrences_append, count, ends, crossing, rest]
  omega

/-- A stretch that the texts share does not change by how much they differ. -/
theorem occurrences_front (alike : EndsAlike tokens text other) (front : List Char)
    (rest : occurrences tokens text = occurrences tokens other + more) :
    occurrences tokens (front ++ text) = occurrences tokens (front ++ other) + more := by
  have kept : occurrences tokens front = occurrences tokens front + 0 := rfl
  have whole := alike.occurrences_append_eq kept rfl rest
  rwa [Nat.zero_add] at whole

end EndsAlike

/-- An exchange that takes occurrences away and cannot be told from what stands next to it. -/
structure Loses (tokens : List (List Char)) (lost : Nat) (old new : List Char) : Prop where
  count : occurrences tokens old = occurrences tokens new + lost
  ends : openEnds tokens old = openEnds tokens new
  tails : ∀ token ∈ tokens, ∀ tail ∈ token.tail.tails,
    (diverge tail old = true ∧ diverge tail new = true) ∨
      (tail.isPrefixOf old = true ∧ tail.isPrefixOf new = true)

instance (tokens : List (List Char)) (lost : Nat) (old new : List Char) :
    Decidable (Loses tokens lost old new) :=
  decidable_of_iff
    (occurrences tokens old = occurrences tokens new + lost ∧
      openEnds tokens old = openEnds tokens new ∧
      ∀ token ∈ tokens, ∀ tail ∈ token.tail.tails,
        (diverge tail old = true ∧ diverge tail new = true) ∨
          (tail.isPrefixOf old = true ∧ tail.isPrefixOf new = true))
    ⟨fun ⟨count, ends, tails⟩ => ⟨count, ends, tails⟩,
      fun loses => ⟨loses.count, loses.ends, loses.tails⟩⟩

namespace Loses

theorem endsAlike_of_aligns (aligned : Aligns (Loses tokens lost) text other) :
    EndsAlike tokens text other := by
  obtain ⟨columns, rfl, rfl, loses⟩ := aligned
  intro token member tail ends
  induction columns generalizing tail with
  | nil => rfl
  | cons column columns ih =>
      rw [oldText_cons, newText_cons]
      cases column with
      | same c =>
          cases tail with
          | nil => exact iff_of_true List.nil_prefix List.nil_prefix
          | cons d tail =>
              have later := ih loses.of_cons tail ((List.suffix_cons d tail).trans ends)
              simp only [Column.old, Column.new, List.singleton_append, List.cons_prefix_cons,
                later]
      | changed old new =>
          have here := loses old new List.mem_cons_self
          rcases here.tails token member tail ((List.mem_tails _ _).2 ends) with
            ⟨apart, apart'⟩ | ⟨start, start'⟩
          · exact iff_of_false (not_prefix_append_of_diverge apart _)
              (not_prefix_append_of_diverge apart' _)
          · rw [List.isPrefixOf_iff_prefix] at start start'
            exact iff_of_true (start.trans (List.prefix_append _ _))
              (start'.trans (List.prefix_append _ _))

/-- Exchanges that take no occurrence away leave as many as there were. -/
theorem occurrences_of_aligns (aligned : Aligns (Loses tokens 0) text other) :
    occurrences tokens text = occurrences tokens other := by
  obtain ⟨columns, rfl, rfl, loses⟩ := aligned
  induction columns with
  | nil => rfl
  | cons column columns ih =>
      have alike := endsAlike_of_aligns ⟨columns, rfl, rfl, loses.of_cons⟩
      have rest : occurrences tokens (oldText columns) =
          occurrences tokens (newText columns) + 0 := ih loses.of_cons
      rw [oldText_cons, newText_cons]
      cases column with
      | same c => exact alike.occurrences_front [c] rest
      | changed old new =>
          have here := loses old new List.mem_cons_self
          exact alike.occurrences_append_eq here.count here.ends rest

/-- A single exchange takes away what it takes from its own stretch. -/
theorem occurrences_exchange (loses : Loses tokens lost old new) (before after : List Char) :
    occurrences tokens (before ++ (old ++ after)) =
      occurrences tokens (before ++ (new ++ after)) + lost := by
  have alike : EndsAlike tokens (old ++ after) (new ++ after) :=
    endsAlike_of_aligns ((Aligns.of_meets loses).append (.refl after))
  have same : EndsAlike tokens after after := fun _ _ _ _ => Iff.rfl
  have kept : occurrences tokens after = occurrences tokens after + 0 := rfl
  exact alike.occurrences_front before
    (same.occurrences_append_eq loses.count loses.ends kept)

end Loses

/-! ## Rules that leave nothing to edit -/

/-- An exchange that takes a token away and brings no part of another one. -/
structure Removes (tokens : List (List Char)) (old new : List Char) : Prop
    extends Loses tokens 1 old new where
  clean : occurrences tokens new = 0
  closed : openEnds tokens new = []

instance (tokens : List (List Char)) (old new : List Char) : Decidable (Removes tokens old new) :=
  decidable_of_iff
    (Loses tokens 1 old new ∧ occurrences tokens new = 0 ∧ openEnds tokens new = [])
    ⟨fun ⟨loses, clean, closed⟩ => ⟨loses, clean, closed⟩,
      fun removes => ⟨removes.toLoses, removes.clean, removes.closed⟩⟩

namespace Rule

variable {rule : Rule}

/-- The texts that a rule reads. -/
def reads (rule : Rule) : List (List Char) := (exchangesOf rule.pieces).map (·.1)

theorem Literal.nil_not_mem_reads (literal : rule.Literal) : [] ∉ rule.reads := by
  intro member
  obtain ⟨pair, exchanges, empty⟩ := List.mem_map.1 member
  exact literal.solid pair exchanges empty

theorem Literal.startsAny_reads (literal : rule.Literal) :
    startsAny rule.reads text = false ↔ rule.match? text = none := by
  rw [literal.match?_eq_none_iff, ← Bool.not_eq_true, startsAny_iff]
  constructor
  · intro absent old new exchanges start
    exact absent ⟨old, List.mem_map.2 ⟨(old, new), exchanges, rfl⟩, start⟩
  · rintro missed ⟨token, member, start⟩
    obtain ⟨⟨old, new⟩, exchanges, rfl⟩ := List.mem_map.1 member
    exact missed old new exchanges start

/-- A rule that edits every occurrence leaves none. -/
theorem Literal.occurrences_editEvery (literal : rule.Literal)
    (removes : ∀ old new, rule.Exchanges old new → Removes rule.reads old new)
    (text : List Char) : occurrences rule.reads (rule.editEvery text) = 0 := by
  induction text using literal.induction with
  | nil => rfl
  | exchange old new rest exchanges ih =>
      have here := removes old new exchanges
      rw [occurrences_append, here.clean, here.closed, ih]
      rfl
  | pass c rest missed ih =>
      have alike : EndsAlike rule.reads rest (rule.editEvery rest) :=
        Loses.endsAlike_of_aligns <| (literal.aligns_editEvery rest).imp
          fun old new exchanges => (removes old new exchanges).toLoses
      have same : startsAny rule.reads (c :: rest) =
          startsAny rule.reads (c :: rule.editEvery rest) :=
        alike.startsAny_append (List.cons_ne_nil c [])
      rw [occurrences, ← same, literal.startsAny_reads.2 missed, ih]
      rfl

/-- A rule that takes no occurrence of some tokens away leaves as many as there were. -/
theorem Literal.occurrences_apply (literal : rule.Literal) {line : List Char}
    (single : '\n' ∉ line) (loses : ∀ old new, rule.Exchanges old new → Loses tokens 0 old new) :
    occurrences tokens (rule.apply line) = occurrences tokens line :=
  (Loses.occurrences_of_aligns ((literal.aligns_apply single).imp loses)).symm

/-- A rule that edits the last occurrence of a row leaves the others. -/
theorem Literal.occurrences_editLast (literal : rule.Literal)
    (loses : ∀ old new, rule.Exchanges old new → Loses rule.reads 1 old new) (row : List Char) :
    occurrences rule.reads (rule.editLast row) = occurrences rule.reads row - 1 := by
  rcases literal.editLast_cases row with
    ⟨same, absent⟩ | ⟨before, old, new, after, exchanges, rfl, edited⟩
  · have none : occurrences rule.reads row = 0 := by
      rw [occurrences_eq_zero_iff literal.nil_not_mem_reads]
      intro token member
      obtain ⟨⟨old, new⟩, exchanges, rfl⟩ := List.mem_map.1 member
      exact absent old new exchanges
    rw [same, none]
  · rw [edited, (loses old new exchanges).occurrences_exchange before after]
    rfl

/-- A line without an occurrence is kept. -/
theorem Literal.apply_eq_self (literal : rule.Literal) {line : List Char} (single : '\n' ∉ line)
    (absent : occurrences rule.reads line = 0) : rule.apply line = line := by
  rw [occurrences_eq_zero_iff literal.nil_not_mem_reads] at absent
  apply apply_eq_self_of_unread single
  intro front back split _
  rw [literal.match?_eq_none_iff]
  intro old new exchanges start
  apply absent old (List.mem_map.2 ⟨(old, new), exchanges, rfl⟩)
  rw [split]
  exact start.isInfix.trans (List.suffix_append front back).isInfix

end Rule

/-! ## Lines of state files -/

namespace Dialect

variable {rule neighbour : Rule} {line : List Char}

/-- What a rule for state files writes is nothing for it to read. -/
theorem removes_of_exchanges (listed : rule ∈ state.rules) {old new : List Char}
    (exchanges : rule.Exchanges old new) : Removes rule.reads old new := by
  have known : ∀ rule ∈ state.rules, ∀ pair ∈ exchangesOf rule.pieces,
      Removes rule.reads pair.1 pair.2 := by decide
  exact known rule listed (old, new) exchanges

/-- A rule for state files leaves the texts alone that the others read. -/
theorem occurrences_apply_of_ne (listed : rule ∈ state.rules) (listed' : neighbour ∈ state.rules)
    (distinct : neighbour ≠ rule) (single : '\n' ∉ line) :
    occurrences rule.reads (neighbour.apply line) = occurrences rule.reads line := by
  have known : ∀ rule ∈ state.rules, ∀ neighbour ∈ state.rules, neighbour ≠ rule →
      ∀ pair ∈ exchangesOf neighbour.pieces, Loses rule.reads 0 pair.1 pair.2 := by decide
  exact (literal_state neighbour listed').occurrences_apply single
    fun old new exchanges => known rule listed neighbour listed' distinct (old, new) exchanges

/-- The legacy names at the start of a string. -/
def quotedNames : List (List Char) := ["\"metal_", "\"packet_"].map String.toList

/-- The legacy names of data sources, and the legacy sources at the end of a quoted address. -/
def otherNames : List (List Char) :=
  ["data.metal_", "data.packet_", "equinix/metal\\\"", "packethost/packet\\\""].map String.toList

theorem otherNames_eq : otherNames = datasource.reads ++ stateProvider.reads := by
  decide

theorem quotedNames_eq : quotedNames = statePrefix.reads := by decide

/-- What is left in a line for each of the rules. -/
theorem occurrences_renameLine (single : '\n' ∉ line) :
    occurrences stateProvider.reads (state.renameLine line) = 0 ∧
      occurrences datasource.reads (state.renameLine line) = 0 ∧
      occurrences statePrefix.reads (state.renameLine line) =
        occurrences statePrefix.reads line - 1 := by
  have provider : stateProvider ∈ state.rules := by decide
  have data : datasource ∈ state.rules := by decide
  have quoted : statePrefix ∈ state.rules := by decide
  have single' := Rule.newline_not_mem_apply (newline_not_mem_ink state _ provider) single
  have single'' := Rule.newline_not_mem_apply (newline_not_mem_ink state _ data) single'
  have renamed : state.renameLine line =
      statePrefix.apply (datasource.apply (stateProvider.apply line)) := rfl
  rw [renamed]
  refine ⟨?_, ?_, ?_⟩
  · rw [occurrences_apply_of_ne provider quoted (by decide) single'',
      occurrences_apply_of_ne provider data (by decide) single']
    exact (literal_state _ provider).occurrences_editEvery
      (fun _ _ => removes_of_exchanges provider) line
  · rw [occurrences_apply_of_ne data quoted (by decide) single'']
    exact (literal_state _ data).occurrences_editEvery (fun _ _ => removes_of_exchanges data) _
  · rw [Rule.apply_of_lastOfRow rfl single'',
      (literal_state _ quoted).occurrences_editLast
        fun _ _ exchanges => (removes_of_exchanges quoted exchanges).toLoses,
      occurrences_apply_of_ne quoted data (by decide) single',
      occurrences_apply_of_ne quoted provider (by decide) single]

/-- A line in which there is nothing to read for any of the rules is kept. -/
theorem renameLine_of_occurrences (single : '\n' ∉ line)
    (absent : ∀ rule ∈ state.rules, occurrences rule.reads line = 0) :
    state.renameLine line = line := by
  have literal := literal_state
  rw [renameLine]
  generalize state.rules = rules at absent literal
  induction rules with
  | nil => rfl
  | cons rule rules ih =>
      have here := absent rule List.mem_cons_self
      rw [List.foldl_cons, (literal rule List.mem_cons_self).apply_eq_self single here]
      exact ih (fun other member => absent other (List.mem_cons_of_mem rule member))
        fun other member => literal other (List.mem_cons_of_mem rule member)

/-- Renaming a line of a state file leaves no legacy data source and no legacy source in it,
but of the quoted legacy names it renames one only. So the quoted names are gone, and a second
renaming changes nothing, exactly if there was at most one of them. -/
theorem renameLine_state_complete_iff (single : '\n' ∉ line) :
    (∀ token ∈ otherNames, ¬ token <:+: state.renameLine line) ∧
      occurrences quotedNames (state.renameLine line) = occurrences quotedNames line - 1 ∧
      ((∀ token ∈ quotedNames, ¬ token <:+: state.renameLine line) ↔
        occurrences quotedNames line ≤ 1) ∧
      (state.renameLine (state.renameLine line) = state.renameLine line ↔
        occurrences quotedNames line ≤ 1) := by
  obtain ⟨provider, data, quoted⟩ := occurrences_renameLine single
  have single' := newline_not_mem_renameLine state single
  have again := (occurrences_renameLine single').2.2
  rw [← quotedNames_eq] at quoted again
  have solid : ∀ rule ∈ state.rules, [] ∉ rule.reads :=
    fun rule listed => (literal_state rule listed).nil_not_mem_reads
  refine ⟨?_, quoted, ?_, ?_⟩
  · rw [occurrences_eq_zero_iff (solid _ (by decide))] at provider data
    rw [otherNames_eq]
    intro token member
    rcases List.mem_append.1 member with one | other
    · exact data token one
    · exact provider token other
  · rw [← occurrences_eq_zero_iff (by decide), quoted]
    omega
  · constructor
    · intro same
      rw [same] at again
      omega
    · intro few
      have none : occurrences statePrefix.reads (state.renameLine line) = 0 := by
        rw [← quotedNames_eq, quoted]
        omega
      apply renameLine_of_occurrences single'
      intro rule listed
      have known : rule = stateProvider ∨ rule = datasource ∨ rule = statePrefix := by
        simpa [rules] using listed
      rcases known with rfl | rfl | rfl
      · exact provider
      · exact data
      · exact none

/-- A line with a quoted name as the key and another one as the value. -/
def twoNames : List Char := "\"metal_a\": \"metal_b\"".toList

theorem renameLine_state_complete_iff_of_twoNames :
    '\n' ∉ twoNames ∧
      occurrences quotedNames (state.renameLine twoNames) = occurrences quotedNames twoNames - 1 ∧
      (state.renameLine (state.renameLine twoNames) = state.renameLine twoNames ↔
        occurrences quotedNames twoNames ≤ 1) := by
  have single : '\n' ∉ twoNames := by decide
  have known := renameLine_state_complete_iff single
  exact ⟨single, known.2.1, known.2.2.2⟩

/-- The first name is left, and a second renaming finds it. -/
theorem quotedName_left :
    state.renameLine twoNames = "\"metal_a\": \"equinix_metal_b\"".toList ∧
      "\"metal_".toList <:+: state.renameLine twoNames ∧
      state.renameLine (state.renameLine twoNames) =
        "\"equinix_metal_a\": \"equinix_metal_b\"".toList ∧
      state.renameLine (state.renameLine twoNames) ≠ state.renameLine twoNames := by
  have left : occurs "\"metal_".toList (state.renameLine twoNames) = true := by decide
  exact ⟨by decide, occurs_eq_true_iff.1 left, by decide, by decide⟩

end Dialect

end ProviderMigration.Identifier
