import ProviderMigration.Text.Occurrence

/-!
# Exchanges on one side of a boundary

An edit exchanges the first occurrence of a token, wherever it stands. When a text is put
together from two parts, and the first part ends in a character that the token does not have,
every occurrence lies in one of the parts. The exchange then takes place in the first part if
the token is in it, and in the second part otherwise.
-/

namespace ProviderMigration.Provider

open Text

variable {c : Char} {token other front back : List Char}

/-- A token is exchanged in the front of two texts, if it is exchanged at all. -/
def Stays (token front back : List Char) : Prop :=
  token <:+: front ∨ ¬ token <:+: back

theorem cutAt?_append_of_within {before found : List Char}
    (cut : cutAt? token front = some (before, found)) (back : List Char) :
    cutAt? token (front ++ back) = some (before, found ++ back) := by
  have start : token <+: found ++ back :=
    (prefix_of_cutAt? cut).trans (List.prefix_append found back)
  rw [← append_of_cutAt? cut, List.append_assoc]
  exact cutAt?_of_cutAt? cut start

theorem cutAt?_append_of_absent (ends : front.getLast? = some c) (foreign : c ∉ token)
    (absent : ¬ token <:+: front) (back : List Char) :
    cutAt? token (front ++ back) =
      (cutAt? token back).map fun (before, found) => (front ++ before, found) := by
  apply cutAt?_append_of_not_prefix
  intro tail nonempty within start
  rcases prefix_append_cases start with inside | ⟨beyond, rfl, -⟩
  · exact absent (inside.isInfix.trans within.isInfix)
  · -- The token would reach over the last character of the front.
    obtain ⟨gap, rfl⟩ := within
    obtain ⟨d, last⟩ := Option.isSome_iff_exists.1 (List.getLast?_isSome.2 nonempty)
    rw [List.getLast?_append, last, Option.some_or, Option.some_inj] at ends
    exact foreign (List.mem_append_left beyond (ends ▸ List.mem_of_getLast? last))

/-- A token is first found in the second of two texts if it is not in the first one, and the
second one does not start with an end of it. -/
theorem cutAt?_append_of_apart (absent : ¬ token <:+: front)
    (apart : ∀ tail, tail <:+ token → tail ≠ [] → tail ≠ token → ¬ tail <+: back) :
    cutAt? token (front ++ back) =
      (cutAt? token back).map fun (before, found) => (front ++ before, found) := by
  apply cutAt?_append_of_not_prefix
  intro tail nonempty within start
  rcases prefix_append_cases start with inside | ⟨ends, rfl, here⟩
  · exact absent (inside.isInfix.trans within.isInfix)
  · by_cases empty : ends = []
    · apply absent
      rw [empty, List.append_nil]
      exact within.isInfix
    · exact apart ends (List.suffix_append tail ends) empty (by simpa using nonempty) here

theorem within_append_iff (ends : front.getLast? = some c) (foreign : c ∉ token)
    (back : List Char) : token <:+: front ++ back ↔ token <:+: front ∨ token <:+: back := by
  constructor
  · intro within
    by_cases absent : token <:+: front
    · exact .inl absent
    · right
      have cut := cutAt?_append_of_absent ends foreign absent back
      cases later : cutAt? token back with
      | none =>
          rw [later] at cut
          exact absurd within (cutAt?_eq_none_iff.1 cut)
      | some parts =>
          rw [← append_of_cutAt? later]
          exact (prefix_of_cutAt? later).isInfix.trans (List.suffix_append _ _).isInfix
  · rintro (here | there)
    · exact here.trans (List.prefix_append front back).isInfix
    · exact there.trans (List.suffix_append front back).isInfix

theorem replaceFirst_append_of_within (present : token <:+: front) (other back : List Char) :
    replaceFirst token other (front ++ back) = replaceFirst token other front ++ back := by
  cases cut : cutAt? token front with
  | none => exact absurd present (cutAt?_eq_none_iff.1 cut)
  | some parts =>
      obtain ⟨before, found⟩ := parts
      have fits := (prefix_of_cutAt? cut).length_le
      rw [replaceFirst, replaceFirst, cutAt?_append_of_within cut, cut]
      simp [List.drop_append_of_le_length fits]

theorem replaceFirst_append_of_absent (ends : front.getLast? = some c) (foreign : c ∉ token)
    (absent : ¬ token <:+: front) (other back : List Char) :
    replaceFirst token other (front ++ back) = front ++ replaceFirst token other back := by
  rw [replaceFirst, replaceFirst, cutAt?_append_of_absent ends foreign absent]
  cases cutAt? token back with
  | none => rfl
  | some parts => simp

theorem replaceFirst_append_of_stays (ends : front.getLast? = some c) (foreign : c ∉ token)
    (stays : Stays token front back) (other : List Char) :
    replaceFirst token other (front ++ back) = replaceFirst token other front ++ back := by
  by_cases present : token <:+: front
  · exact replaceFirst_append_of_within present other back
  · have gone := stays.resolve_left present
    rw [replaceFirst_append_of_absent ends foreign present, replaceFirst_of_absent gone,
      replaceFirst_of_absent present]

/-- What stands in front of a character that a token does not have is edited by itself. -/
theorem exists_replaceFirst_append_cons (foreign : c ∉ token) (nonempty : token ≠ [])
    (other front back : List Char) :
    ∃ back', replaceFirst token other (front ++ c :: back) =
      replaceFirst token other front ++ c :: back' := by
  by_cases present : token <:+: front
  · exact ⟨back, replaceFirst_append_of_within present other (c :: back)⟩
  · have absent : ¬ token <:+: front ++ [c] := by
      rw [within_append_cons_iff foreign, List.infix_nil]
      exact not_or.2 ⟨present, nonempty⟩
    have later := replaceFirst_append_of_absent List.getLast?_concat foreign absent other back
    refine ⟨replaceFirst token other back, ?_⟩
    rw [replaceFirst_of_absent present]
    simpa using later

/-- An exchange keeps the last character, unless it belongs to the token. -/
theorem getLast?_replaceFirst (ends : front.getLast? = some c) (foreign : c ∉ token)
    (nonempty : token ≠ []) (other : List Char) :
    (replaceFirst token other front).getLast? = some c := by
  by_cases present : token <:+: front
  · obtain ⟨before, after, rfl, exchanged⟩ := exists_of_replaceFirst present other
    rw [exchanged]
    rw [List.getLast?_append] at ends ⊢
    cases last : after.getLast? with
    | some d =>
        rw [last] at ends
        exact ends
    | none =>
        obtain ⟨d, last'⟩ := Option.isSome_iff_exists.1 (List.getLast?_isSome.2 nonempty)
        rw [last, Option.none_or, List.getLast?_append, last', Option.some_or,
          Option.some_inj] at ends
        exact absurd (ends ▸ List.mem_of_getLast? last') foreign
  · rw [replaceFirst_of_absent present]
    exact ends

end ProviderMigration.Provider
