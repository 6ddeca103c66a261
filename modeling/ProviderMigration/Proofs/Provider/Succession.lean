import ProviderMigration.Proofs.Provider.Boundary
import ProviderMigration.Proofs.Provider.Repetition

/-!
# Successions on one side of a boundary

The legacy names give way to one name, and the legacy sources to one source, each token at its
first occurrence and one after the other. No token can overlap the ones exchanged before it or
what they gave way to, so a text in front of a boundary decides by itself which of them are
exchanged in it. An exchange behind the boundary shows for good: every token ends in another
character than its successor, and no later exchange brings the end of the token back.
-/

namespace ProviderMigration.Provider

open Text Block Column Relation

variable {c : Char} {token new front back rest : List Char}

/-! ## Tokens that cannot overlap -/

/-- A token that avoids a word is found on one side of the word or on the other. -/
theorem Avoids.within_append_iff {word : List Char} (avoids : Avoids token word) :
    token <:+: front ++ (word ++ back) ↔ token <:+: front ∨ token <:+: back := by
  constructor
  · intro within
    by_cases absent : token <:+: front
    · exact .inl absent
    · right
      have cut := cutAt?_append_of_apart absent fun tail ends nonempty _ =>
        avoids.ends tail ends nonempty back
      rw [avoids.starts] at cut
      cases later : cutAt? token back with
      | none =>
          rw [later] at cut
          exact absurd within (cutAt?_eq_none_iff.1 cut)
      | some parts =>
          rw [← append_of_cutAt? later]
          exact (prefix_of_cutAt? later).isInfix.trans (List.suffix_append _ _).isInfix
  · rintro (here | there)
    · exact here.trans (List.prefix_append _ _).isInfix
    · exact there.trans ((List.suffix_append word back).trans (List.suffix_append _ _)).isInfix

/-- A token is in a text exactly if it is in the text after the exchange of another token that it
avoids. -/
theorem within_replaceFirst_iff {other : List Char} (old : Avoids token other)
    (changed : Avoids token new) (text : List Char) :
    token <:+: replaceFirst other new text ↔ token <:+: text := by
  by_cases present : other <:+: text
  · obtain ⟨before, after, rfl, exchanged⟩ := exists_of_replaceFirst present new
    rw [exchanged, List.append_assoc, List.append_assoc, old.within_append_iff,
      changed.within_append_iff]
  · rw [replaceFirst_of_absent present]

/-! ## Several tokens with one successor -/

/-- The text with the first occurrence of each token exchanged, one token after the other. -/
def succeed (tokens : List String) (new : String) (text : List Char) : List Char :=
  tokens.foldl (fun text token => replaceFirst token.toList new.toList text) text

theorem renameKeys_eq_succeed (text : List Char) :
    renameKeys text = succeed legacyNames currentName text := rfl

theorem updateAttributes_eq_succeed (text : List Char) :
    updateAttributes text =
      replaceFirst "version".toList "#version".toList
        (succeed legacySources currentSource text) := rfl

/-- Tokens that can be exchanged one after the other without getting into each other's way, nor
over a quote or a closing brace. -/
structure IsSuccession (tokens : List String) (new : String) : Prop where
  closed : ∀ token ∈ tokens, '"' ∉ token.toList ∧ '\x7d' ∉ token.toList ∧ token.toList ≠ []
  last : ∀ token ∈ tokens, token.toList.getLast? = some 't' ∨ token.toList.getLast? = some 'l'
  newLast : new.toList.getLast? = some 'x'
  apart : tokens.Pairwise fun one other =>
    Avoids other.toList one.toList ∧ Avoids other.toList new.toList

theorem IsSuccession.of_cons {name : String} {tokens : List String} {new : String}
    (succession : IsSuccession (name :: tokens) new) : IsSuccession tokens new where
  last token member := succession.last token (List.mem_cons_of_mem name member)
  newLast := succession.newLast
  closed token member := succession.closed token (List.mem_cons_of_mem name member)
  apart := (List.pairwise_cons.1 succession.apart).2

theorem isSuccession_of_cannotOverlap {tokens : List String} {new : String}
    (closed : ∀ token ∈ tokens, '"' ∉ token.toList ∧ '\x7d' ∉ token.toList ∧ token.toList ≠ [])
    (last : ∀ token ∈ tokens,
      token.toList.getLast? = some 't' ∨ token.toList.getLast? = some 'l')
    (newLast : new.toList.getLast? = some 'x')
    (apart : tokens.Pairwise fun one other =>
      cannotOverlap other.toList one.toList = true ∧ cannotOverlap other.toList new.toList = true) :
    IsSuccession tokens new where
  closed := closed
  last := last
  newLast := newLast
  apart := apart.imp fun distinct =>
    ⟨avoids_of_cannotOverlap distinct.1, avoids_of_cannotOverlap distinct.2⟩

theorem isSuccession_legacyNames : IsSuccession legacyNames currentName :=
  isSuccession_of_cannotOverlap (by decide) (by decide) (by decide) (by decide)

theorem isSuccession_legacySources : IsSuccession legacySources currentSource :=
  isSuccession_of_cannotOverlap (by decide) (by decide) (by decide) (by decide)

variable {tokens : List String} {successor : String}

/-- The exchange of one token does not change which of the later ones stay. -/
theorem IsSuccession.stays_iff {name token : String}
    (succession : IsSuccession (name :: tokens) successor) (member : token ∈ tokens) :
    Stays token.toList (replaceFirst name.toList successor.toList front) back ↔
      Stays token.toList front back := by
  obtain ⟨old, changed⟩ := (List.pairwise_cons.1 succession.apart).1 token member
  rw [Stays, Stays, within_replaceFirst_iff old changed]

theorem getLast?_succeed (succession : IsSuccession tokens successor)
    (ends : front.getLast? = some c) (quote : c = '"' ∨ c = '\x7d') :
    (succeed tokens successor front).getLast? = some c := by
  induction tokens generalizing front with
  | nil => exact ends
  | cons name tokens ih =>
      obtain ⟨noQuote, noBrace, nonempty⟩ := succession.closed name List.mem_cons_self
      have foreign : c ∉ name.toList := by rcases quote with rfl | rfl <;> assumption
      exact ih succession.of_cons (getLast?_replaceFirst ends foreign nonempty _)

/-- A token that avoids the others and their successor is found in the text after their exchange
exactly if it is found in the text. -/
theorem within_succeed_iff (avoids : ∀ name ∈ successor :: tokens, Avoids token name.toList)
    (text : List Char) :
    token <:+: succeed tokens successor text ↔ token <:+: text := by
  induction tokens generalizing text with
  | nil => rfl
  | cons name tokens ih =>
      have later : ∀ other ∈ successor :: tokens, Avoids token other.toList := by
        intro other member
        apply avoids
        rw [List.mem_cons] at member ⊢
        exact member.imp_right (List.mem_cons_of_mem name)
      have old := avoids name (by simp)
      have changed := avoids successor List.mem_cons_self
      change token <:+: succeed tokens successor (replaceFirst _ _ text) ↔ _
      rw [ih later, within_replaceFirst_iff old changed]

/-- Tokens that stay in the front of two texts leave the other one as it is. -/
theorem succeed_append_of_stays (succession : IsSuccession tokens successor)
    (ends : front.getLast? = some c) (quote : c = '"' ∨ c = '\x7d')
    (stay : ∀ token ∈ tokens, Stays token.toList front back) :
    succeed tokens successor (front ++ back) = succeed tokens successor front ++ back := by
  induction tokens generalizing front with
  | nil => rfl
  | cons name tokens ih =>
      obtain ⟨noQuote, noBrace, nonempty⟩ := succession.closed name List.mem_cons_self
      have foreign : c ∉ name.toList := by rcases quote with rfl | rfl <;> assumption
      have here := replaceFirst_append_of_stays ends foreign (stay name List.mem_cons_self)
        successor.toList
      change succeed tokens successor (replaceFirst _ _ (front ++ back)) = _
      rw [here]
      apply ih succession.of_cons (getLast?_replaceFirst ends foreign nonempty _)
      intro token member
      exact (succession.stays_iff member).2 (stay token (List.mem_cons_of_mem name member))

/-- What stands in front of a closing brace is edited by itself. -/
theorem exists_succeed_append_cons (succession : IsSuccession tokens successor)
    (front back : List Char) :
    ∃ back', succeed tokens successor (front ++ '\x7d' :: back) =
      succeed tokens successor front ++ '\x7d' :: back' := by
  induction tokens generalizing front back with
  | nil => exact ⟨back, rfl⟩
  | cons name tokens ih =>
      obtain ⟨-, noBrace, nonempty⟩ := succession.closed name List.mem_cons_self
      obtain ⟨between, here⟩ :=
        exists_replaceFirst_append_cons noBrace nonempty successor.toList front back
      obtain ⟨back', later⟩ := ih succession.of_cons (replaceFirst name.toList _ front) between
      refine ⟨back', ?_⟩
      change succeed tokens successor (replaceFirst _ _ (front ++ '\x7d' :: back)) = _
      rw [here]
      exact later

/-! ## Ends that no exchange brings back -/

/-- A text that ends otherwise than `back`: where the one has the end of a token, the other has
the end of its successor. -/
def Strays (back text : List Char) : Prop :=
  ∃ c tail, (c = 't' ∨ c = 'l') ∧ c :: tail <:+ back ∧ 'x' :: tail <:+ text

/-- Two characters in front of the same end of a text are one character. -/
theorem eq_of_cons_suffix {c d : Char} {tail text : List Char} (one : c :: tail <:+ text)
    (two : d :: tail <:+ text) : c = d := by
  have within := List.suffix_of_suffix_length_le one two (by simp)
  exact (List.cons_eq_cons.1 (within.eq_of_length (by simp))).1

theorem eq_of_cons_eq_concat {c d : Char} {text : List Char} (same : c :: text = text ++ [d]) :
    c = d := by
  induction text generalizing c with
  | nil => exact (List.cons_eq_cons.1 same).1
  | cons e text ih =>
      obtain ⟨rfl, later⟩ := List.cons_eq_cons.1 same
      exact ih later

/-- The end of a text either lies in the second of two parts or goes over all of it. -/
theorem suffix_append_cases {tail one two : List Char} (within : tail <:+ one ++ two) :
    tail <:+ two ∨ ∃ inner, tail = inner ++ two ∧ inner <:+ one := by
  obtain ⟨gap, joined⟩ := within
  rcases List.append_eq_append_iff.1 joined with ⟨inner, rfl, rfl⟩ | ⟨inner, -, rfl⟩
  · exact .inr ⟨inner, rfl, List.suffix_append gap inner⟩
  · exact .inl (List.suffix_append inner tail)

theorem suffix_append_right_iff {one two : List Char} (rest : List Char) :
    one ++ rest <:+ two ++ rest ↔ one <:+ two := by
  constructor
  · rintro ⟨gap, joined⟩
    rw [← List.append_assoc] at joined
    exact ⟨gap, List.append_cancel_right joined⟩
  · rintro ⟨gap, rfl⟩
    exact ⟨gap, by simp⟩

namespace Strays

variable {text other : List Char}

theorem not_suffix (strays : Strays back text) : ¬ back <:+ text := by
  obtain ⟨c, tail, known, one, two⟩ := strays
  intro within
  have same := eq_of_cons_suffix (one.trans within) two
  rcases known with rfl | rfl <;> exact absurd same (by decide)

theorem append_left (strays : Strays back text) (front : List Char) :
    Strays back (front ++ text) := by
  obtain ⟨c, tail, known, one, two⟩ := strays
  exact ⟨c, tail, known, one, two.trans (List.suffix_append front text)⟩

theorem append_right (strays : Strays back text) (rest : List Char) :
    Strays (back ++ rest) (text ++ rest) := by
  obtain ⟨c, tail, known, ⟨one, rfl⟩, ⟨two, rfl⟩⟩ := strays
  exact ⟨c, tail ++ rest, known, ⟨one, by simp⟩, ⟨two, by simp⟩⟩

/-- An exchange of a token makes a text stray. -/
theorem of_exchange (last : token.getLast? = some 't' ∨ token.getLast? = some 'l')
    (newLast : new.getLast? = some 'x') (front before after : List Char) :
    Strays (before ++ token ++ after) (front ++ (before ++ new ++ after)) := by
  obtain ⟨start, rfl⟩ := List.getLast?_eq_some_iff.1 newLast
  rcases last with last | last <;> obtain ⟨start', rfl⟩ := List.getLast?_eq_some_iff.1 last
  · exact ⟨'t', after, .inl rfl, ⟨before ++ start', by simp⟩, ⟨front ++ before ++ start, by simp⟩⟩
  · exact ⟨'l', after, .inr rfl, ⟨before ++ start', by simp⟩, ⟨front ++ before ++ start, by simp⟩⟩

/-- A text that strays still does so after the exchange of a further token. -/
theorem exchange {before after : List Char} (strays : Strays back (before ++ token ++ after))
    (last : token.getLast? = some 't' ∨ token.getLast? = some 'l')
    (newLast : new.getLast? = some 'x') : Strays back (before ++ new ++ after) := by
  obtain ⟨start, rfl⟩ := List.getLast?_eq_some_iff.1 newLast
  obtain ⟨d, ends, known'⟩ : ∃ d, token.getLast? = some d ∧ (d = 't' ∨ d = 'l') := by
    rcases last with last | last
    · exact ⟨'t', last, .inl rfl⟩
    · exact ⟨'l', last, .inr rfl⟩
  obtain ⟨c, tail, known, one, two⟩ := strays
  rcases suffix_append_cases two with behind | ⟨inner, joined, within⟩
  · exact ⟨c, tail, known, one, behind.trans (List.suffix_append _ after)⟩
  cases inner with
  | nil => exact ⟨c, tail, known, one, joined ▸ List.suffix_append _ after⟩
  | cons e inner =>
      -- The end that differs goes over the last character of the token, which is no `x`.
      obtain ⟨rfl, rfl⟩ := List.cons_eq_cons.1 joined
      obtain ⟨gap, split⟩ := within
      have shared : (gap ++ 'x' :: inner).getLast? = some d := by
        rw [split, List.getLast?_append, ends, Option.some_or]
      rw [List.getLast?_append, List.getLast?_cons, Option.some_or, Option.some_inj] at shared
      cases final : inner.getLast? with
      | none =>
          rw [final, Option.getD_none] at shared
          rcases known' with rfl | rfl <;> exact absurd shared (by decide)
      | some f =>
          rw [final, Option.getD_some] at shared
          obtain rfl := shared
          obtain ⟨middle, rfl⟩ := List.getLast?_eq_some_iff.1 final
          have inside : f :: after <:+ back := by
            refine List.IsSuffix.trans ⟨c :: middle, ?_⟩ one
            simp
          exact ⟨f, after, known', inside, ⟨before ++ start, by simp⟩⟩

/-- Commenting a token out brings no end back. -/
theorem not_suffix_comment {before after : List Char}
    (strays : Strays back (before ++ token ++ after)) :
    ¬ back <:+ before ++ '#' :: token ++ after := by
  obtain ⟨c, tail, known, one, two⟩ := strays
  intro within
  have ends := one.trans within
  have split : before ++ '#' :: token ++ after = before ++ ['#'] ++ (token ++ after) := by simp
  rw [split] at ends
  rw [List.append_assoc] at two
  have apart : c ≠ 'x' ∧ c ≠ '#' := by rcases known with rfl | rfl <;> decide
  rcases suffix_append_cases two with behind | ⟨inner, joined, inside⟩
  · exact apart.1 (eq_of_cons_suffix ends (behind.trans (List.suffix_append _ _)))
  cases inner with
  | nil => exact apart.1 (eq_of_cons_suffix ends (joined ▸ List.suffix_append _ _))
  | cons e inner =>
      obtain ⟨rfl, rfl⟩ := List.cons_eq_cons.1 joined
      have ends : c :: inner ++ (token ++ after) <:+ before ++ ['#'] ++ (token ++ after) := ends
      rw [suffix_append_right_iff] at ends
      have shifted : inner ++ ['#'] <:+ before ++ ['#'] :=
        (suffix_append_right_iff _).2 ((List.suffix_cons 'x' inner).trans inside)
      have same := (List.suffix_of_suffix_length_le ends shifted (by simp)).eq_of_length (by simp)
      exact apart.2 (eq_of_cons_eq_concat same)

/-- A text that strays still does so after exchanges in front of some place of it. -/
theorem replaceFirst (strays : Strays back (text ++ rest))
    (last : token.getLast? = some 't' ∨ token.getLast? = some 'l')
    (newLast : new.getLast? = some 'x') : Strays back (replaceFirst token new text ++ rest) := by
  by_cases present : token <:+: text
  · obtain ⟨before, after, rfl, exchanged⟩ := exists_of_replaceFirst present new
    rw [List.append_assoc] at strays
    rw [exchanged, List.append_assoc]
    exact strays.exchange last newLast
  · rw [replaceFirst_of_absent present]
    exact strays

theorem succeed (strays : Strays back (text ++ rest)) (succession : IsSuccession tokens successor) :
    Strays back (succeed tokens successor text ++ rest) := by
  induction tokens generalizing text with
  | nil => exact strays
  | cons name tokens ih =>
      have here := strays.replaceFirst (succession.last name List.mem_cons_self) succession.newLast
      exact ih here succession.of_cons

theorem not_suffix_replaceFirst (strays : Strays back (text ++ rest)) (front : List Char) :
    ¬ back <:+ front ++ (Text.replaceFirst token ('#' :: token) text ++ rest) := by
  have strays := strays.append_left front
  by_cases present : token <:+: text
  · obtain ⟨before, after, rfl, exchanged⟩ := exists_of_replaceFirst present ('#' :: token)
    have split : front ++ (before ++ token ++ after ++ rest) =
        front ++ before ++ token ++ (after ++ rest) := by
      simp only [List.append_assoc]
    rw [split] at strays
    have apart := strays.not_suffix_comment
    rw [exchanged]
    simpa only [List.append_assoc] using apart
  · rw [replaceFirst_of_absent present]
    exact strays.not_suffix

end Strays

/-- A token that does not stay in the front of two texts makes the other one stray. -/
theorem strays_succeed (succession : IsSuccession tokens successor) (ends : front.getLast? = some c)
    (quote : c = '"' ∨ c = '\x7d') (moves : ¬ ∀ token ∈ tokens, Stays token.toList front back) :
    Strays back (succeed tokens successor (front ++ back)) := by
  induction tokens generalizing front with
  | nil => simp at moves
  | cons name tokens ih =>
      obtain ⟨noQuote, noBrace, nonempty⟩ := succession.closed name List.mem_cons_self
      have foreign : c ∉ name.toList := by rcases quote with rfl | rfl <;> assumption
      change Strays back (succeed tokens successor (replaceFirst _ _ (front ++ back)))
      by_cases stays : Stays name.toList front back
      · rw [replaceFirst_append_of_stays ends foreign stays]
        apply ih succession.of_cons (getLast?_replaceFirst ends foreign nonempty _)
        intro stay
        apply moves
        exact List.forall_mem_cons.2
          ⟨stays, fun token member => (succession.stays_iff member).1 (stay token member)⟩
      · obtain ⟨absent, present⟩ := not_or.1 stays
        rw [replaceFirst_append_of_absent ends foreign absent]
        obtain ⟨before, after, rfl, exchanged⟩ :=
          exists_of_replaceFirst (not_not.1 present) successor.toList
        rw [exchanged]
        have strays := Strays.of_exchange (succession.last name List.mem_cons_self)
          succession.newLast front before after
        rw [← List.append_nil (front ++ _)] at strays
        simpa using strays.succeed succession.of_cons

end ProviderMigration.Provider
