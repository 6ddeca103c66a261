import ProviderMigration.Proofs.Block.Segment

/-!
# Spans between the two delimiters

The places of a balance span a part of the text. A delimiter counts in it if it is the first
symbol of a segment, which it is outside of strings, comments and interpolations. The count
that comes back to zero at the closing place is that of the whole text up to there. In the
span itself, opening delimiters are therefore ahead by as many as there are stray closing
ones in front of it.
-/

namespace ProviderMigration.Block

/-! ## Places of segments -/

/-- The places at which segments begin with a symbol, if the first segment is at `place`. -/
def placesOf (a : UInt8) (place : Nat) : List (List UInt8) → List Nat
  | [] => []
  | segment :: rest =>
      if segment.head? = some a then place :: placesOf a (place + segment.length) rest
      else placesOf a (place + segment.length) rest

/-- How many segments of a text begin with a symbol at a place that is not in front of
`start` but in front of `stop`. -/
def countBetween (a : UInt8) (start stop : Nat) (text : List UInt8) : Nat :=
  (placesOf a 0 (segments text)).countP fun place => decide (start ≤ place ∧ place < stop)

section Places

variable {a : UInt8} {place : Nat} {front back : List (List UInt8)}

theorem placesOf_append (a : UInt8) (place : Nat) (front back : List (List UInt8)) :
    placesOf a place (front ++ back) =
      placesOf a place front ++ placesOf a (place + front.flatten.length) back := by
  induction front generalizing place with
  | nil => rfl
  | cons segment front ih =>
      rw [List.cons_append, placesOf, placesOf, ih, List.flatten_cons, List.length_append,
        Nat.add_assoc]
      split
      next => rfl
      next => rfl

theorem length_placesOf (a : UInt8) (place : Nat) (segments : List (List UInt8)) :
    (placesOf a place segments).length = countOf a segments := by
  induction segments generalizing place with
  | nil => rfl
  | cons segment rest ih =>
      rw [placesOf, countOf, List.countP_cons, ← countOf, ← ih (place + segment.length)]
      by_cases begins : segment.head? = some a
      · simp [begins]
      · simp [begins]

theorem le_of_mem_placesOf {other : Nat} (member : other ∈ placesOf a place front) :
    place ≤ other := by
  induction front generalizing place with
  | nil => contradiction
  | cons segment rest ih =>
      rw [placesOf] at member
      split at member
      next =>
        rcases List.mem_cons.1 member with rfl | later
        · exact Nat.le_refl other
        · exact Nat.le_trans (Nat.le_add_right place _) (ih later)
      next => exact Nat.le_trans (Nat.le_add_right place _) (ih member)

theorem lt_of_mem_placesOf (solid : ∀ segment ∈ front, segment ≠ []) {other : Nat}
    (member : other ∈ placesOf a place front) : other < place + front.flatten.length := by
  induction front generalizing place with
  | nil => contradiction
  | cons segment rest ih =>
      have positive := List.length_pos_iff.2 (solid segment List.mem_cons_self)
      have later : other ∈ placesOf a (place + segment.length) rest →
          other < place + (segment :: rest).flatten.length := by
        intro member
        have bound := ih (fun segment inside => solid segment (List.mem_cons_of_mem _ inside)) member
        rwa [List.flatten_cons, List.length_append, ← Nat.add_assoc]
      rw [placesOf] at member
      split at member
      next =>
        rcases List.mem_cons.1 member with rfl | inside
        · rw [List.flatten_cons, List.length_append]
          omega
        · exact later inside
      next => exact later member

/-- Counting the places in front of a cut is counting the segments in front of it. -/
theorem countP_placesOf {stop : Nat} (reached : ∀ other ∈ placesOf a 0 front, other < stop)
    (beyond : stop ≤ front.flatten.length) :
    (placesOf a 0 (front ++ back)).countP (fun place => decide (0 ≤ place ∧ place < stop)) =
      countOf a front := by
  have all : (placesOf a 0 front).countP (fun place => decide (0 ≤ place ∧ place < stop)) =
      countOf a front := by
    rw [← length_placesOf a 0 front, List.countP_eq_length]
    intro other member
    exact decide_eq_true ⟨Nat.zero_le other, reached other member⟩
  have none : (placesOf a (0 + front.flatten.length) back).countP
      (fun place => decide (0 ≤ place ∧ place < stop)) = 0 := by
    rw [List.countP_eq_zero]
    intro other member inside
    have start := le_of_mem_placesOf member
    have ends := (of_decide_eq_true inside).2
    omega
  rw [placesOf_append, List.countP_append, all, none, Nat.add_zero]

end Places

theorem ne_nil_of_mem_segments {text segment : List UInt8} (member : segment ∈ segments text) :
    segment ≠ [] := by
  fun_induction segments text with
  | case1 => contradiction
  | case2 a rest ih =>
      rcases List.mem_cons.1 member with rfl | later
      · exact List.cons_ne_nil _ _
      · exact ih later

section Cuts

variable {a : UInt8} {text : List UInt8} {front back : List (List UInt8)} {segment : List UInt8}

/-- A count up to the place of a segment. -/
theorem countBetween_of_split (split : segments text = front ++ back) (a : UInt8) :
    countBetween a 0 front.flatten.length text = countOf a front := by
  have solid : ∀ segment ∈ front, segment ≠ [] := fun segment member =>
    ne_nil_of_mem_segments (split ▸ List.mem_append_left back member)
  rw [countBetween, split]
  apply countP_placesOf
  · intro other member
    rw [← Nat.zero_add front.flatten.length]
    exact lt_of_mem_placesOf solid member
  · exact Nat.le_refl _

/-- A count up to the first symbol of a segment. -/
theorem countBetween_succ_of_split (split : segments text = front ++ segment :: back) (a : UInt8) :
    countBetween a 0 (front.flatten.length + 1) text = countOf a (front ++ [segment]) := by
  have solid : ∀ segment ∈ front, segment ≠ [] := fun segment member =>
    ne_nil_of_mem_segments (split ▸ List.mem_append_left _ member)
  have here : segment ≠ [] := ne_nil_of_mem_segments (split ▸ List.mem_append_cons_self)
  have positive := List.length_pos_iff.2 here
  have joined : front ++ segment :: back = (front ++ [segment]) ++ back := by simp
  rw [countBetween, split, joined]
  apply countP_placesOf
  · intro other member
    rw [placesOf_append, List.mem_append] at member
    rcases member with before | last
    · have bound := lt_of_mem_placesOf solid before
      omega
    · rw [placesOf] at last
      split at last
      next =>
        rw [List.mem_singleton.1 last]
        omega
      next => contradiction
  · rw [List.flatten_append, List.length_append, List.flatten_singleton]
    omega

/-- Counts of neighbouring stretches add up. -/
theorem countBetween_add {start stop : Nat} (ordered : start ≤ stop) (a : UInt8)
    (text : List UInt8) :
    countBetween a 0 stop text = countBetween a 0 start text + countBetween a start stop text := by
  rw [countBetween, countBetween, countBetween]
  generalize placesOf a 0 (segments text) = places
  induction places with
  | nil => rfl
  | cons place places ih =>
      rw [List.countP_cons, List.countP_cons, List.countP_cons, ih]
      simp only [decide_eq_true_eq]
      split <;> split <;> split <;> omega

end Cuts

/-! ## The span of a balance -/

/-- An offset is that of the first segment that meets the condition. -/
theorem exists_of_offset? {meets : Nat → Prop} [DecidablePred meets]
    {segments : List (List UInt8)} {place : Nat} (found : offset? meets segments = some place) :
    ∃ front segment back, segments = front ++ segment :: back ∧ front.flatten.length = place ∧
      meets front.length ∧ ∀ index < front.length, ¬ meets index := by
  obtain ⟨index, first, rfl⟩ := Option.map_eq_some_iff.1 found
  rw [List.find?_range_eq_some] at first
  obtain ⟨here, inside, before⟩ := first
  have bound := List.mem_range.1 inside
  have size : (segments.take index).length = index := by
    rw [List.length_take, Nat.min_eq_left (Nat.le_of_lt bound)]
  refine ⟨segments.take index, segments[index], segments.drop (index + 1), ?_, rfl, ?_, ?_⟩
  · rw [List.getElem_cons_drop, List.take_append_drop]
  · rw [size]
    exact of_decide_eq_true here
  · rw [size]
    intro other earlier
    simpa using before other earlier

theorem countOf_eq_zero {a : UInt8} {front back : List (List UInt8)}
    (none : ∀ index < front.length, ¬ BeginsWith (front ++ back) a index) :
    countOf a front = 0 := by
  rw [countOf, List.countP_eq_zero]
  intro segment member begins
  obtain ⟨index, inside, rfl⟩ := List.getElem_of_mem member
  apply none index inside
  rw [BeginsWith, List.getElem?_append_left inside, List.getElem?_eq_getElem inside]
  exact of_decide_eq_true begins

namespace Balance

variable {opening closing : UInt8} {text : List UInt8} {opened closed : Nat}

/-- Where the span of a balance begins and ends among the segments of its text. -/
theorem exists_segments_of_find (found : find opening closing text = ⟨some opened, some closed⟩) :
    (∃ front back, segments text = front ++ back ∧ front.flatten.length = opened ∧
      countOf opening front = 0) ∧
    ∃ front segment back, segments text = front ++ segment :: back ∧
      front.flatten.length = closed ∧ segment.head? = some closing ∧
      countOf opening (front ++ [segment]) = countOf closing (front ++ [segment]) := by
  have counted : (0 : Int) < 0 → (none : Option Nat).isSome = true :=
    fun positive => absurd positive (Int.lt_irrefl 0)
  rw [find, scan_eq_ofSegments 0 0 none text counted, Balance.mk.injEq] at found
  obtain ⟨place, opens, rfl⟩ := Option.map_eq_some_iff.1 found.1
  obtain ⟨place', closes, rfl⟩ := Option.map_eq_some_iff.1 found.2
  rw [Nat.zero_add, Nat.zero_add]
  constructor
  · obtain ⟨front, segment, back, split, size, -, first⟩ := exists_of_offset? opens
    refine ⟨front, segment :: back, split, size, ?_⟩
    rw [split] at first
    exact countOf_eq_zero first
  · obtain ⟨front, segment, back, split, size, ⟨begins, counts⟩, -⟩ := exists_of_offset? closes
    have taken : (front ++ segment :: back).take (front.length + 1) = front ++ [segment] := by
      rw [List.take_append, List.take_of_length_le (Nat.le_succ _), Nat.add_sub_cancel_left]
      rfl
    rw [split, taken] at counts
    refine ⟨front, segment, back, split, size, ?_, by omega⟩
    rw [split, BeginsWith, List.getElem?_append_right (Nat.le_refl _), Nat.sub_self] at begins
    exact begins

/-- Up to the closing place, a text has as many opening as closing delimiters. There is no
opening one in front of the span, so in the span itself they are ahead by the number of stray
closing ones in front of it. The span is balanced exactly if there are none. -/
theorem countBetween_of_find (found : find opening closing text = ⟨some opened, some closed⟩) :
    opened ≤ closed ∧
      countBetween opening 0 (closed + 1) text = countBetween closing 0 (closed + 1) text ∧
      countBetween opening 0 opened text = 0 ∧
      countBetween opening opened (closed + 1) text =
        countBetween closing opened (closed + 1) text + countBetween closing 0 opened text ∧
      (countBetween opening opened (closed + 1) text =
        countBetween closing opened (closed + 1) text ↔ countBetween closing 0 opened text = 0) := by
  obtain ⟨⟨front, back, split, rfl, none⟩, front', segment, back', split', rfl, ends, balanced⟩ :=
    exists_segments_of_find found
  have start := countBetween_of_split split opening
  rw [none] at start
  have opens := countBetween_succ_of_split split' opening
  have closes := countBetween_succ_of_split split' closing
  have last : 0 < countOf closing (front' ++ [segment]) := by
    rw [countOf, List.countP_pos_iff]
    exact ⟨segment, by simp, decide_eq_true ends⟩
  have ordered : front.flatten.length ≤ front'.flatten.length := by
    apply Classical.byContradiction
    intro late
    have behind : front'.flatten.length + 1 ≤ front.flatten.length := Nat.lt_of_not_le late
    have sum := countBetween_add behind opening text
    omega
  have inside : front.flatten.length ≤ front'.flatten.length + 1 := Nat.le_succ_of_le ordered
  have openSum := countBetween_add inside opening text
  have closeSum := countBetween_add inside closing text
  omega

/-- A block within a block, behind a brace too many. -/
def strayed : List UInt8 :=
  [symbol '\x7d', symbol '\x7b', symbol '\x7b', symbol '\x7d', symbol '\x7d']

theorem segments_strayed : segments strayed =
    [[symbol '\x7d'], [symbol '\x7b'], [symbol '\x7b'], [symbol '\x7d'], [symbol '\x7d']] := by
  have single : ∀ {a : UInt8} {rest : List UInt8}, regionLength a rest = 0 →
      segments (a :: rest) = [a] :: segments rest := by
    intro a rest none
    rw [segments, none]
    rfl
  rw [strayed, single (by decide), single (by decide), single (by decide), single (by decide),
    single (by decide), segments]

/-- A stray closing delimiter unbalances the span. -/
theorem exists_find_unbalanced : ∃ text opened closed,
    find (symbol '\x7b') (symbol '\x7d') text = ⟨some opened, some closed⟩ ∧
      countBetween (symbol '\x7b') opened (closed + 1) text ≠
        countBetween (symbol '\x7d') opened (closed + 1) text := by
  refine ⟨strayed, 1, 3, by decide, ?_⟩
  rw [countBetween, countBetween, segments_strayed]
  decide

/-- The span behind a stray brace has one opening brace more than closing ones. -/
theorem countBetween_of_find_strayed :
    find (symbol '\x7b') (symbol '\x7d') strayed = ⟨some 1, some 3⟩ ∧
      countBetween (symbol '\x7b') 1 4 strayed =
        countBetween (symbol '\x7d') 1 4 strayed + countBetween (symbol '\x7d') 0 1 strayed := by
  have found : find (symbol '\x7b') (symbol '\x7d') strayed = ⟨some 1, some 3⟩ := by decide
  exact ⟨found, (countBetween_of_find found).2.2.2.1⟩

end Balance

end ProviderMigration.Block
