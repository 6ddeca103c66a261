import ProviderMigration.Block.Balance

/-!
# Segments

The balance of a text can be found in two phases. The first cuts the text into segments:
a string, a comment or an interpolation is one segment, and every other symbol is one by
itself. The second looks at the first symbols of the segments only, and counts those that
are delimiters. The scan does both at once, symbol by symbol. It comes to the same,
whatever regions the text leaves open, whatever the delimiters are and however far the
count falls below zero.
-/

namespace ProviderMigration.Block

/-! ## Cutting a text -/

/-- How much of a text belongs to a string that is open in front of it, the closing quote
included. A backslash takes the symbol behind it along. -/
def stringLength : List UInt8 → Nat
  | [] => 0
  | [_] => 1
  | a :: b :: rest =>
      if a = symbol '\\' then stringLength rest + 2
      else if a = symbol '"' then 1
      else stringLength (b :: rest) + 1

/-- How much of a text there is up to the end of the first occurrence of a mark, which is
all of it if the mark does not occur. -/
def lengthThrough (mark : List UInt8) : List UInt8 → Nat
  | [] => 0
  | a :: rest => if mark <+: a :: rest then mark.length else lengthThrough mark rest + 1

theorem prefix_singleton_iff {a b : UInt8} {rest : List UInt8} : [b] <+: a :: rest ↔ a = b := by
  rw [List.cons_prefix_cons]
  simp [eq_comm]

theorem prefix_pair_iff {a first second : UInt8} {rest : List UInt8} :
    [first, second] <+: a :: rest ↔ a = first ∧ rest.head? = some second := by
  rw [List.cons_prefix_cons]
  cases rest with
  | nil => simp
  | cons b rest => simp [eq_comm]

/-- How much of a text belongs to the segment that the symbol in front of it begins. -/
def regionLength (a : UInt8) (rest : List UInt8) : Nat :=
  if a = symbol '"' then stringLength rest
  else if a = symbol '#' then lengthThrough [symbol '\n'] rest
  else if [symbol '/', symbol '/'] <+: a :: rest then
    lengthThrough [symbol '\n'] rest.tail + 1
  else if [symbol '/', symbol '*'] <+: a :: rest then
    lengthThrough [symbol '*', symbol '/'] rest.tail + 1
  else if [symbol '$', symbol '\x7b'] <+: a :: rest then
    lengthThrough [symbol '\x7d'] rest.tail + 1
  else 0

/-- The segments of a text, from left to right. -/
def segments : List UInt8 → List (List UInt8)
  | [] => []
  | a :: rest =>
      (a :: rest.take (regionLength a rest)) :: segments (rest.drop (regionLength a rest))
termination_by text => text.length
decreasing_by
  simp only [List.length_cons, List.length_drop]
  omega

/-- Nothing of a text is lost between its segments. -/
theorem flatten_segments (text : List UInt8) : (segments text).flatten = text := by
  fun_induction segments text with
  | case1 => rfl
  | case2 a rest ih => rw [List.flatten_cons, ih, List.cons_append, List.take_append_drop]

/-! ## Counting segments -/

/-- The segment with the given index begins with a symbol. -/
def BeginsWith (segments : List (List UInt8)) (a : UInt8) (index : Nat) : Prop :=
  segments[index]?.bind List.head? = some a

instance (segments : List (List UInt8)) (a : UInt8) : DecidablePred (BeginsWith segments a) :=
  fun index => inferInstanceAs (Decidable (segments[index]?.bind List.head? = some a))

/-- How many of some segments begin with a symbol. -/
def countOf (a : UInt8) (segments : List (List UInt8)) : Nat :=
  segments.countP fun segment => decide (segment.head? = some a)

/-- The offset of the first segment whose index meets a condition. -/
def offset? (meets : Nat → Prop) [DecidablePred meets] (segments : List (List UInt8)) :
    Option Nat :=
  ((List.range segments.length).find? fun index => decide (meets index)).map fun index =>
    (segments.take index).flatten.length

/-- The balance that is counted from segments. The opening place is that of the first
segment that begins with the opening delimiter. The closing place is that of the first one
that begins with the closing delimiter and up to which, itself included, as many segments
begin with the one delimiter as with the other. -/
def Balance.ofSegments (opening closing : UInt8) (segments : List (List UInt8)) : Balance where
  opening? := offset? (BeginsWith segments opening) segments
  closing? := segments |> offset? fun index =>
    BeginsWith segments closing index ∧
      countOf opening (segments.take (index + 1)) = countOf closing (segments.take (index + 1))

section Counting

variable {a b : UInt8} {region : List UInt8} {rest : List (List UInt8)}

@[simp] theorem beginsWith_zero : BeginsWith ((a :: region) :: rest) b 0 ↔ a = b := by
  simp [BeginsWith]

@[simp] theorem beginsWith_succ {segment : List UInt8} {index : Nat} :
    BeginsWith (segment :: rest) b (index + 1) ↔ BeginsWith rest b index := Iff.rfl

@[simp] theorem countOf_nil (a : UInt8) : countOf a [] = 0 := rfl

@[simp] theorem countOf_cons :
    countOf b ((a :: region) :: rest) = countOf b rest + if a = b then 1 else 0 := by
  simp [countOf, List.countP_cons]

theorem offset?_congr {meets others : Nat → Prop} [DecidablePred meets] [DecidablePred others]
    (same : ∀ index, meets index ↔ others index) (segments : List (List UInt8)) :
    offset? meets segments = offset? others segments := by
  simp only [offset?, same]

theorem offset?_cons (meets : Nat → Prop) [DecidablePred meets] (segment : List UInt8)
    (rest : List (List UInt8)) :
    offset? meets (segment :: rest) =
      if meets 0 then some 0
      else (offset? (fun index => meets (index + 1)) rest).map (segment.length + ·) := by
  rw [offset?, List.length_cons, List.range_succ_eq_map, List.find?_cons]
  by_cases here : meets 0
  · rw [decide_eq_true here, if_pos here]
    rfl
  · rw [decide_eq_false here, if_neg here, List.find?_map, offset?, Option.map_map,
      Option.map_map]
    simp [Function.comp_def]

end Counting

/-! ## Passing over regions -/

namespace Balance

variable {opening closing : UInt8}

/-- A scan that comes to a text in the given mode goes on in code behind the first
`length` symbols. -/
def Skips (opening closing : UInt8) (mode : Mode) (length : Nat) (text : List UInt8) : Prop :=
  ∀ index depth first?, scan opening closing mode index depth first? text =
    scan opening closing .code (index + length) depth first? (text.drop length)

theorem skips_nil (mode : Mode) (length : Nat) : Skips opening closing mode length [] := by
  intro index depth first?
  rw [List.drop_nil]
  rfl

theorem skips_code (text : List UInt8) : Skips opening closing .code 0 text :=
  fun _ _ _ => rfl

/-- A symbol of a region is passed over. -/
theorem Skips.cons {mode : Mode} {length : Nat} {a : UInt8} {rest : List UInt8}
    (region : mode ≠ .code)
    (skips : Skips opening closing (mode.step a rest.head?) length rest) :
    Skips opening closing mode (length + 1) (a :: rest) := by
  intro index depth first?
  have shift : index + 1 + length = index + (length + 1) := by omega
  rw [scan, if_neg region, skips, shift]
  rfl

theorem skips_string (text : List UInt8) :
    Skips opening closing .string (stringLength text) text := by
  fun_induction stringLength text with
  | case1 => exact skips_nil _ _
  | case2 a => exact .cons nofun (skips_nil _ _)
  | case3 b rest ih =>
      have escape : Mode.string.step (symbol '\\' : UInt8) (some b) = .escape := rfl
      refine .cons nofun ?_
      rw [List.head?_cons, escape]
      exact .cons nofun ih
  | case4 b rest quote =>
      have ended : Mode.string.step (symbol '"' : UInt8) (some b) = .code := rfl
      refine .cons nofun ?_
      rw [List.head?_cons, ended]
      exact skips_code _
  | case5 a b rest plain inner ih =>
      have inside : Mode.string.step a (some b) = .string := by
        rw [Mode.step, if_neg plain, if_neg inner]
      refine .cons nofun ?_
      rwa [List.head?_cons, inside]

/-- A region that ends with the first occurrence of a single symbol. -/
theorem skips_through (mode : Mode) (last : UInt8) (region : mode ≠ .code)
    (step : ∀ a next?, mode.step a next? = if a = last then .code else mode)
    (text : List UInt8) : Skips opening closing mode (lengthThrough [last] text) text := by
  induction text with
  | nil => exact skips_nil _ _
  | cons a rest ih =>
      rw [lengthThrough]
      by_cases ended : a = last
      · rw [if_pos (prefix_singleton_iff.2 ended)]
        refine .cons region ?_
        rw [step, if_pos ended]
        exact skips_code rest
      · rw [if_neg (mt prefix_singleton_iff.1 ended)]
        refine .cons region ?_
        rwa [step, if_neg ended]

theorem skips_line (text : List UInt8) :
    Skips opening closing .lineComment (lengthThrough [symbol '\n'] text) text :=
  skips_through .lineComment (symbol '\n') nofun (fun _ _ => rfl) text

theorem skips_interpolation (text : List UInt8) :
    Skips opening closing .interpolation (lengthThrough [symbol '\x7d'] text) text :=
  skips_through .interpolation (symbol '\x7d') nofun (fun _ _ => rfl) text

/-- In front of anything but a slash, it makes no difference that a star came before. -/
theorem Skips.star {length : Nat} {text : List UInt8}
    (open_ : text.head? ≠ some (symbol '/'))
    (skips : Skips opening closing .comment length text) :
    Skips opening closing .commentStar length text := by
  cases text with
  | nil => exact skips_nil _ _
  | cons a rest =>
      have other : a ≠ symbol '/' := fun slash => open_ (congrArg some slash)
      have same : Mode.commentStar.step a rest.head? = Mode.comment.step a rest.head? := by
        rw [Mode.step, Mode.step, if_neg other]
      intro index depth first?
      rw [← skips, scan, scan, if_neg (by decide), if_neg (by decide), same]

theorem skips_comment (text : List UInt8) :
    Skips opening closing .comment (lengthThrough [symbol '*', symbol '/'] text) text := by
  induction text with
  | nil => exact skips_nil _ _
  | cons a rest ih =>
      rw [lengthThrough]
      by_cases star : a = symbol '*'
      · have starred : Mode.comment.step a rest.head? = .commentStar := by
          rw [Mode.step, if_pos star]
        by_cases slash : rest.head? = some (symbol '/')
        · obtain ⟨after, rfl⟩ := List.head?_eq_some_iff.1 slash
          have ended : Mode.commentStar.step (symbol '/' : UInt8) after.head? = .code := rfl
          rw [if_pos (prefix_pair_iff.2 ⟨star, rfl⟩)]
          refine .cons (by decide) ?_
          rw [starred]
          refine .cons (by decide) ?_
          rw [ended]
          exact skips_code after
        · rw [if_neg fun marked => slash (prefix_pair_iff.1 marked).2]
          refine .cons (by decide) ?_
          rw [starred]
          exact ih.star slash
      · have inside : Mode.comment.step a rest.head? = .comment := by
          rw [Mode.step, if_neg star]
        rw [if_neg fun marked => star (prefix_pair_iff.1 marked).1]
        refine .cons (by decide) ?_
        rwa [inside]

/-- Behind the first symbol of a segment, the scan goes on behind the segment. -/
theorem skips_region (a : UInt8) (rest : List UInt8) :
    Skips opening closing (Mode.code.step a rest.head?) (regionLength a rest) rest := by
  -- The symbol that opens a region together with `a` is part of the region itself.
  have opened : ∀ {mode : Mode} {second : UInt8} {length : Nat},
      rest.head? = some second → mode ≠ .code →
      Skips opening closing (mode.step second rest.tail.head?) length rest.tail →
      Skips opening closing mode (length + 1) rest := by
    intro mode second length ahead region skips
    obtain ⟨after, rfl⟩ := List.head?_eq_some_iff.1 ahead
    exact .cons region skips
  rw [Mode.step, regionLength]
  simp only [prefix_pair_iff]
  by_cases quote : a = symbol '"'
  · rw [if_pos quote, if_pos quote]
    exact skips_string rest
  · rw [if_neg quote, if_neg quote]
    by_cases hash : a = symbol '#'
    · rw [if_pos hash, if_pos hash]
      exact skips_line rest
    · rw [if_neg hash, if_neg hash]
      split
      next slashes => exact opened slashes.2 (by decide) (skips_line _)
      next =>
        split
        next star => exact opened star.2 (by decide) (skips_comment _)
        next =>
          split
          next dollar => exact opened dollar.2 (by decide) (skips_interpolation _)
          next => exact skips_code rest

/-! ## The scan and its segments -/

/-- A scan in code counts the first symbol of a segment and goes on behind the segment. -/
theorem scan_segment (a : UInt8) (rest : List UInt8) (index : Nat) (depth : Int)
    (first? : Option Nat) :
    scan opening closing .code index depth first? (a :: rest) =
      if a = closing ∧ countWith opening .code depth a = 1 then
        ⟨firstWith opening .code index first? a, some index⟩
      else
        scan opening closing .code (index + (a :: rest.take (regionLength a rest)).length)
          (if a = closing then countWith opening .code depth a - 1
            else countWith opening .code depth a)
          (firstWith opening .code index first? a) (rest.drop (regionLength a rest)) := by
  have behind : ∀ depth first?,
      scan opening closing (Mode.code.step a rest.head?) (index + 1) depth first? rest =
        scan opening closing .code (index + (a :: rest.take (regionLength a rest)).length) depth
          first? (rest.drop (regionLength a rest)) := by
    intro depth first?
    rw [skips_region a rest]
    rcases Nat.le_total (regionLength a rest) rest.length with within | beyond
    · rw [List.length_cons, List.length_take_of_le within, Nat.add_assoc, Nat.add_comm 1]
    · rw [List.drop_eq_nil_of_le beyond]
      rfl
  rw [scan_cons, behind]
  simp only [true_and]

/-- The scan of a text that comes to it with a count of `depth`. -/
theorem scan_eq_ofSegments (index : Nat) (depth : Int) (first? : Option Nat) (text : List UInt8)
    (counted : 0 < depth → first?.isSome = true) :
    scan opening closing .code index depth first? text =
      ⟨first? <|> (offset? (BeginsWith (segments text) opening) (segments text)).map (index + ·),
        (segments text |> offset? fun place => BeginsWith (segments text) closing place ∧
          depth + countOf opening ((segments text).take (place + 1)) =
            countOf closing ((segments text).take (place + 1))).map (index + ·)⟩ := by
  fun_induction segments text generalizing index depth first? with
  | case1 => simp [scan, offset?]
  | case2 a rest ih =>
      rw [scan_segment, offset?_cons, offset?_cons]
      simp only [beginsWith_zero, beginsWith_succ, List.take_succ_cons, List.take_zero, countOf_cons,
        countOf_nil]
      generalize regionLength a rest = length at ih ⊢
      generalize segments (rest.drop length) = later at ih ⊢
      generalize (a :: rest.take length).length = size
      -- Whatever the first symbol is, the first place is known or still to come.
      have opens : (first? <|> (if a = opening then some 0
            else (offset? (BeginsWith later opening) later).map (size + ·)).map (index + ·)) =
          (firstWith opening .code index first? a <|>
            (offset? (BeginsWith later opening) later).map (index + size + ·)) := by
        simp only [firstWith, true_and]
        split
        next => cases first? <;> rfl
        next => simp [Option.map_map, Function.comp_def, Nat.add_assoc]
      -- The first symbol moves what is left to count by one, in either direction.
      have counts : ∀ place, (BeginsWith later closing place ∧ depth +
            ((countOf opening (later.take (place + 1)) + if a = opening then 1 else 0 : Nat) : Int) =
            ((countOf closing (later.take (place + 1)) + if a = closing then 1 else 0 : Nat) : Int)) ↔
          BeginsWith later closing place ∧ (if a = closing then countWith opening .code depth a - 1
            else countWith opening .code depth a) + countOf opening (later.take (place + 1)) =
            countOf closing (later.take (place + 1)) := by
        intro place
        refine and_congr_right fun _ => ?_
        simp only [countWith, true_and]
        split <;> split <;> omega
      have here : (a = closing ∧ depth + ((0 + if a = opening then 1 else 0 : Nat) : Int) =
          ((0 + if a = closing then 1 else 0 : Nat) : Int)) ↔
          a = closing ∧ countWith opening .code depth a = 1 := by
        refine and_congr_right fun closed => ?_
        simp only [countWith, true_and, if_pos closed]
        split <;> omega
      rw [opens, offset?_congr counts]
      simp only [here]
      by_cases ends : a = closing ∧ countWith opening .code depth a = 1
      · have known : (firstWith opening .code index first? a).isSome = true :=
          isSome_firstWith counted (by omega)
        obtain ⟨place, first⟩ := Option.isSome_iff_exists.1 known
        rw [if_pos ends, if_pos ends, first]
        rfl
      · rw [if_neg ends, if_neg ends, ih _ _ _ fun positive => isSome_firstWith counted ?_]
        · simp [Option.map_map, Function.comp_def, Nat.add_assoc]
        · split at positive <;> omega

/-- The balance of a text is the one that is counted from its segments. -/
theorem find_eq_ofSegments (opening closing : UInt8) (text : List UInt8) :
    find opening closing text = ofSegments opening closing (segments text) := by
  have counts : ∀ place, (BeginsWith (segments text) closing place ∧
      (0 : Int) + countOf opening ((segments text).take (place + 1)) =
        countOf closing ((segments text).take (place + 1))) ↔
      BeginsWith (segments text) closing place ∧
        countOf opening ((segments text).take (place + 1)) =
          countOf closing ((segments text).take (place + 1)) := by
    intro place
    rw [Int.zero_add, Int.natCast_inj]
  rw [find, scan_eq_ofSegments 0 0 none text nofun, offset?_congr counts, ofSegments]
  simp

end Balance

end ProviderMigration.Block
