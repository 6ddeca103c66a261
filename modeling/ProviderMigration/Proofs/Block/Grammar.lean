import ProviderMigration.Proofs.Block.Segment

/-!
# Well-formed blocks

A text is well formed when it can be read as a sequence of items: bytes that stand for
themselves, complete strings, comments and interpolations, and blocks of further items
between braces. The scan finds such a block exactly, wherever braces are hidden in it and
whatever follows it. A sequence of items within braces leaves the count and the first place
as they were, which is what the induction over its items carries along.
-/

namespace ProviderMigration.Block

/-! ## Items -/

/-- What may stand between the quotes of a string. A backslash stands together with the
byte behind it. -/
inductive IsQuoted : List UInt8 → Prop where
  | nil : IsQuoted []
  | plain {a : UInt8} {rest : List UInt8} (quote : a ≠ symbol '"') (backslash : a ≠ symbol '\\')
      (quoted : IsQuoted rest) : IsQuoted (a :: rest)
  | escape {a : UInt8} {rest : List UInt8} (quoted : IsQuoted rest) :
      IsQuoted (symbol '\\' :: a :: rest)

/-- A complete string, comment or interpolation. -/
inductive IsRegion : List UInt8 → Prop where
  | string {body : List UInt8} (quoted : IsQuoted body) :
      IsRegion (symbol '"' :: (body ++ [symbol '"']))
  | hash {body : List UInt8} (line : symbol '\n' ∉ body) :
      IsRegion (symbol '#' :: (body ++ [symbol '\n']))
  | slashes {body : List UInt8} (line : symbol '\n' ∉ body) :
      IsRegion (symbol '/' :: symbol '/' :: (body ++ [symbol '\n']))
  | comment {body : List UInt8} (inside : ¬ [symbol '*', symbol '/'] <:+: body) :
      IsRegion (symbol '/' :: symbol '*' :: (body ++ [symbol '*', symbol '/']))
  | interpolation {body : List UInt8} (inside : symbol '\x7d' ∉ body) :
      IsRegion (symbol '$' :: symbol '\x7b' :: (body ++ [symbol '\x7d']))

/-- A byte that stands for itself in front of the byte `next`. -/
def IsPlain (a next : UInt8) : Prop :=
  a ∉ [symbol '\x7b', symbol '\x7d', symbol '"', symbol '#'] ∧
    (a = symbol '/' → next ≠ symbol '/' ∧ next ≠ symbol '*') ∧
    (a = symbol '$' → next ≠ symbol '\x7b')

instance (a next : UInt8) : Decidable (IsPlain a next) := by
  unfold IsPlain
  infer_instance

/-- A text between braces. -/
def braced (inner : List UInt8) : List UInt8 :=
  symbol '\x7b' :: (inner ++ [symbol '\x7d'])

/-- A sequence of items that stands in front of the byte `next`. Blocks are among them only
if `nested` says so. -/
inductive Items : (nested : Bool) → (next : UInt8) → List UInt8 → Prop where
  | nil {nested : Bool} {next : UInt8} : Items nested next []
  | plain {nested : Bool} {next a : UInt8} {rest : List UInt8}
      (plain : IsPlain a (rest.head?.getD next)) (items : Items nested next rest) :
      Items nested next (a :: rest)
  | region {nested : Bool} {next : UInt8} {region rest : List UInt8} (complete : IsRegion region)
      (items : Items nested next rest) : Items nested next (region ++ rest)
  | block {next : UInt8} {inner rest : List UInt8} (inside : Items true (symbol '\x7d') inner)
      (items : Items true next rest) : Items true next (braced inner ++ rest)

/-- A block is a sequence of items between braces. -/
def IsBlock (text : List UInt8) : Prop :=
  ∃ inner, Items true (symbol '\x7d') inner ∧ text = braced inner

/-! ## The lengths of regions -/

theorem stringLength_cons {a : UInt8} {rest : List UInt8} (backslash : a ≠ symbol '\\') :
    stringLength (a :: rest) = if a = symbol '"' then 1 else stringLength rest + 1 := by
  cases rest with
  | nil => simp [stringLength]
  | cons b rest => rw [stringLength, if_neg backslash]

theorem IsQuoted.stringLength_append {body : List UInt8} (quoted : IsQuoted body)
    (rest : List UInt8) : stringLength (body ++ symbol '"' :: rest) = body.length + 1 := by
  induction quoted with
  | nil => rw [List.nil_append, stringLength_cons (by decide), if_pos rfl, List.length_nil]
  | plain quote backslash _ ih =>
      rw [List.cons_append, stringLength_cons backslash, if_neg quote, ih, List.length_cons]
  | escape _ ih =>
      rw [List.cons_append, List.cons_append, stringLength, if_pos rfl, ih, List.length_cons,
        List.length_cons]

theorem lengthThrough_singleton_append {mark : UInt8} {body : List UInt8} (absent : mark ∉ body)
    (rest : List UInt8) : lengthThrough [mark] (body ++ mark :: rest) = body.length + 1 := by
  induction body with
  | nil => rw [List.nil_append, lengthThrough, if_pos (prefix_singleton_iff.2 rfl)]; rfl
  | cons a body ih =>
      obtain ⟨other, absent⟩ := not_or.1 (mt List.mem_cons.2 absent)
      rw [List.cons_append, lengthThrough, if_neg (mt prefix_singleton_iff.1 (Ne.symm other)),
        ih absent, List.length_cons]

theorem lengthThrough_comment_append {body : List UInt8}
    (absent : ¬ [symbol '*', symbol '/'] <:+: body) (rest : List UInt8) :
    lengthThrough [symbol '*', symbol '/'] (body ++ symbol '*' :: symbol '/' :: rest) =
      body.length + 2 := by
  induction body with
  | nil =>
      rw [List.nil_append, lengthThrough, if_pos ⟨rest, rfl⟩]
      rfl
  | cons a body ih =>
      have unmarked : ¬ [symbol '*', symbol '/'] <+:
          a :: (body ++ symbol '*' :: symbol '/' :: rest) := by
        intro marked
        obtain ⟨rfl, slash⟩ := prefix_pair_iff.1 marked
        cases body with
        | nil => exact absurd (Option.some_inj.1 slash) (by decide)
        | cons b body =>
            obtain rfl := Option.some_inj.1 slash
            exact absent ⟨[], body, rfl⟩
      have later : ¬ [symbol '*', symbol '/'] <:+: body :=
        fun inside => absent (inside.trans (List.suffix_cons a body).isInfix)
      rw [List.cons_append, lengthThrough, if_neg unmarked, ih later, List.length_cons]

/-- A complete region is one segment of every text that it begins, and no brace stands at
its front. -/
theorem IsRegion.exists_regionLength {region : List UInt8} (complete : IsRegion region) :
    ∃ a body, region = a :: body ∧ a ≠ symbol '\x7b' ∧ a ≠ symbol '\x7d' ∧
      ∀ rest, regionLength a (body ++ rest) = body.length := by
  cases complete with
  | string quoted =>
      refine ⟨_, _, rfl, by decide, by decide, fun rest => ?_⟩
      rw [regionLength, if_pos rfl, List.append_assoc, List.singleton_append,
        quoted.stringLength_append, List.length_append, List.length_singleton]
  | hash line =>
      refine ⟨_, _, rfl, by decide, by decide, fun rest => ?_⟩
      rw [regionLength, if_neg (by decide), if_pos rfl, List.append_assoc, List.singleton_append,
        lengthThrough_singleton_append line, List.length_append, List.length_singleton]
  | slashes line =>
      refine ⟨_, _, rfl, by decide, by decide, fun rest => ?_⟩
      rw [regionLength, if_neg (by decide), if_neg (by decide), if_pos ⟨_, rfl⟩]
      simp [lengthThrough_singleton_append line]
  | comment inside =>
      refine ⟨_, _, rfl, by decide, by decide, fun rest => ?_⟩
      have star (text : List UInt8) :
          ¬ [symbol '/', symbol '/'] <+: symbol '/' :: symbol '*' :: text :=
        fun slashes => absurd (Option.some_inj.1 (prefix_pair_iff.1 slashes).2) (by decide)
      rw [List.cons_append, regionLength, if_neg (by decide), if_neg (by decide), if_neg (star _),
        if_pos ⟨_, rfl⟩]
      simp [lengthThrough_comment_append inside]
  | interpolation inside =>
      refine ⟨_, _, rfl, by decide, by decide, fun rest => ?_⟩
      rw [List.cons_append, regionLength, if_neg (by decide), if_neg (by decide),
        if_neg fun slashes => absurd (prefix_pair_iff.1 slashes).1 (by decide),
        if_neg fun star => absurd (prefix_pair_iff.1 star).1 (by decide), if_pos ⟨_, rfl⟩]
      simp [lengthThrough_singleton_append inside]

/-- A byte that stands for itself is a segment by itself. -/
theorem IsPlain.regionLength_eq {a next : UInt8} (plain : IsPlain a next) {rest : List UInt8}
    (ahead : rest.head? = some next) : regionLength a rest = 0 := by
  obtain ⟨ordinary, slash, dollar⟩ := plain
  obtain ⟨rest, rfl⟩ := List.head?_eq_some_iff.1 ahead
  simp only [List.mem_cons, List.not_mem_nil, or_false, not_or] at ordinary
  have pair : ∀ {first second : UInt8}, [first, second] <+: a :: next :: rest →
      a = first ∧ next = second :=
    fun marked => (prefix_pair_iff.1 marked).imp_right Option.some_inj.1
  rw [regionLength, if_neg ordinary.2.2.1, if_neg ordinary.2.2.2,
    if_neg fun both => (slash (pair both).1).1 (pair both).2,
    if_neg fun both => (slash (pair both).1).2 (pair both).2,
    if_neg fun both => dollar (pair both).1 (pair both).2]

/-! ## The scan of items -/

namespace Balance

/-- A brace is counted, and the scan goes on right behind it. -/
theorem scan_opening (rest : List UInt8) (index : Nat) (depth : Int) (first? : Option Nat) :
    scan (symbol '\x7b') (symbol '\x7d') .code index depth first? (symbol '\x7b' :: rest) =
      scan (symbol '\x7b') (symbol '\x7d') .code (index + 1) (depth + 1)
        (first? <|> some index) rest := rfl

theorem scan_closing (rest : List UInt8) (index : Nat) (depth : Int) (first? : Option Nat) :
    scan (symbol '\x7b') (symbol '\x7d') .code index depth first? (symbol '\x7d' :: rest) =
      if depth = 1 then ⟨first?, some index⟩
      else scan (symbol '\x7b') (symbol '\x7d') .code (index + 1) (depth - 1) first? rest := rfl

/-- A segment that does not begin with a brace is passed over. -/
theorem scan_other {a : UInt8} (opens : a ≠ symbol '\x7b') (closes : a ≠ symbol '\x7d')
    {body rest : List UInt8} (length : regionLength a (body ++ rest) = body.length) (index : Nat)
    (depth : Int) (first? : Option Nat) :
    scan (symbol '\x7b') (symbol '\x7d') .code index depth first? (a :: body ++ rest) =
      scan (symbol '\x7b') (symbol '\x7d') .code (index + (a :: body).length) depth first?
        rest := by
  rw [List.cons_append, scan_segment, length, List.take_left, List.drop_left]
  simp only [firstWith, countWith, opens, closes, and_false, false_and, if_false]

/-- The scan passes over a sequence of items. If there are blocks among them, it has to be
within a block already: a count of zero would end it with the first of them. -/
theorem scan_items {nested : Bool} {next : UInt8} {text : List UInt8}
    (items : Items nested next text) {rest : List UInt8} (ahead : rest.head? = some next)
    (index : Nat) {depth : Int} {first? : Option Nat}
    (within : nested = true → 0 < depth ∧ first?.isSome = true) :
    scan (symbol '\x7b') (symbol '\x7d') .code index depth first? (text ++ rest) =
      scan (symbol '\x7b') (symbol '\x7d') .code (index + text.length) depth first? rest := by
  induction items generalizing rest index depth first? with
  | nil => rfl
  | @plain nested next a text plain items ih =>
      have follows : (text ++ rest).head? = some (text.head?.getD next) := by
        cases text with
        | nil => exact ahead
        | cons b text => rfl
      have alone : regionLength a ([] ++ (text ++ rest)) = ([] : List UInt8).length :=
        plain.regionLength_eq follows
      simp only [IsPlain, List.mem_cons, not_or] at plain
      rw [List.cons_append, ← List.singleton_append, scan_other plain.1.1 plain.1.2.1 alone,
        ih ahead _ within, Nat.add_assoc, ← List.length_append, List.singleton_append]
  | region complete items ih =>
      obtain ⟨a, body, rfl, opens, closes, length⟩ := complete.exists_regionLength
      rw [List.append_assoc, scan_other opens closes (length _), ih ahead _ within, Nat.add_assoc,
        ← List.length_append]
  | @block next inner text inside items innerIh ih =>
      obtain ⟨positive, found⟩ := within rfl
      obtain ⟨place, rfl⟩ := Option.isSome_iff_exists.1 found
      have split : braced inner ++ text ++ rest =
          symbol '\x7b' :: (inner ++ symbol '\x7d' :: (text ++ rest)) := by simp [braced]
      rw [split, scan_opening, innerIh rfl _ fun _ => ⟨by omega, rfl⟩, scan_closing,
        if_neg (by omega), Int.add_sub_cancel]
      have size : index + 1 + inner.length + 1 + text.length =
          index + (braced inner ++ text).length := by
        simp only [braced, List.length_append, List.length_cons, List.length_nil]
        omega
      rw [← size]
      exact ih ahead _ within

/-- A block in front of which there is none is found exactly, whatever follows it. -/
theorem find_block {before block : List UInt8} (items : Items false (symbol '\x7b') before)
    (complete : IsBlock block) (rest : List UInt8) :
    find (symbol '\x7b') (symbol '\x7d') (before ++ block ++ rest) =
      ⟨some before.length, some (before.length + block.length - 1)⟩ := by
  obtain ⟨inner, inside, rfl⟩ := complete
  have split : before ++ braced inner ++ rest =
      before ++ symbol '\x7b' :: (inner ++ symbol '\x7d' :: rest) := by simp [braced]
  have last : before.length + (braced inner).length - 1 = before.length + 1 + inner.length := by
    simp only [braced, List.length_append, List.length_cons, List.length_nil]
    omega
  rw [find, split, scan_items items rfl _ (absurd · Bool.false_ne_true), Nat.zero_add, scan_opening,
    scan_items inside rfl _ fun _ => ⟨by decide, rfl⟩, scan_closing, if_pos (by decide), last]
  rfl

/-- A slash in front of a block that holds a quoted brace and a block of its own. -/
theorem find_block_of_quoted_brace :
    Items false (symbol '\x7b') [symbol '/'] ∧
      IsBlock (braced ([symbol '"', symbol '\x7d', symbol '"'] ++ (braced [] ++ []))) ∧
      find (symbol '\x7b') (symbol '\x7d') ([symbol '/'] ++
        braced ([symbol '"', symbol '\x7d', symbol '"'] ++ (braced [] ++ [])) ++
        [symbol '\x7d', symbol '/']) = ⟨some 1, some 7⟩ := by
  have before : Items false (symbol '\x7b') [symbol '/'] := .plain (by decide) .nil
  have quoted : IsRegion [symbol '"', symbol '\x7d', symbol '"'] :=
    .string (.plain (by decide) (by decide) .nil)
  have block : IsBlock (braced ([symbol '"', symbol '\x7d', symbol '"'] ++ (braced [] ++ []))) :=
    ⟨_, .region quoted (.block .nil .nil), rfl⟩
  exact ⟨before, block, find_block before block [symbol '\x7d', symbol '/']⟩

end Balance

end ProviderMigration.Block
