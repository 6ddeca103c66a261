import ProviderMigration.Text.Occurrence

/-!
# Byte offsets

Places in a text are reported as offsets into its UTF-8 form. An offset that
falls inside a character, or beyond the end, is no place of the text.
-/

namespace ProviderMigration.Text

/-- The length of the UTF-8 form of a text. -/
def byteSize : List Char → Nat
  | [] => 0
  | c :: text => c.utf8Size + byteSize text

@[simp] theorem byteSize_nil : byteSize [] = 0 := rfl

@[simp] theorem byteSize_cons (c : Char) (text : List Char) :
    byteSize (c :: text) = c.utf8Size + byteSize text := rfl

@[simp] theorem byteSize_append (first second : List Char) :
    byteSize (first ++ second) = byteSize first + byteSize second := by
  induction first with
  | nil => simp
  | cons c first ih => simp [ih, Nat.add_assoc]

theorem byteSize_eq_zero_iff {text : List Char} : byteSize text = 0 ↔ text = [] := by
  cases text with
  | nil => simp
  | cons c text => simp [Nat.ne_of_gt c.utf8Size_pos]

/-- The UTF-8 form of a text. -/
def utf8 (text : List Char) : List UInt8 :=
  text.flatMap String.utf8EncodeChar

theorem utf8_cons (c : Char) (text : List Char) :
    utf8 (c :: text) = String.utf8EncodeChar c ++ utf8 text := rfl

theorem utf8_append (first second : List Char) :
    utf8 (first ++ second) = utf8 first ++ utf8 second :=
  List.flatMap_append

theorem length_utf8 (text : List Char) : (utf8 text).length = byteSize text := by
  induction text with
  | nil => rfl
  | cons c text ih =>
      rw [utf8_cons, List.length_append, String.length_utf8EncodeChar, ih, byteSize_cons]

/-- The text cut at a byte offset, when a character starts or the text ends
there. -/
def cutAtByte? (offset : Nat) (text : List Char) : Option (List Char × List Char) :=
  go [] offset text
where
  /-- `passed` holds the characters already passed over, latest first. -/
  go (passed : List Char) : Nat → List Char → Option (List Char × List Char)
    | 0, text => some (passed.reverse, text)
    | _ + 1, [] => none
    | left + 1, c :: rest =>
        if c.utf8Size ≤ left + 1 then
          go (c :: passed) (left + 1 - c.utf8Size) rest
        else
          none

/-- The longest start of a text whose UTF-8 form has at most `size` bytes. -/
def takeBytes (size : Nat) (text : List Char) : List Char :=
  go [] size text
where
  /-- `passed` holds the characters already taken, latest first. -/
  go (passed : List Char) : Nat → List Char → List Char
    | _, [] => passed.reverse
    | left, c :: rest =>
        if c.utf8Size ≤ left then
          go (c :: passed) (left - c.utf8Size) rest
        else
          passed.reverse

/-- What follows the longest start of at most `size` bytes. -/
def dropBytes (size : Nat) : List Char → List Char
  | [] => []
  | c :: rest =>
      if c.utf8Size ≤ size then dropBytes (size - c.utf8Size) rest else c :: rest

private theorem takeBytes_go_eq (passed : List Char) (size : Nat) (text : List Char) :
    takeBytes.go passed size text = passed.reverse ++ takeBytes size text := by
  induction text generalizing passed size with
  | nil => simp [takeBytes, takeBytes.go]
  | cons c rest ih =>
      simp only [takeBytes, takeBytes.go]
      split
      next =>
        rw [ih (c :: passed), ih [c]]
        simp
      next => simp

@[simp] theorem takeBytes_nil (size : Nat) : takeBytes size [] = [] := rfl

theorem takeBytes_cons (size : Nat) (c : Char) (rest : List Char) :
    takeBytes size (c :: rest) =
      if c.utf8Size ≤ size then c :: takeBytes (size - c.utf8Size) rest else [] := by
  simp only [takeBytes, takeBytes.go]
  split
  next =>
    rw [takeBytes_go_eq]
    simp [takeBytes]
  next => rfl

/-- The two parts make up the text, wherever the offset falls. -/
@[simp] theorem takeBytes_append_dropBytes (size : Nat) (text : List Char) :
    takeBytes size text ++ dropBytes size text = text := by
  induction text generalizing size with
  | nil => rfl
  | cons c rest ih =>
      rw [takeBytes_cons, dropBytes]
      split
      next => simp [ih]
      next => rfl

theorem byteSize_takeBytes_le (size : Nat) (text : List Char) :
    byteSize (takeBytes size text) ≤ size := by
  induction text generalizing size with
  | nil => simp
  | cons c rest ih =>
      rw [takeBytes_cons]
      split
      next fits =>
        have bound := ih (size - c.utf8Size)
        rw [byteSize_cons]
        omega
      next => simp

/-- An offset at which a character starts divides the text there. -/
@[simp] theorem takeBytes_byteSize_append (first second : List Char) :
    takeBytes (byteSize first) (first ++ second) = first := by
  induction first with
  | nil =>
      cases second with
      | nil => rfl
      | cons c rest => simp [takeBytes_cons, Nat.ne_of_gt c.utf8Size_pos]
  | cons c first ih => simp [takeBytes_cons, ih]

@[simp] theorem dropBytes_byteSize_append (first second : List Char) :
    dropBytes (byteSize first) (first ++ second) = second := by
  have joined := takeBytes_append_dropBytes (byteSize first) (first ++ second)
  rw [takeBytes_byteSize_append] at joined
  exact List.append_cancel_left joined

theorem dropBytes_byteSize_add (first second : List Char) (size : Nat) :
    dropBytes (byteSize first + size) (first ++ second) = dropBytes size second := by
  induction first with
  | nil => simp
  | cons c first ih =>
      rw [byteSize_cons, List.cons_append, dropBytes, if_pos (by omega)]
      have left : c.utf8Size + byteSize first + size - c.utf8Size = byteSize first + size := by
        omega
      rw [left, ih]

private theorem cutAtByte?_go_eq_some {passed text before rest : List Char} {offset : Nat}
    (cut : cutAtByte?.go passed offset text = some (before, rest)) :
    ∃ stretch, before = passed.reverse ++ stretch ∧ text = stretch ++ rest ∧
      byteSize stretch = offset := by
  induction text generalizing passed offset with
  | nil =>
      cases offset with
      | zero =>
          obtain ⟨rfl, rfl⟩ := by simpa [cutAtByte?.go] using cut
          exact ⟨[], by simp⟩
      | succ offset => simp [cutAtByte?.go] at cut
  | cons c text ih =>
      cases offset with
      | zero =>
          obtain ⟨rfl, rfl⟩ := by simpa [cutAtByte?.go] using cut
          exact ⟨[], by simp⟩
      | succ offset =>
          simp only [cutAtByte?.go] at cut
          split at cut
          next fits =>
            obtain ⟨stretch, rfl, rfl, size⟩ := ih cut
            refine ⟨c :: stretch, by simp, rfl, ?_⟩
            rw [byteSize_cons, size]
            omega
          next => contradiction

/-- A cut at an offset divides the text there. -/
theorem append_of_cutAtByte? {offset : Nat} {text before rest : List Char}
    (cut : cutAtByte? offset text = some (before, rest)) :
    text = before ++ rest ∧ byteSize before = offset := by
  obtain ⟨stretch, rfl, rfl, size⟩ := cutAtByte?_go_eq_some cut
  exact ⟨rfl, size⟩

private theorem cutAtByte?_go_byteSize (passed first second : List Char) :
    cutAtByte?.go passed (byteSize first) (first ++ second) =
      some (passed.reverse ++ first, second) := by
  induction first generalizing passed with
  | nil =>
      cases second with
      | nil => simp [cutAtByte?.go]
      | cons c second => simp [cutAtByte?.go]
  | cons c first ih =>
      obtain ⟨size, positive⟩ := Nat.exists_eq_add_one_of_ne_zero (Nat.ne_of_gt c.utf8Size_pos)
      rw [byteSize_cons, positive, Nat.add_right_comm, List.cons_append, cutAtByte?.go,
        if_pos (by omega)]
      have left : size + byteSize first + 1 - c.utf8Size = byteSize first := by omega
      rw [left, ih]
      simp

/-- There is a cut wherever a character starts or the text ends. -/
theorem cutAtByte?_byteSize_append (first second : List Char) :
    cutAtByte? (byteSize first) (first ++ second) = some (first, second) := by
  simpa [cutAtByte?] using cutAtByte?_go_byteSize [] first second

theorem le_of_mem_utf8EncodeChar {c : Char} {b : UInt8} (wide : c.utf8Size ≠ 1)
    (member : b ∈ String.utf8EncodeChar c) : 0x80 ≤ b.toNat := by
  have large : ¬ c.val.toNat ≤ 0x7f := by
    intro small
    exact wide (Char.utf8Size_eq_one_iff.2 (UInt32.le_iff_toNat_le.2 small))
  simp only [String.utf8EncodeChar, if_neg large] at member
  (repeat' split at member) <;> simp only [List.mem_cons, List.not_mem_nil, or_false] at member <;>
    rcases member with rfl | rfl | rfl | rfl <;> simp only [UInt8.toNat_ofNat'] <;> omega

/-- An ASCII byte in the UTF-8 form of a text is a character of the text, and
the offset of the byte is the place of the character. -/
theorem exists_char_of_utf8_getElem? {text : List Char} {index : Nat} {b : UInt8}
    (found : (utf8 text)[index]? = some b) (ascii : b.toNat < 0x80) :
    ∃ before c after, text = before ++ c :: after ∧ byteSize before = index ∧
      c.utf8Size = 1 ∧ c.toNat = b.toNat := by
  induction text generalizing index with
  | nil => simp [utf8] at found
  | cons d text ih =>
      by_cases inside : index < d.utf8Size
      · rw [utf8_cons, List.getElem?_append_left (by simpa using inside)] at found
        by_cases narrow : d.utf8Size = 1
        · obtain rfl : index = 0 := by omega
          refine ⟨[], d, text, rfl, rfl, narrow, ?_⟩
          rw [String.utf8EncodeChar_eq_singleton narrow] at found
          obtain rfl := by simpa using found
          have small := UInt32.le_iff_toNat_le.1 (Char.utf8Size_eq_one_iff.1 narrow)
          change d.val.toNat = d.val.toUInt8.toNat
          rw [UInt32.toNat_toUInt8]
          exact (Nat.mod_eq_of_lt (Nat.lt_of_le_of_lt small (by decide))).symm
        · have := le_of_mem_utf8EncodeChar narrow (List.mem_of_getElem? found)
          omega
      · rw [utf8_cons, List.getElem?_append_right (by simpa using inside)] at found
        obtain ⟨before, c, after, rfl, size, narrow, same⟩ := ih found
        refine ⟨d :: before, c, after, rfl, ?_, narrow, same⟩
        rw [byteSize_cons, size, String.length_utf8EncodeChar]
        omega

/-- A stretch of a text, from the byte at `start` up to the byte before `stop`. -/
structure Span where
  start : Nat
  stop : Nat
  deriving DecidableEq, Repr

/-- The place of the first occurrence of a token. -/
def Span.find? (token text : List Char) : Option Span :=
  (cutAt? token text).map fun (before, _) =>
    ⟨byteSize before, byteSize before + byteSize token⟩

/-- The place of the first occurrence of a token at or after the byte `start`,
counted from `start`. There is none when `start` is no place of the text. -/
def Span.findFrom? (token text : List Char) (start : Nat) : Option Span := do
  let (_, rest) ← cutAtByte? start text
  find? token rest

/-- Searching from a place of the text is searching what follows it. -/
theorem Span.findFrom?_byteSize_append (token first second : List Char) :
    findFrom? token (first ++ second) (byteSize first) = find? token second := by
  simp [findFrom?, cutAtByte?_byteSize_append]

/-- A token that is found divides the text: what precedes the search, what the
search passes over, and the text from the token on. -/
theorem Span.exists_of_findFrom?_eq_some {token text : List Char} {start : Nat} {span : Span}
    (located : findFrom? token text start = some span) :
    ∃ passed before found, text = passed ++ (before ++ found) ∧ byteSize passed = start ∧
      byteSize before = span.start ∧ cutAt? token (before ++ found) = some (before, found) := by
  simp only [findFrom?, find?, Option.bind_eq_bind, Option.bind_eq_some_iff,
    Option.map_eq_some_iff, Prod.exists] at located
  obtain ⟨passed, rest, divided, before, found, cut, rfl⟩ := located
  obtain ⟨rfl, size⟩ := append_of_cutAtByte? divided
  have joined := append_of_cutAt? cut
  subst joined
  exact ⟨passed, before, found, rfl, size, rfl, cut⟩

end ProviderMigration.Text
