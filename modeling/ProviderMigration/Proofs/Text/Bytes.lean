import ProviderMigration.Text.Offset

/-!
# Texts as bytes

A text is a list of characters here, but offsets count the bytes of its UTF-8 form. This
module holds the operations on texts once more, on bytes, where nothing keeps an offset from
falling inside a character. A part of a text is cut out between two offsets, and that is
refused unless both are places of the text. On the bytes of a text, nothing that is said of
its characters changes: a token is found at the offset of the character it starts with, and
what is cut out or exchanged are the bytes of characters.
-/

namespace ProviderMigration.Text

/-- A text as it is held, whose bytes need not be the UTF-8 form of anything. -/
abbrev Bytes := List UInt8

namespace Bytes

/-- Whether a text may be cut at an offset: a character starts there, or the text ends. -/
def isPlace (bytes : Bytes) (offset : Nat) : Bool :=
  match bytes[offset]? with
  | some b => b.IsUTF8FirstByte
  | none => offset = bytes.length

/-- What stands between two offsets. It is refused if one of them is no place of the text, or
if they are not in order. -/
def slice? (bytes : Bytes) (start stop : Nat) : Option Bytes :=
  if start ≤ stop ∧ bytes.isPlace start ∧ bytes.isPlace stop then
    some ((bytes.take stop).drop start)
  else none

/-- The characters that bytes are the UTF-8 form of. -/
def decode? (bytes : Bytes) : Option (List Char) :=
  bytes.toByteArray.utf8Decode?.map Array.toList

/-- The offset at which a token occurs first. -/
def offsetOf? (token : Bytes) : Bytes → Option Nat
  | [] => if token.isEmpty then some 0 else none
  | b :: rest =>
      if token.isPrefixOf (b :: rest) then some 0 else (offsetOf? token rest).map (· + 1)

/-- The text with the first occurrence of `token` exchanged for `other`. -/
def replaceFirst (token other bytes : Bytes) : Bytes :=
  match offsetOf? token bytes with
  | none => bytes
  | some offset => bytes.take offset ++ other ++ bytes.drop (offset + token.length)

theorem length_of_slice? {bytes part : Bytes} {start stop : Nat}
    (cut : bytes.slice? start stop = some part) :
    start ≤ stop ∧ stop ≤ bytes.length ∧ part.length = stop - start := by
  rw [slice?, Option.ite_none_right_eq_some] at cut
  obtain ⟨⟨ordered, -, last⟩, same⟩ := cut
  obtain rfl := Option.some.inj same
  have within : stop ≤ bytes.length := by
    refine Nat.not_lt.1 fun beyond => ?_
    rw [isPlace, List.getElem?_eq_none (by omega)] at last
    exact absurd (of_decide_eq_true last) (by omega)
  refine ⟨ordered, within, ?_⟩
  rw [List.length_drop, List.length_take_of_le within]

/-! ## Places of a text -/

theorem isPlace_utf8 (before after : List Char) :
    isPlace (utf8 (before ++ after)) (byteSize before) = true := by
  rw [isPlace, utf8_append, List.getElem?_append_right (Nat.le_of_eq (length_utf8 before)),
    length_utf8, Nat.sub_self]
  cases after with
  | nil =>
      change decide (byteSize before = (utf8 before ++ utf8 []).length) = true
      rw [List.length_append, length_utf8]
      exact decide_eq_true rfl
  | cons c after =>
      have positive : 0 < (String.utf8EncodeChar c).length :=
        List.length_pos_iff.2 String.utf8EncodeChar_ne_nil
      rw [utf8_cons, List.getElem?_append_left positive, List.getElem?_eq_getElem positive]
      exact decide_eq_true UInt8.isUTF8FirstByte_getElem_zero_utf8EncodeChar

/-- Both sides of an ASCII character are places. -/
theorem isPlace_of_getElem? {text : List Char} {offset : Nat} {b : UInt8}
    (found : (utf8 text)[offset]? = some b) (ascii : b.toNat < 0x80) :
    isPlace (utf8 text) offset = true ∧ isPlace (utf8 text) (offset + 1) = true := by
  obtain ⟨before, c, after, rfl, rfl, narrow, -⟩ := exists_char_of_utf8_getElem? found ascii
  have behind := isPlace_utf8 (before ++ [c]) after
  rw [byteSize_append, byteSize_cons, narrow, List.append_assoc] at behind
  exact ⟨isPlace_utf8 before (c :: after), behind⟩

/-- Between two places there are whole characters. -/
theorem slice?_utf8 {text before middle after : List Char}
    (divided : text = before ++ middle ++ after) :
    slice? (utf8 text) (byteSize before) (byteSize (before ++ middle)) = some (utf8 middle) := by
  have ordered : byteSize before ≤ byteSize (before ++ middle) := by
    rw [byteSize_append]
    exact Nat.le_add_right _ _
  have start := isPlace_utf8 before (middle ++ after)
  rw [← List.append_assoc] at start
  rw [divided, slice?, if_pos ⟨ordered, start, isPlace_utf8 (before ++ middle) after⟩]
  simp [utf8_append, ← length_utf8, List.take_append]

/-- What follows a place. -/
theorem slice?_utf8_behind (before after : List Char) :
    slice? (utf8 (before ++ after)) (byteSize before) (utf8 (before ++ after)).length =
      some (utf8 after) := by
  rw [length_utf8]
  exact slice?_utf8 (List.append_nil _).symm

/-- What stands in front of a place. -/
theorem slice?_utf8_before (before after : List Char) :
    slice? (utf8 (before ++ after)) 0 (byteSize before) = some (utf8 before) := by
  have divided : before ++ after = [] ++ before ++ after := rfl
  exact slice?_utf8 divided

theorem decode?_utf8 (text : List Char) : decode? (utf8 text) = some text := by
  have decoded : text.utf8Encode.utf8Decode? = some text.toArray := List.utf8Decode?_utf8Encode
  change text.utf8Encode.utf8Decode?.map Array.toList = some text
  rw [decoded]
  rfl

/-! ## Tokens of a text -/

/-- Characters are told apart by their bytes, whatever follows. -/
theorem utf8EncodeChar_inj {c d : Char} {rest more : Bytes}
    (same : String.utf8EncodeChar c ++ rest = String.utf8EncodeChar d ++ more) : c = d := by
  have decoded := congrArg (fun bytes : Bytes => bytes.toByteArray.utf8DecodeChar? 0) same
  simpa [List.toByteArray_append, ByteArray.utf8DecodeChar?_utf8EncodeChar_append] using decoded

/-- A character is not read out of nothing. -/
theorem utf8_eq_nil_iff {text : List Char} : utf8 text = [] ↔ text = [] := by
  rw [← List.length_eq_zero_iff, length_utf8, byteSize_eq_zero_iff]

theorem utf8_prefix_iff {token text : List Char} : utf8 token <+: utf8 text ↔ token <+: text := by
  constructor
  · intro start
    induction token generalizing text with
    | nil => exact List.nil_prefix
    | cons c token ih =>
        cases text with
        | nil =>
            exact absurd (utf8_eq_nil_iff.1 (List.prefix_nil.1 start)) (List.cons_ne_nil c token)
        | cons d text =>
            obtain ⟨more, joined⟩ := start
            rw [utf8_cons, utf8_cons, List.append_assoc] at joined
            obtain rfl := utf8EncodeChar_inj joined
            exact List.cons_prefix_cons.2 ⟨rfl, ih ⟨more, List.append_cancel_left joined⟩⟩
  · rintro ⟨rest, rfl⟩
    rw [utf8_append]
    exact List.prefix_append _ _

/-- A token that starts with a character is not found inside one. -/
theorem offsetOf?_append {token inner : Bytes} (starts : ∃ b ∈ token.head?, b.IsUTF8FirstByte)
    (continues : ∀ b ∈ inner, ¬ b.IsUTF8FirstByte) (rest : Bytes) :
    offsetOf? token (inner ++ rest) = (offsetOf? token rest).map (· + inner.length) := by
  induction inner with
  | nil => simp
  | cons b inner ih =>
      have elsewhere : ¬ token.isPrefixOf (b :: (inner ++ rest)) = true := by
        rw [List.isPrefixOf_iff_prefix]
        rintro ⟨more, joined⟩
        obtain ⟨first, head, leads⟩ := starts
        have same : some first = some b := by
          rw [← List.head?_cons (a := b) (l := inner ++ rest), ← joined, List.head?_append, head,
            Option.some_or]
        exact continues b List.mem_cons_self (Option.some.inj same ▸ leads)
      rw [List.cons_append, offsetOf?, if_neg elsewhere,
        ih (fun b member => continues b (List.mem_cons_of_mem _ member)), Option.map_map]
      simp [Function.comp_def, Nat.add_assoc]

/-- The bytes of a character behind its first one. -/
theorem not_isUTF8FirstByte_of_mem_tail {c : Char} {b : UInt8}
    (member : b ∈ (String.utf8EncodeChar c).tail) : ¬ b.IsUTF8FirstByte := by
  obtain ⟨index, bound, rfl⟩ := List.mem_iff_getElem.1 member
  rw [List.getElem_tail, UInt8.isUTF8FirstByte_getElem_utf8EncodeChar]
  exact Nat.succ_ne_zero index

theorem offsetOf?_of_start {token bytes : Bytes} (start : token <+: bytes) :
    offsetOf? token bytes = some 0 := by
  cases bytes with
  | nil =>
      obtain rfl := List.prefix_nil.1 start
      rfl
  | cons b rest => rw [offsetOf?, if_pos (List.isPrefixOf_iff_prefix.2 start)]

/-- The bytes of a text that is not empty start with the first byte of a character. -/
theorem exists_head_utf8 {text : List Char} (nonempty : text ≠ []) :
    ∃ b ∈ (utf8 text).head?, b.IsUTF8FirstByte := by
  obtain ⟨c, rest, rfl⟩ := List.exists_cons_of_ne_nil nonempty
  have positive : 0 < (String.utf8EncodeChar c).length :=
    List.length_pos_iff.2 String.utf8EncodeChar_ne_nil
  refine ⟨(String.utf8EncodeChar c)[0], ?_, UInt8.isUTF8FirstByte_getElem_zero_utf8EncodeChar⟩
  rw [utf8_cons, List.head?_append, List.head?_eq_getElem?, List.getElem?_eq_getElem positive]
  rfl

/-- A token of a text is found at the offset of the character that it starts with. -/
theorem offsetOf?_utf8 (token text : List Char) :
    offsetOf? (utf8 token) (utf8 text) =
      (cutAt? token text).map fun parts => byteSize parts.1 := by
  induction text with
  | nil =>
      cases token with
      | nil => rfl
      | cons d token =>
          have filled : utf8 (d :: token) ≠ [] := mt utf8_eq_nil_iff.1 (List.cons_ne_nil d token)
          change (if (utf8 (d :: token)).isEmpty then some 0 else none) = none
          rw [if_neg (by simpa using filled)]
  | cons c rest ih =>
      by_cases start : token <+: c :: rest
      · rw [offsetOf?_of_start (utf8_prefix_iff.2 start), cutAt?_of_prefix start]
        rfl
      · have nonempty : token ≠ [] := fun empty => start (empty ▸ List.nil_prefix)
        have elsewhere : ¬ utf8 token <+: utf8 (c :: rest) := mt utf8_prefix_iff.1 start
        have inside : ∀ b ∈ (String.utf8EncodeChar c).tail, ¬ b.IsUTF8FirstByte :=
          fun b member => not_isUTF8FirstByte_of_mem_tail member
        have size : (String.utf8EncodeChar c).length = c.utf8Size := String.length_utf8EncodeChar c
        obtain ⟨first, inner, encoded⟩ :=
          List.exists_cons_of_ne_nil (String.utf8EncodeChar_ne_nil (c := c))
        rw [utf8_cons, encoded, List.cons_append] at elsewhere ⊢
        rw [encoded, List.tail_cons] at inside
        rw [encoded, List.length_cons] at size
        rw [offsetOf?, if_neg (mt List.isPrefixOf_iff_prefix.1 elsewhere),
          offsetOf?_append (exists_head_utf8 nonempty) inside, ih, cutAt?_cons,
          if_neg (mt List.isPrefixOf_iff_prefix.1 start), Option.map_map, Option.map_map,
          Option.map_map]
        congr 1
        funext parts
        simp only [Function.comp_apply, byteSize_cons]
        omega

/-- An exchange of bytes is one of characters. -/
theorem replaceFirst_utf8 (token other text : List Char) :
    replaceFirst (utf8 token) (utf8 other) (utf8 text) =
      utf8 (Text.replaceFirst token other text) := by
  rw [replaceFirst, Text.replaceFirst, offsetOf?_utf8]
  cases cut : cutAt? token text with
  | none => rfl
  | some parts =>
      obtain ⟨before, found⟩ := parts
      obtain ⟨after, rfl⟩ := prefix_of_cutAt? cut
      obtain rfl := append_of_cutAt? cut
      simp [utf8_append, ← length_utf8, List.drop_append]

end Bytes

end ProviderMigration.Text
