import Mathlib.Data.List.Basic

/-! UTF-8 as bytes of a list of characters. Encodings can be cut at any piece
that is itself the encoding of characters: the code is a prefix code, and no
character starts inside another one. -/
namespace DmrWatchkeeper.Utf8

def encode (text : List Char) : List UInt8 := text.flatMap String.utf8EncodeChar

theorem encode_nil : encode [] = [] := rfl

theorem encode_cons (c : Char) (text : List Char) :
    encode (c :: text) = String.utf8EncodeChar c ++ encode text := by
  rw [encode, List.flatMap_cons, encode]

theorem encode_append (front back : List Char) :
    encode (front ++ back) = encode front ++ encode back := by
  rw [encode, List.flatMap_append, encode, encode]

theorem encode_eq_nil {text : List Char} (empty : encode text = []) : text = [] := by
  cases text with
  | nil => rfl
  | cons c text =>
    rw [encode_cons] at empty
    exact absurd (List.append_eq_nil_iff.mp empty).1 String.utf8EncodeChar_ne_nil

/-- The first character can be read off the bytes, whatever follows it. -/
theorem encodeChar_prefix {c d : Char} {after after' : List UInt8}
    (same : String.utf8EncodeChar c ++ after = String.utf8EncodeChar d ++ after') : c = d := by
  have read (e : Char) (rest : List UInt8) :
      (String.utf8EncodeChar e ++ rest).toByteArray.utf8DecodeChar? 0 = some e := by
    rw [List.toByteArray_append]
    exact ByteArray.utf8DecodeChar?_utf8EncodeChar_append
  have first := read c after
  rw [same, read d after'] at first
  exact (Option.some.inj first).symm

/-- A text whose bytes start with those of `front` starts with `front`. -/
theorem encode_prefix {text front : List Char} {back : List UInt8}
    (bytes : encode text = encode front ++ back) :
    ∃ rest, text = front ++ rest ∧ encode rest = back := by
  induction front generalizing text with
  | nil => exact ⟨text, rfl, bytes⟩
  | cons c front ih =>
    cases text with
    | nil =>
      rw [encode_cons] at bytes
      have empty := (List.append_eq_nil_iff.mp bytes.symm).1
      exact absurd (List.append_eq_nil_iff.mp empty).1 String.utf8EncodeChar_ne_nil
    | cons d text =>
      rw [encode_cons, encode_cons, List.append_assoc] at bytes
      obtain rfl := encodeChar_prefix bytes
      obtain ⟨rest, rfl, tail⟩ := ih (List.append_cancel_left bytes)
      exact ⟨rest, rfl, tail⟩

theorem encode_injective {text other : List Char} (same : encode text = encode other) :
    text = other := by
  obtain ⟨rest, rfl, empty⟩ := encode_prefix (same.trans (List.append_nil _).symm)
  rw [encode_eq_nil empty, List.append_nil]

/-- No character starts inside another one. -/
theorem encodeChar_inside {c d : Char} {before more after after' : List UInt8}
    (char : String.utf8EncodeChar c = before ++ more) (inside : before ≠ []) (unfinished : more ≠ [])
    (next : String.utf8EncodeChar d ++ after = more ++ after') : False := by
  obtain ⟨byte, others, rfl⟩ := List.exists_cons_of_ne_nil unfinished
  obtain ⟨first, bytes, spelled⟩ := List.exists_cons_of_ne_nil (String.utf8EncodeChar_ne_nil (c := d))
  have nonempty : 0 < (String.utf8EncodeChar d).length := List.length_pos_of_ne_nil String.utf8EncodeChar_ne_nil
  have starts : (String.utf8EncodeChar d)[0] = byte := by
    rw [spelled] at next
    simpa [spelled] using (List.cons.inj next).1
  have bound : before.length < (String.utf8EncodeChar c).length := by
    rw [char, List.length_append, List.length_cons]
    omega
  have place : (String.utf8EncodeChar c)[before.length] = byte := by
    simp [char]
  have first : byte.IsUTF8FirstByte := by
    rw [← starts, UInt8.isUTF8FirstByte_getElem_utf8EncodeChar]
  rw [← place, UInt8.isUTF8FirstByte_getElem_utf8EncodeChar] at first
  exact inside (List.eq_nil_of_length_eq_zero first)

/-- A text whose bytes end with those of `back` ends with `back`. -/
theorem encode_suffix {text back : List Char} {front : List UInt8}
    (bytes : encode text = front ++ encode back) :
    ∃ rest, text = rest ++ back ∧ encode rest = front := by
  induction text generalizing front with
  | nil =>
    obtain ⟨rfl, empty⟩ := List.append_eq_nil_iff.mp bytes.symm
    exact ⟨[], (encode_eq_nil empty).symm, rfl⟩
  | cons c text ih =>
    by_cases whole : front = []
    · subst whole
      exact ⟨[], encode_injective bytes, rfl⟩
    · rw [encode_cons] at bytes
      rcases List.append_eq_append_iff.mp bytes with ⟨more, rfl, tail⟩ | ⟨more, char, tail⟩
      · obtain ⟨rest, rfl, head⟩ := ih tail
        exact ⟨c :: rest, rfl, by rw [encode_cons, head]⟩
      · by_cases between : more = []
        · subst between
          obtain rfl := encode_injective tail
          exact ⟨[c], rfl, by rw [encode_cons, encode_nil, char, List.append_nil, List.append_nil]⟩
        · cases back with
          | nil => exact absurd (List.append_eq_nil_iff.mp tail.symm).1 between
          | cons d back =>
            rw [encode_cons] at tail
            exact (encodeChar_inside char whole between tail).elim

/-- Bytes between two encoded texts are encoded when the whole is. -/
theorem encode_infix {text front back : List Char} {inner : List UInt8}
    (bytes : encode text = encode front ++ (inner ++ encode back)) :
    ∃ middle, text = front ++ (middle ++ back) ∧ encode middle = inner := by
  obtain ⟨rest, rfl, tail⟩ := encode_prefix bytes
  obtain ⟨middle, rfl, inside⟩ := encode_suffix tail
  exact ⟨middle, rfl, inside⟩

theorem encode_ascii {text : List Char} (ascii : ∀ c ∈ text, c.val ≤ 0x7F) :
    encode text = text.map fun c => c.val.toUInt8 := by
  induction text with
  | nil => rfl
  | cons c text ih =>
    obtain ⟨head, rest⟩ := List.forall_mem_cons.mp ascii
    rw [encode_cons, String.utf8EncodeChar_eq_singleton (Char.utf8Size_eq_one_iff.mpr head), ih rest]
    rfl

theorem length_encode_ascii {text : List Char} (ascii : ∀ c ∈ text, c.val ≤ 0x7F) :
    (encode text).length = text.length := by
  rw [encode_ascii ascii, List.length_map]

end DmrWatchkeeper.Utf8
