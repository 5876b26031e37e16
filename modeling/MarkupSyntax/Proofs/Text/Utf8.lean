import Mathlib
import MarkupSyntax.Text.Utf8

/-!
# `MarkupSyntax.Proofs.Text.Utf8`: decoding keeps every byte

Sequences of bytes are compared with the encoding of characters that the
standard library has. A sequence is empty, starts with the encoding of a
character, or starts with a byte that begins no encoding
(`bytesInduction`). Decoding follows these cases: it gives the character,
or the surrogate that stands for the byte, and `encode` gives back what
was there.
-/

set_option autoImplicit false

namespace MarkupSyntax

namespace CodePoint

/-- A character is the code point of its number. -/
theorem ofChar_val (c : Char) : (ofChar c).val = c.toNat := rfl

/-- The range of a character. -/
theorem toNat_range (c : Char) : c.toNat < 0xD800 ∨ 0xDFFF < c.toNat ∧ c.toNat < 0x110000 := by
  have h := c.valid
  simp only [UInt32.isValidChar, Nat.isValidChar] at h
  show c.val.toNat < _ ∨ _ < c.val.toNat ∧ c.val.toNat < _
  omega

/-- The test for a range as two bounds. -/
theorem isBetween_iff {c : CodePoint} {lo hi : Nat} :
    c.isBetween lo hi = true ↔ lo ≤ c.val ∧ c.val ≤ hi := by
  simp [isBetween]

/-- A character whose number is outside the bounds fails the test. -/
theorem isBetween_ofChar {c : Char} {lo hi : Nat} (h : c.toNat < lo ∨ hi < c.toNat) :
    (ofChar c).isBetween lo hi = false := by
  refine Bool.eq_false_iff.mpr fun hbetween => ?_
  have := isBetween_iff.mp hbetween
  rw [ofChar_val] at this
  omega

/-- No character is a surrogate. -/
@[simp] theorem isSurrogate_ofChar (c : Char) : (ofChar c).isSurrogate = false := by
  have h := toNat_range c
  exact isBetween_ofChar (by omega)

/-- A code point that is no surrogate is a character. -/
theorem exists_ofChar {c : CodePoint} (h : c.isSurrogate = false) : ∃ char, c = ofChar char := by
  have hlt := c.val_lt
  have hvalid : c.val.isValidChar := by
    have hnot := mt isBetween_iff.mpr (Bool.eq_false_iff.mp h)
    unfold Nat.isValidChar
    omega
  have hsize : c.val < UInt32.size := by
    show c.val < 4294967296
    omega
  exact ⟨⟨.ofNatLT c.val hsize, hvalid⟩, rfl⟩

end CodePoint

namespace Utf8

/-! ### Characters and their bytes -/

/-- So no character stands for a stray byte. -/
theorem isEscapedByte_ofChar (c : Char) : isEscapedByte (.ofChar c) = false := by
  have h := CodePoint.toNat_range c
  exact CodePoint.isBetween_ofChar (by omega)

/-- The last `count` bytes of an encoding, six bits of the value each. -/
def continuation : (count : Nat) → (value : Nat) → List UInt8
  | 0, _ => []
  | count + 1, value => .ofNat (value / 64 ^ count % 64 + 128) :: continuation count value

/-- There are as many bytes as asked for. -/
@[simp] theorem length_continuation (count value : Nat) :
    (continuation count value).length = count := by
  induction count with
  | zero => rfl
  | succ count ih => rw [continuation, List.length_cons, ih]

/-- The bytes of a character, by its range. -/
theorem utf8EncodeChar_eq (c : Char) : String.utf8EncodeChar c =
    if c.toNat < 0x80 then [.ofNat c.toNat]
    else if c.toNat < 0x800 then .ofNat (c.toNat / 64 + 0xC0) :: continuation 1 c.toNat
    else if c.toNat < 0x10000 then .ofNat (c.toNat / 4096 + 0xE0) :: continuation 2 c.toNat
    else .ofNat (c.toNat / 262144 + 0xF0) :: continuation 3 c.toNat := by
  have hlt := CodePoint.toNat_lt c
  have hunfold : String.utf8EncodeChar c =
      if c.toNat < 0x80 then [.ofNat c.toNat]
      else if c.toNat < 0x800 then .ofNat (c.toNat / 64 % 32 + 0xC0) :: continuation 1 c.toNat
      else if c.toNat < 0x10000 then .ofNat (c.toNat / 4096 % 16 + 0xE0) :: continuation 2 c.toNat
      else .ofNat (c.toNat / 262144 % 8 + 0xF0) :: continuation 3 c.toNat := by
    simp only [← Nat.lt_succ_iff, String.utf8EncodeChar, continuation, Nat.reducePow, Nat.div_one]
    rfl
  rw [hunfold]
  split
  · rfl
  split
  · rw [Nat.mod_eq_of_lt (by omega)]
  split
  · rw [Nat.mod_eq_of_lt (by omega)]
  · rw [Nat.mod_eq_of_lt (by omega)]

/-- A character is written as its bytes. -/
theorem encodeOne_ofChar (c : Char) : encodeOne (.ofChar c) = String.utf8EncodeChar c := by
  have hpow : c.toNat / Nat.pow 64 0 = c.toNat := Nat.div_one _
  unfold encodeOne
  rw [isEscapedByte_ofChar, utf8EncodeChar_eq]
  dsimp only [CodePoint.ofChar_val]
  rw [hpow, Nat.add_comm 0x80 (c.toNat % 64), Nat.add_comm 0x80 (_ % 64),
    Nat.add_comm 0x80 (_ % 64), Nat.add_comm 0xC0, Nat.add_comm 0xE0, Nat.add_comm 0xF0]
  simp only [continuation, Nat.reducePow, Nat.div_one]
  rfl

/-! ### Decoding one character -/

variable {c : Char} {byte first : UInt8} {bytes rest : List UInt8} {count extra high least value : Nat}

/-- A number below 256 is that of its byte. -/
theorem toNat_ofNat {n : Nat} (h : n < 256) : (UInt8.ofNat n).toNat = n := by
  rw [UInt8.toNat_ofNat']
  exact Nat.mod_eq_of_lt h

/-- Six bits more are cut off by one more division. -/
theorem div_pow_succ (value count : Nat) : value / 64 ^ (count + 1) = value / 64 ^ count / 64 := by
  rw [Nat.pow_succ, Nat.div_div_eq_div_mul]

/-- The bytes of a value are collected. -/
theorem continued_continuation (count value : Nat) (rest : List UInt8) :
    continued count (value / 64 ^ count) (continuation count value ++ rest) = some value := by
  induction count with
  | zero => rw [Nat.pow_zero, Nat.div_one, continued]
  | succ count ih =>
    have hbyte : (UInt8.ofNat (value / 64 ^ count % 64 + 128)).toNat
        = value / 64 ^ count % 64 + 128 := toNat_ofNat (by omega)
    have hrange : (decide (0x80 ≤ value / 64 ^ count % 64 + 128)
        && decide (value / 64 ^ count % 64 + 128 < 0xC0)) = true := by
      simp only [Bool.and_eq_true, decide_eq_true_eq]
      omega
    have hvalue : value / 64 ^ (count + 1) * 64 + (value / 64 ^ count % 64 + 128 - 0x80)
        = value / 64 ^ count := by
      rw [div_pow_succ]
      omega
    rw [continuation, List.cons_append, continued, hbyte, if_pos hrange, hvalue]
    exact ih

/-- What is collected are the bytes of a value. -/
theorem eq_continuation_of_continued (h : continued count high bytes = some value) :
    high = value / 64 ^ count ∧ ∃ rest, bytes = continuation count value ++ rest := by
  induction count generalizing high bytes with
  | zero =>
    rw [continued] at h
    exact ⟨by rw [Option.some.inj h, Nat.pow_zero, Nat.div_one], bytes, rfl⟩
  | succ count ih =>
    cases bytes with
    | nil => cases h
    | cons byte bytes =>
      rw [continued] at h
      split at h
      · rename_i hrange
        simp only [Bool.and_eq_true, decide_eq_true_eq] at hrange
        obtain ⟨hhigh, rest, rfl⟩ := ih h
        refine ⟨?_, rest, ?_⟩
        · rw [div_pow_succ]
          omega
        · rw [continuation, List.cons_append, ← hhigh]
          have hbyte : (high * 64 + (byte.toNat - 0x80)) % 64 + 128 = byte.toNat := by omega
          rw [hbyte, UInt8.ofNat_toNat]
      · cases h

/-- Bytes that continue to the number of a character are that character. -/
theorem extended_eq_some (h : continued extra high rest = some c.toNat) (hleast : least ≤ c.toNat) :
    extended extra high least rest = some (.ofChar c, extra) := by
  have hlt : c.toNat < 0x110000 := CodePoint.toNat_lt c
  unfold extended
  rw [h]
  show (CodePoint.ofNat? c.toNat).bind _ = _
  rw [CodePoint.ofNat?, dif_pos hlt]
  show (if (decide (least ≤ c.toNat) && !(CodePoint.ofChar c).isSurrogate) = true then _ else _) = _
  rw [CodePoint.isSurrogate_ofChar, decide_eq_true hleast]
  rfl

/-- What was decoded is a character that needs the bytes. -/
theorem exists_char_of_extended {found : CodePoint} {length : Nat}
    (h : extended extra high least rest = some (found, length)) :
    ∃ c : Char, found = .ofChar c ∧ length = extra ∧ least ≤ c.toNat ∧
      continued extra high rest = some c.toNat := by
  unfold extended at h
  obtain ⟨value, hvalue, h⟩ := Option.bind_eq_some_iff.mp h
  obtain ⟨point, hpoint, h⟩ := Option.bind_eq_some_iff.mp h
  split at h
  · rename_i hright
    simp only [Bool.and_eq_true, decide_eq_true_eq, Bool.not_eq_true'] at hright
    obtain ⟨c, rfl⟩ := CodePoint.exists_ofChar hright.2
    unfold CodePoint.ofNat? at hpoint
    split at hpoint
    · have hval : value = c.toNat := congrArg CodePoint.val (Option.some.inj hpoint)
      cases h
      exact ⟨c, rfl, rfl, hval ▸ hright.1, hval ▸ hvalue⟩
    · cases hpoint
  · cases h

/-- The encoding of a character is decoded, whatever follows. -/
theorem decodeFirst_of_encode (h : String.utf8EncodeChar c ++ rest = first :: bytes) :
    decodeFirst first bytes = some (.ofChar c, (String.utf8EncodeChar c).length - 1) := by
  have hlt := CodePoint.toNat_lt c
  -- All forms with continuation bytes at once: their values differ in the count and in the least
  -- value only.
  have hcollect : ∀ count least, least ≤ c.toNat → extended count (c.toNat / 64 ^ count) least
      (continuation count c.toNat ++ rest) = some (.ofChar c, count) := fun count least hleast =>
    extended_eq_some (continued_continuation count c.toNat rest) hleast
  have hencode := utf8EncodeChar_eq c
  unfold decodeFirst
  split at hencode
  · rename_i hone
    rw [hencode] at h ⊢
    obtain ⟨rfl, -⟩ := List.cons.inj h
    have hvalue : CodePoint.ofNat? c.toNat = some (.ofChar c) := dif_pos hlt
    rw [toNat_ofNat (by omega), if_pos hone, hvalue]
    rfl
  split at hencode
  · rw [hencode] at h ⊢
    obtain ⟨rfl, rfl⟩ := List.cons.inj h
    rw [toNat_ofNat (by omega), if_neg (by omega), if_neg (by omega), if_pos (by omega),
      Nat.add_sub_cancel]
    exact hcollect 1 0x80 (by omega)
  split at hencode
  · rw [hencode] at h ⊢
    obtain ⟨rfl, rfl⟩ := List.cons.inj h
    rw [toNat_ofNat (by omega), if_neg (by omega), if_neg (by omega), if_neg (by omega),
      if_pos (by omega), Nat.add_sub_cancel]
    exact hcollect 2 0x800 (by omega)
  · rw [hencode] at h ⊢
    obtain ⟨rfl, rfl⟩ := List.cons.inj h
    rw [toNat_ofNat (by omega), if_neg (by omega), if_neg (by omega), if_neg (by omega),
      if_neg (by omega), if_pos (by omega), Nat.add_sub_cancel]
    exact hcollect 3 0x10000 (by omega)

/-- What is decoded is the encoding of a character. -/
theorem exists_encode_of_decodeFirst {found : CodePoint}
    (h : decodeFirst first bytes = some (found, extra)) :
    ∃ (c : Char) (rest : List UInt8), found = .ofChar c ∧
      first :: bytes = String.utf8EncodeChar c ++ rest := by
  have hbyte := first.toNat_lt
  unfold decodeFirst at h
  dsimp only at h
  split at h
  · rename_i hone
    obtain ⟨point, hpoint, hfound⟩ := Option.map_eq_some_iff.mp h
    obtain ⟨rfl, rfl⟩ := Prod.mk.inj hfound
    have hval : first.toNat = point.val := by
      unfold CodePoint.ofNat? at hpoint
      split at hpoint
      · exact congrArg CodePoint.val (Option.some.inj hpoint)
      · cases hpoint
    -- A single byte is below all surrogates.
    have hsurrogate : point.isSurrogate = false := by
      refine Bool.eq_false_iff.mpr fun hbetween => ?_
      have := CodePoint.isBetween_iff.mp hbetween
      omega
    obtain ⟨c, rfl⟩ := CodePoint.exists_ofChar hsurrogate
    rw [CodePoint.ofChar_val] at hval
    refine ⟨c, bytes, rfl, ?_⟩
    rw [utf8EncodeChar_eq, if_pos (by omega), ← hval, UInt8.ofNat_toNat]
    rfl
  split at h
  · cases h
  -- The three longer forms differ in how many bytes go on, and in the least character that needs
  -- so many. This is what they have in common.
  have hcollect : ∀ {count base least},
      extended count (first.toNat - base) least bytes = some (found, extra) → base ≤ first.toNat →
      ∃ (c : Char) (rest : List UInt8), found = .ofChar c ∧ least ≤ c.toNat ∧
        first.toNat = c.toNat / 64 ^ count + base ∧
        first :: bytes = .ofNat (c.toNat / 64 ^ count + base) :: continuation count c.toNat ++ rest := by
    intro count base least hextended hbase
    obtain ⟨c, rfl, -, hleast, hcontinued⟩ := exists_char_of_extended hextended
    obtain ⟨hhigh, rest, rfl⟩ := eq_continuation_of_continued hcontinued
    refine ⟨c, rest, rfl, hleast, by omega, ?_⟩
    rw [← hhigh, Nat.sub_add_cancel hbase, UInt8.ofNat_toNat]
    rfl
  split at h
  · obtain ⟨c, rest, hfound, hleast, hfirst, hbytes⟩ := hcollect h (by omega)
    refine ⟨c, rest, hfound, ?_⟩
    rw [utf8EncodeChar_eq, if_neg (by omega), if_pos (by omega)]
    exact hbytes
  split at h
  · obtain ⟨c, rest, hfound, hleast, hfirst, hbytes⟩ := hcollect h (by omega)
    refine ⟨c, rest, hfound, ?_⟩
    rw [utf8EncodeChar_eq, if_neg (by omega), if_neg (by omega), if_pos (by omega)]
    exact hbytes
  split at h
  · obtain ⟨c, rest, hfound, hleast, hfirst, hbytes⟩ := hcollect h (by omega)
    refine ⟨c, rest, hfound, ?_⟩
    rw [utf8EncodeChar_eq, if_neg (by omega), if_neg (by omega), if_neg (by omega)]
    exact hbytes
  · cases h

/-- The bytes below 0x80 are characters. -/
theorem le_of_decodeFirst_eq_none (h : decodeFirst byte rest = none) : 0x80 ≤ byte.toNat := by
  by_contra hlt
  have hlt : byte.toNat < 0x80 := by omega
  have hvalue : CodePoint.ofNat? byte.toNat = some ⟨byte.toNat, by omega⟩ := dif_pos (by omega)
  unfold decodeFirst at h
  dsimp only at h
  rw [if_pos hlt, hvalue] at h
  cases h

/-! ### Decoding a sequence -/

/-- Skipping bytes is dropping them. -/
theorem piecesAfter_eq (skip : Nat) (bytes : List UInt8) :
    piecesAfter skip bytes = pieces (bytes.drop skip) := by
  induction skip generalizing bytes with
  | zero => rfl
  | succ skip ih =>
    cases bytes with
    | nil => rfl
    | cons byte rest => exact ih rest

/-- A character has a first byte. -/
theorem exists_cons_utf8EncodeChar (c : Char) :
    ∃ first more, String.utf8EncodeChar c = first :: more := by
  rw [utf8EncodeChar_eq]
  split
  · exact ⟨_, _, rfl⟩
  split
  · exact ⟨_, _, rfl⟩
  split <;> exact ⟨_, _, rfl⟩

/-- A character in front is one unit. -/
theorem pieces_char (c : Char) (rest : List UInt8) :
    pieces (String.utf8EncodeChar c ++ rest) = .codePoint (.ofChar c) :: pieces rest := by
  obtain ⟨first, more, hencode⟩ := exists_cons_utf8EncodeChar c
  have hdecode : decodeFirst first (more ++ rest) = some (.ofChar c, more.length) := by
    have h := decodeFirst_of_encode (congrArg (· ++ rest) hencode)
    rwa [hencode] at h
  rw [hencode, List.cons_append, pieces, piecesAfter, hdecode]
  show _ :: piecesAfter more.length (more ++ rest) = _
  rw [piecesAfter_eq, List.drop_left]

/-- A byte that begins no character is a unit of its own. -/
theorem pieces_stray (h : decodeFirst byte rest = none) :
    pieces (byte :: rest) = .stray byte :: pieces rest := by
  rw [pieces, piecesAfter, h]
  rfl

/-- What holds of no bytes, and stays true with a character or with a byte
that begins none in front, holds of all bytes. -/
@[elab_as_elim]
theorem bytesInduction {motive : List UInt8 → Prop} (nil : motive [])
    (char : ∀ c rest, motive rest → motive (String.utf8EncodeChar c ++ rest))
    (stray : ∀ byte rest, decodeFirst byte rest = none → motive rest → motive (byte :: rest))
    (bytes : List UInt8) : motive bytes := by
  induction h : bytes.length using Nat.strongRecOn generalizing bytes with
  | ind length ih =>
    cases bytes with
    | nil => exact nil
    | cons byte rest =>
      cases hdecode : decodeFirst byte rest with
      | none => exact stray byte rest hdecode (ih rest.length (by simp [← h]) rest rfl)
      | some result =>
        obtain ⟨c, tail, -, hbytes⟩ := exists_encode_of_decodeFirst hdecode
        obtain ⟨first, more, hencode⟩ := exists_cons_utf8EncodeChar c
        have hlength : tail.length < length := by
          rw [← h, hbytes, hencode, List.length_append, List.length_cons]
          omega
        rw [hbytes]
        exact char c tail (ih tail.length hlength tail rfl)

/-- The surrogate of a stray byte is encoded as the byte. -/
theorem encodeOne_stray (h : 0x80 ≤ byte.toNat) :
    encodeOne (Piece.stray byte).toCodePoint = [byte] := by
  have hlt := byte.toNat_lt
  have hescaped : isEscapedByte (Piece.stray byte).toCodePoint = true := by
    refine CodePoint.isBetween_iff.mpr ?_
    show 0xDC80 ≤ 0xDC00 + byte.toNat ∧ 0xDC00 + byte.toNat ≤ 0xDCFF
    omega
  unfold encodeOne
  rw [hescaped]
  show (if 0xDC00 + byte.toNat < 0x80 then _ else if 0xDC00 + byte.toNat < 0x800 then _ else _) = _
  rw [if_neg (by omega), if_neg (by omega), if_pos rfl]
  show [UInt8.ofNat (0xDC00 + byte.toNat - 0xDC00)] = _
  rw [Nat.add_sub_cancel_left, UInt8.ofNat_toNat]

/-- The bytes of a character are decoded to it, whatever comes behind. -/
theorem decode_char (c : Char) (rest : List UInt8) :
    decode (String.utf8EncodeChar c ++ rest) = .ofChar c :: decode rest := by
  rw [decode, pieces_char]
  rfl

/-- A byte that starts no character is decoded to its surrogate. -/
theorem decode_stray (h : decodeFirst byte rest = none) :
    decode (byte :: rest) = (Piece.stray byte).toCodePoint :: decode rest := by
  rw [decode, pieces_stray h]
  rfl

/-- Texts are encoded one after the other. -/
theorem encode_append (t t' : Text) : encode (t ++ t') = encode t ++ encode t' :=
  List.flatMap_append

/-- Decoding loses nothing. -/
theorem encode_decode (bytes : List UInt8) : encode (decode bytes) = bytes := by
  induction bytes using bytesInduction with
  | nil => rfl
  | char c rest ih => rw [decode_char, encode, List.flatMap_cons, encodeOne_ofChar, ← encode, ih]
  | stray byte rest hnone ih =>
    rw [decode_stray hnone, encode, List.flatMap_cons,
      encodeOne_stray (le_of_decodeFirst_eq_none hnone), ← encode, ih]
    rfl

/-! ### Valid sequences -/

/-- Valid bytes are the encoding of some characters. -/
theorem isValid_iff : bytes.toByteArray.IsValidUTF8 ↔
    ∃ chars : List Char, bytes = chars.flatMap String.utf8EncodeChar := by
  constructor
  · rintro ⟨chars, h⟩
    exact ⟨chars, List.toByteArray_inj.mp h⟩
  · rintro ⟨chars, rfl⟩
    exact ⟨chars, rfl⟩

/-- The pieces of encoded characters are the characters. -/
theorem pieces_chars (chars : List Char) (rest : List UInt8) :
    pieces (chars.flatMap String.utf8EncodeChar ++ rest)
      = chars.map (fun c => .codePoint (.ofChar c)) ++ pieces rest := by
  induction chars with
  | nil => rfl
  | cons c chars ih =>
    rw [List.flatMap_cons, List.append_assoc, pieces_char, ih]
    rfl

/-- The characters of a valid sequence. -/
theorem decode_chars (chars : List Char) (rest : List UInt8) :
    decode (chars.flatMap String.utf8EncodeChar ++ rest)
      = chars.map CodePoint.ofChar ++ decode rest := by
  rw [decode, pieces_chars, List.map_append, List.map_map]
  rfl

/-- A sequence is valid, or valid up to a byte that begins no
character. -/
theorem exists_chars (bytes : List UInt8) : ∃ (chars : List Char) (rest : List UInt8),
    bytes = chars.flatMap String.utf8EncodeChar ++ rest ∧
      (rest = [] ∨ ∃ byte more, rest = byte :: more ∧ decodeFirst byte more = none) := by
  induction bytes using bytesInduction with
  | nil => exact ⟨[], [], rfl, .inl rfl⟩
  | char c rest ih =>
    obtain ⟨chars, tail, rfl, htail⟩ := ih
    exact ⟨c :: chars, tail, by rw [List.flatMap_cons, List.append_assoc], htail⟩
  | stray byte rest hnone => exact ⟨[], byte :: rest, rfl, .inr ⟨byte, rest, rfl, hnone⟩⟩

/-- There is no stray byte among characters. -/
theorem findIdx?_chars (chars : List Char) :
    (chars.map fun c => Piece.codePoint (.ofChar c)).findIdx? Piece.isStray = none := by
  rw [List.findIdx?_eq_none_iff]
  intro piece hmem
  obtain ⟨c, -, rfl⟩ := List.mem_map.mp hmem
  rfl

/-- So encoded characters have no first stray byte. -/
theorem firstStray?_chars (chars : List Char) :
    firstStray? (chars.flatMap String.utf8EncodeChar) = none := by
  have h := pieces_chars chars []
  rw [List.append_nil] at h
  rw [firstStray?, h]
  exact (congrArg _ (List.append_nil _)).trans (findIdx?_chars chars)

/-- The first byte that begins no character comes behind the characters. -/
theorem firstStray?_stray (chars : List Char) (h : decodeFirst byte rest = none) :
    firstStray? (chars.flatMap String.utf8EncodeChar ++ byte :: rest) = some chars.length := by
  rw [firstStray?, pieces_chars, pieces_stray h, List.findIdx?_append, findIdx?_chars,
    List.findIdx?_cons]
  simp [Piece.isStray]

/-- Characters in front of which no stray byte is are those in front of the
first one. -/
theorem prefix_of_pieces_eq {chars chars' : List Char} {units units' : List Piece}
    (h : chars'.map (fun c => Piece.codePoint (.ofChar c)) ++ units'
      = chars.map (fun c => Piece.codePoint (.ofChar c)) ++ .stray byte :: units) :
    chars' <+: chars := by
  induction chars' generalizing chars with
  | nil => exact List.nil_prefix
  | cons c' chars' ih =>
    cases chars with
    | nil => cases h
    | cons c chars =>
      obtain ⟨hhead, htail⟩ := List.cons.inj h
      have hc : c' = c := by
        have hval : c'.toNat = c.toNat := congrArg CodePoint.val (Piece.codePoint.inj hhead)
        exact Char.toNat_inj.mp hval
      rw [hc, List.cons_prefix_cons]
      exact ⟨rfl, ih htail⟩

/-- No longer part from the start is valid. -/
theorem length_le_of_isValid (chars : List Char) (h : decodeFirst byte rest = none)
    {front : List UInt8} (hfront : front <+: chars.flatMap String.utf8EncodeChar ++ byte :: rest)
    (hvalid : front.toByteArray.IsValidUTF8) :
    front.length ≤ (chars.flatMap String.utf8EncodeChar).length := by
  obtain ⟨chars', rfl⟩ := isValid_iff.mp hvalid
  obtain ⟨tail, htail⟩ := hfront
  have hpieces := congrArg pieces htail
  rw [pieces_chars, pieces_chars, pieces_stray h] at hpieces
  obtain ⟨more, rfl⟩ := prefix_of_pieces_eq hpieces
  rw [List.flatMap_append, List.length_append]
  exact Nat.le_add_right _ _

/-- Bytes with a stray one among them are not valid: the characters of valid
bytes would have to be pieces of these. -/
theorem not_isValid (chars : List Char) (h : decodeFirst byte rest = none) :
    ¬ (chars.flatMap String.utf8EncodeChar ++ byte :: rest).toByteArray.IsValidUTF8 := fun hvalid => by
  have hle := length_le_of_isValid chars h List.prefix_rfl hvalid
  rw [List.length_append, List.length_cons] at hle
  omega

/-! ### Lengths -/

/-- The surrogates in the text stand for bytes. -/
def IsDecoded (t : Text) : Prop := ∀ c ∈ t, c.isSurrogate = true → isEscapedByte c = true

/-- In the text of some bytes every surrogate stands for a stray byte. -/
theorem isDecoded_decode (bytes : List UInt8) : IsDecoded (decode bytes) := by
  induction bytes using bytesInduction with
  | nil => nofun
  | char c rest ih =>
    rw [decode_char]
    intro point hmem hsurrogate
    rcases List.mem_cons.mp hmem with rfl | hmem
    · rw [CodePoint.isSurrogate_ofChar] at hsurrogate
      cases hsurrogate
    · exact ih point hmem hsurrogate
  | stray byte rest hnone ih =>
    rw [decode_stray hnone]
    intro point hmem hsurrogate
    rcases List.mem_cons.mp hmem with rfl | hmem
    · have hle := le_of_decodeFirst_eq_none hnone
      have hlt := byte.toNat_lt
      refine CodePoint.isBetween_iff.mpr ?_
      show 0xDC80 ≤ 0xDC00 + byte.toNat ∧ 0xDC00 + byte.toNat ≤ 0xDCFF
      omega
    · exact ih point hmem hsurrogate

/-- A part of such a text is one. -/
theorem IsDecoded.of_subset {t t' : Text} (h : IsDecoded t) (hsubset : t' ⊆ t) : IsDecoded t' :=
  fun c hmem => h c (hsubset hmem)

/-- The length of a character in bytes is that of its encoding, if a surrogate
stands for a byte. -/
theorem lengthOne_eq {c : CodePoint} (h : c.isSurrogate = true → isEscapedByte c = true) :
    lengthOne (fun _ => 1) c = (encodeOne c).length := by
  have hsurrogate : c.isSurrogate = isEscapedByte c := by
    refine Bool.eq_iff_iff.mpr ⟨h, fun hescaped => ?_⟩
    have := CodePoint.isBetween_iff.mp hescaped
    exact CodePoint.isBetween_iff.mpr (by omega)
  unfold lengthOne encodeOne
  rw [hsurrogate]
  dsimp only
  split
  · rfl
  split
  · rfl
  split
  · rfl
  split <;> rfl

/-- The length of a decoded text is the number of its bytes. -/
theorem length_eq {t : Text} (h : IsDecoded t) : length t = (encode t).length := by
  have hforeign : (t.any fun c => c.isSurrogate && !isEscapedByte c) = false := by
    rw [List.any_eq_false]
    intro c hmem
    have := h c hmem
    simpa using this
  unfold length
  rw [hforeign]
  clear hforeign
  induction t with
  | nil => rfl
  | cons c t ih =>
    have hrest := ih (h.of_subset (List.subset_cons_self c t))
    rw [encode, List.flatMap_cons, List.length_append, ← encode, ← hrest,
      ← lengthOne_eq (h c (List.mem_cons_self ..))]
    rfl

end Utf8

end MarkupSyntax
