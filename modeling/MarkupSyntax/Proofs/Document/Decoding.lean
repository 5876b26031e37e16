import MarkupSyntax.Document.Decoding
import MarkupSyntax.Proofs.Text.Lines

/-!
# `MarkupSyntax.Proofs.Document.Decoding`: the text of a file stands for its bytes

A file is decoded without loss, whatever its bytes are, and a position in
the text is a position in the file (`ofBytes_faithful`). What is reported
is the first byte behind the longest part from the start that is valid
UTF-8.
-/

set_option autoImplicit false

namespace MarkupSyntax.Decoded

/-- At most one diagnostic: at the first byte that is no part of a character. -/
theorem diagnostics_ofBytes (bytes : List UInt8) (file : Text) :
    (ofBytes bytes file).diagnostics = ((Utf8.firstStray? bytes).map fun offset =>
      Diagnostic.ofCode .invalidUtf8 (.ofLength offset 1) file).toList := rfl

/-- The text between two offsets is cut out of the bytes at the byte
positions of the offsets. -/
theorem extract_span (bytes : List UInt8) (range : TextRange) :
    let span := (LineIndex.ofText (Utf8.decode bytes)).span range
    (bytes.drop span.startByte).take (span.endByte - span.startByte)
      = Utf8.encode ((Utf8.decode bytes).sliceRange range) := by
  have hdecoded := Utf8.isDecoded_decode bytes
  have hencode := Utf8.encode_decode bytes
  generalize Utf8.decode bytes = text at hdecoded hencode ⊢
  have hle := range.start_le_stop
  have hstart : ((LineIndex.ofText text).span range).startByte
      = (Utf8.encode (text.take range.start)).length := LineIndex.byteOffset_ofText hdecoded _
  have hstop : ((LineIndex.ofText text).span range).endByte
      = (Utf8.encode (text.take range.stop)).length := LineIndex.byteOffset_ofText hdecoded _
  -- The text is what is in front of the range, the range, and what is behind.
  have hfront : text.take range.stop = text.take range.start ++ text.sliceRange range := by
    rw [Text.sliceRange, Text.slice, ← List.drop_take]
    have htake : text.take range.start = (text.take range.stop).take range.start := by
      rw [List.take_take, Nat.min_eq_left hle]
    rw [htake, List.take_append_drop]
  have hwhole : bytes = Utf8.encode (text.take range.start)
      ++ (Utf8.encode (text.sliceRange range) ++ Utf8.encode (text.drop range.stop)) := by
    rw [← List.append_assoc, ← Utf8.encode_append, ← hfront, ← Utf8.encode_append,
      List.take_append_drop, hencode]
  dsimp only
  rw [hstart, hstop, hfront, Utf8.encode_append, List.length_append, Nat.add_sub_cancel_left,
    hwhole, List.drop_left, List.take_left]

/-- Whatever the bytes are, decoding loses nothing. The clauses say, in order:

- the bytes are the encoding of the text;
- nothing is reported if and only if the bytes are valid UTF-8;
- valid UTF-8 gives its characters;
- otherwise one diagnostic is at the first byte behind the longest part from the
  start that is valid: in front of it the text has the characters of that part,
  and there it has the surrogate of the byte;
- the byte offset of a position is the number of bytes that encode what is in
  front of it;
- the bytes of a span are the encoding of its text.

Offsets past the end of the text count as the end. No hypothesis is needed, on
the bytes or on the range. -/
theorem ofBytes_faithful (bytes : List UInt8) (file : Text) :
    Utf8.encode (ofBytes bytes file).text = bytes ∧
    ((ofBytes bytes file).diagnostics = [] ↔ bytes.toByteArray.IsValidUTF8) ∧
    (∀ chars : List Char, bytes = chars.flatMap String.utf8EncodeChar →
      (ofBytes bytes file).text = chars.map CodePoint.ofChar) ∧
    (¬ bytes.toByteArray.IsValidUTF8 → ∃ (chars : List Char) (byte : UInt8) (rest : List UInt8),
      bytes = chars.flatMap String.utf8EncodeChar ++ byte :: rest ∧
      (∀ front, front <+: bytes → front.toByteArray.IsValidUTF8 →
        front.length ≤ (chars.flatMap String.utf8EncodeChar).length) ∧
      (ofBytes bytes file).diagnostics
        = [Diagnostic.ofCode .invalidUtf8 (.ofLength chars.length 1) file] ∧
      (ofBytes bytes file).text.take chars.length = chars.map CodePoint.ofChar ∧
      (ofBytes bytes file).text[chars.length]?.map (·.val) = some (0xDC00 + byte.toNat)) ∧
    (∀ offset, (LineIndex.ofText (ofBytes bytes file).text).byteOffset offset
      = (Utf8.encode ((ofBytes bytes file).text.take offset)).length) ∧
    ∀ range : TextRange,
      let index := LineIndex.ofText (ofBytes bytes file).text
      let span := index.span range
      span.startByte = index.byteOffset range.start ∧ span.endByte = index.byteOffset range.stop ∧
      (bytes.drop span.startByte).take (span.endByte - span.startByte)
        = Utf8.encode ((ofBytes bytes file).text.sliceRange range) := by
  have htext : (ofBytes bytes file).text = Utf8.decode bytes := rfl
  have hdecoded := Utf8.isDecoded_decode bytes
  -- The first clause needs no assumption on the bytes: strays are decoded to code points that
  -- encode back to them. The others look for the first stray.
  refine ⟨Utf8.encode_decode bytes, ?_, fun chars hchars => ?_, fun hinvalid => ?_,
    LineIndex.byteOffset_ofText hdecoded, fun range => ⟨rfl, rfl, extract_span bytes range⟩⟩
  · obtain ⟨chars, rest, rfl, rfl | ⟨byte, more, rfl, hnone⟩⟩ := Utf8.exists_chars bytes
    · rw [List.append_nil, diagnostics_ofBytes, Utf8.firstStray?_chars]
      exact iff_of_true rfl (Utf8.isValid_iff.mpr ⟨chars, rfl⟩)
    · rw [diagnostics_ofBytes, Utf8.firstStray?_stray chars hnone]
      exact iff_of_false nofun (Utf8.not_isValid chars hnone)
  · have h := Utf8.decode_chars chars []
    rw [List.append_nil] at h
    rw [htext, hchars, h]
    exact List.append_nil _
  · obtain ⟨chars, rest, rfl, rfl | ⟨byte, more, rfl, hnone⟩⟩ := Utf8.exists_chars bytes
    · exact absurd (Utf8.isValid_iff.mpr ⟨chars, List.append_nil _⟩) hinvalid
    · have hlength : (chars.map CodePoint.ofChar).length = chars.length := List.length_map ..
      refine ⟨chars, byte, more, rfl, fun front hfront hvalid =>
        Utf8.length_le_of_isValid chars hnone hfront hvalid, ?_, ?_, ?_⟩
      · rw [diagnostics_ofBytes, Utf8.firstStray?_stray chars hnone]
        rfl
      · rw [htext, Utf8.decode_chars, ← hlength, List.take_left]
      · rw [htext, Utf8.decode_chars, Utf8.decode_stray hnone,
          List.getElem?_append_right (by omega), hlength, Nat.sub_self]
        rfl

end MarkupSyntax.Decoded
