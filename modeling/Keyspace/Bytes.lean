/-!
# Byte strings

Keys, values, fields and members are byte strings.  `compare` orders them byte
by byte, with a string before every longer one that it begins, and that is the
order in which every collection of the store is listed.

Text enters and leaves as its UTF-8 bytes: `Bytes.ofText` never fails, and
`Bytes.toText?` reads back exactly what `Bytes.ofText` can write.
-/

namespace Keyspace

/-- A string of bytes. -/
abbrev Bytes := List UInt8

namespace Bytes

/-- The UTF-8 bytes of a text. -/
def ofText (text : String) : Bytes :=
  text.toUTF8.data.toList

/-- The text whose UTF-8 bytes these are, if there is one. -/
def toText? (bytes : Bytes) : Option String :=
  String.fromUTF8? ⟨bytes.toArray⟩

/-- A text is read back from its own bytes. -/
theorem toText?_ofText (text : String) : (ofText text).toText? = some text := by
  simp only [toText?, ofText, String.fromUTF8?, String.toUTF8_eq_toByteArray,
    Array.toArray_toList, dif_pos text.isValidUTF8]
  rfl

/-- Different texts have different bytes. -/
theorem ofText_inj {first second : String} : ofText first = ofText second ↔ first = second := by
  refine ⟨fun h => ?_, congrArg _⟩
  have hread : some first = some second := by
    rw [← toText?_ofText first, h, toText?_ofText]
  exact Option.some.inj hread

end Bytes

end Keyspace
