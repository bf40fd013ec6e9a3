import Kovanica.Lib.Word

/-!
# Strings as bytes

The UTF-8 bytes of a string, and the string of bytes that are valid UTF-8.

`ofUtf8?_eq_some` says that the two are inverse to each other, so a name survives the wire, and
bytes that are no text are told apart.
-/

namespace Kovanica.Lib

/-- `s.as_bytes()`. -/
def utf8 (s : String) : List U8 := s.toByteArray.data.toList.map UInt8.toFin

/-- These bytes as an array. -/
def byteArray (bytes : List U8) : ByteArray := ⟨(bytes.map UInt8.ofFin).toArray⟩

/-- `String::from_utf8(bytes)`. -/
def ofUtf8? (bytes : List U8) : Option String := String.fromUTF8? (byteArray bytes)

theorem byteArray_utf8 (s : String) : byteArray (utf8 s) = s.toByteArray := by
  rw [byteArray, utf8, List.map_map]
  have hid : UInt8.ofFin ∘ UInt8.toFin = id := rfl
  rw [hid, List.map_id]

theorem byteArray_injective : Function.Injective byteArray := by
  intro bytes bytes' h
  have hdata := congrArg (fun b : ByteArray => b.data.toList.map UInt8.toFin) h
  have hid : UInt8.toFin ∘ UInt8.ofFin = id := rfl
  simpa [byteArray, List.map_map, hid] using hdata

/-- Bytes are a string exactly if they are its UTF-8 bytes. -/
theorem ofUtf8?_eq_some {bytes : List U8} {s : String} :
    ofUtf8? bytes = some s ↔ utf8 s = bytes := by
  rw [ofUtf8?, String.fromUTF8?]
  constructor
  · intro h
    split at h
    · rw [← Option.some.inj h]
      exact byteArray_injective (byteArray_utf8 _)
    · cases h
  · rintro rfl
    rw [byteArray_utf8, dif_pos s.isValidUTF8]
    rfl

end Kovanica.Lib
