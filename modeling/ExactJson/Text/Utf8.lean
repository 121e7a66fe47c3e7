/-!
Texts and the bytes that encode them in UTF-8. Each text has one encoding, and reading it gives the
text back (`text?_utf8`).
-/
namespace ExactJson

abbrev Bytes := List UInt8

namespace Text

def utf8 (s : String) : Bytes := s.toByteArray.data.toList

def text? (bs : Bytes) : Option String := String.fromUTF8? bs.toByteArray

def ofAscii (bs : Bytes) : String := String.ofList (bs.map Char.ofUInt8)

@[simp] theorem utf8_append (s t : String) : utf8 (s ++ t) = utf8 s ++ utf8 t := by
  simp [utf8]

theorem utf8_ofList (cs : List Char) :
    utf8 (String.ofList cs) = cs.flatMap String.utf8EncodeChar := by
  simp [utf8, List.utf8Encode]

theorem toByteArray_utf8 (s : String) : (utf8 s).toByteArray = s.toByteArray := by
  apply ByteArray.ext
  simp [utf8]

@[simp] theorem text?_utf8 (s : String) : text? (utf8 s) = some s := by
  simp [text?, String.fromUTF8?, toByteArray_utf8, s.isValidUTF8, String.fromUTF8]

theorem utf8_of_text? {bs : Bytes} {s : String} (h : text? bs = some s) : utf8 s = bs := by
  simp only [text?, String.fromUTF8?] at h
  split at h
  · cases h
    simp [utf8, String.fromUTF8]
  · cases h

end Text
end ExactJson
