/-
Bytes and the texts they encode in UTF-8.
-/
namespace Exprc.Text

/-- The text that bytes encode, if they are well formed. -/
def decodeUtf8? (bytes : List UInt8) : Option String := String.fromUTF8? ⟨bytes.toArray⟩

/-- The bytes that encode a text. -/
def encodeUtf8 (text : String) : List UInt8 := text.toUTF8.data.toList

end Exprc.Text
