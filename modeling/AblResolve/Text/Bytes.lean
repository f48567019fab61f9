/-!
The bytes of names. Names are compared and hashed by their bytes, in which the letters of ASCII are
taken in lower case. All other bytes are taken as they are, those of longer characters among them.
-/
namespace AblResolve.Text

/-- The UTF-8 bytes of a text. -/
def bytes (text : String) : List UInt8 := text.toByteArray.data.toList

/-- The byte of a capital of ASCII in lower case; other bytes as they are. -/
def lowerByte (b : UInt8) : UInt8 := if 65 ≤ b ∧ b ≤ 90 then b + 32 else b

/-- The bytes of a name, up to the case of ASCII letters. -/
def foldedBytes (name : String) : List UInt8 := (bytes name).map lowerByte

end AblResolve.Text
