/-!
Texts as bytes in UTF-8. Main statement: a text is read back from its bytes (`decode?_encode`).
-/

namespace RobotLang.Text

def encode (text : String) : List UInt8 := text.toUTF8.data.toList

def decode? (bytes : List UInt8) : Option String := String.fromUTF8? ⟨bytes.toArray⟩

theorem decode?_encode (text : String) : decode? (encode text) = some text := by
  unfold decode? encode
  rw [Array.toArray_toList]
  exact dif_pos text.isValidUTF8

theorem encode_injective {s t : String} (same : encode s = encode t) : s = t := by
  have read := decode?_encode s
  rw [same, decode?_encode] at read
  exact (Option.some.inj read).symm

end RobotLang.Text
