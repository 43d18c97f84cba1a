/-!
Numbers below 256 as two hexadecimal digits.
-/

namespace RobotLang.Text

/-- The two digits of a number below 256, the higher one first, with letters in lower case. -/
def hexPair (n : Nat) : List Char := [Nat.digitChar (n / 16), Nat.digitChar (n % 16)]

end RobotLang.Text
