/-!
# Hexadecimal numbers

Addresses, offsets and sizes are shown to the user in one notation: `0x`, then the digits in lower
case, with no zero in front.
-/

namespace Rebase.Text

/-- A number in hexadecimal: `0x`, then its digits in lower case without a zero in front. -/
def hex (n : Nat) : String := "0x" ++ String.ofList (Nat.toDigits 16 n)

example : hex 0 = "0x0" := by decide

example : hex 0x3f00 = "0x3f00" := by decide

end Rebase.Text
