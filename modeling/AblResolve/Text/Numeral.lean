/-!
Decimal numerals of 32-bit size.
-/
namespace AblResolve.Text

/-- The value of a non-empty run of decimal digits that fits 32 bits. -/
def digitsValue? (digits : List Char) : Option UInt32 :=
  if !digits.isEmpty && digits.all Char.isDigit then
    let value := digits.foldl (fun n d => n * 10 + (d.toNat - '0'.toNat)) 0
    if value < UInt32.size then some (UInt32.ofNat value) else none
  else none

/-- The value of a numeral: digits, after a plus sign or not. -/
def numeralValue? (text : String) : Option UInt32 :=
  match text.toList with
  | '+' :: digits => digitsValue? digits
  | digits => digitsValue? digits

end AblResolve.Text
