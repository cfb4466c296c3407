import ScriptEditor.Text

namespace ScriptEditor.Decimal

/-- The quotient rounded to the nearest whole number, a half to the even one. -/
def roundHalfEven (num den : Nat) : Nat :=
  let q := num / den
  let twice := 2 * (num % den)
  if twice < den then q
  else if den < twice then q + 1
  else q + q % 2

def digits (n : Nat) : Text := Nat.toDigits 10 n

theorem isDigit_of_mem_digits {n : Nat} {c : Char} (h : c ∈ digits n) : c.isDigit :=
  Nat.isDigit_of_mem_toDigits (by decide) (by decide) h

/-- The digits of a count of units of the last place, with the point in front of that many. -/
def withPoint (places units : Nat) : Text :=
  if places = 0 then digits units
  else
    let unit := Nat.pow 10 places
    let fraction := digits (units % unit)
    digits (units / unit) ++ '.' :: List.replicate (places - fraction.length) '0' ++ fraction

/-- The text of `mantissa * 2 ^ exponent`. -/
def ofBinary (places mantissa : Nat) (exponent : Int) : Text :=
  let scaled := mantissa * Nat.pow 10 places
  withPoint places <|
    if 0 ≤ exponent then scaled * Nat.pow 2 exponent.toNat
    else roundHalfEven scaled (Nat.pow 2 (-exponent).toNat)

/-- The text of a double: the sign, the fraction and the exponent are read off its bits. -/
def ofFloat (places : Nat) (x : Float) : Text :=
  let bits := x.toBits.toNat
  let sign : Text := if bits / 0x8000000000000000 = 1 then ['-'] else []
  let exponent : Nat := bits / 0x10000000000000 % 0x800
  let fraction := bits % 0x10000000000000
  if exponent = 0x7FF then
    if fraction = 0 then sign ++ "inf".toList else "NaN".toList
  else if exponent = 0 then sign ++ ofBinary places fraction (-1074)
  else sign ++ ofBinary places (0x10000000000000 + fraction) (exponent - 1075)

end ScriptEditor.Decimal
