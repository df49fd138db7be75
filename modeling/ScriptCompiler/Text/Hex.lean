/-!
# Hexadecimal numerals of a fixed width

Bit patterns and bytes are written with a fixed number of upper-case digits, so that two numerals
of one width are equal only when the numbers they stand for agree below `16 ^ width`.
-/

namespace ScriptCompiler.Text

/-- The upper-case digit of `n % 16`. -/
def hexDigit (n : Nat) : Char :=
  match n % 16 with
  | 0 => '0' | 1 => '1' | 2 => '2' | 3 => '3' | 4 => '4' | 5 => '5' | 6 => '6' | 7 => '7'
  | 8 => '8' | 9 => '9' | 10 => 'A' | 11 => 'B' | 12 => 'C' | 13 => 'D' | 14 => 'E' | _ => 'F'

/-- The lowest `width` hexadecimal digits of `n`, the highest of them first. -/
def hexDigits : (width n : Nat) → List Char
  | 0, _ => []
  | width + 1, n => hexDigits width (n / 16) ++ [hexDigit n]

/-- A numeral of `width` digits. -/
def hex (width n : Nat) : String :=
  String.ofList (hexDigits width n)

/-- The value of one hexadecimal digit of either case. -/
def hexValue? (c : Char) : Option Nat :=
  if '0' ≤ c ∧ c ≤ '9' then some (c.toNat - '0'.toNat)
  else if 'a' ≤ c ∧ c ≤ 'f' then some (c.toNat - 'a'.toNat + 10)
  else if 'A' ≤ c ∧ c ≤ 'F' then some (c.toNat - 'A'.toNat + 10)
  else none

/-- The number that a string of hexadecimal digits stands for, `none` at any other character. -/
def ofHex? (digits : List Char) : Option Nat :=
  digits.foldl (fun acc c => do return 16 * (← acc) + (← hexValue? c)) (some 0)

end ScriptCompiler.Text
