/-! Token counts in decimal: an optional plus sign and at least one digit, with zeros in front or not. -/

namespace Petri.Numeral

def largest : Nat := 4294967295

inductive Fault where
  | empty
  | badDigit
  | tooLarge
deriving DecidableEq

def Fault.message : Fault → String
  | .empty => "cannot parse integer from empty string"
  | .badDigit => "invalid digit found in string"
  | .tooLarge => "number too large to fit in target type"

/-- Reads digits onto `value`, from the left: the first character that is no digit, or that makes the number
too large, is the fault. -/
def readDigits (value : Nat) : List Char → Except Fault Nat
  | [] => .ok value
  | c :: s =>
    if c.isDigit then
      let next := 10 * value + (c.toNat - '0'.toNat)
      if largest < next then .error .tooLarge else readDigits next s
    else .error .badDigit

def read (s : List Char) : Except Fault UInt32 :=
  match s with
  | [] => .error .empty
  | ['+'] => .error .badDigit
  | '+' :: digits => (readDigits 0 digits).map UInt32.ofNat
  | digits => (readDigits 0 digits).map UInt32.ofNat

end Petri.Numeral
