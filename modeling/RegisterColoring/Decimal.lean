/-!
# Decimal Numbers in Text

Whole numbers are read digit by digit from the left, after an optional sign, and
have to stay within bounds. The first character that does not fit decides what
is wrong with the text.
-/

namespace RegisterColoring

namespace Decimal

/-- Why a text is not a number within bounds. -/
inductive Problem where
  | empty
  | invalidDigit
  | tooLarge
  | tooSmall
deriving DecidableEq, Repr

def Problem.message : Problem → String
  | empty => "cannot parse integer from empty string"
  | invalidDigit => "invalid digit found in string"
  | tooLarge => "number too large to fit in target type"
  | tooSmall => "number too small to fit in target type"

/-- The number that digits stand for after `value`, if it stays at or below `limit`. -/
def readDigits (limit : Nat) (overflow : Problem) (value : Nat) : List Char → Except Problem Nat
  | [] => .ok value
  | c :: rest =>
      if c.isDigit then
        let next := value * 10 + (c.toNat - '0'.toNat)
        if next ≤ limit then readDigits limit overflow next rest else .error overflow
      else .error .invalidDigit

/-- Read digits, of which there has to be one. -/
def readMagnitude (limit : Nat) (overflow : Problem) : List Char → Except Problem Nat
  | [] => .error .invalidDigit
  | digits => readDigits limit overflow 0 digits

/-- Read a number from 0 to `limit`; a plus sign may precede it. -/
def readNat (limit : Nat) (text : String) : Except Problem Nat :=
  match text.toList with
  | [] => .error .empty
  | '+' :: digits => readMagnitude limit .tooLarge digits
  | digits => readMagnitude limit .tooLarge digits

/-- Read a number from `-(limit + 1)` to `limit`; a sign may precede it. -/
def readInt (limit : Nat) (text : String) : Except Problem Int :=
  match text.toList with
  | [] => .error .empty
  | '-' :: digits => (readMagnitude (limit + 1) .tooSmall digits).map fun n => -Int.ofNat n
  | '+' :: digits => (readMagnitude limit .tooLarge digits).map Int.ofNat
  | digits => (readMagnitude limit .tooLarge digits).map Int.ofNat

end Decimal

end RegisterColoring
