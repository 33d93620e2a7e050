/-!
Numerals: how numbers are written and read back.

Writing is in decimal, or in upper-case hexadecimal padded with zeros to a least width. Reading
takes a radix and a largest value, and allows one plus sign in front of the digits.
-/

namespace Cartridge.Text

def padZeros (width : Nat) (digits : List Char) : List Char :=
  List.replicate (width - digits.length) '0' ++ digits

def decimal (n : Nat) : String :=
  String.ofList (Nat.toDigits 10 n)

def paddedDecimal (width n : Nat) : String :=
  String.ofList (padZeros width (Nat.toDigits 10 n))

def hexadecimal (width n : Nat) : String :=
  String.ofList (padZeros width ((Nat.toDigits 16 n).map Char.toUpper))

def signedDecimal (n : Int) : String :=
  match n with
  | .ofNat magnitude => decimal magnitude
  | .negSucc magnitude => "-" ++ decimal (magnitude + 1)

/-- The value of one digit, in either case, when it is below the radix. -/
def digitValue? (radix : Nat) (c : Char) : Option Nat :=
  let value :=
    if '0' ≤ c && c ≤ '9' then c.toNat - '0'.toNat
    else if 'a' ≤ c && c ≤ 'z' then c.toNat - 'a'.toNat + 10
    else if 'A' ≤ c && c ≤ 'Z' then c.toNat - 'A'.toNat + 10
    else radix
  if value < radix then some value else none

def digitsValue? (radix : Nat) : Nat → List Char → Option Nat
  | value, [] => some value
  | value, c :: rest =>
    match digitValue? radix c with
    | some digit => digitsValue? radix (value * radix + digit) rest
    | none => none

/-- Reads digits, with at most one plus sign in front, as a number no larger than the limit. -/
def readNumeral? (radix limit : Nat) (text : List Char) : Option Nat :=
  let digits :=
    match text with
    | '+' :: rest => rest
    | _ => text
  if digits.isEmpty then none
  else
    match digitsValue? radix 0 digits with
    | some value => if value ≤ limit then some value else none
    | none => none

end Cartridge.Text
