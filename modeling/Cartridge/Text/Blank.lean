/-!
Blank characters and the cuts made at them.

A character is blank when it has the Unicode property White_Space. The table below is the whole
property, so blanks outside ASCII count too.
-/

namespace Cartridge.Text

/-- The code points of White_Space, as inclusive ranges in increasing order. -/
def blankRanges : List (Nat × Nat) :=
  [(0x0009, 0x000D), (0x0020, 0x0020), (0x0085, 0x0085), (0x00A0, 0x00A0), (0x1680, 0x1680),
    (0x2000, 0x200A), (0x2028, 0x2029), (0x202F, 0x202F), (0x205F, 0x205F), (0x3000, 0x3000)]

def isBlank (c : Char) : Bool :=
  blankRanges.any fun range => range.1 ≤ c.toNat && c.toNat ≤ range.2

def trimLeft (text : List Char) : List Char :=
  text.dropWhile isBlank

def trimRight (text : List Char) : List Char :=
  (text.reverse.dropWhile isBlank).reverse

def trim (text : List Char) : List Char :=
  trimRight (trimLeft text)

def firstWord (text : List Char) : List Char :=
  text.takeWhile fun c => !isBlank c

/-- What follows the first blank, and nothing when there is none. -/
def afterFirstWord (text : List Char) : List Char :=
  (text.dropWhile fun c => !isBlank c).drop 1

end Cartridge.Text
