import Cartridge.Text.Numeral

/-!
Tokens of JSON text.

The scanner takes one character at a time. Everything that is not a blank, a bracket, a separator
or part of a quoted text belongs to a word, and a word is a literal or a number. Numbers are told
apart by how they are written: only a run of digits, with a minus sign in front unless it is zero,
is an integer.
-/

namespace Cartridge.Json

inductive Number where
  | integer (value : Int)
  /-- Written with a fraction, an exponent, or as minus zero. -/
  | real
  deriving DecidableEq, Repr

inductive Token where
  | openBracket
  | closeBracket
  | openBrace
  | closeBrace
  | comma
  | colon
  | null
  | bool (value : Bool)
  | number (value : Number)
  /-- A quoted text, absent when its escapes pair surrogates wrongly and so denote no text. -/
  | text (content : Option String)
  deriving DecidableEq, Repr

namespace Number

def isDigit (c : Char) : Bool :=
  '0' ≤ c && c ≤ '9'

def isDigits (text : List Char) : Bool :=
  !text.isEmpty && text.all isDigit

/-- A whole part has a leading zero only when it is zero. -/
def isWhole : List Char → Bool
  | [] => false
  | ['0'] => true
  | first :: rest => first != '0' && (first :: rest).all isDigit

def isExponent : List Char → Bool
  | [] => true
  | mark :: rest =>
    (mark == 'e' || mark == 'E') &&
      match rest with
      | '+' :: digits => isDigits digits
      | '-' :: digits => isDigits digits
      | digits => isDigits digits

def isTail : List Char → Bool
  | '.' :: rest =>
    !(rest.takeWhile isDigit).isEmpty && isExponent (rest.dropWhile isDigit)
  | rest => isExponent rest

def ofUnsigned? (negative : Bool) (text : List Char) : Option Number :=
  let whole := text.takeWhile isDigit
  let tail := text.dropWhile isDigit
  if !isWhole whole || !isTail tail then none
  else
    match tail, Text.digitsValue? 10 0 whole with
    | [], some value =>
      if !negative then some (.integer value)
      else if value = 0 then some .real
      else some (.integer (-(value : Int)))
    | _, _ => some .real

def ofWord? : List Char → Option Number
  | '-' :: text => ofUnsigned? true text
  | text => ofUnsigned? false text

end Number

namespace Token

def ofWord? (word : List Char) : Option Token :=
  if word = ['n', 'u', 'l', 'l'] then some .null
  else if word = ['t', 'r', 'u', 'e'] then some (.bool true)
  else if word = ['f', 'a', 'l', 's', 'e'] then some (.bool false)
  else (Number.ofWord? word).map .number

def ofMark? : Char → Option Token
  | '[' => some .openBracket
  | ']' => some .closeBracket
  | '{' => some .openBrace
  | '}' => some .closeBrace
  | ',' => some .comma
  | ':' => some .colon
  | _ => none

end Token

inductive Piece where
  | char (c : Char)
  | unit (code : Nat)

def isHighSurrogate (code : Nat) : Bool := 0xD800 ≤ code && code ≤ 0xDBFF

def isLowSurrogate (code : Nat) : Bool := 0xDC00 ≤ code && code ≤ 0xDFFF

/-- The characters of the pieces, where two escapes may stand for one character. -/
def joinPieces? : List Char → List Piece → Option (List Char)
  | done, [] => some done.reverse
  | done, .char c :: rest => joinPieces? (c :: done) rest
  | done, .unit high :: .unit low :: rest =>
    if isHighSurrogate high then
      if isLowSurrogate low then
        let code := 0x10000 + (high - 0xD800) * 0x400 + (low - 0xDC00)
        joinPieces? (Char.ofNat code :: done) rest
      else none
    else if isLowSurrogate high then none
    else joinPieces? (Char.ofNat high :: done) (.unit low :: rest)
  | done, .unit code :: rest =>
    if isHighSurrogate code || isLowSurrogate code then none
    else joinPieces? (Char.ofNat code :: done) rest

def escape? : Char → Option Char
  | '"' => some '"'
  | '\\' => some '\\'
  | '/' => some '/'
  | 'b' => some '\x08'
  | 'f' => some '\x0c'
  | 'n' => some '\n'
  | 'r' => some '\r'
  | 't' => some '\t'
  | _ => none

/-- Where the scanner is. Lists hold what was read last first. -/
inductive Place where
  | between
  | word (read : List Char)
  | text (pieces : List Piece)
  | escape (pieces : List Piece)
  | code (pieces : List Piece) (digits : List Char)

structure Scan where
  tokens : List Token := []
  place : Place := .between

namespace Scan

def isSpace (c : Char) : Bool :=
  c == ' ' || c == '\t' || c == '\n' || c == '\r'

def emit (tokens : List Token) (token : Token) : Scan :=
  { tokens := token :: tokens }

def endWord? (tokens : List Token) (word : List Char) : Option (List Token) :=
  (Token.ofWord? word.reverse).map fun token => token :: tokens

def begin (tokens : List Token) (c : Char) : Scan :=
  if isSpace c then { tokens }
  else if c = '"' then { tokens, place := .text [] }
  else
    match Token.ofMark? c with
    | some token => emit tokens token
    | none => { tokens, place := .word [c] }

def endsWord (c : Char) : Bool :=
  isSpace c || c == '"' || (Token.ofMark? c).isSome

def endText (tokens : List Token) (pieces : List Piece) : Scan :=
  emit tokens (.text ((joinPieces? [] pieces.reverse).map String.ofList))

def step? (scan : Scan) (c : Char) : Option Scan :=
  match scan.place with
  | .between => some (begin scan.tokens c)
  | .word read =>
    if endsWord c then (endWord? scan.tokens read).map fun tokens => begin tokens c
    else some { scan with place := .word (c :: read) }
  | .text pieces =>
    if c = '"' then some (endText scan.tokens pieces)
    else if c = '\\' then some { scan with place := .escape pieces }
    else if c.toNat < 0x20 then none
    else some { scan with place := .text (.char c :: pieces) }
  | .escape pieces =>
    if c = 'u' then some { scan with place := .code pieces [] }
    else (escape? c).map fun escaped => { scan with place := .text (.char escaped :: pieces) }
  | .code pieces digits =>
    if (Text.digitValue? 16 c).isNone then none
    else if digits.length < 3 then some { scan with place := .code pieces (c :: digits) }
    else
      (Text.digitsValue? 16 0 (c :: digits).reverse).map fun code =>
        { scan with place := .text (.unit code :: pieces) }

def finish? (scan : Scan) : Option (List Token) :=
  match scan.place with
  | .between => some scan.tokens.reverse
  | .word read => (endWord? scan.tokens read).map List.reverse
  | _ => none

end Scan

def tokens? (text : List Char) : Option (List Token) :=
  (text.foldlM Scan.step? {}).bind Scan.finish?

end Cartridge.Json
