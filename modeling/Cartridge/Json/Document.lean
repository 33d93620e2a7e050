import Cartridge.Json.Token

/-!
JSON documents.

A document keeps what its text says: entries in their order, with repeated keys, and numbers by how
they are written. Reading is a pushdown machine over the tokens, so that it ends on every input
without a bound on the nesting.
-/

namespace Cartridge.Json

inductive Document where
  | null
  | bool (value : Bool)
  | number (value : Number)
  | text (content : Option String)
  | array (items : List Document)
  | object (entries : List (Option String × Document))

abbrev Entry := Option String × Document

inductive Frame where
  | item (before : List Document)
  | entry (before : List Entry) (key : Option String)

inductive Expected where
  | value
  | valueOrClose
  | keyOrClose
  | separator (items : List Document)
  | key (entries : List Entry)
  | colon (entries : List Entry) (key : Option String)
  | entrySeparator (entries : List Entry)
  | nothing (document : Document)

structure Reading where
  frames : List Frame := []
  expected : Expected := .value

namespace Reading

def deliver (document : Document) : List Frame → Reading
  | [] => { expected := .nothing document }
  | .item before :: frames => { frames, expected := .separator (document :: before) }
  | .entry before key :: frames =>
    { frames, expected := .entrySeparator ((key, document) :: before) }

def startValue? (frames : List Frame) : Token → Option Reading
  | .null => some (deliver .null frames)
  | .bool value => some (deliver (.bool value) frames)
  | .number value => some (deliver (.number value) frames)
  | .text content => some (deliver (.text content) frames)
  | .openBracket => some { frames := .item [] :: frames, expected := .valueOrClose }
  | .openBrace => some { frames, expected := .keyOrClose }
  | _ => none

def step? (reading : Reading) (token : Token) : Option Reading :=
  let frames := reading.frames
  match reading.expected, token with
  | .value, token => startValue? frames token
  | .valueOrClose, .closeBracket => some (deliver (.array []) frames.tail)
  | .valueOrClose, token => startValue? frames token
  | .keyOrClose, .closeBrace => some (deliver (.object []) frames)
  | .keyOrClose, .text key => some { frames, expected := .colon [] key }
  | .separator items, .comma => some { frames := .item items :: frames, expected := .value }
  | .separator items, .closeBracket => some (deliver (.array items.reverse) frames)
  | .key entries, .text key => some { frames, expected := .colon entries key }
  | .colon entries key, .colon =>
    some { frames := .entry entries key :: frames, expected := .value }
  | .entrySeparator entries, .comma => some { frames, expected := .key entries }
  | .entrySeparator entries, .closeBrace => some (deliver (.object entries.reverse) frames)
  | _, _ => none

def result? (reading : Reading) : Option Document :=
  match reading.expected with
  | .nothing document => some document
  | _ => none

end Reading

def Document.read? (text : List Char) : Option Document := do
  let tokens ← tokens? text
  let reading ← tokens.foldlM Reading.step? {}
  reading.result?

end Cartridge.Json
