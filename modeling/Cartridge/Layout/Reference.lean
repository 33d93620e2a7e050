import Cartridge.Layout.ValueType
import Cartridge.Text.Blank
import Cartridge.Text.Cut

/-!
Written references to types.

A reference is the name of a type, or a reference to what a pointer points to followed by a star.
A mark in front of the whole keeps that pointer in the zero page, so marks and stars nest from the
outside in. Blanks around any part are dropped.
-/

namespace Cartridge

inductive TypeReference where
  | named (name : String)
  | pointer (target : TypeReference) (zeroPage : Bool)
  deriving DecidableEq, Repr

namespace Text

theorem length_trim_le (text : List Char) : (trim text).length ≤ text.length := by
  have dropped : ∀ (part : List Char), (part.dropWhile isBlank).length ≤ part.length :=
    fun part => (List.dropWhile_sublist isBlank).length_le
  have front := dropped text
  have back := dropped (trimLeft text).reverse
  simp only [trim, trimRight, trimLeft, List.length_reverse] at *
  omega

theorem length_of_before? {closing text front : List Char} (h : before? closing text = some front) :
    front.length + closing.length = text.length := by
  simp only [before?] at h
  split at h
  · rename_i enough
    simp only [Bool.and_eq_true, decide_eq_true_eq] at enough
    obtain rfl := Option.some.inj h
    simp only [List.length_take]
    omega
  · simp at h

end Text

namespace TypeReference

def zeroPageMark : List Char := ['\x7b', 'z', 'p', '\x7d']

def splitMark (text : List Char) : List Char × Bool :=
  if text.take 4 = zeroPageMark then (text.drop 4, true) else (text, false)

theorem length_splitMark_le (text : List Char) : (splitMark text).1.length ≤ text.length := by
  simp only [splitMark]
  split <;> simp

def read (text : List Char) : TypeReference :=
  match _found : Text.before? ['*'] (Text.trim text) with
  | some front => .pointer (read (splitMark front).1) (splitMark front).2
  | none => .named (String.ofList (Text.trim text))
termination_by text.length
decreasing_by
  have shorter := Text.length_of_before? _found
  have trimmed := Text.length_trim_le text
  have unmarked := length_splitMark_le front
  simp only [List.length_singleton] at shorter
  omega

def resolve {m : Type → Type} [Monad m] (named : String → m ValueType) :
    TypeReference → m ValueType
  | .named name => named name
  | .pointer target zeroPage => do
    let target ← target.resolve named
    return .pointer target zeroPage

end TypeReference

end Cartridge
