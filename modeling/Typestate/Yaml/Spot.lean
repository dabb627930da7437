/-!
Characters of a YAML text with their places. A line break of two characters is one spot.
-/

namespace Typestate.Yaml

/-- A character at a line and a column, after a number of bytes in the whole text, all counted from
zero. -/
structure Spot where
  char : Char
  line : Nat
  column : Nat
  index : Nat
  deriving DecidableEq

namespace Spot

/-- The characters that end a line; a carriage return and a next-line character are written as line
feeds before. -/
def isBreakChar (c : Char) : Bool :=
  c = '\n' ∨ c = '\u2028' ∨ c = '\u2029'

def isPermitted (c : Char) : Bool :=
  c = '\t' ∨ c = '\n' ∨ c = '\r' ∨ (' ' ≤ c ∧ c ≤ '~') ∨ c = '\u0085'
    ∨ ('\u00a0' ≤ c ∧ c ≠ '\ufffe' ∧ c ≠ '\uffff')

def isBreak (s : Spot) : Bool :=
  isBreakChar s.char

def isBlank (s : Spot) : Bool :=
  s.char = ' ' ∨ s.char = '\t'

def isBlankOrBreak (s : Spot) : Bool :=
  s.isBlank || s.isBreak

def place (line column index : Nat) : List Char → List Spot
  | [] => []
  | '\r' :: '\n' :: rest => ⟨'\n', line, column, index⟩ :: place (line + 1) 0 (index + 2) rest
  | c :: rest =>
    let char := if c = '\r' ∨ c = '\u0085' then '\n' else c
    let next := index + c.utf8Size
    if isBreakChar char then ⟨char, line, column, index⟩ :: place (line + 1) 0 next rest
    else ⟨char, line, column, index⟩ :: place line (column + 1) next rest

/-- Whether a byte order mark stands at the start of a line, where it does not count. -/
def isMark (s : Spot) : Bool :=
  s.column = 0 ∧ s.char = '\ufeff'

def ofText? (text : String) : Option (List Spot) :=
  if text.toList.all isPermitted then some (place 0 0 0 text.toList) else none

/-- Whether a text goes on with a blank or a line break, or ends. -/
def endsWord : List Spot → Bool
  | [] => true
  | s :: _ => s.isBlankOrBreak

/-- The mark between documents that stands at the start of a line, if it does. -/
def documentMark? : List Spot → Option Char
  | a :: b :: c :: rest =>
    if a.column = 0 ∧ a.char = b.char ∧ b.char = c.char ∧ (a.char = '-' ∨ a.char = '.')
        ∧ endsWord rest then
      some a.char
    else none
  | _ => none

end Spot

end Typestate.Yaml
