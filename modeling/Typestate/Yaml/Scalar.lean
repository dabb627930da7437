import Typestate.Json.Quoted
import Typestate.Yaml.Spot

/-!
Scalars of a YAML text: plain ones and those between single or double quotes. Within a scalar the
blanks around a line break are dropped, a single line break is a space and of more of them the
first one does not count.
-/

namespace Typestate.Yaml

inductive LineBreak where
  | char (c : Char)
  /-- A line break after a backslash, which does not count. -/
  | escaped
  deriving DecidableEq

/-- Blanks and line breaks that have been met and may turn out to be part of a scalar: blanks before
the first line break and the line breaks after it, last ones first. -/
structure Gap where
  blanks : List Char
  first : Option LineBreak
  later : List Char
  deriving DecidableEq

namespace Gap

def empty : Gap :=
  ⟨[], none, []⟩

def hasBreak (g : Gap) : Bool :=
  g.first.isSome

def isEmpty (g : Gap) : Bool :=
  g.blanks.isEmpty && g.first.isNone

def push (g : Gap) (s : Spot) : Gap :=
  if s.isBreak then
    match g.first with
    | none => ⟨[], some (.char s.char), []⟩
    | some _ => { g with later := s.char :: g.later }
  else
    match g.first with
    | none => { g with blanks := s.char :: g.blanks }
    | some _ => g

/-- The text of a gap within a scalar, last character first. -/
def text (g : Gap) : List Char :=
  match g.first with
  | none => g.blanks
  | some .escaped => g.later
  | some (.char c) =>
    if c = '\n' then (if g.later.isEmpty then [' '] else g.later)
    else g.later ++ [c]

end Gap

/-- The characters that end a plain scalar within brackets. -/
def isFlowMark (c : Char) : Bool :=
  c = ',' ∨ c = '[' ∨ c = ']' ∨ c = '{' ∨ c = '}'

/-- Reads a plain scalar, of which the characters in `done` have been read, last one first, and then
the gap: its text, last character first, whether a line ends after it, and the text after it. Lines
that go on with it are indented by at least `indent`, except within brackets. -/
def readPlain (inFlow : Bool) (indent : Nat) (done : List Char) (gap : Gap) :
    List Spot → Option (List Char × Bool × List Spot)
  | [] => some (done, gap.hasBreak, [])
  | s :: rest =>
    let finished := some (done, gap.hasBreak, s :: rest)
    if s.isBlankOrBreak then
      if s.char = '\t' ∧ gap.hasBreak ∧ s.column < indent then none
      else readPlain inFlow indent done (gap.push s) rest
    else if gap.hasBreak ∧ !inFlow ∧ s.column < indent then finished
    else if (Spot.documentMark? (s :: rest)).isSome then finished
    else if s.char = '#' ∧ !gap.isEmpty then finished
    else if s.char = ':' ∧ inFlow ∧ rest.head?.any (fun t => isFlowMark t.char ∨ t.char = '?') then
      none
    else if s.char = ':' ∧ Spot.endsWord rest then finished
    else if inFlow ∧ isFlowMark s.char then finished
    else readPlain inFlow indent (s.char :: (gap.text ++ done)) .empty rest

/-- Reads on after the opening quote of a scalar between single quotes, in which a quote is written
twice: its text and the text after the closing quote. -/
def readSingle (done : List Char) (gap : Gap) : List Spot → Option (List Char × List Spot)
  | [] => none
  | s :: rest =>
    if (Spot.documentMark? (s :: rest)).isSome then none
    else if s.isBlankOrBreak then readSingle done (gap.push s) rest
    else
      let done := gap.text ++ done
      if s.char = '\'' then
        match rest with
        | [] => some (done.reverse, [])
        | t :: rest' =>
          if t.char = '\'' then readSingle ('\'' :: done) .empty rest'
          else some (done.reverse, t :: rest')
      else readSingle (s.char :: done) .empty rest

/-- The character that a backslash and the given one stand for. -/
def escape? : Char → Option Char
  | '0' => some '\x00'
  | 'a' => some '\x07'
  | 'b' => some '\x08'
  | 't' => some '\t'
  | '\t' => some '\t'
  | 'n' => some '\n'
  | 'v' => some '\x0b'
  | 'f' => some '\x0c'
  | 'r' => some '\r'
  | 'e' => some '\x1b'
  | ' ' => some ' '
  | '"' => some '"'
  | '/' => some '/'
  | '\\' => some '\\'
  | 'N' => some '\u0085'
  | '_' => some '\u00a0'
  | 'L' => some '\u2028'
  | 'P' => some '\u2029'
  | _ => none

/-- The number of hexadecimal digits after a backslash and the given character. -/
def hexLength : Char → Nat
  | 'x' => 2
  | 'u' => 4
  | 'U' => 8
  | _ => 0

def charOf? (n : Nat) : Option Char :=
  if n.isValidChar then some (Char.ofNat n) else none

/-- Reads on after the opening quote of a scalar between double quotes; `code` is the value of the
hexadecimal digits read so far of an escape and `digits` the number of those that are to come. -/
def readDouble (done : List Char) (gap : Gap) (code digits : Nat) :
    List Spot → Option (List Char × List Spot)
  | [] => none
  | s :: rest =>
    if 0 < digits then
      match Json.Quoted.hexDigit? s.char with
      | none => none
      | some d =>
        let code := 16 * code + d
        if digits = 1 then
          match charOf? code with
          | none => none
          | some c => readDouble (c :: done) .empty 0 0 rest
        else readDouble done .empty code (digits - 1) rest
    else if (Spot.documentMark? (s :: rest)).isSome then none
    else if s.isBlankOrBreak then readDouble done (gap.push s) 0 0 rest
    else
      let done := gap.text ++ done
      if s.char = '"' then some (done.reverse, rest)
      else if s.char = '\\' then
        match rest with
        | [] => none
        | t :: rest' =>
          if t.isBreak then readDouble done ⟨[], some .escaped, []⟩ 0 0 rest'
          else if 0 < hexLength t.char then readDouble done .empty 0 (hexLength t.char) rest'
          else
            match escape? t.char with
            | none => none
            | some c => readDouble (c :: done) .empty 0 0 rest'
      else readDouble (s.char :: done) .empty 0 0 rest

end Typestate.Yaml
