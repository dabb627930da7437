import Typestate.Yaml.Directive
import Typestate.Yaml.Scalar

/-!
Tokens of a YAML text. Brackets, dashes and colons are tokens as they stand; the structure that is
given by indentation is made explicit by tokens of its own. A key of a mapping is known as such only
when the colon after it is met, so the token that announces it is put in before it then. The text
may hold no anchors, tags and block scalars.
-/

namespace Typestate.Yaml

inductive Token where
  | directive (d : Directive)
  | documentStart
  | documentEnd
  /-- A block sequence or block mapping starts, by indentation. -/
  | blockSequence
  | blockMapping
  /-- A block sequence or block mapping ends, by indentation. -/
  | blockEnd
  | openSequence
  | closeSequence
  | openMapping
  | closeMapping
  /-- The dash of an item. -/
  | item
  /-- The comma between items. -/
  | comma
  /-- A key comes next. -/
  | key
  /-- The colon before a value. -/
  | value
  | scalar (text : String) (plain : Bool)
  deriving DecidableEq

/-- A place where a key may have started: how many tokens come before it, and whether it must turn
out to be a key. -/
structure KeyStart where
  tokens : Nat
  line : Nat
  column : Nat
  index : Nat
  required : Bool
  deriving DecidableEq

/-- A scanner: the text to come, the columns of the open blocks and, for the block and each open
bracket, where a key may have started, all innermost first. `keyAllowed` says whether a key may start
here. -/
structure Scanner where
  rest : List Spot
  indents : List Nat
  keys : List (Option KeyStart)
  keyAllowed : Bool
  tokens : Array Token

namespace Scanner

def start (spots : List Spot) : Scanner :=
  ⟨spots, [], [none], true, #[]⟩

def inFlow (s : Scanner) : Bool :=
  !s.keys.tail.isEmpty

/-- The least column of text that belongs to the innermost block. -/
def contentIndent (s : Scanner) : Nat :=
  match s.indents with
  | [] => 0
  | i :: _ => i + 1

/-- Skips blanks, comments, line breaks and byte order marks at the start of lines. Where a key may
start, a tab is no blank. -/
def skip (inFlow inComment keyAllowed : Bool) : List Spot → List Spot × Bool
  | [] => ([], keyAllowed)
  | s :: rest =>
    if s.isBreak then skip inFlow false (keyAllowed || !inFlow) rest
    else if inComment then skip inFlow true keyAllowed rest
    else if s.char = ' ' ∨ (s.char = '\t' ∧ (inFlow ∨ !keyAllowed)) then
      skip inFlow false keyAllowed rest
    else if s.isMark then skip inFlow false keyAllowed rest
    else if s.char = '#' then skip inFlow true keyAllowed rest
    else (s :: rest, keyAllowed)

/-- A key must end on the line where it starts and be no longer than 1024 bytes. -/
def dropStaleKey (at_ : Spot) : Option KeyStart → Option (Option KeyStart)
  | none => some none
  | some k =>
    if k.line < at_.line ∨ k.index + 1024 < at_.index then
      if k.required then none else some none
    else some (some k)

/-- Forgets the key that may have started at the innermost level, unless it is required. -/
def removeKey (s : Scanner) : Option Scanner :=
  match s.keys with
  | some k :: outer => if k.required then none else some { s with keys := none :: outer }
  | _ => some s

def noteKey (s : Scanner) (at_ : Spot) : Option Scanner :=
  if s.keyAllowed then do
    let s ← s.removeKey
    let required := !s.inFlow && s.indents.head? = some at_.column
    let k : KeyStart := ⟨s.tokens.size, at_.line, at_.column, at_.index, required⟩
    return { s with keys := some k :: s.keys.tail }
  else some s

def emit (s : Scanner) (t : Token) : Scanner :=
  { s with tokens := s.tokens.push t }

def advance (s : Scanner) (n : Nat) : Scanner :=
  { s with rest := s.rest.drop n }

/-- Closes the blocks that are indented by more than the given column. -/
def closeBlocks (column : Nat) : List Nat → Array Token → List Nat × Array Token
  | [], ts => ([], ts)
  | i :: outer, ts =>
    if column < i then closeBlocks column outer (ts.push .blockEnd) else (i :: outer, ts)

def closeAll (s : Scanner) : Scanner :=
  { s with indents := [], tokens := s.tokens ++ (s.indents.map fun _ => Token.blockEnd) }

/-- Opens a block at a column that is further in than the innermost block; its token is put in before
the token with the given number. -/
def openBlock (s : Scanner) (column number : Nat) (t : Token) : Scanner :=
  if s.inFlow ∨ s.indents.head?.any (column ≤ ·) then s
  else
    { s with
      indents := column :: s.indents
      tokens := s.tokens.insertIdxIfInBounds number t }

def documentMark (s : Scanner) (t : Token) : Option Scanner := do
  let s ← s.closeAll.removeKey
  return { s.advance 3 with keyAllowed := false }.emit t

/-- A directive, of which the percent sign comes first. -/
def directive (s : Scanner) : Option Scanner := do
  let s ← s.closeAll.removeKey
  let (d, rest) ← Directive.read? s.rest.tail
  return { s with rest := rest, keyAllowed := false }.emit (.directive d)

def openBracket (s : Scanner) (at_ : Spot) (t : Token) : Option Scanner := do
  let s ← s.noteKey at_
  return { s.advance 1 with keys := none :: s.keys, keyAllowed := true }.emit t

def closeBracket (s : Scanner) (t : Token) : Option Scanner := do
  let s ← s.removeKey
  let keys := if s.inFlow then s.keys.tail else s.keys
  return { s.advance 1 with keys := keys, keyAllowed := false }.emit t

def comma (s : Scanner) : Option Scanner := do
  let s ← s.removeKey
  return { s.advance 1 with keyAllowed := true }.emit .comma

def item (s : Scanner) (at_ : Spot) : Option Scanner := do
  if !s.inFlow && !s.keyAllowed then none
  let s ← (s.openBlock at_.column s.tokens.size .blockSequence).removeKey
  return { s.advance 1 with keyAllowed := true }.emit .item

def explicitKey (s : Scanner) (at_ : Spot) : Option Scanner := do
  if !s.inFlow && !s.keyAllowed then none
  let s ← (s.openBlock at_.column s.tokens.size .blockMapping).removeKey
  return { s.advance 1 with keyAllowed := !s.inFlow }.emit .key

/-- The colon before a value. What may have been a key is one now. -/
def value (s : Scanner) (at_ : Spot) : Option Scanner :=
  match s.keys with
  | some k :: outer =>
    let announced := { s with tokens := s.tokens.insertIdxIfInBounds k.tokens .key }
    let opened := announced.openBlock k.column k.tokens .blockMapping
    some ({ opened.advance 1 with keys := none :: outer, keyAllowed := false }.emit .value)
  | _ =>
    if !s.inFlow && !s.keyAllowed then none
    else
      let opened := s.openBlock at_.column s.tokens.size .blockMapping
      some ({ opened.advance 1 with keyAllowed := !s.inFlow }.emit .value)

def quoted (s : Scanner) (at_ : Spot)
    (read : List Spot → Option (List Char × List Spot)) : Option Scanner := do
  let s ← s.noteKey at_
  let (text, rest) ← read s.rest.tail
  return { s with rest := rest, keyAllowed := false }.emit (.scalar (String.ofList text) false)

def plain (s : Scanner) (at_ : Spot) : Option Scanner := do
  let s ← s.noteKey at_
  let (text, broken, rest) ← readPlain s.inFlow s.contentIndent [] .empty s.rest
  return { s with rest := rest, keyAllowed := broken }.emit
    (.scalar (String.ofList text.reverse) true)

/-- The characters with which no plain scalar starts. -/
def isIndicator (c : Char) : Bool :=
  "-?:,[]\x7b\x7d#&*!|>'\"%@`".toList.contains c

def startsPlain (inFlow : Bool) (at_ : Spot) (rest : List Spot) : Bool :=
  let c := at_.char
  (!at_.isBlankOrBreak && !isIndicator c)
    || (c = '-' && !rest.head?.any Spot.isBlank)
    || (!inFlow && (c = '?' || c = ':') && !Spot.endsWord rest)

/-- Takes the token that starts at a place which is no blank. -/
def token (s : Scanner) (at_ : Spot) (rest : List Spot) : Option Scanner :=
  let c := at_.char
  let alone := Spot.endsWord rest
  if at_.column = 0 ∧ c = '%' then s.directive
  else
    match Spot.documentMark? (at_ :: rest) with
    | some '-' => s.documentMark .documentStart
    | some _ => s.documentMark .documentEnd
    | none =>
      if c = '[' then s.openBracket at_ .openSequence
      else if c = '{' then s.openBracket at_ .openMapping
      else if c = ']' then s.closeBracket .closeSequence
      else if c = '}' then s.closeBracket .closeMapping
      else if c = ',' then s.comma
      else if c = '-' ∧ alone then s.item at_
      else if c = '?' ∧ (s.inFlow ∨ alone) then s.explicitKey at_
      else if c = ':' ∧ (s.inFlow ∨ alone) then s.value at_
      else if c = '\'' then s.quoted at_ (readSingle [] .empty)
      else if c = '"' then s.quoted at_ (readDouble [] .empty 0 0)
      else if startsPlain s.inFlow at_ rest then s.plain at_
      else none

def finish (s : Scanner) : Option (List Token) := do
  let s ← s.closeAll.removeKey
  return s.tokens.toList

/-- Takes tokens until the text ends. Every token takes at least one character, so the number of
characters is a sufficient number of rounds. -/
def run : Nat → Scanner → Option (List Token)
  | 0, _ => none
  | k + 1, s =>
    let (rest, keyAllowed) := skip s.inFlow false s.keyAllowed s.rest
    match rest with
    | [] => { s with rest := [], keyAllowed := keyAllowed }.finish
    | at_ :: tail => do
      let keys ← s.keys.mapM (dropStaleKey at_)
      let (indents, tokens) :=
        if s.inFlow then (s.indents, s.tokens) else closeBlocks at_.column s.indents s.tokens
      let s : Scanner := ⟨rest, indents, keys, keyAllowed, tokens⟩
      run k (← s.token at_ tail)

end Scanner

def Token.ofText? (text : String) : Option (List Token) := do
  let spots ← Spot.ofText? text
  Scanner.run (spots.length + 1) (.start spots)

end Typestate.Yaml
