import Typestate.Yaml.Token

/-!
YAML documents. A document is a scalar, a sequence or a mapping; a part that is left out is an empty
plain scalar. Directives may stand before a document that is opened by a mark.
-/

namespace Typestate

/-- A YAML value. A plain scalar is one that is written without quotes. -/
inductive Yaml where
  | scalar (text : String) (plain : Bool)
  | sequence (items : List Yaml)
  | mapping (entries : List (Yaml × Yaml))
  /-- A sequence or mapping that is nested too deeply to be read. It can be skipped. -/
  | tooDeep

namespace Yaml

def depthLimit : Nat :=
  128

mutual

/-- Gives up the parts of a value that are nested more deeply than the given number of levels. -/
def cut (levels : Nat) : Yaml → Yaml
  | sequence items =>
    match levels with
    | 0 => tooDeep
    | levels + 1 => sequence (cutItems levels items)
  | mapping entries =>
    match levels with
    | 0 => tooDeep
    | levels + 1 => mapping (cutEntries levels entries)
  | scalar text plain => scalar text plain
  | tooDeep => tooDeep

def cutItems (levels : Nat) : List Yaml → List Yaml
  | [] => []
  | v :: rest => v.cut levels :: cutItems levels rest

def cutEntries (levels : Nat) : List (Yaml × Yaml) → List (Yaml × Yaml)
  | [] => []
  | (key, v) :: rest => (key.cut levels, v.cut levels) :: cutEntries levels rest

end

/-- A part that is left out. -/
def nothing : Yaml :=
  .scalar "" true

/-- What can follow where a value of a block is left out. -/
def endsBlockPart : List Token → Bool
  | [] => false
  | t :: _ => t = .key ∨ t = .value ∨ t = .blockEnd

def endsItem : List Token → Bool
  | [] => false
  | t :: _ => t = .item ∨ t = .blockEnd

def endsFlowPart (close : Token) : List Token → Bool
  | [] => false
  | t :: _ => t = .comma ∨ t = close

def endsFlowKey (close : Token) (ts : List Token) : Bool :=
  ts.head? = some .value || endsFlowPart close ts

mutual

/-- Reads a value. `inBlock` says whether it may be a block and `atKey` whether it may be a sequence
that is not indented further than the key before it. The first number bounds the recursion. -/
def node (k : Nat) (inBlock atKey : Bool) (ts : List Token) : Option (Yaml × List Token) :=
  match k with
  | 0 => none
  | k + 1 =>
    match ts with
    | .scalar text plain :: rest => some (.scalar text plain, rest)
    | .openSequence :: rest => flowItems k true [] rest
    | .openMapping :: rest => flowEntries k true [] rest
    | .blockSequence :: rest => if inBlock then blockItems k [] rest else none
    | .blockMapping :: rest => if inBlock then blockEntries k [] rest else none
    | .item :: rest => if atKey then bareItems k [] (.item :: rest) else none
    | _ => none

def blockItems (k : Nat) (done : List Yaml) (ts : List Token) : Option (Yaml × List Token) :=
  match k with
  | 0 => none
  | k + 1 =>
    match ts with
    | .blockEnd :: rest => some (.sequence done.reverse, rest)
    | .item :: rest =>
      if endsItem rest then blockItems k (nothing :: done) rest
      else
        match node k true false rest with
        | some (v, rest) => blockItems k (v :: done) rest
        | none => none
    | _ => none

/-- Reads the items of a sequence that is not indented further than the key before it. -/
def bareItems (k : Nat) (done : List Yaml) (ts : List Token) : Option (Yaml × List Token) :=
  match k with
  | 0 => none
  | k + 1 =>
    match ts with
    | .item :: rest =>
      if endsItem rest ∨ endsBlockPart rest then bareItems k (nothing :: done) rest
      else
        match node k true false rest with
        | some (v, rest) => bareItems k (v :: done) rest
        | none => none
    | rest => some (.sequence done.reverse, rest)

def blockEntries (k : Nat) (done : List (Yaml × Yaml)) (ts : List Token) :
    Option (Yaml × List Token) :=
  match k with
  | 0 => none
  | k + 1 =>
    match ts with
    | .blockEnd :: rest => some (.mapping done.reverse, rest)
    | .key :: rest =>
      match if endsBlockPart rest then some (nothing, rest) else node k true true rest with
      | none => none
      | some (name, .value :: rest) =>
        if endsBlockPart rest then blockEntries k ((name, nothing) :: done) rest
        else
          match node k true true rest with
          | some (v, rest) => blockEntries k ((name, v) :: done) rest
          | none => none
      | some (name, rest) => blockEntries k ((name, nothing) :: done) rest
    | _ => none

/-- Reads the items of a sequence between brackets; an item may be a mapping with one entry. -/
def flowItems (k : Nat) (first : Bool) (done : List Yaml) (ts : List Token) :
    Option (Yaml × List Token) :=
  match k with
  | 0 => none
  | k + 1 =>
    match ts with
    | .closeSequence :: rest => some (.sequence done.reverse, rest)
    | _ =>
      match first, ts with
      | false, .comma :: .closeSequence :: rest => some (.sequence done.reverse, rest)
      | false, .comma :: rest => flowItem k done rest
      | false, _ => none
      | true, _ => flowItem k done ts

def flowItem (k : Nat) (done : List Yaml) (ts : List Token) : Option (Yaml × List Token) :=
  match k with
  | 0 => none
  | k + 1 =>
    match ts with
    | .key :: rest =>
      match flowPair k rest with
      | some (name, v, rest) => flowItems k false (.mapping [(name, v)] :: done) rest
      | none => none
    | _ =>
      match node k false false ts with
      | some (v, rest) => flowItems k false (v :: done) rest
      | none => none

/-- Reads the single key of an item and its value. Where the key is left out, the token that shows it
is passed over. -/
def flowPair (k : Nat) (ts : List Token) : Option (Yaml × Yaml × List Token) :=
  match k with
  | 0 => none
  | k + 1 =>
    if endsFlowKey .closeSequence ts then flowValue k .closeSequence nothing ts.tail
    else
      match node k false false ts with
      | some (name, rest) => flowValue k .closeSequence name rest
      | none => none

def flowEntry (k : Nat) (ts : List Token) : Option (Yaml × Yaml × List Token) :=
  match k with
  | 0 => none
  | k + 1 =>
    if endsFlowKey .closeMapping ts then flowValue k .closeMapping nothing ts
    else
      match node k false false ts with
      | some (name, rest) => flowValue k .closeMapping name rest
      | none => none

def flowValue (k : Nat) (close : Token) (name : Yaml) (ts : List Token) :
    Option (Yaml × Yaml × List Token) :=
  match k with
  | 0 => none
  | k + 1 =>
    match ts with
    | .value :: rest =>
      if endsFlowPart close rest then some (name, nothing, rest)
      else
        match node k false false rest with
        | some (v, rest) => some (name, v, rest)
        | none => none
    | _ => some (name, nothing, ts)

def flowEntries (k : Nat) (first : Bool) (done : List (Yaml × Yaml)) (ts : List Token) :
    Option (Yaml × List Token) :=
  match k with
  | 0 => none
  | k + 1 =>
    match ts with
    | .closeMapping :: rest => some (.mapping done.reverse, rest)
    | _ =>
      match first, ts with
      | false, .comma :: .closeMapping :: rest => some (.mapping done.reverse, rest)
      | false, .comma :: rest => flowNamed k done rest
      | false, _ => none
      | true, _ => flowNamed k done ts

/-- Reads an entry of a mapping between brackets and those after it; without a colon it is a key
whose value is left out. -/
def flowNamed (k : Nat) (done : List (Yaml × Yaml)) (ts : List Token) :
    Option (Yaml × List Token) :=
  match k with
  | 0 => none
  | k + 1 =>
    match ts with
    | .key :: rest =>
      match flowEntry k rest with
      | some (name, v, rest) => flowEntries k false ((name, v) :: done) rest
      | none => none
    | _ =>
      match node k false false ts with
      | some (name, rest) => flowEntries k false ((name, nothing) :: done) rest
      | none => none

end

/-- Whether a document has no content: it ends, or another one starts. -/
def endsDocument : List Token → Bool
  | [] => true
  | t :: _ => t = .documentStart ∨ t = .documentEnd

/-- Takes the directives in front of a document, where `earlier` are those before them: the mark after
them opens the document. -/
def afterDirectives (earlier : List Directive) : List Token → Option (List Token)
  | .directive d :: rest => if d.follows earlier then afterDirectives (d :: earlier) rest else none
  | .documentStart :: rest => some rest
  | _ => none

/-- The document of a row of tokens. A text without any is the empty mapping, and a text with several
documents is refused. -/
def ofTokens? (ts : List Token) : Option Yaml := do
  let content ←
    match ts with
    | [] => return .mapping []
    | .documentStart :: _ | .directive _ :: _ => afterDirectives [] ts
    | .documentEnd :: _ => none
    | _ => pure ts
  let (v, rest) ←
    if endsDocument content then pure (nothing, content)
    else node (8 * (ts.length + 1)) true false content
  if rest.all (· = .documentEnd) then some v else none

/-- The document of a text, with the parts given up that are nested too deeply. -/
def parse? (text : String) : Option Yaml :=
  ((Token.ofText? text).bind ofTokens?).map (cut depthLimit)

end Yaml

end Typestate
