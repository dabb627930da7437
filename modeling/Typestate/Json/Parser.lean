import Typestate.Json.Token

/-!
Reading JSON. A reader goes through the tokens of a text and keeps the containers that are open.
`Json.ofText?` reads a text as far as it is well formed; `Json.parse?` also asks that all parts of
the value can be read.
-/

namespace Typestate.Json

/-- The name of a field, if it can be read. -/
abbrev Name := Option String

/-- The object with the given fields; if a name cannot be read the object cannot be read. -/
def ofFields (fields : List (Name × Json)) : Json :=
  match fields.mapM fun (name, v) => name.map (·, v) with
  | some named => .obj named
  | none => .unreadable

def ofString : Option String → Json
  | some s => .str s
  | none => .unreadable

/-- A container that is open, with what it holds so far, last first. -/
inductive Frame where
  | items (before : List Json)
  /-- An object in which the value of the field `name` comes next. -/
  | fields (before : List (Name × Json)) (name : Name)

/-- What a reader is waiting for, within the innermost open container. -/
inductive Expect where
  | value
  /-- The first item of an array or its end. -/
  | firstItem
  /-- The name of the first field of an object or its end. -/
  | firstName
  /-- The name of a field after those before it. -/
  | name (before : List (Name × Json))
  | colon (before : List (Name × Json)) (name : Name)
  /-- A comma or the end of a container, after a value. -/
  | separator (last : Json)

/-- The state of a reader: the open containers, innermost first, and what it is waiting for. -/
structure Reader where
  context : List Frame
  expect : Expect

namespace Reader

def start : Reader :=
  ⟨[], .value⟩

/-- Closes a container; one that is nested too deeply cannot be read. -/
def close (context : List Frame) (v : Json) : Reader :=
  ⟨context, .separator (if (context.drop (depthLimit - 1)).isEmpty then v else .unreadable)⟩

def startValue (context : List Frame) : Token → Option Reader
  | .leaf v => some ⟨context, .separator v⟩
  | .string s => some ⟨context, .separator (ofString s)⟩
  | .openArr => some ⟨.items [] :: context, .firstItem⟩
  | .openObj => some ⟨context, .firstName⟩
  | .closeArr | .closeObj | .comma | .colon => none

def afterValue (v : Json) (context : List Frame) (t : Token) : Option Reader :=
  match context, t with
  | .items before :: outer, .comma => some ⟨.items (v :: before) :: outer, .value⟩
  | .items before :: outer, .closeArr => some (close outer (.arr (v :: before).reverse))
  | .fields before name :: outer, .comma => some ⟨outer, .name ((name, v) :: before)⟩
  | .fields before name :: outer, .closeObj =>
    some (close outer (ofFields ((name, v) :: before).reverse))
  | _, _ => none

def step (r : Reader) (t : Token) : Option Reader :=
  match r.expect, t with
  | .value, t => startValue r.context t
  | .firstItem, .closeArr => some (close r.context.tail (.arr []))
  | .firstItem, t => startValue r.context t
  | .firstName, .closeObj => some (close r.context (.obj []))
  | .firstName, .string name => some ⟨r.context, .colon [] name⟩
  | .name before, .string name => some ⟨r.context, .colon before name⟩
  | .colon before name, .colon => some ⟨.fields before name :: r.context, .value⟩
  | .separator v, t => afterValue v r.context t
  | _, _ => none

/-- The value that has been read, when no container is open. -/
def result? (r : Reader) : Option Json :=
  match r.context, r.expect with
  | [], .separator v => some v
  | _, _ => none

end Reader

def ofTokens? (ts : List Token) : Option Json :=
  (ts.foldlM Reader.step Reader.start).bind Reader.result?

/-- The value of a well-formed text. -/
def ofText? (text : String) : Option Json :=
  (Token.split [] text.toList).bind ofTokens?

/-- The value of a text of which all parts can be read. -/
def parse? (text : String) : Option Json :=
  (ofText? text).filter isReadable

end Typestate.Json
