/-!
JSON values. Objects keep their fields as they were written, repeated ones included. A number is a
natural number below `2 ^ 64` or is kept as it was written.
-/

namespace Typestate

inductive Json where
  | null
  | bool (b : Bool)
  | nat (n : Nat)
  /-- A number that is written in another way than as a natural number, or is too large for one. -/
  | number (literal : String)
  | str (s : String)
  | arr (items : List Json)
  | obj (fields : List (String × Json))
  /-- A value that is well formed but cannot be read: a number beyond the range of doubles, a
  string with half a surrogate pair, an object with such a name or a value that is nested too
  deeply. It can be skipped. -/
  | unreadable

namespace Json

/-- The first natural number that is not kept as one. -/
def natLimit : Nat :=
  Nat.pow 2 64

def depthLimit : Nat :=
  127

mutual

/-- Whether all parts of a value can be read. -/
def isReadable : Json → Bool
  | arr items => itemsReadable items
  | obj fields => fieldsReadable fields
  | unreadable => false
  | null | bool _ | nat _ | number _ | str _ => true

def itemsReadable : List Json → Bool
  | [] => true
  | v :: rest => v.isReadable && itemsReadable rest

def fieldsReadable : List (String × Json) → Bool
  | [] => true
  | (_, v) :: rest => v.isReadable && fieldsReadable rest

end

/-- Puts a field in front unless a later one has its name. -/
def keepLast (name : String) (v : Json) (rest : List (String × Json)) : List (String × Json) :=
  if rest.any (·.1 = name) then rest else (name, v) :: rest

mutual

/-- Of repeated fields only the last one is kept, in all parts of a value. -/
def withoutRepeats : Json → Json
  | arr items => .arr (itemsWithoutRepeats items)
  | obj fields => .obj (fieldsWithoutRepeats fields)
  | v => v

def itemsWithoutRepeats : List Json → List Json
  | [] => []
  | v :: rest => v.withoutRepeats :: itemsWithoutRepeats rest

def fieldsWithoutRepeats : List (String × Json) → List (String × Json)
  | [] => []
  | (name, v) :: rest => keepLast name v.withoutRepeats (fieldsWithoutRepeats rest)

end

def field? (j : Json) (name : String) : Option Json :=
  match j with
  | obj fields => fields.lookup name
  | _ => none

end Json

end Typestate
