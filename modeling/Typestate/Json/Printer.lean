import Typestate.Json.Quoted
import Typestate.Json.Basic

/-!
Writing JSON, in one line or with one item a line.
-/

namespace Typestate.Json

/-- The blanks of a way to write: what stands before an item or a closing bracket at a given depth,
and what stands after a colon. -/
structure Layout where
  newline : Nat → List Char
  afterColon : List Char

namespace Layout

def compact : Layout :=
  ⟨fun _ => [], []⟩

/-- Each item on a line of its own, two columns further in than its container. -/
def pretty : Layout :=
  ⟨fun depth => '\n' :: List.replicate (2 * depth) ' ', [' ']⟩

end Layout

mutual

def write (L : Layout) (depth : Nat) : Json → List Char
  | null => ['n', 'u', 'l', 'l']
  | bool true => ['t', 'r', 'u', 'e']
  | bool false => ['f', 'a', 'l', 's', 'e']
  | nat n => (toString n).toList
  | number literal => literal.toList
  | str s => Quoted.write s
  | arr [] => ['[', ']']
  | arr (v :: rest) =>
    '[' :: (L.newline (depth + 1) ++ write L (depth + 1) v ++ writeItems L depth rest
      ++ L.newline depth ++ [']'])
  | obj [] => ['{', '}']
  | obj ((name, v) :: rest) =>
    '{' :: (L.newline (depth + 1) ++ Quoted.write name ++ ':' :: L.afterColon
      ++ write L (depth + 1) v ++ writeFields L depth rest ++ L.newline depth ++ ['}'])
  | unreadable => ['n', 'u', 'l', 'l']

def writeItems (L : Layout) (depth : Nat) : List Json → List Char
  | [] => []
  | v :: rest => ',' :: (L.newline (depth + 1) ++ write L (depth + 1) v ++ writeItems L depth rest)

def writeFields (L : Layout) (depth : Nat) : List (String × Json) → List Char
  | [] => []
  | (name, v) :: rest =>
    ',' :: (L.newline (depth + 1) ++ Quoted.write name ++ ':' :: L.afterColon
      ++ write L (depth + 1) v ++ writeFields L depth rest)

end

def compact (v : Json) : String :=
  String.ofList (v.write .compact 0)

/-- A value with one item a line. -/
def pretty (v : Json) : String :=
  String.ofList (v.write .pretty 0)

end Typestate.Json
