/-!
Strings between quotes. `Quoted.write` escapes what may not stand in a string as it is.
`Quoted.readUnits` undoes this and all other escapes; what it finds are code units, and
`Quoted.characters` puts surrogate pairs together.
-/

namespace Typestate.Json.Quoted

def hexDigit? (c : Char) : Option Nat :=
  if '0' ≤ c ∧ c ≤ '9' then some (c.toNat - '0'.toNat)
  else if 'a' ≤ c ∧ c ≤ 'f' then some (c.toNat - 'a'.toNat + 10)
  else if 'A' ≤ c ∧ c ≤ 'F' then some (c.toNat - 'A'.toNat + 10)
  else none

def hex4? (a b c d : Char) : Option Nat := do
  return 4096 * (← hexDigit? a) + 256 * (← hexDigit? b) + 16 * (← hexDigit? c) + (← hexDigit? d)

/-- The first half of a surrogate pair. -/
def isHigh (u : Nat) : Bool :=
  0xD800 ≤ u ∧ u < 0xDC00

/-- The second half of a surrogate pair. -/
def isLow (u : Nat) : Bool :=
  0xDC00 ≤ u ∧ u < 0xE000

/-- The character that a surrogate pair stands for. -/
def pair (high low : Nat) : Char :=
  Char.ofNat (0x10000 + 1024 * (high - 0xD800) + (low - 0xDC00))

/-- The character that a backslash and the given one stand for. -/
def escape? : Char → Option Char
  | '"' => some '"'
  | '\\' => some '\\'
  | '/' => some '/'
  | 'b' => some '\x08'
  | 'f' => some '\x0c'
  | 'n' => some '\n'
  | 'r' => some '\r'
  | 't' => some '\t'
  | _ => none

/-- Reads on after the opening quote: the code units of the string, in front of them those of `done`
in reverse, and the text after the closing quote. -/
def readUnits (done : List Nat) : List Char → Option (List Nat × List Char)
  | [] => none
  | '"' :: rest => some (done.reverse, rest)
  | '\\' :: 'u' :: a :: b :: c :: d :: rest =>
    match hex4? a b c d with
    | none => none
    | some u => readUnits (u :: done) rest
  | '\\' :: e :: rest =>
    match escape? e with
    | none => none
    | some c => readUnits (c.toNat :: done) rest
  | c :: rest => if c < ' ' then none else readUnits (c.toNat :: done) rest

theorem length_readUnits {done us : List Nat} {cs rest : List Char}
    (h : readUnits done cs = some (us, rest)) : rest.length < cs.length := by
  fun_induction readUnits done cs with
  | case1 => simp at h
  | case2 done rest' =>
    simp only [Option.some.injEq, Prod.mk.injEq] at h
    simp [h.2]
  | case3 => simp at h
  | case4 done a b c d rest' u hu ih =>
    have := ih h
    simp only [List.length_cons]
    omega
  | case5 => simp at h
  | case6 done e rest' _ c hc ih =>
    have := ih h
    simp only [List.length_cons]
    omega
  | case7 => simp at h
  | case8 done c rest' _ _ _ hc ih =>
    have := ih h
    simp only [List.length_cons]
    omega

/-- The characters that code units stand for, in front of them those of `done` in reverse; none if
half a surrogate pair stands alone. -/
def characters (done : List Char) : List Nat → Option (List Char)
  | [] => some done.reverse
  | u :: us =>
    if isHigh u then
      match us with
      | w :: us => if isLow w then characters (pair u w :: done) us else none
      | [] => none
    else if isLow u then none
    else characters (Char.ofNat u :: done) us

def digit (n : Nat) : Char :=
  if n < 10 then Char.ofNat ('0'.toNat + n) else Char.ofNat ('a'.toNat + (n - 10))

def writeChar (c : Char) : List Char :=
  if c = '"' then ['\\', '"']
  else if c = '\\' then ['\\', '\\']
  else if c = '\x08' then ['\\', 'b']
  else if c = '\x0c' then ['\\', 'f']
  else if c = '\n' then ['\\', 'n']
  else if c = '\r' then ['\\', 'r']
  else if c = '\t' then ['\\', 't']
  else if c < ' ' then ['\\', 'u', '0', '0', digit (c.toNat / 16), digit (c.toNat % 16)]
  else [c]

def write (s : String) : List Char :=
  '"' :: (s.toList.flatMap writeChar ++ ['"'])

end Typestate.Json.Quoted
