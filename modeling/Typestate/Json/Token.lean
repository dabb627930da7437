import Typestate.Json.Numeral
import Typestate.Json.Quoted

/-!
Tokens of JSON text: brackets, commas, colons and values that have no parts.
-/

namespace Typestate.Json

inductive Token where
  | openArr
  | closeArr
  | openObj
  | closeObj
  | comma
  | colon
  /-- A string, if its text can be read. -/
  | string (text : Option String)
  /-- A word or a number. -/
  | leaf (value : Json)

namespace Token

/-- The characters that may stand between tokens. -/
def isBlank (c : Char) : Bool :=
  c = ' ' ∨ c = '\t' ∨ c = '\n' ∨ c = '\r'

/-- The token that is a single character. -/
def mark? : Char → Option Token
  | '[' => some .openArr
  | ']' => some .closeArr
  | '{' => some .openObj
  | '}' => some .closeObj
  | ',' => some .comma
  | ':' => some .colon
  | _ => none

def word? : List Char → Option (Json × List Char)
  | 'n' :: 'u' :: 'l' :: 'l' :: rest => some (.null, rest)
  | 't' :: 'r' :: 'u' :: 'e' :: rest => some (.bool true, rest)
  | 'f' :: 'a' :: 'l' :: 's' :: 'e' :: rest => some (.bool false, rest)
  | _ => none

/-- Reads a string, of which the opening quote comes first. -/
def string? : List Char → Option (Option String × List Char)
  | '"' :: cs =>
    (Quoted.readUnits [] cs).map fun (us, rest) =>
      ((Quoted.characters [] us).map String.ofList, rest)
  | _ => none

def leaf? (cs : List Char) : Option (Json × List Char) :=
  word? cs <|> (Numeral.read cs).map fun (n, rest) => (n.toJson, rest)

def simple? (cs : List Char) : Option (Token × List Char) :=
  ((string? cs).map fun (s, rest) => (.string s, rest))
    <|> (leaf? cs).map fun (v, rest) => (.leaf v, rest)

theorem length_word? {cs rest : List Char} {v : Json} (h : word? cs = some (v, rest)) :
    rest.length < cs.length := by
  unfold word? at h
  split at h
  all_goals
    simp only [Option.some.injEq, Prod.mk.injEq, reduceCtorEq] at h
  all_goals
    rw [← h.2]
    simp only [List.length_cons]
    omega

theorem length_string? {cs rest : List Char} {s : Option String}
    (h : string? cs = some (s, rest)) : rest.length < cs.length := by
  unfold string? at h
  split at h
  · next cs =>
    obtain ⟨⟨us, r⟩, hr, he⟩ := Option.map_eq_some_iff.1 h
    have hlt := Quoted.length_readUnits hr
    simp only [Prod.mk.injEq] at he
    rw [← he.2]
    simp only [List.length_cons]
    omega
  · simp at h

theorem length_leaf? {cs rest : List Char} {v : Json} (h : leaf? cs = some (v, rest)) :
    rest.length < cs.length := by
  simp only [leaf?, Option.orElse_eq_orElse, Option.orElse_eq_or, Option.or_eq_some_iff] at h
  rcases h with h | ⟨-, h⟩
  · exact length_word? h
  · obtain ⟨⟨n, r⟩, hr, he⟩ := Option.map_eq_some_iff.1 h
    have hlt := Numeral.length_read hr
    simp only [Prod.mk.injEq] at he
    rw [← he.2]
    exact hlt

theorem length_simple? {cs rest : List Char} {t : Token} (h : simple? cs = some (t, rest)) :
    rest.length < cs.length := by
  simp only [simple?, Option.orElse_eq_orElse, Option.orElse_eq_or, Option.or_eq_some_iff] at h
  rcases h with h | ⟨-, h⟩
  · obtain ⟨⟨s, r⟩, hr, he⟩ := Option.map_eq_some_iff.1 h
    have hlt := length_string? hr
    simp only [Prod.mk.injEq] at he
    rw [← he.2]
    exact hlt
  · obtain ⟨⟨v, r⟩, hr, he⟩ := Option.map_eq_some_iff.1 h
    have hlt := length_leaf? hr
    simp only [Prod.mk.injEq] at he
    rw [← he.2]
    exact hlt

/-- Splits a text into tokens; in front of them stand those of `done` in reverse. -/
def split (done : List Token) (cs : List Char) : Option (List Token) :=
  match cs with
  | [] => some done.reverse
  | c :: rest =>
    if isBlank c then split done rest
    else
      match mark? c with
      | some t => split (t :: done) rest
      | none =>
        match h : simple? (c :: rest) with
        | some (t, rest') =>
          have := length_simple? h
          split (t :: done) rest'
        | none => none
termination_by cs.length
decreasing_by
  · exact Nat.lt_succ_self rest.length
  · exact Nat.lt_succ_self rest.length
  · assumption

end Token

end Typestate.Json
