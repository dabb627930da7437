import Typestate.Double
import Typestate.Json.Basic

/-!
Numbers as they are written: an optional minus sign, digits without a superfluous zero, an optional
fraction and an optional exponent. A number that is no natural number is read in a quick way: its
first digits, as many as make a number below `2 ^ 64`, times a power of ten, where both factors and
the product are rounded.
-/

namespace Typestate.Json

/-- A number as it is written; digits are kept as characters. -/
structure Numeral where
  negative : Bool
  whole : List Char
  fraction : List Char
  exponent : Option (Bool × List Char)
  deriving DecidableEq

namespace Numeral

def isDigit (c : Char) : Bool :=
  '0' ≤ c ∧ c ≤ '9'

def value (ds : List Char) : Nat :=
  ds.foldl (fun n c => 10 * n + (c.toNat - '0'.toNat)) 0

def digits (cs : List Char) : List Char × List Char :=
  (cs.takeWhile isDigit, cs.dropWhile isDigit)

/-- Reads a sign, which is a plus if none is written; `signs` are the signs that may be written. -/
def readSign (signs : List Char) : List Char → Bool × List Char
  | [] => (false, [])
  | c :: cs => if c ∈ signs then (c = '-', cs) else (false, c :: cs)

def readDigits (cs : List Char) : Option (List Char × List Char) :=
  let (ds, rest) := digits cs
  if ds.isEmpty then none else some (ds, rest)

def readFraction : List Char → Option (List Char × List Char)
  | '.' :: cs => readDigits cs
  | cs => some ([], cs)

def readExponent : List Char → Option (Option (Bool × List Char) × List Char)
  | [] => some (none, [])
  | c :: cs =>
    if c = 'e' ∨ c = 'E' then
      let (negative, cs) := readSign ['+', '-'] cs
      (readDigits cs).map fun (ds, rest) => (some (negative, ds), rest)
    else some (none, c :: cs)

def read (cs : List Char) : Option (Numeral × List Char) := do
  let (negative, cs) := readSign ['-'] cs
  let (whole, cs) ← readDigits cs
  if whole.head? = some '0' ∧ whole.length ≠ 1 then none
  let (fraction, cs) ← readFraction cs
  let (exponent, rest) ← readExponent cs
  return (⟨negative, whole, fraction, exponent⟩, rest)

/-- The digits of a number without its point. -/
def mantissa (n : Numeral) : Nat :=
  value (n.whole ++ n.fraction)

def power (n : Numeral) : Int :=
  match n.exponent with
  | none => 0
  | some (negative, ds) => if negative then -(value ds : Int) else value ds

/-- The power of ten by which the mantissa counts. -/
def scale (n : Numeral) : Int :=
  n.power - n.fraction.length

/-- Appends digits to a number as long as it stays below `2 ^ 64`: the number, and how many digits
are left over. -/
def appendDigits (m : Nat) : List Char → Nat × Nat
  | [] => (m, 0)
  | c :: rest =>
    let longer := 10 * m + (c.toNat - '0'.toNat)
    if longer < natLimit then appendDigits longer rest else (m, rest.length + 1)

/-- The first digits and the power of ten that the number is read as. Digits that are left over
count as zeros in front of the point, and not at all after it. -/
def leading (n : Numeral) : Nat × Int :=
  let (m, zeros) := appendDigits 0 n.whole
  let (m, unused) := appendDigits m n.fraction
  (m, n.power + zeros - (n.fraction.length - unused : Nat))

/-- Whether the number is read as one that is out of range. -/
def isHuge (n : Numeral) : Bool :=
  let (m, scale) := n.leading
  if m = 0 ∨ scale < 0 then false
  else if 308 < scale then true
  else Double.limit ≤ Double.round m * Double.round (Nat.pow 10 scale.toNat)

def isNatural (n : Numeral) : Bool :=
  !n.negative && n.fraction.isEmpty && n.exponent.isNone

def literal (n : Numeral) : List Char :=
  (if n.negative then ['-'] else []) ++ n.whole
    ++ (if n.fraction.isEmpty then [] else '.' :: n.fraction)
    ++ match n.exponent with
      | none => []
      | some (negative, ds) => (if negative then ['e', '-'] else ['e']) ++ ds

def toJson (n : Numeral) : Json :=
  if n.isNatural ∧ n.mantissa < natLimit then .nat n.mantissa
  else if n.isHuge then .unreadable
  else .number (String.ofList n.literal)

theorem length_readSign (signs cs : List Char) : (readSign signs cs).2.length ≤ cs.length := by
  cases cs with
  | nil => simp [readSign]
  | cons c cs =>
    simp only [readSign]
    split <;> simp

theorem length_readDigits {cs ds rest : List Char} (h : readDigits cs = some (ds, rest)) :
    rest.length < cs.length := by
  simp only [readDigits, digits] at h
  by_cases hne : (cs.takeWhile isDigit).isEmpty = true
  · simp [hne] at h
  · simp only [hne] at h
    cases h
    have hsplit : (cs.takeWhile isDigit).length + (cs.dropWhile isDigit).length = cs.length := by
      rw [← List.length_append, List.takeWhile_append_dropWhile]
    have hpos : 0 < (cs.takeWhile isDigit).length := by
      rw [List.length_pos_iff]
      simpa using hne
    omega

theorem length_readFraction {cs ds rest : List Char} (h : readFraction cs = some (ds, rest)) :
    rest.length ≤ cs.length := by
  unfold readFraction at h
  split at h
  · have := length_readDigits h
    simp only [List.length_cons]
    omega
  · simp only [Option.some.injEq, Prod.mk.injEq] at h
    simp [h.2]

theorem length_readExponent {cs rest : List Char} {e : Option (Bool × List Char)}
    (h : readExponent cs = some (e, rest)) : rest.length ≤ cs.length := by
  cases cs with
  | nil =>
    simp only [readExponent, Option.some.injEq, Prod.mk.injEq] at h
    simp [← h.2]
  | cons c cs =>
    simp only [readExponent] at h
    split at h
    · obtain ⟨⟨ds, r⟩, hr, he⟩ := Option.map_eq_some_iff.1 h
      simp only [Prod.mk.injEq] at he
      have h1 := length_readDigits hr
      have h2 := length_readSign ['+', '-'] cs
      rw [he.2] at h1
      simp only [List.length_cons]
      omega
    · simp only [Option.some.injEq, Prod.mk.injEq] at h
      simp [← h.2]

theorem length_read {cs rest : List Char} {n : Numeral} (h : read cs = some (n, rest)) :
    rest.length < cs.length := by
  simp only [read, Option.bind_eq_bind, Option.pure_def] at h
  obtain ⟨⟨whole, r1⟩, h1, h⟩ := Option.bind_eq_some_iff.1 h
  split at h
  · simp at h
  · obtain ⟨⟨fraction, r2⟩, h2, h⟩ := Option.bind_eq_some_iff.1 h
    obtain ⟨⟨exponent, r3⟩, h3, h⟩ := Option.bind_eq_some_iff.1 h
    simp only [Option.some.injEq, Prod.mk.injEq] at h
    have l0 := length_readSign ['-'] cs
    have l1 := length_readDigits h1
    have l2 := length_readFraction h2
    have l3 := length_readExponent h3
    rw [h.2] at l3
    simp only at l2 l3
    omega

end Numeral

end Typestate.Json
