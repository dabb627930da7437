/-!
Self-typed values: what a value of a document is by itself, before it is known of which type it
should be. Unlike fields of records, keys of mappings can be values of any kind.
-/

namespace Typestate

/-- A value with the type that it shows by itself. -/
inductive Datum where
  | null
  | bool (b : Bool)
  /-- A natural number below `2 ^ 64`. -/
  | nat (n : Nat)
  /-- Any other number. -/
  | number
  | str (s : String)
  | list (items : List Datum)
  | mapping (entries : List (Datum × Datum))

end Typestate
