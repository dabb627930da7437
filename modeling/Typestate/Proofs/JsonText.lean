import Mathlib.Tactic.SplitIfs
import Typestate.Json.Parser
import Typestate.Json.Printer

/-!
Reading what was written. A value is cut into tokens no matter how its text is laid out, and the
reader puts the tokens together again, as long as its containers are not nested too deeply.
-/

namespace Typestate.Json

namespace Quoted

theorem hex4?_digit (n : Nat) (hn : n < 32) :
    hex4? '0' '0' (digit (n / 16)) (digit (n % 16)) = some n := by
  have hall : ∀ n < 32, hex4? '0' '0' (digit (n / 16)) (digit (n % 16)) = some n := by decide
  exact hall n hn

theorem readUnits_plain {c : Char} (hquote : c ≠ '"') (hslash : c ≠ '\\') (hc : ¬ c < ' ')
    (done : List Nat) (rest : List Char) :
    readUnits done (c :: rest) = readUnits (c.toNat :: done) rest := by
  rw [readUnits.eq_def]
  split <;> simp_all [Char.not_lt.2]

/-- What is written for a character is read as its code point. -/
theorem readUnits_writeChar (done : List Nat) (c : Char) (rest : List Char) :
    readUnits done (writeChar c ++ rest) = readUnits (c.toNat :: done) rest := by
  unfold writeChar
  split_ifs with hquote hslash hb hf hn hr ht hc
  -- Short escapes are single cases; other control characters are written by their number.
  all_goals try (subst c; rfl)
  · have hlt : c.toNat < 32 := hc
    simp only [List.cons_append, List.nil_append, readUnits, hex4?_digit _ hlt]
  · exact readUnits_plain hquote hslash hc done rest

theorem readUnits_write (done : List Nat) (cs rest : List Char) :
    readUnits done (cs.flatMap writeChar ++ '"' :: rest) =
      some (done.reverse ++ cs.map Char.toNat, rest) := by
  induction cs generalizing done with
  | nil => simp [readUnits]
  | cons c cs ih => simp [readUnits_writeChar, ih]

/-- A character is no half of a surrogate pair. -/
theorem characters_toNat (done cs : List Char) :
    characters done (cs.map Char.toNat) = some (done.reverse ++ cs) := by
  induction cs generalizing done with
  | nil => simp [characters]
  | cons c cs ih =>
      have hvalid : c.toNat < 0xD800 ∨ 0xDFFF < c.toNat ∧ c.toNat < 0x110000 := c.valid
      have hhigh : isHigh c.toNat = false := by
        simp only [isHigh, decide_eq_false_iff_not]
        omega
      have hlow : isLow c.toNat = false := by
        simp only [isLow, decide_eq_false_iff_not]
        omega
      rw [List.map_cons, characters.eq_def]
      simp [hhigh, hlow, Char.ofNat_toNat, ih]

end Quoted

namespace Numeral

theorem value_eq (ds : List Char) : value ds = Nat.ofDigitChars 10 ds 0 := by
  rw [value, Nat.ofDigitChars_eq_foldl]

theorem isDigit_toDigits (n : Nat) : ∀ c ∈ Nat.toDigits 10 n, isDigit c := by
  intro c hc
  simpa [isDigit, Char.isDigit, Char.le_def] using
    Nat.isDigit_of_mem_toDigits (by decide) (by decide) hc

theorem head?_toDigits_ne (n : Nat) (hn : n ≠ 0) : (Nat.toDigits 10 n).head? ≠ some '0' := by
  induction n using Nat.strongRecOn with
  | ind n ih =>
      rw [Nat.toDigits_eq_if (by decide)]
      split
      · next hlt =>
          have hall : ∀ n < 10, n ≠ 0 → Nat.digitChar n ≠ '0' := by decide
          simpa using hall n hlt hn
      · next hle =>
          have hhead := ih (n / 10) (by omega) (by omega)
          obtain ⟨d, ds, hds⟩ := List.exists_cons_of_ne_nil (Nat.toDigits_ne_nil (n := n / 10))
          rw [hds] at hhead ⊢
          exact hhead

/-- Digits are read up to the first character that is none. -/
theorem readDigits_append {ds rest : List Char} (hne : ds ≠ []) (hds : ∀ c ∈ ds, isDigit c)
    (hrest : ∀ c ∈ rest.head?, isDigit c = false) : readDigits (ds ++ rest) = some (ds, rest) := by
  have hstop : rest.takeWhile isDigit = [] ∧ rest.dropWhile isDigit = rest := by
    cases rest with
    | nil => simp
    | cons c rest => simp [hrest c rfl]
  simp [readDigits, digits, List.takeWhile_append_of_pos hds, List.dropWhile_append_of_pos hds,
    hstop, hne]

end Numeral

namespace Token

/-- A text after which a value has ended: nothing, a blank or a mark comes first. -/
def Ends (rest : List Char) : Prop :=
  ∀ c ∈ rest.head?, isBlank c ∨ (mark? c).isSome

theorem Ends.ne_numeral {rest : List Char} (h : Ends rest) {c : Char} (hc : c ∈ rest.head?) :
    Numeral.isDigit c = false ∧ c ≠ '.' ∧ c ≠ 'e' ∧ c ≠ 'E' := by
  rcases h c hc with hblank | hmark
  · simp only [isBlank, decide_eq_true_eq] at hblank
    rcases hblank with rfl | rfl | rfl | rfl <;> decide
  · unfold mark? at hmark
    split at hmark
    all_goals first | decide | simp at hmark

end Token

/-- A natural number is read from its decimal digits. -/
theorem Numeral.read_toDigits (n : Nat) {rest : List Char} (hrest : Token.Ends rest) :
    Numeral.read (Nat.toDigits 10 n ++ rest) =
      some (⟨false, Nat.toDigits 10 n, [], none⟩, rest) := by
  have hdigits := isDigit_toDigits n
  have hsign : readSign ['-'] (Nat.toDigits 10 n ++ rest) = (false, Nat.toDigits 10 n ++ rest) := by
    obtain ⟨d, ds, hds⟩ := List.exists_cons_of_ne_nil (Nat.toDigits_ne_nil (n := n) (b := 10))
    have hd : d ≠ '-' := by
      rintro rfl
      exact absurd (hdigits '-' (by simp [hds])) (by decide)
    simp [hds, readSign, hd]
  have hzero : ¬ ((Nat.toDigits 10 n).head? = some '0' ∧ (Nat.toDigits 10 n).length ≠ 1) := by
    rintro ⟨hhead, hlen⟩
    by_cases hn : n = 0
    · exact hlen (by rw [hn]; rfl)
    · exact head?_toDigits_ne n hn hhead
  have hfraction : readFraction rest = some ([], rest) := by
    unfold readFraction
    split
    · next cs => exact absurd rfl (hrest.ne_numeral rfl).2.1
    · rfl
  have hexponent : readExponent rest = some (none, rest) := by
    cases rest with
    | nil => rfl
    | cons c cs => simp [readExponent, hrest.ne_numeral (c := c) rfl]
  have hwhole := readDigits_append Nat.toDigits_ne_nil hdigits
    fun c hc => (hrest.ne_numeral hc).1
  simp only [read, hsign, hwhole, hfraction, hexponent, hzero, if_false, bind, Option.bind, pure]

namespace Token

theorem split_blanks {bs : List Char} (hbs : ∀ c ∈ bs, isBlank c) (done : List Token)
    (rest : List Char) : split done (bs ++ rest) = split done rest := by
  induction bs with
  | nil => rfl
  | cons b bs ih =>
      rw [List.forall_mem_cons] at hbs
      rw [List.cons_append, split]
      simp [hbs.1, ih hbs.2]

theorem split_mark {c : Char} {t : Token} (h : mark? c = some t) (done : List Token)
    (rest : List Char) : split done (c :: rest) = split (t :: done) rest := by
  have hblank : isBlank c = false := by
    unfold mark? at h
    split at h
    all_goals first | decide | simp at h
  rw [split]
  simp [hblank, h]

theorem split_simple {c : Char} {cs rest : List Char} {t : Token} (hblank : isBlank c = false)
    (hmark : mark? c = none) (h : simple? (c :: cs) = some (t, rest)) (done : List Token) :
    split done (c :: cs) = split (t :: done) rest := by
  rw [split]
  simp only [hblank, hmark, Bool.false_eq_true, if_false]
  split
  · next t' rest' h' =>
      rw [h] at h'
      cases h'
      rfl
  · next h' => simp [h] at h'

theorem split_string (s : String) (done : List Token) (rest : List Char) :
    split done (Quoted.write s ++ rest) = split (.string (some s) :: done) rest := by
  refine split_simple (by decide) (by decide) ?_ done
  simp [simple?, string?, Quoted.readUnits_write, Quoted.characters_toNat]

/-- A digit starts a number and nothing else. -/
theorem simple?_digit {d : Char} (hd : Numeral.isDigit d) (cs : List Char) :
    simple? (d :: cs) =
      (Numeral.read (d :: cs)).map fun (n, rest) => (.leaf n.toJson, rest) := by
  have hstring : string? (d :: cs) = none := by
    unfold string?
    split
    · next h =>
        cases h
        exact absurd hd (by decide)
    · rfl
  have hword : word? (d :: cs) = none := by
    unfold word?
    split
    all_goals first
      | rfl
      | next h =>
          cases h
          exact absurd hd (by decide)
  simp [simple?, leaf?, hstring, hword, Function.comp_def]

theorem split_nat {n : Nat} (hn : n < natLimit) (done : List Token) {rest : List Char}
    (hrest : Ends rest) :
    split done ((toString n).toList ++ rest) = split (.leaf (.nat n) :: done) rest := by
  have hvalue : Numeral.value (Nat.toDigits 10 n) = n := by
    rw [Numeral.value_eq, Nat.ofDigitChars_toDigits (by decide) (by decide)]
  have hjson : Numeral.toJson ⟨false, Nat.toDigits 10 n, [], none⟩ = .nat n := by
    simp [Numeral.toJson, Numeral.isNatural, Numeral.mantissa, hvalue, hn]
  have hread := Numeral.read_toDigits n hrest
  have hdigits := Numeral.isDigit_toDigits n
  rw [Nat.toString_eq_ofList_toDigits, String.toList_ofList]
  obtain ⟨d, ds, hds⟩ := List.exists_cons_of_ne_nil (Nat.toDigits_ne_nil (n := n) (b := 10))
  have hd : Numeral.isDigit d := hdigits d (by simp [hds])
  have hother : ¬ (isBlank d ∨ (mark? d).isSome) := by
    intro h
    have hends : Ends [d] := fun c hc => by cases hc; exact h
    exact absurd hd (by simp [(hends.ne_numeral rfl).1])
  rw [not_or] at hother
  rw [hds, List.cons_append] at hread ⊢
  refine split_simple (by simpa using hother.1) (by simpa using hother.2) ?_ done
  rw [simple?_digit hd, hread]
  simp [← hds, hjson]

end Token

/-- A value that is read as it was written: its numbers are natural and not too large, and at most
`room` containers stand one within another. -/
inductive Fits : Nat → Json → Prop where
  | null {room : Nat} : Fits room .null
  | bool {room : Nat} (b : Bool) : Fits room (.bool b)
  | nat {room n : Nat} (h : n < natLimit) : Fits room (.nat n)
  | str {room : Nat} (s : String) : Fits room (.str s)
  | arr {room : Nat} {items : List Json} (h : ∀ v ∈ items, Fits room v) :
      Fits (room + 1) (.arr items)
  | obj {room : Nat} {fields : List (String × Json)} (h : ∀ f ∈ fields, Fits room f.2) :
      Fits (room + 1) (.obj fields)

mutual

/-- The tokens of a value. -/
def tokens : Json → List Token
  | str s => [.string (some s)]
  | arr [] => [.openArr, .closeArr]
  | arr (v :: rest) => .openArr :: (tokens v ++ itemTokens rest ++ [.closeArr])
  | obj [] => [.openObj, .closeObj]
  | obj ((name, v) :: rest) =>
    .openObj :: .string (some name) :: .colon :: (tokens v ++ fieldTokens rest ++ [.closeObj])
  | v => [.leaf v]

/-- The tokens of the items of an array after the first one. -/
def itemTokens : List Json → List Token
  | [] => []
  | v :: rest => .comma :: (tokens v ++ itemTokens rest)

/-- The tokens of the fields of an object after the first one. -/
def fieldTokens : List (String × Json) → List Token
  | [] => []
  | (name, v) :: rest =>
    .comma :: .string (some name) :: .colon :: (tokens v ++ fieldTokens rest)

end

/-- A layout that puts nothing but blanks between tokens. -/
structure Layout.Blank (L : Layout) : Prop where
  newline : ∀ depth, ∀ c ∈ L.newline depth, Token.isBlank c
  afterColon : ∀ c ∈ L.afterColon, Token.isBlank c

theorem Layout.blank_compact : Layout.compact.Blank where
  newline := by simp [Layout.compact]
  afterColon := by simp [Layout.compact]

theorem Layout.blank_pretty : Layout.pretty.Blank where
  newline := by
    intro depth c hc
    rcases List.mem_cons.1 hc with rfl | hc
    · decide
    · rw [List.eq_of_mem_replicate hc]
      decide
  afterColon := List.forall_mem_singleton.2 rfl

namespace Token

theorem ends_nil : Ends [] := by
  simp [Ends]

theorem ends_mark {c : Char} (hc : (mark? c).isSome) (rest : List Char) : Ends (c :: rest) := by
  intro d hd
  cases hd
  exact .inr hc

theorem Ends.append_blanks {bs rest : List Char} (hbs : ∀ c ∈ bs, isBlank c) (h : Ends rest) :
    Ends (bs ++ rest) := by
  cases bs with
  | nil => exact h
  | cons b bs =>
      intro d hd
      cases hd
      exact .inl (hbs b (by simp))

/-- A text is cut into the given tokens if the one after it shows where it ends. -/
def Cuts (cs : List Char) (ts : List Token) : Prop :=
  ∀ done rest, Ends rest → split done (cs ++ rest) = split (ts.reverse ++ done) rest

end Token

section

variable {L : Layout} (hL : L.Blank)

theorem ends_writeItems (depth : Nat) (items : List Json) {rest : List Char}
    (hrest : Token.Ends rest) : Token.Ends (writeItems L depth items ++ rest) := by
  cases items with
  | nil => exact hrest
  | cons v items => exact Token.ends_mark rfl _

theorem ends_writeFields (depth : Nat) (fields : List (String × Json)) {rest : List Char}
    (hrest : Token.Ends rest) : Token.Ends (writeFields L depth fields ++ rest) := by
  cases fields with
  | nil => exact hrest
  | cons f fields => exact Token.ends_mark rfl _

include hL

theorem cuts_writeItems {items : List Json} (depth : Nat)
    (h : ∀ v ∈ items, Token.Cuts (v.write L (depth + 1)) v.tokens) :
    Token.Cuts (writeItems L depth items) (itemTokens items) := by
  induction items with
  | nil => exact fun _ _ _ => rfl
  | cons v items ih =>
      intro done rest hrest
      rw [List.forall_mem_cons] at h
      simp only [writeItems, itemTokens, List.cons_append, List.append_assoc, List.reverse_cons,
        List.reverse_append, List.nil_append]
      rw [Token.split_mark rfl, Token.split_blanks (hL.newline _),
        h.1 _ _ (ends_writeItems depth items hrest), ih h.2 _ _ hrest]

theorem cuts_writeFields {fields : List (String × Json)} (depth : Nat)
    (h : ∀ f ∈ fields, Token.Cuts (f.2.write L (depth + 1)) f.2.tokens) :
    Token.Cuts (writeFields L depth fields) (fieldTokens fields) := by
  induction fields with
  | nil => exact fun _ _ _ => rfl
  | cons f fields ih =>
      intro done rest hrest
      obtain ⟨name, v⟩ := f
      rw [List.forall_mem_cons] at h
      simp only [writeFields, fieldTokens, List.cons_append, List.append_assoc, List.reverse_cons,
        List.reverse_append, List.nil_append]
      rw [Token.split_mark rfl, Token.split_blanks (hL.newline _), Token.split_string,
        Token.split_mark rfl, Token.split_blanks hL.afterColon,
        h.1 _ _ (ends_writeFields depth fields hrest), ih h.2 _ _ hrest]

/-- The text of a value is cut into its tokens, in every layout. -/
theorem Fits.cuts_write {room : Nat} {v : Json} (h : Fits room v) (depth : Nat) :
    Token.Cuts (v.write L depth) v.tokens := by
  -- Every value within the text is followed by a comma, a blank or a bracket, so it ends there.
  induction h generalizing depth with
  | null =>
      intro done rest _
      exact Token.split_simple (by decide) (by decide) rfl done
  | bool b =>
      intro done rest _
      cases b <;> exact Token.split_simple (by decide) (by decide) rfl done
  | nat hn =>
      intro done rest hrest
      exact Token.split_nat hn done hrest
  | str s =>
      intro done rest _
      exact Token.split_string s done rest
  | @arr room items _ ih =>
      intro done rest hrest
      cases items with
      | nil => exact (Token.split_mark rfl _ _).trans (Token.split_mark rfl _ _)
      | cons v items =>
          have hclose : Token.Ends (L.newline depth ++ ']' :: rest) :=
            (Token.ends_mark rfl rest).append_blanks (hL.newline depth)
          simp only [write, tokens, List.cons_append, List.append_assoc, List.reverse_cons,
            List.reverse_append, List.nil_append, List.reverse_nil]
          rw [Token.split_mark rfl, Token.split_blanks (hL.newline _),
            ih v (by simp) (depth + 1) _ _ (ends_writeItems depth items hclose),
            cuts_writeItems hL depth (fun w hw => ih w (by simp [hw]) (depth + 1)) _ _ hclose,
            Token.split_blanks (hL.newline _), Token.split_mark rfl]
  | @obj room fields _ ih =>
      intro done rest hrest
      cases fields with
      | nil => exact (Token.split_mark rfl _ _).trans (Token.split_mark rfl _ _)
      | cons f fields =>
          obtain ⟨name, v⟩ := f
          have hclose : Token.Ends (L.newline depth ++ '}' :: rest) :=
            (Token.ends_mark rfl rest).append_blanks (hL.newline depth)
          simp only [write, tokens, List.cons_append, List.append_assoc, List.reverse_cons,
            List.reverse_append, List.nil_append, List.reverse_nil]
          rw [Token.split_mark rfl, Token.split_blanks (hL.newline _), Token.split_string,
            Token.split_mark rfl, Token.split_blanks hL.afterColon,
            ih (name, v) (by simp) (depth + 1) _ _ (ends_writeFields depth fields hclose),
            cuts_writeFields hL depth (fun g hg => ih g (by simp [hg]) (depth + 1)) _ _ hclose,
            Token.split_blanks (hL.newline _), Token.split_mark rfl]

end

theorem ofFields_some (fields : List (String × Json)) :
    ofFields (fields.map fun f => (some f.1, f.2)) = .obj fields := by
  have hnames : (fields.map fun f => (some f.1, f.2)).mapM (fun (name, v) => name.map (·, v)) =
      some fields := by
    induction fields with
    | nil => rfl
    | cons f fields ih => simp [ih]
  rw [ofFields, hnames]

namespace Reader

/-- Tokens lead from one reader to another. -/
def Takes (r : Reader) (ts : List Token) (r' : Reader) : Prop :=
  ts.foldlM step r = some r'

theorem Takes.nil (r : Reader) : Takes r [] r :=
  rfl

theorem Takes.cons {r r' r'' : Reader} {t : Token} {ts : List Token} (h : step r t = some r')
    (h' : Takes r' ts r'') : Takes r (t :: ts) r'' := by
  rw [Takes, List.foldlM_cons, h]
  exact h'

theorem Takes.append {r r' r'' : Reader} {ts us : List Token} (h : Takes r ts r')
    (h' : Takes r' us r'') : Takes r (ts ++ us) r'' := by
  rw [Takes, List.foldlM_append, h]
  exact h'

theorem close_eq (context : List Frame) (h : context.length < depthLimit) (v : Json) :
    close context v = ⟨context, .separator v⟩ := by
  have hdrop : context.drop (depthLimit - 1) = [] := List.drop_eq_nil_of_le (by omega)
  simp [close, hdrop]

/-- The first item of an array is read as every other one. -/
theorem Takes.firstItem {room : Nat} {v : Json} (hv : Fits room v) {context : List Frame}
    {r : Reader} (h : Takes ⟨context, .value⟩ v.tokens r) :
    Takes ⟨context, .firstItem⟩ v.tokens r := by
  cases hv with
  | @arr _ items _ => cases items <;> exact h
  | @obj _ fields _ => cases fields <;> exact h
  | _ => exact h

theorem takes_itemTokens {items : List Json} {context : List Frame}
    (h : ∀ v ∈ items, ∀ before, Takes ⟨.items before :: context, .value⟩ v.tokens
      ⟨.items before :: context, .separator v⟩) (before : List Json) (v : Json) :
    Takes ⟨.items before :: context, .separator v⟩ (itemTokens items ++ [.closeArr])
      (close context (.arr ((v :: before).reverse ++ items))) := by
  induction items generalizing before v with
  | nil =>
      rw [List.append_nil]
      exact .cons rfl (.nil _)
  | cons w items ih =>
      rw [List.forall_mem_cons] at h
      have hrest := ih h.2 (v :: before) w
      rw [List.reverse_cons, List.append_assoc, List.singleton_append] at hrest
      rw [itemTokens, List.cons_append, List.append_assoc]
      exact .cons rfl (.append (h.1 (v :: before)) hrest)

theorem takes_fieldTokens {fields : List (String × Json)} {context : List Frame}
    (h : ∀ f ∈ fields, ∀ before name, Takes ⟨.fields before name :: context, .value⟩ f.2.tokens
      ⟨.fields before name :: context, .separator f.2⟩)
    (before : List (Name × Json)) (name : Name) (v : Json) :
    Takes ⟨.fields before name :: context, .separator v⟩ (fieldTokens fields ++ [.closeObj])
      (close context (ofFields (((name, v) :: before).reverse ++
        fields.map fun f => (some f.1, f.2)))) := by
  induction fields generalizing before name v with
  | nil =>
      rw [List.map_nil, List.append_nil]
      exact .cons rfl (.nil _)
  | cons f fields ih =>
      obtain ⟨name', w⟩ := f
      rw [List.forall_mem_cons] at h
      have hrest := ih h.2 ((name, v) :: before) (some name') w
      rw [List.reverse_cons, List.append_assoc, List.singleton_append] at hrest
      rw [fieldTokens, List.cons_append, List.cons_append, List.cons_append, List.append_assoc]
      exact .cons rfl (.cons rfl (.cons rfl (.append (h.1 _ _) hrest)))

/-- The reader takes the tokens of a value where it waits for one. -/
theorem takes_tokens {room : Nat} {v : Json} (h : Fits room v) (context : List Frame)
    (hroom : context.length + room ≤ depthLimit) :
    Takes ⟨context, .value⟩ v.tokens ⟨context, .separator v⟩ := by
  induction h generalizing context with
  | @arr room items h ih =>
      -- The container itself takes one level of the room, so it is not nested too deeply.
      have hinner (v) (hv : v ∈ items) (before) :
          Takes ⟨.items before :: context, .value⟩ v.tokens
            ⟨.items before :: context, .separator v⟩ := by
        refine ih v hv _ ?_
        rw [List.length_cons]
        omega
      rw [← close_eq context (by omega)]
      cases items with
      | nil => exact .cons rfl (.cons rfl (.nil _))
      | cons v items =>
          rw [List.forall_mem_cons] at h hinner
          rw [tokens, List.append_assoc]
          exact .cons rfl (.append (.firstItem h.1 (hinner.1 [])) (takes_itemTokens hinner.2 [] v))
  | @obj room fields h ih =>
      have hinner (f) (hf : f ∈ fields) (before) (name) :
          Takes ⟨.fields before name :: context, .value⟩ f.2.tokens
            ⟨.fields before name :: context, .separator f.2⟩ := by
        refine ih f hf _ ?_
        rw [List.length_cons]
        omega
      rw [← close_eq context (by omega)]
      cases fields with
      | nil => exact .cons rfl (.cons rfl (.nil _))
      | cons f fields =>
          obtain ⟨name, v⟩ := f
          rw [List.forall_mem_cons] at hinner
          -- The first name comes after the bracket, each other one after a comma.
          have hrest := takes_fieldTokens hinner.2 [] (some name) v
          have hfields := ofFields_some ((name, v) :: fields)
          rw [List.map_cons] at hfields
          rw [List.reverse_singleton, List.singleton_append, hfields] at hrest
          rw [tokens, List.append_assoc]
          exact .cons rfl (.cons rfl (.cons rfl (.append (hinner.1 _ _) hrest)))
  | _ => exact .cons rfl (.nil _)

end Reader

/-- A value is read from its text, in every layout and with blanks after it. -/
theorem ofText?_write {L : Layout} (hL : L.Blank) {room : Nat} {v : Json} (h : Fits room v)
    (hroom : room ≤ depthLimit) (bs : List Char) (hbs : ∀ c ∈ bs, Token.isBlank c) :
    ofText? (String.ofList (v.write L 0 ++ bs)) = some v := by
  have hends : Token.Ends bs := by
    simpa using Token.ends_nil.append_blanks hbs
  have hsplit : Token.split [] (v.write L 0 ++ bs) = some v.tokens := by
    rw [h.cuts_write hL 0 [] bs hends, ← List.append_nil bs, Token.split_blanks hbs, Token.split]
    simp
  have htakes := Reader.takes_tokens h [] (by simpa using hroom)
  rw [ofText?, String.toList_ofList, hsplit, Option.bind_some, ofTokens?]
  exact congrArg (Option.bind · Reader.result?) htakes

end Typestate.Json
