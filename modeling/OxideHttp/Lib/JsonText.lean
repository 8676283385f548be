import Mathlib.Algebra.Order.Field.Rat
import Mathlib.Data.List.Basic
import Mathlib.Tactic.Common

/-!
# JSON texts

A reader for the grammar of JSON, on lists of characters: `parse` gives the value of a
text, or nothing where the text is no JSON.

This file gives

* `stringBody`, `number`, `value`, `parse`: the reader;
* `stringBody_cons`, `stringBody_escape`, `stringBody_hex`: what it makes of one character of
  a string;
* `unsigned_digits`, `unsigned_fixed`: what it makes of decimal numbers;
* `Reads`: a text that is read as a value wherever a member of an object may stand;
  `reads_str`, `reads_num`;
* `parse_object`: an object that is written out member by member is read back.
-/

namespace JsonText

inductive Value where
  | null
  | bool (b : Bool)
  | num (q : ℚ)
  | str (s : List Char)
  | arr (items : List Value)
  | obj (members : List (List Char × Value))

def isWs (c : Char) : Bool := c = ' ' || c = '\t' || c = '\n' || c = '\r'

def skipWs (text : List Char) : List Char := text.dropWhile isWs

/-! ## Strings -/

def hexVal (c : Char) : Option Nat :=
  if c.isDigit then some (c.toNat - '0'.toNat)
  else if 'a' ≤ c ∧ c ≤ 'f' then some (c.toNat - 'a'.toNat + 10)
  else if 'A' ≤ c ∧ c ≤ 'F' then some (c.toNat - 'A'.toNat + 10)
  else none

def hex4 (a b c d : Char) : Option Nat :=
  match hexVal a, hexVal b, hexVal c, hexVal d with
  | some a, some b, some c, some d => some (((a * 16 + b) * 16 + c) * 16 + d)
  | _, _, _, _ => none

def isHigh (n : Nat) : Bool := 0xD800 ≤ n && n < 0xDC00

def isLow (n : Nat) : Bool := 0xDC00 ≤ n && n < 0xE000

/-- The character of a surrogate pair. -/
def combine (high low : Nat) : Char :=
  Char.ofNat (0x10000 + (high - 0xD800) * 0x400 + (low - 0xDC00))

/-- What a backslash and this character stand for. -/
def escaped : Char → Option Char
  | '"' => some '"'
  | '\\' => some '\\'
  | '/' => some '/'
  | 'b' => some '\x08'
  | 'f' => some '\x0c'
  | 'n' => some '\n'
  | 'r' => some '\r'
  | 't' => some '\t'
  | _ => none

def push (c : Char) (r : List Char × List Char) : List Char × List Char := (c :: r.1, r.2)

/-- A string after its opening quote, and what follows the closing one.  The first argument
is a high surrogate that waits for its partner. -/
def stringBody : Option Nat → List Char → Option (List Char × List Char)
  | _, [] => none
  | high, '\\' :: 'u' :: a :: b :: c :: d :: rest =>
      (hex4 a b c d).bind fun n =>
        match high with
        | some h => if isLow n then (stringBody none rest).map (push (combine h n)) else none
        | none =>
            if isHigh n then stringBody (some n) rest
            else if isLow n then none
            else (stringBody none rest).map (push (Char.ofNat n))
  | none, '"' :: rest => some ([], rest)
  | none, '\\' :: e :: rest => (escaped e).bind fun c => (stringBody none rest).map (push c)
  | none, c :: rest =>
      if c.toNat < 0x20 ∨ c = '\\' then none else (stringBody none rest).map (push c)
  | some _, _ :: _ => none

/-! ## Numbers -/

def fraction : List Char → Option (List Char × List Char)
  | '.' :: rest =>
      if rest.takeWhile Char.isDigit = [] then none
      else some (rest.takeWhile Char.isDigit, rest.dropWhile Char.isDigit)
  | rest => some ([], rest)

/-- The digits of an exponent. -/
def exponentDigits (sign : Int) (rest : List Char) : Option (Int × List Char) :=
  if rest.takeWhile Char.isDigit = [] then none
  else some (sign * Nat.ofDigitChars 10 (rest.takeWhile Char.isDigit) 0,
    rest.dropWhile Char.isDigit)

def exponent : List Char → Option (Int × List Char)
  | c :: rest =>
      if c = 'e' ∨ c = 'E' then
        match rest with
        | '-' :: rest => exponentDigits (-1) rest
        | '+' :: rest => exponentDigits 1 rest
        | rest => exponentDigits 1 rest
      else some (0, c :: rest)
  | [] => some (0, [])

/-- A number without its sign. -/
def unsigned (text : List Char) : Option (ℚ × List Char) :=
  let int := text.takeWhile Char.isDigit
  if int = [] ∨ (int.head? = some '0' ∧ int ≠ ['0']) then none
  else (fraction (text.dropWhile Char.isDigit)).bind fun f => (exponent f.2).map fun e =>
    ((Nat.ofDigitChars 10 (int ++ f.1) 0 : ℚ) / 10 ^ f.1.length * 10 ^ e.1, e.2)

def number : List Char → Option (ℚ × List Char)
  | '-' :: rest => (unsigned rest).map fun r => (-r.1, r.2)
  | text => unsigned text

/-! ## Values -/

/-- The rest of a keyword. -/
def keyword (word : List Char) (v : Value) (text : List Char) : Option (Value × List Char) :=
  if word.isPrefixOf text then some (v, text.drop word.length) else none

mutual

/-- A value, and what follows it; the number bounds the depth of the recursion. -/
def value : Nat → List Char → Option (Value × List Char)
  | 0, _ => none
  | fuel + 1, text =>
      match skipWs text with
      | '\x7b' :: rest =>
          match skipWs rest with
          | '\x7d' :: rest => some (.obj [], rest)
          | rest => (members fuel rest).map fun r => (.obj r.1, r.2)
      | '[' :: rest =>
          match skipWs rest with
          | ']' :: rest => some (.arr [], rest)
          | rest => (items fuel rest).map fun r => (.arr r.1, r.2)
      | '"' :: rest => (stringBody none rest).map fun r => (.str r.1, r.2)
      | 't' :: rest => keyword "rue".toList (.bool true) rest
      | 'f' :: rest => keyword "alse".toList (.bool false) rest
      | 'n' :: rest => keyword "ull".toList .null rest
      | rest => (number rest).map fun r => (.num r.1, r.2)

/-- The members of an object, up to its closing brace. -/
def members : Nat → List Char → Option (List (List Char × Value) × List Char)
  | 0, _ => none
  | fuel + 1, text =>
      match skipWs text with
      | '"' :: rest =>
          (stringBody none rest).bind fun name =>
            match skipWs name.2 with
            | ':' :: rest =>
                (value fuel rest).bind fun v =>
                  match skipWs v.2 with
                  | ',' :: rest =>
                      (members fuel rest).map fun r => ((name.1, v.1) :: r.1, r.2)
                  | '\x7d' :: rest => some ([(name.1, v.1)], rest)
                  | _ => none
            | _ => none
      | _ => none

/-- The items of an array, up to its closing bracket. -/
def items : Nat → List Char → Option (List Value × List Char)
  | 0, _ => none
  | fuel + 1, text =>
      (value fuel text).bind fun v =>
        match skipWs v.2 with
        | ',' :: rest => (items fuel rest).map fun r => (v.1 :: r.1, r.2)
        | ']' :: rest => some ([v.1], rest)
        | _ => none

end

/-- The value of a JSON text. -/
def parse (text : List Char) : Option Value :=
  (value (text.length + 1) text).bind fun r => if skipWs r.2 = [] then some r.1 else none

/-! ## Text without escapes -/

/-- A character that stands for itself in a string. -/
def Plain (c : Char) : Prop := 0x20 ≤ c.toNat ∧ c ≠ '"' ∧ c ≠ '\\'

instance (c : Char) : Decidable (Plain c) :=
  inferInstanceAs (Decidable (0x20 ≤ c.toNat ∧ c ≠ '"' ∧ c ≠ '\\'))

theorem stringBody_cons {c : Char} (h : Plain c) (rest : List Char) :
    stringBody none (c :: rest) = (stringBody none rest).map (push c) := by
  obtain ⟨hlow, hquote, hslash⟩ := h
  rw [stringBody.eq_def]
  split <;> simp_all

theorem stringBody_escape {e c : Char} (h : escaped e = some c) (rest : List Char) :
    stringBody none ('\\' :: e :: rest) = (stringBody none rest).map (push c) := by
  have hu : e ≠ 'u' := by
    rintro rfl
    cases h
  rw [stringBody, h]
  · rfl
  · rintro a b c d rest rfl
    exact fun _ => absurd rfl hu

theorem stringBody_hex {a b c d : Char} {n : Nat} (h : hex4 a b c d = some n)
    (hhigh : isHigh n = false) (hlow : isLow n = false) (rest : List Char) :
    stringBody none ('\\' :: 'u' :: a :: b :: c :: d :: rest) =
      (stringBody none rest).map (push (Char.ofNat n)) := by
  rw [stringBody, h]
  simp [hhigh, hlow]

theorem stringBody_plain {s : List Char} (h : ∀ c ∈ s, Plain c) (rest : List Char) :
    stringBody none (s ++ '"' :: rest) = some (s, rest) := by
  induction s with
  | nil => rfl
  | cons c s ih =>
      rw [List.cons_append, stringBody_cons (h c (List.mem_cons_self ..)),
        ih fun d hd => h d (List.mem_cons_of_mem _ hd)]
      rfl

/-! ## Decimal numbers -/

/-- A value ends before a comma or a closing brace. -/
def Delimited (rest : List Char) : Prop := ∃ t, rest = ',' :: t ∨ rest = '\x7d' :: t

/-- The digits of a number before its point. -/
structure IntDigits (int : List Char) : Prop where
  digits : ∀ c ∈ int, c.isDigit = true
  ne_nil : int ≠ []
  lead : int.head? = some '0' → int = ['0']

theorem takeWhile_digits {ds rest : List Char} (h : ∀ c ∈ ds, c.isDigit = true)
    (hrest : ∀ c ∈ rest.head?, c.isDigit = false) :
    (ds ++ rest).takeWhile Char.isDigit = ds ∧ (ds ++ rest).dropWhile Char.isDigit = rest := by
  rw [List.takeWhile_append_of_pos h, List.dropWhile_append_of_pos h]
  cases rest with
  | nil => simp
  | cons c rest => simp [hrest c rfl]

theorem Delimited.head {rest : List Char} (h : Delimited rest) :
    ∀ c ∈ rest.head?, c.isDigit = false := by
  obtain ⟨t, rfl | rfl⟩ := h <;> simp [Char.isDigit]

theorem Delimited.exponent {rest : List Char} (h : Delimited rest) :
    exponent rest = some (0, rest) := by
  obtain ⟨t, rfl | rfl⟩ := h <;> simp [JsonText.exponent]

theorem Delimited.fraction {rest : List Char} (h : Delimited rest) :
    fraction rest = some ([], rest) := by
  obtain ⟨t, rfl | rfl⟩ := h <;> rfl

theorem unsigned_digits {int rest : List Char} (hint : IntDigits int) (hrest : Delimited rest) :
    unsigned (int ++ rest) = some ((Nat.ofDigitChars 10 int 0 : ℚ), rest) := by
  obtain ⟨htake, hdrop⟩ := takeWhile_digits hint.digits hrest.head
  have hlead : ¬ (int.head? = some '0' ∧ int ≠ ['0']) := fun h => h.2 (hint.lead h.1)
  simp [unsigned, htake, hdrop, hint.ne_nil, hlead, hrest.fraction, hrest.exponent]

theorem unsigned_fixed {int frac rest : List Char} (hint : IntDigits int)
    (hfrac : ∀ c ∈ frac, c.isDigit = true) (hne : frac ≠ []) (hrest : Delimited rest) :
    unsigned (int ++ '.' :: (frac ++ rest)) =
      some ((Nat.ofDigitChars 10 (int ++ frac) 0 : ℚ) / 10 ^ frac.length, rest) := by
  have hpoint : ∀ c ∈ ('.' :: (frac ++ rest)).head?, c.isDigit = false := by simp [Char.isDigit]
  obtain ⟨htake, hdrop⟩ := takeWhile_digits hint.digits hpoint
  obtain ⟨hftake, hfdrop⟩ := takeWhile_digits hfrac hrest.head
  have hlead : ¬ (int.head? = some '0' ∧ int ≠ ['0']) := fun h => h.2 (hint.lead h.1)
  simp [unsigned, htake, hdrop, hint.ne_nil, hlead, fraction, hftake, hfdrop, hne,
    hrest.exponent]

/-! ## Members -/

/-- The text is read as this value where a member of an object ends. -/
def Reads (text : List Char) (v : Value) : Prop :=
  ∀ fuel rest, Delimited rest → value (fuel + 1) (text ++ rest) = some (v, rest)

theorem reads_str {body s : List Char}
    (h : ∀ rest, stringBody none (body ++ '"' :: rest) = some (s, rest)) :
    Reads ('"' :: (body ++ ['"'])) (.str s) := by
  intro fuel rest _
  simp [value, skipWs, isWs, h]

theorem value_digit {d : Char} (h : d.isDigit = true) (fuel : Nat) (t : List Char) :
    value (fuel + 1) (d :: t) = (unsigned (d :: t)).map fun r => (.num r.1, r.2) := by
  have hne : ∀ c : Char, c.isDigit = false → d ≠ c := by
    rintro c hc rfl
    rw [h] at hc
    cases hc
  have hws : skipWs (d :: t) = d :: t := by
    simp [skipWs, isWs, hne ' ' rfl, hne '\t' rfl, hne '\n' rfl, hne '\r' rfl]
  have hnumber : number (d :: t) = unsigned (d :: t) := by
    rw [number.eq_def]
    split
    case h_1 heq => exact absurd (List.cons.inj heq).1 (hne '-' rfl)
    case h_2 => rfl
  rw [value, hws]
  split
  case h_1 heq => exact absurd (List.cons.inj heq).1 (hne '\x7b' rfl)
  case h_2 heq => exact absurd (List.cons.inj heq).1 (hne '[' rfl)
  case h_3 heq => exact absurd (List.cons.inj heq).1 (hne '"' rfl)
  case h_4 heq => exact absurd (List.cons.inj heq).1 (hne 't' rfl)
  case h_5 heq => exact absurd (List.cons.inj heq).1 (hne 'f' rfl)
  case h_6 heq => exact absurd (List.cons.inj heq).1 (hne 'n' rfl)
  case h_7 => rw [hnumber]

theorem reads_num {text : List Char} {q : ℚ} (hhead : ∃ d t, text = d :: t ∧ d.isDigit = true)
    (h : ∀ rest, Delimited rest → unsigned (text ++ rest) = some (q, rest)) :
    Reads text (.num q) := by
  intro fuel rest hrest
  obtain ⟨d, t, rfl, hd⟩ := hhead
  rw [List.cons_append, value_digit hd, ← List.cons_append, h rest hrest]
  rfl

/-- A member as it is written. -/
def memberText (name text : List Char) : List Char := '"' :: (name ++ '"' :: ':' :: text)

/-- An object as it is written, without its opening brace. -/
def membersText : List (List Char × List Char) → List Char
  | [] => ['\x7d']
  | [m] => memberText m.1 m.2 ++ ['\x7d']
  | m :: ms => memberText m.1 m.2 ++ ',' :: membersText ms

theorem membersText_cons (m m' : List Char × List Char) (ms : List (List Char × List Char)) :
    membersText (m :: m' :: ms) = memberText m.1 m.2 ++ ',' :: membersText (m' :: ms) := rfl

/-- A member that is read back. -/
structure ReadsMember (m : List Char × List Char) (v : List Char × Value) : Prop where
  name : m.1 = v.1
  plain : ∀ c ∈ m.1, Plain c
  reads : Reads m.2 v.2

theorem members_cons {m : List Char × List Char} {v : List Char × Value}
    (h : ReadsMember m v) (fuel : Nat) {rest : List Char} (hrest : Delimited rest) :
    members (fuel + 2) (memberText m.1 m.2 ++ rest) =
      match skipWs rest with
      | ',' :: rest => (members (fuel + 1) rest).map fun r => (v :: r.1, r.2)
      | '\x7d' :: rest => some ([v], rest)
      | _ => none := by
  obtain ⟨name, text⟩ := m
  obtain ⟨name', v⟩ := v
  obtain rfl : name = name' := h.name
  have hname : ∀ t, skipWs ('"' :: t) = '"' :: t := fun t => by simp [skipWs, isWs]
  have hcolon : ∀ t, skipWs (':' :: t) = ':' :: t := fun t => by simp [skipWs, isWs]
  rw [memberText, List.cons_append, members, hname]
  simp only [List.append_assoc, List.cons_append, stringBody_plain h.plain, Option.bind_some,
    hcolon, h.reads fuel rest hrest]

theorem members_read {ms : List (List Char × List Char)} {vs : List (List Char × Value)}
    (h : List.Forall₂ ReadsMember ms vs) (hne : ms ≠ []) {fuel : Nat}
    (hfuel : ms.length < fuel) (rest : List Char) :
    members fuel (membersText ms ++ rest) = some (vs, rest) := by
  induction h generalizing fuel with
  | nil => exact absurd rfl hne
  | @cons m v ms vs hm hms ih =>
      obtain ⟨fuel, rfl⟩ : ∃ n, fuel = n + 2 := ⟨fuel - 2, by simp at hfuel; omega⟩
      cases hms with
      | nil =>
          rw [membersText, List.append_assoc, List.singleton_append,
            members_cons hm fuel ⟨rest, Or.inr rfl⟩]
          simp [skipWs, isWs]
      | cons hm' hms' =>
          rw [membersText_cons, List.append_assoc, List.cons_append,
            members_cons hm fuel ⟨_, Or.inl rfl⟩]
          have hfuel' : (_ :: _ : List (List Char × List Char)).length < fuel + 1 :=
            Nat.lt_of_succ_lt_succ hfuel
          simp [skipWs, isWs, ih (List.cons_ne_nil _ _) hfuel']

theorem length_membersText (ms : List (List Char × List Char)) :
    ms.length < (membersText ms).length := by
  induction ms with
  | nil => simp [membersText]
  | cons m ms ih =>
      cases ms with
      | nil => simp [membersText, memberText]
      | cons m' ms' =>
          rw [membersText_cons]
          simp only [List.length_cons, List.length_append] at ih ⊢
          omega

/-- An object that is written out is read back. -/
theorem parse_object {ms : List (List Char × List Char)} {vs : List (List Char × Value)}
    (h : List.Forall₂ ReadsMember ms vs) (hne : ms ≠ []) :
    parse ('\x7b' :: membersText ms) = some (.obj vs) := by
  have hfuel : ms.length < (membersText ms).length + 1 :=
    Nat.lt_succ_of_lt (length_membersText ms)
  have hread := members_read h hne hfuel []
  rw [List.append_nil] at hread
  have hquote : ∃ t, membersText ms = '"' :: t := by
    cases ms with
    | nil => exact absurd rfl hne
    | cons m ms => cases ms <;> exact ⟨_, rfl⟩
  obtain ⟨t, ht⟩ := hquote
  have hvalue : value (('\x7b' :: membersText ms).length + 1) ('\x7b' :: membersText ms) =
      some (.obj vs, []) := by
    rw [value, ht]
    rw [ht] at hread
    simp [skipWs, isWs]
    simpa using hread
  rw [parse, hvalue]
  rfl

end JsonText
