import Mathlib.Algebra.Order.Ring.Nat
import Mathlib.Data.List.Basic
import Mathlib.Tactic.Common

/-!
# Percent coding over UTF-8

A character that is not kept is written as the octets of its UTF-8 form, each one as `%` and
two hexadecimal digits.  Reading back refuses an escape that is cut short, has other digits,
or does not belong to the UTF-8 form of a character.

This file gives

* `encode`, `decode`, and `decode_encode`: what was written is read back;
* `forall_mem_encode`: the characters that can be written.
-/

namespace PercentCoding

/-! ## Octets -/

def hexDigit (n : Nat) : Char := Char.ofNat (if n < 10 then 48 + n else 55 + n)

def hexValue (c : Char) : Option Nat :=
  if '0' ≤ c ∧ c ≤ '9' then some (c.toNat - 48)
  else if 'A' ≤ c ∧ c ≤ 'F' then some (c.toNat - 55)
  else if 'a' ≤ c ∧ c ≤ 'f' then some (c.toNat - 87)
  else none

theorem hexValue_hexDigit {n : Nat} (h : n < 16) : hexValue (hexDigit n) = some n := by
  have hall : ∀ n : Fin 16, hexValue (hexDigit n) = some n.val := by decide
  exact hall ⟨n, h⟩

def encodeOctet (b : UInt8) : List Char :=
  ['%', hexDigit (b.toNat / 16), hexDigit (b.toNat % 16)]

/-- The escape at the front. -/
def octet : List Char → Option (UInt8 × List Char)
  | '%' :: high :: low :: s =>
      (hexValue high).bind fun high => (hexValue low).map fun low =>
        (UInt8.ofNat (16 * high + low), s)
  | _ => none

/-- So many escapes at the front. -/
def octets : Nat → List Char → Option (List UInt8 × List Char)
  | 0, s => some ([], s)
  | n + 1, s =>
      (octet s).bind fun first => (octets n first.2).map fun more =>
        (first.1 :: more.1, more.2)

theorem octet_encodeOctet (b : UInt8) (s : List Char) :
    octet (encodeOctet b ++ s) = some (b, s) := by
  have hb := b.toNat_lt
  have hhigh : b.toNat / 16 < 16 := Nat.div_lt_of_lt_mul hb
  have hvalue : 16 * (b.toNat / 16) + b.toNat % 16 = b.toNat := Nat.div_add_mod b.toNat 16
  simp only [encodeOctet, List.cons_append, List.nil_append, octet,
    hexValue_hexDigit hhigh, hexValue_hexDigit (Nat.mod_lt _ (by decide)),
    Option.bind_some, Option.map_some, hvalue, UInt8.ofNat_toNat]

theorem octets_encodeOctet (bs : List UInt8) (s : List Char) :
    octets bs.length (bs.flatMap encodeOctet ++ s) = some (bs, s) := by
  induction bs with
  | nil => rfl
  | cons b bs ih =>
      rw [List.flatMap_cons, List.append_assoc, List.length_cons, octets, octet_encodeOctet,
        Option.bind_some, ih]
      rfl

theorem octet_length {s rest : List Char} {b : UInt8} (h : octet s = some (b, rest)) :
    rest.length < s.length := by
  unfold octet at h
  split at h
  case h_1 high low tail =>
    obtain ⟨_, -, h⟩ := Option.bind_eq_some_iff.1 h
    obtain ⟨_, -, h⟩ := Option.map_eq_some_iff.1 h
    obtain ⟨-, rfl⟩ := Prod.mk.inj h
    simp only [List.length_cons]
    omega
  case h_2 => cases h

theorem octets_length {n : Nat} {s rest : List Char} {bs : List UInt8}
    (h : octets n s = some (bs, rest)) : rest.length ≤ s.length := by
  induction n generalizing s bs with
  | zero =>
      obtain ⟨-, rfl⟩ := Prod.mk.inj (Option.some.inj h)
      exact le_rfl
  | succ n ih =>
      obtain ⟨⟨b, tail⟩, hfirst, h⟩ := Option.bind_eq_some_iff.1 h
      obtain ⟨⟨bs, rest⟩, hmore, h⟩ := Option.map_eq_some_iff.1 h
      obtain ⟨-, rfl⟩ := Prod.mk.inj h
      exact (ih hmore).trans (octet_length hfirst).le

/-! ## Characters -/

/-- The leading one bits of an octet; 5 stands for more than four. -/
def leadingOnes (b : UInt8) : Nat :=
  if b < 0x80 then 0
  else if b < 0xC0 then 1
  else if b < 0xE0 then 2
  else if b < 0xF0 then 3
  else if b < 0xF8 then 4
  else 5

/-- The character whose first escape has been read. -/
def escaped (b : UInt8) (s : List Char) : Option (Char × List Char) :=
  match leadingOnes b with
  | 0 => some (Char.ofNat b.toNat, s)
  | 1 => none
  | n + 2 =>
      if 4 < n + 2 then none
      else (octets (n + 1) s).bind fun more =>
        ((b :: more.1).toByteArray.utf8DecodeChar? 0).map fun c => (c, more.2)

/-- The character at the front. -/
def readChar : List Char → Option (Char × List Char)
  | [] => none
  | c :: s =>
      if c ≠ '%' then some (c, s)
      else (octet (c :: s)).bind fun first => escaped first.1 first.2

theorem escaped_length {b : UInt8} {s rest : List Char} {c : Char}
    (h : escaped b s = some (c, rest)) : rest.length ≤ s.length := by
  unfold escaped at h
  split at h
  case h_1 =>
    obtain ⟨-, rfl⟩ := Prod.mk.inj (Option.some.inj h)
    exact le_rfl
  case h_2 => cases h
  case h_3 =>
    obtain ⟨-, h⟩ := Option.ite_none_left_eq_some.1 h
    obtain ⟨⟨bs, rest⟩, hmore, h⟩ := Option.bind_eq_some_iff.1 h
    obtain ⟨_, -, h⟩ := Option.map_eq_some_iff.1 h
    obtain ⟨-, rfl⟩ := Prod.mk.inj h
    exact octets_length hmore

theorem readChar_length {s rest : List Char} {c : Char} (h : readChar s = some (c, rest)) :
    rest.length < s.length := by
  cases s with
  | nil => cases h
  | cons d s =>
      rw [readChar] at h
      split at h
      case isTrue =>
        obtain ⟨-, rfl⟩ := Prod.mk.inj (Option.some.inj h)
        exact Nat.lt_succ_self _
      case isFalse =>
        obtain ⟨⟨b, tail⟩, hfirst, h⟩ := Option.bind_eq_some_iff.1 h
        exact lt_of_le_of_lt (escaped_length h) (octet_length hfirst)

def decode (s : List Char) : Option (List Char) :=
  match s with
  | [] => some []
  | c :: s =>
      match _h : readChar (c :: s) with
      | none => none
      | some (d, rest) => (decode rest).map (d :: ·)
termination_by s.length
decreasing_by exact readChar_length _h

@[simp] theorem decode_nil : decode [] = some [] := by rw [decode]

theorem decode_of_readChar {s rest : List Char} {c : Char} (h : readChar s = some (c, rest)) :
    decode s = (decode rest).map (c :: ·) := by
  cases s with
  | nil => cases h
  | cons d s =>
      rw [decode]
      split
      case h_1 hnone => rw [hnone] at h; cases h
      case h_2 c' rest' hsome =>
        obtain ⟨rfl, rfl⟩ := Prod.mk.inj (Option.some.inj (hsome.symm.trans h))
        rfl

theorem decode_eq_none {s : List Char} {c : Char} (h : readChar (c :: s) = none) :
    decode (c :: s) = none := by
  rw [decode]
  split
  case h_1 => rfl
  case h_2 hsome => rw [h] at hsome; cases hsome

/-! ## Round trip -/

variable {keep : Char → Bool}

def encodeChar (keep : Char → Bool) (c : Char) : List Char :=
  if keep c then [c] else (String.utf8EncodeChar c).flatMap encodeOctet

def encode (keep : Char → Bool) (s : List Char) : List Char := s.flatMap (encodeChar keep)

/-- The first octet of a character says how many there are. -/
theorem utf8EncodeChar_cases (c : Char) :
    (∃ b, String.utf8EncodeChar c = [b] ∧ leadingOnes b = 0 ∧ Char.ofNat b.toNat = c) ∨
    ∃ b b' bs, String.utf8EncodeChar c = b :: b' :: bs ∧
      leadingOnes b = bs.length + 2 ∧ bs.length ≤ 2 := by
  have hvalue : c.val.toNat = c.toNat := rfl
  have hones : ∀ b : UInt8, leadingOnes b =
      if b.toNat < 128 then 0 else if b.toNat < 192 then 1 else if b.toNat < 224 then 2
      else if b.toNat < 240 then 3 else if b.toNat < 248 then 4 else 5 := fun _ => rfl
  unfold String.utf8EncodeChar
  rw [hvalue]
  dsimp only
  split
  case isTrue h =>
    have hsmall : (UInt8.ofNat c.toNat).toNat = c.toNat := by
      rw [UInt8.toNat_ofNat']
      omega
    refine Or.inl ⟨_, rfl, ?_, ?_⟩
    · rw [hones, hsmall, if_pos (by omega)]
    · rw [hsmall, Char.ofNat_toNat]
  case isFalse h =>
    refine Or.inr ?_
    split
    · refine ⟨_, _, _, rfl, ?_, by simp⟩
      rw [hones, UInt8.toNat_ofNat', if_neg (by omega), if_neg (by omega), if_pos (by omega)]
      rfl
    · split
      · refine ⟨_, _, _, rfl, ?_, by simp⟩
        rw [hones, UInt8.toNat_ofNat', if_neg (by omega), if_neg (by omega), if_neg (by omega),
          if_pos (by omega)]
        rfl
      · refine ⟨_, _, _, rfl, ?_, by simp⟩
        rw [hones, UInt8.toNat_ofNat', if_neg (by omega), if_neg (by omega), if_neg (by omega),
          if_neg (by omega), if_pos (by omega)]
        rfl

theorem utf8DecodeChar?_utf8EncodeChar (c : Char) :
    (String.utf8EncodeChar c).toByteArray.utf8DecodeChar? 0 = some c := by
  have h := ByteArray.utf8DecodeChar?_utf8EncodeChar_append (b := ByteArray.empty) (c := c)
  rwa [ByteArray.append_empty] at h

theorem escaped_encodeOctet {c : Char} {b : UInt8} {bs : List UInt8}
    (hc : String.utf8EncodeChar c = b :: bs) (s : List Char) :
    escaped b (bs.flatMap encodeOctet ++ s) = some (c, s) := by
  have hdecode := utf8DecodeChar?_utf8EncodeChar c
  rcases utf8EncodeChar_cases c with ⟨b₀, hc₀, hones, hb⟩ | ⟨b₀, b₁, bs₀, hc₀, hones, hle⟩
  · obtain ⟨rfl, rfl⟩ := List.cons.inj (hc.symm.trans hc₀)
    rw [escaped, hones, List.flatMap_nil, List.nil_append, hb]
  · obtain ⟨rfl, rfl⟩ := List.cons.inj (hc.symm.trans hc₀)
    rw [hc] at hdecode
    have hmore := octets_encodeOctet (b₁ :: bs₀) s
    rw [List.length_cons] at hmore
    rw [escaped, hones]
    dsimp only
    rw [if_neg (by omega), hmore, Option.bind_some, hdecode]
    rfl

theorem readChar_encodeChar (hpercent : keep '%' = false) (c : Char) (s : List Char) :
    readChar (encodeChar keep c ++ s) = some (c, s) := by
  rw [encodeChar]
  split
  case isTrue hkeep =>
    have hne : c ≠ '%' := by
      rintro rfl
      rw [hpercent] at hkeep
      cases hkeep
    rw [List.cons_append, readChar, if_pos hne]
    rfl
  case isFalse =>
    obtain ⟨b, bs, hc⟩ : ∃ b bs, String.utf8EncodeChar c = b :: bs :=
      List.exists_cons_of_ne_nil String.utf8EncodeChar_ne_nil
    have hread : readChar (encodeOctet b ++ (bs.flatMap encodeOctet ++ s)) =
        (octet (encodeOctet b ++ (bs.flatMap encodeOctet ++ s))).bind fun first =>
          escaped first.1 first.2 := rfl
    rw [hc, List.flatMap_cons, List.append_assoc, hread, octet_encodeOctet, Option.bind_some]
    exact escaped_encodeOctet hc s

theorem decode_encode (hpercent : keep '%' = false) (s : List Char) :
    decode (encode keep s) = some s := by
  induction s with
  | nil => exact decode_nil
  | cons c s ih =>
      have hread := readChar_encodeChar hpercent c (encode keep s)
      rw [encode, List.flatMap_cons, ← encode, decode_of_readChar hread, ih]
      rfl

/-- What is written: `%`, digits, and what is kept. -/
theorem forall_mem_encode {p : Char → Prop} (hpercent : p '%')
    (hdigit : ∀ n < 16, p (hexDigit n)) (hkeep : ∀ c, keep c = true → p c) (s : List Char) :
    ∀ c ∈ encode keep s, p c := by
  intro c hc
  obtain ⟨d, -, hc⟩ := List.mem_flatMap.1 hc
  rw [encodeChar] at hc
  split at hc
  case isTrue hd =>
    obtain rfl := List.mem_singleton.1 hc
    exact hkeep c hd
  case isFalse =>
    obtain ⟨b, -, hc⟩ := List.mem_flatMap.1 hc
    have hb := b.toNat_lt
    simp only [encodeOctet, List.mem_cons, List.not_mem_nil, or_false] at hc
    rcases hc with rfl | rfl | rfl
    · exact hpercent
    · exact hdigit _ (Nat.div_lt_of_lt_mul hb)
    · exact hdigit _ (Nat.mod_lt _ (by decide))

end PercentCoding
