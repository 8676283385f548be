import OxideHttp.Lib.PercentCoding
import OxideHttp.Lib.Pieces

/-!
# `application/x-www-form-urlencoded`

A list of names and values is written as pieces `name=value` with `&` between them; a blank is
written as `+`, and all that is not a letter, a digit or one of `*-._` as its percent coding.
Reading passes over empty pieces, lets an escape that is none stand for itself, and decodes
the octets of a name or a value at the end, however malformed: the decoder is a parameter.

This file gives

* `serialize`, `parse`, and `parse_serialize`: what was written is read back;
* `parse_append`: two queries joined by `&`;
* `forall_mem_serialize`: the characters that can be written.
-/

namespace FormUrlencoded

open Pieces PercentCoding

/-! ## Writing -/

def keep (c : Char) : Bool := c.isAlphanum || c ∈ ['*', '-', '.', '_']

def serializeChar (c : Char) : List Char := if c = ' ' then ['+'] else encodeChar keep c

def serializeText (s : List Char) : List Char := s.flatMap serializeChar

def piece (e : List Char × List Char) : List Char := serializeText e.1 ++ '=' :: serializeText e.2

def serialize (es : List (List Char × List Char)) : List Char := ['&'].intercalate (es.map piece)

/-! ## Reading -/

/-- The octets that a text stands for. -/
def percentDecode (s : List Char) : List UInt8 :=
  match s with
  | [] => []
  | c :: s =>
      match _h : octet (c :: s) with
      | some (b, rest) => b :: percentDecode rest
      | none => String.utf8EncodeChar c ++ percentDecode s
termination_by s.length
decreasing_by
  · exact octet_length _h
  · exact Nat.lt_succ_self _

section Parsing

variable (utf8Decode : List UInt8 → List Char)

def parseText (s : List Char) : List Char :=
  utf8Decode (percentDecode (s.map fun c => if c = '+' then ' ' else c))

def parsePiece (s : List Char) : List Char × List Char :=
  (parseText utf8Decode (s.takeWhile (· ≠ '=')),
    parseText utf8Decode (s.dropWhile (· ≠ '=')).tail)

def parse (s : List Char) : List (List Char × List Char) :=
  (parts '&' s).map (parsePiece utf8Decode)

@[simp] theorem parse_nil : parse utf8Decode [] = [] := rfl

theorem parse_append (s t : List Char) :
    parse utf8Decode (s ++ '&' :: t) = parse utf8Decode s ++ parse utf8Decode t := by
  rw [parse, parts_append_cons, parts_cons_self, List.map_append, parse, parse]

end Parsing

/-! ## Round trip -/

/-- What is written: what is kept, escapes, and `+`. -/
theorem forall_mem_serializeText {p : Char → Prop} (hpercent : p '%') (hplus : p '+')
    (hdigit : ∀ n < 16, p (hexDigit n)) (hkeep : ∀ c, keep c = true → p c) (s : List Char) :
    ∀ c ∈ serializeText s, p c := by
  intro c hc
  obtain ⟨d, -, hc⟩ := List.mem_flatMap.1 hc
  rw [serializeChar] at hc
  split at hc
  case isTrue => exact List.mem_singleton.1 hc ▸ hplus
  case isFalse =>
    refine forall_mem_encode hpercent hdigit hkeep [d] c ?_
    rw [encode, List.flatMap_singleton]
    exact hc

theorem forall_mem_serialize {p : Char → Prop} (hamp : p '&') (hequals : p '=')
    (htext : ∀ s, ∀ c ∈ serializeText s, p c) (es : List (List Char × List Char)) :
    ∀ c ∈ serialize es, p c := by
  have hpiece (e : List Char × List Char) : ∀ c ∈ piece e, p c :=
    List.forall_mem_append.2 ⟨htext _, List.forall_mem_cons.2 ⟨hequals, htext _⟩⟩
  induction es with
  | nil => exact fun _ hc => (nomatch hc)
  | cons e es ih =>
      cases es with
      | nil =>
          rw [serialize, List.map_singleton, List.intercalate_singleton]
          exact hpiece e
      | cons e' es =>
          rw [serialize, List.map_cons, List.map_cons, List.intercalate_cons_cons,
            ← List.map_cons, ← serialize]
          exact List.forall_mem_append.2
            ⟨List.forall_mem_append.2 ⟨hpiece e, List.forall_mem_singleton.2 hamp⟩, ih⟩

theorem ne_of_mem_serializeText {sep : Char} (hsep : keep sep = false) (hpercent : sep ≠ '%')
    (hplus : sep ≠ '+') (hdigit : ∀ n < 16, hexDigit n ≠ sep) {s : List Char} :
    sep ∉ serializeText s := by
  intro hmem
  refine forall_mem_serializeText (p := fun c => c ≠ sep) hpercent.symm hplus.symm hdigit
    (fun c hc heq => ?_) s sep hmem rfl
  rw [heq, hsep] at hc
  cases hc

theorem hexDigit_ne {sep : Char} (h : ∀ n : Fin 16, hexDigit n ≠ sep) :
    ∀ n < 16, hexDigit n ≠ sep := fun n hn => h ⟨n, hn⟩

theorem amp_not_mem (s : List Char) : '&' ∉ serializeText s :=
  ne_of_mem_serializeText (by decide) (by decide) (by decide) (hexDigit_ne (by decide))

theorem equals_not_mem (s : List Char) : '=' ∉ serializeText s :=
  ne_of_mem_serializeText (by decide) (by decide) (by decide) (hexDigit_ne (by decide))

theorem percentDecode_octet {b : UInt8} {s rest : List Char} (h : octet s = some (b, rest)) :
    percentDecode s = b :: percentDecode rest := by
  cases s with
  | nil => cases h
  | cons c s =>
      rw [percentDecode]
      split
      case h_1 b' rest' hsome =>
        obtain ⟨rfl, rfl⟩ := Prod.mk.inj (Option.some.inj (hsome.symm.trans h))
        rfl
      case h_2 hnone => rw [hnone] at h; cases h

theorem percentDecode_char {c : Char} (hc : c ≠ '%') (s : List Char) :
    percentDecode (c :: s) = String.utf8EncodeChar c ++ percentDecode s := by
  have hnone : octet (c :: s) = none := by
    unfold octet
    split
    case h_1 heq => exact absurd (List.cons.inj heq).1 hc
    case h_2 => rfl
  rw [percentDecode]
  split
  case h_1 hsome => rw [hnone] at hsome; cases hsome
  case h_2 => rfl

theorem percentDecode_octets (bs : List UInt8) (s : List Char) :
    percentDecode (bs.flatMap encodeOctet ++ s) = bs ++ percentDecode s := by
  induction bs with
  | nil => rfl
  | cons b bs ih =>
      rw [List.flatMap_cons, List.append_assoc, percentDecode_octet (octet_encodeOctet b _), ih]
      rfl

theorem plus_not_mem_encodeOctet (b : UInt8) : '+' ∉ encodeOctet b := by
  have hdigit : ∀ n < 16, hexDigit n ≠ '+' := hexDigit_ne (by decide)
  have hb := b.toNat_lt
  simp only [encodeOctet, List.mem_cons, List.not_mem_nil, or_false, not_or]
  exact ⟨by decide, (hdigit _ (Nat.div_lt_of_lt_mul hb)).symm,
    (hdigit _ (Nat.mod_lt _ (by decide))).symm⟩

/-- `+` was written for blanks only. -/
theorem map_plus_encodeOctet (bs : List UInt8) :
    ((bs.flatMap encodeOctet).map fun c => if c = '+' then ' ' else c) =
      bs.flatMap encodeOctet := by
  refine (List.map_congr_left fun c hc => if_neg ?_).trans (List.map_id _)
  obtain ⟨b, -, hc⟩ := List.mem_flatMap.1 hc
  exact fun heq => plus_not_mem_encodeOctet b (heq ▸ hc)

theorem percentDecode_serializeText (s : List Char) :
    percentDecode ((serializeText s).map fun c => if c = '+' then ' ' else c) =
      s.flatMap String.utf8EncodeChar := by
  induction s with
  | nil => simp [serializeText, percentDecode]
  | cons c s ih =>
      rw [serializeText, List.flatMap_cons, ← serializeText, List.map_append, List.flatMap_cons,
        serializeChar]
      split
      case isTrue hc =>
        subst hc
        rw [List.map_singleton, if_pos rfl, List.singleton_append,
          percentDecode_char (by decide), ih]
      case isFalse hc =>
        rw [encodeChar]
        split
        case isTrue hkeep =>
          have hplus : c ≠ '+' := fun heq => by rw [heq] at hkeep; revert hkeep; decide
          have hpercent : c ≠ '%' := fun heq => by rw [heq] at hkeep; revert hkeep; decide
          rw [List.map_singleton, if_neg hplus, List.singleton_append,
            percentDecode_char hpercent, ih]
        case isFalse => rw [map_plus_encodeOctet, percentDecode_octets, ih]

section RoundTrip

variable {utf8Decode : List UInt8 → List Char}
  (hdecode : ∀ s : List Char, utf8Decode (s.flatMap String.utf8EncodeChar) = s)
include hdecode

theorem parseText_serializeText (s : List Char) :
    parseText utf8Decode (serializeText s) = s := by
  rw [parseText, percentDecode_serializeText, hdecode]

theorem parsePiece_piece (e : List Char × List Char) : parsePiece utf8Decode (piece e) = e := by
  have hpos : ∀ c ∈ serializeText e.1, decide (c ≠ '=') = true := fun c hc =>
    decide_eq_true fun heq => equals_not_mem e.1 (heq ▸ hc)
  have hstop : decide ('=' ≠ '=') = false := by decide
  rw [parsePiece, piece, List.takeWhile_append_of_pos hpos, List.dropWhile_append_of_pos hpos,
    List.takeWhile_cons, List.dropWhile_cons, hstop]
  simp [parseText_serializeText hdecode]

omit hdecode in
theorem piece_ne_nil (e : List Char × List Char) : piece e ≠ [] :=
  List.append_ne_nil_of_right_ne_nil _ (List.cons_ne_nil _ _)

theorem parse_piece (e : List Char × List Char) : parse utf8Decode (piece e) = [e] := by
  have hamp : '&' ∉ piece e := by
    rw [piece, List.mem_append, List.mem_cons]
    exact fun h => h.elim (amp_not_mem _) fun h => h.elim (by decide) (amp_not_mem _)
  rw [parse, parts, List.splitOn_eq_singleton hamp, List.filter_singleton,
    decide_eq_true (piece_ne_nil e), cond_true, List.map_singleton, parsePiece_piece hdecode]

/-- What was written is read back. -/
theorem parse_serialize (es : List (List Char × List Char)) :
    parse utf8Decode (serialize es) = es := by
  induction es with
  | nil => rfl
  | cons e es ih =>
      cases es with
      | nil =>
          rw [serialize, List.map_singleton, List.intercalate_singleton, parse_piece hdecode]
      | cons e' es =>
          rw [serialize, List.map_cons, List.map_cons, List.intercalate_cons_cons,
            ← List.map_cons, List.append_assoc, List.singleton_append, parse_append,
            parse_piece hdecode, ← serialize, ih]
          rfl

end RoundTrip

end FormUrlencoded
