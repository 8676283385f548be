import Mathlib.Data.List.Forall2
import Mathlib.Data.List.Basic
import Mathlib.Tactic.Common

/-!
# Texts of IP addresses

An address is a list of numbers: four octets, or eight segments of sixteen bits.  A text
denotes an address by the usual grammars; a printer writes one of the texts that denote
it.

This file gives

* `numeral`: the number that a text of digits stands for; `numeral_toDigits`;
* `Ipv4.Denotes`, `Ipv6.Denotes`: the grammars;
* `Ipv4.denotes_display`, `Ipv6.denotes_display`: what is printed denotes the address.
-/

namespace IpText

/-! ## Numerals -/

/-- The value of a digit, in upper or lower case; 16 for a character that is none. -/
def digit (c : Char) : Nat :=
  if '0' ≤ c ∧ c ≤ '9' then c.toNat - '0'.toNat
  else if 'a' ≤ c ∧ c ≤ 'f' then c.toNat - 'a'.toNat + 10
  else if 'A' ≤ c ∧ c ≤ 'F' then c.toNat - 'A'.toNat + 10
  else 16

/-- The number that the digits stand for. -/
def value (base : Nat) (text : List Char) : Nat :=
  text.foldl (fun n c => base * n + digit c) 0

/-- The number that a text stands for, when it is a numeral. -/
def numeral (base : Nat) (text : List Char) : Option Nat :=
  if text.isEmpty || text.any fun c => decide (base ≤ digit c) then none
  else some (value base text)

theorem digit_digitChar {n : Nat} (h : n < 16) : digit n.digitChar = n := by
  have hall : ∀ n < 16, digit n.digitChar = n := by decide
  exact hall n h

theorem value_toDigits {base : Nat} (hbase : 1 < base) (hle : base ≤ 16) (n : Nat) :
    value base (Nat.toDigits base n) = n := by
  induction n using Nat.strongRecOn with
  | ind n ih =>
      by_cases hn : n < base
      · rw [Nat.toDigits_of_lt_base hn]
        simp [value, digit_digitChar (by omega : n < 16)]
      · have hmod : n % base < base := Nat.mod_lt _ (by omega)
        have hdiv : n / base < n := Nat.div_lt_self (by omega) hbase
        have hfront := ih _ hdiv
        rw [value] at hfront
        rw [Nat.toDigits_of_base_le hbase (by omega), value, List.foldl_append, hfront,
          List.foldl_cons, List.foldl_nil, digit_digitChar (by omega)]
        exact Nat.div_add_mod n base

theorem digit_lt_of_mem_toDigits {base : Nat} (hbase : 1 < base) (hle : base ≤ 16) {n : Nat}
    {c : Char} (hc : c ∈ Nat.toDigits base n) : digit c < base := by
  induction n using Nat.strongRecOn with
  | ind n ih =>
      by_cases hn : n < base
      · rw [Nat.toDigits_of_lt_base hn, List.mem_singleton] at hc
        rw [hc, digit_digitChar (by omega)]
        exact hn
      · have hmod : n % base < base := Nat.mod_lt _ (by omega)
        have hdiv : n / base < n := Nat.div_lt_self (by omega) hbase
        rw [Nat.toDigits_of_base_le hbase (by omega), List.mem_append, List.mem_singleton] at hc
        rcases hc with hc | rfl
        · exact ih _ hdiv hc
        · rw [digit_digitChar (by omega)]
          exact hmod

/-- A number is read back from its digits. -/
theorem numeral_toDigits {base : Nat} (hbase : 1 < base) (hle : base ≤ 16) (n : Nat) :
    numeral base (Nat.toDigits base n) = some n := by
  have hdigits : ¬ ∃ c ∈ Nat.toDigits base n, base ≤ digit c := by
    rintro ⟨c, hc, hge⟩
    have hlt := digit_lt_of_mem_toDigits hbase hle hc
    omega
  rw [numeral, if_neg (by simp [Nat.toDigits_ne_nil, hdigits]), value_toDigits hbase hle]

/-- A decimal numeral without a leading zero. -/
def Decimal (text : List Char) (n : Nat) : Prop :=
  numeral 10 text = some n ∧ (text.head? = some '0' → text.length = 1)

theorem head?_toDigits {n : Nat} (h : (Nat.toDigits 10 n).head? = some '0') : n = 0 := by
  induction n using Nat.strongRecOn with
  | ind n ih =>
      by_cases hn : n < 10
      · rw [Nat.toDigits_of_lt_base hn] at h
        simpa using h
      · have hdiv : n / 10 < n := Nat.div_lt_self (by omega) (by omega)
        rw [Nat.toDigits_of_base_le (by omega) (by omega),
          List.head?_append_of_ne_nil _ Nat.toDigits_ne_nil] at h
        have hzero := ih _ hdiv h
        omega

theorem decimal_toDigits (n : Nat) : Decimal (Nat.toDigits 10 n) n := by
  refine ⟨numeral_toDigits (by omega) (by omega) n, fun h => ?_⟩
  rw [head?_toDigits h]
  rfl

/-! ## IPv4 -/

namespace Ipv4

/-- Four decimal numerals below 256, separated by dots. -/
def Denotes (text : List Char) (octets : List Nat) : Prop :=
  octets.length = 4 ∧ ∃ pieces, text = ['.'].intercalate pieces ∧
    List.Forall₂ (fun piece octet => Decimal piece octet ∧ octet < 256) pieces octets

def display (octets : List Nat) : List Char :=
  ['.'].intercalate (octets.map (Nat.toDigits 10))

theorem denotes_display {octets : List Nat} (hlength : octets.length = 4)
    (hbound : ∀ octet ∈ octets, octet < 256) : Denotes (display octets) octets := by
  refine ⟨hlength, _, rfl, ?_⟩
  rw [List.forall₂_map_left_iff, List.forall₂_same]
  exact fun octet hoctet => ⟨decimal_toDigits octet, hbound octet hoctet⟩

end Ipv4

/-! ## IPv6 -/

namespace Ipv6

/-- One to four hexadecimal digits. -/
def Hex (text : List Char) (n : Nat) : Prop := numeral 16 text = some n ∧ text.length ≤ 4

theorem hex_toDigits {n : Nat} (h : n < 65536) : Hex (Nat.toDigits 16 n) n := by
  refine ⟨numeral_toDigits (by omega) (by omega) n, ?_⟩
  exact (Nat.length_toDigits_le_iff (by omega) (by omega)).2 h

/-- Groups of digits; an IPv4 address may stand for the last two. -/
inductive Groups : List (List Char) → List Nat → Prop
  | nil : Groups [] []
  | cons {piece : List Char} {n : Nat} {pieces : List (List Char)} {ns : List Nat} :
      Hex piece n → Groups pieces ns → Groups (piece :: pieces) (n :: ns)
  | dotted {text : List Char} {a b c d : Nat} :
      Ipv4.Denotes text [a, b, c, d] → Groups [text] [a * 256 + b, c * 256 + d]

theorem groups_toDigits {segments : List Nat} (hbound : ∀ n ∈ segments, n < 65536) :
    Groups (segments.map (Nat.toDigits 16)) segments := by
  induction segments with
  | nil => exact .nil
  | cons n ns ih =>
      have hn := hbound n (List.mem_cons_self ..)
      exact .cons (hex_toDigits hn) (ih fun m hm => hbound m (List.mem_cons_of_mem _ hm))

/-- Eight groups separated by colons, or fewer with `::` in place of a run of zeros. -/
def Denotes (text : List Char) (segments : List Nat) : Prop :=
  segments.length = 8 ∧
    ((∃ pieces, text = [':'].intercalate pieces ∧ Groups pieces segments) ∨
      ∃ front back zeros fronts backs,
        text = [':'].intercalate front ++ [':', ':'] ++ [':'].intercalate back ∧
        segments = fronts ++ List.replicate zeros 0 ++ backs ∧ 0 < zeros ∧
        List.Forall₂ Hex front fronts ∧ Groups back backs)

/-- A run of zero segments. -/
structure Span where
  start : Nat
  len : Nat
  deriving DecidableEq, Repr

/-- The run with the zero at `i` behind it; an empty one starts there. -/
def Span.extend (current : Span) (i : Nat) : Span :=
  if current.len = 0 then ⟨i, 1⟩ else { current with len := current.len + 1 }

/-- The first of the longest runs of zero segments. -/
def zeroes (i : Nat) (longest current : Span) : List Nat → Span
  | [] => longest
  | 0 :: segments =>
      let current := current.extend i
      zeroes (i + 1) (if longest.len < current.len then current else longest) current segments
  | _ :: segments => zeroes (i + 1) longest ⟨0, 0⟩ segments

/-- Groups without leading zeros, separated by colons. -/
def fmtSubslice (segments : List Nat) : List Char :=
  [':'].intercalate (segments.map (Nat.toDigits 16))

/-- The shortest form: the longest run of two zeros or more is left out, and an address
that stands for an IPv4 one is written with dots. -/
def display (segments : List Nat) : List Char :=
  match segments with
  | [0, 0, 0, 0, 0, 0xffff, g, h] =>
      "::ffff:".toList ++ Ipv4.display [g / 256, g % 256, h / 256, h % 256]
  | _ =>
      let span := zeroes 0 ⟨0, 0⟩ ⟨0, 0⟩ segments
      if 1 < span.len then
        fmtSubslice (segments.take span.start) ++ [':', ':'] ++
          fmtSubslice (segments.drop (span.start + span.len))
      else fmtSubslice segments

/-- The span lies in the list, and the rest of the list is `after`. -/
def Span.Covers (z : Span) (segments after : List Nat) : Prop :=
  ∃ before, segments = before ++ List.replicate z.len 0 ++ after ∧
    (0 < z.len → before.length = z.start)

theorem Span.Covers.append {z : Span} {segments after : List Nat}
    (h : z.Covers segments after) (more : List Nat) :
    z.Covers (segments ++ more) (after ++ more) := by
  obtain ⟨before, rfl, hstart⟩ := h
  exact ⟨before, by simp, hstart⟩

theorem covers_empty (start : Nat) (segments : List Nat) :
    (Span.mk start 0).Covers segments [] :=
  ⟨segments, by simp, by simp⟩

theorem Span.Covers.extend {current : Span} {done : List Nat} (h : current.Covers done []) :
    (current.extend done.length).Covers (done ++ [0]) [] := by
  unfold Span.extend
  split
  case isTrue => exact ⟨done, by simp, fun _ => rfl⟩
  case isFalse hlen =>
    obtain ⟨before, hdone, hstart⟩ := h
    refine ⟨before, ?_, fun _ => hstart (by omega)⟩
    conv_lhs => rw [hdone]
    rw [List.replicate_succ']
    simp

theorem Span.Covers.cut {z : Span} {segments after : List Nat} (h : z.Covers segments after)
    (hlen : 0 < z.len) :
    segments = segments.take z.start ++ List.replicate z.len 0 ++
      segments.drop (z.start + z.len) := by
  obtain ⟨before, rfl, hstart⟩ := h
  simp [← hstart hlen]

/-- `done` has been read; the current run ends there, and the longest lies in it. -/
theorem zeroes_covers {longest current : Span} {done segments : List Nat}
    (hlongest : ∃ after, longest.Covers done after) (hcurrent : current.Covers done []) :
    ∃ after, (zeroes done.length longest current segments).Covers (done ++ segments) after := by
  induction segments generalizing done longest current with
  | nil => simpa [zeroes] using hlongest
  | cons n segments ih =>
      obtain ⟨after, hafter⟩ := hlongest
      have hlength : (done ++ [n]).length = done.length + 1 := by simp
      have hstep : done ++ n :: segments = done ++ [n] ++ segments := by simp
      rw [hstep]
      cases n with
      | succ n =>
          simp only [zeroes]
          rw [← hlength]
          exact ih ⟨_, hafter.append [n + 1]⟩ (covers_empty 0 _)
      | zero =>
          simp only [zeroes]
          rw [← hlength]
          refine ih ?_ hcurrent.extend
          split
          · exact ⟨[], hcurrent.extend⟩
          · exact ⟨_, hafter.append [0]⟩

theorem zeroes_covers_all (segments : List Nat) :
    ∃ after, (zeroes 0 ⟨0, 0⟩ ⟨0, 0⟩ segments).Covers segments after :=
  @zeroes_covers ⟨0, 0⟩ ⟨0, 0⟩ [] segments ⟨[], covers_empty 0 []⟩ (covers_empty 0 [])

theorem forall₂_hex {segments : List Nat} (hbound : ∀ n ∈ segments, n < 65536) :
    List.Forall₂ Hex (segments.map (Nat.toDigits 16)) segments := by
  rw [List.forall₂_map_left_iff, List.forall₂_same]
  exact fun n hn => hex_toDigits (hbound n hn)

/-- An IPv4 address in the last two segments. -/
theorem denotes_mapped {g h : Nat} (hg : g < 65536) (hh : h < 65536) :
    Denotes ("::ffff:".toList ++ Ipv4.display [g / 256, g % 256, h / 256, h % 256])
      [0, 0, 0, 0, 0, 0xffff, g, h] := by
  have hdotted : Ipv4.Denotes (Ipv4.display [g / 256, g % 256, h / 256, h % 256])
      [g / 256, g % 256, h / 256, h % 256] := by
    refine Ipv4.denotes_display rfl ?_
    simp only [List.mem_cons, List.not_mem_nil, or_false]
    rintro octet (rfl | rfl | rfl | rfl) <;> omega
  have hgroups := Groups.cons (hex_toDigits (by omega : 65535 < 65536)) (.dotted hdotted)
  rw [Nat.div_add_mod', Nat.div_add_mod'] at hgroups
  refine ⟨rfl, Or.inr ⟨[], _, 5, [], _, ?_, rfl, by omega, .nil, hgroups⟩⟩
  have hffff : Nat.toDigits 16 65535 = ['f', 'f', 'f', 'f'] := by decide
  simp [hffff, List.intercalate, List.intersperse]

/-- What is printed denotes the address. -/
theorem denotes_display {segments : List Nat} (hlength : segments.length = 8)
    (hbound : ∀ n ∈ segments, n < 65536) : Denotes (display segments) segments := by
  unfold display
  split
  case h_1 g h =>
    exact denotes_mapped (hbound g (by simp)) (hbound h (by simp))
  case h_2 =>
    refine ⟨hlength, ?_⟩
    obtain ⟨after, hcovers⟩ := zeroes_covers_all segments
    dsimp only
    split
    case isTrue hlen =>
      have hcut := hcovers.cut (Nat.zero_lt_of_lt hlen)
      refine Or.inr ⟨_, _, _, _, _, rfl, hcut, Nat.zero_lt_of_lt hlen, ?_, ?_⟩
      · exact forall₂_hex fun n hn => hbound n (List.mem_of_mem_take hn)
      · exact groups_toDigits fun n hn => hbound n (List.mem_of_mem_drop hn)
    case isFalse => exact Or.inl ⟨_, rfl, groups_toDigits hbound⟩

end Ipv6

end IpText
