import OxideHttp.Lib.Double
import Mathlib.Data.List.TakeWhile

/-!
# The shortest decimal of a double

A double is written with as few digits as tell it from its neighbours, and without an
exponent: of the decimals that are rounded to it, those on the coarsest grid, and of these the
nearest.

This file gives

* `display`: the text of a double;
* `readDecimal`: the number of a text of digits, with a point among them or not;
* `readDecimal_display`: the text of a double stands for a number that is rounded to it.
-/

namespace Double

/-- The number of a text of digits, with a point among them or not. -/
def readDecimal (text : List Char) : Option ℚ :=
  let int := text.takeWhile Char.isDigit
  if int = [] then none
  else
    match text.dropWhile Char.isDigit with
    | [] => some (Nat.ofDigitChars 10 int 0)
    | '.' :: frac =>
        if frac = [] ∨ frac.all Char.isDigit = false then none
        else some (Nat.ofDigitChars 10 (int ++ frac) 0 / 10 ^ frac.length)
    | _ => none

/-- `m / 10 ^ places`, or `m * 10 ^ -places`, written out. -/
def writeDecimal (m : Nat) (places : ℤ) : List Char :=
  if places ≤ 0 then Nat.toDigits 10 (m * 10 ^ (-places).toNat)
  else
    Nat.toDigits 10 (m / 10 ^ places.toNat) ++
      '.' :: List.leftpad places.toNat '0' (Nat.toDigits 10 (m % 10 ^ places.toNat))

/-- The decimal with that many places, nearest to `q`, that is rounded to `q`. -/
def candidate (q : ℚ) (places : ℤ) : Option Nat :=
  let low := ⌊q * 10 ^ places⌋.toNat
  let fits (m : Nat) : Bool := nearest (m / 10 ^ places) = q
  if fits low then
    if fits (low + 1) && decide (1 / 2 < q * 10 ^ places - low) then some (low + 1) else some low
  else if fits (low + 1) then some (low + 1)
  else none

/-- The coarsest grid that has one; no double needs more than 1074 places. -/
def shortest (q : ℚ) : Option (Nat × ℤ) :=
  (List.range 1475).findSome? fun (i : Nat) =>
    let places : ℤ := i - 400
    (candidate q places).map fun m => (m, places)

/-- The text of a double that is not negative. -/
def display (q : ℚ) : List Char :=
  if q = 0 then ['0']
  else
    match shortest q with
    | some (m, places) => writeDecimal m places
    | none => []

/-! ## Texts of numbers -/

theorem toDigits_digits (n : Nat) : ∀ c ∈ Nat.toDigits 10 n, c.isDigit = true :=
  fun _ hc => Nat.isDigit_of_mem_toDigits (by omega) (by omega) hc

theorem span_digits {ds : List Char} (h : ∀ c ∈ ds, c.isDigit = true) (rest : List Char)
    (hrest : ∀ c ∈ rest.head?, c.isDigit = false) :
    (ds ++ rest).takeWhile Char.isDigit = ds ∧ (ds ++ rest).dropWhile Char.isDigit = rest := by
  rw [List.takeWhile_append_of_pos h, List.dropWhile_append_of_pos h]
  cases rest with
  | nil => simp
  | cons c rest => simp [hrest c rfl]

theorem readDecimal_toDigits (n : Nat) : readDecimal (Nat.toDigits 10 n) = some (n : ℚ) := by
  obtain ⟨htake, hdrop⟩ := span_digits (toDigits_digits n) [] (fun _ h => by cases h)
  rw [List.append_nil] at htake hdrop
  rw [readDecimal, htake, hdrop, if_neg Nat.toDigits_ne_nil, Nat.ofDigitChars_ten_toDigits]

theorem length_fraction {m k : Nat} (hk : 0 < k) :
    (List.leftpad k '0' (Nat.toDigits 10 (m % 10 ^ k))).length = k := by
  have hle : (Nat.toDigits 10 (m % 10 ^ k)).length ≤ k :=
    (Nat.length_toDigits_le_iff (by omega) hk).mpr (Nat.mod_lt m (Nat.pow_pos (by omega)))
  rw [List.leftpad, List.length_append, List.length_replicate]
  omega

theorem readDecimal_writeDecimal (m : Nat) (places : ℤ) :
    readDecimal (writeDecimal m places) = some ((m : ℚ) / 10 ^ places) := by
  rw [writeDecimal]
  split
  case isTrue h =>
    obtain ⟨k, rfl⟩ : ∃ k : Nat, places = -k := ⟨(-places).toNat, by omega⟩
    rw [readDecimal_toDigits, neg_neg, Int.toNat_natCast, zpow_neg, zpow_natCast, div_inv_eq_mul]
    push_cast
    rfl
  case isFalse h =>
    obtain ⟨k, rfl⟩ : ∃ k : Nat, places = k := ⟨places.toNat, by omega⟩
    have hk : 0 < k := by omega
    rw [Int.toNat_natCast, zpow_natCast]
    have hfrac : ∀ c ∈ List.leftpad k '0' (Nat.toDigits 10 (m % 10 ^ k)), c.isDigit = true := by
      intro c hc
      rcases List.mem_append.1 hc with hc | hc
      · rw [List.eq_of_mem_replicate hc]
        rfl
      · exact toDigits_digits _ c hc
    have hlen := length_fraction (m := m) hk
    have hvalue : Nat.ofDigitChars 10 (Nat.toDigits 10 (m / 10 ^ k) ++
        List.leftpad k '0' (Nat.toDigits 10 (m % 10 ^ k))) 0 = m := by
      rw [Nat.ofDigitChars_append, Nat.ofDigitChars_eq_ofDigitChars_zero, hlen, List.leftpad,
        Nat.ofDigitChars_append, Nat.ofDigitChars_replicate_zero, mul_zero,
        Nat.ofDigitChars_ten_toDigits, Nat.ofDigitChars_ten_toDigits]
      exact Nat.div_add_mod m (10 ^ k)
    generalize List.leftpad k '0' (Nat.toDigits 10 (m % 10 ^ k)) = frac at hfrac hlen hvalue
    obtain ⟨htake, hdrop⟩ := span_digits (toDigits_digits (m / 10 ^ k)) ('.' :: frac)
      (by simp [Char.isDigit])
    have hne : frac ≠ [] := List.ne_nil_of_length_pos (hlen ▸ hk)
    have hall : frac.all Char.isDigit = true := List.all_eq_true.2 hfrac
    simp only [readDecimal, htake, hdrop, Nat.toDigits_ne_nil, if_false, hne, hall, hvalue, hlen,
      Bool.true_eq_false, or_self]

/-! ## Every double has one -/

theorem nearest_of_candidate {q : ℚ} {places : ℤ} {m : Nat} (h : candidate q places = some m) :
    nearest (m / 10 ^ places) = q := by
  simp only [candidate] at h
  split at h
  case isTrue hlow =>
    split at h
    case isTrue hhigh =>
      obtain rfl := Option.some.inj h
      exact of_decide_eq_true (Bool.and_eq_true_iff.1 hhigh).1
    case isFalse =>
      obtain rfl := Option.some.inj h
      exact of_decide_eq_true hlow
  case isFalse =>
    split at h
    case isTrue hhigh =>
      obtain rfl := Option.some.inj h
      exact of_decide_eq_true hhigh
    case isFalse => cases h

theorem two_zpow_mul_ten (k j : Nat) :
    (2 : ℚ) ^ ((k : ℤ) - j) * 10 ^ (j : ℤ) = (2 ^ k * 5 ^ j : Nat) := by
  have hten : (10 : ℚ) ^ j = 2 ^ j * 5 ^ j := by
    rw [← mul_pow]
    norm_num
  rw [zpow_sub₀ two_ne_zero, zpow_natCast, zpow_natCast, zpow_natCast, hten, ← mul_assoc,
    div_mul_cancel₀ _ (pow_ne_zero j two_ne_zero)]
  push_cast
  rfl

/-- A double has at most 1074 places. -/
theorem exists_natCast {q : ℚ} (hq : 0 ≤ q) (hd : nearest q = q) :
    ∃ n : Nat, q * 10 ^ (1074 : ℤ) = n := by
  obtain ⟨k, hk⟩ : ∃ k : Nat, lastBit q = k - (1074 : Nat) := by
    have hle := le_max_right (Int.log 2 q - 52) (-1074)
    exact ⟨(lastBit q + 1074).toNat, by rw [lastBit]; omega⟩
  have hz : 0 ≤ halfEven (q / 2 ^ lastBit q) :=
    halfEven_nonneg (div_nonneg hq (zpow_pos two_pos _).le)
  have hq' : halfEven (q / 2 ^ lastBit q) * 2 ^ lastBit q = q := hd
  obtain ⟨z, hz⟩ := Int.eq_ofNat_of_zero_le hz
  rw [hz, hk, Int.cast_natCast] at hq'
  refine ⟨z * (2 ^ k * 5 ^ 1074), ?_⟩
  rw [← hq', mul_assoc, Nat.cast_mul, ← two_zpow_mul_ten]
  rfl

/-- A decimal that is the double itself is a candidate. -/
theorem candidate_isSome {q : ℚ} {places : ℤ} {n : Nat} (hd : nearest q = q)
    (hn : q * 10 ^ places = n) : (candidate q places).isSome = true := by
  have hpos : (10 : ℚ) ^ places ≠ 0 := zpow_ne_zero _ (by norm_num)
  have hlow : ⌊q * 10 ^ places⌋.toNat = n := by rw [hn, Int.floor_natCast, Int.toNat_natCast]
  have hfits : nearest ((n : ℚ) / 10 ^ places) = q := by rw [← hn, mul_div_cancel_right₀ q hpos, hd]
  simp only [candidate, hlow, hfits, decide_true, if_true]
  split <;> rfl

theorem exists_shortest {q : ℚ} (hq : 0 ≤ q) (hd : nearest q = q) :
    ∃ m places, shortest q = some (m, places) ∧ candidate q places = some m := by
  cases h : shortest q with
  | none =>
      obtain ⟨n, hn⟩ := exists_natCast hq hd
      have hnone := List.findSome?_eq_none_iff.1 h 1474 (List.mem_range.2 (by omega))
      have hsome := candidate_isSome hd hn
      rw [Option.isSome_iff_exists] at hsome
      obtain ⟨m, hm⟩ := hsome
      simp only [Option.map_eq_none_iff] at hnone
      have hplaces : ((1474 : Nat) : ℤ) - 400 = 1074 := by norm_num
      rw [hplaces, hm] at hnone
      cases hnone
  | some r =>
      obtain ⟨m, places⟩ := r
      obtain ⟨i, -, hi⟩ := List.exists_of_findSome?_eq_some h
      obtain ⟨m', hm', heq⟩ := Option.map_eq_some_iff.1 hi
      obtain ⟨rfl, rfl⟩ := Prod.mk.inj heq
      exact ⟨m', _, rfl, hm'⟩

/-- The text of a double stands for a number that is rounded to it. -/
theorem readDecimal_display {q : ℚ} (hq : 0 ≤ q) (hd : nearest q = q) :
    ∃ r, readDecimal (display q) = some r ∧ nearest r = q := by
  by_cases hzero : q = 0
  · subst hzero
    exact ⟨0, by rw [display, if_pos rfl]; rfl, nearest_zero⟩
  · obtain ⟨m, places, hshort, hcand⟩ := exists_shortest hq hd
    refine ⟨m / 10 ^ places, ?_, nearest_of_candidate hcand⟩
    rw [display, if_neg hzero, hshort]
    exact readDecimal_writeDecimal m places

theorem chars_of_readDecimal {text : List Char} {r : ℚ} (h : readDecimal text = some r) :
    text ≠ [] ∧ ∀ c ∈ text, c.isDigit = true ∨ c = '.' := by
  have hsplit : text.takeWhile Char.isDigit ++ text.dropWhile Char.isDigit = text :=
    List.takeWhile_append_dropWhile
  have hdigits : ∀ c ∈ text.takeWhile Char.isDigit, c.isDigit = true :=
    fun _ hc => List.mem_takeWhile_imp hc
  rw [readDecimal] at h
  split_ifs at h with hint
  refine ⟨fun hnil => hint (by rw [hnil]; rfl), fun c hc => ?_⟩
  rw [← hsplit] at hc
  rcases List.mem_append.1 hc with hc | hc
  · exact Or.inl (hdigits c hc)
  split at h
  case h_1 hdrop =>
    rw [hdrop] at hc
    cases hc
  case h_2 frac hdrop =>
    rw [hdrop] at hc
    split_ifs at h with hfrac
    rw [not_or, Bool.not_eq_false] at hfrac
    rcases List.mem_cons.1 hc with rfl | hc
    · exact Or.inr rfl
    · exact Or.inl (List.all_eq_true.1 hfrac.2 c hc)
  case h_3 => cases h

end Double
