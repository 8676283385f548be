import Mathlib.Algebra.Order.Field.Rat
import Mathlib.Algebra.Order.Floor.Semiring
import Mathlib.Data.Int.Log
import Mathlib.Data.Rat.Floor
import Mathlib.Tactic.FieldSimp
import Mathlib.Tactic.Linarith
import Mathlib.Tactic.NormNum

/-!
# Rounding to double precision

The doubles that are not negative, as rational numbers: 53 significant bits, and no bit
below `2 ^ -1074`.  A number that is not among them is rounded to the nearest one, to the
one with the even last bit where two are equally near.

This file gives

* `nearest`, `ofRat`: rounding, without and with the limit of the range;
* `nearest_of_eq`: a number that has the bits is kept; `nearest_natCast` for whole numbers
  up to `2 ^ 53`, `nearest_nearest` for what has been rounded;
* `abs_nearest_sub_le`: how far a number is moved.
-/

namespace Double

/-- The nearest whole number, the even one of two. -/
def halfEven (q : ℚ) : ℤ :=
  if q - ⌊q⌋ < 1 / 2 then ⌊q⌋
  else if 1 / 2 < q - ⌊q⌋ then ⌊q⌋ + 1
  else if ⌊q⌋ % 2 = 0 then ⌊q⌋ else ⌊q⌋ + 1

/-- The exponent of the last bit of a number of this size. -/
def lastBit (q : ℚ) : ℤ := max (Int.log 2 q - 52) (-1074)

/-- The nearest number with 53 bits. -/
def nearest (q : ℚ) : ℚ := halfEven (q / 2 ^ lastBit q) * 2 ^ lastBit q

/-- The nearest double; `none` is infinity. -/
def ofRat (q : ℚ) : Option ℚ := if nearest q < 2 ^ 1024 then some (nearest q) else none

theorem halfEven_intCast (z : ℤ) : halfEven z = z := by simp [halfEven]

/-- A multiple of its last bit is a double. -/
theorem nearest_of_eq {q : ℚ} {z : ℤ} (h : q = z * 2 ^ lastBit q) : nearest q = q := by
  have hpos : (2 : ℚ) ^ lastBit q ≠ 0 := zpow_ne_zero _ two_ne_zero
  have hdiv : q / 2 ^ lastBit q = z := by
    rw [div_eq_iff hpos]
    exact h
  rw [nearest, hdiv, halfEven_intCast]
  exact h.symm

theorem nearest_natCast {n : Nat} (h : n ≤ 2 ^ 53) : nearest n = n := by
  have hlog : Int.log 2 (n : ℚ) = Nat.log 2 n := Int.log_natCast 2 n
  rcases Nat.lt_or_eq_of_le h with hlt | rfl
  · -- the last bit is not above the point
    have hle : Nat.log 2 n ≤ 52 := by
      by_cases hn : n = 0
      · simp [hn]
      · exact Nat.le_of_lt_succ (Nat.log_lt_of_lt_pow hn hlt)
    obtain ⟨k, hk⟩ : ∃ k : Nat, lastBit (n : ℚ) = -k := by
      refine ⟨(-lastBit (n : ℚ)).toNat, ?_⟩
      have hneg : lastBit (n : ℚ) ≤ 0 := by rw [lastBit, hlog]; omega
      omega
    refine nearest_of_eq (z := n * 2 ^ k) ?_
    rw [hk, zpow_neg, zpow_natCast]
    push_cast
    field_simp
  · refine nearest_of_eq (z := 2 ^ 52) ?_
    have hbit : lastBit ((2 ^ 53 : Nat) : ℚ) = 1 := by
      rw [lastBit, hlog, Nat.log_pow (by norm_num)]
      norm_num
    rw [hbit]
    norm_num

theorem halfEven_le {q : ℚ} {z : ℤ} (h : q ≤ z) : halfEven q ≤ z := by
  have hfloor : ⌊q⌋ ≤ z := by
    have := Int.floor_le q
    exact_mod_cast this.trans h
  rcases hfloor.lt_or_eq with hlt | heq
  · rw [halfEven]
    split_ifs <;> omega
  · have hq : q = z := le_antisymm h (heq ▸ Int.floor_le q)
    rw [hq, halfEven_intCast]

theorem halfEven_nonneg {q : ℚ} (h : 0 ≤ q) : 0 ≤ halfEven q := by
  have hfloor : 0 ≤ ⌊q⌋ := Int.floor_nonneg.2 h
  rw [halfEven]
  split_ifs <;> omega

/-- A number of 53 bits, written with a last bit that is its own or below it. -/
theorem nearest_of_lt {z k : ℤ} (hz : 0 < z) (hlt : z < 2 ^ 53) (hk : -1074 ≤ k) :
    nearest (z * 2 ^ k) = z * 2 ^ k := by
  have hpos : (0 : ℚ) < z * 2 ^ k := mul_pos (by exact_mod_cast hz) (zpow_pos two_pos k)
  have hbit : lastBit (z * 2 ^ k) ≤ k := by
    have hlog : Int.log 2 ((z : ℚ) * 2 ^ k) < 53 + k := by
      rw [← Int.lt_zpow_iff_log_lt one_lt_two hpos]
      push_cast
      rw [zpow_add₀ two_ne_zero]
      have hz' : (z : ℚ) < 2 ^ (53 : ℤ) := by exact_mod_cast hlt
      exact mul_lt_mul_of_pos_right hz' (zpow_pos two_pos k)
    rw [lastBit]
    omega
  refine nearest_of_eq (z := z * 2 ^ (k - lastBit ((z : ℚ) * 2 ^ k)).toNat) ?_
  push_cast
  rw [mul_assoc, ← zpow_natCast (2 : ℚ), Int.toNat_of_nonneg (by omega), ← zpow_add₀ two_ne_zero,
    sub_add_cancel]

theorem nearest_zero : nearest 0 = 0 := by simpa using nearest_natCast (n := 0) (by norm_num)

/-- Rounding gives a double. -/
theorem nearest_nearest {q : ℚ} (hq : 0 ≤ q) : nearest (nearest q) = nearest q := by
  rcases hq.eq_or_lt with rfl | hpos
  · rw [nearest_zero, nearest_zero]
  have hbit : (-1074 : ℤ) ≤ lastBit q := le_max_right _ _
  have hlow : 0 ≤ halfEven (q / 2 ^ lastBit q) :=
    halfEven_nonneg (div_nonneg hq (zpow_pos two_pos _).le)
  have hhigh : halfEven (q / 2 ^ lastBit q) ≤ 2 ^ 53 := by
    refine halfEven_le ?_
    rw [Int.cast_pow, Int.cast_ofNat, div_le_iff₀ (zpow_pos two_pos _)]
    have hlt : q < 2 ^ (Int.log 2 q + 1) := by
      exact_mod_cast Int.lt_zpow_succ_log_self one_lt_two q
    have hpow : (2 : ℚ) ^ (53 : ℕ) = 2 ^ (53 : ℤ) := (zpow_natCast 2 53).symm
    rw [hpow, ← zpow_add₀ two_ne_zero]
    refine hlt.le.trans (zpow_le_zpow_right₀ one_le_two ?_)
    rw [lastBit]
    omega
  have hdef : nearest q = halfEven (q / 2 ^ lastBit q) * 2 ^ lastBit q := rfl
  rw [hdef]
  generalize halfEven (q / 2 ^ lastBit q) = z at hlow hhigh ⊢
  generalize lastBit q = k at hbit ⊢
  rcases hlow.eq_or_lt with rfl | hz
  · simp [nearest_zero]
  rcases hhigh.lt_or_eq with hlt | rfl
  · exact nearest_of_lt hz hlt hbit
  · have hcarry : ((2 ^ 53 : ℤ) : ℚ) * 2 ^ k = ((2 ^ 52 : ℤ) : ℚ) * 2 ^ (k + 1) := by
      rw [zpow_add_one₀ two_ne_zero]
      push_cast
      ring
    rw [hcarry]
    exact nearest_of_lt (by norm_num) (by norm_num) (by omega)

theorem abs_halfEven_sub_le (q : ℚ) : |(halfEven q : ℚ) - q| ≤ 1 / 2 := by
  have hle := Int.floor_le q
  have hlt := Int.lt_floor_add_one q
  rw [halfEven, abs_le]
  split
  · constructor <;> linarith
  · split
    · push_cast
      constructor <;> linarith
    · split
      · constructor <;> linarith
      · push_cast
        constructor <;> linarith

/-- Half of the last bit. -/
theorem abs_nearest_sub_le {q : ℚ} (hq : 0 < q) :
    |nearest q - q| ≤ q / 2 ^ 53 + (1 / 2) ^ 1075 := by
  have hpos : (0 : ℚ) < 2 ^ lastBit q := zpow_pos two_pos _
  have hbit : (2 : ℚ) ^ lastBit q ≤ q / 2 ^ 52 + (1 / 2) ^ 1074 := by
    have hlog : (2 : ℚ) ^ (Int.log 2 q - 52) ≤ q / 2 ^ 52 := by
      rw [zpow_sub₀ two_ne_zero]
      have hle : (2 : ℚ) ^ Int.log 2 q ≤ q := by exact_mod_cast Int.zpow_log_le_self one_lt_two hq
      have hpow : (2 : ℚ) ^ (52 : ℤ) = 2 ^ 52 := zpow_natCast 2 52
      rw [hpow]
      gcongr
    have hmin : (2 : ℚ) ^ (-1074 : ℤ) = (1 / 2) ^ 1074 := by
      rw [zpow_neg, one_div, inv_pow]
      exact congrArg _ (zpow_natCast 2 1074)
    rw [lastBit]
    rcases max_cases (Int.log 2 q - 52) (-1074) with ⟨hmax, -⟩ | ⟨hmax, -⟩
    · rw [hmax]
      exact hlog.trans (le_add_of_nonneg_right (by positivity))
    · rw [hmax, hmin]
      exact le_add_of_nonneg_left (by positivity)
  have hmove : nearest q - q = (halfEven (q / 2 ^ lastBit q) - q / 2 ^ lastBit q) *
      2 ^ lastBit q := by
    rw [nearest, sub_mul, div_mul_cancel₀ _ hpos.ne']
  rw [hmove, abs_mul, abs_of_pos hpos]
  calc _ ≤ 1 / 2 * (q / 2 ^ 52 + (1 / 2) ^ 1074) := by
        gcongr
        exact abs_halfEven_sub_le _
    _ = q / 2 ^ 53 + (1 / 2) ^ 1075 := by
        rw [pow_succ (1 / 2 : ℚ) 1074]
        generalize (1 / 2 : ℚ) ^ 1074 = tiny
        ring

theorem nearest_nonneg {q : ℚ} (hq : 0 ≤ q) : 0 ≤ nearest q := by
  have hpos : (0 : ℚ) ≤ 2 ^ lastBit q := (zpow_pos two_pos _).le
  have hfloor : (0 : ℤ) ≤ ⌊q / 2 ^ lastBit q⌋ := Int.floor_nonneg.2 (div_nonneg hq hpos)
  have hle : (0 : ℤ) ≤ halfEven (q / 2 ^ lastBit q) := by
    rw [halfEven]
    split_ifs <;> omega
  exact mul_nonneg (by exact_mod_cast hle) hpos

theorem lt_of_near {x q tiny limit : ℚ} (h : |x - q| ≤ q / 2 ^ 53 + tiny) (hq : q ≤ limit)
    (htiny : tiny ≤ 1 / 2) (hone : 1 ≤ limit) : x < 2 * limit := by
  have habove := (abs_le.1 h).2
  norm_num at habove
  linarith

/-- A number below half the limit of the range has a double near it. -/
theorem exists_ofRat {q : ℚ} (hq : 0 ≤ q) (hlimit : q ≤ 2 ^ 1023) :
    ∃ x, ofRat q = some x ∧ 0 ≤ x ∧ |x - q| ≤ q / 2 ^ 53 + (1 / 2) ^ 1075 := by
  have hnear : |nearest q - q| ≤ q / 2 ^ 53 + (1 / 2) ^ 1075 := by
    rcases hq.eq_or_lt with rfl | hpos
    · have hzero : nearest 0 = 0 := by simpa using nearest_natCast (n := 0) (by norm_num)
      rw [hzero, sub_zero, abs_zero, zero_div, zero_add]
      exact pow_nonneg (by norm_num) _
    · exact abs_nearest_sub_le hpos
  have htiny : (1 / 2 : ℚ) ^ 1075 ≤ 1 / 2 :=
    pow_le_of_le_one (by norm_num) (by norm_num) (by norm_num)
  have hlt : nearest q < 2 ^ 1024 := by
    rw [pow_succ' (2 : ℚ) 1023]
    exact lt_of_near hnear hlimit htiny (one_le_pow₀ one_le_two)
  exact ⟨nearest q, if_pos hlt, nearest_nonneg hq, hnear⟩

theorem ofRat_natCast {n : Nat} (h : n ≤ 2 ^ 53) : ofRat n = some (n : ℚ) := by
  have hlt : (n : ℚ) < 2 ^ 1024 := by
    have hle : (n : ℚ) ≤ 2 ^ 53 := by exact_mod_cast h
    exact lt_of_le_of_lt hle (pow_lt_pow_right₀ one_lt_two (by norm_num))
  rw [ofRat, nearest_natCast h, if_pos hlt]

end Double
