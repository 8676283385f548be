import Mathlib.Data.List.Count
import OxideHttp.Http
import OxideHttp.Lib.Double
import OxideHttp.Lib.Strip
import OxideHttp.Routing

/-!
# Sizes and durations (`js/units.ts`)

A size or a duration is a number, or a text of digits and dots with a unit behind it.

Results.
* `matchUnit_eq_some_iff`: what the regular expression accepts.
* `accurate_natCast`, `accurate_of_far`: when the double product is as good as the exact one.
* `parseUnit_exact_iff`: an accepted text stands for its exact value just when it has a digit,
  at most one dot and a unit of the table, and the double product rounds as the exact one does.
-/

namespace OxideHttp
namespace Units

open Routing (Text)
open Strip (jsTrim isWhiteSpace)

/-! ## Numbers -/

/-- A number of JavaScript; the two zeros are one. -/
inductive Number
  | nan
  | infinite (negative : Bool)
  | finite (q : ℚ)
  deriving DecidableEq

/-- The double nearest to a number that is not negative. -/
def Number.ofRat (q : ℚ) : Number :=
  match Double.ofRat q with
  | some x => .finite x
  | none => .infinite false

/-- `x * y`, for operands that are not negative. -/
def Number.mul : Number → Number → Number
  | .finite x, .finite y => .ofRat (x * y)
  | .infinite s, .finite y => if y = 0 then .nan else .infinite s
  | .finite x, .infinite s => if x = 0 then .nan else .infinite s
  | .infinite s, .infinite t => .infinite (s != t)
  | .nan, _ | _, .nan => .nan

/-- `Math.round`. -/
def mathRound : Number → Number
  | .nan => .nan
  | .infinite s => .infinite s
  | .finite x => .finite ⌊x + 1 / 2⌋

/-- The value of digits, the most significant one first. -/
def decimal (ds : Text) : Nat := ds.foldl (fun n c => 10 * n + (c.toNat - '0'.toNat)) 0

/-- `parseFloat`, of a text of digits and dots: the longest literal at its front. -/
def parseFloat (text : Text) : Number :=
  let whole := text.takeWhile Char.isDigit
  let frac := match text.dropWhile Char.isDigit with
    | '.' :: more => more.takeWhile Char.isDigit
    | _ => []
  if whole ++ frac = [] then .nan
  else .ofRat (decimal (whole ++ frac) / 10 ^ frac.length)

/-! ## Tables -/

inductive Kind
  | bytes
  | duration
  deriving DecidableEq

def Kind.name : Kind → Text
  | .bytes => "bytes".toList
  | .duration => "duration".toList

def Kind.defaultUnit : Kind → Text
  | .bytes => "b".toList
  | .duration => "ms".toList

def isLetter (c : Char) : Bool := 'a' ≤ c && c ≤ 'z'

/-- `UnitTable`, an object with these properties of its own. -/
structure UnitTable where
  entries : List (Text × Nat)
  letters : ∀ e ∈ entries, ∀ c ∈ e.1, isLetter c = true

/-- The names of a table are checked by computation. -/
theorem letters_of_all {entries : List (Text × Nat)}
    (h : (entries.all fun e => e.1.all isLetter) = true) :
    ∀ e ∈ entries, ∀ c ∈ e.1, isLetter c = true :=
  fun e he => List.all_eq_true.1 (List.all_eq_true.1 h e he)

/-- `SIZE`. -/
def SIZE : UnitTable :=
  ⟨[("b".toList, 1), ("kb".toList, 1024), ("mb".toList, 1024 ^ 2), ("gb".toList, 1024 ^ 3),
    ("tb".toList, 1024 ^ 4)], letters_of_all (by decide)⟩

/-- `TIME`. -/
def TIME : UnitTable :=
  ⟨[("ms".toList, 1), ("s".toList, 1000), ("m".toList, 60000), ("h".toList, 3600000),
    ("d".toList, 86400000)], letters_of_all (by decide)⟩

/-- `table[unit]`, as an operand of `*`.  Of what an object inherits only the name of
`constructor` is all lowercase letters, and a function is no number. -/
def UnitTable.get (table : UnitTable) (unit : Text) : Option Number :=
  match table.entries.lookup unit with
  | some mult => some (.finite mult)
  | none => if unit = "constructor".toList then some .nan else none

/-! ## Parsing -/

def digitOrDot (c : Char) : Bool := c.isDigit || c == '.'

/-- `match(/^([\d.]+)\s*([a-z]*)$/)`: the two groups.  The three character classes have nothing
in common. -/
def matchUnit (s : Text) : Option (Text × Text) :=
  let num := s.takeWhile digitOrDot
  let unit := (s.dropWhile digitOrDot).dropWhile isWhiteSpace
  if num = [] then none else if unit.all isLetter then some (num, unit) else none

/-- What stands in a configuration. -/
inductive Value
  | absent
  | number (x : Number)
  | string (s : Text)
  /-- anything else, with its `typeof` -/
  | other (type : Text)

section Parse

-- `toLowerCase`, and how a number is printed
variable (lowercase : Text → Text) (numberText : Number → Text)

def Kind.unit (kind : Kind) (unit : Text) : Text :=
  if unit = [] then kind.defaultUnit else unit

/-- `parseUnit`; an error is the text of its `TypeError`. -/
def parseUnit (value : Value) (table : UnitTable) (kind : Kind) : Except Text (Option Number) :=
  match value with
  | .absent => .ok none
  | .number (.finite q) =>
      if q < 0 then .error (kind.name ++ ": invalid number ".toList ++ numberText (.finite q))
      else .ok (some (.finite q))
  | .number x => .error (kind.name ++ ": invalid number ".toList ++ numberText x)
  | .other type =>
      .error (kind.name ++ ": expected a string or number, got ".toList ++ type)
  | .string s =>
      match matchUnit (lowercase (jsTrim s)) with
      | none => .error (kind.name ++ ": cannot parse \"".toList ++ s ++ "\"".toList)
      | some m =>
          match table.get (kind.unit m.2) with
          | none =>
              .error (kind.name ++ ": unknown unit \"".toList ++ kind.unit m.2 ++
                "\" in \"".toList ++ s ++ "\"".toList)
          | some mult => .ok (some (mathRound ((parseFloat m.1).mul mult)))

/-- `parseBytes`. -/
def parseBytes (v : Value) : Except Text (Option Number) :=
  parseUnit lowercase numberText v SIZE .bytes

/-- `parseDuration`. -/
def parseDuration (v : Value) : Except Text (Option Number) :=
  parseUnit lowercase numberText v TIME .duration

end Parse

/-! ## Literals -/

/-- A decimal literal and its value. -/
inductive Literal : Text → ℚ → Prop
  | whole (ds : Text) (digits : ∀ c ∈ ds, c.isDigit = true) (nonempty : ds ≠ []) :
      Literal ds (decimal ds)
  | point (whole frac : Text) (digits : ∀ c ∈ whole ++ frac, c.isDigit = true)
      (nonempty : whole ++ frac ≠ []) :
      Literal (whole ++ '.' :: frac) (decimal (whole ++ frac) / 10 ^ frac.length)

/-- A digit, and no second dot. -/
def Proper (num : Text) : Prop := num.count '.' ≤ 1 ∧ ∃ c ∈ num, c.isDigit = true

instance (num : Text) : Decidable (Proper num) := inferInstanceAs (Decidable (_ ∧ _))

theorem Literal.nonneg {num : Text} {q : ℚ} (h : Literal num q) : 0 ≤ q := by
  cases h with
  | whole => exact Nat.cast_nonneg _
  | point => positivity

theorem ne_dot_of_isDigit {c : Char} (h : c.isDigit = true) : c ≠ '.' := by
  rintro rfl
  revert h
  decide

theorem count_dot_of_digits {ds : Text} (h : ∀ c ∈ ds, c.isDigit = true) : ds.count '.' = 0 :=
  List.count_eq_zero.2 fun hmem => ne_dot_of_isDigit (h _ hmem) rfl

theorem digitOrDot_of_isDigit {c : Char} (h : c.isDigit = true) : digitOrDot c = true := by
  rw [digitOrDot, h, Bool.true_or]

theorem isDigit_of_digitOrDot {c : Char} (h : digitOrDot c = true) (hne : c ≠ '.') :
    c.isDigit = true := by
  rcases Bool.or_eq_true_iff.1 h with h | h
  · exact h
  · exact absurd (beq_iff_eq.1 h) hne

theorem Literal.nonempty {num : Text} {q : ℚ} (h : Literal num q) : num ≠ [] := by
  cases h with
  | whole _ _ nonempty => exact nonempty
  | point => simp

theorem Literal.forall_digitOrDot {num : Text} {q : ℚ} (h : Literal num q) :
    ∀ c ∈ num, digitOrDot c = true := by
  cases h with
  | whole _ digits => exact fun c hc => digitOrDot_of_isDigit (digits c hc)
  | point whole frac digits =>
      intro c hc
      rcases List.mem_append.1 hc with hc | hc
      · exact digitOrDot_of_isDigit (digits c (List.mem_append_left _ hc))
      · rcases List.mem_cons.1 hc with rfl | hc
        · decide
        · exact digitOrDot_of_isDigit (digits c (List.mem_append_right _ hc))

theorem Literal.proper {num : Text} {q : ℚ} (h : Literal num q) : Proper num := by
  cases h with
  | whole _ digits nonempty =>
      obtain ⟨c, hc⟩ := List.exists_mem_of_ne_nil _ nonempty
      exact ⟨by rw [count_dot_of_digits digits]; decide, c, hc, digits c hc⟩
  | point whole frac digits nonempty =>
      obtain ⟨c, hc⟩ := List.exists_mem_of_ne_nil _ nonempty
      have hwhole := count_dot_of_digits fun c hc => digits c (List.mem_append_left _ hc)
      have hfrac := count_dot_of_digits fun c hc => digits c (List.mem_append_right _ hc)
      refine ⟨?_, c, ?_, digits c hc⟩
      · rw [List.count_append, List.count_cons_self, hwhole, hfrac]
      · rcases List.mem_append.1 hc with hc | hc
        · exact List.mem_append_left _ hc
        · exact List.mem_append_right _ (List.mem_cons_of_mem _ hc)

theorem Proper.literal {num : Text} (h : Proper num) (hnum : ∀ c ∈ num, digitOrDot c = true) :
    ∃ q, Literal num q := by
  obtain ⟨hcount, c, hc, hdigit⟩ := h
  by_cases hdot : '.' ∈ num
  · obtain ⟨whole, frac, rfl⟩ := List.append_of_mem hdot
    rw [List.count_append, List.count_cons_self] at hcount
    have hwhole : '.' ∉ whole := List.count_eq_zero.1 (by omega)
    have hfrac : '.' ∉ frac := List.count_eq_zero.1 (by omega)
    refine ⟨_, .point whole frac (fun d hd => ?_) (List.ne_nil_of_mem (a := c) ?_)⟩
    · rcases List.mem_append.1 hd with hd | hd
      · exact isDigit_of_digitOrDot (hnum d (List.mem_append_left _ hd))
          fun heq => hwhole (heq ▸ hd)
      · exact isDigit_of_digitOrDot
          (hnum d (List.mem_append_right _ (List.mem_cons_of_mem _ hd)))
          fun heq => hfrac (heq ▸ hd)
    · rcases List.mem_append.1 hc with hc | hc
      · exact List.mem_append_left _ hc
      · rcases List.mem_cons.1 hc with rfl | hc
        · exact absurd rfl (ne_dot_of_isDigit hdigit)
        · exact List.mem_append_right _ hc
  · exact ⟨_, .whole num (fun d hd => isDigit_of_digitOrDot (hnum d hd)
      fun heq => hdot (heq ▸ hd)) (List.ne_nil_of_mem hc)⟩

theorem takeWhile_point {whole frac : Text} (h : ∀ c ∈ whole, c.isDigit = true) :
    (whole ++ '.' :: frac).takeWhile Char.isDigit = whole := by
  rw [List.takeWhile_append_of_pos h, List.takeWhile_cons_of_neg (by decide), List.append_nil]

theorem dropWhile_point {whole frac : Text} (h : ∀ c ∈ whole, c.isDigit = true) :
    (whole ++ '.' :: frac).dropWhile Char.isDigit = '.' :: frac := by
  rw [List.dropWhile_append_of_pos h, List.dropWhile_cons_of_neg (by decide)]

/-- A literal is read in full. -/
theorem Literal.parseFloat {num : Text} {q : ℚ} (h : Literal num q) :
    parseFloat num = .ofRat q := by
  cases h with
  | whole _ digits nonempty =>
      have htake : num.takeWhile Char.isDigit = num := List.takeWhile_eq_self_iff.2 digits
      have hdrop : num.dropWhile Char.isDigit = [] := List.dropWhile_eq_nil_iff.2 digits
      simp only [Units.parseFloat, htake, hdrop, List.append_nil, if_neg nonempty,
        List.length_nil, pow_zero, div_one]
  | point whole frac digits nonempty =>
      have hwhole : ∀ c ∈ whole, c.isDigit = true := fun c hc =>
        digits c (List.mem_append_left _ hc)
      have hmore : frac.takeWhile Char.isDigit = frac :=
        List.takeWhile_eq_self_iff.2 fun c hc => digits c (List.mem_append_right _ hc)
      simp only [Units.parseFloat, takeWhile_point hwhole, dropWhile_point hwhole, hmore,
        if_neg nonempty]

/-- The value of a text with at most one dot. -/
def literalValue (num : Text) : ℚ :=
  decimal (num.filter Char.isDigit) / 10 ^ (num.dropWhile Char.isDigit).tail.length

theorem Literal.eq_literalValue {num : Text} {q : ℚ} (h : Literal num q) :
    q = literalValue num := by
  cases h with
  | whole _ digits nonempty =>
      have hdrop : num.dropWhile Char.isDigit = [] := List.dropWhile_eq_nil_iff.2 digits
      rw [literalValue, hdrop, List.filter_eq_self.2 digits, List.tail_nil, List.length_nil,
        pow_zero, div_one]
  | point whole frac digits nonempty =>
      have hwhole : ∀ c ∈ whole, c.isDigit = true := fun c hc =>
        digits c (List.mem_append_left _ hc)
      have hfrac : ∀ c ∈ frac, c.isDigit = true := fun c hc =>
        digits c (List.mem_append_right _ hc)
      rw [literalValue, dropWhile_point hwhole, List.tail_cons, List.filter_append,
        List.filter_cons_of_neg (by decide), List.filter_eq_self.2 hwhole,
        List.filter_eq_self.2 hfrac]

/-! ## The regular expression -/

theorem isLetter_range {c : Char} (h : isLetter c = true) : 97 ≤ c.toNat ∧ c.toNat ≤ 122 := by
  simpa [isLetter, Char.le_def, UInt32.le_iff_toNat_le] using h

theorem digitOrDot_range {c : Char} (h : digitOrDot c = true) :
    46 ≤ c.toNat ∧ c.toNat ≤ 57 := by
  rcases Bool.or_eq_true_iff.1 h with h | h
  · have hrange : 48 ≤ c.toNat ∧ c.toNat ≤ 57 := by
      simpa [Char.isDigit, UInt32.le_iff_toNat_le] using h
    omega
  · rw [beq_iff_eq.1 h]
    decide

theorem isWhiteSpace_range {c : Char} (h : isWhiteSpace c = true) :
    c.toNat ≤ 32 ∨ 160 ≤ c.toNat := by
  simp only [isWhiteSpace, Bool.or_eq_true, Bool.and_eq_true, decide_eq_true_eq,
    beq_iff_eq] at h
  omega

/-- What the regular expression accepts, and its groups. -/
theorem matchUnit_eq_some_iff {s num unit : Text} :
    matchUnit s = some (num, unit) ↔ ∃ blanks, s = num ++ (blanks ++ unit) ∧ num ≠ [] ∧
      (∀ c ∈ num, digitOrDot c = true) ∧ (∀ c ∈ blanks, isWhiteSpace c = true) ∧
      ∀ c ∈ unit, isLetter c = true := by
  constructor
  · intro h
    obtain ⟨hnum, h⟩ := Option.ite_none_left_eq_some.1 h
    obtain ⟨hunit, h⟩ := Option.ite_none_right_eq_some.1 h
    obtain ⟨rfl, rfl⟩ := Prod.mk.inj (Option.some.inj h)
    refine ⟨(s.dropWhile digitOrDot).takeWhile isWhiteSpace, ?_, hnum,
      fun c hc => List.mem_takeWhile_imp hc, fun c hc => List.mem_takeWhile_imp hc,
      List.all_eq_true.1 hunit⟩
    rw [List.takeWhile_append_dropWhile, List.takeWhile_append_dropWhile]
  · rintro ⟨blanks, rfl, hnonempty, hnum, hblanks, hunit⟩
    have hstop : ∀ c ∈ blanks ++ unit, ¬ digitOrDot c = true := by
      intro c hc hdigit
      have hdigit := digitOrDot_range hdigit
      rcases List.mem_append.1 hc with hc | hc
      · have hspace := isWhiteSpace_range (hblanks c hc)
        omega
      · have hletter := isLetter_range (hunit c hc)
        omega
    have hletters : ∀ c ∈ unit, ¬ isWhiteSpace c = true := by
      intro c hc hspace
      have hspace := isWhiteSpace_range hspace
      have hletter := isLetter_range (hunit c hc)
      omega
    have htake : (num ++ (blanks ++ unit)).takeWhile digitOrDot = num := by
      rw [List.takeWhile_append_of_pos hnum,
        List.takeWhile_eq_nil_iff.2 fun _ => hstop _ (List.getElem_mem _), List.append_nil]
    have hdrop : (num ++ (blanks ++ unit)).dropWhile digitOrDot = blanks ++ unit := by
      rw [List.dropWhile_append_of_pos hnum]
      exact List.dropWhile_eq_self_iff.2 fun _ => hstop _ (List.getElem_mem _)
    have hblank : (blanks ++ unit).dropWhile isWhiteSpace = unit := by
      rw [List.dropWhile_append_of_pos hblanks]
      exact List.dropWhile_eq_self_iff.2 fun _ => hletters _ (List.getElem_mem _)
    rw [matchUnit]
    simp only [htake, hdrop, hblank, if_neg hnonempty, if_pos (List.all_eq_true.2 hunit)]

/-! ## Rounding -/

/-- The product in doubles is finite, and no half-integer lies between it and the exact one. -/
def Accurate (q : ℚ) (mult : Nat) : Prop :=
  ∃ x y, Double.ofRat q = some x ∧ Double.ofRat (x * mult) = some y ∧
    ∀ k : ℤ, (k : ℚ) - 1 / 2 ≤ y ↔ (k : ℚ) - 1 / 2 ≤ q * mult

theorem floor_eq_floor_iff {x y : ℚ} : ⌊x⌋ = ⌊y⌋ ↔ ∀ k : ℤ, (k : ℚ) ≤ x ↔ (k : ℚ) ≤ y := by
  constructor
  · intro h k
    rw [← Int.le_floor, h, Int.le_floor]
  · intro h
    exact le_antisymm (Int.le_floor.2 ((h _).1 (Int.floor_le x)))
      (Int.le_floor.2 ((h _).2 (Int.floor_le y)))

theorem accurate_iff {q : ℚ} (hq : 0 ≤ q) (mult : Nat) :
    Accurate q mult ↔ mathRound ((Number.ofRat q).mul (.finite mult)) =
      .finite (⌊q * mult + 1 / 2⌋₊ : Nat) := by
  have hexact : ((⌊q * mult + 1 / 2⌋₊ : Nat) : ℚ) = (⌊q * mult + 1 / 2⌋ : ℤ) :=
    natCast_floor_eq_intCast_floor (by positivity)
  rw [Accurate, Number.ofRat]
  cases hx : Double.ofRat q with
  | none =>
      have hround : mathRound ((Number.infinite false).mul (.finite mult)) ≠
          .finite (⌊q * mult + 1 / 2⌋₊ : Nat) := by
        rw [Number.mul]
        split <;> exact fun h => by cases h
      refine ⟨?_, fun h => absurd h hround⟩
      rintro ⟨x, -, hnone, -⟩
      cases hnone
  | some x =>
      rw [Number.mul, Number.ofRat]
      cases hy : Double.ofRat (x * mult) with
      | none =>
          refine ⟨?_, fun h => by cases h⟩
          rintro ⟨_, y, hsome, hnone, -⟩
          obtain rfl := Option.some.inj hsome
          rw [hy] at hnone
          cases hnone
      | some y =>
          rw [mathRound, hexact, Number.finite.injEq, Int.cast_inj, floor_eq_floor_iff]
          simp only [← sub_le_iff_le_add]
          constructor
          · rintro ⟨_, _, hsome, hsome', h⟩
            obtain rfl := Option.some.inj hsome
            obtain rfl := Option.some.inj (hy.symm.trans hsome')
            exact h
          · exact fun h => ⟨x, y, rfl, hy, h⟩

theorem accurate_natCast {n mult : Nat} (hn : n ≤ 2 ^ 53) (hmult : n * mult ≤ 2 ^ 53) :
    Accurate n mult := by
  refine ⟨n, (n * mult : Nat), Double.ofRat_natCast hn, ?_, fun k => ?_⟩
  · rw [← Nat.cast_mul]
    exact Double.ofRat_natCast hmult
  · rw [Nat.cast_mul]

theorem abs_sub_le_of_rounded {x p y small tiny : ℚ}
    (hx : |x - p| ≤ p / 2 ^ 53 + small / 2 ^ 22) (hy : |y - x| ≤ x / 2 ^ 53 + tiny)
    (htiny : tiny ≤ small / 2 ^ 75) (hp : 0 ≤ p) (hsmall : 0 ≤ small) :
    |y - p| ≤ p / 2 ^ 51 + small := by
  obtain ⟨hx₁, hx₂⟩ := abs_le.1 hx
  obtain ⟨hy₁, hy₂⟩ := abs_le.1 hy
  norm_num at hx₁ hx₂ hy₁ hy₂ htiny ⊢
  rw [abs_le]
  constructor <;> linarith

theorem le_iff_le_of_far {h y p far : ℚ} (hy : |y - p| ≤ far) (hfar : far < |h - p|) :
    h ≤ y ↔ h ≤ p := by
  obtain ⟨hy₁, hy₂⟩ := abs_le.1 hy
  constructor
  · intro hle
    by_contra hlt
    rw [abs_of_pos (by linarith)] at hfar
    linarith
  · intro hle
    rw [abs_of_nonpos (by linarith)] at hfar
    linarith

/-- Away from the half-integers, the double product is good enough. -/
theorem accurate_of_far {q : ℚ} {mult : Nat} (hq : 0 ≤ q) (hpos : 0 < mult)
    (hmult : mult ≤ 2 ^ 53) (hlimit : q * mult ≤ 2 ^ 1022)
    (hfar : ∀ k : ℤ, q * mult / 2 ^ 51 + (1 / 2) ^ 1000 < |(k : ℚ) - 1 / 2 - q * mult|) :
    Accurate q mult := by
  have hone : (1 : ℚ) ≤ mult := by exact_mod_cast hpos
  have hmult' : (mult : ℚ) ≤ 2 ^ 53 := by exact_mod_cast hmult
  have hsmall : (0 : ℚ) ≤ (1 / 2) ^ 1000 := pow_nonneg (by norm_num) _
  have htiny : (1 / 2 : ℚ) ^ 1075 = (1 / 2) ^ 1000 / 2 ^ 75 := by
    rw [pow_add (1 / 2 : ℚ) 1000 75, one_div_pow 2 75, mul_one_div]
  obtain ⟨x, hx, hx0, hxq⟩ := Double.exists_ofRat hq
    ((le_mul_of_one_le_right hq hone).trans (hlimit.trans (pow_le_pow_right₀ one_le_two
      (by norm_num))))
  have hxp : |x * mult - q * mult| ≤ q * mult / 2 ^ 53 + (1 / 2) ^ 1000 / 2 ^ 22 := by
    rw [← sub_mul, abs_mul, Nat.abs_cast]
    calc |x - q| * mult ≤ (q / 2 ^ 53 + (1 / 2) ^ 1075) * mult := by gcongr
      _ = q * mult / 2 ^ 53 + (1 / 2) ^ 1000 / 2 ^ 75 * mult := by
          rw [htiny, add_mul, div_mul_eq_mul_div]
      _ ≤ q * mult / 2 ^ 53 + (1 / 2) ^ 1000 / 2 ^ 75 * 2 ^ 53 := by gcongr
      _ = q * mult / 2 ^ 53 + (1 / 2) ^ 1000 / 2 ^ 22 := by
          generalize (1 / 2 : ℚ) ^ 1000 = small
          ring
  have hlimit' : x * mult ≤ 2 ^ 1023 := by
    have hsmall' : (1 / 2 : ℚ) ^ 1000 / 2 ^ 22 ≤ 1 / 2 :=
      (div_le_self hsmall (by norm_num)).trans
        (pow_le_of_le_one (by norm_num) (by norm_num) (by norm_num))
    rw [pow_succ' (2 : ℚ) 1022]
    exact (Double.lt_of_near hxp hlimit hsmall' (one_le_pow₀ one_le_two)).le
  obtain ⟨y, hy, -, hyx⟩ := Double.exists_ofRat (mul_nonneg hx0 (Nat.cast_nonneg mult)) hlimit'
  have hyp := abs_sub_le_of_rounded hxp hyx htiny.le (by positivity) hsmall
  exact ⟨x, y, hx, hy, fun k => le_iff_le_of_far hyp (hfar k)⟩

/-! ## Accepted texts -/

section Accepted

variable (lowercase : Text → Text) (numberText : Number → Text) (table : UnitTable)
  (kind : Kind)

/-- What the function returns for a text. -/
theorem parseUnit_string_eq_ok_iff {s : Text} {r : Option Number} :
    parseUnit lowercase numberText (.string s) table kind = .ok r ↔
      ∃ num unit operand, matchUnit (lowercase (jsTrim s)) = some (num, unit) ∧
        table.get (kind.unit unit) = some operand ∧
        r = some (mathRound ((parseFloat num).mul operand)) := by
  rw [parseUnit]
  constructor
  · intro h
    split at h
    · cases h
    · next m hmatch =>
        split at h
        · cases h
        · next operand hget =>
            obtain rfl := Except.ok.inj h
            exact ⟨m.1, m.2, operand, hmatch, hget, rfl⟩
  · rintro ⟨num, unit, operand, hmatch, hget, rfl⟩
    rw [hmatch]
    dsimp only
    rw [hget]

/-- A literal, and a unit of the table or none: the value they stand for. -/
def Stands (text : Text) (r : Option Number) : Prop :=
  ∃ num blanks unit q mult, text = num ++ (blanks ++ unit) ∧ Literal num q ∧
    (∀ c ∈ blanks, isWhiteSpace c = true) ∧
    table.entries.lookup (kind.unit unit) = some mult ∧
    r = some (.finite (⌊q * mult + 1 / 2⌋₊ : Nat))

/-- A text is refused, or it is a literal and a unit and has the value these stand for. -/
def Exact (s : Text) : Prop :=
  ∀ r, parseUnit lowercase numberText (.string s) table kind = .ok r →
    Stands table kind (lowercase (jsTrim s)) r

theorem isLetter_of_lookup {unit : Text} {mult : Nat}
    (h : table.entries.lookup (kind.unit unit) = some mult) :
    ∀ c ∈ unit, isLetter c = true := by
  rw [Kind.unit] at h
  split at h
  case isTrue hnil =>
    rw [hnil]
    exact fun c hc => absurd hc List.not_mem_nil
  case isFalse =>
    obtain ⟨before, after, hentries, -⟩ := List.lookup_eq_some_iff.1 h
    refine table.letters (unit, mult) ?_
    rw [hentries]
    exact List.mem_append_right _ (List.mem_cons_self ..)

variable {table kind}

theorem get_of_lookup {unit : Text} {mult : Nat} (h : table.entries.lookup unit = some mult) :
    table.get unit = some (.finite mult) := by
  rw [UnitTable.get, h]

/-- The decomposition is that of the regular expression. -/
theorem stands_iff {text num unit : Text} (hmatch : matchUnit text = some (num, unit))
    {r : Option Number} :
    Stands table kind text r ↔ ∃ mult, Proper num ∧
      table.entries.lookup (kind.unit unit) = some mult ∧
      r = some (.finite (⌊literalValue num * mult + 1 / 2⌋₊ : Nat)) := by
  obtain ⟨blanks, htext, hnonempty, hnum, hblanks, hunit⟩ := matchUnit_eq_some_iff.1 hmatch
  constructor
  · rintro ⟨num', blanks', unit', q, mult, htext', hliteral, hblanks', hlookup, hr⟩
    have hmatch' := matchUnit_eq_some_iff.2 ⟨blanks', htext', hliteral.nonempty,
      hliteral.forall_digitOrDot, hblanks', isLetter_of_lookup table kind hlookup⟩
    obtain ⟨rfl, rfl⟩ := Prod.mk.inj (Option.some.inj (hmatch.symm.trans hmatch'))
    rw [hliteral.eq_literalValue] at hr
    exact ⟨mult, hliteral.proper, hlookup, hr⟩
  · rintro ⟨mult, hproper, hlookup, hr⟩
    obtain ⟨q, hliteral⟩ := hproper.literal hnum
    rw [← hliteral.eq_literalValue] at hr
    exact ⟨num, blanks, unit, q, mult, htext, hliteral, hblanks, hlookup, hr⟩

theorem Proper.accurate_iff {num : Text} (h : Proper num)
    (hnum : ∀ c ∈ num, digitOrDot c = true) (mult : Nat) :
    Accurate (literalValue num) mult ↔
      mathRound ((parseFloat num).mul (.finite mult)) =
        .finite (⌊literalValue num * mult + 1 / 2⌋₊ : Nat) := by
  obtain ⟨q, hliteral⟩ := h.literal hnum
  rw [hliteral.parseFloat, ← hliteral.eq_literalValue]
  exact Units.accurate_iff hliteral.nonneg mult

/-- An accepted text stands for its exact value just when it has a digit, at most one dot and a
unit of the table, and the double product rounds as the exact one does. -/
theorem parseUnit_exact_iff (s : Text) :
    Exact lowercase numberText table kind s ↔
      ∀ num unit, matchUnit (lowercase (jsTrim s)) = some (num, unit) →
        table.get (kind.unit unit) ≠ none →
        ∃ mult, Proper num ∧ table.entries.lookup (kind.unit unit) = some mult ∧
          Accurate (literalValue num) mult := by
  constructor
  · intro h num unit hmatch hget
    obtain ⟨operand, hoperand⟩ := Option.ne_none_iff_exists'.1 hget
    obtain ⟨mult, hproper, hlookup, hr⟩ := (stands_iff hmatch).1
      (h _ ((parseUnit_string_eq_ok_iff ..).2 ⟨num, unit, operand, hmatch, hoperand, rfl⟩))
    obtain rfl := Option.some.inj (hoperand.symm.trans (get_of_lookup hlookup))
    obtain ⟨-, -, -, hnum, -⟩ := matchUnit_eq_some_iff.1 hmatch
    exact ⟨mult, hproper, hlookup, (hproper.accurate_iff hnum mult).2 (Option.some.inj hr)⟩
  · intro h r hr
    obtain ⟨num, unit, operand, hmatch, hoperand, rfl⟩ := (parseUnit_string_eq_ok_iff ..).1 hr
    obtain ⟨mult, hproper, hlookup, haccurate⟩ :=
      h num unit hmatch (Option.ne_none_iff_exists'.2 ⟨operand, hoperand⟩)
    obtain rfl := Option.some.inj (hoperand.symm.trans (get_of_lookup hlookup))
    obtain ⟨-, -, -, hnum, -⟩ := matchUnit_eq_some_iff.1 hmatch
    exact (stands_iff hmatch).2 ⟨mult, hproper, hlookup,
      congrArg some ((hproper.accurate_iff hnum mult).1 haccurate)⟩

end Accepted

theorem parse_dots : parseBytes lower (fun _ => []) (.string "1.2.3mb".toList) =
    .ok (some (.finite 1258291)) := by
  have hvalue : mathRound ((parseFloat "1.2.3".toList).mul (.finite (1024 ^ 2 : Nat))) =
      .finite 1258291 := by decide +kernel
  exact (parseUnit_string_eq_ok_iff ..).2
    ⟨"1.2.3".toList, "mb".toList, .finite (1024 ^ 2 : Nat), by decide, rfl, by rw [hvalue]⟩

/-- `1.2.3mb` is taken for `1.2mb`; of a dot and of `5constructor` comes no number; and the
double product of `0.5005s` is just below the half-integer that it should be. -/
theorem not_exact_dots :
    (¬ ∀ s, Exact lower (fun _ => []) SIZE .bytes s) ∧
    parseBytes lower (fun _ => []) (.string "1.2.3mb".toList) = .ok (some (.finite 1258291)) ∧
    parseBytes lower (fun _ => []) (.string ".".toList) = .ok (some .nan) ∧
    parseBytes lower (fun _ => []) (.string "5constructor".toList) = .ok (some .nan) ∧
    parseDuration lower (fun _ => []) (.string "0.5005s".toList) =
      .ok (some (.finite 500)) := by
  refine ⟨fun h => ?_, parse_dots, ?_, ?_, ?_⟩
  · have hmatch : matchUnit (lower (jsTrim "1.2.3mb".toList)) =
        some ("1.2.3".toList, "mb".toList) := by decide
    obtain ⟨mult, hproper, -⟩ := (stands_iff hmatch).1 (h _ _ parse_dots)
    exact absurd hproper (by decide)
  · have hvalue : (parseFloat ".".toList).mul (.finite 1) = .nan := by decide +kernel
    exact (parseUnit_string_eq_ok_iff ..).2
      ⟨".".toList, [], .finite 1, by decide, by decide +kernel, by rw [hvalue]; rfl⟩
  · have hvalue : (parseFloat "5".toList).mul .nan = .nan := by decide +kernel
    exact (parseUnit_string_eq_ok_iff ..).2
      ⟨"5".toList, "constructor".toList, .nan, by decide, by decide, by rw [hvalue]; rfl⟩
  · have hvalue : mathRound ((parseFloat "0.5005".toList).mul (.finite (1000 : Nat))) =
        .finite 500 := by decide +kernel
    exact (parseUnit_string_eq_ok_iff ..).2
      ⟨"0.5005".toList, "s".toList, .finite (1000 : Nat), by decide, rfl, by rw [hvalue]⟩

end Units
end OxideHttp
