import OxideHttp.AccessLog
import OxideHttp.Lib.Counters
import OxideHttp.Lib.Shortest
import Mathlib.Algebra.BigOperators.Ring.Finset
import Mathlib.Data.BitVec
import Mathlib.Data.Fin.VecNotation
import Mathlib.Tactic.FinCases
import Mathlib.Tactic.Positivity

/-!
# The metrics registry (`src/metrics.rs`)

Every atomic of `Metrics` is a word of 64 bits under its own name, and a method of `Metrics` is
the additions that it performs, one `fetch_add` after another.  The methods run at any moment
and in any number; a scrape is one run of `encode`, which loads the atomics one after another.
Durations are numbers of nanoseconds.

Results.
* `asSecsF64_le_iff`: comparing doubles puts a request into the bucket of its exact duration.
* `histogram_exact`: where no method is half done, every bucket counts the requests that took
  at most as long as its bound says, and the totals agree.
-/

namespace OxideHttp
namespace Metrics

open Counters Transition

/-- Methods with their own counters; everything else falls into `other`. -/
def METHODS : Fin 9 → List Char :=
  ![['G', 'E', 'T'], ['P', 'O', 'S', 'T'], ['P', 'U', 'T'], ['P', 'A', 'T', 'C', 'H'],
    ['D', 'E', 'L', 'E', 'T', 'E'], ['H', 'E', 'A', 'D'], ['O', 'P', 'T', 'I', 'O', 'N', 'S'],
    ['Q', 'U', 'E', 'R', 'Y'], ['o', 't', 'h', 'e', 'r']]

def OTHER_METHOD : Fin 9 := 8

/-- Status classes. -/
def CLASSES : Fin 5 → List Char :=
  ![['1', 'x', 'x'], ['2', 'x', 'x'], ['3', 'x', 'x'], ['4', 'x', 'x'], ['5', 'x', 'x']]

/-- Bounds of the latency histogram in seconds. -/
def BUCKETS : Fin 12 → ℚ :=
  ![1 / 1000, 1 / 200, 1 / 100, 1 / 40, 1 / 20, 1 / 10, 1 / 4, 1 / 2, 1, 5 / 2, 5, 10]

/-- The bound as a double. -/
def edge (i : Fin 12) : ℚ := Double.nearest (BUCKETS i)

/-- `method_index`. -/
def methodIndex (method : List Char) : Fin 9 :=
  ((List.finRange 9).find? fun i => METHODS i = method).getD OTHER_METHOD

/-- `class_index`. -/
def classIndex (status : Nat) : Fin 5 :=
  match status / 100 with
  | 1 => 0
  | 2 => 1
  | 3 => 2
  | 4 => 3
  | _ => 4

/-- The atomics of `Metrics`. -/
inductive Cell where
  | requests (method : Fin 9) (status : Fin 5)
  | durationBuckets (i : Fin 12)
  | durationSumMicros
  | durationCount
  | inFlight
  | connections
  | requestBytes
  | responseBytes
  | cacheHits
  | cacheMisses
  deriving DecidableEq, Repr

/-- The methods of `Metrics` that write. -/
inductive Op where
  | connOpened
  | connClosed
  | requestStarted
  | addRequestBytes (n : Nat)
  | addResponseBytes (n : Nat)
  | cacheHit
  | cacheMiss
  | requestFinished (method : List Char) (status elapsed : Nat)
  deriving DecidableEq, Repr

/-- The bucket that `request_finished` bumps: the first one that is wide enough. -/
def bucketOf (elapsed : Nat) : Option (Fin 12) :=
  (List.finRange 12).find? fun i => AccessLog.asSecsF64 elapsed ≤ edge i

def Op.bucket : Op → Option (Fin 12)
  | .requestFinished _ _ elapsed => bucketOf elapsed
  | _ => none

/-- The additions of a method, in its order. -/
def Op.adds {ν : Type} [Ring ν] : Op → List (Cell × ν)
  | .connOpened => [(.connections, 1)]
  | .connClosed => [(.connections, -1)]
  | .requestStarted => [(.inFlight, 1)]
  | .addRequestBytes n => [(.requestBytes, (n : ν))]
  | .addResponseBytes n => [(.responseBytes, (n : ν))]
  | .cacheHit => [(.cacheHits, 1)]
  | .cacheMiss => [(.cacheMisses, 1)]
  | .requestFinished method status elapsed =>
      (.inFlight, -1) :: (.requests (methodIndex method) (classIndex status), 1) ::
        ((bucketOf elapsed).toList.map fun i => (.durationBuckets i, 1)) ++
        [(.durationSumMicros, ((elapsed / 1000 : Nat) : ν)), (.durationCount, 1)]

/-- The loads of `encode`, in its order. -/
def loads : List Cell :=
  ((List.finRange 9).flatMap fun m => (List.finRange 5).map fun c => .requests m c) ++
    ((List.finRange 12).map .durationBuckets ++
      [.durationCount, .durationSumMicros, .inFlight, .connections, .requestBytes,
        .responseBytes, .cacheHits, .cacheMisses])

/-- What happens to the registry. -/
inductive Event where
  /-- a method is called -/
  | call (op : Op)
  /-- call `i` performs its next `fetch_add` -/
  | add (i : Nat)
  /-- `encode` is called -/
  | scrape
  /-- scrape `j` performs its next load -/
  | load (j : Nat)
  deriving DecidableEq, Repr

def Event.label {ν : Type} [Ring ν] : Event → Counters.Label Cell ν
  | .call op => .call op.adds
  | .add i => .add i
  | .scrape => .read loads
  | .load j => .load j

/-- The methods that are called. -/
def Event.op : Event → Option Op
  | .call op => some op
  | _ => none

def opsOf (es : List Event) : List Op := es.filterMap Event.op

/-- The registry, with the calls and the scrapes so far. -/
abbrev Registry := Counters.State Cell (BitVec 64)

def runEvents (es : List Event) : Option Registry :=
  run Counters.step State.init (es.map Event.label)

/-- `cumulative` up to a bound, from the buckets as they were loaded. -/
def cumulative {ν : Type} [AddMonoid ν] (load : Cell → ν) (i : Fin 12) : ν :=
  (((List.finRange 12).take (i + 1)).map fun j => load (.durationBuckets j)).sum

/-- A request has finished. -/
def Op.isFinished : Op → Bool
  | .requestFinished .. => true
  | _ => false

/-- It took at most so many seconds. -/
def Op.within (seconds : ℚ) : Op → Bool
  | .requestFinished _ _ elapsed => (elapsed : ℚ) / 10 ^ 9 ≤ seconds
  | _ => false

/-- It is counted under this method and this class. -/
def Op.isCounted (m : Fin 9) (c : Fin 5) : Op → Bool
  | .requestFinished method status _ => methodIndex method = m && classIndex status = c
  | _ => false

/-- Whole microseconds. -/
def Op.micros : Op → Nat
  | .requestFinished _ _ elapsed => elapsed / 1000
  | _ => 0

/-! ## Durations as doubles -/

theorem near_nearest {q : ℚ} (hq : 0 ≤ q) (hle : q ≤ 16) :
    |Double.nearest q - q| ≤ 1 / 2 ^ 48 := by
  rcases hq.eq_or_lt with rfl | hpos
  · rw [Double.nearest_zero]
    norm_num
  · have htiny : (1 / 2 : ℚ) ^ 1075 ≤ (1 / 2) ^ 50 :=
      pow_le_pow_of_le_one (by norm_num) (by norm_num) (by norm_num)
    have hnear := Double.abs_nearest_sub_le hpos
    generalize (1 / 2 : ℚ) ^ 1075 = tiny at htiny hnear
    norm_num at htiny hnear ⊢
    linarith

/-- A number that is not small stays so. -/
theorem nearest_lower {q : ℚ} (hq : 1 ≤ q) : q - q / 2 ^ 50 ≤ Double.nearest q := by
  have htiny : (1 / 2 : ℚ) ^ 1075 ≤ (1 / 2) ^ 53 :=
    pow_le_pow_of_le_one (by norm_num) (by norm_num) (by norm_num)
  have hnear := (abs_le.1 (Double.abs_nearest_sub_le (by linarith : 0 < q))).1
  generalize (1 / 2 : ℚ) ^ 1075 = tiny at htiny hnear
  norm_num at htiny hnear ⊢
  linarith

/-- A duration of whole nanoseconds, in seconds. -/
theorem seconds_split (n : Nat) :
    (n : ℚ) / 10 ^ 9 = (n / 1000000000 : Nat) + ((n % 1000000000 : Nat) : ℚ) / 1000000000 := by
  have hn : (n : ℚ) = (n / 1000000000 : Nat) * 1000000000 + (n % 1000000000 : Nat) := by
    exact_mod_cast (Nat.div_add_mod' n 1000000000).symm
  calc (n : ℚ) / 10 ^ 9
      = ((n / 1000000000 : Nat) * 1000000000 + (n % 1000000000 : Nat)) / 10 ^ 9 := by rw [← hn]
    _ = _ := by ring

theorem near_asSecsF64 {n : Nat} (hn : n < 11 * 10 ^ 9) :
    |AccessLog.asSecsF64 n - n / 10 ^ 9| ≤ 1 / 2 ^ 46 := by
  have hs : n / 1000000000 ≤ 10 := by omega
  have hwhole : Double.nearest ((n / 1000000000 : Nat) : ℚ) = (n / 1000000000 : Nat) :=
    Double.nearest_natCast (hs.trans (by norm_num))
  have hs' : ((n / 1000000000 : Nat) : ℚ) ≤ 10 := by exact_mod_cast hs
  have hs0 : (0 : ℚ) ≤ (n / 1000000000 : Nat) := Nat.cast_nonneg _
  have hf0 : (0 : ℚ) ≤ ((n % 1000000000 : Nat) : ℚ) / 1000000000 := by positivity
  have hf : ((n % 1000000000 : Nat) : ℚ) / 1000000000 ≤ 1 := by
    rw [div_le_one (by norm_num)]
    exact_mod_cast (Nat.mod_lt n (by norm_num)).le
  rw [seconds_split, AccessLog.asSecsF64, hwhole]
  generalize ((n / 1000000000 : Nat) : ℚ) = s at hs' hs0
  generalize ((n % 1000000000 : Nat) : ℚ) / 1000000000 = f at hf0 hf
  have hfrac := abs_le.1 (near_nearest hf0 (by linarith))
  have hfrac0 := Double.nearest_nonneg hf0
  have hsum := abs_le.1 (near_nearest (q := s + Double.nearest f) (by linarith) (by
    norm_num at hfrac
    linarith))
  norm_num at hfrac hsum
  rw [abs_le]
  constructor <;> norm_num <;> linarith

/-- From eleven seconds on no bucket is wide enough. -/
theorem asSecsF64_large {n : Nat} (hn : 11 * 10 ^ 9 ≤ n) : 21 / 2 ≤ AccessLog.asSecsF64 n := by
  have hs : (11 : ℚ) ≤ (n / 1000000000 : Nat) := by
    have hle : 11 ≤ n / 1000000000 := by omega
    exact_mod_cast hle
  have hwhole := nearest_lower (q := (n / 1000000000 : Nat)) (by linarith)
  have hf0 : (0 : ℚ) ≤ ((n % 1000000000 : Nat) : ℚ) / 1000000000 := by positivity
  have hfrac0 := Double.nearest_nonneg hf0
  rw [AccessLog.asSecsF64]
  generalize ((n / 1000000000 : Nat) : ℚ) = s at hs hwhole
  generalize Double.nearest (((n % 1000000000 : Nat) : ℚ) / 1000000000) = f at hfrac0
  norm_num at hwhole
  have hsum := nearest_lower (q := Double.nearest s + f) (by linarith)
  norm_num at hsum
  linarith

/-- The bounds are whole nanoseconds. -/
def edgeNanos : Fin 12 → Nat :=
  ![1000000, 5000000, 10000000, 25000000, 50000000, 100000000, 250000000, 500000000, 1000000000,
    2500000000, 5000000000, 10000000000]

theorem edgeNanos_eq (i : Fin 12) : (edgeNanos i : ℚ) = BUCKETS i * 10 ^ 9 := by
  fin_cases i <;> norm_num [edgeNanos, BUCKETS]

theorem edgeNanos_le (i : Fin 12) : edgeNanos i ≤ 10 ^ 10 := by
  revert i
  decide

/-- A duration below one second has no whole part. -/
theorem asSecsF64_below {n : Nat} (hn : n < 1000000000) :
    AccessLog.asSecsF64 n = Double.nearest (n / 10 ^ 9) := by
  have hzero : Double.nearest ((0 : Nat) : ℚ) = 0 := by
    rw [Nat.cast_zero, Double.nearest_zero]
  rw [AccessLog.asSecsF64, Nat.div_eq_of_lt hn, Nat.mod_eq_of_lt hn, hzero, zero_add,
    Double.nearest_nearest (by positivity)]
  norm_num

theorem asSecsF64_whole (s : Nat) :
    AccessLog.asSecsF64 (s * 1000000000) = Double.nearest s := by
  rw [AccessLog.asSecsF64, Nat.mul_div_cancel _ (by norm_num), Nat.mul_mod_left, Nat.cast_zero,
    zero_div, Double.nearest_zero, add_zero, Double.nearest_nearest (Nat.cast_nonneg s)]

theorem nearest_half : Double.nearest (1 / 2) = 1 / 2 := by
  have h := Double.nearest_of_lt (z := 1) (k := -1) (by norm_num) (by norm_num) (by norm_num)
  norm_num at h ⊢
  exact h

theorem asSecsF64_half : AccessLog.asSecsF64 2500000000 = Double.nearest (5 / 2) := by
  have htwo : Double.nearest ((2 : Nat) : ℚ) = 2 := by
    rw [Double.nearest_natCast (by norm_num)]
    norm_num
  have hfrac : ((500000000 : Nat) : ℚ) / 1000000000 = 1 / 2 := by norm_num
  have hsplit : AccessLog.asSecsF64 2500000000 = Double.nearest
      (Double.nearest ((2 : Nat) : ℚ) + Double.nearest (((500000000 : Nat) : ℚ) / 1000000000)) := rfl
  rw [hsplit, htwo, hfrac, nearest_half]
  norm_num

/-- At the bound itself both sides are rounded alike. -/
theorem asSecsF64_edgeNanos (i : Fin 12) : AccessLog.asSecsF64 (edgeNanos i) = edge i := by
  have hbelow (h : edgeNanos i < 1000000000) : AccessLog.asSecsF64 (edgeNanos i) = edge i := by
    rw [asSecsF64_below h, edgeNanos_eq, mul_div_cancel_right₀ _ (by norm_num), edge]
  fin_cases i
  case «8» => exact asSecsF64_whole 1
  case «9» => exact asSecsF64_half
  case «10» => exact asSecsF64_whole 5
  case «11» => exact asSecsF64_whole 10
  all_goals exact hbelow (by decide)

/-- Comparing doubles tells exactly whether a duration is within a bound. -/
theorem asSecsF64_le_iff (n : Nat) (i : Fin 12) :
    AccessLog.asSecsF64 n ≤ edge i ↔ n ≤ edgeNanos i := by
  have hbucket : BUCKETS i = edgeNanos i / 10 ^ 9 := by
    rw [edgeNanos_eq, mul_div_cancel_right₀ _ (by norm_num)]
  have hle10 : (edgeNanos i : ℚ) ≤ 10000000000 := by exact_mod_cast edgeNanos_le i
  have hedge := abs_le.1 (near_nearest (q := BUCKETS i) (by rw [hbucket]; positivity)
    (by rw [hbucket]; norm_num; linarith))
  rw [← edge, hbucket] at hedge
  rcases Nat.lt_or_ge n (11 * 10 ^ 9) with hsmall | hlarge
  · have hnear := abs_le.1 (near_asSecsF64 hsmall)
    rcases lt_trichotomy n (edgeNanos i) with hlt | rfl | hgt
    · -- a nanosecond is more than all the rounding
      have hstep : (n : ℚ) + 1 ≤ edgeNanos i := by exact_mod_cast hlt
      refine iff_of_true ?_ hlt.le
      norm_num at hnear hedge ⊢
      linarith
    · exact iff_of_true (asSecsF64_edgeNanos i).le le_rfl
    · have hstep : (edgeNanos i : ℚ) + 1 ≤ n := by exact_mod_cast hgt
      refine iff_of_false ?_ (by omega)
      norm_num at hnear hedge ⊢
      linarith
  · have hfar := asSecsF64_large hlarge
    have hle := edgeNanos_le i
    refine iff_of_false ?_ (by omega)
    norm_num at hfar hedge ⊢
    linarith

/-! ## Buckets -/

theorem edgeNanos_mono {i j : Fin 12} (h : i ≤ j) : edgeNanos i ≤ edgeNanos j := by
  revert i j
  decide

theorem within_iff (n : Nat) (i : Fin 12) : (n : ℚ) / 10 ^ 9 ≤ BUCKETS i ↔ n ≤ edgeNanos i := by
  rw [div_le_iff₀ (by norm_num), ← edgeNanos_eq, Nat.cast_le]

/-- The bucket of a request is up to a bound just when the request is within it. -/
theorem bucket_le_iff (n : Nat) (i : Fin 12) :
    (∃ j, bucketOf n = some j ∧ j ≤ i) ↔ (n : ℚ) / 10 ^ 9 ≤ BUCKETS i := by
  rw [within_iff]
  constructor
  · rintro ⟨j, hj, hle⟩
    have hp := List.find?_some hj
    rw [decide_eq_true_iff, asSecsF64_le_iff] at hp
    exact hp.trans (edgeNanos_mono hle)
  · intro hn
    have hi : AccessLog.asSecsF64 n ≤ edge i := (asSecsF64_le_iff n i).2 hn
    cases hb : bucketOf n with
    | none =>
        have hnot := List.find?_eq_none.1 hb i (List.mem_finRange i)
        exact absurd (decide_eq_true hi) hnot
    | some j =>
        refine ⟨j, rfl, ?_⟩
        by_contra hlt
        obtain ⟨-, k, hk, hget, hbefore⟩ := List.find?_eq_some_iff_getElem.1 hb
        have hkj : k = j := by
          rw [List.getElem_finRange] at hget
          simpa using congrArg Fin.val hget
        have hnot := hbefore i (by omega)
        rw [List.getElem_finRange] at hnot
        simp [hi] at hnot

section Ring

variable {ν : Type} [Ring ν]

theorem sum_ite_eq_countP {α : Type} (p : α → Bool) (xs : List α) :
    (xs.map fun x => if p x then (1 : ν) else 0).sum = xs.countP p := by
  induction xs with
  | nil => simp
  | cons x xs ih =>
      rw [List.map_cons, List.sum_cons, ih, List.countP_cons]
      split <;> simp [add_comm]

theorem countP_take (b : Option (Fin 12)) (i : Fin 12) :
    ((List.finRange 12).take (i + 1)).countP (fun k => b = some k) =
      if ∃ j, b = some j ∧ j ≤ i then 1 else 0 := by
  cases b with
  | none => simp
  | some j =>
      revert i j
      decide

/-- A finished request adds one to the bucket that it is given. -/
theorem amount_bucket (op : Op) (k : Fin 12) :
    amount (.durationBuckets k) (op.adds : List (Cell × ν)) =
      if op.bucket = some k then 1 else 0 := by
  cases op with
  | requestFinished method status elapsed =>
      cases hb : bucketOf elapsed <;> simp [Op.adds, Op.bucket, hb]
  | connOpened | connClosed | requestStarted | addRequestBytes | addResponseBytes | cacheHit
  | cacheMiss => simp [Op.adds, Op.bucket]

theorem opBucket_le_iff (op : Op) (i : Fin 12) :
    (∃ j, op.bucket = some j ∧ j ≤ i) ↔ op.within (BUCKETS i) = true := by
  cases op with
  | requestFinished method status elapsed =>
      exact (bucket_le_iff elapsed i).trans decide_eq_true_iff.symm
  | connOpened | connClosed | requestStarted | addRequestBytes | addResponseBytes | cacheHit
  | cacheMiss => simp [Op.bucket, Op.within]

theorem cumulative_adds (op : Op) (i : Fin 12) :
    cumulative (fun k => amount k (op.adds : List (Cell × ν))) i =
      if op.within (BUCKETS i) then 1 else 0 := by
  have hcount := sum_ite_eq_countP (ν := ν) (fun k => decide (op.bucket = some k))
    ((List.finRange 12).take (i + 1))
  rw [countP_take, if_congr (opBucket_le_iff op i) rfl rfl] at hcount
  simp only [decide_eq_true_eq] at hcount
  simp only [cumulative, amount_bucket]
  rw [hcount]
  split <;> simp

theorem amount_count (op : Op) :
    amount .durationCount (op.adds : List (Cell × ν)) = if op.isFinished then 1 else 0 := by
  cases op with
  | requestFinished method status elapsed =>
      cases hb : bucketOf elapsed <;> simp [Op.adds, Op.isFinished, hb]
  | connOpened | connClosed | requestStarted | addRequestBytes | addResponseBytes | cacheHit
  | cacheMiss => simp [Op.adds, Op.isFinished]

theorem amount_requests (op : Op) (m : Fin 9) (c : Fin 5) :
    amount (.requests m c) (op.adds : List (Cell × ν)) = if op.isCounted m c then 1 else 0 := by
  cases op with
  | requestFinished method status elapsed =>
      cases hb : bucketOf elapsed <;> simp [Op.adds, Op.isCounted, hb]
  | connOpened | connClosed | requestStarted | addRequestBytes | addResponseBytes | cacheHit
  | cacheMiss => simp [Op.adds, Op.isCounted]

theorem amount_sum (op : Op) :
    amount .durationSumMicros (op.adds : List (Cell × ν)) = op.micros := by
  cases op with
  | requestFinished method status elapsed =>
      cases hb : bucketOf elapsed <;> simp [Op.adds, Op.micros, hb]
  | connOpened | connClosed | requestStarted | addRequestBytes | addResponseBytes | cacheHit
  | cacheMiss => simp [Op.adds, Op.micros]

theorem callsOf_label (es : List Event) :
    callsOf (es.map (Event.label (ν := ν))) = (opsOf es).map Op.adds := by
  induction es with
  | nil => rfl
  | cons e es ih =>
      cases e with
      | call op => exact congrArg (op.adds :: ·) ih
      | add | scrape | load => exact ih

theorem cumulative_sum {α : Type} (f : α → Cell → ν) (xs : List α) (i : Fin 12) :
    cumulative (fun k => (xs.map fun x => f x k).sum) i =
      (xs.map fun x => cumulative (f x) i).sum := by
  induction xs with
  | nil => simp only [cumulative, List.map_nil, List.sum_nil, List.map_const', List.sum_replicate,
      nsmul_zero]
  | cons x xs ih =>
      rw [List.map_cons, List.sum_cons, ← ih]
      simp only [cumulative, List.map_cons, List.sum_cons, List.sum_map_add]

/-- What the counters have where no method is half done. -/
theorem finished_counts {es : List Event} {t : Counters.State Cell ν}
    (hrun : run Counters.step State.init (es.map Event.label) = some t) (hdone : t.Finished) :
    (∀ i, cumulative t.cells i = ((opsOf es).countP (Op.within (BUCKETS i)) : Nat)) ∧
      t.cells .durationCount = ((opsOf es).countP Op.isFinished : Nat) ∧
      (∀ m c, t.cells (.requests m c) = ((opsOf es).countP (Op.isCounted m c) : Nat)) ∧
      t.cells .durationSumMicros = (((opsOf es).map Op.micros).sum : Nat) := by
  have hcells (k : Cell) : t.cells k = ((opsOf es).map fun op => amount k (op.adds : List _)).sum := by
    rw [cells_of_finished hrun hdone k, callsOf_label, List.map_map]
    rfl
  refine ⟨fun i => ?_, ?_, fun m c => ?_, ?_⟩
  · rw [funext hcells, cumulative_sum]
    simp only [cumulative_adds]
    exact sum_ite_eq_countP _ _
  · simp only [hcells, amount_count]
    exact sum_ite_eq_countP _ _
  · simp only [hcells, amount_requests]
    exact sum_ite_eq_countP _ _
  · simp only [hcells, amount_sum]
    rw [Nat.cast_list_sum, List.map_map]
    rfl

end Ring

/-! ## The histogram -/

theorem toNat_natCast (n : Nat) : ((n : BitVec 64)).toNat = n % 2 ^ 64 := by
  rw [BitVec.natCast_eq_ofNat, BitVec.toNat_ofNat]

/--
Where no method is half done, every bucket with those below it counts, up to the width of the
counters, the finished requests that took at most its bound; the requests by method and class,
the count and the sum are those of the same requests.
-/
theorem histogram_exact {es : List Event} {t : Registry} (hrun : runEvents es = some t)
    (hdone : t.Finished) :
    (∀ i, (cumulative t.cells i).toNat = (opsOf es).countP (Op.within (BUCKETS i)) % 2 ^ 64) ∧
      (t.cells .durationCount).toNat = (opsOf es).countP Op.isFinished % 2 ^ 64 ∧
      (∀ m c, (t.cells (.requests m c)).toNat = (opsOf es).countP (Op.isCounted m c) % 2 ^ 64) ∧
      (t.cells .durationSumMicros).toNat = ((opsOf es).map Op.micros).sum % 2 ^ 64 := by
  obtain ⟨hbuckets, hcount, hrequests, hsum⟩ := finished_counts hrun hdone
  refine ⟨fun i => ?_, ?_, fun m c => ?_, ?_⟩
  · rw [hbuckets, toNat_natCast]
  · rw [hcount, toNat_natCast]
  · rw [hrequests, toNat_natCast]
  · rw [hsum, toNat_natCast]

/-- Two requests whose additions are mixed; the second one took a nanosecond too long for the
first bucket. -/
def twoFinished : List Event :=
  [.call (.requestFinished ['G', 'E', 'T'] 200 1000000),
    .call (.requestFinished ['B', 'R', 'E', 'W'] 500 1000001), .add 0, .add 1, .add 1, .add 0,
    .add 0, .add 1, .add 1, .add 0, .add 0, .add 1]

theorem histogram_exact_two : ∃ t, runEvents twoFinished = some t ∧
    (cumulative t.cells 0).toNat = 1 ∧ (cumulative t.cells 1).toNat = 2 ∧
    (t.cells (.requests 8 4)).toNat = 1 := by
  have hsome : ((runEvents twoFinished).map fun t => t.calls.all fun c => c.todo.isEmpty) =
      some true := by decide +kernel
  obtain ⟨t, hrun, hdone⟩ := Option.map_eq_some_iff.1 hsome
  have hfinished : t.Finished := fun c hc => List.isEmpty_iff.1 (List.all_eq_true.1 hdone c hc)
  obtain ⟨hbuckets, -, hrequests, -⟩ := histogram_exact hrun hfinished
  refine ⟨t, hrun, ?_, ?_, ?_⟩
  · rw [hbuckets]
    decide +kernel
  · rw [hbuckets]
    decide +kernel
  · rw [hrequests]
    decide +kernel

end Metrics
end OxideHttp
