import Mathlib.Algebra.Order.Ring.Nat
import Mathlib.Data.List.Induction
import Mathlib.Logic.Function.Basic
import Mathlib.Tactic.Common

/-!
# Request headers

The header map that hyper hands over, what the server reads off it
(`src/server.rs`: `content_length`, `request_has_body`, `collect_headers`,
`content_encoding`) and the header map that the JS side builds from the collected
pairs (`js/context.ts`: `buildReqHeaders`).

Header values that reach either side are visible ASCII, so `trim` and `lower`
are the ASCII cases of Rust's `trim`/`to_lowercase` and of JavaScript's
`trim`/`toLowerCase`; on such text the two languages agree.
-/

namespace OxideHttp

abbrev Bytes := List UInt8

/-- `KvPair`. -/
structure KvPair where
  key : String
  value : String
  deriving DecidableEq, Repr

/-- `hyper::HeaderMap`, as the list it iterates over: lowercase names, one pair
for each header line. -/
abbrev HeaderMap := List (String × Bytes)

/-- What `HeaderValue::to_str` accepts. -/
def isVisibleAscii (b : UInt8) : Bool := (32 ≤ b && b < 127) || b == 9

/-- `HeaderValue::to_str`. -/
def toStr (v : Bytes) : Option String :=
  if v.all isVisibleAscii then some (String.ofList (v.map fun b => Char.ofNat b.toNat))
  else none

/-- `HeaderMap::get`: the first line of that name. -/
def HeaderMap.get (h : HeaderMap) (name : String) : Option Bytes :=
  (h.find? fun kv => kv.1 == name).map Prod.snd

/-- `HeaderMap::contains_key`. -/
def HeaderMap.containsKey (h : HeaderMap) (name : String) : Bool :=
  h.any fun kv => kv.1 == name

/-! ## Lengths -/

/-- The value of a list of decimal digits, most significant first. -/
def digitsValue : Nat → List Char → Option Nat
  | n, [] => some n
  | n, c :: cs =>
      if c.isDigit then digitsValue (10 * n + (c.toNat - '0'.toNat)) cs else none

/-- `str::parse::<u64>`: an optional plus sign, digits, and no overflow. -/
def parseU64 (s : String) : Option Nat :=
  let digits := match s.toList with
    | '+' :: cs => cs
    | cs => cs
  if digits.isEmpty then none
  else (digitsValue 0 digits).filter fun n => n < 2 ^ 64

/-- `content_length`. -/
def contentLength (h : HeaderMap) : Option Nat :=
  (h.get "content-length").bind fun v => (toStr v).bind parseU64

/-- `request_has_body`. -/
def requestHasBody (h : HeaderMap) : Bool :=
  if h.containsKey "transfer-encoding" then true
  else (contentLength h).any fun n => 0 < n

/-- `collect_headers`. -/
def collectHeaders (h : HeaderMap) : List KvPair :=
  h.map fun kv => { key := kv.1, value := (toStr kv.2).getD "" }

/-- A configured `bodyLimit`; it crosses to Rust as a non-negative `i64`. -/
structure BodyLimit where
  bytes : Nat
  isI64 : bytes < 2 ^ 63
  deriving DecidableEq, Repr

/-- `limit.is_some_and(|l| n > l)`. -/
def overLimit (limit : Option BodyLimit) (n : Nat) : Bool :=
  limit.any fun l => l.bytes < n

theorem overLimit_mono {limit : Option BodyLimit} {m n : Nat} (hmn : m ≤ n)
    (h : overLimit limit m = true) : overLimit limit n = true := by
  cases limit with
  | none => cases h
  | some l =>
      simp only [overLimit, Option.any_some, decide_eq_true_eq] at h ⊢
      omega

/-! ## Trimming and lower-casing -/

def isBlank (c : Char) : Bool :=
  c = ' ' || c = '\t' || c = '\n' || c = '\r' || c.toNat = 11 || c.toNat = 12

/-- `trim`. -/
def trim (cs : List Char) : List Char :=
  ((cs.dropWhile isBlank).reverse.dropWhile isBlank).reverse

/-- `to_lowercase`, `toLowerCase`. -/
def lower (cs : List Char) : List Char := cs.map Char.toLower

def trimLower (s : String) : String := String.ofList (lower (trim s.toList))

/-- `contains`, `includes`. -/
def containsText (pattern : String) (s : List Char) : Bool :=
  s.tails.any fun t => pattern.toList.isPrefixOf t

/-- The codes of the letters and digits of ASCII. -/
theorem isAlphanum_codes {c : Char} (h : c.isAlphanum = true) :
    (65 ≤ c.toNat ∧ c.toNat ≤ 90) ∨ (97 ≤ c.toNat ∧ c.toNat ≤ 122) ∨
      (48 ≤ c.toNat ∧ c.toNat ≤ 57) := by
  have hchars : ((decide (c.val ≥ 65 ∧ c.val ≤ 90) || (c.val ≥ 97 && c.val ≤ 122)) ||
    (c.val ≥ 48 && c.val ≤ 57)) = true := h
  simpa [UInt32.le_iff_toNat_le, or_assoc] using hchars

theorem mem_dropWhile_of_not {α : Type} {p : α → Bool} {a : α} {l : List α}
    (ha : a ∈ l) (hp : p a = false) : a ∈ l.dropWhile p := by
  induction l with
  | nil => cases ha
  | cons b l ih =>
      by_cases hb : p b = true
      · rw [List.dropWhile_cons_of_pos hb]
        rcases List.mem_cons.1 ha with rfl | hal
        · rw [hp] at hb
          cases hb
        · exact ih hal
      · rwa [List.dropWhile_cons_of_neg hb]

/-- A character that is no blank survives trimming. -/
theorem mem_trim {c : Char} {cs : List Char} (hc : c ∈ cs)
    (hb : isBlank c = false) : c ∈ trim cs := by
  unfold trim
  rw [List.mem_reverse]
  refine mem_dropWhile_of_not ?_ hb
  rw [List.mem_reverse]
  exact mem_dropWhile_of_not hc hb

/-- A comma stays where a header value is trimmed and lower-cased. -/
theorem comma_mem_trimLower {s : String} (hs : ',' ∈ s.toList) :
    ',' ∈ (trimLower s).toList := by
  rw [trimLower, String.toList_ofList, lower, List.mem_map]
  exact ⟨',', mem_trim hs (by decide), by decide⟩

/-! ## The two readings of `content-encoding` -/

/-- `content_encoding`: the first line only. -/
def contentEncoding (headers : List KvPair) : Option String :=
  (headers.find? fun kv => kv.key == "content-encoding").bind fun kv =>
    let v := trimLower kv.value
    if v.isEmpty || v == "identity" then none else some v

/-- `buildReqHeaders`: repeated lines are joined. -/
def buildReqHeaders (pairs : List KvPair) : String → Option String :=
  pairs.foldl
    (fun map kv =>
      Function.update map kv.key
        (some (match map kv.key with
          | none => kv.value
          | some prev => prev ++ (if kv.key = "cookie" then "; " else ", ") ++ kv.value)))
    fun _ => none

/-- The values of the lines of one name, in order. -/
def headerLines (pairs : List KvPair) (name : String) : List String :=
  (pairs.filter fun kv => kv.key == name).map KvPair.value

/-- Lines joined the way `buildReqHeaders` joins them. -/
def joinLines (sep : String) : List String → Option String
  | [] => none
  | v :: vs => some (vs.foldl (fun acc w => acc ++ sep ++ w) v)

theorem headerLines_concat (pairs : List KvPair) (kv : KvPair) (name : String) :
    headerLines (pairs ++ [kv]) name =
      headerLines pairs name ++ if kv.key = name then [kv.value] else [] := by
  by_cases hkey : kv.key = name <;> simp [headerLines, hkey]

theorem joinLines_concat (sep : String) (vs : List String) (w : String) :
    joinLines sep (vs ++ [w]) =
      some (match joinLines sep vs with
        | none => w
        | some prev => prev ++ sep ++ w) := by
  cases vs with
  | nil => rfl
  | cons v vs => simp [joinLines]

theorem buildReqHeaders_eq (pairs : List KvPair) (name : String) :
    buildReqHeaders pairs name =
      joinLines (if name = "cookie" then "; " else ", ") (headerLines pairs name) := by
  induction pairs using List.reverseRecOn with
  | nil => rfl
  | append_singleton pairs kv ih =>
      rw [headerLines_concat]
      by_cases hkey : kv.key = name
      · subst hkey
        rw [if_pos rfl, joinLines_concat, ← ih]
        simp [buildReqHeaders]
      · rw [if_neg hkey, List.append_nil, ← ih]
        simp [buildReqHeaders, Function.update_of_ne (Ne.symm hkey)]

/-- The first line decides in Rust. -/
theorem contentEncoding_eq (headers : List KvPair) :
    contentEncoding headers =
      ((headerLines headers "content-encoding").head?).bind fun v =>
        if (trimLower v).isEmpty || trimLower v == "identity" then none
        else some (trimLower v) := by
  unfold contentEncoding headerLines
  induction headers with
  | nil => rfl
  | cons kv headers ih =>
      by_cases hkey : kv.key = "content-encoding"
      · simp [hkey]
      · simpa [hkey] using ih

/-- Two or more lines make a list, which has a comma in it. -/
theorem comma_mem_joinLines (v w : String) (vs : List String) :
    ∃ s, joinLines ", " (v :: w :: vs) = some s ∧ ',' ∈ s.toList := by
  have hkeep : ∀ (us : List String) (acc : String), ',' ∈ acc.toList →
      ',' ∈ (us.foldl (fun acc w => acc ++ ", " ++ w) acc).toList := by
    intro us
    induction us with
    | nil => exact fun acc h => h
    | cons u us ih =>
        intro acc h
        refine ih _ ?_
        simp only [String.toList_append, List.mem_append]
        exact Or.inl (Or.inl h)
  refine ⟨_, rfl, ?_⟩
  refine hkeep vs _ ?_
  simp only [String.toList_append, List.mem_append]
  exact Or.inl (Or.inr (by decide))

end OxideHttp
