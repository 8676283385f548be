import OxideHttp.Http
import OxideHttp.Lib.Double
import OxideHttp.Lib.IpText
import OxideHttp.Lib.JsonText

/-!
# The access log (`src/server.rs`: `access_log`, `escape_json`)

One line for each request, put together by hand: the method and the numbers are written as
they are, and the path is escaped.  The duration is a number of nanoseconds; the line has it
in milliseconds with three places, by way of doubles.

Results.
* `accessLog_oneLine`: the line has no control character in it.
* `accessLog_parse`: the line is one JSON object with the fields that were given.
* `accessLog_faithful`: both, and different requests make different lines.
-/

namespace OxideHttp
namespace AccessLog

open JsonText

/-- `{:04x}`. -/
def hex04 (n : Nat) : List Char := List.leftpad 4 '0' (Nat.toDigits 16 n)

/-- One character of `escape_json`. -/
def escapeChar (c : Char) : List Char :=
  if c = '"' then "\\\"".toList
  else if c = '\\' then "\\\\".toList
  else if c = '\n' then "\\n".toList
  else if c = '\r' then "\\r".toList
  else if c = '\t' then "\\t".toList
  else if c.toNat < 0x20 then "\\u".toList ++ hex04 c.toNat
  else [c]

/-- `escape_json`. -/
def escapeJson (s : List Char) : List Char := s.flatMap escapeChar

/-- `{}` of a number. -/
def decimal (n : Nat) : List Char := Nat.toDigits 10 n

/-- The three places behind the point. -/
def places (thousandths : Nat) : List Char := List.leftpad 3 '0' (decimal (thousandths % 1000))

/-- `{:.3}` of a number of thousandths. -/
def fixed3 (thousandths : Nat) : List Char :=
  decimal (thousandths / 1000) ++ '.' :: places thousandths

/-- `as_secs_f64` of a number of nanoseconds. -/
def asSecsF64 (elapsed : Nat) : ℚ :=
  Double.nearest (Double.nearest (elapsed / 1000000000 : Nat) +
    Double.nearest ((elapsed % 1000000000 : Nat) / 1000000000))

/-- `ms`, to the thousandth as `{:.3}` rounds it. -/
def thousandths (elapsed : Nat) : Nat :=
  (Double.halfEven (Double.nearest (asSecsF64 elapsed * 1000) * 1000)).toNat

/-- The line of `access_log`. -/
def accessLog (method path : List Char) (status elapsed : Nat) : List Char :=
  "\x7b\"level\":\"info\",\"msg\":\"request\",\"method\":\"".toList ++ method ++
    "\",\"path\":\"".toList ++ escapeJson path ++ "\",\"status\":".toList ++ decimal status ++
    ",\"durationMs\":".toList ++ fixed3 (thousandths elapsed) ++ "\x7d".toList

/-- A character of a token (a method is one). -/
def isTchar (c : Char) : Bool := c.isAlphanum || "!#$%&'*+-.^_`|~".toList.contains c

/-- A method. -/
def IsToken (s : List Char) : Prop := s ≠ [] ∧ ∀ c ∈ s, isTchar c = true

instance (s : List Char) : Decidable (IsToken s) :=
  decidable_of_iff (s ≠ [] ∧ s.all isTchar = true) (and_congr_right' List.all_eq_true)

/-! ## Escaping -/

theorem hex04_control : ∀ n < 0x20,
    hex04 n = ['0', '0', (n / 16).digitChar, (n % 16).digitChar] := by
  decide

theorem hex4_control : ∀ n < 0x20,
    hex4 '0' '0' (n / 16).digitChar (n % 16).digitChar = some n := by
  decide

theorem stringBody_escapeChar (c : Char) (rest : List Char) :
    stringBody none (escapeChar c ++ rest) = (stringBody none rest).map (push c) := by
  unfold escapeChar
  split_ifs with hquote hslash hn hr ht hlow
  · subst hquote
    exact stringBody_escape rfl rest
  · subst hslash
    exact stringBody_escape rfl rest
  · subst hn
    exact stringBody_escape rfl rest
  · subst hr
    exact stringBody_escape rfl rest
  · subst ht
    exact stringBody_escape rfl rest
  · have hhigh : isHigh c.toNat = false := by simp [isHigh]; omega
    have hsurrogate : isLow c.toNat = false := by simp [isLow]; omega
    rw [hex04_control c.toNat hlow]
    have hread := stringBody_hex (hex4_control c.toNat hlow) hhigh hsurrogate rest
    rw [Char.ofNat_toNat] at hread
    exact hread
  · exact stringBody_cons ⟨by omega, hquote, hslash⟩ rest

/-- The escaped path is read back as the path. -/
theorem stringBody_escapeJson (s rest : List Char) :
    stringBody none (escapeJson s ++ '"' :: rest) = some (s, rest) := by
  induction s with
  | nil => rfl
  | cons c s ih =>
      rw [escapeJson, List.flatMap_cons, List.append_assoc, stringBody_escapeChar]
      rw [escapeJson] at ih
      rw [ih]
      rfl

/-- Text is checked for control characters by computation. -/
theorem visible_of_all {s : List Char} (h : (s.all fun c => 0x20 ≤ c.toNat) = true) :
    ∀ c ∈ s, 0x20 ≤ c.toNat :=
  fun c hc => of_decide_eq_true (List.all_eq_true.mp h c hc)

theorem escapeChar_visible (c : Char) : ∀ d ∈ escapeChar c, 0x20 ≤ d.toNat := by
  have hdigit : ∀ n < 0x20, ((hex04 n).all fun d => 0x20 ≤ d.toNat) = true := by decide
  unfold escapeChar
  split_ifs with hquote hslash hn hr ht hlow
  · exact visible_of_all (by decide)
  · exact visible_of_all (by decide)
  · exact visible_of_all (by decide)
  · exact visible_of_all (by decide)
  · exact visible_of_all (by decide)
  · intro d hd
    rcases List.mem_append.mp hd with hd | hd
    · exact visible_of_all (s := "\\u".toList) (by decide) d hd
    · exact visible_of_all (hdigit c.toNat hlow) d hd
  · intro d hd
    rw [List.mem_singleton.mp hd]
    omega

theorem escapeJson_visible (s : List Char) : ∀ d ∈ escapeJson s, 0x20 ≤ d.toNat := by
  intro d hd
  obtain ⟨c, -, hc⟩ := List.mem_flatMap.mp hd
  exact escapeChar_visible c d hc

/-! ## Numbers -/

theorem intDigits_decimal (n : Nat) : IntDigits (decimal n) where
  digits c hc := Nat.isDigit_of_mem_toDigits (by omega) (by omega) hc
  ne_nil := Nat.toDigits_ne_nil
  lead h := by
    obtain rfl := IpText.head?_toDigits h
    rfl

theorem decimal_cons (n : Nat) : ∃ d t, decimal n = d :: t ∧ d.isDigit = true := by
  cases h : decimal n with
  | nil => exact absurd h (intDigits_decimal n).ne_nil
  | cons d t => exact ⟨d, t, rfl, (intDigits_decimal n).digits d (h ▸ List.mem_cons_self ..)⟩

theorem reads_decimal (n : Nat) : Reads (decimal n) (.num n) := by
  refine reads_num (decimal_cons n) fun rest hrest => ?_
  rw [unsigned_digits (intDigits_decimal n) hrest, decimal, Nat.ofDigitChars_ten_toDigits]

theorem length_places (n : Nat) : (places n).length = 3 := by
  have hle : (decimal (n % 1000)).length ≤ 3 :=
    (Nat.length_toDigits_le_iff (by omega) (by omega)).mpr (Nat.mod_lt n (by omega))
  rw [places, List.leftpad, List.length_append, List.length_replicate]
  omega

theorem places_digits (n : Nat) : ∀ c ∈ places n, c.isDigit = true := by
  intro c hc
  rcases List.mem_append.mp hc with hc | hc
  · rw [List.eq_of_mem_replicate hc]
    rfl
  · exact (intDigits_decimal _).digits c hc

theorem ofDigitChars_places (n : Nat) : Nat.ofDigitChars 10 (places n) 0 = n % 1000 := by
  rw [places, List.leftpad, Nat.ofDigitChars_append, Nat.ofDigitChars_replicate_zero, mul_zero,
    decimal, Nat.ofDigitChars_ten_toDigits]

theorem ofDigitChars_fixed3 (n : Nat) :
    Nat.ofDigitChars 10 (decimal (n / 1000) ++ places n) 0 = n := by
  rw [Nat.ofDigitChars_append, Nat.ofDigitChars_eq_ofDigitChars_zero, length_places, decimal,
    Nat.ofDigitChars_ten_toDigits, ofDigitChars_places]
  omega

theorem reads_fixed3 (n : Nat) : Reads (fixed3 n) (.num (n / 1000)) := by
  have hhead : ∃ d t, fixed3 n = d :: t ∧ d.isDigit = true := by
    obtain ⟨d, t, h, hd⟩ := decimal_cons (n / 1000)
    exact ⟨d, t ++ '.' :: places n, by rw [fixed3, h]; rfl, hd⟩
  refine reads_num hhead fun rest hrest => ?_
  have hne : places n ≠ [] := List.ne_nil_of_length_eq_add_one (length_places n)
  have hread := unsigned_fixed (intDigits_decimal (n / 1000)) (places_digits n) hne hrest
  rw [ofDigitChars_fixed3, length_places] at hread
  rw [fixed3, List.append_assoc, List.cons_append]
  norm_num at hread
  exact hread

/-! ## Methods -/

theorem visible_digit {c : Char} (h : c.isDigit = true) : 0x20 ≤ c.toNat :=
  le_trans (by decide) (Char.isDigit_iff_toNat.mp h).1

theorem visible_tchar {c : Char} (h : isTchar c = true) : 0x20 ≤ c.toNat := by
  rcases Bool.or_eq_true_iff.mp h with halpha | hmark
  · have hcodes := isAlphanum_codes halpha
    omega
  · exact visible_of_all (by decide) c (List.contains_iff_mem.mp hmark)

/-- A method has nothing to escape. -/
theorem plain_tchar {c : Char} (h : isTchar c = true) : Plain c := by
  refine ⟨visible_tchar h, ?_, ?_⟩
  · rintro rfl
    exact absurd h (by decide)
  · rintro rfl
    exact absurd h (by decide)

theorem reads_method {method : List Char} (h : IsToken method) :
    Reads ('"' :: (method ++ ['"'])) (.str method) :=
  reads_str (stringBody_plain fun c hc => plain_tchar (h.2 c hc))

/-! ## The line -/

/-- The members of the line as they are written. -/
def logText (method path : List Char) (status elapsed : Nat) : List (List Char × List Char) :=
  [("level".toList, "\"info\"".toList), ("msg".toList, "\"request\"".toList),
    ("method".toList, '"' :: (method ++ ['"'])), ("path".toList, '"' :: (escapeJson path ++ ['"'])),
    ("status".toList, decimal status), ("durationMs".toList, fixed3 (thousandths elapsed))]

/-- The members of the line. -/
def logFields (method path : List Char) (status elapsed : Nat) : List (List Char × Value) :=
  [("level".toList, .str "info".toList), ("msg".toList, .str "request".toList),
    ("method".toList, .str method), ("path".toList, .str path), ("status".toList, .num status),
    ("durationMs".toList, .num (thousandths elapsed / 1000))]

/-- The template is the object, member by member. -/
theorem accessLog_eq (method path : List Char) (status elapsed : Nat) :
    accessLog method path status elapsed =
      '\x7b' :: membersText (logText method path status elapsed) := by
  unfold accessLog logText
  generalize fixed3 (thousandths elapsed) = duration
  simp [membersText, memberText]

theorem logText_reads {method : List Char} (h : IsToken method) (path : List Char)
    (status elapsed : Nat) :
    List.Forall₂ ReadsMember (logText method path status elapsed)
      (logFields method path status elapsed) := by
  have hplain (t : String) (h : t.toList.all (fun c => Plain c) = true) :
      ∀ c ∈ t.toList, Plain c :=
    fun c hc => of_decide_eq_true (List.all_eq_true.mp h c hc)
  refine .cons ⟨rfl, hplain "level" (by decide), ?_⟩ (.cons ⟨rfl, hplain "msg" (by decide), ?_⟩
    (.cons ⟨rfl, hplain "method" (by decide), ?_⟩ (.cons ⟨rfl, hplain "path" (by decide), ?_⟩
      (.cons ⟨rfl, hplain "status" (by decide), ?_⟩
        (.cons ⟨rfl, hplain "durationMs" (by decide), ?_⟩ .nil)))))
  · exact reads_str (stringBody_plain (hplain "info" (by decide)))
  · exact reads_str (stringBody_plain (hplain "request" (by decide)))
  · exact reads_method h
  · exact reads_str (stringBody_escapeJson path)
  · exact reads_decimal status
  · exact reads_fixed3 (thousandths elapsed)

/-- The line is one object with the fields that were given. -/
theorem accessLog_parse {method : List Char} (h : IsToken method) (path : List Char)
    (status elapsed : Nat) :
    parse (accessLog method path status elapsed) =
      some (.obj (logFields method path status elapsed)) := by
  rw [accessLog_eq]
  exact parse_object (logText_reads h path status elapsed) (List.cons_ne_nil _ _)

theorem fixed3_visible (n : Nat) : ∀ c ∈ fixed3 n, 0x20 ≤ c.toNat := by
  intro c hc
  rcases List.mem_append.mp hc with hc | hc
  · exact visible_digit ((intDigits_decimal _).digits c hc)
  rcases List.mem_cons.mp hc with rfl | hc
  · decide
  · exact visible_digit (places_digits n c hc)

/-- The line has no control character in it. -/
theorem accessLog_oneLine {method : List Char} (h : IsToken method) (path : List Char)
    (status elapsed : Nat) : ∀ c ∈ accessLog method path status elapsed, 0x20 ≤ c.toNat := by
  intro c hc
  unfold accessLog at hc
  simp only [List.mem_append, or_assoc] at hc
  rcases hc with hc | hc | hc | hc | hc | hc | hc | hc | hc
  · exact visible_of_all (by decide) c hc
  · exact visible_tchar (h.2 c hc)
  · exact visible_of_all (by decide) c hc
  · exact escapeJson_visible path c hc
  · exact visible_of_all (by decide) c hc
  · exact visible_digit ((intDigits_decimal status).digits c hc)
  · exact visible_of_all (by decide) c hc
  · exact fixed3_visible _ c hc
  · exact visible_of_all (by decide) c hc

/-- Lines that are equal tell of the same request. -/
theorem accessLog_injective {method method' : List Char} (h : IsToken method)
    (h' : IsToken method') {path path' : List Char} {status status' elapsed elapsed' : Nat}
    (heq : accessLog method path status elapsed = accessLog method' path' status' elapsed') :
    method = method' ∧ path = path' ∧ status = status' := by
  have hparse := accessLog_parse h path status elapsed
  rw [heq, accessLog_parse h' path' status' elapsed'] at hparse
  simp only [logFields, Option.some.injEq, Value.obj.injEq, List.cons.injEq, Prod.mk.injEq,
    Value.str.injEq, Value.num.injEq, Nat.cast_inj] at hparse
  obtain ⟨-, -, ⟨-, hmethod⟩, ⟨-, hpath⟩, ⟨-, hstatus⟩, -⟩ := hparse
  exact ⟨hmethod.symm, hpath.symm, hstatus.symm⟩

/-- The line is one line and one object with the fields that were given, and different
methods, paths or statuses give different lines. -/
theorem accessLog_faithful {method : List Char} (h : IsToken method) (path : List Char)
    (status elapsed : Nat) :
    (∀ c ∈ accessLog method path status elapsed, 0x20 ≤ c.toNat) ∧
      parse (accessLog method path status elapsed) = some (.obj
        [("level".toList, .str "info".toList), ("msg".toList, .str "request".toList),
          ("method".toList, .str method), ("path".toList, .str path),
          ("status".toList, .num status),
          ("durationMs".toList, .num (thousandths elapsed / 1000))]) ∧
      ∀ method' path' status' elapsed', IsToken method' →
        accessLog method path status elapsed = accessLog method' path' status' elapsed' →
        method = method' ∧ path = path' ∧ status = status' :=
  ⟨accessLog_oneLine h path status elapsed, accessLog_parse h path status elapsed,
    fun _ _ _ _ h' heq => accessLog_injective h h' heq⟩

theorem accessLog_faithful_get : IsToken "GET".toList ∧
    parse (accessLog "GET".toList "/\",\"status\":200\n".toList 404 1500000) = some (.obj
      [("level".toList, .str "info".toList), ("msg".toList, .str "request".toList),
        ("method".toList, .str "GET".toList), ("path".toList, .str "/\",\"status\":200\n".toList),
        ("status".toList, .num (404 : Nat)),
        ("durationMs".toList, .num (thousandths 1500000 / 1000))]) :=
  ⟨by decide, (accessLog_faithful (by decide) _ 404 1500000).2.1⟩

end AccessLog
end OxideHttp
