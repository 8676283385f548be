import OxideHttp.Lib.Exposition
import OxideHttp.Metrics

/-!
# The text of a scrape (`src/metrics.rs`: `encode`)

A scrape is written from the values that it has loaded.  A consumer reads it as the text format
of Prometheus, finds every series once and has the counters back.

Results.
* `encode_eq`: the text is that of its lines.
* `encode_read_back`: the lines are read back, every series is told once, and the values are
  those of the counters, with the buckets cumulative and the sum rounded as a double.
-/

namespace OxideHttp
namespace Metrics

open AccessLog Exposition

/-! ## The text -/

/-- `{}` of an `i64`. -/
def signed : Int → List Char
  | .ofNat n => decimal n
  | .negSucc n => '-' :: decimal (n + 1)

/-- `duration_sum_micros as f64 / 1_000_000.0`. -/
def sumSecs (load : Cell → BitVec 64) : ℚ :=
  Double.nearest (Double.nearest (load .durationSumMicros).toNat / 1000000)

def requestRow (load : Cell → BitVec 64) (m : Fin 9) (c : Fin 5) : List Char :=
  if load (.requests m c) = 0 then []
  else
    List.flatten
      ["http_requests_total\x7bmethod=\"".toList, METHODS m, "\",status=\"".toList, CLASSES c,
        "\"\x7d ".toList, decimal (load (.requests m c)).toNat, ['\n']]

def bucketRow (load : Cell → BitVec 64) (i : Fin 12) : List Char :=
  List.flatten
    ["http_request_duration_seconds_bucket\x7ble=\"".toList, Double.display (edge i),
      "\"\x7d ".toList, decimal (cumulative load i).toNat, ['\n']]

/-- One entry of `gauges` or of `counters`. -/
def singleRows (kind name help value : List Char) : List Char :=
  List.flatten
    ["# HELP ".toList, name, [' '], help, "\n# TYPE ".toList, name, [' '], kind, ['\n'],
      name, [' '], value, ['\n']]

def requestsText (load : Cell → BitVec 64) : List Char :=
  "# HELP http_requests_total Total HTTP requests handled.\n".toList ++
    ("# TYPE http_requests_total counter\n".toList ++
      (List.finRange 9).flatMap fun m => (List.finRange 5).flatMap fun c => requestRow load m c)

def durationText (load : Cell → BitVec 64) : List Char :=
  "# HELP http_request_duration_seconds Request handling latency.\n".toList ++
    ("# TYPE http_request_duration_seconds histogram\n".toList ++
      ((List.finRange 12).flatMap (bucketRow load) ++
        (List.flatten ["http_request_duration_seconds_bucket\x7ble=\"".toList, "+Inf".toList,
          "\"\x7d ".toList, decimal (load .durationCount).toNat, ['\n']] ++
        (List.flatten ["http_request_duration_seconds_sum ".toList,
          Double.display (sumSecs load), ['\n']] ++
        List.flatten ["http_request_duration_seconds_count ".toList,
          decimal (load .durationCount).toNat, ['\n']]))))

def gaugesText (load : Cell → BitVec 64) : List Char :=
  singleRows "gauge".toList "http_requests_in_flight".toList
      "Requests currently being handled.".toList (signed (load .inFlight).toInt) ++
    singleRows "gauge".toList "http_connections_active".toList
      "Open connections.".toList (signed (load .connections).toInt)

def countersText (load : Cell → BitVec 64) : List Char :=
  singleRows "counter".toList "http_request_body_bytes_total".toList
      "Request body bytes read.".toList (decimal (load .requestBytes).toNat) ++
    (singleRows "counter".toList "http_response_body_bytes_total".toList
      "Response body bytes written.".toList (decimal (load .responseBytes).toNat) ++
    (singleRows "counter".toList "http_cache_hits_total".toList
      "Native response cache hits (answered without waking JS).".toList
      (decimal (load .cacheHits).toNat) ++
    singleRows "counter".toList "http_cache_misses_total".toList
      "Native response cache misses on cache-enabled routes.".toList
      (decimal (load .cacheMisses).toNat)))

def encode (load : Cell → BitVec 64) : List Char :=
  requestsText load ++ (durationText load ++ (gaugesText load ++ countersText load))

/-! ## The series -/

/-- What a scrape tells of. -/
inductive Series where
  | requests (m : Fin 9) (c : Fin 5)
  | bucket (i : Fin 12)
  | infinite
  | sum
  | count
  | inFlight
  | connections
  | requestBytes
  | responseBytes
  | cacheHits
  | cacheMisses
  deriving DecidableEq, Repr

def NAMES : Fin 10 → List Char :=
  ![ "http_requests_total".toList, "http_request_duration_seconds_bucket".toList,
    "http_request_duration_seconds_sum".toList, "http_request_duration_seconds_count".toList,
    "http_requests_in_flight".toList, "http_connections_active".toList,
    "http_request_body_bytes_total".toList, "http_response_body_bytes_total".toList,
    "http_cache_hits_total".toList, "http_cache_misses_total".toList]

def Series.family : Series → Fin 10
  | .requests _ _ => 0
  | .bucket _ => 1
  | .infinite => 1
  | .sum => 2
  | .count => 3
  | .inFlight => 4
  | .connections => 5
  | .requestBytes => 6
  | .responseBytes => 7
  | .cacheHits => 8
  | .cacheMisses => 9

def METHOD : List Char := "method".toList

def STATUS : List Char := "status".toList

def LE : List Char := "le".toList

def INF : List Char := "+Inf".toList

def Series.labels : Series → List (List Char × List Char)
  | .requests m c => [(METHOD, METHODS m), (STATUS, CLASSES c)]
  | .bucket i => [(LE, Double.display (edge i))]
  | .infinite => [(LE, INF)]
  | _ => []

def Series.key (s : Series) : List Char × List (List Char × List Char) :=
  (NAMES s.family, s.labels)

/-- The text of its value. -/
def Series.value (load : Cell → BitVec 64) : Series → List Char
  | .requests m c => decimal (load (.requests m c)).toNat
  | .bucket i => decimal (cumulative load i).toNat
  | .infinite => decimal (load .durationCount).toNat
  | .sum => Double.display (sumSecs load)
  | .count => decimal (load .durationCount).toNat
  | .inFlight => signed (load .inFlight).toInt
  | .connections => signed (load .connections).toInt
  | .requestBytes => decimal (load .requestBytes).toNat
  | .responseBytes => decimal (load .responseBytes).toNat
  | .cacheHits => decimal (load .cacheHits).toNat
  | .cacheMisses => decimal (load .cacheMisses).toNat

/-- Zeros of `requests` are left out. -/
def Series.shown (load : Cell → BitVec 64) : Series → Bool
  | .requests m c => load (.requests m c) ≠ 0
  | _ => true

def Series.sample (load : Cell → BitVec 64) (s : Series) : Sample :=
  ⟨NAMES s.family, s.labels, s.value load⟩

def requestSeries : List Series :=
  (List.finRange 9).flatMap fun m => (List.finRange 5).flatMap fun c => [.requests m c]

def durationSeries : List Series :=
  (List.finRange 12).flatMap (fun i => [.bucket i]) ++ ([.infinite] ++ ([.sum] ++ [.count]))

def singleSeries : List Series :=
  [.inFlight, .connections, .requestBytes, .responseBytes, .cacheHits, .cacheMisses]

def allSeries : List Series := requestSeries ++ (durationSeries ++ singleSeries)

/-- The samples of some series, those that are shown. -/
def rows (load : Cell → BitVec 64) (ss : List Series) : List Line :=
  (ss.filter (Series.shown load)).map fun s => .sample (s.sample load)

/-- The lines of one entry of `gauges` or of `counters`. -/
def singleLines (kind name help value : List Char) : List Line :=
  [.help name help, .type name kind, .sample ⟨name, [], value⟩]

def requestsLines (load : Cell → BitVec 64) : List Line :=
  [.help "http_requests_total".toList "Total HTTP requests handled.".toList,
    .type "http_requests_total".toList "counter".toList] ++ rows load requestSeries

def durationLines (load : Cell → BitVec 64) : List Line :=
  [.help "http_request_duration_seconds".toList "Request handling latency.".toList,
    .type "http_request_duration_seconds".toList "histogram".toList] ++ rows load durationSeries

def gaugesLines (load : Cell → BitVec 64) : List Line :=
  singleLines "gauge".toList (NAMES 4) "Requests currently being handled.".toList
      (signed (load .inFlight).toInt) ++
    singleLines "gauge".toList (NAMES 5) "Open connections.".toList
      (signed (load .connections).toInt)

def countersLines (load : Cell → BitVec 64) : List Line :=
  singleLines "counter".toList (NAMES 6) "Request body bytes read.".toList
      (decimal (load .requestBytes).toNat) ++
    (singleLines "counter".toList (NAMES 7) "Response body bytes written.".toList
      (decimal (load .responseBytes).toNat) ++
    (singleLines "counter".toList (NAMES 8)
      "Native response cache hits (answered without waking JS).".toList
      (decimal (load .cacheHits).toNat) ++
    singleLines "counter".toList (NAMES 9)
      "Native response cache misses on cache-enabled routes.".toList
      (decimal (load .cacheMisses).toNat)))

def lines (load : Cell → BitVec 64) : List Line :=
  requestsLines load ++ (durationLines load ++ (gaugesLines load ++ countersLines load))

/-! ## The text of the lines -/

theorem flatten_plain {front : List Char} (name value : List Char) (hfront : front = name ++ [' ']) :
    List.flatten [front, value, ['\n']] = writeText [.sample ⟨name, [], value⟩] := by
  subst hfront
  simp [writeText, Line.write, writeSample]

theorem flatten_label {front back : List Char} (name key text value : List Char)
    (hfront : front = name ++ '\x7b' :: (key ++ ['=', '"'])) (hback : back = ['"', '\x7d', ' ']) :
    List.flatten [front, text, back, value, ['\n']] =
      writeText [.sample ⟨name, [(key, text)], value⟩] := by
  subst hfront hback
  simp [writeText, Line.write, writeSample, writeLabels, writeLabel]

theorem flatten_labels {front middle back : List Char} (name key key' text text' value : List Char)
    (hfront : front = name ++ '\x7b' :: (key ++ ['=', '"']))
    (hmiddle : middle = '"' :: ',' :: (key' ++ ['=', '"'])) (hback : back = ['"', '\x7d', ' ']) :
    List.flatten [front, text, middle, text', back, value, ['\n']] =
      writeText [.sample ⟨name, [(key, text), (key', text')], value⟩] := by
  subst hfront hmiddle hback
  simp [writeText, Line.write, writeSample, writeLabels, writeLabel]

theorem flatten_single {front middle : List Char} (name help kind value : List Char)
    (hfront : front = helpTag) (hmiddle : middle = '\n' :: typeTag) :
    List.flatten [front, name, [' '], help, middle, name, [' '], kind, ['\n'], name, [' '], value,
        ['\n']] =
      writeText (singleLines kind name help value) := by
  subst hfront hmiddle
  simp [singleLines, writeText, Line.write, writeSample]

theorem requestRow_eq (load : Cell → BitVec 64) (m : Fin 9) (c : Fin 5) :
    requestRow load m c = writeText (rows load [.requests m c]) := by
  rw [requestRow, rows]
  by_cases h : load (.requests m c) = 0
  · have hshown : Series.shown load (.requests m c) = false := decide_eq_false (not_not.2 h)
    rw [if_pos h, List.filter_cons_of_neg (Bool.eq_false_iff.1 hshown)]
    rfl
  · have hshown : Series.shown load (.requests m c) = true := decide_eq_true h
    rw [if_neg h, List.filter_cons_of_pos hshown]
    exact flatten_labels (NAMES 0) METHOD STATUS _ _ _ (by decide) (by decide)
      (by decide)

theorem bucketRow_eq (load : Cell → BitVec 64) (i : Fin 12) :
    bucketRow load i = writeText (rows load [.bucket i]) :=
  flatten_label (NAMES 1) LE (Double.display (edge i)) (decimal (cumulative load i).toNat)
    (by decide) (by decide)

theorem singleRows_eq (kind name help value : List Char) :
    singleRows kind name help value = writeText (singleLines kind name help value) :=
  flatten_single _ _ _ _ (by decide) (by decide)

theorem rows_append (load : Cell → BitVec 64) (ss ss' : List Series) :
    rows load (ss ++ ss') = rows load ss ++ rows load ss' := by
  rw [rows, List.filter_append, List.map_append, rows, rows]

/-- Texts of lines are put together. -/
theorem append_eq {a b : List Char} {ls ms : List Line} (ha : a = writeText ls)
    (hb : b = writeText ms) : a ++ b = writeText (ls ++ ms) := by
  rw [writeText_append, ha, hb]

theorem append_rows_eq {load : Cell → BitVec 64} {a b : List Char} {q r : List Series}
    (ha : a = writeText (rows load q)) (hb : b = writeText (rows load r)) :
    a ++ b = writeText (rows load (q ++ r)) := by
  rw [rows_append, append_eq ha hb]

/-- Two lines and what is under them. -/
theorem append_head_eq {a b c : List Char} {head ms : List Line} (hhead : a ++ b = writeText head)
    (hc : c = writeText ms) : a ++ (b ++ c) = writeText (head ++ ms) := by
  rw [← List.append_assoc, append_eq hhead hc]

theorem flatMap_rows_eq {α : Type} {load : Cell → BitVec 64} {text : α → List Char}
    {ss : α → List Series} (xs : List α) (h : ∀ x, text x = writeText (rows load (ss x))) :
    xs.flatMap text = writeText (rows load (xs.flatMap ss)) := by
  induction xs with
  | nil => rfl
  | cons x xs ih =>
      rw [List.flatMap_cons, List.flatMap_cons]
      exact append_rows_eq (h x) ih

theorem requestsText_eq (load : Cell → BitVec 64) :
    requestsText load = writeText (requestsLines load) :=
  append_head_eq (by decide) (flatMap_rows_eq _ fun m =>
    flatMap_rows_eq _ fun c => requestRow_eq load m c)

theorem durationText_eq (load : Cell → BitVec 64) :
    durationText load = writeText (durationLines load) :=
  append_head_eq (by decide)
    (append_rows_eq (flatMap_rows_eq _ (bucketRow_eq load))
      (append_rows_eq (q := [.infinite])
        (flatten_label (NAMES 1) LE INF _ (by decide) (by decide))
        (append_rows_eq (q := [.sum]) (flatten_plain (NAMES 2) _ (by decide))
          (flatten_plain (NAMES 3) _ (by decide)))))

theorem gaugesText_eq (load : Cell → BitVec 64) :
    gaugesText load = writeText (gaugesLines load) :=
  append_eq (singleRows_eq _ _ _ _) (singleRows_eq _ _ _ _)

theorem countersText_eq (load : Cell → BitVec 64) :
    countersText load = writeText (countersLines load) :=
  append_eq (singleRows_eq _ _ _ _) (append_eq (singleRows_eq _ _ _ _)
    (append_eq (singleRows_eq _ _ _ _) (singleRows_eq _ _ _ _)))

/-- The text is that of its lines. -/
theorem encode_eq (load : Cell → BitVec 64) : encode load = writeText (lines load) :=
  append_eq (requestsText_eq load) (append_eq (durationText_eq load)
    (append_eq (gaugesText_eq load) (countersText_eq load)))

/-! ## Series are told apart -/

theorem names_injective : Function.Injective NAMES := by
  have h : ∀ i j, NAMES i = NAMES j → i = j := by decide
  exact fun i j => h i j

theorem methods_injective : Function.Injective METHODS := by
  have h : ∀ i j, METHODS i = METHODS j → i = j := by decide
  exact fun i j => h i j

theorem classes_injective : Function.Injective CLASSES := by
  have h : ∀ i j, CLASSES i = CLASSES j → i = j := by decide
  exact fun i j => h i j

theorem buckets_nonneg (i : Fin 12) : 0 ≤ BUCKETS i := by
  have hnanos : (0 : ℚ) ≤ BUCKETS i * 10 ^ 9 := edgeNanos_eq i ▸ Nat.cast_nonneg _
  exact nonneg_of_mul_nonneg_left hnanos (by norm_num)

theorem edge_nonneg (i : Fin 12) : 0 ≤ edge i := Double.nearest_nonneg (buckets_nonneg i)

theorem nearest_edge (i : Fin 12) : Double.nearest (edge i) = edge i :=
  Double.nearest_nearest (buckets_nonneg i)

theorem edge_injective : Function.Injective edge := by
  have hle {i j : Fin 12} (h : edge i ≤ edge j) : edgeNanos i ≤ edgeNanos j := by
    rwa [← asSecsF64_edgeNanos, asSecsF64_le_iff] at h
  have hnanos : ∀ i j, edgeNanos i = edgeNanos j → i = j := by decide
  exact fun i j h => hnanos i j (le_antisymm (hle h.le) (hle h.ge))

theorem read_edge (i : Fin 12) :
    ∃ q, Double.readDecimal (Double.display (edge i)) = some q ∧ Double.nearest q = edge i :=
  Double.readDecimal_display (edge_nonneg i) (nearest_edge i)

theorem display_edge_injective {i j : Fin 12}
    (h : Double.display (edge i) = Double.display (edge j)) : i = j := by
  obtain ⟨q, hq, hi⟩ := read_edge i
  obtain ⟨r, hr, hj⟩ := read_edge j
  rw [h, hr] at hq
  obtain rfl := Option.some.inj hq
  exact edge_injective (hi.symm.trans hj)

theorem display_edge_ne_inf (i : Fin 12) : Double.display (edge i) ≠ INF := by
  intro h
  obtain ⟨q, hq, -⟩ := read_edge i
  have hplus : '+' ∈ INF := by decide
  rcases (Double.chars_of_readDecimal hq).2 '+' (h ▸ hplus) with hdigit | hdot
  · exact absurd hdigit (by decide)
  · exact absurd hdot (by decide)

theorem seriesKey_injective : Function.Injective Series.key := by
  intro s t h
  obtain ⟨hname, hlabels⟩ := Prod.mk.inj h
  have hfamily := names_injective hname
  cases s with
  | requests m c =>
      cases t with
      | requests m' c' =>
          obtain ⟨hm, hc⟩ := List.cons.inj hlabels
          obtain rfl := methods_injective (Prod.mk.inj hm).2
          obtain rfl := classes_injective (Prod.mk.inj (List.cons.inj hc).1).2
          rfl
      | _ => simp [Series.family] at hfamily
  | bucket i =>
      cases t with
      | bucket j =>
          obtain rfl := display_edge_injective (Prod.mk.inj (List.cons.inj hlabels).1).2
          rfl
      | infinite => exact absurd (Prod.mk.inj (List.cons.inj hlabels).1).2 (display_edge_ne_inf i)
      | _ => simp [Series.family] at hfamily
  | infinite =>
      cases t with
      | bucket j =>
          exact absurd (Prod.mk.inj (List.cons.inj hlabels).1).2.symm (display_edge_ne_inf j)
      | infinite => rfl
      | _ => simp [Series.family] at hfamily
  | _ =>
      cases t with
      | _ => first | rfl | simp [Series.family] at hfamily

/-! ## Values -/

/-- The number of a value, with a sign or not. -/
def number : List Char → Option ℚ
  | '-' :: rest => (Double.readDecimal rest).map fun q => -q
  | text => Double.readDecimal text

theorem number_of_readDecimal {text : List Char} {q : ℚ} (h : Double.readDecimal text = some q) :
    number text = some q := by
  obtain ⟨hne, hchars⟩ := Double.chars_of_readDecimal h
  rw [number.eq_def]
  split
  · rcases hchars '-' List.mem_cons_self with hdigit | hdot
    · exact absurd hdigit (by decide)
    · exact absurd hdot (by decide)
  · exact h

theorem number_decimal (n : Nat) : number (decimal n) = some (n : ℚ) :=
  number_of_readDecimal (Double.readDecimal_toDigits n)

theorem number_signed (z : Int) : number (signed z) = some (z : ℚ) := by
  cases z with
  | ofNat n => exact number_decimal n
  | negSucc n =>
      rw [signed, number, decimal, Double.readDecimal_toDigits, Option.map_some]
      push_cast
      rfl

theorem number_sum (load : Cell → BitVec 64) :
    ∃ q, number (Double.display (sumSecs load)) = some q ∧ Double.nearest q = sumSecs load := by
  have hq : (0 : ℚ) ≤ Double.nearest (load .durationSumMicros).toNat / 1000000 :=
    div_nonneg (Double.nearest_nonneg (Nat.cast_nonneg _)) (by norm_num)
  obtain ⟨q, hread, hnear⟩ := Double.readDecimal_display (Double.nearest_nonneg hq)
    (Double.nearest_nearest hq)
  exact ⟨q, number_of_readDecimal hread, hnear⟩

theorem exists_number (load : Cell → BitVec 64) (s : Series) :
    ∃ q, number (s.value load) = some q := by
  cases s with
  | sum =>
      obtain ⟨q, hq, -⟩ := number_sum load
      exact ⟨q, hq⟩
  | inFlight | connections => exact ⟨_, number_signed _⟩
  | requests | bucket | infinite | count | requestBytes | responseBytes | cacheHits
  | cacheMisses => exact ⟨_, number_decimal _⟩

/-- A number is one word. -/
theorem word_of_number {text : List Char} {q : ℚ} (h : number text = some q) :
    text ≠ [] ∧ ' ' ∉ text ∧ '\n' ∉ text := by
  have hword {text : List Char} {q : ℚ} (h : Double.readDecimal text = some q) {c : Char}
      (hc : c.isDigit = false ∧ c ≠ '.') : c ∉ text := by
    intro hmem
    rcases (Double.chars_of_readDecimal h).2 c hmem with hdigit | hdot
    · rw [hc.1] at hdigit
      cases hdigit
    · exact hc.2 hdot
  rw [number.eq_def] at h
  split at h
  case h_1 rest =>
    obtain ⟨r, hr, -⟩ := Option.map_eq_some_iff.1 h
    refine ⟨List.cons_ne_nil _ _, ?_, ?_⟩
    · exact List.not_mem_cons_of_ne_of_not_mem (by decide) (hword hr (by decide))
    · exact List.not_mem_cons_of_ne_of_not_mem (by decide) (hword hr (by decide))
  case h_2 =>
    exact ⟨(Double.chars_of_readDecimal h).1, hword h (by decide), hword h (by decide)⟩

/-! ## Reading back -/

/-- The text of a number needs no escape. -/
theorem plain_of_readDecimal {text : List Char} {q : ℚ}
    (h : Double.readDecimal text = some q) : IsPlain text := by
  have hchars {c : Char} (hc : c.isDigit = false ∧ c ≠ '.') : c ∉ text := by
    intro hmem
    rcases (Double.chars_of_readDecimal h).2 c hmem with hdigit | hdot
    · rw [hc.1] at hdigit
      cases hdigit
    · exact hc.2 hdot
  exact ⟨hchars (by decide), hchars (by decide), hchars (by decide)⟩

theorem proper_sample (load : Cell → BitVec 64) (s : Series) : (s.sample load).Proper := by
  have hnames : ∀ i, IsName (NAMES i) := by decide
  have hkeys : IsName METHOD ∧ IsName STATUS ∧ IsName LE ∧ IsPlain INF := by decide
  have hmethods : ∀ m, IsPlain (METHODS m) := by decide
  have hclasses : ∀ c, IsPlain (CLASSES c) := by decide
  obtain ⟨hmethod, hstatus, hle, hinf⟩ := hkeys
  obtain ⟨q, hq⟩ := exists_number load s
  refine ⟨hnames _, fun l hl => ?_, word_of_number hq⟩
  cases s with
  | requests m c =>
      rcases List.mem_cons.1 hl with rfl | hl
      · exact ⟨hmethod, hmethods m⟩
      · obtain rfl := List.mem_singleton.1 hl
        exact ⟨hstatus, hclasses c⟩
  | bucket i =>
      obtain rfl := List.mem_singleton.1 hl
      obtain ⟨r, hr, -⟩ := read_edge i
      exact ⟨hle, plain_of_readDecimal hr⟩
  | infinite =>
      obtain rfl := List.mem_singleton.1 hl
      exact ⟨hle, hinf⟩
  | _ => exact absurd hl List.not_mem_nil

theorem proper_rows (load : Cell → BitVec 64) (ss : List Series) :
    ∀ l ∈ rows load ss, l.Proper := by
  intro l hl
  obtain ⟨s, -, rfl⟩ := List.mem_map.1 hl
  exact proper_sample load s

theorem proper_single {load : Cell → BitVec 64} {s : Series} {kind help : List Char}
    (hs : s.labels = []) (htext : '\n' ∉ kind ∧ '\n' ∉ help) :
    ∀ l ∈ singleLines kind (NAMES s.family) help (s.value load), l.Proper := by
  have hsample := proper_sample load s
  rw [Series.sample, hs] at hsample
  intro l hl
  rw [singleLines, List.mem_cons, List.mem_cons, List.mem_singleton] at hl
  rcases hl with rfl | rfl | rfl
  · exact ⟨hsample.name, htext.2⟩
  · exact ⟨hsample.name, htext.1⟩
  · exact hsample

theorem proper_head {name kind help : List Char}
    (h : IsName name ∧ '\n' ∉ kind ∧ '\n' ∉ help) :
    ∀ l ∈ [Line.help name help, Line.type name kind], l.Proper := by
  intro l hl
  rw [List.mem_cons, List.mem_singleton] at hl
  rcases hl with rfl | rfl
  · exact ⟨h.1, h.2.2⟩
  · exact ⟨h.1, h.2.1⟩

theorem proper_append {ls ms : List Line} (hls : ∀ l ∈ ls, l.Proper) (hms : ∀ l ∈ ms, l.Proper) :
    ∀ l ∈ ls ++ ms, l.Proper := fun l hl =>
  (List.mem_append.1 hl).elim (hls l) (hms l)

theorem proper_gauges (load : Cell → BitVec 64) : ∀ l ∈ gaugesLines load, l.Proper :=
  proper_append (proper_single (s := .inFlight) rfl (by decide))
    (proper_single (s := .connections) rfl (by decide))

theorem proper_counters (load : Cell → BitVec 64) : ∀ l ∈ countersLines load, l.Proper :=
  proper_append (proper_single (s := .requestBytes) rfl (by decide))
    (proper_append (proper_single (s := .responseBytes) rfl (by decide))
      (proper_append (proper_single (s := .cacheHits) rfl (by decide))
        (proper_single (s := .cacheMisses) rfl (by decide))))

theorem proper_lines (load : Cell → BitVec 64) : ∀ l ∈ lines load, l.Proper :=
  proper_append (proper_append (proper_head (by decide)) (proper_rows load _))
    (proper_append (proper_append (proper_head (by decide)) (proper_rows load _))
      (proper_append (proper_gauges load) (proper_counters load)))

theorem samplesOf_rows (load : Cell → BitVec 64) (ss : List Series) :
    samplesOf (rows load ss) = (ss.filter (Series.shown load)).map (Series.sample load) := by
  have hrows : rows load ss = ((ss.filter (Series.shown load)).map (Series.sample load)).map
      Line.sample := List.map_map.symm
  rw [hrows, samplesOf_map]

/-- The samples are those of the series that are shown, each once. -/
theorem samplesOf_lines (load : Cell → BitVec 64) : samplesOf (lines load) =
    (allSeries.filter (Series.shown load)).map (Series.sample load) := by
  have hrequests : samplesOf (requestsLines load) = samplesOf (rows load requestSeries) := rfl
  have hduration : samplesOf (durationLines load) = samplesOf (rows load durationSeries) := rfl
  have hsingle : samplesOf (gaugesLines load) ++ samplesOf (countersLines load) =
      (singleSeries.filter (Series.shown load)).map (Series.sample load) := rfl
  rw [lines, samplesOf_append, samplesOf_append, samplesOf_append, hrequests, hduration, hsingle,
    samplesOf_rows, samplesOf_rows, ← List.map_append, ← List.map_append, ← List.filter_append,
    ← List.filter_append, allSeries]

theorem nodup_lines (load : Cell → BitVec 64) :
    ((samplesOf (lines load)).map Sample.key).Nodup := by
  have hall : allSeries.Nodup := by decide
  rw [samplesOf_lines, List.map_map]
  exact (hall.filter _).map seriesKey_injective

theorem mem_allSeries (s : Series) : s ∈ allSeries := by
  have hrequests : ∀ m c, .requests m c ∈ allSeries := by decide
  have hbuckets : ∀ i, .bucket i ∈ allSeries := by decide
  cases s with
  | requests m c => exact hrequests m c
  | bucket i => exact hbuckets i
  | _ => decide

/-- What a text tells of a series. -/
def told (ls : List Line) (s : Series) : Option ℚ := (valueOf ls s.key).bind number

theorem told_of_shown {load : Cell → BitVec 64} {s : Series} (h : s.shown load = true) :
    told (lines load) s = number (s.value load) := by
  have hmem : s.sample load ∈ samplesOf (lines load) := by
    rw [samplesOf_lines]
    exact List.mem_map_of_mem (List.mem_filter.2 ⟨mem_allSeries s, h⟩)
  exact congrArg (Option.bind · number) (valueOf_of_mem (nodup_lines load) hmem)

theorem told_of_hidden {load : Cell → BitVec 64} {s : Series} (h : s.shown load = false) :
    told (lines load) s = none := by
  refine congrArg (Option.bind · number) (valueOf_eq_none fun t ht hkey => ?_)
  rw [samplesOf_lines] at ht
  obtain ⟨u, hu, rfl⟩ := List.mem_map.1 ht
  have hsame : u = s := seriesKey_injective hkey
  subst hsame
  rw [(List.mem_filter.1 hu).2] at h
  cases h

/--
The text of a scrape is read back: every series is told once; the requests by method and class,
where nothing told is zero, the cumulative buckets with their bounds, the total and the single
counters are those that were loaded, with their sign, and the sum is the double that was written.
-/
theorem encode_read_back (load : Cell → BitVec 64) : ∃ ls, parse (encode load) = some ls ∧
    ((samplesOf ls).map Sample.key).Nodup ∧
    (∀ m c, (told ls (.requests m c)).getD 0 = ((load (.requests m c)).toNat : ℚ)) ∧
    (∀ i, told ls (.bucket i) = some ((cumulative load i).toNat : ℚ) ∧
      ∃ q, Double.readDecimal (Double.display (edge i)) = some q ∧ Double.nearest q = edge i) ∧
    told ls .infinite = some ((load .durationCount).toNat : ℚ) ∧
    told ls .count = some ((load .durationCount).toNat : ℚ) ∧
    (∃ q, told ls .sum = some q ∧ Double.nearest q = sumSecs load) ∧
    told ls .inFlight = some ((load .inFlight).toInt : ℚ) ∧
    told ls .connections = some ((load .connections).toInt : ℚ) ∧
    told ls .requestBytes = some ((load .requestBytes).toNat : ℚ) ∧
    told ls .responseBytes = some ((load .responseBytes).toNat : ℚ) ∧
    told ls .cacheHits = some ((load .cacheHits).toNat : ℚ) ∧
    told ls .cacheMisses = some ((load .cacheMisses).toNat : ℚ) := by
  have hdecimal {s : Series} {n : Nat} (hs : s.shown load = true) (h : s.value load = decimal n) :
      told (lines load) s = some (n : ℚ) := by
    rw [told_of_shown hs, h, number_decimal]
  have hsigned {s : Series} {z : Int} (hs : s.shown load = true) (h : s.value load = signed z) :
      told (lines load) s = some (z : ℚ) := by
    rw [told_of_shown hs, h, number_signed]
  refine ⟨lines load, ?_, nodup_lines load, fun m c => ?_, fun i => ⟨hdecimal rfl rfl, read_edge i⟩,
    hdecimal rfl rfl, hdecimal rfl rfl, ?_, hsigned rfl rfl, hsigned rfl rfl, hdecimal rfl rfl,
    hdecimal rfl rfl, hdecimal rfl rfl, hdecimal rfl rfl⟩
  · rw [encode_eq, parse_writeText (proper_lines load)]
  · by_cases h : load (.requests m c) = 0
    · rw [told_of_hidden (s := .requests m c) (decide_eq_false (not_not.2 h)), h]
      rfl
    · rw [hdecimal (s := .requests m c) (decide_eq_true h) rfl, Option.getD_some]
  · obtain ⟨q, hq, hnear⟩ := number_sum load
    exact ⟨q, (told_of_shown (s := .sum) rfl).trans hq, hnear⟩

end Metrics
end OxideHttp
