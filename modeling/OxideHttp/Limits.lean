import OxideHttp.Multipart.Limits
import OxideHttp.ReadinessCheck
import OxideHttp.Units

/-!
# Limits on their way to where they are enforced

A limit is given to the constructor as a number or a text, checked there (`js/index.ts`:
`count`, `parseBytes`, `parseDuration`), handed over as an `i64`, and narrowed on the other
side (`src/lib.rs`: `listen`, `multipart_config`; `src/server.rs`: `build_auto`) to the width
that the socket, hyper or the form parser wants.  The request timeout stays on the JS side
(`js/pipeline.ts`: `withTimeout`).

Results.
* `inForce_eq`: the value that is in force for an accepted number.
* `kept_iff`, `not_smaller_iff`: when that is the number itself or the greatest value of its
  width, and when it is at least not a smaller one.
-/

namespace OxideHttp
namespace Limits

open OxideHttp.Routing (Text)
open OxideHttp.Units (Number Value parseBytes parseDuration)

/-! ## The wrapper -/

/-- `Http2Config`. -/
structure Http2Config where
  maxConcurrentStreams : Option Number
  initialWindowSize : Value
  maxResetStreamsPerSec : Option Number

/-- `ServerConfig`, with the limits whose width changes. -/
structure ServerConfig where
  backlog : Option Number
  maxHeaderSize : Value
  http2 : Option Http2Config
  requestTimeout : Value

/-- `MultipartConfig`, of a route. -/
structure MultipartConfig where
  maxFileSize : Value
  maxFieldSize : Value
  maxFiles : Option Number
  maxFields : Option Number
  allowedMimeTypes : Option (List String)
  allowedExtensions : Option (List String)

/-- `Http2Options`. -/
structure Http2Options where
  maxConcurrentStreams : Option Int64
  initialWindowSize : Option Int64
  maxResetStreamsPerSec : Option Int64

/-- `ListenOptions`. -/
structure ListenOptions where
  backlog : Option Int64
  maxHeaderSize : Option Int64
  http2 : Option Http2Options

/-- What the constructor leaves behind. -/
structure Server where
  options : ListenOptions
  requestTimeout : Option Number

/-- What arrives as an `i64`: the fraction is cut off. -/
def toI64 : Number → Int64
  | .finite q => Int64.ofInt (q.num.tdiv q.den)
  | _ => 0

section Wrapper

-- `toLowerCase`, and how a number is printed
variable (lowercase : Text → Text) (numberText : Number → Text)

/-- `count`. -/
def count (name : String) (v : Number) : Except Text Number :=
  let refused : Except Text Number :=
    .error (name.toList ++ ": expected a non-negative integer, got ".toList ++ numberText v)
  match v with
  | .finite q => if q.den ≠ 1 ∨ q < 0 then refused else .ok v
  | _ => refused

/-- `normalizeHttp2`. -/
def normalizeHttp2 (h : Http2Config) : Except Text Http2Options := do
  let streams ← h.maxConcurrentStreams.mapM (count numberText "http2.maxConcurrentStreams")
  let window ← parseBytes lowercase numberText h.initialWindowSize
  let resets ← h.maxResetStreamsPerSec.mapM (count numberText "http2.maxResetStreamsPerSec")
  pure ⟨streams.map toI64, window.map toI64, resets.map toI64⟩

/-- The constructor. -/
def newServer (config : ServerConfig) : Except Text Server := do
  let requestTimeout ← parseDuration lowercase numberText config.requestTimeout
  let maxHeaderSize ← parseBytes lowercase numberText config.maxHeaderSize
  let backlog ← config.backlog.mapM (count numberText "backlog")
  let http2 ← config.http2.mapM (normalizeHttp2 lowercase numberText)
  pure ⟨⟨backlog.map toI64, maxHeaderSize.map toI64, http2⟩, requestTimeout⟩

/-- An option with a default. -/
def orDefault (v : Value) (s : String) : Value :=
  match v with
  | .absent => .string s.toList
  | _ => v

/-- `normalizeMultipart`. -/
def normalizeMultipart (o : MultipartConfig) : Except Text Multipart.MultipartOptions := do
  let maxFileSize ← parseBytes lowercase numberText (orDefault o.maxFileSize "50mb")
  let maxFieldSize ← parseBytes lowercase numberText (orDefault o.maxFieldSize "1mb")
  let maxFiles ← count numberText "multipart.maxFiles" (o.maxFiles.getD (.finite 10))
  let maxFields ← count numberText "multipart.maxFields" (o.maxFields.getD (.finite 100))
  pure ⟨maxFileSize.map toI64, maxFieldSize.map toI64, some (toI64 maxFiles),
    some (toI64 maxFields), o.allowedMimeTypes, o.allowedExtensions⟩

end Wrapper

/-! ## Behind the wrapper -/

/-- `Tuning`, with the backlog of its socket. -/
structure Tuning where
  backlog : Int32
  maxHeaderSize : Option Nat
  maxConcurrentStreams : Option UInt32
  initialWindowSize : Option UInt32
  maxResetStreams : Option Nat

/-- `listen`; the casts truncate, and a `usize` has 64 bits. -/
def listen (o : ListenOptions) : Tuning where
  backlog := ((o.backlog.filter (0 < ·)).map Int64.toInt32).getD 1024
  maxHeaderSize := (o.maxHeaderSize.filter (0 < ·)).map Int64.toNatClampNeg
  maxConcurrentStreams := Multipart.u32Of (o.http2.bind (·.maxConcurrentStreams))
  initialWindowSize := Multipart.u32Of (o.http2.bind (·.initialWindowSize))
  maxResetStreams := Multipart.u64Of (o.http2.bind (·.maxResetStreamsPerSec))

/-- `MIN_HEADER_BUF`. -/
def MIN_HEADER_BUF : Nat := 8192

/-- What hyper is told. -/
structure Builder where
  maxBufSize : Option Nat
  maxHeaderListSize : Option UInt32
  maxConcurrentStreams : Option UInt32
  initialStreamWindowSize : Option UInt32
  maxPendingAcceptResetStreams : Option Nat

/-- `build_auto`. -/
def buildAuto (t : Tuning) : Builder where
  maxBufSize := t.maxHeaderSize.map (max · MIN_HEADER_BUF)
  maxHeaderListSize := t.maxHeaderSize.map UInt32.ofNat
  maxConcurrentStreams := t.maxConcurrentStreams
  initialStreamWindowSize := t.initialWindowSize
  maxPendingAcceptResetStreams := t.maxResetStreams

/-- The delay that `setTimeout` makes of a number. -/
def setTimeoutDelay : Number → Nat
  | .finite q => if 1 ≤ q ∧ q ≤ 2147483647 then ⌊q⌋₊ else 1
  | _ => 1

/-- Where requests are dispatched: the delay that `withTimeout` is given, if it is called. -/
def withTimeoutDelay : Option Number → Option Nat
  | none | some .nan => none
  | some x => if x = .finite 0 then none else some (setTimeoutDelay x)

theorem setTimeoutDelay_natCast (n : Nat) :
    setTimeoutDelay (.finite n) = ReadinessCheck.timerDelay n := by
  rw [setTimeoutDelay, ReadinessCheck.timerDelay, Nat.floor_natCast]
  refine if_congr (and_congr ?_ ?_) rfl rfl
  · exact_mod_cast Iff.rfl
  · exact_mod_cast Iff.rfl

/-! ## From one end to the other -/

/-- A server and the form of a route. -/
structure Setup where
  server : ServerConfig
  multipart : MultipartConfig

structure Running where
  server : Server
  multipart : Multipart.MultipartOptions

inductive Limit
  | backlog
  /-- `maxHeaderSize`, for HTTP/2 -/
  | headerList
  /-- `maxHeaderSize`, for HTTP/1 -/
  | headerBuffer
  | concurrentStreams
  | windowSize
  | resetStreams
  | files
  | fields
  | requestTimeout

section Run

variable (lowercase : Text → Text) (numberText : Number → Text)

/-- The constructor, and the registration of the route. -/
def start (s : Setup) : Except Text Running := do
  let server ← newServer lowercase numberText s.server
  let multipart ← normalizeMultipart lowercase numberText s.multipart
  pure ⟨server, multipart⟩

/-- The number that the wrapper accepts for a limit, if the limit is given. -/
def Limit.given (l : Limit) (s : Setup) : Except Text (Option Number) :=
  match l with
  | .backlog => s.server.backlog.mapM (count numberText "backlog")
  | .headerList | .headerBuffer => parseBytes lowercase numberText s.server.maxHeaderSize
  | .concurrentStreams =>
      match s.server.http2 with
      | none => .ok none
      | some h =>
          h.maxConcurrentStreams.mapM (count numberText "http2.maxConcurrentStreams")
  | .windowSize =>
      match s.server.http2 with
      | none => .ok none
      | some h => parseBytes lowercase numberText h.initialWindowSize
  | .resetStreams =>
      match s.server.http2 with
      | none => .ok none
      | some h =>
          h.maxResetStreamsPerSec.mapM (count numberText "http2.maxResetStreamsPerSec")
  | .files =>
      (count numberText "multipart.maxFiles" (s.multipart.maxFiles.getD (.finite 10))).map some
  | .fields =>
      (count numberText "multipart.maxFields" (s.multipart.maxFields.getD (.finite 100))).map some
  | .requestTimeout => parseDuration lowercase numberText s.server.requestTimeout

/-- The value in force, if one is handed over. -/
def Limit.inForce (lower : String → String) (l : Limit) (r : Running) : Option ℤ :=
  let tuning := listen r.server.options
  let form := Multipart.multipartConfig lower r.multipart
  match l with
  | .backlog => some tuning.backlog.toInt
  | .headerList => (buildAuto tuning).maxHeaderListSize.map fun n => (n.toNat : ℤ)
  | .headerBuffer => (buildAuto tuning).maxBufSize.map fun n : Nat => (n : ℤ)
  | .concurrentStreams => (buildAuto tuning).maxConcurrentStreams.map fun n => (n.toNat : ℤ)
  | .windowSize => (buildAuto tuning).initialStreamWindowSize.map fun n => (n.toNat : ℤ)
  | .resetStreams => (buildAuto tuning).maxPendingAcceptResetStreams.map fun n : Nat => (n : ℤ)
  | .files => form.maxFiles.map fun n => (n.toNat : ℤ)
  | .fields => form.maxFields.map fun n => (n.toNat : ℤ)
  | .requestTimeout => (withTimeoutDelay r.server.requestTimeout).map fun n : Nat => (n : ℤ)

/-- The greatest value that can be in force. -/
def Limit.max : Limit → Nat
  | .backlog | .requestTimeout => 2 ^ 31 - 1
  | .headerList | .concurrentStreams | .windowSize | .files | .fields => 2 ^ 32 - 1
  | .headerBuffer | .resetStreams => 2 ^ 64 - 1

/-- What is handed over for a number. -/
def Limit.handed (l : Limit) (n : Nat) : Option ℤ :=
  match l with
  | .backlog => some (if n = 0 then 1024 else (n : ℤ).bmod (2 ^ 32))
  | .headerList => if n = 0 then none else some ((n % 2 ^ 32 : Nat) : ℤ)
  | .headerBuffer => if n = 0 then none else some ((Nat.max n MIN_HEADER_BUF : Nat) : ℤ)
  | .concurrentStreams | .windowSize | .files | .fields => some ((n % 2 ^ 32 : Nat) : ℤ)
  | .resetStreams => some (n : ℤ)
  | .requestTimeout => if n = 0 then none else some (ReadinessCheck.timerDelay n : ℤ)

/-! ### The casts -/

theorem toI64_natCast {n : Nat} (hn : n ≤ 2 ^ 53) : (toI64 (.finite n)).toInt = n := by
  rw [toI64, Rat.num_natCast, Rat.den_natCast, Int.natCast_one, Int.tdiv_one]
  exact Int64.toInt_ofInt_of_le (by omega) (by omega)

theorem filter_nonneg {i : Int64} {n : Nat} (hi : i.toInt = n) :
    (some i).filter (0 ≤ ·) = some i := by
  rw [Option.filter_some, if_pos]
  rw [decide_eq_true_iff, Int64.le_iff_toInt_le, hi]
  exact Int.natCast_nonneg n

theorem filter_pos {i : Int64} {n : Nat} (hi : i.toInt = n) :
    (some i).filter (0 < ·) = if n = 0 then none else some i := by
  have hpos : 0 < i ↔ ¬ n = 0 := by
    rw [Int64.lt_iff_toInt_lt, hi, Int64.toInt_zero]
    omega
  rw [Option.filter_some]
  simp only [decide_eq_true_iff, hpos]
  split <;> simp_all

theorem toNatClampNeg_eq {i : Int64} {n : Nat} (hi : i.toInt = n) : i.toNatClampNeg = n := by
  rw [Int64.toNatClampNeg, hi, Int.toNat_natCast]

theorem u32Of_eq {i : Int64} {n : Nat} (hi : i.toInt = n) :
    (Multipart.u32Of (some i)).map (fun m => (m.toNat : ℤ)) =
      some ((n % 2 ^ 32 : Nat) : ℤ) := by
  rw [Multipart.u32Of, filter_nonneg hi, Option.map_some, Option.map_some, toNatClampNeg_eq hi,
    UInt32.toNat_ofNat']

theorem u64Of_eq {i : Int64} {n : Nat} (hi : i.toInt = n) :
    (Multipart.u64Of (some i)).map (fun m : Nat => (m : ℤ)) = some (n : ℤ) := by
  rw [Multipart.u64Of, filter_nonneg hi, Option.map_some, Option.map_some, toNatClampNeg_eq hi]

/-- The size limit of the headers, as a `usize`. -/
theorem listen_maxHeaderSize {o : ListenOptions} {i : Int64} {n : Nat}
    (ho : o.maxHeaderSize = some i) (hi : i.toInt = n) :
    (listen o).maxHeaderSize = if n = 0 then none else some n := by
  rw [listen, ho, filter_pos hi]
  split
  · rfl
  · rw [Option.map_some, toNatClampNeg_eq hi]

theorem listen_backlog {o : ListenOptions} {i : Int64} {n : Nat} (ho : o.backlog = some i)
    (hi : i.toInt = n) :
    (listen o).backlog.toInt = if n = 0 then 1024 else (n : ℤ).bmod (2 ^ 32) := by
  rw [listen, ho, filter_pos hi]
  split
  · rfl
  · rw [Option.map_some, Option.getD_some, Int64.toInt_toInt32, hi]

theorem withTimeoutDelay_natCast (n : Nat) :
    withTimeoutDelay (some (.finite n)) =
      if n = 0 then none else some (ReadinessCheck.timerDelay n) := by
  rw [withTimeoutDelay, setTimeoutDelay_natCast]
  · simp
  · simp

/-! ### What is in force -/

theorem bind_eq_ok {α β : Type} {x : Except Text α} {f : α → Except Text β} {b : β}
    (h : x >>= f = .ok b) : ∃ a, x = .ok a ∧ f a = .ok b := by
  cases x with
  | error e => cases h
  | ok a => exact ⟨a, rfl, h⟩

theorem map_eq_ok {α β : Type} {x : Except Text α} {f : α → β} {b : β}
    (h : f <$> x = .ok b) : ∃ a, x = .ok a ∧ f a = b := by
  cases x with
  | error e => cases h
  | ok a => exact ⟨a, rfl, Except.ok.inj h⟩

variable {lowercase numberText}

theorem newServer_eq_ok {config : ServerConfig} {server : Server}
    (h : newServer lowercase numberText config = .ok server) :
    ∃ requestTimeout maxHeaderSize backlog http2,
      parseDuration lowercase numberText config.requestTimeout = .ok requestTimeout ∧
      parseBytes lowercase numberText config.maxHeaderSize = .ok maxHeaderSize ∧
      config.backlog.mapM (count numberText "backlog") = .ok backlog ∧
      config.http2.mapM (normalizeHttp2 lowercase numberText) = .ok http2 ∧
      server = ⟨⟨backlog.map toI64, maxHeaderSize.map toI64, http2⟩, requestTimeout⟩ := by
  obtain ⟨requestTimeout, htimeout, h⟩ := bind_eq_ok h
  obtain ⟨maxHeaderSize, hsize, h⟩ := bind_eq_ok h
  obtain ⟨backlog, hbacklog, h⟩ := bind_eq_ok h
  obtain ⟨http2, hhttp2, h⟩ := bind_eq_ok h
  exact ⟨requestTimeout, maxHeaderSize, backlog, http2, htimeout, hsize, hbacklog, hhttp2,
    (Except.ok.inj h).symm⟩

theorem normalizeHttp2_eq_ok {h : Http2Config} {o : Http2Options}
    (heq : normalizeHttp2 lowercase numberText h = .ok o) :
    ∃ streams window resets,
      h.maxConcurrentStreams.mapM (count numberText "http2.maxConcurrentStreams") =
        .ok streams ∧
      parseBytes lowercase numberText h.initialWindowSize = .ok window ∧
      h.maxResetStreamsPerSec.mapM (count numberText "http2.maxResetStreamsPerSec") =
        .ok resets ∧
      o = ⟨streams.map toI64, window.map toI64, resets.map toI64⟩ := by
  obtain ⟨streams, hstreams, heq⟩ := bind_eq_ok heq
  obtain ⟨window, hwindow, heq⟩ := bind_eq_ok heq
  obtain ⟨resets, hresets, heq⟩ := bind_eq_ok heq
  exact ⟨streams, window, resets, hstreams, hwindow, hresets, (Except.ok.inj heq).symm⟩

/-- Where HTTP/2 is configured, its options are. -/
theorem http2_eq_ok {config : Option Http2Config} {http2 : Option Http2Options} {c : Http2Config}
    (hc : config = some c)
    (h : config.mapM (normalizeHttp2 lowercase numberText) = .ok http2) :
    ∃ streams window resets,
      c.maxConcurrentStreams.mapM (count numberText "http2.maxConcurrentStreams") =
        .ok streams ∧
      parseBytes lowercase numberText c.initialWindowSize = .ok window ∧
      c.maxResetStreamsPerSec.mapM (count numberText "http2.maxResetStreamsPerSec") =
        .ok resets ∧
      http2 = some ⟨streams.map toI64, window.map toI64, resets.map toI64⟩ := by
  subst hc
  obtain ⟨o, ho, rfl⟩ := map_eq_ok h
  obtain ⟨streams, window, resets, hstreams, hwindow, hresets, rfl⟩ := normalizeHttp2_eq_ok ho
  exact ⟨streams, window, resets, hstreams, hwindow, hresets, rfl⟩

/-- A limit of HTTP/2 is given only where HTTP/2 is configured. -/
theorem http2_of_given {s : Setup} {l : Limit} {x : Number}
    (hl : l = .concurrentStreams ∨ l = .windowSize ∨ l = .resetStreams)
    (h : l.given lowercase numberText s = .ok (some x)) : ∃ c, s.server.http2 = some c := by
  cases hconfig : s.server.http2 with
  | some c => exact ⟨c, rfl⟩
  | none =>
      obtain rfl | rfl | rfl := hl
      all_goals
        rw [Limit.given, hconfig] at h
        cases h

theorem normalizeMultipart_eq_ok {o : MultipartConfig} {m : Multipart.MultipartOptions}
    (h : normalizeMultipart lowercase numberText o = .ok m) :
    ∃ files fields,
      count numberText "multipart.maxFiles" (o.maxFiles.getD (.finite 10)) = .ok files ∧
      count numberText "multipart.maxFields" (o.maxFields.getD (.finite 100)) = .ok fields ∧
      m.maxFiles = some (toI64 files) ∧ m.maxFields = some (toI64 fields) := by
  obtain ⟨maxFileSize, -, h⟩ := bind_eq_ok h
  obtain ⟨maxFieldSize, -, h⟩ := bind_eq_ok h
  obtain ⟨files, hfiles, h⟩ := bind_eq_ok h
  obtain ⟨fields, hfields, h⟩ := bind_eq_ok h
  obtain rfl := Except.ok.inj h
  exact ⟨files, fields, hfiles, hfields, rfl, rfl⟩

/-- The value that is in force for an accepted number. -/
theorem inForce_eq (lower : String → String) {l : Limit} {s : Setup} {r : Running} {n : Nat}
    (hstart : start lowercase numberText s = .ok r)
    (hgiven : l.given lowercase numberText s = .ok (some (.finite n))) (hn : n ≤ 2 ^ 53) :
    l.inForce lower r = l.handed n := by
  obtain ⟨server, hserver, hstart⟩ := bind_eq_ok hstart
  obtain ⟨multipart, hmultipart, hstart⟩ := bind_eq_ok hstart
  obtain rfl := Except.ok.inj hstart
  obtain ⟨requestTimeout, maxHeaderSize, backlog, http2, htimeout, hsize, hbacklog, hhttp2, rfl⟩ :=
    newServer_eq_ok hserver
  obtain ⟨files, fields, hfiles, hfields, hmfiles, hmfields⟩ := normalizeMultipart_eq_ok hmultipart
  have hi := toI64_natCast hn
  cases l with
  | backlog =>
      obtain rfl := Except.ok.inj (hbacklog.symm.trans hgiven)
      rw [Limit.inForce, Limit.handed]
      exact congrArg some (listen_backlog rfl hi)
  | headerList =>
      obtain rfl := Except.ok.inj (hsize.symm.trans hgiven)
      rw [Limit.inForce, Limit.handed, buildAuto, listen_maxHeaderSize rfl hi]
      split
      · rfl
      · exact congrArg (fun m : Nat => some (m : ℤ)) UInt32.toNat_ofNat'
  | headerBuffer =>
      obtain rfl := Except.ok.inj (hsize.symm.trans hgiven)
      rw [Limit.inForce, Limit.handed, buildAuto, listen_maxHeaderSize rfl hi]
      split <;> rfl
  | concurrentStreams =>
      obtain ⟨c, hc⟩ := http2_of_given (Or.inl rfl) hgiven
      obtain ⟨streams, window, resets, hstreams, -, -, rfl⟩ := http2_eq_ok hc hhttp2
      rw [Limit.given, hc] at hgiven
      obtain rfl := Except.ok.inj (hstreams.symm.trans hgiven)
      exact u32Of_eq hi
  | windowSize =>
      obtain ⟨c, hc⟩ := http2_of_given (Or.inr (Or.inl rfl)) hgiven
      obtain ⟨streams, window, resets, -, hwindow, -, rfl⟩ := http2_eq_ok hc hhttp2
      rw [Limit.given, hc] at hgiven
      obtain rfl := Except.ok.inj (hwindow.symm.trans hgiven)
      exact u32Of_eq hi
  | resetStreams =>
      obtain ⟨c, hc⟩ := http2_of_given (Or.inr (Or.inr rfl)) hgiven
      obtain ⟨streams, window, resets, -, -, hresets, rfl⟩ := http2_eq_ok hc hhttp2
      rw [Limit.given, hc] at hgiven
      obtain rfl := Except.ok.inj (hresets.symm.trans hgiven)
      exact u64Of_eq hi
  | files =>
      obtain ⟨m, hm, hgiven⟩ := map_eq_ok hgiven
      obtain rfl := Except.ok.inj (hfiles.symm.trans hm)
      obtain rfl := Option.some.inj hgiven
      rw [Limit.inForce, Multipart.multipartConfig, hmfiles]
      exact u32Of_eq hi
  | fields =>
      obtain ⟨m, hm, hgiven⟩ := map_eq_ok hgiven
      obtain rfl := Except.ok.inj (hfields.symm.trans hm)
      obtain rfl := Option.some.inj hgiven
      rw [Limit.inForce, Multipart.multipartConfig, hmfields]
      exact u32Of_eq hi
  | requestTimeout =>
      obtain rfl := Except.ok.inj (htimeout.symm.trans hgiven)
      rw [Limit.inForce, Limit.handed, withTimeoutDelay_natCast]
      split <;> rfl

/-! ### When a limit is kept -/

/-- The value in force, where there is one, is the number or the greatest value that can be in
force. -/
def Kept (lower : String → String) (l : Limit) (n : Nat) (r : Running) : Prop :=
  ∀ v, l.inForce lower r = some v → v = min n l.max

/-- The numbers that are not wrapped, and those that wrap to the greatest value. -/
def Limit.Fits (l : Limit) (n : Nat) : Prop :=
  match l with
  | .backlog | .headerList | .concurrentStreams | .windowSize | .files | .fields =>
      n ≤ l.max ∨ n % 2 ^ 32 = l.max
  | .headerBuffer | .resetStreams => True
  | .requestTimeout => n ≤ l.max

/-- A backlog of 0 stands for the default one, and HTTP/1 has a least buffer. -/
def Limit.AsGiven (l : Limit) (n : Nat) : Prop :=
  match l with
  | .backlog => 0 < n
  | .headerBuffer => n = 0 ∨ MIN_HEADER_BUF ≤ n
  | .headerList | .concurrentStreams | .windowSize | .resetStreams | .files | .fields
  | .requestTimeout => True

theorem forall_some {x : ℤ} {p : ℤ → Prop} : (∀ v, some x = some v → p v) ↔ p x :=
  ⟨fun h => h x rfl, fun h _ hv => Option.some.inj hv ▸ h⟩

/-- A cast to 32 bits without a sign. -/
theorem mod_eq_min_iff (n : Nat) :
    ((n % 2 ^ 32 : Nat) : ℤ) = (min n (2 ^ 32 - 1) : Nat) ↔
      n ≤ 2 ^ 32 - 1 ∨ n % 2 ^ 32 = 2 ^ 32 - 1 := by
  omega

/-- A cast to 32 bits with a sign. -/
theorem bmod_eq_min_iff (n : Nat) :
    (n : ℤ).bmod (2 ^ 32) = (min n (2 ^ 31 - 1) : Nat) ↔
      n ≤ 2 ^ 31 - 1 ∨ n % 2 ^ 32 = 2 ^ 31 - 1 := by
  rw [Int.bmod_def]
  omega

/-- An accepted number is in force, or the greatest value of its width is, just when the number
fits and is not replaced by a default or a least value. -/
theorem kept_iff (lower : String → String) {l : Limit} {s : Setup} {r : Running} {n : Nat}
    (hstart : start lowercase numberText s = .ok r)
    (hgiven : l.given lowercase numberText s = .ok (some (.finite n))) (hn : n ≤ 2 ^ 53) :
    Kept lower l n r ↔ l.Fits n ∧ l.AsGiven n := by
  have hmin : min n (2 ^ 64 - 1) = n := Nat.min_eq_left (by omega)
  rw [Kept, inForce_eq lower hstart hgiven hn]
  cases l with
  | backlog =>
      rw [Limit.handed, forall_some, Limit.Fits, Limit.AsGiven, Limit.max]
      by_cases hzero : n = 0
      · subst hzero
        decide
      · rw [if_neg hzero, bmod_eq_min_iff, and_iff_left (Nat.pos_of_ne_zero hzero)]
  | headerList =>
      rw [Limit.handed, Limit.Fits, Limit.AsGiven, Limit.max, and_true]
      by_cases hzero : n = 0
      · subst hzero
        simp
      · rw [if_neg hzero, forall_some, mod_eq_min_iff]
  | headerBuffer =>
      rw [Limit.handed, Limit.Fits, Limit.AsGiven, Limit.max, true_and]
      by_cases hzero : n = 0
      · simp [hzero]
      · rw [if_neg hzero, forall_some, or_iff_right hzero, hmin, Int.natCast_inj]
        exact max_eq_left_iff
  | concurrentStreams | windowSize | files | fields =>
      rw [Limit.handed, forall_some, Limit.Fits, Limit.AsGiven, Limit.max, mod_eq_min_iff,
        and_true]
  | resetStreams =>
      rw [Limit.handed, forall_some, Limit.Fits, Limit.AsGiven, Limit.max, hmin]
      exact iff_of_true rfl ⟨trivial, trivial⟩
  | requestTimeout =>
      rw [Limit.handed, Limit.Fits, Limit.AsGiven, Limit.max, and_true]
      by_cases hzero : n = 0
      · simp [hzero]
      · rw [if_neg hzero, forall_some, ReadinessCheck.timerDelay]
        split <;> omega

/-- A default or a least value is never less than the number, so that only a number that does
not fit is in force as a smaller one. -/
theorem not_smaller_iff (lower : String → String) {l : Limit} {s : Setup} {r : Running} {n : Nat}
    (hstart : start lowercase numberText s = .ok r)
    (hgiven : l.given lowercase numberText s = .ok (some (.finite n))) (hn : n ≤ 2 ^ 53) :
    (∀ v, l.inForce lower r = some v → (n : ℤ) ≤ v ∨ v = l.max) ↔ l.Fits n := by
  rw [inForce_eq lower hstart hgiven hn]
  cases l with
  | backlog =>
      rw [Limit.handed, forall_some, Limit.Fits, Limit.max]
      by_cases hzero : n = 0
      · subst hzero
        decide
      · rw [if_neg hzero, Int.bmod_def]
        omega
  | headerList =>
      rw [Limit.handed, Limit.Fits, Limit.max]
      by_cases hzero : n = 0
      · subst hzero
        simp
      · rw [if_neg hzero, forall_some]
        omega
  | headerBuffer =>
      rw [Limit.handed, Limit.Fits]
      refine iff_of_true (fun v hv => Or.inl ?_) trivial
      by_cases hzero : n = 0
      · rw [if_pos hzero] at hv
        cases hv
      · rw [if_neg hzero] at hv
        obtain rfl := Option.some.inj hv
        exact Int.ofNat_le.2 (Nat.le_max_left n MIN_HEADER_BUF)
  | concurrentStreams | windowSize | files | fields =>
      rw [Limit.handed, forall_some, Limit.Fits, Limit.max]
      omega
  | resetStreams =>
      rw [Limit.handed, forall_some, Limit.Fits]
      exact iff_of_true (Or.inl le_rfl) trivial
  | requestTimeout =>
      rw [Limit.handed, Limit.Fits, Limit.max]
      by_cases hzero : n = 0
      · simp [hzero]
      · rw [if_neg hzero, forall_some, ReadinessCheck.timerDelay]
        split <;> omega

end Run

/-! ### A backlog that becomes negative -/

theorem count_natCast (numberText : Number → Text) (name : String) (n : Nat) :
    count numberText name (.finite n) = .ok (.finite n) := by
  have hden : ¬ ((n : ℚ).den ≠ 1 ∨ (n : ℚ) < 0) := by
    rw [Rat.den_natCast, not_or]
    exact ⟨not_not.2 rfl, not_lt.2 (Nat.cast_nonneg n)⟩
  exact if_neg hden

/-- A server with this backlog. -/
def withBacklog (n : Nat) : Setup where
  server := ⟨some (.finite n), .absent, none, .absent⟩
  multipart := ⟨.number (.finite 1000), .number (.finite 1000), none, none, none, none⟩

theorem given_withBacklog (n : Nat) :
    Limit.backlog.given lower (fun _ => []) (withBacklog n) = .ok (some (.finite n)) :=
  congrArg (Option.some <$> ·) (count_natCast (fun _ => []) "backlog" n)

theorem start_withBacklog (n : Nat) :
    ∃ r, start lower (fun _ => []) (withBacklog n) = .ok r := by
  have hserver : newServer lower (fun _ => []) (withBacklog n).server =
      .ok ⟨⟨some (toI64 (.finite n)), none, none⟩, none⟩ := by
    have hbacklog := given_withBacklog n
    rw [Limit.given] at hbacklog
    rw [newServer, hbacklog]
    rfl
  have hmultipart : normalizeMultipart lower (fun _ => []) (withBacklog n).multipart =
      .ok ⟨some (toI64 (.finite 1000)), some (toI64 (.finite 1000)), some (toI64 (.finite 10)),
        some (toI64 (.finite 100)), none, none⟩ := rfl
  rw [start, hserver]
  exact ⟨_, congrArg (Except.map _) hmultipart⟩

theorem kept_backlog : ∃ r, start lower (fun _ => []) (withBacklog 4096) = .ok r ∧
    Kept id .backlog 4096 r := by
  obtain ⟨r, hr⟩ := start_withBacklog 4096
  exact ⟨r, hr, (kept_iff id hr (given_withBacklog 4096) (by decide)).2
    ⟨Or.inl (by decide), Nat.succ_pos 4095⟩⟩

/-- A backlog of `2 ^ 31` is in force as a negative number, `2 ^ 32` files are none at all, and
25 days are a millisecond. -/
theorem not_kept :
    (¬ ∀ (l : Limit) (s : Setup) (r : Running) (n : Nat),
      start lower (fun _ => []) s = .ok r →
      l.given lower (fun _ => []) s = .ok (some (.finite n)) → n ≤ 2 ^ 53 → Kept id l n r) ∧
    Limit.backlog.handed (2 ^ 31) = some (-2147483648) ∧
    Limit.files.handed (2 ^ 32) = some 0 ∧
    Limit.requestTimeout.handed (2 ^ 31) = some 1 := by
  have hbacklog : Limit.backlog.handed (2 ^ 31) = some (-2147483648) := by decide
  refine ⟨fun h => ?_, hbacklog, by decide, by decide⟩
  obtain ⟨r, hr⟩ := start_withBacklog (2 ^ 31)
  have hgiven := given_withBacklog (2 ^ 31)
  have hforce := inForce_eq id hr hgiven (by decide)
  have hkept := h .backlog _ r (2 ^ 31) hr hgiven (by decide) _ (hforce.trans hbacklog)
  exact absurd hkept (by decide)

end Limits
end OxideHttp
