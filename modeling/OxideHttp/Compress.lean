import OxideHttp.Http

/-!
# Request body decompression (`src/compress.rs`, `js/context.ts`)

A compressed body is decoded twice: `decode` in Rust, for the schema check, and
`decompress` in JavaScript, for the handler.  The decoders themselves are
libraries (flate2 and brotli on one side, Node's zlib on the other), so they are
parameters: `Codecs` gives what each of them answers and how a body reads in the format
of a coding, and `Codecs.Documented` what is known of the answers by that format.

Result: `same_document`, when the document that Rust validates is the document that the
handler reads, by the lines and the raw bytes of the request.
-/

namespace OxideHttp
namespace Compress

/-- The encodings that are implemented. -/
inductive Coding where
  | gzip
  | deflate
  | br
  deriving DecidableEq, Repr

/-- The names under which both sides know them. -/
def Coding.ofName : String → Option Coding
  | "gzip" | "x-gzip" => some .gzip
  | "deflate" => some .deflate
  | "br" => some .br
  | _ => none

/-- What a `Read` decoder yields when it is read to its end: the chunks, and
whether the last read failed. -/
structure ReadTrace where
  chunks : List Bytes
  failed : Bool
  nonempty : ∀ b ∈ chunks, b ≠ []

/-- How a synchronous zlib call of Node ends. -/
inductive NodeResult where
  | ok (out : Bytes)
  /-- `ERR_BUFFER_TOO_LARGE` -/
  | tooLarge
  /-- `ERR_OUT_OF_RANGE`, whose message names `maxOutputLength` -/
  | outOfRange
  /-- any other error -/
  | invalid
  deriving DecidableEq, Repr

/-- How a body reads in the format of a coding. -/
inductive Format where
  /-- it begins with complete members, only a gzip body with more than one; `rest` is what
  stands behind the last of them -/
  | members (doc : Bytes) (docs : List Bytes) (rest : Bytes)
  /-- its first member is malformed; `out` is what can be decoded of it -/
  | corrupt (out : Bytes)
  /-- it breaks off in its first member -/
  | cut (out : Bytes)
  deriving DecidableEq, Repr

/-- The libraries that decode. -/
structure Codecs where
  /-- `GzDecoder`, `ZlibDecoder`, `Decompressor` -/
  reader : Coding → Bytes → ReadTrace
  /-- `gunzipSync`, `inflateSync`, `brotliDecompressSync` -/
  sync : Coding → Bytes → Option Nat → NodeResult
  /-- `buffer.constants.MAX_LENGTH` -/
  maxLength : Nat
  format : Coding → Bytes → Format

/-- The range that Node's option check lets through. -/
def Codecs.InRange (lib : Codecs) (limit : Option Nat) : Prop :=
  ∀ l, limit = some l → 1 ≤ l ∧ l ≤ lib.maxLength

/-- Node stops behind the last member: gunzip goes on unless the next byte is zero. -/
def Ignored (c : Coding) (rest : Bytes) : Prop :=
  c = .gzip → ∀ b ∈ rest.head?, b = 0

/-- The first member is malformed, or it is one of gzip that lacks its end. -/
def Codecs.Broken (lib : Codecs) (c : Coding) (raw out : Bytes) : Prop :=
  lib.format c raw = .corrupt out ∨ c = .gzip ∧ lib.format c raw = .cut out

/-- What is known of the libraries.  flate2 reads the first member and leaves what stands
behind it, Node reads all members and bounds its output, and both refuse what is broken. -/
structure Codecs.Documented (lib : Codecs) : Prop where
  reader : ∀ c raw doc docs rest, lib.format c raw = .members doc docs rest →
    (c = .br → rest = []) →
    (lib.reader c raw).chunks.flatten = doc ∧ (lib.reader c raw).failed = false
  readerBroken : ∀ c raw out, lib.Broken c raw out →
    (lib.reader c raw).chunks.flatten <+: out ∧ (lib.reader c raw).failed = true
  sync : ∀ c raw doc docs rest limit, lib.format c raw = .members doc docs rest →
    (c = .br → rest = []) → Ignored c rest → lib.InRange limit →
    lib.sync c raw limit =
      if limit.getD lib.maxLength < (doc :: docs).flatten.length then .tooLarge
      else .ok (doc :: docs).flatten
  garbage : ∀ c raw doc docs rest limit, lib.format c raw = .members doc docs rest →
    ¬ Ignored c rest → ∀ out, lib.sync c raw limit ≠ .ok out
  syncBroken : ∀ c raw out limit, lib.Broken c raw out → lib.InRange limit →
    out.length ≤ limit.getD lib.maxLength → lib.sync c raw limit = .invalid
  range : ∀ c raw limit, ¬ lib.InRange limit → lib.sync c raw limit = .outOfRange

/-! ## The Rust side -/

inductive DecodeErr where
  | unsupported
  | invalid
  | tooLarge
  deriving DecidableEq, Repr

/-- `read_bounded`: `out` is what has been read so far. -/
def readBounded (limit : Option BodyLimit) (failed : Bool) :
    Bytes → List Bytes → Except DecodeErr Bytes
  | out, [] => if failed then .error .invalid else .ok out
  | out, chunk :: chunks =>
      if overLimit limit (out ++ chunk).length then .error .tooLarge
      else readBounded limit failed (out ++ chunk) chunks

/-- `decode`. -/
def decode (lib : Codecs) (encoding : String) (body : Bytes)
    (limit : Option BodyLimit) : Except DecodeErr Bytes :=
  match Coding.ofName encoding with
  | some c => readBounded limit (lib.reader c body).failed [] (lib.reader c body).chunks
  | none => .error .unsupported

/-- The status that `dispatch` answers. -/
def DecodeErr.status : DecodeErr → Nat
  | .unsupported => 415
  | .tooLarge => 413
  | .invalid => 400

/-- The `decoded` of `dispatch`: the document handed to the schema. -/
def decodeForSchema (lib : Codecs) (limit : Option BodyLimit)
    (headers : List KvPair) (raw : Bytes) : Except Nat Bytes :=
  match contentEncoding headers with
  | none => .ok raw
  | some enc => (decode lib enc raw limit).mapError DecodeErr.status

/-! ## The JavaScript side -/

/-- `decompress`; an `HttpError` is its status. -/
def decompress (lib : Codecs) (buf : Bytes) (encoding : Option String)
    (limit : Option BodyLimit) : Except Nat Bytes :=
  let enc := trimLower (encoding.getD "")
  if enc.isEmpty || enc == "identity" then .ok buf
  else match Coding.ofName enc with
    | none => .error 415
    | some c =>
        match lib.sync c buf (limit.map BodyLimit.bytes) with
        | .ok out => .ok out
        | .tooLarge | .outOfRange => .error 413
        | .invalid => .error 400

/-- `collectRaw` on a body whose chunks arrive whole: `total` counts them. -/
def collectRaw (limit : Option BodyLimit) : Bytes → List Bytes → Except Nat Bytes
  | acc, [] => .ok acc
  | acc, chunk :: chunks =>
      if overLimit limit (acc ++ chunk).length then .error 413
      else collectRaw limit (acc ++ chunk) chunks

/-- `arrayBuffer` over the chunks that `BodyIo.read` yields. -/
def arrayBuffer (lib : Codecs) (limit : Option BodyLimit)
    (headers : List KvPair) (chunks : List Bytes) : Except Nat Bytes :=
  (collectRaw limit [] chunks).bind fun raw =>
    decompress lib raw (buildReqHeaders headers "content-encoding") limit

/-! ## Reading under a limit -/

theorem readBounded_eq (limit : Option BodyLimit) (failed : Bool) (out : Bytes)
    (chunks : List Bytes) (hout : overLimit limit out.length = false) :
    readBounded limit failed out chunks =
      if overLimit limit (out ++ chunks.flatten).length then .error .tooLarge
      else if failed then .error .invalid
      else .ok (out ++ chunks.flatten) := by
  induction chunks generalizing out with
  | nil => simp [readBounded, hout]
  | cons chunk chunks ih =>
      rw [readBounded, List.flatten_cons, ← List.append_assoc]
      by_cases hover : overLimit limit (out ++ chunk).length = true
      · have hall : overLimit limit (out ++ chunk ++ chunks.flatten).length = true :=
          overLimit_mono (by simp) hover
        rw [if_pos hover, if_pos hall]
      · have hunder : overLimit limit (out ++ chunk).length = false := by
          simpa using hover
        rw [if_neg hover, ih _ hunder]

theorem collectRaw_eq (limit : Option BodyLimit) (acc : Bytes)
    (chunks : List Bytes) (hacc : overLimit limit acc.length = false) :
    collectRaw limit acc chunks =
      if overLimit limit (acc ++ chunks.flatten).length then .error 413
      else .ok (acc ++ chunks.flatten) := by
  have hbounded : collectRaw limit acc chunks =
      (readBounded limit false acc chunks).mapError DecodeErr.status := by
    clear hacc
    induction chunks generalizing acc with
    | nil => rfl
    | cons chunk chunks ih =>
        rw [collectRaw, readBounded, ih]
        split <;> rfl
  rw [hbounded, readBounded_eq limit false acc chunks hacc]
  split <;> rfl

theorem overLimit_zero (limit : Option BodyLimit) : overLimit limit 0 = false := by
  cases limit <;> simp [overLimit]

/-! ## One document or two -/

/-- What a `content-encoding` value asks for. -/
inductive Asked where
  | plain
  | unknown
  | coding (c : Coding)
  deriving DecidableEq, Repr

def asked (value : String) : Asked :=
  if (trimLower value).isEmpty || trimLower value == "identity" then .plain
  else match Coding.ofName (trimLower value) with
    | none => .unknown
    | some c => .coding c

/-- The document that native validation sees, or the status that it is refused
with: `buffer_body` bounds the raw body before it is decoded. -/
def nativeDocument (lib : Codecs) (limit : Option BodyLimit)
    (headers : List KvPair) (raw : Bytes) : Except Nat Bytes :=
  if overLimit limit raw.length then .error 413
  else decodeForSchema lib limit headers raw

/-- The handler reads the document that was validated, and is refused what
native validation refuses; the buffered body reaches it as one chunk. -/
def SameDocument (lib : Codecs) (limit : Option BodyLimit)
    (accepts : Bytes → Bool) (headers : List KvPair) (raw : Bytes) : Prop :=
  (∀ d, nativeDocument lib limit headers raw = .ok d → accepts d = true →
      arrayBuffer lib limit headers [raw] = .ok d) ∧
    ∀ st, nativeDocument lib limit headers raw = .error st →
      arrayBuffer lib limit headers [raw] = .error st

/-- The two libraries answer alike on `raw`: one finds the output too large when
the other does, one fails when the other fails, and an accepted document is the
same. -/
def LibrariesAgree (lib : Codecs) (limit : Option BodyLimit)
    (accepts : Bytes → Bool) (c : Coding) (raw : Bytes) : Prop :=
  let out := (lib.reader c raw).chunks.flatten
  let node := lib.sync c raw (limit.map BodyLimit.bytes)
  if overLimit limit out.length then node = .tooLarge ∨ node = .outOfRange
  else if (lib.reader c raw).failed then node = .invalid
  else accepts out = true → node = .ok out

/-- How much Node decodes under a limit. -/
def Codecs.bound (lib : Codecs) (limit : Option BodyLimit) : Nat :=
  (limit.map BodyLimit.bytes).getD lib.maxLength

/-- The condition on a body under one coding.  Where its first member is within the limit
and accepted, there is nothing else in it; where it is malformed, what can be decoded is
within the bound. -/
def CodingAgrees (lib : Codecs) (limit : Option BodyLimit) (accepts : Bytes → Bool)
    (c : Coding) (raw : Bytes) : Prop :=
  match lib.format c raw with
  | .members doc docs rest =>
      (c = .br → rest = []) ∧
        if overLimit limit doc.length then Ignored c rest
        else accepts doc = true →
          docs.flatten = [] ∧ Ignored c rest ∧ lib.InRange (limit.map BodyLimit.bytes) ∧
            doc.length ≤ lib.bound limit
  | .corrupt out => lib.InRange (limit.map BodyLimit.bytes) ∧ out.length ≤ lib.bound limit
  | .cut out =>
      c = .gzip ∧ lib.InRange (limit.map BodyLimit.bytes) ∧ out.length ≤ lib.bound limit

/-- The condition on a body that JavaScript refuses with 415: Rust decodes it, and the
schema refuses it. -/
def RefusedBySchema (lib : Codecs) (limit : Option BodyLimit) (accepts : Bytes → Bool)
    (c : Coding) (raw : Bytes) : Prop :=
  match lib.format c raw with
  | .members doc _ rest =>
      (c = .br → rest = []) ∧ overLimit limit doc.length = false ∧ accepts doc = false
  | .corrupt _ | .cut _ => False

/-- The condition under which the two sides agree, by the `content-encoding`
lines of the request. -/
def Compatible (lib : Codecs) (limit : Option BodyLimit)
    (accepts : Bytes → Bool) (headers : List KvPair) (raw : Bytes) : Prop :=
  overLimit limit raw.length = true ∨
    match headerLines headers "content-encoding" with
    | [] => True
    | [v] => ∀ c, asked v = .coding c → CodingAgrees lib limit accepts c raw
    | v :: _ :: _ =>
        match asked v with
        | .plain => accepts raw = false
        | .unknown => True
        | .coding c => RefusedBySchema lib limit accepts c raw

/-- The documentation does not say what Rust makes of the body: of a brotli body with
something behind it, and of one that breaks off and has no length at its end. -/
def Codecs.Unsettled (lib : Codecs) (c : Coding) (raw : Bytes) : Prop :=
  match lib.format c raw with
  | .members _ _ rest => c = .br ∧ rest ≠ []
  | .corrupt _ => False
  | .cut _ => c ≠ .gzip

/-- Both sides refuse the body, and the documentation does not say which of two reasons
they give: that it is too long, or that it is malformed. -/
def Codecs.TwoFaults (lib : Codecs) (limit : Option BodyLimit) (c : Coding) (raw : Bytes) :
    Prop :=
  match lib.format c raw with
  | .members doc _ rest => overLimit limit doc.length = true ∧ ¬ Ignored c rest
  | .corrupt out | .cut out => lib.bound limit < out.length

/-- The documentation of the libraries does not decide about the request. -/
def Undocumented (lib : Codecs) (limit : Option BodyLimit) (headers : List KvPair)
    (raw : Bytes) : Prop :=
  match headerLines headers "content-encoding" with
  | [] => False
  | [v] => ∃ c, asked v = .coding c ∧ (lib.Unsettled c raw ∨ lib.TwoFaults limit c raw)
  | v :: _ :: _ => ∃ c, asked v = .coding c ∧ lib.Unsettled c raw

theorem decode_coding (lib : Codecs) (limit : Option BodyLimit) (enc : String)
    (c : Coding) (raw : Bytes) (hc : Coding.ofName enc = some c) :
    decode lib enc raw limit =
      if overLimit limit (lib.reader c raw).chunks.flatten.length then .error .tooLarge
      else if (lib.reader c raw).failed then .error .invalid
      else .ok (lib.reader c raw).chunks.flatten := by
  rw [decode, hc]
  exact readBounded_eq limit _ [] _ (overLimit_zero limit)

theorem decodeForSchema_nil (lib : Codecs) (limit : Option BodyLimit)
    {headers : List KvPair} (raw : Bytes)
    (hlines : headerLines headers "content-encoding" = []) :
    decodeForSchema lib limit headers raw = .ok raw := by
  rw [decodeForSchema, contentEncoding_eq, hlines]
  rfl

/-- The first line decides how Rust decodes. -/
theorem decodeForSchema_cons (lib : Codecs) (limit : Option BodyLimit)
    {headers : List KvPair} (raw : Bytes) {v : String} {vs : List String}
    (hlines : headerLines headers "content-encoding" = v :: vs) :
    decodeForSchema lib limit headers raw =
      match asked v with
      | .plain => .ok raw
      | .unknown => .error 415
      | .coding c =>
          if overLimit limit (lib.reader c raw).chunks.flatten.length then .error 413
          else if (lib.reader c raw).failed then .error 400
          else .ok (lib.reader c raw).chunks.flatten := by
  rw [decodeForSchema, contentEncoding_eq, hlines, List.head?_cons, Option.bind_some,
    asked]
  by_cases hplain : ((trimLower v).isEmpty || trimLower v == "identity") = true
  · simp only [hplain, if_true]
  · simp only [hplain]
    cases hc : Coding.ofName (trimLower v) with
    | none => simp [decode, hc, Except.mapError, DecodeErr.status]
    | some c =>
        simp only [decode_coding lib limit _ c raw hc, Bool.false_eq_true, if_false]
        split
        case isTrue => rfl
        case isFalse => split <;> rfl

/-- One line decides how JavaScript decodes too. -/
theorem decompress_value (lib : Codecs) (limit : Option BodyLimit) (raw : Bytes)
    (v : String) :
    decompress lib raw (some v) limit =
      match asked v with
      | .plain => .ok raw
      | .unknown => .error 415
      | .coding c =>
          match lib.sync c raw (limit.map BodyLimit.bytes) with
          | .ok out => .ok out
          | .tooLarge | .outOfRange => .error 413
          | .invalid => .error 400 := by
  by_cases hplain : ((trimLower v).isEmpty || trimLower v == "identity") = true
  · simp only [decompress, Option.getD_some, asked, hplain, if_true]
  · simp only [decompress, Option.getD_some, asked, hplain]
    cases Coding.ofName (trimLower v) <;> rfl

/-- A value with a comma in it is nothing that either side knows. -/
theorem asked_of_comma {s : String} (hs : ',' ∈ s.toList) : asked s = .unknown := by
  have hmem := comma_mem_trimLower hs
  have hne : ∀ w : String, ',' ∉ w.toList → trimLower s ≠ w := by
    rintro w hw rfl
    exact hw hmem
  have hempty : (trimLower s).isEmpty = false := by
    rw [Bool.eq_false_iff]
    intro hnil
    exact hne "" (by decide) (String.isEmpty_iff.1 hnil)
  have hname : Coding.ofName (trimLower s) = none := by
    unfold Coding.ofName
    split
    case h_1 heq => exact absurd heq (hne _ (by decide))
    case h_2 heq => exact absurd heq (hne _ (by decide))
    case h_3 heq => exact absurd heq (hne _ (by decide))
    case h_4 heq => exact absurd heq (hne _ (by decide))
    case h_5 => rfl
  simp [asked, hempty, hname, hne "identity" (by decide)]

theorem nativeDocument_of_within {lib : Codecs} {limit : Option BodyLimit}
    {headers : List KvPair} {raw : Bytes} (hraw : overLimit limit raw.length = false) :
    nativeDocument lib limit headers raw = decodeForSchema lib limit headers raw := by
  simp [nativeDocument, hraw]

theorem arrayBuffer_of_within {lib : Codecs} {limit : Option BodyLimit}
    {headers : List KvPair} {raw : Bytes} (hraw : overLimit limit raw.length = false) :
    arrayBuffer lib limit headers [raw] =
      decompress lib raw (buildReqHeaders headers "content-encoding") limit := by
  rw [arrayBuffer, collectRaw_eq limit [] [raw] (overLimit_zero limit)]
  simp [hraw, Except.bind]

theorem buildReqHeaders_contentEncoding (headers : List KvPair) :
    buildReqHeaders headers "content-encoding" =
      joinLines ", " (headerLines headers "content-encoding") := by
  rw [buildReqHeaders_eq]
  rfl

/-- A raw body over the limit is refused on both sides. -/
theorem sameDocument_of_over {lib : Codecs} {limit : Option BodyLimit}
    {accepts : Bytes → Bool} {headers : List KvPair} {raw : Bytes}
    (hraw : overLimit limit raw.length = true) :
    SameDocument lib limit accepts headers raw := by
  have hnative : nativeDocument lib limit headers raw = .error 413 := by
    simp [nativeDocument, hraw]
  have hjs : arrayBuffer lib limit headers [raw] = .error 413 := by
    rw [arrayBuffer, collectRaw_eq limit [] [raw] (overLimit_zero limit)]
    simp [hraw, Except.bind]
  rw [SameDocument, hnative, hjs]
  exact ⟨fun _ h => (nomatch h), fun _ h => h⟩

/-- One line naming a coding: the two sides agree when the libraries do. -/
theorem sameDocument_coding {lib : Codecs} {limit : Option BodyLimit}
    {accepts : Bytes → Bool} {headers : List KvPair} {raw : Bytes} {v : String}
    {c : Coding} (hraw : overLimit limit raw.length = false)
    (hlines : headerLines headers "content-encoding" = [v])
    (hv : asked v = .coding c) :
    SameDocument lib limit accepts headers raw ↔
      LibrariesAgree lib limit accepts c raw := by
  rw [SameDocument, nativeDocument_of_within hraw, arrayBuffer_of_within hraw,
    decodeForSchema_cons lib limit raw hlines, buildReqHeaders_contentEncoding, hlines,
    joinLines, List.foldl_nil, decompress_value, LibrariesAgree]
  simp only [hv]
  split
  case isTrue =>
    cases lib.sync c raw (limit.map BodyLimit.bytes) <;> simp
  case isFalse =>
    split
    case isTrue =>
      cases lib.sync c raw (limit.map BodyLimit.bytes) <;> simp
    case isFalse =>
      cases lib.sync c raw (limit.map BodyLimit.bytes) <;> simp

/-- A body that begins with complete members. -/
theorem librariesAgree_members {lib : Codecs} (hlib : lib.Documented)
    (limit : Option BodyLimit) (accepts : Bytes → Bool) {c : Coding} {raw doc rest : Bytes}
    {docs : List Bytes} (hformat : lib.format c raw = .members doc docs rest)
    (hbr : c = .br → rest = []) :
    (CodingAgrees lib limit accepts c raw → LibrariesAgree lib limit accepts c raw) ∧
      (LibrariesAgree lib limit accepts c raw →
        CodingAgrees lib limit accepts c raw ∨ lib.TwoFaults limit c raw) := by
  obtain ⟨hdoc, hfailed⟩ := hlib.reader c raw doc docs rest hformat hbr
  have hlen : (doc :: docs).flatten.length = doc.length + docs.flatten.length := by
    simp
  rw [LibrariesAgree, CodingAgrees, Codecs.TwoFaults, hdoc, hfailed, hformat]
  dsimp only
  cases hover : overLimit limit doc.length with
  | true =>
      simp only [if_true, true_and]
      refine ⟨fun ⟨_, hignored⟩ => ?_, fun _ => ?_⟩
      · -- one member is already too long for either side
        cases limit with
        | none => cases hover
        | some l =>
            by_cases hrange : lib.InRange ((some l).map BodyLimit.bytes)
            · left
              have hlt : l.bytes < doc.length := by simpa [overLimit] using hover
              rw [hlib.sync c raw _ _ _ _ hformat hbr hignored hrange, if_pos]
              simp only [Option.map_some, Option.getD_some]
              omega
            · exact Or.inr (hlib.range c raw _ hrange)
      · by_cases hignored : Ignored c rest
        · exact Or.inl ⟨hbr, hignored⟩
        · exact Or.inr hignored
  | false =>
      simp only [Bool.false_eq_true, if_false, false_and, or_false]
      cases haccepts : accepts doc with
      | false => exact ⟨fun _ h => (by cases h), fun _ => ⟨hbr, fun h => by cases h⟩⟩
      | true =>
          simp only [true_implies]
          constructor
          · rintro ⟨_, hnil, hignored, hrange, hfits⟩
            have hsame : (doc :: docs).flatten = doc := by simp [hnil]
            rw [hlib.sync c raw _ _ _ _ hformat hbr hignored hrange, hsame, if_neg]
            exact Nat.not_lt.2 hfits
          · intro h
            by_cases hignored : Ignored c rest
            · by_cases hrange : lib.InRange (limit.map BodyLimit.bytes)
              · rw [hlib.sync c raw _ _ _ _ hformat hbr hignored hrange] at h
                split at h
                case isTrue => cases h
                case isFalse hfits =>
                  have hsame : (doc :: docs).flatten = doc := NodeResult.ok.inj h
                  have hnil : docs.flatten.length = 0 := by
                    have hcong := congrArg List.length hsame
                    omega
                  refine ⟨hbr, List.length_eq_zero_iff.1 hnil, hignored, hrange, ?_⟩
                  rw [Codecs.bound]
                  omega
              · rw [hlib.range c raw _ hrange] at h
                cases h
            · exact absurd h (hlib.garbage c raw _ _ _ _ hformat hignored doc)

/-- A body whose first member is broken. -/
theorem librariesAgree_broken {lib : Codecs} (hlib : lib.Documented)
    {limit : Option BodyLimit} {accepts : Bytes → Bool} {c : Coding} {raw out : Bytes}
    (hbroken : lib.Broken c raw out) (hfits : out.length ≤ lib.bound limit) :
    LibrariesAgree lib limit accepts c raw ↔ lib.InRange (limit.map BodyLimit.bytes) := by
  obtain ⟨hpart, hfailed⟩ := hlib.readerBroken c raw out hbroken
  have hunder : overLimit limit (lib.reader c raw).chunks.flatten.length = false := by
    cases limit with
    | none => rfl
    | some l =>
        have hle := hpart.length_le
        simp only [Codecs.bound, Option.map_some, Option.getD_some] at hfits
        simp only [overLimit, Option.any_some, decide_eq_false_iff_not]
        omega
  rw [LibrariesAgree, hunder, hfailed]
  simp only [Bool.false_eq_true, if_false, if_true]
  by_cases hrange : lib.InRange (limit.map BodyLimit.bytes)
  · exact iff_of_true (hlib.syncBroken c raw out _ hbroken hrange hfits) hrange
  · rw [hlib.range c raw _ hrange]
    exact iff_of_false (fun h => by cases h) hrange

/-- The format of a body decides as far as the libraries are documented. -/
theorem librariesAgree_format {lib : Codecs} (hlib : lib.Documented)
    (limit : Option BodyLimit) (accepts : Bytes → Bool) (c : Coding) (raw : Bytes) :
    (CodingAgrees lib limit accepts c raw → LibrariesAgree lib limit accepts c raw) ∧
      (LibrariesAgree lib limit accepts c raw → CodingAgrees lib limit accepts c raw ∨
        lib.Unsettled c raw ∨ lib.TwoFaults limit c raw) := by
  cases hformat : lib.format c raw with
  | members doc docs rest =>
      by_cases hbr : c = .br → rest = []
      · obtain ⟨hagree, hback⟩ := librariesAgree_members hlib limit accepts hformat hbr
        exact ⟨hagree, fun h => (hback h).imp_right Or.inr⟩
      · rw [Classical.not_imp] at hbr
        refine ⟨fun h => ?_, fun _ => Or.inr (Or.inl ?_)⟩
        · rw [CodingAgrees, hformat] at h
          exact absurd (h.1 hbr.1) hbr.2
        · rw [Codecs.Unsettled, hformat]
          exact hbr
  | corrupt out =>
      have hbroken : lib.Broken c raw out := Or.inl hformat
      rw [CodingAgrees, Codecs.TwoFaults, hformat]
      dsimp only
      refine ⟨fun ⟨hrange, hfits⟩ => (librariesAgree_broken hlib hbroken hfits).2 hrange,
        fun h => ?_⟩
      rcases Nat.lt_or_ge (lib.bound limit) out.length with hlong | hfits
      · exact Or.inr (Or.inr hlong)
      · exact Or.inl ⟨(librariesAgree_broken hlib hbroken hfits).1 h, hfits⟩
  | cut out =>
      rw [CodingAgrees, Codecs.Unsettled, Codecs.TwoFaults, hformat]
      dsimp only
      by_cases hgzip : c = .gzip
      · have hbroken : lib.Broken c raw out := Or.inr ⟨hgzip, hformat⟩
        refine ⟨fun ⟨_, hrange, hfits⟩ => (librariesAgree_broken hlib hbroken hfits).2 hrange,
          fun h => ?_⟩
        rcases Nat.lt_or_ge (lib.bound limit) out.length with hlong | hfits
        · exact Or.inr (Or.inr hlong)
        · exact Or.inl ⟨hgzip, (librariesAgree_broken hlib hbroken hfits).1 h, hfits⟩
      · exact ⟨fun h => absurd h.1 hgzip, fun _ => Or.inr (Or.inl hgzip)⟩

theorem sameDocument_nil {lib : Codecs} {limit : Option BodyLimit}
    {accepts : Bytes → Bool} {headers : List KvPair} {raw : Bytes}
    (hraw : overLimit limit raw.length = false)
    (hlines : headerLines headers "content-encoding" = []) :
    SameDocument lib limit accepts headers raw := by
  have hjs : decompress lib raw none limit = .ok raw := rfl
  rw [SameDocument, nativeDocument_of_within hraw, arrayBuffer_of_within hraw,
    decodeForSchema_nil lib limit raw hlines, buildReqHeaders_contentEncoding, hlines,
    joinLines, hjs]
  refine ⟨fun _ h _ => h, fun _ h => ?_⟩
  cases h

theorem sameDocument_single {lib : Codecs} (hlib : lib.Documented)
    {limit : Option BodyLimit} {accepts : Bytes → Bool} {headers : List KvPair}
    {raw : Bytes} {v : String} (hraw : overLimit limit raw.length = false)
    (hlines : headerLines headers "content-encoding" = [v]) :
    ((∀ c, asked v = .coding c → CodingAgrees lib limit accepts c raw) →
        SameDocument lib limit accepts headers raw) ∧
      (SameDocument lib limit accepts headers raw →
        (∀ c, asked v = .coding c → CodingAgrees lib limit accepts c raw) ∨
          ∃ c, asked v = .coding c ∧ (lib.Unsettled c raw ∨ lib.TwoFaults limit c raw)) := by
  cases hv : asked v with
  | plain | unknown =>
      refine ⟨fun _ => ?_, fun _ => Or.inl fun c h => by cases h⟩
      rw [SameDocument, nativeDocument_of_within hraw, arrayBuffer_of_within hraw,
        decodeForSchema_cons lib limit raw hlines, buildReqHeaders_contentEncoding,
        hlines, joinLines, List.foldl_nil, decompress_value]
      simp [hv]
  | coding c =>
      rw [sameDocument_coding hraw hlines hv]
      obtain ⟨hagree, hback⟩ := librariesAgree_format hlib limit accepts c raw
      refine ⟨fun h => hagree (h c rfl), fun h => ?_⟩
      rcases hback h with hcoding | hopen
      · refine Or.inl fun c' hc' => ?_
        obtain rfl := Asked.coding.inj hc'
        exact hcoding
      · exact Or.inr ⟨c, rfl, hopen⟩

/-- JavaScript refuses repeated lines, so Rust must have a document that the schema
refuses. -/
theorem sameDocument_repeated {lib : Codecs} {limit : Option BodyLimit}
    {accepts : Bytes → Bool} {headers : List KvPair} {raw : Bytes} {v w : String}
    {vs : List String} (hraw : overLimit limit raw.length = false)
    (hlines : headerLines headers "content-encoding" = v :: w :: vs) :
    SameDocument lib limit accepts headers raw ↔
      match asked v with
      | .plain => accepts raw = false
      | .unknown => True
      | .coding c =>
          (lib.reader c raw).failed = false ∧
            overLimit limit (lib.reader c raw).chunks.flatten.length = false ∧
            accepts (lib.reader c raw).chunks.flatten = false := by
  obtain ⟨s, hs, hcomma⟩ := comma_mem_joinLines v w vs
  rw [SameDocument, nativeDocument_of_within hraw, arrayBuffer_of_within hraw,
    decodeForSchema_cons lib limit raw hlines, buildReqHeaders_contentEncoding,
    hlines, hs, decompress_value, asked_of_comma hcomma]
  cases asked v with
  | plain => simp
  | unknown => simp
  | coding c =>
      dsimp only
      generalize (lib.reader c raw).chunks.flatten = out
      split
      case isTrue hover => simp [hover]
      case isFalse hunder =>
        split
        case isTrue hfailed => simp [hfailed]
        case isFalse hread => simp [hunder, hread]

/-- What Rust reads of a body, by its format. -/
theorem refusedBySchema_iff {lib : Codecs} (hlib : lib.Documented)
    {limit : Option BodyLimit} {accepts : Bytes → Bool} {c : Coding} {raw : Bytes}
    (hsettled : ¬ lib.Unsettled c raw) :
    ((lib.reader c raw).failed = false ∧
        overLimit limit (lib.reader c raw).chunks.flatten.length = false ∧
        accepts (lib.reader c raw).chunks.flatten = false) ↔
      RefusedBySchema lib limit accepts c raw := by
  rw [Codecs.Unsettled] at hsettled
  rw [RefusedBySchema]
  cases hformat : lib.format c raw with
  | members doc docs rest =>
      rw [hformat] at hsettled
      have hbr : c = .br → rest = [] := fun hc => by
        by_contra hrest
        exact hsettled ⟨hc, hrest⟩
      obtain ⟨hdoc, hfailed⟩ := hlib.reader c raw doc docs rest hformat hbr
      rw [hdoc, hfailed]
      exact ⟨fun h => ⟨hbr, h.2⟩, fun h => ⟨rfl, h.2⟩⟩
  | corrupt out =>
      have hfailed := (hlib.readerBroken c raw out (Or.inl hformat)).2
      simp [hfailed]
  | cut out =>
      rw [hformat] at hsettled
      have hgzip : c = .gzip := not_not.1 hsettled
      have hfailed := (hlib.readerBroken c raw out (Or.inr ⟨hgzip, hformat⟩)).2
      simp [hfailed]

theorem not_unsettled_of_refused {lib : Codecs} {limit : Option BodyLimit}
    {accepts : Bytes → Bool} {c : Coding} {raw : Bytes}
    (h : RefusedBySchema lib limit accepts c raw) : ¬ lib.Unsettled c raw := by
  rw [RefusedBySchema] at h
  rw [Codecs.Unsettled]
  cases hformat : lib.format c raw with
  | members doc docs rest =>
      rw [hformat] at h
      exact fun hopen => hopen.2 (h.1 hopen.1)
  | corrupt out | cut out =>
      rw [hformat] at h
      exact h.elim

/--
For a compatible request the document that native validation accepts is the one the
handler reads, and what it refuses the handler is refused.  For no other request that the
documentation of the libraries decides about is it so.
-/
theorem same_document (lib : Codecs) (hlib : lib.Documented)
    (limit : Option BodyLimit) (accepts : Bytes → Bool) (header : HeaderMap)
    (raw : Bytes) :
    (Compatible lib limit accepts (collectHeaders header) raw →
        SameDocument lib limit accepts (collectHeaders header) raw) ∧
      (SameDocument lib limit accepts (collectHeaders header) raw →
        Compatible lib limit accepts (collectHeaders header) raw ∨
          Undocumented lib limit (collectHeaders header) raw) := by
  cases hraw : overLimit limit raw.length with
  | true => exact ⟨fun _ => sameDocument_of_over hraw, fun _ => Or.inl (Or.inl hraw)⟩
  | false =>
      generalize collectHeaders header = headers
      rw [Compatible, Undocumented, hraw]
      simp only [Bool.false_eq_true, false_or]
      rcases hlines : headerLines headers "content-encoding" with _ | ⟨v, _ | ⟨w, vs⟩⟩
      · exact ⟨fun _ => sameDocument_nil hraw hlines, fun _ => Or.inl trivial⟩
      · exact sameDocument_single hlib hraw hlines
      · rw [sameDocument_repeated hraw hlines]
        dsimp only
        cases hv : asked v with
        | plain | unknown => exact ⟨id, Or.inl⟩
        | coding c =>
            by_cases hsettled : lib.Unsettled c raw
            · refine ⟨fun h => absurd hsettled ?_, fun _ => Or.inr ⟨c, rfl, hsettled⟩⟩
              exact not_unsettled_of_refused h
            · dsimp only
              rw [refusedBySchema_iff hlib hsettled]
              exact ⟨id, Or.inl⟩

/-- One gzip member holding `{}` in a stored block. -/
def gzipBraces : Bytes :=
  [31, 139, 8, 0, 0, 0, 0, 0, 0, 255, 1, 2, 0, 253, 255, 123, 125,
    67, 191, 166, 163, 2, 0, 0, 0]

/-- A body that begins with that member, which may stand in it twice. -/
def sampleFormat (c : Coding) (raw : Bytes) : Format :=
  if c = .gzip ∧ gzipBraces.isPrefixOf raw = true then
    if raw.drop 25 = gzipBraces then .members [123, 125] [[123, 125]] []
    else .members [123, 125] [] (raw.drop 25)
  else .corrupt []

/-- The libraries on such bodies. -/
def sampleCodecs : Codecs where
  reader c raw :=
    if c = .gzip ∧ gzipBraces.isPrefixOf raw = true then
      { chunks := [[123, 125]], failed := false, nonempty := by simp }
    else { chunks := [], failed := true, nonempty := by simp }
  sync c raw limit :=
    if limit.any (fun l => l = 0 || 2 ^ 32 < l) then .outOfRange
    else match sampleFormat c raw with
      | .members doc docs rest =>
          if rest.head?.any (fun b => b ≠ 0) then .invalid
          else if limit.getD (2 ^ 32) < (doc :: docs).flatten.length then .tooLarge
          else .ok (doc :: docs).flatten
      | .corrupt _ | .cut _ => .invalid
  maxLength := 2 ^ 32
  format := sampleFormat

theorem sampleCodecs_inRange {limit : Option Nat} :
    sampleCodecs.InRange limit ↔ (limit.any fun l => l = 0 || 2 ^ 32 < l) = false := by
  cases limit with
  | none => exact iff_of_true (fun l h => nomatch h) rfl
  | some l =>
      have hmax : sampleCodecs.maxLength = 2 ^ 32 := rfl
      simp only [Codecs.InRange, Option.some.injEq, forall_eq', hmax, Option.any_some,
        Bool.or_eq_false_iff, decide_eq_false_iff_not]
      omega

theorem sampleFormat_gzip {c : Coding} {raw doc rest : Bytes} {docs : List Bytes}
    (h : sampleFormat c raw = .members doc docs rest) :
    (c = .gzip ∧ gzipBraces.isPrefixOf raw = true) ∧ doc = [123, 125] := by
  unfold sampleFormat at h
  split at h
  case isFalse => cases h
  case isTrue hgzip =>
    refine ⟨hgzip, ?_⟩
    split at h
    case isTrue => exact (Format.members.inj h).1.symm
    case isFalse => exact (Format.members.inj h).1.symm

theorem sampleFormat_broken {c : Coding} {raw out : Bytes}
    (h : sampleCodecs.Broken c raw out) :
    ¬ (c = .gzip ∧ gzipBraces.isPrefixOf raw = true) ∧ sampleFormat c raw = .corrupt [] := by
  have hformat : sampleFormat c raw = .corrupt out ∨ sampleFormat c raw = .cut out :=
    h.imp_right And.right
  unfold sampleFormat at hformat ⊢
  split at hformat
  case isFalse hother => exact ⟨hother, if_neg hother⟩
  case isTrue =>
    split at hformat
    case isTrue => rcases hformat with h | h <;> cases h
    case isFalse => rcases hformat with h | h <;> cases h

theorem sampleCodecs_documented : sampleCodecs.Documented where
  reader := by
    intro c raw doc docs rest hformat _
    obtain ⟨hgzip, rfl⟩ := sampleFormat_gzip hformat
    have hread : sampleCodecs.reader c raw = ⟨[[123, 125]], false, by simp⟩ := if_pos hgzip
    rw [hread]
    exact ⟨rfl, rfl⟩
  readerBroken := by
    intro c raw out hbroken
    have hother := (sampleFormat_broken hbroken).1
    have hread : sampleCodecs.reader c raw = ⟨[], true, by simp⟩ := if_neg hother
    rw [hread]
    exact ⟨List.nil_prefix, rfl⟩
  sync := by
    intro c raw doc docs rest limit hformat _ hignored hrange
    obtain ⟨⟨rfl, _⟩, _⟩ := sampleFormat_gzip hformat
    have hzero : (rest.head?.any fun b => decide (b ≠ 0)) = false := by
      cases hhead : rest.head? with
      | none => rfl
      | some b =>
          have hb := hignored rfl b hhead
          simp [hb]
    have hformat' : sampleFormat .gzip raw = .members doc docs rest := hformat
    simp only [sampleCodecs, sampleCodecs_inRange.1 hrange, hformat', hzero]
    rfl
  garbage := by
    intro c raw doc docs rest limit hformat hgarbage out hok
    have hnonzero : (rest.head?.any fun b => decide (b ≠ 0)) = true := by
      by_contra hzero
      refine hgarbage fun _ b hb => ?_
      rw [Option.mem_def] at hb
      simpa [hb] using hzero
    have hformat' : sampleFormat c raw = .members doc docs rest := hformat
    simp only [sampleCodecs, hformat', hnonzero] at hok
    split at hok
    case isTrue => cases hok
    case isFalse => cases hok
  syncBroken := by
    intro c raw out limit hbroken hrange _
    have hformat := (sampleFormat_broken hbroken).2
    simp only [sampleCodecs, sampleCodecs_inRange.1 hrange, hformat]
    rfl
  range := by
    intro c raw limit hrange
    rw [sampleCodecs_inRange, Bool.not_eq_false] at hrange
    simp only [sampleCodecs, hrange, if_true]

/-- The lines of a request with one gzip-encoded body. -/
def gzipHeader : HeaderMap := [("content-encoding", [103, 122, 105, 112])]

theorem gzipHeader_lines :
    headerLines (collectHeaders gzipHeader) "content-encoding" = ["gzip"] := by
  decide

/-- A lone gzip member is read alike.  Of two of them Rust validates `{}` and the handler
reads `{}{}`, and with garbage behind one the handler reads nothing. -/
theorem same_document_gzip :
    SameDocument sampleCodecs none (fun _ => true) (collectHeaders gzipHeader)
        gzipBraces ∧
      ¬ SameDocument sampleCodecs none (fun _ => true) (collectHeaders gzipHeader)
        (gzipBraces ++ gzipBraces) ∧
      ¬ SameDocument sampleCodecs none (fun _ => true) (collectHeaders gzipHeader)
        (gzipBraces ++ [1]) := by
  have hgzip : asked "gzip" = .coding .gzip := by decide
  have hlone : sampleCodecs.format .gzip gzipBraces = .members [123, 125] [] [] := by decide
  have htwice : sampleCodecs.format .gzip (gzipBraces ++ gzipBraces) =
      .members [123, 125] [[123, 125]] [] := by decide
  have hgarbage : sampleCodecs.format .gzip (gzipBraces ++ [1]) =
      .members [123, 125] [] [1] := by decide
  refine ⟨(same_document _ sampleCodecs_documented _ _ _ _).1 ?_, fun hsame => ?_,
    fun hsame => ?_⟩
  · rw [Compatible, gzipHeader_lines]
    refine Or.inr fun c hc => ?_
    obtain rfl := Asked.coding.inj (hgzip.symm.trans hc)
    rw [CodingAgrees, hlone]
    have hrange : sampleCodecs.InRange none := fun l hl => by cases hl
    have hignored : Ignored .gzip [] := fun _ b hb => by cases hb
    exact ⟨fun _ => rfl, fun _ => ⟨rfl, hignored, hrange, by decide⟩⟩
  · have hagree := (same_document _ sampleCodecs_documented _ _ _ _).2 hsame
    rw [Compatible, Undocumented, gzipHeader_lines] at hagree
    rcases hagree with (hover | hcompat) | ⟨c, hc, hopen⟩
    · cases hover
    · have hcoding := hcompat .gzip hgzip
      rw [CodingAgrees, htwice] at hcoding
      cases (hcoding.2 rfl).1
    · obtain rfl := Asked.coding.inj (hgzip.symm.trans hc)
      rw [Codecs.Unsettled, Codecs.TwoFaults, htwice] at hopen
      rcases hopen with ⟨hbr, -⟩ | ⟨hover, -⟩
      · cases hbr
      · cases hover
  · have hagree := (same_document _ sampleCodecs_documented _ _ _ _).2 hsame
    rw [Compatible, Undocumented, gzipHeader_lines] at hagree
    rcases hagree with (hover | hcompat) | ⟨c, hc, hopen⟩
    · cases hover
    · have hcoding := hcompat .gzip hgzip
      rw [CodingAgrees, hgarbage] at hcoding
      exact absurd ((hcoding.2 rfl).2.1 rfl 1 rfl) (by decide)
    · obtain rfl := Asked.coding.inj (hgzip.symm.trans hc)
      rw [Codecs.Unsettled, Codecs.TwoFaults, hgarbage] at hopen
      rcases hopen with ⟨hbr, -⟩ | ⟨hover, -⟩
      · cases hbr
      · cases hover

/-- A second `content-encoding` line, of a request whose first one is empty. -/
def repeatedHeader : HeaderMap :=
  [("content-encoding", []), ("content-encoding", [103, 122, 105, 112])]

/-- Rust validates the raw body, and the handler cannot read it. -/
theorem repeated_encoding_differs :
    ¬ ∀ (lib : Codecs) (limit : Option BodyLimit) (accepts : Bytes → Bool)
        (header : HeaderMap) (raw : Bytes), lib.Documented →
        SameDocument lib limit accepts (collectHeaders header) raw := by
  intro hall
  have hsame := hall sampleCodecs none (fun _ => true) repeatedHeader [123, 125]
    sampleCodecs_documented
  have hjs := hsame.1 [123, 125] rfl rfl
  cases hjs

end Compress
end OxideHttp
