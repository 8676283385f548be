import OxideHttp.Lib.Guard
import OxideHttp.Multipart.Reading

/-!
# The limits of a form (`src/multipart.rs`, `src/lib.rs`)

`parse_task` counts files, fields and bytes as it goes, and stops at the first violation.
What it enforces is stated here of the parts as a whole (`Within`), and of what the parser
yields, event by event (`violation`); `parseTask` is the guarded stream of `Lib.Guard` for
that check (`parseTask_eq_guarded`), although its counters are machine integers.

Results.
* `violation_eq_none`: an event is admitted if and only if the parts stay within the limits.
* `parseTask_within`, `parseTask_clean_iff`, `reject_parseTask`: what is sent of a form, when
  nothing is rejected, and with which violation it is rejected otherwise.
* `limits_traced`: the same of what the channel has taken, in every state of every run, with a
  receiver that may go away.
-/

namespace OxideHttp
namespace Multipart

open Body

/-! ## The configuration -/

/-- `MultipartOptions`: what JS passes. -/
structure MultipartOptions where
  maxFileSize : Option Int64
  maxFieldSize : Option Int64
  maxFiles : Option Int64
  maxFields : Option Int64
  allowedMimeTypes : Option (List String)
  allowedExtensions : Option (List String)
  deriving DecidableEq

/-- `u64_of`; the numbers that pass the filter are not negative. -/
def u64Of (v : Option Int64) : Option Nat := (v.filter (0 ≤ ·)).map Int64.toNatClampNeg

/-- `u32_of`: the cast truncates. -/
def u32Of (v : Option Int64) : Option UInt32 :=
  (v.filter (0 ≤ ·)).map fun n => UInt32.ofNat n.toNatClampNeg

/-- `multipart_config`. -/
def multipartConfig (lowercase : String → String) (o : MultipartOptions) :
    MultipartConfig where
  maxFileSize := u64Of o.maxFileSize
  maxFieldSize := u64Of o.maxFieldSize
  maxFiles := u32Of o.maxFiles
  maxFields := u32Of o.maxFields
  allowedMime := o.allowedMimeTypes.map (List.map lowercase)
  allowedExt := o.allowedExtensions.map (List.map lowercase)

/-- The counters of `parse_task` can pass the count limits. -/
structure MultipartConfig.Countable (cfg : MultipartConfig) : Prop where
  files : ∀ m ∈ cfg.maxFiles, m.toNat < 2 ^ 32 - 1
  fields : ∀ m ∈ cfg.maxFields, m.toNat < 2 ^ 32 - 1

/-- The size limits are below the number at which a sum saturates. -/
structure MultipartConfig.Sized (cfg : MultipartConfig) : Prop where
  files : ∀ l ∈ cfg.maxFileSize, l < 2 ^ 64 - 1
  fields : ∀ l ∈ cfg.maxFieldSize, l < 2 ^ 64 - 1

theorem u64Of_lt {v : Option Int64} {l : Nat} (h : l ∈ u64Of v) : l < 2 ^ 64 - 1 := by
  obtain ⟨n, _, rfl⟩ := Option.map_eq_some_iff.1 h
  have hn := n.toInt_lt
  rw [Int64.toNatClampNeg]
  omega

/-- The size limits that a server can be given come from an `i64`. -/
theorem multipartConfig_sized (lowercase : String → String) (o : MultipartOptions) :
    (multipartConfig lowercase o).Sized where
  files := fun _ hl => u64Of_lt hl
  fields := fun _ hl => u64Of_lt hl

/-! ## The parts of a trace -/

/-- The parts after an event, the last one first. -/
def MpEvent.adds (parts : List Part) : MpEvent → List Part
  | .part name filename contentType => ⟨name, filename, contentType, [], false⟩ :: parts
  | .chunk b =>
      match parts with
      | [] => []
      | p :: parts => { p with chunks := p.chunks ++ [b] } :: parts
  | .partEnd =>
      match parts with
      | [] => []
      | p :: parts => { p with complete := true } :: parts
  | .reject .. => parts

/-- The parts that a list of events makes up, the last one first. -/
def partsOf (events : List MpEvent) : List Part := events.foldl MpEvent.adds []

/-- The events of a part that is not limited. -/
def Part.stream (p : Part) : List MpEvent :=
  .part p.name p.filename p.contentType ::
    (p.chunks.map MpEvent.chunk ++ [if p.complete then .partEnd else malformed])

/-- What the parser yields, in stream order; an error of the parser is `malformed`. -/
def stream (complete : Bool) (parts : List Part) : List MpEvent :=
  parts.flatMap Part.stream ++ if complete then [] else [malformed]

def Form.stream (f : Form) : List MpEvent := Multipart.stream f.complete f.parts

/-! ## Limits -/

inductive Violation where
  | tooManyFiles
  | tooManyFields
  | mime
  | extension
  /-- of a file, or of a field -/
  | tooLarge (isFile : Bool)
  | malformed
  deriving DecidableEq, Repr

def Violation.status : Violation → Nat
  | .tooManyFiles | .tooManyFields | .malformed => 400
  | .mime | .extension => 415
  | .tooLarge isFile => if isFile then 413 else 400

def Violation.message : Violation → String
  | .tooManyFiles => "too many files"
  | .tooManyFields => "too many fields"
  | .mime => "mime type not allowed"
  | .extension => "file extension not allowed"
  | .tooLarge _ => "part too large"
  | .malformed => "malformed multipart"

def Violation.event (v : Violation) : MpEvent := .reject v.status v.message

section Limits

variable (lowercase : String → String) (cfg : MultipartConfig)

/-- The parts are within the limits. -/
structure Within (parts : List Part) : Prop where
  files : ∀ m ∈ cfg.maxFiles, parts.countP Part.isFile ≤ m.toNat
  fields : ∀ m ∈ cfg.maxFields, parts.countP (fun p => !p.isFile) ≤ m.toNat
  sizes : ∀ p ∈ parts, ∀ l ∈ p.limit cfg, p.bytes.length ≤ l
  types : ∀ p ∈ parts, p.isFile = true →
    mimeAllowed lowercase p.contentType cfg.allowedMime = true ∧
      extAllowed lowercase p.filename cfg.allowedExt = true

/-- The limit that an event of the stream violates, after these parts. -/
def violation (parts : List Part) : MpEvent → Option Violation
  | .part _ filename contentType =>
      if filename.isSome then
        if cfg.maxFiles.any (·.toNat < parts.countP Part.isFile + 1) then some .tooManyFiles
        else if !mimeAllowed lowercase contentType cfg.allowedMime then some .mime
        else if !extAllowed lowercase filename cfg.allowedExt then some .extension
        else none
      else if cfg.maxFields.any (·.toNat < parts.countP (fun p => !p.isFile) + 1) then
        some .tooManyFields
      else none
  | .chunk b =>
      match parts with
      | [] => none
      | p :: _ =>
          if (p.limit cfg).any (· < p.bytes.length + b.length) then
            some (.tooLarge p.isFile)
          else none
  | .partEnd => none
  | .reject .. => some .malformed

/-- The first violation of a form, in stream order. -/
def Form.firstViolation (f : Form) : Option Violation :=
  Guard.first MpEvent.adds (violation lowercase cfg) [] f.stream

/-- The form was parsed to its end, and it is within the limits. -/
structure Form.Accepted (f : Form) : Prop where
  complete : f.complete = true
  parts : ∀ p ∈ f.parts, p.complete = true
  within : Within lowercase cfg f.parts

/-! ## What an event does to the limits -/

variable {lowercase cfg}

theorem within_nil : Within lowercase cfg [] where
  files := fun _ _ => Nat.zero_le _
  fields := fun _ _ => Nat.zero_le _
  sizes := fun p hp => by cases hp
  types := fun p hp => by cases hp

/-- What the limits ask of a part that comes after others. -/
structure Fits (lowercase : String → String) (cfg : MultipartConfig) (parts : List Part)
    (p : Part) : Prop where
  files : p.isFile = true → ∀ m ∈ cfg.maxFiles, parts.countP Part.isFile + 1 ≤ m.toNat
  fields : p.isFile = false →
    ∀ m ∈ cfg.maxFields, parts.countP (fun p => !p.isFile) + 1 ≤ m.toNat
  size : ∀ l ∈ p.limit cfg, p.bytes.length ≤ l
  types : p.isFile = true →
    mimeAllowed lowercase p.contentType cfg.allowedMime = true ∧
      extAllowed lowercase p.filename cfg.allowedExt = true

theorem within_cons {p : Part} {parts : List Part} :
    Within lowercase cfg (p :: parts) ↔
      Fits lowercase cfg parts p ∧ Within lowercase cfg parts := by
  constructor
  · intro h
    refine ⟨⟨fun hfile m hm => ?_, fun hfield m hm => ?_, h.sizes p (List.mem_cons_self ..),
      h.types p (List.mem_cons_self ..)⟩, fun m hm => ?_, fun m hm => ?_,
      fun q hq => h.sizes q (List.mem_cons_of_mem _ hq),
      fun q hq => h.types q (List.mem_cons_of_mem _ hq)⟩
    · simpa [List.countP_cons, hfile] using h.files m hm
    · simpa [List.countP_cons, hfield] using h.fields m hm
    · have hall := h.files m hm
      rw [List.countP_cons] at hall
      omega
    · have hall := h.fields m hm
      rw [List.countP_cons] at hall
      omega
  · rintro ⟨hp, h⟩
    refine ⟨fun m hm => ?_, fun m hm => ?_, List.forall_mem_cons.2 ⟨hp.size, h.sizes⟩,
      List.forall_mem_cons.2 ⟨hp.types, h.types⟩⟩
    · cases hfile : p.isFile with
      | true => simpa [List.countP_cons, hfile] using hp.files hfile m hm
      | false => simpa [List.countP_cons, hfile] using h.files m hm
    · cases hfile : p.isFile with
      | true => simpa [List.countP_cons, hfile] using h.fields m hm
      | false => simpa [List.countP_cons, hfile] using hp.fields hfile m hm

/-- A part that has not grown fits where it did. -/
theorem Fits.of_le {parts : List Part} {p q : Part} (h : Fits lowercase cfg parts q)
    (hfilename : p.filename = q.filename) (hcontentType : p.contentType = q.contentType)
    (hbytes : p.bytes.length ≤ q.bytes.length) : Fits lowercase cfg parts p := by
  obtain ⟨hfiles, hfields, hsize, htypes⟩ := h
  have hfile : p.isFile = q.isFile := congrArg Option.isSome hfilename
  have hlimit : p.limit cfg = q.limit cfg := by rw [Part.limit, Part.limit, hfile]
  refine ⟨?_, ?_, ?_, ?_⟩
  · rwa [hfile]
  · rwa [hfile]
  · rw [hlimit]
    exact fun l hl => hbytes.trans (hsize l hl)
  · rwa [hfile, hfilename, hcontentType]

/-- No event makes up for a violation. -/
theorem within_of_adds (parts : List Part) (e : MpEvent)
    (h : Within lowercase cfg (e.adds parts)) : Within lowercase cfg parts := by
  cases e with
  | part name filename contentType => exact (within_cons.1 h).2
  | chunk b =>
      cases parts with
      | nil => exact h
      | cons p parts =>
          obtain ⟨hp, hparts⟩ := within_cons.1 h
          exact within_cons.2 ⟨hp.of_le rfl rfl (by simp [Part.bytes]), hparts⟩
  | partEnd =>
      cases parts with
      | nil => exact h
      | cons p parts =>
          obtain ⟨hp, hparts⟩ := within_cons.1 h
          exact within_cons.2 ⟨hp.of_le rfl rfl le_rfl, hparts⟩
  | reject status message => exact h

theorem any_lt_eq_false {ι : Type} {limit : Option ι} {f : ι → Nat} {n : Nat} :
    (limit.any fun m => decide (f m < n)) = false ↔ ∀ m ∈ limit, n ≤ f m := by
  cases limit <;> simp

theorem refuse_eq_none {c : Bool} {v : Violation} {o : Option Violation} :
    (if c = true then some v else o) = none ↔ c = false ∧ o = none := by
  cases c <;> simp

/-- The part of an event fits after these parts if and only if it violates no limit. -/
theorem violation_part {name filename contentType : Option String} {parts : List Part} :
    violation lowercase cfg parts (.part name filename contentType) = none ↔
      Fits lowercase cfg parts ⟨name, filename, contentType, [], false⟩ := by
  rw [violation]
  cases hfile : filename.isSome with
  | true =>
      rw [if_pos rfl, refuse_eq_none, refuse_eq_none, refuse_eq_none, any_lt_eq_false,
        Bool.not_eq_false', Bool.not_eq_false']
      constructor
      · rintro ⟨hcount, hmime, hext, _⟩
        exact ⟨fun _ => hcount, fun hfield => (by cases hfile.symm.trans hfield),
          fun l _ => Nat.zero_le l, fun _ => ⟨hmime, hext⟩⟩
      · intro h
        exact ⟨h.files hfile, (h.types hfile).1, (h.types hfile).2, rfl⟩
  | false =>
      rw [if_neg Bool.false_ne_true, refuse_eq_none, any_lt_eq_false]
      constructor
      · rintro ⟨hcount, _⟩
        have hnot {P : Prop} (hisFile : filename.isSome = true) : P := by
          cases hfile.symm.trans hisFile
        exact ⟨hnot, fun _ => hcount, fun l _ => Nat.zero_le l, hnot⟩
      · intro h
        exact ⟨h.fields hfile, rfl⟩

/-- An event is admitted if and only if the parts stay within the limits. -/
theorem violation_eq_none {parts : List Part} {e : MpEvent}
    (h : Within lowercase cfg parts) :
    violation lowercase cfg parts e = none ↔
      Within lowercase cfg (e.adds parts) ∧ e.isReject = false := by
  cases e with
  | part name filename contentType =>
      rw [violation_part, MpEvent.adds, within_cons]
      exact ⟨fun hp => ⟨⟨hp, h⟩, rfl⟩, fun hall => hall.1.1⟩
  | chunk b =>
      cases parts with
      | nil => exact ⟨fun _ => ⟨h, rfl⟩, fun _ => rfl⟩
      | cons p parts =>
          obtain ⟨hp, hparts⟩ := within_cons.1 h
          have hgrown : (Part.bytes { p with chunks := p.chunks ++ [b] }).length =
              p.bytes.length + b.length := by
            simp [Part.bytes]
          rw [violation, refuse_eq_none, any_lt_eq_false (f := fun l => l), MpEvent.adds,
            within_cons]
          constructor
          · rintro ⟨hsize, _⟩
            refine ⟨⟨⟨hp.files, hp.fields, fun l hl => ?_, hp.types⟩, hparts⟩, rfl⟩
            rw [hgrown]
            exact hsize l hl
          · rintro ⟨⟨hall, _⟩, _⟩
            refine ⟨fun l hl => ?_, rfl⟩
            rw [← hgrown]
            exact hall.size l hl
  | partEnd =>
      cases parts with
      | nil => exact ⟨fun _ => ⟨h, rfl⟩, fun _ => rfl⟩
      | cons p parts =>
          obtain ⟨hp, hparts⟩ := within_cons.1 h
          have hended := within_cons.2 ⟨hp.of_le (p := { p with complete := true }) rfl rfl
            le_rfl, hparts⟩
          exact ⟨fun _ => ⟨hended, rfl⟩, fun _ => rfl⟩
  | reject status message => simp [violation, MpEvent.isReject]

/-! ## The task as a guarded stream -/

/-- The counters of the task, where they are limited, are the numbers of files and fields so
far. -/
structure Counted (cfg : MultipartConfig) (files fields : UInt32) (parts : List Part) :
    Prop where
  files : ∀ m ∈ cfg.maxFiles, files.toNat = parts.countP Part.isFile ∧ files ≤ m
  fields : ∀ m ∈ cfg.maxFields,
    fields.toNat = parts.countP (fun p => !p.isFile) ∧ fields ≤ m

theorem counted_start (cfg : MultipartConfig) : Counted cfg 0 0 [] where
  files := fun _ _ => ⟨rfl, UInt32.zero_le⟩
  fields := fun _ _ => ⟨rfl, UInt32.zero_le⟩

/-- A counter that has not passed its limit does not wrap. -/
theorem toNat_succ {m n : UInt32} {k : Nat} (hm : m.toNat < 2 ^ 32 - 1)
    (hn : n.toNat = k ∧ n ≤ m) : (n + 1).toNat = k + 1 := by
  have hle := UInt32.le_iff_toNat_le.1 hn.2
  rw [UInt32.toNat_add, UInt32.toNat_one, Nat.mod_eq_of_lt (by omega), hn.1]

theorem any_counter {limit : Option UInt32} {n : UInt32} {k : Nat}
    (hlimit : ∀ m ∈ limit, m.toNat < 2 ^ 32 - 1) (hn : ∀ m ∈ limit, n.toNat = k ∧ n ≤ m) :
    limit.any (· < n + 1) = limit.any (·.toNat < k + 1) := by
  cases limit with
  | none => rfl
  | some m =>
      have hsucc := toNat_succ (hlimit m rfl) (hn m rfl)
      simp only [Option.any_some, UInt32.lt_iff_toNat_lt, hsucc]

/-- The task refuses a part exactly for the limit that it violates. -/
theorem refusal_eq {files fields : UInt32} {seen : List Part} (hcfg : cfg.Countable)
    (hseen : Counted cfg files fields seen) (p : Part) :
    p.refusal lowercase cfg files fields =
      (violation lowercase cfg seen (.part p.name p.filename p.contentType)).map
        Violation.event := by
  rw [Part.refusal, violation, any_counter hcfg.files hseen.files,
    any_counter hcfg.fields hseen.fields, Part.isFile]
  simp only [apply_ite (Option.map Violation.event), Option.map_some, Option.map_none]
  rfl

theorem Counted.step {files fields : UInt32} {seen : List Part} (hcfg : cfg.Countable)
    (hseen : Counted cfg files fields seen) {p q : Part}
    (hpart : violation lowercase cfg seen (.part p.name p.filename p.contentType) = none)
    (hq : q.isFile = p.isFile) :
    Counted cfg (if p.isFile then files + 1 else files)
      (if p.isFile then fields else fields + 1) (q :: seen) := by
  have hfits := violation_part.1 hpart
  constructor
  · intro m hm
    cases hfile : p.isFile with
    | true =>
        have hsucc := toNat_succ (hcfg.files m hm) (hseen.files m hm)
        have hle := hfits.files hfile m hm
        simp only [if_true, List.countP_cons, hq, hfile, UInt32.le_iff_toNat_le, hsucc]
        exact ⟨trivial, hle⟩
    | false => simpa [List.countP_cons, hq, hfile] using hseen.files m hm
  · intro m hm
    cases hfile : p.isFile with
    | true => simpa [List.countP_cons, hq, hfile] using hseen.fields m hm
    | false =>
        have hsucc := toNat_succ (hcfg.fields m hm) (hseen.fields m hm)
        have hle := hfits.fields hfile m hm
        simp only [Bool.false_eq_true, if_false, List.countP_cons, hq, hfile, Bool.not_false,
          if_true, UInt32.le_iff_toNat_le, hsucc]
        exact ⟨trivial, hle⟩

theorem limit_lt (hcfg : cfg.Sized) {p : Part} {l : Nat} (hl : l ∈ p.limit cfg) :
    l < 2 ^ 64 - 1 := by
  rw [Part.limit] at hl
  split at hl
  · exact hcfg.files l hl
  · exact hcfg.fields l hl

/-- The saturating sum passes a limit exactly when the sum does. -/
theorem any_size (hcfg : cfg.Sized) {p : Part} {size k : Nat} (n : Nat)
    (hsize : ∀ l ∈ p.limit cfg, size = k) :
    (p.limit cfg).any (· < saturatingAdd size n) = (p.limit cfg).any (· < k + n) := by
  cases hlimit : p.limit cfg with
  | none => rfl
  | some l =>
      have hlt := limit_lt hcfg hlimit
      obtain rfl := hsize l hlimit
      simp only [Option.any_some, saturatingAdd]
      congr 1
      exact propext ⟨by omega, by omega⟩

/-- A sum that passes no limit has not been cut at the largest number. -/
theorem saturatingAdd_of_any (hcfg : cfg.Sized) {p : Part} {size k n : Nat}
    (hsize : ∀ l ∈ p.limit cfg, size = k)
    (hsmall : (p.limit cfg).any (· < k + n) = false) :
    ∀ l ∈ p.limit cfg, saturatingAdd size n = k + n := by
  intro l hl
  have hlt := limit_lt hcfg hl
  have hle := (any_lt_eq_false (f := fun l => l)).1 hsmall l hl
  rw [hsize l hl, saturatingAdd]
  omega

/-- The inner loop is the guarded stream of a part, when `q` is what was sent of it. -/
theorem sendChunks_eq_guarded (hcfg : cfg.Sized) {p q : Part} {seen : List Part}
    {chunks : List Bytes} {size : Nat} {sent more : List MpEvent}
    (hq : q.isFile = p.isFile) (hsize : ∀ l ∈ p.limit cfg, size = q.bytes.length)
    (hmore : ∀ r : Part, r.isFile = p.isFile →
      Guard.guarded MpEvent.adds (violation lowercase cfg) Violation.event (r :: seen) more =
        sent) :
    (sendChunks (p.limit cfg) p.isFile p.complete size chunks).1 ++
        (if (sendChunks (p.limit cfg) p.isFile p.complete size chunks).2 then sent else []) =
      Guard.guarded MpEvent.adds (violation lowercase cfg) Violation.event (q :: seen)
        (chunks.map MpEvent.chunk ++ (if p.complete then .partEnd else malformed) :: more) := by
  induction chunks generalizing size q with
  | nil =>
      cases hp : p.complete with
      | true =>
          have hadmits : violation lowercase cfg (q :: seen) .partEnd = none := rfl
          rw [← hmore { q with complete := true } hq]
          exact (Guard.guarded_pass hadmits).symm
      | false =>
          have herror : violation lowercase cfg (q :: seen) malformed = some .malformed := rfl
          rw [List.map_nil, List.nil_append, if_neg Bool.false_ne_true,
            Guard.guarded_stop herror]
          rfl
  | cons chunk chunks ih =>
      have hlimit : q.limit cfg = p.limit cfg := by rw [Part.limit, Part.limit, hq]
      have hover := any_size hcfg chunk.length hsize
      rw [sendChunks, hover, List.map_cons, List.cons_append]
      cases hlarge : (p.limit cfg).any (· < q.bytes.length + chunk.length) with
      | true =>
          have hviolates : violation lowercase cfg (q :: seen) (.chunk chunk) =
              some (.tooLarge p.isFile) := by
            rw [violation, hlimit, hlarge, hq, if_pos rfl]
          rw [Guard.guarded_stop hviolates, if_pos rfl]
          rfl
      | false =>
          have hadmits : violation lowercase cfg (q :: seen) (.chunk chunk) = none := by
            rw [violation, hlimit, hlarge, if_neg Bool.false_ne_true]
          have hgrown : (Part.bytes { q with chunks := q.chunks ++ [chunk] }).length =
              q.bytes.length + chunk.length := by
            simp [Part.bytes]
          have hsize' := saturatingAdd_of_any hcfg hsize hlarge
          rw [Guard.guarded_pass hadmits, if_neg Bool.false_ne_true]
          refine congrArg (MpEvent.chunk chunk :: ·)
            (ih (q := { q with chunks := q.chunks ++ [chunk] }) hq fun l hl => ?_)
          rw [hgrown, hsize' l hl]

/-- The task sends the guarded stream of the form. -/
theorem parseTask_eq_guarded (hcount : cfg.Countable) (hsize : cfg.Sized) (complete : Bool)
    {files fields : UInt32} {parts seen : List Part}
    (hseen : Counted cfg files fields seen) :
    parseTask lowercase cfg complete files fields parts =
      Guard.guarded MpEvent.adds (violation lowercase cfg) Violation.event seen
        (stream complete parts) := by
  induction parts generalizing files fields seen with
  | nil =>
      cases complete with
      | true => rfl
      | false =>
          have herror : violation lowercase cfg seen malformed = some .malformed := rfl
          rw [stream, List.flatMap_nil, List.nil_append, if_neg Bool.false_ne_true,
            Guard.guarded_stop herror]
          rfl
  | cons p parts ih =>
      have hstream : stream complete (p :: parts) =
          .part p.name p.filename p.contentType :: (p.chunks.map MpEvent.chunk ++
            (if p.complete then .partEnd else malformed) :: stream complete parts) := by
        simp [stream, Part.stream]
      rw [parseTask, refusal_eq hcount hseen, hstream]
      cases hpart : violation lowercase cfg seen (.part p.name p.filename p.contentType) with
      | some v => exact (Guard.guarded_stop hpart).symm
      | none =>
          rw [Guard.guarded_pass hpart]
          refine congrArg (MpEvent.part p.name p.filename p.contentType :: ·) ?_
          exact sendChunks_eq_guarded hsize rfl (fun _ _ => rfl) fun r hr =>
            (ih (hseen.step hcount hpart hr)).symm

end Limits

/-! ## What is sent of a form -/

section Trace

variable {lowercase : String → String} {cfg : MultipartConfig}

theorem parseTask_eq (hcount : cfg.Countable) (hsize : cfg.Sized) (f : Form) :
    parseTask lowercase cfg f.complete 0 0 f.parts =
      Guard.guarded MpEvent.adds (violation lowercase cfg) Violation.event [] f.stream :=
  parseTask_eq_guarded hcount hsize f.complete (counted_start cfg)

/-- The parts that are sent are within the limits. -/
theorem parseTask_within (hcount : cfg.Countable) (hsize : cfg.Sized) (f : Form) :
    Within lowercase cfg (partsOf (parseTask lowercase cfg f.complete 0 0 f.parts)) := by
  rw [parseTask_eq hcount hsize, partsOf]
  refine Guard.guarded_invariant (fun parts e hparts hadmit => ?_) (fun _ _ hparts => hparts)
    within_nil f.stream
  exact ((violation_eq_none hparts).1 hadmit).1

/-- A rejection tells the first violation. -/
theorem reject_parseTask (hcount : cfg.Countable) (hsize : cfg.Sized) {f : Form} {e : MpEvent}
    (he : e ∈ parseTask lowercase cfg f.complete 0 0 f.parts) (hreject : e.isReject = true) :
    ∃ v, f.firstViolation lowercase cfg = some v ∧ e = v.event := by
  rw [parseTask_eq hcount hsize] at he
  rcases Guard.mem_guarded he with ⟨parts, hadmit⟩ | hfirst
  · cases e with
    | reject status message => cases hadmit
    | part | chunk | partEnd => cases hreject
  · exact hfirst

theorem adds_chunks (p : Part) (seen : List Part) (chunks : List Bytes) :
    (chunks.map MpEvent.chunk).foldl MpEvent.adds (p :: seen) =
      { p with chunks := p.chunks ++ chunks } :: seen := by
  induction chunks generalizing p with
  | nil => simp
  | cons chunk chunks ih =>
      rw [List.map_cons, List.foldl_cons, MpEvent.adds, ih]
      simp

theorem adds_stream {p : Part} (hp : p.complete = true) (seen : List Part) :
    p.stream.foldl MpEvent.adds seen = p :: seen := by
  obtain ⟨name, filename, contentType, chunks, complete⟩ := p
  obtain rfl : complete = true := hp
  rw [Part.stream, List.foldl_cons, List.foldl_append, MpEvent.adds, adds_chunks]
  rfl

/-- The parts of a form without errors. -/
theorem partsOf_stream {parts : List Part} (hall : ∀ p ∈ parts, p.complete = true) :
    partsOf (stream true parts) = parts.reverse := by
  have hseen (seen : List Part) :
      (parts.flatMap Part.stream).foldl MpEvent.adds seen = parts.reverse ++ seen := by
    induction parts generalizing seen with
    | nil => rfl
    | cons p parts ih =>
        obtain ⟨hp, hparts⟩ := List.forall_mem_cons.1 hall
        rw [List.flatMap_cons, List.foldl_append, adds_stream hp, ih hparts]
        simp
  rw [partsOf, stream, if_pos rfl, List.append_nil, hseen, List.append_nil]

theorem stream_part_clean (p : Part) :
    (∀ e ∈ p.stream, e.isReject = false) ↔ p.complete = true := by
  have hchunks : ∀ e ∈ p.chunks.map MpEvent.chunk, e.isReject = false :=
    List.forall_mem_map.2 fun _ _ => rfl
  rw [Part.stream, List.forall_mem_cons, List.forall_mem_append, List.forall_mem_singleton]
  constructor
  · rintro ⟨_, _, hlast⟩
    cases hp : p.complete with
    | true => rfl
    | false =>
        rw [hp] at hlast
        cases hlast
  · intro hp
    rw [hp]
    exact ⟨rfl, hchunks, rfl⟩

/-- An error of the parser is in the stream. -/
theorem stream_clean_iff (f : Form) :
    (∀ e ∈ f.stream, e.isReject = false) ↔
      f.complete = true ∧ ∀ p ∈ f.parts, p.complete = true := by
  rw [Form.stream, stream, List.forall_mem_append, List.forall_mem_flatMap, and_comm]
  refine and_congr ?_ (forall₂_congr fun p _ => stream_part_clean p)
  cases f.complete <;> simp [malformed, MpEvent.isReject]

theorem Within.reverse {parts : List Part} (h : Within lowercase cfg parts) :
    Within lowercase cfg parts.reverse where
  files := by simpa using h.files
  fields := by simpa using h.fields
  sizes := by simpa using h.sizes
  types := by simpa using h.types

/-- A form has no violation if and only if it is parsed to its end within the limits. -/
theorem firstViolation_eq_none (f : Form) :
    f.firstViolation lowercase cfg = none ↔ f.Accepted lowercase cfg := by
  have hcheck : ∀ parts e, Within lowercase cfg parts → (violation lowercase cfg parts e = none ↔
      Within lowercase cfg (e.adds parts) ∧ e.isReject = false) :=
    fun _ _ hparts => violation_eq_none hparts
  have hfirst : f.firstViolation lowercase cfg = none ↔
      Within lowercase cfg (f.stream.foldl MpEvent.adds []) ∧
        ∀ e ∈ f.stream, e.isReject = false :=
    Guard.first_eq_none_iff hcheck within_of_adds within_nil f.stream
  rw [hfirst, stream_clean_iff]
  constructor
  · rintro ⟨hwithin, hcomplete, hparts⟩
    have hreverse := partsOf_stream hparts
    rw [partsOf, ← hcomplete] at hreverse
    rw [Form.stream, hreverse] at hwithin
    exact ⟨hcomplete, hparts, by simpa using hwithin.reverse⟩
  · rintro ⟨hcomplete, hparts, hwithin⟩
    have hreverse := partsOf_stream hparts
    rw [partsOf, ← hcomplete] at hreverse
    rw [Form.stream, hreverse]
    exact ⟨hwithin.reverse, hcomplete, hparts⟩

/-- No rejection is sent if and only if the form is parsed to its end within the limits; then
it is sent whole. -/
theorem parseTask_clean_iff (hcount : cfg.Countable) (hsize : cfg.Sized) (f : Form) :
    ((∀ e ∈ parseTask lowercase cfg f.complete 0 0 f.parts, e.isReject = false) ↔
        f.Accepted lowercase cfg) ∧
      (f.Accepted lowercase cfg →
        parseTask lowercase cfg f.complete 0 0 f.parts = f.stream) := by
  have hall (haccepted : f.Accepted lowercase cfg) :
      parseTask lowercase cfg f.complete 0 0 f.parts = f.stream := by
    rw [parseTask_eq hcount hsize]
    exact Guard.guarded_eq_self ((firstViolation_eq_none f).2 haccepted)
  refine ⟨⟨fun hclean => ?_, fun haccepted => ?_⟩, hall⟩
  · rw [← firstViolation_eq_none]
    cases hfirst : f.firstViolation lowercase cfg with
    | none => rfl
    | some v =>
        rw [parseTask_eq hcount hsize] at hclean
        have hnot := hclean _ (Guard.stop_mem_guarded hfirst)
        cases hnot
  · rw [hall haccepted, stream_clean_iff]
    exact ⟨haccepted.complete, haccepted.parts⟩

/-- In every state of a run of the task, whatever becomes of the receiver, what the channel
has taken is an initial part of a well bracketed trace, its parts are within the limits, and a
rejection tells the first violation of the form.  Where nothing has stopped the task the trace
is well bracketed, and it has no rejection if and only if the form was parsed to its end within
the limits. -/
theorem limits_traced (lowercase : String → String) {cfg : MultipartConfig}
    (hcount : cfg.Countable) (hsize : cfg.Sized) (f : Form) (cap : Nat)
    (ms : List Feed.Move) {s : Feed.Traced ParseTask MpEvent}
    (hrun : Transition.run (Feed.Traced.step (ParseTask.await lowercase cfg f.complete) cap)
      (Feed.Traced.start (.nextField ⟨0, 0, f.parts⟩)) ms = some s) :
    (∃ rest, bracketed false (s.sent ++ rest) = true) ∧
      Within lowercase cfg (partsOf s.sent) ∧
      (∀ e ∈ s.sent, e.isReject = true →
        ∃ v, f.firstViolation lowercase cfg = some v ∧ e = .reject v.status v.message) ∧
      (s.feed.task = .returned → s.feed.cut = false → s.refused = false →
        bracketed false s.sent = true ∧
          ((∀ e ∈ s.sent, e.isReject = false) ↔ f.Accepted lowercase cfg)) := by
  have hfaithful := Feed.run_faithful _ (sends_parse lowercase cfg f.complete 0 0 f.parts) hrun
  obtain ⟨rest, hrest⟩ := hfaithful.initial
  have hbracketed := bracketed_parse lowercase cfg f.complete 0 0 f.parts
  refine ⟨⟨rest, by rw [hrest]; exact hbracketed⟩, ?_, fun e he hreject => ?_,
    fun hreturned hcut hrefused => ?_⟩
  · have hall : Within lowercase cfg (partsOf (parseTask lowercase cfg _ _ _ _)) :=
      parseTask_within hcount hsize f
    rw [← hrest, partsOf, List.foldl_append] at hall
    exact Guard.of_foldl within_of_adds hall
  · exact reject_parseTask hcount hsize (hrest ▸ List.mem_append_left rest he) hreject
  · have hdone : (s.feed.task.await lowercase cfg f.complete).isDone = true := by
      rw [hreturned]
      rfl
    rw [hfaithful.sent_eq _ hdone hcut hrefused]
    exact ⟨hbracketed, (parseTask_clean_iff hcount hsize f).1⟩

/-- `{ maxFiles: 1, maxFileSize: 2, allowedMimeTypes: ['image/*'] }`. -/
def oneImage : MultipartConfig where
  maxFileSize := some 2
  maxFieldSize := none
  maxFiles := some 1
  maxFields := none
  allowedMime := some ["image/*"]
  allowedExt := none

def twoImages : Form where
  parts := [⟨some "a", some "a.png", some "image/png", [[1], [2]], true⟩,
    ⟨some "b", some "b.png", some "image/png", [[3]], true⟩]
  complete := true

/-- Of two images, where one file is allowed, the second is rejected. -/
theorem limits_traced_images :
    ∃ s, Transition.run (Feed.Traced.step (ParseTask.await id oneImage twoImages.complete) 8)
        (Feed.Traced.start (.nextField ⟨0, 0, twoImages.parts⟩))
        [.work, .send, .work, .send, .work, .send, .work, .send, .work, .send] = some s ∧
      s.sent = [.part (some "a") (some "a.png") (some "image/png"), .chunk [1], .chunk [2],
        .partEnd, .reject 400 "too many files"] ∧
      bracketed false s.sent = true ∧ Within id oneImage (partsOf s.sent) := by
  obtain ⟨s, hs, hsent, hreturned, hcut, hrefused⟩ : ∃ s, Transition.run
        (Feed.Traced.step (ParseTask.await id oneImage twoImages.complete) 8)
        (Feed.Traced.start (.nextField ⟨0, 0, twoImages.parts⟩))
        [.work, .send, .work, .send, .work, .send, .work, .send, .work, .send] = some s ∧
      s.sent = [.part (some "a") (some "a.png") (some "image/png"), .chunk [1], .chunk [2],
        .partEnd, .reject 400 "too many files"] ∧
      s.feed.task = .returned ∧ s.feed.cut = false ∧ s.refused = false :=
    ⟨_, rfl, rfl, rfl, rfl, rfl⟩
  have hcount : oneImage.Countable := ⟨by simp [oneImage], by simp [oneImage]⟩
  have hsize : oneImage.Sized := ⟨by simp [oneImage], by simp [oneImage]⟩
  obtain ⟨_, hwithin, _, hfinal⟩ := limits_traced id hcount hsize twoImages 8 _ hs
  exact ⟨s, hs, hsent, (hfinal hreturned hcut hrefused).1, hwithin⟩

end Trace

end Multipart
end OxideHttp
