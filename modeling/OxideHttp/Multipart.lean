import OxideHttp.Body

/-!
# Multipart forms (`src/multipart.rs`, `src/stream.rs`)

The multipart parser itself is a library; what it yields of a body is a `Form`:
its parts, each cut into chunks, and whether it stopped at an error.
`parse_task` applies the limits of the route and sends events, which `next_part`
and `read_part` take off the channel.

Results.
* `parseTask_refused`: which forms are refused, and after how many bytes of
  content (`RefusedAfter`).
* `run_mpSound`: JS is given no more content than was sent, and reaches the end
  of the form only if no rejection was sent.
* `exists_readAll`: a handler that reads every part gets everything.
-/

namespace OxideHttp
namespace Multipart

open Body

/-- `MultipartConfig`. -/
structure MultipartConfig where
  maxFileSize : Option Nat
  maxFieldSize : Option Nat
  maxFiles : Option UInt32
  maxFields : Option UInt32
  allowedMime : Option (List String)
  allowedExt : Option (List String)
  deriving DecidableEq, Repr

/-- `MpEvent`. -/
inductive MpEvent where
  | part (name filename contentType : Option String)
  | chunk (b : Bytes)
  | partEnd
  | reject (status : Nat) (message : String)
  deriving DecidableEq, Repr

/-- A field as the parser yields it; `complete` is false when reading it ends in
an error. -/
structure Part where
  name : Option String
  filename : Option String
  contentType : Option String
  chunks : List Bytes
  complete : Bool
  deriving DecidableEq, Repr

def Part.isFile (p : Part) : Bool := p.filename.isSome

def Part.bytes (p : Part) : Bytes := p.chunks.flatten

/-- What the parser yields of a body; `complete` is false when looking for the
next field ends in an error. -/
structure Form where
  parts : List Part
  complete : Bool
  deriving DecidableEq, Repr

def Form.bytes (f : Form) : Bytes := (f.parts.map Part.bytes).flatten

section Task

-- `str::to_lowercase`
variable (lowercase : String → String)

/-- `mime_allowed`: a pattern that ends in `/*` matches by its main type. -/
def mimeAllowed (ct : Option String) (patterns : Option (List String)) : Bool :=
  match patterns with
  | none => true
  | some patterns =>
      let main := trim ((lowercase (ct.getD "")).toList.takeWhile (· != ';'))
      patterns.any fun p =>
        if ['/', '*'].isSuffixOf p.toList then
          (p.toList.dropLast).isPrefixOf main
        else main == p.toList

/-- `ext_allowed`. -/
def extAllowed (filename : Option String) (exts : Option (List String)) : Bool :=
  match exts, filename with
  | none, _ => true
  | some _, none => true
  | some exts, some fname =>
      exts.any fun e => e.toList.isSuffixOf (lowercase fname).toList

def malformed : MpEvent := .reject 400 "malformed multipart"

/-- The inner loop of `parse_task`: the events it sends for one part of which
`size` bytes were read, and whether it goes on to the next part. -/
def sendChunks (limit : Option Nat) (isFile complete : Bool) :
    Nat → List Bytes → List MpEvent × Bool
  | _, [] => if complete then ([.partEnd], true) else ([malformed], false)
  | size, chunk :: chunks =>
      if limit.any (· < saturatingAdd size chunk.length) then
        ([.reject (if isFile then 413 else 400) "part too large"], false)
      else
        let rest := sendChunks limit isFile complete
          (saturatingAdd size chunk.length) chunks
        (.chunk chunk :: rest.1, rest.2)

/-- The per-part size limit. -/
def Part.limit (cfg : MultipartConfig) (p : Part) : Option Nat :=
  if p.isFile then cfg.maxFileSize else cfg.maxFieldSize

/-- The counts and types check of `parse_task`: the rejection of a part that
comes after `files` files and `fields` fields. -/
def Part.refusal (cfg : MultipartConfig) (files fields : UInt32) (p : Part) :
    Option MpEvent :=
  if p.isFile then
    if cfg.maxFiles.any (· < files + 1) then some (.reject 400 "too many files")
    else if !mimeAllowed lowercase p.contentType cfg.allowedMime then
      some (.reject 415 "mime type not allowed")
    else if !extAllowed lowercase p.filename cfg.allowedExt then
      some (.reject 415 "file extension not allowed")
    else none
  else if cfg.maxFields.any (· < fields + 1) then
    some (.reject 400 "too many fields")
  else none

/-- `parse_task`: the events it sends. -/
def parseTask (cfg : MultipartConfig) (complete : Bool) :
    UInt32 → UInt32 → List Part → List MpEvent
  | _, _, [] => if complete then [] else [malformed]
  | files, fields, p :: parts =>
      match p.refusal lowercase cfg files fields with
      | some rejection => [rejection]
      | none =>
          let sent := sendChunks (p.limit cfg) p.isFile p.complete 0 p.chunks
          .part p.name p.filename p.contentType :: sent.1 ++
            if sent.2 then
              parseTask cfg complete (if p.isFile then files + 1 else files)
                (if p.isFile then fields else fields + 1) parts
            else []

end Task

/-! ## What a task sends -/

def MpEvent.bytes : MpEvent → Bytes
  | .chunk b => b
  | _ => []

def MpEvent.isReject : MpEvent → Bool
  | .reject .. => true
  | _ => false

/-- The content that a list of events carries. -/
def carried (events : List MpEvent) : Bytes := (events.map MpEvent.bytes).flatten

@[simp] theorem carried_nil : carried [] = [] := rfl

@[simp] theorem carried_cons (e : MpEvent) (events : List MpEvent) :
    carried (e :: events) = e.bytes ++ carried events := rfl

@[simp] theorem carried_append (es fs : List MpEvent) :
    carried (es ++ fs) = carried es ++ carried fs := by
  simp [carried]

/-- The chunks of a part that fit its limit, when `size` bytes came before. -/
def fitting (limit : Option Nat) : Nat → List Bytes → List Bytes
  | _, [] => []
  | size, chunk :: chunks =>
      if limit.any (· < saturatingAdd size chunk.length) then []
      else chunk :: fitting limit (saturatingAdd size chunk.length) chunks

theorem sendChunks_carried (limit : Option Nat) (isFile complete : Bool) (size : Nat)
    (chunks : List Bytes) :
    carried (sendChunks limit isFile complete size chunks).1 =
      (fitting limit size chunks).flatten := by
  induction chunks generalizing size with
  | nil => cases complete <;> rfl
  | cons chunk chunks ih =>
      rw [sendChunks, fitting]
      split
      case isTrue => rfl
      case isFalse => simp [MpEvent.bytes, ih]

theorem fitting_isPrefix (limit : Option Nat) (size : Nat) (chunks : List Bytes) :
    fitting limit size chunks <+: chunks := by
  induction chunks generalizing size with
  | nil => exact List.prefix_refl _
  | cons chunk chunks ih =>
      rw [fitting]
      split
      case isTrue => exact List.nil_prefix
      case isFalse => exact List.cons_prefix_cons.2 ⟨rfl, ih _⟩

/-- The task goes on when everything fits and the part is complete, and it
rejects the part otherwise. -/
theorem sendChunks_go (limit : Option Nat) (isFile complete : Bool) (size : Nat)
    (chunks : List Bytes) :
    ((sendChunks limit isFile complete size chunks).2 = true ↔
        fitting limit size chunks = chunks ∧ complete = true) ∧
      ((sendChunks limit isFile complete size chunks).2 = false ↔
        ∃ e ∈ (sendChunks limit isFile complete size chunks).1, e.isReject = true) := by
  induction chunks generalizing size with
  | nil => cases complete <;> simp [sendChunks, fitting, malformed, MpEvent.isReject]
  | cons chunk chunks ih =>
      rw [sendChunks, fitting]
      split
      case isTrue => simp [MpEvent.isReject]
      case isFalse =>
        obtain ⟨hgo, hstop⟩ := ih (saturatingAdd size chunk.length)
        constructor
        · simpa using hgo
        · simpa [MpEvent.isReject] using hstop

section Refusal

variable (lowercase : String → String) (cfg : MultipartConfig)

/-- All chunks of the part fit its limit, and it is complete. -/
def Part.Whole (p : Part) : Prop :=
  fitting (p.limit cfg) 0 p.chunks = p.chunks ∧ p.complete = true

/-- The form is refused when `n` bytes of content have come, with `files` files
and `fields` fields before `parts`. -/
inductive RefusedAfter (complete : Bool) :
    UInt32 → UInt32 → List Part → Nat → Prop
  | malformed {files fields : UInt32} (h : complete = false) :
      RefusedAfter complete files fields [] 0
  | denied {files fields : UInt32} {p : Part} {parts : List Part}
      (h : p.refusal lowercase cfg files fields ≠ none) :
      RefusedAfter complete files fields (p :: parts) 0
  | cut {files fields : UInt32} {p : Part} {parts : List Part}
      (h : p.refusal lowercase cfg files fields = none) (hp : ¬ p.Whole cfg) :
      RefusedAfter complete files fields (p :: parts)
        (fitting (p.limit cfg) 0 p.chunks).flatten.length
  | later {files fields : UInt32} {p : Part} {parts : List Part} {n : Nat}
      (h : p.refusal lowercase cfg files fields = none) (hp : p.Whole cfg)
      (hrest : RefusedAfter complete (if p.isFile then files + 1 else files)
        (if p.isFile then fields else fields + 1) parts n) :
      RefusedAfter complete files fields (p :: parts) (p.bytes.length + n)

theorem refusal_bytes {files fields : UInt32} {p : Part} {e : MpEvent}
    (h : p.refusal lowercase cfg files fields = some e) :
    e.bytes = [] ∧ e.isReject = true := by
  unfold Part.refusal at h
  repeat' split at h
  all_goals cases h
  all_goals exact ⟨rfl, rfl⟩

/-- A refused form sends that many bytes and a rejection. -/
theorem parseTask_refused {complete : Bool} {files fields : UInt32}
    {parts : List Part} {n : Nat}
    (h : RefusedAfter lowercase cfg complete files fields parts n) :
    (carried (parseTask lowercase cfg complete files fields parts)).length = n ∧
      ∃ e ∈ parseTask lowercase cfg complete files fields parts,
        e.isReject = true := by
  induction h with
  | malformed h =>
      subst h
      exact ⟨rfl, _, List.mem_singleton_self _, rfl⟩
  | @denied files fields p parts h =>
      obtain ⟨e, he⟩ := Option.ne_none_iff_exists'.1 h
      obtain ⟨hbytes, hreject⟩ := refusal_bytes lowercase cfg he
      rw [parseTask, he]
      exact ⟨by simp [hbytes], e, List.mem_singleton_self _, hreject⟩
  | @cut files fields p parts h hp =>
      obtain ⟨hgo, hstop⟩ :=
        sendChunks_go (p.limit cfg) p.isFile p.complete 0 p.chunks
      have hfalse := Bool.eq_false_iff.2 fun hgo' => hp (hgo.1 hgo')
      obtain ⟨e, he, hreject⟩ := hstop.1 hfalse
      rw [parseTask, h]
      simp only [hfalse, Bool.false_eq_true, if_false, List.append_nil]
      exact ⟨by simp [MpEvent.bytes, sendChunks_carried], e,
        List.mem_cons_of_mem _ he, hreject⟩
  | @later files fields p parts n h hp hrest ih =>
      obtain ⟨hlength, e, he, hreject⟩ := ih
      have hgo := ((sendChunks_go (p.limit cfg) p.isFile p.complete 0 p.chunks).1).2 hp
      rw [parseTask, h]
      simp only [hgo, if_true]
      refine ⟨?_, e, ?_, hreject⟩
      · simp only [carried_cons, carried_append, sendChunks_carried, hp.1,
          List.length_append, hlength]
        simp [MpEvent.bytes, Part.bytes]
      · exact List.mem_cons_of_mem _ (List.mem_append_right _ he)

/-- A form that is not refused is sent whole, without a rejection. -/
theorem parseTask_whole {complete : Bool} {files fields : UInt32}
    {parts : List Part}
    (h : ∀ n, ¬ RefusedAfter lowercase cfg complete files fields parts n) :
    carried (parseTask lowercase cfg complete files fields parts) =
        (parts.map Part.bytes).flatten ∧
      ∀ e ∈ parseTask lowercase cfg complete files fields parts,
        e.isReject = false := by
  induction parts generalizing files fields with
  | nil =>
      have hcomplete : complete = true := by
        by_contra hc
        exact h 0 (.malformed (by simpa using hc))
      simp [parseTask, hcomplete]
  | cons p parts ih =>
      have hadmit : p.refusal lowercase cfg files fields = none := by
        by_contra hne
        exact h 0 (.denied hne)
      have hwhole : p.Whole cfg := by
        by_contra hne
        exact h _ (.cut hadmit hne)
      obtain ⟨hgo, hstop⟩ :=
        sendChunks_go (p.limit cfg) p.isFile p.complete 0 p.chunks
      have htrue := hgo.2 hwhole
      obtain ⟨hbytes, hnone⟩ := ih fun n hn => h _ (.later hadmit hwhole hn)
      rw [parseTask, hadmit]
      simp only [htrue, if_true]
      constructor
      · simp [MpEvent.bytes, sendChunks_carried, hwhole.1, hbytes, Part.bytes]
      · intro e he
        rcases List.mem_cons.1 he with rfl | he
        · rfl
        · rcases List.mem_append.1 he with he | he
          · by_contra hreject
            have hfalse := hstop.2 ⟨e, he, by simpa using hreject⟩
            rw [htrue] at hfalse
            cases hfalse
          · exact hnone e he

/-- No more is sent than the parts hold. -/
theorem parseTask_carried_le (complete : Bool) (files fields : UInt32)
    (parts : List Part) :
    (carried (parseTask lowercase cfg complete files fields parts)).length ≤
      (parts.map Part.bytes).flatten.length := by
  induction parts generalizing files fields with
  | nil => cases complete <;> simp [parseTask, malformed, MpEvent.bytes]
  | cons p parts ih =>
      have hfit : (fitting (p.limit cfg) 0 p.chunks).flatten.length ≤ p.bytes.length := by
        obtain ⟨rest, hrest⟩ := fitting_isPrefix (p.limit cfg) 0 p.chunks
        have hlen := congrArg (fun cs => cs.flatten.length) hrest
        simp only [List.flatten_append, List.length_append] at hlen
        rw [Part.bytes]
        omega
      rw [parseTask]
      split
      case h_1 e he =>
        obtain ⟨hbytes, _⟩ := refusal_bytes lowercase cfg he
        simp [hbytes]
      case h_2 =>
        have hrest := ih (if p.isFile then files + 1 else files)
          (if p.isFile then fields else fields + 1)
        simp only [carried_cons, carried_append, sendChunks_carried,
          List.length_append, List.map_cons, List.flatten_cons]
        split
        case isTrue =>
          simp only [MpEvent.bytes, List.length_nil]
          omega
        case isFalse =>
          simp only [MpEvent.bytes, carried_nil, List.length_nil]
          omega

end Refusal

/-! ## `next_part` and `read_part` -/

/-- `PartMeta`. -/
structure PartMeta where
  name : Option String
  filename : Option String
  contentType : Option String
  deriving DecidableEq, Repr

/-- What a resolved call has given to JS. -/
inductive Saw where
  /-- `next_part`; `none` is the end of the form -/
  | part (info : Option PartMeta)
  /-- `read_part`; `none` is the end of the part -/
  | chunk (b : Option Bytes)
  /-- either of them threw -/
  | rejected (status : Nat) (message : String)
  deriving DecidableEq, Repr

/-- The multipart side of `BodyIo`.  Its lock is held by one call at a time. -/
structure MpIo where
  rx : Pipe.State MpEvent
  /-- the current part is finished -/
  ended : Bool
  /-- a call of `next_part` is looking for the next part -/
  seeking : Bool
  log : List Saw

inductive MpLabel where
  | send
  | close
  /-- JS calls `next_part` -/
  | nextPart
  /-- the loop of `next_part` takes one event -/
  | seek
  /-- JS calls `read_part`, and it resolves -/
  | readPart
  /-- JS lets go of the `BodyIo` -/
  | drop
  deriving DecidableEq, Repr

def MpIo.open (rx : Pipe.State MpEvent) : MpIo :=
  { rx := rx, ended := false, seeking := false, log := [] }

/-- `next_part` on what the channel yields. -/
def MpIo.sought (io : MpIo) (rx : Pipe.State MpEvent) : Option MpEvent → MpIo
  | some (.part name filename contentType) =>
      { rx := rx, ended := false, seeking := false,
        log := io.log ++ [.part (some { name, filename, contentType })] }
  | some (.chunk _) | some .partEnd => { io with rx := rx }
  | some (.reject status message) =>
      { io with rx := rx, seeking := false, log := io.log ++ [.rejected status message] }
  | none => { io with rx := rx, seeking := false, log := io.log ++ [.part none] }

/-- `read_part` on what the channel yields. -/
def MpIo.partRead (io : MpIo) (rx : Pipe.State MpEvent) : Option MpEvent → MpIo
  | some (.chunk b) => { io with rx := rx, log := io.log ++ [.chunk (some b)] }
  | some (.reject status message) =>
      { io with rx := rx, log := io.log ++ [.rejected status message] }
  | some .partEnd | some (.part ..) | none =>
      { io with rx := rx, ended := true, log := io.log ++ [.chunk none] }

def MpIo.step (io : MpIo) : MpLabel → Option MpIo
  | .send => (io.rx.send bodyChannelCap).map fun rx => { io with rx := rx }
  | .close => io.rx.close.map fun rx => { io with rx := rx }
  | .nextPart => if io.seeking then none else some { io with seeking := true }
  | .seek => if io.seeking then io.rx.recv.map fun r => io.sought r.2 r.1 else none
  | .readPart =>
      if io.seeking then none
      else if io.ended then some { io with log := io.log ++ [.chunk none] }
      else io.rx.recv.map fun r => io.partRead r.2 r.1
  | .drop => some { io with rx := io.rx.drop }

def Saw.bytes : Saw → Bytes
  | .chunk (some b) => b
  | _ => []

def Saw.isRejected : Saw → Bool
  | .rejected .. => true
  | _ => false

/-- The content that JS has been given. -/
def MpIo.handed (io : MpIo) : Bytes := (io.log.map Saw.bytes).flatten

/-- JS has reached the end of the form, and no call has thrown. -/
def MpIo.complete (io : MpIo) : Prop :=
  .part none ∈ io.log ∧ ∀ e ∈ io.log, e.isRejected = false

structure MpSound (events : List MpEvent) (io : MpIo) : Prop where
  sound : Pipe.Sound events io.rx
  handed : io.handed.length ≤ (carried io.rx.got).length
  eof : .part none ∈ io.log → io.rx.ended = true
  clean : (∀ e ∈ io.log, e.isRejected = false) →
    ∀ e ∈ io.rx.got, e.isReject = false

theorem mpSound_open {events : List MpEvent} {rx : Pipe.State MpEvent}
    (hsound : Pipe.Sound events rx) (hgot : rx.got = []) :
    MpSound events (MpIo.open rx) where
  sound := hsound
  handed := by simp [MpIo.open, MpIo.handed]
  eof := fun h => nomatch h
  clean := fun _ e he => by simp [MpIo.open, hgot] at he

/-- What one received event, or the end, may add to the log. -/
def Logs (r : Option MpEvent) (saw : List Saw) : Prop :=
  (saw.map Saw.bytes).flatten.length ≤ (carried r.toList).length ∧
    (.part none ∈ saw → r = none) ∧
    ∀ e, r = some e → e.isReject = true → ∃ w ∈ saw, w.isRejected = true

theorem mpSound_recv {events : List MpEvent} {io : MpIo} {rx : Pipe.State MpEvent}
    {r : Option MpEvent} {saw : List Saw} (hs : MpSound events io)
    (h : io.rx.recv = some (r, rx)) (hlogs : Logs r saw) {io' : MpIo}
    (hrx : io'.rx = rx) (hlog : io'.log = io.log ++ saw) : MpSound events io' := by
  obtain ⟨hbytes, hnone, hreject⟩ := hlogs
  have hgot : rx.got = io.rx.got ++ r.toList := by
    rcases Pipe.recv_cases h with ⟨e, rfl, hgot, _⟩ | ⟨rfl, hgot, _⟩ <;> simp [hgot]
  exact
    { sound := by
        rw [hrx]
        exact Pipe.recv_sound hs.sound h
      handed := by
        have hhanded := hs.handed
        simp only [MpIo.handed] at hhanded
        simp only [MpIo.handed, hrx, hgot, hlog, List.map_append, List.flatten_append,
          carried_append, List.length_append]
        omega
      eof := fun hmem => by
        rw [hlog] at hmem
        rw [hrx]
        rcases List.mem_append.1 hmem with hmem | hmem
        · rcases Pipe.recv_cases h with ⟨_, _, _, hended⟩ | ⟨_, _, hended⟩
          · rw [hended]
            exact hs.eof hmem
          · exact hended
        · rcases Pipe.recv_cases h with ⟨e, he, _⟩ | ⟨_, _, hended⟩
          · rw [hnone hmem] at he
            cases he
          · exact hended
      clean := fun hok e he => by
        rw [hrx, hgot] at he
        rw [hlog] at hok
        rcases List.mem_append.1 he with he | he
        · exact hs.clean (fun w hw => hok w (List.mem_append_left _ hw)) e he
        · by_contra herr
          obtain ⟨w, hw, hrej⟩ :=
            hreject e (Option.mem_toList.1 he) (by simpa using herr)
          rw [hok w (List.mem_append_right _ hw)] at hrej
          cases hrej }

/-- `next_part` and `read_part` log what they receive. -/
theorem sought_logs (io : MpIo) (rx : Pipe.State MpEvent) (r : Option MpEvent) :
    (io.sought rx r).rx = rx ∧
      ∃ saw, (io.sought rx r).log = io.log ++ saw ∧ Logs r saw := by
  rcases r with _ | (_ | _ | _ | _)
  · exact ⟨rfl, _, rfl, by simp [Logs, Saw.bytes]⟩
  · exact ⟨rfl, _, rfl, by simp [Logs, Saw.bytes, MpEvent.isReject]⟩
  · exact ⟨rfl, [], (List.append_nil _).symm, by simp [Logs, MpEvent.isReject]⟩
  · exact ⟨rfl, [], (List.append_nil _).symm, by simp [Logs, MpEvent.isReject]⟩
  · exact ⟨rfl, _, rfl, by simp [Logs, Saw.bytes, Saw.isRejected]⟩

theorem partRead_logs (io : MpIo) (rx : Pipe.State MpEvent) (r : Option MpEvent) :
    (io.partRead rx r).rx = rx ∧
      ∃ saw, (io.partRead rx r).log = io.log ++ saw ∧ Logs r saw := by
  rcases r with _ | (_ | _ | _ | _)
  · exact ⟨rfl, _, rfl, by simp [Logs, Saw.bytes]⟩
  · exact ⟨rfl, _, rfl, by simp [Logs, Saw.bytes, MpEvent.isReject]⟩
  · exact ⟨rfl, _, rfl, by simp [Logs, Saw.bytes, MpEvent.bytes, MpEvent.isReject]⟩
  · exact ⟨rfl, _, rfl, by simp [Logs, Saw.bytes, MpEvent.isReject]⟩
  · exact ⟨rfl, _, rfl, by simp [Logs, Saw.bytes, Saw.isRejected]⟩

/-- The log does not notice what the sender does. -/
theorem MpSound.frame {events events' : List MpEvent} {io io' : MpIo}
    (hs : MpSound events io) (hsound : Pipe.Sound events' io'.rx)
    (hframe : io'.rx.got = io.rx.got ∧ io'.rx.ended = io.rx.ended)
    (hlog : io'.log = io.log) : MpSound events' io' where
  sound := hsound
  handed := by
    rw [MpIo.handed, hframe.1, hlog]
    exact hs.handed
  eof := by
    rw [hframe.2, hlog]
    exact hs.eof
  clean := by
    rw [hframe.1, hlog]
    exact hs.clean

theorem step_mpSound {events : List MpEvent} {io io' : MpIo} {l : MpLabel}
    (hs : MpSound events io) (h : io.step l = some io') : MpSound events io' := by
  cases l with
  | send =>
      obtain ⟨rx, hrx, rfl⟩ := Option.map_eq_some_iff.1 h
      exact hs.frame (Pipe.send_sound hs.sound hrx) (Pipe.send_frame hrx) rfl
  | close =>
      obtain ⟨rx, hrx, rfl⟩ := Option.map_eq_some_iff.1 h
      exact hs.frame (Pipe.close_sound hs.sound hrx) (Pipe.close_frame hrx) rfl
  | nextPart =>
      simp only [MpIo.step, Option.ite_none_left_eq_some] at h
      obtain rfl := Option.some.inj h.2
      exact ⟨hs.sound, hs.handed, hs.eof, hs.clean⟩
  | seek =>
      simp only [MpIo.step, Option.ite_none_right_eq_some] at h
      obtain ⟨⟨r, rx⟩, hrx, rfl⟩ := Option.map_eq_some_iff.1 h.2
      obtain ⟨hsame, saw, hlog, hlogs⟩ := sought_logs io rx r
      exact mpSound_recv hs hrx hlogs hsame hlog
  | readPart =>
      simp only [MpIo.step, Option.ite_none_left_eq_some] at h
      obtain ⟨_, h⟩ := h
      split at h
      case isTrue =>
        obtain rfl := Option.some.inj h
        exact
          { sound := hs.sound
            handed := by simpa [MpIo.handed, Saw.bytes] using hs.handed
            eof := fun hmem => hs.eof (by simpa using hmem)
            clean := fun hok => hs.clean fun e he => hok e (List.mem_append_left _ he) }
      case isFalse =>
        obtain ⟨⟨r, rx⟩, hrx, rfl⟩ := Option.map_eq_some_iff.1 h
        obtain ⟨hsame, saw, hlog, hlogs⟩ := partRead_logs io rx r
        exact mpSound_recv hs hrx hlogs hsame hlog
  | drop =>
      obtain rfl := Option.some.inj h
      exact hs.frame (Pipe.drop_sound hs.sound) ⟨rfl, rfl⟩ rfl

theorem run_mpSound {events : List MpEvent} {io io' : MpIo} {ls : List MpLabel}
    (hs : MpSound events io) (hrun : Transition.run MpIo.step io ls = some io') :
    MpSound events io' :=
  Transition.run_invariant (fun _ _ _ => step_mpSound) hs hrun

/-- JS is given no more content than the events carry. -/
theorem MpSound.handed_le {events : List MpEvent} {io : MpIo} (hs : MpSound events io) :
    io.handed.length ≤ (carried events).length := by
  obtain ⟨rest, hrest⟩ := hs.sound.initial
  have hgot := hs.handed
  rw [← hrest, carried_append, List.length_append]
  omega

/-- Where the task rejects the form, the form is never complete. -/
theorem MpSound.not_complete {events : List MpEvent} {io : MpIo}
    (hs : MpSound events io) {e : MpEvent} (he : e ∈ events)
    (hreject : e.isReject = true) : ¬ io.complete := by
  rintro ⟨heof, hok⟩
  have hgot := hs.sound.complete (hs.eof heof)
  rw [hs.clean hok e (hgot ▸ he)] at hreject
  cases hreject

/-! ## A handler that reads everything -/

/-- Chunks and ends of parts come inside a part; `ended` is whether the last part
is over. -/
def readable : Bool → List MpEvent → Bool
  | _, [] => true
  | _, .part .. :: events => readable false events
  | ended, .chunk _ :: events => !ended && readable ended events
  | ended, .partEnd :: events => !ended && readable true events
  | ended, .reject .. :: events => readable ended events

theorem sendChunks_readable (limit : Option Nat) (isFile complete : Bool) (size : Nat)
    (chunks : List Bytes) {rest : List MpEvent}
    (hgo : (sendChunks limit isFile complete size chunks).2 = true →
      readable true rest = true)
    (hstop : (sendChunks limit isFile complete size chunks).2 = false → rest = []) :
    readable false ((sendChunks limit isFile complete size chunks).1 ++ rest) = true := by
  induction chunks generalizing size with
  | nil =>
      cases complete with
      | true => simpa [sendChunks, readable] using hgo rfl
      | false => simp [sendChunks, readable, malformed, hstop rfl]
  | cons chunk chunks ih =>
      rw [sendChunks] at hgo hstop ⊢
      split
      case isTrue h =>
        rw [if_pos h] at hstop
        simp [readable, hstop rfl]
      case isFalse h =>
        rw [if_neg h] at hgo hstop
        simpa [readable] using ih _ hgo hstop

theorem parseTask_readable (lowercase : String → String) (cfg : MultipartConfig)
    (complete : Bool) (ended : Bool) (files fields : UInt32) (parts : List Part) :
    readable ended (parseTask lowercase cfg complete files fields parts) = true := by
  induction parts generalizing ended files fields with
  | nil => cases complete <;> rfl
  | cons p parts ih =>
      rw [parseTask]
      split
      case h_1 e he =>
        unfold Part.refusal at he
        repeat' split at he
        all_goals cases he
        all_goals rfl
      case h_2 =>
        simp only [readable, List.cons_append]
        refine sendChunks_readable _ _ _ _ _ (fun hgo => ?_) (fun hstop => ?_)
        · rw [if_pos hgo]
          exact ih ..
        · simp [hstop]

/-- The moves that bring one event to the handler, and what it makes of it. -/
theorem exists_readOne (e : MpEvent) (events : List MpEvent) {io : MpIo}
    {got : List MpEvent}
    (hrx : io.rx = { Pipe.State.start (e :: events) with got := got })
    (hseek : io.seeking = false) (hread : readable io.ended (e :: events) = true) :
    ∃ ms next, Transition.run MpIo.step io ms = some next ∧
      next.rx = { Pipe.State.start events with got := got ++ [e] } ∧
      next.seeking = false ∧ readable next.ended events = true ∧
      next.handed = io.handed ++ e.bytes ∧
      (e.isReject = false → (∀ w ∈ io.log, w.isRejected = false) →
        ∀ w ∈ next.log, w.isRejected = false) := by
  obtain ⟨rx, ended, seeking, log⟩ := io
  simp only at hrx hseek hread
  subst hrx hseek
  cases e with
  | part name filename contentType =>
      refine ⟨[.nextPart, .send, .seek], _, rfl, rfl, rfl, hread, ?_, ?_⟩
      · simp [MpIo.handed, MpIo.sought, Saw.bytes, MpEvent.bytes]
      · intro _ hlog w hw
        rcases List.mem_append.1 hw with hw | hw
        · exact hlog w hw
        · rw [List.mem_singleton.1 hw]
          rfl
  | chunk b =>
      cases ended with
      | true => simp [readable] at hread
      | false =>
          refine ⟨[.send, .readPart], _, rfl, rfl, rfl, hread, ?_, ?_⟩
          · simp [MpIo.handed, MpIo.partRead, Saw.bytes, MpEvent.bytes]
          · intro _ hlog w hw
            rcases List.mem_append.1 hw with hw | hw
            · exact hlog w hw
            · rw [List.mem_singleton.1 hw]
              rfl
  | partEnd =>
      cases ended with
      | true => simp [readable] at hread
      | false =>
          refine ⟨[.send, .readPart], _, rfl, rfl, rfl, hread, ?_, ?_⟩
          · simp [MpIo.handed, MpIo.partRead, Saw.bytes, MpEvent.bytes]
          · intro _ hlog w hw
            rcases List.mem_append.1 hw with hw | hw
            · exact hlog w hw
            · rw [List.mem_singleton.1 hw]
              rfl
  | reject status message =>
      refine ⟨[.nextPart, .send, .seek], _, rfl, rfl, rfl, hread, ?_, ?_⟩
      · simp [MpIo.handed, MpIo.sought, Saw.bytes, MpEvent.bytes]
      · exact fun h => nomatch h

/-- A handler that asks for the next part at each part, and reads each part to
its end, gets everything that is sent. -/
theorem exists_readAll (events : List MpEvent) {io : MpIo} {got : List MpEvent}
    (hrx : io.rx = { Pipe.State.start events with got := got })
    (hseek : io.seeking = false) (hread : readable io.ended events = true) :
    ∃ ls io', Transition.run MpIo.step io ls = some io' ∧
      io'.rx = { Pipe.State.start [] with got := got ++ events } ∧
      io'.seeking = false ∧ io'.handed = io.handed ++ carried events ∧
      ((∀ e ∈ events, e.isReject = false) → (∀ e ∈ io.log, e.isRejected = false) →
        ∀ e ∈ io'.log, e.isRejected = false) := by
  induction events generalizing io got with
  | nil => exact ⟨[], io, rfl, by simpa using hrx, hseek, by simp, fun _ h => h⟩
  | cons e events ih =>
      obtain ⟨ms, next, hms, hnrx, hnseek, hnended, hnhanded, hnlog⟩ :=
        exists_readOne e events hrx hseek hread
      obtain ⟨ls, io', hls, hrx', hseek', hhanded', hlog'⟩ := ih hnrx hnseek hnended
      refine ⟨ms ++ ls, io', Transition.run_append_some.2 ⟨next, hms, hls⟩,
        by simpa using hrx', hseek', ?_, fun hok hlog => ?_⟩
      · rw [hhanded', hnhanded, carried_cons, List.append_assoc]
      · exact hlog' (fun d hd => hok d (List.mem_cons_of_mem _ hd))
          (hnlog (hok e (List.mem_cons_self ..)) hlog)

/-- The same from the start, with the end of the form. -/
theorem exists_readForm (events : List MpEvent) (hread : readable false events = true) :
    ∃ ls io, Transition.run MpIo.step (MpIo.open (Pipe.State.start events)) ls =
        some io ∧ io.handed = carried events ∧ .part none ∈ io.log ∧
      ((∀ e ∈ events, e.isReject = false) → io.complete) := by
  obtain ⟨ls, io, hls, hrx, hseek, hhanded, hlog⟩ :=
    @exists_readAll events (MpIo.open (Pipe.State.start events)) [] rfl rfl hread
  obtain ⟨rx, ended, seeking, log⟩ := io
  simp only at hrx hseek hlog
  subst hrx hseek
  refine ⟨ls ++ [.close, .nextPart, .seek], _,
    Transition.run_append_some.2 ⟨_, hls, rfl⟩, ?_, ?_, ?_⟩
  · simpa [MpIo.handed, MpIo.sought, Saw.bytes, MpIo.open] using hhanded
  · exact List.mem_append_right _ (List.mem_singleton_self _)
  · intro hok
    refine ⟨List.mem_append_right _ (List.mem_singleton_self _), fun w hw => ?_⟩
    rcases List.mem_append.1 hw with hw | hw
    · exact hlog hok (fun w hw => nomatch hw) w hw
    · rw [List.mem_singleton.1 hw]
      rfl

end Multipart
end OxideHttp
