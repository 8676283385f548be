import OxideHttp.Http
import OxideHttp.Lib.Pipe
import OxideHttp.Lib.Transition

/-!
# Request bodies (`src/server.rs`, `src/stream.rs`)

What `hyper` delivers of a body is a list of `BodyEvent`s that ends cleanly.
Two readers consume it: `read_body_task`, which sends each frame on to JS over a
channel of capacity one, and `buffer_body`, which collects the frames for native
validation.  A task is given by the messages it sends, in order; the channel of
`Lib.Pipe` interleaves it with the reads of the handler.

Results.
* `readBodyTask_within`, `readBodyTask_over`: what is sent stays within the
  limit, and a body over the limit is cut off by an error.
* `readBodyTask_clean`, `bufferBody_clean`: a clean body within the limit is
  sent, or buffered, whole.
-/

namespace OxideHttp
namespace Body

/-- One outcome of waiting for the next frame. -/
inductive BodyEvent where
  | data (b : Bytes)
  | trailers
  /-- the connection died -/
  | error
  /-- nothing comes for longer than `bodyReadTimeout` while the reader waits -/
  | stall
  deriving DecidableEq, Repr

/-- The bytes of the data frames. -/
def BodyEvent.bytes : BodyEvent → Bytes
  | .data b => b
  | _ => []

/-- All bytes that the client sent. -/
def content (events : List BodyEvent) : Bytes := (events.map BodyEvent.bytes).flatten

/-- `BodyMsg`. -/
inductive BodyMsg where
  | data (b : Bytes)
  | overflow
  | timeout
  | aborted
  deriving DecidableEq, Repr

def BodyMsg.bytes : BodyMsg → Bytes
  | .data b => b
  | _ => []

/-- `read` throws on it. -/
def BodyMsg.isError : BodyMsg → Bool
  | .data _ => false
  | _ => true

/-- The bytes handed on by a list of messages. -/
def received (msgs : List BodyMsg) : Bytes := (msgs.map BodyMsg.bytes).flatten

/-- `u64::saturating_add`. -/
def saturatingAdd (a b : Nat) : Nat := min (a + b) (2 ^ 64 - 1)

/-- `read_body_task`: the messages it sends when `total` bytes were read. -/
def readBodyTask (limit : Option BodyLimit) (readTimeout : Bool) :
    Nat → List BodyEvent → List BodyMsg
  | _, [] => []
  | total, .data b :: events =>
      if overLimit limit (saturatingAdd total b.length) then [.overflow]
      else .data b :: readBodyTask limit readTimeout (saturatingAdd total b.length) events
  | total, .trailers :: events => readBodyTask limit readTimeout total events
  | _, .error :: _ => [.aborted]
  | total, .stall :: events =>
      if readTimeout then [.timeout] else readBodyTask limit readTimeout total events

inductive BodyErr where
  | tooLarge
  | timeout
  | aborted
  deriving DecidableEq, Repr

/-- `buffer_body`: `buf` is what has been collected. -/
def bufferBody (limit : Option BodyLimit) (readTimeout : Bool) :
    Bytes → List BodyEvent → Except BodyErr Bytes
  | buf, [] => .ok buf
  | buf, .data b :: events =>
      if overLimit limit (buf.length + b.length) then .error .tooLarge
      else bufferBody limit readTimeout (buf ++ b) events
  | buf, .trailers :: events => bufferBody limit readTimeout buf events
  | _, .error :: _ => .error .aborted
  | buf, .stall :: events =>
      if readTimeout then .error .timeout else bufferBody limit readTimeout buf events

/-- The body ends normally, within the read timeout. -/
def Clean (readTimeout : Bool) (events : List BodyEvent) : Prop :=
  ∀ e ∈ events, e ≠ .error ∧ (e = .stall → readTimeout = false)

/-! ## The limit -/

/-- A limit is far below the saturation point. -/
theorem overLimit_saturatingAdd (limit : Option BodyLimit) (a b : Nat) :
    overLimit limit (saturatingAdd a b) = overLimit limit (a + b) := by
  cases limit with
  | none => rfl
  | some l =>
      have hl := l.isI64
      simp only [overLimit, Option.any_some, saturatingAdd]
      congr 1
      exact propext ⟨by omega, by omega⟩

theorem saturatingAdd_eq {l : BodyLimit} {a b : Nat}
    (h : overLimit (some l) (saturatingAdd a b) = false) :
    saturatingAdd a b = a + b := by
  have hl := l.isI64
  rw [overLimit_saturatingAdd] at h
  simp only [overLimit, Option.any_some, decide_eq_false_iff_not] at h
  simp only [saturatingAdd]
  omega

@[simp] theorem content_nil : content [] = [] := rfl

@[simp] theorem content_cons (e : BodyEvent) (events : List BodyEvent) :
    content (e :: events) = e.bytes ++ content events := rfl

@[simp] theorem received_nil : received [] = [] := rfl

@[simp] theorem received_cons (m : BodyMsg) (msgs : List BodyMsg) :
    received (m :: msgs) = m.bytes ++ received msgs := rfl

theorem received_isPrefix {ms msgs : List BodyMsg} (h : ms <+: msgs) :
    received ms <+: received msgs := by
  obtain ⟨rest, rfl⟩ := h
  exact ⟨received rest, by simp [received]⟩

/-- The messages of a task never carry more than the limit. -/
theorem readBodyTask_within (limit : Option BodyLimit) (readTimeout : Bool)
    (total : Nat) (events : List BodyEvent) (htotal : overLimit limit total = false) :
    overLimit limit
      (total + (received (readBodyTask limit readTimeout total events)).length) =
        false := by
  cases limit with
  | none => rfl
  | some l =>
      induction events generalizing total with
      | nil => simpa [readBodyTask] using htotal
      | cons e events ih =>
          cases e with
          | data b =>
              rw [readBodyTask]
              split
              case isTrue => simpa [BodyMsg.bytes] using htotal
              case isFalse hunder =>
                have hadd := saturatingAdd_eq (Bool.eq_false_iff.2 hunder)
                have hrest := ih _ (Bool.eq_false_iff.2 hunder)
                rw [hadd] at hrest ⊢
                simpa [BodyMsg.bytes, Nat.add_assoc] using hrest
          | trailers => exact ih total htotal
          | error => simpa [readBodyTask, BodyMsg.bytes] using htotal
          | stall =>
              rw [readBodyTask]
              split
              case isTrue => simpa [BodyMsg.bytes] using htotal
              case isFalse => exact ih total htotal

/-- A body over the limit does not end without an error. -/
theorem readBodyTask_over (l : BodyLimit) (readTimeout : Bool) (total : Nat)
    (events : List BodyEvent)
    (hover : overLimit (some l) (total + (content events).length) = true)
    (htotal : overLimit (some l) total = false) :
    ∃ m ∈ readBodyTask (some l) readTimeout total events, m.isError = true := by
  induction events generalizing total with
  | nil =>
      rw [content_nil, List.length_nil, Nat.add_zero, htotal] at hover
      cases hover
  | cons e events ih =>
      cases e with
      | data b =>
          rw [readBodyTask]
          split
          case isTrue => exact ⟨.overflow, List.mem_singleton_self _, rfl⟩
          case isFalse hunder =>
            have hadd := saturatingAdd_eq (Bool.eq_false_iff.2 hunder)
            obtain ⟨m, hm, herr⟩ := ih (saturatingAdd total b.length)
              (by simpa [hadd, BodyEvent.bytes, Nat.add_assoc] using hover)
              (Bool.eq_false_iff.2 hunder)
            exact ⟨m, List.mem_cons_of_mem _ hm, herr⟩
      | trailers => exact ih total (by simpa [BodyEvent.bytes] using hover) htotal
      | error => exact ⟨.aborted, List.mem_singleton_self _, rfl⟩
      | stall =>
          rw [readBodyTask]
          split
          case isTrue => exact ⟨.timeout, List.mem_singleton_self _, rfl⟩
          case isFalse => exact ih total (by simpa [BodyEvent.bytes] using hover) htotal

/-- A clean body within the limit is sent whole, and as data only. -/
theorem readBodyTask_clean (limit : Option BodyLimit) (readTimeout : Bool)
    (total : Nat) (events : List BodyEvent) (hclean : Clean readTimeout events)
    (hunder : overLimit limit (total + (content events).length) = false) :
    received (readBodyTask limit readTimeout total events) = content events ∧
      ∀ m ∈ readBodyTask limit readTimeout total events, m.isError = false := by
  induction events generalizing total with
  | nil => simp [readBodyTask]
  | cons e events ih =>
      obtain ⟨hnoError, hnoStall⟩ := hclean e (List.mem_cons_self ..)
      have hrest : Clean readTimeout events :=
        fun d hd => hclean d (List.mem_cons_of_mem _ hd)
      cases e with
      | data b =>
          have hfits : overLimit limit (saturatingAdd total b.length) = false := by
            rw [overLimit_saturatingAdd]
            refine Bool.eq_false_iff.2 fun hover => ?_
            rw [overLimit_mono (by simp [BodyEvent.bytes]) hover] at hunder
            cases hunder
          have hnext : overLimit limit
              (saturatingAdd total b.length + (content events).length) = false := by
            cases limit with
            | none => rfl
            | some l =>
                rw [saturatingAdd_eq hfits]
                simpa [BodyEvent.bytes, Nat.add_assoc] using hunder
          obtain ⟨hbytes, hdata⟩ := ih (saturatingAdd total b.length) hrest hnext
          rw [readBodyTask, if_neg (by simp [hfits])]
          constructor
          · simp [BodyMsg.bytes, BodyEvent.bytes, hbytes]
          · intro m hm
            rcases List.mem_cons.1 hm with rfl | hm
            · rfl
            · exact hdata m hm
      | trailers =>
          simpa [readBodyTask, BodyEvent.bytes] using
            ih total hrest (by simpa [BodyEvent.bytes] using hunder)
      | error => exact absurd rfl hnoError
      | stall =>
          simpa [readBodyTask, BodyEvent.bytes, hnoStall rfl] using
            ih total hrest (by simpa [BodyEvent.bytes] using hunder)

/-! ## Buffering -/

/-- What was buffered is what was sent, and it is within the limit. -/
theorem bufferBody_ok {limit : Option BodyLimit} {readTimeout : Bool}
    {buf raw : Bytes} {events : List BodyEvent}
    (h : bufferBody limit readTimeout buf events = .ok raw)
    (hbuf : overLimit limit buf.length = false) :
    raw = buf ++ content events ∧ overLimit limit raw.length = false := by
  induction events generalizing buf with
  | nil =>
      obtain rfl := Except.ok.inj h
      exact ⟨by simp, hbuf⟩
  | cons e events ih =>
      cases e with
      | data b =>
          rw [bufferBody] at h
          split at h
          case isTrue => cases h
          case isFalse hunder =>
            obtain ⟨hraw, hlimit⟩ := ih h (by simpa using hunder)
            exact ⟨by simpa [BodyEvent.bytes] using hraw, hlimit⟩
      | trailers => simpa [BodyEvent.bytes] using ih h hbuf
      | error => cases h
      | stall =>
          rw [bufferBody] at h
          split at h
          case isTrue => cases h
          case isFalse => simpa [BodyEvent.bytes] using ih h hbuf

/-- A clean body within the limit is buffered whole. -/
theorem bufferBody_clean (limit : Option BodyLimit) (readTimeout : Bool)
    (buf : Bytes) (events : List BodyEvent) (hclean : Clean readTimeout events)
    (hunder : overLimit limit (buf.length + (content events).length) = false) :
    bufferBody limit readTimeout buf events = .ok (buf ++ content events) := by
  induction events generalizing buf with
  | nil => simp [bufferBody]
  | cons e events ih =>
      obtain ⟨hnoError, hnoStall⟩ := hclean e (List.mem_cons_self ..)
      have hrest : Clean readTimeout events :=
        fun d hd => hclean d (List.mem_cons_of_mem _ hd)
      cases e with
      | data b =>
          have hfits : overLimit limit (buf.length + b.length) = false := by
            refine Bool.eq_false_iff.2 fun hover => ?_
            rw [overLimit_mono (by simp [BodyEvent.bytes]) hover] at hunder
            cases hunder
          rw [bufferBody, if_neg (by simp [hfits]), ih _ hrest]
          · simp [BodyEvent.bytes]
          · simpa [BodyEvent.bytes, Nat.add_assoc] using hunder
      | trailers =>
          simpa [bufferBody, BodyEvent.bytes] using
            ih buf hrest (by simpa [BodyEvent.bytes] using hunder)
      | error => exact absurd rfl hnoError
      | stall =>
          simpa [bufferBody, BodyEvent.bytes, hnoStall rfl] using
            ih buf hrest (by simpa [BodyEvent.bytes] using hunder)

/-! ## `BodyIo` -/

/-- `BODY_CHANNEL_CAP`. -/
def bodyChannelCap : Nat := 1

/-- What `read` returns for what the channel yields. -/
def readResult : Option BodyMsg → Except String (Option Bytes)
  | some (.data b) => .ok (some b)
  | some .overflow => .error "BODY_LIMIT_EXCEEDED"
  | some .timeout => .error "BODY_READ_TIMEOUT"
  | some .aborted => .error "BODY_READ_ABORTED"
  | none => .ok none

/-- The request side of `BodyIo`, with the results of the reads so far. -/
structure Io where
  reqRx : Option (Pipe.State BodyMsg)
  reads : List (Except String (Option Bytes))

inductive IoLabel where
  /-- the reading task moves -/
  | send
  | close
  /-- JS calls `read`, and it resolves -/
  | read
  /-- JS lets go of the `BodyIo` -/
  | drop
  deriving DecidableEq, Repr

def Io.open (reqRx : Option (Pipe.State BodyMsg)) : Io := { reqRx := reqRx, reads := [] }

def Io.step (io : Io) : IoLabel → Option Io
  | .send =>
      io.reqRx.bind fun rx =>
        (rx.send bodyChannelCap).map fun rx' => { io with reqRx := some rx' }
  | .close =>
      io.reqRx.bind fun rx => rx.close.map fun rx' => { io with reqRx := some rx' }
  | .read =>
      match io.reqRx with
      | none => some { io with reads := io.reads ++ [.ok none] }
      | some rx =>
          rx.recv.map fun r =>
            { reqRx := some r.2, reads := io.reads ++ [readResult r.1] }
  | .drop => some { io with reqRx := io.reqRx.map Pipe.State.drop }

/-- The chunk that a read has returned. -/
def chunkRead : Except String (Option Bytes) → Bytes
  | .ok (some b) => b
  | _ => []

/-- Everything the handler has been given. -/
def Io.handed (io : Io) : Bytes := (io.reads.map chunkRead).flatten

/-- The handler has read to `null` and no read has thrown. -/
def Io.complete (io : Io) : Prop :=
  .ok none ∈ io.reads ∧ ∀ r ∈ io.reads, ∀ e, r ≠ .error e

/-- The reads are those of a channel whose messages are `msgs`. -/
structure ReadsOf (msgs : List BodyMsg) (rx : Pipe.State BodyMsg)
    (reads : List (Except String (Option Bytes))) : Prop where
  sound : Pipe.Sound msgs rx
  handed : (reads.map chunkRead).flatten = received rx.got
  eof : .ok none ∈ reads → rx.ended = true
  clean : (∀ r ∈ reads, ∀ e, r ≠ .error e) → ∀ m ∈ rx.got, m.isError = false

/-- There is a channel, and the reads are those of it. -/
def IoSound (msgs : List BodyMsg) (io : Io) : Prop :=
  ∃ rx, io.reqRx = some rx ∧ ReadsOf msgs rx io.reads

/-- There is no channel, so every read has returned `null`. -/
def Bodyless (io : Io) : Prop := io.reqRx = none ∧ ∀ r ∈ io.reads, r = .ok none

theorem readsOf_open {msgs : List BodyMsg} {rx : Pipe.State BodyMsg}
    (hsound : Pipe.Sound msgs rx) (hgot : rx.got = []) : ReadsOf msgs rx [] where
  sound := hsound
  handed := by simp [hgot]
  eof := fun h => nomatch h
  clean := fun _ m hm => by simp [hgot] at hm

theorem chunkRead_readResult (m : BodyMsg) :
    chunkRead (readResult (some m)) = m.bytes := by
  cases m <;> rfl

theorem readResult_eq_null {r : Option BodyMsg} (h : readResult r = .ok none) :
    r = none := by
  cases r with
  | none => rfl
  | some m => cases m <;> cases h

theorem readResult_error {m : BodyMsg} (h : m.isError = true) :
    ∃ e, readResult (some m) = .error e := by
  cases m with
  | data b => cases h
  | overflow | timeout | aborted => exact ⟨_, rfl⟩

theorem readsOf_recv {msgs : List BodyMsg} {rx rx' : Pipe.State BodyMsg}
    {reads : List (Except String (Option Bytes))} {r : Option BodyMsg}
    (hs : ReadsOf msgs rx reads) (h : rx.recv = some (r, rx')) :
    ReadsOf msgs rx' (reads ++ [readResult r]) := by
  have hsound := Pipe.recv_sound hs.sound h
  rcases Pipe.recv_cases h with ⟨m, rfl, hgot, hended⟩ | ⟨rfl, hgot, hended⟩
  · exact
      { sound := hsound
        handed := by
          rw [hgot, List.map_append, List.flatten_append, hs.handed]
          simp [received, chunkRead_readResult]
        eof := fun hmem => by
          rcases List.mem_append.1 hmem with hmem | hmem
          · rw [hended]
            exact hs.eof hmem
          · cases readResult_eq_null (List.mem_singleton.1 hmem).symm
        clean := fun hok m' hm' => by
          rw [hgot] at hm'
          rcases List.mem_append.1 hm' with hm' | hm'
          · exact hs.clean (fun r hr => hok r (List.mem_append_left _ hr)) m' hm'
          · obtain rfl := List.mem_singleton.1 hm'
            by_contra herr
            obtain ⟨e, he⟩ := readResult_error (by simpa using herr)
            exact hok _ (List.mem_append_right _ (List.mem_singleton_self _)) e he }
  · exact
      { sound := hsound
        handed := by
          rw [hgot, List.map_append, List.flatten_append, hs.handed]
          simp [readResult, chunkRead]
        eof := fun _ => hended
        clean := fun hok m' hm' => by
          rw [hgot] at hm'
          exact hs.clean (fun r hr => hok r (List.mem_append_left _ hr)) m' hm' }

/-- The reads do not notice what the sender does. -/
theorem ReadsOf.frame {msgs msgs' : List BodyMsg} {rx rx' : Pipe.State BodyMsg}
    {reads : List (Except String (Option Bytes))} (hs : ReadsOf msgs rx reads)
    (hsound : Pipe.Sound msgs' rx') (hframe : rx'.got = rx.got ∧ rx'.ended = rx.ended) :
    ReadsOf msgs' rx' reads where
  sound := hsound
  handed := by rw [hframe.1]; exact hs.handed
  eof := by rw [hframe.2]; exact hs.eof
  clean := by rw [hframe.1]; exact hs.clean

theorem step_ioSound {msgs : List BodyMsg} {io io' : Io} {l : IoLabel}
    (hs : IoSound msgs io) (h : io.step l = some io') : IoSound msgs io' := by
  obtain ⟨_, reads⟩ := io
  obtain ⟨rx, rfl, hs⟩ := hs
  cases l with
  | send =>
      obtain ⟨rx', hrx, rfl⟩ := Option.map_eq_some_iff.1 h
      exact ⟨rx', rfl, hs.frame (Pipe.send_sound hs.sound hrx) (Pipe.send_frame hrx)⟩
  | close =>
      obtain ⟨rx', hrx, rfl⟩ := Option.map_eq_some_iff.1 h
      exact ⟨rx', rfl, hs.frame (Pipe.close_sound hs.sound hrx) (Pipe.close_frame hrx)⟩
  | read =>
      obtain ⟨⟨r, rx'⟩, hrx, rfl⟩ := Option.map_eq_some_iff.1 h
      exact ⟨rx', rfl, readsOf_recv hs hrx⟩
  | drop =>
      obtain rfl := Option.some.inj h
      exact ⟨rx.drop, rfl, hs.frame (Pipe.drop_sound hs.sound) ⟨rfl, rfl⟩⟩

theorem run_ioSound {msgs : List BodyMsg} {rx : Pipe.State BodyMsg} {io : Io}
    {ls : List IoLabel} (hsound : Pipe.Sound msgs rx) (hgot : rx.got = [])
    (hrun : Transition.run Io.step (Io.open (some rx)) ls = some io) :
    IoSound msgs io :=
  Transition.run_invariant (fun _ _ _ => step_ioSound)
    ⟨rx, rfl, readsOf_open hsound hgot⟩ hrun

theorem step_bodyless {io io' : Io} {l : IoLabel} (hb : Bodyless io)
    (h : io.step l = some io') : Bodyless io' := by
  obtain ⟨_, reads⟩ := io
  obtain ⟨rfl, hreads⟩ := hb
  cases l with
  | send | close => cases h
  | read =>
      obtain rfl := Option.some.inj h
      refine ⟨rfl, fun r hr => ?_⟩
      rcases List.mem_append.1 hr with hr | hr
      · exact hreads r hr
      · exact List.mem_singleton.1 hr
  | drop =>
      obtain rfl := Option.some.inj h
      exact ⟨rfl, hreads⟩

theorem run_bodyless {io : Io} {ls : List IoLabel}
    (hrun : Transition.run Io.step (Io.open none) ls = some io) : Bodyless io :=
  Transition.run_invariant (fun _ _ _ => step_bodyless)
    ⟨rfl, by simp [Io.open]⟩ hrun

theorem Bodyless.handed {io : Io} (hb : Bodyless io) : io.handed = [] := by
  rw [Io.handed, List.flatten_eq_nil_iff]
  intro b hmem
  obtain ⟨r, hr, rfl⟩ := List.mem_map.1 hmem
  rw [hb.2 r hr]
  rfl

/-- The handler is given an initial part of what was sent, and all of it when it
reads to `null`. -/
theorem IoSound.handed {msgs : List BodyMsg} {io : Io} (hs : IoSound msgs io) :
    io.handed <+: received msgs ∧ (.ok none ∈ io.reads → io.handed = received msgs) := by
  obtain ⟨rx, _, hreads⟩ := hs
  rw [Io.handed, hreads.handed]
  refine ⟨received_isPrefix hreads.sound.initial, fun hmem => ?_⟩
  rw [hreads.sound.complete (hreads.eof hmem)]

/-- Where the task reports an error, the body is never complete. -/
theorem IoSound.not_complete {msgs : List BodyMsg} {io : Io} (hs : IoSound msgs io)
    {m : BodyMsg} (hm : m ∈ msgs) (herr : m.isError = true) : ¬ io.complete := by
  rintro ⟨hnull, hok⟩
  obtain ⟨rx, _, hreads⟩ := hs
  have hgot := hreads.sound.complete (hreads.eof hnull)
  rw [hreads.clean hok m (hgot ▸ hm)] at herr
  cases herr

/-- A handler that reads each message as it is sent gets them all. -/
theorem exists_readMsgs (msgs got : List BodyMsg)
    (reads : List (Except String (Option Bytes))) :
    ∃ ls io, Transition.run Io.step
        { reqRx := some { Pipe.State.start msgs with got := got }, reads := reads } ls =
          some io ∧
      io.reqRx = some { Pipe.State.start [] with got := got ++ msgs } := by
  induction msgs generalizing got reads with
  | nil => exact ⟨[], _, rfl, by simp⟩
  | cons m msgs ih =>
      obtain ⟨ls, io, hls, hrx⟩ := ih (got ++ [m]) (reads ++ [readResult (some m)])
      exact ⟨.send :: .read :: ls, io, hls, by simpa using hrx⟩

/-- A handler can read to `null`. -/
theorem exists_readToNull (msgs : List BodyMsg) :
    ∃ ls io, Transition.run Io.step (Io.open (some (Pipe.State.start msgs))) ls =
      some io ∧ .ok none ∈ io.reads := by
  obtain ⟨ls, io, hls, hrx⟩ := exists_readMsgs msgs [] []
  obtain ⟨reqRx, reads⟩ := io
  simp only at hrx
  subst hrx
  exact ⟨ls ++ [.close, .read], _, Transition.run_append_some.2 ⟨_, hls, rfl⟩,
    List.mem_append_right _ (List.mem_singleton_self _)⟩

end Body
end OxideHttp
