import OxideHttp.Body.Reading
import OxideHttp.Dispatch
import Mathlib.Data.List.ReduceOption

/-!
# Draining a body (`js/context.ts`: `readChunk`, `collectRaw`; `src/server.rs`)

The two readers of a request body side by side: `buffer_body`, and `read_body_task` with
a handler at the other end of the channel that runs `collectRaw`.  Both count the bytes
of each data frame as it comes, and both time their waiting for a frame alone.  So a gap
that passes while the task waits for room in the channel is none for it.

Results.
* `collectRaw_sent`: what `collectRaw` makes of all that the task sends.
* `Drained.outcome`: however the task, the channel and the handler take turns, the handler
  ends with the outcome of `buffer_body` on what the task meets.
* `drained_as_buffered`: the same for a handler that reads as late as it likes, with the
  gaps that pass meanwhile left out.
-/

namespace OxideHttp
namespace Body

/-- What a reader throws: an `HttpError`, or what `read` threw. -/
inductive Thrown where
  | http (status : Nat) (message : String)
  | other (message : String)
  deriving DecidableEq, Repr

def Thrown.status : Thrown → Option Nat
  | .http status _ => some status
  | .other _ => none

/-- `readChunk` on what `read` gives. -/
def readChunk : Except String (Option Bytes) → Except Thrown (Option Bytes)
  | .ok chunk => .ok chunk
  | .error e =>
      if containsText "BODY_LIMIT_EXCEEDED" e.toList then .error (.http 413 "Payload Too Large")
      else if containsText "BODY_READ_TIMEOUT" e.toList then .error (.http 408 "Request Timeout")
      else if containsText "BODY_READ_ABORTED" e.toList then
        .error (.http 400 "Request body aborted")
      else .error (.other e)

section Readers

variable (limit : Option BodyLimit) (readTimeout : Bool)

/-- `collectRaw`, as far as it gets with these reads. -/
def collectRaw : Nat → Bytes → List (Except String (Option Bytes)) → Option (Except Thrown Bytes)
  | _, _, [] => none
  | total, chunks, r :: reads =>
      match readChunk r with
      | .error e => some (.error e)
      | .ok none => some (.ok chunks)
      | .ok (some b) =>
          if overLimit limit (total + b.length) then
            some (.error (.http 413 "Payload Too Large"))
          else collectRaw (total + b.length) (chunks ++ b) reads

/-- What `buffer_body` adds to the request bytes when `len` bytes have been collected. -/
def bufferCounted : Nat → List BodyEvent → Nat
  | _, [] => 0
  | len, .data b :: events =>
      b.length + if overLimit limit (len + b.length) then 0 else bufferCounted (len + b.length) events
  | len, .trailers :: events => bufferCounted len events
  | _, .error :: _ => 0
  | len, .stall :: events => if readTimeout then 0 else bufferCounted len events

/-- The outcome of `buffer_body`, by the status of the refusal. -/
def buffered (events : List BodyEvent) : Except (Option Nat) Bytes :=
  (bufferBody limit readTimeout [] events).mapError fun e => some (Dispatch.bodyErrStatus e)

/-! ## All that is sent -/

variable {limit} {readTimeout}

/-- Later reads do not change an outcome. -/
theorem collectRaw_append {total : Nat} {chunks : Bytes}
    {reads : List (Except String (Option Bytes))} {outcome : Except Thrown Bytes}
    (h : collectRaw limit total chunks reads = some outcome)
    (more : List (Except String (Option Bytes))) :
    collectRaw limit total chunks (reads ++ more) = some outcome := by
  induction reads generalizing total chunks with
  | nil => cases h
  | cons r reads ih =>
      rw [collectRaw] at h
      rw [List.cons_append, collectRaw]
      split at h
      case h_1 => exact h
      case h_2 => exact h
      case h_3 b hread =>
        split at h
        case isTrue hover =>
          rw [if_pos hover]
          exact h
        case isFalse hunder =>
          rw [if_neg hunder]
          exact ih h

/-- The handler sees the messages of the task as `buffer_body` sees the frames. -/
theorem collectRaw_sent (total : Nat) (buf : Bytes) (events : List BodyEvent)
    (htotal : total = saturatingAdd 0 buf.length) :
    (collectRaw limit buf.length buf
        ((readBodyTask limit readTimeout total events).map (fun m => readResult (some m)) ++
          [readResult none])).map (Except.mapError Thrown.status) =
      some ((bufferBody limit readTimeout buf events).mapError
        fun e => some (Dispatch.bodyErrStatus e)) := by
  induction events generalizing total buf with
  | nil => rfl
  | cons e events ih =>
      cases e with
      | data b =>
          have hsum : saturatingAdd total b.length = saturatingAdd 0 (buf ++ b).length := by
            rw [htotal, List.length_append]
            simp only [saturatingAdd]
            omega
          have hover : overLimit limit (saturatingAdd total b.length) =
              overLimit limit (buf.length + b.length) := by
            rw [hsum, overLimit_saturatingAdd, Nat.zero_add, List.length_append]
          rw [readBodyTask, bufferBody, hover]
          by_cases hlimit : overLimit limit (buf.length + b.length) = true
          · rw [if_pos hlimit, if_pos hlimit]
            rfl
          · rw [if_neg hlimit, if_neg hlimit, List.map_cons, List.cons_append, collectRaw]
            have hread : readChunk (readResult (some (.data b))) = .ok (some b) := rfl
            rw [hread]
            dsimp only
            rw [if_neg hlimit, ← List.length_append]
            exact ih _ _ hsum
      | trailers => exact ih total buf htotal
      | error => rfl
      | stall =>
          cases readTimeout with
          | true => rfl
          | false => exact ih total buf htotal

/-- Data within the limit is collected without an outcome. -/
theorem collectRaw_data {total : Nat} {chunks : Bytes} {msgs : List BodyMsg}
    (hdata : ∀ m ∈ msgs, m.isError = false)
    (hunder : overLimit limit (total + (received msgs).length) = false) :
    collectRaw limit total chunks (msgs.map fun m => readResult (some m)) = none := by
  induction msgs generalizing total chunks with
  | nil => rfl
  | cons m msgs ih =>
      cases m with
      | data b =>
          rw [received_cons, List.length_append, BodyMsg.bytes, ← Nat.add_assoc] at hunder
          have hfits : ¬ overLimit limit (total + b.length) = true := fun hover => by
            rw [overLimit_mono (Nat.le_add_right _ _) hover] at hunder
            cases hunder
          have hread : readChunk (readResult (some (.data b))) = .ok (some b) := rfl
          rw [List.map_cons, collectRaw, hread]
          dsimp only
          rw [if_neg hfits]
          exact ih (fun m hm => hdata m (List.mem_cons_of_mem _ hm)) hunder
      | overflow | timeout | aborted => cases hdata _ List.mem_cons_self

variable (limit) (readTimeout)

/-! ## Taking turns -/

/-- A step while the handler runs `collectRaw` and nobody drops anything: the reads stop
when it has returned. -/
def Upload.drain (u : Upload) : UploadLabel → Option Upload
  | .frame => u.step limit readTimeout .frame
  | .send => u.step limit readTimeout .send
  | .read =>
      if (collectRaw limit 0 [] u.reads).isNone then u.step limit readTimeout .read else none
  | .dropTask | .dropIo => none

inductive Turn where
  | move (l : UploadLabel)
  /-- a gap passes while the task waits for room -/
  | pass
  deriving DecidableEq, Repr

/-- The same with a handler that reads as late as it likes.  While the channel is full
`read_body_task` does not wait for a frame, and its timer is not set. -/
def Upload.turn (u : Upload) : Turn → Option Upload
  | .move l => u.drain limit readTimeout l
  | .pass =>
      match u.feed.task with
      | .sendData b total events =>
          if readTimeout ∧ bodyChannelCap ≤ u.feed.buf.length ∧ .stall ∈ events then
            some { u with feed := { u.feed with task := .sendData b total (events.erase .stall) } }
          else none
      | _ => none

/-- `met` is `events` without `n` of its gaps. -/
structure WithoutGaps (n : Nat) (events met : List BodyEvent) : Prop where
  sublist : met.Sublist events
  frames : met.filter (· ≠ .stall) = events.filter (· ≠ .stall)
  length : events.length = met.length + n

/-- What `read_body_task` has added to the request bytes: each data frame that has come. -/
def Upload.counted (u : Upload) : Nat := (content u.heard.reduceOption).length

/-- What the task has still to add, if it goes on to its end. -/
def ReadTask.uncounted : ReadTask → Nat
  | .nextFrame total events | .sendData _ total events =>
      bufferCounted limit readTimeout total events
  | .sendLast _ | .returned => 0

/-- What holds while a body of these frames is drained. -/
structure Drained (events : List BodyEvent) (u : Upload) : Prop where
  sound : ∃ sent todo, UploadSound limit readTimeout (readBodyTask limit readTimeout 0 events)
    sent todo u
  cut : u.feed.cut = false
  present : u.feed.receiverGone = false
  reads : u.reads = u.feed.got.map (fun m => readResult (some m)) ++
    if u.feed.ended then [readResult none] else []
  counted : u.counted + u.feed.task.uncounted limit readTimeout =
    bufferCounted limit readTimeout 0 events
  /-- the task returns after an error -/
  failed : ∀ m ∈ u.feed.got ++ u.feed.buf, m.isError = true → u.feed.task = .returned
  ended : u.feed.ended = true → u.feed.task = .returned

variable {limit} {readTimeout}

/-- Reading to the end has an outcome. -/
theorem collectRaw_null (total : Nat) (chunks : Bytes)
    (reads : List (Except String (Option Bytes))) :
    (collectRaw limit total chunks (reads ++ [readResult none])).isSome = true := by
  induction reads generalizing total chunks with
  | nil => rfl
  | cons r reads ih =>
      rw [List.cons_append, collectRaw]
      split
      · rfl
      · rfl
      · split
        · rfl
        · exact ih _ _

/-- Without a limit all that comes is counted, and a total within a limit is exact. -/
theorem bufferCounted_saturatingAdd (readTimeout : Bool) {a b : Nat}
    (h : overLimit limit (saturatingAdd a b) = false) (events : List BodyEvent) :
    bufferCounted limit readTimeout (saturatingAdd a b) events =
      bufferCounted limit readTimeout (a + b) events := by
  cases limit with
  | some l => rw [saturatingAdd_eq h]
  | none =>
      have hfree : ∀ m n : Nat, bufferCounted none readTimeout m events =
          bufferCounted none readTimeout n events := by
        induction events with
        | nil => exact fun _ _ => rfl
        | cons e events ih =>
            intro m n
            cases e with
            | data c =>
                simp only [bufferCounted, overLimit, Option.any_none, Bool.false_eq_true, if_false]
                rw [ih (m + c.length) (n + c.length)]
            | trailers => exact ih m n
            | error => rfl
            | stall =>
                cases readTimeout with
                | true => rfl
                | false => exact ih m n
      exact hfree _ _

/-- A frame is counted when it comes. -/
theorem ReadTask.uncounted_work {k next : ReadTask}
    (h : k.await limit readTimeout = .work next) :
    (content k.hears.reduceOption).length + next.uncounted limit readTimeout =
      k.uncounted limit readTimeout := by
  cases k with
  | sendData | sendLast | returned => cases h
  | nextFrame total events =>
      cases events with
      | nil =>
          obtain rfl := Feed.Await.work.inj h
          rfl
      | cons e events =>
          cases e with
          | data b =>
              simp only [ReadTask.await] at h
              simp only [ReadTask.uncounted, bufferCounted, ReadTask.hears, List.head?_cons]
              cases hover : overLimit limit (saturatingAdd total b.length) with
              | true =>
                  rw [if_pos hover] at h
                  obtain rfl := Feed.Await.work.inj h
                  rw [overLimit_saturatingAdd] at hover
                  simp [hover, List.reduceOption, BodyEvent.bytes]
              | false =>
                  rw [if_neg (by simp [hover])] at h
                  obtain rfl := Feed.Await.work.inj h
                  have hsame := bufferCounted_saturatingAdd readTimeout hover events
                  rw [overLimit_saturatingAdd] at hover
                  simp [hover, hsame, List.reduceOption, BodyEvent.bytes]
          | trailers =>
              obtain rfl := Feed.Await.work.inj h
              simp [ReadTask.uncounted, bufferCounted, ReadTask.hears, List.reduceOption,
                BodyEvent.bytes]
          | error =>
              obtain rfl := Feed.Await.work.inj h
              simp [ReadTask.uncounted, bufferCounted, ReadTask.hears, List.reduceOption,
                BodyEvent.bytes]
          | stall =>
              cases readTimeout with
              | true =>
                  obtain rfl := Feed.Await.work.inj h
                  simp [ReadTask.uncounted, bufferCounted, ReadTask.hears, List.reduceOption,
                    BodyEvent.bytes]
              | false =>
                  obtain rfl := Feed.Await.work.inj h
                  simp [ReadTask.uncounted, bufferCounted, ReadTask.hears, List.reduceOption,
                    BodyEvent.bytes]

theorem ReadTask.nextFrame_await (limit : Option BodyLimit) (readTimeout : Bool) (total : Nat)
    (events : List BodyEvent) :
    ∃ next, (ReadTask.nextFrame total events).await limit readTimeout = .work next := by
  cases events with
  | nil => exact ⟨_, rfl⟩
  | cons e events =>
      cases e with
      | trailers | error => exact ⟨_, rfl⟩
      | data b =>
          rw [ReadTask.await]
          split
          · exact ⟨_, rfl⟩
          · exact ⟨_, rfl⟩
      | stall =>
          rw [ReadTask.await]
          split
          · exact ⟨_, rfl⟩
          · exact ⟨_, rfl⟩

/-- Sending counts nothing, and an error is the last that is sent. -/
theorem ReadTask.uncounted_send {k next refused : ReadTask} {m : BodyMsg}
    (h : k.await limit readTimeout = .send m next refused) :
    (m.isError = true → next = .returned) ∧
      next.uncounted limit readTimeout = k.uncounted limit readTimeout := by
  cases k with
  | nextFrame total events =>
      obtain ⟨next', hwork⟩ := ReadTask.nextFrame_await limit readTimeout total events
      rw [hwork] at h
      cases h
  | sendData b total events =>
      obtain ⟨rfl, rfl, rfl⟩ := Feed.Await.send.inj h
      exact ⟨fun herr => (by cases herr), rfl⟩
  | sendLast m' =>
      obtain ⟨rfl, rfl, rfl⟩ := Feed.Await.send.inj h
      exact ⟨fun _ => rfl, rfl⟩
  | returned => cases h

variable {events : List BodyEvent} {u v : Upload}

theorem drained_open : Drained limit readTimeout events (Upload.open events) where
  sound := ⟨_, _, uploadSound_open events⟩
  cut := rfl
  present := rfl
  reads := rfl
  counted := by
    simp [Upload.open, Upload.counted, Feed.State.start, ReadTask.uncounted, List.reduceOption]
  failed := fun _ hm => by cases hm
  ended := fun h => by cases h

theorem Drained.frame (hd : Drained limit readTimeout events u)
    (h : u.step limit readTimeout .frame = some v) : Drained limit readTimeout events v := by
  obtain ⟨sent, todo, hsound⟩ := hd.sound
  have hsound' := hsound.step h
  obtain ⟨feed, hwork, rfl⟩ := Option.map_eq_some_iff.1 h
  obtain ⟨_, next, hawait, rfl⟩ := (Feed.work_eq_some _).1 hwork
  have hheard := ReadTask.uncounted_work hawait
  have hcounted := hd.counted
  exact
    { sound := hsound'
      cut := hd.cut
      present := hd.present
      reads := hd.reads
      counted := by
        simp only [Upload.counted, List.reduceOption_append, content, List.map_append,
          List.flatten_append, List.length_append] at hheard hcounted ⊢
        omega
      failed := fun m hm herr => by
        rw [hd.failed m hm herr] at hawait
        cases hawait
      ended := fun hended => by
        rw [hd.ended hended] at hawait
        cases hawait }

theorem Drained.send (hd : Drained limit readTimeout events u)
    (h : u.step limit readTimeout .send = some v) : Drained limit readTimeout events v := by
  obtain ⟨sent, todo, hsound⟩ := hd.sound
  have hsound' := hsound.step h
  obtain ⟨feed, hsend, rfl⟩ := Option.map_eq_some_iff.1 h
  obtain ⟨_, m, next, refused, hawait, ⟨hgone, rfl⟩ | ⟨_, rfl⟩⟩ := Feed.send_cases _ hsend
  · rw [hd.present] at hgone
    cases hgone
  · have hnext := ReadTask.uncounted_send hawait
    exact
      { sound := hsound'
        cut := hd.cut
        present := hd.present
        reads := hd.reads
        counted := by
          have hcounted := hd.counted
          simp only [Upload.counted, hnext.2] at hcounted ⊢
          exact hcounted
        failed := fun m' hm herr => by
          rw [← List.append_assoc] at hm
          rcases List.mem_append.1 hm with hm | hm
          · rw [hd.failed m' hm herr] at hawait
            cases hawait
          · obtain rfl := List.mem_singleton.1 hm
            exact hnext.1 herr
        ended := fun hended => by
          rw [hd.ended hended] at hawait
          cases hawait }

/-- A handler without an outcome has not read to the end. -/
theorem Drained.ended_of_open (hd : Drained limit readTimeout events u)
    (hopen : (collectRaw limit 0 [] u.reads).isNone = true) : u.feed.ended = false := by
  by_contra hended
  rw [Bool.not_eq_false] at hended
  have hreads := hd.reads
  rw [if_pos hended] at hreads
  have hsome := @collectRaw_null limit 0 [] (u.feed.got.map fun m => readResult (some m))
  rw [← hreads] at hsome
  rw [Option.isNone_iff_eq_none] at hopen
  rw [hopen] at hsome
  cases hsome

theorem Drained.read (hd : Drained limit readTimeout events u)
    (hopen : (collectRaw limit 0 [] u.reads).isNone = true)
    (h : u.step limit readTimeout .read = some v) : Drained limit readTimeout events v := by
  obtain ⟨sent, todo, hsound⟩ := hd.sound
  have hsound' := hsound.step h
  obtain ⟨⟨r, feed⟩, hrecv, rfl⟩ := Option.map_eq_some_iff.1 h
  have hended := hd.ended_of_open hopen
  have hreads : u.reads = u.feed.got.map fun m => readResult (some m) := by
    have hreads := hd.reads
    rwa [if_neg (by simp [hended]), List.append_nil] at hreads
  obtain ⟨_, ⟨m, buf, rfl, hbuf, rfl⟩ | ⟨rfl, hbuf, hgone, rfl⟩⟩ := Feed.recv_cases _ hrecv
  · exact
      { sound := hsound'
        cut := hd.cut
        present := hd.present
        reads := by simp [hreads, hended]
        counted := hd.counted
        failed := fun m' hm herr => hd.failed m' (by simpa [hbuf] using hm) herr
        ended := hd.ended }
  · exact
      { sound := hsound'
        cut := hd.cut
        present := hd.present
        reads := by simp [hreads]
        counted := hd.counted
        failed := hd.failed
        ended := fun _ => ReadTask.returned_of_done (by
          simpa [Feed.State.senderGone, show u.feed.cut = false from hd.cut] using hgone) }

theorem Drained.step {l : UploadLabel} (hd : Drained limit readTimeout events u)
    (h : u.drain limit readTimeout l = some v) : Drained limit readTimeout events v := by
  cases l with
  | frame => exact hd.frame h
  | send => exact hd.send h
  | read =>
      rw [Upload.drain, Option.ite_none_right_eq_some] at h
      exact hd.read h.1 h.2
  | dropTask | dropIo => cases h

theorem run_drained {ls : List UploadLabel}
    (hrun : Transition.run (Upload.drain limit readTimeout) (Upload.open events) ls = some u) :
    Drained limit readTimeout events u :=
  Transition.run_invariant (fun _ _ _ hd hstep => hd.step hstep) drained_open hrun

/-! ## The end -/

/-- The reads are the first of those of a handler that reads all that is sent. -/
theorem Drained.reads_isPrefix (hd : Drained limit readTimeout events u) :
    u.reads <+: (readBodyTask limit readTimeout 0 events).map (fun m => readResult (some m)) ++
      [readResult none] := by
  obtain ⟨sent, todo, hsound⟩ := hd.sound
  rw [hd.reads]
  cases hended : u.feed.ended with
  | true =>
      have hgot := hsound.fed.got_eq _ hended hd.cut
      exact hgot ▸ List.prefix_rfl
  | false =>
      rw [if_neg (by simp), List.append_nil]
      exact (hsound.fed.got_isPrefix.map _).trans (List.prefix_append _ _)

/-- An outcome is that of `buffer_body`. -/
theorem Drained.outcome (hd : Drained limit readTimeout events u) {outcome : Except Thrown Bytes}
    (h : collectRaw limit 0 [] u.reads = some outcome) :
    outcome.mapError Thrown.status = buffered limit readTimeout events := by
  obtain ⟨more, hmore⟩ := hd.reads_isPrefix
  have hall := collectRaw_append h more
  have hsent := @collectRaw_sent limit readTimeout 0 [] events rfl
  rw [hmore] at hall
  rw [List.length_nil, hall] at hsent
  exact Option.some.inj hsent

/-- A handler with an outcome has heard an error, or the end. -/
theorem Drained.returned (hd : Drained limit readTimeout events u) {outcome : Except Thrown Bytes}
    (h : collectRaw limit 0 [] u.reads = some outcome) : u.feed.task = .returned := by
  obtain ⟨sent, todo, hsound⟩ := hd.sound
  cases hended : u.feed.ended with
  | true => exact hd.ended hended
  | false =>
      by_contra htask
      have hdata : ∀ m ∈ u.feed.got, m.isError = false := by
        intro m hm
        by_contra herr
        exact htask (hd.failed m (List.mem_append_left _ hm) (by simpa using herr))
      have hreads := hd.reads
      rw [if_neg (by simp [hended]), List.append_nil] at hreads
      rw [hreads, collectRaw_data hdata] at h
      · cases h
      · have hwithin := readBodyTask_within limit readTimeout 0 events (Compress.overLimit_zero limit)
        refine Bool.eq_false_iff.2 fun hover => ?_
        have hle := (received_isPrefix hsound.fed.got_isPrefix).length_le
        rw [overLimit_mono (Nat.add_le_add_left hle 0) hover] at hwithin
        cases hwithin

/-- How many steps are left, at most. -/
def ReadTask.left : ReadTask → Nat
  | .nextFrame _ events => 3 * events.length + 3
  | .sendData _ _ events => 3 * events.length + 5
  | .sendLast _ => 3
  | .returned => 0

def Upload.left (u : Upload) : Nat :=
  u.feed.task.left + u.feed.buf.length + if u.feed.ended then 0 else 1

theorem left_open (events : List BodyEvent) :
    (Upload.open events).left = 3 * events.length + 4 := rfl

theorem ReadTask.left_work {k next : ReadTask} (h : k.await limit readTimeout = .work next) :
    next.left < k.left := by
  cases k with
  | sendData | sendLast | returned => cases h
  | nextFrame total events =>
      cases events with
      | nil =>
          obtain rfl := Feed.Await.work.inj h
          simp [ReadTask.left]
      | cons e events =>
          cases e with
          | data b =>
              simp only [ReadTask.await] at h
              split at h
              · obtain rfl := Feed.Await.work.inj h
                simp only [ReadTask.left, List.length_cons]
                omega
              · obtain rfl := Feed.Await.work.inj h
                simp only [ReadTask.left, List.length_cons]
                omega
          | trailers | error =>
              obtain rfl := Feed.Await.work.inj h
              simp only [ReadTask.left, List.length_cons]
              omega
          | stall =>
              simp only [ReadTask.await] at h
              split at h
              · obtain rfl := Feed.Await.work.inj h
                simp only [ReadTask.left, List.length_cons]
                omega
              · obtain rfl := Feed.Await.work.inj h
                simp only [ReadTask.left, List.length_cons]
                omega

theorem ReadTask.left_send {k next refused : ReadTask} {m : BodyMsg}
    (h : k.await limit readTimeout = .send m next refused) :
    next.left + 2 ≤ k.left ∧ refused.left + 2 ≤ k.left := by
  cases k with
  | nextFrame total events =>
      obtain ⟨next', hwork⟩ := ReadTask.nextFrame_await limit readTimeout total events
      rw [hwork] at h
      cases h
  | sendData b total events =>
      obtain ⟨rfl, rfl, rfl⟩ := Feed.Await.send.inj h
      simp [ReadTask.left]
  | sendLast m' =>
      obtain ⟨rfl, rfl, rfl⟩ := Feed.Await.send.inj h
      simp [ReadTask.left]
  | returned => cases h

theorem Drained.left_lt {l : UploadLabel} (hd : Drained limit readTimeout events u)
    (h : u.drain limit readTimeout l = some v) : v.left < u.left := by
  cases l with
  | frame =>
      obtain ⟨feed, hwork, rfl⟩ := Option.map_eq_some_iff.1 h
      obtain ⟨_, next, hawait, rfl⟩ := (Feed.work_eq_some _).1 hwork
      have hlt := ReadTask.left_work hawait
      simp only [Upload.left]
      omega
  | send =>
      obtain ⟨feed, hsend, rfl⟩ := Option.map_eq_some_iff.1 h
      obtain ⟨_, m, next, refused, hawait, hnext⟩ := Feed.send_cases _ hsend
      have hle := ReadTask.left_send hawait
      obtain ⟨_, rfl⟩ | ⟨_, rfl⟩ := hnext
      · simp only [Upload.left]
        omega
      · simp only [Upload.left, List.length_append, List.length_singleton]
        omega
  | read =>
      rw [Upload.drain, Option.ite_none_right_eq_some] at h
      have hended := hd.ended_of_open h.1
      obtain ⟨⟨r, feed⟩, hrecv, rfl⟩ := Option.map_eq_some_iff.1 h.2
      obtain ⟨_, ⟨m, buf, rfl, hbuf, rfl⟩ | ⟨rfl, hbuf, hgone, rfl⟩⟩ := Feed.recv_cases _ hrecv
      · simp only [Upload.left, hbuf, List.length_cons]
        omega
      · simp [Upload.left, hended]
  | dropTask | dropIo => cases h

/-- While there is no outcome, one of the three can move. -/
theorem Drained.exists_step (hd : Drained limit readTimeout events u)
    (hopen : (collectRaw limit 0 [] u.reads).isNone = true) :
    ∃ l v, u.drain limit readTimeout l = some v := by
  have hread : ∀ r, u.feed.recv (ReadTask.await limit readTimeout) = some r →
      ∃ l v, u.drain limit readTimeout l = some v := by
    intro r hr
    refine ⟨.read, ⟨r.2, u.heard, u.reads ++ [readResult r.1]⟩, ?_⟩
    rw [Upload.drain, if_pos hopen, Upload.step, hr]
    rfl
  cases hbuf : u.feed.buf with
  | cons m buf =>
      refine hread (some m, { u.feed with buf := buf, got := u.feed.got ++ [m] }) ?_
      simp [Feed.State.recv, hd.present, hbuf]
  | nil =>
      cases htask : u.feed.task with
      | nextFrame total es =>
          obtain ⟨next, hwork⟩ := ReadTask.nextFrame_await limit readTimeout total es
          have hstep := (Feed.work_eq_some (s := u.feed) _).2
            ⟨hd.cut, next, by rw [htask]; exact hwork, rfl⟩
          exact ⟨.frame, _, by rw [Upload.drain, Upload.step, hstep]; rfl⟩
      | sendData b total es =>
          have hstep : u.feed.send (ReadTask.await limit readTimeout) bodyChannelCap =
              some { u.feed with task := .nextFrame total es, buf := u.feed.buf ++ [.data b] } := by
            simp [Feed.State.send, hd.cut, hd.present, htask, ReadTask.await, hbuf, bodyChannelCap]
          exact ⟨.send, _, by rw [Upload.drain, Upload.step, hstep]; rfl⟩
      | sendLast m =>
          have hstep : u.feed.send (ReadTask.await limit readTimeout) bodyChannelCap =
              some { u.feed with task := .returned, buf := u.feed.buf ++ [m] } := by
            simp [Feed.State.send, hd.cut, hd.present, htask, ReadTask.await, hbuf, bodyChannelCap]
          exact ⟨.send, _, by rw [Upload.drain, Upload.step, hstep]; rfl⟩
      | returned =>
          refine hread (none, { u.feed with ended := true }) ?_
          simp [Feed.State.recv, hd.present, hbuf, Feed.State.senderGone, htask, ReadTask.await,
            Feed.Await.isDone]

/-- In any order of turns the run comes to an end, and the handler then has the outcome of
`buffer_body`, with as many bytes counted. -/
theorem drained_run {ls : List UploadLabel}
    (hrun : Transition.run (Upload.drain limit readTimeout) (Upload.open events) ls = some u) :
    ls.length + u.left ≤ (Upload.open events).left ∧
      ∀ outcome, collectRaw limit 0 [] u.reads = some outcome →
        outcome.mapError Thrown.status = buffered limit readTimeout events ∧
          u.counted = bufferCounted limit readTimeout 0 events := by
  have hhistory := Transition.run_history
    (J := fun (u : Upload) (ls : List UploadLabel) => Drained limit readTimeout events u ∧
      ls.length + u.left ≤ (Upload.open events).left)
    ⟨drained_open, by simp⟩
    (fun s t past l ⟨hd, hle⟩ hstep => ⟨hd.step hstep, by
      have hlt := hd.left_lt hstep
      rw [List.length_append, List.length_singleton]
      omega⟩) hrun
  obtain ⟨hd, hleft⟩ := hhistory
  refine ⟨hleft, fun outcome h => ⟨hd.outcome h, ?_⟩⟩
  have hcounted := hd.counted
  rwa [hd.returned h] at hcounted

/-! ## What the task has yet to read -/

/-- The frames and gaps that the task will still come to. -/
def ReadTask.rest : ReadTask → Option (List BodyEvent)
  | .nextFrame _ events | .sendData _ _ events => some events
  | .sendLast _ | .returned => none

def ReadTask.withRest (events : List BodyEvent) : ReadTask → ReadTask
  | .nextFrame total _ => .nextFrame total events
  | .sendData b total _ => .sendData b total events
  | .sendLast m => .sendLast m
  | .returned => .returned

def Upload.withRest (u : Upload) (events : List BodyEvent) : Upload :=
  { u with feed := { u.feed with task := u.feed.task.withRest events } }

/-- What the task has met. -/
def Upload.met (u : Upload) : List BodyEvent := u.heard.reduceOption

theorem ReadTask.isDone_withRest (limit : Option BodyLimit) (readTimeout : Bool) (k : ReadTask)
    (es : List BodyEvent) :
    ((k.withRest es).await limit readTimeout).isDone = (k.await limit readTimeout).isDone := by
  cases k with
  | nextFrame total events =>
      obtain ⟨next, hnext⟩ := ReadTask.nextFrame_await limit readTimeout total events
      obtain ⟨next', hnext'⟩ := ReadTask.nextFrame_await limit readTimeout total es
      rw [ReadTask.withRest, hnext, hnext']
      rfl
  | sendData | sendLast | returned => rfl

/-- A task that reads on has come to one frame or gap, whatever is behind it. -/
theorem ReadTask.work_rest {k next : ReadTask} {es : List BodyEvent}
    (h : k.await limit readTimeout = .work next) (hrest : next.rest = some es) :
    ∃ total e, k = .nextFrame total (e :: es) ∧
      ∀ es', (ReadTask.nextFrame total (e :: es')).await limit readTimeout =
        .work (next.withRest es') := by
  cases k with
  | sendData | sendLast | returned => cases h
  | nextFrame total events =>
      cases events with
      | nil =>
          obtain rfl := Feed.Await.work.inj h
          cases hrest
      | cons e events =>
          cases e with
          | data b =>
              simp only [ReadTask.await] at h ⊢
              split at h
              · obtain rfl := Feed.Await.work.inj h
                cases hrest
              case isFalse hunder =>
                obtain rfl := Feed.Await.work.inj h
                obtain rfl := Option.some.inj hrest
                exact ⟨total, .data b, rfl, fun _ => if_neg hunder⟩
          | trailers =>
              obtain rfl := Feed.Await.work.inj h
              obtain rfl := Option.some.inj hrest
              exact ⟨total, .trailers, rfl, fun _ => rfl⟩
          | error =>
              obtain rfl := Feed.Await.work.inj h
              cases hrest
          | stall =>
              simp only [ReadTask.await] at h
              split at h
              · obtain rfl := Feed.Await.work.inj h
                cases hrest
              case isFalse hnone =>
                obtain rfl := Feed.Await.work.inj h
                obtain rfl := Option.some.inj hrest
                exact ⟨total, .stall, rfl, fun _ => if_neg hnone⟩

theorem ReadTask.send_rest {k next refused : ReadTask} {m : BodyMsg} {es : List BodyEvent}
    (h : k.await limit readTimeout = .send m next refused) (hrest : next.rest = some es) :
    k.rest = some es ∧ ∀ es', (k.withRest es').await limit readTimeout =
      .send m (next.withRest es') refused := by
  cases k with
  | nextFrame total events =>
      obtain ⟨next', hwork⟩ := ReadTask.nextFrame_await limit readTimeout total events
      rw [hwork] at h
      cases h
  | sendData b total events =>
      obtain ⟨rfl, rfl, rfl⟩ := Feed.Await.send.inj h
      exact ⟨hrest, fun _ => rfl⟩
  | sendLast m' =>
      obtain ⟨rfl, rfl, rfl⟩ := Feed.Await.send.inj h
      cases hrest
  | returned => cases h

/-- A step takes what it needs from the frames and gaps to come, and leaves the others. -/
theorem Upload.drain_rest {l : UploadLabel} {es : List BodyEvent}
    (h : u.drain limit readTimeout l = some v) (hrest : v.feed.task.rest = some es) :
    ∃ new, u.feed.task.rest = some (new ++ es) ∧ v.met = u.met ++ new ∧
      ∀ es', (u.withRest (new ++ es')).drain limit readTimeout l = some (v.withRest es') := by
  cases l with
  | frame =>
      obtain ⟨feed, hwork, rfl⟩ := Option.map_eq_some_iff.1 h
      obtain ⟨hcut, next, hawait, rfl⟩ := (Feed.work_eq_some _).1 hwork
      obtain ⟨total, e, htask, hnext⟩ := ReadTask.work_rest hawait hrest
      refine ⟨[e], by rw [htask]; rfl, ?_, fun es' => ?_⟩
      · simp [Upload.met, htask, ReadTask.hears, List.reduceOption]
      · have hstep := (Feed.work_eq_some (s := (u.withRest ([e] ++ es')).feed)
          (ReadTask.await limit readTimeout)).2
            ⟨hcut, next.withRest es', by
              simp only [Upload.withRest, htask]
              exact hnext es', rfl⟩
        rw [Upload.drain, Upload.step, hstep]
        simp [Upload.withRest, htask, ReadTask.withRest, ReadTask.hears]
  | send =>
      obtain ⟨feed, hsend, rfl⟩ := Option.map_eq_some_iff.1 h
      obtain ⟨hcut, m, next, refused, hawait, ⟨-, rfl⟩ | ⟨hthere, rfl⟩⟩ :=
        Feed.send_cases _ hsend
      · obtain ⟨rfl, -, -⟩ := ReadTask.send_cases hawait
        cases hrest
      · obtain ⟨htask, hnext⟩ := ReadTask.send_rest hawait hrest
        refine ⟨[], htask, (List.append_nil _).symm, fun es' => ?_⟩
        have hroom : u.feed.buf.length < bodyChannelCap := by
          by_contra hfull
          simp [Feed.State.send, hcut, hawait, hthere, hfull] at hsend
        simp [Upload.drain, Upload.step, Upload.withRest, Feed.State.send, hcut, hnext es',
          hthere, hroom]
  | read =>
      rw [Upload.drain, Option.ite_none_right_eq_some] at h
      obtain ⟨⟨r, feed⟩, hrecv, rfl⟩ := Option.map_eq_some_iff.1 h.2
      have htask : feed.task = u.feed.task := by
        obtain ⟨-, ⟨_, _, _, _, rfl⟩ | ⟨_, _, _, rfl⟩⟩ := Feed.recv_cases _ hrecv
        · rfl
        · rfl
      refine ⟨[], htask ▸ hrest, (List.append_nil _).symm, fun es' => ?_⟩
      have hrecv' : (u.withRest es').feed.recv (ReadTask.await limit readTimeout) =
          some (r, { feed with task := u.feed.task.withRest es' }) :=
        Feed.recv_task _ hrecv (ReadTask.isDone_withRest limit readTimeout _ es')
      have hopen : (collectRaw limit 0 [] (u.withRest es').reads).isNone = true := h.1
      rw [List.nil_append, Upload.drain, if_pos hopen, Upload.step, hrecv']
      simp [Upload.withRest, htask]
  | dropTask | dropIo => cases h

/-- A frame or gap that comes is the next one. -/
theorem Upload.met_isPrefix {l : UploadLabel} (h : u.drain limit readTimeout l = some v)
    (hmet : u.met <+: events) (hrest : ∀ es, u.feed.task.rest = some es → events = u.met ++ es) :
    v.met <+: events := by
  cases l with
  | frame =>
      obtain ⟨feed, hwork, rfl⟩ := Option.map_eq_some_iff.1 h
      obtain ⟨_, next, hawait, rfl⟩ := (Feed.work_eq_some _).1 hwork
      cases htask : u.feed.task with
      | sendData | sendLast | returned =>
          rw [htask] at hawait
          cases hawait
      | nextFrame total es =>
          have hheard : (u.heard ++ [es.head?]).reduceOption = u.met ++ es.take 1 := by
            cases es <;> simp [Upload.met, List.reduceOption]
          rw [hrest es (by rw [htask]; rfl), Upload.met]
          simp only [ReadTask.hears, hheard]
          exact (List.prefix_append_right_inj _).2 (List.take_prefix 1 es)
  | send =>
      obtain ⟨feed, -, rfl⟩ := Option.map_eq_some_iff.1 h
      exact hmet
  | read =>
      rw [Upload.drain, Option.ite_none_right_eq_some] at h
      obtain ⟨r, -, rfl⟩ := Option.map_eq_some_iff.1 h.2
      exact hmet
  | dropTask | dropIo => cases h

/-- What the task has yet to read plays no part in a run. -/
theorem run_rest {ls : List UploadLabel}
    (hrun : Transition.run (Upload.drain limit readTimeout) (Upload.open events) ls = some u) :
    u.met <+: events ∧
      ∀ es, u.feed.task.rest = some es → events = u.met ++ es ∧
        ∀ es', Transition.run (Upload.drain limit readTimeout) (Upload.open (u.met ++ es')) ls =
          some (u.withRest es') := by
  refine Transition.run_history (J := fun (u : Upload) (ls : List UploadLabel) =>
    u.met <+: events ∧ ∀ es, u.feed.task.rest = some es → events = u.met ++ es ∧
      ∀ es', Transition.run (Upload.drain limit readTimeout) (Upload.open (u.met ++ es')) ls =
        some (u.withRest es')) ?_ ?_ hrun
  · refine ⟨List.nil_prefix, fun es hes => ?_⟩
    obtain rfl := Option.some.inj hes
    exact ⟨rfl, fun _ => rfl⟩
  · intro u ls l v ⟨hmet, hrest⟩ hstep
    refine ⟨?_, fun es hes => ?_⟩
    · exact Upload.met_isPrefix hstep hmet fun es hes => (hrest es hes).1
    · obtain ⟨new, hes', hnew, hdrain⟩ := Upload.drain_rest hstep hes
      obtain ⟨rfl, hall⟩ := hrest _ hes'
      rw [hnew, List.append_assoc]
      refine ⟨rfl, fun es' => ?_⟩
      rw [List.append_assoc]
      exact Transition.run_concat_some.2 ⟨_, hall (new ++ es'), hdrain es'⟩

/-! ## A handler that reads late -/

theorem WithoutGaps.erase {n : Nat} {pre es : List BodyEvent}
    (h : WithoutGaps n events (pre ++ es)) (hgap : .stall ∈ es) :
    WithoutGaps (n + 1) events (pre ++ es.erase .stall) := by
  obtain ⟨before, after, -, hes, herase⟩ := List.exists_erase_eq hgap
  refine ⟨(List.erase_sublist.append_left pre).trans h.sublist, ?_, ?_⟩
  · rw [← h.frames, herase, hes]
    simp
  · have hlength := h.length
    rw [hes] at hlength
    rw [herase]
    simp only [List.length_append, List.length_cons] at hlength ⊢
    omega

/-- A late run is a run of the three on what the task meets. -/
theorem run_turn {ls : List Turn}
    (hrun : Transition.run (Upload.turn limit readTimeout) (Upload.open events) ls = some u) :
    ∃ met moves, WithoutGaps (ls.count .pass) events met ∧
      moves.length + ls.count .pass = ls.length ∧ (readTimeout = false → .pass ∉ ls) ∧
      Transition.run (Upload.drain limit readTimeout) (Upload.open met) moves = some u := by
  refine Transition.run_history (J := fun (u : Upload) (ls : List Turn) =>
    ∃ met moves, WithoutGaps (ls.count .pass) events met ∧
      moves.length + ls.count .pass = ls.length ∧ (readTimeout = false → .pass ∉ ls) ∧
      Transition.run (Upload.drain limit readTimeout) (Upload.open met) moves = some u)
    ⟨events, [], ⟨List.Sublist.refl _, rfl, rfl⟩, rfl, fun _ => List.not_mem_nil, rfl⟩ ?_ hrun
  rintro u ls l v ⟨met, moves, hgaps, hlength, hnone, hmoves⟩ hstep
  cases l with
  | move l =>
      refine ⟨met, moves ++ [l], ?_, ?_, fun hoff => ?_,
        Transition.run_concat_some.2 ⟨u, hmoves, hstep⟩⟩
      · simpa using hgaps
      · simp only [List.length_append, List.length_singleton, List.count_append,
          List.count_singleton, beq_iff_eq, reduceCtorEq, if_false] at hlength ⊢
        omega
      · simpa using hnone hoff
  | pass =>
      simp only [Upload.turn] at hstep
      split at hstep
      case h_2 => cases hstep
      case h_1 b total es htask =>
        rw [Option.ite_none_right_eq_some] at hstep
        obtain ⟨⟨hon, -, hgap⟩, hv⟩ := hstep
        obtain ⟨rfl, hrest⟩ := (run_rest hmoves).2 es (by rw [htask]; rfl)
        refine ⟨u.met ++ es.erase .stall, moves, ?_, ?_, fun hoff => ?_, ?_⟩
        · simpa using hgaps.erase hgap
        · simp only [List.length_append, List.length_singleton, List.count_append,
            List.count_singleton, beq_self_eq_true, if_true] at hlength ⊢
          omega
        · rw [hoff] at hon
          cases hon
        · rw [hrest, ← hv]
          simp [Upload.withRest, htask, ReadTask.withRest]

/-- However late the handler reads, the run comes to an end, and the handler then has the
outcome of `buffer_body` on the frames and gaps without those that passed while the task
waited for room, with as many bytes counted.  Where none did, or no time is set, it is the
outcome on all of them. -/
theorem drained_as_buffered (limit : Option BodyLimit) (readTimeout : Bool)
    (events : List BodyEvent) (ls : List Turn) (u : Upload)
    (hrun : Transition.run (Upload.turn limit readTimeout) (Upload.open events) ls = some u) :
    ls.length ≤ (Upload.open events).left ∧
      (collectRaw limit 0 [] u.reads = none →
        ∃ l v, u.drain limit readTimeout l = some v) ∧
      ∃ met, WithoutGaps (ls.count .pass) events met ∧ u.met <+: met ∧
        (readTimeout = false ∨ .pass ∉ ls → met = events) ∧
        ∀ outcome, collectRaw limit 0 [] u.reads = some outcome →
          outcome.mapError Thrown.status = buffered limit readTimeout met ∧
            u.counted = bufferCounted limit readTimeout 0 met := by
  obtain ⟨met, moves, hgaps, hlength, hnone, hmoves⟩ := run_turn hrun
  obtain ⟨hleft, houtcome⟩ := drained_run hmoves
  refine ⟨?_, fun hopen => (run_drained hmoves).exists_step (by rw [hopen]; rfl), met, hgaps,
    (run_rest hmoves).1, fun hall => ?_, houtcome⟩
  · have hevents := hgaps.length
    rw [left_open] at hleft ⊢
    omega
  · have hcount : ls.count .pass = 0 := List.count_eq_zero.2 (hall.elim hnone id)
    refine hgaps.sublist.eq_of_length ?_
    rw [hgaps.length, hcount]
    rfl

end Readers

/-- A body of three frames, with a gap before the last. -/
def pausedBody : List BodyEvent := [.data [1], .data [2], .stall, .data [3]]

/-- The gap passes while the second frame waits behind the first. -/
def lateTurns : List Turn :=
  [.move .frame, .move .send, .move .frame, .pass, .move .read, .move .send, .move .frame,
    .move .read, .move .send, .move .frame, .move .read, .move .read]

theorem drained_late :
    ∃ u, Transition.run (Upload.turn none true) (Upload.open pausedBody) lateTurns = some u ∧
      collectRaw none 0 [] u.reads = some (.ok [1, 2, 3]) ∧
      ∃ met, WithoutGaps 1 pausedBody met ∧ buffered none true met = .ok [1, 2, 3] ∧
        bufferCounted none true 0 met = 3 := by
  obtain ⟨u, hrun, hreads, hcounted⟩ : ∃ u,
      Transition.run (Upload.turn none true) (Upload.open pausedBody) lateTurns = some u ∧
        collectRaw none 0 [] u.reads = some (.ok [1, 2, 3]) ∧ u.counted = 3 := ⟨_, rfl, rfl, rfl⟩
  obtain ⟨-, -, met, hgaps, -, -, houtcome⟩ := drained_as_buffered none true _ _ u hrun
  obtain ⟨hsame, hcount⟩ := houtcome _ hreads
  exact ⟨u, hrun, hreads, met, hgaps, hsame.symm, hcount.symm.trans hcounted⟩

/-- `buffer_body` meets that gap, and gives up. -/
theorem late_handler_differs :
    ¬ ∀ (limit : Option BodyLimit) (readTimeout : Bool) (events : List BodyEvent)
        (ls : List Turn) (u : Upload),
        Transition.run (Upload.turn limit readTimeout) (Upload.open events) ls = some u →
          ∀ outcome, collectRaw limit 0 [] u.reads = some outcome →
            outcome.mapError Thrown.status = buffered limit readTimeout events ∧
              u.counted = bufferCounted limit readTimeout 0 events := by
  intro hall
  obtain ⟨hsame, -⟩ := hall none true pausedBody lateTurns _ rfl (.ok [1, 2, 3]) rfl
  cases hsame

end Body
end OxideHttp
