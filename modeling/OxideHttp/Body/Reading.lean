import OxideHttp.Body
import OxideHttp.Lib.Feed

/-!
# The task that reads a request body (`src/server.rs`)

`read_body_task` with its awaits in view: it waits for a frame, or for room in the
channel to JS.  It sends what `readBodyTask` lists (`sends_readBody`).  When `close`
shuts the runtime down after the drain deadline, a task that has not returned is
dropped where it waits, and its end of the channel with it.

Results.
* `run_uploadSound`: the handler is given an initial part of the body
  (`UploadSound.handed_isPrefix`) in every run.
* `UploadSound.authentic_iff`: when the handler reads to `null` without an error, it
  has been given the whole body, and `hyper` has reported its clean end, exactly if
  the task was not cut off.
-/

namespace OxideHttp
namespace Body

/-- Where `read_body_task` stands when it has read `total` bytes. -/
inductive ReadTask where
  /-- it awaits `body.frame()` -/
  | nextFrame (total : Nat) (events : List BodyEvent)
  /-- it awaits the `send` of a data frame -/
  | sendData (b : Bytes) (total : Nat) (events : List BodyEvent)
  /-- it awaits the last `send` before it returns -/
  | sendLast (m : BodyMsg)
  | returned
  deriving DecidableEq, Repr

section Task

variable (limit : Option BodyLimit) (readTimeout : Bool)

/-- `read_body_task`, one await at a time. -/
def ReadTask.await : ReadTask → Feed.Await ReadTask BodyMsg
  | .nextFrame _ [] => .work .returned
  | .nextFrame total (.data b :: events) =>
      if overLimit limit (saturatingAdd total b.length) then .work (.sendLast .overflow)
      else .work (.sendData b (saturatingAdd total b.length) events)
  | .nextFrame total (.trailers :: events) => .work (.nextFrame total events)
  | .nextFrame _ (.error :: _) => .work (.sendLast .aborted)
  | .nextFrame total (.stall :: events) =>
      if readTimeout then .work (.sendLast .timeout) else .work (.nextFrame total events)
  | .sendData b total events => .send (.data b) (.nextFrame total events) .returned
  | .sendLast m => .send m .returned .returned
  | .returned => .done

theorem sends_last (m : BodyMsg) :
    Feed.Sends (ReadTask.await limit readTimeout) (.sendLast m) [m] :=
  .send rfl (.done rfl)

/-- The task sends the messages of `readBodyTask`. -/
theorem sends_readBody (total : Nat) (events : List BodyEvent) :
    Feed.Sends (ReadTask.await limit readTimeout) (.nextFrame total events)
      (readBodyTask limit readTimeout total events) := by
  induction events generalizing total with
  | nil => exact .work rfl (.done rfl)
  | cons e events ih =>
      cases e with
      | data b =>
          rw [readBodyTask]
          split
          case isTrue hover =>
            have hwork : (ReadTask.nextFrame total (.data b :: events)).await limit
                readTimeout = .work (.sendLast .overflow) := if_pos hover
            exact .work hwork (sends_last ..)
          case isFalse hunder =>
            have hwork : (ReadTask.nextFrame total (.data b :: events)).await limit
                readTimeout = .work (.sendData b (saturatingAdd total b.length) events) :=
              if_neg hunder
            exact .work hwork (.send rfl (ih _))
      | trailers => exact .work rfl (ih total)
      | error => exact .work rfl (sends_last ..)
      | stall =>
          cases readTimeout with
          | true => exact .work rfl (sends_last ..)
          | false => exact .work rfl (ih total)

/-- What is sent without an error is the whole body. -/
theorem readBodyTask_content {total : Nat} {events : List BodyEvent}
    (h : ∀ m ∈ readBodyTask limit readTimeout total events, m.isError = false) :
    received (readBodyTask limit readTimeout total events) = content events := by
  induction events generalizing total with
  | nil => rfl
  | cons e events ih =>
      cases e with
      | data b =>
          rw [readBodyTask] at h ⊢
          split at h
          case isTrue => cases h _ (List.mem_singleton_self _)
          case isFalse hunder =>
            rw [if_neg hunder, received_cons, content_cons,
              ih fun m hm => h m (List.mem_cons_of_mem _ hm)]
            rfl
      | trailers => exact ih h
      | error => cases h _ (List.mem_singleton_self _)
      | stall =>
          cases readTimeout with
          | true => cases h _ (List.mem_singleton_self _)
          | false => exact ih h

/-- What is sent is an initial part of the body. -/
theorem readBodyTask_isPrefix (total : Nat) (events : List BodyEvent) :
    received (readBodyTask limit readTimeout total events) <+: content events := by
  induction events generalizing total with
  | nil => exact List.prefix_rfl
  | cons e events ih =>
      cases e with
      | data b =>
          rw [readBodyTask]
          split
          case isTrue => exact List.nil_prefix
          case isFalse => exact List.prefix_append_right_inj _ |>.2 (ih _)
      | trailers => exact ih total
      | error => exact List.nil_prefix
      | stall =>
          cases readTimeout with
          | true => exact List.nil_prefix
          | false => exact ih total

/-! ## Uploads -/

/-- A request body on its way to the handler. -/
structure Upload where
  feed : Feed.State ReadTask BodyMsg
  /-- what `body.frame()` has resolved to so far; `none` is the clean end of the body -/
  heard : List (Option BodyEvent)
  /-- the results of `read` -/
  reads : List (Except String (Option Bytes))

inductive UploadLabel where
  /-- `body.frame()` resolves -/
  | frame
  /-- a `send` of the task resolves -/
  | send
  /-- the runtime drops the task -/
  | dropTask
  /-- JS calls `read`, and it resolves -/
  | read
  /-- JS lets go of the `BodyIo` -/
  | dropIo
  deriving DecidableEq, Repr

def Upload.open (events : List BodyEvent) : Upload where
  feed := Feed.State.start (.nextFrame 0 events)
  heard := []
  reads := []

/-- The outcome of `body.frame()` that the task waits for. -/
def ReadTask.hears : ReadTask → List (Option BodyEvent)
  | .nextFrame _ events => [events.head?]
  | _ => []

def Upload.step (u : Upload) : UploadLabel → Option Upload
  | .frame =>
      (u.feed.work (ReadTask.await limit readTimeout)).map fun feed =>
        { u with feed := feed, heard := u.heard ++ u.feed.task.hears }
  | .send =>
      (u.feed.send (ReadTask.await limit readTimeout) bodyChannelCap).map fun feed =>
        { u with feed := feed }
  | .dropTask => some { u with feed := u.feed.cutOff (ReadTask.await limit readTimeout) }
  | .read =>
      (u.feed.recv (ReadTask.await limit readTimeout)).map fun r =>
        { u with feed := r.2, reads := u.reads ++ [readResult r.1] }
  | .dropIo => some { u with feed := u.feed.drop }

/-- `read` has returned `null`, and no read has thrown. -/
def Upload.complete (u : Upload) : Prop :=
  .ok none ∈ u.reads ∧ ∀ r ∈ u.reads, ∀ e, r ≠ .error e

/-- `hyper` has reported the clean end of the body, and `read` has returned all its
bytes. -/
def Upload.authentic (events : List BodyEvent) (u : Upload) : Prop :=
  none ∈ u.heard ∧ (u.reads.map chunkRead).flatten = content events

/-- The task is dropped only after it has returned. -/
def Upload.undisturbed (u : Upload) (l : UploadLabel) : Prop :=
  l = .dropTask → u.feed.task = .returned

/-! ## What holds of an upload -/

/-- What is known of an upload whose task sends `msgs` if nothing stops it. -/
structure UploadSound (msgs sent todo : List BodyMsg) (u : Upload) : Prop where
  fed : Feed.Fed (ReadTask.await limit readTimeout) msgs sent todo u.feed
  reads : ReadsOf sent (u.feed.pipe (ReadTask.await limit readTimeout) todo) u.reads
  /-- the last message of the task is an error -/
  failing : ∀ m, u.feed.task = .sendLast m → m.isError = true
  /-- the task returns at the end of the body, after an error, or without a reader -/
  returned : u.feed.task = .returned → u.feed.receiverGone = false →
    none ∈ u.heard ∨ ∃ m ∈ u.feed.got ++ u.feed.buf, m.isError = true
  heard : u.feed.cut = false → u.complete → none ∈ u.heard
  ended : none ∈ u.heard → u.feed.task = .returned ∧ u.feed.cut = false

variable {limit readTimeout} {msgs sent todo : List BodyMsg} {u v : Upload}

/-- What the task can wait for. -/
theorem ReadTask.await_cases (limit : Option BodyLimit) (readTimeout : Bool) (k : ReadTask) :
    (k = .returned ∧ k.await limit readTimeout = .done) ∨
      (∃ m, k = .sendLast m ∧ k.await limit readTimeout = .send m .returned .returned) ∨
      (∃ b total events, k.await limit readTimeout =
        .send (.data b) (.nextFrame total events) .returned) ∨
      (none ∈ k.hears ∧ k.await limit readTimeout = .work .returned) ∨
      (∃ m, m.isError = true ∧ k.await limit readTimeout = .work (.sendLast m)) ∨
      (∃ b total events, k.await limit readTimeout = .work (.sendData b total events)) ∨
      (∃ total events, k.await limit readTimeout = .work (.nextFrame total events)) := by
  cases k with
  | returned => simp [ReadTask.await]
  | sendData | sendLast => simp [ReadTask.await]
  | nextFrame total events =>
      cases events with
      | nil => simp [ReadTask.await, ReadTask.hears]
      | cons e events =>
          cases e with
          | trailers => simp [ReadTask.await]
          | error => simp [ReadTask.await, BodyMsg.isError]
          | data b =>
              cases hover : overLimit limit (saturatingAdd total b.length) with
              | true => simp [ReadTask.await, BodyMsg.isError, hover]
              | false => simp [ReadTask.await, hover]
          | stall =>
              cases readTimeout with
              | true => simp [ReadTask.await, BodyMsg.isError]
              | false => simp [ReadTask.await]

theorem ReadTask.returned_of_done {k : ReadTask}
    (h : (k.await limit readTimeout).isDone = true) : k = .returned := by
  rcases k.await_cases limit readTimeout with ⟨hk, _⟩ | ⟨m, _, hw⟩ | ⟨b, n, es, hw⟩ |
    ⟨_, hw⟩ | ⟨m, _, hw⟩ | ⟨b, n, es, hw⟩ | ⟨n, es, hw⟩
  · exact hk
  all_goals simp [hw, Feed.Await.isDone] at h

theorem ReadTask.await_of_hears {k : ReadTask} (h : none ∈ k.hears) :
    k.await limit readTimeout = .work .returned := by
  cases k with
  | nextFrame total events =>
      cases events with
      | nil => rfl
      | cons e events => simp [ReadTask.hears] at h
  | sendData | sendLast | returned => simp [ReadTask.hears] at h

/-- The task goes on reading, or is about to report an error, or has heard of the
end. -/
theorem ReadTask.work_cases {k next : ReadTask}
    (h : k.await limit readTimeout = .work next) :
    (next = .returned → none ∈ k.hears) ∧ (∀ m, next = .sendLast m → m.isError = true) := by
  rcases k.await_cases limit readTimeout with ⟨_, hw⟩ | ⟨m, _, hw⟩ | ⟨b, n, es, hw⟩ |
    ⟨hend, hw⟩ | ⟨m, herr, hw⟩ | ⟨b, n, es, hw⟩ | ⟨n, es, hw⟩
  all_goals simp only [hw, reduceCtorEq, Feed.Await.work.injEq] at h
  all_goals subst h
  · exact ⟨fun _ => hend, fun _ hm => by cases hm⟩
  · refine ⟨fun hr => (by cases hr), fun m' hm => ?_⟩
    obtain rfl := ReadTask.sendLast.inj hm
    exact herr
  · exact ⟨fun hr => (by cases hr), fun _ hm => by cases hm⟩
  · exact ⟨fun hr => (by cases hr), fun _ hm => by cases hm⟩

/-- A refused task returns, and so does one that has sent its last message. -/
theorem ReadTask.send_cases {k next refused : ReadTask} {m : BodyMsg}
    (h : k.await limit readTimeout = .send m next refused) :
    refused = .returned ∧ (next = .returned → k = .sendLast m) ∧
      ∀ m', next ≠ .sendLast m' := by
  rcases k.await_cases limit readTimeout with ⟨_, hw⟩ | ⟨m, hk, hw⟩ | ⟨b, n, es, hw⟩ |
    ⟨_, hw⟩ | ⟨m, _, hw⟩ | ⟨b, n, es, hw⟩ | ⟨n, es, hw⟩
  all_goals simp only [hw, reduceCtorEq, Feed.Await.send.injEq] at h
  all_goals obtain ⟨rfl, rfl, rfl⟩ := h
  · exact ⟨rfl, fun _ => hk, fun _ hm => by cases hm⟩
  · exact ⟨rfl, fun hr => (by cases hr), fun _ hm => by cases hm⟩

theorem uploadSound_open (events : List BodyEvent) :
    UploadSound limit readTimeout (readBodyTask limit readTimeout 0 events)
      (readBodyTask limit readTimeout 0 events) (readBodyTask limit readTimeout 0 events)
      (Upload.open events) := by
  have hfed := Feed.fed_start (ReadTask.await limit readTimeout)
    (sends_readBody limit readTimeout 0 events)
  exact
    { fed := hfed
      reads := readsOf_open hfed.sound rfl
      failing := fun m h => by cases h
      returned := fun h => by cases h
      heard := fun _ h => by cases h.1
      ended := fun h => by cases h }

theorem UploadSound.frame (hu : UploadSound limit readTimeout msgs sent todo u)
    (h : u.step limit readTimeout .frame = some v) :
    UploadSound limit readTimeout msgs sent todo v := by
  obtain ⟨feed, hwork, rfl⟩ := Option.map_eq_some_iff.1 h
  obtain ⟨hfed, hframe⟩ := hu.fed.work _ hwork
  obtain ⟨hcut, next, hawait, rfl⟩ := (Feed.work_eq_some _).1 hwork
  obtain ⟨hend, herr⟩ := ReadTask.work_cases hawait
  exact
    { fed := hfed
      reads := hu.reads.frame hfed.sound hframe
      failing := herr
      returned := fun hret _ => Or.inl (List.mem_append_right _ (hend hret))
      heard := fun hcut hcomplete => List.mem_append_left _ (hu.heard hcut hcomplete)
      ended := fun hend => by
        rcases List.mem_append.1 hend with hend | hend
        · rw [(hu.ended hend).1] at hawait
          cases hawait
        · rw [ReadTask.await_of_hears hend] at hawait
          exact ⟨(Feed.Await.work.inj hawait).symm, hcut⟩ }

theorem UploadSound.send (hu : UploadSound limit readTimeout msgs sent todo u)
    (h : u.step limit readTimeout .send = some v) :
    ∃ rest, UploadSound limit readTimeout msgs sent rest v := by
  obtain ⟨feed, hsend, rfl⟩ := Option.map_eq_some_iff.1 h
  obtain ⟨⟨rest, hfed⟩, hframe⟩ := hu.fed.send _ hsend
  have hreads := hu.reads.frame hfed.sound hframe
  obtain ⟨_, m, next, refused, hawait, hnext⟩ := Feed.send_cases _ hsend
  have hnoEnd : none ∉ u.heard := fun hend => by
    rw [(hu.ended hend).1] at hawait
    cases hawait
  obtain ⟨hgone, rfl⟩ | ⟨_, rfl⟩ := hnext
  · obtain ⟨rfl, _, _⟩ := ReadTask.send_cases hawait
    exact ⟨rest,
      { fed := hfed
        reads := hreads
        failing := fun _ hm => by cases hm
        returned := fun _ hthere => by cases hgone.symm.trans hthere
        heard := hu.heard
        ended := fun hend => absurd hend hnoEnd }⟩
  · obtain ⟨_, hlast, hno⟩ := ReadTask.send_cases hawait
    refine ⟨rest,
      { fed := hfed
        reads := hreads
        failing := fun m' hm => absurd hm (hno m')
        returned := fun hret _ => Or.inr ⟨m, ?_, hu.failing m (hlast hret)⟩
        heard := hu.heard
        ended := fun hend => absurd hend hnoEnd }⟩
    simp

/-- The read that returns `null` comes after the end that `hyper` reported, unless the
task was dropped. -/
theorem UploadSound.read (hu : UploadSound limit readTimeout msgs sent todo u)
    (h : u.step limit readTimeout .read = some v) :
    UploadSound limit readTimeout msgs sent todo v := by
  obtain ⟨⟨r, feed⟩, hrecv, rfl⟩ := Option.map_eq_some_iff.1 h
  have hfed := hu.fed.recv _ hrecv
  have hreads := readsOf_recv hu.reads (Feed.recv_pipe _ hrecv todo)
  obtain ⟨hthere, ⟨m, buf, rfl, hbuf, rfl⟩ | ⟨rfl, hbuf, hgone, rfl⟩⟩ :=
    Feed.recv_cases _ hrecv
  · refine ⟨hfed, hreads, hu.failing, fun hret hthere => ?_, fun hcut hcomplete => ?_,
      hu.ended⟩
    · simpa [hbuf] using hu.returned hret hthere
    · obtain ⟨hnull, hok⟩ := hcomplete
      refine hu.heard hcut ⟨?_, fun r hr => hok r (List.mem_append_left _ hr)⟩
      rcases List.mem_append.1 hnull with hnull | hnull
      · exact hnull
      · cases readResult_eq_null (List.mem_singleton.1 hnull).symm
  · refine ⟨hfed, hreads, hu.failing, hu.returned, fun hcut hcomplete => ?_, hu.ended⟩
    have hdone : (u.feed.task.await limit readTimeout).isDone = true := by
      simpa [Feed.State.senderGone, show u.feed.cut = false from hcut] using hgone
    rcases hu.returned (ReadTask.returned_of_done hdone) hthere with hend | ⟨m, hm, herr⟩
    · exact hend
    · rw [hbuf, List.append_nil] at hm
      rw [hreads.clean hcomplete.2 m hm] at herr
      cases herr

theorem UploadSound.step {l : UploadLabel}
    (hu : UploadSound limit readTimeout msgs sent todo u)
    (h : u.step limit readTimeout l = some v) :
    ∃ sent todo, UploadSound limit readTimeout msgs sent todo v := by
  cases l with
  | frame => exact ⟨sent, todo, hu.frame h⟩
  | send => exact ⟨sent, hu.send h⟩
  | read => exact ⟨sent, todo, hu.read h⟩
  | dropTask =>
      obtain rfl := Option.some.inj h
      obtain ⟨sent, rest, hfed⟩ := hu.fed.cutOff
      refine ⟨sent, rest, hfed, hu.reads.frame hfed.sound ⟨rfl, rfl⟩, hu.failing,
        hu.returned, fun hcut => hu.heard ?_, fun hend => ?_⟩
      · simp only [Feed.State.cutOff, Bool.or_eq_false_iff] at hcut
        exact hcut.1
      · obtain ⟨hret, hcut⟩ := hu.ended hend
        exact ⟨hret, by simp [Feed.State.cutOff, hcut, hret, ReadTask.await, Feed.Await.isDone]⟩
  | dropIo =>
      obtain rfl := Option.some.inj h
      have hfed := hu.fed.drop
      exact ⟨sent, todo, hfed, hu.reads.frame hfed.sound ⟨rfl, rfl⟩, hu.failing,
        (fun _ hthere => by cases hthere), hu.heard, hu.ended⟩

theorem run_uploadSound {events : List BodyEvent} {ls : List UploadLabel}
    (hrun : Transition.run (Upload.step limit readTimeout) (Upload.open events) ls =
      some u) :
    ∃ sent todo, UploadSound limit readTimeout (readBodyTask limit readTimeout 0 events)
      sent todo u :=
  Transition.run_invariant (I := fun u => ∃ sent todo, UploadSound limit readTimeout
      (readBodyTask limit readTimeout 0 events) sent todo u)
    (fun _ _ _ ⟨_, _, hu⟩ hstep => hu.step hstep) ⟨_, _, uploadSound_open events⟩ hrun

/-- A step cuts the task off exactly when it drops one that has not returned. -/
theorem cut_step {l : UploadLabel} (h : u.step limit readTimeout l = some v) :
    v.feed.cut = true ↔ u.feed.cut = true ∨ ¬ u.undisturbed l := by
  have hother (hl : l ≠ .dropTask) (hcut : v.feed.cut = u.feed.cut) :
      v.feed.cut = true ↔ u.feed.cut = true ∨ ¬ u.undisturbed l := by
    simp [Upload.undisturbed, hl, hcut]
  cases l with
  | frame =>
      obtain ⟨feed, hwork, rfl⟩ := Option.map_eq_some_iff.1 h
      obtain ⟨_, next, _, rfl⟩ := (Feed.work_eq_some _).1 hwork
      exact hother (by simp) rfl
  | send =>
      obtain ⟨feed, hsend, rfl⟩ := Option.map_eq_some_iff.1 h
      obtain ⟨_, _, _, _, _, ⟨_, rfl⟩ | ⟨_, rfl⟩⟩ := Feed.send_cases _ hsend
      · exact hother (by simp) rfl
      · exact hother (by simp) rfl
  | read =>
      obtain ⟨⟨r, feed⟩, hrecv, rfl⟩ := Option.map_eq_some_iff.1 h
      obtain ⟨_, ⟨_, _, _, _, rfl⟩ | ⟨_, _, _, rfl⟩⟩ := Feed.recv_cases _ hrecv
      · exact hother (by simp) rfl
      · exact hother (by simp) rfl
  | dropTask =>
      obtain rfl := Option.some.inj h
      have hdone : (u.feed.task.await limit readTimeout).isDone = true ↔
          u.feed.task = .returned :=
        ⟨ReadTask.returned_of_done, fun hret => by rw [hret]; rfl⟩
      simp [Feed.State.cutOff, Upload.undisturbed, ← hdone]
  | dropIo =>
      obtain rfl := Option.some.inj h
      exact hother (by simp) rfl

theorem run_cut {events : List BodyEvent} {ls : List UploadLabel}
    (hrun : Transition.run (Upload.step limit readTimeout) (Upload.open events) ls =
      some u) :
    u.feed.cut = true ↔
      ¬ Transition.Along (Upload.step limit readTimeout) Upload.undisturbed
        (Upload.open events) ls := by
  obtain ⟨_, _, hcut⟩ := Transition.run_flag (G := Unit) (fun _ _ => True)
    (fun u _ => u.feed.cut = true)
    (fun _ _ _ _ _ hstep => ⟨(), trivial, cut_step hstep⟩) (g := ()) trivial hrun
  simpa [Upload.open, Feed.State.start] using hcut

/-- What `read` has returned is an initial part of the body, also when the task was
dropped. -/
theorem UploadSound.handed_isPrefix {events : List BodyEvent}
    (hu : UploadSound limit readTimeout (readBodyTask limit readTimeout 0 events) sent todo
      u) :
    (u.reads.map chunkRead).flatten <+: content events := by
  rw [hu.reads.handed]
  exact (received_isPrefix hu.fed.got_isPrefix).trans (readBodyTask_isPrefix ..)

/-- `null` without an error is the end of the body exactly when the task was not cut
off. -/
theorem UploadSound.authentic_iff {events : List BodyEvent}
    (hu : UploadSound limit readTimeout (readBodyTask limit readTimeout 0 events) sent todo
      u) (hcomplete : u.complete) : u.authentic events ↔ u.feed.cut = false := by
  refine ⟨fun hauthentic => (hu.ended hauthentic.1).2, fun hcut => ?_⟩
  refine ⟨hu.heard hcut hcomplete, ?_⟩
  have hgot : u.feed.got = readBodyTask limit readTimeout 0 events :=
    hu.fed.got_eq _ (hu.reads.eof hcomplete.1) hcut
  have hclean := hu.reads.clean hcomplete.2
  rw [hu.reads.handed]
  simp only [Feed.State.pipe, hgot] at hclean ⊢
  exact readBodyTask_content limit readTimeout hclean

end Task

end Body
end OxideHttp
