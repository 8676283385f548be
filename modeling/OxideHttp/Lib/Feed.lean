import OxideHttp.Lib.Pipe
import OxideHttp.Lib.Transition

/-!
# A process that feeds a bounded channel

The sender of a channel is a process that waits in turn for its own input and for
room in the channel, and that may be cut off while it waits.  `await` tells what it
waits for at each of its points.

This file gives

* `Sends`: what a process sends when nothing stops it;
* `Fed`: the process and its channel behave as a `Pipe` whose messages are what the
  process sends, or an initial part of that once it was cut off; every move keeps it
  (`Fed.work`, `Fed.send`, `Fed.recv`, `Fed.drop`, `Fed.cutOff`).
-/

namespace Feed

variable {κ α : Type*}

/-- What a process waits for. -/
inductive Await (κ α : Type*) where
  /-- something other than the channel -/
  | work (next : κ)
  /-- room for a message, or the news that the receiver is gone -/
  | send (a : α) (next refused : κ)
  /-- nothing, it has returned -/
  | done

def Await.isDone : Await κ α → Bool
  | .done => true
  | _ => false

structure State (κ α : Type*) where
  task : κ
  /-- the process was dropped before it returned -/
  cut : Bool
  buf : List α
  receiverGone : Bool
  got : List α
  /-- the receiver has been told that there is nothing more -/
  ended : Bool

def State.start (task : κ) : State κ α where
  task := task
  cut := false
  buf := []
  receiverGone := false
  got := []
  ended := false

section Moves

variable (await : κ → Await κ α)

def State.senderGone (s : State κ α) : Bool := s.cut || (await s.task).isDone

/-- What the process waits for, the channel apart, has come. -/
def State.work (s : State κ α) : Option (State κ α) :=
  match s.cut, await s.task with
  | false, .work next => some { s with task := next }
  | _, _ => none

/-- The message that the process offers is taken, or refused. -/
def State.send (cap : Nat) (s : State κ α) : Option (State κ α) :=
  match s.cut, await s.task with
  | false, .send a next refused =>
      if s.receiverGone then some { s with task := refused }
      else if s.buf.length < cap then some { s with task := next, buf := s.buf ++ [a] }
      else none
  | _, _ => none

/-- One receive: a message or the end; `none` while it waits. -/
def State.recv (s : State κ α) : Option (Option α × State κ α) :=
  if s.receiverGone then none
  else match s.buf with
    | a :: buf => some (some a, { s with buf := buf, got := s.got ++ [a] })
    | [] => if s.senderGone await then some (none, { s with ended := true }) else none

/-- The receiver goes away, with what is still in the buffer. -/
def State.drop (s : State κ α) : State κ α :=
  { s with receiverGone := true, buf := [] }

/-- The process is dropped where it waits; one that has returned stays as it is. -/
def State.cutOff (s : State κ α) : State κ α :=
  { s with cut := s.cut || !(await s.task).isDone }

theorem work_eq_some {s t : State κ α} :
    s.work await = some t ↔
      s.cut = false ∧ ∃ next, await s.task = .work next ∧ t = { s with task := next } := by
  obtain ⟨task, cut, buf, receiverGone, got, ended⟩ := s
  simp only [State.work]
  cases cut with
  | true => simp
  | false => cases await task <;> simp [eq_comm]

/-- A message is refused or taken. -/
theorem send_cases {cap : Nat} {s t : State κ α} (h : s.send await cap = some t) :
    s.cut = false ∧ ∃ a next refused, await s.task = .send a next refused ∧
      ((s.receiverGone = true ∧ t = { s with task := refused }) ∨
        (s.receiverGone = false ∧
          t = { s with task := next, buf := s.buf ++ [a] })) := by
  obtain ⟨task, cut, buf, receiverGone, got, ended⟩ := s
  simp only [State.send] at h
  split at h
  case h_2 => cases h
  case h_1 _ a next refused hawait =>
    refine ⟨rfl, a, next, refused, hawait, ?_⟩
    split at h
    case isTrue hgone => exact Or.inl ⟨hgone, (Option.some.inj h).symm⟩
    case isFalse hthere =>
      simp only [Option.ite_none_right_eq_some] at h
      exact Or.inr ⟨by simpa using hthere, (Option.some.inj h.2).symm⟩

/-- A receive yields the next message, or the end when the sender is gone. -/
theorem recv_cases {s t : State κ α} {r : Option α} (h : s.recv await = some (r, t)) :
    s.receiverGone = false ∧
      ((∃ a buf, r = some a ∧ s.buf = a :: buf ∧
          t = { s with buf := buf, got := s.got ++ [a] }) ∨
        (r = none ∧ s.buf = [] ∧ s.senderGone await = true ∧
          t = { s with ended := true })) := by
  simp only [State.recv, Option.ite_none_left_eq_some] at h
  obtain ⟨hthere, h⟩ := h
  refine ⟨by simpa using hthere, ?_⟩
  split at h
  case h_1 a buf hbuf =>
    obtain ⟨rfl, rfl⟩ := Prod.mk.inj (Option.some.inj h)
    exact Or.inl ⟨a, buf, rfl, hbuf, rfl⟩
  case h_2 hbuf =>
    simp only [Option.ite_none_right_eq_some] at h
    obtain ⟨hgone, h⟩ := h
    obtain ⟨rfl, rfl⟩ := Prod.mk.inj (Option.some.inj h)
    exact Or.inr ⟨rfl, hbuf, hgone, rfl⟩

/-- The receiver sees of the process only whether it has returned. -/
theorem recv_task {s t : State κ α} {r : Option α} {task : κ}
    (h : s.recv await = some (r, t)) (hdone : (await task).isDone = (await s.task).isDone) :
    State.recv await { s with task := task } = some (r, { t with task := task }) := by
  obtain ⟨hthere, ⟨a, buf, rfl, hbuf, rfl⟩ | ⟨rfl, hbuf, hgone, rfl⟩⟩ := recv_cases _ h
  · simp [State.recv, hthere, hbuf]
  · rw [State.senderGone, ← hdone] at hgone
    simp [State.recv, State.senderGone, hthere, hbuf, hgone]

/-! ## What a process sends -/

/-- Left alone, the process sends these messages and returns. -/
inductive Sends : κ → List α → Prop
  | done {k : κ} (h : await k = .done) : Sends k []
  | work {k next : κ} {msgs : List α} (h : await k = .work next) (hnext : Sends next msgs) :
      Sends k msgs
  | send {k next refused : κ} {a : α} {msgs : List α}
      (h : await k = .send a next refused) (hnext : Sends next msgs) : Sends k (a :: msgs)

theorem Sends.of_work {k next : κ} {msgs : List α} (hk : Sends await k msgs)
    (h : await k = .work next) : Sends await next msgs := by
  cases hk with
  | done hdone => simp [h] at hdone
  | work hwork hnext =>
      obtain rfl := Await.work.inj (h.symm.trans hwork)
      exact hnext
  | send hsend _ => simp [h] at hsend

theorem Sends.of_send {k next refused : κ} {a : α} {msgs : List α}
    (hk : Sends await k msgs) (h : await k = .send a next refused) :
    ∃ rest, msgs = a :: rest ∧ Sends await next rest := by
  cases hk with
  | done hdone => simp [h] at hdone
  | work hwork _ => simp [h] at hwork
  | @send _ _ _ _ rest hsend hnext =>
      obtain ⟨rfl, rfl, rfl⟩ := Await.send.inj (h.symm.trans hsend)
      exact ⟨rest, rfl, hnext⟩

theorem Sends.of_done {k : κ} {msgs : List α} (hk : Sends await k msgs)
    (h : (await k).isDone = true) : msgs = [] := by
  cases hk with
  | done _ => rfl
  | work hwork _ => simp [hwork, Await.isDone] at h
  | send hsend _ => simp [hsend, Await.isDone] at h

/-! ## The channel as a pipe -/

/-- The pipe of a process that has `todo` still to send. -/
def State.pipe (s : State κ α) (todo : List α) : Pipe.State α where
  todo := todo
  buf := s.buf
  senderGone := s.senderGone await
  receiverGone := s.receiverGone
  got := s.got
  ended := s.ended

/-- The process of `s`, which sends `msgs` in all, behaves as a pipe of `sent` with
`todo` still to come. -/
structure Fed (msgs sent todo : List α) (s : State κ α) : Prop where
  initial : sent <+: msgs
  sound : Pipe.Sound sent (s.pipe await todo)
  whole : s.cut = false → sent = msgs
  script : s.cut = false → s.receiverGone = false → Sends await s.task todo

variable {msgs sent todo : List α} {s t : State κ α}

theorem fed_start {k : κ} (hk : Sends await k msgs) :
    Fed await msgs msgs msgs (State.start k) where
  initial := List.prefix_rfl
  sound := (Pipe.sound_start msgs).leave fun hgone _ => by
    simp only [State.senderGone, State.start, Bool.false_or] at hgone
    exact hk.of_done await hgone
  whole := fun _ => rfl
  script := fun _ _ => hk

theorem Fed.work (hs : Fed await msgs sent todo s) (h : s.work await = some t) :
    Fed await msgs sent todo t ∧ t.got = s.got ∧ t.ended = s.ended := by
  obtain ⟨hcut, next, hawait, rfl⟩ := (work_eq_some await).1 h
  have hscript : s.receiverGone = false → Sends await next todo := fun hthere =>
    (hs.script hcut hthere).of_work await hawait
  refine ⟨⟨hs.initial, hs.sound.leave fun hgone hthere => ?_, hs.whole, fun _ => hscript⟩,
    rfl, rfl⟩
  simp only [State.senderGone, hcut, Bool.false_or] at hgone
  exact (hscript hthere).of_done await hgone

theorem Fed.send {cap : Nat} (hs : Fed await msgs sent todo s)
    (h : s.send await cap = some t) :
    (∃ rest, Fed await msgs sent rest t) ∧ t.got = s.got ∧ t.ended = s.ended := by
  obtain ⟨hcut, a, next, refused, hawait, ⟨hgone, rfl⟩ | ⟨hthere, rfl⟩⟩ := send_cases await h
  · refine ⟨⟨todo, hs.initial, hs.sound.leave fun _ hthere => ?_, hs.whole,
      fun _ hthere => ?_⟩, rfl, rfl⟩
    · cases hgone.symm.trans hthere
    · cases hgone.symm.trans hthere
  · obtain ⟨rest, rfl, hrest⟩ := (hs.script hcut hthere).of_send await hawait
    refine ⟨⟨rest, hs.initial, ?_, hs.whole, fun _ _ => hrest⟩, rfl, rfl⟩
    have hwhole := hs.sound.whole hthere
    exact
      { whole := fun _ => by simpa [State.pipe] using hwhole
        initial := hs.sound.initial
        sent := fun hgone _ => by
          simp only [State.pipe, State.senderGone, hcut, Bool.false_or] at hgone
          exact hrest.of_done await hgone
        complete := hs.sound.complete }

/-- A receive is one of the pipe. -/
theorem recv_pipe {r : Option α} (h : s.recv await = some (r, t)) (todo : List α) :
    (s.pipe await todo).recv = some (r, t.pipe await todo) := by
  obtain ⟨hthere, ⟨a, buf, rfl, hbuf, rfl⟩ | ⟨rfl, hbuf, hgone, rfl⟩⟩ := recv_cases await h
  · simp [Pipe.State.recv, State.pipe, State.senderGone, hthere, hbuf]
  · simp only [State.senderGone] at hgone
    simp [Pipe.State.recv, State.pipe, State.senderGone, hthere, hbuf, hgone]

theorem Fed.recv {r : Option α} (hs : Fed await msgs sent todo s)
    (h : s.recv await = some (r, t)) : Fed await msgs sent todo t := by
  have hsound := Pipe.recv_sound hs.sound (recv_pipe await h todo)
  obtain ⟨hthere, ⟨a, buf, rfl, hbuf, rfl⟩ | ⟨rfl, hbuf, hgone, rfl⟩⟩ := recv_cases await h
  · exact ⟨hs.initial, hsound, hs.whole, hs.script⟩
  · exact ⟨hs.initial, hsound, hs.whole, hs.script⟩

theorem Fed.drop (hs : Fed await msgs sent todo s) :
    Fed await msgs sent todo s.drop where
  initial := hs.initial
  sound := Pipe.drop_sound hs.sound
  whole := hs.whole
  script := fun _ hthere => nomatch hthere

/-- A process that is cut off has sent an initial part of its messages. -/
theorem Fed.cutOff (hs : Fed await msgs sent todo s) :
    ∃ sent rest, Fed await msgs sent rest (s.cutOff await) := by
  cases hgone : s.senderGone await with
  | true =>
      have hsame : s.cutOff await = s := by
        simp only [State.senderGone] at hgone
        obtain ⟨task, cut, buf, receiverGone, got, ended⟩ := s
        simp only [State.cutOff]
        cases cut with
        | true => rfl
        | false => simp_all
      rw [hsame]
      exact ⟨sent, todo, hs⟩
  | false =>
      simp only [State.senderGone, Bool.or_eq_false_iff] at hgone
      obtain ⟨part, hpart, hsound⟩ := hs.sound.cut
      refine ⟨part, [], hpart.trans hs.initial, ?_, fun hcut => ?_, fun hcut => ?_⟩
      · simpa [State.pipe, State.cutOff, State.senderGone, hgone] using hsound
      · simp [State.cutOff, hgone] at hcut
      · simp [State.cutOff, hgone] at hcut

/-- What has been received is an initial part of what the process sends. -/
theorem Fed.got_isPrefix (hs : Fed await msgs sent todo s) : s.got <+: msgs :=
  hs.sound.initial.trans hs.initial

/-- The end is reported after everything was received, unless the process was cut
off. -/
theorem Fed.got_eq (hs : Fed await msgs sent todo s) (hended : s.ended = true)
    (hcut : s.cut = false) : s.got = msgs :=
  (hs.sound.complete hended).trans (hs.whole hcut)

/-! ## What the channel has taken -/

/-- The message that a process offers. -/
def Await.offer : Await κ α → Option α
  | .send a .. => some a
  | _ => none

/-- A process and its channel, with a record of the messages that the channel took. -/
structure Traced (κ α : Type*) where
  feed : State κ α
  sent : List α
  /-- the receiver was gone when a message was offered -/
  refused : Bool

def Traced.start (task : κ) : Traced κ α where
  feed := State.start task
  sent := []
  refused := false

inductive Move where
  | work
  | send
  | recv
  | drop
  | cutOff
  deriving DecidableEq, Repr

def Traced.step (cap : Nat) (s : Traced κ α) : Move → Option (Traced κ α)
  | .work => (s.feed.work await).map fun t => { s with feed := t }
  | .send =>
      (s.feed.send await cap).map fun t =>
        if s.feed.receiverGone then { s with feed := t, refused := true }
        else { s with feed := t, sent := s.sent ++ (await s.feed.task).offer.toList }
  | .recv => (s.feed.recv await).map fun r => { s with feed := r.2 }
  | .drop => some { s with feed := s.feed.drop }
  | .cutOff => some { s with feed := s.feed.cutOff await }

/-- The channel has taken the first messages of `msgs`, and the process still sends the
rest as long as nothing stops it. -/
structure Traced.Faithful (msgs : List α) (s : Traced κ α) : Prop where
  initial : s.sent <+: msgs
  gone : s.refused = true → s.feed.receiverGone = true
  script : s.feed.cut = false → s.refused = false →
    ∃ todo, s.sent ++ todo = msgs ∧ Sends await s.feed.task todo

theorem Traced.faithful_start {k : κ} (hk : Sends await k msgs) :
    Traced.Faithful await msgs (Traced.start k) where
  initial := List.nil_prefix
  gone := fun h => by cases h
  script := fun _ _ => ⟨msgs, rfl, hk⟩

theorem Traced.Faithful.step {cap : Nat} {s t : Traced κ α} {m : Move}
    (hs : Traced.Faithful await msgs s) (h : s.step await cap m = some t) :
    Traced.Faithful await msgs t := by
  cases m with
  | work =>
      obtain ⟨u, hu, rfl⟩ := Option.map_eq_some_iff.1 h
      obtain ⟨_, next, hawait, rfl⟩ := (work_eq_some await).1 hu
      refine ⟨hs.initial, hs.gone, fun hcut hrefused => ?_⟩
      obtain ⟨todo, hall, htodo⟩ := hs.script hcut hrefused
      exact ⟨todo, hall, htodo.of_work await hawait⟩
  | send =>
      obtain ⟨u, hu, rfl⟩ := Option.map_eq_some_iff.1 h
      obtain ⟨hcut, a, next, refused, hawait, ⟨hgone, rfl⟩ | ⟨hthere, rfl⟩⟩ :=
        send_cases await hu
      · rw [if_pos hgone]
        exact ⟨hs.initial, fun _ => hgone, fun _ hrefused => by cases hrefused⟩
      · -- the receiver is there, so nothing has been refused yet
        have hnot : s.refused = false := by
          cases hrefused : s.refused with
          | false => rfl
          | true => cases hthere.symm.trans (hs.gone hrefused)
        obtain ⟨todo, hall, htodo⟩ := hs.script hcut hnot
        obtain ⟨rest, rfl, hrest⟩ := htodo.of_send await hawait
        have hsent : s.sent ++ (await s.feed.task).offer.toList ++ rest = msgs := by
          simpa [hawait, Await.offer] using hall
        rw [if_neg (by simp [hthere])]
        exact ⟨⟨rest, hsent⟩, hs.gone, fun _ _ => ⟨rest, hsent, hrest⟩⟩
  | recv =>
      obtain ⟨⟨r, u⟩, hu, rfl⟩ := Option.map_eq_some_iff.1 h
      obtain ⟨_, ⟨a, buf, _, _, rfl⟩ | ⟨_, _, _, rfl⟩⟩ := recv_cases await hu
      · exact ⟨hs.initial, hs.gone, hs.script⟩
      · exact ⟨hs.initial, hs.gone, hs.script⟩
  | drop =>
      obtain rfl := Option.some.inj h
      exact ⟨hs.initial, fun _ => rfl, hs.script⟩
  | cutOff =>
      obtain rfl := Option.some.inj h
      refine ⟨hs.initial, hs.gone, fun hcut hrefused => ?_⟩
      simp only [State.cutOff, Bool.or_eq_false_iff] at hcut
      exact hs.script hcut.1 hrefused

theorem run_faithful {cap : Nat} {k : κ} {ms : List Move} {s : Traced κ α}
    (hk : Sends await k msgs)
    (hrun : Transition.run (Traced.step await cap) (Traced.start k) ms = some s) :
    Traced.Faithful await msgs s :=
  Transition.run_invariant (fun _ _ _ hs h => hs.step await h)
    (Traced.faithful_start await hk) hrun

/-- A process that has returned, and was neither refused nor cut off, has sent
everything. -/
theorem Traced.Faithful.sent_eq {s : Traced κ α} (hs : Traced.Faithful await msgs s)
    (hdone : (await s.feed.task).isDone = true) (hcut : s.feed.cut = false)
    (hrefused : s.refused = false) : s.sent = msgs := by
  obtain ⟨todo, hall, htodo⟩ := hs.script hcut hrefused
  rw [← hall, htodo.of_done await hdone, List.append_nil]

end Moves

end Feed
