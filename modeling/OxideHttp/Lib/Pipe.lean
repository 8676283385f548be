import Mathlib.Data.List.Basic
import Mathlib.Tactic.Common

/-!
# A bounded channel between one sender and one receiver

The sender is a task that sends a fixed list of messages and then drops its end;
a send waits while the buffer is full and fails when the receiver is gone.  The
receiver takes one message at a time, and learns that there are no more when the
buffer is empty and the sender is gone.

This file gives

* `Sound`: what has been received is an initial part of the messages, and all of
  them once the end was reported; every move keeps it (`send_sound`,
  `close_sound`, `recv_sound`, `drop_sound`), and a sender that is cut off is one
  with fewer messages (`Sound.cut`);
* `send_frame`, `close_frame`, `recv_cases`: what a move does to the receiver;
* `left`: what the receiver has still to take, while it is there (`Open`): `send_left`,
  `close_left`, `recv_left`, and `Open.ready`, by which a receive never waits for good.
-/

namespace Pipe

variable {α : Type*}

structure State (α : Type*) where
  /-- what the sender has still to send -/
  todo : List α
  buf : List α
  senderGone : Bool
  receiverGone : Bool
  got : List α
  /-- the receiver has been told that there is nothing more -/
  ended : Bool

/-- A sender that is about to send `msgs`. -/
def State.start (msgs : List α) : State α where
  todo := msgs
  buf := []
  senderGone := false
  receiverGone := false
  got := []
  ended := false

/-- A channel that was filled and closed at once. -/
def State.filled (msgs : List α) : State α where
  todo := []
  buf := msgs
  senderGone := true
  receiverGone := false
  got := []
  ended := false

def State.send (cap : Nat) (s : State α) : Option (State α) :=
  match s.todo with
  | [] => none
  | a :: todo =>
      if s.senderGone then none
      else if s.receiverGone then some { s with todo := [], senderGone := true }
      else if s.buf.length < cap then some { s with todo := todo, buf := s.buf ++ [a] }
      else none

def State.close (s : State α) : Option (State α) :=
  if s.senderGone = false ∧ s.todo = [] then some { s with senderGone := true }
  else none

/-- One receive: a message or the end; `none` while it waits. -/
def State.recv (s : State α) : Option (Option α × State α) :=
  if s.receiverGone then none
  else match s.buf with
    | a :: buf => some (some a, { s with buf := buf, got := s.got ++ [a] })
    | [] => if s.senderGone then some (none, { s with ended := true }) else none

/-- The receiver goes away, with what is still in the buffer. -/
def State.drop (s : State α) : State α :=
  { s with receiverGone := true, buf := [] }

/-! ## What has been received -/

/-- The state of a channel whose messages are `msgs`. -/
structure Sound (msgs : List α) (s : State α) : Prop where
  whole : s.receiverGone = false → s.got ++ s.buf ++ s.todo = msgs
  initial : s.got <+: msgs
  sent : s.senderGone = true → s.receiverGone = false → s.todo = []
  complete : s.ended = true → s.got = msgs

theorem sound_start (msgs : List α) : Sound msgs (State.start msgs) where
  whole := fun _ => rfl
  initial := List.nil_prefix
  sent := fun h => nomatch h
  complete := fun h => nomatch h

theorem sound_filled (msgs : List α) : Sound msgs (State.filled msgs) where
  whole := fun _ => by simp [State.filled]
  initial := List.nil_prefix
  sent := fun _ _ => rfl
  complete := fun h => nomatch h

theorem send_sound {msgs : List α} {cap : Nat} {s t : State α} (hs : Sound msgs s)
    (h : s.send cap = some t) : Sound msgs t := by
  unfold State.send at h
  split at h
  case h_1 => cases h
  case h_2 a todo htodo =>
    split at h
    case isTrue => cases h
    case isFalse hsender =>
      split at h
      case isTrue hreceiver =>
        obtain rfl := Option.some.inj h
        exact
          { whole := fun hr => by simp [hreceiver] at hr
            initial := hs.initial
            sent := fun _ _ => rfl
            complete := hs.complete }
      case isFalse =>
        split at h
        case isFalse => cases h
        case isTrue =>
          obtain rfl := Option.some.inj h
          exact
            { whole := fun hr => by
                have hwhole := hs.whole hr
                rw [htodo] at hwhole
                simpa using hwhole
              initial := hs.initial
              sent := fun hgone => absurd hgone hsender
              complete := hs.complete }

theorem close_sound {msgs : List α} {s t : State α} (hs : Sound msgs s)
    (h : s.close = some t) : Sound msgs t := by
  simp only [State.close, Option.ite_none_right_eq_some] at h
  obtain ⟨⟨_, htodo⟩, h⟩ := h
  obtain rfl := Option.some.inj h
  exact
    { whole := hs.whole
      initial := hs.initial
      sent := fun _ _ => htodo
      complete := hs.complete }

theorem recv_sound {msgs : List α} {s t : State α} {r : Option α} (hs : Sound msgs s)
    (h : s.recv = some (r, t)) : Sound msgs t := by
  simp only [State.recv, Option.ite_none_left_eq_some] at h
  obtain ⟨hreceiver, h⟩ := h
  have hwhole := hs.whole (by simpa using hreceiver)
  split at h
  case h_1 a buf hbuf =>
    obtain ⟨_, rfl⟩ := Prod.mk.inj (Option.some.inj h)
    rw [hbuf] at hwhole
    exact
      { whole := fun _ => by simpa using hwhole
        initial := ⟨buf ++ s.todo, by simpa using hwhole⟩
        sent := hs.sent
        complete := fun hended => by
          have hall := hs.complete hended
          rw [hall] at hwhole
          simp at hwhole }
  case h_2 hbuf =>
    simp only [Option.ite_none_right_eq_some] at h
    obtain ⟨hsender, h⟩ := h
    obtain ⟨_, rfl⟩ := Prod.mk.inj (Option.some.inj h)
    exact
      { whole := hs.whole
        initial := hs.initial
        sent := hs.sent
        complete := fun _ => by
          have htodo := hs.sent hsender (by simpa using hreceiver)
          simpa [hbuf, htodo] using hwhole }

theorem drop_sound {msgs : List α} {s : State α} (hs : Sound msgs s) :
    Sound msgs s.drop where
  whole := fun hr => nomatch hr
  initial := hs.initial
  sent := fun _ hr => nomatch hr
  complete := hs.complete

/-- The sender may leave when it has nothing to send, or when nobody listens. -/
theorem Sound.leave {msgs : List α} {s : State α} {g : Bool} (hs : Sound msgs s)
    (h : g = true → s.receiverGone = false → s.todo = []) :
    Sound msgs { s with senderGone := g } where
  whole := hs.whole
  initial := hs.initial
  sent := h
  complete := hs.complete

/-- Nothing is left in the buffer when the end has been reported. -/
theorem Sound.buf_of_ended {msgs : List α} {s : State α} (hs : Sound msgs s)
    (hthere : s.receiverGone = false) (hended : s.ended = true) : s.buf = [] := by
  have hwhole := hs.whole hthere
  rw [hs.complete hended, List.append_assoc] at hwhole
  simp_all

/-- A sender that is cut off has sent an initial part of its messages. -/
theorem Sound.cut {msgs : List α} {s : State α} (hs : Sound msgs s) :
    ∃ sent, sent <+: msgs ∧ Sound sent { s with todo := [], senderGone := true } := by
  cases hgone : s.receiverGone with
  | true =>
      exact ⟨s.got, hs.initial,
        { whole := fun hr => by cases hr
          initial := List.prefix_rfl
          sent := fun _ _ => rfl
          complete := fun _ => rfl }⟩
  | false =>
      have hwhole := hs.whole hgone
      refine ⟨s.got ++ s.buf, ⟨s.todo, hwhole⟩,
        { whole := fun _ => List.append_nil _
          initial := List.prefix_append _ _
          sent := fun _ _ => rfl
          complete := fun hended => ?_ }⟩
      rw [hs.buf_of_ended hgone hended, List.append_nil]

/-- Sending leaves the receiver alone. -/
theorem send_frame {cap : Nat} {s t : State α} (h : s.send cap = some t) :
    t.got = s.got ∧ t.ended = s.ended := by
  unfold State.send at h
  split at h
  case h_1 => cases h
  case h_2 =>
    repeat' split at h
    all_goals cases h
    all_goals exact ⟨rfl, rfl⟩

theorem close_frame {s t : State α} (h : s.close = some t) :
    t.got = s.got ∧ t.ended = s.ended := by
  simp only [State.close, Option.ite_none_right_eq_some] at h
  obtain rfl := Option.some.inj h.2
  exact ⟨rfl, rfl⟩

/-- A receive yields the next message, or the end. -/
theorem recv_cases {s t : State α} {r : Option α} (h : s.recv = some (r, t)) :
    (∃ a, r = some a ∧ t.got = s.got ++ [a] ∧ t.ended = s.ended) ∨
      (r = none ∧ t.got = s.got ∧ t.ended = true) := by
  simp only [State.recv, Option.ite_none_left_eq_some] at h
  obtain ⟨_, h⟩ := h
  split at h
  case h_1 a buf hbuf =>
    obtain ⟨rfl, rfl⟩ := Prod.mk.inj (Option.some.inj h)
    exact Or.inl ⟨a, rfl, rfl, rfl⟩
  case h_2 hbuf =>
    simp only [Option.ite_none_right_eq_some] at h
    obtain ⟨rfl, rfl⟩ := Prod.mk.inj (Option.some.inj h.2)
    exact Or.inr ⟨rfl, rfl, rfl⟩

/-! ## What is still to come -/

/-- What the receiver has still to take. -/
def State.left (s : State α) : List α := s.buf ++ s.todo

/-- The receiver is there, and the sender does not leave early. -/
structure Open (s : State α) : Prop where
  kept : s.receiverGone = false
  sent : s.senderGone = true → s.todo = []

theorem open_start (msgs : List α) : Open (State.start msgs) where
  kept := rfl
  sent := fun h => nomatch h

theorem send_left {cap : Nat} {s t : State α} (hs : Open s) (h : s.send cap = some t) :
    Open t ∧ t.left = s.left := by
  unfold State.send at h
  split at h
  case h_1 => cases h
  case h_2 a todo htodo =>
    simp only [hs.kept] at h
    split at h
    case isTrue => cases h
    case isFalse hsender =>
      simp only [Bool.false_eq_true, if_false, Option.ite_none_right_eq_some] at h
      obtain rfl := Option.some.inj h.2
      exact ⟨⟨rfl, fun hgone => absurd hgone hsender⟩, by simp [State.left, htodo]⟩

theorem close_left {s t : State α} (hs : Open s) (h : s.close = some t) :
    Open t ∧ t.left = s.left := by
  simp only [State.close, Option.ite_none_right_eq_some] at h
  obtain ⟨⟨_, htodo⟩, h⟩ := h
  obtain rfl := Option.some.inj h
  exact ⟨⟨hs.kept, fun _ => htodo⟩, rfl⟩

theorem recv_left {s t : State α} {r : Option α} (hs : Open s) (h : s.recv = some (r, t)) :
    Open t ∧ s.left = r.toList ++ t.left ∧ (r = none → t.left = []) := by
  simp only [State.recv, hs.kept, Bool.false_eq_true, if_false] at h
  split at h
  case h_1 a buf hbuf =>
    obtain ⟨rfl, rfl⟩ := Prod.mk.inj (Option.some.inj h)
    exact ⟨⟨rfl, hs.sent⟩, by simp [State.left, hbuf], fun hr => nomatch hr⟩
  case h_2 hbuf =>
    simp only [Option.ite_none_right_eq_some] at h
    obtain ⟨rfl, rfl⟩ := Prod.mk.inj (Option.some.inj h.2)
    have hleft : s.left = [] := by simp [State.left, hbuf, hs.sent h.1]
    exact ⟨⟨rfl, hs.sent⟩, rfl, fun _ => hleft⟩

/-- A receive finds a message or the end, at once or after one move of the sender. -/
theorem Open.ready {s : State α} (hs : Open s) {cap : Nat} (hcap : 0 < cap) :
    s.recv.isSome = true ∨ (∃ t, s.send cap = some t ∧ t.recv.isSome = true) ∨
      ∃ t, s.close = some t ∧ t.recv.isSome = true := by
  obtain ⟨todo, buf, senderGone, receiverGone, got, ended⟩ := s
  obtain rfl : receiverGone = false := hs.kept
  cases buf with
  | cons a buf => exact Or.inl rfl
  | nil =>
      cases senderGone with
      | true => exact Or.inl rfl
      | false =>
          cases todo with
          | nil => exact Or.inr (Or.inr ⟨_, rfl, rfl⟩)
          | cons a todo =>
              exact Or.inr (Or.inl ⟨⟨todo, [a], false, false, got, ended⟩,
                by simp [State.send, hcap], rfl⟩)

end Pipe
