import OxideHttp.Lib.Transition
import Mathlib.Algebra.Order.Ring.Nat
import Mathlib.Tactic.Common

/-!
# The idle watchdog (`src/idle.rs`)

`watch_idle` beside the activity marker of its connection, on a clock in nanoseconds.
Events fall on whole milliseconds, and a sleep ends on time: the clock does not pass the
moment at which the watchdog is due.  The watchdog reads the two shared values one after the
other, and other events may come in between.

`loaded`, `touches`, `lastEnd` and `started` are kept for the statements; the code does not
have them.

Results.
* `Timed`: what holds of the clock, the marker and the watchdog in every run.
* `watch_exact`: the watchdog does not return early, and it returns by the deadline.
* `late_by_a_fraction`: a run in which it returns after the deadline, by less than a
  millisecond.
-/

namespace OxideHttp
namespace Idle

open Transition

/-- Nanoseconds in a millisecond. -/
def milli : Nat := 1000000

/-- `poll_step`. -/
def pollStep (idle : Nat) : Nat := max (50 * milli) (min (5000 * milli) (idle / 10))

/-- Where `watch_idle` stands. -/
inductive Watch where
  /-- it has not been called -/
  | off
  /-- it is about to load `in_flight` -/
  | loading
  /-- there was no request, and it is about to ask `idle_for` -/
  | measuring
  | sleeping (wake : Nat)
  | returned
  deriving DecidableEq, Repr

structure State where
  /-- nanoseconds since `base` -/
  now : Nat
  /-- `last_ms` -/
  lastMs : Nat
  /-- `in_flight` -/
  inFlight : Nat
  watch : Watch
  /-- what the last check has found in flight -/
  loaded : Nat
  /-- when there was activity, the last time first -/
  touches : List Nat
  /-- when the last request ended -/
  lastEnd : Option Nat
  /-- when `watch_idle` was called -/
  started : Nat
  deriving DecidableEq, Repr

def State.init : State where
  now := 0
  lastMs := 0
  inFlight := 0
  watch := .off
  loaded := 0
  touches := []
  lastEnd := none
  started := 0

inductive Label where
  | elapse (ns : Nat)
  /-- a read or a write is polled; the number of bytes where it is ready and no error -/
  | io (bytes : Option Nat)
  /-- `request_guard` -/
  | request
  /-- a guard is dropped -/
  | respond
  /-- `watch_idle` is called -/
  | watch
  | wake
  | load
  | measure
  deriving DecidableEq, Repr

/-- The labels of the clock and the watchdog. -/
def Label.waits : Label → Bool
  | .elapse _ | .wake | .load | .measure => true
  | .io _ | .request | .respond | .watch => false

/-- `touch`. -/
def State.touch (s : State) : State :=
  { s with lastMs := s.now / milli, touches := s.now :: s.touches }

/-- `idle_for`. -/
def State.idleFor (s : State) : Nat := (s.now / milli - s.lastMs) * milli

/-- `ActivityIo`: only bytes count. -/
def State.io (s : State) : Option Nat → State
  | some (_ + 1) => s.touch
  | some 0 | none => s

/-- `watch_idle`, from the load of `in_flight`. -/
def State.load (idle : Nat) (s : State) : State :=
  { s with loaded := s.inFlight,
           watch := if 0 < s.inFlight then .sleeping (s.now + pollStep idle) else .measuring }

/-- `watch_idle`, from its call of `idle_for`. -/
def State.measure (idle : Nat) (s : State) : State :=
  { s with watch := if idle ≤ s.idleFor then .returned
                    else .sleeping (s.now + (idle - s.idleFor)) }

/-- How long the clock may go on before the watchdog has to act. -/
def State.mayElapse (s : State) (ns : Nat) : Bool :=
  match s.watch with
  | .off => true
  | .sleeping wake => s.now + ns ≤ wake
  | .loading | .measuring | .returned => false

/-- The connection is dropped when the watchdog returns. -/
def step (idle : Nat) (s : State) : Label → Option State
  | .elapse ns => if s.mayElapse ns then some { s with now := s.now + ns } else none
  | .io bytes =>
      if s.watch ≠ .returned ∧ s.now % milli = 0 then some (s.io bytes) else none
  | .request =>
      if s.watch ≠ .returned ∧ s.now % milli = 0 then
        some { s with inFlight := s.inFlight + 1 }
      else none
  | .respond =>
      if s.watch ≠ .returned ∧ s.now % milli = 0 ∧ 0 < s.inFlight then
        some { s with inFlight := s.inFlight - 1, lastEnd := some s.now }
      else none
  | .watch =>
      if s.watch = .off ∧ s.now % milli = 0 then
        some { s with watch := .loading, started := s.now }
      else none
  | .wake => if s.watch = .sleeping s.now then some { s with watch := .loading } else none
  | .load => if s.watch = .loading then some (s.load idle) else none
  | .measure => if s.watch = .measuring then some (s.measure idle) else none

/-! ## The deadline -/

/-- When there was activity last; the marker starts with its connection. -/
def State.lastActivity (s : State) : Nat := s.touches.headD 0

/-- The later one of `idle` after the last activity and `poll_step` after the last request;
not before the watchdog starts. -/
def State.deadline (idle : Nat) (s : State) : Nat :=
  max (max (s.lastActivity + idle) s.started) (s.lastEnd.elim 0 (· + pollStep idle))

/-- What the marker's whole milliseconds may cost. -/
def slack (idle : Nat) : Nat := if milli ∣ idle ∧ milli ∣ pollStep idle then 0 else milli - 1

/-- When the watchdog acts next. -/
def State.horizon (s : State) : Nat :=
  match s.watch with
  | .sleeping wake => wake
  | .off | .loading | .measuring | .returned => s.now

variable {idle : Nat} {s t : State} {l : Label}

theorem activity_le_deadline : s.lastActivity + idle ≤ s.deadline idle :=
  le_trans (le_max_left _ _) (le_max_left _ _)

theorem started_le_deadline : s.started ≤ s.deadline idle :=
  le_trans (le_max_right _ _) (le_max_left _ _)

theorem end_le_deadline {r : Nat} (h : s.lastEnd = some r) :
    r + pollStep idle ≤ s.deadline idle := by
  rw [State.deadline, h]
  exact le_max_right _ _

/-- The deadline moves with what it is counted from. -/
theorem deadline_mono (hactivity : s.lastActivity ≤ t.lastActivity)
    (hstarted : s.started ≤ t.started)
    (hend : ∀ r ∈ s.lastEnd, ∃ r' ∈ t.lastEnd, r ≤ r') :
    s.deadline idle ≤ t.deadline idle := by
  refine max_le (max_le ?_ ?_) ?_
  · exact le_trans (Nat.add_le_add_right hactivity idle) activity_le_deadline
  · exact le_trans hstarted started_le_deadline
  · cases hlast : s.lastEnd with
    | none => exact Nat.zero_le _
    | some r =>
        obtain ⟨r', hr', hle⟩ := hend r hlast
        exact le_trans (Nat.add_le_add_right hle _) (end_le_deadline hr')

theorem milli_dvd_of_slack (h : slack idle = 0) : milli ∣ idle ∧ milli ∣ pollStep idle := by
  by_contra hno
  rw [slack, if_neg hno] at h
  exact absurd h (by decide)

theorem mod_le_slack {n : Nat} (h : slack idle = 0 → milli ∣ n) : n % milli ≤ slack idle := by
  by_cases hslack : slack idle = 0
  · rw [Nat.mod_eq_zero_of_dvd (h hslack)]
    exact Nat.zero_le _
  · have hmod : n % milli < milli := Nat.mod_lt n (by decide)
    have hfull : slack idle = milli - 1 := by
      rw [slack] at hslack ⊢
      split at hslack
      · exact absurd rfl hslack
      · rw [if_neg ‹_›]
    omega

/-! ## What holds in every run -/

/-- The watchdog sleeps to the deadline at most, or there is a request and it sleeps for one
`poll_step` at most. -/
structure Timed (idle : Nat) (s : State) : Prop where
  marker : s.lastMs * milli = s.lastActivity
  past : s.lastActivity ≤ s.now
  latest : ∀ a ∈ s.touches, a ≤ s.lastActivity
  ended : ∀ r ∈ s.lastEnd, r ≤ s.now
  ahead : s.now ≤ s.horizon
  whole : slack idle = 0 → s.watch ≠ .off → milli ∣ s.horizon
  due : s.watch ≠ .off → s.horizon ≤ s.deadline idle + slack idle ∨
    0 < s.inFlight ∧ s.horizon ≤ s.now + pollStep idle
  clear : s.watch = .measuring ∨ s.watch = .returned → s.loaded = 0
  quiet : s.watch = .returned → s.lastActivity + idle ≤ s.now

theorem timed_init : Timed idle State.init where
  marker := rfl
  past := le_rfl
  latest := nofun
  ended := nofun
  ahead := le_rfl
  whole _ h := absurd rfl h
  due h := absurd rfl h
  clear := by simp [State.init]
  quiet := nofun

/-- An event that is none for the watchdog: it keeps the clock and what the watchdog does, and
moves the deadline at most. -/
theorem Timed.event (hs : Timed idle s) (hnow : t.now = s.now) (hwatch : t.watch = s.watch)
    (hloaded : t.loaded = s.loaded) (hreturned : s.watch ≠ .returned)
    (hmarker : t.lastMs * milli = t.lastActivity) (hpast : t.lastActivity ≤ t.now)
    (hlatest : ∀ a ∈ t.touches, a ≤ t.lastActivity) (hended : ∀ r ∈ t.lastEnd, r ≤ t.now)
    (hdeadline : s.deadline idle ≤ t.deadline idle)
    (hflight : 0 < s.inFlight → 0 < t.inFlight ∨ t.lastEnd = some s.now) : Timed idle t where
  marker := hmarker
  past := hpast
  latest := hlatest
  ended := hended
  ahead := by
    rw [State.horizon, hwatch, hnow]
    exact hs.ahead
  whole hslack hoff := by
    rw [State.horizon, hwatch, hnow]
    exact hs.whole hslack (hwatch ▸ hoff)
  due hoff := by
    rw [State.horizon, hwatch, hnow]
    change s.horizon ≤ _ ∨ _ ∧ s.horizon ≤ _
    rcases hs.due (hwatch ▸ hoff) with hdue | ⟨hflying, hpoll⟩
    · exact Or.inl (by omega)
    · rcases hflight hflying with hflying | hend
      · exact Or.inr ⟨hflying, hpoll⟩
      · have hpolled : s.now + pollStep idle ≤ t.deadline idle := end_le_deadline hend
        exact Or.inl (by omega)
  clear h := by
    rw [hwatch] at h
    rw [hloaded]
    exact hs.clear h
  quiet h := absurd (hwatch ▸ h) hreturned

theorem Timed.touch (hs : Timed idle s) (hreturned : s.watch ≠ .returned)
    (htick : s.now % milli = 0) : Timed idle s.touch := by
  have hmarker : s.now / milli * milli = s.now :=
    Nat.div_mul_cancel (Nat.dvd_of_mod_eq_zero htick)
  refine hs.event rfl rfl rfl hreturned hmarker le_rfl ?_ hs.ended ?_ Or.inl
  · intro a ha
    rcases List.mem_cons.1 ha with rfl | ha
    · exact le_rfl
    · exact le_trans (hs.latest a ha) hs.past
  · exact deadline_mono hs.past le_rfl fun r hr => ⟨r, hr, le_rfl⟩

theorem Timed.request (hs : Timed idle s) (hreturned : s.watch ≠ .returned) :
    Timed idle { s with inFlight := s.inFlight + 1 } :=
  hs.event rfl rfl rfl hreturned hs.marker hs.past hs.latest hs.ended le_rfl
    fun _ => Or.inl (Nat.succ_pos _)

theorem Timed.respond (hs : Timed idle s) (hreturned : s.watch ≠ .returned) :
    Timed idle { s with inFlight := s.inFlight - 1, lastEnd := some s.now } := by
  refine hs.event rfl rfl rfl hreturned hs.marker hs.past hs.latest ?_ ?_ fun _ => Or.inr rfl
  · rintro r ⟨⟩
    exact le_rfl
  · exact deadline_mono le_rfl le_rfl fun r hr => ⟨s.now, rfl, hs.ended r hr⟩

/-- While the clock goes on, what the watchdog waits for stays. -/
theorem horizon_elapse {ns : Nat} (h : s.mayElapse ns = true) (hoff : s.watch ≠ .off) :
    s.now + ns ≤ s.horizon ∧ ({ s with now := s.now + ns } : State).horizon = s.horizon := by
  simp only [State.mayElapse] at h
  simp only [State.horizon]
  split at h
  case h_1 hwatch => exact absurd hwatch hoff
  case h_2 wake hwatch => exact ⟨by rw [hwatch]; exact of_decide_eq_true h, by rw [hwatch]⟩
  all_goals cases h

theorem Timed.elapse (hs : Timed idle s) {ns : Nat} (h : s.mayElapse ns = true) :
    Timed idle { s with now := s.now + ns } where
  marker := hs.marker
  past := Nat.le_add_right_of_le hs.past
  latest := hs.latest
  ended r hr := Nat.le_add_right_of_le (hs.ended r hr)
  ahead := by
    by_cases hoff : s.watch = .off
    · simp [State.horizon, hoff]
    · obtain ⟨hle, hsame⟩ := horizon_elapse h hoff
      rw [hsame]
      exact hle
  whole hslack hoff := by
    rw [(horizon_elapse h hoff).2]
    exact hs.whole hslack hoff
  due hoff := by
    rw [(horizon_elapse h hoff).2]
    exact (hs.due hoff).imp_right fun ⟨hflying, hpoll⟩ =>
      ⟨hflying, le_trans hpoll (Nat.add_le_add_right (Nat.le_add_right _ _) _)⟩
  clear := hs.clear
  quiet hreturned := by
    change s.watch = .returned at hreturned
    simp [State.mayElapse, hreturned] at h

theorem Timed.called (hs : Timed idle s) (htick : s.now % milli = 0) :
    Timed idle { s with watch := .loading, started := s.now } where
  marker := hs.marker
  past := hs.past
  latest := hs.latest
  ended := hs.ended
  ahead := le_rfl
  whole _ _ := Nat.dvd_of_mod_eq_zero htick
  due _ := by
    have hstarted : s.now ≤ ({ s with watch := .loading, started := s.now } : State).deadline idle :=
      started_le_deadline (s := { s with watch := .loading, started := s.now })
    exact Or.inl (Nat.le_add_right_of_le hstarted)
  clear := by simp
  quiet := nofun

theorem Timed.wake (hs : Timed idle s) (h : s.watch = .sleeping s.now) :
    Timed idle { s with watch := .loading } where
  marker := hs.marker
  past := hs.past
  latest := hs.latest
  ended := hs.ended
  ahead := le_rfl
  whole hslack _ := by
    have hwhole := hs.whole hslack (by simp [h])
    rw [State.horizon, h] at hwhole
    exact hwhole
  due _ := by
    have hdue := hs.due (by simp [h])
    rw [State.horizon, h] at hdue
    exact hdue
  clear := by simp
  quiet := nofun

/-- The watchdog goes to sleep. -/
theorem Timed.sleep (hs : Timed idle s) {loaded wake : Nat} (hahead : s.now ≤ wake)
    (hwhole : slack idle = 0 → milli ∣ wake)
    (hdue : wake ≤ s.deadline idle + slack idle ∨
      0 < s.inFlight ∧ wake ≤ s.now + pollStep idle) :
    Timed idle { s with loaded := loaded, watch := .sleeping wake } where
  marker := hs.marker
  past := hs.past
  latest := hs.latest
  ended := hs.ended
  ahead := hahead
  whole hslack _ := hwhole hslack
  due _ := hdue
  clear := by simp
  quiet := nofun

theorem Timed.load (hs : Timed idle s) (h : s.watch = .loading) : Timed idle (s.load idle) := by
  have hhorizon : s.horizon = s.now := by rw [State.horizon, h]
  have hoff : s.watch ≠ .off := by simp [h]
  by_cases hflying : 0 < s.inFlight
  · rw [State.load, if_pos hflying]
    refine hs.sleep (Nat.le_add_right _ _) (fun hslack => ?_) (Or.inr ⟨hflying, le_rfl⟩)
    have hwhole := hs.whole hslack hoff
    rw [hhorizon] at hwhole
    exact Nat.dvd_add hwhole (milli_dvd_of_slack hslack).2
  · rw [State.load, if_neg hflying]
    refine ⟨hs.marker, hs.past, hs.latest, hs.ended, le_rfl, ?_, ?_, ?_, nofun⟩
    · exact fun hslack _ => hhorizon ▸ hs.whole hslack hoff
    · intro _
      have hdue := hs.due hoff
      rw [hhorizon] at hdue
      exact hdue
    · exact fun _ => Nat.eq_zero_of_not_pos hflying

/-- The whole milliseconds since the last activity, and what is left of them. -/
theorem Timed.idleFor (hs : Timed idle s) :
    s.lastActivity + s.idleFor + s.now % milli = s.now := by
  have hle : s.lastMs ≤ s.now / milli := by
    rw [Nat.le_div_iff_mul_le (by decide), hs.marker]
    exact hs.past
  have hdiv : s.now / milli * milli + s.now % milli = s.now := Nat.div_add_mod' s.now milli
  have hsub : s.lastMs * milli + s.idleFor = s.now / milli * milli := by
    rw [State.idleFor, ← Nat.add_mul, Nat.add_sub_cancel' hle]
  rw [← hs.marker, hsub, hdiv]

theorem milli_dvd_idleFor (s : State) : milli ∣ s.idleFor := by
  rw [State.idleFor]
  exact Nat.dvd_mul_left milli _

theorem Timed.measure (hs : Timed idle s) (h : s.watch = .measuring) :
    Timed idle (s.measure idle) := by
  have hhorizon : s.horizon = s.now := by rw [State.horizon, h]
  have hoff : s.watch ≠ .off := by simp [h]
  have hidle := hs.idleFor
  by_cases hquiet : idle ≤ s.idleFor
  · rw [State.measure, if_pos hquiet]
    have hdue := hs.due hoff
    rw [hhorizon] at hdue
    refine ⟨hs.marker, hs.past, hs.latest, hs.ended, le_rfl, ?_, fun _ => hdue,
      fun _ => hs.clear (Or.inl h), fun _ => ?_⟩
    · exact fun hslack _ => hhorizon ▸ hs.whole hslack hoff
    · change s.lastActivity + idle ≤ s.now
      omega
  · rw [State.measure, if_neg hquiet]
    have hdvd := milli_dvd_idleFor s
    -- it sleeps to the end of the window, and the rest of the millisecond
    obtain ⟨rest, hrest⟩ : ∃ rest, rest = idle - s.idleFor := ⟨_, rfl⟩
    rw [← hrest]
    refine hs.sleep (Nat.le_add_right _ _) (fun hslack => ?_) (Or.inl ?_)
    · have hnow := hs.whole hslack hoff
      rw [hhorizon] at hnow
      rw [hrest]
      exact Nat.dvd_add hnow (Nat.dvd_sub (milli_dvd_of_slack hslack).1 hdvd)
    · have hmod : s.now % milli ≤ slack idle :=
        mod_le_slack fun hslack => hhorizon ▸ hs.whole hslack hoff
      have hactivity : s.lastActivity + idle ≤ s.deadline idle := activity_le_deadline
      omega

theorem timed_step (hs : Timed idle s) (h : step idle s l = some t) : Timed idle t := by
  cases l with
  | elapse ns =>
      obtain ⟨hmay, h⟩ := Option.ite_none_right_eq_some.1 h
      obtain rfl := Option.some.inj h
      exact hs.elapse hmay
  | io bytes =>
      obtain ⟨⟨hreturned, htick⟩, h⟩ := Option.ite_none_right_eq_some.1 h
      obtain rfl := Option.some.inj h
      cases bytes with
      | none => exact hs
      | some n =>
          cases n with
          | zero => exact hs
          | succ n => exact hs.touch hreturned htick
  | request =>
      obtain ⟨⟨hreturned, -⟩, h⟩ := Option.ite_none_right_eq_some.1 h
      obtain rfl := Option.some.inj h
      exact hs.request hreturned
  | respond =>
      obtain ⟨⟨hreturned, -⟩, h⟩ := Option.ite_none_right_eq_some.1 h
      obtain rfl := Option.some.inj h
      exact hs.respond hreturned
  | watch =>
      obtain ⟨⟨-, htick⟩, h⟩ := Option.ite_none_right_eq_some.1 h
      obtain rfl := Option.some.inj h
      exact hs.called htick
  | wake =>
      obtain ⟨hwake, h⟩ := Option.ite_none_right_eq_some.1 h
      obtain rfl := Option.some.inj h
      exact hs.wake hwake
  | load =>
      obtain ⟨hload, h⟩ := Option.ite_none_right_eq_some.1 h
      obtain rfl := Option.some.inj h
      exact hs.load hload
  | measure =>
      obtain ⟨hmeasure, h⟩ := Option.ite_none_right_eq_some.1 h
      obtain rfl := Option.some.inj h
      exact hs.measure hmeasure

/-! ## Without events -/

/-- No event has happened between the two states. -/
structure Undisturbed (s t : State) : Prop where
  inFlight : t.inFlight = s.inFlight
  touches : t.touches = s.touches
  lastEnd : t.lastEnd = s.lastEnd
  started : t.started = s.started

theorem Undisturbed.deadline (h : Undisturbed s t) : t.deadline idle = s.deadline idle := by
  rw [State.deadline, State.deadline, State.lastActivity, State.lastActivity, h.touches,
    h.lastEnd, h.started]

theorem undisturbed_step (hl : l.waits = true) (h : step idle s l = some t) :
    Undisturbed s t := by
  cases l with
  | elapse ns =>
      obtain ⟨-, h⟩ := Option.ite_none_right_eq_some.1 h
      obtain rfl := Option.some.inj h
      exact ⟨rfl, rfl, rfl, rfl⟩
  | wake =>
      obtain ⟨-, h⟩ := Option.ite_none_right_eq_some.1 h
      obtain rfl := Option.some.inj h
      exact ⟨rfl, rfl, rfl, rfl⟩
  | load =>
      obtain ⟨-, h⟩ := Option.ite_none_right_eq_some.1 h
      obtain rfl := Option.some.inj h
      exact ⟨rfl, rfl, rfl, rfl⟩
  | measure =>
      obtain ⟨-, h⟩ := Option.ite_none_right_eq_some.1 h
      obtain rfl := Option.some.inj h
      exact ⟨rfl, rfl, rfl, rfl⟩
  | io bytes => cases hl
  | request => cases hl
  | respond => cases hl
  | watch => cases hl

theorem undisturbed_run {ls : List Label} (hls : ∀ l ∈ ls, l.waits = true)
    (h : run (step idle) s ls = some t) : Undisturbed s t := by
  induction ls generalizing s with
  | nil =>
      obtain rfl := Option.some.inj h
      exact ⟨rfl, rfl, rfl, rfl⟩
  | cons l ls ih =>
      obtain ⟨u, hu, hut⟩ := run_cons_some.1 h
      have hstep := undisturbed_step (hls l (List.mem_cons_self ..)) hu
      have hrest := ih (fun m hm => hls m (List.mem_cons_of_mem _ hm)) hut
      exact ⟨hrest.inFlight.trans hstep.inFlight, hrest.touches.trans hstep.touches,
        hrest.lastEnd.trans hstep.lastEnd, hrest.started.trans hstep.started⟩

/-- Without a request the time is not up while the watchdog has not returned. -/
theorem Timed.in_time (hs : Timed idle s) (hoff : s.watch ≠ .off) (hflight : s.inFlight = 0) :
    s.horizon ≤ s.deadline idle + slack idle := by
  rcases hs.due hoff with hdue | ⟨hflying, -⟩
  · exact hdue
  · omega

/-- The watchdog wakes up and finds no request. -/
theorem reaches_measuring (hs : Timed idle s) (hoff : s.watch ≠ .off)
    (hreturned : s.watch ≠ .returned) (hflight : s.inFlight = 0) :
    ∃ ls t, (∀ l ∈ ls, l.waits = true) ∧ run (step idle) s ls = some t ∧
      t.watch = .measuring := by
  cases hwatch : s.watch with
  | off => exact absurd hwatch hoff
  | returned => exact absurd hwatch hreturned
  | measuring => exact ⟨[], s, nofun, rfl, hwatch⟩
  | loading =>
      refine ⟨[.load], s.load idle, by simp [Label.waits], by simp [step, hwatch], ?_⟩
      simp [State.load, hflight]
  | sleeping wake =>
      have hahead := hs.ahead
      rw [State.horizon, hwatch] at hahead
      have hsum : s.now + (wake - s.now) = wake := Nat.add_sub_cancel' hahead
      refine ⟨[.elapse (wake - s.now), .wake, .load],
        { s with now := wake, watch := .measuring, loaded := 0 }, by simp [Label.waits], ?_, rfl⟩
      simp [step, State.mayElapse, State.load, hwatch, hsum, hflight]

/-- The window is over after finitely many looks at it. -/
theorem returns_from_measuring {n : Nat} (hs : Timed idle s) (hwatch : s.watch = .measuring)
    (hflight : s.inFlight = 0) (hn : s.deadline idle + slack idle + 1 - s.now ≤ n) :
    ∃ ls t, (∀ l ∈ ls, l.waits = true) ∧ run (step idle) s ls = some t ∧
      t.watch = .returned := by
  induction n generalizing s with
  | zero =>
      have hahead := hs.ahead
      have htime := hs.in_time (by simp [hwatch]) hflight
      omega
  | succ n ih =>
      by_cases hquiet : idle ≤ s.idleFor
      · refine ⟨[.measure], s.measure idle, by simp [Label.waits], by simp [step, hwatch], ?_⟩
        simp [State.measure, hquiet]
      · -- it sleeps for the rest of the window, and time goes on
        obtain ⟨rest, hrest⟩ : ∃ rest, rest = idle - s.idleFor := ⟨_, rfl⟩
        have hmeasure : s.measure idle = { s with watch := .sleeping (s.now + rest) } := by
          rw [State.measure, if_neg hquiet, hrest]
        obtain ⟨ls, hls⟩ : ∃ ls : List Label, ls = [.measure, .elapse rest, .wake, .load] :=
          ⟨_, rfl⟩
        have hwaits : ∀ l ∈ ls, l.waits = true := by simp [hls, Label.waits]
        have hrun : run (step idle) s ls = some
            { s with now := s.now + rest, watch := .measuring, loaded := 0 } := by
          simp [hls, step, hmeasure, State.mayElapse, State.load, hwatch, hflight]
        have hkept := run_invariant (I := Timed idle) (fun _ _ _ => timed_step) hs hrun
        have hdeadline : State.deadline idle _ = s.deadline idle :=
          (undisturbed_run hwaits hrun).deadline
        obtain ⟨ms, t, hms, hms', ht⟩ := ih hkept rfl hflight (by rw [hdeadline]; dsimp; omega)
        refine ⟨ls ++ ms, t, ?_, run_append_some.2 ⟨_, hrun, hms'⟩, ht⟩
        intro l hl
        rcases List.mem_append.1 hl with hl | hl
        · exact hwaits l hl
        · exact hms l hl

theorem returns (hs : Timed idle s) (hoff : s.watch ≠ .off) (hflight : s.inFlight = 0) :
    ∃ ls t, (∀ l ∈ ls, l.waits = true) ∧ run (step idle) s ls = some t ∧
      t.watch = .returned := by
  by_cases hreturned : s.watch = .returned
  · exact ⟨[], s, nofun, rfl, hreturned⟩
  · obtain ⟨ls, t, hls, hrun, hwatch⟩ := reaches_measuring hs hoff hreturned hflight
    have hkept := run_invariant (I := Timed idle) (fun _ _ _ => timed_step) hs hrun
    have hflight' := (undisturbed_run hls hrun).inFlight.trans hflight
    obtain ⟨ms, u, hms, hrun', hu⟩ := returns_from_measuring hkept hwatch hflight' le_rfl
    refine ⟨ls ++ ms, u, ?_, run_append_some.2 ⟨t, hrun, hrun'⟩, hu⟩
    intro l hl
    rcases List.mem_append.1 hl with hl | hl
    · exact hls l hl
    · exact hms l hl

/-! ## The watchdog -/

/-- When the watchdog returns, it has found no request, and there was no activity for `idle`.
Without a request the clock does not pass the deadline, by more than a part of a millisecond
where `idle` or `poll_step` is not whole, before the watchdog returns; and it does return. -/
theorem watch_exact {ls : List Label} (hrun : run (step idle) State.init ls = some s) :
    (s.watch = .returned → s.loaded = 0 ∧ s.lastActivity + idle ≤ s.now ∧
        ∀ a ∈ s.touches, a + idle ≤ s.now) ∧
      (s.watch ≠ .off → s.inFlight = 0 → s.now ≤ s.deadline idle + slack idle) ∧
      (s.watch ≠ .off → s.inFlight = 0 →
        ∃ ms t, (∀ l ∈ ms, l.waits = true) ∧ run (step idle) s ms = some t ∧
          t.watch = .returned ∧ t.now ≤ s.deadline idle + slack idle) := by
  have hs : Timed idle s := run_invariant (fun _ _ _ => timed_step) timed_init hrun
  refine ⟨fun hreturned => ?_, fun hoff hflight => ?_, fun hoff hflight => ?_⟩
  · have hquiet := hs.quiet hreturned
    exact ⟨hs.clear (Or.inr hreturned), hquiet,
      fun a ha => le_trans (Nat.add_le_add_right (hs.latest a ha) idle) hquiet⟩
  · exact le_trans hs.ahead (hs.in_time hoff hflight)
  · obtain ⟨ms, t, hms, hrun', ht⟩ := returns hs hoff hflight
    have hkept := run_invariant (I := Timed idle) (fun _ _ _ => timed_step) hs hrun'
    have hsame := undisturbed_run hms hrun'
    refine ⟨ms, t, hms, hrun', ht, ?_⟩
    rw [← hsame.deadline]
    exact le_trans hkept.ahead
      (hkept.in_time (by simp [ht]) (hsame.inFlight.trans hflight))

/-- A window of 555 ms: the request that is in flight at the first check ends with the last
activity at 10 ms, and the next check comes at 55.5 ms. -/
def fractionalPoll : List Label :=
  [.watch, .request, .load, .elapse (10 * milli), .io (some 1), .respond, .elapse 45500000,
    .wake, .load, .measure, .elapse (510 * milli), .wake, .load, .measure]

/-- The watchdog has returned at 565.5 ms. -/
def afterFractionalPoll : State where
  now := 565500000
  lastMs := 10
  inFlight := 0
  watch := .returned
  loaded := 0
  touches := [10000000]
  lastEnd := some 10000000
  started := 0

theorem run_fractionalPoll :
    run (step (555 * milli)) State.init fractionalPoll = some afterFractionalPoll := by
  decide

theorem watch_exact_fractionalPoll :
    afterFractionalPoll.now ≤
      afterFractionalPoll.deadline (555 * milli) + slack (555 * milli) :=
  (watch_exact run_fractionalPoll).2.1 (by decide) (by decide)

theorem late_by_a_fraction :
    ¬ ∀ idle ls s, run (step idle) State.init ls = some s → s.watch ≠ .off → s.inFlight = 0 →
      s.now ≤ s.deadline idle := by
  intro h
  have hlate := h (555 * milli) fractionalPoll afterFractionalPoll run_fractionalPoll
    (by decide) (by decide)
  revert hlate
  decide

end Idle
end OxideHttp
