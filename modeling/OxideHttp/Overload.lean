import OxideHttp.Lib.Transition

/-!
# The overload limiter (`src/overload.rs`)

`Limiter::acquire` is embedded as a program over its own position: one step per
access to the semaphore or to an atomic, and one step per way the single await
can end.  Any number of calls run at once, and a label of `step` names the call
that moves, so a list of labels is an interleaving.

The tokio semaphore is a counter of free permits.  A waiting call may take a
permit whenever one is free, may time out at any moment, and may be cancelled:
hyper drops the request future when the client goes away, and the await inside
`acquire` is the only place where that future is suspended in this function.

Results.
* `queued_exact`: `queued` counts the calls between their `fetch_add` and their
  `fetch_sub` together with every call that was cancelled while it waited.
* `queued_accounted_iff`: the counter is the number of queued calls throughout
  a run exactly when the run cancels no waiting call.
-/

namespace OxideHttp
namespace Overload

open Transition

/-- Outcome of an attempt to take a slot.  A permit is identified with the call
that holds it. -/
inductive Slot where
  | acquired
  | rejected (retryAfter : Nat)
  deriving DecidableEq, Repr

/-- The tokio semaphore: its free permits, and whether it was closed. -/
structure Semaphore where
  permits : Nat
  closed : Bool
  deriving DecidableEq, Repr

inductive TryAcquireError where
  | closed
  | noPermits
  deriving DecidableEq, Repr

/-- `Semaphore::try_acquire_owned`. -/
def Semaphore.tryAcquireOwned (sem : Semaphore) : Except TryAcquireError Semaphore :=
  if sem.closed then .error .closed
  else if sem.permits = 0 then .error .noPermits
  else .ok { sem with permits := sem.permits - 1 }

/-- The concurrent request limiter.  Times are milliseconds since `base`. -/
structure Limiter where
  sem : Semaphore
  maxQueue : Nat
  queueTimeout : Nat
  queued : UInt64
  retryAfter : Nat
  shedAfter : Option Nat
  saturatedSinceMs : Nat
  deriving DecidableEq, Repr

/-- `Limiter::new`. -/
def Limiter.new (maxConcurrent maxQueue queueTimeout retryAfter : Nat)
    (shedAfter : Option Nat) : Limiter where
  sem := { permits := maxConcurrent, closed := false }
  maxQueue := maxQueue
  queueTimeout := queueTimeout
  queued := 0
  retryAfter := retryAfter
  shedAfter := shedAfter
  saturatedSinceMs := 0

/-- `mark_saturated`: only the first refusal of a streak sets the origin. -/
def Limiter.markSaturated (l : Limiter) (now : Nat) : Limiter :=
  if l.saturatedSinceMs = 0 then { l with saturatedSinceMs := max now 1 } else l

@[simp] theorem Limiter.markSaturated_sem (l : Limiter) (now : Nat) :
    (l.markSaturated now).sem = l.sem := by
  unfold markSaturated
  split <;> rfl

@[simp] theorem Limiter.markSaturated_maxQueue (l : Limiter) (now : Nat) :
    (l.markSaturated now).maxQueue = l.maxQueue := by
  unfold markSaturated
  split <;> rfl

@[simp] theorem Limiter.markSaturated_queued (l : Limiter) (now : Nat) :
    (l.markSaturated now).queued = l.queued := by
  unfold markSaturated
  split <;> rfl

/-- `clear_saturation`. -/
def Limiter.clearSaturation (l : Limiter) : Limiter :=
  { l with saturatedSinceMs := 0 }

/-- `should_shed`. -/
def Limiter.shouldShed (l : Limiter) (now : Nat) : Bool :=
  match l.shedAfter with
  | none => false
  | some threshold =>
      if l.saturatedSinceMs = 0 then false
      else decide (threshold ≤ now - l.saturatedSinceMs)

/-- Where one `acquire()` call stands. -/
inductive AcquirePc where
  /-- before `try_acquire_owned` -/
  | start
  /-- a permit was free; `clear_saturation` is next -/
  | tookPermit
  /-- no permit was free; `mark_saturated` is next -/
  | noPermits
  /-- `max_queue > 0`; `fetch_add` is next -/
  | enqueue
  /-- the queue was full; `fetch_sub` is next -/
  | full
  /-- suspended in `timeout(queue_timeout, acquire_owned())` -/
  | waiting
  /-- the await has ended; `fetch_sub` is next, then `slot` is returned -/
  | leaving (slot : Slot)
  | returned (slot : Slot)
  /-- the permit of a call that had returned `acquired` was dropped -/
  | released
  /-- the future was dropped while it was suspended -/
  | cancelled
  deriving DecidableEq, Repr

/-- The next atomic operation of a call that is not suspended. -/
def Limiter.advance (l : Limiter) (now : Nat) :
    AcquirePc → Option (Limiter × AcquirePc)
  | .start =>
      match l.sem.tryAcquireOwned with
      | .ok sem => some ({ l with sem := sem }, .tookPermit)
      | .error .closed => some (l, .returned (.rejected l.retryAfter))
      | .error .noPermits => some (l, .noPermits)
  | .tookPermit => some (l.clearSaturation, .returned .acquired)
  | .noPermits =>
      some (l.markSaturated now,
        if l.maxQueue = 0 then .returned (.rejected l.retryAfter) else .enqueue)
  | .enqueue =>
      -- `fetch_add` returns the old value, which is the depth compared below
      some ({ l with queued := l.queued + 1 },
        if l.maxQueue ≤ l.queued.toNat then .full else .waiting)
  | .full =>
      some ({ l with queued := l.queued - 1 }, .returned (.rejected l.retryAfter))
  | .leaving slot => some ({ l with queued := l.queued - 1 }, .returned slot)
  | .waiting | .returned _ | .released | .cancelled => none

/-- How the await of a suspended call ends. -/
inductive Wake where
  | permit
  | closed
  | elapsed
  deriving DecidableEq, Repr

def Limiter.wake (l : Limiter) : Wake → Option (Limiter × AcquirePc)
  | .permit =>
      if l.sem.closed = false ∧ 0 < l.sem.permits then
        some ({ l with sem := { l.sem with permits := l.sem.permits - 1 } },
          .leaving .acquired)
      else none
  | .closed => if l.sem.closed then some (l, .leaving (.rejected l.retryAfter)) else none
  | .elapsed => some (l, .leaving (.rejected l.retryAfter))

/-- The limiter, the clock, and every `acquire()` call made so far. -/
structure State where
  lim : Limiter
  now : Nat
  calls : List AcquirePc
  deriving DecidableEq, Repr

inductive Label where
  /-- a new call of `acquire()` -/
  | call
  /-- call `i` performs its next atomic operation -/
  | advance (i : Nat)
  /-- the await of call `i` ends -/
  | wake (i : Nat) (w : Wake)
  /-- the future of call `i` is dropped while it waits -/
  | cancel (i : Nat)
  /-- the permit that call `i` returned is dropped -/
  | drop (i : Nat)
  | tick (ms : Nat)
  deriving DecidableEq, Repr

def State.init (l : Limiter) : State := { lim := l, now := 0, calls := [] }

def State.put (s : State) (i : Nat) (r : Limiter × AcquirePc) : State :=
  { s with lim := r.1, calls := s.calls.set i r.2 }

/-- The state after call `i` has dropped its permit. -/
def State.dropPermit (s : State) (i : Nat) : State :=
  s.put i
    ({ s.lim with sem := { s.lim.sem with permits := s.lim.sem.permits + 1 } },
      .released)

def step (s : State) : Label → Option State
  | .call => some { s with calls := s.calls ++ [.start] }
  | .advance i => do
      let pc ← s.calls[i]?
      let r ← s.lim.advance s.now pc
      return s.put i r
  | .wake i w =>
      if s.calls[i]? = some .waiting then (s.lim.wake w).map (s.put i) else none
  | .cancel i =>
      if s.calls[i]? = some .waiting then some (s.put i (s.lim, .cancelled)) else none
  | .drop i =>
      if s.calls[i]? = some (.returned .acquired) then some (s.dropPermit i) else none
  | .tick ms => some { s with now := s.now + ms }

/-- The call has done its `fetch_add`, and neither its `fetch_sub` nor a
cancellation has happened. -/
def AcquirePc.inQueue : AcquirePc → Bool
  | .full | .waiting | .leaving _ => true
  | _ => false

/-- The call is still in progress. -/
def AcquirePc.live : AcquirePc → Bool
  | .returned _ | .released | .cancelled => false
  | _ => true

def AcquirePc.isCancelled : AcquirePc → Bool
  | .cancelled => true
  | _ => false

/-- Calls counted by the queue. -/
def State.inQueue (s : State) : Nat := s.calls.countP AcquirePc.inQueue

/-- Calls dropped while they waited. -/
def State.cancelled (s : State) : Nat := s.calls.countP AcquirePc.isCancelled

/-- Calls that contribute one unit to `queued`. -/
def AcquirePc.counted (pc : AcquirePc) : Bool :=
  pc.inQueue || pc.isCancelled

/-- No call of `acquire()` is in progress. -/
def State.idle (s : State) : Prop := ∀ pc ∈ s.calls, pc.live = false

/-- The counter is the number of queued calls, in the counter's own width. -/
def Accounted (s : State) : Prop := s.lim.queued = UInt64.ofNat s.inQueue

instance : DecidablePred Accounted := fun s =>
  inferInstanceAs (Decidable (s.lim.queued = UInt64.ofNat s.inQueue))

/-- With no call in progress the counter is zero, and a request that finds no
free permit is let into the queue. -/
def Drained (s : State) : Prop :=
  s.idle → s.lim.queued = 0 ∧
    (0 < s.lim.maxQueue → s.lim.sem.permits = 0 →
      ∃ t, run step s
          [.call, .advance s.calls.length, .advance s.calls.length,
            .advance s.calls.length] = some t ∧
        t.calls[s.calls.length]? = some .waiting)

/-- The step does not drop the future of a call that waits in the queue. -/
def KeepsWaiting (_ : State) (l : Label) : Prop := ∀ i, l ≠ .cancel i

/-! ## What one step does to the counter -/

/-- The units a call adds to the counter. -/
def AcquirePc.units (pc : AcquirePc) : Nat := if pc.counted then 1 else 0

theorem advance_queued {l l' : Limiter} {now : Nat} {pc pc' : AcquirePc}
    (h : l.advance now pc = some (l', pc')) :
    l'.queued + UInt64.ofNat pc.units = l.queued + UInt64.ofNat pc'.units := by
  cases pc with
  | start =>
      simp only [Limiter.advance] at h
      split at h <;> cases h <;> rfl
  | tookPermit => cases h; rfl
  | noPermits =>
      cases h
      rw [Limiter.markSaturated_queued]
      split <;> rfl
  | enqueue =>
      cases h
      split <;> exact UInt64.add_zero _
  | full =>
      cases h
      exact (UInt64.sub_add_cancel _ _).trans (UInt64.add_zero _).symm
  | leaving slot =>
      cases h
      exact (UInt64.sub_add_cancel _ _).trans (UInt64.add_zero _).symm
  | waiting | returned slot | released | cancelled => cases h

/-- How an await ends: at most a permit is taken, and the call is about to leave. -/
theorem wake_cases {l : Limiter} {w : Wake} {r : Limiter × AcquirePc}
    (h : l.wake w = some r) :
    (∃ slot, slot ≠ .acquired ∧ r = (l, .leaving slot)) ∨
      0 < l.sem.permits ∧
        r = ({ l with sem := { l.sem with permits := l.sem.permits - 1 } },
          .leaving .acquired) := by
  cases w with
  | elapsed =>
      obtain rfl := Option.some.inj h
      exact Or.inl ⟨_, by simp, rfl⟩
  | permit =>
      simp only [Limiter.wake] at h
      split at h
      case isTrue hfree => exact Or.inr ⟨hfree.2, (Option.some.inj h).symm⟩
      case isFalse => cases h
  | closed =>
      simp only [Limiter.wake] at h
      split at h
      case isTrue => exact Or.inl ⟨_, by simp, (Option.some.inj h).symm⟩
      case isFalse => cases h

theorem wake_queued {l : Limiter} {w : Wake} {r : Limiter × AcquirePc}
    (h : l.wake w = some r) :
    r.1.queued = l.queued ∧ r.2.inQueue = true ∧ r.2.isCancelled = false := by
  rcases wake_cases h with ⟨slot, -, rfl⟩ | ⟨-, rfl⟩
  · exact ⟨rfl, rfl, rfl⟩
  · exact ⟨rfl, rfl, rfl⟩

theorem wake_leaving {l : Limiter} {w : Wake} {r : Limiter × AcquirePc}
    (h : l.wake w = some r) : ∃ slot, r.2 = .leaving slot := by
  rcases wake_cases h with ⟨slot, -, rfl⟩ | ⟨-, rfl⟩
  · exact ⟨slot, rfl⟩
  · exact ⟨.acquired, rfl⟩

/-- Everything a step can do. -/
theorem step_cases {s t : State} {l : Label} (h : step s l = some t) :
    (l = .call ∧ t = { s with calls := s.calls ++ [.start] }) ∨
    (∃ i pc r, l = .advance i ∧ s.calls[i]? = some pc ∧
      s.lim.advance s.now pc = some r ∧ t = s.put i r) ∨
    (∃ i w r, l = .wake i w ∧ s.calls[i]? = some .waiting ∧
      s.lim.wake w = some r ∧ t = s.put i r) ∨
    (∃ i, l = .cancel i ∧ s.calls[i]? = some .waiting ∧
      t = s.put i (s.lim, .cancelled)) ∨
    (∃ i, l = .drop i ∧ s.calls[i]? = some (.returned .acquired) ∧
      t = s.dropPermit i) ∨
    (∃ ms, l = .tick ms ∧ t = { s with now := s.now + ms }) := by
  cases l with
  | call =>
      left
      exact ⟨rfl, (Option.some.inj h).symm⟩
  | advance i =>
      right; left
      simp only [step, bind, Option.bind_eq_some_iff, pure,
        Option.some.injEq] at h
      obtain ⟨pc, hpc, r, hr, rfl⟩ := h
      exact ⟨i, pc, r, rfl, hpc, hr, rfl⟩
  | wake i w =>
      right; right; left
      simp only [step] at h
      split at h
      case isTrue hw =>
        obtain ⟨r, hr, rfl⟩ := Option.map_eq_some_iff.1 h
        exact ⟨i, w, r, rfl, hw, hr, rfl⟩
      case isFalse => cases h
  | cancel i =>
      right; right; right; left
      simp only [step] at h
      split at h
      case isTrue hw => exact ⟨i, rfl, hw, (Option.some.inj h).symm⟩
      case isFalse => cases h
  | drop i =>
      right; right; right; right; left
      simp only [step] at h
      split at h
      case isTrue hw => exact ⟨i, rfl, hw, (Option.some.inj h).symm⟩
      case isFalse => cases h
  | tick ms =>
      right; right; right; right; right
      exact ⟨ms, rfl, (Option.some.inj h).symm⟩

/-! ## The counter is exact up to the cancelled waits -/

/-- The counter holds one unit for every counted call. -/
def Exact (s : State) : Prop :=
  s.lim.queued = UInt64.ofNat (s.calls.countP AcquirePc.counted)

theorem counted_eq (s : State) :
    s.calls.countP AcquirePc.counted = s.inQueue + s.cancelled := by
  unfold State.inQueue State.cancelled
  induction s.calls with
  | nil => rfl
  | cons pc calls ih =>
      simp only [List.countP_cons, ih]
      cases pc <;> simp [AcquirePc.counted, AcquirePc.inQueue,
        AcquirePc.isCancelled] <;> omega

theorem Accounted.cancelled_eq_zero {s : State} (hs : Accounted s)
    (hexact : s.lim.queued = UInt64.ofNat (s.inQueue + s.cancelled)) :
    UInt64.ofNat s.cancelled = 0 := by
  rw [hs, UInt64.ofNat_add] at hexact
  exact UInt64.left_eq_add.1 hexact

/-- Moving one call keeps the counter exact when the limiter's counter and the
call's units move together. -/
theorem Exact.put {s : State} (hs : Exact s) {i : Nat} {pc : AcquirePc}
    (hpc : s.calls[i]? = some pc) {r : Limiter × AcquirePc}
    (hr : r.1.queued + UInt64.ofNat pc.units =
      s.lim.queued + UInt64.ofNat r.2.units) :
    Exact (s.put i r) := by
  have hcount := countP_set_add AcquirePc.counted hpc r.2
  unfold Exact at hs ⊢
  change r.1.queued = UInt64.ofNat ((s.calls.set i r.2).countP AcquirePc.counted)
  have hsum : UInt64.ofNat ((s.calls.set i r.2).countP AcquirePc.counted) +
      UInt64.ofNat pc.units =
      s.lim.queued + UInt64.ofNat r.2.units := by
    rw [hs, ← UInt64.ofNat_add, ← UInt64.ofNat_add]
    exact congrArg UInt64.ofNat hcount
  exact (UInt64.add_left_inj _).1 (hr.trans hsum.symm)

theorem exact_step {s t : State} {l : Label} (hs : Exact s)
    (h : step s l = some t) : Exact t := by
  rcases step_cases h with
    ⟨_, rfl⟩ | ⟨i, pc, r, _, hpc, hr, rfl⟩ | ⟨i, w, r, _, hpc, hr, rfl⟩ |
    ⟨i, _, hpc, rfl⟩ | ⟨i, _, hpc, rfl⟩ | ⟨ms, _, rfl⟩
  · -- a new call has no unit yet
    have hnew : (s.calls ++ [AcquirePc.start]).countP AcquirePc.counted =
        s.calls.countP AcquirePc.counted := by
      rw [List.countP_append]
      rfl
    exact hs.trans (congrArg UInt64.ofNat hnew.symm)
  · exact hs.put hpc (advance_queued hr)
  · obtain ⟨hq, hin, _⟩ := wake_queued hr
    refine hs.put hpc ?_
    have hunits : r.2.units = 1 := by
      simp [AcquirePc.units, AcquirePc.counted, hin]
    rw [hq, hunits]
    rfl
  · -- the unit of the cancelled wait stays behind
    exact hs.put hpc rfl
  · exact hs.put hpc rfl
  · exact hs

/-! ## No cancelled wait, no leak -/

theorem advance_cancelled {l : Limiter} {now : Nat} {pc : AcquirePc}
    {r : Limiter × AcquirePc} (h : l.advance now pc = some r) :
    pc.isCancelled = false ∧ r.2.isCancelled = false := by
  cases pc with
  | start =>
      simp only [Limiter.advance] at h
      split at h <;> cases h <;> exact ⟨rfl, rfl⟩
  | tookPermit => cases h; exact ⟨rfl, rfl⟩
  | noPermits =>
      cases h
      refine ⟨rfl, ?_⟩
      dsimp only
      split <;> rfl
  | enqueue =>
      cases h
      refine ⟨rfl, ?_⟩
      dsimp only
      split <;> rfl
  | full => cases h; exact ⟨rfl, rfl⟩
  | leaving slot => cases h; exact ⟨rfl, rfl⟩
  | waiting | returned slot | released | cancelled => cases h

/-- Only a `cancel` step leaves a cancelled call behind. -/
theorem cancelled_step {s t : State} {l : Label} (hl : KeepsWaiting s l)
    (h : step s l = some t) : t.cancelled = s.cancelled := by
  have hput : ∀ {i : Nat} {pc : AcquirePc} {r : Limiter × AcquirePc},
      s.calls[i]? = some pc → pc.isCancelled = false →
      r.2.isCancelled = false → (s.put i r).cancelled = s.cancelled := by
    intro i pc r hpc hp hr
    exact countP_set_of_eq AcquirePc.isCancelled hpc (hp.trans hr.symm)
  rcases step_cases h with
    ⟨_, rfl⟩ | ⟨i, pc, r, _, hpc, hr, rfl⟩ | ⟨i, w, r, _, hpc, hr, rfl⟩ |
    ⟨i, hi, hpc, _⟩ | ⟨i, _, hpc, rfl⟩ | ⟨ms, _, rfl⟩
  · change (s.calls ++ [AcquirePc.start]).countP _ = _
    rw [List.countP_append]
    rfl
  · obtain ⟨hp, hr'⟩ := advance_cancelled hr
    exact hput hpc hp hr'
  · exact hput hpc rfl (wake_queued hr).2.2
  · exact absurd hi (hl i)
  · exact hput hpc rfl rfl
  · rfl

/-- A cancelled wait adds one to the leak. -/
theorem cancelled_of_cancel {s t : State} {i : Nat}
    (h : step s (.cancel i) = some t) : t.cancelled = s.cancelled + 1 := by
  simp only [step] at h
  split at h
  case isFalse => cases h
  case isTrue hw =>
    obtain rfl := Option.some.inj h
    exact countP_set_add AcquirePc.isCancelled hw .cancelled

theorem tryAcquireOwned_ok {sem sem' : Semaphore}
    (h : sem.tryAcquireOwned = .ok sem') :
    sem.closed = false ∧ 0 < sem.permits ∧
      sem' = { sem with permits := sem.permits - 1 } := by
  unfold Semaphore.tryAcquireOwned at h
  split at h
  case isTrue => cases h
  case isFalse hclosed =>
    split at h
    case isTrue => cases h
    case isFalse hpermits =>
      cases h
      exact ⟨by simpa using hclosed, Nat.pos_of_ne_zero hpermits, rfl⟩

/-- Nothing closes the semaphore, and the length of the queue is fixed. -/
theorem advance_fixed {l : Limiter} {now : Nat} {pc : AcquirePc}
    {r : Limiter × AcquirePc} (h : l.advance now pc = some r) :
    r.1.sem.closed = l.sem.closed ∧ r.1.maxQueue = l.maxQueue := by
  cases pc with
  | start =>
      simp only [Limiter.advance] at h
      split at h
      case h_1 sem hsem =>
        cases h
        obtain ⟨_, _, rfl⟩ := tryAcquireOwned_ok hsem
        exact ⟨rfl, rfl⟩
      case h_2 => cases h; exact ⟨rfl, rfl⟩
      case h_3 => cases h; exact ⟨rfl, rfl⟩
  | noPermits =>
      cases h
      simp
  | tookPermit | enqueue | full => cases h; exact ⟨rfl, rfl⟩
  | leaving slot => cases h; exact ⟨rfl, rfl⟩
  | waiting | returned slot | released | cancelled => cases h

theorem wake_fixed {l : Limiter} {w : Wake} {r : Limiter × AcquirePc}
    (h : l.wake w = some r) :
    r.1.sem.closed = l.sem.closed ∧ r.1.maxQueue = l.maxQueue := by
  rcases wake_cases h with ⟨slot, -, rfl⟩ | ⟨-, rfl⟩
  · exact ⟨rfl, rfl⟩
  · exact ⟨rfl, rfl⟩

theorem step_fixed {s t : State} {l : Label} (h : step s l = some t) :
    t.lim.sem.closed = s.lim.sem.closed ∧ t.lim.maxQueue = s.lim.maxQueue := by
  rcases step_cases h with
    ⟨_, rfl⟩ | ⟨i, pc, r, _, hpc, hr, rfl⟩ | ⟨i, w, r, _, hpc, hr, rfl⟩ |
    ⟨i, _, hpc, rfl⟩ | ⟨i, _, hpc, rfl⟩ | ⟨ms, _, rfl⟩
  · exact ⟨rfl, rfl⟩
  · exact advance_fixed hr
  · exact wake_fixed hr
  · exact ⟨rfl, rfl⟩
  · exact ⟨rfl, rfl⟩
  · exact ⟨rfl, rfl⟩

theorem step_closed {s t : State} {l : Label} (h : step s l = some t) :
    t.lim.sem.closed = s.lim.sem.closed := (step_fixed h).1

theorem step_maxQueue {s t : State} {l : Label} (h : step s l = some t) :
    t.lim.maxQueue = s.lim.maxQueue := (step_fixed h).2

/-- The next operation of the call made last. -/
theorem step_advance_last {s : State} {calls : List AcquirePc} {pc : AcquirePc}
    {r : Limiter × AcquirePc} (hcalls : s.calls = calls ++ [pc])
    (h : s.lim.advance s.now pc = some r) :
    step s (.advance calls.length) =
      some { s with lim := r.1, calls := calls ++ [r.2] } := by
  have hget : s.calls[calls.length]? = some pc := by
    rw [hcalls, List.getElem?_concat_length]
  have hset : s.calls.set calls.length r.2 = calls ++ [r.2] := by
    rw [hcalls, List.set_append_right _ _ (Nat.le_refl _)]
    simp
  simp only [step, hget, h, bind, Option.bind_some, pure, State.put, hset]

/-- A request that finds no free permit and an empty queue waits in it. -/
theorem admitted {s : State} (hclosed : s.lim.sem.closed = false)
    (hqueued : s.lim.queued = 0) (hmax : 0 < s.lim.maxQueue)
    (hfree : s.lim.sem.permits = 0) :
    ∃ t, run step s
        [.call, .advance s.calls.length, .advance s.calls.length,
          .advance s.calls.length] = some t ∧
      t.calls[s.calls.length]? = some .waiting := by
  let s₁ : State := { s with calls := s.calls ++ [.start] }
  let s₂ : State := { s with calls := s.calls ++ [.noPermits] }
  let s₃ : State :=
    { s with lim := s.lim.markSaturated s.now, calls := s.calls ++ [.enqueue] }
  have hmark : (s.lim.markSaturated s.now).maxQueue = s.lim.maxQueue ∧
      (s.lim.markSaturated s.now).queued = 0 := by
    unfold Limiter.markSaturated
    split <;> exact ⟨rfl, hqueued⟩
  have h₁ : s₁.lim.advance s₁.now .start = some (s.lim, .noPermits) := by
    have hnone : s.lim.sem.tryAcquireOwned = .error .noPermits := by
      simp [Semaphore.tryAcquireOwned, hclosed, hfree]
    simp only [s₁, Limiter.advance, hnone]
  have h₂ : s₂.lim.advance s₂.now .noPermits =
      some (s.lim.markSaturated s.now, .enqueue) := by
    simp only [s₂, Limiter.advance, Nat.ne_of_gt hmax, if_false]
  have h₃ : s₃.lim.advance s₃.now .enqueue =
      some ({ s₃.lim with queued := s₃.lim.queued + 1 }, .waiting) := by
    have hdepth : ¬ s₃.lim.maxQueue ≤ s₃.lim.queued.toNat := by
      simp only [s₃, hmark.1, hmark.2]
      exact Nat.not_le.2 hmax
    simp only [Limiter.advance, hdepth, if_false]
  refine ⟨{ s₃ with
    lim := { s₃.lim with queued := s₃.lim.queued + 1 },
    calls := s.calls ++ [.waiting] }, ?_, List.getElem?_concat_length⟩
  exact run_cons_some.2 ⟨s₁, rfl, run_cons_some.2 ⟨s₂, step_advance_last rfl h₁,
    run_cons_some.2 ⟨s₃, step_advance_last rfl h₂,
      run_cons_some.2 ⟨_, step_advance_last rfl h₃, rfl⟩⟩⟩⟩

/-! ## The counter along whole runs -/

section Accounting

variable (maxConcurrent maxQueue queueTimeout retryAfter : Nat)
variable (shedAfter : Option Nat)

/-- A fresh limiter, before any call. -/
def State.fresh : State :=
  State.init (Limiter.new maxConcurrent maxQueue queueTimeout retryAfter shedAfter)

/--
`queued` counts the queued calls together with every call that was cancelled
while it waited, in every state of every run.
-/
theorem queued_exact (ls : List Label) :
    Throughout step
      (fun s => s.lim.queued = UInt64.ofNat (s.inQueue + s.cancelled))
      (State.fresh maxConcurrent maxQueue queueTimeout retryAfter shedAfter) ls := by
  have hinit : Exact
      (State.fresh maxConcurrent maxQueue queueTimeout retryAfter shedAfter) := rfl
  refine (throughout_of_invariant (fun _ _ _ => exact_step) hinit ls).mono ?_
  intro s hs
  rw [← counted_eq]
  exact hs

theorem fresh_sem_open (ls : List Label) :
    Throughout step (fun s => s.lim.sem.closed = false)
      (State.fresh maxConcurrent maxQueue queueTimeout retryAfter shedAfter) ls :=
  throughout_of_invariant (fun _ _ _ hs h => (step_closed h).trans hs) rfl ls

/--
The counter is the number of queued calls in every state of a run, and an idle
limiter lets the next blocked request into the queue, exactly when the run
cancels no call that waits.
-/
theorem queued_accounted_iff (ls : List Label) :
    Throughout step (fun s => Accounted s ∧ Drained s)
        (State.fresh maxConcurrent maxQueue queueTimeout retryAfter shedAfter) ls
      ↔
    Along step KeepsWaiting
        (State.fresh maxConcurrent maxQueue queueTimeout retryAfter shedAfter) ls := by
  have hexact :=
    queued_exact maxConcurrent maxQueue queueTimeout retryAfter shedAfter ls
  have hopen :=
    fresh_sem_open maxConcurrent maxQueue queueTimeout retryAfter shedAfter ls
  constructor
  · intro hacc
    rw [along_iff]
    rintro ms l s t hms hrun hstep i rfl
    -- around a cancellation the exact count and the promised one differ
    have hrun' := run_concat_some.2 ⟨s, hrun, hstep⟩
    have hms' : ms <+: ls := (List.prefix_append ms [Label.cancel i]).trans hms
    have hs := (hacc ms s hms' hrun).1
    have ht := (hacc _ t hms hrun').1
    have hs' : UInt64.ofNat s.cancelled = 0 :=
      hs.cancelled_eq_zero (hexact ms s hms' hrun)
    have ht' : UInt64.ofNat t.cancelled = 0 :=
      ht.cancelled_eq_zero (hexact _ t hms hrun')
    rw [cancelled_of_cancel hstep, UInt64.ofNat_add, hs'] at ht'
    exact absurd ht' (by decide)
  · intro hkeep ms s hms hrun
    have hnone : s.cancelled = 0 :=
      hkeep.throughout (I := fun s => s.cancelled = 0)
        (fun _ _ _ hs hl h => (cancelled_step hl h).trans hs) rfl ms s hms hrun
    have hacc : Accounted s := by
      have hs : s.lim.queued = UInt64.ofNat (s.inQueue + s.cancelled) :=
        hexact ms s hms hrun
      rwa [hnone] at hs
    refine ⟨hacc, fun hidle => ?_⟩
    have hempty : s.inQueue = 0 := by
      refine List.countP_eq_zero.2 fun pc hpc hin => ?_
      have hlive := hidle pc hpc
      cases pc <;> simp_all [AcquirePc.live, AcquirePc.inQueue]
    have hzero : s.lim.queued = 0 := by
      rw [hacc, hempty]
      rfl
    exact ⟨hzero, fun hmax hfree =>
      admitted (hopen ms s hms hrun) hzero hmax hfree⟩

/--
One slot and a queue of one: a client goes away while it waits, every call
ends, and the next request that finds no slot is refused although nobody waits.
-/
theorem queued_leaks :
    ¬ Throughout step (fun s => Accounted s ∧ Drained s)
        (State.fresh 1 1 5000 1 none)
        [.call, .advance 0, .advance 0, .call, .advance 1, .advance 1, .advance 1,
          .cancel 1, .drop 0] ∧
      ∃ t, run step (State.fresh 1 1 5000 1 none)
          [.call, .advance 0, .advance 0, .call, .advance 1, .advance 1, .advance 1,
            .cancel 1, .drop 0, .call, .advance 2, .advance 2,
            .call, .advance 3, .advance 3, .advance 3, .advance 3] = some t ∧
        t.calls = [.released, .cancelled, .returned .acquired,
          .returned (.rejected 1)] := by
  constructor
  · intro h
    have hlast := (h.last rfl).1
    revert hlast
    decide
  · exact ⟨_, rfl, rfl⟩

end Accounting

end Overload
end OxideHttp
