import OxideHttp.Overload

/-!
# Requests in `handle` (`src/server.rs`, `src/metrics.rs`, `src/health.rs`)

Each request is a process at its place in `handle`, one step for each access to an
atomic that is shared: those of the limiter, the readiness flag and the gauge of the
requests in flight.  `handle_inner` touches none of them and is one await here; its
length is up to the schedule.  The future of a request is dropped, by a client that
disconnects, the idle watchdog or the shutdown, where it is suspended: while it waits for
a permit or anywhere in `handle_inner`.

Results.
* `step_cases`: everything a step can do.
* `gauge_exact`: the gauge counts the requests in flight together with those that were
  dropped.
* `gauge_iff`: it is the number of requests in flight throughout a run just when the run
  drops none.
-/

namespace OxideHttp
namespace Handle

open Transition Overload

/-- `should_shed`, from the start of the streak that was loaded and the clock. -/
def overdue (lim : Limiter) (since now : Nat) : Bool :=
  match lim.shedAfter with
  | none => false
  | some threshold => if since = 0 then false else decide (threshold ≤ now - since)

theorem shouldShed_eq (lim : Limiter) (now : Nat) :
    lim.shouldShed now = overdue lim lim.saturatedSinceMs now := rfl

/-- Where one request stands in `handle`. -/
inductive Pc where
  /-- `request_started` is next -/
  | entered (probe : Bool)
  /-- `admin_response` has been asked: it has an answer for a probe -/
  | routed (probe : Bool)
  | acquire (pc : AcquirePc)
  /-- `Slot::Acquired`; `set_overloaded(false)` is next -/
  | admitted
  /-- `Slot::Rejected`; `should_shed` is next -/
  | refused (retryAfter : Nat)
  /-- `should_shed` has loaded the start of the streak; the clock is next -/
  | timing (since : Nat)
  /-- `set_overloaded` is next -/
  | shedding (overloaded : Bool)
  /-- in `handle_inner`, with a permit or without a limiter -/
  | inner (permit : Bool)
  /-- `handle_inner` has returned; `drop(permit)` is next -/
  | leaving (permit : Bool)
  /-- `request_finished` is next -/
  | finishing
  | responded
  /-- the future was dropped where it was suspended -/
  | dropped
  deriving DecidableEq, Repr

/-- `limiter.acquire().await`, which has returned or goes on. -/
def Pc.ofAcquire : AcquirePc → Pc
  | .returned .acquired => .admitted
  | .returned (.rejected retryAfter) => .refused retryAfter
  | pc => .acquire pc

/-- The part of `Shared` that `handle` works on, the clock, and every request so far. -/
structure State where
  overload : Option Limiter
  overloaded : Bool
  inFlight : Int64
  now : Nat
  reqs : List Pc
  deriving DecidableEq

def State.init (overload : Option Limiter) : State where
  overload := overload
  overloaded := false
  inFlight := 0
  now := 0
  reqs := []

/-- The state after request `i` has moved to `pc`. -/
def State.move (s : State) (i : Nat) (pc : Pc) : State := { s with reqs := s.reqs.set i pc }

/-- A permit is dropped. -/
def addPermit (lim : Limiter) : Limiter :=
  { lim with sem := { lim.sem with permits := lim.sem.permits + 1 } }

def State.dropPermit (s : State) (permit : Bool) : State :=
  if permit then { s with overload := s.overload.map addPermit } else s

inductive Label where
  /-- a request enters `handle`; it is for a probe or not -/
  | enter (probe : Bool)
  /-- request `i` performs its next operation -/
  | advance (i : Nat)
  /-- the await of request `i` in `acquire` ends -/
  | wake (i : Nat) (w : Wake)
  /-- `handle_inner` returns for request `i` -/
  | innerDone (i : Nat)
  /-- the future of request `i` is dropped -/
  | drop (i : Nat)
  | tick (ms : Nat)
  deriving DecidableEq, Repr

/-- The next operation of a request that is not suspended. -/
def State.advance (s : State) (i : Nat) : Pc → Option State
  | .entered probe => some { s.move i (.routed probe) with inFlight := s.inFlight + 1 }
  | .routed true => some (s.move i .finishing)
  | .routed false =>
      some (s.move i (if s.overload.isSome then .acquire .start else .inner false))
  | .acquire pc => do
      let lim ← s.overload
      let r ← lim.advance s.now pc
      return { s.move i (.ofAcquire r.2) with overload := some r.1 }
  | .admitted => some { s.move i (.inner true) with overloaded := false }
  | .refused _ => do
      let lim ← s.overload
      return s.move i (.timing lim.saturatedSinceMs)
  | .timing since => do
      let lim ← s.overload
      return s.move i (.shedding (overdue lim since s.now))
  | .shedding overloaded => some { s.move i .finishing with overloaded := overloaded }
  | .leaving permit => some ((s.dropPermit permit).move i .finishing)
  | .finishing => some { s.move i .responded with inFlight := s.inFlight - 1 }
  | .inner _ | .responded | .dropped => none

def step (s : State) : Label → Option State
  | .enter probe => some { s with reqs := s.reqs ++ [.entered probe] }
  | .advance i => s.reqs[i]?.bind (s.advance i)
  | .wake i w =>
      if s.reqs[i]? = some (.acquire .waiting) then do
        let lim ← s.overload
        let r ← lim.wake w
        return { s.move i (.ofAcquire r.2) with overload := some r.1 }
      else none
  | .innerDone i =>
      match s.reqs[i]? with
      | some (.inner permit) => some (s.move i (.leaving permit))
      | _ => none
  | .drop i =>
      match s.reqs[i]? with
      | some (.acquire .waiting) => some (s.move i .dropped)
      | some (.inner permit) => some ((s.dropPermit permit).move i .dropped)
      | _ => none
  | .tick ms => some { s with now := s.now + ms }

/-! ## Steps -/

@[simp] theorem dropPermit_reqs (s : State) (permit : Bool) :
    (s.dropPermit permit).reqs = s.reqs := by
  cases permit <;> rfl

@[simp] theorem dropPermit_inFlight (s : State) (permit : Bool) :
    (s.dropPermit permit).inFlight = s.inFlight := by
  cases permit <;> rfl

@[simp] theorem dropPermit_overloaded (s : State) (permit : Bool) :
    (s.dropPermit permit).overloaded = s.overloaded := by
  cases permit <;> rfl

/-- The request has entered `handle` and has neither returned a response nor been
dropped. -/
def Pc.inFlight : Pc → Bool
  | .entered _ | .responded | .dropped => false
  | _ => true

def Pc.isDropped : Pc → Bool
  | .dropped => true
  | _ => false

/-- The request counts in the gauge. -/
def Pc.counted (pc : Pc) : Bool := pc.inFlight || pc.isDropped

/-- The units of a request in the gauge. -/
def Pc.units (pc : Pc) : Nat := if pc.counted then 1 else 0

/-- The request is bound to store `false` in the readiness flag, and nothing can keep it
from doing so. -/
def Pc.relieves : Pc → Bool
  | .acquire .tookPermit | .acquire (.leaving .acquired) | .admitted | .shedding false => true
  | _ => false

/-- What a step of a request from `pc` to `pc'` does to the gauge and to the flag. -/
structure Effect (s t : State) (pc pc' : Pc) : Prop where
  gauge : t.inFlight + Int64.ofNat pc.units = s.inFlight + Int64.ofNat pc'.units
  flag : (t.overloaded = s.overloaded ∧ (pc.relieves = true → pc'.relieves = true)) ∨
    t.overloaded = false ∨ t.overloaded = true ∧ pc = .shedding true

theorem Effect.plain {s t : State} {pc pc' : Pc} (hgauge : t.inFlight = s.inFlight)
    (hflag : t.overloaded = s.overloaded) (hunits : pc.units = pc'.units)
    (hrelieves : pc.relieves = true → pc'.relieves = true) : Effect s t pc pc' :=
  ⟨by rw [hgauge, hunits], Or.inl ⟨hflag, hrelieves⟩⟩

theorem units_ofAcquire (pc : AcquirePc) : (Pc.ofAcquire pc).units = 1 := by
  cases pc with
  | returned slot => cases slot <;> rfl
  | start | tookPermit | noPermits | enqueue | full | waiting | leaving | released | cancelled => rfl

theorem advance_relieves {lim : Limiter} {now : Nat} {pc : AcquirePc}
    {r : Limiter × AcquirePc} (h : lim.advance now pc = some r)
    (hpc : (Pc.acquire pc).relieves = true) : (Pc.ofAcquire r.2).relieves = true := by
  cases pc with
  | tookPermit => cases h; rfl
  | leaving slot =>
      cases slot with
      | acquired => cases h; rfl
      | rejected => cases hpc
  | start | noPermits | enqueue | full | waiting | returned | released | cancelled => cases hpc

/-- The next operation of a request. -/
theorem advance_effect {s t : State} {i : Nat} {pc : Pc} (h : s.advance i pc = some t) :
    ∃ pc', t.reqs = s.reqs.set i pc' ∧ Effect s t pc pc' ∧ pc.isDropped = false ∧
      pc'.isDropped = false := by
  cases pc with
  | entered probe =>
      cases h
      exact ⟨_, rfl, ⟨Int64.add_zero _, Or.inl ⟨rfl, by simp [Pc.relieves]⟩⟩, rfl, rfl⟩
  | routed probe =>
      cases probe <;> cases h
      · refine ⟨_, rfl, ?_, rfl, ?_⟩
        · split <;> exact .plain rfl rfl rfl (by simp [Pc.relieves])
        · split <;> rfl
      · exact ⟨_, rfl, .plain rfl rfl rfl (by simp [Pc.relieves]), rfl, rfl⟩
  | acquire pc =>
      simp only [State.advance, bind, Option.bind_eq_some_iff, pure, Option.some.injEq] at h
      obtain ⟨lim, _, r, hr, rfl⟩ := h
      refine ⟨_, rfl, .plain rfl rfl (units_ofAcquire r.2).symm (advance_relieves hr), rfl, ?_⟩
      cases r.2 with
      | returned slot => cases slot <;> rfl
      | start | tookPermit | noPermits | enqueue | full | waiting | leaving | released | cancelled => rfl
  | admitted =>
      cases h
      exact ⟨_, rfl, ⟨rfl, Or.inr (Or.inl rfl)⟩, rfl, rfl⟩
  | refused retryAfter =>
      simp only [State.advance, bind, Option.bind_eq_some_iff, pure, Option.some.injEq] at h
      obtain ⟨lim, _, rfl⟩ := h
      exact ⟨_, rfl, .plain rfl rfl rfl (by simp [Pc.relieves]), rfl, rfl⟩
  | timing since =>
      simp only [State.advance, bind, Option.bind_eq_some_iff, pure, Option.some.injEq] at h
      obtain ⟨lim, _, rfl⟩ := h
      exact ⟨_, rfl, .plain rfl rfl rfl (by simp [Pc.relieves]), rfl, rfl⟩
  | shedding overloaded =>
      cases h
      refine ⟨_, rfl, ⟨rfl, Or.inr ?_⟩, rfl, rfl⟩
      cases overloaded
      · exact Or.inl rfl
      · exact Or.inr ⟨rfl, rfl⟩
  | leaving permit =>
      cases h
      refine ⟨.finishing, ?_, .plain ?_ ?_ rfl (by simp [Pc.relieves]), rfl, rfl⟩ <;>
        simp [State.move]
  | finishing =>
      cases h
      refine ⟨_, rfl, ⟨?_, Or.inl ⟨rfl, by simp [Pc.relieves]⟩⟩, rfl, rfl⟩
      exact (Int64.sub_add_cancel _ _).trans (Int64.add_zero _).symm
  | inner permit | responded | dropped => cases h

/-- A step of request `i`, which goes from `pc` to `pc'`. -/
structure Turn (s t : State) (l : Label) (i : Nat) (pc pc' : Pc) : Prop where
  here : s.reqs[i]? = some pc
  reqs : t.reqs = s.reqs.set i pc'
  effect : Effect s t pc pc'
  /-- only the request itself stores the flag -/
  stores : pc = .shedding true → l = .advance i
  dropped : l = .drop i ∧ pc.isDropped = false ∧ pc' = .dropped ∨
    (∀ j, l ≠ .drop j) ∧ pc.isDropped = false ∧ pc'.isDropped = false

/-- Everything a step can do. -/
theorem step_cases {s t : State} {l : Label} (h : step s l = some t) :
    (∃ probe, l = .enter probe ∧ t = { s with reqs := s.reqs ++ [.entered probe] }) ∨
    (∃ ms, l = .tick ms ∧ t = { s with now := s.now + ms }) ∨
    ∃ i pc pc', Turn s t l i pc pc' := by
  cases l with
  | enter probe => exact Or.inl ⟨probe, rfl, (Option.some.inj h).symm⟩
  | tick ms => exact Or.inr (Or.inl ⟨ms, rfl, (Option.some.inj h).symm⟩)
  | advance i =>
      obtain ⟨pc, hpc, hadvance⟩ := Option.bind_eq_some_iff.1 h
      obtain ⟨pc', hreqs, heffect, hbefore, hafter⟩ := advance_effect hadvance
      exact Or.inr (Or.inr ⟨i, pc, pc', hpc, hreqs, heffect, fun _ => rfl,
        Or.inr ⟨by simp, hbefore, hafter⟩⟩)
  | wake i w =>
      simp only [step] at h
      split at h
      case isFalse => cases h
      case isTrue hpc =>
        simp only [bind, Option.bind_eq_some_iff, pure, Option.some.injEq] at h
        obtain ⟨lim, _, r, hr, rfl⟩ := h
        obtain ⟨slot, hslot⟩ := wake_leaving hr
        refine Or.inr (Or.inr ⟨i, _, _, hpc, rfl, ?_, by simp, Or.inr ⟨by simp, rfl, ?_⟩⟩)
        · exact .plain rfl rfl (units_ofAcquire r.2).symm (by simp [Pc.relieves])
        · rw [hslot]
          rfl
  | innerDone i =>
      simp only [step] at h
      split at h
      case h_1 permit hpc =>
        cases h
        exact Or.inr (Or.inr ⟨i, _, _, hpc, rfl, .plain rfl rfl rfl (by simp [Pc.relieves]),
          by simp, Or.inr ⟨by simp, rfl, rfl⟩⟩)
      case h_2 => cases h
  | drop i =>
      simp only [step] at h
      split at h
      case h_1 hpc =>
        cases h
        exact Or.inr (Or.inr ⟨i, _, _, hpc, rfl, .plain rfl rfl rfl (by simp [Pc.relieves]),
          by simp, Or.inl ⟨rfl, rfl, rfl⟩⟩)
      case h_2 permit hpc =>
        cases h
        exact Or.inr (Or.inr ⟨i, _, .dropped, hpc, by simp [State.move],
          .plain (by simp [State.move]) (by simp [State.move]) rfl (by simp [Pc.relieves]),
          by simp, Or.inl ⟨rfl, rfl, rfl⟩⟩)
      case h_3 => cases h

/-! ## The gauge of the requests in flight -/

/-- The requests in flight. -/
def State.live (s : State) : Nat := s.reqs.countP Pc.inFlight

/-- The requests that were dropped. -/
def State.dropped (s : State) : Nat := s.reqs.countP Pc.isDropped

theorem counted_eq (s : State) : s.reqs.countP Pc.counted = s.live + s.dropped := by
  unfold State.live State.dropped
  induction s.reqs with
  | nil => rfl
  | cons pc reqs ih =>
      simp only [List.countP_cons, ih]
      cases pc <;> simp [Pc.counted, Pc.inFlight, Pc.isDropped] <;> omega

/-- The gauge holds one unit for each counted request. -/
def Exact (s : State) : Prop := s.inFlight = Int64.ofNat (s.reqs.countP Pc.counted)

theorem exact_step {s t : State} {l : Label} (hs : Exact s) (h : step s l = some t) :
    Exact t := by
  rcases step_cases h with ⟨probe, _, rfl⟩ | ⟨ms, _, rfl⟩ | ⟨i, pc, pc', hturn⟩
  · unfold Exact at hs ⊢
    rw [List.countP_append]
    exact hs
  · exact hs
  · have hcount := countP_set_add Pc.counted hturn.here pc'
    have hsum : Int64.ofNat ((s.reqs.set i pc').countP Pc.counted) + Int64.ofNat pc.units =
        s.inFlight + Int64.ofNat pc'.units := by
      rw [hs, ← Int64.ofNat_add, ← Int64.ofNat_add]
      exact congrArg Int64.ofNat hcount
    unfold Exact
    rw [hturn.reqs]
    exact (Int64.add_left_inj _).1 (hturn.effect.gauge.trans hsum.symm)

/-- The step drops no request. -/
def KeepsRequests (_ : State) (l : Label) : Prop := ∀ i, l ≠ .drop i

theorem dropped_step {s t : State} {l : Label} (h : step s l = some t)
    (hl : KeepsRequests s l) : t.dropped = s.dropped := by
  rcases step_cases h with ⟨probe, _, rfl⟩ | ⟨ms, _, rfl⟩ | ⟨i, pc, pc', hturn⟩
  · unfold State.dropped
    rw [List.countP_append]
    rfl
  · rfl
  · obtain ⟨hdrop, -⟩ | ⟨-, hbefore, hafter⟩ := hturn.dropped
    · exact absurd hdrop (hl i)
    · unfold State.dropped
      rw [hturn.reqs]
      exact countP_set_of_eq Pc.isDropped hturn.here (hbefore.trans hafter.symm)

theorem dropped_of_drop {s t : State} {i : Nat} (h : step s (.drop i) = some t) :
    t.dropped = s.dropped + 1 := by
  rcases step_cases h with ⟨probe, heq, _⟩ | ⟨ms, heq, _⟩ | ⟨j, pc, pc', hturn⟩
  · cases heq
  · cases heq
  · obtain ⟨-, hbefore, rfl⟩ | ⟨hl, -⟩ := hturn.dropped
    · have hcount := countP_set_add Pc.isDropped hturn.here .dropped
      rw [hbefore] at hcount
      unfold State.dropped
      rw [hturn.reqs]
      exact hcount
    · exact absurd rfl (hl i)

/-- The gauge is the number of requests in flight; without any it is zero. -/
def Gauged (s : State) : Prop :=
  s.inFlight = Int64.ofNat s.live ∧ (s.live = 0 → s.inFlight = 0)

/-- The gauge counts the requests in flight together with those that were dropped. -/
theorem gauge_exact (overload : Option Limiter) (ls : List Label) :
    Throughout step (fun s => s.inFlight = Int64.ofNat (s.live + s.dropped))
      (State.init overload) ls := by
  have hinit : Exact (State.init overload) := rfl
  refine (throughout_of_invariant (fun _ _ _ => exact_step) hinit ls).mono fun s hs => ?_
  rw [← counted_eq]
  exact hs

/-- The gauge is exact throughout a run just when the run drops no request. -/
theorem gauge_iff (overload : Option Limiter) (ls : List Label) :
    Throughout step Gauged (State.init overload) ls ↔
      Along step KeepsRequests (State.init overload) ls := by
  have hexact := gauge_exact overload ls
  constructor
  · intro hgauge
    rw [along_iff]
    rintro ms l s t hms hrun hstep i rfl
    -- around the step that drops a request the exact count and the promised one differ
    have hrun' := run_concat_some.2 ⟨s, hrun, hstep⟩
    have hms' : ms <+: ls := (List.prefix_append ms [Label.drop i]).trans hms
    have hs := (hgauge ms s hms' hrun).1
    have ht := (hgauge _ t hms hrun').1
    rw [hexact ms s hms' hrun, Int64.ofNat_add, eq_comm, Int64.left_eq_add] at hs
    rw [hexact _ t hms hrun', Int64.ofNat_add, eq_comm, Int64.left_eq_add,
      dropped_of_drop hstep, Int64.ofNat_add, hs] at ht
    exact absurd ht (by decide)
  · intro hkeep ms s hms hrun
    have hnone : s.dropped = 0 :=
      hkeep.throughout (I := fun s => s.dropped = 0)
        (fun _ _ _ hs hl h => (dropped_step h hl).trans hs) rfl ms s hms hrun
    have hcount := hexact ms s hms hrun
    dsimp only at hcount
    rw [hnone, Nat.add_zero] at hcount
    refine ⟨hcount, fun hidle => ?_⟩
    rw [hcount, hidle]
    rfl

/-- A client goes away while its request is handled: the gauge stays at one. -/
theorem gauge_drifts :
    ¬ Throughout step Gauged (State.init none)
      [.enter false, .advance 0, .advance 0, .drop 0] := by
  intro h
  obtain ⟨s, hrun, hlive, hgauge⟩ : ∃ s, run step (State.init none)
      [.enter false, .advance 0, .advance 0, .drop 0] = some s ∧ s.live = 0 ∧
      s.inFlight = 1 := ⟨_, rfl, rfl, rfl⟩
  have hzero := (h.last hrun).2 hlive
  rw [hgauge] at hzero
  exact absurd hzero (by decide)

end Handle
end OxideHttp
