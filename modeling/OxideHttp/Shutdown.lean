import OxideHttp.Bridge.Ids

/-!
# Graceful shutdown (`src/lib.rs`, `src/server.rs`)

The native `close()` next to the bridge that it takes away at the end.  Requests come over
a connection or through `inject()`.  The accept loop of `serve` waits until the connection
tasks have dropped their clones of `drain_tx`, or for `shutdownTimeout`; then it signals
`done`, for which `close()` waits, or for a second longer than that.  A timer may be late,
but not early.

Results.
* `Orderly`: what holds of the requests that had come when `close()` was called, as long
  as the injected ones among them are not overlooked.
* `no_response_lost`: `respond()` reaches those requests until the deadline, in the runs in
  which none of the injected ones is overlooked.
* `injected_lost`: a run in which one is.
-/

namespace OxideHttp
namespace Shutdown

open Transition BatchedBridge

variable {ω ρ : Type}

/-- How a request has come. -/
inductive Route where
  | socket (conn : Nat)
  | inject
  deriving DecidableEq, Repr

inductive Stage where
  /-- in `handle`, before its dispatch into JS -/
  | entered
  /-- it is the dispatch call with this number -/
  | dispatched (call : Nat)
  /-- answered without JS, or dropped before its dispatch -/
  | finished
  deriving DecidableEq, Repr

structure Request where
  route : Route
  stage : Stage
  /-- it had come when `close()` was called -/
  atClose : Bool
  deriving DecidableEq, Repr

/-- The accept loop. -/
inductive Loop where
  | accepting
  /-- the listener is closed; it waits for the connections -/
  | draining (deadline : Nat)
  | finished
  /-- the socket could not be registered with the reactor -/
  | failed
  deriving DecidableEq, Repr

/-- The native `close()`. -/
inductive Closer where
  | idle
  /-- `preShutdownDelay` runs -/
  | delaying (wake : Nat)
  /-- it has sent `CLOSING` and waits for `done` -/
  | waiting (deadline : Nat)
  | returned
  deriving DecidableEq, Repr

structure State (ω ρ : Type) where
  bridge : BatchedBridge.State ω ρ
  /-- milliseconds -/
  now : Nat
  requests : List Request
  /-- the connection tasks, and whether they still run -/
  conns : List Bool
  /-- calls of `inject()` that have got the shared state and not sent their request -/
  injects : Nat
  loop : Loop
  /-- the permit of `done` -/
  done : Bool
  /-- `RustServer.active` is set -/
  active : Bool
  closer : Closer
  /-- when `CLOSING` was sent -/
  closingAt : Option Nat

def State.init : State ω ρ where
  bridge := BatchedBridge.State.init
  now := 0
  requests := []
  conns := []
  injects := 0
  loop := .accepting
  done := false
  active := true
  closer := .idle
  closingAt := none

inductive Label (ω ρ : Type) where
  | tick (ms : Nat)
  | accept
  /-- the task of a connection ends -/
  | connEnd (c : Nat)
  | inject
  /-- a request enters `handle` -/
  | enter (route : Route)
  | finish (i : Nat)
  /-- a request becomes a dispatch call -/
  | dispatch (i : Nat) (payload : ω)
  /-- a step of the bridge, or of JS with it -/
  | bridge (l : BatchedBridge.Label ω ρ)
  | bindFailed
  | close
  | closing
  | loopBreak
  /-- no clone of `drain_tx` is left -/
  | drained
  | drainTimeout
  /-- `close()` sees `done` -/
  | closeDone
  | closeTimeout

/-- What the methods of the bridge do once `active` is `None`. -/
def detached (b : BatchedBridge.State ω ρ) :
    BatchedBridge.Label ω ρ → Option (BatchedBridge.State ω ρ)
  | .takeBatch => if b.js = .draining then some { b with js := .idle } else none
  | .respond i _ | .takeBody i => if b.handed i then some b else none
  | l => BatchedBridge.step b l

/-- The request is being handled. -/
def State.inFlight (s : State ω ρ) (r : Request) : Bool :=
  match r.stage with
  | .entered => true
  | .dispatched j => (s.bridge.calls[j]?).any fun c => c.outcome.isAwaiting
  | .finished => false

def Request.onConn (c : Nat) (r : Request) : Bool := decide (r.route = .socket c)

/-- `CLOSING` has not been sent. -/
def Closer.isEarly : Closer → Bool
  | .idle | .delaying _ => true
  | .waiting _ | .returned => false

section Timed

variable (shutdownTimeout preShutdownDelay : Nat)

def step (s : State ω ρ) : Label ω ρ → Option (State ω ρ)
  | .tick ms => some { s with now := s.now + ms }
  | .accept =>
      if s.loop = .accepting then some { s with conns := s.conns ++ [true] } else none
  | .connEnd c =>
      -- the requests on it have ended, or their futures are dropped before
      if s.requests.any fun r => r.onConn c && s.inFlight r then none
      else some { s with conns := s.conns.set c false }
  | .inject => if s.closer = .idle then some { s with injects := s.injects + 1 } else none
  | .enter (.socket c) =>
      if s.conns[c]? = some true then
        some { s with requests := s.requests ++ [⟨.socket c, .entered, false⟩] }
      else none
  | .enter .inject =>
      if 0 < s.injects then
        some { s with requests := s.requests ++ [⟨.inject, .entered, false⟩]
                      injects := s.injects - 1 }
      else none
  | .finish i =>
      s.requests[i]?.bind fun r =>
        if r.stage = .entered then
          some { s with requests := s.requests.set i { r with stage := .finished } }
        else none
  | .dispatch i payload =>
      s.requests[i]?.bind fun r =>
        if r.stage = .entered then
          (BatchedBridge.step s.bridge (.request payload)).map fun b =>
            { s with
              bridge := b
              requests := s.requests.set i
                { r with stage := .dispatched s.bridge.calls.length } }
        else none
  | .bridge (.request _) => none
  | .bridge l =>
      (if s.active then BatchedBridge.step s.bridge l else detached s.bridge l).map fun b =>
        { s with bridge := b }
  | .bindFailed =>
      if s.loop = .accepting ∧ s.conns = [] then
        some { s with loop := .failed, done := true }
      else none
  | .close =>
      if s.closer = .idle then
        some { s with closer := .delaying (s.now + preShutdownDelay)
                      requests := s.requests.map fun r => { r with atClose := true } }
      else none
  | .closing =>
      match s.closer with
      | .delaying wake =>
          if wake ≤ s.now then
            some { s with closer := .waiting (s.now + (shutdownTimeout + 1000))
                          closingAt := some s.now }
          else none
      | _ => none
  | .loopBreak =>
      if s.loop = .accepting ∧ s.closingAt.isSome then
        some { s with loop := .draining (s.now + shutdownTimeout) }
      else none
  | .drained =>
      match s.loop with
      | .draining _ =>
          if s.conns.any id then none else some { s with loop := .finished, done := true }
      | _ => none
  | .drainTimeout =>
      match s.loop with
      | .draining deadline =>
          if deadline ≤ s.now then some { s with loop := .finished, done := true } else none
      | _ => none
  | .closeDone =>
      match s.closer with
      | .waiting _ =>
          if s.done then some { s with active := false, done := false, closer := .returned }
          else none
      | _ => none
  | .closeTimeout =>
      match s.closer with
      | .waiting deadline =>
          if deadline ≤ s.now then some { s with active := false, closer := .returned }
          else none
      | _ => none

/-- `shutdownTimeout` has elapsed since `CLOSING`. -/
def State.expired (s : State ω ρ) : Prop :=
  ∃ at', s.closingAt = some at' ∧ at' + shutdownTimeout ≤ s.now

/-- Until the deadline `respond()` reaches every request that was in flight when `close()`
was called; and the bridge has stopped only after all of these or the deadline. -/
structure State.Graceful (s : State ω ρ) : Prop where
  answered : ∀ r ∈ s.requests, r.atClose = true → s.inFlight r = true →
    ¬ s.expired shutdownTimeout → s.active = true ∧
      ∀ j res t, r.stage = .dispatched j →
        step shutdownTimeout preShutdownDelay s (.bridge (.respond j res)) = some t →
        ∃ c, t.bridge.calls[j]? = some c ∧ c.outcome = .answered res
  stopped : s.active = false → s.expired shutdownTimeout ∨
    ∀ r ∈ s.requests, r.atClose = true → s.inFlight r = false

end Timed

/-- The accept loop signals `done` early, or `close()` is called after it has, only when
no injected request that `close()` is to wait for is in flight; and a request is registered
only under an id that no waiting request has. -/
def State.minded (s : State ω ρ) : Label ω ρ → Prop
  | .bridge (.register i) => OnlyHolder s.bridge i
  | .drained | .bindFailed =>
      ∀ r ∈ s.requests, r.atClose = true → r.route = .inject → s.inFlight r = false
  | .close =>
      s.loop = .failed → ∀ r ∈ s.requests, r.route = .inject → s.inFlight r = false
  | _ => True

instance (b : BatchedBridge.State ω ρ) (i : Nat) : Decidable (OnlyHolder b i) :=
  decidable_of_iff (∀ c ∈ b.calls[i]?, ∀ k < b.calls.length, ∀ d ∈ b.calls[k]?, k ≠ i →
      d.phase.inRegistry = true → d.outcome.isAwaiting = true → d.reqId ≠ c.reqId)
    ⟨fun h c k d hc hd => h c hc k (List.getElem?_eq_some_iff.1 hd).1 d hd,
      fun h c hc k _ d hd => h c k d hc hd⟩

instance (s : State ω ρ) : ∀ l, Decidable (s.minded l)
  | .bridge (.register i) => inferInstanceAs (Decidable (OnlyHolder s.bridge i))
  | .drained | .bindFailed => inferInstanceAs (Decidable
      (∀ r ∈ s.requests, r.atClose = true → r.route = .inject → s.inFlight r = false))
  | .close => inferInstanceAs (Decidable
      (s.loop = .failed → ∀ r ∈ s.requests, r.route = .inject → s.inFlight r = false))
  | .tick _ | .accept | .connEnd _ | .inject | .enter _ | .finish _ | .dispatch _ _
  | .bridge (.request _) | .bridge (.nextReqId _) | .bridge (.push _) | .bridge (.ring _)
  | .bridge .callback | .bridge .takeBatch | .bridge (.respond _ _)
  | .bridge (.takeBody _) | .bridge (.gone _) | .closing | .loopBreak | .drainTimeout
  | .closeDone | .closeTimeout => inferInstanceAs (Decidable True)

/-! ## Steps of the bridge -/

/-- Without `active` a method of the bridge does nothing; what the requests do themselves
goes on. -/
theorem detached_cases {b b' : BatchedBridge.State ω ρ} {l : BatchedBridge.Label ω ρ}
    (h : detached b l = some b') :
    BatchedBridge.step b l = some b' ∨
      (b'.calls = b.calls ∧ b'.bridge = b.bridge ∧ b'.batches = b.batches) := by
  cases l with
  | takeBatch =>
      simp only [detached, Option.ite_none_right_eq_some] at h
      obtain rfl := Option.some.inj h.2
      exact Or.inr ⟨rfl, rfl, rfl⟩
  | respond i res | takeBody i =>
      simp only [detached, Option.ite_none_right_eq_some] at h
      obtain rfl := Option.some.inj h.2
      exact Or.inr ⟨rfl, rfl, rfl⟩
  | request payload | nextReqId i | register i | push i | ring i | callback | gone i =>
      exact Or.inl h

theorem awaiting_of_step {b b' : BatchedBridge.State ω ρ} {l : BatchedBridge.Label ω ρ}
    (h : BatchedBridge.step b l = some b') {j : Nat} (hj : j < b.calls.length)
    (hawait : (b'.calls[j]?).any (fun c => c.outcome.isAwaiting) = true) :
    (b.calls[j]?).any (fun c => c.outcome.isAwaiting) = true := by
  rw [step_calls h hj] at hawait
  cases hc : b.calls[j]? with
  | none => simp [hc] at hawait
  | some c =>
      simp only [hc, Option.map_some, Option.any_some] at hawait ⊢
      exact update_awaiting hawait

/-- What holds of the bridge when no request is registered over one that waits. -/
structure Sound (b : BatchedBridge.State ω ρ) : Prop where
  tickets : TicketsMatch b
  own : OwnEntries b

theorem Sound.step {b b' : BatchedBridge.State ω ρ} {l : BatchedBridge.Label ω ρ}
    (hb : Sound b) (hl : ∀ i, l = .register i → OnlyHolder b i)
    (h : BatchedBridge.step b l = some b') : Sound b' :=
  ⟨step_ticketsMatch hb.tickets h, step_own hb.own hl h⟩

theorem Sound.frame {b b' : BatchedBridge.State ω ρ} (hb : Sound b)
    (hcalls : b'.calls = b.calls) (hbridge : b'.bridge = b.bridge)
    (hbatches : b'.batches = b.batches) : Sound b' where
  tickets := by
    rw [TicketsMatch, BatchedBridge.State.tickets, hbatches, hbridge, hcalls]
    exact hb.tickets
  own := by
    rw [OwnEntries, hbridge, hcalls]
    exact hb.own

/-! ## The requests that were there -/

section Runs

variable {shutdownTimeout preShutdownDelay : Nat} {s t : State ω ρ} {l : Label ω ρ}

/-- The requests that had come when `close()` was called are over. -/
def State.quiet (s : State ω ρ) : Prop :=
  ∀ r ∈ s.requests, r.atClose = true → s.inFlight r = false

structure Orderly (shutdownTimeout : Nat) (s : State ω ρ) : Prop where
  bridge : Sound s.bridge
  known : ∀ r ∈ s.requests, ∀ j, r.stage = .dispatched j → j < s.bridge.calls.length
  /-- the task of a connection outlives the requests on it -/
  sockets : ∀ r ∈ s.requests, ∀ c, r.route = .socket c → s.inFlight r = true →
    s.conns[c]? = some true
  clock : ∀ at', s.closingAt = some at' → at' ≤ s.now
  draining : ∀ d, s.loop = .draining d → ∃ at', s.closingAt = some at' ∧
    at' + shutdownTimeout ≤ d
  waiting : ∀ d, s.closer = .waiting d → ∃ at', s.closingAt = some at' ∧
    at' + shutdownTimeout ≤ d
  early : s.closer.isEarly = true → s.closingAt = none ∧ s.active = true
  finished : s.loop = .finished → s.closingAt ≠ none ∧
    (s.expired shutdownTimeout ∨ s.quiet)
  failed : s.loop = .failed → s.conns = [] ∧ s.quiet
  done : s.done = true → s.loop = .finished ∨ s.loop = .failed
  stopped : s.active = false → s.expired shutdownTimeout ∨ s.quiet

theorem orderly_init : Orderly shutdownTimeout (State.init : State ω ρ) where
  bridge := ⟨linked_init.tickets, linked_init.own⟩
  known := fun r hr => by cases hr
  sockets := fun r hr => by cases hr
  clock := fun a ha => by cases ha
  draining := fun d hd => by cases hd
  waiting := fun d hd => by cases hd
  early := fun _ => ⟨rfl, rfl⟩
  finished := fun h => by cases h
  failed := fun h => by cases h
  done := fun h => by cases h
  stopped := fun h => by cases h

/-- A move that only takes requests further, or brings a new one. -/
theorem Orderly.requests (hs : Orderly shutdownTimeout s)
    {b : BatchedBridge.State ω ρ} {rs : List Request} {n : Nat} (hb : Sound b)
    (hknown : ∀ r ∈ rs, ∀ j, r.stage = .dispatched j → j < b.calls.length)
    (hrs : ∀ r' ∈ rs,
      (r'.atClose = false ∧ ∀ c, r'.route = .socket c → s.conns[c]? = some true) ∨
        ∃ r ∈ s.requests, r'.route = r.route ∧ r'.atClose = r.atClose ∧
          (({ s with bridge := b, requests := rs, injects := n } : State ω ρ).inFlight r' = true →
            s.inFlight r = true)) :
    Orderly shutdownTimeout { s with bridge := b, requests := rs, injects := n } := by
  have hquiet : s.quiet → ({ s with bridge := b, requests := rs, injects := n } :
      State ω ρ).quiet := by
    intro hq r' hr' hclose
    rcases hrs r' hr' with ⟨hnew, _⟩ | ⟨r, hr, _, hsame, hback⟩
    · cases hnew.symm.trans hclose
    · refine Bool.eq_false_iff.2 fun hflight => ?_
      have hover := hq r hr (hsame.symm.trans hclose)
      rw [hback hflight] at hover
      cases hover
  exact
    { bridge := hb
      known := hknown
      sockets := fun r' hr' c hroute hflight => by
        rcases hrs r' hr' with ⟨_, halive⟩ | ⟨r, hr, hsame, _, hback⟩
        · exact halive c hroute
        · exact hs.sockets r hr c (hsame.symm.trans hroute) (hback hflight)
      clock := hs.clock
      draining := hs.draining
      waiting := hs.waiting
      early := hs.early
      finished := fun h => ⟨(hs.finished h).1, (hs.finished h).2.imp_right hquiet⟩
      failed := fun h => ⟨(hs.failed h).1, hquiet (hs.failed h).2⟩
      done := hs.done
      stopped := fun h => (hs.stopped h).imp_right hquiet }

/-- A request that was there is in flight after a step of the bridge only if it was
before. -/
theorem inFlight_of_step {l : BatchedBridge.Label ω ρ}
    (h : BatchedBridge.step s.bridge l = some t.bridge) {r : Request}
    (hr : ∀ j, r.stage = .dispatched j → j < s.bridge.calls.length)
    (hflight : t.inFlight r = true) : s.inFlight r = true := by
  obtain ⟨route, stage, atClose⟩ := r
  cases stage with
  | entered => rfl
  | finished => cases hflight
  | dispatched j => exact awaiting_of_step h (hr j rfl) hflight

/-- Without connections only injected requests can be in flight. -/
theorem Orderly.quiet_of_conns (hs : Orderly shutdownTimeout s)
    (hconns : s.conns.any id = false)
    (hinjects : ∀ r ∈ s.requests, r.atClose = true → r.route = .inject →
      s.inFlight r = false) : s.quiet := by
  intro r hr hclose
  refine Bool.eq_false_iff.2 fun hflight => ?_
  cases hroute : r.route with
  | inject =>
      rw [hinjects r hr hclose hroute] at hflight
      cases hflight
  | socket c =>
      have halive := hs.sockets r hr c hroute hflight
      have hany : s.conns.any id = true :=
        List.any_eq_true.2 ⟨true, List.mem_of_getElem? halive, rfl⟩
      rw [hconns] at hany
      cases hany

theorem Orderly.bridgeStep (hs : Orderly shutdownTimeout s)
    {l : BatchedBridge.Label ω ρ} {b : BatchedBridge.State ω ρ}
    (hl : ∀ i, l = .register i → OnlyHolder s.bridge i)
    (h : (if s.active then BatchedBridge.step s.bridge l else detached s.bridge l) =
      some b) : Orderly shutdownTimeout { s with bridge := b } := by
  have hmove : BatchedBridge.step s.bridge l = some b ∨
      (b.calls = s.bridge.calls ∧ b.bridge = s.bridge.bridge ∧
        b.batches = s.bridge.batches) := by
    split at h
    case isTrue => exact Or.inl h
    case isFalse => exact detached_cases h
  rcases hmove with hstep | ⟨hcalls, hbridge, hbatches⟩
  · refine hs.requests (n := s.injects) (hs.bridge.step hl hstep) (fun r hr j hj => ?_)
      (fun r hr => Or.inr ⟨r, hr, rfl, rfl, ?_⟩)
    · have hlength := step_length hstep
      have hold := hs.known r hr j hj
      omega
    · exact inFlight_of_step hstep (hs.known r hr)
  · refine hs.requests (n := s.injects) (hs.bridge.frame hcalls hbridge hbatches)
      (fun r hr j hj => ?_) (fun r hr => Or.inr ⟨r, hr, rfl, rfl, fun hflight => ?_⟩)
    · rw [hcalls]
      exact hs.known r hr j hj
    · simpa only [State.inFlight, hcalls] using hflight

theorem Orderly.tick (hs : Orderly shutdownTimeout s) {ms : Nat}
    (h : Shutdown.step shutdownTimeout preShutdownDelay s (.tick ms) = some t) :
    Orderly shutdownTimeout t := by
  obtain rfl := Option.some.inj h
  have hlater : s.expired shutdownTimeout →
      ({ s with now := s.now + ms } : State ω ρ).expired shutdownTimeout :=
    fun ⟨a, ha, hpast⟩ => ⟨a, ha, Nat.le_add_right_of_le hpast⟩
  exact
    { hs with
      clock := fun a ha => Nat.le_add_right_of_le (hs.clock a ha)
      finished := fun hf => ⟨(hs.finished hf).1, (hs.finished hf).2.imp_left hlater⟩
      stopped := fun hst => (hs.stopped hst).imp_left hlater }

theorem Orderly.accept (hs : Orderly shutdownTimeout s)
    (h : Shutdown.step shutdownTimeout preShutdownDelay s .accept = some t) :
    Orderly shutdownTimeout t := by
  simp only [Shutdown.step, Option.ite_none_right_eq_some] at h
  obtain ⟨hloop, h⟩ := h
  obtain rfl := Option.some.inj h
  exact
    { hs with
      sockets := fun r hr c hroute hflight => by
        have halive := hs.sockets r hr c hroute hflight
        have hlt := (List.getElem?_eq_some_iff.1 halive).1
        rw [List.getElem?_append_left hlt]
        exact halive
      failed := fun hf => by cases hloop.symm.trans hf }

/-- A connection task ends after the requests on it. -/
theorem Orderly.connEnd (hs : Orderly shutdownTimeout s) {c : Nat}
    (h : Shutdown.step shutdownTimeout preShutdownDelay s (.connEnd c) = some t) :
    Orderly shutdownTimeout t := by
  simp only [Shutdown.step, Option.ite_none_left_eq_some] at h
  obtain ⟨hidle, h⟩ := h
  obtain rfl := Option.some.inj h
  exact
    { hs with
      sockets := fun r hr c' hroute hflight => by
        have hne : c ≠ c' := fun heq => hidle <| List.any_eq_true.2 ⟨r, hr, by
          rw [Bool.and_eq_true]
          exact ⟨by simp [Request.onConn, hroute, heq], hflight⟩⟩
        rw [List.getElem?_set_ne hne]
        exact hs.sockets r hr c' hroute hflight
      failed := fun hf => ⟨by simp [(hs.failed hf).1], (hs.failed hf).2⟩ }

theorem Orderly.enter (hs : Orderly shutdownTimeout s) {route : Route}
    (h : Shutdown.step shutdownTimeout preShutdownDelay s (.enter route) = some t) :
    Orderly shutdownTimeout t := by
  have hnew {n : Nat} (halive : ∀ c, route = .socket c → s.conns[c]? = some true) :
      Orderly shutdownTimeout
        { s with requests := s.requests ++ [⟨route, .entered, false⟩], injects := n } := by
    refine hs.requests (b := s.bridge) hs.bridge (fun r hr j hj => ?_) (fun r hr => ?_)
    · rcases List.mem_append.1 hr with hr | hr
      · exact hs.known r hr j hj
      · obtain rfl := List.mem_singleton.1 hr
        cases hj
    · rcases List.mem_append.1 hr with hr | hr
      · exact Or.inr ⟨r, hr, rfl, rfl, id⟩
      · obtain rfl := List.mem_singleton.1 hr
        exact Or.inl ⟨rfl, halive⟩
  cases route with
  | socket c =>
      simp only [Shutdown.step, Option.ite_none_right_eq_some] at h
      obtain rfl := Option.some.inj h.2
      exact hnew (n := s.injects) fun c' hc => Route.socket.inj hc ▸ h.1
  | inject =>
      simp only [Shutdown.step, Option.ite_none_right_eq_some] at h
      obtain rfl := Option.some.inj h.2
      exact hnew fun c hc => by cases hc

theorem Orderly.finish (hs : Orderly shutdownTimeout s) {i : Nat}
    (h : Shutdown.step shutdownTimeout preShutdownDelay s (.finish i) = some t) :
    Orderly shutdownTimeout t := by
  obtain ⟨r, hr, h⟩ := Option.bind_eq_some_iff.1 h
  simp only [Option.ite_none_right_eq_some] at h
  obtain ⟨_, h⟩ := h
  obtain rfl := Option.some.inj h
  refine hs.requests (b := s.bridge) (n := s.injects) hs.bridge (fun r' hr' j hj => ?_)
    (fun r' hr' => ?_)
  · rcases List.mem_or_eq_of_mem_set hr' with hr' | rfl
    · exact hs.known r' hr' j hj
    · cases hj
  · rcases List.mem_or_eq_of_mem_set hr' with hr' | rfl
    · exact Or.inr ⟨r', hr', rfl, rfl, id⟩
    · exact Or.inr ⟨r, List.mem_of_getElem? hr, rfl, rfl, fun hflight => by cases hflight⟩

/-- The call that a request becomes is a new one. -/
theorem Orderly.dispatch (hs : Orderly shutdownTimeout s) {i : Nat} {payload : ω}
    (h : Shutdown.step shutdownTimeout preShutdownDelay s (.dispatch i payload) = some t) :
    Orderly shutdownTimeout t := by
  obtain ⟨r, hr, h⟩ := Option.bind_eq_some_iff.1 h
  simp only [Option.ite_none_right_eq_some] at h
  obtain ⟨hstage, h⟩ := h
  obtain ⟨b, hb, rfl⟩ := Option.map_eq_some_iff.1 h
  have hlength : b.calls.length = s.bridge.calls.length + 1 := step_length hb
  have hold (r' : Request) (hr' : r' ∈ s.requests) (j : Nat)
      (hj : r'.stage = .dispatched j) : j < b.calls.length :=
    (hs.known r' hr' j hj).trans (by omega)
  refine hs.requests (n := s.injects)
    (hs.bridge.step (fun i hi => by cases hi) hb) (fun r' hr' j hj => ?_)
    (fun r' hr' => ?_)
  · rcases List.mem_or_eq_of_mem_set hr' with hr' | rfl
    · exact hold r' hr' j hj
    · obtain rfl := Stage.dispatched.inj hj
      omega
  · rcases List.mem_or_eq_of_mem_set hr' with hr' | rfl
    · exact Or.inr ⟨r', hr', rfl, rfl, inFlight_of_step hb (hs.known r' hr')⟩
    · refine Or.inr ⟨r, List.mem_of_getElem? hr, rfl, rfl, fun _ => ?_⟩
      rw [State.inFlight, hstage]

theorem Orderly.bindFailed (hs : Orderly shutdownTimeout s) (hl : s.minded .bindFailed)
    (h : Shutdown.step shutdownTimeout preShutdownDelay s .bindFailed = some t) :
    Orderly shutdownTimeout t := by
  simp only [Shutdown.step, Option.ite_none_right_eq_some] at h
  obtain ⟨⟨hloop, hconns⟩, h⟩ := h
  obtain rfl := Option.some.inj h
  exact
    { hs with
      draining := fun d hd => by cases hd
      finished := fun hf => by cases hf
      failed := fun _ => ⟨hconns, hs.quiet_of_conns (by simp [hconns]) hl⟩
      done := fun _ => Or.inr rfl }

/-- What is in flight when `close()` is called is all that it waits for. -/
theorem Orderly.close (hs : Orderly shutdownTimeout s) (hl : s.minded .close)
    (h : Shutdown.step shutdownTimeout preShutdownDelay s .close = some t) :
    Orderly shutdownTimeout t := by
  simp only [Shutdown.step, Option.ite_none_right_eq_some] at h
  obtain ⟨hidle, h⟩ := h
  obtain rfl := Option.some.inj h
  obtain ⟨hnone, hactive⟩ := hs.early (by rw [hidle]; rfl)
  exact
    { hs with
      known := fun r' hr' j hj => by
        obtain ⟨r, hr, rfl⟩ := List.mem_map.1 hr'
        exact hs.known r hr j hj
      sockets := fun r' hr' c hroute hflight => by
        obtain ⟨r, hr, rfl⟩ := List.mem_map.1 hr'
        exact hs.sockets r hr c hroute hflight
      waiting := fun d hd => by cases hd
      early := fun _ => ⟨hnone, hactive⟩
      finished := fun hf => absurd hnone (hs.finished hf).1
      failed := fun hf => by
        obtain ⟨hconns, _⟩ := hs.failed hf
        refine ⟨hconns, fun r' hr' _ => ?_⟩
        obtain ⟨r, hr, rfl⟩ := List.mem_map.1 hr'
        refine Bool.eq_false_iff.2 fun hflight => ?_
        cases hroute : r.route with
        | inject =>
            have hover := hl hf r hr hroute
            cases hover.symm.trans hflight
        | socket c =>
            have halive := hs.sockets r hr c hroute hflight
            rw [hconns] at halive
            cases halive
      stopped := fun hst => by cases hactive.symm.trans hst }

theorem Orderly.closing (hs : Orderly shutdownTimeout s)
    (h : Shutdown.step shutdownTimeout preShutdownDelay s .closing = some t) :
    Orderly shutdownTimeout t := by
  simp only [Shutdown.step] at h
  split at h
  case h_2 => cases h
  case h_1 wake hdelay =>
    simp only [Option.ite_none_right_eq_some] at h
    obtain rfl := Option.some.inj h.2
    obtain ⟨hnone, hactive⟩ := hs.early (by rw [hdelay]; rfl)
    exact
      { hs with
        clock := fun a ha => (Option.some.inj ha).ge
        draining := fun d hd => by
          obtain ⟨a, ha, _⟩ := hs.draining d hd
          cases hnone.symm.trans ha
        waiting := fun d hd => ⟨s.now, rfl, by
          obtain rfl := Closer.waiting.inj hd
          omega⟩
        early := fun he => by cases he
        finished := fun hf => absurd hnone (hs.finished hf).1
        stopped := fun hst => by cases hactive.symm.trans hst }

theorem Orderly.loopBreak (hs : Orderly shutdownTimeout s)
    (h : Shutdown.step shutdownTimeout preShutdownDelay s .loopBreak = some t) :
    Orderly shutdownTimeout t := by
  simp only [Shutdown.step, Option.ite_none_right_eq_some] at h
  obtain ⟨⟨hloop, hsent⟩, h⟩ := h
  obtain rfl := Option.some.inj h
  obtain ⟨a, ha⟩ := Option.isSome_iff_exists.1 hsent
  exact
    { hs with
      draining := fun d hd => ⟨a, ha, by
        obtain rfl := Loop.draining.inj hd
        exact Nat.add_le_add_right (hs.clock a ha) _⟩
      finished := fun hf => by cases hf
      failed := fun hf => by cases hf
      done := fun hd => by
        rcases hs.done hd with hf | hf
        · cases hloop.symm.trans hf
        · cases hloop.symm.trans hf }

/-- The accept loop ends after the requests or the deadline. -/
theorem Orderly.loopEnds (hs : Orderly shutdownTimeout s) {deadline : Nat}
    (hloop : s.loop = .draining deadline) (hover : s.expired shutdownTimeout ∨ s.quiet) :
    Orderly shutdownTimeout { s with loop := .finished, done := true } := by
  obtain ⟨a, ha, _⟩ := hs.draining deadline hloop
  exact
    { hs with
      draining := fun d hd => by cases hd
      finished := fun _ => ⟨by simp [ha], hover⟩
      failed := fun hf => by cases hf
      done := fun _ => Or.inl rfl }

theorem Orderly.drained (hs : Orderly shutdownTimeout s) (hl : s.minded .drained)
    (h : Shutdown.step shutdownTimeout preShutdownDelay s .drained = some t) :
    Orderly shutdownTimeout t := by
  simp only [Shutdown.step] at h
  split at h
  case h_2 => cases h
  case h_1 deadline hloop =>
    simp only [Option.ite_none_left_eq_some, Bool.not_eq_true] at h
    obtain ⟨hconns, h⟩ := h
    obtain rfl := Option.some.inj h
    exact hs.loopEnds hloop (Or.inr (hs.quiet_of_conns hconns hl))

theorem Orderly.drainTimeout (hs : Orderly shutdownTimeout s)
    (h : Shutdown.step shutdownTimeout preShutdownDelay s .drainTimeout = some t) :
    Orderly shutdownTimeout t := by
  simp only [Shutdown.step] at h
  split at h
  case h_2 => cases h
  case h_1 deadline hloop =>
    simp only [Option.ite_none_right_eq_some] at h
    obtain ⟨hpast, h⟩ := h
    obtain rfl := Option.some.inj h
    obtain ⟨a, ha, hdeadline⟩ := hs.draining deadline hloop
    exact hs.loopEnds hloop (Or.inl ⟨a, ha, hdeadline.trans hpast⟩)

/-- `close()` returns after the requests or the deadline. -/
theorem Orderly.closeReturns (hs : Orderly shutdownTimeout s) {done : Bool}
    (hdone : done = true → s.done = true) (hover : s.expired shutdownTimeout ∨ s.quiet) :
    Orderly shutdownTimeout { s with active := false, done := done, closer := .returned } :=
  { hs with
    waiting := fun d hd => by cases hd
    early := fun he => by cases he
    done := fun hd => hs.done (hdone hd)
    stopped := fun _ => hover }

theorem Orderly.closeDone (hs : Orderly shutdownTimeout s)
    (h : Shutdown.step shutdownTimeout preShutdownDelay s .closeDone = some t) :
    Orderly shutdownTimeout t := by
  simp only [Shutdown.step] at h
  split at h
  case h_2 => cases h
  case h_1 deadline hwait =>
    simp only [Option.ite_none_right_eq_some] at h
    obtain ⟨hdone, h⟩ := h
    obtain rfl := Option.some.inj h
    refine hs.closeReturns (fun hd => by cases hd) ?_
    rcases hs.done hdone with hf | hf
    · exact (hs.finished hf).2
    · exact Or.inr (hs.failed hf).2

theorem Orderly.closeTimeout (hs : Orderly shutdownTimeout s)
    (h : Shutdown.step shutdownTimeout preShutdownDelay s .closeTimeout = some t) :
    Orderly shutdownTimeout t := by
  simp only [Shutdown.step] at h
  split at h
  case h_2 => cases h
  case h_1 deadline hwait =>
    simp only [Option.ite_none_right_eq_some] at h
    obtain ⟨hpast, h⟩ := h
    obtain rfl := Option.some.inj h
    obtain ⟨a, ha, hdeadline⟩ := hs.waiting deadline hwait
    exact hs.closeReturns id (Or.inl ⟨a, ha, hdeadline.trans hpast⟩)

/-- Every step keeps the order in which the parties end. -/
theorem Orderly.step (hs : Orderly shutdownTimeout s) (hl : s.minded l)
    (h : step shutdownTimeout preShutdownDelay s l = some t) :
    Orderly shutdownTimeout t := by
  cases l with
  | tick ms => exact hs.tick h
  | accept => exact hs.accept h
  | connEnd c => exact hs.connEnd h
  | inject =>
      simp only [Shutdown.step, Option.ite_none_right_eq_some] at h
      obtain rfl := Option.some.inj h.2
      exact { hs with }
  | enter route => exact hs.enter h
  | finish i => exact hs.finish h
  | dispatch i payload => exact hs.dispatch h
  | bridge l =>
      cases l with
      | request payload => cases h
      | register i =>
          obtain ⟨b, hb, rfl⟩ := Option.map_eq_some_iff.1 h
          exact hs.bridgeStep (fun j hj => BatchedBridge.Label.register.inj hj ▸ hl) hb
      | nextReqId i | push i | ring i | callback | takeBatch | respond i res | takeBody i
      | gone i =>
          obtain ⟨b, hb, rfl⟩ := Option.map_eq_some_iff.1 h
          exact hs.bridgeStep (fun j hj => by cases hj) hb
  | bindFailed => exact hs.bindFailed hl h
  | close => exact hs.close hl h
  | closing => exact hs.closing h
  | loopBreak => exact hs.loopBreak h
  | drained => exact hs.drained hl h
  | drainTimeout => exact hs.drainTimeout h
  | closeDone => exact hs.closeDone h
  | closeTimeout => exact hs.closeTimeout h

theorem Orderly.graceful (hs : Orderly shutdownTimeout s) :
    s.Graceful shutdownTimeout preShutdownDelay where
  answered := fun r hr hclose hflight hearly => by
    have hactive : s.active = true := by
      by_contra hinactive
      rcases hs.stopped (by simpa using hinactive) with hexpired | hquiet
      · exact hearly hexpired
      · cases (hquiet r hr hclose).symm.trans hflight
    refine ⟨hactive, fun j res t hstage h => ?_⟩
    obtain ⟨b, hb, rfl⟩ := Option.map_eq_some_iff.1 h
    rw [if_pos hactive] at hb
    obtain ⟨hhanded, c, hc⟩ := step_enabled hb
    have hawait : c.outcome.isAwaiting = true := by
      simpa [State.inFlight, hstage, hc] using hflight
    exact hs.bridge.own.answered hb hc
      (inRegistry_of_inQueue (hs.bridge.tickets.handed hc hhanded)) hawait
  stopped := hs.stopped

end Runs

/-- In a run in which no injected request is overlooked, `respond()` reaches until the
deadline every request that was in flight when `close()` was called, and the bridge stops
only after these or the deadline. -/
theorem no_response_lost (shutdownTimeout preShutdownDelay : Nat)
    (ls : List (Label ω ρ))
    (h : Along (step shutdownTimeout preShutdownDelay) State.minded State.init ls) :
    Throughout (step shutdownTimeout preShutdownDelay)
      (State.Graceful shutdownTimeout preShutdownDelay) State.init ls :=
  (h.throughout (fun _ _ _ hs hl hstep => hs.step hl hstep) orderly_init).mono
    fun _ hs => hs.graceful

/-- A request is dispatched, and JS has taken it. -/
def taken (route : Route) : List (Label Unit Unit) :=
  [.enter route, .dispatch 0 (), .bridge (.nextReqId 0), .bridge (.register 0),
    .bridge (.push 0), .bridge (.ring 0), .bridge .callback, .bridge .takeBatch]

/-- A request that came over a socket is answered after `CLOSING`, and `close()` ends. -/
theorem no_response_lost_small :
    ∃ s, run (step 5000 0) State.init
        ([.accept] ++ taken (.socket 0) ++ [.close, .closing, .loopBreak,
          .bridge (.respond 0 ()), .connEnd 0, .drained, .closeDone]) = some s ∧
      s.active = false ∧ s.bridge.calls.map Call.outcome = [.answered ()] ∧
      s.Graceful 5000 0 := by
  obtain ⟨s, hs, hactive, hcalls⟩ : ∃ s, run (step 5000 0) State.init
      ([.accept] ++ taken (.socket 0) ++ [.close, .closing, .loopBreak,
        .bridge (.respond 0 ()), .connEnd 0, .drained, .closeDone]) = some s ∧
      s.active = false ∧ s.bridge.calls.map Call.outcome = [.answered ()] := ⟨_, rfl, rfl, rfl⟩
  exact ⟨s, hs, hactive, hcalls, (no_response_lost 5000 0 _ (by decide +kernel)).last hs⟩

/-- The same request through `inject()`: the accept loop has no connection to wait for, and
`close()` takes the bridge away at once. -/
theorem injected_lost :
    ∃ s, run (step 5000 0) State.init
        ([.inject] ++ taken .inject ++ [.close, .closing, .loopBreak, .drained, .closeDone]) =
          some s ∧
      s.now = 0 ∧ ¬ s.Graceful 5000 0 := by
  refine ⟨_, rfl, rfl, fun hgraceful => ?_⟩
  rcases hgraceful.stopped rfl with ⟨a, ha, hpast⟩ | hquiet
  · obtain rfl := Option.some.inj ha
    exact absurd hpast (by decide)
  · cases hquiet _ (List.mem_singleton_self _) rfl

end Shutdown
end OxideHttp
