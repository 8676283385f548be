import OxideHttp.Lib.Transition
import Mathlib.Logic.Function.Basic
import Mathlib.Data.List.Nodup

/-!
# The batched bridge (`src/bridge.rs`)

`Bridge` is the queue, the registry of in-flight requests and the id counter.
Its methods are the functions of the source; `enqueue` takes two locks one
after the other and then rings, so it is split into `register`, `push` and the
ring, each a step of its own.

The system around it has any number of dispatch calls (`Call`, one for each
request future), the JS thread, which runs doorbell callbacks one at a time,
and the doorbell calls that have not been served yet.  One doorbell call causes
one callback.

A oneshot sender and the channel ends of a request are named by the call they
belong to.  `seq`, `bodyTaken`, `responded` and `issued` are kept for the
statements only; no step reads them.  `batches` is what JS has been given.

`step_steps` inverts the step function once; from it the lemmas at the end say what
one step does: when it is enabled (`step_enabled`), and its effect on each call
(`step_calls`), on the queue and the doorbell (`step_delivery`) and on the registry
(`step_pending`).
-/

namespace OxideHttp
namespace BatchedBridge

open Transition

/-- The server side of one in-flight request: the channel ends, until
`take_body` moves them out, and the oneshot sender. -/
structure Pending where
  body : Option Nat
  done : Nat
  deriving DecidableEq, Repr

/-- A queued request: the id under which it is handed to JS, with the call it
came from. -/
structure Ticket (ω : Type) where
  owner : Nat
  reqId : UInt32
  payload : ω
  deriving DecidableEq, Repr

/-- The dispatch queue, the registry and the id counter. -/
structure Bridge (ω : Type) where
  queue : List (Ticket ω)
  pending : UInt32 → Option Pending
  nextId : UInt32

variable {ω ρ : Type}

/-- `Bridge::new`. -/
def Bridge.new : Bridge ω := { queue := [], pending := fun _ => none, nextId := 0 }

/-- `next_req_id`: a wrapping `fetch_add`. -/
def Bridge.nextReqId (b : Bridge ω) : UInt32 × Bridge ω :=
  (b.nextId, { b with nextId := b.nextId + 1 })

/-- The first half of `enqueue`: `HashMap::insert`, which replaces an entry that
is there. -/
def Bridge.register (b : Bridge ω) (reqId : UInt32) (p : Pending) : Bridge ω :=
  { b with pending := Function.update b.pending reqId (some p) }

/-- The second half of `enqueue`: push, and whether the queue was empty. -/
def Bridge.push (b : Bridge ω) (req : Ticket ω) : Bool × Bridge ω :=
  (b.queue.isEmpty, { b with queue := b.queue ++ [req] })

/-- `take_batch`. -/
def Bridge.takeBatch (b : Bridge ω) : List (Ticket ω) × Bridge ω :=
  (b.queue, { b with queue := [] })

/-- `take_body`. -/
def Bridge.takeBody (b : Bridge ω) (reqId : UInt32) : Option Nat × Bridge ω :=
  match b.pending reqId with
  | none => (none, b)
  | some p =>
      (p.body,
        { b with
          pending := Function.update b.pending reqId (some { p with body := none }) })

/-- `respond`: remove the entry; its sender is completed by the caller. -/
def Bridge.respond (b : Bridge ω) (reqId : UInt32) : Option Nat × Bridge ω :=
  match b.pending reqId with
  | none => (none, b)
  | some p => (some p.done, { b with pending := Function.update b.pending reqId none })

/-- Where a dispatch call stands. -/
inductive Phase where
  /-- before `next_req_id` -/
  | start
  /-- it has an id; the registry insert is next -/
  | ticket
  /-- registered; the queue push is next -/
  | registered
  /-- pushed; it rings next when the queue was empty -/
  | pushed (wasEmpty : Bool)
  /-- suspended in `done_rx.await` -/
  | enqueued
  deriving DecidableEq, Repr

/-- What the oneshot receiver of a call has got. -/
inductive Outcome (ρ : Type) where
  | awaiting
  | answered (res : ρ)
  /-- the sender was dropped without a response -/
  | senderDropped
  /-- the future was dropped: nobody waits any more -/
  | gone
  deriving DecidableEq, Repr

def Outcome.isAwaiting : Outcome ρ → Bool
  | .awaiting => true
  | _ => false

structure Call (ω ρ : Type) where
  payload : ω
  seq : Nat
  reqId : UInt32
  phase : Phase
  outcome : Outcome ρ
  bodyTaken : Bool
  responded : Bool
  deriving DecidableEq, Repr

def Call.new (payload : ω) : Call ω ρ where
  payload := payload
  seq := 0
  reqId := 0
  phase := .start
  outcome := .awaiting
  bodyTaken := false
  responded := false

/-- The call has made its registry insert. -/
def Phase.inRegistry : Phase → Bool
  | .start | .ticket => false
  | .registered | .pushed _ | .enqueued => true

/-- The call has pushed its request. -/
def Phase.inQueue : Phase → Bool
  | .start | .ticket | .registered => false
  | .pushed _ | .enqueued => true

/-- The JS thread: `#drainBatch` is running, or it is not. -/
inductive Js where
  | idle
  | draining
  deriving DecidableEq, Repr

structure State (ω ρ : Type) where
  bridge : Bridge ω
  calls : List (Call ω ρ)
  /-- doorbell calls whose callback has not started -/
  doorbells : Nat
  js : Js
  issued : Nat
  batches : List (List (Ticket ω))

inductive Label (ω ρ : Type) where
  /-- a new dispatch call -/
  | request (payload : ω)
  | nextReqId (i : Nat)
  | register (i : Nat)
  | push (i : Nat)
  | ring (i : Nat)
  /-- a doorbell callback starts `#drainBatch` -/
  | callback
  | takeBatch
  /-- JS calls `respond` for the request of call `i` -/
  | respond (i : Nat) (res : ρ)
  /-- JS calls `takeBody` for the request of call `i` -/
  | takeBody (i : Nat)
  /-- the future of call `i` is dropped -/
  | gone (i : Nat)

def State.init : State ω ρ where
  bridge := Bridge.new
  calls := []
  doorbells := 0
  js := .idle
  issued := 0
  batches := []

/-- Call `i`, provided it stands at phase `p`. -/
def State.callAt (s : State ω ρ) (i : Nat) (p : Phase) : Option (Call ω ρ) :=
  (s.calls[i]?).filter fun c => c.phase = p

def State.modify (s : State ω ρ) (i : Nat) (f : Call ω ρ → Call ω ρ) : State ω ρ :=
  { s with calls := s.calls.modify i f }

/-- Give call `i` its outcome, unless it has one. -/
def Call.settle (o : Outcome ρ) (c : Call ω ρ) : Call ω ρ :=
  if c.outcome.isAwaiting then { c with outcome := o } else c

/-- JS has received the request of call `i`. -/
def State.handed (s : State ω ρ) (i : Nat) : Bool :=
  s.batches.flatten.any fun r => r.owner == i

/-- Dropping the replaced entry drops its oneshot sender. -/
def State.dropEntry (s : State ω ρ) (p : Option Pending) : State ω ρ :=
  match p with
  | none => s
  | some p => s.modify p.done (Call.settle .senderDropped)

/-- Sending a response through the removed entry's oneshot. -/
def State.complete (s : State ω ρ) (sender : Option Nat) (res : ρ) : State ω ρ :=
  match sender with
  | none => s
  | some j => s.modify j (Call.settle (.answered res))

def step (s : State ω ρ) : Label ω ρ → Option (State ω ρ)
  | .request payload => some { s with calls := s.calls ++ [Call.new payload] }
  | .nextReqId i =>
      (s.callAt i .start).map fun _ =>
        { s with
          bridge := s.bridge.nextReqId.2
          issued := s.issued + 1
          calls := s.calls.modify i fun c =>
            { c with seq := s.issued, reqId := s.bridge.nextReqId.1, phase := .ticket } }
  | .register i =>
      (s.callAt i .ticket).map fun c =>
        { ((s.dropEntry (s.bridge.pending c.reqId)).modify i
            fun c => { c with phase := .registered }) with
          bridge := s.bridge.register c.reqId { body := some i, done := i } }
  | .push i =>
      (s.callAt i .registered).map fun c =>
        let req : Ticket ω := { owner := i, reqId := c.reqId, payload := c.payload }
        { (s.modify i fun c => { c with phase := .pushed (s.bridge.push req).1 }) with
          bridge := (s.bridge.push req).2 }
  | .ring i =>
      match s.calls[i]? with
      | some { phase := .pushed wasEmpty, .. } =>
          some { (s.modify i fun c => { c with phase := .enqueued }) with
            doorbells := s.doorbells + if wasEmpty then 1 else 0 }
      | _ => none
  | .callback =>
      if s.js = .idle ∧ 0 < s.doorbells then
        some { s with js := .draining, doorbells := s.doorbells - 1 }
      else none
  | .takeBatch =>
      if s.js = .draining then
        if s.bridge.takeBatch.1.isEmpty then some { s with js := .idle }
        else some { s with
          bridge := s.bridge.takeBatch.2
          batches := s.batches ++ [s.bridge.takeBatch.1] }
      else none
  | .respond i res =>
      if s.handed i then
        (s.calls[i]?).map fun c =>
          { (s.complete (s.bridge.respond c.reqId).1 res) with
            bridge := (s.bridge.respond c.reqId).2
            calls := (s.complete (s.bridge.respond c.reqId).1 res).calls.map fun d =>
              if d.phase.inRegistry && d.reqId == c.reqId then { d with responded := true }
              else d }
      else none
  | .takeBody i =>
      if s.handed i then
        (s.calls[i]?).map fun c =>
          { (s.modify i fun c => { c with bodyTaken := true }) with
            bridge := (s.bridge.takeBody c.reqId).2 }
      else none
  | .gone i =>
      (s.callAt i .enqueued).bind fun c =>
        if c.outcome.isAwaiting then some (s.modify i (Call.settle .gone)) else none

/-! ## When a step is enabled -/

theorem callAt_eq_some {s : State ω ρ} {i : Nat} {p : Phase} {c : Call ω ρ} :
    s.callAt i p = some c ↔ s.calls[i]? = some c ∧ c.phase = p := by
  simp [State.callAt]

/-- The steps with their guards: what `step` makes of each label. -/
inductive Steps (s : State ω ρ) : Label ω ρ → State ω ρ → Prop
  | request (payload : ω) :
      Steps s (.request payload) { s with calls := s.calls ++ [Call.new payload] }
  | nextReqId {i : Nat} {c : Call ω ρ} (hc : s.calls[i]? = some c)
      (hphase : c.phase = .start) :
      Steps s (.nextReqId i)
        { s with
          bridge := s.bridge.nextReqId.2
          issued := s.issued + 1
          calls := s.calls.modify i fun c =>
            { c with seq := s.issued, reqId := s.bridge.nextReqId.1, phase := .ticket } }
  | register {i : Nat} {c : Call ω ρ} (hc : s.calls[i]? = some c)
      (hphase : c.phase = .ticket) :
      Steps s (.register i)
        { ((s.dropEntry (s.bridge.pending c.reqId)).modify i
            fun c => { c with phase := .registered }) with
          bridge := s.bridge.register c.reqId { body := some i, done := i } }
  | push {i : Nat} {c : Call ω ρ} (hc : s.calls[i]? = some c)
      (hphase : c.phase = .registered) :
      Steps s (.push i)
        { (s.modify i fun c => { c with phase := .pushed s.bridge.queue.isEmpty }) with
          bridge := (s.bridge.push { owner := i, reqId := c.reqId, payload := c.payload }).2 }
  | ring {i : Nat} {c : Call ω ρ} {b : Bool} (hc : s.calls[i]? = some c)
      (hphase : c.phase = .pushed b) :
      Steps s (.ring i)
        { (s.modify i fun c => { c with phase := .enqueued }) with
          doorbells := s.doorbells + if b then 1 else 0 }
  | callback (hjs : s.js = .idle) (hbell : 0 < s.doorbells) :
      Steps s .callback { s with js := .draining, doorbells := s.doorbells - 1 }
  | drained (hjs : s.js = .draining) (hqueue : s.bridge.queue = []) :
      Steps s .takeBatch { s with js := .idle }
  | takeBatch (hjs : s.js = .draining) (hqueue : s.bridge.queue ≠ []) :
      Steps s .takeBatch
        { s with
          bridge := s.bridge.takeBatch.2
          batches := s.batches ++ [s.bridge.queue] }
  | respond {i : Nat} {res : ρ} {c : Call ω ρ} (hhanded : s.handed i = true)
      (hc : s.calls[i]? = some c) :
      Steps s (.respond i res)
        { (s.complete (s.bridge.respond c.reqId).1 res) with
          bridge := (s.bridge.respond c.reqId).2
          calls := (s.complete (s.bridge.respond c.reqId).1 res).calls.map fun d =>
            if d.phase.inRegistry && d.reqId == c.reqId then { d with responded := true }
            else d }
  | takeBody {i : Nat} {c : Call ω ρ} (hhanded : s.handed i = true)
      (hc : s.calls[i]? = some c) :
      Steps s (.takeBody i)
        { (s.modify i fun c => { c with bodyTaken := true }) with
          bridge := (s.bridge.takeBody c.reqId).2 }
  | gone {i : Nat} {c : Call ω ρ} (hc : s.calls[i]? = some c)
      (hphase : c.phase = .enqueued) (hawait : c.outcome.isAwaiting = true) :
      Steps s (.gone i) (s.modify i (Call.settle .gone))

theorem step_steps {s t : State ω ρ} {l : Label ω ρ} (h : step s l = some t) :
    Steps s l t := by
  cases l with
  | request payload =>
      obtain rfl := Option.some.inj h
      exact .request payload
  | nextReqId i =>
      obtain ⟨c, hc, rfl⟩ := Option.map_eq_some_iff.1 h
      obtain ⟨hci, hphase⟩ := callAt_eq_some.1 hc
      exact .nextReqId hci hphase
  | register i =>
      obtain ⟨c, hc, rfl⟩ := Option.map_eq_some_iff.1 h
      obtain ⟨hci, hphase⟩ := callAt_eq_some.1 hc
      exact .register hci hphase
  | push i =>
      obtain ⟨c, hc, rfl⟩ := Option.map_eq_some_iff.1 h
      obtain ⟨hci, hphase⟩ := callAt_eq_some.1 hc
      exact .push hci hphase
  | ring i =>
      simp only [step] at h
      split at h
      case h_1 hc =>
        obtain rfl := Option.some.inj h
        exact .ring hc rfl
      case h_2 => cases h
  | callback =>
      simp only [step, Option.ite_none_right_eq_some] at h
      obtain ⟨⟨hjs, hbell⟩, h⟩ := h
      obtain rfl := Option.some.inj h
      exact .callback hjs hbell
  | takeBatch =>
      simp only [step, Option.ite_none_right_eq_some] at h
      obtain ⟨hjs, h⟩ := h
      split at h
      case isTrue hqueue =>
        obtain rfl := Option.some.inj h
        exact .drained hjs (List.isEmpty_iff.1 hqueue)
      case isFalse hqueue =>
        obtain rfl := Option.some.inj h
        exact .takeBatch hjs fun hnil => hqueue (List.isEmpty_iff.2 hnil)
  | respond i res =>
      simp only [step, Option.ite_none_right_eq_some] at h
      obtain ⟨c, hc, rfl⟩ := Option.map_eq_some_iff.1 h.2
      exact .respond h.1 hc
  | takeBody i =>
      simp only [step, Option.ite_none_right_eq_some] at h
      obtain ⟨c, hc, rfl⟩ := Option.map_eq_some_iff.1 h.2
      exact .takeBody h.1 hc
  | gone i =>
      simp only [step, Option.bind_eq_some_iff, Option.ite_none_right_eq_some] at h
      obtain ⟨c, hc, hawait, h⟩ := h
      obtain ⟨hci, hphase⟩ := callAt_eq_some.1 hc
      obtain rfl := Option.some.inj h
      exact .gone hci hphase hawait

/-- The guards of the steps. -/
theorem step_enabled {s t : State ω ρ} {l : Label ω ρ} :
    step s l = some t →
    match l with
    | .request _ => True
    | .nextReqId i => ∃ c, s.calls[i]? = some c ∧ c.phase = .start
    | .register i => ∃ c, s.calls[i]? = some c ∧ c.phase = .ticket
    | .push i => ∃ c, s.calls[i]? = some c ∧ c.phase = .registered
    | .ring i => ∃ c b, s.calls[i]? = some c ∧ c.phase = .pushed b
    | .callback => s.js = .idle ∧ 0 < s.doorbells
    | .takeBatch => s.js = .draining
    | .respond i _ | .takeBody i =>
        s.handed i = true ∧ ∃ c, s.calls[i]? = some c
    | .gone i =>
        ∃ c, s.calls[i]? = some c ∧ c.phase = .enqueued ∧
          c.outcome.isAwaiting = true := by
  intro h
  cases step_steps h with
  | request payload => trivial
  | nextReqId hc hphase | register hc hphase | push hc hphase => exact ⟨_, hc, hphase⟩
  | ring hc hphase => exact ⟨_, _, hc, hphase⟩
  | callback hjs hbell => exact ⟨hjs, hbell⟩
  | drained hjs | takeBatch hjs => exact hjs
  | respond hhanded hc | takeBody hhanded hc => exact ⟨hhanded, _, hc⟩
  | gone hc hphase hawait => exact ⟨_, hc, hphase, hawait⟩

/-! ## What a step does to the calls -/

/-- The registry entry under the id of call `i`. -/
def State.entry (s : State ω ρ) (i : Nat) : Option Pending :=
  (s.calls[i]?).bind fun c => s.bridge.pending c.reqId

/-- What a step does to call `k`. -/
def State.update (s : State ω ρ) (l : Label ω ρ) (k : Nat) (c : Call ω ρ) :
    Call ω ρ :=
  match l with
  | .nextReqId i =>
      if i = k then { c with seq := s.issued, reqId := s.bridge.nextId, phase := .ticket }
      else c
  | .register i =>
      let c' := if (s.entry i).map Pending.done = some k then c.settle .senderDropped else c
      if i = k then { c' with phase := .registered } else c'
  | .push i => if i = k then { c with phase := .pushed s.bridge.queue.isEmpty } else c
  | .ring i => if i = k then { c with phase := .enqueued } else c
  | .respond i res =>
      let c' :=
        if (s.entry i).map Pending.done = some k then c.settle (.answered res) else c
      if c'.phase.inRegistry && some c'.reqId == (s.calls[i]?).map Call.reqId then
        { c' with responded := true }
      else c'
  | .takeBody i => if i = k then { c with bodyTaken := true } else c
  | .gone i => if i = k then c.settle .gone else c
  | .request _ | .callback | .takeBatch => c

section Settle

variable (o : Outcome ρ) (c : Call ω ρ)

@[simp] theorem settle_payload : (c.settle o).payload = c.payload := by
  unfold Call.settle
  split <;> rfl

@[simp] theorem settle_seq : (c.settle o).seq = c.seq := by
  unfold Call.settle
  split <;> rfl

@[simp] theorem settle_reqId : (c.settle o).reqId = c.reqId := by
  unfold Call.settle
  split <;> rfl

@[simp] theorem settle_phase : (c.settle o).phase = c.phase := by
  unfold Call.settle
  split <;> rfl

@[simp] theorem settle_bodyTaken : (c.settle o).bodyTaken = c.bodyTaken := by
  unfold Call.settle
  split <;> rfl

@[simp] theorem settle_responded : (c.settle o).responded = c.responded := by
  unfold Call.settle
  split <;> rfl

end Settle

theorem dropEntry_calls (s : State ω ρ) (p : Option Pending) (k : Nat) :
    (s.dropEntry p).calls[k]? =
      (s.calls[k]?).map fun c =>
        if p.map Pending.done = some k then c.settle .senderDropped else c := by
  cases p with
  | none => simp [State.dropEntry]
  | some p =>
      simp only [State.dropEntry, State.modify, List.getElem?_modify,
        Option.map_some, Option.some.injEq]
      cases s.calls[k]? <;> simp

theorem complete_calls (s : State ω ρ) (sender : Option Nat) (res : ρ) (k : Nat) :
    (s.complete sender res).calls[k]? =
      (s.calls[k]?).map fun c =>
        if sender = some k then c.settle (.answered res) else c := by
  cases sender with
  | none => simp [State.complete]
  | some j =>
      simp only [State.complete, State.modify, List.getElem?_modify,
        Option.some.injEq]
      cases s.calls[k]? <;> simp

theorem dropEntry_length (s : State ω ρ) (p : Option Pending) :
    (s.dropEntry p).calls.length = s.calls.length := by
  cases p <;> simp [State.dropEntry, State.modify]

theorem complete_length (s : State ω ρ) (sender : Option Nat) (res : ρ) :
    (s.complete sender res).calls.length = s.calls.length := by
  cases sender <;> simp [State.complete, State.modify]

theorem respond_fst (b : Bridge ω) (reqId : UInt32) :
    (b.respond reqId).1 = (b.pending reqId).map Pending.done := by
  unfold Bridge.respond
  cases b.pending reqId <;> rfl

theorem entry_eq {s : State ω ρ} {i : Nat} {c : Call ω ρ} (hc : s.calls[i]? = some c) :
    s.entry i = s.bridge.pending c.reqId := by
  simp [State.entry, hc]

/-- A call that was there before a step is there after it, updated. -/
theorem step_calls {s t : State ω ρ} {l : Label ω ρ} (h : step s l = some t)
    {k : Nat} (hk : k < s.calls.length) :
    t.calls[k]? = (s.calls[k]?).map (s.update l k) := by
  have hself : (s.calls[k]?).map (fun c : Call ω ρ => c) = s.calls[k]? := by
    cases s.calls[k]? <;> rfl
  cases step_steps h with
  | request payload => exact (List.getElem?_append_left hk).trans hself.symm
  | callback | drained | takeBatch => exact hself.symm
  | nextReqId =>
      simp only [List.getElem?_modify]
      rfl
  | push | ring | takeBody | gone =>
      simp only [State.modify, List.getElem?_modify]
      rfl
  | register hc =>
      simp only [State.modify, List.getElem?_modify, dropEntry_calls]
      cases s.calls[k]? with
      | none => rfl
      | some d => simp only [Option.map_some, Option.map_eq_map, State.update, entry_eq hc]
  | respond _ hc =>
      simp only [List.getElem?_map, complete_calls, respond_fst]
      cases s.calls[k]? with
      | none => rfl
      | some d =>
          simp only [Option.map_some, State.update, entry_eq hc, hc, Option.some_beq_some]

theorem step_length {s t : State ω ρ} {l : Label ω ρ} (h : step s l = some t) :
    t.calls.length = s.calls.length + (match l with | .request _ => 1 | _ => 0) := by
  cases step_steps h with
  | request payload => simp
  | nextReqId => simp
  | register => simp [State.modify, dropEntry_length]
  | push | ring | takeBody | gone => simp [State.modify]
  | callback | drained | takeBatch => rfl
  | respond => simp [complete_length]

/-- A call after a step was there before it, or was made by the step. -/
theorem step_calls_cases {s t : State ω ρ} {l : Label ω ρ} (h : step s l = some t)
    {k : Nat} {d : Call ω ρ} (hd : t.calls[k]? = some d) :
    (∃ c, s.calls[k]? = some c ∧ d = s.update l k c) ∨
      (k = s.calls.length ∧ ∃ payload, l = .request payload ∧ d = Call.new payload) := by
  by_cases hk : k < s.calls.length
  · rw [step_calls h hk] at hd
    obtain ⟨c, hc, rfl⟩ := Option.map_eq_some_iff.1 hd
    exact Or.inl ⟨c, hc, rfl⟩
  · have hlt : k < t.calls.length := (List.getElem?_eq_some_iff.1 hd).1
    have hlen := step_length h
    cases l with
    | request payload =>
        obtain rfl : k = s.calls.length := by
          simp only at hlen
          omega
        obtain rfl := Option.some.inj h
        exact Or.inr ⟨rfl, payload, rfl, by simpa using hd.symm⟩
    | _ => simp only at hlen; omega

theorem step_calls_some {s t : State ω ρ} {l : Label ω ρ} (h : step s l = some t)
    {k : Nat} {c : Call ω ρ} (hc : s.calls[k]? = some c) :
    t.calls[k]? = some (s.update l k c) := by
  rw [step_calls h (List.getElem?_eq_some_iff.1 hc).1, hc, Option.map_some]

@[simp] theorem update_payload (s : State ω ρ) (l : Label ω ρ) (k : Nat)
    (c : Call ω ρ) : (s.update l k c).payload = c.payload := by
  cases l <;> simp only [State.update] <;> repeat' split
  all_goals simp

theorem update_phase (s : State ω ρ) (l : Label ω ρ) (k : Nat) (c : Call ω ρ) :
    (s.update l k c).phase =
      match l with
      | .nextReqId i => if i = k then .ticket else c.phase
      | .register i => if i = k then .registered else c.phase
      | .push i => if i = k then .pushed s.bridge.queue.isEmpty else c.phase
      | .ring i => if i = k then .enqueued else c.phase
      | _ => c.phase := by
  cases l <;> simp only [State.update] <;> repeat' split
  all_goals simp

theorem update_responded (s : State ω ρ) (l : Label ω ρ) (k : Nat)
    (c : Call ω ρ) :
    (s.update l k c).responded =
      match l with
      | .respond i _ =>
          c.phase.inRegistry && some c.reqId == (s.calls[i]?).map Call.reqId ||
            c.responded
      | _ => c.responded := by
  cases l with
  | respond i res =>
      simp only [State.update]
      by_cases hdone : (s.entry i).map Pending.done = some k
      · simp only [hdone, if_true, settle_phase, settle_reqId]
        split <;> simp_all
      · simp only [hdone, if_false]
        split <;> simp_all
  | _ =>
      simp only [State.update] <;> repeat' split
      all_goals simp

/-- A call at phase `p` that a step moves is the one whose phase was tested. -/
theorem phase_of_guard {s : State ω ρ} {i k : Nat} {c : Call ω ρ} {p : Phase}
    (hguard : ∃ c, s.calls[i]? = some c ∧ c.phase = p)
    (hc : s.calls[k]? = some c) (hik : i = k) : c.phase = p := by
  obtain ⟨c', hc', hphase⟩ := hguard
  obtain rfl := Option.some.inj (hc'.symm.trans (hik ▸ hc))
  exact hphase

theorem update_reqId {s t : State ω ρ} {l : Label ω ρ} {k : Nat} {c : Call ω ρ}
    (h : step s l = some t) (hc : s.calls[k]? = some c) (hp : c.phase ≠ .start) :
    (s.update l k c).reqId = c.reqId := by
  cases l with
  | nextReqId i =>
      have hik : i ≠ k := fun hik => hp (phase_of_guard (step_enabled h) hc hik)
      simp [State.update, hik]
  | _ =>
      simp only [State.update] <;> repeat' split
      all_goals simp

theorem update_seq {s t : State ω ρ} {l : Label ω ρ} {k : Nat} {c : Call ω ρ}
    (h : step s l = some t) (hc : s.calls[k]? = some c) (hp : c.phase ≠ .start) :
    (s.update l k c).seq = c.seq := by
  cases l with
  | nextReqId i =>
      have hik : i ≠ k := fun hik => hp (phase_of_guard (step_enabled h) hc hik)
      simp [State.update, hik]
  | _ =>
      simp only [State.update] <;> repeat' split
      all_goals simp

/-- A call leaves `start` by taking an id. -/
theorem update_start {s t : State ω ρ} {l : Label ω ρ} {k : Nat} {c : Call ω ρ}
    (h : step s l = some t) (hc : s.calls[k]? = some c) (hp : c.phase = .start)
    (hp' : (s.update l k c).phase ≠ .start) : l = .nextReqId k := by
  rw [update_phase] at hp'
  cases l with
  | nextReqId i =>
      by_cases hik : i = k
      · rw [hik]
      · simp [hik, hp] at hp'
  | register i | push i =>
      by_cases hik : i = k
      · have hphase := phase_of_guard (step_enabled h) hc hik
        simp [hp] at hphase
      · simp [hik, hp] at hp'
  | ring i =>
      by_cases hik : i = k
      · obtain ⟨c', b, hc', hphase⟩ := step_enabled h
        have hring := phase_of_guard ⟨c', hc', hphase⟩ hc hik
        simp [hp] at hring
      · simp [hik, hp] at hp'
  | _ => exact absurd hp hp'

theorem update_inRegistry {s t : State ω ρ} {l : Label ω ρ} {k : Nat}
    {c : Call ω ρ} (h : step s l = some t) (hc : s.calls[k]? = some c) :
    (s.update l k c).phase.inRegistry =
      match l with
      | .register i => decide (i = k) || c.phase.inRegistry
      | _ => c.phase.inRegistry := by
  have hguard := step_enabled h
  rw [update_phase]
  cases l with
  | nextReqId i | push i =>
      by_cases hik : i = k
      · simp [hik, phase_of_guard hguard hc hik, Phase.inRegistry]
      · simp [hik]
  | register i =>
      by_cases hik : i = k
      · simp [hik, Phase.inRegistry]
      · simp [hik]
  | ring i =>
      obtain ⟨c', b, hc', hphase⟩ := hguard
      by_cases hik : i = k
      · simp [hik, phase_of_guard ⟨c', hc', hphase⟩ hc hik, Phase.inRegistry]
      · simp [hik]
  | _ => rfl

theorem update_inQueue {s t : State ω ρ} {l : Label ω ρ} {k : Nat}
    {c : Call ω ρ} (h : step s l = some t) (hc : s.calls[k]? = some c) :
    (s.update l k c).phase.inQueue =
      match l with
      | .push i => decide (i = k) || c.phase.inQueue
      | _ => c.phase.inQueue := by
  have hguard := step_enabled h
  rw [update_phase]
  cases l with
  | nextReqId i | register i =>
      by_cases hik : i = k
      · simp [hik, phase_of_guard hguard hc hik, Phase.inQueue]
      · simp [hik]
  | push i =>
      by_cases hik : i = k
      · simp [hik, Phase.inQueue]
      · simp [hik]
  | ring i =>
      obtain ⟨c', b, hc', hphase⟩ := hguard
      by_cases hik : i = k
      · simp [hik, phase_of_guard ⟨c', hc', hphase⟩ hc hik, Phase.inQueue]
      · simp [hik]
  | _ => rfl

theorem inRegistry_of_inQueue {p : Phase} (h : p.inQueue = true) :
    p.inRegistry = true := by
  cases p <;> first | rfl | cases h

/-! ## What a step does to the queue, the doorbell and the registry -/

theorem dropEntry_frame (s : State ω ρ) (p : Option Pending) :
    (s.dropEntry p).batches = s.batches ∧
      (s.dropEntry p).doorbells = s.doorbells ∧ (s.dropEntry p).js = s.js := by
  cases p <;> exact ⟨rfl, rfl, rfl⟩

theorem complete_frame (s : State ω ρ) (sender : Option Nat) (res : ρ) :
    (s.complete sender res).batches = s.batches ∧
      (s.complete sender res).doorbells = s.doorbells ∧
      (s.complete sender res).js = s.js := by
  cases sender <;> exact ⟨rfl, rfl, rfl⟩

theorem respond_queue (b : Bridge ω) (reqId : UInt32) :
    (b.respond reqId).2.queue = b.queue := by
  unfold Bridge.respond
  cases b.pending reqId <;> rfl

theorem takeBody_queue (b : Bridge ω) (reqId : UInt32) :
    (b.takeBody reqId).2.queue = b.queue := by
  unfold Bridge.takeBody
  cases b.pending reqId <;> rfl

theorem dropEntry_issued (s : State ω ρ) (p : Option Pending) :
    (s.dropEntry p).issued = s.issued := by
  cases p <;> rfl

theorem complete_issued (s : State ω ρ) (sender : Option Nat) (res : ρ) :
    (s.complete sender res).issued = s.issued := by
  cases sender <;> rfl

theorem respond_nextId (b : Bridge ω) (reqId : UInt32) :
    (b.respond reqId).2.nextId = b.nextId := by
  unfold Bridge.respond
  cases b.pending reqId <;> rfl

theorem takeBody_nextId (b : Bridge ω) (reqId : UInt32) :
    (b.takeBody reqId).2.nextId = b.nextId := by
  unfold Bridge.takeBody
  cases b.pending reqId <;> rfl

theorem respond_pending (b : Bridge ω) (reqId : UInt32) :
    (b.respond reqId).2.pending = Function.update b.pending reqId none := by
  unfold Bridge.respond
  cases hp : b.pending reqId with
  | none => exact ((Function.update_eq_self_iff).2 hp.symm).symm
  | some p => rfl

theorem takeBody_pending (b : Bridge ω) (reqId : UInt32) :
    (b.takeBody reqId).2.pending =
      Function.update b.pending reqId
        ((b.pending reqId).map fun p => { p with body := none }) := by
  unfold Bridge.takeBody
  cases hp : b.pending reqId with
  | none => exact ((Function.update_eq_self_iff).2 hp.symm).symm
  | some p => rfl

theorem step_delivery {s t : State ω ρ} {l : Label ω ρ} :
    step s l = some t →
    match l with
    | .push i => ∃ c, s.calls[i]? = some c ∧
        t.bridge.queue = s.bridge.queue ++
          [{ owner := i, reqId := c.reqId, payload := c.payload }] ∧
        t.batches = s.batches ∧ t.doorbells = s.doorbells ∧ t.js = s.js
    | .ring i => ∃ c b, s.calls[i]? = some c ∧ c.phase = .pushed b ∧
        t.bridge.queue = s.bridge.queue ∧ t.batches = s.batches ∧
        t.doorbells = s.doorbells + (if b then 1 else 0) ∧ t.js = s.js
    | .callback =>
        t.bridge.queue = s.bridge.queue ∧ t.batches = s.batches ∧
        t.doorbells = s.doorbells - 1 ∧ t.js = .draining
    | .takeBatch =>
        (s.bridge.queue = [] ∧ t.bridge.queue = [] ∧ t.batches = s.batches ∧
          t.doorbells = s.doorbells ∧ t.js = .idle) ∨
        (s.bridge.queue ≠ [] ∧ t.bridge.queue = [] ∧
          t.batches = s.batches ++ [s.bridge.queue] ∧
          t.doorbells = s.doorbells ∧ t.js = .draining)
    | _ =>
        t.bridge.queue = s.bridge.queue ∧ t.batches = s.batches ∧
        t.doorbells = s.doorbells ∧ t.js = s.js := by
  intro h
  cases step_steps h with
  | request | nextReqId | gone => exact ⟨rfl, rfl, rfl, rfl⟩
  | register => exact ⟨rfl, (dropEntry_frame s _).1, (dropEntry_frame s _).2⟩
  | push hc => exact ⟨_, hc, rfl, rfl, rfl, rfl⟩
  | ring hc hphase => exact ⟨_, _, hc, hphase, rfl, rfl, rfl, rfl⟩
  | callback => exact ⟨rfl, rfl, rfl, rfl⟩
  | drained _ hqueue => exact Or.inl ⟨hqueue, hqueue, rfl, rfl, rfl⟩
  | takeBatch hjs hqueue => exact Or.inr ⟨hqueue, rfl, rfl, rfl, hjs⟩
  | respond => exact ⟨respond_queue _ _, complete_frame _ _ _⟩
  | takeBody => exact ⟨takeBody_queue _ _, rfl, rfl, rfl⟩

theorem step_ids {s t : State ω ρ} {l : Label ω ρ} :
    step s l = some t →
    match l with
    | .nextReqId _ =>
        t.issued = s.issued + 1 ∧ t.bridge.nextId = s.bridge.nextId + 1
    | _ => t.issued = s.issued ∧ t.bridge.nextId = s.bridge.nextId := by
  intro h
  cases step_steps h with
  | request | nextReqId | push | ring | callback | drained | takeBatch | gone =>
      exact ⟨rfl, rfl⟩
  | register => exact ⟨dropEntry_issued s _, rfl⟩
  | respond => exact ⟨complete_issued s _ _, respond_nextId _ _⟩
  | takeBody => exact ⟨rfl, takeBody_nextId _ _⟩

theorem step_pending {s t : State ω ρ} {l : Label ω ρ} :
    step s l = some t →
    match l with
    | .register i => ∃ c, s.calls[i]? = some c ∧
        t.bridge.pending =
          Function.update s.bridge.pending c.reqId (some { body := some i, done := i })
    | .respond i _ => ∃ c, s.calls[i]? = some c ∧
        t.bridge.pending = Function.update s.bridge.pending c.reqId none
    | .takeBody i => ∃ c, s.calls[i]? = some c ∧
        t.bridge.pending =
          Function.update s.bridge.pending c.reqId
            ((s.bridge.pending c.reqId).map fun p => { p with body := none })
    | _ => t.bridge.pending = s.bridge.pending := by
  intro h
  cases step_steps h with
  | request | nextReqId | push | ring | callback | drained | takeBatch | gone => rfl
  | register hc => exact ⟨_, hc, rfl⟩
  | respond _ hc => exact ⟨_, hc, respond_pending _ _⟩
  | takeBody _ hc => exact ⟨_, hc, takeBody_pending _ _⟩

end BatchedBridge
end OxideHttp
