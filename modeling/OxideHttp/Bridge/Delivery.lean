import OxideHttp.Bridge
import OxideHttp.Lib.Doorbell

/-!
# Delivery of batched requests

The queue and the doorbell of the bridge are an instance of the edge-triggered
doorbell of `Lib.Doorbell`: the producers are the `enqueue` calls, the consumer
is `#drainBatch` on the JS thread.  `Refines` relates the two, and everything
about wakeups and about the order of delivery is taken over from there.

What the abstract queue does not know is the registry.  `EntryPresent` says
that a request JS can see has its own entry until somebody responds under its
id; it is kept by every run that registers requests under free ids.

Result: `batched_delivery`.
-/

namespace OxideHttp
namespace BatchedBridge

open Transition

variable {ω ρ : Type}

/-! ## The refinement -/

/-- The part of a label that the queue and the doorbell see. -/
def Label.view : Label ω ρ → Option (Doorbell.Label Nat)
  | .push i => some (.push i)
  | .ring i => some (.ring i)
  | .callback => some .callback
  | .takeBatch => some .take
  | _ => none

/-- `none` before the push, then whether a ring is outstanding, and which. -/
def Phase.pushed? : Phase → Option (Option Bool)
  | .start | .ticket | .registered => none
  | .pushed wasEmpty => some (some wasEmpty)
  | .enqueued => some none

def State.pushedAt (s : State ω ρ) (i : Nat) : Option (Option Bool) :=
  (s.calls[i]?).bind fun c => c.phase.pushed?

theorem step_pushedAt {s t : State ω ρ} {l : Label ω ρ} :
    step s l = some t → ∀ k,
    t.pushedAt k =
      match l with
      | .push i => if i = k then some (some s.bridge.queue.isEmpty) else s.pushedAt k
      | .ring i => if i = k then some none else s.pushedAt k
      | _ => s.pushedAt k := by
  intro h k
  by_cases hk : k < s.calls.length
  · obtain ⟨c, hc⟩ : ∃ c, s.calls[k]? = some c := ⟨_, List.getElem?_eq_getElem hk⟩
    have htc := step_calls_some h hc
    simp only [State.pushedAt, htc, hc, Option.bind_some]
    cases l with
    | request payload | callback | takeBatch => rfl
    | nextReqId i =>
        obtain ⟨c', hc', hphase⟩ := step_enabled h
        by_cases hik : i = k
        · subst hik
          obtain rfl := Option.some.inj (hc'.symm.trans hc)
          simp [State.update, Phase.pushed?, hphase]
        · simp [State.update, hik]
    | register i =>
        obtain ⟨c', hc', hphase⟩ := step_enabled h
        by_cases hik : i = k
        · subst hik
          obtain rfl := Option.some.inj (hc'.symm.trans hc)
          simp [State.update, Phase.pushed?, hphase]
        · simp only [State.update, hik, if_false]
          split <;> simp [settle_phase]
    | push i | ring i =>
        by_cases hik : i = k <;> simp [State.update, hik, Phase.pushed?]
    | respond i res =>
        simp only [State.update]
        split <;> split <;> simp [settle_phase]
    | takeBody i | gone i =>
        simp only [State.update]
        split <;> simp [settle_phase]
  · have hs : s.calls[k]? = none := List.getElem?_eq_none (Nat.le_of_not_lt hk)
    have ht : t.pushedAt k = none := by
      cases hd : t.calls[k]? with
      | none => simp [State.pushedAt, hd]
      | some d =>
          rcases step_calls_cases h hd with ⟨c, hc, _⟩ | ⟨_, payload, _, rfl⟩
          · rw [hs] at hc
            cases hc
          · simp [State.pushedAt, hd, Call.new, Phase.pushed?]
    have hsk : s.pushedAt k = none := by simp [State.pushedAt, hs]
    cases l with
    | push i =>
        obtain ⟨c, hc, _⟩ := step_enabled h
        have hik : i ≠ k := fun hik => by rw [hik, hs] at hc; cases hc
        simp [ht, hsk, hik]
    | ring i =>
        obtain ⟨c, _, hc, _⟩ := step_enabled h
        have hik : i ≠ k := fun hik => by rw [hik, hs] at hc; cases hc
        simp [ht, hsk, hik]
    | _ => rw [ht, hsk]

/-- The bridge seen as a queue with a doorbell. -/
structure Refines (s : State ω ρ) (a : Doorbell.State Nat) : Prop where
  queue : a.queue = s.bridge.queue.map Ticket.owner
  batches : a.batches = s.batches.map (List.map Ticket.owner)
  doorbells : a.doorbells = s.doorbells
  draining : a.draining = true ↔ s.js = .draining
  pushers : ∀ i b, (i, b) ∈ a.pushers ↔ s.pushedAt i = some (some b)
  items : ∀ i, i ∈ a.items ↔ (s.pushedAt i).isSome = true

theorem refines_init : Refines (State.init : State ω ρ) Doorbell.State.init where
  queue := rfl
  batches := rfl
  doorbells := rfl
  draining := by simp [Doorbell.State.init, State.init]
  pushers := by simp [Doorbell.State.init, State.init, State.pushedAt]
  items := by
    simp [Doorbell.State.items, Doorbell.State.init, State.init, State.pushedAt]

theorem refines_skip {s t : State ω ρ} {l : Label ω ρ} {a : Doorbell.State Nat}
    (hR : Refines s a) (h : step s l = some t) (hl : l.view = none) :
    Refines t a := by
  have hpushed := step_pushedAt h
  have hframe := step_delivery h
  cases l with
  | push i | ring i | callback | takeBatch => cases hl
  | request _ | nextReqId _ | register _ | respond _ _ | takeBody _ | gone _ =>
      obtain ⟨hq, hb, hd, hjs⟩ := hframe
      exact
        { queue := by rw [hq, hR.queue]
          batches := by rw [hb, hR.batches]
          doorbells := by rw [hd, hR.doorbells]
          draining := by rw [hjs, hR.draining]
          pushers := fun i b => by rw [hpushed, hR.pushers]
          items := fun i => by rw [hpushed, hR.items] }

/-- A push finds the queue empty in both or in neither. -/
theorem refines_push {s t : State ω ρ} {i : Nat} {a : Doorbell.State Nat} (hR : Refines s a)
    (h : step s (.push i) = some t) :
    ∃ b, Doorbell.step a (.push i) = some b ∧ Refines t b := by
  have hpushed := step_pushedAt h
  have hframe := step_delivery h
  have hguard := step_enabled h
  have hempty : a.queue.isEmpty = s.bridge.queue.isEmpty := by
    rw [hR.queue, List.isEmpty_map]
  obtain ⟨c, hc, hphase⟩ := hguard
  obtain ⟨c', hc', hq, hb, hd, hjs⟩ := hframe
  have hnew : i ∉ a.items := by
    rw [hR.items]
    simp [State.pushedAt, hc, hphase, Phase.pushed?]
  refine ⟨_, if_neg hnew, ?_⟩
  exact
    { queue := by simp [hq, hR.queue]
      batches := by rw [hb, hR.batches]
      doorbells := by rw [hd, hR.doorbells]
      draining := by rw [hjs, hR.draining]
      pushers := fun k b => by
        rw [hpushed, List.mem_cons, hR.pushers, hempty]
        by_cases hik : i = k
        · subst hik
          simp [State.pushedAt, hc, hphase, Phase.pushed?, eq_comm]
        · simp [hik, Ne.symm hik]
      items := fun k => by
        have hitems := hR.items k
        simp only [Doorbell.State.items, List.mem_append] at hitems
        simp only [hpushed, Doorbell.State.items, List.mem_append,
          List.mem_singleton, ← or_assoc, hitems]
        by_cases hik : i = k
        · simp [hik]
        · simp [hik, Ne.symm hik] }

/-- The doorbell rings in both for the push that found the queue empty. -/
theorem refines_ring {s t : State ω ρ} {i : Nat} {a : Doorbell.State Nat} (hR : Refines s a)
    (h : step s (.ring i) = some t) :
    ∃ b, Doorbell.step a (.ring i) = some b ∧ Refines t b := by
  have hpushed := step_pushedAt h
  have hframe := step_delivery h
  obtain ⟨c, b, hc, hphase, hq, hb, hd, hjs⟩ := hframe
  have hpush : ∀ e, (i, e) ∈ a.pushers ↔ e = b := by
    intro e
    simp [hR.pushers, State.pushedAt, hc, hphase, Phase.pushed?, eq_comm]
  have hany : a.pushers.any (fun p => p.1 = i) = true :=
    List.any_eq_true.2 ⟨(i, b), (hpush b).2 rfl, by simp⟩
  refine ⟨_, if_pos hany, ?_⟩
  exact
    { queue := by simp [hq, hR.queue]
      batches := by rw [hb, hR.batches]
      doorbells := by
        simp only [hpush, hd, hR.doorbells]
        cases b <;> simp
      draining := by rw [hjs, hR.draining]
      pushers := fun k e => by
        rw [hpushed, List.mem_filter, hR.pushers]
        by_cases hik : i = k
        · simp [hik]
        · simp [hik, Ne.symm hik]
      items := fun k => by
        rw [hpushed]
        by_cases hik : i = k
        · subst hik
          have hitem := (hR.items i).2
            (by simp [State.pushedAt, hc, hphase, Phase.pushed?])
          simpa [Doorbell.State.items] using hitem
        · simp only [hik, if_false]
          exact hR.items k }

theorem refines_callback {s t : State ω ρ} {a : Doorbell.State Nat} (hR : Refines s a)
    (h : step s .callback = some t) :
    ∃ b, Doorbell.step a .callback = some b ∧ Refines t b := by
  have hpushed := step_pushedAt h
  have hframe := step_delivery h
  have hguard := step_enabled h
  obtain ⟨hidle, hpos⟩ := hguard
  obtain ⟨hq, hb, hd, hjs⟩ := hframe
  have hnot : a.draining = false := by
    have hdrain := hR.draining
    rw [hidle] at hdrain
    simpa using hdrain
  refine ⟨_, if_pos ⟨hnot, by rw [hR.doorbells]; exact hpos⟩, ?_⟩
  exact
    { queue := by rw [hq]; exact hR.queue
      batches := by rw [hb]; exact hR.batches
      doorbells := by rw [hd, ← hR.doorbells]
      draining := by simp [hjs]
      pushers := fun k e => by rw [hpushed]; exact hR.pushers k e
      items := fun k => by rw [hpushed]; exact hR.items k }

theorem refines_takeBatch {s t : State ω ρ} {a : Doorbell.State Nat} (hR : Refines s a)
    (h : step s .takeBatch = some t) :
    ∃ b, Doorbell.step a .take = some b ∧ Refines t b := by
  have hpushed := step_pushedAt h
  have hframe := step_delivery h
  have hguard := step_enabled h
  have hempty : a.queue.isEmpty = s.bridge.queue.isEmpty := by
    rw [hR.queue, List.isEmpty_map]
  have hdrain : a.draining = true := hR.draining.2 hguard
  rcases hframe with ⟨hnil, hq, hb, hd, hjs⟩ | ⟨hne, hq, hb, hd, hjs⟩
  · have hanil : a.queue = [] := by rw [hR.queue, hnil]; rfl
    refine ⟨{ a with draining := false }, by simp [Doorbell.step, hdrain, hanil], ?_⟩
    exact
      { queue := by rw [hq]; exact hanil
        batches := by rw [hb]; exact hR.batches
        doorbells := by rw [hd]; exact hR.doorbells
        draining := by simp [hjs]
        pushers := fun k e => by rw [hpushed]; exact hR.pushers k e
        items := fun k => by rw [hpushed]; exact hR.items k }
  · have hane : a.queue.isEmpty = false := by
      rw [hempty]
      simpa using hne
    refine ⟨{ a with queue := [], batches := a.batches ++ [a.queue] },
      by simp [Doorbell.step, hdrain, hane], ?_⟩
    exact
      { queue := by rw [hq]; rfl
        batches := by simp [hb, hR.batches, hR.queue]
        doorbells := by rw [hd]; exact hR.doorbells
        draining := by simp [hjs, hdrain]
        pushers := fun k e => by rw [hpushed]; exact hR.pushers k e
        items := fun k => by
          rw [hpushed]
          simpa [Doorbell.State.items] using hR.items k }

theorem refines_step {s t : State ω ρ} {l : Label ω ρ} {a : Doorbell.State Nat}
    {m : Doorbell.Label Nat}
    (hR : Refines s a) (h : step s l = some t) (hl : l.view = some m) :
    ∃ b, Doorbell.step a m = some b ∧ Refines t b := by
  cases l with
  | request _ | nextReqId _ | register _ | respond _ _ | takeBody _ | gone _ => cases hl
  | push i =>
      obtain rfl := Option.some.inj hl
      exact refines_push hR h
  | ring i =>
      obtain rfl := Option.some.inj hl
      exact refines_ring hR h
  | callback =>
      obtain rfl := Option.some.inj hl
      exact refines_callback hR h
  | takeBatch =>
      obtain rfl := Option.some.inj hl
      exact refines_takeBatch hR h

/-- Every run of the bridge is a run of the queue with the doorbell. -/
theorem run_refines {ls : List (Label ω ρ)} {s : State ω ρ}
    (hrun : run step State.init ls = some s) :
    ∃ a, run Doorbell.step Doorbell.State.init (ls.filterMap Label.view) = some a ∧
      Refines s a :=
  run_simulates Refines Label.view
    (fun _ _ _ _ => refines_skip) (fun _ _ _ _ _ => refines_step)
    refines_init hrun

/-! ## Wakeups and delivery -/

/-- A non-empty queue has a wakeup on its way: a doorbell call is pending, the
drain loop will take again, or an enqueuer that saw the queue empty has not rung
yet. -/
def WakeupPending (s : State ω ρ) : Prop :=
  s.bridge.queue ≠ [] →
    0 < s.doorbells ∨ s.js = .draining ∨ ∃ c ∈ s.calls, c.phase = .pushed true

/-- Everything pushed so far: what JS was given, then what is still queued. -/
def State.tickets (s : State ω ρ) : List (Ticket ω) :=
  s.batches.flatten ++ s.bridge.queue

def Label.pushedBy : Label ω ρ → Option Nat
  | .push i => some i
  | _ => none

/-- The moves that bring a pushed request to JS. -/
def Label.isDelivery : Label ω ρ → Bool
  | .ring _ | .callback | .takeBatch => true
  | _ => false

/-- What holds of delivery when the run `ls` has led to `s`. -/
structure Delivered (ls : List (Label ω ρ)) (s : State ω ρ) : Prop where
  wakeup : WakeupPending s
  /-- the requests come out in the order of the pushes -/
  order : s.tickets.map Ticket.owner = ls.filterMap Label.pushedBy
  /-- no request comes out twice -/
  once : (s.tickets.map Ticket.owner).Nodup
  /-- each as its call pushed it -/
  content : ∀ r ∈ s.tickets, ∃ c, s.calls[r.owner]? = some c ∧
    c.phase.inQueue = true ∧ r.reqId = c.reqId ∧ r.payload = c.payload
  /-- a push pays for at most four moves towards JS -/
  moves : ls.countP Label.isDelivery ≤ 4 * ls.countP fun l => l.pushedBy.isSome
  /-- and when no such move is left, JS has everything -/
  complete : (∀ l : Label ω ρ, l.isDelivery = true → step s l = none) →
    s.bridge.queue = []

theorem Refines.tickets {s : State ω ρ} {a : Doorbell.State Nat}
    (hR : Refines s a) : s.tickets.map Ticket.owner = a.items := by
  simp [State.tickets, Doorbell.State.items, hR.queue, hR.batches,
    List.map_flatten]

theorem Refines.wakeupPending {s : State ω ρ} {a : Doorbell.State Nat}
    (hR : Refines s a) (hw : Doorbell.WakeupPending a) : WakeupPending s := by
  intro hne
  have hane : a.queue ≠ [] := by simpa [hR.queue] using hne
  rcases hw hane with hd | hd | ⟨i, hi⟩
  · exact Or.inl (by rw [← hR.doorbells]; exact hd)
  · exact Or.inr (Or.inl (hR.draining.1 hd))
  · have hpushed := (hR.pushers i true).1 hi
    simp only [State.pushedAt, Option.bind_eq_some_iff] at hpushed
    obtain ⟨c, hc, hphase⟩ := hpushed
    refine Or.inr (Or.inr ⟨c, List.mem_of_getElem? hc, ?_⟩)
    cases hcp : c.phase <;> simp_all [Phase.pushed?]

/-- A move that is left to the abstract queue is left to the bridge. -/
theorem Refines.quiescent {s : State ω ρ} {a : Doorbell.State Nat}
    (hR : Refines s a)
    (hq : ∀ l : Label ω ρ, l.isDelivery = true → step s l = none) :
    Doorbell.Quiescent a := by
  intro m hm
  by_contra hne
  obtain ⟨b, hb⟩ := Option.ne_none_iff_exists'.1 hne
  cases m with
  | push i => cases hm
  | ring i =>
      obtain ⟨⟨e, he⟩, _⟩ := Doorbell.step_cases hb
      have hpushed := (hR.pushers i e).1 he
      simp only [State.pushedAt, Option.bind_eq_some_iff] at hpushed
      obtain ⟨c, hc, hphase⟩ := hpushed
      have hnone := hq (.ring i) rfl
      obtain ⟨_, _, _, phase, _, _, _⟩ := c
      cases phase with
      | pushed b => simp [step, hc] at hnone
      | _ => simp [Phase.pushed?] at hphase
  | callback =>
      obtain ⟨hidle, hpos, _⟩ := Doorbell.step_cases hb
      have hjs : s.js = .idle := by
        have hdrain := hR.draining
        rw [hidle] at hdrain
        cases hsj : s.js with
        | idle => rfl
        | draining => simp [hsj] at hdrain
      rw [hR.doorbells] at hpos
      have hnone := hq .callback rfl
      simp [step, hjs, hpos] at hnone
  | take =>
      obtain ⟨hdrain, _⟩ := Doorbell.step_cases hb
      have hnone := hq .takeBatch rfl
      simp only [step, hR.draining.1 hdrain, if_true] at hnone
      split at hnone <;> cases hnone

/-- Each ticket is the one its call pushed. -/
def TicketsMatch (s : State ω ρ) : Prop :=
  ∀ r ∈ s.tickets, ∃ c, s.calls[r.owner]? = some c ∧
    c.phase.inQueue = true ∧ r.reqId = c.reqId ∧ r.payload = c.payload

theorem step_tickets {s t : State ω ρ} {l : Label ω ρ} :
    step s l = some t →
    match l with
    | .push i => ∃ c, s.calls[i]? = some c ∧
        t.tickets = s.tickets ++
          [{ owner := i, reqId := c.reqId, payload := c.payload }]
    | _ => t.tickets = s.tickets := by
  intro h
  have hframe := step_delivery h
  cases l with
  | push i =>
      obtain ⟨c, hc, hq, hb, _⟩ := hframe
      exact ⟨c, hc, by simp [State.tickets, hq, hb]⟩
  | takeBatch =>
      rcases hframe with ⟨hnil, hq, hb, _⟩ | ⟨_, hq, hb, _⟩
      · simp [State.tickets, hq, hb, hnil]
      · simp [State.tickets, hq, hb]
  | ring i =>
      obtain ⟨c, b, _, _, hq, hb, _⟩ := hframe
      simp [State.tickets, hq, hb]
  | request _ | nextReqId _ | register _ | callback | respond _ _ | takeBody _
  | gone _ =>
      obtain ⟨hq, hb, _⟩ := hframe
      simp [State.tickets, hq, hb]

theorem step_ticketsMatch {s t : State ω ρ} {l : Label ω ρ}
    (hm : TicketsMatch s) (h : step s l = some t) : TicketsMatch t := by
  have hkeep : ∀ r ∈ s.tickets, ∃ c, t.calls[r.owner]? = some c ∧
      c.phase.inQueue = true ∧ r.reqId = c.reqId ∧ r.payload = c.payload := by
    intro r hr
    obtain ⟨c, hc, hin, hid, hpay⟩ := hm r hr
    have hstart : c.phase ≠ .start := by
      intro hphase
      simp [Phase.inQueue, hphase] at hin
    have hin' : (s.update l r.owner c).phase.inQueue = true := by
      rw [update_inQueue h hc]
      cases l <;> simp [hin]
    exact ⟨_, step_calls_some h hc, hin',
      by rw [update_reqId h hc hstart, hid], by rw [update_payload, hpay]⟩
  have htickets := step_tickets h
  cases l with
  | push i =>
      obtain ⟨c, hc, htickets⟩ := htickets
      obtain ⟨c', hc', hphase⟩ := step_enabled h
      obtain rfl := Option.some.inj (hc.symm.trans hc')
      intro r hr
      rw [htickets, List.mem_append, List.mem_singleton] at hr
      rcases hr with hr | rfl
      · exact hkeep r hr
      · exact ⟨_, step_calls_some h hc, by simp [State.update, Phase.inQueue],
          by simp [State.update], by simp [State.update]⟩
  | request _ | nextReqId _ | register _ | ring _ | callback | takeBatch
  | respond _ _ | takeBody _ | gone _ =>
      intro r hr
      rw [htickets] at hr
      exact hkeep r hr

theorem run_delivered {ls : List (Label ω ρ)} {s : State ω ρ}
    (hrun : run step State.init ls = some s) : Delivered ls s := by
  obtain ⟨a, ha, hR⟩ := run_refines hrun
  have hitems := Doorbell.run_items ha
  exact
    { wakeup := hR.wakeupPending (Doorbell.run_wakeupPending ha)
      order := by
        rw [hR.tickets, hitems]
        simp only [Doorbell.State.items, Doorbell.State.init, List.flatten_nil,
          List.append_nil, List.nil_append, List.filterMap_filterMap]
        congr 1
        funext l
        cases l <;> rfl
      once := by
        rw [hR.tickets]
        exact Doorbell.run_nodup ha
      content := by
        refine run_invariant (I := TicketsMatch)
          (fun _ _ _ => step_ticketsMatch) ?_ hrun
        intro r hr
        simp [State.tickets, State.init, Bridge.new] at hr
      moves := by
        have hmoves := Doorbell.run_moves_le ha
        simp only [List.countP_filterMap] at hmoves
        have hdelivery : (Label.isDelivery : Label ω ρ → Bool) =
            fun l => (l.view.map fun m => !m.isPush).getD false := by
          funext l
          cases l <;> rfl
        have hpush : (fun l : Label ω ρ => l.pushedBy.isSome) =
            fun l => (l.view.map Doorbell.Label.isPush).getD false := by
          funext l
          cases l <;> rfl
        rw [hdelivery, hpush]
        exact hmoves
      complete := fun hq => by
        have hnil := Doorbell.queue_eq_nil_of_quiescent
          (Doorbell.run_wakeupPending ha) (hR.quiescent hq)
        simpa [hR.queue] using hnil }

/-! ## The registry entry of a request that JS can see -/

/-- The id under which a request is registered is free: this is what keeps the
ids of the pending requests distinct. -/
def FreshId (s : State ω ρ) : Label ω ρ → Prop
  | .register i => ∀ c, s.calls[i]? = some c → s.bridge.pending c.reqId = none
  | _ => True

/-- A registered call has its own entry until somebody responds under its id. -/
def EntryPresent (s : State ω ρ) : Prop :=
  ∀ i c, s.calls[i]? = some c → c.phase.inRegistry = true → c.responded = false →
    ∃ p, s.bridge.pending c.reqId = some p ∧ p.done = i

theorem registered_ne_start {c : Call ω ρ} (h : c.phase.inRegistry = true) :
    c.phase ≠ .start := fun hp => by
  simp [hp, Phase.inRegistry] at h

/-- A call that is registered after a step was so before, or has just been. -/
theorem registered_cases {s t : State ω ρ} {l : Label ω ρ} {k : Nat} {c : Call ω ρ}
    (h : step s l = some t) (hc : s.calls[k]? = some c)
    (hin : (s.update l k c).phase.inRegistry = true) :
    l = .register k ∨ (l ≠ .register k ∧ c.phase.inRegistry = true) := by
  rw [update_inRegistry h hc] at hin
  by_cases hl : l = .register k
  · exact Or.inl hl
  · refine Or.inr ⟨hl, ?_⟩
    cases l with
    | register i =>
        have hik : i ≠ k := fun hik => hl (hik ▸ rfl)
        simpa [hik] using hin
    | _ => exact hin

/-- `register` makes the call its entry. -/
theorem entry_registered {s t : State ω ρ} {k : Nat} {c : Call ω ρ}
    (h : step s (.register k) = some t) (hc : s.calls[k]? = some c) :
    ∃ p, t.bridge.pending (s.update (.register k) k c).reqId = some p ∧ p.done = k := by
  obtain ⟨c', hc', hpending⟩ := step_pending h
  obtain rfl := Option.some.inj (hc'.symm.trans hc)
  have hphase := phase_of_guard (step_enabled h) hc rfl
  refine ⟨{ body := some k, done := k }, ?_, rfl⟩
  rw [hpending, update_reqId h hc (by simp [hphase]), Function.update_self]

/-- Its entry stays until another call is registered, or somebody responds, under its id. -/
theorem entry_kept {s t : State ω ρ} {l : Label ω ρ} {k : Nat} {c : Call ω ρ} {p : Pending}
    (h : step s l = some t) (hc : s.calls[k]? = some c) (hin : c.phase.inRegistry = true)
    (hp : s.bridge.pending c.reqId = some p)
    (hregister : ∀ i c', l = .register i → s.calls[i]? = some c' → c.reqId ≠ c'.reqId)
    (hrespond : ∀ i res c', l = .respond i res → s.calls[i]? = some c' →
      c.reqId ≠ c'.reqId) :
    ∃ q, t.bridge.pending (s.update l k c).reqId = some q ∧ q.done = p.done := by
  rw [update_reqId h hc (registered_ne_start hin)]
  have hpending := step_pending h
  cases l with
  | register i =>
      obtain ⟨c', hc', hpending⟩ := hpending
      exact ⟨p, by rw [hpending, Function.update_of_ne (hregister i c' rfl hc'), hp], rfl⟩
  | respond i res =>
      obtain ⟨c', hc', hpending⟩ := hpending
      exact ⟨p, by rw [hpending, Function.update_of_ne (hrespond i res c' rfl hc'), hp], rfl⟩
  | takeBody i =>
      obtain ⟨c', hc', hpending⟩ := hpending
      by_cases heq : c.reqId = c'.reqId
      · refine ⟨{ p with body := none }, ?_, rfl⟩
        rw [hpending, heq, Function.update_self, ← heq, hp, Option.map_some]
      · exact ⟨p, by rw [hpending, Function.update_of_ne heq, hp], rfl⟩
  | _ => exact ⟨p, by rw [hpending, hp], rfl⟩

theorem step_entryPresent {s t : State ω ρ} {l : Label ω ρ}
    (he : EntryPresent s) (hf : FreshId s l) (h : step s l = some t) :
    EntryPresent t := by
  intro k d hd hin hresp
  rcases step_calls_cases h hd with ⟨c, hc, rfl⟩ | ⟨_, _, _, rfl⟩
  case inr => simp [Call.new, Phase.inRegistry] at hin
  rcases registered_cases h hc hin with rfl | ⟨-, hreg⟩
  · exact entry_registered h hc
  · rw [update_responded] at hresp
    have hold : c.responded = false := by
      cases hc' : c.responded with
      | false => rfl
      | true => cases l <;> simp [hc'] at hresp
    obtain ⟨p, hp, hdone⟩ := he k c hc hreg hold
    obtain ⟨q, hq, hsame⟩ := entry_kept h hc hreg hp
      (fun i c' hl hc' heq => by
        subst hl
        rw [heq, hf c' hc'] at hp
        cases hp)
      (fun i res c' hl hc' heq => by
        subst hl
        simp [hreg, hc', heq] at hresp)
    exact ⟨q, hq, hsame.trans hdone⟩

/-- JS only sees requests that have been pushed. -/
theorem TicketsMatch.handed {s : State ω ρ} (hm : TicketsMatch s) {i : Nat} {c : Call ω ρ}
    (hc : s.calls[i]? = some c) (hi : s.handed i = true) : c.phase.inQueue = true := by
  obtain ⟨r, hr, hri⟩ := List.any_eq_true.1 hi
  obtain ⟨c', hc', hin, _⟩ := hm r (List.mem_append_left _ hr)
  obtain rfl : r.owner = i := by simpa using hri
  obtain rfl := Option.some.inj (hc'.symm.trans hc)
  exact hin

/--
No lost wakeup and exactly-once delivery, in every state that any run of the
bridge reaches; and when requests are registered under free ids, the entry of a
request that JS has been given is there until the first `respond` for its id.
-/
theorem batched_delivery {ls : List (Label ω ρ)} {s : State ω ρ}
    (hrun : run step State.init ls = some s) :
    Delivered ls s ∧
      (Along step FreshId State.init ls →
        ∀ i c, s.calls[i]? = some c → s.handed i = true → c.responded = false →
          ∃ p, s.bridge.pending c.reqId = some p ∧ p.done = i) := by
  refine ⟨run_delivered hrun, fun hfresh i c hc hi hresp => ?_⟩
  have hpresent : EntryPresent s := by
    refine hfresh.invariant (I := EntryPresent)
      (fun _ _ _ => step_entryPresent) ?_ hrun
    intro k d hd
    simp [State.init] at hd
  exact hpresent i c hc
    (inRegistry_of_inQueue (TicketsMatch.handed (run_delivered hrun).content hc hi)) hresp

/-- Two requests; the second rides along with the doorbell of the first, and is
answered first. -/
def twoRequests : List (Label Unit Unit) :=
  [.request (), .request (), .nextReqId 0, .nextReqId 1, .register 0, .register 1,
    .push 1, .push 0, .ring 0, .ring 1, .callback, .takeBatch, .respond 1 (),
    .takeBatch]

theorem batched_delivery_two :
    ∃ s, run step State.init twoRequests = some s ∧
      Delivered twoRequests s ∧
      ∃ p, s.bridge.pending 0 = some p ∧ p.done = 0 := by
  have hfresh : Along step FreshId State.init twoRequests := by
    unfold twoRequests
    repeat
      refine (along_cons_of_eq rfl).2 ⟨?_, ?_⟩
      · first
          | exact trivial
          | intro c hc
            cases hc
            rfl
    exact trivial
  exact ⟨_, rfl, (batched_delivery rfl).1,
    (batched_delivery rfl).2 hfresh 0 _ rfl rfl rfl⟩

end BatchedBridge
end OxideHttp
