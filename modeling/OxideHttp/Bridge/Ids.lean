import OxideHttp.Bridge.Delivery

/-!
# Request ids and the registry

Ids come from a wrapping 32-bit counter and key the registry, whose insert
replaces.  `Linked` ties the registry to the calls: every entry belongs to a
registered call of that id, and every registered call that still waits has its
entry.  `Linked` survives every step that is free of collisions, and where it
holds a step stays with its own request exactly when it is free of collisions.

Result: `responses_isolated_iff`.
-/

namespace OxideHttp
namespace BatchedBridge

open Transition

variable {ω ρ : Type}

/-- No other request that is registered and still awaits its response has the id
of call `i`. -/
def OnlyHolder (s : State ω ρ) (i : Nat) : Prop :=
  ∀ c k d, s.calls[i]? = some c → s.calls[k]? = some d → k ≠ i →
    d.phase.inRegistry = true → d.outcome.isAwaiting = true → d.reqId ≠ c.reqId

/-- The step does not meet an id that another request still holds. -/
def NoCollision (s : State ω ρ) : Label ω ρ → Prop
  | .register i => OnlyHolder s i
  | .respond i _ => OnlyHolder s i
  | .takeBody i => ∀ p, s.entry i = some p → p.done = i ∨ p.body = none
  | _ => True

/-- The step stays with its own request: `register` leaves the entries of the
other requests that still wait, `respond` completes its own request and no
other, and `take_body` returns its own channel ends. -/
def Isolated (s : State ω ρ) (l : Label ω ρ) : Prop :=
  ∀ t, step s l = some t →
    match l with
    | .register i =>
        ∀ k d p, k ≠ i → s.calls[k]? = some d → d.outcome.isAwaiting = true →
          s.bridge.pending d.reqId = some p → p.done = k →
          t.bridge.pending d.reqId = some p
    | .respond i res =>
        (∀ k d, k ≠ i → s.calls[k]? = some d →
          ∃ d', t.calls[k]? = some d' ∧ d'.outcome = d.outcome) ∧
        ∀ c, s.calls[i]? = some c → c.outcome.isAwaiting = true →
          ∃ c', t.calls[i]? = some c' ∧ c'.outcome = .answered res
    | .takeBody i =>
        ∀ c, s.calls[i]? = some c →
          (∀ j, (s.bridge.takeBody c.reqId).1 = some j → j = i) ∧
          (c.outcome.isAwaiting = true → c.bodyTaken = false →
            (s.bridge.takeBody c.reqId).1 = some i)
    | _ => True

/-! ## The registry and the calls -/

/-- The registry and the calls agree. -/
structure Linked (s : State ω ρ) : Prop where
  tickets : TicketsMatch s
  /-- every entry belongs to a registered call of that id -/
  entry : ∀ id p, s.bridge.pending id = some p →
    ∃ c, s.calls[p.done]? = some c ∧ c.phase.inRegistry = true ∧ c.reqId = id ∧
      (p.body = some p.done ∨ p.body = none ∧ c.bodyTaken = true)
  /-- every registered call that waits has its entry -/
  own : ∀ k c, s.calls[k]? = some c → c.phase.inRegistry = true →
    c.outcome.isAwaiting = true →
    ∃ p, s.bridge.pending c.reqId = some p ∧ p.done = k

theorem linked_init : Linked (State.init : State ω ρ) where
  tickets := by simp [TicketsMatch, State.tickets, State.init, Bridge.new]
  entry := by simp [State.init, Bridge.new]
  own := by simp [State.init]

theorem settle_notAwaiting {o : Outcome ρ} (ho : o.isAwaiting = false)
    (c : Call ω ρ) : (c.settle o).outcome.isAwaiting = false := by
  unfold Call.settle
  split
  case isTrue => exact ho
  case isFalse h => simpa using h

theorem settle_awaiting {o : Outcome ρ} {c : Call ω ρ}
    (h : (c.settle o).outcome.isAwaiting = true) : c.outcome.isAwaiting = true := by
  unfold Call.settle at h
  split at h
  case isTrue hc => exact hc
  case isFalse => exact h

/-- No step makes a call wait again. -/
theorem update_awaiting {s : State ω ρ} {l : Label ω ρ} {k : Nat} {c : Call ω ρ}
    (h : (s.update l k c).outcome.isAwaiting = true) :
    c.outcome.isAwaiting = true := by
  cases l with
  | register i | respond i res | gone i =>
      simp only [State.update] at h
      repeat' split at h
      all_goals first | exact settle_awaiting h | exact h
  | _ =>
      simp only [State.update] at h
      repeat' split at h
      all_goals exact h

theorem update_bodyTaken {s : State ω ρ} {l : Label ω ρ} {k : Nat} {c : Call ω ρ}
    (h : c.bodyTaken = true) : (s.update l k c).bodyTaken = true := by
  cases l <;> simp only [State.update] <;> repeat' split
  all_goals simp [h]

/-- A registered call stays registered under its id. -/
theorem update_registered {s t : State ω ρ} {l : Label ω ρ} {k : Nat}
    {c : Call ω ρ} (h : step s l = some t) (hc : s.calls[k]? = some c)
    (hin : c.phase.inRegistry = true) :
    (s.update l k c).phase.inRegistry = true ∧
      (s.update l k c).reqId = c.reqId := by
  refine ⟨?_, update_reqId h hc (registered_ne_start hin)⟩
  rw [update_inRegistry h hc]
  cases l <;> simp [hin]

/-- The call of an entry that a step leaves alone. -/
theorem Linked.entry_step {s t : State ω ρ} {l : Label ω ρ} (hL : Linked s)
    (h : step s l = some t) {id : UInt32} {p : Pending}
    (hp : s.bridge.pending id = some p) :
    ∃ c, t.calls[p.done]? = some c ∧ c.phase.inRegistry = true ∧ c.reqId = id ∧
      (p.body = some p.done ∨ p.body = none ∧ c.bodyTaken = true) := by
  obtain ⟨c, hc, hin, hid, hbody⟩ := hL.entry id p hp
  obtain ⟨hin', hid'⟩ := update_registered h hc hin
  refine ⟨_, step_calls_some h hc, hin', by rw [hid', hid], ?_⟩
  rcases hbody with hbody | ⟨hbody, htaken⟩
  · exact Or.inl hbody
  · exact Or.inr ⟨hbody, update_bodyTaken htaken⟩

theorem step_entry {s t : State ω ρ} {l : Label ω ρ} (hL : Linked s)
    (hn : NoCollision s l) (h : step s l = some t) {id : UInt32} {p : Pending}
    (hp : t.bridge.pending id = some p) :
    ∃ c, t.calls[p.done]? = some c ∧ c.phase.inRegistry = true ∧ c.reqId = id ∧
      (p.body = some p.done ∨ p.body = none ∧ c.bodyTaken = true) := by
  have hpending := step_pending h
  cases l with
  | register i =>
      obtain ⟨c, hc, hpending⟩ := hpending
      rw [hpending, Function.update_apply] at hp
      split at hp
      case isTrue hid =>
        obtain rfl := Option.some.inj hp
        have hphase := phase_of_guard (step_enabled h) hc rfl
        refine ⟨_, step_calls_some h hc, ?_, ?_, Or.inl rfl⟩
        · simp [update_inRegistry h hc]
        · rw [update_reqId h hc (by simp [hphase]), hid]
      case isFalse => exact hL.entry_step h hp
  | respond i res =>
      obtain ⟨c, hc, hpending⟩ := hpending
      rw [hpending, Function.update_apply] at hp
      split at hp
      case isTrue => cases hp
      case isFalse => exact hL.entry_step h hp
  | takeBody i =>
      obtain ⟨c, hc, hpending⟩ := hpending
      rw [hpending, Function.update_apply] at hp
      split at hp
      case isFalse => exact hL.entry_step h hp
      case isTrue hid =>
        obtain ⟨q, hq, rfl⟩ := Option.map_eq_some_iff.1 hp
        rw [← hid] at hq
        obtain ⟨d, hd, hin, hdid, hbody⟩ := hL.entry_step h hq
        refine ⟨d, hd, hin, hdid, Or.inr ⟨rfl, ?_⟩⟩
        have hentry : s.entry i = some q := by simp [State.entry, hc, ← hid, hq]
        rcases hn q hentry with hdone | hnone
        · -- the body that was taken is the call's own
          have hdi : t.calls[q.done]? = some (s.update (.takeBody i) i c) := by
            rw [hdone]
            exact step_calls_some h hc
          obtain rfl := Option.some.inj (hd.symm.trans hdi)
          simp [State.update]
        · rcases hbody with hsome | ⟨_, htaken⟩
          · rw [hnone] at hsome
            cases hsome
          · exact htaken
  | _ =>
      rw [hpending] at hp
      exact hL.entry_step h hp

/-- Every registered call that waits has its entry. -/
def OwnEntries (s : State ω ρ) : Prop :=
  ∀ k c, s.calls[k]? = some c → c.phase.inRegistry = true → c.outcome.isAwaiting = true →
    ∃ p, s.bridge.pending c.reqId = some p ∧ p.done = k

/-- It takes a collision at a `register` to lose an entry. -/
theorem step_own {s t : State ω ρ} {l : Label ω ρ} (hown : OwnEntries s)
    (hn : ∀ i, l = .register i → OnlyHolder s i) (h : step s l = some t) :
    OwnEntries t := by
  intro k d hd hin hawait
  rcases step_calls_cases h hd with ⟨c, hc, rfl⟩ | ⟨_, _, _, rfl⟩
  case inr => simp [Call.new, Phase.inRegistry] at hin
  rcases registered_cases h hc hin with rfl | ⟨hne, hreg⟩
  · exact entry_registered h hc
  · have hcawait := update_awaiting hawait
    obtain ⟨p, hp, hdone⟩ := hown k c hc hreg hcawait
    obtain ⟨q, hq, hsame⟩ := entry_kept h hc hreg hp
      (fun i c' hl hc' => hn i hl c' k c hc' hc (fun hki => hne (hki ▸ hl)) hreg hcawait)
      (fun i res c' hl hc' heq => by
        subst hl
        -- the entry under this id is the call's own, so it has just been answered
        have hentry : (s.entry i).map Pending.done = some k := by
          simp [State.entry, hc', ← heq, hp, hdone]
        have hanswered := settle_notAwaiting (o := .answered res) rfl c
        simp only [State.update, hentry, if_true] at hawait
        split at hawait <;> simp [hanswered] at hawait)
    exact ⟨q, hq, hsame.trans hdone⟩

theorem step_linked {s t : State ω ρ} {l : Label ω ρ} (hL : Linked s)
    (hn : NoCollision s l) (h : step s l = some t) : Linked t where
  tickets := step_ticketsMatch hL.tickets h
  entry := fun _ _ => step_entry hL hn h
  own := step_own hL.own (fun i hi => by subst hi; exact hn) h

theorem Linked.handed {s : State ω ρ} (hL : Linked s) {i : Nat} {c : Call ω ρ}
    (hc : s.calls[i]? = some c) (hi : s.handed i = true) :
    c.phase.inRegistry = true :=
  inRegistry_of_inQueue (hL.tickets.handed hc hi)

/-- A call that waits gets the response that JS makes for it. -/
theorem OwnEntries.answered {s t : State ω ρ} (hown : OwnEntries s) {i : Nat} {res : ρ}
    (h : step s (.respond i res) = some t) {c : Call ω ρ} (hc : s.calls[i]? = some c)
    (hin : c.phase.inRegistry = true) (hawait : c.outcome.isAwaiting = true) :
    ∃ c', t.calls[i]? = some c' ∧ c'.outcome = .answered res := by
  refine ⟨_, step_calls_some h hc, ?_⟩
  obtain ⟨p, hp, hdone⟩ := hown i c hc hin hawait
  have hentry : (s.entry i).map Pending.done = some i := by
    simp [State.entry, hc, hp, hdone]
  simp only [State.update, hentry, if_true, Call.settle, hawait]
  split <;> rfl

/-! ## Isolation is the absence of collisions -/

theorem isolated_register {s t : State ω ρ} {i : Nat} (hL : Linked s)
    (h : step s (.register i) = some t) :
    Isolated s (.register i) ↔ OnlyHolder s i := by
  obtain ⟨c, hc, hpending⟩ := step_pending h
  constructor
  · intro hiso c' k d hc' hd hki hin hawait heq
    obtain rfl := Option.some.inj (hc.symm.trans hc')
    obtain ⟨p, hp, hdone⟩ := hL.own k d hd hin hawait
    have hkept := hiso t h k d p hki hd hawait hp hdone
    rw [hpending, heq, Function.update_self] at hkept
    obtain rfl := Option.some.inj hkept
    exact hki hdone.symm
  · intro hn u hu k d p hki hd hawait hp hdone
    obtain rfl := Option.some.inj (h.symm.trans hu)
    obtain ⟨d', hd', hin, _⟩ := hL.entry d.reqId p hp
    obtain rfl := Option.some.inj (hd'.symm.trans (hdone ▸ hd))
    have hne := hn c k d' hc hd hki hin hawait
    rw [hpending, Function.update_of_ne hne, hp]

theorem isolated_respond {s t : State ω ρ} {i : Nat} {res : ρ} (hL : Linked s)
    (h : step s (.respond i res) = some t) :
    Isolated s (.respond i res) ↔ OnlyHolder s i := by
  obtain ⟨hi, c, hc⟩ := step_enabled h
  have hentry : s.entry i = s.bridge.pending c.reqId := by simp [State.entry, hc]
  constructor
  · intro hiso c' k d hc' hd hki hin hawait heq
    obtain rfl := Option.some.inj (hc.symm.trans hc')
    obtain ⟨p, hp, hdone⟩ := hL.own k d hd hin hawait
    -- the entry under this id is the other request's, which gets the response
    obtain ⟨d', hd', hsame⟩ := (hiso t h).1 k d hki hd
    obtain rfl := Option.some.inj (hd'.symm.trans (step_calls_some h hd))
    have hk : (s.entry i).map Pending.done = some k := by
      rw [hentry, ← heq, hp, ← hdone]
      rfl
    have hanswered := settle_notAwaiting (o := .answered res) rfl d
    simp only [State.update, hk, if_true] at hsame
    rw [← hsame] at hawait
    split at hawait <;> simp [hanswered] at hawait
  · intro hn u hu
    obtain rfl := Option.some.inj (h.symm.trans hu)
    constructor
    · intro k d hki hd
      refine ⟨_, step_calls_some h hd, ?_⟩
      have hsettle : (s.entry i).map Pending.done = some k →
          d.settle (.answered res) = d := by
        intro hk
        rw [hentry] at hk
        obtain ⟨p, hp, hdone⟩ := Option.map_eq_some_iff.1 hk
        obtain ⟨d', hd', hin, hid, _⟩ := hL.entry c.reqId p hp
        rw [hdone] at hd'
        obtain rfl := Option.some.inj (hd'.symm.trans hd)
        have hgone : d'.outcome.isAwaiting = false := by
          by_contra hawait
          exact hn c k d' hc hd' hki hin (by simpa using hawait) hid
        simp [Call.settle, hgone]
      simp only [State.update]
      by_cases hk : (s.entry i).map Pending.done = some k
      · simp only [hk, if_true, hsettle hk]
        split <;> rfl
      · simp only [hk, if_false]
        split <;> rfl
    · intro c' hc' hawait
      exact OwnEntries.answered hL.own h hc' (hL.handed hc' hi) hawait

theorem takeBody_fst (b : Bridge ω) (reqId : UInt32) :
    (b.takeBody reqId).1 = (b.pending reqId).bind Pending.body := by
  unfold Bridge.takeBody
  cases b.pending reqId <;> rfl

theorem isolated_takeBody {s t : State ω ρ} {i : Nat} (hL : Linked s)
    (h : step s (.takeBody i) = some t) :
    Isolated s (.takeBody i) ↔
      ∀ p, s.entry i = some p → p.done = i ∨ p.body = none := by
  obtain ⟨hi, c, hc⟩ := step_enabled h
  have hentry : s.entry i = s.bridge.pending c.reqId := by simp [State.entry, hc]
  constructor
  · intro hiso p hp
    rw [hentry] at hp
    obtain ⟨_, _, _, _, hbody | ⟨hbody, _⟩⟩ := hL.entry c.reqId p hp
    · have hown := (hiso t h c hc).1 p.done
      rw [takeBody_fst, hp, Option.bind_some] at hown
      exact Or.inl (hown hbody)
    · exact Or.inr hbody
  · intro hn u hu c' hc'
    obtain rfl := Option.some.inj (hc.symm.trans hc')
    rw [takeBody_fst]
    constructor
    · intro j hj
      obtain ⟨p, hp, hbody⟩ := Option.bind_eq_some_iff.1 hj
      rcases hn p (hentry.trans hp) with hdone | hnone
      · obtain ⟨_, _, _, _, hsome | ⟨hnone, _⟩⟩ := hL.entry c.reqId p hp
        · rw [hsome, hdone] at hbody
          exact (Option.some.inj hbody).symm
        · rw [hnone] at hbody
          cases hbody
      · rw [hnone] at hbody
        cases hbody
    · intro hawait htaken
      obtain ⟨p, hp, hdone⟩ := hL.own i c hc (hL.handed hc hi) hawait
      obtain ⟨d, hd, _, _, hbody | ⟨_, hbody⟩⟩ := hL.entry c.reqId p hp
      · rw [hp, Option.bind_some, hbody, hdone]
      · rw [hdone] at hd
        obtain rfl := Option.some.inj (hd.symm.trans hc)
        rw [htaken] at hbody
        cases hbody

theorem isolated_iff {s t : State ω ρ} {l : Label ω ρ} (hL : Linked s)
    (h : step s l = some t) : Isolated s l ↔ NoCollision s l := by
  cases l with
  | register i => exact isolated_register hL h
  | respond i res => exact isolated_respond hL h
  | takeBody i => exact isolated_takeBody hL h
  | request _ | nextReqId _ | push _ | ring _ | callback | takeBatch | gone _ =>
      exact ⟨fun _ => trivial, fun _ _ _ => trivial⟩

/-! ## Runs within the range of the counter -/

def Label.takesId : Label ω ρ → Bool
  | .nextReqId _ => true
  | _ => false

/-- Ids are tickets of a counter, cut to 32 bits. -/
structure Numbered (s : State ω ρ) : Prop where
  next : s.bridge.nextId = UInt32.ofNat s.issued
  ticket : ∀ (k : Nat) (c : Call ω ρ), s.calls[k]? = some c → c.phase ≠ .start →
    c.seq < s.issued ∧ c.reqId = UInt32.ofNat c.seq
  distinct : ∀ (k k' : Nat) (c c' : Call ω ρ), s.calls[k]? = some c →
    s.calls[k']? = some c' → c.phase ≠ .start → c'.phase ≠ .start →
    c.seq = c'.seq → k = k'

theorem numbered_init : Numbered (State.init : State ω ρ) where
  next := rfl
  ticket := by simp [State.init]
  distinct := by simp [State.init]

/-- A call with an id had it before, or takes it now. -/
theorem started_cases {s t : State ω ρ} {l : Label ω ρ} (h : step s l = some t)
    {k : Nat} {d : Call ω ρ} (hd : t.calls[k]? = some d) (hp : d.phase ≠ .start) :
    (∃ c, s.calls[k]? = some c ∧ c.phase ≠ .start ∧ d.seq = c.seq ∧
        d.reqId = c.reqId) ∨
      (l = .nextReqId k ∧ d.seq = s.issued ∧ d.reqId = s.bridge.nextId) := by
  rcases step_calls_cases h hd with ⟨c, hc, rfl⟩ | ⟨_, _, _, rfl⟩
  case inr => exact absurd rfl hp
  by_cases hcp : c.phase = .start
  · obtain rfl := update_start h hc hcp hp
    exact Or.inr ⟨rfl, by simp [State.update], by simp [State.update]⟩
  · exact Or.inl ⟨c, hc, hcp, update_seq h hc hcp, update_reqId h hc hcp⟩

theorem step_numbered {s t : State ω ρ} {l : Label ω ρ} (hN : Numbered s)
    (h : step s l = some t) : Numbered t := by
  have hids := step_ids h
  have hle : s.issued ≤ t.issued := by
    cases l <;> simp only at hids <;> omega
  have hnext : ∀ k, l = .nextReqId k → t.issued = s.issued + 1 := by
    rintro k rfl
    exact hids.1
  exact
    { next := by
        cases l with
        | nextReqId i =>
            rw [hids.1, hids.2, hN.next, UInt32.ofNat_add]
            rfl
        | _ => rw [hids.1, hids.2, hN.next]
      ticket := fun k d hd hp => by
        rcases started_cases h hd hp with ⟨c, hc, hcp, hseq, hid⟩ | ⟨hl, hseq, hid⟩
        · obtain ⟨hlt, hcid⟩ := hN.ticket k c hc hcp
          exact ⟨by omega, by rw [hid, hcid, hseq]⟩
        · have hissued := hnext k hl
          exact ⟨by omega, by rw [hid, hN.next, hseq]⟩
      distinct := fun k k' d d' hd hd' hp hp' heq => by
        rcases started_cases h hd hp with ⟨c, hc, hcp, hseq, _⟩ | ⟨hl, hseq, _⟩ <;>
          rcases started_cases h hd' hp' with
            ⟨c', hc', hcp', hseq', _⟩ | ⟨hl', hseq', _⟩
        · exact hN.distinct k k' c c' hc hc' hcp hcp' (by omega)
        · have hlt := (hN.ticket k c hc hcp).1
          omega
        · have hlt := (hN.ticket k' c' hc' hcp').1
          omega
        · rw [hl] at hl'
          exact Label.nextReqId.inj hl' }

/-- Up to 2^32 ids, two calls that have one have different ones. -/
theorem Numbered.reqId_inj {s : State ω ρ} (hN : Numbered s)
    (hle : s.issued ≤ 2 ^ 32) {k k' : Nat} {c c' : Call ω ρ}
    (hc : s.calls[k]? = some c) (hc' : s.calls[k']? = some c')
    (hp : c.phase ≠ .start) (hp' : c'.phase ≠ .start)
    (heq : c.reqId = c'.reqId) : k = k' := by
  obtain ⟨hlt, hid⟩ := hN.ticket k c hc hp
  obtain ⟨hlt', hid'⟩ := hN.ticket k' c' hc' hp'
  refine hN.distinct k k' c c' hc hc' hp hp' ?_
  have hmod : c.seq % 2 ^ 32 = c'.seq % 2 ^ 32 := by
    have htoNat := congrArg UInt32.toNat (hid.symm.trans (heq.trans hid'))
    simpa [UInt32.toNat_ofNat'] using htoNat
  rw [Nat.mod_eq_of_lt (by omega), Nat.mod_eq_of_lt (by omega)] at hmod
  exact hmod

theorem noCollision_of_le {s t : State ω ρ} {l : Label ω ρ} (hL : Linked s)
    (hN : Numbered s) (hle : s.issued ≤ 2 ^ 32) (h : step s l = some t) :
    NoCollision s l := by
  cases l with
  | register i =>
      intro c k d hc hd hki hin _ heq
      have hphase := phase_of_guard (step_enabled h) hc rfl
      exact hki (hN.reqId_inj hle hd hc (registered_ne_start hin)
        (by simp [hphase]) heq)
  | respond i res =>
      intro c k d hc hd hki hin _ heq
      have hreg := hL.handed hc (step_enabled h).1
      exact hki (hN.reqId_inj hle hd hc (registered_ne_start hin)
        (registered_ne_start hreg) heq)
  | takeBody i =>
      intro p hp
      obtain ⟨hi, c, hc⟩ := step_enabled h
      have hpend : s.bridge.pending c.reqId = some p := by
        simpa [State.entry, hc] using hp
      obtain ⟨d, hd, hin, hid, _⟩ := hL.entry c.reqId p hpend
      exact Or.inl (hN.reqId_inj hle hd hc (registered_ne_start hin)
        (registered_ne_start (hL.handed hc hi)) hid)
  | request _ | nextReqId _ | push _ | ring _ | callback | takeBatch | gone _ =>
      trivial

theorem run_issued {s t : State ω ρ} {ls : List (Label ω ρ)}
    (hrun : run step s ls = some t) :
    t.issued = s.issued + ls.countP Label.takesId := by
  induction ls generalizing s with
  | nil =>
      obtain rfl := Option.some.inj hrun
      simp
  | cons l ls ih =>
      obtain ⟨u, hu, hut⟩ := run_cons_some.1 hrun
      have hids := step_ids hu
      rw [ih hut, List.countP_cons]
      cases l with
      | nextReqId i =>
          simp only [Label.takesId, hids.1, if_true]
          omega
      | _ => simp [Label.takesId, hids.1]

/--
Responses, channel ends and registrations stay with their own requests along a
run exactly when no step of it meets an id that another request still holds; in
particular along every run that hands out at most 2^32 ids.
-/
theorem responses_isolated_iff (ls : List (Label ω ρ)) :
    (Along step Isolated State.init ls ↔ Along step NoCollision State.init ls) ∧
      (ls.countP Label.takesId ≤ 2 ^ 32 → Along step Isolated State.init ls) := by
  refine ⟨⟨?_, ?_⟩, ?_⟩
  · refine Along.of_invariant (I := Linked) ?_ ?_ linked_init
    · exact fun s l t hL hiso h => step_linked hL ((isolated_iff hL h).1 hiso) h
    · exact fun s l t hL hiso h => (isolated_iff hL h).1 hiso
  · exact Along.of_invariant (I := Linked)
      (fun _ _ _ hL hn h => step_linked hL hn h)
      (fun _ _ _ hL hn h => (isolated_iff hL h).2 hn) linked_init
  · intro hcount
    have hissued : Along step (fun s _ => s.issued ≤ 2 ^ 32) State.init ls := by
      rw [along_iff]
      intro ms l t u hms hrun _
      have hle : ms.countP Label.takesId ≤ ls.countP Label.takesId :=
        (((List.prefix_append ms [l]).trans hms).sublist).countP_le
      have hinit : (State.init : State ω ρ).issued = 0 := rfl
      have hrun' := run_issued hrun
      omega
    refine hissued.of_invariant (I := fun s => Linked s ∧ Numbered s) ?_ ?_
      ⟨linked_init, numbered_init⟩
    · exact fun s l t hI hle h =>
        ⟨step_linked hI.1 (noCollision_of_le hI.1 hI.2 hle h) h,
          step_numbered hI.2 h⟩
    · exact fun s l t hI hle h =>
        (isolated_iff hI.1 h).2 (noCollision_of_le hI.1 hI.2 hle h)

/-! ## A long poll across the whole range of ids -/

/-- Call `i` comes, is taken up by JS and is answered. -/
def served (i : Nat) : List (Label Unit Unit) :=
  [.request (), .nextReqId i, .register i, .push i, .ring i, .callback,
    .takeBatch, .takeBatch, .respond i ()]

/-- Call `i` comes and JS has taken it up. -/
def taken (i : Nat) : List (Label Unit Unit) :=
  [.request (), .nextReqId i, .register i, .push i, .ring i, .callback,
    .takeBatch, .takeBatch]

/-- Call 0 waits for its response, and the other `n - 1` calls are over. -/
structure LongPoll (n : Nat) (s : State Unit Unit) : Prop where
  length : s.calls.length = n
  waiting : ∃ c, s.calls[0]? = some c ∧ c.reqId = 0 ∧ c.outcome.isAwaiting = true
  pending : s.bridge.pending = Function.update (fun _ => none) 0
    (some { body := some 0, done := 0 })
  nextId : s.bridge.nextId = UInt32.ofNat n
  queue : s.bridge.queue = []
  doorbells : s.doorbells = 0
  js : s.js = .idle

theorem longPoll_one :
    ∃ s, run step State.init (taken 0) = some s ∧ LongPoll 1 s :=
  ⟨_, rfl,
    { length := rfl
      waiting := ⟨_, rfl, rfl, rfl⟩
      pending := rfl
      nextId := rfl
      queue := rfl
      doorbells := rfl
      js := rfl }⟩

theorem modify_concat {α : Type} (l : List α) (a : α) (f : α → α) :
    (l ++ [a]).modify l.length f = l ++ [f a] := by
  induction l with
  | nil => rfl
  | cons b l ih => simpa using ih

theorem longPoll_served {n : Nat} {s : State Unit Unit} (hs : LongPoll n s)
    (hpos : 0 < n) (hlt : n < 2 ^ 32) :
    ∃ t, run step s (served n) = some t ∧ LongPoll (n + 1) t := by
  obtain ⟨⟨queue, pending, nextId⟩, calls, doorbells, js, issued, batches⟩ := s
  obtain ⟨hlen, ⟨c, hc, hid, hawait⟩, hpending, hnext, hqueue, hbells, hjs⟩ := hs
  simp only at hlen hc hpending hnext hqueue hbells hjs
  subst hlen hnext hqueue hbells hjs
  have hne : UInt32.ofNat calls.length ≠ 0 := by
    intro heq
    have htoNat := congrArg UInt32.toNat heq
    rw [UInt32.toNat_ofNat', Nat.mod_eq_of_lt hlt] at htoNat
    simp only [UInt32.toNat_zero] at htoNat
    omega
  have hfree : pending (UInt32.ofNat calls.length) = none := by
    rw [hpending, Function.update_of_ne hne]
  have hother : (0 : UInt32) ≠ UInt32.ofNat calls.length := Ne.symm hne
  -- the call after its answer
  let answered : Call Unit Unit :=
    { (Call.new () : Call Unit Unit) with
      seq := issued
      reqId := UInt32.ofNat calls.length
      phase := .enqueued
      outcome := .answered ()
      responded := true }
  let t : State Unit Unit :=
    { bridge :=
        { queue := []
          pending := Function.update pending (UInt32.ofNat calls.length) none
          nextId := UInt32.ofNat calls.length + 1 }
      calls := (calls.map fun d =>
        if d.phase.inRegistry && d.reqId == UInt32.ofNat calls.length then
          { d with responded := true }
        else d) ++ [answered]
      doorbells := 0
      js := .idle
      issued := issued + 1
      batches := batches ++ [[⟨calls.length, UInt32.ofNat calls.length, ()⟩]] }
  refine ⟨t, ?_, ?_⟩
  · simp [served, step, State.callAt, Option.filter_some, modify_concat, State.modify,
      State.dropEntry, State.complete, State.handed, Bridge.nextReqId, Bridge.register,
      Bridge.push, Bridge.takeBatch, Bridge.respond, Call.new, hfree, Phase.inRegistry,
      Call.settle, Outcome.isAwaiting, t, answered]
  · exact
      { length := by simp [t]
        waiting := by
          have h0 : 0 < calls.length := hpos
          refine ⟨c, ?_, hid, hawait⟩
          rw [List.getElem?_append_left (by simpa using h0), List.getElem?_map, hc]
          simp [hid, hother]
        pending := by
          rw [← hpending]
          exact Function.update_eq_self_iff.2 hfree.symm
        nextId := by
          rw [UInt32.ofNat_add]
          rfl
        queue := rfl
        doorbells := rfl
        js := rfl }

/-- Call 0 waits while `n` others come and go. -/
theorem longPoll_many (n : Nat) (hn : n + 1 ≤ 2 ^ 32) :
    ∃ s, run step State.init (taken 0 ++ (List.range' 1 n).flatMap served) = some s ∧
      LongPoll (n + 1) s := by
  induction n with
  | zero =>
      obtain ⟨s, hs, hpoll⟩ := longPoll_one
      exact ⟨s, by simpa using hs, hpoll⟩
  | succ n ih =>
      obtain ⟨s, hs, hpoll⟩ := ih (by omega)
      obtain ⟨t, ht, hpoll'⟩ := longPoll_served hpoll (by omega) (by omega)
      refine ⟨t, ?_, hpoll'⟩
      rw [List.range'_concat, List.flatMap_append, ← List.append_assoc,
        run_append_some]
      exact ⟨s, hs, by simpa [Nat.add_comm] using ht⟩

/--
One request stays pending while the next 2^32 - 1 are served.  The one after them
is registered under the id of the first, and the entry of the first is gone.
-/
theorem responses_cross :
    ¬ ∀ ls : List (Label Unit Unit), Along step Isolated State.init ls := by
  intro hall
  obtain ⟨s, hs, hpoll⟩ := longPoll_many (2 ^ 32 - 1) (by omega)
  obtain ⟨c, hc, hid, hawait⟩ := hpoll.waiting
  have h0 : 0 < s.calls.length := (List.getElem?_eq_some_iff.1 hc).1
  let next : Call Unit Unit :=
    { Call.new () with seq := s.issued, reqId := s.bridge.nextId, phase := .ticket }
  let u : State Unit Unit :=
    { s with
      bridge := s.bridge.nextReqId.2
      issued := s.issued + 1
      calls := s.calls ++ [next] }
  have hu : run step s [.request (), .nextReqId s.calls.length] = some u := by
    simp [step, State.callAt, modify_concat, Option.filter_some, Call.new, u, next,
      Bridge.nextReqId]
  have hnext : next.reqId = 0 := hpoll.nextId
  have hcu : u.calls[0]? = some c := by
    rw [List.getElem?_append_left h0, hc]
  have hnu : u.calls[s.calls.length]? = some next := by simp [u]
  obtain ⟨v, hv⟩ : ∃ v, step u (.register s.calls.length) = some v :=
    ⟨_, Option.map_eq_some_iff.2 ⟨next, callAt_eq_some.2 ⟨hnu, rfl⟩, rfl⟩⟩
  have hiso : Isolated u (.register s.calls.length) :=
    along_iff.1 (hall _) _ _ u v (List.prefix_refl _)
      (run_append_some.2 ⟨s, hs, hu⟩) hv
  have hentry : u.bridge.pending c.reqId = some { body := some 0, done := 0 } := by
    rw [hid]
    exact (congrFun hpoll.pending 0).trans (Function.update_self _ _ _)
  have hkept := hiso v hv 0 c _ (Nat.ne_of_lt h0) hcu hawait hentry rfl
  obtain ⟨d, hd, hpending⟩ := step_pending hv
  obtain rfl := Option.some.inj (hnu.symm.trans hd)
  rw [hpending, hid, hnext, Function.update_self] at hkept
  have hdone := congrArg Pending.done (Option.some.inj hkept)
  exact Nat.ne_of_gt h0 hdone

end BatchedBridge
end OxideHttp
