import OxideHttp.Overload

/-!
# Bounds of the limiter (`src/overload.rs`)

The permits and the queue of `Limiter` over every run.  The queue is bounded by a counter
that each call raises first and lowers again when it was too late, so the counter also
holds the calls that are about to lower it.  What is bounded is the calls that found room:
those that wait, those that have just left and those that were cancelled.

Results.
* `Seats`: the invariant; `seats_step`.
* `Ledger`: what a call has seen so far, from its place in `acquire`; `ledger_step`.
* `limiter_bounds`: the permits, the queue, the counter and the refusals, in every run.
-/

namespace OxideHttp
namespace Overload

open Transition

/-- The call has a permit. -/
def AcquirePc.holds : AcquirePc → Bool
  | .tookPermit | .leaving .acquired | .returned .acquired => true
  | _ => false

/-- The call found room in the queue, and its unit is still in the counter. -/
def AcquirePc.seated : AcquirePc → Bool
  | .waiting | .leaving _ | .cancelled => true
  | _ => false

/-- The permits in use. -/
def State.held (s : State) : Nat := s.calls.countP AcquirePc.holds

/-- The calls that wait for a permit. -/
def State.waiting (s : State) : Nat := s.calls.countP (· == .waiting)

/-- The calls in progress. -/
def State.live (s : State) : Nat := s.calls.countP AcquirePc.live

/-! ## Permits -/

theorem advance_permits {l : Limiter} {now : Nat} {pc : AcquirePc}
    {r : Limiter × AcquirePc} (h : l.advance now pc = some r) :
    r.1.sem.permits + (if r.2.holds then 1 else 0) =
      l.sem.permits + (if pc.holds then 1 else 0) := by
  cases pc with
  | start =>
      simp only [Limiter.advance] at h
      split at h
      case h_1 sem hsem =>
        cases h
        obtain ⟨_, hpos, rfl⟩ := tryAcquireOwned_ok hsem
        simp only [AcquirePc.holds]
        simp
        omega
      case h_2 => cases h; rfl
      case h_3 => cases h; rfl
  | noPermits =>
      cases h
      rw [Limiter.markSaturated_sem]
      dsimp only
      split <;> rfl
  | tookPermit | full => cases h; rfl
  | enqueue =>
      cases h
      dsimp only
      split <;> rfl
  | leaving slot => cases h; cases slot <;> rfl
  | waiting | returned slot | released | cancelled => cases h

theorem wake_permits {l : Limiter} {w : Wake} {r : Limiter × AcquirePc}
    (h : l.wake w = some r) :
    r.1.sem.permits + (if r.2.holds then 1 else 0) = l.sem.permits := by
  rcases wake_cases h with ⟨slot, hslot, rfl⟩ | ⟨hfree, rfl⟩
  · cases slot with
    | acquired => exact absurd rfl hslot
    | rejected retryAfter => rfl
  · simp only [AcquirePc.holds]
    simp
    omega

/-- A permit is free or in use. -/
theorem held_step {s t : State} {l : Label} (h : step s l = some t) :
    t.lim.sem.permits + t.held = s.lim.sem.permits + s.held := by
  have hput : ∀ {i : Nat} {pc : AcquirePc} {r : Limiter × AcquirePc},
      s.calls[i]? = some pc →
      r.1.sem.permits + (if r.2.holds then 1 else 0) =
        s.lim.sem.permits + (if pc.holds then 1 else 0) →
      (s.put i r).lim.sem.permits + (s.put i r).held = s.lim.sem.permits + s.held := by
    intro i pc r hpc hr
    have hcount := countP_set_add AcquirePc.holds hpc r.2
    simp only [State.put, State.held]
    omega
  rcases step_cases h with
    ⟨_, rfl⟩ | ⟨i, pc, r, _, hpc, hr, rfl⟩ | ⟨i, w, r, _, hpc, hr, rfl⟩ |
    ⟨i, _, hpc, rfl⟩ | ⟨i, _, hpc, rfl⟩ | ⟨ms, _, rfl⟩
  · have hnew : (s.calls ++ [AcquirePc.start]).countP AcquirePc.holds =
        s.calls.countP AcquirePc.holds := by
      rw [List.countP_append]
      rfl
    simp only [State.held, hnew]
  · exact hput hpc (advance_permits hr)
  · exact hput hpc (wake_permits hr)
  · exact hput hpc rfl
  · exact hput hpc rfl
  · rfl

/-! ## Seats in the queue -/

/-- A call takes a seat at `fetch_add` only, when the counter it reads is low enough. -/
theorem advance_seated {l : Limiter} {now : Nat} {pc : AcquirePc}
    {r : Limiter × AcquirePc} (h : l.advance now pc = some r) (hr : r.2.seated = true) :
    pc.seated = true ∨ pc = .enqueue ∧ l.queued.toNat < l.maxQueue := by
  cases pc with
  | start =>
      simp only [Limiter.advance] at h
      split at h <;> cases h <;> cases hr
  | tookPermit | full => cases h; cases hr
  | leaving slot => cases h; cases hr
  | noPermits =>
      cases h
      dsimp only at hr
      split at hr <;> cases hr
  | enqueue =>
      cases h
      dsimp only at hr
      split at hr
      case isTrue => cases hr
      case isFalse hroom => exact Or.inr ⟨rfl, Nat.not_le.1 hroom⟩
  | waiting | returned slot | released | cancelled => cases h

/-- Those that the counter holds and that have no seat are still in progress. -/
theorem counted_le (s : State) :
    s.calls.countP AcquirePc.counted ≤ s.calls.countP AcquirePc.seated + s.live := by
  unfold State.live
  induction s.calls with
  | nil => simp
  | cons pc calls ih =>
      simp only [List.countP_cons]
      cases pc <;> simp [AcquirePc.counted, AcquirePc.inQueue, AcquirePc.isCancelled,
        AcquirePc.seated, AcquirePc.live] <;> omega

theorem seated_le_counted (s : State) :
    s.calls.countP AcquirePc.seated ≤ s.calls.countP AcquirePc.counted := by
  refine List.countP_mono_left fun pc _ h => ?_
  cases pc <;>
    simp_all [AcquirePc.seated, AcquirePc.counted, AcquirePc.inQueue, AcquirePc.isCancelled]

theorem waiting_le_seated (s : State) : s.waiting ≤ s.calls.countP AcquirePc.seated := by
  refine List.countP_mono_left fun pc _ h => ?_
  obtain rfl : pc = .waiting := by simpa using h
  rfl

/-- At most as many calls have a seat as the queue has room for. -/
structure Seats (s : State) : Prop where
  exact : Exact s
  seats : s.calls.countP AcquirePc.seated ≤ s.lim.maxQueue

/-- The counter does not wrap while it has room for the queue and the calls in progress. -/
theorem Seats.queued_toNat {s : State} (hs : Seats s)
    (hroom : s.live + s.lim.maxQueue < 2 ^ 64) :
    s.lim.queued.toNat = s.calls.countP AcquirePc.counted := by
  have hle := counted_le s
  have hseats := hs.seats
  have hexact : s.lim.queued = UInt64.ofNat (s.calls.countP AcquirePc.counted) := hs.exact
  rw [hexact, UInt64.toNat_ofNat']
  exact Nat.mod_eq_of_lt (by omega)

theorem seats_step {s t : State} {l : Label} (hs : Seats s)
    (hroom : s.live + s.lim.maxQueue < 2 ^ 64) (h : step s l = some t) : Seats t := by
  refine ⟨exact_step hs.exact h, ?_⟩
  have hseats := hs.seats
  rw [step_maxQueue h]
  -- a call that moves and keeps its seat, or has none, leaves the count as it is
  have hput : ∀ {i : Nat} {pc : AcquirePc} {r : Limiter × AcquirePc},
      s.calls[i]? = some pc → (r.2.seated = true → pc.seated = true) →
      (s.put i r).calls.countP AcquirePc.seated ≤ s.lim.maxQueue := by
    intro i pc r hpc hr
    have hcount := countP_set_add AcquirePc.seated hpc r.2
    simp only [State.put]
    by_cases hseated : r.2.seated = true
    · simp only [hseated, hr hseated] at hcount
      omega
    · simp only [hseated] at hcount
      simp at hcount
      omega
  rcases step_cases h with
    ⟨_, rfl⟩ | ⟨i, pc, r, _, hpc, hr, rfl⟩ | ⟨i, w, r, _, hpc, hr, rfl⟩ |
    ⟨i, _, hpc, rfl⟩ | ⟨i, _, hpc, rfl⟩ | ⟨ms, _, rfl⟩
  · rw [List.countP_append]
    exact hseats
  · by_cases hseated : r.2.seated = true → pc.seated = true
    · exact hput hpc hseated
    · rw [Classical.not_imp] at hseated
      obtain ⟨rfl, hlow⟩ := (advance_seated hr hseated.1).resolve_left hseated.2
      -- the counter that was read is at least the number of seats taken
      have hqueued := hs.queued_toNat hroom
      have hle := seated_le_counted s
      have hcount := countP_set_add AcquirePc.seated hpc r.2
      have hbefore : AcquirePc.enqueue.seated = false := rfl
      simp only [hbefore, hseated.1] at hcount
      simp at hcount
      simp only [State.put]
      omega
  · exact hput hpc fun _ => rfl
  · exact hput hpc fun _ => rfl
  · exact hput hpc (by simp [AcquirePc.seated])
  · exact hseats

/-- The step lowers no counter that is zero. -/
def NoUnderflow (s : State) (l : Label) : Prop :=
  ∀ i pc, l = .advance i → s.calls[i]? = some pc →
    (pc = .full ∨ ∃ slot, pc = .leaving slot) → s.lim.queued ≠ 0

theorem Seats.noUnderflow {s : State} (hs : Seats s)
    (hroom : s.live + s.lim.maxQueue < 2 ^ 64) (l : Label) : NoUnderflow s l := by
  rintro i pc - hpc hlowers hzero
  have hqueued := hs.queued_toNat hroom
  have hpos : 0 < s.calls.countP AcquirePc.counted := by
    refine List.countP_pos_iff.2 ⟨pc, List.mem_of_getElem? hpc, ?_⟩
    rcases hlowers with rfl | ⟨slot, rfl⟩ <;> rfl
  rw [hzero, UInt64.toNat_zero] at hqueued
  omega

/-! ## What a refused call has seen -/

section Refusals

variable (s₀ : State)

/-- Call `i` has found no free permit. -/
def FoundNone (ls : List Label) (i : Nat) : Prop :=
  ∃ ms s, ms ++ [.advance i] <+: ls ∧ run step s₀ ms = some s ∧
    s.calls[i]? = some .start ∧ s.lim.sem.permits = 0

/-- Call `i` has read a counter that is at least `max_queue`. -/
def ReadFull (ls : List Label) (i : Nat) : Prop :=
  ∃ ms s, ms ++ [.advance i] <+: ls ∧ run step s₀ ms = some s ∧
    s.calls[i]? = some .enqueue ∧ s.lim.maxQueue ≤ s.lim.queued.toNat

/-- Call `i` has waited: its await has ended. -/
def Waited (ls : List Label) (i : Nat) : Prop := ∃ w, Label.wake i w ∈ ls

/-- What call `i` has seen when it stands at `pc`. -/
def Ledger (maxQueue : Nat) (ls : List Label) (i : Nat) : AcquirePc → Prop
  | .noPermits | .enqueue => FoundNone s₀ ls i
  | .full => FoundNone s₀ ls i ∧ ReadFull s₀ ls i
  | .leaving _ => Waited ls i
  | .returned (.rejected _) =>
      Waited ls i ∨ FoundNone s₀ ls i ∧ (maxQueue = 0 ∨ ReadFull s₀ ls i)
  | _ => True

variable {s₀} {maxQueue : Nat}

theorem Ledger.mono {ls ms : List Label} {i : Nat} {pc : AcquirePc}
    (h : Ledger s₀ maxQueue ls i pc) (hle : ls <+: ms) : Ledger s₀ maxQueue ms i pc := by
  have hnone : FoundNone s₀ ls i → FoundNone s₀ ms i := by
    rintro ⟨ns, s, hns, hrun⟩
    exact ⟨ns, s, hns.trans hle, hrun⟩
  have hfull : ReadFull s₀ ls i → ReadFull s₀ ms i := by
    rintro ⟨ns, s, hns, hrun⟩
    exact ⟨ns, s, hns.trans hle, hrun⟩
  have hwaited : Waited ls i → Waited ms i := by
    rintro ⟨w, hw⟩
    exact ⟨w, hle.subset hw⟩
  cases pc with
  | noPermits | enqueue => exact hnone h
  | full => exact ⟨hnone h.1, hfull h.2⟩
  | leaving => exact hwaited h
  | returned slot =>
      cases slot with
      | acquired => trivial
      | rejected retryAfter => exact h.imp hwaited fun h => ⟨hnone h.1, h.2.imp_right hfull⟩
  | start | tookPermit | waiting | released | cancelled => trivial

/-- An operation of call `i` adds to what it has seen. -/
theorem ledger_advance {s : State} {ls : List Label} {i : Nat} {pc : AcquirePc}
    {r : Limiter × AcquirePc} (hrun : run step s₀ ls = some s)
    (hclosed : s.lim.sem.closed = false) (hmax : s.lim.maxQueue = maxQueue)
    (hpc : s.calls[i]? = some pc) (hledger : Ledger s₀ maxQueue ls i pc)
    (h : s.lim.advance s.now pc = some r) :
    Ledger s₀ maxQueue (ls ++ [.advance i]) i r.2 := by
  have hbefore := hledger.mono (List.prefix_append ls [.advance i])
  cases pc with
  | start =>
      simp only [Limiter.advance] at h
      split at h
      case h_1 => cases h; trivial
      case h_2 herror =>
        simp [Semaphore.tryAcquireOwned, hclosed] at herror
        split at herror <;> cases herror
      case h_3 herror =>
        cases h
        refine ⟨ls, s, List.prefix_rfl, hrun, hpc, ?_⟩
        simp only [Semaphore.tryAcquireOwned, hclosed] at herror
        by_contra hpermits
        simp [hpermits] at herror
  | tookPermit => cases h; trivial
  | noPermits =>
      cases h
      dsimp only
      split
      case isTrue hzero => exact Or.inr ⟨hbefore, Or.inl (hmax ▸ hzero)⟩
      case isFalse => exact hbefore
  | enqueue =>
      cases h
      dsimp only
      split
      case isTrue hfull => exact ⟨hbefore, ls, s, List.prefix_rfl, hrun, hpc, hfull⟩
      case isFalse => trivial
  | full => cases h; exact Or.inr ⟨hbefore.1, Or.inr hbefore.2⟩
  | leaving slot =>
      cases h
      cases slot with
      | acquired => trivial
      | rejected retryAfter => exact Or.inl hbefore
  | waiting | returned slot | released | cancelled => cases h

/-- A step of one call leaves what the others have seen. -/
theorem ledger_put {s : State} {ls ms : List Label} {i : Nat} {r : Limiter × AcquirePc}
    (hs : ∀ j pc, s.calls[j]? = some pc → Ledger s₀ maxQueue ls j pc) (hle : ls <+: ms)
    (hr : Ledger s₀ maxQueue ms i r.2) :
    ∀ j pc, (s.put i r).calls[j]? = some pc → Ledger s₀ maxQueue ms j pc := by
  intro j pc hpc
  rw [State.put, List.getElem?_set] at hpc
  split at hpc
  case isTrue heq =>
    obtain rfl := heq
    split at hpc
    · obtain rfl := Option.some.inj hpc
      exact hr
    · cases hpc
  case isFalse => exact (hs j pc hpc).mono hle

theorem ledger_step {s t : State} {ls : List Label} {l : Label}
    (hrun : run step s₀ ls = some s) (hclosed : s.lim.sem.closed = false)
    (hmax : s.lim.maxQueue = maxQueue)
    (hs : ∀ i pc, s.calls[i]? = some pc → Ledger s₀ maxQueue ls i pc)
    (h : step s l = some t) :
    ∀ i pc, t.calls[i]? = some pc → Ledger s₀ maxQueue (ls ++ [l]) i pc := by
  have hle := List.prefix_append ls [l]
  rcases step_cases h with
    ⟨_, rfl⟩ | ⟨i, pc, r, rfl, hpc, hr, rfl⟩ | ⟨i, w, r, rfl, hpc, hr, rfl⟩ |
    ⟨i, _, hpc, rfl⟩ | ⟨i, _, hpc, rfl⟩ | ⟨ms, _, rfl⟩
  · intro i pc hpc
    dsimp only at hpc
    rw [List.getElem?_append] at hpc
    split at hpc
    · exact (hs i pc hpc).mono hle
    · have hstart := List.mem_singleton.1 (List.mem_of_getElem? hpc)
      rw [hstart]
      trivial
  · exact ledger_put hs hle (ledger_advance hrun hclosed hmax hpc (hs i pc hpc) hr)
  · obtain ⟨slot, hslot⟩ := wake_leaving hr
    refine ledger_put hs hle ?_
    rw [hslot]
    exact ⟨w, by simp⟩
  · exact ledger_put hs hle trivial
  · exact ledger_put hs hle trivial
  · exact fun i pc hpc => (hs i pc hpc).mono hle

end Refusals

/-! ## Every run -/

section Bounds

variable (maxConcurrent maxQueue queueTimeout retryAfter : Nat)
variable (shedAfter : Option Nat)

/-- In every run the permits in use are bounded, and a call is refused without a wait only
after it found no permit and no room.  The calls that wait are bounded, and the counter is
never lowered below zero, unless there are at some time so many calls in progress that its
64 bits do not count them. -/
theorem limiter_bounds (ls : List Label) :
    let s₀ := State.fresh maxConcurrent maxQueue queueTimeout retryAfter shedAfter
    Throughout step (fun s => s.held ≤ maxConcurrent) s₀ ls ∧
      (∀ ms s, ms <+: ls → run step s₀ ms = some s →
        ∀ i retry, s.calls[i]? = some (.returned (.rejected retry)) →
          Waited ms i ∨ FoundNone s₀ ms i ∧ (maxQueue = 0 ∨ ReadFull s₀ ms i)) ∧
      (Throughout step (fun s => s.live + maxQueue < 2 ^ 64) s₀ ls →
        Throughout step (fun s => s.waiting ≤ maxQueue) s₀ ls ∧
          Along step NoUnderflow s₀ ls) := by
  intro s₀
  have hmax : ∀ {ms s}, run step s₀ ms = some s → s.lim.maxQueue = maxQueue :=
    fun hrun => run_invariant (I := fun s => s.lim.maxQueue = maxQueue)
      (fun _ _ _ hs h => (step_maxQueue h).trans hs) rfl hrun
  have hheld : Throughout step (fun s => s.lim.sem.permits + s.held = maxConcurrent) s₀ ls :=
    throughout_of_invariant (fun _ _ _ hs h => (held_step h).trans hs) rfl ls
  refine ⟨hheld.mono fun s hs => by omega, ?_, fun hroom => ?_⟩
  · intro ms s hms hrun i retry hi
    have hledger : run step s₀ ms = some s ∧
        ∀ i pc, s.calls[i]? = some pc → Ledger s₀ maxQueue ms i pc := by
      refine run_history (J := fun s ms => run step s₀ ms = some s ∧
        ∀ i pc, s.calls[i]? = some pc → Ledger s₀ maxQueue ms i pc) ?_ ?_ hrun
      · exact ⟨rfl, by simp [s₀, State.fresh, State.init]⟩
      · rintro s ls l t ⟨hrun, hs⟩ h
        have hclosed := fresh_sem_open maxConcurrent maxQueue queueTimeout retryAfter
          shedAfter ls ls s List.prefix_rfl hrun
        exact ⟨run_concat_some.2 ⟨s, hrun, h⟩, ledger_step hrun hclosed (hmax hrun) hs h⟩
    exact hledger.2 i _ hi
  · have hseats : Throughout step (fun s => Seats s ∧ s.lim.maxQueue = maxQueue) s₀ ls := by
      refine hroom.along.throughout ?_ ⟨⟨rfl, Nat.zero_le _⟩, rfl⟩
      rintro s l t ⟨hs, hlim⟩ hlive h
      exact ⟨seats_step hs (by rwa [hlim]) h, (step_maxQueue h).trans hlim⟩
    refine ⟨hseats.mono fun s hs => ?_, along_iff.2 fun ms l s t hms hrun _ => ?_⟩
    · exact (waiting_le_seated s).trans (hs.2 ▸ hs.1.seats)
    · have hms' := (List.prefix_append ms [l]).trans hms
      obtain ⟨hs, hlim⟩ := hseats ms s hms' hrun
      have hlive := hroom ms s hms' hrun
      rw [← hlim] at hlive
      exact hs.noUnderflow hlive l

end Bounds

theorem live_le_length {s₀ s : State} {ls : List Label} (hs₀ : s₀.calls = [])
    (hrun : run step s₀ ls = some s) : s.live ≤ ls.length := by
  have hlength : s.calls.length ≤ ls.length := by
    refine run_history (J := fun s ls => s.calls.length ≤ ls.length) (by simp [hs₀]) ?_ hrun
    intro s ls l t hs h
    rw [List.length_append, List.length_singleton]
    rcases step_cases h with
      ⟨_, rfl⟩ | ⟨i, pc, r, _, hpc, hr, rfl⟩ | ⟨i, w, r, _, hpc, hr, rfl⟩ |
      ⟨i, _, hpc, rfl⟩ | ⟨i, _, hpc, rfl⟩ | ⟨ms, _, rfl⟩
    all_goals simp [State.put, State.dropPermit]; omega
  exact List.countP_le_length.trans hlength

/-- One permit and room for one: the second call waits, and the third is refused. -/
def oneWaits : List Label :=
  [.call, .advance 0, .advance 0, .call, .advance 1, .advance 1, .advance 1,
    .call, .advance 2, .advance 2, .advance 2, .advance 2]

theorem limiter_bounds_small :
    let s₀ := State.fresh 1 1 5000 1 none
    (∃ s, run step s₀ oneWaits = some s ∧ s.waiting = 1 ∧
      s.calls[2]? = some (.returned (.rejected 1))) ∧
      FoundNone s₀ oneWaits 2 ∧ ReadFull s₀ oneWaits 2 ∧
      Throughout step (fun s => s.waiting ≤ 1) s₀ oneWaits ∧
        Along step NoUnderflow s₀ oneWaits := by
  intro s₀
  have hroom : Throughout step (fun s => s.live + 1 < 2 ^ 64) s₀ oneWaits := by
    intro ms s hms hrun
    have hlive := live_le_length rfl hrun
    have hlength := hms.length_le
    simp only [oneWaits, List.length_cons, List.length_nil] at hlength
    omega
  obtain ⟨s, hrun, hwaiting, hcalls⟩ : ∃ s, run step s₀ oneWaits = some s ∧ s.waiting = 1 ∧
      s.calls[2]? = some (.returned (.rejected 1)) := ⟨_, rfl, rfl, rfl⟩
  obtain ⟨-, hrefused, hcounter⟩ := limiter_bounds 1 1 5000 1 none oneWaits
  refine ⟨⟨s, hrun, hwaiting, hcalls⟩, ?_⟩
  obtain ⟨w, hw⟩ | ⟨hnone, hzero | hfull⟩ := hrefused _ s List.prefix_rfl hrun 2 1 hcalls
  · simp [oneWaits] at hw
  · cases hzero
  · exact ⟨hnone, hfull, hcounter hroom⟩

end Overload
end OxideHttp
