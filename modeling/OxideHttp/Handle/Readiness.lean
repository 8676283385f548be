import OxideHttp.Handle

/-!
# Readiness under overload (`src/server.rs`, `src/overload.rs`)

The readiness flag is written by requests only: `false` by one that has got a permit,
`should_shed()` by one that was refused.  Between those writes nobody looks at the load.

Results.
* `ready_when_quiet`: with no request at the limiter the flag is down, in every run in
  which it is only put up while another request is bound to take it down.
* `left_unready`: a run that ends with the flag up and no request at the limiter.
-/

namespace OxideHttp
namespace Handle

open Transition Overload

/-- The request holds a permit, waits for one, or is between `acquire()` and its readiness
update. -/
def Pc.engaged : Pc → Bool
  | .acquire _ | .admitted | .refused _ | .timing _ | .shedding _ => true
  | .inner permit | .leaving permit => permit
  | .entered _ | .routed _ | .finishing | .responded | .dropped => false

/-- No request is at the limiter. -/
def State.quiet (s : State) : Prop := ∀ pc ∈ s.reqs, pc.engaged = false

instance (s : State) : Decidable s.quiet :=
  inferInstanceAs (Decidable (∀ pc ∈ s.reqs, pc.engaged = false))

/-- A request that stores `true` does so while another one is bound to store `false`. -/
def Relieved (s : State) : Label → Prop
  | .advance i =>
      s.reqs[i]? = some (.shedding true) → ∃ pc ∈ s.reqs, pc.relieves = true
  | _ => True

instance (s : State) : ∀ l, Decidable (Relieved s l)
  | .advance i => inferInstanceAs (Decidable
      (s.reqs[i]? = some (.shedding true) → ∃ pc ∈ s.reqs, pc.relieves = true))
  | .enter _ | .wake _ _ | .innerDone _ | .drop _ | .tick _ =>
      inferInstanceAs (Decidable True)

/-- The flag is up only while a request is bound to take it down. -/
def Due (s : State) : Prop := s.overloaded = true → ∃ pc ∈ s.reqs, pc.relieves = true

theorem engaged_of_relieves {pc : Pc} (h : pc.relieves = true) : pc.engaged = true := by
  cases pc <;> first | rfl | cases h

/-- Another request keeps its place. -/
theorem mem_set_of_relieves {reqs : List Pc} {i : Nat} {pc pc' x : Pc} (hi : reqs[i]? = some pc)
    (hx : x ∈ reqs) (hrelieves : x.relieves = true)
    (hpc : pc.relieves = true → pc'.relieves = true) :
    ∃ y ∈ reqs.set i pc', y.relieves = true := by
  obtain ⟨j, hj⟩ := List.mem_iff_getElem?.1 hx
  by_cases hij : i = j
  · subst hij
    obtain rfl := Option.some.inj (hi.symm.trans hj)
    have hlt : i < reqs.length := (List.getElem?_eq_some_iff.1 hi).1
    exact ⟨pc', List.mem_set hlt pc', hpc hrelieves⟩
  · refine ⟨x, List.mem_iff_getElem?.2 ⟨j, ?_⟩, hrelieves⟩
    rw [List.getElem?_set_ne hij, hj]

theorem due_step {s t : State} {l : Label} (hs : Due s) (hl : Relieved s l)
    (h : step s l = some t) : Due t := by
  intro hup
  rcases step_cases h with ⟨probe, _, rfl⟩ | ⟨ms, _, rfl⟩ | ⟨i, pc, pc', hturn⟩
  · obtain ⟨x, hx, hrelieves⟩ := hs hup
    exact ⟨x, List.mem_append_left _ hx, hrelieves⟩
  · exact hs hup
  · rw [hturn.reqs]
    rcases hturn.effect.flag with ⟨hsame, hkeeps⟩ | hdown | ⟨-, rfl⟩
    · obtain ⟨x, hx, hrelieves⟩ := hs (hsame ▸ hup)
      exact mem_set_of_relieves hturn.here hx hrelieves hkeeps
    · rw [hdown] at hup
      cases hup
    · obtain rfl := hturn.stores rfl
      obtain ⟨x, hx, hrelieves⟩ := hl hturn.here
      exact mem_set_of_relieves hturn.here hx hrelieves (by simp [Pc.relieves])

/-- Without a request at the limiter the server is not overloaded, in every run in which a
request that was shed stores its flag only while another one is bound to take it down. -/
theorem ready_when_quiet (lim : Limiter) (ls : List Label)
    (h : Along step Relieved (State.init (some lim)) ls) :
    Throughout step (fun s => s.quiet → s.overloaded = false) (State.init (some lim)) ls := by
  have hinit : Due (State.init (some lim)) := fun hup => by cases hup
  refine (h.throughout (fun _ _ _ => due_step) hinit).mono fun s hs hquiet => ?_
  by_contra hup
  obtain ⟨x, hx, hrelieves⟩ := hs (by simpa using hup)
  exact absurd (hquiet x hx) (by simp [engaged_of_relieves hrelieves])

/-- The first request leaves while the second, which it kept out, is about to store `true`; a
third one takes the permit, stores `false` last and leaves. -/
def overtaken : List Label :=
  [.enter false, .enter false, .enter false,
    .advance 0, .advance 0, .advance 0, .advance 0, .advance 0,
    .advance 1, .advance 1, .advance 1, .advance 1, .tick 20, .advance 1, .advance 1,
    .innerDone 0, .advance 0, .advance 0, .advance 2, .advance 2, .advance 2, .advance 1,
    .advance 1, .advance 2, .advance 2, .innerDone 2, .advance 2, .advance 2]

theorem ready_after_relief :
    ∃ s, run step (State.init (some (Limiter.new 1 0 5000 1 (some 10)))) overtaken = some s ∧
      s.quiet ∧ s.overloaded = false := by
  have hready := ready_when_quiet (Limiter.new 1 0 5000 1 (some 10)) overtaken (by decide)
  refine ⟨_, rfl, by decide, hready.last rfl (by decide)⟩

/-- One permit and no queue: a second request is refused, the streak is long enough, the
first one ends, and nobody takes the flag down. -/
theorem left_unready :
    ¬ Throughout step (fun s => s.quiet → s.overloaded = false)
      (State.init (some (Limiter.new 1 0 5000 1 (some 10))))
      [.enter false, .enter false, .advance 0, .advance 0, .advance 0, .advance 0, .advance 0,
        .advance 1, .advance 1, .advance 1, .advance 1, .tick 20, .advance 1, .advance 1,
        .advance 1, .innerDone 0, .advance 0, .advance 0] := by
  intro h
  have hlast := h.last rfl
  revert hlast
  decide

end Handle
end OxideHttp
