import OxideHttp.Lib.Transition

/-!
# Starting and closing a server (`js/index.ts`, `src/lib.rs`)

`listen()`, `inject()` and `close()` of one `Server`, cut at their awaits, over the state
of the native server.  `close()` runs its `shutdown` listeners before it does anything
else; they may call the server again, so the calls of `close()` that announce themselves
are nested.  No continuation runs during an announcement.

Results.
* `Calm`: what holds of the calls of `close()` as long as the steps are `timely`.
* `closed_stays_closed`: once a promise of `close()` has settled, the native server is
  down, in the runs whose steps are `timely`.
* `reopened`: a run that starts the native server after `close()` has resolved.
-/

namespace OxideHttp
namespace Lifecycle

open Transition

/-- Where a call of `close()` stands that was not given the promise of another. -/
inductive Closing where
  /-- its `shutdown` listeners run -/
  | announcing
  /-- it has called the native `close()`, which has not looked for a server yet -/
  | called
  /-- the native `close()` has taken the server and drains it -/
  | draining
  /-- the native `close()` has returned -/
  | returned
  | resolved
  | rejected
  deriving DecidableEq, Repr

/-- The native `close()` has looked for a server, or will not be called any more. -/
def Closing.looked : Closing → Bool
  | .announcing | .called => false
  | .draining | .returned | .resolved | .rejected => true

def Closing.isOver : Closing → Bool
  | .announcing | .called | .draining => false
  | .returned | .resolved | .rejected => true

def Closing.isSettled : Closing → Bool
  | .announcing | .called | .draining | .returned => false
  | .resolved | .rejected => true

/-- The promise that concurrent calls of `inject()` share. -/
inductive Autostart where
  | none
  | pending
  /-- it has settled, and its `finally` has not run -/
  | settled
  deriving DecidableEq, Repr

structure Server where
  /-- `#closed` -/
  closed : Bool
  /-- `#listening` -/
  listening : Bool
  /-- `#closing`: the number of the call that it is the promise of -/
  closing : Option Nat
  /-- `#autostart` -/
  autostart : Autostart
  /-- some route has a schema -/
  hasSchema : Bool
  /-- the calls of `close()` -/
  closes : List Closing
  /-- the calls of `listen()` that wait for `loadSchemaDeps`, and whether they are the
  auto-start -/
  listens : List Bool
  /-- `RustServer.state` holds a running server -/
  native : Bool
  deriving DecidableEq, Repr

def Server.init : Server where
  closed := false
  listening := false
  closing := none
  autostart := .none
  hasSchema := false
  closes := []
  listens := []
  native := false

inductive Label where
  /-- a route with a schema is registered -/
  | addSchema
  /-- JS calls `listen()`; `starts` is what comes of it if it gets past its guards: the
  chains are built and the native layer binds, or it throws on the way -/
  | listen (valid starts : Bool)
  /-- `loadSchemaDeps` has settled for a waiting `listen()`, which goes on -/
  | depsLoaded (i : Nat) (starts : Bool)
  | inject (starts : Bool)
  /-- the `finally` of the auto-start -/
  | autostartCleared
  | close
  /-- the `shutdown` listeners of the innermost `close()` have run, or one has thrown -/
  | announced (throws : Bool)
  /-- the native `close()` of a call looks for the server -/
  | take (i : Nat)
  /-- the drain has ended -/
  | drained (i : Nat)
  /-- the rest of `close()`; a `close` listener may throw -/
  | settle (i : Nat) (throws : Bool)
  deriving DecidableEq, Repr

def Label.takes : Label → Bool
  | .take _ => true
  | _ => false

/-- `listen()` after its await, down to the native `listen`, which refuses a server that
is running already. -/
def Server.finish (s : Server) (starts : Bool) : Server :=
  if starts && !s.native then { s with native := true, listening := true } else s

/-- `listen()`, to its await or its end. -/
def Server.listen (s : Server) (auto valid starts : Bool) : Server :=
  if s.closed || s.listening || !valid then s
  else if s.hasSchema then { s with listens := s.listens ++ [auto] }
  else s.finish starts

/-- The place of the innermost `close()` that announces itself. -/
def Server.innermost (s : Server) : Option Nat :=
  (List.range s.closes.length).reverse.find? fun i => s.closes[i]? = some .announcing

/-- The call `i` of `close()` goes on from `before` to `after`. -/
def Server.advance (s : Server) (i : Nat) (before after : Closing) : Option Server :=
  if s.closes[i]? = some before then some { s with closes := s.closes.set i after }
  else none

def step (s : Server) : Label → Option Server
  | .addSchema => some { s with hasSchema := true }
  | .listen valid starts => some (s.listen false valid starts)
  | .depsLoaded i starts =>
      if s.innermost.isSome then none
      else s.listens[i]?.map fun auto =>
        { ({ s with listens := s.listens.eraseIdx i }).finish starts with
          autostart := if auto then .settled else s.autostart }
  | .inject starts =>
      if s.closed || s.listening || s.autostart ≠ .none then some s
      else some { s.listen true true starts with
                  autostart := if s.hasSchema then .pending else .settled }
  | .autostartCleared =>
      if s.innermost.isSome || s.autostart ≠ .settled then none
      else some { s with autostart := .none }
  | .close =>
      if s.closing.isSome then some s
      else some { s with closes := s.closes ++ [.announcing] }
  | .announced throws =>
      s.innermost.bind fun i =>
        (s.advance i .announcing (if throws then .rejected else .called)).map fun t =>
          { t with closing := some i }
  | .take i =>
      (s.advance i .called (if s.native then .draining else .returned)).map fun t =>
        { t with native := false }
  | .drained i => s.advance i .draining .returned
  | .settle i throws =>
      if s.innermost.isSome then none
      else (s.advance i .returned (if throws then .rejected else .resolved)).map fun t =>
        { t with listening := false, closed := true }

/-- Once a promise of `close()` has settled, no native server runs or drains. -/
def Server.down (s : Server) : Prop :=
  (∃ c ∈ s.closes, c.isSettled = true) → s.native = false ∧ .draining ∉ s.closes

/-- The step gets a call of `listen()` to the native `listen`. -/
def Server.reachesNative (s : Server) : Label → Bool
  | .listen valid starts =>
      starts && valid && !s.closed && !s.listening && !s.hasSchema
  | .inject starts =>
      starts && !s.closed && !s.listening && decide (s.autostart = .none) && !s.hasSchema
  | .depsLoaded _ starts => starts
  | _ => false

/-- No `shutdown` listener throws while a server runs or drains; no native `close()` looks
for a server while another one drains it; and `listen()` gets to the native layer only
before every native `close()` has looked. -/
def Server.timely (s : Server) (l : Label) : Prop :=
  (l = .announced true → s.native = false ∧ .draining ∉ s.closes) ∧
    (l.takes = true → s.native = true ∨ .draining ∉ s.closes) ∧
    (s.reachesNative l = true → ∀ c ∈ s.closes, c.looked = false)

instance (s : Server) (l : Label) : Decidable (s.timely l) :=
  inferInstanceAs (Decidable (_ ∧ _ ∧ _))

/-! ## What a step can do -/

variable {s t : Server} {l : Label}

theorem advance_eq_some {i : Nat} {before after : Closing} :
    s.advance i before after = some t ↔
      s.closes[i]? = some before ∧ t = { s with closes := s.closes.set i after } := by
  simp only [Server.advance, Option.ite_none_right_eq_some, Option.some.injEq, eq_comm (a := t)]

/-- `listen()` leaves the calls of `close()` alone. -/
theorem finish_spec (s : Server) (starts : Bool) :
    (s.finish starts).closes = s.closes ∧
      ((s.finish starts).native = s.native ∨ starts = true) := by
  rw [Server.finish]
  split
  case isTrue h =>
    rw [Bool.and_eq_true] at h
    exact ⟨rfl, Or.inr h.1⟩
  case isFalse => exact ⟨rfl, Or.inl rfl⟩

theorem listen_spec (s : Server) (auto valid starts : Bool) :
    (s.listen auto valid starts).closes = s.closes ∧
      ((s.listen auto valid starts).native = s.native ∨
        (starts && valid && !s.closed && !s.listening && !s.hasSchema) = true) := by
  rw [Server.listen]
  split
  case isTrue => exact ⟨rfl, Or.inl rfl⟩
  case isFalse hguard =>
    split
    case isTrue => exact ⟨rfl, Or.inl rfl⟩
    case isFalse hschema =>
      obtain ⟨hcloses, hnative⟩ := finish_spec s starts
      refine ⟨hcloses, hnative.imp_right fun hstarts => ?_⟩
      simp_all

/-- How a step takes call `i` of `close()` further, with the flag of the native server
before and after it. -/
inductive Moves (i : Nat) : Label → Closing → Bool → Closing → Bool → Prop
  | announced {native : Bool} : Moves i (.announced false) .announcing native .called native
  | threw {native : Bool} : Moves i (.announced true) .announcing native .rejected native
  | took : Moves i (.take i) .called true .draining false
  | foundNone : Moves i (.take i) .called false .returned false
  | drained {native : Bool} : Moves i (.drained i) .draining native .returned native
  | resolved {native : Bool} : Moves i (.settle i false) .returned native .resolved native
  | rejected {native : Bool} : Moves i (.settle i true) .returned native .rejected native

/-- A step starts the native server, or begins a call of `close()`, or takes one a step
further. -/
theorem step_cases (h : step s l = some t) :
    (t.closes = s.closes ∧ (t.native = s.native ∨ s.reachesNative l = true)) ∨
      (t.closes = s.closes ++ [.announcing] ∧ t.native = s.native) ∨
      ∃ i before after, s.closes[i]? = some before ∧ t.closes = s.closes.set i after ∧
        Moves i l before s.native after t.native := by
  cases l with
  | addSchema =>
      obtain rfl := Option.some.inj h
      exact Or.inl ⟨rfl, Or.inl rfl⟩
  | listen valid starts =>
      obtain rfl := Option.some.inj h
      exact Or.inl (listen_spec s false valid starts)
  | depsLoaded i starts =>
      simp only [step, Option.ite_none_left_eq_some] at h
      obtain ⟨auto, _, rfl⟩ := Option.map_eq_some_iff.1 h.2
      exact Or.inl (finish_spec { s with listens := s.listens.eraseIdx i } starts)
  | inject starts =>
      simp only [step] at h
      split at h
      case isTrue =>
        obtain rfl := Option.some.inj h
        exact Or.inl ⟨rfl, Or.inl rfl⟩
      case isFalse hguard =>
        obtain rfl := Option.some.inj h
        obtain ⟨hcloses, hnative⟩ := listen_spec s true true starts
        refine Or.inl ⟨hcloses, hnative.imp_right fun hstarts => ?_⟩
        simp_all [Server.reachesNative]
  | autostartCleared =>
      simp only [step, Option.ite_none_left_eq_some] at h
      obtain rfl := Option.some.inj h.2
      exact Or.inl ⟨rfl, Or.inl rfl⟩
  | close =>
      simp only [step] at h
      split at h
      case isTrue =>
        obtain rfl := Option.some.inj h
        exact Or.inl ⟨rfl, Or.inl rfl⟩
      case isFalse =>
        obtain rfl := Option.some.inj h
        exact Or.inr (Or.inl ⟨rfl, rfl⟩)
  | announced throws =>
      obtain ⟨i, _, h⟩ := Option.bind_eq_some_iff.1 h
      obtain ⟨u, hu, rfl⟩ := Option.map_eq_some_iff.1 h
      obtain ⟨hi, rfl⟩ := advance_eq_some.1 hu
      refine Or.inr (Or.inr ⟨i, _, _, hi, rfl, ?_⟩)
      cases throws with
      | false => exact .announced
      | true => exact .threw
  | take i =>
      obtain ⟨u, hu, rfl⟩ := Option.map_eq_some_iff.1 h
      obtain ⟨hi, rfl⟩ := advance_eq_some.1 hu
      refine Or.inr (Or.inr ⟨i, _, _, hi, rfl, ?_⟩)
      cases hnative : s.native with
      | false => exact .foundNone
      | true => exact .took
  | drained i =>
      obtain ⟨hi, rfl⟩ := advance_eq_some.1 h
      exact Or.inr (Or.inr ⟨i, _, _, hi, rfl, .drained⟩)
  | settle i throws =>
      simp only [step, Option.ite_none_left_eq_some] at h
      obtain ⟨u, hu, rfl⟩ := Option.map_eq_some_iff.1 h.2
      obtain ⟨hi, rfl⟩ := advance_eq_some.1 hu
      refine Or.inr (Or.inr ⟨i, _, _, hi, rfl, ?_⟩)
      cases throws with
      | false => exact .resolved
      | true => exact .rejected

/-! ## Calls of `close()` in timely runs -/

def Closing.isDraining (c : Closing) : Bool := decide (c = .draining)

/-- When a native `close()` has looked, no server is left; and when one of them is over,
none drains. -/
structure Calm (s : Server) : Prop where
  stopped : 0 < s.closes.countP Closing.looked → s.native = false
  one : s.closes.countP Closing.isDraining ≤ 1
  ended : 0 < s.closes.countP Closing.isOver → s.closes.countP Closing.isDraining = 0

theorem calm_init : Calm Server.init where
  stopped := fun h => absurd h (lt_irrefl 0)
  one := Nat.zero_le 1
  ended := fun h => absurd h (lt_irrefl 0)

theorem countP_draining_eq_zero {closes : List Closing} :
    closes.countP Closing.isDraining = 0 ↔ .draining ∉ closes := by
  rw [List.countP_eq_zero]
  exact ⟨fun h hmem => h _ hmem rfl, fun h c hc hd => h (of_decide_eq_true hd ▸ hc)⟩

/-- Whoever has looked drains or is over. -/
theorem looked_eq (closes : List Closing) :
    closes.countP Closing.isOver + closes.countP Closing.isDraining =
      closes.countP Closing.looked := by
  induction closes with
  | nil => rfl
  | cons c closes ih =>
      simp only [List.countP_cons, ← ih]
      cases c with
      | announcing | called => rfl
      | draining | returned | resolved | rejected =>
          simp [Closing.isOver, Closing.isDraining, Closing.looked]
          omega

theorem Calm.step (hs : Calm s) (hl : s.timely l) (h : step s l = some t) : Calm t := by
  obtain ⟨hstopped, hone, hover⟩ := hs
  have hsum := looked_eq s.closes
  rcases step_cases h with ⟨hcloses, hnative⟩ | ⟨hcloses, hnative⟩ |
    ⟨i, before, after, hi, hcloses, hmove⟩
  · rw [← hcloses] at hstopped hone hover
    refine ⟨fun hlooked => ?_, hone, hover⟩
    rcases hnative with hnative | hreaches
    · exact hnative.trans (hstopped hlooked)
    · obtain ⟨c, hc, hc'⟩ := List.countP_pos_iff.1 hlooked
      rw [hl.2.2 hreaches c (hcloses ▸ hc)] at hc'
      cases hc'
  · have hsame (p : Closing → Bool) (hp : p .announcing = false) :
        t.closes.countP p = s.closes.countP p := by
      rw [hcloses, List.countP_append]
      simp [hp]
    refine ⟨?_, ?_, ?_⟩
    · rw [hsame _ rfl, hnative]
      exact hstopped
    · rw [hsame _ rfl]
      exact hone
    · rw [hsame _ rfl, hsame _ rfl]
      exact hover
  · have hcount (p : Closing → Bool) :
        t.closes.countP p + (p before).toNat = s.closes.countP p + (p after).toNat := by
      have hset := countP_set_add p hi after
      rw [← hcloses] at hset
      cases hb : p before <;> cases ha : p after <;> simpa [hb, ha] using hset
    have hlook := hcount Closing.looked
    have hdrain := hcount Closing.isDraining
    have hend := hcount Closing.isOver
    generalize hbefore : s.native = native at hmove
    generalize hafter : t.native = native' at hmove
    cases hmove with
    | announced =>
        simp only [Closing.looked, Closing.isDraining, Closing.isOver, decide_false,
          reduceCtorEq, Bool.toNat_false, Nat.add_zero] at hlook hdrain hend
        rw [← hlook, hbefore, ← hafter] at hstopped
        rw [← hdrain] at hone hover
        rw [← hend] at hover
        exact ⟨hstopped, hone, hover⟩
    | threw =>
        obtain ⟨hstop, hnone⟩ := hl.1 rfl
        have hzero := countP_draining_eq_zero.2 hnone
        simp only [Closing.isDraining, decide_false, reduceCtorEq, Bool.toNat_false,
          Nat.add_zero] at hdrain
        exact ⟨fun _ => hafter.trans (hbefore.symm.trans hstop), by omega, fun _ => by omega⟩
    | took =>
        -- the server was there, so no native `close()` had looked
        have hnone : ¬ 0 < s.closes.countP Closing.looked := fun hlooked => by
          cases (hstopped hlooked).symm.trans hbefore
        simp only [Closing.isDraining, Closing.isOver, decide_false, decide_true, reduceCtorEq,
          Bool.toNat_false, Bool.toNat_true, Nat.add_zero] at hdrain hend
        exact ⟨fun _ => hafter, by omega, fun _ => by omega⟩
    | foundNone =>
        have hnone : .draining ∉ s.closes :=
          (hl.2.1 rfl).resolve_left fun hthere => by cases hbefore.symm.trans hthere
        have hzero := countP_draining_eq_zero.2 hnone
        simp only [Closing.isDraining, decide_false, reduceCtorEq, Bool.toNat_false,
          Nat.add_zero] at hdrain
        exact ⟨fun _ => hafter, by omega, fun _ => by omega⟩
    | drained =>
        have hlooked : 0 < s.closes.countP Closing.looked :=
          List.countP_pos_iff.2 ⟨_, List.mem_of_getElem? hi, rfl⟩
        simp only [Closing.isDraining, decide_false, decide_true, reduceCtorEq,
          Bool.toNat_false, Bool.toNat_true, Nat.add_zero] at hdrain
        exact ⟨fun _ => hafter.trans (hbefore.symm.trans (hstopped hlooked)), by omega,
          fun _ => by omega⟩
    | resolved | rejected =>
        simp only [Closing.looked, Closing.isDraining, Closing.isOver, decide_false,
          reduceCtorEq, Bool.toNat_false, Bool.toNat_true, Nat.add_zero,
          Nat.add_right_cancel_iff] at hlook hdrain hend
        rw [← hlook, hbefore, ← hafter] at hstopped
        rw [← hdrain] at hone hover
        rw [← hend] at hover
        exact ⟨hstopped, hone, hover⟩

theorem Calm.down (hs : Calm s) : s.down := by
  rintro ⟨c, hc, hsettled⟩
  have hover : 0 < s.closes.countP Closing.isOver := by
    refine List.countP_pos_iff.2 ⟨c, hc, ?_⟩
    cases c <;> first | rfl | cases hsettled
  have hsum := looked_eq s.closes
  exact ⟨hs.stopped (by omega), countP_draining_eq_zero.1 (hs.ended hover)⟩

/-- In a run whose steps are timely no native server runs or drains once a promise of
`close()` has settled. -/
theorem closed_stays_closed (ls : List Label)
    (h : Along step Server.timely Server.init ls) :
    Throughout step Server.down Server.init ls :=
  (h.throughout (fun _ _ _ hs hl hstep => hs.step hl hstep) calm_init).mono
    fun _ hs => hs.down

/-- A server that listens and is closed. -/
theorem closed_stays_closed_small :
    ∃ s, run step Server.init
        [.listen true true, .close, .announced false, .take 0, .drained 0, .settle 0 false] =
          some s ∧
      s.closes = [.resolved] ∧ s.down := by
  obtain ⟨s, hs, hcloses⟩ : ∃ s, run step Server.init
      [.listen true true, .close, .announced false, .take 0, .drained 0, .settle 0 false] =
        some s ∧ s.closes = [.resolved] := ⟨_, rfl, rfl⟩
  exact ⟨s, hs, hcloses, (closed_stays_closed _ (by decide)).last hs⟩

/-- `listen()` waits for the schema dependencies while `close()` runs to its end, and then
starts the native server. -/
theorem reopened :
    ∃ s, run step Server.init
        [.addSchema, .listen true true, .close, .announced false, .take 0, .settle 0 false,
          .depsLoaded 0 true] = some s ∧
      s.closes = [.resolved] ∧ ¬ s.down := by
  refine ⟨_, rfl, rfl, fun hdown => ?_⟩
  cases (hdown ⟨.resolved, List.mem_singleton_self _, rfl⟩).1

end Lifecycle
end OxideHttp
