import OxideHttp.Lib.Transition

/-!
# The readiness check (`js/index.ts`: `setReadinessCheck`, `src/lib.rs`: `set_ready`)

A check calls its function on a timer and hands the verdict to the native server.  A tick
does not wait for the one before it, and it asks only whether there is a timer when it
ends.  What the function does and when it settles is up to the environment; one that throws
settles at once.

Results.
* `fresh_iff`: the verdicts come from the check in force and in the order in which their
  ticks were started, exactly in the runs whose ticks end `Orderly`.
* `serial_fresh`: ticks that are not started, and checks that are not replaced, before the
  last tick has ended are enough.
* `late_verdicts`: a verdict of a replaced check, and one that overtakes.
-/

namespace OxideHttp
namespace ReadinessCheck

open Transition

/-- The delay of `setTimeout` and `setInterval`. -/
def timerDelay (ms : Nat) : Nat := if 1 ≤ ms ∧ ms ≤ 2147483647 then ms else 1

inductive Phase where
  /-- neither the callback nor the timeout has settled -/
  | waiting
  /-- the race is decided, and `ok` is known -/
  | decided (ok : Bool)
  /-- the tick is over; whether there was a native server then -/
  | ended (running : Bool)
  deriving DecidableEq, Repr

structure Tick where
  /-- the check that started it -/
  check : Nat
  deadline : Nat
  phase : Phase
  deriving DecidableEq, Repr

/-- `#readinessTimer`, and what the function that it calls holds. -/
structure Timer where
  check : Nat
  /-- when it is due -/
  next : Nat
  interval : Nat
  timeout : Nat
  deriving DecidableEq, Repr

/-- A verdict that the native server has stored. -/
structure Verdict where
  tick : Nat
  ok : Bool
  /-- the check in force then -/
  inForce : Nat
  deriving DecidableEq, Repr

structure State where
  now : Nat
  /-- how often `setReadinessCheck` was called -/
  checks : Nat
  timer : Option Timer
  /-- every tick, in the order in which they were started -/
  ticks : List Tick
  /-- `js_not_ready` of the running native server -/
  jsNotReady : Option Bool
  /-- the verdicts so far -/
  verdicts : List Verdict
  deriving DecidableEq, Repr

def State.init : State where
  now := 0
  checks := 0
  timer := none
  ticks := []
  jsNotReady := none
  verdicts := []

inductive Label where
  | elapse (ms : Nat)
  | setReadinessCheck (interval timeout : Nat)
  /-- the timer is due -/
  | fire
  /-- the callback of a tick has settled: a value other than `false`, or not -/
  | settle (i : Nat) (ok : Bool)
  /-- the deadline of a tick has passed -/
  | timeout (i : Nat)
  /-- the tick goes on after its race -/
  | resume (i : Nat)
  /-- `#stopReadinessCheck` in `close()` -/
  | stop
  /-- the application calls `setReady` -/
  | setReady (ready : Bool)
  /-- the native server starts -/
  | listen
  /-- the native `close` takes the server -/
  | take
  deriving DecidableEq, Repr

/-- `tick`, to its await. -/
def State.startTick (s : State) (tm : Timer) : State :=
  { s with ticks := s.ticks ++ [⟨tm.check, s.now + timerDelay tm.timeout, .waiting⟩] }

/-- `set_ready`. -/
def State.setReady (s : State) (ready : Bool) : State :=
  { s with jsNotReady := s.jsNotReady.map fun _ => !ready }

/-- The end of `tick`. -/
def State.finish (s : State) (i : Nat) (ok : Bool) : State :=
  match s.timer with
  | none => s
  | some tm =>
      if s.jsNotReady.isSome then
        { s.setReady ok with verdicts := s.verdicts ++ [⟨i, ok, tm.check⟩] }
      else s

/-- Tick `i` gets to another phase. -/
def State.setPhase (s : State) (i : Nat) (tick : Tick) (phase : Phase) : State :=
  { s with ticks := s.ticks.set i { tick with phase := phase } }

def step (s : State) : Label → Option State
  | .elapse ms => some { s with now := s.now + ms }
  | .setReadinessCheck interval timeout =>
      let tm := ⟨s.checks, s.now + timerDelay interval, interval, timeout⟩
      some (({ s with checks := s.checks + 1, timer := some tm }).startTick tm)
  | .fire =>
      s.timer.bind fun tm =>
        if tm.next ≤ s.now then
          some (({ s with timer := some { tm with next := s.now + timerDelay tm.interval } }
            ).startTick tm)
        else none
  | .settle i ok =>
      s.ticks[i]?.bind fun tick =>
        if tick.phase = .waiting then some (s.setPhase i tick (.decided ok)) else none
  | .timeout i =>
      s.ticks[i]?.bind fun tick =>
        if tick.phase = .waiting ∧ tick.deadline ≤ s.now then
          some (s.setPhase i tick (.decided false))
        else none
  | .resume i =>
      s.ticks[i]?.bind fun tick =>
        match tick.phase with
        | .decided ok => some ((s.setPhase i tick (.ended s.jsNotReady.isSome)).finish i ok)
        | _ => none
  | .stop => some { s with timer := none }
  | .setReady ready => some (s.setReady ready)
  | .listen => if s.jsNotReady.isSome then none else some { s with jsNotReady := some false }
  | .take => some { s with jsNotReady := none }

/-- The check that started tick `i`. -/
def State.checkAt (s : State) (i : Nat) : Option Nat := s.ticks[i]?.map Tick.check

/-- No verdict is stale: each one comes from the check in force, and no tick is heard after
one that was started later. -/
structure Fresh (s : State) : Prop where
  inForce : ∀ v ∈ s.verdicts, s.checkAt v.tick = some v.inForce
  inOrder : s.verdicts.Pairwise fun v w => v.tick < w.tick

instance (s : State) : Decidable (Fresh s) :=
  decidable_of_iff
    ((∀ v ∈ s.verdicts, s.checkAt v.tick = some v.inForce) ∧
      s.verdicts.Pairwise fun v w => v.tick < w.tick)
    ⟨fun h => ⟨h.1, h.2⟩, fun h => ⟨h.1, h.2⟩⟩

/-- A tick that ends while there is a timer and a native server is one of the check in
force, and none that was started after it has ended with a server there. -/
def Orderly (s : State) : Label → Prop
  | .resume i => s.jsNotReady.isSome = true → ∀ tm ∈ s.timer,
      s.checkAt i = some tm.check ∧ ∀ later ∈ s.ticks.drop (i + 1), later.phase ≠ .ended true
  | _ => True

instance (s : State) : ∀ l, Decidable (Orderly s l)
  | .resume i => inferInstanceAs (Decidable (s.jsNotReady.isSome = true → ∀ tm ∈ s.timer,
      s.checkAt i = some tm.check ∧ ∀ later ∈ s.ticks.drop (i + 1), later.phase ≠ .ended true))
  | .elapse _ | .setReadinessCheck _ _ | .fire | .settle _ _ | .timeout _ | .stop | .setReady _
  | .listen | .take => inferInstanceAs (Decidable True)

/-! ## What a step can do -/

variable {s t : State} {l : Label}

/-- Tick `i` gets to `phase`, and nothing else changes but what it is heard for. -/
structure Moves (s t : State) (i : Nat) (tick : Tick) (phase : Phase) : Prop where
  here : s.ticks[i]? = some tick
  ticks : t.ticks = s.ticks.set i { tick with phase := phase }
  checks : t.checks = s.checks
  timer : t.timer = s.timer

/-- A tick is started by the check in force, an old one or a new one. -/
structure Starts (s t : State) (check : Nat) : Prop where
  ticks : ∃ deadline, t.ticks = s.ticks ++ [⟨check, deadline, .waiting⟩]
  timer : ∃ tm, t.timer = some tm ∧ tm.check = check
  verdicts : t.verdicts = s.verdicts
  checks : (t.checks = s.checks ∧ ∃ tm ∈ s.timer, tm.check = check) ∨
    (t.checks = s.checks + 1 ∧ check = s.checks)

/-- The effects of the labels. -/
inductive Steps (s t : State) : Label → Prop
  | idle {l : Label} (ticks : t.ticks = s.ticks) (checks : t.checks = s.checks)
      (timer : t.timer = s.timer ∨ t.timer = none) (verdicts : t.verdicts = s.verdicts)
      (quiet : ∀ i, l ≠ .resume i) : Steps s t l
  | starts {l : Label} {check : Nat} (h : Starts s t check)
      (by_timer : l = .fire ∨ ∃ interval timeout, l = .setReadinessCheck interval timeout) :
      Steps s t l
  | decides {l : Label} {i : Nat} {tick : Tick} {ok : Bool} (h : Moves s t i tick (.decided ok))
      (waiting : tick.phase = .waiting) (verdicts : t.verdicts = s.verdicts)
      (quiet : ∀ i, l ≠ .resume i) : Steps s t l
  | unheard {i : Nat} {tick : Tick} {ok running : Bool} (h : Moves s t i tick (.ended running))
      (decided : tick.phase = .decided ok) (verdicts : t.verdicts = s.verdicts)
      (deaf : s.timer = none ∨ running = false) (server : running = s.jsNotReady.isSome) :
      Steps s t (.resume i)
  | heard {i : Nat} {tick : Tick} {ok : Bool} {tm : Timer} (h : Moves s t i tick (.ended true))
      (decided : tick.phase = .decided ok) (verdicts : t.verdicts = s.verdicts ++ [⟨i, ok, tm.check⟩])
      (timer : s.timer = some tm) (server : s.jsNotReady.isSome = true) : Steps s t (.resume i)

theorem finish_none {i : Nat} {ok : Bool} (h : s.timer = none) : s.finish i ok = s := by
  simp [State.finish, h]

theorem finish_down {i : Nat} {ok : Bool} (h : s.jsNotReady.isSome = false) :
    s.finish i ok = s := by
  rw [State.finish]
  cases s.timer <;> simp [h]

theorem finish_heard {i : Nat} {ok : Bool} {tm : Timer} (h : s.timer = some tm)
    (hserver : s.jsNotReady.isSome = true) :
    s.finish i ok = { s.setReady ok with verdicts := s.verdicts ++ [⟨i, ok, tm.check⟩] } := by
  simp [State.finish, h, hserver]

theorem step_steps (h : step s l = some t) : Steps s t l := by
  cases l with
  | elapse ms =>
      obtain rfl := Option.some.inj h
      exact .idle rfl rfl (Or.inl rfl) rfl nofun
  | setReadinessCheck interval timeout =>
      obtain rfl := Option.some.inj h
      exact .starts ⟨⟨_, rfl⟩, ⟨_, rfl, rfl⟩, rfl, Or.inr ⟨rfl, rfl⟩⟩ (Or.inr ⟨_, _, rfl⟩)
  | fire =>
      obtain ⟨tm, htm, h⟩ := Option.bind_eq_some_iff.1 h
      obtain ⟨-, h⟩ := Option.ite_none_right_eq_some.1 h
      obtain rfl := Option.some.inj h
      exact .starts ⟨⟨_, rfl⟩, ⟨_, rfl, rfl⟩, rfl, Or.inl ⟨rfl, tm, htm, rfl⟩⟩ (Or.inl rfl)
  | settle i ok =>
      obtain ⟨tick, hi, h⟩ := Option.bind_eq_some_iff.1 h
      obtain ⟨hwaiting, h⟩ := Option.ite_none_right_eq_some.1 h
      obtain rfl := Option.some.inj h
      exact .decides ⟨hi, rfl, rfl, rfl⟩ hwaiting rfl nofun
  | timeout i =>
      obtain ⟨tick, hi, h⟩ := Option.bind_eq_some_iff.1 h
      obtain ⟨⟨hwaiting, -⟩, h⟩ := Option.ite_none_right_eq_some.1 h
      obtain rfl := Option.some.inj h
      exact .decides ⟨hi, rfl, rfl, rfl⟩ hwaiting rfl nofun
  | resume i =>
      obtain ⟨tick, hi, h⟩ := Option.bind_eq_some_iff.1 h
      split at h
      case h_2 => cases h
      case h_1 ok hdecided =>
        obtain rfl := Option.some.inj h
        cases htimer : s.timer with
        | none =>
            rw [finish_none (by exact htimer)]
            exact .unheard ⟨hi, rfl, rfl, rfl⟩ hdecided rfl (Or.inl htimer) rfl
        | some tm =>
            cases hserver : s.jsNotReady.isSome with
            | false =>
                rw [finish_down (by exact hserver)]
                exact .unheard ⟨hi, rfl, rfl, rfl⟩ hdecided rfl (Or.inr rfl) hserver.symm
            | true =>
                have hset : (s.setPhase i tick (.ended true)).timer = some tm := htimer
                rw [finish_heard hset hserver]
                exact .heard ⟨hi, rfl, rfl, rfl⟩ hdecided rfl htimer hserver
  | stop =>
      obtain rfl := Option.some.inj h
      exact .idle rfl rfl (Or.inr rfl) rfl nofun
  | setReady ready =>
      obtain rfl := Option.some.inj h
      exact .idle rfl rfl (Or.inl rfl) rfl nofun
  | listen =>
      obtain ⟨-, h⟩ := Option.ite_none_left_eq_some.1 h
      obtain rfl := Option.some.inj h
      exact .idle rfl rfl (Or.inl rfl) rfl nofun
  | take =>
      obtain rfl := Option.some.inj h
      exact .idle rfl rfl (Or.inl rfl) rfl nofun

/-! ## The ticks of a run -/

/-- Ticks are started by one check after the other, and the ones of the check in force that
have ended with a server there were heard. -/
structure Kept (s : State) : Prop where
  known : ∀ check ∈ s.ticks.map Tick.check, check < s.checks
  newest : ∀ tm ∈ s.timer, tm.check + 1 = s.checks
  sorted : (s.ticks.map Tick.check).Pairwise (· ≤ ·)
  ended : ∀ v ∈ s.verdicts, ∃ tick, s.ticks[v.tick]? = some tick ∧ tick.phase = .ended true
  heard : ∀ tm ∈ s.timer, ∀ i tick, s.ticks[i]? = some tick → tick.check = tm.check →
    tick.phase = .ended true → ∃ v ∈ s.verdicts, v.tick = i

theorem kept_init : Kept State.init where
  known := nofun
  newest := nofun
  sorted := .nil
  ended := nofun
  heard := nofun

theorem Moves.getElem? {i : Nat} {tick : Tick} {phase : Phase} (h : Moves s t i tick phase)
    (j : Nat) :
    t.ticks[j]? = if j = i then some { tick with phase := phase } else s.ticks[j]? := by
  rw [h.ticks]
  split
  case isTrue hj =>
    subst hj
    exact List.getElem?_set_self (List.getElem?_eq_some_iff.1 h.here).1
  case isFalse hj => exact List.getElem?_set_ne (Ne.symm hj)

theorem Moves.map_check {i : Nat} {tick : Tick} {phase : Phase} (h : Moves s t i tick phase) :
    t.ticks.map Tick.check = s.ticks.map Tick.check := by
  refine List.ext_getElem? fun j => ?_
  rw [List.getElem?_map, List.getElem?_map, h.getElem? j]
  split
  case isTrue hj => rw [hj, h.here, Option.map_some, Option.map_some]
  case isFalse => rfl

theorem Moves.checkAt {i : Nat} {tick : Tick} {phase : Phase} (h : Moves s t i tick phase)
    (j : Nat) : t.checkAt j = s.checkAt j := by
  rw [State.checkAt, State.checkAt, ← List.getElem?_map, ← List.getElem?_map, h.map_check]

/-- A tick that is not over is not heard yet. -/
theorem Kept.ended_moves {i : Nat} {tick : Tick} {phase : Phase} (hs : Kept s)
    (h : Moves s t i tick phase) (hopen : tick.phase ≠ .ended true) {v : Verdict}
    (hv : v ∈ s.verdicts) :
    v.tick ≠ i ∧ ∃ tick, t.ticks[v.tick]? = some tick ∧ tick.phase = .ended true := by
  obtain ⟨tick', hget, hended⟩ := hs.ended v hv
  have hne : v.tick ≠ i := by
    rintro rfl
    obtain rfl := Option.some.inj (h.here.symm.trans hget)
    exact hopen hended
  exact ⟨hne, tick', by rw [h.getElem?, if_neg hne, hget], hended⟩

/-- What a move keeps beside what is heard. -/
theorem Kept.moves {i : Nat} {tick : Tick} {phase : Phase} (hs : Kept s)
    (h : Moves s t i tick phase) (hopen : tick.phase ≠ .ended true)
    (hverdicts : s.verdicts ⊆ t.verdicts)
    (hnew : ∀ v ∈ t.verdicts, v ∈ s.verdicts ∨ v.tick = i ∧ phase = .ended true)
    (hheard : ∀ tm ∈ s.timer, tick.check = tm.check → phase = .ended true →
      ∃ v ∈ t.verdicts, v.tick = i) : Kept t where
  known := by
    rw [h.map_check, h.checks]
    exact hs.known
  newest := by
    rw [h.timer, h.checks]
    exact hs.newest
  sorted := by
    rw [h.map_check]
    exact hs.sorted
  ended v hv := by
    rcases hnew v hv with hold | ⟨rfl, rfl⟩
    · exact (hs.ended_moves h hopen hold).2
    · exact ⟨_, by rw [h.getElem?, if_pos rfl], rfl⟩
  heard tm htm j tick' hj hcheck hended := by
    rw [h.timer] at htm
    rw [h.getElem?] at hj
    split at hj
    case isTrue heq =>
      obtain rfl := Option.some.inj hj
      exact heq ▸ hheard tm htm hcheck hended
    case isFalse =>
      obtain ⟨v, hv, hvj⟩ := hs.heard tm htm j tick' hj hcheck hended
      exact ⟨v, hverdicts hv, hvj⟩

theorem Starts.keeps {check : Nat} (h : Starts s t check) {i : Nat} {tick : Tick}
    (hi : s.ticks[i]? = some tick) : t.ticks[i]? = some tick := by
  obtain ⟨deadline, hticks⟩ := h.ticks
  rw [hticks, List.getElem?_append_left (List.getElem?_eq_some_iff.1 hi).1, hi]

theorem Starts.map_check {check : Nat} (h : Starts s t check) :
    t.ticks.map Tick.check = s.ticks.map Tick.check ++ [check] := by
  obtain ⟨deadline, hticks⟩ := h.ticks
  rw [hticks, List.map_append]
  rfl

theorem Kept.starts {check : Nat} (hs : Kept s) (h : Starts s t check) : Kept t := by
  obtain ⟨deadline, hticks⟩ := h.ticks
  obtain ⟨tm, htm, hcheck⟩ := h.timer
  have hbound : check + 1 = t.checks ∧ s.checks ≤ check + 1 := by
    rcases h.checks with ⟨hchecks, tm', htm', rfl⟩ | ⟨hchecks, rfl⟩
    · have := hs.newest tm' htm'
      omega
    · omega
  constructor
  · intro c hc
    rw [h.map_check, List.mem_append] at hc
    rcases hc with hc | hc
    · have := hs.known c hc
      omega
    · rw [List.mem_singleton.1 hc]
      omega
  · intro tm' htm'
    rw [htm] at htm'
    obtain rfl := Option.some.inj htm'
    omega
  · rw [h.map_check, List.pairwise_append]
    refine ⟨hs.sorted, List.pairwise_singleton _ _, fun c hc d hd => ?_⟩
    rw [List.mem_singleton.1 hd]
    have := hs.known c hc
    omega
  · intro v hv
    rw [h.verdicts] at hv
    obtain ⟨tick, hget, hended⟩ := hs.ended v hv
    exact ⟨tick, h.keeps hget, hended⟩
  · intro tm' htm' i tick hi hsame hended
    rw [htm] at htm'
    obtain rfl := Option.some.inj htm'
    rw [h.verdicts]
    rw [hticks, List.getElem?_append] at hi
    split at hi
    case isTrue hlt =>
      rcases h.checks with ⟨-, tm', htm', rfl⟩ | ⟨-, rfl⟩
      · exact hs.heard tm' htm' i tick hi (hsame.trans hcheck) hended
      · have := hs.known tick.check (List.mem_map_of_mem (List.mem_of_getElem? hi))
        omega
    case isFalse =>
      -- the new tick is waiting
      obtain rfl := List.mem_singleton.1 (List.mem_of_getElem? hi)
      cases hended

theorem kept_step (hs : Kept s) (h : step s l = some t) : Kept t := by
  rcases step_steps h with ⟨hticks, hchecks, htimer, hverdicts, -⟩ | ⟨hstarts, -⟩ |
    ⟨hmoves, hwaiting, hverdicts, -⟩ | ⟨hmoves, hdecided, hverdicts, hdeaf, -⟩ |
    ⟨hmoves, hdecided, hverdicts, htm, hserver⟩
  · have hsub : ∀ tm ∈ t.timer, tm ∈ s.timer := by
      rcases htimer with htimer | htimer
      · rw [htimer]
        exact fun _ h => h
      · rw [htimer]
        nofun
    constructor
    · rw [hticks, hchecks]
      exact hs.known
    · rw [hchecks]
      exact fun tm htm => hs.newest tm (hsub tm htm)
    · rw [hticks]
      exact hs.sorted
    · rw [hticks, hverdicts]
      exact hs.ended
    · rw [hticks, hverdicts]
      exact fun tm htm => hs.heard tm (hsub tm htm)
  · exact hs.starts hstarts
  · refine hs.moves hmoves (by simp [hwaiting]) (by simp [hverdicts]) ?_ nofun
    rw [hverdicts]
    exact fun v hv => Or.inl hv
  · refine hs.moves hmoves (by simp [hdecided]) (by simp [hverdicts]) ?_ ?_
    · rw [hverdicts]
      exact fun v hv => Or.inl hv
    · intro tm htm _ hphase
      rcases hdeaf with hnone | rfl
      · rw [hnone] at htm
        cases htm
      · cases hphase
  · refine hs.moves hmoves (by simp [hdecided]) (by simp [hverdicts]) ?_ ?_
    · intro v hv
      rw [hverdicts] at hv
      exact (List.mem_append.1 hv).imp_right fun hv => ⟨by rw [List.mem_singleton.1 hv], rfl⟩
    · intro tm _ _ _
      exact ⟨_, by rw [hverdicts]; exact List.mem_append_right _ (List.mem_singleton_self _), rfl⟩

/-- A tick that was started after one of the check in force is of that check, too. -/
theorem Kept.same_check (hs : Kept s) {tm : Timer} (htm : s.timer = some tm) {i j : Nat}
    {later : Tick} (hi : s.checkAt i = some tm.check) (hj : s.ticks[j]? = some later)
    (hij : i < j) : later.check = tm.check := by
  have hle : tm.check ≤ later.check := by
    rw [State.checkAt, ← List.getElem?_map] at hi
    have hj' : (s.ticks.map Tick.check)[j]? = some later.check := by rw [List.getElem?_map, hj]; rfl
    obtain ⟨hlti, hgeti⟩ := List.getElem?_eq_some_iff.1 hi
    obtain ⟨hltj, hgetj⟩ := List.getElem?_eq_some_iff.1 hj'
    rw [← hgeti, ← hgetj]
    exact List.pairwise_iff_getElem.1 hs.sorted i j hlti hltj hij
  have hlt := hs.known later.check (List.mem_map_of_mem (List.mem_of_getElem? hj))
  have := hs.newest tm htm
  omega

/-! ## Fresh verdicts -/

theorem fresh_init : Fresh State.init where
  inForce := nofun
  inOrder := .nil

/-- A step that is not heard. -/
theorem Fresh.of_eq (hs : Fresh s) (hverdicts : t.verdicts = s.verdicts)
    (hchecks : ∀ v ∈ s.verdicts, t.checkAt v.tick = s.checkAt v.tick) : Fresh t where
  inForce v hv := by
    rw [hverdicts] at hv
    rw [hchecks v hv]
    exact hs.inForce v hv
  inOrder := by
    rw [hverdicts]
    exact hs.inOrder

theorem Starts.checkAt {check : Nat} (h : Starts s t check) (hs : Kept s) {v : Verdict}
    (hv : v ∈ s.verdicts) : t.checkAt v.tick = s.checkAt v.tick := by
  obtain ⟨tick, hget, -⟩ := hs.ended v hv
  rw [State.checkAt, State.checkAt, hget, h.keeps hget]

/-- A tick that is heard. -/
theorem fresh_heard {i : Nat} {tick : Tick} {ok : Bool} {tm : Timer} (hk : Kept s) (hs : Fresh s)
    (h : Moves s t i tick (.ended true)) (hdecided : tick.phase = .decided ok)
    (hverdicts : t.verdicts = s.verdicts ++ [⟨i, ok, tm.check⟩]) (htm : s.timer = some tm) :
    Fresh t ↔
      s.checkAt i = some tm.check ∧ ∀ later ∈ s.ticks.drop (i + 1), later.phase ≠ .ended true := by
  have hlast : ⟨i, ok, tm.check⟩ ∈ t.verdicts := by simp [hverdicts]
  constructor
  · intro ht
    have hcheck : s.checkAt i = some tm.check := by
      rw [← h.checkAt]
      exact ht.inForce _ hlast
    refine ⟨hcheck, fun later hlater hended => ?_⟩
    -- the later tick is of the same check, so it was heard before
    obtain ⟨j, hj⟩ := List.mem_iff_getElem?.1 hlater
    rw [List.getElem?_drop] at hj
    have hsame : later.check = tm.check := hk.same_check htm hcheck hj (by omega)
    obtain ⟨v, hv, hvj⟩ := hk.heard tm htm _ later hj hsame hended
    have horder := ht.inOrder
    rw [hverdicts, List.pairwise_append] at horder
    have hlt := horder.2.2 v hv _ (List.mem_singleton_self _)
    change v.tick < i at hlt
    omega
  · rintro ⟨hcheck, hlater⟩
    constructor
    · intro v hv
      rw [h.checkAt]
      rw [hverdicts, List.mem_append, List.mem_singleton] at hv
      rcases hv with hv | rfl
      · exact hs.inForce v hv
      · exact hcheck
    · rw [hverdicts, List.pairwise_append]
      refine ⟨hs.inOrder, List.pairwise_singleton _ _, fun v hv w hw => ?_⟩
      rw [List.mem_singleton.1 hw]
      change v.tick < i
      obtain ⟨hne, -⟩ := hk.ended_moves h (by simp [hdecided]) hv
      obtain ⟨tick', hget, hended⟩ := hk.ended v hv
      by_contra hge
      have hmem : tick' ∈ s.ticks.drop (i + 1) := by
        refine List.mem_iff_getElem?.2 ⟨v.tick - (i + 1), ?_⟩
        rw [List.getElem?_drop, ← hget]
        congr 1
        omega
      exact hlater tick' hmem hended

/-- One step keeps the verdicts fresh exactly when it is orderly. -/
theorem fresh_step (hk : Kept s) (hs : Fresh s) (h : step s l = some t) :
    Fresh t ↔ Orderly s l := by
  have hquiet : (∀ i, l ≠ .resume i) → Orderly s l := by
    intro hl
    cases l with
    | resume i => exact absurd rfl (hl i)
    | _ => trivial
  rcases step_steps h with ⟨hticks, -, -, hverdicts, hl⟩ | ⟨hstarts, hl⟩ |
    ⟨hmoves, -, hverdicts, hl⟩ | ⟨hmoves, -, hverdicts, hdeaf, hserver⟩ |
    ⟨hmoves, hdecided, hverdicts, htm, hserver⟩
  · have hsame : ∀ v ∈ s.verdicts, t.checkAt v.tick = s.checkAt v.tick := fun v _ => by
      rw [State.checkAt, State.checkAt, hticks]
    exact iff_of_true (hs.of_eq hverdicts hsame) (hquiet hl)
  · refine iff_of_true (hs.of_eq hstarts.verdicts fun v hv => hstarts.checkAt hk hv) (hquiet ?_)
    rcases hl with rfl | ⟨interval, timeout, rfl⟩ <;> nofun
  · exact iff_of_true (hs.of_eq hverdicts fun v _ => hmoves.checkAt v.tick) (hquiet hl)
  · refine iff_of_true (hs.of_eq hverdicts fun v _ => hmoves.checkAt v.tick) ?_
    intro hup tm htm
    rcases hdeaf with hnone | hdown
    · rw [hnone] at htm
      cases htm
    · rw [← hserver, hdown] at hup
      cases hup
  · rw [fresh_heard hk hs hmoves hdecided hverdicts htm, Orderly, htm]
    simp [hserver]

/-- The verdicts of a run are fresh exactly when its ticks end in order. -/
theorem fresh_iff (ls : List Label) :
    Throughout step Fresh State.init ls ↔ Along step Orderly State.init ls :=
  throughout_iff_along (fun _ _ _ hk hs h => ⟨kept_step hk h, fresh_step hk hs h⟩)
    kept_init fresh_init ls

/-- The first function hangs; the second check has reported `true` when its timeout strikes. -/
def replacedCheck : List Label :=
  [.listen, .setReadinessCheck 2000 1000, .setReadinessCheck 2000 1000, .settle 1 true, .resume 1,
    .elapse 1000, .timeout 0, .resume 0]

/-- The first tick takes longer than the interval, and the second one does not. -/
def overlappingTicks : List Label :=
  [.listen, .setReadinessCheck 2000 5000, .elapse 2000, .fire, .settle 1 true, .resume 1,
    .elapse 1000, .settle 0 false, .resume 0]

theorem late_verdicts :
    ¬ Throughout step Fresh State.init replacedCheck ∧
      ¬ Throughout step Fresh State.init overlappingTicks := by
  constructor
  · intro h
    have hlast := h.last rfl
    revert hlast
    decide
  · intro h
    have hlast := h.last rfl
    revert hlast
    decide

/-! ## One tick after the other -/

def Phase.isOver : Phase → Bool
  | .waiting | .decided _ => false
  | .ended _ => true

/-- A tick is started when no other one is under way. -/
def Serial (s : State) : Label → Prop
  | .fire | .setReadinessCheck _ _ => ∀ tick ∈ s.ticks, tick.phase.isOver = true
  | _ => True

/-- Only the last tick is under way, and it is one of the last check. -/
def Alone (s : State) : Prop :=
  ∀ i tick, s.ticks[i]? = some tick → tick.phase.isOver = false →
    i + 1 = s.ticks.length ∧ tick.check + 1 = s.checks

theorem Alone.moves {i : Nat} {tick : Tick} {phase : Phase} (hs : Alone s)
    (h : Moves s t i tick phase) (hopen : tick.phase.isOver = false) : Alone t := by
  intro j tick' hj hopen'
  have hlength : t.ticks.length = s.ticks.length := by rw [h.ticks, List.length_set]
  rw [hlength, h.checks]
  rw [h.getElem?] at hj
  split at hj
  case isTrue heq =>
    obtain rfl := Option.some.inj hj
    exact heq ▸ hs i tick h.here hopen
  case isFalse => exact hs j tick' hj hopen'

theorem alone_step (hk : Kept s) (hs : Alone s) (hl : Serial s l) (h : step s l = some t) :
    Alone t := by
  rcases step_steps h with ⟨hticks, hchecks, -, -, -⟩ | ⟨hstarts, hl'⟩ |
    ⟨hmoves, hwaiting, -, -⟩ | ⟨hmoves, hdecided, -, -, -⟩ | ⟨hmoves, hdecided, -, -, -⟩
  · intro i tick hi hopen
    rw [hticks] at hi ⊢
    rw [hchecks]
    exact hs i tick hi hopen
  · have hover : ∀ tick ∈ s.ticks, tick.phase.isOver = true := by
      rcases hl' with rfl | ⟨interval, timeout, rfl⟩ <;> exact hl
    have hkept := hk.starts hstarts
    obtain ⟨deadline, hticks⟩ := hstarts.ticks
    obtain ⟨tm, htm, hcheck⟩ := hstarts.timer
    intro i tick hi hopen
    rw [hticks, List.getElem?_append] at hi
    split at hi
    case isTrue =>
      rw [hover tick (List.mem_of_getElem? hi)] at hopen
      cases hopen
    case isFalse hge =>
      obtain rfl := List.mem_singleton.1 (List.mem_of_getElem? hi)
      have hlt := (List.getElem?_eq_some_iff.1 hi).1
      have hnewest := hkept.newest tm htm
      rw [hticks, List.length_append]
      simp only [List.length_singleton] at hlt ⊢
      constructor <;> omega
  · exact hs.moves hmoves (by rw [hwaiting]; rfl)
  · exact hs.moves hmoves (by rw [hdecided]; rfl)
  · exact hs.moves hmoves (by rw [hdecided]; rfl)

theorem Alone.orderly (hk : Kept s) (hs : Alone s) (h : step s l = some t) : Orderly s l := by
  cases l with
  | resume i =>
      intro _ tm htm
      obtain ⟨tick, hi, h⟩ := Option.bind_eq_some_iff.1 h
      have hopen : tick.phase.isOver = false := by
        revert h
        cases tick.phase <;> simp [Phase.isOver]
      obtain ⟨hlast, hcheck⟩ := hs i tick hi hopen
      have hnewest := hk.newest tm htm
      have hsame : tick.check = tm.check := by omega
      refine ⟨by rw [State.checkAt, hi, ← hsame]; rfl, ?_⟩
      rw [hlast, List.drop_length]
      nofun
  | _ => trivial

theorem serial_fresh {ls : List Label} (h : Along step Serial State.init ls) :
    Throughout step Fresh State.init ls := by
  rw [fresh_iff]
  have hinit : Kept State.init ∧ Alone State.init := ⟨kept_init, nofun⟩
  exact Along.of_invariant (I := fun s => Kept s ∧ Alone s)
    (fun _ _ _ hs hl h => ⟨kept_step hs.1 h, alone_step hs.1 hs.2 hl h⟩)
    (fun _ _ _ hs _ h => hs.2.orderly hs.1 h) hinit h

end ReadinessCheck
end OxideHttp
