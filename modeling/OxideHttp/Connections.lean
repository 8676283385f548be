import OxideHttp.Lib.Transition
import OxideHttp.Lib.Watch

/-!
# Connections (`src/server.rs`: `serve`, `serve_conn`, `drive`, `wait_closing`)

The accept loop beside the tasks of the connections that it has accepted.  `live` counts for
`maxConnections`: the loop takes a place with a `fetch_add` before it looks at the limit, and
gives it back with a `fetch_sub`; a task gives its place back when its guards are dropped, after
the one of the gauge and before its clone of `drain_tx`.  Everybody waits for `CLOSING` on the
watch channel, and `close()` sends on it.  A prefix, a handshake, the end of a connection and an
overload come whenever they like.

Results.
* `counters_exact`: `live` and the gauge are the connections that are there, these are never
  more than `maxConnections`, and `done` comes after the last of them or at the deadline.
* `refused_iff`: a connection is refused just when, as it came, there were `maxConnections`.
* `closing_heard`: nobody reacts before `CLOSING` is sent, and nobody misses it.
-/

namespace OxideHttp
namespace Connections

open Transition Watch

/-- The stages of a shutdown. -/
inductive Stage where
  | running
  | preShutdown
  | closing
  deriving DecidableEq, Repr

def Stage.toNat : Stage → Nat
  | .running => 0
  | .preShutdown => 1
  | .closing => 2

/-- `>= CLOSING`. -/
def Stage.isClosing (v : Stage) : Bool := 2 ≤ v.toNat

/-- The task of a connection. -/
inductive Phase where
  | spawned
  /-- its prefix is read, or its handshake runs -/
  | opened
  /-- the first `select!` of `drive` -/
  | driving (w : Waiter)
  /-- the second one -/
  | graceful
  /-- the stream is gone, and the guards are dropped next -/
  | left
  | uncounted
  | released
  | ended
  deriving DecidableEq, Repr

inductive Move where
  | start
  | ready
  /-- no prefix, a bad one, or no handshake -/
  | fail
  /-- a step of `wait_closing` -/
  | wake
  | shed
  /-- the connection ends, or it is idle for too long -/
  | finish
  | uncount
  | release
  | leave
  deriving DecidableEq, Repr

/-- The accept loop. -/
inductive Acceptor where
  | selecting (w : Waiter)
  /-- it has taken a place and got this count -/
  | reserved (count : Nat)
  | exceeded
  | stopped
  deriving DecidableEq, Repr

structure State where
  channel : Channel Stage
  acceptor : Acceptor
  live : Nat
  /-- `connections` of the metrics -/
  gauge : Int
  conns : List Phase
  done : Bool
  deriving DecidableEq, Repr

def State.init : State where
  channel := Channel.new .running
  acceptor := .selecting .checking
  live := 0
  gauge := 0
  conns := []
  done := false

inductive Label where
  /-- `close()` sends -/
  | send (v : Stage)
  /-- the sender is dropped -/
  | close
  /-- `accept_any` returns a connection, or none -/
  | accept (ok : Bool)
  /-- the count is compared with the limit -/
  | compare
  | rollback
  /-- a step of `wait_closing` in the accept loop -/
  | wake
  | conn (i : Nat) (m : Move)
  /-- no clone of `drain_tx` is left -/
  | drained
  | deadline
  deriving DecidableEq, Repr

/-- What a move makes of a task. -/
def Phase.next (c : Channel Stage) : Phase → Move → Option Phase
  | .spawned, .start => some .opened
  | .opened, .ready => some (.driving .checking)
  | .opened, .fail => some .left
  | .driving w, .wake => (w.step Stage.isClosing c).map fun w =>
      if w = .returned then .graceful else .driving w
  | .driving _, .shed => some .graceful
  | .driving _, .finish => some .left
  | .graceful, .finish => some .left
  | .left, .uncount => some .uncounted
  | .uncounted, .release => some .released
  | .released, .leave => some .ended
  | _, _ => none

/-- What a move does to the gauge. -/
def Move.gauge : Move → Int
  | .start => 1
  | .uncount => -1
  | _ => 0

/-- How many places a move gives back. -/
def Move.freed : Move → Nat
  | .release => 1
  | _ => 0

def step (max : Option Nat) (s : State) : Label → Option State
  | .send v =>
      if s.channel.closed = false ∧ s.channel.value.toNat < v.toNat then
        some { s with channel := s.channel.send v }
      else none
  | .close => some { s with channel := s.channel.close }
  | .accept ok =>
      match s.acceptor with
      | .selecting _ =>
          if ok then some { s with live := s.live + 1, acceptor := .reserved (s.live + 1) }
          else some { s with acceptor := .selecting .checking }
      | _ => none
  | .compare =>
      match s.acceptor with
      | .reserved count =>
          if max.any fun m => m < count then some { s with acceptor := .exceeded }
          else some { s with conns := s.conns ++ [.spawned], acceptor := .selecting .checking }
      | _ => none
  | .rollback =>
      match s.acceptor with
      | .exceeded => some { s with live := s.live - 1, acceptor := .selecting .checking }
      | _ => none
  | .wake =>
      match s.acceptor with
      | .selecting w => (w.step Stage.isClosing s.channel).map fun w =>
          { s with acceptor := if w = .returned then .stopped else .selecting w }
      | _ => none
  | .conn i m =>
      s.conns[i]?.bind fun q => (q.next s.channel m).map fun r =>
        { s with
          conns := s.conns.set i r
          gauge := s.gauge + m.gauge
          live := s.live - m.freed }
  | .drained =>
      if s.acceptor = .stopped ∧ s.done = false ∧ s.conns.all (fun q => q = .ended) then
        some { s with done := true }
      else none
  | .deadline =>
      if s.acceptor = .stopped ∧ s.done = false then some { s with done := true } else none

/-! ## What is counted -/

/-- The task has a place in `live`. -/
def Phase.holds : Phase → Bool
  | .released | .ended => false
  | _ => true

/-- The task is in the gauge. -/
def Phase.counted : Phase → Bool
  | .opened | .driving _ | .graceful | .left => true
  | _ => false

def State.holding (s : State) : Nat := s.conns.countP Phase.holds

def State.counted (s : State) : Nat := s.conns.countP Phase.counted

/-- The place that the accept loop has taken for a connection it may yet refuse. -/
def Acceptor.held : Acceptor → Nat
  | .reserved _ | .exceeded => 1
  | _ => 0

/-- Everything a step can do. -/
inductive Moves (max : Option Nat) (s : State) : Label → State → Prop
  | send {v : Stage} (hopen : s.channel.closed = false)
      (hlt : s.channel.value.toNat < v.toNat) :
      Moves max s (.send v) { s with channel := s.channel.send v }
  | close : Moves max s .close { s with channel := s.channel.close }
  | accept {w : Waiter} (h : s.acceptor = .selecting w) :
      Moves max s (.accept true)
        { s with live := s.live + 1, acceptor := .reserved (s.live + 1) }
  | skip {w : Waiter} (h : s.acceptor = .selecting w) :
      Moves max s (.accept false) { s with acceptor := .selecting .checking }
  | refuse {count : Nat} (h : s.acceptor = .reserved count)
      (hover : (max.any fun m => m < count) = true) :
      Moves max s .compare { s with acceptor := .exceeded }
  | spawn {count : Nat} (h : s.acceptor = .reserved count)
      (hfits : (max.any fun m => m < count) = false) :
      Moves max s .compare
        { s with conns := s.conns ++ [.spawned], acceptor := .selecting .checking }
  | rollback (h : s.acceptor = .exceeded) :
      Moves max s .rollback { s with live := s.live - 1, acceptor := .selecting .checking }
  | wake {w w' : Waiter} (h : s.acceptor = .selecting w)
      (hstep : w.step Stage.isClosing s.channel = some w') :
      Moves max s .wake { s with acceptor := if w' = .returned then .stopped else .selecting w' }
  | conn {i : Nat} {m : Move} {q r : Phase} (hi : s.conns[i]? = some q)
      (hq : q.next s.channel m = some r) :
      Moves max s (.conn i m)
        { s with conns := s.conns.set i r, gauge := s.gauge + m.gauge, live := s.live - m.freed }
  | drained (h : s.acceptor = .stopped) (hdone : s.done = false)
      (hall : ∀ q ∈ s.conns, q = .ended) : Moves max s .drained { s with done := true }
  | deadline (h : s.acceptor = .stopped) (hdone : s.done = false) :
      Moves max s .deadline { s with done := true }

variable {max : Option Nat} {s t : State}

theorem moves_of_step {l : Label} (h : step max s l = some t) : Moves max s l t := by
  cases l with
  | send v =>
      simp only [step, Option.ite_none_right_eq_some] at h
      obtain ⟨⟨hopen, hlt⟩, h⟩ := h
      obtain rfl := Option.some.inj h
      exact .send hopen hlt
  | close =>
      obtain rfl := Option.some.inj h
      exact .close
  | accept ok =>
      simp only [step] at h
      split at h
      case h_1 w hw =>
        cases ok with
        | true =>
            obtain rfl := Option.some.inj h
            exact .accept hw
        | false =>
            obtain rfl := Option.some.inj h
            exact .skip hw
      case h_2 => cases h
  | compare =>
      simp only [step] at h
      split at h
      case h_1 count hcount =>
        split at h
        case isTrue hover =>
          obtain rfl := Option.some.inj h
          exact .refuse hcount hover
        case isFalse hfits =>
          obtain rfl := Option.some.inj h
          exact .spawn hcount (Bool.eq_false_iff.2 hfits)
      case h_2 => cases h
  | rollback =>
      simp only [step] at h
      split at h
      case h_1 hover =>
        obtain rfl := Option.some.inj h
        exact .rollback hover
      case h_2 => cases h
  | wake =>
      simp only [step] at h
      split at h
      case h_1 w hw =>
        obtain ⟨w', hstep, rfl⟩ := Option.map_eq_some_iff.1 h
        exact .wake hw hstep
      case h_2 => cases h
  | conn i m =>
      obtain ⟨q, hi, h⟩ := Option.bind_eq_some_iff.1 h
      obtain ⟨r, hq, rfl⟩ := Option.map_eq_some_iff.1 h
      exact .conn hi hq
  | drained =>
      simp only [step, Option.ite_none_right_eq_some] at h
      obtain ⟨⟨hstopped, hdone, hall⟩, h⟩ := h
      obtain rfl := Option.some.inj h
      exact .drained hstopped hdone fun q hq => of_decide_eq_true (List.all_eq_true.1 hall q hq)
  | deadline =>
      simp only [step, Option.ite_none_right_eq_some] at h
      obtain ⟨⟨hstopped, hdone⟩, h⟩ := h
      obtain rfl := Option.some.inj h
      exact .deadline hstopped hdone

/-! ## Counters -/

/-- A move gives back what the task held, and tells the gauge. -/
theorem next_counts {c : Channel Stage} {q r : Phase} {m : Move} (h : q.next c m = some r) :
    (if q.holds then 1 else 0) = (if r.holds then 1 else 0) + m.freed ∧
      (if r.counted then (1 : Int) else 0) = (if q.counted then 1 else 0) + m.gauge := by
  cases q with
  | driving w =>
      cases m with
      | wake =>
          obtain ⟨w', -, rfl⟩ := Option.map_eq_some_iff.1 h
          by_cases hw : w' = .returned <;>
            simp [hw, Phase.holds, Phase.counted, Move.freed, Move.gauge]
      | shed | finish =>
          obtain rfl := Option.some.inj h
          exact ⟨rfl, rfl⟩
      | _ => cases h
  | _ => cases m <;> cases h <;> exact ⟨rfl, rfl⟩

/-- The counters are those of the connections, within the limit. -/
structure Exact (max : Option Nat) (s : State) : Prop where
  live : s.live = s.holding + s.acceptor.held
  gauge : s.gauge = s.counted
  within : ∀ m, max = some m → s.holding ≤ m
  count : ∀ n, s.acceptor = .reserved n → s.holding + 1 ≤ n

theorem step_exact {l : Label} (hs : Exact max s) (h : step max s l = some t) : Exact max t := by
  obtain ⟨hlive, hgauge, hwithin, hcount⟩ := hs
  cases moves_of_step h with
  | send | close | drained | deadline => exact ⟨hlive, hgauge, hwithin, hcount⟩
  | accept hw =>
      rw [hw] at hlive
      refine ⟨?_, hgauge, hwithin, fun n hn => ?_⟩
      · simpa [State.holding, Acceptor.held] using hlive
      · obtain rfl := Acceptor.reserved.inj hn
        exact Nat.succ_le_succ hlive.ge
  | skip hw =>
      rw [hw] at hlive
      exact ⟨hlive, hgauge, hwithin, fun _ hn => (nomatch hn)⟩
  | refuse hn hover =>
      rw [hn] at hlive
      exact ⟨hlive, hgauge, hwithin, fun _ hn => (nomatch hn)⟩
  | @spawn count hn hfits =>
      rw [hn] at hlive
      have hle := hcount count hn
      refine ⟨?_, ?_, fun m hm => ?_, fun _ hn => (nomatch hn)⟩
      · simpa [State.holding, Acceptor.held, Phase.holds] using hlive
      · simpa [State.counted, Phase.counted] using hgauge
      · rw [hm, Option.any_some, decide_eq_false_iff_not] at hfits
        simp only [State.holding, List.countP_append, List.countP_singleton, Phase.holds, if_true]
          at hle ⊢
        omega
  | rollback hover =>
      rw [hover] at hlive
      refine ⟨?_, hgauge, hwithin, fun _ hn => (nomatch hn)⟩
      simp only [State.holding, Acceptor.held] at hlive ⊢
      omega
  | @wake w w' hw hstep =>
      rw [hw] at hlive
      refine ⟨?_, hgauge, hwithin, fun n hn => ?_⟩
      · dsimp only
        split <;> exact hlive
      · dsimp only at hn
        split at hn <;> cases hn
  | @conn i m q r hi hq =>
      obtain ⟨hfreed, hmoved⟩ := next_counts hq
      have hset := countP_set_add Phase.holds hi r
      have hset' := countP_set_add Phase.counted hi r
      have hholding : (s.conns.set i r).countP Phase.holds + m.freed = s.holding := by
        rw [State.holding]
        omega
      have hcounted : ((s.conns.set i r).countP Phase.counted : Int) = s.counted + m.gauge := by
        rw [State.counted]
        split_ifs at hset' hmoved <;> omega
      refine ⟨?_, ?_, fun n hn => ?_, fun n hn => ?_⟩
      · change s.live - m.freed = (s.conns.set i r).countP Phase.holds + s.acceptor.held
        omega
      · change s.gauge + m.gauge = ((s.conns.set i r).countP Phase.counted : Nat)
        rw [hcounted, hgauge]
      · exact (Nat.le_add_right _ m.freed).trans (hholding.le.trans (hwithin n hn))
      · exact (Nat.succ_le_succ (Nat.le_of_add_right_le hholding.le)).trans (hcount n hn)

theorem run_exact {ls : List Label} (hrun : run (step max) State.init ls = some t) :
    Exact max t :=
  run_invariant (I := Exact max) (fun _ _ _ => step_exact)
    ⟨rfl, rfl, fun _ _ => Nat.zero_le _, fun _ h => Acceptor.noConfusion h⟩ hrun

/-- Without the deadline, `done` is set when every connection has ended. -/
theorem run_done {ls : List Label} (hrun : run (step max) State.init ls = some t)
    (hno : .deadline ∉ ls) (hdone : t.done = true) :
    t.acceptor = .stopped ∧ ∀ q ∈ t.conns, q = .ended := by
  revert hno hdone
  refine run_history (J := fun (t : State) ls => .deadline ∉ ls → t.done = true →
    t.acceptor = .stopped ∧ ∀ q ∈ t.conns, q = .ended) (fun _ h => Bool.noConfusion h) ?_ hrun
  intro s ls l t ih h hno hdone
  have hbefore : s.done = true → s.acceptor = .stopped ∧ ∀ q ∈ s.conns, q = .ended :=
    ih fun hmem => hno (List.mem_append_left _ hmem)
  cases moves_of_step h with
  | send | close => exact hbefore hdone
  | accept hw | skip hw | wake hw =>
      have hstopped := (hbefore hdone).1
      rw [hw] at hstopped
      cases hstopped
  | refuse hn | spawn hn =>
      have hstopped := (hbefore hdone).1
      rw [hn] at hstopped
      cases hstopped
  | rollback hover =>
      have hstopped := (hbefore hdone).1
      rw [hover] at hstopped
      cases hstopped
  | @conn i m q r hi hq =>
      obtain rfl := (hbefore hdone).2 q (List.mem_of_getElem? hi)
      cases m <;> cases hq
  | drained hstopped _ hall => exact ⟨hstopped, hall⟩
  | deadline => exact absurd (List.mem_append_right _ (List.mem_singleton_self _)) hno

/--
In every run `live` is the number of connections with a place, and one more while the accept
loop holds a place for a connection that it may refuse; the gauge is the number of connections
that are served; there are never more than `maxConnections`; and unless the deadline passes,
`done` means that none is left.
-/
theorem counters_exact {ls : List Label} (hrun : run (step max) State.init ls = some t) :
    t.live = t.holding + t.acceptor.held ∧ t.gauge = t.counted ∧
      (∀ m, max = some m → t.holding ≤ m) ∧
      (.deadline ∉ ls → t.done = true →
        (∀ q ∈ t.conns, q = .ended) ∧ t.live = 0 ∧ t.gauge = 0) := by
  have hexact := run_exact hrun
  refine ⟨hexact.live, hexact.gauge, hexact.within, fun hno hdone => ?_⟩
  obtain ⟨hstopped, hall⟩ := run_done hrun hno hdone
  have hholding : t.holding = 0 := List.countP_eq_zero.2 fun q hq => by
    rw [hall q hq]
    decide
  have hcounted : t.counted = 0 := List.countP_eq_zero.2 fun q hq => by
    rw [hall q hq]
    decide
  refine ⟨hall, ?_, ?_⟩
  · rw [hexact.live, hholding, hstopped]
    rfl
  · rw [hexact.gauge, hcounted]
    rfl

/-- One place, one connection that is served, and one that is refused. -/
def secondRefused : List Label :=
  [.accept true, .compare, .conn 0 .start, .accept true, .compare, .rollback]

theorem counters_exact_second : ∃ t, run (step (some 1)) State.init secondRefused = some t ∧
    t.live = t.holding + t.acceptor.held ∧ t.gauge = t.counted ∧ t.holding ≤ 1 := by
  have hrun : run (step (some 1)) State.init secondRefused = some
      ⟨Channel.new .running, .selecting .checking, 1, 1, [.opened], false⟩ := by decide
  obtain ⟨hlive, hgauge, hwithin, -⟩ := counters_exact hrun
  exact ⟨_, hrun, hlive, hgauge, hwithin 1 rfl⟩

/-! ## The limit -/

/-- While others move, the accept loop keeps its count. -/
theorem run_reserved {count : Nat} {ls : List Label} (hs : s.acceptor = .reserved count)
    (hrun : run (step max) s ls = some t) (hno : .compare ∉ ls) : t.acceptor = .reserved count := by
  revert hno
  refine run_history (J := fun (t : State) ls => .compare ∉ ls → t.acceptor = .reserved count)
    (fun _ => hs) ?_ hrun
  intro s ls l t ih h hno
  have hcount := ih fun hmem => hno (List.mem_append_left _ hmem)
  cases moves_of_step h with
  | send | close | conn | drained | deadline => exact hcount
  | accept hw | skip hw | wake hw =>
      rw [hw] at hcount
      cases hcount
  | rollback hover =>
      rw [hover] at hcount
      cases hcount
  | refuse | spawn => exact absurd (List.mem_append_right _ (List.mem_singleton_self _)) hno

/--
A connection is turned away just when there were `maxConnections` with a place as it came;
otherwise it is served.
-/
theorem refused_iff {before between : List Label} {s t u v : State}
    (hs : run (step max) State.init before = some s)
    (haccept : step max s (.accept true) = some t)
    (hbetween : run (step max) t between = some u) (hnext : .compare ∉ between)
    (hcompare : step max u .compare = some v) :
    (v.acceptor = .exceeded ↔ ∃ m, max = some m ∧ m ≤ s.holding) ∧
      (v.acceptor ≠ .exceeded → v.conns = u.conns ++ [.spawned]) := by
  have hlive := (run_exact hs).live
  have hreserved : u.acceptor = .reserved (s.holding + 1) := by
    cases moves_of_step haccept with
    | accept hw =>
        rw [hw] at hlive
        have hcount : s.live = s.holding := hlive
        exact run_reserved (congrArg (fun n => Acceptor.reserved (n + 1)) hcount) hbetween hnext
  have hfull (m : Nat) : (decide (m < s.holding + 1) = true) ↔ m ≤ s.holding := by
    rw [decide_eq_true_iff]
    exact Nat.lt_succ_iff
  cases moves_of_step hcompare with
  | refuse hn hover =>
      rw [hreserved] at hn
      obtain rfl := Acceptor.reserved.inj hn
      obtain ⟨m, rfl, hlt⟩ : ∃ m, max = some m ∧ decide (m < s.holding + 1) = true := by
        cases max with
        | none => cases hover
        | some m => exact ⟨m, rfl, hover⟩
      exact ⟨iff_of_true rfl ⟨m, rfl, (hfull m).1 hlt⟩, fun h => absurd rfl h⟩
  | spawn hn hfits =>
      rw [hreserved] at hn
      obtain rfl := Acceptor.reserved.inj hn
      refine ⟨iff_of_false (fun h => Acceptor.noConfusion h) ?_, fun _ => rfl⟩
      rintro ⟨m, rfl, hle⟩
      rw [Option.any_some, (hfull m).2 hle] at hfits
      cases hfits

theorem refused_iff_second : ∃ s t u v,
    run (step (some 1)) State.init [.accept true, .compare] = some s ∧
      step (some 1) s (.accept true) = some t ∧
      run (step (some 1)) t [.conn 0 .start] = some u ∧ step (some 1) u .compare = some v ∧
      (v.acceptor = .exceeded ↔ ∃ m, some 1 = some m ∧ m ≤ s.holding) := by
  have hs : run (step (some 1)) State.init [.accept true, .compare] = some
      ⟨Channel.new .running, .selecting .checking, 1, 0, [.spawned], false⟩ := by decide
  have ht : step (some 1) ⟨Channel.new .running, .selecting .checking, 1, 0, [.spawned], false⟩
      (.accept true) = some
      ⟨Channel.new .running, .reserved 2, 2, 0, [.spawned], false⟩ := by decide
  have hu : run (step (some 1)) ⟨Channel.new .running, .reserved 2, 2, 0, [.spawned], false⟩
      [.conn 0 .start] = some ⟨Channel.new .running, .reserved 2, 2, 1, [.opened], false⟩ := by decide
  have hv : step (some 1) ⟨Channel.new .running, .reserved 2, 2, 1, [.opened], false⟩ .compare =
      some ⟨Channel.new .running, .exceeded, 2, 1, [.opened], false⟩ := by decide
  exact ⟨_, _, _, _, hs, ht, hu, hv, (refused_iff hs ht hu (by decide) hv).1⟩

/-! ## The end -/

/-- What a task has heard. -/
def Phase.Sound (c : Channel Stage) : Phase → Prop
  | .driving w => w ≠ .returned ∧ w.Sound Stage.isClosing c
  | _ => True

def Acceptor.Sound (c : Channel Stage) : Acceptor → Prop
  | .selecting w => w ≠ .returned ∧ w.Sound Stage.isClosing c
  | .stopped => c.Due Stage.isClosing
  | _ => True

structure Heard (s : State) : Prop where
  acceptor : s.acceptor.Sound s.channel
  conns : ∀ q ∈ s.conns, q.Sound s.channel

theorem Heard.of_channel {c : Channel Stage} (hs : Heard s)
    (hw : ∀ w : Waiter, w.Sound Stage.isClosing s.channel → w.Sound Stage.isClosing c) :
    Heard { s with channel := c } := by
  obtain ⟨hacceptor, hconns⟩ := hs
  refine ⟨?_, fun q hq => ?_⟩
  · change s.acceptor.Sound c
    cases h : s.acceptor with
    | selecting w =>
        rw [h] at hacceptor
        exact ⟨hacceptor.1, hw w hacceptor.2⟩
    | stopped =>
        rw [h] at hacceptor
        exact hw .returned hacceptor
    | reserved | exceeded => trivial
  · have hold := hconns q hq
    cases q with
    | driving w => exact ⟨hold.1, hw w hold.2⟩
    | _ => trivial

theorem next_sound {c : Channel Stage} {q r : Phase} {m : Move} (hs : q.Sound c)
    (h : q.next c m = some r) : r.Sound c := by
  cases q with
  | driving w =>
      cases m with
      | wake =>
          obtain ⟨w', hw, rfl⟩ := Option.map_eq_some_iff.1 h
          split
          case isTrue => trivial
          case isFalse hne => exact ⟨hne, hs.2.step hw⟩
      | shed | finish =>
          obtain rfl := Option.some.inj h
          trivial
      | _ => cases h
  | _ => cases m <;> cases h <;> trivial

theorem step_heard {l : Label} (hs : Heard s) (h : step max s l = some t) : Heard t := by
  obtain ⟨hacceptor, hconns⟩ := hs
  have hlooking : Acceptor.Sound s.channel (.selecting .checking) :=
    ⟨fun h => Waiter.noConfusion h, trivial⟩
  cases moves_of_step h with
  | @send v hopen hlt =>
      refine Heard.of_channel ⟨hacceptor, hconns⟩ fun w hw => hw.send fun hclosing => ?_
      -- there is no stage above `CLOSING`
      rw [Stage.isClosing, decide_eq_true_iff] at hclosing ⊢
      omega
  | close => exact Heard.of_channel ⟨hacceptor, hconns⟩ fun w hw => hw.close
  | accept | refuse => exact ⟨trivial, hconns⟩
  | skip | rollback => exact ⟨hlooking, hconns⟩
  | spawn =>
      refine ⟨hlooking, fun q hq => ?_⟩
      rcases List.mem_append.1 hq with hq | hq
      · exact hconns q hq
      · obtain rfl := List.mem_singleton.1 hq
        trivial
  | @wake w w' hw hstep =>
      rw [hw] at hacceptor
      have hsound := hacceptor.2.step hstep
      refine ⟨?_, hconns⟩
      dsimp only
      split
      case isTrue hreturned =>
        subst hreturned
        exact hsound
      case isFalse hne => exact ⟨hne, hsound⟩
  | conn hi hq =>
      refine ⟨hacceptor, fun q hmem => ?_⟩
      rcases List.mem_or_eq_of_mem_set hmem with hmem | rfl
      · exact hconns q hmem
      · exact next_sound (hconns _ (List.mem_of_getElem? hi)) hq
  | drained | deadline => exact ⟨hacceptor, hconns⟩

theorem run_heard {ls : List Label} (hrun : run (step max) State.init ls = some t) : Heard t :=
  have hinit : Acceptor.Sound (Channel.new .running) (.selecting .checking) :=
    ⟨fun h => Waiter.noConfusion h, trivial⟩
  run_invariant (I := Heard) (fun _ _ _ => step_heard)
    ⟨hinit, fun _ h => absurd h List.not_mem_nil⟩ hrun

/-- The accept loop with its receiver. -/
def Acceptor.of (w : Waiter) : Acceptor := if w = .returned then .stopped else .selecting w

def Phase.of (w : Waiter) : Phase := if w = .returned then .graceful else .driving w

theorem not_returned_of_step {c : Channel Stage} {w w' : Waiter}
    (h : w.step Stage.isClosing c = some w') : w ≠ .returned := by
  rintro rfl
  cases h

/-- The accept loop hears of the end within three steps. -/
theorem acceptor_stops {w : Waiter} (hw : s.acceptor = .selecting w)
    (hs : Acceptor.Sound s.channel s.acceptor) (hdue : s.channel.Due Stage.isClosing) :
    ∃ n ≤ 3, run (step max) s (List.replicate n .wake) = some { s with acceptor := .stopped } := by
  rw [hw] at hs
  obtain ⟨n, hn, hsteps⟩ := Waiter.exists_returned hs.2 hdue
  have hrun := Waiter.run_of_steps (step max) .wake
    (fun w => { s with acceptor := Acceptor.of w }) (fun w w' h => by
      have hne := not_returned_of_step h
      simp [step, Acceptor.of, hne, h]) hsteps
  have hof : Acceptor.of w = s.acceptor := by rw [Acceptor.of, if_neg hs.1, hw]
  rw [hof] at hrun
  exact ⟨n, hn, hrun⟩

/-- A connection hears of the end within three steps. -/
theorem conn_closes {i : Nat} {w : Waiter} (hi : s.conns[i]? = some (.driving w))
    (hs : Phase.Sound s.channel (.driving w)) (hdue : s.channel.Due Stage.isClosing) :
    ∃ n ≤ 3, run (step max) s (List.replicate n (.conn i .wake)) =
      some { s with conns := s.conns.set i .graceful } := by
  obtain ⟨hlt, hget⟩ := List.getElem?_eq_some_iff.1 hi
  obtain ⟨n, hn, hsteps⟩ := Waiter.exists_returned hs.2 hdue
  have hrun := Waiter.run_of_steps (step max) (.conn i .wake)
    (fun w => { s with conns := s.conns.set i (Phase.of w) }) (fun w w' h => by
      have hne := not_returned_of_step h
      simp [step, Phase.of, hne, hlt, Phase.next, h, Move.gauge, Move.freed]) hsteps
  have hof : s.conns.set i (Phase.of w) = s.conns := by
    rw [Phase.of, if_neg hs.1, ← hget, List.set_getElem_self]
  rw [hof] at hrun
  exact ⟨n, hn, hrun⟩

/-- The accept loop stops within five steps of its own. -/
theorem exists_stopped (hs : Acceptor.Sound s.channel s.acceptor)
    (hdue : s.channel.Due Stage.isClosing) :
    ∃ own u, own.length ≤ 5 ∧ (∀ l ∈ own, l = .compare ∨ l = .rollback ∨ l = .wake) ∧
      run (step max) s own = some u ∧ u.acceptor = .stopped := by
  have hwakes {s : State} {w : Waiter} (hw : s.acceptor = .selecting w)
      (hs : Acceptor.Sound s.channel s.acceptor) (hdue : s.channel.Due Stage.isClosing) :
      ∃ own u, own.length ≤ 3 ∧ (∀ l ∈ own, l = .compare ∨ l = .rollback ∨ l = .wake) ∧
        run (step max) s own = some u ∧ u.acceptor = .stopped := by
    obtain ⟨n, hn, hrun⟩ := acceptor_stops hw hs hdue
    refine ⟨List.replicate n .wake, _, by rwa [List.length_replicate], fun l hl => ?_, hrun, rfl⟩
    exact .inr (.inr (List.eq_of_mem_replicate hl))
  have hlooking (c : Channel Stage) : Acceptor.Sound c (.selecting .checking) :=
    ⟨fun h => Waiter.noConfusion h, trivial⟩
  cases hacceptor : s.acceptor with
  | selecting w =>
      obtain ⟨own, u, hlen, hrest⟩ := hwakes hacceptor hs hdue
      exact ⟨own, u, by omega, hrest⟩
  | reserved count =>
      by_cases hover : (max.any fun m => m < count) = true
      · have hcompare : step max s .compare = some { s with acceptor := .exceeded } := by
          simp only [step, hacceptor, hover, if_true]
        obtain ⟨own, u, hlen, hown, hrun, hu⟩ := hwakes (s := { s with
          live := s.live - 1, acceptor := .selecting .checking }) rfl (hlooking _) hdue
        refine ⟨.compare :: .rollback :: own, u, Nat.add_le_add_right hlen 2, ?_, ?_, hu⟩
        · simpa using hown
        · rw [run_cons, hcompare]
          exact hrun
      · have hcompare : step max s .compare = some { s with
            conns := s.conns ++ [.spawned], acceptor := .selecting .checking } := by
          simp only [step, hacceptor, hover, if_false, Bool.false_eq_true]
        obtain ⟨own, u, hlen, hown, hrun, hu⟩ := hwakes (s := { s with
          conns := s.conns ++ [.spawned], acceptor := .selecting .checking }) rfl (hlooking _) hdue
        refine ⟨.compare :: own, u, by simp; omega, ?_, ?_, hu⟩
        · simpa using hown
        · rw [run_cons, hcompare]
          exact hrun
  | exceeded =>
      have hback : step max s .rollback = some { s with
          live := s.live - 1, acceptor := .selecting .checking } := by
        simp only [step, hacceptor]
      obtain ⟨own, u, hlen, hown, hrun, hu⟩ := hwakes (s := { s with
        live := s.live - 1, acceptor := .selecting .checking }) rfl (hlooking _) hdue
      refine ⟨.rollback :: own, u, by simp; omega, ?_, ?_, hu⟩
      · simpa using hown
      · rw [run_cons, hback]
        exact hrun
  | stopped => exact ⟨[], s, Nat.zero_le _, fun _ h => absurd h List.not_mem_nil, rfl, hacceptor⟩

/--
In every run: the accept loop stops, and a connection that is not shed is asked to close, only
once `CLOSING` was sent or the sender is gone.  From then on the accept loop is never more than
five steps of its own from the end, and a connection never more than three from closing.
-/
theorem closing_heard {ls : List Label} (hrun : run (step max) State.init ls = some t) :
    (t.acceptor = .stopped → t.channel.Due Stage.isClosing) ∧
      (∀ i u, step max t (.conn i .wake) = some u → u.conns[i]? = some .graceful →
        t.channel.Due Stage.isClosing) ∧
      (t.channel.Due Stage.isClosing →
        (∃ own u, own.length ≤ 5 ∧ (∀ l ∈ own, l = .compare ∨ l = .rollback ∨ l = .wake) ∧
          run (step max) t own = some u ∧ u.acceptor = .stopped) ∧
        ∀ i w, t.conns[i]? = some (.driving w) → ∃ n ≤ 3, ∃ u,
          run (step max) t (List.replicate n (.conn i .wake)) = some u ∧
            u.conns[i]? = some .graceful) := by
  obtain ⟨hacceptor, hconns⟩ := run_heard hrun
  refine ⟨fun hstopped => ?_, fun i u hstep hgraceful => ?_, fun hdue =>
    ⟨exists_stopped hacceptor hdue, fun i w hi => ?_⟩⟩
  · rw [hstopped] at hacceptor
    exact hacceptor
  · cases moves_of_step hstep with
    | @conn _ _ q r hi hq =>
        rw [List.getElem?_set_self (List.getElem?_eq_some_iff.1 hi).1] at hgraceful
        obtain rfl := Option.some.inj hgraceful
        cases q with
        | driving w =>
            obtain ⟨w', hw, hw'⟩ := Option.map_eq_some_iff.1 hq
            have hreturned : w' = .returned := by
              by_contra hne
              rw [if_neg hne] at hw'
              cases hw'
            have hsound := (hconns _ (List.mem_of_getElem? hi)).2.step hw
            rw [hreturned] at hsound
            exact hsound
        | _ => cases hq
  · obtain ⟨n, hn, hrun⟩ := conn_closes hi (hconns _ (List.mem_of_getElem? hi)) hdue
    exact ⟨n, hn, _, hrun, List.getElem?_set_self (List.getElem?_eq_some_iff.1 hi).1⟩

/-- A connection that waits through `PRE_SHUTDOWN`. -/
def throughPreShutdown : List Label :=
  [.accept true, .compare, .conn 0 .start, .conn 0 .ready, .conn 0 .wake, .send .preShutdown,
    .conn 0 .wake, .conn 0 .wake, .send .closing]

theorem closing_heard_through : ∃ t, run (step none) State.init throughPreShutdown = some t ∧
    ∃ n ≤ 3, ∃ u, run (step none) t (List.replicate n (.conn 0 .wake)) = some u ∧
      u.conns[0]? = some .graceful := by
  have hrun : run (step none) State.init throughPreShutdown = some
      ⟨⟨.closing, 2, false⟩, .selecting .checking, 1, 1, [.driving (.waiting 1)], false⟩ := by
    decide
  exact ⟨_, hrun, ((closing_heard hrun).2.2 (.inl rfl)).2 0 (.waiting 1) rfl⟩

end Connections
end OxideHttp
