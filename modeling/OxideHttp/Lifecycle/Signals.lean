import OxideHttp.Lifecycle

/-!
# Signals (`js/index.ts`)

The servers of one process share one handler for `SIGTERM` and `SIGINT`: a server is in
`signalServers` while it listens, the handler calls `close()` of every server of the set and
ends the process when all of these promises have settled.  One thread runs all of this:
while the handler goes through the set, only the `shutdown` listeners that the calls of
`close()` announce to run besides it.  Announcements of different servers may end here in
any order.

Results.
* `handler_iff`: the set is that of the servers that listen and have opted in, and the
  handler is installed if and only if there is one.
* `exit_after_drains`: the handler ends the process only when every server that was in the
  set at its signal, or at a signal before, has closed.
-/

namespace OxideHttp
namespace Lifecycle

open Transition

/-! ## Listening, and closing once -/

section Server

variable {s t : Server} {l : Label}

def Label.isSettle : Label → Bool
  | .settle _ _ => true
  | _ => false

/-- `close()` has been begun once at most, and its promise is `#closing` from the end of its
announcement on. -/
structure Once (s : Server) : Prop where
  one : s.closes.length ≤ 1
  promised : s.closing = none → ∀ c ∈ s.closes, c = .announcing

/-- There was a call of `close()`, and every one has settled. -/
def Server.isDown (s : Server) : Prop := s.closes ≠ [] ∧ ∀ c ∈ s.closes, c.isSettled = true

instance (s : Server) : Decidable s.isDown := inferInstanceAs (Decidable (_ ∧ _))

/-- What a step does to `#listening`, to `#closing` and to the number of the calls of
`close()`. -/
structure Effect (s : Server) (l : Label) (t : Server) : Prop where
  listening : t.listening = (!l.isSettle && (s.listening || (!s.native && t.native)))
  closing : t.closing = s.closing ∧ (∀ throws, l ≠ .announced throws) ∨ t.closing.isSome = true
  grows : t.closes.length = s.closes.length ∨
    l = .close ∧ s.closing = none ∧ t.closes = s.closes ++ [.announcing]

theorem finish_eq (s : Server) (starts : Bool) :
    ∃ native listening, s.finish starts = { s with native := native, listening := listening } ∧
      listening = (s.listening || (!s.native && native)) := by
  rw [Server.finish]
  split
  case isTrue h =>
    rw [Bool.and_eq_true] at h
    exact ⟨true, true, rfl, by rw [h.2, Bool.true_and, Bool.or_true]⟩
  case isFalse => exact ⟨s.native, s.listening, rfl, by simp⟩

theorem listen_eq (s : Server) (auto valid starts : Bool) :
    ∃ native listening listens, s.listen auto valid starts =
        { s with native := native, listening := listening, listens := listens } ∧
      listening = (s.listening || (!s.native && native)) := by
  rw [Server.listen]
  split
  case isTrue => exact ⟨s.native, s.listening, s.listens, rfl, by simp⟩
  case isFalse =>
    split
    case isTrue => exact ⟨s.native, s.listening, _, rfl, by simp⟩
    case isFalse =>
      obtain ⟨native, listening, h, hlistening⟩ := finish_eq s starts
      exact ⟨native, listening, s.listens, h, hlistening⟩

theorem effect_of_step (h : step s l = some t) : Effect s l t := by
  cases l with
  | addSchema =>
      obtain rfl := Option.some.inj h
      exact ⟨by simp [Label.isSettle], Or.inl ⟨rfl, by simp⟩, Or.inl rfl⟩
  | listen valid starts =>
      obtain rfl := Option.some.inj h
      obtain ⟨native, listening, listens, heq, hlistening⟩ := listen_eq s false valid starts
      rw [heq]
      exact ⟨hlistening, Or.inl ⟨rfl, by simp⟩, Or.inl rfl⟩
  | depsLoaded i starts =>
      simp only [step, Option.ite_none_left_eq_some] at h
      obtain ⟨auto, _, rfl⟩ := Option.map_eq_some_iff.1 h.2
      obtain ⟨native, listening, heq, hlistening⟩ :=
        finish_eq { s with listens := s.listens.eraseIdx i } starts
      rw [heq]
      exact ⟨hlistening, Or.inl ⟨rfl, by simp⟩, Or.inl rfl⟩
  | inject starts =>
      simp only [step] at h
      split at h
      case isTrue =>
        obtain rfl := Option.some.inj h
        exact ⟨by simp [Label.isSettle], Or.inl ⟨rfl, by simp⟩, Or.inl rfl⟩
      case isFalse =>
        obtain rfl := Option.some.inj h
        obtain ⟨native, listening, listens, heq, hlistening⟩ := listen_eq s true true starts
        rw [heq]
        exact ⟨hlistening, Or.inl ⟨rfl, by simp⟩, Or.inl rfl⟩
  | autostartCleared =>
      simp only [step, Option.ite_none_left_eq_some] at h
      obtain rfl := Option.some.inj h.2
      exact ⟨by simp [Label.isSettle], Or.inl ⟨rfl, by simp⟩, Or.inl rfl⟩
  | close =>
      simp only [step] at h
      split at h
      case isTrue =>
        obtain rfl := Option.some.inj h
        exact ⟨by simp [Label.isSettle], Or.inl ⟨rfl, by simp⟩, Or.inl rfl⟩
      case isFalse hnone =>
        obtain rfl := Option.some.inj h
        exact ⟨by simp [Label.isSettle], Or.inl ⟨rfl, by simp⟩,
          Or.inr ⟨rfl, Option.not_isSome_iff_eq_none.1 hnone, rfl⟩⟩
  | announced throws =>
      obtain ⟨i, _, h⟩ := Option.bind_eq_some_iff.1 h
      obtain ⟨u, hu, rfl⟩ := Option.map_eq_some_iff.1 h
      obtain ⟨_, rfl⟩ := advance_eq_some.1 hu
      exact ⟨by simp [Label.isSettle], Or.inr rfl, Or.inl (List.length_set ..)⟩
  | take i =>
      obtain ⟨u, hu, rfl⟩ := Option.map_eq_some_iff.1 h
      obtain ⟨_, rfl⟩ := advance_eq_some.1 hu
      exact ⟨by simp [Label.isSettle], Or.inl ⟨rfl, by simp⟩, Or.inl (List.length_set ..)⟩
  | drained i =>
      obtain ⟨_, rfl⟩ := advance_eq_some.1 h
      exact ⟨by simp [Label.isSettle], Or.inl ⟨rfl, by simp⟩, Or.inl (List.length_set ..)⟩
  | settle i throws =>
      simp only [step, Option.ite_none_left_eq_some] at h
      obtain ⟨u, hu, rfl⟩ := Option.map_eq_some_iff.1 h.2
      obtain ⟨_, rfl⟩ := advance_eq_some.1 hu
      exact ⟨by simp [Label.isSettle], Or.inl ⟨rfl, by simp⟩, Or.inl (List.length_set ..)⟩

theorem once_init : Once Server.init := ⟨Nat.zero_le 1, fun _ => nofun⟩

/-- `shutdown` listeners that do not call `close()` of their own server leave it at one
call. -/
theorem Once.step (hs : Once s) (hl : l = .close → .announcing ∉ s.closes)
    (h : step s l = some t) : Once t := by
  have heffect := effect_of_step h
  rcases heffect.grows with hlength | ⟨hclose, hnone, happend⟩
  · refine ⟨hlength ▸ hs.one, fun hclosing => ?_⟩
    obtain ⟨hsame, hlabel⟩ := heffect.closing.resolve_right (by simp [hclosing])
    have hpromised := hs.promised (hsame ▸ hclosing)
    rcases step_cases h with ⟨hcloses, _⟩ | ⟨hcloses, _⟩ | ⟨i, before, after, hi, _, hmove⟩
    · rwa [hcloses]
    · rw [hcloses, List.length_append, List.length_singleton] at hlength
      omega
    · -- the call that moves is announcing itself, so this step ends its announcement
      obtain rfl := hpromised before (List.mem_of_getElem? hi)
      generalize s.native = native, t.native = native' at hmove
      cases hmove with
      | announced => exact absurd rfl (hlabel false)
      | threw => exact absurd rfl (hlabel true)
  · have hempty : s.closes = [] :=
      List.eq_nil_iff_forall_not_mem.2 fun c hc =>
        hl hclose (hs.promised hnone c hc ▸ hc)
    rw [hempty, List.nil_append] at happend
    exact ⟨by rw [happend, List.length_singleton], fun _ c hc => by
      rwa [happend, List.mem_singleton] at hc⟩

/-- A server that is down stays so. -/
theorem Server.isDown.step (hdown : s.isDown) (hs : Once s) (h : Lifecycle.step s l = some t) :
    t.isDown := by
  obtain ⟨hne, hsettled⟩ := hdown
  obtain ⟨c, hc⟩ := List.exists_mem_of_ne_nil _ hne
  rcases step_cases h with ⟨hcloses, _⟩ | ⟨hcloses, _⟩ | ⟨i, before, after, hi, _, hmove⟩
  · exact ⟨hcloses ▸ hne, hcloses ▸ hsettled⟩
  · rcases (effect_of_step h).grows with hlength | ⟨_, hnone, _⟩
    · rw [hcloses, List.length_append, List.length_singleton] at hlength
      omega
    · have hannouncing := hsettled c hc
      rw [hs.promised hnone c hc] at hannouncing
      cases hannouncing
  · have hbefore := hsettled before (List.mem_of_getElem? hi)
    generalize s.native = native, t.native = native' at hmove
    cases hmove <;> cases hbefore

/-- The step that settles a promise takes the server down. -/
theorem isDown_of_settle {i : Nat} {throws : Bool} (hs : Once s)
    (h : Lifecycle.step s (.settle i throws) = some t) : t.isDown := by
  simp only [Lifecycle.step, Option.ite_none_left_eq_some] at h
  obtain ⟨u, hu, rfl⟩ := Option.map_eq_some_iff.1 h.2
  obtain ⟨hi, rfl⟩ := advance_eq_some.1 hu
  obtain ⟨hlt, _⟩ := List.getElem?_eq_some_iff.1 hi
  have hlength : s.closes.length = 1 := by
    have hone := hs.one
    omega
  obtain ⟨c, hcloses⟩ := List.length_eq_one_iff.1 hlength
  obtain rfl : i = 0 := by omega
  rw [hcloses] at hi
  refine ⟨by simp [hcloses], fun d hd => ?_⟩
  simp only [hcloses, List.set_cons_zero, List.mem_singleton] at hd
  cases throws <;> exact hd ▸ rfl

end Server

/-! ## The servers of a process -/

structure Member where
  server : Server
  /-- `#handleSignals` -/
  handleSignals : Bool
  deriving DecidableEq, Repr

/-- A call of `onShutdownSignal`. -/
structure Wait where
  /-- the servers that were in the set -/
  snapshot : List Nat
  /-- the numbers of the calls of `close()` whose promises it has got, one for each server
  of the snapshot so far -/
  gathered : List Nat
  deriving DecidableEq, Repr

/-- What ends the process. -/
inductive Ending where
  /-- the default action of the signal -/
  | killed
  /-- `process.exit(code)` in the continuation of a call of `onShutdownSignal` -/
  | exited (wait code : Nat)
  deriving DecidableEq, Repr

structure Process where
  servers : List Member
  /-- in the order of their insertion -/
  signalServers : List Nat
  /-- `removeSignalHandler` is set, and `onShutdownSignal` is installed -/
  handler : Bool
  waits : List Wait
  ended : Option Ending
  deriving DecidableEq, Repr

def Process.init (handleSignals : List Bool) : Process where
  servers := handleSignals.map fun flag => ⟨Server.init, flag⟩
  signalServers := []
  handler := false
  waits := []
  ended := none

inductive Action where
  /-- a step of server `i` -/
  | server (i : Nat) (l : Label)
  /-- a signal arrives; `others` tells whether the application has handlers of its own -/
  | signal (others : Bool)
  /-- call `w` of `onShutdownSignal` calls `close()` of its next server -/
  | next (w : Nat)
  /-- all promises that call `w` waits for have settled -/
  | exit (w : Nat)
  deriving DecidableEq, Repr

/-- The step is one of the native layer, which does not wait for the thread of JS. -/
def Label.isNative : Label → Bool
  | .take _ | .drained _ => true
  | _ => false

/-- The step goes on after an `await`. -/
def Label.isContinuation : Label → Bool
  | .depsLoaded _ _ | .autostartCleared | .settle _ _ => true
  | _ => false

namespace Process

variable (p : Process)

def announcing : Bool := p.servers.any fun m => m.server.innermost.isSome

def looping : Bool := p.waits.any fun w => decide (w.gathered.length < w.snapshot.length)

/-- No call of JS is on the stack, so the event loop may take the next. -/
def idle : Bool := !p.announcing && !p.looping

/-- Steps of JS come from the listeners of an announcement or from the event loop. -/
def admits (l : Label) : Bool :=
  l.isNative || if l.isContinuation then p.idle else p.announcing || !p.looping

def registerForSignals (i : Nat) : Process :=
  { p with
    signalServers := if i ∈ p.signalServers then p.signalServers else p.signalServers ++ [i]
    handler := true }

def unregisterFromSignals (i : Nat) : Process :=
  let left := p.signalServers.filter (· ≠ i)
  { p with signalServers := left, handler := p.handler && !left.isEmpty }

/-- Server `i` takes a step. `listen()` registers the server when it has started the native
one, and `close()` takes it out of the set when the native `close()` has returned. -/
def stepServer (i : Nat) (l : Label) : Option Process :=
  p.servers[i]?.bind fun m =>
    (Lifecycle.step m.server l).map fun s =>
      let q := { p with servers := p.servers.set i { m with server := s } }
      if l.isSettle then q.unregisterFromSignals i
      else if !m.server.native && s.native && m.handleSignals then q.registerForSignals i
      else q

/-- The promise that `close()` of a server returns is that of the call that it begins, or of
the one that `#closing` holds. -/
def next (w : Nat) : Option Process :=
  p.waits[w]?.bind fun wait =>
    wait.snapshot[wait.gathered.length]?.bind fun i =>
      p.servers[i]?.bind fun m =>
        (p.stepServer i .close).map fun q =>
          { q with
            waits := q.waits.set w { wait with
              gathered := wait.gathered ++ [m.server.closing.getD m.server.closes.length] } }

/-- The promise of call `k` of `close()` of server `i`. -/
def promise (i k : Nat) : Option Closing := p.servers[i]?.bind fun m => m.server.closes[k]?

/-- The promises that a call of `onShutdownSignal` waits for. -/
def promises (wait : Wait) : List (Option Closing) := wait.snapshot.zipWith p.promise wait.gathered

def exit (w : Nat) : Option Process :=
  p.waits[w]?.bind fun wait =>
    if wait.gathered.length = wait.snapshot.length ∧
        (p.promises wait).all (·.any Closing.isSettled) = true then
      some { p with
        ended := some (.exited w (if some .rejected ∈ p.promises wait then 1 else 0)) }
    else none

def onShutdownSignal : Process :=
  { p with waits := p.waits ++ [⟨p.signalServers, []⟩] }

end Process

def Process.step (p : Process) : Action → Option Process
  | .server i l => if p.ended.isNone && p.admits l then p.stepServer i l else none
  | .signal others =>
      if p.ended.isNone && p.idle then
        some (if p.handler then p.onShutdownSignal
          else if others then p else { p with ended := some .killed })
      else none
  | .next w => if p.ended.isNone && !p.announcing then p.next w else none
  | .exit w => if p.ended.isNone && p.idle then p.exit w else none

/-- Server `i` listens and has opted in. -/
def Process.Listens (p : Process) (i : Nat) : Prop :=
  ∃ m, p.servers[i]? = some m ∧ m.handleSignals = true ∧ m.server.listening = true

/-- All calls of `close()` of server `i` have settled, and there was one. -/
def Process.Down (p : Process) (i : Nat) : Prop :=
  ∃ m, p.servers[i]? = some m ∧ m.server.isDown

/-- The server whose `close()` the application calls. -/
def Action.closes : Action → Option Nat
  | .server i .close => some i
  | _ => none

/-- No `shutdown` listener calls `close()` of the server that announces itself. -/
def Process.Plain (p : Process) (a : Action) : Prop :=
  ∀ i ∈ a.closes, ∀ m ∈ p.servers[i]?, .announcing ∉ m.server.closes

instance (p : Process) (a : Action) : Decidable (p.Plain a) :=
  inferInstanceAs (Decidable (∀ _ ∈ _, _))

/-! ## What a step of the process can do -/

section Process

variable {p q : Process} {a : Action}

/-- Server `i` has taken step `l` from `m` to `s`. -/
structure Served (p : Process) (i : Nat) (l : Label) (m : Member) (s : Server) (q : Process) :
    Prop where
  there : p.servers[i]? = some m
  stepped : Lifecycle.step m.server l = some s
  servers : q.servers = p.servers.set i { m with server := s }
  signalServers : q.signalServers =
    if l.isSettle then p.signalServers.filter (· ≠ i)
    else if !m.server.native && s.native && m.handleSignals then
      (p.registerForSignals i).signalServers
    else p.signalServers
  handler : q.handler =
    if l.isSettle then p.handler && !(p.signalServers.filter (· ≠ i)).isEmpty
    else p.handler || (!m.server.native && s.native && m.handleSignals)

theorem served_of_stepServer {i : Nat} {l : Label} (h : p.stepServer i l = some q) :
    (∃ m s, Served p i l m s q) ∧ q.waits = p.waits ∧ q.ended = p.ended := by
  obtain ⟨m, hm, h⟩ := Option.bind_eq_some_iff.1 h
  obtain ⟨s, hs, rfl⟩ := Option.map_eq_some_iff.1 h
  dsimp only
  split
  case isTrue hsettle => exact ⟨⟨m, s, hm, hs, rfl, by simp [hsettle, Process.unregisterFromSignals],
      by simp [hsettle, Process.unregisterFromSignals]⟩, rfl, rfl⟩
  case isFalse hsettle =>
    split
    case isTrue hstarted =>
      exact ⟨⟨m, s, hm, hs, rfl, by simp [hsettle, hstarted, Process.registerForSignals],
        by simp [hsettle, hstarted, Process.registerForSignals]⟩, rfl, rfl⟩
    case isFalse hstarted =>
      exact ⟨⟨m, s, hm, hs, rfl, by simp [hsettle, hstarted],
        by simp [hsettle, Bool.eq_false_of_not_eq_true hstarted]⟩, rfl, rfl⟩

/-- Where the process has not ended, a step is one of a server, or of the handler's loop over
the set, or it is the arrival of a signal, or the end. -/
inductive Acts (p : Process) : Action → Process → Prop
  | server {i : Nat} {l : Label} {m : Member} {s : Server} {q : Process}
      (hserved : Served p i l m s q) (hwaits : q.waits = p.waits) (hended : q.ended = none) :
      Acts p (.server i l) q
  | next {w i : Nat} {wait : Wait} {m : Member} {s : Server} {q : Process}
      (hwait : p.waits[w]? = some wait)
      (hi : wait.snapshot[wait.gathered.length]? = some i)
      (hserved : Served p i .close m s q)
      (hcalm : p.announcing = false)
      (hwaits : q.waits = p.waits.set w { wait with
        gathered := wait.gathered ++ [m.server.closing.getD m.server.closes.length] })
      (hended : q.ended = none) : Acts p (.next w) q
  | signal {others : Bool} (hhandler : p.handler = true) :
      Acts p (.signal others) p.onShutdownSignal
  | ignored (hhandler : p.handler = false) : Acts p (.signal true) p
  | killed (hhandler : p.handler = false) :
      Acts p (.signal false) { p with ended := some .killed }
  | exit {w : Nat} {wait : Wait} (hwait : p.waits[w]? = some wait)
      (hall : wait.gathered.length = wait.snapshot.length)
      (hsettled : (p.promises wait).all (·.any Closing.isSettled) = true) :
      Acts p (.exit w) { p with
        ended := some (.exited w (if some .rejected ∈ p.promises wait then 1 else 0)) }

theorem acts_of_step (h : p.step a = some q) : p.ended = none ∧ Acts p a q := by
  cases a with
  | server i l =>
      obtain ⟨hguard, h⟩ := Option.ite_none_right_eq_some.1 h
      rw [Bool.and_eq_true, Option.isNone_iff_eq_none] at hguard
      obtain ⟨⟨m, s, hserved⟩, hwaits, hended⟩ := served_of_stepServer h
      exact ⟨hguard.1, .server hserved hwaits (hended.trans hguard.1)⟩
  | signal others =>
      obtain ⟨hguard, h⟩ := Option.ite_none_right_eq_some.1 h
      rw [Bool.and_eq_true, Option.isNone_iff_eq_none] at hguard
      refine ⟨hguard.1, ?_⟩
      rw [Option.some.injEq] at h
      split at h
      case isTrue hhandler => exact h ▸ .signal hhandler
      case isFalse hhandler =>
        rw [Bool.not_eq_true] at hhandler
        cases others with
        | true => exact h ▸ .ignored hhandler
        | false => exact h ▸ .killed hhandler
  | next w =>
      obtain ⟨hguard, h⟩ := Option.ite_none_right_eq_some.1 h
      rw [Bool.and_eq_true, Option.isNone_iff_eq_none, Bool.not_eq_true'] at hguard
      obtain ⟨wait, hwait, h⟩ := Option.bind_eq_some_iff.1 h
      obtain ⟨i, hi, h⟩ := Option.bind_eq_some_iff.1 h
      obtain ⟨m, hm, h⟩ := Option.bind_eq_some_iff.1 h
      obtain ⟨q', hq', rfl⟩ := Option.map_eq_some_iff.1 h
      obtain ⟨⟨m', s, hserved⟩, hwaits, hended⟩ := served_of_stepServer hq'
      obtain rfl := Option.some.inj (hserved.there.symm.trans hm)
      exact ⟨hguard.1, .next hwait hi
        ⟨hserved.there, hserved.stepped, hserved.servers, hserved.signalServers,
          hserved.handler⟩ hguard.2 (by rw [hwaits]) (hended.trans hguard.1)⟩
  | exit w =>
      obtain ⟨hguard, h⟩ := Option.ite_none_right_eq_some.1 h
      rw [Bool.and_eq_true, Option.isNone_iff_eq_none] at hguard
      obtain ⟨wait, hwait, h⟩ := Option.bind_eq_some_iff.1 h
      obtain ⟨hdone, h⟩ := Option.ite_none_right_eq_some.1 h
      obtain rfl := Option.some.inj h
      exact ⟨hguard.1, .exit hwait hdone.1 hdone.2⟩

/-! ## The set and the handler -/

/-- The set is that of the servers that listen and have opted in, and the handler is there
when the set is not empty. -/
structure Registered (p : Process) : Prop where
  listed : ∀ i, i ∈ p.signalServers ↔ p.Listens i
  handler : p.handler = true ↔ p.signalServers ≠ []

theorem registered_init (handleSignals : List Bool) : Registered (Process.init handleSignals) where
  listed := fun i => by
    refine ⟨nofun, fun ⟨m, hm, _, hlistening⟩ => ?_⟩
    obtain ⟨flag, _, rfl⟩ := List.mem_map.1 (List.mem_of_getElem? hm)
    cases hlistening
  handler := by simp [Process.init]

variable {i : Nat} {l : Label} {m : Member} {s : Server}

theorem Served.self (h : Served p i l m s q) : q.servers[i]? = some { m with server := s } := by
  rw [h.servers, List.getElem?_set_self (List.getElem?_eq_some_iff.1 h.there).1]

theorem Served.other {j : Nat} (h : Served p i l m s q) (hj : j ≠ i) :
    q.servers[j]? = p.servers[j]? := by
  rw [h.servers, List.getElem?_set_ne (Ne.symm hj)]

theorem Served.mem_other {j : Nat} (h : Served p i l m s q) (hj : j ≠ i) :
    j ∈ q.signalServers ↔ j ∈ p.signalServers := by
  rw [h.signalServers]
  split_ifs with hsettle hstarted
  · simp [hj]
  · simp only [Process.registerForSignals]
    split_ifs <;> simp [hj]
  · exact Iff.rfl

theorem Served.registered (h : Served p i l m s q) (hp : Registered p) : Registered q := by
  have heffect := (effect_of_step h.stepped).listening
  constructor
  · intro j
    rcases eq_or_ne j i with rfl | hj
    · have hlistens : q.Listens j ↔ m.handleSignals = true ∧ s.listening = true := by
        simp [Process.Listens, h.self]
      have hbefore : j ∈ p.signalServers ↔
          m.handleSignals = true ∧ m.server.listening = true := by
        rw [hp.listed j]
        simp [Process.Listens, h.there]
      rw [hlistens, h.signalServers, heffect]
      split_ifs with hsettle hstarted
      · simp [hsettle]
      · have hmem : j ∈ (p.registerForSignals j).signalServers := by
          simp only [Process.registerForSignals]
          split_ifs with hmem
          · exact hmem
          · simp
        simp_all
      · rw [hbefore]
        cases hflag : m.handleSignals <;> simp_all
    · rw [h.mem_other hj, hp.listed j]
      simp only [Process.Listens, h.other hj]
  · rw [h.handler, h.signalServers]
    split_ifs with hsettle hstarted
    · rw [Bool.and_eq_true, hp.handler, Bool.not_eq_true', List.isEmpty_eq_false_iff]
      exact ⟨And.right, fun hleft => ⟨fun hnil => hleft (by rw [hnil, List.filter_nil]), hleft⟩⟩
    · simp only [Process.registerForSignals, hstarted, Bool.or_true, true_iff]
      split_ifs with hmem
      · exact List.ne_nil_of_mem hmem
      · simp
    · rw [Bool.eq_false_of_not_eq_true hstarted, Bool.or_false, hp.handler]

theorem Registered.step (hp : Registered p) (h : p.step a = some q) : Registered q := by
  obtain ⟨_, hacts⟩ := acts_of_step h
  cases hacts with
  | server hserved _ _ => exact hserved.registered hp
  | next _ _ hserved _ _ _ => exact hserved.registered hp
  | signal _ | ignored _ | killed _ | exit _ _ _ => exact ⟨hp.listed, hp.handler⟩

theorem registered_of_run {handleSignals : List Bool} {as : List Action}
    (h : run Process.step (Process.init handleSignals) as = some p) : Registered p :=
  run_invariant (fun _ _ _ hp hstep => Registered.step hp hstep)
    (registered_init handleSignals) h

/-! ## The end of the process -/

def Process.snapshots (p : Process) : List (List Nat) := p.waits.map Wait.snapshot

/-- A server that was in the set at a signal is down, or it is in the set still and in that
of every later signal. -/
structure Awaited (p : Process) : Prop where
  once : ∀ m ∈ p.servers, Once m.server
  kept : ∀ snapshot ∈ p.snapshots, ∀ i ∈ snapshot, p.Down i ∨ i ∈ p.signalServers
  carried : p.snapshots.Pairwise fun earlier later => ∀ i ∈ earlier, p.Down i ∨ i ∈ later

/-- What is known when the process has ended. -/
structure Finished (p : Process) : Prop where
  killed : p.ended = some .killed → p.signalServers = []
  exited : ∀ w code, p.ended = some (.exited w code) → ∃ wait, p.waits[w]? = some wait ∧
    wait.gathered.length = wait.snapshot.length ∧
    (p.promises wait).all (·.any Closing.isSettled) = true ∧
    code = if some .rejected ∈ p.promises wait then 1 else 0

theorem awaited_init (handleSignals : List Bool) : Awaited (Process.init handleSignals) where
  once := fun m hm => by
    obtain ⟨flag, _, rfl⟩ := List.mem_map.1 hm
    exact once_init
  kept := nofun
  carried := List.Pairwise.nil

theorem not_mem_announcing (h : p.announcing = false) (hm : m ∈ p.servers) :
    .announcing ∉ m.server.closes := by
  intro hc
  have hnone := List.any_eq_false.1 h m hm
  rw [Option.not_isSome_iff_eq_none, Server.innermost, List.find?_eq_none] at hnone
  obtain ⟨k, hk⟩ := List.getElem?_of_mem hc
  have hlt := (List.getElem?_eq_some_iff.1 hk).1
  exact hnone k (List.mem_reverse.2 (List.mem_range.2 hlt)) (decide_eq_true hk)

theorem Served.once (h : Served p i l m s q) (hp : ∀ m ∈ p.servers, Once m.server)
    (hl : l = .close → .announcing ∉ m.server.closes) : ∀ m ∈ q.servers, Once m.server := by
  intro m' hm'
  rw [h.servers] at hm'
  rcases List.mem_or_eq_of_mem_set hm' with hmem | rfl
  · exact hp m' hmem
  · exact (hp m (List.mem_of_getElem? h.there)).step hl h.stepped

theorem Served.down {j : Nat} (h : Served p i l m s q) (hp : ∀ m ∈ p.servers, Once m.server)
    (hj : p.Down j) : q.Down j := by
  obtain ⟨m', hm', hdown⟩ := hj
  rcases eq_or_ne j i with rfl | hne
  · obtain rfl := Option.some.inj (hm'.symm.trans h.there)
    exact ⟨_, h.self, hdown.step (hp m' (List.mem_of_getElem? hm')) h.stepped⟩
  · exact ⟨m', (h.other hne).trans hm', hdown⟩

/-- A server leaves the set only when it is down. -/
theorem Served.down_or_mem {j : Nat} (h : Served p i l m s q)
    (hp : ∀ m ∈ p.servers, Once m.server) (hj : j ∈ p.signalServers) :
    q.Down j ∨ j ∈ q.signalServers := by
  rcases eq_or_ne j i with rfl | hne
  · cases hsettle : l.isSettle with
    | true =>
        left
        obtain ⟨k, throws, rfl⟩ : ∃ k throws, l = .settle k throws := by
          cases l <;> first | exact ⟨_, _, rfl⟩ | cases hsettle
        exact ⟨_, h.self, isDown_of_settle (hp m (List.mem_of_getElem? h.there)) h.stepped⟩
    | false =>
        right
        rw [h.signalServers, hsettle]
        simp only [Bool.false_eq_true, if_false, Process.registerForSignals, hj, if_true, ite_self]
  · exact Or.inr ((h.mem_other hne).2 hj)

theorem Served.awaited (h : Served p i l m s q) (hp : Awaited p)
    (hl : l = .close → .announcing ∉ m.server.closes) (hsame : q.snapshots = p.snapshots) :
    Awaited q where
  once := h.once hp.once hl
  kept := fun snapshot hsnapshot j hj => by
    rcases hp.kept snapshot (hsame ▸ hsnapshot) j hj with hdown | hmem
    · exact Or.inl (h.down hp.once hdown)
    · exact h.down_or_mem hp.once hmem
  carried := by
    rw [hsame]
    exact hp.carried.imp fun hlater j hj => (hlater j hj).imp_left (h.down hp.once)

theorem snapshots_of_next {w : Nat} {wait : Wait} {gathered : List Nat}
    (hwait : p.waits[w]? = some wait)
    (hwaits : q.waits = p.waits.set w { wait with gathered := gathered }) :
    q.snapshots = p.snapshots := by
  have hget : p.snapshots[w]? = some wait.snapshot := by
    rw [Process.snapshots, List.getElem?_map, hwait]
    rfl
  obtain ⟨hlt, hget⟩ := List.getElem?_eq_some_iff.1 hget
  rw [Process.snapshots, hwaits, List.map_set, ← hget]
  exact List.set_getElem_self hlt

theorem Awaited.step (hp : Awaited p) (ha : p.Plain a) (h : p.step a = some q) : Awaited q := by
  obtain ⟨_, hacts⟩ := acts_of_step h
  cases hacts with
  | @server i l m s _ hserved hwaits _ =>
      refine hserved.awaited hp (fun hclose => ?_) (by rw [Process.snapshots, hwaits]; rfl)
      exact ha i (by rw [hclose]; rfl) m hserved.there
  | @next w i wait m s _ hwait _ hserved hcalm hwaits _ =>
      exact hserved.awaited hp
        (fun _ => not_mem_announcing hcalm (List.mem_of_getElem? hserved.there))
        (snapshots_of_next hwait hwaits)
  | signal _ =>
      have hsnapshots : p.onShutdownSignal.snapshots = p.snapshots ++ [p.signalServers] := by
        simp [Process.snapshots, Process.onShutdownSignal]
      refine ⟨hp.once, fun snapshot hsnapshot j hj => ?_, ?_⟩
      · rw [hsnapshots, List.mem_append, List.mem_singleton] at hsnapshot
        rcases hsnapshot with hold | rfl
        · exact hp.kept snapshot hold j hj
        · exact Or.inr hj
      · rw [hsnapshots, List.pairwise_append]
        refine ⟨hp.carried, List.pairwise_singleton _ _, fun earlier hearlier later hlater => ?_⟩
        rw [List.mem_singleton.1 hlater]
        exact hp.kept earlier hearlier
  | ignored _ | killed _ | exit _ _ _ => exact ⟨hp.once, hp.kept, hp.carried⟩

theorem Finished.of_running (h : p.ended = none) : Finished p :=
  ⟨fun hkilled => (nomatch h.symm.trans hkilled),
    fun _ _ hexited => (nomatch h.symm.trans hexited)⟩

theorem Finished.step (hregistered : Registered p) (h : p.step a = some q) : Finished q := by
  obtain ⟨hrunning, hacts⟩ := acts_of_step h
  cases hacts with
  | server _ _ hended | next _ _ _ _ _ hended => exact .of_running hended
  | signal _ | ignored _ => exact .of_running hrunning
  | killed hhandler =>
      refine ⟨fun _ => ?_, nofun⟩
      by_contra hne
      cases hhandler.symm.trans (hregistered.handler.2 hne)
  | @exit w wait hwait hall hsettled =>
      refine ⟨nofun, fun w' code h => ?_⟩
      cases h
      exact ⟨wait, hwait, hall, hsettled, rfl⟩

theorem finished_of_run {handleSignals : List Bool} {as : List Action}
    (h : run Process.step (Process.init handleSignals) as = some p) : Finished p := by
  induction as using List.reverseRecOn generalizing p with
  | nil =>
      obtain rfl := Option.some.inj h
      exact ⟨nofun, nofun⟩
  | append_singleton as a _ =>
      obtain ⟨u, hu, hstep⟩ := run_concat_some.1 h
      exact Finished.step (registered_of_run hu) hstep

/-- The servers that a call of `onShutdownSignal` has waited for are down. -/
theorem Awaited.down_of_settled {wait : Wait} (hp : Awaited p)
    (hall : wait.gathered.length = wait.snapshot.length)
    (hsettled : (p.promises wait).all (·.any Closing.isSettled) = true)
    {i : Nat} (hi : i ∈ wait.snapshot) : p.Down i := by
  obtain ⟨j, hj⟩ := List.getElem?_of_mem hi
  obtain ⟨hlt, hget⟩ := List.getElem?_eq_some_iff.1 hj
  have hpromise : p.promise i (wait.gathered.get ⟨j, hall ▸ hlt⟩) ∈ p.promises wait := by
    refine List.mem_of_getElem? (i := j) ?_
    rw [Process.promises, List.getElem?_zipWith, hj, List.getElem?_eq_getElem (hall ▸ hlt)]
    rfl
  obtain ⟨c, hc, hcsettled⟩ := Option.any_eq_true _ _ |>.1 (List.all_eq_true.1 hsettled _ hpromise)
  obtain ⟨m, hm, hclose⟩ := Option.bind_eq_some_iff.1 hc
  have hone := (hp.once m (List.mem_of_getElem? hm)).one
  have hmem := List.mem_of_getElem? hclose
  refine ⟨m, hm, List.ne_nil_of_mem hmem, fun d hd => ?_⟩
  match m.server.closes, hone, hmem, hd with
  | [e], _, hmem, hd =>
      rw [List.mem_singleton] at hmem hd
      exact hd ▸ hmem ▸ hcsettled

/-- A signal leaves the snapshots of the signals before it as they are. -/
theorem snapshots_of_step (h : p.step a = some q) : p.snapshots <+: q.snapshots := by
  obtain ⟨_, hacts⟩ := acts_of_step h
  cases hacts with
  | server _ hwaits _ =>
      have hsame : q.snapshots = p.snapshots := congrArg (List.map Wait.snapshot) hwaits
      exact hsame ▸ List.prefix_refl _
  | next hwait _ _ _ hwaits _ => exact (snapshots_of_next hwait hwaits).symm ▸ List.prefix_refl _
  | signal _ => exact ⟨[p.signalServers], by simp [Process.snapshots, Process.onShutdownSignal]⟩
  | ignored _ | killed _ | exit _ _ _ => exact List.prefix_refl _

theorem snapshots_of_run {as : List Action} (h : run Process.step p as = some q) :
    p.snapshots <+: q.snapshots :=
  run_invariant (I := fun q => p.snapshots <+: q.snapshots)
    (fun _ _ _ hp hstep => hp.trans (snapshots_of_step hstep)) (List.prefix_refl _) h

/-- The servers that listen and have opted in when a signal arrives are the snapshot of its
call of `onShutdownSignal`. -/
theorem exists_wait_of_signal {as : List Action} {others : Bool} {u : Process}
    (hu : Registered p) (hstep : p.step (.signal others) = some u)
    (hrun : run Process.step u as = some q) (hi : p.Listens i) :
    ∃ wait, q.waits[p.waits.length]? = some wait ∧ i ∈ wait.snapshot := by
  have hmem := (hu.listed i).2 hi
  have hhandler := hu.handler.2 (List.ne_nil_of_mem hmem)
  have hsnapshots : u.snapshots = p.snapshots ++ [p.signalServers] := by
    obtain ⟨_, hacts⟩ := acts_of_step hstep
    cases hacts with
    | signal _ => simp [Process.snapshots, Process.onShutdownSignal]
    | ignored h | killed h => cases h.symm.trans hhandler
  obtain ⟨rest, hrest⟩ := snapshots_of_run hrun
  have hget : q.snapshots[p.waits.length]? = some p.signalServers := by
    rw [← hrest, hsnapshots, List.append_assoc,
      List.getElem?_append_right (by simp [Process.snapshots])]
    simp [Process.snapshots]
  rw [Process.snapshots, List.getElem?_map, Option.map_eq_some_iff] at hget
  obtain ⟨wait, hwait, hsnapshot⟩ := hget
  exact ⟨wait, hwait, hsnapshot ▸ hmem⟩

/-- `signalServers` is the set of the servers that listen and have opted in, and the handler is
installed if and only if there is one; so a signal ends the process by its default action
only when there is none. -/
theorem handler_iff (handleSignals : List Bool) (as : List Action)
    (h : run Process.step (Process.init handleSignals) as = some p) :
    (∀ i, i ∈ p.signalServers ↔ p.Listens i) ∧
      (p.handler = true ↔ ∃ i, p.Listens i) ∧
      (p.ended = some .killed → ∀ i, ¬ p.Listens i) := by
  obtain ⟨hlisted, hhandler⟩ := registered_of_run h
  refine ⟨hlisted, ⟨fun hinstalled => ?_, fun ⟨i, hi⟩ => ?_⟩, fun hkilled i hi => ?_⟩
  · exact (List.exists_mem_of_ne_nil _ (hhandler.1 hinstalled)).imp fun i => (hlisted i).1
  · exact hhandler.2 (List.ne_nil_of_mem ((hlisted i).2 hi))
  · have hmem := (hlisted i).2 hi
    rw [(finished_of_run h).killed hkilled] at hmem
    cases hmem

/-- A server listens, closes, and the next signal finds no handler. -/
def listenAndClose : List Action :=
  [.server 0 (.listen true true), .server 0 .close, .server 0 (.announced false),
    .server 0 (.take 0), .server 0 (.drained 0), .server 0 (.settle 0 false), .signal false]

theorem handler_iff_closed :
    ∃ p, run Process.step (Process.init [true]) listenAndClose = some p ∧
      p.ended = some .killed ∧ ∀ i, ¬ p.Listens i := by
  obtain ⟨p, hp, hended⟩ : ∃ p, run Process.step (Process.init [true]) listenAndClose = some p ∧
      p.ended = some .killed := ⟨_, rfl, by decide⟩
  exact ⟨p, hp, hended, (handler_iff _ _ hp).2.2 hended⟩

/-- A call of `onShutdownSignal` ends the process only when all servers are down that listened
and had opted in at its signal or at a signal before, and with code 1 if and only if one of
the promises that it has got was rejected. No `shutdown` listener may call `close()` of its
own server. -/
theorem exit_after_drains (handleSignals : List Bool) (as : List Action)
    (h : run Process.step (Process.init handleSignals) as = some p)
    (hplain : Along Process.step Process.Plain (Process.init handleSignals) as)
    (w code : Nat) (hexited : p.ended = some (.exited w code)) :
    (∀ before others after u, as = before ++ .signal others :: after →
      run Process.step (Process.init handleSignals) before = some u →
        u.waits.length ≤ w → ∀ i, u.Listens i → p.Down i) ∧
      ∃ wait, p.waits[w]? = some wait ∧ (∀ i ∈ wait.snapshot, p.Down i) ∧
        code = if some .rejected ∈ p.promises wait then 1 else 0 := by
  have hawaited : Awaited p := hplain.invariant
    (fun _ _ _ hp ha hstep => Awaited.step hp ha hstep) (awaited_init handleSignals) h
  obtain ⟨wait, hwait, hall, hsettled, hcode⟩ := (finished_of_run h).exited w code hexited
  have hdown : ∀ i ∈ wait.snapshot, p.Down i := fun i => hawaited.down_of_settled hall hsettled
  refine ⟨?_, wait, hwait, hdown, hcode⟩
  rintro before others after u rfl hu hle i hi
  obtain ⟨u', hu', hrest⟩ := run_append_some.1 h
  obtain rfl := Option.some.inj (hu.symm.trans hu')
  obtain ⟨v, hstep, hrun⟩ := run_cons_some.1 hrest
  obtain ⟨earlier, hearlier, hmem⟩ :=
    exists_wait_of_signal (registered_of_run hu) hstep hrun hi
  rcases Nat.eq_or_lt_of_le hle with heq | hlt
  · rw [heq, hwait] at hearlier
    exact hdown i (Option.some.inj hearlier ▸ hmem)
  · have hget {k : Nat} {found : Wait} (hfound : p.waits[k]? = some found) :
        p.snapshots[k]? = some found.snapshot := by
      rw [Process.snapshots, List.getElem?_map, hfound]
      rfl
    obtain ⟨hlt₁, h₁⟩ := List.getElem?_eq_some_iff.1 (hget hearlier)
    obtain ⟨hlt₂, h₂⟩ := List.getElem?_eq_some_iff.1 (hget hwait)
    have hcarried := List.pairwise_iff_getElem.1 hawaited.carried _ _ hlt₁ hlt₂ hlt
    rw [h₁, h₂] at hcarried
    exact (hcarried i hmem).elim id (hdown i)

/-- Two servers drain after a signal, and a third has not opted in. -/
def drainingTwo : List Action :=
  [.server 0 (.listen true true), .server 1 (.listen true true), .server 2 (.listen true true),
    .signal false, .next 0, .server 0 (.announced false), .next 0, .server 1 (.announced true),
    .server 0 (.take 0), .server 0 (.drained 0), .server 0 (.settle 0 false), .exit 0]

theorem exit_after_drains_two :
    ∃ p, run Process.step (Process.init [true, true, false]) drainingTwo = some p ∧
      p.ended = some (.exited 0 1) ∧
      ((∀ before others after u, drainingTwo = before ++ .signal others :: after →
        run Process.step (Process.init [true, true, false]) before = some u →
          u.waits.length ≤ 0 → ∀ i, u.Listens i → p.Down i) ∧
        ∃ wait, p.waits[0]? = some wait ∧ (∀ i ∈ wait.snapshot, p.Down i) ∧
          1 = if some .rejected ∈ p.promises wait then 1 else 0) := by
  obtain ⟨p, hp, hended⟩ : ∃ p, run Process.step (Process.init [true, true, false]) drainingTwo =
      some p ∧ p.ended = some (.exited 0 1) := ⟨_, rfl, by decide⟩
  exact ⟨p, hp, hended, exit_after_drains _ _ hp (by decide) 0 1 hended⟩

-- A server that has begun to listen after the first signal is cut off by its end.
example : (run Process.step (Process.init [true, true])
      [.server 0 (.listen true true), .signal false, .next 0, .server 0 (.announced false),
        .server 1 (.listen true true), .signal false, .next 1, .next 1,
        .server 1 (.announced false), .server 1 (.take 0), .server 0 (.take 0),
        .server 0 (.drained 0), .server 0 (.settle 0 false), .exit 0]).map
      (fun p => (p.ended, p.servers.map fun m => m.server.closes)) =
    some (some (.exited 0 0), [[.resolved], [.draining]]) := by
  decide

end Process

end Lifecycle
end OxideHttp
