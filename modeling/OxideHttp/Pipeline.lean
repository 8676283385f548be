import OxideHttp.Context
import OxideHttp.Lib.Transition

/-!
# The request pipeline (`src/js/pipeline.ts`, `src/js/index.ts`)

One dispatched request.  Several asynchronous functions share its context: the
core (`runCore`, with one task for each call of `dispatch` in the onion), the
timer branch of `withTimeout`, the watcher for disconnects, and `#handleRequest`
under `#dispatch`.  Each is a program counter; a step runs one of them from one
`await` to the next.

Hooks, middleware and handlers are user code.  A call of a user function runs
until a label settles it; meanwhile, and also later, from code that it left
running, it may access the response in any order (`Label.op`), and a middleware
may call `next` any number of times (`Label.next`).  What the process does about
a rejection that nobody handles is not part of the model.
-/

namespace OxideHttp
namespace Pipeline

open Context

/-! ## Chains -/

/-- `BEFORE_STAGES`. -/
inductive BeforeStage where
  | onRequest
  | preParsing
  | preValidation
  | preHandler
  deriving DecidableEq, Repr

/-- The next of `BEFORE_STAGES`. -/
def BeforeStage.next : BeforeStage → Option BeforeStage
  | .onRequest => some .preParsing
  | .preParsing => some .preValidation
  | .preValidation => some .preHandler
  | .preHandler => none

/-- A precompiled chain.  User functions are known by their places: a list of
hooks is given by its length. -/
structure Chain where
  before : BeforeStage → Nat
  middleware : Nat
  preSerialization : Nat
  onSend : Nat
  onResponse : Nat
  onError : Nat
  onTimeout : Nat
  onAbort : Nat

def Chain.hasBefore (chain : Chain) : Bool :=
  0 < chain.before .onRequest || 0 < chain.before .preParsing ||
    0 < chain.before .preValidation || 0 < chain.before .preHandler

/-- The chain of a request, the settings of the server, and what it calls. -/
structure Config where
  chain : Chain
  /-- whether `requestTimeout` is set -/
  requestTimeout : Bool
  detectDisconnect : Bool
  requestIdHeader : String
  requestId : String
  responseStrip : Option ResponseStrip
  json : JsonLib
  /-- whether a response converts to a `JsResponse`; `respond` throws if not -/
  convertible : NativeResponse → Bool

/-- A user function of the chain. -/
inductive Fn where
  | before (stage : BeforeStage) (k : Nat)
  | middleware (i : Nat)
  | handler
  | onError (k : Nat)
  | onTimeout (k : Nat)
  | onAbort (k : Nat)
  | preSerialization (k : Nat)
  | onSend (k : Nat)
  | onResponse (k : Nat)
  deriving DecidableEq, Repr

/-- The hooks around the write of the response. -/
def Fn.isResponseHook : Fn → Bool
  | .onSend _ | .onResponse _ => true
  | _ => false

/-! ## Program counters -/

/-- How a call of a user function settles. -/
inductive Outcome where
  | returned (v : Value)
  | threw (e : Thrown)
  deriving Repr

/-- An awaited call: `none` while it runs. -/
abbrev Awaited := Option Outcome

/-- `for (const hook of hooks) await hook(c)`, as a promise of its own. -/
inductive Loop where
  | hook (k : Nat) (call : Awaited)
  | ended (failure : Option Thrown)
  deriving Repr

def Loop.start (n : Nat) : Loop := if 0 < n then .hook 0 none else .ended none

/-- The call settles. -/
def Loop.settle (out : Outcome) : Loop → Option Loop
  | .hook k none => some (.hook k (some out))
  | _ => none

theorem Loop.settle_eq {loop loop' : Loop} {out : Outcome} (h : loop.settle out = some loop') :
    ∃ k, loop = .hook k none ∧ loop' = .hook k (some out) := by
  cases loop with
  | ended failure => cases h
  | hook k call =>
      cases call with
      | some out' => cases h
      | none => exact ⟨k, rfl, (Option.some.inj h).symm⟩

/-- After the settled call of hook `k`; `stop` is the condition of the `break`. -/
def Loop.after (n : Nat) (stop : Bool) (k : Nat) : Outcome → Loop
  | .threw e => .ended (some e)
  | .returned _ => if stop || n ≤ k + 1 then .ended none else .hook (k + 1) none

/-- Resume the loop, or what awaits it. -/
def Loop.resume (n : Nat) (stop : Bool) : Loop → Option (Loop ⊕ Option Thrown)
  | .hook _ none => none
  | .hook k (some out) => some (.inl (.after n stop k out))
  | .ended failure => some (.inr failure)

theorem Loop.resume_inr {loop : Loop} {n : Nat} {stop : Bool} {failure : Option Thrown}
    (h : loop.resume n stop = some (.inr failure)) : loop = .ended failure := by
  cases loop with
  | ended failure' => rw [Sum.inr.inj (Option.some.inj h)]
  | hook k call => cases call <;> cases h

theorem Loop.resume_inl {loop next : Loop} {n : Nat} {stop : Bool}
    (h : loop.resume n stop = some (.inl next)) :
    ∃ k out, loop = .hook k (some out) ∧ next = .after n stop k out := by
  cases loop with
  | ended failure => cases h
  | hook k call =>
      cases call with
      | none => cases h
      | some out => exact ⟨k, out, rfl, (Sum.inl.inj (Option.some.inj h)).symm⟩

/-- The function that a loop has just called. -/
def Loop.called (fn : Nat → Fn) : Loop → List Fn
  | .hook k none => [fn k]
  | _ => []

theorem Loop.called_silent {fn : Nat → Fn} (hfn : ∀ k, (fn k).isResponseHook = false)
    (loop : Loop) : (loop.called fn).filter Fn.isResponseHook = [] := by
  cases loop with
  | ended failure => rfl
  | hook k call =>
      cases call with
      | none => simp [called, hfn]
      | some out => rfl

/-- How `runCore` came to its end. -/
inductive Ending where
  | completed
  /-- `handleError` answered the exception -/
  | handled (e : Thrown)
  /-- an `onError` hook threw -/
  | rethrown (e : Thrown)
  deriving DecidableEq, Repr

/-- `runCore`. -/
inductive Core where
  | idle
  | before (stage : BeforeStage) (loop : Loop)
  /-- the handler of a chain without middleware -/
  | bare (call : Awaited)
  /-- `await dispatch(0)` -/
  | onion
  | onError (err : Thrown) (loop : Loop)
  | done (ending : Ending)
  deriving Repr

def Core.isDone : Core → Bool
  | .done _ => true
  | _ => false

/-- A call of `dispatch` in `runOnion` that passed the check of its index. -/
inductive Task where
  | running (call : Awaited)
  | ended (failure : Option Thrown)
  deriving Repr

/-- The timer of `withTimeout`. -/
inductive Timer where
  | off
  | armed
  | onTimeout (loop : Loop)
  | fired
  deriving Repr

def Timer.isFired : Timer → Bool
  | .fired => true
  | _ => false

/-- The timer has fired, and its hooks are still running. -/
def Timer.isOpen : Timer → Bool
  | .onTimeout _ => true
  | _ => false

theorem Timer.isFired_of_isOpen {timer : Timer} (h : timer.isOpen = true) :
    timer.isFired = false := by
  cases timer with
  | fired => cases h
  | off | armed | onTimeout => rfl

/-- The subscription to `waitAbort`. -/
inductive Watcher where
  | off
  | waiting
  | onAbort (loop : Loop)
  | done
  deriving Repr

/-- `#handleRequest` under `#dispatch`. -/
inductive Main where
  | idle
  /-- `await withTimeout(..)` or `await runCore(..)` -/
  | racing
  | preSerialization (loop : Loop)
  | onSend (loop : Loop)
  | onResponse (loop : Loop)
  /-- `#handleRequest` rejected -/
  | failed
  /-- the promise of `#dispatch` -/
  | settled
  | rejected
  deriving Repr

/-- `respond` has been called without an exception. -/
def Main.isSent : Main → Bool
  | .onResponse _ | .settled => true
  | _ => false

/-- `#handleRequest` is past the race. -/
def Main.isAfter : Main → Bool
  | .idle | .racing => false
  | _ => true

/-! ## Replies -/

/-- The responses passed to `respond`, and the entry of the request in the bridge. -/
structure Replies where
  passed : List NativeResponse
  pending : Bool
  delivered : Option NativeResponse
  deriving DecidableEq, Repr

def Replies.start : Replies := { passed := [], pending := true, delivered := none }

/-- The calls of `respond` that did not throw. -/
def Replies.accepted (convertible : NativeResponse → Bool) (p : Replies) :
    List NativeResponse :=
  p.passed.filter convertible

/-- `Bridge::respond`, behind the conversion of the response. -/
def Replies.respond (convertible : NativeResponse → Bool) (p : Replies)
    (r : NativeResponse) : Replies :=
  if convertible r && p.pending then
    { passed := p.passed ++ [r], pending := false, delivered := some r }
  else { p with passed := p.passed ++ [r] }

/-! ## States -/

structure State where
  ctx : Ctx
  core : Core
  onion : List Task
  timer : Timer
  watcher : Watcher
  main : Main
  replies : Replies
  /-- the user functions called so far -/
  log : List Fn
  /-- the calls of `controller.abort` -/
  aborts : Nat

/-- The calls of `onSend` and `onResponse` hooks so far. -/
def State.hookLog (s : State) : List Fn := s.log.filter Fn.isResponseHook

/-- The asynchronous functions of one request. -/
inductive Strand where
  | core
  | task (i : Nat)
  | timer
  | watcher
  | main
  deriving DecidableEq, Repr

inductive Label where
  /-- `#dispatch` is called -/
  | start
  /-- code of the user function `f` accesses the response -/
  | op (f : Fn) (o : Op)
  /-- middleware `i` calls its `next` -/
  | next (i : Nat)
  /-- the user function that a strand awaits settles -/
  | settle (strand : Strand) (out : Outcome)
  /-- a strand goes on -/
  | resume (strand : Strand)
  /-- the time of the request is up -/
  | fire
  /-- `waitAbort` resolves, or rejects, which counts as `false` -/
  | waitAbort (aborted : Bool)
  deriving Repr

namespace State

def init (cfg : Config) : State :=
  { ctx := Ctx.build cfg.requestIdHeader cfg.requestId
    core := .idle
    onion := []
    timer := .off
    watcher := .off
    main := .idle
    replies := Replies.start
    log := []
    aborts := 0 }

section Moves

variable (cfg : Config) (s : State)

def toCore (pc : Loop → Core) (fn : Nat → Fn) (loop : Loop) : State :=
  { s with core := pc loop, log := s.log ++ loop.called fn }

def toTimer (loop : Loop) : State :=
  { s with timer := .onTimeout loop, log := s.log ++ loop.called Fn.onTimeout }

def toWatcher (loop : Loop) : State :=
  { s with watcher := .onAbort loop, log := s.log ++ loop.called Fn.onAbort }

def toMain (pc : Loop → Main) (fn : Nat → Fn) (loop : Loop) : State :=
  { s with main := pc loop, log := s.log ++ loop.called fn }

/-! ### The core -/

/-- `handleError`, up to its first `await`. -/
def handleError (err : Thrown) : State :=
  let s := { s with ctx := { s.ctx with error := some err } }
  if cfg.chain.onError = 0 then
    { s with ctx := defaultError s.ctx err, core := .done (.handled err) }
  else s.toCore (.onError err) .onError (.start cfg.chain.onError)

/-- `handleError`, after its hooks. -/
def afterOnError (err : Thrown) : Option Thrown → State
  | none =>
      { s with
        ctx := if s.ctx.finalized then s.ctx else defaultError s.ctx err
        core := .done (.handled err) }
  | some e2 =>
      { s with
        ctx := defaultError { s.ctx with error := some e2 } e2
        core := .done (.rethrown e2) }

/-- `runCore`, from the end of the "before" stages. -/
def enterHandler : State :=
  if s.ctx.finalized then { s with core := .done .completed }
  else if cfg.chain.middleware = 0 then
    { s with core := .bare none, log := s.log ++ [.handler] }
  else
    { s with core := .onion, onion := [.running none], log := s.log ++ [.middleware 0] }

/-- The loop over `BEFORE_STAGES`, at a stage. -/
def enterStage (stage : BeforeStage) : State :=
  if s.ctx.finalized then s.enterHandler cfg
  else s.toCore (.before stage) (.before stage) (.start (cfg.chain.before stage))

/-- `runCore`, up to its first `await`. -/
def runCore : State :=
  if cfg.chain.hasBefore then s.enterStage cfg .onRequest else s.enterHandler cfg

/-- The handler settled: `applyReturnValue`, or the exception. -/
def applied : Outcome → State × Option Thrown
  | .threw e => (s, some e)
  | .returned v =>
      ({ s with ctx := (applyReturnValue s.ctx v).1 }, (applyReturnValue s.ctx v).2)

/-- The `try` of `runCore` ends. -/
def tried : State × Option Thrown → State
  | (s, none) => { s with core := .done .completed }
  | (s, some e) => s.handleError cfg e

def resumeCore : Option State :=
  match s.core with
  | .idle | .done _ => none
  | .before stage loop =>
      (loop.resume (cfg.chain.before stage) s.ctx.finalized).map fun
        | .inl loop => s.toCore (.before stage) (.before stage) loop
        | .inr none =>
            match stage.next with
            | some stage => s.enterStage cfg stage
            | none => s.enterHandler cfg
        | .inr (some e) => s.handleError cfg e
  | .bare call => call.map fun out => State.tried cfg (s.applied out)
  | .onion =>
      match s.onion.head? with
      | some (.ended failure) => some (State.tried cfg (s, failure))
      | _ => none
  | .onError err loop =>
      (loop.resume cfg.chain.onError false).map fun
        | .inl loop => s.toCore (.onError err) .onError loop
        | .inr failure => s.afterOnError err failure

/-- `dispatch(i)`, after the middleware or the handler. -/
def resumeTask (i : Nat) : Option State :=
  match s.onion[i]? with
  | some (.running (some out)) =>
      if i < cfg.chain.middleware then
        some
          { s with
            onion := s.onion.set i (.ended
              (match out with
                | .returned _ => none
                | .threw e => some e)) }
      else
        some
          { (s.applied out).1 with
            onion := s.onion.set i (.ended (s.applied out).2) }
  | _ => none

/-- `dispatch(i + 1)`, called by middleware `i`.  It throws when the index was
reached before. -/
def next (i : Nat) : Option State :=
  if i < s.onion.length ∧ i < cfg.chain.middleware then
    if i + 1 < s.onion.length then some s
    else
      some
        { s with
          onion := s.onion ++ [.running none]
          log := s.log ++
            [if i + 1 < cfg.chain.middleware then .middleware (i + 1) else .handler] }
  else none

/-! ### The timer and the watcher -/

/-- The timer fires unless the core has won the race. -/
def fire : Option State :=
  match s.timer with
  | .armed =>
      if s.core.isDone then none
      else
        some (toTimer
          { s with ctx := { s.ctx with aborted := true }, aborts := s.aborts + 1 }
          (.start cfg.chain.onTimeout))
  | _ => none

/-- The default response to a timeout, and the latch. -/
def timedOut (c : Ctx) : Ctx :=
  { (if c.finalized then c else c.text "Gateway Timeout" (some 504)) with settled := true }

/-- The timer branch after its hooks. -/
def latch (failure : Option Thrown) : State :=
  { s with
    ctx := timedOut { s.ctx with error := failure.or s.ctx.error }
    timer := .fired }

def resumeTimer : Option State :=
  match s.timer with
  | .onTimeout loop =>
      (loop.resume cfg.chain.onTimeout false).map fun
        | .inl loop => s.toTimer loop
        | .inr failure => s.latch failure
  | _ => none

def waitAbort (aborted : Bool) : Option State :=
  match s.watcher with
  | .waiting =>
      if !aborted || s.ctx.settled then some { s with watcher := .done }
      else
        some (toWatcher
          { s with ctx := { s.ctx with aborted := true }, aborts := s.aborts + 1 }
          (.start cfg.chain.onAbort))
  | _ => none

def resumeWatcher : Option State :=
  match s.watcher with
  | .onAbort loop =>
      (loop.resume cfg.chain.onAbort false).map fun
        | .inl loop => s.toWatcher loop
        | .inr _ => { s with watcher := .done }
  | _ => none

/-! ### `#handleRequest` -/

/-- The subscription to `waitAbort` and the timer. -/
def launch : State :=
  { s with
    main := .racing
    timer := if cfg.requestTimeout then .armed else .off
    watcher := if 0 < cfg.chain.onAbort || cfg.detectDisconnect then .waiting else .off }

/-- `#dispatch`, up to its first `await`. -/
def start : Option State :=
  match s.main with
  | .idle => some ((s.launch cfg).runCore cfg)
  | _ => none

/-- After a `respond` that did not throw. -/
def afterSend : State :=
  if 0 < cfg.chain.onResponse then
    s.toMain .onResponse .onResponse (.start cfg.chain.onResponse)
  else { s with main := .settled }

/-- The response of the request, as it stands. -/
def response : NativeResponse := buildNativeResponse cfg.json cfg.responseStrip s.ctx

/-- `respond(buildNativeResponse(c))`. -/
def reply : State :=
  { s with
    ctx := s.ctx.send
    replies := s.replies.respond cfg.convertible (s.response cfg) }

/-- `reply`, and what follows it. -/
def sendOff : State :=
  if cfg.convertible (s.response cfg) then (s.reply cfg).afterSend cfg
  else { s.reply cfg with main := .failed }

def enterOnSend : State :=
  if 0 < cfg.chain.onSend then s.toMain .onSend .onSend (.start cfg.chain.onSend)
  else s.sendOff cfg

/-- The race is over. -/
def enterPreSerialization : State :=
  if 0 < cfg.chain.preSerialization then
    s.toMain .preSerialization .preSerialization (.start cfg.chain.preSerialization)
  else s.enterOnSend cfg

/-- The `catch` of `#handleRequest`. -/
def lastDefence (err : Thrown) : State :=
  State.sendOff cfg
    (if s.ctx.finalized then s
    else { s with ctx := defaultError { s.ctx with body := none } err })

/-- The response of the `catch` of `#dispatch`. -/
def guardResponse : NativeResponse :=
  { status := 500, headers := [], body := some "Internal Server Error", streamed := none }

/-- The race of `withTimeout` has a winner. -/
def raceWon : Bool := s.core.isDone || s.timer.isFired

def resumeMain : Option State :=
  match s.main with
  | .idle | .settled | .rejected => none
  | .racing => if s.raceWon then some (s.enterPreSerialization cfg) else none
  | .preSerialization loop =>
      (loop.resume cfg.chain.preSerialization false).map fun
        | .inl loop => s.toMain .preSerialization .preSerialization loop
        | .inr none => s.enterOnSend cfg
        | .inr (some e) => s.lastDefence cfg e
  | .onSend loop =>
      (loop.resume cfg.chain.onSend false).map fun
        | .inl loop => s.toMain .onSend .onSend loop
        | .inr none => s.sendOff cfg
        | .inr (some e) => s.lastDefence cfg e
  | .onResponse loop =>
      (loop.resume cfg.chain.onResponse false).map fun
        | .inl loop => s.toMain .onResponse .onResponse loop
        | .inr _ => { s with main := .settled }
  | .failed =>
      some
        { s with
          replies := s.replies.respond cfg.convertible guardResponse
          main := if cfg.convertible guardResponse then .settled else .rejected }

end Moves

/-! ### Steps -/

def settle (s : State) (out : Outcome) : Strand → Option State
  | .core =>
      match s.core with
      | .before stage loop =>
          (loop.settle out).map fun loop => { s with core := .before stage loop }
      | .bare none => some { s with core := .bare (some out) }
      | .onError err loop =>
          (loop.settle out).map fun loop => { s with core := .onError err loop }
      | _ => none
  | .task i =>
      match s.onion[i]? with
      | some (.running none) => some { s with onion := s.onion.set i (.running (some out)) }
      | _ => none
  | .timer =>
      match s.timer with
      | .onTimeout loop =>
          (loop.settle out).map fun loop => { s with timer := .onTimeout loop }
      | _ => none
  | .watcher =>
      match s.watcher with
      | .onAbort loop =>
          (loop.settle out).map fun loop => { s with watcher := .onAbort loop }
      | _ => none
  | .main =>
      match s.main with
      | .preSerialization loop =>
          (loop.settle out).map fun loop => { s with main := .preSerialization loop }
      | .onSend loop => (loop.settle out).map fun loop => { s with main := .onSend loop }
      | .onResponse loop =>
          (loop.settle out).map fun loop => { s with main := .onResponse loop }
      | _ => none

def resume (cfg : Config) (s : State) : Strand → Option State
  | .core => s.resumeCore cfg
  | .task i => s.resumeTask cfg i
  | .timer => s.resumeTimer cfg
  | .watcher => s.resumeWatcher cfg
  | .main => s.resumeMain cfg

end State

def step (cfg : Config) (s : State) : Label → Option State
  | .start => s.start cfg
  | .op f o => if f ∈ s.log then some { s with ctx := o.apply s.ctx } else none
  | .next i => s.next cfg i
  | .settle strand out => s.settle out strand
  | .resume strand => s.resume cfg strand
  | .fire => s.fire cfg
  | .waitAbort aborted => s.waitAbort cfg aborted

/-- The request starts once. -/
theorem start_eq {cfg : Config} {s t : State} (h : step cfg s .start = some t) :
    s.main = .idle ∧ t = (s.launch cfg).runCore cfg := by
  simp only [step, State.start] at h
  split at h
  case h_1 hmain => exact ⟨hmain, (Option.some.inj h).symm⟩
  case h_2 => cases h

/-- Code of a user function runs once the function was called. -/
theorem op_eq {cfg : Config} {s t : State} {f : Fn} {o : Op}
    (h : step cfg s (.op f o) = some t) :
    f ∈ s.log ∧ t = { s with ctx := o.apply s.ctx } := by
  simp only [step, Option.ite_none_right_eq_some] at h
  exact ⟨h.1, (Option.some.inj h.2).symm⟩

@[simp] theorem Replies.passed_respond (convertible : NativeResponse → Bool) (p : Replies)
    (r : NativeResponse) : (p.respond convertible r).passed = p.passed ++ [r] := by
  unfold Replies.respond
  split <;> rfl

/-! ## What the core and its tasks leave alone -/

/-- The rest of the request is as before; a settled context shows what it showed. -/
structure Frame (s t : State) : Prop where
  main : t.main = s.main
  replies : t.replies = s.replies
  timer : t.timer = s.timer
  watcher : t.watcher = s.watcher
  settled : t.ctx.settled = s.ctx.settled
  latched : s.ctx.settled = true → t.ctx.view = s.ctx.view
  finalized : s.ctx.finalized = true → t.ctx.finalized = true
  hooks : t.hookLog = s.hookLog

/-- A move of the core starts it, and its onion has a root. -/
structure CoreMove (s t : State) : Prop extends Frame s t where
  begun : t.core ≠ .idle
  root : t.core = .onion → t.onion ≠ []

section Frames

variable {cfg : Config} {s t u : State}

theorem Frame.refl (s : State) : Frame s s :=
  ⟨rfl, rfl, rfl, rfl, rfl, fun _ => rfl, id, rfl⟩

theorem Frame.coreMove (h : Frame s t) (hmove : CoreMove t u) : CoreMove s u where
  main := hmove.main.trans h.main
  replies := hmove.replies.trans h.replies
  timer := hmove.timer.trans h.timer
  watcher := hmove.watcher.trans h.watcher
  settled := hmove.settled.trans h.settled
  latched hs := (hmove.latched (h.settled.trans hs)).trans (h.latched hs)
  finalized hs := hmove.finalized (h.finalized hs)
  hooks := hmove.hooks.trans h.hooks
  begun := hmove.begun
  root := hmove.root

namespace State

/-- A call of a function that is no response hook. -/
theorem hookLog_append {fns : List Fn} (h : t.log = s.log ++ fns)
    (hfns : fns.filter Fn.isResponseHook = []) : t.hookLog = s.hookLog := by
  rw [hookLog, hookLog, h, List.filter_append, hfns, List.append_nil]

theorem toCore_move (s : State) {pc : Loop → Core} (fn : Nat → Fn) (loop : Loop)
    (hidle : pc loop ≠ .idle) (honion : pc loop ≠ .onion)
    (hfn : ∀ k, (fn k).isResponseHook = false) : CoreMove s (s.toCore pc fn loop) :=
  { main := rfl, replies := rfl, timer := rfl, watcher := rfl, settled := rfl,
    latched := fun _ => rfl, finalized := id,
    hooks := hookLog_append rfl (loop.called_silent hfn), begun := hidle,
    root := fun h => absurd h honion }

/-- The core ends, with a context that shows the same when it is settled. -/
theorem done_move (s : State) (c : Ctx) (ending : Ending)
    (hsettled : c.settled = s.ctx.settled)
    (hlatched : s.ctx.settled = true → c.view = s.ctx.view)
    (hfinal : s.ctx.finalized = true → c.finalized = true) :
    CoreMove s { s with ctx := c, core := .done ending } :=
  { main := rfl, replies := rfl, timer := rfl, watcher := rfl, settled := hsettled,
    latched := hlatched, finalized := hfinal, hooks := rfl, begun := nofun, root := nofun }

theorem handleError_move (cfg : Config) (s : State) (err : Thrown) :
    CoreMove s (s.handleError cfg err) := by
  unfold handleError
  split
  case isTrue =>
    exact done_move s _ _ (defaultError_settled _)
      (fun hs => view_defaultError_of_settled err hs) (fun hs => defaultError_finalized err hs)
  case isFalse =>
    have hframe : Frame s { s with ctx := { s.ctx with error := some err } } :=
      ⟨rfl, rfl, rfl, rfl, rfl, fun _ => rfl, id, rfl⟩
    exact hframe.coreMove (toCore_move _ _ _ (nofun) (nofun) fun _ => rfl)

theorem afterOnError_move (s : State) (err : Thrown) (failure : Option Thrown) :
    CoreMove s (s.afterOnError err failure) := by
  cases failure with
  | none =>
      refine done_move s _ _ ?_ (fun hs => ?_) fun hs => ?_
      · split
        · rfl
        · exact defaultError_settled _
      · split
        · rfl
        · exact view_defaultError_of_settled err hs
      · rw [if_pos hs]
        exact hs
  | some e2 =>
      exact done_move s _ _ (defaultError_settled _)
        (fun hs => view_defaultError_of_settled e2 hs) (fun hs => defaultError_finalized e2 hs)

theorem enterHandler_move (cfg : Config) (s : State) : CoreMove s (s.enterHandler cfg) := by
  unfold enterHandler
  split
  case isTrue => exact done_move s s.ctx _ rfl (fun _ => rfl) id
  case isFalse =>
    split
    case isTrue =>
      exact { main := rfl, replies := rfl, timer := rfl, watcher := rfl, settled := rfl,
              latched := fun _ => rfl, finalized := id, hooks := hookLog_append rfl rfl,
              begun := nofun, root := nofun }
    case isFalse =>
      exact { main := rfl, replies := rfl, timer := rfl, watcher := rfl, settled := rfl,
              latched := fun _ => rfl, finalized := id, hooks := hookLog_append rfl rfl,
              begun := nofun, root := fun _ => List.cons_ne_nil _ _ }

theorem enterStage_move (cfg : Config) (s : State) (stage : BeforeStage) :
    CoreMove s (s.enterStage cfg stage) := by
  unfold enterStage
  split
  case isTrue => exact enterHandler_move cfg s
  case isFalse => exact toCore_move _ _ _ (nofun) (nofun) fun _ => rfl

theorem runCore_move (cfg : Config) (s : State) : CoreMove s (s.runCore cfg) := by
  unfold runCore
  split
  case isTrue => exact enterStage_move cfg s _
  case isFalse => exact enterHandler_move cfg s

theorem applied_frame (s : State) (out : Outcome) : Frame s (s.applied out).1 := by
  cases out with
  | threw e => exact Frame.refl s
  | returned v =>
      refine ⟨rfl, rfl, rfl, rfl, applyReturnValue_settled v, fun hs => ?_, fun hs => ?_, rfl⟩
      · rw [applied, applyReturnValue_of_settled v hs]
      · rw [applied, applyReturnValue_silent (Or.inl hs)]
        exact hs

theorem tried_move (cfg : Config) (s : State) (failure : Option Thrown) :
    CoreMove s (State.tried cfg (s, failure)) := by
  cases failure with
  | none => exact done_move s s.ctx _ rfl (fun _ => rfl) id
  | some e => exact handleError_move cfg s e

/-- The ways in which the core goes on: where it stood, what it had waited for, and what it
does next. -/
inductive CoreResumed (cfg : Config) (s : State) : State → Prop
  | before {stage : BeforeStage} {loop next : Loop} (hcore : s.core = .before stage loop)
      (hnext : loop.resume (cfg.chain.before stage) s.ctx.finalized = some (.inl next)) :
      CoreResumed cfg s (s.toCore (.before stage) (.before stage) next)
  | stage {stage later : BeforeStage} {loop : Loop} (hcore : s.core = .before stage loop)
      (hnext : loop.resume (cfg.chain.before stage) s.ctx.finalized = some (.inr none))
      (hlater : stage.next = some later) : CoreResumed cfg s (s.enterStage cfg later)
  | handler {stage : BeforeStage} {loop : Loop} (hcore : s.core = .before stage loop)
      (hnext : loop.resume (cfg.chain.before stage) s.ctx.finalized = some (.inr none))
      (hlast : stage.next = none) : CoreResumed cfg s (s.enterHandler cfg)
  | beforeThrew {stage : BeforeStage} {loop : Loop} {e : Thrown}
      (hcore : s.core = .before stage loop)
      (hnext : loop.resume (cfg.chain.before stage) s.ctx.finalized = some (.inr (some e))) :
      CoreResumed cfg s (s.handleError cfg e)
  | bare {out : Outcome} (hcore : s.core = .bare (some out)) :
      CoreResumed cfg s (State.tried cfg (s.applied out))
  | onion {failure : Option Thrown} (hcore : s.core = .onion)
      (hroot : s.onion.head? = some (.ended failure)) :
      CoreResumed cfg s (State.tried cfg (s, failure))
  | onError {err : Thrown} {loop next : Loop} (hcore : s.core = .onError err loop)
      (hnext : loop.resume cfg.chain.onError false = some (.inl next)) :
      CoreResumed cfg s (s.toCore (.onError err) .onError next)
  | handled {err : Thrown} {loop : Loop} {failure : Option Thrown}
      (hcore : s.core = .onError err loop)
      (hnext : loop.resume cfg.chain.onError false = some (.inr failure)) :
      CoreResumed cfg s (s.afterOnError err failure)

theorem resumeCore_resumed (h : s.resumeCore cfg = some t) : CoreResumed cfg s t := by
  unfold resumeCore at h
  split at h
  case h_1 => cases h
  case h_2 => cases h
  case h_3 stage loop hcore =>
    obtain ⟨next | none | e, hnext, rfl⟩ := Option.map_eq_some_iff.1 h
    · exact .before hcore hnext
    · dsimp only
      split
      case h_1 hlater => exact .stage hcore hnext hlater
      case h_2 hlast => exact .handler hcore hnext hlast
    · exact .beforeThrew hcore hnext
  case h_4 hcore =>
    obtain ⟨out, rfl, rfl⟩ := Option.map_eq_some_iff.1 h
    exact .bare hcore
  case h_5 hcore =>
    split at h
    case h_1 hroot =>
      obtain rfl := Option.some.inj h
      exact .onion hcore hroot
    case h_2 => cases h
  case h_6 hcore =>
    obtain ⟨next | failure, hnext, rfl⟩ := Option.map_eq_some_iff.1 h
    · exact .onError hcore hnext
    · exact .handled hcore hnext

theorem resumeCore_move (h : s.resumeCore cfg = some t) : CoreMove s t := by
  cases resumeCore_resumed h with
  | before | onError => exact toCore_move _ _ _ (nofun) (nofun) fun _ => rfl
  | stage => exact enterStage_move cfg s _
  | handler => exact enterHandler_move cfg s
  | beforeThrew => exact handleError_move cfg s _
  | @bare out => exact (applied_frame s out).coreMove (tried_move cfg _ _)
  | onion => exact tried_move cfg s _
  | handled => exact afterOnError_move s _ _

theorem resumeCore_undone (h : s.resumeCore cfg = some t) : s.core.isDone = false := by
  cases hcore : s.core with
  | done ending => simp [resumeCore, hcore] at h
  | idle | before | bare | onion | onError => rfl

/-- A task ends: a middleware with what it threw, the handler with what came of its value. -/
theorem resumeTask_eq {i : Nat} (h : s.resumeTask cfg i = some t) :
    ∃ out, s.onion[i]? = some (.running (some out)) ∧
      ((i < cfg.chain.middleware ∧ ∃ failure,
          t = { s with onion := s.onion.set i (.ended failure) }) ∨
        (cfg.chain.middleware ≤ i ∧
          t = { (s.applied out).1 with
            onion := s.onion.set i (.ended (s.applied out).2) })) := by
  unfold resumeTask at h
  split at h
  case h_2 => cases h
  case h_1 out htask =>
    refine ⟨out, htask, ?_⟩
    split at h
    case isTrue hi => exact Or.inl ⟨hi, _, (Option.some.inj h).symm⟩
    case isFalse hi => exact Or.inr ⟨Nat.le_of_not_lt hi, (Option.some.inj h).symm⟩

/-- A task changes itself and the context. -/
theorem resumeTask_frame {i : Nat} (h : s.resumeTask cfg i = some t) :
    Frame s t ∧ t.core = s.core ∧ t.onion.length = s.onion.length := by
  obtain ⟨out, _, ⟨_, failure, rfl⟩ | ⟨_, rfl⟩⟩ := resumeTask_eq h
  · exact ⟨⟨rfl, rfl, rfl, rfl, rfl, fun _ => rfl, id, rfl⟩, rfl, List.length_set⟩
  · have hframe := applied_frame s out
    refine ⟨⟨hframe.main, hframe.replies, hframe.timer, hframe.watcher, hframe.settled,
      hframe.latched, hframe.finalized, hframe.hooks⟩, ?_, List.length_set⟩
    cases out <;> rfl

theorem next_frame {i : Nat} (h : s.next cfg i = some t) :
    Frame s t ∧ t.ctx = s.ctx ∧ t.core = s.core ∧ s.onion <+: t.onion := by
  unfold next at h
  split at h
  case isFalse => cases h
  case isTrue =>
    split at h
    case isTrue =>
      obtain rfl := Option.some.inj h
      exact ⟨Frame.refl s, rfl, rfl, List.prefix_refl _⟩
    case isFalse =>
      obtain rfl := Option.some.inj h
      refine ⟨⟨rfl, rfl, rfl, rfl, rfl, fun _ => rfl, id, hookLog_append rfl ?_⟩, rfl, rfl,
        List.prefix_append _ _⟩
      split <;> rfl

/-! ### `#handleRequest` -/

/-- What a move of `#handleRequest` says to the bridge. -/
inductive Said (cfg : Config) (s t : State) : Prop where
  | nothing (replies : t.replies = s.replies) (ctx : t.ctx = s.ctx) (main : t.main ≠ .failed)
  /-- the response of a context, which is that of the request once it is finalized -/
  | response (c : Ctx) (ctx : s.ctx.finalized = true → c = s.ctx)
      (replies : t.replies = s.replies.respond cfg.convertible
        (buildNativeResponse cfg.json cfg.responseStrip c))
  | guard (failed : s.main = .failed)
      (replies : t.replies = s.replies.respond cfg.convertible guardResponse)
      (ctx : t.ctx = s.ctx) (main : t.main ≠ .failed)

/-- `#handleRequest` moves on by itself. -/
structure MainMove (cfg : Config) (s t : State) : Prop where
  core : t.core = s.core
  onion : t.onion = s.onion
  timer : t.timer = s.timer
  watcher : t.watcher = s.watcher
  after : t.main.isAfter = true
  said : Said cfg s t

/-- The loop of a phase goes on. -/
theorem toMain_move (cfg : Config) (s : State) (pc : Loop → Main) (fn : Nat → Fn)
    (loop : Loop) (hafter : (pc loop).isAfter = true) (hfailed : pc loop ≠ .failed) :
    MainMove cfg s (s.toMain pc fn loop) :=
  ⟨rfl, rfl, rfl, rfl, hafter, .nothing rfl rfl hfailed⟩

theorem sendOff_move (cfg : Config) (s : State) : MainMove cfg s (s.sendOff cfg) := by
  have hsaid : ∀ t : State, t.replies = (s.reply cfg).replies → Said cfg s t :=
    fun t ht => .response s.ctx (fun _ => rfl) ht
  unfold sendOff
  split
  case isTrue =>
    unfold afterSend
    split
    case isTrue => exact ⟨rfl, rfl, rfl, rfl, rfl, hsaid _ rfl⟩
    case isFalse => exact ⟨rfl, rfl, rfl, rfl, rfl, hsaid _ rfl⟩
  case isFalse => exact ⟨rfl, rfl, rfl, rfl, rfl, hsaid _ rfl⟩

theorem enterOnSend_move (cfg : Config) (s : State) : MainMove cfg s (s.enterOnSend cfg) := by
  unfold enterOnSend
  split
  case isTrue => exact toMain_move cfg s _ _ _ rfl nofun
  case isFalse => exact sendOff_move cfg s

theorem enterPreSerialization_move (cfg : Config) (s : State) :
    MainMove cfg s (s.enterPreSerialization cfg) := by
  unfold enterPreSerialization
  split
  case isTrue => exact toMain_move cfg s _ _ _ rfl nofun
  case isFalse => exact enterOnSend_move cfg s

theorem lastDefence_move (cfg : Config) (s : State) (err : Thrown) :
    MainMove cfg s (s.lastDefence cfg err) := by
  unfold lastDefence
  split
  case isTrue => exact sendOff_move cfg s
  case isFalse hopen =>
    have hmove := sendOff_move cfg
      { s with ctx := defaultError { s.ctx with body := none } err }
    refine ⟨hmove.core, hmove.onion, hmove.timer, hmove.watcher, hmove.after, ?_⟩
    refine .response (defaultError { s.ctx with body := none } err)
      (fun hfinal => absurd hfinal hopen) ?_
    unfold sendOff afterSend
    split
    case isTrue => split <;> rfl
    case isFalse => rfl

/-- The ways in which `#handleRequest` goes on: where it stood, what it had waited for, and
what it does next. -/
inductive Resumed (cfg : Config) (s : State) : State → Prop
  | race (hmain : s.main = .racing) (hwon : s.raceWon = true) :
      Resumed cfg s (s.enterPreSerialization cfg)
  | preSerialization {loop next : Loop} (hmain : s.main = .preSerialization loop)
      (hnext : loop.resume cfg.chain.preSerialization false = some (.inl next)) :
      Resumed cfg s (s.toMain .preSerialization .preSerialization next)
  | preSerialized {loop : Loop} (hmain : s.main = .preSerialization loop)
      (hnext : loop.resume cfg.chain.preSerialization false = some (.inr none)) :
      Resumed cfg s (s.enterOnSend cfg)
  | preSerializationThrew {loop : Loop} {e : Thrown} (hmain : s.main = .preSerialization loop)
      (hnext : loop.resume cfg.chain.preSerialization false = some (.inr (some e))) :
      Resumed cfg s (s.lastDefence cfg e)
  | onSend {loop next : Loop} (hmain : s.main = .onSend loop)
      (hnext : loop.resume cfg.chain.onSend false = some (.inl next)) :
      Resumed cfg s (s.toMain .onSend .onSend next)
  | onSent {loop : Loop} (hmain : s.main = .onSend loop)
      (hnext : loop.resume cfg.chain.onSend false = some (.inr none)) :
      Resumed cfg s (s.sendOff cfg)
  | onSendThrew {loop : Loop} {e : Thrown} (hmain : s.main = .onSend loop)
      (hnext : loop.resume cfg.chain.onSend false = some (.inr (some e))) :
      Resumed cfg s (s.lastDefence cfg e)
  | onResponse {loop next : Loop} (hmain : s.main = .onResponse loop)
      (hnext : loop.resume cfg.chain.onResponse false = some (.inl next)) :
      Resumed cfg s (s.toMain .onResponse .onResponse next)
  | responded {loop : Loop} {failure : Option Thrown} (hmain : s.main = .onResponse loop)
      (hnext : loop.resume cfg.chain.onResponse false = some (.inr failure)) :
      Resumed cfg s { s with main := .settled }
  | guard (hmain : s.main = .failed) :
      Resumed cfg s
        { s with
          replies := s.replies.respond cfg.convertible guardResponse
          main := if cfg.convertible guardResponse then .settled else .rejected }

theorem resumeMain_resumed (h : s.resumeMain cfg = some t) : Resumed cfg s t := by
  unfold resumeMain at h
  split at h
  case h_1 => cases h
  case h_2 => cases h
  case h_3 => cases h
  case h_4 hmain =>
    simp only [Option.ite_none_right_eq_some] at h
    obtain ⟨hwon, h⟩ := h
    obtain rfl := Option.some.inj h
    exact .race hmain hwon
  case h_5 hmain =>
    obtain ⟨next | none | e, hnext, rfl⟩ := Option.map_eq_some_iff.1 h
    · exact .preSerialization hmain hnext
    · exact .preSerialized hmain hnext
    · exact .preSerializationThrew hmain hnext
  case h_6 hmain =>
    obtain ⟨next | none | e, hnext, rfl⟩ := Option.map_eq_some_iff.1 h
    · exact .onSend hmain hnext
    · exact .onSent hmain hnext
    · exact .onSendThrew hmain hnext
  case h_7 hmain =>
    obtain ⟨next | failure, hnext, rfl⟩ := Option.map_eq_some_iff.1 h
    · exact .onResponse hmain hnext
    · exact .responded hmain hnext
  case h_8 hmain =>
    obtain rfl := Option.some.inj h
    exact .guard hmain

theorem resumeMain_move (h : s.resumeMain cfg = some t) : MainMove cfg s t := by
  cases resumeMain_resumed h with
  | race => exact enterPreSerialization_move cfg s
  | preSerialization | onSend | onResponse => exact toMain_move cfg s _ _ _ rfl nofun
  | preSerialized => exact enterOnSend_move cfg s
  | onSent => exact sendOff_move cfg s
  | preSerializationThrew | onSendThrew => exact lastDefence_move cfg s _
  | responded => exact ⟨rfl, rfl, rfl, rfl, rfl, .nothing rfl rfl nofun⟩
  | guard hmain =>
      refine ⟨rfl, rfl, rfl, rfl, ?_, .guard hmain rfl rfl ?_⟩
      · dsimp only
        split <;> rfl
      · dsimp only
        split <;> nofun

/-- `#handleRequest` goes on once the race is over. -/
theorem resumeMain_won (h : s.resumeMain cfg = some t) :
    s.main.isAfter = true ∨ s.raceWon = true := by
  cases resumeMain_resumed h with
  | race _ hwon => exact Or.inr hwon
  | preSerialization hmain | preSerialized hmain | preSerializationThrew hmain
  | onSend hmain | onSent hmain | onSendThrew hmain
  | onResponse hmain | responded hmain | guard hmain =>
      rw [hmain]
      exact Or.inl rfl

/-! ### The other strands -/

/-- A call that settles: every strand stays in its phase. -/
structure SettleMove (s t : State) : Prop where
  ctx : t.ctx = s.ctx
  replies : t.replies = s.replies
  log : t.log = s.log
  onion : t.onion.length = s.onion.length
  done : t.core.isDone = s.core.isDone
  core : t.core = s.core ∨ t.core ≠ .idle ∧ t.core ≠ .onion
  opened : t.timer.isOpen = s.timer.isOpen
  timer : t.timer = s.timer ∨ s.timer.isOpen = true
  sent : t.main.isSent = s.main.isSent
  main : t.main = s.main ∨ s.main.isAfter = true ∧ t.main.isAfter = true ∧
    t.main ≠ .failed ∧ t.main ≠ .rejected

/-- The calls that can settle, and where the result is kept. -/
inductive Settled (out : Outcome) (s : State) : Strand → State → Prop
  | before {stage : BeforeStage} {k : Nat} (hcore : s.core = .before stage (.hook k none)) :
      Settled out s .core { s with core := .before stage (.hook k (some out)) }
  | bare (hcore : s.core = .bare none) : Settled out s .core { s with core := .bare (some out) }
  | onError {err : Thrown} {k : Nat} (hcore : s.core = .onError err (.hook k none)) :
      Settled out s .core { s with core := .onError err (.hook k (some out)) }
  | task {i : Nat} (htask : s.onion[i]? = some (.running none)) :
      Settled out s (.task i) { s with onion := s.onion.set i (.running (some out)) }
  | onTimeout {k : Nat} (htimer : s.timer = .onTimeout (.hook k none)) :
      Settled out s .timer { s with timer := .onTimeout (.hook k (some out)) }
  | onAbort {k : Nat} (hwatcher : s.watcher = .onAbort (.hook k none)) :
      Settled out s .watcher { s with watcher := .onAbort (.hook k (some out)) }
  | preSerialization {k : Nat} (hmain : s.main = .preSerialization (.hook k none)) :
      Settled out s .main { s with main := .preSerialization (.hook k (some out)) }
  | onSend {k : Nat} (hmain : s.main = .onSend (.hook k none)) :
      Settled out s .main { s with main := .onSend (.hook k (some out)) }
  | onResponse {k : Nat} (hmain : s.main = .onResponse (.hook k none)) :
      Settled out s .main { s with main := .onResponse (.hook k (some out)) }

theorem settle_settled {out : Outcome} {strand : Strand} (h : s.settle out strand = some t) :
    Settled out s strand t := by
  cases strand with
  | core =>
      simp only [settle] at h
      split at h
      case h_1 hcore =>
        obtain ⟨_, hloop, rfl⟩ := Option.map_eq_some_iff.1 h
        obtain ⟨k, rfl, rfl⟩ := Loop.settle_eq hloop
        exact .before hcore
      case h_2 hcore =>
        obtain rfl := Option.some.inj h
        exact .bare hcore
      case h_3 hcore =>
        obtain ⟨_, hloop, rfl⟩ := Option.map_eq_some_iff.1 h
        obtain ⟨k, rfl, rfl⟩ := Loop.settle_eq hloop
        exact .onError hcore
      case h_4 => cases h
  | task i =>
      simp only [settle] at h
      split at h
      case h_1 htask =>
        obtain rfl := Option.some.inj h
        exact .task htask
      case h_2 => cases h
  | timer =>
      simp only [settle] at h
      split at h
      case h_1 htimer =>
        obtain ⟨_, hloop, rfl⟩ := Option.map_eq_some_iff.1 h
        obtain ⟨k, rfl, rfl⟩ := Loop.settle_eq hloop
        exact .onTimeout htimer
      case h_2 => cases h
  | watcher =>
      simp only [settle] at h
      split at h
      case h_1 hwatcher =>
        obtain ⟨_, hloop, rfl⟩ := Option.map_eq_some_iff.1 h
        obtain ⟨k, rfl, rfl⟩ := Loop.settle_eq hloop
        exact .onAbort hwatcher
      case h_2 => cases h
  | main =>
      simp only [settle] at h
      split at h
      case h_1 hmain =>
        obtain ⟨_, hloop, rfl⟩ := Option.map_eq_some_iff.1 h
        obtain ⟨k, rfl, rfl⟩ := Loop.settle_eq hloop
        exact .preSerialization hmain
      case h_2 hmain =>
        obtain ⟨_, hloop, rfl⟩ := Option.map_eq_some_iff.1 h
        obtain ⟨k, rfl, rfl⟩ := Loop.settle_eq hloop
        exact .onSend hmain
      case h_3 hmain =>
        obtain ⟨_, hloop, rfl⟩ := Option.map_eq_some_iff.1 h
        obtain ⟨k, rfl, rfl⟩ := Loop.settle_eq hloop
        exact .onResponse hmain
      case h_4 => cases h

theorem settle_move {out : Outcome} {strand : Strand} (h : s.settle out strand = some t) :
    SettleMove s t := by
  -- the fields that the strand does not have
  have hcore : ∀ core : Core, core.isDone = s.core.isDone → core ≠ .idle →
      core ≠ .onion → SettleMove s { s with core := core } :=
    fun core hdone hidle honion =>
      ⟨rfl, rfl, rfl, rfl, hdone, Or.inr ⟨hidle, honion⟩, rfl, Or.inl rfl, rfl, Or.inl rfl⟩
  have hmain : ∀ main : Main, main.isSent = s.main.isSent → s.main.isAfter = true →
      main.isAfter = true → main ≠ .failed → main ≠ .rejected →
        SettleMove s { s with main := main } :=
    fun main hsent hs ht hfailed hrejected =>
      ⟨rfl, rfl, rfl, rfl, rfl, Or.inl rfl, rfl, Or.inl rfl, hsent,
        Or.inr ⟨hs, ht, hfailed, hrejected⟩⟩
  cases settle_settled h with
  | before hpc | bare hpc | onError hpc => exact hcore _ (by rw [hpc]; rfl) nofun nofun
  | task =>
      exact ⟨rfl, rfl, rfl, List.length_set, rfl, Or.inl rfl, rfl, Or.inl rfl, rfl, Or.inl rfl⟩
  | onTimeout htimer =>
      exact ⟨rfl, rfl, rfl, rfl, rfl, Or.inl rfl, by rw [htimer]; rfl,
        Or.inr (by rw [htimer]; rfl), rfl, Or.inl rfl⟩
  | onAbort => exact ⟨rfl, rfl, rfl, rfl, rfl, Or.inl rfl, rfl, Or.inl rfl, rfl, Or.inl rfl⟩
  | preSerialization hpc | onSend hpc | onResponse hpc =>
      exact hmain _ (by rw [hpc]; rfl) (by rw [hpc]; rfl) rfl nofun nofun

/-- The watcher changes nothing that the client sees. -/
structure WatcherMove (s t : State) : Prop where
  core : t.core = s.core
  onion : t.onion = s.onion
  timer : t.timer = s.timer
  main : t.main = s.main
  replies : t.replies = s.replies
  view : t.ctx.view = s.ctx.view
  hooks : t.hookLog = s.hookLog

theorem waitAbort_move {aborted : Bool} (h : s.waitAbort cfg aborted = some t) :
    WatcherMove s t := by
  unfold waitAbort at h
  split at h
  case h_1 =>
    split at h <;> obtain rfl := Option.some.inj h
    · exact ⟨rfl, rfl, rfl, rfl, rfl, rfl, rfl⟩
    · exact ⟨rfl, rfl, rfl, rfl, rfl, rfl,
        hookLog_append rfl (Loop.called_silent (fun _ => rfl) _)⟩
  case h_2 => cases h

theorem resumeWatcher_move (h : s.resumeWatcher cfg = some t) : WatcherMove s t := by
  unfold resumeWatcher at h
  split at h
  case h_1 =>
    obtain ⟨next, _, rfl⟩ := Option.map_eq_some_iff.1 h
    split
    case h_1 loop _ =>
      exact ⟨rfl, rfl, rfl, rfl, rfl, rfl,
        hookLog_append rfl (loop.called_silent fun _ => rfl)⟩
    case h_2 => exact ⟨rfl, rfl, rfl, rfl, rfl, rfl, rfl⟩
  case h_2 => cases h

/-- The timer fires while the core is still running. -/
theorem fire_eq (h : s.fire cfg = some t) :
    s.timer = .armed ∧ s.core.isDone = false ∧
      t = toTimer { s with ctx := { s.ctx with aborted := true }, aborts := s.aborts + 1 }
        (.start cfg.chain.onTimeout) := by
  unfold fire at h
  split at h
  case h_1 htimer =>
    split at h
    case isTrue => cases h
    case isFalse hdone =>
      exact ⟨htimer, by simpa using hdone, (Option.some.inj h).symm⟩
  case h_2 => cases h

/-- The timer branch goes on to its next hook, or to the latch. -/
theorem resumeTimer_eq (h : s.resumeTimer cfg = some t) :
    ∃ loop, s.timer = .onTimeout loop ∧
      ((∃ loop', loop.resume cfg.chain.onTimeout false = some (.inl loop') ∧
          t = s.toTimer loop') ∨
        ∃ failure, loop = .ended failure ∧ t = s.latch failure) := by
  unfold resumeTimer at h
  split at h
  case h_1 loop htimer =>
    refine ⟨loop, htimer, ?_⟩
    obtain ⟨loop' | failure, hnext, rfl⟩ := Option.map_eq_some_iff.1 h
    · exact Or.inl ⟨loop', hnext, rfl⟩
    · exact Or.inr ⟨failure, Loop.resume_inr hnext, rfl⟩
  case h_2 => cases h

/-- The latch leaves a response behind. -/
theorem finalized_timedOut {c : Ctx} (hc : c.settled = false) :
    (timedOut c).finalized = true := by
  unfold timedOut
  split
  case isTrue h => exact h
  case isFalse => simp [Ctx.text, Ctx.mutate, hc]

end State

end Frames

/-! ## A concrete server -/

/-- A chain that has a handler only. -/
def bareChain : Chain :=
  { before := fun _ => 0, middleware := 0, preSerialization := 0, onSend := 0,
    onResponse := 0, onError := 0, onTimeout := 0, onAbort := 0 }

def sampleConfig (chain : Chain) (requestTimeout : Bool) : Config :=
  { chain := chain
    requestTimeout := requestTimeout
    detectDisconnect := false
    requestIdHeader := "x-request-id"
    requestId := "1"
    responseStrip := none
    json := { parse := fun _ => none, stringify := fun _ => "" }
    convertible := fun _ => true }

end Pipeline
end OxideHttp
