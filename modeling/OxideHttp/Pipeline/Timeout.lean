import OxideHttp.Pipeline

/-!
# The timeout latch

When the timer fires before a response is set, the response should be that of the
timer branch.  Beside each state runs the context as the timer branch alone would
leave it (`shadow`).  The latch closes only after the `onTimeout` hooks, and not
over direct writes: `timeout_answers` says what must stay out until then.
-/

namespace OxideHttp
namespace Pipeline

open Context

/-! ## The timer branch alone -/

/-- The context that starts where the timer fires before a response is set, and that
only the `onTimeout` hooks and the latch change. -/
def shadow (s : State) (d : Option Ctx) : Label → Option Ctx
  | .fire => if s.ctx.finalized then d else some s.ctx
  | .op (.onTimeout _) o => d.map fun c => o.apply c
  | .resume .timer =>
      match s.timer with
      | .onTimeout (.ended _) => d.map State.timedOut
      | _ => d
  | _ => d

/-- A step, with the shadow beside it. -/
def watch (cfg : Config) (p : State × Option Ctx) (l : Label) : Option (State × Option Ctx) :=
  (step cfg p.1 l).map fun t => (t, shadow p.1 p.2 l)

/-- The response that `#handleRequest` passes is that of the shadow, latched. -/
def TimerAnswers (cfg : Config) (p : State × Option Ctx) (l : Label) : Prop :=
  ∀ t r d, step cfg p.1 l = some t → p.1.replies.passed = [] → t.replies.passed = [r] →
    p.2 = some d →
    d.settled = true ∧
      r.status = (buildNativeResponse cfg.json cfg.responseStrip d).status ∧
      r.body = (buildNativeResponse cfg.json cfg.responseStrip d).body ∧
      r.streamed = (buildNativeResponse cfg.json cfg.responseStrip d).streamed

/-! ## What must stay out -/

/-- The next step of the core ends it, or sets a response. -/
def State.coreSpeaks (cfg : Config) (s : State) : Bool :=
  match s.core with
  | .before _ (.ended none) => s.ctx.finalized
  | .before _ (.ended (some _)) => cfg.chain.onError = 0
  | .bare (some (.returned _)) => true
  | .bare (some (.threw _)) => cfg.chain.onError = 0
  | .onion =>
      match s.onion.head? with
      | some (.ended none) => true
      | some (.ended (some _)) => cfg.chain.onError = 0
      | _ => false
  | .onError _ (.ended _) => true
  | _ => false

/-- The next step of the task is the handler's, with a value that sets a response. -/
def State.taskSpeaks (cfg : Config) (s : State) (i : Nat) : Bool :=
  match s.onion[i]? with
  | some (.running (some (.returned v))) =>
      cfg.chain.middleware ≤ i && !s.ctx.finalized && v.isResponse
  | _ => false

def Fn.isOnTimeout : Fn → Bool
  | .onTimeout _ => true
  | _ => false

/-- Until the response is passed on: while the `onTimeout` hooks run nobody else
touches what is shown, and the core neither ends nor sets a response; after the latch
nobody else writes past it. -/
def OnlyTimer (cfg : Config) (p : State × Option Ctx) (l : Label) : Prop :=
  p.2.isSome = true → p.1.replies.passed = [] →
    match l with
    | .op f o =>
        f.isOnTimeout = true ∨ o.shows = false ∨
          p.1.timer.isFired = true ∧ o.guarded = true
    | .resume .core => p.1.timer.isFired = true ∨ p.1.coreSpeaks cfg = false
    | .resume (.task i) => p.1.timer.isFired = true ∨ p.1.taskSpeaks cfg i = false
    | _ => True

/-! ## The race -/

/-- `#handleRequest` waits for the race, and what it passes on settles the context. -/
structure Raced (s : State) : Prop where
  won : s.main.isAfter = true → s.raceWon = true
  passed : s.replies.passed ≠ [] → s.main.isAfter = true
  settled : s.ctx.settled = true → s.timer.isFired = true ∨ s.replies.passed ≠ []
  failed : s.main = .failed → s.replies.passed ≠ []
  idle : s.main = .idle → s.timer = .off

section Race

variable {cfg : Config} {s t : State}

theorem raced_init (cfg : Config) : Raced (State.init cfg) :=
  ⟨nofun, fun h => absurd rfl h, nofun, nofun, fun _ => rfl⟩

theorem Raced.frame (h : Raced s) (hmain : t.main = s.main)
    (hreplies : t.replies = s.replies) (htimer : t.timer = s.timer)
    (hwon : s.raceWon = true → t.raceWon = true)
    (hsettled : t.ctx.settled = s.ctx.settled) : Raced t where
  won hm := hwon (h.won (hmain ▸ hm))
  passed hp := hmain ▸ h.passed (hreplies ▸ hp)
  settled hs := by
    rw [htimer, hreplies]
    exact h.settled (hsettled.symm.trans hs)
  failed hm := hreplies ▸ h.failed (hmain.symm.trans hm)
  idle hm := htimer.trans (h.idle (hmain.symm.trans hm))

theorem Raced.watcherMove (h : Raced s) (hmove : State.WatcherMove s t) : Raced t := by
  refine h.frame hmove.main hmove.replies hmove.timer ?_ (settled_of_view hmove.view)
  rw [State.raceWon, State.raceWon, hmove.core, hmove.timer]
  exact id

theorem Raced.settleMove (h : Raced s) (hmove : State.SettleMove s t) : Raced t := by
  have hfired : s.timer.isFired = true → t.timer.isFired = true := by
    intro hs
    rcases hmove.timer with htimer | hopen
    · exact htimer ▸ hs
    · exact absurd ((Timer.isFired_of_isOpen hopen).symm.trans hs) Bool.false_ne_true
  have hwon : s.raceWon = true → t.raceWon = true := by
    simp only [State.raceWon, Bool.or_eq_true, hmove.done]
    exact Or.imp_right hfired
  have hafter : t.main.isAfter = s.main.isAfter := by
    rcases hmove.main with hmain | ⟨hs, ht, _, _⟩
    · rw [hmain]
    · rw [hs, ht]
  refine ⟨fun hm => hwon (h.won (hafter ▸ hm)), fun hp => ?_, fun hs => ?_, fun hm => ?_,
    fun hm => ?_⟩
  · rw [hafter]
    exact h.passed (hmove.replies ▸ hp)
  · rw [hmove.ctx] at hs
    rw [hmove.replies]
    exact (h.settled hs).imp_left hfired
  · rcases hmove.main with hmain | ⟨_, _, hfailed, _⟩
    · rw [hmove.replies]
      exact h.failed (hmain.symm.trans hm)
    · exact absurd hm hfailed
  · rcases hmove.main with hmain | ⟨_, ht, _, _⟩
    · have hoff := h.idle (hmain.symm.trans hm)
      rcases hmove.timer with htimer | hopen
      · exact htimer.trans hoff
      · rw [hoff] at hopen
        cases hopen
    · rw [hm] at ht
      cases ht

theorem Raced.mainMove (h : Raced s) (hwon : s.main.isAfter = true ∨ s.raceWon = true)
    (hmove : State.MainMove cfg s t) : Raced t := by
  have hrace : t.raceWon = true := by
    rw [State.raceWon, hmove.core, hmove.timer]
    exact hwon.elim h.won id
  have hidle : t.main = .idle → t.timer = .off := by
    intro hm
    have hafter := hmove.after
    rw [hm] at hafter
    cases hafter
  cases hmove.said with
  | nothing hreplies hctx hmain =>
      refine ⟨fun _ => hrace, fun _ => hmove.after, fun hs => ?_, fun hm => absurd hm hmain,
        hidle⟩
      rw [hctx] at hs
      rw [hmove.timer, hreplies]
      exact h.settled hs
  | response c _ hreplies =>
      have hpassed : t.replies.passed ≠ [] := by
        simp [hreplies]
      exact ⟨fun _ => hrace, fun _ => hmove.after, fun _ => Or.inr hpassed,
        fun _ => hpassed, hidle⟩
  | guard _ hreplies hctx hmain =>
      have hpassed : t.replies.passed ≠ [] := by
        simp [hreplies]
      exact ⟨fun _ => hrace, fun _ => hmove.after, fun _ => Or.inr hpassed,
        fun _ => hpassed, hidle⟩

theorem Raced.start (h : Raced s) (hstep : Pipeline.step cfg s .start = some t) :
    Raced t := by
  obtain ⟨hmain, rfl⟩ := start_eq hstep
  have hmove := State.runCore_move cfg (s.launch cfg)
  have hafter : s.main.isAfter = false := by rw [hmain]; rfl
  have hpassed : s.replies.passed = [] := by
    by_contra hp
    rw [h.passed hp] at hafter
    cases hafter
  have hsettled : s.ctx.settled = false := by
    by_contra hs
    rcases h.settled (by simpa using hs) with hfired | hp
    · rw [h.idle hmain] at hfired
      cases hfired
    · exact hp hpassed
  have hreplies : (State.runCore cfg (s.launch cfg)).replies = s.replies := hmove.replies
  refine ⟨?_, ?_, ?_, ?_, ?_⟩
  · rw [hmove.main]
    nofun
  · rw [hreplies]
    exact fun hp => absurd hpassed hp
  · rw [hmove.settled.trans hsettled]
    nofun
  · rw [hmove.main]
    nofun
  · rw [hmove.main]
    nofun

/-- The hooks of `onTimeout` go on, or the timer wins the race. -/
theorem Raced.resumeTimer (h : Raced s)
    (hstep : Pipeline.step cfg s (.resume .timer) = some t) : Raced t := by
  obtain ⟨loop, htimer, ⟨loop', _, rfl⟩ | ⟨failure, _, rfl⟩⟩ :=
    State.resumeTimer_eq hstep
  · have hwon : s.raceWon = true →
        (s.toTimer loop').raceWon = true := by
      simp only [State.raceWon, htimer, Timer.isFired, Bool.or_false, State.toTimer]
      exact id
    refine ⟨fun hm => hwon (h.won hm), h.passed, fun hs => Or.inr ?_, h.failed,
      fun hm => ?_⟩
    · refine (h.settled hs).resolve_left ?_
      rw [htimer]
      nofun
    · have hoff := h.idle hm
      rw [htimer] at hoff
      cases hoff
  · have hwon : (s.latch failure).raceWon = true := by
      simp [State.raceWon, State.latch, Timer.isFired]
    refine ⟨fun _ => hwon, h.passed, fun _ => Or.inl rfl, h.failed, fun hm => ?_⟩
    have hoff := h.idle hm
    rw [htimer] at hoff
    cases hoff

theorem Raced.fire (h : Raced s) (hstep : Pipeline.step cfg s .fire = some t) :
    Raced t := by
  obtain ⟨htimer, hdone, rfl⟩ := State.fire_eq hstep
  have hwon : s.raceWon = false := by
    simp [State.raceWon, htimer, hdone, Timer.isFired]
  refine ⟨fun hm => ?_, h.passed, fun hs => Or.inr ?_, h.failed, fun hm => ?_⟩
  · have hs := h.won hm
    rw [hwon] at hs
    cases hs
  · refine (h.settled hs).resolve_left ?_
    rw [htimer]
    nofun
  · have hoff := h.idle hm
    rw [htimer] at hoff
    cases hoff

theorem Raced.step (h : Raced s) {l : Label} (hstep : Pipeline.step cfg s l = some t) :
    Raced t := by
  cases l with
  | start => exact h.start hstep
  | op f o =>
      obtain ⟨_, rfl⟩ := op_eq hstep
      exact h.frame rfl rfl rfl id (apply_settled o)
  | next i =>
      obtain ⟨hframe, _, hcore, _⟩ := State.next_frame hstep
      refine h.frame hframe.main hframe.replies hframe.timer ?_ hframe.settled
      rw [State.raceWon, State.raceWon, hcore, hframe.timer]
      exact id
  | settle strand out => exact h.settleMove (State.settle_move hstep)
  | resume strand =>
      cases strand with
      | core =>
          have hmove := State.resumeCore_move hstep
          refine h.frame hmove.main hmove.replies hmove.timer ?_ hmove.settled
          -- the core was not done, so the timer had won
          rw [State.raceWon, State.raceWon, State.resumeCore_undone hstep, hmove.timer,
            Bool.false_or]
          exact fun hfired => by rw [hfired, Bool.or_true]
      | task i =>
          obtain ⟨hframe, hcore, _⟩ := State.resumeTask_frame hstep
          refine h.frame hframe.main hframe.replies hframe.timer ?_ hframe.settled
          rw [State.raceWon, State.raceWon, hcore, hframe.timer]
          exact id
      | timer => exact h.resumeTimer hstep
      | watcher => exact h.watcherMove (State.resumeWatcher_move hstep)
      | main => exact h.mainMove (State.resumeMain_won hstep) (State.resumeMain_move hstep)
  | fire => exact h.fire hstep
  | waitAbort aborted => exact h.watcherMove (State.waitAbort_move hstep)

end Race

/-! ## Silent steps -/

section Silent

variable {cfg : Config} {s t : State}

theorem handleError_silent (err : Thrown) (h : decide (cfg.chain.onError = 0) = false) :
    (s.handleError cfg err).core.isDone = false ∧
      (s.handleError cfg err).ctx.view = s.ctx.view := by
  unfold State.handleError
  rw [if_neg (of_decide_eq_false h)]
  exact ⟨rfl, rfl⟩

theorem enterHandler_silent (h : s.ctx.finalized = false) :
    (s.enterHandler cfg).core.isDone = false ∧
      (s.enterHandler cfg).ctx.view = s.ctx.view := by
  unfold State.enterHandler
  rw [if_neg (by rw [h]; nofun)]
  split <;> exact ⟨rfl, rfl⟩

theorem enterStage_silent (stage : BeforeStage) (h : s.ctx.finalized = false) :
    (s.enterStage cfg stage).core.isDone = false ∧
      (s.enterStage cfg stage).ctx.view = s.ctx.view := by
  unfold State.enterStage
  rw [if_neg (by rw [h]; nofun)]
  exact ⟨rfl, rfl⟩

/-- Where the core does not speak, it goes on, and nothing shows. -/
theorem resumeCore_silent (hsilent : s.coreSpeaks cfg = false)
    (h : s.resumeCore cfg = some t) :
    t.core.isDone = false ∧ t.ctx.view = s.ctx.view := by
  cases State.resumeCore_resumed h with
  | before | onError => exact ⟨rfl, rfl⟩
  | stage hcore hnext =>
      rw [Loop.resume_inr hnext] at hcore
      simp only [State.coreSpeaks, hcore] at hsilent
      exact enterStage_silent _ hsilent
  | handler hcore hnext =>
      rw [Loop.resume_inr hnext] at hcore
      simp only [State.coreSpeaks, hcore] at hsilent
      exact enterHandler_silent hsilent
  | beforeThrew hcore hnext =>
      rw [Loop.resume_inr hnext] at hcore
      simp only [State.coreSpeaks, hcore] at hsilent
      exact handleError_silent _ hsilent
  | @bare out hcore =>
      simp only [State.coreSpeaks, hcore] at hsilent
      cases out with
      | returned v => cases hsilent
      | threw e => exact handleError_silent e hsilent
  | @onion failure hcore hroot =>
      simp only [State.coreSpeaks, hcore, hroot] at hsilent
      cases failure with
      | none => cases hsilent
      | some e => exact handleError_silent e hsilent
  | handled hcore hnext =>
      rw [Loop.resume_inr hnext] at hcore
      simp only [State.coreSpeaks, hcore] at hsilent
      cases hsilent

theorem resumeTask_silent {i : Nat} (hsilent : s.taskSpeaks cfg i = false)
    (h : s.resumeTask cfg i = some t) : t.ctx.view = s.ctx.view := by
  obtain ⟨out, htask, ⟨_, failure, rfl⟩ | ⟨hhandler, rfl⟩⟩ := State.resumeTask_eq h
  · rfl
  · cases out with
    | threw e => rfl
    | returned v =>
        have hquiet : s.ctx.finalized = true ∨ v.isResponse = false := by
          simpa [State.taskSpeaks, htask, hhandler, Bool.and_eq_false_imp,
            or_iff_not_imp_left] using hsilent
        simp only [State.applied, applyReturnValue_silent hquiet]

theorem view_timedOut {c d : Ctx} (h : c.view = d.view) :
    (State.timedOut c).view = (State.timedOut d).view := by
  have htext := view_text "Gateway Timeout" (some 504) h
  unfold State.timedOut
  rw [finalized_of_view h]
  split
  case isTrue =>
    obtain ⟨hstatus, htypes, hbody, hstream, hfinal, _⟩ := view_eq_iff.1 h
    exact view_eq_iff.2 ⟨hstatus, htypes, hbody, hstream, hfinal, rfl⟩
  case isFalse =>
    obtain ⟨hstatus, htypes, hbody, hstream, hfinal, _⟩ := view_eq_iff.1 htext
    exact view_eq_iff.2 ⟨hstatus, htypes, hbody, hstream, hfinal, rfl⟩

end Silent

/-! ## The request follows its shadow -/

/-- While the `onTimeout` hooks run, the race is open and the shadow shows what the
request shows; after the latch it still does. -/
structure Open (s : State) (d : Ctx) : Prop where
  timer : s.timer.isOpen = true
  core : s.core.isDone = false
  main : s.main = .racing
  settled : s.ctx.settled = false
  view : s.ctx.view = d.view

structure Latched (s : State) (d : Ctx) : Prop where
  timer : s.timer.isFired = true
  settled : s.ctx.settled = true
  finalized : s.ctx.finalized = true
  view : s.ctx.view = d.view

/-- Until the response is passed on, the request follows the shadow. -/
def Follows (p : State × Option Ctx) : Prop :=
  ∀ d, p.2 = some d → p.1.replies.passed = [] → Open p.1 d ∨ Latched p.1 d

section Shadow

variable {cfg : Config} {s t : State} {d e : Ctx}

/-- The strands stay in their phases, and both contexts show the same. -/
theorem Open.frame (h : Open s d) (htimer : t.timer.isOpen = s.timer.isOpen)
    (hcore : t.core.isDone = false) (hmain : t.main = s.main)
    (hsettled : t.ctx.settled = s.ctx.settled) (hview : t.ctx.view = e.view) : Open t e :=
  ⟨htimer.trans h.timer, hcore, hmain.trans h.main, hsettled.trans h.settled, hview⟩

/-- The timer has fired. -/
theorem fired_of_follows (h : Open s d ∨ Latched s d) :
    s.timer ≠ .off ∧ s.timer ≠ .armed := by
  rcases h with h | h <;> refine ⟨fun htimer => ?_, fun htimer => ?_⟩ <;>
    · have hfired := h.timer
      rw [htimer] at hfired
      cases hfired

theorem Open.not_fired (h : Open s d) : ¬ s.timer.isFired = true := by
  rw [Timer.isFired_of_isOpen h.timer]
  exact Bool.false_ne_true

theorem Latched.frame (h : Latched s d) (htimer : t.timer = s.timer)
    (hsettled : t.ctx.settled = s.ctx.settled)
    (hfinal : s.ctx.finalized = true → t.ctx.finalized = true)
    (hview : t.ctx.view = e.view) : Latched t e :=
  ⟨htimer ▸ h.timer, hsettled.trans h.settled, hfinal h.finalized, hview⟩

/-- Moves that show nothing, by strands outside the race. -/
theorem follows_silent (h : Open s d ∨ Latched s d) (htimer : t.timer = s.timer)
    (hcore : t.core.isDone = s.core.isDone) (hmain : t.main = s.main)
    (hview : t.ctx.view = s.ctx.view) : Open t d ∨ Latched t d := by
  have hsettled : t.ctx.settled = s.ctx.settled := settled_of_view hview
  rcases h with h | h
  · exact Or.inl (h.frame (congrArg Timer.isOpen htimer) (hcore.trans h.core) hmain hsettled
      (hview.trans h.view))
  · exact Or.inr (h.frame htimer hsettled (finalized_of_view hview).trans
      (hview.trans h.view))

/-- An access of user code. -/
theorem follows_op (h : Open s d ∨ Latched s d) (o : Op)
    (hview : (o.apply s.ctx).view = e.view) :
    Open { s with ctx := o.apply s.ctx } e ∨ Latched { s with ctx := o.apply s.ctx } e := by
  rcases h with h | h
  · exact Or.inl (h.frame rfl h.core rfl (apply_settled o) hview)
  · exact Or.inr (h.frame rfl (apply_settled o) (apply_finalized o) hview)

theorem follows_settle (h : Open s d ∨ Latched s d) (hmove : State.SettleMove s t) :
    Open t d ∨ Latched t d := by
  rcases h with h | h
  · refine Or.inl (h.frame hmove.opened (hmove.done.trans h.core) ?_
      (congrArg Ctx.settled hmove.ctx) ((congrArg Ctx.view hmove.ctx).trans h.view))
    rcases hmove.main with hmain | ⟨hafter, _⟩
    · exact hmain
    · rw [h.main] at hafter
      cases hafter
  · refine Or.inr (h.frame ?_ (congrArg Ctx.settled hmove.ctx) (fun hf => ?_)
      ((congrArg Ctx.view hmove.ctx).trans h.view))
    · rcases hmove.timer with htimer | hopen
      · exact htimer
      · exact absurd ((Timer.isFired_of_isOpen hopen).symm.trans h.timer)
          Bool.false_ne_true
    · rw [hmove.ctx]
      exact hf

theorem follows_core (h : Open s d ∨ Latched s d) (hstep : s.resumeCore cfg = some t)
    (honly : s.timer.isFired = true ∨ s.coreSpeaks cfg = false) :
    Open t d ∨ Latched t d := by
  have hmove := State.resumeCore_move hstep
  rcases h with h | h
  · have hsilent := honly.resolve_left h.not_fired
    obtain ⟨hdone, hview⟩ := resumeCore_silent hsilent hstep
    exact Or.inl (h.frame (congrArg Timer.isOpen hmove.timer) hdone hmove.main
      hmove.settled (hview.trans h.view))
  · have hview := hmove.latched h.settled
    exact Or.inr (h.frame hmove.timer hmove.settled (finalized_of_view hview).trans
      (hview.trans h.view))

theorem follows_task {i : Nat} (h : Open s d ∨ Latched s d)
    (hstep : s.resumeTask cfg i = some t)
    (honly : s.timer.isFired = true ∨ s.taskSpeaks cfg i = false) :
    Open t d ∨ Latched t d := by
  obtain ⟨hframe, hcore, _⟩ := State.resumeTask_frame hstep
  have hview : t.ctx.view = s.ctx.view := by
    rcases h with h | h
    · have hsilent := honly.resolve_left h.not_fired
      exact resumeTask_silent hsilent hstep
    · exact hframe.latched h.settled
  exact follows_silent h hframe.timer (congrArg Core.isDone hcore) hframe.main hview

theorem follows_timer (h : Open s d ∨ Latched s d) (hstep : s.resumeTimer cfg = some t)
    (hshadow : shadow s (some d) (.resume .timer) = some e) : Open t e ∨ Latched t e := by
  obtain ⟨loop, htimer, hnext⟩ := State.resumeTimer_eq hstep
  have hopen : Open s d := by
    refine h.resolve_right fun hlatched => ?_
    have hfired := hlatched.timer
    rw [htimer] at hfired
    cases hfired
  rcases hnext with ⟨loop', hloop, rfl⟩ | ⟨failure, rfl, rfl⟩
  · -- another hook is called
    obtain rfl : d = e := by
      cases loop with
      | ended failure => cases hloop
      | hook k call =>
          simp only [shadow, htimer] at hshadow
          exact Option.some.inj hshadow
    refine Or.inl (hopen.frame ?_ hopen.core rfl rfl hopen.view)
    rw [htimer]
    rfl
  · -- the latch closes
    obtain rfl : State.timedOut d = e := by
      simp only [shadow, htimer] at hshadow
      exact Option.some.inj hshadow
    refine Or.inr ⟨rfl, rfl, State.finalized_timedOut hopen.settled, ?_⟩
    exact view_timedOut (c := { s.ctx with error := failure.or s.ctx.error }) hopen.view

/-- The timer fires before a response is set: the shadow starts here. -/
theorem follows_fire (h : Raced s) (hstep : s.fire cfg = some t) : Open t s.ctx := by
  obtain ⟨htimer, hdone, rfl⟩ := State.fire_eq hstep
  have hafter : s.main.isAfter = false := by
    by_contra hafter
    have hwon := h.won (by simpa using hafter)
    simp [State.raceWon, htimer, hdone, Timer.isFired] at hwon
  refine ⟨rfl, hdone, ?_, ?_, rfl⟩
  · cases hmain : s.main with
    | idle =>
        have hoff := h.idle hmain
        rw [htimer] at hoff
        cases hoff
    | racing => rfl
    | preSerialization | onSend | onResponse | failed | settled | rejected =>
        rw [hmain] at hafter
        cases hafter
  · by_contra hsettled
    rcases h.settled (by simpa [State.toTimer] using hsettled) with hfired | hpassed
    · rw [htimer] at hfired
      cases hfired
    · rw [h.passed hpassed] at hafter
      cases hafter

/-- `#handleRequest` goes on after the latch, with the context as it is. -/
theorem latched_main (h : Open s d ∨ Latched s d) (hstep : s.resumeMain cfg = some t) :
    Latched s d := by
  refine h.resolve_left fun hopen => ?_
  rcases State.resumeMain_won hstep with hafter | hwon
  · rw [hopen.main] at hafter
    cases hafter
  · rw [State.raceWon, hopen.core, Timer.isFired_of_isOpen hopen.timer] at hwon
    cases hwon

theorem follows_main (h : Open s d ∨ Latched s d) (hstep : s.resumeMain cfg = some t)
    (hpassed : t.replies.passed = []) : Open t d ∨ Latched t d := by
  have hlatched := latched_main h hstep
  have hmove := State.resumeMain_move hstep
  cases hmove.said with
  | nothing _ hctx _ =>
      refine Or.inr (hlatched.frame hmove.timer (congrArg Ctx.settled hctx) (fun hf => ?_)
        ((congrArg Ctx.view hctx).trans hlatched.view))
      rw [hctx]
      exact hf
  | response c _ hreplies =>
      rw [hreplies, Replies.passed_respond] at hpassed
      exact absurd hpassed (List.append_ne_nil_of_right_ne_nil _ (List.cons_ne_nil _ _))
  | guard _ hreplies _ _ =>
      rw [hreplies, Replies.passed_respond] at hpassed
      exact absurd hpassed (List.append_ne_nil_of_right_ne_nil _ (List.cons_ne_nil _ _))

end Shadow

section Runs

variable {cfg : Config} {s t : State} {sh : Option Ctx} {l : Label}

/-- Only `#handleRequest` passes responses on. -/
theorem passed_of_ne (hstep : step cfg s l = some t) (hl : l ≠ .resume .main) :
    t.replies = s.replies := by
  cases l with
  | start =>
      obtain ⟨_, rfl⟩ := start_eq hstep
      exact (State.runCore_move cfg (s.launch cfg)).replies
  | op f o =>
      obtain ⟨_, rfl⟩ := op_eq hstep
      rfl
  | next i => exact (State.next_frame hstep).1.replies
  | settle strand out => exact (State.settle_move hstep).replies
  | resume strand =>
      cases strand with
      | core => exact (State.resumeCore_move hstep).replies
      | task i => exact (State.resumeTask_frame hstep).1.replies
      | timer =>
          obtain ⟨_, _, ⟨_, _, rfl⟩ | ⟨_, _, rfl⟩⟩ := State.resumeTimer_eq hstep <;> rfl
      | watcher => exact (State.resumeWatcher_move hstep).replies
      | main => exact absurd rfl hl
  | fire =>
      obtain ⟨_, _, rfl⟩ := State.fire_eq hstep
      rfl
  | waitAbort aborted => exact (State.waitAbort_move hstep).replies

/-- Responses that were passed on stay passed on. -/
theorem passed_nil (hstep : step cfg s l = some t) (h : t.replies.passed = []) :
    s.replies.passed = [] := by
  by_cases hl : l = .resume .main
  · subst hl
    cases (State.resumeMain_move hstep).said with
    | nothing hreplies _ _ => rwa [hreplies] at h
    | response c _ hreplies =>
        rw [hreplies, Replies.passed_respond] at h
        exact (List.append_eq_nil_iff.1 h).1
    | guard _ hreplies _ _ =>
        rw [hreplies, Replies.passed_respond] at h
        exact (List.append_eq_nil_iff.1 h).1
  · rwa [passed_of_ne hstep hl] at h

/-- An access changes the shadow as it changes the response, or neither. -/
theorem view_access {f : Fn} {o : Op} (hd : Open s d ∨ Latched s d)
    (honly : f.isOnTimeout = true ∨ o.shows = false ∨
      s.timer.isFired = true ∧ o.guarded = true)
    (hshadow : shadow s (some d) (.op f o) = some e) : (o.apply s.ctx).view = e.view := by
  have hsame : s.ctx.view = d.view := hd.elim (·.view) (·.view)
  cases hf : f.isOnTimeout with
  | true =>
      cases f with
      | onTimeout k =>
          obtain rfl := Option.some.inj hshadow
          exact view_apply o hsame
      | before | middleware | handler | onError | onAbort | preSerialization |
        onSend | onResponse => cases hf
  | false =>
      have hde : d = e := by
        cases f with
        | onTimeout k => cases hf
        | before | middleware | handler | onError | onAbort |
          preSerialization | onSend | onResponse =>
            exact Option.some.inj hshadow
      rw [← hde, ← hsame]
      rcases honly with hf' | hhidden | ⟨hfired, hguarded⟩
      · rw [hf] at hf'
        cases hf'
      · exact view_apply_hidden hhidden
      · have hlatched := hd.resolve_left fun hopen => hopen.not_fired hfired
        rw [apply_guarded hguarded hlatched.settled]

/-- One step keeps the request behind its shadow. -/
theorem Follows.step (hraced : Raced s) (h : Follows (s, sh))
    (honly : OnlyTimer cfg (s, sh) l) (hstep : Pipeline.step cfg s l = some t) :
    Follows (t, shadow s sh l) := by
  intro e hshadow hnil
  have hpassed := passed_nil hstep hnil
  cases sh with
  | none =>
      -- only the timer starts a shadow
      cases l with
      | fire =>
          simp only [shadow] at hshadow
          split at hshadow
          case isTrue => cases hshadow
          case isFalse =>
            obtain rfl := Option.some.inj hshadow
            exact Or.inl (follows_fire hraced hstep)
      | op f o => cases f <;> cases hshadow
      | resume strand =>
          cases strand with
          | timer =>
              simp only [shadow] at hshadow
              split at hshadow <;> cases hshadow
          | core | task | watcher | main => cases hshadow
      | start | next | settle | waitAbort => cases hshadow
  | some d =>
      have hd : Open s d ∨ Latched s d := h d rfl hpassed
      have honly' := honly rfl hpassed
      cases l with
      | start =>
          obtain ⟨hmain, _⟩ := start_eq hstep
          exact absurd (hraced.idle hmain) (fired_of_follows hd).1
      | op f o =>
          obtain ⟨_, rfl⟩ := op_eq hstep
          exact follows_op hd o (view_access hd honly' hshadow)
      | next i =>
          obtain rfl := Option.some.inj hshadow
          obtain ⟨hframe, hctx, hcore, _⟩ := State.next_frame hstep
          exact follows_silent hd hframe.timer (congrArg Core.isDone hcore) hframe.main
            (congrArg Ctx.view hctx)
      | settle strand out =>
          obtain rfl := Option.some.inj hshadow
          exact follows_settle hd (State.settle_move hstep)
      | resume strand =>
          cases strand with
          | core =>
              obtain rfl := Option.some.inj hshadow
              exact follows_core hd hstep honly'
          | task i =>
              obtain rfl := Option.some.inj hshadow
              exact follows_task hd hstep honly'
          | timer => exact follows_timer hd hstep hshadow
          | watcher =>
              obtain rfl := Option.some.inj hshadow
              have hmove := State.resumeWatcher_move hstep
              exact follows_silent hd hmove.timer (congrArg Core.isDone hmove.core)
                hmove.main hmove.view
          | main =>
              obtain rfl := Option.some.inj hshadow
              exact follows_main hd hstep hnil
      | fire =>
          obtain ⟨htimer, _, _⟩ := State.fire_eq hstep
          exact absurd htimer (fired_of_follows hd).2
      | waitAbort aborted =>
          obtain rfl := Option.some.inj hshadow
          have hmove := State.waitAbort_move hstep
          exact follows_silent hd hmove.timer (congrArg Core.isDone hmove.core) hmove.main
            hmove.view

/-- What is passed on is the response of the shadow. -/
theorem Follows.answers (hraced : Raced s) (h : Follows (s, sh)) :
    TimerAnswers cfg (s, sh) l := by
  intro t r d hstep hnil hone hsh
  by_cases hl : l = .resume .main
  case neg =>
    rw [passed_of_ne hstep hl, hnil] at hone
    cases hone
  case pos =>
    subst hl
    have hlatched := latched_main (h d hsh hnil) hstep
    have hsettled : d.settled = true :=
      (settled_of_view hlatched.view).symm.trans hlatched.settled
    refine ⟨hsettled, ?_⟩
    cases (State.resumeMain_move hstep).said with
    | nothing hreplies _ _ =>
        rw [hreplies, hnil] at hone
        cases hone
    | guard hfailed _ _ _ => exact absurd hnil (hraced.failed hfailed)
    | response c hc hreplies =>
        rw [hreplies, Replies.passed_respond, hnil, hc hlatched.finalized] at hone
        obtain rfl := List.head_eq_of_cons_eq hone
        exact buildNativeResponse_view _ _ hlatched.view

end Runs

/--
In every run in which, from the moment the timer fires before a response is set,
nobody but the `onTimeout` hooks shows anything until the latch, the core does not
end before it, and nobody writes past it afterwards, the response that is passed on
is the one of the `onTimeout` hooks, or the default.
-/
theorem timeout_answers (cfg : Config) (ls : List Label)
    (h : Transition.Along (watch cfg) (OnlyTimer cfg) (State.init cfg, none) ls) :
    Transition.Along (watch cfg) (TimerAnswers cfg) (State.init cfg, none) ls := by
  refine h.of_invariant (I := fun p => Raced p.1 ∧ Follows p) ?_ ?_ ?_
  · rintro ⟨s, sh⟩ l p ⟨hraced, hfollows⟩ honly hwatch
    obtain ⟨t, hstep, rfl⟩ := Option.map_eq_some_iff.1 hwatch
    exact ⟨hraced.step hstep, hfollows.step hraced honly hstep⟩
  · rintro ⟨s, sh⟩ l p ⟨hraced, hfollows⟩ _ _
    exact hfollows.answers hraced
  · exact ⟨raced_init cfg, fun d hd => nomatch hd⟩

/-- One `onTimeout` hook. -/
def timedChain : Chain := { bareChain with onTimeout := 1 }

/-- The hook answers 503; the handler goes on after the latch. -/
def lateHandler : List Label :=
  [.start, .fire, .op (.onTimeout 0) (.text "slow" (some 503)),
    .settle .timer (.returned .nothing), .resume .timer, .resume .timer,
    .op .handler (.text "late" (some 200)), .resume .main]

theorem timeout_answers_late :
    Transition.Along (watch (sampleConfig timedChain true))
      (TimerAnswers (sampleConfig timedChain true))
      (State.init (sampleConfig timedChain true), none) lateHandler := by
  refine timeout_answers (sampleConfig timedChain true) lateHandler ?_
  iterate 8 refine (Transition.along_cons_of_eq rfl).2 ⟨fun _ _ => by trivial, ?_⟩
  trivial

/-- The hook answers 503 and goes on; meanwhile the handler answers and returns. -/
def earlyHandler : List Label :=
  [.start, .fire, .op (.onTimeout 0) (.text "slow" (some 503)),
    .op .handler (.text "late" (some 200)), .settle .core (.returned .nothing),
    .resume .core, .resume .main]

/-- Its response is sent, and not that of the hook. -/
theorem late_handler_answers :
    ¬ ∀ (cfg : Config) (ls : List Label), cfg.requestTimeout = true →
        Transition.Along (watch cfg) (TimerAnswers cfg) (State.init cfg, none) ls := by
  intro hall
  have hanswers := hall (sampleConfig timedChain true) earlyHandler rfl
  have hlast := (((((((hanswers _ rfl).2 _ rfl).2 _ rfl).2 _ rfl).2 _ rfl).2 _ rfl).2 _ rfl).1
  have hstatus : (200 : Int) = 503 := (hlast _ _ _ rfl rfl rfl rfl).2.1
  exact absurd hstatus (by decide)

end Pipeline
end OxideHttp
