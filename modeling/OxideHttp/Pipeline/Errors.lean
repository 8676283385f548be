import OxideHttp.Pipeline

/-!
# The default error response

`handleError` answers with the status of the error unless a hook has answered.
It decides that from `_finalized`, which earlier layers set as well:
`error_default_iff` says when the default is reached.
-/

namespace OxideHttp
namespace Pipeline

open Context

/-- The access sets a response. -/
def answers : Op → Bool
  | .json .. | .text .. | .bodyStream .. | .bodyString .. => true
  | _ => false

/-- The `onError` hooks set no response. -/
def Observing (_ : State) : Label → Prop
  | .op (.onError _) o => answers o = false
  | _ => True

/-- The core goes on, or a call that it awaits settles. -/
def Label.isCore : Label → Bool
  | .settle .core _ | .resume .core => true
  | _ => false

/-- When the core ends after an exception that its hooks did not throw, the response
has the status of the exception. -/
def ErrorAnswered (cfg : Config) (s : State) (l : Label) : Prop :=
  ∀ t e, step cfg s l = some t → s.core.isDone = false → t.core = .done (.handled e) →
    (t.response cfg).status = e.status

/-- When the last `onError` hook has returned, no response is set, or it has the
status of the exception. -/
def DefaultOpen (cfg : Config) (s : State) : Label → Prop
  | .resume .core =>
      match s.core with
      | .onError err (.ended none) =>
          s.ctx.finalized = false ∨ (s.response cfg).status = err.status
      | _ => True
  | _ => True

/-- When the last `onError` hook has returned, no response is set. -/
def NothingSet (s : State) : Label → Prop
  | .resume .core =>
      match s.core with
      | .onError _ (.ended none) => s.ctx.finalized = false
      | _ => True
  | _ => True

/-- Without a timeout the context is not settled before the core is done. -/
structure Untimed (s : State) : Prop where
  timer : s.timer = .off
  fresh : s.main = .idle → s.ctx.settled = false
  unsettled : s.core.isDone = false → s.ctx.settled = false
  racing : s.core.isDone = false → s.main.isAfter = false

section Steps

variable {cfg : Config} {s t : State}

theorem untimed_init (cfg : Config) : Untimed (State.init cfg) :=
  ⟨rfl, fun _ => rfl, fun _ => rfl, fun _ => rfl⟩

theorem Untimed.frame (h : Untimed s) (htimer : t.timer = s.timer) (hmain : t.main = s.main)
    (hcore : t.core.isDone = s.core.isDone) (hsettled : t.ctx.settled = s.ctx.settled) :
    Untimed t where
  timer := htimer.trans h.timer
  fresh hm := hsettled.trans (h.fresh (hmain.symm.trans hm))
  unsettled hc := hsettled.trans (h.unsettled (hcore.symm.trans hc))
  racing hc := hmain ▸ h.racing (hcore.symm.trans hc)

theorem Untimed.watcherMove (h : Untimed s) (hmove : State.WatcherMove s t) : Untimed t :=
  h.frame hmove.timer hmove.main (congrArg Core.isDone hmove.core)
    (settled_of_view hmove.view)

theorem Untimed.step (htime : cfg.requestTimeout = false) (h : Untimed s) {l : Label}
    (hstep : step cfg s l = some t) : Untimed t := by
  cases l with
  | start =>
      obtain ⟨hmain, rfl⟩ := start_eq hstep
      have hmove := State.runCore_move cfg (s.launch cfg)
      have hsettled := hmove.settled.trans (h.fresh hmain)
      refine ⟨?_, fun _ => hsettled, fun _ => hsettled, fun _ => ?_⟩
      · rw [hmove.timer, State.launch, htime]
        rfl
      · rw [hmove.main]
        rfl
  | op f o =>
      obtain ⟨_, rfl⟩ := op_eq hstep
      exact h.frame rfl rfl rfl (apply_settled o)
  | next i =>
      obtain ⟨hframe, _, hcore, _⟩ := State.next_frame hstep
      exact h.frame hframe.timer hframe.main (congrArg Core.isDone hcore) hframe.settled
  | settle strand out =>
      have hmove := State.settle_move hstep
      have htimer : t.timer = s.timer := by
        refine hmove.timer.resolve_right fun hopen => ?_
        rw [h.timer] at hopen
        cases hopen
      rcases hmove.main with hmain | ⟨hs, ht, _, _⟩
      · exact h.frame htimer hmain hmove.done (congrArg Ctx.settled hmove.ctx)
      · have hdone : s.core.isDone = true := by
          by_contra hcore
          rw [h.racing (by simpa using hcore)] at hs
          cases hs
        refine ⟨htimer.trans h.timer, fun hm => ?_, fun hc => ?_, fun hc => ?_⟩
        · rw [hm] at ht
          cases ht
        · rw [hmove.done, hdone] at hc
          cases hc
        · rw [hmove.done, hdone] at hc
          cases hc
  | resume strand =>
      cases strand with
      | core =>
          have hmove := State.resumeCore_move hstep
          have hundone := State.resumeCore_undone hstep
          have hsettled := hmove.settled.trans (h.unsettled hundone)
          exact ⟨hmove.timer.trans h.timer, fun _ => hsettled, fun _ => hsettled,
            fun _ => hmove.main ▸ h.racing hundone⟩
      | task i =>
          obtain ⟨hframe, hcore, _⟩ := State.resumeTask_frame hstep
          exact h.frame hframe.timer hframe.main (congrArg Core.isDone hcore) hframe.settled
      | timer =>
          obtain ⟨loop, htimer, _⟩ := State.resumeTimer_eq hstep
          rw [h.timer] at htimer
          cases htimer
      | watcher => exact h.watcherMove (State.resumeWatcher_move hstep)
      | main =>
          have hmove := State.resumeMain_move hstep
          have hdone : s.core.isDone = true := by
            rcases State.resumeMain_won hstep with hafter | hwon
            · by_contra hcore
              rw [h.racing (by simpa using hcore)] at hafter
              cases hafter
            · simpa [State.raceWon, h.timer, Timer.isFired] using hwon
          refine ⟨hmove.timer.trans h.timer, fun hm => ?_, fun hc => ?_, fun hc => ?_⟩
          · have hafter := hmove.after
            rw [hm] at hafter
            cases hafter
          · rw [hmove.core, hdone] at hc
            cases hc
          · rw [hmove.core, hdone] at hc
            cases hc
  | fire =>
      obtain ⟨htimer, _⟩ := State.fire_eq hstep
      rw [h.timer] at htimer
      cases htimer
  | waitAbort aborted => exact h.watcherMove (State.waitAbort_move hstep)

/-! ## The end of the core -/

theorem status_defaultError {c : Ctx} (hc : c.settled = false) (err : Thrown) :
    (defaultError c err).status = some err.status := by
  simp [defaultError, Ctx.text, Ctx.mutate, Ctx.setStatus, hc]

theorem handleError_handled {err e : Thrown} (hs : s.ctx.settled = false)
    (h : (s.handleError cfg err).core = .done (.handled e)) :
    ((s.handleError cfg err).response cfg).status = e.status := by
  unfold State.handleError at h ⊢
  split
  case isTrue hnone =>
    rw [if_pos hnone] at h
    obtain rfl := Ending.handled.inj (Core.done.inj h)
    have hstatus := status_defaultError (c := { s.ctx with error := some err }) hs err
    simp [State.response, response_status, hstatus]
  case isFalse hsome =>
    rw [if_neg hsome] at h
    cases h

theorem enterHandler_completed {e : Thrown} :
    (s.enterHandler cfg).core ≠ .done (.handled e) := by
  unfold State.enterHandler
  split
  case isTrue => nofun
  case isFalse => split <;> nofun

theorem enterStage_completed {stage : BeforeStage} {e : Thrown} :
    (s.enterStage cfg stage).core ≠ .done (.handled e) := by
  unfold State.enterStage
  split
  case isTrue => exact enterHandler_completed
  case isFalse => nofun

theorem runCore_completed {e : Thrown} : (s.runCore cfg).core ≠ .done (.handled e) := by
  unfold State.runCore
  split
  case isTrue => exact enterStage_completed
  case isFalse => exact enterHandler_completed

theorem tried_handled {failure : Option Thrown} {e : Thrown} (hs : s.ctx.settled = false)
    (h : (State.tried cfg (s, failure)).core = .done (.handled e)) :
    ((State.tried cfg (s, failure)).response cfg).status = e.status := by
  cases failure with
  | none => cases h
  | some err => exact handleError_handled hs h

/-- The core ends after an exception: with the default response, except where its
last hook has returned and something has set a response. -/
theorem resumeCore_handled {e : Thrown} (hs : s.ctx.settled = false)
    (hresume : s.resumeCore cfg = some t) (h : t.core = .done (.handled e)) :
    (t.response cfg).status = e.status ∨
      s.core = .onError e (.ended none) ∧ s.ctx.finalized = true ∧ t.ctx = s.ctx := by
  cases State.resumeCore_resumed hresume with
  | before | onError => cases h
  | stage => exact absurd h enterStage_completed
  | handler => exact absurd h enterHandler_completed
  | beforeThrew => exact Or.inl (handleError_handled hs h)
  | @bare out =>
      have hsettled := (State.applied_frame s out).settled.trans hs
      exact Or.inl (tried_handled hsettled h)
  | onion => exact Or.inl (tried_handled hs h)
  | @handled err _ failure hcore hnext =>
      cases failure with
      | some e2 => cases h
      | none =>
          obtain rfl := Ending.handled.inj (Core.done.inj h)
          have hended := Loop.resume_inr hnext
          cases hfinal : s.ctx.finalized with
          | true =>
              refine Or.inr ⟨by rw [hcore, hended], rfl, ?_⟩
              simp [State.afterOnError, hfinal]
          | false =>
              refine Or.inl ?_
              simp [State.afterOnError, State.response, response_status, hfinal,
                status_defaultError hs]

/-- The core moves in steps of its own, and where `#dispatch` calls it. -/
theorem core_step {l : Label} (hstep : step cfg s l = some t) :
    (l = .start ∧ s.main = .idle ∧ t = (s.launch cfg).runCore cfg) ∨ l.isCore = true ∨
      t.core = s.core := by
  cases l with
  | start => exact Or.inl ⟨rfl, start_eq hstep⟩
  | op f o =>
      obtain ⟨_, rfl⟩ := op_eq hstep
      exact Or.inr (Or.inr rfl)
  | next i => exact Or.inr (Or.inr (State.next_frame hstep).2.2.1)
  | settle strand out =>
      cases State.settle_settled hstep with
      | before | bare | onError => exact Or.inr (Or.inl rfl)
      | task | onTimeout | onAbort | preSerialization | onSend | onResponse =>
          exact Or.inr (Or.inr rfl)
  | resume strand =>
      cases strand with
      | core => exact Or.inr (Or.inl rfl)
      | task i => exact Or.inr (Or.inr (State.resumeTask_frame hstep).2.1)
      | timer =>
          obtain ⟨_, _, ⟨_, _, rfl⟩ | ⟨_, _, rfl⟩⟩ := State.resumeTimer_eq hstep
          · exact Or.inr (Or.inr rfl)
          · exact Or.inr (Or.inr rfl)
      | watcher => exact Or.inr (Or.inr (State.resumeWatcher_move hstep).core)
      | main => exact Or.inr (Or.inr (State.resumeMain_move hstep).core)
  | fire =>
      obtain ⟨_, _, rfl⟩ := State.fire_eq hstep
      exact Or.inr (Or.inr rfl)
  | waitAbort aborted => exact Or.inr (Or.inr (State.waitAbort_move hstep).core)

theorem isCore_cases {l : Label} (h : l.isCore = true) :
    (∃ out, l = .settle .core out) ∨ l = .resume .core := by
  cases l with
  | start | op | next | fire | waitAbort => cases h
  | settle strand out =>
      cases strand with
      | core => exact Or.inl ⟨out, rfl⟩
      | task | timer | watcher | main => cases h
  | resume strand =>
      cases strand with
      | core => exact Or.inr rfl
      | task | timer | watcher | main => cases h

/-- It ends where it resumes. -/
theorem isDone_step {l : Label} (hstep : step cfg s l = some t) (hl : l ≠ .start) :
    l = .resume .core ∧ s.core.isDone = false ∨ t.core.isDone = s.core.isDone := by
  rcases core_step hstep with ⟨rfl, -⟩ | hcore | hsame
  · exact absurd rfl hl
  · rcases isCore_cases hcore with ⟨out, rfl⟩ | rfl
    · have hsettle : s.settle out .core = some t := hstep
      exact Or.inr (State.settle_move hsettle).done
    · exact Or.inl ⟨rfl, State.resumeCore_undone hstep⟩
  · exact Or.inr (congrArg Core.isDone hsame)

/-- Only a step of the core ends it after an exception. -/
theorem handled_resume {l : Label} {e : Thrown} (hstep : step cfg s l = some t)
    (hs : s.core.isDone = false) (h : t.core = .done (.handled e)) :
    l = .resume .core := by
  have hl : l ≠ .start := by
    rintro rfl
    obtain ⟨-, rfl⟩ := start_eq hstep
    exact runCore_completed h
  rcases isDone_step hstep hl with ⟨rfl, -⟩ | hsame
  · rfl
  · rw [h, hs] at hsame
    cases hsame

theorem NothingSet.defaultOpen {l : Label} (h : NothingSet s l) : DefaultOpen cfg s l := by
  unfold DefaultOpen
  split
  case h_2 => trivial
  case h_1 =>
    split
    case h_2 => trivial
    case h_1 err hcore =>
      rw [NothingSet, hcore] at h
      exact Or.inl h

/-- One step: the default reaches the response exactly where it is open. -/
theorem Untimed.answered_iff (h : Untimed s) {l : Label}
    (hstep : Pipeline.step cfg s l = some t) :
    ErrorAnswered cfg s l ↔ DefaultOpen cfg s l := by
  constructor
  · intro hanswered
    unfold DefaultOpen
    split
    case h_2 => trivial
    case h_1 =>
      split
      case h_2 => trivial
      case h_1 err hcore =>
        have hresume : Pipeline.step cfg s (.resume .core) =
            some (s.afterOnError err none) := by
          simp [Pipeline.step, State.resume, State.resumeCore, hcore, Loop.resume]
        have hstatus := hanswered _ err hresume (by rw [hcore]; rfl) rfl
        cases hfinal : s.ctx.finalized with
        | false => exact Or.inl rfl
        | true =>
            refine Or.inr ?_
            simpa [State.afterOnError, State.response, hfinal] using hstatus
  · intro hopen u e hu hundone hcore
    obtain rfl := handled_resume hu hundone hcore
    rcases resumeCore_handled (h.unsettled hundone) hu hcore with
      hstatus | ⟨hpc, hfinal, hctx⟩
    · exact hstatus
    · simp only [DefaultOpen, hpc, hfinal, Bool.true_eq_false, false_or] at hopen
      simpa [State.response, hctx] using hopen

end Steps

/--
Without a timeout, and with `onError` hooks that set no response: after every
exception that the core handles the response has the default status, exactly when
at each of these moments no response is set, or one of that status.
-/
theorem error_default_iff (cfg : Config) (htime : cfg.requestTimeout = false)
    (ls : List Label) :
    (Transition.Along (step cfg) Observing (State.init cfg) ls →
        Transition.Along (step cfg) (ErrorAnswered cfg) (State.init cfg) ls) ↔
      (Transition.Along (step cfg) Observing (State.init cfg) ls →
        Transition.Along (step cfg) (DefaultOpen cfg) (State.init cfg) ls) := by
  refine imp_congr_right fun _ => ⟨fun h => ?_, fun h => ?_⟩
  · exact h.of_invariant (fun _ _ _ hs _ hstep => Untimed.step htime hs hstep)
      (fun _ _ _ hs hP hstep => (hs.answered_iff hstep).1 hP) (untimed_init cfg)
  · exact h.of_invariant (fun _ _ _ hs _ hstep => Untimed.step htime hs hstep)
      (fun _ _ _ hs hP hstep => (hs.answered_iff hstep).2 hP) (untimed_init cfg)

end Pipeline
end OxideHttp
