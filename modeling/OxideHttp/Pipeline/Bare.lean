import OxideHttp.Pipeline.Trace

/-!
# A chain without middleware (`src/js/pipeline.ts`)

`runCore` calls the handler of such a chain by itself.  Here is `runOnion` over the empty
list beside it, with its nested `await`s passed in one go (`onionStep`): the two take the
same steps, and show the same context, the same calls and the same replies (`Alike`).
-/

namespace OxideHttp
namespace Pipeline

open Context

/-- `runOnion`, up to its first `await`. -/
def State.runOnion (cfg : Config) (s : State) : State :=
  { s with
    core := .onion
    onion := [.running none]
    log := s.log ++ [if 0 < cfg.chain.middleware then .middleware 0 else .handler] }

/-- A chain with middleware goes through the onion. -/
theorem enterHandler_eq_runOnion {cfg : Config} {s : State} (hopen : s.ctx.finalized = false)
    (hmiddleware : 0 < cfg.chain.middleware) : s.enterHandler cfg = s.runOnion cfg := by
  rw [State.enterHandler, if_neg (by simp [hopen]), if_neg (Nat.ne_of_gt hmiddleware),
    State.runOnion, if_pos hmiddleware]

/-- The labels of the core for an onion whose only task is `dispatch(0)`: the handler's
promise is that task's, and when the task ends the promises around it end with it. -/
def onionStep (cfg : Config) (s : State) : Label → Option State
  | .settle .core out =>
      match s.core with
      | .onion => s.settle out (.task 0)
      | _ => s.settle out .core
  | .resume .core =>
      match s.core with
      | .onion => (s.resumeTask cfg 0).bind fun t => t.resumeCore cfg
      | _ => s.resumeCore cfg
  | .settle (.task _) _ | .resume (.task _) => none
  | l => step cfg s l

/-- The same request, but for the program counter of the core. -/
def State.within (s : State) (core : Core) (onion : List Task) : State :=
  { s with core := core, onion := onion }

/-- The core handles an exception, or has ended. -/
def Core.isLate : Core → Bool
  | .onError .. | .done _ => true
  | _ => false

/-- The second request is the first one, with the onion over the empty list around the call
of the handler. -/
structure Alike (s s' : State) : Prop where
  started : s.main ≠ .idle
  onion : s.onion = []
  core : (∃ call, s.core = .bare call ∧ s' = s.within .onion [.running call]) ∨
    s.core.isLate = true ∧ ∃ failure, s' = s.within s.core [.ended failure]

/-- What `Alike` says: all that the handler and the hooks, the client and the bridge see. -/
structure SameView (s s' : State) : Prop where
  ctx : s'.ctx = s.ctx
  log : s'.log = s.log
  replies : s'.replies = s.replies
  timer : s'.timer = s.timer
  watcher : s'.watcher = s.watcher
  main : s'.main = s.main
  aborts : s'.aborts = s.aborts
  isDone : s'.core.isDone = s.core.isDone

theorem Alike.sameView {s s' : State} (h : Alike s s') : SameView s s' := by
  rcases h.core with ⟨call, hcore, rfl⟩ | ⟨-, failure, rfl⟩
  · exact ⟨rfl, rfl, rfl, rfl, rfl, rfl, rfl, by rw [hcore]; rfl⟩
  · exact ⟨rfl, rfl, rfl, rfl, rfl, rfl, rfl, rfl⟩

section Moves

variable {cfg : Config} {s : State} {core : Core} {onion : List Task}

@[simp] theorem within_main : (s.within core onion).main = s.main := rfl

theorem afterSend_within :
    (s.within core onion).afterSend cfg = (s.afterSend cfg).within core onion := by
  by_cases hresponse : 0 < cfg.chain.onResponse
  · rw [State.afterSend, State.afterSend, if_pos hresponse, if_pos hresponse]
    rfl
  · rw [State.afterSend, State.afterSend, if_neg hresponse, if_neg hresponse]
    rfl

theorem sendOff_within :
    (s.within core onion).sendOff cfg = (s.sendOff cfg).within core onion := by
  have hresponse : (s.within core onion).response cfg = s.response cfg := rfl
  rw [State.sendOff, State.sendOff, hresponse]
  by_cases hconvertible : cfg.convertible (s.response cfg) = true
  · rw [if_pos hconvertible, if_pos hconvertible]
    exact @afterSend_within cfg (s.reply cfg) core onion
  · rw [if_neg hconvertible, if_neg hconvertible]
    rfl

theorem enterOnSend_within :
    (s.within core onion).enterOnSend cfg = (s.enterOnSend cfg).within core onion := by
  by_cases hsend : 0 < cfg.chain.onSend
  · rw [State.enterOnSend, State.enterOnSend, if_pos hsend, if_pos hsend]
    rfl
  · rw [State.enterOnSend, State.enterOnSend, if_neg hsend, if_neg hsend]
    exact sendOff_within

theorem enterPreSerialization_within :
    (s.within core onion).enterPreSerialization cfg =
      (s.enterPreSerialization cfg).within core onion := by
  by_cases hserialize : 0 < cfg.chain.preSerialization
  · rw [State.enterPreSerialization, State.enterPreSerialization, if_pos hserialize,
      if_pos hserialize]
    rfl
  · rw [State.enterPreSerialization, State.enterPreSerialization, if_neg hserialize,
      if_neg hserialize]
    exact enterOnSend_within

theorem lastDefence_within (err : Thrown) :
    (s.within core onion).lastDefence cfg err = (s.lastDefence cfg err).within core onion := by
  by_cases hfinal : s.ctx.finalized = true
  · have hfinal' : (s.within core onion).ctx.finalized = true := hfinal
    rw [State.lastDefence, State.lastDefence, if_pos hfinal, if_pos hfinal']
    exact sendOff_within
  · have hfinal' : ¬ (s.within core onion).ctx.finalized = true := hfinal
    rw [State.lastDefence, State.lastDefence, if_neg hfinal, if_neg hfinal']
    exact @sendOff_within cfg
      { s with ctx := defaultError { s.ctx with body := none } err } core onion

/-- `#handleRequest` looks at the core only to see whether it has ended. -/
theorem resumeMain_within (hdone : core.isDone = s.core.isDone) :
    (s.within core onion).resumeMain cfg =
      (s.resumeMain cfg).map fun t => t.within core onion := by
  have hwon : (s.within core onion).raceWon = s.raceWon := by
    rw [State.raceWon, State.raceWon, ← hdone]
    rfl
  rw [State.resumeMain, State.resumeMain, within_main, hwon]
  cases s.main with
  | idle | settled | rejected => rfl
  | racing =>
      cases s.raceWon with
      | false => rfl
      | true => exact congrArg some enterPreSerialization_within
  | preSerialization loop =>
      dsimp only
      rcases loop.resume cfg.chain.preSerialization false with _ | loop' | _ | e
      · rfl
      · rfl
      · exact congrArg some enterOnSend_within
      · exact congrArg some (lastDefence_within e)
  | onSend loop =>
      dsimp only
      rcases loop.resume cfg.chain.onSend false with _ | loop' | _ | e
      · rfl
      · rfl
      · exact congrArg some sendOff_within
      · exact congrArg some (lastDefence_within e)
  | onResponse loop =>
      dsimp only
      rcases loop.resume cfg.chain.onResponse false with _ | loop' | failure
      · rfl
      · rfl
      · rfl
  | failed => rfl

/-- The labels of the others do not touch the core. -/
def Label.isOther : Label → Bool
  | .start | .next _ | .settle .core _ | .resume .core => false
  | .settle (.task _) _ | .resume (.task _) => false
  | _ => true

theorem step_within {l : Label} (hl : l.isOther = true) (hdone : core.isDone = s.core.isDone) :
    step cfg (s.within core onion) l = (step cfg s l).map fun t => t.within core onion := by
  cases l with
  | start | next => cases hl
  | op f o =>
      rw [step, step]
      have hlog : (s.within core onion).log = s.log := rfl
      rw [hlog]
      split
      · rfl
      · rfl
  | settle strand out =>
      cases strand with
      | core | task => cases hl
      | timer =>
          rw [step, step, State.settle, State.settle]
          have htimer : (s.within core onion).timer = s.timer := rfl
          rw [htimer]
          cases s.timer with
          | off | armed | fired => rfl
          | onTimeout loop =>
              dsimp only
              cases loop.settle out <;> rfl
      | watcher =>
          rw [step, step, State.settle, State.settle]
          have hwatcher : (s.within core onion).watcher = s.watcher := rfl
          rw [hwatcher]
          cases s.watcher with
          | off | waiting | done => rfl
          | onAbort loop =>
              dsimp only
              cases loop.settle out <;> rfl
      | main =>
          rw [step, step, State.settle, State.settle, within_main]
          cases s.main with
          | idle | racing | failed | settled | rejected => rfl
          | preSerialization loop | onSend loop | onResponse loop =>
              dsimp only
              cases loop.settle out <;> rfl
  | resume strand =>
      cases strand with
      | core | task => cases hl
      | main => exact resumeMain_within hdone
      | timer =>
          rw [step, step, State.resume, State.resume, State.resumeTimer, State.resumeTimer]
          have htimer : (s.within core onion).timer = s.timer := rfl
          rw [htimer]
          cases s.timer with
          | off | armed | fired => rfl
          | onTimeout loop =>
              dsimp only
              rcases loop.resume cfg.chain.onTimeout false with _ | loop' | failure <;> rfl
      | watcher =>
          rw [step, step, State.resume, State.resume, State.resumeWatcher, State.resumeWatcher]
          have hwatcher : (s.within core onion).watcher = s.watcher := rfl
          rw [hwatcher]
          cases s.watcher with
          | off | waiting | done => rfl
          | onAbort loop =>
              dsimp only
              rcases loop.resume cfg.chain.onAbort false with _ | loop' | failure <;> rfl
  | fire =>
      rw [step, step, State.fire, State.fire]
      have htimer : (s.within core onion).timer = s.timer := rfl
      have hcore : (s.within core onion).core.isDone = s.core.isDone := hdone
      rw [htimer, hcore]
      cases s.timer with
      | off | onTimeout | fired => rfl
      | armed =>
          dsimp only
          split
          · rfl
          · rfl
  | waitAbort aborted =>
      rw [step, step, State.waitAbort, State.waitAbort]
      have hwatcher : (s.within core onion).watcher = s.watcher := rfl
      have hsettled : (s.within core onion).ctx.settled = s.ctx.settled := rfl
      rw [hwatcher, hsettled]
      cases s.watcher with
      | off | onAbort | done => rfl
      | waiting =>
          dsimp only
          split
          · rfl
          · rfl

theorem handleError_within (err : Thrown) :
    (s.within core onion).handleError cfg err =
      (s.handleError cfg err).within (s.handleError cfg err).core onion := by
  by_cases hnone : cfg.chain.onError = 0
  · simp only [State.handleError, if_pos hnone]
    rfl
  · simp only [State.handleError, if_neg hnone]
    rfl

theorem handleError_late (err : Thrown) : (s.handleError cfg err).core.isLate = true := by
  unfold State.handleError
  split <;> rfl

end Moves

/-! ## Step by step -/

section Steps

variable {cfg : Config} {s s' : State}

theorem Alike.done (h : Alike s s') : s'.core.isDone = s.core.isDone := h.sameView.isDone

theorem Label.isWalk_of_isOther {l : Label} (hl : l.isOther = true) : l.isWalk = false := by
  cases l with
  | start | next => cases hl
  | op | fire | waitAbort => rfl
  | settle strand out => cases strand <;> first | rfl | cases hl
  | resume strand => cases strand <;> first | rfl | cases hl

/-- The steps of the others. -/
theorem Alike.other {l : Label} (h : Alike s s') (hl : l.isOther = true) :
    Option.Rel Alike (step cfg s l) (step cfg s' l) := by
  have hdone := h.done
  have hbeside := fun t (ht : step cfg s l = some t) =>
    beside_step (Label.isWalk_of_isOther hl) ht
  have hnil : ∀ t, step cfg s l = some t → t.onion = [] := fun t ht =>
    List.length_eq_zero_iff.1 ((hbeside t ht).onion.trans (congrArg List.length h.onion))
  rcases h.core with ⟨call, hcore, rfl⟩ | ⟨hlate, failure, rfl⟩
  · rw [@step_within cfg s .onion [.running call] l hl hdone]
    cases hstep : step cfg s l with
    | none => exact .none
    | some t =>
        refine .some ⟨main_step h.started hstep, hnil t hstep, Or.inl ⟨call, ?_, rfl⟩⟩
        exact (hbeside t hstep).core.trans hcore
  · rw [@step_within cfg s s.core [.ended failure] l hl hdone]
    cases hstep : step cfg s l with
    | none => exact .none
    | some t =>
        have hcore := (hbeside t hstep).core
        refine .some ⟨main_step h.started hstep, hnil t hstep, Or.inr ⟨?_, failure, ?_⟩⟩
        · rw [hcore]
          exact hlate
        · rw [hcore]

theorem handleError_main (err : Thrown) : (s.handleError cfg err).main = s.main := by
  unfold State.handleError
  split <;> rfl

/-- The call of the handler is over, with an exception or without one. -/
theorem alike_tried (failure ended : Option Thrown) (hmain : s.main ≠ .idle)
    (honion : s.onion = []) :
    Alike (State.tried cfg (s, failure))
      (State.tried cfg (s.within .onion [.ended ended], failure)) := by
  cases failure with
  | none => exact ⟨hmain, honion, Or.inr ⟨rfl, ended, rfl⟩⟩
  | some e =>
      refine ⟨(handleError_main e).symm ▸ hmain, ?_,
        Or.inr ⟨handleError_late e, ended, handleError_within e⟩⟩
      exact (handleError_onion cfg s e).trans honion

theorem Alike.settleCore (h : Alike s s') (out : Outcome) :
    Option.Rel Alike (s.settle out .core) (onionStep cfg s' (.settle .core out)) := by
  rcases h.core with ⟨call, hcore, rfl⟩ | ⟨hlate, failure, rfl⟩
  · have honion : onionStep cfg (s.within .onion [.running call]) (.settle .core out) =
        (s.within .onion [.running call]).settle out (.task 0) := rfl
    rw [honion, State.settle, State.settle, hcore]
    cases call with
    | some out' => exact .none
    | none => exact .some ⟨h.started, h.onion, Or.inl ⟨some out, rfl, rfl⟩⟩
  · cases hcore : s.core with
    | idle | before | bare | onion =>
        rw [hcore] at hlate
        cases hlate
    | done ending =>
        rw [State.settle, hcore]
        exact .none
    | onError err loop =>
        have honion : onionStep cfg (s.within (.onError err loop) [.ended failure])
            (.settle .core out) =
              (s.within (.onError err loop) [.ended failure]).settle out .core := rfl
        rw [honion, State.settle, State.settle, hcore]
        have hcore' : (s.within (.onError err loop) [.ended failure]).core =
            .onError err loop := rfl
        rw [hcore']
        dsimp only
        cases loop.settle out with
        | none => exact .none
        | some loop' => exact .some ⟨h.started, h.onion, Or.inr ⟨rfl, failure, rfl⟩⟩

/-- The onion passes on what the handler did. -/
theorem onion_resumeCore (hbare : cfg.chain.middleware = 0) (out : Outcome) :
    onionStep cfg (s.within .onion [.running (some out)]) (.resume .core) =
      some (State.tried cfg
        ((s.applied out).1.within .onion [.ended (s.applied out).2], (s.applied out).2)) := by
  have htask : (s.within .onion [.running (some out)]).resumeTask cfg 0 =
      some ((s.applied out).1.within .onion [.ended (s.applied out).2]) := by
    have hget : (s.within .onion [.running (some out)]).onion[0]? =
        some (.running (some out)) := rfl
    rw [State.resumeTask, hget]
    dsimp only
    rw [if_neg (Nat.not_lt.2 (Nat.le_of_eq hbare))]
    cases out <;> rfl
  have honion : onionStep cfg (s.within .onion [.running (some out)]) (.resume .core) =
      ((s.within .onion [.running (some out)]).resumeTask cfg 0).bind
        fun t => t.resumeCore cfg := rfl
  rw [honion, htask]
  rfl

theorem Alike.resumeCore (hbare : cfg.chain.middleware = 0) (h : Alike s s') :
    Option.Rel Alike (s.resumeCore cfg) (onionStep cfg s' (.resume .core)) := by
  rcases h.core with ⟨call, hcore, rfl⟩ | ⟨hlate, failure, rfl⟩
  · rw [State.resumeCore, hcore]
    cases call with
    | none => exact .none
    | some out =>
        rw [onion_resumeCore hbare]
        refine .some (alike_tried _ _ ?_ ?_)
        · cases out <;> exact h.started
        · cases out <;> exact h.onion
  · cases hcore : s.core with
    | idle | before | bare | onion =>
        rw [hcore] at hlate
        cases hlate
    | done ending =>
        rw [State.resumeCore, hcore]
        exact .none
    | onError err loop =>
        have honion : onionStep cfg (s.within (.onError err loop) [.ended failure])
            (.resume .core) =
              (s.within (.onError err loop) [.ended failure]).resumeCore cfg := rfl
        rw [honion, State.resumeCore, State.resumeCore, hcore]
        have hcore' : (s.within (.onError err loop) [.ended failure]).core =
            .onError err loop := rfl
        rw [hcore']
        dsimp only
        rcases loop.resume cfg.chain.onError false with _ | loop' | _ | e2
        · exact .none
        · exact .some ⟨h.started, h.onion, Or.inr ⟨rfl, failure, rfl⟩⟩
        · exact .some ⟨h.started, h.onion, Or.inr ⟨rfl, failure, rfl⟩⟩
        · exact .some ⟨h.started, h.onion, Or.inr ⟨rfl, failure, rfl⟩⟩

/-- The two take the same steps. -/
theorem Alike.step (hbare : cfg.chain.middleware = 0) (h : Alike s s') (l : Label) :
    Option.Rel Alike (step cfg s l) (onionStep cfg s' l) := by
  have hmain : s'.main ≠ .idle := h.sameView.main ▸ h.started
  have hstart : ∀ u : State, u.main ≠ .idle → Pipeline.step cfg u .start = none := by
    intro u hu
    cases hstep : Pipeline.step cfg u .start with
    | none => rfl
    | some v => exact absurd (start_eq hstep).1 hu
  have hnext : ∀ (u : State) (i : Nat), Pipeline.step cfg u (.next i) = none := fun u i => by
    rw [Pipeline.step, next_eq_dispatch, if_neg]
    rw [hbare]
    exact fun hi => Nat.not_lt_zero i hi.2
  cases l with
  | start =>
      have honion : onionStep cfg s' .start = Pipeline.step cfg s' .start := rfl
      rw [hstart s h.started, honion, hstart s' hmain]
      exact .none
  | next i =>
      have honion : onionStep cfg s' (.next i) = Pipeline.step cfg s' (.next i) := rfl
      rw [hnext, honion, hnext]
      exact .none
  | op f o => exact h.other rfl
  | fire => exact h.other rfl
  | waitAbort aborted => exact h.other rfl
  | settle strand out =>
      cases strand with
      | core => exact h.settleCore out
      | task i =>
          have hnone : Pipeline.step cfg s (.settle (.task i) out) = none := by
            rw [Pipeline.step, State.settle, h.onion]
            rfl
          rw [hnone]
          exact .none
      | timer | watcher | main => exact h.other rfl
  | resume strand =>
      cases strand with
      | core => exact h.resumeCore hbare
      | task i =>
          have hnone : Pipeline.step cfg s (.resume (.task i)) = none := by
            rw [Pipeline.step, State.resume, State.resumeTask, h.onion]
            rfl
          rw [hnone]
          exact .none
      | timer | watcher | main => exact h.other rfl

theorem alike_enter (hbare : cfg.chain.middleware = 0) (hmain : s.main ≠ .idle)
    (honion : s.onion = []) (hopen : s.ctx.finalized = false) :
    Alike (s.enterHandler cfg) (s.runOnion cfg) := by
  have hfinal : ¬ s.ctx.finalized = true := by simp [hopen]
  have hnone : ¬ 0 < cfg.chain.middleware := Nat.not_lt.2 (Nat.le_of_eq hbare)
  rw [State.enterHandler, if_neg hfinal, if_pos hbare, State.runOnion, if_neg hnone]
  exact ⟨hmain, honion, Or.inl ⟨none, rfl, rfl⟩⟩

end Steps

/-- From the end of the "before" stages on, every list of labels leads the bare call and
the onion over the empty list to the same view, or neither of them can take it. -/
theorem bare_eq_onion {cfg : Config} (hbare : cfg.chain.middleware = 0) {s : State}
    (hmain : s.main ≠ .idle) (honion : s.onion = []) (hopen : s.ctx.finalized = false)
    (ls : List Label) :
    Option.Rel SameView (Transition.run (step cfg) (s.enterHandler cfg) ls)
      (Transition.run (onionStep cfg) (s.runOnion cfg) ls) := by
  have halike := Transition.run_rel Alike (fun s a l h => h.step hbare l)
    (alike_enter hbare hmain honion hopen) ls
  revert halike
  cases Transition.run (step cfg) (s.enterHandler cfg) ls <;>
    cases Transition.run (onionStep cfg) (s.runOnion cfg) ls
  · exact fun _ => .none
  · nofun
  · nofun
  · rintro ⟨h⟩
    exact .some h.sameView

/-- The steps of the onion are steps of the request. -/
theorem onionStep_run {cfg : Config} {s t : State} {l : Label}
    (h : onionStep cfg s l = some t) : ∃ ls, Transition.run (step cfg) s ls = some t := by
  have hone : ∀ l, step cfg s l = some t → ∃ ls, Transition.run (step cfg) s ls = some t :=
    fun l hl => ⟨[l], Transition.run_cons_some.2 ⟨t, hl, rfl⟩⟩
  unfold onionStep at h
  split at h
  case h_1 out =>
    split at h
    · exact hone (.settle (.task 0) out) h
    · exact hone (.settle .core out) h
  case h_2 =>
    split at h
    · obtain ⟨u, hu, hut⟩ := Option.bind_eq_some_iff.1 h
      exact ⟨[.resume (.task 0), .resume .core],
        Transition.run_cons_some.2 ⟨u, hu, Transition.run_cons_some.2 ⟨t, hut, rfl⟩⟩⟩
    · exact hone (.resume .core) h
  case h_3 => cases h
  case h_4 => cases h
  case h_5 => exact hone l h

theorem onion_run {cfg : Config} {s t : State} {ls : List Label}
    (h : Transition.run (onionStep cfg) s ls = some t) :
    ∃ ms, Transition.run (step cfg) s ms = some t := by
  induction ls generalizing s with
  | nil => exact ⟨[], h⟩
  | cons l ls ih =>
      obtain ⟨u, hu, hut⟩ := Transition.run_cons_some.1 h
      obtain ⟨front, hfront⟩ := onionStep_run hu
      obtain ⟨back, hback⟩ := ih hut
      exact ⟨front ++ back, Transition.run_append_some.2 ⟨u, hfront, hback⟩⟩

end Pipeline
end OxideHttp
