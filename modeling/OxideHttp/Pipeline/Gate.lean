import OxideHttp.Pipeline.Timeout
import OxideHttp.Pipeline.TraceRun

/-!
# A hook that refuses (`js/pipeline.ts`)

A "before" hook that answers, or throws, before it settles keeps the request from middleware
and handler, whatever the timer, the watcher and code that is still running do meanwhile.

Results.
* `Expired.step`: a timer that has fired has left an answer, unless the core was done.
* `running_or_settled`: a hook that was called is running, or it has settled.
* `not_entered_of_refuses`: behind a hook that refuses nothing of the onion is called.
-/

namespace OxideHttp
namespace Pipeline

open Context Transition

section Steps

variable {cfg : Config} {s t : State}

/-! ## The timer -/

/-- A timer that has fired has left an answer, unless the core was done. -/
def Expired (s : State) : Prop :=
  s.timer.isFired = true → s.ctx.finalized = true ∨ s.core.isDone = true

theorem Expired.of (h : Expired s) (hfired : t.timer.isFired = true → s.timer.isFired = true)
    (hfinal : s.ctx.finalized = true → t.ctx.finalized = true)
    (hdone : s.core.isDone = true → t.core.isDone = true) : Expired t :=
  fun ht => (h (hfired ht)).imp hfinal hdone

theorem latch_expired (hraced : Raced s) (hopen : s.timer.isFired = false)
    (failure : Option Thrown) : Expired (s.latch failure) := by
  intro _
  cases hfinal : s.ctx.finalized with
  | true => exact Or.inl (by simp [State.latch, State.timedOut, hfinal])
  | false =>
      cases hsettled : s.ctx.settled with
      | false =>
          exact Or.inl (by simp [State.latch, State.timedOut, hfinal, hsettled, Ctx.text,
            Ctx.mutate])
      | true =>
          -- the response has gone, so the core has won the race
          have hpassed := (hraced.settled hsettled).resolve_left
            (fun hs => Bool.false_ne_true (hopen.symm.trans hs))
          have hwon := hraced.won (hraced.passed hpassed)
          rw [State.raceWon, hopen, Bool.or_false] at hwon
          exact Or.inr hwon

theorem Expired.step {l : Label} (h : Expired s) (hraced : Raced s)
    (hstep : Pipeline.step cfg s l = some t) : Expired t := by
  cases l with
  | start =>
      obtain ⟨_, rfl⟩ := start_eq hstep
      intro hfired
      rw [(State.runCore_move cfg (s.launch cfg)).timer] at hfired
      simp only [State.launch] at hfired
      split at hfired <;> cases hfired
  | op f o =>
      obtain ⟨_, rfl⟩ := op_eq hstep
      exact h.of id (apply_finalized o) id
  | next i =>
      obtain ⟨hframe, _, hcore, _⟩ := State.next_frame hstep
      exact h.of (fun ht => hframe.timer ▸ ht) hframe.finalized fun hs => hcore ▸ hs
  | settle strand out =>
      have hmove := State.settle_move hstep
      refine h.of (fun ht => ?_) (fun hs => hmove.ctx ▸ hs) fun hs => hmove.done.trans hs
      rcases hmove.timer with htimer | hopen
      · exact htimer ▸ ht
      · exact absurd ((Timer.isFired_of_isOpen (hmove.opened.trans hopen)).symm.trans ht)
          Bool.false_ne_true
  | resume strand =>
      cases strand with
      | core =>
          have hmove := State.resumeCore_move hstep
          refine h.of (fun ht => hmove.timer ▸ ht) hmove.finalized fun hs => ?_
          exact absurd ((State.resumeCore_undone hstep).symm.trans hs) Bool.false_ne_true
      | task i =>
          obtain ⟨hframe, hcore, _⟩ := State.resumeTask_frame hstep
          exact h.of (fun ht => hframe.timer ▸ ht) hframe.finalized fun hs => hcore ▸ hs
      | timer =>
          obtain ⟨loop, htimer, ⟨loop', _, rfl⟩ | ⟨failure, _, rfl⟩⟩ := State.resumeTimer_eq hstep
          · exact fun ht => absurd ht Bool.false_ne_true
          · exact latch_expired hraced (by rw [htimer]; rfl) failure
      | watcher =>
          have hmove := State.resumeWatcher_move hstep
          exact h.of (fun ht => hmove.timer ▸ ht)
            (fun hs => (finalized_of_view hmove.view).trans hs) fun hs => hmove.core ▸ hs
      | main =>
          have hmove := State.resumeMain_move hstep
          exact h.of (fun ht => hmove.timer ▸ ht) (beside_resumeMain hstep).finalized
            fun hs => hmove.core ▸ hs
  | fire =>
      obtain ⟨_, _, rfl⟩ := State.fire_eq hstep
      exact fun ht => absurd ht Bool.false_ne_true
  | waitAbort aborted =>
      have hmove := State.waitAbort_move hstep
      exact h.of (fun ht => hmove.timer ▸ ht)
        (fun hs => (finalized_of_view hmove.view).trans hs) fun hs => hmove.core ▸ hs

/-- What has settled the context of a running core has left an answer. -/
theorem finalized_of_settled (hraced : Raced s) (h : Expired s)
    (hrunning : s.core.isDone = false) (hsettled : s.ctx.settled = true) :
    s.ctx.finalized = true := by
  have hfired : s.timer.isFired = true := by
    rcases hraced.settled hsettled with hfired | hpassed
    · exact hfired
    · have hwon := hraced.won (hraced.passed hpassed)
      rw [State.raceWon, hrunning, Bool.false_or] at hwon
      exact hwon
  exact (h hfired).resolve_right fun hdone => Bool.false_ne_true (hrunning.symm.trans hdone)

/-! ## The calls of "before" hooks -/

/-- The step adds to the log, and it has just called what it adds of the "before" hooks. -/
def Adds (s t : State) : Prop :=
  ∃ fns, t.log = s.log ++ fns ∧
    ∀ stage k, .before stage k ∈ fns → t.core = .before stage (.hook k none)

theorem adds_of_log (h : t.log = s.log) : Adds s t :=
  ⟨[], h.trans (List.append_nil _).symm, fun _ _ hmem => absurd hmem List.not_mem_nil⟩

theorem adds_called {fn : Nat → Fn} {loop : Loop} (h : t.log = s.log ++ loop.called fn)
    (hfn : ∀ k stage j, fn k ≠ .before stage j) : Adds s t := by
  refine ⟨_, h, fun stage j hmem => ?_⟩
  obtain ⟨k, hk⟩ := Loop.mem_called hmem
  exact absurd hk.symm (hfn k stage j)

theorem adds_single {f : Fn} (h : t.log = s.log ++ [f]) (hf : f.isInner = true) : Adds s t := by
  refine ⟨_, h, fun stage j hmem => ?_⟩
  rw [← List.mem_singleton.1 hmem] at hf
  cases hf

theorem adds_toCore (s : State) (stage : BeforeStage) (loop : Loop) :
    Adds s (s.toCore (.before stage) (.before stage) loop) := by
  refine ⟨loop.called (.before stage), rfl, fun stage' k hmem => ?_⟩
  cases loop with
  | ended failure => cases hmem
  | hook j call =>
      cases call with
      | some out => cases hmem
      | none =>
          obtain ⟨rfl, rfl⟩ := Fn.before.inj (List.mem_singleton.1 hmem)
          rfl

theorem adds_enterHandler (s : State) : Adds s (s.enterHandler cfg) := by
  unfold State.enterHandler
  split
  case isTrue => exact adds_of_log rfl
  case isFalse =>
    split
    case isTrue => exact adds_single rfl rfl
    case isFalse => exact adds_single rfl rfl

theorem adds_enterStage (s : State) (stage : BeforeStage) : Adds s (s.enterStage cfg stage) := by
  unfold State.enterStage
  split
  case isTrue => exact adds_enterHandler s
  case isFalse => exact adds_toCore s stage _

theorem adds_handleError (s : State) (err : Thrown) : Adds s (s.handleError cfg err) := by
  unfold State.handleError
  split
  case isTrue => exact adds_of_log rfl
  case isFalse => exact adds_called rfl fun _ _ _ => by simp

theorem adds_tried (s : State) (failure : Option Thrown) :
    Adds s (State.tried cfg (s, failure)) := by
  cases failure with
  | none => exact adds_of_log rfl
  | some e => exact adds_handleError s e

theorem adds_resumeCore (h : s.resumeCore cfg = some t) : Adds s t := by
  cases State.resumeCore_resumed h with
  | before => exact adds_toCore s _ _
  | stage => exact adds_enterStage s _
  | handler => exact adds_enterHandler s
  | beforeThrew => exact adds_handleError s _
  | @bare out =>
      have hlog : (s.applied out).1.log = s.log := by cases out <;> rfl
      have hadds : Adds (s.applied out).1 (State.tried cfg (s.applied out)) := adds_tried _ _
      obtain ⟨fns, hfns, hcalled⟩ := hadds
      exact ⟨fns, hfns.trans (by rw [hlog]), hcalled⟩
  | onion => exact adds_tried s _
  | onError => exact adds_called rfl fun _ _ _ => by simp
  | @handled _ _ failure => exact adds_of_log (by cases failure <;> rfl)

/-- A step calls a hook by taking the core to it, and it takes nothing back. -/
theorem calls_step {l : Label} (hstep : Pipeline.step cfg s l = some t) :
    ∃ fns, t.calls = s.calls ++ fns ∧
      ∀ stage k, .before stage k ∈ fns → t.core = .before stage (.hook k none) := by
  have hadds (h : Adds s t) : ∃ fns, t.calls = s.calls ++ fns ∧
      ∀ stage k, .before stage k ∈ fns → t.core = .before stage (.hook k none) := by
    obtain ⟨fns, hlog, hcalled⟩ := h
    refine ⟨fns.filter Fn.isRoute, ?_, fun stage k hmem => ?_⟩
    · rw [State.calls, hlog, List.filter_append, State.calls]
    · exact hcalled stage k (List.mem_filter.1 hmem).1
  cases hl : l.isWalk with
  | false =>
      exact ⟨[], (beside_step hl hstep).calls.trans (List.append_nil _).symm,
        fun _ _ hmem => absurd hmem List.not_mem_nil⟩
  | true =>
      refine hadds ?_
      cases l with
      | op | fire | waitAbort => cases hl
      | start =>
          obtain ⟨_, rfl⟩ := start_eq hstep
          unfold State.runCore
          split
          case isTrue => exact adds_enterStage (s.launch cfg) _
          case isFalse => exact adds_enterHandler (s.launch cfg)
      | next i =>
          obtain ⟨_, ⟨_, _, rfl⟩ | ⟨_, _, _, hlog⟩⟩ := next_cases hstep
          · exact adds_of_log rfl
          · exact adds_single hlog (onionCall_isInner cfg.chain _)
      | settle strand out => exact adds_of_log (State.settle_move hstep).log
      | resume strand =>
          cases strand with
          | main | task | timer | watcher => cases hl
          | core => exact adds_resumeCore hstep

/-- A hook that is running goes on until it settles. -/
theorem core_of_running {l : Label} {stage : BeforeStage} {k : Nat}
    (hcore : s.core = .before stage (.hook k none)) (hmain : s.main ≠ .idle)
    (hstep : Pipeline.step cfg s l = some t) :
    (∃ out, l = .settle .core out) ∨ t.core = s.core := by
  cases hl : l.isWalk with
  | false => exact Or.inr (beside_step hl hstep).core
  | true =>
      cases l with
      | op | fire | waitAbort => cases hl
      | start => exact absurd (start_eq hstep).1 hmain
      | next i =>
          obtain ⟨_, _, hsame, _⟩ := State.next_frame hstep
          exact Or.inr hsame
      | settle strand out =>
          cases strand with
          | main | task | timer | watcher => cases hl
          | core => exact Or.inl ⟨out, rfl⟩
      | resume strand =>
          cases strand with
          | main | task | timer | watcher => cases hl
          | core =>
              simp [Pipeline.step, State.resume, State.resumeCore, hcore, Loop.resume] at hstep

/-- While a "before" hook is running or has just settled, nothing of the onion is called. -/
theorem Trace.not_entered {threw : Prop} (h : Trace cfg threw s) {stage : BeforeStage} {k : Nat}
    {call : Awaited} (hcore : s.core = .before stage (.hook k call)) : ¬ s.Entered := by
  have hat := h.core
  rw [hcore] at hat
  obtain ⟨_, hk, hcalls⟩ := hat
  rw [entered_iff]
  rintro ⟨f, hf, hinner⟩
  rw [hcalls] at hf
  have hfront := isInner_of_mem_beforeHooks cfg.chain
    ((hooksThrough_isPrefix cfg.chain hk).subset hf)
  exact Bool.false_ne_true (hfront.symm.trans hinner)

end Steps

/-! ## Runs -/

section Runs

variable {cfg : Config} {s : State} {ls : List Label} {stage : BeforeStage} {k : Nat}

/-- In the run `ms` the hook is being awaited at its end. -/
def RunningAt (cfg : Config) (stage : BeforeStage) (k : Nat) (ms : List Label) : Prop :=
  ∃ u, run (step cfg) (State.init cfg) ms = some u ∧ u.core = .before stage (.hook k none)

/-- A hook that was called is running, or it has settled in the run. -/
theorem running_or_settled (hrun : run (step cfg) (State.init cfg) ls = some s)
    (hcalled : .before stage k ∈ s.calls) :
    s.core = .before stage (.hook k none) ∨
      ∃ ms out, ms ++ [.settle .core out] <+: ls ∧ RunningAt cfg stage k ms := by
  have hhistory : Traced cfg s ls ∧ (.before stage k ∈ s.calls →
      s.core = .before stage (.hook k none) ∨
        ∃ ms out, ms ++ [.settle .core out] <+: ls ∧ RunningAt cfg stage k ms) := by
    refine run_history (J := fun s ls => Traced cfg s ls ∧ (.before stage k ∈ s.calls →
      s.core = .before stage (.hook k none) ∨
        ∃ ms out, ms ++ [.settle .core out] <+: ls ∧ RunningAt cfg stage k ms))
      ⟨traced_run rfl, fun hmem => absurd hmem List.not_mem_nil⟩ ?_ hrun
    rintro s ls l t ⟨htraced, hs⟩ hstep
    refine ⟨htraced.step hstep, fun hmem => ?_⟩
    obtain ⟨fns, hcalls, hnew⟩ := calls_step hstep
    rw [hcalls, List.mem_append] at hmem
    rcases hmem with hold | hadded
    · rcases hs hold with hcore | ⟨ms, out, hms, hat⟩
      · have hmain : s.main ≠ .idle := fun hidle => by
          rw [htraced.trace.fresh hidle] at hcore
          cases hcore
        rcases core_of_running hcore hmain hstep with ⟨out, rfl⟩ | hsame
        · exact Or.inr ⟨ls, out, List.prefix_refl _, s, htraced.run, hcore⟩
        · exact Or.inl (hsame.trans hcore)
      · exact Or.inr ⟨ms, out, hms.trans (List.prefix_append ls [l]), hat⟩
    · exact Or.inl (hnew stage k hadded)
  exact hhistory.2 hcalled

/-- The hook settles with an exception, or with an answer that it gave while it ran. -/
def Refuses (cfg : Config) (stage : BeforeStage) (k : Nat) (ls : List Label) : Prop :=
  ∀ ms out, ms ++ [.settle .core out] <+: ls → RunningAt cfg stage k ms →
    (∃ e, out = .threw e) ∨
      ∃ ns o, ns ++ [.op (.before stage k) o] <+: ms ∧ RunningAt cfg stage k ns ∧
        ∀ c : Ctx, c.settled = false → (o.apply c).finalized = true

theorem raced_expired (hrun : run (step cfg) (State.init cfg) ls = some s) :
    Raced s ∧ Expired s :=
  run_invariant (I := fun s => Raced s ∧ Expired s)
    (fun _ _ _ h hstep => ⟨h.1.step hstep, h.2.step h.1 hstep⟩)
    ⟨raced_init cfg, fun hfired => absurd hfired Bool.false_ne_true⟩ hrun

/-- Once a hook has thrown, nothing of the onion is called. -/
theorem not_entered_of_threw {ms : List Label} {e : Thrown}
    (hrun : run (step cfg) (State.init cfg) ls = some s)
    (hms : ms ++ [.settle .core (.threw e)] <+: ls) (hat : RunningAt cfg stage k ms) :
    ¬ s.Entered := by
  have hends := (traced_run hrun).endsAtResponse.ends
  obtain ⟨u, hu, hcore⟩ := hat
  obtain ⟨rest, hrest⟩ := hms
  rw [← hrest] at hrun
  obtain ⟨u', hu', _⟩ := run_append_some.1 hrun
  obtain ⟨w, hw, hsettle⟩ := run_concat_some.1 hu'
  obtain rfl := Option.some.inj (hu.symm.trans hw)
  have hthrew : u'.core = .before stage (.hook k (some (.threw e))) := by
    simp only [step, State.settle, hcore, Loop.settle, Option.map_some,
      Option.some.injEq] at hsettle
    rw [← hsettle]
  have hfront := (traced_run hu').trace.not_entered hthrew
  exact (hends _ u' ⟨rest, hrest⟩ hu' hfront (Or.inr ⟨stage, k, e, hthrew⟩)).2

/-- Once a hook has answered while it ran, nothing of the onion is called. -/
theorem not_entered_of_answer {ns : List Label} {o : Op}
    (hrun : run (step cfg) (State.init cfg) ls = some s)
    (hns : ns ++ [.op (.before stage k) o] <+: ls) (hat : RunningAt cfg stage k ns)
    (hanswers : ∀ c : Ctx, c.settled = false → (o.apply c).finalized = true) : ¬ s.Entered := by
  have hends := (traced_run hrun).endsAtResponse.ends
  obtain ⟨v, hv, hcore⟩ := hat
  obtain ⟨rest, hrest⟩ := hns
  rw [← hrest] at hrun
  obtain ⟨w, hw, _⟩ := run_append_some.1 hrun
  obtain ⟨v', hv', hop⟩ := run_concat_some.1 hw
  obtain rfl := Option.some.inj (hv.symm.trans hv')
  obtain ⟨_, rfl⟩ := op_eq hop
  obtain ⟨hraced, hexpired⟩ := raced_expired hv
  have hfinal : (o.apply v.ctx).finalized = true := by
    cases hsettled : v.ctx.settled with
    | false => exact hanswers v.ctx hsettled
    | true =>
        exact apply_finalized o
          (finalized_of_settled hraced hexpired (by rw [hcore]; rfl) hsettled)
  have hfront := (traced_run hw).trace.not_entered hcore
  exact (hends _ _ ⟨rest, hrest⟩ hw hfront (Or.inl hfinal)).2

/-- Behind a hook that refuses, neither middleware nor handler is called. -/
theorem not_entered_of_refuses (hk : k < cfg.chain.before stage)
    (hrun : run (step cfg) (State.init cfg) ls = some s) (hrefuses : Refuses cfg stage k ls) :
    ¬ s.Entered := by
  intro hentered
  have htraced := traced_run hrun
  have hcalled : .before stage k ∈ s.calls := by
    rcases htraced.trace.walk with ⟨_, hfront⟩ | ⟨m, _, _, hcalls, _⟩
    · obtain ⟨f, hf, hinner⟩ := entered_iff.1 hentered
      have hhook := isInner_of_mem_beforeHooks cfg.chain (hfront.subset hf)
      exact absurd (hhook.symm.trans hinner) Bool.false_ne_true
    · rw [hcalls]
      refine List.mem_append_left _ ((stageHooks_isPrefix cfg.chain stage).subset ?_)
      exact List.mem_append_right _ (List.mem_map_of_mem (List.mem_range.2 hk))
  rcases running_or_settled hrun hcalled with hcore | ⟨ms, out, hms, hat⟩
  · exact htraced.trace.not_entered hcore hentered
  · rcases hrefuses ms out hms hat with ⟨e, rfl⟩ | ⟨ns, o, hns, hat', hanswers⟩
    · exact not_entered_of_threw hrun hms hat hentered
    · have hprefix := (hns.trans (List.prefix_append ms _)).trans hms
      exact not_entered_of_answer hrun hprefix hat' hanswers hentered

end Runs

end Pipeline
end OxideHttp
