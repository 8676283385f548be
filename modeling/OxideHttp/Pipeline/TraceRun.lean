import Mathlib.Data.List.Nodup
import OxideHttp.Pipeline.Bare

/-!
# The way of a request through a run (`src/js/pipeline.ts`)

A request that is `Closed` calls nothing more of its route, and the calls of `next` are
counted by the onion.

Results.
* `pipeline_trace`: the calls are the first ones of the route, each once; among the "before"
  hooks they end where a response is set or a hook throws, and nowhere else; a middleware
  calls the next function with its first `next`, and nothing with the others; without
  middleware it is as with the onion over the empty list.
-/

namespace OxideHttp
namespace Pipeline

open Context

section Core

variable {cfg : Config} {s t : State} {threw : Prop}

/-! ## A request that has stopped -/

/-- Nothing on the route will be called: a response is set or a hook has thrown, and the
core knows it or will find out. -/
def Closed (s : State) : Prop :=
  s.onion = [] ∧
    match s.core with
    | .before _ loop => s.ctx.finalized = true ∨ loop.failing = true
    | .onError .. | .done _ => True
    | .idle | .bare _ | .onion => False

theorem closed_handleError (err : Thrown) (honion : s.onion = []) :
    Closed (s.handleError cfg err) ∧ (s.handleError cfg err).calls = s.calls := by
  unfold State.handleError
  split
  case isTrue => exact ⟨⟨honion, trivial⟩, rfl⟩
  case isFalse => exact ⟨⟨honion, trivial⟩, calls_called rfl fun _ => rfl⟩

theorem closed_enterHandler (honion : s.onion = []) (hfinal : s.ctx.finalized = true) :
    Closed (s.enterHandler cfg) ∧ (s.enterHandler cfg).calls = s.calls := by
  rw [State.enterHandler, if_pos hfinal]
  exact ⟨⟨honion, trivial⟩, rfl⟩

theorem Closed.resumeCore (h : Closed s) (hresume : s.resumeCore cfg = some t) :
    Closed t ∧ t.calls = s.calls := by
  obtain ⟨honion, hcause⟩ := h
  cases State.resumeCore_resumed hresume with
  | @before stage _ _ hcore hnext =>
      rw [hcore] at hcause
      obtain ⟨k, out, rfl, rfl⟩ := Loop.resume_inl hnext
      cases out with
      | threw e => exact ⟨⟨honion, Or.inr rfl⟩, calls_ended s stage (some e)⟩
      | returned v =>
          have hfinal := hcause.resolve_right Bool.false_ne_true
          simp only [Loop.after, hfinal, Bool.true_or, if_true]
          exact ⟨⟨honion, Or.inl hfinal⟩, calls_ended s stage none⟩
  | stage hcore hnext =>
      rw [hcore] at hcause
      obtain rfl := Loop.resume_inr hnext
      have hfinal := hcause.resolve_right Bool.false_ne_true
      rw [State.enterStage, if_pos hfinal]
      exact closed_enterHandler honion hfinal
  | handler hcore hnext =>
      rw [hcore] at hcause
      obtain rfl := Loop.resume_inr hnext
      exact closed_enterHandler honion (hcause.resolve_right Bool.false_ne_true)
  | beforeThrew => exact closed_handleError _ honion
  | bare hcore | onion hcore =>
      rw [hcore] at hcause
      exact hcause.elim
  | onError => exact ⟨⟨honion, trivial⟩, calls_called rfl fun _ => rfl⟩
  | @handled _ _ failure => cases failure <;> exact ⟨⟨honion, trivial⟩, rfl⟩

theorem Closed.settleCore {out : Outcome} (h : Closed s)
    (hsettle : s.settle out .core = some t) : Closed t ∧ t.calls = s.calls := by
  obtain ⟨honion, hcause⟩ := h
  cases State.settle_settled hsettle with
  | before hcore =>
      rw [hcore] at hcause
      exact ⟨⟨honion, Or.inl (hcause.resolve_right Bool.false_ne_true)⟩, rfl⟩
  | bare hcore =>
      rw [hcore] at hcause
      exact hcause.elim
  | onError => exact ⟨⟨honion, trivial⟩, rfl⟩

theorem Closed.beside (h : Closed s) (hbeside : Beside s t) : Closed t := by
  obtain ⟨honion, hcause⟩ := h
  refine ⟨List.length_eq_zero_iff.1 (hbeside.onion.trans (congrArg List.length honion)), ?_⟩
  rw [hbeside.core]
  cases hcore : s.core with
  | idle | bare | onion =>
      rw [hcore] at hcause
      exact hcause.elim
  | before stage loop =>
      rw [hcore] at hcause
      exact hcause.imp_left hbeside.finalized
  | onError | done => trivial

theorem Closed.step {l : Label} (h : Closed s) (hmain : s.main ≠ .idle)
    (hstep : step cfg s l = some t) : Closed t ∧ t.calls = s.calls := by
  cases hl : l.isWalk with
  | false =>
      have hbeside := beside_step hl hstep
      exact ⟨h.beside hbeside, hbeside.calls⟩
  | true =>
      cases l with
      | op | fire | waitAbort => cases hl
      | start => exact absurd (start_eq hstep).1 hmain
      | next i =>
          have hnone : s.next cfg i = none := by
            rw [next_eq_dispatch, h.1, if_neg fun hi => Nat.not_lt_zero i hi.1]
          rw [Pipeline.step, hnone] at hstep
          cases hstep
      | settle strand out =>
          cases strand with
          | main | task | timer | watcher => cases hl
          | core => exact h.settleCore hstep
      | resume strand =>
          cases strand with
          | main | task | timer | watcher => cases hl
          | core => exact h.resumeCore hstep

theorem Inner.entered (h : Inner cfg.chain s) : s.Entered := by
  obtain ⟨m, hpos, hle, hcalls, -⟩ := h
  have hmem : onionCall cfg.chain 0 ∈ s.calls := by
    rw [hcalls]
    refine List.mem_append_right _ (List.mem_take_iff_getElem.2 ⟨0, ?_, ?_⟩)
    · simp [onionCalls, hpos]
    · simp [onionCalls]
  exact ⟨_, (List.mem_filter.1 hmem).1, onionCall_isInner cfg.chain 0⟩

theorem Trace.closed (h : Trace cfg threw s) (hfront : ¬ s.Entered)
    (hcause : s.ctx.finalized = true ∨ s.HookThrew) : Closed s := by
  have hcore := h.core
  cases hpc : s.core with
  | idle =>
      rw [hpc] at hcore
      rcases hcause with hfinal | ⟨stage, k, e, hhook⟩
      · rw [hcore] at hfinal
        cases hfinal
      · rw [hpc] at hhook
        cases hhook
  | before stage loop =>
      rw [hpc] at hcore
      refine ⟨hcore.1, ?_⟩
      rw [hpc]
      refine hcause.imp_right ?_
      rintro ⟨stage', k, e, hhook⟩
      rw [hpc] at hhook
      obtain ⟨rfl, rfl⟩ := Core.before.inj hhook
      rfl
  | bare call =>
      rw [hpc] at hcore
      exact absurd hcore.2.entered hfront
  | onion =>
      rw [hpc] at hcore
      exact absurd hcore.2.entered hfront
  | onError | done =>
      rw [hpc] at hcore
      have hstop := hcore.resolve_right fun hinner => hfront hinner.entered
      refine ⟨hstop.onion, ?_⟩
      rw [hpc]
      trivial

/-! ## Calls of `next` along a run -/

theorem enterHandler_onion (cfg : Config) (s : State) :
    (s.enterHandler cfg).onion = s.onion ∨ (s.enterHandler cfg).onion.length = 1 := by
  unfold State.enterHandler
  split
  case isTrue => exact Or.inl rfl
  case isFalse =>
    split
    case isTrue => exact Or.inl rfl
    case isFalse => exact Or.inr rfl

theorem enterStage_onion (cfg : Config) (s : State) (stage : BeforeStage) :
    (s.enterStage cfg stage).onion = s.onion ∨ (s.enterStage cfg stage).onion.length = 1 := by
  unfold State.enterStage
  split
  case isTrue => exact enterHandler_onion cfg s
  case isFalse => exact Or.inl rfl

theorem runCore_onion (cfg : Config) (s : State) :
    (s.runCore cfg).onion = s.onion ∨ (s.runCore cfg).onion.length = 1 := by
  unfold State.runCore
  split
  case isTrue => exact enterStage_onion cfg s _
  case isFalse => exact enterHandler_onion cfg s

theorem tried_onion (cfg : Config) (s : State) (failure : Option Thrown) :
    (State.tried cfg (s, failure)).onion = s.onion := by
  cases failure with
  | none => rfl
  | some e => exact handleError_onion cfg s e

/-- The core makes an onion only when it leaves the "before" stages. -/
theorem resumeCore_onion (h : s.resumeCore cfg = some t) :
    t.onion = s.onion ∨ (∃ stage loop, s.core = .before stage loop) ∧ t.onion.length = 1 := by
  cases State.resumeCore_resumed h with
  | before | onError => exact Or.inl rfl
  | stage hcore => exact (enterStage_onion cfg s _).imp_right fun hone => ⟨⟨_, _, hcore⟩, hone⟩
  | handler hcore => exact (enterHandler_onion cfg s).imp_right fun hone => ⟨⟨_, _, hcore⟩, hone⟩
  | beforeThrew => exact Or.inl (handleError_onion cfg s _)
  | @bare out =>
      refine Or.inl ((tried_onion cfg _ _).trans ?_)
      cases out <;> rfl
  | onion => exact Or.inl (tried_onion cfg s _)
  | @handled _ _ failure => cases failure <;> exact Or.inl rfl

theorem settleCore_onion {out : Outcome} (h : s.settle out .core = some t) :
    t.onion = s.onion := by
  cases State.settle_settled h with
  | before | bare | onError => rfl

/-- Only `next` calls behind the first function of the onion. -/
theorem Trace.deeper {l : Label} (h : Trace cfg threw s) (hstep : Pipeline.step cfg s l = some t)
    (hnext : ∀ i, l ≠ .next i) (i : Nat) : i + 1 < t.onion.length ↔ i + 1 < s.onion.length := by
  cases hl : l.isWalk with
  | false => rw [(beside_step hl hstep).onion]
  | true =>
      cases l with
      | op | fire | waitAbort => cases hl
      | next j => exact absurd rfl (hnext j)
      | start =>
          obtain ⟨hmain, rfl⟩ := start_eq hstep
          have hinit : s = State.init cfg := by
            have hcore := h.core
            rw [h.fresh hmain] at hcore
            exact hcore
          rw [hinit]
          have honion := runCore_onion cfg ((State.init cfg).launch cfg)
          rcases honion with hsame | hone
          · rw [hsame]
            rfl
          · rw [hone]
            exact iff_of_false (by omega) (Nat.not_lt_zero _)
      | settle strand out =>
          cases strand with
          | main | task | timer | watcher => cases hl
          | core => rw [settleCore_onion hstep]
      | resume strand =>
          cases strand with
          | main | task | timer | watcher => cases hl
          | core =>
              rcases resumeCore_onion hstep with hsame | ⟨⟨stage, loop, hpc⟩, hone⟩
              · rw [hsame]
              · have hcore := h.core
                rw [hpc] at hcore
                rw [hone, hcore.1]
                exact iff_of_false (by omega) (Nat.not_lt_zero _)

end Core

/-- A "before" hook has thrown in the run. -/
def Threw (cfg : Config) (ls : List Label) : Prop :=
  ∃ ms u, ms <+: ls ∧ Transition.run (step cfg) (State.init cfg) ms = some u ∧ u.HookThrew

/-- What is known after a run. -/
structure Traced (cfg : Config) (s : State) (ls : List Label) : Prop where
  run : Transition.run (step cfg) (State.init cfg) ls = some s
  trace : Trace cfg (Threw cfg ls) s
  nexts : ∀ i, .next i ∈ ls ↔ i + 1 < s.onion.length

theorem Threw.mono {cfg : Config} {ls ms : List Label} (h : Threw cfg ls) (hms : ls <+: ms) :
    Threw cfg ms := by
  obtain ⟨ns, u, hns, hrun, hthrew⟩ := h
  exact ⟨ns, u, hns.trans hms, hrun, hthrew⟩

theorem Traced.step {cfg : Config} {s t : State} {ls : List Label} {l : Label}
    (h : Traced cfg s ls) (hstep : step cfg s l = some t) : Traced cfg t (ls ++ [l]) where
  run := Transition.run_concat_some.2 ⟨s, h.run, hstep⟩
  trace := by
    have hlater : Trace cfg (Threw cfg (ls ++ [l])) s :=
      ⟨h.trace.core.mono fun hthrew => hthrew.mono (List.prefix_append ls [l]), h.trace.fresh⟩
    exact hlater.step (fun hthrew => ⟨ls, s, List.prefix_append ls [l], h.run, hthrew⟩) hstep
  nexts i := by
    by_cases hl : ∃ j, l = .next j
    · obtain ⟨j, rfl⟩ := hl
      rw [List.mem_append, h.nexts i, List.mem_singleton, Label.next.injEq]
      obtain ⟨hj, ⟨hagain, -, rfl⟩ | ⟨hlength, -, honion, -⟩⟩ := next_cases hstep
      · constructor
        · rintro (hi | rfl)
          · exact hi
          · exact hagain
        · exact Or.inl
      · rw [hlength, honion]
        omega
    · have hnext : ∀ j, l ≠ .next j := fun j hj => hl ⟨j, hj⟩
      rw [List.mem_append, h.nexts i, h.trace.deeper hstep hnext i, List.mem_singleton]
      exact or_iff_left fun hi => hnext i hi.symm

theorem traced_run {cfg : Config} {s : State} {ls : List Label}
    (hrun : Transition.run (step cfg) (State.init cfg) ls = some s) : Traced cfg s ls := by
  have hinit : Traced cfg (State.init cfg) [] :=
    ⟨rfl, trace_init cfg, fun i => iff_of_false List.not_mem_nil (Nat.not_lt_zero _)⟩
  exact Transition.run_history hinit (fun _ _ _ _ h hstep => h.step hstep) hrun

/-! ## Results -/

/-- The calls are the first ones of the route, each of them once. -/
structure OnRoute (cfg : Config) (s : State) : Prop where
  calls : s.calls <+: route cfg.chain
  once : s.calls.Nodup

/-- The core is past the "before" hooks. -/
def Core.isPast : Core → Bool
  | .idle | .before .. => false
  | _ => true

/-- The "before" hooks end at the first one after which a response is set or that throws, and
then nothing of the onion is called; nothing else ends them. -/
structure EndsAtResponse (cfg : Config) (s : State) (ls : List Label) : Prop where
  ends : ∀ ms u, ms <+: ls → Transition.run (step cfg) (State.init cfg) ms = some u →
    ¬ u.Entered → u.ctx.finalized = true ∨ u.HookThrew → s.calls = u.calls ∧ ¬ s.Entered
  goesOn : s.core.isPast = true → ¬ s.Entered → s.ctx.finalized = true ∨ Threw cfg ls

/-- A middleware calls the next function with its first `next`; every other is refused. -/
structure NextOnce (cfg : Config) (s : State) (ls : List Label) : Prop where
  called : ∀ i < cfg.chain.middleware,
    (onionCall cfg.chain (i + 1) ∈ s.log ↔ .next i ∈ ls)
  enabled : ∀ i, .middleware i ∈ s.log → ∃ t, step cfg s (.next i) = some t
  first : ∀ i t, step cfg s (.next i) = some t → .next i ∉ ls →
    s.dispatch cfg (i + 1) = .ok t ∧ t.log = s.log ++ [onionCall cfg.chain (i + 1)]
  again : ∀ i t, step cfg s (.next i) = some t → .next i ∈ ls →
    s.dispatch cfg (i + 1) = .error .other ∧ t = s

/-- From here on the bare call and the onion over the empty list show the same. -/
def BareAsOnion (cfg : Config) (s : State) : Prop :=
  cfg.chain.middleware = 0 → s.main ≠ .idle → s.onion = [] → s.ctx.finalized = false →
    ∀ ls, Option.Rel SameView (Transition.run (step cfg) (s.enterHandler cfg) ls)
      (Transition.run (onionStep cfg) (s.runOnion cfg) ls)

section Route

variable (chain : Chain)

theorem onionCall_inj {i j : Nat} (hi : i ≤ chain.middleware) (hj : j ≤ chain.middleware)
    (h : onionCall chain i = onionCall chain j) : i = j := by
  unfold onionCall at h
  split at h <;> split at h
  · exact Fn.middleware.inj h
  · cases h
  · cases h
  · omega

theorem nodup_onionCalls : (onionCalls chain).Nodup := by
  refine List.Nodup.map_on (fun i hi j hj h => ?_) List.nodup_range
  exact onionCall_inj chain (Nat.lt_succ_iff.1 (List.mem_range.1 hi))
    (Nat.lt_succ_iff.1 (List.mem_range.1 hj)) h

theorem nodup_beforeHooks : (beforeHooks chain).Nodup := by
  refine List.nodup_flatMap.2 ⟨fun stage _ => ?_, ?_⟩
  · exact List.Nodup.map (fun k k' h => (Fn.before.inj h).2) List.nodup_range
  · have hstages : [BeforeStage.onRequest, .preParsing, .preValidation, .preHandler].Nodup := by
      decide
    refine hstages.imp fun {stage stage'} hne f hf hf' => ?_
    obtain ⟨k, -, rfl⟩ := List.mem_map.1 hf
    obtain ⟨k', -, hsame⟩ := List.mem_map.1 hf'
    exact hne (Fn.before.inj hsame).1.symm

theorem nodup_route : (route chain).Nodup := by
  refine List.nodup_append'.2 ⟨nodup_beforeHooks chain, nodup_onionCalls chain, ?_⟩
  intro f hf hf'
  obtain ⟨i, -, rfl⟩ := List.mem_map.1 hf'
  have hinner := isInner_of_mem_beforeHooks chain hf
  rw [onionCall_isInner] at hinner
  cases hinner

/-- A function of the onion among the first calls of it. -/
theorem mem_take_onionCalls {i m : Nat} (hi : i ≤ chain.middleware) :
    onionCall chain i ∈ (onionCalls chain).take m ↔ i < m := by
  constructor
  · intro h
    obtain ⟨j, hj, hsame⟩ := List.mem_take_iff_getElem.1 h
    simp only [onionCalls, List.getElem_map, List.getElem_range] at hsame
    simp only [onionCalls, List.length_map, List.length_range] at hj
    have hij := onionCall_inj chain (by omega) hi hsame
    omega
  · intro h
    refine List.mem_take_iff_getElem.2 ⟨i, ?_, ?_⟩
    · simp only [onionCalls, List.length_map, List.length_range]
      omega
    · simp [onionCalls]

end Route

section Results

variable {cfg : Config} {s : State} {threw : Prop} {ls : List Label}

/-- Where the request is on its route, for all its states. -/
theorem Trace.walk (h : Trace cfg threw s) :
    s.onion = [] ∧ s.calls <+: beforeHooks cfg.chain ∨ Inner cfg.chain s := by
  have hcore := h.core
  cases hpc : s.core with
  | idle =>
      rw [hpc] at hcore
      rw [hcore]
      exact Or.inl ⟨rfl, List.nil_prefix⟩
  | before stage loop =>
      rw [hpc] at hcore
      obtain ⟨honion, hloop⟩ := hcore
      refine Or.inl ⟨honion, ?_⟩
      cases loop with
      | hook k call =>
          rw [hloop.2]
          exact hooksThrough_isPrefix cfg.chain hloop.1
      | ended failure =>
          cases failure with
          | none =>
              rcases hloop with hall | hstop
              · rw [hall]
                exact hooksThrough_isPrefix cfg.chain (Nat.le_refl _)
              · exact hstop.calls
          | some e => exact hloop.calls
  | bare call | onion =>
      rw [hpc] at hcore
      exact Or.inr hcore.2
  | onError | done =>
      rw [hpc] at hcore
      exact hcore.imp_left fun hstop => ⟨hstop.onion, hstop.calls⟩

theorem Trace.onRoute (h : Trace cfg threw s) : OnRoute cfg s := by
  have hfront : s.calls <+: route cfg.chain := by
    rcases h.walk with ⟨-, hhooks⟩ | ⟨m, -, -, hcalls, -⟩
    · exact hhooks.trans (List.prefix_append _ _)
    · rw [hcalls]
      exact List.prefix_append_right_inj _ |>.2 (List.take_prefix m _)
  exact ⟨hfront, (nodup_route cfg.chain).sublist hfront.sublist⟩

theorem isRoute_of_isInner {f : Fn} (h : f.isInner = true) : f.isRoute = true := by
  cases f with
  | middleware | handler => rfl
  | before | onError | onTimeout | onAbort | preSerialization | onSend | onResponse => cases h

theorem mem_calls_of_isInner {f : Fn} (h : f.isInner = true) : f ∈ s.calls ↔ f ∈ s.log := by
  rw [State.calls, List.mem_filter, isRoute_of_isInner h]
  exact and_iff_left rfl

theorem entered_iff : s.Entered ↔ ∃ f ∈ s.calls, f.isInner = true := by
  refine exists_congr fun f => and_congr_left fun hf => ?_
  exact (mem_calls_of_isInner hf).symm

theorem Traced.endsAtResponse (h : Traced cfg s ls) : EndsAtResponse cfg s ls where
  ends ms u hms hrun hfront hcause := by
    obtain ⟨rest, rfl⟩ := hms
    have hu := (traced_run hrun).trace
    have hclosed := hu.closed hfront hcause
    have hmain : u.main ≠ .idle := by
      intro hidle
      have hcore := hclosed.2
      rw [hu.fresh hidle] at hcore
      exact hcore
    obtain ⟨v, hv, hrest⟩ := Transition.run_append_some.1 h.run
    obtain rfl := Option.some.inj (hrun.symm.trans hv)
    have hstays : Closed s ∧ s.main ≠ .idle ∧ s.calls = u.calls := by
      refine Transition.run_invariant
        (I := fun t => Closed t ∧ t.main ≠ .idle ∧ t.calls = u.calls) ?_
        ⟨hclosed, hmain, rfl⟩ hrest
      rintro t l t' ⟨ht, hmain, hcalls⟩ hstep
      obtain ⟨ht', hsame⟩ := ht.step hmain hstep
      exact ⟨ht', main_step hmain hstep, hsame.trans hcalls⟩
    refine ⟨hstays.2.2, ?_⟩
    rw [entered_iff, hstays.2.2, ← entered_iff]
    exact hfront
  goesOn hpast hfront := by
    have hcore := h.trace.core
    cases hpc : s.core with
    | idle | before =>
        rw [hpc] at hpast
        cases hpast
    | bare | onion =>
        rw [hpc] at hcore
        exact absurd hcore.2.entered hfront
    | onError | done =>
        rw [hpc] at hcore
        exact (hcore.resolve_right fun hinner => hfront hinner.entered).cause

/-- The middleware of a list that is not empty is in the onion. -/
theorem Trace.called_iff (h : Trace cfg threw s) {i : Nat} (hsome : 0 < cfg.chain.middleware)
    (hi : i ≤ cfg.chain.middleware) :
    onionCall cfg.chain i ∈ s.log ↔ i < s.onion.length := by
  have hfront : onionCall cfg.chain i ∉ beforeHooks cfg.chain := by
    intro hmem
    have hinner := isInner_of_mem_beforeHooks cfg.chain hmem
    rw [onionCall_isInner] at hinner
    cases hinner
  rw [← mem_calls_of_isInner (onionCall_isInner cfg.chain i)]
  rcases h.walk with ⟨honion, hhooks⟩ | ⟨m, -, -, hcalls, hlength⟩
  · rw [honion]
    exact iff_of_false (fun hmem => hfront (hhooks.subset hmem)) (Nat.not_lt_zero i)
  · have hm := hlength.resolve_right fun hbare => Nat.ne_of_gt hsome hbare.2
    rw [hcalls, hm, List.mem_append, mem_take_onionCalls cfg.chain hi]
    exact or_iff_right hfront

theorem Traced.nextOnce (h : Traced cfg s ls) : NextOnce cfg s ls where
  called i hi := by
    rw [h.nexts i]
    exact h.trace.called_iff (Nat.zero_lt_of_lt hi) hi
  enabled i hi := by
    have hmem : .middleware i ∈ route cfg.chain :=
      h.trace.onRoute.calls.subset ((mem_calls_of_isInner rfl).2 hi)
    have hlt : i < cfg.chain.middleware := by
      rcases List.mem_append.1 hmem with hhook | honion
      · have hinner := isInner_of_mem_beforeHooks cfg.chain hhook
        cases hinner
      · obtain ⟨j, -, hj⟩ := List.mem_map.1 honion
        unfold onionCall at hj
        split at hj
        case isTrue hlt =>
          obtain rfl := Fn.middleware.inj hj
          exact hlt
        case isFalse => cases hj
    have hcall : onionCall cfg.chain i = .middleware i := if_pos hlt
    have hin : i < s.onion.length :=
      (h.trace.called_iff (Nat.zero_lt_of_lt hlt) (Nat.le_of_lt hlt)).1 (hcall ▸ hi)
    exact ⟨_, (next_eq_dispatch cfg s i).trans (if_pos ⟨hin, hlt⟩)⟩
  first i t hstep hfirst := by
    obtain ⟨-, ⟨hagain, -⟩ | ⟨-, hok, -, hlog⟩⟩ := next_cases hstep
    · exact absurd ((h.nexts i).2 hagain) hfirst
    · exact ⟨hok, hlog⟩
  again i t hstep hagain := by
    obtain ⟨-, ⟨-, herror, hsame⟩ | ⟨hlength, -⟩⟩ := next_cases hstep
    · exact ⟨herror, hsame⟩
    · have hlt := (h.nexts i).1 hagain
      omega

end Results

/-- The request pipeline trace. -/
theorem pipeline_trace (cfg : Config) (ls : List Label) (s : State)
    (hrun : Transition.run (step cfg) (State.init cfg) ls = some s) :
    OnRoute cfg s ∧ EndsAtResponse cfg s ls ∧ NextOnce cfg s ls ∧ BareAsOnion cfg s := by
  have htraced := traced_run hrun
  exact ⟨htraced.trace.onRoute, htraced.endsAtResponse, htraced.nextOnce,
    fun hbare hmain honion hopen => bare_eq_onion hbare hmain honion hopen⟩

/-- A chain with two middleware and a hook. -/
def layeredChain : Chain :=
  { bareChain with
    middleware := 2
    before := fun stage => match stage with
      | .preHandler => 1
      | _ => 0 }

/-- The hook returns, and the first middleware calls its `next` twice. -/
def layered : List Label :=
  [.start, .resume .core, .resume .core, .resume .core, .settle .core (.returned .nothing),
    .resume .core, .resume .core, .next 0, .next 0]

theorem pipeline_trace_layered :
    ∃ s, Transition.run (step (sampleConfig layeredChain false))
        (State.init (sampleConfig layeredChain false)) layered = some s ∧
      s.calls = [.before .preHandler 0, .middleware 0, .middleware 1] ∧
      NextOnce (sampleConfig layeredChain false) s layered := by
  refine ⟨_, rfl, rfl, ?_⟩
  exact (pipeline_trace (sampleConfig layeredChain false) layered _ rfl).2.2.1

end Pipeline
end OxideHttp
