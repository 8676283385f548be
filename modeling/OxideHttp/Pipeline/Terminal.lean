import OxideHttp.Pipeline

/-!
# One terminal branch (`src/js/pipeline.ts`, `src/js/index.ts`)

The timer branch of `withTimeout` and the watcher for disconnects are started apart, and
neither looks for the other when it starts: the watcher looks at `_settled`, which the
timer branch sets behind its hooks, and the timer looks at nothing.

Results.
* `branches_step`: which steps call the first hooks of the two branches.
* `terminal_iff`: the two kinds of hooks stay apart in a run just when no branch starts
  while the other one has called hooks and has not settled the request; the signal is
  aborted at most once in every run.
-/

namespace OxideHttp
namespace Pipeline

open Context Transition

/-! ## The hooks of the two branches -/

/-- The hooks of the timer branch and of the watcher. -/
def Fn.isBranch : Fn → Bool
  | .onTimeout _ | .onAbort _ => true
  | _ => false

/-- The calls of these hooks so far, and those of `controller.abort`. -/
def State.branches (s : State) : List Fn × Nat := (s.log.filter Fn.isBranch, s.aborts)

/-- An `onTimeout` hook has been called. -/
def State.RanTimeout (s : State) : Prop := ∃ k, Fn.onTimeout k ∈ s.log

/-- An `onAbort` hook has been called. -/
def State.RanAbort (s : State) : Prop := ∃ k, Fn.onAbort k ∈ s.log

/-- How often the signal goes from not aborted to aborted; to abort it again does nothing. -/
def signalAborts (cfg : Config) : State → List Label → Nat
  | _, [] => 0
  | s, l :: ls =>
      match step cfg s l with
      | none => 0
      | some t => (if s.aborts = 0 ∧ 0 < t.aborts then 1 else 0) + signalAborts cfg t ls

/-- A branch that has hooks does not start while the other one has called hooks and has
not settled the request. -/
def Apart (cfg : Config) (s : State) : Label → Prop
  | .fire => cfg.chain.onTimeout = 0 ∨ ¬ s.RanAbort
  | .waitAbort true => cfg.chain.onAbort = 0 ∨ s.ctx.settled = true ∨ ¬ s.RanTimeout
  | _ => True

/-! ## The other strands -/

section Strands

variable {cfg : Config} {s t : State}

theorem ranTimeout_congr (h : t.branches = s.branches) : t.RanTimeout ↔ s.RanTimeout := by
  have hmem : ∀ u : State, u.RanTimeout ↔ ∃ k, Fn.onTimeout k ∈ u.branches.1 := by
    simp [State.RanTimeout, State.branches, Fn.isBranch]
  rw [hmem, hmem, h]

theorem ranAbort_congr (h : t.branches = s.branches) : t.RanAbort ↔ s.RanAbort := by
  have hmem : ∀ u : State, u.RanAbort ↔ ∃ k, Fn.onAbort k ∈ u.branches.1 := by
    simp [State.RanAbort, State.branches, Fn.isBranch]
  rw [hmem, hmem, h]

namespace State

theorem branches_append {fns : List Fn} (hlog : t.log = s.log ++ fns)
    (hfns : fns.filter Fn.isBranch = []) (haborts : t.aborts = s.aborts) :
    t.branches = s.branches := by
  rw [branches, branches, hlog, List.filter_append, hfns, List.append_nil, haborts]

theorem called_filter {fn : Nat → Fn} (hfn : ∀ k, (fn k).isBranch = false) (loop : Loop) :
    (loop.called fn).filter Fn.isBranch = [] := by
  cases loop with
  | ended failure => rfl
  | hook k call =>
      cases call with
      | none => simp [Loop.called, hfn]
      | some out => rfl

theorem branches_toCore (s : State) (pc : Loop → Core) {fn : Nat → Fn} (loop : Loop)
    (hfn : ∀ k, (fn k).isBranch = false) : (s.toCore pc fn loop).branches = s.branches :=
  branches_append rfl (called_filter hfn loop) rfl

theorem branches_toMain (s : State) (pc : Loop → Main) {fn : Nat → Fn} (loop : Loop)
    (hfn : ∀ k, (fn k).isBranch = false) : (s.toMain pc fn loop).branches = s.branches :=
  branches_append rfl (called_filter hfn loop) rfl

@[simp] theorem branches_handleError (s : State) (err : Thrown) :
    (s.handleError cfg err).branches = s.branches := by
  unfold handleError
  split
  · rfl
  · exact branches_toCore _ _ _ fun _ => rfl

@[simp] theorem branches_afterOnError (s : State) (err : Thrown) (failure : Option Thrown) :
    (s.afterOnError err failure).branches = s.branches := by
  cases failure <;> rfl

@[simp] theorem branches_enterHandler (s : State) :
    (s.enterHandler cfg).branches = s.branches := by
  unfold enterHandler
  split
  · rfl
  · split <;> exact branches_append rfl rfl rfl

@[simp] theorem branches_enterStage (s : State) (stage : BeforeStage) :
    (s.enterStage cfg stage).branches = s.branches := by
  unfold enterStage
  split
  · exact branches_enterHandler s
  · exact branches_toCore _ _ _ fun _ => rfl

@[simp] theorem branches_runCore (s : State) : (s.runCore cfg).branches = s.branches := by
  unfold runCore
  split
  · exact branches_enterStage s _
  · exact branches_enterHandler s

@[simp] theorem branches_tried (p : State × Option Thrown) :
    (State.tried cfg p).branches = p.1.branches := by
  obtain ⟨s, failure⟩ := p
  cases failure with
  | none => rfl
  | some e => exact branches_handleError s e

@[simp] theorem branches_applied (s : State) (out : Outcome) :
    (s.applied out).1.branches = s.branches := by
  cases out <;> rfl

theorem branches_resumeCore (h : s.resumeCore cfg = some t) : t.branches = s.branches := by
  cases resumeCore_resumed h with
  | before | onError => exact branches_toCore _ _ _ fun _ => rfl
  | stage => exact branches_enterStage s _
  | handler => exact branches_enterHandler s
  | beforeThrew => exact branches_handleError s _
  | @bare out => exact (branches_tried _).trans (branches_applied s out)
  | onion => exact branches_tried _
  | handled => exact branches_afterOnError s _ _

theorem branches_resumeTask {i : Nat} (h : s.resumeTask cfg i = some t) :
    t.branches = s.branches := by
  obtain ⟨out, _, ⟨_, failure, rfl⟩ | ⟨_, rfl⟩⟩ := resumeTask_eq h
  · rfl
  · exact branches_applied s out

theorem branches_next {i : Nat} (h : s.next cfg i = some t) : t.branches = s.branches := by
  unfold next at h
  split at h
  · split at h <;> obtain rfl := Option.some.inj h
    · rfl
    · refine branches_append rfl ?_ rfl
      split <;> rfl
  · cases h

@[simp] theorem branches_sendOff (s : State) : (s.sendOff cfg).branches = s.branches := by
  unfold sendOff afterSend
  split
  · split
    · exact branches_toMain _ _ _ fun _ => rfl
    · rfl
  · rfl

@[simp] theorem branches_enterOnSend (s : State) :
    (s.enterOnSend cfg).branches = s.branches := by
  unfold enterOnSend
  split
  · exact branches_toMain _ _ _ fun _ => rfl
  · exact branches_sendOff s

@[simp] theorem branches_enterPreSerialization (s : State) :
    (s.enterPreSerialization cfg).branches = s.branches := by
  unfold enterPreSerialization
  split
  · exact branches_toMain _ _ _ fun _ => rfl
  · exact branches_enterOnSend s

@[simp] theorem branches_lastDefence (s : State) (err : Thrown) :
    (s.lastDefence cfg err).branches = s.branches := by
  unfold lastDefence
  split <;> exact branches_sendOff _

theorem branches_resumeMain (h : s.resumeMain cfg = some t) : t.branches = s.branches := by
  cases resumeMain_resumed h with
  | race => exact branches_enterPreSerialization s
  | preSerialization | onSend | onResponse => exact branches_toMain _ _ _ fun _ => rfl
  | preSerialized => exact branches_enterOnSend s
  | onSent => exact branches_sendOff s
  | preSerializationThrew | onSendThrew => exact branches_lastDefence s _
  | responded | guard => rfl

end State

/-! ## The two branches -/

/-- The loop has just called its next function. -/
def Loop.Calls (loop : Loop) : Prop := ∃ k, loop = .hook k none

theorem calls_start {n : Nat} : (Loop.start n).Calls ↔ 0 < n := by
  unfold Loop.start Loop.Calls
  split <;> simp_all

theorem pos_of_start {n k : Nat} {call : Awaited} (h : Loop.start n = .hook k call) : 0 < n := by
  unfold Loop.start at h
  split at h
  case isTrue hpos => exact hpos
  case isFalse => cases h

theorem mem_called {fn : Nat → Fn} {f : Fn} {loop : Loop} :
    f ∈ loop.called fn ↔ ∃ k, loop = .hook k none ∧ f = fn k := by
  cases loop with
  | ended failure => simp [Loop.called]
  | hook k call => cases call <;> simp [Loop.called]

namespace State

theorem ranTimeout_toTimer (s : State) (loop : Loop) :
    (s.toTimer loop).RanTimeout ↔ s.RanTimeout ∨ loop.Calls := by
  simp [RanTimeout, toTimer, mem_called, exists_or, Loop.Calls]

@[simp] theorem ranAbort_toTimer (s : State) (loop : Loop) :
    (s.toTimer loop).RanAbort ↔ s.RanAbort := by
  simp [RanAbort, toTimer, mem_called]

theorem ranAbort_toWatcher (s : State) (loop : Loop) :
    (s.toWatcher loop).RanAbort ↔ s.RanAbort ∨ loop.Calls := by
  simp [RanAbort, toWatcher, mem_called, exists_or, Loop.Calls]

@[simp] theorem ranTimeout_toWatcher (s : State) (loop : Loop) :
    (s.toWatcher loop).RanTimeout ↔ s.RanTimeout := by
  simp [RanTimeout, toWatcher, mem_called]

/-- A branch that awaits a hook has called one. -/
structure Started (s : State) : Prop where
  timer : ∀ k call, s.timer = .onTimeout (.hook k call) → s.RanTimeout
  watcher : ∀ k call, s.watcher = .onAbort (.hook k call) → s.RanAbort

/-- What a step does to the two branches. -/
structure BranchStep (cfg : Config) (s : State) (l : Label) (t : State) : Prop where
  started : Started t
  timeout : t.RanTimeout ↔ s.RanTimeout ∨ l = .fire ∧ 0 < cfg.chain.onTimeout
  abort : t.RanAbort ↔
    s.RanAbort ∨ l = .waitAbort true ∧ s.ctx.settled = false ∧ 0 < cfg.chain.onAbort
  aborts : s.aborts ≤ t.aborts

/-- A step of another strand. -/
theorem BranchStep.other {l : Label} (hs : Started s) (hbranches : t.branches = s.branches)
    (htimer : ∀ k call, t.timer = .onTimeout (.hook k call) →
      ∃ call', s.timer = .onTimeout (.hook k call'))
    (hwatcher : ∀ k call, t.watcher = .onAbort (.hook k call) →
      ∃ call', s.watcher = .onAbort (.hook k call'))
    (hfire : l ≠ .fire) (habort : l ≠ .waitAbort true) : BranchStep cfg s l t := by
  have htimeout := ranTimeout_congr hbranches
  have habort' := ranAbort_congr hbranches
  refine ⟨⟨fun k call h => ?_, fun k call h => ?_⟩, ?_, ?_, ?_⟩
  · obtain ⟨call', h'⟩ := htimer k call h
    exact htimeout.2 (hs.timer k call' h')
  · obtain ⟨call', h'⟩ := hwatcher k call h
    exact habort'.2 (hs.watcher k call' h')
  · simp [htimeout, hfire]
  · simp [habort', habort]
  · exact (congrArg Prod.snd hbranches).ge

theorem started_init (cfg : Config) : Started (State.init cfg) := ⟨nofun, nofun⟩

theorem resumeTimer_branch (hs : Started s) (h : s.resumeTimer cfg = some t) :
    BranchStep cfg s (.resume .timer) t := by
  obtain ⟨loop, htimer, ⟨loop', hnext, rfl⟩ | ⟨failure, rfl, rfl⟩⟩ := resumeTimer_eq h
  · -- the loop awaited a hook, so one has been called before
    cases loop with
    | ended failure => cases hnext
    | hook k call =>
        have hran := hs.timer k call htimer
        refine ⟨⟨fun _ _ _ => ?_, fun k call hw => ?_⟩, ?_, by simp, Nat.le_refl _⟩
        · exact (ranTimeout_toTimer s loop').2 (Or.inl hran)
        · exact (ranAbort_toTimer s loop').2 (hs.watcher k call hw)
        · simp [ranTimeout_toTimer, hran]
  · exact .other hs rfl (nofun) (fun k call hw => ⟨call, hw⟩) (nofun) (nofun)

theorem resumeWatcher_branch (hs : Started s) (h : s.resumeWatcher cfg = some t) :
    BranchStep cfg s (.resume .watcher) t := by
  unfold resumeWatcher at h
  split at h
  case h_2 => cases h
  case h_1 loop hwatcher =>
    obtain ⟨loop' | failure, hnext, rfl⟩ := Option.map_eq_some_iff.1 h
    · cases loop with
      | ended failure => cases hnext
      | hook k call =>
          have hran := hs.watcher k call hwatcher
          refine ⟨⟨fun k call ht => ?_, fun _ _ _ => ?_⟩, by simp, ?_, Nat.le_refl _⟩
          · exact (ranTimeout_toWatcher s loop').2 (hs.timer k call ht)
          · exact (ranAbort_toWatcher s loop').2 (Or.inl hran)
          · simp [ranAbort_toWatcher, hran]
    · exact .other hs rfl (fun k call ht => ⟨call, ht⟩) (nofun) (nofun) (nofun)

theorem fire_branch (hs : Started s) (h : s.fire cfg = some t) : BranchStep cfg s .fire t := by
  obtain ⟨-, -, rfl⟩ := fire_eq h
  have htimeout := ranTimeout_toTimer
    { s with ctx := { s.ctx with aborted := true }, aborts := s.aborts + 1 }
    (.start cfg.chain.onTimeout)
  have habort := ranAbort_toTimer
    { s with ctx := { s.ctx with aborted := true }, aborts := s.aborts + 1 }
    (.start cfg.chain.onTimeout)
  rw [calls_start] at htimeout
  refine ⟨⟨fun k call ht => ?_, fun k call hw => ?_⟩, ?_, ?_, Nat.le_succ _⟩
  · exact htimeout.2 (Or.inr (pos_of_start (Timer.onTimeout.inj ht)))
  · exact habort.2 (hs.watcher k call hw)
  · exact htimeout.trans (or_congr_right (by simp))
  · exact habort.trans (by simp [RanAbort])

theorem waitAbort_branch (hs : Started s) {aborted : Bool} (h : s.waitAbort cfg aborted = some t) :
    BranchStep cfg s (.waitAbort aborted) t := by
  unfold waitAbort at h
  split at h
  case h_2 => cases h
  case h_1 =>
    split at h <;> obtain rfl := Option.some.inj h
    case isTrue hskip =>
      refine ⟨⟨hs.timer, nofun⟩, ?_, ?_, Nat.le_refl _⟩
      · simp [RanTimeout]
      · simp only [Bool.or_eq_true, Bool.not_eq_true'] at hskip
        rcases hskip with rfl | hsettled
        · simp [RanAbort]
        · simp [RanAbort, hsettled]
    case isFalse hgo =>
      obtain ⟨rfl, hsettled⟩ : aborted = true ∧ s.ctx.settled = false := by simpa using hgo
      have habort := ranAbort_toWatcher
        { s with ctx := { s.ctx with aborted := true }, aborts := s.aborts + 1 }
        (.start cfg.chain.onAbort)
      have htimeout := ranTimeout_toWatcher
        { s with ctx := { s.ctx with aborted := true }, aborts := s.aborts + 1 }
        (.start cfg.chain.onAbort)
      rw [calls_start] at habort
      refine ⟨⟨fun k call ht => ?_, fun k call hw => ?_⟩, ?_, ?_, Nat.le_succ _⟩
      · exact htimeout.2 (hs.timer k call ht)
      · exact habort.2 (Or.inr (pos_of_start (Watcher.onAbort.inj hw)))
      · exact htimeout.trans (by simp [RanTimeout])
      · exact habort.trans (or_congr_right (by simp [hsettled]))

theorem settle_branch (hs : Started s) {out : Outcome} {strand : Strand}
    (h : s.settle out strand = some t) : BranchStep cfg s (.settle strand out) t := by
  have hfire : Label.settle strand out ≠ .fire := by simp
  have habort : Label.settle strand out ≠ .waitAbort true := by simp
  have hother : t.branches = s.branches → t.timer = s.timer → t.watcher = s.watcher →
      BranchStep cfg s (.settle strand out) t := fun hbranches htimer hwatcher =>
    .other hs hbranches (fun _ call ht => ⟨call, htimer ▸ ht⟩)
      (fun _ call hw => ⟨call, hwatcher ▸ hw⟩) hfire habort
  cases settle_settled h with
  | before | bare | onError | task | preSerialization | onSend | onResponse =>
      exact hother rfl rfl rfl
  | onTimeout htimer =>
      refine .other hs rfl (fun k' call ht => ⟨none, ?_⟩) (fun _ call hw => ⟨call, hw⟩)
        hfire habort
      obtain ⟨rfl, -⟩ := Loop.hook.inj (Timer.onTimeout.inj ht)
      exact htimer
  | onAbort hwatcher =>
      refine .other hs rfl (fun _ call ht => ⟨call, ht⟩) (fun k' call hw => ⟨none, ?_⟩)
        hfire habort
      obtain ⟨rfl, -⟩ := Loop.hook.inj (Watcher.onAbort.inj hw)
      exact hwatcher

/-- Which steps call the first hooks of the two branches. -/
theorem branches_step {l : Label} (hs : Started s) (h : step cfg s l = some t) :
    BranchStep cfg s l t := by
  have hother : t.branches = s.branches → t.timer = s.timer → t.watcher = s.watcher →
      l ≠ .fire → l ≠ .waitAbort true → BranchStep cfg s l t := fun hbranches htimer hwatcher =>
    .other hs hbranches (fun _ call ht => ⟨call, htimer ▸ ht⟩)
      (fun _ call hw => ⟨call, hwatcher ▸ hw⟩)
  cases l with
  | start =>
      obtain ⟨-, rfl⟩ := start_eq h
      have hmove := runCore_move cfg (s.launch cfg)
      refine .other hs (branches_runCore _) (fun k call ht => ?_) (fun k call hw => ?_) nofun nofun
      · rw [hmove.timer] at ht
        simp only [launch] at ht
        split at ht <;> cases ht
      · rw [hmove.watcher] at hw
        simp only [launch] at hw
        split at hw <;> cases hw
  | op f o =>
      obtain ⟨-, rfl⟩ := op_eq h
      exact hother rfl rfl rfl nofun nofun
  | next i =>
      obtain ⟨hframe, -, -, -⟩ := next_frame h
      exact hother (branches_next h) hframe.timer hframe.watcher nofun nofun
  | settle strand out => exact settle_branch hs h
  | resume strand =>
      cases strand with
      | core =>
          have hmove := resumeCore_move h
          exact hother (branches_resumeCore h) hmove.timer hmove.watcher nofun nofun
      | task i =>
          obtain ⟨hframe, -, -⟩ := resumeTask_frame h
          exact hother (branches_resumeTask h) hframe.timer hframe.watcher nofun nofun
      | timer => exact resumeTimer_branch hs h
      | watcher => exact resumeWatcher_branch hs h
      | main =>
          have hmove := resumeMain_move h
          exact hother (branches_resumeMain h) hmove.timer hmove.watcher nofun nofun
  | fire => exact fire_branch hs h
  | waitAbort aborted => exact waitAbort_branch hs h

end State

end Strands

/-! ## Runs -/

/-- A signal that is aborted stays so. -/
theorem signalAborts_le {cfg : Config} {s : State} (hs : s.Started) (ls : List Label) :
    signalAborts cfg s ls ≤ if s.aborts = 0 then 1 else 0 := by
  induction ls generalizing s with
  | nil => exact Nat.zero_le _
  | cons l ls ih =>
      rw [signalAborts]
      split
      case h_1 => exact Nat.zero_le _
      case h_2 t ht =>
        have hstep := State.branches_step hs ht
        have htail := ih hstep.started
        have hle := hstep.aborts
        split <;> split at htail <;> split <;> omega

/-- A step keeps the hooks of the two branches apart when it starts no second branch. -/
theorem apart_step {cfg : Config} {s t : State} {l : Label} (hs : s.Started)
    (hnone : ¬ (s.RanTimeout ∧ s.RanAbort)) (h : step cfg s l = some t) :
    t.Started ∧ (¬ (t.RanTimeout ∧ t.RanAbort) ↔ Apart cfg s l) := by
  have hstep := State.branches_step hs h
  refine ⟨hstep.started, ?_⟩
  rw [hstep.timeout, hstep.abort]
  cases l with
  | fire =>
      simp only [Apart, true_and, reduceCtorEq, false_and, or_false]
      rw [← Nat.le_zero, ← Nat.not_lt]
      tauto
  | waitAbort aborted =>
      cases aborted with
      | true =>
          simp only [Apart, true_and, reduceCtorEq, false_and, or_false]
          rw [← Bool.not_eq_false, ← Nat.le_zero, ← Nat.not_lt]
          tauto
      | false => simpa [Apart] using hnone
  | start | op | next | settle | resume => simpa [Apart] using hnone

/-- The hooks of the timer branch and of the watcher are both called in no run whose steps
keep the branches apart, and in every other; the signal is aborted at most once. -/
theorem terminal_iff (cfg : Config) (ls : List Label) :
    (Throughout (step cfg) (fun s => ¬ (s.RanTimeout ∧ s.RanAbort)) (State.init cfg) ls ∧
        signalAborts cfg (State.init cfg) ls ≤ 1) ↔
      Along (step cfg) (Apart cfg) (State.init cfg) ls := by
  have hnone : ¬ ((State.init cfg).RanTimeout ∧ (State.init cfg).RanAbort) := by
    rintro ⟨⟨k, hk⟩, -⟩
    cases hk
  have hsignal : signalAborts cfg (State.init cfg) ls ≤ 1 :=
    signalAborts_le (State.started_init cfg) ls
  rw [and_iff_left hsignal]
  exact throughout_iff_along (I := State.Started) (fun _ _ _ hs hq h => apart_step hs hq h)
    (State.started_init cfg) hnone ls

/-- The client goes away while an `onTimeout` hook runs. -/
theorem both_branches_run :
    ¬ Throughout (step (sampleConfig { bareChain with onTimeout := 1, onAbort := 1 } true))
      (fun s => ¬ (s.RanTimeout ∧ s.RanAbort))
      (State.init (sampleConfig { bareChain with onTimeout := 1, onAbort := 1 } true))
      [.start, .fire, .waitAbort true] := by
  intro h
  exact h.last rfl ⟨⟨0, by decide⟩, ⟨0, by decide⟩⟩

end Pipeline
end OxideHttp
