import OxideHttp.Pipeline.Hooks

/-!
# The response hooks run

The calls of `onSend` and `onResponse` hooks of one request are the first `j` of the one
and then the first `i` of the other.  `Lost` says, from the phase of `#handleRequest`,
whether a hook is left out for good; `Undisturbed` names the exceptions that lose one.
-/

namespace OxideHttp
namespace Pipeline

open Context

/-- The first `j` `onSend` hooks, and then the first `i` `onResponse` hooks. -/
def hookCalls (j i : Nat) : List Fn :=
  (List.range j).map Fn.onSend ++ (List.range i).map Fn.onResponse

/-- Each hook of the response was called once, in their order. -/
def HooksRan (cfg : Config) (s : State) : Prop :=
  s.hookLog = hookCalls cfg.chain.onSend cfg.chain.onResponse

/-- A hook that is called at its place: before the response leaves, or after. -/
def State.timely (cfg : Config) (t : State) : Fn → Prop
  | .onSend _ => t.replies.passed = []
  | .onResponse _ => t.replies.accepted cfg.convertible ≠ []
  | _ => True

/-- The hooks of the response that a step calls are called at their place. -/
def InTime (cfg : Config) (s : State) (l : Label) : Prop :=
  ∀ t fns, step cfg s l = some t → t.hookLog = s.hookLog ++ fns →
    ∀ f ∈ fns, t.timely cfg f

/-- No exception comes before a hook of the response that is still to be called: not of
a hook before it in the same list, of a `preSerialization` hook, or of `respond`. -/
def Undisturbed (cfg : Config) (s : State) : Label → Prop
  | .settle .main (.threw _) =>
      match s.main with
      | .preSerialization _ => cfg.chain.onSend = 0
      | .onSend (.hook k _) => cfg.chain.onSend ≤ k + 1
      | .onResponse (.hook k _) => cfg.chain.onResponse ≤ k + 1
      | _ => True
  | .resume .main =>
      ∀ t, s.resumeMain cfg = some t → t.main = .failed → cfg.chain.onResponse = 0
  | _ => True

/-! ## The calls so far -/

/-- The loop has ended with an exception, or is about to. -/
def Loop.failing : Loop → Bool
  | .hook _ (some (.threw _)) | .ended (some _) => true
  | _ => false

/-- The loop over `n` hooks has called `j` of them. -/
def Loop.At (n j : Nat) : Loop → Prop
  | .hook k _ => j = k + 1
  | .ended none => j = n
  | .ended (some _) => True

/-- What each phase of `#handleRequest` has called. -/
def Phase (chain : Chain) (j i : Nat) : Main → Prop
  | .idle | .racing | .preSerialization _ => j = 0 ∧ i = 0
  | .onSend loop => loop.At chain.onSend j ∧ i = 0
  | .onResponse loop => loop.At chain.onResponse i
  | .failed => i = 0
  | .settled | .rejected => True

/-- A hook of the response will not be called. -/
def Lost (chain : Chain) (j i : Nat) : Main → Prop
  | .idle | .racing => False
  | .preSerialization loop | .onSend loop => loop.failing = true ∧ j < chain.onSend
  | .onResponse loop => j < chain.onSend ∨ loop.failing = true ∧ i < chain.onResponse
  | .failed | .settled | .rejected => j < chain.onSend ∨ i < chain.onResponse

structure Called (chain : Chain) (s : State) (j i : Nat) : Prop where
  hooks : s.hookLog = hookCalls j i
  onSend : j ≤ chain.onSend
  onResponse : i ≤ chain.onResponse
  phase : Phase chain j i s.main

/-- A step calls at most one hook of the response, at its place. -/
inductive Calls (t : State) (j i : Nat) : Nat → Nat → Prop where
  | nothing : Calls t j i j i
  | onSend (hopen : t.main.isOpen = true) (hi : i = 0) : Calls t j i (j + 1) i
  | onResponse (hsent : t.main.isSent = true) : Calls t j i j (i + 1)

/-- A step goes from `j` and `i` calls to `j'` and `i'`. -/
structure Turn (cfg : Config) (t : State) (j i : Nat) (lost : Prop) (j' i' : Nat) : Prop where
  called : Called cfg.chain t j' i'
  calls : Calls t j i j' i'
  lost : Lost cfg.chain j' i' t.main ↔ lost

section Loops

variable {n j k : Nat} {loop loop' : Loop}

theorem hookCalls_onSend (j : Nat) : hookCalls (j + 1) 0 = hookCalls j 0 ++ [.onSend j] := by
  simp [hookCalls, List.range_succ]

theorem hookCalls_onResponse (j i : Nat) :
    hookCalls j (i + 1) = hookCalls j i ++ [.onResponse i] := by
  simp [hookCalls, List.range_succ]

theorem hookCalls_inj {j' i i' : Nat} (h : hookCalls j i = hookCalls j' i') :
    j = j' ∧ i = i' := by
  have hsends := congrArg (List.countP fun f => f matches .onSend _) h
  have hresponses := congrArg (List.countP fun f => f matches .onResponse _) h
  simp [hookCalls, List.countP_map, Function.comp_def] at hsends hresponses
  exact ⟨hsends, hresponses⟩

theorem Loop.failing_resume (h : loop.resume n false = some (.inl loop')) :
    loop'.failing = loop.failing := by
  cases loop with
  | ended failure => cases h
  | hook k call =>
      cases call with
      | none => cases h
      | some out =>
          obtain rfl := Sum.inl.inj (Option.some.inj h)
          cases out with
          | threw e => rfl
          | returned v =>
              simp only [Loop.after]
              split <;> rfl

/-- A loop goes on: it ends, or calls its next hook. -/
theorem Loop.at_resume (hat : loop.At n j) (hj : j ≤ n)
    (h : loop.resume n false = some (.inl loop')) :
    (loop'.At n j ∧ ∀ fn, loop'.called fn = []) ∨
      (loop'.At n (j + 1) ∧ j + 1 ≤ n ∧ loop.failing = false ∧
        ∀ fn, loop'.called fn = [fn j]) := by
  cases loop with
  | ended failure => cases h
  | hook k call =>
      cases call with
      | none => cases h
      | some out =>
          obtain rfl : j = k + 1 := hat
          obtain rfl := Sum.inl.inj (Option.some.inj h)
          cases out with
          | threw e => exact Or.inl ⟨trivial, fun _ => rfl⟩
          | returned v =>
              simp only [Loop.after, Bool.false_or, decide_eq_true_eq]
              split
              case isTrue hlast => exact Or.inl ⟨Nat.le_antisymm hj hlast, fun _ => rfl⟩
              case isFalse hmore =>
                exact Or.inr ⟨rfl, Nat.lt_of_not_le hmore, rfl, fun _ => rfl⟩

end Loops

section Moves

variable {cfg : Config} {s t : State} {j i : Nat}

theorem hookLog_toMain (s : State) (pc : Loop → Main) (fn : Nat → Fn) (loop : Loop) :
    (s.toMain pc fn loop).hookLog =
      s.hookLog ++ (loop.called fn).filter Fn.isResponseHook := List.filter_append ..

theorem afterSend_turn (hlog : s.hookLog = hookCalls j 0) (hj : j ≤ cfg.chain.onSend) :
    ∃ i, Turn cfg (s.afterSend cfg) j 0 (j < cfg.chain.onSend) j i := by
  unfold State.afterSend
  split
  case isTrue hsome =>
    refine ⟨1, ⟨?_, hj, hsome, ?_⟩, .onResponse rfl, ?_⟩
    · rw [hookLog_toMain, Loop.start, if_pos hsome, hookCalls_onResponse, hlog]
      rfl
    · simp [State.toMain, Loop.start, hsome, Phase, Loop.At]
    · simp [State.toMain, Loop.start, hsome, Lost, Loop.failing]
  case isFalse hnone =>
    refine ⟨0, ⟨hlog, hj, Nat.zero_le _, trivial⟩, .nothing, ?_⟩
    simp [Lost, hnone]

theorem sendOff_turn (cfg : Config) (hlog : s.hookLog = hookCalls j 0) (hj : j ≤ cfg.chain.onSend) :
    ∃ i, Turn cfg (s.sendOff cfg) j 0
      (j < cfg.chain.onSend ∨ (s.sendOff cfg).main = .failed ∧ 0 < cfg.chain.onResponse)
      j i := by
  unfold State.sendOff
  split
  case isTrue =>
    have hlog' : (s.reply cfg).hookLog = hookCalls j 0 := hlog
    obtain ⟨i, hturn⟩ := afterSend_turn hlog' hj
    refine ⟨i, hturn.called, hturn.calls, hturn.lost.trans ?_⟩
    have hmain : ((s.reply cfg).afterSend cfg).main ≠ .failed := by
      unfold State.afterSend
      split <;> nofun
    simp [hmain]
  case isFalse =>
    refine ⟨0, ⟨hlog, hj, Nat.zero_le _, rfl⟩, .nothing, ?_⟩
    simp [Lost]

theorem enterOnSend_turn (cfg : Config) (hlog : s.hookLog = hookCalls 0 0) :
    ∃ j i, Turn cfg (s.enterOnSend cfg) 0 0
      ((s.enterOnSend cfg).main = .failed ∧ 0 < cfg.chain.onResponse) j i := by
  unfold State.enterOnSend
  split
  case isTrue hsome =>
    refine ⟨1, 0, ⟨?_, hsome, Nat.zero_le _, ?_⟩, .onSend rfl rfl, ?_⟩
    · rw [hookLog_toMain, Loop.start, if_pos hsome, hookCalls_onSend, hlog]
      rfl
    · simp [State.toMain, Loop.start, hsome, Phase, Loop.At]
    · simp [State.toMain, Loop.start, hsome, Lost, Loop.failing]
  case isFalse hnone =>
    obtain ⟨i, hturn⟩ := sendOff_turn cfg hlog (Nat.zero_le _)
    refine ⟨0, i, hturn.called, hturn.calls, hturn.lost.trans ?_⟩
    simp [hnone]

theorem enterPreSerialization_turn (cfg : Config) (hlog : s.hookLog = hookCalls 0 0) :
    ∃ j i, Turn cfg (s.enterPreSerialization cfg) 0 0
      ((s.enterPreSerialization cfg).main = .failed ∧ 0 < cfg.chain.onResponse) j i := by
  unfold State.enterPreSerialization
  split
  case isTrue hsome =>
    refine ⟨0, 0, ⟨?_, Nat.zero_le _, Nat.zero_le _, ⟨rfl, rfl⟩⟩, .nothing, ?_⟩
    · rw [hookLog_toMain, Loop.called_silent (fun _ => rfl), hlog, List.append_nil]
    · simp [State.toMain, Loop.start, hsome, Lost, Loop.failing]
  case isFalse => exact enterOnSend_turn cfg hlog

theorem lastDefence_turn (cfg : Config) (e : Thrown) (hlog : s.hookLog = hookCalls j 0)
    (hj : j ≤ cfg.chain.onSend) :
    ∃ i, Turn cfg (s.lastDefence cfg e) j 0
      (j < cfg.chain.onSend ∨ (s.lastDefence cfg e).main = .failed ∧ 0 < cfg.chain.onResponse)
      j i := by
  unfold State.lastDefence
  split
  case isTrue => exact sendOff_turn cfg hlog hj
  case isFalse => exact sendOff_turn cfg hlog hj

theorem Turn.congr {lost lost' : Prop} {j' i' : Nat} (h : Turn cfg t j i lost j' i')
    (hlost : lost ↔ lost') : Turn cfg t j i lost' j' i' :=
  ⟨h.called, h.calls, h.lost.trans hlost⟩

theorem resumeMain_turn (h : Called cfg.chain s j i) (hresume : s.resumeMain cfg = some t) :
    ∃ j' i', Turn cfg t j i
      (Lost cfg.chain j i s.main ∨ t.main = .failed ∧ 0 < cfg.chain.onResponse) j' i' := by
  have hlog := h.hooks
  have hphase := h.phase
  cases State.resumeMain_resumed hresume with
  | race hmain =>
      rw [hmain] at hphase
      obtain ⟨rfl, rfl⟩ := hphase
      obtain ⟨j', i', hturn⟩ := enterPreSerialization_turn cfg hlog
      exact ⟨j', i', hturn.congr (by simp [hmain, Lost])⟩
  | @preSerialization _ next hmain hnext =>
      rw [hmain] at hphase
      obtain ⟨rfl, rfl⟩ := hphase
      refine ⟨0, 0, ⟨?_, Nat.zero_le _, Nat.zero_le _, ⟨rfl, rfl⟩⟩, .nothing, ?_⟩
      · rw [hookLog_toMain, next.called_silent (fun _ => rfl), hlog, List.append_nil]
      · simp [State.toMain, Lost, hmain, Loop.failing_resume hnext]
  | preSerialized hmain hnext =>
      rw [hmain] at hphase
      obtain ⟨rfl, rfl⟩ := hphase
      obtain rfl := Loop.resume_inr hnext
      obtain ⟨j', i', hturn⟩ := enterOnSend_turn cfg hlog
      exact ⟨j', i', hturn.congr (by simp [hmain, Lost, Loop.failing])⟩
  | @preSerializationThrew _ e hmain hnext =>
      rw [hmain] at hphase
      obtain ⟨rfl, rfl⟩ := hphase
      obtain rfl := Loop.resume_inr hnext
      obtain ⟨i', hturn⟩ := lastDefence_turn cfg e hlog (Nat.zero_le _)
      exact ⟨0, i', hturn.congr (by simp [hmain, Lost, Loop.failing])⟩
  | onSend hmain hnext =>
      rw [hmain] at hphase
      obtain ⟨hat, rfl⟩ := hphase
      have hfailing := Loop.failing_resume hnext
      rcases Loop.at_resume hat h.onSend hnext with
        ⟨hat', hcalled⟩ | ⟨hat', hlt, hgoes, hcalled⟩
      · refine ⟨j, 0, ⟨?_, h.onSend, Nat.zero_le _, ⟨hat', rfl⟩⟩, .nothing, ?_⟩
        · rw [hookLog_toMain, hcalled, hlog]
          exact List.append_nil _
        · simp [State.toMain, Lost, hmain, hfailing]
      · refine ⟨j + 1, 0, ⟨?_, hlt, Nat.zero_le _, ⟨hat', rfl⟩⟩, .onSend rfl rfl, ?_⟩
        · rw [hookLog_toMain, hcalled, hlog, hookCalls_onSend]
          rfl
        · simp [State.toMain, Lost, hmain, hfailing, hgoes]
  | onSent hmain hnext =>
      rw [hmain] at hphase
      obtain ⟨hat, rfl⟩ := hphase
      obtain rfl := Loop.resume_inr hnext
      obtain rfl : j = cfg.chain.onSend := hat
      obtain ⟨i', hturn⟩ := sendOff_turn cfg hlog h.onSend
      exact ⟨_, i', hturn.congr (by simp [hmain, Lost, Loop.failing])⟩
  | @onSendThrew _ e hmain hnext =>
      rw [hmain] at hphase
      obtain ⟨_, rfl⟩ := hphase
      obtain rfl := Loop.resume_inr hnext
      obtain ⟨i', hturn⟩ := lastDefence_turn cfg e hlog h.onSend
      exact ⟨j, i', hturn.congr (by simp [hmain, Lost, Loop.failing])⟩
  | onResponse hmain hnext =>
      rw [hmain] at hphase
      have hfailing := Loop.failing_resume hnext
      rcases Loop.at_resume hphase h.onResponse hnext with
        ⟨hat', hcalled⟩ | ⟨hat', hlt, hgoes, hcalled⟩
      · refine ⟨j, i, ⟨?_, h.onSend, h.onResponse, hat'⟩, .nothing, ?_⟩
        · rw [hookLog_toMain, hcalled, hlog]
          exact List.append_nil _
        · simp [State.toMain, Lost, hmain, hfailing]
      · refine ⟨j, i + 1, ⟨?_, h.onSend, hlt, hat'⟩, .onResponse rfl, ?_⟩
        · rw [hookLog_toMain, hcalled, hlog, hookCalls_onResponse]
          rfl
        · simp [State.toMain, Lost, hmain, hfailing, hgoes]
  | @responded _ failure hmain hnext =>
      rw [hmain] at hphase
      obtain rfl := Loop.resume_inr hnext
      refine ⟨j, i, ⟨hlog, h.onSend, h.onResponse, trivial⟩, .nothing, ?_⟩
      cases failure with
      | none =>
          obtain rfl : i = cfg.chain.onResponse := hphase
          simp [Lost, hmain, Loop.failing]
      | some e => simp [Lost, hmain, Loop.failing]
  | guard hmain =>
      refine ⟨j, i, ⟨hlog, h.onSend, h.onResponse, ?_⟩, .nothing, ?_⟩
      · dsimp only
        split <;> trivial
      · dsimp only
        split <;> simp [Lost, hmain]

theorem not_undisturbed_resume (hresume : s.resumeMain cfg = some t) :
    ¬ Undisturbed cfg s (.resume .main) ↔ t.main = .failed ∧ 0 < cfg.chain.onResponse := by
  simp only [Undisturbed, hresume, Option.some.injEq, forall_eq', Classical.not_imp]
  exact and_congr_right fun _ => Nat.pos_iff_ne_zero.symm

theorem undisturbed_resume (hresume : s.resumeMain cfg = some t) (ht : t.main ≠ .failed) :
    Undisturbed cfg s (.resume .main) := by
  by_contra hdisturbed
  exact ht ((not_undisturbed_resume hresume).1 hdisturbed).1

/-- A hook settles: with an exception, it may be the last that is called. -/
theorem settle_turn {out : Outcome} (h : Called cfg.chain s j i)
    (hsettle : s.settle out .main = some t) :
    Turn cfg t j i
      (Lost cfg.chain j i s.main ∨ ¬ Undisturbed cfg s (.settle .main out)) j i := by
  have hphase := h.phase
  obtain ⟨k, ⟨hmain, rfl⟩ | ⟨hmain, rfl⟩ | ⟨hmain, rfl⟩⟩ := settle_main_eq hsettle
  · rw [hmain] at hphase
    obtain ⟨rfl, rfl⟩ := hphase
    refine ⟨⟨h.hooks, h.onSend, h.onResponse, ⟨rfl, rfl⟩⟩, .nothing, ?_⟩
    cases out with
    | threw e => simp [Lost, Undisturbed, hmain, Loop.failing, Nat.pos_iff_ne_zero]
    | returned v => simp [Lost, Undisturbed, hmain, Loop.failing]
  · rw [hmain] at hphase
    obtain ⟨rfl, rfl⟩ := hphase
    refine ⟨⟨h.hooks, h.onSend, h.onResponse, ⟨rfl, rfl⟩⟩, .nothing, ?_⟩
    cases out with
    | threw e => simp [Lost, Undisturbed, hmain, Loop.failing]
    | returned v => simp [Lost, Undisturbed, hmain, Loop.failing]
  · rw [hmain] at hphase
    obtain rfl : i = k + 1 := hphase
    refine ⟨⟨h.hooks, h.onSend, h.onResponse, rfl⟩, .nothing, ?_⟩
    cases out with
    | threw e => simp [Lost, Undisturbed, hmain, Loop.failing]
    | returned v => simp [Lost, Undisturbed, hmain, Loop.failing]

/-- The steps of the others neither call nor lose a hook of the response. -/
theorem aside_turn (h : Called cfg.chain s j i) (haside : Aside s t) (hmain : t.main = s.main) :
    Turn cfg t j i (Lost cfg.chain j i s.main) j i :=
  ⟨⟨haside.hooks.trans h.hooks, h.onSend, h.onResponse, hmain ▸ h.phase⟩, .nothing,
    by rw [hmain]⟩

theorem undisturbed_aside {l : Label} (hl : l.isMain = false) : Undisturbed cfg s l := by
  cases l with
  | start | op | next | fire | waitAbort => trivial
  | settle strand out =>
      cases strand with
      | main => cases hl
      | core | task | timer | watcher => trivial
  | resume strand =>
      cases strand with
      | main => cases hl
      | core | task | timer | watcher => trivial

theorem step_turn {l : Label} (h : Called cfg.chain s j i) (hstep : step cfg s l = some t) :
    ∃ j' i', Turn cfg t j i (Lost cfg.chain j i s.main ∨ ¬ Undisturbed cfg s l) j' i' := by
  cases hl : l.isMain with
  | false =>
      obtain ⟨haside, hmain⟩ := step_aside hl hstep
      have hkept : Undisturbed cfg s l := undisturbed_aside hl
      exact ⟨j, i, (aside_turn h haside hmain).congr (by simp [hkept])⟩
  | true =>
      cases l with
      | op | next | fire | waitAbort => cases hl
      | start =>
          obtain ⟨haside, hs, ht⟩ := start_aside hstep
          have hphase := h.phase
          rw [hs] at hphase
          refine ⟨j, i, ⟨haside.hooks.trans h.hooks, h.onSend, h.onResponse, ?_⟩, .nothing, ?_⟩
          · rw [ht]
            exact hphase
          · simp [hs, ht, Lost, Undisturbed]
      | settle strand out =>
          cases strand with
          | core | task | timer | watcher => cases hl
          | main => exact ⟨j, i, settle_turn h hstep⟩
      | resume strand =>
          cases strand with
          | core | task | timer | watcher => cases hl
          | main =>
              have hresume : s.resumeMain cfg = some t := hstep
              obtain ⟨j', i', hturn⟩ := resumeMain_turn h hresume
              refine ⟨j', i', hturn.congr (or_congr_right ?_)⟩
              exact (not_undisturbed_resume hresume).symm

/-! ## The run -/

/-- A hook that a turn calls is called at its place. -/
theorem Turn.inTime {lost : Prop} {j' i' : Nat} {f : Fn} {fns : List Fn}
    (hturn : Turn cfg t j i lost j' i') (hs : s.hookLog = hookCalls j i) (hunsent : Unsent t)
    (hsent : t.main.isSent = true → t.replies.accepted cfg.convertible ≠ [])
    (hfns : t.hookLog = s.hookLog ++ fns) (hf : f ∈ fns) : t.timely cfg f := by
  rw [hturn.called.hooks, hs] at hfns
  cases hturn.calls with
  | nothing =>
      rw [List.self_eq_append_right] at hfns
      rw [hfns] at hf
      cases hf
  | onSend hopen hi =>
      subst hi
      rw [hookCalls_onSend, List.append_right_inj] at hfns
      rw [← hfns] at hf
      obtain rfl := List.mem_singleton.1 hf
      exact hunsent.passed hopen
  | onResponse hm =>
      rw [hookCalls_onResponse, List.append_right_inj] at hfns
      rw [← hfns] at hf
      obtain rfl := List.mem_singleton.1 hf
      exact hsent hm

theorem called_init (cfg : Config) : Called cfg.chain (State.init cfg) 0 0 :=
  ⟨rfl, Nat.zero_le _, Nat.zero_le _, ⟨rfl, rfl⟩⟩

/-- A request that has settled ran every hook, unless it has lost one. -/
theorem Called.ran_iff (h : Called cfg.chain s j i) (hmain : s.main = .settled) :
    HooksRan cfg s ↔ ¬ Lost cfg.chain j i s.main := by
  have hj := h.onSend
  have hi := h.onResponse
  rw [HooksRan, h.hooks, hmain]
  constructor
  · intro hran
    obtain ⟨rfl, rfl⟩ := hookCalls_inj hran
    simp [Lost]
  · intro hkept
    simp only [Lost, not_or, not_lt] at hkept
    rw [Nat.le_antisymm hj hkept.1, Nat.le_antisymm hi hkept.2]

end Moves

/--
When a request is over, every `onSend` hook ran once and in order before the
response left, and every `onResponse` hook after it, exactly when no exception of a
hook or of `respond` came before one of them.
-/
theorem hooks_ran_iff (cfg : Config) (hguard : cfg.convertible State.guardResponse = true)
    (ls : List Label) (s : State)
    (hrun : Transition.run (step cfg) (State.init cfg) ls = some s) (hquiet : Quiet cfg s) :
    Transition.Along (step cfg) (InTime cfg) (State.init cfg) ls ∧ HooksRan cfg s ↔
      Transition.Along (step cfg) (Undisturbed cfg) (State.init cfg) ls := by
  have hprogress : Progress cfg s :=
    Transition.run_invariant (fun _ _ _ h hstep => h.step hguard hstep)
      (progress_init cfg) hrun
  have htimely : Transition.Along (step cfg) (InTime cfg) (State.init cfg) ls := by
    refine Transition.along_of_invariant
      (I := fun s => Progress cfg s ∧ Unsent s ∧ ∃ j i, Called cfg.chain s j i) ?_ ?_
      ⟨progress_init cfg, unsent_init cfg, 0, 0, called_init cfg⟩ ls
    · rintro s l t ⟨hp, hu, j, i, hc⟩ hstep
      obtain ⟨j', i', hturn⟩ := step_turn hc hstep
      exact ⟨hp.step hguard hstep, hu.step hstep, j', i', hturn.called⟩
    · rintro s l t ⟨hp, hu, j, i, hc⟩ hstep u fns hstep' hfns f hf
      obtain rfl := Option.some.inj (hstep.symm.trans hstep')
      obtain ⟨j', i', hturn⟩ := step_turn hc hstep
      exact hturn.inTime hc.hooks (hu.step hstep) (hp.step hguard hstep).sent hfns hf
  obtain ⟨⟨j, i⟩, hcalled, hlost⟩ :=
    Transition.run_flag (P := Undisturbed cfg)
      (fun s (p : Nat × Nat) => Called cfg.chain s p.1 p.2)
      (fun s p => Lost cfg.chain p.1 p.2 s.main)
      (fun s p l t hc hstep => by
        obtain ⟨j', i', hturn⟩ := step_turn hc hstep
        exact ⟨(j', i'), hturn.called, hturn.lost⟩)
      (g := (0, 0)) (called_init cfg) hrun
  rw [hcalled.ran_iff (hprogress.settled hquiet), hlost]
  constructor
  · rintro ⟨_, hkept⟩
    by_contra hdisturbed
    exact hkept (Or.inr hdisturbed)
  · intro hkept
    refine ⟨htimely, ?_⟩
    rintro (hnever | hdisturbed)
    · exact hnever
    · exact hdisturbed hkept

/-- A chain with `n` hooks before the write and one after it. -/
def loggedChain (n : Nat) : Chain := { bareChain with onSend := n, onResponse := 1 }

/-- Every hook returns. -/
def logged : List Label :=
  [.start, .op .handler (.text "hi" none), .settle .core (.returned .nothing),
    .resume .core, .resume .main, .settle .main (.returned .nothing), .resume .main,
    .resume .main, .settle .main (.returned .nothing), .resume .main, .resume .main]

theorem hooks_ran_logged :
    ∃ s, Transition.run (step (sampleConfig (loggedChain 1) false))
        (State.init (sampleConfig (loggedChain 1) false)) logged = some s ∧
      HooksRan (sampleConfig (loggedChain 1) false) s := by
  refine ⟨_, rfl, ?_⟩
  refine ((hooks_ran_iff (sampleConfig (loggedChain 1) false) rfl logged _ rfl ?_).2 ?_).2
  · intro l hl
    cases l with
    | op | next | fire | waitAbort => cases hl
    | start => rfl
    | settle strand out => cases strand <;> rfl
    | resume strand => cases strand <;> rfl
  · iterate 4 refine (Transition.along_cons_of_eq rfl).2 ⟨trivial, ?_⟩
    refine (Transition.along_cons_of_eq rfl).2 ⟨undisturbed_resume rfl nofun, ?_⟩
    refine (Transition.along_cons_of_eq rfl).2 ⟨trivial, ?_⟩
    refine (Transition.along_cons_of_eq rfl).2 ⟨undisturbed_resume rfl nofun, ?_⟩
    refine (Transition.along_cons_of_eq rfl).2 ⟨undisturbed_resume rfl nofun, ?_⟩
    refine (Transition.along_cons_of_eq rfl).2 ⟨trivial, ?_⟩
    refine (Transition.along_cons_of_eq rfl).2 ⟨undisturbed_resume rfl nofun, ?_⟩
    refine (Transition.along_cons_of_eq rfl).2 ⟨undisturbed_resume rfl nofun, ?_⟩
    trivial

/-- The first of two `onSend` hooks throws. -/
def unlogged : List Label :=
  [.start, .op .handler (.text "hi" none), .settle .core (.returned .nothing),
    .resume .core, .resume .main, .settle .main (.threw .other), .resume .main,
    .resume .main, .settle .main (.returned .nothing), .resume .main, .resume .main]

/-- The second of them never runs. -/
theorem hook_skipped :
    ¬ ∀ (cfg : Config) (ls : List Label) (s : State),
        cfg.convertible State.guardResponse = true →
        Transition.run (step cfg) (State.init cfg) ls = some s → Quiet cfg s →
        Transition.Along (step cfg) (InTime cfg) (State.init cfg) ls ∧ HooksRan cfg s := by
  intro hall
  have hran := (hall (sampleConfig (loggedChain 2) false) unlogged _ rfl rfl ?_).2
  · have hcalls : [Fn.onSend 0, .onResponse 0] = hookCalls 2 1 := hran
    exact absurd hcalls (by decide)
  · intro l hl
    cases l with
    | op | next | fire | waitAbort => cases hl
    | start => rfl
    | settle strand out => cases strand <;> rfl
    | resume strand => cases strand <;> rfl

end Pipeline
end OxideHttp
