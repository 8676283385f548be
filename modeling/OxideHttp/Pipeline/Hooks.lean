import OxideHttp.Pipeline.Answered
import OxideHttp.Pipeline.Errors

/-!
# The hooks around the write

`#handleRequest` runs `preSerialization` and `onSend` before `respond`, and `onResponse`
after it.  An exception of a hook before the write is meant to answer with an error
(`fails_closed_iff`), and the hooks of `onSend` and `onResponse` are meant to run for
every request (`hooks_ran_iff`).  Each loop ends at its first exception.
-/

namespace OxideHttp
namespace Pipeline

open Context

/-! ## An exception before the write -/

/-- The exception that ended the hooks before the write. -/
def Main.failure : Main → Option Thrown
  | .preSerialization (.ended failure) | .onSend (.ended failure) => failure
  | _ => none

/-- A hook before the write runs. -/
def Main.callsHook : Main → Bool
  | .preSerialization (.hook _ none) | .onSend (.hook _ none) => true
  | _ => false

/-- The context as it was when the last hook before the write was called. -/
def before (t : State) (b : Ctx) : Label → Ctx
  | .resume .main => if t.main.callsHook then t.ctx else b
  | _ => b

/-- A step, with that context beside it. -/
def remember (cfg : Config) (p : State × Ctx) (l : Label) : Option (State × Ctx) :=
  (step cfg p.1 l).map fun t => (t, before t p.2 l)

/-- The same status and body. -/
def SameAnswer (r r' : NativeResponse) : Prop :=
  r.status = r'.status ∧ r.body = r'.body ∧ r.streamed = r'.streamed

/-- The response that stood when the hook was called. -/
def stood (cfg : Config) (b : Ctx) : NativeResponse :=
  buildNativeResponse cfg.json cfg.responseStrip b

/-- After an exception of a hook the response has the status of the exception, and it
is not the one that was set before. -/
def FailsClosed (cfg : Config) (p : State × Ctx) (l : Label) : Prop :=
  ∀ t e, step cfg p.1 l = some t → l = .resume .main → p.1.main.failure = some e →
    ∃ r, t.replies.passed = [r] ∧ r.status = e.status ∧
      (p.2.finalized = true → ¬ SameAnswer r (stood cfg p.2))

/-- When a hook has thrown, no response is set, or one with the status of the
exception that was not there before the hook. -/
def Retracted (cfg : Config) (p : State × Ctx) (l : Label) : Prop :=
  ∀ e, l = .resume .main → p.1.main.failure = some e →
    p.1.ctx.finalized = false ∨
      (stood cfg p.1.ctx).status = e.status ∧
        (p.2.finalized = true → ¬ SameAnswer (stood cfg p.1.ctx) (stood cfg p.2))

/-! ## The steps of the others -/

/-- The label runs `#handleRequest`. -/
def Label.isMain : Label → Bool
  | .start | .settle .main _ | .resume .main => true
  | _ => false

/-- The response is not passed on yet. -/
def Main.isOpen : Main → Bool
  | .idle | .racing | .preSerialization _ | .onSend _ => true
  | _ => false

/-- A step that leaves `#handleRequest` where it is. -/
structure Aside (s t : State) : Prop where
  replies : t.replies = s.replies
  hooks : t.hookLog = s.hookLog
  finalized : s.ctx.finalized = true → t.ctx.finalized = true
  settled : t.ctx.settled = true → s.ctx.settled = true ∨ t.ctx.finalized = true

section Steps

variable {cfg : Config} {s t : State}

theorem Frame.aside (h : Frame s t) : Aside s t :=
  ⟨h.replies, h.hooks, h.finalized, fun hs => Or.inl (h.settled.symm.trans hs)⟩

theorem State.WatcherMove.aside (h : State.WatcherMove s t) : Aside s t :=
  ⟨h.replies, h.hooks, fun hs => (finalized_of_view h.view).trans hs,
    fun hs => Or.inl ((settled_of_view h.view).symm.trans hs)⟩

theorem State.SettleMove.aside (h : State.SettleMove s t) : Aside s t :=
  ⟨h.replies, congrArg (List.filter Fn.isResponseHook) h.log, fun hs => h.ctx ▸ hs,
    fun hs => Or.inl (h.ctx ▸ hs)⟩

/-- A strand other than `#handleRequest` gets the result of its call. -/
theorem settle_main_same {out : Outcome} {strand : Strand} (hstrand : strand ≠ .main)
    (h : s.settle out strand = some t) : t.main = s.main := by
  cases State.settle_settled h with
  | before | bare | onError | task | onTimeout | onAbort => rfl
  | preSerialization | onSend | onResponse => exact absurd rfl hstrand

theorem step_aside {l : Label} (hl : l.isMain = false) (h : step cfg s l = some t) :
    Aside s t ∧ t.main = s.main := by
  cases l with
  | start => cases hl
  | op f o =>
      obtain ⟨_, rfl⟩ := op_eq h
      exact ⟨⟨rfl, rfl, apply_finalized o, fun hs => Or.inl ((apply_settled o).symm.trans hs)⟩,
        rfl⟩
  | next i =>
      have hframe := (State.next_frame h).1
      exact ⟨hframe.aside, hframe.main⟩
  | settle strand out =>
      refine ⟨(State.settle_move h).aside, settle_main_same ?_ h⟩
      rintro rfl
      cases hl
  | resume strand =>
      cases strand with
      | main => cases hl
      | core =>
          have hmove := State.resumeCore_move h
          exact ⟨hmove.toFrame.aside, hmove.main⟩
      | task i =>
          have hframe := (State.resumeTask_frame h).1
          exact ⟨hframe.aside, hframe.main⟩
      | watcher =>
          have hmove := State.resumeWatcher_move h
          exact ⟨hmove.aside, hmove.main⟩
      | timer =>
          obtain ⟨_, _, ⟨loop, _, rfl⟩ | ⟨failure, _, rfl⟩⟩ := State.resumeTimer_eq h
          · exact ⟨⟨rfl, State.hookLog_append rfl (loop.called_silent fun _ => rfl), id,
              Or.inl⟩, rfl⟩
          · refine ⟨⟨rfl, rfl, fun hs => ?_, fun _ => ?_⟩, rfl⟩
            · simp [State.latch, State.timedOut, hs]
            · cases hsettled : s.ctx.settled with
              | true => exact Or.inl rfl
              | false => exact Or.inr (State.finalized_timedOut hsettled)
  | fire =>
      obtain ⟨_, _, rfl⟩ := State.fire_eq h
      exact ⟨⟨rfl, State.hookLog_append rfl (Loop.called_silent (fun _ => rfl) _), id, Or.inl⟩,
        rfl⟩
  | waitAbort aborted =>
      have hmove := State.waitAbort_move h
      exact ⟨hmove.aside, hmove.main⟩

theorem start_aside (h : step cfg s .start = some t) :
    Aside s t ∧ s.main = .idle ∧ t.main = .racing := by
  obtain ⟨hmain, rfl⟩ := start_eq h
  have hmove := State.runCore_move cfg (s.launch cfg)
  exact ⟨⟨hmove.replies, hmove.hooks, hmove.finalized,
    fun hs => Or.inl (hmove.settled.symm.trans hs)⟩, hmain, hmove.main⟩

/-- A hook that `#handleRequest` awaits settles. -/
theorem settle_main_eq {out : Outcome} (h : s.settle out .main = some t) :
    ∃ k, (s.main = .preSerialization (.hook k none) ∧
        t = { s with main := .preSerialization (.hook k (some out)) }) ∨
      (s.main = .onSend (.hook k none) ∧
        t = { s with main := .onSend (.hook k (some out)) }) ∨
      (s.main = .onResponse (.hook k none) ∧
        t = { s with main := .onResponse (.hook k (some out)) }) := by
  cases State.settle_settled h with
  | @preSerialization k hmain => exact ⟨k, Or.inl ⟨hmain, rfl⟩⟩
  | @onSend k hmain => exact ⟨k, Or.inr (Or.inl ⟨hmain, rfl⟩)⟩
  | @onResponse k hmain => exact ⟨k, Or.inr (Or.inr ⟨hmain, rfl⟩)⟩

/-! ## Until the write -/

/-- Before `respond` nothing is passed on, and the latch has left a response. -/
structure Unsent (s : State) : Prop where
  passed : s.main.isOpen = true → s.replies.passed = []
  settled : s.main.isOpen = true → s.ctx.settled = true → s.ctx.finalized = true

theorem unsent_init (cfg : Config) : Unsent (State.init cfg) := ⟨fun _ => rfl, nofun⟩

theorem Unsent.aside (h : Unsent s) (hstep : Aside s t)
    (hopen : t.main.isOpen = true → s.main.isOpen = true) : Unsent t where
  passed ht := hstep.replies ▸ h.passed (hopen ht)
  settled ht hs := by
    rcases hstep.settled hs with hsettled | hfinal
    · exact hstep.finalized (h.settled (hopen ht) hsettled)
    · exact hfinal

theorem sendOff_closed : (s.sendOff cfg).main.isOpen = false := by
  unfold State.sendOff State.afterSend
  split
  case isTrue => split <;> rfl
  case isFalse => rfl

/-- `#handleRequest` is before the write only if it was, and it changed nothing. -/
theorem enterOnSend_open (h : (s.enterOnSend cfg).main.isOpen = true) :
    (s.enterOnSend cfg).ctx = s.ctx ∧ (s.enterOnSend cfg).replies = s.replies := by
  unfold State.enterOnSend at h ⊢
  split
  case isTrue => exact ⟨rfl, rfl⟩
  case isFalse hnone =>
    rw [if_neg hnone, sendOff_closed] at h
    cases h

theorem enterPreSerialization_open (h : (s.enterPreSerialization cfg).main.isOpen = true) :
    (s.enterPreSerialization cfg).ctx = s.ctx ∧
      (s.enterPreSerialization cfg).replies = s.replies := by
  unfold State.enterPreSerialization at h ⊢
  split
  case isTrue => exact ⟨rfl, rfl⟩
  case isFalse hnone =>
    rw [if_neg hnone] at h
    exact enterOnSend_open h

theorem resumeMain_open (h : s.resumeMain cfg = some t) (ht : t.main.isOpen = true) :
    s.main.isOpen = true ∧ t.ctx = s.ctx ∧ t.replies = s.replies := by
  cases State.resumeMain_resumed h with
  | race hmain => exact ⟨by rw [hmain]; rfl, enterPreSerialization_open ht⟩
  | preSerialization hmain | onSend hmain => exact ⟨by rw [hmain]; rfl, rfl, rfl⟩
  | preSerialized hmain => exact ⟨by rw [hmain]; rfl, enterOnSend_open ht⟩
  | onSent | preSerializationThrew | onSendThrew =>
      exact absurd (sendOff_closed.symm.trans ht) Bool.false_ne_true
  | onResponse | responded => cases ht
  | guard =>
      dsimp only at ht
      split at ht <;> cases ht

theorem Unsent.step (h : Unsent s) {l : Label} (hstep : step cfg s l = some t) :
    Unsent t := by
  cases hl : l.isMain with
  | false =>
      obtain ⟨haside, hmain⟩ := step_aside hl hstep
      exact h.aside haside fun ht => hmain ▸ ht
  | true =>
      cases l with
      | op | next | fire | waitAbort => cases hl
      | start =>
          obtain ⟨haside, hs, _⟩ := start_aside hstep
          exact h.aside haside fun _ => by rw [hs]; rfl
      | settle strand out =>
          refine h.aside (State.settle_move hstep).aside fun ht => ?_
          cases strand with
          | core | task | timer | watcher => cases hl
          | main =>
              obtain ⟨k, ⟨hs, rfl⟩ | ⟨hs, rfl⟩ | ⟨hs, rfl⟩⟩ := settle_main_eq hstep
              · rw [hs]
                rfl
              · rw [hs]
                rfl
              · cases ht
      | resume strand =>
          cases strand with
          | core | task | timer | watcher => cases hl
          | main =>
              refine ⟨fun ht => ?_, fun ht hs => ?_⟩
              · obtain ⟨hopen, _, hreplies⟩ := resumeMain_open hstep ht
                exact hreplies ▸ h.passed hopen
              · obtain ⟨hopen, hctx, _⟩ := resumeMain_open hstep ht
                rw [hctx] at hs ⊢
                exact h.settled hopen hs

/-! ## The last line of defence -/

theorem sendOff_passed :
    (s.sendOff cfg).replies.passed = s.replies.passed ++ [stood cfg s.ctx] := by
  unfold State.sendOff State.afterSend
  split
  case isTrue => split <;> exact Replies.passed_respond ..
  case isFalse => exact Replies.passed_respond ..

theorem resumeMain_failure {e : Thrown} (h : s.main.failure = some e) :
    s.resumeMain cfg = some (s.lastDefence cfg e) := by
  cases hmain : s.main with
  | idle | racing | onResponse | failed | settled | rejected =>
      rw [hmain] at h
      cases h
  | preSerialization loop | onSend loop =>
      rw [hmain] at h
      cases loop with
      | hook k call => cases h
      | ended failure =>
          obtain rfl : failure = some e := h
          simp [State.resumeMain, hmain, Loop.resume]

theorem isOpen_of_failure {e : Thrown} (h : s.main.failure = some e) :
    s.main.isOpen = true := by
  cases hmain : s.main with
  | idle | racing | preSerialization | onSend => rfl
  | onResponse | failed | settled | rejected =>
      rw [hmain] at h
      cases h

/-- The answer to an exception of a hook: the default response, unless one is set. -/
theorem lastDefence_passed (cfg : Config) (h : Unsent s) {e : Thrown} (hfailure : s.main.failure = some e) :
    ∃ r, (s.lastDefence cfg e).replies.passed = [r] ∧
      (s.ctx.finalized = true → r = stood cfg s.ctx) ∧
      (s.ctx.finalized = false → r.status = e.status) := by
  have hopen := isOpen_of_failure hfailure
  have hpassed := h.passed hopen
  unfold State.lastDefence
  cases hfinal : s.ctx.finalized with
  | true =>
      refine ⟨stood cfg s.ctx, ?_, fun _ => rfl, nofun⟩
      rw [if_pos rfl, sendOff_passed, hpassed, List.nil_append]
  | false =>
      have hsettled : s.ctx.settled = false := by
        by_contra hsettled
        rw [h.settled hopen (by simpa using hsettled)] at hfinal
        cases hfinal
      refine ⟨stood cfg (defaultError { s.ctx with body := none } e), ?_, nofun, fun _ => ?_⟩
      · rw [if_neg Bool.false_ne_true, sendOff_passed]
        exact congrArg (· ++ _) hpassed
      · simp [stood, status_defaultError (c := { s.ctx with body := none }) hsettled]

/-- What is remembered of the response stays set. -/
structure Recalled (p : State × Ctx) : Prop extends Unsent p.1 where
  kept : p.2.finalized = true → p.1.main.isOpen = true → p.1.ctx.finalized = true

theorem recalled_init (cfg : Config) : Recalled (State.init cfg, (State.init cfg).ctx) :=
  { unsent_init cfg with kept := fun h _ => h }

theorem remember_eq {p q : State × Ctx} {l : Label} (h : remember cfg p l = some q) :
    step cfg p.1 l = some q.1 ∧ q.2 = before q.1 p.2 l := by
  obtain ⟨t, ht, rfl⟩ := Option.map_eq_some_iff.1 h
  exact ⟨ht, rfl⟩

theorem Recalled.step {p q : State × Ctx} {l : Label} (h : Recalled p)
    (hstep : remember cfg p l = some q) : Recalled q := by
  obtain ⟨hs, hq⟩ := remember_eq hstep
  refine { h.toUnsent.step hs with kept := fun hb ht => ?_ }
  cases hl : l.isMain with
  | false =>
      obtain ⟨haside, hmain⟩ := step_aside hl hs
      have hsame : q.2 = p.2 := by
        cases l with
        | resume strand =>
            cases strand with
            | main => cases hl
            | core | task | timer | watcher => exact hq
        | start | op | next | settle | fire | waitAbort => exact hq
      exact haside.finalized (h.kept (hsame ▸ hb) (hmain ▸ ht))
  | true =>
      cases l with
      | op | next | fire | waitAbort => cases hl
      | start =>
          obtain ⟨haside, hidle, _⟩ := start_aside hs
          rw [hq] at hb
          exact haside.finalized (h.kept hb (by rw [hidle]; rfl))
      | settle strand out =>
          cases strand with
          | core | task | timer | watcher => cases hl
          | main =>
              have hsettle : p.1.settle out .main = some q.1 := hs
              have hmove := State.settle_move hsettle
              rw [hq] at hb
              refine hmove.aside.finalized (h.kept hb ?_)
              obtain ⟨k, ⟨hm, hu⟩ | ⟨hm, hu⟩ | ⟨hm, hu⟩⟩ := settle_main_eq hs
              · rw [hm]
                rfl
              · rw [hm]
                rfl
              · rw [hu] at ht
                cases ht
      | resume strand =>
          cases strand with
          | core | task | timer | watcher => cases hl
          | main =>
              obtain ⟨hopen, hctx, _⟩ := resumeMain_open hs ht
              rw [hq] at hb
              simp only [before] at hb
              split at hb
              case isTrue => exact hb
              case isFalse =>
                rw [hctx]
                exact h.kept hb hopen

/-- One step: the write fails closed exactly where no earlier response survives. -/
theorem Recalled.failsClosed_iff {p : State × Ctx} {l : Label} (h : Recalled p) :
    FailsClosed cfg p l ↔ Retracted cfg p l := by
  constructor
  · intro hclosed e hl hfailure
    obtain rfl := hl
    have hresume : Pipeline.step cfg p.1 (.resume .main) = some (p.1.lastDefence cfg e) :=
      resumeMain_failure hfailure
    obtain ⟨r, hr, hstatus, hdiffers⟩ := hclosed _ e hresume rfl hfailure
    obtain ⟨r', hr', hset, _⟩ := lastDefence_passed cfg h.toUnsent hfailure
    obtain rfl : r = r' := by simpa using hr.symm.trans hr'
    cases hfinal : p.1.ctx.finalized with
    | false => exact Or.inl rfl
    | true =>
        obtain rfl := hset hfinal
        exact Or.inr ⟨hstatus, hdiffers⟩
  · intro hretracted t e hstep hl hfailure
    obtain rfl := hl
    have hresume : t = p.1.lastDefence cfg e :=
      Option.some.inj (hstep.symm.trans (resumeMain_failure hfailure))
    obtain ⟨r, hr, hset, hunset⟩ := lastDefence_passed cfg h.toUnsent hfailure
    refine ⟨r, hresume ▸ hr, ?_⟩
    rcases hretracted e rfl hfailure with hfinal | ⟨hstatus, hdiffers⟩
    · refine ⟨hunset hfinal, fun hb => ?_⟩
      rw [h.kept hb (isOpen_of_failure hfailure)] at hfinal
      cases hfinal
    · cases hfinal : p.1.ctx.finalized with
      | false =>
          refine ⟨hunset hfinal, fun hb => ?_⟩
          rw [h.kept hb (isOpen_of_failure hfailure)] at hfinal
          cases hfinal
      | true =>
          obtain rfl := hset hfinal
          exact ⟨hstatus, hdiffers⟩

end Steps

/--
After every exception of a `preSerialization` or `onSend` hook the response is an
error response, and not the one that stood before the hook, exactly when at each of
these moments no response is set, or a new one with the status of the exception.
-/
theorem fails_closed_iff (cfg : Config) (ls : List Label) :
    Transition.Along (remember cfg) (FailsClosed cfg)
        (State.init cfg, (State.init cfg).ctx) ls ↔
      Transition.Along (remember cfg) (Retracted cfg)
        (State.init cfg, (State.init cfg).ctx) ls := by
  constructor
  · exact fun h => h.of_invariant (fun _ _ _ hs _ hstep => hs.step hstep)
      (fun _ _ _ hs hP _ => hs.failsClosed_iff.1 hP) (recalled_init cfg)
  · exact fun h => h.of_invariant (fun _ _ _ hs _ hstep => hs.step hstep)
      (fun _ _ _ hs hP _ => hs.failsClosed_iff.2 hP) (recalled_init cfg)

/-- One `onSend` hook. -/
def signedChain : Chain := { bareChain with onSend := 1 }

/-- The handler answers, and the hook that should sign the response throws. -/
def unsigned : List Label :=
  [.start, .op .handler (.text "secret" none), .settle .core (.returned .nothing),
    .resume .core, .resume .main, .settle .main (.threw .other), .resume .main,
    .resume .main]

/-- The response of the handler leaves as it was. -/
theorem unsigned_response_leaves :
    ¬ ∀ (cfg : Config) (ls : List Label),
        Transition.Along (remember cfg) (FailsClosed cfg)
          (State.init cfg, (State.init cfg).ctx) ls := by
  intro hall
  have hclosed := hall (sampleConfig signedChain false) unsigned
  have hlast := ((((((((hclosed _ rfl).2 _ rfl).2 _ rfl).2 _ rfl).2 _ rfl).2 _ rfl).2
    _ rfl).2 _ rfl).1
  obtain ⟨r, hr, hstatus, _⟩ := hlast _ .other rfl rfl rfl
  obtain rfl := (List.cons.inj hr).1
  exact absurd hstatus (by decide)

end Pipeline
end OxideHttp
