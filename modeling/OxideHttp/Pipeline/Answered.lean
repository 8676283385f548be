import OxideHttp.Pipeline

/-!
# Every dispatched request is answered

Work is what a request does on its own once its user functions settle: the start,
the settling of a call, and the steps of its strands.  A run does boundedly much
work (`run_work_le`), and a request with no work left has settled, with a response
that the bridge accepted (`answered_once`).
-/

namespace OxideHttp
namespace Pipeline

open Context

/-! ## Replies -/

/-- The first accepted response is delivered, and completes the request. -/
structure Replies.Sound (convertible : NativeResponse → Bool) (p : Replies) : Prop where
  delivered : p.delivered = (p.accepted convertible).head?
  pending : p.pending = (p.accepted convertible).isEmpty

theorem Replies.sound_start (convertible : NativeResponse → Bool) :
    Replies.start.Sound convertible := ⟨rfl, rfl⟩

theorem Replies.accepted_respond (convertible : NativeResponse → Bool) (p : Replies)
    (r : NativeResponse) :
    (p.respond convertible r).accepted convertible =
      p.accepted convertible ++ if convertible r then [r] else [] := by
  rw [Replies.accepted, Replies.passed_respond, List.filter_append, List.filter_singleton]
  cases convertible r <;> rfl

theorem Replies.Sound.respond {convertible : NativeResponse → Bool} {p : Replies}
    (h : p.Sound convertible) (r : NativeResponse) :
    (p.respond convertible r).Sound convertible := by
  have haccepted := p.accepted_respond convertible r
  cases hr : convertible r with
  | false =>
      rw [hr, if_neg Bool.false_ne_true, List.append_nil] at haccepted
      have hsame : p.respond convertible r = { p with passed := p.passed ++ [r] } := by
        simp [Replies.respond, hr]
      refine ⟨?_, ?_⟩
      · rw [haccepted, hsame]
        exact h.delivered
      · rw [haccepted, hsame]
        exact h.pending
  | true =>
      rw [hr, if_pos rfl] at haccepted
      cases hempty : p.accepted convertible with
      | nil =>
          have hpending := h.pending
          rw [hempty] at hpending
          rw [hempty] at haccepted
          refine ⟨?_, ?_⟩ <;> rw [haccepted] <;>
            simp [Replies.respond, hr, hpending]
      | cons r' rs =>
          have hpending := h.pending
          have hdelivered := h.delivered
          rw [hempty] at hpending hdelivered
          rw [hempty] at haccepted
          refine ⟨?_, ?_⟩ <;> rw [haccepted] <;>
            simp [Replies.respond, hpending, hdelivered]

/-! ## The invariant -/

/-- What `#handleRequest` has done so far. -/
structure Replied (cfg : Config) (s : State) : Prop where
  sound : s.replies.Sound cfg.convertible
  sent : s.main.isSent = true → s.replies.accepted cfg.convertible ≠ []
  kept : s.main ≠ .rejected

/-- The invariant of a dispatched request. -/
structure Progress (cfg : Config) (s : State) : Prop extends Replied cfg s where
  begun : s.main = .idle ∨ s.core ≠ .idle
  root : s.core = .onion → s.onion ≠ []

section Invariant

variable {cfg : Config} {s t : State}

theorem progress_init (cfg : Config) : Progress cfg (State.init cfg) where
  sound := Replies.sound_start _
  sent := nofun
  kept := nofun
  begun := Or.inl rfl
  root := nofun

namespace State

theorem sendOff_replied (h : s.replies.Sound cfg.convertible) :
    Replied cfg (s.sendOff cfg) := by
  have hsound : (s.reply cfg).replies.Sound cfg.convertible := h.respond _
  unfold sendOff
  split
  case isTrue hconvertible =>
    have haccepted : (s.reply cfg).replies.accepted cfg.convertible ≠ [] := by
      simp [reply, Replies.accepted_respond, hconvertible]
    unfold afterSend
    split
    case isTrue => exact ⟨hsound, fun _ => haccepted, nofun⟩
    case isFalse => exact ⟨hsound, fun _ => haccepted, nofun⟩
  case isFalse => exact ⟨hsound, nofun, nofun⟩

theorem enterOnSend_replied (h : s.replies.Sound cfg.convertible) :
    Replied cfg (s.enterOnSend cfg) := by
  unfold enterOnSend
  split
  case isTrue => exact ⟨h, nofun, nofun⟩
  case isFalse => exact sendOff_replied h

theorem enterPreSerialization_replied (h : s.replies.Sound cfg.convertible) :
    Replied cfg (s.enterPreSerialization cfg) := by
  unfold enterPreSerialization
  split
  case isTrue => exact ⟨h, nofun, nofun⟩
  case isFalse => exact enterOnSend_replied h

theorem lastDefence_replied (err : Thrown) (h : s.replies.Sound cfg.convertible) :
    Replied cfg (s.lastDefence cfg err) := by
  unfold lastDefence
  split
  case isTrue => exact sendOff_replied h
  case isFalse => exact sendOff_replied h

theorem resumeMain_replied (hguard : cfg.convertible guardResponse = true)
    (h : Replied cfg s) (hresume : s.resumeMain cfg = some t) : Replied cfg t := by
  cases resumeMain_resumed hresume with
  | race => exact enterPreSerialization_replied h.sound
  | preSerialization | onSend => exact ⟨h.sound, nofun, nofun⟩
  | preSerialized => exact enterOnSend_replied h.sound
  | onSent => exact sendOff_replied h.sound
  | preSerializationThrew | onSendThrew => exact lastDefence_replied _ h.sound
  | onResponse hmain | responded hmain =>
      have hsent : s.replies.accepted cfg.convertible ≠ [] := h.sent (by rw [hmain]; rfl)
      exact ⟨h.sound, fun _ => hsent, nofun⟩
  | guard =>
      -- the guard: its own response converts
      rw [if_pos hguard]
      refine ⟨h.sound.respond _, fun _ => ?_, nofun⟩
      rw [Replies.accepted_respond, hguard, if_pos rfl]
      exact List.append_ne_nil_of_right_ne_nil _ (List.cons_ne_nil _ _)

end State

/-- Steps that leave `#handleRequest` alone keep what it has done. -/
theorem Replied.frame (h : Replied cfg s) (hmain : t.main = s.main)
    (hreplies : t.replies = s.replies) : Replied cfg t where
  sound := hreplies ▸ h.sound
  sent := by
    rw [hmain, hreplies]
    exact h.sent
  kept := hmain ▸ h.kept

theorem Progress.coreMove (h : Progress cfg s) (hmove : CoreMove s t) : Progress cfg t :=
  { h.toReplied.frame hmove.main hmove.replies with
    begun := Or.inr hmove.begun
    root := hmove.root }

theorem Progress.frame (h : Progress cfg s) (hmain : t.main = s.main)
    (hreplies : t.replies = s.replies) (hcore : t.core = s.core)
    (honion : s.onion.length ≤ t.onion.length) : Progress cfg t :=
  { h.toReplied.frame hmain hreplies with
    begun := by
      rw [hmain, hcore]
      exact h.begun
    root := by
      rw [hcore]
      intro hc hnil
      rw [hnil] at honion
      exact h.root hc (List.eq_nil_of_length_eq_zero (Nat.le_zero.1 honion)) }

theorem Progress.settle (h : Progress cfg s) (hmove : State.SettleMove s t) :
    Progress cfg t where
  sound := hmove.replies ▸ h.sound
  sent := by
    rw [hmove.sent, hmove.replies]
    exact h.sent
  kept := by
    rcases hmove.main with hmain | ⟨_, _, _, hkept⟩
    · exact hmain ▸ h.kept
    · exact hkept
  begun := by
    rcases hmove.core with hcore | ⟨hidle, _⟩
    · rw [hcore]
      refine h.begun.imp_left fun hmain => ?_
      rcases hmove.main with hsame | ⟨hafter, _⟩
      · exact hsame.trans hmain
      · rw [hmain] at hafter
        cases hafter
    · exact Or.inr hidle
  root := by
    rcases hmove.core with hcore | ⟨_, honion⟩
    · rw [hcore]
      intro hc hnil
      have hlength := hmove.onion
      rw [hnil] at hlength
      exact h.root hc (List.eq_nil_of_length_eq_zero hlength.symm)
    · exact fun hc => absurd hc honion

theorem Progress.watcherMove (h : Progress cfg s) (hmove : State.WatcherMove s t) :
    Progress cfg t :=
  h.frame hmove.main hmove.replies hmove.core (Nat.le_of_eq (by rw [hmove.onion]))

theorem Progress.resume (hguard : cfg.convertible State.guardResponse = true)
    (h : Progress cfg s) {strand : Strand} (hresume : s.resume cfg strand = some t) :
    Progress cfg t := by
  cases strand with
  | core => exact h.coreMove (State.resumeCore_move hresume)
  | task i =>
      obtain ⟨hframe, hcore, hlength⟩ := State.resumeTask_frame hresume
      exact h.frame hframe.main hframe.replies hcore (Nat.le_of_eq hlength.symm)
  | timer =>
      obtain ⟨loop, _, ⟨loop', _, rfl⟩ | ⟨failure, _, rfl⟩⟩ := State.resumeTimer_eq hresume
      · exact h.frame rfl rfl rfl (Nat.le_refl _)
      · exact h.frame rfl rfl rfl (Nat.le_refl _)
  | watcher => exact h.watcherMove (State.resumeWatcher_move hresume)
  | main =>
      have hmove := State.resumeMain_move hresume
      have hmain : s.main ≠ .idle := by
        intro hidle
        simp [State.resume, State.resumeMain, hidle] at hresume
      exact { State.resumeMain_replied hguard h.toReplied hresume with
              begun := Or.inr (hmove.core ▸ h.begun.resolve_left hmain)
              root := by
                rw [hmove.core, hmove.onion]
                exact h.root }

theorem Progress.step (hguard : cfg.convertible State.guardResponse = true)
    (h : Progress cfg s) {l : Label} (hstep : step cfg s l = some t) : Progress cfg t := by
  cases l with
  | start =>
      obtain ⟨_, rfl⟩ := start_eq hstep
      have hmove := State.runCore_move cfg (s.launch cfg)
      have hreplied : Replied cfg (s.launch cfg) :=
        { sound := h.sound, sent := nofun, kept := nofun }
      exact { hreplied.frame hmove.main hmove.replies with
              begun := Or.inr hmove.begun
              root := hmove.root }
  | op f o =>
      obtain ⟨_, rfl⟩ := op_eq hstep
      exact h.frame rfl rfl rfl (Nat.le_refl _)
  | next i =>
      obtain ⟨hframe, _, hcore, honion⟩ := State.next_frame hstep
      exact h.frame hframe.main hframe.replies hcore honion.length_le
  | settle strand out => exact h.settle (State.settle_move hstep)
  | resume strand => exact h.resume hguard hstep
  | fire =>
      obtain ⟨_, _, rfl⟩ := State.fire_eq hstep
      exact h.frame rfl rfl rfl (Nat.le_refl _)
  | waitAbort aborted => exact h.watcherMove (State.waitAbort_move hstep)

/-! ## No work left -/

/-- The loop waits for its user function, or can go on. -/
theorem Loop.moves (loop : Loop) (n : Nat) (stop : Bool) :
    (∀ out, (loop.settle out).isSome = true) ∨ (loop.resume n stop).isSome = true := by
  cases loop with
  | ended failure => exact Or.inr rfl
  | hook k call =>
      cases call with
      | none => exact Or.inl fun _ => rfl
      | some out => exact Or.inr rfl

/-- Some call of a user function is still running, or some strand can go on. -/
def Busy (cfg : Config) (s : State) : Prop :=
  ∃ strand, (∀ out, (s.settle out strand).isSome = true) ∨
    (s.resume cfg strand).isSome = true

/-- A strand in a loop is busy. -/
theorem busy_loop (strand : Strand) (loop : Loop) (n : Nat) (stop : Bool)
    (hsettle : ∀ out, (s.settle out strand).isSome = (loop.settle out).isSome)
    (hresume : (s.resume cfg strand).isSome = (loop.resume n stop).isSome) :
    Busy cfg s := by
  refine ⟨strand, ?_⟩
  rw [hresume]
  rcases loop.moves n stop with hwait | hgo
  · exact Or.inl fun out => (hsettle out).trans (hwait out)
  · exact Or.inr hgo

theorem busy_core (h : Progress cfg s) (hmain : s.main ≠ .idle)
    (hdone : s.core.isDone = false) : Busy cfg s := by
  have hidle := h.begun.resolve_left hmain
  cases hcore : s.core with
  | idle => exact absurd hcore hidle
  | done ending =>
      rw [hcore] at hdone
      cases hdone
  | before stage loop =>
      exact busy_loop .core loop (cfg.chain.before stage) s.ctx.finalized
        (fun out => by simp [State.settle, hcore])
        (by simp [State.resume, State.resumeCore, hcore])
  | bare call =>
      cases call with
      | none => exact ⟨.core, Or.inl fun out => by simp [State.settle, hcore]⟩
      | some out => exact ⟨.core, Or.inr (by simp [State.resume, State.resumeCore, hcore])⟩
  | onError err loop =>
      exact busy_loop .core loop cfg.chain.onError false
        (fun out => by simp [State.settle, hcore])
        (by simp [State.resume, State.resumeCore, hcore])
  | onion =>
      cases honion : s.onion with
      | nil => exact absurd honion (h.root hcore)
      | cons task tasks =>
          have hfirst : s.onion[0]? = some task := by rw [honion]; rfl
          cases task with
          | running call =>
              cases call with
              | none => exact ⟨.task 0, Or.inl fun out => by simp [State.settle, hfirst]⟩
              | some out =>
                  refine ⟨.task 0, Or.inr ?_⟩
                  simp only [State.resume, State.resumeTask, hfirst]
                  split <;> rfl
          | ended failure =>
              exact ⟨.core, Or.inr (by
                simp [State.resume, State.resumeCore, hcore, honion])⟩

/-- As long as the dispatch has not settled, something goes on or is awaited. -/
theorem busy_main (h : Progress cfg s) (hidle : s.main ≠ .idle)
    (hsettled : s.main ≠ .settled) : Busy cfg s := by
  cases hmain : s.main with
  | idle => exact absurd hmain hidle
  | settled => exact absurd hmain hsettled
  | rejected => exact absurd hmain h.kept
  | racing =>
      cases hdone : s.core.isDone with
      | false => exact busy_core h hidle hdone
      | true =>
          exact ⟨.main, Or.inr (by
            simp [State.resume, State.resumeMain, hmain, State.raceWon, hdone])⟩
  | failed => exact ⟨.main, Or.inr (by simp [State.resume, State.resumeMain, hmain])⟩
  | preSerialization loop =>
      exact busy_loop .main loop cfg.chain.preSerialization false
        (fun out => by simp [State.settle, hmain])
        (by simp [State.resume, State.resumeMain, hmain])
  | onSend loop =>
      exact busy_loop .main loop cfg.chain.onSend false
        (fun out => by simp [State.settle, hmain])
        (by simp [State.resume, State.resumeMain, hmain])
  | onResponse loop =>
      exact busy_loop .main loop cfg.chain.onResponse false
        (fun out => by simp [State.settle, hmain])
        (by simp [State.resume, State.resumeMain, hmain])

end Invariant

/-! ## How much work there is -/

/-- Work: the start of the request, a user function that settles, a strand that
goes on. -/
def Label.isWork : Label → Bool
  | .start | .settle .. | .resume _ => true
  | _ => false

/-- Above the rank of every loop over `n` functions. -/
def loopWork (n : Nat) : Nat := 2 * n + 4

def Loop.rank (n : Nat) : Loop → Nat
  | .hook k none => 2 * (n - k) + 3
  | .hook k (some _) => 2 * (n - k) + 2
  | .ended _ => 1

def Task.rank : Task → Nat
  | .running none => 2
  | .running (some _) => 1
  | .ended _ => 0

namespace Chain

variable (chain : Chain)

def handlerWork : Nat := loopWork chain.onError + 3

/-- The work of the stages after a stage. -/
def laterWork : BeforeStage → Nat
  | .preHandler => 0
  | .preValidation => loopWork (chain.before .preHandler)
  | .preParsing =>
      loopWork (chain.before .preHandler) + loopWork (chain.before .preValidation)
  | .onRequest =>
      loopWork (chain.before .preHandler) + loopWork (chain.before .preValidation) +
        loopWork (chain.before .preParsing)

def onionWork : Nat := 3 * (chain.middleware + 1)

def coreWork : Nat :=
  loopWork (chain.before .onRequest) + chain.laterWork .onRequest + chain.handlerWork +
    chain.onionWork

def afterWork : Nat :=
  loopWork chain.preSerialization + loopWork chain.onSend + loopWork chain.onResponse

/-- A bound for the work of one request. -/
def work : Nat :=
  chain.coreWork + loopWork chain.onTimeout + loopWork chain.onAbort + chain.afterWork +
    2 + chain.onionWork

end Chain

section Rank

variable (chain : Chain)

def Core.rank : Core → Nat
  | .idle | .done _ => 0
  | .before stage loop =>
      loop.rank (chain.before stage) + chain.laterWork stage + chain.handlerWork +
        chain.onionWork
  | .bare none => loopWork chain.onError + 2
  | .bare (some _) => loopWork chain.onError + 1
  | .onion => loopWork chain.onError + 1
  | .onError _ loop => loop.rank chain.onError

/-- The tasks of the onion, and those that may still be called. -/
def onionRank (onion : List Task) : Nat :=
  (onion.map Task.rank).sum + 3 * (chain.middleware + 1 - onion.length)

def Timer.rank : Timer → Nat
  | .off | .fired => 0
  | .armed => loopWork chain.onTimeout
  | .onTimeout loop => loop.rank chain.onTimeout

def Watcher.rank : Watcher → Nat
  | .off | .done => 0
  | .waiting => loopWork chain.onAbort
  | .onAbort loop => loop.rank chain.onAbort

def Main.rank : Main → Nat
  | .idle =>
      chain.coreWork + loopWork chain.onTimeout + loopWork chain.onAbort +
        chain.afterWork + 2
  | .racing => chain.afterWork
  | .preSerialization loop =>
      loop.rank chain.preSerialization + loopWork chain.onSend + loopWork chain.onResponse
  | .onSend loop => loop.rank chain.onSend + loopWork chain.onResponse
  | .onResponse loop => loop.rank chain.onResponse
  | .failed => 1
  | .settled | .rejected => 0

def State.coreRank (s : State) : Nat := s.core.rank chain + onionRank chain s.onion

def State.rank (s : State) : Nat :=
  s.main.rank chain + s.coreRank chain + s.timer.rank chain + s.watcher.rank chain

end Rank

section Ranking

variable {cfg : Config} {s t : State}

theorem Loop.rank_start (n : Nat) : (Loop.start n).rank n < loopWork n := by
  unfold Loop.start loopWork
  split <;> simp only [Loop.rank] <;> omega

theorem Loop.rank_settle (n k : Nat) (out : Outcome) :
    (Loop.hook k (some out)).rank n + 1 = (Loop.hook k none).rank n := rfl

/-- A loop that goes on comes closer to its end. -/
theorem Loop.rank_resume {loop loop' : Loop} {n : Nat} {stop : Bool}
    (h : loop.resume n stop = some (.inl loop')) : loop'.rank n < loop.rank n := by
  cases loop with
  | ended failure => cases h
  | hook k call =>
      cases call with
      | none => cases h
      | some out =>
          obtain rfl := Sum.inl.inj (Option.some.inj h)
          cases out with
          | threw e => simp only [Loop.after, Loop.rank]; omega
          | returned v =>
              rw [Loop.after]
              split
              case isTrue => simp only [Loop.rank]; omega
              case isFalse hmore =>
                have hk : k + 1 < n := by
                  simp only [Bool.or_eq_true, decide_eq_true_eq] at hmore
                  omega
                simp only [Loop.rank]
                omega

theorem Loop.rank_ended {loop : Loop} {n : Nat} {stop : Bool} {failure : Option Thrown}
    (h : loop.resume n stop = some (.inr failure)) : loop.rank n = 1 := by
  rw [Loop.resume_inr h, Loop.rank]

namespace State

theorem handleError_rank (cfg : Config) (s : State) (err : Thrown) :
    (s.handleError cfg err).coreRank cfg.chain <
      loopWork cfg.chain.onError + onionRank cfg.chain s.onion := by
  unfold handleError
  split
  case isTrue => simp only [coreRank, Core.rank, loopWork]; omega
  case isFalse =>
    have hstart := Loop.rank_start cfg.chain.onError
    simp only [coreRank, toCore, Core.rank]
    omega

theorem tried_rank (cfg : Config) (s : State) (failure : Option Thrown) :
    (State.tried cfg (s, failure)).coreRank cfg.chain <
      loopWork cfg.chain.onError + onionRank cfg.chain s.onion := by
  cases failure with
  | none => simp only [tried, coreRank, Core.rank, loopWork]; omega
  | some e => exact handleError_rank cfg s e

theorem enterHandler_rank (cfg : Config) (s : State) :
    (s.enterHandler cfg).coreRank cfg.chain <
      cfg.chain.handlerWork + cfg.chain.onionWork + onionRank cfg.chain s.onion := by
  unfold enterHandler
  split
  case isTrue =>
    simp only [coreRank, Core.rank, Chain.handlerWork, loopWork]
    omega
  case isFalse =>
    split
    case isTrue =>
      simp only [coreRank, Core.rank, Chain.handlerWork]
      omega
    case isFalse =>
      simp only [coreRank, Core.rank, Chain.handlerWork, Chain.onionWork, onionRank,
        Task.rank, List.map_cons, List.map_nil, List.sum_cons, List.sum_nil,
        List.length_cons, List.length_nil]
      omega

theorem enterStage_rank (cfg : Config) (s : State) (stage : BeforeStage) :
    (s.enterStage cfg stage).coreRank cfg.chain <
      loopWork (cfg.chain.before stage) + cfg.chain.laterWork stage +
        cfg.chain.handlerWork + cfg.chain.onionWork + onionRank cfg.chain s.onion := by
  unfold enterStage
  split
  case isTrue =>
    have hhandler := enterHandler_rank cfg s
    omega
  case isFalse =>
    have hstart := Loop.rank_start (cfg.chain.before stage)
    simp only [coreRank, toCore, Core.rank]
    omega

theorem runCore_rank (cfg : Config) (s : State) :
    (s.runCore cfg).coreRank cfg.chain <
      cfg.chain.coreWork + onionRank cfg.chain s.onion := by
  unfold runCore
  split
  case isTrue =>
    have hstage := enterStage_rank cfg s .onRequest
    simp only [Chain.coreWork]
    omega
  case isFalse =>
    have hhandler := enterHandler_rank cfg s
    simp only [Chain.coreWork]
    omega

/-- The stage after a stage has its part of the later work. -/
theorem laterWork_next {stage next : BeforeStage} (h : stage.next = some next)
    (chain : Chain) :
    chain.laterWork stage = loopWork (chain.before next) + chain.laterWork next := by
  cases stage <;> cases h <;> simp only [Chain.laterWork] <;> omega

theorem coreRank_eq {c : Core} (hcore : s.core = c) :
    s.coreRank cfg.chain = c.rank cfg.chain + onionRank cfg.chain s.onion := by
  rw [coreRank, hcore]

theorem resumeCore_rank (h : s.resumeCore cfg = some t) :
    t.coreRank cfg.chain < s.coreRank cfg.chain := by
  cases resumeCore_resumed h with
  | before hcore hnext | onError hcore hnext =>
      have hrank := Loop.rank_resume hnext
      rw [coreRank_eq hcore]
      simp only [coreRank, toCore, Core.rank]
      omega
  | @stage _ stage' _ hcore hnext hlater =>
      have hone := Loop.rank_ended hnext
      have hrank := enterStage_rank cfg s stage'
      have hwork := laterWork_next hlater cfg.chain
      rw [coreRank_eq hcore, Core.rank]
      omega
  | handler hcore hnext =>
      have hone := Loop.rank_ended hnext
      have hrank := enterHandler_rank cfg s
      rw [coreRank_eq hcore, Core.rank]
      omega
  | @beforeThrew _ _ e hcore hnext =>
      have hone := Loop.rank_ended hnext
      have hrank := handleError_rank cfg s e
      rw [coreRank_eq hcore, Core.rank, Chain.handlerWork]
      omega
  | @bare out hcore =>
      have honion : (s.applied out).1.onion = s.onion := by cases out <;> rfl
      have hrank : (State.tried cfg (s.applied out)).coreRank cfg.chain <
          loopWork cfg.chain.onError + onionRank cfg.chain (s.applied out).1.onion :=
        tried_rank cfg (s.applied out).1 (s.applied out).2
      rw [honion] at hrank
      rw [coreRank_eq hcore, Core.rank]
      omega
  | @onion failure hcore =>
      have hrank := tried_rank cfg s failure
      rw [coreRank_eq hcore, Core.rank]
      omega
  | @handled _ _ failure hcore hnext =>
      have hone := Loop.rank_ended hnext
      rw [coreRank_eq hcore, Core.rank]
      cases failure <;> simp only [coreRank, afterOnError, Core.rank] <;> omega

theorem sendOff_rank (cfg : Config) (s : State) :
    (s.sendOff cfg).main.rank cfg.chain < loopWork cfg.chain.onResponse := by
  have hstart := Loop.rank_start cfg.chain.onResponse
  unfold sendOff
  split
  case isTrue =>
    unfold afterSend
    split
    case isTrue => exact hstart
    case isFalse => simp only [Main.rank, loopWork]; omega
  case isFalse => simp only [Main.rank, loopWork]; omega

theorem enterOnSend_rank (cfg : Config) (s : State) :
    (s.enterOnSend cfg).main.rank cfg.chain <
      loopWork cfg.chain.onSend + loopWork cfg.chain.onResponse := by
  unfold enterOnSend
  split
  case isTrue =>
    have hstart := Loop.rank_start cfg.chain.onSend
    simp only [toMain, Main.rank]
    omega
  case isFalse =>
    have hrank := sendOff_rank cfg s
    omega

theorem enterPreSerialization_rank (cfg : Config) (s : State) :
    (s.enterPreSerialization cfg).main.rank cfg.chain < cfg.chain.afterWork := by
  unfold enterPreSerialization Chain.afterWork
  split
  case isTrue =>
    have hstart := Loop.rank_start cfg.chain.preSerialization
    simp only [toMain, Main.rank]
    omega
  case isFalse =>
    have hrank := enterOnSend_rank cfg s
    omega

theorem lastDefence_rank (cfg : Config) (s : State) (err : Thrown) :
    (s.lastDefence cfg err).main.rank cfg.chain < loopWork cfg.chain.onResponse :=
  sendOff_rank cfg _

theorem resumeMain_rank (h : s.resumeMain cfg = some t) :
    t.main.rank cfg.chain < s.main.rank cfg.chain := by
  cases resumeMain_resumed h with
  | race hmain =>
      rw [hmain]
      exact enterPreSerialization_rank cfg s
  | preSerialization hmain hnext | onSend hmain hnext =>
      have hrank := Loop.rank_resume hnext
      rw [hmain]
      simp only [toMain, Main.rank]
      omega
  | preSerialized hmain =>
      have hrank := enterOnSend_rank cfg s
      rw [hmain, Main.rank]
      omega
  | onSent hmain =>
      have hrank := sendOff_rank cfg s
      rw [hmain, Main.rank]
      omega
  | @preSerializationThrew _ e hmain | @onSendThrew _ e hmain =>
      have hrank := lastDefence_rank cfg s e
      rw [hmain, Main.rank]
      omega
  | onResponse hmain hnext =>
      rw [hmain, Main.rank]
      exact Loop.rank_resume hnext
  | responded hmain hnext =>
      rw [hmain, Main.rank, Loop.rank_ended hnext]
      exact Nat.one_pos
  | guard hmain =>
      rw [hmain]
      dsimp only
      split <;> exact Nat.one_pos

theorem resumeTask_rank {i : Nat} (h : s.resumeTask cfg i = some t) :
    t.coreRank cfg.chain < s.coreRank cfg.chain := by
  have hset : ∀ failure out, s.onion[i]? = some (.running (some out)) →
      onionRank cfg.chain (s.onion.set i (.ended failure)) <
        onionRank cfg.chain s.onion := by
    intro failure out htask
    have hsum := Transition.sum_map_set_add Task.rank htask (.ended failure)
    simp only [Task.rank] at hsum
    simp only [onionRank, List.length_set]
    omega
  obtain ⟨out, htask, ⟨_, failure, rfl⟩ | ⟨_, rfl⟩⟩ := resumeTask_eq h
  · exact Nat.add_lt_add_left (hset _ out htask) _
  · have hcore : (s.applied out).1.core = s.core := by cases out <;> rfl
    simp only [coreRank, hcore]
    exact Nat.add_lt_add_left (hset _ out htask) _

theorem next_rank {i : Nat} (h : s.next cfg i = some t) :
    t.coreRank cfg.chain ≤ s.coreRank cfg.chain := by
  unfold next at h
  split at h
  case isFalse => cases h
  case isTrue hi =>
    split at h
    case isTrue =>
      obtain rfl := Option.some.inj h
      exact Nat.le_refl _
    case isFalse =>
      obtain rfl := Option.some.inj h
      simp only [coreRank, onionRank, List.map_append, List.map_cons, List.map_nil,
        List.sum_append, List.sum_cons, List.sum_nil, List.length_append, List.length_cons,
        List.length_nil, Task.rank]
      omega

theorem settle_rank {out : Outcome} {strand : Strand} (chain : Chain)
    (h : s.settle out strand = some t) : t.rank chain + 1 = s.rank chain := by
  cases settle_settled h with
  | @before stage k hcore =>
      have hrank := Loop.rank_settle (chain.before stage) k out
      simp only [rank, coreRank, hcore, Core.rank]
      omega
  | bare hcore =>
      simp only [rank, coreRank, hcore, Core.rank]
      omega
  | @onError _ k hcore =>
      have hrank := Loop.rank_settle chain.onError k out
      simp only [rank, coreRank, hcore, Core.rank]
      omega
  | task htask =>
      have hsum := Transition.sum_map_set_add Task.rank htask (.running (some out))
      simp only [Task.rank] at hsum
      simp only [rank, coreRank, onionRank, List.length_set]
      omega
  | @onTimeout k htimer =>
      have hrank := Loop.rank_settle chain.onTimeout k out
      simp only [rank, coreRank, htimer, Timer.rank]
      omega
  | @onAbort k hwatcher =>
      have hrank := Loop.rank_settle chain.onAbort k out
      simp only [rank, coreRank, hwatcher, Watcher.rank]
      omega
  | @preSerialization k hmain =>
      have hrank := Loop.rank_settle chain.preSerialization k out
      simp only [rank, coreRank, hmain, Main.rank]
      omega
  | @onSend k hmain =>
      have hrank := Loop.rank_settle chain.onSend k out
      simp only [rank, coreRank, hmain, Main.rank]
      omega
  | @onResponse k hmain =>
      have hrank := Loop.rank_settle chain.onResponse k out
      simp only [rank, coreRank, hmain, Main.rank]
      omega

theorem resume_rank {strand : Strand} (h : s.resume cfg strand = some t) :
    t.rank cfg.chain < s.rank cfg.chain := by
  cases strand with
  | core =>
      have hrank := resumeCore_rank h
      have hmove := resumeCore_move h
      simp only [rank, hmove.main, hmove.timer, hmove.watcher]
      omega
  | task i =>
      have hrank := resumeTask_rank h
      obtain ⟨hframe, _, _⟩ := resumeTask_frame h
      simp only [rank, hframe.main, hframe.timer, hframe.watcher]
      omega
  | timer =>
      obtain ⟨loop, htimer, ⟨loop', hnext, rfl⟩ | ⟨failure, rfl, rfl⟩⟩ := resumeTimer_eq h
      · have hrank := Loop.rank_resume hnext
        simp only [rank, coreRank, toTimer, htimer, Timer.rank]
        omega
      · simp only [rank, coreRank, latch, htimer, Timer.rank, Loop.rank]
        omega
  | watcher =>
      simp only [resume, resumeWatcher] at h
      split at h
      case h_1 hwatcher =>
        obtain ⟨loop' | failure, hnext, rfl⟩ := Option.map_eq_some_iff.1 h
        · have hrank := Loop.rank_resume hnext
          simp only [rank, coreRank, toWatcher, hwatcher, Watcher.rank]
          omega
        · have hone := Loop.rank_ended hnext
          simp only [rank, coreRank, hwatcher, Watcher.rank]
          omega
      case h_2 => cases h
  | main =>
      have hrank := resumeMain_rank h
      have hmove := resumeMain_move h
      simp only [rank, coreRank, hmove.core, hmove.onion, hmove.timer, hmove.watcher]
      omega

end State

/-- Work pays one unit of rank; nothing else adds to it. -/
theorem step_rank {l : Label} (h : step cfg s l = some t) :
    t.rank cfg.chain + (if l.isWork then 1 else 0) ≤ s.rank cfg.chain := by
  cases l with
  | start =>
      obtain ⟨hmain, rfl⟩ := start_eq h
      have hmove := State.runCore_move cfg (s.launch cfg)
      have hrank := State.runCore_rank cfg (s.launch cfg)
      have htimer : (s.launch cfg).timer.rank cfg.chain ≤ loopWork cfg.chain.onTimeout := by
        simp only [State.launch]
        split <;> simp only [Timer.rank] <;> omega
      have hwatcher : (s.launch cfg).watcher.rank cfg.chain ≤
          loopWork cfg.chain.onAbort := by
        simp only [State.launch]
        split <;> simp only [Watcher.rank] <;> omega
      have honion : (s.launch cfg).onion = s.onion := rfl
      have hracing : (s.launch cfg).main = .racing := rfl
      simp only [State.rank, hmove.main, hmove.timer, hmove.watcher, hmain, hracing,
        Main.rank, Label.isWork, if_true]
      rw [honion] at hrank
      simp only [State.coreRank] at hrank ⊢
      omega
  | op f o =>
      obtain ⟨_, rfl⟩ := op_eq h
      exact Nat.le_refl _
  | next i =>
      have hrank := State.next_rank h
      obtain ⟨hframe, _, _, _⟩ := State.next_frame h
      simp only [State.rank, hframe.main, hframe.timer, hframe.watcher, Label.isWork]
      simp only [Bool.false_eq_true, if_false]
      omega
  | settle strand out => exact Nat.le_of_eq (State.settle_rank cfg.chain h)
  | resume strand => exact State.resume_rank h
  | fire =>
      obtain ⟨htimer, _, rfl⟩ := State.fire_eq h
      have hstart := Loop.rank_start cfg.chain.onTimeout
      simp only [State.rank, State.coreRank, State.toTimer, htimer, Timer.rank,
        Label.isWork, Bool.false_eq_true, if_false]
      omega
  | waitAbort aborted =>
      simp only [step, State.waitAbort] at h
      split at h
      case h_1 hwatcher =>
        have hstart := Loop.rank_start cfg.chain.onAbort
        split at h
        case isTrue =>
          obtain rfl := Option.some.inj h
          simp only [State.rank, State.coreRank, hwatcher, Watcher.rank, Label.isWork,
            Bool.false_eq_true, if_false]
          omega
        case isFalse =>
          obtain rfl := Option.some.inj h
          simp only [State.rank, State.coreRank, State.toWatcher, hwatcher, Watcher.rank,
            Label.isWork, Bool.false_eq_true, if_false]
          omega
      case h_2 => cases h

/-- A run does boundedly much work, whatever user code does in between. -/
theorem run_work_le {ls : List Label}
    (h : Transition.run (step cfg) (State.init cfg) ls = some s) :
    ls.countP Label.isWork ≤ cfg.chain.work := by
  have hcount := Transition.run_countP_le (State.rank cfg.chain) Label.isWork
    (fun _ _ _ hstep => step_rank hstep) h
  have hinit : (State.init cfg).rank cfg.chain = cfg.chain.work := by
    simp only [State.rank, State.coreRank, State.init, Main.rank, Core.rank, onionRank,
      Timer.rank, Watcher.rank, Chain.work, Chain.onionWork, List.map_nil, List.sum_nil,
      List.length_nil]
    omega
  omega

end Ranking

/-! ## The answer -/

/-- No user function is running, and nothing can go on by itself. -/
def Quiet (cfg : Config) (s : State) : Prop :=
  ∀ l, l.isWork = true → step cfg s l = none

/-- The dispatch of a request that is left alone has settled. -/
theorem Progress.settled {cfg : Config} {s : State} (h : Progress cfg s)
    (hquiet : Quiet cfg s) : s.main = .settled := by
  have hidle : s.main ≠ .idle := by
    intro hidle
    have hstart := hquiet .start rfl
    simp [Pipeline.step, State.start, hidle] at hstart
  by_contra hsettled
  obtain ⟨strand, hwait | hgo⟩ := busy_main h hidle hsettled
  · have hnone : s.settle (.returned .nothing) strand = none :=
      hquiet (.settle strand (.returned .nothing)) rfl
    have hsome := hwait (.returned .nothing)
    rw [hnone] at hsome
    cases hsome
  · have hnone : s.resume cfg strand = none := hquiet (.resume strand) rfl
    rw [hnone] at hgo
    cases hgo

/--
Every dispatched request is answered exactly once.  Along every run the dispatch
never rejects, only the first response that the bridge accepts is delivered, and
the work is bounded; and when every user function has settled and nothing is left
to do, the dispatch has settled and the bridge has accepted a response.
-/
theorem answered_once (cfg : Config) (hguard : cfg.convertible State.guardResponse = true)
    (ls : List Label) (s : State)
    (hrun : Transition.run (step cfg) (State.init cfg) ls = some s) :
    s.main ≠ .rejected ∧
      s.replies.delivered = (s.replies.accepted cfg.convertible).head? ∧
      ls.countP Label.isWork ≤ cfg.chain.work ∧
      (Quiet cfg s → s.main = .settled ∧ s.replies.accepted cfg.convertible ≠ []) := by
  have h : Progress cfg s :=
    Transition.run_invariant (fun _ _ _ h hstep => h.step hguard hstep)
      (progress_init cfg) hrun
  refine ⟨h.kept, h.sound.delivered, run_work_le hrun, fun hquiet => ?_⟩
  have hsettled := h.settled hquiet
  exact ⟨hsettled, h.sent (by rw [hsettled]; rfl)⟩

/-- A handler that answers and returns. -/
def answering : List Label :=
  [.start, .op .handler (.text "hi" none), .settle .core (.returned .nothing),
    .resume .core, .resume .main]

theorem answered_once_bare :
    ∃ s, Transition.run (step (sampleConfig bareChain false))
        (State.init (sampleConfig bareChain false)) answering = some s ∧
      s.main = .settled ∧ s.replies.accepted (fun _ => true) ≠ [] := by
  refine ⟨_, rfl, ?_⟩
  refine (answered_once (sampleConfig bareChain false) rfl answering _ rfl).2.2.2 ?_
  intro l hl
  cases l with
  | op | next | fire | waitAbort => cases hl
  | start => rfl
  | settle strand out => cases strand <;> rfl
  | resume strand => cases strand <;> rfl

end Pipeline
end OxideHttp
