import OxideHttp.Multipart.Reading

/-!
# Ends of forms and of bodies (`src/stream.rs`)

`next_part` and `read_part` over the channel that `parse_task` feeds.  A closed channel
is the end of the form, or the end of the part, for them: also when the task was
dropped.

Results.
* `FormSound`: what holds of a form in every run; `FormSound.step`.
* `Placed`: where JS stands in a run in which it reads parts that it was given and the
  task is not cut off.
* `end_authentic`: the ends that `read`, `next_part` and `read_part` report are those
  that `hyper` and the parser reported, as long as no task is dropped before it has
  returned.
-/

namespace OxideHttp
namespace Multipart

open Body

/-- A form on its way to the handler. -/
structure FormIo where
  feed : Feed.State ParseTask MpEvent
  /-- what the parser has reported to the task so far -/
  heard : List Report
  /-- the current part is finished -/
  ended : Bool
  /-- a call of `next_part` is looking for the next part -/
  seeking : Bool
  log : List Saw

inductive FormLabel where
  /-- the parser yields what the task waits for -/
  | parse
  /-- a `send` of the task resolves -/
  | send
  /-- the runtime drops the task -/
  | dropTask
  /-- JS calls `next_part` -/
  | nextPart
  /-- the loop of `next_part` takes one event -/
  | seek
  /-- JS calls `read_part`, and it resolves -/
  | readPart
  /-- JS lets go of the `BodyIo` -/
  | dropIo
  deriving DecidableEq, Repr

def FormIo.open (form : Form) : FormIo where
  feed := Feed.State.start (.nextField ⟨0, 0, form.parts⟩)
  heard := []
  ended := false
  seeking := false
  log := []

section Run

variable (lowercase : String → String) (cfg : MultipartConfig) (complete : Bool)

/-- The side of the form that JS sees. -/
def FormIo.mp (todo : List MpEvent) (f : FormIo) : MpIo where
  rx := f.feed.pipe (ParseTask.await lowercase cfg complete) todo
  ended := f.ended
  seeking := f.seeking
  log := f.log

/-- One receive, of which `look` tells what `next_part` or `read_part` makes.  It does
not depend on the pipe. -/
def FormIo.take (look : MpIo → Pipe.State MpEvent → Option MpEvent → MpIo)
    (f : FormIo) : Option FormIo :=
  (f.feed.recv (ParseTask.await lowercase cfg complete)).map fun r =>
    let io := look (f.mp lowercase cfg complete [])
      (r.2.pipe (ParseTask.await lowercase cfg complete) []) r.1
    { f with feed := r.2, ended := io.ended, seeking := io.seeking, log := io.log }

def FormIo.step (f : FormIo) : FormLabel → Option FormIo
  | .parse =>
      (f.feed.work (ParseTask.await lowercase cfg complete)).map fun feed =>
        { f with feed := feed, heard := f.heard ++ f.feed.task.hears complete }
  | .send =>
      (f.feed.send (ParseTask.await lowercase cfg complete) bodyChannelCap).map fun feed =>
        { f with feed := feed }
  | .dropTask =>
      some { f with feed := f.feed.cutOff (ParseTask.await lowercase cfg complete) }
  | .nextPart => if f.seeking then none else some { f with seeking := true }
  | .seek => if f.seeking then f.take lowercase cfg complete MpIo.sought else none
  | .readPart =>
      if f.seeking then none
      else if f.ended then some { f with log := f.log ++ [.chunk none] }
      else f.take lowercase cfg complete MpIo.partRead
  | .dropIo => some { f with feed := f.feed.drop }

end Run

def Saw.isGiven : Saw → Bool
  | .part (some _) => true
  | _ => false

/-- No call has thrown. -/
def FormIo.unrejected (f : FormIo) : Prop := ∀ w ∈ f.log, w.isRejected = false

/-- While no call has thrown, `next_part` has returned `null` only after the parser
reported the end of the form, and when `read_part` returns `null`, the parser has
reported the end of each part that JS was given. -/
def FormIo.authentic (f : FormIo) : Prop :=
  f.unrejected →
    (.part none ∈ f.log → .formEnd ∈ f.heard) ∧
      (f.log.getLast? = some (.chunk none) →
        f.log.countP Saw.isGiven ≤ f.heard.count .fieldEnd)

/-- The task is dropped only after it has returned, and `read_part` is called, as
`makePart` does, for a part that `next_part` has returned. -/
def FormIo.orderly (f : FormIo) (l : FormLabel) : Prop :=
  (l = .dropTask → f.feed.task = .returned) ∧
    (l = .readPart → ∃ info, Saw.part (some info) ∈ f.log)

/-! ## What holds of a form -/

section Sound

variable (lowercase : String → String) (cfg : MultipartConfig) (complete : Bool)

/-- What is known of a form whose task sends `msgs` if nothing stops it. -/
structure FormSound (msgs sent todo : List MpEvent) (f : FormIo) : Prop where
  fed : Feed.Fed (ParseTask.await lowercase cfg complete) msgs sent todo f.feed
  mp : MpSound sent (f.mp lowercase cfg complete todo)
  /-- the last event of the task is a rejection -/
  failing : ∀ e, f.feed.task = .sendLast e → e.isReject = true
  /-- the ends of parts that are sent were reported -/
  ends : (f.feed.got ++ f.feed.buf).countP MpEvent.isEnd + f.feed.task.sendsEnd ≤
    f.heard.count .fieldEnd
  /-- the task returns at the end of the form, after a rejection, or without a reader -/
  returned : f.feed.task = .returned → f.feed.receiverGone = false →
    .formEnd ∈ f.heard ∨ ∃ e ∈ f.feed.got ++ f.feed.buf, e.isReject = true
  formEnd : f.feed.cut = false → f.unrejected → .part none ∈ f.log → .formEnd ∈ f.heard

variable {lowercase cfg complete} {msgs sent todo : List MpEvent} {f g : FormIo}

theorem formSound_open (form : Form) :
    FormSound lowercase cfg complete (parseTask lowercase cfg complete 0 0 form.parts)
      (parseTask lowercase cfg complete 0 0 form.parts)
      (parseTask lowercase cfg complete 0 0 form.parts) (FormIo.open form) := by
  have hfed := Feed.fed_start (ParseTask.await lowercase cfg complete)
    (sends_parse lowercase cfg complete 0 0 form.parts)
  exact
    { fed := hfed
      mp := mpSound_open hfed.sound rfl
      failing := fun e h => by cases h
      ends := Nat.le_refl 0
      returned := fun h => by cases h
      formEnd := fun _ _ h => by cases h }

theorem FormSound.parse (hf : FormSound lowercase cfg complete msgs sent todo f)
    (h : f.step lowercase cfg complete .parse = some g) :
    FormSound lowercase cfg complete msgs sent todo g := by
  obtain ⟨feed, hwork, rfl⟩ := Option.map_eq_some_iff.1 h
  obtain ⟨hfed, hframe⟩ := hf.fed.work _ hwork
  obtain ⟨_, next, hawait, rfl⟩ := (Feed.work_eq_some _).1 hwork
  obtain ⟨hret, hreject, hends⟩ := ParseTask.work_cases hawait
  have hbefore := hf.ends
  exact
    { fed := hfed
      mp := hf.mp.frame hfed.sound hframe rfl
      failing := hreject
      ends := by
        rw [List.count_append]
        exact Nat.add_le_add (Nat.le_of_add_right_le hbefore) hends
      returned := fun hr _ => Or.inl (List.mem_append_right _ (hret hr))
      formEnd := fun hcut hok hnull => List.mem_append_left _ (hf.formEnd hcut hok hnull) }

theorem FormSound.send (hf : FormSound lowercase cfg complete msgs sent todo f)
    (h : f.step lowercase cfg complete .send = some g) :
    ∃ rest, FormSound lowercase cfg complete msgs sent rest g := by
  obtain ⟨feed, hsend, rfl⟩ := Option.map_eq_some_iff.1 h
  obtain ⟨⟨rest, hfed⟩, hframe⟩ := hf.fed.send _ hsend
  have hmp : MpSound sent (FormIo.mp lowercase cfg complete rest { f with feed := feed }) :=
    hf.mp.frame hfed.sound hframe rfl
  have hbefore := hf.ends
  obtain ⟨_, e, next, refused, hawait, ⟨hgone, rfl⟩ | ⟨_, rfl⟩⟩ := Feed.send_cases _ hsend
  · obtain ⟨rfl, _⟩ := ParseTask.send_cases hawait
    exact ⟨rest,
      { fed := hfed
        mp := hmp
        failing := fun _ he => by cases he
        ends := Nat.le_of_add_right_le hbefore
        returned := fun _ hthere => by cases hgone.symm.trans hthere
        formEnd := hf.formEnd }⟩
  · obtain ⟨_, hlast, hno, hnext, hend⟩ := ParseTask.send_cases hawait
    refine ⟨rest,
      { fed := hfed
        mp := hmp
        failing := fun d hd => absurd hd (hno d)
        ends := ?_
        returned := fun hret _ => Or.inr ⟨e, by simp, hf.failing e (hlast hret)⟩
        formEnd := hf.formEnd }⟩
    have hone : (if e.isEnd = true then 1 else 0) ≤ f.feed.task.sendsEnd := by
      split
      case isFalse => exact Nat.zero_le _
      case isTrue he =>
        rcases hend he with htask | hsends
        · have hreject := hf.failing e htask
          cases e <;> simp_all [MpEvent.isEnd, MpEvent.isReject]
        · exact hsends.ge
    simp only [List.countP_append, List.countP_cons, List.countP_nil, hnext] at hbefore ⊢
    omega

theorem FormIo.take_cases {look : MpIo → Pipe.State MpEvent → Option MpEvent → MpIo}
    (h : f.take lowercase cfg complete look = some g) :
    ∃ r io, io = look (f.mp lowercase cfg complete [])
        (g.feed.pipe (ParseTask.await lowercase cfg complete) []) r ∧
      f.feed.recv (ParseTask.await lowercase cfg complete) = some (r, g.feed) ∧
      g = { f with feed := g.feed, ended := io.ended, seeking := io.seeking,
                   log := io.log } := by
  obtain ⟨⟨r, feed⟩, hrecv, rfl⟩ := Option.map_eq_some_iff.1 h
  exact ⟨r, _, rfl, hrecv, rfl⟩

/-- A receive of `next_part` or `read_part`, which logs what it makes of it. -/
theorem FormSound.take (hf : FormSound lowercase cfg complete msgs sent todo f)
    {look : MpIo → Pipe.State MpEvent → Option MpEvent → MpIo}
    (hlook : ∀ io rx r, (look io rx r).rx = rx ∧
      ∃ saw, (look io rx r).log = io.log ++ saw ∧ Logs r saw)
    (h : f.take lowercase cfg complete look = some g) :
    FormSound lowercase cfg complete msgs sent todo g := by
  obtain ⟨r, io, hio, hrecv, hg⟩ := FormIo.take_cases h
  have hfed := hf.fed.recv _ hrecv
  obtain ⟨_, saw, hsaw, hlogs⟩ := hlook (f.mp lowercase cfg complete [])
    (g.feed.pipe (ParseTask.await lowercase cfg complete) []) r
  rw [← hio] at hsaw
  have hlog : g.log = f.log ++ saw := by
    rw [hg]
    exact hsaw
  have hheard : g.heard = f.heard := by rw [hg]
  have hmp : MpSound sent (g.mp lowercase cfg complete todo) :=
    mpSound_recv hf.mp (Feed.recv_pipe _ hrecv todo) hlogs rfl hlog
  have hold : g.unrejected → f.unrejected := fun hok w hw =>
    hok w (hlog ▸ List.mem_append_left _ hw)
  clear hio hg hsaw
  obtain ⟨feed, heard, ended, seeking, log⟩ := g
  obtain rfl : heard = f.heard := hheard
  obtain ⟨hthere, ⟨e, buf, rfl, hbuf, rfl⟩ | ⟨rfl, hbuf, hgone, rfl⟩⟩ :=
    Feed.recv_cases _ hrecv
  · have hsame : f.feed.got ++ [e] ++ buf = f.feed.got ++ f.feed.buf := by simp [hbuf]
    refine ⟨hfed, hmp, hf.failing, ?_, fun hret hthere => ?_, fun hcut hok hnull => ?_⟩
    · simpa only [hsame] using hf.ends
    · simpa only [hsame] using hf.returned hret hthere
    · refine hf.formEnd hcut (hold hok) ?_
      rcases List.mem_append.1 (hlog ▸ hnull) with hnull | hnull
      · exact hnull
      · cases hlogs.2.1 hnull
  · refine ⟨hfed, hmp, hf.failing, hf.ends, hf.returned, fun hcut hok hnull => ?_⟩
    have hdone : (f.feed.task.await lowercase cfg complete).isDone = true := by
      simpa [Feed.State.senderGone, show f.feed.cut = false from hcut] using hgone
    rcases hf.returned (ParseTask.returned_of_done hdone) hthere with hend | ⟨e, he, hreject⟩
    · exact hend
    · rw [hbuf, List.append_nil] at he
      rw [hmp.clean hok e he] at hreject
      cases hreject

theorem FormSound.step {l : FormLabel}
    (hf : FormSound lowercase cfg complete msgs sent todo f)
    (h : f.step lowercase cfg complete l = some g) :
    ∃ sent todo, FormSound lowercase cfg complete msgs sent todo g := by
  cases l with
  | parse => exact ⟨sent, todo, hf.parse h⟩
  | send => exact ⟨sent, hf.send h⟩
  | dropTask =>
      obtain rfl := Option.some.inj h
      obtain ⟨sent, rest, hfed⟩ := hf.fed.cutOff
      refine ⟨sent, rest, hfed, hf.mp.frame hfed.sound ⟨rfl, rfl⟩ rfl, hf.failing, hf.ends,
        hf.returned, fun hcut => hf.formEnd ?_⟩
      simp only [Feed.State.cutOff, Bool.or_eq_false_iff] at hcut
      exact hcut.1
  | nextPart =>
      simp only [FormIo.step, Option.ite_none_left_eq_some] at h
      obtain rfl := Option.some.inj h.2
      exact ⟨sent, todo, hf.fed, hf.mp.frame hf.mp.sound ⟨rfl, rfl⟩ rfl, hf.failing, hf.ends,
        hf.returned, hf.formEnd⟩
  | seek =>
      simp only [FormIo.step, Option.ite_none_right_eq_some] at h
      exact ⟨sent, todo, hf.take sought_logs h.2⟩
  | readPart =>
      simp only [FormIo.step, Option.ite_none_left_eq_some] at h
      obtain ⟨_, h⟩ := h
      split at h
      case isFalse => exact ⟨sent, todo, hf.take partRead_logs h⟩
      case isTrue =>
        obtain rfl := Option.some.inj h
        refine ⟨sent, todo, hf.fed, ?_, hf.failing, hf.ends, hf.returned,
          fun hcut hok hnull => hf.formEnd hcut ?_ (by simpa using hnull)⟩
        · exact
            { sound := hf.mp.sound
              handed := by simpa [MpIo.handed, FormIo.mp, Saw.bytes] using hf.mp.handed
              eof := fun hmem => hf.mp.eof (by simpa [FormIo.mp] using hmem)
              clean := fun hok => hf.mp.clean fun w hw => hok w (List.mem_append_left _ hw) }
        · exact fun w hw => hok w (List.mem_append_left _ hw)
  | dropIo =>
      obtain rfl := Option.some.inj h
      have hfed := hf.fed.drop
      refine ⟨sent, todo, hfed, hf.mp.frame hfed.sound ⟨rfl, rfl⟩ rfl, hf.failing, ?_,
        (fun _ hthere => by cases hthere), hf.formEnd⟩
      have hbefore := hf.ends
      simp only [Feed.State.drop, List.countP_append, List.countP_nil] at hbefore ⊢
      omega

/-! ## Orderly runs -/

/-- Where JS stands in an orderly run: it has been given the parts that have come, and
between two calls `ended` tells whether the last one is closed. -/
structure Placed (f : FormIo) : Prop where
  cut : f.feed.cut = false
  given : f.unrejected → f.log.countP Saw.isGiven = f.feed.got.countP MpEvent.isPart
  place : f.unrejected → f.seeking = false → f.feed.ended = false →
    f.feed.got.countP MpEvent.isPart ≠ 0 → f.ended = !inside f.feed.got
  last : f.unrejected → f.log.getLast? = some (.chunk none) →
    f.log.countP Saw.isGiven ≤ f.heard.count .fieldEnd

/-- The events still to come continue those that have come. -/
theorem FormSound.brackets (hf : FormSound lowercase cfg complete msgs sent todo f)
    (hmsgs : bracketed false msgs = true) (hok : f.unrejected) :
    ∃ rest, msgs = f.feed.got ++ rest ∧ bracketed (inside f.feed.got) rest = true ∧
      f.feed.got.countP MpEvent.isEnd + (inside f.feed.got).toNat =
        f.feed.got.countP MpEvent.isPart := by
  obtain ⟨rest, hrest⟩ := hf.fed.got_isPrefix
  have happend := bracketed_append (hrest.symm ▸ hmsgs) (hf.mp.clean hok)
  exact ⟨rest, hrest.symm, happend.1, happend.2⟩

/-- When no part is open, the parser has reported the end of each part that came. -/
theorem FormSound.reported (hf : FormSound lowercase cfg complete msgs sent todo f)
    (hmsgs : bracketed false msgs = true) (hok : f.unrejected)
    (hin : inside f.feed.got = false) :
    f.feed.got.countP MpEvent.isPart ≤ f.heard.count .fieldEnd := by
  obtain ⟨rest, _, _, hcount⟩ := hf.brackets hmsgs hok
  have hends := hf.ends
  rw [hin, Bool.toNat_false] at hcount
  rw [List.countP_append] at hends
  omega

/-- At the end of the form no part is open. -/
theorem FormSound.inside_of_ended (hf : FormSound lowercase cfg complete msgs sent todo f)
    (hmsgs : bracketed false msgs = true) (hok : f.unrejected)
    (hcut : f.feed.cut = false) (hended : f.feed.ended = true) :
    inside f.feed.got = false := by
  obtain ⟨rest, hrest, hbracket, _⟩ := hf.brackets hmsgs hok
  have hgot := hf.fed.got_eq _ hended hcut
  obtain rfl : rest = [] := by
    rw [← hgot] at hrest
    simpa using hrest
  simpa [bracketed] using hbracket

/-- A receive that throws leaves nothing to show. -/
theorem placed_rejected (hcut : g.feed.cut = false) (h : ¬ g.unrejected) : Placed g where
  cut := hcut
  given := fun hok => absurd hok h
  place := fun hok => absurd hok h
  last := fun hok => absurd hok h

theorem unrejected_concat {log : List Saw} {w : Saw}
    (h : ∀ v ∈ log ++ [w], v.isRejected = false) :
    (∀ v ∈ log, v.isRejected = false) ∧ w.isRejected = false :=
  ⟨fun v hv => h v (List.mem_append_left _ hv),
    h w (List.mem_append_right _ (List.mem_singleton_self _))⟩

/-- A receive of `next_part`. -/
theorem Placed.seek (hp : Placed f) (hseek : f.seeking = true)
    (h : f.take lowercase cfg complete MpIo.sought = some g) : Placed g := by
  obtain ⟨r, io, rfl, hrecv, hg⟩ := FormIo.take_cases h
  obtain ⟨feed, heard, ended, seeking, log⟩ := g
  simp only [FormIo.mk.injEq] at hg
  obtain ⟨_, rfl, rfl, rfl, rfl⟩ := hg
  obtain ⟨_, ⟨e, buf, rfl, _, rfl⟩ | ⟨rfl, _, _, rfl⟩⟩ := Feed.recv_cases _ hrecv
  · cases e with
    | part name filename contentType =>
        refine ⟨hp.cut, fun hok => ?_, fun _ _ _ _ => ?_, fun _ hlast => ?_⟩
        · have hgiven := hp.given (unrejected_concat hok).1
          simp [MpIo.sought, FormIo.mp, Saw.isGiven, MpEvent.isPart, hgiven]
        · simp [MpIo.sought, inside_concat, MpEvent.opens]
        · simp [MpIo.sought] at hlast
    | chunk b =>
        refine ⟨hp.cut, fun hok => ?_, fun _ hidle => ?_, hp.last⟩
        · simpa [MpIo.sought, FormIo.mp, MpEvent.isPart] using hp.given hok
        · cases hseek.symm.trans hidle
    | partEnd =>
        refine ⟨hp.cut, fun hok => ?_, fun _ hidle => ?_, hp.last⟩
        · simpa [MpIo.sought, FormIo.mp, MpEvent.isPart] using hp.given hok
        · cases hseek.symm.trans hidle
    | reject status message =>
        exact placed_rejected hp.cut fun hok => by cases (unrejected_concat hok).2
  · refine ⟨hp.cut, fun hok => ?_, fun _ _ hended => (by cases hended), fun _ hlast => ?_⟩
    · have hgiven := hp.given (unrejected_concat hok).1
      simpa [MpIo.sought, FormIo.mp, Saw.isGiven] using hgiven
    · simp [MpIo.sought] at hlast

/-- A receive of `read_part` for a part that JS was given. -/
theorem Placed.readPart (hp : Placed f)
    (hf : FormSound lowercase cfg complete msgs sent todo f)
    (hg : FormSound lowercase cfg complete msgs sent todo g)
    (hmsgs : bracketed false msgs = true) (hidle : f.seeking = false)
    (hopen : f.ended = false) (hgiven : f.log.countP Saw.isGiven ≠ 0)
    (h : f.take lowercase cfg complete MpIo.partRead = some g) : Placed g := by
  obtain ⟨r, io, rfl, hrecv, hgf⟩ := FormIo.take_cases h
  obtain ⟨feed, heard, ended, seeking, log⟩ := g
  simp only [FormIo.mk.injEq] at hgf
  obtain ⟨_, rfl, rfl, rfl, rfl⟩ := hgf
  obtain ⟨hthere, ⟨e, buf, rfl, hbuf, rfl⟩ | ⟨rfl, _, _, rfl⟩⟩ := Feed.recv_cases _ hrecv
  · have hnotEnded : f.feed.ended = false := by
      refine Bool.eq_false_iff.2 fun hended => ?_
      have hnil : f.feed.buf = [] := hf.fed.sound.buf_of_ended hthere hended
      rw [hbuf] at hnil
      cases hnil
    have hinside : f.unrejected → inside f.feed.got = true := fun hok => by
      have hplace := hp.place hok hidle hnotEnded (hp.given hok ▸ hgiven)
      simpa [hopen] using hplace
    cases e with
    | part name filename contentType =>
        refine placed_rejected hp.cut fun hok => ?_
        have hold := (unrejected_concat hok).1
        obtain ⟨rest, hrest, hbracket, _⟩ := hf.brackets hmsgs hold
        obtain ⟨rest', hrest', _⟩ := hg.brackets hmsgs hok
        obtain rfl : rest = .part name filename contentType :: rest' := by
          rw [hrest] at hrest'
          simpa using hrest'
        simp [bracketed, hinside hold] at hbracket
    | chunk b =>
        refine ⟨hp.cut, fun hok => ?_, fun hok _ _ _ => ?_, fun _ hlast => ?_⟩
        · have hgiven := hp.given (unrejected_concat hok).1
          simpa [MpIo.partRead, FormIo.mp, Saw.isGiven, MpEvent.isPart] using hgiven
        · have hin := hinside (unrejected_concat hok).1
          simp [MpIo.partRead, FormIo.mp, inside_concat, MpEvent.opens, hopen, hin]
        · simp [MpIo.partRead] at hlast
    | partEnd =>
        have hcount (hok : f.unrejected) : (f.log ++ [Saw.chunk none]).countP Saw.isGiven =
            (f.feed.got ++ [MpEvent.partEnd]).countP MpEvent.isPart := by
          simpa [Saw.isGiven, MpEvent.isPart] using hp.given hok
        have hin : inside (f.feed.got ++ [MpEvent.partEnd]) = false := inside_concat _ _
        refine ⟨hp.cut, fun hok => hcount (unrejected_concat hok).1, fun _ _ _ _ => ?_,
          fun hok _ => ?_⟩
        · rw [hin]
          rfl
        · exact (hcount (unrejected_concat hok).1).le.trans (hg.reported hmsgs hok hin)
    | reject status message =>
        exact placed_rejected hp.cut fun hok => by cases (unrejected_concat hok).2
  · have hcount (hok : f.unrejected) : (f.log ++ [Saw.chunk none]).countP Saw.isGiven =
        f.feed.got.countP MpEvent.isPart := by
      simpa [Saw.isGiven] using hp.given hok
    refine ⟨hp.cut, fun hok => hcount (unrejected_concat hok).1,
      fun _ _ hended => (by cases hended), fun hok _ => ?_⟩
    have hin := hg.inside_of_ended hmsgs hok hp.cut rfl
    exact (hcount (unrejected_concat hok).1).le.trans (hg.reported hmsgs hok hin)

theorem placed_open (form : Form) : Placed (FormIo.open form) where
  cut := rfl
  given := fun _ => rfl
  place := fun _ _ _ hparts => absurd rfl hparts
  last := fun _ hlast => by cases hlast

theorem Placed.step (hp : Placed f)
    (hf : FormSound lowercase cfg complete msgs sent todo f)
    (hmsgs : bracketed false msgs = true) {l : FormLabel} (hl : f.orderly l)
    (h : f.step lowercase cfg complete l = some g) : Placed g := by
  cases l with
  | parse =>
      obtain ⟨feed, hwork, rfl⟩ := Option.map_eq_some_iff.1 h
      obtain ⟨_, next, _, rfl⟩ := (Feed.work_eq_some _).1 hwork
      refine ⟨hp.cut, hp.given, hp.place, fun hok hlast => ?_⟩
      rw [List.count_append]
      exact Nat.le_add_right_of_le (hp.last hok hlast)
  | send =>
      obtain ⟨feed, hsend, rfl⟩ := Option.map_eq_some_iff.1 h
      obtain ⟨_, _, _, _, _, ⟨_, rfl⟩ | ⟨_, rfl⟩⟩ := Feed.send_cases _ hsend
      · exact ⟨hp.cut, hp.given, hp.place, hp.last⟩
      · exact ⟨hp.cut, hp.given, hp.place, hp.last⟩
  | dropTask =>
      obtain rfl := Option.some.inj h
      have hret := hl.1 rfl
      refine ⟨?_, hp.given, hp.place, hp.last⟩
      simp [Feed.State.cutOff, hp.cut, hret, ParseTask.await, Feed.Await.isDone]
  | nextPart =>
      simp only [FormIo.step, Option.ite_none_left_eq_some] at h
      obtain rfl := Option.some.inj h.2
      exact ⟨hp.cut, hp.given, fun _ hidle => (by cases hidle), hp.last⟩
  | seek =>
      simp only [FormIo.step, Option.ite_none_right_eq_some] at h
      exact hp.seek h.1 h.2
  | readPart =>
      simp only [FormIo.step, Option.ite_none_left_eq_some] at h
      obtain ⟨hidle, h⟩ := h
      obtain ⟨info, hinfo⟩ := hl.2 rfl
      have hsome : f.log.countP Saw.isGiven ≠ 0 :=
        (List.countP_pos_iff.2 ⟨_, hinfo, rfl⟩).ne'
      split at h
      case isFalse hopen =>
        exact hp.readPart hf (hf.take partRead_logs h) hmsgs (by simpa using hidle)
          (by simpa using hopen) hsome h
      case isTrue hclosed =>
        obtain rfl := Option.some.inj h
        have hcount : (f.log ++ [Saw.chunk none]).countP Saw.isGiven =
            f.log.countP Saw.isGiven := by
          simp [Saw.isGiven]
        refine ⟨hp.cut, fun hok => hcount.trans (hp.given (unrejected_concat hok).1),
          fun hok => hp.place (unrejected_concat hok).1, fun hok _ => ?_⟩
        -- the part is over: its end has come, or the form has ended
        have hold := (unrejected_concat hok).1
        have hin : inside f.feed.got = false := by
          cases hended : f.feed.ended with
          | true => exact hf.inside_of_ended hmsgs hold hp.cut hended
          | false =>
              have hplace := hp.place hold (by simpa using hidle) hended
                (hp.given hold ▸ hsome)
              simpa [hclosed] using hplace
        rw [hcount, hp.given hold]
        exact hf.reported hmsgs hold hin
  | dropIo =>
      obtain rfl := Option.some.inj h
      exact ⟨hp.cut, hp.given, hp.place, hp.last⟩

/-- In an orderly run of a form every reported end is authentic. -/
theorem run_authentic {form : Form} {ls : List FormLabel}
    (horderly : Transition.Along (FormIo.step lowercase cfg complete) FormIo.orderly
      (FormIo.open form) ls)
    (hrun : Transition.run (FormIo.step lowercase cfg complete) (FormIo.open form) ls =
      some f) : f.authentic := by
  obtain ⟨hp, sent, todo, hf⟩ := horderly.invariant
    (I := fun f => Placed f ∧ ∃ sent todo, FormSound lowercase cfg complete
      (parseTask lowercase cfg complete 0 0 form.parts) sent todo f)
    (fun _ _ _ ⟨hp, sent, todo, hf⟩ hl hstep =>
      ⟨hp.step hf (bracketed_parse ..) hl hstep, hf.step hstep⟩)
    ⟨placed_open form, _, _, formSound_open form⟩ hrun
  exact fun hok => ⟨hf.formEnd hp.cut hok, hp.last hok⟩

end Sound

/-- The ends of a request body are authentic as long as its task is not dropped before
it has returned.  For `read` the condition is exact: after a task was cut off, a `null`
is never the end of the body. -/
theorem end_authentic (limit : Option BodyLimit) (readTimeout : Bool)
    (events : List BodyEvent) (lowercase : String → String) (cfg : MultipartConfig)
    (form : Form) :
    (∀ ls u,
      Transition.run (Upload.step limit readTimeout) (Upload.open events) ls = some u →
        u.complete →
          (u.authentic events ↔
            Transition.Along (Upload.step limit readTimeout) Upload.undisturbed
              (Upload.open events) ls)) ∧
      (∀ ls f,
        Transition.run (FormIo.step lowercase cfg form.complete) (FormIo.open form) ls =
          some f →
        Transition.Along (FormIo.step lowercase cfg form.complete) FormIo.orderly
          (FormIo.open form) ls → f.authentic) := by
  constructor
  · intro ls u hrun hcomplete
    obtain ⟨sent, todo, hu⟩ := run_uploadSound hrun
    rw [hu.authentic_iff hcomplete, ← Bool.not_eq_true, run_cut hrun, not_not]
  · intro ls f hrun horderly
    exact run_authentic horderly hrun

/-- A form of one field, which has content. -/
def oneField : Form := ⟨[⟨some "a", none, none, [[1]], true⟩], true⟩

/-- It is read to its end. -/
def readThrough : List FormLabel :=
  [.parse, .send, .nextPart, .seek, .parse, .send, .readPart, .parse, .send, .readPart,
    .nextPart, .parse, .seek]

/-- A body of one frame and that form, both read to the end. -/
theorem end_authentic_small :
    (∃ u, Transition.run (Upload.step none false) (Upload.open [.data [1]])
        [.frame, .send, .read, .frame, .read] = some u ∧ u.authentic [.data [1]]) ∧
      (∃ f, Transition.run (FormIo.step id ⟨none, none, none, none, none, none⟩ true)
        (FormIo.open oneField) readThrough = some f ∧
          f.log = [.part (some ⟨some "a", none, none⟩), .chunk (some [1]), .chunk none,
            .part none] ∧ f.authentic) := by
  have hends := end_authentic none false [.data [1]] id ⟨none, none, none, none, none, none⟩
    oneField
  constructor
  · obtain ⟨u, hu, hreads⟩ : ∃ u, Transition.run (Upload.step none false)
        (Upload.open [.data [1]]) [.frame, .send, .read, .frame, .read] = some u ∧
        u.reads = [.ok (some [1]), .ok none] := ⟨_, rfl, rfl⟩
    refine ⟨u, hu, (hends.1 _ _ hu ?_).2 ?_⟩
    · simp [Upload.complete, hreads]
    · simp [Transition.Along, Upload.undisturbed]
  · obtain ⟨f, hf, hlog⟩ : ∃ f, Transition.run
        (FormIo.step id ⟨none, none, none, none, none, none⟩ true)
        (FormIo.open oneField) readThrough = some f ∧
          f.log = [.part (some ⟨some "a", none, none⟩), .chunk (some [1]), .chunk none,
            .part none] := ⟨_, rfl, rfl⟩
    refine ⟨f, hf, hlog, hends.2 _ _ hf ?_⟩
    iterate 6 refine (Transition.along_cons_of_eq rfl).2 ⟨⟨by simp, by simp⟩, ?_⟩
    refine (Transition.along_cons_of_eq rfl).2
      ⟨⟨by simp, fun _ => ⟨⟨some "a", none, none⟩, List.mem_cons_self⟩⟩, ?_⟩
    iterate 2 refine (Transition.along_cons_of_eq rfl).2 ⟨⟨by simp, by simp⟩, ?_⟩
    refine (Transition.along_cons_of_eq rfl).2
      ⟨⟨by simp, fun _ => ⟨⟨some "a", none, none⟩, List.mem_cons_self⟩⟩, ?_⟩
    iterate 3 refine (Transition.along_cons_of_eq rfl).2 ⟨⟨by simp, by simp⟩, ?_⟩
    trivial

/-- `close` drops the task after the first of two frames, and `read` reports the end of
the body. -/
theorem cut_body_ends :
    ∃ u, Transition.run (Upload.step none false) (Upload.open [.data [1], .data [2]])
        [.frame, .send, .read, .dropTask, .read] = some u ∧
      u.complete ∧ ¬ u.authentic [.data [1], .data [2]] := by
  obtain ⟨u, hu, hreads, hheard⟩ : ∃ u, Transition.run (Upload.step none false)
      (Upload.open [.data [1], .data [2]]) [.frame, .send, .read, .dropTask, .read] =
        some u ∧
      u.reads = [.ok (some [1]), .ok none] ∧ u.heard = [some (.data [1])] :=
    ⟨_, rfl, rfl, rfl⟩
  refine ⟨u, hu, ?_, fun hauthentic => ?_⟩
  · simp [Upload.complete, hreads]
  · have hend := hauthentic.1
    simp [hheard] at hend

end Multipart
end OxideHttp
