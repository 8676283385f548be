import OxideHttp.Body
import OxideHttp.Lib.Feed

/-!
# Streamed responses (`js/context.ts`, `src/stream.rs`)

`startResponsePump` pulls the chunks of a response source and writes each of them to
a channel of capacity one; `ChannelBody`, at the other end, yields them to `hyper`.
The pump is a process that waits for the source, for `write`, and at last runs its
`finally` block; the connection may go away at any point, with `ChannelBody`.

Results.
* `sends_pump`: what the pump sends is an initial part of the chunks of its source,
  and all of them unless one cannot be made a `Buffer`.
* `frames_isPrefix`: the frames are an initial part of the chunks, for every source.
* `ends_cleanly_iff`: the end of the body is authentic exactly for the sources that
  do not fail.
-/

namespace OxideHttp
namespace Body

section Pump

variable {χ : Type*}

/-- `BodySource`.  A source yields values, where `none` is `null` or `undefined`, and
then ends or, when `fails` is set, throws. -/
inductive BodySource (χ : Type*) where
  | buffer (data : Bytes)
  /-- a `ReadableStream` -/
  | readable (values : List (Option χ)) (fails : Bool)
  /-- an `AsyncIterable` -/
  | iterable (values : List (Option χ)) (fails : Bool)
  deriving DecidableEq, Repr

def BodySource.fails : BodySource χ → Bool
  | .buffer _ => false
  | .readable _ fails | .iterable _ fails => fails

/-- Where the pump stands. -/
inductive Pump (χ : Type*) where
  /-- it awaits `reader.read()`, or the next turn of the `for await` loop -/
  | pulling (values : List (Option χ)) (fails : Bool)
  /-- it awaits `bodyIo.write` -/
  | writing (b : Bytes) (next : Pump χ)
  /-- the `finally` block -/
  | leaving
  /-- `endWrite` has taken the sender -/
  | closed
  deriving DecidableEq, Repr

/-- `startResponsePump`. -/
def startResponsePump : BodySource χ → Pump χ
  | .buffer data => .writing data .leaving
  | .readable values fails | .iterable values fails => .pulling values fails

-- `toBuffer` of `js/context.ts`; `none` when `Buffer.from` throws
variable (toBuffer : χ → Option Bytes)

/-- The chunks of a source. -/
def BodySource.chunks : BodySource χ → List (Option Bytes)
  | .buffer data => [some data]
  | .readable values _ | .iterable values _ => values.filterMap (Option.map toBuffer)

/-- The steps of the pump.  Whatever is thrown is swallowed by the `catch`. -/
def Pump.await : Pump χ → Feed.Await (Pump χ) Bytes
  | .pulling [] _ => .work .leaving
  | .pulling (none :: values) fails => .work (.pulling values fails)
  | .pulling (some value :: values) fails =>
      match toBuffer value with
      | some b => .work (.writing b (.pulling values fails))
      | none => .work .leaving
  | .writing b next => .send b next .leaving
  | .leaving => .work .closed
  | .closed => .done

/-- A streamed response: the pump, the channel, and the frames that `ChannelBody` has
yielded. -/
abbrev Streamed (χ : Type*) := Feed.State (Pump χ) Bytes

inductive StreamLabel where
  /-- the source yields, ends or throws, or the `finally` block runs -/
  | advance
  /-- `write` resolves or rejects -/
  | write
  /-- `poll_frame` is ready -/
  | poll
  /-- the connection goes away -/
  | drop
  deriving DecidableEq, Repr

def Streamed.step (r : Streamed χ) : StreamLabel → Option (Streamed χ)
  | .advance => r.work (Pump.await toBuffer)
  | .write => r.send (Pump.await toBuffer) bodyChannelCap
  | .poll => (r.recv (Pump.await toBuffer)).map Prod.snd
  | .drop => some r.drop

/-- The response to the source, before the pump has done anything. -/
def Streamed.open (source : BodySource χ) : Streamed χ :=
  Feed.State.start (startResponsePump source)

/-- In every state that a streamed response can reach, the frames are an initial part
of the chunks of the source, and the end of the body was reported only after the
source ended normally and all its chunks were delivered. -/
def EndsCleanly (source : BodySource χ) : Prop :=
  ∀ ls r, Transition.run (Streamed.step toBuffer) (Streamed.open source) ls = some r →
    r.got.map some <+: source.chunks toBuffer ∧
      (r.ended = true →
        source.fails = false ∧ r.got.map some = source.chunks toBuffer)

/-! ## What the pump sends -/

theorem sends_leaving : Feed.Sends (Pump.await toBuffer) (.leaving : Pump χ) [] :=
  .work rfl (.done rfl)

theorem sends_pulling (values : List (Option χ)) (fails : Bool) :
    ∃ msgs, Feed.Sends (Pump.await toBuffer) (.pulling values fails) msgs ∧
      msgs.map some <+: values.filterMap (Option.map toBuffer) ∧
      (none ∉ values.filterMap (Option.map toBuffer) →
        msgs.map some = values.filterMap (Option.map toBuffer)) := by
  induction values with
  | nil =>
      exact ⟨[], .work rfl (sends_leaving toBuffer), List.nil_prefix, fun _ => rfl⟩
  | cons value values ih =>
      obtain ⟨msgs, hsends, hpart, hall⟩ := ih
      cases value with
      | none => exact ⟨msgs, .work rfl hsends, by simpa using hpart, by simpa using hall⟩
      | some value =>
          cases hb : toBuffer value with
          | none =>
              refine ⟨[], ?_, List.nil_prefix, fun hno => ?_⟩
              · have hwork : (Pump.pulling (some value :: values) fails).await toBuffer =
                    .work .leaving := by
                  simp [Pump.await, hb]
                exact .work hwork (sends_leaving toBuffer)
              · simp [hb] at hno
          | some b =>
              refine ⟨b :: msgs, ?_, ?_, fun hno => ?_⟩
              · have hwork : (Pump.pulling (some value :: values) fails).await toBuffer =
                    .work (.writing b (.pulling values fails)) := by
                  simp [Pump.await, hb]
                exact .work hwork (.send rfl hsends)
              · simpa [hb] using hpart
              · simp only [List.filterMap_cons_some (Option.map_some ..), List.map_cons, hb,
                  List.mem_cons, reduceCtorEq, false_or] at hno ⊢
                rw [hall hno]

/-- The pump sends the chunks of its source up to the first that cannot be made a
`Buffer`. -/
theorem sends_pump (source : BodySource χ) :
    ∃ msgs, Feed.Sends (Pump.await toBuffer) (startResponsePump source) msgs ∧
      msgs.map some <+: source.chunks toBuffer ∧
      (none ∉ source.chunks toBuffer → msgs.map some = source.chunks toBuffer) := by
  cases source with
  | buffer data =>
      exact ⟨[data], .send rfl (sends_leaving toBuffer), List.prefix_rfl, fun _ => rfl⟩
  | readable values fails => exact sends_pulling toBuffer values fails
  | iterable values fails => exact sends_pulling toBuffer values fails

/-! ## Runs of a response -/

/-- The response is fed by a pump that sends `msgs` and is never cut off. -/
def Pumped (msgs : List Bytes) (r : Streamed χ) : Prop :=
  r.cut = false ∧ ∃ sent todo, Feed.Fed (Pump.await toBuffer) msgs sent todo r

theorem pumped_step {msgs : List Bytes} {r r' : Streamed χ} {l : StreamLabel}
    (hr : Pumped toBuffer msgs r) (h : r.step toBuffer l = some r') :
    Pumped toBuffer msgs r' := by
  obtain ⟨hcut, sent, todo, hfed⟩ := hr
  cases l with
  | advance =>
      obtain ⟨_, next, _, rfl⟩ := (Feed.work_eq_some _).1 h
      exact ⟨hcut, sent, todo, (hfed.work _ h).1⟩
  | write =>
      obtain ⟨⟨rest, hrest⟩, _⟩ := hfed.send _ h
      refine ⟨?_, sent, rest, hrest⟩
      obtain ⟨_, _, _, _, _, ⟨_, rfl⟩ | ⟨_, rfl⟩⟩ := Feed.send_cases _ h
      · exact hcut
      · exact hcut
  | poll =>
      obtain ⟨⟨a, r''⟩, hrecv, rfl⟩ := Option.map_eq_some_iff.1 h
      refine ⟨?_, sent, todo, hfed.recv _ hrecv⟩
      obtain ⟨_, ⟨_, _, _, _, rfl⟩ | ⟨_, _, _, rfl⟩⟩ := Feed.recv_cases _ hrecv
      · exact hcut
      · exact hcut
  | drop =>
      obtain rfl := Option.some.inj h
      exact ⟨hcut, sent, todo, hfed.drop⟩

theorem run_pumped {source : BodySource χ} {msgs : List Bytes} {ls : List StreamLabel}
    {r : Streamed χ}
    (hsends : Feed.Sends (Pump.await toBuffer) (startResponsePump source) msgs)
    (hrun : Transition.run (Streamed.step toBuffer) (Streamed.open source) ls = some r) :
    Pumped toBuffer msgs r :=
  Transition.run_invariant (fun _ _ _ => pumped_step toBuffer)
    ⟨rfl, msgs, msgs, Feed.fed_start _ hsends⟩ hrun

/-- Whatever becomes of the source, no chunk is lost, doubled or out of order. -/
theorem frames_isPrefix {source : BodySource χ} {ls : List StreamLabel} {r : Streamed χ}
    (hrun : Transition.run (Streamed.step toBuffer) (Streamed.open source) ls = some r) :
    r.got.map some <+: source.chunks toBuffer := by
  obtain ⟨msgs, hsends, hpart, _⟩ := sends_pump toBuffer source
  obtain ⟨_, sent, todo, hfed⟩ := run_pumped toBuffer hsends hrun
  exact (hfed.got_isPrefix.map some).trans hpart

/-- A client that takes every chunk as it is written comes to the end of the body. -/
theorem exists_drained {k : Pump χ} {msgs : List Bytes}
    (hk : Feed.Sends (Pump.await toBuffer) k msgs) (got : List Bytes) :
    ∃ ls r, Transition.run (Streamed.step toBuffer)
        { Feed.State.start k with got := got } ls = some r ∧
      r.got = got ++ msgs ∧ r.ended = true := by
  induction hk generalizing got with
  | @done k h =>
      refine ⟨[.poll], { Feed.State.start k with got := got, ended := true }, ?_, ?_, rfl⟩
      · simp [Streamed.step, Feed.State.recv, Feed.State.start, Feed.State.senderGone, h,
          Feed.Await.isDone]
      · simp
  | @work k next msgs h _ ih =>
      obtain ⟨ls, r, hls, hr⟩ := ih got
      refine ⟨.advance :: ls, r, ?_, hr⟩
      refine Transition.run_cons_some.2 ⟨_, ?_, hls⟩
      exact (Feed.work_eq_some _).2 ⟨rfl, next, h, rfl⟩
  | @send k next refused b msgs h _ ih =>
      obtain ⟨ls, r, hls, hgot, hended⟩ := ih (got ++ [b])
      have hwrite : Streamed.step toBuffer { Feed.State.start k with got := got } .write =
          some { (Feed.State.start next : Streamed χ) with buf := [b], got := got } := by
        simp [Streamed.step, Feed.State.send, Feed.State.start, h, bodyChannelCap]
      refine ⟨.write :: .poll :: ls, r, ?_, by simpa using hgot, hended⟩
      exact Transition.run_cons_some.2
        ⟨_, hwrite, Transition.run_cons_some.2 ⟨_, rfl, hls⟩⟩

/-- A streamed response ends cleanly exactly when its source does not fail: it ends
normally, and each of its chunks can be made a `Buffer`. -/
theorem ends_cleanly_iff (source : BodySource χ) :
    EndsCleanly toBuffer source ↔
      source.fails = false ∧ none ∉ source.chunks toBuffer := by
  obtain ⟨msgs, hsends, _, hall⟩ := sends_pump toBuffer source
  constructor
  · intro hclean
    obtain ⟨ls, r, hls, hgot, hended⟩ := exists_drained toBuffer hsends []
    obtain ⟨_, hends⟩ := hclean ls r hls
    obtain ⟨hfails, hchunks⟩ := hends hended
    refine ⟨hfails, fun hnone => ?_⟩
    rw [← hchunks] at hnone
    simp at hnone
  · rintro ⟨hfails, hno⟩ ls r hrun
    obtain ⟨hcut, sent, todo, hfed⟩ := run_pumped toBuffer hsends hrun
    refine ⟨frames_isPrefix toBuffer hrun, fun hended => ⟨hfails, ?_⟩⟩
    rw [hfed.got_eq _ hended hcut, hall hno]

/-- A source that throws after its first chunk gives a response that looks
complete. -/
theorem failed_source_ends :
    ¬ EndsCleanly (fun chunk : Bytes => some chunk) (.readable [some [104, 97]] true) := by
  intro hclean
  have hends := (hclean [.advance, .write, .poll, .advance, .advance, .poll] _ rfl).2 rfl
  cases hends.1

end Pump

end Body
end OxideHttp
