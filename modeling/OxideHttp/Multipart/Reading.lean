import OxideHttp.Body.Reading
import OxideHttp.Multipart

/-!
# The task that parses a form (`src/multipart.rs`)

`parse_task` with its awaits in view: it waits for the parser, or for room in the
channel to JS.  It sends what `parseTask` lists (`sends_parse`).  As with
`read_body_task`, it can be dropped where it waits.

Results.
* `ParseTask.await_cases`: what the task can wait for.
* `bracketed_parse`: the events of a form are well bracketed (`bracketed_append`).
-/

namespace OxideHttp
namespace Multipart

open Body

/-- What `parse_task` knows between two fields: the counts so far and the parts that
the parser has not yielded yet. -/
structure Left where
  files : UInt32
  fields : UInt32
  parts : List Part
  deriving DecidableEq, Repr

/-- Where `parse_task` stands. -/
inductive ParseTask where
  /-- it awaits `next_field` -/
  | nextField (left : Left)
  | sendPart (p : Part) (left : Left)
  /-- it awaits `field.chunk()`, with `size` bytes of the part read -/
  | nextChunk (p : Part) (size : Nat) (chunks : List Bytes) (left : Left)
  | sendChunk (b : Bytes) (p : Part) (size : Nat) (chunks : List Bytes) (left : Left)
  | sendEnd (left : Left)
  /-- it awaits the last `send` before it returns -/
  | sendLast (e : MpEvent)
  | returned
  deriving DecidableEq, Repr

/-- What the parser reports when it is waited for. -/
inductive Report where
  | field
  | chunk
  | fieldEnd
  | formEnd
  | error
  deriving DecidableEq, Repr

section Task

variable (lowercase : String → String) (cfg : MultipartConfig) (complete : Bool)

/-- The counts after a part. -/
def Left.past (left : Left) (p : Part) (parts : List Part) : Left where
  files := if p.isFile then left.files + 1 else left.files
  fields := if p.isFile then left.fields else left.fields + 1
  parts := parts

/-- `parse_task`, one await at a time; `complete` is whether the parser gets to the
end of the form. -/
def ParseTask.await : ParseTask → Feed.Await ParseTask MpEvent
  | .nextField left =>
      match left.parts with
      | [] => if complete then .work .returned else .work (.sendLast malformed)
      | p :: parts =>
          match p.refusal lowercase cfg left.files left.fields with
          | some rejection => .work (.sendLast rejection)
          | none => .work (.sendPart p (left.past p parts))
  | .sendPart p left =>
      .send (.part p.name p.filename p.contentType) (.nextChunk p 0 p.chunks left) .returned
  | .nextChunk p _ [] left =>
      if p.complete then .work (.sendEnd left) else .work (.sendLast malformed)
  | .nextChunk p size (chunk :: chunks) left =>
      if (p.limit cfg).any (· < saturatingAdd size chunk.length) then
        .work (.sendLast (.reject (if p.isFile then 413 else 400) "part too large"))
      else .work (.sendChunk chunk p (saturatingAdd size chunk.length) chunks left)
  | .sendChunk b p size chunks left => .send (.chunk b) (.nextChunk p size chunks left) .returned
  | .sendEnd left => .send .partEnd (.nextField left) .returned
  | .sendLast e => .send e .returned .returned
  | .returned => .done

/-- The report that the task waits for. -/
def ParseTask.hears : ParseTask → List Report
  | .nextField left =>
      match left.parts with
      | [] => [if complete then .formEnd else .error]
      | _ :: _ => [.field]
  | .nextChunk p _ [] _ => [if p.complete then .fieldEnd else .error]
  | .nextChunk _ _ (_ :: _) _ => [.chunk]
  | _ => []

theorem sends_last (e : MpEvent) :
    Feed.Sends (ParseTask.await lowercase cfg complete) (.sendLast e) [e] :=
  .send rfl (.done rfl)

/-- The task sends the chunks of a part, and what comes after if it goes on. -/
theorem sends_chunks (p : Part) (size : Nat) (chunks : List Bytes) (left : Left)
    {rest : List MpEvent}
    (hrest : Feed.Sends (ParseTask.await lowercase cfg complete) (.nextField left) rest) :
    Feed.Sends (ParseTask.await lowercase cfg complete) (.nextChunk p size chunks left)
      ((sendChunks (p.limit cfg) p.isFile p.complete size chunks).1 ++
        if (sendChunks (p.limit cfg) p.isFile p.complete size chunks).2 then rest
        else []) := by
  induction chunks generalizing size with
  | nil =>
      cases hp : p.complete with
      | true =>
          have hwork : (ParseTask.nextChunk p size [] left).await lowercase cfg complete =
              .work (.sendEnd left) := by
            simp [ParseTask.await, hp]
          exact .work hwork (.send rfl hrest)
      | false =>
          have hwork : (ParseTask.nextChunk p size [] left).await lowercase cfg complete =
              .work (.sendLast malformed) := by
            simp [ParseTask.await, hp]
          exact .work hwork (sends_last ..)
  | cons chunk chunks ih =>
      rw [sendChunks]
      split
      case isTrue hover =>
        have hwork : (ParseTask.nextChunk p size (chunk :: chunks) left).await lowercase cfg
            complete =
            .work (.sendLast (.reject (if p.isFile then 413 else 400) "part too large")) :=
          if_pos hover
        exact .work hwork (sends_last ..)
      case isFalse hfits =>
        have hwork : (ParseTask.nextChunk p size (chunk :: chunks) left).await lowercase cfg
            complete =
            .work (.sendChunk chunk p (saturatingAdd size chunk.length) chunks left) :=
          if_neg hfits
        exact .work hwork (.send rfl (ih _))

/-- The task sends the events of `parseTask`. -/
theorem sends_parse (files fields : UInt32) (parts : List Part) :
    Feed.Sends (ParseTask.await lowercase cfg complete) (.nextField ⟨files, fields, parts⟩)
      (parseTask lowercase cfg complete files fields parts) := by
  induction parts generalizing files fields with
  | nil =>
      cases complete with
      | true => exact .work rfl (.done rfl)
      | false => exact .work rfl (sends_last ..)
  | cons p parts ih =>
      rw [parseTask]
      split
      case h_1 e he =>
        have hwork : (ParseTask.nextField ⟨files, fields, p :: parts⟩).await lowercase cfg
            complete = .work (.sendLast e) := by
          simp [ParseTask.await, he]
        exact .work hwork (sends_last ..)
      case h_2 hno =>
        have hwork : (ParseTask.nextField ⟨files, fields, p :: parts⟩).await lowercase cfg
            complete =
            .work (.sendPart p (Left.past ⟨files, fields, p :: parts⟩ p parts)) := by
          simp [ParseTask.await, hno]
        exact .work hwork (.send rfl (sends_chunks _ _ _ _ _ _ _ (ih _ _)))

end Task

/-! ## The brackets of a form -/

/-- Every part is closed before the next one and before the end of the form; a
rejection is the last event.  `inPart` is whether a part is open. -/
def bracketed : Bool → List MpEvent → Bool
  | inPart, [] => !inPart
  | inPart, .part .. :: events => !inPart && bracketed true events
  | inPart, .chunk _ :: events => inPart && bracketed true events
  | inPart, .partEnd :: events => inPart && bracketed false events
  | _, .reject .. :: events => events.isEmpty

def MpEvent.isPart : MpEvent → Bool
  | .part .. => true
  | _ => false

def MpEvent.isEnd : MpEvent → Bool
  | .partEnd => true
  | _ => false

/-- Whether a part is open after the event. -/
def MpEvent.opens (inPart : Bool) : MpEvent → Bool
  | .part .. => true
  | .partEnd => false
  | _ => inPart

/-- Whether a part is open after the events. -/
def inside (events : List MpEvent) : Bool := events.foldl MpEvent.opens false

theorem inside_concat (events : List MpEvent) (e : MpEvent) :
    inside (events ++ [e]) = e.opens (inside events) := by
  simp [inside]

theorem bracketed_chunks (limit : Option Nat) (isFile complete : Bool) (size : Nat)
    (chunks : List Bytes) {rest : List MpEvent} (hrest : bracketed false rest = true) :
    bracketed true ((sendChunks limit isFile complete size chunks).1 ++
      if (sendChunks limit isFile complete size chunks).2 then rest else []) = true := by
  induction chunks generalizing size with
  | nil =>
      cases complete with
      | true => simpa [sendChunks, bracketed] using hrest
      | false => rfl
  | cons chunk chunks ih =>
      rw [sendChunks]
      split
      case isTrue => rfl
      case isFalse => simpa [bracketed] using ih _

/-- The events of a form are well bracketed. -/
theorem bracketed_parse (lowercase : String → String) (cfg : MultipartConfig)
    (complete : Bool) (files fields : UInt32) (parts : List Part) :
    bracketed false (parseTask lowercase cfg complete files fields parts) = true := by
  induction parts generalizing files fields with
  | nil => cases complete <;> rfl
  | cons p parts ih =>
      rw [parseTask]
      split
      case h_1 e he =>
        obtain ⟨_, hreject⟩ := refusal_bytes lowercase cfg he
        cases e with
        | reject status message => rfl
        | part | chunk | partEnd => cases hreject
      case h_2 => exact bracketed_chunks _ _ _ _ _ (ih _ _)

/-- After events without a rejection, the rest is bracketed, and the parts that were
opened have been closed but for an open one. -/
theorem bracketed_append {inPart : Bool} {es fs : List MpEvent}
    (h : bracketed inPart (es ++ fs) = true) (hok : ∀ e ∈ es, e.isReject = false) :
    bracketed (es.foldl MpEvent.opens inPart) fs = true ∧
      es.countP MpEvent.isEnd + (es.foldl MpEvent.opens inPart).toNat =
        es.countP MpEvent.isPart + inPart.toNat := by
  induction es generalizing inPart with
  | nil => exact ⟨h, rfl⟩
  | cons e es ih =>
      have hrest : ∀ d ∈ es, d.isReject = false := fun d hd => hok d (List.mem_cons_of_mem _ hd)
      cases e with
      | reject status message => cases hok _ (List.mem_cons_self ..)
      | part name filename contentType =>
          simp only [List.cons_append, bracketed, Bool.and_eq_true, Bool.not_eq_true'] at h
          obtain ⟨rfl, h⟩ := h
          obtain ⟨hfs, hcount⟩ := ih h hrest
          refine ⟨hfs, ?_⟩
          simpa [List.countP_cons, MpEvent.isEnd, MpEvent.isPart, MpEvent.opens] using hcount
      | chunk b =>
          simp only [List.cons_append, bracketed, Bool.and_eq_true] at h
          obtain ⟨rfl, h⟩ := h
          obtain ⟨hfs, hcount⟩ := ih h hrest
          refine ⟨hfs, ?_⟩
          simpa [List.countP_cons, MpEvent.isEnd, MpEvent.isPart, MpEvent.opens] using hcount
      | partEnd =>
          simp only [List.cons_append, bracketed, Bool.and_eq_true] at h
          obtain ⟨rfl, h⟩ := h
          obtain ⟨hfs, hcount⟩ := ih h hrest
          refine ⟨hfs, ?_⟩
          simp only [Bool.toNat_false, Nat.add_zero] at hcount
          simp [List.countP_cons, MpEvent.isEnd, MpEvent.isPart, MpEvent.opens, ← hcount]
          omega

/-! ## What the task can wait for -/

/-- The task is about to send the end of a part. -/
def ParseTask.sendsEnd : ParseTask → Nat
  | .sendEnd _ => 1
  | _ => 0

section Await

variable {lowercase : String → String} {cfg : MultipartConfig} {complete : Bool}

/-- What the task can wait for. -/
theorem ParseTask.await_cases (lowercase : String → String) (cfg : MultipartConfig)
    (complete : Bool) (k : ParseTask) :
    (k = .returned ∧ k.await lowercase cfg complete = .done) ∨
      (∃ e, k = .sendLast e ∧ k.await lowercase cfg complete = .send e .returned .returned) ∨
      (∃ e next, k.await lowercase cfg complete = .send e next .returned ∧
        next ≠ .returned ∧ (∀ d, next ≠ .sendLast d) ∧ next.sendsEnd = 0 ∧
        (e.isEnd = true → k.sendsEnd = 1)) ∨
      (.formEnd ∈ k.hears complete ∧ k.await lowercase cfg complete = .work .returned) ∨
      (∃ e, e.isReject = true ∧ k.await lowercase cfg complete = .work (.sendLast e)) ∨
      (∃ left, .fieldEnd ∈ k.hears complete ∧
        k.await lowercase cfg complete = .work (.sendEnd left)) ∨
      (∃ next, k.await lowercase cfg complete = .work next ∧
        next ≠ .returned ∧ (∀ d, next ≠ .sendLast d) ∧ next.sendsEnd = 0) := by
  cases k with
  | returned => simp [ParseTask.await]
  | sendPart | sendChunk | sendEnd | sendLast =>
      simp [ParseTask.await, ParseTask.sendsEnd, MpEvent.isEnd]
  | nextField left =>
      obtain ⟨files, fields, parts⟩ := left
      cases parts with
      | nil =>
          cases complete with
          | true => simp [ParseTask.await, ParseTask.hears]
          | false => simp [ParseTask.await, malformed, MpEvent.isReject]
      | cons p parts =>
          cases hrefusal : p.refusal lowercase cfg files fields with
          | none => simp [ParseTask.await, hrefusal, ParseTask.sendsEnd]
          | some e =>
              obtain ⟨_, hreject⟩ := refusal_bytes lowercase cfg hrefusal
              simp [ParseTask.await, hrefusal, hreject]
  | nextChunk p size chunks left =>
      cases chunks with
      | nil =>
          cases hp : p.complete with
          | true => simp [ParseTask.await, ParseTask.hears, hp]
          | false => simp [ParseTask.await, hp, malformed, MpEvent.isReject]
      | cons chunk chunks =>
          cases hover : (p.limit cfg).any (· < saturatingAdd size chunk.length) with
          | true => simp [ParseTask.await, hover, MpEvent.isReject]
          | false => simp [ParseTask.await, hover, ParseTask.sendsEnd]

theorem ParseTask.returned_of_done {k : ParseTask}
    (h : (k.await lowercase cfg complete).isDone = true) : k = .returned := by
  rcases k.await_cases lowercase cfg complete with ⟨hk, _⟩ | ⟨e, _, hw⟩ | ⟨e, n, hw, _⟩ |
    ⟨_, hw⟩ | ⟨e, _, hw⟩ | ⟨left, _, hw⟩ | ⟨n, hw, _⟩
  · exact hk
  all_goals simp [hw, Feed.Await.isDone] at h

/-- The task goes on, or is about to reject the form, or has heard of an end. -/
theorem ParseTask.work_cases {k next : ParseTask}
    (h : k.await lowercase cfg complete = .work next) :
    (next = .returned → .formEnd ∈ k.hears complete) ∧
      (∀ e, next = .sendLast e → e.isReject = true) ∧
      next.sendsEnd ≤ (k.hears complete).count .fieldEnd := by
  rcases k.await_cases lowercase cfg complete with ⟨_, hw⟩ | ⟨e, _, hw⟩ | ⟨e, n, hw, _⟩ |
    ⟨hend, hw⟩ | ⟨e, hreject, hw⟩ | ⟨left, hend, hw⟩ | ⟨n, hw, hret, hlast, hsends⟩
  all_goals simp only [hw, reduceCtorEq, Feed.Await.work.injEq] at h
  all_goals subst h
  · exact ⟨fun _ => hend, by simp, Nat.zero_le _⟩
  · exact ⟨by simp, fun d hd => by rw [← ParseTask.sendLast.inj hd]; exact hreject,
      Nat.zero_le _⟩
  · exact ⟨by simp, by simp, List.count_pos_iff.2 hend⟩
  · exact ⟨fun hr => absurd hr hret, fun d hd => absurd hd (hlast d), hsends ▸ Nat.zero_le _⟩

/-- A refused task returns, and so does one that has sent its last event. -/
theorem ParseTask.send_cases {k next refused : ParseTask} {e : MpEvent}
    (h : k.await lowercase cfg complete = .send e next refused) :
    refused = .returned ∧ (next = .returned → k = .sendLast e) ∧
      (∀ d, next ≠ .sendLast d) ∧ next.sendsEnd = 0 ∧
      (e.isEnd = true → k = .sendLast e ∨ k.sendsEnd = 1) := by
  rcases k.await_cases lowercase cfg complete with ⟨_, hw⟩ | ⟨d, hk, hw⟩ |
    ⟨d, n, hw, hret, hlast, hsends, hend⟩ | ⟨_, hw⟩ | ⟨d, _, hw⟩ | ⟨left, _, hw⟩ | ⟨n, hw, _⟩
  all_goals simp only [hw, reduceCtorEq, Feed.Await.send.injEq] at h
  all_goals obtain ⟨rfl, rfl, rfl⟩ := h
  · exact ⟨rfl, fun _ => hk, by simp, rfl, fun _ => Or.inl hk⟩
  · exact ⟨rfl, fun hr => absurd hr hret, hlast, hsends, fun he => Or.inr (hend he)⟩

end Await

end Multipart
end OxideHttp
