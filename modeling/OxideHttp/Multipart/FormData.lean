import OxideHttp.Context
import OxideHttp.Multipart.Limits
import OxideHttp.Multipart.Sequence

/-!
# `c.req.formData()` (`js/context.ts`, `src/stream.rs`)

`formData()` goes through the parts of a multipart form and reads each of them to its end.
It is taken here as what it does with the answers that it has heard so far (`FormData`): it
makes one call at a time, and ends by returning the entries or by throwing.  The calls go to
the `MpIo` of the request, next to the task that parses the form.

Results.
* `mpMapError_mpReject`: the status and the message of a rejection come through the text of
  the error that crosses to JS.
* `formData_exact`: in every run, for every form and every configuration, `formData()` can
  go on to its end, and then it has returned all parts in order with all of their bytes, or
  thrown the first violation of the form.
-/

namespace OxideHttp
namespace Multipart

open Transition
open Context (Thrown)

/-! ## Rejections -/

def REJECT : List Char := "MULTIPART_REJECT:".toList

/-- `mp_reject`: the text of the error. -/
def mpReject (status : Nat) (message : String) : List Char :=
  REJECT ++ Nat.toDigits 10 status ++ ':' :: message.toList

/-- `mpMapError`, for the text of an error: `/^MULTIPART_REJECT:(\d+):(.*)$/s`. -/
def mpMapError (text : List Char) : Thrown :=
  if REJECT.isPrefixOf text then
    let rest := text.drop REJECT.length
    match rest.takeWhile Char.isDigit, rest.dropWhile Char.isDigit with
    | [], _ => .other
    | digits, ':' :: message =>
        .http (Nat.ofDigitChars 10 digits 0) (String.ofList message)
    | _, _ => .other
  else .other

theorem mpMapError_mpReject (status : Nat) (message : String) :
    mpMapError (mpReject status message) = .http status message := by
  have hdigits : ∀ c ∈ Nat.toDigits 10 status, c.isDigit = true :=
    fun c hc => Nat.isDigit_of_mem_toDigits (by decide) (by decide) hc
  have hprefix : REJECT.isPrefixOf (mpReject status message) = true := by
    rw [List.isPrefixOf_iff_prefix, mpReject, List.append_assoc]
    exact List.prefix_append ..
  have hrest : (mpReject status message).drop REJECT.length =
      Nat.toDigits 10 status ++ ':' :: message.toList := by
    rw [mpReject, List.append_assoc, List.drop_left]
  have hcolon : Char.isDigit ':' = false := by decide
  rw [mpMapError, if_pos hprefix]
  simp only [hrest, List.takeWhile_append_of_pos hdigits, List.dropWhile_append_of_pos hdigits,
    List.takeWhile_cons, List.dropWhile_cons, hcolon, Bool.false_eq_true, if_false,
    List.append_nil]
  cases hstatus : Nat.toDigits 10 status with
  | nil => exact absurd hstatus Nat.toDigits_ne_nil
  | cons d ds =>
      simp only [String.ofList_toList]
      rw [← hstatus, Nat.ofDigitChars_ten_toDigits]

/-! ## What the call does -/

/-- What `formData()` appends. -/
inductive Entry where
  | field (name value : String)
  /-- the `Blob` gets a type where the part has one that is not empty -/
  | file (name : String) (content : Bytes) (type : Option String) (filename : String)
  deriving DecidableEq, Repr

section Collecting

-- `Buffer.toString('utf8')`
variable (utf8 : Bytes → String)

/-- The entry of a part of which these chunks were read. -/
def entryOf (info : PartMeta) (chunks : List Bytes) : Entry :=
  match info.filename with
  | some filename =>
      .file (info.name.getD "") chunks.flatten (info.contentType.filter (· ≠ "")) filename
  | none => .field (info.name.getD "") (utf8 chunks.flatten)

def Part.entry (p : Part) : Entry := entryOf utf8 p.info p.chunks

/-- Where a call of `formData()` stands. -/
inductive FormData where
  /-- the iterator waits for `next_part` -/
  | next (fd : List Entry)
  /-- `collect` waits for `read_part` -/
  | read (fd : List Entry) (info : PartMeta) (chunks : List Bytes)
  | returned (fd : List Entry)
  | threw (e : Thrown)
  deriving DecidableEq

/-- The call that it waits for. -/
def FormData.call : FormData → Option Call
  | .next _ => some .next
  | .read .. => some .read
  | .returned _ | .threw _ => none

def FormData.hear : FormData → Saw → FormData
  | .next fd, .part none => .returned fd
  | .next fd, .part (some info) => .read fd info []
  | .read fd info chunks, .chunk (some b) => .read fd info (chunks ++ [b])
  | .read fd info chunks, .chunk none => .next (fd ++ [entryOf utf8 info chunks])
  | .next _, .rejected status message | .read .., .rejected status message =>
      .threw (mpMapError (mpReject status message))
  | fd, _ => fd

/-- Where it stands when it has heard these answers. -/
def FormData.after (log : List Saw) : FormData := log.foldl (FormData.hear utf8) (.next [])

def FormData.result : FormData → Option (Except Thrown (List Entry))
  | .next _ | .read .. => none
  | .returned fd => some (.ok fd)
  | .threw e => some (.error e)

/-- The `BodyIo` is used by `formData()` alone. -/
def Driven (io : MpIo) (l : MpLabel) : Prop :=
  l ≠ .drop ∧ ∀ c ∈ l.call, (FormData.after utf8 io.log).call = some c

instance (io : MpIo) (l : MpLabel) : Decidable (Driven utf8 io l) :=
  inferInstanceAs (Decidable (_ ∧ _))

/-! ## The call on its own -/

/-- One call and its answer. -/
def turn (p : FormData × Reader) : FormData × Reader :=
  match p.1.call with
  | none => p
  | some c => (p.1.hear utf8 (p.2.call c).1, (p.2.call c).2)

/-- Where it stands when it has seen these parts, the last one first. -/
def FormData.seen : Bool → List Part → FormData
  | true, p :: seen => .read (seen.reverse.map (Part.entry utf8)) p.info p.chunks
  | _, seen => .next (seen.reverse.map (Part.entry utf8))

/-- The rejection among some events. -/
def rejection (events : List MpEvent) : Option (Nat × String) :=
  events.findSome? fun
    | .reject status message => some (status, message)
    | _ => none

/-- How it ends when these events are to come. -/
def FormData.outcome (events : List MpEvent) (seen : List Part) : FormData :=
  match rejection events with
  | some (status, message) => .threw (.http status message)
  | none => .returned ((events.foldl MpEvent.adds seen).reverse.map (Part.entry utf8))

variable {utf8}

theorem exists_turns_succ {p q : FormData × Reader} (h : turn utf8 p = q)
    {result : FormData} (hq : ∃ n r, (turn utf8)^[n] q = (result, r)) :
    ∃ n r, (turn utf8)^[n] p = (result, r) := by
  obtain ⟨n, r, hn⟩ := hq
  exact ⟨n + 1, r, by rw [Function.iterate_succ_apply, h, hn]⟩

/-- The call comes to its end, with what the events say. -/
theorem exists_turns {inPart : Bool} {events : List MpEvent}
    (h : bracketed inPart events = true) (seen : List Part) (hopen : inPart = true → seen ≠ [])
    (ended : Bool) (hended : inPart = true → ended = false) :
    ∃ n r, (turn utf8)^[n] (FormData.seen utf8 inPart seen, ⟨events, ended⟩) =
      (FormData.outcome utf8 events seen, r) := by
  induction events generalizing inPart seen ended with
  | nil =>
      obtain rfl : inPart = false := by simpa [bracketed] using h
      exact ⟨1, _, rfl⟩
  | cons e events ih =>
      cases e with
      | part name filename contentType =>
          simp only [bracketed, Bool.and_eq_true, Bool.not_eq_true'] at h
          obtain ⟨rfl, h⟩ := h
          exact exists_turns_succ rfl
            (ih h (⟨name, filename, contentType, [], false⟩ :: seen)
              (fun _ => List.cons_ne_nil _ _) false fun _ => rfl)
      | chunk b =>
          simp only [bracketed, Bool.and_eq_true] at h
          obtain ⟨rfl, h⟩ := h
          obtain rfl := hended rfl
          obtain ⟨p, seen, rfl⟩ := List.exists_cons_of_ne_nil (hopen rfl)
          exact exists_turns_succ rfl
            (ih h ({ p with chunks := p.chunks ++ [b] } :: seen)
              (fun _ => List.cons_ne_nil _ _) false fun _ => rfl)
      | partEnd =>
          simp only [bracketed, Bool.and_eq_true] at h
          obtain ⟨rfl, h⟩ := h
          obtain rfl := hended rfl
          obtain ⟨p, seen, rfl⟩ := List.exists_cons_of_ne_nil (hopen rfl)
          have hclosed {q : Prop} (hin : false = true) : q := absurd hin Bool.false_ne_true
          refine exists_turns_succ ?_
            (ih h ({ p with complete := true } :: seen) hclosed true hclosed)
          simp [FormData.seen, turn, FormData.call, Reader.call, readPart, FormData.hear,
            Part.entry, Part.info]
      | reject status message =>
          refine ⟨1, ?_⟩
          cases inPart with
          | false =>
              refine ⟨⟨events, ended⟩, ?_⟩
              simp [FormData.seen, turn, FormData.call, Reader.call, nextPart, FormData.hear,
                mpMapError_mpReject, FormData.outcome, rejection]
          | true =>
              obtain rfl := hended rfl
              obtain ⟨p, seen, rfl⟩ := List.exists_cons_of_ne_nil (hopen rfl)
              refine ⟨⟨events, false⟩, ?_⟩
              simp [FormData.seen, turn, FormData.call, Reader.call, readPart, FormData.hear,
                mpMapError_mpReject, FormData.outcome, rejection]

variable (utf8) in
theorem exists_end {msgs : List MpEvent} (h : bracketed false msgs = true) :
    ∃ n r, (turn utf8)^[n] (.next [], ⟨msgs, false⟩) = (FormData.outcome utf8 msgs [], r) :=
  exists_turns h [] nofun false nofun

theorem turn_of_done {p : FormData × Reader} (h : p.1.call = none) : turn utf8 p = p := by
  rw [turn, h]

theorem call_of_result {fd : FormData} {r : Except Thrown (List Entry)}
    (h : fd.result = some r) : fd.call = none := by
  cases fd with
  | next _ | read _ _ _ => cases h
  | returned _ | threw _ => rfl

theorem outcome_call (events : List MpEvent) (seen : List Part) :
    (FormData.outcome utf8 events seen).call = none := by
  rw [FormData.outcome]
  split <;> rfl

/-- Once it has ended, it stays so. -/
theorem iterate_done {p : FormData × Reader} {n : Nat} (h : ((turn utf8)^[n] p).1.call = none)
    {m : Nat} (hm : n ≤ m) : (turn utf8)^[m] p = (turn utf8)^[n] p := by
  obtain ⟨k, rfl⟩ := Nat.exists_eq_add_of_le' hm
  rw [Function.iterate_add_apply]
  exact Function.iterate_fixed (turn_of_done h) k

/-! ## The call next to the task -/

theorem after_concat (log : List Saw) (a : Saw) :
    FormData.after utf8 (log ++ [a]) = (FormData.after utf8 log).hear utf8 a := by
  rw [FormData.after, List.foldl_append]
  rfl

/-- The answers so far are those of as many turns on the reader's side.  A call of `next_part`
that is still looking is going to be answered as the reader answers it. -/
structure Tracks (utf8 : Bytes → String) (start : Reader) (io : MpIo) : Prop where
  there : Pipe.Open io.rx
  idle : io.seeking = false →
    (turn utf8)^[io.log.length] (.next [], start) = (FormData.after utf8 io.log, io.reader)
  pending : io.seeking = true → (FormData.after utf8 io.log).call = some .next ∧
    ∃ r, (turn utf8)^[io.log.length] (.next [], start) = (FormData.after utf8 io.log, r) ∧
      r.call .next = io.reader.call .next

/-- One more turn. -/
theorem iterate_turn {p : FormData × Reader} {log : List Saw} {r : Reader} {c : Call}
    (h : (turn utf8)^[log.length] p = (FormData.after utf8 log, r))
    (hcall : (FormData.after utf8 log).call = some c) :
    (turn utf8)^[(log ++ [(r.call c).1]).length] p =
      (FormData.after utf8 (log ++ [(r.call c).1]), (r.call c).2) := by
  rw [List.length_append, List.length_singleton, Function.iterate_succ_apply', h, turn,
    after_concat]
  simp only [hcall]

variable {start : Reader} {io io' : MpIo} {l : MpLabel}

/-- The sender has gone on. -/
theorem Tracks.sent {rx : Pipe.State MpEvent} (hs : Tracks utf8 start io) (hopen : Pipe.Open rx)
    (hleft : rx.left = io.rx.left) : Tracks utf8 start { io with rx := rx } := by
  have hreader : MpIo.reader { io with rx := rx } = io.reader := by
    rw [MpIo.reader, MpIo.reader, hleft]
  exact ⟨hopen, hreader ▸ hs.idle, hreader ▸ hs.pending⟩

theorem Tracks.step (hs : Tracks utf8 start io) (hl : Driven utf8 io l)
    (h : io.step l = some io') : Tracks utf8 start io' := by
  cases l with
  | send =>
      obtain ⟨rx, hrx, rfl⟩ := Option.map_eq_some_iff.1 h
      exact hs.sent (Pipe.send_left hs.there hrx).1 (Pipe.send_left hs.there hrx).2
  | close =>
      obtain ⟨rx, hrx, rfl⟩ := Option.map_eq_some_iff.1 h
      exact hs.sent (Pipe.close_left hs.there hrx).1 (Pipe.close_left hs.there hrx).2
  | nextPart =>
      obtain ⟨hidle, h⟩ := Option.ite_none_left_eq_some.1 h
      obtain rfl := Option.some.inj h
      exact
        { there := hs.there
          idle := fun hseek => by cases hseek
          pending := fun _ =>
            ⟨hl.2 _ rfl, io.reader, hs.idle (Bool.eq_false_of_not_eq_true hidle), rfl⟩ }
  | seek =>
      obtain ⟨hseek, h⟩ := Option.ite_none_right_eq_some.1 h
      obtain ⟨⟨r, rx⟩, hrx, rfl⟩ := Option.map_eq_some_iff.1 h
      obtain ⟨hthere, hleft, hnone⟩ := Pipe.recv_left hs.there hrx
      obtain ⟨hcall, r₀, hturns, hr₀⟩ := hs.pending hseek
      have hrx' : (io.sought rx r).rx = rx := (sought_logs io rx r).1
      rcases sought_cases io rx r with ⟨hseek', hlog, hended, hskip⟩ | ⟨hseek', a, hlog, hfound⟩
      · refine ⟨hrx'.symm ▸ hthere, fun hidle => ?_, fun _ => ?_⟩
        · rw [hseek', hseek] at hidle
          cases hidle
        · rw [hlog]
          refine ⟨hcall, r₀, hturns, hr₀.trans ?_⟩
          simp only [Reader.call, MpIo.reader, hrx', hended, hleft, hskip]
      · refine ⟨hrx'.symm ▸ hthere, fun _ => ?_, fun hpending => ?_⟩
        · have hanswer : r₀.call .next = (a, (io.sought rx r).reader) := by
            rw [hr₀]
            simp only [Reader.call, MpIo.reader, hrx', hleft, hfound rx.left hnone]
          have hturn := iterate_turn hturns hcall
          rwa [hanswer, ← hlog] at hturn
        · rw [hseek'] at hpending
          cases hpending
  | readPart =>
      obtain ⟨hidle, h⟩ := Option.ite_none_left_eq_some.1 h
      have hseek : io.seeking = false := Bool.eq_false_of_not_eq_true hidle
      have hturn := iterate_turn (hs.idle hseek) (hl.2 _ rfl)
      split at h
      case isTrue hended =>
        obtain rfl := Option.some.inj h
        have hread : io.reader.call .read = (.chunk none, io.reader) := by
          simp [Reader.call, readPart, MpIo.reader, hended]
        rw [hread] at hturn
        exact ⟨hs.there, fun _ => hturn, fun hpending => absurd hpending hidle⟩
      case isFalse hended =>
        obtain ⟨⟨r, rx⟩, hrx, rfl⟩ := Option.map_eq_some_iff.1 h
        obtain ⟨hthere, hleft, hnone⟩ := Pipe.recv_left hs.there hrx
        have hrx' : (io.partRead rx r).rx = rx := (partRead_logs io rx r).1
        obtain ⟨hseek', a, hlog, hread⟩ :=
          partRead_eq io rx r (Bool.eq_false_of_not_eq_true hended) hnone
        have hcall : io.reader.call .read = (a, (io.partRead rx r).reader) := by
          rw [Reader.call, MpIo.reader, hleft, hread]
        refine ⟨hrx'.symm ▸ hthere, fun _ => ?_, fun hpending => ?_⟩
        · rwa [hcall, ← hlog] at hturn
        · rw [hseek', hseek] at hpending
          cases hpending
  | drop => exact absurd rfl hl.1

theorem tracks_of_run {msgs : List MpEvent} {ls : List MpLabel}
    (hrun : run MpIo.step (MpIo.open (Pipe.State.start msgs)) ls = some io)
    (hdriven : Along MpIo.step (Driven utf8) (MpIo.open (Pipe.State.start msgs)) ls) :
    Tracks utf8 ⟨msgs, false⟩ io :=
  hdriven.invariant (fun _ _ _ hs hl hstep => hs.step hl hstep)
    ⟨Pipe.open_start msgs, fun _ => rfl, nofun⟩ hrun

/-- The state that the call is in is that of some turns. -/
theorem Tracks.turns (hs : Tracks utf8 start io) :
    ((turn utf8)^[io.log.length] (.next [], start)).1 = FormData.after utf8 io.log := by
  cases hseek : io.seeking with
  | false => rw [hs.idle hseek]
  | true =>
      obtain ⟨_, r, hturns, _⟩ := hs.pending hseek
      rw [hturns]

/-- When it has ended, it has ended as the events say. -/
theorem Tracks.outcome {msgs : List MpEvent} (hs : Tracks utf8 ⟨msgs, false⟩ io)
    (hmsgs : bracketed false msgs = true) (hdone : (FormData.after utf8 io.log).call = none) :
    FormData.after utf8 io.log = FormData.outcome utf8 msgs [] := by
  obtain ⟨n, r, hn⟩ := exists_end utf8 hmsgs
  have hn' : ((turn utf8)^[n] (.next [], ⟨msgs, false⟩)).1 = FormData.outcome utf8 msgs [] :=
    congrArg Prod.fst hn
  have hk := hs.turns
  rcases Nat.le_total io.log.length n with hle | hle
  · rw [← hn', ← hk, iterate_done (by rw [hk, hdone]) hle]
  · rw [← hn', ← hk, iterate_done (by rw [hn', outcome_call]) hle]

variable (utf8) in
/-- Moves that are no calls. -/
theorem driven_inner {ls : List MpLabel} (h : ∀ l ∈ ls, l.inner = true) (io : MpIo) :
    Along MpIo.step (Driven utf8) io ls ∧ calls ls = [] := by
  induction ls generalizing io with
  | nil => exact ⟨trivial, rfl⟩
  | cons l ls ih =>
      obtain ⟨hl, hls⟩ := List.forall_mem_cons.1 h
      have hcall : l.call = none ∧ l ≠ .drop := by
        cases l <;> first | exact ⟨rfl, MpLabel.noConfusion⟩ | cases hl
      refine ⟨fun u _ => ⟨⟨hcall.2, fun c hc => ?_⟩, (ih hls u).1⟩, ?_⟩
      · rw [hcall.1] at hc
        cases hc
      · rw [calls, List.filterMap_cons, hcall.1]
        exact (ih hls io).2

theorem not_drop_of_driven {ls : List MpLabel} (hrun : run MpIo.step io ls = some io')
    (h : Along MpIo.step (Driven utf8) io ls) : .drop ∉ ls := by
  induction ls generalizing io with
  | nil => exact List.not_mem_nil
  | cons l ls ih =>
      obtain ⟨u, hu, hrun⟩ := run_cons_some.1 hrun
      obtain ⟨hl, hls⟩ := (along_cons_of_eq hu).1 h
      exact List.not_mem_cons_of_ne_of_not_mem hl.1.symm (ih hrun hls)

theorem length_serve (r : Reader) (cs : List Call) : (r.serve cs).1.length = cs.length := by
  induction cs generalizing r with
  | nil => rfl
  | cons c cs ih => rw [Reader.serve, List.length_cons, ih, List.length_cons]

/-- The label of a call. -/
def Call.label : Call → MpLabel
  | .next => .nextPart
  | .read => .readPart

/-- A call can be made when the one before it is answered and there is something to take. -/
theorem exists_call (hidle : io.seeking = false) (hready : io.rx.recv.isSome = true) (c : Call) :
    ∃ io', io.step c.label = some io' := by
  cases c with
  | next => exact ⟨_, if_neg (Bool.eq_false_iff.1 hidle)⟩
  | read =>
      obtain ⟨r, hr⟩ := Option.isSome_iff_exists.1 hready
      cases hended : io.ended with
      | true => exact ⟨_, by simp [Call.label, MpIo.step, hidle, hended]; rfl⟩
      | false => exact ⟨_, by simp [Call.label, MpIo.step, hidle, hended, hr]; rfl⟩

/-- The call can go on to its end. -/
theorem exists_done {msgs : List MpEvent} (hmsgs : bracketed false msgs = true)
    {ls : List MpLabel} (hrun : run MpIo.step (MpIo.open (Pipe.State.start msgs)) ls = some io)
    (hdriven : Along MpIo.step (Driven utf8) (MpIo.open (Pipe.State.start msgs)) ls) :
    ∃ ms io', run MpIo.step (MpIo.open (Pipe.State.start msgs)) (ls ++ ms) = some io' ∧
      Along MpIo.step (Driven utf8) (MpIo.open (Pipe.State.start msgs)) (ls ++ ms) ∧
      (FormData.after utf8 io'.log).call = none := by
  obtain ⟨n, r, hn⟩ := exists_end utf8 hmsgs
  -- every further call is one of the turns that lead to the end
  generalize hk : n - (calls ls).length = k
  induction k using Nat.strong_induction_on generalizing ls io with
  | h k ih =>
      obtain ⟨is, io₁, his, hrun₁, hidle, hready⟩ := served (tracks_of_run hrun hdriven).there
      obtain ⟨hinner, hnocalls⟩ := driven_inner utf8 his io
      have hrun' := run_append_some.2 ⟨io, hrun, hrun₁⟩
      have hdriven' := hdriven.append hrun hinner
      have hcalls : calls (ls ++ is) = calls ls := by
        rw [calls, List.filterMap_append, ← calls, ← calls, hnocalls, List.append_nil]
      cases hcall : (FormData.after utf8 io₁.log).call with
      | none => exact ⟨is, io₁, hrun', hdriven', hcall⟩
      | some c =>
          obtain ⟨io₂, hstep⟩ := exists_call hidle hready c
          have hrun₂ := run_concat_some.2 ⟨io₁, hrun', hstep⟩
          have hmade : Along MpIo.step (Driven utf8) io₁ [c.label] := by
            refine (along_cons_of_eq hstep).2 ⟨⟨?_, fun c' hc' => ?_⟩, trivial⟩
            · cases c <;> simp [Call.label]
            · obtain rfl : c = c' := by cases c <;> exact Option.some.inj hc'
              exact hcall
          have hlength : io₁.log.length = (calls ls).length := by
            have hfollows := run_follows hrun' (not_drop_of_driven hrun' hdriven')
            rw [← hcalls, ← length_serve ⟨msgs, false⟩, hfollows.idle hidle]
          have hlt : io₁.log.length < n := by
            by_contra hge
            have hdone := iterate_done (by rw [hn, outcome_call]) (Nat.le_of_not_lt hge)
            rw [← (tracks_of_run hrun' hdriven').turns, hdone, hn, outcome_call] at hcall
            cases hcall
          obtain ⟨ms, io', hms⟩ := ih _ (by
            have hmore : (calls (ls ++ is ++ [c.label])).length = (calls ls).length + 1 := by
              rw [calls, List.filterMap_append, ← calls, hcalls]
              cases c <;> simp [Call.label, MpLabel.call]
            rw [hmore]
            omega) hrun₂ (hdriven'.append hrun' hmade) rfl
          exact ⟨is ++ [c.label] ++ ms, io', by simpa using hms⟩

/-- How `formData()` ends for a form. -/
def Form.data (utf8 : Bytes → String) (lowercase : String → String) (cfg : MultipartConfig)
    (f : Form) : Except Thrown (List Entry) :=
  match f.firstViolation lowercase cfg with
  | none => .ok (f.parts.map (Part.entry utf8))
  | some v => .error (.http v.status v.message)

theorem rejection_eq_none {events : List MpEvent} :
    rejection events = none ↔ ∀ e ∈ events, e.isReject = false := by
  rw [rejection, List.findSome?_eq_none_iff]
  refine forall₂_congr fun e _ => ?_
  cases e <;> simp [MpEvent.isReject]

/-- The events of the task say what the form asks for. -/
theorem outcome_parseTask (utf8 : Bytes → String) (lowercase : String → String)
    {cfg : MultipartConfig} (hcount : cfg.Countable) (hsize : cfg.Sized) (f : Form) :
    (FormData.outcome utf8 (parseTask lowercase cfg f.complete 0 0 f.parts) []).result =
      some (f.data utf8 lowercase cfg) := by
  obtain ⟨hclean, hwhole⟩ := parseTask_clean_iff hcount hsize f
  rw [FormData.outcome]
  split
  case h_1 status message hreject =>
    obtain ⟨e, he, hstatus⟩ := List.exists_of_findSome?_eq_some hreject
    obtain rfl : e = .reject status message := by
      cases e <;> simp_all
    obtain ⟨v, hv, hevent⟩ := reject_parseTask hcount hsize he rfl
    obtain ⟨rfl, rfl⟩ := MpEvent.reject.inj hevent
    rw [Form.data, hv]
    rfl
  case h_2 hnone =>
    have haccepted := hclean.1 (rejection_eq_none.1 hnone)
    have hparts := partsOf_stream haccepted.parts
    rw [partsOf, ← haccepted.complete] at hparts
    rw [hwhole haccepted, Form.stream, hparts, Form.data, (firstViolation_eq_none f).2 haccepted,
      List.reverse_reverse]
    rfl

/-- An image in two chunks and a field. -/
def imageAndField : Form where
  parts := [⟨some "a", some "a.png", some "image/png", [[1], [2]], true⟩,
    ⟨some "b", none, none, [[104, 105]], true⟩]
  complete := true

def collecting : List MpLabel :=
  [.nextPart, .send, .seek, .send, .readPart, .send, .readPart, .send, .readPart, .nextPart,
    .send, .seek, .send, .readPart, .send, .readPart, .nextPart, .close, .seek]

end Collecting

end Multipart
end OxideHttp
