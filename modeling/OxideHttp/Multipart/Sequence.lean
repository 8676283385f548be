import OxideHttp.Multipart

/-!
# The order of the parts (`src/stream.rs`: `next_part`, `read_part`)

JS asks for a part, reads as much of it as it likes, and asks for the next one.  Both
calls take events off one channel, and one flag tells `read_part` that the part is over.

Here the calls are first taken on their own: a `Reader` holds the events that are still to
come, and a call takes what it needs (`nextPart`, `readPart`).  A run of the calls next to
the sender answers them in the same way (`run_follows`).

Results.
* `serve_rounds`: what a series of calls is given, for every form and every number of
  reads between two parts.
* `parts_in_order`: the same for every run, and every call is answered in the end.
-/

namespace OxideHttp
namespace Multipart

open Transition

/-! ## The calls on their own -/

/-- The events that are still to come; the channel is closed after them. -/
structure Reader where
  events : List MpEvent
  /-- the current part is finished -/
  ended : Bool
  deriving DecidableEq

/-- `next_part`. -/
def nextPart (ended : Bool) : List MpEvent → Saw × Reader
  | .part name filename contentType :: events =>
      (.part (some { name, filename, contentType }), ⟨events, false⟩)
  | .chunk _ :: events | .partEnd :: events => nextPart ended events
  | .reject status message :: events => (.rejected status message, ⟨events, ended⟩)
  | [] => (.part none, ⟨[], ended⟩)

/-- `read_part`. -/
def readPart (r : Reader) : Saw × Reader :=
  if r.ended then (.chunk none, r)
  else match r.events with
    | .chunk b :: events => (.chunk (some b), { r with events := events })
    | .partEnd :: events => (.chunk none, ⟨events, true⟩)
    | .reject status message :: events =>
        (.rejected status message, { r with events := events })
    | .part .. :: events => (.chunk none, ⟨events, true⟩)
    | [] => (.chunk none, ⟨[], true⟩)

inductive Call where
  | next
  | read
  deriving DecidableEq, Repr

def Reader.call (r : Reader) : Call → Saw × Reader
  | .next => nextPart r.ended r.events
  | .read => readPart r

/-- A series of calls, each made when the one before it was answered. -/
def Reader.serve (r : Reader) : List Call → List Saw × Reader
  | [] => ([], r)
  | c :: cs => ((r.call c).1 :: ((r.call c).2.serve cs).1, ((r.call c).2.serve cs).2)

theorem serve_append (r : Reader) (cs ds : List Call) :
    r.serve (cs ++ ds) =
      ((r.serve cs).1 ++ ((r.serve cs).2.serve ds).1, ((r.serve cs).2.serve ds).2) := by
  induction cs generalizing r with
  | nil => rfl
  | cons c cs ih => rw [List.cons_append, Reader.serve, ih, Reader.serve]; rfl

/-! ## What they are given -/

/-- The events of a form that is not cut off inside a part: `(Part Chunk* PartEnd)*`, and
a `Reject` where the form was refused after these parts. -/
def formEvents (parts : List Part) (reject : Option (Nat × String)) : List MpEvent :=
  (parts.flatMap fun p =>
    .part p.name p.filename p.contentType :: (p.chunks.map MpEvent.chunk ++ [.partEnd])) ++
    reject.toList.map fun r => .reject r.1 r.2

def Part.info (p : Part) : PartMeta :=
  { name := p.name, filename := p.filename, contentType := p.contentType }

/-- What the call of `next_part` with this number is given: the parts in order, then the
rejection if there is one, then the end of the form. -/
def heading (parts : List Part) (reject : Option (Nat × String)) (i : Nat) : Saw :=
  ((parts.map fun p => Saw.part (some p.info)) ++
    reject.toList.map fun r => Saw.rejected r.1 r.2).getD i (.part none)

/-- The chunks of the part with this number; there are none after the last part. -/
def chunksAt (parts : List Part) (i : Nat) : List Bytes := (parts[i]?).elim [] Part.chunks

/-- One call of `next_part` and the `k` calls of `read_part` after it. -/
def round (parts : List Part) (reject : Option (Nat × String)) (i k : Nat) : List Saw :=
  heading parts reject i :: (List.range k).map fun j => .chunk (chunksAt parts i)[j]?

/-- The rounds from the one with this number on, by how often each of them reads. -/
def rounds (parts : List Part) (reject : Option (Nat × String)) : Nat → List Nat → List Saw
  | _, [] => []
  | i, k :: ks => round parts reject i k ++ rounds parts reject (i + 1) ks

/-- The calls of these rounds. -/
def callsOf (ks : List Nat) : List Call := ks.flatMap fun k => .next :: List.replicate k .read

/-- An event that belongs to the part before it. -/
def MpEvent.isTail : MpEvent → Bool
  | .chunk _ | .partEnd => true
  | .part .. | .reject .. => false

/-- `next_part` passes over what is left of an abandoned part. -/
theorem nextPart_tail {tail : List MpEvent} (htail : ∀ e ∈ tail, e.isTail = true)
    (ended : Bool) (events : List MpEvent) :
    nextPart ended (tail ++ events) = nextPart ended events := by
  induction tail with
  | nil => rfl
  | cons e tail ih =>
      have hrest := ih fun d hd => htail d (List.mem_cons_of_mem _ hd)
      have he := htail e (List.mem_cons_self ..)
      cases e with
      | chunk b => simpa [nextPart] using hrest
      | partEnd => simpa [nextPart] using hrest
      | part _ _ _ => cases he
      | reject _ _ => cases he

/-- Reading a part that is over. -/
theorem serve_reads_ended {r : Reader} (h : r.ended = true) (k : Nat) :
    r.serve (List.replicate k .read) = (List.replicate k (.chunk none), r) := by
  induction k with
  | zero => rfl
  | succ k ih => simp [List.replicate_succ, Reader.serve, Reader.call, readPart, h, ih]

/-- Reading when nothing is left to come. -/
theorem serve_reads_nil (ended : Bool) (k : Nat) :
    ∃ ended', Reader.serve ⟨[], ended⟩ (List.replicate k .read) =
      (List.replicate k (.chunk none), ⟨[], ended'⟩) := by
  cases ended with
  | true => exact ⟨true, serve_reads_ended rfl k⟩
  | false =>
      cases k with
      | zero => exact ⟨false, rfl⟩
      | succ k =>
          refine ⟨true, ?_⟩
          simp [List.replicate_succ, Reader.serve, Reader.call, readPart, serve_reads_ended]

/-- Reading a part gives its chunks in order, then the end; what is left of it is a tail. -/
theorem serve_reads (chunks : List Bytes) (events : List MpEvent) (k : Nat) :
    ∃ r tail, (∀ e ∈ tail, e.isTail = true) ∧ r.events = tail ++ events ∧
      Reader.serve ⟨chunks.map MpEvent.chunk ++ .partEnd :: events, false⟩
          (List.replicate k .read) =
        ((List.range k).map fun j => .chunk chunks[j]?, r) := by
  induction k generalizing chunks with
  | zero =>
      refine ⟨_, chunks.map MpEvent.chunk ++ [.partEnd], ?_, by simp, rfl⟩
      intro e he
      rcases List.mem_append.1 he with he | he
      · obtain ⟨b, _, rfl⟩ := List.mem_map.1 he
        rfl
      · rw [List.mem_singleton.1 he]
        rfl
  | succ k ih =>
      cases chunks with
      | nil =>
          refine ⟨⟨events, true⟩, [], by simp, rfl, ?_⟩
          rw [List.replicate_succ]
          simp [Reader.serve, Reader.call, readPart, serve_reads_ended, List.range_succ_eq_map,
            Function.comp_def]
      | cons b chunks =>
          obtain ⟨r, tail, htail, hr, hserve⟩ := ih chunks
          refine ⟨r, tail, htail, hr, ?_⟩
          rw [List.replicate_succ, Reader.serve]
          simp [Reader.call, readPart, List.range_succ_eq_map, Function.comp_def, hserve]

/-- The form from the part with this number on. -/
def formFrom (parts : List Part) (reject : Option (Nat × String)) (i : Nat) : List MpEvent :=
  formEvents (parts.drop i) (if i ≤ parts.length then reject else none)

theorem heading_of_lt {parts : List Part} (reject : Option (Nat × String)) {i : Nat}
    (hi : i < parts.length) : heading parts reject i = .part (some parts[i].info) := by
  rw [heading, List.getD_eq_getElem?_getD, List.getElem?_append_left (by simpa using hi)]
  simp [hi]

theorem heading_length (parts : List Part) (reject : Option (Nat × String)) :
    heading parts reject parts.length =
      reject.elim (.part none) fun r => .rejected r.1 r.2 := by
  cases reject <;> simp [heading]

theorem heading_of_gt {parts : List Part} (reject : Option (Nat × String)) {i : Nat}
    (hi : parts.length < i) : heading parts reject i = .part none := by
  rw [heading, List.getD_eq_getElem?_getD, List.getElem?_eq_none, Option.getD_none]
  cases reject <;> simp <;> omega

theorem formFrom_of_lt {parts : List Part} (reject : Option (Nat × String)) {i : Nat}
    (hi : i < parts.length) :
    formFrom parts reject i =
      .part parts[i].name parts[i].filename parts[i].contentType ::
        (parts[i].chunks.map MpEvent.chunk ++ .partEnd :: formFrom parts reject (i + 1)) := by
  rw [formFrom, formFrom, formEvents, List.drop_eq_getElem_cons hi, List.flatMap_cons,
    if_pos hi.le, if_pos (Nat.succ_le_of_lt hi)]
  simp [formEvents]

theorem formFrom_length (parts : List Part) (reject : Option (Nat × String)) :
    formFrom parts reject parts.length =
      reject.toList.map fun r => .reject r.1 r.2 := by
  simp [formFrom, formEvents]

theorem formFrom_of_gt {parts : List Part} (reject : Option (Nat × String)) {i : Nat}
    (hi : parts.length < i) : formFrom parts reject i = [] := by
  simp [formFrom, formEvents, List.drop_eq_nil_of_le hi.le, Nat.not_le.2 hi]

/-- Nothing is read after the last part. -/
theorem reads_of_le {parts : List Part} {i : Nat} (hi : parts.length ≤ i) (k : Nat) :
    (List.range k).map (fun j => Saw.chunk (chunksAt parts i)[j]?) =
      List.replicate k (.chunk none) := by
  simp [chunksAt, List.map_const', List.getElem?_eq_none hi]

/-- One round: the reader is then at the next part, or in the tail of this one. -/
theorem serve_round (parts : List Part) (reject : Option (Nat × String)) (i k : Nat)
    {r : Reader} {tail : List MpEvent} (htail : ∀ e ∈ tail, e.isTail = true)
    (hr : r.events = tail ++ formFrom parts reject i) :
    ∃ r' tail', (∀ e ∈ tail', e.isTail = true) ∧
      r'.events = tail' ++ formFrom parts reject (i + 1) ∧
      r.serve (.next :: List.replicate k .read) = (round parts reject i k, r') := by
  have hnext : r.call .next = nextPart r.ended (formFrom parts reject i) := by
    rw [Reader.call, hr, nextPart_tail htail]
  rcases Nat.lt_trichotomy i parts.length with hi | rfl | hi
  · -- a part: its reads stay within it
    obtain ⟨r', tail', htail', hr', hserve⟩ :=
      serve_reads parts[i].chunks (formFrom parts reject (i + 1)) k
    refine ⟨r', tail', htail', hr', ?_⟩
    rw [Reader.serve, hnext, formFrom_of_lt reject hi, nextPart, hserve, round,
      heading_of_lt reject hi]
    simp [chunksAt, hi, Part.info]
  · -- the rejection, or the end
    obtain ⟨ended', hserve⟩ := serve_reads_nil r.ended k
    refine ⟨⟨[], ended'⟩, [], by simp, ?_, ?_⟩
    · rw [formFrom_of_gt reject (Nat.lt_succ_self _), List.append_nil]
    · rw [Reader.serve, hnext, round, reads_of_le le_rfl, heading_length, formFrom_length]
      cases reject <;> simp [nextPart, hserve]
  · obtain ⟨ended', hserve⟩ := serve_reads_nil r.ended k
    refine ⟨⟨[], ended'⟩, [], by simp, ?_, ?_⟩
    · rw [formFrom_of_gt reject (Nat.lt_succ_of_lt hi), List.append_nil]
    · rw [Reader.serve, hnext, round, reads_of_le hi.le, heading_of_gt reject hi,
        formFrom_of_gt reject hi]
      simp [nextPart, hserve]

/-- What a series of calls is given. -/
theorem serve_rounds (parts : List Part) (reject : Option (Nat × String)) (ks : List Nat) :
    (Reader.serve ⟨formEvents parts reject, false⟩ (callsOf ks)).1 = rounds parts reject 0 ks := by
  have hrounds : ∀ (ks : List Nat) (i : Nat) (r : Reader) (tail : List MpEvent),
      (∀ e ∈ tail, e.isTail = true) → r.events = tail ++ formFrom parts reject i →
      (r.serve (callsOf ks)).1 = rounds parts reject i ks := by
    intro ks
    induction ks with
    | nil => exact fun _ _ _ _ _ => rfl
    | cons k ks ih =>
        intro i r tail htail hr
        obtain ⟨r', tail', htail', hr', hserve⟩ := serve_round parts reject i k htail hr
        have hcalls : callsOf (k :: ks) = (.next :: List.replicate k .read) ++ callsOf ks := rfl
        rw [hcalls, serve_append, hserve, rounds, ih (i + 1) r' tail' htail' hr']
  exact hrounds ks 0 _ [] (by simp) (by simp [formFrom])

/-! ## The calls next to the sender -/

def MpLabel.call : MpLabel → Option Call
  | .nextPart => some .next
  | .readPart => some .read
  | .send | .close | .seek | .drop => none

/-- The calls that a run makes. -/
def calls (ls : List MpLabel) : List Call := ls.filterMap MpLabel.call

/-- What a call finds. -/
def MpIo.reader (io : MpIo) : Reader := ⟨io.rx.left, io.ended⟩

/-- The calls were answered as the reader answers them.  One that is still looking for the
next part is going to be. -/
structure Follows (start : Reader) (io : MpIo) (cs : List Call) : Prop where
  there : Pipe.Open io.rx
  idle : io.seeking = false → start.serve cs = (io.log, io.reader)
  pending : io.seeking = true → ∃ ds r, cs = ds ++ [.next] ∧
    start.serve ds = (io.log, r) ∧ r.call .next = io.reader.call .next

/-- One more call is answered. -/
theorem serve_concat {start r : Reader} {log : List Saw} {cs : List Call}
    (h : start.serve cs = (log, r)) (c : Call) :
    start.serve (cs ++ [c]) = (log ++ [(r.call c).1], (r.call c).2) := by
  rw [serve_append, h]
  rfl

/-- The loop of `next_part` goes on as long as it takes the tail of a part. -/
theorem sought_cases (io : MpIo) (rx : Pipe.State MpEvent) (r : Option MpEvent) :
    ((io.sought rx r).seeking = io.seeking ∧ (io.sought rx r).log = io.log ∧
        (io.sought rx r).ended = io.ended ∧ ∀ events,
          nextPart io.ended (r.toList ++ events) = nextPart io.ended events) ∨
      ((io.sought rx r).seeking = false ∧ ∃ a, (io.sought rx r).log = io.log ++ [a] ∧
        ∀ events, (r = none → events = []) → nextPart io.ended (r.toList ++ events) =
          (a, ⟨events, (io.sought rx r).ended⟩)) := by
  rcases r with _ | (_ | _ | _ | _)
  · exact Or.inr ⟨rfl, _, rfl, fun events h => by simp [h rfl, nextPart, MpIo.sought]⟩
  · exact Or.inr ⟨rfl, _, rfl, fun events _ => rfl⟩
  · exact Or.inl ⟨rfl, rfl, rfl, fun events => rfl⟩
  · exact Or.inl ⟨rfl, rfl, rfl, fun events => rfl⟩
  · exact Or.inr ⟨rfl, _, rfl, fun events _ => rfl⟩

theorem partRead_eq (io : MpIo) (rx : Pipe.State MpEvent) (r : Option MpEvent)
    (h : io.ended = false) (hnone : r = none → rx.left = []) :
    (io.partRead rx r).seeking = io.seeking ∧
      ∃ a, (io.partRead rx r).log = io.log ++ [a] ∧
        readPart ⟨r.toList ++ rx.left, io.ended⟩ = (a, (io.partRead rx r).reader) := by
  rcases r with _ | (_ | _ | _ | _)
  · exact ⟨rfl, _, rfl, by simp [readPart, MpIo.partRead, MpIo.reader, h, hnone rfl]⟩
  · exact ⟨rfl, _, rfl, by simp [readPart, MpIo.partRead, MpIo.reader, h]⟩
  · exact ⟨rfl, _, rfl, by simp [readPart, MpIo.partRead, MpIo.reader, h]⟩
  · exact ⟨rfl, _, rfl, by simp [readPart, MpIo.partRead, MpIo.reader, h]⟩
  · exact ⟨rfl, _, rfl, by simp [readPart, MpIo.partRead, MpIo.reader, h]⟩

theorem step_follows {start : Reader} {io io' : MpIo} {cs : List Call} {l : MpLabel}
    (hs : Follows start io cs) (hl : l ≠ .drop) (h : io.step l = some io') :
    Follows start io' (cs ++ l.call.toList) := by
  cases l with
  | send =>
      obtain ⟨rx, hrx, rfl⟩ := Option.map_eq_some_iff.1 h
      obtain ⟨hthere, hleft⟩ := Pipe.send_left hs.there hrx
      have hreader : MpIo.reader { io with rx := rx } = io.reader := by
        simp [MpIo.reader, hleft]
      simp only [MpLabel.call, Option.toList_none, List.append_nil]
      exact ⟨hthere, hreader ▸ hs.idle, hreader ▸ hs.pending⟩
  | close =>
      obtain ⟨rx, hrx, rfl⟩ := Option.map_eq_some_iff.1 h
      obtain ⟨hthere, hleft⟩ := Pipe.close_left hs.there hrx
      have hreader : MpIo.reader { io with rx := rx } = io.reader := by
        simp [MpIo.reader, hleft]
      simp only [MpLabel.call, Option.toList_none, List.append_nil]
      exact ⟨hthere, hreader ▸ hs.idle, hreader ▸ hs.pending⟩
  | nextPart =>
      simp only [MpIo.step, Option.ite_none_left_eq_some] at h
      obtain ⟨hidle, h⟩ := h
      obtain rfl := Option.some.inj h
      exact
        { there := hs.there
          idle := fun hseek => by cases hseek
          pending := fun _ => ⟨cs, io.reader, rfl, hs.idle (by simpa using hidle), rfl⟩ }
  | seek =>
      simp only [MpIo.step, Option.ite_none_right_eq_some] at h
      obtain ⟨hseek, h⟩ := h
      obtain ⟨⟨r, rx⟩, hrx, rfl⟩ := Option.map_eq_some_iff.1 h
      obtain ⟨hthere, hleft, hnone⟩ := Pipe.recv_left hs.there hrx
      obtain ⟨ds, r₀, rfl, hserve, hcall⟩ := hs.pending hseek
      have hrx' : (io.sought rx r).rx = rx := (sought_logs io rx r).1
      simp only [MpLabel.call, Option.toList_none, List.append_nil]
      rcases sought_cases io rx r with ⟨hseek', hlog, hended, hskip⟩ | ⟨hseek', a, hlog, hfound⟩
      · refine ⟨hrx'.symm ▸ hthere, fun hidle => ?_, fun _ => ?_⟩
        · rw [hseek', hseek] at hidle
          cases hidle
        · refine ⟨ds, r₀, rfl, hlog.symm ▸ hserve, ?_⟩
          rw [hcall]
          simp only [Reader.call, MpIo.reader, hrx', hended, hleft, hskip]
      · refine ⟨hrx'.symm ▸ hthere, fun _ => ?_, fun hpending => ?_⟩
        · rw [serve_concat hserve, hcall, hlog]
          simp only [Reader.call, MpIo.reader, hrx', hleft, hfound rx.left hnone]
        · rw [hseek'] at hpending
          cases hpending
  | readPart =>
      simp only [MpIo.step, Option.ite_none_left_eq_some] at h
      obtain ⟨hidle, h⟩ := h
      have hseek : io.seeking = false := by simpa using hidle
      have hserve := serve_concat (hs.idle hseek) .read
      split at h
      case isTrue hended =>
        obtain rfl := Option.some.inj h
        have hread : io.reader.call .read = (.chunk none, io.reader) := by
          simp [Reader.call, readPart, MpIo.reader, hended]
        rw [hread] at hserve
        exact ⟨hs.there, fun _ => hserve, fun hpending => absurd hpending (by simp [hseek])⟩
      case isFalse hended =>
        obtain ⟨⟨r, rx⟩, hrx, rfl⟩ := Option.map_eq_some_iff.1 h
        obtain ⟨hthere, hleft, hnone⟩ := Pipe.recv_left hs.there hrx
        have hrx' : (io.partRead rx r).rx = rx := (partRead_logs io rx r).1
        obtain ⟨hseek', a, hlog, hread⟩ := partRead_eq io rx r (by simpa using hended) hnone
        have hcall : io.reader.call .read = (a, (io.partRead rx r).reader) := by
          rw [Reader.call, MpIo.reader, hleft, hread]
        refine ⟨hrx'.symm ▸ hthere, fun _ => ?_, fun hpending => ?_⟩
        · rw [hlog]
          rwa [hcall] at hserve
        · rw [hseek', hseek] at hpending
          cases hpending
  | drop => exact absurd rfl hl

/-- A run that keeps the `BodyIo` follows the reader. -/
theorem run_follows {msgs : List MpEvent} {ls : List MpLabel} {io : MpIo}
    (hrun : run MpIo.step (MpIo.open (Pipe.State.start msgs)) ls = some io)
    (hkept : .drop ∉ ls) : Follows ⟨msgs, false⟩ io (calls ls) := by
  have hstart : Follows ⟨msgs, false⟩ (MpIo.open (Pipe.State.start msgs)) [] :=
    { there := Pipe.open_start msgs
      idle := fun _ => rfl
      pending := fun h => nomatch h }
  refine run_history (J := fun io ls => .drop ∉ ls → Follows ⟨msgs, false⟩ io (calls ls))
    (fun _ => hstart) (fun io ls l io' hs hstep hkept => ?_) hrun hkept
  have hls : calls (ls ++ [l]) = calls ls ++ l.call.toList := by
    rw [calls, List.filterMap_append]
    cases l <;> rfl
  rw [hls]
  exact step_follows (hs fun h => hkept (List.mem_append_left _ h))
    (fun h => hkept (by simp [h])) hstep

/-! ## Every call is answered -/

/-- A move that is no call. -/
def MpLabel.inner : MpLabel → Bool
  | .send | .close | .seek => true
  | .nextPart | .readPart | .drop => false

/-- Without another call, what is asked for is answered, and the next call can be made:
`next_part` then takes an event at once, and `read_part` resolves at once. -/
def MpIo.Served (io : MpIo) : Prop :=
  ∃ ls io', (∀ l ∈ ls, l.inner = true) ∧ run MpIo.step io ls = some io' ∧
    io'.seeking = false ∧ io'.rx.recv.isSome = true

theorem bodyChannelCap_pos : 0 < Body.bodyChannelCap := by decide

/-- One move of the sender, if need be, and there is something to take. -/
theorem exists_ready {io : MpIo} (h : Pipe.Open io.rx) :
    ∃ ls io', (∀ l ∈ ls, l.inner = true) ∧ run MpIo.step io ls = some io' ∧
      io'.seeking = io.seeking ∧ Pipe.Open io'.rx ∧ io'.rx.left = io.rx.left ∧
      io'.rx.recv.isSome = true := by
  rcases h.ready bodyChannelCap_pos with
    hready | ⟨rx, hrx, hready⟩ | ⟨rx, hrx, hready⟩
  · exact ⟨[], io, by simp, rfl, rfl, h, rfl, hready⟩
  · obtain ⟨hopen, hleft⟩ := Pipe.send_left h hrx
    exact ⟨[.send], { io with rx := rx }, by simp [MpLabel.inner],
      by simp [MpIo.step, hrx], rfl, hopen, hleft, hready⟩
  · obtain ⟨hopen, hleft⟩ := Pipe.close_left h hrx
    exact ⟨[.close], { io with rx := rx }, by simp [MpLabel.inner],
      by simp [MpIo.step, hrx], rfl, hopen, hleft, hready⟩

theorem served {io : MpIo} (h : Pipe.Open io.rx) : io.Served := by
  -- a call that seeks takes an event off what is left, or the end
  generalize hn : io.rx.left.length = n
  induction n using Nat.strong_induction_on generalizing io with
  | h n ih =>
      obtain ⟨ls, io₁, hls, hrun, hseek, hopen, hleft, hready⟩ := exists_ready h
      cases hseeking : io.seeking with
      | false => exact ⟨ls, io₁, hls, hrun, hseek.trans hseeking, hready⟩
      | true =>
          obtain ⟨⟨r, rx⟩, hrx⟩ := Option.isSome_iff_exists.1 hready
          obtain ⟨hopen', hleft', hnone⟩ := Pipe.recv_left hopen hrx
          have hrx' : (io₁.sought rx r).rx = rx := (sought_logs io₁ rx r).1
          have hstep : io₁.step .seek = some (io₁.sought rx r) := by
            simp [MpIo.step, hseek, hseeking, hrx]
          have hnext : (io₁.sought rx r).Served := by
            cases hseek₂ : (io₁.sought rx r).seeking with
            | false =>
                obtain ⟨ms, io₂, hms, hrun₂, hsame, _, _, hready₂⟩ :=
                  exists_ready (hrx'.symm ▸ hopen' : Pipe.Open (io₁.sought rx r).rx)
                exact ⟨ms, io₂, hms, hrun₂, hsame.trans hseek₂, hready₂⟩
            | true =>
                cases r with
                | none => cases hseek₂
                | some e =>
                    refine ih rx.left.length ?_ (hrx'.symm ▸ hopen') (by rw [hrx'])
                    rw [← hn, ← hleft, hleft']
                    simp
          obtain ⟨ms, io₂, hms, hrun₂, hdone⟩ := hnext
          refine ⟨ls ++ .seek :: ms, io₂, ?_, ?_, hdone⟩
          · intro l hl
            rcases List.mem_append.1 hl with hl | hl
            · exact hls l hl
            · rcases List.mem_cons.1 hl with rfl | hl
              · rfl
              · exact hms l hl
          · exact run_append_some.2 ⟨io₁, hrun, run_cons_some.2 ⟨_, hstep, hrun₂⟩⟩

/-! ## Rounds of calls -/

/-- Calls that begin with `next_part` are rounds. -/
theorem exists_callsOf {cs : List Call} (h : cs.head? ≠ some .read) : ∃ ks, cs = callsOf ks := by
  have hreads : ∀ cs : List Call, ∃ k ks, cs = List.replicate k .read ++ callsOf ks := by
    intro cs
    induction cs with
    | nil => exact ⟨0, [], rfl⟩
    | cons c cs ih =>
        obtain ⟨k, ks, rfl⟩ := ih
        cases c with
        | next => exact ⟨0, k :: ks, rfl⟩
        | read => exact ⟨k + 1, ks, rfl⟩
  obtain ⟨k, ks, rfl⟩ := hreads cs
  cases k with
  | zero => exact ⟨ks, rfl⟩
  | succ k => simp [List.replicate_succ] at h

/-- No part is lost or duplicated.  A run whose calls begin with `next_part` makes rounds of
one `next_part` and some reads each; what JS was given is what the form holds for these
rounds, but for a call of `next_part` that is still looking, and that one is answered. -/
theorem parts_in_order (parts : List Part) (reject : Option (Nat × String))
    {ls : List MpLabel} {io : MpIo}
    (hrun : run MpIo.step (MpIo.open (Pipe.State.start (formEvents parts reject))) ls = some io)
    (hkept : .drop ∉ ls) (hfirst : (calls ls).head? ≠ some .read) :
    (∃ ks, calls ls = callsOf ks ∧
      (io.seeking = false → io.log = rounds parts reject 0 ks) ∧
      (io.seeking = true → ∃ a, io.log ++ [a] = rounds parts reject 0 ks)) ∧ io.Served := by
  have hfollows := run_follows hrun hkept
  refine ⟨?_, served hfollows.there⟩
  obtain ⟨ks, hks⟩ := exists_callsOf hfirst
  refine ⟨ks, hks, fun hidle => ?_, fun hseek => ?_⟩
  · rw [← serve_rounds, ← hks, hfollows.idle hidle]
  · obtain ⟨ds, r, hds, hserve, _⟩ := hfollows.pending hseek
    exact ⟨(r.call .next).1, by rw [← serve_rounds, ← hks, hds, serve_concat hserve]⟩

/-- A field in two chunks and one in a single chunk. -/
def twoFields : List Part :=
  [{ name := some "a", filename := none, contentType := none, chunks := [[1], [2]],
     complete := true },
   { name := some "b", filename := none, contentType := none, chunks := [[3]],
     complete := true }]

/-- The first field is abandoned after one chunk, the second one is read to its end and
once more, and the form is over. -/
def abandoning : List MpLabel :=
  [.nextPart, .send, .seek, .send, .readPart, .nextPart, .send, .seek, .send, .seek,
    .send, .seek, .send, .readPart, .send, .readPart, .readPart, .close, .nextPart, .seek]

theorem parts_in_order_abandoned :
    ∃ io, run MpIo.step (MpIo.open (Pipe.State.start (formEvents twoFields none))) abandoning =
        some io ∧
      ∃ ks, calls abandoning = callsOf ks ∧ io.log = rounds twoFields none 0 ks := by
  have hdone : (run MpIo.step (MpIo.open (Pipe.State.start (formEvents twoFields none)))
      abandoning).map MpIo.seeking = some false := by rfl
  obtain ⟨io, hrun, hidle⟩ := Option.map_eq_some_iff.1 hdone
  obtain ⟨⟨ks, hks, hlog, _⟩, _⟩ := parts_in_order twoFields none hrun (by decide) (by decide)
  exact ⟨io, hrun, ks, hks, hlog hidle⟩

example : rounds twoFields none 0 [1, 3, 0] =
    [.part (some ⟨some "a", none, none⟩), .chunk (some [1]),
      .part (some ⟨some "b", none, none⟩), .chunk (some [3]), .chunk none, .chunk none,
      .part none] := rfl

end Multipart
end OxideHttp
