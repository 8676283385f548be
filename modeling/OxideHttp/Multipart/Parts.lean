import OxideHttp.Multipart.Authentic

/-!
# Part objects (`src/stream.rs`, `js/context.ts`)

Each `next_part` that finds a part gives JS one more part object (`makePart`).  The objects
share the `BodyIo`: a `read_part` does not say through which of them it was called, and it
takes the next event that the channel yields when it gets the lock.

Results.
* `chunksOf_parse`: the chunks that `parse_task` sends of each part.
* `Numbered`: the parts that JS was given are the first ones that were sent.
* `Owned`: what holds of the deliveries as long as the reads are `timely`.
* `parts_apart`: the chunks obtained through a part object are a prefix of those of its
  part, in the runs whose reads are `timely`.
-/

namespace OxideHttp
namespace Multipart

open Body

/-! ## The chunks of a part -/

/-- The chunks that follow the part with number `k`, when `n` parts came before. -/
def chunksOf (k : Nat) : Nat → List MpEvent → List Bytes
  | _, [] => []
  | n, .part .. :: events => chunksOf k (n + 1) events
  | n, .chunk b :: events => (if n = k + 1 then [b] else []) ++ chunksOf k n events
  | n, .partEnd :: events => chunksOf k n events
  | n, .reject .. :: events => chunksOf k n events

theorem chunksOf_append (k n : Nat) (es fs : List MpEvent) :
    chunksOf k n (es ++ fs) =
      chunksOf k n es ++ chunksOf k (n + es.countP MpEvent.isPart) fs := by
  induction es generalizing n with
  | nil => rfl
  | cons e es ih =>
      cases e with
      | part name filename contentType =>
          simp [chunksOf, List.countP_cons, MpEvent.isPart, ih, Nat.add_right_comm, Nat.add_assoc]
      | chunk b => simp [chunksOf, MpEvent.isPart, ih]
      | partEnd => simp [chunksOf, MpEvent.isPart, ih]
      | reject status message => simp [chunksOf, MpEvent.isPart, ih]

theorem chunksOf_isPrefix (k : Nat) {es fs : List MpEvent} (h : es <+: fs) :
    chunksOf k 0 es <+: chunksOf k 0 fs := by
  obtain ⟨rest, rfl⟩ := h
  rw [chunksOf_append]
  exact List.prefix_append _ _

/-- A part that has not come has no chunks. -/
theorem chunksOf_eq_nil {k n : Nat} {events : List MpEvent}
    (h : n + events.countP MpEvent.isPart ≤ k) : chunksOf k n events = [] := by
  induction events generalizing n with
  | nil => rfl
  | cons e events ih =>
      cases e with
      | part name filename contentType =>
          simp only [List.countP_cons, MpEvent.isPart, if_true] at h
          exact ih (by omega)
      | chunk b =>
          simp only [List.countP_cons, MpEvent.isPart, Bool.false_eq_true, if_false] at h
          rw [chunksOf, if_neg (by omega), ih h, List.append_nil]
      | partEnd => exact ih (by simpa [MpEvent.isPart] using h)
      | reject status message => exact ih (by simpa [MpEvent.isPart] using h)

theorem sendChunks_countP (limit : Option Nat) (isFile complete : Bool) (size : Nat)
    (chunks : List Bytes) :
    (sendChunks limit isFile complete size chunks).1.countP MpEvent.isPart = 0 := by
  induction chunks generalizing size with
  | nil => cases complete <;> rfl
  | cons chunk chunks ih =>
      rw [sendChunks]
      split
      case isTrue => rfl
      case isFalse => simpa [MpEvent.isPart] using ih (saturatingAdd size chunk.length)

theorem chunksOf_sendChunks (k n : Nat) (limit : Option Nat) (isFile complete : Bool)
    (size : Nat) (chunks : List Bytes) :
    chunksOf k n (sendChunks limit isFile complete size chunks).1 =
      if n = k + 1 then fitting limit size chunks else [] := by
  induction chunks generalizing size with
  | nil => cases complete <;> simp [sendChunks, chunksOf, malformed, fitting]
  | cons chunk chunks ih =>
      rw [sendChunks, fitting]
      split
      case isTrue => simp [chunksOf]
      case isFalse =>
        simp only [chunksOf, ih]
        split <;> rfl

/-- What `parse_task` sends of the part with number `k`: some of its first chunks. -/
theorem chunksOf_parse (lowercase : String → String) (cfg : MultipartConfig)
    (complete : Bool) (files fields : UInt32) (parts : List Part) (k n : Nat) :
    chunksOf k n (parseTask lowercase cfg complete files fields parts) <+:
      if n ≤ k then (parts[k - n]?.elim [] Part.chunks) else [] := by
  induction parts generalizing files fields n with
  | nil => cases complete <;> simp [parseTask, chunksOf, malformed]
  | cons p parts ih =>
      rw [parseTask]
      split
      case h_1 e he =>
        obtain ⟨_, hreject⟩ := refusal_bytes lowercase cfg he
        cases e with
        | reject status message => simp [chunksOf]
        | part | chunk | partEnd => cases hreject
      case h_2 =>
        have hrest (cont : Bool) : chunksOf k (n + 1) (if cont = true then
            parseTask lowercase cfg complete (if p.isFile then files + 1 else files)
              (if p.isFile then fields else fields + 1) parts else []) <+:
            if n + 1 ≤ k then (parts[k - (n + 1)]?.elim [] Part.chunks) else [] := by
          cases cont with
          | false => exact List.nil_prefix
          | true => exact ih _ _ (n + 1)
        have hlater := hrest (sendChunks (p.limit cfg) p.isFile p.complete 0 p.chunks).2
        simp only [List.cons_append, chunksOf, chunksOf_append, chunksOf_sendChunks,
          sendChunks_countP, Nat.add_zero]
        rcases Nat.lt_trichotomy n k with hlt | rfl | hgt
        · have hat : k - n = k - (n + 1) + 1 := by omega
          rw [if_pos (Nat.succ_le_of_lt hlt)] at hlater
          rw [if_neg (by omega), List.nil_append, if_pos hlt.le, hat, List.getElem?_cons_succ]
          exact hlater
        · rw [if_neg (Nat.not_succ_le_self n), List.prefix_nil] at hlater
          simpa [hlater] using fitting_isPrefix (p.limit cfg) 0 p.chunks
        · have hpast : ¬ n + 1 ≤ k := by omega
          have hother : ¬ n + 1 = k + 1 := by omega
          rw [if_neg hpast, List.prefix_nil] at hlater
          rw [if_neg hother, hlater]
          exact List.nil_prefix

/-- No event follows a rejection. -/
theorem bracketed_clean {inPart : Bool} {es fs : List MpEvent} {e : MpEvent}
    (h : bracketed inPart (es ++ e :: fs) = true) : ∀ d ∈ es, d.isReject = false := by
  induction es generalizing inPart with
  | nil => exact fun d hd => by cases hd
  | cons d es ih =>
      cases d with
      | reject status message => simp [bracketed] at h
      | part name filename contentType =>
          simp only [List.cons_append, bracketed, Bool.and_eq_true] at h
          exact List.forall_mem_cons.2 ⟨rfl, ih h.2⟩
      | chunk b =>
          simp only [List.cons_append, bracketed, Bool.and_eq_true] at h
          exact List.forall_mem_cons.2 ⟨rfl, ih h.2⟩
      | partEnd =>
          simp only [List.cons_append, bracketed, Bool.and_eq_true] at h
          exact List.forall_mem_cons.2 ⟨rfl, ih h.2⟩

/-! ## The parts that JS was given -/

/-- How many part objects there are. -/
def FormIo.given (f : FormIo) : Nat := f.log.countP Saw.isGiven

/-- The channel may still yield something. -/
def FormIo.goesOn (f : FormIo) : Prop :=
  f.feed.ended = false ∧ ∀ e ∈ f.feed.got, e.isReject = false

/-- The part objects are those of the parts that were sent, in their order; between two
calls a part that is not over is open. -/
structure Numbered (f : FormIo) : Prop where
  given : f.given = f.feed.got.countP MpEvent.isPart
  place : f.seeking = false → f.ended = false → 0 < f.given → f.goesOn →
    inside f.feed.got = true

section Form

variable {lowercase : String → String} {cfg : MultipartConfig} {complete : Bool}
variable {msgs sent todo : List MpEvent} {f g : FormIo}

/-- A receive brings the next event of the task, or the end. -/
theorem FormSound.next (hf : FormSound lowercase cfg complete msgs sent todo f)
    {sent' todo' : List MpEvent}
    (hg : FormSound lowercase cfg complete msgs sent' todo' g)
    (hmsgs : bracketed false msgs = true) {r : Option MpEvent}
    (h : f.feed.recv (ParseTask.await lowercase cfg complete) = some (r, g.feed)) :
    (∃ e, r = some e ∧ f.feed.buf.head? = some e ∧ g.feed.got = f.feed.got ++ [e] ∧
        f.goesOn ∧ ∃ rest, bracketed (inside f.feed.got) (e :: rest) = true) ∨
      (r = none ∧ f.feed.buf.head? = none ∧ g.feed.got = f.feed.got ∧
        g.feed.ended = true) := by
  obtain ⟨hthere, ⟨e, buf, rfl, hbuf, hfeed⟩ | ⟨rfl, hbuf, _, hfeed⟩⟩ := Feed.recv_cases _ h
  · refine Or.inl ⟨e, rfl, by simp [hbuf], by rw [hfeed], ?_⟩
    have hnotEnded : f.feed.ended = false := by
      refine Bool.eq_false_iff.2 fun hended => ?_
      have hnil : f.feed.buf = [] := hf.fed.sound.buf_of_ended hthere hended
      rw [hbuf] at hnil
      cases hnil
    obtain ⟨rest, hrest⟩ := hg.fed.got_isPrefix
    have hsplit : msgs = f.feed.got ++ e :: rest := by
      rw [← hrest, hfeed]
      simp
    have hclean := bracketed_clean (hsplit ▸ hmsgs)
    exact ⟨⟨hnotEnded, hclean⟩, rest, (bracketed_append (hsplit ▸ hmsgs) hclean).1⟩
  · exact Or.inr ⟨rfl, by simp [hbuf], by rw [hfeed], by rw [hfeed]⟩

/-- The moves that do not receive leave what JS sees as it is. -/
theorem FormIo.step_frame {l : FormLabel} (hseek : l ≠ .seek) (hread : l ≠ .readPart)
    (h : f.step lowercase cfg complete l = some g) :
    g.feed.got = f.feed.got ∧ g.feed.ended = f.feed.ended ∧ g.log = f.log ∧
      g.ended = f.ended ∧ (g.seeking = false → f.seeking = false) := by
  cases l with
  | parse =>
      obtain ⟨feed, hwork, rfl⟩ := Option.map_eq_some_iff.1 h
      obtain ⟨_, next, _, rfl⟩ := (Feed.work_eq_some _).1 hwork
      exact ⟨rfl, rfl, rfl, rfl, id⟩
  | send =>
      obtain ⟨feed, hsend, rfl⟩ := Option.map_eq_some_iff.1 h
      obtain ⟨_, _, _, _, _, ⟨_, rfl⟩ | ⟨_, rfl⟩⟩ := Feed.send_cases _ hsend
      · exact ⟨rfl, rfl, rfl, rfl, id⟩
      · exact ⟨rfl, rfl, rfl, rfl, id⟩
  | dropTask =>
      obtain rfl := Option.some.inj h
      exact ⟨rfl, rfl, rfl, rfl, id⟩
  | nextPart =>
      simp only [FormIo.step, Option.ite_none_left_eq_some] at h
      obtain rfl := Option.some.inj h.2
      exact ⟨rfl, rfl, rfl, rfl, fun hidle => by cases hidle⟩
  | seek => exact absurd rfl hseek
  | readPart => exact absurd rfl hread
  | dropIo =>
      obtain rfl := Option.some.inj h
      exact ⟨rfl, rfl, rfl, rfl, id⟩

theorem Numbered.frame (hn : Numbered f) (hgot : g.feed.got = f.feed.got)
    (hfeed : g.feed.ended = f.feed.ended) (hlog : g.log = f.log)
    (hended : g.ended = f.ended) (hseek : g.seeking = false → f.seeking = false) :
    Numbered g where
  given := by
    rw [FormIo.given, hlog, hgot]
    exact hn.given
  place := fun hidle hopen hsome hmore => by
    rw [hgot]
    refine hn.place (hseek hidle) (hended ▸ hopen) ?_ ?_
    · rwa [FormIo.given, hlog] at hsome
    · rwa [FormIo.goesOn, hfeed, hgot] at hmore

/-- Only a part that `next_part` returns counts as given. -/
theorem sought_given (io : MpIo) (rx : Pipe.State MpEvent) {r : Option MpEvent}
    (hr : ∀ e, r = some e → e.isPart = false) :
    (io.sought rx r).log.countP Saw.isGiven = io.log.countP Saw.isGiven := by
  cases r with
  | none => simp [MpIo.sought, Saw.isGiven]
  | some e =>
      cases e with
      | part name filename contentType => cases hr _ rfl
      | chunk b => rfl
      | partEnd => rfl
      | reject status message => simp [MpIo.sought, Saw.isGiven]

theorem partRead_given (io : MpIo) (rx : Pipe.State MpEvent) (r : Option MpEvent) :
    (io.partRead rx r).log.countP Saw.isGiven = io.log.countP Saw.isGiven := by
  cases r with
  | none => simp [MpIo.partRead, Saw.isGiven]
  | some e => cases e <;> simp [MpIo.partRead, Saw.isGiven]

/-- The parts that the channel has yielded, when it yields something else. -/
theorem countP_isPart_concat (events : List MpEvent) {e : MpEvent} (he : e.isPart = false) :
    (events ++ [e]).countP MpEvent.isPart = events.countP MpEvent.isPart := by
  simp [he]

/-- A channel that has yielded a rejection, or its end, does not go on. -/
theorem not_goesOn_of_ended (h : f.feed.ended = true) : ¬ f.goesOn := fun hmore => by
  cases h.symm.trans hmore.1

theorem not_goesOn_of_reject {events : List MpEvent} {status : Nat} {message : String}
    (h : f.feed.got = events ++ [.reject status message]) : ¬ f.goesOn := fun hmore => by
  cases hmore.2 (.reject status message) (by simp [h])

/-- Where a move that is not a `read_part` leads: the parts stay numbered, and when
`next_part` has found a part, nothing of it has come. -/
theorem Numbered.advance (hn : Numbered f)
    (hf : FormSound lowercase cfg complete msgs sent todo f)
    (hmsgs : bracketed false msgs = true) {l : FormLabel} (hread : l ≠ .readPart)
    (h : f.step lowercase cfg complete l = some g) :
    Numbered g ∧ f.feed.got <+: g.feed.got ∧ f.given ≤ g.given ∧
      (g.seeking = false → g.goesOn →
        (f.seeking = false ∧ f.goesOn ∧ g.given = f.given ∧ g.feed.got = f.feed.got) ∨
          (g.given = f.given + 1 ∧ chunksOf f.given 0 g.feed.got = [])) := by
  by_cases hseek : l = .seek
  case neg =>
    obtain ⟨hgot, hfeed, hlog, hended, hidle⟩ := FormIo.step_frame hseek hread h
    have hgiven : g.given = f.given := by rw [FormIo.given, FormIo.given, hlog]
    refine ⟨hn.frame hgot hfeed hlog hended hidle, hgot ▸ List.prefix_rfl, hgiven.ge,
      fun hnow hmore => Or.inl ⟨hidle hnow, ?_, hgiven, hgot⟩⟩
    rwa [FormIo.goesOn, hfeed, hgot] at hmore
  case pos =>
    subst hseek
    obtain ⟨sent', todo', hg⟩ := hf.step h
    simp only [FormIo.step, Option.ite_none_right_eq_some] at h
    obtain ⟨hseek, h⟩ := h
    obtain ⟨r, io, rfl, hrecv, hgf⟩ := FormIo.take_cases h
    have hnext := hf.next hg hmsgs hrecv
    have hgivenf := hn.given
    obtain ⟨feed, heard, ended, seeking, log⟩ := g
    simp only [FormIo.mk.injEq] at hgf
    obtain ⟨_, rfl, rfl, rfl, rfl⟩ := hgf
    obtain ⟨e, rfl, _, hgot, _⟩ | ⟨rfl, _, hgot, hended⟩ := hnext
    · have hgot' : feed.got = f.feed.got ++ [e] := hgot
      have hgrows : f.feed.got <+: feed.got := hgot' ▸ List.prefix_append _ _
      cases e with
      | part name filename contentType =>
          have hgiven : (f.log ++ [Saw.part (some ⟨name, filename, contentType⟩)]).countP
              Saw.isGiven = f.given + 1 := by
            simp [FormIo.given, Saw.isGiven]
          refine ⟨⟨?_, fun _ _ _ _ => ?_⟩, hgrows, ?_, fun _ _ => Or.inr ⟨hgiven, ?_⟩⟩
          · simp [FormIo.given, MpIo.sought, FormIo.mp, hgot', List.countP_append,
              MpEvent.isPart, Saw.isGiven, ← hgivenf]
          · simp [hgot', inside_concat, MpEvent.opens]
          · exact Nat.le_of_succ_le hgiven.ge
          · rw [hgot', chunksOf_append, chunksOf_eq_nil (by omega)]
            rfl
      | chunk b | partEnd =>
          refine ⟨⟨?_, fun hidle => ?_⟩, hgrows, le_rfl, fun hidle => ?_⟩
          · exact hgivenf.trans (hgot' ▸ (countP_isPart_concat f.feed.got rfl).symm)
          · cases hseek.symm.trans hidle
          · cases hseek.symm.trans hidle
      | reject status message =>
          have hgiven := sought_given (f.mp lowercase cfg complete [])
            (feed.pipe (ParseTask.await lowercase cfg complete) [])
            (r := some (.reject status message)) fun e he => by cases he; rfl
          refine ⟨⟨?_, fun _ _ _ hmore => ?_⟩, hgrows, hgiven.ge, fun _ hmore => ?_⟩
          · exact hgiven.trans
              (hgivenf.trans (hgot' ▸ (countP_isPart_concat f.feed.got rfl).symm))
          · exact absurd hmore (not_goesOn_of_reject hgot')
          · exact absurd hmore (not_goesOn_of_reject hgot')
    · have hgot' : feed.got = f.feed.got := hgot
      have hgiven := sought_given (f.mp lowercase cfg complete [])
        (feed.pipe (ParseTask.await lowercase cfg complete) []) (r := none)
        fun e he => by cases he
      refine ⟨⟨?_, fun _ _ _ hmore => ?_⟩, hgot' ▸ List.prefix_rfl, hgiven.ge, fun _ hmore => ?_⟩
      · exact hgiven.trans (hgivenf.trans (congrArg _ hgot'.symm))
      · exact absurd hmore (not_goesOn_of_ended hended)
      · exact absurd hmore (not_goesOn_of_ended hended)

/-- The next event that the channel yields is a chunk. -/
def FormIo.chunkNext (f : FormIo) : Bool :=
  match f.feed.buf.head? with
  | some (.chunk _) => true
  | _ => false

/-- The chunk with which the last call resolved. -/
def FormIo.chunkRead (f : FormIo) : Option Bytes :=
  match f.log.getLast? with
  | some (.chunk b) => b
  | _ => none

/-- What a `read_part` leads to once JS has a part object: it takes a chunk, or nothing
that belongs to a part. -/
theorem Numbered.read (hn : Numbered f)
    (hf : FormSound lowercase cfg complete msgs sent todo f)
    (hmsgs : bracketed false msgs = true) (hsome : 0 < f.given)
    (h : f.step lowercase cfg complete .readPart = some g) :
    Numbered g ∧ g.given = f.given ∧ f.seeking = false ∧ (g.goesOn → f.goesOn) ∧
      ((∃ b, f.ended = false ∧ f.chunkNext = true ∧ f.goesOn ∧ g.chunkRead = some b ∧
          g.feed.got = f.feed.got ++ [.chunk b]) ∨
        (g.chunkRead = none ∧ ∀ k, chunksOf k 0 g.feed.got = chunksOf k 0 f.feed.got)) := by
  obtain ⟨sent', todo', hg⟩ := hf.step h
  simp only [FormIo.step, Option.ite_none_left_eq_some, Bool.not_eq_true] at h
  obtain ⟨hidle, h⟩ := h
  have hgivenf := hn.given
  split at h
  case isTrue hclosed =>
    obtain rfl := Option.some.inj h
    refine ⟨⟨?_, fun _ hopen => ?_⟩, ?_, hidle, id, Or.inr ⟨?_, fun _ => rfl⟩⟩
    · simpa [FormIo.given, Saw.isGiven] using hgivenf
    · cases hclosed.symm.trans hopen
    · simp [FormIo.given, Saw.isGiven]
    · simp [FormIo.chunkRead]
  case isFalse hopen =>
    rw [Bool.not_eq_true] at hopen
    obtain ⟨r, io, rfl, hrecv, hgf⟩ := FormIo.take_cases h
    have hnext := hf.next hg hmsgs hrecv
    obtain ⟨feed, heard, ended, seeking, log⟩ := g
    simp only [FormIo.mk.injEq] at hgf
    obtain ⟨_, rfl, rfl, rfl, rfl⟩ := hgf
    have hgiven := partRead_given (f.mp lowercase cfg complete [])
      (feed.pipe (ParseTask.await lowercase cfg complete) []) r
    obtain ⟨e, rfl, hbuf, hgot, hmore, rest, hbracket⟩ | ⟨rfl, _, hgot, hended⟩ := hnext
    · have hin := hn.place hidle hopen hsome hmore
      have hgot' : feed.got = f.feed.got ++ [e] := hgot
      cases e with
      | part name filename contentType => simp [bracketed, hin] at hbracket
      | chunk b =>
          refine ⟨⟨?_, fun _ _ _ _ => ?_⟩, hgiven, hidle, fun _ => hmore,
            Or.inl ⟨b, hopen, by simp [FormIo.chunkNext, hbuf], hmore, ?_, hgot⟩⟩
          · exact hgiven.trans
              (hgivenf.trans (hgot' ▸ (countP_isPart_concat f.feed.got rfl).symm))
          · simp [hgot', inside_concat, MpEvent.opens, hin]
          · simp [FormIo.chunkRead, MpIo.partRead]
      | partEnd =>
          refine ⟨⟨?_, fun _ hopened => ?_⟩, hgiven, hidle, fun _ => hmore,
            Or.inr ⟨?_, fun k => ?_⟩⟩
          · exact hgiven.trans
              (hgivenf.trans (hgot' ▸ (countP_isPart_concat f.feed.got rfl).symm))
          · cases hopened
          · simp [FormIo.chunkRead, MpIo.partRead]
          · simp [hgot', chunksOf_append, chunksOf]
      | reject status message =>
          refine ⟨⟨?_, fun _ _ _ hnow => ?_⟩, hgiven, hidle, fun _ => hmore,
            Or.inr ⟨?_, fun k => ?_⟩⟩
          · exact hgiven.trans
              (hgivenf.trans (hgot' ▸ (countP_isPart_concat f.feed.got rfl).symm))
          · exact absurd hnow (not_goesOn_of_reject hgot')
          · simp [FormIo.chunkRead, MpIo.partRead]
          · simp [hgot', chunksOf_append, chunksOf]
    · have hgot' : feed.got = f.feed.got := hgot
      refine ⟨⟨?_, fun _ hopened => ?_⟩, hgiven, hidle,
        fun hnow => absurd hnow (not_goesOn_of_ended hended), Or.inr ⟨?_, fun k => ?_⟩⟩
      · exact hgiven.trans (hgivenf.trans (congrArg _ hgot'.symm))
      · cases hopened
      · simp [FormIo.chunkRead, MpIo.partRead]
      · simp [hgot']

end Form

/-! ## Part objects -/

/-- A chunk that a call of `read_part` has returned. -/
structure Delivery where
  /-- the part object through which the call was made, by its number -/
  object : Nat
  /-- the part that the chunk belongs to, by its number -/
  part : Nat
  chunk : Bytes
  /-- the stream that was to pass it on was cancelled -/
  cancelled : Bool
  deriving DecidableEq, Repr

/-- The chunks of the deliveries to the part object with number `k`. -/
def byObject (k : Nat) (ds : List Delivery) : List Bytes :=
  (ds.filter (·.object = k)).map Delivery.chunk

@[simp] theorem byObject_nil (k : Nat) : byObject k [] = [] := rfl

@[simp] theorem byObject_append (k : Nat) (ds es : List Delivery) :
    byObject k (ds ++ es) = byObject k ds ++ byObject k es := by
  simp [byObject]

theorem byObject_cons (k : Nat) (d : Delivery) (ds : List Delivery) :
    byObject k (d :: ds) = (if d.object = k then [d.chunk] else []) ++ byObject k ds := by
  by_cases h : d.object = k <;> simp [byObject, h]

theorem byObject_eq_nil {k : Nat} {ds : List Delivery} (h : ∀ d ∈ ds, d.object ≠ k) :
    byObject k ds = [] := by
  simpa [byObject] using h

/-- The deliveries around the one at `i`. -/
theorem split_at {ds : List Delivery} {i : Nat} {d : Delivery} (h : ds[i]? = some d)
    (e : Delivery) :
    ds = ds.take i ++ d :: ds.drop (i + 1) ∧
      ds.eraseIdx i = ds.take i ++ ds.drop (i + 1) ∧
      ds.set i e = ds.take i ++ e :: ds.drop (i + 1) := by
  obtain ⟨hi, rfl⟩ := List.getElem?_eq_some_iff.1 h
  exact ⟨by simp, List.eraseIdx_eq_take_drop_succ .., List.set_eq_take_append_cons_drop.trans
    (if_pos hi)⟩

/-- Part objects over a form. -/
structure PartsIo where
  form : FormIo
  /-- the calls of `read_part` that wait for the lock, each by the object it is made
  through -/
  calls : List Nat
  /-- chunks that were read and have not reached the handler, in the order of the reads -/
  taken : List Delivery
  /-- chunks that the handler has -/
  obtained : List Delivery

inductive PartsLabel where
  /-- a move of the form other than a `read_part` -/
  | form (l : FormLabel)
  /-- JS reads through the object `k`: its stream pulls, or `collect` goes on -/
  | call (k : Nat)
  /-- a call gets the lock, and resolves -/
  | read (i : Nat)
  /-- a chunk reaches the handler -/
  | hand (i : Nat)
  /-- the stream that was to pass a chunk on is cancelled -/
  | cancel (i : Nat)
  deriving DecidableEq, Repr

def PartsIo.open (form : Form) : PartsIo where
  form := FormIo.open form
  calls := []
  taken := []
  obtained := []

section Objects

variable (lowercase : String → String) (cfg : MultipartConfig) (complete : Bool)

/-- What a call made through `k` brings when it leaves the form as `f`. -/
def FormIo.delivery (k : Nat) (f : FormIo) : List Delivery :=
  f.chunkRead.toList.map fun b => ⟨k, f.feed.got.countP MpEvent.isPart - 1, b, false⟩

def PartsIo.step (s : PartsIo) : PartsLabel → Option PartsIo
  | .form l =>
      if l = .readPart then none
      else (s.form.step lowercase cfg complete l).map fun form => { s with form := form }
  | .call k =>
      if k < s.form.given then some { s with calls := s.calls ++ [k] } else none
  | .read i =>
      s.calls[i]?.bind fun k =>
        (s.form.step lowercase cfg complete .readPart).map fun form =>
          { s with form := form, calls := s.calls.eraseIdx i,
                   taken := s.taken ++ form.delivery k }
  | .hand i =>
      s.taken[i]?.bind fun d =>
        if d.cancelled then none
        else some { s with taken := s.taken.eraseIdx i, obtained := s.obtained ++ [d] }
  | .cancel i =>
      s.taken[i]?.map fun d =>
        { s with taken := s.taken.set i { d with cancelled := true } }

end Objects

/-- Each chunk went to the object of its part, and an object has passed on the first
chunks of its part. -/
def PartsIo.apart (parts : List Part) (s : PartsIo) : Prop :=
  (∀ d ∈ s.obtained, d.part = d.object) ∧
    ∀ k, byObject k s.obtained <+: parts[k]?.elim [] Part.chunks

/-- A call that takes a chunk was made through the last part object, and a chunk reaches
the handler after all those that its object took before it. -/
def PartsIo.timely (s : PartsIo) : PartsLabel → Prop
  | .read i => ∀ k ∈ s.calls[i]?, s.form.ended = false → s.form.chunkNext = true →
      k + 1 = s.form.given
  | .hand i => ∀ d ∈ s.taken[i]?, ∀ e ∈ s.taken.take i, e.object ≠ d.object
  | _ => True

instance (s : PartsIo) (l : PartsLabel) : Decidable (s.timely l) :=
  match l with
  | .read i => inferInstanceAs (Decidable (∀ k ∈ s.calls[i]?, s.form.ended = false →
      s.form.chunkNext = true → k + 1 = s.form.given))
  | .hand i => inferInstanceAs
      (Decidable (∀ d ∈ s.taken[i]?, ∀ e ∈ s.taken.take i, e.object ≠ d.object))
  | .form _ | .call _ | .cancel _ => inferInstanceAs (Decidable True)

/-- What holds of the deliveries as long as the reads are timely. -/
structure Owned (s : PartsIo) : Prop where
  numbered : Numbered s.form
  asked : ∀ k ∈ s.calls, k < s.form.given
  own : ∀ d ∈ s.obtained ++ s.taken, d.part = d.object
  coming : ∀ k, byObject k (s.obtained ++ s.taken) <+: chunksOf k 0 s.form.feed.got
  /-- nothing of the last part has been skipped -/
  last : ∀ k, k + 1 = s.form.given → s.form.seeking = false → s.form.goesOn →
    byObject k (s.obtained ++ s.taken) = chunksOf k 0 s.form.feed.got

section Run

variable {lowercase : String → String} {cfg : MultipartConfig} {complete : Bool}
variable {msgs sent todo : List MpEvent} {s t : PartsIo}

theorem owned_open (form : Form) : Owned (PartsIo.open form) where
  numbered := ⟨rfl, fun _ _ hsome => absurd hsome (lt_irrefl 0)⟩
  asked := fun k hk => by cases hk
  own := fun d hd => by cases hd
  coming := fun k => List.nil_prefix
  last := fun k hk => by cases hk

theorem Owned.form (hs : Owned s)
    (hf : FormSound lowercase cfg complete msgs sent todo s.form)
    (hmsgs : bracketed false msgs = true) {l : FormLabel} (hread : l ≠ .readPart)
    {g : FormIo} (h : s.form.step lowercase cfg complete l = some g) :
    Owned { s with form := g } := by
  obtain ⟨hn, hgrows, hgiven, hlast⟩ := hs.numbered.advance hf hmsgs hread h
  have hcoming (k : Nat) :
      byObject k (s.obtained ++ s.taken) <+: chunksOf k 0 g.feed.got :=
    (hs.coming k).trans (chunksOf_isPrefix k hgrows)
  refine ⟨hn, fun k hk => (hs.asked k hk).trans_le hgiven, hs.own, hcoming,
    fun k hat hidle hmore => ?_⟩
  rcases hlast hidle hmore with ⟨hidle', hmore', hsame, hgot⟩ | ⟨hnew, hnone⟩
  · have hbefore := hs.last k (hat.trans hsame) hidle' hmore'
    exact hbefore.trans (congrArg (chunksOf k 0) hgot.symm)
  · obtain rfl : k = s.form.given := Nat.succ_injective (hat.trans hnew)
    have hnil := hcoming s.form.given
    rw [hnone, List.prefix_nil] at hnil
    exact hnil.trans hnone.symm

theorem Owned.read (hs : Owned s)
    (hf : FormSound lowercase cfg complete msgs sent todo s.form)
    (hmsgs : bracketed false msgs = true) {i k : Nat} (hcall : s.calls[i]? = some k)
    {g : FormIo} (hl : s.timely (.read i))
    (h : s.form.step lowercase cfg complete .readPart = some g) :
    Owned { s with form := g, calls := s.calls.eraseIdx i,
                   taken := s.taken ++ g.delivery k } := by
  have hk : k < s.form.given := hs.asked k (List.mem_of_getElem? hcall)
  obtain ⟨hn, hgiven, hidle, hback, hwhat⟩ :=
    hs.numbered.read hf hmsgs (Nat.zero_lt_of_lt hk) h
  have hasked : ∀ j ∈ s.calls.eraseIdx i, j < g.given := fun j hj =>
    hgiven.symm ▸ hs.asked j (List.mem_of_mem_eraseIdx hj)
  obtain ⟨b, hopen, hbuf, hmore, hchunk, hgot⟩ | ⟨hnone, hsame⟩ := hwhat
  · have hat : k + 1 = s.form.given := hl k hcall hopen hbuf
    have hcount : g.feed.got.countP MpEvent.isPart = k + 1 :=
      (hn.given.symm.trans hgiven).trans hat.symm
    have hcount' : s.form.feed.got.countP MpEvent.isPart = k + 1 :=
      hs.numbered.given.symm.trans hat.symm
    have hdelivery : g.delivery k = [⟨k, k, b, false⟩] := by
      simp [FormIo.delivery, hchunk, hcount]
    have hchunks (j : Nat) : chunksOf j 0 g.feed.got =
        chunksOf j 0 s.form.feed.got ++ if k = j then [b] else [] := by
      simp [hgot, chunksOf_append, chunksOf, hcount']
    -- the object of the call has taken all that has come of its part
    have hown : byObject k (s.obtained ++ (s.taken ++ g.delivery k)) =
        chunksOf k 0 g.feed.got := by
      have hbefore := hs.last k hat hidle hmore
      rw [hdelivery, hchunks, ← hbefore]
      simp [byObject_cons]
    refine ⟨hn, hasked, ?_, fun j => ?_, fun j hjg _ _ => ?_⟩
    · rw [hdelivery, ← List.append_assoc]
      exact List.forall_mem_append.2 ⟨hs.own, by simp⟩
    · by_cases hjk : k = j
      · obtain rfl := hjk
        exact hown ▸ List.prefix_rfl
      · rw [hchunks, if_neg hjk, List.append_nil]
        simpa [hdelivery, byObject_cons, hjk] using hs.coming j
    · obtain rfl : k = j := Nat.succ_injective ((hat.trans hgiven.symm).trans hjg.symm)
      exact hown
  · have hdelivery : g.delivery k = [] := by simp [FormIo.delivery, hnone]
    rw [hdelivery, List.append_nil]
    refine ⟨hn, hasked, hs.own, fun j => ?_, fun j hjg _ hmore => ?_⟩
    · exact (hsame j).symm ▸ hs.coming j
    · exact (hs.last j (hjg.trans hgiven) hidle (hback hmore)).trans (hsame j).symm

theorem Owned.hand (hs : Owned s) {i : Nat} {d : Delivery} (htaken : s.taken[i]? = some d)
    (hl : s.timely (.hand i)) :
    Owned { s with taken := s.taken.eraseIdx i, obtained := s.obtained ++ [d] } := by
  have hfirst := hl d htaken
  obtain ⟨hsplit, herase, _⟩ := split_at htaken d
  have hsame (k : Nat) : byObject k (s.obtained ++ [d] ++ s.taken.eraseIdx i) =
      byObject k (s.obtained ++ s.taken) := by
    rw [herase]
    conv_rhs => rw [hsplit]
    by_cases hk : d.object = k
    · have hnone : byObject k (s.taken.take i) = [] :=
        byObject_eq_nil fun e he => hk ▸ hfirst e he
      simp [byObject_cons, hnone]
    · simp [byObject_cons, hk]
  refine ⟨hs.numbered, hs.asked, fun e he => hs.own e ?_, fun k => ?_, fun k => ?_⟩
  · rw [List.append_assoc, List.mem_append] at he
    rcases he with he | he
    · exact List.mem_append_left _ he
    · rcases List.mem_cons.1 he with rfl | he
      · exact List.mem_append_right _ (List.mem_of_getElem? htaken)
      · exact List.mem_append_right _ (List.mem_of_mem_eraseIdx he)
  · rw [hsame k]
    exact hs.coming k
  · rw [hsame k]
    exact hs.last k

theorem Owned.cancel (hs : Owned s) {i : Nat} {d : Delivery}
    (htaken : s.taken[i]? = some d) :
    Owned { s with taken := s.taken.set i { d with cancelled := true } } := by
  obtain ⟨hsplit, _, hset⟩ := split_at htaken { d with cancelled := true }
  have hsame (k : Nat) : byObject k (s.obtained ++ s.taken.set i { d with cancelled := true }) =
      byObject k (s.obtained ++ s.taken) := by
    rw [hset]
    conv_rhs => rw [hsplit]
    simp [byObject_cons]
  refine ⟨hs.numbered, hs.asked, fun e he => ?_, fun k => ?_, fun k => ?_⟩
  · rcases List.mem_append.1 he with he | he
    · exact hs.own e (List.mem_append_left _ he)
    · rcases List.mem_or_eq_of_mem_set he with he | rfl
      · exact hs.own e (List.mem_append_right _ he)
      · exact hs.own d (List.mem_append_right _ (List.mem_of_getElem? htaken))
  · rw [hsame k]
    exact hs.coming k
  · rw [hsame k]
    exact hs.last k

theorem Owned.step (hs : Owned s)
    (hf : FormSound lowercase cfg complete msgs sent todo s.form)
    (hmsgs : bracketed false msgs = true) {l : PartsLabel} (hl : s.timely l)
    (h : s.step lowercase cfg complete l = some t) :
    Owned t ∧ ∃ sent todo, FormSound lowercase cfg complete msgs sent todo t.form := by
  cases l with
  | form l =>
      simp only [PartsIo.step, Option.ite_none_left_eq_some] at h
      obtain ⟨hread, h⟩ := h
      obtain ⟨g, hg, rfl⟩ := Option.map_eq_some_iff.1 h
      exact ⟨hs.form hf hmsgs hread hg, hf.step hg⟩
  | call k =>
      simp only [PartsIo.step, Option.ite_none_right_eq_some] at h
      obtain ⟨hk, h⟩ := h
      obtain rfl := Option.some.inj h
      have hasked : ∀ j ∈ s.calls ++ [k], j < s.form.given :=
        List.forall_mem_append.2 ⟨hs.asked, by simpa using hk⟩
      exact ⟨{ hs with asked := hasked }, sent, todo, hf⟩
  | read i =>
      obtain ⟨k, hcall, h⟩ := Option.bind_eq_some_iff.1 h
      obtain ⟨g, hg, rfl⟩ := Option.map_eq_some_iff.1 h
      exact ⟨hs.read hf hmsgs hcall hl hg, hf.step hg⟩
  | hand i =>
      obtain ⟨d, hd, h⟩ := Option.bind_eq_some_iff.1 h
      simp only [Option.ite_none_left_eq_some] at h
      obtain rfl := Option.some.inj h.2
      exact ⟨hs.hand hd hl, sent, todo, hf⟩
  | cancel i =>
      obtain ⟨d, hd, rfl⟩ := Option.map_eq_some_iff.1 h
      exact ⟨hs.cancel hd, sent, todo, hf⟩

theorem Owned.apart {form : Form} (hs : Owned s)
    (hf : FormSound lowercase cfg complete
      (parseTask lowercase cfg complete 0 0 form.parts) sent todo s.form) :
    s.apart form.parts := by
  refine ⟨fun d hd => hs.own d (List.mem_append_left _ hd), fun k => ?_⟩
  have hsent := chunksOf_parse lowercase cfg complete 0 0 form.parts k 0
  rw [if_pos (Nat.zero_le k), Nat.sub_zero] at hsent
  have hpassed : byObject k s.obtained <+: byObject k (s.obtained ++ s.taken) := by
    rw [byObject_append]
    exact List.prefix_append _ _
  have hcame := (hs.coming k).trans (chunksOf_isPrefix k hf.fed.got_isPrefix)
  exact (hpassed.trans hcame).trans hsent

end Run

/-- In a run whose reads are timely the chunks obtained through a part object are, in
every state, a prefix of the chunks of its part. -/
theorem parts_apart (lowercase : String → String) (cfg : MultipartConfig) (form : Form)
    (ls : List PartsLabel)
    (h : Transition.Along (PartsIo.step lowercase cfg form.complete) PartsIo.timely
      (PartsIo.open form) ls) :
    Transition.Throughout (PartsIo.step lowercase cfg form.complete)
      (PartsIo.apart form.parts) (PartsIo.open form) ls := by
  refine Transition.Throughout.mono
    (I := fun s => Owned s ∧ ∃ sent todo, FormSound lowercase cfg form.complete
      (parseTask lowercase cfg form.complete 0 0 form.parts) sent todo s.form)
    (fun s ⟨hs, _, _, hf⟩ => hs.apart hf) ?_
  exact h.throughout
    (fun s l t ⟨hs, _, _, hf⟩ hl hstep => hs.step hf (bracketed_parse ..) hl hstep)
    ⟨owned_open form, _, _, formSound_open form⟩

/-- Two parts of one chunk each. -/
def twoParts : Form :=
  ⟨[⟨some "a", none, none, [[1]], true⟩, ⟨some "b", none, none, [[2]], true⟩], true⟩

/-- Each of them is read to its end, through its object. -/
def readInTurn : List PartsLabel :=
  [.form .parse, .form .send, .form .nextPart, .form .seek, .call 0, .form .parse, .form .send,
    .read 0, .hand 0, .call 0, .form .parse, .form .send, .read 0, .form .nextPart, .form .parse,
    .form .send, .form .seek, .call 1, .form .parse, .form .send, .read 0, .hand 0]

theorem parts_apart_small :
    ∃ s, Transition.run (PartsIo.step id ⟨none, none, none, none, none, none⟩ true)
        (PartsIo.open twoParts) readInTurn = some s ∧
      byObject 0 s.obtained = [[1]] ∧ byObject 1 s.obtained = [[2]] ∧ s.apart twoParts.parts := by
  obtain ⟨s, hs, hfirst, hsecond⟩ : ∃ s,
      Transition.run (PartsIo.step id ⟨none, none, none, none, none, none⟩ true)
        (PartsIo.open twoParts) readInTurn = some s ∧
      byObject 0 s.obtained = [[1]] ∧ byObject 1 s.obtained = [[2]] := ⟨_, rfl, rfl, rfl⟩
  refine ⟨s, hs, hfirst, hsecond, Transition.Throughout.last (parts_apart id
    ⟨none, none, none, none, none, none⟩ twoParts _ ?_) hs⟩
  decide +kernel

/-- A read through the first of two objects waits for the lock while `next_part` goes on
to the second part, and takes the chunk of that. -/
theorem stale_read_steals :
    ∃ s, Transition.run (PartsIo.step id ⟨none, none, none, none, none, none⟩ true)
        (PartsIo.open ⟨[⟨some "a", none, none, [], true⟩,
          ⟨some "b", none, none, [[2]], true⟩], true⟩)
        [.form .parse, .form .send, .form .nextPart, .form .seek, .call 0, .form .nextPart,
          .form .parse, .form .send, .form .seek, .form .parse, .form .send, .form .seek,
          .form .parse, .form .send, .read 0, .hand 0] = some s ∧
      byObject 0 s.obtained = [[2]] ∧
      ¬ s.apart [⟨some "a", none, none, [], true⟩, ⟨some "b", none, none, [[2]], true⟩] := by
  refine ⟨_, rfl, rfl, fun hapart => ?_⟩
  have hown := hapart.1 _ (List.mem_singleton_self _)
  cases hown

end Multipart
end OxideHttp
