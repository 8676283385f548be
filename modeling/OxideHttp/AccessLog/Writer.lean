import OxideHttp.AccessLog
import OxideHttp.Lib.Exposition
import OxideHttp.Lib.Transition

/-!
# The writer of the access log (`src/server.rs`: `access_log`, `access_log_tx`)

A request hands its line to a queue of fixed length and does not wait: where there is no room
it counts the line as dropped, with a `fetch_add` of its own a moment later.  One thread takes
the lines off the queue, prints them, and reports behind a line how many were counted since it
last did.  Requests finish at any moment.  The two counters are 64 bits wide, and the accesses
to the shared one are taken in one order.

Printing goes through the buffer of stdout.  It may fail half way, and then leaves what it
likes of the rest in the buffer, where a later `flush` finds it.  The first line that cannot be
printed ends the thread, and a report that cannot be printed is given up.

Results.
* `lines_accounted`: the printed lines are those that were handed over, in their order, each
  once, but for those that are counted; stdout is one object a line, up to the line at which
  printing failed.
* `drops_reported`: what was counted before a line was printed is reported behind it.
-/

namespace OxideHttp
namespace AccessLog
namespace Writer

open Transition

/-- The arguments of one call of `access_log`. -/
structure Request where
  method : List Char
  path : List Char
  status : Nat
  elapsed : Nat
  deriving DecidableEq, Repr

def Request.line (r : Request) : List Char := accessLog r.method r.path r.status r.elapsed

/-- The report of dropped lines. -/
def warning (dropped : UInt64) : List Char :=
  "\x7b\"level\":\"warn\",\"msg\":\"access log dropped lines\",\"dropped\":".toList ++
    decimal dropped.toNat ++ "\x7d".toList

inductive Entry where
  | request (r : Request)
  | warn (dropped : UInt64)
  deriving DecidableEq, Repr

def Entry.text : Entry → List Char
  | .request r => r.line
  | .warn n => warning n

/-- The text of entries, a line each. -/
def text (out : List Entry) : List Char := out.flatMap fun e => e.text ++ ['\n']

def utf8 (text : List Char) : Bytes := text.flatMap String.utf8EncodeChar

/-- What `writeln!` has to print. -/
def Entry.bytes (e : Entry) : Bytes := utf8 (e.text ++ ['\n'])

/-- Queue depth before lines are dropped. -/
def ACCESS_LOG_QUEUE : Nat := 8192

/-- Where the thread is. -/
inductive Thread where
  /-- in `recv` -/
  | receiving
  | writing (r : Request)
  /-- about to load `ACCESS_LOG_DROPPED` -/
  | loading
  | reporting (dropped : UInt64)
  | flushing
  | gone
  deriving DecidableEq, Repr

structure State where
  queue : List Request
  /-- `ACCESS_LOG_DROPPED` -/
  dropped : UInt64
  /-- calls that have been refused and have not counted it yet -/
  refused : Nat
  reported : UInt64
  thread : Thread
  /-- what `writeln!` has printed -/
  out : List Entry
  /-- the bytes that have left the process -/
  stdout : Bytes
  /-- the buffer of stdout -/
  pending : Bytes
  deriving DecidableEq, Repr

def State.init : State where
  queue := []
  dropped := 0
  refused := 0
  reported := 0
  thread := .receiving
  out := []
  stdout := []
  pending := []

/-- The outcome of `writeln!`. -/
inductive Print where
  | done
  /-- an error after `wrote` bytes; of the others the first `left` stay in the buffer -/
  | failed (wrote left : Nat)
  deriving DecidableEq, Repr

inductive Label where
  /-- `try_send` of a call -/
  | send (r : Request)
  /-- a refused call counts -/
  | count
  | recv
  | write (p : Print)
  | load
  | report (p : Print)
  /-- `flush` gets so many bytes out -/
  | flush (wrote : Nat)
  deriving DecidableEq, Repr

/-- `writeln!`: stdout flushes at the end of a line. -/
def State.print (s : State) (e : Entry) : Print → Option State
  | .done => some { s with
      out := s.out ++ [e], stdout := s.stdout ++ (s.pending ++ e.bytes), pending := [] }
  | .failed wrote left =>
      if wrote < (s.pending ++ e.bytes).length then
        some { s with
          stdout := s.stdout ++ (s.pending ++ e.bytes).take wrote
          pending := ((s.pending ++ e.bytes).drop wrote).take left }
      else none

def step (s : State) : Label → Option State
  | .send r =>
      if s.thread = .gone ∨ s.queue.length = ACCESS_LOG_QUEUE then
        some { s with refused := s.refused + 1 }
      else some { s with queue := s.queue ++ [r] }
  | .count =>
      if 0 < s.refused then some { s with refused := s.refused - 1, dropped := s.dropped + 1 }
      else none
  | .recv =>
      match s.thread, s.queue with
      | .receiving, r :: queue => some { s with queue := queue, thread := .writing r }
      | _, _ => none
  | .write p =>
      match s.thread with
      | .writing r =>
          (s.print (.request r) p).map fun s =>
            if p = .done then { s with thread := .loading }
            else { s with queue := [], thread := .gone }
      | _ => none
  | .load =>
      match s.thread with
      | .loading =>
          if s.reported < s.dropped then some { s with thread := .reporting s.dropped }
          else some { s with thread := .flushing }
      | _ => none
  | .report p =>
      match s.thread with
      | .reporting dropped =>
          (s.print (.warn (dropped - s.reported)) p).map fun s =>
            { s with reported := dropped, thread := .flushing }
      | _ => none
  | .flush wrote =>
      match s.thread with
      | .flushing => some { s with
          stdout := s.stdout ++ s.pending.take wrote
          pending := s.pending.drop wrote
          thread := .receiving }
      | _ => none

/-! ## What is counted -/

def Label.sent : Label → Option Request
  | .send r => some r
  | _ => none

/-- The requests that call `access_log`. -/
def sentOf (ls : List Label) : List Request := ls.filterMap Label.sent

/-- How many drops are counted. -/
def countedOf (ls : List Label) : Nat := ls.count .count

/-- A report is given up. -/
def Label.silent : Label → Bool
  | .report (.failed ..) => true
  | _ => false

def Entry.asRequest : Entry → Option Request
  | .request r => some r
  | .warn _ => none

def Entry.dropped : Entry → Nat
  | .request _ => 0
  | .warn n => n.toNat

/-- The lines that are printed. -/
def State.printed (s : State) : List Request := s.out.filterMap Entry.asRequest

/-- What the reports add up to. -/
def State.warned (s : State) : Nat := (s.out.map Entry.dropped).sum

def Thread.held : Thread → List Request
  | .writing r => [r]
  | _ => []

/-- The lines that are printed or still to be printed. -/
def State.kept (s : State) : List Request := s.printed ++ s.thread.held ++ s.queue

/-- Everything a step can do. -/
inductive Moves (s : State) : Label → State → Prop
  | refuse {r : Request} (h : s.thread = .gone ∨ s.queue.length = ACCESS_LOG_QUEUE) :
      Moves s (.send r) { s with refused := s.refused + 1 }
  | enqueue {r : Request} (hthread : s.thread ≠ .gone) (hroom : s.queue.length ≠ ACCESS_LOG_QUEUE) :
      Moves s (.send r) { s with queue := s.queue ++ [r] }
  | count (h : 0 < s.refused) :
      Moves s .count { s with refused := s.refused - 1, dropped := s.dropped + 1 }
  | recv {r : Request} {queue : List Request} (hthread : s.thread = .receiving)
      (hqueue : s.queue = r :: queue) :
      Moves s .recv { s with queue := queue, thread := .writing r }
  | write {r : Request} (h : s.thread = .writing r) :
      Moves s (.write .done) { s with
        out := s.out ++ [.request r], stdout := s.stdout ++ (s.pending ++ (Entry.request r).bytes)
        pending := [], thread := .loading }
  | fail {r : Request} {wrote left : Nat} (h : s.thread = .writing r)
      (hwrote : wrote < (s.pending ++ (Entry.request r).bytes).length) :
      Moves s (.write (.failed wrote left)) { s with
        stdout := s.stdout ++ (s.pending ++ (Entry.request r).bytes).take wrote
        pending := ((s.pending ++ (Entry.request r).bytes).drop wrote).take left
        queue := [], thread := .gone }
  | behind (h : s.thread = .loading) (hlt : s.reported < s.dropped) :
      Moves s .load { s with thread := .reporting s.dropped }
  | level (h : s.thread = .loading) (hle : ¬ s.reported < s.dropped) :
      Moves s .load { s with thread := .flushing }
  | report {dropped : UInt64} (h : s.thread = .reporting dropped) :
      Moves s (.report .done) { s with
        out := s.out ++ [.warn (dropped - s.reported)]
        stdout := s.stdout ++ (s.pending ++ (Entry.warn (dropped - s.reported)).bytes)
        pending := [], reported := dropped, thread := .flushing }
  | silent {dropped : UInt64} {wrote left : Nat} {stdout pending : Bytes}
      (h : s.thread = .reporting dropped) :
      Moves s (.report (.failed wrote left)) { s with
        stdout := stdout, pending := pending, reported := dropped, thread := .flushing }
  | flush {wrote : Nat} (h : s.thread = .flushing) :
      Moves s (.flush wrote) { s with
        stdout := s.stdout ++ s.pending.take wrote
        pending := s.pending.drop wrote
        thread := .receiving }

theorem moves_of_step {s t : State} {l : Label} (h : step s l = some t) : Moves s l t := by
  cases l with
  | send r =>
      simp only [step] at h
      split at h
      case isTrue hfull =>
        obtain rfl := Option.some.inj h
        exact .refuse hfull
      case isFalse hfree =>
        obtain rfl := Option.some.inj h
        rw [not_or] at hfree
        exact .enqueue hfree.1 hfree.2
  | count =>
      simp only [step] at h
      split at h
      case isTrue hpos =>
        obtain rfl := Option.some.inj h
        exact .count hpos
      case isFalse => cases h
  | recv =>
      simp only [step] at h
      split at h
      case h_1 hthread hqueue =>
        obtain rfl := Option.some.inj h
        exact .recv hthread hqueue
      case h_2 => cases h
  | write p =>
      simp only [step] at h
      split at h
      case h_1 hthread =>
        obtain ⟨u, hprint, rfl⟩ := Option.map_eq_some_iff.1 h
        cases p with
        | done =>
            obtain rfl := Option.some.inj hprint
            exact .write hthread
        | failed wrote left =>
            obtain ⟨hwrote, hu⟩ := Option.ite_none_right_eq_some.1 hprint
            obtain rfl := Option.some.inj hu
            exact .fail hthread hwrote
      case h_2 => cases h
  | load =>
      simp only [step] at h
      split at h
      case h_1 hthread =>
        split at h
        case isTrue hlt =>
          obtain rfl := Option.some.inj h
          exact .behind hthread hlt
        case isFalse hle =>
          obtain rfl := Option.some.inj h
          exact .level hthread hle
      case h_2 => cases h
  | report p =>
      simp only [step] at h
      split at h
      case h_1 hthread =>
        obtain ⟨u, hprint, rfl⟩ := Option.map_eq_some_iff.1 h
        cases p with
        | done =>
            obtain rfl := Option.some.inj hprint
            exact .report hthread
        | failed wrote left =>
            obtain ⟨-, hu⟩ := Option.ite_none_right_eq_some.1 hprint
            obtain rfl := Option.some.inj hu
            exact .silent hthread
      case h_2 => cases h
  | flush wrote =>
      simp only [step] at h
      split at h
      case h_1 hthread =>
        obtain rfl := Option.some.inj h
        exact .flush hthread
      case h_2 => cases h

/-! ## Accounts -/

theorem sentOf_concat (ls : List Label) (l : Label) :
    sentOf (ls ++ [l]) = sentOf ls ++ l.sent.toList := by
  rw [sentOf, List.filterMap_append, ← sentOf]
  cases l <;> rfl

theorem countedOf_append (ls ms : List Label) :
    countedOf (ls ++ ms) = countedOf ls + countedOf ms := List.count_append

/-- Every line is kept or counted, but for those that were left when printing failed. -/
structure Accounted (s : State) (sent : List Request) (counted : Nat) : Prop where
  room : s.queue.length ≤ ACCESS_LOG_QUEUE
  gone : s.thread = .gone → s.queue = []
  kept : s.kept.Sublist sent
  count : ∃ lost ≤ ACCESS_LOG_QUEUE + 1, (s.thread ≠ .gone → lost = 0) ∧
    sent.length = s.kept.length + counted + s.refused + lost

/-- A step of the thread that keeps the lines. -/
theorem Accounted.of_kept {s t : State} {sent : List Request} {counted : Nat}
    (hs : Accounted s sent counted) (hroom : t.queue.length ≤ s.queue.length)
    (hkept : t.kept = s.kept) (hrefused : t.refused = s.refused) (hgone : s.thread ≠ .gone)
    (hgone' : t.thread ≠ .gone) : Accounted t (sent ++ []) (counted + 0) := by
  obtain ⟨lost, -, hzero, hcount⟩ := hs.count
  rw [List.append_nil, Nat.add_zero]
  refine ⟨hroom.trans hs.room, fun h => absurd h hgone', hkept ▸ hs.kept, 0, Nat.zero_le _,
    fun _ => rfl, ?_⟩
  rw [hkept, hrefused, hcount, hzero hgone]

theorem step_accounted {s t : State} {sent : List Request} {counted : Nat} {l : Label}
    (hs : Accounted s sent counted) (h : step s l = some t) :
    Accounted t (sent ++ l.sent.toList) (counted + countedOf [l]) := by
  have hthis := hs
  obtain ⟨hroom, hgone, hkept, lost, hlost, hzero, hcount⟩ := hs
  cases moves_of_step h with
  | @refuse r hfull =>
      refine ⟨hroom, hgone, hkept.trans (List.sublist_append_left _ _), lost, hlost, hzero, ?_⟩
      have hnone : countedOf [.send r] = 0 := rfl
      rw [List.length_append, hcount, hnone]
      simp only [State.kept, State.printed, Label.sent, Option.toList, List.length_singleton]
      omega
  | @enqueue r hthread hfree =>
      have hk : State.kept { s with queue := s.queue ++ [r] } = s.kept ++ [r] :=
        (List.append_assoc _ _ _).symm
      have hnone : countedOf [.send r] = 0 := rfl
      refine ⟨?_, fun h => absurd h hthread, ?_, lost, hlost, hzero, ?_⟩
      · rw [List.length_append, List.length_singleton]
        omega
      · rw [hk]
        exact hkept.append (List.Sublist.refl [r])
      · rw [hk, List.length_append, List.length_append, hcount, hnone]
        simp only [Label.sent, Option.toList, List.length_singleton]
        omega
  | count hpos =>
      refine ⟨hroom, hgone, hkept.trans (List.sublist_append_left _ _), lost, hlost, hzero, ?_⟩
      have hone : countedOf [.count] = 1 := rfl
      rw [List.length_append, hcount, hone]
      simp only [State.kept, State.printed, Label.sent, Option.toList, List.length_nil]
      omega
  | @fail r wrote left hthread hwrote =>
      have hk : s.kept = s.printed ++ r :: s.queue := by simp [State.kept, hthread, Thread.held]
      have hnone : countedOf [.write (.failed wrote left)] = 0 := rfl
      refine ⟨Nat.zero_le _, fun _ => rfl, ?_, s.queue.length + 1, by omega,
        fun h => absurd rfl h, ?_⟩
      · rw [hk] at hkept
        simp only [State.kept, State.printed, Thread.held, List.append_nil] at hkept ⊢
        exact (List.sublist_append_left _ _).trans
          (hkept.trans (List.sublist_append_left _ _))
      · rw [List.length_append, hcount, hk, hzero (by simp [hthread]), hnone]
        simp only [State.kept, State.printed, Thread.held, Label.sent, Option.toList,
          List.length_nil, List.length_append, List.length_cons]
        omega
  | @recv r queue hthread hqueue =>
      refine hthis.of_kept ?_ ?_ rfl (by simp [hthread]) (by simp)
      · rw [hqueue, List.length_cons]
        exact Nat.le_succ _
      · simp [State.kept, State.printed, hthread, hqueue, Thread.held]
  | @write r hthread =>
      refine hthis.of_kept le_rfl ?_ rfl (by simp [hthread]) (by simp)
      simp [State.kept, State.printed, hthread, Thread.held, Entry.asRequest]
  | behind hthread | level hthread | report hthread | silent hthread | flush hthread =>
      refine hthis.of_kept le_rfl ?_ rfl (by simp [hthread]) (by simp)
      simp [State.kept, State.printed, hthread, Thread.held, Entry.asRequest]

theorem run_accounted {ls : List Label} {t : State} (hrun : run step State.init ls = some t) :
    Accounted t (sentOf ls) (countedOf ls) := by
  refine run_history (J := fun t ls => Accounted t (sentOf ls) (countedOf ls)) ?_ ?_ hrun
  · exact ⟨Nat.zero_le _, fun _ => rfl, List.nil_sublist _, 0, Nat.zero_le _, fun _ => rfl, rfl⟩
  · intro s ls l t hs h
    rw [sentOf_concat, countedOf_append]
    exact step_accounted hs h

/-! ## Reports -/

/-- The counters are those of the first `counted` and `known` drops, and no more is
reported. -/
structure Reported (s : State) (counted : Nat) : Prop where
  dropped : s.dropped = UInt64.ofNat counted
  known : ∃ known ≤ counted, s.reported = UInt64.ofNat known ∧ s.warned ≤ known ∧
    ∀ d, s.thread = .reporting d →
      s.reported < d ∧ ∃ next ≤ counted, known ≤ next ∧ d = UInt64.ofNat next

/-- A difference of the counters is at most one of the numbers. -/
theorem toNat_sub_le {known next : Nat} (hle : known ≤ next)
    (hlt : UInt64.ofNat known < UInt64.ofNat next) :
    known + (UInt64.ofNat next - UInt64.ofNat known).toNat ≤ next := by
  rw [UInt64.toNat_sub_of_le _ _ (UInt64.le_of_lt hlt)]
  rw [UInt64.lt_iff_toNat_lt] at hlt
  simp only [UInt64.toNat_ofNat'] at hlt ⊢
  omega

theorem warned_concat (s : State) (e : Entry) :
    State.warned { s with out := s.out ++ [e] } = s.warned + e.dropped := by
  simp [State.warned]

theorem step_reported {s t : State} {counted : Nat} {l : Label} (hs : Reported s counted)
    (h : step s l = some t) : Reported t (counted + countedOf [l]) := by
  obtain ⟨hdropped, known, hknown, hreported, hwarned, hpending⟩ := hs
  cases moves_of_step h with
  | refuse | enqueue => exact ⟨hdropped, known, hknown, hreported, hwarned, hpending⟩
  | count =>
      refine ⟨?_, known, hknown.trans (Nat.le_succ _), hreported, hwarned, fun d hd => ?_⟩
      · simp only [hdropped]
        exact (UInt64.ofNat_add counted 1).symm
      · obtain ⟨hlt, next, hnext, hle, hd'⟩ := hpending d hd
        exact ⟨hlt, next, hnext.trans (Nat.le_succ _), hle, hd'⟩
  | recv | fail | level | flush =>
      exact ⟨hdropped, known, hknown, hreported, hwarned, fun _ hd => by cases hd⟩
  | @write r hthread =>
      refine ⟨hdropped, known, hknown, hreported, ?_, fun _ hd => by cases hd⟩
      exact (warned_concat s (.request r)).trans_le hwarned
  | behind hthread hlt =>
      refine ⟨hdropped, known, hknown, hreported, hwarned, fun d hd => ?_⟩
      obtain rfl := Thread.reporting.inj hd
      exact ⟨hlt, counted, le_rfl, hknown, hdropped⟩
  | @report d hthread =>
      obtain ⟨hlt, next, hnext, hle, rfl⟩ := hpending d hthread
      refine ⟨hdropped, next, hnext, rfl, ?_, fun _ hd => by cases hd⟩
      rw [hreported] at hlt
      have hsub := toNat_sub_le hle hlt
      have hsum := warned_concat s (.warn (UInt64.ofNat next - s.reported))
      rw [Entry.dropped, hreported] at hsum
      simp only [State.warned] at hsum hwarned ⊢
      rw [hreported]
      omega
  | @silent d _ _ _ _ hthread =>
      obtain ⟨-, next, hnext, hle, hd'⟩ := hpending d hthread
      exact ⟨hdropped, next, hnext, hd', hwarned.trans hle, fun _ hd => by cases hd⟩

theorem run_reported {ls : List Label} {t : State} (hrun : run step State.init ls = some t) :
    Reported t (countedOf ls) := by
  refine run_history (J := fun t ls => Reported t (countedOf ls)) ?_ ?_ hrun
  · exact ⟨rfl, 0, le_rfl, rfl, le_rfl, fun _ hd => by cases hd⟩
  · intro s ls l t hs h
    rw [countedOf_append]
    exact step_reported hs h

/-- Fewer than `2 ^ 64` drops are counted exactly. -/
theorem Reported.toNat_dropped {s : State} {counted : Nat} (hs : Reported s counted)
    (hfew : counted < 2 ^ 64) : s.dropped.toNat = counted := by
  rw [hs.dropped, UInt64.toNat_ofNat', Nat.mod_eq_of_lt hfew]

/-- Where every report could be printed, all that is reported was printed. -/
theorem run_warned {ls : List Label} {t : State} (hrun : run step State.init ls = some t)
    (hok : ∀ l ∈ ls, l.silent = false) : t.warned = t.reported.toNat := by
  have hall : run step State.init ls = some t ∧
      ((∀ l ∈ ls, l.silent = false) → t.warned = t.reported.toNat) := by
    refine run_history (J := fun (t : State) ls => run step State.init ls = some t ∧
      ((∀ l ∈ ls, l.silent = false) → t.warned = t.reported.toNat)) ⟨rfl, fun _ => rfl⟩ ?_ hrun
    rintro s ls l t ⟨hs, ih⟩ h
    refine ⟨run_concat_some.2 ⟨s, hs, h⟩, fun hok => ?_⟩
    have hwarned := ih fun l hl => hok l (List.mem_append_left _ hl)
    have hl := hok l (List.mem_append_right _ (List.mem_singleton_self l))
    cases moves_of_step h with
    | refuse | enqueue | count | recv | fail | behind | level | flush => exact hwarned
    | @write r hthread => exact (warned_concat s (.request r)).trans hwarned
    | @report d hthread =>
        obtain ⟨-, _, -, -, -, hpending⟩ := run_reported hs
        have hlt := (hpending d hthread).1
        refine (warned_concat s (.warn (d - s.reported))).trans ?_
        rw [Entry.dropped, UInt64.toNat_sub_of_le _ _ (UInt64.le_of_lt hlt), hwarned]
        rw [UInt64.lt_iff_toNat_lt] at hlt
        exact Nat.add_sub_cancel' hlt.le
    | silent => cases hl
  exact hall.2 hok

/-- So many were counted before the thread last looked, or it has yet to look. -/
def Behind (n : Nat) (s : State) : Prop :=
  s.thread = .loading ∨ (∃ d, s.thread = .reporting d ∧ n ≤ d.toNat) ∨ n ≤ s.reported.toNat

theorem step_behind {n counted : Nat} {s t : State} {l : Label} (hr : Reported s counted)
    (hfew : counted < 2 ^ 64) (hn : n ≤ counted) (hseen : Behind n s)
    (h : step s l = some t) : Behind n t := by
  -- where it is neither of the two, it has reported them
  have hdone (hl : s.thread ≠ .loading) (hr : ∀ d, s.thread ≠ .reporting d) :
      n ≤ s.reported.toNat := by
    rcases hseen with h | ⟨d, h, -⟩ | h
    · exact absurd h hl
    · exact absurd h (hr d)
    · exact h
  have hdropped := hr.toNat_dropped hfew
  cases moves_of_step h with
  | refuse | enqueue | count => exact hseen
  | write hthread => exact .inl rfl
  | behind hthread => exact .inr (.inl ⟨s.dropped, rfl, hdropped.symm ▸ hn⟩)
  | level hthread hle =>
      rw [UInt64.lt_iff_toNat_lt, hdropped] at hle
      exact .inr (.inr (hn.trans (Nat.le_of_not_lt hle)))
  | @report d hthread | @silent d _ _ _ _ hthread =>
      refine .inr (.inr ?_)
      rcases hseen with h | ⟨d', h, hd⟩ | h
      · simp [hthread] at h
      · rw [hthread] at h
        obtain rfl := Thread.reporting.inj h
        exact hd
      · obtain ⟨-, _, -, -, -, hpending⟩ := hr
        have hlt := (hpending d hthread).1
        rw [UInt64.lt_iff_toNat_lt] at hlt
        exact h.trans hlt.le
  | recv hthread | fail hthread | flush hthread =>
      exact .inr (.inr (hdone (by simp [hthread]) (by simp [hthread])))

/-! ## The bytes -/

theorem utf8_append (a b : List Char) : utf8 (a ++ b) = utf8 a ++ utf8 b := List.flatMap_append

theorem text_concat (out : List Entry) (e : Entry) :
    utf8 (text (out ++ [e])) = utf8 (text out) ++ e.bytes := by
  rw [text, List.flatMap_append, ← text, utf8_append, Entry.bytes]
  simp

/-- On stdout are the lines that are printed, and behind them at most a first part of the
line at which printing failed. -/
def Whole (s : State) (sent : List Request) : Prop :=
  ∃ torn, s.stdout = utf8 (text s.out) ++ torn ∧ (s.thread ≠ .gone → torn = []) ∧
    (s.thread = .gone → ∃ r ∈ sent,
      torn <+: (Entry.request r).bytes ∧ torn ≠ (Entry.request r).bytes)

/-- While reports can be printed, nothing stays in the buffer. -/
theorem step_whole {s t : State} {sent : List Request} {l : Label} (hs : Whole s sent)
    (hheld : ∀ r ∈ s.thread.held, r ∈ sent) (hpending : s.thread ≠ .gone → s.pending = [])
    (hok : l.silent = false) (h : step s l = some t) :
    Whole t (sent ++ l.sent.toList) ∧ (t.thread ≠ .gone → t.pending = []) := by
  obtain ⟨torn, hstdout, hnone, hpart⟩ := hs
  have hsame (hthread : s.thread ≠ .gone) : s.stdout = utf8 (text s.out) := by
    rw [hstdout, hnone hthread, List.append_nil]
  -- a step of the thread that prints nothing, or prints it all
  have hwhole {u : State} (hthread : u.thread ≠ .gone) (hu : u.stdout = utf8 (text u.out)) :
      Whole u (sent ++ []) :=
    ⟨[], by rw [hu, List.append_nil], fun _ => rfl, fun hgone => absurd hgone hthread⟩
  cases moves_of_step h with
  | refuse | enqueue | count =>
      refine ⟨⟨torn, hstdout, hnone, fun hgone => ?_⟩, hpending⟩
      obtain ⟨r, hr, hr'⟩ := hpart hgone
      exact ⟨r, List.mem_append_left _ hr, hr'⟩
  | recv hthread | behind hthread | level hthread =>
      have hthread' : s.thread ≠ .gone := by simp [hthread]
      exact ⟨hwhole (by simp) (hsame hthread'), fun _ => hpending hthread'⟩
  | write hthread | report hthread =>
      have hthread' : s.thread ≠ .gone := by simp [hthread]
      refine ⟨hwhole (by simp) ?_, fun _ => rfl⟩
      simp only [hpending hthread', hsame hthread', text_concat, List.nil_append]
  | @fail r wrote left hthread hwrote =>
      have hthread' : s.thread ≠ .gone := by simp [hthread]
      rw [hpending hthread', List.nil_append] at hwrote
      refine ⟨⟨(Entry.request r).bytes.take wrote, ?_, fun hne => absurd rfl hne, fun _ => ?_⟩,
        fun hne => absurd rfl hne⟩
      · simp only [hpending hthread', hsame hthread', List.nil_append]
      · refine ⟨r, List.mem_append_left _ (hheld r (by simp [hthread, Thread.held])),
          List.take_prefix _ _, fun hall => ?_⟩
        have hlength := congrArg List.length hall
        rw [List.length_take] at hlength
        omega
  | silent => cases hok
  | flush hthread =>
      have hthread' : s.thread ≠ .gone := by simp [hthread]
      refine ⟨hwhole (by simp) ?_, fun _ => ?_⟩
      · simp only [hpending hthread', hsame hthread', List.take_nil, List.append_nil]
      · simp only [hpending hthread', List.drop_nil]

theorem run_whole {ls : List Label} {t : State} (hrun : run step State.init ls = some t)
    (hok : ∀ l ∈ ls, l.silent = false) : Whole t (sentOf ls) := by
  have hall : run step State.init ls = some t ∧ ((∀ l ∈ ls, l.silent = false) →
      Whole t (sentOf ls) ∧ (t.thread ≠ .gone → t.pending = [])) := by
    refine run_history (J := fun (t : State) ls => run step State.init ls = some t ∧
      ((∀ l ∈ ls, l.silent = false) →
        Whole t (sentOf ls) ∧ (t.thread ≠ .gone → t.pending = []))) ⟨rfl, fun _ => ?_⟩ ?_ hrun
    · exact ⟨⟨[], rfl, fun _ => rfl, fun hgone => by cases hgone⟩, fun _ => rfl⟩
    · rintro s ls l t ⟨hs, ih⟩ h
      refine ⟨run_concat_some.2 ⟨s, hs, h⟩, fun hok => ?_⟩
      obtain ⟨hwhole, hpending⟩ := ih fun l hl => hok l (List.mem_append_left _ hl)
      rw [sentOf_concat]
      refine step_whole hwhole (fun r hr => ?_) hpending
        (hok l (List.mem_append_right _ (List.mem_singleton_self l))) h
      refine (run_accounted hs).kept.subset ?_
      rw [State.kept]
      exact List.mem_append_left _ (List.mem_append_right _ hr)
  exact (hall.2 hok).1

/-! ## The text -/

def Entry.fields : Entry → List (List Char × JsonText.Value)
  | .request r => logFields r.method r.path r.status r.elapsed
  | .warn n => [("level".toList, .str "warn".toList),
      ("msg".toList, .str "access log dropped lines".toList), ("dropped".toList, .num n.toNat)]

/-- The members of a report as they are written. -/
def warningText (n : Nat) : List (List Char × List Char) :=
  [("level".toList, "\"warn\"".toList), ("msg".toList, "\"access log dropped lines\"".toList),
    ("dropped".toList, decimal n)]

theorem warning_eq (n : UInt64) :
    warning n = '\x7b' :: JsonText.membersText (warningText n.toNat) := by
  unfold warning warningText
  generalize decimal n.toNat = digits
  simp [JsonText.membersText, JsonText.memberText]

theorem warning_parse (n : UInt64) :
    JsonText.parse (warning n) = some (.obj (Entry.fields (.warn n))) := by
  have hplain (t : String) (h : t.toList.all (fun c => JsonText.Plain c) = true) :
      ∀ c ∈ t.toList, JsonText.Plain c :=
    fun c hc => of_decide_eq_true (List.all_eq_true.mp h c hc)
  have hreads : List.Forall₂ JsonText.ReadsMember (warningText n.toNat)
      (Entry.fields (.warn n)) := by
    refine .cons ⟨rfl, hplain "level" (by decide), ?_⟩ (.cons ⟨rfl, hplain "msg" (by decide), ?_⟩
      (.cons ⟨rfl, hplain "dropped" (by decide), reads_decimal n.toNat⟩ .nil))
    · exact JsonText.reads_str (JsonText.stringBody_plain (hplain "warn" (by decide)))
    · exact JsonText.reads_str
        (JsonText.stringBody_plain (hplain "access log dropped lines" (by decide)))
  rw [warning_eq]
  exact JsonText.parse_object hreads (List.cons_ne_nil _ _)

theorem warning_visible (n : UInt64) : ∀ c ∈ warning n, 0x20 ≤ c.toNat := by
  intro c hc
  unfold warning at hc
  simp only [List.mem_append, or_assoc] at hc
  rcases hc with hc | hc | hc
  · exact visible_of_all (by decide) c hc
  · exact visible_digit ((intDigits_decimal n.toNat).digits c hc)
  · exact visible_of_all (by decide) c hc

/-- Text that has no control character has no line end. -/
theorem newline_of_visible {line : List Char} (h : ∀ c ∈ line, 0x20 ≤ c.toNat) : '\n' ∉ line :=
  fun hmem => absurd (h '\n' hmem) (by decide)

theorem printed_sublist {ls : List Label} {t : State} (hrun : run step State.init ls = some t) :
    t.printed.Sublist (sentOf ls) := by
  refine List.Sublist.trans ?_ (run_accounted hrun).kept
  rw [State.kept, List.append_assoc]
  exact List.sublist_append_left _ _

theorem entries_read {ls : List Label} {t : State} (hrun : run step State.init ls = some t)
    (htoken : ∀ r ∈ sentOf ls, IsToken r.method) :
    ∀ e ∈ t.out, '\n' ∉ e.text ∧ JsonText.parse e.text = some (.obj e.fields) := by
  intro e he
  cases e with
  | request r =>
      have hmem : r ∈ t.printed := List.mem_filterMap.2 ⟨_, he, rfl⟩
      have hmethod := htoken r ((printed_sublist hrun).subset hmem)
      exact ⟨newline_of_visible (accessLog_oneLine hmethod r.path r.status r.elapsed),
        accessLog_parse hmethod r.path r.status r.elapsed⟩
  | warn n => exact ⟨newline_of_visible (warning_visible n), warning_parse n⟩

/--
What is printed are lines that were handed over, in their order and each once.  The others are
still on their way, or counted modulo `2 ^ 64`; only where printing fails up to a queue of them
are lost besides, and the one at hand.  The reports tell of no more than was counted.  What is
printed is one object a line, and as long as reports can be printed it is what is on stdout, up
to the line at which printing failed.
-/
theorem lines_accounted {ls : List Label} {t : State} (hrun : run step State.init ls = some t)
    (htoken : ∀ r ∈ sentOf ls, IsToken r.method) :
    (t.printed ++ t.thread.held ++ t.queue).Sublist (sentOf ls) ∧
      (∃ lost ≤ ACCESS_LOG_QUEUE + 1, (t.thread ≠ .gone → lost = 0) ∧
        (sentOf ls).length = (t.printed ++ t.thread.held ++ t.queue).length +
          countedOf ls + t.refused + lost) ∧
      t.dropped = UInt64.ofNat (countedOf ls) ∧ t.warned ≤ countedOf ls ∧
      (text t.out).splitOn '\n' = t.out.map Entry.text ++ [[]] ∧
      (∀ e ∈ t.out, JsonText.parse e.text = some (.obj e.fields)) ∧
      ((∀ l ∈ ls, l.silent = false) → Whole t (sentOf ls)) := by
  have haccounted := run_accounted hrun
  have hread := entries_read hrun htoken
  obtain ⟨hdropped, known, hknown, -, hwarned, -⟩ := run_reported hrun
  refine ⟨haccounted.kept, haccounted.count, hdropped, hwarned.trans hknown, ?_,
    fun e he => (hread e he).2, run_whole hrun⟩
  have hsplit := Exposition.splitOn_ended (l := t.out.map Entry.text) (by
    intro line hline
    obtain ⟨e, he, rfl⟩ := List.mem_map.1 hline
    exact (hread e he).1)
  rwa [List.flatMap_map] at hsplit

def hello : Request := ⟨['G', 'E', 'T'], ['/'], 200, 1500000⟩

/-- Two lines come, and the second breaks off after three bytes. -/
def helloTwice : List Label :=
  [.send hello, .send hello, .recv, .write .done, .load, .flush 0, .recv, .write (.failed 3 0)]

theorem run_helloTwice : run step State.init helloTwice = some
    { State.init with
      thread := .gone, out := [.request hello]
      stdout := (Entry.request hello).bytes ++ (Entry.request hello).bytes.take 3 } := by
  have hlong : 3 < (Entry.request hello).bytes.length := by decide
  simp [helloTwice, step, State.init, State.print, hlong, ACCESS_LOG_QUEUE]

theorem lines_accounted_hello : ∃ t, run step State.init helloTwice = some t ∧
    t.printed = [hello] ∧
    (∃ lost ≤ ACCESS_LOG_QUEUE + 1, (sentOf helloTwice).length = t.printed.length + lost) ∧
    Whole t (sentOf helloTwice) := by
  obtain ⟨-, ⟨lost, hlost, -, hcount⟩, -, -, -, -, hwhole⟩ :=
    lines_accounted run_helloTwice (by decide)
  exact ⟨_, run_helloTwice, rfl, ⟨lost, hlost, hcount⟩, hwhole (by simp [helloTwice, Label.silent])⟩

/--
As long as reports can be printed and fewer than `2 ^ 64` drops are counted: what had been
counted when a line was printed has been reported by the time the thread waits for the next
line, and no more than has been counted.
-/
theorem drops_reported {before after : List Label} {s t : State}
    (hs : run step State.init before = some s) (hline : s.thread = .loading)
    (hrun : run step s after = some t) (hok : ∀ l ∈ before ++ after, l.silent = false)
    (hfew : countedOf (before ++ after) < 2 ^ 64) (hnext : t.thread = .receiving) :
    countedOf before ≤ t.warned ∧ t.warned ≤ countedOf (before ++ after) := by
  have hwhole : run step State.init (before ++ after) = some t := run_append_some.2 ⟨s, hs, hrun⟩
  have hbehind : run step State.init (before ++ after) = some t ∧
      (countedOf (before ++ after) < 2 ^ 64 → Behind (countedOf before) t) := by
    refine run_history (J := fun t after => run step State.init (before ++ after) = some t ∧
      (countedOf (before ++ after) < 2 ^ 64 → Behind (countedOf before) t)) ?_ ?_ hrun
    · exact ⟨by rw [List.append_nil]; exact hs, fun _ => .inl hline⟩
    · rintro u after l v ⟨hu, ih⟩ h
      rw [← List.append_assoc]
      refine ⟨run_concat_some.2 ⟨u, hu, h⟩, fun hfew => ?_⟩
      rw [countedOf_append] at hfew
      have hfew' := (Nat.le_add_right _ _).trans_lt hfew
      refine step_behind (run_reported hu) hfew' ?_ (ih hfew') h
      rw [countedOf_append]
      exact Nat.le_add_right _ _
  obtain ⟨-, known, hknown, -, hwarned, -⟩ := run_reported hwhole
  refine ⟨?_, hwarned.trans hknown⟩
  rcases hbehind.2 hfew with h | ⟨d, h, -⟩ | h
  · rw [hnext] at h
    cases h
  · rw [hnext] at h
    cases h
  · rwa [run_warned hwhole hok]

/-- The queue fills while nothing is taken off it. -/
theorem run_sends (q : List Request) (n : Nat) (hroom : q.length + n ≤ ACCESS_LOG_QUEUE) :
    run step { State.init with queue := q } (List.replicate n (.send hello)) =
      some { State.init with queue := q ++ List.replicate n hello } := by
  induction n generalizing q with
  | zero => simp
  | succ n ih =>
      have hfree : q.length ≠ ACCESS_LOG_QUEUE := by omega
      have hstep : step { State.init with queue := q } (.send hello) =
          some { State.init with queue := q ++ [hello] } := by
        simp [step, State.init, hfree]
      have hlen : (q ++ [hello]).length + n ≤ ACCESS_LOG_QUEUE := by
        rw [List.length_append, List.length_singleton]
        omega
      rw [List.replicate_succ, run_cons, hstep, Option.bind_some, ih _ hlen]
      simp [List.replicate_succ]

/-- Behind a full queue, the thread takes one line and prints it; two more lines come, and the
second one is dropped. -/
def oneTooMany : List Label :=
  List.replicate 8192 (.send hello) ++ [.recv, .send hello, .send hello, .count, .write .done]

theorem run_oneTooMany : ∃ q, run step State.init oneTooMany = some
    { State.init with
      queue := q, dropped := 1, thread := .loading, out := [.request hello]
      stdout := (Entry.request hello).bytes } := by
  have hfull := run_sends [] 8192 (by decide)
  obtain ⟨q, hq, hlen⟩ : ∃ q, List.replicate 8192 hello = hello :: q ∧ q.length = 8191 :=
    ⟨List.replicate 8191 hello, List.replicate_succ, List.length_replicate⟩
  refine ⟨q ++ [hello], run_append_some.2 ⟨_, hfull, ?_⟩⟩
  rw [List.nil_append, hq]
  simp [step, State.init, State.print, ACCESS_LOG_QUEUE, hlen]

theorem countedOf_oneTooMany : countedOf oneTooMany = 1 := by
  rw [oneTooMany, countedOf_append, countedOf,
    List.count_eq_zero.2 fun hmem => Label.noConfusion (List.eq_of_mem_replicate hmem)]
  rfl

theorem drops_reported_one : ∃ s t, run step State.init oneTooMany = some s ∧
    run step s [.load, .report .done, .flush 0] = some t ∧ s.dropped = 1 ∧ 1 ≤ t.warned := by
  obtain ⟨q, hs⟩ := run_oneTooMany
  have hrun : run step { State.init with
        queue := q, dropped := 1, thread := .loading, out := [.request hello]
        stdout := (Entry.request hello).bytes } [.load, .report .done, .flush 0] =
      some { State.init with
        queue := q, dropped := 1, reported := 1, out := [.request hello, .warn 1]
        stdout := (Entry.request hello).bytes ++ (Entry.warn 1).bytes } := by
    simp [step, State.init, State.print]
  have hok : ∀ l ∈ oneTooMany ++ [.load, .report .done, .flush 0], l.silent = false := by
    intro l hl
    rw [oneTooMany, List.append_assoc, List.mem_append] at hl
    rcases hl with hl | hl
    · rw [List.eq_of_mem_replicate hl]
      rfl
    · simp only [List.cons_append, List.nil_append, List.mem_cons, List.not_mem_nil, or_false] at hl
      rcases hl with rfl | rfl | rfl | rfl | rfl | rfl | rfl | rfl <;> rfl
  have hfew : countedOf (oneTooMany ++ [.load, .report .done, .flush 0]) < 2 ^ 64 := by
    rw [countedOf_append, countedOf_oneTooMany]
    decide
  have hone := (drops_reported hs rfl hrun hok hfew rfl).1
  rw [countedOf_oneTooMany] at hone
  exact ⟨_, _, hs, hrun, rfl, hone⟩

end Writer
end AccessLog
end OxideHttp
