import OxideHttp.Lib.Transition
import Mathlib.Data.List.Nodup

/-!
# A shared queue with an edge-triggered doorbell

Producers push items into a queue and, as a separate step, ring a doorbell when
their push found the queue empty.  A consumer is woken by one doorbell at a time;
once awake it takes the whole queue again and again, and goes back to sleep when
it takes nothing.

This file gives

* `WakeupPending`: a queue with something in it has a wakeup on its way
  (`run_wakeupPending`);
* `run_items`: the items taken and queued are the pushed ones, in push order,
  and `run_nodup`: none of them twice;
* `run_moves_le`: between them the pushes of a run pay for at most four other
  moves each;
* `queue_eq_nil_of_quiescent`: when no move is left, nothing is left in the
  queue.
-/

namespace Doorbell

open Transition

variable {α : Type*} [DecidableEq α]

structure State (α : Type*) where
  queue : List α
  /-- what the consumer has taken, one list for each take -/
  batches : List (List α)
  /-- producers between push and ring, with whether they found the queue empty -/
  pushers : List (α × Bool)
  doorbells : Nat
  draining : Bool

inductive Label (α : Type*) where
  | push (a : α)
  | ring (a : α)
  | callback
  | take

def Label.isPush : Label α → Bool
  | .push _ => true
  | _ => false

def Label.pushed : Label α → Option α
  | .push a => some a
  | _ => none

def State.init : State α where
  queue := []
  batches := []
  pushers := []
  doorbells := 0
  draining := false

/-- Everything pushed so far. -/
def State.items (s : State α) : List α := s.batches.flatten ++ s.queue

def step (s : State α) : Label α → Option (State α)
  | .push a =>
      if a ∈ s.items then none
      else some { s with
        queue := s.queue ++ [a]
        pushers := (a, s.queue.isEmpty) :: s.pushers }
  | .ring a =>
      if s.pushers.any (fun p => p.1 = a) then
        some { s with
          pushers := s.pushers.filter fun p => p.1 ≠ a
          doorbells := s.doorbells + if (a, true) ∈ s.pushers then 1 else 0 }
      else none
  | .callback =>
      if s.draining = false ∧ 0 < s.doorbells then
        some { s with draining := true, doorbells := s.doorbells - 1 }
      else none
  | .take =>
      if s.draining then
        if s.queue.isEmpty then some { s with draining := false }
        else some { s with queue := [], batches := s.batches ++ [s.queue] }
      else none

/-- Everything a step can do. -/
theorem step_cases {s t : State α} {l : Label α} (h : step s l = some t) :
    match l with
    | .push a =>
        a ∉ s.items ∧ t = { s with
          queue := s.queue ++ [a]
          pushers := (a, s.queue.isEmpty) :: s.pushers }
    | .ring a =>
        (∃ e, (a, e) ∈ s.pushers) ∧ t = { s with
          pushers := s.pushers.filter fun p => p.1 ≠ a
          doorbells := s.doorbells + if (a, true) ∈ s.pushers then 1 else 0 }
    | .callback =>
        s.draining = false ∧ 0 < s.doorbells ∧
          t = { s with draining := true, doorbells := s.doorbells - 1 }
    | .take =>
        s.draining = true ∧
          (s.queue = [] ∧ t = { s with draining := false } ∨
            s.queue ≠ [] ∧
              t = { s with queue := [], batches := s.batches ++ [s.queue] }) := by
  cases l with
  | push a =>
      simp only [step, Option.ite_none_left_eq_some] at h
      exact ⟨h.1, (Option.some.inj h.2).symm⟩
  | ring a =>
      simp only [step, Option.ite_none_right_eq_some] at h
      obtain ⟨⟨b, e⟩, hmem, hb⟩ := List.any_eq_true.1 h.1
      obtain rfl : b = a := by simpa using hb
      exact ⟨⟨e, hmem⟩, (Option.some.inj h.2).symm⟩
  | callback =>
      simp only [step, Option.ite_none_right_eq_some] at h
      exact ⟨h.1.1, h.1.2, (Option.some.inj h.2).symm⟩
  | take =>
      simp only [step, Option.ite_none_right_eq_some] at h
      obtain ⟨hdrain, h⟩ := h
      refine ⟨hdrain, ?_⟩
      split at h
      case isTrue hq =>
        exact Or.inl ⟨List.isEmpty_iff.1 hq, (Option.some.inj h).symm⟩
      case isFalse hq =>
        exact Or.inr
          ⟨fun hnil => hq (by simp [hnil]), (Option.some.inj h).symm⟩

/-! ## No lost wakeup -/

/-- A non-empty queue has a wakeup on its way: a doorbell, a consumer that will
take again, or a producer that is about to ring. -/
def WakeupPending (s : State α) : Prop :=
  s.queue ≠ [] →
    0 < s.doorbells ∨ s.draining = true ∨ ∃ a, (a, true) ∈ s.pushers

theorem step_wakeupPending {s t : State α} {l : Label α}
    (hw : WakeupPending s) (h : step s l = some t) : WakeupPending t := by
  intro hne
  cases l with
  | push a =>
      obtain ⟨_, rfl⟩ := step_cases h
      by_cases hq : s.queue = []
      · exact Or.inr (Or.inr ⟨a, by simp [hq]⟩)
      · rcases hw hq with hd | hd | ⟨b, hb⟩
        · exact Or.inl hd
        · exact Or.inr (Or.inl hd)
        · exact Or.inr (Or.inr ⟨b, List.mem_cons_of_mem _ hb⟩)
  | ring a =>
      obtain ⟨_, rfl⟩ := step_cases h
      rcases hw hne with hd | hd | ⟨b, hb⟩
      · exact Or.inl (Nat.lt_of_lt_of_le hd (Nat.le_add_right _ _))
      · exact Or.inr (Or.inl hd)
      · by_cases hab : b = a
        · subst hab
          exact Or.inl (by simp [hb])
        · exact Or.inr (Or.inr ⟨b, List.mem_filter.2 ⟨hb, by simpa using hab⟩⟩)
  | callback =>
      obtain ⟨_, _, rfl⟩ := step_cases h
      exact Or.inr (Or.inl rfl)
  | take =>
      obtain ⟨_, ⟨hq, rfl⟩ | ⟨_, rfl⟩⟩ := step_cases h
      · exact absurd hq hne
      · exact absurd rfl hne

theorem run_wakeupPending {s : State α} {ls : List (Label α)}
    (hrun : run step State.init ls = some s) : WakeupPending s :=
  run_invariant (fun _ _ _ => step_wakeupPending) (fun h => absurd rfl h) hrun

/-! ## Exactly once, in push order -/

theorem step_items {s t : State α} {l : Label α} (h : step s l = some t) :
    t.items = s.items ++ l.pushed.toList := by
  cases l with
  | push a =>
      obtain ⟨_, rfl⟩ := step_cases h
      simp [State.items, Label.pushed]
  | ring a =>
      obtain ⟨_, rfl⟩ := step_cases h
      simp [State.items, Label.pushed]
  | callback =>
      obtain ⟨_, _, rfl⟩ := step_cases h
      simp [State.items, Label.pushed]
  | take =>
      obtain ⟨_, ⟨_, rfl⟩ | ⟨_, rfl⟩⟩ := step_cases h
      · simp [State.items, Label.pushed]
      · simp [State.items, Label.pushed]

theorem run_items {s t : State α} {ls : List (Label α)}
    (hrun : run step s ls = some t) :
    t.items = s.items ++ ls.filterMap Label.pushed := by
  induction ls generalizing s with
  | nil =>
      obtain rfl := Option.some.inj hrun
      simp
  | cons l ls ih =>
      obtain ⟨u, hu, hut⟩ := run_cons_some.1 hrun
      rw [ih hut, step_items hu, List.append_assoc]
      cases hl : l.pushed with
      | none => simp [List.filterMap_cons_none hl]
      | some a => simp [List.filterMap_cons_some hl]

theorem step_nodup {s t : State α} {l : Label α}
    (hs : s.items.Nodup) (h : step s l = some t) : t.items.Nodup := by
  rw [step_items h]
  cases l with
  | push a =>
      obtain ⟨hnew, _⟩ := step_cases h
      exact hs.append (List.nodup_singleton a)
        (List.disjoint_singleton.2 hnew)
  | ring | callback | take => simpa [Label.pushed] using hs

theorem run_nodup {s : State α} {ls : List (Label α)}
    (hrun : run step State.init ls = some s) : s.items.Nodup := by
  refine run_invariant (I := fun s => s.items.Nodup) ?_ List.nodup_nil hrun
  exact fun _ _ _ => step_nodup

/-! ## Every push is delivered after boundedly many moves -/

/-- What the work that is left may still cost. -/
def State.rank (s : State α) : Nat :=
  3 * s.pushers.length + s.queue.length + 2 * s.doorbells +
    if s.draining then 1 else 0

theorem step_rank {s t : State α} {l : Label α} (h : step s l = some t) :
    t.rank + (if l.isPush then 0 else 1) ≤
      s.rank + (if l.isPush then 4 else 0) := by
  cases l with
  | push a =>
      obtain ⟨_, rfl⟩ := step_cases h
      simp only [State.rank, Label.isPush, List.length_cons, List.length_append,
        List.length_nil, if_true]
      omega
  | ring a =>
      obtain ⟨⟨e, he⟩, rfl⟩ := step_cases h
      have hlt : (s.pushers.filter fun p => p.1 ≠ a).length < s.pushers.length :=
        List.length_filter_lt_length_iff_exists.2 ⟨_, he, by simp⟩
      have hone : (if (a, true) ∈ s.pushers then 1 else 0) ≤ 1 := by
        split <;> omega
      simp only [State.rank, Label.isPush, Bool.false_eq_true, if_false]
      omega
  | callback =>
      obtain ⟨hidle, hpos, rfl⟩ := step_cases h
      simp only [State.rank, Label.isPush, hidle, Bool.false_eq_true, if_false,
        if_true]
      omega
  | take =>
      obtain ⟨hdrain, ⟨hq, rfl⟩ | ⟨hq, rfl⟩⟩ := step_cases h
      · simp [State.rank, Label.isPush, hdrain]
      · have hpos : 0 < s.queue.length := List.length_pos_iff.2 hq
        simp only [State.rank, Label.isPush, hdrain, List.length_nil,
          Bool.false_eq_true, if_false, if_true]
        omega

theorem run_moves_le {s : State α} {ls : List (Label α)}
    (hrun : run step State.init ls = some s) :
    ls.countP (fun l => !l.isPush) ≤ 4 * ls.countP Label.isPush := by
  have hcost := run_cost_le State.rank (fun l => if l.isPush then 0 else 1)
    (fun l => if l.isPush then 4 else 0) (fun _ _ _ => step_rank) hrun
  have hmoves : (ls.map fun l => if l.isPush then 0 else 1).sum =
      ls.countP (fun l => !l.isPush) := by
    clear hrun hcost
    induction ls with
    | nil => rfl
    | cons l ls ih =>
        cases hl : l.isPush <;> simp [hl, ih, Nat.add_comm]
  have hpushes : (ls.map fun l => if l.isPush then 4 else 0).sum =
      4 * ls.countP Label.isPush := by
    clear hrun hcost hmoves
    induction ls with
    | nil => rfl
    | cons l ls ih =>
        cases hl : l.isPush <;> simp [hl, ih, Nat.mul_add, Nat.add_comm]
  have hinit : (State.init : State α).rank = 0 := rfl
  omega

/-- No move but a push is enabled. -/
def Quiescent (s : State α) : Prop :=
  ∀ l : Label α, l.isPush = false → step s l = none

theorem queue_eq_nil_of_quiescent {s : State α}
    (hw : WakeupPending s) (hq : Quiescent s) : s.queue = [] := by
  by_contra hne
  have hempty : s.queue.isEmpty = false := by simpa using hne
  have hidle : s.draining = false := by
    by_contra hdrain
    have htake := hq .take rfl
    simp [step, hdrain, hempty] at htake
  rcases hw hne with hpos | hdrain | ⟨a, ha⟩
  · have hcall := hq .callback rfl
    simp [step, hidle, hpos] at hcall
  · simp [hidle] at hdrain
  · have hring := hq (.ring a) rfl
    simp only [step] at hring
    rw [if_pos (List.any_eq_true.2 ⟨_, ha, by simp⟩)] at hring
    cases hring

end Doorbell
