import OxideHttp.Lib.Transition
import Mathlib.Algebra.Order.Group.Int
import Mathlib.Algebra.Order.BigOperators.Group.List
import Mathlib.Tactic.Abel

/-!
# Counters that many calls add to

A bank of counters.  A call adds to several of them, one after another and each addition
atomically; a reader loads several of them, one after another.  Calls and readers move in any
order, so that a reader sees some calls half done.

This file gives

* `run_cells`: a counter has what the calls have added to it so far;
* `cells_of_finished`: and all that they add, where no call is half done;
* `cells_le_calls`: and never more than they add, where it only grows;
* `run_map`: a bank of machine words is the image of a bank of integers;
* `exists_loaded`: what a reader has seen was there at one moment of the run, and by then the
  counters it had seen before, as far as they only grow, had what it saw or more;
* `le_seen`: and it sees no less than there was when it came.
-/

namespace Counters

open Transition

variable {κ ν : Type*}

structure Call (κ ν : Type*) where
  done : List (κ × ν)
  todo : List (κ × ν)
  deriving DecidableEq

structure Reader (κ ν : Type*) where
  todo : List κ
  seen : List (κ × ν)
  deriving DecidableEq

structure State (κ ν : Type*) where
  cells : κ → ν
  calls : List (Call κ ν)
  readers : List (Reader κ ν)

inductive Label (κ ν : Type*) where
  /-- a call comes, with what it adds -/
  | call (adds : List (κ × ν))
  /-- call `i` performs its next addition -/
  | add (i : Nat)
  /-- a reader comes, with what it loads -/
  | read (keys : List κ)
  /-- reader `j` performs its next load -/
  | load (j : Nat)

/-- What a call that comes adds. -/
def Label.adds : Label κ ν → Option (List (κ × ν))
  | .call adds => some adds
  | _ => none

/-- The calls that come, in their order. -/
def callsOf (ls : List (Label κ ν)) : List (List (κ × ν)) := ls.filterMap Label.adds

def State.init [Zero ν] : State κ ν where
  cells := fun _ => 0
  calls := []
  readers := []

/-- What the additions add to one counter. -/
def amount [DecidableEq κ] [AddMonoid ν] (k : κ) (adds : List (κ × ν)) : ν :=
  (adds.map fun a => if a.1 = k then a.2 else 0).sum

section Step

variable [DecidableEq κ] [AddMonoid ν]

def Call.add (s : State κ ν) (i : Nat) (c : Call κ ν) : Option (State κ ν) :=
  match c.todo with
  | [] => none
  | a :: rest => some { s with
      cells := Function.update s.cells a.1 (s.cells a.1 + a.2)
      calls := s.calls.set i ⟨c.done ++ [a], rest⟩ }

def Reader.load (s : State κ ν) (j : Nat) (r : Reader κ ν) : Option (State κ ν) :=
  match r.todo with
  | [] => none
  | k :: rest => some { s with readers := s.readers.set j ⟨rest, r.seen ++ [(k, s.cells k)]⟩ }

def step (s : State κ ν) : Label κ ν → Option (State κ ν)
  | .call adds => some { s with calls := s.calls ++ [⟨[], adds⟩] }
  | .add i => s.calls[i]?.bind (Call.add s i)
  | .read keys => some { s with readers := s.readers ++ [⟨keys, []⟩] }
  | .load j => s.readers[j]?.bind (Reader.load s j)

end Step

/-- Everything a step can do. -/
inductive Moves [DecidableEq κ] [AddMonoid ν] (s : State κ ν) :
    Label κ ν → State κ ν → Prop
  | call (adds : List (κ × ν)) :
      Moves s (.call adds) { s with calls := s.calls ++ [⟨[], adds⟩] }
  | add {i : Nat} {done : List (κ × ν)} {a : κ × ν} {rest : List (κ × ν)}
      (h : s.calls[i]? = some ⟨done, a :: rest⟩) :
      Moves s (.add i) { s with
        cells := Function.update s.cells a.1 (s.cells a.1 + a.2)
        calls := s.calls.set i ⟨done ++ [a], rest⟩ }
  | read (keys : List κ) :
      Moves s (.read keys) { s with readers := s.readers ++ [⟨keys, []⟩] }
  | load {j : Nat} {k : κ} {rest : List κ} {seen : List (κ × ν)}
      (h : s.readers[j]? = some ⟨k :: rest, seen⟩) :
      Moves s (.load j) { s with
        readers := s.readers.set j ⟨rest, seen ++ [(k, s.cells k)]⟩ }

theorem moves_of_step [DecidableEq κ] [AddMonoid ν] {s t : State κ ν} {l : Label κ ν}
    (h : step s l = some t) : Moves s l t := by
  cases l with
  | call adds =>
      obtain rfl := Option.some.inj h
      exact .call adds
  | add i =>
      obtain ⟨⟨done, todo⟩, hi, h⟩ := Option.bind_eq_some_iff.1 h
      cases todo with
      | nil => cases h
      | cons a rest =>
          obtain rfl := Option.some.inj h
          exact .add hi
  | read keys =>
      obtain rfl := Option.some.inj h
      exact .read keys
  | load j =>
      obtain ⟨⟨todo, seen⟩, hj, h⟩ := Option.bind_eq_some_iff.1 h
      cases todo with
      | nil => cases h
      | cons k rest =>
          obtain rfl := Option.some.inj h
          exact .load hj

/-! ## What the counters have -/

section Amount

variable [DecidableEq κ] [AddMonoid ν]

@[simp] theorem amount_nil (k : κ) : amount k ([] : List (κ × ν)) = 0 := rfl

@[simp] theorem amount_cons (k : κ) (a : κ × ν) (adds : List (κ × ν)) :
    amount k (a :: adds) = (if a.1 = k then a.2 else 0) + amount k adds := by
  rw [amount, List.map_cons, List.sum_cons, amount]

theorem amount_append (k : κ) (adds adds' : List (κ × ν)) :
    amount k (adds ++ adds') = amount k adds + amount k adds' := by
  rw [amount, List.map_append, List.sum_append, amount, amount]

end Amount

/-- All that the call adds. -/
def Call.adds (c : Call κ ν) : List (κ × ν) := c.done ++ c.todo

/-- No call is half done. -/
def State.Finished (s : State κ ν) : Prop := ∀ c ∈ s.calls, c.todo = []

section Sums

variable [DecidableEq κ] [AddCommMonoid ν]

/-- Replacing one element of a list moves a sum over it by that element alone. -/
theorem sum_map_set {α : Type*} (f : α → ν) {xs : List α} {i : Nat} {a b : α} {d : ν}
    (h : xs[i]? = some a) (hb : f b = f a + d) :
    ((xs.set i b).map f).sum = (xs.map f).sum + d := by
  induction xs generalizing i with
  | nil => simp at h
  | cons x xs ih =>
      cases i with
      | zero =>
          obtain rfl : x = a := by simpa using h
          rw [List.set_cons_zero, List.map_cons, List.sum_cons, List.map_cons, List.sum_cons, hb]
          abel
      | succ i =>
          rw [List.set_cons_succ, List.map_cons, List.sum_cons, List.map_cons, List.sum_cons,
            ih (by simpa using h)]
          abel

/-- Every counter has what the calls have added to it. -/
def Summed (s : State κ ν) : Prop := ∀ k, s.cells k = (s.calls.map fun c => amount k c.done).sum

theorem step_summed {s t : State κ ν} {l : Label κ ν} (hs : Summed s) (h : step s l = some t) :
    Summed t := by
  intro k
  cases moves_of_step h with
  | call adds =>
      rw [List.map_append, List.sum_append, ← hs k]
      simp
  | @add i done a rest hi =>
      have hset := sum_map_set (fun c : Call κ ν => amount k c.done) hi
        (b := ⟨done ++ [a], rest⟩) (d := if a.1 = k then a.2 else 0) (by simp [amount_append])
      rw [hset, ← hs k]
      by_cases hk : a.1 = k
      · subst hk
        simp
      · simp [hk, Function.update_of_ne (Ne.symm hk)]
  | read keys | load hj => exact hs k

/-- In every run a counter has what the calls have added to it so far. -/
theorem run_cells {t : State κ ν} {ls : List (Label κ ν)}
    (hrun : run step State.init ls = some t) (k : κ) :
    t.cells k = (t.calls.map fun c => amount k c.done).sum :=
  run_invariant (I := Summed) (fun _ _ _ => step_summed) (fun _ => rfl) hrun k

/-- The calls of a state are those that have come. -/
theorem run_calls {t : State κ ν} {ls : List (Label κ ν)}
    (hrun : run step State.init ls = some t) : t.calls.map Call.adds = callsOf ls := by
  refine run_history (J := fun (t : State κ ν) ls => t.calls.map Call.adds = callsOf ls) rfl ?_ hrun
  intro s ls l t hs h
  rw [callsOf, List.filterMap_append, ← callsOf, ← hs]
  cases moves_of_step h with
  | call adds => simp [Call.adds, Label.adds]
  | @add i done a rest hi =>
      obtain ⟨hlt, hget⟩ := List.getElem?_eq_some_iff.1 hi
      have hlt' : i < (s.calls.map Call.adds).length := by rwa [List.length_map]
      have hsame : Call.adds ⟨done ++ [a], rest⟩ = (s.calls.map Call.adds)[i] := by
        rw [List.getElem_map, hget]
        simp [Call.adds]
      rw [List.map_set, hsame, List.set_getElem_self hlt']
      simp [Label.adds]
  | read keys | load hj => simp [Label.adds]

/-- Where no call is half done, a counter has all that the calls add to it. -/
theorem cells_of_finished {t : State κ ν} {ls : List (Label κ ν)}
    (hrun : run step State.init ls = some t) (hdone : t.Finished) (k : κ) :
    t.cells k = ((callsOf ls).map (amount k)).sum := by
  rw [run_cells hrun, ← run_calls hrun, List.map_map]
  congr 1
  refine List.map_congr_left fun c hc => ?_
  simp [Call.adds, hdone c hc]

end Sums

/-! ## Readers -/

/-- The reader's own value of a counter. -/
def Reader.value [DecidableEq κ] [Zero ν] (r : Reader κ ν) (k : κ) : ν := (r.seen.lookup k).getD 0

theorem mem_getElem?_append_singleton {α : Type*} {xs : List α} {x y : α} {j : Nat}
    (h : y ∈ (xs ++ [x])[j]?) : y ∈ xs[j]? ∨ x = y := by
  rw [List.getElem?_append] at h
  split at h
  · exact .inl h
  · exact .inr (List.mem_singleton.1 (List.mem_of_getElem? h)).symm

theorem mem_getElem?_set {α : Type*} {xs : List α} {x y : α} {i j : Nat}
    (h : y ∈ (xs.set i x)[j]?) : y ∈ xs[j]? ∨ i = j ∧ x = y := by
  by_cases hij : i = j
  · subst hij
    have hlt : i < xs.length := by simpa using (List.getElem?_eq_some_iff.1 h).1
    rw [List.getElem?_set_self hlt] at h
    exact .inr ⟨rfl, Option.some.inj h⟩
  · rw [List.getElem?_set_ne hij] at h
    exact .inl h

/-- Readers only come. -/
theorem run_readers_le [DecidableEq κ] [AddMonoid ν] {s t : State κ ν} {ls : List (Label κ ν)}
    (hrun : run step s ls = some t) : s.readers.length ≤ t.readers.length := by
  refine run_invariant (I := fun t => s.readers.length ≤ t.readers.length) ?_ le_rfl hrun
  intro u l t hu h
  cases moves_of_step h with
  | call adds | add hi => exact hu
  | read keys => simpa using hu.trans (Nat.le_succ _)
  | load hj => simpa using hu

/-- The keys are loaded in the order in which they were asked for. -/
theorem run_keys [DecidableEq κ] [AddMonoid ν] {t : State κ ν} {ls : List (Label κ ν)}
    (P : List κ → Prop) (hP : ∀ keys, .read keys ∈ ls → P keys)
    (hrun : run step State.init ls = some t) :
    ∀ r ∈ t.readers, P (r.seen.map Prod.fst ++ r.todo) := by
  revert hP
  refine run_history (J := fun (t : State κ ν) ls => (∀ keys, .read keys ∈ ls → P keys) →
    ∀ r ∈ t.readers, P (r.seen.map Prod.fst ++ r.todo)) (fun _ _ h => absurd h List.not_mem_nil) ?_
    hrun
  intro s ls l t ih h hP r hr
  have hs := ih fun keys hmem => hP keys (List.mem_append_left _ hmem)
  cases moves_of_step h with
  | call adds | add hi => exact hs r hr
  | read keys =>
      rcases List.mem_append.1 hr with hr | hr
      · exact hs r hr
      · obtain rfl := List.mem_singleton.1 hr
        exact hP keys (List.mem_append_right _ (List.mem_singleton_self _))
  | load hj =>
      rcases List.mem_or_eq_of_mem_set hr with hr | rfl
      · exact hs r hr
      · simpa using hs _ (List.mem_of_getElem? hj)

/-- No call that comes takes from the counter. -/
def Grows [Zero ν] [LE ν] (k : κ) (ls : List (Label κ ν)) : Prop :=
  ∀ adds ∈ callsOf ls, ∀ a ∈ adds, a.1 = k → 0 ≤ a.2

theorem Grows.of_append_left [Zero ν] [LE ν] {k : κ} {ls ms : List (Label κ ν)}
    (h : Grows k (ls ++ ms)) : Grows k ls := by
  intro adds hadds
  refine h adds ?_
  rw [callsOf, List.filterMap_append]
  exact List.mem_append_left _ hadds

section Order

variable [DecidableEq κ] [AddCommMonoid ν] [PartialOrder ν]

/-- Nothing that is still to be added takes from the counter. -/
theorem growing_of_run {k : κ} {t : State κ ν} {ls : List (Label κ ν)} (hk : Grows k ls)
    (hrun : run step State.init ls = some t) :
    ∀ c ∈ t.calls, ∀ a ∈ c.todo, a.1 = k → 0 ≤ a.2 := by
  intro c hc a ha
  refine hk c.adds ?_ a (List.mem_append_right _ ha)
  rw [← run_calls hrun]
  exact List.mem_map_of_mem hc

variable [IsOrderedAddMonoid ν]

theorem step_cells_le {k : κ} {s t : State κ ν} {l : Label κ ν} {ls : List (Label κ ν)}
    (hk : Grows k ls) (hrun : run step State.init ls = some s) (h : step s l = some t) :
    s.cells k ≤ t.cells k := by
  cases moves_of_step h with
  | @add i done a rest hi =>
      by_cases hak : a.1 = k
      · subst hak
        have hpos := growing_of_run hk hrun _ (List.mem_of_getElem? hi) a List.mem_cons_self rfl
        simpa using le_add_of_nonneg_right hpos
      · simp [Function.update_of_ne (Ne.symm hak)]
  | call adds | read keys | load hj => exact le_rfl

theorem amount_nonneg {k : κ} {adds : List (κ × ν)} (h : ∀ a ∈ adds, a.1 = k → 0 ≤ a.2) :
    0 ≤ amount k adds := by
  refine List.sum_nonneg fun x hx => ?_
  obtain ⟨a, ha, rfl⟩ := List.mem_map.1 hx
  split
  case isTrue hak => exact h a ha hak
  case isFalse => exact le_rfl

/-- A counter that only grows has at most what all the calls add to it. -/
theorem cells_le_calls {k : κ} {t : State κ ν} {ls : List (Label κ ν)} (hk : Grows k ls)
    (hrun : run step State.init ls = some t) :
    t.cells k ≤ ((callsOf ls).map (amount k)).sum := by
  rw [run_cells hrun, ← run_calls hrun, List.map_map]
  refine List.sum_le_sum fun c hc => ?_
  rw [Function.comp_apply, Call.adds, amount_append]
  exact le_add_of_nonneg_right (amount_nonneg (growing_of_run hk hrun c hc))

/-- What `exists_loaded` says of one reader. -/
def Loaded (ls : List (Label κ ν)) (j : Nat) (r : Reader κ ν) : Prop :=
  ∀ pre b v post, r.seen = pre ++ (b, v) :: post →
    ∃ ms s, ms <+: ls ∧ run step State.init ms = some s ∧ j < s.readers.length ∧
      s.cells b = v ∧ ∀ a ∈ pre, Grows a.1 ls → a.2 ≤ s.cells a.1

omit [IsOrderedAddMonoid ν] in
theorem Loaded.append {ls : List (Label κ ν)} {j : Nat} {r : Reader κ ν} (h : Loaded ls j r)
    (l : Label κ ν) : Loaded (ls ++ [l]) j r := by
  intro pre b v post hseen
  obtain ⟨ms, s, hms, hrun, hj, hb, hpre⟩ := h pre b v post hseen
  exact ⟨ms, s, hms.trans (List.prefix_append ls [l]), hrun, hj, hb,
    fun a ha hk => hpre a ha hk.of_append_left⟩

/-- What a reader has seen was there at one moment of the run, after it had come, and by then
the counters that it had seen before had what it saw of them or more. -/
theorem exists_loaded {t : State κ ν} {ls : List (Label κ ν)}
    (hrun : run step State.init ls = some t) : ∀ j, ∀ r ∈ t.readers[j]?, Loaded ls j r := by
  -- beside `Loaded`, the counters have by now what any reader has seen of them
  have hall : run step State.init ls = some t ∧ ∀ j, ∀ r ∈ t.readers[j]?, Loaded ls j r ∧
      ∀ a ∈ r.seen, Grows a.1 ls → a.2 ≤ t.cells a.1 := by
    refine run_history (J := fun (t : State κ ν) ls => run step State.init ls = some t ∧
      ∀ j, ∀ r ∈ t.readers[j]?, Loaded ls j r ∧ ∀ a ∈ r.seen, Grows a.1 ls → a.2 ≤ t.cells a.1)
      ⟨rfl, fun _ _ h => nomatch h⟩ ?_ hrun
    rintro s ls l t ⟨hs, ih⟩ h
    refine ⟨run_concat_some.2 ⟨s, hs, h⟩, fun j r hr => ?_⟩
    have hold : ∀ j, ∀ r ∈ s.readers[j]?, Loaded (ls ++ [l]) j r ∧
        ∀ a ∈ r.seen, Grows a.1 (ls ++ [l]) → a.2 ≤ t.cells a.1 := fun j r hr =>
      ⟨(ih j r hr).1.append l, fun a ha hk => ((ih j r hr).2 a ha hk.of_append_left).trans
        (step_cells_le hk.of_append_left hs h)⟩
    cases moves_of_step h with
    | call adds | add hi => exact hold j r hr
    | read keys =>
        rcases mem_getElem?_append_singleton hr with hr | rfl
        · exact hold j r hr
        · refine ⟨fun pre b v post hseen => ?_, fun a ha => absurd ha List.not_mem_nil⟩
          simp at hseen
    | @load i k rest seen hi =>
        rcases mem_getElem?_set hr with hr | ⟨rfl, rfl⟩
        · exact hold j r hr
        obtain ⟨hloaded, hle⟩ := hold i _ hi
        constructor
        · intro pre b v post hseen
          rcases List.eq_nil_or_concat post with rfl | ⟨post, last, rfl⟩
          · obtain ⟨rfl, hlast⟩ := List.append_inj' hseen rfl
            obtain ⟨rfl, rfl⟩ := Prod.mk.inj (List.cons.inj hlast).1
            exact ⟨ls, s, List.prefix_append ls _, hs, (List.getElem?_eq_some_iff.1 hi).1, rfl,
              fun a ha hk => (ih i _ hi).2 a ha hk.of_append_left⟩
          · refine hloaded pre b v post ?_
            rw [List.concat_eq_append, ← List.cons_append, ← List.append_assoc] at hseen
            exact (List.append_inj' hseen rfl).1
        · intro a ha hk
          rcases List.mem_append.1 ha with ha | ha
          · exact hle a ha hk
          · obtain rfl := List.mem_singleton.1 ha
            exact le_rfl
  exact fun j r hr => (hall.2 j r hr).1

/-- A reader that comes later sees what the counter has now, or more. -/
theorem le_seen {k : κ} {s t : State κ ν} {ls ms : List (Label κ ν)}
    (hs : run step State.init ls = some s) (hrun : run step s ms = some t)
    (hk : Grows k (ls ++ ms)) {j : Nat} (hj : s.readers.length ≤ j) :
    ∀ r ∈ t.readers[j]?, ∀ v, (k, v) ∈ r.seen → s.cells k ≤ v := by
  -- beside the claim, the counter has not gone down
  have hall : run step State.init (ls ++ ms) = some t ∧ (Grows k (ls ++ ms) →
      s.cells k ≤ t.cells k ∧ ∀ r ∈ t.readers[j]?, ∀ v, (k, v) ∈ r.seen → s.cells k ≤ v) := by
    refine run_history (J := fun (t : State κ ν) ms => run step State.init (ls ++ ms) = some t ∧
      (Grows k (ls ++ ms) → s.cells k ≤ t.cells k ∧
        ∀ r ∈ t.readers[j]?, ∀ v, (k, v) ∈ r.seen → s.cells k ≤ v)) ?_ ?_ hrun
    · refine ⟨by rwa [List.append_nil], fun _ => ⟨le_rfl, fun r hr => ?_⟩⟩
      rw [List.getElem?_eq_none hj] at hr
      cases hr
    · rintro u ms l t ⟨hu, ih⟩ h
      rw [← List.append_assoc]
      refine ⟨run_concat_some.2 ⟨u, hu, h⟩, fun hk => ?_⟩
      obtain ⟨hle, hseen⟩ := ih hk.of_append_left
      refine ⟨hle.trans (step_cells_le hk.of_append_left hu h), ?_⟩
      cases moves_of_step h with
      | call adds | add hi => exact hseen
      | read keys =>
          intro r hr v hv
          rcases mem_getElem?_append_singleton hr with hr | rfl
          · exact hseen r hr v hv
          · exact absurd hv List.not_mem_nil
      | @load i k' rest seen hi =>
          intro r hr v hv
          rcases mem_getElem?_set hr with hr | ⟨rfl, rfl⟩
          · exact hseen r hr v hv
          · rcases List.mem_append.1 hv with hv | hv
            · exact hseen _ hi v hv
            · obtain ⟨rfl, rfl⟩ := Prod.mk.inj (List.mem_singleton.1 hv)
              exact hle
  exact (hall.2 hk).2

end Order

/-! ## Machine words -/

section Map

variable {μ : Type*}

def mapAdds (f : ν → μ) (adds : List (κ × ν)) : List (κ × μ) := adds.map fun a => (a.1, f a.2)

def Call.map (f : ν → μ) (c : Call κ ν) : Call κ μ := ⟨mapAdds f c.done, mapAdds f c.todo⟩

def Reader.map (f : ν → μ) (r : Reader κ ν) : Reader κ μ := ⟨r.todo, mapAdds f r.seen⟩

def State.map (f : ν → μ) (s : State κ ν) : State κ μ where
  cells := fun k => f (s.cells k)
  calls := s.calls.map (Call.map f)
  readers := s.readers.map (Reader.map f)

def Label.map (f : ν → μ) : Label κ ν → Label κ μ
  | .call adds => .call (mapAdds f adds)
  | .add i => .add i
  | .read keys => .read keys
  | .load j => .load j

variable [DecidableEq κ] [AddCommMonoid ν] [AddCommMonoid μ]

theorem step_map (f : ν →+ μ) (s : State κ ν) (l : Label κ ν) :
    step (s.map f) (l.map f) = (step s l).map (State.map f) := by
  cases l with
  | call adds => simp [step, State.map, Label.map, Call.map, mapAdds]
  | read keys => simp [step, State.map, Label.map, Reader.map, mapAdds]
  | add i =>
      simp only [step, State.map, Label.map, List.getElem?_map]
      cases s.calls[i]? with
      | none => rfl
      | some c =>
          obtain ⟨done, todo⟩ := c
          cases todo with
          | nil => rfl
          | cons a rest =>
              have hcells : Function.update (fun k => f (s.cells k)) a.1
                  (f (s.cells a.1) + f a.2) =
                  fun k => f (Function.update s.cells a.1 (s.cells a.1 + a.2) k) := by
                funext k
                by_cases hk : k = a.1
                · subst hk
                  simp
                · simp [Function.update_of_ne hk]
              simp [Call.add, Call.map, mapAdds, List.map_set, hcells, State.map]
  | load j =>
      simp only [step, State.map, Label.map, List.getElem?_map]
      cases s.readers[j]? with
      | none => rfl
      | some r =>
          obtain ⟨todo, seen⟩ := r
          cases todo with
          | nil => rfl
          | cons k rest => simp [Reader.load, Reader.map, mapAdds, List.map_set, State.map]

/-- A bank of words is the image of a bank of integers. -/
theorem run_map (f : ν →+ μ) (ls : List (Label κ ν)) :
    run step State.init (ls.map (Label.map f)) =
      (run step State.init ls).map (State.map f) := by
  have hinit : (State.init : State κ μ) = State.map f State.init := by
    simp [State.init, State.map]
  rw [hinit]
  generalize (State.init : State κ ν) = s
  induction ls generalizing s with
  | nil => rfl
  | cons l ls ih =>
      rw [List.map_cons, run_cons, run_cons, step_map]
      cases step s l with
      | none => rfl
      | some t => exact ih t

end Map

end Counters
