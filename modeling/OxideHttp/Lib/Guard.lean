import Mathlib.Tactic.Common

/-!
# Streams that stop at the first violation

A monitor follows a stream with a state `next`, and `check` tells whether the next
element violates what is asked of the stream.  `guarded` passes the stream on up to
the first violation and puts a notice of it in place of the rest.

This file gives

* `first`: the first violation of a stream;
* the invariant rule `guarded_invariant` for what is passed on;
* `mem_guarded`: a notice that is not an admissible element of the stream is that of the
  first violation;
* `first_eq_none_iff`: where the check decides a property that no further element can
  restore, a stream has no violation if and only if its last state has the property.
-/

namespace Guard

variable {σ α β : Type*} (next : σ → α → σ) (check : σ → α → Option β) (stop : β → α)

/-- The stream up to the first violation, and a notice of that. -/
def guarded : σ → List α → List α
  | _, [] => []
  | s, a :: as =>
      match check s a with
      | some v => [stop v]
      | none => a :: guarded (next s a) as

/-- The first violation of a stream. -/
def first : σ → List α → Option β
  | _, [] => none
  | s, a :: as =>
      match check s a with
      | some v => some v
      | none => first (next s a) as

section Rules

variable {next : σ → α → σ} {check : σ → α → Option β} {stop : β → α}

theorem guarded_pass {s : σ} {a : α} {as : List α} (h : check s a = none) :
    guarded next check stop s (a :: as) = a :: guarded next check stop (next s a) as := by
  rw [guarded, h]

theorem guarded_stop {s : σ} {a : α} {as : List α} {v : β} (h : check s a = some v) :
    guarded next check stop s (a :: as) = [stop v] := by
  rw [guarded, h]

theorem first_pass {s : σ} {a : α} {as : List α} (h : check s a = none) :
    first next check s (a :: as) = first next check (next s a) as := by
  rw [first, h]

theorem first_stop {s : σ} {a : α} {as : List α} {v : β} (h : check s a = some v) :
    first next check s (a :: as) = some v := by
  rw [first, h]

/-- A stream without a violation is passed on whole. -/
theorem guarded_eq_self {s : σ} {as : List α} (h : first next check s as = none) :
    guarded next check stop s as = as := by
  induction as generalizing s with
  | nil => rfl
  | cons a as ih =>
      cases ha : check s a with
      | some v =>
          rw [first_stop ha] at h
          cases h
      | none =>
          rw [first_pass ha] at h
          rw [guarded_pass ha, ih h]

/-- The notice of the first violation is sent. -/
theorem stop_mem_guarded {s : σ} {as : List α} {v : β}
    (h : first next check s as = some v) : stop v ∈ guarded next check stop s as := by
  induction as generalizing s with
  | nil => cases h
  | cons a as ih =>
      cases ha : check s a with
      | some w =>
          rw [first_stop ha] at h
          obtain rfl := Option.some.inj h
          rw [guarded_stop ha]
          exact List.mem_singleton_self _
      | none =>
          rw [first_pass ha] at h
          rw [guarded_pass ha]
          exact List.mem_cons_of_mem _ (ih h)

/-- What comes out has been admitted, or is the notice of the first violation. -/
theorem mem_guarded {s : σ} {as : List α} {a : α}
    (h : a ∈ guarded next check stop s as) :
    (∃ t, check t a = none) ∨ ∃ v, first next check s as = some v ∧ a = stop v := by
  induction as generalizing s with
  | nil => cases h
  | cons b as ih =>
      cases hb : check s b with
      | some v =>
          rw [guarded_stop hb] at h
          exact Or.inr ⟨v, first_stop hb, List.mem_singleton.1 h⟩
      | none =>
          rw [guarded_pass hb] at h
          rw [first_pass hb]
          rcases List.mem_cons.1 h with rfl | h
          · exact Or.inl ⟨s, hb⟩
          · exact ih h

/-- What holds at the start, and is kept by the elements that are admitted and by a
notice, holds after all that comes out. -/
theorem guarded_invariant {I : σ → Prop} (hpass : ∀ s a, I s → check s a = none → I (next s a))
    (hstop : ∀ s v, I s → I (next s (stop v))) {s : σ} (hs : I s) (as : List α) :
    I ((guarded next check stop s as).foldl next s) := by
  induction as generalizing s with
  | nil => exact hs
  | cons a as ih =>
      cases ha : check s a with
      | some v =>
          rw [guarded_stop ha]
          exact hstop s v hs
      | none =>
          rw [guarded_pass ha]
          exact ih (hpass s a hs ha)

/-- A property that no element can restore held before the last elements came. -/
theorem of_foldl {I : σ → Prop} (hback : ∀ s a, I (next s a) → I s) {s : σ} {as : List α}
    (h : I (as.foldl next s)) : I s := by
  induction as generalizing s with
  | nil => exact h
  | cons a as ih => exact hback s a (ih h)

/-- Where the check admits exactly the elements of a kind that keep a property, and no
element can restore it, the streams without a violation are those of that kind that end with
the property. -/
theorem first_eq_none_iff {I : σ → Prop} {ok : α → Prop}
    (hcheck : ∀ s a, I s → (check s a = none ↔ I (next s a) ∧ ok a))
    (hback : ∀ s a, I (next s a) → I s) {s : σ} (hs : I s) (as : List α) :
    first next check s as = none ↔ I (as.foldl next s) ∧ ∀ a ∈ as, ok a := by
  induction as generalizing s with
  | nil => simpa [first] using hs
  | cons a as ih =>
      rw [List.foldl_cons, List.forall_mem_cons]
      cases ha : check s a with
      | some v =>
          have hnot : ¬ (I (next s a) ∧ ok a) := fun h => by
            rw [(hcheck s a hs).2 h] at ha
            cases ha
          rw [first_stop ha]
          constructor
          · intro h
            cases h
          · rintro ⟨hlast, hok, _⟩
            exact absurd ⟨of_foldl hback hlast, hok⟩ hnot
      | none =>
          obtain ⟨hnext, hok⟩ := (hcheck s a hs).1 ha
          rw [first_pass ha, ih hnext]
          exact ⟨fun ⟨hlast, hrest⟩ => ⟨hlast, hok, hrest⟩,
            fun ⟨hlast, _, hrest⟩ => ⟨hlast, hrest⟩⟩

end Rules

end Guard
