import Mathlib.Data.List.Basic
import Mathlib.Tactic.Common

/-!
# Code whose accesses are checked

A computation ends with a value, with an error of its own, or with an access outside a
list.

This file gives

* `get`, `slice`, `splitOff`: the accesses;
* `Safe`: the computation makes no access outside, and its value satisfies a condition;
  the rules `Safe.bind` and `Safe.mono`, and one rule for each access.
-/

namespace Access

universe u

variable {α β : Type u}

/-- How a computation fails. -/
inductive Fault where
  | err
  | outOfRange
  deriving DecidableEq, Repr

/-- `xs[i]`. -/
def get (xs : List α) (i : Nat) : Except Fault α :=
  match xs[i]? with
  | some x => .ok x
  | none => .error .outOfRange

/-- `&xs[lo..hi]`. -/
def slice (xs : List α) (lo hi : Nat) : Except Fault (List α) :=
  if lo ≤ hi ∧ hi ≤ xs.length then .ok ((xs.drop lo).take (hi - lo)) else .error .outOfRange

/-- `xs.split_off(i)`: what is behind, and what stays. -/
def splitOff (xs : List α) (i : Nat) : Except Fault (List α × List α) :=
  if i ≤ xs.length then .ok (xs.drop i, xs.take i) else .error .outOfRange

/-- The error that the code gives for what is missing. -/
def orErr : Option α → Except Fault α
  | some a => .ok a
  | none => .error .err

/-- No access is outside, and a value satisfies the condition. -/
def Safe (r : Except Fault α) (Q : α → Prop) : Prop :=
  match r with
  | .ok a => Q a
  | .error f => f = .err

@[simp] theorem safe_ok {a : α} {Q : α → Prop} : Safe (.ok a) Q ↔ Q a := Iff.rfl

@[simp] theorem safe_pure {a : α} {Q : α → Prop} : Safe (pure a) Q ↔ Q a := Iff.rfl

theorem Safe.bind {r : Except Fault α} {f : α → Except Fault β} {P : α → Prop} {Q : β → Prop}
    (h : Safe r P) (hf : ∀ a, P a → Safe (f a) Q) : Safe (r >>= f) Q := by
  cases r with
  | ok a => exact hf a h
  | error e => exact h

theorem Safe.mono {r : Except Fault α} {P Q : α → Prop} (h : Safe r P)
    (hPQ : ∀ a, P a → Q a) : Safe r Q := by
  cases r with
  | ok a => exact hPQ a h
  | error e => exact h

theorem mapM_eq {f : α → Except Fault β} {g : α → β} {xs : List α}
    (h : ∀ x ∈ xs, f x = .ok (g x)) : xs.mapM f = .ok (xs.map g) := by
  induction xs with
  | nil => rfl
  | cons x xs ih =>
      rw [List.mapM_cons, h x (List.mem_cons_self ..),
        ih fun x' hx' => h x' (List.mem_cons_of_mem x hx')]
      rfl

section Accesses

variable {xs : List α}

theorem get_eq {i : Nat} (hi : i < xs.length) (d : α) : get xs i = .ok (xs.getD i d) := by
  rw [get, List.getD_eq_getElem?_getD, List.getElem?_eq_getElem hi]
  rfl

theorem safe_get {i : Nat} (hi : i < xs.length) (d : α) :
    Safe (get xs i) (· = xs.getD i d) := by
  rw [get_eq hi d]
  exact rfl

theorem slice_eq {lo hi : Nat} (hlo : lo ≤ hi) (hhi : hi ≤ xs.length) :
    slice xs lo hi = .ok ((xs.drop lo).take (hi - lo)) := if_pos ⟨hlo, hhi⟩

theorem safe_slice {lo hi : Nat} (hlo : lo ≤ hi) (hhi : hi ≤ xs.length) :
    Safe (slice xs lo hi) (· = (xs.drop lo).take (hi - lo)) := by
  rw [slice_eq hlo hhi]
  exact rfl

theorem splitOff_eq {i : Nat} (hi : i ≤ xs.length) :
    splitOff xs i = .ok (xs.drop i, xs.take i) := if_pos hi

theorem safe_splitOff {i : Nat} (hi : i ≤ xs.length) :
    Safe (splitOff xs i) (· = (xs.drop i, xs.take i)) := by
  rw [splitOff_eq hi]
  exact rfl

theorem safe_orErr (o : Option α) : Safe (orErr o) (o = some ·) := by
  cases o with
  | none => exact rfl
  | some a => exact rfl

end Accesses

end Access
