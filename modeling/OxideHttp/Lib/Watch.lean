import OxideHttp.Lib.Transition

/-!
# A watched value

A channel has one value, which its sender replaces, and a version, which counts the
replacements.  A receiver that waits for a value with some property looks at the value and
marks its version as seen; where the value does not have the property, it waits for another
version, or for the sender to go, and looks again.

This file gives

* `Waiter.Sound`: what holds of a receiver between its steps, kept by its own steps
  (`Sound.step`) and by the sender (`Sound.send`, `Sound.close`);
* `Waiter.exists_returned`: no wakeup is lost: once the value has the property, or the sender
  is gone, the receiver returns within three steps of its own;
* `Waiter.run_of_steps`: these steps within a system.
-/

namespace Watch

open Transition

variable {α : Type*}

structure Channel (α : Type*) where
  value : α
  version : Nat
  closed : Bool
  deriving DecidableEq, Repr

def Channel.new (a : α) : Channel α where
  value := a
  version := 0
  closed := false

def Channel.send (c : Channel α) (a : α) : Channel α :=
  { c with value := a, version := c.version + 1 }

/-- The sender is dropped. -/
def Channel.close (c : Channel α) : Channel α := { c with closed := true }

/-- A receiver that waits. -/
inductive Waiter where
  | checking
  /-- until there is a version other than the one it has seen -/
  | waiting (seen : Nat)
  | returned
  deriving DecidableEq, Repr

/-- The next step of a receiver that waits for `p`, where it has one. -/
def Waiter.step (p : α → Bool) (c : Channel α) : Waiter → Option Waiter
  | .checking => if p c.value then some .returned else some (.waiting c.version)
  | .waiting seen =>
      if seen ≠ c.version then some .checking
      else if c.closed then some .returned
      else none
  | .returned => none

/-- There is nothing left to wait for. -/
def Channel.Due (p : α → Bool) (c : Channel α) : Prop := p c.value = true ∨ c.closed = true

/-- A receiver that has seen the version at hand has seen a value without the property. -/
def Waiter.Sound (p : α → Bool) (c : Channel α) : Waiter → Prop
  | .checking => True
  | .waiting seen => seen ≤ c.version ∧ (seen = c.version → p c.value = false)
  | .returned => c.Due p

variable {p : α → Bool} {c : Channel α} {w w' : Waiter}

theorem Waiter.Sound.step (h : w.Sound p c) (hstep : w.step p c = some w') : w'.Sound p c := by
  cases w with
  | checking =>
      rw [Waiter.step] at hstep
      split at hstep
      case isTrue hp =>
        obtain rfl := Option.some.inj hstep
        exact .inl hp
      case isFalse hp =>
        obtain rfl := Option.some.inj hstep
        exact ⟨Nat.le_refl _, fun _ => Bool.eq_false_iff.2 hp⟩
  | waiting seen =>
      rw [Waiter.step] at hstep
      split at hstep
      case isTrue =>
        obtain rfl := Option.some.inj hstep
        trivial
      case isFalse =>
        split at hstep
        case isTrue hclosed =>
          obtain rfl := Option.some.inj hstep
          exact .inr hclosed
        case isFalse => cases hstep
  | returned => cases hstep

/-- A new version is not one that was seen. -/
theorem Waiter.Sound.send (h : w.Sound p c) {a : α} (hp : p c.value = true → p a = true) :
    w.Sound p (c.send a) := by
  cases w with
  | checking => trivial
  | waiting seen =>
      have hlt : seen < c.version + 1 := Nat.lt_succ_of_le h.1
      exact ⟨Nat.le_of_lt hlt, fun heq => absurd heq (Nat.ne_of_lt hlt)⟩
  | returned => exact h.imp hp id

theorem Waiter.Sound.close (h : w.Sound p c) : w.Sound p c.close := by
  cases w with
  | checking => trivial
  | waiting seen => exact h
  | returned => exact .inr rfl

/-- Steps of a receiver alone. -/
def Waiter.steps (p : α → Bool) (c : Channel α) (w : Waiter) (n : Nat) : Option Waiter :=
  run (fun w _ => w.step p c) w (List.replicate n ())

/-- A receiver that looks returns with its next two steps. -/
theorem Waiter.checking_returned (hdue : c.Due p) :
    ∃ n ≤ 2, Waiter.checking.steps p c n = some .returned := by
  by_cases hp : p c.value = true
  · exact ⟨1, by decide, by simp [Waiter.steps, Waiter.step, hp]⟩
  · have hclosed : c.closed = true := hdue.resolve_left hp
    exact ⟨2, le_rfl, by simp [Waiter.steps, Waiter.step, hp, hclosed]⟩

/-- No wakeup is lost. -/
theorem Waiter.exists_returned (h : w.Sound p c) (hdue : c.Due p) :
    ∃ n ≤ 3, w.steps p c n = some .returned := by
  cases w with
  | checking =>
      obtain ⟨n, hn, hreturned⟩ := Waiter.checking_returned hdue
      exact ⟨n, Nat.le_succ_of_le hn, hreturned⟩
  | waiting seen =>
      by_cases hseen : seen = c.version
      · -- it has seen a value without the property, so it is the sender that is gone
        have hclosed : c.closed = true :=
          hdue.resolve_left (Bool.eq_false_iff.1 (h.2 hseen))
        exact ⟨1, by decide, by simp [Waiter.steps, Waiter.step, hseen, hclosed]⟩
      · obtain ⟨n, hn, hreturned⟩ := Waiter.checking_returned hdue
        refine ⟨n + 1, Nat.succ_le_succ hn, ?_⟩
        have hstep : (Waiter.waiting seen).step p c = some .checking := by
          rw [Waiter.step, if_pos hseen]
        rw [Waiter.steps, List.replicate_succ, run_cons, hstep]
        exact hreturned
  | returned => exact ⟨0, Nat.zero_le _, rfl⟩

/-- The steps of a receiver within a system that takes them by the label `l`. -/
theorem Waiter.run_of_steps {σ ι : Type*} (step : σ → ι → Option σ) (l : ι) (f : Waiter → σ)
    (hstep : ∀ w w', w.step p c = some w' → step (f w) l = some (f w')) {n : Nat}
    (h : w.steps p c n = some w') : run step (f w) (List.replicate n l) = some (f w') := by
  induction n generalizing w with
  | zero =>
      obtain rfl := Option.some.inj h
      rfl
  | succ n ih =>
      obtain ⟨v, hv, hrest⟩ := run_cons_some.1 h
      rw [List.replicate_succ, run_cons, hstep w v hv]
      exact ih hrest

end Watch
