import Mathlib.Data.List.Induction
import Mathlib.Logic.Function.Basic
import Mathlib.Tactic.Common

/-!
# An unbounded memory

The memory that keeps, for each key, the value that was last put under it, until a
drop covers the pair.  A store that forgets more than that stays `Within` it; so what
the store still holds is what was put last.

Result: `replay_eq_some_iff`, the contents of the memory in terms of its history.
-/

namespace Memory

variable {κ α : Type*}

inductive Update (κ α : Type*) where
  | put (k : κ) (a : α)
  /-- forget the pairs that `p` covers -/
  | drop (p : κ → α → Bool)

/-- The update leaves `a` under `k` in place. -/
def Update.Spares (k : κ) (a : α) : Update κ α → Prop
  | .put k' _ => k' ≠ k
  | .drop p => p k a = false

/-- Everything that a store holds is in the memory. -/
def Within (held m : κ → Option α) : Prop := ∀ k a, held k = some a → m k = some a

section Replay

variable [DecidableEq κ]

def apply (m : κ → Option α) : Update κ α → κ → Option α
  | .put k a => Function.update m k (some a)
  | .drop p => fun k => (m k).filter fun a => !p k a

/-- The memory after a history of updates. -/
def replay (us : List (Update κ α)) : κ → Option α := us.foldl apply fun _ => none

theorem replay_concat (us : List (Update κ α)) (u : Update κ α) :
    replay (us ++ [u]) = apply (replay us) u := by
  rw [replay, List.foldl_append]
  rfl

variable {m : κ → Option α} {u : Update κ α} {k : κ} {a : α}

theorem apply_eq_some_iff :
    apply m u k = some a ↔ u = .put k a ∨ m k = some a ∧ u.Spares k a := by
  cases u with
  | drop p => simp [apply, Update.Spares, Option.filter_eq_some_iff]
  | put k' b =>
      by_cases hk : k' = k
      · subst hk
        simp [apply, Update.Spares]
      · have hk' : k ≠ k' := fun h => hk h.symm
        simp [apply, Update.Spares, Function.update_of_ne hk', hk]

/-- The value of a key is the one that was put last, and nothing after it covers it. -/
theorem replay_eq_some_iff {us : List (Update κ α)} :
    replay us k = some a ↔
      ∃ before after, us = before ++ .put k a :: after ∧ ∀ u ∈ after, u.Spares k a := by
  induction us using List.reverseRecOn with
  | nil => simp [replay]
  | append_singleton us u ih =>
      rw [replay_concat, apply_eq_some_iff]
      constructor
      · rintro (rfl | ⟨hold, hspares⟩)
        · exact ⟨us, [], rfl, nofun⟩
        · obtain ⟨before, after, rfl, hafter⟩ := ih.1 hold
          refine ⟨before, after ++ [u], by simp, fun v hv => ?_⟩
          rcases List.mem_append.1 hv with hv | hv
          · exact hafter v hv
          · exact List.mem_singleton.1 hv ▸ hspares
      · rintro ⟨before, after, hus, hafter⟩
        rcases List.eq_nil_or_concat after with rfl | ⟨after, v, rfl⟩
        · exact Or.inl (List.head_eq_of_cons_eq (List.append_inj' hus rfl).2)
        · rw [List.concat_eq_append, ← List.cons_append, ← List.append_assoc] at hus
          obtain ⟨hinit, hlast⟩ := List.append_inj' hus rfl
          obtain rfl := List.head_eq_of_cons_eq hlast
          refine Or.inr ⟨ih.2 ⟨before, after, hinit, fun w hw => ?_⟩, ?_⟩
          · exact hafter w (by simp [hw])
          · exact hafter u (by simp)

/-! ## Stores within a memory -/

/-- The rule for an update: what a store holds after it is new, or spared. -/
theorem Within.apply {held held' : κ → Option α} (h : Within held m)
    (hnew : ∀ k a, held' k = some a → u = .put k a ∨ held k = some a ∧ u.Spares k a) :
    Within held' (apply m u) := by
  intro k a hk
  rw [apply_eq_some_iff]
  exact (hnew k a hk).imp_right (And.imp_left (h k a))

end Replay

/-- The rule for a store that forgets. -/
theorem Within.shrink {held held' m : κ → Option α} (h : Within held m)
    (hsub : ∀ k a, held' k = some a → held k = some a) : Within held' m :=
  fun k a hk => h k a (hsub k a hk)

end Memory
