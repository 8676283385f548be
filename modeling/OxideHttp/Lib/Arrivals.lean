import Mathlib.Data.List.Basic
import Mathlib.Tactic.Common

/-!
# Reading what arrives in pieces

A source is what its reads find, one after the other and without end: some items, none
when it has ended, or an error.  A read takes as much of the next piece as it has room
for and leaves the rest of it for the next one.

This file gives

* `Source.items`: the items of the first pieces;
* `Source.Gives`: what a source gives before it is as another one.  Reading gives the items
  that it returns (`Gives.read`), and `Gives` is reflexive and transitive.
-/

namespace Arrivals

universe u

/-- The pieces of a source; an error is `none`. -/
def Source (α : Type u) := Nat → Option (List α)

variable {α : Type u}

namespace Source

def tail (s : Source α) : Source α := fun n => s (n + 1)

def cons (piece : List α) (s : Source α) : Source α
  | 0 => some piece
  | n + 1 => s n

@[simp] theorem cons_zero (piece : List α) (s : Source α) : s.cons piece 0 = some piece := rfl

@[simp] theorem tail_cons (piece : List α) (s : Source α) : (s.cons piece).tail = s := rfl

/-- A read with room for so many items. -/
def read (s : Source α) (room : Nat) : Option (List α × Source α) :=
  match s 0 with
  | none => none
  | some piece =>
      some (piece.take room,
        if piece.length ≤ room then s.tail else s.tail.cons (piece.drop room))

/-- The items of the first pieces. -/
def items (s : Source α) : Nat → List α
  | 0 => []
  | n + 1 => (s 0).getD [] ++ items s.tail n

/-- The source that gives these pieces and has then ended. -/
def ofPieces : List (List α) → Source α
  | [] => fun _ => some []
  | piece :: pieces => (ofPieces pieces).cons piece

/-- The source gives these items, and is then as `t`. -/
def Gives (s : Source α) (given : List α) (t : Source α) : Prop :=
  ∃ n, ∀ m, s.items (n + (m + 1)) = given ++ t.items (m + 1)

theorem Gives.refl (s : Source α) : s.Gives [] s :=
  ⟨0, fun m => by rw [Nat.zero_add, List.nil_append]⟩

theorem Gives.trans {s t u : Source α} {given more : List α} (h : s.Gives given t)
    (h' : t.Gives more u) : s.Gives (given ++ more) u := by
  obtain ⟨n, hn⟩ := h
  obtain ⟨k, hk⟩ := h'
  refine ⟨n + k, fun m => ?_⟩
  calc s.items (n + k + (m + 1))
      = s.items (n + ((k + m) + 1)) := by rw [Nat.add_assoc n, Nat.add_assoc k]
    _ = given ++ t.items (k + (m + 1)) := hn (k + m)
    _ = given ++ more ++ u.items (m + 1) := by rw [hk, List.append_assoc]

/-- What a read returns is given, and the source is then as the read leaves it. -/
theorem Gives.read {s t : Source α} {room : Nat} {taken : List α}
    (h : s.read room = some (taken, t)) : s.Gives taken t := by
  rw [Source.read] at h
  cases hpiece : s 0 with
  | none => simp [hpiece] at h
  | some piece =>
      simp only [hpiece, Option.some.injEq, Prod.mk.injEq] at h
      obtain ⟨rfl, rfl⟩ := h
      by_cases hroom : piece.length ≤ room
      · rw [if_pos hroom, List.take_of_length_le hroom]
        refine ⟨1, fun m => ?_⟩
        rw [Nat.add_comm, Source.items, hpiece]
        rfl
      · rw [if_neg hroom]
        refine ⟨0, fun m => ?_⟩
        rw [Nat.zero_add, Source.items, Source.items, hpiece, cons_zero, tail_cons,
          Option.getD_some, Option.getD_some, ← List.append_assoc, List.take_append_drop]

end Source

open Source

theorem read_length_le {s t : Source α} {room : Nat} {taken : List α}
    (h : s.read room = some (taken, t)) : taken.length ≤ room := by
  rw [Source.read] at h
  split at h <;> cases h
  exact List.length_take_le ..

/-- A piece that fits is taken as a whole. -/
theorem read_ofPieces_cons {piece : List α} {pieces : List (List α)} {room : Nat}
    (h : piece.length ≤ room) :
    (ofPieces (piece :: pieces)).read room = some (piece, ofPieces pieces) := by
  rw [ofPieces, Source.read, cons_zero]
  simp only [if_pos h, List.take_of_length_le h, tail_cons]

theorem read_ofPieces_nil (room : Nat) :
    (ofPieces ([] : List (List α))).read room = some ([], ofPieces []) := by
  simp only [ofPieces, Source.read, List.take_nil, List.length_nil, Nat.zero_le, if_true]
  rfl

end Arrivals
