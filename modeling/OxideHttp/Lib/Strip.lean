import Mathlib.Data.List.DropRight
import Mathlib.Data.List.Infix
import Mathlib.Tactic.Common

/-!
# Stripping both ends of a list

`strip p` takes the elements that meet `p` off the front and the back of a list.

This file gives

* `strip_pad`, `exists_pad`: what is stripped does not matter;
* `strip_map`, `splitOn_map`: stripping and cutting under an injection;
* `map_strip_splitOn_strip`: the ends of a list do not show in its stripped pieces;
* `jsTrim`: the white space of JavaScript.
-/

namespace Strip

variable {α β : Type*} {p : α → Bool} {l : List α}

def strip (p : α → Bool) (l : List α) : List α := (l.dropWhile p).rdropWhile p

theorem strip_cons {c : α} (h : p c = true) : strip p (c :: l) = strip p l := by
  rw [strip, List.dropWhile_cons_of_pos h, strip]

theorem strip_concat {c : α} (h : p c = true) : strip p (l ++ [c]) = strip p l := by
  rw [strip, List.dropWhile_append]
  split
  case isTrue hnil =>
    rw [List.isEmpty_iff] at hnil
    rw [strip, hnil, List.dropWhile_cons_of_pos h]
    rfl
  case isFalse => exact List.rdropWhile_concat_pos p _ c h

theorem strip_append_left {a : List α} (h : ∀ x ∈ a, p x = true) :
    strip p (a ++ l) = strip p l := by
  induction a with
  | nil => rfl
  | cons c a ih =>
      rw [List.cons_append, strip_cons (h c (List.mem_cons_self ..))]
      exact ih fun x hx => h x (List.mem_cons_of_mem _ hx)

theorem strip_append_right {b : List α} (h : ∀ x ∈ b, p x = true) :
    strip p (l ++ b) = strip p l := by
  induction b using List.reverseRecOn with
  | nil => rw [List.append_nil]
  | append_singleton b c ih =>
      rw [← List.append_assoc, strip_concat (h c (by simp))]
      exact ih fun x hx => h x (List.mem_append_left _ hx)

/-- What is stripped does not matter. -/
theorem strip_pad {a b : List α} (ha : ∀ x ∈ a, p x = true) (hb : ∀ x ∈ b, p x = true) :
    strip p (a ++ l ++ b) = strip p l := by
  rw [strip_append_right hb, strip_append_left ha]

/-- What is stripped, and what is left. -/
theorem exists_pad (p : α → Bool) (l : List α) :
    ∃ a b, l = a ++ strip p l ++ b ∧ (∀ x ∈ a, p x = true) ∧ ∀ x ∈ b, p x = true := by
  refine ⟨l.takeWhile p, (l.dropWhile p).rtakeWhile p, ?_, fun x hx => ?_, fun x hx => ?_⟩
  · rw [List.append_assoc, strip, List.rdropWhile_append_rtakeWhile,
      List.takeWhile_append_dropWhile]
  · exact List.mem_takeWhile_imp hx
  · exact List.mem_rtakeWhile_imp hx

/-- A list whose ends are to stay. -/
theorem strip_eq_self (hhead : ∀ x ∈ l.head?, p x = false)
    (hlast : ∀ x ∈ l.getLast?, p x = false) : strip p l = l := by
  have hdrop : l.dropWhile p = l := by
    cases l with
    | nil => rfl
    | cons c l => rw [List.dropWhile_cons_of_neg (by simp [hhead c rfl])]
  rw [strip, hdrop, List.rdropWhile_eq_self_iff]
  intro hne
  simp [hlast _ (List.getLast?_eq_getLast_of_ne_nil hne)]

theorem strip_eq_nil_iff : strip p l = [] ↔ ∀ x ∈ l, p x = true := by
  rw [strip, List.rdropWhile_eq_nil_iff]
  constructor
  · intro h x hx
    rw [← List.takeWhile_append_dropWhile (p := p) (l := l), List.mem_append] at hx
    exact hx.elim List.mem_takeWhile_imp (h x)
  · intro h x hx
    exact h x (List.dropWhile_suffix p |>.subset hx)

theorem mem_of_mem_strip {x : α} (h : x ∈ strip p l) : x ∈ l := by
  obtain ⟨a, b, hl, -, -⟩ := exists_pad p l
  rw [hl]
  exact List.mem_append_left _ (List.mem_append_right _ h)

@[simp] theorem strip_strip : strip p (strip p l) = strip p l := by
  obtain ⟨a, b, hl, ha, hb⟩ := exists_pad p l
  have hpad := strip_pad (l := strip p l) ha hb
  rw [← hl] at hpad
  exact hpad.symm

theorem dropWhile_congr {q : α → Bool} (h : ∀ x ∈ l, p x = q x) :
    l.dropWhile p = l.dropWhile q := by
  induction l with
  | nil => rfl
  | cons c l ih =>
      rw [List.dropWhile_cons, List.dropWhile_cons, h c (List.mem_cons_self ..),
        ih fun x hx => h x (List.mem_cons_of_mem _ hx)]

theorem strip_congr {q : α → Bool} (h : ∀ x ∈ l, p x = q x) : strip p l = strip q l := by
  rw [strip, strip, List.rdropWhile, List.rdropWhile, dropWhile_congr h]
  congr 1
  refine dropWhile_congr fun x hx => h x ?_
  exact (List.dropWhile_suffix q).subset (List.mem_reverse.1 hx)

theorem strip_map {f : β → α} {q : β → Bool} {l : List β} (h : ∀ x ∈ l, p (f x) = q x) :
    strip p (l.map f) = (strip q l).map f := by
  rw [strip, List.dropWhile_map, List.rdropWhile, ← List.map_reverse, List.dropWhile_map,
    ← List.map_reverse]
  exact congrArg (List.map f) (strip_congr h)

/-! ## Pieces -/

section Pieces

variable [DecidableEq α] [DecidableEq β] {sep : α}

theorem splitOn_map {f : β → α} {s : β} {l : List β} (h : ∀ x ∈ l, f x = f s ↔ x = s) :
    (l.map f).splitOn (f s) = (l.splitOn s).map (List.map f) := by
  induction l with
  | nil => simp
  | cons c l ih =>
      have hc := h c (List.mem_cons_self ..)
      rw [List.map_cons, List.splitOn_cons_eq_if_modifyHead, List.splitOn_cons_eq_if_modifyHead,
        ih fun x hx => h x (List.mem_cons_of_mem _ hx)]
      by_cases hcs : c = s
      · simp [hcs]
      · have hne : f c ≠ f s := fun heq => hcs (hc.1 heq)
        cases hsplit : l.splitOn s with
        | nil => exact absurd hsplit (List.splitOn_ne_nil s l)
        | cons head tail => simp [hcs, hne]

/-- A property of the separator holds throughout a list when it holds in its pieces. -/
theorem all_splitOn {q : α → Bool} (hsep : q sep = true) (l : List α) :
    (l.splitOn sep).all (fun piece => piece.all q) = l.all q := by
  induction l with
  | nil => simp
  | cons c l ih =>
      rw [List.splitOn_cons_eq_if_modifyHead, List.all_cons, ← ih]
      by_cases hc : c = sep
      · simp [hc, hsep]
      · cases hsplit : l.splitOn sep with
        | nil => exact absurd hsplit (List.splitOn_ne_nil sep l)
        | cons head tail => simp [hc, Bool.and_assoc]

/-- One more element behind a list goes to its last piece. -/
theorem splitOn_concat {c : α} (hc : c ≠ sep) (l : List α) :
    ∃ pieces last, l.splitOn sep = pieces ++ [last] ∧
      (l ++ [c]).splitOn sep = pieces ++ [last ++ [c]] := by
  induction l with
  | nil => exact ⟨[], [], by simp, by simp [List.splitOn_cons_eq_if_modifyHead, hc]⟩
  | cons d l ih =>
      obtain ⟨pieces, last, hl, hlc⟩ := ih
      rw [List.cons_append, List.splitOn_cons_eq_if_modifyHead,
        List.splitOn_cons_eq_if_modifyHead, hl, hlc]
      by_cases hd : d = sep
      · exact ⟨[] :: pieces, last, by simp [hd], by simp [hd]⟩
      · cases pieces with
        | nil => exact ⟨[], d :: last, by simp [hd], by simp [hd]⟩
        | cons head tail => exact ⟨(d :: head) :: tail, last, by simp [hd], by simp [hd]⟩

theorem map_strip_splitOn_concat (hsep : p sep = false) {c : α} (hc : p c = true)
    (l : List α) :
    ((l ++ [c]).splitOn sep).map (strip p) = (l.splitOn sep).map (strip p) := by
  have hne : c ≠ sep := by
    rintro rfl
    rw [hc] at hsep
    cases hsep
  obtain ⟨pieces, last, hl, hlc⟩ := splitOn_concat hne l
  simp [hl, hlc, strip_concat hc]

theorem map_strip_splitOn_cons (hsep : p sep = false) {c : α} (hc : p c = true)
    (l : List α) :
    ((c :: l).splitOn sep).map (strip p) = (l.splitOn sep).map (strip p) := by
  have hne : c ≠ sep := by
    rintro rfl
    rw [hc] at hsep
    cases hsep
  cases hl : l.splitOn sep with
  | nil => exact absurd hl (List.splitOn_ne_nil sep l)
  | cons head tail => simp [List.splitOn_cons_eq_if_modifyHead, hne, hl, strip_cons hc]

/-- The ends of a list do not show in its stripped pieces. -/
theorem map_strip_splitOn_pad (hsep : p sep = false) {a b : List α}
    (ha : ∀ x ∈ a, p x = true) (hb : ∀ x ∈ b, p x = true) (l : List α) :
    ((a ++ l ++ b).splitOn sep).map (strip p) = (l.splitOn sep).map (strip p) := by
  have hback : ((a ++ l ++ b).splitOn sep).map (strip p) =
      ((a ++ l).splitOn sep).map (strip p) := by
    induction b using List.reverseRecOn with
    | nil => rw [List.append_nil]
    | append_singleton b c ih =>
        rw [← List.append_assoc, map_strip_splitOn_concat hsep (hb c (by simp))]
        exact ih fun x hx => hb x (List.mem_append_left _ hx)
  rw [hback]
  clear hback
  induction a with
  | nil => rfl
  | cons c a ih =>
      rw [List.cons_append, map_strip_splitOn_cons hsep (ha c (List.mem_cons_self ..))]
      exact ih fun x hx => ha x (List.mem_cons_of_mem _ hx)

theorem map_strip_splitOn_strip (hsep : p sep = false) (l : List α) :
    ((strip p l).splitOn sep).map (strip p) = (l.splitOn sep).map (strip p) := by
  obtain ⟨a, b, hl, ha, hb⟩ := exists_pad p l
  have hpad := map_strip_splitOn_pad hsep ha hb (strip p l)
  rw [← hl] at hpad
  exact hpad.symm

end Pieces

/-! ## White space -/

/-- The white space and the line ends of JavaScript. -/
def isWhiteSpace (c : Char) : Bool :=
  (9 ≤ c.toNat && c.toNat ≤ 13) || c.toNat == 0x20 || c.toNat == 0xA0 || c.toNat == 0x1680 ||
    (0x2000 ≤ c.toNat && c.toNat ≤ 0x200A) || c.toNat == 0x2028 || c.toNat == 0x2029 ||
    c.toNat == 0x202F || c.toNat == 0x205F || c.toNat == 0x3000 || c.toNat == 0xFEFF

def jsTrim (s : List Char) : List Char := strip isWhiteSpace s

end Strip
