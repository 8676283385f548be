import Mathlib.Data.List.Infix
import Mathlib.Tactic.Common

/-!
# Lists cut at a separator

`List.splitOn sep` cuts a list at each occurrence of `sep`; its pieces may be empty.
For paths the pieces that are not empty count: the `parts`.

This file gives

* `splitOn_isPrefix_iff`: the pieces of one list begin those of another one when the
  lists are equal or the second goes on with a separator;
* `parts_append_cons`: the parts of lists that are put together;
* `Dense`: no interior piece is empty; `dense_append_cons`, `splitOn_of_dense`.
-/

namespace Pieces

variable {α : Type*} [DecidableEq α] {sep : α}

/-- No piece holds the separator. -/
theorem not_mem_piece {t piece : List α} (h : piece ∈ t.splitOn sep) : sep ∉ piece := by
  induction t generalizing piece with
  | nil =>
      obtain rfl : piece = [] := by simpa using h
      simp
  | cons c t ih =>
      rw [List.splitOn_cons_eq_if_modifyHead] at h
      split at h
      case isTrue =>
        rcases List.mem_cons.1 h with rfl | h
        · simp
        · exact ih h
      case isFalse hne =>
        cases hsplit : t.splitOn sep with
        | nil => exact absurd hsplit (List.splitOn_ne_nil sep t)
        | cons head tail =>
            rw [hsplit, List.modifyHead_cons] at h
            rcases List.mem_cons.1 h with rfl | h
            · have hhead := ih (hsplit ▸ List.mem_cons_self ..)
              have hc : c ≠ sep := by simpa using hne
              simpa [hc.symm] using hhead
            · exact ih (hsplit ▸ List.mem_cons_of_mem _ h)

theorem splitOn_inj (sep : α) {s t : List α} (h : s.splitOn sep = t.splitOn sep) : s = t :=
  calc
    s = [sep].intercalate (s.splitOn sep) := (List.intercalate_splitOn sep).symm
    _ = [sep].intercalate (t.splitOn sep) := by rw [h]
    _ = t := List.intercalate_splitOn sep

/-- `t` is `s`, or goes on from `s` with a separator. -/
theorem splitOn_isPrefix_iff {s t : List α} :
    s.splitOn sep <+: t.splitOn sep ↔ t = s ∨ s ++ [sep] <+: t := by
  constructor
  · rintro ⟨rest, hrest⟩
    cases rest with
    | nil => exact Or.inl (splitOn_inj sep (by simpa using hrest.symm))
    | cons piece rest =>
        have hpieces : ∀ p ∈ piece :: rest, sep ∉ p := fun p hp =>
          not_mem_piece (hrest ▸ List.mem_append_right _ hp)
        have hjoin := List.splitOn_intercalate sep hpieces (List.cons_ne_nil _ _)
        refine Or.inr ⟨[sep].intercalate (piece :: rest), splitOn_inj sep ?_⟩
        rw [List.append_assoc, List.singleton_append, List.splitOn_append_cons_self, hjoin,
          hrest]
  · rintro (rfl | ⟨rest, rfl⟩)
    · exact List.prefix_rfl
    · rw [List.append_assoc, List.singleton_append, List.splitOn_append_cons_self]
      exact List.prefix_append _ _

/-! ## Parts -/

/-- The pieces that are not empty. -/
def parts (sep : α) (t : List α) : List (List α) := (t.splitOn sep).filter (· ≠ [])

@[simp] theorem parts_nil : parts sep [] = [] := rfl

@[simp] theorem parts_cons_self (t : List α) : parts sep (sep :: t) = parts sep t := by
  simp [parts, List.splitOn_cons_eq_if_modifyHead]

theorem parts_append_cons (s t : List α) :
    parts sep (s ++ sep :: t) = parts sep s ++ parts sep (sep :: t) := by
  rw [parts_cons_self]
  simp [parts, List.splitOn_append_cons_self]

theorem ne_nil_of_mem_parts {t piece : List α} (h : piece ∈ parts sep t) : piece ≠ [] := by
  simpa using List.of_mem_filter h

omit [DecidableEq α] in
/-- Whether lists of parts begin one another does not hang on an empty last piece. -/
theorem isPrefix_concat_nil {A B : List (List α)} (hA : ∀ s ∈ A, s ≠ []) :
    A <+: B ++ [[]] ↔ A <+: B := by
  rw [List.prefix_concat_iff]
  constructor
  · rintro (rfl | h)
    · exact absurd rfl (hA [] (by simp))
    · exact h
  · exact Or.inr

/-! ## Empty pieces -/

/-- No interior piece is empty: there may be an empty one before a leading separator and
after a trailing one. -/
def Dense (sep : α) (t : List α) : Prop := [] ∉ (t.splitOn sep).tail.dropLast

instance (t : List α) : Decidable (Dense sep t) := by
  unfold Dense
  infer_instance

/-- No piece after the first is empty. -/
def Solid (sep : α) (t : List α) : Prop := [] ∉ (t.splitOn sep).tail

theorem Solid.dense {t : List α} (h : Solid sep t) : Dense sep t :=
  fun hmem => h (List.mem_of_mem_dropLast hmem)

theorem solid_nil : Solid sep ([] : List α) := by simp [Solid]

/-- The separator alone. -/
theorem not_solid_singleton : ¬ Solid sep [sep] := by
  simp [Solid, List.splitOn_cons_eq_if_modifyHead]

theorem dense_singleton : Dense sep [sep] := by
  simp [Dense, List.splitOn_cons_eq_if_modifyHead]

theorem dense_append_cons {s t : List α} :
    Dense sep (s ++ sep :: t) ↔ Solid sep s ∧ Dense sep (sep :: t) := by
  have hs := List.splitOn_ne_nil sep s
  have ht := List.splitOn_ne_nil sep t
  have hcons : (sep :: t).splitOn sep = [] :: t.splitOn sep :=
    List.splitOn_append_cons_self [] t
  rw [Dense, Dense, Solid, List.splitOn_append_cons_self, hcons,
    List.tail_append_of_ne_nil hs, List.dropLast_append_of_ne_nil ht, List.mem_append,
    not_or, List.tail_cons]

theorem solid_append_cons {s t : List α} :
    Solid sep (s ++ sep :: t) ↔ Solid sep s ∧ Solid sep (sep :: t) := by
  have hcons : (sep :: t).splitOn sep = [] :: t.splitOn sep :=
    List.splitOn_append_cons_self [] t
  rw [Solid, Solid, Solid, List.splitOn_append_cons_self, hcons,
    List.tail_append_of_ne_nil (List.splitOn_ne_nil sep s), List.mem_append, not_or,
    List.tail_cons]

/-- A separator in front of a list that has none there. -/
theorem Dense.cons_sep {t : List α} (h : Dense sep t) (hhead : t.head? ≠ some sep) :
    Dense sep (sep :: t) := by
  cases t with
  | nil => simp [Dense, List.splitOn_cons_eq_if_modifyHead]
  | cons c t =>
      have hc : c ≠ sep := by simpa using hhead
      cases hsplit : t.splitOn sep with
      | nil => exact absurd hsplit (List.splitOn_ne_nil sep t)
      | cons head tail =>
          have hpieces : (c :: t).splitOn sep = (c :: head) :: tail := by
            rw [List.splitOn_cons_eq_if_modifyHead, if_neg (by simpa using hc), hsplit,
              List.modifyHead_cons]
          have hcons : (sep :: c :: t).splitOn sep = [] :: (c :: t).splitOn sep :=
            List.splitOn_append_cons_self [] _
          rw [Dense, hpieces, List.tail_cons] at h
          rw [Dense, hcons, hpieces, List.tail_cons]
          cases tail with
          | nil => simp
          | cons piece tail => simpa using h

/-- The last piece and the separator before it. -/
theorem isSuffix_of_splitOn {t piece : List α} {pieces : List (List α)} (hne : pieces ≠ [])
    (h : t.splitOn sep = pieces ++ [piece]) : sep :: piece <:+ t := by
  have hmem : ∀ p ∈ pieces ++ [piece], sep ∉ p := fun p hp => not_mem_piece (h ▸ hp)
  have hfront := List.splitOn_intercalate sep
    (fun p hp => hmem p (List.mem_append_left _ hp)) hne
  have hlast := List.splitOn_intercalate sep
    (fun p hp => hmem p (List.mem_append_right _ hp)) (List.cons_ne_nil piece [])
  refine ⟨[sep].intercalate pieces, splitOn_inj sep ?_⟩
  rw [List.splitOn_append_cons_self, hfront, h]
  simpa using hlast

theorem splitOn_cons_sep (t : List α) : (sep :: t).splitOn sep = [] :: t.splitOn sep :=
  List.splitOn_append_cons_self [] t

/-- The pieces of a dense list that begins with the separator. -/
theorem splitOn_of_dense {t : List α} (h : Dense sep (sep :: t)) :
    (sep :: t).splitOn sep = [] :: parts sep (sep :: t) ∨
      (sep :: t).splitOn sep = [] :: (parts sep (sep :: t) ++ [[]]) := by
  have hne := List.splitOn_ne_nil sep t
  obtain ⟨last, hlast⟩ : ∃ last, t.splitOn sep = (t.splitOn sep).dropLast ++ [last] :=
    ⟨_, (List.dropLast_append_getLast hne).symm⟩
  rw [Dense, splitOn_cons_sep, List.tail_cons] at h
  have hbefore : (t.splitOn sep).dropLast.filter (· ≠ []) = (t.splitOn sep).dropLast := by
    rw [List.filter_eq_self]
    intro piece hpiece
    simpa using fun hnil : piece = [] => h (hnil ▸ hpiece)
  have hparts : parts sep (sep :: t) =
      (t.splitOn sep).dropLast ++ [last].filter (· ≠ []) := by
    rw [parts_cons_self, parts, hlast, List.filter_append, ← hlast, hbefore]
  rw [splitOn_cons_sep, hparts]
  by_cases hnil : last = []
  · refine Or.inr ?_
    subst hnil
    simpa using hlast
  · refine Or.inl ?_
    simpa [hnil] using hlast

/-- The pieces of a solid list that begins with the separator. -/
theorem splitOn_of_solid {t : List α} (h : Solid sep (sep :: t)) :
    (sep :: t).splitOn sep = [] :: parts sep (sep :: t) := by
  rw [Solid, splitOn_cons_sep, List.tail_cons] at h
  rw [splitOn_cons_sep, parts_cons_self, parts, List.filter_eq_self.2]
  intro piece hpiece
  simpa using fun hnil : piece = [] => h (hnil ▸ hpiece)

/-- Nothing but the separator. -/
theorem eq_nil_of_parts {t : List α} (h : Dense sep (sep :: t)) (hparts : parts sep (sep :: t) = []) :
    t = [] := by
  rcases splitOn_of_dense h with heq | heq
  · rw [hparts, splitOn_cons_sep] at heq
    exact absurd (List.cons.inj heq).2 (List.splitOn_ne_nil sep t)
  · rw [hparts, splitOn_cons_sep] at heq
    exact splitOn_inj sep (by simpa using (List.cons.inj heq).2)

/-- A dense list that does not end in the separator is solid. -/
theorem Dense.solid {t : List α} (h : Dense sep (sep :: t)) (hlast : ¬ [sep] <:+ sep :: t) :
    Solid sep (sep :: t) := by
  rcases splitOn_of_dense h with heq | heq
  · rw [Solid, heq, List.tail_cons]
    exact fun hmem => ne_nil_of_mem_parts hmem rfl
  · rw [← List.cons_append] at heq
    exact absurd (isSuffix_of_splitOn (List.cons_ne_nil _ _) heq) hlast

/-- For lists without empty pieces in between, beginning one another is a matter of the
parts. -/
theorem splitOn_isPrefix_parts {s t : List α} (hs : Solid sep (sep :: s))
    (ht : Dense sep (sep :: t)) :
    (sep :: s).splitOn sep <+: (sep :: t).splitOn sep ↔
      parts sep (sep :: s) <+: parts sep (sep :: t) := by
  rw [splitOn_of_solid hs]
  rcases splitOn_of_dense ht with h | h
  · rw [h, List.cons_prefix_cons]
    exact and_iff_right rfl
  · rw [h, List.cons_prefix_cons, isPrefix_concat_nil fun _ => ne_nil_of_mem_parts]
    exact and_iff_right rfl

/-- What begins a dense list is dense. -/
theorem Dense.of_splitOn_isPrefix {s t : List α} (ht : Dense sep t)
    (h : s.splitOn sep <+: t.splitOn sep) : Dense sep s := by
  obtain ⟨rest, hrest⟩ := h
  intro hmem
  refine ht ?_
  rw [← hrest, List.tail_append_of_ne_nil (List.splitOn_ne_nil sep s)]
  by_cases hnil : rest = []
  · simpa [hnil] using hmem
  · rw [List.dropLast_append_of_ne_nil hnil]
    exact List.mem_append_left _ (List.mem_of_mem_dropLast hmem)

end Pieces
