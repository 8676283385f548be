import Mathlib.Algebra.BigOperators.Group.List.Basic
import Mathlib.Algebra.Order.Ring.Nat
import Mathlib.Data.List.Induction
import Mathlib.Data.Option.Defs
import Mathlib.Tactic.Common

/-!
# Runs of labelled partial transitions

A system is a partial step function `step : σ → ι → Option σ`: a label is an
action of one of the parties (or a choice of the environment), and `none` says
that the action is not enabled.  An interleaving of any number of parties is a
list of labels.

This file gives

* `run`: execute a list of labels;
* `Along`: a condition on every step that a run takes;
* `Throughout`: a condition on every state of a run;
* the invariant rules `run_invariant`, `run_history`, `Along.invariant` and
  `Along.of_invariant`, and the rule `run_flag` for what a run has missed;
* the ranking rule `run_cost_le`: labels that pay out of a measure occur only
  boundedly often;
* the simulation rules `Along.simulates` and `run_simulates`: a run is followed,
  label by label, by a run of a more abstract system that may ignore some of the
  labels; and `run_rel` for two systems that follow each other;
* sums and counts over a pool of processes kept in a list (`sum_map_set_add`,
  `countP_set_add`).
-/

namespace Transition

variable {σ ι : Type*}

/-- Execute the labels in order; `none` when one of them is not enabled. -/
def run (step : σ → ι → Option σ) : σ → List ι → Option σ
  | s, [] => some s
  | s, l :: ls => (step s l).bind fun t => run step t ls

/-- Every step that the run of `ls` from `s` takes meets `P`, a condition on
the state before the step and the label. -/
def Along (step : σ → ι → Option σ) (P : σ → ι → Prop) : σ → List ι → Prop
  | _, [] => True
  | s, l :: ls => ∀ t, step s l = some t → P s l ∧ Along step P t ls

/-- Every state of the run of `ls` from `s`, the first and the last included,
satisfies `Q`. -/
def Throughout (step : σ → ι → Option σ) (Q : σ → Prop) (s : σ) (ls : List ι) :
    Prop :=
  ∀ ms t, ms <+: ls → run step s ms = some t → Q t

instance Along.decidable (step : σ → ι → Option σ) (P : σ → ι → Prop)
    [∀ s l, Decidable (P s l)] : ∀ s ls, Decidable (Along step P s ls)
  | _, [] => inferInstanceAs (Decidable True)
  | s, l :: ls =>
      match h : step s l with
      | none => isTrue fun t ht => by rw [h] at ht; cases ht
      | some u =>
          have : Decidable (Along step P u ls) := Along.decidable step P u ls
          decidable_of_iff (P s l ∧ Along step P u ls) (by simp [Along, h])

section Run

variable {step : σ → ι → Option σ}

@[simp] theorem run_nil (s : σ) : run step s [] = some s := rfl

@[simp] theorem run_cons (s : σ) (l : ι) (ls : List ι) :
    run step s (l :: ls) = (step s l).bind fun t => run step t ls := rfl

theorem run_cons_some {s t : σ} {l : ι} {ls : List ι} :
    run step s (l :: ls) = some t ↔
      ∃ u, step s l = some u ∧ run step u ls = some t := by
  simp [Option.bind_eq_some_iff]

theorem run_append (s : σ) (ls ms : List ι) :
    run step s (ls ++ ms) = (run step s ls).bind fun t => run step t ms := by
  induction ls generalizing s with
  | nil => rfl
  | cons l ls ih =>
      simp only [List.cons_append, run_cons, Option.bind_assoc]
      exact congrArg _ (funext fun t => ih t)

/-- A step that is always enabled is folded over the labels. -/
theorem run_of_total (f : σ → ι → σ) (s : σ) (ls : List ι) :
    run (fun s l => some (f s l)) s ls = some (ls.foldl f s) := by
  induction ls generalizing s with
  | nil => rfl
  | cons l ls ih => exact ih (f s l)

theorem run_append_some {s t : σ} {ls ms : List ι} :
    run step s (ls ++ ms) = some t ↔
      ∃ u, run step s ls = some u ∧ run step u ms = some t := by
  rw [run_append, Option.bind_eq_some_iff]

theorem run_concat_some {s t : σ} {ls : List ι} {l : ι} :
    run step s (ls ++ [l]) = some t ↔
      ∃ u, run step s ls = some u ∧ step u l = some t := by
  rw [run_append_some]
  simp

end Run

section Invariants

variable {step : σ → ι → Option σ} {P : σ → ι → Prop} {I Q : σ → Prop}

/-- A property that every step keeps holds after every run. -/
theorem run_invariant
    (hstep : ∀ s l t, I s → step s l = some t → I t)
    {s t : σ} {ls : List ι}
    (hs : I s) (hrun : run step s ls = some t) : I t := by
  induction ls generalizing s with
  | nil =>
      obtain rfl := Option.some.inj hrun
      exact hs
  | cons l ls ih =>
      obtain ⟨u, hu, hut⟩ := run_cons_some.1 hrun
      exact ih (hstep s l u hs hu) hut

/-- The same for a property that speaks of the labels so far. -/
theorem run_history {J : σ → List ι → Prop} {s : σ} (hs : J s [])
    (hstep : ∀ t ls l u, J t ls → step t l = some u → J u (ls ++ [l]))
    {t : σ} {ls : List ι} (hrun : run step s ls = some t) : J t ls := by
  induction ls using List.reverseRecOn generalizing t with
  | nil =>
      obtain rfl := Option.some.inj hrun
      exact hs
  | append_singleton ls l ih =>
      obtain ⟨u, hu, hut⟩ := run_concat_some.1 hrun
      exact hstep u ls l t (ih hu) hut

/-- `Along` spelled out. -/
theorem along_iff {s : σ} {ls : List ι} :
    Along step P s ls ↔
      ∀ ms l t u, ms ++ [l] <+: ls → run step s ms = some t →
        step t l = some u → P t l := by
  induction ls generalizing s with
  | nil =>
      simp only [Along, List.prefix_nil, true_iff]
      intro ms l t u h
      simp at h
  | cons a ls ih =>
      constructor
      · intro h ms l t u hms hrun hstep
        cases ms with
        | nil =>
            obtain rfl := Option.some.inj hrun
            obtain ⟨rfl, _⟩ := List.cons_prefix_cons.1 hms
            exact (h u hstep).1
        | cons m ms =>
            obtain ⟨rfl, hms'⟩ := List.cons_prefix_cons.1 hms
            obtain ⟨v, hv, hvt⟩ := run_cons_some.1 hrun
            exact ih.1 (h v hv).2 ms l t u hms' hvt hstep
      · intro h v hv
        refine ⟨h [] a s v ⟨ls, rfl⟩ rfl hv, ih.2 ?_⟩
        intro ms l t u hms hrun hstep
        exact h (a :: ms) l t u (List.cons_prefix_cons.2 ⟨rfl, hms⟩)
          (run_cons_some.2 ⟨v, hv, hrun⟩) hstep

theorem along_cons_of_eq {s t : σ} {l : ι} {ls : List ι} (h : step s l = some t) :
    Along step P s (l :: ls) ↔ P s l ∧ Along step P t ls := by
  constructor
  · exact fun hal => hal t h
  · intro hal u hu
    obtain rfl := Option.some.inj (h.symm.trans hu)
    exact hal

theorem Along.of_isPrefix {s : σ} {ls ms : List ι}
    (h : Along step P s ls) (hms : ms <+: ls) : Along step P s ms := by
  rw [along_iff] at h ⊢
  exact fun ns l t u hns => h ns l t u (hns.trans hms)

theorem Along.append {s t : σ} {ls ms : List ι} (hls : Along step P s ls)
    (hrun : run step s ls = some t) (hms : Along step P t ms) : Along step P s (ls ++ ms) := by
  induction ls generalizing s with
  | nil =>
      obtain rfl := Option.some.inj hrun
      exact hms
  | cons l ls ih =>
      obtain ⟨u, hu, hut⟩ := run_cons_some.1 hrun
      rw [List.cons_append, along_cons_of_eq hu]
      obtain ⟨hl, htail⟩ := (along_cons_of_eq hu).1 hls
      exact ⟨hl, ih htail hut⟩

/--
Two step conditions that agree wherever an invariant of the second one holds
agree along every run.
-/
theorem Along.of_invariant {P' : σ → ι → Prop}
    (hinv : ∀ s l t, I s → P s l → step s l = some t → I t)
    (hPP : ∀ s l t, I s → P s l → step s l = some t → P' s l)
    {s : σ} (hs : I s) {ls : List ι} (h : Along step P s ls) :
    Along step P' s ls := by
  induction ls generalizing s with
  | nil => trivial
  | cons l ls ih =>
      intro t ht
      obtain ⟨hP, htail⟩ := h t ht
      exact ⟨hPP s l t hs hP ht, ih (hinv s l t hs hP ht) htail⟩

/-- A condition that an invariant gives at every step. -/
theorem along_of_invariant
    (hstep : ∀ s l t, I s → step s l = some t → I t)
    (hP : ∀ s l t, I s → step s l = some t → P s l)
    {s : σ} (hs : I s) (ls : List ι) : Along step P s ls := by
  induction ls generalizing s with
  | nil => trivial
  | cons l ls ih => exact fun t ht => ⟨hP s l t hs ht, ih (hstep s l t hs ht)⟩

/-- The invariant rule for runs whose steps all meet `P`. -/
theorem Along.invariant
    (hstep : ∀ s l t, I s → P s l → step s l = some t → I t)
    {s t : σ} {ls : List ι} (hal : Along step P s ls)
    (hs : I s) (hrun : run step s ls = some t) : I t := by
  induction ls generalizing s with
  | nil =>
      obtain rfl := Option.some.inj hrun
      exact hs
  | cons l ls ih =>
      obtain ⟨u, hu, hut⟩ := run_cons_some.1 hrun
      obtain ⟨hP, htail⟩ := hal u hu
      exact ih htail (hstep s l u hs hP hu) hut

/-- The same for every state on the way. -/
theorem Along.throughout
    (hstep : ∀ s l t, I s → P s l → step s l = some t → I t)
    {s : σ} {ls : List ι} (hal : Along step P s ls) (hs : I s) :
    Throughout step I s ls :=
  fun _ _ hms hrun => (hal.of_isPrefix hms).invariant hstep hs hrun

/--
A flag that goes up exactly at the steps that miss `P` tells, after the run, whether
one of them did.  `G` is what the proof keeps beside the state.
-/
theorem run_flag {G : Type*} (I B : σ → G → Prop)
    (hstep : ∀ s g l t, I s g → step s l = some t →
      ∃ g', I t g' ∧ (B t g' ↔ B s g ∨ ¬ P s l))
    {s t : σ} {g : G} {ls : List ι} (hs : I s g) (hrun : run step s ls = some t) :
    ∃ g', I t g' ∧ (B t g' ↔ B s g ∨ ¬ Along step P s ls) := by
  induction ls generalizing s g with
  | nil =>
      obtain rfl := Option.some.inj hrun
      exact ⟨g, hs, by simp [Along]⟩
  | cons l ls ih =>
      obtain ⟨u, hu, hut⟩ := run_cons_some.1 hrun
      obtain ⟨g', hI, hB⟩ := hstep s g l u hs hu
      obtain ⟨g'', hI', hB'⟩ := ih hI hut
      refine ⟨g'', hI', hB'.trans ?_⟩
      rw [along_cons_of_eq hu, hB, not_and_or, or_assoc]

/-- What holds of every state holds of the state before each step. -/
theorem Throughout.along {s : σ} {ls : List ι} (h : Throughout step Q s ls) :
    Along step (fun s _ => Q s) s ls :=
  along_iff.2 fun ms _ t _ hms hrun _ => h ms t ((List.prefix_append ms _).trans hms) hrun

theorem throughout_of_invariant
    (hstep : ∀ s l t, I s → step s l = some t → I t)
    {s : σ} (hs : I s) (ls : List ι) : Throughout step I s ls :=
  fun _ _ _ hrun => run_invariant hstep hs hrun

theorem Throughout.mono (hIQ : ∀ s, I s → Q s) {s : σ} {ls : List ι}
    (h : Throughout step I s ls) : Throughout step Q s ls :=
  fun ms t hms hrun => hIQ t (h ms t hms hrun)

theorem throughout_cons {s : σ} {l : ι} {ls : List ι} :
    Throughout step Q s (l :: ls) ↔ Q s ∧ ∀ t, step s l = some t → Throughout step Q t ls := by
  constructor
  · intro h
    refine ⟨h [] s List.nil_prefix rfl, fun t ht ms u hms hrun => ?_⟩
    exact h (l :: ms) u (List.cons_prefix_cons.2 ⟨rfl, hms⟩) (run_cons_some.2 ⟨t, ht, hrun⟩)
  · rintro ⟨hs, htail⟩ ms u hms hrun
    cases ms with
    | nil =>
        obtain rfl := Option.some.inj hrun
        exact hs
    | cons m ms =>
        obtain ⟨rfl, hms'⟩ := List.cons_prefix_cons.1 hms
        obtain ⟨t, ht, htu⟩ := run_cons_some.1 hrun
        exact htail t ht ms u hms' htu

/--
A property that each step keeps exactly when it meets `P` holds throughout the runs
whose steps all meet it, and no others.
-/
theorem throughout_iff_along
    (hstep : ∀ s l t, I s → Q s → step s l = some t → I t ∧ (Q t ↔ P s l))
    {s : σ} (hI : I s) (hQ : Q s) (ls : List ι) :
    Throughout step Q s ls ↔ Along step P s ls := by
  induction ls generalizing s with
  | nil =>
      refine ⟨fun _ => trivial, fun _ ms u hms hrun => ?_⟩
      obtain rfl := List.prefix_nil.1 hms
      obtain rfl := Option.some.inj hrun
      exact hQ
  | cons l ls ih =>
      rw [throughout_cons]
      constructor
      · rintro ⟨-, htail⟩ t ht
        obtain ⟨hIt, hiff⟩ := hstep s l t hI hQ ht
        have hQt : Q t := htail t ht [] t List.nil_prefix rfl
        exact ⟨hiff.1 hQt, (ih hIt hQt).1 (htail t ht)⟩
      · intro h
        refine ⟨hQ, fun t ht => ?_⟩
        obtain ⟨hIt, hiff⟩ := hstep s l t hI hQ ht
        obtain ⟨hP, htail⟩ := h t ht
        exact (ih hIt (hiff.2 hP)).2 htail

theorem Throughout.last {s t : σ} {ls : List ι}
    (h : Throughout step Q s ls) (hrun : run step s ls = some t) : Q t :=
  h ls t (List.prefix_refl ls) hrun

end Invariants

section Ranking

variable {step : σ → ι → Option σ}

/--
The ranking rule.  When every step pays its `cost` out of `rank` and the
`gain` of its label, the costs of a run are bounded by the rank of its first
state and the gains.
-/
theorem run_cost_le (rank : σ → Nat) (cost gain : ι → Nat)
    (hstep : ∀ s l t, step s l = some t → rank t + cost l ≤ rank s + gain l)
    {s t : σ} {ls : List ι} (hrun : run step s ls = some t) :
    (ls.map cost).sum + rank t ≤ rank s + (ls.map gain).sum := by
  induction ls generalizing s with
  | nil =>
      obtain rfl := Option.some.inj hrun
      simp
  | cons l ls ih =>
      obtain ⟨u, hu, hut⟩ := run_cons_some.1 hrun
      have hhead := hstep s l u hu
      have htail := ih hut
      simp only [List.map_cons, List.sum_cons]
      omega

/-- A count is a sum of ones. -/
theorem countP_eq_sum (p : ι → Bool) (ls : List ι) :
    ls.countP p = (ls.map fun l => if p l then 1 else 0).sum := by
  induction ls with
  | nil => rfl
  | cons l ls ih => rw [List.countP_cons, List.map_cons, List.sum_cons, ih, Nat.add_comm]

/-- The same for labels that are counted: the rank of the first state bounds how
many a run has. -/
theorem run_countP_le (rank : σ → Nat) (p : ι → Bool)
    (hstep : ∀ s l t, step s l = some t → rank t + (if p l then 1 else 0) ≤ rank s)
    {s t : σ} {ls : List ι} (hrun : run step s ls = some t) :
    ls.countP p + rank t ≤ rank s := by
  have hcost := run_cost_le rank (fun l => if p l then 1 else 0) (fun _ => 0) hstep hrun
  rw [← countP_eq_sum] at hcost
  simpa using hcost

end Ranking

section Simulation

variable {τ κ : Type*} {step : σ → ι → Option σ} {astep : τ → κ → Option τ}

/--
The simulation rule.  `view` gives the abstract label of a label, or `none` when
the abstract system does not see it.
-/
theorem Along.simulates {P : σ → ι → Prop} (R : σ → τ → Prop) (view : ι → Option κ)
    (hskip : ∀ s l t a, R s a → P s l → step s l = some t → view l = none → R t a)
    (hstep : ∀ s l t a m, R s a → P s l → step s l = some t → view l = some m →
      ∃ b, astep a m = some b ∧ R t b)
    {s t : σ} {a : τ} {ls : List ι} (hal : Along step P s ls)
    (hR : R s a) (hrun : run step s ls = some t) :
    ∃ b, run astep a (ls.filterMap view) = some b ∧ R t b := by
  induction ls generalizing s a with
  | nil =>
      obtain rfl := Option.some.inj hrun
      exact ⟨a, rfl, hR⟩
  | cons l ls ih =>
      obtain ⟨u, hu, hut⟩ := run_cons_some.1 hrun
      obtain ⟨hP, htail⟩ := hal u hu
      cases hview : view l with
      | none =>
          rw [List.filterMap_cons_none hview]
          exact ih htail (hskip s l u a hR hP hu hview) hut
      | some m =>
          obtain ⟨b, hb, hRb⟩ := hstep s l u a m hR hP hu hview
          obtain ⟨c, hc, hRc⟩ := ih htail hRb hut
          rw [List.filterMap_cons_some hview]
          exact ⟨c, run_cons_some.2 ⟨b, hb, hc⟩, hRc⟩

/-- The same for every run. -/
theorem run_simulates (R : σ → τ → Prop) (view : ι → Option κ)
    (hskip : ∀ s l t a, R s a → step s l = some t → view l = none → R t a)
    (hstep : ∀ s l t a m, R s a → step s l = some t → view l = some m →
      ∃ b, astep a m = some b ∧ R t b)
    {s t : σ} {a : τ} {ls : List ι}
    (hR : R s a) (hrun : run step s ls = some t) :
    ∃ b, run astep a (ls.filterMap view) = some b ∧ R t b := by
  have hal : Along step (fun _ _ => True) s ls :=
    along_of_invariant (I := fun _ => True) (fun _ _ _ _ _ => trivial)
      (fun _ _ _ _ _ => trivial) trivial ls
  exact hal.simulates R view (fun s l t a hRa _ => hskip s l t a hRa)
    (fun s l t a m hRa _ => hstep s l t a m hRa) hR hrun

/-- The bisimulation rule: two systems that take the same labels from related states. -/
theorem run_rel {astep : τ → ι → Option τ} (R : σ → τ → Prop)
    (hstep : ∀ s a l, R s a → Option.Rel R (step s l) (astep a l)) {s : σ} {a : τ}
    (hR : R s a) (ls : List ι) : Option.Rel R (run step s ls) (run astep a ls) := by
  induction ls generalizing s a with
  | nil => exact .some hR
  | cons l ls ih =>
      rw [run_cons, run_cons]
      have hlabel := hstep s a l hR
      revert hlabel
      cases step s l <;> cases astep a l
      · exact fun _ => .none
      · nofun
      · nofun
      · rintro ⟨hR'⟩
        exact ih hR'

end Simulation

section Pool

variable {α : Type*}

/-- Replacing one process of a pool moves the sum of `f` by that process alone. -/
theorem sum_map_set_add (f : α → Nat) {pool : List α} {i : Nat} {a : α}
    (h : pool[i]? = some a) (b : α) :
    ((pool.set i b).map f).sum + f a = (pool.map f).sum + f b := by
  induction pool generalizing i with
  | nil => simp at h
  | cons x xs ih =>
      cases i with
      | zero =>
          obtain rfl : x = a := by simpa using h
          simp only [List.set_cons_zero, List.map_cons, List.sum_cons]
          omega
      | succ i =>
          have htail := ih (i := i) (by simpa using h)
          simp only [List.set_cons_succ, List.map_cons, List.sum_cons]
          omega

/-- The same for a count. -/
theorem countP_set_add (p : α → Bool) {pool : List α} {i : Nat} {a : α}
    (h : pool[i]? = some a) (b : α) :
    (pool.set i b).countP p + (if p a then 1 else 0) =
      pool.countP p + (if p b then 1 else 0) := by
  rw [countP_eq_sum, countP_eq_sum]
  exact sum_map_set_add (fun a => if p a then 1 else 0) h b

theorem countP_set_of_eq (p : α → Bool) {pool : List α} {i : Nat} {a b : α}
    (h : pool[i]? = some a) (hab : p a = p b) :
    (pool.set i b).countP p = pool.countP p := by
  have hset := countP_set_add p h b
  rw [hab] at hset
  omega

end Pool

end Transition
