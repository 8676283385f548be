import Mathlib.Algebra.BigOperators.Group.Finset.Basic
import Mathlib.Algebra.Order.BigOperators.Group.Finset
import Mathlib.Data.Fintype.EquivFin
import Mathlib.Data.List.Pairwise
import Mathlib.Data.Set.Card
import Mathlib.Logic.Relation
import Mathlib.Order.WellFounded

/-!
# Folding a shared graph in place

Each node of a finite graph has a value and a list of pending edges.  Folding a node takes
its edges away and then, edge by edge, folds the node at the other end and absorbs its
value.  Nodes are shared, and the graph may have cycles.

This file gives

* `fold_terminates`, `fold_mono`: folding comes to an end, with more fuel than there are
  pending edges;
* `unfold`: the value of a node where the graph is a tree;
* `fold_folds`: in an acyclic graph folding gives every node it reaches its unfolded value,
  and leaves the unfolded values as they are;
* `pathsFrom`, `mem_pathsFrom`, `pathsFrom_sorted`, `unfold_collect`: what is collected from
  the nodes, path by path and in the order of the paths.
-/

namespace Folding

variable {ι α β : Type}

structure Node (ι α β : Type) where
  value : α
  /-- the edges that are still to be followed, in order -/
  pending : List (β × ι)

abbrev Graph (ι α β : Type) := ι → Node ι α β

section Fold

variable [DecidableEq ι] (absorb : α → β → α → α)

/-- The edges of a node are taken away. -/
def clear (g : Graph ι α β) (i : ι) : Graph ι α β :=
  Function.update g i { g i with pending := [] }

/-- A node absorbs the value of another one. -/
def take (g : Graph ι α β) (i : ι) (b : β) (j : ι) : Graph ι α β :=
  Function.update g i { g i with value := absorb (g i).value b (g j).value }

/-- The edges of `i`, one after the other.  A node that would absorb itself does not come to
an end. -/
def foldLoop (f : Graph ι α β → ι → Option (Graph ι α β)) (i : ι) :
    Graph ι α β → List (β × ι) → Option (Graph ι α β)
  | g, [] => some g
  | g, e :: es =>
      if e.2 = i then none
      else (f g e.2).bind fun g' => foldLoop f i (take absorb g' i e.1 e.2) es

/-- The number bounds the depth of the recursion. -/
def fold : Nat → Graph ι α β → ι → Option (Graph ι α β)
  | 0, _, _ => none
  | fuel + 1, g, i => foldLoop absorb (fold fuel) i (clear g i) (g i).pending

end Fold

/-! ## Termination -/

section Termination

/-- No node has an edge to itself. -/
def NoSelf (g : Graph ι α β) : Prop := ∀ i, ∀ e ∈ (g i).pending, e.2 ≠ i

/-- Edges are taken away node by node. -/
def Shrinks (g g' : Graph ι α β) : Prop :=
  ∀ j, (g' j).pending = (g j).pending ∨ (g' j).pending = []

theorem Shrinks.refl (g : Graph ι α β) : Shrinks g g := fun _ => Or.inl rfl

theorem Shrinks.trans {g g' g'' : Graph ι α β} (h : Shrinks g g') (h' : Shrinks g' g'') :
    Shrinks g g'' := by
  intro j
  rcases h' j with hsame | hnil
  · rw [hsame]
    exact h j
  · exact Or.inr hnil

theorem Shrinks.subset {g g' : Graph ι α β} (h : Shrinks g g') (j : ι) :
    (g' j).pending ⊆ (g j).pending := by
  rcases h j with hsame | hnil
  · rw [hsame]
    exact List.Subset.refl _
  · rw [hnil]
    exact List.nil_subset _

theorem Shrinks.noSelf {g g' : Graph ι α β} (h : Shrinks g g') (hself : NoSelf g) :
    NoSelf g' := fun i e he => hself i e (h.subset i he)

variable [DecidableEq ι] {absorb : α → β → α → α}

theorem shrinks_clear (g : Graph ι α β) (i : ι) : Shrinks g (clear g i) := by
  intro j
  by_cases hj : j = i
  · subst hj
    exact Or.inr (by rw [clear, Function.update_self])
  · exact Or.inl (by rw [clear, Function.update_of_ne hj])

theorem shrinks_take (g : Graph ι α β) (i : ι) (b : β) (j : ι) :
    Shrinks g (take absorb g i b j) := by
  intro l
  by_cases hl : l = i
  · subst hl
    exact Or.inl (by rw [take, Function.update_self])
  · exact Or.inl (by rw [take, Function.update_of_ne hl])

variable [Fintype ι]

/-- How many edges are pending. -/
def count (g : Graph ι α β) : Nat := ∑ i, (g i).pending.length

omit [DecidableEq ι] in
theorem Shrinks.count_le {g g' : Graph ι α β} (h : Shrinks g g') : count g' ≤ count g := by
  refine Finset.sum_le_sum fun j _ => ?_
  rcases h j with hsame | hnil
  · rw [hsame]
  · rw [hnil]
    exact Nat.zero_le _

theorem count_clear {g : Graph ι α β} {i : ι} (h : (g i).pending ≠ []) :
    count (clear g i) < count g := by
  refine Finset.sum_lt_sum (fun j _ => ?_) ⟨i, Finset.mem_univ i, ?_⟩
  · rcases shrinks_clear g i j with hsame | hnil
    · rw [hsame]
    · rw [hnil]
      exact Nat.zero_le _
  · rw [clear, Function.update_self]
    exact List.length_pos_of_ne_nil h

theorem foldLoop_terminates {fuel : Nat} {i : ι} {es : List (β × ι)} {g : Graph ι α β}
    (hfold : ∀ g : Graph ι α β, NoSelf g → count g < fuel → ∀ j,
      ∃ g', fold absorb fuel g j = some g' ∧ Shrinks g g')
    (hself : NoSelf g) (hcount : es ≠ [] → count g < fuel) (hes : ∀ e ∈ es, e.2 ≠ i) :
    ∃ g', foldLoop absorb (fold absorb fuel) i g es = some g' ∧ Shrinks g g' := by
  induction es generalizing g with
  | nil => exact ⟨g, rfl, Shrinks.refl g⟩
  | cons e es ih =>
      have hlt := hcount (List.cons_ne_nil e es)
      obtain ⟨g₁, hg₁, hshrinks⟩ := hfold g hself hlt e.2
      have htake : Shrinks g (take absorb g₁ i e.1 e.2) :=
        hshrinks.trans (shrinks_take g₁ i e.1 e.2)
      obtain ⟨g', hg', hrest⟩ := ih (htake.noSelf hself)
        (fun _ => lt_of_le_of_lt htake.count_le hlt)
        (fun e' he' => hes e' (List.mem_cons_of_mem e he'))
      refine ⟨g', ?_, htake.trans hrest⟩
      rw [foldLoop, if_neg (hes e (List.mem_cons_self ..)), hg₁]
      exact hg'

/-- More fuel than there are pending edges is enough. -/
theorem fold_terminates {fuel : Nat} {g : Graph ι α β} (hself : NoSelf g)
    (hcount : count g < fuel) (i : ι) :
    ∃ g', fold absorb fuel g i = some g' ∧ Shrinks g g' := by
  induction fuel generalizing g i with
  | zero => exact absurd hcount (Nat.not_lt_zero _)
  | succ fuel ih =>
      have hclear := shrinks_clear g i
      obtain ⟨g', hg', hshrinks⟩ := foldLoop_terminates
        (fun g hself hcount j => ih hself hcount j) (hclear.noSelf hself)
        (fun hne => lt_of_lt_of_le (count_clear hne) (Nat.le_of_lt_succ hcount))
        (hself i)
      exact ⟨g', hg', hclear.trans hshrinks⟩

end Termination

section Mono

variable [DecidableEq ι] {absorb : α → β → α → α}

theorem foldLoop_mono {f f' : Graph ι α β → ι → Option (Graph ι α β)}
    (hf : ∀ g j g', f g j = some g' → f' g j = some g') {i : ι} {es : List (β × ι)}
    {g g' : Graph ι α β} (h : foldLoop absorb f i g es = some g') :
    foldLoop absorb f' i g es = some g' := by
  induction es generalizing g with
  | nil => exact h
  | cons e es ih =>
      rw [foldLoop] at h ⊢
      obtain ⟨hne, h⟩ := Option.ite_none_left_eq_some.1 h
      obtain ⟨g₁, hg₁, h⟩ := Option.bind_eq_some_iff.1 h
      rw [if_neg hne, hf g e.2 g₁ hg₁]
      exact ih h

/-- More fuel does not change the result. -/
theorem fold_mono {fuel fuel' : Nat} (hle : fuel ≤ fuel') {g g' : Graph ι α β} {i : ι}
    (h : fold absorb fuel g i = some g') : fold absorb fuel' g i = some g' := by
  induction fuel generalizing fuel' g i g' with
  | zero => cases h
  | succ fuel ih =>
      obtain ⟨n, rfl⟩ : ∃ n, fuel' = n + 1 := ⟨fuel' - 1, by omega⟩
      exact foldLoop_mono (fun g j g' => ih (Nat.le_of_succ_le_succ hle)) h

end Mono

/-! ## Acyclic graphs -/

/-- There is an edge from the first node to the second one. -/
def Edge (g : Graph ι α β) (i j : ι) : Prop := ∃ b, (b, j) ∈ (g i).pending

/-- No path leads back to where it starts. -/
def Acyclic (g : Graph ι α β) : Prop := ∀ i, ¬ Relation.TransGen (Edge g) i i

/-- Edges lead to smaller numbers. -/
def Ranked (rank : ι → Nat) (g : Graph ι α β) : Prop :=
  ∀ i, ∀ e ∈ (g i).pending, rank e.2 < rank i

/-- The nodes below a node, counted. -/
theorem Acyclic.exists_ranked [Finite ι] {g : Graph ι α β} (h : Acyclic g) :
    ∃ rank, Ranked rank g := by
  refine ⟨fun i => Set.ncard {j | Relation.TransGen (Edge g) i j}, fun i e he => ?_⟩
  have hedge : Edge g i e.2 := ⟨e.1, he⟩
  refine Set.ncard_lt_ncard ⟨fun j hj => .head hedge hj, fun hsub => ?_⟩ (Set.toFinite _)
  exact h e.2 (hsub (Relation.TransGen.single hedge))

theorem Ranked.acyclic {rank : ι → Nat} {g : Graph ι α β} (h : Ranked rank g) : Acyclic g := by
  have hlt : ∀ {i j}, Relation.TransGen (Edge g) i j → rank j < rank i := by
    intro i j hij
    induction hij with
    | single hedge => exact h _ _ hedge.choose_spec
    | tail _ hedge ih => exact lt_trans (h _ _ hedge.choose_spec) ih
  exact fun i hi => lt_irrefl _ (hlt hi)

theorem Ranked.shrinks {rank : ι → Nat} {g g' : Graph ι α β} (h : Ranked rank g)
    (hshrinks : Shrinks g g') : Ranked rank g' := fun i e he => h i e (hshrinks.subset i he)

section Unfold

variable (absorb : α → β → α → α)

/-- The value of a node with everything below it, down to a depth. -/
def unfold (g : Graph ι α β) : Nat → ι → α
  | 0, i => (g i).value
  | n + 1, i => (g i).pending.foldl (fun v e => absorb v e.1 (unfold g n e.2)) (g i).value

/-- The value of a node with everything below it. -/
def flat (rank : ι → Nat) (g : Graph ι α β) (i : ι) : α := unfold absorb g (rank i) i

variable {absorb} {rank : ι → Nat}

theorem foldl_congr {f f' : α → β × ι → α} {es : List (β × ι)} (h : ∀ e ∈ es, ∀ v, f v e = f' v e)
    (v : α) : es.foldl f v = es.foldl f' v := by
  induction es generalizing v with
  | nil => rfl
  | cons e es ih =>
      rw [List.foldl_cons, List.foldl_cons, h e (List.mem_cons_self ..)]
      exact ih (fun e' he' => h e' (List.mem_cons_of_mem e he')) _

/-- Any depth that is enough. -/
theorem unfold_eq_flat {g : Graph ι α β} (hg : Ranked rank g) {n : Nat} {i : ι}
    (hn : rank i ≤ n) : unfold absorb g n i = flat absorb rank g i := by
  induction n using Nat.strong_induction_on generalizing i with
  | _ n ih =>
      cases hi : rank i with
      | zero =>
          have hnil : (g i).pending = [] := by
            rw [List.eq_nil_iff_forall_not_mem]
            intro e he
            have hlt := hg i e he
            omega
          cases n with
          | zero => rw [flat, hi]
          | succ n => rw [flat, hi, unfold, unfold, hnil, List.foldl_nil]
      | succ r =>
          obtain ⟨m, rfl⟩ : ∃ m, n = m + 1 := ⟨n - 1, by omega⟩
          rw [flat, hi, unfold, unfold]
          refine foldl_congr (fun e he v => ?_) _
          have hlt := hg i e he
          rw [ih m (by omega) (by omega), ih r (by omega) (by omega)]

theorem flat_eq {g : Graph ι α β} (hg : Ranked rank g) (i : ι) :
    flat absorb rank g i =
      (g i).pending.foldl (fun v e => absorb v e.1 (flat absorb rank g e.2)) (g i).value := by
  rw [← unfold_eq_flat hg (Nat.le_succ (rank i)), unfold]
  exact foldl_congr (fun e he v => by rw [unfold_eq_flat hg (Nat.le_of_lt (hg i e he))]) _

/-- A node that has been folded, or not. -/
def Folded (absorb : α → β → α → α) (rank : ι → Nat) (g k : Graph ι α β) (j : ι) : Prop :=
  k j = g j ∨ k j = ⟨flat absorb rank g j, []⟩

theorem Ranked.folded {g k : Graph ι α β} (hg : Ranked rank g)
    (hk : ∀ j, Folded absorb rank g k j) : Ranked rank k := by
  intro i e he
  rcases hk i with hsame | hfolded
  · rw [hsame] at he
    exact hg i e he
  · rw [hfolded] at he
    cases he

/-- Nodes that have been folded keep what is unfolded. -/
theorem flat_folded {g k : Graph ι α β} (hg : Ranked rank g) (hk : Ranked rank k) {r : Nat}
    (h : ∀ j, rank j < r → Folded absorb rank g k j) {j : ι} (hj : rank j < r) :
    flat absorb rank k j = flat absorb rank g j := by
  induction hr : rank j using Nat.strong_induction_on generalizing j with
  | _ n ih =>
      subst hr
      rw [flat_eq hk]
      rcases h j hj with hsame | hfolded
      · rw [hsame, flat_eq hg j]
        refine foldl_congr (fun e he v => ?_) _
        have hlt := hg j e he
        rw [ih (rank e.2) hlt (hlt.trans hj) rfl]
      · rw [hfolded, List.foldl_nil]

variable [DecidableEq ι]

/-- Where the loop of node `i` stands that has followed the edges in `done`. -/
structure Loop (absorb : α → β → α → α) (rank : ι → Nat) (g : Graph ι α β) (i : ι)
    (done : List (β × ι)) (k : Graph ι α β) : Prop where
  self : k i = ⟨done.foldl (fun v e => absorb v e.1 (flat absorb rank g e.2)) (g i).value, []⟩
  others : ∀ j, j ≠ i → Folded absorb rank g k j
  above : ∀ j, rank i < rank j → k j = g j

theorem Loop.shrinks {g k : Graph ι α β} {i : ι} {done : List (β × ι)}
    (h : Loop absorb rank g i done k) : Shrinks g k := by
  intro j
  by_cases hj : j = i
  · subst hj
    exact Or.inr (by rw [h.self])
  · rcases h.others j hj with hsame | hfolded
    · exact Or.inl (by rw [hsame])
    · exact Or.inr (by rw [hfolded])

/-- What folding does in an acyclic graph. -/
structure Folds (absorb : α → β → α → α) (rank : ι → Nat) (g : Graph ι α β) (i : ι)
    (k : Graph ι α β) : Prop where
  self : k i = ⟨flat absorb rank g i, []⟩
  others : ∀ j, Folded absorb rank g k j
  above : ∀ j, rank i < rank j → k j = g j

/-- One edge is followed. -/
theorem Loop.step {g k k' : Graph ι α β} {i : ι} {done : List (β × ι)} {e : β × ι}
    (hg : Ranked rank g) (h : Loop absorb rank g i done k) (he : rank e.2 < rank i)
    (hfold : Folds absorb rank k e.2 k') :
    Loop absorb rank g i (done ++ [e]) (take absorb k' i e.1 e.2) := by
  have hk := hg.shrinks h.shrinks
  have hbelow : ∀ j, rank j < rank i → Folded absorb rank g k j := fun j hj =>
    h.others j fun hji => by rw [hji] at hj; exact lt_irrefl _ hj
  have hflat : ∀ j, rank j < rank i → flat absorb rank k j = flat absorb rank g j := fun j hj =>
    flat_folded hg hk hbelow hj
  have hself : k' i = k i := hfold.above i he
  constructor
  · rw [take, Function.update_self, hself, h.self, hfold.self, hflat e.2 he]
    simp
  · intro j hj
    rw [Folded, take, Function.update_of_ne hj]
    rcases Nat.lt_or_ge (rank e.2) (rank j) with hlt | hge
    · rw [hfold.above j hlt]
      exact h.others j hj
    · rcases hfold.others j with hsame | hfolded
      · rw [hsame]
        exact h.others j hj
      · rw [hfolded, hflat j (lt_of_le_of_lt hge he)]
        exact Or.inr rfl
  · intro j hj
    have hne : j ≠ i := fun hji => by rw [hji] at hj; exact lt_irrefl _ hj
    rw [take, Function.update_of_ne hne, hfold.above j (he.trans hj)]
    exact h.above j hj

theorem Loop.run {f : Graph ι α β → ι → Option (Graph ι α β)}
    (hf : ∀ k j k', Ranked rank k → f k j = some k' → Folds absorb rank k j k')
    {g k k' : Graph ι α β} {i : ι} {done rest : List (β × ι)} (hg : Ranked rank g)
    (h : Loop absorb rank g i done k) (hrest : ∀ e ∈ rest, rank e.2 < rank i)
    (hrun : foldLoop absorb f i k rest = some k') :
    Loop absorb rank g i (done ++ rest) k' := by
  induction rest generalizing done k with
  | nil =>
      obtain rfl := Option.some.inj hrun
      rw [List.append_nil]
      exact h
  | cons e rest ih =>
      rw [foldLoop] at hrun
      obtain ⟨-, hrun⟩ := Option.ite_none_left_eq_some.1 hrun
      obtain ⟨k₁, hk₁, hrun⟩ := Option.bind_eq_some_iff.1 hrun
      have hfold := hf k e.2 k₁ (hg.shrinks h.shrinks) hk₁
      have hstep := h.step hg (hrest e (List.mem_cons_self ..)) hfold
      have hdone := ih hstep (fun e' he' => hrest e' (List.mem_cons_of_mem e he')) hrun
      rw [List.append_assoc] at hdone
      exact hdone

/-- Folding a node gives it its unfolded value. -/
theorem fold_folds {fuel : Nat} {g k : Graph ι α β} {i : ι} (hg : Ranked rank g)
    (hrun : fold absorb fuel g i = some k) : Folds absorb rank g i k := by
  induction fuel generalizing g i k with
  | zero => cases hrun
  | succ fuel ih =>
      have hstart : Loop absorb rank g i [] (clear g i) := by
        refine ⟨by rw [clear, Function.update_self]; rfl, fun j hj => ?_, fun j hj => ?_⟩
        · exact Or.inl (by rw [clear, Function.update_of_ne hj])
        · have hne : j ≠ i := fun hji => by rw [hji] at hj; exact lt_irrefl _ hj
          rw [clear, Function.update_of_ne hne]
      have hdone := hstart.run (fun k j k' hk => ih hk) hg (hg i) hrun
      have hself : k i = ⟨flat absorb rank g i, []⟩ := by
        rw [hdone.self, flat_eq hg, List.nil_append]
      refine ⟨hself, fun j => ?_, hdone.above⟩
      by_cases hj : j = i
      · subst hj
        exact Or.inr hself
      · exact hdone.others j hj

/-- Folding other nodes before changes nothing. -/
theorem foldAll_folded {fuel : Nat} {g k k' : Graph ι α β} (hg : Ranked rank g)
    (hk : ∀ j, Folded absorb rank g k j) {nodes : List ι}
    (hrun : nodes.foldlM (fold absorb fuel) k = some k') : ∀ j, Folded absorb rank g k' j := by
  induction nodes generalizing k with
  | nil =>
      obtain rfl := Option.some.inj hrun
      exact hk
  | cons i nodes ih =>
      rw [List.foldlM_cons] at hrun
      obtain ⟨k₁, hk₁, hrun⟩ := Option.bind_eq_some_iff.1 hrun
      refine ih (fun j => ?_) hrun
      rcases (fold_folds (hg.folded hk) hk₁).others j with hsame | hfolded
      · rw [Folded, hsame]
        exact hk j
      · rw [Folded, hfolded, flat_folded hg (hg.folded hk) (fun j _ => hk j) (Nat.lt_succ_self _)]
        exact Or.inr rfl

end Unfold

/-! ## Paths -/

/-- The edges, each with its number and its label, lead from one node to the other. -/
inductive Path (g : Graph ι α β) : ι → List (Nat × β) → ι → Prop
  | here (i : ι) : Path g i [] i
  | step {i j t : ι} {n : Nat} {b : β} {es : List (Nat × β)} :
      (g i).pending[n]? = some (b, j) → Path g j es t → Path g i ((n, b) :: es) t

/-- The paths from a node, down to a depth: its own one first, then edge by edge. -/
def pathsFrom (g : Graph ι α β) : Nat → ι → List (List (Nat × β) × ι)
  | 0, i => [([], i)]
  | n + 1, i =>
      ([], i) :: (g i).pending.zipIdx.flatMap fun e =>
        (pathsFrom g n e.1.2).map fun p => ((e.2, e.1.1) :: p.1, p.2)

/-- Paths are ordered by the numbers of their edges; one goes before those that it begins. -/
def Before (p q : List (Nat × β) × ι) : Prop :=
  List.Lex (· < ·) (p.1.map Prod.fst) (q.1.map Prod.fst)

variable {rank : ι → Nat}

theorem mem_pathsFrom {g : Graph ι α β} (hg : Ranked rank g) {n : Nat} {i : ι}
    (hn : rank i ≤ n) {es : List (Nat × β)} {t : ι} :
    (es, t) ∈ pathsFrom g n i ↔ Path g i es t := by
  induction n generalizing i es with
  | zero =>
      rw [pathsFrom, List.mem_singleton, Prod.mk.injEq]
      constructor
      · rintro ⟨rfl, rfl⟩
        exact .here t
      · intro h
        cases h with
        | here => exact ⟨rfl, rfl⟩
        | step hedge _ =>
            have hlt := hg i _ (List.mem_of_getElem? hedge)
            omega
  | succ n ih =>
      rw [pathsFrom, List.mem_cons, List.mem_flatMap]
      constructor
      · rintro (hself | ⟨⟨⟨b, j⟩, m⟩, he, hp⟩)
        · obtain ⟨rfl, rfl⟩ := Prod.mk.inj hself
          exact .here t
        · obtain ⟨⟨es', t'⟩, hpath, heq⟩ := List.mem_map.1 hp
          obtain ⟨rfl, rfl⟩ := Prod.mk.inj heq
          have hedge : (g i).pending[m]? = some (b, j) := List.mem_zipIdx_iff_getElem?.1 he
          have hlt : rank j < rank i := hg i _ (List.mem_of_getElem? hedge)
          have hj : rank j ≤ n := by omega
          exact .step hedge ((ih hj).1 hpath)
      · intro h
        cases h with
        | here => exact Or.inl rfl
        | @step _ j _ m b es hedge hpath =>
            have hlt : rank j < rank i := hg i _ (List.mem_of_getElem? hedge)
            have hj : rank j ≤ n := by omega
            refine Or.inr ⟨((b, j), m), List.mem_zipIdx_iff_getElem?.2 hedge, ?_⟩
            exact List.mem_map.2 ⟨(es, t), (ih hj).2 hpath, rfl⟩

theorem pathsFrom_sorted (g : Graph ι α β) (n : Nat) (i : ι) :
    (pathsFrom g n i).Pairwise Before := by
  induction n generalizing i with
  | zero => exact List.pairwise_singleton _ _
  | succ n ih =>
      rw [pathsFrom, List.pairwise_cons]
      constructor
      · intro p hp
        obtain ⟨e, -, hp⟩ := List.mem_flatMap.1 hp
        obtain ⟨q, -, rfl⟩ := List.mem_map.1 hp
        exact .nil
      · rw [List.pairwise_flatMap]
        constructor
        · intro e _
          rw [List.pairwise_map]
          exact (ih e.1.2).imp fun h => .cons h
        · have hindex : (g i).pending.zipIdx.Pairwise fun a b => a.2 < b.2 := by
            rw [← List.pairwise_map (f := Prod.snd) (R := (· < ·)), List.zipIdx_map_snd]
            exact List.pairwise_lt_range'
          refine hindex.imp fun hlt p hp q hq => ?_
          obtain ⟨p, -, rfl⟩ := List.mem_map.1 hp
          obtain ⟨q, -, rfl⟩ := List.mem_map.1 hq
          exact .rel hlt

section Collect

variable {absorb : α → β → α → α} {γ : Type} (list : α → List γ) {under : β → γ → γ}

theorem list_foldl_absorb
    (habsorb : ∀ v b w, list (absorb v b w) = list v ++ (list w).map (under b))
    (es : List (β × ι)) (value : ι → α) (v : α) :
    list (es.foldl (fun v e => absorb v e.1 (value e.2)) v) =
      list v ++ es.flatMap fun e => (list (value e.2)).map (under e.1) := by
  induction es generalizing v with
  | nil => simp
  | cons e es ih => rw [List.foldl_cons, ih, habsorb, List.flatMap_cons, List.append_assoc]

/-- What is collected from a node: path by path, what the node at its end has, under the
labels of the path. -/
theorem unfold_collect
    (habsorb : ∀ v b w, list (absorb v b w) = list v ++ (list w).map (under b))
    (g : Graph ι α β) (n : Nat) (i : ι) :
    list (unfold absorb g n i) = (pathsFrom g n i).flatMap fun p =>
      (list (g p.2).value).map fun x => p.1.foldr (fun e x => under e.2 x) x := by
  induction n generalizing i with
  | zero => simp [unfold, pathsFrom]
  | succ n ih =>
      rw [unfold, list_foldl_absorb list habsorb, pathsFrom, List.flatMap_cons]
      congr 1
      · simp
      · -- the numbers of the edges do not matter here
        have hindex := List.flatMap_map (Prod.fst : (β × ι) × Nat → β × ι)
          (fun e => (list (unfold absorb g n e.2)).map (under e.1)) (g i).pending.zipIdx
        rw [List.zipIdx_map_fst] at hindex
        rw [hindex, List.flatMap_assoc]
        refine List.flatMap_congr fun e _ => ?_
        rw [ih, List.flatMap_map, List.map_flatMap]
        simp [Function.comp_def]

end Collect

end Folding
