import OxideHttp.Lib.Folding
import OxideHttp.Routing

/-!
# Mounting servers that are shared (`js/index.ts`: `route`, `#applyMounts`)

The servers of a program and what each one has mounted, by reference: a server may be mounted
several times, and mounts may lead back.  `#applyMounts` changes the servers as it goes.

Results.
* `Reachable.noSelf`: no server has mounted itself.
* `applyMounts_complete`: `#applyMounts` comes to an end, and without cycles the routes are
  those of every mount path, in order, whatever was folded before.
* `applyMounts_tree`: it then leaves the tables of the tree of apps.
-/

namespace OxideHttp
namespace Routing

open Folding

section Servers

variable {ι φ : Type} [DecidableEq ι]

/-- Each server: its lists, and `#mounted`. -/
abbrev Servers (ι φ : Type) := Graph ι (Tables φ) Text

/-- `route`; it throws for the server itself. -/
def route (base : ι → Text) (g : Servers ι φ) (this : ι) (pfx : Text) (sub : ι) :
    Option (Servers ι φ) :=
  if sub = this then none
  else some (Function.update g this
    { g this with pending := (g this).pending ++ [(mountPrefix (base this) pfx, sub)] })

/-- `#applyMounts`, with a bound on the depth of the recursion. -/
def applyMounts (fuel : Nat) (g : Servers ι φ) (i : ι) : Option (Servers ι φ) :=
  fold Tables.absorb fuel g i

/-- What the calls of a program make of its servers: registering changes the lists of one of
them, and `listen` folds its mounts. -/
inductive Reachable (base : ι → Text) : Servers ι φ → Prop
  | new (tables : ι → Tables φ) : Reachable base fun i => ⟨tables i, []⟩
  | register {g : Servers ι φ} (i : ι) (t : Tables φ) :
      Reachable base g → Reachable base (Function.update g i { g i with value := t })
  | route {g g' : Servers ι φ} (this : ι) (pfx : Text) (sub : ι) :
      Reachable base g → route base g this pfx sub = some g' → Reachable base g'
  | listen {g g' : Servers ι φ} (fuel : Nat) (i : ι) :
      Reachable base g → applyMounts fuel g i = some g' → Reachable base g'

/-- The path of a route below these mounts. -/
def pathBelow (es : List (Nat × Text)) (path : Text) : Text :=
  es.foldr (fun e path => join e.2 path) path

variable {base : ι → Text} {g : Servers ι φ}

theorem route_noSelf {g' : Servers ι φ} {this sub : ι} {pfx : Text} (hg : NoSelf g)
    (h : route base g this pfx sub = some g') : NoSelf g' := by
  obtain ⟨hne, h⟩ := Option.ite_none_left_eq_some.1 h
  obtain rfl := Option.some.inj h
  intro i e he
  by_cases hi : i = this
  · subst hi
    rw [Function.update_self, List.mem_append, List.mem_singleton] at he
    rcases he with he | rfl
    · exact hg i e he
    · exact hne
  · rw [Function.update_of_ne hi] at he
    exact hg i e he

variable [Fintype ι]

theorem applyMounts_terminates {fuel : Nat} (hg : NoSelf g) (hfuel : count g < fuel) (i : ι) :
    ∃ g', applyMounts fuel g i = some g' ∧ Shrinks g g' :=
  fold_terminates hg hfuel i

theorem applyMounts_shrinks {fuel : Nat} {g' : Servers ι φ} {i : ι} (hg : NoSelf g)
    (h : applyMounts fuel g i = some g') : Shrinks g g' := by
  obtain ⟨g'', hg'', hshrinks⟩ := applyMounts_terminates hg
    (Nat.lt_of_lt_of_le (Nat.lt_succ_self (count g)) (Nat.le_add_right _ fuel)) i
  have hsame := fold_mono (Nat.le_add_left fuel (count g + 1)) h
  obtain rfl := Option.some.inj (hsame.symm.trans hg'')
  exact hshrinks

/-- No server has mounted itself. -/
theorem Reachable.noSelf (h : Reachable base g) : NoSelf g := by
  induction h with
  | new tables => exact fun i e he => absurd he List.not_mem_nil
  | @register g i t _ ih =>
      intro j e he
      by_cases hj : j = i
      · subst hj
        rw [Function.update_self] at he
        exact ih j e he
      · rw [Function.update_of_ne hj] at he
        exact ih j e he
  | route this pfx sub _ hroute ih => exact route_noSelf ih hroute
  | listen fuel i _ hlisten ih => exact (applyMounts_shrinks ih hlisten).noSelf ih

/-- Folding servers one after the other. -/
theorem foldlM_terminates (hg : NoSelf g) (nodes : List ι) :
    ∃ g', (∀ fuel, count g < fuel → nodes.foldlM (applyMounts fuel) g = some g') ∧
      Shrinks g g' := by
  induction nodes generalizing g with
  | nil => exact ⟨g, fun _ _ => rfl, Shrinks.refl g⟩
  | cons i nodes ih =>
      obtain ⟨g₁, hg₁, hshrinks⟩ :=
        applyMounts_terminates hg (Nat.lt_succ_self (count g)) i
      obtain ⟨g', hg', hrest⟩ := ih (hshrinks.noSelf hg)
      refine ⟨g', fun fuel hfuel => ?_, hshrinks.trans hrest⟩
      have hsome : applyMounts fuel g i = some g₁ := fold_mono hfuel hg₁
      rw [List.foldlM_cons, hsome]
      exact hg' fuel (lt_of_le_of_lt hshrinks.count_le hfuel)

theorem foldr_under (es : List (Nat × Text)) (r : Route φ) :
    es.foldr (fun e r => r.under e.2) r = { r with path := pathBelow es r.path } := by
  induction es with
  | nil => rfl
  | cons e es ih =>
      rw [List.foldr_cons, ih]
      rfl

omit [Fintype ι] in
/-- What is left in the lists of the server without cycles, whatever was folded before. -/
theorem applyMounts_flat {rank : ι → Nat} (hg : Ranked rank g) {fuel : Nat} {earlier : List ι}
    {i : ι} {g₁ g₂ : Servers ι φ} (hearlier : earlier.foldlM (applyMounts fuel) g = some g₁)
    (hlast : applyMounts fuel g₁ i = some g₂) :
    (g₂ i).value = flat Tables.absorb rank g i := by
  have hfolded : ∀ j, Folded Tables.absorb rank g g₁ j :=
    foldAll_folded hg (fun _ => Or.inl rfl) hearlier
  rw [(fold_folds (hg.folded hfolded) hlast).self]
  exact flat_folded hg (hg.folded hfolded) (fun j _ => hfolded j) (Nat.lt_succ_self (rank i))

/-- `#applyMounts` comes to an end, also where mounts lead back and where other servers were
folded before.  Without cycles the server's routes are those of all mount paths from it: its
own first, then mount by mount, each route once for each path, with nothing but its path
changed. -/
theorem applyMounts_complete (h : Reachable base g) (earlier : List ι) (i : ι) :
    ∃ g₁ g₂ : Servers ι φ,
      (∀ fuel, count g < fuel →
        earlier.foldlM (applyMounts fuel) g = some g₁ ∧ applyMounts fuel g₁ i = some g₂) ∧
      (Acyclic g → ∃ paths : List (List (Nat × Text) × ι),
        (∀ es t, (es, t) ∈ paths ↔ Path g i es t) ∧ paths.Pairwise Before ∧
        (g₂ i).value.routes = paths.flatMap fun p =>
          (g p.2).value.routes.map fun r => { r with path := pathBelow p.1 r.path }) := by
  have hself := h.noSelf
  obtain ⟨g₁, hg₁, hshrinks⟩ := foldlM_terminates hself earlier
  obtain ⟨g₂, hg₂, -⟩ := foldlM_terminates (hshrinks.noSelf hself) [i]
  have hlast : ∀ fuel, count g < fuel → applyMounts fuel g₁ i = some g₂ := by
    intro fuel hfuel
    simpa using hg₂ fuel (lt_of_le_of_lt hshrinks.count_le hfuel)
  refine ⟨g₁, g₂, fun fuel hfuel => ⟨hg₁ fuel hfuel, hlast fuel hfuel⟩, fun hacyclic => ?_⟩
  obtain ⟨rank, hrank⟩ := hacyclic.exists_ranked
  have hfuel := Nat.lt_succ_self (count g)
  have hflat := applyMounts_flat hrank (hg₁ _ hfuel) (hlast _ hfuel)
  refine ⟨pathsFrom g (rank i) i, fun es t => mem_pathsFrom hrank le_rfl,
    pathsFrom_sorted g (rank i) i, ?_⟩
  rw [hflat, flat, unfold_collect Tables.routes (fun _ _ _ => rfl)]
  simp only [foldr_under]

/-- The servers below `i` are those of a tree of apps. -/
inductive Holds (g : Servers ι φ) : ι → App φ → Prop
  | mk {i : ι} {a : App φ} (node : Nat → ι) (value : (g i).value = a.own)
      (pending : (g i).pending = a.mounts.zipIdx.map fun m =>
        (mountPrefix a.base m.1.1, node m.2))
      (mounts : ∀ n pfx sub, a.mounts[n]? = some (pfx, sub) → Holds g (node n) sub) :
      Holds g i a

omit [DecidableEq ι] [Fintype ι] in
theorem flat_tree {rank : ι → Nat} (hg : Ranked rank g) {a : App φ} :
    ∀ {i : ι}, Holds g i a → flat Tables.absorb rank g i = a.applyMounts := by
  induction a using App.induction with
  | step a ih =>
      rintro i ⟨node, hvalue, hpending, hmounts⟩
      have hsub : ∀ m ∈ a.mounts.zipIdx,
          flat Tables.absorb rank g (node m.2) = m.1.2.applyMounts := by
        rintro ⟨⟨pfx, sub⟩, n⟩ hm
        have hn := List.mem_zipIdx_iff_getElem?.1 hm
        exact ih _ (List.mem_of_getElem? hn) (hmounts n pfx sub hn)
      rw [flat_eq hg, hpending, List.foldl_map, hvalue, applyMounts_eq,
        foldl_congr fun m hm v => by rw [hsub m hm]]
      conv_rhs => rw [← List.zipIdx_map_fst 0 a.mounts, List.foldl_map]

/-- The tables of a server are those of the tree of apps that hang below it. -/
theorem applyMounts_tree (h : Reachable base g) (hacyclic : Acyclic g) {i : ι} {a : App φ}
    (ha : Holds g i a) : ∃ g', applyMounts (count g + 1) g i = some g' ∧
      (g' i).value = a.applyMounts := by
  obtain ⟨rank, hrank⟩ := hacyclic.exists_ranked
  obtain ⟨g', hg', -⟩ := applyMounts_terminates h.noSelf
    (Nat.lt_succ_self (count g)) i
  refine ⟨g', hg', ?_⟩
  rw [← flat_tree hrank ha, (fold_folds hrank hg').self]

end Servers

/-- Server 0 mounts server 1 at `/a`, and server 1 mounts server 2 at `/b`. -/
def nested : Servers (Fin 3) Nat
  | 0 => ⟨⟨[], [], fun _ => []⟩, [("/a".toList, 1)]⟩
  | 1 => ⟨⟨[], [], fun _ => []⟩, [("/b".toList, 2)]⟩
  | 2 => ⟨⟨[⟨"GET".toList, "/ping".toList, [], fun _ => [], 7⟩], [], fun _ => []⟩, []⟩

theorem nested_reachable : Reachable (fun _ => []) nested := by
  have hsecond : ∃ g', (route (fun _ => []) (fun i => ⟨(nested i).value, []⟩) 0 "/a".toList 1).bind
      (fun g => route (fun _ => []) g 1 "/b".toList 2) = some g' ∧ g' = nested := by
    refine ⟨_, rfl, funext fun i => ?_⟩
    match i with
    | 0 | 1 | 2 => rfl
  obtain ⟨g', hroutes, rfl⟩ := hsecond
  obtain ⟨g, hfirst, hsecond⟩ := Option.bind_eq_some_iff.1 hroutes
  exact .route 1 _ 2 (.route 0 _ 1 (.new _) hfirst) hsecond

theorem nested_acyclic : Acyclic nested := by
  have hranked : Ranked (fun i => 2 - i.val) nested := by
    intro i e he
    match i with
    | 0 | 1 => obtain rfl := List.mem_singleton.1 he; decide
    | 2 => exact absurd he List.not_mem_nil
  exact hranked.acyclic

theorem nested_complete : ∃ g₁ g₂ : Servers (Fin 3) Nat,
    (∀ fuel, 2 < fuel → [(1 : Fin 3)].foldlM (applyMounts fuel) nested = some g₁ ∧
      applyMounts fuel g₁ 0 = some g₂) ∧
    ∃ paths : List (List (Nat × Text) × Fin 3),
      (∀ es t, (es, t) ∈ paths ↔ Path nested 0 es t) ∧ paths.Pairwise Before ∧
      (g₂ 0).value.routes = paths.flatMap fun p =>
        (nested p.2).value.routes.map fun r => { r with path := pathBelow p.1 r.path } := by
  obtain ⟨g₁, g₂, hrun, hroutes⟩ := applyMounts_complete nested_reachable [1] 0
  exact ⟨g₁, g₂, hrun, hroutes nested_acyclic⟩

end Routing
end OxideHttp
