import OxideHttp.Routing.Join
import OxideHttp.Routing.Labels

/-!
# Paths as segments (`js/index.ts`)

What is wanted of the paths and prefixes in the tables is said on segments: they are those
of all the texts on the way, in order, less a `*` at the end of a base or a prefix.  The
labels say which texts these are.

Results.
* `path_composes_iff`: when the path of a route has the segments that are meant.
* `scope_composes_iff`: when a prefix matches the routes that are meant.
* `composes_iff`: the condition under which the paths and prefixes of an app compose.
-/

namespace OxideHttp
namespace Routing

open Pieces

variable {φ : Type}

/-! ## Places of registration -/

namespace Tagged

/-- No text on the way to the place has an empty piece inside. -/
def Dense (f : Tagged φ) : Prop :=
  (∀ e ∈ f.edges, e.Dense) ∧ Pieces.Dense '/' f.baseUrl ∧
    ∀ t ∈ f.given, Pieces.Dense '/' t

/-- The segments that are meant by the mounts and the base of the app. -/
def segs (f : Tagged φ) : List Text := (f.edges.map Edge.segs).flatten ++ prefixSegs f.baseUrl

/-- The segments that are meant by the path of a route. -/
def routeSegs (f : Tagged φ) : List Text := f.segs ++ parts '/' (f.given.getD [])

/-- The segments that are meant by the prefix of a middleware or a hook. -/
def scopeSegs (f : Tagged φ) : List Text := f.segs ++ f.given.elim [] prefixSegs

/-- The path of a route in the tables. -/
def path (f : Tagged φ) : Text :=
  pathUnder f.edges (join (normalizeBase f.baseUrl) (f.given.getD []))

/-- The prefix of a middleware or a hook in the tables. -/
def scope (f : Tagged φ) : Text :=
  scopeUnder f.edges
    (f.given.elim (normalizeBase f.baseUrl) fun pfx =>
      join (normalizeBase f.baseUrl) (normalizeBase pfx))

/-- No base or prefix above ends in `*` and a slash. -/
def Unstarred (f : Tagged φ) : Prop :=
  (∀ e ∈ f.edges, ¬ Starred e.baseUrl ∧ ¬ Starred e.pfx) ∧ ¬ Starred f.baseUrl

/-- The path of the route composes: no mount without segments has segments below it. -/
def RouteOk (f : Tagged φ) : Prop :=
  f.Unstarred ∧
    Tight (f.edges.map Edge.segs) (prefixSegs f.baseUrl ++ parts '/' (f.given.getD []))

/-- The prefix composes. -/
def ScopeOk (f : Tagged φ) : Prop :=
  f.Unstarred ∧ (∀ t ∈ f.given, ¬ Starred t) ∧
    Tight (f.edges.map Edge.segs) (prefixSegs f.baseUrl ++ f.given.elim [] prefixSegs)

instance (f : Tagged φ) : Decidable f.RouteOk := by
  unfold RouteOk Unstarred
  infer_instance

instance (f : Tagged φ) : Decidable f.ScopeOk := by
  unfold ScopeOk Unstarred
  infer_instance

end Tagged

theorem kept_eq {t : Text} (h : Dense '/' t) :
    kept t = prefixSegs t ++ if Starred t then [['*']] else [] :=
  (parts_normalizeBase h).2

theorem kept_of_not_starred {t : Text} (h : Dense '/' t) (hstar : ¬ Starred t) :
    kept t = prefixSegs t := by
  rw [kept_eq h, if_neg hstar, List.append_nil]

theorem map_kept {es : List Edge} (hes : ∀ e ∈ es, e.Dense)
    (hstar : ∀ e ∈ es, ¬ Starred e.baseUrl ∧ ¬ Starred e.pfx) :
    es.map Edge.kept = es.map Edge.segs := by
  refine List.map_congr_left fun e he => ?_
  rw [Edge.kept, Edge.segs, kept_of_not_starred (hes e he).1 (hstar e he).1,
    kept_of_not_starred (hes e he).2 (hstar e he).2]

/-- Normalising keeps at least what is meant. -/
theorem length_kept {t : Text} (h : Dense '/' t) :
    (kept t).length = (prefixSegs t).length + if Starred t then 1 else 0 := by
  rw [kept_eq h, List.length_append]
  split_ifs <;> rfl

theorem length_segs_le {es : List Edge} (hes : ∀ e ∈ es, e.Dense) :
    (es.map Edge.segs).flatten.length ≤ (es.map Edge.kept).flatten.length := by
  induction es with
  | nil => simp
  | cons e es ih =>
      have hrest := ih fun e' he' => hes e' (by simp [he'])
      have hbase := length_kept (hes e (by simp)).1
      have hpfx := length_kept (hes e (by simp)).2
      simp only [List.map_cons, List.flatten_cons, List.length_append, Edge.segs, Edge.kept]
      omega

theorem not_starred_of_length {es : List Edge} (hes : ∀ e ∈ es, e.Dense)
    (h : (es.map Edge.kept).flatten.length ≤ (es.map Edge.segs).flatten.length) :
    ∀ e ∈ es, ¬ Starred e.baseUrl ∧ ¬ Starred e.pfx := by
  induction es with
  | nil => simp
  | cons e es ih =>
      have hes' : ∀ e' ∈ es, e'.Dense := fun e' he' => hes e' (by simp [he'])
      have hrest := length_segs_le hes'
      have hbase := length_kept (hes e (by simp)).1
      have hpfx := length_kept (hes e (by simp)).2
      simp only [List.map_cons, List.flatten_cons, List.length_append, Edge.segs,
        Edge.kept] at h
      refine List.forall_mem_cons.2 ⟨⟨fun hstar => ?_, fun hstar => ?_⟩, ih hes' (by omega)⟩
      · rw [if_pos hstar] at hbase
        omega
      · rw [if_pos hstar] at hpfx
        omega

/-- The path of a route composes by segments. -/
theorem path_composes_iff {f : Tagged φ} (hf : f.Dense) :
    ((∃ u, f.path = '/' :: u) ∧ Dense '/' f.path ∧ parts '/' f.path = f.routeSegs) ↔
      f.RouteOk := by
  obtain ⟨hes, hbase, hgiven⟩ := hf
  have hown : Dense '/' (f.given.getD []) := by
    cases hg : f.given with
    | none => exact solid_nil.dense
    | some t => exact hgiven t hg
  obtain ⟨⟨u, hu⟩, hdense, hparts⟩ := join_base (normal_normalizeBase hbase) hown
  obtain ⟨hcons, hpath, htight⟩ := pathUnder_spec hes u
  rw [← hu, ← Tagged.path] at hcons hpath htight
  rw [hparts, ← kept] at hpath htight
  have hlength := length_kept hbase
  constructor
  · rintro ⟨-, hpathDense, hsegs⟩
    have hsum := congrArg List.length (hpath.symm.trans hsegs)
    simp only [Tagged.routeSegs, Tagged.segs, List.length_append] at hsum
    have hle := length_segs_le hes
    have hedges := not_starred_of_length hes (by omega)
    have hnot : ¬ Starred f.baseUrl := by
      intro hstar
      rw [if_pos hstar] at hlength
      omega
    have hcompose := (htight.1 hpathDense).2
    rw [map_kept hes hedges, kept_of_not_starred hbase hnot] at hcompose
    exact ⟨⟨hedges, hnot⟩, hcompose⟩
  · rintro ⟨⟨hedges, hnot⟩, hcompose⟩
    rw [map_kept hes hedges, kept_of_not_starred hbase hnot] at hpath htight
    refine ⟨hcons, htight.2 ⟨hdense, hcompose⟩, ?_⟩
    rw [hpath, Tagged.routeSegs, Tagged.segs, List.append_assoc]

/-- The prefix in the tables is empty, for the app itself without a base, or put together
like a path. -/
theorem scope_cases {f : Tagged φ} (hf : f.Dense) :
    (f.scope = [] ∧ f.edges = [] ∧ f.given = none ∧ kept f.baseUrl = []) ∨
      ∃ y, Trim y ∧ f.scope = pathUnder f.edges y ∧
        parts '/' y = kept f.baseUrl ++ f.given.elim [] kept := by
  obtain ⟨hes, hbase, hgiven⟩ := hf
  have hnormal := normal_normalizeBase hbase
  cases hg : f.given with
  | none =>
      rw [Tagged.scope, hg, Option.elim_none, Option.elim_none, List.append_nil]
      by_cases hnil : normalizeBase f.baseUrl = []
      · have hkept : kept f.baseUrl = [] := by rw [kept, hnil]; rfl
        rw [hnil, hkept]
        by_cases hedges : f.edges = []
        · exact Or.inl ⟨by rw [hedges]; rfl, hedges, rfl, rfl⟩
        · exact Or.inr ⟨['/'], Or.inl rfl, scopeUnder_nil hedges, rfl⟩
      · exact Or.inr ⟨_, hnormal.trim hnil, scopeUnder_of_ne_nil hnil, rfl⟩
  | some pfx =>
      have hpfx := hgiven pfx hg
      rw [Tagged.scope, hg, Option.elim_some, Option.elim_some]
      refine Or.inr ⟨_, trim_join_base hnormal (normal_normalizeBase hpfx),
        scopeUnder_of_ne_nil (join_ne_nil _ _), ?_⟩
      exact (join_base hnormal (parts_normalizeBase hpfx).1.dense).2.2

theorem elim_kept {f : Tagged φ} (hf : f.Dense) (hstar : ∀ t ∈ f.given, ¬ Starred t) :
    f.given.elim [] kept = f.given.elim [] prefixSegs := by
  cases hg : f.given with
  | none => rfl
  | some t => exact kept_of_not_starred (hf.2.2 t hg) (hstar t hg)

/-- A prefix that composes. -/
theorem scope_of_ok {f : Tagged φ} (hf : f.Dense) (hok : f.ScopeOk) :
    f.scope = [] ∧ f.edges = [] ∧ f.given = none ∧ f.scopeSegs = [] ∨
      Trim f.scope ∧ parts '/' f.scope = f.scopeSegs := by
  obtain ⟨⟨hedges, hnot⟩, hgiven, htight⟩ := hok
  have hbase := kept_of_not_starred hf.2.1 hnot
  rcases scope_cases hf with ⟨hscope, hes, hnone, hkept⟩ | ⟨y, hy, hscope, hparts⟩
  · refine Or.inl ⟨hscope, hes, hnone, ?_⟩
    rw [Tagged.scopeSegs, Tagged.segs, hes, hnone, ← hbase, hkept]
    rfl
  · obtain ⟨u, rfl⟩ := hy.exists_cons
    obtain ⟨-, hpath, hdense⟩ := pathUnder_spec hf.1 u
    rw [hparts, map_kept hf.1 hedges, hbase, elim_kept hf hgiven] at hpath hdense
    rw [hscope, hpath, Tagged.scopeSegs, Tagged.segs, List.append_assoc]
    exact Or.inr ⟨trim_pathUnder hf.1 hy (hdense.2 ⟨hy.dense, htight⟩), rfl⟩

theorem star_mem_kept {t : Text} (h : Dense '/' t) (hstar : Starred t) : ['*'] ∈ kept t := by
  rw [kept_eq h, if_pos hstar]
  simp

/-- A prefix that does not compose: it has an empty segment inside or a segment `*`. -/
theorem scope_of_not_ok {f : Tagged φ} (hf : f.Dense) (hok : ¬ f.ScopeOk) :
    f.scope ≠ [] ∧ (Dense '/' f.scope → Trim f.scope ∧ ['*'] ∈ parts '/' f.scope) := by
  rcases scope_cases hf with ⟨-, hes, hnone, hkept⟩ | ⟨y, hy, hscope, hparts⟩
  · have hnot : ¬ Starred f.baseUrl := fun hstar => by
      simpa [hkept] using star_mem_kept hf.2.1 hstar
    refine absurd ⟨⟨?_, hnot⟩, ?_, ?_⟩ hok
    · simp [hes]
    · simp [hnone]
    · simp [hes, Tight]
  · obtain ⟨u, rfl⟩ := hy.exists_cons
    obtain ⟨⟨v, hv⟩, hpath, hdense⟩ := pathUnder_spec hf.1 u
    rw [hparts] at hpath hdense
    rw [hscope]
    refine ⟨by simp [hv], fun hpathDense => ⟨trim_pathUnder hf.1 hy hpathDense, ?_⟩⟩
    rw [hpath]
    by_contra hmem
    simp only [List.mem_append, List.mem_flatten, List.mem_map, not_or] at hmem
    obtain ⟨hinEdges, hinBase, hinGiven⟩ := hmem
    have hedges : ∀ e ∈ f.edges, ¬ Starred e.baseUrl ∧ ¬ Starred e.pfx := by
      intro e he
      have hin : ['*'] ∉ e.kept := fun hin => hinEdges ⟨_, ⟨e, he, rfl⟩, hin⟩
      rw [Edge.kept, List.mem_append, not_or] at hin
      exact ⟨fun h => hin.1 (star_mem_kept (hf.1 e he).1 h),
        fun h => hin.2 (star_mem_kept (hf.1 e he).2 h)⟩
    have hnot : ¬ Starred f.baseUrl := fun h => hinBase (star_mem_kept hf.2.1 h)
    have hgiven : ∀ t ∈ f.given, ¬ Starred t := by
      intro t ht h
      refine hinGiven ?_
      rw [Option.mem_def.1 ht]
      exact star_mem_kept (hf.2.2 t ht) h
    have htight := (hdense.1 hpathDense).2
    rw [map_kept hf.1 hedges, kept_of_not_starred hf.2.1 hnot, elim_kept hf hgiven] at htight
    exact hok ⟨⟨hedges, hnot⟩, hgiven, htight⟩

/-- The prefix `/` matches the path `/` alone. -/
theorem slash_matches_iff {p : Text} (h : Dense '/' p) :
    prefixMatches ['/'] p = true ↔ p = ['/'] := by
  rw [prefixMatches_iff, splitOn_isPrefix_iff]
  constructor
  · rintro (hnil | heq | ⟨rest, rfl⟩)
    · cases hnil
    · exact heq
    · have hsolid := (dense_append_cons (s := ['/']) (t := rest)).1 h
      exact absurd hsolid.1 not_solid_singleton
  · exact fun heq => Or.inr (Or.inl heq)

theorem solid_matches_iff {s p : Text} (hs : (∃ u, s = '/' :: u) ∧ Solid '/' s)
    (hp : (∃ u, p = '/' :: u) ∧ Dense '/' p) :
    prefixMatches s p = true ↔ parts '/' s <+: parts '/' p := by
  obtain ⟨⟨u, rfl⟩, hsolid⟩ := hs
  obtain ⟨⟨v, rfl⟩, hdense⟩ := hp
  rw [prefixMatches_iff, ← splitOn_isPrefix_parts hsolid hdense]
  exact or_iff_right (List.cons_ne_nil _ _)

/-- The app itself, without a prefix, has its base. -/
theorem scope_ne_slash {f : Tagged φ} (hf : f.Dense) (hes : f.edges = [])
    (hnone : f.given = none) : f.scope ≠ ['/'] := by
  rw [Tagged.scope, hes, hnone]
  exact (normal_normalizeBase hf.2.1).ne_slash

/-- The prefix of a middleware or a hook and the path of a static route agree with their
segments. -/
theorem scope_composes_iff {f g : Tagged φ} (hf : f.Dense) (hg : g.Dense) (hroute : g.RouteOk)
    (hstatic : ∀ seg ∈ g.routeSegs, Literal seg) :
    (prefixMatches f.scope g.path = true ↔ f.scopeSegs <+: g.routeSegs) ↔
      (f.ScopeOk → f.scopeSegs = [] → (f.edges = [] ∧ f.given = none) ∨ g.routeSegs = []) ∧
        (¬ f.ScopeOk → ¬ f.scopeSegs <+: g.routeSegs) := by
  obtain ⟨hcons, hdense, hparts⟩ := (path_composes_iff hg).2 hroute
  by_cases hok : f.ScopeOk
  · have hnot : ¬ f.ScopeOk → ¬ f.scopeSegs <+: g.routeSegs := fun h => absurd hok h
    rcases scope_of_ok hf hok with ⟨hnil, hes, hnone, hsegs⟩ | ⟨htrim, hscope⟩
    · have hmatch : prefixMatches f.scope g.path = true := prefixMatches_iff.2 (Or.inl hnil)
      have hle : f.scopeSegs <+: g.routeSegs := by simp [hsegs]
      exact iff_of_true (iff_of_true hmatch hle) ⟨fun _ _ => Or.inl ⟨hes, hnone⟩, hnot⟩
    · by_cases hslash : f.scope = ['/']
      · have hsegs : f.scopeSegs = [] := by rw [← hscope, htrim.eq_slash_iff.1 hslash]
        have hpath : g.path = ['/'] ↔ g.routeSegs = [] := by
          obtain ⟨u, hu⟩ := hcons
          rw [← hparts, hu]
          exact eq_slash_iff (hu ▸ hdense)
        have hle : f.scopeSegs <+: g.routeSegs := by simp [hsegs]
        rw [hslash, slash_matches_iff hdense, hpath, iff_true_right hle]
        constructor
        · exact fun hroot => ⟨fun _ _ => Or.inr hroot, hnot⟩
        · rintro ⟨hroot, -⟩
          exact (hroot hok hsegs).resolve_left fun h => scope_ne_slash hf h.1 h.2 hslash
      · have hmatch := solid_matches_iff (htrim.resolve_left hslash) ⟨hcons, hdense⟩
        rw [hscope, hparts] at hmatch
        refine iff_of_true hmatch ⟨fun _ hnil => absurd (htrim.eq_slash_iff.2 ?_) hslash, hnot⟩
        rw [hscope, hnil]
  · obtain ⟨hne, hstar⟩ := scope_of_not_ok hf hok
    have hno : ¬ prefixMatches f.scope g.path = true := by
      intro hmatch
      have hle := (prefixMatches_iff.1 hmatch).resolve_left hne
      obtain ⟨htrim, hmem⟩ := hstar (hdense.of_splitOn_isPrefix hle)
      have hslash : f.scope ≠ ['/'] := fun heq => by simp [heq] at hmem
      rw [solid_matches_iff (htrim.resolve_left hslash) ⟨hcons, hdense⟩, hparts] at hmatch
      exact absurd (hstatic _ (hmatch.subset hmem)) (by decide)
    rw [iff_false_left hno]
    exact ⟨fun h => ⟨fun h' => absurd h' hok, fun _ => h⟩, fun h => h.2 hok⟩

/-! ## Apps -/

/-- No text that is given to the app or to an app below it has an empty piece inside. -/
def Spelled (a : App φ) : Prop :=
  ∀ es t, Mounted a es t →
    Dense '/' t.baseUrl ∧ (∀ m ∈ t.mounts, Dense '/' m.1) ∧ (∀ r ∈ t.routes, Dense '/' r.path) ∧
      ∀ c ∈ t.uses, ∀ pfx ∈ c.pfx, Dense '/' pfx

/-- The label is that of a route. -/
def RouteAt (a : App φ) (g : Tagged φ) : Prop :=
  ∃ t, Mounted a g.edges t ∧ g.baseUrl = t.baseUrl ∧
    ∃ r ∈ t.routes, g.given = some r.path ∧ g.fn = r.handler

/-- The label is that of a middleware or a hook. -/
def ScopeAt (a : App φ) (f : Tagged φ) : Prop :=
  ∃ t, Mounted a f.edges t ∧ f.baseUrl = t.baseUrl ∧
    ((∃ c ∈ t.uses, f.given = c.pfx ∧ f.fn ∈ c.fns) ∨
      f.given = none ∧ ∃ stage, (stage, f.fn) ∈ t.hooks)

/-- The route has no parameters. -/
def Tagged.Static (g : Tagged φ) : Prop := ∀ seg ∈ g.routeSegs, Literal seg

instance (g : Tagged φ) : Decidable g.Static := by
  unfold Tagged.Static
  infer_instance

/-- Paths and prefixes compose by segments: each route has a path whose segments are those
that are meant, none of them empty; the prefix of each middleware and hook matches the path
of a static route when its segments begin those of the route. -/
def Composes (a : App φ) : Prop :=
  let tables := (a.tag []).applyMounts
  (∀ r ∈ tables.routes,
    (∃ u, r.path = '/' :: u) ∧ Dense '/' r.path ∧ parts '/' r.path = r.handler.routeSegs) ∧
  ∀ r ∈ tables.routes, r.handler.Static →
    ∀ m, (m ∈ tables.middleware ∨ ∃ stage, m ∈ tables.hooks stage) →
      (prefixMatches m.pfx r.path = true ↔ m.fn.scopeSegs <+: r.handler.routeSegs)

/-- The condition on what is given to the apps.  A prefix without any segment, other than
that of the app itself, matches static routes without segments only; one with a `*` left in
it or with segments below a mount that has none matches no static route. -/
def Composable (a : App φ) : Prop :=
  (∀ g, RouteAt a g → g.RouteOk) ∧
  ∀ g, RouteAt a g → g.Static → ∀ f, ScopeAt a f →
    (f.ScopeOk → f.scopeSegs = [] → (f.edges = [] ∧ f.given = none) ∨ g.routeSegs = []) ∧
      (¬ f.ScopeOk → ¬ f.scopeSegs <+: g.routeSegs)

theorem Spelled.sub {a sub : App φ} {i : Nat} {pfx : Text} (h : Spelled a)
    (hi : a.mounts[i]? = some (pfx, sub)) : Spelled sub :=
  fun _ _ ht => h _ _ (.mount hi ht)

theorem Spelled.edges {a t : App φ} {es : List Edge} (h : Spelled a) (ht : Mounted a es t) :
    ∀ e ∈ es, e.Dense := by
  induction ht with
  | self => simp
  | @mount a sub t i pfx es hi ht ih =>
      obtain ⟨hbase, hmounts, -⟩ := h [] a (.self a)
      exact List.forall_mem_cons.2
        ⟨⟨hbase, hmounts _ (List.mem_of_getElem? hi)⟩, ih (h.sub hi)⟩

theorem RouteAt.dense {a : App φ} {g : Tagged φ} (h : Spelled a) (hg : RouteAt a g) : g.Dense := by
  obtain ⟨t, ht, hbase, r, hr, hgiven, -⟩ := hg
  obtain ⟨hdense, -, hroutes, -⟩ := h _ t ht
  refine ⟨h.edges ht, hbase ▸ hdense, ?_⟩
  rw [hgiven]
  rintro _ ⟨⟩
  exact hroutes r hr

theorem ScopeAt.dense {a : App φ} {f : Tagged φ} (h : Spelled a) (hf : ScopeAt a f) : f.Dense := by
  obtain ⟨t, ht, hbase, hreg⟩ := hf
  obtain ⟨hdense, -, -, huses⟩ := h _ t ht
  refine ⟨h.edges ht, hbase ▸ hdense, ?_⟩
  rcases hreg with ⟨c, hc, hgiven, -⟩ | ⟨hgiven, -⟩
  · rw [hgiven]
    exact huses c hc
  · simp [hgiven]

/-- A route of the tables has the path of its label. -/
theorem routeAt_of_mem {a : App φ} {r : Route (Tagged φ)}
    (h : r ∈ (a.tag []).applyMounts.routes) : RouteAt a r.handler ∧ r.path = r.handler.path := by
  obtain ⟨es, t, ht, r, hr, rfl⟩ := mem_routes_tag.1 h
  exact ⟨⟨t, ht, rfl, r, hr, rfl, rfl⟩, rfl⟩

theorem RouteAt.exists_mem {a : App φ} {g : Tagged φ} (h : RouteAt a g) :
    ∃ r ∈ (a.tag []).applyMounts.routes, r.handler = g := by
  obtain ⟨es, baseUrl, given, fn⟩ := g
  obtain ⟨t, ht, rfl, r, hr, rfl, rfl⟩ := h
  exact ⟨_, mem_routes_tag.2 ⟨es, t, ht, r, hr, rfl⟩, rfl⟩

/-- A middleware or a hook of the tables has the prefix of its label. -/
theorem scopeAt_of_mem {a : App φ} {m : Scoped (Tagged φ)}
    (h : m ∈ (a.tag []).applyMounts.middleware ∨
      ∃ stage, m ∈ (a.tag []).applyMounts.hooks stage) :
    ScopeAt a m.fn ∧ m.pfx = m.fn.scope := by
  rcases h with h | ⟨stage, h⟩
  · obtain ⟨es, t, ht, c, hc, fn, hfn, rfl⟩ := mem_middleware_tag.1 h
    refine ⟨⟨t, ht, rfl, Or.inl ⟨c, hc, rfl, hfn⟩⟩, ?_⟩
    rw [Tagged.scope, UseCall.scope]
    cases c.pfx <;> rfl
  · obtain ⟨es, t, ht, fn, hfn, rfl⟩ := mem_hooks_tag.1 h
    exact ⟨⟨t, ht, rfl, Or.inr ⟨rfl, stage, hfn⟩⟩, rfl⟩

theorem ScopeAt.exists_mem {a : App φ} {f : Tagged φ} (h : ScopeAt a f) :
    ∃ m, (m ∈ (a.tag []).applyMounts.middleware ∨
      ∃ stage, m ∈ (a.tag []).applyMounts.hooks stage) ∧ m.fn = f := by
  obtain ⟨es, baseUrl, given, fn⟩ := f
  obtain ⟨t, ht, rfl, ⟨c, hc, rfl, hfn⟩ | ⟨rfl, stage, hfn⟩⟩ := h
  · exact ⟨_, Or.inl (mem_middleware_tag.2 ⟨es, t, ht, c, hc, fn, hfn, rfl⟩), rfl⟩
  · exact ⟨_, Or.inr ⟨stage, mem_hooks_tag.2 ⟨es, t, ht, fn, hfn, rfl⟩⟩, rfl⟩

/-- Paths and prefixes compose by segments just under the condition. -/
theorem composes_iff {a : App φ} (h : Spelled a) : Composes a ↔ Composable a := by
  have hroutes : (∀ r ∈ (a.tag []).applyMounts.routes, (∃ u, r.path = '/' :: u) ∧
      Dense '/' r.path ∧ parts '/' r.path = r.handler.routeSegs) ↔
        ∀ g, RouteAt a g → g.RouteOk := by
    constructor
    · intro hall g hg
      obtain ⟨r, hr, rfl⟩ := hg.exists_mem
      rw [← path_composes_iff (hg.dense h), ← (routeAt_of_mem hr).2]
      exact hall r hr
    · intro hall r hr
      obtain ⟨hat, hpath⟩ := routeAt_of_mem hr
      rw [hpath, path_composes_iff (hat.dense h)]
      exact hall _ hat
  rw [Composes, Composable, hroutes]
  refine and_congr_right fun hok => ?_
  constructor
  · intro hall g hg hstatic f hf
    obtain ⟨r, hr, rfl⟩ := hg.exists_mem
    obtain ⟨m, hm, rfl⟩ := hf.exists_mem
    rw [← scope_composes_iff (hf.dense h) (hg.dense h) (hok _ hg) hstatic,
      ← (scopeAt_of_mem hm).2, ← (routeAt_of_mem hr).2]
    exact hall r hr hstatic m hm
  · intro hall r hr hstatic m hm
    obtain ⟨hat, hpath⟩ := routeAt_of_mem hr
    obtain ⟨hscope, hpfx⟩ := scopeAt_of_mem hm
    rw [hpath, hpfx, scope_composes_iff (hscope.dense h) (hat.dense h) (hok _ hat) hstatic]
    exact hall _ hat hstatic _ hscope

/-! ## Two apps -/

/-- A group with a hook and a route, mounted on an app with a base. -/
def groupApp : App Nat :=
  ⟨[], [⟨"GET".toList, "users/".toList, [], fun _ => [], 0⟩], [], [(.onRequest, 1)], []⟩

def apiApp : App Nat where
  baseUrl := "/api/".toList
  routes := [⟨"GET".toList, "/admin/list".toList, [], fun _ => [], 2⟩]
  uses := [⟨some "admin/*".toList, [3]⟩]
  hooks := []
  mounts := [("v1".toList, groupApp)]

theorem mounted_apiApp {es : List Edge} {t : App Nat} (h : Mounted apiApp es t) :
    es = [] ∧ t = apiApp ∨ es = [⟨0, "/api/".toList, "v1".toList⟩] ∧ t = groupApp := by
  cases h with
  | self => exact Or.inl ⟨rfl, rfl⟩
  | @mount _ sub _ i pfx es hi hsub =>
      cases i with
      | succ i => cases hi
      | zero =>
          obtain ⟨rfl, rfl⟩ := Prod.mk.inj (Option.some.inj hi)
          cases hsub with
          | self => exact Or.inr ⟨rfl, rfl⟩
          | mount hi => cases hi

theorem spelled_apiApp : Spelled apiApp := by
  intro es t ht
  rcases mounted_apiApp ht with ⟨rfl, rfl⟩ | ⟨rfl, rfl⟩
  · decide
  · decide

theorem routeAt_apiApp {g : Tagged Nat} (h : RouteAt apiApp g) :
    g = ⟨[], "/api/".toList, some "/admin/list".toList, 2⟩ ∨
      g = ⟨[⟨0, "/api/".toList, "v1".toList⟩], [], some "users/".toList, 0⟩ := by
  obtain ⟨es, baseUrl, given, fn⟩ := g
  obtain ⟨t, ht, rfl, r, hr, rfl, rfl⟩ := h
  rcases mounted_apiApp ht with ⟨rfl, rfl⟩ | ⟨rfl, rfl⟩
  · obtain rfl := List.mem_singleton.1 hr
    exact Or.inl rfl
  · obtain rfl := List.mem_singleton.1 hr
    exact Or.inr rfl

theorem scopeAt_apiApp {f : Tagged Nat} (h : ScopeAt apiApp f) :
    f = ⟨[], "/api/".toList, some "admin/*".toList, 3⟩ ∨
      f = ⟨[⟨0, "/api/".toList, "v1".toList⟩], [], none, 1⟩ := by
  obtain ⟨es, baseUrl, given, fn⟩ := f
  obtain ⟨t, ht, rfl, hreg⟩ := h
  rcases mounted_apiApp ht with ⟨rfl, rfl⟩ | ⟨rfl, rfl⟩
  · rcases hreg with ⟨c, hc, rfl, hfn⟩ | ⟨-, stage, hfn⟩
    · obtain rfl := List.mem_singleton.1 hc
      obtain rfl := List.mem_singleton.1 hfn
      exact Or.inl rfl
    · cases hfn
  · rcases hreg with ⟨c, hc, -⟩ | ⟨rfl, stage, hfn⟩
    · cases hc
    · obtain ⟨rfl, rfl⟩ := Prod.mk.inj (List.mem_singleton.1 hfn)
      exact Or.inr rfl

theorem composes_apiApp : Composes apiApp := by
  refine (composes_iff spelled_apiApp).2 ⟨?_, ?_⟩
  · intro g hg
    rcases routeAt_apiApp hg with rfl | rfl <;> decide
  · intro g _ _ f hf
    rcases scopeAt_apiApp hf with rfl | rfl
    · exact ⟨fun _ hnil => absurd hnil (by decide), fun hok => absurd (by decide) hok⟩
    · exact ⟨fun _ hnil => absurd hnil (by decide), fun hok => absurd (by decide) hok⟩

/-- A middleware for `/` and a route. -/
def rootUse : App Nat :=
  ⟨[], [⟨"GET".toList, "/x".toList, [], fun _ => [], 0⟩], [⟨some "/".toList, [1]⟩], [], []⟩

/-- The middleware does not run for the route. -/
theorem root_use_dropped : Spelled rootUse ∧ ¬ Composes rootUse := by
  constructor
  · intro es t ht
    cases ht with
    | mount hi => cases hi
    | self => decide
  · rintro ⟨-, hscopes⟩
    have happlies := hscopes _ (List.mem_singleton.2 rfl) (by decide) ⟨['/'], _⟩
      (Or.inl (List.mem_singleton.2 rfl))
    exact absurd happlies (by decide)

end Routing
end OxideHttp
