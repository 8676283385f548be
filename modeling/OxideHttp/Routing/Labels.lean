import OxideHttp.Routing

/-!
# Where a function was registered (`js/index.ts`)

`listen` folds the mounted apps into flat lists: the functions of a chain do not tell
where they come from.  To say it, the app is labelled: each function is paired with the
place it was registered at.

Results.
* `chains_tag`: the labels change nothing in the chains but what they add.
* `mounted_tag`, `mem_chains_tag`: what is below the labelled app, and its chains.
-/

namespace OxideHttp
namespace Routing

variable {φ ψ : Type}

/-! ## Labels -/

/-- A function with the place of its registration. -/
structure Tagged (φ : Type) where
  /-- the way from the root to the app -/
  edges : List Edge
  /-- the `baseUrl` of the app -/
  baseUrl : Text
  /-- the prefix given to `use`, or the path given with a route -/
  given : Option Text
  fn : φ
  deriving DecidableEq, Repr

def Route.map (f : φ → ψ) (r : Route φ) : Route ψ where
  method := r.method
  path := r.path
  middleware := r.middleware.map f
  hooks := fun stage => (r.hooks stage).map f
  handler := f r.handler

def Route.tag (es : List Edge) (baseUrl : Text) (r : Route φ) : Route (Tagged φ) :=
  r.map (Tagged.mk es baseUrl (some r.path))

def UseCall.tag (es : List Edge) (baseUrl : Text) (c : UseCall φ) : UseCall (Tagged φ) where
  pfx := c.pfx
  fns := c.fns.map (Tagged.mk es baseUrl c.pfx)

mutual

/-- The app at the end of these edges, with its functions labelled. -/
def App.tag : App φ → List Edge → App (Tagged φ)
  | ⟨baseUrl, routes, uses, hooks, mounts⟩, es =>
      { baseUrl := baseUrl
        routes := routes.map (Route.tag es baseUrl)
        uses := uses.map (UseCall.tag es baseUrl)
        hooks := hooks.map fun h => (h.1, ⟨es, baseUrl, none, h.2⟩)
        mounts := tagMounts mounts es baseUrl 0 }

def tagMounts :
    List (Text × App φ) → List Edge → Text → Nat → List (Text × App (Tagged φ))
  | [], _, _, _ => []
  | m :: rest, es, baseUrl, i =>
      tagMount m es baseUrl i :: tagMounts rest es baseUrl (i + 1)

def tagMount : Text × App φ → List Edge → Text → Nat → Text × App (Tagged φ)
  | (pfx, sub), es, baseUrl, i => (pfx, sub.tag (es ++ [⟨i, baseUrl, pfx⟩]))

end

@[simp] theorem baseUrl_tag (a : App φ) (es : List Edge) : (a.tag es).baseUrl = a.baseUrl := by
  cases a
  rfl

@[simp] theorem base_tag (a : App φ) (es : List Edge) : (a.tag es).base = a.base := by
  cases a
  rfl

@[simp] theorem routes_tag (a : App φ) (es : List Edge) :
    (a.tag es).routes = a.routes.map (Route.tag es a.baseUrl) := by
  cases a
  rfl

@[simp] theorem uses_tag (a : App φ) (es : List Edge) :
    (a.tag es).uses = a.uses.map (UseCall.tag es a.baseUrl) := by
  cases a
  rfl

@[simp] theorem hooks_tag (a : App φ) (es : List Edge) :
    (a.tag es).hooks = a.hooks.map fun h => (h.1, ⟨es, a.baseUrl, none, h.2⟩) := by
  cases a
  rfl

@[simp] theorem mounts_tag (a : App φ) (es : List Edge) :
    (a.tag es).mounts = tagMounts a.mounts es a.baseUrl 0 := by
  cases a
  rfl

theorem tagMounts_getElem? (mounts : List (Text × App φ)) (es : List Edge) (baseUrl : Text)
    (k i : Nat) :
    (tagMounts mounts es baseUrl k)[i]? =
      (mounts[i]?).map fun m => (m.1, m.2.tag (es ++ [⟨k + i, baseUrl, m.1⟩])) := by
  induction mounts generalizing k i with
  | nil => rfl
  | cons m rest ih =>
      obtain ⟨pfx, sub⟩ := m
      cases i with
      | zero => simp [tagMounts, tagMount]
      | succ i =>
          rw [tagMounts, List.getElem?_cons_succ, ih, List.getElem?_cons_succ,
            Nat.add_right_comm, Nat.add_assoc]

/-! ## The labels change nothing -/

def Scoped.map (f : φ → ψ) (m : Scoped φ) : Scoped ψ := ⟨m.pfx, f m.fn⟩

def Tables.map (f : φ → ψ) (t : Tables φ) : Tables ψ where
  routes := t.routes.map (Route.map f)
  middleware := t.middleware.map (Scoped.map f)
  hooks := fun stage => (t.hooks stage).map (Scoped.map f)

def Chain.map (f : φ → ψ) (c : Chain φ) : Chain ψ where
  handler := f c.handler
  middleware := c.middleware.map f
  hooks := fun stage => (c.hooks stage).map f
  hasBefore := c.hasBefore

theorem absorb_map (f : φ → ψ) (t sub : Tables φ) (mount : Text) :
    (t.absorb mount sub).map f = (t.map f).absorb mount (sub.map f) := by
  simp [Tables.absorb, Tables.map, Function.comp_def, Route.under, Route.map, Scoped.under,
    Scoped.map]

theorem entries_tag (base : Text) (c : UseCall φ) (es : List Edge) (baseUrl : Text) :
    ((c.tag es baseUrl).entries base).map (Scoped.map Tagged.fn) = c.entries base := by
  simp [UseCall.entries, UseCall.tag, UseCall.scope, Scoped.map, Function.comp_def]

theorem own_tag (a : App φ) (es : List Edge) : (a.tag es).own.map Tagged.fn = a.own := by
  simp [App.own, Tables.map, Function.comp_def, Route.tag, Route.map, Scoped.map,
    List.map_flatMap, List.flatMap_map, entries_tag, List.filter_map]

/-- Labelled mounts fold in like the mounts. -/
theorem foldMounts_tag {mounts : List (Text × App φ)}
    (hsub : ∀ m ∈ mounts, ∀ es, (m.2.tag es).applyMounts.map Tagged.fn = m.2.applyMounts)
    (base : Text) (t : Tables (Tagged φ)) (es : List Edge) (baseUrl : Text) (k : Nat) :
    (foldMounts base t (tagMounts mounts es baseUrl k)).map Tagged.fn =
      foldMounts base (t.map Tagged.fn) mounts := by
  induction mounts generalizing t k with
  | nil => rfl
  | cons m rest ih =>
      obtain ⟨pfx, sub⟩ := m
      have hm : (sub.tag (es ++ [⟨k, baseUrl, pfx⟩])).applyMounts.map Tagged.fn =
          sub.applyMounts :=
        hsub (pfx, sub) (by simp) _
      rw [tagMounts, foldMounts, foldMounts, ih fun m' hm' => hsub m' (by simp [hm']),
        tagMount, foldMount, foldMount, absorb_map, hm]

theorem applyMounts_tag (a : App φ) (es : List Edge) :
    (a.tag es).applyMounts.map Tagged.fn = a.applyMounts := by
  induction a using App.induction generalizing es with
  | step a ih =>
      have hown := own_tag a es
      obtain ⟨baseUrl, routes, uses, hooks, mounts⟩ := a
      rw [App.tag] at hown ⊢
      rw [App.applyMounts, App.applyMounts, foldMounts_tag ih]
      exact congrArg (foldMounts _ · mounts) hown

theorem inScope_map (f : φ → ψ) (path : Text) (entries : List (Scoped φ)) :
    (inScope path entries).map f = inScope path (entries.map (Scoped.map f)) := by
  simp [inScope, List.filter_map, Function.comp_def, Scoped.map]

theorem chain_map (f : φ → ψ) (t : Tables φ) (r : Route φ) :
    (t.chain r).map f = (t.map f).chain (r.map f) := by
  have hempty : ∀ k l : List φ, (k.map f ++ l.map f).isEmpty = (k ++ l).isEmpty := by
    intro k l
    rw [← List.map_append]
    cases k ++ l <;> rfl
  simp [Tables.chain, buildChain, Chain.map, Tables.map, Route.map, ← inScope_map, hempty]

/-- The chains of the labelled app are those of the app, with labels. -/
theorem chains_tag (a : App φ) (es : List Edge) :
    (a.tag es).chains.map (Chain.map Tagged.fn) = a.chains := by
  rw [App.chains, App.chains, ← applyMounts_tag a es]
  simp [Tables.map, chain_map, Function.comp_def]

/-! ## Below the labelled app -/

theorem mounted_tag {a : App φ} {above es : List Edge} {t : App (Tagged φ)} :
    Mounted (a.tag above) es t ↔ ∃ u, Mounted a es u ∧ u.tag (above ++ es) = t := by
  induction es generalizing a above with
  | nil =>
      constructor
      · rintro ⟨⟩
        exact ⟨a, .self a, by simp⟩
      · rintro ⟨u, ⟨⟩, rfl⟩
        simpa using Mounted.self (a.tag above)
  | cons e es ih =>
      constructor
      · generalize hlabel : a.tag above = b
        rintro (_ | @⟨_, sub, _, i, pfx, _, hi, hsub⟩)
        subst hlabel
        rw [mounts_tag, tagMounts_getElem?, Option.map_eq_some_iff] at hi
        obtain ⟨⟨pfx', sub'⟩, hi, heq⟩ := hi
        obtain ⟨rfl, rfl⟩ := Prod.mk.inj heq
        obtain ⟨u, hu, rfl⟩ := ih.1 hsub
        rw [baseUrl_tag]
        exact ⟨u, .mount hi hu, by simp⟩
      · rintro ⟨u, _ | @⟨_, sub, _, i, pfx, _, hi, hsub⟩, rfl⟩
        have hstep : (a.tag above).mounts[i]? =
            some (pfx, sub.tag (above ++ [⟨i, a.baseUrl, pfx⟩])) := by
          rw [mounts_tag, tagMounts_getElem?, hi, Option.map_some, Nat.zero_add]
        have hbelow : Mounted (sub.tag (above ++ [⟨i, a.baseUrl, pfx⟩])) es
            (u.tag (above ++ ⟨i, a.baseUrl, pfx⟩ :: es)) :=
          ih.2 ⟨u, hsub, by simp⟩
        have hmounted := Mounted.mount hstep hbelow
        rwa [baseUrl_tag] at hmounted

/-- The routes of the labelled app. -/
theorem mem_routes_tag {a : App φ} {r : Route (Tagged φ)} :
    r ∈ (a.tag []).applyMounts.routes ↔
      ∃ es t, Mounted a es t ∧ ∃ r₀ ∈ t.routes,
        { r₀.tag es t.baseUrl with path := pathUnder es (join t.base r₀.path) } = r := by
  simp only [mem_routes, mounted_tag, List.nil_append]
  constructor
  · rintro ⟨es, _, ⟨t, ht, rfl⟩, r₁, hr, rfl⟩
    rw [routes_tag] at hr
    obtain ⟨r₀, hr₀, rfl⟩ := List.mem_map.1 hr
    rw [base_tag]
    exact ⟨es, t, ht, r₀, hr₀, rfl⟩
  · rintro ⟨es, t, ht, r₀, hr₀, rfl⟩
    rw [← base_tag t es]
    refine ⟨es, _, ⟨t, ht, rfl⟩, r₀.tag es t.baseUrl, ?_, rfl⟩
    rw [routes_tag]
    exact List.mem_map_of_mem hr₀

/-- The middleware of the labelled app. -/
theorem mem_middleware_tag {a : App φ} {m : Scoped (Tagged φ)} :
    m ∈ (a.tag []).applyMounts.middleware ↔
      ∃ es t, Mounted a es t ∧ ∃ c ∈ t.uses, ∃ fn ∈ c.fns,
        ⟨scopeUnder es (c.scope t.base), ⟨es, t.baseUrl, c.pfx, fn⟩⟩ = m := by
  simp only [mem_middleware, mounted_tag, List.nil_append]
  constructor
  · rintro ⟨es, _, ⟨t, ht, rfl⟩, c₁, hc₁, fn₁, hfn₁, rfl⟩
    rw [uses_tag] at hc₁
    obtain ⟨c, hc, rfl⟩ := List.mem_map.1 hc₁
    obtain ⟨fn, hfn, rfl⟩ := List.mem_map.1 hfn₁
    rw [base_tag]
    exact ⟨es, t, ht, c, hc, fn, hfn, rfl⟩
  · rintro ⟨es, t, ht, c, hc, fn, hfn, rfl⟩
    rw [← base_tag t es]
    exact ⟨es, _, ⟨t, ht, rfl⟩, c.tag es t.baseUrl, by simpa using ⟨c, hc, rfl⟩, _,
      List.mem_map_of_mem hfn, rfl⟩

/-- The hooks of the labelled app. -/
theorem mem_hooks_tag {a : App φ} {stage : StageName} {m : Scoped (Tagged φ)} :
    m ∈ (a.tag []).applyMounts.hooks stage ↔
      ∃ es t, Mounted a es t ∧ ∃ fn, (stage, fn) ∈ t.hooks ∧
        ⟨scopeUnder es t.base, ⟨es, t.baseUrl, none, fn⟩⟩ = m := by
  simp only [mem_hooks, mounted_tag, List.nil_append]
  constructor
  · rintro ⟨es, _, ⟨t, ht, rfl⟩, fn₁, hfn₁, rfl⟩
    rw [hooks_tag] at hfn₁
    obtain ⟨⟨_, fn⟩, hfn, heq⟩ := List.mem_map.1 hfn₁
    obtain ⟨rfl, rfl⟩ := Prod.mk.inj heq
    rw [base_tag]
    exact ⟨es, t, ht, fn, hfn, rfl⟩
  · rintro ⟨es, t, ht, fn, hfn, rfl⟩
    rw [← base_tag t es]
    exact ⟨es, _, ⟨t, ht, rfl⟩, _, by simpa using hfn, rfl⟩

end Routing
end OxideHttp
