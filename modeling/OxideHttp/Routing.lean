import OxideHttp.Lib.Pieces
import Mathlib.Data.List.Basic

/-!
# Registration and mounting (`js/index.ts`, `js/pipeline.ts`)

An `App` is what a program registers on a `Server`: routes, middleware, hooks and
mounted sub-apps.  `listen` folds the sub-apps in and precompiles one chain for each
route, with the middleware and hooks whose prefix matches the path of the route.

Results.
* `mem_routes`, `mem_middleware`, `mem_hooks`: what the tables hold after `listen`, by
  the app it was registered on and the edges of the tree above that app (`Mounted`).
* `mem_chain_middleware`, `mem_chain_hooks`: what a chain holds.
* `prefixMatches_iff`: matching a prefix is beginning with its pieces.
-/

namespace OxideHttp
namespace Routing

abbrev Text := List Char

/-! ## Prefixes and paths -/

/-- The leading slash that `normalizeBase` and `join` see to. -/
def slashed (t : Text) : Text := if ['/'].isPrefixOf t then t else '/' :: t

/-- `normalizeBase`. -/
def normalizeBase (b : Text) : Text :=
  if b = [] ∨ b = ['/'] then []
  else
    let s := slashed b
    let s := if ['/', '*'].isSuffixOf s then s.dropLast.dropLast else s
    if ['/'].isSuffixOf s then s.dropLast else s

/-- `join`. -/
def join (base path : Text) : Text :=
  let p := slashed path
  if p = ['/'] then (if base = [] then ['/'] else base) else base ++ p

/-- `prefixMatches`. -/
def prefixMatches (pfx path : Text) : Bool :=
  pfx == [] || path == pfx || (pfx ++ ['/']).isPrefixOf path

/-- A piece of a registered path without parameters. -/
def Literal (seg : Text) : Prop :=
  ':' ∉ seg ∧ '\x7b' ∉ seg ∧ '\x7d' ∉ seg ∧ ¬ ['*'] <+: seg

instance (seg : Text) : Decidable (Literal seg) := by
  unfold Literal
  infer_instance

/-! ## Normal forms -/

@[simp] theorem slashed_cons (t : Text) : slashed ('/' :: t) = '/' :: t := by simp [slashed]

theorem exists_slashed (t : Text) : ∃ u, slashed t = '/' :: u := by
  by_cases h : ['/'].isPrefixOf t = true
  · obtain ⟨u, rfl⟩ := List.isPrefixOf_iff_prefix.1 h
    exact ⟨u, slashed_cons u⟩
  · exact ⟨t, if_neg h⟩

/-- A normalised prefix is empty or begins with a slash. -/
theorem normalizeBase_cases (b : Text) :
    normalizeBase b = [] ∨ ∃ t, normalizeBase b = '/' :: t := by
  have hinit : ∀ s : Text, (s = [] ∨ ∃ t, s = '/' :: t) →
      s.dropLast = [] ∨ ∃ t, s.dropLast = '/' :: t := by
    rintro _ (rfl | ⟨t, rfl⟩)
    · exact Or.inl rfl
    · cases t with
      | nil => exact Or.inl rfl
      | cons c t => exact Or.inr ⟨_, rfl⟩
  have hslashed : slashed b = [] ∨ ∃ t, slashed b = '/' :: t := Or.inr (exists_slashed b)
  rw [normalizeBase]
  dsimp only
  split_ifs
  · exact Or.inl rfl
  · exact hinit _ (hinit _ (hinit _ hslashed))
  · exact hinit _ (hinit _ hslashed)
  · exact hinit _ hslashed
  · exact hslashed

/-- Nothing to join: the path is `/`, or empty. -/
theorem join_slash {base : Text} (h : base ≠ []) : join base ['/'] = base := by
  simp [join, h]

theorem join_cons {base t : Text} (h : t ≠ []) : join base ('/' :: t) = base ++ '/' :: t := by
  simp [join, h]

theorem join_nil (base : Text) : join base [] = join base ['/'] := rfl

theorem join_ne_nil (base path : Text) : join base path ≠ [] := by
  obtain ⟨u, hu⟩ := exists_slashed path
  rw [join, hu]
  split_ifs <;> simp_all

/-- What joins a longer path goes on from what joins the shorter one. -/
theorem join_isPrefix {base s t : Text} (hbase : base ≠ [])
    (h : ('/' :: s).splitOn '/' <+: ('/' :: t).splitOn '/') :
    (join base ('/' :: s)).splitOn '/' <+: (join base ('/' :: t)).splitOn '/' := by
  rw [Pieces.splitOn_isPrefix_iff] at h ⊢
  by_cases hs : s = []
  · rw [hs, join_slash hbase]
    by_cases ht : t = []
    · exact Or.inl (by rw [ht, join_slash hbase])
    · exact Or.inr ⟨t, by simp [join_cons ht]⟩
  · have ht : t ≠ [] := by
      rintro rfl
      rcases h with h | h
      · simp_all
      · simp_all [List.prefix_cons_iff]
    rw [join_cons hs, join_cons ht]
    rcases h with h | ⟨rest, hrest⟩
    · exact Or.inl (by rw [h])
    · exact Or.inr ⟨rest, by simp [← hrest]⟩

/-- The first piece of what joins is that of the base. -/
theorem exists_join_cons {base : Text} (h : base = [] ∨ ∃ t, base = '/' :: t) (path : Text) :
    ∃ u, join base path = '/' :: u := by
  obtain ⟨v, hv⟩ := exists_slashed path
  rw [join, hv]
  rcases h with rfl | ⟨t, rfl⟩
  · split_ifs <;> simp_all
  · split_ifs <;> simp

theorem prefixMatches_iff {pfx path : Text} :
    prefixMatches pfx path = true ↔
      pfx = [] ∨ pfx.splitOn '/' <+: path.splitOn '/' := by
  rw [Pieces.splitOn_isPrefix_iff]
  simp [prefixMatches, or_assoc]


/-! ## What is registered -/

/-- `StageName`. -/
inductive StageName where
  | onRequest
  | preParsing
  | preValidation
  | preHandler
  | preSerialization
  | onSend
  | onResponse
  | onError
  | onTimeout
  | onAbort
  deriving DecidableEq, Repr

/-- `BEFORE_STAGES`. -/
def beforeStages : List StageName := [.onRequest, .preParsing, .preValidation, .preHandler]

section Registration

-- the functions of the program: handlers, middleware and hooks
variable {φ : Type}

/-- `Scoped`. -/
structure Scoped (φ : Type) where
  pfx : Text
  fn : φ

/-- A route: as it is given to `get`, `post` and so on, or, in the tables, with its
full path. -/
structure Route (φ : Type) where
  method : Text
  path : Text
  middleware : List φ
  hooks : StageName → List φ
  handler : φ

/-- A call of `use`. -/
structure UseCall (φ : Type) where
  pfx : Option Text
  fns : List φ

/-- What a program registers on one `Server`, each kind in the order of the calls. -/
structure App (φ : Type) where
  /-- `config.baseUrl`, empty when absent -/
  baseUrl : Text
  routes : List (Route φ)
  uses : List (UseCall φ)
  /-- the calls of `addHook` and `onError` -/
  hooks : List (StageName × φ)
  /-- the calls of `route` -/
  mounts : List (Text × App φ)

/-- The lists of a `Server`. -/
structure Tables (φ : Type) where
  routes : List (Route φ)
  middleware : List (Scoped φ)
  hooks : StageName → List (Scoped φ)

def App.base (a : App φ) : Text := normalizeBase a.baseUrl

/-- The prefix under which `use` registers. -/
def UseCall.scope (base : Text) (c : UseCall φ) : Text :=
  match c.pfx with
  | none => base
  | some pfx => join base (normalizeBase pfx)

/-- `use`. -/
def UseCall.entries (base : Text) (c : UseCall φ) : List (Scoped φ) :=
  c.fns.map fun fn => ⟨c.scope base, fn⟩

/-- What the calls on the app itself leave in its lists. -/
def App.own (a : App φ) : Tables φ where
  routes := a.routes.map fun r => { r with path := join a.base r.path }
  middleware := a.uses.flatMap (UseCall.entries a.base)
  hooks := fun stage => (a.hooks.filter (·.1 = stage)).map fun h => ⟨a.base, h.2⟩

/-- `remap` of `#applyMounts`. -/
def remap (mount pfx : Text) : Text := if pfx = [] then mount else join mount pfx

def Scoped.under (mount : Text) (m : Scoped φ) : Scoped φ :=
  { m with pfx := remap mount m.pfx }

def Route.under (mount : Text) (r : Route φ) : Route φ :=
  { r with path := join mount r.path }

/-- One round of the loop of `#applyMounts`. -/
def Tables.absorb (t : Tables φ) (mount : Text) (sub : Tables φ) : Tables φ where
  routes := t.routes ++ sub.routes.map (Route.under mount)
  middleware := t.middleware ++ sub.middleware.map (Scoped.under mount)
  hooks := fun stage => t.hooks stage ++ (sub.hooks stage).map (Scoped.under mount)

/-- The prefix that `route` records for a mount. -/
def mountPrefix (base pfx : Text) : Text := join base (normalizeBase pfx)

mutual

/-- `#applyMounts`. -/
def App.applyMounts : App φ → Tables φ
  | ⟨baseUrl, routes, uses, hooks, mounts⟩ =>
      foldMounts (normalizeBase baseUrl) (App.own ⟨baseUrl, routes, uses, hooks, mounts⟩)
        mounts

def foldMounts (base : Text) : Tables φ → List (Text × App φ) → Tables φ
  | t, [] => t
  | t, m :: rest => foldMounts base (foldMount base t m) rest

def foldMount (base : Text) : Tables φ → Text × App φ → Tables φ
  | t, (pfx, sub) => t.absorb (mountPrefix base pfx) sub.applyMounts

end

/-! ## Chains -/

/-- `Chain`. -/
structure Chain (φ : Type) where
  handler : φ
  middleware : List φ
  hooks : StageName → List φ
  hasBefore : Bool

/-- The functions of a list whose prefix matches. -/
def inScope (path : Text) (entries : List (Scoped φ)) : List φ :=
  (entries.filter fun m => prefixMatches m.pfx path).map Scoped.fn

/-- `buildChain`. -/
def buildChain (r : Route φ) (middleware : List (Scoped φ))
    (hooks : StageName → List (Scoped φ)) : Chain φ :=
  let stages := fun stage => inScope r.path (hooks stage) ++ r.hooks stage
  { handler := r.handler
    middleware := inScope r.path middleware ++ r.middleware
    hooks := stages
    hasBefore := beforeStages.any fun stage => !(stages stage).isEmpty }

/-- The chain of a route of the tables. -/
def Tables.chain (t : Tables φ) (r : Route φ) : Chain φ :=
  buildChain r t.middleware t.hooks

/-- The chains that `listen` precompiles; the index is the leaf id of the route. -/
def App.chains (a : App φ) : List (Chain φ) :=
  a.applyMounts.routes.map a.applyMounts.chain

theorem mem_inScope {path : Text} {entries : List (Scoped φ)} {f : φ} :
    f ∈ inScope path entries ↔
      ∃ m ∈ entries, prefixMatches m.pfx path = true ∧ m.fn = f := by
  simp [inScope, and_assoc]

theorem mem_chain_middleware {t : Tables φ} {r : Route φ} {f : φ} :
    f ∈ (t.chain r).middleware ↔
      (∃ m ∈ t.middleware, prefixMatches m.pfx r.path = true ∧ m.fn = f) ∨
        f ∈ r.middleware := by
  simp [Tables.chain, buildChain, mem_inScope]

theorem mem_chain_hooks {t : Tables φ} {r : Route φ} {stage : StageName} {f : φ} :
    f ∈ (t.chain r).hooks stage ↔
      (∃ m ∈ t.hooks stage, prefixMatches m.pfx r.path = true ∧ m.fn = f) ∨
        f ∈ r.hooks stage := by
  simp [Tables.chain, buildChain, mem_inScope]

theorem mem_chains {a : App φ} {c : Chain φ} :
    c ∈ a.chains ↔ ∃ r ∈ a.applyMounts.routes, a.applyMounts.chain r = c := List.mem_map

theorem foldMounts_eq (base : Text) (t : Tables φ) (mounts : List (Text × App φ)) :
    foldMounts base t mounts =
      mounts.foldl (fun t m => t.absorb (mountPrefix base m.1) m.2.applyMounts) t := by
  induction mounts generalizing t with
  | nil => rfl
  | cons m rest ih =>
      obtain ⟨pfx, sub⟩ := m
      rw [foldMounts, foldMount, ih, List.foldl_cons]

theorem applyMounts_eq (a : App φ) :
    a.applyMounts =
      a.mounts.foldl (fun t m => t.absorb (mountPrefix a.base m.1) m.2.applyMounts) a.own := by
  obtain ⟨baseUrl, routes, uses, hooks, mounts⟩ := a
  exact foldMounts_eq _ _ mounts

/-! ## Apps below an app -/

/-- A step down the tree: the mount with this number on an app with this `baseUrl`, and
the prefix that was given to `route`. -/
structure Edge where
  index : Nat
  baseUrl : Text
  pfx : Text
  deriving DecidableEq, Repr

/-- The prefix that `route` recorded. -/
def Edge.text (e : Edge) : Text := mountPrefix (normalizeBase e.baseUrl) e.pfx

/-- The path of a route that was registered below these edges. -/
def pathUnder (es : List Edge) (path : Text) : Text :=
  es.foldr (fun e path => join e.text path) path

/-- The prefix of a function that was registered below these edges. -/
def scopeUnder (es : List Edge) (pfx : Text) : Text :=
  es.foldr (fun e pfx => remap e.text pfx) pfx

/-- The edges lead from one app to the other. -/
inductive Mounted : App φ → List Edge → App φ → Prop where
  | self (a : App φ) : Mounted a [] a
  | mount {a sub t : App φ} {i : Nat} {pfx : Text} {es : List Edge} :
      a.mounts[i]? = some (pfx, sub) → Mounted sub es t →
      Mounted a (⟨i, a.baseUrl, pfx⟩ :: es) t

theorem App.induction {P : App φ → Prop}
    (step : ∀ a : App φ, (∀ m ∈ a.mounts, P m.2) → P a) (a : App φ) : P a :=
  @App.rec φ P (fun mounts => ∀ m ∈ mounts, P m.2) (fun m => P m.2)
    (fun _ _ _ _ _ ih => step _ ih) (by simp)
    (fun _ _ hm hrest => List.forall_mem_cons.2 ⟨hm, hrest⟩) (fun _ _ h => h) a

section Collect

-- a list of the tables, and what a mount does to its elements
variable {β : Type} (list : Tables φ → List β) {under : Text → β → β}

/-- The loop of `#applyMounts` keeps what is there and adds what the mounted apps hold. -/
theorem mem_foldl_absorb
    (habsorb : ∀ t mount sub, list (t.absorb mount sub) = list t ++ (list sub).map (under mount))
    {base : Text} {mounts : List (Text × App φ)} {t : Tables φ} {x : β} :
    x ∈ list (mounts.foldl (fun t m => t.absorb (mountPrefix base m.1) m.2.applyMounts) t) ↔
      x ∈ list t ∨
        ∃ m ∈ mounts, ∃ y ∈ list m.2.applyMounts, under (mountPrefix base m.1) y = x := by
  induction mounts generalizing t with
  | nil => simp
  | cons m rest ih =>
      rw [List.foldl_cons, ih, habsorb, List.mem_append, List.mem_map, or_assoc]
      simp

/-- An element of a list after `#applyMounts` was registered on an app of the tree. -/
theorem mem_applyMounts
    (habsorb : ∀ t mount sub, list (t.absorb mount sub) = list t ++ (list sub).map (under mount))
    {a : App φ} {x : β} :
    x ∈ list a.applyMounts ↔
      ∃ es t, Mounted a es t ∧
        ∃ y ∈ list t.own, es.foldr (fun e y => under e.text y) y = x := by
  induction a using App.induction generalizing x with
  | step a ih =>
      rw [applyMounts_eq, mem_foldl_absorb list habsorb]
      constructor
      · rintro (hown | ⟨⟨pfx, sub⟩, hm, y, hy, rfl⟩)
        · exact ⟨[], a, .self a, x, hown, rfl⟩
        · obtain ⟨i, hi⟩ := List.mem_iff_getElem?.1 hm
          obtain ⟨es, t, hmounted, z, hz, rfl⟩ := (ih _ hm).1 hy
          exact ⟨⟨i, a.baseUrl, pfx⟩ :: es, t, .mount hi hmounted, z, hz, rfl⟩
      · rintro ⟨es, t, hmounted, y, hy, rfl⟩
        cases hmounted with
        | self => exact Or.inl hy
        | @mount _ sub _ i pfx es hi hmounted =>
            have hm := List.mem_of_getElem? hi
            exact Or.inr ⟨(pfx, sub), hm, _, (ih _ hm).2 ⟨es, t, hmounted, y, hy, rfl⟩, rfl⟩

end Collect

theorem foldr_route_under (es : List Edge) (r : Route φ) :
    es.foldr (fun e r => r.under e.text) r = { r with path := pathUnder es r.path } := by
  induction es with
  | nil => rfl
  | cons e es ih => rw [List.foldr_cons, ih]; rfl

theorem foldr_scoped_under (es : List Edge) (m : Scoped φ) :
    es.foldr (fun e m => m.under e.text) m = { m with pfx := scopeUnder es m.pfx } := by
  induction es with
  | nil => rfl
  | cons e es ih => rw [List.foldr_cons, ih]; rfl

/-- The routes of the tables. -/
theorem mem_routes {a : App φ} {r : Route φ} :
    r ∈ a.applyMounts.routes ↔
      ∃ es t, Mounted a es t ∧
        ∃ r₀ ∈ t.routes, { r₀ with path := pathUnder es (join t.base r₀.path) } = r := by
  rw [mem_applyMounts Tables.routes fun _ _ _ => rfl]
  simp [foldr_route_under, App.own]

/-- The middleware of the tables. -/
theorem mem_middleware {a : App φ} {m : Scoped φ} :
    m ∈ a.applyMounts.middleware ↔
      ∃ es t, Mounted a es t ∧
        ∃ c ∈ t.uses, ∃ fn ∈ c.fns, ⟨scopeUnder es (c.scope t.base), fn⟩ = m := by
  rw [mem_applyMounts Tables.middleware fun _ _ _ => rfl]
  simp [foldr_scoped_under, App.own, UseCall.entries, and_assoc]

/-- The hooks of the tables. -/
theorem mem_hooks {a : App φ} {stage : StageName} {m : Scoped φ} :
    m ∈ a.applyMounts.hooks stage ↔
      ∃ es t, Mounted a es t ∧
        ∃ fn, (stage, fn) ∈ t.hooks ∧ ⟨scopeUnder es t.base, fn⟩ = m := by
  rw [mem_applyMounts (fun t : Tables φ => t.hooks stage) fun _ _ _ => rfl]
  simp [foldr_scoped_under, App.own]

end Registration

end Routing
end OxideHttp
