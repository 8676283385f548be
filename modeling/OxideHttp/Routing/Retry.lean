import OxideHttp.Lib.Transition
import OxideHttp.Routing
import Mathlib.Logic.Function.Basic

/-!
# Another `listen` after a failed one (`js/index.ts`, `src/lib.rs`)

`listen` works on the lists of the `Server` objects themselves: it keeps the Unix path in
the options, folds the mounted sub-apps in and forgets the mounts, and puts the validation
hook into the routes, all before the native layer binds.  Here a program holds several
`Server` objects, which mount each other by reference; number `0` is the one that listens.
`folded` is kept for the statements only: the servers whose lists a fold has read or
extended.

Results.
* `applyMounts_ends`: the recursion of `#applyMounts` ends.
* `Partly`: a server that has tried to listen is a fresh one of which some mounts have been
  folded in, but for validation hooks that are there already.
* `handed_iff`: what is handed to the native layer, against a fresh `Server`.
-/

namespace OxideHttp
namespace Routing
namespace Retry

open Transition

-- functions of the program, valibot schemas, normalised multipart and cache options
variable {φ ν μ κ : Type}

/-- `SchemaSource`. -/
inductive SchemaSource (ν : Type) where
  | valibot (v : ν)
  /-- a JSON Schema, as `JSON.stringify` writes it -/
  | json (text : Text)

def SchemaSource.isValibot : SchemaSource ν → Bool
  | .valibot _ => true
  | .json _ => false

/-- The schemas of a request. -/
structure RouteSchema (ν : Type) where
  body : Option (SchemaSource ν)
  query : Option (SchemaSource ν)
  params : Option (SchemaSource ν)

def RouteSchema.hasValibot (s : RouteSchema ν) : Bool :=
  s.body.any SchemaSource.isValibot || s.query.any SchemaSource.isValibot ||
    s.params.any SchemaSource.isValibot

/-- `RouteEntry`. -/
structure Entry (φ ν μ κ : Type) where
  route : Route φ
  schema : Option (RouteSchema ν)
  multipart : Option μ
  cache : Option κ
  validationInjected : Bool

def Entry.under (mount : Text) (e : Entry φ ν μ κ) : Entry φ ν μ κ :=
  { e with route := e.route.under mount }

/-- The lists of a `Server`, with the mounts that are still to be folded in. -/
structure Server (φ ν μ κ : Type) where
  base : Text
  routes : List (Entry φ ν μ κ)
  middleware : List (Scoped φ)
  hooks : StageName → List (Scoped φ)
  mounted : List (Text × Nat)

def Server.new (baseUrl : Text) : Server φ ν μ κ where
  base := normalizeBase baseUrl
  routes := []
  middleware := []
  hooks := fun _ => []
  mounted := []

def Server.remount (mounted : List (Text × Nat)) (a : Server φ ν μ κ) : Server φ ν μ κ :=
  { a with mounted := mounted }

/-- One round of the loop of `#applyMounts`. -/
def Server.absorb (a : Server φ ν μ κ) (mount : Text) (sub : Server φ ν μ κ) :
    Server φ ν μ κ :=
  { a with
    routes := a.routes ++ sub.routes.map (Entry.under mount)
    middleware := a.middleware ++ sub.middleware.map (Scoped.under mount)
    hooks := fun stage => a.hooks stage ++ (sub.hooks stage).map (Scoped.under mount) }

/-- The `Server` objects of a program. -/
structure Heap (φ ν μ κ : Type) where
  servers : List (Server φ ν μ κ)
  folded : List Nat

def Heap.update (i : Nat) (f : Server φ ν μ κ → Server φ ν μ κ) (h : Heap φ ν μ κ) :
    Heap φ ν μ κ :=
  { h with servers := h.servers.modify i f }

/-- What a server becomes that takes in a mount. -/
def Heap.taking (m : Text × Nat) (h : Heap φ ν μ κ) (a : Server φ ν μ κ) :
    Server φ ν μ κ :=
  match h.servers[m.2]? with
  | some sub => a.absorb m.1 sub
  | none => a

def Heap.absorb (i : Nat) (m : Text × Nat) (h : Heap φ ν μ κ) : Heap φ ν μ κ :=
  { h.update i (h.taking m) with folded := h.folded ++ [i, m.2] }

/-- `#applyMounts` of server `i`; `fuel` bounds the depth. -/
def Heap.applyMounts : Nat → Nat → Heap φ ν μ κ → Heap φ ν μ κ
  | 0, _, h => h
  | fuel + 1, i, h =>
      match h.servers[i]? with
      | none => h
      | some a =>
          -- cleared first
          a.mounted.foldl (fun h m => (applyMounts fuel m.2 h).absorb i m)
            (h.update i (Server.remount []))

/-! ## Registering and listening -/

inductive Registration (φ ν μ κ : Type) where
  /-- `get`, `post` and so on -/
  | add (e : Entry φ ν μ κ)
  | use (c : UseCall φ)
  /-- `addHook`, `onError` -/
  | addHook (stage : StageName) (fn : φ)
  /-- `route(prefix, sub)` -/
  | route (pfx : Text) (sub : Nat)

def Registration.isMount : Registration φ ν μ κ → Bool
  | .route .. => true
  | _ => false

/-- Of `size` servers; a server does not mount itself. -/
def Registration.admitted (i size : Nat) : Registration φ ν μ κ → Bool
  | .route _ sub => decide (i < size ∧ sub < size ∧ sub ≠ i)
  | _ => decide (i < size)

/-- What `#add` pushes, with the path joined to the base. -/
def Entry.registered (base : Text) (e : Entry φ ν μ κ) : Entry φ ν μ κ :=
  { e.under base with validationInjected := false }

def Registration.apply (a : Server φ ν μ κ) : Registration φ ν μ κ → Server φ ν μ κ
  | .add e => { a with routes := a.routes ++ [e.registered a.base] }
  | .use c => { a with middleware := a.middleware ++ c.entries a.base }
  | .addHook stage fn =>
      { a with hooks := Function.update a.hooks stage (a.hooks stage ++ [⟨a.base, fn⟩]) }
  | .route pfx sub => { a with mounted := a.mounted ++ [(mountPrefix a.base pfx, sub)] }

/-- `ListenArgs`, with the default host filled in. -/
structure ListenArgs where
  port : Option Nat
  host : Text
  path : Option Text
  deriving DecidableEq, Repr

/-- A path, or a port. -/
def ListenArgs.admitted (args : ListenArgs) : Bool := args.path.isSome || args.port.isSome

/-- The program's servers, and the Unix path in the options of the one that listens. -/
structure State (φ ν μ κ : Type) where
  heap : Heap φ ν μ κ
  unixPath : Option Text

def State.init (baseUrl : Text) (subs : List Text) : State φ ν μ κ where
  heap := ⟨(baseUrl :: subs).map Server.new, []⟩
  unixPath := none

inductive Label (φ ν μ κ : Type) where
  | register (i : Nat) (r : Registration φ ν μ κ)
  /-- `listen` up to its await -/
  | listen (args : ListenArgs)
  /-- the rest of `listen`, in which the native bind fails -/
  | bindFails

def Label.isRegistration : Label φ ν μ κ → Bool
  | .register .. => true
  | _ => false

section Listen

-- `injectValidation` makes this hook of the valibot schemas of a route
variable (validation : RouteSchema ν → φ)

/-- `injectValidation`. -/
def Entry.injectValidation (e : Entry φ ν μ κ) : Entry φ ν μ κ :=
  match e.schema with
  | none => e
  | some schema =>
      if e.validationInjected || !schema.hasValibot then e
      else
        { e with
          route :=
            { e.route with
              hooks := Function.update e.route.hooks .preValidation
                (validation schema :: e.route.hooks .preValidation) }
          validationInjected := true }

def Server.injectValidation (a : Server φ ν μ κ) : Server φ ν μ κ :=
  { a with routes := a.routes.map (Entry.injectValidation validation) }

def step (s : State φ ν μ κ) : Label φ ν μ κ → Option (State φ ν μ κ)
  | .register i r =>
      if r.admitted i s.heap.servers.length then
        some { s with heap := s.heap.update i (Registration.apply · r) }
      else none
  | .listen args =>
      if args.admitted then
        some { heap := s.heap.applyMounts s.heap.servers.length 0
               unixPath := args.path.or s.unixPath }
      else none
  | .bindFails =>
      some { s with heap := s.heap.update 0 (Server.injectValidation validation) }

/-- `ListenTarget`. -/
inductive Target where
  | unix (path : Text)
  | tcp (host : Text) (port : Nat)
  deriving DecidableEq, Repr

/-- What the native `listen` binds: the Unix path of the options takes priority. -/
def bindTarget (unixPath : Option Text) (args : ListenArgs) : Target :=
  match unixPath with
  | some path => .unix path
  | none => .tcp args.host (args.port.getD 0)

/-- `NativeRouteDef`; the index in the table is the leaf id. -/
structure RouteDef (μ κ : Type) where
  method : Text
  path : Text
  bodySchema : Option Text
  querySchema : Option Text
  paramsSchema : Option Text
  multipart : Option μ
  cache : Option κ

-- `JSON.stringify` of the JSON Schema of a valibot schema
variable (toJsonSchema : ν → Text)

/-- `toJsonSchemaString`. -/
def SchemaSource.toJsonSchemaString : SchemaSource ν → Text
  | .valibot v => toJsonSchema v
  | .json text => text

def Entry.def (e : Entry φ ν μ κ) : RouteDef μ κ where
  method := e.route.method
  path := e.route.path
  bodySchema := e.schema.bind fun s => s.body.map (SchemaSource.toJsonSchemaString toJsonSchema)
  querySchema := e.schema.bind fun s => s.query.map (SchemaSource.toJsonSchemaString toJsonSchema)
  paramsSchema :=
    e.schema.bind fun s => s.params.map (SchemaSource.toJsonSchemaString toJsonSchema)
  multipart := e.multipart
  cache := e.cache

/-- What a `listen` that succeeds leaves behind. -/
structure Handed (φ μ κ : Type) where
  target : Target
  table : List (RouteDef μ κ)
  chains : List (Chain φ)

def Server.handed (target : Target) (a : Server φ ν μ κ) : Handed φ μ κ where
  target := target
  table := a.routes.map (Entry.def toJsonSchema)
  chains := a.routes.map fun e => buildChain e.route a.middleware a.hooks

/-- `listen`, when the native layer binds. -/
def State.handed (s : State φ ν μ κ) (args : ListenArgs) : Option (Handed φ μ κ) :=
  ((step validation s (.listen args)).bind fun t => step validation t .bindFails).bind fun t =>
    t.heap.servers[0]?.map (Server.handed toJsonSchema (bindTarget t.unixPath args))

end Listen

/-- After a fold, servers that it has not reached may still be registered on, and the
server that listens may mount more. -/
def State.traceless (s : State φ ν μ κ) : Label φ ν μ κ → Prop
  | .register i r => i ∉ s.heap.folded ∨ (i = 0 ∧ r.isMount = true)
  | _ => True

instance State.traceless.decidable (s : State φ ν μ κ) : ∀ l, Decidable (s.traceless l)
  | .register i r =>
      inferInstanceAs (Decidable (i ∉ s.heap.folded ∨ (i = 0 ∧ r.isMount = true)))
  | .listen _ => isTrue trivial
  | .bindFails => isTrue trivial

/-! ## The servers of a heap -/

section Heaps

variable {h h' : Heap φ ν μ κ} {i j x : Nat} {m : Text × Nat}
variable {f g : Server φ ν μ κ → Server φ ν μ κ}

theorem heap_ext (hfolded : h.folded = h'.folded)
    (hservers : ∀ k : Nat, h.servers[k]? = h'.servers[k]?) : h = h' := by
  obtain ⟨servers, folded⟩ := h
  obtain ⟨servers', folded'⟩ := h'
  obtain rfl : folded = folded' := hfolded
  obtain rfl : servers = servers' := List.ext_getElem? hservers
  rfl

@[simp] theorem length_update : (h.update i f).servers.length = h.servers.length :=
  List.length_modify ..

theorem servers_update (h : Heap φ ν μ κ) (i : Nat) (f : Server φ ν μ κ → Server φ ν μ κ)
    (j : Nat) :
    (h.update i f).servers[j]? = (h.servers[j]?).map fun a => if i = j then f a else a := by
  simp only [Heap.update, List.getElem?_modify]
  cases h.servers[j]? with
  | none => rfl
  | some a => by_cases hij : i = j <;> simp [hij]

theorem servers_update_ne (hij : i ≠ j) : (h.update i f).servers[j]? = h.servers[j]? := by
  rw [servers_update]
  simp [hij]

theorem servers_update_self (h : Heap φ ν μ κ) (i : Nat)
    (f : Server φ ν μ κ → Server φ ν μ κ) :
    (h.update i f).servers[i]? = (h.servers[i]?).map f := by
  rw [servers_update]
  simp

/-- What an update does not change in a server. -/
theorem map_update {β : Type} (p : Server φ ν μ κ → β)
    (f : Server φ ν μ κ → Server φ ν μ κ) (hf : ∀ a, p (f a) = p a) (k : Nat) :
    ((h.update i f).servers[k]?).map p = (h.servers[k]?).map p := by
  rw [servers_update]
  cases h.servers[k]? with
  | none => rfl
  | some a => by_cases hik : i = k <;> simp [hik, hf]

theorem update_comm (hij : i ≠ j) : (h.update i f).update j g = (h.update j g).update i f := by
  refine heap_ext rfl fun k => ?_
  simp only [servers_update]
  cases h.servers[k]? with
  | none => rfl
  | some a =>
      by_cases hik : i = k
      · have hjk : j ≠ k := fun hjk => hij (hik.trans hjk.symm)
        simp [hik, hjk]
      · simp [hik]

theorem update_update (h : Heap φ ν μ κ) (i : Nat)
    (f g : Server φ ν μ κ → Server φ ν μ κ) :
    (h.update i f).update i g = h.update i (g ∘ f) := by
  refine heap_ext rfl fun k => ?_
  simp only [servers_update]
  cases h.servers[k]? with
  | none => rfl
  | some a => by_cases hik : i = k <;> simp [hik]

theorem update_congr (hfg : ∀ a, h.servers[i]? = some a → f a = g a) :
    h.update i f = h.update i g := by
  refine heap_ext rfl fun k => ?_
  rw [servers_update, servers_update]
  cases hk : h.servers[k]? with
  | none => rfl
  | some a =>
      by_cases hik : i = k
      · simp [hik, hfg a (hik ▸ hk)]
      · simp [hik]

/-- An update of what is not there, or that changes nothing. -/
theorem update_eq_self (hf : ∀ a, h.servers[i]? = some a → f a = a) : h.update i f = h := by
  rw [update_congr (g := id) hf]
  exact heap_ext rfl fun k => by simp [servers_update]

theorem absorb_update (hi : x ≠ i) (hm : x ≠ m.2) :
    (h.update x g).absorb i m = (h.absorb i m).update x g := by
  have htaking : (h.update x g).taking m = h.taking m := by
    funext a
    rw [Heap.taking, Heap.taking, servers_update_ne hm]
  rw [Heap.absorb, htaking, update_comm hi]
  rfl

/-! ## Folding the mounts in -/

/-- The loop of `#applyMounts`. -/
def Heap.foldMounts (fuel i : Nat) (mounts : List (Text × Nat)) (h : Heap φ ν μ κ) :
    Heap φ ν μ κ :=
  mounts.foldl (fun h m => (h.applyMounts fuel m.2).absorb i m) h

theorem foldMounts_cons (fuel i : Nat) (m : Text × Nat) (mounts : List (Text × Nat)) :
    h.foldMounts fuel i (m :: mounts) =
      ((h.applyMounts fuel m.2).absorb i m).foldMounts fuel i mounts := rfl

theorem foldMounts_append (fuel i : Nat) (ms ns : List (Text × Nat)) :
    h.foldMounts fuel i (ms ++ ns) = (h.foldMounts fuel i ms).foldMounts fuel i ns :=
  List.foldl_append

theorem applyMounts_none {fuel : Nat} (hi : h.servers[i]? = none) :
    h.applyMounts fuel i = h := by
  cases fuel with
  | zero => rfl
  | succ fuel => rw [Heap.applyMounts, hi]

theorem applyMounts_some {fuel : Nat} {a : Server φ ν μ κ} (hi : h.servers[i]? = some a) :
    h.applyMounts (fuel + 1) i =
      (h.update i (Server.remount [])).foldMounts fuel i a.mounted := by
  rw [Heap.applyMounts, hi]
  rfl

/-- What the rounds of the loop keep. -/
theorem foldMounts_keeps {P : Heap φ ν μ κ → Prop} {fuel : Nat}
    (happly : ∀ h sub, P h → P (Heap.applyMounts fuel sub h))
    (habsorb : ∀ h m, P h → P (Heap.absorb i m h)) (mounts : List (Text × Nat))
    (hP : P h) : P (h.foldMounts fuel i mounts) := by
  induction mounts generalizing h with
  | nil => exact hP
  | cons m mounts ih => exact ih (habsorb _ m (happly h m.2 hP))

theorem applyMounts_keeps {P : Heap φ ν μ κ → Prop}
    (hclear : ∀ h i, P h → P (Heap.update i (Server.remount []) h))
    (habsorb : ∀ h i m, P h → P (Heap.absorb i m h)) (fuel i : Nat) (hP : P h) :
    P (h.applyMounts fuel i) := by
  induction fuel generalizing h i with
  | zero => exact hP
  | succ fuel ih =>
      cases hi : h.servers[i]? with
      | none =>
          rw [applyMounts_none hi]
          exact hP
      | some a =>
          rw [applyMounts_some hi]
          exact foldMounts_keeps (fun _ sub hh => ih sub hh) (fun h m => habsorb h i m) _
            (hclear h i hP)

/-- A server that was read or extended stays marked. -/
theorem mem_folded_applyMounts {fuel : Nat} (hx : x ∈ h.folded) :
    x ∈ (h.applyMounts fuel i).folded :=
  applyMounts_keeps (P := fun h => x ∈ h.folded) (fun _ _ hh => hh)
    (fun _ _ _ hh => List.mem_append_left _ hh) fuel i hx

theorem mem_folded_foldMounts {fuel : Nat} {mounts : List (Text × Nat)}
    (hx : x ∈ h.folded) : x ∈ (h.foldMounts fuel i mounts).folded :=
  foldMounts_keeps (P := fun h => x ∈ h.folded) (fun _ _ hh => mem_folded_applyMounts hh)
    (fun _ _ hh => List.mem_append_left _ hh) mounts hx

theorem mem_folded_self {fuel : Nat} {mounts : List (Text × Nat)} (hmounts : mounts ≠ []) :
    i ∈ (h.foldMounts fuel i mounts).folded := by
  cases mounts with
  | nil => exact absurd rfl hmounts
  | cons m mounts =>
      rw [foldMounts_cons]
      exact mem_folded_foldMounts (List.mem_append_right _ (List.mem_cons_self ..))

/-- A fold does not see what it does not mark. -/
theorem foldMounts_update {fuel : Nat} {mounts : List (Text × Nat)}
    (happly : ∀ (h : Heap φ ν μ κ) sub, x ≠ sub → x ∉ (h.applyMounts fuel sub).folded →
      (h.update x g).applyMounts fuel sub = (h.applyMounts fuel sub).update x g)
    (hi : x ≠ i) (hx : x ∉ (h.foldMounts fuel i mounts).folded) :
    (h.update x g).foldMounts fuel i mounts = (h.foldMounts fuel i mounts).update x g := by
  induction mounts generalizing h with
  | nil => rfl
  | cons m mounts ih =>
      rw [foldMounts_cons] at hx ⊢
      have habsorbed : x ∉ ((h.applyMounts fuel m.2).absorb i m).folded :=
        fun hmem => hx (mem_folded_foldMounts hmem)
      have hm : x ≠ m.2 := fun heq => habsorbed (List.mem_append_right _ (by simp [heq]))
      have hsub : x ∉ (h.applyMounts fuel m.2).folded :=
        fun hmem => habsorbed (List.mem_append_left _ hmem)
      rw [happly h m.2 hm hsub, absorb_update hi hm]
      exact ih hx

theorem applyMounts_update {fuel : Nat} (hi : x ≠ i)
    (hx : x ∉ (h.applyMounts fuel i).folded) :
    (h.update x g).applyMounts fuel i = (h.applyMounts fuel i).update x g := by
  induction fuel generalizing h i with
  | zero => rfl
  | succ fuel ih =>
      cases hs : h.servers[i]? with
      | none =>
          have hs' : (h.update x g).servers[i]? = none := (servers_update_ne hi).trans hs
          rw [applyMounts_none hs, applyMounts_none hs']
      | some a =>
          have hs' : (h.update x g).servers[i]? = some a := (servers_update_ne hi).trans hs
          rw [applyMounts_some hs] at hx ⊢
          rw [applyMounts_some hs', update_comm hi]
          exact foldMounts_update (fun _ _ hsub => ih hsub) hi hx

/-! ## The depth of a fold -/

/-- The servers whose mounts have not been folded in. -/
def Heap.pending (h : Heap φ ν μ κ) : Nat := h.servers.countP fun a => !a.mounted.isEmpty

theorem pending_le_length : h.pending ≤ h.servers.length := List.countP_le_length

/-- What an update of one server does to the count. -/
theorem pending_update_add {a : Server φ ν μ κ} (hi : h.servers[i]? = some a) :
    (h.update i f).pending + (if !a.mounted.isEmpty then 1 else 0) =
      h.pending + (if !(f a).mounted.isEmpty then 1 else 0) := by
  have hset : (h.update i f).servers = h.servers.set i (f a) := by
    refine List.ext_getElem? fun k => ?_
    rw [servers_update]
    by_cases hik : i = k
    · subst hik
      rw [hi, List.getElem?_set_self (List.getElem?_eq_some_iff.1 hi).1]
      simp
    · rw [List.getElem?_set_ne hik]
      simp [hik]
  rw [Heap.pending, hset]
  exact countP_set_add _ hi (f a)

theorem pending_update (hf : ∀ a, (f a).mounted = a.mounted) :
    (h.update i f).pending = h.pending := by
  cases hi : h.servers[i]? with
  | none => rw [update_eq_self fun a ha => by cases hi.symm.trans ha]
  | some a =>
      have hadd := pending_update_add (f := f) hi
      rw [hf a] at hadd
      omega

/-- Forgetting the mounts of a server. -/
theorem pending_clear {a : Server φ ν μ κ} (hi : h.servers[i]? = some a)
    (hmounted : a.mounted ≠ []) :
    (h.update i (Server.remount [])).pending + 1 = h.pending := by
  have hadd := pending_update_add (f := Server.remount []) hi
  have hsome : (!a.mounted.isEmpty) = true := by simpa using hmounted
  rw [if_pos hsome] at hadd
  simpa [Server.remount] using hadd

theorem pending_clear_le (h : Heap φ ν μ κ) (i : Nat) :
    (h.update i (Server.remount [])).pending ≤ h.pending := by
  cases hi : h.servers[i]? with
  | none => rw [update_eq_self fun a ha => by cases hi.symm.trans ha]
  | some a =>
      have hadd := pending_update_add (f := Server.remount []) hi
      have hcleared : (!(Server.remount [] a).mounted.isEmpty) = false := rfl
      rw [hcleared] at hadd
      simp only [Bool.false_eq_true, if_false] at hadd
      omega

theorem taking_cases (h : Heap φ ν μ κ) (m : Text × Nat) (a : Server φ ν μ κ) :
    h.taking m a = a ∨ ∃ sub ∈ h.servers, h.taking m a = a.absorb m.1 sub := by
  rw [Heap.taking]
  cases hsub : h.servers[m.2]? with
  | none => exact Or.inl rfl
  | some sub => exact Or.inr ⟨sub, List.mem_of_getElem? hsub, rfl⟩

theorem mounted_taking (h : Heap φ ν μ κ) (m : Text × Nat) (a : Server φ ν μ κ) :
    (h.taking m a).mounted = a.mounted := by
  rcases taking_cases h m a with heq | ⟨sub, -, heq⟩
  · rw [heq]
  · rw [heq]
    rfl

theorem base_taking (h : Heap φ ν μ κ) (m : Text × Nat) (a : Server φ ν μ κ) :
    (h.taking m a).base = a.base := by
  rcases taking_cases h m a with heq | ⟨sub, -, heq⟩
  · rw [heq]
  · rw [heq]
    rfl

/-- A round of the loop keeps the mounts and the base of every server. -/
theorem mounted_absorb (h : Heap φ ν μ κ) (i : Nat) (m : Text × Nat) (k : Nat) :
    ((h.absorb i m).servers[k]?).map Server.mounted = (h.servers[k]?).map Server.mounted :=
  map_update Server.mounted (h.taking m) (mounted_taking h m) k

theorem base_absorb (h : Heap φ ν μ κ) (i : Nat) (m : Text × Nat) (k : Nat) :
    ((h.absorb i m).servers[k]?).map Server.base = (h.servers[k]?).map Server.base :=
  map_update Server.base (h.taking m) (base_taking h m) k

@[simp] theorem pending_absorb : (h.absorb i m).pending = h.pending :=
  pending_update (mounted_taking h m)

theorem pending_applyMounts_le {n fuel : Nat} (hn : h.pending ≤ n) :
    (h.applyMounts fuel i).pending ≤ n :=
  applyMounts_keeps (P := fun h => h.pending ≤ n)
    (fun h i hh => (pending_clear_le h i).trans hh)
    (fun _ _ _ hh => pending_absorb.le.trans hh) fuel i hn

theorem foldMounts_enough {fuel : Nat}
    (happly : ∀ (h : Heap φ ν μ κ) sub, h.pending ≤ fuel →
      h.applyMounts (fuel + 1) sub = h.applyMounts fuel sub)
    (mounts : List (Text × Nat)) (hfuel : h.pending ≤ fuel) :
    h.foldMounts (fuel + 1) i mounts = h.foldMounts fuel i mounts := by
  induction mounts generalizing h with
  | nil => rfl
  | cons m mounts ih =>
      rw [foldMounts_cons, foldMounts_cons, happly h m.2 hfuel]
      exact ih (pending_absorb.le.trans (pending_applyMounts_le hfuel))

/-- A depth of one call for each pending server is never exceeded. -/
theorem applyMounts_enough {fuel : Nat} (hfuel : h.pending ≤ fuel) :
    h.applyMounts (fuel + 1) i = h.applyMounts fuel i := by
  induction fuel generalizing h i with
  | zero =>
      cases hi : h.servers[i]? with
      | none => rw [applyMounts_none hi, applyMounts_none hi]
      | some a =>
          have hmounted : a.mounted = [] := by
            by_contra hne
            have hclear := pending_clear hi hne
            omega
          rw [applyMounts_some hi, hmounted]
          refine update_eq_self fun b hb => ?_
          obtain rfl : a = b := Option.some.inj (hi.symm.trans hb)
          exact congrArg (fun mounted => Server.remount mounted a) hmounted.symm
  | succ fuel ih =>
      cases hi : h.servers[i]? with
      | none => rw [applyMounts_none hi, applyMounts_none hi]
      | some a =>
          rw [applyMounts_some hi, applyMounts_some hi]
          by_cases hmounted : a.mounted = []
          · rw [hmounted]
            rfl
          · have hclear := pending_clear hi hmounted
            exact foldMounts_enough (fun h sub => ih) a.mounted (by omega)

/-- The recursion of `#applyMounts` ends: more depth than there are servers is not used. -/
theorem applyMounts_ends {fuel : Nat} (hfuel : h.servers.length ≤ fuel) :
    h.applyMounts fuel i = h.applyMounts h.servers.length i := by
  induction fuel with
  | zero => rw [Nat.le_zero.1 hfuel]
  | succ fuel ih =>
      rcases Nat.of_le_succ hfuel with hle | heq
      · rw [applyMounts_enough (pending_le_length.trans hle), ih hle]
      · rw [heq]

end Heaps

/-! ## Hooks that are put in once -/

section Validation

variable (validation : RouteSchema ν → φ)

/-- The route of a leaf with its validation hook in front, if it has one. -/
def Entry.validated (e : Entry φ ν μ κ) : Route φ :=
  match e.schema with
  | some schema =>
      if schema.hasValibot then
        { e.route with
          hooks :=
            Function.update e.route.hooks .preValidation
              (validation schema :: e.route.hooks .preValidation) }
      else e.route
  | none => e.route

theorem injectValidation_route {e : Entry φ ν μ κ} (he : e.validationInjected = false) :
    (e.injectValidation validation).route = e.validated validation := by
  rw [Entry.injectValidation, Entry.validated]
  cases e.schema with
  | none => rfl
  | some schema =>
      cases hvalibot : schema.hasValibot with
      | false => simp [he, hvalibot]
      | true => simp [he, hvalibot]

theorem injectValidation_of_injected {e : Entry φ ν μ κ} (he : e.validationInjected = true) :
    e.injectValidation validation = e := by
  rw [Entry.injectValidation]
  cases e.schema with
  | none => rfl
  | some schema => simp [he]

theorem injectValidation_idem (e : Entry φ ν μ κ) :
    (e.injectValidation validation).injectValidation validation =
      e.injectValidation validation := by
  obtain ⟨route, schema, multipart, cache, injected⟩ := e
  cases schema with
  | none => rfl
  | some schema =>
      cases injected with
      | true => rw [injectValidation_of_injected validation rfl]
      | false =>
          cases hvalibot : schema.hasValibot with
          | false => simp [Entry.injectValidation, hvalibot]
          | true => simp [Entry.injectValidation, hvalibot]

theorem injectValidation_under (mount : Text) (e : Entry φ ν μ κ) :
    (e.under mount).injectValidation validation =
      (e.injectValidation validation).under mount := by
  obtain ⟨route, schema, multipart, cache, injected⟩ := e
  cases schema with
  | none => rfl
  | some schema =>
      cases injected with
      | true =>
          rw [injectValidation_of_injected validation rfl,
            injectValidation_of_injected validation rfl]
      | false =>
          cases hvalibot : schema.hasValibot with
          | false => simp [Entry.injectValidation, Entry.under, hvalibot]
          | true => simp [Entry.injectValidation, Entry.under, Route.under, hvalibot]

/-- Every server with the validation hooks in. -/
def Heap.settled (h : Heap φ ν μ κ) : Heap φ ν μ κ :=
  { h with servers := h.servers.map (Server.injectValidation validation) }

section Settled

variable {validation}
variable {h : Heap φ ν μ κ} {i : Nat} {f g : Server φ ν μ κ → Server φ ν μ κ}

theorem servers_settled (k : Nat) :
    (h.settled validation).servers[k]? =
      (h.servers[k]?).map (Server.injectValidation validation) := List.getElem?_map

theorem settled_update
    (hfg : ∀ a, (f a).injectValidation validation = g (a.injectValidation validation)) :
    (h.update i f).settled validation = (h.settled validation).update i g := by
  refine heap_ext rfl fun k => ?_
  rw [servers_settled, servers_update, servers_update, servers_settled]
  cases h.servers[k]? with
  | none => rfl
  | some a => by_cases hik : i = k <;> simp [hik, hfg]

/-- `injectValidation` over the routes of a server is a matter of its own. -/
theorem settled_inject :
    (h.update i (Server.injectValidation validation)).settled validation =
      h.settled validation := by
  rw [settled_update (g := id) fun a => ?_]
  · exact update_eq_self fun _ _ => rfl
  · simp [Server.injectValidation, injectValidation_idem]

theorem absorb_injectValidation (a : Server φ ν μ κ) (mount : Text) (sub : Server φ ν μ κ) :
    (a.absorb mount sub).injectValidation validation =
      (a.injectValidation validation).absorb mount (sub.injectValidation validation) := by
  simp [Server.absorb, Server.injectValidation, injectValidation_under]

theorem settled_absorb (m : Text × Nat) :
    (h.absorb i m).settled validation = (h.settled validation).absorb i m := by
  have htaking : ∀ a, (h.taking m a).injectValidation validation =
      (h.settled validation).taking m (a.injectValidation validation) := by
    intro a
    rw [Heap.taking, Heap.taking, servers_settled]
    cases h.servers[m.2]? with
    | none => rfl
    | some sub => exact absorb_injectValidation a m.1 sub
  have hupdate := settled_update (h := h) (i := i) htaking
  exact congrArg (fun t => { t with folded := h.folded ++ [i, m.2] }) hupdate

theorem settled_foldMounts {fuel : Nat}
    (happly : ∀ (h : Heap φ ν μ κ) sub,
      (h.applyMounts fuel sub).settled validation =
        (h.settled validation).applyMounts fuel sub)
    (mounts : List (Text × Nat)) :
    (h.foldMounts fuel i mounts).settled validation =
      (h.settled validation).foldMounts fuel i mounts := by
  induction mounts generalizing h with
  | nil => rfl
  | cons m mounts ih => rw [foldMounts_cons, foldMounts_cons, ih, settled_absorb, happly]

/-- Folding does not look at the hooks that are put in. -/
theorem settled_applyMounts (fuel i : Nat) :
    (h.applyMounts fuel i).settled validation =
      (h.settled validation).applyMounts fuel i := by
  induction fuel generalizing h i with
  | zero => rfl
  | succ fuel ih =>
      cases hi : h.servers[i]? with
      | none =>
          rw [applyMounts_none hi, applyMounts_none]
          rw [servers_settled, hi]
          rfl
      | some a =>
          have hs : (h.settled validation).servers[i]? =
              some (a.injectValidation validation) := by
            rw [servers_settled, hi]
            rfl
          have hclear : (h.update i (Server.remount [])).settled validation =
              (h.settled validation).update i (Server.remount []) :=
            settled_update fun a => rfl
          rw [applyMounts_some hi, applyMounts_some hs, settled_foldMounts (fun h sub => ih sub),
            hclear]
          rfl

end Settled

/-! ## A server that has tried to listen -/

/-- The server that listens has folded these mounts in, and forgotten all. -/
def Heap.begun (n : Nat) (done : List (Text × Nat)) (h : Heap φ ν μ κ) : Heap φ ν μ κ :=
  (h.update 0 (Server.remount [])).foldMounts n 0 done

section Begun

variable {h h' : Heap φ ν μ κ} {n : Nat} {done rest : List (Text × Nat)} {a : Server φ ν μ κ}

theorem applyMounts_eq_begun (ha : h.servers[0]? = some a) :
    h.applyMounts (n + 1) 0 = h.begun n a.mounted := applyMounts_some ha

theorem begun_append :
    h.begun n (done ++ rest) = (h.begun n done).foldMounts n 0 rest := foldMounts_append ..

theorem begun_keeps {P : Heap φ ν μ κ → Prop}
    (hclear : ∀ h i, P h → P (Heap.update i (Server.remount []) h))
    (habsorb : ∀ h i m, P h → P (Heap.absorb i m h))
    (hP : P (h.update 0 (Server.remount []))) : P (h.begun n done) :=
  foldMounts_keeps (fun _ sub => applyMounts_keeps hclear habsorb n sub)
    (fun h m => habsorb h 0 m) done hP

@[simp] theorem length_begun : (h.begun n done).servers.length = h.servers.length :=
  begun_keeps (P := fun h' => h'.servers.length = h.servers.length)
    (fun _ _ hh => length_update.trans hh) (fun _ _ _ hh => length_update.trans hh)
    length_update

theorem base_begun (h : Heap φ ν μ κ) (n : Nat) (done : List (Text × Nat)) :
    ((h.begun n done).servers[0]?).map Server.base = (h.servers[0]?).map Server.base :=
  begun_keeps
    (P := fun h' => (h'.servers[0]?).map Server.base = (h.servers[0]?).map Server.base)
    (fun _ _ hh => (map_update Server.base (Server.remount []) (fun _ => rfl) 0).trans hh)
    (fun h' i m hh => (base_absorb h' i m 0).trans hh)
    (map_update Server.base (Server.remount []) (fun _ => rfl) 0)

/-- The mounts stay forgotten. -/
theorem mounted_begun {b : Server φ ν μ κ} (hb : (h.begun n done).servers[0]? = some b) :
    b.mounted = [] := by
  refine begun_keeps (P := fun h' => ∀ b, h'.servers[0]? = some b → b.mounted = [])
    ?_ ?_ ?_ b hb
  · intro h' i hh b hb
    rw [servers_update] at hb
    obtain ⟨c, hc, rfl⟩ := Option.map_eq_some_iff.1 hb
    by_cases hi : i = 0
    · simp [hi, Server.remount]
    · simpa [hi] using hh c hc
  · intro h' i m hh b hb
    have hmounted := mounted_absorb h' i m 0
    rw [hb] at hmounted
    obtain ⟨c, hc, hcb⟩ := Option.map_eq_some_iff.1 hmounted.symm
    exact hcb.symm.trans (hh c hc)
  · intro b hb
    rw [servers_update_self] at hb
    obtain ⟨c, -, rfl⟩ := Option.map_eq_some_iff.1 hb
    rfl

theorem begun_cleared :
    (h.begun n done).update 0 (Server.remount []) = h.begun n done := by
  refine update_eq_self fun b hb => ?_
  exact congrArg (fun mounted => Server.remount mounted b) (mounted_begun hb).symm

theorem servers_begun (n : Nat) (done : List (Text × Nat)) (ha : h.servers[0]? = some a) :
    ∃ b, (h.begun n done).servers[0]? = some b ∧ b.base = a.base := by
  have hbase := base_begun h n done
  rw [ha] at hbase
  exact Option.map_eq_some_iff.1 hbase

end Begun

/-- `h` against the same servers in a program that has not tried to listen: some of the
first mounts have been folded in, and validation hooks may be in. -/
structure Partly (n : Nat) (h fresh : Heap φ ν μ κ) : Prop where
  length : fresh.servers.length = n + 1
  unfolded : fresh.folded = []
  begun : ∃ a done rest, fresh.servers[0]? = some a ∧ a.mounted = done ++ rest ∧
    h.settled validation =
      ((fresh.settled validation).begun n done).update 0 (Server.remount rest)

namespace Partly

variable {validation}
variable {n i : Nat} {h fresh : Heap φ ν μ κ} {f g : Server φ ν μ κ → Server φ ν μ κ}

theorem servers_length (hp : Partly validation n h fresh) : h.servers.length = n + 1 := by
  obtain ⟨a, done, rest, -, -, hsettled⟩ := hp.begun
  have hlength := congrArg (fun t => t.servers.length) hsettled
  simpa [Heap.settled, hp.length] using hlength

theorem folded_of_settled {t : Heap φ ν μ κ}
    (hsettled : h.settled validation = t.update i f) : h.folded = t.folded := by
  have hfolded : (h.settled validation).folded = (t.update i f).folded := by rw [hsettled]
  exact hfolded

/-- The fold goes on where it was left. -/
theorem applyMounts_settled (hp : Partly validation n h fresh) {a : Server φ ν μ κ}
    (ha : fresh.servers[0]? = some a) :
    (h.settled validation).applyMounts (n + 1) 0 =
      (fresh.settled validation).begun n a.mounted := by
  obtain ⟨a', done, rest, ha', hmounted, hsettled⟩ := hp.begun
  obtain rfl : a' = a := Option.some.inj (ha'.symm.trans ha)
  have hfirst : (fresh.settled validation).servers[0]? =
      some (a'.injectValidation validation) := by
    rw [servers_settled, ha]
    rfl
  obtain ⟨b, hb, -⟩ := servers_begun n done hfirst
  have hrest : (h.settled validation).servers[0]? = some (b.remount rest) := by
    rw [hsettled, servers_update_self, hb]
    rfl
  rw [applyMounts_some hrest, hsettled, update_update, hmounted, begun_append]
  exact congrArg (Heap.foldMounts n 0 rest) begun_cleared

theorem listen (hp : Partly validation n h fresh) :
    Partly validation n (h.applyMounts (n + 1) 0) fresh := by
  obtain ⟨a, done, rest, ha, -, -⟩ := hp.begun
  refine ⟨hp.length, hp.unfolded, a, a.mounted, [], ha, (List.append_nil _).symm, ?_⟩
  rw [settled_applyMounts, hp.applyMounts_settled ha, begun_cleared]

theorem bindFails (hp : Partly validation n h fresh) :
    Partly validation n (h.update 0 (Server.injectValidation validation)) fresh := by
  refine ⟨hp.length, hp.unfolded, ?_⟩
  rw [settled_inject]
  exact hp.begun

/-- A server that no fold has reached. -/
theorem update_other (hp : Partly validation n h fresh) (hi : i ≠ 0) (hx : i ∉ h.folded)
    (hfg : ∀ a, (f a).injectValidation validation = g (a.injectValidation validation)) :
    Partly validation n (h.update i f) (fresh.update i f) := by
  obtain ⟨a, done, rest, ha, hmounted, hsettled⟩ := hp.begun
  refine ⟨length_update.trans hp.length, hp.unfolded, a, done, rest,
    (servers_update_ne hi).trans ha, hmounted, ?_⟩
  have hfolded := folded_of_settled hsettled
  rw [settled_update hfg, settled_update hfg, hsettled, update_comm hi.symm]
  refine congrArg (Heap.update 0 (Server.remount rest)) ?_
  rw [Heap.begun, Heap.begun, update_comm hi]
  exact (foldMounts_update (fun _ _ hsub => applyMounts_update hsub) hi
    (hfolded ▸ hx)).symm

/-- The server that listens, as long as it has folded nothing in. -/
theorem update_own (hp : Partly validation n h fresh) (hx : 0 ∉ h.folded)
    (hfg : ∀ a, (f a).injectValidation validation = g (a.injectValidation validation))
    (hmounts : ∀ a, (f a).mounted = a.mounted)
    (hg : ∀ mounted a, g (a.remount mounted) = (g a).remount mounted) :
    Partly validation n (h.update 0 f) (fresh.update 0 f) := by
  obtain ⟨a, done, rest, ha, hmounted, hsettled⟩ := hp.begun
  have hfolded := folded_of_settled hsettled
  have hdone : done = [] := by
    by_contra hne
    exact hx (hfolded ▸ mem_folded_self hne)
  have hfirst : (fresh.update 0 f).servers[0]? = some (f a) := by
    rw [servers_update_self, ha]
    rfl
  refine ⟨length_update.trans hp.length, hp.unfolded, f a, done, rest, hfirst,
    (hmounts a).trans hmounted, ?_⟩
  rw [settled_update hfg, settled_update hfg, hsettled, hdone]
  simp only [Heap.begun, Heap.foldMounts, List.foldl_nil, update_update]
  refine congrArg (fun f => Heap.update 0 f (fresh.settled validation)) (funext fun b => ?_)
  exact (hg rest _).trans (congrArg (Server.remount rest) (hg [] b))

/-- What a registration does to a server with its hooks in. -/
def settle (validation : RouteSchema ν → φ) (r : Registration φ ν μ κ)
    (a : Server φ ν μ κ) : Server φ ν μ κ :=
  match r with
  | .add e =>
      { a with routes := a.routes ++ [(e.registered a.base).injectValidation validation] }
  | r => Registration.apply a r

theorem injectValidation_apply (r : Registration φ ν μ κ) (a : Server φ ν μ κ) :
    (Registration.apply a r).injectValidation validation =
      settle validation r (a.injectValidation validation) := by
  cases r with
  | add e => simp [Registration.apply, settle, Server.injectValidation]
  | use c => rfl
  | addHook stage fn => rfl
  | route pfx sub => rfl

/-- Another mount of the server that listens. -/
theorem mount (hp : Partly validation n h fresh) (pfx : Text) (sub : Nat) :
    Partly validation n (h.update 0 (Registration.apply · (.route pfx sub)))
      (fresh.update 0 (Registration.apply · (.route pfx sub))) := by
  obtain ⟨a, done, rest, ha, hmounted, hsettled⟩ := hp.begun
  have hfirst : (fresh.update 0 (Registration.apply · (.route pfx sub))).servers[0]? =
      some (Registration.apply a (.route pfx sub)) := by
    rw [servers_update_self, ha]
    rfl
  have hsettle : ∀ t : Heap φ ν μ κ,
      (t.update 0 (Registration.apply · (.route pfx sub))).settled validation =
        (t.settled validation).update 0 (Registration.apply · (.route pfx sub)) :=
    fun t => settled_update fun b => rfl
  have hbegun : ((fresh.settled validation).update 0
      (Registration.apply · (.route pfx sub))).begun n done =
        (fresh.settled validation).begun n done := by
    rw [Heap.begun, update_update]
    rfl
  have hbase : (fresh.settled validation).servers[0]? =
      some (a.injectValidation validation) := by
    rw [servers_settled, ha]
    rfl
  obtain ⟨b, hb, hab⟩ := servers_begun n done hbase
  refine ⟨length_update.trans hp.length, hp.unfolded, _, done,
    rest ++ [(mountPrefix a.base pfx, sub)], hfirst, ?_, ?_⟩
  · exact (congrArg (· ++ [(mountPrefix a.base pfx, sub)]) hmounted).trans
      (List.append_assoc ..)
  · rw [hsettle, hsettle, hbegun, hsettled, update_update]
    refine update_congr fun c hc => ?_
    obtain rfl : b = c := Option.some.inj (hb.symm.trans hc)
    have hmount : mountPrefix b.base pfx = mountPrefix a.base pfx :=
      congrArg (mountPrefix · pfx) hab
    exact congrArg (fun pfx => b.remount (rest ++ [(pfx, sub)])) hmount

theorem register (hp : Partly validation n h fresh) {r : Registration φ ν μ κ}
    (hr : i ∉ h.folded ∨ (i = 0 ∧ r.isMount = true)) :
    Partly validation n (h.update i (Registration.apply · r))
      (fresh.update i (Registration.apply · r)) := by
  by_cases hi : i = 0
  · subst hi
    have hx (hmount : r.isMount = false) : 0 ∉ h.folded :=
      hr.resolve_right fun hroot => by cases hmount.symm.trans hroot.2
    cases r with
    | route pfx sub => exact hp.mount pfx sub
    | add e | use c | addHook stage fn =>
        exact hp.update_own (hx rfl) (injectValidation_apply _) (fun _ => rfl) fun _ _ => rfl
  · have hx : i ∉ h.folded := hr.resolve_right fun hroot => hi hroot.1
    exact hp.update_other hi hx (injectValidation_apply r)

end Partly

/-! ## Runs -/

/-- No validation hook is in. -/
def Heap.Unhooked (h : Heap φ ν μ κ) : Prop :=
  ∀ a ∈ h.servers, ∀ e ∈ a.routes, e.validationInjected = false

/-- Where the retries of `s` and the registrations of `fresh` have come to. -/
structure Tried (n : Nat) (s fresh : State φ ν μ κ) : Prop where
  partly : Partly validation n s.heap fresh.heap
  unhooked : fresh.heap.Unhooked
  unixPath : fresh.unixPath = none

section Runs

variable {validation}
variable {n i : Nat} {h : Heap φ ν μ κ} {s t fresh : State φ ν μ κ}

theorem Heap.Unhooked.update (hh : h.Unhooked) {f : Server φ ν μ κ → Server φ ν μ κ}
    (hf : ∀ a ∈ h.servers, ∀ e ∈ (f a).routes, e.validationInjected = false) :
    (h.update i f).Unhooked := by
  intro b hb
  obtain ⟨k, hk⟩ := List.mem_iff_getElem?.1 hb
  rw [servers_update] at hk
  obtain ⟨a, ha, rfl⟩ := Option.map_eq_some_iff.1 hk
  have hmem : a ∈ h.servers := List.mem_of_getElem? ha
  by_cases hik : i = k
  · simpa [hik] using hf a hmem
  · simpa [hik] using hh a hmem

theorem Heap.Unhooked.register (hh : h.Unhooked) (r : Registration φ ν μ κ) :
    (h.update i (Registration.apply · r)).Unhooked := by
  refine hh.update fun a ha => ?_
  cases r with
  | add e =>
      intro e' he'
      rcases List.mem_append.1 he' with he' | he'
      · exact hh a ha e' he'
      · rw [List.mem_singleton.1 he']
        rfl
  | use c => exact hh a ha
  | addHook stage fn => exact hh a ha
  | route pfx sub => exact hh a ha

/-- Mounting makes no hook either. -/
theorem Heap.Unhooked.applyMounts (hh : h.Unhooked) (fuel : Nat) :
    (h.applyMounts fuel i).Unhooked := by
  refine applyMounts_keeps (P := Heap.Unhooked) (fun h i hh => ?_) (fun h i m hh => ?_)
    fuel i hh
  · exact hh.update fun a ha => hh a ha
  · have hupdate : (h.update i (h.taking m)).Unhooked := by
      refine hh.update fun a ha e he => ?_
      rcases taking_cases h m a with heq | ⟨sub, hsub, heq⟩
      · rw [heq] at he
        exact hh a ha e he
      · rw [heq] at he
        rcases List.mem_append.1 he with he | he
        · exact hh a ha e he
        · obtain ⟨e', he', rfl⟩ := List.mem_map.1 he
          exact hh sub hsub e' he'
    exact hupdate

theorem step_register {r : Registration φ ν μ κ}
    (h : step validation s (.register i r) = some t) :
    r.admitted i s.heap.servers.length = true ∧
      t = { s with heap := s.heap.update i (Registration.apply · r) } := by
  simp only [step, Option.ite_none_right_eq_some] at h
  exact ⟨h.1, (Option.some.inj h.2).symm⟩

theorem step_listen {args : ListenArgs} (h : step validation s (.listen args) = some t) :
    t = { heap := s.heap.applyMounts s.heap.servers.length 0
          unixPath := args.path.or s.unixPath } := by
  simp only [step, Option.ite_none_right_eq_some] at h
  exact (Option.some.inj h.2).symm

theorem tried_init (baseUrl : Text) (subs : List Text) :
    Tried validation subs.length (State.init baseUrl subs : State φ ν μ κ)
      (State.init baseUrl subs) := by
  refine ⟨⟨by simp [State.init], rfl, Server.new baseUrl, [], [], rfl, rfl, ?_⟩, ?_, rfl⟩
  · refine ((update_update _ 0 _ _).trans (update_eq_self fun a ha => ?_)).symm
    obtain rfl := Option.some.inj ha
    rfl
  · intro a ha e he
    obtain ⟨base, -, rfl⟩ := List.mem_map.1 ha
    cases he

theorem tried_skip (ht : Tried validation n s fresh) {l : Label φ ν μ κ}
    (hstep : step validation s l = some t) (hl : l.isRegistration = false) :
    Tried validation n t fresh := by
  cases l with
  | register i r => cases hl
  | listen args =>
      obtain rfl := step_listen hstep
      rw [ht.partly.servers_length]
      exact ⟨ht.partly.listen, ht.unhooked, ht.unixPath⟩
  | bindFails =>
      obtain rfl := Option.some.inj hstep
      exact ⟨ht.partly.bindFails, ht.unhooked, ht.unixPath⟩

theorem tried_register (ht : Tried validation n s fresh) {r : Registration φ ν μ κ}
    (hr : s.traceless (.register i r)) (hstep : step validation s (.register i r) = some t) :
    ∃ fresh', step validation fresh (.register i r) = some fresh' ∧
      Tried validation n t fresh' := by
  obtain ⟨hadmitted, rfl⟩ := step_register hstep
  rw [ht.partly.servers_length, ← ht.partly.length] at hadmitted
  exact ⟨_, if_pos hadmitted, ht.partly.register hr, ht.unhooked.register r, ht.unixPath⟩

theorem Label.guard_isRegistration :
    (fun l : Label φ ν μ κ => if l.isRegistration then some l else none) =
      Option.guard Label.isRegistration := by
  funext l
  cases l <;> rfl

/-- A run with failed attempts, beside its registrations alone. -/
theorem run_tried {ls : List (Label φ ν μ κ)} (ht : Tried validation n s fresh)
    (htraceless : Along (step validation) State.traceless s ls)
    (hrun : run (step validation) s ls = some t) :
    ∃ fresh', run (step validation) fresh (ls.filter Label.isRegistration) = some fresh' ∧
      Tried validation n t fresh' := by
  rw [← List.filterMap_eq_filter, ← Label.guard_isRegistration]
  refine htraceless.simulates (Tried validation n) _ ?_ ?_ ht hrun
  · intro s l t fresh ht _ hstep hl
    refine tried_skip ht hstep ?_
    cases hreg : l.isRegistration with
    | false => rfl
    | true => simp [hreg] at hl
  · intro s l t fresh m ht htr hstep hl
    cases l with
    | register i r =>
        obtain rfl : Label.register i r = m := by simpa [Label.isRegistration] using hl
        exact tried_register ht htr hstep
    | listen args => cases hl
    | bindFails => cases hl

/-- A Unix path, once given, stays in the options. -/
theorem unixPath_eq_none_iff {ls : List (Label φ ν μ κ)}
    (hrun : run (step validation) s ls = some t) :
    t.unixPath = none ↔
      s.unixPath = none ∧ ∀ args, Label.listen args ∈ ls → args.path = none := by
  induction ls generalizing s with
  | nil =>
      obtain rfl := Option.some.inj hrun
      simp
  | cons l ls ih =>
      obtain ⟨u, hu, hut⟩ := run_cons_some.1 hrun
      rw [ih hut]
      cases l with
      | register i r =>
          obtain ⟨-, rfl⟩ := step_register hu
          simp
      | listen args =>
          obtain rfl := step_listen hu
          simp only [Option.or_eq_none_iff, List.mem_cons, Label.listen.injEq, forall_eq_or_imp]
          rw [and_assoc]
          exact and_left_comm
      | bindFails =>
          obtain rfl := Option.some.inj hu
          simp

end Runs

/-- What a `listen` of these servers hands over. -/
theorem handed_eq (toJsonSchema : ν → Text) {s : State φ ν μ κ} {args : ListenArgs}
    {a : Server φ ν μ κ} (hargs : args.admitted = true)
    (ha : ((s.heap.applyMounts s.heap.servers.length 0).settled validation).servers[0]? =
      some a) :
    s.handed validation toJsonSchema args =
      some (a.handed toJsonSchema (bindTarget (args.path.or s.unixPath) args)) := by
  rw [servers_settled] at ha
  have hinject := servers_update_self (s.heap.applyMounts s.heap.servers.length 0) 0
    (Server.injectValidation validation)
  simp [State.handed, step, hargs, hinject, ha]

theorem bindTarget_eq_iff {unixPath : Option Text} {args : ListenArgs} :
    bindTarget (args.path.or unixPath) args = bindTarget args.path args ↔
      args.path.isSome = true ∨ unixPath = none := by
  obtain ⟨port, host, path⟩ := args
  cases path with
  | some path => simp [bindTarget]
  | none =>
      cases unixPath with
      | none => simp [bindTarget]
      | some path => simp [bindTarget]

/-- The folds of the two programs leave the same first server, hooks apart. -/
theorem Tried.first {n : Nat} {s fresh : State φ ν μ κ} (ht : Tried validation n s fresh) :
    ∃ a, (fresh.heap.applyMounts (n + 1) 0).servers[0]? = some a ∧
      ((s.heap.applyMounts (n + 1) 0).settled validation).servers[0]? =
        some (a.injectValidation validation) ∧
      ((fresh.heap.applyMounts (n + 1) 0).settled validation).servers[0]? =
        some (a.injectValidation validation) := by
  obtain ⟨b, done, rest, hb, -, -⟩ := ht.partly.begun
  have hfold := applyMounts_eq_begun (n := n) hb
  obtain ⟨a, ha, -⟩ := servers_begun n b.mounted hb
  have hfresh : ((fresh.heap.applyMounts (n + 1) 0).settled validation).servers[0]? =
      some (a.injectValidation validation) := by
    rw [servers_settled, hfold, ha]
    rfl
  have hsettled : (fresh.heap.settled validation).servers[0]? =
      some (b.injectValidation validation) := by
    rw [servers_settled, hb]
    rfl
  refine ⟨a, hfold ▸ ha, ?_, hfresh⟩
  rw [settled_applyMounts, ht.partly.applyMounts_settled hb]
  rw [settled_applyMounts, applyMounts_eq_begun hsettled] at hfresh
  exact hfresh

/-- A hook that no entry has yet is in front exactly once. -/
theorem chains_injectValidation (toJsonSchema : ν → Text) (target : Target)
    {a : Server φ ν μ κ} (ha : ∀ e ∈ a.routes, e.validationInjected = false) :
    ((a.injectValidation validation).handed toJsonSchema target).chains =
      a.routes.map fun e => buildChain (e.validated validation) a.middleware a.hooks := by
  simp only [Server.handed, Server.injectValidation, List.map_map]
  refine List.map_congr_left fun e he => ?_
  simp only [Function.comp_apply, injectValidation_route validation (ha e he)]

/--
A `listen` after failed ones hands over the table and the chains of a fresh `Server` with
the same registrations, with each validation hook once; it binds what a fresh one binds
exactly when it has a path itself or none of the failed ones had.
-/
theorem handed_iff (toJsonSchema : ν → Text) {baseUrl : Text} {subs : List Text}
    {ls : List (Label φ ν μ κ)} {s : State φ ν μ κ} {args : ListenArgs}
    (hrun : run (step validation) (State.init baseUrl subs) ls = some s)
    (htraceless : Along (step validation) State.traceless (State.init baseUrl subs) ls)
    (hargs : args.admitted = true) :
    ∃ fresh H F a,
      run (step validation) (State.init baseUrl subs) (ls.filter Label.isRegistration) =
        some fresh ∧
      s.handed validation toJsonSchema args = some H ∧
      fresh.handed validation toJsonSchema args = some F ∧
      H.table = F.table ∧ H.chains = F.chains ∧
      (fresh.heap.applyMounts fresh.heap.servers.length 0).servers[0]? = some a ∧
      F.chains =
        a.routes.map (fun e => buildChain (e.validated validation) a.middleware a.hooks) ∧
      (H.target = F.target ↔
        args.path.isSome = true ∨ ∀ args', Label.listen args' ∈ ls → args'.path = none) := by
  obtain ⟨fresh, hfresh, ht⟩ := run_tried (tried_init baseUrl subs) htraceless hrun
  obtain ⟨a, ha, htried, hregistered⟩ := ht.first
  rw [← ht.partly.servers_length] at htried
  rw [← ht.partly.length] at ha hregistered
  have hunhooked : ∀ e ∈ a.routes, e.validationInjected = false :=
    ht.unhooked.applyMounts _ a (List.mem_of_getElem? ha)
  refine ⟨fresh, _, _, a, hfresh, handed_eq validation toJsonSchema hargs htried,
    handed_eq validation toJsonSchema hargs hregistered, rfl, rfl, ha,
    chains_injectValidation validation toJsonSchema _ hunhooked, ?_⟩
  have htarget : bindTarget (args.path.or fresh.unixPath) args = bindTarget args.path args := by
    rw [ht.unixPath, Option.or_none]
  have hpaths := unixPath_eq_none_iff hrun
  simp only [Server.handed]
  rw [htarget, bindTarget_eq_iff, hpaths]
  simp [State.init]

end Validation

/-- A `POST /ping` whose body has a valibot schema. -/
def postPing : Entry Nat Nat Unit Unit where
  route := ⟨"POST".toList, "/ping".toList, [], fun _ => [], 7⟩
  schema := some ⟨some (.valibot 0), none, none⟩
  multipart := none
  cache := none
  validationInjected := false

/-- A mounted route, a port that is taken, another mount, and a port that is free. -/
theorem handed_iff_small :
    ∃ s fresh H F,
      run (step fun _ => 99) (State.init [] [[]])
        [.register 1 (.add postPing), .register 0 (.route "/api".toList 1),
          .listen ⟨some 21999, "127.0.0.1".toList, none⟩, .bindFails,
          .register 0 (.route "/v2".toList 1)] = some s ∧
      run (step fun _ => 99) (State.init [] [[]])
        [.register 1 (.add postPing), .register 0 (.route "/api".toList 1),
          .register 0 (.route "/v2".toList 1)] = some fresh ∧
      s.handed (fun _ => 99) (fun _ => []) ⟨some 22000, "127.0.0.1".toList, none⟩ = some H ∧
      fresh.handed (fun _ => 99) (fun _ => []) ⟨some 22000, "127.0.0.1".toList, none⟩ = some F ∧
      H.table = F.table ∧ H.chains = F.chains ∧ H.target = F.target ∧
      F.chains.map (fun c => c.hooks .preValidation) = [[99], [99]] := by
  obtain ⟨s, hs⟩ : ∃ s, run (step fun _ => 99) (State.init [] [[]])
      [.register 1 (.add postPing), .register 0 (.route "/api".toList 1),
        .listen ⟨some 21999, "127.0.0.1".toList, none⟩, .bindFails,
        .register 0 (.route "/v2".toList 1)] = some s := ⟨_, rfl⟩
  obtain ⟨fresh, H, F, a, hfresh, hH, hF, htable, hchains, -, -, htarget⟩ :=
    handed_iff (fun _ => 99) (fun _ => []) hs (by decide)
      (rfl : ListenArgs.admitted ⟨some 22000, "127.0.0.1".toList, none⟩ = true)
  refine ⟨s, fresh, H, F, hs, hfresh, hH, hF, htable, hchains, htarget.2 (by simp), ?_⟩
  obtain rfl := Option.some.inj hfresh
  obtain rfl := Option.some.inj hF
  rfl

/-- The path of a failed `listen` is bound in place of the port of the next one; and a route
that is registered on a mounted server after the failure is lost. -/
theorem trace_left :
    (∃ s fresh : State Nat Nat Unit Unit,
      run (step fun _ => 99) (State.init [] [])
        [.register 0 (.add postPing), .listen ⟨none, [], some "/bad/a.sock".toList⟩,
          .bindFails] = some s ∧
      run (step fun _ => 99) (State.init [] []) [.register 0 (.add postPing)] = some fresh ∧
      (s.handed (fun _ => 99) (fun _ => []) ⟨some 8080, [], none⟩).map Handed.target =
        some (.unix "/bad/a.sock".toList) ∧
      (fresh.handed (fun _ => 99) (fun _ => []) ⟨some 8080, [], none⟩).map Handed.target =
        some (.tcp [] 8080)) ∧
    (∃ s fresh : State Nat Nat Unit Unit,
      run (step fun _ => 99) (State.init [] [[]])
        [.register 0 (.route "/api".toList 1), .listen ⟨some 21999, [], none⟩, .bindFails,
          .register 1 (.add postPing)] = some s ∧
      run (step fun _ => 99) (State.init [] [[]])
        [.register 0 (.route "/api".toList 1), .register 1 (.add postPing)] = some fresh ∧
      (s.handed (fun _ => 99) (fun _ => []) ⟨some 22000, [], none⟩).map
          (fun H => H.table.map RouteDef.path) = some [] ∧
      (fresh.handed (fun _ => 99) (fun _ => []) ⟨some 22000, [], none⟩).map
          (fun H => H.table.map RouteDef.path) = some ["/api/ping".toList]) := by
  refine ⟨⟨_, _, rfl, rfl, rfl, rfl⟩, _, _, rfl, rfl, rfl, ?_⟩
  decide

end Retry
end Routing
end OxideHttp
