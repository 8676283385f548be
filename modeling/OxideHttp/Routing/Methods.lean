import Mathlib.Data.List.Dedup
import Mathlib.Data.List.Sort
import OxideHttp.Routing.Matching

/-!
# The methods of a path (`src/router.rs`, `src/server.rs`: `route_and_dispatch`)

A request is matched in the tree of its method, in the tree of `ALL`, and a HEAD request
then as a GET request.  What is left is answered from the list of the methods that the path
has.  `matchit` is a parameter, with the parameters that it extracts from a path.

Results.
* `allow_exact`: the list in the `Allow` header is that of the methods that are served, and
  a path is missing for one method exactly when it is missing for all of them.
* `head_mirrors_iff`: where there is no HEAD route, HEAD goes where GET goes unless the
  path has both a GET route and an ALL route.
-/

namespace OxideHttp
namespace Routing

/-- `Matched`. -/
structure Matched where
  leafId : Nat
  params : List (Text × Text)
  deriving DecidableEq, Repr

/-- The parameters that a tree extracts from a path: the pairs of the map, in the order of
their names. -/
abbrev ParamsOf := List (Text × Nat) → Text → List (Text × Text)

/-- Routes that have been built. -/
structure Router (M : Matchit) where
  defs : List RouteDef
  routes : Routes
  built : Routes.build M defs = .ok routes

/-- The method of the `ALL` tree. -/
def allMethod : Text := "ALL".toList

def getMethod : Text := "GET".toList

def headMethod : Text := "HEAD".toList

def optionsMethod : Text := "OPTIONS".toList

/-- The methods that `ALL` stands for in the `Allow` header. -/
def standardMethods : List Text :=
  ["GET".toList, "POST".toList, "PUT".toList, "PATCH".toList, "DELETE".toList, "QUERY".toList]

/-- The order of strings. -/
def leText : Text → Text → Bool
  | [], _ => true
  | _ :: _, [] => false
  | a :: as, b :: bs =>
      if a.toNat < b.toNat then true else if a = b then leText as bs else false

abbrev LeText (s t : Text) : Prop := leText s t = true

def pushMissing (methods : List Text) (m : Text) : List Text :=
  if m ∈ methods then methods else methods ++ [m]

/-- The derived `HEAD`. -/
def withHead (methods : List Text) : List Text :=
  if getMethod ∈ methods ∧ headMethod ∉ methods then methods ++ [headMethod] else methods

/-- What `route_and_dispatch` does with a request. -/
inductive Answer where
  /-- `dispatch`; the leaf of `notFound` is `-1` -/
  | dispatched (leaf : Int) (params : List (Text × Text)) (head : Bool)
  | notFound
  /-- 204 with this `Allow` header -/
  | options (allow : Text)
  /-- 405 with this `Allow` header -/
  | notAllowed (allow : Text)
  deriving DecidableEq, Repr

/-- The keys of `by_method`, with a tree each. -/
def methodsOf (defs : List RouteDef) : List Text :=
  ((defs.map fun d => d.method.map Char.toUpper).filter fun m => decide (m ≠ allMethod)).dedup

namespace Router

variable {M : Matchit} (P : ParamsOf) (r : Router M)

/-- `router.at(path)`, in the tree of a method. -/
def inTree (method path : Text) : Option Matched :=
  (r.routes.byMethod method).bind fun table =>
    (M.find table path).map fun leaf => ⟨leaf, P table path⟩

/-- The same in the tree of `ALL`. -/
def inAll (path : Text) : Option Matched :=
  r.routes.all.bind fun table => (M.find table path).map fun leaf => ⟨leaf, P table path⟩

/-- `match_route`. -/
def matchRoute (method path : Text) : Option Matched :=
  (r.inTree P method path).or (r.inAll P path)

/-- The methods of the trees that match, with those that `ALL` stands for. -/
def listed (path : Text) : List Text :=
  let methods := (methodsOf r.defs).filter fun m => (r.inTree P m path).isSome
  if (r.inAll P path).isSome then standardMethods.foldl pushMissing methods else methods

/-- `allowed_methods`. -/
def allowedMethods (path : Text) : List Text :=
  let methods := r.listed P path
  if methods = [] then [] else (pushMissing (withHead methods) optionsMethod).insertionSort LeText

/-- `route_and_dispatch`. -/
def routeAndDispatch (hasNotFound : Bool) (method path : Text) : Answer :=
  match r.matchRoute P method path with
  | some m => .dispatched m.leafId m.params false
  | none =>
      match if method = headMethod then r.matchRoute P getMethod path else none with
      | some m => .dispatched m.leafId m.params true
      | none =>
          let allowed := r.allowedMethods P path
          if allowed = [] then
            if hasNotFound then .dispatched (-1) [] false else .notFound
          else
            let allow := ", ".toList.intercalate allowed
            if method = optionsMethod then .options allow else .notAllowed allow

end Router

/-- The request goes to the leaf of a route. -/
def Answer.isRouted : Answer → Bool
  | .dispatched leaf _ _ => 0 ≤ leaf
  | _ => false

/-- 404, or the handler for what is not found. -/
def Answer.isMissing : Answer → Bool
  | .dispatched leaf _ _ => leaf < 0
  | .notFound => true
  | _ => false

/-- Neither 404 nor 405. -/
def Answer.isServed : Answer → Bool
  | .dispatched leaf _ _ => 0 ≤ leaf
  | .options _ => true
  | _ => false

/-- The `Allow` header of an answer of the router itself. -/
def Answer.allow : Answer → Option Text
  | .options allow | .notAllowed allow => some allow
  | _ => none

/-- The leaf and the parameters of a request that is dispatched. -/
def Answer.target : Answer → Option (Int × List (Text × Text))
  | .dispatched leaf params _ => some (leaf, params)
  | _ => none

/-! ## The order of strings -/

theorem leText_total (s t : Text) : (leText s t || leText t s) = true := by
  induction s generalizing t with
  | nil => rfl
  | cons a s ih =>
      cases t with
      | nil => simp [leText]
      | cons b t =>
          simp only [leText]
          by_cases hab : a = b
          · subst hab
            simpa using ih t
          · have hne : a.toNat ≠ b.toNat := fun h => hab (Char.toNat_inj.1 h)
            by_cases hlt : a.toNat < b.toNat
            · simp [hlt]
            · have hgt : b.toNat < a.toNat := by omega
              simp [hgt]

theorem leText_trans {s t u : Text} (hst : leText s t = true) (htu : leText t u = true) :
    leText s u = true := by
  induction s generalizing t u with
  | nil => rfl
  | cons a s ih =>
      cases t with
      | nil => cases hst
      | cons b t =>
          cases u with
          | nil => cases htu
          | cons c u =>
              simp only [leText] at hst htu ⊢
              split at hst
              case isTrue hab =>
                split at htu
                case isTrue hbc => rw [if_pos (Nat.lt_trans hab hbc)]
                case isFalse =>
                  split at htu
                  case isTrue hbc => rw [if_pos (hbc ▸ hab)]
                  case isFalse => cases htu
              case isFalse =>
                split at hst
                case isFalse => cases hst
                case isTrue hab =>
                  subst hab
                  split at htu
                  case isTrue hbc => rw [if_pos hbc]
                  case isFalse hbc =>
                    split at htu
                    case isTrue hac =>
                      rw [if_neg hbc, if_pos hac]
                      exact ih hst htu
                    case isFalse => cases htu

instance : Std.Total LeText := ⟨fun s t => by
  simpa using leText_total s t⟩

instance : IsTrans Text LeText := ⟨fun _ _ _ => leText_trans⟩

/-! ## The trees -/

theorem mem_methodsOf_cons {d : RouteDef} {defs : List RouteDef} {m : Text} :
    m ∈ methodsOf (d :: defs) ↔
      (d.method.map Char.toUpper = m ∧ m ≠ allMethod) ∨ m ∈ methodsOf defs := by
  simp only [methodsOf, List.mem_dedup, List.mem_filter, List.map_cons, List.mem_cons,
    decide_eq_true_eq]
  rw [or_and_right, eq_comm]

/-- `add` makes a tree for the method of the route, unless that is `ALL`. -/
theorem byMethod_of_add {M : Matchit} {routes routes' : Routes} {d : RouteDef}
    (hadd : routes.add M d = .ok routes') (m : Text) :
    (routes'.byMethod m).isSome = true ↔
      (d.method.map Char.toUpper = m ∧ m ≠ allMethod) ∨ (routes.byMethod m).isSome = true := by
  rw [Routes.add] at hadd
  split at hadd
  case h_1 => cases hadd
  case h_2 =>
    obtain rfl := Except.ok.inj hadd
    by_cases hall : d.method.map Char.toUpper = "ALL".toList
    · rw [if_pos (by simpa using hall)]
      have hnot : ¬ (d.method.map Char.toUpper = m ∧ m ≠ allMethod) := by
        rintro ⟨rfl, hne⟩
        exact hne hall
      simp [hnot]
    · rw [if_neg (by simpa using hall)]
      dsimp only
      by_cases hm : m = d.method.map Char.toUpper
      · subst hm
        simpa using Or.inl (show d.method.map Char.toUpper ≠ allMethod from hall)
      · rw [if_neg hm]
        simp [Ne.symm hm]

/-- The trees after `build`, as the keys of `by_method`. -/
theorem byMethod_of_build {M : Matchit} {defs : List RouteDef} {start routes : Routes}
    (hfold : defs.foldlM (Routes.add M) start = .ok routes) (m : Text) :
    (routes.byMethod m).isSome = true ↔
      m ∈ methodsOf defs ∨ (start.byMethod m).isSome = true := by
  induction defs generalizing start with
  | nil =>
      obtain rfl := Except.ok.inj hfold
      simp [methodsOf]
  | cons d rest ih =>
      rw [List.foldlM_cons] at hfold
      cases hadd : start.add M d with
      | error e => rw [hadd] at hfold; cases hfold
      | ok next =>
          rw [hadd] at hfold
          rw [ih hfold, byMethod_of_add hadd, mem_methodsOf_cons]
          tauto

section Path

variable {M : Matchit} (P : ParamsOf) (r : Router M) (path : Text)

/-- A method without a tree is not one of the keys, so no route is lost by going through
the keys alone. -/
theorem mem_methodsOf_of_inTree {m : Text} (h : (r.inTree P m path).isSome = true) :
    m ∈ methodsOf r.defs := by
  have htree : (r.routes.byMethod m).isSome = true := by
    rw [Router.inTree] at h
    cases hm : r.routes.byMethod m with
    | none => rw [hm] at h; cases h
    | some table => rfl
  simpa using (byMethod_of_build r.built m).1 htree

/-- The leaf of the match is that of the router model without parameters. -/
theorem matchRoute_leaf (method : Text) :
    (r.matchRoute P method path).map Matched.leafId = r.routes.matchRoute M method path := by
  have hfind : ∀ table : Option (List (Text × Nat)),
      (table.bind fun t => (M.find t path).map fun leaf => (⟨leaf, P t path⟩ : Matched)).map
        Matched.leafId = table.bind (M.find · path) := by
    intro table
    cases table with
    | none => rfl
    | some t => cases h : M.find t path <;> simp [h]
  have htree := hfind (r.routes.byMethod method)
  have hall := hfind r.routes.all
  simp only [Router.matchRoute, Router.inTree, Router.inAll, Routes.matchRoute, ← htree, ← hall]
  cases (r.routes.byMethod method).bind fun t =>
    (M.find t path).map fun leaf => (⟨leaf, P t path⟩ : Matched) <;> rfl

/-! ## The `Allow` header -/

theorem mem_pushMissing {methods : List Text} {m x : Text} :
    x ∈ pushMissing methods m ↔ x ∈ methods ∨ x = m := by
  rw [pushMissing]
  split
  case isTrue h =>
    refine ⟨Or.inl, ?_⟩
    rintro (hx | rfl)
    · exact hx
    · exact h
  case isFalse => simp

theorem nodup_concat {methods : List Text} {m : Text} (h : methods.Nodup) (hm : m ∉ methods) :
    (methods ++ [m]).Nodup := by
  rw [List.nodup_append]
  refine ⟨h, List.nodup_singleton m, ?_⟩
  rintro x hx y hy rfl
  exact hm (List.mem_singleton.1 hy ▸ hx)

theorem nodup_pushMissing {methods : List Text} (h : methods.Nodup) (m : Text) :
    (pushMissing methods m).Nodup := by
  rw [pushMissing]
  split
  case isTrue => exact h
  case isFalse hm => exact nodup_concat h hm

theorem nodup_foldl_pushMissing {methods : List Text} (h : methods.Nodup) (more : List Text) :
    (more.foldl pushMissing methods).Nodup := by
  induction more generalizing methods with
  | nil => exact h
  | cons m more ih => exact ih (nodup_pushMissing h m)

theorem nodup_withHead {methods : List Text} (h : methods.Nodup) : (withHead methods).Nodup := by
  rw [withHead]
  split
  case isTrue hget => exact nodup_concat h hget.2
  case isFalse => exact h

theorem mem_withHead {methods : List Text} {x : Text} :
    x ∈ withHead methods ↔ x ∈ methods ∨ (x = headMethod ∧ getMethod ∈ methods) := by
  rw [withHead]
  split
  case isTrue hget => simp [hget.1]
  case isFalse hget =>
    refine ⟨Or.inl, ?_⟩
    rintro (hx | ⟨rfl, hx⟩)
    · exact hx
    · by_contra hhead
      exact hget ⟨hx, hhead⟩

theorem nodup_listed : (r.listed P path).Nodup := by
  have hkeys : ((methodsOf r.defs).filter fun m => (r.inTree P m path).isSome).Nodup :=
    (List.nodup_dedup _).filter _
  rw [Router.listed]
  split
  case isTrue => exact nodup_foldl_pushMissing hkeys _
  case isFalse => exact hkeys

/-- Where `ALL` does not match, the methods are those of the trees that do. -/
theorem mem_listed (h : r.inAll P path = none) {m : Text} :
    m ∈ r.listed P path ↔ (r.inTree P m path).isSome = true := by
  rw [Router.listed]
  simp only [h, Option.isSome_none, Bool.false_eq_true, if_false, List.mem_filter]
  exact ⟨And.right, fun hm => ⟨mem_methodsOf_of_inTree P r path hm, hm⟩⟩

/-- The list is sorted. -/
theorem allowedMethods_sorted :
    (r.allowedMethods P path).Pairwise LeText := by
  rw [Router.allowedMethods]
  by_cases h : r.listed P path = []
  · rw [if_pos h]
    exact List.Pairwise.nil
  · rw [if_neg h]
    exact List.pairwise_insertionSort LeText _

/-- No method is listed twice. -/
theorem allowedMethods_nodup : (r.allowedMethods P path).Nodup := by
  rw [Router.allowedMethods]
  by_cases h : r.listed P path = []
  · rw [if_pos h]
    exact List.nodup_nil
  · rw [if_neg h, (List.perm_insertionSort _ _).nodup_iff]
    exact nodup_pushMissing (nodup_withHead (nodup_listed P r path)) _

theorem allowedMethods_eq_nil : r.allowedMethods P path = [] ↔ r.listed P path = [] := by
  rw [Router.allowedMethods]
  by_cases h : r.listed P path = []
  · simp [h]
  · rw [if_neg h]
    refine ⟨fun hnil => ?_, fun hnil => absurd hnil h⟩
    have hmem : optionsMethod ∈ (pushMissing (withHead (r.listed P path)) optionsMethod).insertionSort
        LeText := (List.mem_insertionSort _).2 (mem_pushMissing.2 (Or.inr rfl))
    rw [hnil] at hmem
    cases hmem

/-- `OPTIONS` is always on the list, `HEAD` where `GET` is. -/
theorem mem_allowedMethods {m : Text} :
    m ∈ r.allowedMethods P path ↔
      m ∈ r.listed P path ∨ (m = headMethod ∧ getMethod ∈ r.listed P path) ∨
        (m = optionsMethod ∧ r.listed P path ≠ []) := by
  rw [Router.allowedMethods]
  by_cases h : r.listed P path = []
  · simp [h]
  · rw [if_neg h, List.mem_insertionSort, mem_pushMissing, mem_withHead, or_assoc]
    simp [h]

/-! ## Every method of a path -/

variable (hasNotFound : Bool)

/-- The request is dispatched to a route: directly, or a HEAD request as a GET request. -/
theorem isRouted_iff {method : Text} :
    (r.routeAndDispatch P hasNotFound method path).isRouted = true ↔
      (r.matchRoute P method path).isSome = true ∨
        (method = headMethod ∧ (r.matchRoute P getMethod path).isSome = true) := by
  rw [Router.routeAndDispatch]
  cases hm : r.matchRoute P method path with
  | some m => simp [Answer.isRouted]
  | none =>
      by_cases hhead : method = headMethod
      · cases hget : r.matchRoute P getMethod path with
        | some m => simp [hhead, Answer.isRouted]
        | none =>
            simp only [hhead, if_true]
            split_ifs <;> simp [Answer.isRouted]
      · simp only [hhead, if_false]
        split_ifs <;> simp [Answer.isRouted]

/-- What is left when the request is not dispatched to a route. -/
theorem routeAndDispatch_of_not_routed {method : Text}
    (h : (r.routeAndDispatch P hasNotFound method path).isRouted = false) :
    r.routeAndDispatch P hasNotFound method path =
      if r.listed P path = [] then
        if hasNotFound then .dispatched (-1) [] false else .notFound
      else
        let allow := ", ".toList.intercalate (r.allowedMethods P path)
        if method = optionsMethod then .options allow else .notAllowed allow := by
  have hno := mt (isRouted_iff P r path hasNotFound).2 (Bool.eq_false_iff.1 h)
  rw [not_or, not_and, Bool.not_eq_true, Option.isSome_eq_false_iff, Option.isNone_iff_eq_none]
    at hno
  have hfall : (if method = headMethod then r.matchRoute P getMethod path else none) = none := by
    by_cases hhead : method = headMethod
    · rw [if_pos hhead]
      simpa using hno.2 hhead
    · rw [if_neg hhead]
  simp only [Router.routeAndDispatch, hno.1, hfall, allowedMethods_eq_nil]

theorem isServed_iff {method : Text} :
    (r.routeAndDispatch P hasNotFound method path).isServed = true ↔
      (r.routeAndDispatch P hasNotFound method path).isRouted = true ∨
        (method = optionsMethod ∧ r.listed P path ≠ []) := by
  cases hrouted : (r.routeAndDispatch P hasNotFound method path).isRouted with
  | true =>
      refine ⟨fun _ => Or.inl rfl, fun _ => ?_⟩
      cases hanswer : r.routeAndDispatch P hasNotFound method path with
      | dispatched leaf params head =>
          simpa [hanswer, Answer.isRouted, Answer.isServed] using hrouted
      | notFound => simp [hanswer, Answer.isRouted] at hrouted
      | options allow => simp [hanswer, Answer.isRouted] at hrouted
      | notAllowed allow => simp [hanswer, Answer.isRouted] at hrouted
  | false =>
      rw [routeAndDispatch_of_not_routed P r path hasNotFound hrouted]
      split_ifs <;> simp_all [Answer.isServed]

/-- A request is answered as not found just when no tree matches, `ALL` included. -/
theorem isMissing_iff {method : Text} :
    (r.routeAndDispatch P hasNotFound method path).isMissing = true ↔
      ∀ m, (r.matchRoute P m path).isSome = false := by
  cases hrouted : (r.routeAndDispatch P hasNotFound method path).isRouted with
  | true =>
      have hsome := (isRouted_iff P r path hasNotFound).1 hrouted
      constructor
      · intro hmissing
        cases hanswer : r.routeAndDispatch P hasNotFound method path with
        | dispatched leaf params head =>
            simp only [hanswer, Answer.isRouted, Answer.isMissing, decide_eq_true_eq]
              at hrouted hmissing
            omega
        | notFound => simp [hanswer, Answer.isRouted] at hrouted
        | options allow => simp [hanswer, Answer.isRouted] at hrouted
        | notAllowed allow => simp [hanswer, Answer.isRouted] at hrouted
      · intro hnone
        simp [hnone] at hsome
  | false =>
      have hno := mt (isRouted_iff P r path hasNotFound).2 (Bool.eq_false_iff.1 hrouted)
      rw [not_or, Bool.not_eq_true, Option.isSome_eq_false_iff, Option.isNone_iff_eq_none,
        Router.matchRoute, Option.or_eq_none_iff] at hno
      have hall := hno.1.2
      have hmissing : (r.routeAndDispatch P hasNotFound method path).isMissing = true ↔
          r.listed P path = [] := by
        rw [routeAndDispatch_of_not_routed P r path hasNotFound hrouted]
        split_ifs <;> simp_all [Answer.isMissing]
      have htree : ∀ m, r.matchRoute P m path = r.inTree P m path := by
        intro m
        rw [Router.matchRoute, hall, Option.or_none]
      rw [hmissing, List.eq_nil_iff_forall_not_mem]
      simp only [mem_listed P r path hall, htree, Bool.not_eq_true]

/-- The `Allow` header lists the methods that are served, in order and once each; a path
is not found for one method exactly when it is routed for none. -/
theorem allow_exact {method : Text} :
    (∀ allow, (r.routeAndDispatch P hasNotFound method path).allow = some allow →
      ∃ methods : List Text,
        allow = ", ".toList.intercalate methods ∧
        methods.Pairwise LeText ∧ methods.Nodup ∧
        ∀ m, m ∈ methods ↔ (r.routeAndDispatch P hasNotFound m path).isServed = true) ∧
    ((r.routeAndDispatch P hasNotFound method path).isMissing = true ↔
      ∀ m, (r.routeAndDispatch P hasNotFound m path).isRouted = false) := by
  constructor
  · intro allow hallow
    have hrouted : (r.routeAndDispatch P hasNotFound method path).isRouted = false := by
      cases hanswer : r.routeAndDispatch P hasNotFound method path with
      | dispatched leaf params head => simp [hanswer, Answer.allow] at hallow
      | notFound => rfl
      | options allow => rfl
      | notAllowed allow => rfl
    have hno := mt (isRouted_iff P r path hasNotFound).2 (Bool.eq_false_iff.1 hrouted)
    rw [not_or, Bool.not_eq_true, Option.isSome_eq_false_iff, Option.isNone_iff_eq_none,
      Router.matchRoute, Option.or_eq_none_iff] at hno
    have hall := hno.1.2
    have htext : allow = ", ".toList.intercalate (r.allowedMethods P path) := by
      rw [routeAndDispatch_of_not_routed P r path hasNotFound hrouted] at hallow
      split_ifs at hallow <;> simp_all [Answer.allow]
    refine ⟨r.allowedMethods P path, htext, allowedMethods_sorted P r path,
      allowedMethods_nodup P r path, fun m => ?_⟩
    rw [mem_allowedMethods, isServed_iff, isRouted_iff, mem_listed P r path hall,
      mem_listed P r path hall, Router.matchRoute, Router.matchRoute, hall, Option.or_none,
      Option.or_none, or_assoc]
  · rw [isMissing_iff]
    constructor
    · intro hnone m
      rw [← Bool.not_eq_true, isRouted_iff]
      simp [hnone]
    · intro hnone m
      have hno := mt (isRouted_iff P r path hasNotFound).2 (Bool.eq_false_iff.1 (hnone m))
      rw [not_or, Bool.not_eq_true] at hno
      exact hno.1

/-! ## HEAD -/

theorem target_of_match {method : Text} {m : Matched}
    (h : r.matchRoute P method path = some m) :
    (r.routeAndDispatch P hasNotFound method path).target = some (↑m.leafId, m.params) := by
  rw [Router.routeAndDispatch, h]
  rfl

/-- A HEAD request that has a match as a GET request only. -/
theorem target_of_match_get {m : Matched} (h : r.matchRoute P headMethod path = none)
    (hget : r.matchRoute P getMethod path = some m) :
    (r.routeAndDispatch P hasNotFound headMethod path).target = some (↑m.leafId, m.params) := by
  rw [Router.routeAndDispatch, h, if_pos rfl, hget]
  rfl

/-- What is dispatched without a match does not depend on the method. -/
theorem target_of_not_routed {method : Text}
    (h : (r.routeAndDispatch P hasNotFound method path).isRouted = false) :
    (r.routeAndDispatch P hasNotFound method path).target =
      if r.listed P path = [] ∧ hasNotFound = true then some (-1, []) else none := by
  rw [routeAndDispatch_of_not_routed P r path hasNotFound h]
  split_ifs <;> simp_all [Answer.target]

/-- Where no HEAD route matches, HEAD goes where GET goes, unless the path has a GET route
and an ALL route: then HEAD goes to the ALL route. -/
theorem head_mirrors_iff (hhead : r.inTree P headMethod path = none) :
    (r.routeAndDispatch P hasNotFound headMethod path).target =
        (r.routeAndDispatch P hasNotFound getMethod path).target ↔
      ¬ ∃ get all, r.inTree P getMethod path = some get ∧ r.inAll P path = some all ∧
        get ≠ all := by
  have hmatch : r.matchRoute P headMethod path = r.inAll P path := by
    rw [Router.matchRoute, hhead, Option.none_or]
  cases hget : r.inTree P getMethod path with
  | none =>
      have hsame : r.matchRoute P getMethod path = r.matchRoute P headMethod path := by
        rw [hmatch, Router.matchRoute, hget, Option.none_or]
      have hright : ¬ ∃ get all, (none : Option Matched) = some get ∧
          r.inAll P path = some all ∧ get ≠ all := by
        rintro ⟨get, all, hnone, -⟩
        cases hnone
      refine iff_of_true ?_ hright
      cases hall : r.matchRoute P headMethod path with
      | some m =>
          rw [target_of_match P r path hasNotFound hall,
            target_of_match P r path hasNotFound (hsame.trans hall)]
      | none =>
          have hrouted : ∀ method, r.matchRoute P method path = none →
              (r.routeAndDispatch P hasNotFound method path).isRouted = false := by
            intro method hnone
            rw [← Bool.not_eq_true, isRouted_iff]
            simp [hnone, hsame, hall]
          rw [target_of_not_routed P r path hasNotFound (hrouted _ hall),
            target_of_not_routed P r path hasNotFound (hrouted _ (hsame.trans hall))]
  | some get =>
      have hdirect : r.matchRoute P getMethod path = some get := by
        rw [Router.matchRoute, hget, Option.some_or]
      rw [target_of_match P r path hasNotFound hdirect]
      cases hall : r.inAll P path with
      | none =>
          rw [target_of_match_get P r path hasNotFound (hmatch.trans hall) hdirect]
          simp
      | some all =>
          rw [target_of_match P r path hasNotFound (hmatch.trans hall)]
          obtain ⟨leaf, params⟩ := get
          obtain ⟨leaf', params'⟩ := all
          have hsame : (some ((leaf' : Int), params') = some ((leaf : Int), params)) ↔
              (⟨leaf, params⟩ : Matched) = ⟨leaf', params'⟩ := by
            simp only [Option.some.injEq, Prod.mk.injEq, Matched.mk.injEq, Int.ofNat_inj]
            rw [eq_comm, eq_comm (a := params)]
          rw [hsame]
          simp

end Path

/-! ## A GET route and an ALL route on one path -/

/-- `get('/x')`, `all('/x')` and `post('/y')`. -/
def mixedRouter : Router firstMatch where
  defs := [⟨"GET".toList, "/x".toList, 0⟩, ⟨"ALL".toList, "/x".toList, 1⟩,
    ⟨"GET".toList, "/y".toList, 2⟩]
  routes := _
  built := rfl

/-- HEAD on a path that has a GET route alone. -/
theorem head_mirrors_get :
    (mixedRouter.routeAndDispatch (fun _ _ => []) false headMethod "/y".toList).target =
      (mixedRouter.routeAndDispatch (fun _ _ => []) false getMethod "/y".toList).target :=
  (head_mirrors_iff _ _ _ _ (by decide)).2 (by
    rintro ⟨get, all, -, hall, -⟩
    cases hall)

/-- HEAD goes to the ALL route where GET goes to the GET route. -/
theorem head_takes_all :
    mixedRouter.inTree (fun _ _ => []) headMethod "/x".toList = none ∧
      mixedRouter.routeAndDispatch (fun _ _ => []) false headMethod "/x".toList =
        .dispatched 1 [] false ∧
      mixedRouter.routeAndDispatch (fun _ _ => []) false getMethod "/x".toList =
        .dispatched 0 [] false ∧
      (mixedRouter.routeAndDispatch (fun _ _ => []) false headMethod "/x".toList).target ≠
        (mixedRouter.routeAndDispatch (fun _ _ => []) false getMethod "/x".toList).target := by
  decide

/-- POST on a path that has a GET route. -/
theorem allow_exact_y :
    mixedRouter.routeAndDispatch (fun _ _ => []) false "POST".toList "/y".toList =
        .notAllowed "GET, HEAD, OPTIONS".toList ∧
      ∃ methods : List Text,
        "GET, HEAD, OPTIONS".toList = ", ".toList.intercalate methods ∧
        methods.Pairwise LeText ∧ methods.Nodup ∧
        ∀ m, m ∈ methods ↔
          (mixedRouter.routeAndDispatch (fun _ _ => []) false m "/y".toList).isServed = true :=
  ⟨by decide, (@allow_exact _ _ _ _ _ "POST".toList).1 _ (by decide)⟩

end Routing
end OxideHttp
