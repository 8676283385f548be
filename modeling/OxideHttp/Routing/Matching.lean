import OxideHttp.Routing

/-!
# Prefixed middleware and the router (`src/router.rs`)

The router translates the path of each route into a pattern and matches the paths of the
requests against the patterns; the chains have been compiled before, from the paths of
the routes.  The tree of `matchit` is a parameter: what is assumed of it is that the leaf
it returns for a path has a pattern that matches this path.

Results.
* `matchRoute_sound`: a leaf that is found has a route with a matching pattern.
* `chain_of_match`: for a request under the prefix of a middleware, the chain that is
  found holds the middleware when the pattern is literal as far as the prefix goes, and
  only then.
-/

namespace OxideHttp
namespace Routing

/-! ## Patterns -/

/-- `is_ascii_alphanumeric` or an underscore. -/
def nameChar (c : Char) : Bool := c.isAlphanum || c == '_'

/-- `translate_colons`; the flag is on within a name. -/
def translateColons : Bool → Text → Text
  | false, [] => []
  | true, [] => ['\x7d']
  | true, c :: cs =>
      if nameChar c then c :: translateColons true cs
      else if c = ':' then '\x7d' :: '\x7b' :: translateColons true cs
      else '\x7d' :: c :: translateColons false cs
  | false, c :: cs =>
      if c = ':' then '\x7b' :: translateColons true cs else c :: translateColons false cs

/-- One round of the loop of `to_matchit`. -/
def toMatchitSeg : Text → Text
  | [] => []
  | '*' :: rest =>
      "\x7b*".toList ++ (if rest = [] then "wildcard".toList else rest) ++ ['\x7d']
  | seg => if ':' ∈ seg then translateColons false seg else seg

/-- `to_matchit`. -/
def toMatchit (path : Text) : Text := ['/'].intercalate ((path.splitOn '/').map toMatchitSeg)

example : toMatchit "/a/:x/:id.:ext/*path".toList =
    "/a/\x7bx\x7d/\x7bid\x7d.\x7bext\x7d/\x7b*path\x7d".toList := by decide

theorem toMatchitSeg_of_literal {seg : Text} (h : Literal seg) : toMatchitSeg seg = seg := by
  obtain ⟨hcolon, -, -, hstar⟩ := h
  unfold toMatchitSeg
  split
  · rfl
  · exact absurd ⟨_, rfl⟩ hstar
  · rw [if_neg hcolon]

theorem slash_not_mem_translateColons {name : Bool} {seg : Text} (h : '/' ∉ seg) :
    '/' ∉ translateColons name seg := by
  induction seg generalizing name with
  | nil => cases name <;> simp [translateColons]
  | cons c cs ih =>
      simp only [List.mem_cons, not_or] at h
      cases name with
      | true =>
          rw [translateColons]
          split_ifs <;> simp [h.1, ih h.2]
      | false =>
          rw [translateColons]
          split_ifs <;> simp [h.1, ih h.2]

theorem slash_not_mem_toMatchitSeg {seg : Text} (h : '/' ∉ seg) : '/' ∉ toMatchitSeg seg := by
  unfold toMatchitSeg
  split
  · simp
  · split_ifs
    · decide
    · simp at h
      simp [h]
  · split_ifs
    · exact slash_not_mem_translateColons h
    · exact h

/-- The pieces of the pattern are the pieces of the path, translated. -/
theorem splitOn_toMatchit (path : Text) :
    (toMatchit path).splitOn '/' = (path.splitOn '/').map toMatchitSeg := by
  refine List.splitOn_intercalate '/' ?_ (by simp)
  intro piece hpiece
  obtain ⟨seg, hseg, rfl⟩ := List.mem_map.1 hpiece
  exact slash_not_mem_toMatchitSeg (Pieces.not_mem_piece hseg)

/-! ## The router -/

/-- The part of `matchit` that the router uses, on the routes inserted so far: the error
of an `insert`, if there is one, and the leaf that `at` finds. -/
structure Matchit where
  conflict : List (Text × Nat) → Text → Option Text
  find : List (Text × Nat) → Text → Option Nat

/-- A pattern against a path, piece by piece: a piece with braces matches any piece that
is not empty, a last piece `{*name}` any rest that is not empty. -/
def matchesPieces : List Text → List Text → Bool
  | [], [] => true
  | seg :: segs, piece :: rest =>
      if ['\x7b', '*'].isPrefixOf seg && segs.isEmpty then piece :: rest != [[]]
      else if seg.contains '\x7b' || seg.contains '\x7d' then
        piece != [] && matchesPieces segs rest
      else seg == piece && matchesPieces segs rest
  | _, _ => false

/-- The pattern of a leaf that is found matches the path. -/
def Matchit.Sound (M : Matchit) : Prop :=
  ∀ table path leaf, M.find table path = some leaf →
    ∃ pattern, (pattern, leaf) ∈ table ∧
      matchesPieces (pattern.splitOn '/') (path.splitOn '/') = true

/-- `RouteDef`. -/
structure RouteDef where
  method : Text
  path : Text
  leafId : Nat
  deriving DecidableEq, Repr

/-- `Routes`, each tree as the list of what was inserted. -/
structure Routes where
  byMethod : Text → Option (List (Text × Nat))
  all : Option (List (Text × Nat))

/-- One round of the loop of `build`. -/
def Routes.add (M : Matchit) (routes : Routes) (d : RouteDef) : Except Text Routes :=
  let pattern := toMatchit d.path
  let method := d.method.map Char.toUpper
  let toAll := method = "ALL".toList
  let table := (if toAll then routes.all else routes.byMethod method).getD []
  match M.conflict table pattern with
  | some e =>
      .error ("route ".toList ++ d.method ++ [' '] ++ d.path ++ ": ".toList ++ e)
  | none =>
      let table := table ++ [(pattern, d.leafId)]
      .ok (if toAll then { routes with all := some table }
        else { routes with byMethod := fun m => if m = method then some table
                                                else routes.byMethod m })

/-- `build`. -/
def Routes.build (M : Matchit) (defs : List RouteDef) : Except Text Routes :=
  defs.foldlM (Routes.add M) ⟨fun _ => none, none⟩

/-- `match_route`. -/
def Routes.matchRoute (M : Matchit) (routes : Routes) (method path : Text) : Option Nat :=
  ((routes.byMethod method).bind (M.find · path)).or (routes.all.bind (M.find · path))

/-- The table that `listen` hands to the native layer. -/
def App.routeDefs {φ : Type} (a : App φ) : List RouteDef :=
  a.applyMounts.routes.mapIdx fun i r => ⟨r.method, r.path, i⟩

/-! ## What a leaf stands for -/

/-- The tree is one of the trees. -/
def Routes.Holds (routes : Routes) (table : List (Text × Nat)) : Prop :=
  (∃ method, routes.byMethod method = some table) ∨ routes.all = some table

/-- Each pattern in a tree is that of a route. -/
def Routes.From (defs : List RouteDef) (routes : Routes) : Prop :=
  ∀ table, routes.Holds table → ∀ e ∈ table, ∃ d ∈ defs, (toMatchit d.path, d.leafId) = e

/-- A tree after `add` was there before, or is one of those before, or empty, with the
new pattern at the end. -/
theorem holds_of_add {M : Matchit} {routes routes' : Routes} {d : RouteDef}
    {table : List (Text × Nat)} (hadd : routes.add M d = .ok routes')
    (h : routes'.Holds table) :
    routes.Holds table ∨
      ∃ old, (old = [] ∨ routes.Holds old) ∧ table = old ++ [(toMatchit d.path, d.leafId)] := by
  have hold : ∀ o : Option (List (Text × Nat)), (∀ t, o = some t → routes.Holds t) →
      o.getD [] = [] ∨ routes.Holds (o.getD []) := by
    intro o ho
    cases o with
    | none => exact Or.inl rfl
    | some t => exact Or.inr (ho t rfl)
  have hall := hold routes.all fun t ht => Or.inr ht
  have hmethod := hold (routes.byMethod (d.method.map Char.toUpper)) fun t ht => Or.inl ⟨_, ht⟩
  rw [Routes.add] at hadd
  split at hadd
  case h_1 => cases hadd
  case h_2 =>
    obtain rfl := Except.ok.inj hadd
    by_cases hto : d.method.map Char.toUpper = "ALL".toList
    · simp only [hto, if_true] at h
      rcases h with ⟨method, h⟩ | h
      · exact Or.inl (Or.inl ⟨method, h⟩)
      · exact Or.inr ⟨_, hall, (Option.some.inj h).symm⟩
    · simp only [hto, if_false] at h
      rcases h with ⟨method, h⟩ | h
      · dsimp only at h
        split at h
        · exact Or.inr ⟨_, hmethod, (Option.some.inj h).symm⟩
        · exact Or.inl (Or.inl ⟨method, h⟩)
      · exact Or.inl (Or.inr h)

theorem Routes.From.add {M : Matchit} {defs : List RouteDef} {routes routes' : Routes}
    {d : RouteDef} (h : routes.From defs) (hd : d ∈ defs) (hadd : routes.add M d = .ok routes') :
    routes'.From defs := by
  intro table htable e he
  rcases holds_of_add hadd htable with hbefore | ⟨old, hold, rfl⟩
  · exact h table hbefore e he
  · rcases List.mem_append.1 he with he | he
    · rcases hold with rfl | hold
      · cases he
      · exact h old hold e he
    · exact ⟨d, hd, (List.mem_singleton.1 he).symm⟩

/-- Each pattern in a tree of the router is that of a route. -/
theorem Routes.From.build {M : Matchit} {defs : List RouteDef} {routes : Routes}
    (h : Routes.build M defs = .ok routes) : routes.From defs := by
  have hrun : ∀ (rest : List RouteDef) (start : Routes), (∀ d ∈ rest, d ∈ defs) →
      start.From defs → rest.foldlM (Routes.add M) start = .ok routes → routes.From defs := by
    intro rest
    induction rest with
    | nil =>
        intro start _ hstart hfold
        obtain rfl := Except.ok.inj hfold
        exact hstart
    | cons d rest ih =>
        intro start hmem hstart hfold
        rw [List.foldlM_cons] at hfold
        cases hadd : start.add M d with
        | error e => rw [hadd] at hfold; cases hfold
        | ok next =>
            rw [hadd] at hfold
            exact ih next (fun d hd => hmem d (List.mem_cons_of_mem _ hd))
              (hstart.add (hmem d List.mem_cons_self) hadd) hfold
  refine hrun defs _ (fun d hd => hd) ?_ h
  rintro table (⟨_, hnone⟩ | hnone)
  · cases hnone
  · cases hnone

/-- The leaf that `match_route` finds is that of a route whose pattern matches. -/
theorem matchRoute_sound {M : Matchit} (hM : M.Sound) {defs : List RouteDef} {routes : Routes}
    (hbuild : Routes.build M defs = .ok routes) {method path : Text} {leaf : Nat}
    (h : routes.matchRoute M method path = some leaf) :
    ∃ d ∈ defs, d.leafId = leaf ∧
      matchesPieces ((d.path.splitOn '/').map toMatchitSeg) (path.splitOn '/') = true := by
  have hfind : ∃ table, routes.Holds table ∧ M.find table path = some leaf := by
    rw [Routes.matchRoute, Option.or_eq_some_iff] at h
    rcases h with h | ⟨-, h⟩
    · obtain ⟨table, htable, hfind⟩ := Option.bind_eq_some_iff.1 h
      exact ⟨table, Or.inl ⟨method, htable⟩, hfind⟩
    · obtain ⟨table, htable, hfind⟩ := Option.bind_eq_some_iff.1 h
      exact ⟨table, Or.inr htable, hfind⟩
  obtain ⟨table, htable, hfind⟩ := hfind
  obtain ⟨pattern, hpattern, hmatch⟩ := hM table path leaf hfind
  obtain ⟨d, hd, heq⟩ := Routes.From.build hbuild table htable _ hpattern
  obtain ⟨rfl, rfl⟩ := Prod.mk.inj heq
  exact ⟨d, hd, rfl, by rwa [← splitOn_toMatchit]⟩

/-- As far as the pieces of the registered path are literal, the path of the request has
the same pieces. -/
theorem take_eq_of_matchesPieces {segs pieces : List Text} {n : Nat}
    (h : matchesPieces (segs.map toMatchitSeg) pieces = true) (hn : n ≤ pieces.length)
    (hlit : ∀ seg ∈ segs.take n, Literal seg) : segs.take n = pieces.take n := by
  induction segs generalizing pieces n with
  | nil =>
      cases pieces with
      | nil => simp
      | cons piece rest => simp [matchesPieces] at h
  | cons seg segs ih =>
      cases pieces with
      | nil => simp [matchesPieces] at h
      | cons piece rest =>
          cases n with
          | zero => rfl
          | succ n =>
              rw [List.take_succ_cons, List.forall_mem_cons] at hlit
              have hseg := toMatchitSeg_of_literal hlit.1
              obtain ⟨-, hopen, hclose, -⟩ := hlit.1
              have hstar : ['\x7b', '*'].isPrefixOf seg = false := by
                rw [Bool.eq_false_iff, ne_eq, List.isPrefixOf_iff_prefix]
                rintro ⟨rest, rfl⟩
                exact hopen List.mem_cons_self
              rw [List.map_cons, matchesPieces, hseg] at h
              simp [hstar, hopen, hclose] at h
              rw [List.take_succ_cons, List.take_succ_cons, h.1,
                ih h.2 (by simpa using hn) hlit.2]

/-! ## Middleware under a prefix -/

section Registered

variable {φ : Type}

/-- The prefix of a `use(pfx, …)` in full: below the mounts, the base and the prefix,
normalised. -/
def fullPrefix (es : List Edge) (baseUrl pfx : Text) : Text :=
  scopeUnder es (normalizeBase baseUrl ++ normalizeBase pfx)

theorem exists_text_cons (e : Edge) : ∃ u, e.text = '/' :: u :=
  exists_join_cons (normalizeBase_cases _) _

/-- The prefix that is recorded on the app itself. -/
theorem join_normalised (base pfx : Text) (hbase : base = [] ∨ ∃ t, base = '/' :: t)
    (hpfx : pfx = [] ∨ ∃ t, pfx = '/' :: t) :
    base ++ pfx = [] ∧ join base pfx = ['/'] ∨
      ∃ s t, join base pfx = '/' :: s ∧ base ++ pfx = '/' :: t ∧
        ('/' :: s).splitOn '/' <+: ('/' :: t).splitOn '/' := by
  simp only [Pieces.splitOn_isPrefix_iff]
  rcases hpfx with rfl | ⟨t, rfl⟩
  · rcases hbase with rfl | ⟨s, rfl⟩
    · exact Or.inl ⟨rfl, rfl⟩
    · exact Or.inr ⟨s, s, join_slash (by simp), by simp, Or.inl rfl⟩
  · refine Or.inr ?_
    by_cases ht : t = []
    · subst ht
      rcases hbase with rfl | ⟨s, rfl⟩
      · exact ⟨[], [], rfl, rfl, Or.inl rfl⟩
      · exact ⟨s, s ++ ['/'], join_slash (by simp), by simp, Or.inr (by simp)⟩
    · rcases hbase with rfl | ⟨s, rfl⟩
      · exact ⟨t, t, join_cons ht, rfl, Or.inl rfl⟩
      · exact ⟨s ++ '/' :: t, s ++ '/' :: t, join_cons ht, rfl, Or.inl rfl⟩

/-- The recorded prefix and the normalised one differ at most in a slash at the end. -/
theorem scope_isPrefix (es : List Edge) (baseUrl pfx : Text) :
    fullPrefix es baseUrl pfx = [] ∨
      (scopeUnder es (join (normalizeBase baseUrl) (normalizeBase pfx))).splitOn '/' <+:
        (fullPrefix es baseUrl pfx).splitOn '/' := by
  have hrun : fullPrefix es baseUrl pfx = [] ∧
        scopeUnder es (join (normalizeBase baseUrl) (normalizeBase pfx)) = ['/'] ∨
      ∃ s t, scopeUnder es (join (normalizeBase baseUrl) (normalizeBase pfx)) = '/' :: s ∧
        fullPrefix es baseUrl pfx = '/' :: t ∧
        ('/' :: s).splitOn '/' <+: ('/' :: t).splitOn '/' := by
    induction es with
    | nil => exact join_normalised _ _ (normalizeBase_cases _) (normalizeBase_cases _)
    | cons e es ih =>
        refine Or.inr ?_
        obtain ⟨u, hu⟩ := exists_text_cons e
        have htext : e.text ≠ [] := by simp [hu]
        simp only [fullPrefix, scopeUnder, List.foldr_cons] at ih ⊢
        rcases ih with ⟨hfull, hscope⟩ | ⟨s, t, hscope, hfull, hle⟩
        · rw [hfull, hscope]
          refine ⟨u, u, ?_, ?_, List.prefix_rfl⟩
          · rw [remap, if_neg (by simp), join_slash htext, hu]
          · rw [remap, if_pos rfl, hu]
        · rw [hfull, hscope]
          obtain ⟨v, hv⟩ := exists_join_cons (Or.inr ⟨u, hu⟩) ('/' :: s)
          obtain ⟨w, hw⟩ := exists_join_cons (Or.inr ⟨u, hu⟩) ('/' :: t)
          refine ⟨v, w, by simp [remap, hv], by simp [remap, hw], ?_⟩
          rw [← hv, ← hw]
          exact join_isPrefix htext hle
  rcases hrun with ⟨hfull, -⟩ | ⟨s, t, hscope, hfull, hle⟩
  · exact Or.inl hfull
  · rw [hscope, hfull]
    exact Or.inr hle

theorem scopeUnder_ne_nil (es : List Edge) {pfx : Text} (h : pfx ≠ []) :
    scopeUnder es pfx ≠ [] := by
  induction es with
  | nil => exact h
  | cons e es ih =>
      rw [scopeUnder, List.foldr_cons, ← scopeUnder, remap, if_neg ih]
      exact join_ne_nil _ _

/-- The route of a leaf that the router finds. -/
theorem route_of_match {M : Matchit} (hM : M.Sound) {a : App φ} {routes : Routes}
    (hbuild : Routes.build M a.routeDefs = .ok routes) {method path : Text} {leaf : Nat}
    (h : routes.matchRoute M method path = some leaf) :
    ∃ r, a.applyMounts.routes[leaf]? = some r ∧
      matchesPieces ((r.path.splitOn '/').map toMatchitSeg) (path.splitOn '/') = true := by
  obtain ⟨d, hd, rfl, hmatches⟩ := matchRoute_sound hM hbuild h
  obtain ⟨i, hi, rfl⟩ := List.mem_mapIdx.1 hd
  exact ⟨_, List.getElem?_eq_getElem hi, hmatches⟩

/-- The chain that the router finds for a request under the prefix of a middleware. -/
theorem chain_of_match {M : Matchit} (hM : M.Sound) {a : App φ} {routes : Routes}
    (hbuild : Routes.build M a.routeDefs = .ok routes)
    {es : List Edge} {t : App φ} (ht : Mounted a es t)
    {c : UseCall φ} (hc : c ∈ t.uses) {pfx : Text} (hpfx : c.pfx = some pfx)
    {mw : φ} (hmw : mw ∈ c.fns) (hfull : fullPrefix es t.baseUrl pfx ≠ [])
    {method path : Text} {leaf : Nat} (hmatch : routes.matchRoute M method path = some leaf)
    (hunder : prefixMatches (fullPrefix es t.baseUrl pfx) path = true) :
    ∃ r chain, a.applyMounts.routes[leaf]? = some r ∧ a.chains[leaf]? = some chain ∧
      let scope := scopeUnder es (c.scope t.base)
      let literal := ∀ seg ∈ (r.path.splitOn '/').take (scope.splitOn '/').length, Literal seg
      (literal → mw ∈ chain.middleware) ∧
      ((∀ seg ∈ scope.splitOn '/', Literal seg) → mw ∉ r.middleware →
        (∀ m ∈ a.applyMounts.middleware, m.fn = mw → m.pfx = scope) →
        mw ∈ chain.middleware → literal) := by
  obtain ⟨r, hr, hmatches⟩ := route_of_match hM hbuild hmatch
  have hscope : c.scope t.base = join (normalizeBase t.baseUrl) (normalizeBase pfx) := by
    rw [UseCall.scope, hpfx, App.base]
  have hne : scopeUnder es (c.scope t.base) ≠ [] :=
    scopeUnder_ne_nil es (hscope ▸ join_ne_nil _ _)
  have hpath : (scopeUnder es (c.scope t.base)).splitOn '/' <+: path.splitOn '/' := by
    have hrecorded := (scope_isPrefix es t.baseUrl pfx).resolve_left hfull
    rw [hscope]
    exact hrecorded.trans ((prefixMatches_iff.1 hunder).resolve_left hfull)
  refine ⟨r, _, hr, by rw [App.chains, List.getElem?_map, hr, Option.map_some], ?_, ?_⟩
  · intro hliteral
    refine mem_chain_middleware.2
      (Or.inl ⟨_, mem_middleware.2 ⟨es, t, ht, c, hc, mw, hmw, rfl⟩, ?_, rfl⟩)
    have htake := take_eq_of_matchesPieces hmatches hpath.length_le hliteral
    rw [← List.prefix_iff_eq_take.1 hpath] at htake
    refine prefixMatches_iff.2 (Or.inr ?_)
    rw [← htake]
    exact List.take_prefix _ _
  · intro hfree hown honly hmem
    rcases mem_chain_middleware.1 hmem with ⟨m, hm, hmatch, hfn⟩ | hroute
    · rw [honly m hm hfn] at hmatch
      have hle := (prefixMatches_iff.1 hmatch).resolve_left hne
      rw [← List.prefix_iff_eq_take.1 hle]
      exact hfree
    · exact absurd hroute hown

/-! ## A parameter in the place of the prefix -/

/-- The router that takes the first pattern that matches. -/
def firstMatch : Matchit where
  conflict := fun _ _ => none
  find := fun table path =>
    (table.find? fun e => matchesPieces (e.1.splitOn '/') (path.splitOn '/')).map Prod.snd

theorem firstMatch_sound : firstMatch.Sound := by
  intro table path leaf h
  obtain ⟨e, hfind, rfl⟩ := Option.map_eq_some_iff.1 h
  exact ⟨e.1, List.mem_of_find?_eq_some hfind, by simpa using List.find?_some hfind⟩

/-- A middleware for `/admin`, a route below it and one with a parameter in its place. -/
def adminApp : App Nat where
  baseUrl := []
  routes :=
    [⟨"GET".toList, "/admin/list".toList, [], fun _ => [], 0⟩,
     ⟨"GET".toList, "/:section/users".toList, [], fun _ => [], 1⟩]
  uses := [⟨some "/admin/*".toList, [2]⟩]
  hooks := []
  mounts := []

theorem chain_of_match_admin :
    ∃ chain, adminApp.chains[0]? = some chain ∧ 2 ∈ chain.middleware := by
  obtain ⟨routes, hbuild, hmatch⟩ : ∃ routes,
      Routes.build firstMatch adminApp.routeDefs = .ok routes ∧
        routes.matchRoute firstMatch "GET".toList "/admin/list".toList = some 0 :=
    ⟨_, rfl, by decide⟩
  obtain ⟨r, chain, hr, hchain, hin, -⟩ :=
    chain_of_match firstMatch_sound hbuild (.self adminApp) List.mem_cons_self rfl
      (List.mem_singleton.2 rfl) (by decide) hmatch (by decide)
  obtain rfl := Option.some.inj hr
  exact ⟨chain, hchain, hin (by decide)⟩

/-- A request under `/admin` that reaches a route without the middleware. -/
theorem section_route_around :
    firstMatch.Sound ∧ ∃ routes chain,
      Routes.build firstMatch adminApp.routeDefs = .ok routes ∧
      routes.matchRoute firstMatch "GET".toList "/admin/users".toList = some 1 ∧
      prefixMatches (fullPrefix [] [] "/admin/*".toList) "/admin/users".toList = true ∧
      adminApp.chains[1]? = some chain ∧ 2 ∉ chain.middleware :=
  ⟨firstMatch_sound, _, _, rfl, by decide, by decide, rfl, by decide⟩

end Registered

end Routing
end OxideHttp
