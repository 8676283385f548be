import OxideHttp.Dispatch.CacheReplay

/-!
# Purging (`src/lib.rs`: `purge_cache`)

The cached routes of one server.  `purge_cache` goes from one cache to the next, and the
requests of all routes go on in between.  Nothing marks a request that is with its handler
meanwhile: its response is stored when it comes.

Result: `purge_clears`, what a purge has gone through is not served again.
-/

namespace OxideHttp
namespace Dispatch

structure ServerState where
  leaves : List LeafState
  /-- the `purge_cache` that runs: its path, and how many caches it has been through -/
  purging : Option (Option String × Nat)

inductive ServerEvent where
  /-- what happens to a request of route `j` -/
  | route (j : Nat) (e : Event)
  | tick (elapsed : Nat)
  /-- `purge_cache` is called -/
  | purgeCache (path : Option String)
  /-- it goes through the next cache -/
  | purgeNext
  | purgeReturn

/-- The event is that of a request. -/
def Event.ofRequest : Event → Bool
  | .arrive _ | .respond .. | .gone _ => true
  | .purge _ | .tick _ => false

/-- What an event is to the route `j`, purges and the clock aside. -/
def leafEvent (j : Nat) : ServerEvent → Option Event
  | .route j' e => if j' = j then some e else none
  | _ => none

section Server

variable (env : Env) (routes : List Leaf) (requestIdHeader : String)

def ServerState.init : ServerState :=
  { leaves := routes.map fun _ => LeafState.init, purging := none }

def ServerState.step (s : ServerState) : ServerEvent → Option ServerState
  | .route j e =>
      match e.ofRequest, routes[j]?, s.leaves[j]? with
      | true, some leaf, some l =>
          (l.step env leaf requestIdHeader e).map fun l =>
            { s with leaves := s.leaves.set j l }
      | _, _, _ => none
  | .tick elapsed =>
      some { s with leaves := s.leaves.map fun l => { l with now := l.now + elapsed } }
  | .purgeCache path =>
      match s.purging with
      | none => some { s with purging := some (path, 0) }
      | some _ => none
  | .purgeNext =>
      match s.purging with
      | some (path, m) =>
          (s.leaves[m]?).map fun l =>
            { leaves := s.leaves.set m { l with store := Cache.purge l.store path }
              purging := some (path, m + 1) }
      | none => none
  | .purgeReturn =>
      match s.purging with
      | some (_, m) => if m = s.leaves.length then some { s with purging := none } else none
      | none => none

end Server

/-- The purge covers the entry. -/
def Covers (path : Option String) (e : Cache.Entry) : Prop :=
  path = none ∨ path = some e.path

section Steps

variable {env : Env} {routes : List Leaf} {requestIdHeader : String}
  {s t : ServerState} {ev : ServerEvent} {j m : Nat} {path : Option String}

/-- The moves of the purge. -/
theorem purging_step (hstep : s.step env routes requestIdHeader ev = some t)
    (hs : s.purging = some (path, m)) (hev : ev ≠ .purgeReturn) :
    ev = .purgeNext ∧ t.purging = some (path, m + 1) ∨
      ev ≠ .purgeNext ∧ t.purging = some (path, m) := by
  cases ev with
  | purgeReturn => exact absurd rfl hev
  | purgeCache p => simp [ServerState.step, hs] at hstep
  | tick elapsed =>
      obtain rfl := Option.some.inj hstep
      exact Or.inr ⟨nofun, hs⟩
  | purgeNext =>
      simp only [ServerState.step, hs] at hstep
      obtain ⟨l, _, rfl⟩ := Option.map_eq_some_iff.1 hstep
      exact Or.inl ⟨rfl, rfl⟩
  | route j e =>
      simp only [ServerState.step] at hstep
      split at hstep
      case h_1 =>
        obtain ⟨l, _, rfl⟩ := Option.map_eq_some_iff.1 hstep
        exact Or.inr ⟨nofun, hs⟩
      case h_2 => cases hstep

theorem leaves_length (hstep : s.step env routes requestIdHeader ev = some t) :
    t.leaves.length = s.leaves.length := by
  cases ev with
  | tick elapsed =>
      obtain rfl := Option.some.inj hstep
      exact List.length_map ..
  | purgeCache p =>
      simp only [ServerState.step] at hstep
      split at hstep
      case h_1 =>
        obtain rfl := Option.some.inj hstep
        rfl
      case h_2 => cases hstep
  | purgeNext =>
      simp only [ServerState.step] at hstep
      split at hstep
      case h_1 =>
        obtain ⟨l, _, rfl⟩ := Option.map_eq_some_iff.1 hstep
        exact List.length_set
      case h_2 => cases hstep
  | purgeReturn =>
      simp only [ServerState.step] at hstep
      split at hstep
      case h_1 =>
        obtain ⟨_, hstep⟩ := Option.ite_none_right_eq_some.1 hstep
        obtain rfl := Option.some.inj hstep
        rfl
      case h_2 => cases hstep
  | route j e =>
      simp only [ServerState.step] at hstep
      split at hstep
      case h_1 =>
        obtain ⟨l, _, rfl⟩ := Option.map_eq_some_iff.1 hstep
        exact List.length_set
      case h_2 => cases hstep

theorem run_leaves_length {evs : List ServerEvent}
    (hrun : Transition.run (ServerState.step env routes requestIdHeader) s evs = some t) :
    t.leaves.length = s.leaves.length :=
  Transition.run_invariant (I := fun u => u.leaves.length = s.leaves.length)
    (fun _ _ _ hu hstep => (leaves_length hstep).trans hu) rfl hrun

/-- To one route, a step of the server is a step of its own, or none at all. -/
theorem leaf_step {leaf : Leaf} {l' : LeafState}
    (hstep : s.step env routes requestIdHeader ev = some t) (hroute : routes[j]? = some leaf)
    (hl : t.leaves[j]? = some l') :
    ∃ l, s.leaves[j]? = some l ∧
      (l' = l ∧ leafEvent j ev = none ∨
        ∃ e, l.step env leaf requestIdHeader e = some l' ∧
          (leafEvent j ev = some e ∨ leafEvent j ev = none ∧ e.ofRequest = false)) := by
  cases ev with
  | tick elapsed =>
      obtain rfl := Option.some.inj hstep
      rw [List.getElem?_map] at hl
      obtain ⟨l, hget, rfl⟩ := Option.map_eq_some_iff.1 hl
      exact ⟨l, hget, Or.inr ⟨.tick elapsed, rfl, Or.inr ⟨rfl, rfl⟩⟩⟩
  | purgeCache p =>
      simp only [ServerState.step] at hstep
      split at hstep
      case h_1 =>
        obtain rfl := Option.some.inj hstep
        exact ⟨l', hl, Or.inl ⟨rfl, rfl⟩⟩
      case h_2 => cases hstep
  | purgeReturn =>
      simp only [ServerState.step] at hstep
      split at hstep
      case h_1 =>
        obtain ⟨_, hstep⟩ := Option.ite_none_right_eq_some.1 hstep
        obtain rfl := Option.some.inj hstep
        exact ⟨l', hl, Or.inl ⟨rfl, rfl⟩⟩
      case h_2 => cases hstep
  | purgeNext =>
      simp only [ServerState.step] at hstep
      split at hstep
      case h_2 => cases hstep
      case h_1 path m _ =>
        obtain ⟨l, hget, rfl⟩ := Option.map_eq_some_iff.1 hstep
        by_cases hj : m = j
        · subst hj
          obtain ⟨hlt, _⟩ := List.getElem?_eq_some_iff.1 hget
          rw [List.getElem?_set_self hlt] at hl
          obtain rfl := Option.some.inj hl
          exact ⟨l, hget, Or.inr ⟨.purge path, rfl, Or.inr ⟨rfl, rfl⟩⟩⟩
        · rw [List.getElem?_set_ne hj] at hl
          exact ⟨l', hl, Or.inl ⟨rfl, rfl⟩⟩
  | route i e =>
      simp only [ServerState.step] at hstep
      split at hstep
      case h_2 => cases hstep
      case h_1 leaf' l _ hleaf hget =>
        obtain ⟨u, hu, rfl⟩ := Option.map_eq_some_iff.1 hstep
        by_cases hj : i = j
        · subst hj
          obtain ⟨hlt, _⟩ := List.getElem?_eq_some_iff.1 hget
          rw [List.getElem?_set_self hlt] at hl
          obtain rfl := Option.some.inj hl
          obtain rfl := Option.some.inj (hleaf.symm.trans hroute)
          exact ⟨l, hget, Or.inr ⟨e, hu, Or.inl (if_pos rfl)⟩⟩
        · rw [List.getElem?_set_ne hj] at hl
          exact ⟨l', hl, Or.inl ⟨rfl, if_neg hj⟩⟩

/-- What the steps of one route keep, a run of the server keeps of that route. -/
theorem leaf_history {leaf : Leaf} {K : LeafState → List Event → Prop}
    (hK : ∀ l es e l', K l es → l.step env leaf requestIdHeader e = some l' →
      K l' (es ++ [e]))
    (hsilent : ∀ l es e, e.ofRequest = false → K l (es ++ [e]) → K l es)
    (hroute : routes[j]? = some leaf) (hs : ∀ l, s.leaves[j]? = some l → K l [])
    {evs : List ServerEvent}
    (hrun : Transition.run (ServerState.step env routes requestIdHeader) s evs = some t) :
    ∀ l, t.leaves[j]? = some l → K l (evs.filterMap (leafEvent j)) := by
  refine Transition.run_history
    (J := fun t evs => ∀ l, t.leaves[j]? = some l → K l (evs.filterMap (leafEvent j)))
    hs ?_ hrun
  intro t evs ev u hJ hstep l' hl'
  obtain ⟨l, hl, ⟨rfl, hnone⟩ | ⟨e, hle, hsome | ⟨hnone, he⟩⟩⟩ := leaf_step hstep hroute hl'
  · simpa [hnone] using hJ l' hl
  · simpa [hsome] using hK l _ e l' (hJ l hl) hle
  · simpa [hnone] using hsilent l' _ e he (hK l _ e l' (hJ l hl) hle)

/-- The purge goes through every cache. -/
theorem sweep_passes {n : Nat} {path' : Option String} {evs : List ServerEvent}
    (hrun : Transition.run (ServerState.step env routes requestIdHeader) s evs = some t)
    (hs : s.purging = some (path, m)) (ht : t.purging = some (path', n))
    (hevs : ServerEvent.purgeReturn ∉ evs) (hmj : m ≤ j) (hjn : j < n) :
    ∃ before after u, evs = before ++ .purgeNext :: after ∧
      Transition.run (ServerState.step env routes requestIdHeader) s before = some u ∧
        u.purging = some (path, j) := by
  induction evs generalizing s m with
  | nil =>
      obtain rfl := Option.some.inj hrun
      obtain rfl : m = n := by
        rw [hs] at ht
        exact (Prod.mk.inj (Option.some.inj ht)).2
      omega
  | cons ev evs ih =>
      obtain ⟨v, hv, hvt⟩ := Transition.run_cons_some.1 hrun
      rw [List.mem_cons, not_or] at hevs
      rcases purging_step hv hs (Ne.symm hevs.1) with ⟨rfl, hpurging⟩ | ⟨_, hpurging⟩
      · by_cases hj : m = j
        · subst hj
          exact ⟨[], evs, s, rfl, rfl, hs⟩
        · obtain ⟨before, after, u, rfl, hu, hpos⟩ := ih hvt hpurging hevs.2 (by omega)
          exact ⟨.purgeNext :: before, after, u, rfl,
            Transition.run_cons_some.2 ⟨v, hv, hu⟩, hpos⟩
      · obtain ⟨before, after, u, rfl, hu, hpos⟩ := ih hvt hpurging hevs.2 hmj
        exact ⟨ev :: before, after, u, rfl, Transition.run_cons_some.2 ⟨v, hv, hu⟩, hpos⟩

/-! ## What is served after a purge -/

theorem Produced.of_silent {cfg : Cache.CacheConfig} {l : LeafState} {es : List Event}
    {e : Event} {k : String} {entry : Cache.Entry} (he : e.ofRequest = false)
    (h : Produced env cfg requestIdHeader l (es ++ [e]) k entry) :
    Produced env cfg requestIdHeader l es k entry := by
  obtain ⟨i, call, res, pick, now, hmem, hrest⟩ := h
  refine ⟨i, call, res, pick, now, ?_, hrest⟩
  rcases List.mem_append.1 hmem with hmem | hmem
  · exact hmem
  · obtain rfl := List.mem_singleton.1 hmem
    cases he

theorem purging_return (hstep : s.step env routes requestIdHeader .purgeReturn = some t) :
    ∃ path, s.purging = some (path, s.leaves.length) := by
  simp only [ServerState.step] at hstep
  split at hstep
  case h_1 path m hs =>
    rw [hs, (Option.ite_none_right_eq_some.1 hstep).1]
    exact ⟨path, rfl⟩
  case h_2 => cases hstep

theorem purging_call (hstep : s.step env routes requestIdHeader (.purgeCache path) = some t) :
    t.purging = some (path, 0) := by
  simp only [ServerState.step] at hstep
  split at hstep
  case h_1 =>
    obtain rfl := Option.some.inj hstep
    rfl
  case h_2 => cases hstep

/-- Right after it was purged, a cache holds nothing that the purge covers. -/
theorem purged_clear {l : LeafState} (hs : s.purging = some (path, j))
    (hstep : s.step env routes requestIdHeader .purgeNext = some t)
    (hl : t.leaves[j]? = some l) : ∀ d ∈ l.store.entries, ¬ Covers path d.2 := by
  simp only [ServerState.step, hs] at hstep
  obtain ⟨u, hget, rfl⟩ := Option.map_eq_some_iff.1 hstep
  obtain ⟨hlt, _⟩ := List.getElem?_eq_some_iff.1 hget
  rw [List.getElem?_set_self hlt] at hl
  obtain rfl := Option.some.inj hl
  intro d hd
  cases path with
  | none => cases hd
  | some p =>
      obtain ⟨_, hpath⟩ := Cache.Store.mem_retain.1 hd
      rintro (hp | hp)
      · cases hp
      · exact absurd (Option.some.inj hp).symm (by simpa using hpath)

end Steps

/--
After a `purge_cache` has returned, a request that it covers is answered from the cache
only with a response that was stored after the purge had been through the cache of the
route: what was there before is not served again.
-/
theorem purge_clears (env : Env) (routes : List Leaf) (requestIdHeader : String)
    (evs during after : List ServerEvent) (path : Option String) (s : ServerState)
    (hrun : Transition.run (ServerState.step env routes requestIdHeader)
      (ServerState.init routes)
      (evs ++ .purgeCache path :: (during ++ .purgeReturn :: after)) = some s)
    (hduring : ServerEvent.purgeReturn ∉ during)
    (j : Nat) (leaf : Leaf) (cfg : Cache.CacheConfig) (l : LeafState)
    (hroute : routes[j]? = some leaf) (hcfg : leaf.cache = some cfg)
    (hl : s.leaves[j]? = some l) (req : Request) (hit : Cache.Hit)
    (hpath : path = none ∨ path = some req.path)
    (hcached : l.outcome env leaf req = .cached hit) :
    ∃ swept rest u i call res pick,
      during = swept ++ .purgeNext :: rest ∧
        Transition.run (ServerState.step env routes requestIdHeader)
          (ServerState.init routes) (evs ++ .purgeCache path :: swept) = some u ∧
        u.purging = some (path, j) ∧
        ServerEvent.route j (.respond i res pick) ∈ rest ++ .purgeReturn :: after ∧
        l.calls[i]? = some call ∧ SameRequest env cfg call.req req ∧
        hit =
          { status := 200
            headers := Cache.replayHeaders env.lowercase requestIdHeader
              (res.headers.getD [])
            body := res.body.getD [] } := by
  -- the run, cut at the call of the purge and at its return
  obtain ⟨s₀, h₀, hcall⟩ := Transition.run_append_some.1 hrun
  obtain ⟨s₁, h₁, hsweep⟩ := Transition.run_cons_some.1 hcall
  obtain ⟨s₂, h₂, hreturn⟩ := Transition.run_append_some.1 hsweep
  obtain ⟨s₃, h₃, _⟩ := Transition.run_cons_some.1 hreturn
  obtain ⟨path', hpurging⟩ := purging_return h₃
  have hlength : s₂.leaves.length = routes.length :=
    (run_leaves_length h₂).trans ((leaves_length h₁).trans
      ((run_leaves_length h₀).trans (List.length_map _)))
  obtain ⟨hj, _⟩ := List.getElem?_eq_some_iff.1 hroute
  obtain ⟨swept, rest, u, rfl, hu, hpos⟩ := sweep_passes h₂ (purging_call h₁) hpurging hduring
    (Nat.zero_le j) (hlength ▸ hj)
  -- from the moment at which the cache of the route is clear
  obtain ⟨v, hv, hrest⟩ : ∃ v, u.step env routes requestIdHeader .purgeNext = some v ∧
      Transition.run (ServerState.step env routes requestIdHeader) v
        (rest ++ .purgeReturn :: after) = some s := by
    rw [List.append_assoc, List.cons_append] at hsweep
    obtain ⟨u', hu', htail⟩ := Transition.run_append_some.1 hsweep
    obtain rfl := Option.some.inj (hu.symm.trans hu')
    exact Transition.run_cons_some.1 htail
  have hfresh := leaf_history (j := j)
    (K := fun l es => ∀ d ∈ l.store.entries, Covers path d.2 →
      Produced env cfg requestIdHeader l es d.1 d.2)
    (fun _ _ _ _ hK hstep => produced_step hcfg (Covers path) hK hstep)
    (fun _ _ _ he hK d hd hP => (hK d hd hP).of_silent he) hroute
    (fun l hl d hd hP => absurd hP (purged_clear hpos hv hl d hd)) hrest l hl
  have hreplays := leaf_history (j := j)
    (K := Replays env leaf cfg requestIdHeader)
    (fun _ _ _ _ hK hstep => hK.step hcfg hstep)
    (fun _ _ _ he hK => ⟨fun d hd => (hK.entries d hd).of_silent he, hK.keys⟩) hroute
    (fun l hl => by
      rw [ServerState.init, List.getElem?_map] at hl
      obtain ⟨_, _, rfl⟩ := Option.map_eq_some_iff.1 hl
      exact replays_init) hrun l hl
  obtain ⟨k, e, he, rfl, hsame⟩ := hreplays.hit hcfg hcached
  have hcovers : Covers path e := by
    obtain ⟨i, call, res, pick, now, _, hget, hkey, _, rfl⟩ := hreplays.entries (k, e) he
    rw [← (hsame call (List.mem_of_getElem? hget) hkey).path] at hpath
    exact hpath
  obtain ⟨i, call, res, pick, now, hmem, hget, hkey, hres, rfl⟩ := hfresh (k, e) he hcovers
  refine ⟨swept, rest, u, i, call, res, pick, rfl, ?_, hpos, ?_, hget,
    hsame call (List.mem_of_getElem? hget) hkey, ?_⟩
  · exact Transition.run_append_some.2 ⟨s₀, h₀, Transition.run_cons_some.2 ⟨s₁, h₁, hu⟩⟩
  · obtain ⟨ev, hev, hleaf⟩ := List.mem_filterMap.1 hmem
    cases ev with
    | tick | purgeCache | purgeNext | purgeReturn => cases hleaf
    | route j' e =>
        simp only [leafEvent, Option.ite_none_right_eq_some, Option.some.injEq] at hleaf
        obtain ⟨rfl, rfl⟩ := hleaf
        exact hev
  · simp [Cache.entryOf, hres.status]

/-- One request is answered after everything was purged. -/
def purgedFirst : List ServerEvent :=
  [.purgeCache none, .purgeNext, .purgeReturn, .route 0 (.arrive (get [] [])),
    .route 0 (.respond 0 okResponse 0)]

theorem purge_clears_first :
    ∃ s l hit, Transition.run (ServerState.step sampleEnv [openLeaf] "x-request-id")
        (ServerState.init [openLeaf]) purgedFirst = some s ∧ s.leaves[0]? = some l ∧
      l.outcome sampleEnv openLeaf (get [] []) = .cached hit ∧
      ∃ swept rest, [ServerEvent.purgeNext] = swept ++ .purgeNext :: rest := by
  refine ⟨_, _, _, rfl, rfl, rfl, ?_⟩
  obtain ⟨swept, rest, _, _, _, _, _, hsplit, _⟩ := purge_clears sampleEnv [openLeaf]
    "x-request-id" [] [.purgeNext]
    [.route 0 (.arrive (get [] [])), .route 0 (.respond 0 okResponse 0)] none _ rfl (by simp)
    0 openLeaf _ _ rfl rfl rfl (get [] []) _ (Or.inl rfl) rfl
  exact ⟨swept, rest, hsplit⟩

/-- Everything is purged while the only request is with its handler. -/
def purgedInFlight : List ServerEvent :=
  [.purgeNext, .purgeReturn, .route 0 (.respond 0 okResponse 0)]

/-- The response of that request is stored when it comes, and served. -/
theorem purge_undone :
    ¬ ∀ (env : Env) (routes : List Leaf) (requestIdHeader : String)
        (evs during : List ServerEvent) (path : Option String) (u s : ServerState) (j : Nat)
        (leaf : Leaf) (l₀ l : LeafState) (req : Request) (hit : Cache.Hit),
      Transition.run (ServerState.step env routes requestIdHeader) (ServerState.init routes)
        evs = some u →
      Transition.run (ServerState.step env routes requestIdHeader) u
        (.purgeCache path :: during) = some s →
      ServerEvent.purgeReturn ∈ during → (path = none ∨ path = some req.path) →
      routes[j]? = some leaf → u.leaves[j]? = some l₀ → s.leaves[j]? = some l →
      l.outcome env leaf req = .cached hit →
      ∃ call ∈ l.calls.drop l₀.calls.length, call.req.path = req.path := by
  intro hall
  obtain ⟨call, hcall, _⟩ := hall sampleEnv [openLeaf] "x-request-id"
    [.route 0 (.arrive (get [] []))] purgedInFlight none _ _ 0 openLeaf _ _ (get [] []) _
    rfl rfl (by simp [purgedInFlight]) (Or.inl rfl) rfl rfl rfl rfl
  cases hcall

end Dispatch
end OxideHttp
