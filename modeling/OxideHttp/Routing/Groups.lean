import OxideHttp.Routing.Labels

/-!
# Encapsulation of groups (`js/index.ts`, `js/pipeline.ts`)

Whether the hooks and the unprefixed middleware of a mounted app stay with its routes.
After the mounted apps are folded in, it is left to the prefixes to tell the routes of a
group from the others.

Results.
* `encapsulated_iff`: the groups are encapsulated just when no route from outside a group
  has a path under the prefix of the group.
-/

namespace OxideHttp
namespace Routing

variable {φ : Type}

/-- A hook or an unprefixed middleware of an app runs for routes of that app and of the
apps below it only. -/
def Encapsulated (a : App φ) : Prop :=
  ∀ c ∈ (a.tag []).chains,
    (∀ f ∈ c.middleware, f.given = none → f.edges <+: c.handler.edges) ∧
    ∀ stage, ∀ f ∈ c.hooks stage, f.edges <+: c.handler.edges

/-- The app has a hook or an unprefixed middleware. -/
def App.HasOwn (a : App φ) : Prop :=
  a.hooks ≠ [] ∨ ∃ c ∈ a.uses, c.pfx = none ∧ c.fns ≠ []

/-- A route that was not registered in the group of `t` does not lie under its prefix. -/
def Apart (a : App φ) : Prop :=
  ∀ es t, Mounted a es t → t.HasOwn →
    ∀ es' t', Mounted a es' t' → ¬ es <+: es' →
      ∀ r ∈ t'.routes,
        prefixMatches (scopeUnder es t.base) (pathUnder es' (join t'.base r.path)) = false

/-- A route from outside that lies under the prefix of a group gets its functions. -/
theorem Apart.of_encapsulated {a : App φ} (h : Encapsulated a) : Apart a := by
  intro es t ht hown es' t' ht' hout r hr
  by_contra hmatch
  rw [Bool.not_eq_false] at hmatch
  have hroute := mem_routes_tag.2 ⟨es', t', ht', r, hr, rfl⟩
  obtain ⟨hmiddleware, hhooks⟩ := h _ (mem_chains.2 ⟨_, hroute, rfl⟩)
  rcases hown with hhook | ⟨c, hc, hnone, hfns⟩
  · obtain ⟨⟨stage, fn⟩, hfn⟩ := List.exists_mem_of_ne_nil _ hhook
    have hentry := mem_hooks_tag.2 ⟨es, t, ht, fn, hfn, rfl⟩
    exact hout (hhooks stage _ (mem_chain_hooks.2 (Or.inl ⟨_, hentry, hmatch, rfl⟩)))
  · obtain ⟨fn, hfn⟩ := List.exists_mem_of_ne_nil _ hfns
    have hentry := mem_middleware_tag.2 ⟨es, t, ht, c, hc, fn, hfn, rfl⟩
    have hscope : c.scope t.base = t.base := by rw [UseCall.scope, hnone]
    rw [← hscope] at hmatch
    exact hout (hmiddleware _ (mem_chain_middleware.2 (Or.inl ⟨_, hentry, hmatch, rfl⟩)) hnone)

/-- A function of a group in a chain comes from a group that the route is in. -/
theorem Apart.encapsulated {a : App φ} (h : Apart a) : Encapsulated a := by
  intro c hc
  obtain ⟨_, hroute, rfl⟩ := mem_chains.1 hc
  obtain ⟨es', t', ht', r, hr, rfl⟩ := mem_routes_tag.1 hroute
  constructor
  · intro f hf hnone
    rcases mem_chain_middleware.1 hf with ⟨_, hm, hmatch, rfl⟩ | hown
    · obtain ⟨es, t, ht, c, hc, fn, hfn, rfl⟩ := mem_middleware_tag.1 hm
      have hscope : c.scope t.base = t.base := by rw [UseCall.scope, show c.pfx = none from hnone]
      by_contra hout
      have happart := h es t ht (Or.inr ⟨c, hc, hnone, List.ne_nil_of_mem hfn⟩) es' t' ht' hout
        r hr
      rw [hscope, happart] at hmatch
      exact Bool.false_ne_true hmatch
    · obtain ⟨fn, _, rfl⟩ := List.mem_map.1 hown
      exact List.prefix_rfl
  · intro stage f hf
    rcases mem_chain_hooks.1 hf with ⟨_, hm, hmatch, rfl⟩ | hown
    · obtain ⟨es, t, ht, fn, hfn, rfl⟩ := mem_hooks_tag.1 hm
      by_contra hout
      have happart := h es t ht (Or.inl (List.ne_nil_of_mem hfn)) es' t' ht' hout r hr
      rw [happart] at hmatch
      exact Bool.false_ne_true hmatch
    · obtain ⟨fn, _, rfl⟩ := List.mem_map.1 hown
      exact List.prefix_rfl

/-- The groups are encapsulated just when their prefixes keep the other routes out. -/
theorem encapsulated_iff (a : App φ) : Encapsulated a ↔ Apart a :=
  ⟨Apart.of_encapsulated, Apart.encapsulated⟩

/-- A group at `/g` with a hook, and a route of the app itself at `/g/other`. -/
def sharedPrefix : App Nat where
  baseUrl := []
  routes := [⟨"GET".toList, "/g/other".toList, [], fun _ => [], 0⟩]
  uses := []
  hooks := []
  mounts := [("/g".toList, ⟨[], [], [], [(.onRequest, 1)], []⟩)]

/-- The hook of the group runs for the route that was registered outside. -/
theorem hook_leaks : ¬ Encapsulated sharedPrefix := by
  intro h
  have hedges := (h _ (List.mem_singleton.2 rfl)).2 .onRequest
    ⟨[⟨0, [], "/g".toList⟩], [], none, 1⟩ (by decide)
  exact absurd hedges (by decide)

end Routing
end OxideHttp
