import OxideHttp.Routing.Methods

/-!
# The path of a request (`js/context.ts`: `OxideRequest.path`)

A handler sees the path of the request without the `baseUrl` of its server.  The getter
drops the base wherever the path begins with its characters; a path that goes on with
anything but a slash is not below the base, and is cut all the same.

Results.
* `reqPath_join`: what `join` put in front of a route path is dropped again.
* `strips_iff`: the paths for which the getter inverts the joining of the base.
* `reqPath_apiary`: a path beside the base, in the hands of the not-found handler.
-/

namespace OxideHttp
namespace Routing

/-- `OxideRequest.path`; `raw` is the path of the request. -/
def reqPath (base raw : Text) : Text :=
  if base ≠ [] ∧ base.isPrefixOf raw = true then
    let rest := raw.drop base.length
    if rest = [] then ['/'] else rest
  else raw

/-- The path is the base, or goes on from it with a slash. -/
def AtBase (base p : Text) : Prop := p = base ∨ base ++ ['/'] <+: p

instance (base p : Text) : Decidable (AtBase base p) :=
  inferInstanceAs (Decidable (p = base ∨ base ++ ['/'] <+: p))

/-- The path begins with the characters of the base and is not below it. -/
def Beside (base p : Text) : Prop := base <+: p ∧ ¬ AtBase base p

instance (base p : Text) : Decidable (Beside base p) :=
  inferInstanceAs (Decidable (base <+: p ∧ ¬ AtBase base p))

/-- What a handler may expect of `c.req.path`. -/
structure Strips (base p : Text) : Prop where
  slash : ∃ u, reqPath base p = '/' :: u
  itself : p = base → reqPath base p = ['/']
  below : base ++ ['/'] <+: p → base ++ reqPath base p = p
  outside : ¬ AtBase base p → reqPath base p = p

theorem reqPath_nil (p : Text) : reqPath [] p = p := by simp [reqPath]

theorem reqPath_of_outside {base p : Text} (h : ¬ base <+: p) : reqPath base p = p := by
  simp [reqPath, h]

theorem reqPath_append {base : Text} (hbase : base ≠ []) (rest : Text) :
    reqPath base (base ++ rest) = if rest = [] then ['/'] else rest := by
  simp [reqPath, hbase]

theorem reqPath_self {base : Text} (hbase : base ≠ []) : reqPath base base = ['/'] := by
  simpa using reqPath_append hbase []

theorem reqPath_cons {base : Text} (hbase : base ≠ []) (u : Text) :
    reqPath base (base ++ '/' :: u) = '/' :: u := by
  simp [reqPath_append hbase]

/-- Stripping the base gives the path of the route back. -/
theorem reqPath_join (base u : Text) : reqPath base (join base ('/' :: u)) = '/' :: u := by
  by_cases hbase : base = []
  · rw [hbase, reqPath_nil]
    by_cases hu : u = []
    · rw [hu]
      rfl
    · rw [join_cons hu, List.nil_append]
  · by_cases hu : u = []
    · rw [hu, join_slash hbase, reqPath_self hbase]
    · rw [join_cons hu, reqPath_cons hbase]

theorem beside_nil {u : Text} : ¬ Beside [] ('/' :: u) := fun h =>
  h.2 (Or.inr ⟨u, rfl⟩)

/-- A path beside the base loses the characters of the base. -/
theorem Beside.not_slash {base p : Text} (hbase : base ≠ []) (h : Beside base p) :
    ¬ ∃ u, reqPath base p = '/' :: u := by
  obtain ⟨⟨rest, rfl⟩, hat⟩ := h
  rintro ⟨u, hu⟩
  rw [reqPath_append hbase] at hu
  split at hu
  case isTrue hrest => exact hat (Or.inl (by simp [hrest]))
  case isFalse => exact hat (Or.inr ⟨u, by simp [hu]⟩)

theorem strips_nil (v : Text) : Strips [] ('/' :: v) where
  slash := ⟨v, reqPath_nil _⟩
  itself := fun h => by cases h
  below := fun _ => by rw [reqPath_nil, List.nil_append]
  outside := fun _ => reqPath_nil _

theorem strips_self {base : Text} (hbase : base ≠ []) : Strips base base where
  slash := ⟨[], reqPath_self hbase⟩
  itself := fun _ => reqPath_self hbase
  below := fun h => by
    have hlength := h.length_le
    rw [List.length_append, List.length_singleton] at hlength
    omega
  outside := fun h => absurd (Or.inl rfl) h

theorem strips_cons {base : Text} (hbase : base ≠ []) (u : Text) :
    Strips base (base ++ '/' :: u) where
  slash := ⟨u, reqPath_cons hbase u⟩
  itself := fun h => by simp at h
  below := fun _ => by rw [reqPath_cons hbase]
  outside := fun h => absurd (Or.inr ⟨u, by simp⟩) h

theorem strips_of_outside {base v : Text} (h : ¬ base <+: '/' :: v) :
    Strips base ('/' :: v) where
  slash := ⟨v, reqPath_of_outside h⟩
  itself := fun heq => absurd (heq ▸ List.prefix_rfl) h
  below := fun hbelow => absurd ((List.prefix_append _ _).trans hbelow) h
  outside := fun _ => reqPath_of_outside h

/-- The getter inverts the joining of the base for the paths that begin with a slash and are
not beside the base. -/
theorem strips_iff (baseUrl p : Text) :
    (Strips (normalizeBase baseUrl) p ∧
        ∀ u, reqPath (normalizeBase baseUrl) (join (normalizeBase baseUrl) ('/' :: u)) =
          '/' :: u) ↔
      (∃ u, p = '/' :: u) ∧ ¬ Beside (normalizeBase baseUrl) p := by
  have hcases := normalizeBase_cases baseUrl
  generalize normalizeBase baseUrl = base at hcases ⊢
  constructor
  · rintro ⟨h, -⟩
    rcases hcases with rfl | ⟨t, rfl⟩
    · obtain ⟨u, hu⟩ := h.slash
      rw [reqPath_nil] at hu
      exact ⟨⟨u, hu⟩, hu ▸ beside_nil⟩
    · refine ⟨?_, fun hbeside => hbeside.not_slash (List.cons_ne_nil _ _) h.slash⟩
      by_cases hbelow : '/' :: t <+: p
      · obtain ⟨rest, rfl⟩ := hbelow
        exact ⟨t ++ rest, rfl⟩
      · obtain ⟨u, hu⟩ := h.slash
        exact ⟨u, by rwa [reqPath_of_outside hbelow] at hu⟩
  · rintro ⟨⟨v, rfl⟩, hbeside⟩
    refine ⟨?_, fun u => reqPath_join base u⟩
    by_cases hbase : base = []
    · rw [hbase]
      exact strips_nil v
    by_cases hbelow : base <+: '/' :: v
    · have hat : AtBase base ('/' :: v) := by
        by_contra hat
        exact hbeside ⟨hbelow, hat⟩
      rcases hat with heq | ⟨u, hu⟩
      · rw [heq]
        exact strips_self hbase
      · rw [← hu, List.append_assoc]
        exact strips_cons hbase u
    · exact strips_of_outside hbelow

/-- A server under `/api` with one route. -/
def apiRouter : Router firstMatch where
  defs := [⟨getMethod, "/api/users".toList, 0⟩]
  routes := _
  built := rfl

/-- A path beside the base reaches the not-found handler without its slash. -/
theorem reqPath_apiary :
    apiRouter.routeAndDispatch (fun _ _ => []) true getMethod "/apiary/7".toList =
        .dispatched (-1) [] false ∧
      reqPath (normalizeBase "api/".toList) "/apiary/7".toList = "ary/7".toList ∧
      ¬ Strips (normalizeBase "api/".toList) "/apiary/7".toList := by
  refine ⟨by decide, by decide, fun h => ?_⟩
  obtain ⟨u, hu⟩ := h.slash
  have hcut : reqPath (normalizeBase "api/".toList) "/apiary/7".toList = "ary/7".toList := by
    decide
  rw [hcut] at hu
  cases hu

end Routing
end OxideHttp
