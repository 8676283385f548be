import OxideHttp.Routing

/-!
# Joining texts without empty pieces (`js/index.ts`)

The bases, prefixes and paths that are given to an app, to `route`, `use` and the methods
are texts; `normalizeBase`, `join` and `remap` put them together.  Here is what becomes of
their segments when no text has an empty piece inside.

Results.
* `parts_normalizeBase`: what normalising keeps of the segments.
* `dense_join`: joining makes an empty piece below a base `/` only.
* `pathUnder_spec`: the segments of a path below mounts, and when none is empty.
-/

namespace OxideHttp
namespace Routing

open Pieces

/-! ## Segments of a text -/

/-- The segments that are meant by a base or a prefix. -/
def prefixSegs (t : Text) : List Text :=
  let segs := parts '/' t
  if segs.getLast? = some ['*'] then segs.dropLast else segs

/-- The text ends in a segment `*` with a slash after it. -/
def Starred (t : Text) : Prop := ['/', '*', '/'] <:+ slashed t

instance (t : Text) : Decidable (Starred t) := by
  unfold Starred
  infer_instance

theorem parts_slashed (t : Text) : parts '/' (slashed t) = parts '/' t := by
  unfold slashed
  split_ifs
  · rfl
  · exact parts_cons_self t

theorem dense_slashed {t : Text} (h : Dense '/' t) : Dense '/' (slashed t) := by
  unfold slashed
  split_ifs with hslash
  · exact h
  · refine h.cons_sep fun hhead => hslash ?_
    cases t with
    | nil => cases hhead
    | cons c t =>
        obtain rfl : c = '/' := by simpa using hhead
        simp

theorem not_solid_concat (w : Text) : ¬ Solid '/' (w ++ ['/']) := by
  rw [solid_append_cons]
  exact fun h => not_solid_singleton h.2

/-- Unless there is nothing to normalise, `/*` and a slash are cut off at the end. -/
theorem normalizeBase_eq {t : Text} (ht : slashed t ≠ ['/']) :
    normalizeBase t =
      let s := if ['/', '*'].isSuffixOf (slashed t) then (slashed t).dropLast.dropLast
        else slashed t
      if ['/'].isSuffixOf s then s.dropLast else s := by
  rw [normalizeBase, if_neg]
  rintro (rfl | rfl)
  · exact ht rfl
  · exact ht rfl

theorem normalizeBase_of_star {t w : Text} (ht : slashed t = w ++ ['/', '*'])
    (hw : Solid '/' w) : normalizeBase t = w := by
  have hslash : ['/'].isSuffixOf w = false := by
    rw [Bool.eq_false_iff, ne_eq, List.isSuffixOf_iff_suffix]
    rintro ⟨v, rfl⟩
    exact not_solid_concat v hw
  have hstar : ['/', '*'].isSuffixOf (w ++ ['/', '*']) = true :=
    List.isSuffixOf_iff_suffix.2 (List.suffix_append _ _)
  have hcut : (w ++ ['/', '*']).dropLast.dropLast = w := by simp
  have hroot : slashed t ≠ ['/'] := by
    intro hroot
    simpa using congrArg List.getLast? (ht.symm.trans hroot)
  rw [normalizeBase_eq hroot, ht, if_pos hstar, hcut]
  simp [hslash]

theorem normalizeBase_of_slash {t w : Text} (ht : slashed t = w ++ ['/']) :
    normalizeBase t = w := by
  by_cases hroot : slashed t = ['/']
  · obtain rfl : w = [] := by simpa [hroot] using ht
    have : t = [] ∨ t = ['/'] := by
      unfold slashed at hroot
      split_ifs at hroot
      · exact Or.inr hroot
      · exact Or.inl (by simpa using hroot)
    rw [normalizeBase, if_pos this]
  · have hstar : ['/', '*'].isSuffixOf (w ++ ['/']) = false := by
      rw [Bool.eq_false_iff, ne_eq, List.isSuffixOf_iff_suffix]
      rintro ⟨v, hv⟩
      simpa using congrArg List.getLast? hv
    have hslash : ['/'].isSuffixOf (w ++ ['/']) = true :=
      List.isSuffixOf_iff_suffix.2 (List.suffix_append _ _)
    rw [normalizeBase_eq hroot, ht]
    simp [hstar, hslash]

theorem normalizeBase_of_none {t : Text} (hstar : ¬ ['/', '*'] <:+ slashed t)
    (hslash : ¬ ['/'] <:+ slashed t) : normalizeBase t = slashed t := by
  have hroot : slashed t ≠ ['/'] := fun hroot => hslash (hroot ▸ List.suffix_rfl)
  rw [← List.isSuffixOf_iff_suffix, Bool.not_eq_true] at hstar hslash
  rw [normalizeBase_eq hroot]
  simp [hstar, hslash]

theorem star_isSuffix {u : Text} (h : Solid '/' ('/' :: u))
    (hlast : (parts '/' ('/' :: u)).getLast? = some ['*']) : ['/', '*'] <:+ '/' :: u := by
  obtain ⟨front, hfront⟩ := List.getLast?_eq_some_iff.1 hlast
  have hpieces := splitOn_of_solid h
  rw [hfront, ← List.cons_append] at hpieces
  exact isSuffix_of_splitOn (List.cons_ne_nil _ _) hpieces

/-- What normalising keeps of the segments: those that are meant, and a `*` that has a
slash after it. -/
theorem parts_normalizeBase {t : Text} (h : Dense '/' t) :
    Solid '/' (normalizeBase t) ∧
      parts '/' (normalizeBase t) = prefixSegs t ++ if Starred t then [['*']] else [] := by
  have hdense := dense_slashed h
  obtain ⟨u, hu⟩ := exists_slashed t
  by_cases hstar : ['/', '*'] <:+ slashed t
  · obtain ⟨w, hw⟩ := hstar
    have hsolid : Solid '/' w := (dense_append_cons.1 (by rwa [← hw] at hdense)).1
    have hparts : parts '/' t = parts '/' w ++ [['*']] := by
      rw [← parts_slashed, ← hw, parts_append_cons]
      rfl
    have hnot : ¬ Starred t := by
      rintro ⟨v, hv⟩
      simpa using congrArg List.getLast? (hv.trans hw.symm)
    rw [normalizeBase_of_star hw.symm hsolid, prefixSegs, hparts, if_neg hnot]
    exact ⟨hsolid, by simp⟩
  · by_cases hslash : ['/'] <:+ slashed t
    · obtain ⟨w, hw⟩ := hslash
      have hsolid : Solid '/' w := (dense_append_cons.1 (by rwa [← hw] at hdense)).1
      have hparts : parts '/' t = parts '/' w := by
        rw [← parts_slashed, ← hw, parts_append_cons]
        simp
      rw [normalizeBase_of_slash hw.symm, prefixSegs, hparts]
      refine ⟨hsolid, ?_⟩
      by_cases hstarred : Starred t
      · rw [if_pos hstarred]
        obtain ⟨v, hv⟩ := hstarred
        have hcut : v ++ ['/', '*'] = w := by
          simpa using congrArg List.dropLast (hv.trans hw.symm)
        have hkept : parts '/' w = parts '/' v ++ [['*']] := by
          rw [← hcut, parts_append_cons]
          rfl
        simp [hkept]
      · have hlast : (parts '/' w).getLast? ≠ some ['*'] := by
          intro hlast
          rw [hu] at hw
          rcases List.append_eq_cons_iff.1 hw with ⟨rfl, -⟩ | ⟨w', rfl, -⟩
          · cases hlast
          · obtain ⟨v, hv⟩ := star_isSuffix hsolid hlast
            exact hstarred ⟨v, by rw [hu, ← hw, ← hv]; simp⟩
        rw [if_neg hlast, if_neg hstarred, List.append_nil]
    · have hsolid : Solid '/' (slashed t) := by
        rw [hu] at hdense hslash ⊢
        exact hdense.solid hslash
      have hnot : ¬ Starred t := by
        rintro ⟨v, hv⟩
        exact hslash ⟨v ++ ['/', '*'], by simp [← hv]⟩
      have hlast : (parts '/' t).getLast? ≠ some ['*'] := by
        rw [← parts_slashed]
        intro hlast
        rw [hu] at hsolid hlast hstar
        exact hstar (star_isSuffix hsolid hlast)
      rw [normalizeBase_of_none hstar hslash, prefixSegs, if_neg hlast, if_neg hnot,
        parts_slashed, List.append_nil]
      exact ⟨hsolid, rfl⟩

/-! ## Texts put together -/

/-- What normalising gives: nothing, or a text with a leading slash, none of its pieces
empty. -/
def Normal (t : Text) : Prop := (t = [] ∨ ∃ u, t = '/' :: u) ∧ Solid '/' t

/-- A normalised text, or a slash. -/
def Trim (t : Text) : Prop := t = ['/'] ∨ (∃ u, t = '/' :: u) ∧ Solid '/' t

theorem normal_normalizeBase {t : Text} (h : Dense '/' t) : Normal (normalizeBase t) :=
  ⟨normalizeBase_cases t, (parts_normalizeBase h).1⟩

theorem Normal.trim {t : Text} (h : Normal t) (hne : t ≠ []) : Trim t :=
  Or.inr ⟨h.1.resolve_left hne, h.2⟩

theorem Trim.exists_cons {t : Text} (h : Trim t) : ∃ u, t = '/' :: u := by
  rcases h with rfl | ⟨h, -⟩
  · exact ⟨[], rfl⟩
  · exact h

theorem Trim.dense {t : Text} (h : Trim t) : Dense '/' t := by
  rcases h with rfl | ⟨-, h⟩
  · exact dense_singleton
  · exact h.dense

theorem eq_slash_iff {u : Text} (h : Dense '/' ('/' :: u)) :
    '/' :: u = ['/'] ↔ parts '/' ('/' :: u) = [] := by
  constructor
  · intro heq
    rw [heq]
    rfl
  · intro hparts
    rw [eq_nil_of_parts h hparts]

theorem Trim.eq_slash_iff {t : Text} (h : Trim t) : t = ['/'] ↔ parts '/' t = [] := by
  obtain ⟨u, rfl⟩ := h.exists_cons
  exact Routing.eq_slash_iff h.dense

theorem parts_join {base : Text} (h : base ≠ []) (u : Text) :
    parts '/' (join base ('/' :: u)) = parts '/' base ++ parts '/' ('/' :: u) := by
  by_cases hu : u = []
  · rw [hu, join_slash h]
    simp
  · rw [join_cons hu, parts_append_cons]

/-- Below `/` there is a double slash, unless nothing is there. -/
theorem dense_join {base : Text} (h : Trim base) (u : Text) :
    Dense '/' (join base ('/' :: u)) ↔
      Dense '/' ('/' :: u) ∧ (base = ['/'] → '/' :: u = ['/']) := by
  obtain ⟨v, hv⟩ := h.exists_cons
  have hne : base ≠ [] := by simp [hv]
  by_cases hu : u = []
  · subst hu
    rw [join_slash hne]
    exact ⟨fun _ => ⟨dense_singleton, fun _ => rfl⟩, fun _ => h.dense⟩
  · rw [join_cons hu, dense_append_cons]
    have hcons : '/' :: u ≠ ['/'] := by simp [hu]
    constructor
    · rintro ⟨hsolid, hdense⟩
      refine ⟨hdense, ?_⟩
      rintro rfl
      exact absurd hsolid not_solid_singleton
    · rintro ⟨hdense, hslash⟩
      exact ⟨(h.resolve_left fun heq => hcons (hslash heq)).2, hdense⟩

theorem trim_join {base u : Text} (h : Trim base) (hu : Trim ('/' :: u))
    (hdense : Dense '/' (join base ('/' :: u))) : Trim (join base ('/' :: u)) := by
  obtain ⟨v, hv⟩ := h.exists_cons
  have hne : base ≠ [] := by simp [hv]
  rcases hu with hslash | ⟨-, hsolid⟩
  · rw [hslash, join_slash hne]
    exact h
  · have hcons : u ≠ [] := by
      rintro rfl
      exact not_solid_singleton hsolid
    rw [join_cons hcons] at hdense ⊢
    refine Or.inr ⟨⟨v ++ '/' :: u, by simp [hv]⟩, ?_⟩
    exact solid_append_cons.2 ⟨(dense_append_cons.1 hdense).1, hsolid⟩

theorem join_slashed (base path : Text) : join base (slashed path) = join base path := by
  obtain ⟨u, hu⟩ := exists_slashed path
  rw [join, join, hu, slashed_cons]

theorem join_nil_cons (u : Text) : join [] ('/' :: u) = '/' :: u := by
  by_cases hu : u = []
  · rw [hu]
    rfl
  · exact join_cons hu

theorem Normal.ne_slash {t : Text} (h : Normal t) : t ≠ ['/'] := by
  rintro rfl
  exact not_solid_singleton h.2

/-- A path that is registered on an app with this base. -/
theorem join_base {base path : Text} (hbase : Normal base) (hpath : Dense '/' path) :
    (∃ u, join base path = '/' :: u) ∧ Dense '/' (join base path) ∧
      parts '/' (join base path) = parts '/' base ++ parts '/' path := by
  have hslashed := dense_slashed hpath
  rw [← parts_slashed path, ← join_slashed]
  obtain ⟨u, hu⟩ := exists_slashed path
  rw [hu] at hslashed ⊢
  by_cases hnil : base = []
  · subst hnil
    rw [join_nil_cons]
    exact ⟨⟨u, rfl⟩, hslashed, rfl⟩
  · refine ⟨exists_join_cons hbase.1 _, ?_, parts_join hnil u⟩
    exact (dense_join (hbase.trim hnil) u).2 ⟨hslashed, fun heq => absurd heq hbase.ne_slash⟩

/-- A prefix that is registered on an app with this base. -/
theorem trim_join_base {base pfx : Text} (hbase : Normal base) (hpfx : Normal pfx) :
    Trim (join base pfx) := by
  by_cases hnil : base = []
  · subst hnil
    rcases hpfx.1 with rfl | ⟨u, rfl⟩
    · exact Or.inl rfl
    · rw [join_nil_cons]
      exact hpfx.trim (by simp)
  · have htrim := hbase.trim hnil
    rcases hpfx.1 with rfl | ⟨u, rfl⟩
    · rw [join_nil, join_slash hnil]
      exact htrim
    · have hdense := (dense_join htrim u).2 ⟨hpfx.2.dense, fun heq => absurd heq hbase.ne_slash⟩
      exact trim_join htrim (hpfx.trim (by simp)) hdense

/-! ## Below the mounts -/

/-- The segments that normalising keeps. -/
def kept (t : Text) : List Text := parts '/' (normalizeBase t)

def Edge.kept (e : Edge) : List Text := Routing.kept e.baseUrl ++ Routing.kept e.pfx

/-- The segments that are meant by a mount. -/
def Edge.segs (e : Edge) : List Text := prefixSegs e.baseUrl ++ prefixSegs e.pfx

/-- The texts of the edge have no empty piece inside. -/
def Edge.Dense (e : Edge) : Prop := Pieces.Dense '/' e.baseUrl ∧ Pieces.Dense '/' e.pfx

/-- Where a mount adds no segment, none follow. -/
def Tight : List (List Text) → List Text → Prop
  | [], _ => True
  | segs :: rest, below => (segs = [] → rest.flatten ++ below = []) ∧ Tight rest below

instance Tight.decidable : (l : List (List Text)) → (below : List Text) → Decidable (Tight l below)
  | [], _ => .isTrue trivial
  | segs :: rest, below =>
      have := Tight.decidable rest below
      inferInstanceAs (Decidable ((segs = [] → rest.flatten ++ below = []) ∧ Tight rest below))

theorem trim_text {e : Edge} (h : e.Dense) : Trim e.text :=
  trim_join_base (normal_normalizeBase h.1) (normal_normalizeBase h.2)

theorem parts_text {e : Edge} (h : e.Dense) : parts '/' e.text = e.kept :=
  (join_base (normal_normalizeBase h.1) (parts_normalizeBase h.2).1.dense).2.2

/-- A path below mounts: its segments are those of the mounts and its own, and there is no
empty one when each mount adds a segment or nothing follows. -/
theorem pathUnder_spec {es : List Edge} (hes : ∀ e ∈ es, e.Dense) (u : Text) :
    (∃ v, pathUnder es ('/' :: u) = '/' :: v) ∧
      parts '/' (pathUnder es ('/' :: u)) = (es.map Edge.kept).flatten ++ parts '/' ('/' :: u) ∧
      (Dense '/' (pathUnder es ('/' :: u)) ↔
        Dense '/' ('/' :: u) ∧ Tight (es.map Edge.kept) (parts '/' ('/' :: u))) := by
  induction es with
  | nil => exact ⟨⟨u, rfl⟩, rfl, by simp [pathUnder, Tight]⟩
  | cons e es ih =>
      obtain ⟨⟨v, hv⟩, hparts, hdense⟩ := ih fun e' he' => hes e' (by simp [he'])
      have he := hes e (by simp)
      have htrim := trim_text he
      obtain ⟨w, hw⟩ := htrim.exists_cons
      have hcons : pathUnder (e :: es) ('/' :: u) = join e.text ('/' :: v) := by
        rw [← hv]
        rfl
      rw [hcons]
      refine ⟨exists_join_cons (Or.inr ⟨w, hw⟩) _, ?_, ?_⟩
      · rw [parts_join (by simp [hw]), parts_text he, ← hv, hparts]
        simp
      · rw [dense_join htrim, htrim.eq_slash_iff, parts_text he, ← hv, List.map_cons, Tight,
          ← hparts]
        constructor
        · rintro ⟨hbelow, hslash⟩
          obtain ⟨hown, htight⟩ := hdense.1 hbelow
          refine ⟨hown, fun hnone => ?_, htight⟩
          rw [hslash hnone]
          rfl
        · rintro ⟨hown, hnone, htight⟩
          have hbelow := hdense.2 ⟨hown, htight⟩
          refine ⟨hbelow, fun hkept => ?_⟩
          rw [hv] at hbelow hnone ⊢
          exact (eq_slash_iff hbelow).2 (hnone hkept)

theorem trim_pathUnder {es : List Edge} (hes : ∀ e ∈ es, e.Dense) {y : Text} (hy : Trim y)
    (hdense : Dense '/' (pathUnder es y)) : Trim (pathUnder es y) := by
  induction es with
  | nil => exact hy
  | cons e es ih =>
      obtain ⟨u, rfl⟩ := hy.exists_cons
      have hes' : ∀ e' ∈ es, e'.Dense := fun e' he' => hes e' (by simp [he'])
      obtain ⟨⟨v, hv⟩, -, -⟩ := pathUnder_spec hes' u
      have htrim := trim_text (hes e (by simp))
      rw [pathUnder, List.foldr_cons, ← pathUnder, hv] at hdense ⊢
      refine trim_join htrim ?_ hdense
      rw [← hv]
      refine ih hes' ?_
      rw [hv]
      exact ((dense_join htrim v).1 hdense).1

theorem scopeUnder_of_ne_nil {es : List Edge} {y : Text} (hy : y ≠ []) :
    scopeUnder es y = pathUnder es y := by
  induction es with
  | nil => rfl
  | cons e es ih =>
      have hne : pathUnder es y ≠ [] := by
        cases es with
        | nil => exact hy
        | cons e' es => exact join_ne_nil _ _
      rw [scopeUnder, List.foldr_cons, ← scopeUnder, ih, remap, if_neg hne]
      rfl

theorem text_ne_nil (e : Edge) : e.text ≠ [] := join_ne_nil _ _

/-- Without a base of its own an app has the prefix of its mount. -/
theorem scopeUnder_nil {es : List Edge} (hes : es ≠ []) :
    scopeUnder es [] = pathUnder es ['/'] := by
  induction es with
  | nil => exact absurd rfl hes
  | cons e es ih =>
      rw [scopeUnder, List.foldr_cons, ← scopeUnder, pathUnder, List.foldr_cons, ← pathUnder]
      cases es with
      | nil =>
          rw [scopeUnder, pathUnder]
          exact (join_slash (text_ne_nil e)).symm
      | cons e' es =>
          rw [ih (List.cons_ne_nil _ _), remap, if_neg]
          exact join_ne_nil _ _

end Routing
end OxideHttp
