import OxideHttp.Http
import OxideHttp.Lib.Pieces
import OxideHttp.Lib.Strip
import Mathlib.Data.List.Dedup

/-!
# The address of the client (`src/server.rs`: `client_ip_country`)

The configured headers are asked in order, each one for its first line; a list-valued
header may come in one line or in several, cut at its commas.

Results.
* `get_elements`: the first line of a header holds some of its elements, from the front.
* `settles_iff`: the address does not depend on how the headers are cut into lines exactly
  where the configured headers settle on one address.
* `lines_matter`: two lines instead of one, and another list of addresses.
-/

namespace OxideHttp
namespace ClientIp

open Strip

-- `str::to_lowercase`
variable (lowercase : String → String)

/-- `first_present` of `client_ip_country`. -/
def firstPresent (headers : List KvPair) (names : List String) : Option (List Char) :=
  names.findSome? fun name =>
    (headers.find? fun kv => kv.key == lowercase name).bind fun kv =>
      let v := trim kv.value.toList
      if v = [] then none else some v

/-- The parts of a value that are not empty. -/
def parts (val : List Char) : List String :=
  (((val.splitOn ',').map trim).filter (· ≠ [])).map String.ofList

/-- `client_ip_country`. -/
def clientIpCountry (headers : List KvPair) (ipHeaders countryHeaders : List String)
    (peerIp : String) : String × List String × Option String :=
  let (ip, ips) :=
    match firstPresent lowercase headers ipHeaders with
    | some val =>
        let parts := parts val
        (parts.head?.getD peerIp, if parts = [] then [peerIp] else parts)
    | none => (peerIp, [peerIp])
  let country := (firstPresent lowercase headers countryHeaders).map fun c =>
    String.ofList ((trim c).map Char.toUpper)
  (ip, ips, country)

/-! ## Elements -/

/-- Blanks around an element. -/
def isOws (b : UInt8) : Bool := b = 32 || b = 9

/-- The elements of one line. -/
def lineElements (v : Bytes) : List Bytes := (v.splitOn 44).map (strip isOws)

/-- The elements of a header, from all its lines. -/
def elements (h : HeaderMap) (name : String) : List Bytes :=
  (h.filter fun kv => kv.1 == name).flatMap fun kv => lineElements kv.2

/-- The same headers, cut into lines at other commas. -/
def Regrouped (h h' : HeaderMap) : Prop := ∀ name, elements h' name = elements h name

/-- One line is cut at a comma. -/
theorem regrouped_cut (front rest : HeaderMap) (name : String) (v w : Bytes) :
    Regrouped (front ++ (name, v ++ 44 :: w) :: rest)
      (front ++ (name, v) :: (name, w) :: rest) := by
  intro n
  by_cases hn : name = n
  · simp [elements, hn, lineElements, List.splitOn_append_cons_self]
  · simp [elements, hn]

def visible (e : Bytes) : Bool := e.all isVisibleAscii

def text (e : Bytes) : String := String.ofList (e.map fun b => Char.ofNat b.toNat)

/-- The elements in front of the first one that is not visible ASCII. -/
def front (es : List Bytes) : List Bytes := es.takeWhile visible

/-- Whatever line comes first, the address is `a` if it is heard. -/
inductive Names (peerIp : String) : List Bytes → String → Prop
  | first {e : Bytes} {rest : List Bytes} (he : e ≠ []) (hrest : ∀ r ∈ rest, r = []) :
      Names peerIp (e :: rest) (text e)
  | second {e : Bytes} {rest : List Bytes} (he : e ≠ []) (hrest : ∀ r ∈ rest, r = []) :
      Names peerIp ([] :: e :: rest) (text e)
  /-- blanks, and the address of the peer where it is the only other element -/
  | peer {rest : List Bytes}
      (hrest : (rest.filter (· ≠ [])).map text = [] ∨ (rest.filter (· ≠ [])).map text = [peerIp]) :
      Names peerIp ([] :: [] :: rest) peerIp

/-- The headers settle on the address `a`: each one that is asked has at most one element that
counts, and where it may also go unheard the others settle on the same address. -/
inductive Settles (h : HeaderMap) (peerIp : String) : List String → String → Prop
  /-- no header is left -/
  | peer : Settles h peerIp [] peerIp
  /-- it has no line, or the first one has nothing in it -/
  | skips {name : String} {names : List String} {a : String}
      (hfront : front (elements h name) = [] ∨ front (elements h name) = [[]])
      (hrest : Settles h peerIp names a) : Settles h peerIp (name :: names) a
  /-- it has one element, and blank ones behind it -/
  | answers {name : String} {names : List String} {e : Bytes} {rest : List Bytes}
      (hname : elements h name = e :: rest) (hvisible : visible e = true) (he : e ≠ [])
      (hrest : ∀ r ∈ rest, r = []) : Settles h peerIp (name :: names) (text e)
  /-- whether it is heard depends on its lines -/
  | either {name : String} {names : List String} {a : String}
      (hname : Names peerIp (front (elements h name)) a)
      (hrest : Settles h peerIp (names.filter (· ≠ name)) a) :
      Settles h peerIp (name :: names) a

/-! ## One line -/

/-- What is heard of a line with these elements; `[]` is no line. -/
def heard (es : List Bytes) : Option (List Bytes) :=
  if es.all visible = true ∧ es ≠ [] ∧ es ≠ [[]] then some (es.filter (· ≠ [])) else none

/-- The addresses of what is heard. -/
def addresses (peerIp : String) : Option (List Bytes) → List String
  | some (e :: es) => (e :: es).map text
  | some [] | none => [peerIp]

def chr (b : UInt8) : Char := Char.ofNat b.toNat

set_option maxRecDepth 2000 in
theorem isBlank_ofNat : ∀ n < 256, isVisibleAscii (UInt8.ofNat n) = true →
    isBlank (Char.ofNat n) = isOws (UInt8.ofNat n) := by
  decide

set_option maxRecDepth 2000 in
theorem comma_ofNat : ∀ n < 256, Char.ofNat n = ',' ↔ UInt8.ofNat n = 44 := by
  decide

theorem isBlank_chr {b : UInt8} (h : isVisibleAscii b = true) : isBlank (chr b) = isOws b := by
  have hblank := isBlank_ofNat b.toNat b.toNat_lt (by rw [UInt8.ofNat_toNat]; exact h)
  rwa [UInt8.ofNat_toNat] at hblank

theorem chr_comma (b : UInt8) : chr b = chr 44 ↔ b = 44 := by
  have hcomma := comma_ofNat b.toNat b.toNat_lt
  rwa [UInt8.ofNat_toNat] at hcomma

theorem visible_of_isOws {b : UInt8} (h : isOws b = true) : isVisibleAscii b = true := by
  rcases Bool.or_eq_true_iff.1 h with hb | hb
  · rw [of_decide_eq_true hb]
    rfl
  · rw [of_decide_eq_true hb]
    rfl

theorem visible_strip (piece : Bytes) :
    visible (strip isOws piece) = piece.all isVisibleAscii := by
  obtain ⟨a, b, hpiece, ha, hb⟩ := exists_pad isOws piece
  have hall : ∀ blanks : Bytes, (∀ x ∈ blanks, isOws x = true) →
      blanks.all isVisibleAscii = true := fun blanks h =>
    List.all_eq_true.2 fun x hx => visible_of_isOws (h x hx)
  conv_rhs => rw [hpiece]
  rw [List.all_append, List.all_append, hall a ha, hall b hb, Bool.true_and, Bool.and_true,
    visible]

theorem all_pieces (v : Bytes) :
    (v.splitOn 44).all (fun piece => piece.all isVisibleAscii) = v.all isVisibleAscii :=
  all_splitOn (by decide) v

/-- A line is visible ASCII when its elements are. -/
theorem all_visible (v : Bytes) : (lineElements v).all visible = v.all isVisibleAscii := by
  rw [lineElements, List.all_map, ← all_pieces]
  exact congrArg (List.all _) (funext visible_strip)

theorem lineElements_ne_nil (v : Bytes) : lineElements v ≠ [] := by
  rw [lineElements, ne_eq, List.map_eq_nil_iff]
  exact List.splitOn_ne_nil 44 v

/-- A line of blanks has one element. -/
theorem strip_eq_nil_iff_elements (v : Bytes) : strip isOws v = [] ↔ lineElements v = [[]] := by
  constructor
  · intro h
    have hno : (44 : UInt8) ∉ v := fun hmem => absurd (strip_eq_nil_iff.1 h 44 hmem) (by decide)
    have hpieces : v.splitOn 44 = [v] := List.splitOn_eq_singleton hno
    rw [lineElements, hpieces, List.map_singleton, h]
  · intro h
    obtain ⟨piece, hpiece, hnil⟩ := List.map_eq_singleton_iff.1 h
    have hv : [(44 : UInt8)].intercalate (v.splitOn 44) = v := List.intercalate_splitOn 44
    rw [hpiece] at hv
    have heq : piece = v := by simpa using hv
    rw [← heq]
    exact hnil

/-- The parts of a line are the texts of its elements. -/
theorem parts_eq {v : Bytes} (h : v.all isVisibleAscii = true) :
    (((strip isOws v).map chr).splitOn ',').map trim = (lineElements v).map (List.map chr) := by
  have hall : (strip isOws v).all isVisibleAscii = true :=
    List.all_eq_true.2 fun b hb => List.all_eq_true.1 h b (mem_of_mem_strip hb)
  rw [← all_pieces, List.all_eq_true] at hall
  rw [show ',' = chr 44 from rfl, splitOn_map fun b _ => chr_comma b, List.map_map, lineElements,
    ← map_strip_splitOn_strip (by decide), List.map_map]
  refine List.map_congr_left fun piece hpiece => ?_
  exact strip_map fun b hb => isBlank_chr (List.all_eq_true.1 (hall piece hpiece) b hb)

/-- What `client_ip_country` makes of a line. -/
theorem heard_line (v : Bytes) :
    (let val := trim ((toStr v).getD "").toList
      if val = [] then none else some val).map parts =
      (heard (lineElements v)).map (List.map text) := by
  by_cases hvisible : v.all isVisibleAscii = true
  · have htoStr : (toStr v).getD "" = String.ofList (v.map chr) := by
      rw [toStr, if_pos hvisible]
      rfl
    have htrim : trim (v.map chr) = (strip isOws v).map chr :=
      strip_map fun b hb => isBlank_chr (List.all_eq_true.1 hvisible b hb)
    rw [htoStr, String.toList_ofList, htrim, heard, all_visible]
    by_cases hnil : strip isOws v = []
    · simp [hnil, (strip_eq_nil_iff_elements v).1 hnil]
    · have hblank : lineElements v ≠ [[]] := fun h => hnil ((strip_eq_nil_iff_elements v).2 h)
      have hval : (strip isOws v).map chr ≠ [] := by simpa using hnil
      have hempty : ((fun part => decide (part ≠ [])) ∘ List.map chr) =
          fun e : Bytes => decide (e ≠ []) := by
        funext e
        simp
      simp only [if_neg hval, Option.map_some]
      rw [if_pos ⟨hvisible, lineElements_ne_nil v, hblank⟩, Option.map_some, parts, parts_eq hvisible, List.filter_map, List.map_map, hempty]
      rfl
  · have hnone : (toStr v).getD "" = "" := by rw [toStr, if_neg hvisible]; rfl
    rw [hnone, heard, all_visible]
    simp [hvisible, trim]

/-! ## First lines -/

/-- The elements of the first line of a header, none if it has no line. -/
def firstElements (h : HeaderMap) (name : String) : List Bytes :=
  (h.get name).elim [] lineElements

/-- What is heard of a header. -/
theorem heard_header (h : HeaderMap) (name : String) :
    (((collectHeaders h).find? fun kv => kv.key == name).bind fun kv =>
      let v := trim kv.value.toList
      if v = [] then none else some v).map parts =
      (heard (firstElements h name)).map (List.map text) := by
  rw [collectHeaders, List.find?_map, firstElements, HeaderMap.get]
  change ((Option.map _ (h.find? fun kv => kv.1 == name)).bind _).map parts = _
  cases h.find? fun kv => kv.1 == name with
  | none => simp [heard]
  | some kv => exact heard_line kv.2

/-- The addresses come from the first header that is heard. -/
theorem firstPresent_collectHeaders (h : HeaderMap) (names : List String) :
    (firstPresent lowercase (collectHeaders h) names).map parts =
      ((names.map lowercase).findSome? fun n => heard (firstElements h n)).map (List.map text) := by
  induction names with
  | nil => rfl
  | cons name names ih =>
      have hname := heard_header h (lowercase name)
      rw [firstPresent, List.findSome?_cons, List.map_cons, List.findSome?_cons]
      cases hheard : heard (firstElements h (lowercase name)) with
      | none =>
          rw [hheard, Option.map_none, Option.map_eq_none_iff] at hname
          rw [hname]
          exact ih
      | some es =>
          rw [hheard, Option.map_some, Option.map_eq_some_iff] at hname
          obtain ⟨val, hval, hparts⟩ := hname
          rw [hval, Option.map_some, Option.map_some, hparts]

/-- The address and the addresses are those of the first header that is heard. -/
theorem clientIpCountry_eq (h : HeaderMap) (ipHeaders countryHeaders : List String)
    (peerIp : String) :
    (clientIpCountry lowercase (collectHeaders h) ipHeaders countryHeaders peerIp).2.1 =
        addresses peerIp
          ((ipHeaders.map lowercase).findSome? fun n => heard (firstElements h n)) ∧
      (clientIpCountry lowercase (collectHeaders h) ipHeaders countryHeaders peerIp).2.1.head? =
        some (clientIpCountry lowercase (collectHeaders h) ipHeaders countryHeaders peerIp).1 := by
  have hfirst := firstPresent_collectHeaders lowercase h ipHeaders
  rw [clientIpCountry]
  cases hheard : (ipHeaders.map lowercase).findSome? fun n => heard (firstElements h n) with
  | none =>
      rw [hheard, Option.map_none, Option.map_eq_none_iff] at hfirst
      rw [hfirst]
      exact ⟨rfl, rfl⟩
  | some es =>
      rw [hheard, Option.map_some, Option.map_eq_some_iff] at hfirst
      obtain ⟨val, hval, hparts⟩ := hfirst
      rw [hval]
      cases es with
      | nil => simp [hparts, addresses]
      | cons e es => simp [hparts, addresses]

/-! ## Headers with given first lines -/

/-- `f` may be the elements of the first lines: the front of a header's elements, and at least
one where there are any. -/
structure Lines (P f : String → List Bytes) : Prop where
  front : ∀ n, f n <+: P n
  none : ∀ n, f n = [] → P n = []

theorem get_eq_head? (h : HeaderMap) (name : String) :
    h.get name = (h.filter fun kv => kv.1 == name).head?.map Prod.snd := by
  rw [HeaderMap.get, List.head?_filter]

/-- The first line holds some of the elements, from the front. -/
theorem get_elements (h : HeaderMap) : Lines (elements h) (firstElements h) where
  front n := by
    rw [firstElements, get_eq_head?, elements]
    cases h.filter fun kv => kv.1 == n with
    | nil => exact List.prefix_rfl
    | cons kv rest => exact List.prefix_append _ _
  none n := by
    rw [firstElements, get_eq_head?, elements]
    cases h.filter fun kv => kv.1 == n with
    | nil => exact fun _ => rfl
    | cons kv rest => exact fun hnil => absurd hnil (lineElements_ne_nil kv.2)

/-- A line with these elements. -/
def join (es : List Bytes) : Bytes := [44].intercalate es

theorem lineElements_join {es : List Bytes} (hne : es ≠ [])
    (hes : ∀ e ∈ es, 44 ∉ e ∧ strip isOws e = e) : lineElements (join es) = es := by
  rw [lineElements, join, List.splitOn_intercalate 44 (fun e he => (hes e he).1) hne]
  calc
    es.map (strip isOws) = es.map id := List.map_congr_left fun e he => (hes e he).2
    _ = es := List.map_id es

/-- Elements have neither commas nor blanks around them. -/
theorem elements_clean {h : HeaderMap} {name : String} {e : Bytes} (he : e ∈ elements h name) :
    44 ∉ e ∧ strip isOws e = e := by
  obtain ⟨kv, -, he⟩ := List.mem_flatMap.1 he
  obtain ⟨piece, hpiece, rfl⟩ := List.mem_map.1 he
  exact ⟨fun hmem => Pieces.not_mem_piece hpiece (mem_of_mem_strip hmem), strip_strip⟩

/-- The lines of one header: `es`, and what is left. -/
def cut (name : String) (es rest : List Bytes) : HeaderMap :=
  (name, join es) :: if rest = [] then [] else [(name, join rest)]

theorem filter_flatMap_keys {g : String → HeaderMap} (hg : ∀ k, ∀ kv ∈ g k, kv.1 = k)
    {keys : List String} (hkeys : keys.Nodup) (name : String) :
    (keys.flatMap g).filter (fun kv => kv.1 == name) = if name ∈ keys then g name else [] := by
  induction keys with
  | nil => rfl
  | cons k keys ih =>
      obtain ⟨hk, hkeys⟩ := List.nodup_cons.1 hkeys
      rw [List.flatMap_cons, List.filter_append, ih hkeys]
      by_cases hname : k = name
      · subst hname
        rw [if_neg hk, if_pos (List.mem_cons_self ..), List.append_nil, List.filter_eq_self]
        intro kv hkv
        simpa using hg k kv hkv
      · have hnone : (g k).filter (fun kv => kv.1 == name) = [] := by
          rw [List.filter_eq_nil_iff]
          intro kv hkv
          simpa [hg k kv hkv] using hname
        simp [hnone, Ne.symm hname]

theorem cut_names {name : String} {es rest : List Bytes} :
    ∀ kv ∈ cut name es rest, kv.1 = name := by
  intro kv hkv
  rw [cut, List.mem_cons] at hkv
  rcases hkv with rfl | hkv
  · rfl
  · split at hkv
    · cases hkv
    · rw [List.mem_singleton.1 hkv]

theorem elements_cut {name : String} {es rest : List Bytes} (hne : es ≠ [])
    (hclean : ∀ e ∈ es ++ rest, 44 ∉ e ∧ strip isOws e = e) :
    ((cut name es rest).flatMap fun kv => lineElements kv.2) = es ++ rest := by
  have hes := lineElements_join hne fun e he => hclean e (List.mem_append_left _ he)
  rw [cut, List.flatMap_cons, hes]
  split
  case isTrue hnil => rw [hnil]; rfl
  case isFalse hrest =>
    have hjoin := lineElements_join hrest fun e he => hclean e (List.mem_append_right _ he)
    rw [List.flatMap_singleton, hjoin]

/-- Any choice of first lines is the one of some headers with the same elements. -/
theorem exists_regrouped {h : HeaderMap} {f : String → List Bytes} (hf : Lines (elements h) f) :
    ∃ h', Regrouped h h' ∧ ∀ n, firstElements h' n = f n := by
  obtain ⟨g, hg⟩ : ∃ g : String → HeaderMap,
      g = fun n => cut n (f n) ((elements h n).drop (f n).length) := ⟨_, rfl⟩
  have hnames : ∀ k, ∀ kv ∈ g k, kv.1 = k := fun k kv hkv => cut_names kv (hg ▸ hkv)
  have hfilter := filter_flatMap_keys hnames (List.nodup_dedup (h.map Prod.fst))
  have hkeys : ∀ n, n ∉ (h.map Prod.fst).dedup → elements h n = [] := by
    intro n hn
    rw [elements, List.flatMap_eq_nil_iff]
    intro kv hkv
    have hmem := List.mem_filter.1 hkv
    refine absurd ?_ hn
    rw [List.mem_dedup]
    exact List.mem_map.2 ⟨kv, hmem.1, by simpa using hmem.2⟩
  have hsplit : ∀ n, f n ++ (elements h n).drop (f n).length = elements h n := fun n =>
    List.prefix_iff_eq_append.1 (hf.front n)
  have hne : ∀ n, n ∈ (h.map Prod.fst).dedup → f n ≠ [] := by
    intro n hn hnil
    have hnone := hf.none n hnil
    obtain ⟨kv, hkv, rfl⟩ := List.mem_map.1 (List.mem_dedup.1 hn)
    rw [elements, List.flatMap_eq_nil_iff] at hnone
    exact lineElements_ne_nil kv.2 (hnone kv (List.mem_filter.2 ⟨hkv, by simp⟩))
  refine ⟨(h.map Prod.fst).dedup.flatMap g, fun n => ?_, fun n => ?_⟩
  · rw [elements, hfilter]
    split
    case isTrue hn =>
      rw [hg]
      change (cut n (f n) _).flatMap _ = _
      rw [elements_cut (hne n hn), hsplit]
      rw [hsplit]
      exact fun e he => elements_clean he
    case isFalse hn => exact (hkeys n hn).symm
  · rw [firstElements, get_eq_head?, hfilter]
    split
    case isTrue hn =>
      rw [hg]
      have hclean : ∀ e ∈ f n, 44 ∉ e ∧ strip isOws e = e := fun e he =>
        elements_clean ((hf.front n).subset he)
      exact lineElements_join (hne n hn) hclean
    case isFalse hn =>
      have hnil := hf.front n
      rw [hkeys n hn, List.prefix_nil] at hnil
      exact hnil.symm

/-! ## Settled headers -/

/-- The addresses for a choice of first lines. -/
def result (peerIp : String) (f : String → List Bytes) (names : List String) : List String :=
  addresses peerIp (names.findSome? fun n => heard (f n))

section Settled

variable {h : HeaderMap} {peerIp a : String} {f : String → List Bytes} {name : String}
  {names : List String} {es V : List Bytes}

theorem heard_eq_some {parts : List Bytes} : heard es = some parts ↔
    es.all visible = true ∧ es ≠ [] ∧ es ≠ [[]] ∧ es.filter (· ≠ []) = parts := by
  rw [heard, Option.ite_none_right_eq_some, Option.some.injEq, and_assoc, and_assoc]

/-- A line that is heard ends before the first element that is not visible ASCII. -/
theorem isPrefix_front (hes : es <+: V) (hvisible : es.all visible = true) : es <+: front V := by
  obtain ⟨rest, rfl⟩ := hes
  rw [front, List.takeWhile_append_of_pos (List.all_eq_true.1 hvisible)]
  exact List.prefix_append _ _

/-- The front of blank elements is blank. -/
theorem filter_of_isPrefix {rest : List Bytes} (hes : es <+: rest) (hrest : ∀ r ∈ rest, r = []) :
    es.filter (· ≠ []) = [] := by
  rw [List.filter_eq_nil_iff]
  intro r hr
  simp [hrest r (hes.subset hr)]

theorem addresses_some (parts : List Bytes) :
    addresses peerIp (some parts) =
      if parts.map text = [] then [peerIp] else parts.map text := by
  cases parts <;> rfl

/-- One element that counts. -/
theorem addresses_cons {e : Bytes} (he : e ≠ []) {rest : List Bytes} (hes : es <+: rest)
    (hrest : ∀ r ∈ rest, r = []) :
    addresses peerIp (some ((e :: es).filter (· ≠ []))) = [text e] := by
  rw [List.filter_cons_of_pos (by simpa using he), filter_of_isPrefix hes hrest]
  rfl

theorem Names.one (hV : Names peerIp V a) (hes : es <+: V) {parts : List Bytes}
    (hheard : heard es = some parts) : addresses peerIp (some parts) = [a] := by
  obtain ⟨-, hne, hblank, rfl⟩ := heard_eq_some.1 hheard
  cases hV with
  | first he hrest =>
      rcases List.prefix_cons_iff.1 hes with hnil | ⟨es, rfl, hes'⟩
      · exact absurd hnil hne
      · exact addresses_cons he hes' hrest
  | second he hrest =>
      rcases List.prefix_cons_iff.1 hes with hnil | ⟨es, rfl, hes'⟩
      · exact absurd hnil hne
      rcases List.prefix_cons_iff.1 hes' with rfl | ⟨es, rfl, hes''⟩
      · exact absurd rfl hblank
      · exact addresses_cons he hes'' hrest
  | @peer rest hrest =>
      rcases List.prefix_cons_iff.1 hes with hnil | ⟨es, rfl, hes'⟩
      · exact absurd hnil hne
      rcases List.prefix_cons_iff.1 hes' with rfl | ⟨es, rfl, hes''⟩
      · exact absurd rfl hblank
      · have hpart : (es.filter (· ≠ [])).map text <+: (rest.filter (· ≠ [])).map text :=
          (hes''.filter _).map _
        rw [List.filter_cons_of_neg (by simp), List.filter_cons_of_neg (by simp), addresses_some]
        rcases hrest with hnil | hone
        · rw [hnil, List.prefix_nil] at hpart
          rw [if_pos hpart]
        · rw [hone, List.prefix_cons_iff] at hpart
          rcases hpart with hnil | ⟨ts, hts, hnil⟩
          · rw [if_pos hnil]
          · rw [List.prefix_nil.1 hnil] at hts
            rw [hts, if_neg (List.cons_ne_nil _ _)]

theorem result_cons_none (hnone : heard (f name) = none) :
    result peerIp f (name :: names) = result peerIp f names := by
  rw [result, List.findSome?_cons_of_isNone (by simp [hnone]), result]

theorem result_cons_some {parts : List Bytes} (hsome : heard (f name) = some parts) :
    result peerIp f (name :: names) = addresses peerIp (some parts) := by
  rw [result, List.findSome?_cons_of_isSome (by simp [hsome]), hsome]

/-- A header that is not heard may be left out. -/
theorem result_filter (hnone : heard (f name) = none) :
    result peerIp f (names.filter (· ≠ name)) = result peerIp f names := by
  induction names with
  | nil => rfl
  | cons n names ih =>
      by_cases hn : n = name
      · subst hn
        rw [List.filter_cons_of_neg (by simp), ih, result_cons_none hnone]
      · rw [List.filter_cons_of_pos (by simpa using hn)]
        cases hheard : heard (f n) with
        | none => rw [result_cons_none hheard, result_cons_none hheard, ih]
        | some parts => rw [result_cons_some hheard, result_cons_some hheard]

/-- Nothing is heard of a header without a first element that counts. -/
theorem heard_eq_none (hfront : front V = [] ∨ front V = [[]]) (hes : es <+: V) :
    heard es = none := by
  by_contra hsome
  obtain ⟨parts, hparts⟩ := Option.ne_none_iff_exists'.1 hsome
  obtain ⟨hvisible, hne, hblank, -⟩ := heard_eq_some.1 hparts
  have hpart := isPrefix_front hes hvisible
  rcases hfront with hnil | hnil
  · rw [hnil, List.prefix_nil] at hpart
    exact hne hpart
  · rw [hnil, List.prefix_cons_iff] at hpart
    rcases hpart with hnil | ⟨t, ht, hnil⟩
    · exact hne hnil
    · rw [List.prefix_nil.1 hnil] at ht
      exact hblank ht

/-- Settled headers give one address, whatever their first lines are. -/
theorem Settles.result_eq (hs : Settles h peerIp names a) (hf : Lines (elements h) f) :
    result peerIp f names = [a] := by
  induction hs with
  | peer => rfl
  | @skips name names a hfront _ ih =>
      rw [result_cons_none (heard_eq_none hfront (hf.front name))]
      exact ih
  | @answers name names e rest hname hvisible he hrest =>
      have hpart := hf.front name
      have hne : f name ≠ [] := fun hnil => by
        rw [hf.none name hnil] at hname
        cases hname
      rw [hname, List.prefix_cons_iff] at hpart
      rcases hpart with hnil | ⟨es, hes, hpart⟩
      · exact absurd hnil hne
      · have hall : es.all visible = true :=
          List.all_eq_true.2 fun r hr => by rw [hrest r (hpart.subset hr)]; rfl
        have hheard : heard (f name) = some ((e :: es).filter (· ≠ [])) := by
          rw [heard_eq_some, hes]
          exact ⟨by simp [hvisible, hall], List.cons_ne_nil _ _, by simp [he], rfl⟩
        rw [result_cons_some hheard]
        exact addresses_cons he hpart hrest
  | @either name names a hname _ ih =>
      cases hheard : heard (f name) with
      | none => rw [result_cons_none hheard, ← result_filter hheard, ih]
      | some parts =>
          rw [result_cons_some hheard]
          have hvisible := (heard_eq_some.1 hheard).1
          exact hname.one (isPrefix_front (hf.front name) hvisible) hheard

theorem Lines.update {P : String → List Bytes} (hf : Lines P f) (hes : es <+: P name)
    (hne : es ≠ []) : Lines P (Function.update f name es) where
  front n := by
    by_cases hn : n = name
    · subst hn
      rw [Function.update_self]
      exact hes
    · rw [Function.update_of_ne hn]
      exact hf.front n
  none n := by
    by_cases hn : n = name
    · subst hn
      rw [Function.update_self]
      exact fun h => absurd h hne
    · rw [Function.update_of_ne hn]
      exact hf.none n

theorem result_update_filter :
    result peerIp (Function.update f name es) (names.filter (· ≠ name)) =
      result peerIp f (names.filter (· ≠ name)) := by
  rw [result, result]
  congr 1
  induction names with
  | nil => rfl
  | cons n names ih =>
      by_cases hn : n = name
      · rw [List.filter_cons_of_neg (by simpa using hn)]
        exact ih
      · rw [List.filter_cons_of_pos (by simpa using hn), List.findSome?_cons, List.findSome?_cons,
          Function.update_of_ne hn, ih]

/-- The addresses do not depend on the first lines. -/
def Constant (h : HeaderMap) (peerIp : String) (names : List String) : Prop :=
  ∀ f f', Lines (elements h) f → Lines (elements h) f' →
    result peerIp f names = result peerIp f' names

/-- Where a header may go unheard, the others have to agree with it. -/
theorem Constant.rest (hconst : Constant h peerIp (name :: names)) (hes : es <+: elements h name)
    (hne : es ≠ []) (hnone : heard es = none) :
    Constant h peerIp (names.filter (· ≠ name)) ∧
      ∀ f, Lines (elements h) f →
        result peerIp f (name :: names) = result peerIp f (names.filter (· ≠ name)) := by
  have hskip : ∀ f, Lines (elements h) f →
      result peerIp (Function.update f name es) (name :: names) =
        result peerIp f (names.filter (· ≠ name)) := by
    intro f _
    have hheard : heard (Function.update f name es name) = none := by
      rw [Function.update_self]
      exact hnone
    rw [result_cons_none hheard, ← result_filter hheard, result_update_filter]
  constructor
  · intro f f' hf hf'
    rw [← hskip f hf, ← hskip f' hf']
    exact hconst _ _ (hf.update hes hne) (hf'.update hes hne)
  · intro f hf
    rw [← hskip f hf]
    exact hconst _ _ hf (hf.update hes hne)

/-- What is heard of a first line is what is heard of all of them. -/
theorem Constant.addresses (hconst : Constant h peerIp (name :: names))
    (hf : Lines (elements h) f) (hes : es <+: elements h name) (hvisible : es.all visible = true)
    (hne : es ≠ []) (hblank : es ≠ [[]]) :
    result peerIp f (name :: names) =
      ClientIp.addresses peerIp (some (es.filter (· ≠ []))) := by
  rw [hconst f _ hf (hf.update hes hne)]
  refine result_cons_some ?_
  rw [Function.update_self, heard_eq_some]
  exact ⟨hvisible, hne, hblank, rfl⟩

/-- Nothing counts behind an element that is heard alone. -/
theorem blank_of_addresses {e : Bytes} {rest : List Bytes} (he : e ≠ [])
    (h : ClientIp.addresses peerIp (some ((e :: rest).filter (· ≠ []))) = [text e]) :
    ∀ r ∈ rest, r = [] := by
  rw [List.filter_cons_of_pos (by simpa using he)] at h
  have hnil : (rest.filter (· ≠ [])).map text = [] := (List.cons.inj h).2
  rw [List.map_eq_nil_iff, List.filter_eq_nil_iff] at hnil
  intro r hr
  simpa using hnil r hr

/-- The first header settles the address, or it lets the others do so. -/
theorem Constant.settles_cons (hconst : Constant h peerIp (name :: names))
    (hskip : Constant h peerIp names → ∃ a, Settles h peerIp names a)
    (hleave : Constant h peerIp (names.filter (· ≠ name)) →
      ∃ a, Settles h peerIp (names.filter (· ≠ name)) a) :
    ∃ a, Settles h peerIp (name :: names) a := by
  have hf := get_elements h
  have hpart : front (elements h name) <+: elements h name := List.takeWhile_prefix _
  have hvisible : ∀ es, es <+: front (elements h name) → es.all visible = true :=
    fun es hes => List.all_eq_true.2 fun e he => List.mem_takeWhile_imp (hes.subset he)
  have hsilent : front (elements h name) = [] ∨ front (elements h name) = [[]] →
      ∃ a, Settles h peerIp (name :: names) a := by
    intro hfront
    have hnone : ∀ f, Lines (elements h) f →
        result peerIp f (name :: names) = result peerIp f names := fun f hf =>
      result_cons_none (heard_eq_none hfront (hf.front name))
    obtain ⟨a, ha⟩ := hskip fun f f' hf hf' => by
      rw [← hnone f hf, ← hnone f' hf']
      exact hconst f f' hf hf'
    exact ⟨a, .skips hfront ha⟩
  have hempty : ([] : List Bytes) <+: [] := List.prefix_rfl
  -- a first line that is not heard leaves the address to the others
  have hleaves : ∀ es, es <+: elements h name → es ≠ [] → heard es = none →
      ∃ a, Settles h peerIp (names.filter (· ≠ name)) a ∧
        result peerIp (firstElements h) (name :: names) = [a] := by
    intro es hes hne hnone
    obtain ⟨hrest, hsame⟩ := hconst.rest hes hne hnone
    obtain ⟨a, ha⟩ := hleave hrest
    exact ⟨a, ha, (hsame _ hf).trans (ha.result_eq hf)⟩
  cases hV : front (elements h name) with
  | nil => exact hsilent (Or.inl hV)
  | cons e rest =>
      rw [hV] at hpart hvisible
      by_cases he : e = []
      · subst he
        cases rest with
        | nil => exact hsilent (Or.inr hV)
        | cons q rest =>
            obtain ⟨a, ha, hres⟩ := hleaves [[]] ((List.prefix_append [[]] (q :: rest)).trans hpart)
              (by simp) (by simp [heard])
            have htwo := hconst.addresses hf
              ((List.prefix_append [[], q] rest).trans hpart)
              (hvisible _ (List.prefix_append [[], q] rest)) (by simp) (by simp)
            have hwhole := hconst.addresses hf hpart (hvisible _ List.prefix_rfl) (by simp)
              (by simp)
            rw [hres, List.filter_cons_of_neg (by simp)] at htwo hwhole
            by_cases hq : q = []
            · subst hq
              obtain rfl : a = peerIp := (List.cons.inj htwo).1
              refine ⟨a, .either ?_ ha⟩
              rw [hV]
              rw [List.filter_cons_of_neg (by simp), addresses_some] at hwhole
              split at hwhole
              case isTrue hnil => exact .peer (Or.inl hnil)
              case isFalse => exact .peer (Or.inr hwhole.symm)
            · rw [addresses_cons hq hempty nofun] at htwo
              obtain rfl : a = text q := (List.cons.inj htwo).1
              refine ⟨_, .either ?_ ha⟩
              rw [hV]
              exact .second hq (blank_of_addresses hq hwhole.symm)
      · have hone := hconst.addresses hf ((List.prefix_append [e] rest).trans hpart)
          (hvisible [e] (List.prefix_append [e] rest)) (by simp) (by simpa using he)
        have hwhole := hconst.addresses hf hpart (hvisible _ List.prefix_rfl) (by simp)
          (by simp [he])
        rw [addresses_cons he hempty nofun] at hone
        have hblank := blank_of_addresses he (hwhole.symm.trans hone)
        by_cases hsame : elements h name = e :: rest
        · have hall := hvisible [e] (List.prefix_append [e] rest)
          exact ⟨_, .answers hsame (by simpa using hall) he hblank⟩
        · -- behind the front there is an element that silences the line
          have hnone : heard (elements h name) = none := by
            by_contra hsome
            obtain ⟨parts, hparts⟩ := Option.ne_none_iff_exists'.1 hsome
            have hall := List.all_eq_true.1 (heard_eq_some.1 hparts).1
            refine hsame ?_
            rw [← hV, front]
            exact (List.takeWhile_eq_self_iff.2 hall).symm
          have hne : elements h name ≠ [] := fun hnil => by
            rw [hnil, List.prefix_nil] at hpart
            cases hpart
          obtain ⟨a, ha, hres⟩ := hleaves _ List.prefix_rfl hne hnone
          obtain rfl : a = text e := (List.cons.inj (hres.symm.trans hone)).1
          refine ⟨_, .either ?_ ha⟩
          rw [hV]
          exact .first he hblank

theorem exists_settles {n : Nat} (hlength : names.length ≤ n)
    (hconst : Constant h peerIp names) : ∃ a, Settles h peerIp names a := by
  induction n generalizing names with
  | zero =>
      obtain rfl := List.eq_nil_of_length_eq_zero (Nat.le_zero.1 hlength)
      exact ⟨peerIp, .peer⟩
  | succ n ih =>
      cases names with
      | nil => exact ⟨peerIp, .peer⟩
      | cons name names =>
          have hle : names.length ≤ n := Nat.le_of_succ_le_succ hlength
          exact hconst.settles_cons (ih hle) (ih (le_trans (List.length_filter_le _ _) hle))

end Settled

/-! ## The address -/

/-- The configured headers have nothing but blanks. -/
theorem result_blank {h : HeaderMap} {f : String → List Bytes} (hf : Lines (elements h) f)
    {peerIp : String} {names : List String}
    (hblank : ∀ name ∈ names, ∀ e ∈ elements h name, e = []) :
    result peerIp f names = [peerIp] := by
  induction names with
  | nil => rfl
  | cons name names ih =>
      cases hheard : heard (f name) with
      | none =>
          rw [result_cons_none hheard]
          exact ih fun n hn => hblank n (List.mem_cons_of_mem _ hn)
      | some parts =>
          have hnil := filter_of_isPrefix (hf.front name) (hblank name (List.mem_cons_self ..))
          rw [(heard_eq_some.1 hheard).2.2.2] at hnil
          rw [result_cons_some hheard, hnil]
          rfl

/-- The lines do not matter to the addresses, exactly where the configured headers settle on
one; the address is always the first of them, and that of the peer without an element. -/
theorem settles_iff (h : HeaderMap) (ipHeaders countryHeaders : List String) (peerIp : String) :
    let client := fun h =>
      clientIpCountry lowercase (collectHeaders h) ipHeaders countryHeaders peerIp
    ((∀ h', Regrouped h h' → (client h').1 = (client h).1 ∧ (client h').2.1 = (client h).2.1) ∧
        (client h).2.1 ≠ [] ∧ (client h).2.1.head? = some (client h).1 ∧
        ((∀ name ∈ ipHeaders, ∀ e ∈ elements h (lowercase name), e = []) →
          (client h).1 = peerIp)) ↔
      ∃ a, Settles h peerIp (ipHeaders.map lowercase) a := by
  intro client
  have hips : ∀ h, (client h).2.1 =
      result peerIp (firstElements h) (ipHeaders.map lowercase) := fun h =>
    (clientIpCountry_eq lowercase h ipHeaders countryHeaders peerIp).1
  have hip : ∀ h, (client h).2.1.head? = some (client h).1 := fun h =>
    (clientIpCountry_eq lowercase h ipHeaders countryHeaders peerIp).2
  constructor
  · rintro ⟨hsame, -, -, -⟩
    refine exists_settles le_rfl fun f f' hf hf' => ?_
    obtain ⟨g, hg, hfirst⟩ := exists_regrouped hf
    obtain ⟨g', hg', hfirst'⟩ := exists_regrouped hf'
    rw [← funext hfirst, ← funext hfirst', ← hips, ← hips, (hsame g hg).2, (hsame g' hg').2]
  · rintro ⟨a, ha⟩
    have hone : ∀ h', Regrouped h h' → (client h').2.1 = [a] := by
      intro h' hsame
      have hlines := get_elements h'
      rw [funext hsame] at hlines
      rw [hips, ha.result_eq hlines]
    have haddress : ∀ h', Regrouped h h' → (client h').1 = a := by
      intro h' hsame
      have hhead := hip h'
      rw [hone h' hsame] at hhead
      exact (Option.some.inj hhead).symm
    have hself : Regrouped h h := fun _ => rfl
    refine ⟨fun h' hsame => ⟨?_, ?_⟩, ?_, hip h, fun hblank => ?_⟩
    · rw [haddress h' hsame, haddress h hself]
    · rw [hone h' hsame, hone h hself]
    · rw [hone h hself]
      exact List.cons_ne_nil _ _
    · have hnames : ∀ name ∈ ipHeaders.map lowercase, ∀ e ∈ elements h name, e = [] := by
        simpa using hblank
      have hpeer : (client h).2.1 = [peerIp] :=
        (hips h).trans (result_blank (get_elements h) hnames)
      rw [hone h hself] at hpeer
      rw [haddress h hself]
      exact (List.cons.inj hpeer).1

def ascii (s : String) : Bytes := s.toList.map fun c => UInt8.ofNat c.toNat

/-- One line of two addresses, and the same in two lines. -/
theorem lines_matter :
    Regrouped [("x-forwarded-for", ascii "1.1.1.1,2.2.2.2")]
        [("x-forwarded-for", ascii "1.1.1.1"), ("x-forwarded-for", ascii "2.2.2.2")] ∧
      (clientIpCountry id (collectHeaders [("x-forwarded-for", ascii "1.1.1.1,2.2.2.2")])
        ["x-forwarded-for"] [] "10.0.0.1").2.1 = ["1.1.1.1", "2.2.2.2"] ∧
      (clientIpCountry id (collectHeaders
          [("x-forwarded-for", ascii "1.1.1.1"), ("x-forwarded-for", ascii "2.2.2.2")])
        ["x-forwarded-for"] [] "10.0.0.1").2.1 = ["1.1.1.1"] :=
  ⟨regrouped_cut [] [] "x-forwarded-for" (ascii "1.1.1.1") (ascii "2.2.2.2"), by decide,
    by decide⟩

end ClientIp
end OxideHttp
