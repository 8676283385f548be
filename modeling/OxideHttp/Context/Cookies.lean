import Mathlib.Data.List.Nodup
import OxideHttp.Http
import OxideHttp.Lib.PercentCoding
import OxideHttp.Lib.Strip
import OxideHttp.Routing

/-!
# Cookies (`js/context.ts`: `parseCookies`, `serializeCookie`)

What `Set-Cookie` is given for a cookie, and what comes back of it in the `Cookie` lines of a
request, which `buildReqHeaders` joins.

Results.
* `serializeCookie_pair`: the part before the first semicolon is the name and the coded value.
* `entries_joinLines`: cutting the joined lines finds the cookies line by line.
* `cookies_round_trip`: every cookie is read back, however the cookies are spread over lines,
  and a malformed one stays by itself.
-/

namespace OxideHttp
namespace Cookies

open Routing (Text)
open Strip (jsTrim isWhiteSpace)

/-! ## Coding -/

/-- The characters that `encodeURIComponent` keeps. -/
def unreserved (c : Char) : Bool := c.isAlphanum || c ∈ "-_.!~*'()".toList

def encodeURIComponent (s : Text) : Text := PercentCoding.encode unreserved s

/-- `none` where it throws. -/
def decodeURIComponent (s : Text) : Option Text := PercentCoding.decode s

theorem decode_encodeURIComponent (s : Text) :
    decodeURIComponent (encodeURIComponent s) = some s :=
  PercentCoding.decode_encode (by decide) s

/-- A character that neither ends a cookie nor is trimmed. -/
def Plain (c : Char) : Prop := c ≠ ';' ∧ isWhiteSpace c = false

instance (c : Char) : Decidable (Plain c) := inferInstanceAs (Decidable (_ ∧ _))

theorem plain_of_isAlphanum {c : Char} (h : c.isAlphanum = true) : Plain c := by
  have hcodes := isAlphanum_codes h
  refine ⟨?_, ?_⟩
  · rintro rfl
    revert hcodes
    decide
  · simp only [isWhiteSpace, Bool.or_eq_false_iff, Bool.and_eq_false_iff, decide_eq_false_iff_not,
      beq_eq_false_iff_ne]
    omega

theorem plain_of_unreserved {c : Char} (h : unreserved c = true) : Plain c := by
  rcases Bool.or_eq_true_iff.1 h with h | h
  · exact plain_of_isAlphanum h
  · have hall : "-_.!~*'()".toList.all (fun c => Plain c) = true := by decide
    exact of_decide_eq_true (List.all_eq_true.1 hall c (of_decide_eq_true h))

theorem plain_encodeURIComponent (s : Text) : ∀ c ∈ encodeURIComponent s, Plain c := by
  have hdigit : ∀ n : Fin 16, Plain (PercentCoding.hexDigit n) := by decide
  exact PercentCoding.forall_mem_encode (by decide) (fun n hn => hdigit ⟨n, hn⟩)
    (fun _ => plain_of_unreserved) s

theorem jsTrim_of_plain {s : Text} (h : ∀ c ∈ s, Plain c) : jsTrim s = s :=
  Strip.strip_eq_self (fun _ hc => (h _ (List.mem_of_mem_head? hc)).2)
    (fun _ hc => (h _ (List.mem_of_getLast? hc)).2)

/-! ## Serializing -/

/-- `CookieOptions`; numbers and dates are only printed. -/
structure CookieOptions (ν δ : Type) where
  maxAge : Option ν := none
  domain : Option Text := none
  path : Option Text := none
  expires : Option δ := none
  httpOnly : Bool := false
  secure : Bool := false
  /-- one of six words in ASCII -/
  sameSite : Option Text := none

section Serialize

variable {ν δ : Type} (floorText : ν → Text) (toUTCString : δ → Text)

/-- What `serializeCookie` adds for the options. -/
def cookieAttributes (opts : CookieOptions ν δ) : Text :=
  (match opts.maxAge with
    | none => []
    | some n => "; Max-Age=".toList ++ floorText n) ++
  ((match opts.domain with
    | none | some [] => []
    | some domain => "; Domain=".toList ++ domain) ++
  ("; Path=".toList ++ opts.path.getD ['/'] ++
    (match opts.expires with
      | none => []
      | some date => "; Expires=".toList ++ toUTCString date) ++
    (if opts.httpOnly then "; HttpOnly".toList else []) ++
    (if opts.secure then "; Secure".toList else []) ++
    (match opts.sameSite with
      | none | some [] => []
      | some (c :: v) => "; SameSite=".toList ++ c.toUpper :: lower v)))

/-- `serializeCookie`. -/
def serializeCookie (name value : Text) (opts : CookieOptions ν δ) : Text :=
  name ++ '=' :: encodeURIComponent value ++ cookieAttributes floorText toUTCString opts

theorem cookieAttributes_cons (opts : CookieOptions ν δ) :
    ∃ more, cookieAttributes floorText toUTCString opts = ';' :: more := by
  rcases opts with ⟨_ | n, _ | _ | ⟨c, domain⟩, path, expires, httpOnly, secure, sameSite⟩
  all_goals exact ⟨_, rfl⟩

/-- The part before the first semicolon. -/
def pairText (s : Text) : Text := s.takeWhile (· ≠ ';')

theorem serializeCookie_pair {name : Text} (hname : ';' ∉ name) (value : Text)
    (opts : CookieOptions ν δ) :
    pairText (serializeCookie floorText toUTCString name value opts) =
      name ++ '=' :: encodeURIComponent value := by
  obtain ⟨more, hmore⟩ := cookieAttributes_cons floorText toUTCString opts
  rw [serializeCookie, hmore, pairText, List.takeWhile_append_of_pos,
    List.takeWhile_cons_of_neg (by simp), List.append_nil]
  intro c hc
  rcases List.mem_append.1 hc with hc | hc
  · exact decide_eq_true fun heq => hname (heq ▸ hc)
  · rcases List.mem_cons.1 hc with rfl | hc
    · decide
    · exact decide_eq_true (plain_encodeURIComponent value c hc).1

end Serialize

/-! ## Parsing -/

/-- The name and the value in one part of the header. -/
def cookieOf (part : Text) : Option (Text × Text) :=
  if '=' ∈ part then
    let k := jsTrim (part.takeWhile (· ≠ '='))
    let v := jsTrim ((part.dropWhile (· ≠ '=')).drop 1)
    if k = [] then none else some (k, (decodeURIComponent v).getD v)
  else none

def assign (out : Text → Option Text) (e : Text × Text) : Text → Option Text :=
  Function.update out e.1 (some e.2)

/-- `parseCookies`. -/
def parseCookies (cookieHeader : Option Text) : Text → Option Text :=
  match cookieHeader with
  | none | some [] => fun _ => none
  | some header =>
      (header.splitOn ';').foldl
        (fun out part =>
          match cookieOf part with
          | some e => assign out e
          | none => out)
        fun _ => none

/-- The names and values in a header, in order. -/
def entries (header : Text) : List (Text × Text) := (header.splitOn ';').filterMap cookieOf

theorem parseCookies_eq (cookieHeader : Option Text) :
    parseCookies cookieHeader = (cookieHeader.elim [] entries).foldl assign fun _ => none := by
  rcases cookieHeader with _ | _ | ⟨c, header⟩
  · rfl
  · rfl
  · rw [Option.elim_some, entries, List.foldl_filterMap, parseCookies]
    · congr
      funext out part
      cases cookieOf part <;> rfl
    · simp

theorem entries_append (a b : Text) : entries (a ++ ';' :: b) = entries a ++ entries b := by
  rw [entries, List.splitOn_append_cons_self, List.filterMap_append]
  rfl

/-- A blank before a part does not matter. -/
theorem cookieOf_blank (part : Text) : cookieOf (' ' :: part) = cookieOf part := by
  have hname : jsTrim ((' ' :: part).takeWhile (· ≠ '=')) = jsTrim (part.takeWhile (· ≠ '=')) := by
    rw [List.takeWhile_cons_of_pos (by decide)]
    exact Strip.strip_cons (by decide)
  have hvalue : (' ' :: part).dropWhile (· ≠ '=') = part.dropWhile (· ≠ '=') :=
    List.dropWhile_cons_of_pos (by decide)
  have hmem : '=' ∈ ' ' :: part ↔ '=' ∈ part := by simp
  simp only [cookieOf, hname, hvalue, hmem]

theorem entries_blank (text : Text) : entries (' ' :: text) = entries text := by
  rw [entries, entries, List.splitOn_cons_eq_if_modifyHead, if_neg (by decide)]
  cases hsplit : text.splitOn ';' with
  | nil => rfl
  | cons part parts =>
      rw [List.modifyHead_cons, List.filterMap_cons, List.filterMap_cons, cookieOf_blank]

theorem entries_sep (a b : Text) :
    entries (a ++ "; ".toList ++ b) = entries a ++ entries b := by
  rw [List.append_assoc]
  exact (entries_append a (' ' :: b)).trans (by rw [entries_blank])

theorem entries_intercalate {line : List Text} (hline : ∀ part ∈ line, ';' ∉ part) :
    entries ("; ".toList.intercalate line) = line.filterMap cookieOf := by
  induction line with
  | nil => rfl
  | cons part line ih =>
      have hpart : entries part = [part].filterMap cookieOf := by
        rw [entries, List.splitOn_eq_singleton (hline part (List.mem_cons_self ..))]
      cases line with
      | nil => rw [List.intercalate_singleton, hpart]
      | cons part' line =>
          rw [List.intercalate_cons_cons, entries_sep, hpart,
            ih fun p hp => hline p (List.mem_cons_of_mem _ hp), ← List.filterMap_append]
          rfl

/-- Cutting the joined lines finds the cookies line by line. -/
theorem entries_joinLines {lines : List (List Text)}
    (hlines : ∀ line ∈ lines, ∀ part ∈ line, ';' ∉ part) :
    ((joinLines "; " (lines.map fun line => String.ofList ("; ".toList.intercalate line))).map
      String.toList).elim [] entries = lines.flatten.filterMap cookieOf := by
  induction lines using List.reverseRecOn with
  | nil => rfl
  | append_singleton lines line ih =>
      have hearlier := ih fun l hl => hlines l (List.mem_append_left _ hl)
      have hline := entries_intercalate (hlines line (by simp))
      rw [List.map_append, List.map_singleton, joinLines_concat, List.flatten_concat,
        List.filterMap_append, ← hearlier, ← hline]
      cases joinLines "; " (lines.map fun line => String.ofList ("; ".toList.intercalate line)) with
      | none => simp
      | some prev => simpa using entries_sep prev.toList ("; ".toList.intercalate line)

/-- What has been assigned, where the names differ. -/
theorem foldl_assign_eq_some {es : List (Text × Text)} (hkeys : (es.map Prod.fst).Nodup)
    {k v : Text} : es.foldl assign (fun _ => none) k = some v ↔ (k, v) ∈ es := by
  induction es using List.reverseRecOn with
  | nil => simp
  | append_singleton es e ih =>
      rw [List.map_append, List.map_singleton, List.nodup_append_comm,
        List.singleton_append, List.nodup_cons] at hkeys
      rw [List.foldl_concat, assign, List.mem_append, List.mem_singleton]
      by_cases hk : k = e.1
      · subst hk
        have hnot : (e.1, v) ∉ es := fun hmem =>
          hkeys.1 (List.mem_map.2 ⟨_, hmem, rfl⟩)
        rw [Function.update_self, Option.some_inj, or_iff_right hnot, Prod.ext_iff]
        simp [eq_comm]
      · rw [Function.update_of_ne hk, ih hkeys.2, or_iff_left]
        exact fun heq => hk (congrArg Prod.fst heq)

/-! ## Round trip -/

/-- A name that can be given to a cookie. -/
structure CookieName where
  text : Text
  nonempty : text ≠ []
  no_equals : '=' ∉ text
  no_semicolon : ';' ∉ text
  trimmed : jsTrim text = text

theorem cookieOf_pair (name : CookieName) (raw : Text) :
    cookieOf (name.text ++ '=' :: raw) =
      some (name.text, (decodeURIComponent (jsTrim raw)).getD (jsTrim raw)) := by
  have hpos : ∀ c ∈ name.text, decide (c ≠ '=') = true := fun c hc =>
    decide_eq_true fun heq => name.no_equals (heq ▸ hc)
  have hname : (name.text ++ '=' :: raw).takeWhile (· ≠ '=') = name.text := by
    rw [List.takeWhile_append_of_pos hpos, List.takeWhile_cons_of_neg (by simp),
      List.append_nil]
  have hvalue : (name.text ++ '=' :: raw).dropWhile (· ≠ '=') = '=' :: raw := by
    rw [List.dropWhile_append_of_pos hpos, List.dropWhile_cons_of_neg (by simp)]
  have hmem : '=' ∈ name.text ++ '=' :: raw := by simp
  simp only [cookieOf, if_pos hmem, hname, hvalue, name.trimmed, if_neg name.nonempty,
    List.drop_one, List.tail_cons]

structure Cookie (ν δ : Type) where
  name : CookieName
  value : Text
  opts : CookieOptions ν δ

/-- A cookie of a client whose value cannot be decoded. -/
structure Malformed where
  name : CookieName
  raw : Text
  no_semicolon : ';' ∉ raw
  malformed : decodeURIComponent (jsTrim raw) = none

variable {ν δ : Type} (floorText : ν → Text) (toUTCString : δ → Text)

/-- What a client keeps of a `Set-Cookie` and sends back. -/
def Cookie.pair (c : Cookie ν δ) : Text :=
  pairText (serializeCookie floorText toUTCString c.name.text c.value c.opts)

def Malformed.pair (m : Malformed) : Text := m.name.text ++ '=' :: m.raw

theorem Cookie.pair_eq (c : Cookie ν δ) :
    c.pair floorText toUTCString = c.name.text ++ '=' :: encodeURIComponent c.value :=
  serializeCookie_pair floorText toUTCString c.name.no_semicolon c.value c.opts

theorem semicolon_not_mem_pair (name : CookieName) {raw : Text} (hraw : ';' ∉ raw) :
    ';' ∉ name.text ++ '=' :: raw := by
  rw [List.mem_append, List.mem_cons, not_or, not_or]
  exact ⟨name.no_semicolon, by decide, hraw⟩

theorem Cookie.cookieOf_pair (c : Cookie ν δ) :
    cookieOf (c.pair floorText toUTCString) = some (c.name.text, c.value) := by
  rw [c.pair_eq, Cookies.cookieOf_pair, jsTrim_of_plain (plain_encodeURIComponent c.value),
    decode_encodeURIComponent, Option.getD_some]

theorem Malformed.cookieOf_pair (m : Malformed) :
    cookieOf m.pair = some (m.name.text, jsTrim m.raw) := by
  rw [Malformed.pair, Cookies.cookieOf_pair, m.malformed, Option.getD_none]

theorem semicolon_not_mem_spread {cookies : List (Cookie ν δ)} {malformed : List Malformed}
    {part : Text} (h : part ∈ cookies.map (Cookie.pair floorText toUTCString) ++
      malformed.map Malformed.pair) : ';' ∉ part := by
  rcases List.mem_append.1 h with h | h
  · obtain ⟨c, -, rfl⟩ := List.mem_map.1 h
    rw [c.pair_eq]
    exact semicolon_not_mem_pair c.name fun hmem =>
      (plain_encodeURIComponent c.value ';' hmem).1 rfl
  · obtain ⟨m, -, rfl⟩ := List.mem_map.1 h
    exact semicolon_not_mem_pair m.name m.no_semicolon

theorem filterMap_cookieOf (cookies : List (Cookie ν δ)) (malformed : List Malformed) :
    (cookies.map (Cookie.pair floorText toUTCString) ++
        malformed.map Malformed.pair).filterMap cookieOf =
      cookies.map (fun c => (c.name.text, c.value)) ++
        malformed.map fun m => (m.name.text, jsTrim m.raw) := by
  have hcookies : cookieOf ∘ Cookie.pair floorText toUTCString =
      fun c : Cookie ν δ => some (c.name.text, c.value) :=
    funext fun c => c.cookieOf_pair floorText toUTCString
  have hmalformed : cookieOf ∘ Malformed.pair =
      fun m : Malformed => some (m.name.text, jsTrim m.raw) :=
    funext Malformed.cookieOf_pair
  rw [List.filterMap_append, List.filterMap_map, List.filterMap_map, hcookies, hmalformed,
    List.filterMap_eq_map', List.filterMap_eq_map']

/-- Every cookie is read back, however the cookies are spread over lines, and no other name is
there; a malformed cookie keeps what was sent and leaves the others alone. -/
theorem cookies_round_trip (cookies : List (Cookie ν δ)) (malformed : List Malformed)
    (hnames : (cookies.map (·.name.text) ++ malformed.map (·.name.text)).Nodup)
    (lines : List (List Text))
    (hspread : lines.flatten.Perm
      (cookies.map (Cookie.pair floorText toUTCString) ++ malformed.map Malformed.pair))
    (pairs : List KvPair)
    (hlines : headerLines pairs "cookie" =
      lines.map fun line => String.ofList ("; ".toList.intercalate line)) :
    let out := parseCookies ((buildReqHeaders pairs "cookie").map String.toList)
    (∀ c ∈ cookies, out c.name.text = some c.value) ∧
    (∀ m ∈ malformed, out m.name.text = some (jsTrim m.raw)) ∧
    ∀ name, out name ≠ none →
      name ∈ cookies.map (·.name.text) ++ malformed.map (·.name.text) := by
  have hsemicolon : ∀ line ∈ lines, ∀ part ∈ line, ';' ∉ part := fun line hline part hpart =>
    semicolon_not_mem_spread floorText toUTCString
      (hspread.mem_iff.1 (List.mem_flatten.2 ⟨line, hline, hpart⟩))
  have hentries := hspread.filterMap cookieOf
  rw [filterMap_cookieOf] at hentries
  have hkeys : ((lines.flatten.filterMap cookieOf).map Prod.fst).Nodup := by
    refine (hentries.map Prod.fst).nodup_iff.2 ?_
    simpa [Function.comp_def] using hnames
  have hout : ∀ k v, parseCookies ((buildReqHeaders pairs "cookie").map String.toList) k =
      some v ↔ (k, v) ∈ cookies.map (fun c => (c.name.text, c.value)) ++
        malformed.map fun m => (m.name.text, jsTrim m.raw) := by
    intro k v
    rw [parseCookies_eq, buildReqHeaders_eq, if_pos rfl, hlines, entries_joinLines hsemicolon,
      foldl_assign_eq_some hkeys, hentries.mem_iff]
  refine ⟨fun c hc => ?_, fun m hm => ?_, fun name hname => ?_⟩
  · exact (hout _ _).2 (List.mem_append_left _ (List.mem_map_of_mem hc))
  · exact (hout _ _).2 (List.mem_append_right _ (List.mem_map_of_mem hm))
  · obtain ⟨v, hv⟩ := Option.ne_none_iff_exists'.1 hname
    have hmem := List.mem_map_of_mem (f := Prod.fst) ((hout _ _).1 hv)
    simpa [Function.comp_def] using hmem

/-! ### Two cookies and a malformed one, on two lines -/

def sid : Cookie Nat Text :=
  ⟨⟨"sid".toList, by decide, by decide, by decide, by decide⟩, "a;b = é".toList,
    { maxAge := some 60, sameSite := some "lax".toList }⟩

def theme : Cookie Nat Text :=
  ⟨⟨"theme".toList, by decide, by decide, by decide, by decide⟩, [], { domain := some [] }⟩

def bad : Malformed where
  name := ⟨"bad".toList, by decide, by decide, by decide, by decide⟩
  raw := "%zz".toList
  no_semicolon := by decide
  malformed := by
    have htrim : jsTrim "%zz".toList = "%zz".toList := by decide
    have hread : PercentCoding.readChar "%zz".toList = none := by decide
    rw [htrim]
    exact PercentCoding.decode_eq_none hread

def sampleLines : List (List Text) :=
  let floorText : Nat → Text := fun n => (toString n).toList
  [[theme.pair floorText id, bad.pair], [sid.pair floorText id]]

theorem cookies_round_trip_sample :
    let out := parseCookies ((buildReqHeaders
      (⟨"host", "x"⟩ :: sampleLines.map fun line =>
        ⟨"cookie", String.ofList ("; ".toList.intercalate line)⟩) "cookie").map String.toList)
    out "sid".toList = some "a;b = é".toList ∧ out "theme".toList = some [] ∧
      out "bad".toList = some "%zz".toList := by
  have hall := cookies_round_trip (fun n : Nat => (toString n).toList) id [sid, theme] [bad]
    (by decide) sampleLines (List.perm_append_singleton _ [_, _])
    (⟨"host", "x"⟩ :: sampleLines.map fun line =>
      ⟨"cookie", String.ofList ("; ".toList.intercalate line)⟩) (by simp [headerLines, sampleLines])
  exact ⟨hall.1 sid (by simp), hall.1 theme (by simp), hall.2.1 bad (by simp)⟩

end Cookies
end OxideHttp
