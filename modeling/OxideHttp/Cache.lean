import OxideHttp.Http
import Mathlib.Data.List.Nodup
import Mathlib.Data.List.TakeWhile

/-!
# The response cache (`src/cache.rs`)

One `Store` for each cached route, under the keys that `key` builds.  Times are
milliseconds.  The map of the source has no order of its own; where it drops "an
arbitrary entry", `pick` chooses it.  `lowercase` is `str::to_lowercase`.

Results: `key_injective`, keys are equal exactly for requests of the same method, path,
query string and `vary` headers, and for bodies of the same hash.
-/

namespace OxideHttp
namespace Cache

/-- `CacheConfig`. -/
structure CacheConfig where
  ttl : Nat
  vary : List String
  maxEntries : Nat
  maxBodyBytes : Nat
  deriving DecidableEq, Repr

/-- The part of `JsResponse` that is stored. -/
structure JsResponse where
  status : Option Nat
  headers : Option (List KvPair)
  body : Option Bytes
  streamed : Option Bool
  deriving DecidableEq, Repr

structure Entry where
  path : String
  status : Nat
  headers : List (String × String)
  body : Bytes
  expires : Nat
  deriving DecidableEq, Repr

/-- `Hit`. -/
structure Hit where
  status : Nat
  headers : List (String × String)
  body : Bytes
  deriving DecidableEq, Repr

/-! ## Keys -/

def hexDigit (n : Nat) : Char :=
  if n < 10 then Char.ofNat ('0'.toNat + n) else Char.ofNat ('a'.toNat + (n - 10))

/-- `format!("{h:016x}")`. -/
def hex16 (h : UInt64) : List Char :=
  (List.range 16).map fun i => hexDigit (h.toNat / 16 ^ (15 - i) % 16)

/-- The values of the `vary` headers, in order. -/
def varyPart (vary : List String) (headers : List KvPair) : List Char :=
  vary.flatMap fun name =>
    '\n' :: (headerLines headers name).flatMap fun v => v.toList ++ ['\x1f']

def hashPart : Option UInt64 → List Char
  | none => []
  | some h => '\n' :: hex16 h

/-- `LeafCache::key`. -/
def key (vary : List String) (method path : String) (queryString : Option String)
    (headers : List KvPair) (bodyHash : Option UInt64) : String :=
  String.ofList
    (method.toList ++ '\n' :: (path.toList ++ '\n' ::
      ((queryString.getD "").toList ++ (varyPart vary headers ++ hashPart bodyHash))))

/-- Text without a line break, as every part of a request line is. -/
def OneLine (s : String) : Prop := '\n' ∉ s.toList

instance (s : String) : Decidable (OneLine s) :=
  inferInstanceAs (Decidable ('\n' ∉ s.toList))

/-- The first part of a text ends where its separator comes first. -/
theorem takeWhile_part {c : Char} {l rest : List Char} (hl : c ∉ l)
    (hrest : rest = [] ∨ ∃ r, rest = c :: r) : (l ++ rest).takeWhile (· ≠ c) = l := by
  have hall : ∀ d ∈ l, (decide (d ≠ c)) = true := by
    intro d hd
    simp only [decide_eq_true_eq]
    rintro rfl
    exact hl hd
  rcases hrest with rfl | ⟨r, rfl⟩
  · rw [List.append_nil]
    exact List.takeWhile_eq_self_iff.2 hall
  · rw [List.takeWhile_append_of_pos hall]
    simp

theorem part_inj {c : Char} {l l' r r' : List Char} (hl : c ∉ l) (hl' : c ∉ l')
    (h : l ++ c :: r = l' ++ c :: r') : l = l' ∧ r = r' := by
  have hfirst : l = l' := by
    rw [← takeWhile_part hl (Or.inr ⟨r, rfl⟩), h, takeWhile_part hl' (Or.inr ⟨r', rfl⟩)]
  subst hfirst
  exact ⟨rfl, (List.cons.inj (List.append_cancel_left h)).2⟩

theorem tail_cases (vary : List String) (headers : List KvPair) (h : Option UInt64) :
    varyPart vary headers ++ hashPart h = [] ∨
      ∃ r, varyPart vary headers ++ hashPart h = '\n' :: r := by
  cases vary with
  | cons name vary => exact Or.inr ⟨_, rfl⟩
  | nil =>
      cases h with
      | none => exact Or.inl rfl
      | some h => exact Or.inr ⟨_, rfl⟩

/-- Equal keys come from the same method, path and query string. -/
theorem key_inj {vary : List String} {m m' p p' : String} {q q' : Option String}
    {hs hs' : List KvPair} {b b' : Option UInt64}
    (hm : OneLine m) (hm' : OneLine m') (hp : OneLine p) (hp' : OneLine p')
    (hq : OneLine (q.getD "")) (hq' : OneLine (q'.getD ""))
    (h : key vary m p q hs b = key vary m' p' q' hs' b') :
    m = m' ∧ p = p' ∧ q.getD "" = q'.getD "" := by
  have hchars := congrArg String.toList h
  simp only [key, String.toList_ofList] at hchars
  obtain ⟨hmethod, hrest⟩ := part_inj hm hm' hchars
  obtain ⟨hpath, htail⟩ := part_inj hp hp' hrest
  refine ⟨String.toList_inj.1 hmethod, String.toList_inj.1 hpath,
    String.toList_inj.1 ?_⟩
  rw [← takeWhile_part hq (tail_cases vary hs b), htail,
    takeWhile_part hq' (tail_cases vary hs' b')]

/-! ### What a key says of the headers and the body -/

/-- A header value without the separators of a key. -/
def Separable (v : String) : Prop := '\n' ∉ v.toList ∧ '\x1f' ∉ v.toList

theorem values_inj {vs ws : List String} (hv : ∀ v ∈ vs, Separable v)
    (hw : ∀ w ∈ ws, Separable w)
    (h : (vs.flatMap fun v => v.toList ++ ['\x1f']) =
      ws.flatMap fun w => w.toList ++ ['\x1f']) : vs = ws := by
  induction vs generalizing ws with
  | nil =>
      cases ws with
      | nil => rfl
      | cons w ws => simp at h
  | cons v vs ih =>
      cases ws with
      | nil => simp at h
      | cons w ws =>
          simp only [List.flatMap_cons, List.append_assoc, List.singleton_append] at h
          rw [List.forall_mem_cons] at hv hw
          obtain ⟨hfirst, hrest⟩ := part_inj hv.1.2 hw.1.2 h
          rw [String.toList_inj.1 hfirst, ih hv.2 hw.2 hrest]

theorem hexDigit_inj : ∀ m < 16, ∀ n < 16, hexDigit m = hexDigit n → m = n := by decide

/-- A number is its hexadecimal digits. -/
theorem mod_pow_of_digits {m n : Nat} (w : Nat)
    (h : ∀ i < w, m / 16 ^ i % 16 = n / 16 ^ i % 16) : m % 16 ^ w = n % 16 ^ w := by
  induction w with
  | zero => simp [Nat.mod_one]
  | succ w ih =>
      rw [Nat.mod_pow_succ, Nat.mod_pow_succ, h w (Nat.lt_succ_self w),
        ih fun i hi => h i (Nat.lt_succ_of_lt hi)]

theorem hex16_inj {a b : UInt64} (h : hex16 a = hex16 b) : a = b := by
  have hdigits : ∀ i < 16, a.toNat / 16 ^ i % 16 = b.toNat / 16 ^ i % 16 := by
    intro i hi
    have hplace := List.map_inj_left.1 h (15 - i) (List.mem_range.2 (by omega))
    have hi' : 15 - (15 - i) = i := by omega
    rw [hi'] at hplace
    exact hexDigit_inj _ (Nat.mod_lt _ (by decide)) _ (Nat.mod_lt _ (by decide)) hplace
  have hlt : ∀ c : UInt64, c.toNat < 16 ^ 16 := fun c => c.toNat_lt
  have hmod := mod_pow_of_digits 16 hdigits
  rw [Nat.mod_eq_of_lt (hlt a), Nat.mod_eq_of_lt (hlt b)] at hmod
  exact UInt64.toNat_inj.1 hmod

theorem hashPart_inj {b b' : Option UInt64} (h : hashPart b = hashPart b') : b = b' := by
  cases b with
  | none =>
      cases b' with
      | none => rfl
      | some h' => cases h
  | some h' =>
      cases b' with
      | none => cases h
      | some h'' => rw [hex16_inj (List.cons.inj h).2]

theorem varyPart_cons (name : String) (vary : List String) (hs : List KvPair) :
    varyPart (name :: vary) hs =
      '\n' :: ((headerLines hs name).flatMap (fun v => v.toList ++ ['\x1f']) ++
        varyPart vary hs) := by
  simp [varyPart]

theorem varyPart_inj {vary : List String} {hs hs' : List KvPair} {b b' : Option UInt64}
    (hv : ∀ kv ∈ hs, Separable kv.value) (hv' : ∀ kv ∈ hs', Separable kv.value)
    (h : varyPart vary hs ++ hashPart b = varyPart vary hs' ++ hashPart b') :
    (∀ name ∈ vary, headerLines hs name = headerLines hs' name) ∧ b = b' := by
  have hlines : ∀ (pairs : List KvPair) (name : String),
      (∀ kv ∈ pairs, Separable kv.value) → ∀ v ∈ headerLines pairs name, Separable v := by
    intro pairs name hpairs v hmem
    obtain ⟨kv, hkv, rfl⟩ := List.mem_map.1 hmem
    exact hpairs kv (List.mem_filter.1 hkv).1
  have hline : ∀ vs : List String, (∀ v ∈ vs, Separable v) →
      '\n' ∉ vs.flatMap fun v => v.toList ++ ['\x1f'] := by
    intro vs hvs hmem
    obtain ⟨v, hmem, hnl⟩ := List.mem_flatMap.1 hmem
    rcases List.mem_append.1 hnl with hnl | hnl
    · exact (hvs v hmem).1 hnl
    · simp at hnl
  induction vary with
  | nil => exact ⟨nofun, hashPart_inj h⟩
  | cons name vary ih =>
      rw [varyPart_cons, varyPart_cons, List.cons_append, List.cons_append, List.append_assoc,
        List.append_assoc] at h
      have htail := (List.cons.inj h).2
      have hl := hline _ (hlines hs name hv)
      have hl' := hline _ (hlines hs' name hv')
      have hfirst := congrArg (List.takeWhile (· ≠ '\n')) htail
      rw [takeWhile_part hl (tail_cases vary hs b),
        takeWhile_part hl' (tail_cases vary hs' b')] at hfirst
      rw [hfirst] at htail
      obtain ⟨hvary, hb⟩ := ih (List.append_cancel_left htail)
      refine ⟨List.forall_mem_cons.2 ⟨?_, hvary⟩, hb⟩
      exact values_inj (hlines hs name hv) (hlines hs' name hv') hfirst

/-- Equal keys also come from the same values of the `vary` headers, and from bodies of
the same hash. -/
theorem key_inj_rest {vary : List String} {m m' p p' : String} {q q' : Option String}
    {hs hs' : List KvPair} {b b' : Option UInt64}
    (hm : OneLine m) (hm' : OneLine m') (hp : OneLine p) (hp' : OneLine p')
    (hq : OneLine (q.getD "")) (hq' : OneLine (q'.getD ""))
    (hv : ∀ kv ∈ hs, Separable kv.value) (hv' : ∀ kv ∈ hs', Separable kv.value)
    (h : key vary m p q hs b = key vary m' p' q' hs' b') :
    (∀ name ∈ vary, headerLines hs name = headerLines hs' name) ∧ b = b' := by
  obtain ⟨rfl, rfl, hquery⟩ := key_inj hm hm' hp hp' hq hq' h
  refine varyPart_inj hv hv' ?_
  have hchars := congrArg String.toList h
  simp only [key, String.toList_ofList, hquery, List.append_cancel_left_eq,
    List.cons.injEq, true_and] at hchars
  exact hchars

theorem varyPart_congr {vary : List String} {hs hs' : List KvPair}
    (h : ∀ name ∈ vary, headerLines hs name = headerLines hs' name) :
    varyPart vary hs = varyPart vary hs' := by
  unfold varyPart
  refine List.flatMap_congr fun name hname => ?_
  rw [h name hname]

/--
Keys are equal exactly when the methods, the paths, the query strings, the values of each
`vary` header and the body hashes are.  A header that is absent has no values, and one that
is empty has one.
-/
theorem key_injective (vary : List String) (m m' p p' : String) (q q' : Option String)
    (hs hs' : List KvPair) (b b' : Option UInt64)
    (hm : OneLine m) (hm' : OneLine m') (hp : OneLine p) (hp' : OneLine p')
    (hq : OneLine (q.getD "")) (hq' : OneLine (q'.getD ""))
    (hv : ∀ kv ∈ hs, Separable kv.value) (hv' : ∀ kv ∈ hs', Separable kv.value) :
    key vary m p q hs b = key vary m' p' q' hs' b' ↔
      m = m' ∧ p = p' ∧ q.getD "" = q'.getD "" ∧
        (∀ name ∈ vary, headerLines hs name = headerLines hs' name) ∧ b = b' := by
  constructor
  · intro h
    obtain ⟨hmethod, hpath, hquery⟩ := key_inj hm hm' hp hp' hq hq' h
    obtain ⟨hvary, hhash⟩ := key_inj_rest hm hm' hp hp' hq hq' hv hv' h
    exact ⟨hmethod, hpath, hquery, hvary, hhash⟩
  · rintro ⟨rfl, rfl, hquery, hvary, rfl⟩
    rw [key, key, hquery, varyPart_congr hvary]

theorem key_injective_absent :
    key ["x-tenant"] "GET" "/a" none [] none ≠
      key ["x-tenant"] "GET" "/a" none [⟨"x-tenant", ""⟩] none := by
  intro h
  have hvary := ((key_injective ["x-tenant"] "GET" "GET" "/a" "/a" none none []
    [⟨"x-tenant", ""⟩] none none (by decide) (by decide) (by decide) (by decide) (by decide)
    (by decide) (by simp) (by simp [Separable])).1 h).2.2.2.1
  exact absurd (hvary "x-tenant" (List.mem_singleton_self _)) (by decide)

/-! ## The store -/

/-- The entries of one route, one for each key. -/
structure Store where
  entries : List (String × Entry)
  nodup : (entries.map Prod.fst).Nodup

def Store.empty : Store := { entries := [], nodup := List.nodup_nil }

def Store.get (s : Store) (k : String) : Option Entry :=
  (s.entries.find? fun e => e.1 == k).map Prod.snd

theorem Store.filter_nodup (s : Store) (p : String × Entry → Bool) :
    ((s.entries.filter p).map Prod.fst).Nodup :=
  s.nodup.sublist (List.filter_sublist.map _)

/-- `HashMap::retain`. -/
def Store.retain (s : Store) (p : String × Entry → Bool) : Store :=
  { entries := s.entries.filter p, nodup := s.filter_nodup p }

/-- `HashMap::remove`. -/
def Store.remove (s : Store) (k : String) : Store := s.retain fun e => e.1 != k

/-- `HashMap::insert`. -/
def Store.insert (s : Store) (k : String) (e : Entry) : Store where
  entries := (k, e) :: (s.remove k).entries
  nodup := by
    rw [List.map_cons, List.nodup_cons]
    refine ⟨?_, (s.remove k).nodup⟩
    simp [Store.remove, Store.retain]

/-- `LeafCache::lookup`: the hit, and the store without an expired entry. -/
def lookup (now : Nat) (s : Store) (k : String) : Option Hit × Store :=
  match s.get k with
  | none => (none, s)
  | some e =>
      if now < e.expires then
        (some { status := e.status, headers := e.headers, body := e.body }, s)
      else (none, s.remove k)

/-- The handler opted the response out, by a header of this value. -/
def optsOut (value : String) : Bool :=
  containsText "no-store" value.toList || containsText "private" value.toList

/-- The headers of a response that may be stored, or `none` when one of them
forbids it. -/
def storedHeaders (lowercase : String → String) (requestIdHeader : String) :
    List KvPair → Option (List (String × String))
  | [] => some []
  | kv :: pairs =>
      let name := lowercase kv.key
      if name = "set-cookie" then none
      else if name = "cache-control" && optsOut (lowercase kv.value) then none
      else if name = requestIdHeader then storedHeaders lowercase requestIdHeader pairs
      else (storedHeaders lowercase requestIdHeader pairs).map ((name, kv.value) :: ·)

/-- Make room for `k`: the expired entries go first, then entry number `pick`. -/
def makeRoom (cfg : CacheConfig) (now pick : Nat) (s : Store) (k : String) : Store :=
  if cfg.maxEntries ≤ s.entries.length ∧ (s.get k).isNone then
    let live := s.retain fun e => now < e.2.expires
    if cfg.maxEntries ≤ live.entries.length then
      match live.entries[pick % live.entries.length]? with
      | none => live
      | some victim => live.remove victim.1
    else live
  else s

/-- `LeafCache::maybe_store`; it reads the clock for the entry, and later, behind the
lock, for the sweep. -/
def maybeStore (lowercase : String → String) (cfg : CacheConfig) (requestIdHeader : String)
    (now sweep pick : Nat) (s : Store) (k path : String) (res : JsResponse) : Store :=
  if res.status.getD 200 ≠ 200 ∨ res.streamed.getD false then s
  else if cfg.maxBodyBytes < (res.body.getD []).length then s
  else match storedHeaders lowercase requestIdHeader (res.headers.getD []) with
    | none => s
    | some headers =>
        (makeRoom cfg sweep pick s k).insert k
          { path := path
            status := res.status.getD 200
            headers := headers
            body := res.body.getD []
            expires := now + cfg.ttl }

/-- `LeafCache::purge`. -/
def purge (s : Store) (path : Option String) : Store :=
  match path with
  | none => Store.empty
  | some p => s.retain fun e => e.2.path != p

/-! ## What a store holds -/

section Entries

variable {s : Store} {k : String} {e : Entry} {d : String × Entry}

theorem Store.get_eq_some_iff : s.get k = some e ↔ (k, e) ∈ s.entries := by
  constructor
  · intro h
    obtain ⟨d, hfind, rfl⟩ := Option.map_eq_some_iff.1 h
    have hkey : d.1 = k := by simpa using List.find?_some hfind
    exact hkey ▸ List.mem_of_find?_eq_some hfind
  · intro h
    cases hfind : s.entries.find? fun d => d.1 == k with
    | none => exact absurd (List.find?_eq_none.1 hfind (k, e) h) (by simp)
    | some d =>
        have hkey : d.1 = k := by simpa using List.find?_some hfind
        have hsame : d = (k, e) :=
          List.inj_on_of_nodup_map s.nodup (List.mem_of_find?_eq_some hfind) h hkey
        rw [Store.get, hfind, hsame]
        rfl

@[simp] theorem Store.mem_retain {p : String × Entry → Bool} :
    d ∈ (s.retain p).entries ↔ d ∈ s.entries ∧ p d = true := List.mem_filter

@[simp] theorem Store.mem_remove : d ∈ (s.remove k).entries ↔ d ∈ s.entries ∧ d.1 ≠ k := by
  simp [Store.remove]

@[simp] theorem Store.mem_insert :
    d ∈ (s.insert k e).entries ↔ d = (k, e) ∨ d ∈ s.entries ∧ d.1 ≠ k := by
  simp [Store.insert]

theorem Store.length_retain_le (p : String × Entry → Bool) :
    (s.retain p).entries.length ≤ s.entries.length := List.length_filter_le ..

/-- An entry is removed, and nothing else. -/
theorem Store.length_remove (h : (k, e) ∈ s.entries) :
    (s.remove k).entries.length < s.entries.length :=
  List.length_filter_lt_length_iff_exists.2 ⟨(k, e), h, by simp⟩

theorem Store.length_insert :
    (s.insert k e).entries.length = (s.remove k).entries.length + 1 := rfl

/-- A hit is an entry that has not expired. -/
theorem lookup_eq_some_iff {now : Nat} {hit : Hit} :
    (lookup now s k).1 = some hit ↔ ∃ e, s.get k = some e ∧ now < e.expires ∧
      hit = { status := e.status, headers := e.headers, body := e.body } := by
  unfold lookup
  split
  case h_1 hnone => simp [hnone]
  case h_2 e hsome =>
    rw [hsome]
    split
    case isTrue hlive => simp [hlive, eq_comm]
    case isFalse hdead => simp [hdead]

end Entries

/-! ## Which keys a store holds -/

/-- Every key of the store satisfies `P`. -/
def Store.KeysIn (s : Store) (P : String → Prop) : Prop := ∀ e ∈ s.entries, P e.1

section Keys

variable {P : String → Prop} {s : Store}

theorem keysIn_empty : Store.empty.KeysIn P := fun _ he => nomatch he

/-- A hit is an entry of the store. -/
theorem Store.KeysIn.of_lookup {now : Nat} {k : String} {hit : Hit} (hs : s.KeysIn P)
    (h : (Cache.lookup now s k).1 = some hit) : P k := by
  obtain ⟨e, hget, _⟩ := lookup_eq_some_iff.1 h
  exact hs (k, e) (Store.get_eq_some_iff.1 hget)

end Keys

end Cache
end OxideHttp
