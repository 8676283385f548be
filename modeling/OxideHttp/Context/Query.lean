import OxideHttp.Dispatch
import OxideHttp.Lib.FormUrlencoded

/-!
# The query (`js/index.ts`, `js/context.ts`, `src/server.rs`, `src/schema.rs`)

`inject()` puts its `query` behind the path of the request, written as a form, and the server
reads the query string of every request as a form.  The pairs that it finds go to the
validation and to the context, which shows the last value of a name, or all of them.  The
parser of targets and the form parser of Rust are parameters.

Results.
* `query_eq_getLast?`, `coercePairs_get`: the value that `c.req.query` shows is the last of
  `c.req.queries`, and it is the one that the validation has checked.
* `inject_query`: the handler sees the query of the path itself and then that of `inject()`,
  whatever texts they hold.
-/

namespace OxideHttp
namespace Query

open Schema Dispatch

abbrev Text := List Char

/-! ## What the context shows -/

/-- `c.req.query`. -/
def query (pairs : List KvPair) : String → Option String :=
  pairs.foldl (fun last kv => Function.update last kv.key (some kv.value)) fun _ => none

def queryMulti (pairs : List KvPair) : String → Option (List String) :=
  pairs.foldl (fun multi kv =>
    Function.update multi kv.key (some ((multi kv.key).getD [] ++ [kv.value]))) fun _ => none

/-- `c.req.queries(key)`. -/
def queries (pairs : List KvPair) (key : String) : List String := (queryMulti pairs key).getD []

theorem query_concat (pairs : List KvPair) (kv : KvPair) (k : String) :
    query (pairs ++ [kv]) k = if kv.key = k then some kv.value else query pairs k := by
  rw [query, List.foldl_concat, Function.update_apply, ← query]
  simp only [eq_comm]

theorem queries_concat (pairs : List KvPair) (kv : KvPair) (k : String) :
    queries (pairs ++ [kv]) k = if kv.key = k then queries pairs k ++ [kv.value]
      else queries pairs k := by
  rw [queries, queryMulti, List.foldl_concat, Function.update_apply, ← queryMulti]
  split
  case isTrue h =>
    rw [if_pos h.symm, ← h]
    rfl
  case isFalse h =>
    rw [if_neg (Ne.symm h)]
    rfl

theorem queries_eq (pairs : List KvPair) (k : String) :
    queries pairs k = (pairs.filter (·.key = k)).map KvPair.value := by
  induction pairs using List.reverseRecOn with
  | nil => rfl
  | append_singleton pairs kv ih =>
      rw [queries_concat, ih, List.filter_append, List.map_append]
      split
      case isTrue h => simp [h]
      case isFalse h => simp [h]

/-- The last value wins. -/
theorem query_eq_getLast? (pairs : List KvPair) (k : String) :
    query pairs k = (queries pairs k).getLast? := by
  induction pairs using List.reverseRecOn with
  | nil => rfl
  | append_singleton pairs kv ih =>
      rw [query_concat, queries_concat, ih]
      split
      case isTrue => rw [List.getLast?_concat]
      case isFalse => rfl

/-! ## What is validated -/

theorem find?_insertField (key k : String) (value : Value) (fields : List (String × Value)) :
    ((insertField key value fields).find? fun f => f.1 == k) =
      if key = k then some (key, value) else fields.find? fun f => f.1 == k := by
  induction fields with
  | nil =>
      rw [insertField, List.find?_singleton]
      simp
  | cons field fields ih =>
      obtain ⟨k', v⟩ := field
      rw [insertField]
      split
      case isTrue hkey =>
        subst hkey
        rw [List.find?_cons, List.find?_cons]
        cases hk : key == k <;> simp_all
      case isFalse hkey =>
        split
        case isTrue =>
          rw [List.find?_cons]
          cases hk : key == k <;> simp_all
        case isFalse =>
          rw [List.find?_cons, List.find?_cons, ih]
          by_cases hk : k' = k
          · subst hk
            simp [hkey]
          · simp [beq_false_of_ne hk]

/-- What the validation checks under a name is read from the value that the context shows. -/
theorem coercePairs_get (serde : Serde) (pairs : List KvPair) (schema : Value) (k : String) :
    (coercePairs serde pairs schema).get k = (query pairs k).map fun raw =>
      coerceScalar serde raw ((schema.get "properties").bind (Value.get k)) := by
  rw [coercePairs]
  dsimp only [Value.get]
  induction pairs using List.reverseRecOn with
  | nil => rfl
  | append_singleton pairs kv ih =>
      rw [List.foldl_concat, find?_insertField, query_concat]
      split
      case isTrue h =>
        subst h
        rfl
      case isFalse => exact ih

/-! ## `inject()` -/

/-- The target of the request: the path, which may have a query of its own, and the `query` of
`inject()` behind it. -/
def injectUrl (path : Text) (query : List (Text × Text)) : Text :=
  if query = [] then path
  else path ++ (if '?' ∈ path then '&' else '?') :: FormUrlencoded.serialize query

/-- A path and its query. -/
def written (path : Text) (own : Option Text) : Text := path ++ own.elim [] ('?' :: ·)

/-- The characters of a path, and of a query but for `?`. -/
def pathChar (c : Char) : Bool := c.isAlphanum || c ∈ "-._~!$&'()*+,;=:@%/".toList

def queryChar (c : Char) : Bool := pathChar c || c = '?'

/-- The longest target that the parser takes. -/
def uriMax : Nat := 65534

/-- What the parser of targets is documented to do with paths and queries of these
characters. -/
structure Splits (uri : Text → Option (Text × Option Text)) : Prop where
  bare : ∀ path, path.head? = some '/' → (∀ c ∈ path, pathChar c = true) →
    path.length ≤ uriMax → uri path = some (path, none)
  queried : ∀ path query, path.head? = some '/' → (∀ c ∈ path, pathChar c = true) →
    (∀ c ∈ query, queryChar c = true) → (path ++ '?' :: query).length ≤ uriMax →
      uri (path ++ '?' :: query) = some (path, some query)

def toKv (e : Text × Text) : KvPair := ⟨String.ofList e.1, String.ofList e.2⟩

/-- The query string that is sent. -/
def sent (own : Option Text) (entries : List (Text × Text)) : Option Text :=
  if entries = [] then own
  else some (own.elim [] (· ++ ['&']) ++ FormUrlencoded.serialize entries)

theorem injectUrl_written {path : Text} (hpath : ∀ c ∈ path, pathChar c = true)
    (own : Option Text) (entries : List (Text × Text)) :
    injectUrl (written path own) entries = written path (sent own entries) := by
  have hnone : '?' ∉ path := fun h => by cases hpath _ h
  rw [injectUrl, sent]
  split
  case isTrue => rfl
  case isFalse =>
    cases own with
    | none => simp [written, hnone]
    | some q => simp [written]

theorem queryChar_serialize (entries : List (Text × Text)) :
    ∀ c ∈ FormUrlencoded.serialize entries, queryChar c = true := by
  have hdigit : ∀ n : Fin 16, queryChar (PercentCoding.hexDigit n) = true := by decide
  have hkeep (c : Char) (hc : FormUrlencoded.keep c = true) : queryChar c = true := by
    rw [FormUrlencoded.keep, Bool.or_eq_true, decide_eq_true_eq] at hc
    rcases hc with halnum | hmem
    · rw [queryChar, pathChar, halnum]
      rfl
    · exact List.all_eq_true.mp (by decide : ['*', '-', '.', '_'].all queryChar = true) c hmem
  exact FormUrlencoded.forall_mem_serialize (by decide) (by decide)
    (FormUrlencoded.forall_mem_serializeText (by decide) (by decide)
      (fun n hn => hdigit ⟨n, hn⟩) hkeep) entries

theorem queryChar_sent {own : Option Text} (hown : ∀ q ∈ own, ∀ c ∈ q, queryChar c = true)
    (entries : List (Text × Text)) :
    ∀ q ∈ sent own entries, ∀ c ∈ q, queryChar c = true := by
  intro q hq
  rw [sent] at hq
  split at hq
  case isTrue => exact hown q hq
  case isFalse =>
    obtain rfl := Option.some.inj hq
    refine List.forall_mem_append.2 ⟨?_, queryChar_serialize entries⟩
    cases own with
    | none => exact fun _ hc => (nomatch hc)
    | some q =>
        exact List.forall_mem_append.2 ⟨hown q rfl, List.forall_mem_singleton.2 (by decide)⟩

theorem uri_written {uri : Text → Option (Text × Option Text)} (huri : Splits uri)
    {path : Text} (hstart : path.head? = some '/') (hpath : ∀ c ∈ path, pathChar c = true)
    {qs : Option Text} (hqs : ∀ q ∈ qs, ∀ c ∈ q, queryChar c = true)
    (hfits : (written path qs).length ≤ uriMax) : uri (written path qs) = some (path, qs) := by
  cases qs with
  | none =>
      rw [written, Option.elim_none, List.append_nil] at hfits ⊢
      exact huri.bare path hstart hpath hfits
  | some q => exact huri.queried path q hstart hpath (hqs q rfl) hfits

theorem queries_append (pairs pairs' : List KvPair) (k : String) :
    queries (pairs ++ pairs') k = queries pairs k ++ queries pairs' k := by
  rw [queries_eq, queries_eq, queries_eq, List.filter_append, List.map_append]

theorem queries_entries (entries : List (Text × Text)) (k : Text) :
    queries (entries.map toKv) (String.ofList k) =
      (entries.filter (·.1 = k)).map fun e => String.ofList e.2 := by
  rw [queries_eq, List.filter_map, List.map_map]
  have hkey (e : Text × Text) : (toKv e).key = String.ofList k ↔ e.1 = k :=
    ⟨fun h => String.ofList_injective h, fun h => congrArg String.ofList h⟩
  simp only [Function.comp_def, hkey]
  rfl

/-- Among entries with different names a name has one value. -/
theorem getLast?_entries {entries : List (Text × Text)} (hkeys : (entries.map Prod.fst).Nodup)
    {k v : Text} (hkv : (k, v) ∈ entries) (values : List String) :
    (values ++ (entries.filter (·.1 = k)).map fun e => String.ofList e.2).getLast? =
      some (String.ofList v) := by
  have hmem : (k, v) ∈ entries.filter (·.1 = k) := List.mem_filter.2 ⟨hkv, decide_eq_true rfl⟩
  have hall : ∀ e ∈ entries.filter (·.1 = k), e = (k, v) := fun e he => by
    obtain ⟨he, hk⟩ := List.mem_filter.1 he
    exact List.inj_on_of_nodup_map hkeys he hkv (of_decide_eq_true hk)
  rw [List.eq_replicate_of_mem hall]
  obtain ⟨n, hn⟩ := Nat.exists_eq_succ_of_ne_zero (List.length_pos_of_mem hmem).ne'
  rw [hn, List.replicate_succ', List.map_append, List.map_singleton, ← List.append_assoc,
    List.getLast?_concat]

section Inject

variable {uri : Text → Option (Text × Option Text)} {env : Env}
  {utf8Decode : List UInt8 → Text}

/-- What the server finds in the query string that is sent. -/
theorem parseQuery_sent (hdecode : ∀ s : Text, utf8Decode (s.flatMap String.utf8EncodeChar) = s)
    (hform : ∀ s, env.formUrlencoded s = (FormUrlencoded.parse utf8Decode s.toList).map toKv)
    (own : Option Text) (entries : List (Text × Text)) :
    parseQuery env ((sent own entries).map String.ofList) =
      parseQuery env (own.map String.ofList) ++ entries.map toKv := by
  rw [sent]
  split
  case isTrue h => rw [h, List.map_nil, List.append_nil]
  case isFalse =>
    cases own with
    | none =>
        simp [parseQuery, hform, FormUrlencoded.parse_serialize hdecode]
    | some q =>
        simp [parseQuery, hform, FormUrlencoded.parse_append,
          FormUrlencoded.parse_serialize hdecode]

/-- For every path with any query of its own and every object of names and values: the request
that `inject()` sends has the path, unless it is too long, its context shows of each name the
value of the object, behind those that the path has itself, and the validation has checked the
same value. -/
theorem inject_query (huri : Splits uri)
    (hdecode : ∀ s : Text, utf8Decode (s.flatMap String.utf8EncodeChar) = s)
    (hform : ∀ s, env.formUrlencoded s = (FormUrlencoded.parse utf8Decode s.toList).map toKv)
    {path : Text} (hstart : path.head? = some '/') (hpath : ∀ c ∈ path, pathChar c = true)
    {own : Option Text} (hown : ∀ q ∈ own, ∀ c ∈ q, queryChar c = true)
    {entries : List (Text × Text)} (hkeys : (entries.map Prod.fst).Nodup) :
    ∃ qs, ((injectUrl (written path own) entries).length ≤ uriMax →
        uri (injectUrl (written path own) entries) = some (path, qs)) ∧
      (∀ k, queries (parseQuery env (qs.map String.ofList)) (String.ofList k) =
        queries (parseQuery env (own.map String.ofList)) (String.ofList k) ++
          (entries.filter (·.1 = k)).map fun e => String.ofList e.2) ∧
      ∀ k v, (k, v) ∈ entries →
        query (parseQuery env (qs.map String.ofList)) (String.ofList k) = some (String.ofList v) ∧
        ∀ schema, (coercePairs env.serde (parseQuery env (qs.map String.ofList)) schema).get
            (String.ofList k) =
          some (coerceScalar env.serde (String.ofList v)
            ((schema.get "properties").bind (Value.get (String.ofList k)))) := by
  have hqueries (k : Text) :
      queries (parseQuery env ((sent own entries).map String.ofList)) (String.ofList k) =
        queries (parseQuery env (own.map String.ofList)) (String.ofList k) ++
          (entries.filter (·.1 = k)).map fun e => String.ofList e.2 := by
    rw [parseQuery_sent hdecode hform, queries_append, queries_entries]
  refine ⟨sent own entries, fun hfits => ?_, hqueries, fun k v hkv => ?_⟩
  · rw [injectUrl_written hpath] at hfits ⊢
    exact uri_written huri hstart hpath (queryChar_sent hown entries) hfits
  · have hquery : query (parseQuery env ((sent own entries).map String.ofList))
        (String.ofList k) = some (String.ofList v) := by
      rw [query_eq_getLast?, hqueries]
      exact getLast?_entries hkeys hkv _
    exact ⟨hquery, fun schema => by rw [coercePairs_get, hquery, Option.map_some]⟩

end Inject

/-- Targets cut at the first `?`. -/
def cut (t : Text) : Option (Text × Option Text) :=
  some (t.takeWhile (· ≠ '?'), if '?' ∈ t then some (t.dropWhile (· ≠ '?')).tail else none)

theorem splits_cut : Splits cut := by
  have hpos {path : Text} (hpath : ∀ c ∈ path, pathChar c = true) :
      ∀ c ∈ path, decide (c ≠ '?') = true := fun c hc =>
    decide_eq_true fun heq => by cases heq ▸ hpath c hc
  refine ⟨fun path _ hpath _ => ?_, fun path query _ hpath _ _ => ?_⟩
  · have hnone : '?' ∉ path := fun h => by cases hpath _ h
    rw [cut, if_neg hnone, List.takeWhile_eq_self_iff.2 (hpos hpath)]
  · have hstop : decide ('?' ≠ '?') = false := by decide
    rw [cut, if_pos (by simp), List.takeWhile_append_of_pos (hpos hpath),
      List.dropWhile_append_of_pos (hpos hpath), List.takeWhile_cons, List.dropWhile_cons, hstop]
    simp

def decodeWellFormed (bytes : List UInt8) : Text :=
  (bytes.toByteArray.utf8Decode?.map Array.toList).getD []

def formEnv : Env :=
  { sampleEnv with
    formUrlencoded := fun s => (FormUrlencoded.parse decodeWellFormed s.toList).map toKv }

/-- A path with a query, and a value that has to be escaped. -/
theorem inject_query_escaped :
    ∃ qs, cut (injectUrl "/items?page=2".toList [("q".toList, "a b&c".toList)]) =
        some ("/items".toList, qs) ∧
      query (parseQuery formEnv (qs.map String.ofList)) (String.ofList "q".toList) =
        some (String.ofList "a b&c".toList) := by
  have hdecode (s : Text) : decodeWellFormed (s.flatMap String.utf8EncodeChar) = s := by
    have hutf8 : (s.flatMap String.utf8EncodeChar).toByteArray.utf8Decode? = some s.toArray :=
      List.utf8Decode?_utf8Encode
    rw [decodeWellFormed, hutf8]
    rfl
  obtain ⟨qs, huri, _, hvalue⟩ := @inject_query cut formEnv decodeWellFormed splits_cut hdecode
    (fun _ => rfl) "/items".toList rfl (List.all_eq_true.mp (by decide)) (some "page=2".toList)
    (fun _ hq => Option.some.inj hq ▸ List.all_eq_true.mp (by decide))
    [("q".toList, "a b&c".toList)] (by decide)
  exact ⟨qs, huri (by decide), (hvalue _ _ (List.mem_singleton_self _)).1⟩

end Query
end OxideHttp
