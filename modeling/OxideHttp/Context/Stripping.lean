import OxideHttp.Context
import Mathlib.Data.List.Nodup

/-!
# Response stripping (`js/context.ts`: `stripResponse`; `js/index.ts`: `compileResponseStrip`)

A response schema names the properties that may leave the server.  The body is stripped
where the response is built, after every hook, if its content type is one of JSON then.

Result: `stripped_iff`, when the body that is sent has the declared properties of the
original, and no others.
-/

namespace OxideHttp
namespace Context

/-- A response schema, with the keys of its top-level `properties`. -/
structure ResponseSchema where
  properties : Option (List String)
  deriving DecidableEq, Repr

/-- `topProps`. -/
def topProps (schema : Option ResponseSchema) : Option (List String) :=
  schema.bind ResponseSchema.properties

/-- `schema.response`, an object with a schema for some statuses. -/
structure ResponseSchemas where
  entries : List (String × Option ResponseSchema)
  nodup : (entries.map Prod.fst).Nodup

/-- The properties declared for a status. -/
def ResponseSchemas.declared (response : ResponseSchemas) (status : Int) :
    Option (List String) :=
  (response.entries.find? fun e => e.1 == toString status).bind fun e => topProps e.2

/-- The entry of `map` that an entry of `schema.response` leaves. -/
def stripEntry (e : String × Option ResponseSchema) : Option (String × List String) :=
  (topProps e.2).map fun props => (e.1, props)

/-- `compileResponseStrip`. -/
def compileResponseStrip (response : Option ResponseSchemas) : Option ResponseStrip :=
  response.bind fun r =>
    let map := r.entries.filterMap stripEntry
    if map.isEmpty then none
    else some fun status => (map.find? fun e => e.1 == toString status).map Prod.snd

/-- What the JSON library does: an object has each key once, and the members of an object
that was parsed are printed so that each reads as `reread` of it, which is the value
itself unless it is a number that JSON has no text for. -/
structure JsonLib.Lawful (lib : JsonLib) (reread : Json → Json) : Prop where
  keys : ∀ text fields, lib.parse text = some (.object fields) → (fields.map Prod.fst).Nodup
  prints : ∀ text fields, lib.parse text = some (.object fields) →
    ∀ p : String × Json → Bool,
      lib.parse (lib.stringify (.object (fields.filter p))) =
        some (.object ((fields.filter p).map fun f => (f.1, reread f.2)))

/-- The body is an object with the declared members of the original, and these only. -/
def Stripped (lib : JsonLib) (props : List String) (fields : List (String × Json))
    (sent : Option String) : Prop :=
  ∃ text kept, sent = some text ∧ lib.parse text = some (.object kept) ∧
    ∀ k v, (k, v) ∈ kept ↔ (k, v) ∈ fields ∧ k ∈ props

/-- The content type that `stripResponse` looks for. -/
def isJson (c : Ctx) : Bool :=
  containsText "application/json" ((c.headers.get contentType).getD "").toList

/-! ## The compiled schemas -/

theorem find?_stripEntry (k : String) {entries : List (String × Option ResponseSchema)}
    (hnodup : (entries.map Prod.fst).Nodup) :
    ((entries.filterMap stripEntry).find? fun e => e.1 == k).map Prod.snd =
      (entries.find? fun e => e.1 == k).bind fun e => topProps e.2 := by
  induction entries with
  | nil => rfl
  | cons e entries ih =>
      rw [List.map_cons, List.nodup_cons] at hnodup
      have hrest := ih hnodup.2
      by_cases hk : e.1 = k
      · have hnone : entries.find? (fun e => e.1 == k) = none := by
          rw [List.find?_eq_none]
          intro e' he' hk'
          exact hnodup.1 (List.mem_map.2 ⟨e', he', (eq_of_beq hk').trans hk.symm⟩)
        rw [List.find?_cons_of_pos (by simpa using hk)]
        cases hprops : topProps e.2 with
        | none =>
            rw [List.filterMap_cons_none (by simp [stripEntry, hprops]), hrest, hnone]
            exact hprops.symm
        | some props =>
            rw [List.filterMap_cons_some (b := (e.1, props)) (by simp [stripEntry, hprops]),
              List.find?_cons_of_pos (by simpa using hk)]
            exact hprops.symm
      · rw [List.find?_cons_of_neg (by simpa using hk), ← hrest]
        cases hprops : topProps e.2 with
        | none => rw [List.filterMap_cons_none (by simp [stripEntry, hprops])]
        | some props =>
            rw [List.filterMap_cons_some (b := (e.1, props)) (by simp [stripEntry, hprops]),
              List.find?_cons_of_neg (by simpa using hk)]

/-- What is looked up for a status is what its schema declares. -/
theorem strip_declared (response : ResponseSchemas) (status : Int) :
    ((compileResponseStrip (some response)).bind fun s => s status) =
      response.declared status := by
  rw [ResponseSchemas.declared, ← find?_stripEntry _ response.nodup, compileResponseStrip,
    Option.bind_some]
  dsimp only
  split
  case isTrue hempty =>
    rw [List.isEmpty_iff] at hempty
    rw [hempty]
    rfl
  case isFalse => rfl

/-! ## The body that is sent -/

section Sent

variable {lib : JsonLib} {reread : Json → Json} {props : List String}
  {fields : List (String × Json)}

/-- A body that is sent as it is. -/
theorem stripped_text {text : String} (hparse : lib.parse text = some (.object fields)) :
    Stripped lib props fields (some text) ↔ ∀ f ∈ fields, f.1 ∈ props := by
  constructor
  · rintro ⟨text', kept, htext, hkept, hmem⟩ f hf
    obtain rfl := Option.some.inj htext
    obtain rfl := Json.object.inj (Option.some.inj (hparse.symm.trans hkept))
    exact ((hmem f.1 f.2).1 hf).2
  · intro hall
    exact ⟨text, fields, rfl, hparse, fun k v => ⟨fun h => ⟨h, hall (k, v) h⟩, And.left⟩⟩

theorem mem_keepDeclared {f : String × Json} :
    f ∈ keepDeclared props fields ↔ f ∈ fields ∧ f.1 ∈ props ∧ f.1 ≠ "__proto__" := by
  simp [keepDeclared]

/-- A member that is there once has one value. -/
theorem eq_of_nodup_keys {k : String} {v w : Json} (hnodup : (fields.map Prod.fst).Nodup)
    (hv : (k, v) ∈ fields) (hw : (k, w) ∈ fields) : v = w :=
  congrArg Prod.snd (List.inj_on_of_nodup_map hnodup hv hw rfl)

/-- A body that is parsed, stripped and printed. -/
theorem stripped_kept (hlib : lib.Lawful reread) {text : String}
    (hparse : lib.parse text = some (.object fields)) :
    Stripped lib props fields (some (lib.stringify (.object (keepDeclared props fields)))) ↔
      ∀ f ∈ fields, f.1 ∈ props → f.1 ≠ "__proto__" ∧ reread f.2 = f.2 := by
  have hprint := hlib.prints text fields hparse
    fun f => props.contains f.1 && f.1 != "__proto__"
  change lib.parse (lib.stringify (.object (keepDeclared props fields))) =
    some (.object ((keepDeclared props fields).map fun f => (f.1, reread f.2))) at hprint
  have hnodup := hlib.keys text fields hparse
  constructor
  · rintro ⟨text', kept, htext, hkept, hmem⟩ ⟨k, v⟩ hf hprops
    obtain rfl := Option.some.inj htext
    obtain rfl := Json.object.inj (Option.some.inj (hprint.symm.trans hkept))
    obtain ⟨⟨k', w⟩, hw, heq⟩ := List.mem_map.1 ((hmem k v).2 ⟨hf, hprops⟩)
    obtain ⟨rfl, hv⟩ := Prod.mk.inj heq
    obtain ⟨hw, -, hproto⟩ := mem_keepDeclared.1 hw
    exact ⟨hproto, (congrArg reread (eq_of_nodup_keys hnodup hf hw)).trans hv⟩
  · intro hall
    refine ⟨_, _, rfl, hprint, fun k v => ⟨fun h => ?_, fun h => ?_⟩⟩
    · obtain ⟨⟨k', w⟩, hw, heq⟩ := List.mem_map.1 h
      obtain ⟨rfl, rfl⟩ := Prod.mk.inj heq
      obtain ⟨hfield, hprops, -⟩ := mem_keepDeclared.1 hw
      rw [(hall _ hfield hprops).2]
      exact ⟨hfield, hprops⟩
    · obtain ⟨hproto, hsame⟩ := hall _ h.1 h.2
      exact List.mem_map.2 ⟨(k, v), mem_keepDeclared.2 ⟨h.1, h.2, hproto⟩, by rw [hsame]⟩

/-- The body of a response whose status has a schema is stripped, just when its content
type says `application/json` and no declared member is lost in the printing, or when there
is nothing to strip. -/
theorem stripped_iff (hlib : lib.Lawful reread) (response : ResponseSchemas) (c : Ctx)
    {text : String} (hstream : c.stream = none)
    (hprops : response.declared (c.status.getD 200) = some props)
    (hbody : c.body = some text) (hparse : lib.parse text = some (.object fields)) :
    Stripped lib props fields
        (buildNativeResponse lib (compileResponseStrip (some response)) c).body ↔
      if isJson c then ∀ f ∈ fields, f.1 ∈ props → f.1 ≠ "__proto__" ∧ reread f.2 = f.2
      else ∀ f ∈ fields, f.1 ∈ props := by
  have hstrip := (strip_declared response (c.status.getD 200)).trans hprops
  have hsent : (buildNativeResponse lib (compileResponseStrip (some response)) c).body =
      if isJson c then some (lib.stringify (.object (keepDeclared props fields)))
      else some text := by
    unfold buildNativeResponse stripResponse isJson
    rw [hstream]
    dsimp only
    rw [hstrip, hbody]
    dsimp only
    rw [hparse]
  rw [hsent]
  cases isJson c with
  | true =>
      rw [if_pos rfl, if_pos rfl]
      exact stripped_kept hlib hparse
  | false =>
      rw [if_neg (by simp), if_neg (by simp)]
      exact stripped_text hparse

end Sent

/-! ## An object with a secret -/

def idMember : String × Json := ("id", .plain "1")

def secretMember : String × Json := ("secret", .plain "2")

/-- `JSON.stringify` of these members. -/
def printMembers (fields : List (String × Json)) : String :=
  "\x7b" ++ ",".intercalate (fields.map fun f =>
    "\"" ++ f.1 ++ "\":" ++ match f.2 with
      | .plain text => text
      | .object _ => "") ++ "\x7d"

/-- The objects with some of the two members. -/
def samples : List (List (String × Json)) :=
  [[], [idMember], [secretMember], [idMember, secretMember]]

/-- The JSON library on those objects. -/
def sampleJson : JsonLib where
  parse := fun text => (samples.find? fun fields => printMembers fields == text).map .object
  stringify
    | .object fields => printMembers fields
    | .plain text => text

theorem sampleJson_prints : ∀ fields ∈ samples,
    sampleJson.parse (sampleJson.stringify (.object fields)) = some (.object fields) := by
  intro fields hfields
  simp only [samples, List.mem_cons, List.not_mem_nil, or_false] at hfields
  rcases hfields with rfl | rfl | rfl | rfl
  · rfl
  · rfl
  · rfl
  · rfl

theorem samples_filter : ∀ fields ∈ samples, ∀ p : String × Json → Bool,
    fields.filter p ∈ samples := by
  intro fields hfields p
  simp only [samples, List.mem_cons, List.not_mem_nil, or_false] at hfields
  rcases hfields with rfl | rfl | rfl | rfl
  · simp [samples]
  · cases hid : p idMember <;> simp [samples, hid]
  · cases hsecret : p secretMember <;> simp [samples, hsecret]
  · cases hid : p idMember <;> cases hsecret : p secretMember <;> simp [samples, hid, hsecret]

theorem sampleJson_lawful : sampleJson.Lawful id where
  keys := by
    intro text fields hparse
    obtain ⟨found, hfind, hfound⟩ := Option.map_eq_some_iff.1 hparse
    obtain rfl := Json.object.inj hfound
    have hmem := List.mem_of_find?_eq_some hfind
    simp only [samples, List.mem_cons, List.not_mem_nil, or_false] at hmem
    rcases hmem with rfl | rfl | rfl | rfl
    · decide
    · decide
    · decide
    · decide
  prints := by
    intro text fields hparse p
    obtain ⟨found, hfind, hfound⟩ := Option.map_eq_some_iff.1 hparse
    obtain rfl := Json.object.inj hfound
    rw [sampleJson_prints _ (samples_filter _ (List.mem_of_find?_eq_some hfind) p)]
    simp

/-- The schema of 200 declares `id` alone. -/
def idSchema : ResponseSchemas where
  entries := [("200", some ⟨some ["id"]⟩)]
  nodup := by decide

def secretText : String := printMembers [idMember, secretMember]

/-- `c.json` with the object. -/
def jsonContext : Ctx := (Ctx.build "x-request-id" "7").json (.ok (some secretText)) none

/-- `c.text` with the same text. -/
def textContext : Ctx := (Ctx.build "x-request-id" "7").text secretText none

theorem stripped_iff_json :
    Stripped sampleJson ["id"] [idMember, secretMember]
      (buildNativeResponse sampleJson (compileResponseStrip (some idSchema)) jsonContext).body :=
  (stripped_iff sampleJson_lawful idSchema jsonContext rfl (by decide +kernel) rfl rfl).2 (by
    rw [if_pos (by decide +kernel)]
    intro f hf hprops
    simp only [List.mem_cons, List.not_mem_nil, or_false] at hf
    rcases hf with rfl | rfl
    · exact ⟨by decide, rfl⟩
    · exact absurd hprops (by decide))

/-- The secret leaves the server in a response of another content type. -/
theorem secret_sent_as_text :
    textContext.stream = none ∧
      idSchema.declared (textContext.status.getD 200) = some ["id"] ∧
      sampleJson.parse secretText = some (.object [idMember, secretMember]) ∧
      (buildNativeResponse sampleJson (compileResponseStrip (some idSchema)) textContext).body =
        some secretText ∧
      ¬ Stripped sampleJson ["id"] [idMember, secretMember]
        (buildNativeResponse sampleJson (compileResponseStrip (some idSchema))
          textContext).body := by
  have hsent : (buildNativeResponse sampleJson (compileResponseStrip (some idSchema))
      textContext).body = some secretText := by decide +kernel
  have hparse : sampleJson.parse secretText = some (.object [idMember, secretMember]) := rfl
  refine ⟨rfl, by decide +kernel, hparse, hsent, ?_⟩
  rw [hsent, stripped_text hparse]
  intro hall
  exact absurd (hall secretMember (by simp)) (by decide)

end Context
end OxideHttp
