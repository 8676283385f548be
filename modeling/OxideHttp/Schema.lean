import OxideHttp.Http

/-!
# Native validation (`src/schema.rs`)

`LeafSchema.validate` coerces and checks the query, the params and the body of a
request.  The JSON reader and printer and the JSON Schema validators are
libraries: `Serde` and `Validator` stand for them.
-/

namespace OxideHttp
namespace Schema

inductive Number where
  | int (n : Int)
  | float (bits : UInt64)
  deriving DecidableEq, Repr

/-- `serde_json::Value`; the fields of an object are sorted by key. -/
inductive Value where
  | null
  | bool (b : Bool)
  | number (n : Number)
  | string (s : String)
  | array (items : List Value)
  | object (fields : List (String × Value))

/-- `Map::insert`. -/
def insertField (key : String) (value : Value) :
    List (String × Value) → List (String × Value)
  | [] => [(key, value)]
  | (k, v) :: fields =>
      if key = k then (key, value) :: fields
      else if key < k then (key, value) :: (k, v) :: fields
      else (k, v) :: insertField key value fields

/-- `Value::get`. -/
def Value.get (key : String) : Value → Option Value
  | .object fields => (fields.find? fun f => f.1 == key).map Prod.snd
  | _ => none

/-- `Value::as_str`. -/
def Value.asStr : Value → Option String
  | .string s => some s
  | _ => none

/-- `serde_json`, and the parser of floating point numbers. -/
structure Serde where
  fromSlice : Bytes → Except String Value
  render : Value → String
  parseF64 : String → Option Value

/-- An error of a validator: the instance path, the message and the `Debug` text
of its kind. -/
structure ValidationError where
  instancePath : String
  message : String
  kind : String
  deriving DecidableEq, Repr

abbrev Validator := Value → List ValidationError

/-- `Compiled`. -/
structure Compiled where
  validator : Validator
  schema : Value

/-- `LeafSchema`. -/
structure LeafSchema where
  body : Option Validator
  query : Option Compiled
  params : Option Compiled

def LeafSchema.isEmpty (s : LeafSchema) : Bool :=
  s.body.isNone && s.query.isNone && s.params.isNone

def LeafSchema.hasBody (s : LeafSchema) : Bool := s.body.isSome

/-- `Issue`. -/
structure Issue where
  location : String
  path : String
  message : String
  code : String
  deriving DecidableEq, Repr

/-- `Validated`. -/
structure Validated where
  body : Option String
  query : Option String
  params : Option String
  deriving DecidableEq, Repr

def Validated.default : Validated := { body := none, query := none, params := none }

/-- `pointer_to_path`. -/
def pointerToPath (ptr : String) : String :=
  String.ofList ((ptr.toList.dropWhile (· = '/')).map fun c => if c = '/' then '.' else c)

/-- `kind_code`. -/
def kindCode (dbg : String) : String :=
  String.ofList (lower (dbg.toList.takeWhile fun c => c != ' ' && c != '(' && c != '{'))

/-- `collect`. -/
def collect (validator : Validator) (value : Value) (location : String) : List Issue :=
  (validator value).map fun e =>
    { location := location
      path := pointerToPath e.instancePath
      message := e.message
      code := kindCode e.kind }

/-- `str::parse::<i64>`. -/
def parseI64 (s : String) : Option Int :=
  let magnitude (cs : List Char) : Option Nat :=
    if cs.isEmpty then none else digitsValue 0 cs
  match s.toList with
  | '-' :: cs => (magnitude cs).bind fun n => if n ≤ 2 ^ 63 then some (-(n : Int)) else none
  | '+' :: cs => (magnitude cs).bind fun n => if n < 2 ^ 63 then some (n : Int) else none
  | cs => (magnitude cs).bind fun n => if n < 2 ^ 63 then some (n : Int) else none

/-- `coerce_scalar`. -/
def coerceScalar (serde : Serde) (raw : String) (propSchema : Option Value) : Value :=
  match (propSchema.bind (Value.get "type")).bind Value.asStr with
  | some "integer" => ((parseI64 raw).map fun n => .number (.int n)).getD (.string raw)
  | some "number" => (serde.parseF64 raw).getD (.string raw)
  | some "boolean" =>
      if raw = "true" then .bool true
      else if raw = "false" then .bool false
      else .string raw
  | _ => .string raw

/-- `coerce_query` and `coerce_params`: the last value of a key wins. -/
def coercePairs (serde : Serde) (pairs : List KvPair) (schema : Value) : Value :=
  let props := schema.get "properties"
  .object (pairs.foldl
    (fun fields kv =>
      insertField kv.key (coerceScalar serde kv.value (props.bind (Value.get kv.key))) fields)
    [])

/-- The body part of `validate`: the value handed on, and the issues. -/
def validateBody (serde : Serde) (validator : Option Validator) (body : Option Bytes) :
    Option String × List Issue :=
  match validator, body with
  | none, _ => (none, [])
  | some _, none =>
      (none, [{ location := "body", path := "", message := "body is required",
                code := "required" }])
  | some v, some bytes =>
      match serde.fromSlice bytes with
      | .ok value => (some (serde.render value), collect v value "body")
      | .error e =>
          (none, [{ location := "body", path := "", message := "invalid JSON: " ++ e,
                    code := "invalid_json" }])

/-- The query or params part of `validate`. -/
def validatePairs (serde : Serde) (compiled : Option Compiled) (pairs : List KvPair)
    (location : String) : Option String × List Issue :=
  match compiled with
  | none => (none, [])
  | some c =>
      let value := coercePairs serde pairs c.schema
      (some (serde.render value), collect c.validator value location)

/-- `LeafSchema::validate`. -/
def LeafSchema.validate (serde : Serde) (s : LeafSchema) (query params : List KvPair)
    (body : Option Bytes) : Except (List Issue) Validated :=
  let q := validatePairs serde s.query query "query"
  let p := validatePairs serde s.params params "params"
  let b := validateBody serde s.body body
  let issues := q.2 ++ p.2 ++ b.2
  if issues.isEmpty then .ok { body := b.1, query := q.1, params := p.1 }
  else .error issues

/-- Without a body validator the body is not looked at. -/
theorem validate_of_no_body (serde : Serde) {s : LeafSchema} (hs : s.hasBody = false)
    (query params : List KvPair) (body body' : Option Bytes) :
    s.validate serde query params body = s.validate serde query params body' := by
  have hnone : s.body = none := by simpa [LeafSchema.hasBody] using hs
  simp [LeafSchema.validate, validateBody, hnone]

end Schema
end OxideHttp
