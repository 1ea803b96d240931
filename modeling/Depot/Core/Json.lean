import Mathlib.Data.List.Basic

/-!
# JSON values

`serde_json::Value` and how the program reads it.
-/

namespace Depot

/-- `serde_json::Value`. -/
inductive Json where
  | null
  | bool (b : Bool)
  | number (text : String)
  | string (s : String)
  | array (items : List Json)
  | object (fields : List (String × Json))

namespace Json

/-- `value.get(key)`. -/
def get (key : String) : Json → Option Json
  | .object fields => (fields.find? fun f => decide (f.1 = key)).map Prod.snd
  | _ => none

/-- `as_str`. -/
def asStr : Json → Option String
  | .string s => some s
  | _ => none

/-- `as_array`. -/
def asArray : Json → Option (List Json)
  | .array items => some items
  | _ => none

/-- `as_object`. -/
def asObject : Json → Option (List (String × Json))
  | .object fields => some fields
  | _ => none

/-- `Map::get`. -/
def lookup (key : String) (fields : List (String × Json)) : Option Json := (object fields).get key

end Json

end Depot
