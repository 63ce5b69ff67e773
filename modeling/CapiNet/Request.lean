import CapiNet.Spec

namespace CapiNet

namespace Request

def field (j : Json) (key : String) : Except String Json :=
  match j.get key with
  | none => .error ("missing field: " ++ key)
  | some v => .ok v

def reqInt64 (j : Json) (key : String) : Except String Int := do
  match ← field j key with
  | .int n => return Json.toInt64 n
  | _ => .error (key ++ " must be an integer")

def reqInt (j : Json) (key : String) (minValue : Int) : Except String Int := do
  let v ← reqInt64 j key
  if v < minValue ∨ Json.int32Max < v then .error (key ++ " out of range") else return v

def optInt (j : Json) (key : String) (minValue : Int) : Except String (Option Int) :=
  match j.get key with
  | none => .ok none
  | some _ => some <$> reqInt j key minValue

def reqDouble (j : Json) (key : String) : Except String Double := do
  match ← field j key with
  | .int n => return .ofInt n
  | .float d => return d
  | _ => .error (key ++ " must be a number")

def reqBool (j : Json) (key : String) : Except String Bool := do
  match ← field j key with
  | .bool b => return b
  | _ => .error (key ++ " must be a boolean")

def reqString (j : Json) (key : String) : Except String String := do
  match ← field j key with
  | .str s => return s
  | _ => .error (key ++ " must be a string")

end Request

/-- The smallest value of an `int`. -/
def int32Min : Int := -2 ^ 31

/-- The body of `PATCH /api/admin/tests/{id}`. -/
def patchPriority (body : Json) : Except String Int :=
  if !body.isObject then .error "body must be a JSON object"
  else Request.reqInt body "priority" int32Min

end CapiNet
