import Treewalk.Diagnostic

/-! Values. Functions, classes and instances are known by their place in the heap, and two of them are
equal when they are the same one. -/
namespace Treewalk

structure FrameId where
  index : Nat
  deriving DecidableEq, Repr

structure FunctionId where
  index : Nat
  deriving DecidableEq, Repr

structure ClassId where
  index : Nat
  deriving DecidableEq, Repr

structure InstanceId where
  index : Nat
  deriving DecidableEq, Repr

inductive Value where
  | nil
  | bool (value : Bool)
  | number (value : Float)
  | string (contents : String)
  | function (id : FunctionId)
  | classObject (id : ClassId)
  | instanceObject (id : InstanceId)
  deriving DecidableEq, Repr

namespace Value

def isTruthy : Value → Bool
  | .nil => false
  | .bool b => b
  | _ => true

def typeTag : Value → TypeTag
  | .nil => .nil
  | .bool _ => .boolean
  | .number _ => .number
  | .string _ => .string
  | .function _ => .function
  | .classObject _ => .classObject
  | .instanceObject _ => .instanceObject

/-- Equality of the language. Values of different kinds differ; numbers compare as numbers, so that zero
equals negative zero and what is not a number differs from itself. -/
def equals : Value → Value → Bool
  | .nil, .nil => true
  | .bool a, .bool b => a == b
  | .number a, .number b => a == b
  | .string a, .string b => a == b
  | .function a, .function b => a == b
  | .classObject a, .classObject b => a == b
  | .instanceObject a, .instanceObject b => a == b
  | _, _ => false

end Value
end Treewalk
