import Treewalk.Syntax
import Treewalk.Text.Number
import Treewalk.Frames

/-! The heap: frames, function values, classes and instances, each in the order of its making. Nothing is
ever removed, so a value of the program stays valid. -/
namespace Treewalk

structure Function where
  decl : FunctionDecl
  closure : FrameId
  isInitializer : Bool

structure HostView where
  display : Value → String
  seconds : Float

structure Native where
  name : String
  arity : Nat
  run : HostView → List Value → Except String Value

inductive Callable where
  | function (f : Function)
  | native (n : Native)

/-- A class: methods for its instances, which see `this`, and methods of its own, which do not. -/
structure Class where
  name : String
  superclass : Option ClassId
  methods : Table Function
  classMethods : Table Function

structure Instance where
  cls : ClassId
  fields : Table Value

structure Heap where
  frames : Frames
  callables : Array Callable
  classes : Array Class
  instances : Array Instance

inductive Callee where
  | callable (c : Callable)
  | construct (cls : ClassId)

def Callable.text : Callable → String
  | .function f =>
    match f.decl.name with
    | some name => "<fn " ++ name.name ++ ">"
    | none => "<lambda>"
  | .native n => "<native fn " ++ n.name ++ ">"

namespace Heap

def empty : Heap := ⟨.empty, #[], #[], #[]⟩

def callable? (h : Heap) (id : FunctionId) : Option Callable := h.callables[id.index]?

def class? (h : Heap) (id : ClassId) : Option Class := h.classes[id.index]?

def instance? (h : Heap) (id : InstanceId) : Option Instance := h.instances[id.index]?

def className (h : Heap) (id : ClassId) : String :=
  match h.class? id with
  | some c => c.name
  | none => ""

def instanceClassName (h : Heap) (id : InstanceId) : String :=
  match h.instance? id with
  | some i => h.className i.cls
  | none => ""

def display (h : Heap) : Value → String
  | .nil => "nil"
  | .bool true => "true"
  | .bool false => "false"
  | .number x => Number.text .value x
  | .string s => s
  | .function id =>
    match h.callable? id with
    | some c => c.text
    | none => ""
  | .classObject id => h.className id
  | .instanceObject id => h.instanceClassName id ++ " instance"

def findAlong (h : Heap) (table : Class → Table Function) (name : String) : Nat → ClassId → Option Function
  | 0, _ => none
  | more + 1, id =>
    match h.class? id with
    | none => none
    | some c =>
      match (table c).find? name, c.superclass with
      | some f, _ => some f
      | none, some superclass => h.findAlong table name more superclass
      | none, none => none

/-- A method for the instances of a class. No line of superclasses is longer than there are classes. -/
def findMethod? (h : Heap) (id : ClassId) (name : String) : Option Function :=
  h.findAlong Class.methods name h.classes.size id

def findClassMethod? (h : Heap) (id : ClassId) (name : String) : Option Function :=
  h.findAlong Class.classMethods name h.classes.size id

def callee? (h : Heap) : Value → Option Callee
  | .function id => (h.callable? id).map .callable
  | .classObject id => some (.construct id)
  | _ => none

def arity (h : Heap) : Callee → Nat
  | .callable (.function f) => f.decl.arity
  | .callable (.native n) => n.arity
  | .construct cls =>
    match h.findMethod? cls "init" with
    | some f => f.decl.arity
    | none => 0

end Heap
end Treewalk
