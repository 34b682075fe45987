import Treewalk.Table
import Treewalk.Value

/-! Frames: the bindings of one activation of a scope, linked to the frame around it. A frame gets its
parent when it is made and keeps it. -/
namespace Treewalk

structure Frame where
  parent : Option FrameId
  bindings : Table Value
  deriving DecidableEq, Repr

structure Frames where
  cells : Array Frame
  deriving DecidableEq, Repr

namespace Frames

def empty : Frames := ⟨#[]⟩

def nextId (fs : Frames) : FrameId := ⟨fs.cells.size⟩

def add (fs : Frames) (frame : Frame) : Frames := ⟨fs.cells.push frame⟩

def addRoot (fs : Frames) : Frames := fs.add ⟨none, .empty⟩

def addChild (fs : Frames) (parent : FrameId) : Frames := fs.add ⟨some parent, .empty⟩

def frame? (fs : Frames) (id : FrameId) : Option Frame := fs.cells[id.index]?

def parent? (fs : Frames) (id : FrameId) : Option FrameId := (fs.frame? id).bind Frame.parent

def get? (fs : Frames) (id : FrameId) (name : String) : Option Value :=
  (fs.frame? id).bind (·.bindings.find? name)

def contains (fs : Frames) (id : FrameId) (name : String) : Bool := (fs.get? id name).isSome

def define (fs : Frames) (id : FrameId) (name : String) (value : Value) : Frames :=
  ⟨fs.cells.modify id.index fun f => { f with bindings := f.bindings.insert name value }⟩

@[inline] def assign? (fs : Frames) (id : FrameId) (name : String) (value : Value) : Option Frames :=
  if fs.contains id name then some (fs.define id name value) else none

def ancestor? (fs : Frames) (id : FrameId) : Nat → Option FrameId
  | 0 => some id
  | depth + 1 => (fs.parent? id).bind (fs.ancestor? · depth)

def climb (fs : Frames) : Nat → FrameId → FrameId
  | 0, id => id
  | steps + 1, id =>
    match fs.parent? id with
    | some parent => fs.climb steps parent
    | none => id

/-- The outermost frame around this one. A chain of links has no more links than there are frames. -/
def outermost (fs : Frames) (id : FrameId) : FrameId := fs.climb fs.cells.size id

def holder? (fs : Frames) (id : FrameId) (depth : Nat) (name : String) : Option FrameId :=
  (fs.ancestor? id depth).filter (fs.contains · name)

def globalHolder? (fs : Frames) (id : FrameId) (name : String) : Option FrameId :=
  (some (fs.outermost id)).filter (fs.contains · name)

def undefined (name : String) (line : Nat) : RuntimeError := ⟨line, .undefinedVariable name⟩

def getAt (fs : Frames) (id : FrameId) (depth : Nat) (name : String) (line : Nat) :
    Except RuntimeError Value :=
  match (fs.ancestor? id depth).bind (fs.get? · name) with
  | some value => .ok value
  | none => .error (undefined name line)

def getGlobal (fs : Frames) (id : FrameId) (name : String) (line : Nat) : Except RuntimeError Value :=
  match fs.get? (fs.outermost id) name with
  | some value => .ok value
  | none => .error (undefined name line)

@[inline] def assignAt (fs : Frames) (id : FrameId) (depth : Nat) (name : String) (value : Value)
    (line : Nat) : Except RuntimeError Frames :=
  match fs.holder? id depth name with
  | some holder => .ok (fs.define holder name value)
  | none => .error (undefined name line)

@[inline] def assignGlobal (fs : Frames) (id : FrameId) (name : String) (value : Value) (line : Nat) :
    Except RuntimeError Frames :=
  match fs.globalHolder? id name with
  | some holder => .ok (fs.define holder name value)
  | none => .error (undefined name line)

end Frames
end Treewalk
