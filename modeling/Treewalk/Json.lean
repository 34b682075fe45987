/-! JSON documents whose objects keep the order of their fields, and their indented text. -/
namespace Treewalk

inductive Json where
  | null
  | natural (n : Nat)
  | decimal (text : String)
  | string (contents : String)
  | list (items : List Json)
  | object (fields : List (String × Json))

namespace Json

def ofNat? : Option Nat → Json
  | some n => .natural n
  | none => .null

def tagged (tag : String) (payload : Json) : Json := .object [(tag, payload)]

def escape (c : Char) : List Char :=
  match c with
  | '"' => ['\\', '"']
  | '\\' => ['\\', '\\']
  | '\n' => ['\\', 'n']
  | '\t' => ['\\', 't']
  | '\r' => ['\\', 'r']
  | '\x08' => ['\\', 'b']
  | '\x0c' => ['\\', 'f']
  | c =>
    if c.toNat < 0x20 then
      ['\\', 'u', '0', '0', Nat.digitChar (c.toNat / 16), Nat.digitChar (c.toNat % 16)]
    else [c]

def quoted (s : String) : String := String.ofList ('"' :: s.toList.flatMap escape ++ ['"'])

def newline (level : Nat) : String := String.ofList ('\n' :: List.replicate (2 * level) ' ')

mutual

def pretty (level : Nat) : Json → String
  | .null => "null"
  | .natural n => Nat.repr n
  | .decimal text => text
  | .string contents => quoted contents
  | .list [] => "[]"
  | .list (item :: rest) =>
    "[" ++ newline (level + 1) ++ item.pretty (level + 1) ++ prettyItems (level + 1) rest ++
      newline level ++ "]"
  | .object [] => "\x7b\x7d"
  | .object ((key, value) :: rest) =>
    "\x7b" ++ newline (level + 1) ++ quoted key ++ ": " ++ value.pretty (level + 1) ++
      prettyFields (level + 1) rest ++ newline level ++ "\x7d"

def prettyItems (level : Nat) : List Json → String
  | [] => ""
  | item :: rest => "," ++ newline level ++ item.pretty level ++ prettyItems level rest

def prettyFields (level : Nat) : List (String × Json) → String
  | [] => ""
  | (key, value) :: rest =>
    "," ++ newline level ++ quoted key ++ ": " ++ value.pretty level ++ prettyFields level rest

end
end Json
end Treewalk
