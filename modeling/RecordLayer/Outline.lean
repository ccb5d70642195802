/-! # Outlines

An outline is the part of a value that may be shown: it names the parts of a structure and can
leave some of them out.
-/

namespace RecordLayer

inductive Outline
  | plain (text : String)
  | quoted (text : String)
  | list (items : List Outline)
  | applied (name : String) (item : Outline)
  /-- A structure, which may have more parts than are shown. -/
  | record (name : String) (fields : List (String × Outline)) (partly : Bool)

namespace Outline

def number (n : Nat) : Outline := plain (toString n)

def flag (b : Bool) : Outline := plain (if b then "true" else "false")

def bytes (x : List UInt8) : Outline := list (x.map fun b => number b.toNat)

mutual

def render : Outline → String
  | plain text => text
  | quoted text => "\"" ++ text ++ "\""
  | list items => "[" ++ ", ".intercalate (renderAll items) ++ "]"
  | applied name item => name ++ "(" ++ item.render ++ ")"
  | record name fields partly =>
    name ++ " \x7b " ++ ", ".intercalate (renderFields fields ++ if partly then [".."] else []) ++
      " \x7d"

def renderAll : List Outline → List String
  | [] => []
  | item :: items => item.render :: renderAll items

def renderFields : List (String × Outline) → List String
  | [] => []
  | (name, item) :: fields => (name ++ ": " ++ item.render) :: renderFields fields

end

end Outline

end RecordLayer
