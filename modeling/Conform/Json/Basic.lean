import Conform.Number.Binary64

namespace Conform

/-- A JSON document. An object keeps its fields in order, repeated names included. -/
inductive Json where
  | null
  | bool (b : Bool)
  | integer (n : Int)
  | float (x : Number.Binary64)
  | string (text : String)
  | array (items : List Json)
  | object (fields : List (String × Json))

instance : Inhabited Json := ⟨.null⟩

namespace Json

/-- Adds a field at its place in sorted fields, unless its name is there already. -/
def insertNew (name : String) (j : Json) : List (String × Json) → List (String × Json)
  | [] => [(name, j)]
  | (other, k) :: rest =>
    if name = other then (other, k) :: rest
    else if name < other then (name, j) :: (other, k) :: rest
    else (other, k) :: insertNew name j rest

mutual

/-- The document as a tree whose objects are sorted maps holds it: the fields of every object are in
the order of their names, and of repeated names the last one counts. -/
def sorted : Json → Json
  | .array items => .array (sortedItems items)
  | .object fields => .object (sortedFields fields)
  | j => j

def sortedItems : List Json → List Json
  | [] => []
  | j :: rest => sorted j :: sortedItems rest

def sortedFields : List (String × Json) → List (String × Json)
  | [] => []
  | (name, j) :: rest => insertNew name (sorted j) (sortedFields rest)

end

mutual

/-- The document as it can be written: JSON has no text for a float that is not finite. -/
def writable : Json → Json
  | .float x => if x.isFinite then .float x else .null
  | .array items => .array (writableItems items)
  | .object fields => .object (writableFields fields)
  | j => j

def writableItems : List Json → List Json
  | [] => []
  | j :: rest => writable j :: writableItems rest

def writableFields : List (String × Json) → List (String × Json)
  | [] => []
  | (name, j) :: rest => (name, writable j) :: writableFields rest

end

end Json

end Conform
