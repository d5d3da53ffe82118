/-
# The cJSON library

cJSON is not part of the repository, so what the program uses of it is a parameter. A
node stands for the whole tree below it, and a pointer that may be `NULL` is an
`Option`. The lookups of an absent node are absent, and reading a field of an absent
node is undefined; both are what the library does with `NULL`.
-/

import Mathlib.Algebra.Order.Ring.Int
import Mathlib.Data.List.Nodup
import BliveQueue.Math.CharBuffer

namespace BliveQueue.Utils

open BliveQueue.Math.CharBuffer

/-- The functions and fields of cJSON that the program reads. -/
structure CJson (Json : Type) where
  /-- `cJSON_Parse`. -/
  parse : Option CString → Option Json
  /-- `cJSON_PrintBuffered`. -/
  printBuffered : Option Json → Option CString
  /-- The children of an array or object, which `cJSON_GetArrayItem` counts. -/
  children : Json → List Json
  /-- `cJSON_GetObjectItem` on a node. -/
  member : Json → List UInt8 → Option Json
  /-- `type == cJSON_True`. -/
  isTrue : Json → Bool
  /-- `valueint`. -/
  valueint : Json → Int32
  /-- `valuestring`. -/
  valuestring : Json → Option CString
  /-- A list after `cJSON_SetValuestring` on a member of its item at some index. -/
  setItemString : Json → ℕ → List UInt8 → CString → Json

namespace CJson

variable {Json : Type} (cjson : CJson Json)

/-- `cJSON_GetObjectItem`. -/
def getObjectItem (object : Option Json) (name : String) : Option Json :=
  object.bind fun object => cjson.member object (literal name)

/-- `cJSON_GetArrayItem`. -/
def getArrayItem (array : Option Json) (index : ℕ) : Option Json :=
  array.bind fun array => (cjson.children array)[index]?

/-- `item->type == cJSON_True ? True : False`. -/
def flag (item : Option Json) : Option Bool := item.map cjson.isTrue

/-- `item->valueint`. -/
def int (item : Option Json) : Option Int32 := item.map cjson.valueint

/-- The string that `item->valuestring` points to. -/
def text (item : Option Json) : Option CString := item.bind cjson.valuestring

/-- Printing a tree and parsing the text gives back an equal tree; `NULL` is printed as
`NULL`, and parsed as `NULL`. -/
def RoundTrips : Prop := ∀ item, cjson.parse (cjson.printBuffered item) = item

/-- `valueint` is the number of a node, saturated to the range of a C `int`. -/
def Saturates (number : Json → Option ℤ) : Prop :=
  ∀ item n, number item = some n →
    (cjson.valueint item).toInt = max (-2 ^ 31) (min n (2 ^ 31 - 1))

/-- The `valueint` of a string is zero. -/
def ZeroStrings : Prop :=
  ∀ item text, cjson.valuestring item = some text → cjson.valueint item = 0

/-! ## Trees that are written out -/

/-- What kind of node a tree has at some place, with names for the places below it. -/
inductive Shape (Node : Type)
  | flag (value : Bool)
  | number (value : ℤ)
  | string (value : String)
  | array (items : List Node)
  | object (members : List (String × Node))

namespace Shape

variable {Node : Type} (shape : Node → Shape Node)

/-- The compact text of a tree of some depth whose strings need no escapes. -/
def print : ℕ → Node → List UInt8
  | 0, _ => []
  | depth + 1, node =>
    match shape node with
    | .flag value => literal (if value then "true" else "false")
    | .number value => literal (toString value)
    | .string value => literal "\"" ++ (literal value ++ literal "\"")
    | .array items =>
      literal "[" ++ ((literal ",").intercalate (items.map (print depth)) ++ literal "]")
    | .object members =>
      literal "\x7b" ++ ((literal ",").intercalate (members.map fun member =>
        literal "\"" ++ (literal member.1 ++ (literal "\":" ++ print depth member.2))) ++
          literal "\x7d")

/-- The items of an array, or the values of an object. -/
def children : Shape Node → List Node
  | .array items => items
  | .object members => members.map Prod.snd
  | _ => []

/-- The value of an object under a name. -/
def member (name : List UInt8) : Shape Node → Option Node
  | .object members => (members.find? fun member => literal member.1 = name).map Prod.snd
  | _ => none

/-- `type == cJSON_True`. -/
def isTrue : Shape Node → Bool
  | .flag value => value
  | _ => false

/-- The number of a node. -/
def numberOf : Shape Node → Option ℤ
  | .number value => some value
  | _ => none

/-- `valueint`: strings have the value 0, and `true` has the value 1. -/
def valueint : Shape Node → Int32
  | .number value => Int32.ofInt (max (-2 ^ 31) (min value (2 ^ 31 - 1)))
  | .flag true => 1
  | _ => 0

/-- `valuestring`. -/
def valuestring : Shape Node → Option CString
  | .string value => toCString (literal value ++ [0])
  | _ => none

end Shape

/-- cJSON on the trees that are written out for some places. -/
def ofShape {Node : Type} (shape : Node → Shape Node) (nodes : List Node) (depth : ℕ) :
    CJson Node where
  parse source := source.bind fun source =>
    nodes.find? fun node => Shape.print shape depth node = source.val
  printBuffered item := item.bind fun node => toCString (Shape.print shape depth node ++ [0])
  children node := (shape node).children
  member node name := (shape node).member name
  isTrue node := (shape node).isTrue
  valueint node := (shape node).valueint
  valuestring node := (shape node).valuestring
  setItemString list _ _ _ := list

/-- Trees whose texts differ are parsed back from their texts. -/
theorem ofShape_roundTrips {Node : Type} {shape : Node → Shape Node} {nodes : List Node}
    {depth : ℕ} (hall : ∀ node, node ∈ nodes)
    (hdistinct : (nodes.map (Shape.print shape depth)).Nodup)
    (hnul : ∀ node ∈ nodes, 0 ∉ Shape.print shape depth node) :
    (ofShape shape nodes depth).RoundTrips := by
  intro item
  cases item with
  | none => rfl
  | some node =>
      have hholds : Holds (Shape.print shape depth node ++ [0]) (Shape.print shape depth node) :=
        ⟨hnul node (hall node), [], rfl⟩
      have hprinted : (ofShape shape nodes depth).printBuffered (some node) =
          some ⟨Shape.print shape depth node, hnul node (hall node)⟩ := hholds.toCString_eq
      rw [hprinted]
      show nodes.find? (fun other => Shape.print shape depth other =
        Shape.print shape depth node) = some node
      cases hfind : nodes.find? fun other =>
          Shape.print shape depth other = Shape.print shape depth node with
      | none => simpa using List.find?_eq_none.mp hfind node (hall node)
      | some other =>
          have hsame : Shape.print shape depth other = Shape.print shape depth node := by
            simpa using List.find?_some hfind
          rw [List.inj_on_of_nodup_map hdistinct (hall other) (hall node) hsame]

/-- The numbers of trees that are written out are saturated. -/
theorem ofShape_saturates {Node : Type} (shape : Node → Shape Node) (nodes : List Node)
    (depth : ℕ) : (ofShape shape nodes depth).Saturates fun node => (shape node).numberOf := by
  intro node n hnumber
  show ((shape node).valueint).toInt = _
  have hnumber : (shape node).numberOf = some n := hnumber
  cases hshape : shape node with
  | number value =>
      rw [hshape] at hnumber
      obtain rfl : value = n := Option.some.inj hnumber
      exact Int32.toInt_ofInt_of_le (by omega) (by omega)
  | flag value => simp [hshape, Shape.numberOf] at hnumber
  | string value => simp [hshape, Shape.numberOf] at hnumber
  | array items => simp [hshape, Shape.numberOf] at hnumber
  | object members => simp [hshape, Shape.numberOf] at hnumber

/-- Only the strings of trees that are written out have a text. -/
theorem ofShape_zeroStrings {Node : Type} (shape : Node → Shape Node) (nodes : List Node)
    (depth : ℕ) : (ofShape shape nodes depth).ZeroStrings := by
  intro node text htext
  show (shape node).valueint = 0
  have htext : (shape node).valuestring = some text := htext
  cases hshape : shape node with
  | string value => rfl
  | flag value => simp [hshape, Shape.valuestring] at htext
  | number value => simp [hshape, Shape.valuestring] at htext
  | array items => rfl
  | object members => rfl

end CJson

end BliveQueue.Utils
