/-!
# Data types

Types as far as refactorings need them: whether a type is a collection, whether it has a length and
an indexer, and what its elements are. A type of which nothing is known is `unknown`.
-/
namespace Refactory

/-- What is known of the type of an expression. -/
inductive DataType where
  /-- A type with a name and type arguments. -/
  | named (name : String) (arguments : List DataType)
  /-- An array of elements. -/
  | array (element : DataType)
  /-- Nothing is known. -/
  | unknown
deriving Inhabited

/-- How an indexable collection is counted and what it holds. -/
structure CollectionShape where
  /-- The member that gives the number of elements. -/
  lengthMember : String
  /-- The type of the elements. -/
  element : DataType

namespace DataType

/-- The type of a name without type arguments. -/
def simple (name : String) : DataType := named name []

/-- The type of integers. -/
def int : DataType := simple "int"

/-- The type of texts. -/
def string : DataType := simple "string"

/-- The type of truth values. -/
def bool : DataType := simple "bool"

/-- The type of characters. -/
def char : DataType := simple "char"

/-- Nothing is known of the unknown type. -/
def isUnknown : DataType → Bool
  | unknown => true
  | _ => false

mutual

/-- The written form of a type. -/
def text : DataType → String
  | named name [] => name
  | named name (first :: rest) => name ++ "<" ++ text first ++ restText rest ++ ">"
  | array element => text element ++ "[]"
  | unknown => "?"

/-- The written forms of the type arguments after the first. -/
def restText : List DataType → String
  | [] => ""
  | type :: types => ", " ++ text type ++ restText types

end

/-- The names of the types of whole numbers. -/
def integralNames : List String :=
  ["int", "long", "short", "byte", "sbyte", "uint", "ulong", "ushort"]

/-- The names of generic types with a count and an indexer. -/
def indexableNames : List String :=
  ["List", "IList", "IReadOnlyList", "ImmutableArray", "ImmutableList"]

/-- The names of generic types whose elements can be visited, but not indexed. -/
def enumerableNames : List String :=
  ["IEnumerable", "ICollection", "IReadOnlyCollection", "HashSet", "ISet", "Queue"]

/-- The integral types are those of whole numbers. -/
def isIntegral : DataType → Bool
  | named name [] => integralNames.contains name
  | _ => false

/-- How a collection is counted and what it holds, for types with a length and an indexer. -/
def collectionShape? : DataType → Option CollectionShape
  | array element => some ⟨"Length", element⟩
  | named name [] => if name = "string" then some ⟨"Length", char⟩ else none
  | named name [element] =>
    if indexableNames.contains name then some ⟨"Count", element⟩ else none
  | _ => none

/-- The type of the elements of a type that has elements. -/
def elementType (type : DataType) : DataType :=
  match type.collectionShape? with
  | some shape => shape.element
  | none =>
    match type with
    | named name [element] => if enumerableNames.contains name then element else unknown
    | _ => unknown

/-- The type of sequences with elements of a type. -/
def enumerableOf (element : DataType) : DataType := named "IEnumerable" [element]

/-- The type of lists with elements of a type. -/
def listOf (element : DataType) : DataType := named "List" [element]

/-- A type with a number of array suffixes. -/
def withRank (type : DataType) : Nat → DataType
  | 0 => type
  | rank + 1 => array (withRank type rank)

end DataType

end Refactory
