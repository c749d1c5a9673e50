/-!
# Interned texts

An interner gives each text a short name that never changes. Texts are spread over sixteen shards
by their first bytes; the name of a text is one word that holds its shard and its place in the
shard, so equal texts have equal names and different texts different ones. A new interner knows the
empty text and the common words of programs already.
-/
namespace Refactory

/-- The name of an interned text: one word whose four upper bits are the shard of the text and
whose lower bits are its place in the shard. -/
structure InternedName where
  /-- The word. -/
  word : UInt32
deriving DecidableEq, Inhabited

namespace InternedName

/-- The number of shards. -/
def shardCount : Nat := 16

/-- The last place that a shard has. -/
def lastPlace : UInt32 := 0x0FFFFFFF

/-- The name of a place in a shard. -/
def new (shard place : UInt32) : InternedName := ⟨(shard <<< 28) ||| place⟩

/-- The shard of a name. -/
def shard (name : InternedName) : Nat := (name.word >>> 28).toNat

/-- The place of a name in its shard. -/
def place (name : InternedName) : Nat := (name.word &&& lastPlace).toNat

/-- The name as a number. -/
def code (name : InternedName) : Nat := name.word.toNat

/-- The name of a number, which is the last one for a number that no word holds. -/
def ofCode (code : Nat) : InternedName := ⟨UInt32.ofNatClamp code⟩

end InternedName

/-- Why a text has no name. -/
inductive InternError where
  /-- Its shard has no place left. -/
  | shardOverflow (shard count : Nat)
deriving DecidableEq, Repr

/-- What the error says. -/
def InternError.message : InternError → String
  | .shardOverflow shard count =>
    "interner shard " ++ toString shard ++ " is full: " ++ toString count ++ " strings, max is "
      ++ toString InternedName.lastPlace

/-- A shard of an interner. -/
structure InternShard where
  /-- The place of each text, the last text first. -/
  places : List (String × UInt32)
  /-- The texts, each at its place. -/
  texts : Array String
deriving Inhabited

namespace InternShard

/-- The shard without texts. -/
def empty : InternShard := ⟨[], #[]⟩

/-- The shard of the empty text. -/
def withEmpty : InternShard := ⟨[("", 0)], #[""]⟩

/-- The shard with one more text, at a given place. -/
def add (shard : InternShard) (text : String) (place : UInt32) : InternShard :=
  ⟨(text, place) :: shard.places, shard.texts.push text⟩

end InternShard

/-- Texts with their names. -/
structure Interner where
  /-- The shards. -/
  shards : Array InternShard
  /-- The number of texts. -/
  size : Nat

namespace Interner

/-- The number of bytes of a text that decide on its shard. -/
def hashedBytes : Nat := 8

/-- The shard of a text: its first bytes as the digits of a word to the base 31, modulo the number
of shards. -/
def shardOf (text : String) : Nat :=
  let hash := (text.toUTF8.toList.take hashedBytes).foldl
    (fun hash byte => hash * 31 + byte.toUInt32) (0 : UInt32)
  hash.toNat % InternedName.shardCount

/-- A shard by its number. -/
def shard (interner : Interner) (number : Nat) : InternShard :=
  interner.shards[number]?.getD .empty

/-- The interner with one more text in a shard, at the next place. -/
def store (interner : Interner) (number : Nat) (text : String) : Interner :=
  let shard := interner.shard number
  ⟨interner.shards.setIfInBounds number (shard.add text (.ofNat shard.texts.size)),
    interner.size + 1⟩

/-- The name of a text, which is added to its shard if it is not there yet and the shard has a
place left. -/
def tryIntern (text : String) : StateT Interner (Except InternError) InternedName :=
  fun interner =>
    let number := shardOf text
    let shard := interner.shard number
    match shard.places.lookup text with
    | some place => .ok (.new (.ofNat number) place, interner)
    | none =>
      let count := shard.texts.size
      if count ≤ InternedName.lastPlace.toNat then
        .ok (.new (.ofNat number) (.ofNat count), interner.store number text)
      else .error (.shardOverflow number count)

/-- The name of a text in an interner that has a place for it. A program ends at a shard that
overflows; here the interner stays as it is. -/
def intern (text : String) : StateM Interner InternedName := fun interner =>
  match tryIntern text interner with
  | .ok named => named
  | .error _ => (default, interner)

/-- The text of a name, or the empty text for a name that was not given. -/
def lookup (interner : Interner) (name : InternedName) : String :=
  (interner.shard name.shard).texts[name.place]?.getD ""

/-- An interner is empty when it has no text but the empty one. -/
def isEmpty (interner : Interner) : Bool := interner.size ≤ 1

/-- The words that every interner knows. -/
def commonWords : List String :=
  ["for", "foreach", "in", "if", "else", "while", "return", "true", "false", "null", "ref", "out",
    "var", "int", "long", "short", "byte", "uint", "ulong", "string", "bool", "object", "Where",
    "Select", "All", "Any", "Count", "Length", "ToArray", "ToList", "First"]

/-- The names of texts that are interned in order. -/
def internAll (texts : List String) : StateM Interner (List InternedName) := texts.mapM intern

/-- The interner with the empty text only. -/
def blank : Interner :=
  ⟨(Array.replicate InternedName.shardCount .empty).setIfInBounds 0 .withEmpty, 1⟩

/-- The interner with the empty text and the common words. -/
def start : Interner := (internAll commonWords blank).2

end Interner

end Refactory
