import CacheNode.Bytes

/-!
# CacheNode — JSON values

A JSON value keeps what later reading may depend on: a number keeps its spelling, and an object
keeps its members in order, repeated names included. A quoted text that is well-formed as a
quotation may still spell no text, because its bytes are no UTF-8 or because it escapes half of
a surrogate pair; such a text is `none`. It can be passed over but not used.
-/

namespace CacheNode

/-- A JSON value. -/
inductive Json where
  | null
  | bool (value : Bool)
  /-- a number in its own spelling -/
  | number (spelling : List Char)
  /-- a quoted text, if it spells one -/
  | text (value : Option String)
  | array (items : List Json)
  | object (members : List (Option String × Json))
deriving Inhabited, Repr

namespace Json

/-- The members of an object that have a name. -/
def members (name : String) (all : List (Option String × Json)) : List Json :=
  (all.filter fun m => m.1 = some name).map Prod.snd

/-- The only member with a name; nothing if it is missing or repeated. -/
def member? (name : String) (all : List (Option String × Json)) : Option Json :=
  match members name all with
  | [v] => some v
  | _ => none

end Json

end CacheNode
