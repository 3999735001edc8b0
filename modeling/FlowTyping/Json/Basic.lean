import FlowTyping.Number.Numeral

/-!
Documents: values with their fields in written order, repeated ones included,
and numbers as they are spelled.
-/

namespace FlowTyping

/-- A document. `unreadable` stands for text that follows the grammar and yet has
no value: an unpaired surrogate, or nesting past the limit. -/
inductive Json where
  | null
  | bool (value : Bool)
  | num (value : Numeral)
  | str (value : String)
  | arr (items : List Json)
  | obj (fields : List (String × Json))
  | unreadable
  deriving Repr, Inhabited

namespace Json

def int (n : Int) : Json := .num (.ofInt n)

def nat (n : Nat) : Json := .num (.ofNat n)

def double (x : Double) : Json := .num (.ofDouble x)

/-- An object with one field. -/
def tagged (name : String) (value : Json) : Json := .obj [(name, value)]

def ofOption {α : Type} (write : α → Json) : Option α → Json
  | none => .null
  | some a => write a

def ofList {α : Type} (write : α → Json) (items : List α) : Json := .arr (items.map write)

/-- The greatest number of arrays and objects around a readable value. -/
def nestingLimit : Nat := 127

end Json

end FlowTyping
