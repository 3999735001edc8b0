import FlowTyping.Json.Basic

/-!
Reading typed values from documents. A record is an object of its fields or an
array of them in declared order; a choice is a bare name or an object with one
field.
-/

namespace FlowTyping

namespace Json

def string? : Json → Option String
  | .str s => some s
  | _ => none

def bool? : Json → Option Bool
  | .bool b => some b
  | _ => none

def double? : Json → Option Double
  | .num n => n.toDouble?
  | _ => none

/-- A whole number of 64 bits without sign. -/
def unsigned? : Json → Option Nat
  | .num n =>
      match n.toInt? with
      | some (.ofNat k) => some k
      | _ => none
  | _ => none

/-- A whole number of 64 bits with sign. -/
def signed? : Json → Option Int
  | .num n =>
      match n.toInt? with
      | some k => if k ≤ 9223372036854775807 then some k else none
      | none => none
  | _ => none

/-- A string of exactly one character. -/
def char? : Json → Option Char
  | .str s =>
      match s.toList with
      | [c] => some c
      | _ => none
  | _ => none

def list? {α : Type} (read : Json → Option α) : Json → Option (List α)
  | .arr items => items.mapM read
  | _ => none

def optional? {α : Type} (read : Json → Option α) : Json → Option (Option α)
  | .null => some none
  | v => (read v).map some

/-- The fields of a record by name. Other names are ignored; a name given twice,
and an array longer than the record, are no record. -/
def record? (names : List String) : Json → Option (String → Option Json)
  | .obj fields =>
      if names.all fun name => (fields.filter fun f => f.1 = name).length ≤ 1 then
        some fun name => (fields.find? fun f => f.1 = name).map Prod.snd
      else none
  | .arr items =>
      if items.length ≤ names.length then
        some fun name => items[names.idxOf name]?
      else none
  | _ => none

/-- A field that must be given. -/
def required {α : Type} (read : Json → Option α) (field : Option Json) : Option α :=
  field.bind read

/-- A field that has a value of its own when it is not given. -/
def defaulted {α : Type} (read : Json → Option α) (absent : α) (field : Option Json) : Option α :=
  match field with
  | none => some absent
  | some v => read v

/-- A field that may be missing or null. -/
def nullable {α : Type} (read : Json → Option α) (field : Option Json) : Option (Option α) :=
  defaulted (optional? read) none field

/-- The name of a choice and what is given with it. -/
def choice? : Json → Option (String × Option Json)
  | .str name => some (name, none)
  | .obj [(name, v)] => some (name, some v)
  | _ => none

/-- A choice among names that carry nothing: the bare name, or the name with null. -/
def name? {α : Type} (names : List (String × α)) (v : Json) : Option α := do
  let (name, payload) ← v.choice?
  match payload with
  | none | some .null => (names.find? fun n => n.1 = name).map Prod.snd
  | _ => none

mutual

/-- The number of arrays and objects nested in a document. -/
def depth : Json → Nat
  | .arr items => itemsDepth items + 1
  | .obj fields => fieldsDepth fields + 1
  | _ => 0

def itemsDepth : List Json → Nat
  | [] => 0
  | v :: rest => max (depth v) (itemsDepth rest)

def fieldsDepth : List (String × Json) → Nat
  | [] => 0
  | (_, v) :: rest => max (depth v) (fieldsDepth rest)

end

end Json

end FlowTyping
