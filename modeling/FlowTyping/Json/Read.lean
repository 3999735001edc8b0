import FlowTyping.Json.Token

/-!
Reading a document from its tokens: one pass over them with the containers that
are still open kept in a list.
-/

namespace FlowTyping

namespace Json

/-- A container still open, its parts newest first. -/
inductive Frame where
  | items (done : List Json)
  | members (done : List (Option String × Json))
  | member (done : List (Option String × Json)) (key : Option String)

/-- What may come next. -/
inductive Expect where
  | value
  | itemOrClose
  | keyOrClose
  | key
  | colon (key : Option String)
  | after (value : Json)

/-- A finished object. A name with an unpaired surrogate leaves nothing of it. -/
def closeMembers (done : List (Option String × Json)) : Json :=
  match done.reverse.mapM fun f => f.1.map (·, f.2) with
  | some fields => .obj fields
  | none => .unreadable

def ofText : Option String → Json
  | some s => .str s
  | none => .unreadable

/-- The start of a value. -/
def startValue (frames : List Frame) : Token → Option (List Frame × Expect)
  | .null => some (frames, .after .null)
  | .bool b => some (frames, .after (.bool b))
  | .num n => some (frames, .after (.num n))
  | .text content => some (frames, .after (ofText content))
  | .openBracket => some (.items [] :: frames, .itemOrClose)
  | .openBrace => some (.members [] :: frames, .keyOrClose)
  | _ => none

/-- One token, in the context of the open containers. -/
def step : List Frame → Expect → Token → Option (List Frame × Expect)
  | frames, .value, token => startValue frames token
  | .items done :: outer, .itemOrClose, .closeBracket =>
      some (outer, .after (.arr done.reverse))
  | frames, .itemOrClose, token => startValue frames token
  | .members done :: outer, .keyOrClose, .closeBrace =>
      some (outer, .after (closeMembers done))
  | frames, .keyOrClose, .text key => some (frames, .colon key)
  | frames, .key, .text key => some (frames, .colon key)
  | .members done :: outer, .colon key, .colon => some (.member done key :: outer, .value)
  | .items done :: outer, .after v, .comma => some (.items (v :: done) :: outer, .value)
  | .items done :: outer, .after v, .closeBracket =>
      some (outer, .after (.arr (v :: done).reverse))
  | .member done key :: outer, .after v, .comma =>
      some (.members ((key, v) :: done) :: outer, .key)
  | .member done key :: outer, .after v, .closeBrace =>
      some (outer, .after (closeMembers ((key, v) :: done)))
  | _, _, _ => none

/-- The value that the remaining tokens complete. -/
def run : List Frame → Expect → List Token → Option Json
  | [], .after v, [] => some v
  | _, _, [] => none
  | frames, expect, token :: rest =>
      match step frames expect token with
      | some (frames, expect) => run frames expect rest
      | none => none

def ofTokens? (tokens : List Token) : Option Json := run [] .value tokens

/-- The document that a text spells, however deep it is. -/
def parse? (text : String) : Option Json := (Token.scan text.toList).bind ofTokens?

mutual

/-- A document in which arrays and objects past a depth are unreadable. -/
def within : Nat → Json → Json
  | 0, .arr _ => .unreadable
  | 0, .obj _ => .unreadable
  | limit + 1, .arr items => .arr (itemsWithin limit items)
  | limit + 1, .obj fields => .obj (fieldsWithin limit fields)
  | _, v => v

def itemsWithin (limit : Nat) : List Json → List Json
  | [] => []
  | v :: rest => within limit v :: itemsWithin limit rest

def fieldsWithin (limit : Nat) : List (String × Json) → List (String × Json)
  | [] => []
  | (k, v) :: rest => (k, within limit v) :: fieldsWithin limit rest

end

/-- The document that a text spells, as deep as it can be read. -/
def read? (text : String) : Option Json := (parse? text).map (within nestingLimit)

end Json

end FlowTyping
