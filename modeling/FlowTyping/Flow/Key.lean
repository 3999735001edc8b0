import FlowTyping.Text.Quoted

/-!
Flow keys: the expressions whose qualifier is tracked from one program point to the
next. The order of keys compares shapes first and then their parts; two keys are
equal exactly when the order cannot tell them apart.
-/

namespace FlowTyping

/-- A trackable expression. A pure call is trackable when its operands are; a literal
is one only as an argument. -/
inductive FlowKey where
  | local (name : String)
  | this
  | field (receiver : FlowKey) (name : String)
  | pureCall (receiver : Option FlowKey) (method : String) (args : List FlowKey)
  | literal (text : String)
  deriving Repr, Inhabited

namespace FlowKey

mutual

def compare : FlowKey → FlowKey → Ordering
  | .local a, .local b => Ord.compare a b
  | .local _, _ => .lt
  | _, .local _ => .gt
  | this, this => .eq
  | this, _ => .lt
  | _, this => .gt
  | field r a, field s b => (compare r s).then (Ord.compare a b)
  | field _ _, _ => .lt
  | _, field _ _ => .gt
  | pureCall r m as, pureCall s n bs =>
      (compareOption r s).then ((Ord.compare m n).then (compareList as bs))
  | pureCall _ _ _, literal _ => .lt
  | literal _, pureCall _ _ _ => .gt
  | literal a, literal b => Ord.compare a b

def compareOption : Option FlowKey → Option FlowKey → Ordering
  | none, none => .eq
  | none, some _ => .lt
  | some _, none => .gt
  | some a, some b => compare a b

def compareList : List FlowKey → List FlowKey → Ordering
  | [], [] => .eq
  | [], _ :: _ => .lt
  | _ :: _, [] => .gt
  | a :: as, b :: bs => (compare a b).then (compareList as bs)

end

mutual

theorem compare_eq_iff : (a b : FlowKey) → (compare a b = .eq ↔ a = b)
  | .local a, b => by cases b <;> simp [compare]
  | this, b => by cases b <;> simp [compare]
  | field r a, b => by cases b <;> simp [compare, Ordering.then_eq_eq, compare_eq_iff r]
  | pureCall r m as, b => by
      cases b <;>
        simp [compare, Ordering.then_eq_eq, compareOption_eq_iff r, compareList_eq_iff as]
  | literal a, b => by cases b <;> simp [compare]

theorem compareOption_eq_iff : (a b : Option FlowKey) → (compareOption a b = .eq ↔ a = b)
  | none, b => by cases b <;> simp [compareOption]
  | some a, b => by cases b <;> simp [compareOption, compare_eq_iff a]

theorem compareList_eq_iff : (a b : List FlowKey) → (compareList a b = .eq ↔ a = b)
  | [], b => by cases b <;> simp [compareList]
  | a :: as, b => by
      cases b <;>
        simp [compareList, Ordering.then_eq_eq, compare_eq_iff a, compareList_eq_iff as]

end

instance : DecidableEq FlowKey := fun a b => decidable_of_iff _ (compare_eq_iff a b)

mutual

def text : FlowKey → String
  | .local name => name
  | this => "this"
  | field receiver name => text receiver ++ "." ++ name
  | pureCall receiver method args =>
      receiverText receiver ++ method ++ "(" ++ Text.join ", " (listText args) ++ ")"
  | literal content => Text.quoted content

def receiverText : Option FlowKey → String
  | none => ""
  | some receiver => text receiver ++ "."

def listText : List FlowKey → List String
  | [] => []
  | k :: rest => text k :: listText rest

end

/-- Whether a store may hold the key. -/
def isRefinable : FlowKey → Bool
  | literal _ => false
  | _ => true

/-- Whether a write to the heap can change what the key stands for. -/
def isHeapDependent : FlowKey → Bool
  | field _ _ | pureCall _ _ _ => true
  | _ => false

def isPureCall : FlowKey → Bool
  | pureCall _ _ _ => true
  | _ => false

mutual

def mentionsLocal (name : String) : FlowKey → Bool
  | .local found => found = name
  | this | literal _ => false
  | field receiver _ => mentionsLocal name receiver
  | pureCall receiver _ args => optionMentionsLocal name receiver || anyMentionsLocal name args

def optionMentionsLocal (name : String) : Option FlowKey → Bool
  | none => false
  | some k => mentionsLocal name k

def anyMentionsLocal (name : String) : List FlowKey → Bool
  | [] => false
  | k :: rest => mentionsLocal name k || anyMentionsLocal name rest

end

mutual

def mentionsField (name : String) : FlowKey → Bool
  | .local _ | this | literal _ => false
  | field receiver found => found = name || mentionsField name receiver
  | pureCall receiver _ args => optionMentionsField name receiver || anyMentionsField name args

def optionMentionsField (name : String) : Option FlowKey → Bool
  | none => false
  | some k => mentionsField name k

def anyMentionsField (name : String) : List FlowKey → Bool
  | [] => false
  | k :: rest => mentionsField name k || anyMentionsField name rest

end

end FlowKey

end FlowTyping
