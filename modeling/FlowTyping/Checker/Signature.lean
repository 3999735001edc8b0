import FlowTyping.Checker.Hierarchy

/-!
Method signatures and field qualifiers. A declaration names its qualifiers, a
resolved signature holds them; the table keeps the first declaration of each name.
-/

namespace FlowTyping

/-- What a postcondition speaks about. -/
inductive PostconditionTarget where
  | receiver
  | argument (index : Nat)
  deriving DecidableEq, Repr

/-- After the call the target has the qualifier. -/
structure Postcondition (Q : Type) where
  target : PostconditionTarget
  qualifier : Q
  deriving DecidableEq, Repr

/-- When the call returns `result`, the target has the qualifier. -/
structure ConditionalPostcondition (Q : Type) where
  result : Bool
  target : PostconditionTarget
  qualifier : Q
  deriving DecidableEq, Repr

/-- The signature of a method over qualifiers `Q`. A parameter without a qualifier
accepts everything. A pure method writes nothing and answers alike each time. -/
structure MethodSignature (Q : Type) where
  name : String
  params : List (Option Q)
  receiver : Option Q
  returns : Option Q
  isPure : Bool
  ensures : List (Postcondition Q)
  ensuresIf : List (ConditionalPostcondition Q)
  deriving DecidableEq, Repr

namespace MethodSignature

/-- An optional qualifier, resolved if there is one. -/
def resolveOption {Q R ε : Type} (resolve : Q → Except ε R) :
    Option Q → Except ε (Option R)
  | none => .ok none
  | some q => (resolve q).map some

/-- The signature with its qualifiers resolved, in declared order. -/
def resolve {Q R ε : Type} (s : MethodSignature Q) (f : Q → Except ε R) :
    Except ε (MethodSignature R) := do
  let params ← s.params.mapM (resolveOption f)
  let receiver ← resolveOption f s.receiver
  let returns ← resolveOption f s.returns
  let ensures ← s.ensures.mapM fun p => (f p.qualifier).map (Postcondition.mk p.target)
  let ensuresIf ← s.ensuresIf.mapM fun p =>
    (f p.qualifier).map (ConditionalPostcondition.mk p.result p.target)
  return { name := s.name, params, receiver, returns, isPure := s.isPure, ensures, ensuresIf }

/-- The targets of all postconditions, the unconditional ones first. -/
def targets {Q : Type} (s : MethodSignature Q) : List PostconditionTarget :=
  s.ensures.map Postcondition.target ++ s.ensuresIf.map ConditionalPostcondition.target

/-- The first argument that a postcondition names and the method does not take. -/
def outOfRange? {Q : Type} (s : MethodSignature Q) : Option Nat :=
  s.targets.findSome? fun
    | .receiver => none
    | .argument index => if index < s.params.length then none else some index

end MethodSignature

/-- Declared signatures and field qualifiers, in declared order. -/
structure SignatureTable where
  methods : List (MethodSignature Qualifier)
  fields : List (String × Qualifier)
  deriving DecidableEq, Repr

namespace SignatureTable

def empty : SignatureTable := ⟨[], []⟩

def method? (t : SignatureTable) (name : String) : Option (MethodSignature Qualifier) :=
  t.methods.find? fun s => s.name = name

def field? (t : SignatureTable) (name : String) : Option Qualifier :=
  (t.fields.find? fun f => f.1 = name).map Prod.snd

/-- Adds a signature whose postconditions are in range, unless the method has one. -/
def insert (t : SignatureTable) (s : MethodSignature Qualifier) :
    Except DeclarationError SignatureTable :=
  match s.outOfRange? with
  | some index => .error (.targetOutOfRange s.name index s.params.length)
  | none =>
      if (t.method? s.name).isSome then .error (.duplicateSignature s.name)
      else .ok { t with methods := t.methods ++ [s] }

/-- Gives a field its qualifier, unless it has one. -/
def declareField (t : SignatureTable) (name : String) (q : Qualifier) :
    Except DeclarationError SignatureTable :=
  if (t.field? name).isSome then .error (.duplicateField name)
  else .ok { t with fields := t.fields ++ [(name, q)] }

def isPure (t : SignatureTable) (method : String) : Bool :=
  (t.method? method).any MethodSignature.isPure

/-- The number of methods with a signature. -/
def size (t : SignatureTable) : Nat := t.methods.length

def isEmpty (t : SignatureTable) : Bool := t.methods.isEmpty

end SignatureTable

end FlowTyping
