import FlowTyping.Checker.Hierarchy
import FlowTyping.Flow.Key

/-!
Stores: the refined qualifiers known at a program point. A key without an entry is at
the top, so an entry at the top says nothing, and stores are compared by what they
say. A transfer result is one store, or two that a test has split.
-/

namespace FlowTyping

/-- Entries in key order. The store of a point that nothing reaches is the identity
of the join. -/
structure Store where
  entries : List (FlowKey × Qualifier)
  top : Qualifier
  reachable : Bool
  deriving Repr

namespace Store

/-- The store of a reached point without any refinement. -/
def new (h : Hierarchy) : Store := ⟨[], h.top, true⟩

def unreachable (h : Hierarchy) : Store := ⟨[], h.top, false⟩

/-- Places an entry in key order, over an entry of the same key. -/
def insertEntry (key : FlowKey) (q : Qualifier) :
    List (FlowKey × Qualifier) → List (FlowKey × Qualifier)
  | [] => [(key, q)]
  | entry :: rest =>
      match key.compare entry.1 with
      | .lt => (key, q) :: entry :: rest
      | .eq => (key, q) :: rest
      | .gt => entry :: insertEntry key q rest

def get? (s : Store) (key : FlowKey) : Option Qualifier :=
  (s.entries.find? fun e => e.1 = key).map Prod.snd

def valueOrTop (s : Store) (key : FlowKey) : Qualifier := (s.get? key).getD s.top

def keys (s : Store) : List FlowKey := s.entries.map Prod.fst

def size (s : Store) : Nat := s.entries.length

def isEmpty (s : Store) : Bool := s.entries.isEmpty

/-- Sets the qualifier of a key that a store may hold. -/
def insert (s : Store) (key : FlowKey) (q : Qualifier) : Store :=
  if key.isRefinable then { s with entries := insertEntry key q s.entries } else s

def retain (s : Store) (keep : FlowKey → Bool) : Store :=
  { s with entries := s.entries.filter fun e => keep e.1 }

def remove (s : Store) (key : FlowKey) : Store := s.retain (· ≠ key)

/-- Narrows a key to the meet of its qualifier and another one. -/
def refine (s : Store) (h : Hierarchy) (key : FlowKey) (q : Qualifier) : Store :=
  s.insert key (h.meet (s.valueOrTop key) q)

/-- Forgets the keys that read a local variable. -/
def invalidateLocal (s : Store) (name : String) : Store :=
  s.retain fun key => !key.mentionsLocal name

/-- Forgets what a write to a field may change: the keys that read the field, and
the results of pure calls. -/
def invalidateField (s : Store) (name : String) : Store :=
  s.retain fun key => !key.mentionsField name && !key.isPureCall

/-- Forgets what an arbitrary call may change. -/
def invalidateHeap (s : Store) : Store := s.retain fun key => !key.isHeapDependent

/-- The join of the qualifiers of a key. A key that one side lacks is at the top. -/
def joinValue (h : Hierarchy) : Option Qualifier → Option Qualifier → Qualifier
  | some a, some b => h.join a b
  | _, _ => h.top

/-- The least store above two others. Every key of either one has an entry. -/
def join (h : Hierarchy) (a b : Store) : Store :=
  if !a.reachable then b
  else if !b.reachable then a
  else
    let keys := (a.keys ++ b.keys).foldl (fun found key => insertEntry key h.top found) []
    { entries := keys.map fun e => (e.1, joinValue h (a.get? e.1) (b.get? e.1))
      top := a.top
      reachable := true }

/-- Whether every key of a store is at or below its qualifier in another one. -/
def isSubsumedBy (h : Hierarchy) (a b : Store) : Bool :=
  !a.reachable || (b.reachable &&
    (b.keys ++ a.keys).all fun key => h.isSubtype (a.valueOrTop key) (b.valueOrTop key))

/-- Whether two stores say the same. -/
def same (a b : Store) : Bool :=
  a.reachable = b.reachable &&
    (a.keys ++ b.keys).all fun key => a.valueOrTop key = b.valueOrTop key

def text (h : Hierarchy) (s : Store) : String :=
  if s.reachable then
    "\x7b" ++ Text.join ", " (s.entries.map fun e => e.1.text ++ ": " ++ h.name e.2) ++ "\x7d"
  else "unreachable"

end Store

/-- What leaves a node or a block. -/
inductive TransferResult where
  | regular (store : Store)
  | split (thenStore elseStore : Store)
  deriving Repr

namespace TransferResult

/-- The store after the test came out true. -/
def thenStore : TransferResult → Store
  | regular store => store
  | split thenStore _ => thenStore

/-- The store after the test came out false. -/
def elseStore : TransferResult → Store
  | regular store => store
  | split _ elseStore => elseStore

/-- The store on either outcome. -/
def collapse (h : Hierarchy) : TransferResult → Store
  | regular store => store
  | split thenStore elseStore => thenStore.join h elseStore

/-- Exchanges the outcomes of the test. -/
def swap : TransferResult → TransferResult
  | regular store => regular store
  | split thenStore elseStore => split elseStore thenStore

def isReachable (r : TransferResult) : Bool := r.thenStore.reachable || r.elseStore.reachable

/-- Two split results are joined outcome by outcome, all others after a collapse. -/
def join (h : Hierarchy) : TransferResult → TransferResult → TransferResult
  | split t e, split t' e' => split (t.join h t') (e.join h e')
  | a, b => regular ((a.collapse h).join h (b.collapse h))

def isSubsumedBy (h : Hierarchy) (a b : TransferResult) : Bool :=
  a.thenStore.isSubsumedBy h b.thenStore && a.elseStore.isSubsumedBy h b.elseStore

/-- Whether two results have the same shape and say the same. -/
def same : TransferResult → TransferResult → Bool
  | regular a, regular b => a.same b
  | split t e, split t' e' => t.same t' && e.same e'
  | _, _ => false

def text (h : Hierarchy) : TransferResult → String
  | regular store => store.text h
  | split thenStore elseStore =>
      "then " ++ thenStore.text h ++ " else " ++ elseStore.text h

end TransferResult

end FlowTyping
