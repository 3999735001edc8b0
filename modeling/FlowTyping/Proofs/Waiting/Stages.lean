import FlowTyping.Proofs.Lowering.Routing
import FlowTyping.Proofs.Waiting.Code

/-!
Values that wait. While an expression is built, the values of its parts wait for the node
that reads them. Each block has the values that wait whenever control enters it, and each
of them has been computed on every path to the block.

A value that waits is one that the code up to here has computed, for the statement that it
is in: when a statement takes effect, nothing waits any more. Every value is that of an
expression of the source, `U`, whose code has been listed by then.
-/

namespace FlowTyping

namespace NodeKind

/-- Whether the node is the effect of a statement and not a value. -/
def isEffect : NodeKind → Bool
  | localDecl _ | assign _ _ | returnValue _ | throw _ _ | assertFailure => true
  | _ => false

/-- The operands that one of several paths to a node computes. -/
def arms : NodeKind → List NodeId
  | shortCircuit _ _ rhs => [rhs]
  | ternaryMerge thenValue elseValue => [thenValue, elseValue]
  | _ => []

/-- The operands that every path to a node computes. -/
def direct : NodeKind → List NodeId
  | shortCircuit _ lhs _ => [lhs]
  | ternaryMerge _ _ => []
  | kind => kind.operands

theorem mem_operands {kind : NodeKind} {o : NodeId} :
    o ∈ kind.operands ↔ o ∈ kind.direct ∨ o ∈ kind.arms := by
  cases kind <;> simp [operands, direct, arms]

/-- An assignment to a local variable, which follows its declaration if it initialises. -/
def setsLocal : NodeKind → Bool
  | assign (.local _) _ => true
  | _ => false

end NodeKind

namespace Exits

/-- The blocks that follow when nothing is raised. -/
def onward : Exits → List BlockId
  | openEnd => []
  | goto target => [target]
  | branch _ thenSuccessor elseSuccessor => [thenSuccessor, elseSuccessor]
  | raise successor _ _ => successor.toList
  | special _ successor => successor.toList

/-- The blocks that follow when something is raised. -/
def raised : Exits → List BlockId
  | raise _ handlers _ => handlers.map Prod.snd
  | _ => []

end Exits

/-- The nodes of a block run from the values that wait at its start to those that wait at
its end. -/
inductive Runs (nodes : Array Node) (before : List NodeId) :
    List NodeId → List NodeId → Prop
  | nil : Runs nodes before [] before
  | snoc {done waiting : List NodeId} {id : NodeId} {n : Node} :
      Runs nodes before done waiting → nodes[id]? = some n →
      (∀ o ∈ n.kind.direct, o ∈ before ∨ o ∈ done) →
      (n.kind.setsLocal = false → ∀ o ∈ n.kind.direct, o ∈ waiting) →
      Runs nodes before (done ++ [id]) (if n.kind.isEffect then [] else id :: waiting)

namespace Runs

variable {nodes nodes' : Array Node} {before done waiting : List NodeId}

theorem mono (h : Runs nodes before done waiting)
    (hnodes : ∀ (i : Nat) (n : Node), nodes[i]? = some n → nodes'[i]? = some n) :
    Runs nodes' before done waiting := by
  induction h with
  | nil => exact .nil
  | snoc _ hn hdirect hwaits ih => exact ih.snoc (hnodes _ _ hn) hdirect hwaits

theorem waiting_sub (h : Runs nodes before done waiting) {o : NodeId} (ho : o ∈ waiting) :
    o ∈ before ∨ o ∈ done := by
  induction h with
  | nil => exact .inl ho
  | snoc _ _ _ _ ih =>
      split at ho
      · cases ho
      · rcases List.mem_cons.mp ho with rfl | ho
        · exact .inr (by simp)
        · exact (ih ho).imp_right fun h => by simp [h]

theorem unique {done' waiting' : List NodeId} (h : Runs nodes before done waiting)
    (h' : Runs nodes before done' waiting') (hdone : done = done') : waiting = waiting' := by
  induction h generalizing done' waiting' with
  | nil =>
      cases h' with
      | nil => rfl
      | snoc => simp at hdone
  | snoc _ hn _ _ ih =>
      cases h' with
      | nil => simp at hdone
      | snoc h' hn' _ _ =>
          obtain ⟨rfl, hid⟩ := List.append_inj' hdone rfl
          cases hid
          rw [hn] at hn'
          cases hn'
          rw [ih h' rfl]

end Runs

/-- When a block was entered, among the blocks and among the nodes. -/
structure Entrance where
  time : Nat
  start : NodeId

/-- What is decided about a block: the values that wait when control enters it, and, once
its code has begun, when it began. -/
structure Stage where
  waits : List NodeId
  entered : Option Entrance

/-- The stages of the blocks of a construction. A block that nothing leads to yet has
none. -/
structure Stages where
  stage : Nat → Option Stage
  clock : Nat

namespace Stages

/-- Nothing waits when control enters the block. -/
def Flat (G : Stages) (i : Nat) : Prop := ∃ st, G.stage i = some st ∧ st.waits = []

def Entered (G : Stages) (i : Nat) : Prop := ∃ w e, G.stage i = some ⟨w, some e⟩

/-- What is decided about a block, in place of what was. -/
def set (G : Stages) (i : Nat) (st : Stage) : Stages :=
  { G with stage := fun j => if j = i then some st else G.stage j }

/-- A block nothing leads to gets the values that are going to wait. -/
def claim (G : Stages) (i : Nat) (waits : List NodeId) : Stages :=
  match G.stage i with
  | none => G.set i ⟨waits, none⟩
  | some _ => G

/-- The code of a block begins. -/
def enter (G : Stages) (i : Nat) (waits : List NodeId) (start : NodeId) : Stages :=
  { G.set i ⟨waits, some ⟨G.clock, start⟩⟩ with clock := G.clock + 1 }

@[simp]
theorem set_self (G : Stages) (i : Nat) (st : Stage) : (G.set i st).stage i = some st :=
  if_pos rfl

theorem set_other (G : Stages) {i j : Nat} (st : Stage) (h : j ≠ i) :
    (G.set i st).stage j = G.stage j := if_neg h

@[simp]
theorem enter_self (G : Stages) (i : Nat) (waits : List NodeId) (start : NodeId) :
    (G.enter i waits start).stage i = some ⟨waits, some ⟨G.clock, start⟩⟩ := if_pos rfl

theorem enter_other (G : Stages) {i j : Nat} (waits : List NodeId) (start : NodeId)
    (h : j ≠ i) : (G.enter i waits start).stage j = G.stage j := if_neg h

end Stages

/-- How control comes to the block of a merge node: from the test of the left operand or
from the end of the right one, and from the end of either arm. The left operand, or the first
node of the condition, waits there. -/
def Joins (L : Listing) (leads : BlockId → BlockId → Prop) (ends : BlockId → NodeId → Prop)
    (i : BlockId) (waits : List NodeId) (first : NodeId) : NodeKind → Prop
  | .shortCircuit op l r => l ∈ waits ∧ l < r ∧ ∀ p, leads p i →
      ends p r ∨ ∃ rest f, L.starts rest f ∧ rest ≠ i ∧ L.decides op p l rest i
  | .ternaryMerge l r => first ∈ waits ∧ first < l ∧ l < r ∧
      (∀ p, leads p i → ends p l ∨ ends p r) ∧ ∀ o ∈ [l, r], ∃ p, leads p i ∧ ends p o
  | _ => True

namespace Building

/-- What is known of the nodes and blocks of a construction. -/
def listing (b : Building) : Listing where
  node id kind := ∃ n : Node, b.nodes[id]? = some n ∧ n.kind = kind
  starts i first := ∃ d : Draft, b.drafts[i]? = some d ∧ d.nodes.head? = some first
  tests i id t e := b.drafts[i]? = some ⟨[], .branch id t e⟩
  raises id categories := ∃ (i : Nat) (successor : Option BlockId)
    (handlers : List (String × BlockId)) (terminal : Bool),
    b.drafts[i]? = some ⟨[id], .raise successor handlers terminal⟩ ∧
      handlers.map Prod.fst = categories

/-- The node is the last one of a block. -/
def EndsWith (b : Building) (p : Nat) (id : NodeId) : Prop :=
  ∃ d : Draft, b.drafts[p]? = some d ∧ d.nodes.getLast? = some id

/-- Control goes from one block to another when nothing is raised. -/
def Leads (b : Building) (p i : Nat) : Prop :=
  ∃ d : Draft, b.drafts[p]? = some d ∧ i ∈ d.exits.onward

/-- A value waits at some place of the code of a block. -/
def Has (b : Building) (G : Stages) (p : Nat) (o : NodeId) : Prop :=
  ∃ d st, b.drafts[p]? = some d ∧ G.stage p = some st ∧ (o ∈ st.waits ∨ o ∈ d.nodes)

/-- One of the paths that meet in a block computes the value, and all of them share one
that waits. -/
def Arm (b : Building) (G : Stages) (i : Nat) (waits : List NodeId) (o : NodeId) : Prop :=
  ∃ p, b.Leads p i ∧ b.Has G p o ∧ ∃ x ∈ waits, b.Has G p x

/-- The node of a block is the value of an expression. -/
def Codes (U : Expr → Prop) (b : Building) (i : Nat) (waits : List NodeId) (k : NodeId)
    (kind : NodeKind) : Prop :=
  ∃ e first, U e ∧ e.code.value b.listing first k ∧
    Joins b.listing b.Leads b.EndsWith i waits first kind

/-- A block whose code has begun, and the values that wait when control enters it. -/
structure Begun (U : Expr → Prop) (b : Building) (G : Stages) (i : Nat) (d : Draft)
    (waits : List NodeId) (e : Entrance) : Prop where
  time : e.time < G.clock
  start : e.start ≤ b.nodes.size
  before : ∀ o ∈ waits, o < e.start
  after : ∀ k ∈ d.nodes, e.start ≤ k
  runs : ∃ waiting, Runs b.nodes waits d.nodes waiting ∧ ∀ t ∈ d.exits.onward,
    ∃ st, G.stage t = some st ∧ (∀ o ∈ st.waits, o ∈ waiting) ∧
      (st.waits ≠ [] → ∀ e', st.entered = some e' →
        e.time < e'.time ∧ e.start ≤ e'.start ∧ ∀ k ∈ d.nodes, k < e'.start)
  raised : ∀ t ∈ d.exits.raised, G.Flat t
  linked : waits ≠ [] → ∃ p, b.Leads p i
  arms : ∀ k ∈ d.nodes, ∀ n, b.nodes[k]? = some n → ∀ o ∈ n.kind.arms, b.Arm G i waits o
  values : ∀ k ∈ d.nodes, ∀ n, b.nodes[k]? = some n → n.kind.isEffect = false →
    b.Codes U i waits k n.kind

/-- The stages describe the construction so far. -/
structure Staged (U : Expr → Prop) (b : Building) (G : Stages) : Prop where
  outside : ∀ i : Nat, b.drafts.size ≤ i → G.stage i = none
  untouched : ∀ (i : Nat) (d : Draft), b.drafts[i]? = some d → ¬ G.Entered i →
    d = ⟨[], .openEnd⟩
  begun : ∀ (i : Nat) (d : Draft) (waits : List NodeId) (e : Entrance),
    b.drafts[i]? = some d → G.stage i = some ⟨waits, some e⟩ → b.Begun U G i d waits e
  current : ∀ c : Nat, b.current = some c →
    G.Entered c ∧ ∃ d : Draft, b.drafts[c]? = some d ∧ d.exits.Pending
  designated : ∀ i < 3, G.Flat i
  paths : ∀ path ∈ b.finalPaths, G.Flat path.2

/-- What a step of the construction keeps. The stages of some blocks may be decided or
their code begin. Where something waits, control comes from nowhere else once the code has
begun. -/
structure Follows (S : List Nat) (b : Building) (G : Stages) (b' : Building) (G' : Stages) :
    Prop where
  grows : b.Grows S b'
  clock : G.clock ≤ G'.clock
  same : ∀ i < b.drafts.size, i ∉ S → G'.stage i = G.stage i
  stage : ∀ i st, G.stage i = some st → ∃ st', G'.stage i = some st' ∧
    st'.waits = st.waits ∧ (∀ e, st.entered = some e → st'.entered = some e) ∧
    ∀ e, st'.entered = some e → st.entered = some e ∨
      G.clock ≤ e.time ∧ b.nodes.size ≤ e.start
  closed : ∀ t : Nat, ¬ G.Flat t → (t < b.drafts.size ∧ t ∉ S) ∨ G.Entered t →
    ∀ p, b'.Leads p t → b.Leads p t

/-- The values wait where the construction stands. -/
def Holds (b : Building) (G : Stages) (waiting : List NodeId) : Prop :=
  ∀ o ∈ waiting, ∃ (c : Nat) (d : Draft) (waits : List NodeId) (e : Entrance) (held : _),
    b.current = some c ∧ b.drafts[c]? = some d ∧ G.stage c = some ⟨waits, some e⟩ ∧
    Runs b.nodes waits d.nodes held ∧ o ∈ held

/-- A new node of some sort is going to be the value of an expression. -/
def Expects (U : Expr → Prop) (b : Building) (new : Listing → NodeId → Prop) : Prop :=
  ∀ {L : Listing} {k : NodeId}, b.listing.Embeds id L → new L k →
    ∃ e first, U e ∧ e.code.value L first k

/-- The last node of some code holds its value. -/
structure Yields (b : Building) (id : NodeId) (b' : Building) : Prop where
  fresh : b.nodes.size ≤ id
  rests : b'.Rests id
  last : ∃ c : Nat, b'.current = some c ∧ b'.EndsWith c id

/-- Some code begins with a node, which is the first one of the current block if nothing was
in it. -/
structure Begins (b : Building) (first : NodeId) (b' : Building) : Prop where
  fresh : b.nodes.size ≤ first
  made : first < b'.nodes.size
  starts : ∀ c : Nat, b.current = some c → b.drafts[c]? = some ⟨[], .openEnd⟩ →
    b'.listing.starts c first

/-- A node of a kind is all of some code. -/
structure Placed (b : Building) (kind : NodeKind) (id : NodeId) (b' : Building) : Prop where
  node : b'.listing.node id kind
  yields : b.Yields id b'
  begins : b.Begins id b'

/-- A test may lead to the block: what waits there is still open, or waits already, or
nothing does. -/
def Ready (b : Building) (G : Stages) (waiting : List NodeId) (t : Nat) : Prop :=
  t < b.drafts.size ∧ ∀ st, G.stage t = some st →
    (∀ o ∈ st.waits, o ∈ waiting) ∧ (st.waits = [] ∨ st.entered = none)

end Building

end FlowTyping
