import FlowTyping.Graph.Node
import FlowTyping.Program.Syntax
import Mathlib.Data.List.Nodup

/-!
The nodes of an expression that is lowered as a value and as a test. Nodes are numbered in
the order of evaluation, and a test has those of the leaves alone.
-/

namespace FlowTyping

/-- How many nodes the code of an expression has: before the last one as a value, and in all
as a test. -/
structure Extent where
  operands : Nat
  test : Nat
  deriving DecidableEq, Repr

namespace Extent

/-- All nodes of a value. -/
def value (x : Extent) : Nat := x.operands + 1

/-- The last node of a value is one of them. -/
theorem last_lt (x : Extent) (first : NodeId) : first + x.operands < first + x.value :=
  Nat.lt_succ_self _

/-- The last nodes of two values one after the other come before what follows them. -/
theorem pair_lt (x y : Extent) (first : NodeId) :
    ∀ o ∈ [first + x.operands, first + x.value + y.operands], o < first + x.value + y.value := by
  simp only [List.mem_cons, List.not_mem_nil, or_false]
  rintro o (rfl | rfl)
  · exact Nat.lt_of_lt_of_le (x.last_lt first) (Nat.le_add_right _ _)
  · exact y.last_lt _

def ofValue (operands : Nat) : Extent := ⟨operands, operands + 1⟩

def shortCircuit (lhs rhs : Extent) : Extent := ⟨lhs.value + rhs.value, lhs.test + rhs.test⟩

def negation (operand : Extent) : Extent := ⟨operand.value, operand.test⟩

def ternary (condition thenValue elseValue : Extent) : Extent :=
  ⟨condition.test + thenValue.value + elseValue.value,
    condition.test + thenValue.test + elseValue.test⟩

end Extent

mutual

def Expr.extent : Expr → Extent
  | .literal _ | .var _ | .this => .ofValue 0
  | .field receiver _ => .ofValue receiver.extent.value
  | .call receiver _ args _ => .ofValue (Expr.optionNodes receiver + Expr.listNodes args)
  | .new _ args => .ofValue (Expr.listNodes args)
  | .binary op lhs rhs =>
      if op.isShortCircuit then .shortCircuit lhs.extent rhs.extent
      else .ofValue (lhs.extent.value + rhs.extent.value)
  | .unary op operand =>
      if op = .not then .negation operand.extent else .ofValue operand.extent.value
  | .ternary condition thenValue elseValue =>
      .ternary condition.extent thenValue.extent elseValue.extent
  | .cast _ operand => .ofValue operand.extent.value

def Expr.optionNodes : Option Expr → Nat
  | none => 0
  | some e => e.extent.value

def Expr.listNodes : List Expr → Nat
  | [] => 0
  | e :: rest => e.extent.value + Expr.listNodes rest

end

namespace Expr

/-- The nodes of the leaves of a boolean expression that is lowered as a value and whose first
node is given. The condition of a choice is lowered as a test. -/
def leafNodes : Expr → NodeId → List NodeId
  | .binary op lhs rhs, first =>
      if op.isShortCircuit then
        lhs.leafNodes first ++ rhs.leafNodes (first + lhs.extent.value)
      else List.range' first (Expr.binary op lhs rhs).extent.value
  | .unary op operand, first =>
      if op = .not then operand.leafNodes first
      else List.range' first (Expr.unary op operand).extent.value
  | .ternary condition thenValue elseValue, first =>
      List.range' first condition.extent.test ++
        thenValue.leafNodes (first + condition.extent.test) ++
        elseValue.leafNodes (first + condition.extent.test + thenValue.extent.value)
  | e, first => List.range' first e.extent.value

/-- The other nodes of the value: those that join two paths or negate. -/
def joinNodes : Expr → NodeId → List NodeId
  | .binary op lhs rhs, first =>
      if op.isShortCircuit then
        lhs.joinNodes first ++ rhs.joinNodes (first + lhs.extent.value) ++
          [first + lhs.extent.value + rhs.extent.value]
      else []
  | .unary op operand, first =>
      if op = .not then operand.joinNodes first ++ [first + operand.extent.value] else []
  | .ternary condition thenValue elseValue, first =>
      thenValue.joinNodes (first + condition.extent.test) ++
        elseValue.joinNodes (first + condition.extent.test + thenValue.extent.value) ++
        [first + condition.extent.test + thenValue.extent.value + elseValue.extent.value]
  | _, _ => []

/-- The value of an expression, or what it negates, comes from a node that joins two paths. -/
def isMerged : Expr → Bool
  | .binary op _ _ => op.isShortCircuit
  | .unary op operand => op = .not && operand.isMerged
  | .ternary _ _ _ => true
  | _ => false

/-- In a boolean expression, no short-circuit operation tests a value that is merged. The
condition of a choice is tested without a value. -/
def keepsTests : Expr → Bool
  | .binary op lhs rhs => !op.isShortCircuit || (!lhs.isMerged && rhs.keepsTests)
  | .unary op operand => op ≠ .not || operand.keepsTests
  | .ternary _ thenValue elseValue => thenValue.keepsTests && elseValue.keepsTests
  | _ => true

/-- A test of a value, without tests inside. -/
def isLeaf : Expr → Bool
  | .binary op _ _ => !op.isShortCircuit
  | .unary op _ => op ≠ .not
  | .ternary _ _ _ => false
  | _ => true

attribute [local simp] extent leafNodes joinNodes isMerged keepsTests isLeaf

/-- Boolean expressions are built from leaves. -/
theorem booleanInduction {P : Expr → Prop} (leaf : ∀ e : Expr, e.isLeaf = true → P e)
    (shortCircuit : ∀ op lhs rhs, op.isShortCircuit = true → P lhs → P rhs →
      P (.binary op lhs rhs))
    (negation : ∀ operand, P operand → P (.unary .not operand))
    (ternary : ∀ condition thenValue elseValue, P condition → P thenValue → P elseValue →
      P (.ternary condition thenValue elseValue)) : (e : Expr) → P e
  | .binary op lhs rhs => by
      by_cases hop : op.isShortCircuit = true
      · exact shortCircuit op lhs rhs hop
          (booleanInduction leaf shortCircuit negation ternary lhs)
          (booleanInduction leaf shortCircuit negation ternary rhs)
      · exact leaf _ (by simpa using hop)
  | .unary op operand => by
      by_cases hop : op = .not
      · subst hop
        exact negation operand (booleanInduction leaf shortCircuit negation ternary operand)
      · exact leaf _ (by simpa using hop)
  | .ternary condition thenValue elseValue => ternary condition thenValue elseValue
      (booleanInduction leaf shortCircuit negation ternary condition)
      (booleanInduction leaf shortCircuit negation ternary thenValue)
      (booleanInduction leaf shortCircuit negation ternary elseValue)
  | .literal _ | .var _ | .this | .field _ _ | .call _ _ _ _ | .new _ _ | .cast _ _ => leaf _ rfl

variable {e lhs rhs : Expr} {op : BinOp}

theorem extent_of_isLeaf (h : e.isLeaf = true) : e.extent.test = e.extent.value := by
  cases e <;> simp_all [Extent.ofValue, Extent.value]

theorem leafNodes_of_isLeaf (h : e.isLeaf = true) (first : Nat) :
    e.leafNodes first = List.range' first e.extent.value := by
  cases e <;> simp_all

theorem extent_shortCircuit (h : op.isShortCircuit = true) :
    (binary op lhs rhs).extent = .shortCircuit lhs.extent rhs.extent := by
  rw [extent, if_pos h]

theorem leafNodes_shortCircuit (h : op.isShortCircuit = true) (first : Nat) :
    (binary op lhs rhs).leafNodes first =
      lhs.leafNodes first ++ rhs.leafNodes (first + lhs.extent.value) := by
  rw [leafNodes, if_pos h]

theorem extent_not : (unary .not e).extent = e.extent.negation := by rw [extent, if_pos rfl]

theorem leafNodes_not (first : Nat) : (unary .not e).leafNodes first = e.leafNodes first := by
  rw [leafNodes, if_pos rfl]

theorem value_shortCircuit (h : op.isShortCircuit = true) :
    (binary op lhs rhs).extent.value = lhs.extent.value + rhs.extent.value + 1 := by
  rw [extent_shortCircuit h]
  rfl

theorem value_not : (unary .not e).extent.value = e.extent.value + 1 := by
  rw [extent_not]
  rfl

theorem value_ternary {condition thenValue elseValue : Expr} :
    (ternary condition thenValue elseValue).extent.value =
      condition.extent.test + thenValue.extent.value + elseValue.extent.value + 1 := rfl

theorem length_leafNodes (e : Expr) (first : Nat) :
    (e.leafNodes first).length = e.extent.test := by
  induction e using booleanInduction generalizing first with
  | leaf e h => rw [leafNodes_of_isLeaf h, extent_of_isLeaf h, List.length_range']
  | shortCircuit op lhs rhs h hl hr =>
      rw [leafNodes_shortCircuit h, extent_shortCircuit h, List.length_append, hl, hr]
      rfl
  | negation operand h =>
      rw [leafNodes_not, extent_not, h]
      rfl
  | ternary condition thenValue elseValue _ hl hr =>
      rw [leafNodes, List.length_append, List.length_append, List.length_range', hl, hr]
      rfl

theorem joinNodes_of_isLeaf (h : e.isLeaf = true) (first : Nat) : e.joinNodes first = [] := by
  cases e <;> simp_all

theorem joinNodes_shortCircuit (h : op.isShortCircuit = true) (first : Nat) :
    (binary op lhs rhs).joinNodes first = lhs.joinNodes first ++
      rhs.joinNodes (first + lhs.extent.value) ++
      [first + lhs.extent.value + rhs.extent.value] := by
  rw [joinNodes, if_pos h]

theorem joinNodes_not (first : Nat) :
    (unary .not e).joinNodes first = e.joinNodes first ++ [first + e.extent.value] := by
  rw [joinNodes, if_pos rfl]

/-- Every node of a value is one of a leaf, or it joins or negates. -/
theorem nodes_perm (e : Expr) (first : Nat) :
    (e.leafNodes first ++ e.joinNodes first).Perm (List.range' first e.extent.value) := by
  have happend {as bs as' bs' : List Nat} {start m n : Nat}
      (h : (as ++ bs).Perm (List.range' start m))
      (h' : (as' ++ bs').Perm (List.range' (start + m) n)) :
      ((as ++ as') ++ (bs ++ bs')).Perm (List.range' start (m + n)) := by
    have hmiddle : (as' ++ (bs ++ bs')).Perm (bs ++ (as' ++ bs')) :=
      List.perm_append_comm_assoc as' bs bs'
    rw [← List.range'_append_1, List.append_assoc]
    exact (hmiddle.append_left as).trans (by simpa using h.append h')
  have hlast {as bs : List Nat} {start n : Nat} (h : (as ++ bs).Perm (List.range' start n)) :
      (as ++ (bs ++ [start + n])).Perm (List.range' start (n + 1)) := by
    rw [← List.range'_append_1, ← List.append_assoc]
    exact h.append_right _
  induction e using booleanInduction generalizing first with
  | leaf e h => rw [leafNodes_of_isLeaf h, joinNodes_of_isLeaf h, List.append_nil]
  | shortCircuit op lhs rhs h hl hr =>
      rw [leafNodes_shortCircuit h, joinNodes_shortCircuit h, value_shortCircuit h,
        Nat.add_assoc first]
      exact hlast (happend (hl _) (hr _))
  | negation operand h =>
      rw [leafNodes_not, joinNodes_not, value_not]
      exact hlast (h first)
  | ternary condition thenValue elseValue _ hl hr =>
      have hcondition : (List.range' first condition.extent.test ++ []).Perm
          (List.range' first condition.extent.test) := by rw [List.append_nil]
      have hall := hlast (happend (happend hcondition (hl _)) (hr _))
      rw [leafNodes, joinNodes, value_ternary]
      simpa only [List.nil_append, Nat.add_assoc] using hall

/-- The leaves of an expression are among its nodes. -/
theorem mem_leafNodes (e : Expr) {first id : Nat} (h : id ∈ e.leafNodes first) :
    first ≤ id ∧ id < first + e.extent.value :=
  List.mem_range'_1.mp ((e.nodes_perm first).subset (List.mem_append_left _ h))

theorem lt_of_mem_joinNodes (e : Expr) {first id : Nat} (h : id ∈ e.joinNodes first) :
    id < first + e.extent.value :=
  (List.mem_range'_1.mp ((e.nodes_perm first).subset (List.mem_append_right _ h))).2

theorem mem_leafNodes_or (e : Expr) {first id : Nat} (hid : first ≤ id)
    (hid' : id < first + e.extent.value) : id ∈ e.leafNodes first ∨ id ∈ e.joinNodes first :=
  List.mem_append.mp ((e.nodes_perm first).mem_iff.mpr (List.mem_range'_1.mpr ⟨hid, hid'⟩))

theorem not_mem_joinNodes (e : Expr) {first id : Nat} (h : id ∈ e.leafNodes first) :
    id ∉ e.joinNodes first :=
  List.disjoint_of_nodup_append ((e.nodes_perm first).nodup_iff.mpr List.nodup_range') h

/-- A value that is not merged comes from a leaf. -/
theorem keepsTests_of_isMerged (e : Expr) (h : e.isMerged = false) : e.keepsTests = true := by
  induction e using booleanInduction with
  | leaf e hleaf => cases e <;> simp_all
  | shortCircuit op lhs rhs hop _ _ => simp [hop] at h
  | negation operand ho => simpa using ho (by simpa using h)
  | ternary => cases h

/-- The leaves of an expression are in order. -/
theorem leafNodes_ascending (e : Expr) (first : NodeId) :
    (e.leafNodes first).Pairwise (· < ·) := by
  have happend {ids ids' : List NodeId} {n : NodeId} (h : ids.Pairwise (· < ·))
      (h' : ids'.Pairwise (· < ·)) (hlt : ∀ i ∈ ids, i < n) (hle : ∀ i ∈ ids', n ≤ i) :
      (ids ++ ids').Pairwise (· < ·) :=
    List.pairwise_append.mpr ⟨h, h', fun i hi j hj => Nat.lt_of_lt_of_le (hlt i hi) (hle j hj)⟩
  induction e using booleanInduction generalizing first with
  | leaf e h =>
      rw [leafNodes_of_isLeaf h]
      exact List.pairwise_lt_range'
  | shortCircuit op lhs rhs h hl hr =>
      rw [leafNodes_shortCircuit h]
      exact happend (hl _) (hr _) (fun i hi => (lhs.mem_leafNodes hi).2)
        fun i hi => (rhs.mem_leafNodes hi).1
  | negation operand h =>
      rw [leafNodes_not]
      exact h first
  | ternary condition thenValue elseValue _ hl hr =>
      rw [leafNodes]
      refine happend (happend List.pairwise_lt_range' (hl _)
        (fun i hi => (List.mem_range'_1.mp hi).2) fun i hi => (thenValue.mem_leafNodes hi).1)
        (hr _) (fun i hi => ?_) fun i hi => (elseValue.mem_leafNodes hi).1
      rcases List.mem_append.mp hi with hi | hi
      · exact Nat.lt_of_lt_of_le (List.mem_range'_1.mp hi).2 (Nat.le_add_right _ _)
      · exact (thenValue.mem_leafNodes hi).2

/-- The node of the value that a node of the test stands for. -/
def leafAt (e : Expr) (k : NodeId) : NodeId := (e.leafNodes 0).getD k 0

theorem getElem?_leafNodes (e : Expr) {k : NodeId} (hk : k < e.extent.test) :
    (e.leafNodes 0)[k]? = some (e.leafAt k) := by
  rw [← e.length_leafNodes 0] at hk
  simp [leafAt, hk]

theorem map_leafAt (e : Expr) : (List.range e.extent.test).map e.leafAt = e.leafNodes 0 := by
  refine List.ext_getElem? fun k => ?_
  by_cases hk : k < e.extent.test
  · simp [hk, e.getElem?_leafNodes hk]
  · have hlength := e.length_leafNodes 0
    simp [hk, hlength]

theorem leafAt_lt (e : Expr) {j k : NodeId} (hk : k < e.extent.test) (hj : j < k) :
    e.leafAt j < e.leafAt k := by
  obtain ⟨hj', heq⟩ := List.getElem?_eq_some_iff.mp (e.getElem?_leafNodes (Nat.lt_trans hj hk))
  obtain ⟨hk', heq'⟩ := List.getElem?_eq_some_iff.mp (e.getElem?_leafNodes hk)
  rw [← heq, ← heq']
  exact List.pairwise_iff_getElem.mp (e.leafNodes_ascending 0) j k hj' hk' hj

theorem mem_leafNodes_iff (e : Expr) {id : NodeId} :
    id ∈ e.leafNodes 0 ↔ ∃ k < e.extent.test, e.leafAt k = id := by
  rw [← e.map_leafAt]
  simp

end Expr

end FlowTyping
