import FlowTyping.Proofs.Flow.Keys
import FlowTyping.Proofs.Waiting.Merges

/-!
Operands are evaluated before use. Every path to a node has evaluated what the node reads, or
one of two values if several paths meet in the node, and the key of a node is that of its
expression.
-/

namespace FlowTyping

mutual

/-- The key of an expression, by recursion on its syntax. -/
def Expr.key (c : Checker) : Expr → Option FlowKey
  | .literal value => some (.literal value.text)
  | .var name => some (.local name)
  | .this => some .this
  | .field receiver name =>
      ((receiver.key c).filter FlowKey.isRefinable).map fun key => .field key name
  | .call receiver method args _ =>
      if c.signatures.isPure method then do
        let receiver ← Expr.receiverKey c receiver
        let args ← Expr.argKeys c args
        return .pureCall receiver method args
      else none
  | .new _ _ | .binary _ _ _ | .unary _ _ | .ternary _ _ _ | .cast _ _ => none

def Expr.receiverKey (c : Checker) : Option Expr → Option (Option FlowKey)
  | none => some none
  | some e => ((e.key c).filter FlowKey.isRefinable).map some

def Expr.argKeys (c : Checker) : List Expr → Option (List FlowKey)
  | [] => some []
  | e :: rest => do return (← e.key c) :: (← Expr.argKeys c rest)

end

namespace Checker

variable {c : Checker} {g : FlowGraph}

theorem keyOf_of_node (hg : g.Ordered) {id : NodeId} {kind : NodeKind}
    (h : g.listing.node id kind) : c.keyOf g id = c.nodeKey (c.nodeKeys g) kind := by
  obtain ⟨n, hn, rfl⟩ := h
  have hkind : g.kindOf id = some n.kind := congrArg (Option.map Node.kind) hn
  rw [keyOf_eq hg, hkind, Option.bind_some]

mutual

/-- The key of a node is the key of the expression that it is the value of. -/
theorem keyOf_code (hg : g.Ordered) : (e : Expr) → ∀ {first id : NodeId},
    e.code.value g.listing first id → c.keyOf g id = e.key c
  | .literal _, _, _, h => keyOf_of_node hg h.2
  | .var name, _, _, ⟨_, x, hname, h⟩ => by
      rw [keyOf_of_node hg h, nodeKey, hname, Expr.key]
  | .this, _, _, h => keyOf_of_node hg h.2
  | .field receiver name, _, id, ⟨_, r, ⟨_, _, hr⟩, _, h⟩ => by
      rw [keyOf_of_node hg h, Expr.key, ← keyOf_code hg receiver hr]
      rfl
  | .call receiver method args _, _, id, ⟨_, p, ⟨_, _, _, hr, has⟩, _, h, _⟩ => by
      rw [keyOf_of_node hg h, Expr.key, ← receiverKey_code hg receiver hr,
        ← argKeys_code hg args has]
      cases p.1 <;> rfl
  | .new _ _, _, _, ⟨_, _, _, _, h, _⟩ => keyOf_of_node hg h
  | .binary op lhs rhs, _, _, h => by
      rw [Expr.code] at h
      split at h
      · obtain ⟨_, _, _, _, _, _, _, _, _, _, _, h⟩ := h
        exact keyOf_of_node hg h
      · obtain ⟨_, _, _, _, h⟩ := h
        exact keyOf_of_node hg h
  | .unary op operand, _, _, h => by
      rw [Expr.code] at h
      split at h <;>
      · obtain ⟨_, _, _, _, h⟩ := h
        exact keyOf_of_node hg h
  | .ternary _ _ _, _, _, ⟨_, _, _, _, _, _, _, _, _, _, _, _, _, h⟩ => keyOf_of_node hg h
  | .cast _ _, _, _, ⟨_, _, _, _, h⟩ => keyOf_of_node hg h

theorem receiverKey_code (hg : g.Ordered) : (e : Option Expr) → ∀ {first id : Option NodeId},
    Expr.receiverCode e g.listing first id →
    (match id with
      | none => some none
      | some id => ((c.keyOf g id).filter FlowKey.isRefinable).map some) = Expr.receiverKey c e
  | none, _, _, ⟨_, hid⟩ => by
      subst hid
      rfl
  | some e, _, _, ⟨r, hid, _, _, h⟩ => by
      subst hid
      rw [Expr.receiverKey, ← keyOf_code hg e h]

theorem argKeys_code (hg : g.Ordered) : (es : List Expr) → ∀ {first : Option NodeId}
    {ids : List NodeId}, Expr.argsCode es g.listing first ids →
    ids.mapM (c.keyOf g) = Expr.argKeys c es
  | [], _, _, ⟨_, hids⟩ => by
      subst hids
      rfl
  | e :: rest, _, _, ⟨id, ids, hids, _, _, _, ⟨_, _, h⟩, hrest⟩ => by
      subst hids
      rw [List.mapM_cons, keyOf_code hg e h, argKeys_code hg rest hrest, Expr.argKeys]

end

end Checker

namespace FlowGraph

variable {g : FlowGraph} {e : Expr} {first id l r : NodeId} {merge : BlockId}

/-- The merge node of a short-circuit operation is the value of one in the source. -/
theorem shortCircuit_source {op : BinOp} (h : e.code.value g.listing first id)
    (hn : g.listing.node id (.shortCircuit op l r)) : ∃ lhs rhs block rest merge f,
      e = .binary op lhs rhs ∧ g.listing.decides op block l rest merge ∧
      g.listing.starts rest f ∧ rhs.code.value g.listing f r ∧ g.listing.starts merge id := by
  rcases e.value_cases h with ⟨kind, hkind, harms, -⟩ | ⟨op', lhs, rhs, rfl, hcode⟩ | ⟨c, x, y, rfl⟩
  · cases GraphParts.listing_node_unique hkind hn
    cases harms
  · obtain ⟨_, _, block, rest, merge, f, -, hdecides, hstarts, hr, hmerge, hnode⟩ := hcode
    cases GraphParts.listing_node_unique hnode hn
    exact ⟨lhs, rhs, block, rest, merge, f, rfl, hdecides, hstarts, hr, hmerge⟩
  · obtain ⟨_, _, _, _, _, _, _, -, -, -, -, -, -, hnode⟩ := h
    cases GraphParts.listing_node_unique hnode hn

/-- The merge node of two values is the value of a ternary expression in the source. -/
theorem ternaryMerge_source (h : e.code.value g.listing first id)
    (hn : g.listing.node id (.ternaryMerge l r)) : ∃ condition thenValue elseValue merge,
      e = .ternary condition thenValue elseValue ∧ g.listing.starts merge id := by
  rcases e.value_cases h with ⟨kind, hkind, harms, -⟩ | ⟨op, lhs, rhs, rfl, hcode⟩ | ⟨c, x, y, rfl⟩
  · cases GraphParts.listing_node_unique hkind hn
    cases harms
  · obtain ⟨_, _, _, _, _, _, -, -, -, -, -, hnode⟩ := hcode
    cases GraphParts.listing_node_unique hnode hn
  · obtain ⟨_, _, merge, _, _, _, _, -, -, -, -, -, hmerge, -⟩ := h
    exact ⟨c, x, y, merge, rfl, hmerge⟩

theorem home_of_starts (h : g.listing.starts merge id) : g.Home id merge := by
  obtain ⟨block, hblock, hhead⟩ := h
  exact ⟨block, hblock, List.mem_of_mem_head? hhead⟩

/-- A path comes to the first node of a block without any other node of it. -/
theorem Before.of_starts {past : List PathEvent} (hg : g.Valid) (hordered : g.Ordered)
    (hstarts : g.listing.starts merge id) (h : g.Before id past) : g.Arrives merge past := by
  obtain ⟨b, block, pre, post, arrival, hblock, hnodes, harrives, rfl⟩ := h
  obtain rfl := hg.home_unique ⟨block, hblock, by simp [hnodes]⟩ (home_of_starts hstarts)
  obtain ⟨block', hblock', hhead⟩ := hstarts
  cases hblock.symm.trans hblock'
  cases pre with
  | nil => simpa using harrives
  | cons k pre =>
      have hascending := hordered.ascending hblock
      rw [hnodes] at hascending hhead
      cases hhead
      have hlt := (List.pairwise_append.mp hascending).2.2 id List.mem_cons_self id
        List.mem_cons_self
      exact absurd hlt (Nat.lt_irrefl id)

end FlowGraph

/-- What every path to a node of a graph has evaluated of the operands. Before the node of a
short-circuit operation, the left operand was last followed by its test, and since then the
right one has been evaluated if that led to its code. Before that of a ternary expression, one of
the values has been evaluated since the first node of the condition was. -/
def ProgramUnit.Prepares (u : ProgramUnit) (g : FlowGraph) (id : NodeId) : NodeKind → Prop
  | .shortCircuit op l r => ∃ lhs rhs start rest first, .binary op lhs rhs ∈ u.exprs ∧
      (Expr.binary op lhs rhs).code.value g.listing start id ∧
      g.listing.starts rest first ∧ rhs.code.value g.listing first r ∧
      ∀ past, g.Before id past → ∃ before holds target after,
        past = before ++ .value l :: .outcome l holds target :: after ∧ .value l ∉ after ∧
        (target = rest ↔ holds = decide (op = .and)) ∧ (.value r ∈ after ↔ target = rest)
  | .ternaryMerge l r => ∃ condition thenValue elseValue first,
      .ternary condition thenValue elseValue ∈ u.exprs ∧
      (Expr.ternary condition thenValue elseValue).code.value g.listing first id ∧
      ∀ past, g.Before id past → ∃ before after, past = before ++ .value first :: after ∧
        .value first ∉ after ∧ (.value l ∈ after ↔ .value r ∉ after)
  | kind => ∀ past, g.Before id past → ∀ o ∈ kind.operands, .value o ∈ past

/-- Operands are evaluated before use: they come before their users in node order and on every
path, and the key of a value is that of its expression. -/
theorem ProgramUnit.lower_evaluates {u : ProgramUnit} {g : FlowGraph} (h : u.lower = .ok g)
    {id : NodeId} {n : Node} (hn : g.node? id = some n) :
    (∀ o ∈ n.kind.operands, o < id) ∧ u.Prepares g id n.kind ∧
    (n.kind.isEffect = false → ∃ e ∈ u.exprs, ∃ first, e.code.value g.listing first id ∧
      ∀ c : Checker, (c.nodeKeys g).getD id none = e.key c) ∧
    (n.kind.isEffect = true → ∀ c : Checker, (c.nodeKeys g).getD id none = none) := by
  have hg := u.lower_valid h
  have hordered := u.lower_ordered h
  obtain ⟨T, hT, hentry, hsourced⟩ := u.lower_sourced h
  obtain ⟨block, hblock, hid⟩ := u.lower_homed h hn
  have hsource := hsourced (congrArg (Option.map Block.piece) hblock) id hid n hn
  have hnode : g.listing.node id n.kind := ⟨n, hn, rfl⟩
  refine ⟨hordered.operands hn, ?_, fun heffect => ?_, fun heffect c => ?_⟩
  · have hdirect (harms : n.kind.arms = []) : ∀ past, g.Before id past →
        ∀ o ∈ n.kind.operands, .value o ∈ past := by
      intro past hpast o ho
      refine hT.direct_evaluated hg hentry hn hpast ((NodeKind.mem_operands.mp ho).resolve_right ?_)
      simp [harms]
    cases hkind : n.kind with
    | shortCircuit op l r =>
        rw [hkind] at hsource hnode
        obtain ⟨e, start, he, hvalue, hl, -, hways⟩ := hsource rfl
        obtain ⟨lhs, rhs, test, rest, merge, f, rfl, hdecides, hstarts, hr, hmerge⟩ :=
          FlowGraph.shortCircuit_source hvalue hnode
        refine ⟨lhs, rhs, start, rest, f, he, hvalue, hstarts, hr, fun past hpast => ?_⟩
        obtain rfl := hg.home_unique ⟨block, hblock, hid⟩ (FlowGraph.home_of_starts hmerge)
        exact hT.shortCircuit_evaluated hg hordered hentry (hpast.of_starts hg hordered hmerge)
          hl hways hdecides
    | ternaryMerge l r =>
        rw [hkind] at hsource hnode
        obtain ⟨e, first, he, hvalue, hfirst, hl, hr, hways, hends⟩ := hsource rfl
        obtain ⟨condition, thenValue, elseValue, merge, rfl, hmerge⟩ :=
          FlowGraph.ternaryMerge_source hvalue hnode
        refine ⟨condition, thenValue, elseValue, first, he, hvalue, fun past hpast => ?_⟩
        obtain rfl := hg.home_unique ⟨block, hblock, hid⟩ (FlowGraph.home_of_starts hmerge)
        exact hT.ternary_evaluated hg hordered hentry (hpast.of_starts hg hordered hmerge)
          hfirst hl hr hways hends
    | _ =>
        rw [hkind] at hdirect
        exact hdirect rfl
  · obtain ⟨e, first, he, hvalue, -⟩ := hsource heffect
    exact ⟨e, he, first, hvalue, fun c => Checker.keyOf_code hordered e hvalue⟩
  · change c.keyOf g id = none
    rw [Checker.keyOf_of_node hordered hnode]
    cases hkind : n.kind <;> simp_all [NodeKind.isEffect, Checker.nodeKey]

/-- A unit that looks something up only if it is told to. -/
def lookupUnit : ProgramUnit where
  name := "lookup"
  params := [⟨"known", none⟩]
  returnQualifier := none
  body := [.returnValue (some (.binary .and (.var "known") (.call none "find" [] [])))]

private theorem lookupUnit_runs : ∃ g, lookupUnit.lower = .ok g ∧ g.entry = 0 ∧
    [0, 3, 6, 5].map g.block? = [some ⟨0, [], .special .entry (some 3)⟩,
      some ⟨3, [0], .regular 6⟩, some ⟨6, [], .conditional 0 4 5⟩, some ⟨5, [2, 3], .regular 1⟩] ∧
    g.kindOf 2 = some (.shortCircuit .and 0 1) := by
  have hok : (lookupUnit.lower.toOption.bind fun g =>
      if g.entry = 0 ∧ [0, 3, 6, 5].map g.block? = [some ⟨0, [], .special .entry (some 3)⟩,
          some ⟨3, [0], .regular 6⟩, some ⟨6, [], .conditional 0 4 5⟩,
          some ⟨5, [2, 3], .regular 1⟩] ∧ g.kindOf 2 = some (.shortCircuit .and 0 1) then
        some ()
      else none).isSome = true := by
    decide +kernel
  obtain ⟨_, h⟩ := Option.isSome_iff_exists.mp hok
  obtain ⟨g, hg, h⟩ := Option.bind_eq_some_iff.mp h
  exact ⟨g, ok_of_toOption hg, (Option.ite_none_right_eq_some.mp h).1⟩

/-- The path past the lookup has tested the left operand and not evaluated the right one. -/
theorem lookupUnit_evaluates : ∃ g, lookupUnit.lower = .ok g ∧
    g.Before 2 [.value 0, .outcome 0 false 5] ∧
    lookupUnit.Prepares g 2 (.shortCircuit .and 0 1) := by
  obtain ⟨g, hg, hentry, hblocks, hkind⟩ := lookupUnit_runs
  obtain ⟨n, hn, hk⟩ := Option.map_eq_some_iff.mp hkind
  simp only [List.map_cons, List.map_nil, List.cons.injEq, and_true] at hblocks
  obtain ⟨h0, h3, h6, h5⟩ := hblocks
  have hstart : g.Arrives 0 [] := hentry ▸ .entry
  have hfirst : g.Arrives 3 ([] ++ []) := hstart.step h0 (by decide)
  have htest : g.Arrives 6 ([] ++ [.value 0]) := hfirst.step h3 (by decide)
  have hpast : g.Arrives 5 ([.value 0] ++ [.outcome 0 false 5]) := htest.step h6 (by decide)
  refine ⟨g, hg, ⟨5, _, [], [3], _, h5, rfl, hpast, rfl⟩, ?_⟩
  exact hk ▸ (lookupUnit.lower_evaluates hg hn).2.1

end FlowTyping
