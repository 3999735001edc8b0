import FlowTyping.Proofs.Flow.Evaluation

/-!
The transfer of a node with its refinement: whether it splits depends on the node alone,
and both outcomes are monotone.
-/

namespace FlowTyping

/-- Two pairs of stores are both there, one under the other outcome by outcome, or both
not. -/
abbrev SplitUnder (h : Hierarchy) : Option (Store × Store) → Option (Store × Store) → Prop :=
  Option.Rel fun p p' => p.1.Under h p'.1 ∧ p.2.Under h p'.2

theorem SplitUnder.or {h : Hierarchy} {x y x' y' : Option (Store × Store)}
    (hx : SplitUnder h x x') (hy : SplitUnder h y y') : SplitUnder h (x.or y) (x'.or y') := by
  cases hx with
  | some hp => exact .some hp
  | none => exact hy

namespace Refinement

variable {c : TestContext} {W : NodeValues} {s s' : Store}

theorem value_mono (hV : NodeValues.Le c.hierarchy c.values W)
    {id : NodeId} (hid : ∃ q, c.values.getD id none = some q) :
    c.hierarchy.isSubtype (c.value id) (TestContext.value { c with values := W } id) = true := by
  obtain ⟨q, hq⟩ := hid
  obtain ⟨q', hq', hle⟩ := hV id q hq
  rw [TestContext.value, hq, TestContext.value, hq']
  exact hle

theorem refineAll_mono {h : Hierarchy} (hh : h.Lawful) {q q' : Qualifier}
    (hq : h.isSubtype q q' = true) (keys : List FlowKey) (hs : s.Under h s') :
    (keys.foldl (fun s key => s.refine h key q) s).Under h
      (keys.foldl (fun s key => s.refine h key q') s') := by
  induction keys generalizing s s' with
  | nil => exact hs
  | cons key rest ih => exact ih (hs.refine hh hq)

theorem splitEquality_mono (hh : c.hierarchy.Lawful)
    (hV : NodeValues.Le c.hierarchy c.values W) (hs : s.Under c.hierarchy s') (op : BinOp)
    {lhs rhs : NodeId} (hlhs : ∃ q, c.values.getD lhs none = some q)
    (hrhs : ∃ q, c.values.getD rhs none = some q) :
    SplitUnder c.hierarchy (splitEquality c s op lhs rhs)
      (splitEquality { c with values := W } s' op lhs rhs) := by
  have hcommon := hh.meet_mono (value_mono hV hlhs) (value_mono hV hrhs)
  have hequal := refineAll_mono hh hcommon ((c.key? lhs).toList ++ (c.key? rhs).toList) hs
  unfold splitEquality
  change SplitUnder _ (if ((c.key? lhs).toList ++ (c.key? rhs).toList).isEmpty = true then _ else _)
    (if ((c.key? lhs).toList ++ (c.key? rhs).toList).isEmpty = true then _ else _)
  split
  · exact .none
  · by_cases hop : op = .eq
    · rw [if_pos hop, if_pos hop]
      exact .some ⟨hequal, hs⟩
    · rw [if_neg hop, if_neg hop]
      exact .some ⟨hs, hequal⟩

theorem splitCall_mono (hh : c.hierarchy.Lawful) (hs : s.Under c.hierarchy s')
    (receiver : Option NodeId) (args : List NodeId)
    {posts : List (ConditionalPostcondition Qualifier)}
    (hposts : ∀ p ∈ posts, c.hierarchy.Has p.qualifier) :
    SplitUnder c.hierarchy (splitCall c s receiver args posts)
      (splitCall { c with values := W } s' receiver args posts) := by
  have hfold {found found' : Option (Store × Store)}
      (hfound : SplitUnder c.hierarchy found found') :
      SplitUnder c.hierarchy
        (posts.foldl (fun found p =>
          (refineOutcome c receiver args (found.getD (s, s)) p).or found) found)
        (posts.foldl (fun found p =>
          (refineOutcome { c with values := W } receiver args (found.getD (s', s')) p).or found)
          found') := by
    induction posts generalizing found found' with
    | nil => exact hfound
    | cons p rest ih =>
        obtain ⟨hp, hrest⟩ := List.forall_mem_cons.mp hposts
        refine ih hrest (.or ?_ hfound)
        have hstores : (found.getD (s, s)).1.Under c.hierarchy (found'.getD (s', s')).1 ∧
            (found.getD (s, s)).2.Under c.hierarchy (found'.getD (s', s')).2 := by
          cases hfound with
          | some hp => exact hp
          | none => exact ⟨hs, hs⟩
        unfold refineOutcome
        change SplitUnder _ (Option.map _ ((p.target.operand? receiver args).bind c.key?))
          (Option.map _ ((p.target.operand? receiver args).bind c.key?))
        cases (p.target.operand? receiver args).bind c.key? with
        | none => exact .none
        | some key =>
            have hrefl := hh.le_refl hp
            cases hresult : p.result with
            | true => simpa [hresult] using
                Option.Rel.some ⟨hstores.1.refine hh hrefl, hstores.2⟩
            | false => simpa [hresult] using
                Option.Rel.some ⟨hstores.1, hstores.2.refine hh hrefl⟩
  exact hfold .none

theorem split_mono (hh : c.hierarchy.Lawful)
    (hsig : ∀ m sig, c.signatures.method? m = some sig → sig.Within c.hierarchy)
    (hV : NodeValues.Le c.hierarchy c.values W) (hs : s.Under c.hierarchy s')
    (hoperands : ∀ id ∈ c.node.kind.operands, ∃ q, c.values.getD id none = some q)
    (r : Refinement) :
    SplitUnder c.hierarchy (r.split c s) (r.split { c with values := W } s') := by
  cases r with
  | equality =>
      unfold split
      cases hkind : c.node.kind with
      | binary op lhs rhs =>
          rw [hkind] at hoperands
          exact splitEquality_mono hh hV hs op (hoperands lhs (by simp [NodeKind.operands]))
            (hoperands rhs (by simp [NodeKind.operands]))
      | _ => exact .none
  | postcondition =>
      unfold split
      cases hkind : c.node.kind with
      | call receiver method args =>
          cases hmethod : c.signatures.method? method with
          | none => simp [hmethod]
          | some sig =>
              simpa [hmethod] using
                splitCall_mono hh hs receiver args (hsig method sig hmethod).ensuresIf
      | _ => exact .none

/-- Both tests split into results under each other, or neither does. -/
theorem refine?_mono (hh : c.hierarchy.Lawful)
    (hsig : ∀ m sig, c.signatures.method? m = some sig → sig.Within c.hierarchy)
    (hV : NodeValues.Le c.hierarchy c.values W) (hs : s.Under c.hierarchy s')
    (hoperands : ∀ id ∈ c.node.kind.operands, ∃ q, c.values.getD id none = some q)
    (refinements : List Refinement) :
    Option.Rel (TransferResult.Under c.hierarchy) (refine? refinements c s)
      (refine? refinements { c with values := W } s') := by
  unfold refine?
  induction refinements.filter fun r => r.appliesTo c.signatures c.node.kind with
  | nil => exact .none
  | cons r rest ih =>
      have hsplit := split_mono hh hsig hV hs hoperands r
      rw [List.findSome?_cons, List.findSome?_cons]
      generalize r.split c s = x at hsplit
      generalize r.split { c with values := W } s' = y at hsplit
      cases hsplit with
      | some hp => exact .some (.of_split hp.1 hp.2)
      | none => exact ih

end Refinement

namespace UnitAnalysis

variable {u : UnitAnalysis} {V W : NodeValues} {node : Node} {q q' : Qualifier}
  {input input' r r' : TransferResult}

/-- The transfer of a node that does not negate. -/
theorem transferNode_of_ne_not (hkind : ∀ id, node.kind ≠ .unary .not id) :
    u.transferNode V node input = (do
      node.kind.operands.forM fun id => discard (operand V node id)
      let (value, s) ← u.evaluate V node (input.collapse u.checker.hierarchy)
      return (value, (Refinement.refine? (Refinement.enabled u.checker.refinesEquality)
        ⟨node, u.checker.hierarchy, u.checker.signatures, V, u.keys⟩ s).getD (.regular s))) := by
  unfold transferNode
  split
  · exact absurd ‹_› (hkind _)
  · rfl

theorem operands_of_transferNode (h : u.transferNode V node input = .ok (q, r)) :
    ∀ id ∈ node.kind.operands, ∃ q, V.getD id none = some q := by
  intro id hid
  obtain ⟨_, hall, -⟩ := bind_ok.mp h
  have hoperand := forM_ok.mp hall id hid
  cases hq : operand V node id with
  | error e =>
      rw [hq] at hoperand
      cases hoperand
  | ok q => exact ⟨q, operand_ok.mp hq⟩

theorem transferNode_mono (hc : u.checker.Sound) (hV : V.Le u.checker.hierarchy W)
    (hinput : input.Under u.checker.hierarchy input')
    (h : u.transferNode V node input = .ok (q, r))
    (h' : u.transferNode W node input' = .ok (q', r')) :
    u.checker.hierarchy.isSubtype q q' = true ∧ r.Under u.checker.hierarchy r' := by
  have hoperands := operands_of_transferNode h
  by_cases hnot : ∃ id, node.kind = .unary .not id
  · obtain ⟨id, hnot⟩ := hnot
    simp only [transferNode, hnot] at h h'
    obtain ⟨_, -, h⟩ := bind_ok.mp h
    obtain ⟨v, hv, heq⟩ := bind_ok.mp h
    obtain ⟨_, -, h'⟩ := bind_ok.mp h'
    obtain ⟨v', hv', heq'⟩ := bind_ok.mp h'
    cases heq
    cases heq'
    exact ⟨operand_mono hV hv hv', hinput.swap⟩
  · have hkind : ∀ id, node.kind ≠ .unary .not id := fun id hid => hnot ⟨id, hid⟩
    rw [transferNode_of_ne_not hkind] at h h'
    obtain ⟨_, -, h⟩ := bind_ok.mp h
    obtain ⟨⟨v, s⟩, hv, heq⟩ := bind_ok.mp h
    obtain ⟨_, -, h'⟩ := bind_ok.mp h'
    obtain ⟨⟨v', s'⟩, hv', heq'⟩ := bind_ok.mp h'
    cases heq
    cases heq'
    obtain ⟨hle, hs⟩ := evaluate_mono hc hV (hinput.collapse hc.lawful) hv hv'
    refine ⟨hle, ?_⟩
    have hrel := Refinement.refine?_mono
      (c := ⟨node, u.checker.hierarchy, u.checker.signatures, V, u.keys⟩) hc.lawful
      (fun _ _ => hc.within) hV hs hoperands (Refinement.enabled u.checker.refinesEquality)
    dsimp only at hrel ⊢
    generalize Refinement.refine? _ _ s = x at hrel
    generalize Refinement.refine? _ _ s' = y at hrel
    cases hrel with
    | some hp => exact hp
    | none => exact hs.regular

theorem joinOperands_congr {a b : NodeId} (ha : W.getD a none = V.getD a none)
    (hb : W.getD b none = V.getD b none) :
    u.joinOperands W node a b = u.joinOperands V node a b := by
  simp only [joinOperands, operand, ha, hb]

/-- A node reads the qualifiers of its operands only. -/
theorem evaluate_congr (hV : ∀ id ∈ node.kind.operands, W.getD id none = V.getD id none)
    (s : Store) : u.evaluate W node s = u.evaluate V node s := by
  have hoperand : ∀ id ∈ node.kind.operands, operand W node id = operand V node id :=
    fun id hid => by simp only [operand, hV id hid]
  unfold evaluate
  cases hkind : node.kind with
  | binary op lhs rhs =>
      rw [hkind] at hV
      simp only [joinOperands_congr (hV lhs (by simp [NodeKind.operands]))
        (hV rhs (by simp [NodeKind.operands]))]
  | shortCircuit op lhs rhs =>
      rw [hkind] at hV
      simp only [joinOperands_congr (hV lhs (by simp [NodeKind.operands]))
        (hV rhs (by simp [NodeKind.operands]))]
  | ternaryMerge thenValue elseValue =>
      rw [hkind] at hV
      simp only [joinOperands_congr (hV thenValue (by simp [NodeKind.operands]))
        (hV elseValue (by simp [NodeKind.operands]))]
  | unary op id => simp only [hoperand id (by simp [hkind, NodeKind.operands])]
  | assign target id =>
      cases target with
      | «local» var => simp only [hoperand id (by simp [hkind, NodeKind.operands])]
      | field receiver field => simp only [hoperand id (by simp [hkind, NodeKind.operands])]
  | returnValue value =>
      cases value with
      | none => rfl
      | some id => simp only [hoperand id (by simp [hkind, NodeKind.operands])]
  | throw category value =>
      cases value with
      | none => rfl
      | some id => simp only [hoperand id (by simp [hkind, NodeKind.operands])]
  | _ => rfl

theorem split_congr {c : TestContext}
    (hV : ∀ id ∈ c.node.kind.operands, W.getD id none = c.values.getD id none) (s : Store)
    (r : Refinement) : r.split { c with values := W } s = r.split c s := by
  have hvalue : ∀ id ∈ c.node.kind.operands,
      TestContext.value { c with values := W } id = c.value id :=
    fun id hid => by simp only [TestContext.value, hV id hid]
  unfold Refinement.split
  cases r with
  | equality =>
      cases hkind : c.node.kind with
      | binary op lhs rhs =>
          change Refinement.splitEquality _ s op lhs rhs = Refinement.splitEquality c s op lhs rhs
          unfold Refinement.splitEquality
          rw [hvalue lhs (by simp [hkind, NodeKind.operands]),
            hvalue rhs (by simp [hkind, NodeKind.operands])]
          rfl
      | _ => rfl
  | postcondition =>
      cases c.node.kind with
      | call receiver method args => rfl
      | _ => rfl

theorem transferNode_congr
    (hV : ∀ id ∈ node.kind.operands, W.getD id none = V.getD id none) :
    u.transferNode W node input = u.transferNode V node input := by
  have hoperand : ∀ id ∈ node.kind.operands, operand W node id = operand V node id :=
    fun id hid => by simp only [operand, hV id hid]
  have hall : node.kind.operands.forM (fun id => discard (operand W node id)) =
      node.kind.operands.forM fun id => discard (operand V node id) := by
    generalize node.kind.operands = ids at hoperand
    induction ids with
    | nil => rfl
    | cons id rest ih =>
        obtain ⟨hid, hrest⟩ := List.forall_mem_cons.mp hoperand
        rw [List.forM_eq_forM] at ih ⊢
        rw [List.forM_cons, List.forM_cons, hid, ih hrest]
  have hrefine (s : Store) (rs : List Refinement) :
      Refinement.refine? rs ⟨node, u.checker.hierarchy, u.checker.signatures, W, u.keys⟩ s =
        Refinement.refine? rs ⟨node, u.checker.hierarchy, u.checker.signatures, V, u.keys⟩ s := by
    unfold Refinement.refine?
    congr 1
    funext r
    rw [← split_congr (c := ⟨node, u.checker.hierarchy, u.checker.signatures, V, u.keys⟩) hV s r]
  unfold transferNode
  rw [hall]
  split
  · rename_i id hkind
    rw [hoperand id (by simp [hkind, NodeKind.operands])]
  · simp only [evaluate_congr hV, hrefine]

end UnitAnalysis

end FlowTyping
