import FlowTyping.Proofs.Flow.Keys
import FlowTyping.Proofs.Flow.PathRuns
import FlowTyping.Proofs.Flow.Requirements

/-!
Nodes in other places. What a node gives depends on its kind, on its own key and on the
qualifiers and keys of its operands, and not on where all of these nodes are. Neither does what a
node requires of its operands.
-/

namespace FlowTyping

/-- The kind of a node whose operands are in other places. -/
def NodeKind.relocate (ρ : NodeId → NodeId) : NodeKind → NodeKind
  | literal value => literal value
  | localRead var => localRead var
  | this => this
  | fieldRead receiver field => fieldRead (ρ receiver) field
  | call receiver method args => call (receiver.map ρ) method (args.map ρ)
  | new className args => new className (args.map ρ)
  | binary op lhs rhs => binary op (ρ lhs) (ρ rhs)
  | unary op operand => unary op (ρ operand)
  | shortCircuit op lhs rhs => shortCircuit op (ρ lhs) (ρ rhs)
  | ternaryMerge thenValue elseValue => ternaryMerge (ρ thenValue) (ρ elseValue)
  | cast qualifier operand => cast qualifier (ρ operand)
  | localDecl var => localDecl var
  | assign (.local var) value => assign (.local var) (ρ value)
  | assign (.field receiver name) value => assign (.field (ρ receiver) name) (ρ value)
  | returnValue value => returnValue (value.map ρ)
  | throw exception value => throw exception (value.map ρ)
  | assertFailure => assertFailure

namespace NodeKind

variable {ρ : NodeId → NodeId}

theorem operands_relocate (kind : NodeKind) :
    (kind.relocate ρ).operands = kind.operands.map ρ := by
  cases kind with
  | assign target value => cases target <;> rfl
  | call receiver method args => cases receiver <;> simp [relocate, operands]
  | returnValue value => cases value <;> rfl
  | throw exception value => cases value <;> rfl
  | _ => simp [relocate, operands]

theorem relocate_id (kind : NodeKind) : kind.relocate id = kind := by
  cases kind with
  | assign target value => cases target <;> rfl
  | _ => simp [relocate]

end NodeKind

theorem toOption_bind {ε α β : Type} (x : Except ε α) (f : α → Except ε β) :
    (x >>= f).toOption = x.toOption.bind fun a => (f a).toOption := by
  cases x <;> rfl

theorem toOption_map {ε α β : Type} (x : Except ε α) (f : α → β) :
    (x.map f).toOption = x.toOption.map f := by
  cases x <;> rfl

theorem PostconditionTarget.operand?_map (ρ : NodeId → NodeId) (receiver : Option NodeId)
    (args : List NodeId) (target : PostconditionTarget) :
    target.operand? (receiver.map ρ) (args.map ρ) = (target.operand? receiver args).map ρ := by
  cases target <;> simp [operand?]

theorem PostconditionTarget.mem_of_operand? {receiver : Option NodeId} {args : List NodeId}
    {target : PostconditionTarget} {o : NodeId} (h : target.operand? receiver args = some o) :
    o ∈ receiver.toList ++ args := by
  cases target with
  | receiver => exact List.mem_append_left _ (Option.mem_toList.mpr h)
  | argument index => exact List.mem_append_right _ (List.mem_of_getElem? h)

namespace UnitAnalysis

variable {c : Checker} {u u' : UnitAnalysis} {V V' : NodeValues} {n n' : Node} {o id : NodeId}
  {ρ : NodeId → NodeId} {s : Store} {r : TransferResult}

/-- A node has the same qualifier and the same key in another place. -/
structure Moved (u u' : UnitAnalysis) (V V' : NodeValues) (ρ : NodeId → NodeId) (o : NodeId) :
    Prop where
  value : V'.getD (ρ o) none = V.getD o none
  key : u'.keys.getD (ρ o) none = u.keys.getD o none

theorem Moved.key? (h : Moved u u' V V' ρ o) : u'.key? (ρ o) = u.key? o := by
  rw [UnitAnalysis.key?, UnitAnalysis.key?, h.key]

theorem operand_toOption : (operand V n o).toOption = V.getD o none := by
  unfold operand
  cases V.getD o none <;> rfl

theorem resolveAt_toOption (name : String) :
    (c.resolveAt n name).toOption = c.hierarchy.lookup? name := by
  unfold Checker.resolveAt
  cases c.hierarchy.lookup? name <;> rfl

theorem localBound_toOption (n n' : Node) (var : LocalVar) :
    (c.localBound n' var).toOption = (c.localBound n var).toOption := by
  obtain ⟨name, declared, origin⟩ := var
  cases declared with
  | some q => exact (resolveAt_toOption q).trans (resolveAt_toOption q).symm
  | none => cases origin <;> rfl

theorem joinOperands_toOption {a b : NodeId} : (u.joinOperands V n a b).toOption =
    (V.getD a none).bind fun q => (V.getD b none).map fun q' => u.checker.hierarchy.join q q' := by
  rw [joinOperands, toOption_bind, operand_toOption]
  congr 1
  funext q
  rw [toOption_bind, operand_toOption]
  cases V.getD b none <;> rfl

theorem ensures_moved (hchecker : u'.checker = u.checker) {receiver : Option NodeId}
    {args : List NodeId} (hmoved : ∀ o ∈ receiver.toList ++ args, Moved u u' V V' ρ o)
    (posts : List (Postcondition Qualifier)) :
    posts.foldl (u'.ensure (receiver.map ρ) (args.map ρ)) s =
      posts.foldl (u.ensure receiver args) s := by
  have hensure : u'.ensure (receiver.map ρ) (args.map ρ) = u.ensure receiver args := by
    funext s p
    unfold ensure
    rw [PostconditionTarget.operand?_map, hchecker]
    cases htarget : p.target.operand? receiver args with
    | none => rfl
    | some o =>
        rw [Option.map_some, Option.bind_some, Option.bind_some,
          (hmoved o (PostconditionTarget.mem_of_operand? htarget)).key?]
  rw [hensure]

/-- What a node is evaluated to does not depend on places. -/
theorem evaluate_moved (hchecker : u'.checker = u.checker) (hkind : n'.kind = n.kind.relocate ρ)
    (hkey : u'.key? n'.id = u.key? n.id)
    (hmoved : ∀ o ∈ n.kind.operands, Moved u u' V V' ρ o) (s : Store) :
    (u'.evaluate V' n' s).toOption = (u.evaluate V n s).toOption := by
  have hvalue {o : NodeId} (ho : o ∈ n.kind.operands) : V'.getD (ρ o) none = V.getD o none :=
    (hmoved o ho).value
  obtain ⟨i, b, kind⟩ := n
  obtain ⟨i', b', kind'⟩ := n'
  dsimp only at hkind hkey hmoved hvalue
  subst hkind
  unfold evaluate
  rw [hchecker]
  cases kind with
  | literal value => rfl
  | localRead var =>
      simp only [NodeKind.relocate, toOption_bind, localBound_toOption ⟨i, b, .localRead var⟩]
      unfold flowValue
      rw [hchecker]
  | this => rfl
  | fieldRead receiver field =>
      simp only [NodeKind.relocate, hkey, flowValue, hchecker]
  | call receiver method args =>
      simp only [NodeKind.relocate, hkey, flowValue, hchecker]
      rw [ensures_moved hchecker hmoved]
  | new className args => rfl
  | binary op lhs rhs =>
      simp only [NodeKind.relocate]
      split
      · rfl
      · split
        · rfl
        · rw [toOption_map, toOption_map, joinOperands_toOption, joinOperands_toOption,
            hvalue (by simp [NodeKind.operands]), hvalue (by simp [NodeKind.operands]), hchecker]
  | shortCircuit op lhs rhs =>
      simp only [NodeKind.relocate, toOption_map, joinOperands_toOption]
      rw [hvalue (by simp [NodeKind.operands]), hvalue (by simp [NodeKind.operands]), hchecker]
  | ternaryMerge thenValue elseValue =>
      simp only [NodeKind.relocate, toOption_map, joinOperands_toOption]
      rw [hvalue (by simp [NodeKind.operands]), hvalue (by simp [NodeKind.operands]), hchecker]
  | unary op operand =>
      simp only [NodeKind.relocate, toOption_map, operand_toOption]
      rw [hvalue (by simp [NodeKind.operands])]
  | cast qualifier operand =>
      simp only [NodeKind.relocate, toOption_map, resolveAt_toOption]
  | localDecl var =>
      simp only [NodeKind.relocate, toOption_map, localBound_toOption ⟨i, b, .localDecl var⟩]
  | assign target value =>
      have hsource := hvalue (o := value) (by cases target <;> simp [NodeKind.operands])
      cases target with
      | «local» var =>
          simp only [NodeKind.relocate, toOption_bind, operand_toOption,
            localBound_toOption ⟨i, b, .assign (.local var) value⟩, hsource]
          unfold clamp
          rw [hchecker]
      | field receiver field =>
          simp only [NodeKind.relocate, toOption_bind, operand_toOption, hsource,
            (hmoved receiver (by simp [NodeKind.operands])).key?]
          unfold clamp
          rw [hchecker]
  | returnValue value =>
      cases value with
      | none => rfl
      | some o =>
          simp only [NodeKind.relocate, Option.map_some, toOption_map, operand_toOption]
          rw [hvalue (by simp [NodeKind.operands])]
  | throw exception value =>
      cases value with
      | none => rfl
      | some o =>
          simp only [NodeKind.relocate, Option.map_some, toOption_map, operand_toOption]
          rw [hvalue (by simp [NodeKind.operands])]
  | assertFailure => rfl

/-- Tests split alike. -/
theorem split_moved {h : Hierarchy} {signatures : SignatureTable}
    (hkind : n'.kind = n.kind.relocate ρ) (hmoved : ∀ o ∈ n.kind.operands, Moved u u' V V' ρ o)
    (s : Store) (t : Refinement) :
    t.split ⟨n', h, signatures, V', u'.keys⟩ s = t.split ⟨n, h, signatures, V, u.keys⟩ s := by
  have hvalue {o : NodeId} (ho : o ∈ n.kind.operands) :
      TestContext.value ⟨n', h, signatures, V', u'.keys⟩ (ρ o) =
        TestContext.value ⟨n, h, signatures, V, u.keys⟩ o := by
    simp only [TestContext.value, (hmoved o ho).value]
  have hkey {o : NodeId} (ho : o ∈ n.kind.operands) :
      TestContext.key? ⟨n', h, signatures, V', u'.keys⟩ (ρ o) =
        TestContext.key? ⟨n, h, signatures, V, u.keys⟩ o := by
    simp only [TestContext.key?, (hmoved o ho).key]
  unfold Refinement.split
  cases t with
  | equality =>
      simp only [hkind]
      cases hn : n.kind with
      | binary op lhs rhs =>
          have hl : lhs ∈ n.kind.operands := by simp [hn, NodeKind.operands]
          have hr : rhs ∈ n.kind.operands := by simp [hn, NodeKind.operands]
          simp only [NodeKind.relocate, Refinement.splitEquality, hvalue hl, hvalue hr, hkey hl,
            hkey hr]
      | assign target value => cases target <;> rfl
      | _ => rfl
  | postcondition =>
      simp only [hkind]
      cases hn : n.kind with
      | call receiver method args =>
          simp only [NodeKind.relocate]
          congr 1
          funext signature
          have houtcome : Refinement.refineOutcome ⟨n', h, signatures, V', u'.keys⟩
              (receiver.map ρ) (args.map ρ) =
                Refinement.refineOutcome ⟨n, h, signatures, V, u.keys⟩ receiver args := by
            funext stores p
            unfold Refinement.refineOutcome
            rw [PostconditionTarget.operand?_map]
            cases htarget : p.target.operand? receiver args with
            | none => rfl
            | some o =>
                have ho : o ∈ n.kind.operands := by
                  rw [hn]
                  exact PostconditionTarget.mem_of_operand? htarget
                rw [Option.map_some, Option.bind_some, Option.bind_some, hkey ho]
          unfold Refinement.splitCall
          rw [houtcome]
      | assign target value => cases target <;> rfl
      | _ => rfl

theorem refine?_moved {h : Hierarchy} {signatures : SignatureTable}
    (hkind : n'.kind = n.kind.relocate ρ) (hmoved : ∀ o ∈ n.kind.operands, Moved u u' V V' ρ o)
    (s : Store) (tests : List Refinement) :
    Refinement.refine? tests ⟨n', h, signatures, V', u'.keys⟩ s =
      Refinement.refine? tests ⟨n, h, signatures, V, u.keys⟩ s := by
  have happlies (t : Refinement) : t.appliesTo signatures (n.kind.relocate ρ) =
      t.appliesTo signatures n.kind := by
    cases t <;> cases n.kind with
    | assign target value => cases target <;> rfl
    | _ => rfl
  unfold Refinement.refine?
  simp only [hkind, happlies, split_moved hkind hmoved]

/-- What the transfer of a node gives, if anything, does not depend on places. -/
theorem transferNode_moved (hchecker : u'.checker = u.checker)
    (hkind : n'.kind = n.kind.relocate ρ) (hkey : u'.key? n'.id = u.key? n.id)
    (hmoved : ∀ o ∈ n.kind.operands, Moved u u' V V' ρ o) (r : TransferResult) :
    (u'.transferNode V' n' r).toOption = (u.transferNode V n r).toOption := by
  have hread : (n'.kind.operands.forM fun id => discard (operand V' n' id)).toOption =
      (n.kind.operands.forM fun id => discard (operand V n id)).toOption := by
    rw [hkind, NodeKind.operands_relocate]
    generalize n.kind.operands = ids at hmoved
    induction ids with
    | nil => rfl
    | cons o rest ih =>
        obtain ⟨ho, hrest⟩ := List.forall_mem_cons.mp hmoved
        have hdiscard : (discard (operand V' n' (ρ o))).toOption =
            (discard (operand V n o)).toOption := by
          change ((operand V' n' (ρ o)).map fun _ => ()).toOption =
            ((operand V n o).map fun _ => ()).toOption
          rw [toOption_map, toOption_map, operand_toOption, operand_toOption, ho.value]
        rw [List.forM_eq_forM] at ih ⊢
        rw [List.map_cons, List.forM_cons, List.forM_cons, toOption_bind, toOption_bind, hdiscard,
          ih hrest]
  by_cases hnot : ∃ id, n.kind = .unary .not id
  · obtain ⟨id, hid⟩ := hnot
    have hid' : n'.kind = .unary .not (ρ id) := by rw [hkind, hid]; rfl
    unfold transferNode
    dsimp only
    rw [toOption_bind, toOption_bind, hread]
    congr 1
    funext _
    simp only [hid, hid', toOption_bind, operand_toOption]
    rw [(hmoved id (by simp [hid, NodeKind.operands])).value]
  · have hne : ∀ id, n.kind ≠ .unary .not id := fun id hid => hnot ⟨id, hid⟩
    have hne' : ∀ id, n'.kind ≠ .unary .not id := by
      rw [hkind]
      intro id hid
      cases hn : n.kind with
      | unary op operand =>
          rw [hn] at hid
          cases hid
          exact hne operand hn
      | assign target value =>
          rw [hn] at hid
          cases target <;> cases hid
      | _ =>
          rw [hn] at hid
          cases hid
    rw [transferNode_of_ne_not hne, transferNode_of_ne_not hne']
    simp only [toOption_bind, hread, hchecker, refine?_moved hkind hmoved,
      evaluate_moved hchecker hkind hkey hmoved]

end UnitAnalysis

/-- The key of a node does not depend on places. -/
theorem Checker.nodeKey_relocate {c : Checker} {ρ : NodeId → NodeId}
    {keys keys' : Array (Option FlowKey)} {kind : NodeKind}
    (h : ∀ o ∈ kind.operands, keys'.getD (ρ o) none = keys.getD o none) :
    c.nodeKey keys' (kind.relocate ρ) = c.nodeKey keys kind := by
  cases kind with
  | fieldRead receiver field =>
      simp only [NodeKind.relocate, nodeKey, h receiver (by simp [NodeKind.operands])]
  | call receiver method args =>
      have hargs : (args.map ρ).mapM (fun id => keys'.getD id none) =
          args.mapM fun id => keys.getD id none := by
        rw [List.mapM_map]
        exact mapM_some_congr fun o ho => h o (by simp [NodeKind.operands, ho])
      cases receiver with
      | none => simp only [NodeKind.relocate, nodeKey, Option.map_none, hargs]
      | some receiver =>
          simp only [NodeKind.relocate, nodeKey, Option.map_some, hargs,
            h receiver (by simp [NodeKind.operands])]
  | assign target value => cases target <;> rfl
  | _ => rfl

/-- The requirement of a node in another place. -/
def Requirement.relocate (ρ : NodeId → NodeId) (r : Requirement) : Requirement :=
  { r with operand := ρ r.operand }

namespace Checker

variable {c : Checker} {bound : Option Qualifier} {n n' : Node} {ρ : NodeId → NodeId} {place : Nat}
  {r r' : Requirement} {q : Qualifier}

theorem resolveAt_place {name : String} (h : c.resolveAt n name = .ok q) :
    c.resolveAt n' name = .ok q := by
  have hresolved := congrArg Except.toOption h
  rw [UnitAnalysis.resolveAt_toOption] at hresolved
  exact ok_of_toOption ((UnitAnalysis.resolveAt_toOption name).trans hresolved)

theorem localBound_place {var : LocalVar} (h : c.localBound n var = .ok q) :
    c.localBound n' var = .ok q :=
  ok_of_toOption ((UnitAnalysis.localBound_toOption n n' var).trans (congrArg Except.toOption h))

/-- What a node requires of its operands is required in other places too. -/
theorem Requires.relocate (h : c.Requires bound n place r)
    (hkind : n'.kind = n.kind.relocate ρ) : c.Requires bound n' place (r.relocate ρ) := by
  cases h with
  | assignLocal hn hbound =>
      rw [hn] at hkind
      exact .assignLocal hkind (localBound_place hbound)
  | assignField hn =>
      rw [hn] at hkind
      exact .assignField hkind
  | argument hn hsignature hparam harg =>
      rw [hn] at hkind
      exact .argument hkind hsignature hparam (by simp [harg])
  | receiver hn hsignature hbound =>
      rename_i args _ _
      rw [hn] at hkind
      have hlast : c.Requires bound n' _ _ := .receiver hkind hsignature hbound
      rwa [List.length_map] at hlast
  | returned hn hbound =>
      rw [hn] at hkind
      exact .returned hkind hbound
  | cast hn hbound =>
      rw [hn] at hkind
      exact .cast hkind (resolveAt_place hbound)

theorem Requires.of_relocate (h : c.Requires bound n' place r')
    (hkind : n'.kind = n.kind.relocate ρ) :
    ∃ r, c.Requires bound n place r ∧ r' = r.relocate ρ := by
  obtain ⟨id, block, kind⟩ := n
  dsimp only at hkind
  cases h with
  | assignLocal hn hbound =>
      cases kind with
      | assign target value =>
          cases target <;> cases hn.symm.trans hkind
          exact ⟨_, .assignLocal rfl (localBound_place hbound), rfl⟩
      | _ => cases hn.symm.trans hkind
  | assignField hn =>
      cases kind with
      | assign target value =>
          cases target <;> cases hn.symm.trans hkind
          exact ⟨_, .assignField rfl, rfl⟩
      | _ => cases hn.symm.trans hkind
  | argument hn hsignature hparam harg =>
      cases kind with
      | assign target value => cases target <;> cases hn.symm.trans hkind
      | call receiver method args =>
          cases hn.symm.trans hkind
          rw [List.getElem?_map] at harg
          obtain ⟨_, hlisted, rfl⟩ := Option.map_eq_some_iff.mp harg
          exact ⟨_, .argument rfl hsignature hparam hlisted, rfl⟩
      | _ => cases hn.symm.trans hkind
  | receiver hn hsignature hbound =>
      cases kind with
      | assign target value => cases target <;> cases hn.symm.trans hkind
      | call receiver method args =>
          cases receiver <;> cases hn.symm.trans hkind
          rw [List.length_map]
          exact ⟨_, .receiver rfl hsignature hbound, rfl⟩
      | _ => cases hn.symm.trans hkind
  | returned hn hbound =>
      cases kind with
      | assign target value => cases target <;> cases hn.symm.trans hkind
      | returnValue value =>
          cases value <;> cases hn.symm.trans hkind
          exact ⟨_, .returned rfl hbound, rfl⟩
      | _ => cases hn.symm.trans hkind
  | cast hn hbound =>
      cases kind with
      | assign target value => cases target <;> cases hn.symm.trans hkind
      | cast qualifier operand =>
          cases hn.symm.trans hkind
          exact ⟨_, .cast rfl (resolveAt_place hbound), rfl⟩
      | _ => cases hn.symm.trans hkind

end Checker

end FlowTyping
