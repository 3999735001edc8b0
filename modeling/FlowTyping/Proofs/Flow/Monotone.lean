import FlowTyping.Proofs.Flow.PathRuns
import FlowTyping.Proofs.Flow.Simulation

/-!
The transfer of blocks is monotone in both of its arguments: from results one of which is subsumed
by the other, and tables of which one is pointwise below the other, it fails alike or sends on facts
that are subsumed edge by edge. Subsumption says nothing of the shape of results, so a result that
is not split may lie below one that is.
-/

namespace FlowTyping

/-- Two results over a hierarchy with all stores reached, the first subsumed by the second. -/
structure TransferResult.Subsumed (h : Hierarchy) (r r' : TransferResult) : Prop where
  left : r.Wf h
  right : r'.Wf h
  live : r.Live
  live' : r'.Live
  subsumed : r.isSubsumedBy h r' = true

/-- Two tables of the qualifiers of nodes that are defined at the same nodes, the first pointwise
below the second. -/
structure NodeValues.Pointwise (h : Hierarchy) (n : Nat) (V W : NodeValues) : Prop where
  left : V.size = n
  right : W.size = n
  rel : ∀ id, Option.Rel (fun q q' => h.isSubtype q q' = true) (V.getD id none) (W.getD id none)

namespace TransferResult.Subsumed

variable {h : Hierarchy} {r r' : TransferResult}

theorem of_stores (hh : h.Lawful) (ht : r.thenStore.Under h r'.thenStore)
    (he : r.elseStore.Under h r'.elseStore) : r.Subsumed h r' where
  left := ⟨ht.left, he.left⟩
  right := ⟨ht.right, he.right⟩
  live := ⟨ht.reached, he.reached⟩
  live' := ⟨(ht.le ht.reached).1, (he.le he.reached).1⟩
  subsumed := by
    rw [isSubsumedBy, Bool.and_eq_true, Store.isSubsumedBy_iff hh ht.left ht.right,
      Store.isSubsumedBy_iff hh he.left he.right]
    exact ⟨ht.le, he.le⟩

theorem of_under (hh : h.Lawful) (hr : r.Under h r') : r.Subsumed h r' :=
  of_stores hh hr.thenStore hr.elseStore

theorem regular (hh : h.Lawful) {s s' : Store} (hs : s.Under h s') :
    (TransferResult.regular s).Subsumed h (.regular s') := of_stores hh hs hs

theorem stores (hh : h.Lawful) (hr : r.Subsumed h r') :
    r.thenStore.Under h r'.thenStore ∧ r.elseStore.Under h r'.elseStore := by
  have hle := hr.subsumed
  rw [isSubsumedBy, Bool.and_eq_true,
    Store.isSubsumedBy_iff hh hr.left.thenStore hr.right.thenStore,
    Store.isSubsumedBy_iff hh hr.left.elseStore hr.right.elseStore] at hle
  exact ⟨⟨hr.left.thenStore, hr.right.thenStore, hr.live.thenStore, hle.1⟩,
    ⟨hr.left.elseStore, hr.right.elseStore, hr.live.elseStore, hle.2⟩⟩

theorem collapse (hh : h.Lawful) (hr : r.Subsumed h r') :
    (r.collapse h).Under h (r'.collapse h) := by
  obtain ⟨ht, he⟩ := hr.stores hh
  refine ⟨hr.left.collapse hh, hr.right.collapse hh, hr.live.collapse, ?_⟩
  exact collapse_le hh hr.left (ht.le.trans hh (thenStore_le_collapse hh hr.right))
    (he.le.trans hh (elseStore_le_collapse hh hr.right))

theorem swap (hh : h.Lawful) (hr : r.Subsumed h r') : r.swap.Subsumed h r'.swap := by
  obtain ⟨ht, he⟩ := hr.stores hh
  apply of_stores hh
  · rwa [thenStore_swap, thenStore_swap]
  · rwa [elseStore_swap, elseStore_swap]

end TransferResult.Subsumed

namespace NodeValues.Pointwise

variable {h : Hierarchy} {n : Nat} {V W : NodeValues}

theorem holds_iff (hV : V.Pointwise h n W) (id : NodeId) : V.Holds id ↔ W.Holds id := by
  have hrel := hV.rel id
  unfold Holds
  generalize V.getD id none = x at hrel
  generalize W.getD id none = y at hrel
  cases hrel with
  | none => rfl
  | some _ => simp

theorem le (hV : V.Pointwise h n W) : V.Le h W := by
  intro id q hq
  have hrel := hV.rel id
  rw [hq] at hrel
  generalize hW : W.getD id none = y at hrel
  cases hrel with
  | some hle => exact ⟨_, rfl, hle⟩

theorem under (hh : h.Lawful) (hV : V.Pointwise h n W) : V.Under h n W := by
  refine ⟨hV.left, hV.right, hV.le, fun id q hq => ⟨q, hq, ?_⟩⟩
  obtain ⟨p, hp⟩ := (hV.holds_iff id).mpr ⟨q, hq⟩
  obtain ⟨q', hq', hle⟩ := hV.le id p hp
  rw [hq] at hq'
  cases hq'
  exact hh.le_refl (hh.has_of_le hle).2

end NodeValues.Pointwise

/-- A node names one qualifier at most. -/
theorem NodeKind.eq_of_mem_names {kind : NodeKind} {a b : String} (ha : a ∈ kind.names)
    (hb : b ∈ kind.names) : a = b := by
  have hdeclared {declared : Option String} (ha : a ∈ declared.toList)
      (hb : b ∈ declared.toList) : a = b := by
    rw [Option.mem_toList] at ha hb
    exact Option.mem_unique ha hb
  unfold names at ha hb
  split at ha
  · exact hdeclared ha hb
  · exact hdeclared ha hb
  · exact hdeclared ha hb
  · exact (List.mem_singleton.mp ha).trans (List.mem_singleton.mp hb).symm
  · cases ha

namespace UnitAnalysis

variable {u : UnitAnalysis} {V W : NodeValues} {node : Node} {r r' : TransferResult}
  {ids : List NodeId} {run run' : BlockRun} {q q' : Qualifier}

/-- A node that does not negate sees one store. -/
theorem transferNode_collapse (hkind : ∀ id, node.kind ≠ .unary .not id) :
    u.transferNode V node r =
      u.transferNode V node (.regular (r.collapse u.checker.hierarchy)) := by
  rw [transferNode_of_ne_not hkind, transferNode_of_ne_not hkind]
  rfl

theorem transferNode_subsumed (hc : u.checker.Sound) (hV : V.Le u.checker.hierarchy W)
    {s s' : TransferResult} (hr : r.Subsumed u.checker.hierarchy r')
    (h : u.transferNode V node r = .ok (q, s)) (h' : u.transferNode W node r' = .ok (q', s')) :
    u.checker.hierarchy.isSubtype q q' = true ∧ s.Subsumed u.checker.hierarchy s' := by
  have hh := hc.lawful
  by_cases hnot : ∃ id, node.kind = .unary .not id
  · obtain ⟨id, hnot⟩ := hnot
    simp only [transferNode, hnot] at h h'
    obtain ⟨_, -, h⟩ := bind_ok.mp h
    obtain ⟨v, hv, heq⟩ := bind_ok.mp h
    obtain ⟨_, -, h'⟩ := bind_ok.mp h'
    obtain ⟨v', hv', heq'⟩ := bind_ok.mp h'
    cases heq
    cases heq'
    exact ⟨operand_mono hV hv hv', hr.swap hh⟩
  · have hkind : ∀ id, node.kind ≠ .unary .not id := fun id hid => hnot ⟨id, hid⟩
    rw [transferNode_collapse hkind] at h h'
    obtain ⟨hle, hs⟩ := transferNode_mono hc hV (hr.collapse hh).regular h h'
    exact ⟨hle, .of_under hh hs⟩

/-- Where its operands have qualifiers, a node with an unknown name fails for it. -/
theorem transferNode_unknown (hoperands : ∀ o ∈ node.kind.operands, V.Holds o) {name : String}
    (hname : name ∈ node.kind.names) (hunknown : u.checker.hierarchy.lookup? name = none) :
    u.transferNode V node r = .error (.unknownQualifier name node.block node.id) := by
  cases hresult : u.transferNode V node r with
  | ok p => exact absurd hunknown (names_of_transferNode hresult name hname)
  | error e =>
      cases transferNode_fails hresult with
      | missing ho hnone => exact absurd (hoperands _ ho) hnone
      | unknown hname' _ => rw [NodeKind.eq_of_mem_names hname hname']

/-- Whether an operand is missing does not depend on the qualifiers that are there. -/
theorem discard_operand {h : Hierarchy} {n : Nat} (hV : V.Pointwise h n W) (id : NodeId) :
    discard (operand V node id) = discard (operand W node id) := by
  have hrel := hV.rel id
  unfold operand
  generalize V.getD id none = x at hrel
  generalize W.getD id none = y at hrel
  cases hrel with
  | none => rfl
  | some _ => rfl

/-- The transfer of a node fails alike or gives qualifiers and results one below the other. -/
theorem transferNode_alike (hc : u.checker.Sound) {n : Nat}
    (hV : V.Pointwise u.checker.hierarchy n W) (hr : r.Subsumed u.checker.hierarchy r')
    (node : Node) : Alike (fun x y => u.checker.hierarchy.isSubtype x.1 y.1 = true ∧
      x.2.Subsumed u.checker.hierarchy y.2) (u.transferNode V node r)
      (u.transferNode W node r') := by
  have hread : (node.kind.operands.forM fun id => discard (operand V node id)) =
      node.kind.operands.forM fun id => discard (operand W node id) :=
    congrArg node.kind.operands.forM (funext fun id => discard_operand hV id)
  cases hall : node.kind.operands.forM fun id => discard (operand V node id) with
  | error e =>
      have hfails {U : NodeValues} {s : TransferResult}
          (hU : (node.kind.operands.forM fun id => discard (operand U node id)) = .error e) :
          u.transferNode U node s = .error e := bind_error.mpr (.inl hU)
      rw [hfails hall, hfails (hread ▸ hall)]
      exact .error e
  | ok _ =>
      have hholds : ∀ o ∈ node.kind.operands, V.Holds o := by
        intro o ho
        obtain ⟨q, hq, -⟩ := map_ok (forM_ok.mp hall o ho)
        exact ⟨q, operand_ok.mp hq⟩
      have hholds' : ∀ o ∈ node.kind.operands, W.Holds o :=
        fun o ho => (hV.holds_iff o).mp (hholds o ho)
      by_cases hnames : ∀ name ∈ node.kind.names, u.checker.hierarchy.lookup? name ≠ none
      · obtain ⟨q, s, h⟩ : ∃ q s, u.transferNode V node r = .ok (q, s) :=
          transferNode_isOk hnames hholds
        obtain ⟨q', s', h'⟩ : ∃ q s, u.transferNode W node r' = .ok (q, s) :=
          transferNode_isOk hnames hholds'
        rw [h, h']
        exact .ok (transferNode_subsumed hc hV.le hr h h')
      · push Not at hnames
        obtain ⟨name, hname, hunknown⟩ := hnames
        rw [transferNode_unknown hholds hname hunknown,
          transferNode_unknown hholds' hname hunknown]
        exact .error _

theorem recordValue_pointwise (hc : u.checker.Sound) {id : NodeId} (hid : id < u.graph.nodeCount)
    (hV : run.values.Pointwise u.checker.hierarchy u.graph.nodeCount run'.values)
    (hq : u.checker.hierarchy.isSubtype q q' = true) :
    (u.recordValue id q run).values.Pointwise u.checker.hierarchy u.graph.nodeCount
      (u.recordValue id q' run').values := by
  have hunder := hV.under hc.lawful
  refine ⟨recordValue_size.trans hV.left, recordValue_size.trans hV.right, fun j => ?_⟩
  rw [recordValue_values (hV.left.symm ▸ hid), recordValue_values (hV.right.symm ▸ hid)]
  split
  · exact .some (hc.lawful.joinOnto_mono (hunder.le id)
      (fun _ => hunder.refl.has hc.lawful) hq)
  · exact hV.rel j

/-- Two runs stop with the same error, or end with tables and results one below the other. -/
inductive RunSubsumed (h : Hierarchy) (n : Nat) :
    BlockRun × Option AnalysisError → BlockRun × Option AnalysisError → Prop where
  | ended {run run' : BlockRun} : run.values.Pointwise h n run'.values →
      run.current.Subsumed h run'.current → RunSubsumed h n (run, none) (run', none)
  | stopped {run run' : BlockRun} (e : AnalysisError) : RunSubsumed h n (run, some e) (run', some e)

theorem runNodes_subsumed (hc : u.checker.Sound)
    (hV : run.values.Pointwise u.checker.hierarchy u.graph.nodeCount run'.values)
    (hcurrent : run.current.Subsumed u.checker.hierarchy run'.current) :
    RunSubsumed u.checker.hierarchy u.graph.nodeCount (u.runNodes ids run)
      (u.runNodes ids run') := by
  induction ids generalizing run run' with
  | nil => exact .ended hV hcurrent
  | cons id rest ih =>
      rw [runNodes, runNodes]
      cases hnode : u.graph.node? id with
      | none => exact ih hV hcurrent
      | some node =>
          have htransfer := transferNode_alike hc hV hcurrent node
          dsimp only
          generalize u.transferNode run.values node run.current = x at htransfer
          generalize u.transferNode run'.values node run'.current = y at htransfer
          cases htransfer with
          | error e => exact .stopped e
          | ok hle =>
              exact @ih ⟨_, _, _⟩ ⟨_, _, _⟩ (recordValue_pointwise hc (node?_lt hnode) hV hle.1)
                hle.2

/-- What two transfers of a block send: facts along the same edges and tables, those of the first
below those of the second. -/
structure SendsBelow (h : Hierarchy) (n : Nat)
    (x y : BlockTransfer TransferResult × NodeValues) : Prop where
  output : x.1.output.Subsumed h y.1.output
  edges : List.Forall₂ (fun e e' => e.1 = e'.1 ∧ e.2.Subsumed h e'.2) x.1.edges y.1.edges
  values : x.2.Pointwise h n y.2

theorem forall₂_map_subsumed {h : Hierarchy} (hr : r.Subsumed h r') (targets : List BlockId) :
    List.Forall₂ (fun e e' => e.1 = e'.1 ∧ e.2.Subsumed h e'.2) (targets.map (·, r))
      (targets.map (·, r')) := by
  induction targets with
  | nil => exact .nil
  | cons target rest ih => exact .cons ⟨rfl, hr⟩ ih

/-- The transfer of blocks is monotone. From results the first of which is subsumed by the second,
and tables defined at the same nodes the first of which is pointwise below the second, both fail
with the same error or both succeed, and then outputs, the facts along each edge and the tables left
are in the same order. -/
theorem transferBlock_monotone {d : CheckerDeclaration}
    (hc : Checker.ofDeclaration d = .ok u.checker)
    (hV : V.Pointwise u.checker.hierarchy u.graph.nodeCount W)
    (hr : r.Subsumed u.checker.hierarchy r') (id : BlockId) :
    Alike (SendsBelow u.checker.hierarchy u.graph.nodeCount) (u.transferBlock V id r)
      (u.transferBlock W id r') := by
  have hsound := Checker.ofDeclaration_sound hc
  have hh := hsound.lawful
  have hbefore := TransferResult.Subsumed.regular hh (hr.collapse hh)
  obtain ⟨hthen, helse⟩ := hr.stores hh
  have hrun (block : Block) : RunSubsumed u.checker.hierarchy u.graph.nodeCount
      (u.runBlock block V r) (u.runBlock block W r') := runNodes_subsumed hsound hV hr
  unfold transferBlock
  cases u.graph.block? id with
  | none => exact .ok ⟨hr, .nil, hV⟩
  | some block =>
      have hrun := hrun block
      dsimp only
      cases block.kind with
      | conditional condition thenSuccessor elseSuccessor =>
          exact .ok ⟨hr, .cons ⟨rfl, .regular hh hthen⟩ (.cons ⟨rfl, .regular hh helse⟩ .nil), hV⟩
      | special kind successor => exact .ok ⟨hbefore, forall₂_map_subsumed hbefore _, hV⟩
      | regular successor =>
          dsimp only
          generalize u.runBlock block V r = x at hrun
          generalize u.runBlock block W r' = y at hrun
          cases hrun with
          | stopped e => exact .error e
          | ended hvalues hcurrent =>
              exact .ok ⟨hcurrent, .cons ⟨rfl, hcurrent⟩ .nil, hvalues⟩
      | exceptional successor handlers =>
          dsimp only
          generalize u.runBlock block V r = x at hrun
          generalize u.runBlock block W r' = y at hrun
          cases hrun with
          | stopped e => exact .error e
          | ended hvalues hcurrent =>
              have hcaught := forall₂_map_subsumed hbefore (handlers.map Prod.snd)
              rw [List.map_map, List.map_map] at hcaught
              exact .ok ⟨hcurrent,
                List.rel_append (forall₂_map_subsumed hcurrent _) hcaught, hvalues⟩

end UnitAnalysis

/-- A link that is known to be present, and one that a test may have found to be present: the block
that tests it sends on no more from the first than from the second. -/
theorem followingUnit_monotone : ∃ c g, Checker.ofDeclaration presence = .ok c ∧
    followingUnit.lower = .ok g ∧
    let u := UnitAnalysis.new c g (.new c.hierarchy)
    let unknown := Store.new c.hierarchy
    let known := unknown.insert (.local "node") c.hierarchy.bottom
    let V : NodeValues := Array.replicate g.nodeCount (some c.hierarchy.bottom)
    let W : NodeValues := Array.replicate g.nodeCount (some c.hierarchy.top)
    V.Pointwise c.hierarchy g.nodeCount W ∧
    TransferResult.Subsumed c.hierarchy (.regular known) (.split known unknown) ∧
    (u.transferBlock V 9 (.regular known)).toOption.isSome = true ∧
    Alike (UnitAnalysis.SendsBelow c.hierarchy g.nodeCount)
      (u.transferBlock V 9 (.regular known)) (u.transferBlock W 9 (.split known unknown)) := by
  have hok : ((Checker.ofDeclaration presence).toOption.bind fun c =>
      followingUnit.lower.toOption.bind fun g =>
        let known := (Store.new c.hierarchy).insert (.local "node") c.hierarchy.bottom
        let V : NodeValues := Array.replicate g.nodeCount (some c.hierarchy.bottom)
        if ((UnitAnalysis.new c g (.new c.hierarchy)).transferBlock V 9
            (.regular known)).toOption.isSome = true then some (c, g)
        else none).isSome = true := by decide +kernel
  obtain ⟨⟨c, g⟩, h⟩ := Option.isSome_iff_exists.mp hok
  obtain ⟨c', hc, h⟩ := Option.bind_eq_some_iff.mp h
  obtain ⟨g', hg, h⟩ := Option.bind_eq_some_iff.mp h
  obtain ⟨htransferred, heq⟩ := Option.ite_none_right_eq_some.mp h
  cases heq
  have hc := ok_of_toOption hc
  have hh := (Checker.ofDeclaration_sound hc).lawful
  have hbottom := Checker.bottom_le hc hh.has_top
  have hnew : (Store.new c.hierarchy).Under c.hierarchy (.new c.hierarchy) :=
    ⟨Store.wf_new _, Store.wf_new _, rfl, Store.le_refl hh (Store.wf_new _)⟩
  have hknown : ((Store.new c.hierarchy).insert (.local "node") c.hierarchy.bottom).Under
      c.hierarchy ((Store.new c.hierarchy).insert (.local "node") c.hierarchy.bottom) :=
    hnew.insert hh (hh.le_refl (hh.has_of_le hbottom).1)
  have hunknown : ((Store.new c.hierarchy).insert (.local "node") c.hierarchy.bottom).Under
      c.hierarchy (.new c.hierarchy) := by
    refine ⟨hknown.left, hnew.right, rfl, fun _ => ⟨rfl, fun k => ?_⟩⟩
    rw [Store.valueOrTop_insert]
    split
    · exact hbottom
    · exact hnew.valueOrTop_le k
  have hvalues : NodeValues.Pointwise c.hierarchy g.nodeCount
      (Array.replicate g.nodeCount (some c.hierarchy.bottom))
      (Array.replicate g.nodeCount (some c.hierarchy.top)) := by
    refine ⟨Array.size_replicate, Array.size_replicate, fun id => ?_⟩
    by_cases hid : id < g.nodeCount
    · simpa [hid] using hbottom
    · simp [hid]
  have hresults : TransferResult.Subsumed c.hierarchy (.regular _) (.split _ _) :=
    .of_stores hh hknown hunknown
  exact ⟨c, g, hc, ok_of_toOption hg, hvalues, hresults, htransferred,
    UnitAnalysis.transferBlock_monotone (u := .new c g (.new c.hierarchy)) hc hvalues hresults 9⟩

end FlowTyping
