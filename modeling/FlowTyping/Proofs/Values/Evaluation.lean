import FlowTyping.Proofs.Flow.Touched
import FlowTyping.Proofs.Values.Machine
import FlowTyping.Proofs.Waiting.Stages

/-!
One node of a run. Its value is among those that its qualifier stands for, and the result of
its transfer describes the run after it.
-/

namespace FlowTyping

namespace Checker

variable {c : Checker} {node node' : Node} {var : LocalVar} {q q' : Qualifier}

/-- The bound of a variable does not depend on where it is used. -/
theorem localBound_unique (h : c.localBound node var = .ok q)
    (h' : c.localBound node' var = .ok q') : q = q' := by
  unfold localBound at h h'
  cases hdeclared : var.declared with
  | some name =>
      simp only [hdeclared, resolveAt] at h h'
      cases hlookup : c.hierarchy.lookup? name with
      | none =>
          rw [hlookup] at h
          cases h
      | some found =>
          rw [hlookup] at h h'
          cases h
          cases h'
          rfl
  | none =>
      cases horigin : var.origin <;> simp only [hdeclared, horigin] at h h'
      all_goals
        cases h
        cases h'
        rfl

theorem allows_of_bound {Value : Type} {I : Interpretation c.hierarchy Value} {v : Value}
    (h : c.localBound node var = .ok q) (hv : v ∈ I.values q) : c.Allows I var v :=
  fun _ _ h' => localBound_unique h h' ▸ hv

end Checker

namespace UnitAnalysis

/-- An analysis of a unit over local variables of distinct names, without pure methods. -/
structure Plain (u : UnitAnalysis) (vars : List LocalVar) : Prop where
  sound : u.checker.Sound
  valid : u.graph.Valid
  keys : u.keys = u.checker.nodeKeys u.graph
  impure : ∀ method, u.checker.signatures.isPure method = false
  nodes : ∀ id node, u.graph.node? id = some node → node.kind.Over vars id
  distinct : (vars.map LocalVar.name).Nodup

variable {u : UnitAnalysis} {vars : List LocalVar}

/-- Only reads of variables and of the receiver have keys that a store may hold. -/
theorem Plain.exists_keyed (hp : u.Plain vars) {m : NodeId} {key : FlowKey}
    (hkey : u.key? m = some key) : ∃ node, u.graph.node? m = some node ∧
      ((∃ var, node.kind = .localRead var ∧ key = .local var.name) ∨
        node.kind = .this ∧ key = .this) := by
  obtain ⟨hown, hrefinable⟩ := Option.filter_eq_some_iff.mp hkey
  rw [hp.keys] at hown
  obtain ⟨before, node, hnode, hnodeKey⟩ := Checker.exists_nodeKey hown
  refine ⟨node, hnode, ?_⟩
  have hover := hp.nodes m node hnode
  cases hkind : node.kind <;> simp only [hkind, Checker.nodeKey] at hnodeKey
  case localRead var => exact .inl ⟨var, rfl, (Option.some.inj hnodeKey).symm⟩
  case this => exact .inr ⟨rfl, (Option.some.inj hnodeKey).symm⟩
  case literal value =>
    cases hnodeKey
    cases hrefinable
  case fieldRead receiver field => exact absurd hkind (hover.read receiver field)
  case call receiver method args =>
    rw [hp.impure method] at hnodeKey
    cases hnodeKey
  all_goals cases hnodeKey

theorem Plain.key?_of_call (hp : u.Plain vars) {id : NodeId} {node : Node}
    (hnode : u.graph.node? id = some node) {receiver : Option NodeId} {method : String}
    {args : List NodeId} (hkind : node.kind = .call receiver method args) :
    u.key? node.id = none := by
  cases hkey : u.key? node.id with
  | none => rfl
  | some key =>
      obtain ⟨node', hnode', hkinds⟩ := hp.exists_keyed hkey
      rw [hp.valid.node hnode, hnode] at hnode'
      cases hnode'
      rw [hkind] at hkinds
      rcases hkinds with ⟨var, heq, -⟩ | ⟨heq, -⟩
      · cases heq
      · cases heq

theorem Plain.eq_of_name (hp : u.Plain vars) {var var' : LocalVar} (h : var ∈ vars)
    (h' : var' ∈ vars) (hname : var.name = var'.name) : var = var' :=
  List.inj_on_of_nodup_map hp.distinct h h' hname

end UnitAnalysis

theorem PostconditionTarget.operand?_mem {target : PostconditionTarget}
    {receiver : Option NodeId} {args : List NodeId} {m : NodeId}
    (h : target.operand? receiver args = some m) {method : String} :
    m ∈ (NodeKind.call receiver method args).direct := by
  cases target with
  | receiver => exact List.mem_append_left _ (Option.mem_toList.mpr h)
  | argument index => exact List.mem_append_right _ (List.mem_of_getElem? h)

namespace RunState

variable {Value : Type} {u : UnitAnalysis} {vars : List LocalVar}
  {I : Interpretation u.checker.hierarchy Value} {object : Value} {a : AnalyzedUnit}
  {V : NodeValues} {σ : RunState Value} {id : NodeId} {node : Node} {w : Option Value}
  {q : Qualifier} {s s' : Store} {input r : TransferResult}

/-- The values of nodes are among those that their qualifiers stand for, and those of
variables are allowed. -/
structure Typed (u : UnitAnalysis) (I : Interpretation u.checker.hierarchy Value)
    (vars : List LocalVar) (V : NodeValues) (σ : RunState Value) : Prop where
  nodes : ∀ id v, σ.value id = some v → ∃ q, V.getD id none = some q ∧ v ∈ I.values q
  bounds : ∀ var ∈ vars, ∀ v, σ.env var.name = some v → u.checker.Allows I var v

theorem Typed.mem (h : σ.Typed u I vars V) {m : NodeId} {v : Value} (hv : σ.value m = some v)
    (hq : V.getD m none = some q) : v ∈ I.values q := by
  obtain ⟨q', hq', hmem⟩ := h.nodes m v hv
  rw [hq] at hq'
  cases hq'
  exact hmem

/-- What a node of a run has to do with the qualifiers found. Those found for its operands
are recorded, an assignment that breaks a bound has a diagnostic, and the operands with keys
have the values that these stand for. -/
structure Ready (u : UnitAnalysis) (object : Value) (a : AnalyzedUnit) (V : NodeValues)
    (σ : RunState Value) (node : Node) : Prop where
  has : V.Le u.checker.hierarchy V
  recorded : ∀ m q, V.getD m none = some q → a.values.getD m none = some q
  flagged : ∀ var operand source bound, node.kind = .assign (.local var) operand →
    V.getD operand none = some source → u.checker.localBound node var = .ok bound →
    u.checker.hierarchy.isSubtype source bound = false → a.Flags node.id
  fresh : node.kind.setsLocal = false → ∀ m ∈ node.kind.direct, ∀ key, u.key? m = some key →
    σ.value m = key.look object σ.env

theorem Computes.of_localDecl {var : LocalVar} (hw : σ.Computes u.checker I object a node w)
    (hkind : node.kind = .localDecl var) : ∀ v, w = some v → u.checker.Allows I var v := by
  cases hw with
  | localDecl kind fits =>
      cases hkind.symm.trans kind
      exact fits
  | _ => simp_all

theorem Computes.of_assign {target : NodeTarget} {operand : NodeId} {v : Value}
    (hw : σ.Computes u.checker I object a node w) (hkind : node.kind = .assign target operand)
    (hv : w = some v) : σ.value operand = some v ∧
      (a.Flags node.id → ∀ var, target = .local var → u.checker.Allows I var v) := by
  cases hw with
  | assign kind source kept =>
      cases hkind.symm.trans kind
      cases hv
      exact ⟨source, kept⟩
  | _ => simp_all

theorem Computes.of_binary {op : BinOp} {lhs rhs : NodeId}
    (hw : σ.Computes u.checker I object a node w) (hkind : node.kind = .binary op lhs rhs) :
    ∃ v, w = some v ∧ (op.isEquality = true → I.passes v = decide (op = .eq) →
      σ.value lhs = σ.value rhs) := by
  cases hw with
  | binary kind ruled joined equal =>
      cases hkind.symm.trans kind
      exact ⟨_, rfl, equal⟩
  | _ => simp_all

theorem Computes.of_unary {op : UnaryOp} {operand : NodeId}
    (hw : σ.Computes u.checker I object a node w) (hkind : node.kind = .unary op operand) :
    ∃ x v, w = some v ∧ σ.value operand = some x ∧ (op = .not → I.passes v = !I.passes x) ∧
      ∀ q, a.values.getD operand none = some q → v ∈ I.values q := by
  cases hw with
  | unary kind source negates fits =>
      cases hkind.symm.trans kind
      exact ⟨_, _, rfl, source, negates, fits⟩
  | _ => simp_all

theorem Computes.of_call {receiver : Option NodeId} {method : String} {args : List NodeId}
    (hw : σ.Computes u.checker I object a node w) (hkind : node.kind = .call receiver method args) :
    ∃ v, w = some v ∧ (∀ signature, u.checker.signatures.method? method = some signature →
        ∀ p ∈ signature.ensures, σ.Meets I receiver args p.target p.qualifier) ∧
      ∀ signature, u.checker.signatures.method? method = some signature →
        ∀ p ∈ signature.ensuresIf, I.passes v = p.result →
          σ.Meets I receiver args p.target p.qualifier := by
  cases hw with
  | call kind fits ensures ensuresIf =>
      cases hkind.symm.trans kind
      exact ⟨_, rfl, ensures, ensuresIf⟩
  | _ => simp_all

theorem mem_assigned (hσ : σ.Typed u I vars V) (hready : σ.Ready u object a V node)
    {var : LocalVar} {operand : NodeId} {v : Value} {source bound : Qualifier}
    (hkind : node.kind = .assign (.local var) operand) (hv : σ.value operand = some v)
    (hkept : a.Flags node.id → u.checker.Allows I var v)
    (hsource : V.getD operand none = some source)
    (hbound : u.checker.localBound node var = .ok bound) :
    v ∈ I.values bound ∧ v ∈ I.values (u.clamp source bound) := by
  unfold UnitAnalysis.clamp
  split
  · rename_i hle
    exact ⟨I.mono hle (hσ.mem hv hsource), hσ.mem hv hsource⟩
  · rename_i hle
    have hflag := hready.flagged var operand source bound hkind hsource hbound
      (Bool.eq_false_iff.mpr hle)
    exact ⟨hkept hflag node bound hbound, hkept hflag node bound hbound⟩

/-- After a node the variables have allowed values. -/
theorem Computes.bounds (hp : u.Plain vars) (hnode : u.graph.node? id = some node)
    (hσ : σ.Typed u I vars V) (hready : σ.Ready u object a V node)
    (hw : σ.Computes u.checker I object a node w)
    (h : u.transferNode V node input = .ok (q, r)) :
    ∀ var ∈ vars, ∀ v, node.kind.write σ.env w var.name = some v →
      u.checker.Allows I var v := by
  -- The variable that is written is the only one of its name.
  have hwritten {var : LocalVar} (hvar : node.kind.localVar? = some var)
      (hallows : ∀ v, w = some v → u.checker.Allows I var v) :
      ∀ var' ∈ vars, ∀ v, Function.update σ.env var.name w var'.name = some v →
        u.checker.Allows I var' v := by
    intro var' hmem v hv
    by_cases hname : var'.name = var.name
    · rw [hname, Function.update_self] at hv
      rw [hp.eq_of_name hmem ((hp.nodes id node hnode).names var hvar) hname]
      exact hallows v hv
    · rw [Function.update_of_ne hname] at hv
      exact hσ.bounds var' hmem v hv
  cases hkind : node.kind with
  | localDecl var => exact hwritten (by rw [hkind]; rfl) (hw.of_localDecl hkind)
  | assign target operand =>
      cases target with
      | field receiver field => exact absurd hkind ((hp.nodes id node hnode).write _ _ _)
      | «local» var =>
          refine hwritten (by rw [hkind]; rfl) fun v hv => ?_
          obtain ⟨hsource, hkept⟩ := hw.of_assign hkind hv
          rw [UnitAnalysis.transferNode_of_ne_not (by simp [hkind])] at h
          obtain ⟨_, -, h⟩ := bind_ok.mp h
          obtain ⟨p, hvalue, -⟩ := bind_ok.mp h
          simp only [UnitAnalysis.evaluate, hkind] at hvalue
          obtain ⟨source, hfound, hvalue⟩ := bind_ok.mp hvalue
          obtain ⟨bound, hbound, -⟩ := bind_ok.mp hvalue
          have hmem := mem_assigned hσ hready hkind hsource (fun hflag => hkept hflag var rfl)
            (UnitAnalysis.operand_ok.mp hfound) hbound
          exact Checker.allows_of_bound hbound hmem.1
  | _ => exact hσ.bounds

theorem Ready.looks (hready : σ.Ready u object a V node) (hsets : node.kind.setsLocal = false)
    {m : NodeId} (hm : m ∈ node.kind.direct) {key : FlowKey} (hkey : u.key? m = some key)
    {x : Value} (hx : key.look object σ.env = some x) : σ.value m = some x :=
  (hready.fresh hsets m hm key hkey).trans hx

/-- A variable that is set has no other key than its own. -/
theorem look_update {name : String} {key : FlowKey} (hkey : key.mentionsLocal name = false) :
    key.look object (Function.update σ.env name w) = key.look object σ.env := by
  cases key with
  | «local» other =>
      simp only [FlowKey.mentionsLocal, decide_eq_false_iff_not] at hkey
      exact Function.update_of_ne hkey _ _
  | _ => rfl

/-- A value of one of two operands is among those of their join. -/
theorem Typed.mem_join (hσ : σ.Typed u I vars V) (hh : u.checker.hierarchy.Lawful)
    (hhas : V.Le u.checker.hierarchy V) {lhs rhs : NodeId} {v : Value}
    (hsource : σ.value lhs = some v ∨ σ.value rhs = some v)
    (hq : u.joinOperands V node lhs rhs = .ok q) : v ∈ I.values q := by
  obtain ⟨l, hl, hq⟩ := bind_ok.mp hq
  obtain ⟨r, hr, heq⟩ := bind_ok.mp hq
  cases heq
  have hl := UnitAnalysis.operand_ok.mp hl
  have hr := UnitAnalysis.operand_ok.mp hr
  have hhasl := hhas.has hh hl
  have hhasr := hhas.has hh hr
  rcases hsource with hv | hv
  · exact I.mono (hh.le_join_left hhasl hhasr) (hσ.mem hv hl)
  · exact I.mono (hh.le_join_right hhasl hhasr) (hσ.mem hv hr)

/-- A call bears out its postconditions, and it changes no local variable. -/
theorem call_describes (hp : u.Plain vars) (hready : σ.Ready u object a V node)
    {receiver : Option NodeId} {method : String} {args : List NodeId}
    (hkind : node.kind = .call receiver method args)
    (hensures : ∀ signature, u.checker.signatures.method? method = some signature →
      ∀ p ∈ signature.ensures, σ.Meets I receiver args p.target p.qualifier)
    (hs : s.Describes I (FlowKey.look object σ.env)) :
    ((((u.checker.signatures.method? method).map MethodSignature.ensures).getD []).foldl
      (u.ensure receiver args) s.invalidateHeap).Describes I (FlowKey.look object σ.env) := by
  have hcleared : s.invalidateHeap.Describes I (FlowKey.look object σ.env) :=
    hs.retain fun _ _ => rfl
  cases hsig : u.checker.signatures.method? method with
  | none => exact hcleared
  | some signature =>
      refine UnitAnalysis.ensures_describes hp.sound hcleared
        (hp.sound.within hsig).ensures fun p hmem m hm key hkey x hx => ?_
      exact hensures signature hsig p hmem m hm x (hready.looks (by rw [hkind]; rfl)
        (hkind ▸ PostconditionTarget.operand?_mem hm) hkey hx)

/-- An assigned variable has the assigned value, the others keep theirs. -/
theorem assign_describes {name : String} {v : Value}
    (hhas : u.checker.hierarchy.Has q) (hv : v ∈ I.values q)
    (hs : s.Describes I (FlowKey.look object σ.env)) :
    ((s.invalidateLocal name).insert (.local name) q).Describes I
      (FlowKey.look object (Function.update σ.env name (some v))) := by
  have hcleared : (s.invalidateLocal name).Describes I
      (FlowKey.look object (Function.update σ.env name (some v))) :=
    hs.retain fun key hkey => look_update (by simpa using hkey)
  refine hcleared.insert hhas fun x hx => ?_
  rw [FlowKey.look, Function.update_self] at hx
  exact Option.some.inj hx ▸ hv

/-- A node computes a value that its qualifier stands for, and the store after it describes
the run. -/
theorem Computes.evaluate (hp : u.Plain vars) (hnode : u.graph.node? id = some node)
    (hσ : σ.Typed u I vars V) (hready : σ.Ready u object a V node)
    (hw : σ.Computes u.checker I object a node w)
    (hs : s.Describes I (FlowKey.look object σ.env)) (h : u.evaluate V node s = .ok (q, s')) :
    (∀ v ∈ w, v ∈ I.values q) ∧
      s'.Describes I (FlowKey.look object (node.kind.write σ.env w)) := by
  have hh := hp.sound.lawful
  have hover := hp.nodes id node hnode
  have hone {v : Value} {p : Qualifier} (hv : v ∈ I.values p) : ∀ x ∈ some v, x ∈ I.values p := by
    intro x hx
    exact Option.mem_some_iff.mp hx ▸ hv
  -- A node that only hands on the value of an optional operand.
  have hpassed {operand : Option NodeId} (hq : ∀ m ∈ operand, V.getD m none = some q) :
      ∀ v ∈ operand.bind σ.value, v ∈ I.values q := by
    intro v hv
    obtain ⟨m, hm, hv⟩ := Option.bind_eq_some_iff.mp hv
    exact hσ.mem hv (hq m hm)
  cases hw with
  | literal kind fits =>
      simp only [UnitAnalysis.evaluate, kind] at h
      cases h
      rw [kind]
      exact ⟨hone fits, hs⟩
  | @localRead var v kind held =>
      simp only [UnitAnalysis.evaluate, kind] at h
      obtain ⟨bound, hbound, heq⟩ := bind_ok.mp h
      cases heq
      have hb := hp.sound.has_localBound hbound
      have hallowed := hσ.bounds var (hover.names var (by rw [kind]; rfl)) v held node bound hbound
      rw [kind, UnitAnalysis.flowValue_eq hp.sound hs.wf hb]
      exact ⟨hone (I.meet (hs.wf.has_valueOrTop hh _) hb ⟨hs.values _ v held, hallowed⟩), hs⟩
  | this kind =>
      simp only [UnitAnalysis.evaluate, kind] at h
      cases h
      rw [kind]
      exact ⟨hone (hs.values .this object rfl), hs⟩
  | fieldRead kind fits => exact absurd kind (hover.read _ _)
  | @call receiver method args v kind fits ensures ensuresIf =>
      simp only [UnitAnalysis.evaluate, kind] at h
      cases h
      have hcalled := call_describes hp hready kind ensures hs
      rw [kind, hp.key?_of_call hnode kind, hp.impure method]
      exact ⟨hone fits, hcalled⟩
  | new kind fits =>
      simp only [UnitAnalysis.evaluate, kind] at h
      cases h
      rw [kind]
      exact ⟨hone fits, hs.retain fun _ _ => rfl⟩
  | @binary op lhs rhs v kind ruled joined equal =>
      simp only [UnitAnalysis.evaluate, kind] at h
      rw [kind]
      cases hrule : u.checker.implicit.find? (.element (UnitAnalysis.syntaxOf op)) with
      | some rule =>
          rw [hrule] at h
          cases h
          exact ⟨hone (ruled q hrule), hs⟩
      | none =>
          rw [hrule] at h
          by_cases hcomparison : op.isComparison = true
          · simp only [if_pos hcomparison] at h
            cases h
            exact ⟨hone (I.mem_top v), hs⟩
          · simp only [if_neg hcomparison] at h
            obtain ⟨p, hjoined, heq⟩ := map_ok h
            cases heq
            obtain ⟨l, hl, hjoined⟩ := bind_ok.mp hjoined
            obtain ⟨r, hr, heq⟩ := bind_ok.mp hjoined
            cases heq
            exact ⟨hone (joined hrule (Bool.eq_false_iff.mpr hcomparison) l r
              (hready.recorded lhs l (UnitAnalysis.operand_ok.mp hl))
              (hready.recorded rhs r (UnitAnalysis.operand_ok.mp hr))), hs⟩
  | unary kind source negates fits =>
      simp only [UnitAnalysis.evaluate, kind] at h
      obtain ⟨p, hfound, heq⟩ := map_ok h
      cases heq
      rw [kind]
      exact ⟨hone (fits q (hready.recorded _ q (UnitAnalysis.operand_ok.mp hfound))), hs⟩
  | shortCircuit kind source =>
      simp only [UnitAnalysis.evaluate, kind] at h
      obtain ⟨p, hjoined, heq⟩ := map_ok h
      cases heq
      rw [kind]
      exact ⟨hone (hσ.mem_join hh hready.has source hjoined), hs⟩
  | ternaryMerge kind source =>
      simp only [UnitAnalysis.evaluate, kind] at h
      obtain ⟨p, hjoined, heq⟩ := map_ok h
      cases heq
      rw [kind]
      exact ⟨hone (hσ.mem_join hh hready.has source hjoined), hs⟩
  | cast kind fits =>
      simp only [UnitAnalysis.evaluate, kind] at h
      obtain ⟨p, hresolved, heq⟩ := map_ok h
      cases heq
      rw [kind]
      exact ⟨hone (fits q hresolved), hs⟩
  | @localDecl var w kind fits =>
      simp only [UnitAnalysis.evaluate, kind] at h
      obtain ⟨bound, hbound, heq⟩ := map_ok h
      cases heq
      rw [kind]
      refine ⟨fun v hv => fits v hv node _ hbound, hs.retain fun key hkey => ?_⟩
      exact look_update (by simpa using hkey)
  | @assign target operand v kind source kept =>
      cases target with
      | field receiver field => exact absurd kind (hover.write _ _ _)
      | «local» var =>
          simp only [UnitAnalysis.evaluate, kind] at h
          obtain ⟨p, hfound, h⟩ := bind_ok.mp h
          obtain ⟨bound, hbound, heq⟩ := bind_ok.mp h
          cases heq
          have hfound := UnitAnalysis.operand_ok.mp hfound
          have hmem := (mem_assigned hσ hready kind source (fun hflag => kept hflag var rfl) hfound
            hbound).2
          have hclamp : u.checker.hierarchy.Has (u.clamp p bound) := by
            unfold UnitAnalysis.clamp
            split
            · exact hready.has.has hh hfound
            · exact hp.sound.has_localBound hbound
          rw [kind]
          exact ⟨hone hmem, assign_describes hclamp hmem hs⟩
  | @returnValue operand kind =>
      rw [kind]
      cases operand with
      | none =>
          simp only [UnitAnalysis.evaluate, kind] at h
          cases h
          exact ⟨fun v hv => absurd hv (Option.not_mem_none v), hs⟩
      | some m =>
          simp only [UnitAnalysis.evaluate, kind] at h
          obtain ⟨p, hfound, heq⟩ := map_ok h
          cases heq
          exact ⟨hpassed fun _ hm => Option.mem_some_iff.mp hm ▸ UnitAnalysis.operand_ok.mp hfound,
            hs⟩
  | @throw category operand kind =>
      rw [kind]
      cases operand with
      | none =>
          simp only [UnitAnalysis.evaluate, kind] at h
          cases h
          exact ⟨fun v hv => absurd hv (Option.not_mem_none v), hs⟩
      | some m =>
          simp only [UnitAnalysis.evaluate, kind] at h
          obtain ⟨p, hfound, heq⟩ := map_ok h
          cases heq
          exact ⟨hpassed fun _ hm => Option.mem_some_iff.mp hm ▸ UnitAnalysis.operand_ok.mp hfound,
            hs⟩
  | assertFailure kind =>
      simp only [UnitAnalysis.evaluate, kind] at h
      cases h
      rw [kind]
      exact ⟨fun v hv => absurd hv (Option.not_mem_none v), hs⟩

/-- A test splits the store into one for each outcome, and that of the outcome describes the
run. -/
theorem Computes.refine (hp : u.Plain vars) (hσ : σ.Typed u I vars V)
    (hready : σ.Ready u object a V node) (hw : σ.Computes u.checker I object a node w)
    (hoperands : ∀ m ∈ node.kind.operands, ∃ q, V.getD m none = some q)
    (hs : s.Describes I (FlowKey.look object (node.kind.write σ.env w)))
    {refinements : List Refinement}
    (h : Refinement.refine? refinements (u.context V node) s = some r) :
    r.Describes I (FlowKey.look object (node.kind.write σ.env w)) w := by
  obtain ⟨refinement, hmem, hsplit⟩ := List.exists_of_findSome?_eq_some h
  obtain ⟨stores, hstores, rfl⟩ := Option.map_eq_some_iff.mp hsplit
  have happlies := (List.mem_filter.mp hmem).2
  cases refinement with
  | equality =>
      cases hkind : node.kind <;>
        simp only [Refinement.split, UnitAnalysis.context, hkind] at hstores
      case binary op lhs rhs =>
        simp only [Refinement.appliesTo, UnitAnalysis.context, hkind] at happlies
        obtain ⟨v, rfl, hequal⟩ := hw.of_binary hkind
        rw [hkind] at hoperands hs
        obtain ⟨p, hlhs⟩ := hoperands lhs (by simp [NodeKind.operands])
        obtain ⟨q, hrhs⟩ := hoperands rhs (by simp [NodeKind.operands])
        have hhas {m : NodeId} {p : Qualifier} (hm : V.getD m none = some p) :
            u.checker.hierarchy.Has p := hready.has.has hp.sound.lawful hm
        refine UnitAnalysis.splitEquality_describes hp.sound hs hlhs hrhs (hhas hlhs) (hhas hrhs)
          (fun hpasses m hm key hkey x hx => ?_) hstores
        have hdirect : m ∈ node.kind.direct := by
          rw [hkind]
          rcases hm with rfl | rfl
          · exact List.mem_cons_self
          · exact List.mem_cons_of_mem _ List.mem_cons_self
        have hvalue := hready.looks (by rw [hkind]; rfl) hdirect hkey hx
        have hsame := hequal happlies hpasses
        rcases hm with rfl | rfl
        · exact ⟨hσ.mem hvalue hlhs, hσ.mem (hsame.symm.trans hvalue) hrhs⟩
        · exact ⟨hσ.mem (hsame.trans hvalue) hlhs, hσ.mem hvalue hrhs⟩
      all_goals cases hstores
  | postcondition =>
      cases hkind : node.kind <;>
        simp only [Refinement.split, UnitAnalysis.context, hkind] at hstores
      case call receiver method args =>
        obtain ⟨signature, hsig, hstores⟩ := Option.bind_eq_some_iff.mp hstores
        obtain ⟨v, rfl, -, hposts⟩ := hw.of_call hkind
        rw [hkind] at hs
        refine UnitAnalysis.splitCall_describes hp.sound hs (hp.sound.within hsig).ensuresIf
          (fun p hp hpasses m hm key hkey x hx => ?_) hstores
        exact hposts signature hsig p hp hpasses m hm x (hready.looks (by rw [hkind]; rfl)
          (hkind ▸ PostconditionTarget.operand?_mem hm) hkey hx)
      all_goals cases hstores

/-- The transfer of a node describes the run after it. A negation exchanges the outcomes of
its operand, which was evaluated just before it. -/
theorem Computes.transfer (hp : u.Plain vars) (hnode : u.graph.node? id = some node)
    (hσ : σ.Typed u I vars V) (hready : σ.Ready u object a V node)
    (hw : σ.Computes u.checker I object a node w) {tested : Option Value}
    (hinput : input.Describes I (FlowKey.look object σ.env) tested)
    (hwf : input.Wf u.checker.hierarchy)
    (hnegates : ∀ m, node.kind = .unary .not m → tested = σ.value m)
    (h : u.transferNode V node input = .ok (q, r)) :
    (∀ v ∈ w, v ∈ I.values q) ∧
      r.Describes I (FlowKey.look object (node.kind.write σ.env w)) w := by
  by_cases hnot : ∃ m, node.kind = .unary .not m
  · obtain ⟨m, hnot⟩ := hnot
    simp only [UnitAnalysis.transferNode, hnot] at h
    obtain ⟨_, -, h⟩ := bind_ok.mp h
    obtain ⟨value, hfound, heq⟩ := bind_ok.mp h
    cases heq
    have hfound := UnitAnalysis.operand_ok.mp hfound
    obtain ⟨x, v, rfl, hx, hpasses, hfits⟩ := hw.of_unary hnot
    rw [hnegates m hnot, hx] at hinput
    rw [hnot]
    refine ⟨fun v' hv' => ?_, hinput.swap (hpasses rfl)⟩
    exact Option.mem_some_iff.mp hv' ▸ hfits q (hready.recorded m q hfound)
  · have hoperands := UnitAnalysis.operands_of_transferNode h
    rw [UnitAnalysis.transferNode_of_ne_not fun m hm => hnot ⟨m, hm⟩] at h
    obtain ⟨_, -, h⟩ := bind_ok.mp h
    obtain ⟨⟨value, s⟩, hvalue, heq⟩ := bind_ok.mp h
    obtain ⟨hfits, hs⟩ := hw.evaluate hp hnode hσ hready
      (hinput.collapse hp.sound.lawful hwf) hvalue
    change pure (value, ((Refinement.refine? _ (u.context V node) s).getD (.regular s))) = _ at heq
    cases hrefine : Refinement.refine? (Refinement.enabled u.checker.refinesEquality)
        (u.context V node) s with
    | none =>
        rw [hrefine] at heq
        cases heq
        exact ⟨hfits, hs.regular w⟩
    | some result =>
        rw [hrefine] at heq
        cases heq
        exact ⟨hfits, hw.refine hp hσ hready hoperands hs hrefine⟩

end RunState

end FlowTyping
