import FlowTyping.Proofs.Flow.Detached
import FlowTyping.Proofs.Flow.Reached

/-!
The check of a unit is exact. Once the nodes that it covers have qualifiers so have their
operands, and what they name is known; the diagnostics are then the broken requirements of these
nodes, each once and in order.
-/

namespace FlowTyping

/-- What the value of an operand has to respect. -/
structure Requirement where
  kind : DiagnosticKind
  operand : NodeId
  bound : Qualifier
  subject : String

/-- The requirements of a node. Those of a call are placed by their arguments, with the receiver
last. -/
inductive Checker.Requires (c : Checker) (returnBound : Option Qualifier) (node : Node) :
    Nat → Requirement → Prop
  | assignLocal {var : LocalVar} {source : NodeId} {bound : Qualifier} :
      node.kind = .assign (.local var) source → c.localBound node var = .ok bound →
      Requires c returnBound node 0 ⟨.assignment, source, bound, var.name⟩
  | assignField {receiver source : NodeId} {field : String} :
      node.kind = .assign (.field receiver field) source →
      Requires c returnBound node 0 ⟨.assignment, source, c.fieldBound field, s!"field {field}"⟩
  | argument {receiver : Option NodeId} {method : String} {args : List NodeId}
      {signature : MethodSignature Qualifier} {index : Nat} {bound : Qualifier} {arg : NodeId} :
      node.kind = .call receiver method args → c.signatures.method? method = some signature →
      signature.params[index]? = some (some bound) → args[index]? = some arg →
      Requires c returnBound node index
        ⟨.argument, arg, bound, s!"argument {index} of {method}"⟩
  | receiver {receiver : NodeId} {method : String} {args : List NodeId}
      {signature : MethodSignature Qualifier} {bound : Qualifier} :
      node.kind = .call (some receiver) method args →
      c.signatures.method? method = some signature → signature.receiver = some bound →
      Requires c returnBound node args.length
        ⟨.receiver, receiver, bound, s!"receiver of {method}"⟩
  | returned {value : NodeId} {bound : Qualifier} : node.kind = .returnValue (some value) →
      returnBound = some bound → Requires c returnBound node 0 ⟨.returned, value, bound, "return"⟩
  | cast {qualifier : String} {operand : NodeId} {bound : Qualifier} :
      node.kind = .cast qualifier operand → c.resolveAt node qualifier = .ok bound →
      Requires c returnBound node 0 ⟨.cast, operand, bound, s!"@{qualifier}"⟩

/-- A requirement of a node, and the qualifier that does not respect it. -/
structure Finding where
  node : Node
  place : Nat
  requirement : Requirement
  found : Qualifier

namespace Finding

def diagnostic (h : Hierarchy) (f : Finding) : Diagnostic where
  kind := f.requirement.kind
  block := f.node.block
  node := f.node.id
  found := h.name f.found
  required := h.name f.requirement.bound
  subject := f.requirement.subject

/-- By node, and by place at one node. -/
def Precedes (f f' : Finding) : Prop :=
  f.node.id < f'.node.id ∨ f.node.id = f'.node.id ∧ f.place < f'.place

end Finding

/-- The value of a node breaks one of its requirements. -/
structure Checker.Breaks (c : Checker) (values : NodeValues) (returnBound : Option Qualifier)
    (f : Finding) : Prop where
  requires : c.Requires returnBound f.node f.place f.requirement
  value : values.getD f.requirement.operand none = some f.found
  broken : c.hierarchy.isSubtype f.found f.requirement.bound = false

namespace Checker

variable {c : Checker} {values : NodeValues} {returnBound : Option Qualifier} {node : Node}
  {place : Nat} {r : Requirement}

theorem resolveAt_ok {name : String} (h : c.hierarchy.lookup? name ≠ none) :
    ∃ q, c.resolveAt node name = .ok q := by
  cases hq : c.resolveAt node name with
  | ok q => exact ⟨q, rfl⟩
  | error e => exact absurd (resolveAt_error hq).1 h

theorem localBound_ok {var : LocalVar}
    (h : ∀ name ∈ var.declared.toList, c.hierarchy.lookup? name ≠ none) :
    ∃ q, c.localBound node var = .ok q := by
  cases hq : c.localBound node var with
  | ok q => exact ⟨q, rfl⟩
  | error e =>
      obtain ⟨name, hname, hresolve⟩ := localBound_error hq
      exact absurd (resolveAt_error hresolve).1 (h name (Option.mem_toList.mpr hname))

/-- What the check of a requirement finds. -/
def finding? (c : Checker) (values : NodeValues) (node : Node) (p : Nat × Requirement) :
    Option Finding :=
  match values.getD p.2.operand none with
  | none => none
  | some found =>
      if c.hierarchy.isSubtype found p.2.bound then none else some ⟨node, p.1, p.2, found⟩

theorem finding?_eq_some {f : Finding} : c.finding? values node (place, r) = some f ↔
    f.node = node ∧ f.place = place ∧ f.requirement = r ∧
      values.getD r.operand none = some f.found ∧
      c.hierarchy.isSubtype f.found r.bound = false := by
  obtain ⟨node', place', r', found'⟩ := f
  unfold finding?
  cases hvalue : values.getD r.operand none with
  | none => simp
  | some found =>
      dsimp only
      split
      · rename_i hle
        refine iff_of_false nofun ?_
        rintro ⟨-, -, -, heq, hbroken⟩
        cases heq
        exact absurd hle (by simp [hbroken])
      · rename_i hle
        simp only [Option.some.injEq, Finding.mk.injEq]
        refine ⟨?_, ?_⟩
        · rintro ⟨rfl, rfl, rfl, rfl⟩
          exact ⟨rfl, rfl, rfl, rfl, by simpa using hle⟩
        · rintro ⟨rfl, rfl, rfl, rfl, -⟩
          exact ⟨rfl, rfl, rfl, rfl⟩

/-- The diagnostics of a list of requirements with their places. -/
def report (c : Checker) (values : NodeValues) (node : Node) (listed : List (Nat × Requirement)) :
    List Diagnostic :=
  (listed.filterMap (c.finding? values node)).map (Finding.diagnostic c.hierarchy)

theorem report_append (listed listed' : List (Nat × Requirement)) :
    c.report values node (listed ++ listed') =
      c.report values node listed ++ c.report values node listed' := by
  rw [report, List.filterMap_append, List.map_append]
  rfl

theorem report_singleton (place : Nat) (r : Requirement) : c.report values node [(place, r)] =
    c.require values node r.kind r.operand r.bound r.subject := by
  unfold report require finding?
  dsimp only [List.filterMap]
  cases values.getD r.operand none with
  | none => rfl
  | some found =>
      dsimp only
      cases c.hierarchy.isSubtype found r.bound <;> rfl

/-- A list of requirements that stands for the check of a node. -/
structure Lists (c : Checker) (values : NodeValues) (returnBound : Option Qualifier)
    (node : Node) (listed : List (Nat × Requirement)) : Prop where
  ordered : listed.Pairwise fun p p' => p.1 < p'.1
  mem : ∀ place r, (place, r) ∈ listed ↔ c.Requires returnBound node place r
  check : c.checkNode values returnBound node = .ok (c.report values node listed)

theorem Lists.singleton {place : Nat} {r : Requirement}
    (hrequires : c.Requires returnBound node place r)
    (honly : ∀ place' r', c.Requires returnBound node place' r' → place' = place ∧ r' = r)
    (hcheck : c.checkNode values returnBound node =
      .ok (c.require values node r.kind r.operand r.bound r.subject)) :
    c.Lists values returnBound node [(place, r)] where
  ordered := List.pairwise_singleton _ _
  mem place' r' := by
    rw [List.mem_singleton, Prod.mk.injEq]
    exact ⟨fun h => h.1 ▸ h.2 ▸ hrequires, honly place' r'⟩
  check := by rw [hcheck, report_singleton]

theorem Lists.nil (hnone : ∀ place r, ¬ c.Requires returnBound node place r)
    (hcheck : c.checkNode values returnBound node = .ok []) :
    c.Lists values returnBound node [] where
  ordered := .nil
  mem place r := iff_of_false List.not_mem_nil (hnone place r)
  check := hcheck

/-- The requirements of the arguments of a call. -/
def argumentRequirements (method : String) (params : List (Option Qualifier))
    (args : List NodeId) : List (Nat × Requirement) :=
  (params.zip args).zipIdx.filterMap fun ((param, arg), index) =>
    param.map fun bound => (index, ⟨.argument, arg, bound, s!"argument {index} of {method}"⟩)

theorem mem_argumentRequirements {method : String} {params : List (Option Qualifier)}
    {args : List NodeId} : (place, r) ∈ argumentRequirements method params args ↔
      ∃ bound arg, params[place]? = some (some bound) ∧ args[place]? = some arg ∧
        r = ⟨.argument, arg, bound, s!"argument {place} of {method}"⟩ := by
  simp only [argumentRequirements, List.mem_filterMap, Prod.exists, List.mk_mem_zipIdx_iff_getElem?,
    List.getElem?_zip_eq_some, Option.map_eq_some_iff, Prod.mk.injEq]
  constructor
  · rintro ⟨param, arg, index, ⟨hparam, harg⟩, bound, rfl, rfl, rfl⟩
    exact ⟨bound, arg, hparam, harg, rfl⟩
  · rintro ⟨bound, arg, hparam, harg, rfl⟩
    exact ⟨some bound, arg, place, ⟨hparam, harg⟩, bound, rfl, rfl, rfl⟩

theorem argumentRequirements_ordered {method : String} {params : List (Option Qualifier)}
    {args : List NodeId} :
    (argumentRequirements method params args).Pairwise fun p p' => p.1 < p'.1 := by
  have hindices : ((params.zip args).zipIdx).Pairwise fun p p' => p.2 < p'.2 := by
    rw [← List.pairwise_map (f := Prod.snd) (R := (· < ·)), List.zipIdx_map_snd]
    exact List.pairwise_lt_range'
  refine List.Pairwise.filterMap _ (fun p p' hlt q hq q' hq' => ?_) hindices
  obtain ⟨bound, -, rfl⟩ := Option.map_eq_some_iff.mp hq
  obtain ⟨bound', -, rfl⟩ := Option.map_eq_some_iff.mp hq'
  exact hlt

theorem checkArguments_eq {method : String} {params : List (Option Qualifier)}
    {args : List NodeId} : c.checkArguments values node method params args =
      c.report values node (argumentRequirements method params args) := by
  unfold checkArguments argumentRequirements
  induction (params.zip args).zipIdx with
  | nil => rfl
  | cons p rest ih =>
      obtain ⟨⟨param, arg⟩, index⟩ := p
      rw [List.map_cons, List.flatten_cons, ih, ← List.singleton_append (l := rest),
        List.filterMap_append, report_append]
      cases param with
      | none => rfl
      | some bound =>
          exact congrArg (· ++ _) (c.report_singleton index
            ⟨.argument, arg, bound, s!"argument {index} of {method}"⟩).symm

theorem checkNode_receiver {id : NodeId} {method : String} {args : List NodeId}
    {signature : MethodSignature Qualifier} {bound : Qualifier}
    (hkind : node.kind = .call (some id) method args)
    (hsignature : c.signatures.method? method = some signature)
    (hbound : signature.receiver = some bound) :
    c.checkNode values returnBound node =
      .ok (c.checkArguments values node method signature.params args ++
        c.require values node .receiver id bound s!"receiver of {method}") := by
  unfold checkNode
  rw [hkind]
  dsimp only
  rw [hsignature]
  dsimp only
  rw [hbound]

theorem checkNode_arguments {receiver : Option NodeId} {method : String} {args : List NodeId}
    {signature : MethodSignature Qualifier} (hkind : node.kind = .call receiver method args)
    (hsignature : c.signatures.method? method = some signature)
    (hnone : signature.receiver = none ∨ receiver = none) : c.checkNode values returnBound node =
      .ok (c.checkArguments values node method signature.params args) := by
  unfold checkNode
  rw [hkind]
  dsimp only
  rw [hsignature]
  dsimp only
  split
  · rename_i hbound
    rcases hnone with hnone | hnone
    · cases hbound.symm.trans hnone
    · cases hnone
  · rfl

/-- The requirements of a call of a method with a signature. -/
theorem lists_call {receiver : Option NodeId} {method : String} {args : List NodeId}
    {signature : MethodSignature Qualifier} (hkind : node.kind = .call receiver method args)
    (hsignature : c.signatures.method? method = some signature) :
    ∃ listed, c.Lists values returnBound node listed := by
  have harguments {place : Nat} {r : Requirement} :
      (place, r) ∈ argumentRequirements method signature.params args →
        c.Requires returnBound node place r := by
    intro h
    obtain ⟨bound, arg, hparam, harg, rfl⟩ := mem_argumentRequirements.mp h
    exact .argument hkind hsignature hparam harg
  have hrequires {place : Nat} {r : Requirement} (h : c.Requires returnBound node place r) :
      (place, r) ∈ argumentRequirements method signature.params args ∨
        ∃ id bound, receiver = some id ∧ signature.receiver = some bound ∧
          place = args.length ∧ r = ⟨.receiver, id, bound, s!"receiver of {method}"⟩ := by
    cases h with
    | argument hkind' hsignature' hparam harg =>
        cases hkind.symm.trans hkind'
        cases hsignature.symm.trans hsignature'
        exact .inl (mem_argumentRequirements.mpr ⟨_, _, hparam, harg, rfl⟩)
    | receiver hkind' hsignature' hreceiver =>
        cases hkind.symm.trans hkind'
        cases hsignature.symm.trans hsignature'
        exact .inr ⟨_, _, rfl, hreceiver, rfl, rfl⟩
    | assignLocal hkind' | assignField hkind' | returned hkind' | cast hkind' =>
        cases hkind.symm.trans hkind'
  by_cases h : ∃ id bound, receiver = some id ∧ signature.receiver = some bound
  · obtain ⟨id, bound, rfl, hbound⟩ := h
    refine ⟨argumentRequirements method signature.params args ++
      [(args.length, ⟨.receiver, id, bound, s!"receiver of {method}"⟩)], ?_, fun place r => ?_, ?_⟩
    · refine List.pairwise_append.mpr ⟨argumentRequirements_ordered,
        List.pairwise_singleton _ _, fun p hp p' hp' => ?_⟩
      obtain ⟨_, _, -, harg, -⟩ := mem_argumentRequirements.mp hp
      rw [List.mem_singleton.mp hp']
      exact (List.getElem?_eq_some_iff.mp harg).1
    · rw [List.mem_append, List.mem_singleton, Prod.mk.injEq]
      refine ⟨?_, fun h => ?_⟩
      · rintro (h | ⟨rfl, rfl⟩)
        · exact harguments h
        · exact .receiver hkind hsignature hbound
      · refine (hrequires h).imp_right ?_
        rintro ⟨id', bound', hid, hbound', rfl, rfl⟩
        cases hid
        cases hbound.symm.trans hbound'
        exact ⟨rfl, rfl⟩
    · rw [checkNode_receiver hkind hsignature hbound, report_append, report_singleton,
        checkArguments_eq]
  · refine ⟨argumentRequirements method signature.params args, argumentRequirements_ordered,
      fun place r => ⟨harguments, fun hr => ?_⟩, ?_⟩
    · refine (hrequires hr).resolve_right ?_
      rintro ⟨id, bound, hid, hbound, -, -⟩
      exact h ⟨id, bound, hid, hbound⟩
    · rw [← checkArguments_eq]
      refine checkNode_arguments hkind hsignature ?_
      cases hbound : signature.receiver with
      | none => exact .inl rfl
      | some bound =>
          cases receiver with
          | none => exact .inr rfl
          | some id => exact absurd ⟨id, bound, rfl, hbound⟩ h

/-- The requirement of an assignment to a variable. -/
theorem lists_assignLocal {var : LocalVar} {source : NodeId} {bound : Qualifier}
    (hkind : node.kind = .assign (.local var) source) (hbound : c.localBound node var = .ok bound) :
    c.Lists values returnBound node [(0, ⟨.assignment, source, bound, var.name⟩)] := by
  refine .singleton (.assignLocal hkind hbound) (fun place r h => ?_) ?_
  · cases h with
    | assignLocal hkind' hbound' =>
        cases hkind.symm.trans hkind'
        cases hbound.symm.trans hbound'
        exact ⟨rfl, rfl⟩
    | assignField hkind' | argument hkind' | receiver hkind' | returned hkind'
    | cast hkind' => cases hkind.symm.trans hkind'
  · unfold checkNode
    rw [hkind]
    dsimp only
    rw [hbound]
    split
    · rename_i hnone
      rw [require, Option.isNone_iff_eq_none.mp hnone]
    · rfl

/-- The requirement of an assignment to a field. -/
theorem lists_assignField {receiver source : NodeId} {field : String}
    (hkind : node.kind = .assign (.field receiver field) source) :
    c.Lists values returnBound node
      [(0, ⟨.assignment, source, c.fieldBound field, s!"field {field}"⟩)] := by
  refine .singleton (.assignField hkind) (fun place r h => ?_) ?_
  · cases h with
    | assignField hkind' =>
        cases hkind.symm.trans hkind'
        exact ⟨rfl, rfl⟩
    | assignLocal hkind' | argument hkind' | receiver hkind' | returned hkind'
    | cast hkind' => cases hkind.symm.trans hkind'
  · unfold checkNode
    rw [hkind]

/-- A call of a method without a signature has no requirements. -/
theorem lists_unknown {receiver : Option NodeId} {method : String} {args : List NodeId}
    (hkind : node.kind = .call receiver method args)
    (hsignature : c.signatures.method? method = none) :
    c.Lists values returnBound node [] := by
  refine .nil (fun place r h => ?_) ?_
  · cases h with
    | argument hkind' hsignature' | receiver hkind' hsignature' =>
        cases hkind.symm.trans hkind'
        cases hsignature.symm.trans hsignature'
    | assignLocal hkind' | assignField hkind' | returned hkind' | cast hkind' =>
        cases hkind.symm.trans hkind'
  · unfold checkNode
    rw [hkind]
    dsimp only
    rw [hsignature]

/-- The requirement of a return, if it has a value and its qualifier is declared. -/
theorem lists_returned {value : Option NodeId} (hkind : node.kind = .returnValue value) :
    ∃ listed, c.Lists values returnBound node listed := by
  by_cases hreturned : ∃ id bound, value = some id ∧ returnBound = some bound
  · obtain ⟨id, bound, rfl, rfl⟩ := hreturned
    refine ⟨_, .singleton (.returned hkind rfl) (fun place r h => ?_) ?_⟩
    · cases h with
      | returned hkind' hbound' =>
          cases hkind.symm.trans hkind'
          cases hbound'
          exact ⟨rfl, rfl⟩
      | assignLocal hkind' | assignField hkind' | argument hkind' | receiver hkind'
      | cast hkind' => cases hkind.symm.trans hkind'
    · unfold checkNode
      rw [hkind]
  · refine ⟨[], .nil (fun place r h => ?_) ?_⟩
    · cases h with
      | returned hkind' hbound' =>
          cases hkind.symm.trans hkind'
          exact hreturned ⟨_, _, rfl, hbound'⟩
      | assignLocal hkind' | assignField hkind' | argument hkind' | receiver hkind'
      | cast hkind' => cases hkind.symm.trans hkind'
    · unfold checkNode
      rw [hkind]
      cases value with
      | none => rfl
      | some id =>
          cases returnBound with
          | none => rfl
          | some bound => exact absurd ⟨id, bound, rfl, rfl⟩ hreturned

/-- The requirement of a cast. -/
theorem lists_cast {qualifier : String} {operand : NodeId} {bound : Qualifier}
    (hkind : node.kind = .cast qualifier operand)
    (hbound : c.resolveAt node qualifier = .ok bound) :
    c.Lists values returnBound node [(0, ⟨.cast, operand, bound, s!"@{qualifier}"⟩)] := by
  refine .singleton (.cast hkind hbound) (fun place r h => ?_) ?_
  · cases h with
    | cast hkind' hbound' =>
        cases hkind.symm.trans hkind'
        cases hbound.symm.trans hbound'
        exact ⟨rfl, rfl⟩
    | assignLocal hkind' | assignField hkind' | argument hkind' | receiver hkind'
    | returned hkind' => cases hkind.symm.trans hkind'
  · unfold checkNode
    rw [hkind]
    dsimp only
    rw [hbound]
    rfl

/-- A node with known names is checked against its requirements. -/
theorem exists_lists (hnames : ∀ name ∈ node.kind.names, c.hierarchy.lookup? name ≠ none) :
    ∃ listed, c.Lists values returnBound node listed := by
  cases hkind : node.kind with
  | assign target source =>
      rw [hkind] at hnames
      cases target with
      | «local» var =>
          obtain ⟨bound, hbound⟩ : ∃ bound, c.localBound node var = .ok bound :=
            localBound_ok hnames
          exact ⟨_, lists_assignLocal hkind hbound⟩
      | field receiver field => exact ⟨_, lists_assignField hkind⟩
  | call receiver method args =>
      cases hsignature : c.signatures.method? method with
      | some signature => exact lists_call hkind hsignature
      | none => exact ⟨_, lists_unknown hkind hsignature⟩
  | returnValue value => exact lists_returned hkind
  | cast qualifier operand =>
      rw [hkind] at hnames
      obtain ⟨bound, hbound⟩ : ∃ bound, c.resolveAt node qualifier = .ok bound :=
        resolveAt_ok (hnames qualifier List.mem_cons_self)
      exact ⟨_, lists_cast hkind hbound⟩
  | _ =>
      refine ⟨[], .nil (fun place r h => ?_) ?_⟩
      · cases h with
        | assignLocal hkind' | assignField hkind' | argument hkind' | receiver hkind'
        | returned hkind' | cast hkind' => cases hkind.symm.trans hkind'
      · unfold checkNode
        rw [hkind]

/-- A check of some nodes in ascending order finds what breaks their requirements. -/
theorem mapM_checkNode (c : Checker) (values : NodeValues) (returnBound : Option Qualifier)
    {nodes : List Node} (hascending : nodes.Pairwise fun n n' => n.id < n'.id)
    (hnames : ∀ node ∈ nodes, ∀ name ∈ node.kind.names, c.hierarchy.lookup? name ≠ none) :
    ∃ (found : List (List Diagnostic)) (findings : List Finding),
      nodes.mapM (c.checkNode values returnBound) = .ok found ∧
      found.flatten = findings.map (Finding.diagnostic c.hierarchy) ∧
      findings.Pairwise Finding.Precedes ∧
      ∀ f, f ∈ findings ↔ f.node ∈ nodes ∧ c.Breaks values returnBound f := by
  induction nodes with
  | nil => exact ⟨[], [], rfl, rfl, .nil, fun f => by simp⟩
  | cons node rest ih =>
      obtain ⟨hfirst, hascending⟩ := List.pairwise_cons.mp hascending
      obtain ⟨hnode, hrest⟩ := List.forall_mem_cons.mp hnames
      obtain ⟨listed, hlisted⟩ : ∃ listed, c.Lists values returnBound node listed :=
        exists_lists hnode
      obtain ⟨found, findings, hfound, hflatten, hordered, hmem⟩ := ih hascending hrest
      have hown (f : Finding) : f ∈ listed.filterMap (c.finding? values node) ↔
          f.node = node ∧ c.Breaks values returnBound f := by
        simp only [List.mem_filterMap, Prod.exists, finding?_eq_some, hlisted.mem]
        constructor
        · rintro ⟨place, r, hrequires, rfl, rfl, rfl, hvalue, hbroken⟩
          exact ⟨rfl, hrequires, hvalue, hbroken⟩
        · rintro ⟨rfl, hrequires, hvalue, hbroken⟩
          exact ⟨f.place, f.requirement, hrequires, rfl, rfl, rfl, hvalue, hbroken⟩
      refine ⟨c.report values node listed :: found,
        listed.filterMap (c.finding? values node) ++ findings, ?_, ?_, ?_, fun f => ?_⟩
      · rw [List.mapM_cons, hlisted.check, hfound]
        rfl
      · rw [List.flatten_cons, hflatten, List.map_append]
        rfl
      · refine List.pairwise_append.mpr ⟨?_, hordered, fun f hf f' hf' => .inl ?_⟩
        · refine List.Pairwise.filterMap _ (fun p p' hlt f hf f' hf' => .inr ?_) hlisted.ordered
          obtain ⟨hnode, hplace, -⟩ := finding?_eq_some.mp hf
          obtain ⟨hnode', hplace', -⟩ := finding?_eq_some.mp hf'
          rw [hnode, hnode', hplace, hplace']
          exact ⟨rfl, hlt⟩
        · rw [((hown f).mp hf).1]
          exact hfirst _ ((hmem f').mp hf').1
      · rw [List.mem_append, hown, hmem, List.mem_cons, or_and_right]

end Checker


namespace Checker

variable {c : Checker} {s : AnalysisSettings} {u : ProgramUnit} {g : FlowGraph}

/-- The nodes that are checked, in ascending order. -/
theorem mem_included (hg : g.Accepted) {includeUnreachable : Bool} {node : Node} :
    node ∈ (g.nodes.toList.filter fun node => includeUnreachable || g.isReachable node.block) ↔
      g.Includes includeUnreachable node := by
  have hnode : (∃ k, g.nodes[k]? = some node) ↔ g.node? node.id = some node :=
    ⟨fun ⟨k, hk⟩ => (hg.valid.node hk).symm ▸ hk, fun h => ⟨_, h⟩⟩
  rw [List.mem_filter, Array.mem_toList_iff, Array.mem_iff_getElem?, Bool.or_eq_true, hnode]
  refine and_congr_right fun h => or_congr_right ?_
  obtain ⟨block, hblock, -⟩ := hg.homed h
  exact hg.valid.isReachable_iff (Array.getElem?_eq_some_iff.mp hblock).1

theorem nodes_ascending (hg : g.Valid) : g.nodes.toList.Pairwise fun n n' => n.id < n'.id := by
  rw [List.pairwise_iff_getElem]
  intro i j hi hj hlt
  have hid {k : Nat} (hk : k < g.nodes.toList.length) : g.nodes.toList[k].id = k :=
    hg.node (Array.getElem?_eq_some_iff.mpr ⟨by simpa using hk, by simp⟩)
  rw [hid hi, hid hj]
  exact hlt

/-- Once solving has succeeded, and the evaluation of what nothing reaches if it is asked for,
the check succeeds too. What it covers has qualifiers and known names, and it reports the broken
requirements, each once and in order. -/
theorem checkGraph_exact (hg : g.Accepted) {initial : Store} {bound : Option Qualifier}
    {fixpoint : Fixpoint TransferResult} {solved values : NodeValues}
    (hinitial : c.initialStore u = .ok initial) (hbound : c.returnBound u = .ok bound)
    (hsolve : solve (UnitAnalysis.new c g initial).dataflow g
      (s.visitLimit g.size g.nodeCount c.hierarchy.height) s.recordHistory
      (UnitAnalysis.new c g initial).noValues = .ok (fixpoint, solved))
    (hvalues : finalValues s (.new c g initial) solved = .ok values) :
    ∃ (found : List Diagnostic) (findings : List Finding),
      c.checkGraph g values bound s.checkUnreachable = .ok found ∧
      c.analyzeGraph s u g = .ok ⟨u.name, g, fixpoint, values, found⟩ ∧
      found = findings.map (Finding.diagnostic c.hierarchy) ∧
      findings.Pairwise Finding.Precedes ∧
      (∀ f, f ∈ findings ↔
        g.Includes s.checkUnreachable f.node ∧ c.Breaks values bound f) ∧
      ∀ node, g.Includes s.checkUnreachable node →
        (∀ o ∈ node.kind.operands, ∃ q, values.getD o none = some q) ∧
        ∀ name ∈ node.kind.names, ∃ q, c.resolveAt node name = .ok q := by
  obtain ⟨hgrounded, hholds⟩ := UnitAnalysis.finalValues_grounded hg hsolve hvalues
  have hnode (node : Node) (h : g.Includes s.checkUnreachable node) :=
    hgrounded node.id (hholds node h) node h.1
  have hascending := (nodes_ascending hg.valid).filter fun node =>
    s.checkUnreachable || g.isReachable node.block
  obtain ⟨found, findings, hfound, hflatten, hordered, hmem⟩ :=
    c.mapM_checkNode values bound hascending
      fun node h => (hnode node ((mem_included hg).mp h)).1
  have hcheck : c.checkGraph g values bound s.checkUnreachable = .ok found.flatten :=
    bind_ok.mpr ⟨found, hfound, rfl⟩
  refine ⟨found.flatten, findings, hcheck, ?_, hflatten, hordered, fun f => ?_,
    fun node h => ⟨(hnode node h).2, fun name hname => resolveAt_ok ((hnode node h).1 name hname)⟩⟩
  · refine bind_ok.mpr ⟨initial, hinitial, bind_ok.mpr ⟨bound, hbound,
      bind_ok.mpr ⟨(fixpoint, solved), hsolve, ?_⟩⟩⟩
    unfold finalValues at hvalues
    dsimp only
    split
    · rename_i hflag
      rw [if_pos hflag] at hvalues
      exact bind_ok.mpr ⟨values, hvalues, bind_ok.mpr ⟨_, hcheck, rfl⟩⟩
    · rename_i hflag
      rw [if_neg hflag] at hvalues
      exact bind_ok.mpr ⟨values, hvalues, bind_ok.mpr ⟨_, hcheck, rfl⟩⟩
  · rw [hmem, mem_included hg]

end Checker

theorem followedUnit_exact : ∃ c g initial bound fixpoint solved values found,
    ∃ findings : List Finding,
    Checker.ofDeclaration presence = .ok c ∧ followedUnit.lower = .ok g ∧
    c.initialStore followedUnit = .ok initial ∧ c.returnBound followedUnit = .ok bound ∧
    solve (UnitAnalysis.new c g initial).dataflow g
      ((⟨none, false, true⟩ : AnalysisSettings).visitLimit g.size g.nodeCount c.hierarchy.height)
      false (UnitAnalysis.new c g initial).noValues = .ok (fixpoint, solved) ∧
    Checker.finalValues ⟨none, false, true⟩ (.new c g initial) solved = .ok values ∧
    c.checkGraph g values bound true = .ok found ∧
    found = findings.map (Finding.diagnostic c.hierarchy) ∧
    found.map Diagnostic.kind = [.returned, .argument] ∧
    ∀ f, f ∈ findings ↔ g.Includes true f.node ∧ c.Breaks values bound f := by
  have hok : ((Checker.ofDeclaration presence).toOption.bind fun c =>
      followedUnit.lower.toOption.bind fun g =>
        (c.initialStore followedUnit).toOption.bind fun initial =>
          (c.returnBound followedUnit).toOption.bind fun bound =>
            (solve (UnitAnalysis.new c g initial).dataflow g
              ((⟨none, false, true⟩ : AnalysisSettings).visitLimit g.size g.nodeCount
                c.hierarchy.height)
              false (UnitAnalysis.new c g initial).noValues).toOption.bind fun r =>
                (Checker.finalValues ⟨none, false, true⟩ (.new c g initial)
                  r.2).toOption.bind fun values =>
                    (c.checkGraph g values bound true).toOption.bind fun found =>
                      if found.map Diagnostic.kind = [.returned, .argument] then some ()
                      else none).isSome = true := by decide +kernel
  obtain ⟨_, h⟩ := Option.isSome_iff_exists.mp hok
  obtain ⟨c, hc, h⟩ := Option.bind_eq_some_iff.mp h
  obtain ⟨g, hg, h⟩ := Option.bind_eq_some_iff.mp h
  obtain ⟨initial, hinitial, h⟩ := Option.bind_eq_some_iff.mp h
  obtain ⟨bound, hbound, h⟩ := Option.bind_eq_some_iff.mp h
  obtain ⟨⟨fixpoint, solved⟩, hsolve, h⟩ := Option.bind_eq_some_iff.mp h
  obtain ⟨values, hvalues, h⟩ := Option.bind_eq_some_iff.mp h
  obtain ⟨found, hfound, h⟩ := Option.bind_eq_some_iff.mp h
  obtain ⟨hkinds, -⟩ := Option.ite_none_right_eq_some.mp h
  have hg := ok_of_toOption hg
  have hinitial := ok_of_toOption hinitial
  have hbound := ok_of_toOption hbound
  have hsolve := ok_of_toOption hsolve
  have hvalues := ok_of_toOption hvalues
  obtain ⟨found', findings, hcheck, -, hfindings, -, hmem, -⟩ :=
    Checker.checkGraph_exact (s := ⟨none, false, true⟩) (.lowered hg) hinitial hbound hsolve hvalues
  cases (ok_of_toOption hfound).symm.trans hcheck
  exact ⟨c, g, initial, bound, fixpoint, solved, values, found, findings, ok_of_toOption hc, hg,
    hinitial, hbound, hsolve, hvalues, hcheck, hfindings, hkinds, hmem⟩

end FlowTyping
