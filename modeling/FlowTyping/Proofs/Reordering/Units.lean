import FlowTyping.Flow.Analysis
import FlowTyping.Proofs.Flow.Simulation
import FlowTyping.Proofs.Reordering.Transfer
import Mathlib.Tactic.FinCases

/-!
The analysis of a unit under a checker whose declaration lists the same in another order. It fails
with the same error, or everything that it finds has the same names.
-/

namespace FlowTyping

open Relation

variable {π : Qualifier → Qualifier}

namespace UnitAnalysis

/-- A run over a block, with its qualifiers renumbered. -/
def BlockRun.renumber (π : Qualifier → Qualifier) (run : BlockRun) : BlockRun :=
  ⟨renumberValues π run.values, run.current.renumber π, run.revisit⟩

namespace Renumbers

variable {u u' : UnitAnalysis} {c c' : Checker}

theorem recordValue (hu : u.Renumbers u' π) (id : NodeId) (value : Qualifier) (run : BlockRun) :
    u'.recordValue id (π value) (run.renumber π) = (u.recordValue id value run).renumber π := by
  have hwrite (q : Qualifier) : (renumberValues π run.values).setIfInBounds id (some (π q)) =
      renumberValues π (run.values.setIfInBounds id (some q)) := by
    exact (Array.map_setIfInBounds (f := Option.map π) (a := some q)).symm
  unfold UnitAnalysis.recordValue
  rw [show (run.renumber π).values = renumberValues π run.values from rfl,
    show (run.renumber π).revisit = run.revisit from rfl, getD_renumberValues, hu.consumers]
  cases run.values.getD id none with
  | none =>
      dsimp only [Option.map_none]
      rw [hwrite, if_neg (Option.some_ne_none _).symm, if_neg (Option.some_ne_none _).symm]
      rfl
  | some old =>
      have hjoin := hu.checker.hierarchy.join old value
      dsimp only [Option.map_some]
      by_cases hsame : old = u.checker.hierarchy.join old value
      · rw [if_pos (congrArg some (hjoin.trans (congrArg π hsame.symm)).symm),
          if_pos (congrArg some hsame)]
      · have hdiffers : some (π old) ≠ some (u'.checker.hierarchy.join (π old) (π value)) := by
          rw [hjoin]
          exact fun heq => hsame (hu.checker.hierarchy.injective (Option.some.inj heq))
        rw [if_neg hdiffers, if_neg fun heq => hsame (Option.some.inj heq), hjoin, hwrite]
        rfl

theorem runNodes (hu : u.Renumbers u' π) (nodes : List NodeId) (run : BlockRun) :
    u'.runNodes nodes (run.renumber π) =
      Prod.map (BlockRun.renumber π) id (u.runNodes nodes run) := by
  induction nodes generalizing run with
  | nil => rfl
  | cons id rest ih =>
      unfold UnitAnalysis.runNodes
      rw [hu.graph]
      cases u.graph.node? id with
      | none => exact ih run
      | some node =>
          dsimp only
          rw [show (run.renumber π).values = renumberValues π run.values from rfl,
            show (run.renumber π).current = run.current.renumber π from rfl, hu.transferNode]
          cases u.transferNode run.values node run.current with
          | error e => rfl
          | ok r =>
              obtain ⟨value, result⟩ := r
              dsimp only [Except.map, Prod.map_apply]
              rw [hu.recordValue]
              exact ih { u.recordValue id value run with current := result }

theorem runBlock (hu : u.Renumbers u' π) (block : Block) (values : NodeValues)
    (input : TransferResult) :
    u'.runBlock block (renumberValues π values) (input.renumber π) =
      Prod.map (BlockRun.renumber π) id (u.runBlock block values input) :=
  hu.runNodes block.nodes ⟨values, input, []⟩

/-- One transfer result is another one with its qualifiers renumbered. -/
abbrev Fact (π : Qualifier → Qualifier) (r r' : TransferResult) : Prop := r' = r.renumber π

theorem transferBlock (hu : u.Renumbers u' π) (values : NodeValues) (id : BlockId)
    (input : TransferResult) :
    Alike (fun x y => x.1.Related (Fact π) y.1 ∧ y.2 = renumberValues π x.2)
      (u.transferBlock values id input)
      (u'.transferBlock (renumberValues π values) id (input.renumber π)) := by
  have hto (targets : List BlockId) (x : TransferResult) :
      List.Forall₂ (fun e e' => e.1 = e'.1 ∧ Fact π e.2 e'.2) (targets.map (·, x))
        (targets.map (·, x.renumber π)) := by
    induction targets with
    | nil => exact .nil
    | cons target rest ih => exact .cons ⟨rfl, rfl⟩ ih
  have hbefore : TransferResult.regular ((input.renumber π).collapse u'.checker.hierarchy) =
      (TransferResult.regular (input.collapse u.checker.hierarchy)).renumber π :=
    congrArg TransferResult.regular hu.checker.hierarchy.collapse
  unfold UnitAnalysis.transferBlock
  rw [hu.graph]
  cases u.graph.block? id with
  | none => exact .ok ⟨⟨rfl, .nil, rfl⟩, rfl⟩
  | some block =>
      dsimp only
      cases block.kind with
      | conditional condition thenSuccessor elseSuccessor =>
          refine .ok ⟨⟨rfl, .cons ⟨rfl, ?_⟩ (.cons ⟨rfl, ?_⟩ .nil), rfl⟩, rfl⟩
          · exact congrArg TransferResult.regular TransferResult.thenStore_renumber
          · exact congrArg TransferResult.regular TransferResult.elseStore_renumber
      | special kind successor =>
          dsimp only
          rw [hbefore]
          exact .ok ⟨⟨rfl, hto _ _, rfl⟩, rfl⟩
      | regular successor =>
          dsimp only
          rw [hu.runBlock]
          obtain ⟨run, error⟩ := u.runBlock block values input
          cases error with
          | some e => exact .error e
          | none => exact .ok ⟨⟨rfl, .cons ⟨rfl, rfl⟩ .nil, rfl⟩, rfl⟩
      | exceptional successor handlers =>
          have hcaught :=
            hto (handlers.map Prod.snd) (.regular (input.collapse u.checker.hierarchy))
          rw [List.map_map, List.map_map] at hcaught
          dsimp only
          rw [hu.runBlock, hbefore]
          obtain ⟨run, error⟩ := u.runBlock block values input
          cases error with
          | some e => exact .error e
          | none => exact .ok ⟨⟨rfl, List.rel_append (hto _ _) hcaught, rfl⟩, rfl⟩

theorem dataflow (hu : u.Renumbers u' π) :
    u.dataflow.Related (Fact π) (fun values values' => values' = renumberValues π values)
      u'.dataflow where
  initial := congrArg TransferResult.regular hu.initial
  bottom := congrArg TransferResult.regular hu.checker.hierarchy.unreachable
  join hx hy := by
    rw [hx, hy]
    exact hu.checker.hierarchy.joinResults
  same hx hy := by
    rw [hx, hy]
    exact hu.checker.hierarchy.sameResults.symm
  transfer id _ _ hvalues hx := by
    rw [hvalues, hx]
    exact hu.transferBlock _ id _

theorem detachedPass (hu : u.Renumbers u' π) (pending : List BlockId) (values : NodeValues) :
    u'.detachedPass pending (renumberValues π values) =
      (u.detachedPass pending values).map (Prod.map (renumberValues π) id) := by
  have hrun (block : Block) (values : NodeValues) :
      u'.runBlock block (renumberValues π values) (.regular u'.initial) =
        Prod.map (BlockRun.renumber π) id (u.runBlock block values (.regular u.initial)) := by
    rw [hu.initial]
    exact hu.runBlock block values (.regular u.initial)
  induction pending generalizing values with
  | nil => rfl
  | cons id rest ih =>
      unfold UnitAnalysis.detachedPass
      rw [hu.graph]
      cases u.graph.block? id with
      | none => exact ih values
      | some block =>
          dsimp only
          rw [hrun]
          obtain ⟨run, error⟩ := u.runBlock block values (.regular u.initial)
          cases error with
          | none => exact ih run.values
          | some e =>
              cases e with
              | missingOperand operand node at_ =>
                  dsimp only [Prod.map_apply, BlockRun.renumber, id_eq]
                  rw [ih]
                  cases u.detachedPass rest run.values <;> rfl
              | _ => rfl

theorem evaluateDetached (hu : u.Renumbers u' π) (pending : List BlockId) (values : NodeValues) :
    u'.evaluateDetached pending (renumberValues π values) =
      (u.evaluateDetached pending values).map (renumberValues π) :=
  UnitAnalysis.evaluateDetached_map hu.detachedPass pending values

end Renumbers

end UnitAnalysis

namespace Checker.Renumbers

variable {c c' : Checker}

theorem require (hc : c.Renumbers c' π) (values : NodeValues) (node : Node) (kind : DiagnosticKind)
    (operand : NodeId) (bound : Qualifier) (subject : String) :
    c'.require (renumberValues π values) node kind operand (π bound) subject =
      c.require values node kind operand bound subject := by
  unfold Checker.require
  rw [getD_renumberValues]
  cases values.getD operand none with
  | none => rfl
  | some found =>
      dsimp only [Option.map_some]
      rw [hc.hierarchy.isSubtype, hc.hierarchy.name, hc.hierarchy.name]

theorem checkArguments (hc : c.Renumbers c' π) (values : NodeValues) (node : Node)
    (method : String) (params : List (Option Qualifier)) (args : List NodeId) :
    c'.checkArguments (renumberValues π values) node method (params.map (Option.map π)) args =
      c.checkArguments values node method params args := by
  unfold Checker.checkArguments
  rw [List.zip_map_left, List.zipIdx_map, List.map_map]
  congr 2
  funext ⟨⟨param, arg⟩, index⟩
  cases param with
  | none => rfl
  | some bound => exact hc.require values node .argument arg bound _

theorem checkNode (hc : c.Renumbers c' π) (values : NodeValues) (bound : Option Qualifier)
    (node : Node) :
    c'.checkNode (renumberValues π values) (bound.map π) node = c.checkNode values bound node := by
  unfold Checker.checkNode
  cases node.kind with
  | assign target source =>
      cases target with
      | «local» var =>
          dsimp only
          rw [getD_renumberValues, Option.isNone_map, hc.localBound]
          split
          · rfl
          · cases c.localBound node var with
            | error e => rfl
            | ok q => exact congrArg Except.ok (hc.require values node .assignment source q _)
      | field receiver field =>
          dsimp only
          rw [hc.fieldBound, hc.require]
  | call receiver method args =>
      dsimp only
      rw [hc.method?]
      cases c.signatures.method? method with
      | none => rfl
      | some signature =>
          have harguments := hc.checkArguments values node method signature.params args
          dsimp only [Option.map_some, MethodSignature.map]
          rw [harguments]
          cases signature.receiver with
          | none => rfl
          | some q =>
              cases receiver with
              | none => rfl
              | some id =>
                  dsimp only [Option.map_some]
                  rw [hc.require]
  | returnValue value =>
      cases value with
      | none => rfl
      | some id =>
          cases bound with
          | none => rfl
          | some q => exact congrArg Except.ok (hc.require values node .returned id q _)
  | cast qualifier id =>
      dsimp only
      rw [hc.resolveAt]
      cases c.resolveAt node qualifier with
      | error e => rfl
      | ok q => exact congrArg Except.ok (hc.require values node .cast id q _)
  | _ => rfl

theorem checkGraph (hc : c.Renumbers c' π) (g : FlowGraph) (values : NodeValues)
    (bound : Option Qualifier) (all : Bool) :
    c'.checkGraph g (renumberValues π values) (bound.map π) all =
      c.checkGraph g values bound all := by
  have hnode : c'.checkNode (renumberValues π values) (bound.map π) = c.checkNode values bound :=
    funext (hc.checkNode values bound)
  unfold Checker.checkGraph
  rw [hnode]

theorem resolveDeclared (hc : c.Renumbers c' π) (name context : String) :
    c'.resolveDeclared name context = (c.resolveDeclared name context).map π := by
  unfold Checker.resolveDeclared
  rw [hc.hierarchy.lookup]
  cases c.hierarchy.lookup? name <;> rfl

theorem initialStore (hc : c.Renumbers c' π) (u : ProgramUnit) :
    c'.initialStore u = (c.initialStore u).map (Store.renumber π) := by
  have hadd (s : Store) (p : Parameter) :
      c'.addParameter (s.renumber π) p = (c.addParameter s p).map (Store.renumber π) := by
    unfold Checker.addParameter
    cases p.qualifier with
    | none =>
        dsimp only
        rw [hc.element]
        exact congrArg Except.ok (Store.insert_renumber _ _)
    | some name =>
        dsimp only
        rw [hc.resolveDeclared]
        cases c.resolveDeclared name s!"parameter `{p.name}`" with
        | error e => rfl
        | ok q => exact congrArg Except.ok (Store.insert_renumber _ _)
  have hfold (params : List Parameter) (s : Store) :
      params.foldlM c'.addParameter (s.renumber π) =
        (params.foldlM c.addParameter s).map (Store.renumber π) := by
    induction params generalizing s with
    | nil => rfl
    | cons p rest ih =>
        rw [List.foldlM_cons, List.foldlM_cons, hadd]
        cases c.addParameter s p with
        | error e => rfl
        | ok next => exact ih next
  unfold Checker.initialStore
  rw [hc.hierarchy.new]
  exact hfold u.params (.new c.hierarchy)

theorem returnBound (hc : c.Renumbers c' π) (u : ProgramUnit) :
    c'.returnBound u = (c.returnBound u).map (Option.map π) := by
  unfold Checker.returnBound
  cases u.returnQualifier with
  | none => rfl
  | some name =>
      dsimp only
      rw [hc.resolveDeclared]
      cases c.resolveDeclared name "return value" <;> rfl

end Checker.Renumbers

/-- What two analyses of a unit found is the same but for the numbers of qualifiers. -/
structure AnalyzedUnit.Renumbers (π : Qualifier → Qualifier) (a a' : AnalyzedUnit) : Prop where
  name : a'.name = a.name
  graph : a'.graph = a.graph
  fixpoint : a.fixpoint.Related (UnitAnalysis.Renumbers.Fact π) a'.fixpoint
  values : a'.values = renumberValues π a.values
  diagnostics : a'.diagnostics = a.diagnostics

theorem Checker.Renumbers.analyzeGraph {c c' : Checker} (hc : c.Renumbers c' π)
    (s : AnalysisSettings) (u : ProgramUnit) (g : FlowGraph) :
    Alike (AnalyzedUnit.Renumbers π) (c.analyzeGraph s u g) (c'.analyzeGraph s u g) := by
  unfold Checker.analyzeGraph
  rw [hc.initialStore, hc.returnBound, hc.hierarchy.height]
  cases c.initialStore u with
  | error e => exact .error e
  | ok initial =>
      cases c.returnBound u with
      | error e => exact .error e
      | ok bound =>
          have hu := UnitAnalysis.Renumbers.new hc g initial
          have hnone : (UnitAnalysis.new c' g (initial.renumber π)).noValues =
              renumberValues π (UnitAnalysis.new c g initial).noValues := by
            simp [UnitAnalysis.noValues, UnitAnalysis.new]
          apply (solve_related hu.dataflow (.refl g) rfl _ s.recordHistory hnone).bind
          rintro ⟨fixpoint, solved⟩ ⟨fixpoint', _⟩ ⟨hfix, rfl⟩
          have hchecked (values : NodeValues) : Alike (AnalyzedUnit.Renumbers π)
              (c.checkGraph g values bound s.checkUnreachable >>= fun diagnostics =>
                pure ⟨u.name, g, fixpoint, values, diagnostics⟩)
              (c'.checkGraph g (renumberValues π values) (bound.map π) s.checkUnreachable >>=
                fun diagnostics =>
                  pure ⟨u.name, g, fixpoint', renumberValues π values, diagnostics⟩) := by
            rw [hc.checkGraph]
            apply (Alike.same (c.checkGraph g values bound s.checkUnreachable)).bind
            rintro diagnostics _ rfl
            exact .ok ⟨rfl, rfl, hfix, rfl, rfl⟩
          dsimp only
          split
          · rw [hu.evaluateDetached]
            cases (UnitAnalysis.new c g initial).evaluateDetached g.unreachable solved with
            | error e => exact .error e
            | ok values => exact hchecked values
          · exact hchecked solved

/-- What two analyses found has the same names: the qualifiers of the nodes, and the stores before
and after blocks, on edges, in each visit and at the exit. -/
structure AnalyzedUnit.SameByName (h h' : Hierarchy) (a a' : AnalyzedUnit) : Prop where
  name : a'.name = a.name
  graph : a'.graph = a.graph
  visits : a'.fixpoint.visits = a.fixpoint.visits
  rounds : a'.fixpoint.rounds = a.fixpoint.rounds
  statuses : a'.fixpoint.statuses = a.fixpoint.statuses
  values : a'.values.map (Option.map h'.name) = a.values.map (Option.map h.name)
  before (block : BlockId) : (a'.fixpoint.inFact block).map (TransferResult.text h') =
    (a.fixpoint.inFact block).map (TransferResult.text h)
  after (block : BlockId) : (a'.fixpoint.outFact block).map (TransferResult.text h') =
    (a.fixpoint.outFact block).map (TransferResult.text h)
  edges : a'.fixpoint.edgeFacts.map (fun e => (e.1, e.2.text h')) =
    a.fixpoint.edgeFacts.map fun e => (e.1, e.2.text h)
  history :
    a'.fixpoint.history.map (List.map fun v => (v.block, v.output.text h', v.status)) =
      a.fixpoint.history.map (List.map fun v => (v.block, v.output.text h, v.status))
  exitStore : a'.exitStore.map (Store.text h') = a.exitStore.map (Store.text h)
  diagnostics : a'.diagnostics = a.diagnostics

theorem AnalyzedUnit.Renumbers.sameByName {h h' : Hierarchy} (hπ : h.Renumbers h' π)
    {a a' : AnalyzedUnit} (ha : a.Renumbers π a') : a.SameByName h h' a' := by
  have htext {o o' : Option TransferResult}
      (ho : Option.Rel (UnitAnalysis.Renumbers.Fact π) o o') :
      o'.map (TransferResult.text h') = o.map (TransferResult.text h) := by
    cases ho with
    | none => rw [Option.map_none, Option.map_none]
    | some hr => rw [Option.map_some, Option.map_some, hr, hπ.resultText]
  have hedges {l l' : List ((BlockId × BlockId) × TransferResult)}
      (hl : EdgesRelated (UnitAnalysis.Renumbers.Fact π) l l') :
      l'.map (fun e => (e.1, e.2.text h')) = l.map fun e => (e.1, e.2.text h) := by
    induction hl with
    | nil => rw [List.map_nil, List.map_nil]
    | cons he _ ih => rw [List.map_cons, List.map_cons, ih, he.1, he.2, hπ.resultText]
  have hvisits {l l' : List (Visit TransferResult)}
      (hl : VisitsRelated (UnitAnalysis.Renumbers.Fact π) l l') :
      l'.map (fun v => (v.block, v.output.text h', v.status)) =
        l.map fun v => (v.block, v.output.text h, v.status) := by
    induction hl with
    | nil => rw [List.map_nil, List.map_nil]
    | cons hv _ ih =>
        rw [List.map_cons, List.map_cons, ih, hv.1, hv.2.1, hv.2.2, hπ.resultText]
  constructor
  case name => exact ha.name
  case graph => exact ha.graph
  case visits => exact ha.fixpoint.visits.symm
  case rounds => exact ha.fixpoint.rounds.symm
  case statuses => exact ha.fixpoint.statuses.symm
  case values =>
    rw [ha.values, Array.map_map]
    congr 1
    funext q
    cases q with
    | none => rfl
    | some q => exact congrArg some (hπ.name q)
  case before => exact fun block => htext (ha.fixpoint.before block)
  case after => exact fun block => htext (ha.fixpoint.after block)
  case edges => exact hedges ha.fixpoint.edges
  case history =>
    have hhistory := ha.fixpoint.history
    generalize a.fixpoint.history = o at hhistory
    generalize a'.fixpoint.history = o' at hhistory
    cases hhistory with
    | none => rw [Option.map_none, Option.map_none]
    | some hl => exact congrArg some (hvisits hl)
  case exitStore =>
    have hafter := ha.fixpoint.after a.graph.exit
    unfold AnalyzedUnit.exitStore
    rw [ha.graph]
    generalize a.fixpoint.outFact a.graph.exit = o at hafter
    generalize a'.fixpoint.outFact a.graph.exit = o' at hafter
    cases hafter with
    | none => simp only [Option.map_none]
    | some hr =>
        rw [Option.map_some, Option.map_some, hr, TransferResult.thenStore_renumber]
        exact congrArg some hπ.storeText
  case diagnostics => exact ha.diagnostics

namespace Checker

variable {c c' : Checker} {d d' : CheckerDeclaration}

/-- The order in which a checker declares its qualifiers, their supertypes, its signatures and its
fields does not matter: a declaration in another order is accepted, every unit has the same error
or an outcome with the same names, and so has every unit over any graph. -/
theorem ofDeclaration_reordered (hd : d.Reorders d') (hok : ofDeclaration d = .ok c) :
    ∃ c', ofDeclaration d' = .ok c' ∧ c'.name = c.name ∧ ∀ s u,
      Alike (AnalyzedUnit.SameByName c.hierarchy c'.hierarchy) (c.analyze s u) (c'.analyze s u) ∧
      ∀ g, Alike (AnalyzedUnit.SameByName c.hierarchy c'.hierarchy) (c.analyzeGraph s u g)
        (c'.analyzeGraph s u g) := by
  obtain ⟨c', π, hok', hc⟩ := ofDeclaration_reorders hd hok
  refine ⟨c', hok', hc.name, fun s u => ?_⟩
  have hgraph (g : FlowGraph) : Alike (AnalyzedUnit.SameByName c.hierarchy c'.hierarchy)
      (c.analyzeGraph s u g) (c'.analyzeGraph s u g) := by
    have hrenumbered := hc.analyzeGraph s u g
    generalize c.analyzeGraph s u g = r at hrenumbered
    generalize c'.analyzeGraph s u g = r' at hrenumbered
    cases hrenumbered with
    | error e => exact .error e
    | ok ha => exact .ok (ha.sameByName hc.hierarchy)
  refine ⟨?_, hgraph⟩
  apply (Alike.same (u.lower.mapError (UnitError.construction u.name))).bind
  rintro g _ rfl
  have hfound := hgraph g
  generalize c.analyzeGraph s u g = r at hfound
  generalize c'.analyzeGraph s u g = r' at hfound
  cases hfound with
  | error e => exact .error _
  | ok ha => exact .ok ha

end Checker

/-- Links that may lead nowhere, declared from the top of the hierarchy downwards. -/
def linked : CheckerDeclaration where
  name := none
  qualifiers := [⟨"Any", []⟩, ⟨"MaybeNull", ["Any"]⟩, ⟨"Present", ["MaybeNull"]⟩]
  implicit := [⟨.element .newObject, "Present"⟩]
  signatures := [⟨"isPresent", [none], none, none, false, [], [⟨true, .argument 0, "Present"⟩]⟩,
    ⟨"close", [some "Present"], none, none, false, [], []⟩]
  fields := [⟨"link", "MaybeNull"⟩, ⟨"owner", "Present"⟩]
  refinesEquality := true

/-- The same from the bottom upwards, with supertypes that follow from others. -/
def relinked : CheckerDeclaration where
  name := none
  qualifiers := [⟨"Present", ["Any", "MaybeNull", "Any"]⟩, ⟨"MaybeNull", ["MaybeNull", "Any"]⟩,
    ⟨"Any", []⟩]
  implicit := [⟨.element .newObject, "Present"⟩]
  signatures := [⟨"close", [some "Present"], none, none, false, [], []⟩,
    ⟨"isPresent", [none], none, none, false, [], [⟨true, .argument 0, "Present"⟩]⟩]
  fields := [⟨"owner", "Present"⟩, ⟨"link", "MaybeNull"⟩]
  refinesEquality := true

theorem linked_reorders : linked.Reorders relinked where
  name := rfl
  qualifiers := by decide
  order := by
    have hlinked : linked.subtypes = [("MaybeNull", "Any"), ("Present", "MaybeNull")] := rfl
    have hrelinked : relinked.subtypes = [("Present", "Any"), ("Present", "MaybeNull"),
      ("Present", "Any"), ("MaybeNull", "MaybeNull"), ("MaybeNull", "Any")] := rfl
    have hpresent : ReflTransGen (fun sub sup => (sub, sup) ∈ linked.subtypes) "Present" "Any" :=
      .head (b := "MaybeNull") (by decide) (.single (by decide))
    apply order_of_implied
    · intro p hp
      exact .single (by fin_cases hp <;> decide)
    · intro p hp
      fin_cases hp
      · exact hpresent
      · exact .single (by decide)
      · exact hpresent
      · exact .refl
      · exact .single (by decide)
  implicit := rfl
  signatures := .swap _ _ []
  fields := .swap _ _ []
  refinesEquality := rfl

/-- A unit that follows links to the last node and closes it. -/
def closingUnit : ProgramUnit where
  name := "closing"
  params := []
  returnQualifier := none
  body := [.localDecl "node" none (some (.new "Node" [])),
    .whileLoop none (.call none "isPresent" [.var "node"] [])
      [.assign (.local "node") (.field (.var "node") "link")],
    .expr (.call none "close" [.var "node"] [])]

theorem closingUnit_sameByName : ∃ c c' a a', Checker.ofDeclaration linked = .ok c ∧
    Checker.ofDeclaration relinked = .ok c' ∧ c.analyze .standard closingUnit = .ok a ∧
    c'.analyze .standard closingUnit = .ok a' ∧ a.SameByName c.hierarchy c'.hierarchy a' := by
  have hok : ((Checker.ofDeclaration linked).toOption.bind fun c =>
      (c.analyze .standard closingUnit).toOption).isSome = true := by decide +kernel
  obtain ⟨a, h⟩ := Option.isSome_iff_exists.mp hok
  obtain ⟨c, hc, ha⟩ := Option.bind_eq_some_iff.mp h
  have hc := ok_of_toOption hc
  have ha := ok_of_toOption ha
  obtain ⟨c', hc', -, houtcome⟩ := Checker.ofDeclaration_reordered linked_reorders hc
  have hsame := (houtcome .standard closingUnit).1
  rw [ha] at hsame
  generalize ha' : c'.analyze .standard closingUnit = r at hsame
  cases hsame with
  | ok hsame => exact ⟨c, c', a, _, hc, hc', ha, ha', hsame⟩

end FlowTyping
