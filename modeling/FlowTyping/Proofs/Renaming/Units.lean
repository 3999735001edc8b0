import Mathlib.Logic.Equiv.Basic
import FlowTyping.Proofs.Flow.LeastFixpoint
import FlowTyping.Proofs.Renaming.Lowering
import FlowTyping.Proofs.Renaming.Transfer

/-!
The analysis of a unit with its local variables renamed. As long as distinct variables
keep distinct names it fails like that of the unit, or it gives the same qualifiers and
the same diagnostics. A name that two variables share is another matter: what is known of
the inner one is taken for the outer one once the inner scope is left.
-/

namespace FlowTyping

variable {ρ : Equiv.Perm String}

namespace UnitAnalysis.Renamed

variable {u u' : UnitAnalysis} {r r' : TransferResult}

theorem parallel (hu : u.Renamed ρ u') : u.Parallel (TransferResult.Renamed ρ) u' where
  checker := hu.checker
  consumers := hu.consumers
  block? id := by
    rw [hu.graph]
    rfl
  node id := by
    rw [hu.graph, FlowGraph.node?_rename]
    cases u.graph.node? id with
    | none => exact .none
    | some node => exact .some fun values _ _ hr => hu.transferNode values node hr
  thenStore hr := .regular hr.thenStore
  elseStore hr := .regular hr.elseStore
  collapse hr := .regular hr.collapse

theorem dataflow (hu : u.Renamed ρ u') :
    u.dataflow.Related (TransferResult.Renamed ρ) Eq u'.dataflow where
  initial := .regular hu.initial
  bottom := by
    unfold UnitAnalysis.dataflow
    rw [hu.checker]
    exact .regular (.of_empty _ _)
  join hx hy := by
    unfold UnitAnalysis.dataflow
    rw [hu.checker]
    exact hx.join hy
  same hx hy := hx.same hy
  transfer {values _} id _ _ hvalues hr := hvalues ▸ hu.parallel.transferBlock values id hr

theorem detachedPass (hu : u.Renamed ρ u') (pending : List BlockId) (values : NodeValues) :
    u'.detachedPass pending values = u.detachedPass pending values := by
  induction pending generalizing values with
  | nil => rfl
  | cons id rest ih =>
      unfold UnitAnalysis.detachedPass
      rw [hu.graph, show (u.graph.rename ρ).block? id = u.graph.block? id from rfl]
      cases u.graph.block? id with
      | none => exact ih values
      | some block =>
          have hrun := hu.parallel.runBlock block values (.regular hu.initial)
          dsimp only
          generalize u.runBlock block values (.regular u.initial) = x at hrun
          generalize u'.runBlock block values (.regular u'.initial) = y at hrun
          obtain @⟨run, run', error, hvalues, -, -⟩ := hrun
          cases error with
          | none =>
              dsimp only
              rw [hvalues, ih]
          | some e =>
              cases e with
              | missingOperand operand node block =>
                  dsimp only
                  rw [hvalues, ih]
              | _ => rfl

theorem evaluateDetached (hu : u.Renamed ρ u') (pending : List BlockId) (values : NodeValues) :
    u'.evaluateDetached pending values = u.evaluateDetached pending values := by
  have hpass (pending : List BlockId) (values : NodeValues) : u'.detachedPass pending (id values) =
      (u.detachedPass pending values).map (Prod.map id id) := by
    rw [id, hu.detachedPass]
    cases u.detachedPass pending values <;> rfl
  have hdetached := UnitAnalysis.evaluateDetached_map hpass pending values
  rw [id] at hdetached
  rw [hdetached]
  cases u.evaluateDetached pending values <;> rfl

end UnitAnalysis.Renamed

/-- The diagnostic of a graph with its variables renamed. The subject of an assignment to a
local variable is its name. -/
def Diagnostic.rename (ρ : String → String) (g : FlowGraph) (d : Diagnostic) : Diagnostic :=
  match (g.node? d.node).map Node.kind with
  | some (.assign (.local _) _) => { d with subject := ρ d.subject }
  | _ => d

namespace Checker

variable (c : Checker) {values : NodeValues} {bound : Option Qualifier} {node : Node}

theorem node_of_require {kind : DiagnosticKind} {operand : NodeId} {q : Qualifier}
    {subject : String} {d : Diagnostic} (h : d ∈ c.require values node kind operand q subject) :
    d.node = node.id := by
  unfold require at h
  split at h
  · exact absurd h List.not_mem_nil
  · split at h
    · exact absurd h List.not_mem_nil
    · rw [List.mem_singleton.mp h]

/-- Every diagnostic of a node names it. -/
theorem node_of_checkNode {found : List Diagnostic}
    (h : c.checkNode values bound node = .ok found) {d : Diagnostic} (hd : d ∈ found) :
    d.node = node.id := by
  unfold checkNode at h
  split at h
  · split at h
    · cases h
      exact absurd hd List.not_mem_nil
    · obtain ⟨q, -, h⟩ := bind_ok.mp h
      cases h
      exact c.node_of_require hd
  · cases h
    exact c.node_of_require hd
  · rename_i receiver method args _
    have hargument {signature : MethodSignature Qualifier}
        (hd : d ∈ c.checkArguments values node method signature.params args) :
        d.node = node.id := by
      obtain ⟨ds, hds, hd⟩ := List.mem_flatten.mp hd
      obtain ⟨⟨⟨param, arg⟩, index⟩, -, rfl⟩ := List.mem_map.mp hds
      cases param with
      | none => exact absurd hd List.not_mem_nil
      | some q => exact c.node_of_require hd
    split at h
    · cases h
      exact absurd hd List.not_mem_nil
    · dsimp only at h
      split at h
      · cases h
        rcases List.mem_append.mp hd with hd | hd
        · exact hargument hd
        · exact c.node_of_require hd
      · cases h
        exact hargument hd
  · split at h
    · cases h
      exact c.node_of_require hd
    · cases h
      exact absurd hd List.not_mem_nil
  · obtain ⟨q, -, h⟩ := bind_ok.mp h
    cases h
    exact c.node_of_require hd
  · cases h
    exact absurd hd List.not_mem_nil

theorem checkNode_rename {g : FlowGraph} (hnode : g.node? node.id = some node) :
    c.checkNode values bound (node.rename ρ) =
      (c.checkNode values bound node).map (List.map (Diagnostic.rename ρ g)) := by
  have hkeep (hkind : ∀ var source, node.kind ≠ .assign (.local var) source)
      (hsame : c.checkNode values bound (node.rename ρ) = c.checkNode values bound node) :
      c.checkNode values bound (node.rename ρ) =
        (c.checkNode values bound node).map (List.map (Diagnostic.rename ρ g)) := by
    rw [hsame]
    cases hfound : c.checkNode values bound node with
    | error e => rfl
    | ok found =>
        have hmap : found.map (Diagnostic.rename ρ g) = found.map id := by
          apply List.map_congr_left
          intro d hd
          unfold Diagnostic.rename
          rw [c.node_of_checkNode hfound hd, hnode, Option.map_some]
          split
          · rename_i var source hassign
            exact absurd (Option.some.inj hassign) (hkind var source)
          · rfl
        exact congrArg Except.ok (hmap.trans (List.map_id found)).symm
  obtain ⟨id, block, kind⟩ := node
  cases kind with
  | assign target source =>
      cases target with
      | field receiver field => exact hkeep (fun _ _ h => by cases h) rfl
      | «local» var =>
          unfold checkNode
          dsimp only [Node.rename, NodeKind.rename]
          split
          · rfl
          · have hbound :
                c.localBound ⟨id, block, .assign (.local (var.rename ρ)) source⟩ (var.rename ρ) =
                  c.localBound ⟨id, block, .assign (.local var) source⟩ var := rfl
            rw [hbound]
            cases c.localBound ⟨id, block, .assign (.local var) source⟩ var with
            | error e => rfl
            | ok q =>
                refine congrArg Except.ok ?_
                unfold require
                cases values.getD source none with
                | none => rfl
                | some found =>
                    dsimp only
                    split
                    · rfl
                    · simp [Diagnostic.rename, hnode, LocalVar.rename]
  | _ => exact hkeep (fun _ _ h => by cases h) rfl

theorem checkGraph_rename {g : FlowGraph} (hg : g.Valid) (all : Bool) :
    c.checkGraph (g.rename ρ) values bound all =
      (c.checkGraph g values bound all).map (List.map (Diagnostic.rename ρ g)) := by
  have hnodes : ∀ node ∈ g.nodes.toList, g.node? node.id = some node := by
    intro node hmem
    obtain ⟨i, hi⟩ := List.mem_iff_getElem?.mp hmem
    have hi : g.node? i = some node := by rwa [Array.getElem?_toList] at hi
    rwa [hg.node hi]
  have hchecks : ∀ l : List Node, (∀ node ∈ l, g.node? node.id = some node) →
      (l.map (Node.rename ρ)).mapM (c.checkNode values bound) =
        (l.mapM (c.checkNode values bound)).map
          (List.map (List.map (Diagnostic.rename ρ g))) := by
    intro l
    induction l with
    | nil => exact fun _ => rfl
    | cons node rest ih =>
        intro hl
        rw [List.map_cons, List.mapM_cons, List.mapM_cons, ih (List.forall_mem_cons.mp hl).2,
          c.checkNode_rename (List.forall_mem_cons.mp hl).1]
        cases c.checkNode values bound node with
        | error e => rfl
        | ok found =>
            cases rest.mapM (c.checkNode values bound) with
            | error e => rfl
            | ok others => rfl
  have hincluded : (g.rename ρ).nodes.toList.filter
        (fun node => all || (g.rename ρ).isReachable node.block) =
      (g.nodes.toList.filter fun node => all || g.isReachable node.block).map (Node.rename ρ) := by
    rw [show (g.rename ρ).nodes = g.nodes.map (Node.rename ρ) from rfl, Array.toList_map,
      List.filter_map]
    rfl
  unfold checkGraph
  dsimp only
  rw [hincluded, hchecks _ fun node hnode => hnodes node (List.mem_filter.mp hnode).1]
  cases (g.nodes.toList.filter fun node => all || g.isReachable node.block).mapM
      (c.checkNode values bound) with
  | error e => rfl
  | ok found => exact congrArg Except.ok List.map_flatten.symm

theorem initialStore_renamed {u : ProgramUnit} (hparams : ∀ p ∈ u.params, ρ p.name = p.name) :
    Alike (Store.Renamed ρ) (c.initialStore u) (c.initialStore (u.rename ρ)) := by
  have hadd {p : Parameter} (hp : ρ p.name = p.name) {s s' : Store} (hs : s.Renamed ρ s') :
      Alike (Store.Renamed ρ) (c.addParameter s p) (c.addParameter s' p) := by
    have hinsert (q : Qualifier) : Alike (ε := AnalysisError) (Store.Renamed ρ)
        (.ok (s.insert (.local p.name) q)) (.ok (s'.insert (.local p.name) q)) := by
      have hinserted := hs.insert (.local p.name) q
      rw [FlowKey.rename, hp] at hinserted
      exact .ok hinserted
    unfold addParameter
    cases p.qualifier with
    | none => exact hinsert (c.element .parameter)
    | some name =>
        apply (Alike.same (c.resolveDeclared name s!"parameter `{p.name}`")).bind
        rintro q _ rfl
        exact hinsert q
  have hfold (params : List Parameter) (hfixed : ∀ p ∈ params, ρ p.name = p.name) {s s' : Store}
      (hs : s.Renamed ρ s') :
      Alike (Store.Renamed ρ) (params.foldlM c.addParameter s)
        (params.foldlM c.addParameter s') := by
    induction params generalizing s s' with
    | nil => exact .ok hs
    | cons p rest ih =>
        rw [List.foldlM_cons, List.foldlM_cons]
        apply (hadd (List.forall_mem_cons.mp hfixed).1 hs).bind
        intro t t' ht
        exact ih (List.forall_mem_cons.mp hfixed).2 ht
  have hrename : (u.rename ρ).params = u.params := by
    have hmap : u.params.map (fun p => { p with name := ρ p.name }) = u.params.map id := by
      apply List.map_congr_left
      intro p hp
      rw [hparams p hp]
      rfl
    exact hmap.trans (List.map_id _)
  unfold initialStore
  rw [hrename]
  exact hfold u.params hparams (.of_empty _ _)

end Checker

/-- What the analysis found of a unit, and of the unit with its variables renamed. -/
structure AnalyzedUnit.Renamed (ρ : Equiv.Perm String) (a a' : AnalyzedUnit) : Prop where
  name : a'.name = a.name
  graph : a'.graph = a.graph.rename ρ
  visits : a'.fixpoint.visits = a.fixpoint.visits
  values : a'.values = a.values
  diagnostics : a'.diagnostics = a.diagnostics.map (Diagnostic.rename ρ a.graph)

theorem Checker.analyzeGraph_renamed (c : Checker) (s : AnalysisSettings) {u : ProgramUnit}
    {g : FlowGraph} (hg : g.Valid) (hparams : ∀ p ∈ u.params, ρ p.name = p.name) :
    Alike (AnalyzedUnit.Renamed ρ) (c.analyzeGraph s u g)
      (c.analyzeGraph s (u.rename ρ) (g.rename ρ)) := by
  unfold analyzeGraph
  apply (c.initialStore_renamed hparams).bind
  intro initial initial' hinitial
  rw [show c.returnBound (u.rename ρ) = c.returnBound u from rfl]
  apply (Alike.same (c.returnBound u)).bind
  rintro bound _ rfl
  have hu := UnitAnalysis.new_renamed c g hinitial
  have hcount : (g.rename ρ).nodeCount = g.nodeCount := Array.size_map
  dsimp only
  rw [show (g.rename ρ).size = g.size from rfl, hcount]
  have hedges : g.SameEdges (g.rename ρ) := ⟨rfl, rfl, fun _ => rfl⟩
  have hsolved := solve_related hu.dataflow hedges rfl
    (s.visitLimit g.size g.nodeCount c.hierarchy.height) s.recordHistory
    (Eq.refl (UnitAnalysis.new c g initial).noValues)
  have hnoValues : (UnitAnalysis.new c (g.rename ρ) initial').noValues =
      (UnitAnalysis.new c g initial).noValues := by
    unfold UnitAnalysis.noValues
    rw [hu.graph, show (UnitAnalysis.new c g initial).graph = g from rfl, hcount]
  rw [hnoValues]
  apply hsolved.bind
  rintro ⟨fixpoint, solved⟩ ⟨fixpoint', _⟩ ⟨hfixpoint, rfl⟩
  have hfinish (values : NodeValues) :
      Alike (AnalyzedUnit.Renamed ρ)
        (do
          let diagnostics ← c.checkGraph g values bound s.checkUnreachable
          return { name := u.name, graph := g, fixpoint, values, diagnostics })
        (do
          let diagnostics ← c.checkGraph (g.rename ρ) values bound s.checkUnreachable
          return {
            name := (u.rename ρ).name, graph := g.rename ρ, fixpoint := fixpoint', values,
            diagnostics }) := by
    rw [c.checkGraph_rename hg]
    cases c.checkGraph g values bound s.checkUnreachable with
    | error e => exact .error e
    | ok diagnostics => exact .ok ⟨rfl, rfl, hfixpoint.visits.symm, rfl, rfl⟩
  dsimp only
  split
  · rw [hu.evaluateDetached]
    apply (Alike.same _).bind
    rintro values _ rfl
    exact hfinish values
  · exact hfinish solved

/-- Renaming variables changes nothing but names, as long as distinct names stay distinct
and the parameters keep theirs. -/
theorem Checker.analyze_rename (c : Checker) (s : AnalysisSettings) (u : ProgramUnit)
    (ρ : Equiv.Perm String) (hparams : ∀ p ∈ u.params, ρ p.name = p.name) :
    Alike (AnalyzedUnit.Renamed ρ) (c.analyze s u) (c.analyze s (u.rename ρ)) := by
  unfold analyze
  rw [ProgramUnit.lower_rename ρ.injective]
  cases hlower : u.lower with
  | error e => exact .error _
  | ok g =>
      have hgraph := c.analyzeGraph_renamed s (u.lower_valid hlower) hparams
      change Alike _ ((c.analyzeGraph s u g).mapError (UnitError.analysis u.name))
        ((c.analyzeGraph s (u.rename ρ) (g.rename ρ)).mapError (UnitError.analysis u.name))
      generalize c.analyzeGraph s u g = x at hgraph
      generalize c.analyzeGraph s (u.rename ρ) (g.rename ρ) = y at hgraph
      cases hgraph with
      | error e => exact .error _
      | ok ha => exact .ok ha

/-- A unit with a counted loop over a variable of its own, and a parameter `x` that it
returns after the loop. -/
def reusedUnit (inner : String) : ProgramUnit where
  name := "reused"
  params := [⟨"x", some "MaybeNull"⟩, ⟨"c", none⟩]
  returnQualifier := some "Present"
  body := [.forLoop none [.localDecl inner none (some (.new "Node" []))] (some (.var "c")) [] [],
    .returnValue (some (.var "x"))]

theorem reusedUnit_rename : ∃ c, Checker.ofDeclaration presence = .ok c ∧
    (∀ p ∈ (reusedUnit "y").params, Equiv.swap "y" "z" p.name = p.name) ∧
    (reusedUnit "y").rename (Equiv.swap "y" "z") = reusedUnit "z" ∧
    Alike (AnalyzedUnit.Renamed (Equiv.swap "y" "z")) (c.analyze .standard (reusedUnit "y"))
      (c.analyze .standard ((reusedUnit "y").rename (Equiv.swap "y" "z"))) := by
  have hok : (Checker.ofDeclaration presence).toOption.isSome = true := by decide +kernel
  obtain ⟨c, hc⟩ := Option.isSome_iff_exists.mp hok
  have hparams : ∀ p ∈ (reusedUnit "y").params, Equiv.swap "y" "z" p.name = p.name := by
    decide +kernel
  refine ⟨c, ok_of_toOption hc, hparams, ?_, c.analyze_rename .standard _ _ hparams⟩
  rfl

/-- The loop variable with the name of the parameter: after the loop the parameter is taken
for it. With a name of its own, the parameter keeps its qualifier. -/
theorem reusedUnit_leaks : ∃ c a a', Checker.ofDeclaration presence = .ok c ∧
    c.analyze .standard (reusedUnit "x") = .ok a ∧ c.analyze .standard (reusedUnit "y") = .ok a' ∧
    a.values.map (Option.map c.hierarchy.name) =
      #[some "Present", some "MaybeNull", some "Present", some "MaybeNull", some "Present",
        some "Present"] ∧
    a'.values.map (Option.map c.hierarchy.name) =
      #[some "Present", some "MaybeNull", some "Present", some "MaybeNull", some "MaybeNull",
        some "MaybeNull"] ∧
    a.diagnostics = [] ∧
    a'.diagnostics = [⟨.returned, 7, 5, "MaybeNull", "Present", "return"⟩] := by
  have hok : ((Checker.ofDeclaration presence).toOption.bind fun c =>
      (c.analyze .standard (reusedUnit "x")).toOption.bind fun a =>
        (c.analyze .standard (reusedUnit "y")).toOption.bind fun a' =>
          if a.values.map (Option.map c.hierarchy.name) =
              #[some "Present", some "MaybeNull", some "Present", some "MaybeNull",
                some "Present", some "Present"] ∧
            a'.values.map (Option.map c.hierarchy.name) =
              #[some "Present", some "MaybeNull", some "Present", some "MaybeNull",
                some "MaybeNull", some "MaybeNull"] ∧
            a.diagnostics = [] ∧
            a'.diagnostics = [⟨.returned, 7, 5, "MaybeNull", "Present", "return"⟩] then
            some ()
          else none).isSome = true := by decide +kernel
  obtain ⟨_, h⟩ := Option.isSome_iff_exists.mp hok
  obtain ⟨c, hc, h⟩ := Option.bind_eq_some_iff.mp h
  obtain ⟨a, ha, h⟩ := Option.bind_eq_some_iff.mp h
  obtain ⟨a', ha', h⟩ := Option.bind_eq_some_iff.mp h
  obtain ⟨hfound, -⟩ := Option.ite_none_right_eq_some.mp h
  exact ⟨c, a, a', ok_of_toOption hc, ok_of_toOption ha, ok_of_toOption ha', hfound⟩

end FlowTyping
