import FlowTyping.Proofs.Bounds.Analysis
import FlowTyping.Proofs.Bounds.Closing
import FlowTyping.Proofs.Bounds.Statements
import FlowTyping.Proofs.Flow.VisitBound

/-!
The analysis of a graph and its checks with checked accesses, from the parameters of the unit to
the diagnostics.
-/

namespace FlowTyping

namespace Checked

section Checks

variable (c : Checker) (values : NodeValues) (node : Node)

def require (kind : DiagnosticKind) (operand : NodeId) (bound : Qualifier) (subject : String) :
    Option (List Diagnostic) :=
  match values.getD operand none with
  | none => some []
  | some found => do
      let below ← isSubtype c.hierarchy found bound
      if below then return []
      else
        let foundName ← name c.hierarchy found
        let boundName ← name c.hierarchy bound
        return [⟨kind, node.block, node.id, foundName, boundName, subject⟩]

def checkArguments (method : String) (params : List (Option Qualifier)) (args : List NodeId) :
    Option (List Diagnostic) := do
  let found ← (params.zip args).zipIdx.mapM fun ((param, arg), index) =>
    match param with
    | none => some []
    | some bound => require c values node .argument arg bound s!"argument {index} of {method}"
  return found.flatten

def checkNode (returnBound : Option Qualifier) : Checked AnalysisError (List Diagnostic) :=
  match node.kind with
  | .assign (.local var) source =>
      if (values.getD source none).isNone then return []
      else do
        let bound ← ofExcept (c.localBound node var)
        access (require c values node .assignment source bound var.name)
  | .assign (.field _ field) source =>
      access (require c values node .assignment source (c.fieldBound field) s!"field {field}")
  | .call receiver method args =>
      match c.signatures.method? method with
      | none => return []
      | some signature => do
          let arguments ← access (checkArguments c values node method signature.params args)
          match signature.receiver, receiver with
          | some bound, some id =>
              let found ← access
                (require c values node .receiver id bound s!"receiver of {method}")
              return arguments ++ found
          | _, _ => return arguments
  | .returnValue (some id) =>
      match returnBound with
      | some bound => access (require c values node .returned id bound "return")
      | none => return []
  | .cast qualifier id => do
      let bound ← ofExcept (c.resolveAt node qualifier)
      access (require c values node .cast id bound s!"@{qualifier}")
  | _ => return []

def checkGraph (g : FlowGraph) (returnBound : Option Qualifier) (includeUnreachable : Bool) :
    Checked AnalysisError (List Diagnostic) := do
  let included := g.nodes.toList.filter fun node =>
    includeUnreachable || g.isReachable node.block
  let found ← included.mapM fun node => checkNode c values node returnBound
  return found.flatten

end Checks

def analyzeGraph (c : Checker) (s : AnalysisSettings) (u : ProgramUnit) (g : FlowGraph) :
    Checked AnalysisError AnalyzedUnit := do
  let initial ← ofExcept (c.initialStore u)
  let bound ← ofExcept (c.returnBound u)
  let analysis ← access (new c g initial)
  let limit := s.visitLimit g.size g.nodeCount c.hierarchy.height
  let (fixpoint, solved) ←
    solve analysis.dataflow (dataflow analysis) g limit s.recordHistory analysis.noValues
  let values ←
    if s.checkUnreachable then evaluateDetached analysis g.unreachable solved
    else pure solved
  let diagnostics ← checkGraph c values g bound s.checkUnreachable
  return { name := u.name, graph := g, fixpoint, values, diagnostics }

end Checked

open Checked

namespace Checker.Sound

variable {c : Checker} {V : NodeValues} {node : Node} {n : Nat}

theorem gives_require (hh : c.hierarchy.Closed) (hV : V.Bounded c.hierarchy n)
    (kind : DiagnosticKind) (operand : NodeId) {bound : Qualifier} (hbound : c.hierarchy.Has bound)
    (subject : String) :
    Gives (Checked.require c V node kind operand bound subject)
      (c.require V node kind operand bound subject) fun _ => True := by
  unfold Checked.require Checker.require
  cases hfound : V.getD operand none with
  | none => exact .pure trivial
  | some found =>
      have hhas := hV.has hfound
      apply (hh.gives_isSubtype hhas hbound).bind
      intro _
      dsimp only
      split
      · exact .pure trivial
      · apply (Hierarchy.Closed.gives_name hhas).bind
        intro _
        apply (Hierarchy.Closed.gives_name hbound).bind
        intro _
        exact .pure trivial

theorem gives_checkArguments (hh : c.hierarchy.Closed) (hV : V.Bounded c.hierarchy n)
    (method : String) {params : List (Option Qualifier)}
    (hparams : ∀ q, some q ∈ params → c.hierarchy.Has q) (args : List NodeId) :
    Gives (Checked.checkArguments c V node method params args)
      (c.checkArguments V node method params args) fun _ => True := by
  refine (Gives.mapM (Q := fun _ => True) fun p hp => ?_).bind fun _ => .pure trivial
  obtain ⟨⟨param, arg⟩, index⟩ := p
  cases param with
  | none => exact .pure trivial
  | some bound =>
      have hmem : some bound ∈ params :=
        (List.of_mem_zip (List.fst_mem_of_mem_zipIdx hp)).1
      exact gives_require hh hV _ _ (hparams bound hmem) _

theorem delivers_checkNode (hc : c.Sound) (hh : c.hierarchy.Closed) (hV : V.Bounded c.hierarchy n)
    {returnBound : Option Qualifier} (hbound : ∀ q, returnBound = some q → c.hierarchy.Has q) :
    Delivers (Checked.checkNode c V node returnBound) (c.checkNode V returnBound node)
      fun _ => True := by
  unfold Checked.checkNode Checker.checkNode
  cases node.kind with
  | assign target source =>
      cases target with
      | «local» var =>
          dsimp only
          split
          · exact .ok trivial
          · apply (Delivers.ofExcept fun q hq => hc.has_localBound hq).bind
            intro bound hhas
            exact (gives_require hh hV _ source hhas _).succeeds
      | field receiver field =>
          exact (gives_require hh hV _ source (hc.has_fieldBound field) _).succeeds
  | call receiver method args =>
      dsimp only
      cases hmethod : c.signatures.method? method with
      | none => exact .ok trivial
      | some signature =>
          have hwithin := hc.within hmethod
          apply (gives_checkArguments hh hV method hwithin.params args).access
          intro _
          dsimp only
          cases hreceiver : signature.receiver with
          | none => exact .ok trivial
          | some bound =>
              cases receiver with
              | none => exact .ok trivial
              | some id =>
                  apply (gives_require hh hV _ id (hwithin.receiver bound hreceiver) _).access
                  intro _
                  exact .ok trivial
  | returnValue value =>
      cases value with
      | none => exact .ok trivial
      | some id =>
          cases returnBound with
          | none => exact .ok trivial
          | some bound => exact (gives_require hh hV _ id (hbound bound rfl) _).succeeds
  | cast qualifier id =>
      apply (Delivers.ofExcept fun q hq => has_resolveAt hq).bind
      intro bound hhas
      exact (gives_require hh hV _ id hhas _).succeeds
  | _ => exact .ok trivial

theorem delivers_checkGraph (hc : c.Sound) (hh : c.hierarchy.Closed)
    (hV : V.Bounded c.hierarchy n) (g : FlowGraph) {returnBound : Option Qualifier}
    (hbound : ∀ q, returnBound = some q → c.hierarchy.Has q) (all : Bool) :
    Delivers (Checked.checkGraph c V g returnBound all) (c.checkGraph g V returnBound all)
      fun _ => True := by
  apply (Delivers.mapM fun node _ => hc.delivers_checkNode hh hV hbound).bind
  rintro found -
  exact .ok trivial

theorem initialStore_wf (hc : c.Sound) {u : ProgramUnit} {initial : Store}
    (h : c.initialStore u = .ok initial) : initial.Wf c.hierarchy :=
  (hc.initialStore_under h).left

theorem has_returnBound {u : ProgramUnit} {bound : Option Qualifier}
    (h : c.returnBound u = .ok bound) : ∀ q, bound = some q → c.hierarchy.Has q := by
  rintro q rfl
  unfold Checker.returnBound at h
  split at h
  · cases h
  · obtain ⟨q', hq', heq⟩ := map_ok h
    cases heq
    unfold resolveDeclared at hq'
    split at hq'
    · cases hq'
      exact Hierarchy.has_of_lookup? ‹_›
    · cases hq'

end Checker.Sound

/-- Every qualifier that an analysis found is one of the hierarchy. -/
structure AnalyzedUnit.Bounded (h : Hierarchy) (a : AnalyzedUnit) : Prop where
  facts : a.fixpoint.All (TransferResult.Wf h)
  values : a.values.Bounded h a.graph.nodeCount

/-- The analysis of a graph accesses no table out of range. -/
theorem Checker.Sound.delivers_analyzeGraph {c : Checker} (hc : c.Sound)
    (hh : c.hierarchy.Closed) (s : AnalysisSettings) (u : ProgramUnit) {g : FlowGraph}
    (hg : g.Closed) :
    Delivers (Checked.analyzeGraph c s u g) (c.analyzeGraph s u g) fun a =>
      a.graph = g ∧ a.Bounded c.hierarchy := by
  apply (Delivers.ofExcept fun s hs => hc.initialStore_wf hs).bind
  intro initial hinitial
  apply (Delivers.ofExcept fun b hb => has_returnBound hb).bind
  intro bound hbound
  apply (UnitAnalysis.gives_new hc hh hg hinitial).access
  intro hanalysis
  apply (hanalysis.covers.delivers_solve hg _ s.recordHistory
    (UnitAnalysis.Closed.noValues _)).bind
  rintro ⟨fixpoint, solved⟩ ⟨hfacts, hsolved⟩
  have hconclude {values : NodeValues} (hV : values.Bounded c.hierarchy g.nodeCount) :
      Delivers
        (Checked.checkGraph c values g bound s.checkUnreachable >>= fun diagnostics =>
          pure (⟨u.name, g, fixpoint, values, diagnostics⟩ : AnalyzedUnit))
        (c.checkGraph g values bound s.checkUnreachable >>= fun diagnostics =>
          pure (⟨u.name, g, fixpoint, values, diagnostics⟩ : AnalyzedUnit))
        fun a => a.graph = g ∧ a.Bounded c.hierarchy := by
    apply (hc.delivers_checkGraph hh hV g hbound s.checkUnreachable).bind
    rintro diagnostics -
    exact .ok ⟨rfl, hfacts, hV⟩
  dsimp only
  split
  · exact (hanalysis.delivers_evaluateDetached
      (fun b hb => (hg.unreachable.mp hb).1) hsolved).bind fun _ hV => hconclude hV
  · exact hconclude hsolved

end FlowTyping

/-!
No access of a table is out of range: for all parts of graphs and all units, and for the analysis
of every graph by every declared checker with what is printed of it.
-/

namespace FlowTyping

open Checked

/-- The construction of the body of a unit. -/
def ProgramUnit.construction (u : ProgramUnit) : Build Unit := do
  let first ← Build.newBlock
  Build.link Build.entryId first
  Build.setCurrent first
  Build.inScope (lowerStmts [] u.body)
  Build.closeWith Build.exitId

namespace Checked

def lower (u : ProgramUnit) : Checked GraphError FlowGraph := do
  let (_, b) ← ofExcept (u.construction.run (Build.start u.params))
  finish u.name b

/-- The texts of the nodes of a block. -/
def listing (g : FlowGraph) (block : Block) : Option (List String) :=
  block.nodes.mapM fun id => do
    let n ← g.nodes[id]?
    return n.kind.text

end Checked

theorem Building.start_ranged (params : List Parameter) : (Build.start params).Ranged where
  designated := Nat.le_refl 3
  current := nofun
  homes := by simp [Build.start]
  paths := by simp [Build.start]
  targets d hd t ht := by
    rcases (by simpa [Build.start] using hd) with rfl | rfl | rfl <;> cases ht
  listed d hd id hid := by
    rcases (by simpa [Build.start] using hd) with rfl | rfl | rfl <;> cases hid

namespace ProgramUnit

theorem construction_safe (u : ProgramUnit) :
    Build.Safe u.construction (Build.start u.params) fun _ _ => True := by
  apply (Build.newBlock_safe (Building.start_ranged u.params)).bind
  intro first b₁ hb₁ _ hfirst
  have hentry : Build.entryId < b₁.drafts.size :=
    Nat.lt_of_lt_of_le (by decide) hb₁.designated
  apply (Build.link_safe hb₁ hentry hfirst).bind
  rintro _ b₂ hb₂ h₂ -
  apply (Build.enter_safe hb₂ (Nat.lt_of_lt_of_le hfirst h₂.drafts)).bind
  rintro _ b₃ hb₃ - -
  have hbody : Build.SafeFrom 0 (lowerStmts [] u.body) := lowerStmts_safe (by simp) u.body
  apply (Build.inScope_safe hbody hb₃ (Nat.zero_le _)).bind
  rintro _ b₄ hb₄ - -
  exact Build.closeWith_safe hb₄ (Nat.lt_of_lt_of_le (by decide) hb₄.designated)

theorem delivers_lower (u : ProgramUnit) :
    Delivers (Checked.lower u) u.lower fun _ => True := by
  have hrun : Delivers (ofExcept (u.construction.run (Build.start u.params)))
      (u.construction.run (Build.start u.params)) fun r => r.2.Ranged :=
    .ofExcept fun r hr => (u.construction_safe.after r.1 r.2 hr).1
  apply hrun.bind
  rintro ⟨_, b⟩ hb
  exact hb.delivers_finish u.name

end ProgramUnit

theorem FlowGraph.Accepted.closed {g : FlowGraph} (h : g.Accepted) : g.Closed := by
  cases h with
  | parts h => exact FlowGraph.closed_of_toGraph h
  | lowered h =>
      obtain ⟨b, -, hfinish⟩ := ProgramUnit.run_of_lower h
      exact FlowGraph.closed_of_toGraph hfinish

theorem FlowGraph.Closed.gives_listing {g : FlowGraph} (hg : g.Closed) {block : Block}
    (hblock : block ∈ g.blocks) :
    Gives (Checked.listing g block)
      (block.nodes.map fun id => ((g.node? id).map fun n => n.kind.text).getD "")
      fun _ => True := by
  obtain ⟨i, hi⟩ := Array.mem_iff_getElem?.mp hblock
  refine (Gives.mapM (Q := fun _ => True) fun id hid => ?_).weaken fun _ => trivial
  obtain ⟨n, hn, -⟩ := hg.listed hi id hid
  have hchecked : g.nodes[id]? = some n := hn
  rw [hn, hchecked]
  exact .pure trivial

/-- Whatever is printed of an analysis over a hierarchy is looked up in range. -/
structure AnalyzedUnit.Renders (h : Hierarchy) (a : AnalyzedUnit) : Prop where
  facts : a.fixpoint.All fun r => Checked.resultText h r = some (r.text h)
  values : ∀ {id : NodeId} {q : Qualifier}, a.values.getD id none = some q →
    Checked.name h q = some (h.name q)
  listing : ∀ block ∈ a.graph.blocks, Checked.listing a.graph block =
    some (block.nodes.map fun id => ((a.graph.node? id).map fun n => n.kind.text).getD "")

theorem AnalyzedUnit.Bounded.renders {h : Hierarchy} {a : AnalyzedUnit} (ha : a.Bounded h)
    (hg : a.graph.Closed) : a.Renders h where
  facts := {
    ins := fun hf => (Hierarchy.Closed.gives_resultText (ha.facts.ins hf)).eq
    outs := fun hf => (Hierarchy.Closed.gives_resultText (ha.facts.outs hf)).eq
    edges := fun e he => (Hierarchy.Closed.gives_resultText (ha.facts.edges e he)).eq
    history := fun log hlog v hv =>
      (Hierarchy.Closed.gives_resultText (ha.facts.history log hlog v hv)).eq }
  values hq := (Hierarchy.Closed.gives_name (ha.values.has hq)).eq
  listing _ hblock := (hg.gives_listing hblock).eq

theorem Checker.ofDeclaration_closed {d : CheckerDeclaration} {c : Checker}
    (hc : Checker.ofDeclaration d = .ok c) : c.hierarchy.Closed where
  toLawful := (Checker.ofDeclaration_sound hc).lawful
  toTabled := by
    obtain ⟨names, subtypes, hbuilt⟩ := Checker.ofDeclaration_hierarchy hc
    exact Hierarchy.build_tabled hbuilt

/-- Every qualifier of a declared checker is one of its hierarchy, every id in an accepted graph is
that of a block or a node, and no access is out of range: not in making graphs of any parts, not
in the lowering of a unit, not in an analysis, and not in printing what the analysis found. -/
theorem Checker.ofDeclaration_inBounds {d : CheckerDeclaration} {c : Checker}
    (hc : Checker.ofDeclaration d = .ok c) {g : FlowGraph} (hg : g.Accepted)
    (s : AnalysisSettings) (u : ProgramUnit) :
    c.Sound ∧ c.hierarchy.Closed ∧ g.Closed ∧
    (∀ p : GraphParts, ExceptT.run (Checked.toGraph p) = some p.toGraph) ∧
    Build.InBounds u.construction (Build.start u.params) ∧
    ExceptT.run (Checked.lower u) = some u.lower ∧
    ExceptT.run (Checked.analyzeGraph c s u g) = some (c.analyzeGraph s u g) ∧
    ∀ a, c.analyzeGraph s u g = .ok a → a.Bounded c.hierarchy ∧ a.Renders c.hierarchy := by
  have hsound := Checker.ofDeclaration_sound hc
  have hclosed := Checker.ofDeclaration_closed hc
  have hanalyzed := hsound.delivers_analyzeGraph hclosed s u hg.closed
  refine ⟨hsound, hclosed, hg.closed, fun p => (GraphParts.delivers_toGraph p).eq,
    u.construction_safe.inBounds, u.delivers_lower.eq, hanalyzed.eq, fun a ha => ?_⟩
  obtain ⟨rfl, hbounded⟩ := hanalyzed.holds a ha
  exact ⟨hbounded, hbounded.renders hg.closed⟩

theorem followingUnit_inBounds : ∃ c g a, Checker.ofDeclaration presence = .ok c ∧
    followingUnit.lower = .ok g ∧ c.analyzeGraph .standard followingUnit g = .ok a ∧
    ExceptT.run (Checked.analyzeGraph c .standard followingUnit g) = some (.ok a) ∧
    a.Bounded c.hierarchy ∧ a.Renders c.hierarchy := by
  have hok : ((Checker.ofDeclaration presence).toOption.bind fun c =>
      followingUnit.lower.toOption.bind fun g =>
        (c.analyzeGraph .standard followingUnit g).toOption).isSome = true := by decide +kernel
  obtain ⟨a, h⟩ := Option.isSome_iff_exists.mp hok
  obtain ⟨c, hc, h⟩ := Option.bind_eq_some_iff.mp h
  obtain ⟨g, hg, ha⟩ := Option.bind_eq_some_iff.mp h
  have hc := ok_of_toOption hc
  have hg := ok_of_toOption hg
  have ha := ok_of_toOption ha
  obtain ⟨-, -, -, -, -, -, hrun, hall⟩ :=
    Checker.ofDeclaration_inBounds hc (.lowered hg) .standard followingUnit
  obtain ⟨hbounded, hrenders⟩ := hall a ha
  exact ⟨c, g, a, hc, hg, ha, ha ▸ hrun, hbounded, hrenders⟩

end FlowTyping
