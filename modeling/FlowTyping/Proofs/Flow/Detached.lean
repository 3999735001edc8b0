import FlowTyping.Proofs.Flow.Reached
import FlowTyping.Proofs.Renaming.Units

/-!
The evaluation of blocks that nothing reaches adds to an analysis and takes nothing back: nodes
that can be reached read such nodes only, so neither their qualifiers nor their diagnostics
depend on the others.
-/

namespace FlowTyping

/-- A check of some of the items finds the part of all findings that is theirs. -/
theorem mapM_filter {α β ε : Type} {f k : α → Except ε (List β)} {p : α → Bool} {q : β → Bool}
    {l : List α} {found : List (List β)} (hsame : ∀ x ∈ l, p x = true → k x = f x)
    (howner : ∀ x ∈ l, ∀ ds, f x = .ok ds → ∀ d ∈ ds, q d = p x) (h : l.mapM f = .ok found) :
    ∃ kept, (l.filter p).mapM k = .ok kept ∧ kept.flatten = found.flatten.filter q := by
  induction l generalizing found with
  | nil =>
      cases h
      exact ⟨[], rfl, rfl⟩
  | cons x rest ih =>
      rw [List.mapM_cons] at h
      obtain ⟨ds, hds, h⟩ := bind_ok.mp h
      obtain ⟨others, hothers, h⟩ := bind_ok.mp h
      cases h
      obtain ⟨hfirst, hsame⟩ := List.forall_mem_cons.mp hsame
      obtain ⟨howns, howner⟩ := List.forall_mem_cons.mp howner
      obtain ⟨kept, hkept, hflatten⟩ := ih hsame howner hothers
      rw [List.flatten_cons, List.filter_append, ← hflatten]
      cases hp : p x with
      | true =>
          refine ⟨ds :: kept, ?_, ?_⟩
          · rw [List.filter_cons_of_pos hp, List.mapM_cons, hfirst hp, hds, hkept]
            rfl
          · rw [List.flatten_cons, List.filter_eq_self.mpr fun d hd => (howns ds hds d hd).trans hp]
      | false =>
          refine ⟨kept, ?_, ?_⟩
          · rw [List.filter_cons_of_neg (by simp [hp])]
            exact hkept
          · rw [List.filter_eq_nil_iff.mpr fun d hd => by simp [howns ds hds d hd, hp],
              List.nil_append]

namespace Checker

variable {c : Checker} {g : FlowGraph} {V W : NodeValues} {node : Node}
  {bound : Option Qualifier}

theorem require_congr {kind : DiagnosticKind} {operand : NodeId} {bound : Qualifier}
    {subject : String} (h : W.getD operand none = V.getD operand none) :
    c.require W node kind operand bound subject = c.require V node kind operand bound subject := by
  rw [require, require, h]

theorem checkArguments_congr {method : String} {params : List (Option Qualifier)}
    {args : List NodeId} (h : ∀ o ∈ args, W.getD o none = V.getD o none) :
    c.checkArguments W node method params args = c.checkArguments V node method params args := by
  unfold checkArguments
  refine congrArg List.flatten (List.map_congr_left ?_)
  rintro ⟨⟨param, arg⟩, index⟩ hmem
  have harg : arg ∈ args := (List.of_mem_zip (List.fst_mem_of_mem_zipIdx hmem)).2
  cases param with
  | none => rfl
  | some bound => exact require_congr (h arg harg)

/-- The check of a node reads the qualifiers of its operands. -/
theorem checkNode_congr (h : ∀ o ∈ node.kind.operands, W.getD o none = V.getD o none) :
    c.checkNode W bound node = c.checkNode V bound node := by
  obtain ⟨id, block, kind⟩ := node
  cases kind with
  | assign target source =>
      cases target with
      | «local» var =>
          have hsource : W.getD source none = V.getD source none :=
            h source (by simp [NodeKind.operands])
          unfold checkNode
          dsimp only
          rw [hsource]
          simp only [require_congr hsource]
      | field receiver field =>
          exact congrArg Except.ok (require_congr (h source (by simp [NodeKind.operands])))
  | call receiver method args =>
      have hargs : ∀ o ∈ args, W.getD o none = V.getD o none :=
        fun o ho => h o (by simp [NodeKind.operands, ho])
      unfold checkNode
      dsimp only
      cases c.signatures.method? method with
      | none => rfl
      | some signature =>
          dsimp only
          rw [checkArguments_congr hargs]
          cases signature.receiver with
          | none => rfl
          | some bound =>
              cases receiver with
              | none => rfl
              | some id =>
                  have hreceiver : W.getD id none = V.getD id none :=
                    h id (by simp [NodeKind.operands])
                  dsimp only
                  rw [require_congr hreceiver]
  | returnValue value =>
      cases value with
      | none => rfl
      | some id =>
          have hvalue : W.getD id none = V.getD id none := h id (by simp [NodeKind.operands])
          unfold checkNode
          dsimp only
          simp only [require_congr hvalue]
  | cast qualifier id =>
      have hvalue : W.getD id none = V.getD id none := h id (by simp [NodeKind.operands])
      unfold checkNode
      dsimp only
      simp only [require_congr hvalue]
  | _ => rfl

end Checker

/-- The diagnostic is about a node that can be reached. -/
def FlowGraph.isLive (g : FlowGraph) (d : Diagnostic) : Bool :=
  (g.node? d.node).any fun node => g.isReachable node.block

namespace Checker

variable {c : Checker} {g : FlowGraph} {V W : NodeValues} {node : Node}
  {bound : Option Qualifier}

/-- Of the diagnostics of all nodes, the check of those that can be reached finds those that
are about them, if it knows the same of their operands. -/
theorem checkGraph_live (hg : g.Valid) {found : List Diagnostic}
    (hsame : ∀ j node, g.node? j = some node → g.isReachable node.block = true →
      ∀ o ∈ node.kind.operands, W.getD o none = V.getD o none)
    (h : c.checkGraph g V bound true = .ok found) :
    c.checkGraph g W bound false = .ok (found.filter g.isLive) := by
  have hmem : ∀ node ∈ g.nodes.toList, g.node? node.id = some node := by
    intro node hnode
    obtain ⟨k, hk⟩ := Array.getElem?_of_mem (Array.mem_toList_iff.mp hnode)
    have hk : g.node? k = some node := hk
    exact hg.node hk ▸ hk
  obtain ⟨all, hall, heq⟩ := bind_ok.mp h
  cases heq
  have hincluded : (g.nodes.toList.filter fun node => true || g.isReachable node.block) =
      g.nodes.toList := List.filter_eq_self.mpr fun _ _ => rfl
  rw [hincluded] at hall
  obtain ⟨kept, hkept, hflatten⟩ := mapM_filter (k := c.checkNode W bound)
    (p := fun node => g.isReachable node.block) (q := g.isLive)
    (fun node hnode hreachable => checkNode_congr (hsame _ node (hmem node hnode) hreachable))
    (fun node hnode ds hds d hd => by
      rw [FlowGraph.isLive, c.node_of_checkNode hds hd, hmem node hnode]
      rfl) hall
  refine bind_ok.mpr ⟨kept, ?_, congrArg Except.ok hflatten⟩
  simpa only [Bool.false_or] using hkept

/-- Without the blocks that nothing reaches an analysis succeeds as well. It visits the same
blocks and finds the same facts and, of qualifiers and diagnostics, those at nodes that can be
reached. -/
theorem analyzeGraph_live {s : AnalysisSettings} {u : ProgramUnit} {a : AnalyzedUnit}
    (hg : g.Accepted) (hs : s.checkUnreachable = true) (h : c.analyzeGraph s u g = .ok a) :
    ∃ a', c.analyzeGraph { s with checkUnreachable := false } u g = .ok a' ∧
      a'.name = a.name ∧ a'.graph = a.graph ∧ a'.fixpoint = a.fixpoint ∧
      (∀ j node, g.node? j = some node → g.Reaches node.block →
        a'.values.getD j none = a.values.getD j none) ∧
      a'.diagnostics = a.diagnostics.filter g.isLive := by
  obtain ⟨initial, hinitial, h⟩ := bind_ok.mp h
  obtain ⟨bound, hbound, h⟩ := bind_ok.mp h
  obtain ⟨⟨fixpoint, solved⟩, hsolve, h⟩ := bind_ok.mp h
  dsimp only at h
  rw [if_pos hs] at h
  obtain ⟨values, hvalues, h⟩ := bind_ok.mp h
  obtain ⟨found, hfound, heq⟩ := bind_ok.mp h
  cases heq
  have hsolved := UnitAnalysis.solve_solved hg.valid hsolve
  have hkept (j : NodeId) (node : Node) (hnode : g.node? j = some node)
      (hreached : g.Reaches node.block) : solved.getD j none = values.getD j none :=
    (UnitAnalysis.evaluateDetached_reached hg.valid hvalues hnode hreached).symm
  -- What such a node reads has a qualifier once its block is solved, so it is one of them.
  have hoperands (j : NodeId) (node : Node) (hnode : g.node? j = some node)
      (hreachable : g.isReachable node.block = true) (o : NodeId)
      (ho : o ∈ node.kind.operands) : solved.getD o none = values.getD o none := by
    have hhome := hg.homed hnode
    have hlt : node.block < g.size := by
      obtain ⟨block, hblock, -⟩ := hhome
      exact (Array.getElem?_eq_some_iff.mp hblock).1
    have hreached := (hg.valid.isReachable_iff hlt).mp hreachable
    obtain ⟨source, hsource, hreached'⟩ :=
      hsolved.homes o (hsolved.supplied _ hreached j hhome node hnode o ho)
    exact hkept o source hsource hreached'
  rw [hs] at hfound
  have hlive := checkGraph_live hg.valid hoperands hfound
  refine ⟨⟨u.name, g, fixpoint, solved, found.filter g.isLive⟩, ?_, rfl, rfl, rfl, hkept, rfl⟩
  exact bind_ok.mpr ⟨initial, hinitial, bind_ok.mpr ⟨bound, hbound,
    bind_ok.mpr ⟨(fixpoint, solved), hsolve, bind_ok.mpr ⟨solved, rfl,
      bind_ok.mpr ⟨_, hlive, rfl⟩⟩⟩⟩⟩

end Checker

/-- A unit that returns what may be null, and would follow it after that. -/
def followedUnit : ProgramUnit where
  name := "followed"
  params := [⟨"node", none⟩]
  returnQualifier := some "Present"
  body := [.returnValue (some (.var "node")), .expr (.call none "next" [.var "node"] [])]

theorem followedUnit_live : ∃ c g a a', Checker.ofDeclaration presence = .ok c ∧
    followedUnit.lower = .ok g ∧ c.analyzeGraph ⟨none, false, true⟩ followedUnit g = .ok a ∧
    c.analyzeGraph ⟨none, false, false⟩ followedUnit g = .ok a' ∧ a'.fixpoint = a.fixpoint ∧
    a.diagnostics.map Diagnostic.kind = [.returned, .argument] ∧
    a'.diagnostics = a.diagnostics.filter g.isLive := by
  have hok : ((Checker.ofDeclaration presence).toOption.bind fun c =>
      followedUnit.lower.toOption.bind fun g =>
        (c.analyzeGraph ⟨none, false, true⟩ followedUnit g).toOption.bind fun a =>
          if a.diagnostics.map Diagnostic.kind = [.returned, .argument] then some () else
            none).isSome = true := by decide +kernel
  obtain ⟨_, h⟩ := Option.isSome_iff_exists.mp hok
  obtain ⟨c, hc, h⟩ := Option.bind_eq_some_iff.mp h
  obtain ⟨g, hg, h⟩ := Option.bind_eq_some_iff.mp h
  obtain ⟨a, ha, h⟩ := Option.bind_eq_some_iff.mp h
  obtain ⟨hkinds, -⟩ := Option.ite_none_right_eq_some.mp h
  have hg := ok_of_toOption hg
  have ha := ok_of_toOption ha
  obtain ⟨a', ha', -, -, hfixpoint, -, hdiagnostics⟩ :=
    Checker.analyzeGraph_live (.lowered hg) rfl ha
  exact ⟨c, g, a, a', ok_of_toOption hc, hg, ha, ha', hfixpoint, hkinds, hdiagnostics⟩

end FlowTyping
