import FlowTyping.Proofs.Values.Places
import FlowTyping.Proofs.Values.Units

/-!
Soundness for local variables: wherever a run along the graph of a unit comes to, the values
of nodes and variables are among those that the qualifiers found for them stand for.
-/

namespace FlowTyping

open Relation

/-- An analysis of a unit over local variables with what it has found, `V` being the
qualifiers that solving left, and a timetable of the graph. -/
structure UnitAnalysis.Finds (u : UnitAnalysis) (vars : List LocalVar) (a : AnalyzedUnit)
    (V : NodeValues) (T : Timetable) : Prop where
  plain : u.Plain vars
  ordered : u.graph.Ordered
  fits : T.Fits u.graph.nodes u.graph.piece?
  entry : T.waits u.graph.entry = []
  graph : a.graph = u.graph
  solved : u.SolvedBy V a.fixpoint.inFact a.fixpoint.outFact
  recorded : ∀ m q, V.getD m none = some q → a.values.getD m none = some q
  flagged : ∀ id node, u.graph.node? id = some node → u.Reached node →
    ∀ var operand source bound, node.kind = .assign (.local var) operand →
    V.getD operand none = some source → u.checker.localBound node var = .ok bound →
    u.checker.hierarchy.isSubtype source bound = false → a.Flags node.id

namespace RunState

variable {Value : Type} {u : UnitAnalysis} {vars : List LocalVar}
  {I : Interpretation u.checker.hierarchy Value} {object : Value} {a : AnalyzedUnit}
  {V : NodeValues} {T : Timetable} {σ σ' : RunState Value} {last : Option NodeId}
  {done : List NodeId} {block : Block} {f now out along : TransferResult} {t : BlockId}

/-- Where a run stands: in a block with a fact `f` before it, after some nodes that take the
fact to the result `now`, which describes the run on the outcome of the last node. The other
nodes take it to the result `out` that goes along the edges. -/
structure Stands (u : UnitAnalysis) (I : Interpretation u.checker.hierarchy Value)
    (object : Value) (a : AnalyzedUnit) (V : NodeValues) (T : Timetable) (σ : RunState Value)
    (last : Option NodeId) (done : List NodeId) (block : Block) (f now out : TransferResult) :
    Prop where
  block? : u.graph.block? σ.block = some block
  nodes : block.nodes = done ++ σ.rest
  fact : a.fixpoint.inFact σ.block = some f
  sofar : u.Repeats V done f now
  repeats : u.Repeats V σ.rest now out
  live : now.Under u.checker.hierarchy now
  after : ∃ o, a.fixpoint.outFact σ.block = some o ∧
    (o = out ∨ o = .regular (out.collapse u.checker.hierarchy))
  onward : ∀ t along, (t, along) ∈ u.edgesOf block.kind f out →
    ∃ f', a.fixpoint.inFact t = some f' ∧ along.Under u.checker.hierarchy f'
  latest : T.Latest u.graph σ.block done last
  fresh : σ.Fresh u object T σ.block done
  describes : now.Describes I (FlowKey.look object σ.env) (last.bind σ.value)

theorem Stands.eq_of_nil (h : σ.Stands u I object a V T last done block f now out)
    (hdone : done = []) : now = f := by
  have hsofar := h.sofar
  rw [hdone] at hsofar
  cases hsofar
  rfl

theorem Stands.eq_of_done (h : σ.Stands u I object a V T last done block f now out)
    (hrest : σ.rest = []) : now = out := by
  have hrepeats := h.repeats
  rw [hrest] at hrepeats
  cases hrepeats
  rfl

/-- The invariant of runs. -/
structure Invariant (u : UnitAnalysis) (vars : List LocalVar)
    (I : Interpretation u.checker.hierarchy Value) (object : Value) (a : AnalyzedUnit)
    (V : NodeValues) (T : Timetable) (σ : RunState Value) : Prop where
  typed : σ.Typed u I vars V
  stands : ∃ last done block f now out,
    σ.Stands u I object a V T last done block f now out

theorem nodesOf_eq {g : FlowGraph} {b : BlockId} (h : g.block? b = some block) :
    g.nodesOf b = block.nodes := by
  rw [FlowGraph.nodesOf, h]
  rfl

/-- A run comes to a block along an edge, with what goes along it. -/
theorem stands_enter (hu : u.Finds vars a V T) (hσ : σ.Typed u I vars V)
    (hedge : ∃ f', a.fixpoint.inFact t = some f' ∧ along.Under u.checker.hierarchy f')
    (hdescribes : along.Describes I (FlowKey.look object σ.env) (last.bind σ.value))
    (hlatest : T.Latest u.graph t [] last)
    (hfresh : (σ.enter u.graph t).Fresh u object T t []) :
    (σ.enter u.graph t).Invariant u vars I object a V T := by
  obtain ⟨f', hf', hunder⟩ := hedge
  obtain ⟨block, out, o, hblock, hrepeats, hafter, ho, honward⟩ := hu.solved.block t f' hf'
  have hrest : (σ.enter u.graph t).rest = block.nodes := nodesOf_eq hblock
  exact ⟨⟨hσ.nodes, hσ.bounds⟩, last, [], block, f', f', out, {
    block? := hblock
    nodes := hrest.symm
    fact := hf'
    sofar := .nil
    repeats := hrest ▸ hrepeats
    live := hu.solved.live t f' hf'
    after := ⟨o, hafter, ho⟩
    onward := honward
    latest := hlatest
    fresh := hfresh
    describes := hdescribes.mono hunder }⟩

theorem Starts.invariant {p : ProgramUnit} (hu : u.Finds p.locals a V T)
    (hinitial : u.initial.Describes I (FlowKey.look object σ.env))
    (h : σ.Starts u.checker I p a) : σ.Invariant u p.locals I object a V T := by
  have hσ : σ = σ.enter u.graph u.graph.entry := by
    obtain ⟨b, rest, env, value⟩ := σ
    have hblock := h.block
    have hrest := h.rest
    rw [hu.graph] at hblock hrest
    cases hblock
    cases hrest
    rfl
  have htyped : σ.Typed u I p.locals V :=
    ⟨fun id v hv => absurd ((h.value id).symm.trans hv) nofun, h.env⟩
  rw [hσ]
  exact stands_enter hu htyped hu.solved.entry (hinitial.regular _) (.entry hu.entry)
    (.flat hu.entry)

/-- What goes along the edge to the next block, when no test chooses it. -/
theorem exists_along (u : UnitAnalysis) (f out : TransferResult)
    (h : block.kind.next? = some t) : ∃ along,
    (t, along) ∈ u.edgesOf block.kind f out ∧ t ∈ block.kind.onward ∧
      (along = out ∨ (∃ kind, block.kind = .special kind (some t)) ∧
        along = .regular (f.collapse u.checker.hierarchy)) := by
  cases hkind : block.kind with
  | regular successor =>
      rw [hkind] at h
      cases h
      exact ⟨out, List.mem_cons_self, List.mem_cons_self, .inl rfl⟩
  | exceptional successor handlers =>
      rw [hkind] at h
      obtain rfl : successor = some t := h
      exact ⟨out, List.mem_append_left _ List.mem_cons_self, List.mem_cons_self, .inl rfl⟩
  | special kind successor =>
      rw [hkind] at h
      obtain rfl : successor = some t := h
      exact ⟨_, List.mem_cons_self, List.mem_cons_self, .inr ⟨⟨kind, rfl⟩, rfl⟩⟩
  | conditional condition thenSuccessor elseSuccessor =>
      rw [hkind] at h
      cases h

/-- An evaluated node keeps the invariant. -/
theorem Stands.evaluate (hu : u.Finds vars a V T) (hσ : σ.Typed u I vars V)
    (hst : σ.Stands u I object a V T last done block f now out) {id : NodeId}
    {rest : List NodeId} {node : Node} {w : Option Value} (hrest : σ.rest = id :: rest)
    (hnode : u.graph.node? id = some node) (hw : σ.Computes u.checker I object a node w) :
    (σ.record node rest w).Invariant u vars I object a V T := by
  have hp := hu.plain
  have hid : node.id = id := hp.valid.node hnode
  have hnodes : block.nodes = done ++ id :: rest := hrest ▸ hst.nodes
  have hrepeats := hst.repeats
  rw [hrest] at hrepeats
  cases hrepeats with
  | @cons _ _ node' p q _ next _ hnode' htransfer hrecorded hle honward =>
      cases hnode.symm.trans hnode'
      have hreached : u.Reached node := by
        obtain ⟨n, hn, hhome⟩ := hp.valid.listed hst.block? id (by simp [hnodes])
        cases hnode.symm.trans hn
        exact show ReflTransGen _ _ node.block from hhome ▸ hu.solved.reached _ f hst.fact
      have hready : σ.Ready u object a V node := {
        has := hu.solved.has
        recorded := hu.recorded
        flagged := hu.flagged id node hnode hreached
        fresh := hst.fresh.operands hu.fits hst.block? hnodes hnode }
      have hnegates (m : NodeId) (hkind : node.kind = .unary .not m) :
          last.bind σ.value = σ.value m := by
        have hnext : id = m + 1 := (hp.nodes id node hnode).negation m hkind
        rw [hst.latest.negated hu.fits hu.ordered hst.block? hnodes hnode hkind hnext]
        rfl
      obtain ⟨hfits, hdescribes⟩ :=
        hw.transfer hp hnode hσ hready hst.describes hst.live.left hnegates htransfer
      have hlive := (UnitAnalysis.transferNode_mono hp.sound hu.solved.has hst.live htransfer
        htransfer).2
      have hvalue : (σ.record node rest w).value id = w := by
        change Function.update σ.value node.id w id = w
        rw [hid, Function.update_self]
      refine ⟨⟨fun m v hv => ?_, hw.bounds hp hnode hσ hready htransfer⟩, some id, done ++ [id],
        block, f, next, out, ?_⟩
      · by_cases hm : m = id
        · subst hm
          exact ⟨q, hrecorded, I.mono hle (hfits v (hvalue.symm.trans hv))⟩
        · refine hσ.nodes m v ?_
          rw [← hv]
          exact (Function.update_of_ne (fun heq => hm (heq.trans hid)) _ _).symm
      · exact {
          block? := hst.block?
          nodes := by simpa [RunState.record] using hnodes
          fact := hst.fact
          sofar := hst.sofar.snoc hnode htransfer hrecorded hle
          repeats := honward
          live := hlive
          after := hst.after
          onward := hst.onward
          latest := .evaluate hp.valid hst.block? hnodes
          fresh := hst.fresh.evaluate hp hu.fits hst.block? hnodes hnode hw
          describes := by
            rw [Option.bind_some, hvalue]
            exact hdescribes }

/-- Something is raised in place of the only node of the block. -/
theorem Stands.raise (hu : u.Finds vars a V T) (hσ : σ.Typed u I vars V)
    (hst : σ.Stands u I object a V T last done block f now out) {successor : Option BlockId}
    {handlers : List (String × BlockId)} {handler : String × BlockId}
    (hkind : block.kind = .exceptional successor handlers) (hrest : σ.rest = block.nodes)
    (hhandler : handler ∈ handlers) :
    (σ.enter u.graph handler.2).Invariant u vars I object a V T := by
  have hdone : done = [] := by simpa [hrest] using hst.nodes
  obtain rfl := hst.eq_of_nil hdone
  have halong : (handler.2, .regular (now.collapse u.checker.hierarchy)) ∈
      u.edgesOf block.kind now out := by
    rw [hkind]
    exact List.mem_append_right _ (List.mem_map.mpr ⟨handler, hhandler, rfl⟩)
  have hraised : handler.2 ∈ block.kind.raised := by
    rw [hkind]
    exact List.mem_map.mpr ⟨handler, hhandler, rfl⟩
  have hcollapsed := hst.describes.collapse hu.plain.sound.lawful hst.live.left
  exact stands_enter hu hσ (hst.onward _ _ halong) (hcollapsed.regular _)
    (.raised hu.fits hst.block? hraised)
    (.flat (hu.fits.raised (Timetable.piece?_of_block? hst.block?) _ hraised))

/-- A block is done and control goes on, with the node that was evaluated last. -/
theorem Stands.leave (hu : u.Finds vars a V T) (hσ : σ.Typed u I vars V)
    (hst : σ.Stands u I object a V T last done block f now out) (hrest : σ.rest = [])
    (ht : t ∈ block.kind.onward) (halong : (t, along) ∈ u.edgesOf block.kind f out)
    (hdescribes : along.Describes I (FlowKey.look object σ.env) (last.bind σ.value)) :
    (σ.enter u.graph t).Invariant u vars I object a V T := by
  have hdone : block.nodes = done := by simpa [hrest] using hst.nodes
  exact stands_enter hu hσ (hst.onward t along halong) hdescribes
    (Timetable.Latest.onward hu.fits hu.plain.valid hu.ordered (hdone ▸ hst.latest) hst.block? ht)
    (Fresh.onward hu.fits (hdone ▸ hst.fresh) hst.block? ht u.graph)

theorem Stands.follow (hu : u.Finds vars a V T) (hσ : σ.Typed u I vars V)
    (hst : σ.Stands u I object a V T last done block f now out) (hrest : σ.rest = [])
    (hnext : block.kind.next? = some t) :
    (σ.enter u.graph t).Invariant u vars I object a V T := by
  have hdone : block.nodes = done := by simpa [hrest] using hst.nodes
  have hend := hst.eq_of_done hrest
  obtain ⟨along, halong, ht, heq⟩ := exists_along u f out hnext
  refine hst.leave hu hσ hrest ht halong ?_
  rcases heq with rfl | ⟨⟨kind, hkind⟩, rfl⟩
  · exact hend ▸ hst.describes
  · obtain rfl := hst.eq_of_nil (hdone ▸ hu.plain.valid.special hst.block? hkind)
    exact (hst.describes.collapse hu.plain.sound.lawful hst.live.left).regular _

/-- A test leads along the edge of its outcome. -/
theorem Stands.branch (hu : u.Finds vars a V T) (hσ : σ.Typed u I vars V)
    (hst : σ.Stands u I object a V T last done block f now out) {condition t e : Nat} {v : Value}
    (hkind : block.kind = .conditional condition t e) (hv : σ.value condition = some v) :
    (σ.enter u.graph (if I.passes v then t else e)).Invariant u vars I object a V T := by
  have hempty := (hu.plain.valid.tested hst.block? hkind).1
  obtain ⟨hdone, hrest⟩ := List.append_eq_nil_iff.mp (hst.nodes.symm.trans hempty)
  obtain rfl := hst.eq_of_nil hdone
  have houtcome : (now.outcome (I.passes v)).Describes I (FlowKey.look object σ.env) := by
    refine hst.describes _ fun x hx => ?_
    rcases hst.latest.tested block condition t e hst.block? hkind with rfl | rfl
    · cases hx
    · cases hv.symm.trans hx
      rfl
  refine hst.leave hu hσ hrest ?_ ?_ (houtcome.regular _)
  · rw [hkind]
    cases I.passes v with
    | true => exact List.mem_cons_self
    | false => exact List.mem_cons_of_mem _ List.mem_cons_self
  · rw [hkind]
    cases I.passes v with
    | true => exact List.mem_cons_self
    | false => exact List.mem_cons_of_mem _ List.mem_cons_self

/-- Every step keeps the invariant. -/
theorem Invariant.step (hu : u.Finds vars a V T) (hσ : σ.Invariant u vars I object a V T)
    (h : Step u.checker I object a σ σ') : σ'.Invariant u vars I object a V T := by
  obtain ⟨htyped, last, done, block, f, now, out, hst⟩ := hσ
  have hsame {block' : Block} (hblock : a.graph.block? σ.block = some block') : block' = block := by
    rw [hu.graph, hst.block?] at hblock
    exact (Option.some.inj hblock).symm
  cases h with
  | evaluate hrest hnode hw => exact hst.evaluate hu htyped hrest (hu.graph ▸ hnode) hw
  | raise hblock hkind hrest hhandler =>
      obtain rfl := hsame hblock
      exact hu.graph ▸ hst.raise hu htyped hkind hrest hhandler
  | follow hblock hrest hnext =>
      obtain rfl := hsame hblock
      exact hu.graph ▸ hst.follow hu htyped hrest hnext
  | branch hblock hkind hv =>
      obtain rfl := hsame hblock
      exact hu.graph ▸ hst.branch hu htyped hkind hv

/-- The invariant gives what was found for the place where the run stands. -/
theorem Invariant.described {p : ProgramUnit} (hu : u.Finds p.locals a V T)
    (hσ : σ.Invariant u p.locals I object a V T) : σ.Described u I object p a := by
  have hh := hu.plain.sound.lawful
  obtain ⟨htyped, last, done, block, f, now, out, hst⟩ := hσ
  refine ⟨fun id v hv => ?_, htyped.bounds, ?_, fun hrest => ?_⟩
  · obtain ⟨q, hq, hmem⟩ := htyped.nodes id v hv
    exact ⟨q, hu.recorded id q hq, hmem⟩
  · refine ⟨f, done, now, hst.fact, ?_, hst.sofar.runNodes hu.plain.sound hu.recorded [],
      hst.describes.collapse hh hst.live.left, fun m hm => ?_⟩
    · rw [hu.graph, nodesOf_eq hst.block?, hst.nodes]
    · have hne : done ≠ [] := by
        rintro rfl
        cases hm
      have hdescribes := hst.describes
      rw [hst.latest.inside hne, hm] at hdescribes
      exact hdescribes
  · have hdone : block.nodes = done := by simpa [hrest] using hst.nodes
    obtain rfl := hst.eq_of_done hrest
    have hcollapsed := hst.describes.collapse hh hst.live.left
    obtain ⟨o, ho, heq⟩ := hst.after
    refine ⟨o, ho, ?_, fun block' m hblock hm => ?_⟩
    · rcases heq with rfl | rfl
      · exact hcollapsed
      · exact hcollapsed
    · rw [hu.graph, hst.block?] at hblock
      cases hblock
      rcases heq with rfl | rfl
      swap
      · exact hcollapsed.regular _
      -- The block ends with the node that was evaluated last, or nothing is known of a test.
      have hlast : last = none ∨ last = some m := by
        cases hkind : block.kind with
        | conditional condition t e =>
            rw [Block.tested?, hkind] at hm
            cases hm
            exact hst.latest.tested block m t e hst.block? hkind
        | _ =>
            rw [Block.tested?, hkind] at hm
            have hne : done ≠ [] := by
              rintro rfl
              rw [Block.lastNode?, hdone] at hm
              cases hm
            exact .inr ((hst.latest.inside hne).trans (hdone ▸ hm))
      intro outcome houtcome
      refine hst.describes outcome fun v hv => ?_
      rcases hlast with rfl | rfl
      · cases hv
      · exact houtcome v hv

end RunState

theorem SignatureTable.isPure_eq_false (t : SignatureTable)
    (h : ∀ m ∈ t.methods, m.isPure = false) (method : String) : t.isPure method = false := by
  rw [isPure, method?]
  cases hfound : t.methods.find? fun s => s.name = method with
  | none => rfl
  | some m => exact h m (List.mem_of_find?_eq_some hfound)

namespace Checker

variable {Value : Type} {c : Checker} {g : FlowGraph} {u : ProgramUnit} {a : AnalyzedUnit}

/-- An assignment that is checked and breaks the bound of its variable has a diagnostic. -/
theorem flags_of_checkGraph {bound : Option Qualifier} {all : Bool}
    (h : c.checkGraph g a.values bound all = .ok a.diagnostics) {id : NodeId} {node : Node}
    (hnode : g.node? id = some node) (hreachable : g.isReachable node.block = true)
    {var : LocalVar} {operand : NodeId} {source limit : Qualifier}
    (hkind : node.kind = .assign (.local var) operand)
    (hsource : a.values.getD operand none = some source)
    (hlimit : c.localBound node var = .ok limit)
    (hle : c.hierarchy.isSubtype source limit = false) : a.Flags node.id := by
  obtain ⟨found, hfound, heq⟩ := bind_ok.mp h
  have hincluded : node ∈ g.nodes.toList.filter fun node => all || g.isReachable node.block :=
    List.mem_filter.mpr ⟨Array.mem_toList_iff.mpr (Array.mem_of_getElem? hnode),
      by rw [hreachable, Bool.or_true]⟩
  obtain ⟨i, hi⟩ := List.mem_iff_getElem?.mp hincluded
  obtain ⟨diagnostics, hmem, hcheck⟩ := getElem?_of_forall₂ (forall₂_of_mapM hfound) hi
  simp only [checkNode, hkind, hsource, Option.isNone_some, Bool.false_eq_true, if_false] at hcheck
  obtain ⟨limit', hlimit', hrequired⟩ := bind_ok.mp hcheck
  cases hlimit.symm.trans hlimit'
  simp only [require, hsource, hle, Bool.false_eq_true, if_false] at hrequired
  cases hrequired
  rw [AnalyzedUnit.Flags, ← Except.ok.inj heq]
  exact ⟨_, List.mem_flatten.mpr ⟨_, List.mem_of_getElem? hmem, List.mem_singleton_self _⟩, rfl⟩

/-- The store that a unit starts with describes values that its parameters may have. -/
theorem initialStore_describes (hc : c.Sound) {I : Interpretation c.hierarchy Value}
    {look : FlowKey → Option Value} {initial : Store} (h : c.initialStore u = .ok initial)
    (hparams : ∀ p ∈ u.params, ∀ v, look (.local p.name) = some v →
      c.Allows I ⟨p.name, p.qualifier, .parameter⟩ v) : initial.Describes I look := by
  have hall {params : List Parameter} {s s' : Store} (hs : s.Describes I look)
      (hparams : ∀ p ∈ params, ∀ v, look (.local p.name) = some v →
        c.Allows I ⟨p.name, p.qualifier, .parameter⟩ v)
      (h : params.foldlM c.addParameter s = .ok s') : s'.Describes I look := by
    induction params generalizing s with
    | nil =>
        cases h
        exact hs
    | cons p rest ih =>
        obtain ⟨hp, hrest⟩ := List.forall_mem_cons.mp hparams
        rw [List.foldlM_cons] at h
        obtain ⟨next, hnext, h⟩ := bind_ok.mp h
        obtain ⟨q, rfl, hbound⟩ := addParameter_ok hnext
        have hbound := hbound ⟨0, 0, .this⟩
        exact ih (hs.insert (hc.has_localBound hbound) fun v hv => hp v hv _ q hbound) hrest h
  refine hall ?_ hparams h
  exact ⟨Store.wf_new c.hierarchy, rfl, fun _ v _ => I.mem_top v⟩

variable {d : CheckerDeclaration} {s : AnalysisSettings}

/-- What the analysis of a unit over local variables finds describes every run along its
graph, if no method is pure. -/
theorem analyze_describes_runs (hc : ofDeclaration d = .ok c)
    (himpure : ∀ m ∈ c.signatures.methods, m.isPure = false) (hu : u.LocalOnly)
    (ha : c.analyze s u = .ok a) (I : Interpretation c.hierarchy Value) (object : Value)
    {σ σ' : RunState Value} (hstart : σ.Starts c I u a)
    (hrun : ReflTransGen (RunState.Step c I object a) σ σ') :
    ∃ initial, c.initialStore u = .ok initial ∧
      σ'.Described (.new c a.graph initial) I object u a := by
  obtain ⟨initial, solved, h⟩ := analyze_steps hc ha
  obtain ⟨T, hT, hentry⟩ := ProgramUnit.lower_timetable h.lower
  obtain ⟨bound, hchecked⟩ := h.checked
  have hsound := ofDeclaration_sound hc
  have hsolved := h.fit.solvedBy h.steps h.empty
  rw [funext h.before, funext h.after] at hsolved
  have hfinds : (UnitAnalysis.new c a.graph initial).Finds u.locals a solved.state T := {
    plain := {
      sound := hsound
      valid := h.fit.valid
      keys := rfl
      impure := fun method => c.signatures.isPure_eq_false himpure method
      nodes := fun id node hnode => ProgramUnit.lower_over hu h.lower hnode
      distinct := hu.distinct }
    ordered := h.fit.ordered
    fits := hT
    entry := hentry
    graph := rfl
    solved := hsolved
    recorded := fun _ _ => h.recorded
    flagged := fun id node hnode hreached var operand source limit hkind hsource hlimit hle => by
      refine flags_of_checkGraph hchecked hnode ?_ hkind (h.recorded hsource) hlimit hle
      refine decide_eq_true fun hmem => ?_
      exact (h.fit.valid.unreachable.mp hmem).2 hreached }
  have hinitial : initial.Describes I (FlowKey.look object σ.env) := by
    refine initialStore_describes hsound h.store fun p hp v hv => ?_
    exact hstart.env _ (List.mem_append_left _ (List.mem_map_of_mem hp)) v hv
  have hinvariant : σ'.Invariant (.new c a.graph initial) u.locals I object a solved.state T := by
    induction hrun with
    | refl => exact hstart.invariant hfinds hinitial
    | tail _ hstep ih => exact ih.step hfinds hstep
  exact ⟨initial, h.store, hinvariant.described hfinds⟩

end Checker

/-- References that may be null where their qualifier is the top, and that are not null
anywhere else. -/
def Interpretation.references {h : Hierarchy} (hh : h.Lawful) :
    Interpretation h (Option Nat) where
  values q := {v | q ≠ h.top → v ≠ none}
  passes v := v = some 1
  mono {p q} hle v hv hq := by
    refine hv fun hp => hq ?_
    subst hp
    exact hh.le_antisymm (hh.le_top (hh.has_of_le hle).2) hle
  top := Set.eq_univ_of_forall fun _ h => absurd rfl h
  meet {p q} hp hq v hv hne := by
    by_cases htop : p = h.top
    · refine hv.2 fun hq' => hne ?_
      rw [htop, hq', hh.top_meet hh.has_top]
    · exact hv.1 htop

/-- A unit that keeps what a test has found. -/
def guardedUnit : ProgramUnit where
  name := "guarded"
  params := [⟨"x", none⟩]
  returnQualifier := none
  body := [.ifElse (.call none "isPresent" [.var "x"] [])
    [.localDecl "y" (some "Present") (some (.var "x"))] none]

/-- A run over the guarded assignment, with a reference for `x` that is not null. -/
theorem guardedUnit_described : ∃ (c : Checker) (a : AnalyzedUnit)
    (I : Interpretation c.hierarchy (Option Nat)) (σ σ' : RunState (Option Nat)),
    Checker.ofDeclaration presence = .ok c ∧ c.analyze .standard guardedUnit = .ok a ∧
    σ.Starts c I guardedUnit a ∧ ReflTransGen (RunState.Step c I none a) σ σ' ∧
    σ'.env "y" = some (some 1) ∧ ∃ initial, c.initialStore guardedUnit = .ok initial ∧
      σ'.Described (.new c a.graph initial) I none guardedUnit a := by
  have hok : ((Checker.ofDeclaration presence).toOption.bind fun c =>
      if c.signatures.methods.all (fun m => !m.isPure) then
        (c.analyze .standard guardedUnit).toOption else none).isSome = true := by decide +kernel
  obtain ⟨a, h⟩ := Option.isSome_iff_exists.mp hok
  obtain ⟨c, hc, ha⟩ := Option.bind_eq_some_iff.mp h
  obtain ⟨himpure, ha⟩ := Option.ite_none_right_eq_some.mp ha
  have hc := ok_of_toOption hc
  have ha := ok_of_toOption ha
  have himpure : ∀ m ∈ c.signatures.methods, m.isPure = false := by simpa using himpure
  let I := Interpretation.references (Checker.ofDeclaration_sound hc).lawful
  obtain ⟨g, hlower, hanalyzed⟩ := bind_ok.mp ha
  obtain ⟨hgraph, -⟩ := Checker.analyzeGraph_ok (Hierarchy.mapError_ok hanalyzed)
  have hparts : (guardedUnit.lower.toOption.map fun g => (g.entry, g.blocks, g.nodes)) =
      some (0,
        #[⟨0, [], .special .entry (some 3)⟩, ⟨1, [], .special .exit none⟩,
          ⟨2, [], .special .exceptionalExit none⟩, ⟨3, [0], .regular 5⟩,
          ⟨4, [2, 3, 4], .regular 1⟩, ⟨5, [1], .exceptional (some 6) [("RuntimeException", 2)]⟩,
          ⟨6, [], .conditional 1 4 1⟩],
        #[⟨0, 3, .localRead ⟨"x", none, .parameter⟩⟩, ⟨1, 5, .call none "isPresent" [0]⟩,
          ⟨2, 4, .localRead ⟨"x", none, .parameter⟩⟩,
          ⟨3, 4, .localDecl ⟨"y", some "Present", .local⟩⟩,
          ⟨4, 4, .assign (.local ⟨"y", some "Present", .local⟩) 2⟩]) := by
    decide +kernel
  rw [Hierarchy.mapError_ok hlower, ← hgraph] at hparts
  simp only [Except.toOption, Option.map_some, Option.some.injEq, Prod.mk.injEq] at hparts
  obtain ⟨hentry, hblocks, hnodes⟩ := hparts
  have hblock {i : Nat} {b : Block} (hb : a.graph.blocks[i]? = some b) :
      a.graph.block? i = some b := hb
  have hnode {i : Nat} {n : Node} (hn : a.graph.nodes[i]? = some n) :
      a.graph.node? i = some n := hn
  have hb₀ := hblock (i := 0) (by rw [hblocks]; rfl)
  have hb₃ := hblock (i := 3) (by rw [hblocks]; rfl)
  have hb₄ := hblock (i := 4) (by rw [hblocks]; rfl)
  have hb₅ := hblock (i := 5) (by rw [hblocks]; rfl)
  have hb₆ := hblock (i := 6) (by rw [hblocks]; rfl)
  have hn₀ := hnode (i := 0) (by rw [hnodes]; rfl)
  have hn₁ := hnode (i := 1) (by rw [hnodes]; rfl)
  have hn₂ := hnode (i := 2) (by rw [hnodes]; rfl)
  have hn₃ := hnode (i := 3) (by rw [hnodes]; rfl)
  have hn₄ := hnode (i := 4) (by rw [hnodes]; rfl)
  have hfits (q : Qualifier) : some 1 ∈ I.values q := fun _ => Option.some_ne_none 1
  let σ₀ : RunState (Option Nat) :=
    ⟨0, [], fun name => if name = "x" then some (some 1) else none, fun _ => none⟩
  let σ₁ := σ₀.enter a.graph 3
  have h₁ : RunState.Step c I none a σ₀ σ₁ := .follow hb₀ rfl rfl
  let σ₂ := σ₁.record ⟨0, 3, .localRead ⟨"x", none, .parameter⟩⟩ [] (some (some 1))
  have h₂ : RunState.Step c I none a σ₁ σ₂ :=
    .evaluate (RunState.nodesOf_eq hb₃) hn₀ (.localRead rfl rfl)
  let σ₃ := σ₂.enter a.graph 5
  have h₃ : RunState.Step c I none a σ₂ σ₃ := .follow hb₃ rfl rfl
  have hmeets (target : PostconditionTarget) (q : Qualifier) :
      σ₃.Meets I none [0] target q := by
    intro m _ x hx
    obtain rfl | hm := eq_or_ne m 0
    · cases hx
      exact hfits q
    · exact absurd ((Function.update_of_ne hm _ _).symm.trans hx) nofun
  let σ₄ := σ₃.record ⟨1, 5, .call none "isPresent" [0]⟩ [] (some (some 1))
  have h₄ : RunState.Step c I none a σ₃ σ₄ :=
    .evaluate (RunState.nodesOf_eq hb₅) hn₁ (.call rfl (hfits _)
      (fun _ _ p _ => hmeets p.target p.qualifier) fun _ _ p _ _ => hmeets p.target p.qualifier)
  let σ₅ := σ₄.enter a.graph 6
  have h₅ : RunState.Step c I none a σ₄ σ₅ := .follow hb₅ rfl rfl
  let σ₆ := σ₅.enter a.graph 4
  have h₆ : RunState.Step c I none a σ₅ σ₆ := .branch (v := some 1) hb₆ rfl rfl
  let σ₇ := σ₆.record ⟨2, 4, .localRead ⟨"x", none, .parameter⟩⟩ [3, 4] (some (some 1))
  have h₇ : RunState.Step c I none a σ₆ σ₇ :=
    .evaluate (RunState.nodesOf_eq hb₄) hn₂ (.localRead rfl rfl)
  let σ₈ := σ₇.record ⟨3, 4, .localDecl ⟨"y", some "Present", .local⟩⟩ [4] none
  have h₈ : RunState.Step c I none a σ₇ σ₈ := .evaluate rfl hn₃ (.localDecl rfl nofun)
  let σ₉ := σ₈.record ⟨4, 4, .assign (.local ⟨"y", some "Present", .local⟩) 2⟩ [] (some (some 1))
  have h₉ : RunState.Step c I none a σ₈ σ₉ :=
    .evaluate rfl hn₄ (.assign rfl rfl fun _ var _ node q _ => hfits q)
  have hrun : ReflTransGen (RunState.Step c I none a) σ₀ σ₉ :=
    ((((((((ReflTransGen.refl.tail h₁).tail h₂).tail h₃).tail h₄).tail h₅).tail h₆).tail
      h₇).tail h₈).tail h₉
  have hstart : σ₀.Starts c I guardedUnit a := by
    refine ⟨hentry.symm, ?_, fun _ => rfl, fun var _ v hv node q _ => ?_⟩
    · rw [hentry]
      exact (RunState.nodesOf_eq hb₀).symm
    · obtain ⟨-, hv⟩ := Option.ite_none_right_eq_some.mp hv
      exact Option.some.inj hv ▸ hfits q
  exact ⟨c, a, I, σ₀, σ₉, hc, ha, hstart, hrun, rfl, Checker.analyze_describes_runs hc himpure
    (by decide) ha I none hstart hrun⟩

end FlowTyping
