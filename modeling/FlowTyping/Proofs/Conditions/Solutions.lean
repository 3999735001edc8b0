import FlowTyping.Proofs.Conditions.Results

/-!
What a solver finds and labels of blocks. The results before the blocks label the blocks of the
construction that led to them, and what labels these blocks contains what the solver finds.
-/

namespace FlowTyping

open Build Building Compaction Layout Relation

section

variable {Fact σ : Type} {a : DataflowAnalysis Fact σ} {g : FlowGraph} {Fine : Fact → Prop}
  {le : Fact → Fact → Prop} {leState : σ → σ → Prop} {ranks : Array Nat} {s s' : Solving Fact σ}
  {cap : BlockId → Option Fact} {bound : σ}

/-- Facts before blocks and a state that transfers do not leave: what a transfer sends along an
edge is at or below the fact at its target. -/
structure DataflowAnalysis.Contains (a : DataflowAnalysis Fact σ) (g : FlowGraph)
    (le : Fact → Fact → Prop) (cap : BlockId → Option Fact) (bound : σ) : Prop where
  entry : ∃ f, cap g.entry = some f ∧ le a.initial f
  transfer : ∀ b f, cap b = some f → ∃ r, a.transfer bound b f = .ok (r, bound) ∧
    ∀ e ∈ r.edges, ∃ f', cap e.1 = some f' ∧ le e.2 f'

namespace Solving

/-- The edges and the state of a solver are below facts and a state. -/
structure Contained (le : Fact → Fact → Prop) (leState : σ → σ → Prop)
    (cap : BlockId → Option Fact) (bound : σ) (s : Solving Fact σ) : Prop where
  edge : ∀ p b f, s.table.edge p b = some f → ∃ f', cap b = some f' ∧ le f f'
  state : leState s.state bound
  known : ∀ b, s.Known b → ∃ f, cap b = some f

theorem Contained.input_le (L : a.Lawful g Fine le leState) (hg : g.Valid)
    (hs : s.Sane a g le leState) (hcap : a.Contains g le cap bound)
    (hin : s.Contained le leState cap bound) {b : BlockId} {f : Fact} (hb : s.Known b)
    (hf : cap b = some f) : le (s.table.input a g b) f := by
  refine L.joinAll_le (hs.arriving L hg hb).1 fun f' hf' => ?_
  have hedge : ∀ f' ∈ (g.predecessorsOf b).filterMap fun p => s.table.edge p b, le f' f := by
    intro f' hf'
    obtain ⟨p, -, hp⟩ := List.mem_filterMap.mp hf'
    obtain ⟨f'', hf'', hle⟩ := hin.edge p b f' hp
    cases hf.symm.trans hf''
    exact hle
  unfold DataflowAnalysis.arriving at hf'
  dsimp only at hf'
  split at hf'
  · rename_i hentry
    rcases List.mem_cons.mp hf' with rfl | hf'
    · obtain ⟨f'', hf'', hle⟩ := hcap.entry
      cases (hentry ▸ hf).symm.trans hf''
      exact hle
    · exact hedge f' hf'
  · exact hedge f' hf'

theorem step_contained (L : a.Lawful g Fine le leState) (hg : g.Valid)
    (hs : s.Sane a g le leState) (hcap : a.Contains g le cap bound)
    (hin : s.Contained le leState cap bound) (h : Step a g ranks s s') :
    s'.Contained le leState cap bound := by
  obtain ⟨block, hblock, hvisit⟩ := h
  obtain ⟨r, st, htransfer, hv⟩ := visit_ok hvisit
  obtain ⟨f, hf⟩ := hin.known block (.inl hblock)
  have hinput := hin.input_le L hg hs hcap (.inl hblock) hf
  obtain ⟨r', htransfer', hedges⟩ := hcap.transfer block f hf
  obtain ⟨hstate, -, hsent⟩ := L.transfer hin.state hinput htransfer htransfer'
  have hsent {e : BlockId × Fact} (he : e ∈ r.edges) : ∃ f', cap e.1 = some f' ∧ le e.2 f' := by
    obtain ⟨e', he', htarget, hle⟩ := hsent e he
    obtain ⟨f', hf', hle'⟩ := hedges e' he'
    exact ⟨f', htarget ▸ hf', L.trans hle hle'⟩
  refine ⟨fun p b f' hf' => ?_, hv.state ▸ hstate, fun b hb => ?_⟩
  · by_cases hsame : s'.table.edge p b = s.table.edge p b
    · exact hin.edge p b f' (hsame ▸ hf')
    obtain ⟨rfl, e, he⟩ := hv.sent_of_changed hsame
    obtain ⟨top, htop, -⟩ := hsent he
    rw [hv.edge_self] at hf'
    refine ⟨top, htop, L.merge_le (fun o ho => ?_) (fun e' he' => ?_) hf'⟩
    · obtain ⟨top', htop', hle⟩ := hin.edge p b o ho
      cases htop.symm.trans htop'
      exact hle
    · obtain ⟨top', htop', hle⟩ := hsent (BlockTransfer.mem_sentTo.mp he')
      cases htop.symm.trans htop'
      exact hle
  · rcases hv.known b hb with hb | rfl | ⟨e, he, rfl⟩
    · exact hin.known b (hb.imp_left List.mem_of_mem_erase)
    · exact ⟨f, hf⟩
    · obtain ⟨f', hf', -⟩ := hsent he
      exact ⟨f', hf'⟩

theorem steps_contained (L : a.Lawful g Fine le leState) (hg : g.Valid)
    (hcap : a.Contains g le cap bound) {st : σ} (hst : leState st bound)
    (h : ReflTransGen (Step a g ranks) (start g st) s) : s.Contained le leState cap bound := by
  have hsane : (start g st : Solving Fact σ).Sane a g le leState := start_sane (L.state_refl hst)
  induction h with
  | refl =>
      refine ⟨nofun, hst, fun b hb => ?_⟩
      obtain ⟨f, hf, -⟩ := hcap.entry
      exact ⟨f, known_start hb ▸ hf⟩
  | tail hsteps hstep ih => exact step_contained L hg (steps_sane L hg hsane hsteps) hcap ih hstep

end Solving

end

namespace Exits

variable {h : Hierarchy} {hh : h.Lawful}

/-- The facts that leave through an exit, given those before and after the nodes of the block. -/
def facts (before after : LiveResult hh) : Exits → List (BlockId × LiveResult hh)
  | openEnd => []
  | goto target => [(target, after)]
  | branch _ thenSuccessor elseSuccessor =>
      [(thenSuccessor, before.thenOnly), (elseSuccessor, before.elseOnly)]
  | raise successor handlers _ =>
      successor.toList.map (·, after) ++ handlers.map fun h => (h.2, before.collapsed)
  | special _ successor => successor.toList.map (·, before.collapsed)

theorem edgesOf_toKind {c : Checker} {hh : c.hierarchy.Lawful} {before after : LiveResult hh}
    {g : FlowGraph} {initial : Store} {exits : Exits} (hfinished : exits ≠ .openEnd)
    (f : BlockId → BlockId) :
    (UnitAnalysis.new c g initial).edgesOf (exits.toKind f exitId) before.result after.result =
      (exits.facts before after).map fun e => (f e.1, e.2.result) := by
  cases exits with
  | openEnd => exact absurd rfl hfinished
  | goto target => rfl
  | branch condition x y => rfl
  | raise successor handlers terminal =>
      simp only [UnitAnalysis.edgesOf, Exits.facts, Exits.toKind, List.map_append, List.map_map]
      cases successor <;> rfl
  | special kind successor => cases successor <;> rfl

theorem mem_targets_of_facts {before after : LiveResult hh} {exits : Exits}
    {e : BlockId × LiveResult hh} (he : e ∈ exits.facts before after) : e.1 ∈ exits.targets := by
  cases exits with
  | raise successor handlers terminal =>
      rcases List.mem_append.mp he with he | he
      · obtain ⟨t, ht, rfl⟩ := List.mem_map.mp he
        exact List.mem_append_left _ ht
      · obtain ⟨x, hx, rfl⟩ := List.mem_map.mp he
        exact List.mem_append_right _ (List.mem_map_of_mem hx)
  | special kind successor =>
      obtain ⟨t, ht, rfl⟩ := List.mem_map.mp he
      exact ht
  | branch condition x y =>
      rcases List.mem_pair.mp he with rfl | rfl <;> simp [targets]
  | goto target =>
      obtain rfl := List.mem_singleton.mp he
      exact List.mem_singleton_self target
  | openEnd => cases he

end Exits

variable {c : Checker} {hc : c.Sound} {g : FlowGraph} {initial : Store} {V : NodeValues}
  {F : BlockId → WithBot (LiveResult hc.lawful)} {before after : LiveResult hc.lawful}
  {exits : Exits} {ids : List NodeId} {D : Layout} {name : String} {ranks : Array Nat}
  {s : Solving TransferResult NodeValues}

namespace Checker.Sound

theorem sends_iff : (hc.transit g initial V).Sends F before after exits ↔
    ∀ e ∈ exits.facts before after, (e.2 : WithBot (LiveResult hc.lawful)) ≤ F e.1 := by
  cases exits with
  | openEnd => simp [Transit.Sends, Exits.facts]
  | goto target => simp [Transit.Sends, Exits.facts]
  | branch condition x y => simp [Transit.Sends, Exits.facts, transit]
  | raise successor handlers terminal =>
      simp only [Transit.Sends, Exits.facts, List.forall_mem_append, List.forall_mem_map,
        Option.mem_toList]
      rfl
  | special kind successor =>
      simp only [Transit.Sends, Exits.facts, List.forall_mem_map, Option.mem_toList]
      rfl

/-- The block of a node makes no difference to what the node gives. -/
theorem transferNode_placed {u : UnitAnalysis} (hg : u.graph.Valid) {id : NodeId} {n : Node}
    (hn : u.graph.node? id = some n) (r : TransferResult) :
    (u.transferNode V ⟨id, 0, n.kind⟩ r).toOption = (u.transferNode V n r).toOption := by
  have hkey : u.key? n.id = u.key? id := by rw [hg.node hn]
  have hmoved : ∀ o ∈ n.kind.operands, UnitAnalysis.Moved u u V V (fun id => id) o :=
    fun _ _ => ⟨rfl, rfl⟩
  exact (UnitAnalysis.transferNode_moved (n := ⟨id, 0, n.kind⟩) rfl
    (NodeKind.relocate_id n.kind).symm hkey hmoved r).symm

/-- Listed nodes are those of a graph, up to their blocks. -/
def Hosts (g : FlowGraph) (nodes : Array Node) (ids : List NodeId) : Prop :=
  ∀ id ∈ ids, ∃ n n', nodes[id]? = some n ∧ g.node? id = some n' ∧ n'.kind = n.kind

variable {nodes : Array Node} {run : UnitAnalysis.BlockRun} {revisit : List BlockId}

/-- A run that records nothing takes a result along the nodes. -/
theorem along_of_run (hfit : (UnitAnalysis.new c g initial).Fit)
    (hV : V.Under c.hierarchy g.nodeCount V) (hids : Hosts g nodes ids)
    (hascending : ids.Pairwise (· < ·))
    (hrun : (UnitAnalysis.new c g initial).runNodes ids ⟨V, before.result, revisit⟩ = (run, none))
    (hvalues : run.values = V) : ∃ after : LiveResult hc.lawful, after.result = run.current ∧
      (hc.transit g initial V).Along nodes ids before after := by
  induction ids generalizing before with
  | nil =>
      cases hrun
      exact ⟨before, rfl, le_refl _⟩
  | cons id rest ih =>
      obtain ⟨hid, hrest⟩ := List.forall_mem_cons.mp hids
      obtain ⟨hfirst, hascending⟩ := List.pairwise_cons.mp hascending
      obtain ⟨n, n', hn, hn', hkind⟩ := hid
      obtain ⟨q, r, htransfer, hrun⟩ :=
        (UnitAnalysis.runNodes_cons_ok (u := .new c g initial) hn').mp hrun
      have hlt : id < V.size :=
        hV.left.symm ▸ UnitAnalysis.node?_lt (u := .new c g initial) hn'
      have hrecorded : V.getD id none = some (c.hierarchy.joinOnto (V.getD id none) q) := by
        have hkept := (UnitAnalysis.runNodes_extends hrun).frame id
          fun hmem => absurd (hfirst id hmem) (Nat.lt_irrefl _)
        rw [hvalues] at hkept
        refine hkept.trans ((UnitAnalysis.recordValue_values hlt id).trans ?_)
        rw [if_pos rfl]
        rfl
      have hstays : (UnitAnalysis.new c g initial).recordValue id q ⟨V, before.result, revisit⟩ =
          ⟨V, before.result, revisit⟩ := by
        rw [UnitAnalysis.recordValue_eq]
        exact if_pos hrecorded
      obtain ⟨hq, hr⟩ := UnitAnalysis.transferNode_mono hfit.sound hV.le before.live htransfer
        htransfer
      rw [hstays] at hrun
      obtain ⟨after, hafter, halong⟩ := @ih ⟨r, hr⟩ hrest hascending hrun
      refine ⟨after, hafter, n, _, hn, ⟨_, _, le_refl _, ?_, le_refl _⟩, halong⟩
      rintro _ ⟨⟩
      refine ⟨q, _, ⟨r, hr⟩, ?_, hrecorded, ?_, le_refl _⟩
      · rw [← hkind, transferNode_placed hfit.valid hn', htransfer]
        rfl
      · have hhas := (hc.lawful.has_of_le hq).1
        cases hv : V.getD id none with
        | none => exact hc.lawful.le_refl hhas
        | some v => exact hc.lawful.le_join_right (hV.le.has hc.lawful hv) hhas

/-- Where a result is taken along nodes, a run over them records nothing. -/
theorem run_of_along (hfit : (UnitAnalysis.new c g initial).Fit)
    (hV : V.Under c.hierarchy g.nodeCount V) (hids : Hosts g nodes ids)
    {f : WithBot (LiveResult hc.lawful)}
    (halong : (hc.transit g initial V).Along nodes ids before f) :
    ∃ after : LiveResult hc.lawful, after ≤ f ∧
      (UnitAnalysis.new c g initial).runNodes ids ⟨V, before.result, revisit⟩ =
        (⟨V, after.result, revisit⟩, none) := by
  induction ids generalizing before with
  | nil => exact ⟨before, halong, rfl⟩
  | cons id rest ih =>
      obtain ⟨hid, hrest⟩ := List.forall_mem_cons.mp hids
      obtain ⟨n, n', hn, hn', hkind⟩ := hid
      obtain ⟨n₁, m, hn₁, ⟨x, y, hx, hstep, hy⟩, halong⟩ := halong
      cases hn.symm.trans hn₁
      obtain ⟨r, rfl, hbefore⟩ := WithBot.coe_le_iff.mp hx
      obtain ⟨q, q', r', htransfer, hq', hle, hr'⟩ := hstep r rfl
      rw [← hkind, transferNode_placed hfit.valid hn'] at htransfer
      have htransfer := ok_of_toOption htransfer
      obtain ⟨q₁, r₁, htransfer₁⟩ : ∃ q₁ r₁, (UnitAnalysis.new c g initial).transferNode V n'
          before.result = .ok (q₁, r₁) :=
        UnitAnalysis.transferNode_isOk (UnitAnalysis.names_of_transferNode htransfer)
          (UnitAnalysis.operands_of_transferNode htransfer)
      obtain ⟨hle₁, hr₁⟩ := UnitAnalysis.transferNode_mono hfit.sound hV.le hbefore htransfer₁
        htransfer
      obtain ⟨-, hlive⟩ := UnitAnalysis.transferNode_mono hfit.sound hV.le before.live htransfer₁
        htransfer₁
      have hbelow : ((⟨r₁, hlive⟩ : LiveResult hc.lawful) : WithBot (LiveResult hc.lawful)) ≤ m :=
        (WithBot.coe_le_coe.mpr hr₁).trans (hr'.trans hy)
      obtain ⟨after, hafter, hrun⟩ := @ih ⟨r₁, hlive⟩ hrest (halong.le_left hbelow)
      refine ⟨after, hafter, (UnitAnalysis.runNodes_cons_ok (u := .new c g initial) hn').mpr
        ⟨q₁, r₁, htransfer₁, ?_⟩⟩
      have hle' := hc.lawful.le_trans hle₁ hle
      have hjoin : c.hierarchy.join q' q₁ = q' := by
        obtain ⟨hhas₁, hhas'⟩ := hc.lawful.has_of_le hle'
        exact hc.lawful.le_antisymm (hc.lawful.join_le (hc.lawful.le_refl hhas') hle')
          (hc.lawful.le_join_left hhas' hhas₁)
      have hstays : (UnitAnalysis.new c g initial).recordValue id q₁ ⟨V, before.result, revisit⟩ =
          ⟨V, before.result, revisit⟩ := by
        rw [UnitAnalysis.recordValue_eq]
        refine if_pos ?_
        rw [hq']
        exact congrArg some hjoin.symm
      rw [hstays]
      exact hrun

end Checker.Sound

section

variable {Fact : Type} [Preorder Fact] {A : Transit Fact} {F : BlockId → Fact} {b : Building}
  {D : Layout} {before after after' : Fact} {exits : Exits} {a : Nat}

namespace Transit

/-- All blocks of a finished layout respect the labels. -/
def Spans (A : Transit Fact) (F : BlockId → Fact) (D : Layout) : Prop :=
  ∀ (i : Nat) (d : Draft), D.drafts[i]? = some d → A.Respects D.nodes F i d

theorem sends_finish (hexit : ∀ f, f ≤ F exitId) :
    A.Sends F before after (exits.finish exitId) ↔ A.Sends F before after exits := by
  unfold Exits.finish
  split
  · exact iff_true_intro (hexit after)
  · simp [Sends, hexit after]
  · exact Iff.rfl

/-- What comes to the exit is lost, so that the exits that lead there ask for nothing. -/
theorem spans_layout (hexit : ∀ f, f ≤ F exitId) : A.Spans F b.layout ↔ A.Labels F b := by
  constructor
  · intro h i d hd
    obtain ⟨after, halong, hsends⟩ := h i _ (by rw [layout_drafts, hd]; rfl)
    exact ⟨after, halong, (sends_finish hexit).mp hsends⟩
  · intro h i d hd
    obtain ⟨d₀, hd₀, rfl⟩ := exists_of_layout hd
    obtain ⟨after, halong, hsends⟩ := h i d₀ hd₀
    exact ⟨after, halong, (sends_finish hexit).mpr hsends⟩

theorem Spans.le_goto {t : Nat} (h : A.Spans F D) (hd : D.drafts[a]? = some ⟨[], .goto t⟩) :
    F a ≤ F t := by
  obtain ⟨after, halong, hsends⟩ := h a _ hd
  exact le_trans halong hsends

/-- Every block leads to a kept one of its final id, with a label at or above its own. -/
theorem Spans.lands (h : A.Spans F D) (hw : D.Whole) (ha : a < D.drafts.size) :
    ∃ (c : Nat) (d : Draft), D.drafts[c]? = some d ∧ Keeps D.drafts c ∧
      rename D.drafts c = rename D.drafts a ∧ F a ≤ F c := by
  obtain ⟨n, hn, c, hchain⟩ := removableBlocks_chain D.drafts a
  obtain ⟨hc, -⟩ := hw.chain hchain ha
  refine ⟨c, _, Array.getElem?_eq_getElem hc, hchain.kept,
    (rename_of_chain ha hc hn hchain).symm, ?_⟩
  clear hn hc ha
  induction hchain with
  | stop => exact le_refl _
  | skip _ hnext _ ih => exact (h.le_goto (goto_of_forwardOf hnext)).trans ih

theorem Sends.le_after (h : A.Sends F before after exits) (hle : after' ≤ after) :
    A.Sends F before after' exits := by
  cases exits with
  | goto target => exact hle.trans h
  | raise successor handlers terminal => exact ⟨fun t ht => hle.trans (h.1 t ht), h.2⟩
  | openEnd => trivial
  | branch => exact h
  | special => exact h

end Transit

end

/-- A run over the nodes of a block is its transfer. -/
theorem UnitAnalysis.transferBlock_of_run {u : UnitAnalysis} {i : BlockId} {block : Block}
    {f r : TransferResult} (hblock : u.graph.block? i = some block)
    (hrun : u.runBlock block V f = (⟨V, r, []⟩, none)) :
    ∃ sent, u.transferBlock V i f = .ok (sent, V) ∧
      sent.edges = u.edgesOf block.kind f r := by
  rw [transferBlock, hblock]
  dsimp only
  split <;> rename_i hkind
  · exact ⟨_, rfl, by rw [hkind]; rfl⟩
  · exact ⟨_, rfl, by rw [hkind]; rfl⟩
  · rw [hrun]
    exact ⟨_, rfl, by rw [hkind]; rfl⟩
  · rw [hrun]
    exact ⟨_, rfl, by rw [hkind]; rfl⟩

namespace Checker.Sound

/-- The first result of an analysis. -/
def start (hc : c.Sound) (hinitial : initial.Under c.hierarchy initial) : LiveResult hc.lawful :=
  .ofStore initial hinitial

theorem hosts_parts (hparts : g.toGraphParts = D.parts name) (hw : D.Whole) {i : Nat} {d : Draft}
    (hd : D.drafts[i]? = some d) : Hosts g D.nodes d.nodes := by
  intro id hid
  obtain ⟨n, hn, -⟩ := (hw.listed i d hd).2 id hid
  refine ⟨n, { n with block := rename D.drafts n.block }, hn, ?_, rfl⟩
  rw [FlowGraph.node?, hparts]
  simp [parts, hn]

theorem block_parts (hparts : g.toGraphParts = D.parts name) {i : Nat} {d : Draft}
    (hd : D.drafts[i]? = some d) (hkeeps : Keeps D.drafts i) : g.block? (rename D.drafts i) =
      some ⟨rename D.drafts i, d.nodes, d.exits.toKind (rename D.drafts) exitId⟩ := by
  rw [FlowGraph.block?, hparts]
  exact parts_blocks hd hkeeps

theorem along_bot {nodes : Array Node} {ids : List NodeId} (hids : Hosts g nodes ids) :
    (hc.transit g initial V).Along nodes ids ⊥ ⊥ := by
  induction ids with
  | nil => exact le_refl _
  | cons id rest ih =>
      obtain ⟨⟨n, -, hn, -⟩, hrest⟩ := List.forall_mem_cons.mp hids
      exact ⟨n, ⊥, hn, ⟨⊥, ⊥, le_refl _, nofun, le_refl _⟩, ih hrest⟩

theorem sends_bot {exits : Exits} : (hc.transit g initial V).Sends F ⊥ ⊥ exits := by
  cases exits <;> simp [Transit.Sends, transit]

/-- Labels as a solver has found them: a draft has what stands in the table before its block, and
what comes to the exits is lost. -/
structure Reads (hc : c.Sound) (s : Solving TransferResult NodeValues) (D : Layout)
    (F : BlockId → WithBot (LiveResult hc.lawful)) : Prop where
  lost : ∀ i, i = exitId ∨ i = exceptionalExitId → F i = (LiveResult.top : LiveResult hc.lawful)
  before : ∀ i, ¬ (i = exitId ∨ i = exceptionalExitId) → ∀ r : LiveResult hc.lawful,
    F i = r ↔ s.table.before (rename D.drafts i) = some r.result

theorem exists_reads (hfit : (UnitAnalysis.new c g initial).Fit)
    (hsteps : ReflTransGen (Solving.Step (UnitAnalysis.new c g initial).dataflow g ranks)
      (.start g (UnitAnalysis.new c g initial).noValues) s) (D : Layout) :
    ∃ F, hc.Reads s D F := by
  have hs := hfit.sane hsteps
  have hexists (i : BlockId) : ∃ f : WithBot (LiveResult hc.lawful),
      (i = exitId ∨ i = exceptionalExitId → f = (LiveResult.top : LiveResult hc.lawful)) ∧
      (¬ (i = exitId ∨ i = exceptionalExitId) → ∀ r : LiveResult hc.lawful,
        f = r ↔ s.table.before (rename D.drafts i) = some r.result) := by
    by_cases hi : i = exitId ∨ i = exceptionalExitId
    · exact ⟨_, fun _ => rfl, fun hnot => absurd hi hnot⟩
    · cases hf : s.table.before (rename D.drafts i) with
      | none => exact ⟨⊥, fun h => absurd h hi, fun _ r => by simp⟩
      | some f =>
          refine ⟨((⟨f, hs.facts.before _ f hf⟩ : LiveResult hc.lawful) : WithBot _),
            fun h => absurd h hi, fun _ r => ?_⟩
          obtain ⟨f', hf'⟩ := r
          simp [LiveResult.ext_iff]
  choose F hlost hbefore using hexists
  exact ⟨F, hlost, hbefore⟩

/-- What stands in the table before a block is at or below the label of any draft of the block. -/
theorem Reads.le (h : hc.Reads s D F) {i : BlockId} {r : LiveResult hc.lawful}
    {f : TransferResult} (hf : s.table.before (rename D.drafts i) = some f)
    (hlive : f.Under c.hierarchy f) (hle : r.result.Under c.hierarchy f) :
    (r : WithBot (LiveResult hc.lawful)) ≤ F i := by
  by_cases hi : i = exitId ∨ i = exceptionalExitId
  · rw [h.lost i hi]
    exact WithBot.coe_le_coe.mpr r.le_top
  · rw [(h.before i hi ⟨f, hlive⟩).mpr hf]
    exact WithBot.coe_le_coe.mpr hle

/-- What a solver has found labels the blocks. -/
theorem Reads.spans (h : hc.Reads s D F) (hfit : (UnitAnalysis.new c g initial).Fit)
    (hparts : g.toGraphParts = D.parts name) (hw : D.Whole)
    (hexit : D.drafts[exitId]? = some ⟨[], .special .exit none⟩)
    (hexceptional : D.drafts[exceptionalExitId]? = some ⟨[], .special .exceptionalExit none⟩)
    (hsteps : ReflTransGen (Solving.Step (UnitAnalysis.new c g initial).dataflow g ranks)
      (.start g (UnitAnalysis.new c g initial).noValues) s)
    (hempty : s.worklist = []) : (hc.transit g initial s.state).Spans F D := by
  have hs := hfit.sane hsteps
  intro i d hd
  have hlists := hosts_parts hparts hw hd
  by_cases hi : i = exitId ∨ i = exceptionalExitId
  · have hspecial : ∃ kind, d = ⟨[], .special kind none⟩ := by
      rcases hi with rfl | rfl
      · exact ⟨_, Option.some.inj (hd.symm.trans hexit)⟩
      · exact ⟨_, Option.some.inj (hd.symm.trans hexceptional)⟩
    obtain ⟨kind, rfl⟩ := hspecial
    exact ⟨F i, le_refl _, by simp [Transit.Sends]⟩
  by_cases hkeeps : Keeps D.drafts i
  swap
  · obtain ⟨t, ht⟩ := goto_of_not_keeps hkeeps
    cases hd.symm.trans ht
    refine ⟨F i, le_refl _, ?_⟩
    change F i ≤ F t
    cases hr : F i with
    | bot => exact bot_le
    | coe r =>
        have hbefore := (h.before i hi r).mp hr
        rw [hw.rename_goto hd hkeeps] at hbefore
        exact h.le hbefore r.live r.live
  · cases hr : F i with
    | bot => exact ⟨⊥, by rw [hr]; exact along_bot hlists, by rw [hr]; exact sends_bot⟩
    | coe r =>
        have hsettled := (hs.settled _ _ ((h.before i hi r).mp hr)).resolve_left (by simp [hempty])
        obtain ⟨-, sent, hsent, -, hedges⟩ := hsettled
        obtain ⟨run, hrun, hvalues, hsentEdges, -⟩ := UnitAnalysis.transferBlock_edges hfit.valid
          (block_parts hparts hd hkeeps) hsent
        obtain ⟨after, hafter, halong⟩ : ∃ after : LiveResult hc.lawful,
            after.result = run.current ∧
            (hc.transit g initial s.state).Along D.nodes d.nodes r after :=
          along_of_run hfit hs.state hlists (hw.listed i d hd).1 hrun hvalues
        refine ⟨after, by rw [hr]; exact halong, ?_⟩
        rw [hr]
        refine sends_iff.mpr fun e he => ?_
        have hmem : (rename D.drafts e.1, e.2.result) ∈ sent.edges := by
          rw [hsentEdges, ← hafter, Exits.edgesOf_toKind (hw.finished i d hd)]
          exact List.mem_map_of_mem he
        obtain ⟨old, hold, hle⟩ := hedges _ hmem
        obtain ⟨f, hf, hle'⟩ := hfit.edge_under hsteps hempty hold
        exact h.le hf (hs.facts.before _ f hf) (hfit.lawful.trans hle hle')

/-- The labels of kept drafts, as facts before the blocks that the drafts end in. -/
theorem exists_facts (hc : c.Sound) (F : BlockId → WithBot (LiveResult hc.lawful)) (D : Layout) :
    ∃ cap : BlockId → Option TransferResult, ∀ j f, cap j = some f ↔
      ∃ (a : Nat) (d : Draft) (r : LiveResult hc.lawful), D.drafts[a]? = some d ∧
        Keeps D.drafts a ∧ rename D.drafts a = j ∧ F a = r ∧ r.result = f := by
  have hexists (j : BlockId) : ∃ o : Option TransferResult, ∀ f, o = some f ↔
      ∃ (a : Nat) (d : Draft) (r : LiveResult hc.lawful), D.drafts[a]? = some d ∧
        Keeps D.drafts a ∧ rename D.drafts a = j ∧ F a = r ∧ r.result = f := by
    by_cases hj : ∃ (a : Nat) (d : Draft) (r : LiveResult hc.lawful), D.drafts[a]? = some d ∧
        Keeps D.drafts a ∧ rename D.drafts a = j ∧ F a = r
    · obtain ⟨a, d, r, hd, hkeeps, hrename, hr⟩ := hj
      refine ⟨some r.result, fun f => ⟨?_, ?_⟩⟩
      · rintro ⟨⟩
        exact ⟨a, d, r, hd, hkeeps, hrename, hr, rfl⟩
      · rintro ⟨a', d', r', hd', hkeeps', hrename', hr', rfl⟩
        obtain rfl := rename_injective (Array.getElem?_eq_some_iff.mp hd).1
          (Array.getElem?_eq_some_iff.mp hd').1 hkeeps hkeeps' (hrename.trans hrename'.symm)
        rw [WithBot.coe_inj.mp (hr.symm.trans hr')]
    · refine ⟨none, fun f => ⟨nofun, ?_⟩⟩
      rintro ⟨a, d, r, hd, hkeeps, hrename, hr, -⟩
      exact absurd ⟨a, d, r, hd, hkeeps, hrename, hr⟩ hj
  exact ⟨fun j => (hexists j).choose, fun j => (hexists j).choose_spec⟩

/-- What labels the blocks bounds what a solver finds. -/
theorem solved_le (hfit : (UnitAnalysis.new c g initial).Fit)
    (hparts : g.toGraphParts = D.parts name) (hw : D.Whole)
    (hV : V.Under c.hierarchy g.nodeCount V)
    (hsteps : ReflTransGen (Solving.Step (UnitAnalysis.new c g initial).dataflow g ranks)
      (.start g (UnitAnalysis.new c g initial).noValues) s)
    (hentry : (hc.start hfit.initial) ≤ F entryId) (hF : (hc.transit g initial V).Spans F D) :
    s.state.Le c.hierarchy V := by
  obtain ⟨cap, hcap⟩ := exists_facts hc F D
  have hlands {a : Nat} (ha : a < D.drafts.size) {r : LiveResult hc.lawful}
      (hle : (r : WithBot (LiveResult hc.lawful)) ≤ F a) :
      ∃ f, cap (rename D.drafts a) = some f ∧ r.result.Under c.hierarchy f := by
    obtain ⟨k, d, hd, hkeeps, hrename, hup⟩ := hF.lands hw ha
    obtain ⟨r', hr', hle'⟩ := WithBot.coe_le_iff.mp (hle.trans hup)
    exact ⟨r'.result, (hcap _ _).mpr ⟨k, d, r', hd, hkeeps, hrename, hr', rfl⟩, hle'⟩
  have hcontains : (UnitAnalysis.new c g initial).dataflow.Contains g
      (TransferResult.Under c.hierarchy) cap V := by
    refine ⟨?_, fun j f hf => ?_⟩
    · have hstart : g.entry = rename D.drafts entryId := congrArg GraphParts.entry hparts
      rw [hstart]
      exact hlands (Nat.lt_of_lt_of_le (by decide) hw.designated) hentry
    · obtain ⟨a, d, r, hd, hkeeps, rfl, hr, rfl⟩ := (hcap j f).mp hf
      obtain ⟨after, halong, hsends⟩ := hF a d hd
      rw [hr] at halong hsends
      obtain ⟨after', hle, hrun⟩ := run_of_along hfit hV (hosts_parts hparts hw hd) halong
      have hsends : (hc.transit g initial V).Sends F r after' d.exits := hsends.le_after hle
      obtain ⟨sent, hsent, hedges⟩ := UnitAnalysis.transferBlock_of_run
        (u := .new c g initial) (block_parts hparts hd hkeeps) hrun
      refine ⟨sent, hsent, fun e he => ?_⟩
      rw [hedges, Exits.edgesOf_toKind (hw.finished a d hd)] at he
      obtain ⟨x, hx, rfl⟩ := List.mem_map.mp he
      exact hlands (hw.targets a d hd x.1 (Exits.mem_targets_of_facts hx))
        (sends_iff.mp hsends x hx)
  have hstart : (UnitAnalysis.new c g initial).noValues.Under c.hierarchy g.nodeCount V :=
    UnitAnalysis.noValues_under (u := .new c g initial) hV.left hV.le
  exact (Solving.steps_contained hfit.lawful hfit.valid hcontains hstart hsteps).state.le

end Checker.Sound

end FlowTyping
