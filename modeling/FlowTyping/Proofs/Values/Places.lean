import FlowTyping.Proofs.Flow.PathRuns
import FlowTyping.Proofs.Values.Evaluation

/-!
Where a run stands: which node it has evaluated last, and which values wait. A negation is
evaluated right after its operand, and the reads of variables that wait still have the values
of these variables.
-/

namespace FlowTyping

namespace Timetable

/-- The node that a run has evaluated last, `last`, at a point of a block where some of its
nodes are done. Nothing counts as evaluated when something has been raised. -/
structure Latest (T : Timetable) (g : FlowGraph) (b : BlockId) (done : List NodeId)
    (last : Option NodeId) : Prop where
  inside : done ≠ [] → last = done.getLast?
  before : done = [] → ∀ m ∈ T.waits b, (T.entered b).start = m + 1 → last = some m
  tested : ∀ block condition t e, g.block? b = some block →
    block.kind = .conditional condition t e → last = none ∨ last = some condition

variable {T : Timetable} {g : FlowGraph} {b t : BlockId} {block : Block}
  {done rest : List NodeId} {last : Option NodeId} {id m : NodeId} {node : Node}

theorem piece?_of_block? (h : g.block? b = some block) : g.piece? b = some block.piece :=
  congrArg (Option.map Block.piece) h

/-- What waits in a block or comes before one of its nodes has a smaller id. -/
theorem Fits.le_of_before (hT : T.Fits g.nodes g.piece?) (ho : g.Ordered)
    (hblock : g.block? b = some block) {pre post : List NodeId} {k : NodeId}
    (hnodes : block.nodes = pre ++ k :: post) (hm : m ∈ T.waits b ∨ m ∈ pre ++ [k]) : m ≤ k := by
  rcases hm with hwaits | hin
  · have hstart := hT.after (piece?_of_block? hblock) k
      (show k ∈ block.nodes by simp [hnodes])
    exact Nat.le_of_lt (Nat.lt_of_lt_of_le (hT.before m hwaits) hstart)
  · have hascending := ho.ascending hblock
    rw [hnodes] at hascending
    rcases List.mem_append.mp hin with hin | hin
    · exact Nat.le_of_lt ((List.pairwise_append.mp hascending).2.2 m hin k List.mem_cons_self)
    · exact Nat.le_of_eq (List.mem_singleton.mp hin)

namespace Latest

/-- Nothing waits at the entry. -/
theorem entry (hentry : T.waits b = []) : T.Latest g b [] none where
  inside h := absurd rfl h
  before _ _ hm := absurd (hentry ▸ hm) List.not_mem_nil
  tested _ _ _ _ _ _ := .inl rfl

theorem raised (hT : T.Fits g.nodes g.piece?) (hblock : g.block? b = some block)
    (ht : t ∈ block.kind.raised) : T.Latest g t [] none :=
  entry (hT.raised (piece?_of_block? hblock) t ht)

theorem evaluate (hg : g.Valid) (hblock : g.block? b = some block)
    (hnodes : block.nodes = done ++ id :: rest) : T.Latest g b (done ++ [id]) (some id) where
  inside _ := by simp
  before h := by simp at h
  tested block' condition t e hblock' hkind := by
    rw [hblock] at hblock'
    cases hblock'
    rw [(hg.tested hblock hkind).1] at hnodes
    simp at hnodes

/-- Control goes on to a block where nothing has been evaluated since. -/
theorem onward (hT : T.Fits g.nodes g.piece?) (hg : g.Valid) (ho : g.Ordered)
    (hlast : T.Latest g b block.nodes last) (hblock : g.block? b = some block)
    (ht : t ∈ block.kind.onward) : T.Latest g t [] last where
  inside h := absurd rfl h
  before _ m hm hstart := by
    obtain ⟨waiting, hruns, hnext⟩ := hT.runs (piece?_of_block? hblock)
    obtain ⟨hsub, hprecedes⟩ := hnext t ht
    have hbefore := hprecedes (List.ne_nil_of_mem hm)
    rcases List.eq_nil_or_concat block.nodes with hempty | ⟨pre, k, hnodes⟩
    · -- An empty block is passed without evaluating anything.
      have hwaits : m ∈ T.waits b :=
        (hruns.waiting_sub (hsub m hm)).resolve_right (by simp [Block.piece, hempty])
      refine hlast.before hempty m hwaits (Nat.le_antisymm ?_ (hT.before m hwaits))
      exact hstart ▸ hbefore.start
    · rw [List.concat_eq_append] at hnodes
      have hk : k ∈ block.nodes := by simp [hnodes]
      have hkm : k < m + 1 := hstart ▸ hbefore.nodes k hk
      have hmk : m ≤ k := by
        refine hT.le_of_before ho hblock hnodes ((hruns.waiting_sub (hsub m hm)).imp_right ?_)
        exact fun hin => hnodes ▸ (show m ∈ block.nodes from hin)
      obtain rfl : m = k := Nat.le_antisymm hmk (Nat.le_of_lt_succ hkm)
      rw [hlast.inside (by simp [hnodes]), hnodes]
      simp
  tested block' condition t' e hblock' hkind := by
    obtain ⟨-, p, b', hpredecessors, hp, hends⟩ := hg.tested hblock' hkind
    have hb : b ∈ g.predecessorsOf t := hg.predecessors.mpr
      ⟨(hg.block hblock).2 t (BlockKind.mem_successors.mpr (.inl ht)),
        FlowGraph.mem_successors.mpr
          ⟨block, hblock, BlockKind.mem_successors.mpr (.inl ht)⟩⟩
    rw [hpredecessors] at hb
    obtain rfl := List.mem_singleton.mp hb
    rw [hblock] at hp
    cases hp
    have hne : block.nodes ≠ [] := by
      intro hempty
      simp [Block.lastNode?, hempty] at hends
    exact .inr ((hlast.inside hne).trans hends)

/-- The operand of a negation has been evaluated last. -/
theorem negated (hT : T.Fits g.nodes g.piece?) (ho : g.Ordered)
    (hlast : T.Latest g b done last) (hblock : g.block? b = some block)
    (hnodes : block.nodes = done ++ id :: rest) (hnode : g.node? id = some node)
    (hkind : node.kind = .unary .not m) (hid : id = m + 1) : last = some m := by
  obtain ⟨waiting, hruns, -⟩ := hT.runs (piece?_of_block? hblock)
  have hruns : Runs g.nodes (T.waits b) (done ++ id :: rest) waiting := hnodes ▸ hruns
  obtain ⟨held, node', -, hnode', hdirect, -⟩ := hruns.split
  cases hnode.symm.trans hnode'
  have hm := hdirect m (by rw [hkind]; exact List.mem_cons_self)
  rcases List.eq_nil_or_concat done with rfl | ⟨pre, k, rfl⟩
  · have hwaits : m ∈ T.waits b := hm.resolve_right List.not_mem_nil
    refine hlast.before rfl m hwaits (Nat.le_antisymm ?_ (hT.before m hwaits))
    exact hid ▸ hT.after (piece?_of_block? hblock) id (show id ∈ block.nodes by simp [hnodes])
  · rw [List.concat_eq_append] at hnodes hlast hm
    have hascending := ho.ascending hblock
    rw [hnodes] at hascending
    have hkm : k < m + 1 :=
      hid ▸ (List.pairwise_append.mp hascending).2.2 k (by simp) id (by simp)
    have hsplit : block.nodes = pre ++ k :: id :: rest := by simp [hnodes]
    have hmk : m ≤ k := hT.le_of_before ho hblock hsplit hm
    obtain rfl : m = k := Nat.le_antisymm hmk (Nat.le_of_lt_succ hkm)
    rw [hlast.inside (by simp)]
    simp

end Latest

end Timetable

namespace RunState

variable {Value : Type} {u : UnitAnalysis} {vars : List LocalVar}
  {I : Interpretation u.checker.hierarchy Value} {object : Value} {a : AnalyzedUnit}
  {T : Timetable} {σ : RunState Value} {b t : BlockId} {block : Block}
  {done rest : List NodeId} {id : NodeId} {node : Node} {w : Option Value}

/-- The nodes with keys that wait have the values that these keys stand for. -/
def Fresh (u : UnitAnalysis) (object : Value) (T : Timetable) (σ : RunState Value)
    (b : BlockId) (done : List NodeId) : Prop :=
  ∀ held, Runs u.graph.nodes (T.waits b) done held → ∀ m ∈ held, ∀ key,
    u.key? m = some key → σ.value m = key.look object σ.env

theorem write_of_value {kind : NodeKind} (h : kind.isEffect = false)
    (env : String → Option Value) (w : Option Value) : kind.write env w = env := by
  cases kind <;> first | rfl | cases h

/-- A node with a key computes the value that the key stands for. -/
theorem Computes.eq_look (hp : u.Plain vars) (hnode : u.graph.node? id = some node)
    (hw : σ.Computes u.checker I object a node w) {key : FlowKey}
    (hkey : u.key? id = some key) : w = key.look object σ.env := by
  obtain ⟨node', hnode', hkinds⟩ := hp.exists_keyed hkey
  rw [hnode] at hnode'
  cases hnode'
  rcases hkinds with ⟨var, hkind, rfl⟩ | ⟨hkind, rfl⟩
  · cases hw with
    | localRead kind held =>
        cases hkind.symm.trans kind
        exact held.symm
    | _ => simp_all
  · cases hw with
    | this => rfl
    | _ => simp_all

namespace Fresh

theorem flat (hwaits : T.waits b = []) : σ.Fresh u object T b [] := by
  intro held hruns m hm
  rcases hruns.waiting_sub hm with hm | hm
  · rw [hwaits] at hm
    cases hm
  · cases hm

/-- A value that is computed waits next to the others, and nothing waits after an effect. -/
theorem evaluate (hp : u.Plain vars) (hT : T.Fits u.graph.nodes u.graph.piece?)
    (hfresh : σ.Fresh u object T b done) (hblock : u.graph.block? b = some block)
    (hnodes : block.nodes = done ++ id :: rest) (hnode : u.graph.node? id = some node)
    (hw : σ.Computes u.checker I object a node w) :
    (σ.record node rest w).Fresh u object T b (done ++ [id]) := by
  intro held' hruns' m hm key hkey
  obtain ⟨waiting, hruns, -⟩ := hT.runs (Timetable.piece?_of_block? hblock)
  have hruns : Runs u.graph.nodes (T.waits b) (done ++ id :: rest) waiting := hnodes ▸ hruns
  obtain ⟨held, node', hheld, hnode', hdirect, hwaits⟩ := hruns.split
  cases hnode.symm.trans hnode'
  obtain rfl := hruns'.unique (hheld.snoc hnode hdirect hwaits) rfl
  split at hm
  · cases hm
  · rename_i heffect
    have henv : node.kind.write σ.env w = σ.env :=
      write_of_value (Bool.eq_false_iff.mpr heffect) σ.env w
    have hid : node.id = id := hp.valid.node hnode
    change Function.update σ.value node.id w m = key.look object (node.kind.write σ.env w)
    rw [henv, hid]
    by_cases hmid : m = id
    · subst hmid
      rw [Function.update_self]
      exact hw.eq_look hp hnode hkey
    · rw [Function.update_of_ne hmid]
      exact hfresh held hheld m ((List.mem_cons.mp hm).resolve_left hmid) key hkey

/-- What waits in the next block waits at the end of the one before. -/
theorem onward (hT : T.Fits u.graph.nodes u.graph.piece?)
    (hfresh : σ.Fresh u object T b block.nodes) (hblock : u.graph.block? b = some block)
    (ht : t ∈ block.kind.onward) (g : FlowGraph) : (σ.enter g t).Fresh u object T t [] := by
  intro held hruns m hm
  obtain ⟨waiting, hwaiting, hnext⟩ := hT.runs (Timetable.piece?_of_block? hblock)
  obtain rfl := hruns.unique .nil rfl
  exact hfresh waiting hwaiting m ((hnext t ht).1 m hm)

/-- The operands of a node wait before it. -/
theorem operands (hT : T.Fits u.graph.nodes u.graph.piece?)
    (hfresh : σ.Fresh u object T b done) (hblock : u.graph.block? b = some block)
    (hnodes : block.nodes = done ++ id :: rest) (hnode : u.graph.node? id = some node)
    (hsets : node.kind.setsLocal = false) : ∀ m ∈ node.kind.direct, ∀ key,
      u.key? m = some key → σ.value m = key.look object σ.env := by
  intro m hm
  obtain ⟨waiting, hruns, -⟩ := hT.runs (Timetable.piece?_of_block? hblock)
  have hruns : Runs u.graph.nodes (T.waits b) (done ++ id :: rest) waiting := hnodes ▸ hruns
  obtain ⟨held, node', hheld, hnode', -, hwaits⟩ := hruns.split
  cases hnode.symm.trans hnode'
  exact hfresh held hheld m (hwaits hsets m hm)

end Fresh

end RunState

end FlowTyping

/-!
Runs over the nodes of a block once the fixpoint is found. They give the recorded facts and
join nothing new into the qualifiers of nodes.
-/

namespace FlowTyping

open Relation

namespace UnitAnalysis

/-- Nodes take a result to another one, and have recorded qualifiers that cover what they
compute. -/
inductive Repeats (u : UnitAnalysis) (V : NodeValues) :
    List NodeId → TransferResult → TransferResult → Prop
  | nil {r : TransferResult} : Repeats u V [] r r
  | cons {id : NodeId} {rest : List NodeId} {node : Node} {p q : Qualifier}
      {r next out : TransferResult} (node? : u.graph.node? id = some node)
      (transfer : u.transferNode V node r = .ok (p, next)) (recorded : V.getD id none = some q)
      (le : u.checker.hierarchy.isSubtype p q = true) (onward : Repeats u V rest next out) :
      Repeats u V (id :: rest) r out

/-- The facts that solving ends with. What goes along an edge is below the fact at its end,
and each block repeats the fact after it. -/
structure SolvedBy (u : UnitAnalysis) (V : NodeValues)
    (before after : BlockId → Option TransferResult) : Prop where
  has : V.Le u.checker.hierarchy V
  entry : ∃ f, before u.graph.entry = some f ∧
    (TransferResult.regular u.initial).Under u.checker.hierarchy f
  live : ∀ b f, before b = some f → f.Under u.checker.hierarchy f
  reached : ∀ b f, before b = some f →
    ReflTransGen (Digraph.Edge u.graph.successors) u.graph.entry b
  block : ∀ b f, before b = some f → ∃ block out o, u.graph.block? b = some block ∧
    u.Repeats V block.nodes f out ∧ after b = some o ∧
    (o = out ∨ o = .regular (out.collapse u.checker.hierarchy)) ∧
    ∀ t along, (t, along) ∈ u.edgesOf block.kind f out →
      ∃ f', before t = some f' ∧ along.Under u.checker.hierarchy f'

variable {u : UnitAnalysis} {V W : NodeValues} {ids : List NodeId} {r out : TransferResult}
  {b : BlockId} {block : Block} {f : TransferResult}

/-- A run over ascending nodes that records nothing new repeats itself. -/
theorem repeats_of_runNodes (hc : u.checker.Sound) (hids : ids.Pairwise (· < ·))
    (hlisted : ∀ id ∈ ids, ∃ node, u.graph.node? id = some node) (run : BlockRun)
    {run' : BlockRun} (hsize : run.values.size = u.graph.nodeCount)
    (hhas : V.Le u.checker.hierarchy V) (hlive : run.current.Under u.checker.hierarchy run.current)
    (hV : ∀ j : Nat, run.values.getD j none = V.getD j none)
    (hV' : ∀ j : Nat, run'.values.getD j none = V.getD j none)
    (h : u.runNodes ids run = (run', none)) :
    u.Repeats V ids run.current run'.current := by
  induction ids generalizing run with
  | nil =>
      cases h
      exact .nil
  | cons id rest ih =>
      obtain ⟨hfirst, hrest⟩ := List.pairwise_cons.mp hids
      obtain ⟨⟨node, hnode⟩, hlisted⟩ := List.forall_mem_cons.mp hlisted
      obtain ⟨p, next, htransfer, h⟩ := (runNodes_cons_ok hnode).mp h
      have hlt : id < run.values.size := hsize ▸ node?_lt hnode
      have htransfer' : u.transferNode V node run.current = .ok (p, next) := by
        rw [← htransfer]
        exact transferNode_congr fun o _ => (hV o).symm
      obtain ⟨hp, hnext⟩ := transferNode_mono hc hhas hlive htransfer' htransfer'
      -- The rest of the run leaves the qualifier of the node as it has been recorded.
      have hrecorded : V.getD id none =
          some (u.checker.hierarchy.joinOnto (run.values.getD id none) p) := by
        rw [← hV' id, (runNodes_extends h).frame id fun hmem =>
          absurd (hfirst id hmem) (Nat.lt_irrefl _), recordValue_values hlt, if_pos rfl]
      have hsame (j : Nat) : (u.recordValue id p run).values.getD j none = V.getD j none := by
        rw [recordValue_values hlt]
        by_cases hj : j = id
        · rw [if_pos hj, hj, hrecorded]
        · rw [if_neg hj, hV j]
      refine .cons hnode htransfer' hrecorded ?_
        (ih hrest hlisted ⟨_, next, _⟩ (recordValue_size.trans hsize) hnext hsame h)
      rw [hV id, hrecorded]
      refine hc.lawful.le_join_right ?_ (hc.lawful.has_of_le hp).1
      exact hhas.has hc.lawful hrecorded

theorem Repeats.snoc {id : NodeId} {node : Node} {p q : Qualifier} {next : TransferResult}
    (h : u.Repeats V ids r out) (hnode : u.graph.node? id = some node)
    (htransfer : u.transferNode V node out = .ok (p, next)) (hq : V.getD id none = some q)
    (hle : u.checker.hierarchy.isSubtype p q = true) : u.Repeats V (ids ++ [id]) r next := by
  induction h with
  | nil => exact .cons hnode htransfer hq hle .nil
  | cons hnode' htransfer' hq' hle' _ ih => exact .cons hnode' htransfer' hq' hle' (ih htransfer)

/-- The nodes run again with qualifiers that are as recorded. -/
theorem Repeats.runNodes (hc : u.checker.Sound) (h : u.Repeats V ids r out)
    (hW : ∀ (id : Nat) q, V.getD id none = some q → W.getD id none = some q)
    (revisit : List BlockId) :
    u.runNodes ids ⟨W, r, revisit⟩ = (⟨W, out, revisit⟩, none) := by
  induction h with
  | nil => rfl
  | @cons id rest node p q r next out hnode htransfer hq hle _ ih =>
      have hread : u.transferNode W node r = .ok (p, next) := by
        rw [← htransfer]
        refine transferNode_congr fun o ho => ?_
        obtain ⟨v, hv⟩ := operands_of_transferNode htransfer o ho
        rw [hW o v hv, hv]
      have hstays : u.recordValue id p ⟨W, r, revisit⟩ = ⟨W, r, revisit⟩ := by
        have hhas := (hc.lawful.has_of_le hle).2
        have habsorbs : u.checker.hierarchy.joinOnto (some q) p = q :=
          hc.lawful.le_antisymm (hc.lawful.join_le (hc.lawful.le_refl hhas) hle)
            (hc.lawful.le_join_left hhas (hc.lawful.has_of_le hle).1)
        rw [recordValue_eq]
        exact if_pos (by simp only [hW id q hq, habsorbs])
      refine (runNodes_cons_ok hnode).mpr ⟨p, next, hread, ?_⟩
      rw [hstays]
      exact ih

/-- The output of a block is the result after its nodes, on either outcome for special
blocks. -/
theorem transferBlock_output (hg : u.graph.Valid) (hblock : u.graph.block? b = some block)
    {sent : BlockTransfer TransferResult} (h : u.transferBlock V b f = .ok (sent, W)) :
    ∃ run, u.runBlock block V f = (run, none) ∧ (sent.output = run.current ∨
      sent.output = .regular (run.current.collapse u.checker.hierarchy)) := by
  rw [transferBlock, hblock] at h
  dsimp only at h
  split at h <;> rename_i hkind
  · cases h
    refine ⟨⟨V, f, []⟩, ?_, .inl rfl⟩
    rw [runBlock, (hg.tested hblock hkind).1]
    rfl
  · cases h
    refine ⟨⟨V, f, []⟩, ?_, .inr rfl⟩
    rw [runBlock, hg.special hblock hkind]
    rfl
  all_goals
    split at h
    · cases h
    · rename_i run hrun
      cases h
      exact ⟨run, hrun, .inl rfl⟩

/-- Where visits end, the facts are settled. -/
theorem Fit.solvedBy (h : u.Fit) {ranks : Array Nat} {s : Solving TransferResult NodeValues}
    (hsteps : ReflTransGen (Solving.Step u.dataflow u.graph ranks) (.start u.graph u.noValues) s)
    (hempty : s.worklist = []) : u.SolvedBy s.state s.table.before s.table.after := by
  have hs := h.sane hsteps
  refine ⟨hs.state.le, h.entry_under hsteps hempty, hs.facts.before,
    fun b f hf => hs.known b (.inr (hs.marked b f hf)), fun b f hf => ?_⟩
  have hlt : b < u.graph.size := hs.lt_size h.valid (.inr (hs.marked b f hf))
  have hblock : u.graph.block? b = some u.graph.blocks[b] := Array.getElem?_eq_getElem hlt
  obtain ⟨sent, hsent, hafter, hedges⟩ :=
    ((hs.settled b f hf).resolve_left (by simp [hempty])).transfer
  obtain ⟨run, hrun, hvalues, hsentEdges, -⟩ := transferBlock_edges h.valid hblock hsent
  obtain ⟨run', hrun', houtput⟩ := transferBlock_output h.valid hblock hsent
  rw [hrun] at hrun'
  cases hrun'
  refine ⟨_, run.current, sent.output, hblock, ?_, hafter, houtput, fun t along halong => ?_⟩
  · exact repeats_of_runNodes h.sound (h.ordered.ascending hblock)
      (fun id hid => (h.valid.listed hblock id hid).imp fun _ hn => hn.1) ⟨_, f, []⟩ hs.state.left
      hs.state.le (hs.facts.before b f hf) (fun _ => rfl)
      (fun j => congrArg (fun values : NodeValues => values.getD j none) hvalues) hrun
  · obtain ⟨old, hold, hle⟩ := hedges (t, along) (hsentEdges ▸ halong)
    obtain ⟨f', hf', hle'⟩ := h.edge_under hsteps hempty hold
    exact ⟨f', hf', h.lawful.trans hle hle'⟩

end UnitAnalysis

end FlowTyping
