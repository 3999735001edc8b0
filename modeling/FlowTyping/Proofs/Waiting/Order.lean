import FlowTyping.Proofs.Graph.Postorder
import FlowTyping.Proofs.Waiting.Graph

/-!
Where operands are computed. The block of an operand of another block comes before it in
reverse postorder, if it can be reached, and was entered earlier in any case.
-/

namespace FlowTyping

/-- What runs up to a node of a block, and what the node reads. -/
theorem Runs.split {nodes : Array Node} {before pre post waiting : List NodeId} {k : NodeId}
    (h : Runs nodes before (pre ++ k :: post) waiting) :
    ∃ held n, Runs nodes before pre held ∧ nodes[k]? = some n ∧
      (∀ o ∈ n.kind.direct, o ∈ before ∨ o ∈ pre) ∧
      (n.kind.setsLocal = false → ∀ o ∈ n.kind.direct, o ∈ held) := by
  generalize hdone : pre ++ k :: post = done at h
  induction h generalizing post with
  | nil => simp at hdone
  | @snoc done waiting id n hruns hn hdirect hwaits ih =>
      rcases List.eq_nil_or_concat post with rfl | ⟨post', id', rfl⟩
      · obtain ⟨rfl, hk⟩ := List.append_inj' hdone rfl
        cases hk
        exact ⟨waiting, n, hruns, hn, hdirect, hwaits⟩
      · rw [List.concat_eq_append, ← List.cons_append, ← List.append_assoc] at hdone
        exact ih (List.append_inj' hdone rfl).1

namespace Timetable

open Relation

variable {g : FlowGraph} {T : Timetable} {a b p : BlockId} {o x : NodeId}

theorem mem_successors_of_leads (h : Leads g.piece? a b) : b ∈ g.successors a := by
  obtain ⟨c, hc, hb⟩ := h
  obtain ⟨block, hblock, rfl⟩ := Option.map_eq_some_iff.mp hc
  exact FlowGraph.mem_successors.mpr ⟨block, hblock, BlockKind.mem_successors.mpr (.inl hb)⟩

theorem Has.waits_or_home (h : T.Has g.piece? p o) : o ∈ T.waits p ∨ g.Home o p := by
  refine h.imp_right fun ⟨c, hc, ho⟩ => ?_
  obtain ⟨block, hblock, rfl⟩ := Option.map_eq_some_iff.mp hc
  exact ⟨block, hblock, ho⟩

namespace Fits

variable (hT : T.Fits g.nodes g.piece?)

include hT

/-- Nothing is raised where something waits. -/
theorem leads_of_edge (hedge : b ∈ g.successors a) (hne : T.waits b ≠ []) :
    Leads g.piece? a b := by
  obtain ⟨block, hblock, hb⟩ := FlowGraph.mem_successors.mp hedge
  have hpiece : g.piece? a = some block.piece := congrArg (Option.map Block.piece) hblock
  rcases BlockKind.mem_successors.mp hb with hb | hb
  · exact ⟨_, hpiece, hb⟩
  · exact absurd (hT.raised hpiece b hb) hne

/-- Along a path in reverse postorder a value that waits at the end was computed on the way,
or it waited at the start. -/
theorem trail (h : g.Ascends a b) (ho : o ∈ T.waits b) :
    (∃ m, g.Home o m ∧ g.Ascends a m ∧ g.rank m < g.rank b) ∨
      o ∈ T.waits a ∧ (T.entered a).time ≤ (T.entered b).time := by
  induction h with
  | refl => exact .inr ⟨ho, Nat.le_refl _⟩
  | @tail b' b hpath hedge ih =>
      obtain ⟨hedge, hrank⟩ := hedge
      have hne := List.ne_nil_of_mem ho
      have hleads := hT.leads_of_edge hedge hne
      have htime := hT.time_lt hleads hne
      rcases (hT.has_of_leads hleads ho).waits_or_home with hwaits | hhome
      · rcases ih hwaits with ⟨m, hm, hpath', hlt⟩ | ⟨hstart, hle⟩
        · exact .inl ⟨m, hm, hpath', Nat.lt_trans hlt hrank⟩
        · exact .inr ⟨hstart, Nat.le_of_lt (Nat.lt_of_le_of_lt hle htime)⟩
      · exact .inl ⟨b', hhome, hpath, hrank⟩

/-- A value that waits in a block was computed in one that was entered earlier. -/
theorem home_earlier {b : BlockId} (ho : o ∈ T.waits b) :
    ∃ m, g.Home o m ∧ (T.entered m).time < (T.entered b).time := by
  have hne := List.ne_nil_of_mem ho
  obtain ⟨p, hp⟩ := hT.linked hne
  have htime := hT.time_lt hp hne
  rcases (hT.has_of_leads hp ho).waits_or_home with hwaits | hhome
  · obtain ⟨m, hm, hlt⟩ := home_earlier hwaits
    exact ⟨m, hm, Nat.lt_trans hlt htime⟩
  · exact ⟨p, hhome, htime⟩
termination_by (T.entered b).time

/-- A block that has a value can be reached if the block of the value can. -/
theorem reaches_of_has {p m : BlockId} (hg : g.Valid) (hx : T.Has g.piece? p x)
    (hm : g.Home x m) (hreach : g.Reaches m) : g.Reaches p := by
  rcases hx.waits_or_home with hwaits | hhome
  · have hne := List.ne_nil_of_mem hwaits
    obtain ⟨q, hq⟩ := hT.linked hne
    have htime := hT.time_lt hq hne
    have hbefore := reaches_of_has hg (hT.has_of_leads hq hwaits) hm hreach
    exact hbefore.tail (mem_successors_of_leads hq)
  · exact hg.home_unique hm hhome ▸ hreach
termination_by (T.entered p).time

variable (hg : g.Valid) (hentry : T.waits g.entry = [])

include hg hentry

/-- A value that waits in a block that can be reached was computed in one before it in
reverse postorder. -/
theorem home_before (hb : g.Reaches b) (ho : o ∈ T.waits b) :
    ∃ m, g.Home o m ∧ g.Reaches m ∧ g.rank m < g.rank b := by
  rcases hT.trail (hg.ascends hb) ho with ⟨m, hm, hpath, hlt⟩ | ⟨hstart, -⟩
  · exact ⟨m, hm, FlowGraph.Ascends.reaches hpath .refl, hlt⟩
  · rw [hentry] at hstart
    cases hstart

/-- No edge leads back to where something waits. -/
theorem rank_lt (ha : g.Reaches a) (hleads : Leads g.piece? a b) (hne : T.waits b ≠ []) :
    g.rank a < g.rank b := by
  by_contra hle
  have hedge := mem_successors_of_leads hleads
  obtain ⟨o, ho⟩ := List.exists_mem_of_ne_nil _ hne
  obtain ⟨m, hm, -, hlt⟩ := hT.home_before hg hentry (ha.tail hedge) ho
  have hback := hg.ascends_back ha hedge (Nat.not_lt.mp hle)
  rcases (hT.has_of_leads hleads ho).waits_or_home with hwaits | hhome
  · rcases hT.trail hback hwaits with ⟨m', hm', hpath, -⟩ | ⟨-, htime⟩
    · -- The value is computed once, but the path would pass it before and after the target.
      obtain rfl := hg.home_unique hm hm'
      exact absurd hlt (Nat.not_lt.mpr hpath.rank_le)
    · exact absurd (hT.time_lt hleads hne) (Nat.not_lt.mpr htime)
  · obtain rfl := hg.home_unique hm hhome
    exact hle hlt

/-- An operand of a node is computed earlier in its block, or in a block entered earlier,
which comes before it in reverse postorder if the node can be reached. -/
theorem operand_source {block : Block} {pre post : List NodeId} {k : NodeId} {n : Node}
    (hblock : g.block? b = some block) (hnodes : block.nodes = pre ++ k :: post)
    (hn : g.node? k = some n) (ho : o ∈ n.kind.operands) :
    o ∈ pre ∨ ∃ m, g.Home o m ∧ (T.entered m).time < (T.entered b).time ∧
      (g.Reaches b → g.Reaches m ∧ g.rank m < g.rank b) := by
  have hpiece : g.piece? b = some block.piece := congrArg (Option.map Block.piece) hblock
  have hwaiting : o ∈ T.waits b → ∃ m, g.Home o m ∧
      (T.entered m).time < (T.entered b).time ∧
      (g.Reaches b → g.Reaches m ∧ g.rank m < g.rank b) := by
    intro hwaits
    obtain ⟨m, hm, htime⟩ := hT.home_earlier hwaits
    refine ⟨m, hm, htime, fun hb => ?_⟩
    obtain ⟨m', hm', hreach, hlt⟩ := hT.home_before hg hentry hb hwaits
    obtain rfl := hg.home_unique hm hm'
    exact ⟨hreach, hlt⟩
  rcases NodeKind.mem_operands.mp ho with ho | ho
  · obtain ⟨waiting, hruns, -⟩ := hT.runs hpiece
    have hruns : Runs g.nodes (T.waits b) (pre ++ k :: post) waiting := hnodes ▸ hruns
    obtain ⟨held, n', -, hn', hdirect, -⟩ := hruns.split
    cases hn.symm.trans hn'
    rcases hdirect o ho with hwaits | hpre
    · exact .inr (hwaiting hwaits)
    · exact .inl hpre
  · have hk : k ∈ block.piece.nodes := by
      show k ∈ block.nodes
      simp [hnodes]
    obtain ⟨p, hp, hhas, x, hx, hshared⟩ := hT.arms hpiece k hk n hn o ho
    have hne := List.ne_nil_of_mem hx
    have htime := hT.time_lt hp hne
    have hrank : g.Reaches b → g.Reaches p ∧ g.rank p < g.rank b := by
      intro hb
      obtain ⟨m, hm, hreach, -⟩ := hT.home_before hg hentry hb hx
      have hp' := hT.reaches_of_has hg hshared hm hreach
      exact ⟨hp', hT.rank_lt hg hentry hp' hp hne⟩
    refine .inr ?_
    rcases hhas.waits_or_home with hwaits | hhome
    · obtain ⟨m, hm, hearlier⟩ := hT.home_earlier hwaits
      refine ⟨m, hm, Nat.lt_trans hearlier htime, fun hb => ?_⟩
      obtain ⟨hreach, hlt⟩ := hrank hb
      obtain ⟨m', hm', hreach', hlt'⟩ := hT.home_before hg hentry hreach hwaits
      obtain rfl := hg.home_unique hm hm'
      exact ⟨hreach', Nat.lt_trans hlt' hlt⟩
    · exact ⟨p, hhome, htime, hrank⟩

end Fits

end Timetable

/-!
What is evaluated between an operand and the node that reads it. On every path only values
of the same expression are, and no effect of a statement.
-/

namespace FlowGraph

/-- From a point of a block, with some nodes of it still to come, some nodes are evaluated
and another one is next. -/
inductive Evaluates (g : FlowGraph) (n : NodeId) :
    BlockId → List NodeId → List NodeId → Prop where
  | next {b : BlockId} {rest : List NodeId} : Evaluates g n b (n :: rest) []
  | node {b : BlockId} {k : NodeId} {rest trace : List NodeId} :
      Evaluates g n b rest trace → Evaluates g n b (k :: rest) (k :: trace)
  | edge {b t : BlockId} {block : Block} {trace : List NodeId} : t ∈ g.successors b →
      g.block? t = some block → Evaluates g n t block.nodes trace → Evaluates g n b [] trace

/-- A path leads from one node to another. The nodes between them are listed as they are
evaluated. -/
def Path (g : FlowGraph) (m : NodeId) (trace : List NodeId) (n : NodeId) : Prop :=
  ∃ b block pre post, g.block? b = some block ∧ block.nodes = pre ++ m :: post ∧
    g.Evaluates n b post trace

end FlowGraph

theorem Runs.of_snoc {nodes : Array Node} {before done waiting : List NodeId} {k : NodeId}
    (h : Runs nodes before (done ++ [k]) waiting) :
    ∃ held n, Runs nodes before done held ∧ nodes[k]? = some n ∧
      waiting = if n.kind.isEffect then [] else k :: held := by
  generalize hall : done ++ [k] = all at h
  cases h with
  | nil => simp at hall
  | snoc hruns hn hdirect hwaits =>
      obtain ⟨rfl, hk⟩ := List.append_inj' hall rfl
      cases hk
      exact ⟨_, _, hruns, hn, rfl⟩

namespace Timetable

variable {g : FlowGraph} {T : Timetable} {m n : NodeId} {node : Node} {b : BlockId}
  {block : Block} {pre rest trace : List NodeId}

namespace Fits

/-- While a value waits, the nodes evaluated come after it and are values too. -/
theorem evaluates (hT : T.Fits g.nodes g.piece?) (ho : g.Ordered) (hn : g.node? n = some node)
    (hm : m ∈ node.kind.direct) (hlocal : node.kind.setsLocal = false)
    (h : g.Evaluates n b rest trace) (hfresh : m ∉ trace) (hblock : g.block? b = some block)
    (hnodes : block.nodes = pre ++ rest) :
    (∃ held, Runs g.nodes (T.waits b) pre held ∧ m ∈ held) ∧
      ((T.entered b).start ≤ n ∧ ∀ k ∈ pre, k < n) ∧
      ∀ k ∈ trace, m < k ∧ k < n ∧ ∃ n', g.node? k = some n' ∧ n'.kind.isEffect = false := by
  have hpiece {b : BlockId} {block : Block} (hblock : g.block? b = some block) :
      g.piece? b = some block.piece := congrArg (Option.map Block.piece) hblock
  induction h generalizing block pre with
  | @next b rest =>
      obtain ⟨waiting, hruns, -⟩ := hT.runs (hpiece hblock)
      have hruns : Runs g.nodes (T.waits b) (pre ++ n :: rest) waiting := hnodes ▸ hruns
      obtain ⟨held, node', hheld, hn', -, hwaits⟩ := hruns.split
      cases hn.symm.trans hn'
      refine ⟨⟨held, hheld, hwaits hlocal m hm⟩, ⟨?_, ?_⟩, List.forall_mem_nil _⟩
      · apply hT.after (hpiece hblock)
        show n ∈ block.nodes
        simp [hnodes]
      · intro k hk
        have hascending := ho.ascending hblock
        rw [hnodes] at hascending
        exact (List.pairwise_append.mp hascending).2.2 k hk n List.mem_cons_self
  | @node b k rest trace _ ih =>
      rw [List.mem_cons, not_or] at hfresh
      have hsplit : block.nodes = (pre ++ [k]) ++ rest := by simp [hnodes]
      obtain ⟨⟨held, hruns, hheld⟩, ⟨hstart, hbelow⟩, htrace⟩ := ih hfresh.2 hblock hsplit
      obtain ⟨held', n', hruns', hn', rfl⟩ := hruns.of_snoc
      split at hheld
      · cases hheld
      rename_i heffect
      have hwaits : m ∈ held' := (List.mem_cons.mp hheld).resolve_left hfresh.1
      refine ⟨⟨held', hruns', hwaits⟩, ⟨hstart, ?_⟩, ?_⟩
      · intro j hj
        exact hbelow j (List.mem_append_left _ hj)
      · refine List.forall_mem_cons.mpr ⟨⟨?_, ?_, n', hn', by simpa using heffect⟩, htrace⟩
        · -- The value waited since before the block, or it was computed earlier in it.
          rcases hruns'.waiting_sub hwaits with hbefore | hpre
          · refine Nat.lt_of_lt_of_le (hT.before m hbefore) (hT.after (hpiece hblock) k ?_)
            show k ∈ block.nodes
            simp [hnodes]
          · have hascending := ho.ascending hblock
            rw [hnodes] at hascending
            exact (List.pairwise_append.mp hascending).2.2 m hpre k List.mem_cons_self
        · exact hbelow k (List.mem_append_right _ List.mem_cons_self)
  | @edge b t block' trace hedge hblock' _ ih =>
      obtain ⟨⟨held, hruns, hheld⟩, ⟨hstart, -⟩, htrace⟩ :=
        ih hfresh hblock' (List.nil_append _).symm
      cases hruns.unique .nil rfl
      have hne := List.ne_nil_of_mem hheld
      obtain ⟨c, hc, honward⟩ := hT.leads_of_edge hedge hne
      cases (hpiece hblock).symm.trans hc
      obtain ⟨waiting, hruns, honwards⟩ := hT.runs hc
      obtain ⟨hwaiting, hprecedes⟩ := honwards t honward
      have hprecedes := hprecedes hne
      have hpre : block.nodes = pre := by simpa using hnodes
      subst hpre
      refine ⟨⟨waiting, hruns, hwaiting m hheld⟩, ⟨?_, ?_⟩, htrace⟩
      · exact Nat.le_trans hprecedes.start hstart
      · intro k hk
        exact Nat.lt_of_lt_of_le (hprecedes.nodes k hk) hstart

/-- On a path from an operand to its reader that does not compute the operand again, the
nodes between them come between them in node order as well, and none is an effect. -/
theorem between (hT : T.Fits g.nodes g.piece?) (ho : g.Ordered) (hn : g.node? n = some node)
    (hm : m ∈ node.kind.direct) (hlocal : node.kind.setsLocal = false)
    (h : g.Path m trace n) (hfresh : m ∉ trace) :
    ∀ k ∈ trace, m < k ∧ k < n ∧ ∃ n', g.node? k = some n' ∧ n'.kind.isEffect = false := by
  obtain ⟨b, block, pre, post, hblock, hnodes, heval⟩ := h
  have hnodes : block.nodes = (pre ++ [m]) ++ post := by simp [hnodes]
  exact (hT.evaluates ho hn hm hlocal heval hfresh hblock hnodes).2.2

end Fits

end Timetable

end FlowTyping
