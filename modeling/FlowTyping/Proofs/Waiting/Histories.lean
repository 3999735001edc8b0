import FlowTyping.Proofs.Waiting.Order

/-!
What happens on the paths from the entry of a graph: nodes are evaluated, and tests lead on to
one of two blocks. A value that waits in a block was evaluated on every path to it, and it has
waited in every block entered since.
-/

namespace FlowTyping

/-- A node is evaluated, or a test of a value leads on to a block. -/
inductive PathEvent where
  | value (id : NodeId)
  | outcome (condition : NodeId) (holds : Bool) (target : BlockId)
  deriving DecidableEq, Repr

/-- What happens in a block until control leaves it for another one. Where something is raised,
the node that raises may count as evaluated or not. -/
def Block.exits (block : Block) : List (List PathEvent × BlockId) :=
  let events := block.nodes.map PathEvent.value
  match block.kind with
  | .regular successor => [(events, successor)]
  | .conditional condition thenSuccessor elseSuccessor =>
      [(events ++ [.outcome condition true thenSuccessor], thenSuccessor),
        (events ++ [.outcome condition false elseSuccessor], elseSuccessor)]
  | .exceptional successor handlers =>
      successor.toList.map (events, ·) ++
        handlers.flatMap fun handler => [([], handler.2), (events, handler.2)]
  | .special _ successor => successor.toList.map (events, ·)

namespace FlowGraph

/-- A path from the entry comes to a block after some events. -/
inductive Arrives (g : FlowGraph) : BlockId → List PathEvent → Prop
  | entry : Arrives g g.entry []
  | step {b t : BlockId} {block : Block} {past events : List PathEvent} : Arrives g b past →
      g.block? b = some block → (events, t) ∈ block.exits → Arrives g t (past ++ events)

/-- A path from the entry comes to a node after some events. -/
def Before (g : FlowGraph) (id : NodeId) (past : List PathEvent) : Prop :=
  ∃ b block pre post arrival, g.block? b = some block ∧ block.nodes = pre ++ id :: post ∧
    g.Arrives b arrival ∧ past = arrival ++ pre.map .value

end FlowGraph

namespace Block

variable {block : Block} {events : List PathEvent} {t : BlockId} {k : NodeId}

theorem mem_exits_test {c : NodeId} {t' e' : BlockId} (hkind : block.kind = .conditional c t' e')
    (h : (events, t) ∈ block.exits) : ∃ holds, t = (if holds then t' else e') ∧
      events = block.nodes.map .value ++ [.outcome c holds t] := by
  unfold exits at h
  simp only [hkind, List.mem_cons, List.not_mem_nil, or_false, Prod.mk.injEq] at h
  rcases h with ⟨rfl, rfl⟩ | ⟨rfl, rfl⟩
  · exact ⟨true, rfl, rfl⟩
  · exact ⟨false, rfl, rfl⟩

/-- Control leaves a block because something is raised, or after a test, or after its nodes. -/
theorem mem_exits (h : (events, t) ∈ block.exits) : t ∈ block.kind.raised ∨
    (∃ c holds t' e', block.kind = .conditional c t' e' ∧ t = (if holds then t' else e') ∧
      events = block.nodes.map .value ++ [.outcome c holds t]) ∨
    t ∈ block.kind.onward ∧ events = block.nodes.map .value := by
  cases hkind : block.kind with
  | conditional c t' e' =>
      obtain ⟨holds, ht, hevents⟩ := mem_exits_test hkind h
      exact .inr (.inl ⟨c, holds, t', e', rfl, ht, hevents⟩)
  | regular successor => simp_all [exits, BlockKind.onward]
  | exceptional successor handlers =>
      simp only [exits, hkind, List.mem_append, List.mem_map, List.mem_flatMap, List.mem_cons,
        List.not_mem_nil, or_false, Prod.mk.injEq] at h
      rcases h with ⟨s, hs, rfl, rfl⟩ | ⟨handler, hhandler, ⟨rfl, rfl⟩ | ⟨rfl, rfl⟩⟩
      · exact .inr (.inr ⟨hs, rfl⟩)
      · exact .inl (List.mem_map_of_mem hhandler)
      · exact .inl (List.mem_map_of_mem hhandler)
  | special kind successor =>
      simp only [exits, hkind, List.mem_map, Prod.mk.injEq] at h
      obtain ⟨s, hs, rfl, rfl⟩ := h
      exact .inr (.inr ⟨hs, rfl⟩)

end Block

namespace Timetable

variable {g : FlowGraph} {T : Timetable} {a b q t : BlockId} {o k : NodeId} {block : Block}
  {events past later : List PathEvent}

/-- Control goes from one block to another, and a value waits in every block that it enters. -/
inductive Carries (T : Timetable) (g : FlowGraph) (o : NodeId) :
    BlockId → BlockId → List PathEvent → Prop
  | stay {b : BlockId} : Carries T g o b b []
  | step {a t b : BlockId} {block : Block} {events later : List PathEvent} :
      g.block? a = some block → (events, t) ∈ block.exits → o ∈ T.waits t →
      Carries T g o t b later → Carries T g o a b (events ++ later)

namespace Carries

theorem snoc (h : T.Carries g o a b later) (hblock : g.block? b = some block)
    (hexit : (events, t) ∈ block.exits) (ho : o ∈ T.waits t) :
    T.Carries g o a t (later ++ events) := by
  induction h with
  | stay => simpa using step hblock hexit ho stay
  | step hfirst hnext hwaits _ ih =>
      rw [List.append_assoc]
      exact step hfirst hnext hwaits (ih hblock)

/-- The last block before the end, if the end is not the start. -/
theorem cases_last (h : T.Carries g o a b later) : (a = b ∧ later = []) ∨
    ∃ p block events before, T.Carries g o a p before ∧ g.block? p = some block ∧
      (events, b) ∈ block.exits ∧ o ∈ T.waits b ∧ later = before ++ events := by
  induction h with
  | stay => exact .inl ⟨rfl, rfl⟩
  | @step a t b block events later hblock hexit ho _ ih =>
      right
      rcases ih with ⟨rfl, rfl⟩ | ⟨p, block', events', before, hbefore, hp, hexit', ho', rfl⟩
      · exact ⟨a, block, events, [], stay, hblock, hexit, ho, by simp⟩
      · exact ⟨p, block', events', events ++ before, step hblock hexit ho hbefore, hp, hexit',
          ho', by simp⟩

end Carries

namespace Fits

variable (hT : T.Fits g.nodes g.piece?) (hg : g.Valid)

include hT hg

/-- Control comes to where something waits after the nodes of a block or after a test. -/
theorem of_exit (hblock : g.block? b = some block) (hexit : (events, t) ∈ block.exits)
    (hne : T.waits t ≠ []) : Leads g.piece? b t ∧ (events = block.nodes.map .value ∨
      ∃ c holds t' e', block.kind = .conditional c t' e' ∧ t = (if holds then t' else e') ∧
        events = [.outcome c holds t]) := by
  have hpiece : g.piece? b = some block.piece := congrArg (Option.map Block.piece) hblock
  rcases Block.mem_exits hexit with ht | ⟨c, holds, t', e', hkind, ht, hevents⟩ | ⟨ht, hevents⟩
  · exact absurd (hT.raised hpiece t ht) hne
  · obtain ⟨hnodes, -⟩ := hg.tested hblock hkind
    have honward : t ∈ block.kind.onward := by
      rw [hkind, ht]
      cases holds <;> simp [BlockKind.onward]
    refine ⟨⟨_, hpiece, honward⟩, .inr ⟨c, holds, t', e', hkind, ht, ?_⟩⟩
    rwa [hnodes] at hevents
  · exact ⟨⟨_, hpiece, ht⟩, .inl hevents⟩

theorem mem_nodes_of_exit (hblock : g.block? b = some block)
    (hexit : (events, t) ∈ block.exits) (hne : T.waits t ≠ []) (hk : .value k ∈ events) :
    k ∈ block.nodes := by
  obtain ⟨-, rfl | ⟨c, holds, t', e', -, -, rfl⟩⟩ := hT.of_exit hg hblock hexit hne
  · simpa using hk
  · simp at hk

/-- Blocks in which a value waits are entered one after the other. -/
theorem time_of_carries (h : T.Carries g o a b later) :
    (a = b ∧ later = []) ∨ (T.entered a).time < (T.entered b).time := by
  induction h with
  | stay => exact .inl ⟨rfl, rfl⟩
  | step hblock hexit ho _ ih =>
      have hne := List.ne_nil_of_mem ho
      have htime := hT.time_lt (hT.of_exit hg hblock hexit hne).1 hne
      rcases ih with ⟨rfl, -⟩ | hlt
      · exact .inr htime
      · exact .inr (Nat.lt_trans htime hlt)

/-- A node evaluated on the way belongs to a block on the way. -/
theorem home_of_carries (h : T.Carries g o a b later) (hk : .value k ∈ later) :
    ∃ p t before after, g.Home k p ∧ T.Carries g o a p before ∧ Leads g.piece? p t ∧
      o ∈ T.waits t ∧ T.Carries g o t b after := by
  induction h with
  | stay => cases hk
  | @step a t b block events later hblock hexit ho hrest ih =>
      rcases List.mem_append.mp hk with hk | hk
      · have hne := List.ne_nil_of_mem ho
        exact ⟨a, t, [], later, ⟨block, hblock, hT.mem_nodes_of_exit hg hblock hexit hne hk⟩,
          .stay, (hT.of_exit hg hblock hexit hne).1, ho, hrest⟩
      · obtain ⟨p, t', before, after, hhome, hbefore, hleads, ho', hafter⟩ := ih hk
        exact ⟨p, t', events ++ before, after, hhome, .step hblock hexit ho hbefore, hleads, ho',
          hafter⟩

/-- A value that waits at the end of a path was evaluated in some block, and has waited in
every block entered since. -/
theorem since (hentry : T.waits g.entry = []) (h : g.Arrives b past) (ho : o ∈ T.waits b) :
    ∃ q block events t arrival later, g.block? q = some block ∧ o ∈ block.nodes ∧
      (events, t) ∈ block.exits ∧ o ∈ T.waits t ∧ T.Carries g o t b later ∧
      past = arrival ++ (events ++ later) := by
  induction h with
  | entry =>
      rw [hentry] at ho
      cases ho
  | @step q t block past events _ hblock hexit ih =>
      have hleads := (hT.of_exit hg hblock hexit (List.ne_nil_of_mem ho)).1
      rcases hT.has_of_leads hleads ho with hwaits | ⟨c, hc, hin⟩
      · obtain ⟨q', block', events', t', arrival, later, hq, hin, hexit', ho', hcarries, rfl⟩ :=
          ih hwaits
        exact ⟨q', block', events', t', arrival, later ++ events, hq, hin, hexit', ho',
          hcarries.snoc hblock hexit ho, by simp⟩
      · obtain ⟨block', hblock', rfl⟩ := Option.map_eq_some_iff.mp hc
        cases hblock.symm.trans hblock'
        exact ⟨q, block, events, t, past, [], hblock, hin, hexit, ho, .stay, by simp⟩

/-- The last evaluation of a value that waits at the end of a path. -/
theorem last_value (hordered : g.Ordered) (hentry : T.waits g.entry = [])
    (h : g.Arrives b past) (ho : o ∈ T.waits b) :
    ∃ q block pre post t before later, g.block? q = some block ∧
      block.nodes = pre ++ o :: post ∧ (block.nodes.map .value, t) ∈ block.exits ∧
      o ∈ T.waits t ∧ T.Carries g o t b later ∧
      past = before ++ .value o :: (post.map .value ++ later) ∧
      .value o ∉ post.map .value ++ later := by
  obtain ⟨q, block, events, t, arrival, later, hblock, hin, hexit, hwaits, hcarries, rfl⟩ :=
    hT.since hg hentry h ho
  have hne := List.ne_nil_of_mem hwaits
  obtain ⟨hleads, hevents⟩ := hT.of_exit hg hblock hexit hne
  obtain ⟨pre, post, hnodes⟩ := List.append_of_mem hin
  obtain rfl : events = block.nodes.map .value := by
    rcases hevents with h | ⟨c, holds, t', e', hkind, -, -⟩
    · exact h
    · rw [(hg.tested hblock hkind).1] at hin
      cases hin
  refine ⟨q, block, pre, post, t, arrival ++ pre.map .value, later, hblock, hnodes, hexit,
    hwaits, hcarries, by simp [hnodes], fun hmem => ?_⟩
  rcases List.mem_append.mp hmem with hpost | hlater
  · obtain ⟨k, hk, heq⟩ := List.mem_map.mp hpost
    cases heq
    have hascending := hordered.ascending hblock
    rw [hnodes] at hascending
    have hlt := (List.pairwise_cons.mp (List.pairwise_append.mp hascending).2.1).1 o hk
    exact Nat.lt_irrefl _ hlt
  · -- The blocks entered since then are others.
    obtain ⟨p, _, before, _, hhome, hbefore, -⟩ := hT.home_of_carries hg hcarries hlater
    obtain rfl := hg.home_unique ⟨block, hblock, hin⟩ hhome
    have hlt := hT.time_lt hleads hne
    rcases hT.time_of_carries hg hbefore with ⟨rfl, -⟩ | hlt'
    · exact Nat.lt_irrefl _ hlt
    · exact Nat.lt_asymm hlt hlt'

/-- A value that waits has been evaluated. -/
theorem evaluated (hentry : T.waits g.entry = []) (h : g.Arrives b past) (ho : o ∈ T.waits b) :
    .value o ∈ past := by
  obtain ⟨q, block, events, t, arrival, later, hblock, hin, hexit, hwaits, -, rfl⟩ :=
    hT.since hg hentry h ho
  have hevents : .value o ∈ events := by
    rcases (hT.of_exit hg hblock hexit (List.ne_nil_of_mem hwaits)).2 with
      rfl | ⟨c, holds, t', e', hkind, -, -⟩
    · exact List.mem_map_of_mem hin
    · rw [(hg.tested hblock hkind).1] at hin
      cases hin
  simp [hevents]

/-- What every path to a node computes for it has been evaluated. -/
theorem direct_evaluated (hentry : T.waits g.entry = []) {id : NodeId} {n : Node}
    (hn : g.node? id = some n) (h : g.Before id past) (ho : o ∈ n.kind.direct) :
    .value o ∈ past := by
  obtain ⟨b, block, pre, post, arrival, hblock, hnodes, harrival, rfl⟩ := h
  obtain ⟨waiting, hruns, -⟩ := hT.runs (congrArg (Option.map Block.piece) hblock)
  have hruns : Runs g.nodes (T.waits b) (pre ++ id :: post) waiting := hnodes ▸ hruns
  obtain ⟨held, n', -, hn', hdirect, -⟩ := hruns.split
  cases hn.symm.trans hn'
  rcases hdirect o ho with hwaits | hpre
  · exact List.mem_append_left _ (hT.evaluated hg hentry harrival hwaits)
  · exact List.mem_append_right _ (List.mem_map_of_mem hpre)

end Fits

end Timetable

end FlowTyping

/-!
Where the values of a graph come from. Each is that of an expression of the source, whose code
is listed in the blocks of the graph, and control comes to a merge node only from its operands.
-/

namespace FlowTyping

open Build Layout

namespace GraphParts

/-- What is known of the nodes and blocks of a graph. -/
def listing (p : GraphParts) : Listing where
  node id kind := ∃ n : Node, p.nodes[id]? = some n ∧ n.kind = kind
  starts i first := ∃ block : Block, p.blocks[i]? = some block ∧ block.nodes.head? = some first
  tests i id t e := ∃ block : Block, p.blocks[i]? = some block ∧ block.kind = .conditional id t e
  raises id categories := ∃ (i : BlockId) (block : Block) (successor : Option BlockId)
    (handlers : List (String × BlockId)), p.blocks[i]? = some block ∧ block.nodes = [id] ∧
      block.kind = .exceptional successor handlers ∧ handlers.map Prod.fst = categories

/-- The node is the last one of a block. -/
def EndsWith (p : GraphParts) (i : BlockId) (id : NodeId) : Prop :=
  ∃ block : Block, p.blocks[i]? = some block ∧ block.lastNode? = some id

end GraphParts

theorem GraphParts.listing_node_unique {p : GraphParts} {id : NodeId} {kind kind' : NodeKind}
    (h : p.listing.node id kind) (h' : p.listing.node id kind') : kind = kind' := by
  obtain ⟨n, hn, rfl⟩ := h
  obtain ⟨n', hn', rfl⟩ := h'
  cases hn.symm.trans hn'
  rfl

/-- The value of an expression is a node without arms, which calls what the expression calls,
or the expression is a short-circuit operation or a ternary one. -/
theorem Expr.value_cases {L : Listing} {e : Expr} {first id : NodeId}
    (h : e.code.value L first id) : (∃ kind, L.node id kind ∧ kind.arms = [] ∧
        ∀ r method as, kind = .call r method as →
          ∃ receiver args throws, e = .call receiver method args throws) ∨
      (∃ op lhs rhs, e = .binary op lhs rhs ∧
        (Code.shortCircuit op lhs.code rhs.code).value L first id) ∨
      ∃ condition thenValue elseValue, e = .ternary condition thenValue elseValue := by
  cases e with
  | binary op lhs rhs =>
      rw [Expr.code] at h
      split at h
      · exact .inr (.inl ⟨op, lhs, rhs, rfl, h⟩)
      · obtain ⟨_, _, _, _, hnode⟩ := h
        exact .inl ⟨_, hnode, rfl, by simp⟩
  | ternary condition thenValue elseValue =>
      exact .inr (.inr ⟨condition, thenValue, elseValue, rfl⟩)
  | unary =>
      rw [Expr.code] at h
      split at h <;>
      · obtain ⟨_, _, _, _, hnode⟩ := h
        exact .inl ⟨_, hnode, rfl, by simp⟩
  | literal | this => exact .inl ⟨_, h.2, rfl, by simp⟩
  | var =>
      obtain ⟨-, x, -, hnode⟩ := h
      exact .inl ⟨_, hnode, rfl, by simp⟩
  | field | cast =>
      obtain ⟨_, _, _, _, hnode⟩ := h
      exact .inl ⟨_, hnode, rfl, by simp⟩
  | new =>
      obtain ⟨_, _, _, _, hnode, -⟩ := h
      exact .inl ⟨_, hnode, rfl, by simp⟩
  | call receiver m args throws =>
      obtain ⟨_, _, _, _, hnode, -⟩ := h
      refine .inl ⟨_, hnode, rfl, fun r method as hkind => ?_⟩
      cases hkind
      exact ⟨receiver, args, throws, rfl⟩

/-- Every value in a block is that of an expression, and the ways to it are known if it is that
of a merge node. -/
def Timetable.Sourced (T : Timetable) (U : Expr → Prop) (p : GraphParts) : Prop :=
  ∀ {i : BlockId} {c : Piece}, p.piece? i = some c → ∀ k ∈ c.nodes, ∀ n, p.nodes[k]? = some n →
    n.kind.isEffect = false → ∃ e first, U e ∧ e.code.value p.listing first k ∧
      Joins p.listing (Leads p.piece?) p.EndsWith i (T.waits i) first n.kind

theorem Compaction.Chain.cases_last {drafts : Array Draft} {flags : Array Bool} {a n c : Nat}
    (h : Chain drafts flags a n c) : a = c ∨ ∃ p : Nat, drafts[p]? = some ⟨[], .goto c⟩ := by
  induction h with
  | stop => exact .inl rfl
  | @skip a _ _ _ _ hnext _ ih =>
      rcases ih with rfl | h
      · exact .inr ⟨a, goto_of_forwardOf hnext⟩
      · exact .inr h

namespace Building

variable {U : Expr → Prop} {b : Building} {G : Stages} {name : String} {i p t : Nat} {d : Draft}

theorem keeps_of_ne_goto (hd : b.drafts[i]? = some d)
    (h : ∀ t, (⟨d.nodes, d.exits.finish exitId⟩ : Draft) ≠ ⟨[], .goto t⟩) :
    Keeps b.layout.drafts i := by
  by_contra hkeeps
  obtain ⟨t, ht⟩ := goto_of_not_keeps hkeeps
  rw [layout_drafts, hd] at ht
  exact h t (Option.some.inj ht)

theorem keeps_of_node (hd : b.drafts[i]? = some d) (hnodes : d.nodes ≠ []) :
    Keeps b.layout.drafts i :=
  keeps_of_ne_goto hd fun _ heq => hnodes (congrArg Draft.nodes heq)

/-- A block of the construction that is kept is a block of the graph. -/
theorem block_of_keeps (hd : b.drafts[i]? = some d) (h : Keeps b.layout.drafts i) :
    (b.layout.parts name).blocks[Layout.rename b.layout.drafts i]? =
      some ⟨Layout.rename b.layout.drafts i, d.nodes,
        (d.exits.finish exitId).toKind (Layout.rename b.layout.drafts) exitId⟩ :=
  parts_blocks (d := { d with exits := d.exits.finish exitId })
    (by rw [layout_drafts, hd]; rfl) h

/-- What is listed in the construction is listed in the graph. -/
theorem listing_embeds (b : Building) (name : String) :
    b.listing.Embeds (Layout.rename b.layout.drafts) (b.layout.parts name).listing where
  node := by
    rintro id kind ⟨n, hn, rfl⟩
    refine ⟨{ n with block := Layout.rename b.layout.drafts n.block }, ?_, rfl⟩
    rw [Layout.parts, Array.getElem?_map]
    exact congrArg
      (Option.map fun n => { n with block := Layout.rename b.layout.drafts n.block }) hn
  starts := by
    rintro i first ⟨d, hd, hfirst⟩
    have hne : d.nodes ≠ [] := fun hnil => by simp [hnil] at hfirst
    exact ⟨_, block_of_keeps hd (keeps_of_node hd hne), hfirst⟩
  tests := by
    intro i t e id hd
    exact ⟨_, block_of_keeps hd (keeps_of_ne_goto hd (by simp [Exits.finish])), rfl⟩
  raises := by
    rintro id categories ⟨i, successor, handlers, terminal, hd, rfl⟩
    have hfinish : ∃ s t, (Exits.raise successor handlers terminal).finish exitId =
        .raise s handlers t := by
      unfold Exits.finish
      split <;> simp_all
    obtain ⟨s, t, hfinish⟩ := hfinish
    have hblock : (b.layout.parts name).blocks[Layout.rename b.layout.drafts i]? = _ :=
      block_of_keeps hd (keeps_of_node hd (List.cons_ne_nil _ _))
    rw [hfinish] at hblock
    exact ⟨_, _, _, _, hblock, rfl, rfl, by simp⟩

/-- Where control comes from in the graph, if no empty block leads on to the block. -/
theorem Staged.leads_of_parts (hg : b.Staged U G) (hw : b.layout.Whole)
    (hid : ∀ {j : Nat} {block : Block}, (b.layout.parts name).blocks[j]? = some block →
      block.id = j)
    (hi : i < b.drafts.size) (hkeeps : Keeps b.layout.drafts i) (hflat : ¬ G.Flat i)
    (hsolid : ∀ (p : Nat) (d : Draft), b.Leads p i → b.drafts[p]? = some d →
      (⟨d.nodes, d.exits.finish exitId⟩ : Draft) ≠ ⟨[], .goto i⟩) {q : BlockId}
    (hq : Timetable.Leads (b.layout.parts name).piece? q (Layout.rename b.layout.drafts i)) :
    ∃ p, b.Leads p i ∧ Layout.rename b.layout.drafts p = q := by
  obtain ⟨c, hc, hin⟩ := hq
  obtain ⟨a, d, hd, -, rfl, -, honward, -⟩ := Timetable.exists_draft hid hc
  rw [honward, Exits.onward_toKind (hw.finished a d hd)] at hin
  obtain ⟨t, ht, hrename⟩ := List.mem_map.mp hin
  -- What leads to the block in the layout leads to it in the construction.
  have hleads {p : Nat} {d : Draft} (hd : b.layout.drafts[p]? = some d)
      (hin : i ∈ d.exits.onward) : b.Leads p i := by
    obtain ⟨d₀, hd₀, rfl⟩ := exists_of_layout hd
    rcases Exits.mem_onward_finish hin with hin | rfl
    · exact ⟨d₀, hd₀, hin⟩
    · exact absurd (hg.designated exitId (by decide)) hflat
  have hlt : t < b.layout.drafts.size :=
    hw.targets a d hd t (Exits.mem_targets.mpr (.inl ht))
  have hlt' : i < b.layout.drafts.size := by simpa [layout] using hi
  obtain ⟨n, hn, c, hchain⟩ := Compaction.removableBlocks_chain b.layout.drafts t
  obtain ⟨hlast, -⟩ := hw.chain hchain hlt
  obtain rfl : c = i := rename_injective hlast hlt' hchain.kept hkeeps
    ((rename_of_chain hlt hlast hn hchain).symm.trans hrename)
  rcases hchain.cases_last with rfl | ⟨p, hp⟩
  · exact ⟨a, hleads hd ht, rfl⟩
  · have hpc := hleads hp (by simp [Exits.onward])
    obtain ⟨d₀, hd₀, -⟩ := id hpc
    rw [layout_drafts, hd₀] at hp
    exact absurd (Option.some.inj hp) (hsolid p d₀ hpc hd₀)

end Building

/-- No empty block leads on to the block of a merge node, except for a test. -/
theorem Joins.solid {b : Building} {i p : Nat} {waits : List NodeId} {first : NodeId}
    {kind : NodeKind} (h : Joins b.listing b.Leads b.EndsWith i waits first kind)
    (harms : kind.arms ≠ []) (hp : b.Leads p i) {d : Draft} (hd : b.drafts[p]? = some d) :
    (⟨d.nodes, d.exits.finish exitId⟩ : Draft) ≠ ⟨[], .goto i⟩ := by
  have hends {o : NodeId} (ho : b.EndsWith p o) : d.nodes ≠ [] := by
    obtain ⟨d', hd', hlast⟩ := ho
    cases hd.symm.trans hd'
    intro hnil
    simp [hnil] at hlast
  intro heq
  cases kind with
  | shortCircuit op l r =>
      rcases h.2.2 p hp with hr | ⟨rest, f, -, -, hdecides⟩
      · exact hends hr (congrArg Draft.nodes heq)
      · unfold Listing.decides at hdecides
        split at hdecides <;> cases hd.symm.trans hdecides <;> cases heq
  | ternaryMerge l r =>
      rcases h.2.2.2.1 p hp with hl | hr
      · exact hends hl (congrArg Draft.nodes heq)
      · exact hends hr (congrArg Draft.nodes heq)
  | _ => exact harms rfl

theorem Joins.waits_ne_nil {L : Listing} {leads : BlockId → BlockId → Prop}
    {ends : BlockId → NodeId → Prop} {i : BlockId} {waits : List NodeId} {first : NodeId}
    {kind : NodeKind} (h : Joins L leads ends i waits first kind) (harms : kind.arms ≠ []) :
    waits ≠ [] := by
  cases kind with
  | shortCircuit => exact List.ne_nil_of_mem h.1
  | ternaryMerge => exact List.ne_nil_of_mem h.1
  | _ => exact absurd rfl harms

namespace Building

variable {U : Expr → Prop} {b : Building} {G : Stages} {name : String} {i : Nat} {d : Draft}

/-- The graph keeps the ways to a merge node. -/
theorem Staged.joins (hg : b.Staged U G) (hw : b.layout.Whole)
    (hid : ∀ {j : Nat} {block : Block}, (b.layout.parts name).blocks[j]? = some block →
      block.id = j) {first : NodeId} {kind : NodeKind} (hd : b.drafts[i]? = some d)
    (hnodes : d.nodes ≠ []) (h : Joins b.listing b.Leads b.EndsWith i (G.waits i) first kind) :
    Joins (b.layout.parts name).listing (Timetable.Leads (b.layout.parts name).piece?)
      (b.layout.parts name).EndsWith (Layout.rename b.layout.drafts i) (G.waits i) first kind := by
  by_cases harms : kind.arms = []
  · exact .of_arms harms
  have hwaits := h.waits_ne_nil harms
  have hflat : ¬ G.Flat i := fun hflat => hwaits hflat.waits_eq
  have hi := (Array.getElem?_eq_some_iff.mp hd).1
  have hkeeps := keeps_of_node hd hnodes
  have hleads {p : Nat} (hp : b.Leads p i) : Keeps b.layout.drafts p := by
    obtain ⟨d', hd', hin⟩ := id hp
    refine keeps_of_ne_goto hd' fun t heq => ?_
    have hexits : d'.exits.finish exitId = .goto t := congrArg Draft.exits heq
    have hin' : i ∈ (d'.exits.finish exitId).onward :=
      Exits.onward_mono (d'.growsTo_finish exitId) hin
    rw [hexits, Exits.onward, List.mem_singleton] at hin'
    exact h.solid harms hp hd' (hin' ▸ heq)
  refine h.mono (b.listing_embeds name) (fun rest f hrest hne heq => hne ?_) (fun p hp =>
    Timetable.leads_parts hw (hleads hp) (leads_layout hp)) (fun _ q hq =>
    hg.leads_of_parts hw hid hi hkeeps hflat (fun p d' hp hd' => h.solid harms hp hd') hq)
    fun p o hp ho => ?_
  · obtain ⟨d', hd', hfirst⟩ := hrest
    have hne' : d'.nodes ≠ [] := fun hnil => by simp [hnil] at hfirst
    have hsize {j : Nat} (hj : j < b.drafts.size) : j < b.layout.drafts.size := by
      simpa [layout] using hj
    exact rename_injective (hsize (Array.getElem?_eq_some_iff.mp hd').1) (hsize hi)
      (keeps_of_node hd' hne') hkeeps heq
  · obtain ⟨d', hd', hlast⟩ := ho
    exact ⟨_, block_of_keeps hd' (hleads hp), hlast⟩

/-- Compaction keeps the sources of the values. -/
theorem Staged.sourced (hg : b.Staged U G) (hw : b.layout.Whole)
    (hid : ∀ {j : Nat} {block : Block}, (b.layout.parts name).blocks[j]? = some block →
      block.id = j) :
    (G.timetable.compact b.layout).Sourced U (b.layout.parts name) := by
  intro j c hc k hk n hn heffect
  obtain ⟨i, d, hd, hkeeps, rfl, hnodes, -⟩ := Timetable.exists_draft hid hc
  rw [hnodes] at hk
  obtain ⟨n, hold, rfl⟩ := parts_node hn
  rcases hg.layout_cases hd with ⟨d₀, e, rfl, hst, hbegun⟩ | ⟨-, rfl⟩
  · obtain ⟨x, first, hx, hvalue, hj⟩ := hbegun.values k hk n hold heffect
    rw [Timetable.compact_waits (Array.getElem?_eq_some_iff.mp hd).1 hkeeps]
    obtain ⟨d₁, hd₁, heq⟩ := exists_of_layout hd
    have hsame : d₁.nodes = d₀.nodes := (Draft.mk.inj heq).1.symm
    have hne : d₁.nodes ≠ [] := hsame ▸ List.ne_nil_of_mem hk
    exact ⟨x, first, hx, x.code_mono.value (b.listing_embeds name) hvalue,
      hg.joins hw hid hd₁ hne hj⟩
  · cases hk

end Building

/-- The graph of a unit has a timetable, and its values are those of the expressions of the
unit. -/
theorem ProgramUnit.lower_sourced {u : ProgramUnit} {g : FlowGraph} (h : u.lower = .ok g) :
    ∃ T : Timetable, T.Fits g.nodes g.piece? ∧ T.waits g.entry = [] ∧
      T.Sourced (· ∈ u.exprs) g.toGraphParts := by
  obtain ⟨b, G, hg, hw, hparts, hid⟩ := u.lower_staged h
  obtain ⟨hfits, hentry⟩ := hg.timetable hw hid
  rw [hparts]
  exact ⟨_, hfits, hentry, hg.sourced hw hid⟩

end FlowTyping
