import FlowTyping.Proofs.Drafting.Finished
import FlowTyping.Proofs.Waiting.Histories

/-!
The shape of the graphs of units. The blocks share out the nodes, raising nodes are alone in
exceptional blocks that lead on for what they raise, no regular block is empty, and each
designated block is the only one of its kind.
-/

namespace FlowTyping

open Build Layout

theorem Digraph.nodup_distinct {α : Type} [DecidableEq α] (l : List α) : (distinct l).Nodup := by
  induction l with
  | nil => exact List.nodup_nil
  | cons a rest ih => exact List.nodup_cons.mpr ⟨by simp, ih.filter _⟩

namespace FlowGraph

/-- The block is of a special kind. -/
def IsSpecial (g : FlowGraph) (kind : SpecialKind) (i : BlockId) : Prop :=
  ∃ block successor, g.block? i = some block ∧ block.kind = .special kind successor

/-- How control leaves a node that may raise: whether it completes, and the categories that it
may raise. Those of a call are declared in the source. -/
def Leaves (g : FlowGraph) (u : ProgramUnit) (id : NodeId) (successor : Option BlockId)
    (categories : List String) : NodeKind → Prop
  | .call _ method _ => successor.isSome ∧ ∃ receiver args throws first,
      .call receiver method args throws ∈ u.exprs ∧
      (Expr.call receiver method args throws).code.value g.listing first id ∧
      categories = Digraph.distinct (runtimeException :: throws)
  | .new _ _ => successor.isSome ∧ categories = [runtimeException]
  | .throw exception _ => successor = none ∧ categories = [exception]
  | .assertFailure => successor = none ∧ categories = [assertionError]
  | _ => False

/-- The shape of the graph of a unit. -/
structure ShapeOf (g : FlowGraph) (u : ProgramUnit) : Prop where
  shared : (g.blocks.toList.flatMap Block.nodes).Perm (List.range g.nodeCount)
  ascending : ∀ {i : Nat} {block : Block}, g.block? i = some block → block.nodes.Pairwise (· < ·)
  exceptional : ∀ {i id : Nat} {block : Block} {n : Node}, g.block? i = some block →
    id ∈ block.nodes → g.node? id = some n →
    ((∃ successor handlers, block.kind = .exceptional successor handlers) ↔
      n.kind.isRaising = true)
  raising : ∀ {i : Nat} {block : Block} {successor : Option BlockId}
    {handlers : List (String × BlockId)}, g.block? i = some block →
    block.kind = .exceptional successor handlers → (handlers.map Prod.fst).Nodup ∧
      ∃ id n, block.nodes = [id] ∧ g.node? id = some n ∧
        g.Leaves u id successor (handlers.map Prod.fst) n.kind
  regular : ∀ {i t : Nat} {block : Block}, g.block? i = some block →
    block.kind = .regular t → block.nodes ≠ []
  entry : ∀ i, g.IsSpecial .entry i ↔ i = g.entry
  exit : ∀ i, g.IsSpecial .exit i ↔ i = g.exit
  exceptionalExit : ∀ i, g.IsSpecial .exceptionalExit i ↔ i = g.exceptionalExit
  source : ∀ i, g.entry ∉ g.successors i

variable {g : FlowGraph}

/-- No two blocks list the same node. -/
theorem Valid.nodup_listing (hg : g.Valid) :
    (g.blocks.toList.flatMap Block.nodes).Nodup ↔ ∀ block ∈ g.blocks, block.nodes.Nodup := by
  have hblock {i : Nat} (hi : i < g.blocks.toList.length) :
      g.block? i = some g.blocks.toList[i] := by
    rw [block?, ← Array.getElem?_toList, List.getElem?_eq_getElem hi]
  simp only [List.nodup_flatMap, Array.mem_toList_iff]
  refine and_iff_left (List.pairwise_iff_getElem.mpr fun i j hi hj hlt id hin hin' => ?_)
  exact Nat.ne_of_lt hlt (hg.home_unique ⟨_, hblock hi, hin⟩ ⟨_, hblock hj, hin'⟩)

theorem Valid.mem_listing (hg : g.Valid)
    (hhomed : ∀ {id : NodeId} {n : Node}, g.node? id = some n → ∃ b, g.Home id b) {id : NodeId} :
    id ∈ g.blocks.toList.flatMap Block.nodes ↔ id < g.nodeCount := by
  rw [List.mem_flatMap]
  constructor
  · rintro ⟨block, hmem, hid⟩
    obtain ⟨i, hi⟩ := Array.mem_iff_getElem?.mp (Array.mem_toList_iff.mp hmem)
    obtain ⟨n, hn, -⟩ := hg.listed hi id hid
    exact (Array.getElem?_eq_some_iff.mp hn).1
  · intro hlt
    obtain ⟨i, block, hb, hid⟩ := hhomed (Array.getElem?_eq_getElem hlt)
    exact ⟨block, Array.mem_toList_iff.mpr (Array.mem_of_getElem? hb), hid⟩

/-- If every node has a home, the blocks share out the nodes. -/
theorem Valid.nodes_perm (hg : g.Valid) (hordered : g.Ordered)
    (hhomed : ∀ {id : NodeId} {n : Node}, g.node? id = some n → ∃ b, g.Home id b) :
    (g.blocks.toList.flatMap Block.nodes).Perm (List.range g.nodeCount) := by
  have hnodup := hg.nodup_listing.mpr fun block hmem => by
    obtain ⟨i, hi⟩ := Array.mem_iff_getElem?.mp hmem
    exact (hordered.ascending hi).imp Nat.ne_of_lt
  refine (List.perm_ext_iff_of_nodup hnodup List.nodup_range).mpr fun id => ?_
  rw [hg.mem_listing hhomed, List.mem_range]

end FlowGraph

namespace Layout

variable {D : Layout} {G : Marks} {name : String} {a e i id t : Nat} {block : Block} {n : Node}

/-- A block is exceptional if it lists a node that may raise, and only then. -/
theorem Stocked.exceptional_iff (hs : D.Stocked) (hb : (D.parts name).blocks[i]? = some block)
    (hid : id ∈ block.nodes) (hn : (D.parts name).nodes[id]? = some n) :
    (∃ successor handlers, block.kind = .exceptional successor handlers) ↔
      n.kind.isRaising = true := by
  obtain ⟨n', hn', rfl⟩ := parts_node hn
  obtain ⟨a, ⟨listed, exits⟩, hd, -, -, rfl⟩ := mem_parts_blocks hb
  have hholds := hs a _ hd
  cases exits with
  | raise =>
      obtain ⟨id', n₀, categories, hlisted, hn₀, hraises, -⟩ := hholds
      cases hlisted
      cases List.mem_singleton.mp hid
      cases hn'.symm.trans hn₀
      exact ⟨fun _ => hraises.isRaising, fun _ => ⟨_, _, rfl⟩⟩
  | special =>
      obtain ⟨hlisted, -⟩ := hholds
      cases hlisted
      cases hid
  | _ =>
      obtain ⟨n₀, hn₀, hplain⟩ := hholds id hid
      cases hn'.symm.trans hn₀
      constructor
      · rintro ⟨_, _, ⟨⟩⟩
      · intro hraising
        cases hplain.symm.trans hraising

/-- An exceptional block leads on for the categories of its node, and past the node if that
may complete. -/
theorem Stocked.raises (hs : D.Stocked) (hw : D.Whole)
    (hb : (D.parts name).blocks[i]? = some block) {successor : Option BlockId}
    {handlers : List (String × BlockId)} (hkind : block.kind = .exceptional successor handlers) :
    ∃ id n categories terminal, block.nodes = [id] ∧ (D.parts name).nodes[id]? = some n ∧
      n.kind.Raises categories terminal ∧ handlers.map Prod.fst = Digraph.distinct categories ∧
      (successor = none ↔ terminal = true) := by
  obtain ⟨a, ⟨listed, exits⟩, hd, -, -, rfl⟩ := mem_parts_blocks hb
  cases exits with
  | raise s hs' terminal =>
      obtain ⟨id, n, categories, hlisted, hn, hraises, hcategories, hterminal⟩ := hs a _ hd
      cases hkind
      refine ⟨id, { n with block := rename D.drafts n.block }, categories, terminal, hlisted, ?_,
        hraises, ?_, ?_⟩
      · simp [parts, hn]
      · rw [List.map_map]
        exact hcategories
      · rw [Option.map_eq_none_iff]
        refine ⟨?_, hterminal⟩
        rintro rfl
        cases terminal with
        | true => rfl
        | false => exact absurd rfl (hw.resumes a _ hs' hd)
  | _ => cases hkind

/-- Of a special kind with one block there is no other one. -/
theorem Stocked.special_iff (hs : D.Stocked) {kind : SpecialKind} {successor : Option BlockId}
    (hhome : kind.home = some e) (he : D.drafts[e]? = some ⟨[], .special kind successor⟩) :
    (∃ block successor, (D.parts name).blocks[i]? = some block ∧
      block.kind = .special kind successor) ↔ i = rename D.drafts e := by
  constructor
  · rintro ⟨block, s, hb, hkind⟩
    obtain ⟨a, ⟨listed, exits⟩, hd, -, rfl, rfl⟩ := mem_parts_blocks hb
    cases exits with
    | special =>
        cases hkind
        rw [(hs a _ hd).2 e hhome]
    | _ => cases hkind
  · rintro rfl
    exact ⟨_, _, parts_blocks he (keeps_of_forward?_none he rfl), rfl⟩

namespace Marked

variable (hD : D.Marked G) (hw : D.Whole)

include hD hw

theorem exists_entry : ∃ successor, D.drafts[entryId]? = some ⟨[], .special .entry successor⟩ := by
  have hlt : entryId < D.drafts.size := Nat.lt_of_lt_of_le (by decide) hw.designated
  obtain ⟨⟨listed, exits⟩, hd⟩ : ∃ d, D.drafts[entryId]? = some d :=
    ⟨_, Array.getElem?_eq_getElem hlt⟩
  obtain ⟨m, hm, hsettled⟩ := hD.settled entryId _ hd
  cases hm.symm.trans hD.entry
  cases exits with
  | special kind successor =>
      obtain ⟨rfl, hkind⟩ := hsettled
      cases kind with
      | entry => exact ⟨successor, hd⟩
      | _ => cases hkind.1
  | raise => cases hsettled.1
  | branch =>
      obtain ⟨-, _, _, hrole, -⟩ := hsettled
      cases hrole
  | _ => cases hsettled

/-- A regular block lists a node: an empty one would only forward. -/
theorem nodes_ne_nil (hb : (D.parts name).blocks[i]? = some block)
    (hkind : block.kind = .regular t) : block.nodes ≠ [] := by
  obtain ⟨a, ⟨listed, exits⟩, hd, hkeeps, -, rfl⟩ := mem_parts_blocks hb
  cases exits with
  | goto t' =>
      rintro rfl
      exact hD.not_keeps hd hkeeps
  | openEnd => exact absurd rfl (hw.finished a _ hd)
  | _ => cases hkind

/-- No block of the graph leads to the entry. -/
theorem entry_not_mem_successors (hb : (D.parts name).blocks[i]? = some block) :
    (D.parts name).entry ∉ block.successors := by
  intro hmem
  obtain ⟨a, d, hd, -, -, rfl⟩ := mem_parts_blocks hb
  rw [Block.successors, Exits.successors_toKind (hw.finished a d hd)] at hmem
  obtain ⟨t, ht, hrename⟩ := List.mem_map.mp hmem
  obtain ⟨-, n, -, c, hc, hchain, hsame⟩ := hw.chain_of_target hd ht
  have hentry : entryId < D.drafts.size := Nat.lt_of_lt_of_le (by decide) hw.designated
  have hkeeps : Keeps D.drafts entryId := hD.keeps hD.entry (by simp)
  obtain rfl : c = entryId :=
    rename_injective hc hentry hchain.kept hkeeps (hsame.symm.trans hrename)
  rcases hchain.cases_last with rfl | ⟨p, hp⟩
  · exact hD.not_leads_entry (hD.leads a d hd _ ht)
  · exact hD.not_leads_entry (hD.leads p _ hp _ (by simp [Exits.targets]))

end Marked

end Layout

/-- The node of a call is the value of a call of that method in the source. -/
theorem Expr.call_of_value {p : GraphParts} {e : Expr} {first id : NodeId}
    {r : Option NodeId} {method : String} {as : List NodeId}
    (h : e.code.value p.listing first id) (hn : p.listing.node id (.call r method as)) :
    ∃ receiver args throws, e = .call receiver method args throws := by
  rcases e.value_cases h with ⟨kind, hkind, -, hcall⟩ | ⟨op, lhs, rhs, rfl, hcode⟩ | ⟨c, x, y, rfl⟩
  · exact hcall _ _ _ (GraphParts.listing_node_unique hkind hn)
  · obtain ⟨_, _, _, _, _, _, -, -, -, -, -, hnode⟩ := hcode
    cases GraphParts.listing_node_unique hnode hn
  · obtain ⟨_, _, _, _, _, _, _, -, -, -, -, -, -, hnode⟩ := h
    cases GraphParts.listing_node_unique hnode hn

namespace ProgramUnit

variable {u : ProgramUnit} {g : FlowGraph}

/-- The categories of the block of a call are those that the call declares in the source. -/
theorem lower_declares (h : u.lower = .ok g) {i id : Nat} {block : Block} {n : Node}
    {successor : Option BlockId} {handlers : List (String × BlockId)} {r : Option NodeId}
    {method : String} {as : List NodeId} (hb : g.block? i = some block)
    (hnodes : block.nodes = [id]) (hkind : block.kind = .exceptional successor handlers)
    (hn : g.node? id = some n) (hcall : n.kind = .call r method as) :
    ∃ receiver args throws first, .call receiver method args throws ∈ u.exprs ∧
      (Expr.call receiver method args throws).code.value g.listing first id ∧
      handlers.map Prod.fst = Digraph.distinct (runtimeException :: throws) := by
  obtain ⟨T, -, -, hsourced⟩ := u.lower_sourced h
  have hid : id ∈ block.nodes := hnodes ▸ List.mem_singleton_self id
  obtain ⟨e, first, he, hvalue, -⟩ := hsourced (congrArg (Option.map Block.piece) hb) id hid n hn
    (by rw [hcall]; rfl)
  obtain ⟨receiver, args, throws, rfl⟩ := Expr.call_of_value hvalue ⟨n, hn, hcall⟩
  refine ⟨receiver, args, throws, first, he, hvalue, ?_⟩
  obtain ⟨_, _, _, _, -, j, block', _, _, hb', hnodes', hkind', hcategories⟩ := hvalue
  obtain rfl : i = j := (u.lower_valid h).home_unique ⟨block, hb, hid⟩
    ⟨block', hb', hnodes' ▸ List.mem_singleton_self id⟩
  cases hb.symm.trans hb'
  cases hkind.symm.trans hkind'
  exact hcategories

/-- How control leaves the node of an exceptional block. -/
theorem lower_leaves (h : u.lower = .ok g) {i id : Nat} {block : Block} {n : Node}
    {successor : Option BlockId} {handlers : List (String × BlockId)} {categories : List String}
    {terminal : Bool} (hb : g.block? i = some block) (hnodes : block.nodes = [id])
    (hkind : block.kind = .exceptional successor handlers) (hn : g.node? id = some n)
    (hraises : n.kind.Raises categories terminal)
    (hcategories : handlers.map Prod.fst = Digraph.distinct categories)
    (hterminal : successor = none ↔ terminal = true) :
    g.Leaves u id successor (handlers.map Prod.fst) n.kind := by
  have honward (hcompletes : terminal = false) : successor.isSome = true := by
    refine Option.isSome_iff_ne_none.mpr fun hnone => ?_
    simp [hterminal.mp hnone] at hcompletes
  generalize hk : n.kind = kind at hraises
  cases hraises with
  | call r method as throws => exact ⟨honward rfl, u.lower_declares h hb hnodes hkind hn hk⟩
  | new => exact ⟨honward rfl, hcategories⟩
  | throw | assertFailure => exact ⟨hterminal.mpr rfl, hcategories⟩

/-- The shape of the graph of a unit. The blocks list every node once, in ascending order. A
node is in an exceptional block if it may raise and only then; control goes on past the node
unless it throws or is a failed assertion, and the block leads on for what the node raises. No
regular block is empty. The designated blocks are the only ones of their kinds, and no block
leads to the entry. -/
theorem lower_shape (h : u.lower = .ok g) : g.ShapeOf u := by
  have hlaw : CopyLaw.Holds fun _ _ _ _ _ _ => True := fun _ _ => True.intro
  obtain ⟨b, hrun, hfinish⟩ := u.run_of_lower h
  obtain ⟨hlaid, -⟩ := ProgramUnit.build_spec hlaw hrun
  obtain ⟨hw, G, hD⟩ := ProgramUnit.build_marked hrun
  have hs := ProgramUnit.build_stocked hrun
  have hparts := finish_parts hfinish
  have hordered := u.lower_ordered h
  have hblock {i : Nat} {block : Block} (hb : g.block? i = some block) :
      (b.layout.parts u.name).blocks[i]? = some block := hparts ▸ hb
  have hspecial {kind : SpecialKind} {e i : Nat} {s : Option BlockId} (hhome : kind.home = some e)
      (he : b.layout.drafts[e]? = some ⟨[], .special kind s⟩) :
      g.IsSpecial kind i ↔ i = Layout.rename b.layout.drafts e := by
    have hiff : (∃ block successor, (b.layout.parts u.name).blocks[i]? = some block ∧
        block.kind = .special kind successor) ↔ _ := hs.special_iff hhome he
    rw [← hparts] at hiff
    exact hiff
  obtain ⟨s, hentry⟩ := hD.exists_entry hw
  refine
    { shared := (u.lower_valid h).nodes_perm hordered fun hn => ⟨_, u.lower_homed h hn⟩
      ascending := hordered.ascending
      exceptional := fun hb hid hn => hs.exceptional_iff (hblock hb) hid (hparts ▸ hn)
      raising := fun {i block successor handlers} hb hkind => ?_
      regular := fun hb hkind => hD.nodes_ne_nil hw (hblock hb) hkind
      entry := fun i => ?_
      exit := fun i => ?_
      exceptionalExit := fun i => ?_
      source := fun i hmem => ?_ }
  · obtain ⟨id, n, categories, terminal, hnodes, hn, hraises, hcategories, hterminal⟩ :=
      hs.raises hw (hblock hb) hkind
    have hn : g.node? id = some n := by
      rw [FlowGraph.node?, hparts]
      exact hn
    refine ⟨hcategories ▸ Digraph.nodup_distinct categories, id, n, hnodes, hn, ?_⟩
    exact u.lower_leaves h hb hnodes hkind hn hraises hcategories hterminal
  · rw [hspecial rfl hentry, hparts]
    rfl
  · rw [hspecial rfl hlaid.exit, hparts]
    rfl
  · rw [hspecial rfl hlaid.exceptionalExit, hparts]
    rfl
  · obtain ⟨block, hb, hin⟩ := FlowGraph.mem_successors.mp hmem
    refine hD.entry_not_mem_successors hw (hblock hb) ?_
    rwa [← hparts]

end ProgramUnit

/-- The final body is copied on the way out of the call before the node of the call is made. -/
def stoppingUnit : ProgramUnit where
  name := "stopping"
  params := []
  returnQualifier := none
  body := [
    .tryCatch [.expr (.call none "read" [] ["IOError", "RuntimeException", "IOError"])] []
      (some [.expr (.new "Log" [])]),
    .throw "Stop" none]

/-- The read goes on to one copy of the final body, and to another one for both categories. -/
theorem stoppingUnit_shape : ∃ g, stoppingUnit.lower = .ok g ∧ g.ShapeOf stoppingUnit ∧
    [3, 4, 5, 6].map g.block? = [
      some ⟨3, [1], .exceptional (some 6) [("RuntimeException", 5), ("IOError", 5)]⟩,
      some ⟨4, [3], .exceptional none [("Stop", 2)]⟩,
      some ⟨5, [0], .exceptional (some 2) [("RuntimeException", 2)]⟩,
      some ⟨6, [2], .exceptional (some 4) [("RuntimeException", 2)]⟩] := by
  have hok : (stoppingUnit.lower.toOption.bind fun g =>
      if [3, 4, 5, 6].map g.block? = [
          some ⟨3, [1], .exceptional (some 6) [("RuntimeException", 5), ("IOError", 5)]⟩,
          some ⟨4, [3], .exceptional none [("Stop", 2)]⟩,
          some ⟨5, [0], .exceptional (some 2) [("RuntimeException", 2)]⟩,
          some ⟨6, [2], .exceptional (some 4) [("RuntimeException", 2)]⟩] then some ()
      else none).isSome = true := by
    decide +kernel
  obtain ⟨_, hrun⟩ := Option.isSome_iff_exists.mp hok
  obtain ⟨g, hg, hblocks⟩ := Option.bind_eq_some_iff.mp hrun
  exact ⟨g, ok_of_toOption hg, stoppingUnit.lower_shape (ok_of_toOption hg),
    (Option.ite_none_right_eq_some.mp hblocks).1⟩

end FlowTyping
