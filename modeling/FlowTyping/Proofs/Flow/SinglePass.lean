import FlowTyping.Proofs.Drafting.LoopFree
import FlowTyping.Proofs.Flow.Reached
import FlowTyping.Proofs.Flow.RoundBound
import FlowTyping.Proofs.Flow.Termination
import Mathlib.Data.List.SplitBy
import Mathlib.Data.Set.Card

/-!
The passes of an analysis over the blocks of a graph. Within a pass blocks are visited in reverse
postorder, each at most once. Where no cycle can be reached, every edge leads on in that order and
a block that waits has not been visited, so the first pass is the only one.
-/

namespace FlowTyping

open Relation

namespace FlowGraph

variable {g : FlowGraph} {b : BlockId} {blocks pass : List BlockId}

/-- The passes that some visits make over the blocks. A pass goes on as long as the blocks come in
reverse postorder. -/
def passes (g : FlowGraph) (blocks : List BlockId) : List (List BlockId) :=
  blocks.splitBy fun x y => decide (g.rank x < g.rank y)

theorem pairwise_of_mem_passes (h : pass ∈ g.passes blocks) :
    pass.Pairwise fun x y => g.rank x < g.rank y := by
  have hchain := List.isChain_of_mem_splitBy h
  simp only [decide_eq_true_eq] at hchain
  exact List.isChain_iff_pairwise.mp hchain

theorem nodup_of_ascending (h : blocks.Pairwise fun x y => g.rank x < g.rank y) : blocks.Nodup :=
  List.Pairwise.imp (fun hlt heq => Nat.ne_of_lt hlt (congrArg g.rank heq)) h

/-- A visit that does not come later in the order begins a pass. -/
theorem passes_concat_of_le (h : ∀ last ∈ blocks.getLast?, g.rank b ≤ g.rank last) :
    g.passes (blocks ++ [b]) = g.passes blocks ++ [[b]] := by
  refine List.splitBy_append_cons [] fun last hlast => ?_
  rw [decide_eq_false_iff_not, Nat.not_lt]
  exact h last hlast

/-- A visit that comes later in the order goes on with the last pass. -/
theorem length_passes_concat_of_lt {last : BlockId} (hlast : blocks.getLast? = some last)
    (hlt : g.rank last < g.rank b) :
    (g.passes (blocks ++ [b])).length = (g.passes blocks).length := by
  obtain ⟨hflatten, hnil, hchains, hbetween⟩ :=
    List.splitBy_eq_iff.mp (rfl : g.passes blocks = g.passes blocks)
  rcases List.eq_nil_or_concat (g.passes blocks) with hnone | ⟨before, pass, hpasses⟩
  · rw [passes, List.splitBy_eq_nil] at hnone
    rw [hnone] at hlast
    cases hlast
  rw [hpasses, List.concat_eq_append] at hflatten hnil hchains hbetween
  have hpass : pass ≠ [] := by
    rintro rfl
    exact hnil (by simp)
  have hend : pass.getLast? = some last := by
    rw [hflatten] at hlast
    simpa [List.getLast?_append, hpass] using hlast
  have hlonger : g.passes (blocks ++ [b]) = before ++ [pass ++ [b]] := by
    refine List.splitBy_eq_iff.mpr ⟨by simp [hflatten], ?_, ?_, ?_⟩
    · simpa [hpass] using hnil
    · intro m hm
      rcases List.mem_append.mp hm with hm | hm
      · exact hchains m (List.mem_append_left _ hm)
      · obtain rfl := List.mem_singleton.mp hm
        refine List.isChain_append.mpr ⟨hchains pass (by simp), by simp, ?_⟩
        simpa [hend] using hlt
    · obtain ⟨hbefore, -, hjoins⟩ := List.isChain_append.mp hbetween
      refine List.isChain_append.mpr ⟨hbefore, by simp, fun x hx y hy => ?_⟩
      obtain ⟨hx', _, hjoin⟩ := hjoins x hx pass (by simp)
      obtain rfl : pass ++ [b] = y := by simpa using hy
      exact ⟨hx', by simp, by rwa [List.head_append_of_ne_nil hpass]⟩
  rw [hlonger, hpasses]
  simp

theorem Valid.pairwise_reversePostorder (hg : g.Valid) :
    g.reversePostorder.Pairwise fun x y => g.rank x < g.rank y := by
  refine List.pairwise_iff_getElem.mpr fun i j hi hj hlt => ?_
  have hrank {k : Nat} (hk : k < g.reversePostorder.length) : g.rank g.reversePostorder[k] = k := by
    have hreach := hg.mem_reversePostorder.mp (List.getElem_mem hk)
    rw [rank_eq (hg.lt_of_reach hreach), hg.nodup_reversePostorder.idxOf_getElem]
  rw [hrank, hrank]
  exact hlt

theorem Valid.ncard_reaches (hg : g.Valid) :
    {b | g.Reaches b}.ncard = g.reversePostorder.length := by
  have hset : {b | g.Reaches b} = ↑g.reversePostorder.toFinset := by
    ext b
    simp [hg.mem_reversePostorder]
  rw [hset, Set.ncard_coe_finset, List.toFinset_card_of_nodup hg.nodup_reversePostorder]

end FlowGraph

namespace Solving

variable {Fact σ : Type} {a : DataflowAnalysis Fact σ} {g : FlowGraph} {ranks : Array Nat}
  {s s' : Solving Fact σ} {st : σ} {block source x : BlockId} {rest : List BlockId}

/-- The visited blocks, in the order of their visits. -/
def blocks (s : Solving Fact σ) : List BlockId := s.log.reverse.map Visit.block

/-- What the counts of visits and of rounds say about the log. -/
structure Tallied (g : FlowGraph) (s : Solving Fact σ) : Prop where
  visits : s.visits = s.blocks.length
  rounds : s.rounds = (g.passes s.blocks).length
  lastRank : s.lastRank = s.blocks.getLast?.map g.rank
  seen : ∀ b, s.Seen b ↔ b ∈ s.blocks

theorem start_tallied : (start g st : Solving Fact σ).Tallied g where
  visits := rfl
  rounds := rfl
  lastRank := rfl
  seen _ := iff_of_false not_seen_start List.not_mem_nil

theorem visit_blocks (h : { s with worklist := rest }.visit a g ranks block = .ok s') :
    s'.blocks = s.blocks ++ [block] := by
  obtain ⟨r, begun, ins, outs, -, hbegun, hcounts, -⟩ := visit_counted h
  obtain ⟨status, hlog⟩ := hbegun.log
  simp [blocks, hcounts.log, hlog]

theorem visit_tallied (hs : s.Tallied g)
    (h : { s with worklist := rest }.visit a g g.ranks block = .ok s')
    (hseen : ∀ b, s'.Seen b ↔ b = block ∨ s.Seen b) : s'.Tallied g := by
  have hblocks := visit_blocks h
  obtain ⟨r, begun, ins, outs, -, hbegun, hcounts, -⟩ := visit_counted h
  have hvisits : s'.visits = s.visits + 1 := hcounts.visits.trans hbegun.visits
  have hrounds : s'.rounds = if s.beginsRound (g.rank block) then s.rounds + 1 else s.rounds :=
    hcounts.rounds.trans hbegun.rounds
  refine ⟨?_, ?_, ?_, fun b => ?_⟩
  · rw [hvisits, hblocks, hs.visits, List.length_append, List.length_singleton]
  · rw [hrounds, hblocks, beginsRound, hs.lastRank, hs.rounds]
    cases hlast : s.blocks.getLast? with
    | none =>
        rw [FlowGraph.passes_concat_of_le (by simp [hlast])]
        simp
    | some last =>
        by_cases hle : g.rank block ≤ g.rank last
        · rw [FlowGraph.passes_concat_of_le (by simpa [hlast] using hle)]
          simp [hle]
        · rw [FlowGraph.length_passes_concat_of_lt hlast (Nat.lt_of_not_le hle)]
          simp [hle]
  · rw [hcounts.lastRank, hbegun.lastRank, hblocks]
    simp [FlowGraph.rank]
  · rw [hseen, hs.seen, hblocks, List.mem_append, List.mem_singleton, or_comm]

/-! A visit in a graph without cycles. -/

theorem mem_of_mem_foldl_propagate {edges : List (BlockId × Fact)}
    (hx : x ∈ (edges.foldl (propagate a ranks source) s).worklist) :
    x ∈ s.worklist ∨ ∃ e ∈ edges, e.1 = x := by
  induction edges generalizing s with
  | nil => exact .inl hx
  | cons e rest ih =>
      have hstep : x ∈ (propagate a ranks source s e).worklist → x ∈ s.worklist ∨ x = e.1 := by
        intro hx
        unfold propagate at hx
        split at hx
        · exact (mem_schedule.mp hx).symm
        · dsimp only at hx
          split at hx
          · exact .inl hx
          · exact (mem_schedule.mp hx).symm
      rcases ih hx with hx | ⟨e', he', heq⟩
      · exact (hstep hx).imp_right fun heq => ⟨e, List.mem_cons_self, heq.symm⟩
      · exact .inr ⟨e', List.mem_cons_of_mem e he', heq⟩

/-- A block waits after a visit because it did before, or because the visit sends to it or for
it. -/
theorem mem_worklist_visit (h : s.visit a g ranks block = .ok s') :
    ∃ r, a.transfer s.state block (s.table.input a g block) = .ok (r, s'.state) ∧
      ∀ x ∈ s'.worklist, x ∈ s.worklist ∨ (∃ e ∈ r.edges, e.1 = x) ∨ x ∈ r.revisit := by
  obtain ⟨r, begun, ins, outs, htransfer, hbegun, -, heq⟩ := visit_counted h
  refine ⟨r, htransfer, fun x hx => ?_⟩
  rw [heq] at hx
  rcases mem_of_mem_foldl_revisit hx with hx | hx
  · exact (mem_of_mem_foldl_propagate hx).imp (hbegun.worklist ▸ ·) .inl
  · exact .inr (.inr hx)

theorem visit_placed (hs : Placed ranks s.worklist) (h : s.visit a g ranks block = .ok s') :
    Placed ranks s'.worklist := by
  obtain ⟨r, begun, ins, outs, -, hbegun, -, heq⟩ := visit_counted h
  rw [heq]
  refine List.foldlRecOn (motive := fun s : Solving Fact σ => Placed ranks s.worklist) _ _ ?_
    fun s hs x _ => ?_
  · refine List.foldlRecOn (motive := fun s : Solving Fact σ => Placed ranks s.worklist) _ _
      (hbegun.worklist ▸ hs) fun s hs e _ => ?_
    unfold propagate
    split
    · exact schedule_placed hs
    · dsimp only
      split
      · exact hs
      · exact schedule_placed hs
  · unfold revisit
    split
    · exact hs
    · exact schedule_placed hs

/-- The invariant of visits that only lead on: what waits comes after all that has been
visited. -/
structure Onward (g : FlowGraph) (s : Solving Fact σ) : Prop where
  placed : Placed g.ranks s.worklist
  ahead : ∀ x ∈ s.worklist, ∀ y ∈ s.blocks, g.rank y < g.rank x
  known : ∀ x, s.Known x → x ∈ s.worklist ∨ x ∈ s.blocks
  ascending : s.blocks.Pairwise fun x y => g.rank x < g.rank y

theorem start_onward : (start g st : Solving Fact σ).Onward g where
  placed := List.pairwise_singleton _ _
  ahead _ _ _ hy := absurd hy List.not_mem_nil
  known _ hx := .inl (List.mem_singleton.mpr (known_start hx))
  ascending := .nil

end Solving

/-- Edges lead on in reverse postorder where no cycle can be reached. -/
theorem FlowGraph.Acyclic.rank_lt {g : FlowGraph} {b t : BlockId} (hacyclic : g.Acyclic)
    (hg : g.Valid) (hb : g.Reaches b) (hedge : t ∈ g.successors b) : g.rank b < g.rank t := by
  by_contra hback
  have hpath : ReflTransGen (Digraph.Edge g.successors) t b :=
    ReflTransGen.mono (fun _ _ hstep => hstep.1) _ _
      (hg.ascends_back hb hedge (Nat.not_lt.mp hback))
  exact hacyclic b hb (.head' hedge hpath)

namespace Solving

variable {Fact σ : Type} {a : DataflowAnalysis Fact σ} {g : FlowGraph} {s s' : Solving Fact σ}
  {block : BlockId} {rest : List BlockId}

namespace Onward

/-- The blocks that wait behind the first one come after it. -/
theorem rank_lt_of_mem_rest (hg : g.Valid) (hsweeps : s.Sweeps g) (hs : s.Onward g)
    (hwork : s.worklist = block :: rest) {x : BlockId} (hx : x ∈ rest) :
    g.rank block < g.rank x := by
  rcases (List.pairwise_cons.mp (hwork ▸ hs.placed)).1 x hx with hlt | ⟨hsame, hlt⟩
  · exact hlt
  · have hreach := hsweeps.reaches (hwork ▸ List.mem_cons_self : block ∈ s.worklist)
    have hxreach := hsweeps.reaches (hwork ▸ List.mem_cons_of_mem block hx)
    obtain rfl := FlowGraph.eq_of_rank_eq hg hreach hxreach hsame
    exact absurd hlt (Nat.lt_irrefl _)

/-- What has waited after a visit waits behind its block, has been visited or was sent to. -/
theorem known_of_visited (hs : s.Onward g) (hwork : s.worklist = block :: rest) {input : Fact}
    {r : BlockTransfer Fact} {st : σ}
    (hv : Visited a block input r st { s with worklist := rest } s') {x : BlockId}
    (hx : s'.Known x) : x ∈ rest ∨ (x ∈ s.blocks ∨ x = block) ∨ ∃ e ∈ r.edges, e.1 = x := by
  rcases hv.known x hx with (hx | hx) | hx | hx
  · exact .inl hx
  · rcases hs.known x (.inr hx) with hx | hx
    · rw [hwork] at hx
      exact (List.mem_cons.mp hx).symm.imp_right fun hx => .inl (.inr hx)
    · exact .inr (.inl (.inl hx))
  · exact .inr (.inl (.inr hx))
  · exact .inr (.inr hx)

/-- A visit keeps the invariant if it never sends for its own block, and for a visited block only
if its own has been visited before. -/
theorem visit (hg : g.Valid) (hacyclic : g.Acyclic)
    (hcovers : ∀ {st st' : σ} {b : BlockId} {f : Fact} {r : BlockTransfer Fact},
      a.transfer st b f = .ok (r, st') → ∀ t, t ∈ g.successors b ↔ ∃ e ∈ r.edges, e.1 = t)
    (hreaders : ∀ {f : Fact} {r : BlockTransfer Fact},
      a.transfer s.state block f = .ok (r, s'.state) →
        ∀ x ∈ r.revisit, x ≠ block ∧ (s.Seen x → s.Seen block))
    (hsweeps : s.Sweeps g) (hsweeps' : s'.Sweeps g) (ht : s.Tallied g) (ht' : s'.Tallied g)
    (hs : s.Onward g) (hwork : s.worklist = block :: rest)
    (h : { s with worklist := rest }.visit a g g.ranks block = .ok s') : s'.Onward g := by
  have hblocks := visit_blocks h
  have hblock : block ∈ s.worklist := hwork ▸ List.mem_cons_self
  have hreach := hsweeps.reaches hblock
  have hfresh : ¬ s.Seen block := fun hseen =>
    Nat.lt_irrefl _ (hs.ahead block hblock block ((ht.seen block).mp hseen))
  obtain ⟨r, htransfer, hwaits⟩ := mem_worklist_visit h
  obtain ⟨r', st, htransfer', hv⟩ := visit_ok h
  rw [← hv.state] at htransfer'
  cases htransfer.symm.trans htransfer'
  have hsent : ∀ x, (∃ e ∈ r.edges, e.1 = x) → g.rank block < g.rank x :=
    fun x hx => hacyclic.rank_lt hg hreach ((hcovers htransfer x).mpr hx)
  have hlater : ∀ x ∈ s'.worklist, g.rank block < g.rank x := by
    intro x hx
    rcases hwaits x hx with hold | htarget | hread
    · exact hs.rank_lt_of_mem_rest hg hsweeps hwork hold
    · exact hsent x htarget
    · -- A reader that has been visited before would have had the block visited before it.
      obtain ⟨hne, hseen⟩ := hreaders htransfer x hread
      rcases hs.known_of_visited hwork hv (.inl hx) with hold | hvisited | htarget
      · exact hs.rank_lt_of_mem_rest hg hsweeps hwork hold
      · exact absurd (hseen ((ht.seen x).mpr (hvisited.resolve_right hne))) hfresh
      · exact hsent x htarget
  have hrest : Placed g.ranks rest := (List.pairwise_cons.mp (hwork ▸ hs.placed)).2
  refine ⟨visit_placed (s := { s with worklist := rest }) hrest h, fun x hx y hy => ?_,
    fun x hx => ?_, ?_⟩
  · rw [hblocks, List.mem_append, List.mem_singleton] at hy
    rcases hy with hy | rfl
    · exact Nat.lt_trans (hs.ahead block hblock y hy) (hlater x hx)
    · exact hlater x hx
  · rcases hs.known_of_visited hwork hv hx with hx | hx | hx
    · exact .inl (hv.kept hx)
    · exact .inr (by simpa [hblocks] using hx)
    · have hself : s'.Seen block := (ht'.seen block).mpr (by simp [hblocks])
      obtain ⟨f, hf⟩ := hsweeps'.sent block hself x ((hcovers htransfer x).mpr hx)
      exact (hsweeps'.edge block x f hf).imp_right (ht'.seen x).mp
  · rw [hblocks]
    refine List.pairwise_append.mpr
      ⟨hs.ascending, List.pairwise_singleton _ _, fun y hy x hx => ?_⟩
    obtain rfl := List.mem_singleton.mp hx
    exact hs.ahead x hblock y hy

end Onward

end Solving

namespace UnitAnalysis

variable {u : UnitAnalysis} {s : Solving TransferResult NodeValues}

/-- The visits of an analysis, counted in passes. -/
theorem advances_tallied (hg : u.graph.Valid)
    (h : ReflTransGen (Solving.Advance u.dataflow u.graph u.graph.ranks)
      (.start u.graph u.noValues) s) : s.Tallied u.graph := by
  induction h with
  | refl => exact Solving.start_tallied
  | tail hsteps hstep ih =>
      obtain ⟨block, rest, hwork, hvisit⟩ := hstep
      obtain ⟨-, hseen, -⟩ := Solving.advance_sweeps hg transferBlock_covers
        (advances_evaluated hg hsteps).1 hwork hvisit
      exact Solving.visit_tallied ih hvisit hseen

/-- In a graph without cycles every visit leads on. -/
theorem advances_onward (hg : u.graph.Valid) (hacyclic : u.graph.Acyclic)
    (hhomed : ∀ {id : NodeId} {n : Node}, u.graph.node? id = some n → u.graph.Home id n.block)
    (hconsumers : ∀ id < u.graph.nodeCount, u.consumers.getD id [] = u.graph.consumersOf id)
    (h : ReflTransGen (Solving.Advance u.dataflow u.graph u.graph.ranks)
      (.start u.graph u.noValues) s) : s.Onward u.graph := by
  induction h with
  | refl => exact Solving.start_onward
  | @tail s s' hsteps hstep ih =>
      have hsteps' := hsteps.tail hstep
      have hconfined := advances_confined hg hsteps
      obtain ⟨block, rest, hwork, hvisit⟩ := hstep
      refine Solving.Onward.visit hg hacyclic transferBlock_covers (fun htransfer x hx => ?_)
        (advances_evaluated hg hsteps).1 (advances_evaluated hg hsteps').1
        (advances_tallied hg hsteps) (advances_tallied hg hsteps') ih hwork hvisit
      obtain ⟨hne, id, j, user, hid, huser, hoperand, rfl⟩ :=
        transferBlock_reader hg hconsumers htransfer hx
      refine ⟨hne, fun hseen => ?_⟩
      -- What a visited block reads has been evaluated, in a block that has been visited.
      have hheld := hconfined.supplied _ hseen j (hhomed huser) user huser id hoperand
      obtain ⟨node, hnode, hsource⟩ := hconfined.homes id hheld
      exact hg.home_unique (hhomed hnode) hid ▸ hsource

end UnitAnalysis

/-- The visits of an analysis fall into passes, as many as it counts rounds, and no pass comes to a
block twice. -/
structure AnalyzedUnit.InPasses (a : AnalyzedUnit) (blocks : List BlockId) : Prop where
  visits : a.fixpoint.visits = blocks.length
  rounds : a.fixpoint.rounds = (a.graph.passes blocks).length
  once : ∀ pass ∈ a.graph.passes blocks, pass.Nodup
  reached : ∀ b ∈ blocks, a.graph.Reaches b
  visits_le : a.fixpoint.visits ≤ a.fixpoint.rounds * {b | a.graph.Reaches b}.ncard

/-- The visits of an analysis are a single pass, over every block that can be reached. -/
structure AnalyzedUnit.InOnePass (a : AnalyzedUnit) (blocks : List BlockId) : Prop where
  rounds : a.fixpoint.rounds = 1
  order : blocks = a.graph.reversePostorder
  once : ∀ b, a.graph.Reaches b → blocks.count b = 1
  visits : a.fixpoint.visits = {b | a.graph.Reaches b}.ncard

namespace Solving

variable {s : Solving TransferResult NodeValues} {a : AnalyzedUnit} {record : Bool}

theorem Tallied.inPasses (ht : s.Tallied a.graph) (hg : a.graph.Valid) (hsweeps : s.Sweeps a.graph)
    (hresult : a.fixpoint = s.result record) : a.InPasses s.blocks := by
  have hvisits : a.fixpoint.visits = s.blocks.length := hresult ▸ ht.visits
  have hrounds : a.fixpoint.rounds = (a.graph.passes s.blocks).length := hresult ▸ ht.rounds
  have hreached : ∀ b ∈ s.blocks, a.graph.Reaches b :=
    fun b hb => hsweeps.reaches_of_seen ((ht.seen b).mpr hb)
  have honce : ∀ pass ∈ a.graph.passes s.blocks, pass.Nodup := fun _ hpass =>
    FlowGraph.nodup_of_ascending (FlowGraph.pairwise_of_mem_passes hpass)
  refine ⟨hvisits, hrounds, honce, hreached, ?_⟩
  have hflatten : (a.graph.passes s.blocks).flatten = s.blocks := List.flatten_splitBy _ _
  have hlength : ∀ n ∈ (a.graph.passes s.blocks).map List.length,
      n ≤ a.graph.reversePostorder.length := by
    intro n hn
    obtain ⟨pass, hpass, rfl⟩ := List.mem_map.mp hn
    refine (List.subperm_of_subset (honce pass hpass) fun b hb => ?_).length_le
    have hmem : b ∈ s.blocks := hflatten ▸ List.mem_flatten_of_mem hpass hb
    exact hg.mem_reversePostorder.mpr (hreached b hmem)
  calc a.fixpoint.visits
    _ = ((a.graph.passes s.blocks).map List.length).sum := by
        rw [hvisits, ← List.length_flatten, hflatten]
    _ ≤ ((a.graph.passes s.blocks).map List.length).length * a.graph.reversePostorder.length :=
        List.sum_le_card_nsmul _ _ hlength
    _ = a.fixpoint.rounds * {b | a.graph.Reaches b}.ncard := by
        rw [List.length_map, hrounds, hg.ncard_reaches]

theorem Onward.inOnePass (hs : s.Onward a.graph) (ht : s.Tallied a.graph) (hg : a.graph.Valid)
    (hsweeps : s.Sweeps a.graph) (hempty : s.worklist = [])
    (hresult : a.fixpoint = s.result record) : a.InOnePass s.blocks := by
  have hvisits : a.fixpoint.visits = s.blocks.length := hresult ▸ ht.visits
  have hrounds : a.fixpoint.rounds = (a.graph.passes s.blocks).length := hresult ▸ ht.rounds
  have hmem : ∀ b, b ∈ s.blocks ↔ b ∈ a.graph.reversePostorder := fun b => by
    rw [← ht.seen, hg.mem_reversePostorder]
    exact ⟨hsweeps.reaches_of_seen, hsweeps.seen hempty⟩
  have hnodup := FlowGraph.nodup_of_ascending hs.ascending
  have horder : s.blocks = a.graph.reversePostorder := by
    have hperm := (List.perm_ext_iff_of_nodup hnodup hg.nodup_reversePostorder).mpr hmem
    exact hperm.eq_of_pairwise (fun _ _ _ _ hlt hlt' => absurd hlt' (Nat.lt_asymm hlt)) hs.ascending
      hg.pairwise_reversePostorder
  refine ⟨?_, horder, fun b hb => ?_, ?_⟩
  · have hentry : s.blocks ≠ [] :=
      List.ne_nil_of_mem ((hmem _).mpr (hg.mem_reversePostorder.mpr .refl))
    have hchain := List.isChain_iff_pairwise.mpr hs.ascending
    rw [hrounds, FlowGraph.passes, List.splitBy_of_isChain hentry (by simpa using hchain)]
    rfl
  · exact List.count_eq_one_of_mem hnodup ((hmem b).mpr (hg.mem_reversePostorder.mpr hb))
  · rw [hvisits, horder, hg.ncard_reaches]

end Solving

namespace Checker

variable {c : Checker} {s : AnalysisSettings} {u : ProgramUnit} {g : FlowGraph} {a : AnalyzedUnit}

/-- An analysis that keeps no history makes the visits that one with a history makes. -/
theorem analyzeGraph_recording (h : c.analyzeGraph s u g = .ok a) :
    ∃ initial limit solving, a.graph = g ∧
      Solving.run (UnitAnalysis.new c g initial).dataflow g g.ranks limit limit
        (.start g (UnitAnalysis.new c g initial).noValues) = .ok solving ∧
      a.fixpoint = solving.result s.recordHistory ∧
      c.analyzeGraph { s with recordHistory := true } u g =
        .ok { a with fixpoint := solving.result true } := by
  rw [analyzeGraph_eq] at h ⊢
  obtain ⟨initial, hinitial, h⟩ := bind_ok.mp h
  obtain ⟨bound, hbound, h⟩ := bind_ok.mp h
  obtain ⟨⟨fixpoint, solved⟩, hsolve, h⟩ := bind_ok.mp h
  obtain ⟨⟨values, diagnostics⟩, hconclude, h⟩ := bind_ok.mp h
  cases h
  obtain ⟨solving, hrun, heq⟩ := bind_ok.mp hsolve
  cases heq
  refine ⟨initial, _, solving, rfl, hrun, rfl, bind_ok.mpr ⟨initial, hinitial,
    bind_ok.mpr ⟨bound, hbound, bind_ok.mpr ⟨(solving.result true, solving.state), ?_,
      bind_ok.mpr ⟨(values, diagnostics), hconclude, rfl⟩⟩⟩⟩⟩
  exact bind_ok.mpr ⟨solving, hrun, rfl⟩

/-- The visits of an analysis fall into passes, as many as it counts rounds, in none of which a
block is visited twice. Where no cycle can be reached there is one pass, which visits each block
that can be reached once. -/
theorem analyzeGraph_passes (hg : g.Accepted) (h : c.analyzeGraph s u g = .ok a) :
    a.graph = g ∧ ∃ history,
      c.analyzeGraph { s with recordHistory := true } u g =
        .ok { a with fixpoint := { a.fixpoint with history := some history } } ∧
      a.InPasses (history.map Visit.block) ∧
      (g.Acyclic ∨ (∃ unit : ProgramUnit, unit.loopFree = true ∧ unit.lower = .ok g) →
        a.InOnePass (history.map Visit.block)) := by
  obtain ⟨initial, limit, solving, rfl, hrun, hresult, hrecorded⟩ := analyzeGraph_recording h
  have hvalid := hg.valid
  obtain ⟨hsteps, hempty⟩ := Solving.run_advances hrun
  have hsweeps : solving.Sweeps a.graph := (UnitAnalysis.advances_evaluated hvalid hsteps).1
  have htallied : solving.Tallied a.graph := UnitAnalysis.advances_tallied hvalid hsteps
  refine ⟨rfl, solving.log.reverse, ?_, htallied.inPasses hvalid hsweeps hresult,
    fun hacyclic => ?_⟩
  · rw [hrecorded, hresult]
    rfl
  · have hacyclic : a.graph.Acyclic := by
      rcases hacyclic with hacyclic | ⟨unit, hfree, hlower⟩
      · exact hacyclic
      · exact ProgramUnit.lower_acyclic hfree hlower
    have honward : solving.Onward a.graph := UnitAnalysis.advances_onward hvalid hacyclic hg.homed
      (fun _ hid => UnitAnalysis.getD_consumers_new hid) hsteps
    exact honward.inOnePass htallied hvalid hsweeps hempty hresult

end Checker

/-- A unit that branches, returns early and fails through a final body, without a loop. -/
def screeningUnit : ProgramUnit where
  name := "screening"
  params := [⟨"first", some "Present"⟩]
  returnQualifier := none
  body := [
    .localDecl "found" none (some (.call none "next" [.var "first"] [])),
    .tryCatch
      [.ifElse (.binary .and (.call none "isPresent" [.var "found"] [])
        (.call none "opened" [] ["Refused"])) [.returnValue (some (.var "found"))] none]
      [.clause "Refused" none [.assign (.local "found") (.new "Item" [])]]
      (some [.expr (.call none "release" [] [])]),
    .returnValue (some (.ternary (.call none "ready" [] []) (.var "found") (.var "first")))]

theorem screeningUnit_inOnePass : ∃ c g a, Checker.ofDeclaration presence = .ok c ∧
    screeningUnit.loopFree = true ∧ screeningUnit.lower = .ok g ∧
    c.analyzeGraph .standard screeningUnit g = .ok a ∧ a.graph = g ∧ ∃ history,
      c.analyzeGraph { AnalysisSettings.standard with recordHistory := true } screeningUnit g =
        .ok { a with fixpoint := { a.fixpoint with history := some history } } ∧
      a.InPasses (history.map Visit.block) ∧ a.InOnePass (history.map Visit.block) := by
  have hok : ((Checker.ofDeclaration presence).toOption.bind fun c =>
      screeningUnit.lower.toOption.bind fun g =>
        (c.analyzeGraph .standard screeningUnit g).toOption).isSome = true := by decide +kernel
  obtain ⟨a, h⟩ := Option.isSome_iff_exists.mp hok
  obtain ⟨c, hc, h⟩ := Option.bind_eq_some_iff.mp h
  obtain ⟨g, hg, ha⟩ := Option.bind_eq_some_iff.mp h
  have hg := ok_of_toOption hg
  have ha := ok_of_toOption ha
  have hfree : screeningUnit.loopFree = true := by decide
  obtain ⟨hgraph, history, hrecorded, hpasses, hone⟩ := Checker.analyzeGraph_passes (.lowered hg) ha
  exact ⟨c, g, a, ok_of_toOption hc, hfree, hg, ha, hgraph, history, hrecorded, hpasses,
    hone (.inr ⟨screeningUnit, hfree, hg⟩)⟩

end FlowTyping
