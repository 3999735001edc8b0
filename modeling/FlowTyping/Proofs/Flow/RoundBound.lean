import FlowTyping.Proofs.Flow.VisitBound

/-!
How many passes over the blocks an analysis takes. A pass ends when a block before the one just
visited waits, and only an edge that leads back in reverse postorder makes such a block wait.
-/

namespace FlowTyping

open Relation

namespace FlowGraph

/-- The edges from blocks that can be reached that lead back in reverse postorder. -/
def retreats (g : FlowGraph) : List (BlockId × BlockId) :=
  g.blockGraph.edges.filter fun e => g.isReachable e.1 && decide (g.rank e.2 ≤ g.rank e.1)

/-- The passes that the worklist needs at most: the facts climb on every edge that leads back,
for each key in both outcomes. -/
def roundBound (g : FlowGraph) (height : Nat) : Nat :=
  1 + g.retreats.length * (2 * g.nodeCount * height + 2)

variable {g : FlowGraph} {a b : BlockId}

theorem mem_retreats (hg : g.Valid) (ha : g.Reaches a) :
    (a, b) ∈ g.retreats ↔ b ∈ g.successors a ∧ g.rank b ≤ g.rank a := by
  have hreachable : g.isReachable a = true := by
    rw [isReachable, decide_eq_true_eq]
    exact fun hmem => (hg.unreachable.mp hmem).2 ha
  rw [retreats, List.mem_filter, mem_blockGraph hg, hreachable, Bool.true_and, decide_eq_true_eq]

/-- Blocks that can be reached have places of their own, before all others. -/
theorem eq_of_rank_eq (hg : g.Valid) (ha : g.Reaches a) (hb : g.Reaches b)
    (h : g.rank a = g.rank b) : a = b := by
  rw [rank_eq (hg.lt_of_reach ha), rank_eq (hg.lt_of_reach hb)] at h
  exact (List.idxOf_inj (hg.mem_reversePostorder.mpr ha)).mp h

theorem rank_lt_of_not_reaches (hg : g.Valid) (ha : g.Reaches a) (hb : b < g.size)
    (hnot : ¬ g.Reaches b) : g.rank a < g.rank b := by
  rw [rank_eq (hg.lt_of_reach ha), rank_eq hb,
    List.idxOf_eq_length fun hmem => hnot (hg.mem_reversePostorder.mp hmem)]
  exact List.idxOf_lt_length_of_mem (hg.mem_reversePostorder.mpr ha)

end FlowGraph

namespace Solving

variable {Fact σ : Type} {a : DataflowAnalysis Fact σ} {g : FlowGraph} {ranks : Array Nat}
  {Fine : Fact → Prop} {FineState : σ → Prop} {level : Fact → Nat} {s s' : Solving Fact σ}
  {block : BlockId} {l : List BlockId}

/-- The order of waiting blocks: by rank, and by id within a rank. -/
def Before (ranks : Array Nat) (x y : BlockId) : Prop :=
  ranks.getD x 0 < ranks.getD y 0 ∨ ranks.getD x 0 = ranks.getD y 0 ∧ x < y

/-- Waiting blocks are listed in order, each once. -/
def Placed (ranks : Array Nat) (l : List BlockId) : Prop := l.Pairwise (Before ranks)

theorem Before.trans {x y z : BlockId} (h : Before ranks x y) (h' : Before ranks y z) :
    Before ranks x z := by
  rcases h with h | ⟨heq, h⟩
  · rcases h' with h' | ⟨heq', -⟩
    · exact .inl (Nat.lt_trans h h')
    · exact .inl (heq' ▸ h)
  · rcases h' with h' | ⟨heq', h'⟩
    · exact .inl (heq ▸ h')
    · exact .inr ⟨heq.trans heq', Nat.lt_trans h h'⟩

/-- Of two blocks one is before the other. -/
theorem before_of_not_before {x y : BlockId} (hne : (ranks.getD x 0, x) ≠ (ranks.getD y 0, y))
    (h : ¬ Before ranks x y) : Before ranks y x := by
  rw [Before, not_or, not_and, Nat.not_lt] at h
  rcases Nat.lt_or_eq_of_le h.1 with hlt | heq
  · exact .inl hlt
  · refine .inr ⟨heq, Nat.lt_of_le_of_ne (Nat.not_lt.mp (h.2 heq.symm)) fun hid => ?_⟩
    exact hne (Prod.ext heq.symm hid.symm)

theorem schedule_placed (h : Placed ranks l) : Placed ranks (schedule ranks block l) := by
  induction l with
  | nil => exact List.pairwise_singleton _ _
  | cons other rest ih =>
      obtain ⟨hother, hrest⟩ := List.pairwise_cons.mp h
      unfold schedule
      dsimp only
      split
      · exact h
      · rename_i hne
        have hplaces : (decide (ranks.getD block 0 < ranks.getD other 0) ||
            decide (ranks.getD block 0 = ranks.getD other 0) && decide (block < other)) = true ↔
              Before ranks block other := by
          rw [Before, Bool.or_eq_true, Bool.and_eq_true, decide_eq_true_eq, decide_eq_true_eq,
            decide_eq_true_eq]
        split
        · rename_i hplace
          have hbefore := hplaces.mp hplace
          exact List.pairwise_cons.mpr ⟨List.forall_mem_cons.mpr
            ⟨hbefore, fun x hx => hbefore.trans (hother x hx)⟩, h⟩
        · rename_i hplace
          have hafter := before_of_not_before hne fun h => hplace (hplaces.mpr h)
          refine List.pairwise_cons.mpr ⟨fun x hx => ?_, ih hrest⟩
          rcases mem_schedule.mp hx with rfl | hx
          · exact hafter
          · exact hother x hx

/-- The invariant of the messages of a visit in a pass: a block that is not after the visited one
waits only if an edge back has climbed since. -/
structure Sending (g : FlowGraph) (level : Fact → Nat) (block : BlockId) (rounds : Nat)
    (s : Solving Fact σ) : Prop where
  placed : Placed g.ranks s.worklist
  rounds_le : rounds ≤ 1 + s.climbed level g.retreats
  earlier : ∀ x ∈ s.worklist, g.rank x ≤ g.rank block → rounds ≤ s.climbed level g.retreats

theorem Sending.propagate (hA : a.Climbs g Fine FineState level) (hg : g.Valid) {rounds : Nat}
    (hs : s.Sending g level block rounds) (hblock : g.Reaches block) {e : BlockId × Fact}
    (hedge : e.1 ∈ g.successors block) (hfine : ∀ f, s.edgeFact? block e.1 = some f → Fine f)
    (he : Fine e.2) : (propagate a g.ranks block s e).Sending g level block rounds := by
  rcases propagate_cases hA hfine he with heq | ⟨hwork, hclimbs⟩
  · rw [heq]
    exact hs
  · have hclimb := hclimbs g.retreats
    have hmore := hs.rounds_le
    refine ⟨hwork ▸ schedule_placed hs.placed, by omega, fun x hx hle => ?_⟩
    rcases mem_schedule.mp (hwork ▸ hx) with rfl | hx
    · rw [if_pos ((FlowGraph.mem_retreats hg hblock).mpr ⟨hedge, hle⟩)] at hclimb
      omega
    · have hold := hs.earlier x hx hle
      omega

theorem Sending.revisit {rounds : Nat} (hs : s.Sending g level block rounds) {x : BlockId}
    (hx : g.rank block < g.rank x) : (revisit g.ranks s x).Sending g level block rounds := by
  unfold Solving.revisit
  split
  · exact hs
  · refine ⟨schedule_placed hs.placed, hs.rounds_le, fun y hy hle => ?_⟩
    rcases mem_schedule.mp hy with rfl | hy
    · exact absurd hx (Nat.not_lt.mpr hle)
    · exact hs.earlier y hy hle

/-- The invariant of the visits: where a block waits with which a pass begins, an edge back has
climbed for that pass. -/
structure Rounded (g : FlowGraph) (level : Fact → Nat) (s : Solving Fact σ) : Prop where
  placed : Placed g.ranks s.worklist
  rounds_le : s.rounds ≤ 1 + s.climbed level g.retreats
  begins : ∀ x ∈ s.worklist, s.beginsRound (g.rank x) = true →
    s.rounds ≤ s.climbed level g.retreats

theorem start_rounded {st : σ} : (start g st : Solving Fact σ).Rounded g level where
  placed := List.pairwise_singleton _ _
  rounds_le := Nat.zero_le _
  begins _ _ _ := Nat.zero_le _

theorem advance_rounded (hA : a.Climbs g Fine FineState level) (hg : g.Valid)
    (hlater : ∀ {st st' : σ} {b : BlockId} {f : Fact} {r : BlockTransfer Fact}, g.Reaches b →
      a.transfer st b f = .ok (r, st') → ∀ x ∈ r.revisit, g.rank b < g.rank x)
    (hfed : s.Fed g Fine FineState) (hreaches : ∀ x ∈ s.worklist, g.Reaches x)
    (hs : s.Rounded g level) (h : Advance a g g.ranks s s') : s'.Rounded g level := by
  obtain ⟨block, rest, hwork, hvisit⟩ := h
  obtain ⟨r, begun, ins, outs, htransfer, hbegun, hcounts, heq⟩ := visit_counted hvisit
  have hmem : block ∈ s.worklist := hwork ▸ List.mem_cons_self
  have hblock := hreaches block hmem
  obtain ⟨-, hedges⟩ := hA.transfer hfed.state (hfed.input hA hg (.inl hmem)) htransfer
  have hfine : ∀ t f, begun.edgeFact? block t = some f → Fine f :=
    fun t f hf => (hfed.edge block t f ((hbegun.edge block t).symm.trans hf)).1
  have hclimbed : begun.climbed level g.retreats = s.climbed level g.retreats :=
    climbed_congr hbegun.edge
  obtain ⟨hfirst, hrest⟩ := List.pairwise_cons.mp (hwork ▸ hs.placed)
  have hrounds : begun.rounds ≤ 1 + s.climbed level g.retreats := by
    rw [hbegun.rounds]
    split
    · rename_i hbegins
      have hle := hs.begins block hmem hbegins
      change s.rounds + 1 ≤ _
      omega
    · exact hs.rounds_le
  have hbegin : begun.Sending g level block begun.rounds := by
    refine ⟨hbegun.worklist ▸ hrest, hclimbed ▸ hrounds, fun x hx hle => ?_⟩
    -- Every other block that waits is after the visited one.
    rw [hbegun.worklist] at hx
    have hxreach := hreaches x (hwork ▸ List.mem_cons_of_mem block hx)
    rcases hfirst x hx with hlt | ⟨hsame, hlt⟩
    · exact absurd hlt (Nat.not_lt.mpr hle)
    · obtain rfl := FlowGraph.eq_of_rank_eq hg hblock hxreach hsame
      exact absurd hlt (Nat.lt_irrefl _)
  have hsent : (r.edges.foldl (propagate a g.ranks block) begun).Sending g level block
      begun.rounds := by
    refine propagate_induction hA (P := Sending g level block begun.rounds) ?_ hfine hedges hbegin
    exact fun s' e he hs' hfine =>
      hs'.propagate hA hg hblock (hA.follows htransfer e he) hfine (hedges e he)
  have hwoken : ∀ l ⊆ r.revisit, ∀ s' : Solving Fact σ, s'.Sending g level block begun.rounds →
      (l.foldl (revisit g.ranks) s').Sending g level block begun.rounds := by
    intro l hl
    induction l with
    | nil => exact fun _ hs' => hs'
    | cons x rest ih =>
        obtain ⟨hx, hrest⟩ := List.cons_subset.mp hl
        exact fun s' hs' => ih hrest _ (hs'.revisit (hlater hblock htransfer x hx))
  have hend := hwoken r.revisit (List.Subset.refl _) _ hsent
  have hcongr : s'.climbed level g.retreats = (r.revisit.foldl (revisit g.ranks)
      (r.edges.foldl (propagate a g.ranks block) begun)).climbed level g.retreats :=
    climbed_congr fun p t => by rw [heq]; rfl
  have hworklist : s'.worklist = (r.revisit.foldl (revisit g.ranks)
      (r.edges.foldl (propagate a g.ranks block) begun)).worklist := by rw [heq]
  refine ⟨hworklist ▸ hend.placed, ?_, fun x hx hbegins => ?_⟩
  · rw [hcounts.rounds, hcongr]
    exact hend.rounds_le
  · rw [hcounts.rounds, hcongr]
    refine hend.earlier x (hworklist ▸ hx) ?_
    rw [beginsRound, hcounts.lastRank, hbegun.lastRank] at hbegins
    exact of_decide_eq_true hbegins

end Solving

namespace UnitAnalysis

variable {u : UnitAnalysis} {V V' : NodeValues} {b x : BlockId} {f : TransferResult}
  {r : BlockTransfer TransferResult}

/-- A run sends for readers of its nodes only. -/
theorem runNodes_revisit {ids : List NodeId} {run run' : BlockRun} {e : Option AnalysisError}
    (h : u.runNodes ids run = (run', e)) (hx : x ∈ run'.revisit) :
    x ∈ run.revisit ∨ ∃ id ∈ ids, x ∈ u.consumers.getD id [] := by
  induction ids generalizing run with
  | nil =>
      cases h
      exact .inl hx
  | cons id rest ih =>
      rw [runNodes] at h
      split at h
      · refine (ih h).imp_right ?_
        rintro ⟨j, hj, hread⟩
        exact ⟨j, List.mem_cons_of_mem id hj, hread⟩
      · split at h
        · cases h
          exact .inl hx
        · rcases ih h with hold | ⟨j, hj, hread⟩
          · rw [recordValue_eq] at hold
            split at hold
            · exact .inl hold
            · rcases List.mem_append.mp hold with hold | hread
              · exact .inl hold
              · exact .inr ⟨id, List.mem_cons_self, List.mem_of_mem_filter hread⟩
          · exact .inr ⟨j, List.mem_cons_of_mem id hj, hread⟩

theorem exists_user {g : FlowGraph} {o : NodeId} (hx : x ∈ g.consumersOf o) :
    ∃ j user, g.node? j = some user ∧ o ∈ user.kind.operands ∧
      (g.node? o).map Node.block ≠ some user.block ∧ user.block = x := by
  unfold FlowGraph.consumersOf at hx
  dsimp only at hx
  rw [Digraph.mem_distinct, List.mem_filterMap] at hx
  obtain ⟨user, huser, hsome⟩ := hx
  obtain ⟨hreads, hblock⟩ := Option.ite_none_right_eq_some.mp hsome
  obtain ⟨j, hj⟩ := Array.mem_iff_getElem?.mp (Array.mem_toList_iff.mp huser)
  rw [Bool.and_eq_true, decide_eq_true_eq, decide_eq_true_eq] at hreads
  exact ⟨j, user, hj, hreads.1, hreads.2, Option.some.inj hblock⟩

/-- A transfer sends for the blocks that read its nodes from elsewhere. -/
theorem transferBlock_reader (hg : u.graph.Valid)
    (hconsumers : ∀ id < u.graph.nodeCount, u.consumers.getD id [] = u.graph.consumersOf id)
    (h : u.transferBlock V b f = .ok (r, V')) (hx : x ∈ r.revisit) :
    x ≠ b ∧ ∃ id j user, u.graph.Home id b ∧ u.graph.node? j = some user ∧
      id ∈ user.kind.operands ∧ user.block = x := by
  cases hblock : u.graph.block? b with
  | none =>
      rw [transferBlock, hblock] at h
      cases h
      cases hx
  | some block =>
      obtain ⟨run, hrun, -, -, hrevisit⟩ := transferBlock_edges hg hblock h
      obtain ⟨id, hid, hread⟩ :=
        (runNodes_revisit hrun (hrevisit ▸ hx)).resolve_left List.not_mem_nil
      obtain ⟨n, hn, hhome⟩ := hg.listed hblock id hid
      rw [hconsumers id (node?_lt hn)] at hread
      obtain ⟨j, user, huser, hoperand, haway, rfl⟩ := exists_user hread
      refine ⟨fun heq => haway ?_, id, j, user, ⟨block, hblock, hid⟩, huser, hoperand, rfl⟩
      rw [hn, Option.map_some, hhome, heq]

/-- The readers of a node in other blocks come after its block in reverse postorder. -/
theorem transferBlock_later {T : Timetable} (hT : T.Fits u.graph.nodes u.graph.piece?)
    (hentry : T.waits u.graph.entry = []) (hg : u.graph.Valid)
    (hhomed : ∀ {id : NodeId} {n : Node}, u.graph.node? id = some n → u.graph.Home id n.block)
    (hconsumers : ∀ id < u.graph.nodeCount, u.consumers.getD id [] = u.graph.consumersOf id)
    (hb : u.graph.Reaches b) (h : u.transferBlock V b f = .ok (r, V')) (hx : x ∈ r.revisit) :
    u.graph.rank b < u.graph.rank x := by
  obtain ⟨hne, id, j, user, hid, huser, hoperand, rfl⟩ := transferBlock_reader hg hconsumers h hx
  obtain ⟨reader, hreader, hj⟩ := hhomed huser
  by_cases hreach : u.graph.Reaches user.block
  · obtain ⟨pre, post, hnodes⟩ := List.append_of_mem hj
    rcases hT.operand_source hg hentry hreader hnodes huser hoperand with
      hpre | ⟨m, hm, -, hbefore⟩
    · have hin : id ∈ reader.nodes := hnodes ▸ List.mem_append_left _ hpre
      exact absurd (hg.home_unique ⟨reader, hreader, hin⟩ hid) hne
    · obtain rfl := hg.home_unique hm hid
      exact (hbefore hreach).2
  · exact FlowGraph.rank_lt_of_not_reaches hg hb (Array.getElem?_eq_some_iff.mp hreader).1 hreach

/-- Solving takes no more passes than the bound of the graph, if readers come later. -/
theorem Level.rounds_le {depth : Qualifier → Nat} (h : u.Level depth)
    (hlater : ∀ {V V' : NodeValues} {b : BlockId} {f : TransferResult}
      {r : BlockTransfer TransferResult}, u.graph.Reaches b →
      u.transferBlock V b f = .ok (r, V') → ∀ x ∈ r.revisit, u.graph.rank b < u.graph.rank x)
    {limit : Nat} {record : Bool} {fixpoint : Fixpoint TransferResult}
    (hsolve : solve u.dataflow u.graph limit record u.noValues = .ok (fixpoint, V)) :
    fixpoint.rounds ≤ u.graph.roundBound u.checker.hierarchy.height := by
  obtain ⟨s, hrun, heq⟩ := bind_ok.mp hsolve
  cases heq
  have hsteps := (Solving.run_advances hrun).1
  have hstart : (Solving.start u.graph u.noValues).Fed u.graph u.Admits u.AdmitsValues :=
    Solving.start_fed Fit.start_under
  have hrounded : s.Rounded u.graph (TransferResult.level depth u.touched) := by
    clear hrun hsolve
    induction hsteps with
    | refl => exact Solving.start_rounded
    | tail hsteps hstep ih =>
        have hfed := Solving.advances_fed h.climbs h.valid hstart hsteps
        have hsweeps := (advances_evaluated h.valid hsteps).1
        exact Solving.advance_rounded h.climbs h.valid hlater hfed
          (fun x hx => hsweeps.reaches hx) ih hstep
  have hfed := Solving.advances_fed h.climbs h.valid hstart hsteps
  have hclimbed : s.climbed (TransferResult.level depth u.touched) u.graph.retreats ≤
      u.graph.retreats.length * (2 * u.graph.nodeCount * u.checker.hierarchy.height + 1 + 1) :=
    hfed.climbed_le fun f _ => h.level_le f
  exact hrounded.rounds_le.trans (Nat.add_le_add_left hclimbed 1)

end UnitAnalysis

/-- The analysis of a unit takes no more passes than the bound of its graph. -/
theorem Checker.analyze_rounds {d : CheckerDeclaration} {c : Checker}
    (hc : Checker.ofDeclaration d = .ok c) {s : AnalysisSettings} {u : ProgramUnit}
    {a : AnalyzedUnit} (ha : c.analyze s u = .ok a) :
    u.lower = .ok a.graph ∧ a.fixpoint.rounds ≤ a.graph.roundBound c.hierarchy.height := by
  obtain ⟨g, hlower, ha⟩ := bind_ok.mp ha
  obtain ⟨rfl, initial, bound, limit, solved, hinitial, -, hsolve, -⟩ :=
    analyzeGraph_ok (Hierarchy.mapError_ok ha)
  have hlower := Hierarchy.mapError_ok hlower
  have hg := ProgramUnit.lower_valid hlower
  obtain ⟨depth, hdepth⟩ := Checker.ofDeclaration_graded hc
  have hlevel := UnitAnalysis.level_new (Checker.ofDeclaration_sound hc) hdepth hg hinitial
  obtain ⟨T, hT, hentry⟩ := ProgramUnit.lower_timetable hlower
  refine ⟨hlower, hlevel.rounds_le (fun hb htransfer x hx => ?_) hsolve⟩
  exact UnitAnalysis.transferBlock_later hT hentry hg (ProgramUnit.lower_homed hlower)
    hlevel.consumers hb htransfer hx

theorem followingUnit_rounds : ∃ c a, Checker.ofDeclaration presence = .ok c ∧
    c.analyze .standard followingUnit = .ok a ∧ followingUnit.lower = .ok a.graph ∧
    a.fixpoint.rounds ≤ a.graph.roundBound c.hierarchy.height := by
  have hok : ((Checker.ofDeclaration presence).toOption.bind fun c =>
      (c.analyze .standard followingUnit).toOption).isSome = true := by decide +kernel
  obtain ⟨a, h⟩ := Option.isSome_iff_exists.mp hok
  obtain ⟨c, hc, ha⟩ := Option.bind_eq_some_iff.mp h
  have hc := ok_of_toOption hc
  have ha := ok_of_toOption ha
  exact ⟨c, a, hc, ha, Checker.analyze_rounds hc ha⟩

/-- A unit in whose loop twelve locals each take what the one before had, so that what the first
parameter may be reaches one local more with every pass. -/
def shiftingUnit : ProgramUnit where
  name := "shifting"
  params := [⟨"a", none⟩, ⟨"z", some "Present"⟩]
  returnQualifier := none
  body :=
    ["b", "c", "d", "e", "f", "g", "h", "i", "j", "k", "l", "m"].map
      (fun name => .localDecl name none (some (.var "z"))) ++
    [.forLoop none [] none []
      ([("m", "l"), ("l", "k"), ("k", "j"), ("j", "i"), ("i", "h"), ("h", "g"), ("g", "f"),
        ("f", "e"), ("e", "d"), ("d", "c"), ("c", "b"), ("b", "a")].map
        fun (target, source) => .assign (.local target) (.var source))]

/-- The passes are not bounded by the qualifiers and the blocks: the keys of a unit count as
well. -/
theorem shiftingUnit_rounds : ∃ c a, Checker.ofDeclaration presence = .ok c ∧
    c.analyze .standard shiftingUnit = .ok a ∧
    c.hierarchy.names.length * a.graph.size < a.fixpoint.rounds := by
  have hok : ((Checker.ofDeclaration presence).toOption.bind fun c =>
      (c.analyze .standard shiftingUnit).toOption.map fun a =>
        decide (c.hierarchy.names.length * a.graph.size < a.fixpoint.rounds)) = some true := by
    decide +kernel
  obtain ⟨c, hc, h⟩ := Option.bind_eq_some_iff.mp hok
  obtain ⟨a, ha, h⟩ := Option.map_eq_some_iff.mp h
  exact ⟨c, a, ok_of_toOption hc, ok_of_toOption ha, of_decide_eq_true h⟩

end FlowTyping
