import FlowTyping.Proofs.Flow.VisitBound

/-!
Why solving ends on its own. A visit moves facts and qualifiers upwards only, and a block waits
again only where one of those that it reads has strictly risen; they rise over finitely many keys
and a hierarchy of finite height.
-/

namespace FlowTyping

open Relation

namespace Solving

variable {Fact σ : Type} {a : DataflowAnalysis Fact σ} {g : FlowGraph} {ranks : Array Nat}
  {Fine : Fact → Prop} {FineState : σ → Prop} {level : Fact → Nat} {le : Fact → Fact → Prop}
  {s s' s'' : Solving Fact σ} {block source : BlockId}

theorem climbed_singleton (s : Solving Fact σ) (e : BlockId × BlockId) :
    s.climbed level [e] = s.edgeLevel level e := by
  simp [climbed]

/-- An edge that is higher than before has a fact, of a higher level than what it had. -/
theorem exists_of_edgeLevel_lt {p t : BlockId}
    (h : s.edgeLevel level (p, t) < s'.edgeLevel level (p, t)) :
    ∃ f', s'.edgeFact? p t = some f' ∧ ∀ f, s.edgeFact? p t = some f → level f < level f' := by
  unfold edgeLevel at h
  cases hf' : s'.edgeFact? p t with
  | none =>
      rw [hf'] at h
      exact absurd h (Nat.not_lt_zero _)
  | some f' =>
      refine ⟨f', rfl, fun f hf => ?_⟩
      rw [hf, hf'] at h
      exact Nat.lt_of_succ_lt_succ h

/-- What the messages along the edges of a block do: facts move upwards, and a block comes to wait
only where its edge has climbed. -/
structure Delivers (level : Fact → Nat) (le : Fact → Fact → Prop) (source : BlockId)
    (s s' : Solving Fact σ) : Prop where
  upwards : ∀ p t f, s.edgeFact? p t = some f → ∃ f', s'.edgeFact? p t = some f' ∧ le f f'
  climbs : ∀ e, s.edgeLevel level e ≤ s'.edgeLevel level e
  waits : ∀ x ∈ s'.worklist, x ∈ s.worklist ∨
    s.edgeLevel level (source, x) < s'.edgeLevel level (source, x)

/-- A message moves the fact of its edge upwards. -/
theorem upwards_propagate (hrefl : ∀ {x}, Fine x → le x x)
    (hjoin : ∀ {x y}, Fine x → Fine y → le x (a.join x y)) {e : BlockId × Fact}
    (hfine : ∀ p t f, s.edgeFact? p t = some f → Fine f) (he : Fine e.2) {p t : BlockId} {f : Fact}
    (hf : s.edgeFact? p t = some f) :
    ∃ f', (propagate a ranks source s e).edgeFact? p t = some f' ∧ le f f' := by
  rw [edgeFact?_propagate]
  split
  · rename_i hpt
    obtain ⟨rfl, rfl⟩ := hpt
    refine ⟨_, rfl, ?_⟩
    rw [hf, DataflowAnalysis.absorb]
    split
    · exact hrefl (hfine _ _ _ hf)
    · exact hjoin (hfine _ _ _ hf) he
  · exact ⟨f, hf, hrefl (hfine p t f hf)⟩

theorem foldl_propagate_delivers (ranks : Array Nat) (source : BlockId)
    (hA : a.Climbs g Fine FineState level)
    (hrefl : ∀ {x}, Fine x → le x x) (htrans : ∀ {x y z}, le x y → le y z → le x z)
    (hjoin : ∀ {x y}, Fine x → Fine y → le x (a.join x y)) {edges : List (BlockId × Fact)}
    (hfine : ∀ p t f, s.edgeFact? p t = some f → Fine f) (hedges : ∀ e ∈ edges, Fine e.2) :
    s.Delivers level le source (edges.foldl (propagate a ranks source) s) := by
  induction edges generalizing s with
  | nil =>
      exact ⟨fun p t f hf => ⟨f, hf, hrefl (hfine p t f hf)⟩, fun _ => Nat.le_refl _,
        fun _ hx => .inl hx⟩
  | cons e rest ih =>
      obtain ⟨he, hrest⟩ := List.forall_mem_cons.mp hedges
      have hnext : ∀ p t f, (propagate a ranks source s e).edgeFact? p t = some f → Fine f := by
        intro p t f hf
        rw [edgeFact?_propagate] at hf
        split at hf
        · cases hf
          exact hA.absorb (hfine source e.1) he
        · exact hfine p t f hf
      have hlater := ih hnext hrest
      have hfirst :
          (∀ e', s.edgeLevel level e' ≤ (propagate a ranks source s e).edgeLevel level e') ∧
          ∀ x ∈ (propagate a ranks source s e).worklist, x ∈ s.worklist ∨
            s.edgeLevel level (source, x) <
              (propagate a ranks source s e).edgeLevel level (source, x) := by
        rcases propagate_cases hA (hfine source e.1) he with heq | ⟨hwork, hclimbs⟩
        · rw [heq]
          exact ⟨fun _ => Nat.le_refl _, fun _ hx => .inl hx⟩
        · simp only [← climbed_singleton]
          refine ⟨fun e' => (Nat.le_add_right _ _).trans (hclimbs [e']), fun x hx => ?_⟩
          rcases mem_schedule.mp (hwork ▸ hx) with rfl | hx
          · have hclimb := hclimbs [(source, e.1)]
            rw [if_pos (List.mem_singleton.mpr rfl)] at hclimb
            exact .inr hclimb
          · exact .inl hx
      refine ⟨fun p t f hf => ?_, fun e' => (hfirst.1 e').trans (hlater.climbs e'), fun x hx => ?_⟩
      · obtain ⟨f', hf', hle⟩ := upwards_propagate hrefl hjoin hfine he hf
        obtain ⟨f'', hf'', hle'⟩ := hlater.upwards p t f' hf'
        exact ⟨f'', hf'', htrans hle hle'⟩
      · rcases hlater.waits x hx with hx | hlt
        · exact (hfirst.2 x hx).imp_right fun hlt => hlt.trans_le (hlater.climbs _)
        · exact .inr ((hfirst.1 _).trans_lt hlt)

theorem mem_of_mem_foldl_revisit {blocks : List BlockId} {x : BlockId}
    (hx : x ∈ (blocks.foldl (revisit ranks) s).worklist) : x ∈ s.worklist ∨ x ∈ blocks := by
  induction blocks generalizing s with
  | nil => exact .inl hx
  | cons y rest ih =>
      rcases ih hx with hx | hx
      · unfold revisit at hx
        split at hx
        · exact .inl hx
        · exact (mem_schedule.mp hx).symm.imp_right fun h => List.mem_cons.mpr (.inl h)
      · exact .inr (List.mem_cons_of_mem y hx)

/-- A visit moves facts upwards. A block waits after it because it did before, because its edge has
climbed, or because the visit sends for it. -/
theorem advance_delivers (le : Fact → Fact → Prop) (hA : a.Climbs g Fine FineState level)
    (hg : g.Valid) (hrefl : ∀ {x}, Fine x → le x x)
    (htrans : ∀ {x y z}, le x y → le y z → le x z)
    (hjoin : ∀ {x y}, Fine x → Fine y → le x (a.join x y)) (hs : s.Fed g Fine FineState)
    (h : Advance a g ranks s s') :
    ∃ block f r, Fine f ∧ a.transfer s.state block f = .ok (r, s'.state) ∧
      (∀ p t f, s.edgeFact? p t = some f → ∃ f', s'.edgeFact? p t = some f' ∧ le f f') ∧
      ∀ x ∈ s'.worklist, x ∈ s.worklist.tail ∨ x ∈ r.revisit ∨
        s.edgeLevel level (block, x) < s'.edgeLevel level (block, x) := by
  obtain ⟨block, rest, hwork, hvisit⟩ := h
  obtain ⟨r, begun, ins, outs, htransfer, hbegun, -, heq⟩ := visit_counted hvisit
  have hinput := hs.input hA hg (.inl (hwork ▸ List.mem_cons_self : block ∈ s.worklist))
  obtain ⟨-, hedges⟩ := hA.transfer hs.state hinput htransfer
  have hfine : ∀ p t f, begun.edgeFact? p t = some f → Fine f :=
    fun p t f hf => (hs.edge p t f ((hbegun.edge p t).symm.trans hf)).1
  have hsent := foldl_propagate_delivers ranks block hA hrefl htrans hjoin hfine hedges
  have hedge : ∀ p t, s'.edgeFact? p t =
      (r.edges.foldl (propagate a ranks block) begun).edgeFact? p t := fun p t => by
    rw [heq]
    exact edgeFact?_foldl_revisit r.revisit p t
  have hlevel : ∀ e, s.edgeLevel level e = begun.edgeLevel level e := fun e => by
    unfold edgeLevel
    rw [hbegun.edge]
    rfl
  refine ⟨block, _, r, hinput, htransfer, fun p t f hf => ?_, fun x hx => ?_⟩
  · rw [hedge]
    exact hsent.upwards p t f ((hbegun.edge p t).trans hf)
  · have hx : x ∈ (r.revisit.foldl (revisit ranks)
        (r.edges.foldl (propagate a ranks block) begun)).worklist := by
      rw [heq] at hx
      exact hx
    rcases mem_of_mem_foldl_revisit hx with hx | hx
    · rcases hsent.waits x hx with hx | hlt
      · rw [hbegun.worklist] at hx
        exact .inl (hwork ▸ hx)
      · refine .inr (.inr ?_)
        rw [hlevel]
        unfold edgeLevel at hlt ⊢
        rw [hedge]
        exact hlt
    · exact .inr (.inl hx)

end Solving

namespace UnitAnalysis

variable {u : UnitAnalysis} {depth : Qualifier → Nat} {V V' : NodeValues} {b x : BlockId}
  {f : TransferResult} {r : BlockTransfer TransferResult} {id : NodeId} {ids : List NodeId}
  {q : Qualifier} {run run' run'' : BlockRun}

/-- What recording does: qualifiers of nodes move upwards, and a run sends for a block only where
a node that it reads has risen. -/
structure Raises (u : UnitAnalysis) (run run' : BlockRun) : Prop where
  values : run.values.Le u.checker.hierarchy run'.values
  sends : ∀ x ∈ run'.revisit, x ∈ run.revisit ∨ ∃ id, x ∈ u.graph.consumersOf id ∧
    run'.values.getD id none ≠ run.values.getD id none

/-- What has changed between tables that rise has changed in the end. -/
theorem ne_of_rises {h : Hierarchy} (hh : h.Lawful) {U : NodeValues} (hUV : U.Le h V)
    (hVV' : V.Le h V')
    (hne : V.getD id none ≠ U.getD id none ∨ V'.getD id none ≠ V.getD id none) :
    V'.getD id none ≠ U.getD id none := by
  intro heq
  cases hV : V.getD id none with
  | some q =>
      obtain ⟨q'', hq'', hle'⟩ := hVV' id q hV
      obtain ⟨q', hq', hle⟩ := hUV id q'' (heq ▸ hq'')
      cases hV.symm.trans hq'
      obtain rfl := hh.le_antisymm hle' hle
      exact hne.elim (fun h => h (hV.trans (hq''.symm.trans heq)))
        fun h => h (hq''.trans hV.symm)
  | none =>
      cases hU : U.getD id none with
      | none =>
          have hsame := heq.trans (hU.trans hV.symm)
          exact hne.elim (fun h => h (hV.trans hU.symm)) fun h => h hsame
      | some q =>
          obtain ⟨_, hq, -⟩ := hUV id q hU
          cases hV.symm.trans hq

theorem Raises.trans (hh : u.checker.hierarchy.Lawful) (h : u.Raises run run')
    (h' : u.Raises run' run'') : u.Raises run run'' where
  values := h.values.trans hh h'.values
  sends x hx := by
    rcases h'.sends x hx with hx | ⟨id, hid, hne⟩
    · rcases h.sends x hx with hx | ⟨id, hid, hne⟩
      · exact .inl hx
      · exact .inr ⟨id, hid, ne_of_rises hh h.values h'.values (.inl hne)⟩
    · exact .inr ⟨id, hid, ne_of_rises hh h.values h'.values (.inr hne)⟩

theorem recordValue_raises (hh : u.checker.hierarchy.Lawful) (hid : id < u.graph.nodeCount)
    (hconsumers : u.consumers.getD id [] = u.graph.consumersOf id)
    (hV : u.AdmitsValues run.values) (hq : u.checker.hierarchy.Has q) (next : TransferResult) :
    u.Raises run { u.recordValue id q run with current := next } := by
  have hsize : id < run.values.size := hV.left ▸ hid
  refine ⟨fun j o ho => ?_, fun x hx => ?_⟩
  · change ∃ q', (u.recordValue id q run).values.getD j none = some q' ∧ _
    rw [recordValue_values hsize]
    have hhas := hV.le.has hh ho
    by_cases hj : j = id
    · rw [if_pos hj]
      rw [hj] at ho
      refine ⟨_, rfl, ?_⟩
      rw [ho]
      exact hh.le_join_left hhas hq
    · rw [if_neg hj]
      exact ⟨o, ho, hh.le_refl hhas⟩
  · change x ∈ (u.recordValue id q run).revisit at hx
    rw [recordValue_eq] at hx
    by_cases hsame : run.values.getD id none =
        some (u.checker.hierarchy.joinOnto (run.values.getD id none) q)
    · rw [if_pos hsame] at hx
      exact .inl hx
    · rw [if_neg hsame] at hx
      refine (List.mem_append.mp hx).imp_right fun hx => ?_
      rw [hconsumers] at hx
      refine ⟨id, List.mem_of_mem_filter hx, ?_⟩
      change (u.recordValue id q run).values.getD id none ≠ _
      rw [recordValue_values hsize, if_pos rfl]
      exact Ne.symm hsame

theorem runNodes_raises (hc : u.checker.Sound)
    (hconsumers : ∀ id < u.graph.nodeCount, u.consumers.getD id [] = u.graph.consumersOf id)
    (hV : u.AdmitsValues run.values) (hf : run.current.Under u.checker.hierarchy run.current)
    (hrun : u.runNodes ids run = (run', none)) : u.Raises run run' := by
  have hh := hc.lawful
  induction ids generalizing run with
  | nil =>
      cases hrun
      exact ⟨hV.le, fun _ hx => .inl hx⟩
  | cons id rest ih =>
      cases hnode : u.graph.node? id with
      | none =>
          rw [runNodes, hnode] at hrun
          exact ih hV hf hrun
      | some node =>
          obtain ⟨q, next, htransfer, hrest⟩ := (runNodes_cons_ok hnode).mp hrun
          obtain ⟨hq, hnext⟩ := transferNode_mono hc hV.le hf htransfer htransfer
          have hid := node?_lt hnode
          have hone := recordValue_raises hh hid (hconsumers id hid) hV (hh.has_of_le hq).1 next
          exact hone.trans hh (ih (recordValue_mono hc hid hV hq) hnext hrest)

/-- The transfer of a block moves qualifiers upwards, and it sends for another block only where a
node that this block reads has risen. -/
theorem transferBlock_raises (hc : u.checker.Sound) (hg : u.graph.Valid)
    (hconsumers : ∀ id < u.graph.nodeCount, u.consumers.getD id [] = u.graph.consumersOf id)
    (hV : u.AdmitsValues V) (hf : f.Under u.checker.hierarchy f)
    (htransfer : u.transferBlock V b f = .ok (r, V')) :
    V.Le u.checker.hierarchy V' ∧ ∀ x ∈ r.revisit, ∃ id, x ∈ u.graph.consumersOf id ∧
      V'.getD id none ≠ V.getD id none := by
  cases hblock : u.graph.block? b with
  | none =>
      rw [transferBlock, hblock] at htransfer
      cases htransfer
      exact ⟨hV.le, fun _ hx => absurd hx List.not_mem_nil⟩
  | some block =>
      obtain ⟨run, hrun, rfl, -, hrevisit⟩ := transferBlock_edges hg hblock htransfer
      have hraises := runNodes_raises hc hconsumers hV hf hrun
      exact ⟨hraises.values, fun x hx =>
        (hraises.sends x (hrevisit ▸ hx)).resolve_left List.not_mem_nil⟩

/-- How the state of a solver moves in one visit: facts of edges and qualifiers of nodes move
upwards, and a block that did not wait waits only where the fact of an edge into it or the qualifier
of a node that it reads has strictly changed. -/
structure Rises (u : UnitAnalysis) (s s' : Solving TransferResult NodeValues) : Prop where
  edges : ∀ p t f, s.edgeFact? p t = some f →
    ∃ f', s'.edgeFact? p t = some f' ∧ f.isBelow u.checker.hierarchy f' = true
  values : ∀ id q, s.state.getD id none = some q →
    ∃ q', s'.state.getD id none = some q' ∧ u.checker.hierarchy.isSubtype q q' = true
  waits : ∀ b ∈ s'.worklist, b ∈ s.worklist.tail ∨
    (∃ p f', s'.edgeFact? p b = some f' ∧ ∀ f, s.edgeFact? p b = some f → f'.same f = false) ∨
    ∃ id, b ∈ u.graph.consumersOf id ∧ s'.state.getD id none ≠ s.state.getD id none

namespace Level

variable {ranks : Array Nat} {s s' : Solving TransferResult NodeValues}

/-- Facts of different levels say different things. -/
theorem same_eq_false (h : u.Level depth) {f f' : TransferResult} (hf : u.Admits f)
    (hf' : u.Admits f') (hlt : f.level depth u.touched < f'.level depth u.touched) :
    f'.same f = false := by
  by_contra hsame
  obtain ⟨hle, -⟩ := TransferResult.le_of_same h.sound.lawful hf'.under.left hf.under.left
    (eq_true_of_ne_false hsame)
  have hmono := TransferResult.level_mono (R := u.touched) h.graded hle hf'.under.live
  omega

theorem fed (h : u.Level depth)
    (hsteps : ReflTransGen (Solving.Advance u.dataflow u.graph ranks)
      (.start u.graph u.noValues) s) : s.Fed u.graph u.Admits u.AdmitsValues :=
  Solving.advances_fed h.climbs h.valid (Solving.start_fed Fit.start_under) hsteps

/-- The visits so far and the blocks that wait are within the bound of the graph. -/
theorem visits_le (h : u.Level depth)
    (hsteps : ReflTransGen (Solving.Advance u.dataflow u.graph ranks)
      (.start u.graph u.noValues) s) :
    s.visits + s.worklist.length ≤ u.graph.visitBound u.checker.hierarchy.height := by
  have hfed := h.fed hsteps
  have hvisits := Solving.advances_visits h.climbs h.charges h.valid Fit.start_under hsteps
  have hclimbed : s.climbed (TransferResult.level depth u.touched) u.graph.blockGraph.edges ≤
      u.graph.blockGraph.edges.length *
        (2 * u.graph.nodeCount * u.checker.hierarchy.height + 2) :=
    hfed.climbed_le fun f _ => h.level_le f
  have hvalues := valuesLevel_le h.graded s.state
  unfold FlowGraph.visitBound
  omega

theorem advance_rises (h : u.Level depth) (hs : s.Fed u.graph u.Admits u.AdmitsValues)
    (hstep : Solving.Advance u.dataflow u.graph ranks s s') : u.Rises s s' := by
  have hh := h.sound.lawful
  have hs' := Solving.advance_fed h.climbs h.valid hs hstep
  have hbelow {x y : TransferResult} (hx : u.Admits x) (hy : u.Admits y)
      (hle : x.Le u.checker.hierarchy y) : x.isBelow u.checker.hierarchy y = true :=
    (TransferResult.isBelow_iff hh hx.under.left hy.under.left).mpr hle
  obtain ⟨block, f, r, hf, htransfer, hedges, hwaits⟩ := Solving.advance_delivers
    (TransferResult.Le u.checker.hierarchy) h.climbs h.valid (fun hx => hx.under.le)
    (fun hxy hyz => hxy.trans hh hyz)
    (fun hx hy => TransferResult.le_join_left hh hx.under.left hy.under.left) hs hstep
  obtain ⟨hvalues, hsends⟩ :=
    transferBlock_raises h.sound h.valid h.consumers hs.state hf.under htransfer
  refine ⟨fun p t f hf => ?_, hvalues, fun b hb => ?_⟩
  · obtain ⟨f', hf', hle⟩ := hedges p t f hf
    exact ⟨f', hf', hbelow (hs.edge p t f hf).1 (hs'.edge p t f' hf').1 hle⟩
  · rcases hwaits b hb with hb | hb | hlt
    · exact .inl hb
    · exact .inr (.inr (hsends b hb))
    · obtain ⟨f', hf', hlevel⟩ := Solving.exists_of_edgeLevel_lt hlt
      exact .inr (.inl ⟨block, f', hf', fun f hf =>
        h.same_eq_false (hs.edge block b f hf).1 (hs'.edge block b f' hf').1 (hlevel f hf)⟩)

end Level

end UnitAnalysis

/-- Solving an accepted graph ends on its own: under every limit that is not below a number that
depends on the graph and the height of the hierarchy alone, it is not given up over visits. From the
start on, facts differ from the initial store on the keys of nodes only, and each visit moves what
is known upwards and wakes only readers of what has changed. -/
theorem Checker.solve_ends {d : CheckerDeclaration} {c : Checker}
    (hc : Checker.ofDeclaration d = .ok c) {g : FlowGraph} (hg : g.Accepted) :
    ∃ bound : Nat, ∀ u : ProgramUnit,
      (∀ s : AnalysisSettings, bound ≤ s.visitLimit g.size g.nodeCount c.hierarchy.height →
        ∀ n, c.analyzeGraph s u g ≠ .error (.visitLimit n)) ∧
      ∀ initial, c.initialStore u = .ok initial →
        let a := UnitAnalysis.new c g initial
        (∀ limit record n, bound ≤ limit →
          solve a.dataflow g limit record a.noValues ≠ .error (.visitLimit n)) ∧
        ∀ s, ReflTransGen (Solving.Advance a.dataflow g g.ranks) (.start g a.noValues) s →
          s.visits + s.worklist.length ≤ bound ∧
          (∀ p t f, s.edgeFact? p t = some f → f.Keeps initial a.touched) ∧
          ∀ s', Solving.Advance a.dataflow g g.ranks s s' → a.Rises s s' := by
  have hsound := Checker.ofDeclaration_sound hc
  obtain ⟨depth, hdepth⟩ := Checker.ofDeclaration_graded hc
  refine ⟨g.visitBound c.hierarchy.height, fun u => ⟨fun s hlimit n herror => ?_,
    fun initial hinitial => ?_⟩⟩
  · obtain ⟨initial, hinitial, hsolve⟩ := solve_of_visitLimit hg.valid herror
    have hlevel := UnitAnalysis.level_new hsound hdepth hg.valid hinitial
    exact (hlevel.solve_visits _ s.recordHistory).2 n hlimit hsolve
  · have hlevel := UnitAnalysis.level_new hsound hdepth hg.valid hinitial
    refine ⟨fun limit record n hlimit => (hlevel.solve_visits limit record).2 n hlimit,
      fun s hsteps => ?_⟩
    have hfed := hlevel.fed hsteps
    exact ⟨hlevel.visits_le hsteps, fun p t f hf => (hfed.edge p t f hf).1.keeps,
      fun s' hstep => hlevel.advance_rises hfed hstep⟩

theorem rescanParts_ends : ∃ c g, Checker.ofDeclaration presence = .ok c ∧
    rescanParts.toGraph = .ok g ∧ ∃ bound : Nat, ∀ u : ProgramUnit,
      (∀ s : AnalysisSettings, bound ≤ s.visitLimit g.size g.nodeCount c.hierarchy.height →
        ∀ n, c.analyzeGraph s u g ≠ .error (.visitLimit n)) ∧
      ∀ initial, c.initialStore u = .ok initial →
        let a := UnitAnalysis.new c g initial
        (∀ limit record n, bound ≤ limit →
          solve a.dataflow g limit record a.noValues ≠ .error (.visitLimit n)) ∧
        ∀ s, ReflTransGen (Solving.Advance a.dataflow g g.ranks) (.start g a.noValues) s →
          s.visits + s.worklist.length ≤ bound ∧
          (∀ p t f, s.edgeFact? p t = some f → f.Keeps initial a.touched) ∧
          ∀ s', Solving.Advance a.dataflow g g.ranks s s' → a.Rises s s' := by
  have hok : ((Checker.ofDeclaration presence).toOption.bind fun _ =>
      rescanParts.toGraph.toOption).isSome = true := by decide +kernel
  obtain ⟨g, h⟩ := Option.isSome_iff_exists.mp hok
  obtain ⟨c, hc, hg⟩ := Option.bind_eq_some_iff.mp h
  have hc := ok_of_toOption hc
  have hg := ok_of_toOption hg
  exact ⟨c, g, hc, hg, Checker.solve_ends hc (.parts hg)⟩

end FlowTyping
