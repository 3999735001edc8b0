import FlowTyping.Flow.BlockTrail
import FlowTyping.Proofs.Flow.Framework
import FlowTyping.Proofs.Flow.VisitBound
import Mathlib.Data.Finset.Lattice.Basic

/-!
The trails of blocks. The table of all trails solves the equations of their analysis and is below
every other solution, so it is what the solver finds.
-/

namespace FlowTyping

open Relation

namespace BlockTrail

variable {g : FlowGraph} {x y z : List BlockId} {b c v : BlockId}

/-- The lists that trails are kept as. -/
def Ascending (x : List BlockId) : Prop := x.Pairwise (· < ·)

theorem Ascending.nodup (h : Ascending x) : x.Nodup :=
  List.Pairwise.imp Nat.ne_of_lt h

/-- Trails are known from their blocks. -/
theorem Ascending.ext (hx : Ascending x) (hy : Ascending y) (h : ∀ v, v ∈ x ↔ v ∈ y) : x = y :=
  ((List.perm_ext_iff_of_nodup hx.nodup hy.nodup).mpr h).eq_of_pairwise
    (fun _ _ _ _ hlt hgt => absurd hgt (Nat.lt_asymm hlt)) hx hy

@[simp]
theorem mem_union (x y : List BlockId) : v ∈ union x y ↔ v ∈ x ∨ v ∈ y := by
  fun_induction union x y with
  | case1 y => simp
  | case2 x => simp
  | case3 a x b y hlt ih => simp [ih, or_assoc]
  | case4 a x b y hlt hgt ih =>
      rw [List.mem_cons, ih, List.mem_cons (l := y)]
      exact or_left_comm
  | case5 a x b y hlt hgt ih =>
      obtain rfl := Nat.le_antisymm (Nat.not_lt.mp hgt) (Nat.not_lt.mp hlt)
      simp only [List.mem_cons, ih]
      exact or_or_distrib_left

theorem Ascending.union (hx : Ascending x) (hy : Ascending y) : Ascending (union x y) := by
  fun_induction BlockTrail.union x y with
  | case1 y => exact hy
  | case2 x => exact hx
  | case3 a x b y hlt ih =>
      obtain ⟨ha, hx'⟩ := List.pairwise_cons.mp hx
      obtain ⟨hb, -⟩ := List.pairwise_cons.mp hy
      refine List.pairwise_cons.mpr ⟨fun v hv => ?_, ih hx' hy⟩
      rcases (mem_union _ _).mp hv with hv | hv
      · exact ha v hv
      · rcases List.mem_cons.mp hv with rfl | hv
        · exact hlt
        · exact Nat.lt_trans hlt (hb v hv)
  | case4 a x b y hlt hgt ih =>
      obtain ⟨ha, -⟩ := List.pairwise_cons.mp hx
      obtain ⟨hb, hy'⟩ := List.pairwise_cons.mp hy
      refine List.pairwise_cons.mpr ⟨fun v hv => ?_, ih hx hy'⟩
      rcases (mem_union _ _).mp hv with hv | hv
      · rcases List.mem_cons.mp hv with rfl | hv
        · exact hgt
        · exact Nat.lt_trans hgt (ha v hv)
      · exact hb v hv
  | case5 a x b y hlt hgt ih =>
      obtain rfl := Nat.le_antisymm (Nat.not_lt.mp hgt) (Nat.not_lt.mp hlt)
      obtain ⟨ha, hx'⟩ := List.pairwise_cons.mp hx
      obtain ⟨hb, hy'⟩ := List.pairwise_cons.mp hy
      refine List.pairwise_cons.mpr ⟨fun v hv => ?_, ih hx' hy'⟩
      exact ((mem_union _ _).mp hv).elim (ha v) (hb v)

theorem ascending_singleton (b : BlockId) : Ascending [b] := List.pairwise_singleton _ _

/-- Trails in the order of what they hold. -/
structure Within (x y : List BlockId) : Prop where
  left : Ascending x
  right : Ascending y
  subset : x ⊆ y

theorem Ascending.within (hx : Ascending x) : Within x x := ⟨hx, hx, List.Subset.refl x⟩

theorem Within.union (h : Within x y) (hz : Ascending z) :
    Within (BlockTrail.union x z) (BlockTrail.union y z) := by
  refine ⟨h.left.union hz, h.right.union hz, ?_⟩
  intro v hv
  exact (mem_union _ _).mpr (((mem_union _ _).mp hv).imp_left fun hv => h.subset hv)

/-- What a visit sends along its edges. -/
theorem transfer_ok {b : BlockId} {f : List BlockId} {r : BlockTransfer (List BlockId)}
    (h : (analysis g).transfer () b f = .ok (r, ())) :
    r = ⟨union f [b], (g.successors b).map (·, union f [b]), []⟩ :=
  (congrArg Prod.fst (Except.ok.inj h)).symm

theorem lawful (g : FlowGraph) : (analysis g).Lawful g Ascending Within fun _ _ => True where
  fine h := ⟨h.left, h.right⟩
  refl h := ⟨h.left.within, h.right.within⟩
  trans h h' := ⟨h.left, h'.right, List.Subset.trans h.subset h'.subset⟩
  fine_join hx hy := hx.union hy
  le_join_left h hy := ⟨h.left, h.left.union hy, fun _ hv => (mem_union _ _).mpr (.inl hv)⟩
  le_join_right hx h := ⟨h.left, hx.union h.left, fun _ hv => (mem_union _ _).mpr (.inr hv)⟩
  join_le h h' := ⟨h.left.union h'.left, h.right, fun _ hv =>
    ((mem_union _ _).mp hv).elim (fun hv => h.subset hv) (fun hv => h'.subset hv)⟩
  same_of_le h h' := decide_eq_true (h.left.ext h.right fun _ =>
    ⟨fun hv => h.subset hv, fun hv => h'.subset hv⟩)
  le_of_same h _ hsame := by
    obtain rfl := of_decide_eq_true hsame
    exact ⟨h, h⟩
  initial := Ascending.within List.Pairwise.nil
  state_refl _ := trivial
  transfer {_ _ _ _ b _ _ _ _} _ hle h h' := by
    obtain rfl := transfer_ok h
    obtain rfl := transfer_ok h'
    have hsent := hle.union (ascending_singleton b)
    refine ⟨trivial, hsent, ?_⟩
    rintro e he
    obtain ⟨c, hc, rfl⟩ := List.mem_map.mp he
    exact ⟨_, List.mem_map_of_mem hc, rfl, hsent⟩
  follows h e he := by
    obtain rfl := transfer_ok h
    obtain ⟨c, hc, rfl⟩ := List.mem_map.mp he
    exact hc
  again {_ _ _ _ r} _ _ h := ⟨r.revisit, h⟩
  apart {_ _ _ _ _ _ _ r'} _ _ _ _ _ h := ⟨r'.revisit, h⟩

/-- The blocks from which a path of one edge or more leads to a block, among those that the entry
reaches. -/
def Precedes (g : FlowGraph) (v b : BlockId) : Prop :=
  g.Reaches v ∧ TransGen (Digraph.Edge g.successors) v b

/-- A block precedes another if it precedes a block before it, or is one. -/
theorem precedes_iff : Precedes g v b ↔
    ∃ p, g.Reaches p ∧ b ∈ g.successors p ∧ (Precedes g v p ∨ v = p) := by
  constructor
  · rintro ⟨hv, hpath⟩
    obtain ⟨p, hpath, hedge⟩ := TransGen.tail'_iff.mp hpath
    refine ⟨p, hv.trans hpath, hedge, ?_⟩
    rcases reflTransGen_iff_eq_or_transGen.mp hpath with rfl | hpath
    · exact .inr rfl
    · exact .inl ⟨hv, hpath⟩
  · rintro ⟨p, hp, hedge, ⟨hv, hpath⟩ | rfl⟩
    · exact ⟨hv, hpath.tail hedge⟩
    · exact ⟨hp, .single hedge⟩

open Classical in
/-- The blocks that precede a block, in their order. -/
noncomputable def trail (g : FlowGraph) (b : BlockId) : List BlockId :=
  (List.range g.size).filter fun v => decide (Precedes g v b)

theorem trail_ascending (g : FlowGraph) (b : BlockId) : Ascending (trail g b) :=
  List.Pairwise.filter _ List.pairwise_lt_range

theorem mem_trail (hg : g.Valid) : v ∈ trail g b ↔ Precedes g v b := by
  unfold trail
  simp only [List.mem_filter, List.mem_range, decide_eq_true_eq]
  exact and_iff_right_of_imp fun h => hg.lt_of_reach h.1

open Classical in
/-- All trails, and no fact at a block that the entry does not reach. -/
noncomputable def table (g : FlowGraph) : FlowTable (List BlockId) Unit where
  before b := if g.Reaches b then some (trail g b) else none
  after b := if g.Reaches b then some (union (trail g b) [b]) else none
  edge p b := if g.Reaches p ∧ b ∈ g.successors p then some (union (trail g p) [p]) else none
  state := ()

theorem table_before {f : List BlockId} :
    (table g).before b = some f ↔ g.Reaches b ∧ f = trail g b := by
  simp [table, eq_comm]

theorem table_after {f : List BlockId} :
    (table g).after b = some f ↔ g.Reaches b ∧ f = union (trail g b) [b] := by
  simp [table, eq_comm]

theorem table_edge {f : List BlockId} : (table g).edge b c = some f ↔
    g.Reaches b ∧ c ∈ g.successors b ∧ f = union (trail g b) [b] := by
  simp [table, eq_comm, and_assoc]

theorem table_ascending (g : FlowGraph) : (table g).All Ascending where
  before b _ hf := (table_before.mp hf).2 ▸ trail_ascending g b
  after b _ hf := (table_after.mp hf).2 ▸ (trail_ascending g b).union (ascending_singleton b)
  edge p _ _ hf := (table_edge.mp hf).2.2 ▸ (trail_ascending g p).union (ascending_singleton p)

/-- A join of trails holds what one of them holds. -/
theorem mem_joinAll {facts : List (List BlockId)} :
    v ∈ (analysis g).joinAll facts ↔ ∃ f ∈ facts, v ∈ f := by
  cases facts with
  | nil => simp [DataflowAnalysis.joinAll, analysis]
  | cons first rest =>
      change v ∈ rest.foldl union first ↔ _
      induction rest generalizing first with
      | nil => simp
      | cons f rest ih => simp [ih, or_assoc]

theorem joinAll_ascending {facts : List (List BlockId)} (h : ∀ f ∈ facts, Ascending f) :
    Ascending ((analysis g).joinAll facts) := by
  cases facts with
  | nil => exact List.Pairwise.nil
  | cons first rest =>
      change Ascending (rest.foldl union first)
      obtain ⟨hfirst, hrest⟩ := List.forall_mem_cons.mp h
      clear h
      induction rest generalizing first with
      | nil => exact hfirst
      | cons f rest ih =>
          obtain ⟨hf, hrest⟩ := List.forall_mem_cons.mp hrest
          exact ih _ (hfirst.union hf) hrest

theorem table_solves (hg : g.Valid) :
    (table g).Solves (analysis g) g fun x y => (analysis g).same x y = true where
  entry := ⟨_, table_before.mpr ⟨.refl, rfl⟩⟩
  input b f hf := by
    obtain ⟨hb, rfl⟩ := table_before.mp hf
    have harriving {x : List BlockId} := (table g).mem_arriving (a := analysis g) hg
      (fun p c m hm => (table_edge.mp hm).2.1) (b := b) (x := x)
    refine decide_eq_true (Ascending.ext ?_ ?_ ?_)
    · apply joinAll_ascending
      intro x hx
      rcases harriving.mp hx with ⟨-, rfl⟩ | ⟨p, hp⟩
      · exact List.Pairwise.nil
      · exact (table_ascending g).edge p b x hp
    · exact trail_ascending g b
    · intro v
      rw [FlowTable.input, mem_joinAll, mem_trail hg, precedes_iff]
      constructor
      · rintro ⟨x, hx, hv⟩
        rcases harriving.mp hx with ⟨-, rfl⟩ | ⟨p, hp⟩
        · cases hv
        · obtain ⟨hreach, hedge, rfl⟩ := table_edge.mp hp
          refine ⟨p, hreach, hedge, ((mem_union _ _).mp hv).imp (mem_trail hg).mp ?_⟩
          exact List.mem_singleton.mp
      · rintro ⟨p, hreach, hedge, hv⟩
        refine ⟨union (trail g p) [p], harriving.mpr (.inr ⟨p, ?_⟩), ?_⟩
        · exact table_edge.mpr ⟨hreach, hedge, rfl⟩
        · exact (mem_union _ _).mpr (hv.imp (mem_trail hg).mpr List.mem_singleton.mpr)
  transfer b f hf := by
    obtain ⟨hb, rfl⟩ := table_before.mp hf
    refine ⟨_, _, rfl, table_after.mpr ⟨hb, rfl⟩, decide_eq_true rfl, ?_⟩
    rintro e he
    obtain ⟨c, hc, rfl⟩ := List.mem_map.mp he
    refine ⟨⟨_, table_before.mpr ⟨hb.tail hc, rfl⟩⟩, _, table_edge.mpr ⟨hb, hc, rfl⟩, ?_⟩
    have hsent := (trail_ascending g b).union (ascending_singleton b)
    exact (lawful g).absorbs_of_le hsent.within

/-- Every block that the entry reaches has a trail in a solution. -/
theorem visited {t : FlowTable (List BlockId) Unit} (ht : t.Solves (analysis g) g Eq)
    (hb : g.Reaches b) : ∃ f, t.before b = some f := by
  induction hb with
  | refl => exact ht.entry
  | @tail p c _ hedge ih =>
      obtain ⟨f, hf⟩ := ih
      obtain ⟨r, o, hr, -, -, hedges⟩ := ht.transfer p f hf
      obtain rfl := transfer_ok hr
      exact (hedges (c, union f [p]) (List.mem_map_of_mem hedge)).1

/-- In every solution a block is in the trail of the blocks that it precedes. -/
theorem precedes_mem {t : FlowTable (List BlockId) Unit} (hg : g.Valid)
    (ht : t.Solves (analysis g) g Eq)
    (hedge : ∀ p c m, t.edge p c = some m → c ∈ g.successors p)
    (h : Precedes g v b) : ∃ f, t.before b = some f ∧ v ∈ f := by
  have hsent {p c : BlockId} {f : List BlockId} (hf : t.before p = some f)
      (hc : c ∈ g.successors p) : ∃ f', t.before c = some f' ∧ union f [p] ⊆ f' := by
    obtain ⟨r, o, hr, -, -, hedges⟩ := ht.transfer p f hf
    obtain rfl := transfer_ok hr
    obtain ⟨⟨f', hf'⟩, m, hm, habsorbs⟩ := hedges (c, union f [p]) (List.mem_map_of_mem hc)
    refine ⟨f', hf', fun v hv => ?_⟩
    obtain rfl := ht.input c f' hf'
    refine mem_joinAll.mpr ⟨m, (t.mem_arriving hg hedge).mpr (.inr ⟨p, hm⟩), ?_⟩
    rw [← of_decide_eq_true habsorbs]
    exact (mem_union _ _).mpr (.inr hv)
  obtain ⟨hv, hpath⟩ := h
  induction hpath with
  | single hstep =>
      obtain ⟨f, hf⟩ := visited ht hv
      obtain ⟨f', hf', hsub⟩ := hsent hf hstep
      exact ⟨f', hf', hsub ((mem_union _ _).mpr (.inr List.mem_cons_self))⟩
  | tail _ hstep ih =>
      obtain ⟨f, hf, hmem⟩ := ih
      obtain ⟨f', hf', hsub⟩ := hsent hf hstep
      exact ⟨f', hf', hsub ((mem_union _ _).mpr (.inl hmem))⟩

/-- Trails climb in length, and a transfer keeps them among the blocks of the graph. -/
theorem climbs (g : FlowGraph) : (analysis g).Climbs g
    (fun x => Ascending x ∧ ∀ v ∈ x, v < g.size) (fun _ => True) List.length where
  initial := ⟨List.Pairwise.nil, nofun⟩
  join hx hy := ⟨hx.1.union hy.1, fun v hv => ((mem_union _ _).mp hv).elim (hx.2 v) (hy.2 v)⟩
  climb {x y} hx hy hchanged := by
    have hunion := hx.1.union hy.1
    have hsub : x.Subperm (union x y) :=
      hx.1.nodup.subperm fun v hv => (mem_union _ _).mpr (.inl hv)
    refine lt_of_le_of_ne hsub.length_le fun hlength => of_decide_eq_false hchanged ?_
    have hperm := hsub.perm_of_length_le (Nat.le_of_eq hlength.symm)
    exact hunion.ext hx.1 fun v => hperm.mem_iff.symm
  transfer {_ _ b _ _} _ hf h := by
    obtain rfl := transfer_ok h
    refine ⟨trivial, fun e he => ?_⟩
    obtain ⟨c, hc, rfl⟩ := List.mem_map.mp he
    refine ⟨hf.1.union (ascending_singleton b), fun v hv => ?_⟩
    rcases (mem_union _ _).mp hv with hv | hv
    · exact hf.2 v hv
    · obtain ⟨_, hblock, -⟩ := FlowGraph.mem_successors.mp hc
      exact List.mem_singleton.mp hv ▸ (Array.getElem?_eq_some_iff.mp hblock).1
  follows := (lawful g).follows

end BlockTrail

/-- Solving for trails takes no more visits than blocks times edges. -/
theorem blockTrails_ok {g : FlowGraph} (hg : g.Valid) {limit : Nat} (record : Bool)
    (hlimit : 1 + g.blockGraph.edges.length * (g.size + 1) ≤ limit) :
    ∃ r, blockTrails g limit record = .ok r := by
  have hcharges : Solving.Charges (BlockTrail.analysis g)
      (fun x => BlockTrail.Ascending x ∧ ∀ v ∈ x, v < g.size) (fun _ => True) fun _ => 0 := by
    intro st st' b f r _ _ h
    obtain rfl := BlockTrail.transfer_ok h
    exact Nat.le_refl 0
  have htop (f : List BlockId) (hf : BlockTrail.Ascending f ∧ ∀ v ∈ f, v < g.size) :
      f.length ≤ g.size := by
    have hsub := hf.1.nodup.subperm fun v hv => List.mem_range.mpr (hf.2 v hv)
    exact hsub.length_le.trans List.length_range.le
  have hnever {st : Unit} {b : BlockId} {f : List BlockId} {e : AnalysisError} :
      (BlockTrail.analysis g).transfer st b f ≠ .error e := nofun
  cases h : solve (BlockTrail.analysis g) g limit record () with
  | ok r => exact ⟨r.1, congrArg (Except.map Prod.fst) h⟩
  | error e =>
      exfalso
      rcases bind_error.mp h with hrun | ⟨s, -, hok⟩
      · rcases Solving.run_error hrun with rfl | ⟨s, block, rest, -, -, hvisit⟩
        · exact (solve_visits (BlockTrail.climbs g) hcharges hg htop (fun _ _ => Nat.le_refl 0)
            trivial limit record).2 limit hnever hlimit h
        · rcases bind_error.mp hvisit with htransfer | ⟨_, -, hok⟩
          · exact hnever htransfer
          · cases hok
      · cases hok

/-- The trail of a block holds the blocks that precede it. -/
theorem mem_blockTrails {g : FlowGraph} (hg : g.Valid) {limit : Nat} {record : Bool}
    {r : Fixpoint (List BlockId)} (h : blockTrails g limit record = .ok r) {b : BlockId} :
    (g.Reaches b → ∃ f, r.inFact b = some f ∧ BlockTrail.Ascending f ∧
      ∀ v, v ∈ f ↔ BlockTrail.Precedes g v b) ∧
    (¬ g.Reaches b → r.inFact b = none) := by
  have L := BlockTrail.lawful g
  cases hsolve : solve (BlockTrail.analysis g) g limit record () with
  | error e =>
      rw [blockTrails, hsolve] at h
      cases h
  | ok found =>
      obtain rfl := Except.ok.inj ((congrArg (Except.map Prod.fst) hsolve).symm.trans h)
      obtain ⟨s, hsteps, hempty, htable⟩ := solve_steps hsolve
      have hs := Solving.steps_sane L hg (Solving.start_sane trivial) hsteps
      have hsolves := hs.solves L hempty
      have hbelow := Solving.steps_below L hg trivial (BlockTrail.table_solves hg)
        (BlockTrail.table_ascending g) hsteps
      have hedge := fun p c m hm => (hs.edge p c m hm).1
      constructor
      · intro hb
        obtain ⟨f, hf⟩ := BlockTrail.visited hsolves hb
        obtain ⟨f', hf', hwithin⟩ := hbelow.before b f hf
        obtain ⟨-, rfl⟩ := BlockTrail.table_before.mp hf'
        have hfact := (congrFun (congrArg FlowTable.before htable) b).symm.trans hf
        refine ⟨f, hfact, hwithin.left, fun v => ⟨fun hv => ?_, fun hv => ?_⟩⟩
        · exact (BlockTrail.mem_trail hg).mp (hwithin.subset hv)
        · obtain ⟨f', hf', hmem⟩ := BlockTrail.precedes_mem hg hsolves hedge hv
          obtain rfl := Option.some.inj (hf'.symm.trans hf)
          exact hmem
      · exact fun hb => (solve_unreached L hg trivial hsolve hb).1

/-- The solver is right about every framework on every accepted graph: what it returns is the least
solution of the dataflow equations, without facts at the blocks that the entry does not reach. It
returns the trails of blocks when it may visit often enough, and each of them holds the blocks that
the entry reaches and from which a path of one edge or more leads to its block. -/
theorem FlowGraph.Accepted.solve_leastSolution {g : FlowGraph} (hg : g.Accepted) :
    (∀ {Fact : Type} [Preorder Fact] {a : DataflowAnalysis Fact Unit}, a.IsFramework g →
      ∀ {limit : Nat} {record : Bool} {r : Fixpoint Fact},
        solve a g limit record () = .ok (r, ()) →
        (r.table ()).IsSolution a g ∧
          (∀ t : FlowTable Fact Unit, t.IsSolution a g →
            (r.table ()).Below (· ≤ ·) (fun _ _ => True) t) ∧
          (∀ b, g.Reaches b → ∃ f, r.inFact b = some f) ∧
          ∀ b, ¬ g.Reaches b →
            r.inFact b = none ∧ r.outFact b = none ∧ r.status b = .unvisited) ∧
    (∃ enough, ∀ limit, enough ≤ limit → ∀ record, ∃ r, blockTrails g limit record = .ok r) ∧
    ∀ {limit : Nat} {record : Bool} {r : Fixpoint (List BlockId)},
      blockTrails g limit record = .ok r → ∀ b,
        (g.Reaches b → ∃ f, r.inFact b = some f ∧ f.Pairwise (· < ·) ∧
          ∀ v, v ∈ f ↔ g.Reaches v ∧ TransGen (Digraph.Edge g.successors) v b) ∧
        (¬ g.Reaches b → r.inFact b = none) := by
  refine ⟨?_, ?_, ?_⟩
  · intro Fact _ a hA limit record r h
    exact solve_least hA hg.valid h
  · exact ⟨_, fun limit hlimit record => blockTrails_ok hg.valid record hlimit⟩
  · intro limit record r h b
    exact mem_blockTrails hg.valid h

/-- Trails as sets. -/
def BlockTrail.sets (g : FlowGraph) : DataflowAnalysis (Finset BlockId) Unit where
  initial := ∅
  bottom := ∅
  join x y := x ∪ y
  same x y := x = y
  transfer _ block input :=
    let output := insert block input
    .ok (⟨output, (g.successors block).map (·, output), []⟩, ())

theorem BlockTrail.sets_isFramework (g : FlowGraph) : (sets g).IsFramework g where
  join x y := isLUB_pair
  same x y := decide_eq_true_iff.trans le_antisymm_iff
  targets h c := by
    cases h
    simp
  monotone {b f f' _ _} hle h h' := by
    cases h
    cases h'
    have hsent : insert b f ≤ insert b f' := Finset.insert_subset_insert b hle
    refine ⟨hsent, fun e he => ?_⟩
    obtain ⟨c, hc, rfl⟩ := List.mem_map.mp he
    exact ⟨_, List.mem_map_of_mem hc, rfl, hsent⟩

/-- Two blocks that go round, and a third that leads to them and is not reached. -/
def spinningParts : GraphParts where
  name := "spinning"
  blocks := #[⟨0, [], .special .entry (some 3)⟩, ⟨1, [], .special .exit none⟩,
    ⟨2, [], .special .exceptionalExit none⟩, ⟨3, [], .regular 4⟩, ⟨4, [], .regular 3⟩,
    ⟨5, [], .regular 4⟩]
  nodes := #[]
  entry := 0
  exit := 1
  exceptionalExit := 2

theorem spinningParts_solve : ∃ g r r', spinningParts.toGraph = .ok g ∧
    solve (BlockTrail.sets g) g 7 false () = .ok (r, ()) ∧
    (r.table ()).IsSolution (BlockTrail.sets g) g ∧
    blockTrails g 7 false = .ok r' ∧
    ∀ b, g.Reaches b → ∃ f, r'.inFact b = some f ∧
      ∀ v, v ∈ f ↔ g.Reaches v ∧ TransGen (Digraph.Edge g.successors) v b := by
  have hok : (spinningParts.toGraph.toOption.bind fun g =>
      (solve (BlockTrail.sets g) g 7 false ()).toOption.bind fun _ =>
        (blockTrails g 7 false).toOption).isSome = true := by decide +kernel
  obtain ⟨r', h⟩ := Option.isSome_iff_exists.mp hok
  obtain ⟨g, hg, h⟩ := Option.bind_eq_some_iff.mp h
  obtain ⟨⟨r, ⟨⟩⟩, hr, hr'⟩ := Option.bind_eq_some_iff.mp h
  have hg := ok_of_toOption hg
  have hr := ok_of_toOption hr
  have hr' := ok_of_toOption hr'
  have hsolve := FlowGraph.Accepted.solve_leastSolution (.parts hg)
  refine ⟨g, r, r', hg, hr, (hsolve.1 (BlockTrail.sets_isFramework g) hr).1, hr', ?_⟩
  intro b hb
  obtain ⟨f, hf, -, hmem⟩ := (hsolve.2.2 hr' b).1 hb
  exact ⟨f, hf, hmem⟩

end FlowTyping
