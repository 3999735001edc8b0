import FlowTyping.Proofs.Graph.Shape
import FlowTyping.Proofs.Graph.Search
import FlowTyping.Proofs.Flow.History

/-!
Which parts are admitted as a graph, and what is left unchecked: that no block lists a node
twice, and that the designated blocks are of the kinds for which they are designated.
-/

namespace FlowTyping

open Relation

/-- A check that is followed by something else. -/
theorem check_bind_ok {β ε : Type} {x : Except ε Unit} {f : Unit → Except ε β} {r : β} :
    (x >>= f) = .ok r ↔ x = .ok () ∧ f () = .ok r := by
  rw [bind_ok]
  exact ⟨fun ⟨(), hx, hf⟩ => ⟨hx, hf⟩, fun ⟨hx, hf⟩ => ⟨(), hx, hf⟩⟩

namespace GraphParts

variable {p : GraphParts} {b : Block}

/-- A block has the nodes and the successors of its kind. -/
def Shaped (p : GraphParts) (b : Block) : Prop :=
  match b.kind with
  | .regular _ => True
  | .conditional condition _ _ =>
      b.nodes = [] ∧ ∃ only, (∀ q, b.id ∈ p.successors q ↔ q = only) ∧
        p.blocks[only]?.bind Block.lastNode? = some condition
  | .exceptional successor handlers =>
      b.nodes.length = 1 ∧ (successor = none → handlers ≠ [])
  | .special kind successor => b.nodes = [] ∧ (kind.isExit = true ↔ successor = none)

/-- What is checked of parts. -/
structure Admitted (p : GraphParts) : Prop where
  block : ∀ {i : Nat} {b : Block}, p.blocks[i]? = some b →
    b.id = i ∧ ∀ t ∈ b.successors, t < p.blocks.size
  designated : ∀ i ∈ [p.entry, p.exit, p.exceptionalExit], i < p.blocks.size
  node : ∀ {i : Nat} {n : Node}, p.nodes[i]? = some n →
    n.id = i ∧ ∀ o ∈ n.kind.operands, o < p.nodes.size
  listed : ∀ {b : Block}, b ∈ p.blocks → ∀ id ∈ b.nodes, ∃ n, p.nodes[id]? = some n ∧ n.block = b.id
  shaped : ∀ {b : Block}, b ∈ p.blocks → p.Shaped b
  homed : ∀ id < p.nodes.size, ∃ b ∈ p.blocks, id ∈ b.nodes

theorem checkBlocks_iff : p.checkBlocks = .ok () ↔ ∀ (i : Nat) (b : Block), p.blocks[i]? = some b →
    b.id = i ∧ ∀ t ∈ b.successors, t < p.blocks.size := by
  refine ⟨fun h i b hb => checkBlocks_ok h hb, fun h => forM_ok.mpr ?_⟩
  rintro ⟨b, i⟩ hmem
  rw [List.mk_mem_zipIdx_iff_getElem?, Array.getElem?_toList] at hmem
  obtain ⟨hid, htargets⟩ := h i b hmem
  refine check_bind_ok.mpr ⟨refuseIf_ok.mpr (by simpa using hid), forM_ok.mpr fun t ht => ?_⟩
  exact refuseIf_ok.mpr (by simpa using htargets t ht)

theorem checkDesignated_iff :
    p.checkDesignated = .ok () ↔ ∀ i ∈ [p.entry, p.exit, p.exceptionalExit], i < p.blocks.size := by
  refine forM_ok.trans (forall₂_congr fun i _ => ?_)
  rw [refuseIf_ok, decide_eq_false_iff_not, Nat.not_le]

theorem checkNodes_iff : p.checkNodes = .ok () ↔ ∀ (i : Nat) (n : Node), p.nodes[i]? = some n →
    n.id = i ∧ ∀ o ∈ n.kind.operands, o < p.nodes.size := by
  have hmem (n : Node) (i : Nat) : (n, i) ∈ p.nodes.toList.zipIdx ↔ p.nodes[i]? = some n := by
    rw [List.mk_mem_zipIdx_iff_getElem?, Array.getElem?_toList]
  constructor
  · intro h i n hn
    obtain ⟨hid, hall⟩ := check_bind_ok.mp (forM_ok.mp h (n, i) ((hmem n i).mpr hn))
    refine ⟨by simpa using refuseIf_ok.mp hid, ?_⟩
    split at hall
    · cases hall
    · rename_i hfind
      simpa using List.find?_eq_none.mp hfind
  · intro h
    refine forM_ok.mpr fun ⟨n, i⟩ hn => ?_
    obtain ⟨hid, hall⟩ := h i n ((hmem n i).mp hn)
    refine check_bind_ok.mpr ⟨refuseIf_ok.mpr (by simpa using hid), ?_⟩
    split
    · rename_i o hfind
      have hle : p.nodes.size ≤ o := by simpa using List.find?_some hfind
      exact absurd (hall o (List.mem_of_find?_eq_some hfind)) (Nat.not_lt.mpr hle)
    · rfl

theorem checkListing_iff : p.checkListing b = .ok () ↔
    ∀ id ∈ b.nodes, ∃ n, p.nodes[id]? = some n ∧ n.block = b.id := by
  refine ⟨checkListing_ok, fun h => forM_ok.mpr fun id hid => ?_⟩
  obtain ⟨n, hn, hblock⟩ := h id hid
  rw [hn]
  exact refuseIf_ok.mpr (by simpa using hblock)

theorem checkBlock_iff (hid : ∀ {i : Nat} {b : Block}, p.blocks[i]? = some b → b.id = i)
    (hb : b.id < p.blocks.size) :
    p.checkBlock p.predecessorTable b = .ok () ↔ p.Shaped b := by
  have hmem (q : BlockId) : q ∈ p.predecessorTable.getD b.id [] ↔ b.id ∈ p.successors q :=
    (mem_predecessorTable hid).trans (and_iff_right hb)
  have hempty : (!b.nodes.isEmpty) = false ↔ b.nodes = [] := by simp
  unfold checkBlock Shaped
  cases b.kind with
  | regular => exact iff_of_true rfl trivial
  | conditional condition =>
      refine check_bind_ok.trans (and_congr (refuseIf_ok.trans hempty) ?_)
      rw [refuseIf_ok, Bool.not_eq_false']
      constructor
      · intro h
        split at h
        · rename_i only hlist
          refine ⟨only, fun q => ?_, of_decide_eq_true h⟩
          rw [← hmem, hlist, List.mem_singleton]
        · cases h
      · rintro ⟨only, hall, hlast⟩
        have hlist := List.eq_singleton_of_nodup (predecessorTable_nodup hid b.id)
          ((hmem only).mpr ((hall only).mpr rfl)) fun q hq => (hall q).mp ((hmem q).mp hq)
        rw [hlist]
        exact decide_eq_true hlast
  | exceptional successor handlers =>
      refine check_bind_ok.trans (and_congr (refuseIf_ok.trans (by simp)) (refuseIf_ok.trans ?_))
      cases successor <;> simp
  | special kind successor =>
      refine check_bind_ok.trans (and_congr (refuseIf_ok.trans hempty) (check_bind_ok.trans ?_))
      rw [refuseIf_ok, refuseIf_ok]
      cases kind.isExit <;> cases successor <;> simp

theorem unlisted?_eq_none :
    p.unlisted? = none ↔ ∀ id < p.nodes.size, ∃ b ∈ p.blocks, id ∈ b.nodes := by
  simp [unlisted?]

theorem checkStructure_iff (hblock : ∀ {i : Nat} {b : Block}, p.blocks[i]? = some b →
    b.id = i ∧ ∀ t ∈ b.successors, t < p.blocks.size) :
    p.checkStructure p.predecessorTable = .ok () ↔
      (∀ b ∈ p.blocks, (∀ id ∈ b.nodes, ∃ n, p.nodes[id]? = some n ∧ n.block = b.id) ∧
        p.Shaped b) ∧ ∀ id < p.nodes.size, ∃ b ∈ p.blocks, id ∈ b.nodes := by
  have hlt {b : Block} (hb : b ∈ p.blocks) : b.id < p.blocks.size := by
    obtain ⟨i, hi⟩ := Array.mem_iff_getElem?.mp hb
    rw [(hblock hi).1]
    exact (Array.getElem?_eq_some_iff.mp hi).1
  rw [← unlisted?_eq_none]
  refine check_bind_ok.trans (and_congr ?_ (by cases p.unlisted? <;> simp))
  refine forM_ok.trans (forall_congr' fun b => ?_)
  rw [Array.mem_toList_iff]
  refine forall_congr' fun hb => check_bind_ok.trans (and_congr checkListing_iff ?_)
  exact checkBlock_iff (fun hb => (hblock hb).1) (hlt hb)

/-- Parts are admitted as a graph if they pass every check, and only then. -/
theorem toGraph_iff : (∃ g, p.toGraph = .ok g) ↔ p.Admitted := by
  constructor
  · rintro ⟨g, h⟩
    obtain ⟨hblocks, h⟩ := check_bind_ok.mp h
    obtain ⟨hdesignated, h⟩ := check_bind_ok.mp h
    obtain ⟨hnodes, h⟩ := check_bind_ok.mp h
    obtain ⟨hstructure, -⟩ := check_bind_ok.mp h
    have hblock {i : Nat} {b : Block} (hb : p.blocks[i]? = some b) :=
      checkBlocks_iff.mp hblocks i b hb
    obtain ⟨hall, hhomed⟩ := (checkStructure_iff hblock).mp hstructure
    exact {
      block := hblock
      designated := checkDesignated_iff.mp hdesignated
      node := checkNodes_iff.mp hnodes _ _
      listed := fun hb => (hall _ hb).1
      shaped := fun hb => (hall _ hb).2
      homed := hhomed }
  · intro h
    exact toGraph_ok (checkBlocks_iff.mpr fun _ _ hb => h.block hb)
      (checkDesignated_iff.mpr h.designated) (checkNodes_iff.mpr fun _ _ hn => h.node hn)
      ((checkStructure_iff h.block).mpr ⟨fun _ hb => ⟨h.listed hb, h.shaped hb⟩, h.homed⟩)

/-- A block without successors is an exit. -/
theorem Admitted.successors_eq_nil (h : p.Admitted) (hb : b ∈ p.blocks) :
    b.successors = [] ↔
      ∃ kind successor, b.kind = .special kind successor ∧ kind.isExit = true := by
  have hshaped := h.shaped hb
  unfold Shaped at hshaped
  unfold Block.successors
  cases hkind : b.kind with
  | regular => simp [BlockKind.successors]
  | conditional => simp [BlockKind.successors]
  | exceptional successor handlers =>
      rw [hkind] at hshaped
      cases successor with
      | none => simpa [BlockKind.successors] using hshaped.2
      | some => simp [BlockKind.successors]
  | special kind successor =>
      rw [hkind] at hshaped
      simp [BlockKind.successors, hshaped.2]

end GraphParts

namespace FlowGraph

variable {g : FlowGraph}

/-- The block is the exit or the exceptional exit by its kind. -/
def IsExit (g : FlowGraph) (i : BlockId) : Prop :=
  ∃ kind, kind.isExit = true ∧ g.IsSpecial kind i

/-- What is expected of a graph: every node is listed once, the entry is an entry, and nothing
follows the exits. -/
structure WellFormed (g : FlowGraph) : Prop where
  once : ∀ id < g.nodeCount, (g.blocks.toList.flatMap Block.nodes).count id = 1
  entry : g.IsSpecial .entry g.entry
  exit : g.successors g.exit = []
  exceptionalExit : g.successors g.exceptionalExit = []

theorem successors_eq_nil (hg : g.Admitted) {i : BlockId} (hi : i < g.size) :
    g.successors i = [] ↔ g.IsExit i := by
  have hblock : g.blocks[i]? = some g.blocks[i] := Array.getElem?_eq_getElem hi
  have hnil := hg.successors_eq_nil (Array.mem_of_getElem? hblock)
  rw [GraphParts.successors, hblock, Option.map_some, Option.getD_some, hnil]
  unfold IsExit IsSpecial block?
  rw [hblock]
  constructor
  · rintro ⟨kind, successor, hkind, hexit⟩
    exact ⟨kind, hexit, _, successor, rfl, hkind⟩
  · rintro ⟨kind, hexit, _, successor, ⟨⟩, hkind⟩
    exact ⟨kind, successor, hkind, hexit⟩

end FlowGraph

namespace Solving

variable {Fact σ : Type} {a : DataflowAnalysis Fact σ} {g : FlowGraph} {ranks : Array Nat}
  {s s' : Solving Fact σ}

/-- What stands after each block came out of its transfer. -/
def Transferred (a : DataflowAnalysis Fact σ) (s : Solving Fact σ) : Prop :=
  ∀ b o, s.table.after b = some o → ∃ st f r st', a.transfer st b f = .ok (r, st') ∧ r.output = o

theorem step_transferred (hs : s.Transferred a) (h : Step a g ranks s s') : s'.Transferred a := by
  obtain ⟨block, -, hvisit⟩ := h
  obtain ⟨r, st, htransfer, hv⟩ := visit_ok hvisit
  intro b o ho
  by_cases hsize : block < s.outFacts.size
  · rw [hv.after hsize] at ho
    split at ho
    · rename_i heq
      cases ho
      exact ⟨_, _, r, st, heq ▸ htransfer, rfl⟩
    · exact hs b o ho
  · change s'.outFacts.getD b none = some o at ho
    rw [hv.outFacts, Array.setIfInBounds_eq_of_size_le (Nat.not_lt.mp hsize)] at ho
    exact hs b o ho

theorem start_transferred {st : σ} : (start g st : Solving Fact σ).Transferred a := by
  intro b o ho
  cases ho.symm.trans (getD_replicate_none Fact g.size b)

theorem steps_transferred (hs : s.Transferred a) (h : ReflTransGen (Step a g ranks) s s') :
    s'.Transferred a := by
  induction h with
  | refl => exact hs
  | tail _ hstep ih => exact step_transferred ih hstep

end Solving

theorem solve_transferred {Fact σ : Type} {a : DataflowAnalysis Fact σ} {g : FlowGraph}
    {limit : Nat} {record : Bool} {st st' : σ} {r : Fixpoint Fact}
    (h : solve a g limit record st = .ok (r, st')) {b : BlockId} {o : Fact}
    (ho : r.outFact b = some o) :
    ∃ st f t st', a.transfer st b f = .ok (t, st') ∧ t.output = o := by
  obtain ⟨s, hrun, heq⟩ := bind_ok.mp h
  cases heq
  exact Solving.steps_transferred Solving.start_transferred (Solving.run_steps hrun).1 b o ho

/-- What stands after a special block is one store, whatever comes in. -/
theorem Checker.analyzeGraph_special {c : Checker} {s : AnalysisSettings} {u : ProgramUnit}
    {g : FlowGraph} {a : AnalyzedUnit} (h : c.analyzeGraph s u g = .ok a) {kind : SpecialKind}
    {b : BlockId} (hb : g.IsSpecial kind b) {r : TransferResult}
    (hr : a.fixpoint.outFact b = some r) : ∃ store, r = .regular store := by
  obtain ⟨-, initial, bound, limit, solved, -, -, hsolve, -⟩ := analyzeGraph_ok h
  obtain ⟨V, f, t, V', htransfer, rfl⟩ := solve_transferred hsolve hr
  obtain ⟨block, successor, hblock, hkind⟩ := hb
  have htransfer : (UnitAnalysis.new c g initial).transferBlock V b f = .ok (t, V') := htransfer
  have hblock : (UnitAnalysis.new c g initial).graph.block? b = some block := hblock
  rw [UnitAnalysis.transferBlock, hblock] at htransfer
  simp only [hkind] at htransfer
  cases htransfer
  exact ⟨_, rfl⟩

/-- Parts are admitted as a graph exactly if they pass the checks. Then every node is listed by
the block that it names and by no other one; the graph is well-formed exactly if moreover no block
lists a node twice, the entry is of the kind of entries, and the exits are of the kinds of exits,
none of which is checked. If nothing follows the exit, what an analysis finds there is one store. -/
theorem GraphParts.toGraph_admits (p : GraphParts) :
    ((∃ g, p.toGraph = .ok g) ↔ p.Admitted) ∧ ∀ g, p.toGraph = .ok g →
      (∀ id b, g.Home id b ↔ ∃ n, g.node? id = some n ∧ n.block = b) ∧
      (g.WellFormed ↔ (∀ block ∈ g.blocks, block.nodes.Nodup) ∧ g.IsSpecial .entry g.entry ∧
        g.IsExit g.exit ∧ g.IsExit g.exceptionalExit) ∧
      (g.successors g.exit = [] → ∀ (c : Checker) (s : AnalysisSettings) (u : ProgramUnit)
        (a : AnalyzedUnit) (r : TransferResult), c.analyzeGraph s u g = .ok a →
        a.fixpoint.outFact g.exit = some r → ∃ store, r = .regular store ∧
          a.exitStore = some store) := by
  refine ⟨toGraph_iff, fun g h => ?_⟩
  have hvalid := toGraph_valid h
  have hparts := toGraph_parts h
  have hadmitted : g.Admitted := hparts ▸ toGraph_iff.mp ⟨g, h⟩
  have hhomed {id : NodeId} {n : Node} (hn : g.node? id = some n) := toGraph_homed h hn
  have hdesignated {i : BlockId} (hi : i ∈ [g.entry, g.exit, g.exceptionalExit]) : i < g.size :=
    hadmitted.designated i hi
  have hexit := FlowGraph.successors_eq_nil hadmitted (hdesignated (by simp : g.exit ∈ _))
  have hexceptional :=
    FlowGraph.successors_eq_nil hadmitted (hdesignated (by simp : g.exceptionalExit ∈ _))
  refine ⟨fun id b => ⟨?_, ?_⟩, ⟨fun hg => ?_, ?_⟩, fun hnil c s u a r ha hr => ?_⟩
  · rintro ⟨block, hblock, hid⟩
    exact hvalid.listed hblock id hid
  · rintro ⟨n, hn, rfl⟩
    obtain ⟨b, hb⟩ := hhomed hn
    exact hvalid.block_of_home hb hn ▸ hb
  · refine ⟨hvalid.nodup_listing.mp (List.nodup_iff_count_le_one.mpr fun id => ?_), hg.entry,
      hexit.mp hg.exit, hexceptional.mp hg.exceptionalExit⟩
    by_cases hid : id < g.nodeCount
    · exact Nat.le_of_eq (hg.once id hid)
    · rw [List.count_eq_zero_of_not_mem fun hmem => hid ((hvalid.mem_listing hhomed).mp hmem)]
      exact Nat.zero_le 1
  · rintro ⟨hnodup, hentry, hexits, hexceptionals⟩
    refine ⟨fun id hid => ?_, hentry, hexit.mpr hexits, hexceptional.mpr hexceptionals⟩
    exact List.count_eq_one_of_mem (hvalid.nodup_listing.mpr hnodup)
      ((hvalid.mem_listing hhomed).mpr hid)
  · obtain ⟨kind, -, hspecial⟩ := hexit.mp hnil
    obtain ⟨store, rfl⟩ := Checker.analyzeGraph_special ha hspecial hr
    refine ⟨store, rfl, ?_⟩
    rw [AnalyzedUnit.exitStore, (Checker.analyzeGraph_ok ha).1, hr]
    rfl

/-- A unit with a value that may be null and one that is not. -/
def comparingUnit : ProgramUnit where
  name := "comparing"
  params := [⟨"x", some "MaybeNull"⟩, ⟨"known", some "Present"⟩]
  returnQualifier := none
  body := []

/-- A node that is listed twice, in a block that is designated as the entry but is none. -/
def repeatedParts : GraphParts where
  name := "repeated"
  blocks := #[⟨0, [0, 0], .regular 1⟩, ⟨1, [], .special .exit none⟩,
    ⟨2, [], .special .exceptionalExit none⟩]
  nodes := #[⟨0, 0, .this⟩]
  entry := 0
  exit := 1
  exceptionalExit := 2

theorem repeatedParts_admitted : ∃ c g a r store, Checker.ofDeclaration presence = .ok c ∧
    repeatedParts.toGraph = .ok g ∧ repeatedParts.Admitted ∧
    (∀ id b, g.Home id b ↔ ∃ n, g.node? id = some n ∧ n.block = b) ∧ ¬ g.WellFormed ∧
    c.analyzeGraph .standard comparingUnit g = .ok a ∧ a.fixpoint.outFact g.exit = some r ∧
    r = .regular store ∧ a.exitStore = some store := by
  have hok : ((Checker.ofDeclaration presence).toOption.bind fun c =>
      repeatedParts.toGraph.toOption.bind fun g =>
        (c.analyzeGraph .standard comparingUnit g).toOption.bind fun a =>
          if (∃ block ∈ g.blocks, ¬ block.nodes.Nodup) ∧ g.successors g.exit = [] then
            a.fixpoint.outFact g.exit
          else none).isSome = true := by decide +kernel
  obtain ⟨r, h⟩ := Option.isSome_iff_exists.mp hok
  obtain ⟨c, hc, h⟩ := Option.bind_eq_some_iff.mp h
  obtain ⟨g, hg, h⟩ := Option.bind_eq_some_iff.mp h
  obtain ⟨a, ha, h⟩ := Option.bind_eq_some_iff.mp h
  obtain ⟨⟨⟨block, hblock, hrepeated⟩, hnil⟩, hr⟩ := Option.ite_none_right_eq_some.mp h
  have hg := ok_of_toOption hg
  have ha := ok_of_toOption ha
  obtain ⟨hadmitted, hall⟩ := GraphParts.toGraph_admits repeatedParts
  obtain ⟨hlisted, hformed, hexit⟩ := hall g hg
  obtain ⟨store, hstore, hexit⟩ := hexit hnil c .standard comparingUnit a r ha hr
  exact ⟨c, g, a, r, store, ok_of_toOption hc, hg, hadmitted.mp ⟨g, hg⟩, hlisted,
    fun hg => hrepeated ((hformed.mp hg).1 block hblock), ha, hr, hstore, hexit⟩

/-- The block that is designated as the exit ends with a comparison, and two edges follow it. -/
def divertedParts : GraphParts where
  name := "diverted"
  blocks := #[⟨0, [], .special .entry (some 3)⟩, ⟨1, [], .special .exit none⟩,
    ⟨2, [], .special .exceptionalExit none⟩, ⟨3, [0, 1, 2], .regular 4⟩,
    ⟨4, [], .conditional 2 1 1⟩]
  nodes := #[⟨0, 3, .localRead ⟨"x", some "MaybeNull", .parameter⟩⟩,
    ⟨1, 3, .localRead ⟨"known", some "Present", .parameter⟩⟩, ⟨2, 3, .binary .eq 0 1⟩]
  entry := 0
  exit := 3
  exceptionalExit := 2

/-- The store with which the unit is said to return is that of one outcome of the comparison. -/
theorem divertedParts_split : ∃ c g a s s' present, Checker.ofDeclaration presence = .ok c ∧
    divertedParts.toGraph = .ok g ∧ g.successors g.exit = [4] ∧ ¬ g.WellFormed ∧
    c.analyzeGraph .standard comparingUnit g = .ok a ∧
    a.fixpoint.outFact g.exit = some (.split s s') ∧ a.exitStore = some s ∧
    c.hierarchy.lookup? "Present" = some present ∧ s.get? (.local "x") = some present ∧
    s'.get? (.local "x") ≠ some present := by
  have hok : ((Checker.ofDeclaration presence).toOption.bind fun c =>
      divertedParts.toGraph.toOption.bind fun g =>
        (c.analyzeGraph .standard comparingUnit g).toOption.bind fun a =>
          (c.hierarchy.lookup? "Present").bind fun present =>
            (a.fixpoint.outFact g.exit).bind fun r =>
              if g.successors g.exit = [4] ∧ r.isSplit = true ∧
                  r.thenStore.get? (.local "x") = some present ∧
                  r.elseStore.get? (.local "x") ≠ some present then
                some ()
              else none).isSome = true := by decide +kernel
  obtain ⟨_, h⟩ := Option.isSome_iff_exists.mp hok
  obtain ⟨c, hc, h⟩ := Option.bind_eq_some_iff.mp h
  obtain ⟨g, hg, h⟩ := Option.bind_eq_some_iff.mp h
  obtain ⟨a, ha, h⟩ := Option.bind_eq_some_iff.mp h
  obtain ⟨present, hpresent, h⟩ := Option.bind_eq_some_iff.mp h
  have ha := ok_of_toOption ha
  obtain ⟨r, hout, h⟩ := Option.bind_eq_some_iff.mp h
  obtain ⟨⟨hsucc, hsplit, hthen, helse⟩, -⟩ := Option.ite_none_right_eq_some.mp h
  cases r with
  | regular s => cases hsplit
  | split s s' =>
      refine ⟨c, g, a, s, s', present, ok_of_toOption hc, ok_of_toOption hg, hsucc,
        fun hformed => ?_, ha, hout, ?_, hpresent, hthen, helse⟩
      · cases hsucc.symm.trans hformed.exit
      · rw [AnalyzedUnit.exitStore, (Checker.analyzeGraph_ok ha).1, hout]
        rfl

end FlowTyping
