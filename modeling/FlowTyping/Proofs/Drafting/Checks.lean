import FlowTyping.Proofs.Drafting.Finished

/-!
The parts of a finished construction pass every check: what is left to refuse is in the
source.
-/

namespace FlowTyping

open Build

/-- A chain of removed blocks is empty, or its last block forwards to its end. -/
theorem Compaction.Chain.last {drafts : Array Draft} {flags : Array Bool} {a c n : Nat}
    (h : Chain drafts flags a n c) : a = c ∨ ∃ x : Nat, drafts[x]? = some ⟨[], .goto c⟩ := by
  induction h with
  | stop => exact .inl rfl
  | skip _ hnext _ ih =>
      rcases ih with rfl | hlast
      · exact .inr ⟨_, Layout.goto_of_forwardOf hnext⟩
      · exact .inr hlast

namespace GraphParts

variable {p : GraphParts}

theorem toGraph_ok (hblocks : p.checkBlocks = .ok ()) (hdesignated : p.checkDesignated = .ok ())
    (hnodes : p.checkNodes = .ok ()) (hstructure : p.checkStructure p.predecessorTable = .ok ()) :
    ∃ g, p.toGraph = .ok g :=
  ⟨_, bind_ok.mpr ⟨(), hblocks, bind_ok.mpr ⟨(), hdesignated, bind_ok.mpr ⟨(), hnodes,
    bind_ok.mpr ⟨(), hstructure, rfl⟩⟩⟩⟩⟩

theorem filterMap_id (blocks : List Block) (q : Block → Prop) [DecidablePred q] :
    (blocks.filterMap fun block => if q block then some block.id else none) =
      (blocks.filter q).map Block.id := by
  induction blocks with
  | nil => rfl
  | cons block rest ih => by_cases h : q block <;> simp [h, ih]

/-- The predecessors of a block are listed once each. -/
theorem predecessorTable_nodup
    (hid : ∀ {i : Nat} {b : Block}, p.blocks[i]? = some b → b.id = i) (i : BlockId) :
    (p.predecessorTable.getD i []).Nodup := by
  by_cases hi : i < p.blocks.size
  · have hids : p.blocks.toList.map Block.id = List.range p.blocks.size := by
      refine List.ext_getElem? fun j => ?_
      by_cases hj : j < p.blocks.size
      · simp [hj, hid (Array.getElem?_eq_getElem hj)]
      · simp [hj]
    simp only [predecessorTable, Array.getD_eq_getD_getElem?, Array.getElem?_map,
      Array.getElem?_range, hi, if_true, Option.map_some, Option.getD_some, filterMap_id]
    exact (List.nodup_range.sublist (hids ▸ (List.filter_sublist.map Block.id)))
  · simp [predecessorTable, hi]

end GraphParts

theorem List.eq_singleton_of_nodup {α : Type} {l : List α} {a : α} (hnodup : l.Nodup)
    (ha : a ∈ l) (hall : ∀ x ∈ l, x = a) : l = [a] := by
  cases l with
  | nil => cases ha
  | cons b rest =>
      obtain ⟨hb, -⟩ := List.nodup_cons.mp hnodup
      obtain rfl := hall b (by simp)
      refine congrArg _ (List.eq_nil_iff_forall_not_mem.mpr fun x hx => hb ?_)
      exact hall x (by simp [hx]) ▸ hx

namespace Layout

open Compaction GraphParts

variable {D : Layout} {G : Marks} {name : String} {a c i t u v : Nat} {b : Block} {d : Draft}

theorem id_of_parts_blocks (hb : (D.parts name).blocks[i]? = some b) : b.id = i := by
  obtain ⟨a, d, -, -, hrename, rfl⟩ := mem_parts_blocks hb
  exact hrename

/-- Every draft is, or leads to, a block of the graph. -/
theorem Whole.rename_lt (hw : D.Whole) (ha : a < D.drafts.size) :
    rename D.drafts a < (D.parts name).blocks.size := by
  obtain ⟨c, hc, hkeeps, hrename, -⟩ := hw.lands ha
  rw [hrename]
  exact (Array.getElem?_eq_some_iff.mp (parts_blocks (Array.getElem?_eq_getElem hc) hkeeps)).1

/-- The draft and the targets behind a block of the graph. -/
theorem Whole.successors_parts (hw : D.Whole) (hd : D.drafts[a]? = some d)
    (hb : b = ⟨rename D.drafts a, d.nodes, d.exits.toKind (rename D.drafts) exitId⟩) :
    b.successors = d.exits.targets.map (rename D.drafts) := by
  rw [hb, Block.successors, Exits.successors_toKind (hw.finished a d hd)]

/-- Only the block of its condition leads to a test. -/
theorem Marked.predecessor_of_test {x p : Nat} {m : Mark} (hD : D.Marked G) (hw : D.Whole)
    (hi : i < D.drafts.size) (hkeeps : Keeps D.drafts i) (hm : G.blocks[i]? = some m)
    (hrole : m.role = .test p) (hp : ∀ t : Nat, D.drafts[p]? ≠ some ⟨[], .goto t⟩)
    (hedge : rename D.drafts i ∈ (D.parts name).successors x) : x = rename D.drafts p := by
  have hadmits {u : Nat} (h : G.Leads u i) : p = u := by
    obtain ⟨_, m', _, hm', hleads⟩ := h
    cases hm.symm.trans hm'
    have hadmits := hleads.admits
    rwa [hrole] at hadmits
  rw [GraphParts.successors] at hedge
  cases hb : (D.parts name).blocks[x]? with
  | none => simp [hb] at hedge
  | some b =>
      rw [hb] at hedge
      obtain ⟨a, d, hd, hkept, rfl, hblock⟩ := mem_parts_blocks hb
      have hedge : rename D.drafts i ∈ b.successors := hedge
      rw [hw.successors_parts hd hblock] at hedge
      obtain ⟨t, ht, hrename⟩ := List.mem_map.mp hedge
      obtain ⟨-, n, -, c, hc, hchain, htarget⟩ := hw.chain_of_target hd ht
      obtain rfl := rename_injective hc hi hchain.kept hkeeps (htarget.symm.trans hrename)
      rcases hchain.last with rfl | ⟨y, hy⟩
      · rw [hadmits (hD.leads a d hd t ht)]
      · have hleads := hD.leads y _ hy c (by simp [Exits.targets])
        exact absurd (hadmits hleads ▸ hy) (hp c)

/-- The test of a condition stands right after the block that ends with the condition. -/
theorem Marked.predecessors_of_test {id : NodeId} {t e : BlockId} (hD : D.Marked G) (hw : D.Whole)
    (hi : i < D.drafts.size) (hkeeps : Keeps D.drafts i)
    (hd : D.drafts[i]? = some ⟨[], .branch id t e⟩) : ∃ p b,
      (D.parts name).predecessorTable.getD (rename D.drafts i) [] = [p] ∧
        (D.parts name).blocks[p]? = some b ∧ b.lastNode? = some id := by
  obtain ⟨m, hm, hsettled⟩ := hD.settled i _ hd
  obtain ⟨-, p, d', hrole, hd', hlast, htarget⟩ := hsettled
  have hnodes : d'.nodes ≠ [] := by
    rintro hnil
    rw [hnil] at hlast
    cases hlast
  have hp : ∀ t : Nat, D.drafts[p]? ≠ some ⟨[], .goto t⟩ := by
    intro t hgoto
    cases hd'.symm.trans hgoto
    exact hnodes rfl
  have hkept : Keeps D.drafts p := by
    by_contra hremoved
    obtain ⟨t, hgoto⟩ := goto_of_not_keeps hremoved
    exact hp t hgoto
  have hblock : (D.parts name).blocks[rename D.drafts p]? = _ := parts_blocks hd' hkept
  have hedge : rename D.drafts i ∈ (D.parts name).successors (rename D.drafts p) := by
    rw [GraphParts.successors, hblock, Option.map_some, Option.getD_some,
      hw.successors_parts hd' rfl]
    exact List.mem_map_of_mem htarget
  have hid {j : Nat} {b : Block} (hb : (D.parts name).blocks[j]? = some b) : b.id = j :=
    id_of_parts_blocks hb
  refine ⟨rename D.drafts p, _, List.eq_singleton_of_nodup (predecessorTable_nodup hid _) ?_ ?_,
    hblock, hlast⟩
  · exact (mem_predecessorTable hid).mpr ⟨hw.rename_lt hi, hedge⟩
  · intro x hx
    exact hD.predecessor_of_test hw hi hkeeps hm hrole hp ((mem_predecessorTable hid).mp hx).2

/-- A block has the nodes and the successors of its kind. -/
theorem Marked.checkBlock_ok (hD : D.Marked G) (hw : D.Whole)
    (hd : D.drafts[a]? = some d) (hkeeps : Keeps D.drafts a) :
    (D.parts name).checkBlock (D.parts name).predecessorTable
      ⟨rename D.drafts a, d.nodes, d.exits.toKind (rename D.drafts) exitId⟩ = .ok () := by
  obtain ⟨m, -, hsettled⟩ := hD.settled a d hd
  obtain ⟨nodes, exits⟩ := d
  cases exits with
  | openEnd => exact hsettled.elim
  | goto => rfl
  | branch id t e =>
      obtain rfl : nodes = [] := hsettled.1
      obtain ⟨p, b, htable, hb, hlast⟩ : ∃ p b,
          (D.parts name).predecessorTable.getD (rename D.drafts a) [] = [p] ∧
            (D.parts name).blocks[p]? = some b ∧ b.lastNode? = some id :=
        hD.predecessors_of_test hw (Array.getElem?_eq_some_iff.mp hd).1 hkeeps hd
      simp [checkBlock, Exits.toKind, htable, hb, hlast, refuseIf, bind, Except.bind]
  | raise successor handlers terminal =>
      obtain ⟨-, ⟨id, hnodes⟩, hhandlers⟩ := hsettled
      obtain rfl : nodes = [id] := hnodes
      cases successor with
      | none => simp [checkBlock, Exits.toKind, refuseIf, bind, Except.bind, hhandlers]
      | some t => simp [checkBlock, Exits.toKind, refuseIf, bind, Except.bind]
  | special kind successor =>
      obtain ⟨hnodes, hkind⟩ := hsettled
      obtain rfl : nodes = [] := hnodes
      cases kind <;> cases successor <;>
        simp_all [checkBlock, Exits.toKind, refuseIf, bind, Except.bind, SpecialKind.isExit]

/-- A block lists nodes that name it as theirs. -/
theorem Whole.checkListing_ok (hw : D.Whole) (hd : D.drafts[a]? = some d)
    (hb : b.id = rename D.drafts a) (hnodes : b.nodes = d.nodes) :
    (D.parts name).checkListing b = .ok () := by
  refine forM_ok.mpr fun id hid => ?_
  obtain ⟨n, hn, hblock⟩ := (hw.listed a d hd).2 id (hnodes ▸ hid)
  have hnode : (D.parts name).nodes[id]? = some { n with block := rename D.drafts n.block } := by
    simp [parts, hn]
  rw [hnode]
  exact refuseIf_ok.mpr (by simp [hb, hblock])

/-- Every node is listed by a block of the graph. -/
theorem Marked.mem_block {id : NodeId} (hD : D.Marked G) (hid : id < D.nodes.size) :
    ∃ b ∈ (D.parts name).blocks, id ∈ b.nodes := by
  obtain ⟨a, d, hd, hmem⟩ := hD.listed id hid
  have hkeeps : Keeps D.drafts a := by
    by_contra hremoved
    obtain ⟨t, hgoto⟩ := goto_of_not_keeps hremoved
    cases hd.symm.trans hgoto
    cases hmem
  exact ⟨_, Array.mem_of_getElem? (parts_blocks hd hkeeps), hmem⟩

/-- The finished parts of a construction make a graph. -/
theorem Marked.toGraph_ok (hD : D.Marked G) (hw : D.Whole) (name : String) :
    ∃ g, (D.parts name).toGraph = .ok g := by
  have hdesignated : 3 ≤ D.drafts.size := hw.designated
  refine GraphParts.toGraph_ok ?_ ?_ ?_ ?_
  · refine forM_ok.mpr fun x hx => ?_
    obtain ⟨b, i⟩ := x
    rw [List.mk_mem_zipIdx_iff_getElem?, Array.getElem?_toList] at hx
    obtain ⟨a, d, hd, -, hrename, hblock⟩ := mem_parts_blocks hx
    refine bind_ok.mpr ⟨(), refuseIf_ok.mpr (by simp [id_of_parts_blocks hx]), ?_⟩
    refine forM_ok.mpr fun v hv => refuseIf_ok.mpr ?_
    rw [hw.successors_parts hd hblock] at hv
    obtain ⟨t, ht, rfl⟩ := List.mem_map.mp hv
    have hlt : rename D.drafts t < (D.parts name).blocks.size :=
      hw.rename_lt (hw.targets a d hd t ht)
    simpa using hlt
  · refine forM_ok.mpr fun v hv => refuseIf_ok.mpr ?_
    have hlt {i : Nat} (hi : i < 3) : rename D.drafts i < (D.parts name).blocks.size :=
      hw.rename_lt (Nat.lt_of_lt_of_le hi hdesignated)
    have hv : v = rename D.drafts entryId ∨ v = rename D.drafts exitId ∨
        v = rename D.drafts exceptionalExitId := by simpa [parts] using hv
    rcases hv with rfl | rfl | rfl <;> simpa using hlt (by decide)
  · refine forM_ok.mpr fun x hx => ?_
    obtain ⟨n, i⟩ := x
    rw [List.mk_mem_zipIdx_iff_getElem?, Array.getElem?_toList] at hx
    obtain ⟨n', hn', rfl⟩ : ∃ n', D.nodes[i]? = some n' ∧
        { n' with block := rename D.drafts n'.block } = n := by simpa [parts] using hx
    obtain ⟨hid, hoperands⟩ := hw.operands i n' hn'
    have hlt : i < D.nodes.size := (Array.getElem?_eq_some_iff.mp hn').1
    have hnone : n'.kind.operands.find? (fun o => (D.parts name).nodes.size ≤ o) = none := by
      rw [List.find?_eq_none]
      intro o ho
      simpa [parts] using Nat.lt_trans (hoperands o ho) hlt
    refine bind_ok.mpr ⟨(), refuseIf_ok.mpr (by simp [hid]), ?_⟩
    simp only [hnone]
  · refine bind_ok.mpr ⟨(), forM_ok.mpr fun b hb => ?_, ?_⟩
    · obtain ⟨i, hi⟩ := Array.mem_iff_getElem?.mp (Array.mem_toList_iff.mp hb)
      obtain ⟨a, d, hd, hkeeps, -, rfl⟩ := mem_parts_blocks hi
      exact bind_ok.mpr ⟨(), hw.checkListing_ok hd rfl rfl, hD.checkBlock_ok hw hd hkeeps⟩
    · have hnone : (D.parts name).unlisted? = none := by
        rw [unlisted?, List.find?_eq_none]
        intro id hid
        obtain ⟨b, hb, hmem⟩ : ∃ b ∈ (D.parts name).blocks, id ∈ b.nodes :=
          hD.mem_block (by simpa [parts] using hid)
        simpa using ⟨b, hb, hmem⟩
      rw [hnone]

end Layout

end FlowTyping
