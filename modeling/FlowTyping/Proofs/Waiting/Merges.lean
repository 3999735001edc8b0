import FlowTyping.Proofs.Waiting.Histories

/-!
What happens before merge nodes. Control comes to them from the operands that one of several
paths computes, or from the test of the left operand, and it comes there only once while the
other values of the expression wait.
-/

namespace FlowTyping

namespace FlowGraph.Valid

variable {g : FlowGraph} {b i p t t' : BlockId} {c : NodeId} {block : Block}

/-- A block with nodes leads on to one block at most. -/
theorem onward_unique (hg : g.Valid) (hblock : g.block? b = some block) (hne : block.nodes ≠ [])
    (ht : t ∈ block.kind.onward) (ht' : t' ∈ block.kind.onward) : t = t' := by
  cases hkind : block.kind with
  | regular => simp_all [BlockKind.onward]
  | conditional => exact absurd (hg.tested hblock hkind).1 hne
  | exceptional => simp_all [BlockKind.onward]
  | special => exact absurd (hg.special hblock hkind) hne

theorem leads_unique (hg : g.Valid) (hhome : g.Home c b) (h : Timetable.Leads g.piece? b t)
    (h' : Timetable.Leads g.piece? b t') : t = t' := by
  obtain ⟨block, hblock, hc⟩ := hhome
  have hpiece : g.piece? b = some block.piece := congrArg (Option.map Block.piece) hblock
  obtain ⟨_, hb, ht⟩ := h
  obtain ⟨_, hb', ht'⟩ := h'
  cases hpiece.symm.trans hb
  cases hpiece.symm.trans hb'
  exact hg.onward_unique hblock (List.ne_nil_of_mem hc) ht ht'

/-- A test follows the block that ends with the value tested. -/
theorem of_tests {t e : BlockId} (hg : g.Valid) (h : g.listing.tests b c t e) :
    ∃ q, g.EndsWith q c ∧ b ∈ g.successors q := by
  obtain ⟨block, hblock, hkind⟩ := h
  obtain ⟨-, q, block', hpredecessors, hq, hlast⟩ := hg.tested hblock hkind
  have hmem : q ∈ g.predecessorsOf b := by
    rw [hpredecessors]
    exact List.mem_singleton_self q
  exact ⟨q, ⟨block', hq, hlast⟩, (hg.predecessors.mp hmem).2⟩

end FlowGraph.Valid

theorem GraphParts.EndsWith.home {g : FlowGraph} {i : BlockId} {o : NodeId}
    (h : g.EndsWith i o) : g.Home o i := by
  obtain ⟨block, hblock, hlast⟩ := h
  exact ⟨block, hblock, List.mem_of_getLast? hlast⟩

theorem Listing.decides_iff {L : Listing} {op : BinOp} {block rest past : BlockId} {l : NodeId} :
    L.decides op block l rest past ↔
      op = .and ∧ L.tests block l rest past ∨ op ≠ .and ∧ L.tests block l past rest := by
  unfold Listing.decides
  split <;> simp_all

theorem FlowGraph.leads_of_decides {g : FlowGraph} {op : BinOp} {p i : BlockId} {l : NodeId}
    {rest : BlockId} (h : g.listing.decides op p l rest i) :
    Timetable.Leads g.piece? p i ∧ ∃ t e, g.listing.tests p l t e := by
  have hleads {t e : BlockId} (htests : g.listing.tests p l t e) (hi : i = t ∨ i = e) :
      Timetable.Leads g.piece? p i := by
    obtain ⟨block, hblock, hkind⟩ := htests
    exact ⟨_, congrArg (Option.map Block.piece) hblock, by simpa [Block.piece, hkind,
      BlockKind.onward] using hi⟩
  rcases Listing.decides_iff.mp h with ⟨-, htests⟩ | ⟨-, htests⟩
  · exact ⟨hleads htests (.inr rfl), _, _, htests⟩
  · exact ⟨hleads htests (.inl rfl), _, _, htests⟩

/-- A test whose arms lead to different blocks leads to the right operand on one outcome, and
past it on the other. -/
theorem FlowGraph.arm_of_decides {g : FlowGraph} {op : BinOp} {p i rest t e : BlockId} {l : NodeId}
    {block : Block} (h : g.listing.decides op p l rest i) (hblock : g.block? p = some block)
    (hkind : block.kind = .conditional l t e) (hrest : rest ≠ i) (holds : Bool) :
    ((if holds then t else e) = rest ↔ holds = decide (op = .and)) ∧
      ((if holds then t else e) = rest ∨ (if holds then t else e) = i) := by
  rcases Listing.decides_iff.mp h with ⟨hop, _, hb, hk⟩ | ⟨hop, _, hb, hk⟩ <;>
    cases hblock.symm.trans hb <;> cases hkind.symm.trans hk <;> cases holds <;>
    simp [hop, hrest, Ne.symm hrest]

/-- The code of the right operand begins elsewhere than behind it. -/
theorem FlowGraph.Valid.rest_ne {g : FlowGraph} {op : BinOp} {p i rest : BlockId} {l r : NodeId}
    (hg : g.Valid) (h : g.listing.decides op p l rest i)
    (hways : g.EndsWith p r ∨ ∃ rest f, g.listing.starts rest f ∧ rest ≠ i ∧
      g.listing.decides op p l rest i) : rest ≠ i := by
  rcases hways with ⟨block, hblock, hlast⟩ | ⟨rest', f, -, hne, h'⟩
  · obtain ⟨-, t, e, block', hblock', hkind⟩ := leads_of_decides h
    cases hblock.symm.trans hblock'
    rw [Block.lastNode?, (hg.tested hblock' hkind).1] at hlast
    cases hlast
  · rintro rfl
    rcases Listing.decides_iff.mp h with ⟨hop, b, hb, hk⟩ | ⟨hop, b, hb, hk⟩ <;>
      rcases Listing.decides_iff.mp h' with ⟨hop', b', hb', hk'⟩ | ⟨hop', b', hb', hk'⟩ <;>
      simp_all

/-- Nothing follows the last node of a block. -/
theorem FlowGraph.Ordered.post_eq_nil {g : FlowGraph} {q : BlockId} {block : Block}
    {pre post : List NodeId} {o : NodeId} (hg : g.Ordered) (hblock : g.block? q = some block)
    (hnodes : block.nodes = pre ++ o :: post) (hlast : block.lastNode? = some o) : post = [] := by
  have hascending := hg.ascending hblock
  rw [hnodes] at hascending
  have hafter := (List.pairwise_cons.mp (List.pairwise_append.mp hascending).2.1).1
  rcases List.eq_nil_or_concat post with rfl | ⟨post, k, rfl⟩
  · rfl
  · rw [Block.lastNode?, hnodes] at hlast
    obtain rfl : k = o := by simpa [List.getLast?_append, List.getLast?_cons] using hlast
    exact absurd (hafter k (by simp)) (Nat.lt_irrefl k)

/-- A node of the block with a greater id comes after the other one. -/
theorem FlowGraph.Ordered.mem_post {g : FlowGraph} {q : BlockId} {block : Block}
    {pre post : List NodeId} {k o : NodeId} (hg : g.Ordered) (hblock : g.block? q = some block)
    (hnodes : block.nodes = pre ++ k :: post) (ho : o ∈ block.nodes) (hlt : k < o) :
    o ∈ post := by
  have hascending := hg.ascending hblock
  rw [hnodes] at ho hascending
  rcases List.mem_append.mp ho with hpre | hin
  · have hgt := (List.pairwise_append.mp hascending).2.2 o hpre k List.mem_cons_self
    exact absurd hgt (Nat.lt_asymm hlt)
  · exact (List.mem_cons.mp hin).resolve_left (Nat.ne_of_gt hlt)

namespace Timetable.Fits

variable {g : FlowGraph} {T : Timetable} {i p q t : BlockId} {l r o first : NodeId} {op : BinOp}
  {past later : List PathEvent}
  (hT : T.Fits g.nodes g.piece?) (hg : g.Valid)

include hT hg

/-- The last node of the block before the end has been evaluated on the way. -/
theorem last_of_carries (h : T.Carries g o t i later) (hne : t ≠ i) :
    ∃ p before, T.Carries g o t p before ∧ Leads g.piece? p i ∧
      ∀ k, g.EndsWith p k → .value k ∈ later := by
  rcases h.cases_last with ⟨heq, -⟩ | ⟨p, block, events, before, hbefore, hp, hexit, ho, rfl⟩
  · exact absurd heq hne
  obtain ⟨hleads, hevents⟩ := hT.of_exit hg hp hexit (List.ne_nil_of_mem ho)
  refine ⟨p, before, hbefore, hleads, fun k hk => List.mem_append_right _ ?_⟩
  obtain ⟨block', hp', hlast⟩ := hk
  cases hp.symm.trans hp'
  have hk : k ∈ block.nodes := List.mem_of_getLast? hlast
  rcases hevents with rfl | ⟨c, holds, t', e', hkind, -, -⟩
  · exact List.mem_map_of_mem hk
  · rw [(hg.tested hp hkind).1] at hk
    cases hk

/-- While a value waits, control does not come back. -/
theorem not_back (hleads : Leads g.piece? p t) (hne : T.waits t ≠ [])
    (h : T.Carries g o t p later) : False := by
  have hlt := hT.time_lt hleads hne
  rcases hT.time_of_carries hg h with ⟨rfl, -⟩ | hlt'
  · exact Nat.lt_irrefl _ hlt
  · exact Nat.lt_asymm hlt hlt'

/-- A value that waits where it is tested has just been evaluated: the test follows the block
of the value. -/
theorem leads_to_test {t e : BlockId} (htests : g.listing.tests p l t e)
    (hwaits : l ∈ T.waits p) : ∃ q, g.EndsWith q l ∧ Leads g.piece? q p := by
  obtain ⟨q, hlast, hedge⟩ := hg.of_tests htests
  exact ⟨q, hlast, hT.leads_of_edge hedge (List.ne_nil_of_mem hwaits)⟩

/-- The value waits where it is tested if it waits behind the test. -/
theorem waits_of_tests {t e : BlockId} (htests : g.listing.tests p l t e)
    (hleads : Leads g.piece? p i) (ho : o ∈ T.waits i) : o ∈ T.waits p := by
  obtain ⟨block, hblock, hkind⟩ := htests
  rcases hT.has_of_leads hleads ho with hwaits | ⟨c, hc, hin⟩
  · exact hwaits
  · obtain ⟨block', hblock', rfl⟩ := Option.map_eq_some_iff.mp hc
    cases hblock.symm.trans hblock'
    rw [Block.piece, (hg.tested hblock hkind).1] at hin
    cases hin

/-- The left operand of a short-circuit operation has been evaluated and tested. Since then the
right operand has been evaluated exactly if the test led on to its code. -/
theorem shortCircuit_evaluated (hordered : g.Ordered) (hentry : T.waits g.entry = [])
    (harrives : g.Arrives i past) {test rest : BlockId} (hl : l ∈ T.waits i)
    (hways : ∀ p, Leads g.piece? p i → g.EndsWith p r ∨ ∃ rest f, g.listing.starts rest f ∧
      rest ≠ i ∧ g.listing.decides op p l rest i)
    (hdecides : g.listing.decides op test l rest i) :
    ∃ before holds target after, past = before ++ .value l :: .outcome l holds target :: after ∧
      .value l ∉ after ∧ (target = rest ↔ holds = decide (op = .and)) ∧
      (.value r ∈ after ↔ target = rest) := by
  have hne := List.ne_nil_of_mem hl
  obtain ⟨hleads, t, e, htests⟩ := FlowGraph.leads_of_decides hdecides
  obtain ⟨block', htest, hkind⟩ := id htests
  -- The left operand is tested directly after its last evaluation.
  obtain ⟨q, block, pre, post, x, before, later, hblock, hnodes, hexit, hx, hcarries, hpast,
    hfresh⟩ := hT.last_value hg hordered hentry harrives hl
  have hnext := (hT.of_exit hg hblock hexit (List.ne_nil_of_mem hx)).1
  have hhome : g.Home l q := ⟨block, hblock, by simp [hnodes]⟩
  have hfollows {p t e : BlockId} (hp : Leads g.piece? p i) (htests : g.listing.tests p l t e) :
      g.EndsWith q l ∧ p = x := by
    obtain ⟨q', hlast, hleads'⟩ := hT.leads_to_test hg htests (hT.waits_of_tests hg htests hp hl)
    obtain rfl := hg.home_unique hhome hlast.home
    exact ⟨hlast, hg.leads_unique hhome hleads' hnext⟩
  obtain ⟨⟨_, hq, hlast⟩, rfl⟩ := hfollows hleads htests
  cases hblock.symm.trans hq
  obtain rfl := hordered.post_eq_nil hblock hnodes hlast
  have hrest : rest ≠ i := hg.rest_ne hdecides (hways test hleads)
  cases hcarries with
  | stay => exact (hT.not_back hg hleads hne (.stay (o := l))).elim
  | @step _ target _ _ _ after hb hleaves hwaits hafter =>
      cases htest.symm.trans hb
      obtain ⟨holds, htarget, rfl⟩ := Block.mem_exits_test hkind hleaves
      rw [(hg.tested htest hkind).1] at hpast hfresh
      have harm := FlowGraph.arm_of_decides hdecides htest hkind hrest holds
      rw [← htarget] at harm
      refine ⟨before, holds, target, after, by simpa using hpast, fun h => hfresh (by simp [h]),
        harm.1, fun hr => ?_, ?_⟩
      · refine harm.2.resolve_right ?_
        rintro rfl
        rcases hT.time_of_carries hg hafter with ⟨-, rfl⟩ | hlt
        · cases hr
        · exact Nat.lt_irrefl _ hlt
      · rintro rfl
        obtain ⟨p, since, hsince, hp, hevents⟩ := hT.last_of_carries hg hafter hrest
        rcases hways p hp with hr | ⟨_, _, -, -, hdecides'⟩
        · exact hevents r hr
        · obtain ⟨-, t', e', htests'⟩ := FlowGraph.leads_of_decides hdecides'
          obtain rfl := (hfollows hp htests').2
          exact (hT.not_back hg (hT.of_exit hg hb hleaves (List.ne_nil_of_mem hwaits)).1
            (List.ne_nil_of_mem hwaits) hsince).elim

/-- Only one block on the way is left towards its end. -/
theorem home_of_last (h : T.Carries g o p i later) {a b : NodeId} {x y : BlockId}
    (ha : .value a ∈ later) (hb : .value b ∈ later) (hx : g.Home a x) (hy : g.Home b y)
    (hxi : Leads g.piece? x i) (hyi : Leads g.piece? y i) : x = y := by
  induction h with
  | stay => cases ha
  | @step p t i block events later hblock hexit ho hrest ih =>
      have hne := List.ne_nil_of_mem ho
      obtain ⟨hleads, -⟩ := hT.of_exit hg hblock hexit hne
      -- Nothing happens after the block that is left towards the end.
      have hlast {k : NodeId} {z : BlockId} (hk : .value k ∈ events) (hz : g.Home k z)
          (hzi : Leads g.piece? z i) : z = p ∧ later = [] := by
        have hin := hT.mem_nodes_of_exit hg hblock hexit hne hk
        obtain rfl := hg.home_unique hz ⟨block, hblock, hin⟩
        obtain rfl := hg.leads_unique hz hleads hzi
        rcases hT.time_of_carries hg hrest with ⟨-, hnil⟩ | hlt
        · exact ⟨rfl, hnil⟩
        · exact absurd hlt (Nat.lt_irrefl _)
      rcases List.mem_append.mp ha with ha | ha <;> rcases List.mem_append.mp hb with hb | hb
      · exact (hlast ha hx hxi).1.trans (hlast hb hy hyi).1.symm
      · rw [(hlast ha hx hxi).2] at hb
        cases hb
      · rw [(hlast hb hy hyi).2] at ha
        cases ha
      · exact ih ha hb hxi hyi

/-- Since the condition of a ternary expression was last entered, one of the two values has
been evaluated. -/
theorem ternary_evaluated (hordered : g.Ordered) (hentry : T.waits g.entry = [])
    (harrives : g.Arrives i past) (hfirst : first ∈ T.waits i) (hl : first < l) (hr : l < r)
    (hways : ∀ p, Leads g.piece? p i → g.EndsWith p l ∨ g.EndsWith p r)
    (hends : ∀ o ∈ [l, r], ∃ p, Leads g.piece? p i ∧ g.EndsWith p o) :
    ∃ before after, past = before ++ .value first :: after ∧ .value first ∉ after ∧
      (.value l ∈ after ↔ .value r ∉ after) := by
  obtain ⟨q, block, pre, post, t, before, later, hblock, hnodes, hexit, hwaits, hcarries, hpast,
    hfresh⟩ := hT.last_value hg hordered hentry harrives hfirst
  have hnext := (hT.of_exit hg hblock hexit (List.ne_nil_of_mem hwaits)).1
  refine ⟨before, _, hpast, hfresh, ?_⟩
  have hsome : .value l ∈ post.map .value ++ later ∨ .value r ∈ post.map .value ++ later := by
    by_cases hti : t = i
    · subst hti
      -- The value stands at the end of the block of the first node.
      have hpost {o : NodeId} (ho : first < o) (hlast : g.EndsWith q o) :
          .value o ∈ post.map .value ++ later := by
        obtain ⟨block', hb, hlast⟩ := hlast
        cases hblock.symm.trans hb
        have hin := hordered.mem_post hblock hnodes (List.mem_of_getLast? hlast) ho
        exact List.mem_append_left _ (List.mem_map_of_mem hin)
      exact (hways q hnext).imp (hpost hl) (hpost (Nat.lt_trans hl hr))
    · obtain ⟨p, -, -, hp, hevents⟩ := hT.last_of_carries hg hcarries hti
      exact (hways p hp).imp (fun h => List.mem_append_right _ (hevents l h))
        fun h => List.mem_append_right _ (hevents r h)
  have hboth : ¬ (.value l ∈ post.map .value ++ later ∧ .value r ∈ post.map .value ++ later) := by
    rintro ⟨hmem, hmem'⟩
    obtain ⟨x, hx, hlast⟩ := hends l (by simp)
    obtain ⟨y, hy, hlast'⟩ := hends r (by simp)
    have hall : ∀ {o : NodeId}, .value o ∈ post.map .value ++ later →
        .value o ∈ block.nodes.map .value ++ later := by
      intro o ho
      rw [hnodes]
      simp only [List.mem_append, List.map_append, List.map_cons, List.mem_cons] at ho ⊢
      tauto
    obtain rfl := hT.home_of_last hg (.step hblock hexit hwaits hcarries) (hall hmem) (hall hmem')
      hlast.home hlast'.home hx hy
    obtain ⟨_, hb, hlast⟩ := hlast
    obtain ⟨_, hb', hlast'⟩ := hlast'
    cases hb.symm.trans hb'
    cases hlast.symm.trans hlast'
    exact Nat.lt_irrefl _ hr
  tauto

end Timetable.Fits

end FlowTyping
