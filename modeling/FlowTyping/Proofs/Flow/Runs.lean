import FlowTyping.Proofs.Flow.Nodes

/-!
Runs over the nodes of a block: they change the qualifiers of these nodes only, they are
monotone, and once the qualifiers are recorded a run repeats itself.
-/

namespace FlowTyping

namespace Hierarchy

/-- A qualifier joined into what was there before. -/
def joinOnto (h : Hierarchy) (old : Option Qualifier) (q : Qualifier) : Qualifier :=
  match old with
  | some old => h.join old q
  | none => q

variable {h : Hierarchy} {old old' : Option Qualifier} {q q' : Qualifier}

theorem Lawful.joinOnto_mono (hh : h.Lawful)
    (hold : ∀ o, old = some o → ∃ o', old' = some o' ∧ h.isSubtype o o' = true)
    (hhas : ∀ o', old' = some o' → h.Has o') (hq : h.isSubtype q q' = true) :
    h.isSubtype (h.joinOnto old q) (h.joinOnto old' q') = true := by
  cases old with
  | none =>
      cases old' with
      | none => exact hq
      | some o' => exact hh.le_trans hq (hh.le_join_right (hhas o' rfl) (hh.has_of_le hq).2)
  | some o =>
      obtain ⟨o', rfl, hle⟩ := hold o rfl
      exact hh.join_mono hle hq

theorem Lawful.joinOnto_absorbs (hh : h.Lawful) (hold : ∀ o, old = some o → h.Has o)
    (hq : h.Has q) : h.join (h.joinOnto old q) q = h.joinOnto old q := by
  cases old with
  | none =>
      exact hh.le_antisymm (hh.join_le (hh.le_refl hq) (hh.le_refl hq)) (hh.le_join_left hq hq)
  | some o => exact hh.join_absorbs (hold o rfl) hq

end Hierarchy

/-- Tables of the nodes of a graph over a hierarchy, one with a table above it. -/
structure NodeValues.Under (h : Hierarchy) (n : Nat) (V W : NodeValues) : Prop where
  left : V.size = n
  right : W.size = n
  le : V.Le h W
  refl : W.Le h W

namespace NodeValues

variable {h : Hierarchy} {n : Nat} {U V W : NodeValues}

theorem Le.has (hh : h.Lawful) (hV : V.Le h W) {id : NodeId} {q : Qualifier}
    (hq : V.getD id none = some q) : h.Has q := by
  obtain ⟨_, -, hle⟩ := hV id q hq
  exact (hh.has_of_le hle).1

theorem Le.trans (hh : h.Lawful) (hUV : U.Le h V) (hVW : V.Le h W) : U.Le h W := by
  intro id q hq
  obtain ⟨q', hq', hle⟩ := hUV id q hq
  obtain ⟨q'', hq'', hle'⟩ := hVW id q' hq'
  exact ⟨q'', hq'', hh.le_trans hle hle'⟩

theorem Le.self (hh : h.Lawful) (hV : V.Le h W) : V.Le h V :=
  fun _ q hq => ⟨q, hq, hh.le_refl (hV.has hh hq)⟩

theorem Under.self (hh : h.Lawful) (hV : V.Under h n W) : V.Under h n V :=
  ⟨hV.left, hV.left, hV.le.self hh, hV.le.self hh⟩

/-- Tables of one size that are below each other are the same. -/
theorem Under.antisymm (hh : h.Lawful) (hV : V.Under h n W) (hW : W.Le h V) : V = W := by
  have hget : ∀ id : Nat, V.getD id none = W.getD id none := by
    intro id
    cases hq : V.getD id none with
    | some q =>
        obtain ⟨q', hq', hle⟩ := hV.le id q hq
        obtain ⟨q'', hq'', hge⟩ := hW id q' hq'
        rw [hq] at hq''
        cases hq''
        rw [hq', hh.le_antisymm hle hge]
    | none =>
        cases hq' : W.getD id none with
        | none => rfl
        | some q' =>
            obtain ⟨q'', hq'', -⟩ := hW id q' hq'
            rw [hq] at hq''
            cases hq''
  refine Array.ext (hV.left.trans hV.right.symm) fun i hi hi' => ?_
  simpa [hi, hi'] using hget i

end NodeValues

namespace UnitAnalysis

variable {u : UnitAnalysis} {run run' run'' : BlockRun} {id : NodeId} {ids : List NodeId}
  {q q' : Qualifier}

theorem recordValue_eq (u : UnitAnalysis) (id : NodeId) (q : Qualifier) (run : BlockRun) :
    u.recordValue id q run =
      if run.values.getD id none =
          some (u.checker.hierarchy.joinOnto (run.values.getD id none) q) then run
      else
        { run with
          values := run.values.setIfInBounds id
            (some (u.checker.hierarchy.joinOnto (run.values.getD id none) q))
          revisit := run.revisit ++ (u.consumers.getD id []).filter (· ∉ run.revisit) } := rfl

theorem recordValue_size : (u.recordValue id q run).values.size = run.values.size := by
  rw [recordValue_eq]
  split
  · rfl
  · exact Array.size_setIfInBounds

theorem getD_setIfInBounds {values : NodeValues} {v : Option Qualifier} (j : Nat) :
    (values.setIfInBounds id v).getD j none =
      if j = id ∧ id < values.size then v else values.getD j none := by
  by_cases hj : j = id
  · subst hj
    by_cases hsize : j < values.size
    · simp [hsize]
    · simp [hsize]
  · simp [hj, Ne.symm hj]

theorem recordValue_values (hid : id < run.values.size) (j : Nat) :
    (u.recordValue id q run).values.getD j none =
      if j = id then some (u.checker.hierarchy.joinOnto (run.values.getD id none) q)
      else run.values.getD j none := by
  rw [recordValue_eq]
  by_cases hsame : run.values.getD id none =
      some (u.checker.hierarchy.joinOnto (run.values.getD id none) q)
  · rw [if_pos hsame]
    by_cases hj : j = id
    · rw [if_pos hj, hj]
      exact hsame
    · rw [if_neg hj]
  · rw [if_neg hsame, getD_setIfInBounds]
    simp only [hid, and_true]

/-- What a run over some nodes leaves alone, and what it notes. -/
structure Extends (u : UnitAnalysis) (ids : List NodeId) (run run' : BlockRun) : Prop where
  size : run'.values.size = run.values.size
  frame : ∀ j ∉ ids, run'.values.getD j none = run.values.getD j none
  revisit : run.revisit ⊆ run'.revisit
  noted : ∀ j, run'.values.getD j none ≠ run.values.getD j none →
    u.consumers.getD j [] ⊆ run'.revisit

theorem Extends.refl (ids : List NodeId) (run : BlockRun) : Extends u ids run run where
  size := rfl
  frame _ _ := rfl
  revisit := List.Subset.refl _
  noted _ h := absurd rfl h

theorem Extends.trans {ids' : List NodeId} (h : Extends u ids run run')
    (h' : Extends u ids' run' run'') : Extends u (ids ++ ids') run run'' where
  size := h'.size.trans h.size
  frame j hj := by
    rw [List.mem_append, not_or] at hj
    rw [h'.frame j hj.2, h.frame j hj.1]
  revisit := List.Subset.trans h.revisit h'.revisit
  noted j hj := by
    by_cases hj' : run'.values.getD j none = run.values.getD j none
    · exact h'.noted j (hj' ▸ hj)
    · exact List.Subset.trans (h.noted j hj') h'.revisit

theorem recordValue_extends (r : TransferResult) :
    Extends u [id] run { u.recordValue id q run with current := r } := by
  refine ⟨recordValue_size, fun j hj => ?_, ?_, fun j hj => ?_⟩
  · rw [List.mem_singleton] at hj
    change (u.recordValue id q run).values.getD j none = _
    rw [recordValue_eq]
    split
    · rfl
    · rw [getD_setIfInBounds, if_neg (fun h => hj h.1)]
  · change run.revisit ⊆ (u.recordValue id q run).revisit
    rw [recordValue_eq]
    split
    · exact List.Subset.refl _
    · exact List.subset_append_left _ _
  · change (u.recordValue id q run).values.getD j none ≠ _ at hj
    change _ ⊆ (u.recordValue id q run).revisit
    rw [recordValue_eq] at hj ⊢
    split at hj
    · exact absurd rfl hj
    · rename_i hchanged
      rw [if_neg hchanged]
      have hid : j = id := by
        by_contra hne
        exact hj (by rw [getD_setIfInBounds, if_neg (fun h => hne h.1)])
      subst hid
      intro b hb
      by_cases hmem : b ∈ run.revisit
      · exact List.mem_append_left _ hmem
      · exact List.mem_append_right _ (List.mem_filter.mpr ⟨hb, by simpa using hmem⟩)

theorem runNodes_extends {e : Option AnalysisError} (h : u.runNodes ids run = (run', e)) :
    Extends u ids run run' := by
  induction ids generalizing run with
  | nil =>
      cases h
      exact .refl _ _
  | cons id rest ih =>
      rw [runNodes] at h
      split at h
      · exact (Extends.refl [id] run).trans (ih h)
      · split at h
        · cases h
          exact .refl _ _
        · exact (recordValue_extends _).trans (ih h)

theorem runNodes_cons_ok {node : Node} (hnode : u.graph.node? id = some node) :
    u.runNodes (id :: ids) run = (run', none) ↔
      ∃ q r, u.transferNode run.values node run.current = .ok (q, r) ∧
        u.runNodes ids { u.recordValue id q run with current := r } = (run', none) := by
  rw [runNodes, hnode]
  dsimp only
  cases u.transferNode run.values node run.current with
  | error e => simp
  | ok p =>
      obtain ⟨q, r⟩ := p
      constructor
      · exact fun h => ⟨q, r, rfl, h⟩
      · rintro ⟨q', r', heq, h⟩
        cases heq
        exact h

theorem node?_lt {node : Node} (hnode : u.graph.node? id = some node) : id < u.graph.nodeCount :=
  (Array.getElem?_eq_some_iff.mp hnode).1

theorem recordValue_mono (hc : u.checker.Sound)
    (hid : id < u.graph.nodeCount)
    (hV : run.values.Under u.checker.hierarchy u.graph.nodeCount run'.values)
    (hq : u.checker.hierarchy.isSubtype q q' = true) :
    (u.recordValue id q run).values.Under u.checker.hierarchy u.graph.nodeCount
      (u.recordValue id q' run').values := by
  have hh := hc.lawful
  have hle {run run' : BlockRun} {q q' : Qualifier} (hsize : id < run.values.size)
      (hsize' : id < run'.values.size) (hV : run.values.Le u.checker.hierarchy run'.values)
      (hhas : run'.values.Le u.checker.hierarchy run'.values)
      (hq : u.checker.hierarchy.isSubtype q q' = true) :
      (u.recordValue id q run).values.Le u.checker.hierarchy
        (u.recordValue id q' run').values := by
    intro j v hv
    rw [recordValue_values hsize] at hv
    rw [recordValue_values hsize']
    by_cases hj : j = id
    · rw [if_pos hj] at hv ⊢
      obtain rfl := Option.some.inj hv
      exact ⟨_, rfl, hh.joinOnto_mono (hV id) (fun _ => hhas.has hh) hq⟩
    · rw [if_neg hj] at hv ⊢
      exact hV j v hv
  have hsize : id < run.values.size := hV.left ▸ hid
  have hsize' : id < run'.values.size := hV.right ▸ hid
  exact ⟨recordValue_size.trans hV.left, recordValue_size.trans hV.right,
    hle hsize hsize' hV.le hV.refl hq,
    hle hsize' hsize' hV.refl hV.refl (hh.le_refl (hh.has_of_le hq).2)⟩

/-- A run from more and from results above gives more and results above. -/
theorem runNodes_mono (hc : u.checker.Sound) {V W : BlockRun}
    (hV : V.values.Under u.checker.hierarchy u.graph.nodeCount W.values)
    (hcurrent : V.current.Under u.checker.hierarchy W.current)
    (h : u.runNodes ids V = (run, none)) (h' : u.runNodes ids W = (run', none)) :
    run.values.Under u.checker.hierarchy u.graph.nodeCount run'.values ∧
      run.current.Under u.checker.hierarchy run'.current := by
  induction ids generalizing V W with
  | nil =>
      cases h
      cases h'
      exact ⟨hV, hcurrent⟩
  | cons id rest ih =>
      cases hnode : u.graph.node? id with
      | none =>
          rw [runNodes, hnode] at h h'
          exact ih hV hcurrent h h'
      | some node =>
          obtain ⟨q, r, htransfer, h⟩ := (runNodes_cons_ok hnode).mp h
          obtain ⟨q', r', htransfer', h'⟩ := (runNodes_cons_ok hnode).mp h'
          obtain ⟨hq, hr⟩ := transferNode_mono hc hV.le hcurrent htransfer htransfer'
          exact ih (V := ⟨_, r, _⟩) (W := ⟨_, r', _⟩)
            (recordValue_mono hc (node?_lt hnode) hV hq) hr h h'

/-- A run over qualifiers that a run has recorded, on its own nodes and on those that it
reads, gives the same result and records nothing. -/
theorem runNodes_again (hc : u.checker.Sound) (ho : u.graph.Ordered)
    (hids : ids.Pairwise (· < ·)) {V : BlockRun}
    (hV : V.values.Under u.checker.hierarchy u.graph.nodeCount V.values)
    (hcurrent : V.current.Under u.checker.hierarchy V.current)
    (h : u.runNodes ids V = (run, none)) {W : NodeValues} {revisit : List BlockId}
    (hown : ∀ id ∈ ids, W.getD id none = run.values.getD id none)
    (hread : ∀ id ∈ ids, ∀ node, u.graph.node? id = some node → ∀ o ∈ node.kind.operands,
      ∀ q, run.values.getD o none = some q → W.getD o none = some q) :
    u.runNodes ids ⟨W, V.current, revisit⟩ = (⟨W, run.current, revisit⟩, none) := by
  induction ids generalizing V with
  | nil =>
      cases h
      rfl
  | cons id rest ih =>
      obtain ⟨hfirst, hrest⟩ := List.pairwise_cons.mp hids
      have hown' : ∀ id ∈ rest, W.getD id none = run.values.getD id none :=
        fun id hid => hown id (List.mem_cons_of_mem _ hid)
      have hread' : ∀ id ∈ rest, ∀ node, u.graph.node? id = some node →
          ∀ o ∈ node.kind.operands, ∀ q, run.values.getD o none = some q →
            W.getD o none = some q :=
        fun id hid => hread id (List.mem_cons_of_mem _ hid)
      cases hnode : u.graph.node? id with
      | none =>
          rw [runNodes, hnode] at h ⊢
          exact ih hrest hV hcurrent h hown' hread'
      | some node =>
          obtain ⟨q, r, htransfer, h⟩ := (runNodes_cons_ok hnode).mp h
          obtain ⟨hq, hr⟩ := transferNode_mono hc hV.le hcurrent htransfer htransfer
          have hid : id < V.values.size := hV.left ▸ node?_lt hnode
          have hextends := runNodes_extends h
          -- The operands come before the node, so nothing recorded from it on is read.
          have hoperands : ∀ o ∈ node.kind.operands, W.getD o none = V.values.getD o none := by
            intro o ho'
            obtain ⟨v, hv⟩ := operands_of_transferNode htransfer o ho'
            have hlt := ho.operands hnode o ho'
            have hkept : run.values.getD o none = V.values.getD o none := by
              rw [hextends.frame o fun hmem => absurd (hfirst o hmem) (Nat.lt_asymm hlt),
                recordValue_values hid, if_neg (Nat.ne_of_lt hlt)]
            rw [hv]
            exact hread id List.mem_cons_self node hnode o ho' v (hkept.trans hv)
          have hrecorded : W.getD id none =
              some (u.checker.hierarchy.joinOnto (V.values.getD id none) q) := by
            rw [hown id List.mem_cons_self,
              hextends.frame id fun hmem => absurd (hfirst id hmem) (Nat.lt_irrefl _),
              recordValue_values hid, if_pos rfl]
          have hstays : u.recordValue id q ⟨W, V.current, revisit⟩ = ⟨W, V.current, revisit⟩ := by
            have habsorbs : u.checker.hierarchy.join
                (u.checker.hierarchy.joinOnto (V.values.getD id none) q) q =
                  u.checker.hierarchy.joinOnto (V.values.getD id none) q :=
              hc.lawful.joinOnto_absorbs (fun _ => hV.le.has hc.lawful) (hc.lawful.has_of_le hq).1
            rw [recordValue_eq]
            exact if_pos (by rw [hrecorded]; exact congrArg some habsorbs.symm)
          refine (runNodes_cons_ok hnode).mpr ⟨q, r, ?_, ?_⟩
          · rw [transferNode_congr hoperands]
            exact htransfer
          · rw [hstays]
            exact ih hrest (V := ⟨_, r, _⟩) (recordValue_mono hc (node?_lt hnode) hV hq) hr h hown'
              hread'

end UnitAnalysis

end FlowTyping
