import FlowTyping.Flow.Transfer
import FlowTyping.Proofs.Checker.Sound
import FlowTyping.Proofs.Flow.Stores
import FlowTyping.Proofs.Graph.Valid

/-!
The transfer of one node is monotone: from stores and operands that say less it gives a
qualifier and a store that say less. Compared with itself, it stays within its hierarchy.
-/

namespace FlowTyping

/-- Every qualifier of a table has one at or above it in another table. -/
def NodeValues.Le (h : Hierarchy) (V W : NodeValues) : Prop :=
  ∀ id q, V.getD id none = some q → ∃ q', W.getD id none = some q' ∧ h.isSubtype q q' = true

/-- A reached store over a hierarchy with a store above it. -/
structure Store.Under (h : Hierarchy) (s s' : Store) : Prop where
  left : s.Wf h
  right : s'.Wf h
  reached : s.reachable = true
  le : s.Le h s'

/-- A reached result over a hierarchy with a result above it. -/
structure TransferResult.Under (h : Hierarchy) (r r' : TransferResult) : Prop where
  left : r.Wf h
  right : r'.Wf h
  live : r.Live
  le : r.Le h r'

namespace Store.Under

variable {h : Hierarchy} {s s' : Store} {key : FlowKey} {q q' : Qualifier}

theorem valueOrTop_le (hs : s.Under h s') (k : FlowKey) :
    h.isSubtype (s.valueOrTop k) (s'.valueOrTop k) = true :=
  (hs.le hs.reached).2 k

theorem insert (hh : h.Lawful) (hs : s.Under h s') (hq : h.isSubtype q q' = true) :
    (s.insert key q).Under h (s'.insert key q') where
  left := hs.left.insert (hh.has_of_le hq).1
  right := hs.right.insert (hh.has_of_le hq).2
  reached := reachable_insert.trans hs.reached
  le := hs.le.insert hq

theorem retain (hh : h.Lawful) (hs : s.Under h s') (keep : FlowKey → Bool) :
    (s.retain keep).Under h (s'.retain keep) where
  left := hs.left.retain keep
  right := hs.right.retain keep
  reached := hs.reached
  le := hs.le.retain hh hs.left hs.right keep

theorem refine (hh : h.Lawful) (hs : s.Under h s') (hq : h.isSubtype q q' = true) :
    (s.refine h key q).Under h (s'.refine h key q') where
  left := hs.left.refine hh (hh.has_of_le hq).1
  right := hs.right.refine hh (hh.has_of_le hq).2
  reached := reachable_insert.trans hs.reached
  le := hs.le.refine hh hs.left hs.reached hq

theorem regular (hs : s.Under h s') :
    (TransferResult.regular s).Under h (.regular s') :=
  ⟨TransferResult.wf_regular hs.left, TransferResult.wf_regular hs.right,
    TransferResult.live_regular hs.reached, TransferResult.regular_le hs.le⟩

end Store.Under

namespace TransferResult.Under

variable {h : Hierarchy} {r r' : TransferResult}

theorem thenStore (hr : r.Under h r') : r.thenStore.Under h r'.thenStore :=
  ⟨hr.left.thenStore, hr.right.thenStore, hr.live.thenStore, hr.le.thenStore⟩

theorem elseStore (hr : r.Under h r') : r.elseStore.Under h r'.elseStore :=
  ⟨hr.left.elseStore, hr.right.elseStore, hr.live.elseStore, hr.le.elseStore⟩

theorem collapse (hh : h.Lawful) (hr : r.Under h r') :
    (r.collapse h).Under h (r'.collapse h) :=
  ⟨hr.left.collapse hh, hr.right.collapse hh, hr.live.collapse, hr.le.collapse hh hr.left hr.right⟩

theorem swap (hr : r.Under h r') : r.swap.Under h r'.swap :=
  ⟨hr.left.swap, hr.right.swap, hr.live.swap, hr.le.swap⟩

theorem of_split {t e t' e' : Store} (ht : t.Under h t') (he : e.Under h e') :
    (split t e).Under h (split t' e') :=
  ⟨⟨ht.left, he.left⟩, ⟨ht.right, he.right⟩, ⟨ht.reached, he.reached⟩,
    ⟨ht.le, he.le, fun _ => rfl⟩⟩

end TransferResult.Under

namespace Hierarchy.Lawful

variable {h : Hierarchy} {a a' b b' : Qualifier}

theorem meet_mono (hh : h.Lawful) (ha : h.isSubtype a a' = true) (hb : h.isSubtype b b' = true) :
    h.isSubtype (h.meet a b) (h.meet a' b') = true :=
  have hle := (hh.has_of_le ha).1
  have hle' := (hh.has_of_le hb).1
  hh.le_meet (hh.le_trans (hh.meet_le_left hle hle') ha)
    (hh.le_trans (hh.meet_le_right hle hle') hb)

theorem join_mono (hh : h.Lawful) (ha : h.isSubtype a a' = true) (hb : h.isSubtype b b' = true) :
    h.isSubtype (h.join a b) (h.join a' b') = true :=
  have hle := (hh.has_of_le ha).2
  have hle' := (hh.has_of_le hb).2
  hh.join_le (hh.le_trans ha (hh.le_join_left hle hle'))
    (hh.le_trans hb (hh.le_join_right hle hle'))

theorem top_meet (hh : h.Lawful) (ha : h.Has a) : h.meet h.top a = a :=
  hh.le_antisymm (hh.meet_le_right hh.has_top ha) (hh.le_meet (hh.le_top ha) (hh.le_refl ha))

theorem join_absorbs (hh : h.Lawful) (ha : h.Has a) (hb : h.Has b) :
    h.join (h.join a b) b = h.join a b :=
  have hle := hh.le_join_left ha hb
  have hjoin := (hh.has_of_le hle).2
  hh.le_antisymm (hh.join_le (hh.le_refl hjoin) (hh.le_join_right ha hb))
    (hh.le_join_left hjoin hb)

end Hierarchy.Lawful

namespace Checker.Sound

variable {c : Checker}

theorem has_localBound (hc : c.Sound) {node : Node} {var : LocalVar} {q : Qualifier}
    (hq : c.localBound node var = .ok q) : c.hierarchy.Has q := by
  unfold localBound at hq
  split at hq
  · unfold resolveAt at hq
    split at hq
    · cases hq
      exact Hierarchy.has_of_lookup? ‹_›
    · cases hq
  · cases hq
    exact hc.has_evaluate _
  · cases hq
    exact hc.has_evaluate _

theorem has_resolveAt {node : Node} {name : String} {q : Qualifier}
    (hq : c.resolveAt node name = .ok q) : c.hierarchy.Has q := by
  unfold resolveAt at hq
  split at hq
  · cases hq
    exact Hierarchy.has_of_lookup? ‹_›
  · cases hq

theorem has_fieldBound (hc : c.Sound) (field : String) : c.hierarchy.Has (c.fieldBound field) := by
  unfold fieldBound
  cases hq : c.signatures.field? field with
  | none => exact hc.has_evaluate _
  | some q => exact hc.has_field? hq

theorem has_callResult (hc : c.Sound) (method : String) :
    c.hierarchy.Has (c.callResult method) := by
  unfold callResult element
  cases hs : c.signatures.method? method with
  | none => exact hc.has_evaluate _
  | some s =>
      cases hq : s.returns with
      | none => simpa [hq] using hc.has_evaluate (.element .methodReturn)
      | some q => simpa [hq] using (hc.within hs).returns q hq

end Checker.Sound

namespace UnitAnalysis

variable {u : UnitAnalysis} {V W : NodeValues} {node : Node} {s s' t t' : Store}
  {q q' : Qualifier}

theorem operand_ok {id : NodeId} : operand V node id = .ok q ↔ V.getD id none = some q := by
  unfold operand
  split
  · rename_i hq
    rw [hq]
    exact ⟨fun h => by cases h; rfl, fun h => by cases h; rfl⟩
  · rename_i hq
    rw [hq]
    exact ⟨nofun, nofun⟩

theorem operand_mono {h : Hierarchy} (hV : V.Le h W) {id : NodeId}
    (hq : operand V node id = .ok q) (hq' : operand W node id = .ok q') :
    h.isSubtype q q' = true := by
  obtain ⟨q'', hq'', hle⟩ := hV id q (operand_ok.mp hq)
  rw [operand_ok.mp hq'] at hq''
  cases hq''
  exact hle

theorem joinOperands_mono (hc : u.checker.Sound) (hV : V.Le u.checker.hierarchy W) {a b : NodeId}
    (hq : u.joinOperands V node a b = .ok q) (hq' : u.joinOperands W node a b = .ok q') :
    u.checker.hierarchy.isSubtype q q' = true := by
  obtain ⟨l, hl, hq⟩ := bind_ok.mp hq
  obtain ⟨r, hr, hq⟩ := bind_ok.mp hq
  obtain ⟨l', hl', hq'⟩ := bind_ok.mp hq'
  obtain ⟨r', hr', hq'⟩ := bind_ok.mp hq'
  cases hq
  cases hq'
  exact hc.lawful.join_mono (operand_mono hV hl hl') (operand_mono hV hr hr')

/-- A key without an entry is at the top, which a meet does not see. -/
theorem flowValue_eq (hc : u.checker.Sound) (hs : s.Wf u.checker.hierarchy)
    {declared : Qualifier} (hd : u.checker.hierarchy.Has declared) (key : Option FlowKey) :
    u.flowValue s key declared =
      match key with
      | some k => u.checker.hierarchy.meet (s.valueOrTop k) declared
      | none => declared := by
  unfold flowValue Store.valueOrTop
  cases key with
  | none => rfl
  | some k =>
      cases hk : s.get? k with
      | none => simp [hk, hs.top, hc.lawful.top_meet hd]
      | some flow => simp [hk]

theorem flowValue_mono (hc : u.checker.Sound) (hs : s.Under u.checker.hierarchy s')
    {declared : Qualifier} (hd : u.checker.hierarchy.Has declared) (key : Option FlowKey) :
    u.checker.hierarchy.isSubtype (u.flowValue s key declared)
      (u.flowValue s' key declared) = true := by
  rw [flowValue_eq hc hs.left hd, flowValue_eq hc hs.right hd]
  cases key with
  | none => exact hc.lawful.le_refl hd
  | some k => exact hc.lawful.meet_mono (hs.valueOrTop_le k) (hc.lawful.le_refl hd)

theorem clamp_mono (hc : u.checker.Sound) {bound : Qualifier}
    (hb : u.checker.hierarchy.Has bound) (hq : u.checker.hierarchy.isSubtype q q' = true) :
    u.checker.hierarchy.isSubtype (u.clamp q bound) (u.clamp q' bound) = true := by
  unfold clamp
  split
  · split
    · exact hq
    · assumption
  · rename_i hbound
    split
    · exact absurd (hc.lawful.le_trans hq ‹_›) hbound
    · exact hc.lawful.le_refl hb

theorem ensures_mono (hc : u.checker.Sound) (receiver : Option NodeId) (args : List NodeId)
    {posts : List (Postcondition Qualifier)}
    (hposts : ∀ p ∈ posts, u.checker.hierarchy.Has p.qualifier)
    (hs : s.Under u.checker.hierarchy s') :
    (posts.foldl (u.ensure receiver args) s).Under u.checker.hierarchy
      (posts.foldl (u.ensure receiver args) s') := by
  induction posts generalizing s s' with
  | nil => exact hs
  | cons p rest ih =>
      obtain ⟨hp, hrest⟩ := List.forall_mem_cons.mp hposts
      refine ih hrest ?_
      unfold ensure
      split
      · exact hs.refine hc.lawful (hc.lawful.le_refl hp)
      · exact hs

theorem evaluate_mono (hc : u.checker.Sound) (hV : V.Le u.checker.hierarchy W)
    (hs : s.Under u.checker.hierarchy s') (he : u.evaluate V node s = .ok (q, t))
    (he' : u.evaluate W node s' = .ok (q', t')) :
    u.checker.hierarchy.isSubtype q q' = true ∧ t.Under u.checker.hierarchy t' := by
  have hh := hc.lawful
  have hmap {x x' : Except AnalysisError Qualifier}
      (hx : x.map (·, s) = .ok (q, t)) (hx' : x'.map (·, s') = .ok (q', t'))
      (hle : ∀ v v', x = .ok v → x' = .ok v' → u.checker.hierarchy.isSubtype v v' = true) :
      u.checker.hierarchy.isSubtype q q' = true ∧ t.Under u.checker.hierarchy t' := by
    obtain ⟨v, hv, heq⟩ := map_ok hx
    obtain ⟨v', hv', heq'⟩ := map_ok hx'
    cases heq
    cases heq'
    exact ⟨hle _ _ hv hv', hs⟩
  have hbounds {var : LocalVar} {b b' : Qualifier} (hb : u.checker.localBound node var = .ok b)
      (hb' : u.checker.localBound node var = .ok b') :
      b = b' ∧ u.checker.hierarchy.Has b := by
    rw [hb] at hb'
    cases hb'
    exact ⟨rfl, hc.has_localBound hb⟩
  cases hkind : node.kind with
  | literal value =>
      simp only [evaluate, hkind] at he he'
      cases he
      cases he'
      exact ⟨hh.le_refl (hc.has_evaluate _), hs⟩
  | localRead var =>
      simp only [evaluate, hkind] at he he'
      obtain ⟨b, hb, heq⟩ := bind_ok.mp he
      obtain ⟨b', hb', heq'⟩ := bind_ok.mp he'
      obtain ⟨rfl, hhas⟩ := hbounds hb hb'
      cases heq
      cases heq'
      exact ⟨flowValue_mono hc hs hhas _, hs⟩
  | this =>
      simp only [evaluate, hkind] at he he'
      cases he
      cases he'
      exact ⟨hs.valueOrTop_le _, hs⟩
  | fieldRead receiver field =>
      simp only [evaluate, hkind] at he he'
      cases he
      cases he'
      exact ⟨flowValue_mono hc hs (hc.has_fieldBound field) _, hs⟩
  | call receiver method args =>
      simp only [evaluate, hkind] at he he'
      cases he
      cases he'
      have hs₁ : Store.Under u.checker.hierarchy
          (if u.checker.signatures.isPure method then s else s.invalidateHeap)
          (if u.checker.signatures.isPure method then s' else s'.invalidateHeap) := by
        split
        · exact hs
        · exact hs.retain hh _
      refine ⟨flowValue_mono hc hs₁ (hc.has_callResult method) _, ensures_mono hc _ _ ?_ hs₁⟩
      intro p hp
      cases hsig : u.checker.signatures.method? method with
      | none => simp [hsig] at hp
      | some signature => exact (hc.within hsig).ensures p (by simpa [hsig] using hp)
  | new className args =>
      simp only [evaluate, hkind] at he he'
      cases he
      cases he'
      exact ⟨hh.le_refl (hc.has_evaluate _), hs.retain hh _⟩
  | binary op lhs rhs =>
      simp only [evaluate, hkind] at he he'
      cases hrule : u.checker.implicit.find? (.element (syntaxOf op)) with
      | some rule =>
          rw [hrule] at he he'
          cases he
          cases he'
          exact ⟨hh.le_refl (hc.implicit _ _ hrule), hs⟩
      | none =>
          rw [hrule] at he he'
          by_cases hcomparison : op.isComparison = true
          · simp only [if_pos hcomparison] at he he'
            cases he
            cases he'
            exact ⟨hh.le_refl hh.has_top, hs⟩
          · simp only [if_neg hcomparison] at he he'
            exact hmap he he' fun v v' => joinOperands_mono hc hV
  | unary op id =>
      simp only [evaluate, hkind] at he he'
      exact hmap he he' fun v v' => operand_mono hV
  | shortCircuit op lhs rhs =>
      simp only [evaluate, hkind] at he he'
      exact hmap he he' fun v v' => joinOperands_mono hc hV
  | ternaryMerge thenValue elseValue =>
      simp only [evaluate, hkind] at he he'
      exact hmap he he' fun v v' => joinOperands_mono hc hV
  | cast qualifier id =>
      simp only [evaluate, hkind] at he he'
      refine hmap he he' fun v v' hv hv' => ?_
      rw [hv] at hv'
      cases hv'
      exact hh.le_refl (Checker.Sound.has_resolveAt hv)
  | localDecl var =>
      simp only [evaluate, hkind] at he he'
      obtain ⟨b, hb, heq⟩ := map_ok he
      obtain ⟨b', hb', heq'⟩ := map_ok he'
      obtain ⟨rfl, hhas⟩ := hbounds hb hb'
      cases heq
      cases heq'
      exact ⟨hh.le_refl hhas, hs.retain hh _⟩
  | assign target id =>
      cases target with
      | «local» var =>
          simp only [evaluate, hkind] at he he'
          obtain ⟨v, hv, he⟩ := bind_ok.mp he
          obtain ⟨b, hb, heq⟩ := bind_ok.mp he
          obtain ⟨v', hv', he'⟩ := bind_ok.mp he'
          obtain ⟨b', hb', heq'⟩ := bind_ok.mp he'
          obtain ⟨rfl, hhas⟩ := hbounds hb hb'
          cases heq
          cases heq'
          have hle := clamp_mono hc hhas (operand_mono hV hv hv')
          exact ⟨hle, (hs.retain hh _).insert hh hle⟩
      | field receiver field =>
          simp only [evaluate, hkind] at he he'
          obtain ⟨v, hv, heq⟩ := bind_ok.mp he
          obtain ⟨v', hv', heq'⟩ := bind_ok.mp he'
          cases heq
          cases heq'
          have hle := clamp_mono hc (hc.has_fieldBound field) (operand_mono hV hv hv')
          refine ⟨hle, ?_⟩
          cases u.key? receiver with
          | none => exact hs.retain hh _
          | some key => exact (hs.retain hh _).insert hh hle
  | returnValue value =>
      cases value with
      | none =>
          simp only [evaluate, hkind] at he he'
          cases he
          cases he'
          exact ⟨hh.le_refl hh.has_top, hs⟩
      | some id =>
          simp only [evaluate, hkind] at he he'
          exact hmap he he' fun v v' => operand_mono hV
  | throw category value =>
      cases value with
      | none =>
          simp only [evaluate, hkind] at he he'
          cases he
          cases he'
          exact ⟨hh.le_refl hh.has_top, hs⟩
      | some id =>
          simp only [evaluate, hkind] at he he'
          exact hmap he he' fun v v' => operand_mono hV
  | assertFailure =>
      simp only [evaluate, hkind] at he he'
      cases he
      cases he'
      exact ⟨hh.le_refl hh.has_top, hs⟩

end UnitAnalysis

end FlowTyping
