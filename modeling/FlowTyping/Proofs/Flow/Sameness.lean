import FlowTyping.Proofs.Checker.Height
import FlowTyping.Proofs.Flow.Parallel

/-!
Stores that say the same are told apart by no operation and by no node. An entry at the top in one
of them, where the other has none, is not seen.
-/

namespace FlowTyping

variable {h : Hierarchy}

/-- Meets are qualifiers of the hierarchy, whatever they are taken of. -/
def Hierarchy.MeetsWithin (h : Hierarchy) : Prop := ∀ a b, h.Has (h.meet a b)

theorem Hierarchy.build_meetsWithin {names : List String} {subtypes : List (String × String)}
    (hok : Hierarchy.build names subtypes = .ok h) : h.MeetsWithin := by
  intro a b
  have hh := build_lawful hok
  by_cases hab : h.Has a ∧ h.Has b
  · exact (hh.has_of_le (hh.meet_le_left hab.1 hab.2)).1
  · rw [(build_tabled hok).meet_outside hab]
    exact (hh.has_of_le (bottom_le hok hh.has_top)).1

/-- Two stores over a hierarchy that say the same. -/
structure Store.Matches (h : Hierarchy) (s s' : Store) : Prop where
  left : s.Wf h
  right : s'.Wf h
  same : s.same s' = true

namespace Store.Matches

variable {a a' b b' s s' : Store} {q : Qualifier}

theorem reachable (hs : s.Matches h s') : s.reachable = s'.reachable :=
  ((same_iff hs.left hs.right).mp hs.same).1

theorem valueOrTop (hs : s.Matches h s') (k : FlowKey) : s.valueOrTop k = s'.valueOrTop k :=
  ((same_iff hs.left hs.right).mp hs.same).2 k

theorem refl (hs : s.Wf h) : s.Matches h s := ⟨hs, hs, (same_iff hs hs).mpr ⟨rfl, fun _ => rfl⟩⟩

theorem insert (hs : s.Matches h s') (key : FlowKey) (hq : h.Has q) :
    (s.insert key q).Matches h (s'.insert key q) := by
  have hleft : (s.insert key q).Wf h := hs.left.insert hq
  have hright : (s'.insert key q).Wf h := hs.right.insert hq
  refine ⟨hleft, hright, (same_iff hleft hright).mpr ⟨?_, fun k => ?_⟩⟩
  · rw [reachable_insert, reachable_insert, hs.reachable]
  · rw [valueOrTop_insert, valueOrTop_insert, hs.valueOrTop k]

theorem retain (hs : s.Matches h s') (keep : FlowKey → Bool) :
    (s.retain keep).Matches h (s'.retain keep) := by
  have hleft := hs.left.retain keep
  have hright := hs.right.retain keep
  refine ⟨hleft, hright, (same_iff hleft hright).mpr ⟨hs.reachable, fun k => ?_⟩⟩
  rw [valueOrTop_retain, valueOrTop_retain, hs.valueOrTop k, hs.left.top, hs.right.top]

theorem invalidateLocal (hs : s.Matches h s') (name : String) :
    (s.invalidateLocal name).Matches h (s'.invalidateLocal name) :=
  hs.retain _

theorem invalidateField (hs : s.Matches h s') (name : String) :
    (s.invalidateField name).Matches h (s'.invalidateField name) :=
  hs.retain _

theorem invalidateHeap (hs : s.Matches h s') : s.invalidateHeap.Matches h s'.invalidateHeap :=
  hs.retain _

theorem refine (hm : h.MeetsWithin) (hs : s.Matches h s') (key : FlowKey) (q : Qualifier) :
    (s.refine h key q).Matches h (s'.refine h key q) := by
  unfold Store.refine
  rw [hs.valueOrTop key]
  exact hs.insert key (hm _ q)

theorem join (hh : h.Lawful) (ha : a.Matches h a') (hb : b.Matches h b') :
    (a.join h b).Matches h (a'.join h b') := by
  have hleft := ha.left.join hh hb.left
  have hright := ha.right.join hh hb.right
  refine ⟨hleft, hright, ?_⟩
  cases hra : a.reachable with
  | false =>
      have hra' := ha.reachable.symm.trans hra
      simpa [Store.join, hra, hra'] using hb.same
  | true =>
      have hra' := ha.reachable.symm.trans hra
      cases hrb : b.reachable with
      | false =>
          have hrb' := hb.reachable.symm.trans hrb
          simpa [Store.join, hra, hra', hrb, hrb'] using ha.same
      | true =>
          have hrb' := hb.reachable.symm.trans hrb
          refine (same_iff hleft hright).mpr ⟨?_, fun k => ?_⟩
          · rw [reachable_join, reachable_join, ha.reachable, hb.reachable]
          · rw [valueOrTop_join hh ha.left hb.left hra hrb,
              valueOrTop_join hh ha.right hb.right hra' hrb', ha.valueOrTop k, hb.valueOrTop k]

theorem isSubsumedBy (hh : h.Lawful) (ha : a.Matches h a') (hb : b.Matches h b') :
    a.isSubsumedBy h b = a'.isSubsumedBy h b' := by
  rw [Bool.eq_iff_iff, isSubsumedBy_iff hh ha.left hb.left, isSubsumedBy_iff hh ha.right hb.right]
  unfold Store.Le
  rw [ha.reachable, hb.reachable]
  simp only [ha.valueOrTop, hb.valueOrTop]

theorem same_congr (ha : a.Matches h a') (hb : b.Matches h b') : a.same b = a'.same b' := by
  rw [Bool.eq_iff_iff, same_iff ha.left hb.left, same_iff ha.right hb.right, ha.reachable,
    hb.reachable]
  simp only [ha.valueOrTop, hb.valueOrTop]

end Store.Matches

/-- Two results of the same shape whose stores say the same. -/
inductive TransferResult.Matches (h : Hierarchy) : TransferResult → TransferResult → Prop
  | regular {s s' : Store} : s.Matches h s' → Matches h (.regular s) (.regular s')
  | split {t e t' e' : Store} : t.Matches h t' → e.Matches h e' →
      Matches h (.split t e) (.split t' e')

namespace TransferResult

variable {a a' b b' r r' : TransferResult}

theorem matches_iff : r.Matches h r' ↔ r.Wf h ∧ r'.Wf h ∧ r.same r' = true := by
  constructor
  · rintro (hs | ⟨ht, he⟩)
    · exact ⟨wf_regular hs.left, wf_regular hs.right, hs.same⟩
    · exact ⟨⟨ht.left, he.left⟩, ⟨ht.right, he.right⟩, Bool.and_eq_true_iff.mpr ⟨ht.same, he.same⟩⟩
  · rintro ⟨hr, hr', hsame⟩
    cases r with
    | regular s =>
        cases r' with
        | regular s' => exact .regular ⟨hr.thenStore, hr'.thenStore, hsame⟩
        | split t' e' => cases hsame
    | split t e =>
        cases r' with
        | regular s' => cases hsame
        | split t' e' =>
            obtain ⟨ht, he⟩ := Bool.and_eq_true_iff.mp hsame
            exact .split ⟨hr.thenStore, hr'.thenStore, ht⟩ ⟨hr.elseStore, hr'.elseStore, he⟩

namespace Matches

theorem thenStore (hr : r.Matches h r') : r.thenStore.Matches h r'.thenStore := by
  cases hr with
  | regular hs => exact hs
  | split ht he => exact ht

theorem elseStore (hr : r.Matches h r') : r.elseStore.Matches h r'.elseStore := by
  cases hr with
  | regular hs => exact hs
  | split ht he => exact he

theorem collapse (hh : h.Lawful) (hr : r.Matches h r') :
    (r.collapse h).Matches h (r'.collapse h) := by
  cases hr with
  | regular hs => exact hs
  | split ht he => exact ht.join hh he

theorem swap (hr : r.Matches h r') : r.swap.Matches h r'.swap := by
  cases hr with
  | regular hs => exact .regular hs
  | split ht he => exact .split he ht

theorem join (hh : h.Lawful) (ha : a.Matches h a') (hb : b.Matches h b') :
    (a.join h b).Matches h (a'.join h b') := by
  have hcollapsed := (ha.collapse hh).join hh (hb.collapse hh)
  cases ha with
  | regular hs => exact .regular hcollapsed
  | split ht he =>
      cases hb with
      | regular hs => exact .regular hcollapsed
      | split ht' he' => exact .split (ht.join hh ht') (he.join hh he')

theorem isSubsumedBy (hh : h.Lawful) (ha : a.Matches h a') (hb : b.Matches h b') :
    a.isSubsumedBy h b = a'.isSubsumedBy h b' := by
  unfold TransferResult.isSubsumedBy
  rw [ha.thenStore.isSubsumedBy hh hb.thenStore, ha.elseStore.isSubsumedBy hh hb.elseStore]

theorem same_congr (ha : a.Matches h a') (hb : b.Matches h b') : a.same b = a'.same b' := by
  cases ha with
  | regular hs =>
      cases hb with
      | regular hs' => exact hs.same_congr hs'
      | split ht' he' => rfl
  | split ht he =>
      cases hb with
      | regular hs' => rfl
      | split ht' he' =>
          exact congrArg₂ (· && ·) (ht.same_congr ht') (he.same_congr he')

end Matches

end TransferResult

/-- A computation is like itself when its result is related to itself. -/
theorem Alike.refl_of {ε α : Type} {R : α → α → Prop} {m : Except ε α}
    (hm : ∀ a, m = .ok a → R a a) : Alike R m m := by
  cases m with
  | error e => exact .error e
  | ok a => exact .ok (hm a rfl)

namespace UnitAnalysis

variable {u : UnitAnalysis} {s s' : Store} {r r' : TransferResult}

theorem flowValue_matches (hc : u.checker.Sound) (hs : s.Matches u.checker.hierarchy s')
    (key : Option FlowKey) {declared : Qualifier} (hd : u.checker.hierarchy.Has declared) :
    u.flowValue s key declared = u.flowValue s' key declared := by
  rw [flowValue_eq hc hs.left hd, flowValue_eq hc hs.right hd]
  cases key with
  | none => rfl
  | some k => exact congrArg (u.checker.hierarchy.meet · declared) (hs.valueOrTop k)

theorem has_clamp (hc : u.checker.Sound) (source : Qualifier) {bound : Qualifier}
    (hb : u.checker.hierarchy.Has bound) : u.checker.hierarchy.Has (u.clamp source bound) := by
  unfold clamp
  split
  · exact (hc.lawful.has_of_le ‹_›).1
  · exact hb

theorem ensures_matches (hm : u.checker.hierarchy.MeetsWithin) (receiver : Option NodeId)
    (args : List NodeId) (posts : List (Postcondition Qualifier))
    (hs : s.Matches u.checker.hierarchy s') :
    (posts.foldl (u.ensure receiver args) s).Matches u.checker.hierarchy
      (posts.foldl (u.ensure receiver args) s') := by
  induction posts generalizing s s' with
  | nil => exact hs
  | cons p rest ih =>
      apply ih
      unfold ensure
      split
      · exact hs.refine hm _ _
      · exact hs

/-- A node evaluates alike in stores that say the same. -/
theorem evaluate_matches (hc : u.checker.Sound) (hm : u.checker.hierarchy.MeetsWithin)
    (values : NodeValues) (node : Node) (hs : s.Matches u.checker.hierarchy s') :
    Alike (fun x y => x.1 = y.1 ∧ x.2.Matches u.checker.hierarchy y.2)
      (u.evaluate values node s) (u.evaluate values node s') := by
  have hkeep (m : Except AnalysisError Qualifier) :
      Alike (fun x y => x.1 = y.1 ∧ x.2.Matches u.checker.hierarchy y.2) (m.map (·, s))
        (m.map (·, s')) :=
    (Alike.same m).map fun _ _ hq => ⟨hq, hs⟩
  have hbound (var : LocalVar) :
      Alike (fun q q' => q = q' ∧ u.checker.hierarchy.Has q) (u.checker.localBound node var)
        (u.checker.localBound node var) :=
    Alike.refl_of fun _ hq => ⟨rfl, hc.has_localBound hq⟩
  unfold evaluate
  cases node.kind with
  | literal value => exact .ok ⟨rfl, hs⟩
  | localRead var =>
      apply (hbound var).bind
      rintro bound _ ⟨rfl, hb⟩
      exact .ok ⟨flowValue_matches hc hs _ hb, hs⟩
  | this => exact .ok ⟨hs.valueOrTop .this, hs⟩
  | fieldRead receiver field =>
      exact .ok ⟨flowValue_matches hc hs _ (hc.has_fieldBound field), hs⟩
  | call receiver method args =>
      have hheap : (if u.checker.signatures.isPure method then s else s.invalidateHeap).Matches
          u.checker.hierarchy
          (if u.checker.signatures.isPure method then s' else s'.invalidateHeap) := by
        split
        · exact hs
        · exact hs.invalidateHeap
      exact .ok ⟨flowValue_matches hc hheap _ (hc.has_callResult method),
        ensures_matches hm receiver args _ hheap⟩
  | new className args => exact .ok ⟨rfl, hs.invalidateHeap⟩
  | binary op lhs rhs =>
      dsimp only
      split
      · exact .ok ⟨rfl, hs⟩
      · split
        · exact .ok ⟨rfl, hs⟩
        · exact hkeep _
  | unary op operand => exact hkeep _
  | shortCircuit op lhs rhs => exact hkeep _
  | ternaryMerge thenValue elseValue => exact hkeep _
  | cast qualifier operand => exact hkeep _
  | localDecl var =>
      apply (hbound var).map
      rintro bound _ ⟨rfl, -⟩
      exact ⟨rfl, hs.invalidateLocal var.name⟩
  | assign target value =>
      cases target with
      | «local» var =>
          apply (Alike.same (operand values node value)).bind
          rintro source _ rfl
          apply (hbound var).bind
          rintro bound _ ⟨rfl, hb⟩
          have hassigned := has_clamp hc source hb
          exact .ok ⟨rfl, (hs.invalidateLocal var.name).insert (.local var.name) hassigned⟩
      | field receiver field =>
          apply (Alike.same (operand values node value)).bind
          rintro source _ rfl
          have hassigned := has_clamp hc source (hc.has_fieldBound field)
          refine .ok ⟨rfl, ?_⟩
          dsimp only
          split
          · exact (hs.invalidateField field).insert _ hassigned
          · exact hs.invalidateField field
  | returnValue value =>
      cases value with
      | none => exact .ok ⟨rfl, hs⟩
      | some operand => exact hkeep _
  | throw exception value =>
      cases value with
      | none => exact .ok ⟨rfl, hs⟩
      | some operand => exact hkeep _
  | assertFailure => exact .ok ⟨rfl, hs⟩

end UnitAnalysis

namespace Refinement

variable {c : TestContext} {s s' : Store}

theorem parallel_matches (hm : c.hierarchy.MeetsWithin) :
    c.Parallel (Store.Matches c.hierarchy) id c where
  hierarchy := rfl
  values := rfl
  key? _ := Option.map_id'.symm
  refine key q hs := hs.refine hm key q

theorem split_matches (hm : c.hierarchy.MeetsWithin) (hs : s.Matches c.hierarchy s')
    (r : Refinement) : Splits (Store.Matches c.hierarchy) (r.split c s) (r.split c s') := by
  have hc := parallel_matches hm
  unfold split
  cases r with
  | equality =>
      dsimp only
      split
      · exact splitEquality_parallel hc hs _ _ _
      · exact .none
  | postcondition =>
      dsimp only
      split
      · rename_i receiver method args _
        cases c.signatures.method? method with
        | none => exact .none
        | some signature => exact splitCall_parallel hc hs receiver args signature.ensuresIf
      · exact .none

/-- A test splits stores that say the same alike. -/
theorem refine?_matches (hm : c.hierarchy.MeetsWithin) (hs : s.Matches c.hierarchy s')
    (refinements : List Refinement) :
    Option.Rel (TransferResult.Matches c.hierarchy) (refine? refinements c s)
      (refine? refinements c s') :=
  refine?_parallel refinements .split (fun _ => rfl) (split_matches hm hs)

end Refinement

namespace UnitAnalysis

variable {u : UnitAnalysis} {r r' : TransferResult}

/-- A node is transferred alike from results that say the same. -/
theorem transferNode_matches (hc : u.checker.Sound) (hm : u.checker.hierarchy.MeetsWithin)
    (values : NodeValues) (node : Node) (hr : r.Matches u.checker.hierarchy r') :
    Alike (fun x y => x.1 = y.1 ∧ x.2.Matches u.checker.hierarchy y.2)
      (u.transferNode values node r) (u.transferNode values node r') :=
  transferNode_parallel rfl rfl rfl (fun _ => .rfl) hr.swap .regular
    (evaluate_matches hc hm values node (hr.collapse hc.lawful))
    fun hs => Refinement.refine?_matches
      (c := ⟨node, u.checker.hierarchy, u.checker.signatures, values, u.keys⟩) hm hs _

end UnitAnalysis

end FlowTyping

/-!
Entries at the top are not observed. No operation, node, block or whole analysis depends on them, so
a fact that says nothing new of its edge may be dropped.
-/

namespace FlowTyping

open Relation

/-- The operations on stores and results over a hierarchy give the same, or what says the same, from
arguments that say the same. -/
structure Hierarchy.RespectsSameness (h : Hierarchy) : Prop where
  join : ∀ {a a' b b' : Store}, a.Matches h a' → b.Matches h b' →
    (a.join h b).Matches h (a'.join h b')
  refine : ∀ {s s' : Store} (key : FlowKey) (q : Qualifier), s.Matches h s' →
    (s.refine h key q).Matches h (s'.refine h key q)
  isSubsumedBy : ∀ {a a' b b' : Store}, a.Matches h a' → b.Matches h b' →
    a.isSubsumedBy h b = a'.isSubsumedBy h b'
  invalidateLocal : ∀ {s s' : Store} (name : String), s.Matches h s' →
    (s.invalidateLocal name).Matches h (s'.invalidateLocal name)
  invalidateField : ∀ {s s' : Store} (name : String), s.Matches h s' →
    (s.invalidateField name).Matches h (s'.invalidateField name)
  invalidateHeap : ∀ {s s' : Store}, s.Matches h s' →
    s.invalidateHeap.Matches h s'.invalidateHeap
  joinResults : ∀ {a a' b b' : TransferResult}, a.Matches h a' → b.Matches h b' →
    (a.join h b).Matches h (a'.join h b')
  isSubsumedByResults : ∀ {a a' b b' : TransferResult}, a.Matches h a' → b.Matches h b' →
    a.isSubsumedBy h b = a'.isSubsumedBy h b'

theorem Hierarchy.respectsSameness {h : Hierarchy} (hh : h.Lawful) (hm : h.MeetsWithin) :
    h.RespectsSameness where
  join ha hb := ha.join hh hb
  refine key q hs := hs.refine hm key q
  isSubsumedBy ha hb := ha.isSubsumedBy hh hb
  invalidateLocal name hs := hs.invalidateLocal name
  invalidateField name hs := hs.invalidateField name
  invalidateHeap hs := hs.invalidateHeap
  joinResults ha hb := ha.join hh hb
  isSubsumedByResults ha hb := ha.isSubsumedBy hh hb

namespace UnitAnalysis

variable {u : UnitAnalysis} {s : Solving TransferResult NodeValues} {source target : BlockId}
  {old fact : TransferResult} {ranks : Array Nat}

/-- The facts of a solver are results over the hierarchy. -/
abbrev Holds (u : UnitAnalysis) (s : Solving TransferResult NodeValues) : Prop :=
  s.Related (.byEdge (TransferResult.Matches u.checker.hierarchy)) Eq s

/-- Transfers of a block fail alike, or they send on what says the same, with the same blocks to
revisit and the same qualifiers of nodes. -/
abbrev TransfersMatch (u : UnitAnalysis) :
    Except AnalysisError (BlockTransfer TransferResult × NodeValues) →
    Except AnalysisError (BlockTransfer TransferResult × NodeValues) → Prop :=
  Alike fun x y => x.1.Related (TransferResult.Matches u.checker.hierarchy) y.1 ∧ x.2 = y.2

/-- It makes no difference that a fact is dropped which, joined into that of its edge, says the
same: what arrives at a block says the same as if the join were stored, blocks are transferred
alike, and so is the rest of a run. -/
structure DropsFreely (u : UnitAnalysis) (s : Solving TransferResult NodeValues)
    (source target : BlockId) (old fact : TransferResult) : Prop where
  dropped : ∀ ranks : Array Nat, s.propagate u.dataflow ranks source (target, fact) = s
  input : ∀ block : BlockId, TransferResult.Matches u.checker.hierarchy
    ((s.setEdgeFact source target (old.join u.checker.hierarchy fact)).input u.dataflow u.graph
      block) (s.input u.dataflow u.graph block)
  transfer : ∀ (values : NodeValues) (block : BlockId), u.TransfersMatch
    (u.transferBlock values block ((s.setEdgeFact source target
      (old.join u.checker.hierarchy fact)).input u.dataflow u.graph block))
    (u.transferBlock values block (s.input u.dataflow u.graph block))
  onward : ∀ (ranks : Array Nat) (limit remaining : Nat),
    Alike (Solving.Related (.byEdge (TransferResult.Matches u.checker.hierarchy)) Eq)
      (Solving.run u.dataflow u.graph ranks limit remaining
        (s.setEdgeFact source target (old.join u.checker.hierarchy fact)))
      (Solving.run u.dataflow u.graph ranks limit remaining s)

/-- An analysis does not observe entries at the top: from results that say the same a node gets the
same qualifier or error and a block sends on what says the same, facts that say nothing new are
dropped freely, and from initial stores that say the same the analysis finds the same. -/
structure Indifferent (u : UnitAnalysis) : Prop where
  operations : u.checker.hierarchy.RespectsSameness
  node : ∀ (values : NodeValues) (node : Node) {r r' : TransferResult},
    r.Matches u.checker.hierarchy r' →
    Alike (fun x y => x.1 = y.1 ∧ x.2.Matches u.checker.hierarchy y.2)
      (u.transferNode values node r) (u.transferNode values node r')
  block : ∀ (values : NodeValues) (id : BlockId) {r r' : TransferResult},
    r.Matches u.checker.hierarchy r' →
    u.TransfersMatch (u.transferBlock values id r) (u.transferBlock values id r')
  drops : ∀ (s : Solving TransferResult NodeValues) (source target : BlockId)
    (old fact : TransferResult), u.initial.Wf u.checker.hierarchy → u.Holds s →
    fact.Wf u.checker.hierarchy → s.edgeFact? source target = some old →
    (old.join u.checker.hierarchy fact).same old = true → u.DropsFreely s source target old fact
  holds : ∀ (values : NodeValues) (ranks : Array Nat) (s : Solving TransferResult NodeValues),
    u.initial.Wf u.checker.hierarchy →
    ReflTransGen (Solving.Step u.dataflow u.graph ranks) (.start u.graph values) s → u.Holds s
  solved : ∀ (initial : Store) (maxVisits : Nat) (record : Bool) (values : NodeValues),
    u.initial.Matches u.checker.hierarchy initial →
    Alike (fun x y => x.1.Related (TransferResult.Matches u.checker.hierarchy) y.1 ∧ x.2 = y.2)
      (solve u.dataflow u.graph maxVisits record values)
      (solve { u with initial }.dataflow u.graph maxVisits record values)

/-- Analyses that differ in their initial stores only run in parallel. -/
theorem parallel_matches (hc : u.checker.Sound) (hm : u.checker.hierarchy.MeetsWithin)
    (initial : Store) :
    u.Parallel (TransferResult.Matches u.checker.hierarchy) { u with initial } where
  checker := rfl
  consumers := rfl
  block? _ := rfl
  node id := by
    change Option.Rel _ (u.graph.node? id) (u.graph.node? id)
    cases u.graph.node? id with
    | none => exact .none
    | some node => exact .some fun values _ _ hr => transferNode_matches hc hm values node hr
  thenStore hr := .regular hr.thenStore
  elseStore hr := .regular hr.elseStore
  collapse hr := .regular (hr.collapse hc.lawful)

theorem dataflow_matches (hc : u.checker.Sound) (hm : u.checker.hierarchy.MeetsWithin)
    {initial : Store} (hs : u.initial.Matches u.checker.hierarchy initial) :
    u.dataflow.Related (TransferResult.Matches u.checker.hierarchy) Eq
      { u with initial }.dataflow where
  initial := .regular hs
  bottom := .regular (.refl ⟨rfl, nofun⟩)
  join hx hy := hx.join hc.lawful hy
  same hx hy := hx.same_congr hy
  transfer {values _} id _ _ hvalues hr :=
    hvalues ▸ (parallel_matches hc hm initial).transferBlock values id hr

/-- The facts of a solver stay within the hierarchy from visit to visit. -/
theorem Holds.step {a : DataflowAnalysis TransferResult NodeValues}
    {s s' : Solving TransferResult NodeValues}
    (ha : a.Related (TransferResult.Matches u.checker.hierarchy) Eq a)
    (hs : u.Holds s) (hstep : Solving.Step a u.graph ranks s s') : u.Holds s' := by
  obtain ⟨block, -, hvisit⟩ := hstep
  have hrest : u.Holds { s with worklist := s.worklist.erase block } := { hs with worklist := rfl }
  have hnext := Solving.visit_related ranks ha (.refl u.graph) hrest block
  rw [hvisit] at hnext
  cases hnext with
  | ok h => exact h

/-- A fact that says nothing new of its edge is dropped freely. -/
theorem dropsFreely (hc : u.checker.Sound) (hm : u.checker.hierarchy.MeetsWithin)
    (hinitial : u.initial.Wf u.checker.hierarchy) (hs : u.Holds s)
    (hfact : fact.Wf u.checker.hierarchy) (hold : s.edgeFact? source target = some old)
    (hsame : (old.join u.checker.hierarchy fact).same old = true) :
    u.DropsFreely s source target old fact := by
  have ha := dataflow_matches hc hm (.refl hinitial)
  have hmerged : TransferResult.Matches u.checker.hierarchy (old.join u.checker.hierarchy fact)
      old := by
    have hedge := hs.edge source target
    rw [hold] at hedge
    cases hedge with
    | some hmatch =>
        have hwf := (TransferResult.matches_iff.mp hmatch).1
        exact TransferResult.matches_iff.mpr ⟨hwf.join hc.lawful hfact, hwf, hsame⟩
  -- The stored state differs from the other one in the fact of one edge, which says the same.
  have hstored : Solving.Related (.byEdge (TransferResult.Matches u.checker.hierarchy)) Eq
      (s.setEdgeFact source target (old.join u.checker.hierarchy fact)) s := by
    refine { hs with edges := fun edge => ?_ }
    change Option.Rel _ ((s.setEdgeFact source target _).edgeFact? edge.1 edge.2)
      (s.edgeFact? edge.1 edge.2)
    rw [Solving.edgeFact?_setEdgeFact]
    split
    · rename_i heq
      rw [heq.1, heq.2, hold]
      exact .some hmerged
    · exact hs.edge edge.1 edge.2
  have hinput (block : BlockId) := hstored.input ha (.refl u.graph) block
  refine {
    dropped := fun ranks => ?_
    input := hinput
    transfer := fun values block =>
      (parallel_matches hc hm u.initial).transferBlock values block (hinput block)
    onward := fun ranks limit remaining =>
      Solving.run_related ranks ha (.refl u.graph) hstored limit remaining }
  unfold Solving.propagate
  rw [hold]
  exact if_pos hsame

/-- An analysis with a declared checker is indifferent to entries at the top. -/
theorem indifferent {d : CheckerDeclaration} (hc : Checker.ofDeclaration d = .ok u.checker) :
    u.Indifferent := by
  have hsound := Checker.ofDeclaration_sound hc
  obtain ⟨names, subtypes, hbuilt⟩ := Checker.ofDeclaration_hierarchy hc
  have hm := Hierarchy.build_meetsWithin hbuilt
  exact {
    operations := Hierarchy.respectsSameness hsound.lawful hm
    node := fun values node _ _ hr => transferNode_matches hsound hm values node hr
    block := fun values id _ _ hr =>
      (parallel_matches hsound hm u.initial).transferBlock values id hr
    drops := fun _ _ _ _ _ hinitial hs hfact hold hsame =>
      dropsFreely hsound hm hinitial hs hfact hold hsame
    holds := fun values ranks s hinitial hsteps => by
      have ha := dataflow_matches hsound hm (.refl hinitial)
      induction hsteps with
      | refl => exact .start _ (.refl u.graph) rfl
      | tail _ hstep ih => exact Holds.step ha ih hstep
    solved := fun initial maxVisits record values hs =>
      solve_related (dataflow_matches hsound hm hs) (.refl u.graph) rfl maxVisits record rfl }

end UnitAnalysis

/-- The analysis of a unit before which a variable is told to be anything, in vain. -/
theorem followingUnit_indifferent : ∃ c g, Checker.ofDeclaration presence = .ok c ∧
    followingUnit.lower = .ok g ∧
    let u := UnitAnalysis.new c g (.new c.hierarchy)
    let told := u.initial.insert (.local "node") c.hierarchy.top
    u.Indifferent ∧ u.initial.keys ≠ told.keys ∧ u.initial.same told = true := by
  have hok : ((Checker.ofDeclaration presence).toOption.bind fun c =>
      followingUnit.lower.toOption.bind fun g =>
        let u := UnitAnalysis.new c g (.new c.hierarchy)
        let told := u.initial.insert (.local "node") c.hierarchy.top
        if u.initial.keys ≠ told.keys ∧ u.initial.same told = true then some (c, g) else none
      ).isSome = true := by decide +kernel
  obtain ⟨_, h⟩ := Option.isSome_iff_exists.mp hok
  obtain ⟨c, hc, h⟩ := Option.bind_eq_some_iff.mp h
  obtain ⟨g, hg, h⟩ := Option.bind_eq_some_iff.mp h
  have hc := ok_of_toOption hc
  refine ⟨c, g, hc, ok_of_toOption hg, ?_⟩
  exact ⟨UnitAnalysis.indifferent hc, (Option.ite_none_right_eq_some.mp h).1⟩

end FlowTyping
