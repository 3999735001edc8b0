import FlowTyping.Proofs.Checker.Height
import FlowTyping.Proofs.Flow.Climbing
import FlowTyping.Proofs.Flow.PathRuns
import FlowTyping.Proofs.Flow.Touched
import Mathlib.Algebra.BigOperators.Group.Finset.Piecewise
import Mathlib.Algebra.BigOperators.Ring.Finset
import Mathlib.Algebra.Order.BigOperators.Group.Finset

/-!
Levels of the facts of the qualifier analysis: the depths of the qualifiers that the touched
keys have in both outcomes. An analysis climbs over them, and so do the qualifiers of nodes.
-/

namespace FlowTyping

namespace Hierarchy.Graded

variable {h : Hierarchy} {depth : Qualifier → Nat}

theorem mono (hd : h.Graded depth) {a b : Qualifier} (hle : h.isSubtype a b = true) :
    depth a ≤ depth b := by
  by_cases hab : a = b
  · rw [hab]
  · exact Nat.le_of_lt (hd.lt hle hab)

end Hierarchy.Graded

namespace Store

variable {h : Hierarchy} {depth : Qualifier → Nat} {R : List FlowKey} {base s s' : Store}

/-- The depths of the qualifiers that a store has for some keys. -/
def level (depth : Qualifier → Nat) (R : List FlowKey) (s : Store) : Nat :=
  (R.map fun k => depth (s.valueOrTop k)).sum

theorem level_le_height (hd : h.Graded depth) (s : Store) :
    s.level depth R ≤ R.length * h.height := by
  refine (List.sum_le_card_nsmul _ h.height fun n hn => ?_).trans (by simp)
  obtain ⟨k, -, rfl⟩ := List.mem_map.mp hn
  exact hd.le_height _

theorem level_mono (hd : h.Graded depth) (hle : s.Le h s') (hreached : s.reachable = true) :
    s.level depth R ≤ s'.level depth R :=
  List.sum_le_sum fun k _ => hd.mono ((hle hreached).2 k)

/-- A store below another one that agrees with it off some keys, and is not above it, is at a
lower level. -/
theorem level_lt (hh : h.Lawful) (hd : h.Graded depth) (hs : base.Keeps R s)
    (hs' : base.Keeps R s') (hunder : s.Under h s') (hnot : ¬ s'.Le h s) :
    s.level depth R < s'.level depth R := by
  obtain ⟨-, hall⟩ := hunder.le hunder.reached
  obtain ⟨k, hk⟩ : ∃ k, ¬ h.isSubtype (s'.valueOrTop k) (s.valueOrTop k) = true := by
    by_contra hnone
    exact hnot fun _ => ⟨hunder.reached, fun k => not_not.mp fun hk => hnone ⟨k, hk⟩⟩
  have hne : s.valueOrTop k ≠ s'.valueOrTop k := by
    intro heq
    exact hk (heq ▸ hh.le_refl (hunder.left.has_valueOrTop hh k))
  have hmem : k ∈ R := by
    by_contra hout
    exact hne ((hs k hout).trans (hs' k hout).symm)
  exact List.sum_lt_sum _ _ (fun k _ => hd.mono (hall k)) ⟨k, hmem, hd.lt (hall k) hne⟩

end Store

namespace TransferResult

variable {h : Hierarchy} {depth : Qualifier → Nat} {R : List FlowKey} {base : Store}
  {r r' : TransferResult}

/-- The levels of both outcomes. A collapsed result is above the split ones. -/
def level (depth : Qualifier → Nat) (R : List FlowKey) (r : TransferResult) : Nat :=
  r.thenStore.level depth R + r.elseStore.level depth R + if r.isSplit then 0 else 1

theorem level_le_height (hd : h.Graded depth) (r : TransferResult) :
    r.level depth R ≤ 2 * R.length * h.height + 1 := by
  have hthen := Store.level_le_height (R := R) hd r.thenStore
  have helse := Store.level_le_height (R := R) hd r.elseStore
  have hsplit : (if r.isSplit then 0 else 1) ≤ 1 := by split <;> omega
  rw [Nat.mul_assoc]
  unfold level
  omega

theorem level_mono (hd : h.Graded depth) (hle : r.Le h r') (hlive : r.Live) :
    r.level depth R ≤ r'.level depth R := by
  have hthen := Store.level_mono (R := R) hd hle.thenStore hlive.thenStore
  have helse := Store.level_mono (R := R) hd hle.elseStore hlive.elseStore
  have hsplit : (if r.isSplit then 0 else 1) ≤ if r'.isSplit then 0 else 1 := by
    cases hb : r'.isSplit with
    | true => simp [hle.split hb]
    | false => split <;> simp
  unfold level
  omega

theorem level_lt (hh : h.Lawful) (hd : h.Graded depth) (hr : r.Keeps base R)
    (hr' : r'.Keeps base R) (hunder : r.Under h r') (hnot : ¬ r'.Le h r) :
    r.level depth R < r'.level depth R := by
  have hthen := Store.level_mono (R := R) hd hunder.le.thenStore hunder.live.thenStore
  have helse := Store.level_mono (R := R) hd hunder.le.elseStore hunder.live.elseStore
  have hsplit : (if r.isSplit then 0 else 1) ≤ if r'.isSplit then 0 else 1 := by
    cases hb : r'.isSplit with
    | true => simp [hunder.le.split hb]
    | false => split <;> simp
  unfold level
  by_cases ht : r'.thenStore.Le h r.thenStore
  · by_cases he : r'.elseStore.Le h r.elseStore
    · have hstrict : (if r.isSplit then 0 else 1) < if r'.isSplit then 0 else 1 := by
        by_contra hge
        refine hnot ⟨ht, he, fun hs => ?_⟩
        by_contra hs'
        simp_all
      omega
    · have hlt := Store.level_lt hh hd hr.elseStore hr'.elseStore hunder.elseStore he
      omega
  · have hlt := Store.level_lt hh hd hr.thenStore hr'.thenStore hunder.thenStore ht
    omega

end TransferResult

namespace UnitAnalysis

variable {u : UnitAnalysis} {depth : Qualifier → Nat} {V V' : NodeValues} {id : NodeId}
  {ids : List NodeId} {q : Qualifier} {run run' : BlockRun} {b : BlockId}
  {f x y : TransferResult} {r : BlockTransfer TransferResult}

/-- A fact as an analysis has it: reached, over its hierarchy, and with what the initial store
says of the keys that no node touches. -/
structure Admits (u : UnitAnalysis) (f : TransferResult) : Prop where
  under : f.Under u.checker.hierarchy f
  keeps : f.Keeps u.initial u.touched

/-- The qualifiers of nodes as an analysis has them. -/
def AdmitsValues (u : UnitAnalysis) (V : NodeValues) : Prop :=
  V.Under u.checker.hierarchy u.graph.nodeCount V

namespace Admits

theorem regular {s : Store} (hs : s.Under u.checker.hierarchy s)
    (hkeeps : u.initial.Keeps u.touched s) : u.Admits (.regular s) :=
  ⟨hs.regular, .regular hkeeps⟩

theorem join (hh : u.checker.hierarchy.Lawful) (hx : u.Admits x) (hy : u.Admits y) :
    u.Admits (x.join u.checker.hierarchy y) where
  under :=
    have hwf := hx.under.left.join hh hy.under.left
    ⟨hwf, hwf, hx.under.live.join hy.under.live, TransferResult.le_refl hh hwf⟩
  keeps := hx.keeps.join hh hy.keeps hx.under.left hy.under.left hx.under.live hy.under.live

/-- A join that changes a fact raises its level. -/
theorem level_lt_join (hh : u.checker.hierarchy.Lawful) (hd : u.checker.hierarchy.Graded depth)
    (hx : u.Admits x) (hy : u.Admits y)
    (hchanged : (x.join u.checker.hierarchy y).same x = false) :
    x.level depth u.touched < (x.join u.checker.hierarchy y).level depth u.touched := by
  have hjoin := hx.join hh hy
  have hle := TransferResult.le_join_left hh hx.under.left hy.under.left
  refine TransferResult.level_lt hh hd hx.keeps hjoin.keeps
    ⟨hx.under.left, hjoin.under.left, hx.under.live, hle⟩ fun hge => ?_
  have hsame := TransferResult.same_of_le hh hjoin.under.left hx.under.left hjoin.under.live hge hle
  rw [hsame] at hchanged
  cases hchanged

/-- What goes along the edges of a block is admitted with what is before and after it. -/
theorem edgesOf (hh : u.checker.hierarchy.Lawful) {kind : BlockKind} {t : BlockId}
    {along : TransferResult} (hx : u.Admits x) (hy : u.Admits y)
    (h : (t, along) ∈ u.edgesOf kind x y) : u.Admits along := by
  rcases edgesOf_cases h with rfl | ⟨s, hs, rfl⟩
  · exact hy
  · simp only [List.mem_cons, List.not_mem_nil, or_false] at hs
    rcases hs with rfl | rfl | rfl
    · exact regular hx.under.thenStore hx.keeps.thenStore
    · exact regular hx.under.elseStore hx.keeps.elseStore
    · exact regular (hx.under.collapse hh) (hx.keeps.collapse hh hx.under.left hx.under.live)

end Admits

/-- How far a node has climbed. A node without a qualifier is at the ground. -/
def valueLevel (depth : Qualifier → Nat) : Option Qualifier → Nat
  | none => 0
  | some q => depth q + 1

/-- How far nodes have climbed, each counted once for every block that reads it. -/
def valuesLevel (depth : Qualifier → Nat) (u : UnitAnalysis) (V : NodeValues) : Nat :=
  ∑ id ∈ Finset.range u.graph.nodeCount,
    (u.graph.consumersOf id).length * valueLevel depth (V.getD id none)

theorem valuesLevel_le (hd : u.checker.hierarchy.Graded depth) (V : NodeValues) :
    u.valuesLevel depth V ≤ (∑ id ∈ Finset.range u.graph.nodeCount,
      (u.graph.consumersOf id).length) * (u.checker.hierarchy.height + 1) := by
  rw [Finset.sum_mul]
  refine Finset.sum_le_sum fun id _ => Nat.mul_le_mul_left _ ?_
  cases V.getD id none with
  | none => exact Nat.zero_le _
  | some q => exact Nat.succ_le_succ (hd.le_height q)

/-- A node that is recorded sends for as many blocks at most as it climbs. -/
theorem recordValue_charges (hh : u.checker.hierarchy.Lawful)
    (hd : u.checker.hierarchy.Graded depth)
    (hconsumers : u.consumers.getD id [] = u.graph.consumersOf id)
    (hid : id < u.graph.nodeCount) (hV : u.AdmitsValues run.values)
    (hq : u.checker.hierarchy.Has q) :
    (u.recordValue id q run).revisit.length + u.valuesLevel depth run.values ≤
      run.revisit.length + u.valuesLevel depth (u.recordValue id q run).values := by
  rw [recordValue_eq]
  split
  · exact Nat.le_refl _
  · rename_i hchanged
    generalize hjoined : u.checker.hierarchy.joinOnto (run.values.getD id none) q = joined
      at hchanged
    have hclimb : valueLevel depth (run.values.getD id none) + 1 ≤
        valueLevel depth (some joined) := by
      cases hold : run.values.getD id none with
      | none => exact Nat.succ_le_succ (Nat.zero_le _)
      | some o =>
          rw [hold] at hchanged hjoined
          have hle : u.checker.hierarchy.isSubtype o joined = true :=
            hjoined ▸ hh.le_join_left (hV.le.has hh hold) hq
          exact Nat.succ_le_succ (hd.lt hle fun heq => hchanged (congrArg some heq))
    have hmore : u.valuesLevel depth run.values + (u.graph.consumersOf id).length ≤
        u.valuesLevel depth (run.values.setIfInBounds id (some joined)) := by
      have hself : (u.graph.consumersOf id).length = ∑ j ∈ Finset.range u.graph.nodeCount,
          if j = id then (u.graph.consumersOf id).length else 0 := by
        rw [Finset.sum_ite_eq', if_pos (Finset.mem_range.mpr hid)]
      rw [valuesLevel, hself, ← Finset.sum_add_distrib]
      refine Finset.sum_le_sum fun j _ => ?_
      rw [getD_setIfInBounds]
      by_cases hj : j = id
      · rw [if_pos hj, if_pos ⟨hj, hV.left ▸ hid⟩, hj, ← Nat.mul_succ]
        exact Nat.mul_le_mul_left _ hclimb
      · rw [if_neg hj, if_neg fun h => hj h.1]
        exact Nat.le_refl _
    have hsent : (run.revisit ++ (u.consumers.getD id []).filter (· ∉ run.revisit)).length ≤
        run.revisit.length + (u.graph.consumersOf id).length := by
      rw [List.length_append, hconsumers]
      exact Nat.add_le_add_left (List.length_filter_le _ _) _
    dsimp only
    omega

/-- What is asked of a unit so that its analysis climbs. -/
structure Level (depth : Qualifier → Nat) (u : UnitAnalysis) : Prop extends u.Local where
  sound : u.checker.Sound
  graded : u.checker.hierarchy.Graded depth
  consumers : ∀ id < u.graph.nodeCount, u.consumers.getD id [] = u.graph.consumersOf id
  start : u.initial.Under u.checker.hierarchy u.initial

namespace Level

theorem runNodes (h : u.Level depth) (hV : u.AdmitsValues run.values) (hf : u.Admits run.current)
    (hrun : u.runNodes ids run = (run', none)) :
    u.AdmitsValues run'.values ∧ u.Admits run'.current ∧
      run'.revisit.length + u.valuesLevel depth run.values ≤
        run.revisit.length + u.valuesLevel depth run'.values := by
  induction ids generalizing run with
  | nil =>
      cases hrun
      exact ⟨hV, hf, Nat.le_refl _⟩
  | cons id rest ih =>
      cases hnode : u.graph.node? id with
      | none =>
          rw [UnitAnalysis.runNodes, hnode] at hrun
          exact ih hV hf hrun
      | some node =>
          obtain ⟨q, next, htransfer, hrest⟩ := (runNodes_cons_ok hnode).mp hrun
          obtain ⟨hq, hunder⟩ := transferNode_mono h.sound hV.le hf.under htransfer htransfer
          have hhas := (h.sound.lawful.has_of_le hq).1
          have hid := node?_lt hnode
          have hkeeps := h.toLocal.transferNode h.sound hnode hf.keeps hf.under.left hf.under.live
            htransfer
          have hcharge := recordValue_charges h.sound.lawful h.graded (h.consumers id hid) hid hV
            hhas
          have hrecorded := recordValue_mono h.sound hid hV (h.sound.lawful.le_refl hhas)
          have hnext : u.Admits next := ⟨hunder, hkeeps⟩
          obtain ⟨hvalues, hcurrent, hlater⟩ :=
            @ih { u.recordValue id q run with current := next } hrecorded hnext hrest
          refine ⟨hvalues, hcurrent, ?_⟩
          dsimp only at hlater
          omega

theorem transferBlock (h : u.Level depth) (hV : u.AdmitsValues V) (hf : u.Admits f)
    (htransfer : u.transferBlock V b f = .ok (r, V')) :
    u.AdmitsValues V' ∧ (∀ e ∈ r.edges, u.Admits e.2) ∧
      r.revisit.length + u.valuesLevel depth V ≤ u.valuesLevel depth V' := by
  cases hblock : u.graph.block? b with
  | none =>
      rw [UnitAnalysis.transferBlock, hblock] at htransfer
      cases htransfer
      exact ⟨hV, fun _ he => absurd he List.not_mem_nil, by simp⟩
  | some block =>
      obtain ⟨run, hrun, rfl, hedges, hrevisit⟩ := transferBlock_edges h.valid hblock htransfer
      obtain ⟨hvalues, hcurrent, hcharge⟩ := h.runNodes hV hf hrun
      refine ⟨hvalues, fun e he => ?_, ?_⟩
      · rw [hedges] at he
        exact hf.edgesOf h.sound.lawful hcurrent he
      · rw [hrevisit]
        simpa using hcharge

theorem climbs (h : u.Level depth) :
    u.dataflow.Climbs u.graph u.Admits u.AdmitsValues (TransferResult.level depth u.touched) where
  initial := .regular h.start fun _ _ => rfl
  join := fun hx hy => hx.join h.sound.lawful hy
  climb := fun hx hy => hx.level_lt_join h.sound.lawful h.graded hy
  transfer := fun hV hf htransfer =>
    ⟨(h.transferBlock hV hf htransfer).1, (h.transferBlock hV hf htransfer).2.1⟩
  follows := transferBlock_follows

theorem charges (h : u.Level depth) :
    Solving.Charges u.dataflow u.Admits u.AdmitsValues (u.valuesLevel depth) :=
  fun hV hf htransfer => (h.transferBlock hV hf htransfer).2.2

theorem level_le (h : u.Level depth) (f : TransferResult) :
    f.level depth u.touched ≤ 2 * u.graph.nodeCount * u.checker.hierarchy.height + 1 := by
  refine (TransferResult.level_le_height h.graded f).trans (Nat.succ_le_succ ?_)
  exact Nat.mul_le_mul_right _ (Nat.mul_le_mul_left 2 u.length_touched)

end Level

end UnitAnalysis

end FlowTyping
