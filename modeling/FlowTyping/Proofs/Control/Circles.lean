import FlowTyping.Proofs.Control.Compaction
import Mathlib.Logic.Relation

/-!
Circles of empty blocks that only forward. Which of these blocks are kept depends on the order
in which they are scanned: a circle keeps its blocks, and those on the way to it from the first
block that leads to it.
-/

namespace FlowTyping

open Relation Layout

namespace Compaction

variable {drafts : Array Draft} {flags : Array Bool} {a b c k s : Nat} {n : Nat} {path : List Nat}

/-- An empty block that only forwards to a block. -/
def Forwards (drafts : Array Draft) (a b : BlockId) : Prop :=
  drafts[a]? = some ⟨[], .goto b⟩

/-- A block that forwarding leads back to. -/
def Circles (drafts : Array Draft) (c : BlockId) : Prop :=
  TransGen (Forwards drafts) c c

/-- The first block from which forwarding leads to a block of a circle. -/
structure FirstTo (drafts : Array Draft) (s c : BlockId) : Prop where
  circles : Circles drafts c
  leads : ReflTransGen (Forwards drafts) s c
  first : ∀ s' < s, ¬ ReflTransGen (Forwards drafts) s' c

theorem forwards_iff : Forwards drafts a b ↔ forwardOf drafts a = some b := by
  refine ⟨fun h => ?_, goto_of_forwardOf⟩
  have hd : drafts[a]? = some ⟨[], .goto b⟩ := h
  simp [forwardOf, hd, Draft.forward?]

theorem Forwards.lt_size (h : Forwards drafts a b) : a < drafts.size :=
  (Array.getElem?_eq_some_iff.mp h).1

theorem forwards_rightUnique : Relator.RightUnique (Forwards drafts) := by
  intro a b c hb hc
  cases (Eq.trans (Eq.symm hb) hc : some _ = some _)
  rfl

namespace Circles

theorem forwards (h : Circles drafts c) : ∃ b, Forwards drafts c b := by
  obtain ⟨b, hb, -⟩ := TransGen.head'_iff.mp h
  exact ⟨b, hb⟩

/-- Wherever a circle leads, it goes on round. -/
theorem back (h : Circles drafts c) (hb : ReflTransGen (Forwards drafts) c b) :
    TransGen (Forwards drafts) b c := by
  induction hb with
  | refl => exact h
  | tail _ hnext ih =>
      obtain ⟨b', hb', hrest⟩ := TransGen.head'_iff.mp ih
      cases forwards_rightUnique hnext hb'
      exact TransGen.trans_right hrest h

/-- A block on the way to a circle, or on it, leads to it. -/
theorem leads_of_leads (h : Circles drafts c) (hc : ReflTransGen (Forwards drafts) a c)
    (hb : ReflTransGen (Forwards drafts) a b) : ReflTransGen (Forwards drafts) b c := by
  rcases ReflTransGen.total_of_right_unique forwards_rightUnique hb hc with hbc | hcb
  · exact hbc
  · exact (h.back hcb).to_reflTransGen

/-- What leads to a circle forwards. -/
theorem forwards_of_leads (h : Circles drafts c) (ha : ReflTransGen (Forwards drafts) a c) :
    ∃ b, Forwards drafts a b := by
  rcases ha.cases_head with rfl | ⟨b, hb, -⟩
  · exact h.forwards
  · exact ⟨b, hb⟩

/-- If a block leads to a circle, there is a first one that does. -/
theorem exists_firstTo (h : Circles drafts c) (ha : ReflTransGen (Forwards drafts) a c) :
    ∃ s ≤ a, FirstTo drafts s c := by
  induction a using Nat.strongRecOn with
  | ind a ih =>
      by_cases hearlier : ∃ s < a, ReflTransGen (Forwards drafts) s c
      · obtain ⟨s, hlt, hs⟩ := hearlier
        obtain ⟨s', hle, hfirst⟩ := ih s hlt hs
        exact ⟨s', Nat.le_trans hle (Nat.le_of_lt hlt), hfirst⟩
      · exact ⟨a, Nat.le_refl a, h, ha, fun s hlt hs => hearlier ⟨s, hlt, hs⟩⟩

end Circles

/-!
A walk along the blocks that are still removable ends at a block that is kept, or comes round
to a block that it has passed. Then it has passed exactly what its start leads to.
-/

/-- A walk has passed some blocks, last one first, and stands at a block. -/
structure Trail (drafts : Array Draft) (flags : Array Bool) (start : BlockId)
    (path : List BlockId) (at_ : BlockId) : Prop where
  reaches : ReflTransGen (Forwards drafts) start at_
  passed : ∀ a ∈ path, ReflTransGen (Forwards drafts) start a
  removable : ∀ a ∈ path, flags.getD a false = true
  onward : ∀ a ∈ path, TransGen (Forwards drafts) a at_
  next : ∀ a ∈ path, ∃ b ∈ at_ :: path, Forwards drafts a b

namespace Trail

theorem start (drafts : Array Draft) (flags : Array Bool) (a : BlockId) :
    Trail drafts flags a [] a where
  reaches := .refl
  passed := by simp
  removable := by simp
  onward := by simp
  next := by simp

theorem step (h : Trail drafts flags s path a) (ha : flags.getD a false = true)
    (hb : Forwards drafts a b) : Trail drafts flags s (a :: path) b where
  reaches := h.reaches.tail hb
  passed := List.forall_mem_cons.mpr ⟨h.reaches, h.passed⟩
  removable := List.forall_mem_cons.mpr ⟨ha, h.removable⟩
  onward := List.forall_mem_cons.mpr ⟨.single hb, fun c hc => (h.onward c hc).tail hb⟩
  next := by
    refine List.forall_mem_cons.mpr ⟨⟨b, List.mem_cons_self, hb⟩, fun c hc => ?_⟩
    obtain ⟨d, hd, hforwards⟩ := h.next c hc
    exact ⟨d, List.mem_cons_of_mem b hd, hforwards⟩

/-- A walk that comes round has passed all that its start leads to. -/
theorem mem_iff (h : Trail drafts flags s path c) (hc : c ∈ path) (hs : s ∈ path) :
    a ∈ path ↔ ReflTransGen (Forwards drafts) s a := by
  refine ⟨h.passed a, fun ha => ?_⟩
  induction ha with
  | refl => exact hs
  | tail _ hnext ih =>
      obtain ⟨b, hb, hforwards⟩ := h.next _ ih
      cases forwards_rightUnique hnext hforwards
      rcases List.mem_cons.mp hb with rfl | hb
      · exact hc
      · exact hb

end Trail

/-- The blocks of a walk that runs into itself. -/
theorem trail_of_cycleFrom {fuel : Nat} {path' : List Nat} (h : Trail drafts flags s path a)
    (hfound : cycleFrom drafts flags fuel path a = some path') :
    ∃ c ∈ path', Trail drafts flags s path' c := by
  induction fuel generalizing path a with
  | zero => cases hfound
  | succ fuel ih =>
      rw [cycleFrom] at hfound
      split at hfound
      · cases hfound
      rename_i ha
      split at hfound
      · rename_i hmem
        cases hfound
        exact ⟨a, hmem, h⟩
      split at hfound
      · rename_i b hb
        exact ih (h.step (by simpa using ha) (forwards_iff.mpr hb)) hfound
      · cases hfound

theorem Chain.leads (h : Chain drafts flags a n c) :
    ReflTransGen (fun a b => flags.getD a false = true ∧ Forwards drafts a b) a c := by
  induction h with
  | stop => exact .refl
  | skip ha hnext _ ih => exact .head ⟨ha, forwards_iff.mpr hnext⟩ ih

/-!
The scan. Before a start is scanned, what is no longer removable among the empty blocks that
only forward is what the earlier starts lead to that come first to a circle.
-/

/-- A block that some start before a number leads to that comes first to a circle. -/
def KeptBefore (drafts : Array Draft) (k : Nat) (a : BlockId) : Prop :=
  ∃ s < k, ∃ c, FirstTo drafts s c ∧ ReflTransGen (Forwards drafts) s a

theorem keptBefore_succ :
    KeptBefore drafts (k + 1) a ↔ KeptBefore drafts k a ∨
      ∃ c, FirstTo drafts k c ∧ ReflTransGen (Forwards drafts) k a := by
  constructor
  · rintro ⟨s, hlt, hkept⟩
    rcases Nat.lt_succ_iff_lt_or_eq.mp hlt with hlt | rfl
    · exact .inl ⟨s, hlt, hkept⟩
    · exact .inr hkept
  · rintro (⟨s, hlt, hkept⟩ | hkept)
    · exact ⟨s, Nat.lt_succ_of_lt hlt, hkept⟩
    · exact ⟨k, Nat.lt_succ_self k, hkept⟩

/-- The starts before a number have been scanned. -/
def Scanned (drafts : Array Draft) (k : Nat) (flags : Array Bool) : Prop :=
  ∀ a : Nat, flags.getD a false = true ↔
    (∃ b, Forwards drafts a b) ∧ ¬ KeptBefore drafts k a

theorem scanned_initial (drafts : Array Draft) :
    Scanned drafts 0 (drafts.map fun d => d.forward?.isSome) := by
  intro a
  have hnone : ¬ KeptBefore drafts 0 a := fun ⟨s, hs, _⟩ => absurd hs (Nat.not_lt_zero s)
  simp only [hnone, not_false_eq_true, and_true, forwards_iff, ← Option.isSome_iff_exists]
  rw [Array.getD_eq_getD_getElem?, Array.getElem?_map]
  cases hd : drafts[a]? <;> simp [forwardOf, hd]

namespace Scanned

theorem forwarding (h : Scanned drafts k flags) : Forwarding drafts flags := by
  intro a ha
  obtain ⟨⟨b, hb⟩, -⟩ := (h a).mp ha
  exact ⟨hb.lt_size, by rw [forwards_iff.mp hb]; rfl⟩

theorem keptBefore (h : Scanned drafts k flags) (ha : flags.getD a false = false)
    (hb : Forwards drafts a b) : KeptBefore drafts k a := by
  by_contra hkept
  exact absurd ((h a).mpr ⟨⟨b, hb⟩, hkept⟩) (by simp [ha])

/-- Where a walk ends at a block that is kept, its start is not the first to a circle. -/
theorem not_firstTo (h : Scanned drafts k flags) (ha : ReflTransGen (Forwards drafts) k a)
    (hkept : flags.getD a false = false) : ¬ FirstTo drafts k c := by
  intro hfirst
  have hac := hfirst.circles.leads_of_leads hfirst.leads ha
  obtain ⟨b, hb⟩ := hfirst.circles.forwards_of_leads hac
  obtain ⟨s, hlt, -, -, hsa⟩ := h.keptBefore hkept hb
  exact hfirst.first s hlt (hsa.trans hac)

/-- Where a walk comes round, its start is the first to the circle. -/
theorem firstTo (h : Scanned drafts k flags) (htrail : Trail drafts flags k path c)
    (hc : c ∈ path) : FirstTo drafts k c where
  circles := htrail.onward c hc
  leads := htrail.reaches
  first s hlt hs := by
    obtain ⟨s', hle, hfirst⟩ := Circles.exists_firstTo (htrail.onward c hc) hs
    obtain ⟨-, hnot⟩ := (h c).mp (htrail.removable c hc)
    exact hnot ⟨s', Nat.lt_of_le_of_lt hle hlt, c, hfirst, hfirst.leads⟩

/-- One start after the other. -/
theorem step (h : Scanned drafts k flags) : Scanned drafts (k + 1) (keepCycle drafts flags k) := by
  intro a
  rw [keptBefore_succ, keepCycle]
  split
  -- The walk comes round: what it has passed is all that the start leads to, and all of it is new.
  · rename_i path hpath
    obtain ⟨c, hc, htrail⟩ := trail_of_cycleFrom (Trail.start drafts flags k) hpath
    have hmem : a ∈ path ↔ ∃ c, FirstTo drafts k c ∧ ReflTransGen (Forwards drafts) k a := by
      rw [htrail.mem_iff hc (start_mem_of_cycleFrom hpath)]
      exact ⟨fun ha => ⟨c, h.firstTo htrail hc, ha⟩, fun ⟨_, _, ha⟩ => ha⟩
    rw [getD_foldl_clear, Bool.and_eq_true, decide_eq_true_iff, h a, hmem, not_or, and_assoc]
  -- The walk ends at a block that is kept: no circle is new.
  · rename_i hnone
    obtain ⟨n, -, b, hchain⟩ :=
      chain_of_cycleFrom h.forwarding hnone List.nodup_nil (by simp) (by simp)
    have hb : ReflTransGen (Forwards drafts) k b :=
      ReflTransGen.mono (fun _ _ => And.right) _ _ hchain.leads
    have hnot : ¬ ∃ c, FirstTo drafts k c ∧ ReflTransGen (Forwards drafts) k a :=
      fun ⟨c, hfirst, _⟩ => h.not_firstTo hb hchain.kept hfirst
    rw [h a, or_iff_left hnot]

end Scanned

theorem removableBlocks_scanned (drafts : Array Draft) :
    Scanned drafts drafts.size (removableBlocks drafts) := by
  have hscan (k : Nat) : Scanned drafts k
      ((List.range k).foldl (keepCycle drafts) (drafts.map fun d => d.forward?.isSome)) := by
    induction k with
    | zero => exact scanned_initial drafts
    | succ k ih =>
        rw [List.range_succ, List.foldl_append]
        exact ih.step
  exact hscan drafts.size

/-- An empty block that only forwards is kept just if the first block that leads to some circle
leads to it. -/
theorem keeps_iff_firstTo (hb : Forwards drafts a b) : Keeps drafts a ↔
    ∃ s c, FirstTo drafts s c ∧ ReflTransGen (Forwards drafts) s a := by
  rw [Keeps, Bool.eq_false_iff, ne_eq, removableBlocks_scanned drafts a, not_and_not_right]
  constructor
  · intro h
    obtain ⟨s, -, c, hkept⟩ := h ⟨b, hb⟩
    exact ⟨s, c, hkept⟩
  · rintro ⟨s, c, hfirst, hs⟩ -
    obtain ⟨_, hforwards⟩ := hfirst.circles.forwards_of_leads hfirst.leads
    exact ⟨s, hforwards.lt_size, c, hfirst, hs⟩

end Compaction

end FlowTyping
