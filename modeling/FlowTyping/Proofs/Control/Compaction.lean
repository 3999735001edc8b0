import FlowTyping.Lowering.Draft
import Mathlib.Data.List.Nodup
import Mathlib.Data.List.Perm.Subperm

/-!
Compaction: chains of removed blocks end, and kept blocks are numbered in order.
-/

namespace FlowTyping

namespace Compaction

variable {drafts : Array Draft} {flags flags' : Array Bool} {a b c : Nat} {n : Nat}

/-- The blocks that some flags remove only forward. -/
def Forwarding (drafts : Array Draft) (flags : Array Bool) : Prop :=
  ∀ a : Nat, flags.getD a false = true → a < drafts.size ∧ (forwardOf drafts a).isSome

/-- A chain of removed blocks of some length leads from one block to one that is kept. -/
inductive Chain (drafts : Array Draft) (flags : Array Bool) : Nat → Nat → Nat → Prop
  | stop {a : Nat} (h : flags.getD a false = false) : Chain drafts flags a 0 a
  | skip {a b c n : Nat} (h : flags.getD a false = true) (hnext : forwardOf drafts a = some b)
      (rest : Chain drafts flags b n c) : Chain drafts flags a (n + 1) c

theorem Chain.kept (h : Chain drafts flags a n c) : flags.getD c false = false := by
  induction h with
  | stop h => exact h
  | skip _ _ _ ih => exact ih

/-- When more blocks are kept, chains end sooner. -/
theorem Chain.mono (h : Chain drafts flags a n c)
    (hflags : ∀ a : Nat, flags'.getD a false = true → flags.getD a false = true) :
    ∃ n' ≤ n, ∃ c', Chain drafts flags' a n' c' := by
  induction h with
  | stop h =>
      refine ⟨0, Nat.le_refl 0, _, .stop ?_⟩
      exact Bool.eq_false_iff.mpr fun ht => by simp [hflags _ ht] at h
  | @skip a b c n _ hnext _ ih =>
      cases ha : flags'.getD a false with
      | false => exact ⟨0, Nat.zero_le _, a, .stop ha⟩
      | true =>
          obtain ⟨n', hn', c', hchain⟩ := ih
          exact ⟨n' + 1, Nat.succ_le_succ hn', c', .skip ha hnext hchain⟩

theorem length_le_of_nodup {l : List Nat} {n : Nat} (hnodup : l.Nodup) (h : ∀ a ∈ l, a < n) :
    l.length ≤ n := by
  have hsub : l ⊆ List.range n := fun a ha => List.mem_range.mpr (h a ha)
  simpa using (hnodup.subperm hsub).length_le

/-- A chain that does not run into itself ends before the fuel does. -/
theorem chain_of_cycleFrom (hforward : Forwarding drafts flags) {fuel : Nat} {path : List Nat}
    (h : cycleFrom drafts flags fuel path a = none) (hnodup : path.Nodup)
    (hpath : ∀ b ∈ path, b < drafts.size) (hfuel : drafts.size < path.length + fuel) :
    ∃ n < fuel, ∃ c, Chain drafts flags a n c := by
  induction fuel generalizing path a with
  | zero =>
      have := length_le_of_nodup hnodup hpath
      omega
  | succ fuel ih =>
      cases ha : flags.getD a false with
      | false => exact ⟨0, Nat.succ_pos fuel, a, .stop ha⟩
      | true =>
          obtain ⟨hsize, hnext⟩ := hforward a ha
          obtain ⟨b, hb⟩ := Option.isSome_iff_exists.mp hnext
          rw [cycleFrom, if_neg (by simp [ha])] at h
          split at h
          · cases h
          · rw [hb] at h
            obtain ⟨n, hn, c, hchain⟩ := ih h (List.nodup_cons.mpr ⟨‹_›, hnodup⟩)
              (List.forall_mem_cons.mpr ⟨hsize, hpath⟩) (by rw [List.length_cons]; omega)
            exact ⟨n + 1, Nat.succ_lt_succ hn, c, .skip ha hb hchain⟩

theorem subset_of_cycleFrom {fuel : Nat} {path path' : List Nat}
    (h : cycleFrom drafts flags fuel path a = some path') : path ⊆ path' := by
  induction fuel generalizing path a with
  | zero => cases h
  | succ fuel ih =>
      rw [cycleFrom] at h
      split at h
      · cases h
      split at h
      · cases h
        exact List.Subset.refl _
      split at h
      · exact List.Subset.trans (List.subset_cons_self _ _) (ih h)
      · cases h

theorem start_mem_of_cycleFrom {fuel : Nat} {path : List Nat}
    (h : cycleFrom drafts flags fuel [] a = some path) : a ∈ path := by
  cases fuel with
  | zero => cases h
  | succ fuel =>
      rw [cycleFrom] at h
      split at h
      · cases h
      split at h
      · exact absurd ‹_› List.not_mem_nil
      split at h
      · exact subset_of_cycleFrom h (List.mem_cons_self ..)
      · cases h

theorem getD_foldl_clear (path : List Nat) (flags : Array Bool) (a : Nat) :
    (path.foldl (fun flags block => flags.setIfInBounds block false) flags).getD a false =
      (flags.getD a false && decide (a ∉ path)) := by
  induction path generalizing flags with
  | nil => simp
  | cons b rest ih =>
      rw [List.foldl_cons, ih]
      by_cases hab : a = b
      · subst hab
        by_cases ha : a < flags.size <;>
          simp [Array.getD_eq_getD_getElem?, ha]
      · simp [Array.getD_eq_getD_getElem?, hab, Ne.symm hab]

theorem keepCycle_mono (start : Nat)
    (h : (keepCycle drafts flags start).getD a false = true) : flags.getD a false = true := by
  unfold keepCycle at h
  split at h
  · rw [getD_foldl_clear, Bool.and_eq_true] at h
    exact h.1
  · exact h

theorem keepCycle_chain (hforward : Forwarding drafts flags) (start : Nat) :
    ∃ n ≤ drafts.size, ∃ c, Chain drafts (keepCycle drafts flags start) start n c := by
  unfold keepCycle
  split
  · rename_i path hpath
    refine ⟨0, Nat.zero_le _, start, .stop ?_⟩
    rw [getD_foldl_clear]
    simp [start_mem_of_cycleFrom hpath]
  · rename_i hnone
    obtain ⟨n, hn, c, hchain⟩ := chain_of_cycleFrom hforward hnone List.nodup_nil (by simp)
      (by simp)
    exact ⟨n, Nat.le_of_lt_succ hn, c, hchain⟩

/-- Once a block has been dealt with, its chain ends whatever else is kept. -/
theorem foldl_keepCycle_chain (starts : List Nat) (hforward : Forwarding drafts flags) :
    (∀ a : Nat, (starts.foldl (keepCycle drafts) flags).getD a false = true →
      flags.getD a false = true) ∧
    ∀ a ∈ starts, ∃ n ≤ drafts.size, ∃ c,
      Chain drafts (starts.foldl (keepCycle drafts) flags) a n c := by
  induction starts generalizing flags with
  | nil => exact ⟨fun _ h => h, by simp⟩
  | cons start rest ih =>
      have hforward' : Forwarding drafts (keepCycle drafts flags start) :=
        fun a ha => hforward a (keepCycle_mono start ha)
      obtain ⟨hmono, hchains⟩ := ih hforward'
      refine ⟨fun a ha => keepCycle_mono start (hmono a ha), ?_⟩
      rintro a (_ | ⟨_, ha⟩)
      · obtain ⟨n, hn, c, hchain⟩ := keepCycle_chain hforward start
        obtain ⟨n', hn', c', hchain'⟩ := hchain.mono hmono
        exact ⟨n', Nat.le_trans hn' hn, c', hchain'⟩
      · exact hchains a ha

theorem forwarding_initial (drafts : Array Draft) :
    Forwarding drafts (drafts.map fun d => d.forward?.isSome) := by
  intro a ha
  rw [Array.getD_eq_getD_getElem?, Array.getElem?_map] at ha
  cases hd : drafts[a]? with
  | none => simp [hd] at ha
  | some d =>
      refine ⟨(Array.getElem?_eq_some_iff.mp hd).1, ?_⟩
      simpa [forwardOf, hd] using ha

theorem removableBlocks_forwarding (drafts : Array Draft) :
    Forwarding drafts (removableBlocks drafts) := fun a ha =>
  forwarding_initial drafts a
    ((foldl_keepCycle_chain _ (forwarding_initial drafts)).1 a ha)

/-- Every chain of removed blocks ends at a block that is kept. -/
theorem removableBlocks_chain (drafts : Array Draft) (a : Nat) :
    ∃ n ≤ drafts.size, ∃ c, Chain drafts (removableBlocks drafts) a n c := by
  by_cases ha : a < drafts.size
  · exact (foldl_keepCycle_chain _ (forwarding_initial drafts)).2 a (List.mem_range.mpr ha)
  · refine ⟨0, Nat.zero_le _, a, .stop (Bool.eq_false_iff.mpr fun h => ha ?_)⟩
    exact (removableBlocks_forwarding drafts a h).1

theorem destination_eq {fuel : Nat} (h : Chain drafts flags a n c) (hfuel : n < fuel) :
    destination drafts flags fuel a = c := by
  induction h generalizing fuel with
  | stop h =>
      cases fuel with
      | zero => rfl
      | succ fuel => rw [destination, h, if_neg (by simp)]
  | skip h hnext _ ih =>
      cases fuel with
      | zero => omega
      | succ fuel =>
          rw [destination, h, if_pos rfl, hnext]
          exact ih (Nat.lt_of_succ_lt_succ hfuel)

/-- The number of kept blocks before one. -/
def rank (flags : Array Bool) (a : Nat) : Nat :=
  ((List.range a).filter fun b => !flags.getD b false).length

theorem rank_succ (flags : Array Bool) (a : Nat) :
    rank flags (a + 1) = if flags.getD a false then rank flags a else rank flags a + 1 := by
  unfold rank
  rw [List.range_succ, List.filter_append, List.length_append]
  cases h : flags.getD a false with
  | true => simp only [List.filter_cons, List.filter_nil, h]; rfl
  | false => simp only [List.filter_cons, List.filter_nil, h]; rfl

theorem rank_mono (flags : Array Bool) (h : a ≤ b) : rank flags a ≤ rank flags b := by
  induction h with
  | refl => exact Nat.le_refl _
  | step _ ih =>
      refine Nat.le_trans ih ?_
      rw [rank_succ]
      split
      · exact Nat.le_refl _
      · exact Nat.le_succ _

theorem rank_injective (ha : flags.getD a false = false) (hb : flags.getD b false = false)
    (h : rank flags a = rank flags b) : a = b := by
  have hlt {a b : Nat} (ha : flags.getD a false = false) (hab : a < b) :
      rank flags a < rank flags b := by
    have hmono := rank_mono flags (Nat.succ_le_of_lt hab)
    rw [rank_succ, ha, if_neg (by simp)] at hmono
    exact hmono
  rcases Nat.lt_trichotomy a b with hab | hab | hab
  · exact absurd h (Nat.ne_of_lt (hlt ha hab))
  · exact hab
  · exact absurd h.symm (Nat.ne_of_lt (hlt hb hab))

/-- Every number below a rank is the rank of a kept block. -/
theorem exists_rank_eq {flags : Array Bool} {n i : Nat} (h : i < rank flags n) :
    ∃ a < n, flags.getD a false = false ∧ rank flags a = i := by
  induction n with
  | zero => exact absurd h (Nat.not_lt_zero i)
  | succ n ih =>
      have hearlier (h : i < rank flags n) :
          ∃ a < n + 1, flags.getD a false = false ∧ rank flags a = i := by
        obtain ⟨a, ha, hkept⟩ := ih h
        exact ⟨a, Nat.lt_succ_of_lt ha, hkept⟩
      rw [rank_succ] at h
      split at h
      · exact hearlier h
      · rename_i hkept
        rcases Nat.lt_succ_iff_lt_or_eq.mp h with hlt | heq
        · exact hearlier hlt
        · exact ⟨n, Nat.lt_succ_self n, by simpa using hkept, heq.symm⟩

theorem numbers_eq (flags : Array Bool) (size : Nat) :
    (List.range size).foldl
      (fun (acc : Array BlockId × BlockId) i =>
        (acc.1.push acc.2, if flags.getD i false then acc.2 else acc.2 + 1)) (#[], 0) =
      (((List.range size).map (rank flags)).toArray, rank flags size) := by
  induction size with
  | zero => rfl
  | succ size ih =>
      rw [List.range_succ, List.foldl_append, ih]
      simp [rank_succ]

end Compaction

open Compaction

namespace Layout

variable {drafts : Array Draft} {a : Nat}

/-- Whether compaction keeps a block. -/
def Keeps (drafts : Array Draft) (a : Nat) : Prop :=
  (removableBlocks drafts).getD a false = false

/-- The final id of the block that a block is or leads to. -/
def rename (drafts : Array Draft) (a : BlockId) : BlockId :=
  ((compactIds drafts).getD a (false, 0)).2

theorem compactIds_getD (ha : a < drafts.size) :
    (compactIds drafts).getD a (false, 0) =
      (!(removableBlocks drafts).getD a false,
        ((List.range drafts.size).map (rank (removableBlocks drafts))).toArray.getD
          (destination drafts (removableBlocks drafts) (drafts.size + 1) a) 0) := by
  simp only [compactIds, numbers_eq]
  rw [Array.getD_eq_getD_getElem?, Array.getElem?_map, Array.getElem?_range, if_pos ha]
  rfl

theorem keeps_iff (ha : a < drafts.size) :
    ((compactIds drafts).getD a (false, 0)).1 = true ↔ Keeps drafts a := by
  rw [compactIds_getD ha]
  simp [Keeps]

theorem keeps_of_forward?_none {d : Draft} (hd : drafts[a]? = some d)
    (h : d.forward? = none) : Keeps drafts a := by
  refine Bool.eq_false_iff.mpr fun hremoved => ?_
  have hnext := (removableBlocks_forwarding drafts a hremoved).2
  simp [forwardOf, hd, h] at hnext

theorem goto_of_forwardOf {t : Nat} (h : forwardOf drafts a = some t) :
    drafts[a]? = some ⟨[], .goto t⟩ := by
  obtain ⟨d, hd, hforward⟩ := Option.bind_eq_some_iff.mp h
  refine hd.trans (congrArg some ?_)
  obtain ⟨nodes, exits⟩ := d
  simp only [Draft.forward?] at hforward
  split at hforward
  · split at hforward
    · simp_all
    · cases hforward
  · cases hforward

/-- Only empty blocks that forward are removed. -/
theorem goto_of_not_keeps (h : ¬ Keeps drafts a) : ∃ t : Nat, drafts[a]? = some ⟨[], .goto t⟩ := by
  have hremoved : (removableBlocks drafts).getD a false = true := by simpa [Keeps] using h
  obtain ⟨t, ht⟩ := Option.isSome_iff_exists.mp (removableBlocks_forwarding drafts a hremoved).2
  exact ⟨t, goto_of_forwardOf ht⟩

theorem rename_of_keeps (ha : a < drafts.size) (h : Keeps drafts a) :
    rename drafts a = rank (removableBlocks drafts) a := by
  rw [rename, compactIds_getD ha, destination_eq (.stop h) (Nat.succ_pos _)]
  simp [ha]

theorem rename_of_chain {n c : Nat} (ha : a < drafts.size) (hc : c < drafts.size)
    (hn : n ≤ drafts.size) (h : Chain drafts (removableBlocks drafts) a n c) :
    rename drafts a = rename drafts c := by
  rw [rename_of_keeps hc h.kept, rename, compactIds_getD ha,
    destination_eq h (Nat.lt_succ_of_le hn)]
  simp [hc]

theorem rename_injective {b : Nat} (ha : a < drafts.size) (hb : b < drafts.size)
    (hka : Keeps drafts a) (hkb : Keeps drafts b) (h : rename drafts a = rename drafts b) :
    a = b := by
  rw [rename_of_keeps ha hka, rename_of_keeps hb hkb] at h
  exact rank_injective hka hkb h

end Layout

end FlowTyping
