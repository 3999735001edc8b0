import FlowTyping.Proofs.Graph.Reachable
import FlowTyping.Proofs.Graph.Valid
import FlowTyping.Flow.Solver

/-!
Reverse postorder. Every vertex is reached along vertices listed one after the other, and
an edge that leads back in the order closes a cycle of such vertices.
-/

namespace FlowTyping

namespace Digraph

open Relation

variable {next : Nat → List Nat} {size : Nat} {order order' : List Nat} {a b v : Nat}

/-- An edge between two vertices in the order in which they are listed. -/
def Descends (next : Nat → List Nat) (order : List Nat) (a b : Nat) : Prop :=
  b ∈ next a ∧ List.Sublist [a, b] order

/-- There is a path along which the vertices are listed one after the other. -/
abbrev Ascends (next : Nat → List Nat) (order : List Nat) : Nat → Nat → Prop :=
  ReflTransGen (Descends next order)

theorem Ascends.mono (h : Ascends next order a b) (hsub : List.Sublist order order') :
    Ascends next order' a b :=
  ReflTransGen.mono (fun _ _ hedge => ⟨hedge.1, hedge.2.trans hsub⟩) _ _ h

/-- What a walk from some roots has added to the finished vertices. -/
structure Grown (next : Nat → List Nat) (roots : List Nat) (w w' : Walk) (added : List Nat) :
    Prop where
  finished : w'.finished = added ++ w.finished
  seen : ∀ x, x ∈ w'.seen ↔ x ∈ added ∨ x ∈ w.seen
  fresh : ∀ x ∈ added, x ∉ w.seen
  nodup : added.Nodup
  roots : ∀ x ∈ added, ∃ r ∈ roots, r ∈ added ∧ Ascends next added r x
  leaves : ∀ x ∈ added, ∀ y ∈ next x, y ∈ w'.seen
  back : ∀ x ∈ added, ∀ y ∈ added, y ∈ next x → ¬ List.Sublist [x, y] added →
    Ascends next added y x

namespace Grown

variable {roots roots' : List Nat} {w w' w'' : Walk} {added added' : List Nat}

theorem nil (roots : List Nat) (hfinished : w'.finished = w.finished)
    (hseen : w'.seen = w.seen) : Grown next roots w w' [] where
  finished := hfinished
  seen x := by simp [hseen]
  fresh := nofun
  nodup := List.nodup_nil
  roots := nofun
  leaves := nofun
  back := nofun

theorem widen (h : Grown next roots w w' added) (hroots : roots ⊆ roots') :
    Grown next roots' w w' added :=
  { h with roots := fun x hx => (h.roots x hx).imp fun _ hr => ⟨hroots hr.1, hr.2⟩ }

theorem trans (h : Grown next roots w w' added) (h' : Grown next roots w' w'' added') :
    Grown next roots w w'' (added' ++ added) where
  finished := by rw [h'.finished, h.finished, List.append_assoc]
  seen x := by rw [h'.seen, h.seen, List.mem_append, or_assoc]
  fresh x hx := by
    rcases List.mem_append.mp hx with hx | hx
    · exact fun hseen => h'.fresh x hx ((h.seen x).mpr (.inr hseen))
    · exact h.fresh x hx
  nodup := by
    refine List.nodup_append.mpr ⟨h'.nodup, h.nodup, fun x hx y hy heq => ?_⟩
    exact h'.fresh x hx ((h.seen x).mpr (.inl (heq ▸ hy)))
  roots x hx := by
    rcases List.mem_append.mp hx with hx | hx
    · obtain ⟨r, hr, hadded, hpath⟩ := h'.roots x hx
      exact ⟨r, hr, List.mem_append_left _ hadded, hpath.mono (List.sublist_append_left _ _)⟩
    · obtain ⟨r, hr, hadded, hpath⟩ := h.roots x hx
      exact ⟨r, hr, List.mem_append_right _ hadded, hpath.mono (List.sublist_append_right _ _)⟩
  leaves x hx y hy := by
    rcases List.mem_append.mp hx with hx | hx
    · exact h'.leaves x hx y hy
    · exact (h'.seen y).mpr (.inr (h.leaves x hx y hy))
  back x hx y hy hedge hback := by
    rcases List.mem_append.mp hx with hx | hx
    · rcases List.mem_append.mp hy with hy | hy
      · refine (h'.back x hx y hy hedge fun hsub => hback ?_).mono (List.sublist_append_left _ _)
        exact hsub.trans (List.sublist_append_left _ _)
      · refine absurd ?_ hback
        exact (List.singleton_sublist.mpr hx).append (List.singleton_sublist.mpr hy)
    · rcases List.mem_append.mp hy with hy | hy
      · exact absurd (h.leaves x hx y hedge) (h'.fresh y hy)
      · refine (h.back x hx y hy hedge fun hsub => hback ?_).mono (List.sublist_append_right _ _)
        exact hsub.trans (List.sublist_append_right _ _)

theorem foldl {f : Walk → Nat → Walk} {fuel : Nat}
    (hf : ∀ w : Walk, w.Fits size → size < fuel + w.seen.length → ∀ u < size,
      Exhausts next size [u] w (f w u) ∧ ∃ added, Grown next [u] w (f w u) added)
    {roots : List Nat} {w : Walk} (hw : w.Fits size) (hfuel : size < fuel + w.seen.length)
    (hroots : ∀ u ∈ roots, u < size) : ∃ added, Grown next roots w (roots.foldl f w) added := by
  induction roots generalizing w with
  | nil => exact ⟨[], .nil [] rfl rfl⟩
  | cons u rest ih =>
      obtain ⟨hexhausts, added, hfirst⟩ := hf w hw hfuel u (hroots u (by simp))
      have hlength := hexhausts.length
      obtain ⟨added', hrest⟩ := ih hexhausts.fits (by omega) fun x hx => hroots x (by simp [hx])
      exact ⟨added' ++ added, (hfirst.widen (by simp)).trans
        (hrest.widen (List.subset_cons_self u rest))⟩

end Grown

/-- A visit lists its vertex before all that it finishes. -/
theorem visit_grown (hnext : ∀ v < size, ∀ u ∈ next v, u < size) {fuel : Nat} {w : Walk}
    (hw : w.Fits size) (hfuel : size < fuel + w.seen.length) (hv : v < size) :
    ∃ added, Grown next [v] w (visit next fuel w v) added := by
  induction fuel generalizing w v with
  | zero =>
      have := hw.length_le
      omega
  | succ fuel ih =>
      by_cases hseen : v ∈ w.seen
      · rw [visit_of_mem hseen]
        exact ⟨[], .nil _ rfl rfl⟩
      have hopenFuel : size < fuel + (v :: w.seen).length := by
        simp only [List.length_cons]
        omega
      have hdescend (w : Walk) (hw : w.Fits size) (hfuel : size < fuel + w.seen.length)
          (u : Nat) (hu : u < size) : Exhausts next size [u] w (descend next fuel v w u) ∧
            ∃ added, Grown next [u] w (descend next fuel v w u) added := by
        refine ⟨descend_exhausts hw (visit_exhausts hnext hw hfuel hu), ?_⟩
        unfold descend
        split
        · exact ⟨[], .nil _ rfl rfl⟩
        split
        · exact ⟨[], .nil _ rfl rfl⟩
        · exact ih hw hfuel hu
      have hexhausts := visit_exhausts hnext hw hfuel hv
      obtain ⟨added, hadded⟩ := Grown.foldl hdescend (hw.push hv hseen) hopenFuel
        (hnext v hv)
      rw [visit_succ fuel w v hseen] at hexhausts ⊢
      have hnew : v ∉ added := fun hmem => hadded.fresh v hmem List.mem_cons_self
      have hsub : List.Sublist added (v :: added) := List.sublist_cons_self v added
      -- The path to a vertex goes through the successor from which it was found.
      have hpaths : ∀ x ∈ added, Ascends next (v :: added) v x := by
        intro x hx
        obtain ⟨r, hr, hradded, hpath⟩ := hadded.roots x hx
        refine .head ⟨hr, ?_⟩ (hpath.mono hsub)
        exact List.Sublist.cons_cons v (List.singleton_sublist.mpr hradded)
      have hseen' : ∀ x, x ∈ (List.foldl (descend next fuel v)
          { w with seen := v :: w.seen } (next v)).seen ↔ x ∈ v :: added ∨ x ∈ w.seen := by
        intro x
        rw [hadded.seen, List.mem_cons, List.mem_cons]
        tauto
      refine ⟨v :: added, congrArg (v :: ·) hadded.finished, hseen', ?_,
        List.nodup_cons.mpr ⟨hnew, hadded.nodup⟩, ?_, ?_, ?_⟩
      · refine List.forall_mem_cons.mpr ⟨hseen, fun x hx hmem => ?_⟩
        exact hadded.fresh x hx (List.mem_cons_of_mem v hmem)
      · refine List.forall_mem_cons.mpr ⟨⟨v, by simp, by simp, .refl⟩, fun x hx => ?_⟩
        exact ⟨v, by simp, by simp, hpaths x hx⟩
      · intro x hx y hy
        rcases hexhausts.closed x ((hseen' x).mpr (.inl hx)) with hold | hclosed
        · rcases List.mem_cons.mp hx with rfl | hx
          · exact absurd hold hseen
          · exact absurd (List.mem_cons_of_mem v hold) (hadded.fresh x hx)
        · exact hclosed y hy
      · intro x hx y hy hedge hback
        rcases List.mem_cons.mp hy with rfl | hyin
        · rcases List.mem_cons.mp hx with rfl | hxin
          · exact .refl
          · exact hpaths x hxin
        · rcases List.mem_cons.mp hx with rfl | hxin
          · exact absurd (List.Sublist.cons_cons x (List.singleton_sublist.mpr hyin)) hback
          · exact (hadded.back x hxin y hyin hedge fun h => hback (h.trans hsub)).mono hsub

/-- The order in which a walk from one root finishes, the last vertex first. -/
theorem walk_order (hnext : ∀ v < size, ∀ u ∈ next v, u < size) (hv : v < size) :
    (walk next size [v]).finished.Nodup ∧
      (∀ x ∈ (walk next size [v]).finished, Ascends next (walk next size [v]).finished v x) ∧
      ∀ x ∈ (walk next size [v]).finished, ∀ y ∈ (walk next size [v]).finished, y ∈ next x →
        ¬ List.Sublist [x, y] (walk next size [v]).finished →
        Ascends next (walk next size [v]).finished y x := by
  obtain ⟨added, hadded⟩ :=
    visit_grown hnext (Walk.start_fits size) (Nat.lt_succ_self _ : size < size + 1 + 0) hv
  have hfinished : (walk next size [v]).finished = added :=
    hadded.finished.trans (List.append_nil added)
  rw [hfinished]
  refine ⟨hadded.nodup, fun x hx => ?_, hadded.back⟩
  obtain ⟨r, hr, -, hpath⟩ := hadded.roots x hx
  rwa [List.mem_singleton.mp hr] at hpath

theorem idxOf_lt_of_sublist (hnodup : order.Nodup) (h : List.Sublist [a, b] order) :
    order.idxOf a < order.idxOf b := by
  induction order with
  | nil => cases h
  | cons x rest ih =>
      obtain ⟨hx, hnodup⟩ := List.nodup_cons.mp hnodup
      cases h with
      | cons _ h =>
          have hmem := h.subset
          have ha : x ≠ a := fun heq => hx (heq ▸ hmem (by simp))
          have hb : x ≠ b := fun heq => hx (heq ▸ hmem (by simp))
          rw [List.idxOf_cons_ne _ ha, List.idxOf_cons_ne _ hb]
          exact Nat.succ_lt_succ (ih hnodup h)
      | cons_cons _ h =>
          have hb : a ≠ b := fun heq => hx (heq ▸ List.singleton_sublist.mp h)
          rw [List.idxOf_cons_self, List.idxOf_cons_ne _ hb]
          exact Nat.succ_pos _

end Digraph

namespace FlowGraph

open Relation

variable {g : FlowGraph} {a b : BlockId}

/-- The place of a block in reverse postorder. -/
def rank (g : FlowGraph) (b : BlockId) : Nat := g.ranks.getD b 0

/-- The block can be reached from the entry. -/
def Reaches (g : FlowGraph) (b : BlockId) : Prop :=
  ReflTransGen (Digraph.Edge g.successors) g.entry b

/-- There is a path along which the blocks come one after the other in reverse postorder. -/
abbrev Ascends (g : FlowGraph) : BlockId → BlockId → Prop :=
  ReflTransGen fun a b => b ∈ g.successors a ∧ g.rank a < g.rank b

theorem rank_eq (hb : b < g.size) : g.rank b = g.reversePostorder.idxOf b := by
  simp [rank, ranks, hb]

theorem Ascends.rank_le (h : g.Ascends a b) : g.rank a ≤ g.rank b := by
  induction h with
  | refl => exact Nat.le_refl _
  | tail _ hedge ih => exact Nat.le_trans ih (Nat.le_of_lt hedge.2)

theorem Ascends.reaches (h : g.Ascends a b) (ha : g.Reaches a) : g.Reaches b := by
  induction h with
  | refl => exact ha
  | tail _ hedge ih => exact ih.tail hedge.1

namespace Valid

variable (hg : g.Valid)

include hg

theorem mem_reversePostorder : b ∈ g.reversePostorder ↔ g.Reaches b := by
  have hwalk : b ∈ (Digraph.walk g.successors g.size [g.entry]).finished ↔
      ∃ r ∈ [g.entry], ReflTransGen (Digraph.Edge g.successors) r b :=
    Digraph.mem_walk_finished (fun _ _ _ ht => hg.lt_of_mem_successors ht) (by simpa using hg.entry)
  have horder : g.reversePostorder = (Digraph.walk g.successors g.size [g.entry]).finished := rfl
  rw [horder, hwalk]
  simp [Reaches]

theorem nodup_reversePostorder : g.reversePostorder.Nodup :=
  (Digraph.walk_order (fun _ _ _ ht => hg.lt_of_mem_successors ht) hg.entry).1

theorem ascends_of_order (h : Digraph.Ascends g.successors g.reversePostorder a b) :
    g.Ascends a b := by
  refine ReflTransGen.mono (fun x y hedge => ⟨hedge.1, ?_⟩) _ _ h
  have hmem := hedge.2.subset
  have hx := (hg.mem_reversePostorder).mp (hmem (by simp : x ∈ [x, y]))
  have hy := (hg.mem_reversePostorder).mp (hmem (by simp : y ∈ [x, y]))
  rw [rank_eq (hg.lt_of_reach hx), rank_eq (hg.lt_of_reach hy)]
  exact Digraph.idxOf_lt_of_sublist hg.nodup_reversePostorder hedge.2

/-- A block is reached along blocks in reverse postorder. -/
theorem ascends (hb : g.Reaches b) : g.Ascends g.entry b := by
  obtain ⟨-, hpaths, -⟩ := Digraph.walk_order
    (fun _ _ _ ht => hg.lt_of_mem_successors ht) hg.entry
  exact hg.ascends_of_order (hpaths b (hg.mem_reversePostorder.mpr hb))

/-- From the target of an edge back its source is reached along blocks in reverse
postorder. -/
theorem ascends_back (ha : g.Reaches a) (hedge : b ∈ g.successors a) (hle : g.rank b ≤ g.rank a) :
    g.Ascends b a := by
  obtain ⟨-, -, hback⟩ := Digraph.walk_order
    (fun _ _ _ ht => hg.lt_of_mem_successors ht) hg.entry
  have hb : g.Reaches b := ha.tail hedge
  refine hg.ascends_of_order (hback a (hg.mem_reversePostorder.mpr ha) b
    (hg.mem_reversePostorder.mpr hb) hedge fun hsub => ?_)
  have hlt := Digraph.idxOf_lt_of_sublist hg.nodup_reversePostorder hsub
  rw [rank_eq (hg.lt_of_reach ha), rank_eq (hg.lt_of_reach hb)] at hle
  exact absurd hlt (Nat.not_lt.mpr hle)

end Valid

end FlowGraph

end FlowTyping
