import FlowTyping.Proofs.Graph.Postorder
import Mathlib.Data.List.Chain
import Mathlib.Order.Basic

/-!
The edges that a depth-first walk finds to close a cycle are those that do not lead on in
the order in which it finishes.
-/

namespace FlowTyping

namespace Digraph

variable {next : Nat → List Nat} {size : Nat} {order order' : List Nat} {v x y : Nat}

theorem pair_sublist_append_of_not_mem_left (h : x ∉ order) :
    List.Sublist [x, y] (order ++ order') ↔ List.Sublist [x, y] order' := by
  induction order with
  | nil => rfl
  | cons z rest ih =>
      obtain ⟨hz, hrest⟩ := not_or.mp (mt List.mem_cons.mpr h)
      rw [List.cons_append, ← ih hrest]
      refine ⟨fun hsub => ?_, .cons z⟩
      cases hsub with
      | cons _ hsub => exact hsub
      | cons_cons => exact absurd rfl hz

theorem pair_sublist_append_of_not_mem_right (h : y ∉ order') :
    List.Sublist [x, y] (order ++ order') ↔ List.Sublist [x, y] order := by
  refine ⟨fun hsub => ?_, fun hsub => hsub.trans (List.sublist_append_left _ _)⟩
  induction order with
  | nil => exact absurd (hsub.subset (by simp)) h
  | cons z rest ih =>
      cases hsub with
      | cons _ hsub => exact .cons z (ih hsub)
      | cons_cons _ hsub =>
          have hy := List.mem_append.mp (List.singleton_sublist.mp hsub)
          exact .cons_cons _ (List.singleton_sublist.mpr (hy.resolve_right h))

theorem pair_sublist_of_idxOf_lt (hy : y ∈ order) (h : order.idxOf x < order.idxOf y) :
    List.Sublist [x, y] order := by
  induction order with
  | nil => cases hy
  | cons z rest ih =>
      by_cases hz : z = y
      · rw [hz, List.idxOf_cons_self] at h
        exact absurd h (Nat.not_lt_zero _)
      · have hy := (List.mem_cons.mp hy).resolve_left (Ne.symm hz)
        by_cases hx : z = x
        · exact hx ▸ .cons_cons z (List.singleton_sublist.mpr hy)
        · rw [List.idxOf_cons_ne _ hx, List.idxOf_cons_ne _ hz] at h
          exact .cons z (ih hy (Nat.lt_of_succ_lt_succ h))

namespace Walk

/-- The vertex has been seen, and what follows it is still being walked. -/
def Open (w : Walk) (y : Nat) : Prop := y ∈ w.seen ∧ y ∉ w.finished

end Walk

/-- An edge from a vertex that a walk has added, back to a vertex that was open then. -/
structure Returns (next : Nat → List Nat) (w : Walk) (added : List Nat) (x y : Nat) : Prop where
  source : x ∈ added
  edge : y ∈ next x
  back : w.Open y ∨ y ∈ added ∧ ¬ List.Sublist [x, y] added

/-- What a walk along some edges has found to close a cycle. -/
def Closes (next : Nat → List Nat) (taken : List (Nat × Nat)) (w w' : Walk)
    (added : List Nat) : Prop :=
  ∀ x y, (x, y) ∈ w'.closing ↔
    (x, y) ∈ w.closing ∨ ((x, y) ∈ taken ∧ w.Open y) ∨ Returns next w added x y

namespace Grown

variable {roots roots' : List Nat} {w w' w'' : Walk} {added added' : List Nat}

theorem open_iff (h : Grown next roots w w' added) : w'.Open y ↔ w.Open y := by
  have hfresh := h.fresh y
  simp only [Walk.Open, h.seen, h.finished, List.mem_append]
  tauto

theorem closes_trans (h : Grown next roots w w' added) (h' : Grown next roots' w' w'' added')
    {taken taken' : List (Nat × Nat)} (hc : Closes next taken w w' added)
    (hc' : Closes next taken' w' w'' added') :
    Closes next (taken ++ taken') w w'' (added' ++ added) := by
  intro x y
  have hdisjoint (z : Nat) (hz : z ∈ added) : z ∉ added' :=
    fun hmem => h'.fresh z hmem ((h.seen z).mpr (.inl hz))
  have hreturns : Returns next w (added' ++ added) x y ↔
      Returns next w added x y ∨ Returns next w' added' x y := by
    have hseen (hx : x ∈ added) (hedge : y ∈ next x) : y ∉ added' := fun hmem =>
      h'.fresh y hmem (h.leaves x hx y hedge)
    constructor
    · rintro ⟨hx, hedge, hback⟩
      by_cases hold : x ∈ added
      · have hy := hseen hold hedge
        rw [List.mem_append, pair_sublist_append_of_not_mem_left (hdisjoint x hold)] at hback
        exact .inl ⟨hold, hedge, hback.imp_right (And.imp_left (Or.resolve_left · hy))⟩
      · have hnew := (List.mem_append.mp hx).resolve_right hold
        refine .inr ⟨hnew, hedge, hback.imp h.open_iff.mpr ?_⟩
        rintro ⟨hy, hback⟩
        have hy : y ∉ added := fun hmem => hback
          ((List.singleton_sublist.mpr hnew).append (List.singleton_sublist.mpr hmem))
        exact ⟨(List.mem_append.mp ‹_›).resolve_right hy,
          fun hsub => hback (hsub.trans (List.sublist_append_left _ _))⟩
    · rintro (⟨hx, hedge, hback⟩ | ⟨hx, hedge, hback⟩)
      · refine ⟨List.mem_append_right _ hx, hedge, hback.imp_right ?_⟩
        rintro ⟨hy, hback⟩
        rw [pair_sublist_append_of_not_mem_left (hdisjoint x hx)]
        exact ⟨List.mem_append_right _ hy, hback⟩
      · refine ⟨List.mem_append_left _ hx, hedge, hback.imp h.open_iff.mp ?_⟩
        rintro ⟨hy, hback⟩
        rw [pair_sublist_append_of_not_mem_right fun hmem => hdisjoint y hmem hy]
        exact ⟨List.mem_append_left _ hy, hback⟩
  rw [hc' x y, hc x y, h.open_iff, hreturns, List.mem_append]
  tauto

theorem closes_nil (h : w'.closing = w.closing) {taken : List (Nat × Nat)}
    (htaken : ∀ e ∈ taken, ¬ w.Open e.2) : Closes next taken w w' [] := by
  intro x y
  rw [h]
  refine ⟨.inl, ?_⟩
  rintro (h | ⟨hmem, hopen⟩ | h)
  · exact h
  · exact absurd hopen (htaken _ hmem)
  · exact absurd h.source List.not_mem_nil

theorem closes_foldl {f : Walk → Nat → Walk} {fuel : Nat} {taken : Nat → List (Nat × Nat)}
    (hf : ∀ w : Walk, w.Fits size → size < fuel + w.seen.length → ∀ u < size,
      Exhausts next size [u] w (f w u) ∧ ∃ added, Grown next [u] w (f w u) added ∧
        Closes next (taken u) w (f w u) added)
    {roots : List Nat} {w : Walk} (hw : w.Fits size) (hfuel : size < fuel + w.seen.length)
    (hroots : ∀ u ∈ roots, u < size) : ∃ added, Grown next roots w (roots.foldl f w) added ∧
      Closes next (roots.flatMap taken) w (roots.foldl f w) added := by
  induction roots generalizing w with
  | nil => exact ⟨[], .nil [] rfl rfl, closes_nil rfl (List.forall_mem_nil _)⟩
  | cons u rest ih =>
      obtain ⟨hexhausts, added, hfirst, hcloses⟩ := hf w hw hfuel u (hroots u (by simp))
      have hlength := hexhausts.length
      obtain ⟨added', hrest, hcloses'⟩ := ih hexhausts.fits (by omega) fun x hx =>
        hroots x (by simp [hx])
      rw [List.flatMap_cons]
      exact ⟨added' ++ added, (hfirst.widen (by simp)).trans
        (hrest.widen (List.subset_cons_self u rest)), hfirst.closes_trans hrest hcloses hcloses'⟩

end Grown

/-- The edges back from a vertex that is visited and from all that is found there. -/
theorem returns_cons {w w' : Walk} {added : List Nat} (hnew : v ∉ added)
    (hopen : w'.Open y ↔ y = v ∨ w.Open y) : Returns next w (v :: added) x y ↔
      x = v ∧ y ∈ next v ∧ w'.Open y ∨ Returns next w' added x y := by
  have hself {z : Nat} : ¬ List.Sublist [z, v] (v :: added) := by
    intro hsub
    cases hsub with
    | cons _ hsub => exact hnew (hsub.subset (by simp))
    | cons_cons _ hsub => exact hnew (List.singleton_sublist.mp hsub)
  constructor
  · rintro ⟨hx, hedge, hback⟩
    rcases List.mem_cons.mp hx with rfl | hx
    · refine .inl ⟨rfl, hedge, hopen.mpr (hback.symm.imp_left ?_)⟩
      rintro ⟨hy, hback⟩
      refine (List.mem_cons.mp hy).resolve_right fun hy => hback ?_
      exact .cons_cons x (List.singleton_sublist.mpr hy)
    · refine .inr ⟨hx, hedge, ?_⟩
      rcases hback with hopened | ⟨hy, hback⟩
      · exact .inl (hopen.mpr (.inr hopened))
      · rcases List.mem_cons.mp hy with rfl | hy
        · exact .inl (hopen.mpr (.inl rfl))
        · exact .inr ⟨hy, fun hsub => hback (.cons v hsub)⟩
  · rintro (⟨rfl, hedge, hopened⟩ | ⟨hx, hedge, hback⟩)
    · refine ⟨List.mem_cons_self, hedge, ?_⟩
      rcases hopen.mp hopened with rfl | hopened
      · exact .inr ⟨List.mem_cons_self, hself⟩
      · exact .inl hopened
    · have hne : x ∉ [v] := fun hmem => hnew (List.mem_singleton.mp hmem ▸ hx)
      refine ⟨List.mem_cons_of_mem v hx, hedge, ?_⟩
      rcases hback with hopened | ⟨hy, hback⟩
      · rcases hopen.mp hopened with rfl | hopened
        · exact .inr ⟨List.mem_cons_self, hself⟩
        · exact .inl hopened
      · refine .inr ⟨List.mem_cons_of_mem v hy, fun hsub => hback ?_⟩
        have hall : List.Sublist [x, y] ([v] ++ added) := hsub
        exact (pair_sublist_append_of_not_mem_left hne).mp hall

/-- An edge that is looked at closes a cycle if it leads to an open vertex. -/
theorem descend_closes (hnext : ∀ v < size, ∀ u ∈ next v, u < size) {fuel : Nat}
    (hvisit : ∀ {w : Walk} {u : Nat}, w.Fits size → size < fuel + w.seen.length → u < size →
      ∃ added, Grown next [u] w (visit next fuel w u) added ∧
        Closes next [] w (visit next fuel w u) added)
    (w : Walk) (hw : w.Fits size) (hfuel : size < fuel + w.seen.length) (u : Nat) (hu : u < size) :
    Exhausts next size [u] w (descend next fuel v w u) ∧
      ∃ added, Grown next [u] w (descend next fuel v w u) added ∧
        Closes next [(v, u)] w (descend next fuel v w u) added := by
  refine ⟨descend_exhausts hw (visit_exhausts hnext hw hfuel hu), ?_⟩
  unfold descend
  split
  · rename_i hfinished
    refine ⟨[], .nil _ rfl rfl, Grown.closes_nil rfl ?_⟩
    exact List.forall_mem_singleton.mpr fun h => h.2 hfinished
  split
  · rename_i hunfinished hmem
    refine ⟨[], .nil _ rfl rfl, fun x y => ?_⟩
    rw [List.mem_cons, List.mem_singleton]
    constructor
    · rintro (heq | hold)
      · cases heq
        exact .inr (.inl ⟨rfl, hmem, hunfinished⟩)
      · exact .inl hold
    · rintro (hold | ⟨heq, -⟩ | hreturns)
      · exact .inr hold
      · exact .inl heq
      · exact absurd hreturns.source List.not_mem_nil
  · rename_i hunseen
    obtain ⟨added, hgrown, hcloses⟩ := hvisit hw hfuel hu
    refine ⟨added, hgrown, fun x y => ?_⟩
    have hclosed : ¬ ((x, y) ∈ [(v, u)] ∧ w.Open y) := by
      rintro ⟨hmem, hseen, -⟩
      cases List.mem_singleton.mp hmem
      exact hunseen hseen
    simp only [hcloses x y, hclosed, List.not_mem_nil, false_and]

/-- The edges of a visit that close a cycle. -/
theorem visit_closes (hnext : ∀ v < size, ∀ u ∈ next v, u < size) {fuel : Nat} {w : Walk}
    (hw : w.Fits size) (hfuel : size < fuel + w.seen.length) (hv : v < size) :
    ∃ added, Grown next [v] w (visit next fuel w v) added ∧
      Closes next [] w (visit next fuel w v) added := by
  induction fuel generalizing w v with
  | zero =>
      have := hw.length_le
      omega
  | succ fuel ih =>
      by_cases hseen : v ∈ w.seen
      · rw [visit_of_mem hseen]
        exact ⟨[], .nil _ rfl rfl, Grown.closes_nil rfl (List.forall_mem_nil _)⟩
      have hopenFuel : size < fuel + (v :: w.seen).length := by
        simp only [List.length_cons]
        omega
      obtain ⟨added, hadded, hcloses⟩ := Grown.closes_foldl (descend_closes (v := v) hnext ih)
        (hw.push hv hseen) hopenFuel (hnext v hv)
      obtain ⟨all, hall⟩ := visit_grown hnext hw hfuel hv
      rw [visit_succ fuel w v hseen] at hall ⊢
      obtain rfl : all = v :: added := by
        have hfinished := hall.finished
        simp only [hadded.finished, ← List.cons_append] at hfinished
        exact (List.append_cancel_right hfinished).symm
      refine ⟨v :: added, hall, fun x y => ?_⟩
      have hnew : v ∉ added := (List.nodup_cons.mp hall.nodup).1
      refine (hcloses x y).trans (or_congr_right ?_)
      have hopenBy : Walk.Open { w with seen := v :: w.seen } y ↔ y = v ∨ w.Open y := by
        have hv : y = v → y ∉ w.finished := by
          rintro rfl
          exact fun h => hseen (hw.finished h)
        simp only [Walk.Open, List.mem_cons]
        tauto
      have htaken : (x, y) ∈ (next v).flatMap (fun u => [(v, u)]) ↔ x = v ∧ y ∈ next v := by
        simp only [List.mem_flatMap, List.mem_singleton, Prod.mk.injEq]
        grind
      rw [returns_cons hnew hopenBy, htaken]
      simp only [List.not_mem_nil, false_and, false_or, and_assoc]

variable {roots : List Nat}

/-- What a walk finishes, and the edges that it finds to close a cycle. -/
theorem walk_closes (hnext : ∀ v < size, ∀ u ∈ next v, u < size) (hroots : ∀ r ∈ roots, r < size) :
    Grown next roots .start (walk next size roots) (walk next size roots).finished ∧
      Closes next [] .start (walk next size roots) (walk next size roots).finished := by
  have hvisit (w : Walk) (hw : w.Fits size) (hfuel : size < size + 1 + w.seen.length) (u : Nat)
      (hu : u < size) := And.intro (visit_exhausts hnext hw hfuel hu)
    (visit_closes hnext hw hfuel hu)
  obtain ⟨added, hadded, hcloses⟩ := Grown.closes_foldl hvisit (Walk.start_fits size)
    (Nat.lt_succ_self _ : size < size + 1 + 0) hroots
  have hfinished : (walk next size roots).finished = added :=
    hadded.finished.trans (List.append_nil added)
  have hnone : roots.flatMap (fun _ => ([] : List (Nat × Nat))) = [] := by simp
  rw [hfinished]
  exact ⟨hadded, hnone ▸ hcloses⟩

/-- The edges of a walk that close a cycle. -/
theorem mem_walk_closing (hnext : ∀ v < size, ∀ u ∈ next v, u < size)
    (hroots : ∀ r ∈ roots, r < size) :
    (x, y) ∈ (walk next size roots).closing ↔ x ∈ (walk next size roots).finished ∧
      y ∈ next x ∧ ¬ List.Sublist [x, y] (walk next size roots).finished := by
  obtain ⟨hgrown, hcloses⟩ := walk_closes hnext hroots
  refine (hcloses x y).trans ?_
  constructor
  · rintro (hold | ⟨hold, -⟩ | ⟨hx, hedge, ⟨hold, -⟩ | ⟨-, hback⟩⟩)
    · cases hold
    · cases hold
    · cases hold
    · exact ⟨hx, hedge, hback⟩
  · rintro ⟨hx, hedge, hback⟩
    refine .inr (.inr ⟨hx, hedge, .inr ⟨?_, hback⟩⟩)
    exact ((hgrown.seen y).mp (hgrown.leaves x hx y hedge)).resolve_right List.not_mem_nil

end Digraph

/-!
Nested loops: when every edge leads on in some order of the vertices, or back to the head
of a loop around its source, and loops are entered by their heads alone, then the edges
back to heads are those that every depth-first walk finds to close a cycle.
-/

namespace Digraph

open Relation

/-- Every path from the root to a vertex goes through another one. -/
def Dominates (next : Nat → List Nat) (root d v : Nat) : Prop :=
  ∀ path : List Nat, path.IsChain (Edge next) → path.head? = some root →
    path.getLast? = some v → d ∈ path

/-- The vertices of a cycle: each of them leads to the next one, and the last one to the
first one. -/
def Cycle (next : Nat → List Nat) : List Nat → Prop
  | [] => False
  | v :: rest => (v :: rest ++ [v]).IsChain (Edge next)

/-- Vertices have places in an order and loops around them. -/
structure Nested {α : Type} [Preorder α] (next : Nat → List Nat) (root : Nat)
    (head : Nat → Prop) (place : Nat → α) (around : Nat → Nat → Prop) : Prop where
  outside : ∀ h, ¬ around h root
  onward : ∀ u v, v ∈ next u → place u < place v ∨ head v ∧ around v u
  enters : ∀ u v, v ∈ next u → ∀ h, around h v → h = v ∨ around h u

namespace Nested

variable {α : Type} [Preorder α] {next next' : Nat → List Nat} {root size : Nat}
  {head : Nat → Prop} {place : Nat → α} {around : Nat → Nat → Prop} {h u v x y : Nat}
  {path order : List Nat}

theorem congr (hn : Nested next root head place around)
    (hnext : ∀ u v, v ∈ next' u → v ∈ next u) : Nested next' root head place around where
  outside := hn.outside
  onward u v hedge := hn.onward u v (hnext u v hedge)
  enters u v hedge := hn.enters u v (hnext u v hedge)

variable (hn : Nested next root head place around)

include hn

/-- A path into a loop goes through its head, unless it begins in the loop. -/
theorem around_of_path (hpath : (u :: path).IsChain (Edge next))
    (hlast : (u :: path).getLast? = some v) (hv : around h v) : around h u ∨ h ∈ u :: path := by
  induction path generalizing u with
  | nil =>
      cases hlast
      exact .inl hv
  | cons w rest ih =>
      obtain ⟨hedge, hrest⟩ := List.isChain_cons_cons.mp hpath
      rcases ih hrest (by simpa using hlast) with hw | hmem
      · rcases hn.enters u w hedge h hw with rfl | hu
        · exact .inr (by simp)
        · exact .inl hu
      · exact .inr (List.mem_cons_of_mem u hmem)

/-- The head of a loop dominates it. -/
theorem dominates (hv : around h v) : Dominates next root h v := by
  intro path hpath hhead hlast
  cases path with
  | nil => cases hhead
  | cons u rest =>
      cases hhead
      exact (hn.around_of_path hpath hlast hv).resolve_left (hn.outside h)

/-- Every cycle goes through the head of a loop. -/
theorem head_of_cycle (hcycle : Cycle next path) : ∃ h ∈ path, head h := by
  cases path with
  | nil => exact hcycle.elim
  | cons v rest =>
      by_contra hnone
      have hnone : ∀ w ∈ v :: rest, ¬ head w := fun w hw hhead => hnone ⟨w, hw, hhead⟩
      have hchain : (v :: rest ++ [v]).IsChain (fun a b => place a < place b) :=
        List.IsChain.imp_of_mem_imp (fun a b _ hb hedge => by
          refine (hn.onward a b hedge).resolve_right fun hback => hnone b ?_ hback.1
          simpa [or_comm] using hb) hcycle
      have hless := List.isChain_iff_pairwise.mp hchain
      rw [List.cons_append, List.pairwise_cons] at hless
      exact lt_irrefl _ (hless.1 v (by simp))

/-- The head of a loop is listed on the way to what is in the loop. -/
theorem ascends (hx : Ascends next order root x) (hv : around h x) : Ascends next order h x := by
  induction hx with
  | refl => exact absurd hv (hn.outside h)
  | @tail a b _ hedge ih =>
      rcases hn.enters a b hedge.1 h hv with rfl | ha
      · exact .refl
      · exact (ih ha).tail hedge

end Nested

theorem Ascends.idxOf_le {next : Nat → List Nat} {order : List Nat} {a b : Nat}
    (h : Ascends next order a b) (hnodup : order.Nodup) : order.idxOf a ≤ order.idxOf b := by
  induction h with
  | refl => exact Nat.le_refl _
  | tail _ hedge ih => exact Nat.le_trans ih (Nat.le_of_lt (idxOf_lt_of_sublist hnodup hedge.2))

theorem mem_walk_finished_of_edge {next : Nat → List Nat} {size x y : Nat} {roots : List Nat}
    (hnext : ∀ v < size, ∀ u ∈ next v, u < size) (hroots : ∀ r ∈ roots, r < size)
    (hx : x ∈ (walk next size roots).finished) (hedge : y ∈ next x) :
    y ∈ (walk next size roots).finished := by
  obtain ⟨r, hr, hreach⟩ := (mem_walk_finished hnext hroots).mp hx
  exact (mem_walk_finished hnext hroots).mpr ⟨r, hr, hreach.tail hedge⟩

namespace Nested

variable {α : Type} [Preorder α] {next : Nat → List Nat} {root size : Nat}
  {head : Nat → Prop} {place : Nat → α} {around : Nat → Nat → Prop} {x y : Nat}

/-- The edges that do not lead on in the order in which a walk finishes are those that lead
back to the head of a loop around their source. -/
theorem not_sublist_iff (hn : Nested next root head place around)
    (hnext : ∀ v < size, ∀ u ∈ next v, u < size) (hroot : root < size)
    (hx : x ∈ (walk next size [root]).finished) (hedge : y ∈ next x) :
    (¬ List.Sublist [x, y] (walk next size [root]).finished ↔ head y ∧ around y x) := by
  obtain ⟨hnodup, hpaths, hback⟩ := walk_order hnext hroot
  have hy := mem_walk_finished_of_edge hnext (by simpa using hroot) hx hedge
  generalize (walk next size [root]).finished = order at *
  have hlisted : ∀ v ∈ order, ∀ h, around h v → order.idxOf h ≤ order.idxOf v :=
    fun v hv h hh => (hn.ascends (hpaths v hv) hh).idxOf_le hnodup
  -- Along the order of the walk, places only grow.
  have hgrows {a b : Nat} (h : Ascends next order a b) : place a ≤ place b := by
    induction h with
    | refl => exact le_refl _
    | @tail a b _ hstep ih =>
        refine ih.trans (le_of_lt ((hn.onward a b hstep.1).resolve_right fun hhead => ?_))
        have hlt := idxOf_lt_of_sublist hnodup hstep.2
        exact Nat.lt_irrefl _ (Nat.lt_of_lt_of_le hlt
          (hlisted a (hstep.2.subset (by simp)) b hhead.2))
  constructor
  · intro hnot
    refine (hn.onward x y hedge).resolve_left fun hlt => ?_
    exact absurd (hgrows (hback x hx y hy hedge hnot)) (not_le_of_gt hlt)
  · rintro ⟨-, haround⟩ hsub
    exact Nat.lt_irrefl _ (Nat.lt_of_lt_of_le (idxOf_lt_of_sublist hnodup hsub)
      (hlisted x hx y haround))

/-- The edges that lead backwards in the order in which a walk finishes. -/
theorem idxOf_le_iff (hn : Nested next root head place around)
    (hnext : ∀ v < size, ∀ u ∈ next v, u < size) (hroot : root < size)
    (hx : x ∈ (walk next size [root]).finished) (hedge : y ∈ next x) :
    (walk next size [root]).finished.idxOf y ≤ (walk next size [root]).finished.idxOf x ↔
      head y ∧ around y x := by
  rw [← hn.not_sublist_iff hnext hroot hx hedge, ← Nat.not_lt]
  have hy := mem_walk_finished_of_edge hnext (by simpa using hroot) hx hedge
  exact not_congr ⟨pair_sublist_of_idxOf_lt hy, idxOf_lt_of_sublist (walk_order hnext hroot).1⟩

/-- The edges that a walk finds to close a cycle. -/
theorem mem_closing_iff (hn : Nested next root head place around)
    (hnext : ∀ v < size, ∀ u ∈ next v, u < size) (hroot : root < size) :
    (x, y) ∈ (walk next size [root]).closing ↔
      ReflTransGen (Edge next) root x ∧ y ∈ next x ∧ head y ∧ around y x := by
  have hmem : x ∈ (walk next size [root]).finished ↔ ReflTransGen (Edge next) root x := by
    rw [mem_walk_finished hnext (by simpa using hroot)]
    simp
  rw [mem_walk_closing hnext (by simpa using hroot), ← hmem]
  exact and_congr_right fun hx => and_congr_right fun hedge =>
    hn.not_sublist_iff hnext hroot hx hedge

end Nested

end Digraph

end FlowTyping
