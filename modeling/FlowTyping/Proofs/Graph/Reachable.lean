import FlowTyping.Graph.Digraph
import Mathlib.Data.List.Nodup
import Mathlib.Data.List.Perm.Subperm
import Mathlib.Logic.Relation

/-!
Depth-first walks finish exactly the vertices that can be reached from their roots.
-/

namespace FlowTyping

namespace Digraph

open Relation

theorem mem_distinct {α : Type} [DecidableEq α] {a : α} {l : List α} :
    a ∈ distinct l ↔ a ∈ l := by
  induction l with
  | nil => rfl
  | cons b rest ih =>
      by_cases hab : a = b
      · simp [distinct, hab]
      · simp [distinct, ih, hab]

/-- There is an edge, as a relation. -/
abbrev Edge (next : Nat → List Nat) (a b : Nat) : Prop := b ∈ next a

variable {next : Nat → List Nat} {size : Nat}

/-- What a walk has added: only vertices that can be reached from some others, each of
them finished. -/
structure Explores (next : Nat → List Nat) (roots : List Nat) (w w' : Walk) : Prop where
  seen : w.seen ⊆ w'.seen
  finished : w.finished ⊆ w'.finished
  done : ∀ x ∈ w'.seen, x ∈ w.seen ∨ x ∈ w'.finished
  origin : ∀ x ∈ w'.finished, x ∈ w.finished ∨
    x ∈ w'.seen ∧ ∃ r ∈ roots, ReflTransGen (Edge next) r x

namespace Explores

variable {roots roots' : List Nat} {w w' w'' : Walk}

theorem refl (roots : List Nat) (w : Walk) : Explores next roots w w where
  seen := List.Subset.refl _
  finished := List.Subset.refl _
  done _ h := .inl h
  origin _ h := .inl h

theorem trans (h : Explores next roots w w') (h' : Explores next roots w' w'') :
    Explores next roots w w'' where
  seen := List.Subset.trans h.seen h'.seen
  finished := List.Subset.trans h.finished h'.finished
  done x hx := by
    rcases h'.done x hx with hx | hx
    · exact (h.done x hx).imp_right fun hx => h'.finished hx
    · exact .inr hx
  origin x hx := by
    rcases h'.origin x hx with hx | hx
    · exact (h.origin x hx).imp_right fun ⟨hseen, hreach⟩ => ⟨h'.seen hseen, hreach⟩
    · exact .inr hx

theorem widen (h : Explores next roots w w') (hroots : roots ⊆ roots') :
    Explores next roots' w w' where
  seen := h.seen
  finished := h.finished
  done := h.done
  origin x hx := (h.origin x hx).imp_right fun ⟨hseen, r, hr, hreach⟩ =>
    ⟨hseen, r, hroots hr, hreach⟩

theorem foldl {f : Walk → Nat → Walk} (hf : ∀ w u, Explores next [u] w (f w u))
    (roots : List Nat) (w : Walk) : Explores next roots w (roots.foldl f w) := by
  induction roots generalizing w with
  | nil => exact .refl [] w
  | cons u rest ih =>
      exact ((hf w u).widen (by simp)).trans ((ih (f w u)).widen (List.subset_cons_self u rest))

end Explores

/-- One successor of a vertex that is being visited. -/
def descend (next : Nat → List Nat) (fuel : Nat) (v : Nat) (w : Walk) (u : Nat) : Walk :=
  if u ∈ w.finished then w
  else if u ∈ w.seen then { w with closing := (v, u) :: w.closing }
  else visit next fuel w u

/-- A vertex that has been seen is not opened again. -/
theorem visit_of_mem {fuel : Nat} {w : Walk} {v : Nat} (hv : v ∈ w.seen) :
    visit next fuel w v = w := by
  cases fuel with
  | zero => rfl
  | succ fuel => rw [visit, if_pos hv]

theorem visit_succ (fuel : Nat) (w : Walk) (v : Nat) (hv : v ∉ w.seen) :
    visit next (fuel + 1) w v =
      let after := (next v).foldl (descend next fuel v) { w with seen := v :: w.seen }
      { after with finished := v :: after.finished } := by
  rw [visit, if_neg hv]
  rfl

theorem visit_explores (fuel : Nat) (w : Walk) (v : Nat) :
    Explores next [v] w (visit next fuel w v) := by
  induction fuel generalizing w v with
  | zero => exact .refl [v] w
  | succ fuel ih =>
      by_cases hv : v ∈ w.seen
      · rw [visit_of_mem hv]
        exact .refl [v] w
      · rw [visit_succ fuel w v hv]
        have hdescend (w : Walk) (u : Nat) : Explores next [u] w (descend next fuel v w u) := by
          unfold descend
          split
          · exact .refl [u] w
          split
          · exact ⟨List.Subset.refl _, List.Subset.refl _, fun _ h => .inl h, fun _ h => .inl h⟩
          · exact ih w u
        have hfold := Explores.foldl hdescend (next v) { w with seen := v :: w.seen }
        refine ⟨fun x hx => hfold.seen (List.mem_cons_of_mem v hx),
          fun x hx => List.mem_cons_of_mem v (hfold.finished hx), fun x hx => ?_, fun x hx => ?_⟩
        · rcases hfold.done x hx with hx | hx
          · rcases List.mem_cons.mp hx with rfl | hx
            · exact .inr (List.mem_cons_self ..)
            · exact .inl hx
          · exact .inr (List.mem_cons_of_mem v hx)
        · rcases List.mem_cons.mp hx with rfl | hx
          · exact .inr ⟨hfold.seen (List.mem_cons_self ..), x, List.mem_singleton.mpr rfl, .refl⟩
          · rcases hfold.origin x hx with hx | ⟨hseen, u, hu, hreach⟩
            · exact .inl hx
            · exact .inr ⟨hseen, v, List.mem_singleton.mpr rfl, .head hu hreach⟩

/-- The vertices of a walk exist, and none is open twice. -/
structure Walk.Fits (w : Walk) (size : Nat) : Prop where
  finished : w.finished ⊆ w.seen
  nodup : w.seen.Nodup
  below : ∀ x ∈ w.seen, x < size

theorem Walk.Fits.length_le {w : Walk} (h : w.Fits size) : w.seen.length ≤ size := by
  have hsub : w.seen ⊆ List.range size := fun x hx => List.mem_range.mpr (h.below x hx)
  simpa using (h.nodup.subperm hsub).length_le

theorem Walk.start_fits (size : Nat) : Walk.start.Fits size :=
  ⟨List.nil_subset _, List.nodup_nil, List.forall_mem_nil _⟩

/-- A vertex that has not been seen is opened. -/
theorem Walk.Fits.push {w : Walk} {v : Nat} (h : w.Fits size) (hv : v < size)
    (hnew : v ∉ w.seen) : Walk.Fits { w with seen := v :: w.seen } size where
  finished _ hx := List.mem_cons_of_mem v (h.finished hx)
  nodup := List.nodup_cons.mpr ⟨hnew, h.nodup⟩
  below := List.forall_mem_cons.mpr ⟨hv, h.below⟩

/-- A walk has come to some vertices and to all successors of what it has added. -/
structure Exhausts (next : Nat → List Nat) (size : Nat) (roots : List Nat) (w w' : Walk) :
    Prop where
  fits : w'.Fits size
  length : w.seen.length ≤ w'.seen.length
  seen : w.seen ⊆ w'.seen
  roots : roots ⊆ w'.seen
  closed : ∀ x ∈ w'.seen, x ∈ w.seen ∨ ∀ y ∈ next x, y ∈ w'.seen

theorem Exhausts.foldl {f : Walk → Nat → Walk} {fuel : Nat}
    (hf : ∀ w : Walk, w.Fits size → size < fuel + w.seen.length → ∀ u < size,
      Exhausts next size [u] w (f w u))
    {roots : List Nat} {w : Walk} (hw : w.Fits size) (hfuel : size < fuel + w.seen.length)
    (hroots : ∀ u ∈ roots, u < size) : Exhausts next size roots w (roots.foldl f w) := by
  induction roots generalizing w with
  | nil => exact ⟨hw, Nat.le_refl _, List.Subset.refl _, List.nil_subset _, fun _ h => .inl h⟩
  | cons u rest ih =>
      have hfirst := hf w hw hfuel u (hroots u (by simp))
      have hlength := hfirst.length
      have hrest := ih hfirst.fits (by omega) fun x hx => hroots x (by simp [hx])
      refine ⟨hrest.fits, Nat.le_trans hlength hrest.length,
        List.Subset.trans hfirst.seen hrest.seen, ?_, ?_⟩
      · intro x hx
        rcases List.mem_cons.mp hx with rfl | hx
        · exact hrest.seen (hfirst.roots (by simp))
        · exact hrest.roots hx
      · intro x hx
        rcases hrest.closed x hx with hx | hx
        · exact (hfirst.closed x hx).imp_right fun h y hy => hrest.seen (h y hy)
        · exact .inr hx

/-- A successor that is looked at has been seen then. -/
theorem descend_exhausts {fuel v u : Nat} {w : Walk} (hw : w.Fits size)
    (hvisit : Exhausts next size [u] w (visit next fuel w u)) :
    Exhausts next size [u] w (descend next fuel v w u) := by
  unfold descend
  split
  · rename_i hfinished
    exact ⟨hw, Nat.le_refl _, List.Subset.refl _, by simpa using hw.finished hfinished,
      fun _ h => .inl h⟩
  split
  · rename_i hseen
    exact ⟨⟨hw.finished, hw.nodup, hw.below⟩, Nat.le_refl _, List.Subset.refl _,
      by simpa using hseen, fun _ h => .inl h⟩
  · exact hvisit

theorem visit_exhausts (hnext : ∀ v < size, ∀ u ∈ next v, u < size) {fuel : Nat} {w : Walk}
    {v : Nat} (hw : w.Fits size) (hfuel : size < fuel + w.seen.length) (hv : v < size) :
    Exhausts next size [v] w (visit next fuel w v) := by
  induction fuel generalizing w v with
  | zero =>
      have := hw.length_le
      omega
  | succ fuel ih =>
      by_cases hseen : v ∈ w.seen
      · rw [visit_of_mem hseen]
        exact ⟨hw, Nat.le_refl _, List.Subset.refl _, by simpa using hseen, fun _ h => .inl h⟩
      · rw [visit_succ fuel w v hseen]
        have hfold := Exhausts.foldl (f := descend next fuel v)
          (fun _ hw hfuel _ hu => descend_exhausts hw (ih hw hfuel hu))
          (hw.push hv hseen) (by simp only [List.length_cons]; omega) (hnext v hv)
        have hvseen := hfold.seen (List.mem_cons_self ..)
        refine ⟨⟨List.cons_subset.mpr ⟨hvseen, hfold.fits.finished⟩, hfold.fits.nodup,
          hfold.fits.below⟩, Nat.le_of_succ_le hfold.length,
          fun x hx => hfold.seen (List.mem_cons_of_mem v hx), by simpa using hvseen, ?_⟩
        intro x hx
        rcases hfold.closed x hx with hx | hx
        · rcases List.mem_cons.mp hx with rfl | hx
          · exact .inr fun y hy => hfold.roots hy
          · exact .inl hx
        · exact .inr hx

/-- A walk finishes what can be reached from its roots. -/
theorem mem_walk_finished (hnext : ∀ v < size, ∀ u ∈ next v, u < size) {roots : List Nat}
    (hroots : ∀ r ∈ roots, r < size) {x : Nat} :
    x ∈ (walk next size roots).finished ↔ ∃ r ∈ roots, ReflTransGen (Edge next) r x := by
  have hexplores : Explores next roots .start (walk next size roots) :=
    .foldl (visit_explores (size + 1)) roots .start
  have hexhausts : Exhausts next size roots .start (walk next size roots) :=
    .foldl (fun w hw hfuel u hu => visit_exhausts hnext hw hfuel hu) (Walk.start_fits size)
      (by simp [Walk.start]) hroots
  constructor
  · intro hx
    rcases hexplores.origin x hx with hx | ⟨-, hreach⟩
    · simp [Walk.start] at hx
    · exact hreach
  · rintro ⟨r, hr, hreach⟩
    have hseen : x ∈ (walk next size roots).seen := by
      induction hreach with
      | refl => exact hexhausts.roots hr
      | tail _ hedge ih =>
          rcases hexhausts.closed _ ih with hx | hclosed
          · simp [Walk.start] at hx
          · exact hclosed _ hedge
    rcases hexplores.done x hseen with hx | hx
    · simp [Walk.start] at hx
    · exact hx

end Digraph

end FlowTyping
