import FlowTyping.Checker.Hierarchy
import FlowTyping.Proofs.Graph.Reachable
import Mathlib.Data.List.Forall2

/-!
Hierarchies are lattices: an accepted declaration orders its qualifiers, and every two of
them have a least upper and a greatest lower bound.
-/

namespace FlowTyping

open Relation

theorem forall₂_of_mapM {α β ε : Type} {f : α → Except ε β} {l : List α} {r : List β}
    (h : l.mapM f = .ok r) : List.Forall₂ (fun a b => f a = .ok b) l r := by
  induction l generalizing r with
  | nil =>
      cases h
      exact .nil
  | cons a rest ih =>
      rw [List.mapM_cons] at h
      cases ha : f a with
      | error e =>
          rw [ha] at h
          cases h
      | ok b =>
          cases hrest : rest.mapM f with
          | error e =>
              rw [ha, hrest] at h
              cases h
          | ok bs =>
              rw [ha, hrest] at h
              cases h
              exact .cons ha (ih hrest)

theorem getElem?_of_forall₂ {α β : Type} {R : α → β → Prop} {l : List α} {r : List β}
    (h : List.Forall₂ R l r) {i : Nat} {a : α} (hi : l[i]? = some a) :
    ∃ b, r[i]? = some b ∧ R a b := by
  induction h generalizing i with
  | nil => simp at hi
  | cons hab _ ih =>
      cases i with
      | zero =>
          cases hi
          exact ⟨_, rfl, hab⟩
      | succ i => exact ih hi

theorem mem_of_mapM {α β ε : Type} {f : α → Except ε β} {l : List α} {r : List β} {b : β}
    (h : l.mapM f = .ok r) (hb : b ∈ r) : ∃ a ∈ l, f a = .ok b := by
  obtain ⟨i, hi⟩ := List.mem_iff_getElem?.mp hb
  have hall : List.Forall₂ (fun b a => f a = .ok b) r l := (forall₂_of_mapM h).flip
  obtain ⟨a, ha, hab⟩ := getElem?_of_forall₂ hall hi
  exact ⟨a, List.mem_of_getElem? ha, hab⟩

namespace Digraph

theorem mem_successors {g : Digraph} {a b : Nat} : b ∈ g.successors a ↔ (a, b) ∈ g.edges := by
  simp only [successors, List.mem_filterMap]
  constructor
  · rintro ⟨⟨x, y⟩, hmem, hxy⟩
    split at hxy
    · cases hxy
      simp_all
    · cases hxy
  · intro h
    exact ⟨(a, b), h, by simp⟩

theorem mem_predecessors {g : Digraph} {a b : Nat} :
    a ∈ g.predecessors b ↔ (a, b) ∈ g.edges := by
  simp only [predecessors, List.mem_filterMap]
  constructor
  · rintro ⟨⟨x, y⟩, hmem, hxy⟩
    split at hxy
    · cases hxy
      simp_all
    · cases hxy
  · intro h
    exact ⟨(a, b), h, by simp⟩

/-- An order in which every vertex comes after its predecessors has nothing of a set whose
members all have a predecessor in it. -/
theorem not_mem_of_outOfOrder? {g : Digraph} {S : Nat → Prop}
    (hS : ∀ v, S v → ∃ u, S u ∧ u ≠ v ∧ (u, v) ∈ g.edges) {listed ordered : List Nat}
    (h : g.outOfOrder? listed ordered = none) (hlisted : ∀ x ∈ listed, ¬ S x) :
    ∀ x ∈ ordered, ¬ S x := by
  induction ordered generalizing listed with
  | nil => simp
  | cons v rest ih =>
      rw [outOfOrder?] at h
      split at h
      · cases h
      rename_i hfind
      have hv : ¬ S v := by
        intro hv
        obtain ⟨u, hu, hne, hedge⟩ := hS v hv
        have hin := List.find?_eq_none.mp hfind u (mem_predecessors.mpr hedge)
        have hmem : u ∈ v :: listed := by
          rw [List.mem_cons, or_iff_not_imp_left]
          simpa using hin
        rcases List.mem_cons.mp hmem with rfl | hmem
        · exact hne rfl
        · exact hlisted u hmem hu
      have hrest := ih h (List.forall_mem_cons.mpr ⟨hv, hlisted⟩)
      exact List.forall_mem_cons.mpr ⟨hv, hrest⟩

/-- The edges stay among the vertices and none is a loop. -/
structure Simple (g : Digraph) : Prop where
  below : ∀ e ∈ g.edges, e.1 < g.size ∧ e.2 < g.size
  loopless : ∀ e ∈ g.edges, e.1 ≠ e.2

theorem Simple.successors_lt {g : Digraph} (hg : g.Simple) :
    ∀ v < g.size, ∀ u ∈ g.successors v, u < g.size :=
  fun _ _ _ hu => (hg.below _ (mem_successors.mp hu)).2

theorem Simple.mem_reachable {g : Digraph} (hg : g.Simple) {a b : Nat} (ha : a < g.size) :
    b ∈ g.reachable a ↔ ReflTransGen (Edge g.successors) a b := by
  rw [reachable, mem_walk_finished hg.successors_lt (by simpa using ha)]
  simp

/-- Vertices that reach each other in an accepted order are the same. -/
theorem Simple.antisymm {g : Digraph} (hg : g.Simple)
    (h : g.outOfOrder? [] g.fullWalk.finished = none) {a b : Nat} (ha : a < g.size)
    (hab : ReflTransGen (Edge g.successors) a b) (hba : ReflTransGen (Edge g.successors) b a) :
    a = b := by
  by_contra hne
  have hfull : a ∈ g.fullWalk.finished := by
    rw [fullWalk, mem_walk_finished hg.successors_lt (by simp)]
    exact ⟨a, List.mem_range.mpr ha, .refl⟩
  -- The vertices between `a` and `a` all have a predecessor among them.
  refine not_mem_of_outOfOrder? (S := fun x => ReflTransGen (Edge g.successors) a x ∧
    ReflTransGen (Edge g.successors) x a) ?_ h (by simp) a hfull ⟨.refl, .refl⟩
  rintro v ⟨hav, hva⟩
  have hother : ∃ w, ReflTransGen (Edge g.successors) a w ∧ w ≠ v ∧
      ReflTransGen (Edge g.successors) w v := by
    by_cases hav' : a = v
    · exact ⟨b, hab, fun hbv => hne (hav'.trans hbv.symm), hav' ▸ hba⟩
    · exact ⟨a, .refl, hav', hav⟩
  obtain ⟨w, haw, hwv, hreach⟩ := hother
  rcases hreach.cases_tail with rfl | ⟨u, hwu, hedge⟩
  · exact absurd rfl hwv
  · have hmem := mem_successors.mp hedge
    exact ⟨u, ⟨haw.trans hwu, .head hedge hva⟩, hg.loopless _ hmem, hmem⟩

end Digraph

namespace Order

theorem tabulate_le {size : Nat} {le : Nat → Nat → Bool} {a b : Nat} :
    (tabulate size le).le a b = true ↔ a < size ∧ b < size ∧ le a b = true := by
  unfold tabulate Order.le
  by_cases ha : a < size
  · by_cases hb : b < size
    · simp [ha, hb]
    · simp [ha, hb]
  · simp [ha]

end Order

theorem leastOf_ok {le : Nat → Nat → Bool} {candidates : List Nat} {x : Nat}
    (h : leastOf le candidates = .ok x) :
    x ∈ candidates ∧ ∀ y ∈ candidates, le x y = true := by
  unfold leastOf at h
  split at h
  · cases h
    rename_i hfind
    exact ⟨List.mem_of_find?_eq_some hfind, by simpa using List.find?_some hfind⟩
  · cases h

namespace Hierarchy

/-- The qualifier is one of the hierarchy. -/
def Has (h : Hierarchy) (q : Qualifier) : Prop := q.index < h.size

/-- The qualifiers are ordered, and joins and meets are bounds. -/
structure Lawful (h : Hierarchy) : Prop where
  has_of_le : ∀ {a b : Qualifier}, h.isSubtype a b = true → h.Has a ∧ h.Has b
  le_refl : ∀ {a : Qualifier}, h.Has a → h.isSubtype a a = true
  le_trans : ∀ {a b c : Qualifier}, h.isSubtype a b = true → h.isSubtype b c = true →
    h.isSubtype a c = true
  le_antisymm : ∀ {a b : Qualifier}, h.isSubtype a b = true → h.isSubtype b a = true → a = b
  has_top : h.Has h.top
  le_top : ∀ {a : Qualifier}, h.Has a → h.isSubtype a h.top = true
  le_join_left : ∀ {a b : Qualifier}, h.Has a → h.Has b → h.isSubtype a (h.join a b) = true
  le_join_right : ∀ {a b : Qualifier}, h.Has a → h.Has b → h.isSubtype b (h.join a b) = true
  join_le : ∀ {a b c : Qualifier}, h.isSubtype a c = true → h.isSubtype b c = true →
    h.isSubtype (h.join a b) c = true
  meet_le_left : ∀ {a b : Qualifier}, h.Has a → h.Has b → h.isSubtype (h.meet a b) a = true
  meet_le_right : ∀ {a b : Qualifier}, h.Has a → h.Has b → h.isSubtype (h.meet a b) b = true
  le_meet : ∀ {a b c : Qualifier}, h.isSubtype c a = true → h.isSubtype c b = true →
    h.isSubtype c (h.meet a b) = true

theorem rows_ok {size : Nat} {cell : Nat → Nat → Except DeclarationError Nat}
    {table : Array (Array Qualifier)} (h : rows size cell = .ok table) {a b : Nat}
    (ha : a < size) (hb : b < size) (d : Qualifier) :
    ∃ x, cell a b = .ok x ∧ (table.getD a #[]).getD b d = ⟨x⟩ := by
  unfold rows at h
  cases hlists : (List.range size).mapM fun a =>
      (List.range size).mapM fun b => (cell a b).map Qualifier.mk with
  | error e =>
      rw [hlists] at h
      cases h
  | ok lists =>
      rw [hlists] at h
      cases h
      obtain ⟨row, hrow, hcells⟩ := getElem?_of_forall₂ (forall₂_of_mapM hlists)
        (List.getElem?_range ha)
      obtain ⟨q, hq, hcell⟩ := getElem?_of_forall₂ (forall₂_of_mapM hcells)
        (List.getElem?_range hb)
      cases hx : cell a b with
      | error e =>
          rw [hx] at hcell
          cases hcell
      | ok x =>
          rw [hx] at hcell
          cases hcell
          exact ⟨x, rfl, by simp [Array.getD_eq_getD_getElem?, hrow, hq]⟩

theorem resolveName_lt {names : List String} {name context : String} {i : Nat}
    (h : resolveName names name context = .ok i) : i < names.length := by
  unfold resolveName at h
  split at h
  · cases h
    rename_i hidx
    exact (List.findIdx?_eq_some_iff_getElem.mp hidx).1
  · cases h

theorem resolveSubtype_lt {names : List String} {declared : String × String} {e : Nat × Nat}
    (h : resolveSubtype names declared = .ok e) : e.1 < names.length ∧ e.2 < names.length := by
  simp only [resolveSubtype, bind, Except.bind, pure, Except.pure] at h
  split at h
  · cases h
  split at h
  · cases h
  cases h
  exact ⟨resolveName_lt ‹_›, resolveName_lt ‹_›⟩

theorem closure_le {g : Digraph} (hg : g.Simple) {a b : Nat} :
    (closure g).le a b = true ↔
      a < g.size ∧ b < g.size ∧ ReflTransGen (Digraph.Edge g.successors) a b := by
  rw [closure, Order.tabulate_le]
  refine and_congr_right fun ha => and_congr_right fun _ => ?_
  simp [ha, hg.mem_reachable ha]

/-- The order of an accepted declaration. -/
structure Ordered (o : Order) : Prop where
  below : ∀ {a b : Nat}, o.le a b = true → a < o.size ∧ b < o.size
  refl : ∀ {a : Nat}, a < o.size → o.le a a = true
  trans : ∀ {a b c : Nat}, o.le a b = true → o.le b c = true → o.le a c = true
  antisymm : ∀ {a b : Nat}, o.le a b = true → o.le b a = true → a = b

theorem Ordered.mem_upperBounds {o : Order} (ho : Ordered o) {a b c : Nat} :
    c ∈ o.upperBounds a b ↔ o.le a c = true ∧ o.le b c = true := by
  simp only [Order.upperBounds, List.mem_filter, Order.elements, List.mem_range,
    Bool.and_eq_true, and_iff_right_iff_imp]
  exact fun hc => (ho.below hc.1).2

theorem Ordered.mem_lowerBounds {o : Order} (ho : Ordered o) {a b c : Nat} :
    c ∈ o.lowerBounds a b ↔ o.le c a = true ∧ o.le c b = true := by
  simp only [Order.lowerBounds, List.mem_filter, Order.elements, List.mem_range,
    Bool.and_eq_true, and_iff_right_iff_imp]
  exact fun hc => (ho.below hc.1).1

theorem closure_ordered {g : Digraph} (hg : g.Simple)
    (h : g.outOfOrder? [] g.fullWalk.finished = none) : Ordered (closure g) where
  below hle := by
    obtain ⟨ha, hb, -⟩ := (closure_le hg).mp hle
    exact ⟨ha, hb⟩
  refl ha := (closure_le hg).mpr ⟨ha, ha, .refl⟩
  trans hab hbc := by
    obtain ⟨ha, -, hreach⟩ := (closure_le hg).mp hab
    obtain ⟨-, hc, hreach'⟩ := (closure_le hg).mp hbc
    exact (closure_le hg).mpr ⟨ha, hc, hreach.trans hreach'⟩
  antisymm hab hba := by
    obtain ⟨ha, -, hreach⟩ := (closure_le hg).mp hab
    obtain ⟨-, -, hreach'⟩ := (closure_le hg).mp hba
    exact hg.antisymm h ha hreach hreach'

/-- What is tabulated for an accepted order. -/
structure OfOrder (names : List String) (o : Order) (h : Hierarchy) : Prop where
  names : h.names = names
  order : h.order = o
  top : o.maximal = [h.top.index]
  joins : ∀ {a b : Nat}, a < o.size → b < o.size →
    ∃ x, o.join? a b = .ok x ∧ h.join ⟨a⟩ ⟨b⟩ = ⟨x⟩
  meets : ∀ {a b : Nat}, a < o.size → b < o.size →
    ∃ x, o.meet? a b = .ok x ∧ h.meet ⟨a⟩ ⟨b⟩ = ⟨x⟩

theorem mapError_ok {ε ε' α : Type} {f : ε → ε'} {x : Except ε α} {a : α}
    (h : x.mapError f = .ok a) : x = .ok a := by
  cases x with
  | error e => cases h
  | ok b =>
      cases h
      rfl

/-- The steps in which an order is tabulated. -/
theorem ofOrder_steps {names : List String} {o : Order} {ordered : List Nat} {h : Hierarchy}
    (hok : ofOrder names o ordered = .ok h) : ∃ top bottom joins meets,
    o.maximal = [top] ∧ o.minimal = [bottom] ∧
      (rows o.size fun a b => (o.join? a b).mapError fun found =>
        .noUniqueJoin (names.getD a "") (names.getD b "") (found.map (names.getD · ""))) =
          .ok joins ∧
      (rows o.size fun a b => (o.meet? a b).mapError fun found =>
        .noUniqueMeet (names.getD a "") (names.getD b "") (found.map (names.getD · ""))) =
          .ok meets ∧
      h = ⟨names, o, joins, meets, ⟨top⟩, ⟨bottom⟩, (o.chainLengths ordered).foldl max 0⟩ := by
  simp only [ofOrder, bind, Except.bind] at hok
  split at hok
  swap
  · cases hok
  rename_i top htop
  split at hok
  swap
  · cases hok
  rename_i bottom hbottom
  split at hok
  · cases hok
  rename_i joins hjoins
  split at hok
  · cases hok
  rename_i meets hmeets
  exact ⟨top, bottom, joins, meets, htop, hbottom, hjoins, hmeets, (Except.ok.inj hok).symm⟩

theorem ofOrder_ok {names : List String} {o : Order} {ordered : List Nat} {h : Hierarchy}
    (hok : ofOrder names o ordered = .ok h) : OfOrder names o h := by
  obtain ⟨top, bottom, joins, meets, htop, -, hjoins, hmeets, rfl⟩ := ofOrder_steps hok
  refine ⟨rfl, rfl, htop, fun ha hb => ?_, fun ha hb => ?_⟩
  · obtain ⟨x, hx, hcell⟩ := rows_ok hjoins ha hb ⟨top⟩
    exact ⟨x, mapError_ok hx, hcell⟩
  · obtain ⟨x, hx, hcell⟩ := rows_ok hmeets ha hb ⟨bottom⟩
    exact ⟨x, mapError_ok hx, hcell⟩

/-- Joins and meets of an ordered table are bounds, and the only maximal element is above
all others. -/
theorem OfOrder.lawful {names : List String} {o : Order} {h : Hierarchy}
    (hof : OfOrder names o h) (ho : Ordered o) (hsize : o.size = names.length) : h.Lawful := by
  have hhas {q : Qualifier} : h.Has q ↔ q.index < o.size := by
    rw [Has, size, hof.names, hsize]
  have hle {a b : Qualifier} : h.isSubtype a b = true ↔ o.le a.index b.index = true := by
    rw [isSubtype, hof.order]
  have hjoin {a b : Qualifier} (ha : h.Has a) (hb : h.Has b) :
      ∃ x ∈ o.upperBounds a.index b.index, h.join a b = ⟨x⟩ ∧
        ∀ y ∈ o.upperBounds a.index b.index, o.le x y = true := by
    obtain ⟨x, hx, heq⟩ := hof.joins (hhas.mp ha) (hhas.mp hb)
    obtain ⟨hmem, hleast⟩ := leastOf_ok hx
    exact ⟨x, hmem, heq, hleast⟩
  have hmeet {a b : Qualifier} (ha : h.Has a) (hb : h.Has b) :
      ∃ x ∈ o.lowerBounds a.index b.index, h.meet a b = ⟨x⟩ ∧
        ∀ y ∈ o.lowerBounds a.index b.index, o.le y x = true := by
    obtain ⟨x, hx, heq⟩ := hof.meets (hhas.mp ha) (hhas.mp hb)
    obtain ⟨hmem, hleast⟩ := leastOf_ok hx
    exact ⟨x, hmem, heq, hleast⟩
  have hmaximal : h.top.index ∈ o.maximal := by simp [hof.top]
  have htop : h.Has h.top := hhas.mpr (by
    simpa [Order.elements] using (List.mem_filter.mp hmaximal).1)
  have hjoinle {a b c : Qualifier} (hac : h.isSubtype a c = true) (hbc : h.isSubtype b c = true) :
      h.isSubtype (h.join a b) c = true := by
    obtain ⟨ha, hc⟩ := ho.below (hle.mp hac)
    obtain ⟨hb, -⟩ := ho.below (hle.mp hbc)
    obtain ⟨x, -, heq, hleast⟩ := hjoin (hhas.mpr ha) (hhas.mpr hb)
    rw [hle, heq]
    exact hleast c.index (ho.mem_upperBounds.mpr ⟨hle.mp hac, hle.mp hbc⟩)
  exact {
    has_of_le := fun h => (ho.below (hle.mp h)).imp hhas.mpr hhas.mpr
    le_refl := fun h => hle.mpr (ho.refl (hhas.mp h))
    le_trans := fun h h' => hle.mpr (ho.trans (hle.mp h) (hle.mp h'))
    le_antisymm := fun h h' => by
      have := ho.antisymm (hle.mp h) (hle.mp h')
      exact congrArg Qualifier.mk this
    has_top := htop
    le_top := fun {a} ha => by
      -- The join with the top is above the top, so it is the top.
      obtain ⟨x, hmem, -, -⟩ := hjoin ha htop
      obtain ⟨hax, htx⟩ := ho.mem_upperBounds.mp hmem
      have hx := (ho.below hax).2
      have hall := (List.mem_filter.mp hmaximal).2
      have hxt := List.all_eq_true.mp hall x (List.mem_range.mpr hx)
      rw [htx, Bool.not_true, Bool.or_false, decide_eq_true_eq] at hxt
      rw [hle, hxt]
      exact hax
    le_join_left := fun ha hb => by
      obtain ⟨x, hmem, heq, -⟩ := hjoin ha hb
      rw [hle, heq]
      exact (ho.mem_upperBounds.mp hmem).1
    le_join_right := fun ha hb => by
      obtain ⟨x, hmem, heq, -⟩ := hjoin ha hb
      rw [hle, heq]
      exact (ho.mem_upperBounds.mp hmem).2
    join_le := hjoinle
    meet_le_left := fun ha hb => by
      obtain ⟨x, hmem, heq, -⟩ := hmeet ha hb
      rw [hle, heq]
      exact (ho.mem_lowerBounds.mp hmem).1
    meet_le_right := fun ha hb => by
      obtain ⟨x, hmem, heq, -⟩ := hmeet ha hb
      rw [hle, heq]
      exact (ho.mem_lowerBounds.mp hmem).2
    le_meet := fun {a b c} hca hcb => by
      obtain ⟨hc, ha⟩ := ho.below (hle.mp hca)
      obtain ⟨-, hb⟩ := ho.below (hle.mp hcb)
      obtain ⟨x, -, heq, hleast⟩ := hmeet (hhas.mpr ha) (hhas.mpr hb)
      rw [hle, heq]
      exact hleast c.index (ho.mem_lowerBounds.mpr ⟨hle.mp hca, hle.mp hcb⟩) }

/-- The graph of the declarations, without those about one name only. -/
abbrev declaredGraph (names : List String) (edges : List (Nat × Nat)) : Digraph :=
  .ofEdges names.length (edges.filter fun e => e.1 ≠ e.2)

section Built

variable {names : List String} {subtypes : List (String × String)} {h : Hierarchy}

theorem declaredGraph_simple {edges : List (Nat × Nat)}
    (hedges : subtypes.mapM (resolveSubtype names) = .ok edges) :
    (declaredGraph names edges).Simple where
  below e he := by
    obtain ⟨declared, -, hresolved⟩ :=
      mem_of_mapM hedges (List.mem_filter.mp (Digraph.mem_distinct.mp he)).1
    exact resolveSubtype_lt hresolved
  loopless e he := by simpa using (List.mem_filter.mp (Digraph.mem_distinct.mp he)).2

/-- The steps in which a hierarchy is built. -/
theorem build_ok (hok : build names subtypes = .ok h) : ∃ edges,
    subtypes.mapM (resolveSubtype names) = .ok edges ∧
      (declaredGraph names edges).outOfOrder? [] (declaredGraph names edges).fullWalk.finished =
        none ∧
      ofOrder names (closure (declaredGraph names edges))
        (declaredGraph names edges).fullWalk.finished = .ok h := by
  simp only [build, bind, Except.bind, throw, throwThe, MonadExceptOf.throw] at hok
  split at hok
  · cases hok
  split at hok
  · cases hok
  split at hok
  · cases hok
  rename_i edges hedges
  split at hok
  · cases hok
  rename_i hacyclic
  exact ⟨edges, hedges, Option.eq_none_iff_forall_ne_some.mpr hacyclic, hok⟩

/-- Every hierarchy that a declaration builds is a lattice. -/
theorem build_lawful (hok : build names subtypes = .ok h) : h.Lawful := by
  obtain ⟨edges, hedges, hacyclic, hok⟩ := build_ok hok
  exact (ofOrder_ok hok).lawful (closure_ordered (declaredGraph_simple hedges) hacyclic) rfl

end Built

end Hierarchy

end FlowTyping
