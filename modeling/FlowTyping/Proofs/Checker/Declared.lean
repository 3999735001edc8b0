import FlowTyping.Proofs.Checker.Lattice
import FlowTyping.Proofs.Graph.Postorder
import Mathlib.Order.Bounds.Basic
import Mathlib.Order.Preorder.Finite

/-!
The vertex for which an order is refused lies on a cycle: a walk lists the target of an
edge before its source only where the target leads back to the source.
-/

namespace FlowTyping

namespace Digraph

open Relation

variable {g : Digraph} {listed ordered : List Nat} {a b : Nat}

/-- The vertices that reach one another. -/
def Mutual (g : Digraph) (a b : Nat) : Prop :=
  ReflTransGen (Edge g.successors) a b ∧ ReflTransGen (Edge g.successors) b a

theorem outOfOrder?_some (h : g.outOfOrder? listed ordered = some a) :
    ∃ before b after, ordered = before ++ b :: after ∧ (a, b) ∈ g.edges ∧ a ≠ b ∧
      a ∉ before ∧ a ∉ listed := by
  induction ordered generalizing listed with
  | nil => cases h
  | cons v rest ih =>
      rw [outOfOrder?] at h
      split at h
      · rename_i u hfind
        cases h
        have hnew : a ∉ v :: listed := by simpa using List.find?_some hfind
        have hedge := mem_predecessors.mp (List.mem_of_find?_eq_some hfind)
        exact ⟨[], v, rest, rfl, hedge, fun heq => hnew (by simp [heq]), by simp,
          fun hin => hnew (List.mem_cons_of_mem v hin)⟩
      · obtain ⟨before, b, after, rfl, hedge, hne, hbefore, hnew⟩ := ih h
        refine ⟨v :: before, b, after, rfl, hedge, hne, ?_, ?_⟩
        · rintro (_ | ⟨_, hin⟩)
          · exact hnew List.mem_cons_self
          · exact hbefore hin
        · exact fun hin => hnew (List.mem_cons_of_mem v hin)

/-- The order in which the whole graph is finished, the last vertex first. -/
theorem Simple.fullWalk_grown (hg : g.Simple) :
    Grown g.successors (List.range g.size) .start g.fullWalk g.fullWalk.finished := by
  have hvisit (w : Walk) (hw : w.Fits g.size) (hfuel : g.size < g.size + 1 + w.seen.length)
      (u : Nat) (hu : u < g.size) :
      Exhausts g.successors g.size [u] w (visit g.successors (g.size + 1) w u) ∧
        ∃ added, Grown g.successors [u] w (visit g.successors (g.size + 1) w u) added :=
    ⟨visit_exhausts hg.successors_lt hw hfuel hu, visit_grown hg.successors_lt hw hfuel hu⟩
  obtain ⟨added, hadded⟩ := Grown.foldl hvisit (Walk.start_fits g.size)
    (Nat.lt_succ_self (g.size + 0)) (fun _ hr => List.mem_range.mp hr)
  have hfinished : g.fullWalk.finished = added :=
    hadded.finished.trans (List.append_nil added)
  rwa [hfinished]

theorem Simple.mem_fullWalk (hg : g.Simple) : a ∈ g.fullWalk.finished ↔ a < g.size := by
  rw [fullWalk, mem_walk_finished hg.successors_lt (by simp)]
  constructor
  · rintro ⟨r, hr, hreach⟩
    rcases hreach.cases_tail with rfl | ⟨p, -, hedge⟩
    · exact List.mem_range.mp hr
    · exact (hg.below _ (mem_successors.mp hedge)).2
  · intro ha
    exact ⟨a, List.mem_range.mpr ha, .refl⟩

/-- The vertex for which the order of a walk is refused lies on a cycle. -/
theorem Simple.mutual_of_outOfOrder? (hg : g.Simple)
    (h : g.outOfOrder? [] g.fullWalk.finished = some a) :
    ∃ b, (a, b) ∈ g.edges ∧ a ≠ b ∧ g.Mutual a b := by
  obtain ⟨before, b, after, horder, hedge, hne, hbefore, -⟩ := outOfOrder?_some h
  have hgrown := hg.fullWalk_grown
  have ha : a ∈ g.fullWalk.finished := hg.mem_fullWalk.mpr (hg.below _ hedge).1
  have hb : b ∈ g.fullWalk.finished := by simp [horder]
  have hsucc : b ∈ g.successors a := mem_successors.mpr hedge
  -- `b` is listed before `a`, and nothing is listed twice.
  have hback : ¬ List.Sublist [a, b] g.fullWalk.finished := by
    intro hsub
    have hlt := idxOf_lt_of_sublist hgrown.nodup hsub
    have hplace : before.idxOf b ≤ before.length := List.idxOf_le_length
    rw [horder, List.idxOf_append, List.idxOf_append, if_neg hbefore] at hlt
    split at hlt
    · omega
    · rw [List.idxOf_cons_self] at hlt
      omega
  have hascends := hgrown.back a ha b hb hsucc hback
  exact ⟨b, hedge, hne, .single hsucc, ReflTransGen.mono (fun _ _ hstep => hstep.1) _ _ hascends⟩

end Digraph

end FlowTyping

/-!
The order that subtype declarations generate on the names of a hierarchy, and what the
search for extreme elements finds in its table.
-/

namespace FlowTyping

open Relation

/-- A name of a hierarchy. The names are ordered by what is declared of them. -/
@[ext]
structure DeclaredName (names : List String) (subtypes : List (String × String)) where
  name : String
  mem : name ∈ names

namespace DeclaredName

variable {names : List String} {subtypes : List (String × String)}

instance : Preorder (DeclaredName names subtypes) where
  le a b := ReflTransGen (fun sub sup => (sub, sup) ∈ subtypes) a.name b.name
  le_refl _ := .refl
  le_trans _ _ _ := .trans

instance : Finite (DeclaredName names subtypes) := by
  refine Finite.of_injective (β := {name // name ∈ names}) (fun a => ⟨a.name, a.mem⟩) ?_
  intro a b hab
  exact DeclaredName.ext (congrArg Subtype.val hab)

/-- The name at a place of the list. -/
def nth (subtypes : List (String × String)) (i : Fin names.length) : DeclaredName names subtypes :=
  ⟨names.get i, List.getElem_mem i.isLt⟩

theorem exists_nth (a : DeclaredName names subtypes) : ∃ i, a = .nth subtypes i := by
  obtain ⟨i, hi, heq⟩ := List.getElem_of_mem a.mem
  exact ⟨⟨i, hi⟩, DeclaredName.ext heq.symm⟩

theorem nth_injective (hnodup : names.Nodup) :
    Function.Injective (nth subtypes : Fin names.length → DeclaredName names subtypes) := by
  intro i j hij
  have hnames : names.get i = names.get j := congrArg DeclaredName.name hij
  exact Fin.ext ((hnodup.getElem_inj_iff).mp hnames)

end DeclaredName

section Lattices

variable {α : Type} [Preorder α]

/-- Where any two elements have a least upper bound and something is below all others, any
two have a greatest lower bound. -/
theorem exists_isGLB_of_exists_isLUB [Finite α] (hjoin : ∀ a b : α, ∃ c, IsLUB {a, b} c)
    (hbot : ∃ b : α, IsBot b) (s : Set α) : ∃ c, IsGLB s c := by
  have hsup (t : Set α) : ∃ c, IsLUB t c := by
    induction t, t.toFinite using Set.Finite.induction_on with
    | empty =>
        obtain ⟨b, hb⟩ := hbot
        exact ⟨b, isLUB_empty_iff.mpr hb⟩
    | @insert a t _ _ ih =>
        obtain ⟨m, hm⟩ := ih
        obtain ⟨c, hc⟩ := hjoin a m
        refine ⟨c, (isLUB_congr ?_).mp hc⟩
        rw [upperBounds_insert, upperBounds_insert, hm.upperBounds_eq, upperBounds_singleton]
  obtain ⟨c, hc⟩ := hsup (lowerBounds s)
  exact ⟨c, isLUB_lowerBounds.mp hc⟩

theorem exists_isTop_of_exists_isLUB [Finite α] [Nonempty α]
    (hjoin : ∀ a b : α, ∃ c, IsLUB {a, b} c) : ∃ t : α, IsTop t := by
  obtain ⟨t, -, ht⟩ := Finite.exists_le_maximal (p := fun _ : α => True)
    (a := Classical.arbitrary α) trivial
  refine ⟨t, fun a => ?_⟩
  obtain ⟨c, hc⟩ := hjoin a t
  exact (hc.1 (by simp)).trans (ht.2 trivial (hc.1 (by simp)))

/-- In a finite order the greatest element is the only one below no other. -/
theorem isTop_iff_forall_isMax [Finite α] (hanti : ∀ a b : α, a ≤ b → b ≤ a → a = b) {t : α} :
    IsTop t ↔ ∀ x, IsMax x ↔ x = t := by
  constructor
  · intro ht x
    constructor
    · intro hx
      exact hanti x t (ht x) (hx (ht x))
    · rintro rfl
      exact ht.isMax
  · intro hmax x
    obtain ⟨m, hxm, hm⟩ := Finite.exists_le_maximal (p := fun _ : α => True) (a := x) trivial
    rwa [(hmax m).mp (maximal_true.mp hm)] at hxm

theorem isBot_iff_forall_isMin [Finite α] (hanti : ∀ a b : α, a ≤ b → b ≤ a → a = b) {b : α} :
    IsBot b ↔ ∀ x, IsMin x ↔ x = b :=
  isTop_iff_forall_isMax (α := αᵒᵈ) fun x y hxy hyx => hanti x y hyx hxy

end Lattices

variable {names : List String} {subtypes : List (String × String)}

/-- The names with a property, in the order in which they are declared. -/
structure Lists (P : DeclaredName names subtypes → Prop) (found : List String) : Prop where
  sublist : found.Sublist names
  mem_iff : ∀ name, name ∈ found ↔ ∃ h : name ∈ names, P ⟨name, h⟩

theorem Lists.congr {P Q : DeclaredName names subtypes → Prop} {found : List String}
    (h : Lists P found) (hPQ : ∀ a, P a ↔ Q a) : Lists Q found where
  sublist := h.sublist
  mem_iff name := (h.mem_iff name).trans (exists_congr fun _ => hPQ _)

theorem lists_filter {P : DeclaredName names subtypes → Prop} {p : Nat → Bool}
    (h : ∀ i : Fin names.length, p i = true ↔ P (.nth subtypes i)) :
    Lists P (((List.range names.length).filter p).map fun i => names.getD i "") := by
  have hall : (List.range names.length).map (fun i => names.getD i "") = names := by
    refine List.ext_getElem (by simp) fun i _ hi => ?_
    simp [hi]
  constructor
  · conv_rhs => rw [← hall]
    exact List.filter_sublist.map _
  · intro name
    simp only [List.mem_map, List.mem_filter, List.mem_range]
    constructor
    · rintro ⟨i, ⟨hi, hp⟩, rfl⟩
      have hname : names.getD i "" = names[i] := by simp [hi]
      simp only [hname]
      exact ⟨List.getElem_mem hi, (h ⟨i, hi⟩).mp hp⟩
    · rintro ⟨hmem, hP⟩
      obtain ⟨i, hi, rfl⟩ := List.getElem_of_mem hmem
      exact ⟨i, ⟨hi, (h ⟨i, hi⟩).mpr hP⟩, by simp [hi]⟩

/-- The least of some candidates is the least name with their property. -/
theorem leastOf_isLeast {P : DeclaredName names subtypes → Prop}
    {r : DeclaredName names subtypes → DeclaredName names subtypes → Prop}
    {le : Nat → Nat → Bool} {p : Nat → Bool}
    (hle : ∀ a b : Fin names.length, le a b = true ↔ r (.nth subtypes a) (.nth subtypes b))
    (hp : ∀ a : Fin names.length, p a = true ↔ P (.nth subtypes a)) {x : Nat}
    (h : leastOf le ((List.range names.length).filter p) = .ok x) :
    ∃ a : Fin names.length, x = a ∧ P (.nth subtypes a) ∧ ∀ b, P b → r (.nth subtypes a) b := by
  obtain ⟨hmem, hleast⟩ := leastOf_ok h
  obtain ⟨hx, hpx⟩ := List.mem_filter.mp hmem
  refine ⟨⟨x, List.mem_range.mp hx⟩, rfl, (hp _).mp hpx, fun b hb => ?_⟩
  obtain ⟨i, rfl⟩ := b.exists_nth
  refine (hle ⟨x, _⟩ i).mp (hleast i (List.mem_filter.mpr ⟨?_, (hp i).mpr hb⟩))
  exact List.mem_range.mpr i.isLt

theorem leastOf_error {le : Nat → Nat → Bool} {candidates found : List Nat}
    (h : leastOf le candidates = .error found) :
    found = candidates.filter (fun x => !candidates.any fun y => y ≠ x && le y x) ∧
      ∀ x ∈ candidates, ∃ y ∈ candidates, le x y = false := by
  unfold leastOf at h
  split at h
  · cases h
  · rename_i hfind
    cases h
    refine ⟨rfl, fun x hx => ?_⟩
    simpa using List.find?_eq_none.mp hfind x hx

/-- Where no candidate is the least, the names found are those with none other below. -/
theorem leastOf_lists {P : DeclaredName names subtypes → Prop}
    {r : DeclaredName names subtypes → DeclaredName names subtypes → Prop}
    {le : Nat → Nat → Bool} {p : Nat → Bool} (hnodup : names.Nodup)
    (hle : ∀ a b : Fin names.length, le a b = true ↔ r (.nth subtypes a) (.nth subtypes b))
    (hp : ∀ a : Fin names.length, p a = true ↔ P (.nth subtypes a)) {found : List Nat}
    (h : leastOf le ((List.range names.length).filter p) = .error found) :
    (∀ a, P a → ∃ b, P b ∧ ¬ r a b) ∧
      Lists (fun a => P a ∧ ∀ b, P b → r b a → b = a) (found.map fun i => names.getD i "") := by
  obtain ⟨rfl, hnone⟩ := leastOf_error h
  constructor
  · intro a ha
    obtain ⟨i, rfl⟩ := a.exists_nth
    obtain ⟨y, hy, hlt⟩ := hnone i (List.mem_filter.mpr ⟨List.mem_range.mpr i.isLt, (hp i).mpr ha⟩)
    obtain ⟨hylt, hpy⟩ := List.mem_filter.mp hy
    refine ⟨.nth subtypes ⟨y, List.mem_range.mp hylt⟩, (hp _).mp hpy, fun hr => ?_⟩
    have := (hle i ⟨y, List.mem_range.mp hylt⟩).mpr hr
    simp_all
  · rw [List.filter_filter]
    refine lists_filter fun i => ?_
    rw [Bool.and_eq_true, hp i, and_comm]
    refine and_congr_right fun _ => ?_
    simp only [List.any_filter, Bool.not_eq_true', List.any_eq_false, List.mem_range]
    constructor
    · intro hall b hb hba
      obtain ⟨j, rfl⟩ := b.exists_nth
      have hj := hall j j.isLt
      by_contra hne
      have hne' : (j : Nat) ≠ i := fun heq => hne (congrArg _ (Fin.ext heq))
      simp [(hp j).mpr hb, (hle j i).mpr hba, hne'] at hj
    · intro hall y hy
      by_contra hcon
      simp only [Bool.and_eq_true, ne_eq, decide_not, Bool.not_eq_true',
        decide_eq_false_iff_not] at hcon
      obtain ⟨hpy, hne, hley⟩ := hcon
      have heq := hall (.nth subtypes ⟨y, hy⟩) ((hp ⟨y, hy⟩).mp hpy) ((hle ⟨y, hy⟩ i).mp hley)
      exact hne (congrArg Fin.val (DeclaredName.nth_injective hnodup heq))

/-- A table of an order of the declared names. -/
structure Tables (names : List String) (subtypes : List (String × String)) (o : Order) : Prop where
  nodup : names.Nodup
  antisymm : ∀ a b : DeclaredName names subtypes, a ≤ b → b ≤ a → a = b
  size : o.size = names.length
  le_iff : ∀ a b : Fin names.length,
    o.le a b = true ↔ DeclaredName.nth subtypes a ≤ DeclaredName.nth subtypes b

namespace Tables

variable {o : Order}

theorem elements (ho : Tables names subtypes o) : o.elements = List.range names.length := by
  rw [Order.elements, ho.size]

theorem nth_inj (ho : Tables names subtypes o) {a b : Fin names.length} :
    DeclaredName.nth subtypes a = DeclaredName.nth subtypes b ↔ (a : Nat) = b :=
  (DeclaredName.nth_injective ho.nodup).eq_iff.trans Fin.ext_iff

/-- The elements that the search for a top keeps are the maximal names. -/
theorem isMax_nth (ho : Tables names subtypes o) (a : Fin names.length) :
    (o.elements.all fun b => a = b || !o.le a b) = true ↔ IsMax (DeclaredName.nth subtypes a) := by
  rw [ho.elements, List.all_eq_true]
  constructor
  · intro hall y hxy
    obtain ⟨b, rfl⟩ := y.exists_nth
    have hb := hall b (List.mem_range.mpr b.isLt)
    rw [(ho.le_iff a b).mpr hxy, Bool.not_true, Bool.or_false, decide_eq_true_eq] at hb
    exact (ho.nth_inj.mpr hb).ge
  · intro hmax b hb
    rw [Bool.or_eq_true, decide_eq_true_eq, Bool.not_eq_true', ← Bool.not_eq_true,
      ← imp_iff_or_not]
    intro hle
    have hab := (ho.le_iff a ⟨b, List.mem_range.mp hb⟩).mp hle
    exact ho.nth_inj.mp (ho.antisymm _ _ hab (hmax hab))

theorem isMin_nth (ho : Tables names subtypes o) (a : Fin names.length) :
    (o.elements.all fun b => a = b || !o.le b a) = true ↔ IsMin (DeclaredName.nth subtypes a) := by
  rw [ho.elements, List.all_eq_true]
  constructor
  · intro hall y hyx
    obtain ⟨b, rfl⟩ := y.exists_nth
    have hb := hall b (List.mem_range.mpr b.isLt)
    rw [(ho.le_iff b a).mpr hyx, Bool.not_true, Bool.or_false, decide_eq_true_eq] at hb
    exact (ho.nth_inj.mpr hb).le
  · intro hmin b hb
    rw [Bool.or_eq_true, decide_eq_true_eq, Bool.not_eq_true', ← Bool.not_eq_true,
      ← imp_iff_or_not]
    intro hle
    have hba := (ho.le_iff ⟨b, List.mem_range.mp hb⟩ a).mp hle
    exact ho.nth_inj.mp (ho.antisymm _ _ (hmin hba) hba)

/-- A search finds one element exactly where one name has the property searched for. -/
theorem filter_eq_singleton (ho : Tables names subtypes o)
    {P : DeclaredName names subtypes → Prop} {p : Nat → Bool}
    (hp : ∀ i : Fin names.length, p i = true ↔ P (.nth subtypes i)) (t : Fin names.length) :
    o.elements.filter p = [t.val] ↔ ∀ x, P x ↔ x = .nth subtypes t := by
  have hmem (i : Fin names.length) : i.val ∈ o.elements.filter p ↔ P (.nth subtypes i) := by
    rw [ho.elements, List.mem_filter, hp i]
    exact and_iff_right (List.mem_range.mpr i.isLt)
  constructor
  · intro hsingle x
    obtain ⟨i, rfl⟩ := x.exists_nth
    rw [← hmem, hsingle, List.mem_singleton, ho.nth_inj]
  · intro hP
    have hnodup : (o.elements.filter p).Nodup := by
      rw [ho.elements]
      exact List.nodup_range.filter p
    rw [← List.perm_singleton, List.perm_ext_iff_of_nodup hnodup (List.nodup_singleton _)]
    intro i
    rw [List.mem_singleton]
    constructor
    · intro hi
      have hlt : i < names.length := by
        rw [ho.elements, List.mem_filter, List.mem_range] at hi
        exact hi.1
      exact ho.nth_inj.mp ((hP _).mp ((hmem ⟨i, hlt⟩).mp hi))
    · rintro rfl
      exact (hmem t).mpr ((hP _).mpr rfl)

theorem lists_maximal (ho : Tables names subtypes o) :
    Lists (IsMax : DeclaredName names subtypes → Prop)
      (o.maximal.map fun i => names.getD i "") := by
  rw [Order.maximal, ho.elements]
  refine lists_filter fun i => ?_
  rw [← ho.isMax_nth, ho.elements]

theorem lists_minimal (ho : Tables names subtypes o) :
    Lists (IsMin : DeclaredName names subtypes → Prop)
      (o.minimal.map fun i => names.getD i "") := by
  rw [Order.minimal, ho.elements]
  refine lists_filter fun i => ?_
  rw [← ho.isMin_nth, ho.elements]

theorem maximal_eq_singleton (ho : Tables names subtypes o) (t : Fin names.length) :
    o.maximal = [t.val] ↔ IsTop (DeclaredName.nth subtypes t) := by
  rw [isTop_iff_forall_isMax ho.antisymm]
  exact ho.filter_eq_singleton ho.isMax_nth t

theorem minimal_eq_singleton (ho : Tables names subtypes o) (t : Fin names.length) :
    o.minimal = [t.val] ↔ IsBot (DeclaredName.nth subtypes t) := by
  rw [isBot_iff_forall_isMin ho.antisymm]
  exact ho.filter_eq_singleton ho.isMin_nth t

theorem join?_ok (ho : Tables names subtypes o) {a b : Fin names.length} {x : Nat}
    (h : o.join? a b = .ok x) : ∃ c : Fin names.length, x = c ∧
      IsLUB {DeclaredName.nth subtypes a, DeclaredName.nth subtypes b} (.nth subtypes c) := by
  rw [Order.join?, Order.upperBounds, ho.elements] at h
  refine leastOf_isLeast (r := (· ≤ ·)) (P := (· ∈ upperBounds {.nth subtypes a, .nth subtypes b}))
    ho.le_iff (fun c => ?_) h
  simp [ho.le_iff]

theorem meet?_ok (ho : Tables names subtypes o) {a b : Fin names.length} {x : Nat}
    (h : o.meet? a b = .ok x) : ∃ c : Fin names.length, x = c ∧
      IsGLB {DeclaredName.nth subtypes a, DeclaredName.nth subtypes b} (.nth subtypes c) := by
  rw [Order.meet?, Order.lowerBounds, ho.elements] at h
  refine leastOf_isLeast (r := (· ≥ ·)) (P := (· ∈ lowerBounds {.nth subtypes a, .nth subtypes b}))
    (fun c d => ho.le_iff d c) (fun c => ?_) h
  simp [ho.le_iff]

theorem join?_error (ho : Tables names subtypes o) {a b : Fin names.length} {found : List Nat}
    (h : o.join? a b = .error found) :
    (¬ ∃ c, IsLUB {DeclaredName.nth subtypes a, DeclaredName.nth subtypes b} c) ∧
      Lists (Minimal (· ∈ upperBounds {DeclaredName.nth subtypes a, DeclaredName.nth subtypes b}))
        (found.map fun i => names.getD i "") := by
  rw [Order.join?, Order.upperBounds, ho.elements] at h
  obtain ⟨hnone, hlists⟩ := leastOf_lists (r := (· ≤ ·))
    (P := (· ∈ upperBounds {.nth subtypes a, .nth subtypes b})) ho.nodup ho.le_iff
    (fun c => by simp [ho.le_iff]) h
  constructor
  · rintro ⟨c, hc⟩
    obtain ⟨d, hd, hcd⟩ := hnone c hc.1
    exact hcd (hc.2 hd)
  · refine hlists.congr fun c => and_congr_right fun _ => forall₂_congr fun d _ => ?_
    exact ⟨fun h hdc => (h hdc).ge, fun h hdc => ho.antisymm d c hdc (h hdc)⟩

/-- Where any two names have a least upper bound and one name is below all others, no
greatest lower bound is missing. -/
theorem meet?_ne_error (ho : Tables names subtypes o)
    (hjoin : ∀ a b : DeclaredName names subtypes, ∃ c, IsLUB {a, b} c)
    (hbot : ∃ b : DeclaredName names subtypes, IsBot b) (a b : Fin names.length)
    {found : List Nat} : o.meet? a b ≠ .error found := by
  intro h
  rw [Order.meet?, Order.lowerBounds, ho.elements] at h
  have hnone := (leastOf_lists (r := (· ≥ ·))
    (P := (· ∈ lowerBounds {.nth subtypes a, .nth subtypes b})) ho.nodup
    (fun c d => ho.le_iff d c) (fun c => by simp [ho.le_iff]) h).1
  obtain ⟨c, hc⟩ := exists_isGLB_of_exists_isLUB hjoin hbot
    {DeclaredName.nth subtypes a, DeclaredName.nth subtypes b}
  obtain ⟨d, hd, hcd⟩ := hnone c hc.1
  exact hcd (hc.2 hd)

end Tables

end FlowTyping
