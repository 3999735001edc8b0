import FlowTyping.Proofs.Checker.Declared
import FlowTyping.Proofs.Flow.Errors

/-!
Hierarchies are built from exactly the declarations that generate a lattice. The tables of
a hierarchy are those of the lattice, and a refusal gives the first reason that applies.
-/

namespace FlowTyping

open Relation

/-- A search through a list fails at its first item that fails. -/
theorem mapM_error_first {α β ε : Type} {f : α → Except ε β} {l : List α} {e : ε}
    (h : l.mapM f = .error e) :
    ∃ before a after, l = before ++ a :: after ∧ f a = .error e ∧
      ∀ x ∈ before, ∃ y, f x = .ok y := by
  induction l with
  | nil => cases h
  | cons a rest ih =>
      rw [List.mapM_cons] at h
      rcases bind_error.mp h with h | ⟨y, hy, h⟩
      · exact ⟨[], a, rest, rfl, h, by simp⟩
      rcases bind_error.mp h with h | ⟨_, -, h⟩
      · obtain ⟨before, b, after, rfl, hb, hbefore⟩ := ih h
        exact ⟨a :: before, b, after, rfl, hb, List.forall_mem_cons.mpr ⟨⟨y, hy⟩, hbefore⟩⟩
      · cases h

/-- The names of a declaration are told apart. -/
structure Distinct (names : List String) : Prop where
  nonempty : names ≠ []
  nodup : names.Nodup

/-- The declarations are about the names. -/
structure Known (names : List String) (subtypes : List (String × String)) : Prop
    extends Distinct names where
  known : ∀ d ∈ subtypes, d.1 ∈ names ∧ d.2 ∈ names

/-- The declarations order the names. -/
structure IsPoset (names : List String) (subtypes : List (String × String)) : Prop
    extends Known names subtypes where
  antisymm : ∀ a b : DeclaredName names subtypes, a ≤ b → b ≤ a → a = b

/-- The declarations order the names as a lattice. -/
structure IsLattice (names : List String) (subtypes : List (String × String)) : Prop
    extends IsPoset names subtypes where
  joins : ∀ a b : DeclaredName names subtypes, ∃ c, IsLUB {a, b} c
  meets : ∀ a b : DeclaredName names subtypes, ∃ c, IsGLB {a, b} c

/-- The tables of a hierarchy hold the order of the names and its bounds. -/
structure Tabulates (names : List String) (subtypes : List (String × String)) (h : Hierarchy) :
    Prop where
  names_eq : h.names = names
  lookup : ∀ a : Fin names.length, h.lookup? (names.get a) = some ⟨a⟩
  isSubtype_iff : ∀ a b : Fin names.length, h.isSubtype ⟨a⟩ ⟨b⟩ = true ↔
    DeclaredName.nth subtypes a ≤ DeclaredName.nth subtypes b
  join : ∀ a b : Fin names.length, ∃ c : Fin names.length, h.join ⟨a⟩ ⟨b⟩ = ⟨c⟩ ∧
    IsLUB {DeclaredName.nth subtypes a, DeclaredName.nth subtypes b} (.nth subtypes c)
  meet : ∀ a b : Fin names.length, ∃ c : Fin names.length, h.meet ⟨a⟩ ⟨b⟩ = ⟨c⟩ ∧
    IsGLB {DeclaredName.nth subtypes a, DeclaredName.nth subtypes b} (.nth subtypes c)
  top : ∃ c : Fin names.length, h.top = ⟨c⟩ ∧ IsTop (DeclaredName.nth subtypes c)
  bottom : ∃ c : Fin names.length, h.bottom = ⟨c⟩ ∧ IsBot (DeclaredName.nth subtypes c)

/-- The first reason for which declarations generate no lattice. -/
inductive Refuses (names : List String) (subtypes : List (String × String)) :
    DeclarationError → Prop
  | empty (h : names = []) : Refuses names subtypes .emptyHierarchy
  | duplicate {before after : List String} {name : String}
      (split : names = before ++ name :: after) (first : before.Nodup) (again : name ∈ before) :
      Refuses names subtypes (.duplicateQualifier name)
  | unknown {before after : List (String × String)} {sub sup name : String}
      (distinct : Distinct names) (split : subtypes = before ++ (sub, sup) :: after)
      (first : ∀ d ∈ before, d.1 ∈ names ∧ d.2 ∈ names)
      (unknown : sub ∉ names ∧ name = sub ∨ sub ∈ names ∧ sup ∉ names ∧ name = sup) :
      Refuses names subtypes
        (.unknownQualifier name s!"subtype declaration `{sub} <: {sup}`")
  | cyclic (known : Known names subtypes) {a b : DeclaredName names subtypes}
      (ne : a ≠ b) (le : a ≤ b) (ge : b ≤ a) : Refuses names subtypes (.cyclicSubtyping a.name)
  | noTop (poset : IsPoset names subtypes) {found : List String}
      (none : ¬ ∃ t : DeclaredName names subtypes, IsTop t)
      (lists : Lists (IsMax : DeclaredName names subtypes → Prop) found) :
      Refuses names subtypes (.noUniqueTop found)
  | noBottom (poset : IsPoset names subtypes) {found : List String}
      (top : ∃ t : DeclaredName names subtypes, IsTop t)
      (none : ¬ ∃ b : DeclaredName names subtypes, IsBot b)
      (lists : Lists (IsMin : DeclaredName names subtypes → Prop) found) :
      Refuses names subtypes (.noUniqueBottom found)
  | noJoin (poset : IsPoset names subtypes) {found : List String} {a b : Fin names.length}
      (top : ∃ t : DeclaredName names subtypes, IsTop t)
      (bottom : ∃ b : DeclaredName names subtypes, IsBot b)
      (first : ∀ c d : Fin names.length, c < a ∨ c = a ∧ d < b →
        ∃ j, IsLUB {DeclaredName.nth subtypes c, DeclaredName.nth subtypes d} j)
      (none : ¬ ∃ j, IsLUB {DeclaredName.nth subtypes a, DeclaredName.nth subtypes b} j)
      (lists : Lists
        (Minimal (· ∈ upperBounds {DeclaredName.nth subtypes a, DeclaredName.nth subtypes b}))
        found) :
      Refuses names subtypes (.noUniqueJoin (names.get a) (names.get b) found)

variable {names : List String} {subtypes : List (String × String)}

theorem Refuses.not_isLattice {e : DeclarationError} (h : Refuses names subtypes e) :
    ¬ IsLattice names subtypes := by
  intro hl
  have : Nonempty (DeclaredName names subtypes) := by
    obtain ⟨name, hname⟩ := List.exists_mem_of_ne_nil names hl.nonempty
    exact ⟨⟨name, hname⟩⟩
  cases h with
  | empty h => exact hl.nonempty h
  | duplicate split first again =>
      have hnodup := hl.nodup
      rw [split, List.nodup_append] at hnodup
      exact hnodup.2.2 _ again _ (by simp) rfl
  | @unknown _ _ sub sup _ distinct split first unknown =>
      have hknown := hl.known (sub, sup) (by simp [split])
      rcases unknown with ⟨hsub, -⟩ | ⟨-, hsup, -⟩
      · exact hsub hknown.1
      · exact hsup hknown.2
  | cyclic known ne le ge => exact ne (hl.antisymm _ _ le ge)
  | noTop poset none => exact none (exists_isTop_of_exists_isLUB hl.joins)
  | noBottom poset top none =>
      exact none (exists_isTop_of_exists_isLUB (α := (DeclaredName names subtypes)ᵒᵈ) hl.meets)
  | noJoin poset top bottom first none => exact none (hl.joins _ _)

theorem Tabulates.joins {h : Hierarchy} (ht : Tabulates names subtypes h)
    (a b : DeclaredName names subtypes) : ∃ c, IsLUB {a, b} c := by
  obtain ⟨i, rfl⟩ := a.exists_nth
  obtain ⟨j, rfl⟩ := b.exists_nth
  obtain ⟨c, -, hc⟩ := ht.join i j
  exact ⟨_, hc⟩

theorem Tabulates.meets {h : Hierarchy} (ht : Tabulates names subtypes h)
    (a b : DeclaredName names subtypes) : ∃ c, IsGLB {a, b} c := by
  obtain ⟨i, rfl⟩ := a.exists_nth
  obtain ⟨j, rfl⟩ := b.exists_nth
  obtain ⟨c, -, hc⟩ := ht.meet i j
  exact ⟨_, hc⟩

namespace Hierarchy

theorem firstRepeated?_none {seen : List String} (h : firstRepeated? seen names = none) :
    names.Nodup ∧ ∀ name ∈ names, name ∉ seen := by
  induction names generalizing seen with
  | nil => simp
  | cons name rest ih =>
      rw [firstRepeated?] at h
      split at h
      · cases h
      rename_i hnew
      obtain ⟨hnodup, hrest⟩ := ih h
      refine ⟨List.nodup_cons.mpr ⟨fun hin => hrest name hin (by simp), hnodup⟩, ?_⟩
      refine List.forall_mem_cons.mpr ⟨hnew, fun x hx hin => hrest x hx ?_⟩
      exact List.mem_cons_of_mem name hin

theorem firstRepeated?_some {seen : List String} {name : String}
    (h : firstRepeated? seen names = some name) :
    ∃ before after, names = before ++ name :: after ∧ before.Nodup ∧
      (∀ x ∈ before, x ∉ seen) ∧ (name ∈ before ∨ name ∈ seen) := by
  induction names generalizing seen with
  | nil => cases h
  | cons x rest ih =>
      rw [firstRepeated?] at h
      split at h
      · rename_i hseen
        cases h
        exact ⟨[], rest, rfl, List.nodup_nil, by simp, .inr hseen⟩
      rename_i hnew
      obtain ⟨before, after, rfl, hnodup, hfresh, hagain⟩ := ih h
      refine ⟨x :: before, after, rfl, ?_, ?_, ?_⟩
      · exact List.nodup_cons.mpr ⟨fun hin => hfresh x hin (by simp), hnodup⟩
      · exact List.forall_mem_cons.mpr
          ⟨hnew, fun y hy hin => hfresh y hy (List.mem_cons_of_mem x hin)⟩
      · rcases hagain with hin | hin
        · exact .inl (List.mem_cons_of_mem x hin)
        · rcases List.mem_cons.mp hin with rfl | hin
          · exact .inl List.mem_cons_self
          · exact .inr hin

theorem resolveName_ok {name context : String} {i : Nat} :
    resolveName names name context = .ok i ↔ names.idxOf? name = some i := by
  unfold resolveName
  split
  · simp_all
  · rename_i hidx
    simp [hidx]

theorem mem_of_idxOf? {name : String} {i : Nat} (h : names.idxOf? name = some i) :
    name ∈ names := by
  by_contra hmem
  rw [List.idxOf?_eq_none_iff.mpr hmem] at h
  cases h

theorem resolveName_error {name context : String} {e : DeclarationError} :
    resolveName names name context = .error e ↔
      name ∉ names ∧ e = .unknownQualifier name context := by
  unfold resolveName
  split
  · rename_i hidx
    simp [mem_of_idxOf? hidx]
  · rename_i hidx
    have hmem : name ∉ names := List.idxOf?_eq_none_iff.mp hidx
    simp [hmem, eq_comm]

theorem idxOf?_eq_some_of_nodup (hnodup : names.Nodup) (i : Fin names.length) :
    names.idxOf? (names.get i) = some i.val := by
  refine List.idxOf?_eq_some_iff.mpr ⟨i.isLt, rfl, fun j hj heq => ?_⟩
  exact hj.ne (hnodup.getElem_inj_iff.mp heq)

theorem resolveSubtype_ok {declared : String × String} {e : Nat × Nat} :
    resolveSubtype names declared = .ok e ↔
      names.idxOf? declared.1 = some e.1 ∧ names.idxOf? declared.2 = some e.2 := by
  rw [resolveSubtype]
  constructor
  · intro h
    obtain ⟨i, hi, h⟩ := bind_ok.mp h
    obtain ⟨j, hj, h⟩ := bind_ok.mp h
    cases h
    exact ⟨resolveName_ok.mp hi, resolveName_ok.mp hj⟩
  · rintro ⟨hi, hj⟩
    rw [resolveName_ok.mpr hi, resolveName_ok.mpr hj]
    rfl

/-- The first declaration about an unknown name. -/
theorem mapM_resolveSubtype_error {e : DeclarationError} (hdistinct : Distinct names)
    (h : subtypes.mapM (resolveSubtype names) = .error e) : Refuses names subtypes e := by
  obtain ⟨before, ⟨sub, sup⟩, after, rfl, herror, hbefore⟩ := mapM_error_first h
  have hfirst : ∀ d ∈ before, d.1 ∈ names ∧ d.2 ∈ names := by
    intro d hd
    obtain ⟨e, he⟩ := hbefore d hd
    obtain ⟨hsub, hsup⟩ := resolveSubtype_ok.mp he
    exact ⟨mem_of_idxOf? hsub, mem_of_idxOf? hsup⟩
  rw [resolveSubtype] at herror
  rcases bind_error.mp herror with herror | ⟨i, hi, herror⟩
  · obtain ⟨hsub, rfl⟩ := resolveName_error.mp herror
    exact .unknown hdistinct rfl hfirst (.inl ⟨hsub, rfl⟩)
  rcases bind_error.mp herror with herror | ⟨j, hj, herror⟩
  · obtain ⟨hsup, rfl⟩ := resolveName_error.mp herror
    exact .unknown hdistinct rfl hfirst (.inr ⟨mem_of_idxOf? (resolveName_ok.mp hi), hsup, rfl⟩)
  · cases herror

theorem mapM_resolveSubtype_known {edges : List (Nat × Nat)}
    (h : subtypes.mapM (resolveSubtype names) = .ok edges) :
    ∀ d ∈ subtypes, d.1 ∈ names ∧ d.2 ∈ names := by
  intro d hd
  obtain ⟨i, hi⟩ := List.mem_iff_getElem?.mp hd
  obtain ⟨e, -, he⟩ := getElem?_of_forall₂ (forall₂_of_mapM h) hi
  obtain ⟨hsub, hsup⟩ := resolveSubtype_ok.mp he
  exact ⟨mem_of_idxOf? hsub, mem_of_idxOf? hsup⟩

section Graph

variable {edges : List (Nat × Nat)} (hedges : subtypes.mapM (resolveSubtype names) = .ok edges)
include hedges

theorem edge_declaredGraph (hnodup : names.Nodup) (a b : Fin names.length) :
    Digraph.Edge (declaredGraph names edges).successors a b ↔
      a ≠ b ∧ (names.get a, names.get b) ∈ subtypes := by
  have hdistinct : (a.val, b.val) ∈ (declaredGraph names edges).edges ↔
      (a.val, b.val) ∈ edges.filter fun e => e.1 ≠ e.2 := Digraph.mem_distinct
  rw [Digraph.Edge, Digraph.mem_successors, hdistinct, List.mem_filter, and_comm,
    decide_eq_true_eq, Fin.val_ne_iff]
  refine and_congr_right fun _ => ?_
  constructor
  · intro hmem
    obtain ⟨⟨sub, sup⟩, hd, hresolved⟩ := mem_of_mapM hedges hmem
    obtain ⟨hsub, hsup⟩ := resolveSubtype_ok.mp hresolved
    obtain ⟨_, rfl, -⟩ := List.idxOf?_eq_some_iff.mp hsub
    obtain ⟨_, rfl, -⟩ := List.idxOf?_eq_some_iff.mp hsup
    exact hd
  · intro hd
    obtain ⟨k, hk⟩ := List.mem_iff_getElem?.mp hd
    obtain ⟨e, he, hresolved⟩ := getElem?_of_forall₂ (forall₂_of_mapM hedges) hk
    have hab : resolveSubtype names (names.get a, names.get b) = .ok (a.val, b.val) :=
      resolveSubtype_ok.mpr
        ⟨idxOf?_eq_some_of_nodup hnodup a, idxOf?_eq_some_of_nodup hnodup b⟩
    rw [hab] at hresolved
    cases hresolved
    exact List.mem_of_getElem? he

/-- A vertex leads to another where the one name is declared to be below the other. -/
theorem reaches_iff (hnodup : names.Nodup) (a b : Fin names.length) :
    ReflTransGen (Digraph.Edge (declaredGraph names edges).successors) a b ↔
      DeclaredName.nth subtypes a ≤ DeclaredName.nth subtypes b := by
  have hsimple := declaredGraph_simple hedges
  constructor
  · intro hreach
    suffices h : ∀ y, ReflTransGen (Digraph.Edge (declaredGraph names edges).successors) a y →
        ∃ hy : y < names.length, DeclaredName.nth subtypes a ≤ .nth subtypes ⟨y, hy⟩ from
      (h b hreach).2
    intro y hay
    induction hay with
    | refl => exact ⟨a.isLt, le_refl _⟩
    | @tail y z _ hedge ih =>
        obtain ⟨hy, hle⟩ := ih
        have hz := (hsimple.below _ (Digraph.mem_successors.mp hedge)).2
        refine ⟨hz, hle.trans (.single ?_)⟩
        exact ((edge_declaredGraph hedges hnodup ⟨y, hy⟩ ⟨z, hz⟩).mp hedge).2
  · intro hle
    suffices h : ∀ name, ReflTransGen (fun sub sup => (sub, sup) ∈ subtypes) (names.get a) name →
        ∀ j : Fin names.length, names.get j = name →
          ReflTransGen (Digraph.Edge (declaredGraph names edges).successors) a j from
      h _ hle b rfl
    intro name hbelow
    induction hbelow with
    | refl =>
        intro j hj
        have heq : (j : Nat) = a := hnodup.getElem_inj_iff.mp hj
        rw [heq]
    | @tail y z _ hdeclared ih =>
        rintro k rfl
        obtain ⟨j, hj, rfl⟩ := List.getElem_of_mem (mapM_resolveSubtype_known hedges _ hdeclared).1
        have haj := ih ⟨j, hj⟩ rfl
        by_cases hjk : (⟨j, hj⟩ : Fin names.length) = k
        · rwa [← hjk]
        · exact haj.tail ((edge_declaredGraph hedges hnodup ⟨j, hj⟩ k).mpr ⟨hjk, hdeclared⟩)

theorem closure_tables (hnodup : names.Nodup)
    (hacyclic : (declaredGraph names edges).outOfOrder? []
      (declaredGraph names edges).fullWalk.finished = none) :
    Tables names subtypes (closure (declaredGraph names edges)) where
  nodup := hnodup
  antisymm a b hab hba := by
    obtain ⟨i, rfl⟩ := a.exists_nth
    obtain ⟨j, rfl⟩ := b.exists_nth
    have hij := (reaches_iff hedges hnodup i j).mpr hab
    have hji := (reaches_iff hedges hnodup j i).mpr hba
    exact congrArg _ (Fin.ext ((declaredGraph_simple hedges).antisymm hacyclic i.isLt hij hji))
  size := rfl
  le_iff a b := by
    rw [closure_le (declaredGraph_simple hedges), ← reaches_iff hedges hnodup]
    exact ⟨fun h => h.2.2, fun h => ⟨a.isLt, b.isLt, h⟩⟩

/-- The vertex for which the order of the names is refused lies on a cycle of declarations. -/
theorem refuses_cyclic (hdistinct : Distinct names) {i : Nat}
    (hcyclic : (declaredGraph names edges).outOfOrder? []
      (declaredGraph names edges).fullWalk.finished = some i) :
    Refuses names subtypes (.cyclicSubtyping (names.getD i "")) := by
  have hsimple := declaredGraph_simple hedges
  obtain ⟨j, hedge, hne, hij, hji⟩ := hsimple.mutual_of_outOfOrder? hcyclic
  obtain ⟨hi, hj⟩ := hsimple.below _ hedge
  have hname : names.getD i "" = (DeclaredName.nth subtypes ⟨i, hi⟩).name := by
    simp [DeclaredName.nth, show i < names.length from hi]
  rw [hname]
  refine .cyclic ⟨hdistinct, mapM_resolveSubtype_known hedges⟩ (b := .nth subtypes ⟨j, hj⟩) ?_
    ((reaches_iff hedges hdistinct.nodup ⟨i, hi⟩ ⟨j, hj⟩).mp hij)
    ((reaches_iff hedges hdistinct.nodup ⟨j, hj⟩ ⟨i, hi⟩).mp hji)
  exact fun heq => hne (congrArg Fin.val (DeclaredName.nth_injective hdistinct.nodup heq))

end Graph

/-- What a result of `build` says of the declarations. -/
def Settles (names : List String) (subtypes : List (String × String)) :
    Except DeclarationError Hierarchy → Prop
  | .ok h => IsPoset names subtypes ∧ Tabulates names subtypes h
  | .error e => Refuses names subtypes e

/-- A search through an initial segment fails at its least element that fails. -/
theorem mapM_range_error {β ε : Type} {f : Nat → Except ε β} {n : Nat} {e : ε}
    (h : (List.range n).mapM f = .error e) :
    ∃ a < n, f a = .error e ∧ ∀ c < a, ∃ y, f c = .ok y := by
  obtain ⟨before, a, after, hrange, ha, hbefore⟩ := mapM_error_first h
  have hlength : before.length < n := by
    have := congrArg List.length hrange
    simp only [List.length_range, List.length_append, List.length_cons] at this
    omega
  have hplace (i : Nat) (hi : i < n) : (before ++ a :: after)[i]? = some i := by
    rw [← hrange, List.getElem?_range hi]
  have hself : a = before.length := by simpa using hplace before.length hlength
  subst hself
  refine ⟨before.length, hlength, ha, fun c hc => hbefore c ?_⟩
  have hc' := hplace c (hc.trans hlength)
  rw [List.getElem?_append_left hc] at hc'
  exact List.mem_of_getElem? hc'

/-- A table is refused at the first pair, row by row, that has no result. -/
theorem rows_error {size : Nat} {cell : Nat → Nat → Except DeclarationError Nat}
    {e : DeclarationError} (h : rows size cell = .error e) :
    ∃ a b : Fin size, cell a b = .error e ∧
      ∀ c d : Fin size, c < a ∨ c = a ∧ d < b → ∃ x, cell c d = .ok x := by
  have hcell {c d : Nat} {q : Qualifier} (hq : (cell c d).map Qualifier.mk = .ok q) :
      ∃ x, cell c d = .ok x := by
    cases hx : cell c d with
    | ok x => exact ⟨x, rfl⟩
    | error e =>
        rw [hx] at hq
        cases hq
  rcases bind_error.mp h with h | ⟨_, -, h⟩
  swap
  · cases h
  obtain ⟨a, ha, hrow, hrows⟩ := mapM_range_error h
  obtain ⟨b, hb, herror, hcells⟩ := mapM_range_error hrow
  refine ⟨⟨a, ha⟩, ⟨b, hb⟩, map_error.mp herror, ?_⟩
  rintro c d (hca | ⟨rfl, hdb⟩)
  · obtain ⟨row, hrow⟩ := hrows c hca
    obtain ⟨q, -, hq⟩ := getElem?_of_forall₂ (forall₂_of_mapM hrow) (List.getElem?_range d.isLt)
    exact hcell hq
  · obtain ⟨q, hq⟩ := hcells d hdb
    exact hcell hq

theorem lookup?_get {h : Hierarchy} (hnodup : h.names.Nodup) (a : Fin h.names.length) :
    h.lookup? (h.names.get a) = some ⟨a⟩ := by
  rw [lookup?, idxOf?_eq_some_of_nodup hnodup a]
  rfl

theorem ofOrder_bottom {o : Order} {ordered : List Nat} {h : Hierarchy}
    (hok : ofOrder names o ordered = .ok h) : o.minimal = [h.bottom.index] := by
  obtain ⟨top, bottom, joins, meets, -, hbottom, -, -, rfl⟩ := ofOrder_steps hok
  exact hbottom

/-- The one extreme element of an order is one of its elements. -/
theorem lt_of_filter_elements {o : Order} {p : Nat → Bool} {t : Nat}
    (h : o.elements.filter p = [t]) : t < o.size := by
  have hmem : t ∈ o.elements.filter p := by simp [h]
  exact List.mem_range.mp (List.mem_filter.mp hmem).1

theorem ofOrder_tabulates {o : Order} {ordered : List Nat} {h : Hierarchy}
    (ho : Tables names subtypes o) (hok : ofOrder names o ordered = .ok h) :
    Tabulates names subtypes h := by
  have hof := ofOrder_ok hok
  have hbottom := ofOrder_bottom hok
  obtain rfl := hof.names
  have hsize := ho.size
  have htoplt : h.top.index < h.names.length := hsize ▸ lt_of_filter_elements hof.top
  have hbottomlt : h.bottom.index < h.names.length := hsize ▸ lt_of_filter_elements hbottom
  exact {
    names_eq := rfl
    lookup := lookup?_get ho.nodup
    isSubtype_iff := fun a b => by rw [isSubtype, hof.order, ho.le_iff]
    join := fun a b => by
      obtain ⟨x, hx, heq⟩ := hof.joins (a.isLt.trans_eq hsize.symm) (b.isLt.trans_eq hsize.symm)
      obtain ⟨c, rfl, hc⟩ := ho.join?_ok hx
      exact ⟨c, heq, hc⟩
    meet := fun a b => by
      obtain ⟨x, hx, heq⟩ := hof.meets (a.isLt.trans_eq hsize.symm) (b.isLt.trans_eq hsize.symm)
      obtain ⟨c, rfl, hc⟩ := ho.meet?_ok hx
      exact ⟨c, heq, hc⟩
    top := ⟨⟨_, htoplt⟩, rfl, (ho.maximal_eq_singleton ⟨_, htoplt⟩).mp hof.top⟩
    bottom := ⟨⟨_, hbottomlt⟩, rfl, (ho.minimal_eq_singleton ⟨_, hbottomlt⟩).mp hbottom⟩ }

/-- The first bound that is missing is reported. -/
theorem ofOrder_refuses {o : Order} {ordered : List Nat} {e : DeclarationError}
    (hposet : IsPoset names subtypes) (ho : Tables names subtypes o)
    (herror : ofOrder names o ordered = .error e) : Refuses names subtypes e := by
  simp only [ofOrder, bind, Except.bind] at herror
  split at herror
  swap
  · rename_i hmany
    cases herror
    refine .noTop hposet ?_ ho.lists_maximal
    rintro ⟨t, ht⟩
    obtain ⟨i, rfl⟩ := t.exists_nth
    exact hmany i ((ho.maximal_eq_singleton i).mpr ht)
  rename_i top hmaximal
  have htop : ∃ t : DeclaredName names subtypes, IsTop t := by
    have hlt : top < names.length := ho.size ▸ lt_of_filter_elements hmaximal
    exact ⟨_, (ho.maximal_eq_singleton ⟨top, hlt⟩).mp hmaximal⟩
  split at herror
  swap
  · rename_i hmany
    cases herror
    refine .noBottom hposet htop ?_ ho.lists_minimal
    rintro ⟨b, hb⟩
    obtain ⟨i, rfl⟩ := b.exists_nth
    exact hmany i ((ho.minimal_eq_singleton i).mpr hb)
  rename_i bottom hminimal
  have hbottom : ∃ b : DeclaredName names subtypes, IsBot b := by
    have hlt : bottom < names.length := ho.size ▸ lt_of_filter_elements hminimal
    exact ⟨_, (ho.minimal_eq_singleton ⟨bottom, hlt⟩).mp hminimal⟩
  have hjoined {a b : Fin names.length} {x : Nat} (hx : o.join? a b = .ok x) :
      ∃ j, IsLUB {DeclaredName.nth subtypes a, DeclaredName.nth subtypes b} j := by
    obtain ⟨c, -, hc⟩ := ho.join?_ok hx
    exact ⟨_, hc⟩
  rw [ho.size] at herror
  split at herror
  · rename_i hjoins
    cases herror
    obtain ⟨a, b, hcell, hfirst⟩ := rows_error hjoins
    obtain ⟨found, hfound, rfl⟩ := mapError_error hcell
    obtain ⟨hnone, hlists⟩ := ho.join?_error hfound
    have hrefused := Refuses.noJoin hposet htop hbottom (fun c d hcd => ?_) hnone hlists
    · have hname (i : Fin names.length) : names.get i = names.getD i "" := by simp
      rw [hname, hname] at hrefused
      exact hrefused
    · obtain ⟨x, hx⟩ := hfirst c d hcd
      exact hjoined (mapError_ok hx)
  rename_i joins hjoins
  split at herror
  swap
  · cases herror
  rename_i hmeets
  obtain ⟨a, b, hcell, -⟩ := rows_error hmeets
  obtain ⟨found, hfound, -⟩ := mapError_error hcell
  refine absurd hfound (ho.meet?_ne_error (fun x y => ?_) hbottom a b)
  obtain ⟨i, rfl⟩ := x.exists_nth
  obtain ⟨j, rfl⟩ := y.exists_nth
  obtain ⟨x, hx, -⟩ := rows_ok hjoins i.isLt j.isLt default
  exact hjoined (mapError_ok hx)

/-- Every result of `build` is right about the declarations. -/
theorem build_settles (names : List String) (subtypes : List (String × String)) :
    Settles names subtypes (build names subtypes) := by
  simp only [build, bind, Except.bind, throw, throwThe, MonadExceptOf.throw]
  split
  · rename_i hempty
    exact .empty (List.isEmpty_iff.mp hempty)
  rename_i hnonempty
  split
  · rename_i name hrepeated
    obtain ⟨before, after, hsplit, hfirst, -, hagain⟩ := firstRepeated?_some hrepeated
    refine .duplicate hsplit hfirst (hagain.resolve_right ?_)
    simp
  rename_i hrepeated
  have hdistinct : Distinct names :=
    ⟨fun h => hnonempty (List.isEmpty_iff.mpr h),
      (firstRepeated?_none (Option.eq_none_iff_forall_ne_some.mpr hrepeated)).1⟩
  split
  · rename_i hunknown
    exact mapM_resolveSubtype_error hdistinct hunknown
  rename_i edges hedges
  split
  · rename_i i hcyclic
    exact refuses_cyclic hedges hdistinct hcyclic
  rename_i hacyclic
  have ho := closure_tables hedges hdistinct.nodup (Option.eq_none_iff_forall_ne_some.mpr hacyclic)
  have hposet : IsPoset names subtypes :=
    ⟨⟨hdistinct, mapM_resolveSubtype_known hedges⟩, ho.antisymm⟩
  cases hresult : ofOrder names (closure (declaredGraph names edges))
      (declaredGraph names edges).fullWalk.finished with
  | ok h => exact ⟨hposet, ofOrder_tabulates ho hresult⟩
  | error e => exact ofOrder_refuses hposet ho hresult

/-- The bottom of a hierarchy is below all of its qualifiers. -/
theorem bottom_le {h : Hierarchy} (hok : build names subtypes = .ok h) {q : Qualifier}
    (hq : h.Has q) : h.isSubtype h.bottom q = true := by
  have hsettles := build_settles names subtypes
  rw [hok] at hsettles
  have htabulates := hsettles.2
  obtain ⟨b, hb, hbot⟩ := htabulates.bottom
  have hlt : q.index < names.length := htabulates.names_eq ▸ hq
  rw [hb]
  exact (htabulates.isSubtype_iff b ⟨q.index, hlt⟩).mpr (hbot _)

/-- A hierarchy is built exactly where the names are distinct and the declarations generate a
lattice on them; its tables are those of the lattice, and an error is the first reason, in the
order of the constructors of `Refuses`, why there is none. -/
theorem build_iff_isLattice (names : List String) (subtypes : List (String × String)) :
    ((∃ h, build names subtypes = .ok h) ↔ IsLattice names subtypes) ∧
      (∀ h, build names subtypes = .ok h → Tabulates names subtypes h) ∧
      ∀ e, build names subtypes = .error e → Refuses names subtypes e := by
  have hsettles := build_settles names subtypes
  refine ⟨⟨?_, fun hlattice => ?_⟩, fun h hok => ?_, fun e herror => ?_⟩
  · rintro ⟨h, hok⟩
    rw [hok] at hsettles
    exact ⟨hsettles.1, hsettles.2.joins, hsettles.2.meets⟩
  · cases hresult : build names subtypes with
    | ok h => exact ⟨h, rfl⟩
    | error e =>
        rw [hresult] at hsettles
        exact absurd hlattice (Refuses.not_isLattice hsettles)
  · rw [hok] at hsettles
    exact hsettles.2
  · rw [herror] at hsettles
    exact hsettles

/-- Two names with two minimal upper bounds. -/
def crossed : List String × List (String × String) :=
  (["none", "left", "right", "seen", "used", "any"],
    [("none", "left"), ("none", "right"), ("left", "seen"), ("left", "used"), ("right", "seen"),
      ("right", "used"), ("seen", "any"), ("used", "any")])

theorem crossed_refused :
    build crossed.1 crossed.2 = .error (.noUniqueJoin "left" "right" ["seen", "used"]) ∧
      Refuses crossed.1 crossed.2 (.noUniqueJoin "left" "right" ["seen", "used"]) ∧
      ¬ IsLattice crossed.1 crossed.2 := by
  have herror : build crossed.1 crossed.2 =
      .error (.noUniqueJoin "left" "right" ["seen", "used"]) := by
    have hbuilt : (match build crossed.1 crossed.2 with
        | .ok _ => false
        | .error e => e = .noUniqueJoin "left" "right" ["seen", "used"]) = true := by
      decide +kernel
    split at hbuilt
    · cases hbuilt
    · rename_i e he
      rw [he, of_decide_eq_true hbuilt]
  obtain ⟨hiff, -, hrefuses⟩ := build_iff_isLattice crossed.1 crossed.2
  refine ⟨herror, hrefuses _ herror, fun hlattice => ?_⟩
  obtain ⟨h, hok⟩ := hiff.mpr hlattice
  rw [herror] at hok
  cases hok

end Hierarchy

namespace Checker

variable {d : CheckerDeclaration} {c : Checker}

theorem ofDeclaration_hierarchy (hok : ofDeclaration d = .ok c) :
    ∃ names subtypes, Hierarchy.build names subtypes = .ok c.hierarchy := by
  obtain ⟨h, hh, hok⟩ := bind_ok.mp hok
  obtain ⟨rules, -, hok⟩ := bind_ok.mp hok
  obtain ⟨implicit, -, hok⟩ := bind_ok.mp hok
  obtain ⟨methods, -, hok⟩ := bind_ok.mp hok
  obtain ⟨signatures, -, hok⟩ := bind_ok.mp hok
  cases hok
  exact ⟨_, _, hh⟩

theorem bottom_le (hok : ofDeclaration d = .ok c) {q : Qualifier} (hq : c.hierarchy.Has q) :
    c.hierarchy.isSubtype c.hierarchy.bottom q = true := by
  obtain ⟨names, subtypes, hbuilt⟩ := ofDeclaration_hierarchy hok
  exact Hierarchy.bottom_le hbuilt hq

end Checker

end FlowTyping
