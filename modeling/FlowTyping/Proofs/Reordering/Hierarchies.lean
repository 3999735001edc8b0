import FlowTyping.Proofs.Checker.Height
import Mathlib.Order.Bounds.OrderIso

/-!
Hierarchies whose qualifiers are declared in another order, and whose order is declared in other
pairs. They differ in the numbers of the qualifiers only.
-/

namespace FlowTyping

open Relation

namespace Hierarchy

/-- Two declarations of one order: the same names in any order, and pairs that generate the same
order of them. -/
structure SameOrder (names names' : List String) (subtypes subtypes' : List (String × String)) :
    Prop where
  names : names.Perm names'
  order (a b : String) : ReflTransGen (fun sub sup => (sub, sup) ∈ subtypes) a b ↔
    ReflTransGen (fun sub sup => (sub, sup) ∈ subtypes') a b

/-- The number of a qualifier among the same names in another order. -/
def renumber (names names' : List String) (q : Qualifier) : Qualifier :=
  match names[q.index]? with
  | some name => ⟨names'.idxOf name⟩
  | none => q

/-- One hierarchy is another one with its qualifiers renumbered. -/
structure Renumbers (h h' : Hierarchy) (π : Qualifier → Qualifier) : Prop where
  injective : Function.Injective π
  isSubtype (a b : Qualifier) : h'.isSubtype (π a) (π b) = h.isSubtype a b
  join (a b : Qualifier) : h'.join (π a) (π b) = π (h.join a b)
  meet (a b : Qualifier) : h'.meet (π a) (π b) = π (h.meet a b)
  top : h'.top = π h.top
  name (q : Qualifier) : h'.name (π q) = h.name q
  lookup (name : String) : h'.lookup? name = (h.lookup? name).map π
  height : h'.height = h.height

variable {names names' : List String} {subtypes subtypes' : List (String × String)}
  {h h' : Hierarchy}

theorem SameOrder.symm (hs : SameOrder names names' subtypes subtypes') :
    SameOrder names' names subtypes' subtypes where
  names := hs.names.symm
  order a b := (hs.order a b).symm

theorem renumber_get (a : Fin names.length) :
    renumber names names' ⟨a⟩ = ⟨names'.idxOf (names.get a)⟩ := by
  simp [renumber]

theorem renumber_outside {q : Qualifier} (hq : names.length ≤ q.index) :
    renumber names names' q = q := by
  simp [renumber, hq]

/-- The place of a name in the other order. -/
theorem exists_place (hnames : names.Perm names') (a : Fin names.length) :
    ∃ a' : Fin names'.length, renumber names names' ⟨a⟩ = ⟨a'⟩ ∧ names'.get a' = names.get a := by
  have hmem : names.get a ∈ names' := hnames.mem_iff.mp (List.get_mem names a)
  exact ⟨⟨_, List.idxOf_lt_length_iff.mpr hmem⟩, renumber_get a, List.getElem_idxOf _⟩

theorem renumber_renumber (hnames : names.Perm names') (hnodup : names.Nodup) (q : Qualifier) :
    renumber names' names (renumber names names' q) = q := by
  by_cases hq : q.index < names.length
  · obtain ⟨a', hplace, hname⟩ := exists_place hnames ⟨q.index, hq⟩
    have hidx : names.idxOf (names.get ⟨q.index, hq⟩) = q.index := hnodup.idxOf_getElem q.index hq
    rw [show q = ⟨q.index⟩ from rfl, hplace, renumber_get, hname, hidx]
  · have hq := Nat.not_lt.mp hq
    rw [renumber_outside hq, renumber_outside (hnames.length_eq ▸ hq)]

theorem renumber_injective (hnames : names.Perm names') (hnodup : names.Nodup) :
    Function.Injective (renumber names names') :=
  Function.LeftInverse.injective (renumber_renumber hnames hnodup)

/-- Two hierarchies that are built from declarations of one order. -/
structure Pair (names names' : List String) (subtypes subtypes' : List (String × String))
    (h h' : Hierarchy) : Prop where
  same : SameOrder names names' subtypes subtypes'
  built : build names subtypes = .ok h
  built' : build names' subtypes' = .ok h'

namespace Pair

theorem symm (hp : Pair names names' subtypes subtypes' h h') :
    Pair names' names subtypes' subtypes h' h := ⟨hp.same.symm, hp.built', hp.built⟩

theorem tabulates (hp : Pair names names' subtypes subtypes' h h') :
    Tabulates names subtypes h := (build_iff_isLattice names subtypes).2.1 h hp.built

theorem nodup (hp : Pair names names' subtypes subtypes' h h') : names.Nodup :=
  ((build_iff_isLattice names subtypes).1.mp ⟨h, hp.built⟩).nodup

theorem names_eq (hp : Pair names names' subtypes subtypes' h h') : h.names = names :=
  hp.tabulates.names_eq

theorem has_iff (hp : Pair names names' subtypes subtypes' h h') {q : Qualifier} :
    h.Has q ↔ q.index < names.length := by
  rw [Has, size, hp.names_eq]

theorem back (hp : Pair names names' subtypes subtypes' h h') (q : Qualifier) :
    renumber names names' (renumber names' names q) = q :=
  renumber_renumber hp.same.names.symm hp.symm.nodup q

theorem has_renumber (hp : Pair names names' subtypes subtypes' h h') {q : Qualifier} :
    h'.Has (renumber names names' q) ↔ h.Has q := by
  rw [hp.symm.has_iff, hp.has_iff]
  by_cases hq : q.index < names.length
  · obtain ⟨a', hplace, -⟩ := exists_place hp.same.names ⟨q.index, hq⟩
    rw [show q = ⟨q.index⟩ from rfl, hplace]
    exact ⟨fun _ => hq, fun _ => a'.isLt⟩
  · rw [renumber_outside (Nat.not_lt.mp hq), hp.same.names.length_eq]

theorem isSubtype (hp : Pair names names' subtypes subtypes' h h') (a b : Qualifier) :
    h'.isSubtype (renumber names names' a) (renumber names names' b) = h.isSubtype a b := by
  by_cases hab : h.Has a ∧ h.Has b
  · obtain ⟨ha, hb⟩ := hab
    have ha := hp.has_iff.mp ha
    have hb := hp.has_iff.mp hb
    obtain ⟨a', hplace, hname⟩ := exists_place hp.same.names ⟨a.index, ha⟩
    obtain ⟨b', hplace', hname'⟩ := exists_place hp.same.names ⟨b.index, hb⟩
    have hle : DeclaredName.nth subtypes' a' ≤ DeclaredName.nth subtypes' b' ↔
        DeclaredName.nth subtypes ⟨a.index, ha⟩ ≤ DeclaredName.nth subtypes ⟨b.index, hb⟩ := by
      change ReflTransGen _ (names'.get a') (names'.get b') ↔ ReflTransGen _ (names.get _)
        (names.get _)
      rw [hname, hname']
      exact (hp.same.order _ _).symm
    rw [show a = ⟨a.index⟩ from rfl, show b = ⟨b.index⟩ from rfl, hplace, hplace',
      Bool.eq_iff_iff, hp.symm.tabulates.isSubtype_iff, hle]
    exact (hp.tabulates.isSubtype_iff ⟨a.index, ha⟩ ⟨b.index, hb⟩).symm
  · have hnone : h.isSubtype a b = false :=
      Bool.eq_false_iff.mpr fun hle => hab ((build_lawful hp.built).has_of_le hle)
    rw [hnone, Bool.eq_false_iff]
    intro hle
    obtain ⟨ha, hb⟩ := (build_lawful hp.built').has_of_le hle
    exact hab ⟨hp.has_renumber.mp ha, hp.has_renumber.mp hb⟩

theorem isSubtype_back (hp : Pair names names' subtypes subtypes' h h') {a b : Qualifier} :
    h.isSubtype a (renumber names' names b) = h'.isSubtype (renumber names names' a) b := by
  rw [← hp.isSubtype, hp.back]

theorem back_isSubtype (hp : Pair names names' subtypes subtypes' h h') {a b : Qualifier} :
    h.isSubtype (renumber names' names a) b = h'.isSubtype a (renumber names names' b) := by
  rw [← hp.isSubtype, hp.back]

theorem top (hp : Pair names names' subtypes subtypes' h h') :
    h'.top = renumber names names' h.top := by
  have hh := build_lawful hp.built
  have hh' := build_lawful hp.built'
  apply hh'.le_antisymm
  · rw [← hp.back_isSubtype]
    exact hh.le_top (hp.symm.has_renumber.mpr hh'.has_top)
  · exact hh'.le_top (hp.has_renumber.mpr hh.has_top)

theorem bottom (hp : Pair names names' subtypes subtypes' h h') :
    h'.bottom = renumber names names' h.bottom := by
  have hh' := build_lawful hp.built'
  have hhas {names : List String} {subtypes : List (String × String)} {h : Hierarchy}
      (hok : build names subtypes = .ok h) : h.Has h.bottom := by
    have hh := build_lawful hok
    exact (hh.has_of_le (bottom_le hok hh.has_top)).1
  apply hh'.le_antisymm
  · exact bottom_le hp.built' (hp.has_renumber.mpr (hhas hp.built))
  · rw [← hp.isSubtype_back]
    exact bottom_le hp.built (hp.symm.has_renumber.mpr (hhas hp.built'))

theorem join (hp : Pair names names' subtypes subtypes' h h') (a b : Qualifier) :
    h'.join (renumber names names' a) (renumber names names' b) =
      renumber names names' (h.join a b) := by
  have hh := build_lawful hp.built
  have hh' := build_lawful hp.built'
  by_cases hab : h.Has a ∧ h.Has b
  · have ha := hp.has_renumber.mpr hab.1
    have hb := hp.has_renumber.mpr hab.2
    apply hh'.le_antisymm
    · apply hh'.join_le
      · rw [hp.isSubtype]
        exact hh.le_join_left hab.1 hab.2
      · rw [hp.isSubtype]
        exact hh.le_join_right hab.1 hab.2
    · rw [← hp.isSubtype_back]
      apply hh.join_le
      · rw [hp.isSubtype_back]
        exact hh'.le_join_left ha hb
      · rw [hp.isSubtype_back]
        exact hh'.le_join_right ha hb
  · rw [(build_tabled hp.built).join_outside hab, (build_tabled hp.built').join_outside
      fun h => hab ⟨hp.has_renumber.mp h.1, hp.has_renumber.mp h.2⟩]
    exact hp.top

theorem meet (hp : Pair names names' subtypes subtypes' h h') (a b : Qualifier) :
    h'.meet (renumber names names' a) (renumber names names' b) =
      renumber names names' (h.meet a b) := by
  have hh := build_lawful hp.built
  have hh' := build_lawful hp.built'
  by_cases hab : h.Has a ∧ h.Has b
  · have ha := hp.has_renumber.mpr hab.1
    have hb := hp.has_renumber.mpr hab.2
    apply hh'.le_antisymm
    · rw [← hp.back_isSubtype]
      apply hh.le_meet
      · rw [hp.back_isSubtype]
        exact hh'.meet_le_left ha hb
      · rw [hp.back_isSubtype]
        exact hh'.meet_le_right ha hb
    · apply hh'.le_meet
      · rw [hp.isSubtype]
        exact hh.meet_le_left hab.1 hab.2
      · rw [hp.isSubtype]
        exact hh.meet_le_right hab.1 hab.2
  · rw [(build_tabled hp.built).meet_outside hab, (build_tabled hp.built').meet_outside
      fun h => hab ⟨hp.has_renumber.mp h.1, hp.has_renumber.mp h.2⟩]
    exact hp.bottom

theorem name (hp : Pair names names' subtypes subtypes' h h') (q : Qualifier) :
    h'.name (renumber names names' q) = h.name q := by
  change h'.names.getD _ "" = h.names.getD _ ""
  rw [hp.names_eq, hp.symm.names_eq]
  by_cases hq : q.index < names.length
  · obtain ⟨a', hplace, hname⟩ := exists_place hp.same.names ⟨q.index, hq⟩
    rw [show q = ⟨q.index⟩ from rfl, hplace]
    simpa [hq] using hname
  · have hq := Nat.not_lt.mp hq
    rw [renumber_outside hq]
    simp [hq, hp.same.names.length_eq ▸ hq]

theorem lookup (hp : Pair names names' subtypes subtypes' h h') (name : String) :
    h'.lookup? name = (h.lookup? name).map (renumber names names') := by
  rw [lookup?, lookup?, hp.names_eq, hp.symm.names_eq]
  by_cases hname : name ∈ names
  · obtain ⟨i, hi, rfl⟩ := List.getElem_of_mem hname
    obtain ⟨a', hplace, hname'⟩ := exists_place hp.same.names ⟨i, hi⟩
    have hidx := idxOf?_eq_some_of_nodup hp.nodup ⟨i, hi⟩
    have hidx' := idxOf?_eq_some_of_nodup hp.symm.nodup a'
    rw [hname'] at hidx'
    change (names'.idxOf? (names.get ⟨i, hi⟩)).map _ =
      ((names.idxOf? (names.get ⟨i, hi⟩)).map _).map _
    rw [hidx, hidx', Option.map_some, Option.map_some, Option.map_some, hplace]
  · have hname' : name ∉ names' := fun h => hname (hp.same.names.mem_iff.mpr h)
    rw [List.idxOf?_eq_none_iff.mpr hname, List.idxOf?_eq_none_iff.mpr hname']
    rfl

theorem height_le (hp : Pair names names' subtypes subtypes' h h') : h.height ≤ h'.height := by
  obtain ⟨depth, hdepth⟩ := build_measured hp.built
  obtain ⟨depth', hdepth'⟩ := build_graded hp.built'
  apply hdepth.height_le hdepth'
  intro a b hle hne
  exact ⟨(hp.isSubtype a b).trans hle, fun heq =>
    hne (renumber_injective hp.same.names hp.nodup heq)⟩

/-- The second hierarchy is the first one with its qualifiers renumbered. -/
theorem renumbers (hp : Pair names names' subtypes subtypes' h h') :
    h.Renumbers h' (renumber names names') where
  injective := renumber_injective hp.same.names hp.nodup
  isSubtype := hp.isSubtype
  join := hp.join
  meet := hp.meet
  top := hp.top
  name := hp.name
  lookup := hp.lookup
  height := Nat.le_antisymm hp.symm.height_le hp.height_le

end Pair

/-- The names of one declaration as names of the other one. -/
def SameOrder.declared (hs : SameOrder names names' subtypes subtypes') :
    DeclaredName names subtypes ≃o DeclaredName names' subtypes' where
  toFun a := ⟨a.name, hs.names.mem_iff.mp a.mem⟩
  invFun a := ⟨a.name, hs.names.mem_iff.mpr a.mem⟩
  left_inv _ := rfl
  right_inv _ := rfl
  map_rel_iff' := (hs.order _ _).symm

/-- What is declared above a name of an accepted order is one of the names. -/
theorem SameOrder.known (hs : SameOrder names names' subtypes subtypes')
    (hknown : ∀ d ∈ subtypes, d.1 ∈ names ∧ d.2 ∈ names) {d : String × String}
    (hd : d ∈ subtypes') (hsub : d.1 ∈ names') : d.2 ∈ names' := by
  rcases ((hs.order d.1 d.2).mpr (.single hd)).cases_tail with heq | ⟨below, -, hlast⟩
  · rwa [heq]
  · exact hs.names.mem_iff.mp (hknown _ hlast).2

/-- A declaration of the order of an accepted one is accepted. -/
theorem SameOrder.build (hs : SameOrder names names' subtypes subtypes')
    (hsub : ∀ d ∈ subtypes', d.1 ∈ names') (hok : build names subtypes = .ok h) :
    ∃ h', Hierarchy.build names' subtypes' = .ok h' := by
  have hlattice := (build_iff_isLattice names subtypes).1.mp ⟨h, hok⟩
  refine (build_iff_isLattice names' subtypes').1.mpr ?_
  have hdistinct : Distinct names' :=
    ⟨fun hnil => hlattice.nonempty (hnil ▸ hs.names).eq_nil, hs.names.nodup_iff.mp hlattice.nodup⟩
  have hknown : Known names' subtypes' :=
    ⟨hdistinct, fun d hd => ⟨hsub d hd, hs.known hlattice.known hd (hsub d hd)⟩⟩
  refine ⟨⟨hknown, ?antisymm⟩, ?joins, ?meets⟩
  case antisymm =>
    intro a b hab hba
    have heq := hlattice.antisymm _ _ (hs.declared.symm.le_iff_le.mpr hab)
      (hs.declared.symm.le_iff_le.mpr hba)
    exact hs.declared.symm.injective heq
  case joins =>
    intro a b
    obtain ⟨c, hc⟩ := hlattice.joins (hs.declared.symm a) (hs.declared.symm b)
    refine ⟨hs.declared c, ?_⟩
    simpa [Set.image_pair] using hs.declared.isLUB_image'.mpr hc
  case meets =>
    intro a b
    obtain ⟨c, hc⟩ := hlattice.meets (hs.declared.symm a) (hs.declared.symm b)
    refine ⟨hs.declared c, ?_⟩
    simpa [Set.image_pair] using hs.declared.isGLB_image'.mpr hc

end Hierarchy

end FlowTyping
