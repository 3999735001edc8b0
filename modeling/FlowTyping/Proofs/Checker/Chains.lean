import FlowTyping.Proofs.Checker.Height
import Mathlib.Data.List.Chain

/-!
The shape of finite orders. Where any two elements have a least upper bound and one element is the
only minimal one, any two have a greatest lower bound, so a hierarchy is never refused for a meet.
Its height is that of its longest chains, and the qualifiers directly above another one generate its
order.
-/

namespace FlowTyping

open Relation

namespace Hierarchy

/-- The elements of an ordered table, in its order. -/
@[ext]
structure Ordered.Element {o : Order} (ho : Ordered o) where
  index : Nat
  lt : index < o.size

namespace Ordered

variable {o : Order} (ho : Ordered o) {a : Nat}

instance : PartialOrder ho.Element where
  le a b := o.le a.index b.index = true
  le_refl a := ho.refl a.lt
  le_trans _ _ _ := ho.trans
  le_antisymm _ _ hab hba := Element.ext (ho.antisymm hab hba)

instance : Finite ho.Element := by
  refine Finite.of_injective (β := Fin o.size) (fun a => ⟨a.index, a.lt⟩) fun a b hab => ?_
  exact Element.ext (congrArg Fin.val hab)

theorem mem_minimal (a : ho.Element) : a.index ∈ o.minimal ↔ IsMin a := by
  simp only [Order.minimal, List.mem_filter, Order.elements, List.mem_range, List.all_eq_true,
    Bool.or_eq_true, decide_eq_true_eq, Bool.not_eq_true']
  constructor
  · rintro ⟨-, hall⟩ b hb
    rcases hall b.index b.lt with heq | hnot
    · exact le_of_eq (Element.ext heq)
    · exact absurd (show o.le b.index a.index = true from hb) (by simp [hnot])
  · intro hmin
    refine ⟨a.lt, fun b hb => ?_⟩
    cases hle : o.le b a.index with
    | false => exact .inr rfl
    | true =>
        have hab : a ≤ ⟨b, hb⟩ := hmin (show o.le b a.index = true from hle)
        exact .inl (ho.antisymm hab hle)

/-- The only minimal element of a finite order is below all others. -/
theorem isBot_of_minimal (h : o.minimal = [a]) : ∃ b : ho.Element, IsBot b := by
  have ha : a < o.size := lt_of_filter_elements h
  refine ⟨⟨a, ha⟩, (isBot_iff_forall_isMin fun _ _ => le_antisymm).mpr fun x => ?_⟩
  rw [← ho.mem_minimal, h, List.mem_singleton]
  exact ⟨fun heq => Element.ext heq, fun heq => congrArg Element.index heq⟩

theorem isLUB_of_join? (a b : ho.Element) {j : Nat} (h : o.join? a.index b.index = .ok j) :
    ∃ c : ho.Element, IsLUB {a, b} c := by
  obtain ⟨hmem, hleast⟩ := leastOf_ok h
  obtain ⟨haj, hbj⟩ := ho.mem_upperBounds.mp hmem
  refine ⟨⟨j, (ho.below haj).2⟩, ?_, fun d hd => hleast d.index (ho.mem_upperBounds.mpr ?_)⟩
  · rintro x (rfl | rfl)
    · exact haj
    · exact hbj
  · exact ⟨hd (by simp), hd (by simp)⟩

/-- A search for the greatest lower bound finds the one there is. -/
theorem meet?_of_isGLB {a b c : ho.Element} (h : IsGLB {a, b} c) :
    o.meet? a.index b.index = .ok c.index := by
  have hlower : ∀ d ∈ o.lowerBounds a.index b.index, o.le d c.index = true := by
    intro d hd
    obtain ⟨hda, hdb⟩ := ho.mem_lowerBounds.mp hd
    have hbound : (⟨d, (ho.below hda).1⟩ : ho.Element) ∈ lowerBounds {a, b} := by
      rintro x (rfl | rfl)
      · exact hda
      · exact hdb
    exact h.2 hbound
  have hc : c.index ∈ o.lowerBounds a.index b.index :=
    ho.mem_lowerBounds.mpr ⟨h.1 (by simp), h.1 (by simp)⟩
  cases hmeet : o.meet? a.index b.index with
  | error found =>
      obtain ⟨d, hd, hnot⟩ := (leastOf_error hmeet).2 c.index hc
      exact absurd (hlower d hd) (by simp [hnot])
  | ok m =>
      obtain ⟨hm, hleast⟩ := leastOf_ok hmeet
      exact congrArg _ (ho.antisymm (hlower m hm) (hleast c.index hc))

end Ordered

/-- The greatest of the elements below two others. -/
structure IsMeet (o : Order) (a b c : Nat) : Prop where
  left : o.le c a = true
  right : o.le c b = true
  greatest : ∀ d, o.le d a = true → o.le d b = true → o.le d c = true

/-- A hierarchy is never refused for a missing meet: where one element of an order is the only
minimal one and any two have a join, the search finds the meet of any two. -/
theorem build_ne_noUniqueMeet :
    (∀ names subtypes a b found,
      build names subtypes ≠ .error (.noUniqueMeet a b found)) ∧
    ∀ o : Order, Ordered o → ∀ bottom, o.minimal = [bottom] →
      (∀ a < o.size, ∀ b < o.size, ∃ c, o.join? a b = .ok c) →
      ∀ a < o.size, ∀ b < o.size, ∃ c, o.meet? a b = .ok c ∧ IsMeet o a b c := by
  refine ⟨fun names subtypes a b found herror => ?_,
    fun o ho bottom hbottom hjoins a ha b hb => ?_⟩
  · have hsettles := build_settles names subtypes
    rw [herror] at hsettles
    nomatch hsettles
  · have hlub (x y : ho.Element) : ∃ c, IsLUB {x, y} c := by
      obtain ⟨j, hj⟩ := hjoins x.index x.lt y.index y.lt
      exact ho.isLUB_of_join? x y hj
    obtain ⟨c, hc⟩ := exists_isGLB_of_exists_isLUB hlub (ho.isBot_of_minimal hbottom)
      {⟨a, ha⟩, ⟨b, hb⟩}
    have hmeet := ho.meet?_of_isGLB hc
    obtain ⟨hm, hgreatest⟩ := leastOf_ok hmeet
    obtain ⟨hca, hcb⟩ := ho.mem_lowerBounds.mp hm
    exact ⟨c.index, hmeet, hca, hcb, fun d hda hdb =>
      hgreatest d (ho.mem_lowerBounds.mpr ⟨hda, hdb⟩)⟩

/-- Five elements of which one is incomparable to two others. -/
def pentagon : Order := closure (.ofEdges 5 [(4, 3), (3, 2), (2, 0), (4, 1), (1, 0)])

theorem pentagon_meets : Ordered pentagon ∧ pentagon.minimal = [4] ∧
    (∀ a < 5, ∀ b < 5, ∃ c, pentagon.join? a b = .ok c) ∧
    ∃ c, pentagon.meet? 1 2 = .ok c ∧ IsMeet pentagon 1 2 c := by
  have hordered : Ordered pentagon :=
    closure_ordered ⟨by decide, by decide⟩ (by decide +kernel)
  have hminimal : pentagon.minimal = [4] := by decide +kernel
  have hjoins : ∀ a < 5, ∀ b < 5, ∃ c, pentagon.join? a b = .ok c := by
    have hall : ∀ a < 5, ∀ b < 5, (pentagon.join? a b).toOption.isSome = true := by
      decide +kernel
    intro a ha b hb
    obtain ⟨c, hc⟩ := Option.isSome_iff_exists.mp (hall a ha b hb)
    exact ⟨c, ok_of_toOption hc⟩
  exact ⟨hordered, hminimal, hjoins,
    build_ne_noUniqueMeet.2 pentagon hordered 4 hminimal hjoins 1 (by decide) 2 (by decide)⟩

/-- One qualifier is strictly below another. -/
def IsBelow (h : Hierarchy) (a b : Qualifier) : Prop := h.isSubtype a b = true ∧ a ≠ b

/-- Qualifiers of a hierarchy, each strictly below the next. -/
structure StrictChain (h : Hierarchy) (chain : List Qualifier) : Prop where
  has : ∀ q ∈ chain, h.Has q
  rises : chain.IsChain h.IsBelow

/-- The height of a hierarchy is the number of steps of a longest strict chain, and the qualifiers
directly above one are those that cover it. -/
structure Ranked (h : Hierarchy) : Prop where
  longest : ∃ chain, h.StrictChain chain ∧ chain.head? = some h.bottom ∧
    chain.getLast? = some h.top ∧ chain.length = h.height + 1
  no_longer : ∀ chain, h.StrictChain chain → chain.length ≤ h.height + 1
  covers : ∀ a b, b ∈ h.directSupertypes a ↔
    h.IsBelow a b ∧ ∀ c, h.IsBelow a c → ¬ h.IsBelow c b
  generated : ∀ a b, h.IsBelow a b ↔ TransGen (fun x y => y ∈ h.directSupertypes x) a b
  antichain : ∀ a, ∀ b ∈ h.directSupertypes a, ∀ c ∈ h.directSupertypes a, ¬ h.IsBelow b c

variable {names : List String} {subtypes : List (String × String)} {h : Hierarchy}
  {depth : Qualifier → Nat} {a b : Qualifier}

theorem Lawful.isBelow_trans (hh : h.Lawful) {c : Qualifier} (hab : h.IsBelow a b)
    (hbc : h.IsBelow b c) : h.IsBelow a c := by
  refine ⟨hh.le_trans hab.1 hbc.1, ?_⟩
  rintro rfl
  exact hab.2 (hh.le_antisymm hab.1 hbc.1)

theorem isBelow_iff {a b : Qualifier} :
    h.IsBelow a b ↔ a.index ≠ b.index ∧ h.order.le a.index b.index = true := by
  rw [IsBelow, and_comm, isSubtype]
  exact and_congr_left fun _ => not_congr ⟨congrArg Qualifier.index, congrArg Qualifier.mk⟩

/-- The qualifiers directly above one are those that cover it. -/
theorem Lawful.mem_directSupertypes (hh : h.Lawful) (hsize : h.order.size = h.size) :
    b ∈ h.directSupertypes a ↔ h.IsBelow a b ∧ ∀ c, h.IsBelow a c → ¬ h.IsBelow c b := by
  have habove (x : Nat) :
      x ∈ (h.order.elements.filter fun y => y ≠ a.index && h.order.le a.index y) ↔
        h.IsBelow a ⟨x⟩ := by
    rw [List.mem_filter, isBelow_iff, Bool.and_eq_true, decide_eq_true_eq, ne_comm]
    refine and_iff_right_of_imp fun hx => List.mem_range.mpr ?_
    exact hsize ▸ (hh.has_of_le (b := ⟨x⟩) hx.2).2
  have hmem : b ∈ h.directSupertypes a ↔ b.index ∈ h.order.covers a.index := by
    rw [directSupertypes, List.mem_map]
    exact ⟨fun ⟨x, hx, heq⟩ => heq ▸ hx, fun hb => ⟨b.index, hb, rfl⟩⟩
  rw [hmem, Order.covers, List.mem_filter, habove]
  refine and_congr_right fun _ => ?_
  simp only [Bool.not_eq_true', List.any_eq_false, Bool.and_eq_true, decide_eq_true_eq, habove]
  constructor
  · exact fun hnone c hac hcb => hnone c.index hac (isBelow_iff.mp hcb)
  · exact fun hnone x hax hxb => hnone ⟨x⟩ hax (isBelow_iff.mpr hxb)

/-- Steps to qualifiers directly above make up the strict order. -/
theorem Graded.isBelow_iff_transGen (hg : h.Graded depth) (hh : h.Lawful)
    (hsize : h.order.size = h.size) :
    h.IsBelow a b ↔ TransGen (fun x y => y ∈ h.directSupertypes x) a b := by
  constructor
  · intro hab
    induction hn : depth b - depth a using Nat.strongRecOn generalizing a b with
    | ind n ih =>
        by_cases hcover : b ∈ h.directSupertypes a
        · exact .single hcover
        -- Otherwise a qualifier lies strictly between, at a depth strictly between.
        rw [hh.mem_directSupertypes hsize] at hcover
        push Not at hcover
        obtain ⟨c, hac, hcb⟩ := hcover hab
        have hlt := hg.lt hac.1 hac.2
        have hlt' := hg.lt hcb.1 hcb.2
        exact (ih _ (by omega) hac rfl).trans (ih _ (by omega) hcb rfl)
  · intro hsteps
    induction hsteps with
    | single hstep => exact ((hh.mem_directSupertypes hsize).mp hstep).1
    | tail _ hstep ih => exact hh.isBelow_trans ih ((hh.mem_directSupertypes hsize).mp hstep).1

/-- A strict chain takes no more steps than are left from the depth of its first qualifier to the
height. -/
theorem Graded.length_le (hg : h.Graded depth) {q : Qualifier} {rest : List Qualifier}
    (hchain : (q :: rest).IsChain h.IsBelow) : rest.length + depth q ≤ h.height := by
  induction rest generalizing q with
  | nil => simpa using hg.le_height q
  | cons r rest ih =>
      obtain ⟨hqr, hrest⟩ := List.isChain_cons_cons.mp hchain
      have hlt := hg.lt hqr.1 hqr.2
      have hle := ih hrest
      rw [List.length_cons]
      omega

/-- To every qualifier a chain as long as its depth leads from the bottom. -/
theorem Measured.exists_chain (hm : h.Measured depth)
    (hbottom : ∀ q, h.Has q → h.isSubtype h.bottom q = true) {q : Qualifier} (hh : h.Lawful)
    (hq : h.Has q) : ∃ chain, h.StrictChain (chain ++ [q]) ∧ (chain ++ [q]).head? = some h.bottom ∧
      chain.length = depth q := by
  induction hdepth : depth q generalizing q with
  | zero =>
      have heq : h.bottom = q := by
        by_contra hne
        exact absurd (hm.lt (hbottom q hq) hne) (by omega)
      exact ⟨[], ⟨by simpa using hq, .singleton q⟩, by simp [heq], rfl⟩
  | succ n ih =>
      rcases hm.attained q with hzero | ⟨a, hle, hne, hstep⟩
      · omega
      obtain ⟨chain, hchain, hhead, hlength⟩ := ih (hh.has_of_le hle).1 (by omega)
      refine ⟨chain ++ [a], ⟨?_, ?_⟩, by simpa using hhead, by simp [hlength]⟩
      · intro x hx
        rcases List.mem_append.mp hx with hx | hx
        · exact hchain.has x hx
        · exact List.mem_singleton.mp hx ▸ hq
      · refine hchain.rises.append (.singleton q) fun x hx y hy => ?_
        rw [List.getLast?_concat] at hx
        obtain rfl := Option.some.inj hx
        obtain rfl := Option.some.inj hy
        exact ⟨hle, hne⟩

theorem build_order_size (hok : build names subtypes = .ok h) : h.order.size = h.size := by
  obtain ⟨edges, -, -, hok⟩ := build_ok hok
  have hof := ofOrder_ok hok
  rw [hof.order, size, hof.names]
  rfl

/-- The height of every hierarchy is the number of steps of its longest strict chains, one of which
leads from the bottom to the top. The qualifiers directly above one cover it: they generate the
strict order, and none of them is above another one. -/
theorem build_ranked (hok : build names subtypes = .ok h) : h.Ranked := by
  have hh := build_lawful hok
  have hsize := build_order_size hok
  obtain ⟨depth, hm⟩ := build_measured hok
  have hcovers (a b : Qualifier) := hh.mem_directSupertypes hsize (a := a) (b := b)
  have htop : depth h.top = h.height := by
    have hle := hm.le_height h.top
    rcases hm.height with hzero | ⟨q, hq⟩
    · omega
    rcases hm.attained q with hzero | ⟨a, haq, -, -⟩
    · omega
    by_cases heq : q = h.top
    · rw [hq, heq]
    · have hlt := hm.lt (hh.le_top (hh.has_of_le haq).2) heq
      omega
  refine ⟨?_, fun chain hchain => ?_, hcovers,
    fun a b => hm.toGraded.isBelow_iff_transGen hh hsize, fun a b hb c hc hbc => ?_⟩
  · obtain ⟨chain, hchain, hhead, hlength⟩ :=
      hm.exists_chain (fun q hq => bottom_le hok hq) hh hh.has_top
    exact ⟨chain ++ [h.top], hchain, hhead, by simp, by simp [hlength, htop]⟩
  · cases chain with
    | nil => exact Nat.zero_le _
    | cons q rest =>
        have hle := hm.toGraded.length_le hchain.rises
        rw [List.length_cons]
        omega
  · exact ((hcovers a c).mp hc).2 b ((hcovers a b).mp hb).1 hbc

/-- Names of classes, declared with an edge that the others imply. -/
theorem classNames_ranked : ∃ h, build ["Unknown", "FullyQualifiedName", "BinaryName", "Bottom"]
    [("Bottom", "Unknown"), ("FullyQualifiedName", "Unknown"),
      ("BinaryName", "FullyQualifiedName"), ("Bottom", "BinaryName")] = .ok h ∧
    h.height = 3 ∧ h.directSupertypes ⟨3⟩ = [⟨2⟩] ∧ h.Ranked := by
  have hok : ((build ["Unknown", "FullyQualifiedName", "BinaryName", "Bottom"]
      [("Bottom", "Unknown"), ("FullyQualifiedName", "Unknown"),
        ("BinaryName", "FullyQualifiedName"), ("Bottom", "BinaryName")]).toOption.bind fun h =>
      if h.height = 3 ∧ h.directSupertypes ⟨3⟩ = [⟨2⟩] then some h else none).isSome = true := by
    decide +kernel
  obtain ⟨h', hh⟩ := Option.isSome_iff_exists.mp hok
  obtain ⟨h, hh, hchecked⟩ := Option.bind_eq_some_iff.mp hh
  obtain ⟨⟨hheight, hdirect⟩, -⟩ := Option.ite_none_right_eq_some.mp hchecked
  exact ⟨h, ok_of_toOption hh, hheight, hdirect, build_ranked (ok_of_toOption hh)⟩

end Hierarchy

end FlowTyping
