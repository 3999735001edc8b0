import FlowTyping.Proofs.Checker.Acceptance

/-!
The height of a hierarchy bounds how often a qualifier can climb: strictly larger
qualifiers end strictly longer chains, and no chain is longer than the height.
-/

namespace FlowTyping

open Relation

namespace Digraph

variable {g : Digraph} {listed ordered : List Nat}

/-- In an accepted order no vertex leads to one that is listed before it. -/
theorem pairwise_of_outOfOrder? (h : g.outOfOrder? listed ordered = none)
    (hclosed : ∀ v ∈ listed, ∀ u, (u, v) ∈ g.edges → u ∈ listed) (hnodup : ordered.Nodup)
    (hfresh : ∀ x ∈ ordered, x ∉ listed) :
    ordered.Pairwise fun x y => ¬ ReflTransGen (Edge g.successors) y x := by
  induction ordered generalizing listed with
  | nil => exact .nil
  | cons v rest ih =>
      rw [outOfOrder?] at h
      split at h
      · cases h
      rename_i hfind
      obtain ⟨hv, hnodup⟩ := List.nodup_cons.mp hnodup
      obtain ⟨hvnew, hrest⟩ := List.forall_mem_cons.mp hfresh
      have hclosed' : ∀ x ∈ v :: listed, ∀ u, (u, x) ∈ g.edges → u ∈ v :: listed := by
        intro x hx u hedge
        rcases List.mem_cons.mp hx with rfl | hx
        · have hin := List.find?_eq_none.mp hfind u (mem_predecessors.mpr hedge)
          rw [List.mem_cons, or_iff_not_imp_left]
          simpa using hin
        · exact List.mem_cons_of_mem v (hclosed x hx u hedge)
      refine List.pairwise_cons.mpr ⟨fun y hy hreach => ?_, ih h hclosed' hnodup fun x hx hin => ?_⟩
      · -- Everything that leads to `v` is listed by then.
        have hlisted : y ∈ v :: listed := by
          clear hy
          induction hreach using ReflTransGen.head_induction_on with
          | refl => exact List.mem_cons_self
          | head hedge _ ih => exact hclosed' _ ih _ (mem_successors.mp hedge)
        rcases List.mem_cons.mp hlisted with rfl | hin
        · exact hv hy
        · exact hrest y hy hin
      · rcases List.mem_cons.mp hin with rfl | hin
        · exact hv hx
        · exact hrest x hx hin

end Digraph

namespace Order

variable {o : Order} {ordered : List Nat}

/-- One element more is taken into account in the lengths of chains. -/
def lengthen (o : Order) (lengths : List Nat) (a : Nat) : List Nat :=
  lengths.mapIdx fun b n => if a ≠ b && o.le a b then max n (lengths.getD a 0 + 1) else n

theorem getD_lengthen {lengths : List Nat} {a b : Nat} (hb : b < lengths.length) :
    (o.lengthen lengths a).getD b 0 =
      if a ≠ b ∧ o.le a b = true then max (lengths.getD b 0) (lengths.getD a 0 + 1)
      else lengths.getD b 0 := by
  simp [lengthen, List.getD_eq_getElem?_getD, hb]

/-- The length of an element stays as it is when one that is not below it comes next. -/
theorem lengthen_final {lengths : List Nat} {a c : Nat} (ha : a < lengths.length)
    (hc : c = a ∨ (o.le c a = true → c = a)) :
    (o.lengthen lengths c).getD a 0 = lengths.getD a 0 := by
  rw [getD_lengthen ha, if_neg]
  rintro ⟨hne, hle⟩
  rcases hc with hc | hc
  · exact hne hc
  · exact hne (hc hle)

/-- The length of an element is final once it has been taken into account, and those of the
elements above are larger from then on. -/
theorem foldl_lengthen_lt {lengths : List Nat} {done : List Nat}
    (hordered : ordered.Pairwise fun x y => o.le y x = true → y = x)
    (hlater : ∀ x ∈ done, ∀ y ∈ ordered, o.le y x = true → y = x)
    (hdone : ∀ a ∈ done, ∀ b < lengths.length, a ≠ b → o.le a b = true →
      lengths.getD a 0 < lengths.getD b 0) (hbelow : ∀ a ∈ ordered, a < lengths.length)
    (hbelow' : ∀ a ∈ done, a < lengths.length) :
    ∀ a, a ∈ done ∨ a ∈ ordered → ∀ b < lengths.length, a ≠ b → o.le a b = true →
      (ordered.foldl o.lengthen lengths).getD a 0 <
        (ordered.foldl o.lengthen lengths).getD b 0 := by
  induction ordered generalizing lengths done with
  | nil =>
      rintro a (ha | ha)
      · exact hdone a ha
      · cases ha
  | cons c rest ih =>
      obtain ⟨hc, hrest⟩ := List.pairwise_cons.mp hordered
      obtain ⟨hclt, hbelow⟩ := List.forall_mem_cons.mp hbelow
      have hlength : (o.lengthen lengths c).length = lengths.length := List.length_mapIdx
      have hgrows {b : Nat} (hb : b < lengths.length) :
          lengths.getD b 0 ≤ (o.lengthen lengths c).getD b 0 := by
        rw [getD_lengthen hb]
        split
        · exact le_max_left _ _
        · exact le_refl _
      have hfinal {a : Nat} (ha : a = c ∨ a ∈ done) (halt : a < lengths.length) :
          (o.lengthen lengths c).getD a 0 = lengths.getD a 0 :=
        lengthen_final halt <| ha.imp Eq.symm fun ha => hlater a ha c List.mem_cons_self
      have hstep := @ih (o.lengthen lengths c) (c :: done) hrest ?_ ?_
        (hlength.symm ▸ hbelow) ?_
      · intro a ha b hb
        rw [List.foldl_cons]
        refine hstep a ?_ b (hlength.symm ▸ hb)
        rcases ha with ha | ha
        · exact .inl (List.mem_cons_of_mem c ha)
        · rcases List.mem_cons.mp ha with rfl | ha
          · exact .inl List.mem_cons_self
          · exact .inr ha
      · refine List.forall_mem_cons.mpr ⟨fun y hy => hc y hy, fun x hx y hy => ?_⟩
        exact hlater x hx y (List.mem_cons_of_mem c hy)
      · intro a ha b hb hne hle
        rw [hlength] at hb
        rcases List.mem_cons.mp ha with rfl | ha
        · rw [hfinal (.inl rfl) hclt, getD_lengthen hb, if_pos ⟨hne, hle⟩]
          exact Nat.lt_of_succ_le (le_max_right _ _)
        · rw [hfinal (.inr ha) (hbelow' a ha)]
          exact (hdone a ha b hb hne hle).trans_le (hgrows hb)
      · rw [hlength]
        exact List.forall_mem_cons.mpr ⟨hclt, hbelow'⟩

theorem chainLengths_lt (hordered : ordered.Pairwise fun x y => o.le y x = true → y = x)
    (hbelow : ∀ a ∈ ordered, a < o.size) {a b : Nat} (ha : a ∈ ordered) (hb : b < o.size)
    (hne : a ≠ b) (hle : o.le a b = true) :
    (o.chainLengths ordered).getD a 0 < (o.chainLengths ordered).getD b 0 := by
  have hlength : (List.replicate o.size 0).length = o.size := List.length_replicate
  exact @foldl_lengthen_lt o ordered _ [] hordered nofun nofun (hlength.symm ▸ hbelow) nofun a
    (.inr ha) b (hlength.symm ▸ hb) hne hle

/-- The length of every chain is reached from an element that has been taken into account. -/
theorem foldl_lengthen_attained {lengths : List Nat} {done : List Nat}
    (hordered : ordered.Pairwise fun x y => o.le y x = true → y = x)
    (hlater : ∀ x ∈ done, ∀ y ∈ ordered, o.le y x = true → y = x)
    (hdone : ∀ b < lengths.length, lengths.getD b 0 = 0 ∨ ∃ a ∈ done, a ≠ b ∧ o.le a b = true ∧
      lengths.getD b 0 = lengths.getD a 0 + 1)
    (hbelow : ∀ a ∈ ordered, a < lengths.length) (hbelow' : ∀ a ∈ done, a < lengths.length) :
    ∀ b < lengths.length, (ordered.foldl o.lengthen lengths).getD b 0 = 0 ∨
      ∃ a, a ≠ b ∧ o.le a b = true ∧ (ordered.foldl o.lengthen lengths).getD b 0 =
        (ordered.foldl o.lengthen lengths).getD a 0 + 1 := by
  induction ordered generalizing lengths done with
  | nil =>
      intro b hb
      refine (hdone b hb).imp_right ?_
      rintro ⟨a, -, ha⟩
      exact ⟨a, ha⟩
  | cons c rest ih =>
      obtain ⟨hc, hrest⟩ := List.pairwise_cons.mp hordered
      obtain ⟨hclt, hbelow⟩ := List.forall_mem_cons.mp hbelow
      have hlength : (o.lengthen lengths c).length = lengths.length := List.length_mapIdx
      have hfinal {a : Nat} (ha : a = c ∨ a ∈ done) (halt : a < lengths.length) :
          (o.lengthen lengths c).getD a 0 = lengths.getD a 0 :=
        lengthen_final halt <| ha.imp Eq.symm fun ha => hlater a ha c List.mem_cons_self
      rw [← hlength]
      rw [← hlength] at hbelow
      refine @ih (o.lengthen lengths c) (c :: done) hrest ?_ ?_ hbelow ?_
      · refine List.forall_mem_cons.mpr ⟨fun y hy => hc y hy, fun x hx y hy => ?_⟩
        exact hlater x hx y (List.mem_cons_of_mem c hy)
      · intro b hb
        rw [hlength] at hb
        have hold : lengths.getD b 0 = 0 ∨ ∃ a ∈ c :: done, a ≠ b ∧ o.le a b = true ∧
            lengths.getD b 0 = (o.lengthen lengths c).getD a 0 + 1 := by
          refine (hdone b hb).imp_right ?_
          rintro ⟨a, ha, hne, hle, heq⟩
          refine ⟨a, List.mem_cons_of_mem c ha, hne, hle, ?_⟩
          rw [heq, hfinal (.inr ha) (hbelow' a ha)]
        rw [getD_lengthen hb]
        split
        · rename_i hcb
          rcases max_choice (lengths.getD b 0) (lengths.getD c 0 + 1) with hmax | hmax
          · rw [hmax]
            exact hold
          · rw [hmax]
            refine .inr ⟨c, List.mem_cons_self, hcb.1, hcb.2, ?_⟩
            rw [hfinal (.inl rfl) hclt]
        · exact hold
      · rw [hlength]
        exact List.forall_mem_cons.mpr ⟨hclt, hbelow'⟩

theorem length_chainLengths (o : Order) (ordered : List Nat) :
    (o.chainLengths ordered).length = o.size := by
  have hfold (lengths : List Nat) : (ordered.foldl o.lengthen lengths).length = lengths.length := by
    induction ordered generalizing lengths with
    | nil => rfl
    | cons a rest ih => exact (ih _).trans List.length_mapIdx
  exact (hfold _).trans List.length_replicate

theorem chainLengths_attained (hordered : ordered.Pairwise fun x y => o.le y x = true → y = x)
    (hbelow : ∀ a ∈ ordered, a < o.size) {b : Nat} (hb : b < o.size) :
    (o.chainLengths ordered).getD b 0 = 0 ∨ ∃ a, a ≠ b ∧ o.le a b = true ∧
      (o.chainLengths ordered).getD b 0 = (o.chainLengths ordered).getD a 0 + 1 := by
  have hlength : (List.replicate o.size 0).length = o.size := List.length_replicate
  refine @foldl_lengthen_attained o ordered _ [] hordered nofun ?_ (hlength.symm ▸ hbelow) nofun b
    (hlength.symm ▸ hb)
  intro b _
  exact .inl (by simp [List.getD_eq_getElem?_getD, List.getElem?_replicate]; split <;> rfl)

end Order

namespace Hierarchy

/-- Qualifiers have depths below the height that grow strictly with them. -/
structure Graded (h : Hierarchy) (depth : Qualifier → Nat) : Prop where
  le_height : ∀ q, depth q ≤ h.height
  lt : ∀ {a b}, h.isSubtype a b = true → a ≠ b → depth a < depth b

theorem le_foldl_max {l : List Nat} {n x : Nat} (hx : x ≤ n ∨ x ∈ l) : x ≤ l.foldl max n := by
  induction l generalizing n with
  | nil => exact hx.resolve_right List.not_mem_nil
  | cons y rest ih =>
      refine ih ?_
      rcases hx with hx | hx
      · exact .inl (hx.trans (le_max_left n y))
      · rcases List.mem_cons.mp hx with rfl | hx
        · exact .inl (le_max_right n x)
        · exact .inr hx

variable {names : List String} {subtypes : List (String × String)} {h h' : Hierarchy}

theorem ofOrder_height {o : Order} {ordered : List Nat} (hok : ofOrder names o ordered = .ok h) :
    h.height = (o.chainLengths ordered).foldl max 0 := by
  obtain ⟨top, bottom, joins, meets, -, -, -, -, rfl⟩ := ofOrder_steps hok
  rfl

/-- Depths that count the steps of a longest chain down. -/
structure Measured (h : Hierarchy) (depth : Qualifier → Nat) : Prop extends Graded h depth where
  attained : ∀ q, depth q = 0 ∨ ∃ a, h.isSubtype a q = true ∧ a ≠ q ∧ depth q = depth a + 1
  height : h.height = 0 ∨ ∃ q, h.height = depth q

theorem foldl_max_mem (l : List Nat) (n : Nat) : l.foldl max n = n ∨ l.foldl max n ∈ l := by
  induction l generalizing n with
  | nil => exact .inl rfl
  | cons x rest ih =>
      rw [List.foldl_cons]
      rcases ih (max n x) with hmax | hmem
      · rcases max_choice n x with hn | hx
        · exact .inl (hmax.trans hn)
        · exact .inr (by rw [hmax, hx]; exact List.mem_cons_self)
      · exact .inr (List.mem_cons_of_mem x hmem)

/-- Every hierarchy that is built is as high as its longest chain. -/
theorem build_measured (hok : build names subtypes = .ok h) : ∃ depth, h.Measured depth := by
  obtain ⟨edges, hedges, hacyclic, hok⟩ := build_ok hok
  have hsimple := declaredGraph_simple hedges
  have hpairwise : (declaredGraph names edges).fullWalk.finished.Pairwise fun x y =>
      (closure (declaredGraph names edges)).le y x = true → y = x := by
    have hfinished := hsimple.fullWalk_grown.nodup
    refine (Digraph.pairwise_of_outOfOrder? hacyclic nofun hfinished nofun).imp ?_
    intro x y hnot hle
    exact absurd ((closure_le hsimple).mp hle).2.2 hnot
  have hmem (a : Nat) : a ∈ (declaredGraph names edges).fullWalk.finished ↔
      a < (closure (declaredGraph names edges)).size := hsimple.mem_fullWalk
  have hbelow {a b : Nat} (hle : (closure (declaredGraph names edges)).le a b = true) :
      a < (closure (declaredGraph names edges)).size ∧
        b < (closure (declaredGraph names edges)).size := by
    obtain ⟨ha, hb, -⟩ := (closure_le hsimple).mp hle
    exact ⟨ha, hb⟩
  have horder := (ofOrder_ok hok).order
  have hheight := ofOrder_height hok
  generalize (declaredGraph names edges).fullWalk.finished = ordered at *
  generalize closure (declaredGraph names edges) = o at *
  subst horder
  have hlength : (h.order.chainLengths ordered).length = h.order.size :=
    h.order.length_chainLengths ordered
  refine ⟨fun q => (h.order.chainLengths ordered).getD q.index 0, ⟨fun q => ?_, fun hle hne => ?_⟩,
    fun q => ?_, ?_⟩
  · rw [hheight, List.getD_eq_getElem?_getD]
    cases hq : (h.order.chainLengths ordered)[q.index]? with
    | none => exact Nat.zero_le _
    | some n => exact le_foldl_max (.inr (List.mem_of_getElem? hq))
  · obtain ⟨ha, hb⟩ := hbelow hle
    exact Order.chainLengths_lt hpairwise (fun a => (hmem a).mp) ((hmem _).mpr ha) hb
      (fun heq => hne (congrArg Qualifier.mk heq)) hle
  · by_cases hq : q.index < h.order.size
    · refine (Order.chainLengths_attained hpairwise (fun a => (hmem a).mp) hq).imp_right ?_
      rintro ⟨a, hne, hle, heq⟩
      exact ⟨⟨a⟩, hle, fun h => hne (congrArg Qualifier.index h), heq⟩
    · exact .inl (by simp [List.getD_eq_getElem?_getD, hlength, hq])
  · rcases foldl_max_mem (h.order.chainLengths ordered) 0 with hzero | hmax
    · exact .inl (hheight.trans hzero)
    · obtain ⟨i, hi, heq⟩ := List.getElem_of_mem hmax
      exact .inr ⟨⟨i⟩, by simp [hheight, List.getD_eq_getElem?_getD, hi, heq]⟩

/-- Every hierarchy that is built is graded. -/
theorem build_graded (hok : build names subtypes = .ok h) : ∃ depth, h.Graded depth := by
  obtain ⟨depth, hdepth⟩ := build_measured hok
  exact ⟨depth, hdepth.toGraded⟩

/-- An order that contains another one is at least as high. -/
theorem Measured.height_le {depth depth' : Qualifier → Nat} (hm : h.Measured depth)
    (hg : h'.Graded depth') {f : Qualifier → Qualifier}
    (hf : ∀ a b, h.isSubtype a b = true → a ≠ b → h'.isSubtype (f a) (f b) = true ∧ f a ≠ f b) :
    h.height ≤ h'.height := by
  have hdepth (n : Nat) : ∀ q, depth q = n → n ≤ depth' (f q) := by
    induction n with
    | zero => exact fun q _ => Nat.zero_le _
    | succ n ih =>
        intro q hq
        rcases hm.attained q with hzero | ⟨a, hle, hne, heq⟩
        · exact absurd (hzero.symm.trans hq) (Nat.succ_ne_zero n).symm
        · obtain ⟨hle', hne'⟩ := hf a q hle hne
          have ha := ih a (Nat.succ.inj (heq.symm.trans hq))
          exact ha.trans_lt (hg.lt hle' hne')
  rcases hm.height with hzero | ⟨q, hq⟩
  · rw [hzero]
    exact Nat.zero_le _
  · rw [hq]
    exact (hdepth _ q rfl).trans (hg.le_height (f q))

end Hierarchy

/-- Every declared checker is over a graded hierarchy. -/
theorem Checker.ofDeclaration_graded {d : CheckerDeclaration} {c : Checker}
    (hok : ofDeclaration d = .ok c) : ∃ depth, c.hierarchy.Graded depth := by
  obtain ⟨names, subtypes, hbuilt⟩ := ofDeclaration_hierarchy hok
  exact Hierarchy.build_graded hbuilt

end FlowTyping

/-!
The tables of a hierarchy have a cell for each pair of qualifiers and no other.
-/

namespace FlowTyping

namespace Hierarchy

variable {names : List String} {subtypes : List (String × String)} {h : Hierarchy}

/-- A table has a row for each qualifier, and in it a cell for each. -/
structure Square {α : Type} (size : Nat) (table : Array (Array α)) : Prop where
  rows : table.size = size
  cells : ∀ a (ha : a < table.size), table[a].size = size

theorem rows_square {size : Nat} {cell : Nat → Nat → Except DeclarationError Nat}
    {table : Array (Array Qualifier)} (hok : rows size cell = .ok table) : Square size table := by
  obtain ⟨lists, hlists, hok⟩ := bind_ok.mp hok
  obtain rfl := (Except.ok.inj hok).symm
  have hrows := forall₂_of_mapM hlists
  have hsize : lists.length = size := hrows.length_eq.symm.trans List.length_range
  constructor
  · simpa using hsize
  · intro a ha
    have ha : a < lists.length := by simpa using ha
    obtain ⟨row, hrow, hcells⟩ := getElem?_of_forall₂ hrows (List.getElem?_range (hsize ▸ ha))
    have hlength : row.length = size :=
      (forall₂_of_mapM hcells).length_eq.symm.trans List.length_range
    have hget : lists[a] = row := Option.some.inj ((List.getElem?_eq_getElem ha).symm.trans hrow)
    simpa [hget] using hlength

/-- Every table of a hierarchy is square. -/
structure Tabled (h : Hierarchy) : Prop where
  order : Square h.size h.order.table
  joins : Square h.size h.joins
  meets : Square h.size h.meets

theorem build_tabled (hok : build names subtypes = .ok h) : h.Tabled := by
  obtain ⟨edges, -, -, hok⟩ := build_ok hok
  have hof := ofOrder_ok hok
  have hsize : h.size = (closure (declaredGraph names edges)).size :=
    (congrArg List.length hof.names).trans rfl
  have horder : Square h.size h.order.table := by
    rw [hof.order, hsize]
    constructor
    · simp [closure, Order.tabulate]
    · intro a ha
      simp [closure, Order.tabulate]
  obtain ⟨top, bottom, joins, meets, -, -, hjoins, hmeets, rfl⟩ := ofOrder_steps hok
  exact ⟨horder, hsize ▸ rows_square hjoins, hsize ▸ rows_square hmeets⟩

/-- What a table holds for a pair. -/
theorem Square.cell {α : Type} {size : Nat} {table : Array (Array α)} (hs : Square size table)
    {a b : Nat} (ha : a < size) (hb : b < size) (d : α) :
    ∃ row, table[a]? = some row ∧ row[b]? = some ((table.getD a #[]).getD b d) := by
  have ha : a < table.size := hs.rows.symm ▸ ha
  have hb : b < table[a].size := (hs.cells a ha).symm ▸ hb
  exact ⟨table[a], Array.getElem?_eq_getElem ha, by simp [ha, hb]⟩

theorem Square.outside {α : Type} {size : Nat} {table : Array (Array α)} (hs : Square size table)
    {a b : Nat} (hab : ¬ (a < size ∧ b < size)) (d : α) : (table.getD a #[]).getD b d = d := by
  by_cases ha : a < table.size
  · have hb : ¬ b < table[a].size := fun hb => hab ⟨hs.rows ▸ ha, hs.cells a ha ▸ hb⟩
    simp [ha, hb]
  · simp [ha]

theorem Tabled.join_outside (ht : h.Tabled) {a b : Qualifier} (hab : ¬ (h.Has a ∧ h.Has b)) :
    h.join a b = h.top := ht.joins.outside hab h.top

theorem Tabled.meet_outside (ht : h.Tabled) {a b : Qualifier} (hab : ¬ (h.Has a ∧ h.Has b)) :
    h.meet a b = h.bottom := ht.meets.outside hab h.bottom

end Hierarchy

end FlowTyping
