import FlowTyping.Proofs.Flow.Stores
import FlowTyping.Proofs.Graph.Valid

/-!
Stores and transfer results as join semilattices. The laws hold up to what is said: an entry at
the top says nothing, and a join writes such entries.
-/

namespace FlowTyping

section Laws

variable {α : Type} {P : α → Prop} {le same : α → α → Bool} {join : α → α → α}

/-- Some elements have an order and least joins in it. Those that are at or below each other are
the same. -/
structure LeastJoins (P : α → Prop) (le same : α → α → Bool) (join : α → α → α) : Prop where
  closed : ∀ {a b}, P a → P b → P (join a b)
  refl : ∀ {a}, P a → le a a = true
  trans : ∀ {a b c}, P a → P b → P c → le a b = true → le b c = true → le a c = true
  same_iff : ∀ {a b}, P a → P b → (same a b = true ↔ le a b = true ∧ le b a = true)
  le_left : ∀ {a b}, P a → P b → le a (join a b) = true
  le_right : ∀ {a b}, P a → P b → le b (join a b) = true
  least : ∀ {a b c}, P a → P b → P c → le a c = true → le b c = true → le (join a b) c = true

/-- Some elements are a join semilattice, up to what is the same. -/
structure IsJoinSemilattice (P : α → Prop) (le same : α → α → Bool) (join : α → α → α) : Prop
    extends LeastJoins P le same join where
  comm : ∀ {a b}, P a → P b → same (join a b) (join b a) = true
  assoc : ∀ {a b c}, P a → P b → P c → same (join (join a b) c) (join a (join b c)) = true
  idem : ∀ {a}, P a → same (join a a) a = true

/-- Least joins in an order, as the order is computed. -/
theorem LeastJoins.of_iff {Le : α → α → Prop}
    (hle : ∀ {a b}, P a → P b → (le a b = true ↔ Le a b))
    (closed : ∀ {a b}, P a → P b → P (join a b)) (refl : ∀ {a}, P a → Le a a)
    (trans : ∀ {a b c}, Le a b → Le b c → Le a c)
    (same_iff : ∀ {a b}, P a → P b → (same a b = true ↔ Le a b ∧ Le b a))
    (le_left : ∀ {a b}, P a → P b → Le a (join a b))
    (le_right : ∀ {a b}, P a → P b → Le b (join a b))
    (least : ∀ {a b c}, P a → P b → Le a c → Le b c → Le (join a b) c) :
    LeastJoins P le same join where
  closed := closed
  refl ha := (hle ha ha).mpr (refl ha)
  trans ha hb hc hab hbc := (hle ha hc).mpr (trans ((hle ha hb).mp hab) ((hle hb hc).mp hbc))
  same_iff ha hb := by
    rw [hle ha hb, hle hb ha]
    exact same_iff ha hb
  le_left ha hb := (hle ha (closed ha hb)).mpr (le_left ha hb)
  le_right ha hb := (hle hb (closed ha hb)).mpr (le_right ha hb)
  least ha hb hc hac hbc :=
    (hle (closed ha hb) hc).mpr (least ha hb ((hle ha hc).mp hac) ((hle hb hc).mp hbc))

namespace LeastJoins

variable (hJ : LeastJoins P le same join) {a a' b b' c d : α}

include hJ

theorem mono (ha : P a) (hb : P b) (ha' : P a') (hb' : P b') (hle : le a a' = true)
    (hle' : le b b' = true) : le (join a b) (join a' b') = true := by
  have hab := hJ.closed ha' hb'
  exact hJ.least ha hb hab (hJ.trans ha ha' hab hle (hJ.le_left ha' hb'))
    (hJ.trans hb hb' hab hle' (hJ.le_right ha' hb'))

theorem le_of_left (ha : P a) (hb : P b) (hc : P c) (hle : le a b = true) :
    le a (join b c) = true :=
  hJ.trans ha hb (hJ.closed hb hc) hle (hJ.le_left hb hc)

theorem le_of_right (ha : P a) (hb : P b) (hc : P c) (hle : le a c = true) :
    le a (join b c) = true :=
  hJ.trans ha hc (hJ.closed hb hc) hle (hJ.le_right hb hc)

theorem same_refl (ha : P a) : same a a = true :=
  (hJ.same_iff ha ha).mpr ⟨hJ.refl ha, hJ.refl ha⟩

theorem comm_le (ha : P a) (hb : P b) : le (join a b) (join b a) = true :=
  hJ.least ha hb (hJ.closed hb ha) (hJ.le_right hb ha) (hJ.le_left hb ha)

theorem interchange_le (ha : P a) (hb : P b) (hc : P c) (hd : P d) :
    le (join (join a b) (join c d)) (join (join a c) (join b d)) = true := by
  have hac := hJ.closed ha hc
  have hbd := hJ.closed hb hd
  have hleft := hJ.mono ha hb hac hbd (hJ.le_left ha hc) (hJ.le_left hb hd)
  have hright := hJ.mono hc hd hac hbd (hJ.le_right ha hc) (hJ.le_right hb hd)
  exact hJ.least (hJ.closed ha hb) (hJ.closed hc hd) (hJ.closed hac hbd) hleft hright

/-- Joins of joins may be taken crosswise. -/
theorem interchange (ha : P a) (hb : P b) (hc : P c) (hd : P d) :
    same (join (join a b) (join c d)) (join (join a c) (join b d)) = true :=
  (hJ.same_iff (hJ.closed (hJ.closed ha hb) (hJ.closed hc hd))
    (hJ.closed (hJ.closed ha hc) (hJ.closed hb hd))).mpr
    ⟨hJ.interchange_le ha hb hc hd, hJ.interchange_le ha hc hb hd⟩

theorem isJoinSemilattice : IsJoinSemilattice P le same join where
  toLeastJoins := hJ
  comm ha hb := (hJ.same_iff (hJ.closed ha hb) (hJ.closed hb ha)).mpr
    ⟨hJ.comm_le ha hb, hJ.comm_le hb ha⟩
  assoc {a b c} ha hb hc := by
    have hab := hJ.closed ha hb
    have hbc := hJ.closed hb hc
    have hleft := hJ.closed hab hc
    have hright := hJ.closed ha hbc
    refine (hJ.same_iff hleft hright).mpr
      ⟨hJ.least hab hc hright ?_ ?_, hJ.least ha hbc hleft ?_ ?_⟩
    · exact hJ.mono ha hb ha hbc (hJ.refl ha) (hJ.le_left hb hc)
    · exact hJ.le_of_right hc ha hbc (hJ.le_right hb hc)
    · exact hJ.le_of_left ha hab hc (hJ.le_left ha hb)
    · exact hJ.mono hb hc hab hc (hJ.le_right ha hb) (hJ.refl hc)
  idem ha := (hJ.same_iff (hJ.closed ha ha) ha).mpr
    ⟨hJ.least ha ha ha (hJ.refl ha) (hJ.refl ha), hJ.le_left ha ha⟩

end LeastJoins

end Laws

namespace Store

variable {h : Hierarchy} {a b s t : Store} {key : FlowKey} {q : Qualifier}

/-- The stores over a hierarchy: those of reached points, and the empty one that stands for all
other points. -/
structure Over (h : Hierarchy) (s : Store) : Prop where
  wf : s.Wf h
  reached : s.reachable = true ∨ s = unreachable h

theorem unreachable_join (h : Hierarchy) (s : Store) : (unreachable h).join h s = s := rfl

theorem Over.join_unreachable (hs : s.Over h) : s.join h (unreachable h) = s := by
  rcases hs.reached with hr | rfl
  · simp [join, hr, unreachable]
  · rfl

theorem Over.join (hh : h.Lawful) (ha : a.Over h) (hb : b.Over h) : (a.join h b).Over h := by
  refine ⟨ha.wf.join hh hb.wf, ?_⟩
  rcases ha.reached with hra | rfl
  · exact .inl (by rw [reachable_join, hra, Bool.true_or])
  · exact hb.reached

theorem Over.same_iff (hh : h.Lawful) (ha : a.Over h) (hb : b.Over h) :
    a.same b = true ↔ a.Le h b ∧ b.Le h a := by
  refine ⟨le_of_same hh ha.wf hb.wf, fun ⟨hab, hba⟩ => ?_⟩
  rcases ha.reached with hra | rfl
  · exact same_of_le hh ha.wf hb.wf hra hab hba
  rcases hb.reached with hrb | rfl
  · cases (hba hrb).1
  · rfl

/-- The order of stores and their least joins. -/
theorem leastJoins (hh : h.Lawful) :
    LeastJoins (Over h) (isSubsumedBy h) same (Store.join h) :=
  .of_iff (fun ha hb => isSubsumedBy_iff hh ha.wf hb.wf) (Over.join hh)
    (fun ha => le_refl hh ha.wf) (Le.trans hh) (Over.same_iff hh)
    (fun ha hb => le_join_left hh ha.wf hb.wf) (fun ha hb => le_join_right hh ha.wf hb.wf)
    (fun ha hb => join_le hh ha.wf hb.wf)

/-- A store is the greatest one below another in which a key is at or below a qualifier. -/
structure Narrows (h : Hierarchy) (s : Store) (key : FlowKey) (q : Qualifier) (r : Store) :
    Prop where
  within : r.Over h
  reached : r.reachable = true
  below : r.isSubsumedBy h s = true
  value : h.isSubtype (r.valueOrTop key) q = true
  greatest : ∀ t : Store, t.Over h → t.isSubsumedBy h s = true →
    (t.reachable = true → h.isSubtype (t.valueOrTop key) q = true) → t.isSubsumedBy h r = true

theorem valueOrTop_refine (k : FlowKey) : (s.refine h key q).valueOrTop k =
    if k = key ∧ key.isRefinable = true then h.meet (s.valueOrTop key) q else s.valueOrTop k :=
  valueOrTop_insert

theorem refine_narrows (hh : h.Lawful) (hs : s.Over h) (hr : s.reachable = true)
    (hkey : key.isRefinable = true) (hq : h.Has q) : s.Narrows h key q (s.refine h key q) := by
  have hkeyed := hs.wf.has_valueOrTop hh key
  have hwf : (s.refine h key q).Wf h := hs.wf.refine hh hq
  have hreached : (s.refine h key q).reachable = true := reachable_insert.trans hr
  refine ⟨⟨hwf, .inl hreached⟩, hreached, ?_, ?_, fun t ht hts htq => ?_⟩
  · refine (isSubsumedBy_iff hh hwf hs.wf).mpr fun _ => ⟨hr, fun k => ?_⟩
    rw [valueOrTop_refine]
    split
    · rename_i hk
      rw [hk.1]
      exact hh.meet_le_left hkeyed hq
    · exact hh.le_refl (hs.wf.has_valueOrTop hh k)
  · rw [valueOrTop_refine, if_pos ⟨rfl, hkey⟩]
    exact hh.meet_le_right hkeyed hq
  · refine (isSubsumedBy_iff hh ht.wf hwf).mpr fun hrt => ⟨hreached, fun k => ?_⟩
    obtain ⟨-, hle⟩ := (isSubsumedBy_iff hh ht.wf hs.wf).mp hts hrt
    rw [valueOrTop_refine]
    split
    · rename_i hk
      exact hh.le_meet (hk.1 ▸ hle k) (hk.1 ▸ htq hrt)
    · exact hle k

end Store

/-- The laws of stores. The stores over a hierarchy are a join semilattice whose least element is
the store of what is not reached, and the identity of the join. In a join of reached stores a key
of one side alone has an entry at the top, and a refinable key is narrowed as little as it can
be. -/
structure Hierarchy.StoreLaws (h : Hierarchy) : Prop where
  semilattice : IsJoinSemilattice (Store.Over h) (Store.isSubsumedBy h) Store.same (Store.join h)
  least : ∀ s : Store, s.Over h → (Store.unreachable h).isSubsumedBy h s = true
  identity : ∀ s : Store, s.Over h →
    (Store.unreachable h).join h s = s ∧ s.join h (Store.unreachable h) = s
  oneSided : ∀ (a b : Store) (key : FlowKey), a.Over h → b.Over h → a.reachable = true →
    b.reachable = true → (a.get? key).isSome ≠ (b.get? key).isSome →
    (a.join h b).get? key = some h.top
  narrows : ∀ (s : Store) (key : FlowKey) (q : Qualifier), s.Over h → s.reachable = true →
    key.isRefinable = true → h.Has q → s.Narrows h key q (s.refine h key q)

/-- A key of one side alone has an entry at the top in the join. -/
theorem Store.get?_join_oneSided {h : Hierarchy} {a b : Store} {key : FlowKey}
    (hra : a.reachable = true) (hrb : b.reachable = true)
    (hone : (a.get? key).isSome ≠ (b.get? key).isSome) :
    (a.join h b).get? key = some h.top := by
  rw [get?_join hra hrb]
  have hmem : key ∈ a.keys ++ b.keys := by
    by_contra hnone
    rw [List.mem_append, not_or] at hnone
    rw [get?_eq_none.mpr hnone.1, get?_eq_none.mpr hnone.2] at hone
    exact hone rfl
  rw [if_pos hmem]
  cases ha : a.get? key with
  | none => rfl
  | some x =>
      cases hb : b.get? key with
      | none => rfl
      | some y => simp [ha, hb] at hone

/-- Stores over a hierarchy that is accepted form a join semilattice. -/
theorem Hierarchy.build_storeLaws {names : List String} {subtypes : List (String × String)}
    {h : Hierarchy} (hok : Hierarchy.build names subtypes = .ok h) : h.StoreLaws := by
  have hh := Hierarchy.build_lawful hok
  exact {
    semilattice := (Store.leastJoins hh).isJoinSemilattice
    least := fun s _ => rfl
    identity := fun s hs => ⟨Store.unreachable_join h s, hs.join_unreachable⟩
    oneSided := fun a b key _ _ hra hrb hone => Store.get?_join_oneSided hra hrb hone
    narrows := fun s key q hs hr hkey hq => Store.refine_narrows hh hs hr hkey hq }

/-- Two marks that exclude each other, with what may carry one and what carries none. -/
def marks : List String × List (String × String) :=
  (["any", "tainted", "clean", "none"],
    [("tainted", "any"), ("clean", "any"), ("none", "tainted"), ("none", "clean")])

theorem marks_storeLaws : ∃ h, Hierarchy.build marks.1 marks.2 = .ok h ∧ h.StoreLaws ∧
    let x := FlowKey.local "x"
    let tainted := (Store.new h).insert x ⟨1⟩
    (tainted.join h (.new h)).get? x = some h.top ∧
      (tainted.refine h x ⟨2⟩).valueOrTop x = h.bottom := by
  have hok : ((Hierarchy.build marks.1 marks.2).toOption.bind fun h =>
      let x := FlowKey.local "x"
      let tainted := (Store.new h).insert x ⟨1⟩
      if (tainted.join h (.new h)).get? x = some h.top ∧
        (tainted.refine h x ⟨2⟩).valueOrTop x = h.bottom then some h else none).isSome = true := by
    decide +kernel
  obtain ⟨h', hh⟩ := Option.isSome_iff_exists.mp hok
  obtain ⟨h, hbuilt, hh⟩ := Option.bind_eq_some_iff.mp hh
  have hbuilt := ok_of_toOption hbuilt
  exact ⟨h, hbuilt, Hierarchy.build_storeLaws hbuilt, (Option.ite_none_right_eq_some.mp hh).1⟩

namespace TransferResult

variable {h : Hierarchy} {a b : TransferResult}

/-- The results over a hierarchy: those whose outcomes are stores over it. -/
structure Over (h : Hierarchy) (r : TransferResult) : Prop where
  thenStore : r.thenStore.Over h
  elseStore : r.elseStore.Over h

theorem Over.wf (ha : a.Over h) : a.Wf h := ⟨ha.thenStore.wf, ha.elseStore.wf⟩

theorem Over.collapse (hh : h.Lawful) (ha : a.Over h) : (a.collapse h).Over h := by
  cases a with
  | regular s => exact ha.thenStore
  | split t e => exact ha.thenStore.join hh ha.elseStore

theorem Over.join (hh : h.Lawful) (ha : a.Over h) (hb : b.Over h) : (a.join h b).Over h := by
  rcases join_cases h a b with ⟨t, e, t', e', rfl, rfl⟩ | ⟨-, heq⟩
  · exact ⟨ha.thenStore.join hh hb.thenStore, ha.elseStore.join hh hb.elseStore⟩
  · have hjoin := (ha.collapse hh).join hh (hb.collapse hh)
    exact heq ▸ ⟨hjoin, hjoin⟩

theorem Over.same_iff (hh : h.Lawful) (ha : a.Over h) (hb : b.Over h) :
    a.same b = true ↔ a.Le h b ∧ b.Le h a := by
  refine ⟨le_of_same hh ha.wf hb.wf, fun ⟨hab, hba⟩ => ?_⟩
  have ht := (ha.thenStore.same_iff hh hb.thenStore).mpr ⟨hab.thenStore, hba.thenStore⟩
  have he := (ha.elseStore.same_iff hh hb.elseStore).mpr ⟨hab.elseStore, hba.elseStore⟩
  exact TransferResult.same_iff.mpr ⟨hab.isSplit_eq hba, ht, he⟩

/-- The order of results and their least joins. -/
theorem leastJoins (hh : h.Lawful) :
    LeastJoins (Over h) (isBelow h) same (TransferResult.join h) :=
  .of_iff (fun ha hb => isBelow_iff hh ha.wf hb.wf) (Over.join hh)
    (fun ha => le_refl hh ha.wf) (Le.trans hh) (Over.same_iff hh)
    (fun ha hb => le_join_left hh ha.wf hb.wf) (fun ha hb => le_join_right hh ha.wf hb.wf)
    (fun ha hb => join_le hh ha.wf hb.wf)

theorem swap_swap (r : TransferResult) : r.swap.swap = r := by
  cases r <;> rfl

theorem swap_join (ha : a.isSplit = true) (hb : b.isSplit = true) :
    (a.join h b).swap = a.swap.join h b.swap := by
  cases a with
  | regular s => cases ha
  | split t e =>
      cases b with
      | regular s => cases hb
      | split t' e' => rfl

/-- Outcomes that are joined one by one collapse to the join of the collapses. -/
theorem collapse_join (hh : h.Lawful) (ha : a.Over h) (hb : b.Over h) :
    ((a.join h b).collapse h).same ((a.collapse h).join h (b.collapse h)) = true := by
  rcases join_cases h a b with ⟨t, e, t', e', rfl, rfl⟩ | ⟨-, heq⟩
  · exact (Store.leastJoins hh).interchange ha.thenStore hb.thenStore ha.elseStore hb.elseStore
  · rw [heq]
    exact (Store.leastJoins hh).same_refl ((ha.collapse hh).join hh (hb.collapse hh))

end TransferResult

/-- The laws of transfer results. They are a join semilattice in the order in which a split result
may lie below a collapsed one, but not the other way; outcomes may be exchanged before or after
split results are joined, and collapsed before or after a join. -/
structure Hierarchy.ResultLaws (h : Hierarchy) : Prop where
  semilattice : IsJoinSemilattice (TransferResult.Over h) (TransferResult.isBelow h)
    TransferResult.same (TransferResult.join h)
  swap_swap : ∀ r : TransferResult, r.swap.swap = r
  swap_join : ∀ a b : TransferResult, a.isSplit = true → b.isSplit = true →
    (a.join h b).swap = a.swap.join h b.swap
  collapse_mono : ∀ a b : TransferResult, a.Over h → b.Over h → a.isBelow h b = true →
    (a.collapse h).isSubsumedBy h (b.collapse h) = true
  collapse_join : ∀ a b : TransferResult, a.Over h → b.Over h →
    ((a.join h b).collapse h).same ((a.collapse h).join h (b.collapse h)) = true

/-- Transfer results over a hierarchy that is accepted form a join semilattice across shapes. -/
theorem Hierarchy.build_resultLaws {names : List String} {subtypes : List (String × String)}
    {h : Hierarchy} (hok : Hierarchy.build names subtypes = .ok h) : h.ResultLaws := by
  have hh := Hierarchy.build_lawful hok
  refine {
    semilattice := (TransferResult.leastJoins hh).isJoinSemilattice
    swap_swap := TransferResult.swap_swap
    swap_join := fun a b => TransferResult.swap_join
    collapse_mono := fun a b ha hb hle => ?_
    collapse_join := fun a b => TransferResult.collapse_join hh }
  have hcollapse := ((TransferResult.isBelow_iff hh ha.wf hb.wf).mp hle).collapse hh ha.wf hb.wf
  exact (Store.isSubsumedBy_iff hh (ha.collapse hh).wf (hb.collapse hh).wf).mpr hcollapse

theorem marks_resultLaws : ∃ h, Hierarchy.build marks.1 marks.2 = .ok h ∧ h.ResultLaws ∧
    let x := FlowKey.local "x"
    let tested := TransferResult.split ((Store.new h).insert x ⟨1⟩) ((Store.new h).insert x ⟨2⟩)
    tested.isBelow h (tested.join h (.regular (.unreachable h))) = true ∧
      (tested.join h (.regular (.unreachable h))).isBelow h tested = false := by
  have hok : ((Hierarchy.build marks.1 marks.2).toOption.bind fun h =>
      let x := FlowKey.local "x"
      let tested := TransferResult.split ((Store.new h).insert x ⟨1⟩) ((Store.new h).insert x ⟨2⟩)
      if tested.isBelow h (tested.join h (.regular (.unreachable h))) = true ∧
        (tested.join h (.regular (.unreachable h))).isBelow h tested = false then some h
      else none).isSome = true := by decide +kernel
  obtain ⟨h', hh⟩ := Option.isSome_iff_exists.mp hok
  obtain ⟨h, hbuilt, hh⟩ := Option.bind_eq_some_iff.mp hh
  have hbuilt := ok_of_toOption hbuilt
  exact ⟨h, hbuilt, Hierarchy.build_resultLaws hbuilt, (Option.ite_none_right_eq_some.mp hh).1⟩

end FlowTyping
