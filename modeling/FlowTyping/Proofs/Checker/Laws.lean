import FlowTyping.Laws.Check
import FlowTyping.Proofs.Checker.Acceptance
import FlowTyping.Proofs.Flow.Semilattices

/-!
The check of the lattice laws. All tuples are tried in lexicographic order, each at the place that
its indices write in the base of the size, so what is found is the first violation of any law; a
hierarchy that is built has none.
-/

namespace FlowTyping

theorem range_mul (m n : Nat) :
    List.range (m * n) = (List.range m).flatMap fun i => (List.range n).map (i * n + ·) := by
  induction m with
  | zero => simp
  | succ m ih => rw [Nat.succ_mul, List.range_add, ih, List.range_succ, List.flatMap_append,
      List.flatMap_singleton]

namespace Hierarchy

variable {h : Hierarchy} {k : Nat} {t t' : List Qualifier}

/-- Qualifiers of the hierarchy, as many as the arity says. -/
structure IsTuple (h : Hierarchy) (k : Nat) (t : List Qualifier) : Prop where
  length : t.length = k
  has : ∀ q ∈ t, h.Has q

/-- The lexicographic order of tuples by index. -/
def Before : List Qualifier → List Qualifier → Prop := List.Lex fun q q' => q.index < q'.index

/-- The number that the indices of a tuple write in the base of the size. -/
def place (h : Hierarchy) (t : List Qualifier) : Nat :=
  t.foldl (fun n q => n * h.size + q.index) 0

/-- The tuple at a place, whose last index is split off first. -/
def tupleAt (h : Hierarchy) : Nat → Nat → List Qualifier
  | 0, _ => []
  | k + 1, n => h.tupleAt k (n / h.size) ++ [⟨n % h.size⟩]

theorem mem_qualifiers {q : Qualifier} : q ∈ h.qualifiers ↔ h.Has q := by
  simp only [qualifiers, List.mem_map, List.mem_range, Has]
  constructor
  · rintro ⟨_, hi, rfl⟩
    exact hi
  · exact fun hq => ⟨q.index, hq, rfl⟩

theorem mem_tuples : t ∈ h.tuples k ↔ h.IsTuple k t := by
  induction k generalizing t with
  | zero =>
      rw [tuples, List.mem_singleton]
      constructor
      · rintro rfl
        exact ⟨rfl, nofun⟩
      · intro ht
        exact List.eq_nil_of_length_eq_zero ht.length
  | succ k ih =>
      simp only [tuples, List.mem_flatMap, List.mem_map, mem_qualifiers, ih]
      constructor
      · rintro ⟨q, hq, t, ht, rfl⟩
        exact ⟨congrArg (· + 1) ht.length, List.forall_mem_cons.mpr ⟨hq, ht.has⟩⟩
      · intro ht
        cases t with
        | nil => cases ht.length
        | cons q t =>
            obtain ⟨hq, hrest⟩ := List.forall_mem_cons.mp ht.has
            exact ⟨q, hq, t, ⟨Nat.succ.inj ht.length, hrest⟩, rfl⟩

theorem place_append_singleton (h : Hierarchy) (t : List Qualifier) (q : Qualifier) :
    h.place (t ++ [q]) = h.place t * h.size + q.index := by
  rw [place, List.foldl_append]
  rfl

theorem place_cons (h : Hierarchy) (q : Qualifier) (t : List Qualifier) :
    h.place (q :: t) = q.index * h.size ^ t.length + h.place t := by
  induction t using List.reverseRecOn with
  | nil => simp [place]
  | append_singleton t r ih =>
      rw [← List.cons_append, place_append_singleton, ih, place_append_singleton,
        List.length_append, List.length_singleton, Nat.pow_succ, Nat.add_mul, Nat.mul_assoc,
        Nat.add_assoc]

/-- The tuples stand at their places. -/
theorem tuples_map_place (h : Hierarchy) (k : Nat) :
    (h.tuples k).map h.place = List.range (h.size ^ k) := by
  induction k with
  | zero => rfl
  | succ k ih =>
      have hblock (i : Nat) : ((h.tuples k).map (⟨i⟩ :: ·)).map h.place =
          (List.range (h.size ^ k)).map (i * h.size ^ k + ·) := by
        rw [← ih, List.map_map, List.map_map]
        refine List.map_congr_left fun t ht => ?_
        exact (place_cons h ⟨i⟩ t).trans (by rw [(mem_tuples.mp ht).length]; rfl)
      rw [tuples, qualifiers, List.flatMap_map, List.map_flatMap, Nat.pow_succ', range_mul]
      exact congrArg (List.flatMap · _) (funext hblock)

theorem length_tuples (h : Hierarchy) (k : Nat) : (h.tuples k).length = h.size ^ k := by
  rw [← List.length_map h.place, tuples_map_place, List.length_range]

theorem IsTuple.place_lt (ht : h.IsTuple k t) : h.place t < h.size ^ k := by
  rw [← List.mem_range, ← tuples_map_place]
  exact List.mem_map_of_mem (mem_tuples.mpr ht)

theorem IsTuple.tupleAt_place (ht : h.IsTuple k t) : h.tupleAt k (h.place t) = t := by
  induction t using List.reverseRecOn generalizing k with
  | nil =>
      obtain rfl : 0 = k := ht.length
      rfl
  | append_singleton t q ih =>
      obtain rfl : t.length + 1 = k := by simpa using ht.length
      have hq : q.index < h.size := ht.has q (by simp)
      have hrest : h.IsTuple t.length t := ⟨rfl, fun r hr => ht.has r (List.mem_append_left _ hr)⟩
      have hpos : 0 < h.size := Nat.zero_lt_of_lt hq
      have hdiv : (h.place t * h.size + q.index) / h.size = h.place t := by
        rw [Nat.mul_comm, Nat.mul_add_div hpos, Nat.div_eq_of_lt hq, Nat.add_zero]
      have hmod : (h.place t * h.size + q.index) % h.size = q.index := by
        rw [Nat.mul_comm, Nat.mul_add_mod, Nat.mod_eq_of_lt hq]
      rw [place_append_singleton, tupleAt, hdiv, hmod, ih hrest]

/-- The tuples are those that places are decoded to, each place once and in order. -/
theorem tuples_eq_map_tupleAt (h : Hierarchy) (k : Nat) :
    h.tuples k = (List.range (h.size ^ k)).map (h.tupleAt k) := by
  rw [← tuples_map_place, List.map_map]
  exact (List.map_id _).symm.trans
    (List.map_congr_left fun t ht => (mem_tuples.mp ht).tupleAt_place.symm)

theorem getElem?_tuples (ht : h.IsTuple k t) : (h.tuples k)[h.place t]? = some t := by
  rw [tuples_eq_map_tupleAt, List.getElem?_map, List.getElem?_range ht.place_lt, Option.map_some,
    ht.tupleAt_place]

theorem place_of_split {before after : List (List Qualifier)}
    (heq : h.tuples k = before ++ t :: after) : h.place t = before.length := by
  have hplace : (List.range (h.size ^ k))[before.length]? = some (h.place t) := by
    rw [← tuples_map_place, heq]
    simp
  obtain ⟨hlt, hplace⟩ := List.getElem?_eq_some_iff.mp hplace
  exact hplace.symm.trans (List.getElem_range hlt)

/-- The places of tuples are in their lexicographic order. -/
theorem place_lt_of_before (hlt : Before t t') (ht : h.IsTuple k t) (ht' : h.IsTuple k t') :
    h.place t < h.place t' := by
  induction hlt generalizing k with
  | nil => exact absurd (ht.length.trans ht'.length.symm) nofun
  | @cons q t t' _ ih =>
      have hlength : t.length = t'.length := Nat.succ.inj (ht.length.trans ht'.length.symm)
      have hrest := ih (k := t.length) ⟨rfl, (List.forall_mem_cons.mp ht.has).2⟩
        ⟨hlength.symm, (List.forall_mem_cons.mp ht'.has).2⟩
      rw [place_cons, place_cons, hlength]
      omega
  | @rel q t q' t' hq =>
      have hlength : t.length = t'.length := Nat.succ.inj (ht.length.trans ht'.length.symm)
      have hrest : h.place t < h.size ^ t.length :=
        IsTuple.place_lt ⟨rfl, (List.forall_mem_cons.mp ht.has).2⟩
      rw [place_cons, place_cons, ← hlength]
      calc q.index * h.size ^ t.length + h.place t
          < q.index * h.size ^ t.length + h.size ^ t.length := Nat.add_lt_add_left hrest _
        _ = (q.index + 1) * h.size ^ t.length := (Nat.succ_mul _ _).symm
        _ ≤ q'.index * h.size ^ t.length := Nat.mul_le_mul_right _ hq
        _ ≤ q'.index * h.size ^ t.length + h.place t' := Nat.le_add_right _ _

end Hierarchy

theorem tupleCount_eq {size arity : Nat} (hsize : size ^ arity < 2 ^ 64) :
    tupleCount size arity = size ^ arity :=
  Nat.min_eq_right (Nat.le_sub_one_of_lt hsize)

namespace LatticeProperty

variable {h : Hierarchy} {p : LatticeProperty} {t : List Qualifier} {a b : Qualifier}

/-- Every property is checked once. -/
theorem count_all (p : LatticeProperty) : all.count p = 1 := by
  cases p <;> rfl

theorem join_leastJoins (hh : h.Lawful) :
    LeastJoins h.Has h.isSubtype (fun a b => decide (a = b)) h.join where
  closed ha hb := (hh.has_of_le (hh.le_join_left ha hb)).2
  refl := hh.le_refl
  trans _ _ _ := hh.le_trans
  same_iff ha _ := by
    rw [decide_eq_true_eq]
    constructor
    · rintro rfl
      exact ⟨hh.le_refl ha, hh.le_refl ha⟩
    · exact fun hle => hh.le_antisymm hle.1 hle.2
  le_left := hh.le_join_left
  le_right := hh.le_join_right
  least _ _ _ := hh.join_le

theorem meet_leastJoins (hh : h.Lawful) :
    LeastJoins h.Has (fun a b => h.isSubtype b a) (fun a b => decide (a = b)) h.meet where
  closed ha hb := (hh.has_of_le (hh.meet_le_left ha hb)).1
  refl := hh.le_refl
  trans _ _ _ hab hbc := hh.le_trans hbc hab
  same_iff ha _ := by
    rw [decide_eq_true_eq]
    constructor
    · rintro rfl
      exact ⟨hh.le_refl ha, hh.le_refl ha⟩
    · exact fun hle => hh.le_antisymm hle.2 hle.1
  le_left := hh.meet_le_left
  le_right := hh.meet_le_right
  least _ _ _ := hh.le_meet

theorem join_eq_right_iff (hh : h.Lawful) (ha : h.Has a) (hb : h.Has b) :
    h.join a b = b ↔ h.isSubtype a b = true := by
  constructor
  · intro heq
    exact heq ▸ hh.le_join_left ha hb
  · intro hle
    exact hh.le_antisymm (hh.join_le hle (hh.le_refl hb)) (hh.le_join_right ha hb)

theorem meet_eq_left_iff (hh : h.Lawful) (ha : h.Has a) (hb : h.Has b) :
    h.meet a b = a ↔ h.isSubtype a b = true := by
  constructor
  · intro heq
    exact heq ▸ hh.meet_le_right ha hb
  · intro hle
    exact hh.le_antisymm (hh.meet_le_left ha hb) (hh.le_meet (hh.le_refl ha) hle)

theorem join_comm (hh : h.Lawful) (ha : h.Has a) (hb : h.Has b) : h.join a b = h.join b a :=
  of_decide_eq_true ((join_leastJoins hh).isJoinSemilattice.comm ha hb)

theorem meet_comm (hh : h.Lawful) (ha : h.Has a) (hb : h.Has b) : h.meet a b = h.meet b a :=
  of_decide_eq_true ((meet_leastJoins hh).isJoinSemilattice.comm ha hb)

/-- A lattice with a least element satisfies every law. -/
theorem law_of_lawful (hh : h.Lawful) (hbottom : ∀ {q}, h.Has q → h.isSubtype h.bottom q = true)
    (ht : h.IsTuple p.arity t) : p.law h t = true := by
  have hjoin := (join_leastJoins hh).isJoinSemilattice
  have hmeet := (meet_leastJoins hh).isJoinSemilattice
  have hleast := (hh.has_of_le (hbottom hh.has_top)).1
  obtain ⟨hlength, has⟩ := ht
  cases p with
  | joinIdempotent =>
      obtain ⟨a, rfl⟩ := List.length_eq_one_iff.mp hlength
      exact hjoin.idem (has a (by simp))
  | meetIdempotent =>
      obtain ⟨a, rfl⟩ := List.length_eq_one_iff.mp hlength
      exact hmeet.idem (has a (by simp))
  | joinCommutative =>
      obtain ⟨a, b, rfl⟩ := List.length_eq_two.mp hlength
      exact hjoin.comm (has a (by simp)) (has b (by simp))
  | meetCommutative =>
      obtain ⟨a, b, rfl⟩ := List.length_eq_two.mp hlength
      exact hmeet.comm (has a (by simp)) (has b (by simp))
  | joinAssociative =>
      obtain ⟨a, b, c, rfl⟩ := List.length_eq_three.mp hlength
      exact hjoin.assoc (has a (by simp)) (has b (by simp)) (has c (by simp))
  | meetAssociative =>
      obtain ⟨a, b, c, rfl⟩ := List.length_eq_three.mp hlength
      exact hmeet.assoc (has a (by simp)) (has b (by simp)) (has c (by simp))
  | absorption =>
      obtain ⟨a, b, rfl⟩ := List.length_eq_two.mp hlength
      have ha := has a (by simp)
      have hb := has b (by simp)
      have hm := hmeet.closed ha hb
      have hj := hjoin.closed ha hb
      have habsorb : h.join a (h.meet a b) = a :=
        (join_comm hh ha hm).trans ((join_eq_right_iff hh hm ha).mpr (hh.meet_le_left ha hb))
      have habsorb' : h.meet a (h.join a b) = a :=
        (meet_eq_left_iff hh ha hj).mpr (hh.le_join_left ha hb)
      simp [law, habsorb, habsorb']
  | joinMatchesSubtyping =>
      obtain ⟨a, b, rfl⟩ := List.length_eq_two.mp hlength
      have hiff := join_eq_right_iff hh (has a (by simp)) (has b (by simp))
      simp [law, hiff]
  | meetMatchesSubtyping =>
      obtain ⟨a, b, rfl⟩ := List.length_eq_two.mp hlength
      have hiff := meet_eq_left_iff hh (has a (by simp)) (has b (by simp))
      simp [law, hiff]
  | topBottom =>
      obtain ⟨a, rfl⟩ := List.length_eq_one_iff.mp hlength
      have ha := has a (by simp)
      have hmeetTop := (meet_eq_left_iff hh ha hh.has_top).mpr (hh.le_top ha)
      have hjoinTop := (join_eq_right_iff hh ha hh.has_top).mpr (hh.le_top ha)
      have hjoinBottom : h.join a h.bottom = a :=
        (join_comm hh ha hleast).trans ((join_eq_right_iff hh hleast ha).mpr (hbottom ha))
      have hmeetBottom : h.meet a h.bottom = h.bottom :=
        (meet_comm hh ha hleast).trans ((meet_eq_left_iff hh hleast ha).mpr (hbottom ha))
      simp [law, hmeetTop, hjoinTop, hjoinBottom, hmeetBottom]

end LatticeProperty

namespace LawCheck

variable {c : LawCheck} {h : Hierarchy} {property p : LatticeProperty} {k first : Nat}
  {law : List Qualifier → Bool} {draw : Nat → List Qualifier} {t : List Qualifier}
  {tuples : List (List Qualifier)}

theorem firstViolation?_eq_none_iff :
    firstViolation? law first tuples = none ↔ ∀ t ∈ tuples, law t = true := by
  induction tuples generalizing first with
  | nil => exact iff_of_true rfl nofun
  | cons t rest ih =>
      rw [firstViolation?, List.forall_mem_cons]
      cases ht : law t with
      | true => exact ih.trans (by simp)
      | false => simp

theorem firstViolation?_eq_some {found : Nat}
    (h : firstViolation? law first tuples = some (found, t)) :
    ∃ before after, tuples = before ++ t :: after ∧ (∀ b ∈ before, law b = true) ∧
      law t = false ∧ found = first + before.length := by
  induction tuples generalizing first with
  | nil => cases h
  | cons t' rest ih =>
      rw [firstViolation?] at h
      cases ht' : law t' with
      | true =>
          rw [ht', if_pos rfl] at h
          obtain ⟨before, after, rfl, hbefore, ht, rfl⟩ := ih h
          refine ⟨t' :: before, after, rfl, List.forall_mem_cons.mpr ⟨ht', hbefore⟩, ht, ?_⟩
          rw [List.length_cons, Nat.add_right_comm, Nat.add_assoc]
      | false =>
          rw [ht'] at h
          cases h
          exact ⟨[], rest, rfl, nofun, ht', rfl⟩

/-- All tuples hold a law that a check of all of them proves; else it tells the first one in
lexicographic order, and its place. -/
theorem check_exhaustive (property : LatticeProperty) (law : List Qualifier → Bool)
    (draw : Nat → List Qualifier) (hsize : h.size ^ k < 2 ^ 64)
    (hmax : h.size ^ k ≤ c.maxExhaustive) :
    ((∀ t, h.IsTuple k t → law t = true) ∧
        c.check h property k law draw = ⟨property, .proven, .exhaustive, h.size ^ k⟩) ∨
      ∃ t, h.IsTuple k t ∧ law t = false ∧
        (∀ t', h.IsTuple k t' → Hierarchy.Before t' t → law t' = true) ∧
        c.check h property k law draw =
          ⟨property, .violated (t.map h.name), .exhaustive, h.place t + 1⟩ := by
  have hall : tupleCount h.size k ≤ c.maxExhaustive := (tupleCount_eq hsize).trans_le hmax
  simp only [check, hall, decide_true, if_true]
  cases hfound : firstViolation? law 1 (h.tuples k) with
  | none =>
      refine .inl ⟨fun t ht => ?_, by rw [Hierarchy.length_tuples]⟩
      exact firstViolation?_eq_none_iff.mp hfound t (Hierarchy.mem_tuples.mpr ht)
  | some found =>
      obtain ⟨found, t⟩ := found
      obtain ⟨before, after, heq, hbefore, hlaw, rfl⟩ := firstViolation?_eq_some hfound
      have ht : h.IsTuple k t := Hierarchy.mem_tuples.mp (heq ▸ by simp)
      have hfirst := Hierarchy.place_of_split heq
      refine .inr ⟨t, ht, hlaw, fun t' ht' hlt => hbefore t' ?_, ?_⟩
      · -- An earlier tuple stands at its place, which is before the first violation.
        have hget := Hierarchy.getElem?_tuples ht'
        have hplace' := Hierarchy.place_lt_of_before hlt ht' ht
        rw [heq, List.getElem?_append_left (hfirst ▸ hplace')] at hget
        exact List.mem_of_getElem? hget
      · rw [hfirst, Nat.add_comm]

/-- A law that all tuples hold is never found violated, whatever is drawn. -/
theorem check_of_holds (hlaw : ∀ t, h.IsTuple k t → law t = true)
    (hdraw : ∀ n, h.IsTuple k (draw n)) : c.check h property k law draw =
      if tupleCount h.size k ≤ c.maxExhaustive then ⟨property, .proven, .exhaustive, h.size ^ k⟩
      else ⟨property, .unfalsified, .sampled, c.samples⟩ := by
  have hall : firstViolation? law 1 (h.tuples k) = none :=
    firstViolation?_eq_none_iff.mpr fun t ht => hlaw t (Hierarchy.mem_tuples.mp ht)
  have hdrawn : firstViolation? law 1 ((List.range c.samples).map draw) = none := by
    refine firstViolation?_eq_none_iff.mpr fun t ht => ?_
    obtain ⟨n, -, rfl⟩ := List.mem_map.mp ht
    exact hlaw _ (hdraw n)
  by_cases hcount : tupleCount h.size k ≤ c.maxExhaustive
  · simp [check, hcount, hall, Hierarchy.length_tuples]
  · simp [check, hcount, hdrawn]

/-- The check of a property, given how its tuples are drawn. -/
def checkDrawing (c : LawCheck) (h : Hierarchy) (draw : LatticeProperty → Nat → List Qualifier)
    (p : LatticeProperty) : CheckResult :=
  c.check h p p.arity (p.law h) (draw p)

/-- The results of all properties, given how their tuples are drawn. -/
def runDrawing (c : LawCheck) (h : Hierarchy) (draw : LatticeProperty → Nat → List Qualifier) :
    List CheckResult :=
  LatticeProperty.all.map (c.checkDrawing h draw)

/-- The tuples drawn for a property are of its arity. -/
def Draws (h : Hierarchy) (draw : LatticeProperty → Nat → List Qualifier) : Prop :=
  ∀ p n, h.IsTuple p.arity (draw p n)

theorem isTuple_drawn (hpos : 0 < h.size) (k n : Nat) : h.IsTuple k (drawn h k n) := by
  refine ⟨by simp [drawn], fun q hq => ?_⟩
  obtain ⟨i, -, rfl⟩ := List.mem_map.mp hq
  exact Nat.mod_lt _ hpos

/-- What the check of a hierarchy finds for its own laws, whatever is drawn, and for any other. -/
structure Sound (c : LawCheck) (h : Hierarchy) : Prop where
  once (p : LatticeProperty) : LatticeProperty.all.count p = 1
  run_eq : c.run h = c.runDrawing h fun p => drawn h p.arity
  draws : Draws h fun p => drawn h p.arity
  inOrder (draw : LatticeProperty → Nat → List Qualifier) :
    (c.runDrawing h draw).map CheckResult.property = LatticeProperty.all
  notViolated {draw : LatticeProperty → Nat → List Qualifier} (hdraw : Draws h draw) :
    ∀ r ∈ c.runDrawing h draw, r.isViolated = false
  result {draw : LatticeProperty → Nat → List Qualifier} (hdraw : Draws h draw)
    {p : LatticeProperty} (hsize : h.size ^ p.arity < 2 ^ 64) : c.checkDrawing h draw p =
      if h.size ^ p.arity ≤ c.maxExhaustive then ⟨p, .proven, .exhaustive, h.size ^ p.arity⟩
      else ⟨p, .unfalsified, .sampled, c.samples⟩
  enumerated (k : Nat) : h.tuples k = (List.range (h.size ^ k)).map (h.tupleAt k)
  anyLaw (property : LatticeProperty) {k : Nat} (law : List Qualifier → Bool)
    (draw : Nat → List Qualifier) (hsize : h.size ^ k < 2 ^ 64)
    (hmax : h.size ^ k ≤ c.maxExhaustive) :
    ((∀ t, h.IsTuple k t → law t = true) ∧
        c.check h property k law draw = ⟨property, .proven, .exhaustive, h.size ^ k⟩) ∨
      ∃ t, h.IsTuple k t ∧ law t = false ∧
        (∀ t', h.IsTuple k t' → Hierarchy.Before t' t → law t' = true) ∧
        c.check h property k law draw =
          ⟨property, .violated (t.map h.name), .exhaustive, h.place t + 1⟩

theorem checkDrawing_of_draws {draw : LatticeProperty → Nat → List Qualifier} (hh : h.Lawful)
    (hbottom : ∀ {q}, h.Has q → h.isSubtype h.bottom q = true) (hdraw : Draws h draw)
    (p : LatticeProperty) : c.checkDrawing h draw p =
      if tupleCount h.size p.arity ≤ c.maxExhaustive then
        ⟨p, .proven, .exhaustive, h.size ^ p.arity⟩
      else ⟨p, .unfalsified, .sampled, c.samples⟩ :=
  check_of_holds (fun _ ht => LatticeProperty.law_of_lawful hh hbottom ht) (hdraw p)

theorem check_property : (c.check h property k law draw).property = property := by
  simp only [check]
  split
  · rfl
  · split <;> rfl

/-- A hierarchy that is built is never found to violate a law, and any law is checked exactly. -/
theorem sound_of_build {names : List String} {subtypes : List (String × String)}
    (hok : Hierarchy.build names subtypes = .ok h) (c : LawCheck) : c.Sound h where
  once := LatticeProperty.count_all
  run_eq := rfl
  draws p := isTuple_drawn (Nat.zero_lt_of_lt (Hierarchy.build_lawful hok).has_top) p.arity
  inOrder draw := by
    rw [runDrawing, List.map_map]
    exact (List.map_congr_left fun p _ => check_property).trans (List.map_id _)
  notViolated {draw} hdraw := by
    intro r hr
    obtain ⟨p, -, rfl⟩ := List.mem_map.mp hr
    rw [checkDrawing_of_draws (Hierarchy.build_lawful hok) (Hierarchy.bottom_le hok) hdraw]
    split <;> rfl
  result {draw} hdraw {p} hsize := by
    rw [checkDrawing_of_draws (Hierarchy.build_lawful hok) (Hierarchy.bottom_le hok) hdraw,
      tupleCount_eq hsize]
  enumerated := h.tuples_eq_map_tupleAt
  anyLaw property {_} law draw hsize hmax := check_exhaustive property law draw hsize hmax

/-- A check that tries the qualifiers and draws pairs of them, and one of a law that does not hold
of all pairs. -/
theorem nullness_sound : ∃ h, Hierarchy.build ["Nullable", "NonNull"] [("NonNull", "Nullable")] =
      .ok h ∧ Draws h (fun p _ => List.replicate p.arity ⟨0⟩) ∧
    (LawCheck.mk 3 5).checkDrawing h (fun p _ => List.replicate p.arity ⟨0⟩) .absorption =
      ⟨.absorption, .unfalsified, .sampled, 5⟩ ∧
    (LawCheck.mk 3 5).checkDrawing h (fun p _ => List.replicate p.arity ⟨0⟩) .topBottom =
      ⟨.topBottom, .proven, .exhaustive, 2⟩ ∧
    (LawCheck.mk 4 5).check h .joinCommutative 2 (· ≠ [⟨1⟩, ⟨0⟩]) (fun _ => []) =
      ⟨.joinCommutative, .violated ["NonNull", "Nullable"], .exhaustive, 3⟩ := by
  have hbuilt : ((Hierarchy.build ["Nullable", "NonNull"] [("NonNull", "Nullable")]).toOption.bind
      fun h => if h.size = 2 ∧ [⟨1⟩, ⟨0⟩].map h.name = ["NonNull", "Nullable"] then some h
        else none).isSome = true := by
    decide +kernel
  obtain ⟨h', hh⟩ := Option.isSome_iff_exists.mp hbuilt
  obtain ⟨h, hh, hchecked⟩ := Option.bind_eq_some_iff.mp hh
  obtain ⟨⟨hsize, hnames⟩, -⟩ := Option.ite_none_right_eq_some.mp hchecked
  have hok := ok_of_toOption hh
  have hdraws : Draws h (fun p _ => List.replicate p.arity ⟨0⟩) := by
    refine fun p _ => ⟨List.length_replicate, fun q hq => ?_⟩
    rw [List.eq_of_mem_replicate hq, Hierarchy.Has, hsize]
    decide
  have habsorption := (sound_of_build hok ⟨3, 5⟩).result hdraws (p := .absorption)
    (by rw [hsize]; decide)
  have htopBottom := (sound_of_build hok ⟨3, 5⟩).result hdraws (p := .topBottom)
    (by rw [hsize]; decide)
  rw [hsize] at habsorption htopBottom
  refine ⟨h, hok, hdraws, habsorption, htopBottom, ?_⟩
  rcases (sound_of_build hok ⟨4, 5⟩).anyLaw .joinCommutative (k := 2) (· ≠ [⟨1⟩, ⟨0⟩])
    (fun _ => []) (by rw [hsize]; decide) (by rw [hsize]; decide) with
    ⟨hall, -⟩ | ⟨t, -, hlaw, -, hresult⟩
  · have hpair : h.IsTuple 2 [⟨1⟩, ⟨0⟩] := ⟨rfl, by simp [Hierarchy.Has, hsize]⟩
    exact absurd (hall _ hpair) (by decide)
  · obtain rfl : t = [⟨1⟩, ⟨0⟩] := by simpa using hlaw
    have hplace : h.place [⟨1⟩, ⟨0⟩] = 2 := by simp [Hierarchy.place, hsize]
    rw [hresult, hplace, hnames]

end LawCheck

end FlowTyping
