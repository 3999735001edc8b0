import FlowTyping.Proofs.Conditions.Courses
import FlowTyping.Proofs.Flow.Relocation

/-!
Two courses of one expression. In another place facts pass through its code in the same way. As a
value and as a test they pass through the same leaves, but on the way through the value a merge may
forget what the outcomes of an operand have told.
-/

namespace FlowTyping

/-- A map of nodes takes some nodes after the other to nodes one after the other. -/
structure Window (ρ : NodeId → NodeId) (n first first' size : Nat) : Prop where
  bound : first + size ≤ n
  maps : ∀ k < size, ρ (first + k) = first' + k

namespace Window

variable {ρ : NodeId → NodeId} {n first first' size size' : Nat}

theorem left (h : Window ρ n first first' (size + size')) : Window ρ n first first' size where
  bound := by
    have := h.bound
    omega
  maps k hk := h.maps k (by omega)

theorem right (h : Window ρ n first first' (size + size')) :
    Window ρ n (first + size) (first' + size) size' where
  bound := by
    have := h.bound
    omega
  maps k hk := by
    rw [Nat.add_assoc, Nat.add_assoc]
    exact h.maps (size + k) (by omega)

/-- The last node of a value goes with the others. -/
theorem last (h : Window ρ n first first' (size + 1)) :
    first + size < n ∧ ρ (first + size) = first' + size :=
  ⟨h.bound, h.maps size (Nat.lt_succ_self size)⟩

theorem of_value {x : Extent} (h : Window ρ n first first' x.value) :
    ρ (first + x.operands) = first' + x.operands :=
  h.maps x.operands (Nat.lt_succ_self _)

end Window

variable {Fact : Type} [Preorder Fact] {A B : Transit Fact} {ρ : NodeId → NodeId}
  {n id first first' : Nat} {kind : NodeKind} {f f' t el : Fact} {σ : Scopes}

/-- What passes through nodes in their places in one way passes in the same way through the nodes
in other places. -/
structure Transit.Moves (A B : Transit Fact) (ρ : NodeId → NodeId) (n : Nat) : Prop where
  step : ∀ {id : Nat} {kind : NodeKind} {f f' : Fact}, id < n → (∀ o ∈ kind.operands, o < id) →
    (A.step (ρ id) (kind.relocate ρ) f f' ↔ B.step id kind f f')
  whenTrue : B.whenTrue = A.whenTrue
  whenFalse : B.whenFalse = A.whenFalse
  caught : B.caught = A.caught
  lost : B.lost = A.lost

namespace Transit.Moves

variable (h : A.Moves B ρ n)

include h

theorem takes (hid : id < n) (hkind : ∀ o ∈ kind.operands, o < id) :
    A.Takes (ρ id) (kind.relocate ρ) f f' ↔ B.Takes id kind f f' := by
  simp only [Takes, h.step hid hkind]

theorem last {size : Nat} {kind' : NodeKind} (kind : NodeKind)
    (hw : Window ρ n first first' (size + 1))
    (hkind : ∀ o ∈ kind.operands, o < first + size) (heq : kind.relocate ρ = kind') :
    A.Takes (first' + size) kind' f f' ↔ B.Takes (first + size) kind f f' := by
  obtain ⟨hid, hρ⟩ := hw.last
  rw [← h.takes hid hkind, hρ, heq]

theorem last_raises {size : Nat} {kind' : NodeKind} (kind : NodeKind)
    (hw : Window ρ n first first' (size + 1))
    (hkind : ∀ o ∈ kind.operands, o < first + size) (heq : kind.relocate ρ = kind') :
    A.Raises (first' + size) kind' f f' ↔ B.Raises (first + size) kind f f' := by
  rw [Transit.Raises, Transit.Raises, h.last kind hw hkind heq, h.caught, h.lost]

theorem branches : A.Branches f t el ↔ B.Branches f t el := by
  rw [Branches, Branches, h.whenTrue, h.whenFalse]

end Transit.Moves

/-- Two courses of code in two places are the same. -/
structure Course.Moved (ρ : NodeId → NodeId) (n : Nat) (x : Extent) (k k' : Course Fact) :
    Prop where
  value : ∀ {first first' : Nat} {f f' : Fact}, Window ρ n first first' x.value →
    (k.value first' f f' ↔ k'.value first f f')
  test : ∀ {first first' : Nat} {f t e : Fact}, Window ρ n first first' x.test →
    (k.test first' f t e ↔ k'.test first f t e)

namespace Course.Moved

variable {x y z : Extent} {k k' l l' m m' : Course Fact} (h : A.Moves B ρ n)

include h

theorem ofValue {operands : Nat} {value value' : NodeId → Fact → Fact → Prop}
    (hvalue : ∀ {first first' : Nat} {f f' : Fact}, Window ρ n first first' (operands + 1) →
      (value first' f f' ↔ value' first f f')) :
    Moved ρ n (.ofValue operands) (A.valueCourse value) (B.valueCourse value') where
  value := hvalue
  test hw := exists_congr fun _ => and_congr (hvalue hw) h.branches

theorem negation (hk : Moved ρ n x k k') :
    Moved ρ n x.negation (A.negationCourse x k) (B.negationCourse x k') where
  value {first first' f f'} hw := by
    have hx : Window ρ n first first' x.value := hw.left
    refine exists_congr fun m => and_congr (hk.value hx) ?_
    refine h.last (.unary .not (first + x.operands)) hw ?_ ?_
    · simpa [NodeKind.operands] using x.last_lt first
    · exact congrArg (NodeKind.unary .not) hx.of_value
  test hw := hk.test hw

theorem shortCircuit {op : BinOp} (hk : Moved ρ n x k k') (hl : Moved ρ n y l l') :
    Moved ρ n (.shortCircuit x y) (A.shortCircuitCourse op x y k l)
      (B.shortCircuitCourse op x y k' l') where
  value {first first' f f'} hw := by
    have hboth : Window ρ n first first' (x.value + y.value) := hw.left
    refine exists_congr fun left => exists_congr fun right => exists_congr fun right' =>
      exists_congr fun merged => and_congr (hk.value hboth.left) <| and_congr h.branches <|
        and_congr (hl.value hboth.right) <| and_congr_right fun _ => ?_
    rw [Nat.add_assoc first x.value y.value, Nat.add_assoc first' x.value y.value]
    refine h.last (.shortCircuit op (first + x.operands) (first + x.value + y.operands)) hw ?_ ?_
    · rw [← Nat.add_assoc]
      exact x.pair_lt y first
    · exact congrArg₂ (NodeKind.shortCircuit op) hboth.left.of_value hboth.right.of_value
  test hw := exists_congr fun _ => exists_congr fun _ =>
    and_congr (hk.test hw.left) <| and_congr_right fun _ => hl.test hw.right

theorem ternary (hk : Moved ρ n x k k') (hl : Moved ρ n y l l') (hm : Moved ρ n z m m') :
    Moved ρ n (.ternary x y z) (A.ternaryCourse x y z k l m) (B.ternaryCourse x y z k' l' m') where
  value {first first' f f'} hw := by
    have hall : Window ρ n first first' (x.test + y.value + z.value) := hw.left
    have hleft : Window ρ n (first + x.test) (first' + x.test) y.value := hall.left.right
    have hright : Window ρ n (first + x.test + y.value) (first' + x.test + y.value) z.value := by
      simpa only [Nat.add_assoc] using hall.right
    refine exists_congr fun t => exists_congr fun e => exists_congr fun left =>
      exists_congr fun left' => exists_congr fun right => exists_congr fun right' =>
      exists_congr fun merged => and_congr (hk.test hall.left.left) <| and_congr_right fun _ =>
      and_congr (hl.value hleft) <| and_congr_right fun _ => and_congr_right fun _ =>
      and_congr (hm.value hright) <| and_congr_right fun _ => ?_
    have hplace (first : Nat) :
        first + x.test + y.value + z.value = first + (x.test + y.value + z.value) := by omega
    rw [hplace first, hplace first']
    refine h.last (.ternaryMerge (first + x.test + y.operands)
      (first + x.test + y.value + z.operands)) hw ?_ ?_
    · rw [← hplace]
      exact y.pair_lt z _
    · exact congrArg₂ NodeKind.ternaryMerge hleft.of_value hright.of_value
  test {first first' f t e} hw := by
    have hall : Window ρ n first first' (x.test + y.test + z.test) := hw
    have hright : Window ρ n (first + x.test + y.test) (first' + x.test + y.test) z.test := by
      simpa only [Nat.add_assoc] using hall.right
    exact exists_congr fun _ => exists_congr fun _ => exists_congr fun _ => exists_congr fun _ =>
      and_congr (hk.test hall.left.left) <| and_congr_right fun _ =>
      and_congr (hl.test hall.left.right) <| and_congr_right fun _ => hm.test hright

end Course.Moved

theorem Expr.optionLast_moved {receiver : Option Expr}
    (hw : Window ρ n first first' (Expr.optionNodes receiver)) :
    (Expr.optionLast receiver first).map ρ = Expr.optionLast receiver first' := by
  cases receiver with
  | none => rfl
  | some e => exact congrArg some (Window.of_value hw)

theorem Expr.listLast_moved : (args : List Expr) → {first first' : Nat} →
    Window ρ n first first' (Expr.listNodes args) →
    (Expr.listLast args first).map ρ = Expr.listLast args first'
  | [], _, _, _ => rfl
  | e :: rest, first, first', hw => by
      have hleft : Window ρ n first first' e.extent.value := hw.left
      rw [Expr.listLast, Expr.listLast, List.map_cons, listLast_moved rest hw.right]
      exact congrArg (· :: _) hleft.of_value

mutual

/-- The code of an expression has the same course in another place. -/
theorem Expr.course_moved (h : A.Moves B ρ n) : (e : Expr) →
    Course.Moved ρ n e.extent (e.course A σ) (e.course B σ)
  | .literal value => .ofValue h fun hw =>
      h.last (.literal value) hw (by simp [NodeKind.operands]) rfl
  | .var name => .ofValue h fun hw =>
      h.last (.localRead _) hw (by simp [NodeKind.operands]) rfl
  | .this => .ofValue h fun hw => h.last .this hw (by simp [NodeKind.operands]) rfl
  | .field receiver name => .ofValue h fun {first first' _ _} hw => by
      have hx : Window ρ n first first' receiver.extent.value := hw.left
      refine exists_congr fun _ => and_congr ((course_moved h receiver).value hx) ?_
      refine h.last (.fieldRead (receiver.last first) name) hw ?_ ?_
      · simpa [NodeKind.operands] using receiver.last_lt first
      · exact congrArg (NodeKind.fieldRead · name) hx.of_value
  | .call receiver method args throws => .ofValue h fun {first first' f f'} hw => by
      have hboth : Window ρ n first first' (Expr.optionNodes receiver + Expr.listNodes args) :=
        hw.left
      refine exists_congr fun _ => and_congr (optionCourse_moved h receiver hboth.left) ?_
      refine exists_congr fun _ => and_congr (listCourse_moved h args hboth.right) ?_
      rw [Nat.add_assoc first, Nat.add_assoc first']
      refine h.last_raises (.call (Expr.optionLast receiver first) method
        (Expr.listLast args (first + Expr.optionNodes receiver))) hw ?_ ?_
      · simp only [NodeKind.operands, List.mem_append, Option.mem_toList, ← Nat.add_assoc]
        rintro o (ho | ho)
        · exact Nat.lt_of_lt_of_le (Expr.optionLast_lt o ho) (Nat.le_add_right _ _)
        · exact Expr.listLast_lt args _ o ho
      · rw [NodeKind.relocate, Expr.optionLast_moved hboth.left,
          Expr.listLast_moved args hboth.right]
  | .new className args => .ofValue h fun {first first' f f'} hw => by
      have hargs : Window ρ n first first' (Expr.listNodes args) := hw.left
      refine exists_congr fun _ => and_congr (listCourse_moved h args hargs) ?_
      refine h.last_raises (.new className (Expr.listLast args first)) hw
        (Expr.listLast_lt args first) ?_
      rw [NodeKind.relocate, Expr.listLast_moved args hargs]
  | .binary op lhs rhs => by
      rw [Expr.extent, Expr.course, Expr.course]
      split
      · exact .shortCircuit h (course_moved h lhs) (course_moved h rhs)
      refine .ofValue h fun {first first' f f'} hw => ?_
      have hboth : Window ρ n first first' (lhs.extent.value + rhs.extent.value) := hw.left
      refine exists_congr fun _ => and_congr ((course_moved h lhs).value hboth.left) ?_
      refine exists_congr fun _ => and_congr ((course_moved h rhs).value hboth.right) ?_
      rw [Nat.add_assoc first lhs.extent.value, Nat.add_assoc first' lhs.extent.value]
      refine h.last (.binary op (lhs.last first) (rhs.last (first + lhs.extent.value))) hw
        ?_ (congrArg₂ (NodeKind.binary op) hboth.left.of_value hboth.right.of_value)
      rw [← Nat.add_assoc]
      exact lhs.extent.pair_lt rhs.extent first
  | .unary op operand => by
      rw [Expr.extent, Expr.course, Expr.course]
      split
      · exact .negation h (course_moved h operand)
      refine .ofValue h fun {first first' f f'} hw => ?_
      have hx : Window ρ n first first' operand.extent.value := hw.left
      refine exists_congr fun _ => and_congr ((course_moved h operand).value hx) ?_
      refine h.last (.unary op (operand.last first)) hw ?_ ?_
      · simpa [NodeKind.operands] using operand.last_lt first
      · exact congrArg (NodeKind.unary op) hx.of_value
  | .ternary condition thenValue elseValue =>
      .ternary h (course_moved h condition) (course_moved h thenValue) (course_moved h elseValue)
  | .cast qualifier operand => .ofValue h fun {first first' f f'} hw => by
      have hx : Window ρ n first first' operand.extent.value := hw.left
      refine exists_congr fun _ => and_congr ((course_moved h operand).value hx) ?_
      refine h.last (.cast qualifier (operand.last first)) hw ?_ ?_
      · simpa [NodeKind.operands] using operand.last_lt first
      · exact congrArg (NodeKind.cast qualifier) hx.of_value

theorem Expr.optionCourse_moved (h : A.Moves B ρ n) : (receiver : Option Expr) →
    {first first' : Nat} → {f f' : Fact} → Window ρ n first first' (Expr.optionNodes receiver) →
    (Expr.optionCourse A σ receiver first' f f' ↔ Expr.optionCourse B σ receiver first f f')
  | none, _, _, _, _, _ => Iff.rfl
  | some e, _, _, _, _, hw => (course_moved h e).value hw

theorem Expr.listCourse_moved (h : A.Moves B ρ n) : (args : List Expr) →
    {first first' : Nat} → {f f' : Fact} → Window ρ n first first' (Expr.listNodes args) →
    (Expr.listCourse A σ args first' f f' ↔ Expr.listCourse B σ args first f f')
  | [], _, _, _, _, _ => Iff.rfl
  | e :: rest, _, _, _, _, hw => exists_congr fun _ =>
      and_congr ((course_moved h e).value hw.left) (listCourse_moved h rest hw.right)

end

/-- The node joins the values of two paths. -/
def NodeKind.isMerge : NodeKind → Bool
  | .shortCircuit _ _ _ | .ternaryMerge _ _ => true
  | _ => false

/-- A map of nodes takes nodes one after the other to those of a list. -/
structure Lands (ρ : NodeId → NodeId) (n first : Nat) (ids : List NodeId) : Prop where
  bound : first + ids.length ≤ n
  maps : (List.range' first ids.length).map ρ = ids

namespace Lands

variable {ρ : NodeId → NodeId} {n first first' size : Nat} {ids ids' : List NodeId}

theorem append (h : Lands ρ n first (ids ++ ids')) :
    Lands ρ n first ids ∧ Lands ρ n (first + ids.length) ids' := by
  obtain ⟨hbound, hmaps⟩ := h
  rw [List.length_append] at hbound hmaps
  rw [← List.range'_append_1, List.map_append] at hmaps
  obtain ⟨hleft, hright⟩ := List.append_inj hmaps (by simp)
  exact ⟨⟨by omega, hleft⟩, ⟨by omega, hright⟩⟩

theorem window (h : Lands ρ n first (List.range' first' size)) : Window ρ n first first' size := by
  obtain ⟨hbound, hmaps⟩ := h
  rw [List.length_range'] at hbound hmaps
  refine ⟨hbound, fun k hk => ?_⟩
  have hat := congrArg (·[k]?) hmaps
  simpa [List.getElem?_range', hk] using hat

end Lands

variable {e : Expr} {m left right merged : Fact}

/-- The outcomes of a fact are below what is caught of it, and what is caught has no outcomes
other than itself. A merge catches, and a negation exchanges the outcomes. -/
structure Transit.Outcomes (A : Transit Fact) : Prop where
  whenTrue_mono : Monotone A.whenTrue
  whenFalse_mono : Monotone A.whenFalse
  whenTrue_le : ∀ f, A.whenTrue f ≤ A.caught f
  whenFalse_le : ∀ f, A.whenFalse f ≤ A.caught f
  caught_le_whenTrue : ∀ f, A.caught f ≤ A.whenTrue (A.caught f)
  caught_le_whenFalse : ∀ f, A.caught f ≤ A.whenFalse (A.caught f)
  whenTrue_le_caught : ∀ f, A.whenTrue f ≤ A.caught (A.whenTrue f)
  whenFalse_le_caught : ∀ f, A.whenFalse f ≤ A.caught (A.whenFalse f)
  merge : ∀ {id : NodeId} {kind : NodeKind} {f f' : Fact}, kind.isMerge = true →
    A.step id kind f f' → A.caught f ≤ f'
  negation : ∀ {id o : NodeId} {f f' : Fact}, A.step id (.unary .not o) f f' →
    A.whenTrue f ≤ A.whenFalse f' ∧ A.whenFalse f ≤ A.whenTrue f'

namespace Transit.Outcomes

variable (hA : A.Outcomes)

include hA

/-- After a merge both outcomes are above what is caught. -/
theorem merged_le (hkind : kind.isMerge = true) (htakes : A.Takes id kind merged f')
    (hout : A.Branches f' t el) : A.caught merged ≤ t ∧ A.caught merged ≤ el := by
  obtain ⟨m, m', hm, hstep, hm'⟩ := htakes
  obtain ⟨x, hx, ht, hel⟩ := hout
  have hle : A.caught merged ≤ x :=
    (A.caught_mono hm).trans ((hA.merge hkind hstep).trans (hm'.trans hx))
  exact ⟨(hA.caught_le_whenTrue merged).trans ((hA.whenTrue_mono hle).trans ht),
    (hA.caught_le_whenFalse merged).trans ((hA.whenFalse_mono hle).trans hel)⟩

/-- What goes into a merge has the outcomes that it leads to. -/
theorem branches_of_le (hle : f ≤ merged) (h : A.caught merged ≤ t ∧ A.caught merged ≤ el) :
    A.Branches f t el :=
  have hcaught := A.caught_mono hle
  ⟨f, le_refl f, (hA.whenTrue_le f).trans (hcaught.trans h.1),
    (hA.whenFalse_le f).trans (hcaught.trans h.2)⟩

/-- An outcome that goes into a merge goes to where the merge leads. -/
theorem branches_shortCircuit {op : BinOp}
    (h : A.Branches left (if op = .and then right else merged)
      (if op = .and then merged else right))
    (hle : A.caught merged ≤ t ∧ A.caught merged ≤ el) :
    A.Branches left (if op = .and then right else t) (if op = .and then el else right) := by
  obtain ⟨x, hx, htrue, hfalse⟩ := h
  refine ⟨x, hx, ?_⟩
  by_cases hop : op = .and
  · rw [if_pos hop] at htrue hfalse
    rw [if_pos hop, if_pos hop]
    exact ⟨htrue, (hA.whenFalse_le_caught x).trans ((A.caught_mono hfalse).trans hle.2)⟩
  · rw [if_neg hop] at htrue hfalse
    rw [if_neg hop, if_neg hop]
    exact ⟨(hA.whenTrue_le_caught x).trans ((A.caught_mono htrue).trans hle.1), hfalse⟩

/-- Before a negation the outcomes are the other way round. -/
theorem branches_of_negation {o : NodeId} (htakes : A.Takes id (.unary .not o) m f')
    (hout : A.Branches f' t el) : A.Branches m el t := by
  obtain ⟨x, x', hx, hstep, hx'⟩ := htakes
  obtain ⟨y, hy, ht, hel⟩ := hout
  obtain ⟨htrue, hfalse⟩ := hA.negation hstep
  have hle := hx'.trans hy
  exact ⟨x, hx, htrue.trans ((hA.whenFalse_mono hle).trans hel),
    hfalse.trans ((hA.whenTrue_mono hle).trans ht)⟩

end Transit.Outcomes

theorem Expr.course_of_isLeaf (h : e.isLeaf = true) : (e.course A σ).test first f t el ↔
    ∃ m, (e.course A σ).value first f m ∧ A.Branches m t el := by
  cases e <;> simp_all [isLeaf, course, Transit.valueCourse]

theorem Expr.course_shortCircuit {op : BinOp} {lhs rhs : Expr} (h : op.isShortCircuit = true) :
    (binary op lhs rhs).course A σ = A.shortCircuitCourse op lhs.extent rhs.extent
      (lhs.course A σ) (rhs.course A σ) := by
  rw [course, if_pos h]

theorem Expr.course_not : (unary .not e).course A σ = A.negationCourse e.extent (e.course A σ) := by
  rw [course, if_pos rfl]

/-- Facts that pass through a value pass through the leaves of the test. -/
theorem Expr.test_of_value (h : A.Moves B ρ n) (hA : A.Outcomes) (e : Expr)
    (hids : Lands ρ n first (e.leafNodes first')) (hvalue : (e.course A σ).value first' f f')
    (hout : A.Branches f' t el) : (e.course B σ).test first f t el := by
  induction e using booleanInduction generalizing first first' f f' t el with
  | leaf e hleaf =>
      rw [leafNodes_of_isLeaf hleaf, ← extent_of_isLeaf hleaf] at hids
      exact ((e.course_moved h).test hids.window).mp
        ((course_of_isLeaf hleaf).mpr ⟨f', hvalue, hout⟩)
  | shortCircuit op lhs rhs hop hl hr =>
      rw [leafNodes_shortCircuit hop] at hids
      rw [course_shortCircuit hop] at hvalue ⊢
      obtain ⟨hleft, hright⟩ := hids.append
      rw [length_leafNodes] at hright
      obtain ⟨left, right, right', merged, hlhs, hbranches, hrhs, hle, htakes⟩ := hvalue
      have hmerged := hA.merged_le rfl htakes hout
      exact ⟨right, right, hl hleft hlhs (hA.branches_shortCircuit hbranches hmerged), le_refl _,
        hr hright hrhs (hA.branches_of_le hle hmerged)⟩
  | negation operand ho =>
      rw [leafNodes_not] at hids
      rw [course_not] at hvalue ⊢
      obtain ⟨m, hoperand, htakes⟩ := hvalue
      exact ho hids hoperand (hA.branches_of_negation htakes hout)
  | ternary condition thenValue elseValue _ hl hr =>
      obtain ⟨hboth, hright⟩ := hids.append
      obtain ⟨hcondition, hleft⟩ := hboth.append
      rw [List.length_append, List.length_range', length_leafNodes, ← Nat.add_assoc] at hright
      rw [List.length_range'] at hleft
      obtain ⟨t', e', left, left', right, right', merged, htest, hthen, hthenValue, hle, helse,
        helseValue, hle', htakes⟩ := hvalue
      have hmerged := hA.merged_le rfl htakes hout
      exact ⟨t', e', left, right, ((condition.course_moved h).test hcondition.window).mp htest,
        hthen, hl hleft hthenValue (hA.branches_of_le hle hmerged),
        helse, hr hright helseValue (hA.branches_of_le hle' hmerged)⟩

/-- Any fact passes through a node: nothing is known after it, except that a negation exchanges
the outcomes. -/
structure Transit.Free (A : Transit Fact) (id : NodeId) : Prop where
  merge : ∀ {kind : NodeKind} {f : Fact}, kind.isMerge = true → (∀ o ∈ kind.operands, o < id) →
    A.Takes id kind f A.lost
  negation : ∀ {o : NodeId} {f : Fact}, o < id → ∃ f', A.Takes id (.unary .not o) f f' ∧
    ∀ {t e : Fact}, A.Branches f e t → A.Branches f' t e

/-- Where the leaves are all that facts have to pass, they pass through the value as they pass
through the test, if no operation tests a value that is merged. -/
theorem Expr.value_of_test (h : A.Moves B ρ n) (htop : ∀ f, f ≤ A.lost) (e : Expr)
    (hkeeps : e.keepsTests = true) (hids : Lands ρ n first (e.leafNodes first'))
    (hfree : ∀ id ∈ e.joinNodes first', A.Free id) (htest : (e.course B σ).test first f t el) :
    ∃ f', (e.course A σ).value first' f f' ∧ (e.isMerged = false → A.Branches f' t el) := by
  induction e using booleanInduction generalizing first first' f t el with
  | leaf e hleaf =>
      rw [leafNodes_of_isLeaf hleaf, ← extent_of_isLeaf hleaf] at hids
      obtain ⟨f', hvalue, hout⟩ := (course_of_isLeaf hleaf).mp
        (((e.course_moved h).test hids.window).mpr htest)
      exact ⟨f', hvalue, fun _ => hout⟩
  | shortCircuit op lhs rhs hop hl hr =>
      rw [leafNodes_shortCircuit hop] at hids
      rw [joinNodes_shortCircuit hop] at hfree
      rw [course_shortCircuit hop] at htest ⊢
      obtain ⟨hleft, hright⟩ := hids.append
      rw [length_leafNodes] at hright
      simp only [List.forall_mem_append, List.forall_mem_singleton] at hfree
      obtain ⟨⟨hfreeLeft, hfreeRight⟩, hfreeMerge⟩ := hfree
      simp only [keepsTests, hop, Bool.not_true, Bool.false_or, Bool.and_eq_true,
        Bool.not_eq_true'] at hkeeps
      obtain ⟨outcome, right, hlhs, hle, hrhs⟩ := htest
      obtain ⟨left, hleftValue, hbranches⟩ :=
        hl (keepsTests_of_isMerged lhs hkeeps.1) hleft hfreeLeft hlhs
      obtain ⟨right', hrightValue, -⟩ := hr hkeeps.2 hright hfreeRight hrhs
      obtain ⟨x, hx, htrue, hfalse⟩ := hbranches hkeeps.1
      refine ⟨A.lost, ⟨left, right, right', A.lost, hleftValue, ⟨x, hx, ?_, ?_⟩, hrightValue,
        htop _, hfreeMerge.merge rfl (lhs.extent.pair_lt rhs.extent first')⟩, ?_⟩
      · split
        · rename_i hand
          rw [if_pos hand] at htrue
          exact htrue.trans hle
        · exact htop _
      · split
        · exact htop _
        · rename_i hand
          rw [if_neg hand] at hfalse
          exact hfalse.trans hle
      · simp [isMerged, hop]
  | negation operand ho =>
      rw [leafNodes_not] at hids
      rw [joinNodes_not, List.forall_mem_append, List.forall_mem_singleton] at hfree
      rw [course_not] at htest ⊢
      obtain ⟨m, hoperand, hout⟩ := ho (by simpa [keepsTests] using hkeeps) hids hfree.1 htest
      obtain ⟨f', htakes, hswap⟩ := hfree.2.negation (operand.last_lt first')
      exact ⟨f', ⟨m, hoperand, htakes⟩, fun hmerged =>
        hswap (hout (by simpa [isMerged] using hmerged))⟩
  | ternary condition thenValue elseValue _ hl hr =>
      obtain ⟨hboth, hright⟩ := hids.append
      obtain ⟨hcondition, hleft⟩ := hboth.append
      rw [List.length_append, List.length_range', length_leafNodes, ← Nat.add_assoc] at hright
      rw [List.length_range'] at hleft
      simp only [joinNodes, List.forall_mem_append, List.forall_mem_singleton] at hfree
      obtain ⟨⟨hfreeThen, hfreeElse⟩, hfreeMerge⟩ := hfree
      simp only [keepsTests, Bool.and_eq_true] at hkeeps
      obtain ⟨t', e', left, right, hc, hthen, hthenTest, helse, helseTest⟩ := htest
      obtain ⟨left', hthenValue, -⟩ := hl hkeeps.1 hleft hfreeThen hthenTest
      obtain ⟨right', helseValue, -⟩ := hr hkeeps.2 hright hfreeElse helseTest
      refine ⟨A.lost, ⟨t', e', left, left', right, right', A.lost,
        ((condition.course_moved h).test hcondition.window).mpr hc, hthen, hthenValue, htop _,
        helse, helseValue, htop _,
        hfreeMerge.merge rfl (thenValue.extent.pair_lt elseValue.extent _)⟩, ?_⟩
      simp [isMerged]

/-- The nodes that join or negate are passed as such. -/
theorem Expr.step_of_mem_joinNodes (e : Expr) (h : (e.course A σ).value first f f') {id : NodeId}
    (hid : id ∈ e.joinNodes first) :
    ∃ kind m m', A.step id kind m m' ∧ (kind.isMerge = true ∨ ∃ o, kind = .unary .not o) := by
  induction e using booleanInduction generalizing first f f' with
  | leaf e hleaf =>
      rw [joinNodes_of_isLeaf hleaf] at hid
      exact absurd hid List.not_mem_nil
  | shortCircuit op lhs rhs hop hl hr =>
      rw [joinNodes_shortCircuit hop] at hid
      rw [course_shortCircuit hop] at h
      obtain ⟨left, right, right', merged, hlhs, -, hrhs, -, m, m', -, hstep, -⟩ := h
      rcases List.mem_append.mp hid with hid | hid
      · exact (List.mem_append.mp hid).elim (hl hlhs) (hr hrhs)
      · obtain rfl := List.mem_singleton.mp hid
        exact ⟨_, m, m', hstep, .inl rfl⟩
  | negation operand ho =>
      rw [joinNodes_not] at hid
      rw [course_not] at h
      obtain ⟨x, hoperand, m, m', -, hstep, -⟩ := h
      rcases List.mem_append.mp hid with hid | hid
      · exact ho hoperand hid
      · obtain rfl := List.mem_singleton.mp hid
        exact ⟨_, m, m', hstep, .inr ⟨_, rfl⟩⟩
  | ternary condition thenValue elseValue _ hl hr =>
      rw [joinNodes] at hid
      obtain ⟨_, _, _, _, _, _, _, -, -, hthen, -, -, helse, -, m, m', -, hstep, -⟩ := h
      rcases List.mem_append.mp hid with hid | hid
      · exact (List.mem_append.mp hid).elim (hl hthen) (hr helse)
      · obtain rfl := List.mem_singleton.mp hid
        exact ⟨_, m, m', hstep, .inl rfl⟩

end FlowTyping
