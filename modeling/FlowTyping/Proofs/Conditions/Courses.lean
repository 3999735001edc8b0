import FlowTyping.Proofs.Conditions.Labels
import FlowTyping.Proofs.Conditions.Leaves

/-!
The courses of facts through the code of expressions: from a fact before the code to one after it,
or to one for each outcome. Facts pass through all nodes of an expression, and what these are does
not depend on the facts.
-/

namespace FlowTyping

/-- From which facts the code of an expression leads to which facts, as a value and as a test, given
the first one of its nodes. -/
structure Course (Fact : Type) where
  value : NodeId → Fact → Fact → Prop
  test : NodeId → Fact → Fact → Fact → Prop

namespace Expr

/-- The node that holds the value of an operand, given the first node of its code. -/
def last (e : Expr) (first : NodeId) : NodeId := first + e.extent.operands

def optionLast (receiver : Option Expr) (first : NodeId) : Option NodeId :=
  receiver.map fun e => e.last first

/-- The nodes that hold the values of operands that are evaluated one after the other. -/
def listLast : List Expr → NodeId → List NodeId
  | [], _ => []
  | e :: rest, first => e.last first :: listLast rest (first + e.extent.value)

end Expr

theorem Expr.last_lt (e : Expr) (first : NodeId) : e.last first < first + e.extent.value :=
  e.extent.last_lt first

theorem Expr.listLast_lt : (args : List Expr) → (first : NodeId) → ∀ o ∈ Expr.listLast args first,
    o < first + Expr.listNodes args
  | [], _ => by simp [Expr.listLast]
  | e :: rest, first => by
      rw [Expr.listLast, Expr.listNodes, ← Nat.add_assoc]
      refine List.forall_mem_cons.mpr ⟨?_, listLast_lt rest _⟩
      exact Nat.lt_of_lt_of_le (e.last_lt first) (Nat.le_add_right _ _)

theorem Expr.optionLast_lt {receiver : Option Expr} {first : NodeId} :
    ∀ o ∈ Expr.optionLast receiver first, o < first + Expr.optionNodes receiver := by
  cases receiver with
  | none => simp [Expr.optionLast]
  | some e =>
      intro o ho
      cases Option.mem_some_iff.mp ho
      exact e.last_lt first

namespace Transit

variable {Fact : Type} [Preorder Fact] (A : Transit Fact)

def valueCourse (value : NodeId → Fact → Fact → Prop) : Course Fact where
  value := value
  test first f t e := ∃ m, value first f m ∧ A.Branches m t e

/-- The right operand starts at the first outcome of the left one, or at the second one. -/
def shortCircuitCourse (op : BinOp) (x y : Extent) (lhs rhs : Course Fact) : Course Fact where
  value first f f' := ∃ left right right' merged, lhs.value first f left ∧
    A.Branches left (if op = .and then right else merged) (if op = .and then merged else right) ∧
    rhs.value (first + x.value) right right' ∧ right' ≤ merged ∧
    A.Takes (first + x.value + y.value)
      (.shortCircuit op (first + x.operands) (first + x.value + y.operands)) merged f'
  test first f t e := ∃ outcome right,
    lhs.test first f (if op = .and then outcome else t) (if op = .and then e else outcome) ∧
    outcome ≤ right ∧ rhs.test (first + x.test) right t e

def negationCourse (x : Extent) (operand : Course Fact) : Course Fact where
  value first f f' := ∃ m, operand.value first f m ∧
    A.Takes (first + x.value) (.unary .not (first + x.operands)) m f'
  test first f t e := operand.test first f e t

def ternaryCourse (x y z : Extent) (condition thenValue elseValue : Course Fact) :
    Course Fact where
  value first f f' := ∃ t e left left' right right' merged, condition.test first f t e ∧
    t ≤ left ∧ thenValue.value (first + x.test) left left' ∧ left' ≤ merged ∧
    e ≤ right ∧ elseValue.value (first + x.test + y.value) right right' ∧ right' ≤ merged ∧
    A.Takes (first + x.test + y.value + z.value)
      (.ternaryMerge (first + x.test + y.operands) (first + x.test + y.value + z.operands))
      merged f'
  test first f t e := ∃ t' e' left right, condition.test first f t' e' ∧
    t' ≤ left ∧ thenValue.test (first + x.test) left t e ∧
    e' ≤ right ∧ elseValue.test (first + x.test + y.test) right t e

end Transit

section

variable {Fact : Type} [Preorder Fact] (A : Transit Fact) (σ : Scopes)

mutual

/-- The course of facts through the code of an expression. -/
def Expr.course : Expr → Course Fact
  | .literal value => A.valueCourse fun first f f' => A.Takes first (.literal value) f f'
  | .var name => A.valueCourse fun first f f' => A.Takes first (.localRead (σ.resolve name)) f f'
  | .this => A.valueCourse fun first f f' => A.Takes first .this f f'
  | .field receiver name =>
      A.valueCourse fun first f f' => ∃ m, receiver.course.value first f m ∧
        A.Takes (first + receiver.extent.value) (.fieldRead (receiver.last first) name) m f'
  | .call receiver method args _ =>
      A.valueCourse fun first f f' => ∃ m, Expr.optionCourse receiver first f m ∧
        ∃ m', Expr.listCourse args (first + Expr.optionNodes receiver) m m' ∧
          A.Raises (first + Expr.optionNodes receiver + Expr.listNodes args)
            (.call (Expr.optionLast receiver first) method
              (Expr.listLast args (first + Expr.optionNodes receiver))) m' f'
  | .new className args =>
      A.valueCourse fun first f f' => ∃ m, Expr.listCourse args first f m ∧
        A.Raises (first + Expr.listNodes args) (.new className (Expr.listLast args first)) m f'
  | .binary op lhs rhs =>
      if op.isShortCircuit then
        A.shortCircuitCourse op lhs.extent rhs.extent lhs.course rhs.course
      else A.valueCourse fun first f f' => ∃ m, lhs.course.value first f m ∧
        ∃ m', rhs.course.value (first + lhs.extent.value) m m' ∧
          A.Takes (first + lhs.extent.value + rhs.extent.value)
            (.binary op (lhs.last first) (rhs.last (first + lhs.extent.value))) m' f'
  | .unary op operand =>
      if op = .not then A.negationCourse operand.extent operand.course
      else A.valueCourse fun first f f' => ∃ m, operand.course.value first f m ∧
        A.Takes (first + operand.extent.value) (.unary op (operand.last first)) m f'
  | .ternary condition thenValue elseValue =>
      A.ternaryCourse condition.extent thenValue.extent elseValue.extent condition.course
        thenValue.course elseValue.course
  | .cast qualifier operand =>
      A.valueCourse fun first f f' => ∃ m, operand.course.value first f m ∧
        A.Takes (first + operand.extent.value) (.cast qualifier (operand.last first)) m f'

def Expr.optionCourse : Option Expr → NodeId → Fact → Fact → Prop
  | none, _, f, f' => f ≤ f'
  | some e, first, f, f' => e.course.value first f f'

def Expr.listCourse : List Expr → NodeId → Fact → Fact → Prop
  | [], _, f, f' => f ≤ f'
  | e :: rest, first, f, f' => ∃ m, e.course.value first f m ∧
      Expr.listCourse rest (first + e.extent.value) m f'

end

end

section

variable {Fact : Type} [Preorder Fact] (A : Transit Fact) (Live : Fact → Prop)

/-- A property of facts that is kept on the way through code. -/
structure Transit.Preserves : Prop where
  mono : ∀ {f f' : Fact}, f ≤ f' → Live f → Live f'
  step : ∀ {id : NodeId} {kind : NodeKind} {f f' : Fact}, A.step id kind f f' → Live f → Live f'
  whenTrue : ∀ {f : Fact}, Live f → Live (A.whenTrue f)
  whenFalse : ∀ {f : Fact}, Live f → Live (A.whenFalse f)

/-- A fact with the property passes through a node. -/
def Transit.Visits (id : NodeId) (kind : NodeKind) : Prop :=
  ∃ m m', Live m ∧ A.step id kind m m'

variable {A Live} {f f' t e : Fact} {id : NodeId} {kind : NodeKind}

namespace Transit.Preserves

variable (h : A.Preserves Live)

include h

theorem takes (htakes : A.Takes id kind f f') (hf : Live f) : Live f' ∧ A.Visits Live id kind := by
  obtain ⟨m, m', hm, hstep, hm'⟩ := htakes
  have hlive := h.mono hm hf
  exact ⟨h.mono hm' (h.step hstep hlive), m, m', hlive, hstep⟩

theorem branches (hbranches : A.Branches f t e) (hf : Live f) : Live t ∧ Live e := by
  obtain ⟨m, hm, ht, he⟩ := hbranches
  have hlive := h.mono hm hf
  exact ⟨h.mono ht (h.whenTrue hlive), h.mono he (h.whenFalse hlive)⟩

end Transit.Preserves

end

/-- A condition on facts, for all ways in which facts may pass. -/
abbrev Inlet : Type 1 := ∀ (Fact : Type) [Preorder Fact], Transit Fact → Fact → Prop

/-- Where facts pass, they pass through some nodes, the first of which is given. What these nodes
are does not depend on the facts. -/
def Inlet.Fills (p : Inlet) (first size : Nat) : Prop :=
  ∀ k < size, ∃ kind : NodeKind, ∀ {Fact : Type} [Preorder Fact] {A : Transit Fact}
    {Live : Fact → Prop}, A.Preserves Live →
      ∀ {f : Fact}, p Fact A f → Live f → A.Visits Live (first + k) kind

/-- Where facts with a property that is kept pass in one way, such facts pass in the other way. -/
def Inlet.Onward (p q : Inlet) : Prop :=
  ∀ {Fact : Type} [Preorder Fact] {A : Transit Fact} {Live : Fact → Prop}, A.Preserves Live →
    ∀ {f : Fact}, p Fact A f → Live f → ∃ g, q Fact A g ∧ Live g

namespace Inlet

variable {p q : Inlet} {first size size' id : Nat} {kind : NodeKind}

theorem Fills.onward (h : q.Fills first size) (hpq : p.Onward q) : p.Fills first size := by
  intro k hk
  obtain ⟨kind, hvisits⟩ := h k hk
  refine ⟨kind, fun hA f hp hf => ?_⟩
  obtain ⟨g, hq, hg⟩ := hpq hA hp hf
  exact hvisits hA hq hg

theorem Fills.append (h : p.Fills first size) (h' : p.Fills (first + size) size') :
    p.Fills first (size + size') := by
  intro k hk
  by_cases hlt : k < size
  · exact h k hlt
  · obtain ⟨kind, hvisits⟩ := h' (k - size) (by omega)
    have hid : first + size + (k - size) = first + k := by omega
    rw [hid] at hvisits
    exact ⟨kind, hvisits⟩

theorem fills_takes (id : NodeId) (kind : NodeKind) :
    Fills (fun _ _ A f => ∃ f', A.Takes id kind f f') id 1 := by
  intro k hk
  obtain rfl := Nat.lt_one_iff.mp hk
  refine ⟨kind, fun hA f hp hf => ?_⟩
  obtain ⟨f', htakes⟩ := hp
  exact (hA.takes htakes hf).2

end Inlet

/-- A relation of the facts before and after some code, for all ways in which facts may pass. -/
abbrev Stretch : Type 1 := ∀ (Fact : Type) [Preorder Fact], Transit Fact → Fact → Fact → Prop

/-- Facts pass through some nodes, and a property that is kept is kept. -/
structure Stretch.Fills (s : Stretch) (first size : Nat) : Prop where
  live : ∀ {Fact : Type} [Preorder Fact] {A : Transit Fact} {Live : Fact → Prop}, A.Preserves Live →
    ∀ {f f' : Fact}, s Fact A f f' → Live f → Live f'
  nodes : Inlet.Fills (fun Fact _ A f => ∃ f', s Fact A f f') first size

namespace Stretch.Fills

variable {s s' : Stretch} {first size size' id : Nat} {kind : NodeKind}

theorem cast (h : s.Fills first size) (hsize : size = size') : s.Fills first size' := hsize ▸ h

theorem le (first : Nat) : Stretch.Fills (fun _ _ _ f f' => f ≤ f') first 0 where
  live hA _ _ hle hf := hA.mono hle hf
  nodes _ hk := absurd hk (Nat.not_lt_zero _)

theorem takes (id : NodeId) (kind : NodeKind) :
    Stretch.Fills (fun _ _ A f f' => A.Takes id kind f f') id 1 where
  live hA _ _ htakes hf := (hA.takes htakes hf).1
  nodes := Inlet.fills_takes id kind

theorem raises (id : NodeId) (kind : NodeKind) :
    Stretch.Fills (fun _ _ A f f' => A.Raises id kind f f') id 1 where
  live hA _ _ hraises hf := (hA.takes hraises.2 hf).1
  nodes := (Inlet.fills_takes id kind).onward fun _ f hp hf => by
    obtain ⟨f', -, htakes⟩ := hp
    exact ⟨f, ⟨f', htakes⟩, hf⟩

theorem bind (h : s.Fills first size) (h' : s'.Fills (first + size) size') :
    Stretch.Fills (fun Fact _ A f f' => ∃ m, s Fact A f m ∧ s' Fact A m f') first
      (size + size') where
  live hA _ _ hp hf := by
    obtain ⟨m, hm, hf'⟩ := hp
    exact h'.live hA hf' (h.live hA hm hf)
  nodes := by
    refine (h.nodes.onward fun _ f hp hf => ?_).append (h'.nodes.onward fun hA f hp hf => ?_)
    · obtain ⟨f', m, hm, -⟩ := hp
      exact ⟨f, ⟨m, hm⟩, hf⟩
    · obtain ⟨f', m, hm, hf'⟩ := hp
      exact ⟨m, ⟨f', hf'⟩, h.live hA hm hf⟩

end Stretch.Fills

/-- The courses of a construct, for all ways in which facts may pass. -/
abbrev Courses : Type 1 := ∀ (Fact : Type) [Preorder Fact], Transit Fact → Course Fact

/-- Facts pass through all nodes of a value and of a test. -/
structure Courses.Fill (K : Courses) (x : Extent) : Prop where
  value : ∀ first : Nat, Stretch.Fills (fun Fact _ A => (K Fact A).value first) first x.value
  test : ∀ first : Nat, Inlet.Fills (fun Fact _ A f => ∃ t e, (K Fact A).test first f t e) first
    x.test
  live : ∀ {Fact : Type} [Preorder Fact] {A : Transit Fact} {Live : Fact → Prop}, A.Preserves Live →
    ∀ {first : Nat} {f t e : Fact}, (K Fact A).test first f t e → Live f → Live t ∧ Live e

namespace Courses.Fill

variable {K L M : Courses} {x y z : Extent}

theorem ofValue {operands : Nat}
    {value : ∀ (Fact : Type) [Preorder Fact], Transit Fact → NodeId → Fact → Fact → Prop}
    (h : ∀ first : Nat,
      Stretch.Fills (fun Fact _ A => value Fact A first) first (operands + 1)) :
    Fill (fun Fact _ A => A.valueCourse (value Fact A)) (.ofValue operands) where
  value := h
  test first := (h first).nodes.onward fun _ f hp hf => by
    obtain ⟨_, _, m, hm, -⟩ := hp
    exact ⟨f, ⟨m, hm⟩, hf⟩
  live hA _ _ _ _ hp hf := by
    obtain ⟨m, hm, hbranches⟩ := hp
    exact hA.branches hbranches ((h _).live hA hm hf)

theorem negation (h : K.Fill x) :
    Fill (fun Fact _ A => A.negationCourse x (K Fact A)) x.negation where
  value first := (h.value first).bind (.takes _ _)
  test first := (h.test first).onward fun _ f hp hf => by
    obtain ⟨t, e, hp⟩ := hp
    exact ⟨f, ⟨e, t, hp⟩, hf⟩
  live hA _ _ _ _ hp hf := (h.live hA hp hf).symm

theorem live_of_either {Fact : Type} {Live : Fact → Prop} {p : Prop} [Decidable p] {a b c : Fact}
    (h : Live (if p then a else b) ∧ Live (if p then c else a)) : Live a := by
  obtain ⟨ht, he⟩ := h
  split at ht
  · exact ht
  · rwa [if_neg ‹_›] at he

theorem shortCircuit {op : BinOp} (hk : K.Fill x) (hl : L.Fill y) :
    Fill (fun Fact _ A => A.shortCircuitCourse op x y (K Fact A) (L Fact A))
      (.shortCircuit x y) where
  value first :=
    { live := fun hA f f' hp hf => by
        obtain ⟨left, right, right', merged, hleft, hbranches, -, -, htakes⟩ := hp
        have hlive := (hk.value first).live hA hleft hf
        exact (hA.takes htakes (live_of_either (hA.branches hbranches hlive).symm)).1
      nodes := by
        have hmerge : Inlet.Fills (fun _ _ A f => ∃ f', A.Takes (first + (x.value + y.value))
            (.shortCircuit op (first + x.operands) (first + x.value + y.operands)) f f')
            (first + (x.value + y.value)) 1 := Inlet.fills_takes _ _
        change Inlet.Fills _ first (x.value + y.value + 1)
        refine Inlet.Fills.append (Inlet.Fills.append
          ((hk.value first).nodes.onward fun _ f hp hf => ?_)
          ((hl.value _).nodes.onward fun hA f hp hf => ?_)) (hmerge.onward fun hA f hp hf => ?_)
        · obtain ⟨_, left, _, _, _, hleft, -⟩ := hp
          exact ⟨f, ⟨left, hleft⟩, hf⟩
        · obtain ⟨_, left, right, right', _, hleft, hbranches, hright, -⟩ := hp
          have hlive := (hk.value first).live hA hleft hf
          exact ⟨right, ⟨right', hright⟩, live_of_either (hA.branches hbranches hlive)⟩
        · obtain ⟨f', left, _, _, merged, hleft, hbranches, -, -, htakes⟩ := hp
          have hlive := (hk.value first).live hA hleft hf
          rw [Nat.add_assoc first x.value y.value] at htakes
          exact ⟨merged, ⟨f', htakes⟩, live_of_either (hA.branches hbranches hlive).symm⟩ }
  test first := by
    refine Inlet.Fills.append ((hk.test first).onward fun _ f hp hf => ?_)
      ((hl.test _).onward fun hA f hp hf => ?_)
    · obtain ⟨_, _, _, _, hleft, -⟩ := hp
      exact ⟨f, ⟨_, _, hleft⟩, hf⟩
    · obtain ⟨t, e, outcome, right, hleft, hle, hright⟩ := hp
      exact ⟨right, ⟨t, e, hright⟩, hA.mono hle (live_of_either (hk.live hA hleft hf))⟩
  live hA first f t e hp hf := by
    obtain ⟨outcome, right, hleft, hle, hright⟩ := hp
    exact hl.live hA hright (hA.mono hle (live_of_either (hk.live hA hleft hf)))

theorem ternary (hk : K.Fill x) (hl : L.Fill y) (hm : M.Fill z) :
    Fill (fun Fact _ A => A.ternaryCourse x y z (K Fact A) (L Fact A) (M Fact A))
      (.ternary x y z) where
  value first :=
    { live := fun hA f f' hp hf => by
        obtain ⟨t, e, left, left', right, right', merged, hc, hleft, hl', hmerged, -, -, -,
          htakes⟩ := hp
        have hlive := (hl.value _).live hA hl' (hA.mono hleft (hk.live hA hc hf).1)
        exact (hA.takes htakes (hA.mono hmerged hlive)).1
      nodes := by
        have hmerge : Inlet.Fills (fun _ _ A f => ∃ f', A.Takes
            (first + (x.test + y.value + z.value)) (.ternaryMerge (first + x.test + y.operands)
              (first + x.test + y.value + z.operands)) f f')
            (first + (x.test + y.value + z.value)) 1 := Inlet.fills_takes _ _
        have hlast := (hm.value (first + x.test + y.value)).nodes
        rw [Nat.add_assoc first] at hlast
        change Inlet.Fills _ first (x.test + y.value + z.value + 1)
        refine Inlet.Fills.append (Inlet.Fills.append (Inlet.Fills.append
            ((hk.test first).onward fun _ f hp hf => ?_)
            ((hl.value _).nodes.onward fun hA f hp hf => ?_))
          (hlast.onward fun hA f hp hf => ?_)) (hmerge.onward fun hA f hp hf => ?_)
        · obtain ⟨_, t, e, _, _, _, _, _, hc, -⟩ := hp
          exact ⟨f, ⟨t, e, hc⟩, hf⟩
        · obtain ⟨_, t, e, left, left', _, _, _, hc, hleft, hl', -⟩ := hp
          exact ⟨left, ⟨left', hl'⟩, hA.mono hleft (hk.live hA hc hf).1⟩
        · obtain ⟨_, t, e, _, _, right, right', _, hc, -, -, -, hright, hm', -⟩ := hp
          exact ⟨right, ⟨right', by rwa [Nat.add_assoc first] at hm'⟩,
            hA.mono hright (hk.live hA hc hf).2⟩
        · obtain ⟨f', t, e, left, left', _, _, merged, hc, hleft, hl', hmerged, -, -, -, htakes⟩ :=
            hp
          have hlive := (hl.value _).live hA hl' (hA.mono hleft (hk.live hA hc hf).1)
          have heq : first + x.test + y.value + z.value = first + (x.test + y.value + z.value) := by
            omega
          rw [heq] at htakes
          exact ⟨merged, ⟨f', htakes⟩, hA.mono hmerged hlive⟩ }
  test first := by
    have hlast := hm.test (first + x.test + y.test)
    rw [Nat.add_assoc first] at hlast
    change Inlet.Fills _ first (x.test + y.test + z.test)
    refine Inlet.Fills.append (Inlet.Fills.append
      ((hk.test first).onward fun _ f hp hf => ?_)
      ((hl.test _).onward fun hA f hp hf => ?_)) (hlast.onward fun hA f hp hf => ?_)
    · obtain ⟨_, _, t, e, _, _, hc, -⟩ := hp
      exact ⟨f, ⟨t, e, hc⟩, hf⟩
    · obtain ⟨t, e, _, _, left, _, hc, hleft, hl', -⟩ := hp
      exact ⟨left, ⟨t, e, hl'⟩, hA.mono hleft (hk.live hA hc hf).1⟩
    · obtain ⟨t, e, _, _, _, right, hc, -, -, hright, hm'⟩ := hp
      exact ⟨right, ⟨t, e, by rwa [Nat.add_assoc first] at hm'⟩,
        hA.mono hright (hk.live hA hc hf).2⟩
  live hA first f t e hp hf := by
    obtain ⟨_, _, left, _, hc, hleft, hl', -⟩ := hp
    exact hl.live hA hl' (hA.mono hleft (hk.live hA hc hf).1)

end Courses.Fill

variable {σ : Scopes}

mutual

theorem Expr.courses_fill : (e : Expr) →
    Courses.Fill (fun _ _ A => e.course A σ) e.extent
  | .literal _ | .var _ | .this => .ofValue fun _ => .takes _ _
  | .field receiver _ | .cast _ receiver => .ofValue fun first =>
      ((courses_fill receiver).value first).bind (.takes _ _)
  | .call receiver _ args _ => .ofValue fun first =>
      .cast ((optionCourse_fills receiver first).bind <|
        (listCourse_fills args _).bind (.raises _ _)) (by omega)
  | .new _ args => .ofValue fun first => (listCourse_fills args first).bind (.raises _ _)
  | .binary op lhs rhs => by
      rw [Expr.extent]
      simp only [Expr.course]
      split
      · exact (courses_fill lhs).shortCircuit (courses_fill rhs)
      · exact .ofValue fun first => .cast (((courses_fill lhs).value first).bind <|
          ((courses_fill rhs).value _).bind (.takes _ _)) (by omega)
  | .unary op operand => by
      rw [Expr.extent]
      simp only [Expr.course]
      split
      · exact (courses_fill operand).negation
      · exact .ofValue fun first => ((courses_fill operand).value first).bind (.takes _ _)
  | .ternary condition thenValue elseValue =>
      (courses_fill condition).ternary (courses_fill thenValue) (courses_fill elseValue)

theorem Expr.optionCourse_fills : (receiver : Option Expr) → (first : Nat) →
    Stretch.Fills (fun _ _ A => Expr.optionCourse A σ receiver first) first
      (Expr.optionNodes receiver)
  | none, first => .le first
  | some e, first => (courses_fill e).value first

theorem Expr.listCourse_fills : (args : List Expr) → (first : Nat) →
    Stretch.Fills (fun _ _ A => Expr.listCourse A σ args first) first (Expr.listNodes args)
  | [], first => .le first
  | e :: rest, first => ((courses_fill e).value first).bind (listCourse_fills rest _)

end

end FlowTyping
