import FlowTyping.Proofs.Conditions.Leaves
import FlowTyping.Lowering.Lower
import Mathlib.Data.List.Forall2

/-!
Negation normal forms of conditions. A test negates by exchanging its targets, so it makes no
difference to the graph of a unit whether a negation stands around a condition or at its leaves.
-/

namespace FlowTyping

/-- The operation of the negated operands, by De Morgan's laws. -/
def BinOp.dual : BinOp → BinOp
  | .and => .or
  | .or => .and
  | op => op

namespace Expr

/-- A leaf test, or its negation. -/
def negateIf (negated : Bool) (leaf : Expr) : Expr := if negated then .unary .not leaf else leaf

/-- The condition, or its negation, with the negations pushed down to the leaf tests. -/
def pushed (negated : Bool) : Expr → Expr
  | .binary op lhs rhs =>
      if op.isShortCircuit then
        .binary (if negated then op.dual else op) (lhs.pushed negated) (rhs.pushed negated)
      else negateIf negated (.binary op lhs rhs)
  | .unary op operand =>
      if op = .not then operand.pushed !negated else negateIf negated (.unary op operand)
  | .ternary condition thenValue elseValue =>
      .ternary (condition.pushed false) (thenValue.pushed negated) (elseValue.pushed negated)
  | e => negateIf negated e

def normalForm (condition : Expr) : Expr := condition.pushed false

/-- Nothing but leaf tests is negated in the condition. -/
def negatesLeaves : Expr → Bool
  | .binary op lhs rhs => !op.isShortCircuit || (lhs.negatesLeaves && rhs.negatesLeaves)
  | .unary op operand => op ≠ .not || operand.isLeaf
  | .ternary condition thenValue elseValue =>
      condition.negatesLeaves && (thenValue.negatesLeaves && elseValue.negatesLeaves)
  | _ => true

/-- The outcome of the condition, given those of its leaf tests. -/
def holds (leaf : Expr → Bool) : Expr → Bool
  | .binary op lhs rhs =>
      if op = .and then lhs.holds leaf && rhs.holds leaf
      else if op = .or then lhs.holds leaf || rhs.holds leaf
      else leaf (.binary op lhs rhs)
  | .unary op operand => if op = .not then !operand.holds leaf else leaf (.unary op operand)
  | .ternary condition thenValue elseValue =>
      bif condition.holds leaf then thenValue.holds leaf else elseValue.holds leaf
  | e => leaf e

theorem negatesLeaves_negateIf {e : Expr} (h : e.isLeaf = true) (negated : Bool) :
    (e.negateIf negated).negatesLeaves = true := by
  cases negated
  · cases e <;> simp_all [negateIf, negatesLeaves, isLeaf]
  · simp [negateIf, negatesLeaves, h]

theorem holds_negateIf (leaf : Expr → Bool) (negated : Bool) (e : Expr) :
    (e.negateIf negated).holds leaf = (negated ^^ e.holds leaf) := by
  cases negated <;> simp [negateIf, holds]

theorem negatesLeaves_pushed : (negated : Bool) → (e : Expr) →
    (e.pushed negated).negatesLeaves = true
  | negated, .binary op lhs rhs => by
      rw [pushed]
      split
      · simp [negatesLeaves, negatesLeaves_pushed negated lhs, negatesLeaves_pushed negated rhs]
      · rename_i hop
        exact negatesLeaves_negateIf (by simpa [isLeaf] using hop) _
  | negated, .unary op operand => by
      rw [pushed]
      split
      · exact negatesLeaves_pushed _ operand
      · rename_i hop
        exact negatesLeaves_negateIf (by simpa [isLeaf] using hop) _
  | negated, .ternary condition thenValue elseValue => by
      simp [pushed, negatesLeaves, negatesLeaves_pushed _ condition,
        negatesLeaves_pushed _ thenValue, negatesLeaves_pushed _ elseValue]
  | _, .literal _ | _, .var _ | _, .this | _, .field _ _ | _, .call _ _ _ _ | _, .new _ _
  | _, .cast _ _ => negatesLeaves_negateIf rfl _

/-- The normal form of a condition has its outcome. -/
theorem holds_pushed (leaf : Expr → Bool) : (negated : Bool) → (e : Expr) →
    (e.pushed negated).holds leaf = (negated ^^ e.holds leaf)
  | negated, .binary op lhs rhs => by
      rw [pushed]
      split
      · rename_i hop
        have hl := holds_pushed leaf negated lhs
        have hr := holds_pushed leaf negated rhs
        cases op <;> simp [BinOp.isShortCircuit] at hop <;> cases negated <;>
          simp [holds, BinOp.dual, hl, hr]
      · exact holds_negateIf ..
  | negated, .unary op operand => by
      rw [pushed]
      split
      · rename_i hop
        simp [holds_pushed leaf _ operand, holds, hop]
      · exact holds_negateIf ..
  | negated, .ternary condition thenValue elseValue => by
      cases hcondition : condition.holds leaf <;>
        simp [pushed, holds, holds_pushed leaf _ condition, holds_pushed leaf _ thenValue,
          holds_pushed leaf _ elseValue, hcondition]
  | _, .literal _ | _, .var _ | _, .this | _, .field _ _ | _, .call _ _ _ _ | _, .new _ _
  | _, .cast _ _ => holds_negateIf ..

end Expr

mutual

/-- An expression with any of its conditions in normal form. -/
inductive Expr.Restates : Expr → Expr → Prop
  | refl (e : Expr) : Restates e e
  | field {receiver receiver' : Expr} (name : String) :
      Restates receiver receiver' → Restates (.field receiver name) (.field receiver' name)
  | call {receiver receiver' : Option Expr} (method : String) {args args' : List Expr}
      (throws : List String) : Option.Rel Restates receiver receiver' →
      List.Forall₂ Restates args args' →
      Restates (.call receiver method args throws) (.call receiver' method args' throws)
  | new (className : String) {args args' : List Expr} :
      List.Forall₂ Restates args args' → Restates (.new className args) (.new className args')
  | binary (op : BinOp) {lhs lhs' rhs rhs' : Expr} : Restates lhs lhs' → Restates rhs rhs' →
      Restates (.binary op lhs rhs) (.binary op lhs' rhs')
  | unary (op : UnaryOp) {operand operand' : Expr} :
      Restates operand operand' → Restates (.unary op operand) (.unary op operand')
  | ternary {condition condition' thenValue thenValue' elseValue elseValue' : Expr} :
      Expr.RestatesTest condition condition' → Restates thenValue thenValue' →
      Restates elseValue elseValue' →
      Restates (.ternary condition thenValue elseValue) (.ternary condition' thenValue' elseValue')
  | cast (qualifier : String) {operand operand' : Expr} :
      Restates operand operand' → Restates (.cast qualifier operand) (.cast qualifier operand')

/-- A condition with any of its conditions in normal form, itself included. -/
inductive Expr.RestatesTest : Expr → Expr → Prop
  | kept {c c' : Expr} : Expr.Restates c c' → RestatesTest c c'
  | normal {c c' : Expr} : Expr.Restates c c' → RestatesTest c c'.normalForm

end

mutual

/-- A statement with any of its conditions in normal form. -/
inductive Stmt.Restates : Stmt → Stmt → Prop
  | refl (s : Stmt) : Restates s s
  | localDecl (name : String) (qualifier : Option String) {init init' : Option Expr} :
      Option.Rel Expr.Restates init init' →
      Restates (.localDecl name qualifier init) (.localDecl name qualifier init')
  | assignLocal (name : String) {value value' : Expr} : value.Restates value' →
      Restates (.assign (.local name) value) (.assign (.local name) value')
  | assignField {receiver receiver' : Expr} (name : String) {value value' : Expr} :
      receiver.Restates receiver' → value.Restates value' →
      Restates (.assign (.field receiver name) value) (.assign (.field receiver' name) value')
  | expr {value value' : Expr} : value.Restates value' → Restates (.expr value) (.expr value')
  | ifElse {condition condition' : Expr} {thenBody thenBody' : List Stmt}
      {elseBody elseBody' : Option (List Stmt)} : condition.RestatesTest condition' →
      ListRestates thenBody thenBody' → OptionRestates elseBody elseBody' →
      Restates (.ifElse condition thenBody elseBody) (.ifElse condition' thenBody' elseBody')
  | whileLoop (label : Option String) {condition condition' : Expr} {body body' : List Stmt} :
      condition.RestatesTest condition' → ListRestates body body' →
      Restates (.whileLoop label condition body) (.whileLoop label condition' body')
  | doWhile (label : Option String) {body body' : List Stmt} {condition condition' : Expr} :
      ListRestates body body' → condition.RestatesTest condition' →
      Restates (.doWhile label body condition) (.doWhile label body' condition')
  | forLoop (label : Option String) {init init' : List Stmt} {condition condition' : Option Expr}
      {update update' body body' : List Stmt} : ListRestates init init' →
      Option.Rel Expr.RestatesTest condition condition' → ListRestates update update' →
      ListRestates body body' →
      Restates (.forLoop label init condition update body)
        (.forLoop label init' condition' update' body')
  | returnValue {value value' : Option Expr} : Option.Rel Expr.Restates value value' →
      Restates (.returnValue value) (.returnValue value')
  | throw (exception : String) {value value' : Option Expr} :
      Option.Rel Expr.Restates value value' →
      Restates (.throw exception value) (.throw exception value')
  | tryCatch {body body' : List Stmt} {handlers handlers' : List Handler}
      {finalBody finalBody' : Option (List Stmt)} : ListRestates body body' →
      ClausesRestate handlers handlers' → OptionRestates finalBody finalBody' →
      Restates (.tryCatch body handlers finalBody) (.tryCatch body' handlers' finalBody')
  | assert {condition condition' : Expr} : condition.RestatesTest condition' →
      Restates (.assert condition) (.assert condition')

inductive Stmt.ListRestates : List Stmt → List Stmt → Prop
  | nil : ListRestates [] []
  | cons {s s' : Stmt} {rest rest' : List Stmt} : Restates s s' → ListRestates rest rest' →
      ListRestates (s :: rest) (s' :: rest')

inductive Stmt.OptionRestates : Option (List Stmt) → Option (List Stmt) → Prop
  | none : OptionRestates none none
  | some {body body' : List Stmt} : ListRestates body body' →
      OptionRestates (some body) (some body')

inductive Stmt.ClausesRestate : List Handler → List Handler → Prop
  | nil : ClausesRestate [] []
  | cons (exception : String) (binding : Option String) {body body' : List Stmt}
      {rest rest' : List Handler} : ListRestates body body' → ClausesRestate rest rest' →
      ClausesRestate (.clause exception binding body :: rest)
        (.clause exception binding body' :: rest')

end

/-- The unit with any of its conditions in normal form. -/
structure ProgramUnit.Restates (u u' : ProgramUnit) : Prop where
  name : u'.name = u.name
  params : u'.params = u.params
  returnQualifier : u'.returnQualifier = u.returnQualifier
  body : Stmt.ListRestates u.body u'.body

/-- One construction tests what another one does, with its targets exchanged if it is
negated. -/
structure Lowered.Swaps (negated : Bool) (l l' : Lowered) : Prop where
  test_eq : ∀ t f, l'.test t f = l.test (bif negated then f else t) (bif negated then t else f)

namespace Lowered.Swaps

variable {l l' m m' r r' : Lowered} {negated : Bool}

theorem refl (l : Lowered) : Swaps false l l := ⟨fun _ _ => rfl⟩

theorem same (h : Swaps false l l') : l'.test = l.test := funext₂ h.test_eq

theorem negation (h : Swaps (!negated) l l') : Swaps negated l.negation l' where
  test_eq t f := by
    rw [h.test_eq t f]
    cases negated <;> rfl

/-- De Morgan's laws: the second operand is tested in the same cases. -/
theorem shortCircuit {op : BinOp} (hop : op.isShortCircuit = true) (hl : Swaps negated l l')
    (hr : Swaps negated r r') : Swaps negated (.shortCircuit op l r)
      (.shortCircuit (if negated then op.dual else op) l' r') where
  test_eq t f := by
    have hfirst := hl.test_eq
    have hsecond := hr.test_eq t f
    cases negated <;> cases op <;> simp [BinOp.isShortCircuit] at hop <;>
      simp only [cond_true, cond_false] at hfirst hsecond <;>
      simp [Lowered.shortCircuit, BinOp.dual, hfirst, hsecond]

theorem ternary (hl : Swaps false l l') (hm : Swaps negated m m') (hr : Swaps negated r r') :
    Swaps negated (.ternary l m r) (.ternary l' m' r') where
  test_eq t f := by
    unfold Lowered.ternary
    simp only [hl.same, hm.test_eq t f, hr.test_eq t f]

end Lowered.Swaps

variable {frames : List Frame}

theorem lowerExpr_shortCircuit {op : BinOp} (h : op.isShortCircuit = true) (lhs rhs : Expr) :
    lowerExpr frames (.binary op lhs rhs) =
      .shortCircuit op (lowerExpr frames lhs) (lowerExpr frames rhs) := by
  rw [lowerExpr, if_pos h]

theorem lowerExpr_not (operand : Expr) :
    lowerExpr frames (.unary .not operand) = (lowerExpr frames operand).negation := by
  rw [lowerExpr, if_pos rfl]

theorem swaps_negateIf (negated : Bool) (e : Expr) :
    (lowerExpr frames e).Swaps negated (lowerExpr frames (e.negateIf negated)) := by
  cases negated with
  | false => exact .refl _
  | true =>
      rw [Expr.negateIf, if_pos rfl, lowerExpr_not]
      exact ⟨fun _ _ => rfl⟩

/-- A negation that is pushed down exchanges the targets of the test. -/
theorem swaps_pushed : (negated : Bool) → (e : Expr) →
    (lowerExpr frames e).Swaps negated (lowerExpr frames (e.pushed negated))
  | negated, .binary op lhs rhs => by
      rw [Expr.pushed]
      split
      · rename_i hop
        have hop' : (if negated then op.dual else op).isShortCircuit = true := by
          cases op <;> simp [BinOp.isShortCircuit] at hop <;> cases negated <;> rfl
        rw [lowerExpr_shortCircuit hop, lowerExpr_shortCircuit hop']
        exact .shortCircuit hop (swaps_pushed negated lhs) (swaps_pushed negated rhs)
      · exact swaps_negateIf _ _
  | negated, .unary op operand => by
      rw [Expr.pushed]
      split
      · rename_i hop
        rw [hop, lowerExpr_not]
        exact .negation (swaps_pushed _ operand)
      · exact swaps_negateIf _ _
  | negated, .ternary condition thenValue elseValue => by
      rw [Expr.pushed, lowerExpr, lowerExpr]
      exact .ternary (swaps_pushed _ condition) (swaps_pushed _ thenValue)
        (swaps_pushed _ elseValue)
  | _, .literal _ | _, .var _ | _, .this | _, .field _ _ | _, .call _ _ _ _ | _, .new _ _
  | _, .cast _ _ => swaps_negateIf _ _

theorem test_normalForm (c : Expr) :
    (lowerExpr frames c.normalForm).test = (lowerExpr frames c).test :=
  (swaps_pushed false c).same

mutual

theorem lowerExpr_restates (frames : List Frame) : {e e' : Expr} → e.Restates e' →
    lowerExpr frames e' = lowerExpr frames e
  | _, _, .refl _ => rfl
  | _, _, .field name h => by rw [lowerExpr, lowerExpr, lowerExpr_restates frames h]
  | _, _, .call method throws h hargs => by
      rw [lowerExpr, lowerExpr, lowerReceiver_restates frames h, lowerArgs_restates frames hargs]
  | _, _, .new className hargs => by
      rw [lowerExpr, lowerExpr, lowerArgs_restates frames hargs]
  | _, _, .binary op hl hr => by
      rw [lowerExpr, lowerExpr, lowerExpr_restates frames hl, lowerExpr_restates frames hr]
  | _, _, .unary op h => by rw [lowerExpr, lowerExpr, lowerExpr_restates frames h]
  | _, _, .ternary hc ht he => by
      rw [lowerExpr, lowerExpr, lowerExpr_restates frames ht, lowerExpr_restates frames he]
      unfold Lowered.ternary
      rw [test_restates frames hc]
  | _, _, .cast qualifier h => by rw [lowerExpr, lowerExpr, lowerExpr_restates frames h]

theorem test_restates (frames : List Frame) : {c c' : Expr} → c.RestatesTest c' →
    (lowerExpr frames c').test = (lowerExpr frames c).test
  | _, _, .kept h => by rw [lowerExpr_restates frames h]
  | _, _, .normal h => by rw [test_normalForm, lowerExpr_restates frames h]

theorem lowerReceiver_restates (frames : List Frame) : {e e' : Option Expr} →
    Option.Rel Expr.Restates e e' → lowerReceiver frames e' = lowerReceiver frames e
  | _, _, .none => rfl
  | _, _, .some h => by rw [lowerReceiver, lowerReceiver, lowerExpr_restates frames h]

theorem lowerArgs_restates (frames : List Frame) : {args args' : List Expr} →
    List.Forall₂ Expr.Restates args args' → lowerArgs frames args' = lowerArgs frames args
  | _, _, .nil => rfl
  | _, _, .cons h hrest => by
      rw [lowerArgs, lowerArgs, lowerExpr_restates frames h, lowerArgs_restates frames hrest]

end

theorem lowerFor_restates {label : Option String} {init update : Build Unit}
    {condition condition' : Option Expr} {body : Frame → Build Unit}
    (h : Option.Rel Expr.RestatesTest condition condition') :
    lowerFor frames label init condition' update body =
      lowerFor frames label init condition update body := by
  cases h with
  | none => rfl
  | some hc =>
      unfold lowerFor
      simp only [test_restates frames hc]

theorem exceptions_restate : {handlers handlers' : List Handler} →
    Stmt.ClausesRestate handlers handlers' →
    handlers'.map Handler.exception = handlers.map Handler.exception
  | _, _, .nil => rfl
  | _, _, .cons exception binding _ hrest => congrArg (exception :: ·) (exceptions_restate hrest)

/-- The blocks of the clauses depend on what they catch only. -/
theorem mapM_exceptions (handlers : List Handler) :
    (handlers.mapM fun h => (do
      let block ← Build.newBlock
      return (h.exception, block) : Build (String × BlockId))) =
      (handlers.map Handler.exception).mapM fun exception => do
        let block ← Build.newBlock
        return (exception, block) := by
  rw [List.mapM_map]
  rfl

mutual

theorem lowerStmt_restates (frames : List Frame) : {s s' : Stmt} → s.Restates s' →
    lowerStmt frames s' = lowerStmt frames s
  | _, _, .refl _ => rfl
  | _, _, .localDecl name qualifier h => by
      rw [lowerStmt, lowerStmt, lowerDecl, lowerDecl, lowerOptional, lowerOptional,
        lowerReceiver_restates frames h]
  | _, _, .assignLocal name h => by
      rw [lowerStmt, lowerStmt, lowerAssign, lowerAssign]
      rw [lowerExpr_restates frames h]
  | _, _, .assignField name hr h => by
      rw [lowerStmt, lowerStmt, lowerAssign, lowerAssign]
      rw [lowerExpr_restates frames h, lowerExpr_restates frames hr]
  | _, _, .expr h => by rw [lowerStmt, lowerStmt, lowerExpr_restates frames h]
  | _, _, .ifElse hc ht he => by
      rw [lowerStmt, lowerStmt, test_restates frames hc, lowerStmts_restates frames ht,
        lowerElse_restates frames he]
  | _, _, .whileLoop label hc hbody => by
      rw [lowerStmt, lowerStmt, test_restates frames hc]
      simp only [lowerStmts_restates _ hbody]
  | _, _, .doWhile label hbody hc => by
      rw [lowerStmt, lowerStmt, test_restates frames hc]
      simp only [lowerStmts_restates _ hbody]
  | _, _, .forLoop label hinit hc hupdate hbody => by
      rw [lowerStmt, lowerStmt, lowerStmts_restates frames hinit,
        lowerStmts_restates frames hupdate, lowerFor_restates hc]
      simp only [lowerStmts_restates _ hbody]
  | _, _, .returnValue h => by
      rw [lowerStmt, lowerStmt, lowerOptional, lowerOptional, lowerReceiver_restates frames h]
  | _, _, .throw exception h => by
      rw [lowerStmt, lowerStmt, lowerOptional, lowerOptional, lowerReceiver_restates frames h]
  | _, _, .tryCatch hbody hhandlers hfinal => by
      rw [lowerStmt, lowerStmt]
      simp only [lowerStmts_restates _ hbody, lowerFinal_restates frames hfinal,
        lowerHandlers_restates _ _ _ hhandlers, exceptions_restate hhandlers, mapM_exceptions]
  | _, _, .assert hc => by
      rw [lowerStmt, lowerStmt, lowerAssert, lowerAssert, test_restates frames hc]

theorem lowerStmts_restates (frames : List Frame) : {body body' : List Stmt} →
    Stmt.ListRestates body body' → lowerStmts frames body' = lowerStmts frames body
  | _, _, .nil => rfl
  | _, _, .cons h hrest => by
      rw [lowerStmts, lowerStmts, lowerStmt_restates frames h, lowerStmts_restates frames hrest]

theorem lowerElse_restates (frames : List Frame) : {body body' : Option (List Stmt)} →
    Stmt.OptionRestates body body' → lowerElse frames body' = lowerElse frames body
  | _, _, .none => rfl
  | _, _, .some h => by rw [lowerElse, lowerElse, lowerStmts_restates frames h]

theorem lowerFinal_restates (frames : List Frame) : {body body' : Option (List Stmt)} →
    Stmt.OptionRestates body body' → lowerFinal frames body' = lowerFinal frames body
  | _, _, .none => rfl
  | _, _, .some h => by rw [lowerFinal, lowerFinal, lowerStmts_restates frames h]

theorem lowerHandlers_restates (frames : List Frame) (leave : Build Unit)
    (blocks : List BlockId) : {handlers handlers' : List Handler} →
    Stmt.ClausesRestate handlers handlers' →
    lowerHandlers frames leave handlers' blocks = lowerHandlers frames leave handlers blocks
  | _, _, .nil => rfl
  | _, _, .cons exception binding hbody hrest => by
      cases blocks with
      | nil => rfl
      | cons block blocks =>
          rw [lowerHandlers, lowerHandlers, lowerStmts_restates frames hbody,
            lowerHandlers_restates frames leave blocks hrest]

end

/-- The conditions of a unit may be replaced by their normal forms: its graph stays the same,
and so does the fault that its construction stops at. -/
theorem ProgramUnit.lower_restates {u u' : ProgramUnit} (h : u.Restates u') :
    u'.lower = u.lower := by
  unfold ProgramUnit.lower
  rw [h.name, h.params, lowerStmts_restates [] h.body]

/-- Both a loop and a value in it test a negation. -/
def deniedUnit : ProgramUnit :=
  let guard := Expr.ternary (.var "b") (.var "c") (.unary .not (.var "d"))
  { name := "denied"
    params := []
    returnQualifier := none
    body :=
      [.whileLoop none (.unary .not (.binary .and (.var "a") guard))
        [.assign (.local "a")
          (.ternary (.unary .not (.unary .not (.var "b"))) (.var "c") (.var "d"))]] }

def restatedUnit : ProgramUnit :=
  let guard := Expr.ternary (.var "b") (.unary .not (.var "c")) (.var "d")
  { deniedUnit with
    body :=
      [.whileLoop none (.binary .or (.unary .not (.var "a")) guard)
        [.assign (.local "a") (.ternary (.var "b") (.var "c") (.var "d"))]] }

theorem deniedUnit_lower :
    deniedUnit.Restates restatedUnit ∧ deniedUnit.lower.toOption.isSome = true ∧
      restatedUnit.lower = deniedUnit.lower := by
  have h : deniedUnit.Restates restatedUnit :=
    ⟨rfl, rfl, rfl, .cons (.whileLoop none (.normal (.refl _))
      (.cons (.assignLocal "a" (.ternary (.normal (.refl _)) (.refl _) (.refl _))) .nil)) .nil⟩
  exact ⟨h, by decide +kernel, ProgramUnit.lower_restates h⟩

end FlowTyping
