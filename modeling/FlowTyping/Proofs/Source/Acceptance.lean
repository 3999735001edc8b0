import FlowTyping.Proofs.Drafting.Checks
import FlowTyping.Proofs.Source.Verdicts

/-!
The lowering of expressions and statements succeeds exactly if they are well-formed, by
recursion on the syntax.
-/

namespace FlowTyping

open Build

/-- Either way to lower an expression gives the verdict on a property. -/
structure Lowered.Judged (P : List Bool) (W : Prop) (l : Lowered) : Prop where
  value : Judges P W l.value
  test : ∀ thenTarget elseTarget : BlockId, Judges P W (l.test thenTarget elseTarget)

namespace Lowered.Judged

variable {P : List Bool} {W V U : Prop} {l r c : Lowered}

theorem congr (h : l.Judged P W) (hWV : W ↔ V) : l.Judged P V :=
  ⟨h.value.congr hWV, fun t e => (h.test t e).congr hWV⟩

theorem ofValue {v : Build NodeId} (hv : Judges P W v) : Lowered.Judged P W (.ofValue v) :=
  ⟨hv, fun _ _ => hv.before fun _ => .branch _ _ _⟩

theorem negation (h : l.Judged P W) : l.negation.Judged P W :=
  ⟨h.value.before fun _ => .emit _, fun t e => h.test e t⟩

theorem shortCircuit (op : BinOp) (hl : l.Judged P W) (hr : r.Judged P V) :
    (Lowered.shortCircuit op l r).Judged P (W ∧ V) where
  value := by
    refine hl.value.bind fun left => .after .newBlock fun rhsBlock =>
      .after .newBlock fun mergeBlock => ?_
    have hrest : Judges P V (do
        setCurrent rhsBlock
        let right ← r.value
        closeWith mergeBlock
        setCurrent mergeBlock
        emit (.shortCircuit op left right)) :=
      .after (.setCurrent _) fun _ => hr.value.before fun right =>
        (Plain.closeWith _).andThen fun _ => (Plain.setCurrent _).andThen fun _ => .emit _
    dsimp only
    split
    · exact .after (.branch _ _ _) fun _ => hrest
    · exact .after (.branch _ _ _) fun _ => hrest
  test t e := by
    refine .after .newBlock fun rhsBlock => ?_
    have hrest : Judges P V (do
        setCurrent rhsBlock
        r.test t e) := .after (.setCurrent _) fun _ => hr.test t e
    dsimp only
    split
    · exact (hl.test _ _).bind fun _ => hrest
    · exact (hl.test _ _).bind fun _ => hrest

theorem ternary (hc : c.Judged P W) (hl : l.Judged P V) (hr : r.Judged P U) :
    (Lowered.ternary c l r).Judged P (W ∧ V ∧ U) where
  value := .after .newBlock fun _ => .after .newBlock fun _ => .after .newBlock fun _ =>
    (hc.test _ _).bind fun _ => .after (.setCurrent _) fun _ => hl.value.bind fun _ =>
    .after (.closeWith _) fun _ => .after (.setCurrent _) fun _ => hr.value.before fun _ =>
    (Plain.closeWith _).andThen fun _ => (Plain.setCurrent _).andThen fun _ => .emit _
  test t e := .after .newBlock fun _ => .after .newBlock fun _ =>
    (hc.test _ _).bind fun _ => .after (.setCurrent _) fun _ => (hl.test t e).bind fun _ =>
    .after (.setCurrent _) fun _ => hr.test t e

end Lowered.Judged

attribute [local simp] Expr.wellFormed Expr.optionWellFormed Expr.allWellFormed Target.wellFormed
  Stmt.wellFormed Stmt.allWellFormed Stmt.optionWellFormed Stmt.clausesWellFormed

section

variable {P : List Bool} {frames : List Frame} {body : List Stmt}

mutual

theorem lowerExpr_judged (h : Vetted P (Frame.crossings frames)) :
    (e : Expr) → (lowerExpr frames e).Judged P (e.wellFormed = true)
  | .literal value => (Lowered.Judged.ofValue (.of_plain (.emit (.literal value)))).congr (by simp)
  | .var name => (Lowered.Judged.ofValue (.of_plain ((Plain.lookup name).andThen fun _ =>
      .emit _))).congr (by simp)
  | .this => (Lowered.Judged.ofValue (.of_plain (.emit .this))).congr (by simp)
  | .field receiver _ =>
      .ofValue ((lowerExpr_judged h receiver).value.before fun _ => .emit _)
  | .call receiver _ args throws => (Lowered.Judged.ofValue
      ((lowerReceiver_judges h receiver).bind fun r => (lowerArgs_judges h args).bind fun as =>
        .emitRaising h (.call r _ as) (runtimeException :: throws) false)).congr (by
      simp [runtimeException])
  | .new className args => (Lowered.Judged.ofValue
      ((lowerArgs_judges h args).bind fun as =>
        .emitRaising h (.new className as) [runtimeException] false)).congr (by
      simp [runtimeException])
  | .binary op lhs rhs => by
      have hlhs := lowerExpr_judged h lhs
      have hrhs := lowerExpr_judged h rhs
      rw [lowerExpr, Expr.wellFormed, Bool.and_eq_true]
      split
      · exact .shortCircuit op hlhs hrhs
      · exact .ofValue (hlhs.value.bind fun _ => hrhs.value.before fun _ => .emit _)
  | .unary op operand => by
      have hoperand := lowerExpr_judged h operand
      rw [lowerExpr, Expr.wellFormed]
      split
      · exact hoperand.negation
      · exact .ofValue (hoperand.value.before fun _ => .emit _)
  | .ternary condition thenValue elseValue =>
      (Lowered.Judged.ternary (lowerExpr_judged h condition) (lowerExpr_judged h thenValue)
        (lowerExpr_judged h elseValue)).congr (by simp)
  | .cast _ operand => .ofValue ((lowerExpr_judged h operand).value.before fun _ => .emit _)

theorem lowerReceiver_judges (h : Vetted P (Frame.crossings frames)) :
    (e : Option Expr) → Judges P (Expr.optionWellFormed e = true) (lowerReceiver frames e)
  | none => (Judges.of_plain (.nothing none)).congr (by simp)
  | some e => (lowerExpr_judged h e).value.before fun _ => .nothing _

theorem lowerArgs_judges (h : Vetted P (Frame.crossings frames)) :
    (es : List Expr) → Judges P (Expr.allWellFormed es = true) (lowerArgs frames es)
  | [] => (Judges.of_plain (.nothing [])).congr (by simp)
  | e :: rest => ((lowerExpr_judged h e).value.bind fun _ =>
      (lowerArgs_judges h rest).before fun _ => .nothing _).congr (by simp)

end

/-- A body is judged inside whatever loops are around it. -/
structure JudgedBody (body : List Stmt) : Prop where
  judges : ∀ {P : List Bool} {frames : List Frame}, Vetted P (Frame.crossings frames) →
    Judges P (Stmt.allWellFormed (Frame.loops frames) body = true) (lowerStmts frames body)

theorem JudgedBody.inside (hbody : JudgedBody body) (h : Vetted P (Frame.crossings frames)) :
    Judges P (Stmt.allWellFormed (Frame.loops frames) body = true)
      (inScope (lowerStmts frames body)) :=
  (hbody.judges h).inside

theorem lowerDecl_judges (h : Vetted P (Frame.crossings frames)) (name : String)
    (qualifier : Option String) (init : Option Expr) :
    Judges P (Expr.optionWellFormed init = true) (lowerDecl frames name qualifier init) := by
  refine (lowerReceiver_judges h init).before fun value => (Plain.declare _).andThen fun _ =>
    (Plain.emit _).dropped.andThen fun _ => ?_
  cases value with
  | none => exact .nothing ()
  | some value => exact (Plain.emit _).dropped

theorem lowerAssign_judges (h : Vetted P (Frame.crossings frames)) (target : Target)
    (value : Expr) :
    Judges P ((target.wellFormed && value.wellFormed) = true)
      (lowerAssign frames target value) := by
  have hvalue := (lowerExpr_judged h value).value
  cases target with
  | «local» name =>
      exact hvalue.before fun _ => (Plain.lookup name).andThen fun _ => (Plain.emit _).dropped
  | field receiver name =>
      exact ((lowerExpr_judged h receiver).value.bind fun _ => hvalue.before fun _ =>
        (Plain.emit _).dropped).congr (by simp)

theorem lowerAssert_judges (h : Vetted P (Frame.crossings frames)) (condition : Expr) :
    Judges P (condition.wellFormed = true) (lowerAssert frames condition) :=
  .after .newBlock fun _ => .after .newBlock fun _ =>
    (((lowerExpr_judged h condition).test _ _).bind fun _ => .after (.setCurrent _) fun _ =>
      (Judges.emitRaising h .assertFailure [assertionError] true).dropped.before fun _ =>
        .setCurrent _).congr (by simp [assertionError])

theorem jump_judges (h : Vetted P (Frame.crossings frames)) (label : Option String)
    (leaves : Bool) :
    Judges P (Stmt.finds (Frame.loops frames) label = true) (jump frames label leaves) := by
  rw [← Frame.isSome_way label leaves]
  unfold jump
  cases hfound : Frame.findLoop label frames with
  | some found =>
      have hway : Frame.way label leaves frames = some (Frame.crossings found.1,
          if leaves then found.2.2 else found.2.1) := by rw [Frame.way, hfound, Option.map_some]
      rw [hway]
      exact (Judges.depart (h.subset fun _ => Frame.mem_crossings_of_way hway) _).congr (by simp)
  | none =>
      rw [Frame.way, hfound]
      cases label with
      | some label => exact (Judges.refusal rfl).congr (by simp)
      | none => exact (Judges.refusal (by cases leaves <;> rfl)).congr (by simp)

theorem lowerReturn_judges (h : Vetted P (Frame.crossings frames)) (value : Option Expr) :
    Judges P (Expr.optionWellFormed value = true) (lowerStmt frames (.returnValue value)) := by
  rw [lowerStmt]
  exact ((lowerReceiver_judges h value).bind fun _ => .after (Plain.emit _).dropped fun _ =>
    .depart h exitId).congr (and_iff_left trivial)

theorem lowerThrow_judges (h : Vetted P (Frame.crossings frames)) (exception : String)
    (value : Option Expr) :
    Judges P ((Expr.optionWellFormed value && decide (exception ≠ "")) = true)
      (lowerStmt frames (.throw exception value)) := by
  rw [lowerStmt]
  exact ((lowerReceiver_judges h value).bind fun _ =>
    (Judges.emitRaising h (.throw exception _) [exception] true).dropped).congr (by simp)

theorem lowerIf_judges (h : Vetted P (Frame.crossings frames)) (condition : Expr)
    {thenBody : List Stmt} {elseBody : Option (List Stmt)} (hthen : JudgedBody thenBody)
    (helse : Judges P (Stmt.optionWellFormed (Frame.loops frames) elseBody = true)
      (lowerElse frames elseBody)) :
    Judges P ((Stmt.ifElse condition thenBody elseBody).wellFormed (Frame.loops frames) = true)
      (lowerStmt frames (.ifElse condition thenBody elseBody)) := by
  rw [lowerStmt, Stmt.wellFormed, Bool.and_eq_true, Bool.and_eq_true]
  exact .after .newBlock fun _ => .after .newBlock fun _ => .after .newBlock fun _ =>
    ((lowerExpr_judged h condition).test _ _).bind fun _ => .after (.setCurrent _) fun _ =>
    (hthen.inside h).bind fun _ => .after (.closeWith _) fun _ => .after (.setCurrent _) fun _ =>
    helse.before fun _ => (Plain.closeWith _).andThen fun _ => .setCurrent _

theorem lowerWhile_judges (h : Vetted P (Frame.crossings frames)) (label : Option String)
    (condition : Expr) (hbody : JudgedBody body) :
    Judges P ((Stmt.whileLoop label condition body).wellFormed (Frame.loops frames) = true)
      (lowerStmt frames (.whileLoop label condition body)) := by
  rw [lowerStmt, Stmt.wellFormed, Bool.and_eq_true]
  refine .after .newLoopHead fun head => .after (.closeWith _) fun _ => .after .newBlock fun _ =>
    .after (.link _ _) fun _ => .after .newBlock fun _ => .after .newBlock fun exitBlock =>
    .after (.setCurrent _) fun _ => ((lowerExpr_judged h condition).test _ _).bind fun _ =>
    .after (.setCurrent _) fun _ => ?_
  have hloop : Vetted P (Frame.crossings (.loop label head exitBlock :: frames)) := h
  exact (hbody.inside hloop).before fun _ => (Plain.closeWith _).andThen fun _ => .setCurrent _

theorem lowerDoWhile_judges (h : Vetted P (Frame.crossings frames)) (label : Option String)
    (condition : Expr) (hbody : JudgedBody body) :
    Judges P ((Stmt.doWhile label body condition).wellFormed (Frame.loops frames) = true)
      (lowerStmt frames (.doWhile label body condition)) := by
  rw [lowerStmt, Stmt.wellFormed, Bool.and_comm, Bool.and_eq_true]
  refine .after .newLoopHead fun head => .after (.closeWith _) fun _ => .after .newBlock fun _ =>
    .after (.link _ _) fun _ => .after .newBlock fun testBlock => .after .newBlock fun exitBlock =>
    .after (.setCurrent _) fun _ => ?_
  have hloop : Vetted P (Frame.crossings (.loop label testBlock exitBlock :: frames)) := h
  exact (hbody.inside hloop).bind fun _ => .after (.closeWith _) fun _ =>
    .after (.setCurrent _) fun _ => ((lowerExpr_judged h condition).test _ _).before fun _ =>
    .setCurrent _

theorem loopTest_judges (h : Vetted P (Frame.crossings frames)) (condition : Option Expr)
    (t e : BlockId) :
    Judges P (Expr.optionWellFormed condition = true) (loopTest frames condition t e) := by
  cases condition with
  | none => exact (Judges.of_plain (.closeWith t)).congr (by simp)
  | some condition => exact (lowerExpr_judged h condition).test t e

theorem lowerFor_judges (h : Vetted P (Frame.crossings frames)) (label : Option String)
    (condition : Option Expr) {init update : List Stmt} (hinit : JudgedBody init)
    (hupdate : JudgedBody update) (hbody : JudgedBody body) :
    Judges P
      ((Stmt.forLoop label init condition update body).wellFormed (Frame.loops frames) = true)
      (lowerStmt frames (.forLoop label init condition update body)) := by
  rw [lowerStmt, Stmt.wellFormed, Bool.and_eq_true, Bool.and_eq_true, Bool.and_eq_true, lowerFor_eq]
  refine Judges.before ?_ fun exitBlock => .setCurrent _
  refine .after (.scopes ([] :: ·)) fun _ => (hinit.judges h).bind fun _ =>
    .after .newLoopHead fun head => .after (.closeWith _) fun _ => .after .newBlock fun first =>
    .after (.link _ _) fun _ => .after .newBlock fun bodyBlock =>
    .after .newBlock fun updateBlock =>
    .after .newBlock fun exitBlock => .after (.setCurrent _) fun _ =>
    (loopTest_judges h condition _ _).bind fun _ => .after (.setCurrent _) fun _ => ?_
  have hloop : Vetted P (Frame.crossings (.loop label updateBlock exitBlock :: frames)) := h
  exact (hbody.inside hloop).bind fun _ => .after (.closeWith _) fun _ =>
    .after (.setCurrent _) fun _ => (hupdate.judges h).before fun _ =>
    (Plain.closeWith _).andThen fun _ =>
    (Plain.scopes (List.drop 1)).andThen fun _ => .nothing _

/-- The clauses of a protected region are checked before anything is built. -/
theorem checkHandlers_judges (handlers : List Handler) :
    Judges P (Handler.distinct handlers = true)
      (liftM (checkHandlers [] (handlers.map Handler.exception)) : Build Unit) where
  run {P₁ b} _ hb := by
    rw [Handler.distinct_iff]
    cases hcheck : checkHandlers [] (handlers.map Handler.exception) with
    | error e => exact .refused (checkHandlers_error hcheck) (by simp)
    | ok => exact .settled rfl hb

theorem clauseBlocks_plain (handlers : List Handler) :
    Plain (handlers.mapM fun h : Handler => do
      let block ← newBlock
      return (h.exception, block)) := by
  induction handlers with
  | nil => exact .nothing []
  | cons handler rest ih =>
      rw [List.mapM_cons]
      exact (Plain.newBlock.andThen fun _ => .nothing _).andThen fun _ =>
        ih.andThen fun _ => .nothing _

theorem length_clauseBlocks {handlers : List Handler} {targets : List (String × BlockId)}
    {b b' : Building} (hrun : (handlers.mapM fun h : Handler => do
      let block ← newBlock
      return (h.exception, block)).run b = .ok (targets, b')) :
    targets.length = handlers.length := by
  induction handlers generalizing b targets with
  | nil =>
      obtain ⟨rfl, -⟩ := run_pure.mp hrun
      rfl
  | cons handler rest ih =>
      simp only [List.mapM_cons, run_bind, run_pure] at hrun
      obtain ⟨_, _, -, others, b₂, h₂, rfl, rfl⟩ := hrun
      rw [List.length_cons, ih h₂, List.length_cons]

theorem lowerClause_judges (h : Vetted P (Frame.crossings frames)) (binding : Option String)
    (hbody : JudgedBody body) :
    Judges P (Stmt.allWellFormed (Frame.loops frames) body = true)
      (lowerClause frames binding body) := by
  cases binding with
  | none => exact hbody.judges h
  | some name =>
      exact .after (.declare _) fun _ => .after (Plain.emit _).dropped fun _ => hbody.judges h

theorem lowerHandlers_judges (h : Vetted P (Frame.crossings frames)) {leave : Build Unit}
    (hleave : Judges P True leave) {handlers : List Handler} {blocks : List BlockId}
    (hbodies : ∀ h ∈ handlers, JudgedBody h.body) (hlength : blocks.length = handlers.length) :
    Judges P (Stmt.clausesWellFormed (Frame.loops frames) handlers = true)
      (lowerHandlers frames leave handlers blocks) := by
  induction handlers generalizing blocks with
  | nil =>
      rw [lowerHandlers]
      · exact (Judges.of_plain (.nothing ())).congr (by simp)
      · simp
  | cons handler rest ih =>
      cases blocks with
      | nil => cases hlength
      | cons block blocks =>
          obtain ⟨exception, binding, body⟩ := handler
          obtain ⟨hbody, hothers⟩ := List.forall_mem_cons.mp hbodies
          rw [lowerHandlers_eq, Stmt.clausesWellFormed, Bool.and_eq_true]
          refine .after (.setCurrent _) fun _ => (lowerClause_judges h binding hbody).inside.bind
            fun _ => (hleave.bind fun _ => ih hothers ?_).congr (and_iff_right trivial)
          exact Nat.succ.inj hlength

/-- A final body is registered before the region that it protects is built, and the verdict
on it is given when the region is left. -/
theorem registerFinal_judges {W : Prop} {finalBody : Option (List Stmt)}
    {f : List Crossing → Build Unit} (h : Vetted P (Frame.crossings frames))
    (hbody : ∀ body ∈ finalBody, JudgedBody body)
    (hf : ∀ {P' : List Bool} {crossed : List Crossing}, P <+: P' → Vetted P' crossed →
      Judges P' ((∀ c ∈ crossed, P'[c.id]? = some true) ∧ W) (f crossed)) :
    Judges P (Stmt.optionWellFormed (Frame.loops frames) finalBody = true ∧ W)
      (registerFinal frames finalBody >>= f) := by
  cases finalBody with
  | none =>
      have hvetted : Vetted P [] := List.forall_mem_nil _
      exact (hf List.prefix_rfl hvetted).congr (by simp)
  | some body =>
      refine ⟨fun {P₁ b} hP hb => ?_⟩
      set w := Stmt.allWellFormed (Frame.loops frames) body with hw
      have hnew : (P₁ ++ [w])[b.nextFinal]? = some w := by simp [← hb.finals]
      have hvetted : Vetted (P₁ ++ [w]) [⟨b.nextFinal, inScope (lowerStmts frames body)⟩] := by
        intro c hc
        obtain rfl := List.mem_singleton.mp hc
        exact ⟨w, hnew, (hbody body rfl).inside (h.extend (hP.trans (List.prefix_append _ _)))⟩
      have hb' : Building.Vouched (P₁ ++ [w]) { b with nextFinal := b.nextFinal + 1 } :=
        ⟨by simp [hb.finals], fun path hpath id hid =>
          getElem?_of_isPrefix (List.prefix_append _ _) (hb.paths path hpath id hid)⟩
      have hjudged := (hf (hP.trans (List.prefix_append _ _)) hvetted).run List.prefix_rfl hb'
      change Judged P₁ _ ((f [⟨b.nextFinal, inScope (lowerStmts frames body)⟩]).run
        { b with nextFinal := b.nextFinal + 1 })
      generalize (f [⟨b.nextFinal, inScope (lowerStmts frames body)⟩]).run
        { b with nextFinal := b.nextFinal + 1 } = outcome at hjudged ⊢
      simp only [List.forall_mem_singleton, hnew, Option.some.injEq] at hjudged
      rw [Stmt.optionWellFormed, ← hw]
      cases hjudged with
      | @accepted a b₁ new holds vouched sound =>
          rw [List.append_assoc] at vouched
          exact .accepted holds vouched (by simp [holds.1, sound])
      | refused fault blame =>
          refine .refused fault fun hv => ?_
          simpa [hv.1] using blame hv

theorem lowerTry_judges {handlers : List Handler} {finalBody : Option (List Stmt)}
    (h : Vetted P (Frame.crossings frames)) (hbody : JudgedBody body)
    (hhandlers : ∀ h ∈ handlers, JudgedBody h.body)
    (hfinal : ∀ body ∈ finalBody, JudgedBody body) :
    Judges P ((Stmt.tryCatch body handlers finalBody).wellFormed (Frame.loops frames) = true)
      (lowerStmt frames (.tryCatch body handlers finalBody)) := by
  rw [lowerTry_eq, Stmt.wellFormed, Bool.and_eq_true]
  refine (checkHandlers_judges handlers).bind fun _ => .after .newBlock fun after =>
    .afterRun (clauseBlocks_plain handlers) fun targets hrun => ?_
  obtain ⟨b, b', hrun⟩ := hrun
  have hlength := length_clauseBlocks hrun
  refine (registerFinal_judges (W := Stmt.allWellFormed (Frame.loops frames) body = true ∧
    Stmt.clausesWellFormed (Frame.loops frames) handlers = true) h hfinal
    fun {P' crossed} hP hcrossed => ?_).congr ?_
  · have hinner : Vetted P'
        (Frame.crossings (crossed.map (fun c => Frame.finalBody c.id c.copy) ++ frames)) := by
      rw [Frame.crossings_finals]
      exact List.forall_mem_append.mpr ⟨hcrossed, h.extend hP⟩
    have hguarded : Vetted P' (Frame.crossings (.handlers targets ::
        (crossed.map (fun c => Frame.finalBody c.id c.copy) ++ frames))) := hinner
    have hblocks : (targets.map Prod.snd).length = handlers.length := by
      rw [List.length_map, hlength]
    have hprotected := hbody.inside hguarded
    have hclauses := lowerHandlers_judges hinner (.depart hcrossed after) hhandlers hblocks
    rw [Frame.loops, Frame.loops_finals] at hprotected
    rw [Frame.loops_finals] at hclauses
    exact (hprotected.bind fun _ => (Judges.leaveThrough hcrossed after).bind fun _ =>
      .after (.closeWith _) fun _ => hclauses.before fun _ => .setCurrent _).congr and_left_comm
  · rw [Bool.and_eq_true, Bool.and_eq_true]
    tauto

end

/-! Every statement is judged, by recursion on the syntax. -/

mutual

theorem lowerStmt_judges : (s : Stmt) → ∀ {P : List Bool} {frames : List Frame},
    Vetted P (Frame.crossings frames) →
    Judges P (s.wellFormed (Frame.loops frames) = true) (lowerStmt frames s)
  | .localDecl name qualifier init, _, _, h => by
      rw [lowerStmt, Stmt.wellFormed]
      exact lowerDecl_judges h name qualifier init
  | .assign target value, _, _, h => by
      rw [lowerStmt, Stmt.wellFormed]
      exact lowerAssign_judges h target value
  | .expr value, _, _, h => by
      rw [lowerStmt, Stmt.wellFormed]
      exact (lowerExpr_judged h value).value.dropped
  | .ifElse condition thenBody elseBody, _, _, h =>
      lowerIf_judges h condition (lowerStmts_judges thenBody) (lowerElse_judges elseBody h)
  | .whileLoop label condition body, _, _, h =>
      lowerWhile_judges h label condition (lowerStmts_judges body)
  | .doWhile label body condition, _, _, h =>
      lowerDoWhile_judges h label condition (lowerStmts_judges body)
  | .forLoop label init condition update body, _, _, h =>
      lowerFor_judges h label condition (lowerStmts_judges init) (lowerStmts_judges update)
        (lowerStmts_judges body)
  | .breakLoop label, _, _, h => by
      rw [lowerStmt, Stmt.wellFormed]
      exact jump_judges h label true
  | .continueLoop label, _, _, h => by
      rw [lowerStmt, Stmt.wellFormed]
      exact jump_judges h label false
  | .returnValue value, _, _, h => by
      rw [Stmt.wellFormed]
      exact lowerReturn_judges h value
  | .throw exception value, _, _, h => by
      rw [Stmt.wellFormed]
      exact lowerThrow_judges h exception value
  | .tryCatch body handlers finalBody, _, _, h =>
      lowerTry_judges h (lowerStmts_judges body) (clauses_judged handlers)
        (finalBody_judged finalBody)
  | .assert condition, _, _, h => by
      rw [lowerStmt, Stmt.wellFormed]
      exact lowerAssert_judges h condition

theorem lowerStmts_judges : (stmts : List Stmt) → JudgedBody stmts
  | [] => ⟨fun _ => by
      rw [lowerStmts]
      exact (Judges.of_plain (.nothing ())).congr (by simp)⟩
  | s :: rest => ⟨fun h => by
      rw [lowerStmts, Stmt.allWellFormed, Bool.and_eq_true]
      exact (lowerStmt_judges s h).bind fun _ => (lowerStmts_judges rest).judges h⟩

theorem lowerElse_judges : (stmts : Option (List Stmt)) → ∀ {P : List Bool} {frames : List Frame},
    Vetted P (Frame.crossings frames) →
    Judges P (Stmt.optionWellFormed (Frame.loops frames) stmts = true) (lowerElse frames stmts)
  | none, _, _, _ => by
      rw [lowerElse]
      exact (Judges.of_plain (.nothing ())).congr (by simp)
  | some body, _, _, h => by
      rw [lowerElse, Stmt.optionWellFormed]
      exact (lowerStmts_judges body).inside h

theorem finalBody_judged : (stmts : Option (List Stmt)) → ∀ body ∈ stmts, JudgedBody body
  | none, _, h => nomatch h
  | some body, _, h => Option.some.inj h ▸ lowerStmts_judges body

theorem clauses_judged : (handlers : List Handler) → ∀ h ∈ handlers, JudgedBody h.body
  | [], _, h => nomatch h
  | .clause _ _ body :: rest, handler, h => by
      rcases List.mem_cons.mp h with rfl | h
      · exact lowerStmts_judges body
      · exact clauses_judged rest handler h

end

/-!
Acceptance: units with well-formed source have a graph, and all others are refused for a fault
in their source. The checks of a finished graph never fail.
-/

theorem Building.vouched_start (params : List Parameter) :
    (Build.start params).Vouched [] :=
  ⟨rfl, List.forall_mem_nil _⟩

namespace ProgramUnit

theorem build_judges (u : ProgramUnit) : Judges [] (u.wellFormed = true) u.build := by
  have hbare : Vetted [] (Frame.crossings []) := List.forall_mem_nil _
  exact .after .newBlock fun _ => .after (.link _ _) fun _ => .after (.setCurrent _) fun _ =>
    ((lowerStmts_judges u.body).inside hbare).before fun _ => .closeWith _

/-- A construction that has succeeded passes the checks of its graph. -/
theorem finish_ok {u : ProgramUnit} {b : Building}
    (h : u.build.run (Build.start u.params) = .ok ((), b)) :
    ∃ g, Build.finish u.name b = .ok g := by
  obtain ⟨hw, G, hD⟩ := u.build_marked h
  exact hD.toGraph_ok hw u.name

/-- A unit has a graph if it is well-formed, and is refused for a fault in its source if not. -/
theorem lower_accepts (u : ProgramUnit) :
    (u.wellFormed = true ∧ ∃ g, u.lower = .ok g) ∨
      (u.wellFormed = false ∧ ∃ e, u.lower = .error e ∧ e.isSourceFault = true) := by
  have hlower : u.lower = u.build.run (Build.start u.params) >>= fun r =>
      Build.finish u.name r.2 := rfl
  have hjudged := u.build_judges.run List.prefix_rfl (Building.vouched_start u.params)
  rw [hlower]
  generalize hrun : u.build.run (Build.start u.params) = outcome at hjudged ⊢
  cases hjudged with
  | accepted holds vouched sound => exact .inl ⟨holds, finish_ok hrun⟩
  | @refused e fault blame =>
      exact .inr ⟨Bool.eq_false_iff.mpr fun h => List.not_mem_nil (blame h), e, rfl, fault⟩

/-- A loop that its own update jumps out of, in code that is never reached. -/
def strayUpdate : ProgramUnit :=
  ⟨"stray_update", [], none, [.returnValue none,
    .tryCatch [] [] (some [.forLoop none [] none [.breakLoop none] [.breakLoop none]])]⟩

example : strayUpdate.wellFormed = false ∧ strayUpdate.lower.isOk = false := by decide +kernel

end ProgramUnit

end FlowTyping
