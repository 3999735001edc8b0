import FlowTyping.Lowering.Lower
import FlowTyping.Proofs.Renaming.Building

/-!
The lowering of a unit with its variables renamed: it fails like that of the unit, or it
gives the same graph with the variables renamed.
-/

namespace FlowTyping

open Build

section

variable {ρ : String → String} {frames frames' : List Frame}

mutual

theorem lowerExpr_mirrored (hρ : Function.Injective ρ) (hf : Frames ρ frames frames') :
    (e : Expr) → (lowerExpr frames e).Mirrored ρ (lowerExpr frames' (e.rename ρ))
  | .literal value => .ofValue (emit_mirrors ρ (.literal value))
  | .var name => .ofValue ((lookup_mirrors hρ name).bind fun _ => emit_mirrors ρ _)
  | .this => .ofValue (emit_mirrors ρ .this)
  | .field receiver name => by
      have hreceiver := lowerExpr_mirrored hρ hf receiver
      exact .ofValue (hreceiver.value.bind fun _ => emit_mirrors ρ _)
  | .call receiver method args throws => by
      have hreceiver := lowerReceiver_mirrors hρ hf receiver
      have hargs := lowerArgs_mirrors hρ hf args
      apply Lowered.Mirrored.ofValue
      apply hreceiver.bind
      intro r
      apply hargs.bind
      intro as
      exact emitRaising_mirrors hf (.call r method as) _ false
  | .new className args => by
      have hargs := lowerArgs_mirrors hρ hf args
      exact .ofValue (hargs.bind fun as => emitRaising_mirrors hf (.new className as) _ false)
  | .binary op lhs rhs => by
      have hlhs := lowerExpr_mirrored hρ hf lhs
      have hrhs := lowerExpr_mirrored hρ hf rhs
      unfold lowerExpr Expr.rename
      dsimp only
      split
      · exact hlhs.shortCircuit op hrhs
      · exact .ofValue (hlhs.value.bind fun _ => hrhs.value.bind fun _ => emit_mirrors ρ _)
  | .unary op operand => by
      have hoperand := lowerExpr_mirrored hρ hf operand
      unfold lowerExpr Expr.rename
      dsimp only
      split
      · exact hoperand.negation
      · exact .ofValue (hoperand.value.bind fun _ => emit_mirrors ρ _)
  | .ternary condition thenValue elseValue =>
      .ternary (lowerExpr_mirrored hρ hf condition) (lowerExpr_mirrored hρ hf thenValue)
        (lowerExpr_mirrored hρ hf elseValue)
  | .cast qualifier operand => by
      have hoperand := lowerExpr_mirrored hρ hf operand
      exact .ofValue (hoperand.value.bind fun _ => emit_mirrors ρ _)

theorem lowerReceiver_mirrors (hρ : Function.Injective ρ) (hf : Frames ρ frames frames') :
    (e : Option Expr) → Mirrors ρ id (lowerReceiver frames e)
      (lowerReceiver frames' (Expr.renameOption ρ e))
  | none => .of_pure id none
  | some e => (lowerExpr_mirrored hρ hf e).value.bind fun node => .of_pure id (some node)

theorem lowerArgs_mirrors (hρ : Function.Injective ρ) (hf : Frames ρ frames frames') :
    (es : List Expr) → Mirrors ρ id (lowerArgs frames es)
      (lowerArgs frames' (Expr.renameList ρ es))
  | [] => .of_pure id []
  | e :: rest => (lowerExpr_mirrored hρ hf e).value.bind fun node =>
      (lowerArgs_mirrors hρ hf rest).bind fun nodes => .of_pure id (node :: nodes)

end

theorem lowerAssert_mirrors (hρ : Function.Injective ρ) (hf : Frames ρ frames frames')
    (condition : Expr) :
    Mirrors ρ id (lowerAssert frames condition) (lowerAssert frames' (condition.rename ρ)) := by
  apply (newBlock_mirrors ρ).bind
  intro holds
  apply (newBlock_mirrors ρ).bind
  intro fails
  apply ((lowerExpr_mirrored hρ hf condition).test _ _).bind
  intro _
  apply (setCurrent_mirrors ρ _).bind
  intro _
  apply (emitRaising_mirrors hf .assertFailure [assertionError] true).discard.bind
  intro _
  exact setCurrent_mirrors ρ _

theorem lowerDecl_mirrors (hρ : Function.Injective ρ) (hf : Frames ρ frames frames')
    (name : String) (qualifier : Option String) (init : Option Expr) :
    Mirrors ρ id (lowerDecl frames name qualifier init)
      (lowerDecl frames' (ρ name) qualifier (Expr.renameOption ρ init)) := by
  apply (lowerReceiver_mirrors hρ hf init).bind
  intro value
  apply (declare_mirrors ρ ⟨name, qualifier, .local⟩).bind
  intro _
  apply (emit_mirrors ρ (.localDecl ⟨name, qualifier, .local⟩)).discard.bind
  intro _
  cases value with
  | none => exact .of_pure id ()
  | some value => exact (emit_mirrors ρ (.assign (.local ⟨name, qualifier, .local⟩) value)).discard

theorem lowerAssign_mirrors (hρ : Function.Injective ρ) (hf : Frames ρ frames frames')
    (target : Target) (value : Expr) :
    Mirrors ρ id (lowerAssign frames target value)
      (lowerAssign frames' (target.rename ρ) (value.rename ρ)) := by
  have hvalue := (lowerExpr_mirrored hρ hf value).value
  cases target with
  | «local» name =>
      apply hvalue.bind
      intro node
      apply (lookup_mirrors hρ name).bind
      intro var
      exact (emit_mirrors ρ (.assign (.local var) node)).discard
  | field receiver name =>
      apply (lowerExpr_mirrored hρ hf receiver).value.bind
      intro object
      apply hvalue.bind
      intro node
      exact (emit_mirrors ρ (.assign (.field object name) node)).discard

theorem enterScope_mirrors (ρ : String → String) :
    Mirrors ρ id (modify fun b => { b with scopes := [] :: b.scopes })
      (modify fun b => { b with scopes := [] :: b.scopes }) := by
  apply Mirrors.of_modify
  intro _
  rfl

theorem leaveScope_mirrors (ρ : String → String) :
    Mirrors ρ id (modify fun b => { b with scopes := b.scopes.drop 1 })
      (modify fun b => { b with scopes := b.scopes.drop 1 }) := by
  apply Mirrors.of_modify
  intro b
  simp [Building.rename]

theorem lowerFor_mirrors (hρ : Function.Injective ρ) (hf : Frames ρ frames frames')
    (label : Option String) {init init' update update' : Build Unit}
    (condition : Option Expr) {body body' : Frame → Build Unit}
    (hinit : Mirrors ρ id init init') (hupdate : Mirrors ρ id update update')
    (hbody : ∀ frame frame', MirroredFrame ρ frame frame' →
      Mirrors ρ id (body frame) (body' frame')) :
    Mirrors ρ id (lowerFor frames label init condition update body)
      (lowerFor frames' label init' (Expr.renameOption ρ condition) update' body') := by
  apply (enterScope_mirrors ρ).bind
  intro _
  apply hinit.bind
  intro _
  apply (newLoopHead_mirrors ρ).bind
  intro head
  apply (closeWith_mirrors ρ head).bind
  intro _
  apply (newBlock_mirrors ρ).bind
  intro testBlock
  apply (link_mirrors ρ head testBlock).bind
  intro _
  apply (newBlock_mirrors ρ).bind
  intro bodyBlock
  apply (newBlock_mirrors ρ).bind
  intro updateBlock
  apply (newBlock_mirrors ρ).bind
  intro exitBlock
  apply (setCurrent_mirrors ρ _).bind
  intro _
  have hrest : Mirrors ρ id (do
      setCurrent bodyBlock
      inScope (body (.loop label updateBlock exitBlock))
      closeWith updateBlock
      setCurrent updateBlock
      update
      closeWith head
      modify fun b => { b with scopes := b.scopes.drop 1 }
      return exitBlock) (do
      setCurrent bodyBlock
      inScope (body' (.loop label updateBlock exitBlock))
      closeWith updateBlock
      setCurrent updateBlock
      update'
      closeWith head
      modify fun b => { b with scopes := b.scopes.drop 1 }
      return exitBlock) := by
    apply (setCurrent_mirrors ρ _).bind
    intro _
    apply (inScope_mirrors (hbody _ _ (.loop label updateBlock exitBlock))).bind
    intro _
    apply (closeWith_mirrors ρ updateBlock).bind
    intro _
    apply (setCurrent_mirrors ρ _).bind
    intro _
    apply hupdate.bind
    intro _
    apply (closeWith_mirrors ρ head).bind
    intro _
    apply (leaveScope_mirrors ρ).bind
    intro _
    exact .of_pure id exitBlock
  cases condition with
  | none => exact (closeWith_mirrors ρ bodyBlock).bind fun _ => hrest
  | some condition =>
      exact ((lowerExpr_mirrored hρ hf condition).test _ _).bind fun _ => hrest

theorem ifElse_mirrors (hρ : Function.Injective ρ) (hf : Frames ρ frames frames')
    (condition : Expr) (thenBody : List Stmt) (elseBody : Option (List Stmt))
    (hthen : Mirrors ρ id (lowerStmts frames thenBody)
      (lowerStmts frames' (Stmt.renameList ρ thenBody)))
    (helse : Mirrors ρ id (lowerElse frames elseBody)
      (lowerElse frames' (Stmt.renameOption ρ elseBody))) :
    Mirrors ρ id (lowerStmt frames (.ifElse condition thenBody elseBody))
      (lowerStmt frames' ((Stmt.ifElse condition thenBody elseBody).rename ρ)) := by
  apply (newBlock_mirrors ρ).bind
  intro thenBlock
  apply (newBlock_mirrors ρ).bind
  intro elseBlock
  apply (newBlock_mirrors ρ).bind
  intro mergeBlock
  apply ((lowerExpr_mirrored hρ hf condition).test _ _).bind
  intro _
  apply (setCurrent_mirrors ρ _).bind
  intro _
  apply (inScope_mirrors hthen).bind
  intro _
  apply (closeWith_mirrors ρ mergeBlock).bind
  intro _
  apply (setCurrent_mirrors ρ _).bind
  intro _
  apply helse.bind
  intro _
  apply (closeWith_mirrors ρ mergeBlock).bind
  intro _
  exact setCurrent_mirrors ρ _

theorem whileLoop_mirrors (hρ : Function.Injective ρ) (hf : Frames ρ frames frames')
    (label : Option String) (condition : Expr) (body : List Stmt)
    (hbody : ∀ frame frame', MirroredFrame ρ frame frame' →
      Mirrors ρ id (lowerStmts (frame :: frames) body)
        (lowerStmts (frame' :: frames') (Stmt.renameList ρ body))) :
    Mirrors ρ id (lowerStmt frames (.whileLoop label condition body))
      (lowerStmt frames' ((Stmt.whileLoop label condition body).rename ρ)) := by
  apply (newLoopHead_mirrors ρ).bind
  intro head
  apply (closeWith_mirrors ρ head).bind
  intro _
  apply (newBlock_mirrors ρ).bind
  intro testBlock
  apply (link_mirrors ρ head testBlock).bind
  intro _
  apply (newBlock_mirrors ρ).bind
  intro bodyBlock
  apply (newBlock_mirrors ρ).bind
  intro exitBlock
  apply (setCurrent_mirrors ρ _).bind
  intro _
  apply ((lowerExpr_mirrored hρ hf condition).test _ _).bind
  intro _
  apply (setCurrent_mirrors ρ _).bind
  intro _
  apply (inScope_mirrors (hbody _ _ (.loop label head exitBlock))).bind
  intro _
  apply (closeWith_mirrors ρ head).bind
  intro _
  exact setCurrent_mirrors ρ _

theorem doWhile_mirrors (hρ : Function.Injective ρ) (hf : Frames ρ frames frames')
    (label : Option String) (body : List Stmt) (condition : Expr)
    (hbody : ∀ frame frame', MirroredFrame ρ frame frame' →
      Mirrors ρ id (lowerStmts (frame :: frames) body)
        (lowerStmts (frame' :: frames') (Stmt.renameList ρ body))) :
    Mirrors ρ id (lowerStmt frames (.doWhile label body condition))
      (lowerStmt frames' ((Stmt.doWhile label body condition).rename ρ)) := by
  apply (newLoopHead_mirrors ρ).bind
  intro head
  apply (closeWith_mirrors ρ head).bind
  intro _
  apply (newBlock_mirrors ρ).bind
  intro bodyBlock
  apply (link_mirrors ρ head bodyBlock).bind
  intro _
  apply (newBlock_mirrors ρ).bind
  intro testBlock
  apply (newBlock_mirrors ρ).bind
  intro exitBlock
  apply (setCurrent_mirrors ρ _).bind
  intro _
  apply (inScope_mirrors (hbody _ _ (.loop label testBlock exitBlock))).bind
  intro _
  apply (closeWith_mirrors ρ testBlock).bind
  intro _
  apply (setCurrent_mirrors ρ _).bind
  intro _
  apply ((lowerExpr_mirrored hρ hf condition).test _ _).bind
  intro _
  exact setCurrent_mirrors ρ _

theorem handlerBlocks_mirrors (ρ : String → String) (handlers : List Handler) :
    Mirrors ρ id
      (handlers.mapM fun h => do
        let block ← newBlock
        return (h.exception, block))
      ((Handler.renameList ρ handlers).mapM fun h => do
        let block ← newBlock
        return (h.exception, block)) := by
  induction handlers with
  | nil => exact .of_pure id []
  | cons handler rest ih =>
      obtain ⟨exception, binding, body⟩ := handler
      simp only [Handler.renameList, List.mapM_cons]
      have hblock : Mirrors ρ id (do
          let block ← newBlock
          return ((Handler.clause exception binding body).exception, block)) (do
          let block ← newBlock
          return ((Handler.clause exception (binding.map ρ)
            (Stmt.renameList ρ body)).exception, block)) :=
        (newBlock_mirrors ρ).bind fun block => .of_pure id (exception, block)
      apply hblock.bind
      intro target
      apply ih.bind
      intro targets
      exact .of_pure id (target :: targets)

theorem Handler.renameList_exceptions (ρ : String → String) (handlers : List Handler) :
    (Handler.renameList ρ handlers).map Handler.exception = handlers.map Handler.exception := by
  induction handlers with
  | nil => rfl
  | cons handler rest ih =>
      obtain ⟨exception, binding, body⟩ := handler
      exact congrArg (exception :: ·) ih

theorem checkHandlers_mirrors (ρ : String → String) (categories : List String) :
    Mirrors ρ id (checkHandlers [] categories : Build Unit) (checkHandlers [] categories) := by
  intro b
  cases h : checkHandlers [] categories with
  | error e => rfl
  | ok u => rfl

/-- A protected region, given the constructions of its parts. -/
theorem tryCatch_mirrors (hf : Frames ρ frames frames') (body : List Stmt)
    (handlers : List Handler) (finalBody : Option (List Stmt))
    (hbody : ∀ inner inner', Frames ρ inner inner' →
      Mirrors ρ id (lowerStmts inner body) (lowerStmts inner' (Stmt.renameList ρ body)))
    (hhandlers : ∀ inner inner' leave leave' blocks, Frames ρ inner inner' →
      Mirrors ρ id leave leave' →
      Mirrors ρ id (lowerHandlers inner leave handlers blocks)
        (lowerHandlers inner' leave' (Handler.renameList ρ handlers) blocks))
    (hfinal : Option.Rel (Mirrors ρ id) (lowerFinal frames finalBody)
      (lowerFinal frames' (Stmt.renameOption ρ finalBody))) :
    Mirrors ρ id (lowerStmt frames (.tryCatch body handlers finalBody))
      (lowerStmt frames' ((Stmt.tryCatch body handlers finalBody).rename ρ)) := by
  rw [Stmt.rename, lowerStmt, lowerStmt, Handler.renameList_exceptions]
  apply (checkHandlers_mirrors ρ _).bind
  intro _
  apply (newBlock_mirrors ρ).bind
  intro after
  apply (handlerBlocks_mirrors ρ handlers).bind
  intro targets
  have hrest : ∀ crossed crossed', List.Forall₂ (MirroredCrossing ρ) crossed crossed' →
      Mirrors ρ id (do
        let inner := crossed.map (fun c => Frame.finalBody c.id c.copy) ++ frames
        inScope (lowerStmts (.handlers targets :: inner) body)
        closeWith (← leaveThrough crossed after)
        lowerHandlers inner (do closeWith (← leaveThrough crossed after)) handlers
          (targets.map Prod.snd)
        setCurrent after) (do
        let inner := crossed'.map (fun c => Frame.finalBody c.id c.copy) ++ frames'
        inScope (lowerStmts (.handlers targets :: inner) (Stmt.renameList ρ body))
        closeWith (← leaveThrough crossed' after)
        lowerHandlers inner (do closeWith (← leaveThrough crossed' after))
          (Handler.renameList ρ handlers) (targets.map Prod.snd)
        setCurrent after) := by
    intro crossed crossed' hcrossed
    have hinner : Frames ρ (crossed.map (fun c => Frame.finalBody c.id c.copy) ++ frames)
        (crossed'.map (fun c => Frame.finalBody c.id c.copy) ++ frames') := by
      induction hcrossed with
      | nil => exact hf
      | @cons c c' _ _ hcopy _ ih =>
          rw [List.map_cons, List.map_cons, ← hcopy.key]
          exact .cons (.finalBody c.id hcopy.copy) ih
    have hleave := (leaveThrough_mirrors hcrossed after).bind_same (closeWith_mirrors ρ)
    apply (inScope_mirrors (hbody _ _ (.cons (.handlers targets) hinner))).bind
    intro _
    apply (leaveThrough_mirrors hcrossed after).bind
    intro entry
    apply (closeWith_mirrors ρ entry).bind
    intro _
    apply (hhandlers _ _ _ _ _ hinner hleave).bind
    intro _
    exact setCurrent_mirrors ρ _
  generalize lowerFinal frames finalBody = copy at hfinal
  generalize lowerFinal frames' (Stmt.renameOption ρ finalBody) = copy' at hfinal
  cases hfinal with
  | none => exact hrest [] [] .nil
  | some hcopy =>
      apply Mirrors.bind Mirrors.of_get
      intro b
      refine Mirrors.bind (Mirrors.of_modify fun _ => ?_) fun _ => ?_
      · rfl
      · exact hrest [⟨b.nextFinal, _⟩] [⟨b.nextFinal, _⟩] (.cons ⟨rfl, hcopy⟩ .nil)

mutual

theorem lowerStmt_mirrors (hρ : Function.Injective ρ) {frames frames' : List Frame}
    (hf : Frames ρ frames frames') :
    (s : Stmt) → Mirrors ρ id (lowerStmt frames s) (lowerStmt frames' (s.rename ρ))
  | .localDecl name qualifier init => lowerDecl_mirrors hρ hf name qualifier init
  | .assign target value => lowerAssign_mirrors hρ hf target value
  | .expr value => (lowerExpr_mirrored hρ hf value).value.discard
  | .ifElse condition thenBody elseBody =>
      ifElse_mirrors hρ hf condition thenBody elseBody (lowerStmts_mirrors hρ hf thenBody)
        (lowerElse_mirrors hρ hf elseBody)
  | .whileLoop label condition body =>
      whileLoop_mirrors hρ hf label condition body fun _ _ hframe =>
        lowerStmts_mirrors hρ (.cons hframe hf) body
  | .doWhile label body condition =>
      doWhile_mirrors hρ hf label body condition fun _ _ hframe =>
        lowerStmts_mirrors hρ (.cons hframe hf) body
  | .forLoop label init condition update body => by
      have hinit := lowerStmts_mirrors hρ hf init
      have hupdate := lowerStmts_mirrors hρ hf update
      apply (lowerFor_mirrors hρ hf label condition hinit hupdate ?_).bind
      · intro exitBlock
        exact setCurrent_mirrors ρ _
      · intro frame frame' hframe
        exact lowerStmts_mirrors hρ (.cons hframe hf) body
  | .breakLoop label => jump_mirrors hf label true
  | .continueLoop label => jump_mirrors hf label false
  | .returnValue value => by
      apply (lowerReceiver_mirrors hρ hf value).bind
      intro node
      apply (emit_mirrors ρ (.returnValue node)).discard.bind
      intro _
      exact (leaveThrough_mirrors hf.crossings exitId).bind fun _ => closeWith_mirrors ρ _
  | .throw exception value => by
      apply (lowerReceiver_mirrors hρ hf value).bind
      intro node
      exact (emitRaising_mirrors hf (.throw exception node) [exception] true).discard
  | .tryCatch body handlers finalBody =>
      tryCatch_mirrors hf body handlers finalBody
        (fun _ _ hinner => lowerStmts_mirrors hρ hinner body)
        (fun _ _ _ _ blocks hinner hleave =>
          lowerHandlers_mirrors hρ hinner hleave handlers blocks)
        (lowerFinal_mirrors hρ hf finalBody)
  | .assert condition => lowerAssert_mirrors hρ hf condition

theorem lowerStmts_mirrors (hρ : Function.Injective ρ) {frames frames' : List Frame}
    (hf : Frames ρ frames frames') :
    (body : List Stmt) → Mirrors ρ id (lowerStmts frames body)
      (lowerStmts frames' (Stmt.renameList ρ body))
  | [] => .of_pure id ()
  | s :: rest => (lowerStmt_mirrors hρ hf s).bind fun _ => lowerStmts_mirrors hρ hf rest

theorem lowerElse_mirrors (hρ : Function.Injective ρ) {frames frames' : List Frame}
    (hf : Frames ρ frames frames') :
    (body : Option (List Stmt)) → Mirrors ρ id (lowerElse frames body)
      (lowerElse frames' (Stmt.renameOption ρ body))
  | none => .of_pure id ()
  | some body => inScope_mirrors (lowerStmts_mirrors hρ hf body)

theorem lowerFinal_mirrors (hρ : Function.Injective ρ) {frames frames' : List Frame}
    (hf : Frames ρ frames frames') :
    (body : Option (List Stmt)) → Option.Rel (Mirrors ρ id) (lowerFinal frames body)
      (lowerFinal frames' (Stmt.renameOption ρ body))
  | none => .none
  | some body => .some (inScope_mirrors (lowerStmts_mirrors hρ hf body))

theorem lowerHandlers_mirrors (hρ : Function.Injective ρ) {frames frames' : List Frame}
    (hf : Frames ρ frames frames') {leave leave' : Build Unit}
    (hleave : Mirrors ρ id leave leave') :
    (handlers : List Handler) → (blocks : List BlockId) →
      Mirrors ρ id (lowerHandlers frames leave handlers blocks)
        (lowerHandlers frames' leave' (Handler.renameList ρ handlers) blocks)
  | [], _ => .of_pure id ()
  | .clause _ _ _ :: _, [] => .of_pure id ()
  | .clause exception binding body :: rest, block :: blocks => by
      have hbody := lowerStmts_mirrors hρ hf body
      have hrest := lowerHandlers_mirrors hρ hf hleave rest blocks
      apply (setCurrent_mirrors ρ _).bind
      intro _
      apply (inScope_mirrors ?_).bind
      · intro _
        exact hleave.bind fun _ => hrest
      · cases binding with
        | none => exact hbody
        | some name =>
            apply (declare_mirrors ρ ⟨name, none, .local⟩).bind
            intro _
            apply (emit_mirrors ρ (.localDecl ⟨name, none, .local⟩)).discard.bind
            intro _
            exact hbody

end

end

namespace GraphParts

variable (ρ : String → String) (p : GraphParts)

/-- The parts with the variables of their nodes renamed. -/
def rename : GraphParts := { p with nodes := p.nodes.map (Node.rename ρ) }

theorem checkNodes_rename : (p.rename ρ).checkNodes = p.checkNodes := by
  have hzip : (p.rename ρ).nodes.toList.zipIdx =
      p.nodes.toList.zipIdx.map (Prod.map (Node.rename ρ) id) := by
    simp [rename, List.zipIdx_map]
  have hsize : (p.rename ρ).nodes.size = p.nodes.size := Array.size_map
  unfold checkNodes
  rw [hzip, hsize]
  induction p.nodes.toList.zipIdx with
  | nil => rfl
  | cons entry rest ih =>
      rw [List.map_cons, List.forM, List.forM, ih]
      simp only [Prod.map, Node.rename, NodeKind.rename_operands, id]
      rfl

theorem checkListing_rename (block : Block) :
    (p.rename ρ).checkListing block = p.checkListing block := by
  unfold checkListing
  apply congrArg
  funext id
  have hnode : (p.rename ρ).nodes[id]? = p.nodes[id]?.map (Node.rename ρ) := Array.getElem?_map
  rw [hnode]
  cases p.nodes[id]? with
  | none => rfl
  | some node => rfl

theorem checkStructure_rename (predecessors : Array (List BlockId)) :
    (p.rename ρ).checkStructure predecessors = p.checkStructure predecessors := by
  have hunlisted : (p.rename ρ).unlisted? = p.unlisted? := by
    unfold unlisted? rename
    rw [Array.size_map]
  unfold checkStructure
  rw [hunlisted]
  simp only [checkListing_rename]
  rfl

theorem toGraph_rename : (p.rename ρ).toGraph = p.toGraph.map (FlowGraph.rename ρ) := by
  unfold toGraph
  dsimp only
  rw [checkNodes_rename, show (p.rename ρ).checkBlocks = p.checkBlocks from rfl,
    show (p.rename ρ).checkDesignated = p.checkDesignated from rfl,
    show (p.rename ρ).predecessorTable = p.predecessorTable from rfl, checkStructure_rename]
  cases p.checkBlocks with
  | error e => rfl
  | ok _ =>
    cases p.checkDesignated with
    | error e => rfl
    | ok _ =>
      cases p.checkNodes with
      | error e => rfl
      | ok _ =>
        cases p.checkStructure p.predecessorTable with
        | error e => rfl
        | ok _ => rfl

end GraphParts

theorem Build.finish_rename (ρ : String → String) (name : String) (b : Building) :
    Build.finish name (b.rename ρ) = (Build.finish name b).map (FlowGraph.rename ρ) := by
  unfold Build.finish
  rw [← GraphParts.toGraph_rename]
  simp [GraphParts.rename, Building.rename, Node.rename, Function.comp_def]

theorem Build.start_rename (ρ : String → String) (params : List Parameter) :
    Build.start (params.map fun p => { p with name := ρ p.name }) =
      (Build.start params).rename ρ := by
  simp [Build.start, Building.rename, LocalVar.rename]

/-- The graph of a unit with its variables renamed is the graph of the unit with its
variables renamed. -/
theorem ProgramUnit.lower_rename {ρ : String → String} (hρ : Function.Injective ρ)
    (u : ProgramUnit) : (u.rename ρ).lower = u.lower.map (FlowGraph.rename ρ) := by
  have hbuild : Mirrors ρ id (do
      let first ← newBlock
      link entryId first
      setCurrent first
      inScope (lowerStmts [] u.body)
      closeWith exitId) (do
      let first ← newBlock
      link entryId first
      setCurrent first
      inScope (lowerStmts [] (u.rename ρ).body)
      closeWith exitId) := by
    apply (newBlock_mirrors ρ).bind
    intro first
    apply (link_mirrors ρ entryId first).bind
    intro _
    apply (setCurrent_mirrors ρ _).bind
    intro _
    apply (inScope_mirrors (lowerStmts_mirrors hρ .nil u.body)).bind
    intro _
    exact closeWith_mirrors ρ exitId
  have hrun := hbuild (Build.start u.params)
  rw [← Build.start_rename] at hrun
  unfold ProgramUnit.lower
  dsimp only
  rw [show (u.rename ρ).params = u.params.map fun p => { p with name := ρ p.name } from rfl, hrun]
  generalize StateT.run _ (Build.start u.params) = run
  cases run with
  | error e => rfl
  | ok r => exact Build.finish_rename ρ u.name r.2

end FlowTyping
