import FlowTyping.Proofs.Drafting.Loops

/-!
Units without loops. Only a loop opens a head, so the graph of a unit without loops has none, and
every edge of it leads on.
-/

namespace FlowTyping

open Build

namespace Stmt

mutual

/-- There is no loop in a statement. -/
def loopFree : Stmt → Bool
  | .whileLoop .. | .doWhile .. | .forLoop .. => false
  | .ifElse _ thenBody elseBody => allLoopFree thenBody && optionLoopFree elseBody
  | .tryCatch body handlers finalBody =>
      allLoopFree body && (clausesLoopFree handlers && optionLoopFree finalBody)
  | _ => true

def allLoopFree : List Stmt → Bool
  | [] => true
  | s :: rest => s.loopFree && allLoopFree rest

def optionLoopFree : Option (List Stmt) → Bool
  | none => true
  | some body => allLoopFree body

def clausesLoopFree : List Handler → Bool
  | [] => true
  | .clause _ _ body :: rest => allLoopFree body && clausesLoopFree rest

end

end Stmt

def ProgramUnit.loopFree (u : ProgramUnit) : Bool := Stmt.allLoopFree u.body

/-- The exits are those of the head of a loop. -/
def Exits.IsHead (exits : Exits) : Prop := ∃ successor, exits = .special .loopHead successor

theorem Exits.isHead_link {exits : Exits} {t : BlockId} (h : (exits.link t).IsHead) :
    exits.IsHead := by
  obtain ⟨successor, h⟩ := h
  unfold link at h
  split at h
  · cases h
  · cases h
  · cases h
    exact ⟨none, rfl⟩
  · exact ⟨successor, h⟩

theorem Exits.isHead_finish {exits : Exits} {t : BlockId} (h : (exits.finish t).IsHead) :
    exits.IsHead := by
  obtain ⟨successor, h⟩ := h
  unfold finish at h
  split at h
  · cases h
  · cases h
  · exact ⟨successor, h⟩

theorem Exits.isHead_of_toKind {exits : Exits} {rename : BlockId → BlockId} {exit : BlockId}
    {successor : Option BlockId}
    (h : exits.toKind rename exit = .special .loopHead successor) : exits.IsHead := by
  unfold toKind at h
  split at h
  · cases h
  · cases h
  · cases h
  · cases h
  · cases h
    exact ⟨_, rfl⟩

/-- No block of a construction is the head of a loop. -/
def Building.Headless (b : Building) : Prop :=
  ∀ (i : Nat) (d : Draft), b.drafts[i]? = some d → ¬ d.exits.IsHead

/-- What is constructed opens no head of a loop. -/
structure Headless {α : Type} (m : Build α) : Prop where
  run : ∀ {b b' : Building} {a : α}, b.Headless → m.run b = .ok (a, b') → b'.Headless

namespace Building.Headless

variable {b b' : Building}

theorem push (h : b.Headless) {exits : Exits} (hexits : ¬ exits.IsHead)
    (hdrafts : b'.drafts = b.drafts.push ⟨[], exits⟩) : b'.Headless := by
  intro i d hd
  rw [hdrafts, Array.getElem?_push] at hd
  split at hd
  · cases hd
    exact hexits
  · exact h i d hd

theorem modify (h : b.Headless) {i : BlockId} {f : Draft → Draft}
    (hf : ∀ d, (f d).exits.IsHead → d.exits.IsHead) (hdrafts : b'.drafts = b.drafts.modify i f) :
    b'.Headless := by
  intro j d hd
  rw [hdrafts, Array.getElem?_modify] at hd
  split at hd
  · obtain ⟨d₀, hd₀, rfl⟩ := Option.map_eq_some_iff.mp hd
    exact fun hhead => h j d₀ hd₀ (hf d₀ hhead)
  · exact h j d hd

theorem congr (h : b.Headless) (hdrafts : b'.drafts = b.drafts) : b'.Headless := by
  intro i d hd
  exact h i d (hdrafts ▸ hd)

end Building.Headless

namespace Headless

variable {α β : Type} {m : Build α} {f : α → Build β}

theorem nothing {a : α} : Headless (pure a) where
  run hb hrun := by
    obtain ⟨-, rfl⟩ := run_pure.mp hrun
    exact hb

/-- A construction after another one, as it can come out. -/
theorem bind (hm : Headless m)
    (hf : ∀ {b b' : Building} {a : α}, m.run b = .ok (a, b') → Headless (f a)) :
    Headless (m >>= f) where
  run hb hrun := by
    obtain ⟨a, b₁, h₁, h₂⟩ := run_bind.mp hrun
    exact (hf h₁).run (hm.run hb h₁) h₂

theorem andThen (hm : Headless m) (hf : ∀ a, Headless (f a)) : Headless (m >>= f) :=
  hm.bind fun _ => hf _

theorem dropped (hm : Headless m) : Headless (discard m) where
  run hb hrun := by
    obtain ⟨a, hrun⟩ := run_discard.mp hrun
    exact hm.run hb hrun

theorem getState : Headless (get : Build Building) where
  run hb hrun := by
    obtain ⟨-, rfl⟩ := run_get.mp hrun
    exact hb

theorem update {change : Building → Building} (h : ∀ b, (change b).drafts = b.drafts) :
    Headless (modify change : Build Unit) where
  run hb hrun := by
    obtain rfl := run_modify.mp hrun
    exact hb.congr (h _)

theorem newDraft {exits : Exits} (hexits : ¬ exits.IsHead) : Headless (newDraft exits) where
  run hb hrun := by
    rw [run_newDraft] at hrun
    cases hrun
    exact hb.push hexits rfl

theorem newBlock : Headless newBlock := newDraft (by rintro ⟨_, ⟨⟩⟩)

theorem setCurrent (block : Option BlockId) : Headless (setCurrent block) := update fun _ => rfl

theorem link (source target : BlockId) : Headless (link source target) where
  run hb hrun := by
    rw [run_link] at hrun
    cases hrun
    exact hb.modify (i := source) (f := fun d => { d with exits := d.exits.link target })
      (fun _ => Exits.isHead_link) rfl

theorem closeWith (target : BlockId) : Headless (closeWith target) := by
  unfold Build.closeWith
  refine getState.andThen fun b => ?_
  split
  · exact (link _ _).andThen fun _ => setCurrent _
  · exact setCurrent _

theorem draft (block : BlockId) : Headless (draft block) :=
  getState.andThen fun _ => nothing

theorem nextBlock : Headless nextBlock := by
  unfold Build.nextBlock
  refine getState.andThen fun b => newBlock.andThen fun block => ?_
  dsimp only
  split
  · exact (link _ _).andThen fun _ => nothing
  · exact nothing

theorem openBlock : Headless openBlock := by
  have hnext : Headless (do
      let block ← Build.nextBlock
      Build.setCurrent block
      return block) := nextBlock.andThen fun _ => (setCurrent _).andThen fun _ => nothing
  refine getState.andThen fun b => ?_
  split
  · refine (draft _).andThen fun d => ?_
    split
    · exact nothing
    · exact hnext
  · exact hnext

theorem branch (condition : NodeId) (thenTarget elseTarget : BlockId) :
    Headless (branch condition thenTarget elseTarget) :=
  getState.andThen fun _ => (newDraft (by rintro ⟨_, ⟨⟩⟩)).andThen fun _ =>
    (link _ _).andThen fun _ => setCurrent _

theorem emit (kind : NodeKind) : Headless (emit kind) :=
  openBlock.andThen fun block => ⟨fun {b} _ _ hb hrun => by
    rw [run_pushNode] at hrun
    cases hrun
    exact hb.modify (i := block) (f := fun d => { d with nodes := d.nodes ++ [b.nodes.size] })
      (fun _ => id) rfl⟩

theorem lookup (name : String) : Headless (lookup name) :=
  getState.andThen fun _ => nothing

theorem declare (var : LocalVar) : Headless (declare var) where
  run hb hrun := by
    rw [run_declare] at hrun
    cases hrun
    exact hb.congr rfl

theorem inScope {body : Build Unit} (h : Headless body) : Headless (inScope body) := by
  refine (update ?_).andThen fun _ => h.andThen fun _ => update ?_
  · exact fun _ => rfl
  · exact fun _ => rfl

theorem lift (m : Except GraphError Unit) : Headless (liftM m : Build Unit) where
  run hb hrun := run_lift hrun ▸ hb

theorem forM_copies {crossed : List Crossing} (hcopies : ∀ c ∈ crossed, Headless c.copy) :
    Headless (crossed.forM Crossing.copy) := by
  induction crossed with
  | nil => exact nothing
  | cons crossing rest ih =>
      obtain ⟨hcopy, hrest⟩ := List.forall_mem_cons.mp hcopies
      rw [List.forM]
      exact hcopy.andThen fun _ => ih hrest

theorem leaveThrough {crossed : List Crossing} (hcopies : ∀ c ∈ crossed, Headless c.copy)
    (target : BlockId) : Headless (leaveThrough crossed target) := by
  unfold Build.leaveThrough
  split
  · exact nothing
  · refine getState.andThen fun b => ?_
    split
    · exact nothing
    · refine getState.andThen fun saved => newBlock.andThen fun first =>
        (setCurrent _).andThen fun _ => (forM_copies hcopies).andThen fun _ =>
        (closeWith _).andThen fun _ => (setCurrent _).andThen fun _ =>
        (update ?_).andThen fun _ => nothing
      exact fun _ => rfl

end Headless

/-- The copies of the final bodies among some frames open no head of a loop. -/
def Frame.AreHeadless (frames : List Frame) : Prop :=
  ∀ c ∈ Frame.crossings frames, Headless c.copy

section

variable {frames : List Frame}

namespace Headless

theorem exceptionTargets (hframes : Frame.AreHeadless frames) (categories : List String)
    (routed : List (String × BlockId)) :
    Headless (exceptionTargets frames categories routed) := by
  induction categories generalizing routed with
  | nil => exact nothing
  | cons category rest ih =>
      refine ⟨fun hb hrun => ?_⟩
      rcases run_exceptionTargets_cons hrun with ⟨-, hrest⟩ | ⟨-, first, b₁, h₁, h₂⟩
      · exact (ih routed).run hb hrest
      · rw [exceptionTarget_eq] at h₁
        have hcopies : ∀ c ∈ (Frame.route frames category).1, Headless c.copy :=
          fun c hc => hframes c (Frame.mem_crossings_of_route hc)
        exact (ih _).run ((leaveThrough hcopies _).run hb h₁) h₂

theorem emitRaising (hframes : Frame.AreHeadless frames) (kind : NodeKind)
    (categories : List String) (terminal : Bool) :
    Headless (emitRaising frames kind categories terminal) where
  run hb hrun := by
    obtain ⟨handlers, b₁, t, b₂, h₁, hblock, -, rfl⟩ := run_emitRaising hrun
    have hb₁ := (exceptionTargets hframes categories []).run hb h₁
    have hb₂ : b₂.Headless := by
      rcases hblock with ⟨rfl, -⟩ | ⟨hnext, -⟩
      · exact hb₁
      · exact nextBlock.run hb₁ hnext
    refine hb₂.modify (i := t)
      (f := fun d => ⟨d.nodes ++ [b₂.nodes.size], .raise none handlers terminal⟩) ?_ rfl
    rintro _ ⟨_, ⟨⟩⟩

/-- A way out through final bodies. -/
theorem leave {crossed : List Crossing} (hcopies : ∀ c ∈ crossed, Headless c.copy)
    (target : BlockId) : Headless (do Build.closeWith (← Build.leaveThrough crossed target)) :=
  (leaveThrough hcopies target).andThen fun _ => closeWith _

theorem jump (hframes : Frame.AreHeadless frames) (label : Option String) (leaves : Bool) :
    Headless (jump frames label leaves) where
  run hb hrun := by
    obtain ⟨crossed, target, hway, hrun⟩ := run_jump hrun
    have hcopies : ∀ c ∈ crossed, Headless c.copy :=
      fun c hc => hframes c (Frame.mem_crossings_of_way hway hc)
    exact (leave hcopies target).run hb hrun

end Headless

/-! Expressions open no head, wherever they are. -/

/-- Neither way to lower an expression opens a head of a loop. -/
structure Lowered.IsHeadless (l : Lowered) : Prop where
  value : Headless l.value
  test : ∀ t e, Headless (l.test t e)

namespace Lowered.IsHeadless

theorem ofValue {v : Build NodeId} (hv : Headless v) : (Lowered.ofValue v).IsHeadless where
  value := hv
  test _ _ := hv.andThen fun _ => .branch _ _ _

theorem negation {l : Lowered} (h : l.IsHeadless) : l.negation.IsHeadless where
  value := h.value.andThen fun _ => .emit _
  test t e := h.test e t

theorem shortCircuit {op : BinOp} {l r : Lowered} (hl : l.IsHeadless) (hr : r.IsHeadless) :
    (Lowered.shortCircuit op l r).IsHeadless where
  value := by
    refine hl.value.andThen fun left => Headless.newBlock.andThen fun rhsBlock =>
      Headless.newBlock.andThen fun mergeBlock => ?_
    have hrest : Headless (do
        setCurrent (some rhsBlock)
        let right ← r.value
        closeWith mergeBlock
        setCurrent (some mergeBlock)
        emit (.shortCircuit op left right)) :=
      (Headless.setCurrent _).andThen fun _ => hr.value.andThen fun _ =>
        (Headless.closeWith _).andThen fun _ =>
        (Headless.setCurrent _).andThen fun _ => .emit _
    dsimp only
    split
    · exact (Headless.branch _ _ _).andThen fun _ => hrest
    · exact (Headless.branch _ _ _).andThen fun _ => hrest
  test t e := by
    refine Headless.newBlock.andThen fun rhsBlock => ?_
    have hrest := (Headless.setCurrent (some rhsBlock)).andThen fun _ => hr.test t e
    dsimp only
    split
    · exact (hl.test _ _).andThen fun _ => hrest
    · exact (hl.test _ _).andThen fun _ => hrest

theorem ternary {c l r : Lowered} (hc : c.IsHeadless) (hl : l.IsHeadless) (hr : r.IsHeadless) :
    (Lowered.ternary c l r).IsHeadless where
  value :=
    Headless.newBlock.andThen fun _ => Headless.newBlock.andThen fun _ =>
      Headless.newBlock.andThen fun _ => (hc.test _ _).andThen fun _ =>
      (Headless.setCurrent _).andThen fun _ => hl.value.andThen fun _ =>
      (Headless.closeWith _).andThen fun _ =>
      (Headless.setCurrent _).andThen fun _ => hr.value.andThen fun _ =>
      (Headless.closeWith _).andThen fun _ =>
      (Headless.setCurrent _).andThen fun _ => .emit _
  test _ _ :=
    Headless.newBlock.andThen fun _ => Headless.newBlock.andThen fun _ =>
      (hc.test _ _).andThen fun _ => (Headless.setCurrent _).andThen fun _ =>
      (hl.test _ _).andThen fun _ => (Headless.setCurrent _).andThen fun _ =>
      hr.test _ _

end Lowered.IsHeadless

mutual

theorem lowerExpr_headless (hframes : Frame.AreHeadless frames) :
    (e : Expr) → (lowerExpr frames e).IsHeadless
  | .literal _ => .ofValue (.emit _)
  | .var name => .ofValue ((Headless.lookup name).andThen fun _ => .emit _)
  | .this => .ofValue (.emit _)
  | .field receiver _ =>
      .ofValue ((lowerExpr_headless hframes receiver).value.andThen fun _ => .emit _)
  | .call receiver _ args _ =>
      .ofValue ((lowerReceiver_headless hframes receiver).andThen fun _ =>
        (lowerArgs_headless hframes args).andThen fun _ => .emitRaising hframes _ _ _)
  | .new _ args =>
      .ofValue ((lowerArgs_headless hframes args).andThen fun _ => .emitRaising hframes _ _ _)
  | .binary op lhs rhs => by
      have hlhs := lowerExpr_headless hframes lhs
      have hrhs := lowerExpr_headless hframes rhs
      rw [lowerExpr]
      split
      · exact .shortCircuit hlhs hrhs
      · exact .ofValue (hlhs.value.andThen fun _ => hrhs.value.andThen fun _ => .emit _)
  | .unary op operand => by
      have hoperand := lowerExpr_headless hframes operand
      rw [lowerExpr]
      split
      · exact .negation hoperand
      · exact .ofValue (hoperand.value.andThen fun _ => .emit _)
  | .ternary condition thenValue elseValue =>
      .ternary (lowerExpr_headless hframes condition) (lowerExpr_headless hframes thenValue)
        (lowerExpr_headless hframes elseValue)
  | .cast _ operand =>
      .ofValue ((lowerExpr_headless hframes operand).value.andThen fun _ => .emit _)

theorem lowerReceiver_headless (hframes : Frame.AreHeadless frames) :
    (e : Option Expr) → Headless (lowerReceiver frames e)
  | none => .nothing
  | some e => (lowerExpr_headless hframes e).value.andThen fun _ => .nothing

theorem lowerArgs_headless (hframes : Frame.AreHeadless frames) :
    (es : List Expr) → Headless (lowerArgs frames es)
  | [] => .nothing
  | e :: rest =>
      (lowerExpr_headless hframes e).value.andThen fun _ =>
        (lowerArgs_headless hframes rest).andThen fun _ => .nothing

end

theorem lowerDecl_headless (hframes : Frame.AreHeadless frames) (name : String)
    (qualifier : Option String) (init : Option Expr) :
    Headless (lowerDecl frames name qualifier init) := by
  refine (lowerReceiver_headless hframes init).andThen fun value =>
    (Headless.declare _).andThen fun _ => (Headless.emit _).dropped.andThen fun _ => ?_
  cases value with
  | none => exact .nothing
  | some value => exact (Headless.emit _).dropped

theorem lowerAssign_headless (hframes : Frame.AreHeadless frames) (target : Target) (value : Expr) :
    Headless (lowerAssign frames target value) := by
  cases target with
  | «local» name =>
      exact (lowerExpr_headless hframes value).value.andThen fun _ =>
        (Headless.lookup name).andThen fun _ => (Headless.emit _).dropped
  | field receiver name =>
      exact (lowerExpr_headless hframes receiver).value.andThen fun _ =>
        (lowerExpr_headless hframes value).value.andThen fun _ => (Headless.emit _).dropped

theorem lowerAssert_headless (hframes : Frame.AreHeadless frames) (condition : Expr) :
    Headless (lowerAssert frames condition) :=
  Headless.newBlock.andThen fun _ => Headless.newBlock.andThen fun _ =>
    ((lowerExpr_headless hframes condition).test _ _).andThen fun _ =>
    (Headless.setCurrent _).andThen fun _ =>
    (Headless.emitRaising hframes _ _ _).dropped.andThen fun _ => .setCurrent _

theorem lowerReturn_headless (hframes : Frame.AreHeadless frames) (value : Option Expr) :
    Headless (lowerStmt frames (.returnValue value)) := by
  rw [lowerStmt]
  exact (lowerReceiver_headless hframes value).andThen fun _ =>
    (Headless.emit _).dropped.andThen fun _ => .leave hframes _

theorem lowerThrow_headless (hframes : Frame.AreHeadless frames) (exception : String)
    (value : Option Expr) : Headless (lowerStmt frames (.throw exception value)) := by
  rw [lowerStmt]
  exact (lowerReceiver_headless hframes value).andThen fun _ =>
    (Headless.emitRaising hframes _ _ _).dropped

theorem lowerIf_headless (hframes : Frame.AreHeadless frames) (condition : Expr)
    {thenBody : List Stmt} {elseBody : Option (List Stmt)}
    (hthen : Headless (lowerStmts frames thenBody)) (helse : Headless (lowerElse frames elseBody)) :
    Headless (lowerStmt frames (.ifElse condition thenBody elseBody)) := by
  rw [lowerStmt]
  exact Headless.newBlock.andThen fun _ => Headless.newBlock.andThen fun _ =>
    Headless.newBlock.andThen fun _ =>
    ((lowerExpr_headless hframes condition).test _ _).andThen fun _ =>
    (Headless.setCurrent _).andThen fun _ => hthen.inScope.andThen fun _ =>
    (Headless.closeWith _).andThen fun _ => (Headless.setCurrent _).andThen fun _ =>
    helse.andThen fun _ => (Headless.closeWith _).andThen fun _ => .setCurrent _

/-- Bodies, wherever they are built. -/
def BodyHeadless (body : List Stmt) : Prop :=
  ∀ {frames : List Frame}, Frame.AreHeadless frames → Headless (lowerStmts frames body)

theorem lowerClause_headless (hframes : Frame.AreHeadless frames) (binding : Option String)
    {body : List Stmt} (hbody : BodyHeadless body) :
    Headless (lowerClause frames binding body) := by
  cases binding with
  | none => exact hbody hframes
  | some name =>
      exact (Headless.declare _).andThen fun _ => (Headless.emit _).dropped.andThen fun _ =>
        hbody hframes

theorem lowerHandlers_headless (hframes : Frame.AreHeadless frames) {leave : Build Unit}
    (hleave : Headless leave) {handlers : List Handler} (blocks : List BlockId)
    (hbodies : ∀ h ∈ handlers, BodyHeadless h.body) :
    Headless (lowerHandlers frames leave handlers blocks) := by
  induction handlers generalizing blocks with
  | nil =>
      rw [lowerHandlers]
      · exact .nothing
      · simp
  | cons handler rest ih =>
      cases blocks with
      | nil =>
          rw [lowerHandlers]
          · exact .nothing
          · simp
      | cons block blocks =>
          obtain ⟨exception, binding, body⟩ := handler
          obtain ⟨hbody, hrest⟩ := List.forall_mem_cons.mp hbodies
          rw [lowerHandlers_eq]
          exact (Headless.setCurrent _).andThen fun _ =>
            (lowerClause_headless hframes binding hbody).inScope.andThen fun _ =>
            hleave.andThen fun _ => ih blocks hrest

theorem clauseBlocks_headless (handlers : List Handler) :
    Headless (handlers.mapM fun h : Handler => do
      let block ← newBlock
      return (h.exception, block)) := by
  induction handlers with
  | nil => exact .nothing
  | cons handler rest ih =>
      simp only [List.mapM_cons]
      exact (Headless.newBlock.andThen fun _ => .nothing).andThen fun _ =>
        ih.andThen fun _ => .nothing

theorem registerFinal_headless (frames : List Frame) (finalBody : Option (List Stmt)) :
    Headless (registerFinal frames finalBody) := by
  cases finalBody with
  | none => exact .nothing
  | some body =>
      refine Headless.getState.andThen fun _ => (Headless.update ?_).andThen fun _ => .nothing
      exact fun _ => rfl

theorem registerFinal_copies (hframes : Frame.AreHeadless frames) {finalBody : Option (List Stmt)}
    (hfinal : ∀ body ∈ finalBody, BodyHeadless body) {b b' : Building} {crossed : List Crossing}
    (hrun : (registerFinal frames finalBody).run b = .ok (crossed, b')) :
    ∀ c ∈ crossed, Headless c.copy := by
  cases finalBody with
  | none =>
      obtain ⟨rfl, -⟩ := run_pure.mp hrun
      exact nofun
  | some body =>
      simp only [registerFinal, lowerFinal, run_bind, run_get, run_modify, run_pure] at hrun
      obtain ⟨_, _, ⟨rfl, rfl⟩, _, _, rfl, rfl, rfl⟩ := hrun
      exact List.forall_mem_singleton.mpr (hfinal body rfl hframes).inScope

theorem lowerTry_headless (hframes : Frame.AreHeadless frames) {body : List Stmt}
    {handlers : List Handler} {finalBody : Option (List Stmt)} (hbody : BodyHeadless body)
    (hclauses : ∀ h ∈ handlers, BodyHeadless h.body)
    (hfinal : ∀ body ∈ finalBody, BodyHeadless body) :
    Headless (lowerStmt frames (.tryCatch body handlers finalBody)) := by
  rw [lowerTry_eq]
  refine (Headless.lift _).andThen fun _ => Headless.newBlock.andThen fun after =>
    (clauseBlocks_headless handlers).andThen fun targets =>
    (registerFinal_headless frames finalBody).bind fun {_ _ crossed} hregister => ?_
  have hcopies := registerFinal_copies hframes hfinal hregister
  have hinner :
      Frame.AreHeadless (crossed.map (fun c => Frame.finalBody c.id c.copy) ++ frames) := by
    rw [Frame.AreHeadless, Frame.crossings_finals]
    exact List.forall_mem_append.mpr ⟨hcopies, hframes⟩
  have hleave := Headless.leave hcopies after
  have hprotected : Frame.AreHeadless (.handlers targets ::
      (crossed.map (fun c => Frame.finalBody c.id c.copy) ++ frames)) := hinner
  have hrest := (hbody hprotected).inScope.andThen fun _ =>
    hleave.andThen fun _ =>
    (lowerHandlers_headless hinner hleave (targets.map Prod.snd) hclauses).andThen fun _ =>
    Headless.setCurrent (some after)
  simp only [bind_assoc] at hrest
  exact hrest

end

mutual

/-- A statement without loops opens no head. -/
theorem lowerStmt_headless : (s : Stmt) → s.loopFree = true → ∀ {frames : List Frame},
    Frame.AreHeadless frames → Headless (lowerStmt frames s)
  | .localDecl name qualifier init, _, _, hframes => by
      rw [lowerStmt]
      exact lowerDecl_headless hframes name qualifier init
  | .assign target value, _, _, hframes => by
      rw [lowerStmt]
      exact lowerAssign_headless hframes target value
  | .expr value, _, _, hframes => by
      rw [lowerStmt]
      exact (lowerExpr_headless hframes value).value.dropped
  | .ifElse condition thenBody elseBody, h, _, hframes => by
      obtain ⟨hthen, helse⟩ := Bool.and_eq_true_iff.mp h
      exact lowerIf_headless hframes condition (lowerStmts_headless thenBody hthen hframes)
        (lowerElse_headless elseBody helse hframes)
  | .whileLoop .., h, _, _ => by cases h
  | .doWhile .., h, _, _ => by cases h
  | .forLoop .., h, _, _ => by cases h
  | .breakLoop label, _, _, hframes => by
      rw [lowerStmt]
      exact .jump hframes label true
  | .continueLoop label, _, _, hframes => by
      rw [lowerStmt]
      exact .jump hframes label false
  | .returnValue value, _, _, hframes => lowerReturn_headless hframes value
  | .throw exception value, _, _, hframes => lowerThrow_headless hframes exception value
  | .tryCatch body handlers finalBody, h, _, hframes => by
      obtain ⟨hbody, h⟩ := Bool.and_eq_true_iff.mp h
      obtain ⟨hclauses, hfinal⟩ := Bool.and_eq_true_iff.mp h
      exact lowerTry_headless hframes (lowerStmts_headless body hbody)
        (clauses_headless handlers hclauses) (finalBody_headless finalBody hfinal)
  | .assert condition, _, _, hframes => by
      rw [lowerStmt]
      exact lowerAssert_headless hframes condition

theorem lowerStmts_headless : (stmts : List Stmt) → Stmt.allLoopFree stmts = true →
    BodyHeadless stmts
  | [], _, _, _ => by
      rw [lowerStmts]
      exact .nothing
  | s :: rest, h, _, hframes => by
      obtain ⟨hs, hrest⟩ := Bool.and_eq_true_iff.mp h
      rw [lowerStmts]
      exact (lowerStmt_headless s hs hframes).andThen fun _ =>
        lowerStmts_headless rest hrest hframes

theorem lowerElse_headless : (stmts : Option (List Stmt)) → Stmt.optionLoopFree stmts = true →
    ∀ {frames : List Frame}, Frame.AreHeadless frames → Headless (lowerElse frames stmts)
  | none, _, _, _ => by
      rw [lowerElse]
      exact .nothing
  | some body, h, _, hframes => by
      rw [lowerElse]
      exact (lowerStmts_headless body h hframes).inScope

theorem finalBody_headless : (stmts : Option (List Stmt)) → Stmt.optionLoopFree stmts = true →
    ∀ body ∈ stmts, BodyHeadless body
  | none, _, _, h => nomatch h
  | some body, hfree, _, h => Option.some.inj h ▸ lowerStmts_headless body hfree

theorem clauses_headless : (handlers : List Handler) → Stmt.clausesLoopFree handlers = true →
    ∀ h ∈ handlers, BodyHeadless h.body
  | [], _, _, h => nomatch h
  | .clause _ _ body :: rest, hfree, handler, h => by
      obtain ⟨hbody, hrest⟩ := Bool.and_eq_true_iff.mp hfree
      rcases List.mem_cons.mp h with rfl | h
      · exact lowerStmts_headless body hbody
      · exact clauses_headless rest hrest handler h

end

/-- No block that the entry leads to is on a cycle. -/
def FlowGraph.Acyclic (g : FlowGraph) : Prop :=
  ∀ b, g.Reaches b → ¬ Relation.TransGen (Digraph.Edge g.successors) b b

namespace ProgramUnit

variable {u : ProgramUnit} {g : FlowGraph} {id : BlockId}

theorem start_headless (u : ProgramUnit) : (Build.start u.params).Headless := by
  intro i d hd
  have hmem := Array.mem_of_getElem? hd
  simp only [Build.start, List.mem_toArray, List.mem_cons, List.not_mem_nil, or_false] at hmem
  rcases hmem with rfl | rfl | rfl
  · rintro ⟨_, ⟨⟩⟩
  · rintro ⟨_, ⟨⟩⟩
  · rintro ⟨_, ⟨⟩⟩

theorem build_headless (hu : u.loopFree = true) : Headless u.build :=
  Headless.newBlock.andThen fun first => (Headless.link entryId first).andThen fun _ =>
    (Headless.setCurrent _).andThen fun _ =>
    (lowerStmts_headless u.body hu fun _ h => absurd h List.not_mem_nil).inScope.andThen fun _ =>
    .closeWith _

/-- The graph of a unit without loops has no heads. -/
theorem not_isLoopHead (hu : u.loopFree = true) (h : u.lower = .ok g) : ¬ g.IsLoopHead id := by
  rintro ⟨block, successor, hblock, hkind⟩
  obtain ⟨b, hrun, hfinish⟩ := u.run_of_lower h
  have hb := (build_headless hu).run u.start_headless hrun
  rw [FlowGraph.block?, Layout.finish_parts hfinish] at hblock
  obtain ⟨a, d, hd, -, -, rfl⟩ := Layout.mem_parts_blocks hblock
  obtain ⟨d₀, hd₀, rfl⟩ := Building.exists_of_layout hd
  exact hb a d₀ hd₀ (Exits.isHead_finish (Exits.isHead_of_toKind hkind))

/-- The edges of a graph without heads of loops lead on, so they close no cycle. -/
theorem lower_acyclic (hu : u.loopFree = true) (h : u.lower = .ok g) : g.Acyclic := by
  have hg := u.lower_valid h
  obtain ⟨built, hrun, hfinish⟩ := u.run_of_lower h
  obtain ⟨hw, G, hD⟩ := u.build_marked hrun
  have hn := hD.nested hw hg (Layout.finish_parts hfinish)
  intro b _ hcycle
  have hless {x y : BlockId} (hpath : Relation.TransGen (Digraph.Edge g.successors) x y) :
      built.layout.placeOf G x < built.layout.placeOf G y := by
    induction hpath with
    | single hedge =>
        exact (hn.onward _ _ hedge).resolve_right fun hback => not_isLoopHead hu h hback.1
    | tail _ hedge ih =>
        exact ih.trans
          ((hn.onward _ _ hedge).resolve_right fun hback => not_isLoopHead hu h hback.1)
  exact lt_irrefl _ (hless hcycle)

end ProgramUnit

end FlowTyping
