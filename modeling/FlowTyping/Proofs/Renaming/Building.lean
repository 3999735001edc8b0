import Mathlib.Data.List.Forall2
import FlowTyping.Proofs.Lowering.Effects

/-!
Renaming the local variables of a unit. The constructions of a unit and of its renaming
run side by side: they fail alike, and their states differ in the names of variables only.
-/

namespace FlowTyping

mutual

/-- The expression with the local variables renamed. -/
def Expr.rename (ρ : String → String) : Expr → Expr
  | .literal value => .literal value
  | .var name => .var (ρ name)
  | .this => .this
  | .field receiver name => .field (receiver.rename ρ) name
  | .call receiver method args throws =>
      .call (Expr.renameOption ρ receiver) method (Expr.renameList ρ args) throws
  | .new className args => .new className (Expr.renameList ρ args)
  | .binary op lhs rhs => .binary op (lhs.rename ρ) (rhs.rename ρ)
  | .unary op operand => .unary op (operand.rename ρ)
  | .ternary condition thenValue elseValue =>
      .ternary (condition.rename ρ) (thenValue.rename ρ) (elseValue.rename ρ)
  | .cast qualifier operand => .cast qualifier (operand.rename ρ)

def Expr.renameOption (ρ : String → String) : Option Expr → Option Expr
  | none => none
  | some e => some (e.rename ρ)

def Expr.renameList (ρ : String → String) : List Expr → List Expr
  | [] => []
  | e :: rest => e.rename ρ :: Expr.renameList ρ rest

end

def Target.rename (ρ : String → String) : Target → Target
  | .local name => .local (ρ name)
  | .field receiver name => .field (receiver.rename ρ) name

mutual

/-- The statement with the local variables renamed, those that it declares included. -/
def Stmt.rename (ρ : String → String) : Stmt → Stmt
  | .localDecl name qualifier init => .localDecl (ρ name) qualifier (Expr.renameOption ρ init)
  | .assign target value => .assign (target.rename ρ) (value.rename ρ)
  | .expr value => .expr (value.rename ρ)
  | .ifElse condition thenBody elseBody =>
      .ifElse (condition.rename ρ) (Stmt.renameList ρ thenBody) (Stmt.renameOption ρ elseBody)
  | .whileLoop label condition body =>
      .whileLoop label (condition.rename ρ) (Stmt.renameList ρ body)
  | .doWhile label body condition =>
      .doWhile label (Stmt.renameList ρ body) (condition.rename ρ)
  | .forLoop label init condition update body =>
      .forLoop label (Stmt.renameList ρ init) (Expr.renameOption ρ condition)
        (Stmt.renameList ρ update) (Stmt.renameList ρ body)
  | .breakLoop label => .breakLoop label
  | .continueLoop label => .continueLoop label
  | .returnValue value => .returnValue (Expr.renameOption ρ value)
  | .throw exception value => .throw exception (Expr.renameOption ρ value)
  | .tryCatch body handlers finalBody =>
      .tryCatch (Stmt.renameList ρ body) (Handler.renameList ρ handlers)
        (Stmt.renameOption ρ finalBody)
  | .assert condition => .assert (condition.rename ρ)

def Stmt.renameList (ρ : String → String) : List Stmt → List Stmt
  | [] => []
  | s :: rest => s.rename ρ :: Stmt.renameList ρ rest

def Stmt.renameOption (ρ : String → String) : Option (List Stmt) → Option (List Stmt)
  | none => none
  | some body => some (Stmt.renameList ρ body)

def Handler.renameList (ρ : String → String) : List Handler → List Handler
  | [] => []
  | .clause exception binding body :: rest =>
      .clause exception (binding.map ρ) (Stmt.renameList ρ body) :: Handler.renameList ρ rest

end

/-- The unit with its parameters and local variables renamed. -/
def ProgramUnit.rename (ρ : String → String) (u : ProgramUnit) : ProgramUnit where
  name := u.name
  params := u.params.map fun p => { p with name := ρ p.name }
  returnQualifier := u.returnQualifier
  body := Stmt.renameList ρ u.body

def LocalVar.rename (ρ : String → String) (var : LocalVar) : LocalVar :=
  { var with name := ρ var.name }

def NodeKind.rename (ρ : String → String) : NodeKind → NodeKind
  | .localRead var => .localRead (var.rename ρ)
  | .localDecl var => .localDecl (var.rename ρ)
  | .assign (.local var) value => .assign (.local (var.rename ρ)) value
  | kind => kind

def Node.rename (ρ : String → String) (n : Node) : Node := { n with kind := n.kind.rename ρ }

def FlowGraph.rename (ρ : String → String) (g : FlowGraph) : FlowGraph :=
  { g with nodes := g.nodes.map (Node.rename ρ) }

def Building.rename (ρ : String → String) (b : Building) : Building :=
  { b with
    nodes := b.nodes.map (Node.rename ρ)
    scopes := b.scopes.map fun scope => scope.map (LocalVar.rename ρ) }

@[simp]
theorem NodeKind.rename_operands (ρ : String → String) (kind : NodeKind) :
    (kind.rename ρ).operands = kind.operands := by
  cases kind with
  | assign target value => cases target <;> rfl
  | _ => rfl

/-- Two constructions run side by side. A value that the first one gives corresponds to one
that the second one gives. -/
def Mirrors (ρ : String → String) {α β : Type} (f : α → β) (m : Build α) (m' : Build β) : Prop :=
  ∀ b : Building, m'.run (b.rename ρ) = (m.run b).map fun r => (f r.1, r.2.rename ρ)

namespace Mirrors

variable {ρ : String → String} {α β γ δ : Type} {f : α → β} {h : γ → δ}

theorem bind {m : Build α} {m' : Build β} {k : α → Build γ} {k' : β → Build δ}
    (hm : Mirrors ρ f m m') (hk : ∀ a, Mirrors ρ h (k a) (k' (f a))) :
    Mirrors ρ h (m >>= k) (m' >>= k') := by
  intro b
  rw [StateT.run_bind, StateT.run_bind, hm b]
  cases hrun : m.run b with
  | error e => rfl
  | ok r => exact hk r.1 r.2

theorem of_pure (f : α → β) (a : α) : Mirrors ρ f (pure a) (pure (f a)) :=
  fun _ => rfl

theorem of_throw (f : α → β) (e : GraphError) : Mirrors ρ f (throw e) (throw e) :=
  fun _ => rfl

theorem of_get : Mirrors ρ (Building.rename ρ) get get :=
  fun _ => rfl

theorem of_modify {g g' : Building → Building} (hg : ∀ b, g' (b.rename ρ) = (g b).rename ρ) :
    Mirrors ρ id (modify g) (modify g') := by
  intro b
  change (Except.ok ((), g' (b.rename ρ)) : Except GraphError (Unit × Building)) =
    .ok ((), (g b).rename ρ)
  rw [hg]

theorem discard {m : Build α} {m' : Build β} (hm : Mirrors ρ f m m') :
    Mirrors ρ id (discard m) (discard m') := by
  show Mirrors ρ id (m >>= fun _ => pure ()) (m' >>= fun _ => pure ())
  exact hm.bind fun _ => of_pure id ()

theorem ite {c : Prop} [Decidable c] {m n : Build α} {m' n' : Build β}
    (hm : Mirrors ρ f m m') (hn : Mirrors ρ f n n') :
    Mirrors ρ f (if c then m else n) (if c then m' else n') := by
  split
  · exact hm
  · exact hn

/-- The step to a continuation from a result that does not depend on names. -/
theorem bind_same {m m' : Build α} {k : α → Build γ} {k' : α → Build δ} (hm : Mirrors ρ id m m')
    (hk : ∀ a, Mirrors ρ h (k a) (k' a)) : Mirrors ρ h (m >>= k) (m' >>= k') :=
  hm.bind hk

end Mirrors

namespace Build

variable (ρ : String → String)

theorem newDraft_mirrors (exits : Exits) : Mirrors ρ id (newDraft exits) (newDraft exits) :=
  fun _ => rfl

theorem newBlock_mirrors : Mirrors ρ id newBlock newBlock := newDraft_mirrors ρ .openEnd

theorem newLoopHead_mirrors : Mirrors ρ id newLoopHead newLoopHead := newDraft_mirrors ρ _

theorem setCurrent_mirrors (block : Option BlockId) :
    Mirrors ρ id (setCurrent block) (setCurrent block) :=
  fun _ => rfl

theorem modifyDraft_mirrors (block : BlockId) (f : Draft → Draft) :
    Mirrors ρ id (modifyDraft block f) (modifyDraft block f) :=
  fun _ => rfl

theorem link_mirrors (source target : BlockId) :
    Mirrors ρ id (link source target) (link source target) :=
  fun _ => rfl

theorem draft_mirrors (block : BlockId) : Mirrors ρ id (draft block) (draft block) :=
  fun _ => rfl

theorem closeWith_mirrors (target : BlockId) :
    Mirrors ρ id (closeWith target) (closeWith target) := by
  rintro ⟨drafts, nodes, _ | c, scopes, nextFinal, finalPaths⟩
  · rfl
  · rfl

theorem nextBlock_mirrors : Mirrors ρ id nextBlock nextBlock := by
  rintro ⟨drafts, nodes, _ | c, scopes, nextFinal, finalPaths⟩
  · rfl
  · rfl

theorem openBlock_mirrors : Mirrors ρ id openBlock openBlock := by
  have hnew : Mirrors ρ id (do
      let block ← nextBlock
      setCurrent block
      return block) (do
      let block ← nextBlock
      setCurrent block
      return block) :=
    (nextBlock_mirrors ρ).bind fun block =>
      (setCurrent_mirrors ρ (some block)).bind fun _ => .of_pure id block
  unfold openBlock
  apply Mirrors.bind Mirrors.of_get
  intro b
  cases hcur : b.current with
  | none =>
      simp only [show (b.rename ρ).current = none from hcur]
      exact hnew
  | some block =>
      simp only [show (b.rename ρ).current = some block from hcur]
      apply Mirrors.bind (draft_mirrors ρ block)
      intro d
      exact .ite (.of_pure id block) hnew

theorem pushNode_mirrors (block : BlockId) (kind : NodeKind) :
    Mirrors ρ id (pushNode block kind) (pushNode block (kind.rename ρ)) := by
  intro b
  rw [run_pushNode, run_pushNode]
  simp [Building.rename, Except.map, Node.rename]

theorem emit_mirrors (kind : NodeKind) : Mirrors ρ id (emit kind) (emit (kind.rename ρ)) :=
  (openBlock_mirrors ρ).bind fun block => pushNode_mirrors ρ block kind

theorem branch_mirrors (condition : NodeId) (thenTarget elseTarget : BlockId) :
    Mirrors ρ id (branch condition thenTarget elseTarget)
      (branch condition thenTarget elseTarget) := by
  unfold branch
  apply Mirrors.bind Mirrors.of_get
  intro b
  have hblock : ((b.rename ρ).nodes[condition]?.map Node.block).getD 0 =
      (b.nodes[condition]?.map Node.block).getD 0 := by
    simp [Building.rename, Function.comp_def, Node.rename]
  rw [hblock]
  apply Mirrors.bind (newDraft_mirrors ρ _)
  intro test
  apply Mirrors.bind (link_mirrors ρ _ _)
  intro _
  exact setCurrent_mirrors ρ none

end Build

/-- The two constructions of a copy of a final body run side by side. -/
structure MirroredCrossing (ρ : String → String) (c c' : Crossing) : Prop where
  key : c.id = c'.id
  copy : Mirrors ρ id c.copy c'.copy

inductive MirroredFrame (ρ : String → String) : Frame → Frame → Prop where
  | loop (label : Option String) (continueTarget breakTarget : BlockId) :
      MirroredFrame ρ (.loop label continueTarget breakTarget)
        (.loop label continueTarget breakTarget)
  | handlers (targets : List (String × BlockId)) :
      MirroredFrame ρ (.handlers targets) (.handlers targets)
  | finalBody (key : Nat) {copy copy' : Build Unit} : Mirrors ρ id copy copy' →
      MirroredFrame ρ (.finalBody key copy) (.finalBody key copy')

/-- Two lists of frames correspond frame by frame. -/
abbrev Frames (ρ : String → String) : List Frame → List Frame → Prop :=
  List.Forall₂ (MirroredFrame ρ)

/-- Two ways out through frames correspond. -/
abbrev Ways (ρ : String → String) {α : Type} :
    Option (List Frame × α) → Option (List Frame × α) → Prop :=
  Option.Rel fun x y => Frames ρ x.1 y.1 ∧ x.2 = y.2

theorem Ways.further {ρ : String → String} {α : Type} {frame frame' : Frame}
    {way way' : Option (List Frame × α)} (hframe : MirroredFrame ρ frame frame')
    (h : Ways ρ way way') : Ways ρ (way.map fun found => (frame :: found.1, found.2))
      (way'.map fun found => (frame' :: found.1, found.2)) := by
  cases h with
  | none => exact .none
  | some hfound => exact .some ⟨.cons hframe hfound.1, hfound.2⟩

namespace Frames

variable {ρ : String → String} {frames frames' : List Frame}

theorem crossings (h : Frames ρ frames frames') :
    List.Forall₂ (MirroredCrossing ρ) (Frame.crossings frames) (Frame.crossings frames') := by
  induction h with
  | nil => exact .nil
  | cons hframe _ ih =>
      cases hframe with
      | loop => exact ih
      | handlers => exact ih
      | finalBody key hcopy => exact .cons ⟨rfl, hcopy⟩ ih

theorem findHandler (h : Frames ρ frames frames') (category : String) :
    Ways ρ (Frame.findHandler category frames) (Frame.findHandler category frames') := by
  induction h with
  | nil => exact .none
  | cons hframe _ ih =>
      have hfurther := Ways.further hframe ih
      cases hframe with
      | loop => exact hfurther
      | finalBody => exact hfurther
      | handlers targets =>
          unfold Frame.findHandler
          dsimp only
          split
          · exact .some ⟨.nil, rfl⟩
          · exact hfurther

theorem findLoop (h : Frames ρ frames frames') (label : Option String) :
    Ways ρ (Frame.findLoop label frames) (Frame.findLoop label frames') := by
  induction h with
  | nil => exact .none
  | cons hframe _ ih =>
      have hfurther := Ways.further hframe ih
      cases hframe with
      | handlers => exact hfurther
      | finalBody => exact hfurther
      | loop name continueTarget breakTarget =>
          unfold Frame.findLoop
          dsimp only
          split
          · exact .some ⟨.nil, rfl⟩
          · exact hfurther

end Frames

namespace Build

variable {ρ : String → String} {frames frames' : List Frame} {crossed crossed' : List Crossing}

theorem forM_copy_mirrors (h : List.Forall₂ (MirroredCrossing ρ) crossed crossed') :
    Mirrors ρ id (crossed.forM Crossing.copy) (crossed'.forM Crossing.copy) := by
  induction h with
  | nil => exact .of_pure id ()
  | cons hcopy _ ih => exact hcopy.copy.bind fun _ => ih

theorem leaveThrough_mirrors (h : List.Forall₂ (MirroredCrossing ρ) crossed crossed')
    (target : BlockId) :
    Mirrors ρ id (leaveThrough crossed target) (leaveThrough crossed' target) := by
  have hids : crossed.map Crossing.id = crossed'.map Crossing.id := by
    induction h with
    | nil => rfl
    | cons hcopy _ ih => rw [List.map_cons, List.map_cons, hcopy.key, ih]
  have hempty : crossed.isEmpty = crossed'.isEmpty := by
    cases h with
    | nil => rfl
    | cons => rfl
  unfold leaveThrough
  rw [hids, hempty]
  apply Mirrors.ite (.of_pure id target)
  apply Mirrors.bind Mirrors.of_get
  intro b
  cases hpath : b.finalPaths.find? fun path =>
      path.1 = (crossed'.map Crossing.id, target) with
  | some path =>
      simp only [show (b.rename ρ).finalPaths = b.finalPaths from rfl, hpath]
      exact .of_pure id path.2
  | none =>
      simp only [show (b.rename ρ).finalPaths = b.finalPaths from rfl, hpath]
      apply Mirrors.bind Mirrors.of_get
      intro saved
      apply Mirrors.bind (newBlock_mirrors ρ)
      intro first
      apply Mirrors.bind (setCurrent_mirrors ρ _)
      intro _
      apply Mirrors.bind (forM_copy_mirrors h)
      intro _
      apply Mirrors.bind (closeWith_mirrors ρ target)
      intro _
      apply Mirrors.bind (setCurrent_mirrors ρ _)
      intro _
      refine Mirrors.bind (Mirrors.of_modify fun _ => ?_) fun _ => .of_pure id first
      rfl

theorem exceptionTarget_mirrors (h : Frames ρ frames frames') (category : String) :
    Mirrors ρ id (exceptionTarget frames category) (exceptionTarget frames' category) := by
  have hway := h.findHandler category
  unfold exceptionTarget
  generalize Frame.findHandler category frames = way at hway
  generalize Frame.findHandler category frames' = way' at hway
  cases hway with
  | none => exact leaveThrough_mirrors h.crossings _
  | some hfound =>
      dsimp only
      rw [← hfound.2]
      exact leaveThrough_mirrors hfound.1.crossings _

theorem exceptionTargets_mirrors (h : Frames ρ frames frames') (categories : List String)
    (routed : List (String × BlockId)) :
    Mirrors ρ id (exceptionTargets frames categories routed)
      (exceptionTargets frames' categories routed) := by
  induction categories generalizing routed with
  | nil => exact .of_pure id routed
  | cons category rest ih =>
      have hrest : Mirrors ρ id
          (if routed.any fun r => r.1 = category then exceptionTargets frames rest routed
            else do
              let target ← exceptionTarget frames category
              exceptionTargets frames rest (routed ++ [(category, target)]))
          (if routed.any fun r => r.1 = category then exceptionTargets frames' rest routed
            else do
              let target ← exceptionTarget frames' category
              exceptionTargets frames' rest (routed ++ [(category, target)])) := by
        apply Mirrors.ite (ih routed)
        exact (exceptionTarget_mirrors h category).bind fun target => ih _
      unfold exceptionTargets
      dsimp only
      split
      · exact (Mirrors.of_throw id _).bind fun _ => hrest
      · exact hrest

theorem emitRaising_mirrors (h : Frames ρ frames frames') (kind : NodeKind)
    (categories : List String) (terminal : Bool) :
    Mirrors ρ id (emitRaising frames kind categories terminal)
      (emitRaising frames' (kind.rename ρ) categories terminal) := by
  unfold emitRaising
  apply Mirrors.bind (exceptionTargets_mirrors h categories [])
  intro handlers
  apply Mirrors.bind Mirrors.of_get
  intro b
  have hplace (block : BlockId) : Mirrors ρ id (do
      let id ← pushNode block kind
      modifyDraft block fun d => { d with exits := .raise none handlers terminal }
      setCurrent (if terminal then none else some block)
      return id) (do
      let id ← pushNode block (kind.rename ρ)
      modifyDraft block fun d => { d with exits := .raise none handlers terminal }
      setCurrent (if terminal then none else some block)
      return id) := by
    apply Mirrors.bind (pushNode_mirrors ρ block kind)
    intro node
    apply Mirrors.bind (modifyDraft_mirrors ρ block _)
    intro _
    exact (setCurrent_mirrors ρ _).bind fun _ => .of_pure id node
  have hfresh := (nextBlock_mirrors ρ).bind_same hplace
  cases hcur : b.current with
  | none =>
      simp only [show (b.rename ρ).current = none from hcur]
      exact hfresh
  | some block =>
      simp only [show (b.rename ρ).current = some block from hcur]
      apply Mirrors.bind (draft_mirrors ρ block)
      intro d
      by_cases hreuse : (decide (d.exits = .openEnd) && d.nodes.isEmpty) = true
      · simp only [id, hreuse]
        exact hplace block
      · simp only [id, hreuse]
        exact hfresh

theorem declare_mirrors (ρ : String → String) (var : LocalVar) :
    Mirrors ρ id (declare var) (declare (var.rename ρ)) := by
  apply Mirrors.of_modify
  rintro ⟨drafts, nodes, current, _ | ⟨scope, outer⟩, nextFinal, finalPaths⟩
  · rfl
  · rfl

theorem lookup_mirrors (hρ : Function.Injective ρ) (name : String) :
    Mirrors ρ (LocalVar.rename ρ) (lookup name) (lookup (ρ name)) := by
  intro b
  have hscopes : ∀ scopes : List (List LocalVar),
      ((scopes.map fun scope => scope.map (LocalVar.rename ρ)).findSome? fun scope =>
        scope.find? fun var => var.name = ρ name) =
      (scopes.findSome? fun scope => scope.find? fun var => var.name = name).map
        (LocalVar.rename ρ) := by
    intro scopes
    induction scopes with
    | nil => rfl
    | cons scope rest ih =>
        have hscope : (scope.map (LocalVar.rename ρ)).find? (fun var => var.name = ρ name) =
            (scope.find? fun var => var.name = name).map (LocalVar.rename ρ) := by
          have hname : (fun var : LocalVar => decide (var.name = ρ name)) ∘ LocalVar.rename ρ =
              fun var => decide (var.name = name) :=
            funext fun var => by simp [LocalVar.rename, hρ.eq_iff]
          rw [List.find?_map, hname]
        rw [List.map_cons, List.findSome?_cons, List.findSome?_cons, ih, hscope]
        cases scope.find? fun var => var.name = name <;> rfl
  have hvar : ((b.rename ρ).scopes.findSome? fun scope =>
      scope.find? fun var => var.name = ρ name).getD ⟨ρ name, none, .local⟩ =
      LocalVar.rename ρ ((b.scopes.findSome? fun scope =>
        scope.find? fun var => var.name = name).getD ⟨name, none, .local⟩) := by
    rw [show (b.rename ρ).scopes = b.scopes.map fun scope => scope.map (LocalVar.rename ρ) from rfl,
      hscopes]
    cases b.scopes.findSome? fun scope => scope.find? fun var => var.name = name <;> rfl
  exact congrArg (fun var => Except.ok (var, b.rename ρ)) hvar

theorem inScope_mirrors {body body' : Build Unit} (h : Mirrors ρ id body body') :
    Mirrors ρ id (inScope body) (inScope body') := by
  refine Mirrors.bind (Mirrors.of_modify fun _ => ?_) fun _ =>
    h.bind fun _ => .of_modify fun b => ?_
  · rfl
  · simp [Building.rename]

theorem jump_mirrors (h : Frames ρ frames frames') (label : Option String) (leaves : Bool) :
    Mirrors ρ id (jump frames label leaves) (jump frames' label leaves) := by
  have hway := h.findLoop label
  unfold jump
  generalize Frame.findLoop label frames = way at hway
  generalize Frame.findLoop label frames' = way' at hway
  cases hway with
  | none =>
      cases label with
      | some label => exact .of_throw id _
      | none => exact .of_throw id _
  | @some x y hfound =>
      obtain ⟨inner, targets⟩ := x
      obtain ⟨inner', targets'⟩ := y
      obtain ⟨hinner, rfl⟩ := hfound
      apply Mirrors.bind (leaveThrough_mirrors hinner.crossings _)
      intro block
      exact closeWith_mirrors ρ block

end Build

open Build

/-- The two ways to lower an expression run side by side with those of its renaming. -/
structure Lowered.Mirrored (ρ : String → String) (l l' : Lowered) : Prop where
  value : Mirrors ρ id l.value l'.value
  test : ∀ t e, Mirrors ρ id (l.test t e) (l'.test t e)

namespace Lowered.Mirrored

variable {ρ : String → String} {l l' m m' n n' : Lowered}

theorem ofValue {value value' : Build NodeId} (h : Mirrors ρ id value value') :
    (Lowered.ofValue value).Mirrored ρ (.ofValue value') where
  value := h
  test t e := h.bind fun condition => branch_mirrors ρ condition t e

theorem shortCircuit (op : BinOp) (hl : l.Mirrored ρ l') (hm : m.Mirrored ρ m') :
    (Lowered.shortCircuit op l m).Mirrored ρ (.shortCircuit op l' m') where
  value := by
    apply hl.value.bind
    intro left
    apply (newBlock_mirrors ρ).bind
    intro rhsBlock
    apply (newBlock_mirrors ρ).bind
    intro mergeBlock
    have hrest : Mirrors ρ id (do
        setCurrent rhsBlock
        let right ← m.value
        closeWith mergeBlock
        setCurrent mergeBlock
        emit (.shortCircuit op left right)) (do
        setCurrent rhsBlock
        let right ← m'.value
        closeWith mergeBlock
        setCurrent mergeBlock
        emit (.shortCircuit op left right)) := by
      apply (setCurrent_mirrors ρ _).bind
      intro _
      apply hm.value.bind
      intro right
      apply (closeWith_mirrors ρ _).bind
      intro _
      apply (setCurrent_mirrors ρ _).bind
      intro _
      exact emit_mirrors ρ _
    dsimp only [id]
    split
    · exact (branch_mirrors ρ _ _ _).bind fun _ => hrest
    · exact (branch_mirrors ρ _ _ _).bind fun _ => hrest
  test t e := by
    apply (newBlock_mirrors ρ).bind
    intro rhsBlock
    have hrest : Mirrors ρ id (do
        setCurrent rhsBlock
        m.test t e) (do
        setCurrent rhsBlock
        m'.test t e) :=
      (setCurrent_mirrors ρ _).bind fun _ => hm.test t e
    dsimp only [id]
    split
    · exact (hl.test _ _).bind fun _ => hrest
    · exact (hl.test _ _).bind fun _ => hrest

theorem negation (h : l.Mirrored ρ l') :
    (Lowered.negation l).Mirrored ρ (.negation l') where
  value := h.value.bind fun _ => emit_mirrors ρ _
  test t e := h.test e t

theorem ternary (hc : l.Mirrored ρ l') (ht : m.Mirrored ρ m') (he : n.Mirrored ρ n') :
    (Lowered.ternary l m n).Mirrored ρ (.ternary l' m' n') where
  value := by
    apply (newBlock_mirrors ρ).bind
    intro thenBlock
    apply (newBlock_mirrors ρ).bind
    intro elseBlock
    apply (newBlock_mirrors ρ).bind
    intro mergeBlock
    apply (hc.test _ _).bind
    intro _
    apply (setCurrent_mirrors ρ _).bind
    intro _
    apply ht.value.bind
    intro left
    apply (closeWith_mirrors ρ _).bind
    intro _
    apply (setCurrent_mirrors ρ _).bind
    intro _
    apply he.value.bind
    intro right
    apply (closeWith_mirrors ρ _).bind
    intro _
    apply (setCurrent_mirrors ρ _).bind
    intro _
    exact emit_mirrors ρ _
  test t e := by
    apply (newBlock_mirrors ρ).bind
    intro thenBlock
    apply (newBlock_mirrors ρ).bind
    intro elseBlock
    apply (hc.test _ _).bind
    intro _
    apply (setCurrent_mirrors ρ _).bind
    intro _
    apply (ht.test t e).bind
    intro _
    apply (setCurrent_mirrors ρ _).bind
    intro _
    exact he.test t e

end Lowered.Mirrored

end FlowTyping
