import FlowTyping.Proofs.Control.Paths
import FlowTyping.Proofs.Values.Locals

/-!
The graph of a unit over local variables: by recursion on the syntax, every node names declared
variables only, and a negation stands right after its operand.
-/

namespace FlowTyping

open Build

/-- Whether a node names no variable, reads and writes no field, and is no negation. -/
def NodeKind.isPlain : NodeKind → Bool
  | .localRead _ | .localDecl _ | .assign _ _ | .fieldRead _ _ | .unary .not _ => false
  | _ => true

/-- A construction of a value ends with its node. -/
structure EndsWith (m : Build NodeId) : Prop where
  run : ∀ {b b' : Building} {id : NodeId}, m.run b = .ok (id, b') → id + 1 = b'.nodes.size

/-- The two ways to lower an expression over some variables. -/
structure Lowered.Over (vars : List LocalVar) (names : List String) (l : Lowered) : Prop where
  value : KeepsOver vars names l.value
  test : ∀ t e, KeepsOver vars names (l.test t e)
  last : EndsWith l.value

section

variable {α β : Type} {vars : List LocalVar} {names names' names'' : List String}
  {b b' : Building} {frames : List Frame} {kind : NodeKind} {m : Build Unit}

theorem NodeKind.over_of_plain (h : kind.isPlain = true) (id : NodeId) : kind.Over vars id where
  names var hvar := by
    unfold NodeKind.localVar? at hvar
    split at hvar <;> cases hvar <;> cases h
  read receiver field heq := by
    rw [heq] at h
    cases h
  write receiver field value heq := by
    rw [heq] at h
    cases h
  negation o heq := by
    rw [heq] at h
    cases h

theorem NodeKind.over_of_var {var : LocalVar} (hvar : var ∈ vars)
    (hkind : kind = .localRead var ∨ kind = .localDecl var ∨ ∃ v, kind = .assign (.local var) v)
    (id : NodeId) : kind.Over vars id := by
  rcases hkind with rfl | rfl | ⟨v, rfl⟩ <;>
    exact ⟨fun var' h => Option.some.inj h ▸ hvar, nofun, nofun, nofun⟩

/-- A name in scope stands for one of the variables. -/
theorem Building.Over.resolve_mem (h : b.Over vars) (hsees : b.Sees names) {name : String}
    (hname : name ∈ names) : Scopes.resolve b.scopes name ∈ vars := by
  obtain ⟨scope, hscope, var, hvar, rfl⟩ := hsees name hname
  unfold Scopes.resolve
  cases hfound : b.scopes.findSome? fun scope => scope.find? fun v => v.name = var.name with
  | none =>
      have hnone := List.findSome?_eq_none_iff.mp hfound scope hscope
      exact absurd (decide_eq_true rfl) (List.find?_eq_none.mp hnone var hvar)
  | some found =>
      obtain ⟨scope', hscope', hfind⟩ := List.exists_of_findSome?_eq_some hfound
      exact h.declared scope' hscope' found (List.mem_of_find?_eq_some hfind)

namespace EndsWith

theorem emit (kind : NodeKind) : EndsWith (emit kind) where
  run hrun := by
    obtain ⟨block, b₁, h₁, h₂⟩ := run_bind.mp hrun
    rw [run_pushNode] at h₂
    cases h₂
    exact (Array.size_push _).symm

theorem emitRaising (frames : List Frame) (kind : NodeKind) (categories : List String)
    (terminal : Bool) : EndsWith (emitRaising frames kind categories terminal) where
  run hrun := by
    obtain ⟨handlers, b₁, t, b₂, -, -, rfl, rfl⟩ := run_emitRaising hrun
    exact (Array.size_push _).symm

theorem after {m : Build α} {f : α → Build NodeId} (h : ∀ a, EndsWith (f a)) :
    EndsWith (m >>= f) where
  run hrun := by
    obtain ⟨a, b₁, -, h₂⟩ := run_bind.mp hrun
    exact (h a).run h₂

end EndsWith

namespace KeepsOver

/-- What is built with the variable that a name in scope stands for. -/
theorem resolved {name : String} (hname : name ∈ names) {f : LocalVar → Build α}
    (hf : ∀ var ∈ vars, KeepsOver vars names (f var)) :
    KeepsOver vars names (do f (← lookup name)) where
  run hb hsees hrun := by
    obtain ⟨var, b₁, h₁, h₂⟩ := run_bind.mp hrun
    obtain ⟨rfl, rfl⟩ := run_lookup.mp h₁
    exact (hf _ (hb.resolve_mem hsees hname)).run hb hsees h₂

/-- A negation is emitted right after its operand. -/
theorem emit_not {l : Lowered} (h : l.Over vars names) :
    KeepsOver vars names (do Build.emit (.unary .not (← l.value))) where
  run {b b' id} hb hsees hrun := by
    obtain ⟨o, b₁, h₁, h₂⟩ := run_bind.mp hrun
    obtain ⟨block, b₂, h₂, h₃⟩ := run_bind.mp h₂
    obtain ⟨hb₁, hscopes₁⟩ := h.value.run hb hsees h₁
    obtain ⟨hscopes₂, hnodes₂⟩ := Inert.openBlock.run h₂
    have hb₂ := hb₁.congr hscopes₂ hnodes₂
    have hlast : b₂.nodes.size = o + 1 := hnodes₂ ▸ (h.last.run h₁).symm
    rw [run_pushNode] at h₃
    cases h₃
    have hnot : (NodeKind.unary .not o).Over vars b₂.nodes.size :=
      ⟨nofun, nofun, nofun, fun o' ho => by
        cases ho
        exact hlast⟩
    exact ⟨hb₂.push hnot rfl rfl, hscopes₂.trans hscopes₁⟩

end KeepsOver

namespace Lowered.Over

theorem ofValue {v : Build NodeId} (hv : KeepsOver vars names v) (hlast : EndsWith v) :
    Over vars names (.ofValue v) where
  value := hv
  test _ _ := hv.andThen fun _ => .of_inert (.branch _ _ _)
  last := hlast

theorem negation {l : Lowered} (h : Over vars names l) : Over vars names l.negation where
  value := .emit_not h
  test t e := h.test e t
  last := .after fun _ => .emit _

theorem shortCircuit {op : BinOp} {l r : Lowered} (hl : Over vars names l)
    (hr : Over vars names r) : Over vars names (.shortCircuit op l r) where
  value := by
    have hrest (left : NodeId) (rhsBlock mergeBlock : BlockId) : KeepsOver vars names (do
        setCurrent (some rhsBlock)
        let right ← r.value
        closeWith mergeBlock
        setCurrent (some mergeBlock)
        emit (.shortCircuit op left right)) :=
      (KeepsOver.of_inert (.setCurrent _)).andThen fun _ => hr.value.andThen fun right =>
        (KeepsOver.of_inert (.closeWith _)).andThen fun _ =>
        (KeepsOver.of_inert (.setCurrent _)).andThen fun _ =>
        .emit (NodeKind.over_of_plain rfl)
    refine hl.value.andThen fun left => (KeepsOver.of_inert .newBlock).andThen fun rhsBlock =>
      (KeepsOver.of_inert .newBlock).andThen fun mergeBlock => ?_
    dsimp only
    split
    · exact (KeepsOver.of_inert (.branch _ _ _)).andThen fun _ => hrest _ _ _
    · exact (KeepsOver.of_inert (.branch _ _ _)).andThen fun _ => hrest _ _ _
  test t e := by
    refine (KeepsOver.of_inert .newBlock).andThen fun rhsBlock => ?_
    dsimp only
    split
    · exact (hl.test _ _).andThen fun _ => (KeepsOver.of_inert (.setCurrent _)).andThen fun _ =>
        hr.test _ _
    · exact (hl.test _ _).andThen fun _ => (KeepsOver.of_inert (.setCurrent _)).andThen fun _ =>
        hr.test _ _
  last := by
    refine .after fun left => .after fun rhsBlock => .after fun mergeBlock => ?_
    dsimp only
    split
    · exact .after fun _ => .after fun _ => .after fun _ => .after fun _ => .after fun _ => .emit _
    · exact .after fun _ => .after fun _ => .after fun _ => .after fun _ => .after fun _ => .emit _

theorem ternary {c l r : Lowered} (hc : Over vars names c) (hl : Over vars names l)
    (hr : Over vars names r) : Over vars names (.ternary c l r) where
  value :=
    (KeepsOver.of_inert .newBlock).andThen fun _ => (KeepsOver.of_inert .newBlock).andThen fun _ =>
      (KeepsOver.of_inert .newBlock).andThen fun _ => (hc.test _ _).andThen fun _ =>
      (KeepsOver.of_inert (.setCurrent _)).andThen fun _ => hl.value.andThen fun _ =>
      (KeepsOver.of_inert (.closeWith _)).andThen fun _ =>
      (KeepsOver.of_inert (.setCurrent _)).andThen fun _ => hr.value.andThen fun _ =>
      (KeepsOver.of_inert (.closeWith _)).andThen fun _ =>
      (KeepsOver.of_inert (.setCurrent _)).andThen fun _ =>
      .emit (NodeKind.over_of_plain rfl)
  test _ _ :=
    (KeepsOver.of_inert .newBlock).andThen fun _ => (KeepsOver.of_inert .newBlock).andThen fun _ =>
      (hc.test _ _).andThen fun _ => (KeepsOver.of_inert (.setCurrent _)).andThen fun _ =>
      (hl.test _ _).andThen fun _ => (KeepsOver.of_inert (.setCurrent _)).andThen fun _ =>
      hr.test _ _
  last := .after fun _ => .after fun _ => .after fun _ => .after fun _ => .after fun _ =>
    .after fun _ => .after fun _ => .after fun _ => .after fun _ => .after fun _ =>
    .after fun _ => .emit _

end Lowered.Over

mutual

theorem lowerExpr_over (hframes : Frame.Over vars names frames) :
    (e : Expr) → e.closed names = true → (lowerExpr frames e).Over vars names
  | .literal _, _ => .ofValue (.emit (NodeKind.over_of_plain rfl)) (.emit _)
  | .var name, h => by
      have hname : name ∈ names := by simpa [Expr.closed] using h
      exact .ofValue (.resolved hname fun _ hvar => .emit (NodeKind.over_of_var hvar (.inl rfl)))
        (.after fun _ => .emit _)
  | .this, _ => .ofValue (.emit (NodeKind.over_of_plain rfl)) (.emit _)
  | .field _ _, h => by cases h
  | .call receiver method args throws, h => by
      obtain ⟨hreceiver, hargs⟩ := Bool.and_eq_true_iff.mp h
      refine .ofValue ?_ (.after fun _ => .after fun _ => .emitRaising _ _ _ _)
      exact (lowerReceiver_over hframes receiver hreceiver).andThen fun _ =>
        (lowerArgs_over hframes args hargs).andThen fun _ =>
        .emitRaising hframes (NodeKind.over_of_plain rfl) _ _
  | .new className args, h =>
      .ofValue ((lowerArgs_over hframes args h).andThen fun _ =>
        .emitRaising hframes (NodeKind.over_of_plain rfl) _ _)
        (.after fun _ => .emitRaising _ _ _ _)
  | .binary op lhs rhs, h => by
      obtain ⟨hlhs, hrhs⟩ := Bool.and_eq_true_iff.mp h
      have hlhs := lowerExpr_over hframes lhs hlhs
      have hrhs := lowerExpr_over hframes rhs hrhs
      rw [lowerExpr]
      split
      · exact .shortCircuit hlhs hrhs
      · refine .ofValue ?_ (.after fun _ => .after fun _ => .emit _)
        exact hlhs.value.andThen fun _ => hrhs.value.andThen fun _ =>
          .emit (NodeKind.over_of_plain rfl)
  | .unary op operand, h => by
      have hoperand := lowerExpr_over hframes operand h
      rw [lowerExpr]
      split
      · exact .negation hoperand
      · rename_i hop
        refine .ofValue (hoperand.value.andThen fun _ => ?_) (.after fun _ => .emit _)
        refine .emit (NodeKind.over_of_plain ?_)
        cases op with
        | not => exact absurd rfl hop
        | neg => rfl
  | .ternary condition thenValue elseValue, h => by
      obtain ⟨hcondition, h⟩ := Bool.and_eq_true_iff.mp h
      obtain ⟨hthen, helse⟩ := Bool.and_eq_true_iff.mp h
      exact .ternary (lowerExpr_over hframes condition hcondition)
        (lowerExpr_over hframes thenValue hthen) (lowerExpr_over hframes elseValue helse)
  | .cast qualifier operand, h =>
      .ofValue ((lowerExpr_over hframes operand h).value.andThen fun _ =>
        .emit (NodeKind.over_of_plain rfl)) (.after fun _ => .emit _)

theorem lowerReceiver_over (hframes : Frame.Over vars names frames) :
    (e : Option Expr) → Expr.optionClosed names e = true →
      KeepsOver vars names (lowerReceiver frames e)
  | none, _ => .nothing
  | some e, h => (lowerExpr_over hframes e h).value.andThen fun _ => .nothing

theorem lowerArgs_over (hframes : Frame.Over vars names frames) :
    (es : List Expr) → Expr.allClosed names es = true → KeepsOver vars names (lowerArgs frames es)
  | [], _ => .nothing
  | e :: rest, h => by
      obtain ⟨he, hrest⟩ := Bool.and_eq_true_iff.mp h
      exact (lowerExpr_over hframes e he).value.andThen fun _ =>
        (lowerArgs_over hframes rest hrest).andThen fun _ => .nothing

end

/-! Statements. -/

theorem KeepsOver.declares {m : Build α} (h : KeepsOver vars names m) :
    DeclaresOver vars names names m where
  run hb hsees hrun := by
    obtain ⟨hb', hscopes⟩ := h.run hb hsees hrun
    exact ⟨hb', hsees.congr hscopes, congrArg List.tail hscopes⟩

theorem DeclaresOver.andThen {m : Build α} {f : α → Build β}
    (hm : DeclaresOver vars names names' m) (hf : ∀ a, DeclaresOver vars names' names'' (f a)) :
    DeclaresOver vars names names'' (m >>= f) where
  run hb hsees hrun := by
    obtain ⟨a, b₁, h₁, h₂⟩ := run_bind.mp hrun
    obtain ⟨hb₁, hsees₁, htail₁⟩ := hm.run hb hsees h₁
    obtain ⟨hb₂, hsees₂, htail₂⟩ := (hf a).run hb₁ hsees₁ h₂
    exact ⟨hb₂, hsees₂, htail₂.trans htail₁⟩

theorem KeepsOver.thenDeclares {m : Build α} {f : α → Build β} (hm : KeepsOver vars names m)
    (hf : ∀ a, DeclaresOver vars names names' (f a)) : DeclaresOver vars names names' (m >>= f) :=
  hm.declares.andThen hf

theorem Building.Over.opened (h : b.Over vars) :
    Building.Over vars { b with scopes := [] :: b.scopes } where
  scopes := List.cons_ne_nil _ _
  declared := List.forall_mem_cons.mpr ⟨nofun, h.declared⟩
  nodes := h.nodes

/-- What is declared in a scope of its own is forgotten after it. -/
theorem DeclaresOver.within {m : Build α} (h : DeclaresOver vars names names' m) :
    KeepsOver vars names (do
      modify fun b => { b with scopes := [] :: b.scopes }
      let a ← m
      modify fun b => { b with scopes := b.scopes.drop 1 }
      return a) where
  run {b b' a} hb hsees hrun := by
    simp only [run_bind, run_modify, run_pure] at hrun
    obtain ⟨_, _, rfl, _, b₁, h₁, _, _, rfl, rfl, rfl⟩ := hrun
    have hopened : Building.Sees names { b with scopes := [] :: b.scopes } := by
      intro name hname
      obtain ⟨scope, hscope, hvar⟩ := hsees name hname
      exact ⟨scope, List.mem_cons_of_mem _ hscope, hvar⟩
    obtain ⟨hb₁, -, htail⟩ := h.run hb.opened hopened h₁
    have hscopes : b₁.scopes.drop 1 = b.scopes := by
      rw [List.drop_one, htail]
      rfl
    refine ⟨⟨?_, ?_, hb₁.nodes⟩, hscopes⟩
    · exact hscopes ▸ hb.scopes
    · exact hscopes ▸ hb.declared

theorem DeclaresOver.inside (h : DeclaresOver vars names names' m) :
    KeepsOver vars names (inScope m) := by
  have hwithin := h.within
  simp only [bind_pure_unit] at hwithin
  exact hwithin

theorem declare_over {var : LocalVar} (hvar : var ∈ vars) :
    DeclaresOver vars names (var.name :: names) (declare var) where
  run {b b' u} hb hsees hrun := by
    rw [run_declare] at hrun
    cases hrun
    obtain ⟨scope, outer, hscopes⟩ := List.exists_cons_of_ne_nil hb.scopes
    have hdeclared : Scopes.declare b.scopes var = (var :: scope) :: outer := by
      rw [hscopes, Scopes.declare]
    refine ⟨⟨?_, ?_, hb.nodes⟩, ?_, ?_⟩
    · simp [hdeclared]
    · rw [hdeclared]
      have hall := hb.declared
      rw [hscopes] at hall
      obtain ⟨hscope, houter⟩ := List.forall_mem_cons.mp hall
      exact List.forall_mem_cons.mpr ⟨List.forall_mem_cons.mpr ⟨hvar, hscope⟩, houter⟩
    · rw [Building.Sees, hdeclared]
      intro name hname
      rcases List.mem_cons.mp hname with rfl | hname
      · exact ⟨_, List.mem_cons_self, var, List.mem_cons_self, rfl⟩
      · obtain ⟨found, hfound, v, hv, heq⟩ := hsees name hname
        rw [hscopes] at hfound
        rcases List.mem_cons.mp hfound with rfl | hfound
        · exact ⟨_, List.mem_cons_self, v, List.mem_cons_of_mem _ hv, heq⟩
        · exact ⟨found, List.mem_cons_of_mem _ hfound, v, hv, heq⟩
    · exact Scopes.tail_declare b.scopes var

/-- A declaration and its node. -/
theorem declaration_over {var : LocalVar} (hvar : var ∈ vars) :
    DeclaresOver vars names (var.name :: names) (do
      declare var
      discard (emit (.localDecl var))) :=
  (declare_over hvar).andThen fun _ =>
    (KeepsOver.emit (NodeKind.over_of_var hvar (.inr (.inl rfl)))).dropped.declares

theorem lowerDecl_over (hframes : Frame.Over vars names frames) {name : String}
    {qualifier : Option String} {init : Option Expr}
    (hinit : Expr.optionClosed names init = true) (hvar : ⟨name, qualifier, .local⟩ ∈ vars) :
    DeclaresOver vars names (name :: names) (lowerDecl frames name qualifier init) := by
  refine (lowerReceiver_over hframes init hinit).declares.andThen fun value => ?_
  cases value with
  | none =>
      have hnone : KeepsOver vars (name :: names) (pure PUnit.unit) := .nothing
      have hboth := (declaration_over hvar).andThen fun _ => hnone.declares
      simp only [bind_assoc] at hboth
      exact hboth
  | some value =>
      have hassign : KeepsOver vars (name :: names)
          (discard (emit (.assign (.local ⟨name, qualifier, .local⟩) value))) :=
        (KeepsOver.emit (NodeKind.over_of_var hvar (.inr (.inr ⟨value, rfl⟩)))).dropped
      have hboth := (declaration_over hvar).andThen fun _ => hassign.declares
      simp only [bind_assoc] at hboth
      exact hboth

theorem lowerAssign_over (hframes : Frame.Over vars names frames) {target : Target} {value : Expr}
    (h : (Stmt.assign target value).closed names = true) :
    KeepsOver vars names (lowerAssign frames target value) := by
  cases target with
  | field receiver name => cases h
  | «local» name =>
      obtain ⟨hname, hvalue⟩ := Bool.and_eq_true_iff.mp h
      have hname : name ∈ names := by simpa using hname
      exact (lowerExpr_over hframes value hvalue).value.andThen fun id =>
        .resolved hname fun _ hvar =>
          (KeepsOver.emit (NodeKind.over_of_var hvar (.inr (.inr ⟨id, rfl⟩)))).dropped

theorem lowerAssert_over (hframes : Frame.Over vars names frames) {condition : Expr}
    (h : condition.closed names = true) : KeepsOver vars names (lowerAssert frames condition) :=
  (KeepsOver.of_inert .newBlock).andThen fun _ => (KeepsOver.of_inert .newBlock).andThen fun _ =>
    ((lowerExpr_over hframes condition h).test _ _).andThen fun _ =>
    (KeepsOver.of_inert (.setCurrent _)).andThen fun _ =>
    (KeepsOver.emitRaising hframes (NodeKind.over_of_plain rfl) _ _).dropped.andThen fun _ =>
    .of_inert (.setCurrent _)

/-- A way out through final bodies. -/
theorem leave_over {crossed : List Crossing}
    (hcopies : ∀ c ∈ crossed, KeepsOver vars names c.copy) (target : BlockId) :
    KeepsOver vars names (do closeWith (← leaveThrough crossed target)) :=
  (KeepsOver.leaveThrough hcopies target).andThen fun _ => .of_inert (.closeWith _)

theorem jump_over (hframes : Frame.Over vars names frames) (label : Option String)
    (leaves : Bool) : KeepsOver vars names (jump frames label leaves) := by
  unfold jump
  split
  · rename_i inner continueTarget breakTarget hfound
    refine leave_over ?_ _
    have hway : Frame.way label leaves frames =
        some (Frame.crossings inner, if leaves then breakTarget else continueTarget) := by
      rw [Frame.way, hfound]
      rfl
    exact hframes.way hway
  · refine ⟨fun hb hsees hrun => ?_⟩
    split at hrun
    · exact (run_throw.mp hrun).elim
    · exact (run_throw.mp hrun).elim

theorem lowerReturn_over (hframes : Frame.Over vars names frames) {value : Option Expr}
    (h : Expr.optionClosed names value = true) :
    KeepsOver vars names (lowerStmt frames (.returnValue value)) := by
  rw [lowerStmt]
  exact (lowerReceiver_over hframes value h).andThen fun _ =>
    (KeepsOver.emit (NodeKind.over_of_plain rfl)).dropped.andThen fun _ => leave_over hframes _

theorem lowerThrow_over (hframes : Frame.Over vars names frames) (exception : String)
    {value : Option Expr} (h : Expr.optionClosed names value = true) :
    KeepsOver vars names (lowerStmt frames (.throw exception value)) := by
  rw [lowerStmt]
  exact (lowerReceiver_over hframes value h).andThen fun _ =>
    (KeepsOver.emitRaising hframes (NodeKind.over_of_plain rfl) _ _).dropped

/-- Bodies, wherever they are built. -/
structure BodyOver (vars : List LocalVar) (names : List String) (body : List Stmt) : Prop where
  declares : ∀ {frames : List Frame}, Frame.Over vars names frames →
    DeclaresOver vars names (Stmt.namesAfterAll names body) (lowerStmts frames body)

variable {body : List Stmt}

theorem BodyOver.inside (h : BodyOver vars names body) (hframes : Frame.Over vars names frames) :
    KeepsOver vars names (inScope (lowerStmts frames body)) :=
  (h.declares hframes).inside

theorem lowerIf_over (hframes : Frame.Over vars names frames) {condition : Expr}
    {thenBody : List Stmt} {elseBody : Option (List Stmt)}
    (hcondition : condition.closed names = true) (hthen : BodyOver vars names thenBody)
    (helse : KeepsOver vars names (lowerElse frames elseBody)) :
    KeepsOver vars names (lowerStmt frames (.ifElse condition thenBody elseBody)) := by
  rw [lowerStmt]
  exact (KeepsOver.of_inert .newBlock).andThen fun _ => (KeepsOver.of_inert .newBlock).andThen
    fun _ => (KeepsOver.of_inert .newBlock).andThen fun _ =>
    ((lowerExpr_over hframes condition hcondition).test _ _).andThen fun _ =>
    (KeepsOver.of_inert (.setCurrent _)).andThen fun _ => (hthen.inside hframes).andThen fun _ =>
    (KeepsOver.of_inert (.closeWith _)).andThen fun _ =>
    (KeepsOver.of_inert (.setCurrent _)).andThen fun _ => helse.andThen fun _ =>
    (KeepsOver.of_inert (.closeWith _)).andThen fun _ => .of_inert (.setCurrent _)

theorem lowerWhile_over (hframes : Frame.Over vars names frames) (label : Option String)
    {condition : Expr} (hcondition : condition.closed names = true)
    (hbody : BodyOver vars names body) :
    KeepsOver vars names (lowerStmt frames (.whileLoop label condition body)) := by
  rw [lowerStmt]
  exact (KeepsOver.of_inert (.newDraft _)).andThen fun _ =>
    (KeepsOver.of_inert (.closeWith _)).andThen fun _ =>
    (KeepsOver.of_inert .newBlock).andThen fun _ =>
    (KeepsOver.of_inert (.link _ _)).andThen fun _ =>
    (KeepsOver.of_inert .newBlock).andThen fun _ => (KeepsOver.of_inert .newBlock).andThen fun _ =>
    (KeepsOver.of_inert (.setCurrent _)).andThen fun _ =>
    ((lowerExpr_over hframes condition hcondition).test _ _).andThen fun _ =>
    (KeepsOver.of_inert (.setCurrent _)).andThen fun _ =>
    (hbody.inside (hframes.loop _ _ _)).andThen fun _ =>
    (KeepsOver.of_inert (.closeWith _)).andThen fun _ => .of_inert (.setCurrent _)

theorem lowerDoWhile_over (hframes : Frame.Over vars names frames) (label : Option String)
    {condition : Expr} (hcondition : condition.closed names = true)
    (hbody : BodyOver vars names body) :
    KeepsOver vars names (lowerStmt frames (.doWhile label body condition)) := by
  rw [lowerStmt]
  exact (KeepsOver.of_inert (.newDraft _)).andThen fun _ =>
    (KeepsOver.of_inert (.closeWith _)).andThen fun _ =>
    (KeepsOver.of_inert .newBlock).andThen fun _ =>
    (KeepsOver.of_inert (.link _ _)).andThen fun _ =>
    (KeepsOver.of_inert .newBlock).andThen fun _ => (KeepsOver.of_inert .newBlock).andThen fun _ =>
    (KeepsOver.of_inert (.setCurrent _)).andThen fun _ =>
    (hbody.inside (hframes.loop _ _ _)).andThen fun _ =>
    (KeepsOver.of_inert (.closeWith _)).andThen fun _ =>
    (KeepsOver.of_inert (.setCurrent _)).andThen fun _ =>
    ((lowerExpr_over hframes condition hcondition).test _ _).andThen fun _ =>
    .of_inert (.setCurrent _)

theorem loopTest_over (hframes : Frame.Over vars names frames) {condition : Option Expr}
    (h : Expr.optionClosed names condition = true) (t e : BlockId) :
    KeepsOver vars names (loopTest frames condition t e) := by
  cases condition with
  | none => exact .of_inert (.closeWith _)
  | some condition => exact (lowerExpr_over hframes condition h).test _ _

theorem lowerFor_over (hframes : Frame.Over vars names frames) (label : Option String)
    {condition : Option Expr} {init update : List Stmt} (hinit : BodyOver vars names init)
    (hcondition : Expr.optionClosed (Stmt.namesAfterAll names init) condition = true)
    (hupdate : BodyOver vars (Stmt.namesAfterAll names init) update)
    (hbody : BodyOver vars (Stmt.namesAfterAll names init) body)
    (hsub : names ⊆ Stmt.namesAfterAll names init) :
    KeepsOver vars names (lowerStmt frames (.forLoop label init condition update body)) := by
  have hinner := hframes.subset hsub
  have hparts := (hinit.declares hframes).andThen fun _ =>
    (KeepsOver.of_inert (.newDraft (.special .loopHead none))).thenDeclares fun head =>
    (KeepsOver.of_inert (.closeWith head)).thenDeclares fun _ =>
    (KeepsOver.of_inert .newBlock).thenDeclares fun first =>
    (KeepsOver.of_inert (.link head first)).thenDeclares fun _ =>
    (KeepsOver.of_inert .newBlock).thenDeclares fun bodyBlock =>
    (KeepsOver.of_inert .newBlock).thenDeclares fun updateBlock =>
    (KeepsOver.of_inert .newBlock).thenDeclares fun exitBlock =>
    (KeepsOver.of_inert (.setCurrent (some first))).thenDeclares fun _ =>
    (loopTest_over hinner hcondition bodyBlock exitBlock).thenDeclares fun _ =>
    (KeepsOver.of_inert (.setCurrent (some bodyBlock))).thenDeclares fun _ =>
    (hbody.inside (hinner.loop label updateBlock exitBlock)).thenDeclares fun _ =>
    (KeepsOver.of_inert (.closeWith updateBlock)).thenDeclares fun _ =>
    (KeepsOver.of_inert (.setCurrent (some updateBlock))).thenDeclares fun _ =>
    (hupdate.declares hinner).andThen fun _ =>
    (KeepsOver.of_inert (.closeWith head)).thenDeclares fun _ =>
    (KeepsOver.nothing (a := exitBlock)).declares
  have hwhole := hparts.within.andThen fun exitBlock =>
    .of_inert (.setCurrent (some exitBlock))
  rw [lowerStmt, lowerFor_eq]
  simp only [bind_assoc, pure_bind] at hwhole ⊢
  exact hwhole

theorem lowerClause_over (hframes : Frame.Over vars names frames) {binding : Option String}
    (hvars : ∀ name ∈ binding, ⟨name, none, .local⟩ ∈ vars)
    (hbody : BodyOver vars (binding.toList ++ names) body) :
    KeepsOver vars names (inScope (lowerClause frames binding body)) := by
  cases binding with
  | none => exact (hbody.declares hframes).inside
  | some name =>
      have hdeclared : DeclaresOver vars names (name :: names) _ :=
        declaration_over (hvars name rfl)
      have hboth := hdeclared.andThen fun _ =>
        hbody.declares (hframes.subset (List.subset_cons_self name names))
      simp only [bind_assoc] at hboth
      exact hboth.inside

theorem lowerHandlers_over (hframes : Frame.Over vars names frames) {leave : Build Unit}
    (hleave : KeepsOver vars names leave) {handlers : List Handler} (blocks : List BlockId)
    (hvars : ∀ h ∈ handlers, ∀ name ∈ h.binding, ⟨name, none, .local⟩ ∈ vars)
    (hbodies : ∀ h ∈ handlers, BodyOver vars (h.binding.toList ++ names) h.body) :
    KeepsOver vars names (lowerHandlers frames leave handlers blocks) := by
  induction handlers generalizing blocks with
  | nil =>
      rw [lowerHandlers]
      · exact .nothing
      · simp
  | cons handler rest ih =>
      cases blocks with
      | nil =>
          rw [lowerHandlers]
          · exact .nothing
          · simp
      | cons block blocks =>
          obtain ⟨exception, binding, body⟩ := handler
          obtain ⟨hvar, hothers⟩ := List.forall_mem_cons.mp hvars
          obtain ⟨hbody, hrest⟩ := List.forall_mem_cons.mp hbodies
          rw [lowerHandlers_eq]
          exact (KeepsOver.of_inert (.setCurrent _)).andThen fun _ =>
            (lowerClause_over hframes hvar hbody).andThen fun _ => hleave.andThen fun _ =>
            ih blocks hothers hrest

theorem clauseBlocks_inert (handlers : List Handler) :
    Inert (handlers.mapM fun h : Handler => do
      let block ← newBlock
      return (h.exception, block)) := by
  induction handlers with
  | nil => exact .nothing
  | cons handler rest ih =>
      simp only [List.mapM_cons]
      exact (Inert.newBlock.andThen fun _ => .nothing).andThen fun _ =>
        ih.andThen fun _ => .nothing

theorem registerFinal_inert (frames : List Frame) (finalBody : Option (List Stmt)) :
    Inert (registerFinal frames finalBody) := by
  cases finalBody with
  | none => exact .nothing
  | some body =>
      exact Inert.getState.andThen fun _ => (Inert.update (by exact fun _ => ⟨rfl, rfl⟩)).andThen
        fun _ => .nothing

theorem registerFinal_over (hframes : Frame.Over vars names frames)
    {finalBody : Option (List Stmt)} (hfinal : ∀ body ∈ finalBody, BodyOver vars names body)
    {crossed : List Crossing} (hrun : (registerFinal frames finalBody).run b = .ok (crossed, b')) :
    ∀ c ∈ crossed, KeepsOver vars names c.copy := by
  cases finalBody with
  | none =>
      obtain ⟨rfl, -⟩ := run_pure.mp hrun
      exact nofun
  | some body =>
      simp only [registerFinal, lowerFinal, run_bind, run_get, run_modify, run_pure] at hrun
      obtain ⟨_, _, ⟨rfl, rfl⟩, _, _, rfl, rfl, rfl⟩ := hrun
      exact List.forall_mem_singleton.mpr ((hfinal body rfl).inside hframes)

theorem lowerTry_over (hframes : Frame.Over vars names frames) {handlers : List Handler}
    {finalBody : Option (List Stmt)} (hbody : BodyOver vars names body)
    (hvars : ∀ h ∈ handlers, ∀ name ∈ h.binding, ⟨name, none, .local⟩ ∈ vars)
    (hclauses : ∀ h ∈ handlers, BodyOver vars (h.binding.toList ++ names) h.body)
    (hfinal : ∀ body ∈ finalBody, BodyOver vars names body) :
    KeepsOver vars names (lowerStmt frames (.tryCatch body handlers finalBody)) := by
  rw [lowerTry_eq]
  refine (KeepsOver.of_inert ⟨fun hrun => ?_⟩).andThen fun _ =>
    (KeepsOver.of_inert .newBlock).andThen fun after =>
    (KeepsOver.of_inert (clauseBlocks_inert handlers)).andThen fun targets =>
    (KeepsOver.of_inert (registerFinal_inert frames finalBody)).bind fun _ _ hregister => ?_
  · obtain rfl := run_lift hrun
    exact ⟨rfl, rfl⟩
  · have hcopies := registerFinal_over hframes hfinal hregister
    have hinner := hframes.finals hcopies
    have hleave := leave_over hcopies after
    have hrest := (hbody.inside (hinner.handlers targets)).andThen fun _ =>
      hleave.andThen fun _ =>
      (lowerHandlers_over hinner hleave (targets.map Prod.snd) hvars hclauses).andThen fun _ =>
      KeepsOver.of_inert (.setCurrent (some after))
    simp only [bind_assoc] at hrest
    exact hrest

theorem KeepsOver.afterStmt {s : Stmt} {m : Build Unit} (h : KeepsOver vars names m)
    (hs : s.namesAfter names = names) : DeclaresOver vars names (s.namesAfter names) m :=
  hs.symm ▸ h.declares

end

section

variable {vars : List LocalVar}

theorem Stmt.subset_namesAfterAll (names : List String) (stmts : List Stmt) :
    names ⊆ Stmt.namesAfterAll names stmts := by
  induction stmts generalizing names with
  | nil => exact List.Subset.refl names
  | cons s rest ih =>
      refine List.Subset.trans ?_ (ih (s.namesAfter names))
      unfold Stmt.namesAfter
      split
      · exact List.subset_cons_self _ _
      · exact List.Subset.refl names

mutual

theorem lowerStmt_over : (s : Stmt) → ∀ {frames : List Frame} {names : List String},
    Frame.Over vars names frames → s.closed names = true → (∀ var ∈ s.locals, var ∈ vars) →
    DeclaresOver vars names (s.namesAfter names) (lowerStmt frames s)
  | .localDecl name qualifier init, _, _, hframes, h, hvars => by
      rw [lowerStmt]
      exact lowerDecl_over hframes h (hvars _ (List.mem_singleton_self _))
  | .assign target value, _, _, hframes, h, _ => by
      rw [lowerStmt]
      exact (lowerAssign_over hframes h).afterStmt rfl
  | .expr value, _, _, hframes, h, _ => by
      rw [lowerStmt]
      exact (lowerExpr_over hframes value h).value.dropped.afterStmt rfl
  | .ifElse condition thenBody elseBody, _, _, hframes, h, hvars => by
      obtain ⟨hcondition, h⟩ := Bool.and_eq_true_iff.mp h
      obtain ⟨hthen, helse⟩ := Bool.and_eq_true_iff.mp h
      obtain ⟨hvars₁, hvars₂⟩ := List.forall_mem_append.mp hvars
      exact (lowerIf_over hframes hcondition (lowerStmts_over thenBody hthen hvars₁)
        (lowerElse_over elseBody hframes helse hvars₂)).afterStmt rfl
  | .whileLoop label condition body, _, _, hframes, h, hvars => by
      obtain ⟨hcondition, hbody⟩ := Bool.and_eq_true_iff.mp h
      exact (lowerWhile_over hframes label hcondition
        (lowerStmts_over body hbody hvars)).afterStmt rfl
  | .doWhile label body condition, _, _, hframes, h, hvars => by
      obtain ⟨hcondition, hbody⟩ := Bool.and_eq_true_iff.mp h
      exact (lowerDoWhile_over hframes label hcondition
        (lowerStmts_over body hbody hvars)).afterStmt rfl
  | .forLoop label init condition update body, _, names, hframes, h, hvars => by
      obtain ⟨hinit, h⟩ := Bool.and_eq_true_iff.mp h
      obtain ⟨hcondition, h⟩ := Bool.and_eq_true_iff.mp h
      obtain ⟨hupdate, hbody⟩ := Bool.and_eq_true_iff.mp h
      obtain ⟨hvars₁, hvars⟩ := List.forall_mem_append.mp hvars
      obtain ⟨hvars₂, hvars₃⟩ := List.forall_mem_append.mp hvars
      exact (lowerFor_over hframes label (lowerStmts_over init hinit hvars₁) hcondition
        (lowerStmts_over update hupdate hvars₂) (lowerStmts_over body hbody hvars₃)
        (Stmt.subset_namesAfterAll names init)).afterStmt rfl
  | .breakLoop label, _, _, hframes, _, _ => by
      rw [lowerStmt]
      exact (jump_over hframes label true).afterStmt rfl
  | .continueLoop label, _, _, hframes, _, _ => by
      rw [lowerStmt]
      exact (jump_over hframes label false).afterStmt rfl
  | .returnValue value, _, _, hframes, h, _ => (lowerReturn_over hframes h).afterStmt rfl
  | .throw exception value, _, _, hframes, h, _ =>
      (lowerThrow_over hframes exception h).afterStmt rfl
  | .tryCatch body handlers finalBody, _, names, hframes, h, hvars => by
      obtain ⟨hbody, h⟩ := Bool.and_eq_true_iff.mp h
      obtain ⟨hclauses, hfinal⟩ := Bool.and_eq_true_iff.mp h
      obtain ⟨hvars₁, hvars⟩ := List.forall_mem_append.mp hvars
      obtain ⟨hvars₂, hvars₃⟩ := List.forall_mem_append.mp hvars
      exact (lowerTry_over hframes (lowerStmts_over body hbody hvars₁)
        (fun handler hh => (clauses_over handlers hclauses hvars₂ handler hh).1)
        (fun handler hh => (clauses_over handlers hclauses hvars₂ handler hh).2)
        (finalBody_over finalBody hfinal hvars₃)).afterStmt rfl
  | .assert condition, _, _, hframes, h, _ => by
      rw [lowerStmt]
      exact (lowerAssert_over hframes h).afterStmt rfl

theorem lowerStmts_over : (stmts : List Stmt) → ∀ {names : List String},
    Stmt.allClosed names stmts = true → (∀ var ∈ Stmt.allLocals stmts, var ∈ vars) →
    BodyOver vars names stmts
  | [], _, _, _ => ⟨fun _ => by
      rw [lowerStmts]
      exact KeepsOver.nothing.declares⟩
  | s :: rest, names, h, hvars => ⟨fun hframes => by
      obtain ⟨hs, hrest⟩ := Bool.and_eq_true_iff.mp h
      obtain ⟨hvars₁, hvars₂⟩ := List.forall_mem_append.mp hvars
      rw [lowerStmts]
      exact (lowerStmt_over s hframes hs hvars₁).andThen fun _ =>
        (lowerStmts_over rest hrest hvars₂).declares
          (hframes.subset (Stmt.subset_namesAfterAll names [s]))⟩

theorem lowerElse_over : (stmts : Option (List Stmt)) → ∀ {frames : List Frame}
    {names : List String}, Frame.Over vars names frames → Stmt.optionClosed names stmts = true →
    (∀ var ∈ Stmt.optionLocals stmts, var ∈ vars) → KeepsOver vars names (lowerElse frames stmts)
  | none, _, _, _, _, _ => by
      rw [lowerElse]
      exact .nothing
  | some body, _, _, hframes, h, hvars => by
      rw [lowerElse]
      exact (lowerStmts_over body h hvars).inside hframes

theorem finalBody_over : (stmts : Option (List Stmt)) → ∀ {names : List String},
    Stmt.optionClosed names stmts = true → (∀ var ∈ Stmt.optionLocals stmts, var ∈ vars) →
    ∀ body ∈ stmts, BodyOver vars names body
  | none, _, _, _, _, h => nomatch h
  | some body, _, hclosed, hvars, _, h => Option.some.inj h ▸ lowerStmts_over body hclosed hvars

theorem clauses_over : (handlers : List Handler) → ∀ {names : List String},
    Stmt.clausesClosed names handlers = true → (∀ var ∈ Stmt.clauseLocals handlers, var ∈ vars) →
    ∀ h ∈ handlers, (∀ name ∈ h.binding, ⟨name, none, .local⟩ ∈ vars) ∧
      BodyOver vars (h.binding.toList ++ names) h.body
  | [], _, _, _, _, h => nomatch h
  | .clause _ binding body :: rest, _, hclosed, hvars, handler, h => by
      obtain ⟨hbody, hrest⟩ := Bool.and_eq_true_iff.mp hclosed
      obtain ⟨hvars₁, hvars⟩ := List.forall_mem_append.mp hvars
      obtain ⟨hvars₂, hvars₃⟩ := List.forall_mem_append.mp hvars
      rcases List.mem_cons.mp h with rfl | h
      · refine ⟨fun name hname => hvars₁ _ (List.mem_map_of_mem ?_),
          lowerStmts_over body hbody hvars₂⟩
        exact Option.mem_toList.mpr hname
      · exact clauses_over rest hrest hvars₃ handler h

end

end

namespace ProgramUnit

variable {u : ProgramUnit} {g : FlowGraph}

theorem start_over (u : ProgramUnit) : (Build.start u.params).Over u.locals where
  scopes := List.cons_ne_nil _ _
  declared := List.forall_mem_singleton.mpr fun _ hvar =>
    List.mem_append_left _ (List.mem_reverse.mp hvar)
  nodes := nofun

/-- The nodes of a unit over local variables. -/
theorem lower_over (hu : u.LocalOnly) (h : u.lower = .ok g) {id : NodeId} {n : Node}
    (hn : g.node? id = some n) : n.kind.Over u.locals id := by
  obtain ⟨b, hrun, hfinish⟩ := u.run_of_lower h
  have hsees : (Build.start u.params).Sees (u.params.map Parameter.name) := by
    intro name hname
    obtain ⟨p, hp, rfl⟩ := List.mem_map.mp hname
    refine ⟨_, List.mem_singleton_self _, ⟨p.name, p.qualifier, .parameter⟩, ?_, rfl⟩
    exact List.mem_reverse.mpr (List.mem_map_of_mem hp)
  have hbody : BodyOver u.locals (u.params.map Parameter.name) u.body :=
    lowerStmts_over u.body hu.closed fun var hvar => List.mem_append_right _ hvar
  have hframes : Frame.Over u.locals (u.params.map Parameter.name) [] :=
    fun _ h => absurd h List.not_mem_nil
  have hbuild : KeepsOver u.locals (u.params.map Parameter.name) u.build :=
    (KeepsOver.of_inert .newBlock).andThen fun _ => (KeepsOver.of_inert (.link _ _)).andThen
      fun _ => (KeepsOver.of_inert (.setCurrent _)).andThen fun _ =>
      (hbody.inside hframes).andThen fun _ => .of_inert (.closeWith _)
  obtain ⟨hover, -⟩ := hbuild.run u.start_over hsees hrun
  rw [FlowGraph.node?, Layout.finish_parts hfinish] at hn
  obtain ⟨n', hn', rfl⟩ := Layout.parts_node hn
  exact hover.nodes id n' hn'

end ProgramUnit

end FlowTyping
