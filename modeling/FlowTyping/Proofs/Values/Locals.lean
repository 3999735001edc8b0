import FlowTyping.Proofs.Lowering.Protected

/-!
Units over local variables. Each variable that occurs is in the scope of its declaration and no
field is read or written; the nodes of the graph then name declared variables only.
-/

namespace FlowTyping

open Build

mutual

/-- Every variable that an expression reads is one of some names, and it reads no field. -/
def Expr.closed (names : List String) : Expr → Bool
  | .literal _ | .this => true
  | .var name => names.contains name
  | .field _ _ => false
  | .call receiver _ args _ => Expr.optionClosed names receiver && Expr.allClosed names args
  | .new _ args => Expr.allClosed names args
  | .binary _ lhs rhs => lhs.closed names && rhs.closed names
  | .unary _ operand | .cast _ operand => operand.closed names
  | .ternary condition thenValue elseValue =>
      condition.closed names && (thenValue.closed names && elseValue.closed names)

def Expr.optionClosed (names : List String) : Option Expr → Bool
  | none => true
  | some e => e.closed names

def Expr.allClosed (names : List String) : List Expr → Bool
  | [] => true
  | e :: rest => e.closed names && Expr.allClosed names rest

end

namespace Stmt

/-- The names in scope after a statement. -/
def namesAfter (names : List String) : Stmt → List String
  | .localDecl name _ _ => name :: names
  | _ => names

def namesAfterAll (names : List String) (stmts : List Stmt) : List String :=
  stmts.foldl namesAfter names

mutual

/-- Every variable that occurs is in the scope of its declaration, where some names are in
scope from outside, and no field is read or written. -/
def closed (names : List String) : Stmt → Bool
  | .localDecl _ _ init => Expr.optionClosed names init
  | .assign (.local name) value => names.contains name && value.closed names
  | .assign (.field _ _) _ => false
  | .expr value | .assert value => value.closed names
  | .ifElse condition thenBody elseBody =>
      condition.closed names && (allClosed names thenBody && optionClosed names elseBody)
  | .whileLoop _ condition body | .doWhile _ body condition =>
      condition.closed names && allClosed names body
  | .forLoop _ init condition update body =>
      allClosed names init &&
        (Expr.optionClosed (namesAfterAll names init) condition &&
          (allClosed (namesAfterAll names init) update &&
            allClosed (namesAfterAll names init) body))
  | .breakLoop _ | .continueLoop _ => true
  | .returnValue value | .throw _ value => Expr.optionClosed names value
  | .tryCatch body handlers finalBody =>
      allClosed names body && (clausesClosed names handlers && optionClosed names finalBody)

def allClosed (names : List String) : List Stmt → Bool
  | [] => true
  | s :: rest => s.closed names && allClosed (s.namesAfter names) rest

def optionClosed (names : List String) : Option (List Stmt) → Bool
  | none => true
  | some body => allClosed names body

def clausesClosed (names : List String) : List Handler → Bool
  | [] => true
  | .clause _ binding body :: rest =>
      allClosed (binding.toList ++ names) body && clausesClosed names rest

end

mutual

/-- The variables that a statement declares, at any depth. -/
def locals : Stmt → List LocalVar
  | .localDecl name qualifier _ => [⟨name, qualifier, .local⟩]
  | .ifElse _ thenBody elseBody => allLocals thenBody ++ optionLocals elseBody
  | .whileLoop _ _ body | .doWhile _ body _ => allLocals body
  | .forLoop _ init _ update body =>
      allLocals init ++ (allLocals update ++ allLocals body)
  | .tryCatch body handlers finalBody =>
      allLocals body ++ (clauseLocals handlers ++ optionLocals finalBody)
  | _ => []

def allLocals : List Stmt → List LocalVar
  | [] => []
  | s :: rest => s.locals ++ allLocals rest

def optionLocals : Option (List Stmt) → List LocalVar
  | none => []
  | some body => allLocals body

def clauseLocals : List Handler → List LocalVar
  | [] => []
  | .clause _ binding body :: rest =>
      (binding.toList.map fun name => ⟨name, none, .local⟩) ++
        (allLocals body ++ clauseLocals rest)

end

end Stmt

namespace ProgramUnit

def parameters (u : ProgramUnit) : List LocalVar :=
  u.params.map fun p => ⟨p.name, p.qualifier, .parameter⟩

/-- The variables of a unit: its parameters and all that its statements declare. -/
def locals (u : ProgramUnit) : List LocalVar := u.parameters ++ Stmt.allLocals u.body

/-- A unit over local variables that have a name each. -/
structure LocalOnly (u : ProgramUnit) : Prop where
  distinct : (u.locals.map LocalVar.name).Nodup
  closed : Stmt.allClosed (u.params.map Parameter.name) u.body = true

instance (u : ProgramUnit) : Decidable u.LocalOnly :=
  decidable_of_iff ((u.locals.map LocalVar.name).Nodup ∧
    Stmt.allClosed (u.params.map Parameter.name) u.body = true)
    ⟨fun h => ⟨h.1, h.2⟩, fun h => ⟨h.distinct, h.closed⟩⟩

end ProgramUnit

/-- A node as units over some local variables have them. A negation stands right after its
operand. -/
structure NodeKind.Over (vars : List LocalVar) (id : NodeId) (kind : NodeKind) : Prop where
  names : ∀ var, kind.localVar? = some var → var ∈ vars
  read : ∀ receiver field, kind ≠ .fieldRead receiver field
  write : ∀ receiver field value, kind ≠ .assign (.field receiver field) value
  negation : ∀ o, kind = .unary .not o → id = o + 1

/-- The scopes and the nodes of a construction have variables from some list only. -/
structure Building.Over (vars : List LocalVar) (b : Building) : Prop where
  scopes : b.scopes ≠ []
  declared : ∀ scope ∈ b.scopes, ∀ var ∈ scope, var ∈ vars
  nodes : ∀ (i : Nat) (n : Node), b.nodes[i]? = some n → n.kind.Over vars i

/-- The names stand for variables here. -/
def Building.Sees (names : List String) (b : Building) : Prop :=
  ∀ name ∈ names, ∃ scope ∈ b.scopes, ∃ var ∈ scope, var.name = name

/-- A construction that changes neither scopes nor nodes. -/
structure Inert {α : Type} (m : Build α) : Prop where
  run : ∀ {b b' : Building} {a : α}, m.run b = .ok (a, b') →
    b'.scopes = b.scopes ∧ b'.nodes = b.nodes

namespace Inert

variable {α β : Type} {m : Build α} {f : α → Build β}

theorem nothing {a : α} : Inert (pure a) where
  run hrun := by
    obtain ⟨-, rfl⟩ := run_pure.mp hrun
    exact ⟨rfl, rfl⟩

theorem andThen (hm : Inert m) (hf : ∀ a, Inert (f a)) : Inert (m >>= f) where
  run hrun := by
    obtain ⟨a, b₁, h₁, h₂⟩ := run_bind.mp hrun
    obtain ⟨hscopes₁, hnodes₁⟩ := hm.run h₁
    obtain ⟨hscopes₂, hnodes₂⟩ := (hf a).run h₂
    exact ⟨hscopes₂.trans hscopes₁, hnodes₂.trans hnodes₁⟩

theorem getState : Inert (get : Build Building) where
  run hrun := by
    obtain ⟨-, rfl⟩ := run_get.mp hrun
    exact ⟨rfl, rfl⟩

theorem update {change : Building → Building}
    (h : ∀ b, (change b).scopes = b.scopes ∧ (change b).nodes = b.nodes) :
    Inert (modify change : Build Unit) where
  run hrun := by
    obtain rfl := run_modify.mp hrun
    exact h _

theorem newDraft (exits : Exits) : Inert (newDraft exits) where
  run hrun := by
    rw [run_newDraft] at hrun
    cases hrun
    exact ⟨rfl, rfl⟩

theorem newBlock : Inert newBlock := newDraft _

theorem setCurrent (block : Option BlockId) : Inert (setCurrent block) :=
  update fun _ => ⟨rfl, rfl⟩

theorem link (source target : BlockId) : Inert (link source target) :=
  update fun _ => ⟨rfl, rfl⟩

theorem closeWith (target : BlockId) : Inert (closeWith target) where
  run hrun := by
    rw [run_closeWith] at hrun
    cases hrun
    exact ⟨rfl, rfl⟩

theorem nextBlock : Inert nextBlock where
  run hrun := by
    rw [run_nextBlock] at hrun
    cases hrun
    exact ⟨rfl, rfl⟩

theorem draft (block : BlockId) : Inert (draft block) where
  run hrun := by
    obtain ⟨-, rfl⟩ := run_draft.mp hrun
    exact ⟨rfl, rfl⟩

theorem openBlock : Inert openBlock := by
  have hnext : Inert (do
      let block ← Build.nextBlock
      Build.setCurrent block
      return block) := nextBlock.andThen fun _ => (setCurrent _).andThen fun _ => nothing
  refine getState.andThen fun b => ?_
  split
  · refine (draft _).andThen fun d => ?_
    split
    · exact nothing
    · exact hnext
  · exact hnext

theorem branch (condition : NodeId) (thenTarget elseTarget : BlockId) :
    Inert (branch condition thenTarget elseTarget) :=
  getState.andThen fun _ => (newDraft _).andThen fun _ => (link _ _).andThen fun _ => setCurrent _

end Inert

/-- A construction in a place where some names are in scope adds nodes over some variables,
and leaves the scopes as they are. -/
structure KeepsOver {α : Type} (vars : List LocalVar) (names : List String) (m : Build α) :
    Prop where
  run : ∀ {b b' : Building} {a : α}, b.Over vars → b.Sees names → m.run b = .ok (a, b') →
    b'.Over vars ∧ b'.scopes = b.scopes

/-- The same for a construction that may declare variables in the innermost scope. -/
structure DeclaresOver {α : Type} (vars : List LocalVar) (names names' : List String)
    (m : Build α) : Prop where
  run : ∀ {b b' : Building} {a : α}, b.Over vars → b.Sees names → m.run b = .ok (a, b') →
    b'.Over vars ∧ b'.Sees names' ∧ b'.scopes.tail = b.scopes.tail

section

variable {α β : Type} {vars : List LocalVar} {names names' names'' : List String}
  {b b' : Building} {m : Build α} {frames : List Frame}

theorem Building.Sees.congr (h : b.Sees names) (hscopes : b'.scopes = b.scopes) :
    b'.Sees names := by
  rw [Sees, hscopes]
  exact h

theorem Building.Sees.subset (h : b.Sees names') (hsub : names ⊆ names') : b.Sees names :=
  fun name hname => h name (hsub hname)

/-- What changes neither scopes nor nodes. -/
theorem Building.Over.congr (h : b.Over vars) (hscopes : b'.scopes = b.scopes)
    (hnodes : b'.nodes = b.nodes) : b'.Over vars where
  scopes := hscopes ▸ h.scopes
  declared := hscopes ▸ h.declared
  nodes := hnodes ▸ h.nodes

theorem Building.Over.push (h : b.Over vars) {n : Node} (hn : n.kind.Over vars b.nodes.size)
    (hscopes : b'.scopes = b.scopes) (hnodes : b'.nodes = b.nodes.push n) : b'.Over vars where
  scopes := hscopes ▸ h.scopes
  declared := hscopes ▸ h.declared
  nodes i n' hn' := by
    rw [hnodes, Array.getElem?_push] at hn'
    split at hn'
    · rename_i hi
      cases hn'
      exact hi ▸ hn
    · exact h.nodes i n' hn'

namespace KeepsOver

theorem subset (h : KeepsOver vars names m) (hsub : names ⊆ names') : KeepsOver vars names' m :=
  ⟨fun hb hsees hrun => h.run hb (hsees.subset hsub) hrun⟩

theorem nothing {a : α} : KeepsOver vars names (pure a) where
  run hb _ hrun := by
    obtain ⟨-, rfl⟩ := run_pure.mp hrun
    exact ⟨hb, rfl⟩

/-- A construction after another one, as it can come out. -/
theorem bind {f : α → Build β} (hm : KeepsOver vars names m)
    (hf : ∀ {b b' : Building} {a : α}, b.Over vars → b.Sees names → m.run b = .ok (a, b') →
      KeepsOver vars names (f a)) : KeepsOver vars names (m >>= f) where
  run hb hsees hrun := by
    obtain ⟨a, b₁, h₁, h₂⟩ := run_bind.mp hrun
    obtain ⟨hb₁, hscopes₁⟩ := hm.run hb hsees h₁
    obtain ⟨hb₂, hscopes₂⟩ := (hf hb hsees h₁).run hb₁ (hsees.congr hscopes₁) h₂
    exact ⟨hb₂, hscopes₂.trans hscopes₁⟩

theorem andThen {f : α → Build β} (hm : KeepsOver vars names m)
    (hf : ∀ a, KeepsOver vars names (f a)) : KeepsOver vars names (m >>= f) :=
  hm.bind fun _ _ _ => hf _

theorem dropped (hm : KeepsOver vars names m) : KeepsOver vars names (discard m) where
  run hb hsees hrun := by
    obtain ⟨a, hrun⟩ := run_discard.mp hrun
    exact hm.run hb hsees hrun

/-- A step that changes neither scopes nor nodes. -/
theorem of_inert (h : Inert m) : KeepsOver vars names m where
  run hb _ hrun := by
    obtain ⟨hscopes, hnodes⟩ := h.run hrun
    exact ⟨hb.congr hscopes hnodes, hscopes⟩

theorem emit {kind : NodeKind} (hkind : ∀ id, kind.Over vars id) :
    KeepsOver vars names (emit kind) :=
  (of_inert .openBlock).andThen fun block => ⟨fun hb _ hrun => by
    rw [run_pushNode] at hrun
    cases hrun
    exact ⟨hb.push (hkind _) rfl rfl, rfl⟩⟩

theorem forM_copies {crossed : List Crossing}
    (hcopies : ∀ c ∈ crossed, KeepsOver vars names c.copy) :
    KeepsOver vars names (crossed.forM Crossing.copy) := by
  induction crossed with
  | nil => exact nothing
  | cons crossing rest ih =>
      rw [List.forM]
      exact (hcopies crossing List.mem_cons_self).andThen fun _ =>
        ih fun c hc => hcopies c (List.mem_cons_of_mem _ hc)

theorem leaveThrough {crossed : List Crossing}
    (hcopies : ∀ c ∈ crossed, KeepsOver vars names c.copy) (target : BlockId) :
    KeepsOver vars names (leaveThrough crossed target) := by
  unfold Build.leaveThrough
  split
  · exact nothing
  · refine (of_inert .getState).andThen fun b => ?_
    split
    · exact nothing
    · refine (of_inert .getState).andThen fun saved => (of_inert .newBlock).andThen fun first =>
        (of_inert (.setCurrent _)).andThen fun _ => (forM_copies hcopies).andThen fun _ =>
        (of_inert (.closeWith _)).andThen fun _ => (of_inert (.setCurrent _)).andThen fun _ =>
        (of_inert (.update ?_)).andThen fun _ => nothing
      exact fun _ => ⟨rfl, rfl⟩

end KeepsOver

/-- The copies of the final bodies among some frames add nodes over some variables. -/
def Frame.Over (vars : List LocalVar) (names : List String) (frames : List Frame) : Prop :=
  ∀ c ∈ Frame.crossings frames, KeepsOver vars names c.copy

namespace Frame.Over

theorem subset (h : Frame.Over vars names frames) (hsub : names ⊆ names') :
    Frame.Over vars names' frames :=
  fun c hc => (h c hc).subset hsub

theorem handlers (h : Frame.Over vars names frames) (targets : List (String × BlockId)) :
    Frame.Over vars names (.handlers targets :: frames) := h

theorem loop (h : Frame.Over vars names frames) (label : Option String) (t e : BlockId) :
    Frame.Over vars names (.loop label t e :: frames) := h

theorem finals (h : Frame.Over vars names frames) {crossed : List Crossing}
    (hcopies : ∀ c ∈ crossed, KeepsOver vars names c.copy) :
    Frame.Over vars names (crossed.map (fun c => Frame.finalBody c.id c.copy) ++ frames) := by
  rw [Frame.Over, Frame.crossings_finals]
  exact List.forall_mem_append.mpr ⟨hcopies, h⟩

/-- A category is raised through final bodies of the frames. -/
theorem route (h : Frame.Over vars names frames) (category : String) :
    ∀ c ∈ (Frame.route frames category).1, KeepsOver vars names c.copy :=
  fun c hc => h c (Frame.mem_crossings_of_route hc)

/-- A jump leaves through final bodies of the frames. -/
theorem way (h : Frame.Over vars names frames) {label : Option String} {leaves : Bool}
    {crossed : List Crossing} {target : BlockId}
    (hway : Frame.way label leaves frames = some (crossed, target)) :
    ∀ c ∈ crossed, KeepsOver vars names c.copy :=
  fun c hc => h c (Frame.mem_crossings_of_way hway hc)

end Frame.Over

namespace KeepsOver

theorem exceptionTargets (hframes : Frame.Over vars names frames) (categories : List String)
    (routed : List (String × BlockId)) :
    KeepsOver vars names (exceptionTargets frames categories routed) := by
  induction categories generalizing routed with
  | nil => exact nothing
  | cons category rest ih =>
      refine ⟨fun hb hsees hrun => ?_⟩
      rcases run_exceptionTargets_cons hrun with ⟨-, hrest⟩ | ⟨-, first, b₁, h₁, h₂⟩
      · exact (ih routed).run hb hsees hrest
      · rw [exceptionTarget_eq] at h₁
        obtain ⟨hb₁, hscopes₁⟩ := (leaveThrough (hframes.route category) _).run hb hsees h₁
        obtain ⟨hb₂, hscopes₂⟩ := (ih _).run hb₁ (hsees.congr hscopes₁) h₂
        exact ⟨hb₂, hscopes₂.trans hscopes₁⟩

theorem emitRaising (hframes : Frame.Over vars names frames) {kind : NodeKind}
    (hkind : ∀ id, kind.Over vars id) (categories : List String) (terminal : Bool) :
    KeepsOver vars names (emitRaising frames kind categories terminal) where
  run hb hsees hrun := by
    obtain ⟨handlers, b₁, t, b₂, h₁, hblock, -, rfl⟩ := run_emitRaising hrun
    obtain ⟨hb₁, hscopes₁⟩ := (exceptionTargets hframes categories []).run hb hsees h₁
    obtain ⟨hb₂, hscopes₂⟩ : b₂.Over vars ∧ b₂.scopes = b₁.scopes := by
      rcases hblock with ⟨rfl, -⟩ | ⟨hnext, -⟩
      · exact ⟨hb₁, rfl⟩
      · exact (of_inert .nextBlock).run hb₁ (hsees.congr hscopes₁) hnext
    exact ⟨hb₂.push (hkind _) rfl rfl, hscopes₂.trans hscopes₁⟩

end KeepsOver

end

end FlowTyping
