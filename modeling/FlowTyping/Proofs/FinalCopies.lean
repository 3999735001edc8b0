import FlowTyping.Proofs.Lowering.Protected

/-!
What the copies of a final body mean: the names in a copy are resolved in the scopes of
the exit that asked for it first, which may declare more than the scopes around the
statement.
-/

namespace FlowTyping

namespace Scopes

/-- The innermost declaration of a name. -/
def find? (σ : Scopes) (name : String) : Option LocalVar :=
  σ.findSome? fun scope => scope.find? fun var => var.name = name

theorem find?_append (inner σ : Scopes) (name : String) :
    find? (inner ++ σ) name = (find? inner name).or (find? σ name) := by
  simp [find?, List.findSome?_append]

theorem resolve_append (inner σ : Scopes) (name : String) :
    resolve (inner ++ σ) name = (find? inner name).getD (resolve σ name) := by
  have h := find?_append inner σ name
  simp only [find?] at h
  simp only [resolve, find?, h]
  cases inner.findSome? fun scope => scope.find? fun var => var.name = name <;> rfl

theorem resolve_append_of_find?_none {inner σ : Scopes} {name : String}
    (h : find? inner name = none) : resolve (inner ++ σ) name = resolve σ name := by
  rw [resolve_append, h]
  rfl

/-- More scopes change what a name stands for exactly when they declare another variable
of that name. -/
theorem resolve_append_eq_iff (inner σ : Scopes) (name : String) :
    resolve (inner ++ σ) name = resolve σ name ↔
      find? inner name = none ∨ find? inner name = some (resolve σ name) := by
  rw [resolve_append]
  cases find? inner name <;> simp

end Scopes

mutual

/-- The names of variables that an expression reads. -/
def Expr.names : Expr → List String
  | .literal _ | .this => []
  | .var name => [name]
  | .field receiver _ => receiver.names
  | .call receiver _ args _ => Expr.optionNames receiver ++ Expr.listNames args
  | .new _ args => Expr.listNames args
  | .binary _ lhs rhs => lhs.names ++ rhs.names
  | .unary _ operand | .cast _ operand => operand.names
  | .ternary condition thenValue elseValue =>
      condition.names ++ thenValue.names ++ elseValue.names

def Expr.optionNames : Option Expr → List String
  | none => []
  | some e => e.names

def Expr.listNames : List Expr → List String
  | [] => []
  | e :: rest => e.names ++ Expr.listNames rest

end

/-- The names of variables that an assignment reads or writes. -/
def Target.names : Target → List String
  | .local name => [name]
  | .field receiver _ => receiver.names

mutual

/-- The variables that a statement uses, each with the scopes at its place. The final
bodies of inner statements are left out, since they stand in copies of their own. -/
def Stmt.uses : Stmt → Scopes → List (String × Scopes)
  | .localDecl _ _ init, σ => (Expr.optionNames init).map (·, σ)
  | .assign target value, σ => (target.names ++ value.names).map (·, σ)
  | .expr value, σ | .assert value, σ => value.names.map (·, σ)
  | .ifElse condition thenBody elseBody, σ =>
      condition.names.map (·, σ) ++ Stmt.listUses thenBody ([] :: σ) ++
        Stmt.elseUses elseBody σ
  | .whileLoop _ condition body, σ | .doWhile _ body condition, σ =>
      condition.names.map (·, σ) ++ Stmt.listUses body ([] :: σ)
  | .forLoop _ init condition update body, σ =>
      let σ' := Stmt.scopesAfterAll init ([] :: σ)
      Stmt.listUses init ([] :: σ) ++ (Expr.optionNames condition).map (·, σ') ++
        Stmt.listUses body ([] :: σ') ++ Stmt.listUses update σ'
  | .breakLoop _, _ | .continueLoop _, _ => []
  | .returnValue value, σ | .throw _ value, σ => (Expr.optionNames value).map (·, σ)
  | .tryCatch body handlers _, σ =>
      Stmt.listUses body ([] :: σ) ++ Stmt.handlerUses handlers σ

def Stmt.listUses : List Stmt → Scopes → List (String × Scopes)
  | [], _ => []
  | s :: rest, σ => s.uses σ ++ Stmt.listUses rest (s.scopesAfter σ)

def Stmt.elseUses : Option (List Stmt) → Scopes → List (String × Scopes)
  | none, _ => []
  | some body, σ => Stmt.listUses body ([] :: σ)

def Stmt.handlerUses : List Handler → Scopes → List (String × Scopes)
  | [], _ => []
  | .clause _ binding body :: rest, σ =>
      Stmt.listUses body (Handler.bodyScopes binding σ) ++ Stmt.handlerUses rest σ

end

/-- Some node reads, declares or assigns to a variable. -/
def Layout.Mentions (D : Layout) (var : LocalVar) : Prop :=
  ∃ (id : Nat) (n : Node), D.nodes[id]? = some n ∧ n.kind.localVar? = some var

theorem Layout.Emits.mentions {D : Layout} {p q : Option Point} {kind : NodeKind} {id : NodeId}
    {var : LocalVar} (h : D.Emits p kind id q) (hvar : kind.localVar? = some var) :
    D.Mentions var := by
  obtain ⟨_, _, _, n, _, _, _, hn, hkind, _⟩ := h
  exact ⟨id, n, hn, hkind ▸ hvar⟩

/-- The code of an expression has a node for each variable that the expression reads. -/
structure Placing.MentionsAll (place : Placing) (names : List String) : Prop where
  value : ∀ {D : Layout} {σ : Scopes} {p q : Option Point} {id : NodeId},
    place.value D σ p id q → ∀ name ∈ names, D.Mentions (Scopes.resolve σ name)
  test : ∀ {D : Layout} {σ : Scopes} {p : Option Point} {t e : BlockId},
    place.test D σ p t e → ∀ name ∈ names, D.Mentions (Scopes.resolve σ name)

namespace Placing.MentionsAll

variable {names names' names'' : List String} {place place' place'' : Placing}

theorem ofValue {value : Layout → Scopes → Option Point → NodeId → Option Point → Prop}
    (h : ∀ {D : Layout} {σ : Scopes} {p q : Option Point} {id : NodeId},
      value D σ p id q → ∀ name ∈ names, D.Mentions (Scopes.resolve σ name)) :
    (Placing.ofValue value).MentionsAll names where
  value := h
  test := fun ⟨_, _, hvalue, _⟩ => h hvalue

theorem shortCircuit (op : BinOp) (h : place.MentionsAll names)
    (h' : place'.MentionsAll names') :
    (Placing.shortCircuit op place place').MentionsAll (names ++ names') where
  value := by
    rintro D σ p q id ⟨_, _, _, _, _, _, hl, _, hr, _⟩ name hname
    exact (List.mem_append.mp hname).elim (h.value hl name) (h'.value hr name)
  test := by
    rintro D σ p t e ⟨_, hl, hr⟩ name hname
    rcases List.mem_append.mp hname with hname | hname
    · split at hl
      · exact h.test hl name hname
      · exact h.test hl name hname
    · exact h'.test hr name hname

theorem negation (h : place.MentionsAll names) : place.negation.MentionsAll names where
  value := fun ⟨_, _, hvalue, _⟩ => h.value hvalue
  test := fun htest => h.test htest

theorem ternary (h : place.MentionsAll names) (h' : place'.MentionsAll names')
    (h'' : place''.MentionsAll names'') :
    (Placing.ternary place place' place'').MentionsAll (names ++ names' ++ names'') where
  value := by
    rintro D σ p q id ⟨_, _, _, _, _, _, _, hc, hl, _, hr, _⟩ name hname
    rcases List.mem_append.mp hname with hname | hname
    · exact (List.mem_append.mp hname).elim (h.test hc name) (h'.value hl name)
    · exact h''.value hr name hname
  test := by
    rintro D σ p t e ⟨_, _, hc, hl, hr⟩ name hname
    rcases List.mem_append.mp hname with hname | hname
    · exact (List.mem_append.mp hname).elim (h.test hc name) (h'.test hl name)
    · exact h''.test hr name hname

end Placing.MentionsAll

mutual

theorem placeExpr_mentions (regions : List Region) :
    (e : Expr) → (placeExpr regions e).MentionsAll e.names
  | .literal _ | .this => .ofValue fun _ => by simp [Expr.names]
  | .var name => .ofValue fun h => by
      simpa [Expr.names] using h.mentions rfl
  | .field receiver _ => .ofValue fun ⟨_, _, h, _⟩ =>
      (placeExpr_mentions regions receiver).value h
  | .call receiver _ args _ => .ofValue fun ⟨_, _, _, _, _, hr, has, _⟩ name hname =>
      (List.mem_append.mp hname).elim (placeReceiver_mentions regions receiver hr name)
        (placeArgs_mentions regions args has name)
  | .new _ args => .ofValue fun ⟨_, _, _, has, _⟩ => placeArgs_mentions regions args has
  | .binary op lhs rhs => by
      rw [placeExpr, Expr.names]
      split
      · exact .shortCircuit op (placeExpr_mentions regions lhs) (placeExpr_mentions regions rhs)
      · exact .ofValue fun ⟨_, _, _, _, hl, hr, _⟩ name hname =>
          (List.mem_append.mp hname).elim ((placeExpr_mentions regions lhs).value hl name)
            ((placeExpr_mentions regions rhs).value hr name)
  | .unary op operand => by
      rw [placeExpr, Expr.names]
      split
      · exact .negation (placeExpr_mentions regions operand)
      · exact .ofValue fun ⟨_, _, h, _⟩ => (placeExpr_mentions regions operand).value h
  | .ternary condition thenValue elseValue =>
      .ternary (placeExpr_mentions regions condition) (placeExpr_mentions regions thenValue)
        (placeExpr_mentions regions elseValue)
  | .cast _ operand => .ofValue fun ⟨_, _, h, _⟩ => (placeExpr_mentions regions operand).value h

theorem placeReceiver_mentions (regions : List Region) : (e : Option Expr) →
    ∀ {D : Layout} {σ : Scopes} {p q : Option Point} {r : Option NodeId},
      placeReceiver regions e D σ p r q → ∀ name ∈ Expr.optionNames e,
        D.Mentions (Scopes.resolve σ name)
  | none, _, _, _, _, _, _ => by simp [Expr.optionNames]
  | some e, _, _, _, _, _, ⟨_, _, h⟩ => (placeExpr_mentions regions e).value h

theorem placeArgs_mentions (regions : List Region) : (args : List Expr) →
    ∀ {D : Layout} {σ : Scopes} {p q : Option Point} {ids : List NodeId},
      placeArgs regions args D σ p ids q → ∀ name ∈ Expr.listNames args,
        D.Mentions (Scopes.resolve σ name)
  | [], _, _, _, _, _, _ => by simp [Expr.listNames]
  | e :: rest, _, _, _, _, _, ⟨_, _, _, _, he, hrest⟩ => fun name hname =>
      (List.mem_append.mp hname).elim ((placeExpr_mentions regions e).value he name)
        (placeArgs_mentions regions rest hrest name)

end

/-- Every use that is listed has a node for its variable. -/
def Layout.MentionsUses (D : Layout) (uses : List (String × Scopes)) : Prop :=
  ∀ use ∈ uses, D.Mentions (use.2.resolve use.1)

namespace Layout.MentionsUses

variable {D : Layout} {uses uses' : List (String × Scopes)}

theorem nil : D.MentionsUses [] := by simp [MentionsUses]

theorem append (h : D.MentionsUses uses) (h' : D.MentionsUses uses') :
    D.MentionsUses (uses ++ uses') :=
  fun use hmem => (List.mem_append.mp hmem).elim (h use) (h' use)

theorem ofNames {names : List String} {σ : Scopes}
    (h : ∀ name ∈ names, D.Mentions (Scopes.resolve σ name)) :
    D.MentionsUses (names.map (·, σ)) := by
  intro use hmem
  obtain ⟨name, hname, rfl⟩ := List.mem_map.mp hmem
  exact h name hname

end Layout.MentionsUses

open Layout.MentionsUses

theorem placeAssign_mentions {regions : List Region} {target : Target} {value : Expr}
    {D : Layout} {σ : Scopes} {p q : Option Point} (h : placeAssign regions target value D σ p q) :
    ∀ name ∈ target.names ++ value.names, D.Mentions (Scopes.resolve σ name) := by
  intro name hname
  cases target with
  | «local» target =>
      obtain ⟨_, _, _, hvalue, hemits⟩ := h
      rcases List.mem_append.mp hname with hname | hname
      · rw [List.mem_singleton.mp hname]
        exact hemits.mentions rfl
      · exact (placeExpr_mentions regions value).value hvalue name hname
  | field receiver _ =>
      obtain ⟨_, _, _, _, _, hreceiver, hvalue, _⟩ := h
      exact (List.mem_append.mp hname).elim
        ((placeExpr_mentions regions receiver).value hreceiver name)
        ((placeExpr_mentions regions value).value hvalue name)

mutual

theorem placeStmt_mentions (W : CopyLaw) : (s : Stmt) → ∀ {regions : List Region}
    {D : Layout} {σ : Scopes} {p q : Option Point}, placeStmt W regions s D σ p q →
    D.MentionsUses (s.uses σ)
  | .localDecl _ _ init, regions, _, _, _, _, ⟨_, _, _, _, h, _⟩ =>
      ofNames (placeReceiver_mentions regions init h)
  | .assign _ _, _, _, _, _, _, h => ofNames (placeAssign_mentions h)
  | .expr value, regions, _, _, _, _, ⟨_, h⟩ =>
      ofNames ((placeExpr_mentions regions value).value h)
  | .ifElse condition thenBody elseBody, regions, _, _, _, _,
      ⟨_, _, _, _, _, hcondition, hthen, _, helse, _⟩ => by
      rw [Stmt.uses]
      exact ((ofNames ((placeExpr_mentions regions condition).test hcondition)).append
        (placeStmts_mentions W thenBody hthen)).append (placeElse_mentions W elseBody helse)
  | .whileLoop _ condition body, regions, _, _, _, _,
      ⟨_, _, _, _, _, _, _, hcondition, hbody, _⟩ => by
      rw [Stmt.uses]
      exact (ofNames ((placeExpr_mentions regions condition).test hcondition)).append
        (placeStmts_mentions W body hbody)
  | .doWhile _ body condition, regions, _, _, _, _,
      ⟨_, _, _, _, _, _, _, hbody, _, hcondition, _⟩ => by
      rw [Stmt.uses]
      exact (ofNames ((placeExpr_mentions regions condition).test hcondition)).append
        (placeStmts_mentions W body hbody)
  | .forLoop _ init condition update body, regions, _, _, _, _,
      ⟨_, _, _, _, _, _, _, _, hinit, _, _, hcondition, hbody, _, hupdate, _⟩ => by
      rw [Stmt.uses]
      refine (((placeStmts_mentions W init hinit).append (ofNames ?_)).append
        (placeStmts_mentions W body hbody)).append (placeStmts_mentions W update hupdate)
      cases condition with
      | none => simp [Expr.optionNames]
      | some condition => exact (placeExpr_mentions regions condition).test hcondition
  | .breakLoop _, _, _, _, _, _, _ | .continueLoop _, _, _, _, _, _, _ => by
      rw [Stmt.uses]
      exact nil
  | .returnValue value, regions, _, _, _, _, ⟨_, _, _, _, h, _⟩ =>
      ofNames (placeReceiver_mentions regions value h)
  | .throw _ value, regions, _, _, _, _, ⟨_, _, _, _, h, _⟩ =>
      ofNames (placeReceiver_mentions regions value h)
  | .tryCatch body handlers _, _, _, _, _, _, ⟨_, _, _, hnames, hbody, _, hhandlers, _⟩ => by
      have hlength := congrArg List.length hnames
      rw [Stmt.uses]
      exact (placeStmts_mentions W body hbody).append
        (placeHandlers_mentions W handlers (by simpa using hlength) hhandlers)
  | .assert condition, regions, _, _, _, _, ⟨_, _, _, _, h, _⟩ =>
      ofNames ((placeExpr_mentions regions condition).test h)

theorem placeStmts_mentions (W : CopyLaw) : (stmts : List Stmt) → ∀ {regions : List Region}
    {D : Layout} {σ : Scopes} {p q : Option Point}, placeStmts W regions stmts D σ p q →
    D.MentionsUses (Stmt.listUses stmts σ)
  | [], _, _, _, _, _, _ => by
      rw [Stmt.listUses]
      exact nil
  | s :: rest, _, _, _, _, _, ⟨_, hs, hrest⟩ => by
      rw [Stmt.listUses]
      exact (placeStmt_mentions W s hs).append (placeStmts_mentions W rest hrest)

theorem placeElse_mentions (W : CopyLaw) : (stmts : Option (List Stmt)) →
    ∀ {regions : List Region} {D : Layout} {σ : Scopes} {p q : Option Point},
    placeElse W regions stmts D σ p q → D.MentionsUses (Stmt.elseUses stmts σ)
  | none, _, _, _, _, _, _ => by
      rw [Stmt.elseUses]
      exact nil
  | some body, _, _, _, _, _, h => placeStmts_mentions W body h

theorem placeHandlers_mentions (W : CopyLaw) : (handlers : List Handler) →
    ∀ {regions : List Region} {D : Layout} {σ : Scopes} {way : Layout → Option Point → Prop}
      {blocks : List BlockId}, blocks.length = handlers.length →
    placeHandlers W regions way handlers D σ blocks →
    D.MentionsUses (Stmt.handlerUses handlers σ)
  | [], _, _, _, _, _, _, _ => by
      rw [Stmt.handlerUses]
      exact nil
  | .clause _ _ _ :: _, _, _, _, _, [], hlength, _ => nomatch hlength
  | .clause _ binding body :: rest, _, _, _, _, _ :: blocks, hlength, h => by
      obtain ⟨⟨_, _, -, hbody, -⟩, hrest⟩ := h
      rw [Stmt.handlerUses]
      exact (placeStmts_mentions W body hbody).append
        (placeHandlers_mentions W rest (Nat.succ.inj hlength) hrest)

end

/-- The law of copies: the code of a copy mentions the variables that its names stand for in
the scopes in which it was made. These are the scopes around the statement and what the
exit that asked first has declared inside it, so a name that the body does not declare
itself stands for the variable of the enclosing scopes exactly when no other variable of
that name was declared in between. -/
def ResolvesWhereMade : CopyLaw := fun σ body D σ' _ _ =>
  ∃ inner, σ' = inner ++ σ ∧ ∀ name own,
    (name, own ++ σ') ∈ Stmt.listUses body ([] :: σ') → Scopes.find? own name = none →
    D.Mentions (Scopes.resolve (own ++ σ') name) ∧
    (Scopes.resolve (own ++ σ') name = Scopes.resolve σ name ↔
      Scopes.find? inner name = none ∨ Scopes.find? inner name = some (Scopes.resolve σ name))

theorem resolvesWhereMade_holds : ResolvesWhereMade.Holds := by
  rintro regions σ body D _ p q hplaced ⟨inner, rfl⟩
  refine ⟨inner, rfl, fun name own huse hown => ?_⟩
  refine ⟨placeStmts_mentions _ body hplaced _ huse, ?_⟩
  rw [Scopes.resolve_append_of_find?_none hown]
  exact Scopes.resolve_append_eq_iff inner σ name

/-- Every copy of every final body of a unit obeys the law of copies. -/
theorem ProgramUnit.final_copies_resolve {u : ProgramUnit} {g : FlowGraph}
    (h : u.lower = .ok g) :
    ∃ b : Building, Build.finish u.name b = .ok g ∧ u.Laid ResolvesWhereMade b.layout := by
  obtain ⟨b, hfinish, hlaid, -⟩ := ProgramUnit.lower_laid resolvesWhereMade_holds h
  exact ⟨b, hfinish, hlaid⟩

/-- A unit that may return from a place where its protected region has declared a variable
of the name that its final body reads. -/
def shadowingUnit : ProgramUnit where
  name := "shadowing"
  params := [⟨"c", none⟩, ⟨"x", some "A"⟩]
  returnQualifier := none
  body := [.tryCatch
    [.ifElse (.var "c") [.localDecl "x" (some "B") none, .returnValue none] none] []
    (some [.expr (.var "x")])]

theorem shadowingUnit_final_copies : ∃ g, shadowingUnit.lower = .ok g ∧
    ∃ b : Building, Build.finish shadowingUnit.name b = .ok g ∧
      shadowingUnit.Laid ResolvesWhereMade b.layout := by
  have hlower : ∃ g, shadowingUnit.lower = .ok g := by
    cases h : shadowingUnit.lower with
    | ok g => exact ⟨g, rfl⟩
    | error e =>
        have : shadowingUnit.lower.isOk = true := by decide +kernel
        rw [h] at this
        cases this
  obtain ⟨g, hg⟩ := hlower
  exact ⟨g, hg, ProgramUnit.final_copies_resolve hg⟩

/-- Its final body is one read of `x`, outside of which there is none, and its copies read
two different variables. -/
theorem shadowingUnit_copies_disagree : shadowingUnit.lower.toOption.map (fun g =>
    g.nodes.toList.filterMap fun n => match n.kind with
      | .localRead var => if var.name = "x" then some var else none
      | _ => none) =
    some [⟨"x", some "B", .local⟩, ⟨"x", some "A", .parameter⟩] := by
  decide +kernel

end FlowTyping
