import FlowTyping.Proofs.Control.Expressions

/-!
The code of statements does what the statements mean.
-/

namespace FlowTyping

open Run Layout

namespace Layout

variable {D : Layout} {regions : List Region} {departure : Departure} {p : Point}
  {q : Option Point} {m : Run Unit}

/-- A way out of a loop is a jump to one of its targets or a way out of the regions
around it. -/
theorem Departing.of_loop {scopes : Scopes} {label : Option String}
    {continueTarget breakTarget : BlockId}
    (h : D.Departing (.loop scopes label continueTarget breakTarget :: regions) departure p) :
    match departure with
    | .continued jump => if addresses jump label then D.Flows (some p) (.startOf continueTarget)
        else D.Departing regions departure p
    | .broke jump => if addresses jump label then D.Flows (some p) (.startOf breakTarget)
        else D.Departing regions departure p
    | _ => D.Departing regions departure p := by
  obtain ⟨crossed, target, scopes', hway, hleads⟩ := h
  cases departure with
  | returned => exact ⟨crossed, target, scopes', hway, hleads⟩
  | raised category => exact ⟨crossed, target, scopes', hway, hleads⟩
  | broke jump =>
      simp only [Region.way, Region.jumped] at hway
      by_cases haddresses : jump.isNone || decide (label = jump)
      · rw [if_pos haddresses] at hway
        cases hway
        simp only [addresses, haddresses, if_true]
        exact hleads
      · rw [if_neg haddresses] at hway
        simp only [addresses, haddresses]
        exact ⟨crossed, target, scopes', hway, hleads⟩
  | continued jump =>
      simp only [Region.way, Region.jumped] at hway
      by_cases haddresses : jump.isNone || decide (label = jump)
      · rw [if_pos haddresses] at hway
        cases hway
        simp only [addresses, haddresses, if_true]
        exact hleads
      · rw [if_neg haddresses] at hway
        simp only [addresses, haddresses]
        exact ⟨crossed, target, scopes', hway, hleads⟩

/-- A way out of the region of a final body comes through a copy of it first. -/
theorem Departing.of_finalBody {final : FinalCopy}
    (h : D.Departing (.finalBody final :: regions) departure p) :
    ∃ scopes q, final.place D scopes (some p) q ∧
      ∀ y, q = some y → D.Departing regions departure y := by
  obtain ⟨crossed, target, scopes, hway, hleads⟩ := h
  rw [Region.way_finalBody, Option.map_eq_some_iff] at hway
  obtain ⟨⟨crossed', target'⟩, hway, hfound⟩ := hway
  cases hfound
  obtain ⟨q, hplace, hleads⟩ := hleads
  exact ⟨scopes, q, hplace, fun y hy => ⟨crossed', target', scopes, hway, hy ▸ hleads⟩⟩

/-- A way out of a protected region that its first clause does not catch. -/
theorem Departing.of_handlers_cons {scopes : Scopes} {category exception : String}
    {target : BlockId} {targets : List (String × BlockId)}
    (h : D.Departing (.handlers scopes ((exception, target) :: targets) :: regions)
      (.raised category) p) :
    if exception = category || exception = catchAll then D.Flows (some p) (.startOf target)
    else D.Departing (.handlers scopes targets :: regions) (.raised category) p := by
  obtain ⟨crossed, target', scopes', hway, hleads⟩ := h
  simp only [Region.way, Region.caught, List.find?_cons] at hway
  cases hnames : decide (exception = category) || decide (exception = catchAll) with
  | true =>
      rw [hnames] at hway
      cases hway
      rw [if_pos rfl]
      exact hleads
  | false =>
      rw [hnames] at hway
      rw [if_neg nofun]
      exact ⟨crossed, target', scopes', hway, hleads⟩

theorem Departing.of_handlers_nil {scopes : Scopes}
    (h : D.Departing (.handlers scopes [] :: regions) departure p) :
    D.Departing regions departure p := by
  obtain ⟨crossed, target, scopes', hway, hleads⟩ := h
  exact ⟨crossed, target, scopes', by cases departure <;> exact hway, hleads⟩

theorem Departing.of_handlers {scopes : Scopes} {targets : List (String × BlockId)}
    (h : D.Departing (.handlers scopes targets :: regions) departure p)
    (hraised : ∀ category, departure ≠ .raised category) : D.Departing regions departure p := by
  obtain ⟨crossed, target, scopes', hway, hleads⟩ := h
  refine ⟨crossed, target, scopes', ?_, hleads⟩
  cases departure with
  | raised category => exact absurd rfl (hraised category)
  | _ => exact hway

/-- Where a round of a loop ends: where control comes back to its head, or past the loop. -/
abbrev Rounds (D : Layout) (regions : List Region) (head exitBlock : BlockId) :
    Except Departure Bool → Point → Prop :=
  D.Arrives regions fun again y =>
    if again then D.Flows (some y) (.startOf head) else y = .startOf exitBlock

namespace Realises

theorem inLoop {scopes : Scopes} {label : Option String} {continueTarget breakTarget : BlockId}
    (h : D.Realises p m (D.Ends (.loop scopes label continueTarget breakTarget :: regions) q))
    (hflow : D.Flows q (.startOf continueTarget)) :
    D.Realises p (Run.inLoop label m) (D.Decides regions continueTarget breakTarget) := by
  refine .handle h ?_
  rintro (departure | ⟨⟩) y hends
  · have hdeparting := Departing.of_loop hends
    cases departure with
    | returned => exact .leave hdeparting
    | raised category => exact .leave hdeparting
    | broke jump =>
        dsimp only at hdeparting ⊢
        split at hdeparting
        · rw [if_pos ‹_›]
          exact .flow hdeparting (.pure rfl)
        · rw [if_neg ‹_›]
          exact .leave hdeparting
    | continued jump =>
        dsimp only at hdeparting ⊢
        split at hdeparting
        · rw [if_pos ‹_›]
          exact .flow hdeparting (.pure rfl)
        · rw [if_neg ‹_›]
          exact .leave hdeparting
  · exact .flow (by rwa [← show q = some y from hends]) (.pure rfl)

theorem round {m : Run Bool} {head exitBlock : BlockId}
    (h : D.Realises p m (D.Decides regions head exitBlock)) :
    D.Realises p m (D.Rounds regions head exitBlock) :=
  h.after_mono fun
    | true, _, hy => ⟨_, .stay _, hy ▸ .stay _⟩
    | false, _, hy => ⟨_, .stay _, hy⟩

theorem andAlso {m m' : Run Bool} {head next exitBlock : BlockId}
    (h : D.Realises p m (D.Decides regions next exitBlock))
    (h' : D.Realises (.startOf next) m' (D.Rounds regions head exitBlock)) :
    D.Realises p (Run.andAlso m m') (D.Rounds regions head exitBlock) := by
  refine .bind h ?_
  rintro (_ | _) y rfl
  · exact .pure rfl
  · exact h'

theorem rounds {head first exitBlock : BlockId} {round : Run Bool}
    (h : D.Realises (.startOf first) round (D.Rounds regions head exitBlock))
    (hsilent : D.Silent (.startOf head) (.startOf first)) :
    D.Realises (.startOf head) round.loop (D.Ends regions (some (.startOf exitBlock))) :=
  .loop hsilent (h.after_mono fun
    | true, y, hy => ⟨y, .stay y, hy⟩
    | false, y, hy => ⟨y, .stay y, congrArg some hy.symm⟩)

theorem catching {scopes : Scopes} {targets : List (String × BlockId)}
    {clauses : String → Run Unit} {after : Unit → Point → Prop}
    (h : D.Realises p m (D.Ends (.handlers scopes targets :: regions) q))
    (hafter : ∀ y, q = some y → after () y)
    (hclauses : ∀ category y,
      D.Departing (.handlers scopes targets :: regions) (.raised category) y →
      D.Realises y (clauses category) (D.Arrives regions after)) :
    D.Realises p (Run.catching m clauses) (D.Arrives regions after) := by
  refine .handle h ?_
  rintro (departure | ⟨⟩) y hends
  · cases departure with
    | raised category => exact hclauses category y hends
    | returned => exact .leave (hends.of_handlers nofun)
    | broke jump => exact .leave (hends.of_handlers nofun)
    | continued jump => exact .leave (hends.of_handlers nofun)
  · exact .pure (hafter y hends)

theorem depart {α : Type} {after : α → Point → Prop} {crossed : List FinalCopy}
    {target : BlockId} (hway : Region.way regions departure = some (crossed, target))
    (h : D.Departs (some p) crossed target) :
    D.Realises p (Run.leave departure : Run α) (D.Arrives regions after) := by
  obtain ⟨first, hleaves, hflow⟩ := h
  exact .flow hflow (.leave (.of_leaves hway hleaves))

theorem finally_none {after : BlockId}
    (h : D.Realises p m (D.Arrives regions fun _ y => D.Departs (some y) [] after)) :
    D.Realises p (Run.finally_ m (Pure.pure ())) (D.Ends regions (some (.startOf after))) := by
  refine .handle h ?_
  rintro (departure | ⟨⟩) y hends
  · exact .handle_give (.leave hends)
  · refine .handle_give ?_
    obtain ⟨first, ⟨-, rfl⟩ | ⟨scopes, -, hflow'⟩, hflow⟩ := hends
    · exact .flow hflow (.pure rfl)
    · exact .flow hflow (.flow hflow' (.pure rfl))

theorem finally_ {final : FinalCopy} {copy : Run Unit} {after : BlockId}
    (h : D.Realises p m (D.Arrives (.finalBody final :: regions) fun _ y =>
      D.Departs (some y) [final] after))
    (hcopy : ∀ scopes y q, final.place D scopes (some y) q →
      D.Realises y copy (D.Ends regions q)) :
    D.Realises p (Run.finally_ m copy) (D.Ends regions (some (.startOf after))) := by
  refine .handle h ?_
  rintro (departure | ⟨⟩) y hends
  · obtain ⟨scopes, q, hplace, hdeparting⟩ := Departing.of_finalBody hends
    refine .handle (hcopy scopes y q hplace) ?_
    rintro (departure' | ⟨⟩) z hz
    · exact .leave hz
    · exact .leave (hdeparting z hz)
  · obtain ⟨first, hleaves, hflow⟩ := hends
    rcases hleaves with ⟨hnil, -⟩ | ⟨scopes, -, q, hplace, hflow'⟩
    · cases hnil
    refine .flow hflow (.handle (hcopy scopes _ q hplace) ?_)
    rintro (departure' | ⟨⟩) z hz
    · exact .leave hz
    · exact .flow (by rwa [← show q = some z from hz]) (.pure rfl)

end Realises

end Layout

section

variable {regions : List Region} {D : Layout} {σ : Scopes} {p : Point} {q : Option Point}

theorem placeDecl_does {var : LocalVar} {init : Option Expr}
    (h : placeDecl regions var init D σ (some p) q) :
    D.Realises p (Stmt.localDecl var.name var.declared init).runs (D.Ends regions q) := by
  obtain ⟨value, p₁, id, p₂, hinit, hemits, hassign⟩ := h
  rw [Stmt.runs]
  refine .bind (placeReceiver_does regions init hinit) ?_
  rintro - y rfl
  refine .bind hemits.realises ?_
  rintro - y rfl
  cases init with
  | none =>
      obtain ⟨rfl, -⟩ := hinit
      exact .pure hassign
  | some init =>
      obtain ⟨r, rfl, -⟩ := hinit
      obtain ⟨id', hemits'⟩ := hassign
      exact hemits'.realises

theorem placeAssign_does {target : Target} {value : Expr}
    (h : placeAssign regions target value D σ (some p) q) :
    D.Realises p (Stmt.assign target value).runs (D.Ends regions q) := by
  cases target with
  | «local» name =>
      obtain ⟨source, p₁, id, hvalue, hemits⟩ := h
      rw [Stmt.runs]
      refine .bind ((placeExpr_does regions value).value hvalue) ?_
      rintro - y rfl
      have hdoes : D.Realises y _ (D.Ends regions q) := hemits.realises
      rwa [NodeKind.operation, Scopes.resolve_name] at hdoes
  | field receiver name =>
      obtain ⟨r, p₁, source, p₂, id, hreceiver, hvalue, hemits⟩ := h
      rw [Stmt.runs]
      refine .bind ((placeExpr_does regions receiver).value hreceiver) ?_
      rintro - y rfl
      refine .bind ((placeExpr_does regions value).value hvalue) ?_
      rintro - y rfl
      exact hemits.realises

theorem placeAssert_does {condition : Expr} (h : placeAssert regions condition D σ (some p) q) :
    D.Realises p (Stmt.assert condition).runs (D.Ends regions q) := by
  obtain ⟨holds, fails, handlers, id, htest, hroutes, hraises, rfl⟩ := h
  rw [Stmt.runs]
  refine .bind ((placeExpr_does regions condition).test htest) ?_
  rintro outcome y rfl
  cases outcome with
  | true => exact .pure rfl
  | false =>
      exact (hraises.realises (by simp) hroutes).after_mono fun _ _ hy => nomatch hy

theorem placeBinding_does {binding : Option String}
    (h : match binding with
      | some name => ∃ id, D.Emits (some p) (.localDecl ⟨name, none, .local⟩) id q
      | none => q = some p) :
    D.Realises p (Handler.binds binding) (D.Ends regions q) := by
  cases binding with
  | none => exact .pure h
  | some name =>
      obtain ⟨id, hemits⟩ := h
      exact hemits.realises

end

mutual

theorem placeStmt_does (W : CopyLaw) : (s : Stmt) → ∀ {regions : List Region} {D : Layout}
    {σ : Scopes} {p : Point} {q : Option Point}, placeStmt W regions s D σ (some p) q →
    D.Realises p s.runs (D.Ends regions q)
  | .localDecl _ _ _, _, _, _, _, _, h => placeDecl_does h
  | .assign _ _, _, _, _, _, _, h => placeAssign_does h
  | .expr value, regions, _, _, _, _, ⟨_, h⟩ => (placeExpr_does regions value).value h
  | .ifElse condition thenBody elseBody, regions, _, _, _, _,
      ⟨_, _, _, _, _, htest, hthen, hflow₁, helse, hflow₂, rfl⟩ => by
      rw [Stmt.runs]
      refine .bind ((placeExpr_does regions condition).test htest) ?_
      rintro outcome y rfl
      cases outcome with
      | true => exact (placeStmts_does W thenBody hthen).flowsTo hflow₁
      | false => exact (placeElse_does W elseBody helse).flowsTo hflow₂
  | .whileLoop _ condition body, regions, _, _, _, _,
      ⟨_, _, _, _, _, hflow, hsilent, htest, hbody, hback, rfl⟩ => by
      rw [Stmt.runs]
      exact .flow hflow ((((placeExpr_does regions condition).test htest).andAlso
        ((placeStmts_does W body hbody).inLoop hback).round).rounds hsilent)
  | .doWhile _ body condition, regions, _, _, _, _,
      ⟨_, _, _, _, _, hflow, hsilent, hbody, hback, htest, rfl⟩ => by
      rw [Stmt.runs]
      exact .flow hflow ((((placeStmts_does W body hbody).inLoop hback).andAlso
        ((placeExpr_does regions condition).test htest).round).rounds hsilent)
  | .forLoop _ init condition update body, regions, D, _, _, _,
      ⟨_, testBlock, bodyBlock, _, exitBlock, _, _, _, hinit, hflow, hsilent, htest, hbody, hnext,
        hupdate, hback, rfl⟩ => by
      rw [Stmt.runs]
      have htests : D.Realises (.startOf testBlock) (Expr.optionTests condition)
          (D.Decides regions bodyBlock exitBlock) := by
        cases condition with
        | some condition => exact (placeExpr_does regions condition).test htest
        | none => exact .flow htest (.pure rfl)
      refine .bind (placeStmts_does W init hinit) ?_
      rintro - y rfl
      refine .flow hflow ((htests.andAlso
        (((placeStmts_does W body hbody).inLoop hnext).andAlso ?_)).rounds hsilent)
      refine .bind (placeStmts_does W update hupdate) ?_
      rintro - y rfl
      exact .pure hback
  | .breakLoop label, _, _, _, _, _, ⟨_, _, hway, hdeparts, rfl⟩ => by
      rw [Stmt.runs]
      exact .depart hway hdeparts
  | .continueLoop label, _, _, _, _, _, ⟨_, _, hway, hdeparts, rfl⟩ => by
      rw [Stmt.runs]
      exact .depart hway hdeparts
  | .returnValue value, regions, _, _, _, _, ⟨_, _, _, _, hvalue, hemits, hdeparts, rfl⟩ => by
      rw [Stmt.runs]
      refine .bind (placeReceiver_does regions value hvalue) ?_
      rintro - y rfl
      refine .bind hemits.realises ?_
      rintro - y rfl
      exact .depart rfl hdeparts
  | .throw exception value, regions, _, _, _, _, ⟨_, _, _, _, hvalue, hroutes, hraises⟩ => by
      rw [Stmt.runs]
      refine .bind (placeReceiver_does regions value hvalue) ?_
      rintro - y rfl
      exact hraises.realises (by simp) hroutes
  | .tryCatch body handlers finalBody, regions, D, σ, p, _,
      ⟨after, targets, p₁, hnames, hbody, hdeparts, hhandlers, rfl⟩ => by
      rw [Stmt.runs]
      have hcaught : D.Realises p
          (Run.catching (Stmt.listRuns body) (Stmt.catches handlers))
          (D.Arrives ((placeFinal W regions σ finalBody).map Region.finalBody ++ regions)
            fun _ y => D.Departs (some y) (placeFinal W regions σ finalBody) after) :=
        (placeStmts_does W body hbody).catching (fun y hy => hy ▸ hdeparts)
          fun category y hy => placeHandlers_does W handlers hnames hhandlers hy
      cases finalBody with
      | none => exact hcaught.finally_none
      | some finalBody =>
          exact hcaught.finally_ fun _ _ _ hplace => placeStmts_does W finalBody hplace.1
  | .assert _, _, _, _, _, _, h => placeAssert_does h

theorem placeStmts_does (W : CopyLaw) : (stmts : List Stmt) → ∀ {regions : List Region}
    {D : Layout} {σ : Scopes} {p : Point} {q : Option Point},
    placeStmts W regions stmts D σ (some p) q →
    D.Realises p (Stmt.listRuns stmts) (D.Ends regions q)
  | [], _, _, _, _, _, h => .pure h
  | s :: rest, _, _, _, _, _, ⟨_, hs, hrest⟩ => by
      rw [Stmt.listRuns]
      refine .bind (placeStmt_does W s hs) ?_
      rintro - y rfl
      exact placeStmts_does W rest hrest

theorem placeElse_does (W : CopyLaw) : (stmts : Option (List Stmt)) →
    ∀ {regions : List Region} {D : Layout} {σ : Scopes} {p : Point} {q : Option Point},
    placeElse W regions stmts D σ (some p) q →
    D.Realises p (Stmt.optionRuns stmts) (D.Ends regions q)
  | none, _, _, _, _, _, h => .pure h
  | some body, _, _, _, _, _, h => placeStmts_does W body h

theorem placeHandlers_does (W : CopyLaw) : (handlers : List Handler) →
    ∀ {regions : List Region} {leave : Layout → Option Point → Prop} {D : Layout} {σ σ' : Scopes}
      {targets : List (String × BlockId)} {category : String} {p : Point},
    targets.map Prod.fst = handlers.map Handler.exception →
    placeHandlers W regions leave handlers D σ (targets.map Prod.snd) →
    D.Departing (.handlers σ' targets :: regions) (.raised category) p →
    D.Realises p (Stmt.catches handlers category)
      (D.Arrives regions fun _ y => leave D (some y))
  | [], _, _, _, _, _, [], _, _, _, _, h => .leave (.of_handlers_nil h)
  | .clause exception binding body :: rest, _, _, _, _, _, (_, target) :: targets, category, _,
      hcategories, ⟨⟨p₁, p₂, hbinding, hbody, hleave⟩, hrest⟩, h => by
      obtain ⟨rfl, hothers⟩ := List.cons.inj hcategories
      have hcaught := Departing.of_handlers_cons h
      rw [Stmt.catches]
      split at hcaught
      · rw [if_pos ‹_›]
        refine .flow hcaught (.bind (placeBinding_does hbinding) ?_)
        rintro - y rfl
        exact (placeStmts_does W body hbody).after_mono fun _ z hz =>
          ⟨z, .stay z, hz ▸ hleave⟩
      · rw [if_neg ‹_›]
        exact placeHandlers_does W rest hothers hrest hcaught

end

end FlowTyping
