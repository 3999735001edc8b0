import FlowTyping.Proofs.Control.Walk
import FlowTyping.Proofs.Graph.Reachable
import FlowTyping.Proofs.Lowering.Placement

/-!
The code of expressions does what the expressions mean.
-/

namespace FlowTyping

open Run

namespace Layout

variable {D : Layout} {regions : List Region} {p : Point} {q : Option Point}
  {kind : NodeKind} {id : NodeId}

/-- The place after some code, if control comes there. -/
abbrev Ends (D : Layout) (regions : List Region) (q : Option Point) :
    Except Departure Unit → Point → Prop :=
  D.Arrives regions fun _ y => q = some y

/-- The first place of the target of an outcome. -/
abbrev Decides (D : Layout) (regions : List Region) (thenTarget elseTarget : BlockId) :
    Except Departure Bool → Point → Prop :=
  D.Arrives regions fun outcome y => y = .startOf (if outcome then thenTarget else elseTarget)

theorem Realises.flowsTo {m : Run Unit} {z : Point} (h : D.Realises p m (D.Ends regions q))
    (hflow : D.Flows q z) : D.Realises p m (D.Ends regions (some z)) :=
  h.after_mono fun _ y hy => ⟨z, by rwa [← hy], rfl⟩

theorem Departing.of_leaves {departure : Departure} {crossed : List FinalCopy}
    {target first : BlockId} (hway : Region.way regions departure = some (crossed, target))
    (h : D.Leaves crossed target first) : D.Departing regions departure (.startOf first) := by
  rcases h with ⟨rfl, rfl⟩ | ⟨scopes, -, h⟩
  · exact ⟨[], first, [], hway, .stay _⟩
  · exact ⟨crossed, target, scopes, hway, h⟩

theorem Emits.realises (h : D.Emits (some p) kind id q) :
    D.Realises p (perform kind.operation) (D.Ends regions q) := by
  obtain ⟨block, index, d, n, hflow, hd, hid, hn, rfl, rfl⟩ := h
  have hstep {τ : Trace} {y : Point} : D.Step (.inside block index) τ y ↔
      τ = [.operation n.kind.operation] ∧ y = .inside block (index + 1) := by
    rw [step_inside_iff hd]
    constructor
    · rintro (⟨id', n', hid', hn', rfl, rfl⟩ | ⟨rfl, -⟩)
      · cases hid.symm.trans hid'
        cases hn.symm.trans hn'
        exact ⟨rfl, rfl⟩
      · simp at hid
    · rintro ⟨rfl, rfl⟩
      exact .inl ⟨id, n, hid, hn, rfl, rfl⟩
  refine .flow hflow (.step ⟨_, _, hstep.mpr ⟨rfl, rfl⟩⟩ ?_ ?_)
  · rintro τ y hy
    obtain ⟨rfl, rfl⟩ := hstep.mp hy
    exact ⟨.ok (), ⟨rfl, rfl⟩, rfl⟩
  · rintro r τ ⟨rfl, rfl⟩
    exact ⟨_, hstep.mpr ⟨rfl, rfl⟩, rfl⟩

theorem Branches.realises {condition : NodeId} {thenTarget elseTarget : BlockId}
    (h : D.Branches (some p) condition thenTarget elseTarget) :
    D.Realises p either (D.Decides regions thenTarget elseTarget) := by
  obtain ⟨block, hflow, hd⟩ := h
  have hstep (b : Bool) : D.Step (.startOf block) [.outcome b]
      (.startOf (if b then thenTarget else elseTarget)) := .leave hd (.outcome b)
  refine .flow hflow (.step ⟨_, _, hstep true⟩ ?_ ?_)
  · intro τ y hy
    rcases (step_inside_iff hd).mp hy with ⟨id, n, hid, -⟩ | ⟨-, hleads⟩
    · simp at hid
    · cases hleads with
      | outcome b => exact ⟨.ok b, ⟨b, rfl, rfl⟩, rfl⟩
  · rintro r τ ⟨b, rfl, rfl⟩
    exact ⟨_, hstep b, rfl⟩

/-- A raising node settles at the end of its block. -/
theorem settle_realises {block : Nat} {successor : Option BlockId}
    {handlers : List (String × BlockId)} {categories : List String} {terminal : Bool}
    (hd : D.drafts[block]? = some ⟨[id], .raise successor handlers terminal⟩)
    (hterminal : terminal = true → successor = none)
    (hraises : terminal = true → categories ≠ [])
    (hroutes : D.Routes regions categories handlers) :
    D.Realises (.inside block 1) (settle categories terminal)
      (D.Ends regions (if terminal then none else some (.past block))) := by
  have hcategory {category : String} :
      (∃ target, (category, target) ∈ handlers) ↔ category ∈ categories := by
    rw [← Digraph.mem_distinct, ← hroutes.1]
    simp
  have hdeparts {category : String} {target : BlockId} (h : (category, target) ∈ handlers) :
      D.Departing regions (.raised category) (.startOf target) :=
    .of_leaves rfl (hroutes.2 _ h)
  refine .step ?_ ?_ ?_
  · cases terminal with
    | false => exact ⟨_, _, .leave hd (.completed nofun)⟩
    | true =>
        obtain ⟨category, hmem⟩ := List.exists_mem_of_ne_nil _ (hraises rfl)
        obtain ⟨target, hmem⟩ := hcategory.mpr hmem
        exact ⟨_, _, .leave hd (.raised hmem)⟩
  · intro τ y hy
    rcases (step_inside_iff hd).mp hy with ⟨id', n, hid, -⟩ | ⟨-, hleads⟩
    · simp at hid
    · cases hleads with
      | completed hcompletes =>
          cases terminal with
          | false => exact ⟨.ok (), .inl ⟨rfl, rfl, rfl⟩, rfl⟩
          | true => exact absurd (hterminal rfl) (hcompletes rfl)
      | raised hmem =>
          exact ⟨.error (.raised _), .inr ⟨_, hcategory.mp ⟨_, hmem⟩, rfl, rfl⟩, hdeparts hmem⟩
  · rintro r τ (⟨rfl, rfl, rfl⟩ | ⟨category, hmem, rfl, rfl⟩)
    · exact ⟨_, .leave hd (.completed nofun), rfl⟩
    · obtain ⟨target, hmem⟩ := hcategory.mpr hmem
      exact ⟨_, .leave hd (.raised hmem), hdeparts hmem⟩

theorem Raises.realises {handlers : List (String × BlockId)} {categories : List String}
    {terminal : Bool} (h : D.Raises (some p) kind id handlers terminal q)
    (hraises : terminal = true → categories ≠ [])
    (hroutes : D.Routes regions categories handlers) :
    D.Realises p (raising kind.operation categories terminal) (D.Ends regions q) := by
  obtain ⟨block, successor, n, hflow, hd, hterminal, hn, rfl, rfl⟩ := h
  have hemits : D.Emits (some (.startOf block)) n.kind id (some (.inside block 1)) :=
    ⟨block, 0, _, n, .stay _, hd, rfl, hn, rfl, rfl⟩
  refine .flow hflow (.bind hemits.realises ?_)
  rintro - y hy
  cases hy
  exact settle_realises hd hterminal hraises hroutes

end Layout

open Layout

/-- The code of an expression does what the expression means. -/
structure Placing.Does (place : Placing) (regions : List Region) (meaning : Meaning) :
    Prop where
  value : ∀ {D : Layout} {σ : Scopes} {p : Point} {id : NodeId} {q : Option Point},
    place.value D σ (some p) id q → D.Realises p meaning.value (D.Ends regions q)
  test : ∀ {D : Layout} {σ : Scopes} {p : Point} {thenTarget elseTarget : BlockId},
    place.test D σ (some p) thenTarget elseTarget →
    D.Realises p meaning.test (D.Decides regions thenTarget elseTarget)

namespace Placing.Does

variable {regions : List Region} {place place' place'' : Placing}
  {meaning meaning' meaning'' : Meaning}

theorem ofValue {value : Layout → Scopes → Option Point → NodeId → Option Point → Prop}
    {m : Run Unit} (h : ∀ {D : Layout} {σ : Scopes} {p : Point} {id : NodeId}
      {q : Option Point}, value D σ (some p) id q → D.Realises p m (D.Ends regions q)) :
    (Placing.ofValue value).Does regions (.ofValue m) where
  value := h
  test := by
    rintro D σ p thenTarget elseTarget ⟨id, q, hvalue, hbranches⟩
    refine .bind (h hvalue) ?_
    rintro - y rfl
    exact hbranches.realises

/-- The left operand of a short-circuit operation decides it or leads to the right one. -/
theorem decided {m : Run Bool} {D : Layout} {p : Point} {op : BinOp}
    {rhsBlock thenTarget elseTarget : BlockId}
    (h : D.Realises p m (if op = .and then D.Decides regions rhsBlock elseTarget
      else D.Decides regions thenTarget rhsBlock)) :
    D.Realises p m (D.Arrives regions fun outcome y => y = .startOf
      (bif op.decidedBy outcome then (if outcome then thenTarget else elseTarget)
        else rhsBlock)) := by
  split at h
  all_goals
    refine h.after_mono ?_
    rintro (_ | _) y rfl
    all_goals
      simp only [BinOp.decidedBy, *]
      exact ⟨_, .stay _, rfl⟩

theorem shortCircuit (op : BinOp) (h : place.Does regions meaning)
    (h' : place'.Does regions meaning') :
    (Placing.shortCircuit op place place').Does regions (.shortCircuit op meaning meaning') where
  value := by
    rintro D σ p id q ⟨left, p₁, rhsBlock, mergeBlock, right, p₂, hl, hbranches, hr, hflow, hemits⟩
    refine .bind (h.value hl) ?_
    rintro - y rfl
    have hchoice : D.Realises y either (if op = .and then D.Decides regions rhsBlock mergeBlock
        else D.Decides regions mergeBlock rhsBlock) := by
      split at hbranches
      · simpa [*] using hbranches.realises
      · simpa [*] using hbranches.realises
    refine .bind (decided hchoice) ?_
    rintro outcome z rfl
    have hright : D.Realises (.startOf (bif op.decidedBy outcome then
        (if outcome then mergeBlock else mergeBlock) else rhsBlock))
        (bif op.decidedBy outcome then pure () else meaning'.value)
        (D.Ends regions (some (.startOf mergeBlock))) := by
      cases op.decidedBy outcome with
      | true => exact .pure (by simp)
      | false => exact (h'.value hr).flowsTo hflow
    refine .bind hright ?_
    rintro - z ⟨⟩
    exact hemits.realises
  test := by
    rintro D σ p thenTarget elseTarget ⟨rhsBlock, hl, hr⟩
    have hleft : D.Realises p meaning.test (if op = .and then
        D.Decides regions rhsBlock elseTarget else D.Decides regions thenTarget rhsBlock) := by
      split at hl
      · simpa [*] using h.test hl
      · simpa [*] using h.test hl
    refine .bind (decided hleft) ?_
    rintro outcome z rfl
    cases op.decidedBy outcome with
    | true => exact .pure rfl
    | false => exact h'.test hr

theorem negation (h : place.Does regions meaning) :
    place.negation.Does regions meaning.negation where
  value := by
    rintro D σ p id q ⟨inner, p₁, hvalue, hemits⟩
    refine .bind (h.value hvalue) ?_
    rintro - y rfl
    exact hemits.realises
  test := by
    rintro D σ p thenTarget elseTarget htest
    refine .bind (h.test htest) ?_
    rintro outcome y rfl
    cases outcome with
    | true => exact .pure rfl
    | false => exact .pure rfl

theorem ternary (h : place.Does regions meaning) (h' : place'.Does regions meaning')
    (h'' : place''.Does regions meaning'') :
    (Placing.ternary place place' place'').Does regions
      (.ternary meaning meaning' meaning'') where
  value := by
    rintro D σ p id q ⟨thenBlock, elseBlock, mergeBlock, left, p₁, right, p₂, htest, hthen, hflow₁,
      helse, hflow₂, hemits⟩
    refine .bind (h.test htest) ?_
    rintro outcome y rfl
    have harm : D.Realises (.startOf (if outcome then thenBlock else elseBlock))
        (bif outcome then meaning'.value else meaning''.value)
        (D.Ends regions (some (.startOf mergeBlock))) := by
      cases outcome with
      | true => exact (h'.value hthen).flowsTo hflow₁
      | false => exact (h''.value helse).flowsTo hflow₂
    refine .bind harm ?_
    rintro - z ⟨⟩
    exact hemits.realises
  test := by
    rintro D σ p thenTarget elseTarget ⟨thenBlock, elseBlock, htest, hthen, helse⟩
    refine .bind (h.test htest) ?_
    rintro outcome y rfl
    cases outcome with
    | true => exact h'.test hthen
    | false => exact h''.test helse

end Placing.Does

mutual

theorem placeExpr_does (regions : List Region) :
    (e : Expr) → (placeExpr regions e).Does regions e.meaning
  | .literal _ => .ofValue fun h => h.realises
  | .this => .ofValue fun h => h.realises
  | .var name => .ofValue fun {D _ p _ q} h => by
      have hdoes : D.Realises p _ (D.Ends regions q) := h.realises
      rwa [NodeKind.operation, Scopes.resolve_name] at hdoes
  | .field receiver _ => .ofValue fun ⟨_, _, hreceiver, hemits⟩ => by
      refine .bind ((placeExpr_does regions receiver).value hreceiver) ?_
      rintro - y rfl
      exact hemits.realises
  | .call receiver _ args _ => .ofValue fun h => by
      obtain ⟨_, _, _, _, _, hreceiver, hargs, hroutes, hraises⟩ := h
      refine .bind (placeReceiver_does regions receiver hreceiver) ?_
      rintro - y rfl
      refine .bind (placeArgs_does regions args hargs) ?_
      rintro - y rfl
      exact hraises.realises (by simp) hroutes
  | .new _ args => .ofValue fun ⟨_, _, _, hargs, hroutes, hraises⟩ => by
      refine .bind (placeArgs_does regions args hargs) ?_
      rintro - y rfl
      exact hraises.realises (by simp) hroutes
  | .binary op lhs rhs => by
      rw [placeExpr, Expr.meaning]
      split
      · exact .shortCircuit op (placeExpr_does regions lhs) (placeExpr_does regions rhs)
      · refine .ofValue fun ⟨_, _, _, _, hl, hr, hemits⟩ => ?_
        refine .bind ((placeExpr_does regions lhs).value hl) ?_
        rintro - y rfl
        refine .bind ((placeExpr_does regions rhs).value hr) ?_
        rintro - y rfl
        exact hemits.realises
  | .unary op operand => by
      rw [placeExpr, Expr.meaning]
      split
      · exact .negation (placeExpr_does regions operand)
      · refine .ofValue fun ⟨_, _, hvalue, hemits⟩ => ?_
        refine .bind ((placeExpr_does regions operand).value hvalue) ?_
        rintro - y rfl
        exact hemits.realises
  | .ternary condition thenValue elseValue =>
      .ternary (placeExpr_does regions condition) (placeExpr_does regions thenValue)
        (placeExpr_does regions elseValue)
  | .cast _ operand => .ofValue fun ⟨_, _, hvalue, hemits⟩ => by
      refine .bind ((placeExpr_does regions operand).value hvalue) ?_
      rintro - y rfl
      exact hemits.realises

theorem placeReceiver_does (regions : List Region) : (e : Option Expr) →
    ∀ {D : Layout} {σ : Scopes} {p : Point} {id : Option NodeId} {q : Option Point},
      placeReceiver regions e D σ (some p) id q →
      D.Realises p (Expr.optionRuns e) (D.Ends regions q)
  | none, _, _, _, _, _, ⟨_, hq⟩ => .pure hq
  | some e, _, _, _, _, _, ⟨_, _, h⟩ => (placeExpr_does regions e).value h

theorem placeArgs_does (regions : List Region) : (args : List Expr) →
    ∀ {D : Layout} {σ : Scopes} {p : Point} {ids : List NodeId} {q : Option Point},
      placeArgs regions args D σ (some p) ids q →
      D.Realises p (Expr.listRuns args) (D.Ends regions q)
  | [], _, _, _, _, _, ⟨_, hq⟩ => .pure hq
  | e :: rest, _, _, _, _, _, ⟨_, _, _, _, he, hrest⟩ => by
      refine .bind ((placeExpr_does regions e).value he) ?_
      rintro - y rfl
      exact placeArgs_does regions rest hrest

end

end FlowTyping
