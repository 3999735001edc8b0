import FlowTyping.Proofs.Lowering.Protected
import FlowTyping.Proofs.Watched.Steps

/-!
Lowering under watch. Expressions, statements and whole units are constructed as without a watch:
every exit that is connected is free, every block that takes a node is open, and every part leaves
the regions and the scopes as it found them.
-/

namespace FlowTyping

namespace Watched

open Building

variable {α β : Type} {rs : List OpenRegion} {b : Building} {x : Watched α} {m : Build α}
  {fs : List Frame} {gs : List FlowTyping.Frame}

/-- The node of a value ends in the current block. -/
def Yields (rs : List OpenRegion) (x : Watched NodeId) (m : Build NodeId) : Prop :=
  ∀ b : Building, b.Tidy → Follows rs x m b fun id b' => b.Keeps [] b' ∧ b'.Rests id

namespace Steady

theorem pure (a : α) : Steady rs (Pure.pure a) (Pure.pure a) := fun _ hb => .pure (.refl hb)

theorem bind {k : α → Watched β} {k' : α → Build β} (hx : Steady rs x m)
    (hk : ∀ a, Steady rs (k a) (k' a)) : Steady rs (x >>= k) (m >>= k') := by
  intro b hb
  apply (hx b hb).bind
  intro a b₁ h₁
  exact (hk a b₁ h₁.tidy).weaken fun _ _ h₂ => h₁.trans h₂

theorem discard (hx : Steady rs x m) : Steady rs (discard x) (discard m) :=
  hx.bind fun _ => .pure ()

theorem balanced (hx : Steady rs x m) : Steady rs x.balanced m := fun b hb =>
  (hx b hb).balanced fun _ _ h => h.depth

end Steady

namespace Yields

variable {y : Watched NodeId} {n : Build NodeId}

theorem steady (hy : Yields rs y n) : Steady rs y n := fun b hb =>
  (hy b hb).weaken fun _ _ h => h.1

theorem bind {k : α → Watched NodeId} {k' : α → Build NodeId} (hx : Steady rs x m)
    (hk : ∀ a, Yields rs (k a) (k' a)) : Yields rs (x >>= k) (m >>= k') := by
  intro b hb
  apply (hx b hb).bind
  intro a b₁ h₁
  exact (hk a b₁ h₁.tidy).weaken fun _ _ h₂ => ⟨h₁.trans h₂.1, h₂.2⟩

theorem balanced (hy : Yields rs y n) : Yields rs y.balanced n := fun b hb =>
  (hy b hb).balanced fun _ _ h => h.1.depth

end Yields

theorem emit_yields (kind : NodeKind) : Yields rs (emit kind) (Build.emit kind) :=
  fun _ hb => emit_follows hb kind

theorem emit_steady (kind : NodeKind) :
    Steady rs (discard (emit kind)) (discard (Build.emit kind)) :=
  (emit_yields kind).steady.discard

theorem lookup_steady (name : String) : Steady rs (lookup name) (Build.lookup name) := by
  refine fun b hb => .plain fun var b' hrun => ?_
  have hsame : (Build.lookup name).run b = .ok (_, b) := rfl
  rw [hsame] at hrun
  cases hrun
  exact .refl hb

theorem declare_steady (var : LocalVar) : Steady rs (declare var) (Build.declare var) := by
  refine fun b hb => .plain fun _ b' hrun => ?_
  obtain rfl := Build.run_modify.mp hrun
  cases hscopes : b.scopes with
  | nil => exact .refl hb
  | cons scope outer => exact .same hb rfl rfl rfl (by simp [hscopes])

theorem closeWith_steady (target : BlockId) :
    Steady rs (closeWith target) (Build.closeWith target) := fun _ hb =>
  (closeWith_follows hb target).weaken fun _ _ h => h.1

theorem emitRaising_yields (h : Stacked fs gs) (kind : NodeKind) (categories : List String) :
    Yields (fs.map Frame.region) (emitRaising fs kind categories false)
      (Build.emitRaising gs kind categories false) := fun _ hb =>
  (emitRaising_follows h hb kind categories false).weaken fun _ _ h => ⟨h.1, h.2 rfl⟩

theorem emitRaising_steady (h : Stacked fs gs) (kind : NodeKind) (categories : List String) :
    Steady (fs.map Frame.region) (discard (emitRaising fs kind categories true))
      (discard (Build.emitRaising gs kind categories true)) := fun _ hb =>
  (emitRaising_follows h hb kind categories true).discard fun _ _ h => h.1

/-- Since a state some blocks have been made, open and empty, that wait to be entered in order. -/
structure Reserves (b₀ : Building) (ts : List BlockId) (b : Building) : Prop where
  keeps : b₀.Keeps [] b
  nodup : ts.Nodup
  fresh : ∀ t ∈ ts, b.Fresh t
  new : ∀ t ∈ ts, b₀.drafts.size ≤ t

namespace Reserves

variable {b₀ b' : Building} {ts ts' : List BlockId} {t : BlockId} {k : α → Watched β}
  {k' : α → Build β} {R : β → Building → Prop}

theorem refl (hb : b.Tidy) : Reserves b [] b := ⟨.refl hb, .nil, nofun, nofun⟩

theorem perm (h : Reserves b₀ ts b) (hperm : ts.Perm ts') : Reserves b₀ ts' b :=
  ⟨h.keeps, hperm.nodup h.nodup, fun t ht => h.fresh t (hperm.mem_iff.mpr ht),
    fun t ht => h.new t (hperm.mem_iff.mpr ht)⟩

theorem later (h : Reserves b₀ ts b) (hkeeps : b.Keeps [] b') : Reserves b₀ ts b' :=
  ⟨h.keeps.trans hkeeps, h.nodup, fun t ht => hkeeps.waits (h.fresh t ht), h.new⟩

theorem add (h : Reserves b₀ ts b) (hmade : Adds .openEnd b t b') : Reserves b₀ (ts ++ [t]) b' where
  keeps := h.keeps.trans hmade.keeps
  nodup := by
    refine List.nodup_append.mpr ⟨h.nodup, List.pairwise_singleton _ t, fun s hs r hr => ?_⟩
    rw [List.mem_singleton.mp hr]
    exact hmade.ne (h.fresh s hs)
  fresh s hs := by
    rcases List.mem_append.mp hs with hs | hs
    · exact hmade.keeps.waits (h.fresh s hs)
    · exact List.mem_singleton.mp hs ▸ hmade.waits
  new s hs := by
    rcases List.mem_append.mp hs with hs | hs
    · exact h.new s hs
    · exact List.mem_singleton.mp hs ▸ hmade.new_of h.keeps

theorem enter (h : Reserves b₀ (t :: ts) b) : Reserves b₀ ts { b with current := some t } := by
  obtain ⟨hnotMem, hnodup⟩ := List.nodup_cons.mp h.nodup
  have hfresh := h.fresh t List.mem_cons_self
  have henter := keeps_enter hfresh
  refine ⟨h.keeps.enter henter (h.new t List.mem_cons_self), hnodup, fun s hs => ?_,
    fun s hs => h.new s (List.mem_cons_of_mem t hs)⟩
  have hne : s ≠ t := fun heq => hnotMem (heq ▸ hs)
  exact henter.waits_of_ne (h.fresh s (List.mem_cons_of_mem t hs)) hne

theorem newBlock_bind {k : BlockId → Watched β} {k' : BlockId → Build β} (h : Reserves b₀ ts b)
    (hk : ∀ t b', Reserves b₀ (ts ++ [t]) b' → Follows rs (k t) (k' t) b' R) :
    Follows rs (newBlock >>= k) (Build.newBlock >>= k') b R :=
  (newBlock_follows h.keeps.tidy).bind fun t b' hmade => hk t b' (h.add hmade)

theorem enter_bind {k : Unit → Watched β} {k' : Unit → Build β} (h : Reserves b₀ (t :: ts) b)
    (hk : ∀ b', Reserves b₀ ts b' → Follows rs (k ()) (k' ()) b' R) :
    Follows rs (setCurrent (some t) >>= k) (Build.setCurrent (some t) >>= k') b R :=
  (setCurrent_follows (some t)).bind fun _ b' heq => hk b' (heq ▸ h.enter)

theorem steady_bind (h : Reserves b₀ ts b) (hx : Steady rs x m)
    (hk : ∀ a b', Reserves b₀ ts b' → Follows rs (k a) (k' a) b' R) :
    Follows rs (x >>= k) (m >>= k') b R :=
  (hx b h.keeps.tidy).bind fun a b' hkeeps => hk a b' (h.later hkeeps)

theorem finish (h : Reserves b₀ ts b) (hx : Steady rs x m) :
    Follows rs x m b fun _ b' => b₀.Keeps [] b' :=
  (hx b h.keeps.tidy).weaken fun _ _ hkeeps => h.keeps.trans hkeeps

theorem enter_finish (h : Reserves b₀ (t :: ts) b) :
    Follows rs (setCurrent (some t)) (Build.setCurrent (some t)) b fun _ b' => b₀.Keeps [] b' :=
  (setCurrent_follows (some t)).weaken fun _ _ heq => heq ▸ h.enter.keeps

/-- The head of a loop is entered, and led on to a first block, while its exit is free. -/
theorem loopHead_bind {k : BlockId → BlockId → Watched β} {k' : BlockId → BlockId → Build β}
    (hb : b.Tidy)
    (hk : ∀ head t b', Reserves b [t] b' → Follows rs (k head t) (k' head t) b' R) :
    Follows rs
      (do
        let head ← newLoopHead
        closeWith head
        let t ← newBlock
        link head t
        k head t)
      (do
        let head ← Build.newLoopHead
        Build.closeWith head
        let t ← Build.newBlock
        Build.link head t
        k' head t) b R := by
  apply (newLoopHead_follows hb).bind
  intro head b₁ hhead
  apply (closeWith_follows hhead.keeps.tidy head).bind
  rintro _ b₂ ⟨hclosed, -⟩
  have hhead₂ := hclosed.waits hhead.waits
  apply (newBlock_follows hclosed.tidy).bind
  intro t b₃ hmade
  have hhead₃ := hmade.keeps.waits hhead₂
  apply (link_follows t hhead₃.1 rfl).bind
  rintro _ _ rfl
  have hlink : b₃.Keeps [head] { b₃ with drafts := b₃.drafts.modify head fun d =>
      { d with exits := d.exits.link t } } := by
    refine ⟨.modify (.inr (by simp)) fun d _ => .link d t, fun c hc => ?_, rfl⟩
    obtain ⟨d, hd, hpending⟩ := hmade.keeps.tidy c hc
    have hne : head ≠ c := fun heq => hhead₃.2 (heq ▸ hc)
    exact ⟨d, by simp [Array.getElem?_modify, hne, hd], hpending⟩
  have hkeeps := (hhead.keeps.trans hclosed).trans hmade.keeps
  refine hk head t _ ⟨hkeeps.enter hlink hhead.new, List.pairwise_singleton _ t, fun s hs => ?_,
    fun s hs => ?_⟩
  · obtain rfl := List.mem_singleton.mp hs
    exact hlink.waits_of_ne hmade.waits (hmade.ne hhead₂).symm
  · obtain rfl := List.mem_singleton.mp hs
    exact hmade.new_of (hhead.keeps.trans hclosed)

end Reserves

/-- Both ways to lower an expression go on under watch. -/
structure Lowered.Goes (rs : List OpenRegion) (l : Lowered) (l' : FlowTyping.Lowered) : Prop where
  value : Yields rs l.value l'.value
  test : ∀ thenTarget elseTarget,
    Steady rs (l.test thenTarget elseTarget) (l'.test thenTarget elseTarget)

namespace Lowered.Goes

variable {l r e : Lowered} {l' r' e' : FlowTyping.Lowered}

theorem balanced (hl : l.Goes rs l') : l.balanced.Goes rs l' :=
  ⟨hl.value.balanced, fun thenTarget elseTarget => (hl.test thenTarget elseTarget).balanced⟩

theorem ofValue {y : Watched NodeId} {n : Build NodeId} (hy : Yields rs y n) :
    (ofValue y).Goes rs (.ofValue n) where
  value := hy.balanced
  test thenTarget elseTarget := by
    refine Steady.balanced fun b hb => ?_
    apply (hy.balanced b hb).bind
    rintro id b₁ ⟨h₁, hid⟩
    exact (branch_follows h₁.tidy hid thenTarget elseTarget).weaken fun _ _ h₂ => h₁.trans h₂

theorem negation (hl : l.Goes rs l') : (negation l).Goes rs (.negation l') :=
  balanced {
    value := .bind hl.value.steady fun _ => emit_yields _
    test := fun thenTarget elseTarget => hl.test elseTarget thenTarget }

theorem shortCircuit (op : BinOp) (hl : l.Goes rs l') (hr : r.Goes rs r') :
    (shortCircuit op l r).Goes rs (.shortCircuit op l' r') := by
  refine balanced ⟨fun b hb => ?_, fun thenTarget elseTarget b hb => ?_⟩
  · apply (hl.value b hb).bind
    rintro left b₁ ⟨h₁, hleft⟩
    apply (newBlock_follows h₁.tidy).bind
    intro rhsBlock b₂ hrhs
    apply (newBlock_follows hrhs.keeps.tidy).bind
    intro mergeBlock b₃ hmerge
    have hleft₃ := hmerge.rests (hrhs.rests hleft)
    have h₃ : Reserves b ([] ++ [rhsBlock] ++ [mergeBlock]) b₃ :=
      (((Reserves.refl hb).later h₁).add hrhs).add hmerge
    have hrest {b₄ : Building} (h₄ : b₃.Keeps [] b₄) : Follows rs
        (do
          setCurrent rhsBlock
          let right ← r.value
          closeWith mergeBlock
          setCurrent mergeBlock
          emit (.shortCircuit op left right))
        (do
          Build.setCurrent rhsBlock
          let right ← r'.value
          Build.closeWith mergeBlock
          Build.setCurrent mergeBlock
          Build.emit (.shortCircuit op left right)) b₄
        fun id b' => b.Keeps [] b' ∧ b'.Rests id := by
      refine (h₃.later h₄).enter_bind fun b₅ h₅ => ?_
      refine h₅.steady_bind hr.value.steady fun right b₆ h₆ => ?_
      refine h₆.steady_bind (closeWith_steady mergeBlock) fun _ b₇ h₇ => ?_
      refine h₇.enter_bind fun b₈ h₈ => ?_
      exact (emit_follows h₈.keeps.tidy _).weaken fun _ _ h => ⟨h₈.keeps.trans h.1, h.2⟩
    dsimp only
    split
    · exact (branch_follows h₃.keeps.tidy hleft₃ _ _).bind fun _ _ => hrest
    · exact (branch_follows h₃.keeps.tidy hleft₃ _ _).bind fun _ _ => hrest
  · refine (Reserves.refl hb).newBlock_bind fun rhsBlock b₁ h₁ => ?_
    have hrest {b₂ : Building} (h₂ : Reserves b [rhsBlock] b₂) : Follows rs
        (do
          setCurrent rhsBlock
          r.test thenTarget elseTarget)
        (do
          Build.setCurrent rhsBlock
          r'.test thenTarget elseTarget) b₂ fun _ b' => b.Keeps [] b' :=
      h₂.enter_bind fun b₃ h₃ => h₃.finish (hr.test thenTarget elseTarget)
    dsimp only
    split
    · exact h₁.steady_bind (hl.test rhsBlock elseTarget) fun _ _ => hrest
    · exact h₁.steady_bind (hl.test thenTarget rhsBlock) fun _ _ => hrest

theorem ternary (hc : e.Goes rs e') (hl : l.Goes rs l') (hr : r.Goes rs r') :
    (ternary e l r).Goes rs (.ternary e' l' r') := by
  refine balanced ⟨fun b hb => ?_, fun thenTarget elseTarget b hb => ?_⟩
  · refine (Reserves.refl hb).newBlock_bind fun thenBlock b₁ h₁ => ?_
    refine h₁.newBlock_bind fun elseBlock b₂ h₂ => ?_
    refine h₂.newBlock_bind fun mergeBlock b₃ h₃ => ?_
    refine h₃.steady_bind (hc.test thenBlock elseBlock) fun _ b₄ h₄ => ?_
    refine h₄.enter_bind fun b₅ h₅ => ?_
    refine h₅.steady_bind hl.value.steady fun left b₆ h₆ => ?_
    refine h₆.steady_bind (closeWith_steady mergeBlock) fun _ b₇ h₇ => ?_
    refine h₇.enter_bind fun b₈ h₈ => ?_
    refine h₈.steady_bind hr.value.steady fun right b₉ h₉ => ?_
    refine h₉.steady_bind (closeWith_steady mergeBlock) fun _ b₁₀ h₁₀ => ?_
    refine h₁₀.enter_bind fun b₁₁ h₁₁ => ?_
    exact (emit_follows h₁₁.keeps.tidy _).weaken fun _ _ h => ⟨h₁₁.keeps.trans h.1, h.2⟩
  · refine (Reserves.refl hb).newBlock_bind fun thenBlock b₁ h₁ => ?_
    refine h₁.newBlock_bind fun elseBlock b₂ h₂ => ?_
    refine h₂.steady_bind (hc.test thenBlock elseBlock) fun _ b₃ h₃ => ?_
    refine h₃.enter_bind fun b₄ h₄ => ?_
    refine h₄.steady_bind (hl.test thenTarget elseTarget) fun _ b₅ h₅ => ?_
    exact h₅.enter_bind fun b₆ h₆ => h₆.finish (hr.test thenTarget elseTarget)

end Lowered.Goes

mutual

theorem lowerExpr_goes (h : Stacked fs gs) :
    (e : Expr) → (lowerExpr fs e).Goes (fs.map Frame.region) (FlowTyping.lowerExpr gs e)
  | .literal _ | .this => .ofValue (emit_yields _)
  | .var name => .ofValue (.bind (lookup_steady name) fun _ => emit_yields _)
  | .field receiver _ =>
      .ofValue (.bind (lowerExpr_goes h receiver).value.steady fun _ => emit_yields _)
  | .call receiver _ args _ =>
      .ofValue (.bind (lowerReceiver_steady h receiver) fun _ =>
        .bind (lowerArgs_steady h args) fun _ => emitRaising_yields h _ _)
  | .new _ args =>
      .ofValue (.bind (lowerArgs_steady h args) fun _ => emitRaising_yields h _ _)
  | .binary op lhs rhs => by
      have hl := lowerExpr_goes h lhs
      have hr := lowerExpr_goes h rhs
      rw [lowerExpr, FlowTyping.lowerExpr]
      split
      · exact .shortCircuit op hl hr
      · exact .ofValue (.bind hl.value.steady fun _ => .bind hr.value.steady fun _ =>
          emit_yields _)
  | .unary op operand => by
      have ho := lowerExpr_goes h operand
      rw [lowerExpr, FlowTyping.lowerExpr]
      split
      · exact .negation ho
      · exact .ofValue (.bind ho.value.steady fun _ => emit_yields _)
  | .ternary condition thenValue elseValue =>
      .ternary (lowerExpr_goes h condition) (lowerExpr_goes h thenValue)
        (lowerExpr_goes h elseValue)
  | .cast _ operand =>
      .ofValue (.bind (lowerExpr_goes h operand).value.steady fun _ => emit_yields _)

theorem lowerReceiver_steady (h : Stacked fs gs) : (e : Option Expr) →
    Steady (fs.map Frame.region) (lowerReceiver fs e) (FlowTyping.lowerReceiver gs e)
  | none => .pure none
  | some e => .bind (lowerExpr_goes h e).value.steady fun id => .pure (some id)

theorem lowerArgs_steady (h : Stacked fs gs) : (args : List Expr) →
    Steady (fs.map Frame.region) (lowerArgs fs args) (FlowTyping.lowerArgs gs args)
  | [] => .pure []
  | e :: rest =>
      .bind (lowerExpr_goes h e).value.steady fun id =>
        .bind (lowerArgs_steady h rest) fun ids => .pure (id :: ids)

end

namespace Reserves

variable {b₀ b' : Building} {ts ts' : List BlockId} {t : BlockId} {R : β → Building → Prop}

theorem right (h : Reserves b₀ (ts' ++ ts) b) : Reserves b₀ ts b :=
  ⟨h.keeps, (List.nodup_append.mp h.nodup).2.1,
    fun t ht => h.fresh t (List.mem_append_right ts' ht),
    fun t ht => h.new t (List.mem_append_right ts' ht)⟩

/-- The block of a region is entered, and the region is left at the end of its body. -/
theorem within_bind {region : OpenRegion} {x : Watched Unit} {m : Build Unit}
    {k : Unit → Watched β} {k' : Unit → Build β} (h : Reserves b₀ (t :: ts) b)
    (hx : Steady (region :: rs) x m)
    (hk : ∀ b', Reserves b₀ ts b' → Follows rs (k ()) (k' ()) b' R) :
    Follows rs
      (within region (do
        setCurrent (some t)
        x) >>= k)
      (Build.setCurrent (some t) >>= fun _ => m >>= k') b R := by
  have hbody : Follows (region :: rs)
      (do
        setCurrent (some t)
        x)
      (do
        Build.setCurrent (some t)
        m) b fun _ b' => Reserves b₀ ts b' :=
    h.enter_bind fun b₁ h₁ => (hx b₁ h₁.keeps.tidy).weaken fun _ _ hkeeps => h₁.later hkeeps
  have hall := hbody.within.bind fun _ => hk
  rwa [bind_assoc] at hall

/-- The blocks of clauses are made in their order. -/
theorem clauses (h : Reserves b₀ ts b) {handlers : List Handler} {targets : List (String × BlockId)}
    (hrun : (handlers.mapM fun h : Handler => do
      let block ← Build.newBlock
      return (h.exception, block)).run b = .ok (targets, b')) :
    Reserves b₀ (ts ++ targets.map Prod.snd) b' := by
  induction handlers generalizing ts b targets with
  | nil =>
      obtain ⟨rfl, rfl⟩ := Build.run_pure.mp hrun
      simpa using h
  | cons handler rest ih =>
      simp only [List.mapM_cons, bind_assoc, pure_bind, Build.run_bind, Build.run_pure] at hrun
      obtain ⟨t, b₁, h₁, targets, b₂, h₂, rfl, rfl⟩ := hrun
      have hnew : Follows [] newBlock Build.newBlock b _ := newBlock_follows h.keeps.tidy
      simpa using ih (h.add (hnew.after t b₁ h₁)) h₂

end Reserves

section

variable {body : List Stmt}

/-- A body goes on under watch in all surroundings. -/
def SteadyBody (body : List Stmt) : Prop :=
  ∀ {fs : List Frame} {gs : List FlowTyping.Frame}, Stacked fs gs →
    Steady (fs.map Frame.region) (lowerStmts fs body) (FlowTyping.lowerStmts gs body)

theorem lowerAssert_steady (h : Stacked fs gs) (condition : Expr) :
    Steady (fs.map Frame.region) (lowerAssert fs condition)
      (FlowTyping.lowerAssert gs condition) := by
  intro b hb
  refine (Reserves.refl hb).newBlock_bind fun holds b₁ h₁ => ?_
  refine h₁.newBlock_bind fun fails b₂ h₂ => ?_
  refine h₂.steady_bind ((lowerExpr_goes h condition).test holds fails) fun _ b₃ h₃ => ?_
  refine (h₃.perm (.swap fails holds [])).enter_bind fun b₄ h₄ => ?_
  refine h₄.steady_bind (emitRaising_steady h _ _) fun _ b₅ h₅ => ?_
  exact h₅.enter_finish

theorem lowerDecl_steady (h : Stacked fs gs) (name : String) (qualifier : Option String)
    (init : Option Expr) :
    Steady (fs.map Frame.region) (lowerDecl fs name qualifier init)
      (FlowTyping.lowerDecl gs name qualifier init) := by
  refine .bind (lowerReceiver_steady h init) fun value => ?_
  refine .bind (declare_steady _) fun _ => ?_
  refine .bind (emit_steady _) fun _ => ?_
  cases value with
  | none => exact .pure ()
  | some value => exact emit_steady _

theorem lowerAssign_steady (h : Stacked fs gs) (target : Target) (value : Expr) :
    Steady (fs.map Frame.region) (lowerAssign fs target value)
      (FlowTyping.lowerAssign gs target value) := by
  cases target with
  | «local» name =>
      refine .bind (lowerExpr_goes h value).value.steady fun value => ?_
      exact .bind (lookup_steady name) fun _ => emit_steady _
  | field receiver name =>
      refine .bind (lowerExpr_goes h receiver).value.steady fun receiver => ?_
      exact .bind (lowerExpr_goes h value).value.steady fun value => emit_steady _

theorem lowerIf_steady (h : Stacked fs gs) (condition : Expr) {thenBody : List Stmt}
    {elseBody : Option (List Stmt)} (hthen : SteadyBody thenBody)
    (helse : Steady (fs.map Frame.region) (lowerElse fs elseBody)
      (FlowTyping.lowerElse gs elseBody)) :
    Steady (fs.map Frame.region) (lowerStmt fs (.ifElse condition thenBody elseBody))
      (FlowTyping.lowerStmt gs (.ifElse condition thenBody elseBody)) := by
  intro b hb
  refine (Reserves.refl hb).newBlock_bind fun thenBlock b₁ h₁ => ?_
  refine h₁.newBlock_bind fun elseBlock b₂ h₂ => ?_
  refine h₂.newBlock_bind fun mergeBlock b₃ h₃ => ?_
  refine h₃.steady_bind ((lowerExpr_goes h condition).test thenBlock elseBlock) fun _ b₄ h₄ => ?_
  refine h₄.enter_bind fun b₅ h₅ => ?_
  refine h₅.steady_bind (hthen h).inScope fun _ b₆ h₆ => ?_
  refine h₆.steady_bind (closeWith_steady mergeBlock) fun _ b₇ h₇ => ?_
  refine h₇.enter_bind fun b₈ h₈ => ?_
  refine h₈.steady_bind helse fun _ b₉ h₉ => ?_
  refine h₉.steady_bind (closeWith_steady mergeBlock) fun _ b₁₀ h₁₀ => ?_
  exact h₁₀.enter_finish

theorem lowerWhile_steady (h : Stacked fs gs) (label : Option String) (condition : Expr)
    (hbody : SteadyBody body) :
    Steady (fs.map Frame.region) (lowerStmt fs (.whileLoop label condition body))
      (FlowTyping.lowerStmt gs (.whileLoop label condition body)) := by
  intro b hb
  refine Reserves.loopHead_bind hb fun head testBlock b₁ h₁ => ?_
  refine h₁.newBlock_bind fun bodyBlock b₂ h₂ => ?_
  refine h₂.newBlock_bind fun exitBlock b₃ h₃ => ?_
  refine h₃.enter_bind fun b₄ h₄ => ?_
  refine h₄.steady_bind ((lowerExpr_goes h condition).test bodyBlock exitBlock) fun _ b₅ h₅ => ?_
  have hregion : Steady (.loop label head exitBlock :: fs.map Frame.region) _ _ :=
    (hbody (h.loop label head exitBlock)).inScope
  refine h₅.within_bind hregion fun b₆ h₆ => ?_
  refine h₆.steady_bind (closeWith_steady head) fun _ b₇ h₇ => ?_
  exact h₇.enter_finish

theorem lowerDoWhile_steady (h : Stacked fs gs) (label : Option String) (condition : Expr)
    (hbody : SteadyBody body) :
    Steady (fs.map Frame.region) (lowerStmt fs (.doWhile label body condition))
      (FlowTyping.lowerStmt gs (.doWhile label body condition)) := by
  intro b hb
  refine Reserves.loopHead_bind hb fun head bodyBlock b₁ h₁ => ?_
  refine h₁.newBlock_bind fun testBlock b₂ h₂ => ?_
  refine h₂.newBlock_bind fun exitBlock b₃ h₃ => ?_
  have hregion : Steady (.loop label testBlock exitBlock :: fs.map Frame.region) _ _ :=
    (hbody (h.loop label testBlock exitBlock)).inScope
  refine h₃.within_bind hregion fun b₄ h₄ => ?_
  refine h₄.steady_bind (closeWith_steady testBlock) fun _ b₅ h₅ => ?_
  refine h₅.enter_bind fun b₆ h₆ => ?_
  refine h₆.steady_bind ((lowerExpr_goes h condition).test head exitBlock) fun _ b₇ h₇ => ?_
  exact h₇.enter_finish

theorem lowerFor_steady (h : Stacked fs gs) (label : Option String) (condition : Option Expr)
    {init update : List Stmt} (hinit : SteadyBody init) (hupdate : SteadyBody update)
    (hbody : SteadyBody body) :
    Steady (fs.map Frame.region) (lowerStmt fs (.forLoop label init condition update body))
      (FlowTyping.lowerStmt gs (.forLoop label init condition update body)) := by
  intro b hb
  have hloop : Follows (fs.map Frame.region)
      (lowerFor fs label (lowerStmts fs init) condition (lowerStmts fs update)
        fun frame => lowerStmts (frame :: fs) body)
      (FlowTyping.lowerFor gs label (FlowTyping.lowerStmts gs init) condition
        (FlowTyping.lowerStmts gs update) fun frame => FlowTyping.lowerStmts (frame :: gs) body) b
      fun exitBlock b' => Reserves b [exitBlock] b' := by
    apply openScope_follows.bind
    rintro _ _ rfl
    apply (hinit h { b with scopes := [] :: b.scopes } hb).bind
    intro _ b₁ hkeeps
    refine Reserves.loopHead_bind hkeeps.tidy fun head testBlock b₂ h₂ => ?_
    refine h₂.newBlock_bind fun bodyBlock b₃ h₃ => ?_
    refine h₃.newBlock_bind fun updateBlock b₄ h₄ => ?_
    refine h₄.newBlock_bind fun exitBlock b₅ h₅ => ?_
    refine h₅.enter_bind fun b₆ h₆ => ?_
    have hregion : Steady (.loop label updateBlock exitBlock :: fs.map Frame.region) _ _ :=
      (hbody (h.loop label updateBlock exitBlock)).inScope
    have hrest {b₇ : Building}
        (h₇ : Reserves b₁ [bodyBlock, updateBlock, exitBlock] b₇) : Follows (fs.map Frame.region)
        (do
          within (.loop label updateBlock exitBlock) do
            setCurrent bodyBlock
            inScope (lowerStmts (.loop label updateBlock exitBlock :: fs) body)
          closeWith updateBlock
          setCurrent updateBlock
          lowerStmts fs update
          closeWith head
          plain (modify fun b => { b with scopes := b.scopes.drop 1 })
          return exitBlock)
        (do
          Build.setCurrent bodyBlock
          Build.inScope
            (FlowTyping.lowerStmts (.loop label updateBlock exitBlock :: gs) body)
          Build.closeWith updateBlock
          Build.setCurrent updateBlock
          FlowTyping.lowerStmts gs update
          Build.closeWith head
          modify fun b => { b with scopes := b.scopes.drop 1 }
          return exitBlock) b₇ fun exitBlock b' => Reserves b [exitBlock] b' := by
      refine h₇.within_bind hregion fun b₈ h₈ => ?_
      refine h₈.steady_bind (closeWith_steady updateBlock) fun _ b₉ h₉ => ?_
      refine h₉.enter_bind fun b₁₀ h₁₀ => ?_
      refine h₁₀.steady_bind (hupdate h) fun _ b₁₁ h₁₁ => ?_
      refine h₁₁.steady_bind (closeWith_steady head) fun _ b₁₂ h₁₂ => ?_
      refine closeScope_follows.bind ?_
      rintro _ _ rfl
      exact .pure ⟨(hkeeps.trans h₁₂.keeps).closeScope, h₁₂.nodup, h₁₂.fresh,
        fun t ht => Nat.le_trans hkeeps.grows.size_le (h₁₂.new t ht)⟩
    cases condition with
    | some condition =>
        have htest := (lowerExpr_goes h condition).test bodyBlock exitBlock
        exact h₆.steady_bind htest fun _ _ => hrest
    | none => exact h₆.steady_bind (closeWith_steady bodyBlock) fun _ _ => hrest
  exact hloop.bind fun exitBlock b' hreserved => hreserved.enter_finish

/-- A way out of a protected region leads through its final body. -/
theorem leave_steady (h : Stacked fs gs) (count : Nat) (target : BlockId) :
    Steady (fs.map Frame.region) (leaveThrough fs count target >>= closeWith)
      (Build.leaveThrough (FlowTyping.Frame.crossings (gs.take count)) target >>=
        Build.closeWith) :=
  fun _ hb => depart_follows (leaveThrough_follows h hb count target)

theorem lowerReturn_steady (h : Stacked fs gs) (value : Option Expr) :
    Steady (fs.map Frame.region) (lowerStmt fs (.returnValue value))
      (FlowTyping.lowerStmt gs (.returnValue value)) := by
  refine .bind (lowerReceiver_steady h value) fun value => .bind (emit_steady _) fun _ => ?_
  exact fun _ hb => depart_follows (leaveAll_follows h hb _)

theorem lowerHandlers_follows (h : Stacked fs gs) {leave : Watched Unit} {leave' : Build Unit}
    (hleave : Steady (fs.map Frame.region) leave leave') {handlers : List Handler}
    (hhandlers : ∀ handler ∈ handlers, SteadyBody handler.body) {b₀ : Building}
    {blocks ts : List BlockId} (hreserved : Reserves b₀ (blocks ++ ts) b) :
    Follows (fs.map Frame.region) (lowerHandlers fs leave handlers blocks)
      (FlowTyping.lowerHandlers gs leave' handlers blocks) b fun _ b' => Reserves b₀ ts b' := by
  induction handlers generalizing b blocks with
  | nil =>
      exact .pure hreserved.right
  | cons handler rest ih =>
      obtain ⟨exception, binding, body⟩ := handler
      obtain ⟨hbody, hrest⟩ := List.forall_mem_cons.mp hhandlers
      cases blocks with
      | nil =>
          exact .pure hreserved
      | cons block blocks =>
          rw [lowerHandlers, FlowTyping.lowerHandlers]
          refine hreserved.enter_bind fun b₁ h₁ => ?_
          refine h₁.steady_bind (Steady.inScope ?_) fun _ b₂ h₂ => ?_
          · cases binding with
            | none => exact hbody h
            | some name =>
                exact .bind (declare_steady _) fun _ => .bind (emit_steady _) fun _ => hbody h
          · exact h₂.steady_bind hleave fun _ b₃ h₃ => ih hrest h₃

/-- A protected region, its clauses and the ways out of them. -/
theorem lowerProtected_follows (h : Stacked fs gs) (count : Nat) {targets : List (String × BlockId)}
    {after : BlockId} (hbody : SteadyBody body) {handlers : List Handler}
    (hhandlers : ∀ handler ∈ handlers, SteadyBody handler.body) {b₀ : Building}
    (hreserved : Reserves b₀ (targets.map Prod.snd ++ [after]) b) :
    Follows (fs.map Frame.region)
      (lowerProtected fs count targets after (fun inner => lowerStmts inner body)
        fun inner leave => lowerHandlers inner leave handlers (targets.map Prod.snd))
      (do
        Build.inScope (FlowTyping.lowerStmts (.handlers targets :: gs) body)
        Build.leaveThrough (FlowTyping.Frame.crossings (gs.take count)) after >>= Build.closeWith
        FlowTyping.lowerHandlers gs
          (Build.leaveThrough (FlowTyping.Frame.crossings (gs.take count)) after >>=
            Build.closeWith)
          handlers (targets.map Prod.snd)) b
      fun _ b' => Reserves b₀ [after] b' := by
  have hregion := (hbody (h.handlers targets)).inScope
  refine hreserved.steady_bind (fun b hb => (hregion b hb).within) fun _ b₁ h₁ => ?_
  have hleave := leave_steady h count after
  rw [← bind_assoc]
  refine h₁.steady_bind hleave fun _ b₂ h₂ => ?_
  exact lowerHandlers_follows h hleave hhandlers h₂

theorem lowerTry_steady (h : Stacked fs gs) {handlers : List Handler}
    {finalBody : Option (List Stmt)} (hbody : SteadyBody body)
    (hhandlers : ∀ handler ∈ handlers, SteadyBody handler.body)
    (hfinal : ∀ body ∈ finalBody, SteadyBody body) :
    Steady (fs.map Frame.region) (lowerStmt fs (.tryCatch body handlers finalBody))
      (FlowTyping.lowerStmt gs (.tryCatch body handlers finalBody)) := by
  intro b hb
  have hcheck : Follows (fs.map Frame.region)
      (plain (checkHandlers [] (handlers.map Handler.exception)))
      (checkHandlers [] (handlers.map Handler.exception)) b fun _ b' => b = b' :=
    .plain fun _ _ hrun => run_lift hrun
  apply hcheck.bind
  rintro _ _ rfl
  refine (Reserves.refl hb).newBlock_bind fun after b₁ h₁ => ?_
  have hclauses : Follows (fs.map Frame.region)
      (plain (handlers.mapM fun h => do
        let block ← Build.newBlock
        return (h.exception, block)))
      (handlers.mapM fun h => do
        let block ← Build.newBlock
        return (h.exception, block)) b₁ fun targets b' =>
          Reserves b (targets.map Prod.snd ++ [after]) b' :=
    .plain fun _ _ hrun => (h₁.clauses hrun).perm List.perm_append_comm
  apply hclauses.bind
  intro targets b₂ h₂
  cases finalBody with
  | none =>
      have hregion := lowerProtected_follows h 0 hbody hhandlers h₂
      have hall := hregion.bind fun _ _ hreserved => hreserved.enter_finish
      simp only [bind_assoc] at hall
      exact hall
  | some final =>
      have hcopy : Steady (fs.map Frame.region) (inScope (lowerStmts fs final))
          (Build.inScope (FlowTyping.lowerStmts gs final)) := (hfinal final rfl h).inScope
      apply Passes.get
      have hnumber : Follows (fs.map Frame.region)
          (plain (modify fun b => { b with nextFinal := b₂.nextFinal + 1 }))
          (modify fun b => { b with nextFinal := b₂.nextFinal + 1 }) b₂ fun _ b' =>
            b₂.Keeps [] b' := by
        refine .plain fun _ b' hrun => ?_
        obtain rfl := Build.run_modify.mp hrun
        exact .same h₂.keeps.tidy rfl rfl rfl rfl
      apply hnumber.bind
      intro _ b₃ hkeeps
      have hregion := lowerProtected_follows (h.finalBody b₂.nextFinal hcopy) 1 hbody hhandlers
        (h₂.later hkeeps)
      have hall := hregion.within.bind fun _ _ hreserved => hreserved.enter_finish
      simp only [bind_assoc] at hall
      exact hall

end

mutual

/-- Statements go on under watch in all surroundings. -/
theorem lowerStmt_steady : (s : Stmt) → ∀ {fs : List Frame} {gs : List FlowTyping.Frame},
    Stacked fs gs →
      Steady (fs.map Frame.region) (lowerStmt fs s) (FlowTyping.lowerStmt gs s)
  | .localDecl name qualifier init, _, _, h => lowerDecl_steady h name qualifier init
  | .assign target value, _, _, h => lowerAssign_steady h target value
  | .expr value, _, _, h => (lowerExpr_goes h value).value.steady.discard
  | .ifElse condition thenBody elseBody, _, _, h =>
      lowerIf_steady h condition (lowerStmts_steady thenBody) (lowerElse_steady elseBody h)
  | .whileLoop label condition body, _, _, h =>
      lowerWhile_steady h label condition (lowerStmts_steady body)
  | .doWhile label body condition, _, _, h =>
      lowerDoWhile_steady h label condition (lowerStmts_steady body)
  | .forLoop label init condition update body, _, _, h =>
      lowerFor_steady h label condition (lowerStmts_steady init) (lowerStmts_steady update)
        (lowerStmts_steady body)
  | .breakLoop label, _, _, h => jump_steady h label true
  | .continueLoop label, _, _, h => jump_steady h label false
  | .returnValue value, _, _, h => lowerReturn_steady h value
  | .throw _ value, _, _, h =>
      .bind (lowerReceiver_steady h value) fun _ => emitRaising_steady h _ _
  | .tryCatch body handlers finalBody, _, _, h =>
      lowerTry_steady h (lowerStmts_steady body) (clauses_steady handlers)
        (finalBody_steady finalBody)
  | .assert condition, _, _, h => lowerAssert_steady h condition

theorem lowerStmts_steady : (body : List Stmt) → SteadyBody body
  | [] => fun _ => .pure ()
  | s :: rest => fun h => .bind (lowerStmt_steady s h).balanced fun _ => lowerStmts_steady rest h

theorem lowerElse_steady : (body : Option (List Stmt)) → ∀ {fs : List Frame}
    {gs : List FlowTyping.Frame}, Stacked fs gs →
      Steady (fs.map Frame.region) (lowerElse fs body) (FlowTyping.lowerElse gs body)
  | none, _, _, _ => .pure ()
  | some body, _, _, h => (lowerStmts_steady body h).inScope

theorem finalBody_steady : (finalBody : Option (List Stmt)) → ∀ body ∈ finalBody, SteadyBody body
  | none, _, h => nomatch h
  | some body, _, h => Option.some.inj h ▸ lowerStmts_steady body

theorem clauses_steady : (handlers : List Handler) → ∀ h ∈ handlers, SteadyBody h.body
  | [], _, h => nomatch h
  | .clause _ _ body :: rest, h, hmem => by
      rcases List.mem_cons.mp hmem with rfl | hmem
      · exact lowerStmts_steady body
      · exact clauses_steady rest h hmem

end

/-- The construction of a unit goes on under watch from its start. -/
theorem build_follows (u : ProgramUnit) :
    Follows []
      (do
        let first ← newBlock
        link Build.entryId first
        setCurrent first
        inScope (lowerStmts [] u.body)
        closeWith Build.exitId)
      u.build (Build.start u.params) fun _ _ => True := by
  have hstart : (Build.start u.params).Tidy := .none rfl
  have hentry : (Build.start u.params).Waits Build.entryId ⟨[], .special .entry none⟩ :=
    ⟨rfl, nofun⟩
  apply (newBlock_follows hstart).bind
  intro first b₁ hmade
  have hentry₁ := hmade.keeps.waits hentry
  apply (link_follows first hentry₁.1 rfl).bind
  rintro _ _ rfl
  have hfresh : Building.Fresh { b₁ with drafts := b₁.drafts.modify Build.entryId fun d =>
      { d with exits := d.exits.link first } } first := by
    refine ⟨?_, hmade.waits.2⟩
    simp [Array.getElem?_modify, hmade.ne hentry, hmade.waits.1]
  apply (enter_follows hfresh).bind
  intro _ b₂ hentered
  apply ((lowerStmts_steady u.body .nil).inScope b₂ hentered.tidy).bind
  intro _ b₃ hkeeps
  exact (closeWith_follows hkeeps.tidy _).weaken fun _ _ _ => trivial

end Watched

/-- The construction of a unit never stops under watch, and has the same result as without: every
block that is connected has a free exit, every block that takes a node is open, and every part
leaves the regions and the depth of the scopes as it found them. -/
theorem ProgramUnit.watched_eq_lower (u : ProgramUnit) : u.watched = some u.lower := by
  have hlower : u.lower = (u.build.run (Build.start u.params)).bind fun r =>
      Build.finish u.name r.2 := rfl
  rw [ProgramUnit.watched, hlower]
  rw [(Watched.build_follows u).outcome_eq]
  cases u.build.run (Build.start u.params) <;> rfl

end FlowTyping
