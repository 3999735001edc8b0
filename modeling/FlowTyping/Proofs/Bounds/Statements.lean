import FlowTyping.Proofs.Bounds.Lowering

/-!
The lowering of statements and units with accesses in range.
-/

namespace FlowTyping

open Build

variable {n : Nat} {frames : List Frame} {b : Building}

theorem lowerAssert_safe (hframes : ∀ f ∈ frames, f.Ranged n) (condition : Expr) :
    SafeFrom n (lowerAssert frames condition) := by
  intro b hb hn
  apply (newBlock_safe hb).bind
  intro holds b₁ hb₁ h₁ hholds
  apply (newBlock_safe hb₁).bind
  intro fails b₂ hb₂ h₂ hfails
  have hn₂ := Nat.le_trans hn (h₁.trans h₂).drafts
  have hholds₂ := Nat.lt_of_lt_of_le hholds h₂.drafts
  apply ((lowerExpr_safe hframes condition).test hb₂ hn₂ hholds₂ hfails).bind
  rintro _ b₃ hb₃ h₃ -
  apply (enter_safe hb₃ (Nat.lt_of_lt_of_le hfails h₃.drafts)).bind
  rintro _ b₄ hb₄ h₄ -
  have hbefore₄ := (h₃.trans h₄).drafts
  apply (emitRaising_safe hframes hb₄ (Nat.le_trans hn₂ hbefore₄) _ _ true).discard.bind
  rintro _ b₅ hb₅ h₅ -
  have hholds₅ := Nat.lt_of_lt_of_le hholds₂ (Nat.le_trans hbefore₄ h₅.drafts)
  exact (enter_safe hb₅ hholds₅).weaken fun _ _ _ _ _ => trivial

theorem lowerDecl_safe (hframes : ∀ f ∈ frames, f.Ranged n) (name : String)
    (qualifier : Option String) (init : Option Expr) :
    SafeFrom n (lowerDecl frames name qualifier init) := by
  intro b hb hn
  apply (lowerReceiver_safe hframes init hb hn).bind
  rintro value b₁ hb₁ - -
  apply (declare_safe hb₁ ⟨name, qualifier, .local⟩).bind
  rintro _ b₂ hb₂ - -
  apply (emit_safe hb₂ _).discard.bind
  rintro _ b₃ hb₃ - -
  cases value with
  | none => exact .pure hb₃ trivial
  | some value => exact (emit_safe hb₃ _).discard

theorem lowerAssign_safe (hframes : ∀ f ∈ frames, f.Ranged n) (target : Target) (value : Expr) :
    SafeFrom n (lowerAssign frames target value) := by
  intro b hb hn
  cases target with
  | «local» name =>
      apply ((lowerExpr_safe hframes value).value hb hn).bind
      rintro id b₁ hb₁ - -
      apply (lookup_safe hb₁ name).bind
      rintro var _ hb₂ - rfl
      exact (emit_safe hb₂ _).discard
  | field receiver name =>
      apply ((lowerExpr_safe hframes receiver).value hb hn).bind
      rintro r b₁ hb₁ h₁ -
      apply ((lowerExpr_safe hframes value).value hb₁ (Nat.le_trans hn h₁.drafts)).bind
      rintro id b₂ hb₂ - -
      exact (emit_safe hb₂ _).discard

/-- A counted loop from its body on: the body, the update, and back to the test. -/
theorem forRound_safe {update : Build Unit} {body : Frame → Build Unit} {frame : Frame}
    {head bodyBlock updateBlock exitBlock : BlockId} (hupdate : SafeFrom n update)
    (hbody : SafeFrom n (body frame)) (hb : b.Ranged) (hn : n ≤ b.drafts.size)
    (hheadBlock : head < b.drafts.size) (hbodyBlock : bodyBlock < b.drafts.size)
    (hupdateBlock : updateBlock < b.drafts.size) (hexitBlock : exitBlock < b.drafts.size) :
    Safe (do
      setCurrent (some bodyBlock)
      inScope (body frame)
      closeWith updateBlock
      setCurrent (some updateBlock)
      update
      closeWith head
      modify fun b => { b with scopes := b.scopes.drop 1 }
      return exitBlock) b fun exit b' => exit < b'.drafts.size := by
  apply (enter_safe hb hbodyBlock).bind
  rintro _ b₁ hb₁ h₁ -
  apply (inScope_safe hbody hb₁ (Nat.le_trans hn h₁.drafts)).bind
  rintro _ b₂ hb₂ h₂ -
  have hbefore₂ := h₁.trans h₂
  apply (closeWith_safe hb₂ (Nat.lt_of_lt_of_le hupdateBlock hbefore₂.drafts)).bind
  rintro _ b₃ hb₃ h₃ -
  have hbefore₃ := hbefore₂.trans h₃
  apply (enter_safe hb₃ (Nat.lt_of_lt_of_le hupdateBlock hbefore₃.drafts)).bind
  rintro _ b₄ hb₄ h₄ -
  have hbefore₄ := hbefore₃.trans h₄
  apply (hupdate b₄ hb₄ (Nat.le_trans hn hbefore₄.drafts)).bind
  rintro _ b₅ hb₅ h₅ -
  have hbefore₅ := hbefore₄.trans h₅
  apply (closeWith_safe hb₅ (Nat.lt_of_lt_of_le hheadBlock hbefore₅.drafts)).bind
  rintro _ b₆ hb₆ h₆ -
  apply (scopes_safe hb₆ fun scopes => scopes.drop 1).bind
  rintro _ b₇ hb₇ h₇ -
  exact .pure hb₇
    (Nat.lt_of_lt_of_le hexitBlock (hbefore₅.trans (h₆.trans h₇)).drafts)

theorem lowerFor_safe (hframes : ∀ f ∈ frames, f.Ranged n) (label : Option String)
    {init update : Build Unit} {body : Frame → Build Unit} (hinit : SafeFrom n init)
    (condition : Option Expr) (hupdate : SafeFrom n update)
    (hbody : ∀ frame n', frame.Ranged n' → n ≤ n' → SafeFrom n' (body frame)) (hb : b.Ranged)
    (hn : n ≤ b.drafts.size) :
    Safe (lowerFor frames label init condition update body) b
      fun exit b' => exit < b'.drafts.size := by
  apply (scopes_safe hb fun scopes => [] :: scopes).bind
  rintro _ b₁ hb₁ h₁ -
  have hn₁ := Nat.le_trans hn h₁.drafts
  apply (hinit b₁ hb₁ hn₁).bind
  rintro _ b₂ hb₂ h₂ -
  have hn₂ := Nat.le_trans hn₁ h₂.drafts
  apply (newLoopHead_safe hb₂).bind
  intro head b₃ hb₃ h₃ hhead
  apply (closeWith_safe hb₃ hhead).bind
  rintro _ b₄ hb₄ h₄ -
  have hhead₄ := Nat.lt_of_lt_of_le hhead h₄.drafts
  apply (newBlock_safe hb₄).bind
  intro testBlock b₅ hb₅ h₅ htest
  have hhead₅ := Nat.lt_of_lt_of_le hhead₄ h₅.drafts
  apply (link_safe hb₅ hhead₅ htest).bind
  rintro _ b₆ hb₆ h₆ -
  apply (newBlock_safe hb₆).bind
  intro bodyBlock b₇ hb₇ h₇ hbodyBlock
  apply (newBlock_safe hb₇).bind
  intro updateBlock b₈ hb₈ h₈ hupdateBlock
  apply (newBlock_safe hb₈).bind
  intro exitBlock b₉ hb₉ h₉ hexit
  have hbefore₉ := h₆.trans (h₇.trans (h₈.trans h₉))
  have hhead₉ := Nat.lt_of_lt_of_le hhead₅ hbefore₉.drafts
  have hbody₉ := Nat.lt_of_lt_of_le hbodyBlock (h₈.trans h₉).drafts
  have hupdate₉ := Nat.lt_of_lt_of_le hupdateBlock h₉.drafts
  have hn₉ : n ≤ b₉.drafts.size :=
    Nat.le_trans hn₂ (h₃.trans (h₄.trans (h₅.trans hbefore₉))).drafts
  apply (enter_safe hb₉ (Nat.lt_of_lt_of_le htest hbefore₉.drafts)).bind
  rintro _ b₁₀ hb₁₀ h₁₀ -
  have hn₁₀ := Nat.le_trans hn₉ h₁₀.drafts
  have hbody₁₀ := Nat.lt_of_lt_of_le hbody₉ h₁₀.drafts
  have hexit₁₀ := Nat.lt_of_lt_of_le hexit h₁₀.drafts
  have hupdate' : SafeFrom b₉.drafts.size update :=
    fun b hb hsize => hupdate b hb (Nat.le_trans hn₉ hsize)
  have hround {b : Building} (hb : b.Ranged) (h : b₁₀.Before b) :=
    forRound_safe hupdate' (hbody (.loop label updateBlock exitBlock) _ ⟨hupdate₉, hexit⟩ hn₉)
      hb (h₁₀.trans h).drafts
      (Nat.lt_of_lt_of_le hhead₉ (h₁₀.trans h).drafts) (Nat.lt_of_lt_of_le hbody₁₀ h.drafts)
      (Nat.lt_of_lt_of_le hupdate₉ (h₁₀.trans h).drafts) (Nat.lt_of_lt_of_le hexit₁₀ h.drafts)
  cases condition with
  | none =>
      apply (closeWith_safe hb₁₀ hbody₁₀).bind
      rintro _ b₁₁ hb₁₁ h₁₁ -
      exact hround hb₁₁ h₁₁
  | some condition =>
      apply ((lowerExpr_safe hframes condition).test hb₁₀ hn₁₀ hbody₁₀ hexit₁₀).bind
      rintro _ b₁₁ hb₁₁ h₁₁ -
      exact hround hb₁₁ h₁₁

theorem handlerBlocks_safe (handlers : List Handler) (hb : b.Ranged) :
    Safe (handlers.mapM fun h => do
      let block ← newBlock
      return (h.exception, block)) b fun targets b' => ∀ t ∈ targets, t.2 < b'.drafts.size := by
  induction handlers generalizing b with
  | nil => exact .pure hb (by simp)
  | cons handler rest ih =>
      rw [List.mapM_cons]
      have hfirst : Safe (newBlock >>= fun block => pure (handler.exception, block)) b
          fun t b' => t.2 < b'.drafts.size := by
        apply (newBlock_safe hb).bind
        intro block b' hb' _ hblock
        exact .pure hb' hblock
      apply hfirst.bind
      intro t b₁ hb₁ h₁ ht
      apply (ih hb₁).bind
      intro targets b₂ hb₂ h₂ htargets
      exact .pure hb₂
        (List.forall_mem_cons.mpr ⟨Nat.lt_of_lt_of_le ht h₂.drafts, htargets⟩)

theorem checkHandlers_safe (hb : b.Ranged) (categories : List String) :
    Safe (checkHandlers [] categories : Build Unit) b fun _ b' => b' = b := by
  cases checkHandlers [] categories with
  | error e => exact .throw e
  | ok _ => exact .pure hb rfl

/-- A protected region with its clauses, given that its parts are safe. -/
theorem protected_safe {body : List Stmt} {handlers : List Handler} {crossed : List Crossing}
    {targets : List (String × BlockId)} {after : BlockId}
    (hframes : ∀ f ∈ frames, f.Ranged b.drafts.size)
    (hcrossed : ∀ c ∈ crossed, SafeFrom b.drafts.size c.copy) (hb : b.Ranged)
    (htargets : ∀ t ∈ targets, t.2 < b.drafts.size) (hafter : after < b.drafts.size)
    (hbody : ∀ frames, (∀ f ∈ frames, f.Ranged b.drafts.size) →
      SafeFrom b.drafts.size (lowerStmts frames body))
    (hhandlers : ∀ frames leave blocks, (∀ f ∈ frames, f.Ranged b.drafts.size) →
      SafeFrom b.drafts.size leave → (∀ block ∈ blocks, block < b.drafts.size) →
        SafeFrom b.drafts.size (lowerHandlers frames leave handlers blocks)) :
    Safe (do
      let inner := crossed.map (fun c => Frame.finalBody c.id c.copy) ++ frames
      inScope (lowerStmts (.handlers targets :: inner) body)
      closeWith (← leaveThrough crossed after)
      lowerHandlers inner (do closeWith (← leaveThrough crossed after)) handlers
        (targets.map Prod.snd)
      setCurrent after) b fun _ _ => True := by
  have hinner : ∀ f ∈ crossed.map (fun c => Frame.finalBody c.id c.copy) ++ frames,
      f.Ranged b.drafts.size := by
    intro f hf
    rcases List.mem_append.mp hf with hf | hf
    · obtain ⟨c, hc, rfl⟩ := List.mem_map.mp hf
      exact hcrossed c hc
    · exact hframes f hf
  have hleave : SafeFrom b.drafts.size (leaveThrough crossed after >>= closeWith) := by
    intro b' hb' hsize
    apply (leaveThrough_safe hcrossed hb' hsize (Nat.lt_of_lt_of_le hafter hsize)).bind
    intro first b'' hb'' _ hfirst
    exact closeWith_safe hb'' hfirst
  have hblocks : ∀ block ∈ targets.map Prod.snd, block < b.drafts.size := by
    intro block hblock
    obtain ⟨t, ht, rfl⟩ := List.mem_map.mp hblock
    exact htargets t ht
  have hregion : ∀ f ∈ Frame.handlers targets ::
      (crossed.map (fun c => Frame.finalBody c.id c.copy) ++ frames), f.Ranged b.drafts.size :=
    List.forall_mem_cons.mpr ⟨htargets, hinner⟩
  have hbodySafe := hbody _ hregion
  apply (inScope_safe hbodySafe hb (Nat.le_refl _)).bind
  rintro _ b₁ hb₁ h₁ -
  apply (leaveThrough_safe hcrossed hb₁ h₁.drafts (Nat.lt_of_lt_of_le hafter h₁.drafts)).bind
  intro first b₂ hb₂ h₂ hfirst
  apply (closeWith_safe hb₂ hfirst).bind
  rintro _ b₃ hb₃ h₃ -
  have hbefore₃ := h₁.trans (h₂.trans h₃)
  apply (hhandlers _ _ _ hinner hleave hblocks b₃ hb₃ hbefore₃.drafts).bind
  rintro _ b₄ hb₄ h₄ -
  exact (enter_safe hb₄ (Nat.lt_of_lt_of_le hafter (hbefore₃.trans h₄).drafts)).weaken
    fun _ _ _ _ _ => trivial

mutual

theorem lowerStmt_safe {frames : List Frame} {n : Nat} (hframes : ∀ f ∈ frames, f.Ranged n) :
    (s : Stmt) → SafeFrom n (lowerStmt frames s)
  | .localDecl name qualifier init => lowerDecl_safe hframes name qualifier init
  | .assign target value => lowerAssign_safe hframes target value
  | .expr value => fun _ hb hn => ((lowerExpr_safe hframes value).value hb hn).discard
  | .ifElse condition thenBody elseBody => by
      intro b hb hn
      apply (newBlock_safe hb).bind
      intro thenBlock b₁ hb₁ h₁ hthen
      apply (newBlock_safe hb₁).bind
      intro elseBlock b₂ hb₂ h₂ helse
      apply (newBlock_safe hb₂).bind
      intro mergeBlock b₃ hb₃ h₃ hmerge
      have hn₃ := Nat.le_trans hn (h₁.trans (h₂.trans h₃)).drafts
      have hthen₃ := Nat.lt_of_lt_of_le hthen (h₂.trans h₃).drafts
      have helse₃ := Nat.lt_of_lt_of_le helse h₃.drafts
      apply ((lowerExpr_safe hframes condition).test hb₃ hn₃ hthen₃ helse₃).bind
      rintro _ b₄ hb₄ h₄ -
      apply (enter_safe hb₄ (Nat.lt_of_lt_of_le hthen₃ h₄.drafts)).bind
      rintro _ b₅ hb₅ h₅ -
      have hbefore₅ := h₄.trans h₅
      apply (inScope_safe (lowerStmts_safe hframes thenBody) hb₅
        (Nat.le_trans hn₃ hbefore₅.drafts)).bind
      rintro _ b₆ hb₆ h₆ -
      have hbefore₆ := hbefore₅.trans h₆
      apply (closeWith_safe hb₆ (Nat.lt_of_lt_of_le hmerge hbefore₆.drafts)).bind
      rintro _ b₇ hb₇ h₇ -
      have hbefore₇ := hbefore₆.trans h₇
      apply (enter_safe hb₇ (Nat.lt_of_lt_of_le helse₃ hbefore₇.drafts)).bind
      rintro _ b₈ hb₈ h₈ -
      have hbefore₈ := hbefore₇.trans h₈
      apply (lowerElse_safe hframes elseBody b₈ hb₈ (Nat.le_trans hn₃ hbefore₈.drafts)).bind
      rintro _ b₉ hb₉ h₉ -
      have hmerge₉ := Nat.lt_of_lt_of_le hmerge (hbefore₈.trans h₉).drafts
      apply (closeWith_safe hb₉ hmerge₉).bind
      rintro _ b₁₀ hb₁₀ h₁₀ -
      exact (enter_safe hb₁₀ (Nat.lt_of_lt_of_le hmerge₉ h₁₀.drafts)).weaken
        fun _ _ _ _ _ => trivial
  | .whileLoop label condition body => by
      intro b hb hn
      apply (newLoopHead_safe hb).bind
      intro head b₁ hb₁ h₁ hhead
      apply (closeWith_safe hb₁ hhead).bind
      rintro _ b₂ hb₂ h₂ -
      apply (newBlock_safe hb₂).bind
      intro testBlock b₃ hb₃ h₃ htest
      have hhead₃ := Nat.lt_of_lt_of_le hhead (h₂.trans h₃).drafts
      apply (link_safe hb₃ hhead₃ htest).bind
      rintro _ b₄ hb₄ h₄ -
      apply (newBlock_safe hb₄).bind
      intro bodyBlock b₅ hb₅ h₅ hbodyBlock
      apply (newBlock_safe hb₅).bind
      intro exitBlock b₆ hb₆ h₆ hexit
      have hbefore₆ := h₄.trans (h₅.trans h₆)
      have hn₆ := Nat.le_trans hn (h₁.trans (h₂.trans (h₃.trans hbefore₆))).drafts
      have hhead₆ := Nat.lt_of_lt_of_le hhead₃ hbefore₆.drafts
      have hbody₆ := Nat.lt_of_lt_of_le hbodyBlock h₆.drafts
      apply (enter_safe hb₆ (Nat.lt_of_lt_of_le htest hbefore₆.drafts)).bind
      rintro _ b₇ hb₇ h₇ -
      apply ((lowerExpr_safe hframes condition).test hb₇ (Nat.le_trans hn₆ h₇.drafts)
        (Nat.lt_of_lt_of_le hbody₆ h₇.drafts) (Nat.lt_of_lt_of_le hexit h₇.drafts)).bind
      rintro _ b₈ hb₈ h₈ -
      have hbefore₈ := h₇.trans h₈
      apply (enter_safe hb₈ (Nat.lt_of_lt_of_le hbody₆ hbefore₈.drafts)).bind
      rintro _ b₉ hb₉ h₉ -
      have hbefore₉ := hbefore₈.trans h₉
      have hinner : ∀ f ∈ Frame.loop label head exitBlock :: frames, f.Ranged b₆.drafts.size :=
        List.forall_mem_cons.mpr ⟨⟨hhead₆, hexit⟩, Frame.ranged_mono hframes hn₆⟩
      apply (inScope_safe (lowerStmts_safe hinner body) hb₉ hbefore₉.drafts).bind
      rintro _ b₁₀ hb₁₀ h₁₀ -
      have hbefore₁₀ := hbefore₉.trans h₁₀
      apply (closeWith_safe hb₁₀ (Nat.lt_of_lt_of_le hhead₆ hbefore₁₀.drafts)).bind
      rintro _ b₁₁ hb₁₁ h₁₁ -
      exact (enter_safe hb₁₁ (Nat.lt_of_lt_of_le hexit (hbefore₁₀.trans h₁₁).drafts)).weaken
        fun _ _ _ _ _ => trivial
  | .doWhile label body condition => by
      intro b hb hn
      apply (newLoopHead_safe hb).bind
      intro head b₁ hb₁ h₁ hhead
      apply (closeWith_safe hb₁ hhead).bind
      rintro _ b₂ hb₂ h₂ -
      apply (newBlock_safe hb₂).bind
      intro bodyBlock b₃ hb₃ h₃ hbodyBlock
      have hhead₃ := Nat.lt_of_lt_of_le hhead (h₂.trans h₃).drafts
      apply (link_safe hb₃ hhead₃ hbodyBlock).bind
      rintro _ b₄ hb₄ h₄ -
      apply (newBlock_safe hb₄).bind
      intro testBlock b₅ hb₅ h₅ htest
      apply (newBlock_safe hb₅).bind
      intro exitBlock b₆ hb₆ h₆ hexit
      have hbefore₆ := h₄.trans (h₅.trans h₆)
      have hn₆ := Nat.le_trans hn (h₁.trans (h₂.trans (h₃.trans hbefore₆))).drafts
      have hhead₆ := Nat.lt_of_lt_of_le hhead₃ hbefore₆.drafts
      have htest₆ := Nat.lt_of_lt_of_le htest h₆.drafts
      apply (enter_safe hb₆ (Nat.lt_of_lt_of_le hbodyBlock hbefore₆.drafts)).bind
      rintro _ b₇ hb₇ h₇ -
      have hinner : ∀ f ∈ Frame.loop label testBlock exitBlock :: frames,
          f.Ranged b₆.drafts.size :=
        List.forall_mem_cons.mpr ⟨⟨htest₆, hexit⟩, Frame.ranged_mono hframes hn₆⟩
      apply (inScope_safe (lowerStmts_safe hinner body) hb₇ h₇.drafts).bind
      rintro _ b₈ hb₈ h₈ -
      have hbefore₈ := h₇.trans h₈
      apply (closeWith_safe hb₈ (Nat.lt_of_lt_of_le htest₆ hbefore₈.drafts)).bind
      rintro _ b₉ hb₉ h₉ -
      have hbefore₉ := hbefore₈.trans h₉
      apply (enter_safe hb₉ (Nat.lt_of_lt_of_le htest₆ hbefore₉.drafts)).bind
      rintro _ b₁₀ hb₁₀ h₁₀ -
      have hbefore₁₀ := hbefore₉.trans h₁₀
      have hexit₁₀ := Nat.lt_of_lt_of_le hexit hbefore₁₀.drafts
      apply ((lowerExpr_safe hframes condition).test hb₁₀ (Nat.le_trans hn₆ hbefore₁₀.drafts)
        (Nat.lt_of_lt_of_le hhead₆ hbefore₁₀.drafts) hexit₁₀).bind
      rintro _ b₁₁ hb₁₁ h₁₁ -
      exact (enter_safe hb₁₁ (Nat.lt_of_lt_of_le hexit₁₀ h₁₁.drafts)).weaken
        fun _ _ _ _ _ => trivial
  | .forLoop label init condition update body => by
      intro b hb hn
      apply (lowerFor_safe hframes label (lowerStmts_safe hframes init) condition
        (lowerStmts_safe hframes update)
        (fun frame n' hframe hn' => lowerStmts_safe
          (List.forall_mem_cons.mpr ⟨hframe, Frame.ranged_mono hframes hn'⟩) body) hb hn).bind
      intro exitBlock b' hb' _ hexit
      exact (enter_safe hb' hexit).weaken fun _ _ _ _ _ => trivial
  | .breakLoop label => fun _ hb hn => jump_safe hframes hb hn label true
  | .continueLoop label => fun _ hb hn => jump_safe hframes hb hn label false
  | .returnValue value => by
      intro b hb hn
      apply (lowerReceiver_safe hframes value hb hn).bind
      rintro value b₁ hb₁ h₁ -
      apply (emit_safe hb₁ _).discard.bind
      rintro _ b₂ hb₂ h₂ -
      have hexit : exitId < b₂.drafts.size := Nat.lt_of_lt_of_le (by decide) hb₂.designated
      apply (leaveThrough_safe (Frame.ranged_crossings hframes) hb₂
        (Nat.le_trans hn (h₁.trans h₂).drafts) hexit).bind
      intro first b₃ hb₃ _ hfirst
      exact closeWith_safe hb₃ hfirst
  | .throw exception value => by
      intro b hb hn
      apply (lowerReceiver_safe hframes value hb hn).bind
      rintro value b₁ hb₁ h₁ -
      exact (emitRaising_safe hframes hb₁ (Nat.le_trans hn h₁.drafts) _ _ true).discard
  | .tryCatch body handlers finalBody => by
      intro b hb hn
      apply (checkHandlers_safe hb _).bind
      rintro _ _ hb - rfl
      apply (newBlock_safe hb).bind
      intro after b₁ hb₁ h₁ hafter
      apply (handlerBlocks_safe handlers hb₁).bind
      intro targets b₂ hb₂ h₂ htargets
      have hn₂ := Nat.le_trans hn (h₁.trans h₂).drafts
      have hafter₂ := Nat.lt_of_lt_of_le hafter h₂.drafts
      cases finalBody with
      | none =>
          exact protected_safe (Frame.ranged_mono hframes hn₂) (by simp) hb₂ htargets hafter₂
            (fun _ hinner => lowerStmts_safe hinner body)
            fun _ _ _ hinner hleave hblocks => lowerHandlers_safe hinner hleave handlers _ hblocks
      | some finalBody =>
          apply Safe.get fun _ _ _ => rfl
          apply (Safe.change (fun _ _ _ => rfl) { hb₂ with }).bind
          rintro _ _ hb₃ - rfl
          have hcopy : SafeFrom b₂.drafts.size (inScope (lowerStmts frames finalBody)) :=
            fun b hb hsize =>
              inScope_safe (lowerStmts_safe hframes finalBody) hb (Nat.le_trans hn₂ hsize)
          exact protected_safe (Frame.ranged_mono hframes hn₂) (by simpa using hcopy) hb₃ htargets
            hafter₂ (fun _ hinner => lowerStmts_safe hinner body)
            fun _ _ _ hinner hleave hblocks => lowerHandlers_safe hinner hleave handlers _ hblocks
  | .assert condition => lowerAssert_safe hframes condition

theorem lowerStmts_safe {frames : List Frame} {n : Nat} (hframes : ∀ f ∈ frames, f.Ranged n) :
    (stmts : List Stmt) → SafeFrom n (lowerStmts frames stmts)
  | [] => fun _ hb _ => .pure hb trivial
  | s :: rest => by
      intro b hb hn
      apply (lowerStmt_safe hframes s b hb hn).bind
      rintro _ b₁ hb₁ h₁ -
      exact lowerStmts_safe hframes rest b₁ hb₁ (Nat.le_trans hn h₁.drafts)

theorem lowerElse_safe {frames : List Frame} {n : Nat} (hframes : ∀ f ∈ frames, f.Ranged n) :
    (body : Option (List Stmt)) → SafeFrom n (lowerElse frames body)
  | none => fun _ hb _ => .pure hb trivial
  | some body => fun _ hb hn => inScope_safe (lowerStmts_safe hframes body) hb hn

theorem lowerHandlers_safe {frames : List Frame} {n : Nat} {leave : Build Unit}
    (hframes : ∀ f ∈ frames, f.Ranged n) (hleave : SafeFrom n leave) :
    (handlers : List Handler) → (blocks : List BlockId) → (∀ block ∈ blocks, block < n) →
      SafeFrom n (lowerHandlers frames leave handlers blocks)
  | [], _, _ => fun _ hb _ => .pure hb trivial
  | .clause _ _ _ :: _, [], _ => fun _ hb _ => .pure hb trivial
  | .clause _ binding body :: rest, block :: blocks, hblocks => by
      intro b hb hn
      rw [List.forall_mem_cons] at hblocks
      have hclause : SafeFrom n (do
          if let some name := binding then
            let var : LocalVar := ⟨name, none, .local⟩
            declare var
            discard (emit (.localDecl var))
          lowerStmts frames body) := by
        intro b hb hn
        cases binding with
        | none => exact lowerStmts_safe hframes body b hb hn
        | some name =>
            apply (declare_safe hb ⟨name, none, .local⟩).bind
            rintro _ b₁ hb₁ h₁ -
            apply (emit_safe hb₁ _).discard.bind
            rintro _ b₂ hb₂ h₂ -
            exact lowerStmts_safe hframes body b₂ hb₂ (Nat.le_trans hn (h₁.trans h₂).drafts)
      apply (enter_safe hb (Nat.lt_of_lt_of_le hblocks.1 hn)).bind
      rintro _ b₁ hb₁ h₁ -
      have hn₁ := Nat.le_trans hn h₁.drafts
      apply (inScope_safe hclause hb₁ hn₁).bind
      rintro _ b₂ hb₂ h₂ -
      have hn₂ := Nat.le_trans hn₁ h₂.drafts
      apply (hleave b₂ hb₂ hn₂).bind
      rintro _ b₃ hb₃ h₃ -
      exact lowerHandlers_safe hframes hleave rest blocks hblocks.2 b₃ hb₃
        (Nat.le_trans hn₂ h₃.drafts)

end

end FlowTyping
