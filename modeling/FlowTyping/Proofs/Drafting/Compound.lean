import FlowTyping.Proofs.Drafting.Statements
import FlowTyping.Proofs.Lowering.Protected

/-!
Statements with bodies are made of steps, and with them every unit. The places of the
blocks that a statement makes are chosen before anything is built between them.
-/

namespace FlowTyping

open Build Building

section

variable {frames : List Frame} {b b' b₁ b₂ : Building} {G : Marks} {k : Span} {u : Unit}
  {body : List Stmt} {head t e : Nat} {p q r : WithTop ℚ}

/-- A body is made of steps, wherever it is built. -/
structure StepwiseBody (body : List Stmt) : Prop where
  steps : ∀ {frames : List Frame}, Frame.Copied frames → Stepwise frames (lowerStmts frames body)

theorem StepwiseBody.inside (h : StepwiseBody body) (hcopied : Frame.Copied frames) :
    Stepwise frames (inScope (lowerStmts frames body)) :=
  (h.steps hcopied).inside

theorem lowerIf_stepwise (hcopied : Frame.Copied frames) (condition : Expr)
    {thenBody : List Stmt} {elseBody : Option (List Stmt)} (hthen : StepwiseBody thenBody)
    (helse : Stepwise frames (lowerElse frames elseBody)) :
    Stepwise frames (lowerStmt frames (.ifElse condition thenBody elseBody)) where
  run {b b' G k u} h hfits hs hrun := by
    simp only [lowerStmt, run_bind] at hrun
    obtain ⟨t, b₁, h₁, e, b₂, h₂, m, b₃, h₃, _, b₄, h₄, _, b₅, h₅, _, b₆, h₆, _, b₇, h₇,
      _, b₈, h₈, _, b₉, h₉, _, b₁₀, h₁₀, h₁₁⟩ := hrun
    exact diamond_drafted (lowerExpr_stepwise hcopied condition) (hthen.inside hcopied) helse h
      hfits hs h₁ h₂ h₃ h₄ h₅ h₆ h₇ h₈ h₉ h₁₀ h₁₁

/-- The code in a loop may lead to its head. -/
theorem Marks.allows_latch (hn : G.blocks[head]? = some ⟨p, head :: k.loops, .head⟩) :
    G.Allows ((k.around head).upTo q) head :=
  allows_head hn rfl List.mem_cons_self fun _ hl => hl

/-- The code in a loop may lead to what comes after the loop. -/
theorem Marks.allows_leave (hn : G.blocks[e]? = some (k.block q)) (h : p ≤ q) :
    G.Allows ((k.around head).upTo p) e :=
  allows_of_le hn trivial h fun _ => List.mem_cons_of_mem head

theorem Frame.Fits.around (h : Frame.Fits G k frames) (head : BlockId) (hq : q ≤ k.stop) :
    Frame.Fits G ((k.around head).upTo q) frames :=
  h.inside ((Span.upTo_inside (k := k.around head) hq).trans (k.around_inside head))

theorem lowerWhile_stepwise (hcopied : Frame.Copied frames) (label : Option String)
    (condition : Expr) (hbody : StepwiseBody body) :
    Stepwise frames (lowerStmt frames (.whileLoop label condition body)) where
  run {b b' G k u} h hfits hs hrun := by
    simp only [lowerStmt, run_bind] at hrun
    obtain ⟨head, b₁, h₁, _, b₂, h₂, first, b₃, h₃, _, b₄, h₄, t, b₅, h₅, e, b₆, h₆,
      _, b₇, h₇, _, b₈, h₈, _, b₉, h₉, _, b₁₀, h₁₀, _, b₁₁, h₁₁, h₁₂⟩ := hrun
    obtain ⟨s, hs₀, hs⟩ := hs.between
    obtain ⟨r, hr, hs⟩ := hs.between
    obtain ⟨q, hq, hs⟩ := hs.between
    obtain ⟨p, hp, hs⟩ := hs.between
    obtain ⟨G₄, hd₄, hm₄, hhead, hfirst, hle, hle', -⟩ := loopHead_drafted (k := k) h hs hp
      (hq.trans (hr.trans hs₀)) h₁ h₂ h₃ h₄
    obtain ⟨G₅, hmade₅⟩ := newCode_drafted (k := k.around head) hd₄ (hr.trans hs₀) h₅
    obtain ⟨G₆, hmade₆⟩ := newCode_drafted (k := k) hmade₅.drafted hs₀ h₆
    have hm₅₆ := hmade₅.moves.trans hmade₆.moves
    have hlt := hfirst.fresh.lt
    have hlt₅ := hmade₅.reserved.fresh.lt
    have hsize := hm₄.grows.size_le
    have hle₅ := hmade₅.le
    have hle₆ := hmade₆.le
    obtain ⟨hd₇, hm₇, hs₇, -⟩ := turn_drafted (k := (k.around head).upTo r) hmade₆.drafted
      (hfirst.later hm₅₆ (by simp)) ⟨hq, fun _ hl => hl⟩ h₇
    have ht := (hmade₅.reserved.later hmade₆.moves (by simp)).later hm₇ (by simp; omega)
    have he := hmade₆.reserved.later hm₇ (by simp; omega)
    have hm₀₇ := (hm₄.trans hm₅₆).enter hm₇ hle'
    obtain ⟨G₈, hd₈, hm₈⟩ := (lowerExpr_stepwise hcopied condition).test.run hd₇
      ((hfits.extend hm₀₇.marks).around head (hr.trans hs₀).le) hs₇
      (Marks.allows_block ht.mark (le_refl r)) (Marks.allows_leave he.mark hr.le) h₈
    have hm₀₈ := hm₀₇.trans hm₈
    have hlatch : G₈.Allows ((k.around head).upTo s) head :=
      Marks.allows_latch (hm₈.marks.block (hm₇.marks.block (hm₅₆.marks.block hhead)))
    have he := he.later hm₈ (by simp)
    have hloop : Frame.Copied (.loop label head e :: frames) := hcopied
    obtain ⟨G₁₁, hd₁₁, hm₁₁⟩ := arm_drafted (hbody.inside hloop) hd₈
      ⟨hlatch, Marks.allows_leave he.mark (le_refl s),
        (hfits.extend hm₀₈.marks).around head hs₀.le⟩
      (ht.later hm₈ (by simp)) ⟨hr, fun _ hl => hl⟩ hlatch h₉ h₁₀ h₁₁
    obtain ⟨hd₁₂, hm₁₂, hs₁₂, -⟩ := turn_drafted hd₁₁ (he.later hm₁₁ (by simp; omega))
      (Span.block_within hs₀) h₁₂
    exact ⟨G₁₁, hd₁₂, (hm₀₈.enter hm₁₁ (by omega)).enter hm₁₂ (by omega), hs₁₂⟩

theorem lowerDoWhile_stepwise (hcopied : Frame.Copied frames) (label : Option String)
    (condition : Expr) (hbody : StepwiseBody body) :
    Stepwise frames (lowerStmt frames (.doWhile label body condition)) where
  run {b b' G k u} h hfits hs hrun := by
    simp only [lowerStmt, run_bind] at hrun
    obtain ⟨head, b₁, h₁, _, b₂, h₂, first, b₃, h₃, _, b₄, h₄, t, b₅, h₅, e, b₆, h₆,
      _, b₇, h₇, _, b₈, h₈, _, b₉, h₉, _, b₁₀, h₁₀, _, b₁₁, h₁₁, h₁₂⟩ := hrun
    obtain ⟨s, hs₀, hs⟩ := hs.between
    obtain ⟨r, hr, hs⟩ := hs.between
    obtain ⟨q, hq, hs⟩ := hs.between
    obtain ⟨p, hp, hs⟩ := hs.between
    obtain ⟨G₄, hd₄, hm₄, hhead, hfirst, hle, hle', -⟩ := loopHead_drafted (k := k) h hs hp
      (hq.trans (hr.trans hs₀)) h₁ h₂ h₃ h₄
    obtain ⟨G₅, hmade₅⟩ := newCode_drafted (k := k.around head) hd₄ (hr.trans hs₀) h₅
    obtain ⟨G₆, hmade₆⟩ := newCode_drafted (k := k) hmade₅.drafted hs₀ h₆
    have hm₅₆ := hmade₅.moves.trans hmade₆.moves
    have hlt := hfirst.fresh.lt
    have hlt₅ := hmade₅.reserved.fresh.lt
    have hsize := hm₄.grows.size_le
    have hle₅ := hmade₅.le
    have hle₆ := hmade₆.le
    have hm₀₆ := hm₄.trans hm₅₆
    have ht := hmade₅.reserved.later hmade₆.moves (by simp)
    have he := hmade₆.reserved
    have htest := Marks.allows_block ht.mark (le_refl r)
    have hloop : Frame.Copied (.loop label t e :: frames) := hcopied
    obtain ⟨G₉, hd₉, hm₉⟩ := arm_drafted (hbody.inside hloop) hmade₆.drafted
      ⟨htest, Marks.allows_leave he.mark hr.le,
        (hfits.extend hm₀₆.marks).around head (hr.trans hs₀).le⟩
      (hfirst.later hm₅₆ (by simp)) ⟨hq, fun _ hl => hl⟩ htest h₇ h₈ h₉
    obtain ⟨hd₁₀, hm₁₀, hs₁₀, -⟩ := turn_drafted (k := (k.around head).upTo s) hd₉
      (ht.later hm₉ (by simp; omega)) ⟨hr, fun _ hl => hl⟩ h₁₀
    have he := (he.later hm₉ (by simp; omega)).later hm₁₀ (by simp; omega)
    have hm₀₁₀ := (hm₀₆.enter hm₉ hle').enter hm₁₀ (by omega)
    obtain ⟨G₁₁, hd₁₁, hm₁₁⟩ := (lowerExpr_stepwise hcopied condition).test.run hd₁₀
      ((hfits.extend hm₀₁₀.marks).around head hs₀.le) hs₁₀
      (Marks.allows_latch (hm₁₀.marks.block (hm₉.marks.block (hm₅₆.marks.block hhead))))
      (Marks.allows_leave he.mark (le_refl s)) h₁₁
    obtain ⟨hd₁₂, hm₁₂, hs₁₂, -⟩ := turn_drafted hd₁₁ (he.later hm₁₁ (by simp))
      (Span.block_within hs₀) h₁₂
    exact ⟨G₁₁, hd₁₂, (hm₀₁₀.trans hm₁₁).enter hm₁₂ (by omega), hs₁₂⟩

/-- The test of a counted loop, or none. -/
theorem loopTest_drafted {condition : Option Expr} (hcopied : Frame.Copied frames)
    (h : b.Drafted G) (hfits : Frame.Fits G k frames) (hs : b.Stands G k) (ht : G.Allows k t)
    (he : G.Allows k e) (hrun : (loopTest frames condition t e).run b = .ok (u, b')) :
    ∃ G', b'.Drafted G' ∧ b.Moves [] G b' G' := by
  cases condition with
  | some condition =>
      exact (lowerExpr_stepwise hcopied condition).test.run h hfits hs ht he hrun
  | none =>
      obtain ⟨hd, hm, -⟩ := close_drafted h hs ht hrun
      exact ⟨G, hd, hm⟩

theorem lowerFor_stepwise (hcopied : Frame.Copied frames) (label : Option String)
    (condition : Option Expr) {init update : List Stmt} (hinit : StepwiseBody init)
    (hupdate : StepwiseBody update) (hbody : StepwiseBody body) :
    Stepwise frames (lowerStmt frames (.forLoop label init condition update body)) where
  run {b b' G k u} h hfits hs hrun := by
    rw [lowerStmt] at hrun
    obtain ⟨x, b₁₇, hrun, h₁₈⟩ := run_bind.mp hrun
    rw [lowerFor_eq] at hrun
    obtain ⟨_, b₀, h₀, hrun⟩ := run_bind.mp hrun
    obtain ⟨_, b₁, h₁, hrun⟩ := run_bind.mp hrun
    simp only [run_bind, run_pure] at hrun
    obtain ⟨head, b₂, h₂, _, b₃, h₃, first, b₄, h₄, _, b₅, h₅, t, b₆, h₆,
      m, b₇, h₇, e, b₈, h₈, _, b₉, h₉, _, b₁₀, h₁₀, _, b₁₁, h₁₁, _, b₁₂, h₁₂, _, b₁₃, h₁₃,
      _, b₁₄, h₁₄, _, b₁₅, h₁₅, _, b₁₆, h₁₆, _, _, h₁₇, rfl, rfl⟩ := hrun
    obtain ⟨G₁, hd₁, hm₁, hs₁⟩ := (Stepwise.bind (.scopes ([] :: ·)) fun _ =>
      hinit.steps hcopied).run h hfits hs (run_bind.mpr ⟨_, b₀, h₀, h₁⟩)
    have hfits₁ := hfits.extend hm₁.marks
    obtain ⟨z, hz, hs₁⟩ := hs₁.between
    obtain ⟨s, hs₀, hs₁⟩ := hs₁.between
    obtain ⟨r, hr, hs₁⟩ := hs₁.between
    obtain ⟨q, hq, hs₁⟩ := hs₁.between
    obtain ⟨p, hp, hs₁⟩ := hs₁.between
    obtain ⟨G₅, hd₅, hm₅, hhead, hfirst, hle, hle', -⟩ := loopHead_drafted (k := k) hd₁ hs₁ hp
      (hq.trans (hr.trans (hs₀.trans hz))) h₂ h₃ h₄ h₅
    obtain ⟨G₆, hmade₆⟩ := newCode_drafted (k := k.around head) hd₅ (hr.trans (hs₀.trans hz)) h₆
    obtain ⟨G₇, hmade₇⟩ := newCode_drafted (k := k.around head) hmade₆.drafted (hs₀.trans hz) h₇
    obtain ⟨G₈, hmade₈⟩ := newCode_drafted (k := k) hmade₇.drafted hz h₈
    have hm₇₈ := hmade₇.moves.trans hmade₈.moves
    have hm₆₈ := hmade₆.moves.trans hm₇₈
    have hlt := hfirst.fresh.lt
    have hlt₆ := hmade₆.reserved.fresh.lt
    have hlt₇ := hmade₇.reserved.fresh.lt
    have hsize₁ := hm₁.grows.size_le
    have hsize₅ := hm₅.grows.size_le
    have hle₆ := hmade₆.le
    have hle₇ := hmade₇.le
    have hle₈ := hmade₈.le
    obtain ⟨hd₉, hm₉, hs₉, -⟩ := turn_drafted (k := (k.around head).upTo r) hmade₈.drafted
      (hfirst.later hm₆₈ (by simp)) ⟨hq, fun _ hl => hl⟩ h₉
    have ht := (hmade₆.reserved.later hm₇₈ (by simp)).later hm₉ (by simp; omega)
    have hm := (hmade₇.reserved.later hmade₈.moves (by simp)).later hm₉ (by simp; omega)
    have he := hmade₈.reserved.later hm₉ (by simp; omega)
    have hm₁₉ := (hm₅.trans hm₆₈).enter hm₉ hle'
    obtain ⟨G₁₀, hd₁₀, hm₁₀⟩ := loopTest_drafted hcopied hd₉
      ((hfits₁.extend hm₁₉.marks).around head (hr.trans (hs₀.trans hz)).le) hs₉
      (Marks.allows_block ht.mark (le_refl r)) (Marks.allows_leave he.mark (hr.trans hs₀).le) h₁₀
    have hm₁₁₀ := hm₁₉.trans hm₁₀
    have hm := hm.later hm₁₀ (by simp)
    have he := he.later hm₁₀ (by simp)
    have hnext := Marks.allows_block hm.mark (le_refl s)
    have hloop : Frame.Copied (.loop label m e :: frames) := hcopied
    obtain ⟨G₁₃, hd₁₃, hm₁₃⟩ := arm_drafted (hbody.inside hloop) hd₁₀
      ⟨hnext, Marks.allows_leave he.mark hs₀.le,
        (hfits₁.extend hm₁₁₀.marks).around head (hs₀.trans hz).le⟩
      (ht.later hm₁₀ (by simp)) ⟨hr, fun _ hl => hl⟩ hnext h₁₁ h₁₂ h₁₃
    have hm := hm.later hm₁₃ (by simp; omega)
    have he := he.later hm₁₃ (by simp; omega)
    have hm₁₁₃ := hm₁₁₀.enter hm₁₃ (by omega)
    have hhead := hm₉.marks.block (hm₆₈.marks.block hhead)
    obtain ⟨G₁₆, hd₁₆, hm₁₆⟩ := arm_drafted (hupdate.steps hcopied) hd₁₃
      ((hfits₁.extend hm₁₁₃.marks).around head hz.le) hm ⟨hs₀, fun _ hl => hl⟩
      (Marks.allows_latch (hm₁₃.marks.block (hm₁₀.marks.block hhead))) h₁₄ h₁₅ h₁₆
    have he := he.later hm₁₆ (by simp; omega)
    obtain rfl := run_modify.mp h₁₇
    have hnames : Step b₁₆ G₁₆ { b₁₆ with scopes := b₁₆.scopes.drop 1 } G₁₆ := .names _
    have hm₁₇ := hnames.moves (S := []) fun _ hc => .inl hc
    obtain ⟨hd₁₈, hm₁₈, hs₁₈, -⟩ := turn_drafted (hd₁₆.step hnames) (he.later hm₁₇ (by simp))
      (Span.block_within hz) h₁₈
    have hm₁₁₇ := (hm₁₁₃.enter hm₁₆ (by omega)).trans hm₁₇
    exact ⟨G₁₆, hd₁₈, hm₁.trans (hm₁₁₇.enter hm₁₈ (by omega)), hs₁₈⟩

/-- Each clause gets a block of its own. -/
theorem clauseBlocks_drafted {handlers : List Handler} {targets : List (String × BlockId)}
    (h : b.Drafted G) (hp : p < k.stop)
    (hrun : (handlers.mapM fun h : Handler => do
      let block ← newBlock
      return (h.exception, block)).run b = .ok (targets, b')) :
    ∃ G', Beside b G b' G' ∧ (targets.map Prod.snd).Pairwise (· < ·) ∧
      ∀ t ∈ targets.map Prod.snd, Reserved b' G' t (k.block p) ∧ b.drafts.size ≤ t := by
  induction handlers generalizing b G targets with
  | nil =>
      obtain ⟨rfl, rfl⟩ := run_pure.mp hrun
      exact ⟨G, .refl h, .nil, List.forall_mem_nil _⟩
  | cons handler rest ih =>
      simp only [List.mapM_cons, run_bind, run_pure] at hrun
      obtain ⟨_, _, ⟨block, b₁, h₁, rfl, rfl⟩, others, b₂, h₂, rfl, rfl⟩ := hrun
      obtain ⟨G₁, hmade⟩ := newCode_drafted h hp h₁
      obtain ⟨G₂, hb₂, hsorted, hothers⟩ := ih hmade.drafted h₂
      have hb₁ : Beside b G b₁ G₁ := ⟨hmade.drafted, hmade.moves, hmade.current⟩
      have hlt := hmade.reserved.fresh.lt
      have hsize := hmade.moves.grows.size_le
      refine ⟨G₂, hb₁.trans hb₂, ?_, ?_⟩
      · rw [List.map_cons, List.pairwise_cons]
        exact ⟨fun t ht => Nat.lt_of_lt_of_le hlt (hothers t ht).2, hsorted⟩
      · rw [List.map_cons, List.forall_mem_cons]
        exact ⟨⟨hmade.reserved.later hb₂.moves (by simp), hmade.le⟩, fun t ht =>
          ⟨(hothers t ht).1, Nat.le_trans hsize (hothers t ht).2⟩⟩

theorem lowerClause_stepwise (hcopied : Frame.Copied frames) (binding : Option String)
    (hbody : StepwiseBody body) : Stepwise frames (lowerClause frames binding body) := by
  cases binding with
  | none => exact hbody.steps hcopied
  | some name =>
      exact .bind (.declares _) fun _ => .bind (.emits rfl) fun _ => hbody.steps hcopied

/-- The clauses are built one after the other, and each of them is left. -/
theorem lowerHandlers_drafted {handlers : List Handler} {blocks : List Nat}
    {crossed : List Crossing} {after : Nat} (hcopied : Frame.Copied frames)
    (hbodies : ∀ h ∈ handlers, StepwiseBody h.body) (h : b.Drafted G)
    (hfits : Frame.Fits G k frames) (hcrosses : Crosses G k crossed after)
    (hsorted : blocks.Pairwise (· < ·)) (hp : p < k.stop)
    (hblocks : ∀ t ∈ blocks, Reserved b G t (k.block p))
    (hrun : (lowerHandlers frames (do closeWith (← leaveThrough crossed after)) handlers
      blocks).run b = .ok (u, b')) :
    ∃ G', b'.Drafted G' ∧ b.Moves blocks G b' G' := by
  induction handlers generalizing b G blocks with
  | nil =>
      rw [lowerHandlers] at hrun
      · obtain ⟨-, rfl⟩ := run_pure.mp hrun
        exact ⟨G, h, .refl _ b G⟩
      · simp
  | cons handler rest ih =>
      cases blocks with
      | nil =>
          rw [lowerHandlers] at hrun
          · obtain ⟨-, rfl⟩ := run_pure.mp hrun
            exact ⟨G, h, .refl _ b G⟩
          · simp
      | cons block blocks =>
          obtain ⟨exception, binding, body⟩ := handler
          rw [lowerHandlers_eq] at hrun
          obtain ⟨_, b₁, h₁, hrun⟩ := run_bind.mp hrun
          obtain ⟨_, b₂, h₂, hrun⟩ := run_bind.mp hrun
          obtain ⟨_, b₃, h₃, h₄⟩ := run_bind.mp hrun
          obtain ⟨hfirst, hrest⟩ := List.forall_mem_cons.mp hblocks
          obtain ⟨hbody, hothers⟩ := List.forall_mem_cons.mp hbodies
          obtain ⟨hless, hsorted⟩ := List.pairwise_cons.mp hsorted
          obtain ⟨hd₁, hm₁, hs₁, -⟩ := turn_drafted h hfirst (Span.block_within hp) h₁
          obtain ⟨G₂, hd₂, hm₂, hs₂⟩ := (lowerClause_stepwise hcopied binding hbody).inside.run
            hd₁ hfits hs₁ h₂
          obtain ⟨G₃, hd₃, hm₃, -⟩ := depart_drafted hd₂ hs₂ (hcrosses.extend hm₂.marks) h₃
          have hm₀₃ := hm₁.trans ((hm₂.trans hm₃).weaken (by simp))
          obtain ⟨G₄, hd₄, hm₄⟩ := ih hothers hd₃ (hfits.extend hm₀₃.marks)
            (hcrosses.extend hm₀₃.marks) hsorted (fun t ht => (hrest t ht).later hm₀₃ (by
              have := hless t ht
              simp only [List.mem_singleton]
              omega)) h₄
          exact ⟨G₄, hd₄,
            (hm₀₃.weaken (by simp)).trans (hm₄.weaken fun i hi => .inl (by simp [hi]))⟩

/-- A final body gets a place between the region that it protects and what follows. -/
theorem registerFinal_drafted {finalBody : Option (List Stmt)} {crossed : List Crossing}
    (hcopied : Frame.Copied frames) (hbody : ∀ body ∈ finalBody, StepwiseBody body)
    (h : b.Drafted G) (hfits : Frame.Fits G k frames) (hpq : p < q) (hq : q ≤ k.stop)
    (hafter : G.Allows (k.upTo q) t)
    (hrun : (registerFinal frames finalBody).run b = .ok (crossed, b')) :
    ∃ G', Beside b G b' G' ∧
      Frame.Copied (crossed.map (fun c => Frame.finalBody c.id c.copy) ++ frames) ∧
      Frame.Fits G' (k.upTo p) (crossed.map (fun c => Frame.finalBody c.id c.copy) ++ frames) ∧
      Crosses G' (k.upTo p) crossed t := by
  cases finalBody with
  | none =>
      obtain ⟨rfl, rfl⟩ := run_pure.mp hrun
      exact ⟨G, .refl h, hcopied, hfits.inside (Span.upTo_inside (hpq.le.trans hq)),
        hafter.inside (Span.upTo_mono hpq.le)⟩
  | some body =>
      simp only [registerFinal, lowerFinal, run_bind, run_get, run_modify, run_pure] at hrun
      obtain ⟨_, _, ⟨rfl, rfl⟩, _, _, rfl, rfl, rfl⟩ := hrun
      have hstep := Step.final (b := b) (G := G) ⟨p, q, k.loops, hpq⟩
      have hfinal := h.shaped.finals ▸ G.register_new ⟨p, q, k.loops, hpq⟩
      have hfits := (hfits.extend hstep.extends).inside (Span.upTo_inside hq)
      have hcopy := (hbody body rfl).inside hcopied
      exact ⟨_, ⟨h.step hstep, hstep.moves fun _ hc => .inl hc, rfl⟩, ⟨hcopy, hcopied⟩,
        ⟨_, hfinal, .refl _, hfits⟩, _, frames, hfinal, .refl _, hfits, hcopy,
        hstep.extends.allows hafter⟩

theorem lowerTry_stepwise {handlers : List Handler} {finalBody : Option (List Stmt)}
    (hcopied : Frame.Copied frames) (hbody : StepwiseBody body)
    (hhandlers : ∀ h ∈ handlers, StepwiseBody h.body)
    (hfinal : ∀ body ∈ finalBody, StepwiseBody body) :
    Stepwise frames (lowerStmt frames (.tryCatch body handlers finalBody)) where
  run {b b' G k u} h hfits hs hrun := by
    rw [lowerTry_eq] at hrun
    obtain ⟨_, b₀, h₀, hrun⟩ := run_bind.mp hrun
    obtain rfl := run_lift h₀
    simp only [run_bind] at hrun
    obtain ⟨after, b₁, h₁, targets, b₂, h₂, crossed, b₃, h₃, _, b₄, h₄, first, b₅, h₅,
      _, b₆, h₆, _, b₇, h₇, h₈⟩ := hrun
    obtain ⟨r, hr, hs⟩ := hs.between
    obtain ⟨q, hq, hs⟩ := hs.between
    obtain ⟨p, hp, hs⟩ := hs.between
    obtain ⟨G₁, hmade⟩ := newCode_drafted h hr h₁
    obtain ⟨G₂, hb₂, hsorted, hclauses⟩ := clauseBlocks_drafted hmade.drafted
      (hp.trans (hq.trans hr)) h₂
    obtain ⟨G₃, hb₃, hinner, hfits₃, hcrosses⟩ := registerFinal_drafted hcopied hfinal
      hb₂.drafted (hfits.extend (hmade.moves.trans hb₂.moves).marks) hq hr.le
      (Marks.allows_block (hmade.reserved.later hb₂.moves (by simp)).mark (le_refl r)) h₃
    have hb₁₃ := hb₂.trans hb₃
    have hprotected : Frame.Copied (.handlers targets ::
        (crossed.map (fun c => Frame.finalBody c.id c.copy) ++ frames)) := hinner
    have htargets : ∀ x ∈ targets, G₃.Allows (k.upTo p) x.2 := fun x hx =>
      hb₃.moves.marks.allows
        (Marks.allows_block (hclauses x.2 (List.mem_map_of_mem hx)).1.mark (le_refl p))
    obtain ⟨G₄, hd₄, hm₄, hs₄⟩ := (hbody.inside hprotected).run hb₃.drafted
      ⟨htargets, hfits₃.inside (Span.upTo_mono hp.le)⟩ (hb₁₃.stands (hmade.stands hs)) h₄
    obtain ⟨G₆, hd₆, hm₆, -⟩ := depart_drafted hd₄ hs₄
      ((hcrosses.extend hm₄.marks).inside (Span.upTo_mono hp.le))
      (run_bind.mpr ⟨first, b₅, h₅, h₆⟩)
    have hm₃₆ := hm₄.trans hm₆
    obtain ⟨G₇, hd₇, hm₇⟩ := lowerHandlers_drafted (k := k.upTo q) hinner hhandlers hd₆
      (hfits₃.extend hm₃₆.marks) (hcrosses.extend hm₃₆.marks) hsorted hp
      (fun t ht => (hclauses t ht).1.later (hb₃.moves.trans hm₃₆) (by simp)) h₇
    have hm₁₆ := hb₁₃.moves.trans hm₃₆
    have hlt := hmade.reserved.fresh.lt
    have hsize := hmade.moves.grows.size_le
    have hafter := (hmade.reserved.later hm₁₆ (by simp)).later hm₇ fun hmem => by
      have := (hclauses after hmem).2
      omega
    obtain ⟨hd₈, hm₈, hs₈, -⟩ := turn_drafted hd₇ hafter (Span.block_within hr) h₈
    have hm₀₇ : b.Moves [] G b₇ G₇ :=
      (((hmade.moves.trans hm₁₆).weaken (T := targets.map Prod.snd) (by simp)).trans hm₇).weaken
        fun t ht => .inr (Nat.le_trans hsize (hclauses t ht).2)
    exact ⟨G₇, hd₈, hm₀₇.enter hm₈ hmade.le, hs₈⟩

end

/-! Every statement is made of steps, by recursion on the syntax. -/

mutual

theorem lowerStmt_stepwise : (s : Stmt) → ∀ {frames : List Frame}, Frame.Copied frames →
    Stepwise frames (lowerStmt frames s)
  | .localDecl name qualifier init, _, hcopied => by
      rw [lowerStmt]
      exact lowerDecl_stepwise hcopied name qualifier init
  | .assign target value, _, hcopied => by
      rw [lowerStmt]
      exact lowerAssign_stepwise hcopied target value
  | .expr value, _, hcopied => by
      rw [lowerStmt]
      exact (lowerExpr_stepwise hcopied value).value.stepwise.discarded
  | .ifElse condition thenBody elseBody, _, hcopied =>
      lowerIf_stepwise hcopied condition (lowerStmts_stepwise thenBody)
        (lowerElse_stepwise elseBody hcopied)
  | .whileLoop label condition body, _, hcopied =>
      lowerWhile_stepwise hcopied label condition (lowerStmts_stepwise body)
  | .doWhile label body condition, _, hcopied =>
      lowerDoWhile_stepwise hcopied label condition (lowerStmts_stepwise body)
  | .forLoop label init condition update body, _, hcopied =>
      lowerFor_stepwise hcopied label condition (lowerStmts_stepwise init)
        (lowerStmts_stepwise update) (lowerStmts_stepwise body)
  | .breakLoop label, _, hcopied => by
      rw [lowerStmt]
      exact jump_stepwise hcopied label true
  | .continueLoop label, _, hcopied => by
      rw [lowerStmt]
      exact jump_stepwise hcopied label false
  | .returnValue value, _, hcopied => lowerReturn_stepwise hcopied value
  | .throw exception value, _, hcopied => lowerThrow_stepwise hcopied exception value
  | .tryCatch body handlers finalBody, _, hcopied =>
      lowerTry_stepwise hcopied (lowerStmts_stepwise body) (clauses_stepwise handlers)
        (finalBody_stepwise finalBody)
  | .assert condition, _, hcopied => by
      rw [lowerStmt]
      exact lowerAssert_stepwise hcopied condition

theorem lowerStmts_stepwise : (stmts : List Stmt) → StepwiseBody stmts
  | [] => ⟨fun _ => by
      rw [lowerStmts]
      exact .pure ()⟩
  | s :: rest => ⟨fun hcopied => by
      rw [lowerStmts]
      exact .bind (lowerStmt_stepwise s hcopied) fun _ => (lowerStmts_stepwise rest).steps hcopied⟩

theorem lowerElse_stepwise : (stmts : Option (List Stmt)) → ∀ {frames : List Frame},
    Frame.Copied frames → Stepwise frames (lowerElse frames stmts)
  | none, _, _ => by
      rw [lowerElse]
      exact .pure ()
  | some body, _, hcopied => by
      rw [lowerElse]
      exact (lowerStmts_stepwise body).inside hcopied

theorem finalBody_stepwise : (stmts : Option (List Stmt)) → ∀ body ∈ stmts, StepwiseBody body
  | none, _, h => nomatch h
  | some body, _, h => Option.some.inj h ▸ lowerStmts_stepwise body

theorem clauses_stepwise : (handlers : List Handler) → ∀ h ∈ handlers, StepwiseBody h.body
  | [], _, h => nomatch h
  | .clause _ _ body :: rest, handler, h => by
      rcases List.mem_cons.mp h with rfl | h
      · exact lowerStmts_stepwise body
      · exact clauses_stepwise rest handler h

end

/-- The exits come after all code. -/
theorem Marks.fits_initial : Frame.Fits .initial ⟨⊤, []⟩ [] :=
  ⟨⟨_, rfl, trivial, .inl (le_refl _), List.forall_mem_nil _⟩,
    ⟨_, rfl, trivial, .inl (le_refl _), List.forall_mem_nil _⟩⟩

/-- The construction of a unit is made of steps. -/
theorem ProgramUnit.build_drafted {u : ProgramUnit} {b : Building}
    (h : u.build.run (Build.start u.params) = .ok ((), b)) : ∃ G, b.Drafted G := by
  simp only [ProgramUnit.build, run_bind] at h
  obtain ⟨first, b₁, h₁, _, b₂, h₂, _, b₃, h₃, _, b₄, h₄, h₅⟩ := h
  rw [newBlock, run_newDraft] at h₁
  cases h₁
  rw [run_link] at h₂
  cases h₂
  rw [run_setCurrent] at h₃
  cases h₃
  have hbody : Stepwise [] (inScope (lowerStmts [] u.body)) :=
    (lowerStmts_stepwise u.body).inside trivial
  have hs : (opened u.params).Stands .initial ⟨⊤, []⟩ :=
    .of_mark rfl (m := ⟨1, [], .code⟩) rfl ⟨WithTop.coe_lt_top 1, List.forall_mem_nil _⟩
  obtain ⟨G, hd, hm, hs⟩ := hbody.run (.opened u.params) Marks.fits_initial hs h₄
  obtain ⟨hd, -, -⟩ := close_drafted hd hs (hm.marks.allows Marks.fits_initial.1) h₅
  exact ⟨G, hd⟩

end FlowTyping
