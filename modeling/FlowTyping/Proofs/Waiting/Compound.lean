import FlowTyping.Proofs.Waiting.Statements

/-!
The stages of branching statements, loops and protected regions. The parts of a statement
are built in blocks that it makes for them, each of which is entered once.
-/

namespace FlowTyping

open Build Building

section

variable {U : Expr → Prop} {frames : List Frame} {b b' b₁ b₂ : Building} {G : Stages} {u : Unit}
  {body : List Stmt}

/-- The stages of a body, wherever it is built. -/
structure KeepsBody (U : Expr → Prop) (body : List Stmt) : Prop where
  keeps : ∀ {frames : List Frame}, Frame.Sound U frames →
    KeepsStages U frames (lowerStmts frames body)

theorem KeepsBody.inside (h : KeepsBody U body) (hsound : Frame.Sound U frames) :
    KeepsStages U frames (inScope (lowerStmts frames body)) :=
  (h.keeps hsound).inside

theorem lowerIf_keeps (hsound : Frame.Sound U frames) (condition : Expr) {thenBody : List Stmt}
    {elseBody : Option (List Stmt)} (hparts : ∀ x ∈ condition.parts, U x)
    (hthen : KeepsBody U thenBody) (helse : KeepsStages U frames (lowerElse frames elseBody)) :
    KeepsStages U frames (lowerStmt frames (.ifElse condition thenBody elseBody)) where
  run {b b' G u} h hflat hrun := by
    simp only [lowerStmt, run_bind] at hrun
    obtain ⟨t, b₁, h₁, e, b₂, h₂, m, b₃, h₃, _, b₄, h₄, _, b₅, h₅, _, b₆, h₆, _, b₇, h₇,
      _, b₈, h₈, _, b₉, h₉, _, b₁₀, h₁₀, h₁₁⟩ := hrun
    obtain ⟨G₁, hg₁, hf₁, hid₁, hsize₁, hst₁⟩ := newFlat_staged h h₁
    obtain ⟨G₂, hg₂, hf₂, hid₂, hsize₂, hst₂⟩ := newFlat_staged hg₁ h₂
    obtain ⟨G₃, hg₃, hf₃, hid₃, hsize₃, hst₃⟩ := newFlat_staged hg₂ h₃
    have hst₁ := (hf₂.trans hf₃).stays hg₁ hst₁ (by simp)
    have hst₂ := hf₃.stays hg₂ hst₂ (by simp)
    have hf₀₃ := hf₁.trans (hf₂.trans hf₃)
    obtain ⟨G₄, hg₄, hf₄, hstays⟩ := test_staged (lowerExpr_waits hsound condition hparts) hg₃
      (hf₀₃.flat_frames hflat) ⟨_, hst₁, rfl⟩ ⟨_, hst₂, rfl⟩ h₄
    have hf₀₄ : Follows [] b G b₄ G₄ := hf₀₃.andThen hf₄ (by simp; omega)
    have hst₃ := hstays m _ hst₃
    obtain ⟨G₇, hg₇, hf₇⟩ := branch_keeps (hthen.inside hsound) hg₄ (hf₀₄.flat_frames hflat)
      (hstays t _ hst₁) ⟨_, hst₃, rfl⟩ h₅ h₆ h₇
    have hst₃ := hf₇.stays hg₄ hst₃ (by simp; omega)
    have hst₂ := hf₇.stays hg₄ (hstays e _ hst₂) (by simp; omega)
    have hf₀₇ := hf₀₄.enter hf₇ (by omega)
    obtain ⟨G₁₀, hg₁₀, hf₁₀⟩ := branch_keeps helse hg₇ (hf₀₇.flat_frames hflat) hst₂
      ⟨_, hst₃, rfl⟩ h₈ h₉ h₁₀
    have hst₃ := hf₁₀.stays hg₇ hst₃ (by simp; omega)
    obtain ⟨G₁₁, hg₁₁, hf₁₁⟩ := resume_flat hg₁₀ hst₃ h₁₁
    exact ⟨G₁₁, hg₁₁, (hf₀₇.enter hf₁₀ (by omega)).enter hf₁₁ (by omega)⟩

theorem Frame.flat_loop {label : Option String} {t e : Nat} (hflat : ∀ f ∈ frames, f.Flat G)
    (ht : G.Flat t) (he : G.Flat e) : ∀ f ∈ Frame.loop label t e :: frames, f.Flat G :=
  List.forall_mem_cons.mpr ⟨⟨ht, he⟩, hflat⟩

theorem lowerWhile_keeps (hsound : Frame.Sound U frames) (label : Option String)
    (condition : Expr) (hparts : ∀ x ∈ condition.parts, U x) (hbody : KeepsBody U body) :
    KeepsStages U frames (lowerStmt frames (.whileLoop label condition body)) where
  run {b b' G u} h hflat hrun := by
    simp only [lowerStmt, run_bind] at hrun
    obtain ⟨head, b₁, h₁, _, b₂, h₂, first, b₃, h₃, _, b₄, h₄, t, b₅, h₅, e, b₆, h₆,
      _, b₇, h₇, _, b₈, h₈, _, b₉, h₉, _, b₁₀, h₁₀, _, b₁₁, h₁₁, h₁₂⟩ := hrun
    obtain ⟨G₄, hg₄, hf₄, hhead, hle, hfirst, hle'⟩ := loopHead_staged h h₁ h₂ h₃ h₄
    have hlt := hg₄.size_of_stage hfirst
    obtain ⟨G₅, hg₅, hf₅, hid₅, hsize₅, hst₅⟩ := newFlat_staged hg₄ h₅
    obtain ⟨G₆, hg₆, hf₆, hid₆, hsize₆, hst₆⟩ := newFlat_staged hg₅ h₆
    have hst₅ := hf₆.stays hg₅ hst₅ (by simp)
    have hsize := (hf₄.trans (hf₅.trans hf₆)).grows.size_le
    obtain ⟨G₇, hg₇, hf₇⟩ := resume_flat hg₆ ((hf₅.trans hf₆).stays hg₄ hfirst (by simp)) h₇
    have hst₅ := hf₇.stays hg₆ hst₅ (by simp; omega)
    have hst₆ := hf₇.stays hg₆ hst₆ (by simp; omega)
    have hf₀₇ := (hf₄.trans (hf₅.trans hf₆)).enter hf₇ hle'
    obtain ⟨G₈, hg₈, hf₈, hstays⟩ := test_staged (lowerExpr_waits hsound condition hparts) hg₇
      (hf₀₇.flat_frames hflat) ⟨_, hst₅, rfl⟩ ⟨_, hst₆, rfl⟩ h₈
    have hf₀₈ : Follows [] b G b₈ G₈ := hf₀₇.andThen hf₈ (by simp; omega)
    have hhead₈ : G₈.Flat head := hf₈.flat (hf₇.flat ((hf₅.trans hf₆).flat hhead))
    have hst₆ := hstays e _ hst₆
    have hloop : Frame.Sound U (.loop label head e :: frames) := hsound
    obtain ⟨G₁₁, hg₁₁, hf₁₁⟩ := branch_keeps (hbody.inside hloop) hg₈
      (Frame.flat_loop (hf₀₈.flat_frames hflat) hhead₈ ⟨_, hst₆, rfl⟩) (hstays t _ hst₅)
      hhead₈ h₉ h₁₀ h₁₁
    have hst₆ := hf₁₁.stays hg₈ hst₆ (by simp; omega)
    obtain ⟨G₁₂, hg₁₂, hf₁₂⟩ := resume_flat hg₁₁ hst₆ h₁₂
    exact ⟨G₁₂, hg₁₂, (hf₀₈.enter hf₁₁ (by omega)).enter hf₁₂ (by omega)⟩

theorem lowerDoWhile_keeps (hsound : Frame.Sound U frames) (label : Option String)
    (condition : Expr) (hparts : ∀ x ∈ condition.parts, U x) (hbody : KeepsBody U body) :
    KeepsStages U frames (lowerStmt frames (.doWhile label body condition)) where
  run {b b' G u} h hflat hrun := by
    simp only [lowerStmt, run_bind] at hrun
    obtain ⟨head, b₁, h₁, _, b₂, h₂, first, b₃, h₃, _, b₄, h₄, t, b₅, h₅, e, b₆, h₆,
      _, b₇, h₇, _, b₈, h₈, _, b₉, h₉, _, b₁₀, h₁₀, _, b₁₁, h₁₁, h₁₂⟩ := hrun
    obtain ⟨G₄, hg₄, hf₄, hhead, hle, hfirst, hle'⟩ := loopHead_staged h h₁ h₂ h₃ h₄
    have hlt := hg₄.size_of_stage hfirst
    obtain ⟨G₅, hg₅, hf₅, hid₅, hsize₅, hst₅⟩ := newFlat_staged hg₄ h₅
    obtain ⟨G₆, hg₆, hf₆, hid₆, hsize₆, hst₆⟩ := newFlat_staged hg₅ h₆
    have hst₅ := hf₆.stays hg₅ hst₅ (by simp)
    have hf₀₆ := hf₄.trans (hf₅.trans hf₆)
    have hsize := hf₀₆.grows.size_le
    have hloop : Frame.Sound U (.loop label t e :: frames) := hsound
    obtain ⟨G₉, hg₉, hf₉⟩ := branch_keeps (hbody.inside hloop) hg₆
      (Frame.flat_loop (hf₀₆.flat_frames hflat) ⟨_, hst₅, rfl⟩ ⟨_, hst₆, rfl⟩)
      ((hf₅.trans hf₆).stays hg₄ hfirst (by simp)) ⟨_, hst₅, rfl⟩ h₇ h₈ h₉
    have hst₅ := hf₉.stays hg₆ hst₅ (by simp; omega)
    have hst₆ := hf₉.stays hg₆ hst₆ (by simp; omega)
    have hf₀₉ := hf₀₆.enter hf₉ hle'
    obtain ⟨G₁₀, hg₁₀, hf₁₀⟩ := resume_flat hg₉ hst₅ h₁₀
    have hst₆ := hf₁₀.stays hg₉ hst₆ (by simp; omega)
    have hf₀₁₀ := hf₀₉.enter hf₁₀ (by omega)
    have hhead₁₀ : G₁₀.Flat head := hf₁₀.flat (hf₉.flat ((hf₅.trans hf₆).flat hhead))
    obtain ⟨G₁₁, hg₁₁, hf₁₁, hstays⟩ := test_staged (lowerExpr_waits hsound condition hparts) hg₁₀
      (hf₀₁₀.flat_frames hflat) hhead₁₀ ⟨_, hst₆, rfl⟩ h₁₁
    have hf₀₁₁ : Follows [] b G b₁₁ G₁₁ := hf₀₁₀.andThen hf₁₁ (by simp; omega)
    obtain ⟨G₁₂, hg₁₂, hf₁₂⟩ := resume_flat hg₁₁ (hstays e _ hst₆) h₁₂
    exact ⟨G₁₂, hg₁₂, hf₀₁₁.enter hf₁₂ (by omega)⟩

/-- The test of a counted loop, or none. -/
theorem loopTest_staged {condition : Option Expr} {t e : Nat} (hsound : Frame.Sound U frames)
    (hparts : ∀ x ∈ Expr.optionParts condition, U x) (h : b.Staged U G)
    (hflat : ∀ f ∈ frames, f.Flat G) (ht : G.Flat t) (he : G.Flat e)
    (hrun : (loopTest frames condition t e).run b = .ok (u, b')) :
    ∃ G', b'.Staged U G' ∧ Follows [t, e] b G b' G' ∧
      ∀ i st, G.stage i = some st → G'.stage i = some st := by
  cases condition with
  | some condition => exact test_staged (lowerExpr_waits hsound condition hparts) h hflat ht he hrun
  | none =>
      obtain ⟨hg, hf, -⟩ := close_staged h ht hrun
      exact ⟨G, hg, hf.weaken (by simp), fun _ _ hst => hst⟩

theorem lowerFor_keeps (hsound : Frame.Sound U frames) (label : Option String)
    (condition : Option Expr) {init update : List Stmt}
    (hparts : ∀ x ∈ Expr.optionParts condition, U x) (hinit : KeepsBody U init)
    (hupdate : KeepsBody U update) (hbody : KeepsBody U body) :
    KeepsStages U frames (lowerStmt frames (.forLoop label init condition update body)) where
  run {b b' G u} h hflat hrun := by
    rw [lowerStmt] at hrun
    obtain ⟨x, b₁₇, hrun, h₁₈⟩ := run_bind.mp hrun
    rw [lowerFor_eq] at hrun
    obtain ⟨_, b₀, h₀, hrun⟩ := run_bind.mp hrun
    simp only [run_bind, run_modify, run_pure] at hrun
    obtain ⟨_, b₁, h₁, head, b₂, h₂, _, b₃, h₃, first, b₄, h₄, _, b₅, h₅, t, b₆, h₆,
      m, b₇, h₇, e, b₈, h₈, _, b₉, h₉, _, b₁₀, h₁₀, _, b₁₁, h₁₁, _, b₁₂, h₁₂, _, b₁₃, h₁₃,
      _, b₁₄, h₁₄, _, b₁₅, h₁₅, _, b₁₆, h₁₆, _, _, rfl, rfl, rfl⟩ := hrun
    obtain ⟨G₀, hg₀, hf₀⟩ := (KeepsStages.scopes ([] :: ·)).run h hflat h₀
    obtain ⟨G₁, hg₁, hf₁⟩ := (hinit.keeps hsound).run hg₀ (hf₀.flat_frames hflat) h₁
    have hf₀₁ := hf₀.trans hf₁
    obtain ⟨G₅, hg₅, hf₅, hhead, hle, hfirst, hle'⟩ := loopHead_staged hg₁ h₂ h₃ h₄ h₅
    have hlt := hg₅.size_of_stage hfirst
    obtain ⟨G₆, hg₆, hf₆, hid₆, hsize₆, hst₆⟩ := newFlat_staged hg₅ h₆
    obtain ⟨G₇, hg₇, hf₇, hid₇, hsize₇, hst₇⟩ := newFlat_staged hg₆ h₇
    obtain ⟨G₈, hg₈, hf₈, hid₈, hsize₈, hst₈⟩ := newFlat_staged hg₇ h₈
    have hst₆ := (hf₇.trans hf₈).stays hg₆ hst₆ (by simp)
    have hst₇ := hf₈.stays hg₇ hst₇ (by simp)
    have hf₅₈ := hf₆.trans (hf₇.trans hf₈)
    have hf₀₈ := hf₀₁.trans (hf₅.trans hf₅₈)
    have hsize₀₁ := hf₀₁.grows.size_le
    have hsize₁₅ := hf₅.grows.size_le
    obtain ⟨G₉, hg₉, hf₉⟩ := resume_flat hg₈ (hf₅₈.stays hg₅ hfirst (by simp)) h₉
    have hst₆ := hf₉.stays hg₈ hst₆ (by simp; omega)
    have hst₇ := hf₉.stays hg₈ hst₇ (by simp; omega)
    have hst₈ := hf₉.stays hg₈ hst₈ (by simp; omega)
    have hf₀₉ := hf₀₈.enter hf₉ (by omega)
    obtain ⟨G₁₀, hg₁₀, hf₁₀, hstays⟩ := loopTest_staged hsound hparts hg₉ (hf₀₉.flat_frames hflat)
      ⟨_, hst₆, rfl⟩ ⟨_, hst₈, rfl⟩ h₁₀
    have hf₀₁₀ : Follows [] b G b₁₀ G₁₀ := hf₀₉.andThen hf₁₀ (by simp; omega)
    have hst₇ := hstays m _ hst₇
    have hst₈ := hstays e _ hst₈
    have hloop : Frame.Sound U (.loop label m e :: frames) := hsound
    obtain ⟨G₁₃, hg₁₃, hf₁₃⟩ := branch_keeps (hbody.inside hloop) hg₁₀
      (Frame.flat_loop (hf₀₁₀.flat_frames hflat) ⟨_, hst₇, rfl⟩ ⟨_, hst₈, rfl⟩)
      (hstays t _ hst₆) ⟨_, hst₇, rfl⟩ h₁₁ h₁₂ h₁₃
    have hst₇ := hf₁₃.stays hg₁₀ hst₇ (by simp; omega)
    have hst₈ := hf₁₃.stays hg₁₀ hst₈ (by simp; omega)
    have hf₀₁₃ := hf₀₁₀.enter hf₁₃ (by omega)
    have hhead₁₃ : G₁₃.Flat head := hf₁₃.flat (hf₁₀.flat (hf₉.flat (hf₅₈.flat hhead)))
    obtain ⟨G₁₆, hg₁₆, hf₁₆⟩ := branch_keeps (hupdate.keeps hsound) hg₁₃
      (hf₀₁₃.flat_frames hflat) hst₇ hhead₁₃ h₁₄ h₁₅ h₁₆
    have hst₈ := hf₁₆.stays hg₁₃ hst₈ (by simp; omega)
    have hf₀₁₆ := hf₀₁₃.enter hf₁₆ (by omega)
    obtain ⟨hg₁₇, hf₁₇⟩ := hg₁₆.withNames (b₁₆.scopes.drop 1) b₁₆.nextFinal
    obtain ⟨G₁₈, hg₁₈, hf₁₈⟩ := resume_flat hg₁₇ hst₈ h₁₈
    exact ⟨G₁₈, hg₁₈, (hf₀₁₆.trans hf₁₇).enter hf₁₈ (by omega)⟩

/-- Each clause gets a block of its own. -/
theorem clauseBlocks_staged {handlers : List Handler} {targets : List (String × BlockId)}
    (h : b.Staged U G)
    (hrun : (handlers.mapM fun h : Handler => do
      let block ← newBlock
      return (h.exception, block)).run b = .ok (targets, b')) :
    ∃ G', b'.Staged U G' ∧ Follows [] b G b' G' ∧ (targets.map Prod.snd).Pairwise (· < ·) ∧
      ∀ t ∈ targets.map Prod.snd, G'.stage t = some ⟨[], none⟩ ∧ b.drafts.size ≤ t := by
  induction handlers generalizing b G targets with
  | nil =>
      obtain ⟨rfl, rfl⟩ := run_pure.mp hrun
      exact ⟨G, h, .refl [] b G, .nil, nofun⟩
  | cons handler rest ih =>
      simp only [List.mapM_cons, run_bind, run_pure] at hrun
      obtain ⟨_, b₁, ⟨block, _, h₁, rfl, rfl⟩, others, b₂, h₂, rfl, rfl⟩ := hrun
      obtain ⟨G₁, hg₁, hf₁, hid₁, hsize₁, hst₁⟩ := newFlat_staged h h₁
      obtain ⟨G₂, hg₂, hf₂, hsorted, hothers⟩ := ih hg₁ h₂
      refine ⟨G₂, hg₂, hf₁.trans hf₂, ?_, ?_⟩
      · rw [List.map_cons, List.pairwise_cons]
        refine ⟨fun t ht => ?_, hsorted⟩
        have hle := (hothers t ht).2
        rw [hsize₁] at hle
        exact hle
      · rw [List.map_cons, List.forall_mem_cons]
        refine ⟨⟨hf₂.stays hg₁ hst₁ (by simp), Nat.le_of_eq hid₁.symm⟩, fun t ht => ?_⟩
        obtain ⟨hst, hle⟩ := hothers t ht
        exact ⟨hst, Nat.le_trans hf₁.grows.size_le hle⟩

theorem lowerClause_keeps (hsound : Frame.Sound U frames) (binding : Option String)
    (hbody : KeepsBody U body) : KeepsStages U frames (lowerClause frames binding body) := by
  cases binding with
  | none => exact KeepsStages.nothing.andThen (hbody.keeps hsound)
  | some name =>
      have hnone : ComputesAll U frames (pure () : Build Unit) (fun _ => []) fun _ first _ =>
          first = none := computesAll_pure ⟨fun _ h => h⟩ rfl rfl
      have hdeclared : KeepsStages U frames (declare ⟨name, none, .local⟩) := .declares _
      have hboth := (hdeclared.andThen (.effect hnone (fun _ => .localDecl ⟨name, none, .local⟩)
        (fun _ => rfl) (fun _ => rfl) fun _ => rfl)).andThen (hbody.keeps hsound)
      simp only [bind_assoc, pure_bind] at hboth
      exact hboth

/-- The clauses are built one after the other, and each of them is left. -/
theorem lowerHandlers_keeps {handlers : List Handler} {blocks : List Nat} {leave : Build Unit}
    (after : Nat) (hsound : Frame.Sound U frames) (hbodies : ∀ h ∈ handlers, KeepsBody U h.body)
    (hleave : ∀ {b b' : Building} {G : Stages}, b.Staged U G → (∀ f ∈ frames, f.Flat G) →
      G.Flat after → leave.run b = .ok ((), b') → ∃ G', b'.Staged U G' ∧ Follows [] b G b' G')
    (h : b.Staged U G) (hflat : ∀ f ∈ frames, f.Flat G) (hafter : G.Flat after)
    (hsorted : blocks.Pairwise (· < ·)) (hst : ∀ t ∈ blocks, G.stage t = some ⟨[], none⟩)
    (hrun : (lowerHandlers frames leave handlers blocks).run b = .ok (u, b')) :
    ∃ G', b'.Staged U G' ∧ Follows blocks b G b' G' := by
  induction handlers generalizing b G blocks with
  | nil =>
      rw [lowerHandlers] at hrun
      · obtain ⟨-, rfl⟩ := run_pure.mp hrun
        exact ⟨G, h, .refl _ b G⟩
      · simp
  | cons handler rest ih =>
      cases blocks with
      | nil =>
          rw [lowerHandlers] at hrun
          · obtain ⟨-, rfl⟩ := run_pure.mp hrun
            exact ⟨G, h, .refl _ b G⟩
          · simp
      | cons block blocks =>
          obtain ⟨exception, binding, body⟩ := handler
          rw [lowerHandlers_eq] at hrun
          simp only [run_bind] at hrun
          obtain ⟨_, b₁, h₁, _, b₂, h₂, _, b₃, h₃, h₄⟩ := hrun
          obtain ⟨hfirst, hrest⟩ := List.forall_mem_cons.mp hst
          obtain ⟨hbody, hothers⟩ := List.forall_mem_cons.mp hbodies
          obtain ⟨hless, hsorted⟩ := List.pairwise_cons.mp hsorted
          obtain ⟨G₁, hg₁, hf₁⟩ := resume_flat h hfirst h₁
          obtain ⟨G₂, hg₂, hf₂⟩ := (lowerClause_keeps hsound binding hbody).inside.run hg₁
            (hf₁.flat_frames hflat) h₂
          have hf₀₂ : Follows [block] b G b₂ G₂ := hf₁.andThen hf₂ (by simp)
          obtain ⟨G₃, hg₃, hf₃⟩ := hleave hg₂ (hf₀₂.flat_frames hflat) (hf₀₂.flat hafter) h₃
          have hf₀₃ : Follows [block] b G b₃ G₃ := hf₀₂.andThen hf₃ (by simp)
          obtain ⟨G₄, hg₄, hf₄⟩ := ih hothers hg₃ (hf₀₃.flat_frames hflat) (hf₀₃.flat hafter)
            hsorted (fun t ht => hf₀₃.stays h (hrest t ht) (by
              have := hless t ht
              simp only [List.mem_singleton]
              omega)) h₄
          exact ⟨G₄, hg₄, (hf₀₃.weaken (by simp)).andThen hf₄ fun _ hi => .inl (by simp [hi])⟩

/-- A final body is built like any other body. -/
theorem registerFinal_keeps {finalBody : Option (List Stmt)} {crossed : List Crossing}
    (hsound : Frame.Sound U frames) (hbody : ∀ body ∈ finalBody, KeepsBody U body)
    (h : b.Staged U G) (hrun : (registerFinal frames finalBody).run b = .ok (crossed, b')) :
    b'.Staged U G ∧ Follows [] b G b' G ∧ (∀ c ∈ crossed, KeepsStages U frames c.copy) ∧
      Frame.Sound U (crossed.map (fun c => Frame.finalBody c.id c.copy) ++ frames) := by
  cases finalBody with
  | none =>
      obtain ⟨rfl, rfl⟩ := run_pure.mp hrun
      exact ⟨h, .refl [] b G, nofun, hsound⟩
  | some body =>
      simp only [registerFinal, lowerFinal, run_bind, run_get, run_modify, run_pure] at hrun
      obtain ⟨_, _, ⟨rfl, rfl⟩, _, _, rfl, rfl, rfl⟩ := hrun
      obtain ⟨hg, hf⟩ := h.withNames b.scopes (b.nextFinal + 1)
      have hcopy := (hbody body rfl).inside hsound
      exact ⟨hg, hf, List.forall_mem_singleton.mpr hcopy, hcopy, hsound⟩

theorem lowerTry_keeps {handlers : List Handler} {finalBody : Option (List Stmt)}
    (hsound : Frame.Sound U frames) (hbody : KeepsBody U body)
    (hhandlers : ∀ h ∈ handlers, KeepsBody U h.body)
    (hfinal : ∀ body ∈ finalBody, KeepsBody U body) :
    KeepsStages U frames (lowerStmt frames (.tryCatch body handlers finalBody)) where
  run {b b' G u} h hflat hrun := by
    rw [lowerTry_eq] at hrun
    simp only [run_bind] at hrun
    obtain ⟨_, b₀, h₀, after, b₁, h₁, targets, b₂, h₂, crossed, b₃, h₃, _, b₄, h₄, first, b₅, h₅,
      _, b₆, h₆, _, b₇, h₇, h₈⟩ := hrun
    obtain rfl := run_lift h₀
    obtain ⟨G₁, hg₁, hf₁, hid₁, hsize₁, hst₁⟩ := newFlat_staged h h₁
    obtain ⟨G₂, hg₂, hf₂, hsorted, hclauses⟩ := clauseBlocks_staged hg₁ h₂
    obtain ⟨hg₃, hf₃, hcopies, hinner⟩ := registerFinal_keeps hsound hfinal hg₂ h₃
    have hf₀₃ := hf₁.trans (hf₂.trans hf₃)
    have hst₁ := (hf₂.trans hf₃).stays hg₁ hst₁ (by simp)
    have hfinals {G : Stages} (hflat : ∀ f ∈ frames, f.Flat G) :
        ∀ f ∈ crossed.map (fun c => Frame.finalBody c.id c.copy) ++ frames, f.Flat G := by
      intro f hf
      rcases List.mem_append.mp hf with hf | hf
      · obtain ⟨c, -, rfl⟩ := List.mem_map.mp hf
        trivial
      · exact hflat f hf
    have htargets : (Frame.handlers targets).Flat G₂ := fun t ht =>
      ⟨_, (hclauses t.2 (List.mem_map_of_mem ht)).1, rfl⟩
    have hprotected : Frame.Sound U (.handlers targets ::
        (crossed.map (fun c => Frame.finalBody c.id c.copy) ++ frames)) := hinner
    obtain ⟨G₄, hg₄, hf₄⟩ := (hbody.inside hprotected).run hg₃
      (List.forall_mem_cons.mpr ⟨htargets, hfinals (hf₀₃.flat_frames hflat)⟩) h₄
    have hf₀₄ := hf₀₃.trans hf₄
    have hst₁ := hf₄.stays hg₃ hst₁ (by simp)
    obtain ⟨G₆, hg₆, hf₆⟩ := depart_staged hcopies hg₄ (hf₀₄.flat_frames hflat) ⟨_, hst₁, rfl⟩
      (run_bind.mpr ⟨first, b₅, h₅, h₆⟩)
    have hf₀₆ := hf₀₄.trans hf₆
    have hst₁ := hf₆.stays hg₄ hst₁ (by simp)
    have hinFrames : ∀ f ∈ frames,
        f ∈ crossed.map (fun c => Frame.finalBody c.id c.copy) ++ frames :=
      fun f hf => List.mem_append_right _ hf
    obtain ⟨G₇, hg₇, hf₇⟩ := lowerHandlers_keeps after hinner hhandlers
      (fun hg hflat hafter hrun => depart_staged hcopies hg (fun f hf => hflat f (hinFrames f hf))
        hafter hrun)
      hg₆ (hfinals (hf₀₆.flat_frames hflat)) ⟨_, hst₁, rfl⟩ hsorted
      (fun t ht => (hf₄.trans hf₆).stays hg₃ (hclauses t ht).1 (by simp)) h₇
    have hst₁ := hf₇.stays hg₆ hst₁ fun hmem => by
      have := (hclauses after hmem).2
      omega
    obtain ⟨G₈, hg₈, hf₈⟩ := resume_flat hg₇ hst₁ h₈
    have hf₀₇ : Follows [] b G b₇ G₇ := hf₀₆.andThen hf₇ fun t ht =>
      .inr (Nat.le_trans hf₁.grows.size_le (hclauses t ht).2)
    exact ⟨G₈, hg₈, hf₀₇.enter hf₈ (Nat.le_of_eq hid₁.symm)⟩

end

/-! The stages of statements, by recursion on the syntax. -/

section

variable {U : Expr → Prop}

mutual

theorem lowerStmt_keeps : (s : Stmt) → (∀ x ∈ s.exprs, U x) → ∀ {frames : List Frame},
    Frame.Sound U frames → KeepsStages U frames (lowerStmt frames s)
  | .localDecl name qualifier init, hexprs, _, hsound => by
      rw [lowerStmt]
      exact lowerDecl_keeps hsound name qualifier init hexprs
  | .assign target value, hexprs, _, hsound => by
      rw [lowerStmt]
      exact lowerAssign_keeps hsound target value hexprs
  | .expr value, hexprs, _, hsound => by
      rw [lowerStmt]
      exact (lowerExpr_waits hsound value hexprs).value.discarded
  | .ifElse condition thenBody elseBody, hexprs, _, hsound => by
      obtain ⟨hexprs, helse⟩ := List.forall_mem_append.mp hexprs
      obtain ⟨hcondition, hthen⟩ := List.forall_mem_append.mp hexprs
      exact lowerIf_keeps hsound condition hcondition (lowerStmts_keeps thenBody hthen)
        (lowerElse_keeps elseBody helse hsound)
  | .whileLoop label condition body, hexprs, _, hsound => by
      obtain ⟨hcondition, hbody⟩ := List.forall_mem_append.mp hexprs
      exact lowerWhile_keeps hsound label condition hcondition (lowerStmts_keeps body hbody)
  | .doWhile label body condition, hexprs, _, hsound => by
      obtain ⟨hbody, hcondition⟩ := List.forall_mem_append.mp hexprs
      exact lowerDoWhile_keeps hsound label condition hcondition (lowerStmts_keeps body hbody)
  | .forLoop label init condition update body, hexprs, _, hsound => by
      obtain ⟨hexprs, hbody⟩ := List.forall_mem_append.mp hexprs
      obtain ⟨hexprs, hupdate⟩ := List.forall_mem_append.mp hexprs
      obtain ⟨hinit, hcondition⟩ := List.forall_mem_append.mp hexprs
      exact lowerFor_keeps hsound label condition hcondition (lowerStmts_keeps init hinit)
        (lowerStmts_keeps update hupdate) (lowerStmts_keeps body hbody)
  | .breakLoop label, _, _, hsound => by
      rw [lowerStmt]
      exact jump_keeps hsound label true
  | .continueLoop label, _, _, hsound => by
      rw [lowerStmt]
      exact jump_keeps hsound label false
  | .returnValue value, hexprs, _, hsound => lowerReturn_keeps hsound value hexprs
  | .throw exception value, hexprs, _, hsound => lowerThrow_keeps hsound exception value hexprs
  | .tryCatch body handlers finalBody, hexprs, _, hsound => by
      obtain ⟨hexprs, hfinal⟩ := List.forall_mem_append.mp hexprs
      obtain ⟨hbody, hhandlers⟩ := List.forall_mem_append.mp hexprs
      exact lowerTry_keeps hsound (lowerStmts_keeps body hbody) (clauses_keep handlers hhandlers)
        (finalBody_keeps finalBody hfinal)
  | .assert condition, hexprs, _, hsound => by
      rw [lowerStmt]
      exact lowerAssert_keeps hsound condition hexprs

theorem lowerStmts_keeps : (stmts : List Stmt) → (∀ x ∈ Stmt.listExprs stmts, U x) →
    KeepsBody U stmts
  | [], _ => ⟨fun _ => by
      rw [lowerStmts]
      exact .nothing⟩
  | s :: rest, hexprs => ⟨fun hsound => by
      obtain ⟨hs, hrest⟩ := List.forall_mem_append.mp hexprs
      rw [lowerStmts]
      exact (lowerStmt_keeps s hs hsound).andThen ((lowerStmts_keeps rest hrest).keeps hsound)⟩

theorem lowerElse_keeps : (stmts : Option (List Stmt)) → (∀ x ∈ Stmt.optionExprs stmts, U x) →
    ∀ {frames : List Frame}, Frame.Sound U frames →
      KeepsStages U frames (lowerElse frames stmts)
  | none, _, _, _ => by
      rw [lowerElse]
      exact .nothing
  | some body, hexprs, _, hsound => by
      rw [lowerElse]
      exact (lowerStmts_keeps body hexprs).inside hsound

theorem finalBody_keeps : (stmts : Option (List Stmt)) → (∀ x ∈ Stmt.optionExprs stmts, U x) →
    ∀ body ∈ stmts, KeepsBody U body
  | none, _, _, h => nomatch h
  | some body, hexprs, _, h => Option.some.inj h ▸ lowerStmts_keeps body hexprs

theorem clauses_keep : (handlers : List Handler) → (∀ x ∈ Stmt.handlerExprs handlers, U x) →
    ∀ h ∈ handlers, KeepsBody U h.body
  | [], _, _, h => nomatch h
  | .clause _ _ body :: rest, hexprs, handler, h => by
      obtain ⟨hbody, hrest⟩ := List.forall_mem_append.mp hexprs
      rcases List.mem_cons.mp h with rfl | h
      · exact lowerStmts_keeps body hbody
      · exact clauses_keep rest hrest handler h

end

end

end FlowTyping
