import FlowTyping.Proofs.Lowering.Statements

/-!
The code of statements with bodies, and with it that of every body.
-/

namespace FlowTyping

open Build Building

/-- The lowering of a body leaves its code where its placement says, in all regions. -/
structure LowersBody (W : CopyLaw) (stmts : List Stmt) : Prop where
  meets : ∀ {R : Registry} {frames : List Frame} {regions : List Region},
    Matches R frames regions → Meets R regions (lowerStmts frames stmts)
      (.code (Stmt.scopesAfterAll stmts) (placeStmts W regions stmts))

structure LowersElse (W : CopyLaw) (stmts : Option (List Stmt)) : Prop where
  meets : ∀ {R : Registry} {frames : List Frame} {regions : List Region},
    Matches R frames regions →
      Meets R regions (lowerElse frames stmts) (.code id (placeElse W regions stmts))

section

variable {W : CopyLaw} {R R₁ : Registry} {frames : List Frame} {regions inner : List Region}
  {b b' b₁ b₂ b₃ b₄ : Building} {u : Unit} {body : List Stmt}

theorem LowersBody.scoped (h : LowersBody W body) (regions : List Region)
    (hm : Matches R frames inner) :
    Meets R regions (inScope (lowerStmts frames body)) (.scoped inner (placeStmts W inner body)) :=
  inScope_meets regions (h.meets hm) (Stmt.tail_scopesAfterAll body)

theorem lowerIf_meets (hm : Matches R frames regions) (condition : Expr)
    {thenBody : List Stmt} {elseBody : Option (List Stmt)} (hthen : LowersBody W thenBody)
    (helse : LowersElse W elseBody) :
    Meets R regions (lowerStmt frames (.ifElse condition thenBody elseBody))
      (.code id (placeStmt W regions (.ifElse condition thenBody elseBody))) where
  run {R₁ b b' u} hR hc hfits _ h := by
    simp only [lowerStmt, run_bind] at h
    obtain ⟨t, b₁, h₁, e, b₂, h₂, m, b₃, h₃, _, b₄, h₄, _, b₅, h₅, _, b₆, h₆, _, b₇, h₇,
      _, b₈, h₈, _, b₉, h₉, _, b₁₀, h₁₀, h₁₁⟩ := h
    have ho₁ := hc.opens h₁
    have ho₂ := ho₁.advances.coherent.opens h₂
    have ho₃ := ho₂.advances.coherent.opens h₃
    have hid₁ := ho₁.id_eq
    have hid₂ := ho₂.id_eq
    have hid₃ := ho₃.id_eq
    have hsize₁ := ho₁.size
    have hsize₂ := ho₂.size
    have hsize₃ := ho₃.size
    have hs₀₃ : b₃.scopes = b.scopes := by rw [ho₃.scopes, ho₂.scopes, ho₁.scopes]
    have hh₀₃ : b₃.here = b.here := by rw [ho₃.here, ho₂.here, ho₁.here]
    have ha₀₃ := ho₁.advances.trans (ho₂.advances.trans ho₃.advances)
    have hw₁ := ho₃.advances.grows.waits (ho₂.advances.grows.waits ho₁.fresh (by simp)) (by simp)
    have hw₂ := ho₃.advances.grows.waits ho₂.fresh (by simp)
    obtain ⟨R₂, ha₄, hs₄, -, hp₄⟩ := ((lowerExpr_lowers hm condition).test t e).run hR
      ha₀₃.coherent (hfits.advance hs₀₃ (by omega)) ⟨by omega, by omega⟩ h₄
    have hsize₄ := ha₄.grows.size_le
    have hs₀₄ : b₄.scopes = b.scopes := hs₄.trans hs₀₃
    have hfits₄ := hfits.advance hs₀₄ (by omega)
    obtain ⟨R₃, ha₇, hs₇, -, -, -, hp₇⟩ := arm_spec (hthen.scoped regions hm)
      (hR.trans ha₄.registry) ha₄.coherent hfits₄ (ha₄.grows.waits hw₁ (by simp)) (by omega)
      hfits₄.scoped h₅ h₆ h₇
    have hsize₇ := ha₇.grows.size_le
    have hs₀₇ : b₇.scopes = b.scopes := hs₇.trans hs₀₄
    have hw₂' := ha₇.grows.waits (ha₄.grows.waits hw₂ (by simp)) (by simp; omega)
    obtain ⟨R₄, ha₁₀, hs₁₀, -, -, -, hp₁₀⟩ := arm_spec (helse.meets hm)
      (hR.trans (ha₄.registry.trans ha₇.registry)) ha₇.coherent
      (hfits.advance hs₀₇ (by omega)) hw₂' (by omega) trivial h₈ h₉ h₁₀
    have hw₃' := ha₁₀.grows.waits (ha₇.grows.waits (ha₄.grows.waits ho₃.fresh (by simp))
      (by simp; omega)) (by simp; omega)
    obtain ⟨ha₁₁, hs₁₁, hh₁₁, -⟩ := setCurrent_spec ha₁₀.coherent hw₃' h₁₁
    refine ⟨R₄, (((ha₀₃.trans ha₄).enter ha₇ (by omega)).enter ha₁₀ (by omega)).enter ha₁₁
      (by omega), ?_, trivial, fun D hD => ?_⟩
    · rw [hs₁₁, hs₁₀, hs₀₇]
      rfl
    · have hD₁₀ := ha₁₁.grows.completes hD
      have hD₇ := ha₁₀.grows.completes hD₁₀
      obtain ⟨q₁, hleft, hflow₁⟩ := hp₇ D hD₇
      obtain ⟨q₂, hright, hflow₂⟩ := hp₁₀ D hD₁₀
      have hcondition := hp₄ D (ha₇.grows.completes hD₇)
      rw [hs₀₃, hh₀₃] at hcondition
      exact ⟨t, e, m, q₁, q₂, hcondition, hs₀₄ ▸ hleft, hflow₁, hs₀₇ ▸ hright, hflow₂, hh₁₁⟩

theorem Building.Fits.loop {label : Option String} {t e : Nat} (h : b.Fits regions)
    (ht : t < b.drafts.size) (he : e < b.drafts.size) :
    Building.Fits { b with scopes := [] :: b.scopes } (.loop b.scopes label t e :: regions) := by
  refine List.forall_mem_cons.mpr ⟨⟨List.suffix_rfl, fun target htarget => ?_⟩, h.scoped⟩
  rcases List.mem_pair.mp htarget with rfl | rfl
  · exact ht
  · exact he

theorem lowerWhile_meets (hm : Matches R frames regions) (label : Option String)
    (condition : Expr) (hbody : LowersBody W body) :
    Meets R regions (lowerStmt frames (.whileLoop label condition body))
      (.code id (placeStmt W regions (.whileLoop label condition body))) where
  run {R₁ b b' u} hR hc hfits _ h := by
    simp only [lowerStmt, run_bind] at h
    obtain ⟨head, b₁, h₁, _, b₂, h₂, s, b₃, h₃, _, b₄, h₄, t, b₅, h₅, e, b₆, h₆, _, b₇, h₇,
      _, b₈, h₈, _, b₉, h₉, _, b₁₀, h₁₀, _, b₁₁, h₁₁, h₁₂⟩ := h
    obtain ⟨ha₄, hs₄, hw₄, hhead, hlt₄, hs₄', hhead₄⟩ := loopHead_spec hc h₁ h₂ h₃ h₄
    have ho₅ := ha₄.coherent.opens h₅
    have ho₆ := ho₅.advances.coherent.opens h₆
    have hid₅ := ho₅.id_eq
    have hid₆ := ho₆.id_eq
    have hsize₅ := ho₅.size
    have hsize₆ := ho₆.size
    have hs₀₆ : b₆.scopes = b.scopes := by rw [ho₆.scopes, ho₅.scopes, hs₄]
    have ha₀₆ := ha₄.trans (ho₅.advances.trans ho₆.advances)
    have hw₄' := ho₆.advances.grows.waits (ho₅.advances.grows.waits hw₄ (by simp)) (by simp)
    have hw₅ := ho₆.advances.grows.waits ho₅.fresh (by simp)
    obtain ⟨R₂, ha₈, hs₈, -, hp₈⟩ := resume_spec ((lowerExpr_lowers hm condition).test t e) hR
      ha₀₆.coherent (hfits.advance hs₀₆ (by omega)) hw₄'
      ⟨hw₅.lt, ho₆.fresh.lt⟩ h₇ h₈
    have hsize₈ := ha₈.grows.size_le
    have hs₀₈ : b₈.scopes = b.scopes := hs₈.trans hs₀₆
    have hfits₈ := hfits.advance hs₀₈ (by omega)
    obtain ⟨R₃, ha₁₁, hs₁₁, -, -, -, hp₁₁⟩ := arm_spec
      (hbody.scoped regions (hm.loop b₈.scopes)) (hR.trans ha₈.registry)
      ha₈.coherent hfits₈ (ha₈.grows.waits hw₅ (by simp; omega)) (by omega)
      (hfits₈.loop (by omega) (by omega)) h₉ h₁₀ h₁₁
    have hw₆' := ha₁₁.grows.waits (ha₈.grows.waits ho₆.fresh (by simp; omega)) (by simp; omega)
    obtain ⟨ha₁₂, hs₁₂, hh₁₂, -⟩ := setCurrent_spec ha₁₁.coherent hw₆' h₁₂
    refine ⟨R₃, ((ha₀₆.enter ha₈ (by omega)).enter ha₁₁ (by omega)).enter ha₁₂ (by omega),
      hs₁₂.trans (hs₁₁.trans hs₀₈), trivial, fun D hD => ?_⟩
    have hD₁₁ := ha₁₂.grows.completes hD
    have hD₈ := ha₁₁.grows.completes hD₁₁
    have hD₄ := ho₅.advances.grows.completes
      (ho₆.advances.grows.completes (ha₈.grows.completes hD₈))
    obtain ⟨henter, hsilent⟩ := hhead₄ D hD₄
    obtain ⟨q, hplaced, hflow⟩ := hp₁₁ D hD₁₁
    rw [hs₀₈] at hplaced
    exact ⟨head, s, t, e, q, henter, hsilent, hs₀₆ ▸ hp₈ D hD₈, hplaced, hflow, hh₁₂⟩

theorem lowerDoWhile_meets (hm : Matches R frames regions) (label : Option String)
    (condition : Expr) (hbody : LowersBody W body) :
    Meets R regions (lowerStmt frames (.doWhile label body condition))
      (.code id (placeStmt W regions (.doWhile label body condition))) where
  run {R₁ b b' u} hR hc hfits _ h := by
    simp only [lowerStmt, run_bind] at h
    obtain ⟨head, b₁, h₁, _, b₂, h₂, s, b₃, h₃, _, b₄, h₄, t, b₅, h₅, e, b₆, h₆, _, b₇, h₇,
      _, b₈, h₈, _, b₉, h₉, _, b₁₀, h₁₀, _, b₁₁, h₁₁, h₁₂⟩ := h
    obtain ⟨ha₄, hs₄, hw₄, hhead, hlt₄, hs₄', hhead₄⟩ := loopHead_spec hc h₁ h₂ h₃ h₄
    have ho₅ := ha₄.coherent.opens h₅
    have ho₆ := ho₅.advances.coherent.opens h₆
    have hid₅ := ho₅.id_eq
    have hid₆ := ho₆.id_eq
    have hsize₅ := ho₅.size
    have hsize₆ := ho₆.size
    have hs₀₆ : b₆.scopes = b.scopes := by rw [ho₆.scopes, ho₅.scopes, hs₄]
    have ha₀₆ := ha₄.trans (ho₅.advances.trans ho₆.advances)
    have hw₄' := ho₆.advances.grows.waits (ho₅.advances.grows.waits hw₄ (by simp)) (by simp)
    have hw₅ := ho₆.advances.grows.waits ho₅.fresh (by simp)
    have hfits₆ := hfits.advance hs₀₆ (by omega)
    obtain ⟨R₂, ha₉, hs₉, -, -, -, hp₉⟩ := arm_spec
      (hbody.scoped regions (hm.loop b₆.scopes)) hR ha₀₆.coherent hfits₆ hw₄' hw₅.lt
      (hfits₆.loop hw₅.lt ho₆.fresh.lt) h₇ h₈ h₉
    have hsize₉ := ha₉.grows.size_le
    have hs₀₉ : b₉.scopes = b.scopes := hs₉.trans hs₀₆
    have hw₆ := ha₉.grows.waits ho₆.fresh (by simp; omega)
    have hhead₉ := Nat.lt_of_lt_of_le (Nat.lt_trans hlt₄ hs₄')
      (show b₄.drafts.size ≤ b₉.drafts.size by omega)
    obtain ⟨R₃, ha₁₁, hs₁₁, -, hp₁₁⟩ := resume_spec
      ((lowerExpr_lowers hm condition).test head e) (hR.trans ha₉.registry) ha₉.coherent
      (hfits.advance hs₀₉ (by omega)) (ha₉.grows.waits hw₅ (by simp; omega))
      ⟨hhead₉, hw₆.lt⟩ h₁₀ h₁₁
    obtain ⟨ha₁₂, hs₁₂, hh₁₂, -⟩ := setCurrent_spec ha₁₁.coherent
      (ha₁₁.grows.waits hw₆ (by simp; omega)) h₁₂
    refine ⟨R₃, ((ha₀₆.enter ha₉ (by omega)).enter ha₁₁ (by omega)).enter ha₁₂ (by omega),
      hs₁₂.trans (hs₁₁.trans hs₀₉), trivial, fun D hD => ?_⟩
    have hD₁₁ := ha₁₂.grows.completes hD
    have hD₉ := ha₁₁.grows.completes hD₁₁
    have hD₄ := ho₅.advances.grows.completes
      (ho₆.advances.grows.completes (ha₉.grows.completes hD₉))
    obtain ⟨henter, hsilent⟩ := hhead₄ D hD₄
    obtain ⟨q, hplaced, hflow⟩ := hp₉ D hD₉
    rw [hs₀₆] at hplaced
    exact ⟨head, s, t, e, q, henter, hsilent, hplaced, hflow, hs₀₉ ▸ hp₁₁ D hD₁₁, hh₁₂⟩

/-- The test of a counted loop, which always passes when there is none. -/
def loopTest (frames : List Frame) (condition : Option Expr) (t e : BlockId) : Build Unit :=
  match condition with
  | some condition => (lowerExpr frames condition).test t e
  | none => closeWith t

theorem loopTest_spec {condition : Option Expr} {first t e : Nat}
    (hm : Matches R frames regions) (hR : R <+: R₁) (hc : b.Coherent R₁)
    (hfits : b.Fits regions) (hw : b.Fresh first) (ht : t < b.drafts.size)
    (he : e < b.drafts.size)
    (h₁ : (setCurrent (some first)).run b = .ok ((), b₁))
    (h₂ : (loopTest frames condition t e).run b₁ = .ok ((), b₂)) :
    ∃ R₂, Advances [first] R₁ b R₂ b₂ ∧ b₂.scopes = b.scopes ∧ ∀ D, b₂.Completes D →
      match condition with
      | some condition => (placeExpr regions condition).test D b.scopes (some (.startOf first)) t e
      | none => D.Flows (some (.startOf first)) (.startOf t) := by
  cases condition with
  | some condition =>
      obtain ⟨R₂, ha, hs, -, hp⟩ := resume_spec ((lowerExpr_lowers hm condition).test t e) hR hc
        hfits hw ⟨ht, he⟩ h₁ h₂
      exact ⟨R₂, ha, hs, hp⟩
  | none =>
      obtain ⟨ha₁, hs₁, hh₁, hsize₁⟩ := setCurrent_spec hc hw h₁
      obtain ⟨ha₂, hs₂, -, -, hflow⟩ := closeWith_spec ha₁.coherent (by omega) h₂
      exact ⟨R₁, ha₁.trans (ha₂.weaken (by simp)), hs₂.trans hs₁, fun D hD => hh₁ ▸ hflow D hD⟩

theorem lowerFor_eq (frames : List Frame) (label : Option String) (init : Build Unit)
    (condition : Option Expr) (update : Build Unit) (body : Frame → Build Unit) :
    lowerFor frames label init condition update body = (do
      modify fun b => { b with scopes := [] :: b.scopes }
      init
      let head ← newLoopHead
      closeWith head
      let first ← newBlock
      link head first
      let bodyBlock ← newBlock
      let updateBlock ← newBlock
      let exitBlock ← newBlock
      setCurrent first
      loopTest frames condition bodyBlock exitBlock
      setCurrent bodyBlock
      inScope (body (.loop label updateBlock exitBlock))
      closeWith updateBlock
      setCurrent updateBlock
      update
      closeWith head
      modify fun b => { b with scopes := b.scopes.drop 1 }
      return exitBlock) := by
  cases condition <;> rfl

theorem lowerFor_meets (hm : Matches R frames regions) (label : Option String)
    (condition : Option Expr) {init update : List Stmt} (hinit : LowersBody W init)
    (hupdate : LowersBody W update) (hbody : LowersBody W body) :
    Meets R regions (lowerStmt frames (.forLoop label init condition update body))
      (.code id (placeStmt W regions (.forLoop label init condition update body))) where
  run {R₁ b b' u} hR hc hfits _ h := by
    rw [lowerStmt, run_bind] at h
    obtain ⟨e, b₁₇, h, h₁₈⟩ := h
    rw [lowerFor_eq] at h
    simp only [run_bind, run_modify, run_pure] at h
    obtain ⟨_, _, rfl, _, b₁, h₁, head, b₂, h₂, _, b₃, h₃, s, b₄, h₄, _, b₅, h₅, t, b₆, h₆,
      m, b₇, h₇, x, b₈, h₈, _, b₉, h₉, _, b₁₀, h₁₀, _, b₁₁, h₁₁, _, b₁₂, h₁₂, _, b₁₃, h₁₃,
      _, b₁₄, h₁₄, _, b₁₅, h₁₅, _, b₁₆, h₁₆, _, _, rfl, rfl, rfl⟩ := h
    obtain ⟨R₂, ha₁, hs₁, -, hp₁⟩ :=
      (hinit.meets hm).run hR (hc.withScopes _) hfits.scoped trivial h₁
    have ha₁ := ha₁.ofScopes
    have hsize₁ := ha₁.grows.size_le
    have hs₁ : b₁.scopes = Stmt.scopesAfterAll init ([] :: b.scopes) := hs₁
    obtain ⟨ha₅, hs₅, hw₅, hhead, hlt₅, hs₅', hhead₅⟩ := loopHead_spec ha₁.coherent h₂ h₃ h₄ h₅
    have ho₆ := ha₅.coherent.opens h₆
    have ho₇ := ho₆.advances.coherent.opens h₇
    have ho₈ := ho₇.advances.coherent.opens h₈
    have hid₆ := ho₆.id_eq
    have hid₇ := ho₇.id_eq
    have hid₈ := ho₈.id_eq
    have hsize₆ := ho₆.size
    have hsize₇ := ho₇.size
    have hsize₈ := ho₈.size
    have hs₁₈ : b₈.scopes = b₁.scopes := by rw [ho₈.scopes, ho₇.scopes, ho₆.scopes, hs₅]
    have ha₁₈ := ha₅.trans (ho₆.advances.trans (ho₇.advances.trans ho₈.advances))
    have ha₀₈ := ha₁.trans ha₁₈
    have hfits₈ : b₈.Fits regions := by
      refine hfits.scoped.advance_tail ?_ ?_
      · rw [hs₁₈, hs₁, Stmt.tail_scopesAfterAll]
      · show b.drafts.size ≤ b₈.drafts.size
        omega
    have hw₅' := ho₈.advances.grows.waits (ho₇.advances.grows.waits
      (ho₆.advances.grows.waits hw₅ (by simp)) (by simp)) (by simp)
    have hw₆ := ho₈.advances.grows.waits (ho₇.advances.grows.waits ho₆.fresh (by simp)) (by simp)
    have hw₇ := ho₈.advances.grows.waits ho₇.fresh (by simp)
    obtain ⟨R₃, ha₁₀, hs₁₀, hp₁₀⟩ := loopTest_spec hm (hR.trans ha₁.registry) ha₁₈.coherent hfits₈
      hw₅' hw₆.lt ho₈.fresh.lt h₉ h₁₀
    have hsize₁₀ := ha₁₀.grows.size_le
    have hs₁₁₀ : b₁₀.scopes = b₁.scopes := hs₁₀.trans hs₁₈
    have hfits₁₀ := hfits₈.advance hs₁₀ hsize₁₀
    obtain ⟨R₄, ha₁₃, hs₁₃, -, -, -, hp₁₃⟩ := arm_spec
      (hbody.scoped regions (hm.loop b₁₀.scopes)) (hR.trans (ha₁.registry.trans ha₁₀.registry))
      ha₁₀.coherent hfits₁₀ (ha₁₀.grows.waits hw₆ (by simp; omega)) (by omega)
      (hfits₁₀.loop (by omega) (by omega)) h₁₁ h₁₂ h₁₃
    have hsize₁₃ := ha₁₃.grows.size_le
    have hs₁₁₃ : b₁₃.scopes = b₁.scopes := hs₁₃.trans hs₁₁₀
    have hw₇' := ha₁₃.grows.waits (ha₁₀.grows.waits hw₇ (by simp; omega)) (by simp; omega)
    obtain ⟨R₅, ha₁₆, hs₁₆, -, -, -, hp₁₆⟩ := arm_spec (hupdate.meets hm)
      (hR.trans (ha₁.registry.trans (ha₁₀.registry.trans ha₁₃.registry))) ha₁₃.coherent
      (hfits₁₀.advance hs₁₃ hsize₁₃) hw₇' (by omega) trivial h₁₄ h₁₅ h₁₆
    have hw₈ := ha₁₆.grows.waits (ha₁₃.grows.waits (ha₁₀.grows.waits ho₈.fresh
      (by simp; omega)) (by simp; omega)) (by simp; omega)
    have ha₀₁₆ := (((ha₀₈.enter ha₁₀ (by omega)).enter ha₁₃ (by omega)).enter ha₁₆
      (by omega)).withScopes (b₁₆.scopes.drop 1)
    obtain ⟨ha₁₈, hs₁₈', hh₁₈, -⟩ := setCurrent_spec ha₀₁₆.coherent hw₈ h₁₈
    refine ⟨R₅, ha₀₁₆.enter ha₁₈ (by omega), ?_, trivial, fun D hD => ?_⟩
    · have hs₁₆ : b₁₆.scopes = Stmt.scopesAfterAll update b₁₃.scopes := hs₁₆
      rw [hs₁₈', List.drop_one, hs₁₆, Stmt.tail_scopesAfterAll, hs₁₁₃, hs₁,
        Stmt.tail_scopesAfterAll]
      rfl
    · have hD₁₆ : b₁₆.Completes D :=
        ⟨(ha₁₈.grows.completes hD).draft, (ha₁₈.grows.completes hD).node⟩
      have hD₁₃ := ha₁₆.grows.completes hD₁₆
      have hD₁₀ := ha₁₃.grows.completes hD₁₃
      have hD₅ := ho₆.advances.grows.completes (ho₇.advances.grows.completes
        (ho₈.advances.grows.completes (ha₁₀.grows.completes hD₁₀)))
      obtain ⟨henter, hsilent⟩ := hhead₅ D hD₅
      obtain ⟨q₂, hplaced₂, hflow₂⟩ := hp₁₃ D hD₁₃
      obtain ⟨q₃, hplaced₃, hflow₃⟩ := hp₁₆ D hD₁₆
      have htest := hp₁₀ D hD₁₀
      rw [hs₁₁₀, hs₁] at hplaced₂
      rw [hs₁₁₃, hs₁] at hplaced₃
      rw [hs₁₈, hs₁] at htest
      exact ⟨head, s, t, m, x, b₁.here, q₂, q₃, hp₁ D (ha₅.grows.completes hD₅), henter, hsilent,
        by cases condition <;> exact htest, hplaced₂, hflow₂, hplaced₃, hflow₃, hh₁₈⟩

end

end FlowTyping
