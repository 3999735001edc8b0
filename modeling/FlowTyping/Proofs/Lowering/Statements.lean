import FlowTyping.Proofs.Lowering.Values

/-!
The code of statements: what the lowering of a statement constructs stands where the
placement of the statement says.
-/

namespace FlowTyping

/-- A construction changes the scopes in a given way and leaves code at a place. -/
def Spec.code (after : Scopes → Scopes) (place : Placement) : Spec Unit where
  needs _ := True
  after := after
  gives _ _ := True
  placed D σ p _ q := place D σ p q

/-- The code of a body with a scope of its own, which needs its regions to fit. -/
def Spec.scoped (inner : List Region) (place : Placement) : Spec Unit where
  needs b := Building.Fits { b with scopes := [] :: b.scopes } inner
  after σ := σ
  gives _ _ := True
  placed D σ p _ q := place D ([] :: σ) p q

theorem Scopes.tail_declare (σ : Scopes) (var : LocalVar) : (σ.declare var).tail = σ.tail := by
  cases σ <;> rfl

theorem Stmt.tail_scopesAfter (s : Stmt) (σ : Scopes) : (s.scopesAfter σ).tail = σ.tail := by
  cases s <;> first | rfl | exact Scopes.tail_declare _ _

theorem Stmt.tail_scopesAfterAll (stmts : List Stmt) (σ : Scopes) :
    (Stmt.scopesAfterAll stmts σ).tail = σ.tail := by
  induction stmts generalizing σ with
  | nil => rfl
  | cons s rest ih => exact (ih (s.scopesAfter σ)).trans (s.tail_scopesAfter σ)

namespace Building

variable {S : List Nat} {R R' : Registry} {b b' : Building}

theorem Coherent.withScopes (hc : b.Coherent R) (σ : Scopes) :
    { b with scopes := σ }.Coherent R where
  designated := hc.designated
  current := hc.current
  targets := hc.targets
  listed := hc.listed
  operands := hc.operands
  registry := hc.registry
  paths e he := by
    obtain ⟨hlt, crossed, hids, hleaves⟩ := hc.paths e he
    exact ⟨hlt, crossed, hids, fun D hD => hleaves D ⟨hD.draft, hD.node⟩⟩

/-- Scopes do not matter for how a construction grows. -/
theorem Advances.withScopes (h : Advances S R b R' b') (σ : Scopes) :
    Advances S R b R' { b' with scopes := σ } :=
  ⟨h.registry, h.coherent.withScopes σ, h.grows.draft, h.grows.kept, h.grows.current,
    h.grows.node⟩

theorem Advances.ofScopes {σ : Scopes} (h : Advances S R { b with scopes := σ } R' b') :
    Advances S R b R' b' :=
  ⟨h.registry, h.coherent, h.grows.draft, h.grows.kept, h.grows.current, h.grows.node⟩

end Building

open Build Building

section

variable {W : CopyLaw} {R R₁ : Registry} {frames : List Frame} {regions inner : List Region}
  {b b' b₁ b₂ b₃ b₄ : Building} {u : Unit}

theorem run_inScope {m : Build Unit} :
    (inScope m).run b = .ok (u, b') ↔ ∃ b₁, m.run { b with scopes := [] :: b.scopes } =
      .ok ((), b₁) ∧ b' = { b₁ with scopes := b₁.scopes.drop 1 } := by
  simp only [inScope, run_bind, run_modify]
  constructor
  · rintro ⟨_, _, rfl, _, b₁, h, rfl⟩
    exact ⟨b₁, h, rfl⟩
  · rintro ⟨b₁, h, rfl⟩
    exact ⟨(), _, rfl, (), b₁, h, rfl⟩

theorem inScope_meets (regions : List Region) {m : Build Unit} {after : Scopes → Scopes}
    {place : Placement} (hm : Meets R inner m (.code after place))
    (hafter : ∀ σ, (after σ).tail = σ.tail) :
    Meets R regions (inScope m) (.scoped inner place) where
  run {R₁ b b' u} hR hc _ hneeds h := by
    obtain ⟨b₁, h₁, rfl⟩ := run_inScope.mp h
    obtain ⟨R₂, ha, hs, -, hp⟩ := hm.run hR (hc.withScopes _) hneeds trivial h₁
    refine ⟨R₂, ha.ofScopes.withScopes _, ?_, trivial, fun D hD => ?_⟩
    · have hs : b₁.scopes = after ([] :: b.scopes) := hs
      simp [hs, hafter, Spec.scoped]
    · exact hp D ⟨hD.draft, hD.node⟩

theorem Building.Fits.scoped (h : b.Fits regions) :
    Building.Fits { b with scopes := [] :: b.scopes } regions := by
  intro r hr
  obtain ⟨hsuffix, htargets⟩ := h r hr
  exact ⟨hsuffix.trans (List.tail_suffix _), htargets⟩

theorem link_spec {kind : SpecialKind} {source target : Nat} (hc : b.Coherent R)
    (hw : b.Waits source ⟨[], .special kind none⟩) (ht : target < b.drafts.size)
    (h : (link source target).run b = .ok ((), b')) :
    Advances [source] R b R b' ∧ b'.scopes = b.scopes ∧
      ∀ D, b'.Completes D → D.Silent (.startOf source) (.startOf target) := by
  rw [run_link] at h
  cases h
  refine ⟨⟨List.prefix_rfl, hc.link ht hw.2, .modify (.inr (by simp)) fun d _ => .link d target⟩,
    rfl, fun D hD => ?_⟩
  refine .special (hD.closed (i := source) (d := ⟨[], .special kind (some target)⟩) ?_
    (by simp [Draft.GrowsTo]))
  simp [Array.getElem?_modify, hw.1, Exits.link]

/-- The head of a loop has been made, entered, and led on to its first block. -/
theorem loopHead_spec {head first : Nat} (hc : b.Coherent R)
    (h₁ : newLoopHead.run b = .ok (head, b₁)) (h₂ : (closeWith head).run b₁ = .ok ((), b₂))
    (h₃ : newBlock.run b₂ = .ok (first, b₃)) (h₄ : (link head first).run b₃ = .ok ((), b₄)) :
    Advances [] R b R b₄ ∧ b₄.scopes = b.scopes ∧ b₄.Fresh first ∧ head = b.drafts.size ∧
      head < first ∧ first < b₄.drafts.size ∧
      ∀ D, b₄.Completes D → D.Flows b.here (.startOf head) ∧
        D.Silent (.startOf head) (.startOf first) := by
  obtain ⟨ha₁, hs₁, hh₁, hw₁, hid₁, hsize₁⟩ := newDraft_spec hc (by simp [Exits.targets]) h₁
  obtain ⟨ha₂, hs₂, hcur₂, hsize₂, hflow⟩ := closeWith_spec ha₁.coherent (by omega) h₂
  have ho₃ := ha₂.coherent.opens h₃
  have hid₃ := ho₃.id_eq
  have hsize₃ := ho₃.size
  have hw₃ := ho₃.advances.grows.waits (ha₂.grows.waits hw₁ (by simp)) (by simp)
  obtain ⟨ha₄, hs₄, hsilent⟩ := link_spec ho₃.advances.coherent hw₃ ho₃.fresh.lt h₄
  refine ⟨((ha₁.trans ha₂).trans ho₃.advances).enter ha₄ (by omega), ?_, ?_, hid₁, by omega,
    Nat.lt_of_lt_of_le ho₃.fresh.lt ha₄.grows.size_le, fun D hD => ⟨?_, hsilent D hD⟩⟩
  · exact hs₄.trans (ho₃.scopes.trans (hs₂.trans hs₁))
  · exact ha₄.grows.waits ho₃.fresh (by simp; omega)
  · exact hh₁ ▸ hflow D (ho₃.advances.grows.completes (ha₄.grows.completes hD))

theorem depart_spec {crossings : List Crossing} {finals : List FinalCopy} {target : Nat}
    (h : List.Forall₂ (Copies R regions) crossings finals) (hR : R <+: R₁)
    (hc : b.Coherent R₁) (hfits : b.Fits regions)
    (hscopes : ∀ final ∈ finals, final.scopes <:+ b.scopes) (ht : target < b.drafts.size)
    (hrun : (do closeWith (← leaveThrough crossings target)).run b = .ok (u, b')) :
    ∃ R₂, Advances [] R₁ b R₂ b' ∧ b'.scopes = b.scopes ∧ b'.current = none ∧
      ∀ D, b'.Completes D → D.Departs b.here finals target := by
  obtain ⟨first, b₁, h₁, h₂⟩ := run_bind.mp hrun
  obtain ⟨R₂, ha₁, hs₁, -, hh₁, hlt, hleaves⟩ := leaveThrough_spec h hR hc hfits hscopes ht h₁
  obtain ⟨ha₂, hs₂, hcur, -, hflow⟩ := closeWith_spec ha₁.coherent hlt h₂
  exact ⟨R₂, ha₁.trans ha₂, hs₂.trans hs₁, hcur, fun D hD =>
    ⟨first, hleaves D (ha₂.grows.completes hD), hh₁ ▸ hflow D hD⟩⟩

theorem here_of_current_none (h : b.current = none) : b.here = none := by
  rw [here, h]
  rfl

theorem run_declare (var : LocalVar) :
    (declare var).run b = .ok ((), { b with scopes := Scopes.declare b.scopes var }) := by
  rcases b with ⟨drafts, nodes, current, _ | ⟨scope, outer⟩, nextFinal, finalPaths⟩ <;> rfl

theorem lowerDecl_meets (hm : Matches R frames regions) (name : String)
    (qualifier : Option String) (init : Option Expr) :
    Meets R regions (lowerDecl frames name qualifier init)
      (.code (Scopes.declare · ⟨name, qualifier, .local⟩)
        (placeDecl regions ⟨name, qualifier, .local⟩ init)) where
  run {R₁ b b' u} hR hc hfits _ h := by
    simp only [lowerDecl, run_bind, run_declare] at h
    obtain ⟨value, b₁, h₁, _, b₂, h₂, _, b₃, h₃, h₄⟩ := h
    obtain ⟨id, h₃⟩ := run_discard.mp h₃
    obtain ⟨R₂, ha₁, hs₁, hids, hp₁⟩ := (lowerReceiver_meets hm init).run hR hc hfits trivial h₁
    have hs₁ : b₁.scopes = b.scopes := hs₁
    cases h₂
    obtain ⟨ha₃, hs₃, hrests₃, hemits₃⟩ := emit_spec (ha₁.coherent.withScopes _)
      (by simp [NodeKind.operands]) h₃
    cases value with
    | none =>
        obtain ⟨-, rfl⟩ := run_pure.mp h₄
        refine ⟨R₂, ha₁.trans ha₃.ofScopes, hs₃.trans (by rw [hs₁]; rfl), trivial,
          fun D hD => ?_⟩
        exact ⟨none, b₁.here, id, b₃.here, hp₁ D (ha₃.ofScopes.grows.completes hD),
          hemits₃ D hD, rfl⟩
    | some value =>
        obtain ⟨id', h₄⟩ := run_discard.mp h₄
        have hvalue : value < b₃.nodes.size :=
          Nat.lt_of_lt_of_le (hids value (by simp)) ha₃.grows.nodes_size_le
        obtain ⟨ha₄, hs₄, -, hemits₄⟩ := emit_spec ha₃.coherent
          (by simpa [NodeKind.operands] using hvalue) h₄
        refine ⟨R₂, ha₁.trans (ha₃.ofScopes.trans ha₄), hs₄.trans (hs₃.trans (by rw [hs₁]; rfl)),
          trivial, fun D hD => ?_⟩
        have hD₃ := ha₄.grows.completes hD
        exact ⟨some value, b₁.here, id, b₃.here, hp₁ D (ha₃.ofScopes.grows.completes hD₃),
          hemits₃ D hD₃, id', hemits₄ D hD⟩

/-- A construction whose node is not used any further. -/
theorem discard_meets {m : Build NodeId}
    {place : Layout → Scopes → Option Point → NodeId → Option Point → Prop}
    (hm : Meets R regions m (.value place)) :
    Meets R regions (discard m) (.code id fun D σ p q => ∃ i, place D σ p i q) where
  run {R₁ b b' u} hR hc hfits _ h := by
    obtain ⟨i, h⟩ := run_discard.mp h
    obtain ⟨R₂, ha, hs, -, hp⟩ := hm.run hR hc hfits trivial h
    exact ⟨R₂, ha, hs, trivial, fun D hD => ⟨i, hp D hD⟩⟩

theorem lowerAssign_meets (hm : Matches R frames regions) (target : Target) (value : Expr) :
    Meets R regions (lowerAssign frames target value)
      (.code id (placeAssign regions target value)) := by
  have hvalue := (lowerExpr_lowers hm value).value
  cases target with
  | «local» name =>
      refine ⟨fun {R₁ b b' u} hR hc hfits _ h => ?_⟩
      simp only [lowerAssign, run_bind, run_discard] at h
      obtain ⟨source, b₁, h₁, _, _, h₂, id, h₃⟩ := h
      obtain ⟨R₂, ha₁, hs₁, hrests, hp₁⟩ := hvalue.run hR hc hfits trivial h₁
      have hs₁ : b₁.scopes = b.scopes := hs₁
      obtain ⟨rfl, rfl⟩ := run_lookup.mp h₂
      have hsource := hrests.lt
      obtain ⟨ha₂, hs₂, -, hemits⟩ := emit_spec ha₁.coherent
        (by simpa [NodeKind.operands] using hsource) h₃
      refine ⟨R₂, ha₁.trans ha₂, hs₂.trans hs₁, trivial, fun D hD => ?_⟩
      exact ⟨source, b₁.here, id, hp₁ D (ha₂.grows.completes hD), hs₁ ▸ hemits D hD⟩
  | field receiver name =>
      refine ⟨fun {R₁ b b' u} hR hc hfits _ h => ?_⟩
      simp only [lowerAssign, run_bind, run_discard] at h
      obtain ⟨r, b₁, h₁, i, b₂, h₂, id, h₃⟩ := h
      have hboth := emit_after_two (lowerExpr_lowers hm receiver).value hvalue
        (fun r i => .assign (.field r name) i) fun _ _ => rfl
      obtain ⟨R₂, ha, hs, -, hp⟩ := hboth.run (a := id) hR hc hfits trivial (by
        simp only [run_bind]
        exact ⟨r, b₁, h₁, i, b₂, h₂, h₃⟩)
      refine ⟨R₂, ha, hs, trivial, fun D hD => ?_⟩
      obtain ⟨r, p₁, source, p₂, hfield⟩ := hp D hD
      exact ⟨r, p₁, source, p₂, id, hfield⟩

theorem lowerAssert_meets (hm : Matches R frames regions) (condition : Expr) :
    Meets R regions (lowerAssert frames condition) (.code id (placeAssert regions condition)) where
  run {R₁ b b' u} hR hc hfits _ h := by
    simp only [lowerAssert, run_bind, run_discard] at h
    obtain ⟨t, b₁, h₁, e, b₂, h₂, _, b₃, h₃, _, b₄, h₄, _, b₅, ⟨id, h₅⟩, h₆⟩ := h
    have ho₁ := hc.opens h₁
    have ho₂ := ho₁.advances.coherent.opens h₂
    have hid₁ := ho₁.id_eq
    have hid₂ := ho₂.id_eq
    have hsize₁ := ho₁.size
    have hsize₂ := ho₂.size
    have hs₀₂ : b₂.scopes = b.scopes := ho₂.scopes.trans ho₁.scopes
    have hh₀₂ : b₂.here = b.here := ho₂.here.trans ho₁.here
    have ha₀₂ := ho₁.advances.trans ho₂.advances
    obtain ⟨R₂, ha₃, hs₃, -, hp₃⟩ := ((lowerExpr_lowers hm condition).test t e).run hR
      ha₀₂.coherent (hfits.advance hs₀₂ (by omega)) ⟨by omega, by omega⟩ h₃
    have hsize₃ := ha₃.grows.size_le
    have hs₀₃ : b₃.scopes = b.scopes := hs₃.trans hs₀₂
    obtain ⟨ha₄, hs₄, hh₄, hsize₄⟩ := setCurrent_spec ha₃.coherent
      (ha₃.grows.waits ho₂.fresh (by simp)) h₄
    obtain ⟨R₃, handlers, ha₅, hs₅, hcur₅, hraises⟩ := emitRaising_spec hm
      (hR.trans ha₃.registry) ha₄.coherent (hfits.advance (hs₄.trans hs₀₃) (by omega))
      (by simp [NodeKind.operands]) h₅
    have hw₁ := ha₃.grows.waits (ho₂.advances.grows.waits ho₁.fresh (by simp)) (by simp)
    have hw₁' := ha₅.grows.waits (ha₄.grows.waits hw₁ (by simp; omega)) (by simp)
    obtain ⟨ha₆, hs₆, hh₆, -⟩ := setCurrent_spec ha₅.coherent hw₁' h₆
    refine ⟨R₃, (((ha₀₂.trans ha₃).enter ha₄ (by omega)).trans ha₅).enter ha₆ (by omega), ?_,
      trivial, fun D hD => ?_⟩
    · exact hs₆.trans (hs₅.trans (hs₄.trans hs₀₃))
    · have hD₅ := ha₆.grows.completes hD
      have hD₃ := ha₄.grows.completes (ha₅.grows.completes hD₅)
      have hcondition := hp₃ D hD₃
      rw [hs₀₂, hh₀₂] at hcondition
      obtain ⟨hroutes, hraises⟩ := hraises D hD₅
      rw [hh₄, here_of_current_none (by simpa using hcur₅)] at hraises
      exact ⟨t, e, handlers, id, hcondition, hroutes, hraises, hh₆⟩

/-- A jump to a loop has a way out to it. -/
theorem run_jump {label : Option String} {leaves : Bool}
    (hrun : (jump frames label leaves).run b = .ok (u, b')) :
    ∃ crossed target, Frame.way label leaves frames = some (crossed, target) ∧
      (do closeWith (← leaveThrough crossed target)).run b = .ok (u, b') := by
  unfold jump at hrun
  rw [Frame.way]
  cases hfound : Frame.findLoop label frames with
  | some found =>
      simp only [hfound] at hrun
      exact ⟨_, _, rfl, hrun⟩
  | none =>
      simp only [hfound] at hrun
      cases label <;> exact (run_throw.mp hrun).elim

theorem jump_meets (hm : Matches R frames regions) (label : Option String) (leaves : Bool) :
    Meets R regions (jump frames label leaves)
      (.code id (placeJump (Region.jumped label leaves regions))) where
  run {R₁ b b' u} hR hc hfits _ h := by
    obtain ⟨crossings, target, hway, h⟩ := run_jump h
    obtain ⟨finals, hjumped, hcopies⟩ := hm.jumped hway
    obtain ⟨r, hr, htarget⟩ := Region.jumped_target hjumped
    obtain ⟨R₂, ha, hs, hcur, hp⟩ := depart_spec hcopies hR hc hfits
      (fun final hfinal => (hfits _ (Region.finalBody_mem_of_mem_jumped hjumped hfinal)).1.trans
        (List.tail_suffix _)) ((hfits r hr).2 _ htarget) h
    exact ⟨R₂, ha, hs, trivial, fun D hD =>
      ⟨finals, target, hjumped, hp D hD, here_of_current_none hcur⟩⟩

theorem lowerReturn_meets (hm : Matches R frames regions) (value : Option Expr) :
    Meets R regions (lowerStmt frames (.returnValue value))
      (.code id (placeStmt W regions (.returnValue value))) where
  run {R₁ b b' u} hR hc hfits _ h := by
    rw [lowerStmt, run_bind] at h
    obtain ⟨v, b₁, h₁, h⟩ := h
    obtain ⟨_, b₂, h₂, h₃⟩ := run_bind.mp h
    obtain ⟨id, h₂⟩ := run_discard.mp h₂
    obtain ⟨R₂, ha₁, hs₁, hids, hp₁⟩ := (lowerReceiver_meets hm value).run hR hc hfits trivial h₁
    have hs₁ : b₁.scopes = b.scopes := hs₁
    obtain ⟨ha₂, hs₂, -, hemits⟩ := emit_spec ha₁.coherent
      (fun o ho => hids o (by simpa [NodeKind.operands] using ho)) h₂
    have hs₀₂ : b₂.scopes = b.scopes := hs₂.trans hs₁
    have ha₀₂ := ha₁.trans ha₂
    have hfits₂ := hfits.advance hs₀₂ ha₀₂.grows.size_le
    have hexit : Build.exitId < b₂.drafts.size :=
      Nat.lt_of_lt_of_le (by decide) ha₂.coherent.designated
    obtain ⟨R₃, ha₃, hs₃, hcur₃, hp₃⟩ := depart_spec hm.crossed (hR.trans ha₁.registry)
      ha₂.coherent hfits₂ (fun final hfinal =>
        (hfits₂ _ (Region.finalBody_mem_of_mem_crossed hfinal)).1.trans (List.tail_suffix _))
      hexit h₃
    refine ⟨R₃, ha₀₂.trans ha₃, hs₃.trans hs₀₂, trivial, fun D hD => ?_⟩
    have hD₂ := ha₃.grows.completes hD
    exact ⟨v, b₁.here, id, b₂.here, hp₁ D (ha₂.grows.completes hD₂), hemits D hD₂, hp₃ D hD,
      here_of_current_none hcur₃⟩

theorem lowerThrow_meets (hm : Matches R frames regions) (exception : String)
    (value : Option Expr) :
    Meets R regions (lowerStmt frames (.throw exception value))
      (.code id (placeStmt W regions (.throw exception value))) where
  run {R₁ b b' u} hR hc hfits _ h := by
    rw [lowerStmt, run_bind] at h
    obtain ⟨v, b₁, h₁, h₂⟩ := h
    obtain ⟨id, h₂⟩ := run_discard.mp h₂
    obtain ⟨R₂, ha₁, hs₁, hids, hp₁⟩ := (lowerReceiver_meets hm value).run hR hc hfits trivial h₁
    have hs₁ : b₁.scopes = b.scopes := hs₁
    obtain ⟨R₃, handlers, ha₂, hs₂, -, hraises⟩ := emitRaising_spec hm (hR.trans ha₁.registry)
      ha₁.coherent (hfits.advance hs₁ ha₁.grows.size_le)
      (fun o ho => hids o (by simpa [NodeKind.operands] using ho)) h₂
    refine ⟨R₃, ha₁.trans ha₂, hs₂.trans hs₁, trivial, fun D hD => ?_⟩
    exact ⟨v, b₁.here, handlers, id, hp₁ D (ha₂.grows.completes hD), hraises D hD⟩

end

end FlowTyping
