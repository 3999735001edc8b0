import FlowTyping.Proofs.Lowering.Compound

/-!
The code of protected regions: the body, the clauses, and the ways out of them through
the final body.
-/

namespace FlowTyping

open Build Building

namespace Building

variable {R : Registry} {b : Building}

/-- A final body gets the next id. -/
theorem Coherent.register (hc : b.Coherent R) (final : FinalCopy) :
    Advances [] R b (R ++ [final]) { b with nextFinal := b.nextFinal + 1 } where
  registry := List.prefix_append R [final]
  grows := ⟨fun _ d hd => ⟨d, hd, .refl d⟩, fun _ _ _ _ => rfl, fun _ h => .inl h,
    fun _ _ h => h⟩
  coherent := {
    designated := hc.designated
    current := hc.current
    targets := hc.targets
    listed := hc.listed
    operands := hc.operands
    registry := by simp [hc.registry]
    paths := by
      intro e he
      obtain ⟨hlt, crossed, hids, hleaves⟩ := hc.paths e he
      refine ⟨hlt, crossed, ?_, fun D hD => hleaves D ⟨hD.draft, hD.node⟩⟩
      exact mapM_of_isPrefix (List.prefix_append R [final]) hids }

end Building

section

variable {W : CopyLaw} {R R₁ : Registry} {frames : List Frame} {regions inner : List Region}
  {b b' b₁ b₂ b₃ b₄ : Building} {u : Unit} {body : List Stmt}

theorem LowersBody.copy (h : LowersBody W body) (hm : Matches R frames regions) :
    Meets R regions (inScope (lowerStmts frames body))
      (.ofPlacement fun D σ p q => placeStmts W regions body D ([] :: σ) p q) where
  run hR hc hfits _ hrun := (h.scoped regions hm).run hR hc hfits hfits.scoped hrun

theorem LowersBody.finalCopy (h : LowersBody W body) (hW : W.Holds)
    (hm : Matches R frames regions) (σ : Scopes) :
    Meets R regions (inScope (lowerStmts frames body))
      (.ofPlacement (placeCopy W regions σ body)) where
  run hR hc hfits hneeds hrun := by
    obtain ⟨R₂, ha, hs, -, hp⟩ := (h.copy hm).run hR hc hfits hneeds hrun
    exact ⟨R₂, ha, hs, trivial, fun D hD => ⟨hp D hD, hW (hp D hD)⟩⟩

/-- The blocks of clauses are made in their order. -/
theorem clauseBlocks_spec {handlers : List Handler} {targets : List (String × BlockId)}
    (hc : b.Coherent R)
    (h : (handlers.mapM fun h : Handler => do
      let block ← newBlock
      return (h.exception, block)).run b = .ok (targets, b')) :
    Advances [] R b R b' ∧ b'.scopes = b.scopes ∧ b'.here = b.here ∧
      targets.map Prod.fst = handlers.map Handler.exception ∧
      (targets.map Prod.snd).Pairwise (· < ·) ∧
      ∀ t ∈ targets, b'.Fresh t.2 ∧ b.drafts.size ≤ t.2 := by
  induction handlers generalizing b targets with
  | nil =>
      obtain ⟨rfl, rfl⟩ := run_pure.mp h
      exact ⟨⟨List.prefix_rfl, hc, .refl [] b⟩, rfl, rfl, rfl, .nil, by simp⟩
  | cons handler rest ih =>
      simp only [List.mapM_cons, bind_assoc, pure_bind, run_bind, run_pure] at h
      obtain ⟨t, b₁, h₁, targets, b₂, h₂, rfl, rfl⟩ := h
      have ho := hc.opens h₁
      have hid := ho.id_eq
      have hsize := ho.size
      obtain ⟨ha, hs, hh, hnames, hsorted, hfresh⟩ := ih ho.advances.coherent h₂
      refine ⟨ho.advances.trans ha, hs.trans ho.scopes, hh.trans ho.here, by simp [hnames], ?_, ?_⟩
      · refine List.pairwise_cons.mpr ⟨fun t' ht' => ?_, hsorted⟩
        obtain ⟨target, htarget, rfl⟩ := List.mem_map.mp ht'
        have := (hfresh target htarget).2
        exact Nat.lt_of_lt_of_le (by omega) this
      · refine List.forall_mem_cons.mpr ⟨⟨ha.grows.waits ho.fresh (by simp), ?_⟩, ?_⟩
        · exact Nat.le_of_eq hid.symm
        · intro target htarget
          obtain ⟨hw, hle⟩ := hfresh target htarget
          exact ⟨hw, Nat.le_trans (by omega) hle⟩

/-- The scopes in which the body of a clause stands, once its scope is open. -/
def Handler.entered (binding : Option String) (σ : Scopes) : Scopes :=
  match binding with
  | some name => σ.declare ⟨name, none, .local⟩
  | none => σ

theorem Handler.tail_entered (binding : Option String) (σ : Scopes) :
    (Handler.entered binding σ).tail = σ.tail := by
  cases binding with
  | none => rfl
  | some name => exact Scopes.tail_declare σ _

/-- The code of a clause, once its scope is open. -/
def placeClause (W : CopyLaw) (regions : List Region) (binding : Option String) (body : List Stmt) :
    Placement := fun D σ p q =>
  ∃ p₁, (match binding with
      | some name => ∃ id, D.Emits p (.localDecl ⟨name, none, .local⟩) id p₁
      | none => p₁ = p) ∧
    placeStmts W regions body D (Handler.entered binding σ) p₁ q

/-- The construction of a clause, once its scope is open. -/
def lowerClause (frames : List Frame) (binding : Option String) (body : List Stmt) :
    Build Unit := do
  if let some name := binding then
    let var : LocalVar := ⟨name, none, .local⟩
    declare var
    discard (emit (.localDecl var))
  lowerStmts frames body

theorem lowerClause_meets (hm : Matches R frames regions) (binding : Option String)
    (hbody : LowersBody W body) :
    Meets R regions (lowerClause frames binding body)
      (.code (fun σ => Stmt.scopesAfterAll body (Handler.entered binding σ))
        (placeClause W regions binding body)) where
  run {R₁ b b' u} hR hc hfits _ h := by
    cases binding with
    | none =>
        obtain ⟨R₂, ha, hs, -, hp⟩ := (hbody.meets hm).run hR hc hfits trivial h
        exact ⟨R₂, ha, hs, trivial, fun D hD => ⟨b.here, rfl, hp D hD⟩⟩
    | some name =>
        simp only [lowerClause, run_bind, run_declare, run_discard] at h
        obtain ⟨_, b₁, h₁, _, b₂, ⟨id, h₂⟩, h₃⟩ := h
        cases h₁
        obtain ⟨ha₂, hs₂, -, hemits⟩ := emit_spec (hc.withScopes _) (by simp [NodeKind.operands]) h₂
        have ha₂ := ha₂.ofScopes
        obtain ⟨R₃, ha₃, hs₃, -, hp₃⟩ := (hbody.meets hm).run hR ha₂.coherent
          (hfits.advance_tail (hs₂ ▸ Scopes.tail_declare _ _) ha₂.grows.size_le) trivial h₃
        refine ⟨R₃, ha₂.trans ha₃, ?_, trivial, fun D hD => ?_⟩
        · rw [hs₃, hs₂]
          rfl
        · have hplaced := hp₃ D hD
          rw [hs₂] at hplaced
          exact ⟨b₂.here, ⟨id, hemits D (ha₃.grows.completes hD)⟩, hplaced⟩

theorem lowerHandlers_eq (leave : Build Unit) (exception : String) (binding : Option String)
    (body : List Stmt) (rest : List Handler) (block : BlockId) (blocks : List BlockId) :
    lowerHandlers frames leave (.clause exception binding body :: rest) (block :: blocks) = (do
      setCurrent (some block)
      inScope (lowerClause frames binding body)
      leave
      lowerHandlers frames leave rest blocks) := by
  rw [lowerHandlers]
  cases binding <;> rfl

/-- A construction leaves the code of a way out to a block, and nothing open. -/
structure LeavesBy (R : Registry) (regions : List Region) (σ : Scopes) (target : Nat)
    (leave : Build Unit) (way : Layout → Option Point → Prop) : Prop where
  run : ∀ {R₁ : Registry} {b b' : Building} {u : Unit}, R <+: R₁ → b.Coherent R₁ →
    b.Fits regions → b.scopes = σ → target < b.drafts.size → leave.run b = .ok (u, b') →
    ∃ R₂, Advances [] R₁ b R₂ b' ∧ b'.scopes = b.scopes ∧ b'.current = none ∧
      ∀ D, b'.Completes D → way D b.here

theorem lowerHandlers_spec {handlers : List Handler} {blocks : List Nat} {leave : Build Unit}
    {way : Layout → Option Point → Prop} {σ : Scopes} {target : Nat}
    (hbodies : ∀ h ∈ handlers, LowersBody W h.body) (hm : Matches R frames inner)
    (hleave : LeavesBy R regions σ target leave way) (hR : R <+: R₁) (hc : b.Coherent R₁)
    (hfits : b.Fits regions) (hinner : Building.Fits { b with scopes := [] :: b.scopes } inner)
    (hσ : b.scopes = σ) (htarget : target < b.drafts.size) (hsorted : blocks.Pairwise (· < ·))
    (hfresh : ∀ t ∈ blocks, b.Fresh t)
    (h : (lowerHandlers frames leave handlers blocks).run b = .ok (u, b')) :
    ∃ R₂, Advances blocks R₁ b R₂ b' ∧ b'.scopes = b.scopes ∧
      ∀ D, b'.Completes D → placeHandlers W inner way handlers D σ blocks := by
  induction handlers generalizing b R₁ blocks with
  | nil =>
      rw [lowerHandlers] at h
      · obtain ⟨-, rfl⟩ := run_pure.mp h
        exact ⟨R₁, ⟨List.prefix_rfl, hc, .refl _ b⟩, rfl, fun D _ => by simp [placeHandlers]⟩
      · simp
  | cons handler rest ih =>
      cases blocks with
      | nil =>
          rw [lowerHandlers] at h
          · obtain ⟨-, rfl⟩ := run_pure.mp h
            exact ⟨R₁, ⟨List.prefix_rfl, hc, .refl _ b⟩, rfl, fun D _ => by simp [placeHandlers]⟩
          · simp
      | cons block blocks =>
          obtain ⟨exception, binding, body⟩ := handler
          rw [lowerHandlers_eq] at h
          simp only [run_bind] at h
          obtain ⟨_, b₁, h₁, _, b₂, h₂, _, b₃, h₃, h₄⟩ := h
          obtain ⟨hfirst, hrest⟩ := List.forall_mem_cons.mp hfresh
          obtain ⟨hbody, hothers⟩ := List.forall_mem_cons.mp hbodies
          obtain ⟨hless, hsorted⟩ := List.pairwise_cons.mp hsorted
          have hclause := inScope_meets regions (lowerClause_meets hm binding hbody)
            fun σ => (Stmt.tail_scopesAfterAll body _).trans (Handler.tail_entered binding σ)
          obtain ⟨R₂, ha₂, hs₂, -, hp₂⟩ := resume_spec hclause hR hc hfits hfirst hinner h₁ h₂
          have hs₂ : b₂.scopes = b.scopes := hs₂
          obtain ⟨R₃, ha₃, hs₃, hcur₃, hway⟩ := hleave.run (hR.trans ha₂.registry) ha₂.coherent
            (hfits.advance hs₂ ha₂.grows.size_le) (hs₂.trans hσ)
            (Nat.lt_of_lt_of_le htarget ha₂.grows.size_le) h₃
          have ha₀₃ := ha₂.trans (ha₃.weaken (by simp))
          have hs₀₃ : b₃.scopes = b.scopes := hs₃.trans hs₂
          have hsize₀₃ := ha₀₃.grows.size_le
          have hfresh₃ : ∀ t ∈ blocks, b₃.Fresh t := by
            intro t ht
            refine ha₀₃.grows.waits (hrest t ht) ?_
            have := hless t ht
            simp only [List.mem_singleton]
            omega
          obtain ⟨R₄, ha₄, hs₄, hp₄⟩ := ih hothers (hR.trans ha₀₃.registry) ha₀₃.coherent
            (hfits.advance hs₀₃ hsize₀₃)
            (hinner.advance (by simp [hs₀₃]) hsize₀₃) (hs₀₃.trans hσ)
            (Nat.lt_of_lt_of_le htarget hsize₀₃) hsorted hfresh₃ h₄
          refine ⟨R₄, (ha₀₃.weaken (by simp)).trans (ha₄.weaken fun i hi => .inl (by simp [hi])),
            hs₄.trans hs₀₃, fun D hD => ⟨?_, hp₄ D hD⟩⟩
          have hD₃ := ha₄.grows.completes hD
          obtain ⟨p₁, hp₁, hplaced⟩ := hp₂ D (ha₃.grows.completes hD₃)
          rw [hσ] at hplaced
          refine ⟨p₁, b₂.here, ?_, ?_, hway D hD₃⟩
          · cases binding <;> exact hp₁
          · cases binding <;> exact hplaced

/-- Gives the final body of a protected region its id. -/
def registerFinal (frames : List Frame) (finalBody : Option (List Stmt)) :
    Build (List Crossing) :=
  match lowerFinal frames finalBody with
  | none => pure []
  | some copy => do
      let id := (← get).nextFinal
      modify fun b => { b with nextFinal := id + 1 }
      pure [(⟨id, copy⟩ : Crossing)]

theorem registerFinal_spec {finalBody : Option (List Stmt)} {crossed : List Crossing}
    (hW : W.Holds) (hbody : ∀ body ∈ finalBody, LowersBody W body)
    (hm : Matches R frames regions) (hR : R <+: R₁) (hc : b.Coherent R₁)
    (h : (registerFinal frames finalBody).run b = .ok (crossed, b')) :
    ∃ R₂, Advances [] R₁ b R₂ b' ∧ b'.scopes = b.scopes ∧ b'.here = b.here ∧
      List.Forall₂ (Copies R₂ regions) crossed (placeFinal W regions b.scopes finalBody) ∧
      Matches R₂ (crossed.map (fun c => Frame.finalBody c.id c.copy) ++ frames)
        ((placeFinal W regions b.scopes finalBody).map Region.finalBody ++ regions) := by
  cases finalBody with
  | none =>
      obtain ⟨rfl, rfl⟩ := run_pure.mp h
      refine ⟨R₁, ⟨List.prefix_rfl, hc, .refl [] b⟩, rfl, rfl, ?_, ?_⟩
      · rw [placeFinal]
        exact .nil
      · rw [placeFinal]
        exact hm.extend hR
  | some body =>
      simp only [registerFinal, lowerFinal, run_bind, run_get, run_modify, run_pure] at h
      obtain ⟨_, _, ⟨rfl, rfl⟩, _, _, rfl, rfl, rfl⟩ := h
      rw [placeFinal_some]
      have ha := hc.register ⟨b.scopes, body, placeCopy W regions b.scopes body⟩
      have hm' := hm.extend (hR.trans ha.registry)
      have hcopies : Copies (R₁ ++ [⟨b.scopes, body, placeCopy W regions b.scopes body⟩]) regions
          ⟨b.nextFinal, inScope (lowerStmts frames body)⟩
          ⟨b.scopes, body, placeCopy W regions b.scopes body⟩ :=
        ⟨by simp [← hc.registry], (hbody body rfl).finalCopy hW hm' b.scopes⟩
      exact ⟨_, ha, rfl, rfl, .cons hcopies .nil, .finalBody hcopies hm'⟩

theorem lowerTry_eq (body : List Stmt) (handlers : List Handler)
    (finalBody : Option (List Stmt)) :
    lowerStmt frames (.tryCatch body handlers finalBody) = (do
      checkHandlers [] (handlers.map Handler.exception)
      let after ← newBlock
      let targets ← handlers.mapM fun h : Handler => do
        let block ← newBlock
        return (h.exception, block)
      let crossed ← registerFinal frames finalBody
      let inner := crossed.map (fun c => Frame.finalBody c.id c.copy) ++ frames
      inScope (lowerStmts (.handlers targets :: inner) body)
      closeWith (← leaveThrough crossed after)
      lowerHandlers inner (do closeWith (← leaveThrough crossed after)) handlers
        (targets.map Prod.snd)
      setCurrent (some after)) := by
  rw [lowerStmt]
  cases finalBody <;> rfl

theorem run_lift {m : Except GraphError Unit} (h : (liftM m : Build Unit).run b = .ok (u, b')) :
    b = b' := by
  cases m with
  | error e => cases h
  | ok => cases h; rfl

theorem scopes_of_mem_placeFinal {σ : Scopes} {finalBody : Option (List Stmt)}
    {final : FinalCopy} (h : final ∈ placeFinal W regions σ finalBody) : final.scopes = σ := by
  cases finalBody with
  | none => simp [placeFinal] at h
  | some body =>
      rw [placeFinal_some, List.mem_singleton] at h
      rw [h]

theorem Building.Fits.final (h : b.Fits regions) (W : CopyLaw) (finalBody : Option (List Stmt)) :
    Building.Fits { b with scopes := [] :: b.scopes }
      ((placeFinal W regions b.scopes finalBody).map Region.finalBody ++ regions) := by
  intro r hr
  rcases List.mem_append.mp hr with hr | hr
  · obtain ⟨final, hfinal, rfl⟩ := List.mem_map.mp hr
    refine ⟨?_, by simp [Region.targets]⟩
    rw [Region.scopes, scopes_of_mem_placeFinal hfinal]
    exact List.suffix_rfl
  · exact h.scoped r hr

theorem lowerTry_meets {handlers : List Handler} {finalBody : Option (List Stmt)}
    (hW : W.Holds) (hbody : LowersBody W body)
    (hhandlers : ∀ h ∈ handlers, LowersBody W h.body)
    (hfinal : ∀ body ∈ finalBody, LowersBody W body) (hm : Matches R frames regions) :
    Meets R regions (lowerStmt frames (.tryCatch body handlers finalBody))
      (.code id (placeStmt W regions (.tryCatch body handlers finalBody))) where
  run {R₁ b b' u} hR hc hfits _ h := by
    rw [lowerTry_eq] at h
    simp only [run_bind] at h
    obtain ⟨_, b₀, h₀, after, b₁, h₁, targets, b₂, h₂, crossed, b₃, h₃, _, b₄, h₄, first, b₅, h₅,
      _, b₆, h₆, _, b₇, h₇, h₈⟩ := h
    obtain rfl := run_lift h₀
    have ho₁ := hc.opens h₁
    have hid₁ := ho₁.id_eq
    have hsize₁ := ho₁.size
    obtain ⟨ha₂, hs₂, hh₂, hnames, hsorted, hfresh⟩ := clauseBlocks_spec ho₁.advances.coherent h₂
    have hsize₂ := ha₂.grows.size_le
    obtain ⟨R₃, ha₃, hs₃, hh₃, hcopies, hinner⟩ :=
      registerFinal_spec hW hfinal hm hR ha₂.coherent h₃
    have hsize₃ := ha₃.grows.size_le
    have hs₀₃ : b₃.scopes = b.scopes := hs₃.trans (hs₂.trans ho₁.scopes)
    have hh₀₃ : b₃.here = b.here := hh₃.trans (hh₂.trans ho₁.here)
    have ha₀₃ := ho₁.advances.trans (ha₂.trans ha₃)
    have hfits₃ := hfits.advance hs₀₃ ha₀₃.grows.size_le
    have hfinals := hfits₃.final W finalBody
    rw [hs₂.trans ho₁.scopes] at hcopies hinner
    rw [hs₀₃] at hfinals
    have hfresh₃ : ∀ t ∈ targets, b₃.Fresh t.2 := fun t ht =>
      ha₃.grows.waits (hfresh t ht).1 (by simp)
    have hbodyFits : Building.Fits { b₃ with scopes := [] :: b.scopes }
        (.handlers b.scopes targets ::
          ((placeFinal W regions b.scopes finalBody).map Region.finalBody ++ regions)) := by
      refine List.forall_mem_cons.mpr ⟨⟨List.suffix_rfl, fun t ht => ?_⟩, hfinals⟩
      obtain ⟨target, htarget, rfl⟩ := List.mem_map.mp ht
      exact (hfresh₃ target htarget).lt
    obtain ⟨R₄, ha₄, hs₄, -, hp₄⟩ := (hbody.scoped regions (hinner.handlers b.scopes)).run
      List.prefix_rfl ha₃.coherent hfits₃ (hs₀₃ ▸ hbodyFits) h₄
    have hs₀₄ : b₄.scopes = b.scopes := hs₄.trans hs₀₃
    have hsize₄ := ha₄.grows.size_le
    have hleave : LeavesBy R₃ regions b.scopes after
        (do closeWith (← leaveThrough crossed after))
        fun D p => D.Departs p (placeFinal W regions b.scopes finalBody) after := by
      refine ⟨fun hR hc hfits hscopes htarget hrun => ?_⟩
      refine depart_spec hcopies hR hc hfits (fun final hfinal => ?_) htarget hrun
      exact ((scopes_of_mem_placeFinal hfinal).trans hscopes.symm) ▸ List.suffix_rfl
    have hafter₃ := Nat.lt_of_lt_of_le ho₁.fresh.lt (Nat.le_trans hsize₂ hsize₃)
    obtain ⟨R₅, ha₆, hs₆, -, hp₆⟩ := hleave.run ha₄.registry ha₄.coherent
      (hfits₃.advance hs₄ hsize₄) hs₀₄ (Nat.lt_of_lt_of_le hafter₃ hsize₄)
      (run_bind.mpr ⟨first, b₅, h₅, h₆⟩)
    have hs₀₆ : b₆.scopes = b.scopes := hs₆.trans hs₀₄
    have ha₃₆ := ha₄.trans ha₆
    have hsize₆ := ha₃₆.grows.size_le
    have hfinals₆ : Building.Fits { b₆ with scopes := [] :: b₆.scopes }
        ((placeFinal W regions b.scopes finalBody).map Region.finalBody ++ regions) :=
      hfinals.advance (by simp [hs₀₆]) hsize₆
    obtain ⟨R₆, ha₇, hs₇, hp₇⟩ := lowerHandlers_spec hhandlers hinner hleave ha₃₆.registry
      ha₃₆.coherent (hfits₃.advance (hs₀₆.trans hs₀₃.symm) hsize₆) hfinals₆ hs₀₆
      (Nat.lt_of_lt_of_le hafter₃ hsize₆) hsorted
      (by
        intro t ht
        obtain ⟨target, htarget, rfl⟩ := List.mem_map.mp ht
        exact ha₃₆.grows.waits (hfresh₃ target htarget) (by simp)) h₇
    have hblocks : ∀ t ∈ targets.map Prod.snd, b₁.drafts.size ≤ t := by
      intro t ht
      obtain ⟨target, htarget, rfl⟩ := List.mem_map.mp ht
      exact (hfresh target htarget).2
    have hafter₇ : b₇.Fresh after := by
      have hw₆ := ha₃₆.grows.waits (ha₃.grows.waits (ha₂.grows.waits ho₁.fresh (by simp))
        (by simp)) (by simp)
      refine ha₇.grows.waits hw₆ fun hmem => ?_
      exact Nat.lt_irrefl _ (Nat.lt_of_lt_of_le ho₁.fresh.lt (hblocks _ hmem))
    obtain ⟨ha₈, hs₈, hh₈, -⟩ := setCurrent_spec ha₇.coherent hafter₇ h₈
    have ha₀₇ := (ha₀₃.trans ha₃₆).weaken (T := targets.map Prod.snd) (by simp) |>.trans ha₇
    have ha₀₇ := ha₀₇.weaken (T := []) fun i hi => .inr (Nat.le_trans (by omega) (hblocks i hi))
    refine ⟨R₆, ha₀₇.enter ha₈ (Nat.le_of_eq hid₁.symm), hs₈.trans (hs₇.trans hs₀₆), trivial,
      fun D hD => ?_⟩
    have hD₇ := ha₈.grows.completes hD
    have hD₆ := ha₇.grows.completes hD₇
    have hD₄ := ha₆.grows.completes hD₆
    have hplaced := hp₄ D hD₄
    rw [hs₀₃, hh₀₃] at hplaced
    exact ⟨after, targets, b₄.here, hnames, hplaced, hp₆ D hD₆, hp₇ D hD₇, hh₈⟩

end

/-! The lowering follows the syntax, and so does the proof that its code is in place. -/

section

variable {W : CopyLaw}

mutual

theorem lowersStmt (hW : W.Holds) : (s : Stmt) → ∀ {R : Registry} {frames : List Frame}
    {regions : List Region}, Matches R frames regions →
    Meets R regions (lowerStmt frames s) (.code s.scopesAfter (placeStmt W regions s))
  | .localDecl name qualifier init, _, _, _, hm => by
      rw [lowerStmt, placeStmt]
      exact lowerDecl_meets hm name qualifier init
  | .assign target value, _, _, _, hm => by
      rw [lowerStmt, placeStmt]
      exact lowerAssign_meets hm target value
  | .expr value, _, _, _, hm => by
      rw [lowerStmt, placeStmt]
      exact discard_meets (lowerExpr_lowers hm value).value
  | .ifElse condition thenBody elseBody, _, _, _, hm =>
      lowerIf_meets hm condition (lowersBody hW thenBody) (lowersElse hW elseBody)
  | .whileLoop label condition body, _, _, _, hm =>
      lowerWhile_meets hm label condition (lowersBody hW body)
  | .doWhile label body condition, _, _, _, hm =>
      lowerDoWhile_meets hm label condition (lowersBody hW body)
  | .forLoop label init condition update body, _, _, _, hm =>
      lowerFor_meets hm label condition (lowersBody hW init) (lowersBody hW update)
        (lowersBody hW body)
  | .breakLoop label, _, _, _, hm => by
      rw [lowerStmt, placeStmt]
      exact jump_meets hm label true
  | .continueLoop label, _, _, _, hm => by
      rw [lowerStmt, placeStmt]
      exact jump_meets hm label false
  | .returnValue value, _, _, _, hm => lowerReturn_meets hm value
  | .throw exception value, _, _, _, hm => lowerThrow_meets hm exception value
  | .tryCatch body handlers finalBody, _, _, _, hm =>
      lowerTry_meets hW (lowersBody hW body) (lowersHandlers hW handlers)
        (lowersFinal hW finalBody) hm
  | .assert condition, _, _, _, hm => by
      rw [lowerStmt, placeStmt]
      exact lowerAssert_meets hm condition

theorem lowersBody (hW : W.Holds) : (stmts : List Stmt) → LowersBody W stmts
  | [] => ⟨fun _ => ⟨fun {R₁ b b' u} _ hc _ _ h => by
      rw [lowerStmts] at h
      obtain ⟨-, rfl⟩ := run_pure.mp h
      exact ⟨R₁, ⟨List.prefix_rfl, hc, .refl [] b⟩, rfl, trivial, fun D _ => by
        simp [Spec.code, placeStmts]⟩⟩⟩
  | s :: rest => ⟨fun {_ _ regions} hm => ⟨fun {R₁ b b' u} hR hc hfits _ h => by
      rw [lowerStmts, run_bind] at h
      obtain ⟨_, b₁, h₁, h₂⟩ := h
      obtain ⟨R₂, ha₁, hs₁, -, hp₁⟩ := (lowersStmt hW s hm).run hR hc hfits trivial h₁
      have hs₁ : b₁.scopes = s.scopesAfter b.scopes := hs₁
      obtain ⟨R₃, ha₂, hs₂, -, hp₂⟩ := ((lowersBody hW rest).meets hm).run (hR.trans ha₁.registry)
        ha₁.coherent (hfits.advance_tail (hs₁ ▸ s.tail_scopesAfter _) ha₁.grows.size_le)
        trivial h₂
      refine ⟨R₃, ha₁.trans ha₂, ?_, trivial, fun D hD => ?_⟩
      · rw [hs₂, hs₁]
        rfl
      · have hplaced : placeStmts W regions rest D b₁.scopes b₁.here b'.here := hp₂ D hD
        rw [hs₁] at hplaced
        show placeStmts W regions (s :: rest) D b.scopes b.here b'.here
        rw [placeStmts]
        exact ⟨b₁.here, hp₁ D (ha₂.grows.completes hD), hplaced⟩⟩⟩

theorem lowersElse (hW : W.Holds) : (stmts : Option (List Stmt)) → LowersElse W stmts
  | none => ⟨fun _ => ⟨fun {R₁ b b' u} _ hc _ _ h => by
      rw [lowerElse] at h
      obtain ⟨-, rfl⟩ := run_pure.mp h
      exact ⟨R₁, ⟨List.prefix_rfl, hc, .refl [] b⟩, rfl, trivial, fun D _ => by
        simp [Spec.code, placeElse]⟩⟩⟩
  | some body => ⟨fun hm => ⟨fun {R₁ b b' u} hR hc hfits _ h => by
      rw [lowerElse] at h
      obtain ⟨R₂, ha, hs, -, hp⟩ := ((lowersBody hW body).copy hm).run hR hc hfits trivial h
      refine ⟨R₂, ha, hs, trivial, fun D hD => ?_⟩
      show placeElse W _ (some body) D b.scopes b.here b'.here
      rw [placeElse]
      exact hp D hD⟩⟩

theorem lowersFinal (hW : W.Holds) :
    (stmts : Option (List Stmt)) → ∀ body ∈ stmts, LowersBody W body
  | none, _, h => nomatch h
  | some body, _, h => Option.some.inj h ▸ lowersBody hW body

theorem lowersHandlers (hW : W.Holds) :
    (handlers : List Handler) → ∀ h ∈ handlers, LowersBody W h.body
  | [], _, h => nomatch h
  | .clause _ _ body :: rest, handler, h => by
      rcases List.mem_cons.mp h with rfl | h
      · exact lowersBody hW body
      · exact lowersHandlers hW rest handler h

end

end

/-! The code of a unit: the finished layout of its construction holds the body between the
entry and the exit, and the other designated blocks lead nowhere. -/

/-- The drafts and nodes of a construction, with every free exit led to the exit. -/
def Building.layout (b : Building) : Layout :=
  ⟨b.drafts.map fun d => { d with exits := d.exits.finish exitId }, b.nodes⟩

/-- The scopes in which the body of a unit is opened. -/
def Scopes.ofParams (params : List Parameter) : Scopes :=
  [(params.map fun p => ⟨p.name, p.qualifier, .parameter⟩).reverse]

/-- A layout holds the code of a unit, in which all copies of final bodies obey a law. -/
structure ProgramUnit.Laid (u : ProgramUnit) (W : CopyLaw) (D : Layout) : Prop where
  body : ∃ first q, D.Silent (.startOf entryId) (.startOf first) ∧
    placeStmts W [] u.body D ([] :: Scopes.ofParams u.params) (some (.startOf first)) q ∧
    D.Flows q (.startOf exitId)
  exit : D.drafts[exitId]? = some ⟨[], .special .exit none⟩
  exceptionalExit : D.drafts[exceptionalExitId]? = some ⟨[], .special .exceptionalExit none⟩

/-- A layout is whole: targets are blocks, a block lists its nodes in order, and a node
reads nodes before it. -/
structure Layout.Whole (D : Layout) : Prop where
  designated : 3 ≤ D.drafts.size
  finished : ∀ (i : Nat) (d : Draft), D.drafts[i]? = some d → d.exits ≠ .openEnd
  resumes : ∀ (i : Nat) (d : Draft) (handlers : List (String × BlockId)),
    D.drafts[i]? = some d → d.exits ≠ .raise none handlers false
  targets : ∀ (i : Nat) (d : Draft), D.drafts[i]? = some d →
    ∀ t : Nat, t ∈ d.exits.targets → t < D.drafts.size
  listed : ∀ (i : Nat) (d : Draft), D.drafts[i]? = some d → d.nodes.Pairwise (· < ·) ∧
    ∀ id ∈ d.nodes, ∃ n : Node, D.nodes[id]? = some n ∧ n.block = i
  operands : ∀ (i : Nat) (n : Node), D.nodes[i]? = some n →
    n.id = i ∧ ∀ o ∈ n.kind.operands, o < i

theorem Draft.growsTo_finish (d : Draft) (exit : BlockId) :
    d.GrowsTo { d with exits := d.exits.finish exit } := by
  unfold GrowsTo Exits.finish
  split <;> split <;> simp_all

theorem Exits.mem_targets_finish {exits : Exits} {exit t : BlockId}
    (h : t ∈ (exits.finish exit).targets) : t ∈ exits.targets ∨ t = exit := by
  unfold finish at h
  split at h
  · simpa [targets] using h
  · simpa [targets, or_comm] using h
  · exact .inl h

namespace Building

variable {R : Registry} {b : Building}

theorem layout_drafts (b : Building) (i : Nat) :
    b.layout.drafts[i]? =
      b.drafts[i]?.map fun d => { d with exits := d.exits.finish exitId } := by
  simp [layout]

/-- A draft of the layout is one of the construction, finished. -/
theorem exists_of_layout {i : Nat} {d : Draft} (hd : b.layout.drafts[i]? = some d) :
    ∃ d₀, b.drafts[i]? = some d₀ ∧ d = { d₀ with exits := d₀.exits.finish exitId } := by
  rw [layout_drafts] at hd
  obtain ⟨d₀, hd₀, rfl⟩ := Option.map_eq_some_iff.mp hd
  exact ⟨d₀, hd₀, rfl⟩

theorem completes_layout (b : Building) : b.Completes b.layout where
  draft i d hd := ⟨_, by rw [layout_drafts, hd]; rfl, d.growsTo_finish exitId⟩
  node _ _ h := h

theorem Coherent.whole (hc : b.Coherent R) : b.layout.Whole where
  designated := by simpa [layout] using hc.designated
  finished i d hd := by
    obtain ⟨d', -, rfl⟩ := exists_of_layout hd
    obtain ⟨nodes, exits⟩ := d'
    simp only [Exits.finish]
    split <;> simp_all
  resumes i d handlers hd := by
    obtain ⟨d', -, rfl⟩ := exists_of_layout hd
    obtain ⟨nodes, exits⟩ := d'
    simp only [Exits.finish]
    split <;> simp_all
  targets i d hd t ht := by
    obtain ⟨d', hd', rfl⟩ := exists_of_layout hd
    have hsize := hc.designated
    simp only [layout, Array.size_map]
    rcases Exits.mem_targets_finish ht with ht | rfl
    · exact hc.targets i d' hd' t ht
    · exact Nat.lt_of_lt_of_le (by decide) hsize
  listed i d hd := by
    obtain ⟨d', hd', rfl⟩ := exists_of_layout hd
    exact hc.listed i d' hd'
  operands := hc.operands

theorem start_drafts {params : List Parameter} {i : Nat} {d : Draft}
    (h : (Build.start params).drafts[i]? = some d) : ∃ kind, d = ⟨[], .special kind none⟩ := by
  match i with
  | 0 => exact ⟨.entry, (Option.some.inj h).symm⟩
  | 1 => exact ⟨.exit, (Option.some.inj h).symm⟩
  | 2 => exact ⟨.exceptionalExit, (Option.some.inj h).symm⟩
  | i + 3 => simp [Build.start] at h

theorem coherent_start (params : List Parameter) : (Build.start params).Coherent [] where
  designated := Nat.le_refl 3
  current := by simp [Build.start]
  targets i d hd t ht := by
    obtain ⟨kind, rfl⟩ := start_drafts hd
    simp [Exits.targets] at ht
  listed i d hd := by
    obtain ⟨kind, rfl⟩ := start_drafts hd
    simp
  operands i n hn := by simp [Build.start] at hn
  registry := rfl
  paths := by simp [Build.start]

end Building

/-- The construction of a whole unit. -/
def ProgramUnit.build (u : ProgramUnit) : Build Unit := do
  let first ← newBlock
  link entryId first
  setCurrent first
  inScope (lowerStmts [] u.body)
  closeWith exitId

theorem ProgramUnit.run_of_lower {u : ProgramUnit} {g : FlowGraph} (h : u.lower = .ok g) :
    ∃ b, u.build.run (Build.start u.params) = .ok ((), b) ∧ Build.finish u.name b = .ok g := by
  change (u.build.run (Build.start u.params) >>= fun r => Build.finish u.name r.2) = .ok g at h
  cases hrun : u.build.run (Build.start u.params) with
  | error e =>
      rw [hrun] at h
      cases h
  | ok r =>
      rw [hrun] at h
      exact ⟨r.2, rfl, h⟩

theorem ProgramUnit.build_spec {u : ProgramUnit} {W : CopyLaw} (hW : W.Holds) {b : Building}
    (h : u.build.run (Build.start u.params) = .ok ((), b)) :
    u.Laid W b.layout ∧ ∃ R, b.Coherent R := by
  simp only [ProgramUnit.build, run_bind] at h
  obtain ⟨first, b₁, h₁, _, b₂, h₂, _, b₃, h₃, _, b₄, h₄, h₅⟩ := h
  have hc := coherent_start u.params
  have ho₁ := hc.opens h₁
  have hid₁ : first = 3 := ho₁.id_eq
  have hentry : (Build.start u.params).Waits entryId ⟨[], .special .entry none⟩ :=
    ⟨rfl, by simp [Build.start]⟩
  have hexit : (Build.start u.params).Waits exitId ⟨[], .special .exit none⟩ :=
    ⟨rfl, by simp [Build.start]⟩
  have hexceptional : (Build.start u.params).Waits exceptionalExitId
      ⟨[], .special .exceptionalExit none⟩ := ⟨rfl, by simp [Build.start]⟩
  obtain ⟨ha₂, hs₂, hsilent⟩ := link_spec ho₁.advances.coherent
    (ho₁.advances.grows.waits hentry (by simp)) ho₁.fresh.lt h₂
  have ha₀₂ := (ho₁.advances.weaken (T := [entryId]) (by simp)).trans ha₂
  have hscopes : b₂.scopes = Scopes.ofParams u.params := hs₂.trans ho₁.scopes
  have hbody := (lowersBody hW u.body).scoped (R := []) [] .nil
  obtain ⟨R, ha₅, -, -, -, -, hp₅⟩ := arm_spec hbody List.prefix_rfl ha₂.coherent
    (by simp [Fits]) (ha₂.grows.waits ho₁.fresh (by simp [hid₁, entryId]))
    (Nat.lt_of_lt_of_le (by decide) ha₂.coherent.designated) (by simp [Spec.scoped, Fits])
    h₃ h₄ h₅
  have hkept : ∀ {i : Nat} {kind : SpecialKind},
      (Build.start u.params).Waits i ⟨[], .special kind none⟩ → i ≠ entryId → i ≠ first →
      b.layout.drafts[i]? = some ⟨[], .special kind none⟩ := by
    intro i kind hw hentry hfirst
    have hw' :=
      ha₅.grows.waits (ha₀₂.grows.waits hw (by simpa using hentry)) (by simpa using hfirst)
    rw [layout_drafts, hw'.1]
    rfl
  refine ⟨⟨?_, hkept hexit (by decide) (by simp [hid₁, exitId]),
    hkept hexceptional (by decide) (by simp [hid₁, exceptionalExitId])⟩, R, ha₅.coherent⟩
  have hD := b.completes_layout
  obtain ⟨q, hplaced, hflow⟩ := hp₅ b.layout hD
  exact ⟨first, q, hsilent b.layout (ha₅.grows.completes hD), hscopes ▸ hplaced, hflow⟩

theorem ProgramUnit.lower_laid {u : ProgramUnit} {W : CopyLaw} (hW : W.Holds)
    {g : FlowGraph} (h : u.lower = .ok g) :
    ∃ b : Building, Build.finish u.name b = .ok g ∧ u.Laid W b.layout ∧ b.layout.Whole := by
  obtain ⟨b, hrun, hfinish⟩ := ProgramUnit.run_of_lower h
  obtain ⟨hlaid, R, hc⟩ := ProgramUnit.build_spec hW hrun
  exact ⟨b, hfinish, hlaid, hc.whole⟩

end FlowTyping
