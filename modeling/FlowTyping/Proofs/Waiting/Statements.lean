import FlowTyping.Proofs.Waiting.Expressions
import FlowTyping.Proofs.Lowering.Protected

/-!
The stages of statements: nothing waits between two of them, nor where a loop, a clause or
a final body begins.
-/

namespace FlowTyping

open Build Building

section

variable {U : Expr → Prop} {frames : List Frame} {m m' : Build Unit} {S : List Nat}
  {b b' b'' b₁ b₂ b₃ b₄ : Building} {G : Stages} {s : List NodeId} {i t e : Nat} {u : Unit}

theorem Building.Follows.enter {G' G'' : Stages} (h : Follows [] b G b' G')
    (h' : Follows [i] b' G' b'' G'') (hi : b.drafts.size ≤ i) : Follows [] b G b'' G'' :=
  h.andThen h' fun _ hj => .inr (List.mem_singleton.mp hj ▸ hi)

namespace Building

/-- The scopes and the ids of final bodies do not matter for the stages. -/
theorem Staged.withNames (h : b.Staged U G) (σ : Scopes) (id : Nat) :
    { b with scopes := σ, nextFinal := id }.Staged U G ∧
      Follows [] b G { b with scopes := σ, nextFinal := id } G := by
  have hf : Follows [] b G { b with scopes := σ, nextFinal := id } G :=
    .of_grows ((Grows.refl [] b).restore rfl rfl rfl) fun _ _ hleads => hleads
  exact ⟨h.follow hf h.outside (fun _ _ hd => .inl ⟨hd, rfl⟩) h.current
    fun path hpath => .inl hpath, hf⟩

end Building

namespace KeepsStages

theorem nothing : KeepsStages U frames (pure ()) where
  run {b b' G u} h _ hrun := by
    obtain ⟨-, rfl⟩ := run_pure.mp hrun
    exact ⟨G, h, .refl [] b G⟩

theorem andThen (hm : KeepsStages U frames m) (hm' : KeepsStages U frames m') :
    KeepsStages U frames (do m; m') where
  run h hflat hrun := by
    obtain ⟨_, b₁, h₁, h₂⟩ := run_bind.mp hrun
    obtain ⟨G₁, hg₁, hf₁⟩ := hm.run h hflat h₁
    obtain ⟨G₂, hg₂, hf₂⟩ := hm'.run hg₁ (hf₁.flat_frames hflat) h₂
    exact ⟨G₂, hg₂, hf₁.trans hf₂⟩

theorem scopes (f : Scopes → Scopes) :
    KeepsStages U frames (modify fun b => { b with scopes := f b.scopes }) where
  run {b b' G u} h _ hrun := by
    obtain rfl := run_modify.mp hrun
    obtain ⟨hg, hf⟩ := h.withNames (f b.scopes) b.nextFinal
    exact ⟨G, hg, hf⟩

theorem inside (hm : KeepsStages U frames m) : KeepsStages U frames (inScope m) :=
  (scopes ([] :: ·)).andThen (hm.andThen (scopes (List.drop 1)))

theorem declares (var : LocalVar) : KeepsStages U frames (declare var) where
  run {b b' G u} h _ hrun := by
    rw [run_declare] at hrun
    cases hrun
    obtain ⟨hg, hf⟩ := h.withNames (Scopes.declare b.scopes var) b.nextFinal
    exact ⟨G, hg, hf⟩

/-- A statement that takes effect on the values computed for it. -/
theorem effect {α : Type} {v : Build α} {ids : α → List NodeId} {code : OperandCode α}
    (hv : ComputesAll U frames v ids code) (kind : α → NodeKind)
    (heffect : ∀ a, (kind a).isEffect = true) (hdirect : ∀ a, (kind a).direct = ids a)
    (harms : ∀ a, (kind a).arms = []) :
    KeepsStages U frames (do discard (emit (kind (← v)))) where
  run h hflat hrun := by
    obtain ⟨a, b₁, h₁, h₂⟩ := run_bind.mp hrun
    obtain ⟨id, h₂⟩ := run_discard.mp h₂
    obtain ⟨G₁, f, hg₁, hf₁, hs₁, -⟩ := hv.run h hflat .nil h₁
    obtain ⟨G₂, hg₂, hf₂, -⟩ := emit_staged hg₁ hs₁ (by simp +contextual [hdirect]) (harms a)
      (by simp [heffect]) h₂
    exact ⟨G₂, hg₂, hf₁.trans hf₂⟩

end KeepsStages

theorem Computes.discarded {m : Build NodeId} {x : Expr} (hm : Computes U frames m x) :
    KeepsStages U frames (discard m) where
  run h hflat hrun := by
    obtain ⟨id, hrun⟩ := run_discard.mp hrun
    obtain ⟨G', first, hg, hf, -⟩ := hm.run h hflat .nil hrun
    exact ⟨G', hg, hf⟩

/-- A way out ends the current path. -/
theorem depart_staged {crossed : List Crossing} {target : Nat}
    (hcopies : ∀ c ∈ crossed, KeepsStages U frames c.copy) (h : b.Staged U G)
    (hflat : ∀ f ∈ frames, f.Flat G) (htarget : G.Flat target)
    (hrun : (do closeWith (← leaveThrough crossed target)).run b = .ok (u, b')) :
    ∃ G', b'.Staged U G' ∧ Follows [] b G b' G' := by
  obtain ⟨first, b₁, h₁, h₂⟩ := run_bind.mp hrun
  obtain ⟨G₁, ha₁, hfirst⟩ := leaveThrough_staged hcopies h hflat htarget h₁
  obtain ⟨hg₂, hf₂, -⟩ := close_staged ha₁.staged hfirst h₂
  exact ⟨G₁, hg₂, ha₁.follows.trans hf₂⟩

/-- A test between two statements. -/
theorem test_staged {l : Lowered} {x : Expr} (hl : l.Waits U frames x) (h : b.Staged U G)
    (hflat : ∀ f ∈ frames, f.Flat G) (ht : G.Flat t) (he : G.Flat e)
    (hrun : (l.test t e).run b = .ok (u, b')) :
    ∃ G', b'.Staged U G' ∧ Follows [t, e] b G b' G' ∧
      ∀ i st, G.stage i = some st → G'.stage i = some st := by
  obtain ⟨G', k, first, hg, hf, hreach₁, hreach₂, -⟩ := hl.test.run h hflat .nil
    (ready_of_flat h ht) (ready_of_flat h he) hrun
  refine ⟨G', hg, hf, fun i st hst => ?_⟩
  by_cases hit : i = t
  · exact hit ▸ hreach₁.decides.decided st (hit ▸ hst)
  by_cases hie : i = e
  · exact hie ▸ hreach₂.decides.decided st (hie ▸ hst)
  · rw [hf.same i (h.size_of_stage hst) (by simp [hit, hie]), hst]

theorem Building.Follows.stays {G' : Stages} {st : Stage} (hf : Follows S b G b' G')
    (h : b.Staged U G) (hst : G.stage t = some st) (ht : t ∉ S) : G'.stage t = some st := by
  rw [hf.same t (h.size_of_stage hst) ht, hst]

theorem resume_flat (h : b.Staged U G) (hst : G.stage t = some ⟨[], none⟩)
    (hrun : (setCurrent (some t)).run b = .ok (u, b')) :
    ∃ G', b'.Staged U G' ∧ Follows [t] b G b' G' := by
  obtain ⟨hg, hf, -⟩ := enter_staged h hst (by simp) hrun
  exact ⟨_, hg, hf⟩

/-- Statements in a block made for them, which is then left. -/
theorem branch_keeps {join : Nat} (hm : KeepsStages U frames m) (h : b.Staged U G)
    (hflat : ∀ f ∈ frames, f.Flat G) (hst : G.stage t = some ⟨[], none⟩) (hjoin : G.Flat join)
    (h₁ : (setCurrent (some t)).run b = .ok ((), b₁)) (h₂ : m.run b₁ = .ok ((), b₂))
    (h₃ : (closeWith join).run b₂ = .ok ((), b₃)) :
    ∃ G', b₃.Staged U G' ∧ Follows [t] b G b₃ G' := by
  obtain ⟨G₁, hg₁, hf₁⟩ := resume_flat h hst h₁
  obtain ⟨G₂, hg₂, hf₂⟩ := hm.run hg₁ (hf₁.flat_frames hflat) h₂
  have hf₁₂ : Follows [t] b G b₂ G₂ := hf₁.andThen hf₂ (by simp)
  obtain ⟨hg₃, hf₃, -⟩ := close_staged hg₂ (hf₁₂.flat hjoin) h₃
  exact ⟨G₂, hg₃, hf₁₂.andThen hf₃ (by simp)⟩

/-- A special block leads on to a block where nothing waits. -/
theorem link_staged {kind : SpecialKind} {source : Nat} (h : b.Staged U G)
    (hd : b.drafts[source]? = some ⟨[], .special kind none⟩) (ht : G.Flat t)
    (hrun : (link source t).run b = .ok (u, b')) :
    b'.Staged U G ∧ Follows [source] b G b' G := by
  rw [run_link] at hrun
  cases hrun
  have hf : Follows [source] b G { b with
      drafts := b.drafts.modify source fun d => { d with exits := d.exits.link t } } G := by
    refine { Follows.refl _ b G with
      grows := .modify (.inr (by simp)) fun d _ => .link d t
      closed := fun x hflat _ p => ?_ }
    rintro ⟨d', hd', hx⟩
    simp only [Array.getElem?_modify] at hd'
    split at hd'
    · rename_i heq
      subst heq
      rw [hd] at hd'
      cases hd'
      obtain rfl : x = t := by simpa [Exits.link, Exits.onward] using hx
      exact absurd ht hflat
    · exact ⟨d', hd', hx⟩
  refine ⟨h.follow hf (fun i hi => h.outside i (by simpa using hi)) (fun i d hi => ?_)
    (fun c hc => ?_) fun path hpath => .inl hpath, hf⟩
  · simp only [Array.getElem?_modify] at hi
    split at hi
    · rename_i heq
      subst heq
      rw [hd] at hi
      cases hi
      refine .inr ⟨fun hne => ?_, fun w entrance hst => ?_⟩
      · have := h.untouched source _ hd hne
        cases this
      · obtain ⟨st, hstt, hwaits⟩ := ht
        have hbegun := (h.begun source _ w entrance hd hst).follow hf hst
        refine { hbegun with
          runs := ⟨w, .nil, fun x hx => ?_⟩
          raised := List.forall_mem_nil _ }
        obtain rfl : x = t := by simpa [Exits.link, Exits.onward] using hx
        exact ⟨st, hstt, by simp [hwaits], fun hne => absurd hwaits hne⟩
    · exact .inl ⟨hi, rfl⟩
  · obtain ⟨hentered, d, hdc, hpending⟩ := h.current c hc
    refine ⟨hentered, d, ?_, hpending⟩
    have hne : source ≠ c := by
      rintro rfl
      rw [hd] at hdc
      cases hdc
      exact hpending
    simpa [Array.getElem?_modify, hne] using hdc

/-- The head of a loop begins as soon as it is made. -/
theorem newLoopHead_staged {head : Nat} (h : b.Staged U G)
    (hrun : newLoopHead.run b = .ok (head, b')) :
    ∃ G', b'.Staged U G' ∧ Follows [] b G b' G' ∧ G'.Flat head ∧ head = b.drafts.size ∧
      b'.drafts[head]? = some ⟨[], .special .loopHead none⟩ := by
  rw [newLoopHead, run_newDraft] at hrun
  cases hrun
  have hne {i : Nat} (hi : i < b.drafts.size) : i ≠ b.drafts.size := Nat.ne_of_lt hi
  have hf : Follows [] b G
      { b with drafts := b.drafts.push ⟨[], .special .loopHead none⟩ }
      (G.enter b.drafts.size [] b.nodes.size) := {
    grows := .push _
    clock := Nat.le_succ _
    same := fun i hi _ => Stages.enter_other _ _ _ (hne hi)
    stage := fun i st hst => ⟨st, (Stages.enter_other _ _ _ (hne (h.size_of_stage hst))).trans hst,
      rfl, fun _ he => he, fun _ he => .inl he⟩
    closed := fun x _ _ p => by
      rintro ⟨d, hd, hx⟩
      simp only [Array.getElem?_push] at hd
      split at hd
      · cases hd
        cases hx
      · exact ⟨d, hd, hx⟩ }
  refine ⟨_, h.follow hf (fun i hi => ?_) (fun i d hd => ?_) (fun c hc => ?_)
    (fun path hpath => .inl hpath), hf, ⟨_, Stages.enter_self .., rfl⟩, rfl, by simp⟩
  · have hi : b.drafts.size + 1 ≤ i := by simpa using hi
    rw [Stages.enter_other _ _ _ (by omega)]
    exact h.outside i (by omega)
  · simp only [Array.getElem?_push] at hd
    split at hd
    · rename_i hi
      subst hi
      cases hd
      refine .inr ⟨fun hnot => absurd ⟨_, _, Stages.enter_self ..⟩ hnot, fun w entrance hst => ?_⟩
      rw [Stages.enter_self] at hst
      cases hst
      exact {
        time := Nat.lt_succ_self _
        start := Nat.le_refl _
        before := nofun
        after := nofun
        runs := ⟨[], .nil, nofun⟩
        raised := nofun
        linked := fun hnil => absurd rfl hnil
        arms := nofun
        values := nofun }
    · exact .inl ⟨hd, Stages.enter_other _ _ _ (hne (Array.getElem?_eq_some_iff.mp hd).1)⟩
  · obtain ⟨hentered, d, hd, hpending⟩ := h.current c hc
    exact ⟨hf.entered hentered, d, by
      simpa [Array.getElem?_push, hne (h.lt_current hc)] using hd, hpending⟩

/-- The head of a loop has been made, entered, and led on to its first block. -/
theorem loopHead_staged {head first : Nat} (h : b.Staged U G)
    (h₁ : newLoopHead.run b = .ok (head, b₁)) (h₂ : (closeWith head).run b₁ = .ok ((), b₂))
    (h₃ : newBlock.run b₂ = .ok (first, b₃)) (h₄ : (link head first).run b₃ = .ok ((), b₄)) :
    ∃ G', b₄.Staged U G' ∧ Follows [] b G b₄ G' ∧ G'.Flat head ∧ b.drafts.size ≤ head ∧
      G'.stage first = some ⟨[], none⟩ ∧ b.drafts.size ≤ first := by
  obtain ⟨G₁, hg₁, hf₁, hflat₁, hid₁, hd₁⟩ := newLoopHead_staged h h₁
  obtain ⟨hg₂, hf₂, hcur₂⟩ := close_staged hg₁ hflat₁ h₂
  obtain ⟨G₃, hg₃, hf₃, hid₃, -, hst₃⟩ := newFlat_staged hg₂ h₃
  have hlt : head < b₁.drafts.size := (Array.getElem?_eq_some_iff.mp hd₁).1
  have hne : b₁.current ≠ some head := by
    intro hcur
    obtain ⟨-, d, hd, hpending⟩ := hg₁.current head hcur
    rw [hd₁] at hd
    cases hd
    exact hpending
  have hd₃ : b₃.drafts[head]? = some ⟨[], .special .loopHead none⟩ := by
    rw [(hf₂.trans hf₃).grows.kept head hlt hne (by simp), hd₁]
  obtain ⟨hg₄, hf₄⟩ := link_staged hg₃ hd₃ ⟨_, hst₃, rfl⟩ h₄
  have hf₀₃ := hf₁.trans (hf₂.trans hf₃)
  have hsize : b.drafts.size ≤ b₂.drafts.size := (hf₁.trans hf₂).grows.size_le
  exact ⟨G₃, hg₄, hf₀₃.enter hf₄ (Nat.le_of_eq hid₁.symm), (hf₂.trans hf₃).flat hflat₁,
    Nat.le_of_eq hid₁.symm, hst₃, hid₃ ▸ hsize⟩

end

section

variable {U : Expr → Prop} {frames : List Frame} {b b' : Building} {G : Stages} {u : Unit}

theorem lowerDecl_keeps (hsound : Frame.Sound U frames) (name : String)
    (qualifier : Option String) (init : Option Expr) (hinit : ∀ x ∈ Expr.optionParts init, U x) :
    KeepsStages U frames (lowerDecl frames name qualifier init) where
  run {b b' G u} h hflat hrun := by
    simp only [lowerDecl, run_bind] at hrun
    obtain ⟨value, b₁, h₁, _, b₂, h₂, _, b₃, h₃, h₄⟩ := hrun
    obtain ⟨id, h₃⟩ := run_discard.mp h₃
    obtain ⟨G₁, f, hg₁, hf₁, hs₁, -⟩ :=
      (lowerReceiver_computes hsound init hinit).run h hflat .nil h₁
    rw [run_declare] at h₂
    cases h₂
    obtain ⟨hg₂, hf₂⟩ := hg₁.withNames (Scopes.declare b₁.scopes ⟨name, qualifier, .local⟩)
      b₁.nextFinal
    have hs₂ : Holds { b₁ with scopes := Scopes.declare b₁.scopes ⟨name, qualifier, .local⟩ } G₁
        (value.toList ++ (f.toList ++ [])) :=
      hs₁.keep rfl (fun _ _ => rfl) (fun _ _ => rfl) fun _ _ hn => hn
    obtain ⟨G₃, hg₃, hf₃, -, -, c, d, hcur, hd, hopen, hhas⟩ := emit_staged hg₂ hs₂
      (by simp [NodeKind.direct, NodeKind.operands]) rfl (by simp [NodeKind.isEffect]) h₃
    have hf₀₃ := hf₁.trans (hf₂.trans hf₃)
    cases value with
    | none =>
        obtain ⟨-, rfl⟩ := run_pure.mp h₄
        exact ⟨G₃, hg₃, hf₀₃⟩
    | some value =>
        -- The declaration has taken effect, but the value is still there to be read.
        obtain ⟨id', h₄⟩ := run_discard.mp h₄
        obtain ⟨hg₄, hf₄, -⟩ := emit_open (s := []) hg₃ .nil hcur hd hopen
          (by simpa [NodeKind.direct, NodeKind.operands] using hhas value (by simp))
          (by simp [NodeKind.setsLocal]) (by simp [NodeKind.arms]) (by simp [NodeKind.isEffect]) h₄
        exact ⟨G₃, hg₄, hf₀₃.trans hf₄⟩

theorem lowerAssign_keeps (hsound : Frame.Sound U frames) (target : Target) (value : Expr)
    (hparts : ∀ x ∈ (Stmt.assign target value).exprs, U x) :
    KeepsStages U frames (lowerAssign frames target value) := by
  cases target with
  | «local» name =>
      have hvalue := (lowerExpr_waits hsound value hparts).value
      refine ⟨fun {b b' G u} h hflat hrun => ?_⟩
      simp only [lowerAssign, run_bind] at hrun
      obtain ⟨source, b₁, h₁, var, b₂, h₂, h₃⟩ := hrun
      obtain ⟨-, rfl⟩ := run_lookup.mp h₂
      refine (KeepsStages.effect hvalue.all (fun id => .assign (.local var) id)
        (fun _ => rfl) (fun _ => rfl) fun _ => rfl).run (u := u) h hflat ?_
      exact run_bind.mpr ⟨source, b₁, h₁, h₃⟩
  | field receiver name =>
      obtain ⟨hreceiver, hvalue⟩ := List.forall_mem_append.mp hparts
      have hboth := KeepsStages.effect
        (operands_computesAll (lowerExpr_waits hsound receiver hreceiver).value.all
          (lowerExpr_waits hsound value hvalue).value.all)
        (fun p => .assign (.field p.1 name) p.2) (fun _ => rfl) (fun _ => rfl) fun _ => rfl
      simp only [bind_assoc, pure_bind] at hboth
      exact hboth

theorem lowerAssert_keeps (hsound : Frame.Sound U frames) (condition : Expr)
    (hparts : ∀ x ∈ condition.parts, U x) :
    KeepsStages U frames (lowerAssert frames condition) where
  run {b b' G u} h hflat hrun := by
    simp only [lowerAssert, run_bind, run_discard] at hrun
    obtain ⟨t, b₁, h₁, e, b₂, h₂, _, b₃, h₃, _, b₄, h₄, _, b₅, ⟨id, h₅⟩, h₆⟩ := hrun
    obtain ⟨G₁, hg₁, hf₁, hid₁, hsize₁, hst₁⟩ := newFlat_staged h h₁
    obtain ⟨G₂, hg₂, hf₂, hid₂, hsize₂, hst₂⟩ := newFlat_staged hg₁ h₂
    have hst₁ := hf₂.stays hg₁ hst₁ (by simp)
    obtain ⟨G₃, hg₃, hf₃, hstays⟩ := test_staged (lowerExpr_waits hsound condition hparts) hg₂
      ((hf₁.trans hf₂).flat_frames hflat) ⟨_, hst₁, rfl⟩ ⟨_, hst₂, rfl⟩ h₃
    have hf₀₃ : Follows [] b G b₃ G₃ := (hf₁.trans hf₂).andThen hf₃ (by simp; omega)
    obtain ⟨G₄, hg₄, hf₄⟩ := resume_flat hg₃ (hstays _ _ hst₂) h₄
    have hf₀₄ := hf₀₃.enter hf₄ (by omega)
    obtain ⟨G₅, hg₅, hf₅, -⟩ := emitRaising_staged hsound hg₄ (hf₀₄.flat_frames hflat) .nil
      (by simp [NodeKind.direct, NodeKind.operands]) rfl (by simp [NodeKind.isEffect]) h₅
    have hst₄ := hf₅.stays hg₄ (hf₄.stays hg₃ (hstays _ _ hst₁) (by simp; omega)) (by simp)
    obtain ⟨G₆, hg₆, hf₆⟩ := resume_flat hg₅ hst₄ h₆
    exact ⟨G₆, hg₆, (hf₀₄.trans hf₅).enter hf₆ (by omega)⟩

theorem jump_keeps (hsound : Frame.Sound U frames) (label : Option String) (leaves : Bool) :
    KeepsStages U frames (jump frames label leaves) where
  run {b b' G u} h hflat hrun := by
    obtain ⟨crossed, target, hway, hrun⟩ := run_jump hrun
    obtain ⟨hcopies, htarget⟩ := hsound.way hflat hway
    exact depart_staged hcopies h hflat htarget hrun

theorem lowerReturn_keeps (hsound : Frame.Sound U frames) (value : Option Expr)
    (hvalue : ∀ x ∈ Expr.optionParts value, U x) :
    KeepsStages U frames (lowerStmt frames (.returnValue value)) where
  run {b b' G u} h hflat hrun := by
    rw [lowerStmt] at hrun
    obtain ⟨v, b₁, h₁, hrun⟩ := run_bind.mp hrun
    obtain ⟨_, b₂, h₂, h₃⟩ := run_bind.mp hrun
    obtain ⟨G₂, hg₂, hf₂⟩ := (KeepsStages.effect (lowerReceiver_computes hsound value hvalue)
      .returnValue (fun _ => rfl) (fun _ => rfl) fun _ => rfl).run h hflat
      (run_bind.mpr ⟨v, b₁, h₁, h₂⟩)
    obtain ⟨G₃, hg₃, hf₃⟩ := depart_staged hsound.crossings hg₂ (hf₂.flat_frames hflat)
      (hg₂.designated exitId (by decide)) h₃
    exact ⟨G₃, hg₃, hf₂.trans hf₃⟩

theorem lowerThrow_keeps (hsound : Frame.Sound U frames) (exception : String)
    (value : Option Expr) (hvalue : ∀ x ∈ Expr.optionParts value, U x) :
    KeepsStages U frames (lowerStmt frames (.throw exception value)) where
  run {b b' G u} h hflat hrun := by
    rw [lowerStmt] at hrun
    obtain ⟨v, b₁, h₁, h₂⟩ := run_bind.mp hrun
    obtain ⟨id, h₂⟩ := run_discard.mp h₂
    obtain ⟨G₁, f, hg₁, hf₁, hs₁, -⟩ :=
      (lowerReceiver_computes hsound value hvalue).run h hflat .nil h₁
    obtain ⟨G₂, hg₂, hf₂, -⟩ := emitRaising_staged hsound hg₁ (hf₁.flat_frames hflat) hs₁
      (by simp +contextual [NodeKind.direct, NodeKind.operands]) rfl
      (by simp [NodeKind.isEffect]) h₂
    exact ⟨G₂, hg₂, hf₁.trans hf₂⟩

end

end FlowTyping
