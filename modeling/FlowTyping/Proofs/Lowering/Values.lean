import FlowTyping.Proofs.Lowering.Placement
import FlowTyping.Proofs.Lowering.Routing

/-!
The code of expressions: what the lowering of an expression constructs stands where the
placement of the expression says, as a value and as a test.
-/

namespace FlowTyping

namespace Spec

/-- A construction gives the node that it emits last. -/
def value (place : Layout → Scopes → Option Point → NodeId → Option Point → Prop) :
    Spec NodeId where
  needs _ := True
  after σ := σ
  gives id b := b.Rests id
  placed := place

/-- A construction leads to one of two blocks and leaves nothing open. -/
def test (place : Layout → Scopes → Option Point → BlockId → BlockId → Prop)
    (t e : Nat) : Spec Unit where
  needs b := t < b.drafts.size ∧ e < b.drafts.size
  after σ := σ
  gives _ b := b.current = none
  placed D σ p _ _ := place D σ p t e

/-- A construction gives nodes that exist. -/
def operands {α : Type} (ids : α → List NodeId)
    (place : Layout → Scopes → Option Point → α → Option Point → Prop) : Spec α where
  needs _ := True
  after σ := σ
  gives a b := ∀ o : Nat, o ∈ ids a → o < b.nodes.size
  placed := place

end Spec

/-- An expression is lowered to code that stands where its placement says. -/
structure Lowers (R : Registry) (regions : List Region) (l : Lowered) (place : Placing) :
    Prop where
  value : Meets R regions l.value (.value place.value)
  test : ∀ t e : Nat, Meets R regions (l.test t e) (.test place.test t e)

namespace Building

/-- A block has been made for later. -/
structure Opens (R : Registry) (b : Building) (t : Nat) (b' : Building) : Prop where
  advances : Advances [] R b R b'
  scopes : b'.scopes = b.scopes
  here : b'.here = b.here
  fresh : b'.Fresh t
  id_eq : t = b.drafts.size
  size : b'.drafts.size = t + 1
  rests : ∀ id : Nat, b.Rests id → b'.Rests id

theorem Coherent.opens {R : Registry} {b b' : Building} {t : Nat} (hc : b.Coherent R)
    (h : Build.newBlock.run b = .ok (t, b')) : Opens R b t b' := by
  obtain ⟨ha, hs, hh, hw, ht, hsize⟩ := Build.newDraft_spec hc (by simp [Exits.targets]) h
  refine ⟨ha, hs, hh, hw, ht, hsize, fun id hrests => ?_⟩
  rw [Build.newBlock, Build.run_newDraft] at h
  cases h
  exact hrests

theorem Rests.lt {b : Building} {id : Nat} (h : b.Rests id) : id < b.nodes.size := by
  obtain ⟨n, hn, -⟩ := h
  exact (Array.getElem?_eq_some_iff.mp hn).1

end Building

open Build Building

variable {α : Type} {R R₁ : Registry} {frames : List Frame} {regions : List Region}
  {b b₁ b₂ b₃ : Building} {place : Layout → Scopes → Option Point → NodeId → Option Point → Prop}

/-- A construction starts in a block made for it. -/
theorem resume_spec {m : Build α} {spec : Spec α} {t : Nat} {a : α} {b' : Building}
    (hm : Meets R regions m spec) (hR : R <+: R₁) (hc : b.Coherent R₁)
    (hfits : b.Fits regions) (hw : b.Fresh t)
    (hneeds : spec.needs { b with current := some t })
    (h₁ : (setCurrent (some t)).run b = .ok ((), b₁)) (h₂ : m.run b₁ = .ok (a, b')) :
    ∃ R₂, Advances [t] R₁ b R₂ b' ∧ b'.scopes = spec.after b.scopes ∧ spec.gives a b' ∧
      ∀ D, b'.Completes D → spec.placed D b.scopes (some (.startOf t)) a b'.here := by
  obtain ⟨ha₁, hs₁, hh₁, hsize₁⟩ := setCurrent_spec hc hw h₁
  have hneeds₁ : spec.needs b₁ := by
    rw [run_setCurrent] at h₁
    cases h₁
    exact hneeds
  obtain ⟨R₂, ha₂, hs₂, hg₂, hp₂⟩ := hm.run hR ha₁.coherent
    (hfits.advance hs₁ (by omega)) hneeds₁ h₂
  refine ⟨R₂, ha₁.trans (ha₂.weaken (by simp)), by rw [hs₂, hs₁], hg₂, fun D hD => ?_⟩
  have hp := hp₂ D hD
  rwa [hs₁, hh₁] at hp

/-- One side of a test goes on to where the sides meet. -/
theorem arm_spec {m : Build α} {spec : Spec α} {t join : Nat} {a : α}
    (hm : Meets R regions m spec) (hR : R <+: R₁) (hc : b.Coherent R₁)
    (hfits : b.Fits regions) (hw : b.Fresh t) (hjoin : join < b.drafts.size)
    (hneeds : spec.needs { b with current := some t })
    (h₁ : (setCurrent (some t)).run b = .ok ((), b₁)) (h₂ : m.run b₁ = .ok (a, b₂))
    (h₃ : (closeWith join).run b₂ = .ok ((), b₃)) :
    ∃ R₂, Advances [t] R₁ b R₂ b₃ ∧ b₃.scopes = spec.after b.scopes ∧ spec.gives a b₂ ∧
      b₂.Grows [] b₃ ∧ b₃.current = none ∧ ∀ D, b₃.Completes D →
        ∃ q, spec.placed D b.scopes (some (.startOf t)) a q ∧ D.Flows q (.startOf join) := by
  obtain ⟨R₂, ha₁, hs₁, hg₁, hp₁⟩ := resume_spec hm hR hc hfits hw hneeds h₁ h₂
  have hsize₁ := ha₁.grows.size_le
  obtain ⟨ha₂, hs₂, hcur₂, -, hflow⟩ := closeWith_spec ha₁.coherent (by omega) h₃
  refine ⟨R₂, ha₁.trans (ha₂.weaken (by simp)), hs₂.trans hs₁, hg₁, ha₂.grows, hcur₂,
    fun D hD => ⟨b₂.here, hp₁ D (ha₂.grows.completes hD), hflow D hD⟩⟩

/-- A node without operands. -/
theorem emit_meets {kind : NodeKind} (hkind : kind.operands = []) :
    Meets R regions (emit kind) (.value fun D _ p id q => D.Emits p kind id q) where
  run {R₁ b b' id} hR hc hfits _ h := by
    obtain ⟨ha, hs, hrests, hemits⟩ := emit_spec hc (by simp [hkind]) h
    exact ⟨R₁, ha, hs, hrests, hemits⟩

/-- A node that reads the value emitted before it. -/
theorem emit_after {v : Build NodeId} (hv : Meets R regions v (.value place))
    {kind : NodeId → NodeKind} (hkind : ∀ r, (kind r).operands = [r]) :
    Meets R regions (do emit (kind (← v)))
      (.value fun D σ p id q => ∃ r p₁, place D σ p r p₁ ∧ D.Emits p₁ (kind r) id q) where
  run {R₁ b b' id} hR hc hfits _ h := by
    obtain ⟨r, b₁, h₁, h₂⟩ := run_bind.mp h
    obtain ⟨R₂, ha₁, hs₁, hrests₁, hp₁⟩ := hv.run hR hc hfits trivial h₁
    have hr := hrests₁.lt
    obtain ⟨ha₂, hs₂, hrests₂, hemits⟩ := emit_spec ha₁.coherent (by simpa [hkind] using hr) h₂
    refine ⟨R₂, ha₁.trans ha₂, hs₂.trans hs₁, hrests₂, fun D hD => ?_⟩
    exact ⟨r, b₁.here, hp₁ D (ha₂.grows.completes hD), hemits D hD⟩

theorem Lowers.ofValue {v : Build NodeId} (hv : Meets R regions v (.value place)) :
    Lowers R regions (.ofValue v) (.ofValue place) where
  value := hv
  test t e := ⟨fun {R₁ b b' u} hR hc hfits hneeds h => by
    obtain ⟨id, b₁, h₁, h₂⟩ := run_bind.mp h
    obtain ⟨R₂, ha₁, hs₁, hrests, hp₁⟩ := hv.run hR hc hfits trivial h₁
    have hsize := ha₁.grows.size_le
    obtain ⟨ht, he⟩ := hneeds
    obtain ⟨ha₂, hs₂, hcur, hbranches⟩ := branch_spec ha₁.coherent hrests
      (Nat.lt_of_lt_of_le ht hsize) (Nat.lt_of_lt_of_le he hsize) h₂
    refine ⟨R₂, ha₁.trans ha₂, hs₂.trans hs₁, hcur, fun D hD => ?_⟩
    exact ⟨id, b₁.here, hp₁ D (ha₂.grows.completes hD), hbranches D hD⟩⟩

theorem Lowers.negation {l : Lowered} {place : Placing} (h : Lowers R regions l place) :
    Lowers R regions l.negation place.negation where
  value := emit_after h.value fun _ => rfl
  test t e := ⟨fun {R₁ b b' u} hR hc hfits hneeds hrun => by
    obtain ⟨R₂, ha, hs, hcur, hp⟩ := (h.test e t).run hR hc hfits hneeds.symm hrun
    exact ⟨R₂, ha, hs, hcur, hp⟩⟩

theorem Lowers.shortCircuit {op : BinOp} {l r : Lowered} {left right : Placing}
    (hl : Lowers R regions l left) (hr : Lowers R regions r right) :
    Lowers R regions (.shortCircuit op l r) (.shortCircuit op left right) where
  value := ⟨fun {R₁ b b' id} hR hc hfits _ hrun => by
    simp only [Lowered.shortCircuit, run_bind] at hrun
    obtain ⟨i, b₁, h₁, t, b₂, h₂, m, b₃, h₃, hrun⟩ := hrun
    obtain ⟨x, y, hxy, hrun⟩ : ∃ x y : Nat, (if op = .and then x = t ∧ y = m else x = m ∧ y = t) ∧
        (do
          branch i x y
          setCurrent (some t)
          let j ← r.value
          closeWith m
          setCurrent (some m)
          emit (.shortCircuit op i j)).run b₃ = .ok (id, b') := by
      split at hrun
      · exact ⟨t, m, by simp [*], hrun⟩
      · exact ⟨m, t, by simp [*], hrun⟩
    simp only [run_bind] at hrun
    obtain ⟨_, b₄, h₄, _, b₅, h₅, j, b₆, h₆, _, b₇, h₇, _, b₈, h₈, h₉⟩ := hrun
    obtain ⟨R₂, ha₁, hs₁, hrests₁, hp₁⟩ := hl.value.run hR hc hfits trivial h₁
    have ho₂ := ha₁.coherent.opens h₂
    have ho₃ := ho₂.advances.coherent.opens h₃
    have hsize := ha₁.grows.size_le
    have hid₂ := ho₂.id_eq
    have hid₃ := ho₃.id_eq
    have hsize₂ := ho₂.size
    have hsize₃ := ho₃.size
    obtain ⟨ha₄, hs₄, -, hbranches⟩ := branch_spec ho₃.advances.coherent
      (ho₃.rests i (ho₂.rests i hrests₁)) (t := x) (f := y) (by split at hxy <;> omega)
      (by split at hxy <;> omega) h₄
    have hsize₄ := ha₄.grows.size_le
    have hs₀₄ : b₄.scopes = b.scopes := by rw [hs₄, ho₃.scopes, ho₂.scopes, hs₁]; rfl
    have ha₀₄ := ha₁.trans (ho₂.advances.trans (ho₃.advances.trans ha₄))
    have hfresh := ha₄.grows.waits (ho₃.advances.grows.waits ho₂.fresh (by simp)) (by simp)
    obtain ⟨R₃, ha₅, hs₅, hrests₅, hg₅, hcur₅, hp₅⟩ := arm_spec hr.value
      (hR.trans ha₀₄.registry) ha₀₄.coherent (hfits.advance hs₀₄ (by omega)) hfresh
      (by omega) trivial h₅ h₆ h₇
    have hmerge := ha₅.grows.waits (ha₄.grows.waits ho₃.fresh (by simp)) (by simp; omega)
    obtain ⟨ha₆, hs₆, hh₆, hsize₆⟩ := setCurrent_spec ha₅.coherent hmerge h₈
    have ho₇ : ∀ o ∈ (NodeKind.shortCircuit op i j).operands, o < b₈.nodes.size := by
      have hi := hrests₁.lt
      have hj := hrests₅.lt
      have h₁₄ := (ho₂.advances.trans (ho₃.advances.trans ha₄)).grows.nodes_size_le
      have h₄₇ := ha₅.grows.nodes_size_le
      have h₆₇ := hg₅.nodes_size_le
      have h₇₈ := ha₆.grows.nodes_size_le
      simp only [NodeKind.operands, List.mem_cons, List.not_mem_nil, or_false]
      rintro o (rfl | rfl)
      · exact Nat.lt_of_lt_of_le hi (Nat.le_trans h₁₄ (Nat.le_trans h₄₇ h₇₈))
      · exact Nat.lt_of_lt_of_le hj (Nat.le_trans h₆₇ h₇₈)
    obtain ⟨ha₇, hs₇, hrests₇, hemits⟩ := emit_spec ha₆.coherent ho₇ h₉
    have ha₀₈ := (ha₀₄.enter ha₅ (by omega)).enter ha₆ (by omega)
    refine ⟨R₃, ha₀₈.trans ha₇, ?_, hrests₇, fun D hD => ?_⟩
    · rw [hs₇, hs₆, hs₅, hs₀₄]
      rfl
    · have hD₈ := ha₇.grows.completes hD
      have hD₇ := ha₆.grows.completes hD₈
      have hD₄ := ha₅.grows.completes hD₇
      have hD₁ := ho₂.advances.grows.completes
        (ho₃.advances.grows.completes (ha₄.grows.completes hD₄))
      obtain ⟨q, hright, hflow⟩ := hp₅ D hD₇
      refine ⟨i, b₁.here, t, m, j, q, hp₁ D hD₁, ?_, hs₀₄ ▸ hright, hflow, ?_⟩
      · have hb := hbranches D hD₄
        rw [ho₃.here, ho₂.here] at hb
        split at hxy
        · rename_i hop
          rwa [if_pos hop, ← hxy.1, ← hxy.2]
        · rename_i hop
          rwa [if_neg hop, ← hxy.1, ← hxy.2]
      · exact hh₆ ▸ hemits D hD⟩
  test t e := ⟨fun {R₁ b b' u} hR hc hfits hneeds hrun => by
    simp only [Lowered.shortCircuit, run_bind] at hrun
    obtain ⟨s, b₁, h₁, hrun⟩ := hrun
    have ho₁ := hc.opens h₁
    have hid₁ := ho₁.id_eq
    have hsize₁ := ho₁.size
    obtain ⟨x, y, hxy, hrun⟩ : ∃ x y : Nat,
        (if op = .and then x = s ∧ y = e else x = t ∧ y = s) ∧
        (do
          l.test x y
          setCurrent (some s)
          r.test t e).run b₁ = .ok (u, b') := by
      split at hrun
      · exact ⟨s, e, by simp [*], hrun⟩
      · exact ⟨t, s, by simp [*], hrun⟩
    simp only [run_bind] at hrun
    obtain ⟨_, b₂, h₂, _, b₃, h₃, h₄⟩ := hrun
    obtain ⟨ht, he⟩ := hneeds
    obtain ⟨R₂, ha₂, hs₂, -, hp₂⟩ := (hl.test x y).run hR ho₁.advances.coherent
      (hfits.advance ho₁.scopes (by omega)) ⟨by split at hxy <;> omega, by
        split at hxy <;> omega⟩ h₂
    have hsize₂ := ha₂.grows.size_le
    have hs₀₂ : b₂.scopes = b.scopes := hs₂.trans ho₁.scopes
    obtain ⟨R₃, ha₃, hs₃, hcur₃, hp₃⟩ := resume_spec (hr.test t e)
      (hR.trans ha₂.registry) ha₂.coherent (hfits.advance hs₀₂ (by omega))
      (ha₂.grows.waits ho₁.fresh (by simp)) ⟨by show t < b₂.drafts.size; omega, by
        show e < b₂.drafts.size; omega⟩ h₃ h₄
    refine ⟨R₃, (ho₁.advances.trans ha₂).enter ha₃ (by omega), hs₃.trans hs₀₂, hcur₃,
      fun D hD => ⟨s, ?_, hs₀₂ ▸ hp₃ D hD⟩⟩
    have hleft := hp₂ D (ha₃.grows.completes hD)
    rw [ho₁.scopes, ho₁.here] at hleft
    split at hxy
    · rename_i hop
      rwa [if_pos hop, ← hxy.1, ← hxy.2]
    · rename_i hop
      rwa [if_neg hop, ← hxy.1, ← hxy.2]⟩

theorem Lowers.ternary {c l r : Lowered} {condition left right : Placing}
    (hcond : Lowers R regions c condition) (hl : Lowers R regions l left)
    (hr : Lowers R regions r right) :
    Lowers R regions (.ternary c l r) (.ternary condition left right) where
  value := ⟨fun {R₁ b b' id} hR hc hfits _ hrun => by
    simp only [Lowered.ternary, run_bind] at hrun
    obtain ⟨t, b₁, h₁, e, b₂, h₂, m, b₃, h₃, _, b₄, h₄, _, b₅, h₅, i, b₆, h₆, _, b₇, h₇,
      _, b₈, h₈, j, b₉, h₉, _, b₁₀, h₁₀, _, b₁₁, h₁₁, h₁₂⟩ := hrun
    have ho₁ := hc.opens h₁
    have ho₂ := ho₁.advances.coherent.opens h₂
    have ho₃ := ho₂.advances.coherent.opens h₃
    have hid₁ := ho₁.id_eq
    have hid₂ := ho₂.id_eq
    have hid₃ := ho₃.id_eq
    have hsize₁ := ho₁.size
    have hsize₂ := ho₂.size
    have hsize₃ := ho₃.size
    have hs₀₃ : b₃.scopes = b.scopes := by rw [ho₃.scopes, ho₂.scopes, ho₁.scopes]
    have hh₀₃ : b₃.here = b.here := by rw [ho₃.here, ho₂.here, ho₁.here]
    have ha₀₃ := ho₁.advances.trans (ho₂.advances.trans ho₃.advances)
    have hw₁ := ho₃.advances.grows.waits (ho₂.advances.grows.waits ho₁.fresh (by simp)) (by simp)
    have hw₂ := ho₃.advances.grows.waits ho₂.fresh (by simp)
    obtain ⟨R₂, ha₄, hs₄, -, hp₄⟩ := (hcond.test t e).run hR ha₀₃.coherent
      (hfits.advance hs₀₃ (by omega)) ⟨by omega, by omega⟩ h₄
    have hsize₄ := ha₄.grows.size_le
    have hs₀₄ : b₄.scopes = b.scopes := hs₄.trans hs₀₃
    obtain ⟨R₃, ha₇, hs₇, hrests₆, hg₆, -, hp₇⟩ := arm_spec hl.value
      (hR.trans ha₄.registry) ha₄.coherent (hfits.advance hs₀₄ (by omega))
      (ha₄.grows.waits hw₁ (by simp)) (by omega) trivial h₅ h₆ h₇
    have hsize₇ := ha₇.grows.size_le
    have hs₀₇ : b₇.scopes = b.scopes := hs₇.trans hs₀₄
    have hw₂' := ha₇.grows.waits (ha₄.grows.waits hw₂ (by simp)) (by simp; omega)
    obtain ⟨R₄, ha₁₀, hs₁₀, hrests₉, hg₉, -, hp₁₀⟩ := arm_spec hr.value
      (hR.trans (ha₄.registry.trans ha₇.registry)) ha₇.coherent
      (hfits.advance hs₀₇ (by omega)) hw₂' (by omega) trivial h₈ h₉ h₁₀
    have hw₃' := ha₁₀.grows.waits (ha₇.grows.waits (ha₄.grows.waits ho₃.fresh (by simp))
      (by simp; omega)) (by simp; omega)
    obtain ⟨ha₁₁, hs₁₁, hh₁₁, hsize₁₁⟩ := setCurrent_spec ha₁₀.coherent hw₃' h₁₁
    have ho₁₂ : ∀ o ∈ (NodeKind.ternaryMerge i j).operands, o < b₁₁.nodes.size := by
      have hi := hrests₆.lt
      have hj := hrests₉.lt
      have h₆₇ := hg₆.nodes_size_le
      have h₇₁₀ := ha₁₀.grows.nodes_size_le
      have h₉₁₀ := hg₉.nodes_size_le
      have h₁₀₁₁ := ha₁₁.grows.nodes_size_le
      simp only [NodeKind.operands, List.mem_cons, List.not_mem_nil, or_false]
      rintro o (rfl | rfl)
      · exact Nat.lt_of_lt_of_le hi (Nat.le_trans h₆₇ (Nat.le_trans h₇₁₀ h₁₀₁₁))
      · exact Nat.lt_of_lt_of_le hj (Nat.le_trans h₉₁₀ h₁₀₁₁)
    obtain ⟨ha₁₂, hs₁₂, hrests₁₂, hemits⟩ := emit_spec ha₁₁.coherent ho₁₂ h₁₂
    have ha₀₁₁ := (((ha₀₃.trans ha₄).enter ha₇ (by omega)).enter ha₁₀ (by omega)).enter ha₁₁
      (by omega)
    refine ⟨R₄, ha₀₁₁.trans ha₁₂, ?_, hrests₁₂, fun D hD => ?_⟩
    · rw [hs₁₂, hs₁₁, hs₁₀, hs₀₇]
      rfl
    · have hD₁₁ := ha₁₂.grows.completes hD
      have hD₁₀ := ha₁₁.grows.completes hD₁₁
      have hD₇ := ha₁₀.grows.completes hD₁₀
      have hD₄ := ha₇.grows.completes hD₇
      obtain ⟨q₁, hleft, hflow₁⟩ := hp₇ D hD₇
      obtain ⟨q₂, hright, hflow₂⟩ := hp₁₀ D hD₁₀
      have hcondition := hp₄ D hD₄
      rw [hs₀₃, hh₀₃] at hcondition
      exact ⟨t, e, m, i, q₁, j, q₂, hcondition, hs₀₄ ▸ hleft, hflow₁, hs₀₇ ▸ hright, hflow₂,
        hh₁₁ ▸ hemits D hD⟩⟩
  test t e := ⟨fun {R₁ b b' u} hR hc hfits hneeds hrun => by
    simp only [Lowered.ternary, run_bind] at hrun
    obtain ⟨x, b₁, h₁, y, b₂, h₂, _, b₃, h₃, _, b₄, h₄, _, b₅, h₅, _, b₆, h₆, h₇⟩ := hrun
    obtain ⟨ht, he⟩ := hneeds
    have ho₁ := hc.opens h₁
    have ho₂ := ho₁.advances.coherent.opens h₂
    have hid₁ := ho₁.id_eq
    have hid₂ := ho₂.id_eq
    have hsize₁ := ho₁.size
    have hsize₂ := ho₂.size
    have hs₀₂ : b₂.scopes = b.scopes := ho₂.scopes.trans ho₁.scopes
    have hh₀₂ : b₂.here = b.here := ho₂.here.trans ho₁.here
    have ha₀₂ := ho₁.advances.trans ho₂.advances
    obtain ⟨R₂, ha₃, hs₃, -, hp₃⟩ := (hcond.test x y).run hR ha₀₂.coherent
      (hfits.advance hs₀₂ (by omega)) ⟨by omega, by omega⟩ h₃
    have hsize₃ := ha₃.grows.size_le
    have hs₀₃ : b₃.scopes = b.scopes := hs₃.trans hs₀₂
    have hw₁ := ha₃.grows.waits (ho₂.advances.grows.waits ho₁.fresh (by simp)) (by simp)
    obtain ⟨R₃, ha₅, hs₅, -, hp₅⟩ := resume_spec (hl.test t e) (hR.trans ha₃.registry)
      ha₃.coherent (hfits.advance hs₀₃ (by omega)) hw₁
      ⟨by show t < b₃.drafts.size; omega, by show e < b₃.drafts.size; omega⟩ h₄ h₅
    have hsize₅ := ha₅.grows.size_le
    have hs₀₅ : b₅.scopes = b.scopes := hs₅.trans hs₀₃
    have hw₂ := ha₅.grows.waits (ha₃.grows.waits ho₂.fresh (by simp)) (by simp; omega)
    obtain ⟨R₄, ha₇, hs₇, hcur₇, hp₇⟩ := resume_spec (hr.test t e)
      (hR.trans (ha₃.registry.trans ha₅.registry)) ha₅.coherent
      (hfits.advance hs₀₅ (by omega)) hw₂
      ⟨by show t < b₅.drafts.size; omega, by show e < b₅.drafts.size; omega⟩ h₆ h₇
    refine ⟨R₄, ((ha₀₂.trans ha₃).enter ha₅ (by omega)).enter ha₇ (by omega),
      hs₇.trans hs₀₅, hcur₇, fun D hD => ?_⟩
    have hD₅ := ha₇.grows.completes hD
    have hcondition := hp₃ D (ha₅.grows.completes hD₅)
    rw [hs₀₂, hh₀₂] at hcondition
    exact ⟨x, y, hcondition, hs₀₃ ▸ hp₅ D hD₅, hs₀₅ ▸ hp₇ D hD⟩⟩

theorem run_lookup {name : String} {var : LocalVar} {b b' : Building} :
    (lookup name).run b = .ok (var, b') ↔ Scopes.resolve b.scopes name = var ∧ b = b' := by
  change (Except.ok (Scopes.resolve b.scopes name, b) :
    Except GraphError (LocalVar × Building)) = .ok (var, b') ↔ _
  simp

theorem read_meets (name : String) :
    Meets R regions (do emit (.localRead (← lookup name)))
      (.value fun D σ p id q => D.Emits p (.localRead (σ.resolve name)) id q) where
  run {R₁ b b' id} hR hc hfits _ h := by
    obtain ⟨_, _, h₁, h₂⟩ := run_bind.mp h
    obtain ⟨rfl, rfl⟩ := run_lookup.mp h₁
    obtain ⟨ha, hs, hrests, hemits⟩ := emit_spec hc (by simp [NodeKind.operands]) h₂
    exact ⟨R₁, ha, hs, hrests, hemits⟩

/-- A node that reads the values of two expressions. -/
theorem emit_after_two {v w : Build NodeId}
    {place' : Layout → Scopes → Option Point → NodeId → Option Point → Prop}
    (hv : Meets R regions v (.value place)) (hw : Meets R regions w (.value place'))
    (kind : NodeId → NodeId → NodeKind) (hkind : ∀ i j, (kind i j).operands = [i, j]) :
    Meets R regions (do
      let i ← v
      let j ← w
      emit (kind i j))
      (.value fun D σ p id q => ∃ i p₁ j p₂, place D σ p i p₁ ∧ place' D σ p₁ j p₂ ∧
        D.Emits p₂ (kind i j) id q) where
  run {R₁ b b' id} hR hc hfits _ h := by
    simp only [run_bind] at h
    obtain ⟨i, b₁, h₁, j, b₂, h₂, h₃⟩ := h
    obtain ⟨R₂, ha₁, hs₁, hrests₁, hp₁⟩ := hv.run hR hc hfits trivial h₁
    have hs₁ : b₁.scopes = b.scopes := hs₁
    obtain ⟨R₃, ha₂, hs₂, hrests₂, hp₂⟩ := hw.run (hR.trans ha₁.registry) ha₁.coherent
      (hfits.advance hs₁ ha₁.grows.size_le) trivial h₂
    have ho₃ : ∀ o ∈ (kind i j).operands, o < b₂.nodes.size := by
      have hi := Nat.lt_of_lt_of_le hrests₁.lt ha₂.grows.nodes_size_le
      have hj := hrests₂.lt
      simp only [hkind, List.mem_cons, List.not_mem_nil, or_false]
      rintro o (rfl | rfl)
      · exact hi
      · exact hj
    obtain ⟨ha₃, hs₃, hrests₃, hemits⟩ := emit_spec ha₂.coherent ho₃ h₃
    refine ⟨R₃, ha₁.trans (ha₂.trans ha₃), hs₃.trans (hs₂.trans hs₁), hrests₃, fun D hD => ?_⟩
    have hD₂ := ha₃.grows.completes hD
    have hD₁ := ha₂.grows.completes hD₂
    exact ⟨i, b₁.here, j, b₂.here, hp₁ D hD₁, hs₁ ▸ hp₂ D hD₂, hemits D hD⟩

/-- A raising node after the construction of its operands. -/
theorem raise_after {m : Build α} {ids : α → List NodeId}
    {placeOperands : Layout → Scopes → Option Point → α → Option Point → Prop}
    (hmatch : Matches R frames regions) (hm : Meets R regions m (.operands ids placeOperands))
    (kind : α → NodeKind) (hkind : ∀ a, (kind a).operands = ids a) (categories : List String) :
    Meets R regions (do emitRaising frames (kind (← m)) categories false)
      (.value fun D σ p id q => ∃ a p₁ handlers, placeOperands D σ p a p₁ ∧
        D.Routes regions categories handlers ∧
        D.Raises p₁ (kind a) id handlers false q) where
  run {R₁ b b' id} hR hc hfits _ h := by
    obtain ⟨a, b₁, h₁, h₂⟩ := run_bind.mp h
    obtain ⟨R₂, ha₁, hs₁, hids, hp₁⟩ := hm.run hR hc hfits trivial h₁
    have hs₁ : b₁.scopes = b.scopes := hs₁
    obtain ⟨R₃, handlers, ha₂, hs₂, hrests, hraises⟩ := emitRaising_spec hmatch
      (hR.trans ha₁.registry) ha₁.coherent (hfits.advance hs₁ ha₁.grows.size_le)
      (fun o ho => hids o (hkind a ▸ ho)) h₂
    refine ⟨R₃, ha₁.trans ha₂, hs₂.trans hs₁, hrests, fun D hD => ?_⟩
    exact ⟨a, b₁.here, handlers, hp₁ D (ha₂.grows.completes hD), hraises D hD⟩

/-- The operands of a call are its receiver and then its arguments. -/
theorem operands_pair {β : Type} {m : Build α} {n : Build β} {ids : α → List NodeId}
    {ids' : β → List NodeId}
    {placeFirst : Layout → Scopes → Option Point → α → Option Point → Prop}
    {placeSecond : Layout → Scopes → Option Point → β → Option Point → Prop}
    (hm : Meets R regions m (.operands ids placeFirst))
    (hn : Meets R regions n (.operands ids' placeSecond)) :
    Meets R regions (do
      let a ← m
      let c ← n
      return (a, c))
      (.operands (fun r => ids r.1 ++ ids' r.2) fun D σ p r q =>
        ∃ p₁, placeFirst D σ p r.1 p₁ ∧ placeSecond D σ p₁ r.2 q) where
  run {R₁ b b' r} hR hc hfits _ h := by
    simp only [run_bind, run_pure] at h
    obtain ⟨a, b₁, h₁, c, b₂, h₂, rfl, rfl⟩ := h
    obtain ⟨R₂, ha₁, hs₁, hids₁, hp₁⟩ := hm.run hR hc hfits trivial h₁
    have hs₁ : b₁.scopes = b.scopes := hs₁
    obtain ⟨R₃, ha₂, hs₂, hids₂, hp₂⟩ := hn.run (hR.trans ha₁.registry) ha₁.coherent
      (hfits.advance hs₁ ha₁.grows.size_le) trivial h₂
    refine ⟨R₃, ha₁.trans ha₂, hs₂.trans hs₁, fun o ho => ?_, fun D hD => ?_⟩
    · rcases List.mem_append.mp ho with ho | ho
      · exact Nat.lt_of_lt_of_le (hids₁ o ho) ha₂.grows.nodes_size_le
      · exact hids₂ o ho
    · exact ⟨b₁.here, hp₁ D (ha₂.grows.completes hD), hs₁ ▸ hp₂ D hD⟩

theorem call_meets {m : Build (Option NodeId)} {n : Build (List NodeId)}
    {placeFirst : Layout → Scopes → Option Point → Option NodeId → Option Point → Prop}
    {placeSecond : Layout → Scopes → Option Point → List NodeId → Option Point → Prop}
    (hmatch : Matches R frames regions)
    (hm : Meets R regions m (.operands Option.toList placeFirst))
    (hn : Meets R regions n (.operands id placeSecond)) (method : String)
    (categories : List String) :
    Meets R regions (do
      let r ← m
      let as ← n
      emitRaising frames (.call r method as) categories false)
      (.value fun D σ p id q => ∃ r p₁ as p₂ handlers, placeFirst D σ p r p₁ ∧
        placeSecond D σ p₁ as p₂ ∧ D.Routes regions categories handlers ∧
        D.Raises p₂ (.call r method as) id handlers false q) where
  run {R₁ b b' id} hR hc hfits _ h := by
    have hcall := raise_after hmatch (operands_pair hm hn) (fun r => .call r.1 method r.2)
      (fun _ => rfl) categories
    simp only [bind_assoc, pure_bind] at hcall
    obtain ⟨R₂, ha, hs, hrests, hp⟩ := hcall.run hR hc hfits trivial h
    refine ⟨R₂, ha, hs, hrests, fun D hD => ?_⟩
    obtain ⟨r, p₂, handlers, ⟨p₁, hfirst, hsecond⟩, hroutes, hraises⟩ := hp D hD
    exact ⟨r.1, p₁, r.2, p₂, handlers, hfirst, hsecond, hroutes, hraises⟩

mutual

theorem lowerExpr_lowers (hm : Matches R frames regions) :
    (e : Expr) → Lowers R regions (lowerExpr frames e) (placeExpr regions e)
  | .literal value => .ofValue (emit_meets rfl)
  | .var name => .ofValue (read_meets name)
  | .this => .ofValue (emit_meets rfl)
  | .field receiver name =>
      .ofValue (emit_after (lowerExpr_lowers hm receiver).value fun _ => rfl)
  | .call receiver method args throws =>
      .ofValue (call_meets hm (lowerReceiver_meets hm receiver) (lowerArgs_meets hm args)
        method (runtimeException :: throws))
  | .new className args =>
      .ofValue (raise_after hm (lowerArgs_meets hm args) (.new className) (fun _ => rfl)
        [runtimeException])
  | .binary op lhs rhs => by
      rw [lowerExpr, placeExpr]
      split
      · exact .shortCircuit (lowerExpr_lowers hm lhs) (lowerExpr_lowers hm rhs)
      · exact .ofValue (emit_after_two (lowerExpr_lowers hm lhs).value
          (lowerExpr_lowers hm rhs).value _ fun _ _ => rfl)
  | .unary op operand => by
      rw [lowerExpr, placeExpr]
      split
      · exact .negation (lowerExpr_lowers hm operand)
      · exact .ofValue (emit_after (lowerExpr_lowers hm operand).value fun _ => rfl)
  | .ternary condition thenValue elseValue =>
      .ternary (lowerExpr_lowers hm condition) (lowerExpr_lowers hm thenValue)
        (lowerExpr_lowers hm elseValue)
  | .cast qualifier operand =>
      .ofValue (emit_after (lowerExpr_lowers hm operand).value fun _ => rfl)

theorem lowerReceiver_meets (hm : Matches R frames regions) : (r : Option Expr) →
    Meets R regions (lowerReceiver frames r) (.operands Option.toList (placeReceiver regions r))
  | none => ⟨fun {R₁ b b' r} hR hc hfits _ h => by
      obtain ⟨rfl, rfl⟩ := run_pure.mp h
      exact ⟨R₁, ⟨List.prefix_rfl, hc, .refl [] b⟩, rfl, by simp [Spec.operands],
        fun D _ => ⟨rfl, rfl⟩⟩⟩
  | some e => ⟨fun {R₁ b b' r} hR hc hfits _ h => by
      rw [lowerReceiver] at h
      simp only [run_bind, run_pure] at h
      obtain ⟨id, b₁, h₁, rfl, rfl⟩ := h
      obtain ⟨R₂, ha, hs, hrests, hp⟩ :=
        (lowerExpr_lowers hm e).value.run hR hc hfits trivial h₁
      exact ⟨R₂, ha, hs, by simpa [Spec.operands] using hrests.lt,
        fun D hD => ⟨id, rfl, hp D hD⟩⟩⟩

theorem lowerArgs_meets (hm : Matches R frames regions) : (args : List Expr) →
    Meets R regions (lowerArgs frames args) (.operands id (placeArgs regions args))
  | [] => ⟨fun {R₁ b b' r} hR hc hfits _ h => by
      obtain ⟨rfl, rfl⟩ := run_pure.mp h
      exact ⟨R₁, ⟨List.prefix_rfl, hc, .refl [] b⟩, rfl, by simp [Spec.operands],
        fun D _ => ⟨rfl, rfl⟩⟩⟩
  | e :: rest => ⟨fun {R₁ b b' r} hR hc hfits _ h => by
      rw [lowerArgs] at h
      simp only [run_bind, run_pure] at h
      obtain ⟨i, b₁, h₁, ids, b₂, h₂, rfl, rfl⟩ := h
      obtain ⟨R₂, ha₁, hs₁, hrests, hp₁⟩ :=
        (lowerExpr_lowers hm e).value.run hR hc hfits trivial h₁
      have hs₁ : b₁.scopes = b.scopes := hs₁
      obtain ⟨R₃, ha₂, hs₂, hids, hp₂⟩ := (lowerArgs_meets hm rest).run
        (hR.trans ha₁.registry) ha₁.coherent (hfits.advance hs₁ ha₁.grows.size_le) trivial h₂
      refine ⟨R₃, ha₁.trans ha₂, hs₂.trans hs₁, fun o ho => ?_, fun D hD => ?_⟩
      · rcases List.mem_cons.mp ho with rfl | ho
        · exact Nat.lt_of_lt_of_le hrests.lt ha₂.grows.nodes_size_le
        · exact hids o ho
      · exact ⟨i, ids, b₁.here, rfl, hp₁ D (ha₂.grows.completes hD), hs₁ ▸ hp₂ D hD⟩⟩

end

end FlowTyping
