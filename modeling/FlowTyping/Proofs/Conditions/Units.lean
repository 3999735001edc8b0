import FlowTyping.Proofs.Conditions.Conduct
import FlowTyping.Proofs.Lowering.Protected

/-!
Units with a single statement: an expression by itself, or a test of it that does nothing more. The
blocks of such a unit can be labelled just where the course of the expression leads.
-/

namespace FlowTyping

open Build Building

variable {Fact : Type} [Preorder Fact] {A : Transit Fact} {σ : Scopes} {α : Type}
  {R : Registry} {b b' : Building} {F : BlockId → Fact} {first n : Nat} {u : Unit}
  {course : Fact → Fact → Prop}

namespace Conveys

/-- Scopes hold variables only. -/
theorem inScope {m : Build Unit} (hm : Conveys A ([] :: σ) m first n () course) :
    Conveys A σ (Build.inScope m) first n () course where
  run {R b b' a'} hc hσ hfirst hcur h := by
    obtain ⟨b₁, h₁, rfl⟩ := run_inScope.mp h
    obtain ⟨⟨R', ha⟩, hs, hsize, hcur', -, hrun⟩ :=
      hm.run (hc.withScopes ([] :: b.scopes)) (by rw [← hσ]) hfirst hcur h₁
    have hsame {F : BlockId → Fact} {f : Fact} {b : Building} (σ σ' : Scopes) :
        A.Arrives F { b with scopes := σ } f ↔ A.Arrives F { b with scopes := σ' } f :=
      ⟨fun ⟨hlabels, hcurrent⟩ => ⟨hlabels, hcurrent⟩,
        fun ⟨hlabels, hcurrent⟩ => ⟨hlabels, hcurrent⟩⟩
    refine ⟨⟨R', ha.ofScopes.withScopes _⟩, by simp [hs], hsize, hcur', rfl, fun F f' hF => ?_⟩
    refine Iff.trans ?_ ((hrun F f' hF).trans ?_)
    · exact exists_congr fun F' => and_congr_right fun _ => hsame _ _
    · exact exists_congr fun f => and_congr_left fun _ => hsame _ _

theorem single {s : Stmt} (hs : Conveys A σ (lowerStmt [] s) first n () course) :
    Conveys A σ (lowerStmts [] [s]) first n () course where
  run {R b b' a'} hc hσ hfirst hcur h := by
    rw [lowerStmts, lowerStmts] at h
    obtain ⟨_, b₁, h₁, h₂⟩ := run_bind.mp h
    obtain ⟨-, rfl⟩ := run_pure.mp h₂
    exact hs.run hc hσ hfirst hcur h₁

/-- A statement that only evaluates an expression. -/
theorem expr (e : Expr) : Conveys A σ (lowerStmt [] (.expr e)) first e.extent.value ()
    ((e.course A σ).value first) := by
  rw [lowerStmt]
  exact ((lowerExpr_conducts e).value first).map fun _ => ()

/-- A statement that only tests leads to where its branches meet. -/
theorem ifElse (e : Expr) : Conveys A σ (lowerStmt [] (.ifElse e [] none)) first e.extent.test ()
    fun f f' => ∃ t el, (e.course A σ).test first f t el ∧ t ≤ f' ∧ el ≤ f' := by
  have hbody : lowerStmt [] (.ifElse e [] none) =
      (do
        let _ ← Build.choice (lowerExpr [] e).test (Build.inScope (Pure.pure ())) (Pure.pure ())
        return ()) := by
    simp only [lowerStmt, lowerStmts, lowerElse, Build.choice, bind_assoc, pure_bind,
      bind_pure_unit]
  have hnone {σ : Scopes} {first : Nat} :
      Conveys A σ (Pure.pure () : Build Unit) first 0 () (· ≤ ·) := .pure ()
  rw [hbody]
  refine ((((lowerExpr_conducts e).test first).choice hnone.inScope hnone).map
    fun _ => ()).congr fun f f' => ?_
  constructor
  · rintro ⟨t, el, x, x', y, y', hforks, hx, hx', hle, hy, hy', hle'⟩
    exact ⟨t, el, hforks, hx.trans (hx'.trans hle), hy.trans (hy'.trans hle')⟩
  · rintro ⟨t, el, hforks, ht, hel⟩
    exact ⟨t, el, t, t, el, el, hforks, le_refl t, le_refl t, ht, le_refl el, le_refl el, hel⟩

end Conveys

/-- The entry is connected. -/
theorem Transit.labels_link {c k : Nat} {kind : SpecialKind}
    (hd : b.drafts[c]? = some ⟨[], .special kind none⟩) (h : (link c k).run b = .ok (u, b')) :
    A.Labels F b' ↔ A.Labels F b ∧ A.caught (F c) ≤ F k := by
  rw [run_link] at h
  cases h
  have hlinked : A.Respects b.nodes F c ⟨[], .special kind (some k)⟩ ↔ A.caught (F c) ≤ F k := by
    simp only [Respects, Along, Sends, Option.mem_some_iff, forall_eq']
    constructor
    · rintro ⟨_, _, hle⟩
      exact hle
    · exact fun hle => ⟨_, le_refl _, hle⟩
  have hall := Array.forall_modify hd (f := fun d => { d with exits := d.exits.link k })
    (P := fun i d => A.Respects b.nodes F i d)
  refine hall.trans (Iff.trans (and_congr_right fun _ => hlinked) ?_)
  refine and_congr_left fun _ => ⟨fun h i d hi => ?_, fun h i d _ hi => h i d hi⟩
  by_cases hc : i = c
  · subst hc
    cases hd.symm.trans hi
    exact ⟨F i, le_refl _, by simp [Sends]⟩
  · exact h i d hc hi

/-- Nothing is asked of the labels of the designated blocks. -/
theorem Transit.labels_start (params : List Parameter) : A.Labels F (Build.start params) := by
  intro i d hd
  obtain ⟨kind, rfl⟩ := start_drafts hd
  exact ⟨F i, le_refl _, by simp [Sends]⟩

/-- The blocks of a unit can be labelled, from a fact at the entry on, where the course of its
body leads from what the entry lets through. -/
theorem ProgramUnit.build_labelled {unit : ProgramUnit} {f₀ : Fact}
    (hbody : Conveys A ([] :: Scopes.ofParams unit.params) (lowerStmts [] unit.body) 0 n () course)
    (htop : ∀ f, f ≤ A.lost) (h : unit.build.run (Build.start unit.params) = .ok ((), b)) :
    b.nodes.size = n ∧ (∃ R, b.Coherent R) ∧
    ((∃ F, F entryId = f₀ ∧ F exitId = A.lost ∧ F exceptionalExitId = A.lost ∧ A.Labels F b) ↔
      ∃ f f', A.caught f₀ ≤ f ∧ course f f') := by
  simp only [ProgramUnit.build, run_bind] at h
  obtain ⟨(first : Nat), b₁, h₁, _, b₂, h₂, _, b₃, h₃, _, b₄, h₄, h₅⟩ := h
  have hc := coherent_start unit.params
  have ho₁ := hc.opens h₁
  have hid₁ : first = 3 := ho₁.id_eq
  have hentry : b₁.Waits entryId ⟨[], .special .entry none⟩ :=
    ho₁.advances.grows.waits ⟨rfl, by simp [Build.start]⟩ (by simp)
  have hsize₁ := ho₁.size
  obtain ⟨ha₂, hs₂, -⟩ := link_spec ho₁.advances.coherent hentry ho₁.fresh.lt h₂
  have hlinked {F : BlockId → Fact} := Transit.labels_link (A := A) (F := F) hentry.1 h₂
  have hnodes₂ : b₂.nodes.size = 0 := by
    rw [run_link] at h₂
    cases h₂
    rw [(run_newBlock_kept h₁).1]
    rfl
  have hsize₂ := ha₂.grows.size_le
  obtain ⟨⟨R, ha₅⟩, -, hsize₅, -, hrun⟩ := hbody.inScope.arm ha₂.coherent
    (hs₂.trans ho₁.scopes) hnodes₂ (ha₂.grows.waits ho₁.fresh (by simp [hid₁, entryId]))
    (Nat.lt_of_lt_of_le (by decide) ha₂.coherent.designated) h₃ h₄ h₅
  have hstart {F : BlockId → Fact} : A.Labels F b₁ :=
    (Transit.labels_newBlock h₁).mpr (Transit.labels_start unit.params)
  refine ⟨by rw [hsize₅, Nat.zero_add], ⟨R, ha₅.coherent⟩, ?_⟩
  constructor
  · rintro ⟨F, rfl, -, hlost, hlabels⟩
    obtain ⟨hlabels₂, f, f', hf, hcourse, -⟩ := (hrun F hlost).mp (.of hlabels)
    exact ⟨f, f', (hlinked.mp hlabels₂).2.trans hf, hcourse⟩
  · rintro ⟨f, f', hf, hcourse⟩
    let F : BlockId → Fact := fun i => if i = entryId then f₀ else if i = first then f else A.lost
    have hfirst : F first = f := by simp [F, hid₁, entryId]
    obtain ⟨F', hF', hlabels⟩ := (hrun F (by simp [F, hid₁, entryId, exceptionalExitId])).mpr
      ⟨hlinked.mpr ⟨hstart, by rw [hfirst]; exact hf⟩, f, f', hfirst.le, hcourse,
        by simpa [F, hid₁, entryId, exitId] using htop f'⟩
    have hkept {i : Nat} (hi : i < 3) : F' i = F i := hF' i (by omega)
    refine ⟨F', (hkept (by decide)).trans (by simp [F]), (hkept (by decide)).trans ?_,
      (hkept (by decide)).trans ?_, hlabels⟩ <;>
      simp [F, hid₁, entryId, exitId, exceptionalExitId]

namespace ProgramUnit

/-- The scopes in which the body of a unit starts. -/
def bodyScopes (unit : ProgramUnit) : Scopes := [] :: Scopes.ofParams unit.params

/-- The unit with an expression as its only statement. -/
def stating (u : ProgramUnit) (e : Expr) : ProgramUnit := { u with body := [.expr e] }

/-- The unit that only tests an expression. -/
def testing (u : ProgramUnit) (e : Expr) : ProgramUnit := { u with body := [.ifElse e [] none] }

end ProgramUnit

end FlowTyping
