import FlowTyping.Proofs.Conditions.Conveyance

/-!
The lowering of expressions conveys facts along their courses: one law for each construct, as a
value and as a test with two targets.
-/

namespace FlowTyping

open Build Building

variable {Fact : Type} [Preorder Fact] {A : Transit Fact} {σ : Scopes} {α : Type}
  {R : Registry} {b b' b₁ b₂ b₃ : Building} {first n : Nat} {a a' : α} {u : Unit}

theorem run_newBlock_kept {k : Nat} (h : newBlock.run b = .ok (k, b')) :
    b'.nodes = b.nodes ∧ b'.current = b.current := by
  rw [newBlock, run_newDraft] at h
  cases h
  exact ⟨rfl, rfl⟩

theorem run_setCurrent_some {k : Nat} (h : (setCurrent (some k)).run b = .ok (u, b')) :
    b'.nodes = b.nodes ∧ b'.current ≠ none := by
  rw [run_setCurrent] at h
  cases h
  exact ⟨rfl, Option.some_ne_none k⟩

theorem sizes_branch {id t e : Nat} (hrests : b.Rests id)
    (h : (branch id t e).run b = .ok (u, b')) :
    b'.nodes = b.nodes ∧ b'.drafts.size = b.drafts.size + 1 := by
  obtain ⟨k, b₁, h₁, h₂⟩ := run_branch hrests h
  obtain ⟨n, -, hn⟩ := hrests
  rw [run_newDraft] at h₁
  rw [run_closeWith] at h₂
  cases h₁
  simp only [hn] at h₂
  cases h₂
  simp

omit [Preorder Fact] in
/-- The labels of new blocks may be chosen. -/
theorem exists_labels (F : BlockId → Fact) (size : Nat) (x y z : Fact) :
    ∃ F' : BlockId → Fact, (∀ i < size, F' i = F i) ∧ F' size = x ∧ F' (size + 1) = y ∧
      F' (size + 2) = z := by
  refine ⟨fun i => if i < size then F i else ([x, y, z][i - size]?).getD x, fun i hi => if_pos hi,
    ?_, ?_, ?_⟩ <;> simp

theorem ite_mono {P : Prop} [Decidable P] {x x' y y' : Fact} (hx : x ≤ x') (hy : y ≤ y') :
    (if P then x else y) ≤ if P then x' else y' := by
  split
  · exact hx
  · exact hy

/-- A construction in a waiting block that then leads to another block. -/
theorem Conveys.arm {m : Build α} {course : Fact → Fact → Prop} {k j : Nat}
    (hm : Conveys A σ m first n a course) (hc : b.Coherent R) (hσ : b.scopes = σ)
    (hfirst : b.nodes.size = first) (hk : b.Fresh k) (hj : j < b.drafts.size)
    (h₁ : (setCurrent (some k)).run b = .ok (u, b₁)) (h₂ : m.run b₁ = .ok (a', b₂))
    (h₃ : (closeWith j).run b₂ = .ok (u, b₃)) :
    (∃ R', Advances [k] R b R' b₃) ∧ b₃.scopes = b.scopes ∧ b₃.nodes.size = first + n ∧ a' = a ∧
    ∀ F, F exceptionalExitId = A.lost → (b.Labelled F (A.Labels · b₃) ↔
      A.Labels F b ∧ ∃ f f', F k ≤ f ∧ course f f' ∧ f' ≤ F j) := by
  obtain ⟨ha₁, hs₁, -, hsize₁⟩ := setCurrent_spec hc hk h₁
  have henter {F : BlockId → Fact} {f : Fact} :=
    Transit.arrives_enter (A := A) (F := F) (f := f) hk h₁
  obtain ⟨hnodes₁, hcur₁⟩ := run_setCurrent_some h₁
  obtain ⟨⟨R₂, ha₂⟩, hs₂, hsize₂, hcur₂, rfl, hrun⟩ :=
    hm.run ha₁.coherent (hs₁.trans hσ) (by rw [hnodes₁, hfirst]) hcur₁ h₂
  have hle := ha₂.grows.size_le
  obtain ⟨ha₃, hs₃, -⟩ := closeWith_spec ha₂.coherent (by omega) h₃
  have hclose {F : BlockId → Fact} :=
    Transit.labels_closeWith (A := A) (F := F) ha₂.coherent hcur₂ h₃
  have hnodes : b₃.nodes = b₂.nodes := by
    rw [run_closeWith] at h₃
    cases h₃
    rfl
  refine ⟨⟨R₂, ha₁.trans ((ha₂.weaken (by simp)).trans (ha₃.weaken (by simp)))⟩,
    hs₃.trans (hs₂.trans hs₁), by rw [hnodes, hsize₂], rfl, fun F hF => ?_⟩
  constructor
  · rintro ⟨F', hF', hlabels⟩
    obtain ⟨f', hf', hleft⟩ := hclose.mp hlabels
    obtain ⟨f, hf, hcourse⟩ := (hrun F f' hF).mp ⟨F', fun i hi => hF' i (hsize₁ ▸ hi), hf'⟩
    obtain ⟨hlabels, hright⟩ := henter.mp hf
    exact ⟨hlabels, f, f', hright, hcourse, hF' j hj ▸ hleft⟩
  · rintro ⟨hlabels, f, f', hright, hcourse, hleft⟩
    obtain ⟨F', hF', hf'⟩ := (hrun F f' hF).mpr ⟨f, henter.mpr ⟨hlabels, hright⟩, hcourse⟩
    have hF' : ∀ i < b.drafts.size, F' i = F i := fun i hi => hF' i (hsize₁.symm ▸ hi)
    exact ⟨F', hF', hclose.mpr ⟨f', hf', (hF' j hj).symm ▸ hleft⟩⟩

/-- A test in a waiting block. -/
theorem Forks.resume {m : BlockId → BlockId → Build Unit} {course : Fact → Fact → Fact → Prop}
    {k t e : Nat} (hm : Forks A σ m first n course) (hc : b.Coherent R) (hσ : b.scopes = σ)
    (hfirst : b.nodes.size = first) (hk : b.Fresh k) (ht : t < b.drafts.size)
    (he : e < b.drafts.size) (h₁ : (setCurrent (some k)).run b = .ok (u, b₁))
    (h₂ : (m t e).run b₁ = .ok ((), b₂)) :
    (∃ R', Advances [k] R b R' b₂) ∧ b₂.scopes = b.scopes ∧ b₂.nodes.size = first + n ∧
    ∀ F, F exceptionalExitId = A.lost → (b.Labelled F (A.Labels · b₂) ↔
      A.Labels F b ∧ ∃ f, F k ≤ f ∧ course f (F t) (F e)) := by
  obtain ⟨ha₁, hs₁, -, hsize₁⟩ := setCurrent_spec hc hk h₁
  have henter {F : BlockId → Fact} {f : Fact} :=
    Transit.arrives_enter (A := A) (F := F) (f := f) hk h₁
  obtain ⟨hnodes₁, hcur₁⟩ := run_setCurrent_some h₁
  obtain ⟨⟨R₂, ha₂⟩, hs₂, hsize₂, hrun⟩ := hm.run ha₁.coherent (hs₁.trans hσ)
    (by rw [hnodes₁, hfirst]) hcur₁ (hsize₁.symm ▸ ht) (hsize₁.symm ▸ he) h₂
  refine ⟨⟨R₂, ha₁.trans (ha₂.weaken (by simp))⟩, hs₂.trans hs₁, hsize₂, fun F hF => ?_⟩
  have hsame : b.Labelled F (A.Labels · b₂) ↔ b₁.Labelled F (A.Labels · b₂) := by
    unfold Labelled
    rw [hsize₁]
  rw [hsame, hrun F hF]
  constructor
  · rintro ⟨f, hf, hcourse⟩
    exact ⟨(henter.mp hf).1, f, (henter.mp hf).2, hcourse⟩
  · rintro ⟨hlabels, f, hright, hcourse⟩
    exact ⟨f, henter.mpr ⟨hlabels, hright⟩, hcourse⟩

/-- A block for each outcome of a test, and one in which they meet. -/
def Build.choice {α β : Type} (test : BlockId → BlockId → Build Unit) (left : Build α)
    (right : Build β) : Build (α × β) := do
  let thenBlock ← newBlock
  let elseBlock ← newBlock
  let mergeBlock ← newBlock
  test thenBlock elseBlock
  setCurrent thenBlock
  let thenResult ← left
  closeWith mergeBlock
  setCurrent elseBlock
  let elseResult ← right
  closeWith mergeBlock
  setCurrent mergeBlock
  return (thenResult, elseResult)

/-- What comes to a choice goes on where the test leads, and meets after it. -/
theorem Forks.choice {β : Type} {c : β} {test : BlockId → BlockId → Build Unit} {left : Build α}
    {right : Build β} {n' n'' : Nat} {forks : Fact → Fact → Fact → Prop}
    {course course' : Fact → Fact → Prop} (htest : Forks A σ test first n forks)
    (hleft : Conveys A σ left (first + n) n' a course)
    (hright : Conveys A σ right (first + n + n') n'' c course') :
    Conveys A σ (Build.choice test left right) first (n + n' + n'') (a, c) fun f merged =>
      ∃ t e x x' y y', forks f t e ∧ t ≤ x ∧ course x x' ∧ x' ≤ merged ∧
        e ≤ y ∧ course' y y' ∧ y' ≤ merged where
  run {R b b' p} hc hσ hfirst hcur hrun := by
    simp only [Build.choice, run_bind] at hrun
    obtain ⟨(t : Nat), b₁, h₁, (e : Nat), b₂, h₂, (j : Nat), b₃, h₃, _, b₄, h₄, _, b₅, h₅,
      thenResult, b₆, h₆, _, b₇, h₇, _, b₈, h₈, elseResult, b₉, h₉, _, b₁₀, h₁₀, _, b₁₁, h₁₁,
      h₁₂⟩ := hrun
    obtain ⟨rfl, rfl⟩ := run_pure.mp h₁₂
    have ho₁ := hc.opens h₁
    have ho₂ := ho₁.advances.coherent.opens h₂
    have ho₃ := ho₂.advances.coherent.opens h₃
    have ht := ho₁.id_eq
    have he := ho₂.id_eq
    have hj := ho₃.id_eq
    have hsize₁ := ho₁.size
    have hsize₂ := ho₂.size
    have hsize₃ := ho₃.size
    have ha₃ := (ho₁.advances.trans ho₂.advances).trans ho₃.advances
    have hs₃ : b₃.scopes = b.scopes := by rw [ho₃.scopes, ho₂.scopes, ho₁.scopes]
    have hnodes₃ : b₃.nodes = b.nodes := by
      rw [(run_newBlock_kept h₃).1, (run_newBlock_kept h₂).1, (run_newBlock_kept h₁).1]
    have hcur₃ : b₃.current = b.current := by
      rw [(run_newBlock_kept h₃).2, (run_newBlock_kept h₂).2, (run_newBlock_kept h₁).2]
    have harrives₃ {F : BlockId → Fact} {f : Fact} : A.Arrives F b₃ f ↔ A.Arrives F b f := by
      rw [Transit.arrives_newBlock ho₂.advances.coherent h₃,
        Transit.arrives_newBlock ho₁.advances.coherent h₂, Transit.arrives_newBlock hc h₁]
    have ht₃ : t < b₃.drafts.size := by omega
    have he₃ : e < b₃.drafts.size := by omega
    have hj₃ : j < b₃.drafts.size := by omega
    obtain ⟨⟨R₄, ha₄⟩, hs₄, hsize₄, htested⟩ := htest.run ha₃.coherent (hs₃.trans hσ)
      (by rw [hnodes₃, hfirst]) (hcur₃ ▸ hcur) ht₃ he₃ h₄
    have hle₄ := ha₄.grows.size_le
    have hw₁ := ho₃.advances.grows.waits (ho₂.advances.grows.waits ho₁.fresh (by simp)) (by simp)
    have hw₂ := ho₃.advances.grows.waits ho₂.fresh (by simp)
    obtain ⟨⟨R₇, ha₇⟩, hs₇, hsize₇, rfl, hthen⟩ := hleft.arm ha₄.coherent
      (hs₄.trans (hs₃.trans hσ)) hsize₄ (ha₄.grows.waits hw₁ (by simp))
      (Nat.lt_of_lt_of_le hj₃ hle₄) h₅ h₆ h₇
    have hle₇ := ha₇.grows.size_le
    obtain ⟨⟨R₁₀, ha₁₀⟩, hs₁₀, hsize₁₀, rfl, helse⟩ := hright.arm ha₇.coherent
      (hs₇.trans (hs₄.trans (hs₃.trans hσ))) hsize₇
      (ha₇.grows.waits (ha₄.grows.waits hw₂ (by simp)) (by simp; omega))
      (Nat.lt_of_lt_of_le hj₃ (Nat.le_trans hle₄ hle₇)) h₈ h₉ h₁₀
    have hle₁₀ := ha₁₀.grows.size_le
    have hw₃ := ha₁₀.grows.waits (ha₇.grows.waits (ha₄.grows.waits ho₃.fresh (by simp))
      (by simp; omega)) (by simp; omega)
    obtain ⟨ha₁₁, hs₁₁, -, hsize₁₁⟩ := setCurrent_spec ha₁₀.coherent hw₃ h₁₁
    have henter {F : BlockId → Fact} {f : Fact} :=
      Transit.arrives_enter (A := A) (F := F) (f := f) hw₃ h₁₁
    obtain ⟨hnodes₁₁, hcur₁₁⟩ := run_setCurrent_some h₁₁
    have ha := (((ha₃.trans ha₄).enter ha₇ (by omega)).enter ha₁₀ (by omega)).enter ha₁₁ (by omega)
    refine ⟨⟨_, ha⟩, by rw [hs₁₁, hs₁₀, hs₇, hs₄, hs₃], by rw [hnodes₁₁, hsize₁₀]; omega, hcur₁₁,
      rfl, fun F merged hF => ?_⟩
    constructor
    · rintro ⟨F', hF', harrives⟩
      have hlost : F' exceptionalExitId = A.lost := (hF' _ hc.designated).trans hF
      obtain ⟨hlabels₁₀, hmerge⟩ := henter.mp harrives
      obtain ⟨hlabels₇, y, y', hy, hcourse', hy'⟩ := (helse F' hlost).mp (.of hlabels₁₀)
      obtain ⟨hlabels₄, x, x', hx, hcourse, hx'⟩ := (hthen F' hlost).mp (.of hlabels₇)
      obtain ⟨f, hf, hforks⟩ := (htested F' hlost).mp (.of hlabels₄)
      exact ⟨f, (Transit.arrives_congr hc hF').mp (harrives₃.mp hf), F' t, F' e, x, x', y, y',
        hforks, hx, hcourse, hx'.trans hmerge, hy, hcourse', hy'.trans hmerge⟩
    · rintro ⟨f, hf, atThen, atElse, x, x', y, y', hforks, hx, hcourse, hx', hy, hcourse', hy'⟩
      obtain ⟨F₁, hF₁, ht₁, he₁, hj₁⟩ := exists_labels F b.drafts.size atThen atElse merged
      rw [← ht] at ht₁ he₁ hj₁
      rw [← hsize₁, ← he] at he₁
      rw [show t + 2 = j by rw [hj, hsize₂, he, hsize₁]] at hj₁
      have hlost₁ : F₁ exceptionalExitId = A.lost := (hF₁ _ hc.designated).trans hF
      obtain ⟨F₂, hF₂, hlabels₄⟩ := (htested F₁ hlost₁).mpr
        ⟨f, harrives₃.mpr ((Transit.arrives_congr hc hF₁).mpr hf), ht₁.symm ▸ he₁.symm ▸ hforks⟩
      have hF₂' : ∀ i < b.drafts.size, F₂ i = F i := fun i hi =>
        (hF₂ i (by omega)).trans (hF₁ i hi)
      obtain ⟨F₃, hF₃, hlabels₇⟩ := (hthen F₂ ((hF₂' _ hc.designated).trans hF)).mpr
        ⟨hlabels₄, x, x', by rw [hF₂ t ht₃, ht₁]; exact hx, hcourse,
          by rw [hF₂ j hj₃, hj₁]; exact hx'⟩
      have hF₃' : ∀ i < b₃.drafts.size, F₃ i = F₁ i := fun i hi =>
        (hF₃ i (Nat.lt_of_lt_of_le hi hle₄)).trans (hF₂ i hi)
      have hF₃'' : ∀ i < b.drafts.size, F₃ i = F i := fun i hi =>
        (hF₃' i (by omega)).trans (hF₁ i hi)
      obtain ⟨F₄, hF₄, hlabels₁₀⟩ := (helse F₃ ((hF₃'' _ hc.designated).trans hF)).mpr
        ⟨hlabels₇, y, y', by rw [hF₃' e he₃, he₁]; exact hy, hcourse',
          by rw [hF₃' j hj₃, hj₁]; exact hy'⟩
      have hF₄' : ∀ i < b₃.drafts.size, F₄ i = F₁ i := fun i hi =>
        (hF₄ i (Nat.lt_of_lt_of_le hi (Nat.le_trans hle₄ hle₇))).trans (hF₃' i hi)
      exact ⟨F₄, fun i hi => (hF₄' i (by omega)).trans (hF₁ i hi),
        henter.mpr ⟨hlabels₁₀, by rw [hF₄' j hj₃, hj₁]⟩⟩

/-- A block for one outcome of a value, and one in which it meets the other outcome. -/
def Build.detour (op : BinOp) (value : Build NodeId) (arm : Build α) : Build (NodeId × α) := do
  let id ← value
  let armBlock ← newBlock
  let mergeBlock ← newBlock
  branch id (if op = .and then armBlock else mergeBlock)
    (if op = .and then mergeBlock else armBlock)
  setCurrent armBlock
  let result ← arm
  closeWith mergeBlock
  setCurrent mergeBlock
  return (id, result)

/-- One outcome of the value goes through the arm, and the other one passes by. -/
theorem Conveys.detour {op : BinOp} {value : Build NodeId} {id : NodeId} {arm : Build α} {n' : Nat}
    {course course' : Fact → Fact → Prop} (hvalue : Conveys A σ value first n id course)
    (hrests : ∀ {R : Registry} {b b' : Building} {id : NodeId}, b.Coherent R →
      value.run b = .ok (id, b') → b'.Rests id)
    (harm : Conveys A σ arm (first + n) n' a course') :
    Conveys A σ (Build.detour op value arm) first (n + n') (id, a) fun f merged =>
      ∃ left g g', course f left ∧
        A.Branches left (if op = .and then g else merged) (if op = .and then merged else g) ∧
        course' g g' ∧ g' ≤ merged where
  run {R b b' p} hc hσ hfirst hcur hrun := by
    simp only [Build.detour, run_bind] at hrun
    obtain ⟨i, b₁, h₁, (t : Nat), b₂, h₂, (j : Nat), b₃, h₃, _, b₄, h₄, _, b₅, h₅, result, b₆, h₆,
      _, b₇, h₇, _, b₈, h₈, h₉⟩ := hrun
    obtain ⟨rfl, rfl⟩ := run_pure.mp h₉
    have hrests₁ := hrests hc h₁
    obtain ⟨⟨R₁, ha₁⟩, hs₁, hsize₁, -, rfl, hleft⟩ := hvalue.run hc hσ hfirst hcur h₁
    have ho₂ := ha₁.coherent.opens h₂
    have ho₃ := ho₂.advances.coherent.opens h₃
    have ht := ho₂.id_eq
    have hj := ho₃.id_eq
    have hsize₂ := ho₂.size
    have hsize₃ := ho₃.size
    have hle := ha₁.grows.size_le
    have ha₃ := (ha₁.trans ho₂.advances).trans ho₃.advances
    have hrests₃ := ho₃.rests _ (ho₂.rests _ hrests₁)
    have hthen : (if op = .and then t else j) < b₃.drafts.size := by split <;> omega
    have helse : (if op = .and then j else t) < b₃.drafts.size := by split <;> omega
    have hbranch {F : BlockId → Fact} :=
      Transit.labels_branch (A := A) (F := F) ha₃.coherent hrests₃ hthen helse h₄
    have harrives₃ {F : BlockId → Fact} {f : Fact} : A.Arrives F b₃ f ↔ A.Arrives F b₁ f := by
      rw [Transit.arrives_newBlock ho₂.advances.coherent h₃,
        Transit.arrives_newBlock ha₁.coherent h₂]
    obtain ⟨ha₄, hs₄, -⟩ := branch_spec ha₃.coherent hrests₃ hthen helse h₄
    have hsize₄ := (sizes_branch hrests₃ h₄).2
    have hnodes₄ : b₄.nodes.size = first + n := by
      rw [(sizes_branch hrests₃ h₄).1, (run_newBlock_kept h₃).1, (run_newBlock_kept h₂).1, hsize₁]
    have hs₀₄ : b₄.scopes = b.scopes := by rw [hs₄, ho₃.scopes, ho₂.scopes, hs₁]
    obtain ⟨⟨R₇, ha₇⟩, hs₇, hsize₇, rfl, hright⟩ := harm.arm ha₄.coherent (hs₀₄.trans hσ) hnodes₄
      (ha₄.grows.waits (ho₃.advances.grows.waits ho₂.fresh (by simp)) (by simp)) (by omega) h₅ h₆ h₇
    have hfresh₇ := ha₇.grows.waits (ha₄.grows.waits ho₃.fresh (by simp)) (by simp; omega)
    obtain ⟨ha₈, hs₈, -, hsize₈⟩ := setCurrent_spec ha₇.coherent hfresh₇ h₈
    have henter {F : BlockId → Fact} {f : Fact} :=
      Transit.arrives_enter (A := A) (F := F) (f := f) hfresh₇ h₈
    obtain ⟨hnodes₈, hcur₈⟩ := run_setCurrent_some h₈
    have ha := ((ha₃.trans ha₄).enter ha₇ (by omega)).enter ha₈ (by omega)
    refine ⟨⟨_, ha⟩, by rw [hs₈, hs₇, hs₀₄], by rw [hnodes₈, hsize₇, Nat.add_assoc], hcur₈, rfl,
      fun F merged hF => ?_⟩
    constructor
    · rintro ⟨F', hF', harrives⟩
      have hlost : F' exceptionalExitId = A.lost := (hF' _ hc.designated).trans hF
      obtain ⟨hlabels₇, hmerge⟩ := henter.mp harrives
      obtain ⟨hlabels₄, g, g', hg, hcourse, hg'⟩ := (hright F' hlost).mp (.of hlabels₇)
      obtain ⟨left, hleft₃, hlow, htrue, hfalse⟩ := hbranch.mp hlabels₄
      obtain ⟨f, hf, hcourse'⟩ := (hleft F left hF).mp ⟨F', hF', harrives₃.mp hleft₃⟩
      rw [apply_ite F'] at htrue hfalse
      exact ⟨f, hf, left, g, g', hcourse', ⟨_, hlow, htrue.trans (ite_mono hg hmerge),
        hfalse.trans (ite_mono hmerge hg)⟩, hcourse, hg'.trans hmerge⟩
    · rintro ⟨f, hf, left, g, g', hcourse', ⟨m, hlow, htrue, hfalse⟩, hcourse, hg'⟩
      obtain ⟨F₁, hF₁, hleft₁⟩ := (hleft F left hF).mpr ⟨f, hf, hcourse'⟩
      obtain ⟨F₂, hF₂, ht₂, hj₂, hk₂⟩ := exists_labels F₁ b₁.drafts.size g merged m
      rw [← ht] at ht₂ hj₂ hk₂
      rw [← hsize₂, ← hj] at hj₂
      rw [show t + 2 = b₃.drafts.size by rw [hsize₃, hj, hsize₂]] at hk₂
      have hF₂' : ∀ i < b.drafts.size, F₂ i = F i := fun i hi =>
        (hF₂ i (Nat.lt_of_lt_of_le hi hle)).trans (hF₁ i hi)
      have hlabels₄ : A.Labels F₂ b₄ := by
        refine hbranch.mpr ⟨left, harrives₃.mpr ((Transit.arrives_congr ha₁.coherent hF₂).mpr
          hleft₁), hk₂ ▸ hlow, ?_, ?_⟩
        · rw [hk₂, apply_ite F₂, ht₂, hj₂]
          exact htrue
        · rw [hk₂, apply_ite F₂, ht₂, hj₂]
          exact hfalse
      obtain ⟨F₃, hF₃, hlabels₇⟩ := (hright F₂ ((hF₂' _ hc.designated).trans hF)).mpr
        ⟨hlabels₄, g, g', ht₂.le, hcourse, hj₂ ▸ hg'⟩
      have hj₃ : F₃ j = merged := (hF₃ j (by omega)).trans hj₂
      exact ⟨F₃, fun i hi => (hF₃ i (by omega)).trans (hF₂' i hi),
        henter.mpr ⟨hlabels₇, hj₃.le⟩⟩

/-- What constructs a value or a test, outside of any statement, only adds to what is there. -/
def Lowered.Grows (l : Lowered) : Prop := ∃ place, Lowers [] [] l place

namespace Lowered.Grows

variable {l r c : Lowered}

theorem shortCircuit {op : BinOp} (hl : l.Grows) (hr : r.Grows) :
    (Lowered.shortCircuit op l r).Grows := by
  obtain ⟨_, hl⟩ := hl
  obtain ⟨_, hr⟩ := hr
  exact ⟨_, hl.shortCircuit hr⟩

theorem negation (h : l.Grows) : l.negation.Grows := by
  obtain ⟨_, h⟩ := h
  exact ⟨_, h.negation⟩

theorem ternary (hc : c.Grows) (hl : l.Grows) (hr : r.Grows) : (Lowered.ternary c l r).Grows := by
  obtain ⟨_, hc⟩ := hc
  obtain ⟨_, hl⟩ := hl
  obtain ⟨_, hr⟩ := hr
  exact ⟨_, hc.ternary hl hr⟩

/-- The last node of a value is in the current block. -/
theorem value (h : l.Grows) {id : NodeId} (hc : b.Coherent R)
    (hrun : l.value.run b = .ok (id, b')) : (∃ R', Advances [] R b R' b') ∧ b'.Rests id := by
  obtain ⟨place, h⟩ := h
  obtain ⟨R', ha, -, hrests, -⟩ := h.value.run List.nil_prefix hc (by simp [Fits]) trivial hrun
  exact ⟨⟨R', ha⟩, hrests⟩

theorem test (h : l.Grows) {t e : Nat} (hc : b.Coherent R) (ht : t < b.drafts.size)
    (he : e < b.drafts.size) (hrun : (l.test t e).run b = .ok ((), b')) :
    ∃ R', Advances [] R b R' b' := by
  obtain ⟨place, h⟩ := h
  obtain ⟨R', ha, -⟩ := (h.test t e).run List.nil_prefix hc (by simp [Fits]) ⟨ht, he⟩ hrun
  exact ⟨R', ha⟩

end Lowered.Grows

/-- The lowering of an expression has so many nodes, and can be labelled where a course leads. -/
structure Conducts (A : Transit Fact) (σ : Scopes) (l : Lowered) (x : Extent) (k : Course Fact) :
    Prop where
  grows : l.Grows
  value : ∀ first, Conveys A σ l.value first x.value (first + x.operands) (k.value first)
  test : ∀ first, Forks A σ l.test first x.test (k.test first)

namespace Conducts

variable {l r c : Lowered} {x y z : Extent} {k m p : Course Fact}

theorem ofValue {v : Build NodeId} {course : NodeId → Fact → Fact → Prop} {operands : Nat}
    (hgrows : (Lowered.ofValue v).Grows)
    (hv : ∀ first, Conveys A σ v first (operands + 1) (first + operands) (course first)) :
    Conducts A σ (.ofValue v) (.ofValue operands) (A.valueCourse course) where
  grows := hgrows
  value := hv
  test first := .ofValue (hv first) fun hc hrun => (hgrows.value hc hrun).2

theorem negation (h : Conducts A σ l x k) :
    Conducts A σ l.negation (.negation x) (A.negationCourse x k) where
  grows := h.grows.negation
  value first := (h.value first).bind (.emit (by
    simp only [NodeKind.operands, List.mem_singleton, forall_eq]
    exact x.last_lt first))
  test first := ⟨fun hc hσ hfirst hcur ht he hrun =>
    (h.test first).run hc hσ hfirst hcur he ht hrun⟩

theorem shortCircuit_value {op : BinOp} (hl : Conducts A σ l x k) (hr : Conducts A σ r y m) :
    Conveys A σ (Lowered.shortCircuit op l r).value first (x.value + y.value + 1)
      (first + (x.value + y.value)) ((A.shortCircuitCourse op x y k m).value first) := by
  have hkind : ∀ o ∈ (NodeKind.shortCircuit op (first + x.operands)
      (first + x.value + y.operands)).operands, o < first + (x.value + y.value) := by
    rw [← Nat.add_assoc]
    exact x.pair_lt y first
  have hvalue : (Lowered.shortCircuit op l r).value =
      Build.detour op l.value r.value >>= fun p => emit (.shortCircuit op p.1 p.2) := by
    simp only [Lowered.shortCircuit, Build.detour, bind_assoc, pure_bind]
    split <;> rfl
  rw [hvalue]
  refine ((Conveys.detour (hl.value first) (fun hc hrun => (hl.grows.value hc hrun).2)
    (hr.value (first + x.value))).bind (.emit hkind)).congr fun f f' => ?_
  simp only [Transit.shortCircuitCourse, Nat.add_assoc]
  constructor
  · rintro ⟨merged, ⟨left, right, right', hleft, hbranches, hright, hle⟩, htakes⟩
    exact ⟨left, right, right', merged, hleft, hbranches, hright, hle, htakes⟩
  · rintro ⟨left, right, right', merged, hleft, hbranches, hright, hle, htakes⟩
    exact ⟨merged, ⟨left, right, right', hleft, hbranches, hright, hle⟩, htakes⟩

theorem shortCircuit_test {op : BinOp} (hl : Conducts A σ l x k) (hr : Conducts A σ r y m) :
    Forks A σ (Lowered.shortCircuit op l r).test first (x.test + y.test)
      ((A.shortCircuitCourse op x y k m).test first) where
  run {R b b' t e} hc hσ hfirst hcur ht he hrun := by
    have hwhole := (hl.grows.shortCircuit hr.grows).test hc ht he hrun
    simp only [Lowered.shortCircuit, run_bind] at hrun
    obtain ⟨s, b₁, h₁, hrun⟩ := hrun
    obtain ⟨p, q, hp, hq, hrun⟩ : ∃ p q : Nat, p = (if op = .and then s else t) ∧
        q = (if op = .and then e else s) ∧
        (do
          l.test p q
          setCurrent (some s)
          r.test t e).run b₁ = .ok ((), b') := by
      split at hrun
      · exact ⟨s, e, by simp [*], by simp [*], hrun⟩
      · exact ⟨t, s, by simp [*], by simp [*], hrun⟩
    simp only [run_bind] at hrun
    obtain ⟨_, b₂, h₂, _, b₃, h₃, h₄⟩ := hrun
    have ho₁ := hc.opens h₁
    have hs := ho₁.id_eq
    have hsize₁ := ho₁.size
    obtain ⟨hnodes₁, hcur₁⟩ := run_newBlock_kept h₁
    have ht₁ : t < b₁.drafts.size := by omega
    have he₁ : e < b₁.drafts.size := by omega
    obtain ⟨⟨R₂, ha₂⟩, hs₂, hsize₂, hleft⟩ := (hl.test first).run ho₁.advances.coherent
      (ho₁.scopes.trans hσ) (by rw [hnodes₁, hfirst]) (hcur₁ ▸ hcur)
      (t := p) (e := q) (by split at hp <;> omega) (by split at hq <;> omega) h₂
    have hle₂ := ha₂.grows.size_le
    obtain ⟨⟨R₃, ha₃⟩, hs₃, hsize₃, hright⟩ := (hr.test (first + x.test)).resume ha₂.coherent
      (hs₂.trans (ho₁.scopes.trans hσ)) hsize₂ (ha₂.grows.waits ho₁.fresh (by simp))
      (Nat.lt_of_lt_of_le ht₁ hle₂) (Nat.lt_of_lt_of_le he₁ hle₂) h₃ h₄
    refine ⟨hwhole, by rw [hs₃, hs₂, ho₁.scopes], by rw [hsize₃]; omega, fun F hF => ?_⟩
    constructor
    · rintro ⟨F', hF', hlabels⟩
      have hlost : F' exceptionalExitId = A.lost := (hF' _ hc.designated).trans hF
      obtain ⟨hlabels₂, g, hg, hcourse⟩ := (hright F' hlost).mp (.of hlabels)
      obtain ⟨f, hf, hcourse'⟩ := (hleft F' hlost).mp (.of hlabels₂)
      rw [hp, hq, apply_ite F', apply_ite F', hF' t ht, hF' e he] at hcourse'
      rw [hF' t ht, hF' e he] at hcourse
      exact ⟨f, (Transit.arrives_congr hc hF').mp ((Transit.arrives_newBlock hc h₁).mp hf),
        F' s, g, hcourse', hg, hcourse⟩
    · rintro ⟨f, hf, outcome, g, hcourse', hg, hcourse⟩
      obtain ⟨F₁, hF₁, hs₁, -⟩ := exists_labels F b.drafts.size outcome outcome outcome
      rw [← hs] at hs₁
      have hlost₁ : F₁ exceptionalExitId = A.lost := (hF₁ _ hc.designated).trans hF
      obtain ⟨F₂, hF₂, hlabels₂⟩ := (hleft F₁ hlost₁).mpr
        ⟨f, (Transit.arrives_newBlock hc h₁).mpr ((Transit.arrives_congr hc hF₁).mpr hf), by
          rw [hp, hq, apply_ite F₁, apply_ite F₁, hs₁, hF₁ t ht, hF₁ e he]
          exact hcourse'⟩
      have hF₂' : ∀ i < b.drafts.size, F₂ i = F i := fun i hi =>
        (hF₂ i (by omega)).trans (hF₁ i hi)
      obtain ⟨F₃, hF₃, hlabels₃⟩ := (hright F₂ ((hF₂' _ hc.designated).trans hF)).mpr
        ⟨hlabels₂, g, by rw [hF₂ s (by omega), hs₁]; exact hg, by
          rw [hF₂' t ht, hF₂' e he]
          exact hcourse⟩
      exact ⟨F₃, fun i hi => (hF₃ i (by omega)).trans (hF₂' i hi), hlabels₃⟩

theorem ternary_value (hcond : Conducts A σ c x k) (hl : Conducts A σ l y m)
    (hr : Conducts A σ r z p) :
    Conveys A σ (Lowered.ternary c l r).value first (x.test + y.value + z.value + 1)
      (first + (x.test + y.value + z.value)) ((A.ternaryCourse x y z k m p).value first) := by
  have hkind : ∀ o ∈ (NodeKind.ternaryMerge (first + x.test + y.operands)
      (first + x.test + y.value + z.operands)).operands,
      o < first + (x.test + y.value + z.value) := by
    simp only [← Nat.add_assoc]
    exact y.pair_lt z _
  have hvalue : (Lowered.ternary c l r).value =
      Build.choice c.test l.value r.value >>= fun p => emit (.ternaryMerge p.1 p.2) := by
    simp only [Lowered.ternary, Build.choice, bind_assoc, pure_bind]
  rw [hvalue]
  refine (((hcond.test first).choice (hl.value _) (hr.value _)).bind (.emit hkind)).congr
    fun f f' => ?_
  simp only [Transit.ternaryCourse, Nat.add_assoc]
  constructor
  · rintro ⟨merged, ⟨t, e, x, x', y, y', hforks, hx, hleft, hx', hy, hright, hy'⟩, htakes⟩
    exact ⟨t, e, x, x', y, y', merged, hforks, hx, hleft, hx', hy, hright, hy', htakes⟩
  · rintro ⟨t, e, x, x', y, y', merged, hforks, hx, hleft, hx', hy, hright, hy', htakes⟩
    exact ⟨merged, ⟨t, e, x, x', y, y', hforks, hx, hleft, hx', hy, hright, hy'⟩, htakes⟩

theorem ternary_test (hcond : Conducts A σ c x k) (hl : Conducts A σ l y m)
    (hr : Conducts A σ r z p) :
    Forks A σ (Lowered.ternary c l r).test first (x.test + y.test + z.test)
      ((A.ternaryCourse x y z k m p).test first) where
  run {R b b' t e} hc hσ hfirst hcur ht he hrun := by
    have hwhole := (hcond.grows.ternary hl.grows hr.grows).test hc ht he hrun
    simp only [Lowered.ternary, run_bind] at hrun
    obtain ⟨(v : Nat), b₁, h₁, (w : Nat), b₂, h₂, _, b₃, h₃, _, b₄, h₄, _, b₅, h₅, _, b₆, h₆,
      h₇⟩ := hrun
    have ho₁ := hc.opens h₁
    have ho₂ := ho₁.advances.coherent.opens h₂
    have hv := ho₁.id_eq
    have hw := ho₂.id_eq
    have hsize₁ := ho₁.size
    have hsize₂ := ho₂.size
    have ha₂ := ho₁.advances.trans ho₂.advances
    have hs₂ : b₂.scopes = b.scopes := ho₂.scopes.trans ho₁.scopes
    have hnodes₂ : b₂.nodes = b.nodes := by
      rw [(run_newBlock_kept h₂).1, (run_newBlock_kept h₁).1]
    have hcur₂ : b₂.current = b.current := by
      rw [(run_newBlock_kept h₂).2, (run_newBlock_kept h₁).2]
    have harrives₂ {F : BlockId → Fact} {f : Fact} : A.Arrives F b₂ f ↔ A.Arrives F b f := by
      rw [Transit.arrives_newBlock ho₁.advances.coherent h₂, Transit.arrives_newBlock hc h₁]
    have hv₂ : v < b₂.drafts.size := by omega
    have hw₂ : w < b₂.drafts.size := by omega
    have ht₂ : t < b₂.drafts.size := by omega
    have he₂ : e < b₂.drafts.size := by omega
    obtain ⟨⟨R₃, ha₃⟩, hs₃, hsize₃, hcondition⟩ := (hcond.test first).run ha₂.coherent
      (hs₂.trans hσ) (by rw [hnodes₂, hfirst]) (hcur₂ ▸ hcur) hv₂ hw₂ h₃
    have hle₃ := ha₃.grows.size_le
    obtain ⟨⟨R₅, ha₅⟩, hs₅, hsize₅, hthen⟩ := (hl.test (first + x.test)).resume ha₃.coherent
      (hs₃.trans (hs₂.trans hσ)) hsize₃
      (ha₃.grows.waits (ho₂.advances.grows.waits ho₁.fresh (by simp)) (by simp))
      (Nat.lt_of_lt_of_le ht₂ hle₃) (Nat.lt_of_lt_of_le he₂ hle₃) h₄ h₅
    have hle₅ := ha₅.grows.size_le
    obtain ⟨⟨R₇, ha₇⟩, hs₇, hsize₇, helse⟩ := (hr.test (first + x.test + y.test)).resume
      ha₅.coherent (hs₅.trans (hs₃.trans (hs₂.trans hσ))) hsize₅
      (ha₅.grows.waits (ha₃.grows.waits ho₂.fresh (by simp)) (by simp; omega))
      (Nat.lt_of_lt_of_le ht₂ (Nat.le_trans hle₃ hle₅))
      (Nat.lt_of_lt_of_le he₂ (Nat.le_trans hle₃ hle₅)) h₆ h₇
    refine ⟨hwhole, by rw [hs₇, hs₅, hs₃, hs₂], by rw [hsize₇]; omega, fun F hF => ?_⟩
    constructor
    · rintro ⟨F', hF', hlabels⟩
      have hlost : F' exceptionalExitId = A.lost := (hF' _ hc.designated).trans hF
      obtain ⟨hlabels₅, right, hright, hcourse₂⟩ := (helse F' hlost).mp (.of hlabels)
      obtain ⟨hlabels₃, left, hleft, hcourse₁⟩ := (hthen F' hlost).mp (.of hlabels₅)
      obtain ⟨f, hf, hcourse⟩ := (hcondition F' hlost).mp (.of hlabels₃)
      rw [hF' t ht, hF' e he] at hcourse₁ hcourse₂
      exact ⟨f, (Transit.arrives_congr hc hF').mp (harrives₂.mp hf), F' v, F' w, left, right,
        hcourse, hleft, hcourse₁, hright, hcourse₂⟩
    · rintro ⟨f, hf, atThen, atElse, left, right, hcourse, hleft, hcourse₁, hright, hcourse₂⟩
      obtain ⟨F₁, hF₁, hv₁, hw₁, -⟩ := exists_labels F b.drafts.size atThen atElse atElse
      rw [← hv] at hv₁ hw₁
      rw [← hsize₁, ← hw] at hw₁
      have hlost₁ : F₁ exceptionalExitId = A.lost := (hF₁ _ hc.designated).trans hF
      obtain ⟨F₂, hF₂, hlabels₃⟩ := (hcondition F₁ hlost₁).mpr
        ⟨f, harrives₂.mpr ((Transit.arrives_congr hc hF₁).mpr hf), hv₁.symm ▸ hw₁.symm ▸ hcourse⟩
      have hF₂' : ∀ i < b.drafts.size, F₂ i = F i := fun i hi =>
        (hF₂ i (by omega)).trans (hF₁ i hi)
      obtain ⟨F₃, hF₃, hlabels₅⟩ := (hthen F₂ ((hF₂' _ hc.designated).trans hF)).mpr
        ⟨hlabels₃, left, by rw [hF₂ v hv₂, hv₁]; exact hleft, by
          rw [hF₂' t ht, hF₂' e he]
          exact hcourse₁⟩
      have hF₃' : ∀ i < b₂.drafts.size, F₃ i = F₁ i := fun i hi =>
        (hF₃ i (Nat.lt_of_lt_of_le hi hle₃)).trans (hF₂ i hi)
      have hF₃'' : ∀ i < b.drafts.size, F₃ i = F i := fun i hi =>
        (hF₃' i (by omega)).trans (hF₁ i hi)
      obtain ⟨F₄, hF₄, hlabels₇⟩ := (helse F₃ ((hF₃'' _ hc.designated).trans hF)).mpr
        ⟨hlabels₅, right, by rw [hF₃' w hw₂, hw₁]; exact hright, by
          rw [hF₃'' t ht, hF₃'' e he]
          exact hcourse₂⟩
      exact ⟨F₄, fun i hi => (hF₄ i (by omega)).trans (hF₃'' i hi), hlabels₇⟩

theorem shortCircuit {op : BinOp} (hl : Conducts A σ l x k) (hr : Conducts A σ r y m) :
    Conducts A σ (.shortCircuit op l r) (.shortCircuit x y) (A.shortCircuitCourse op x y k m) where
  grows := hl.grows.shortCircuit hr.grows
  value _ := hl.shortCircuit_value hr
  test _ := hl.shortCircuit_test hr

theorem ternary (hcond : Conducts A σ c x k) (hl : Conducts A σ l y m) (hr : Conducts A σ r z p) :
    Conducts A σ (.ternary c l r) (.ternary x y z) (A.ternaryCourse x y z k m p) where
  grows := hcond.grows.ternary hl.grows hr.grows
  value _ := hcond.ternary_value hl hr
  test _ := hcond.ternary_test hl hr

end Conducts

mutual

/-- The code of an expression can be labelled where the course of the expression leads. -/
theorem lowerExpr_conducts : (e : Expr) →
    Conducts A σ (lowerExpr [] e) e.extent (e.course A σ)
  | .literal value => .ofValue ⟨_, lowerExpr_lowers .nil (.literal value)⟩ fun _ =>
      .emit (by simp [NodeKind.operands])
  | .var name => .ofValue ⟨_, lowerExpr_lowers .nil (.var name)⟩ fun _ => .read name
  | .this => .ofValue ⟨_, lowerExpr_lowers .nil .this⟩ fun _ => .emit (by simp [NodeKind.operands])
  | .field receiver name =>
      .ofValue ⟨_, lowerExpr_lowers .nil (.field receiver name)⟩ fun first =>
        ((lowerExpr_conducts receiver).value first).bind (.emit (by
          simpa [NodeKind.operands] using receiver.extent.last_lt first))
  | .call receiver method args throws =>
      .ofValue ⟨_, lowerExpr_lowers .nil (.call receiver method args throws)⟩ fun first =>
        .cast (by omega) (Nat.add_assoc _ _ _) <|
          (lowerReceiver_conveys receiver first).bind <|
            (lowerArgs_conveys args _).bind <| .raise (by
              simp only [NodeKind.operands, List.mem_append, Option.mem_toList]
              rintro o (ho | ho)
              · exact Nat.lt_of_lt_of_le (Expr.optionLast_lt o ho) (Nat.le_add_right _ _)
              · exact Expr.listLast_lt args _ o ho)
  | .new className args =>
      .ofValue ⟨_, lowerExpr_lowers .nil (.new className args)⟩ fun first =>
        (lowerArgs_conveys args first).bind <| .raise (Expr.listLast_lt args first)
  | .binary op lhs rhs => by
      rw [Expr.extent, Expr.course, lowerExpr]
      split
      · exact (lowerExpr_conducts lhs).shortCircuit (lowerExpr_conducts rhs)
      · rename_i hop
        have hlowers := lowerExpr_lowers (R := []) .nil (.binary op lhs rhs)
        rw [lowerExpr, if_neg hop] at hlowers
        refine .ofValue ⟨_, hlowers⟩ fun first => ?_
        refine .cast (by omega) (Nat.add_assoc _ _ _) <|
          ((lowerExpr_conducts lhs).value first).bind <|
            ((lowerExpr_conducts rhs).value _).bind <|
              .emit (lhs.extent.pair_lt rhs.extent first)
  | .unary op operand => by
      rw [Expr.extent, Expr.course, lowerExpr]
      split
      · exact (lowerExpr_conducts operand).negation
      · rename_i hop
        have hlowers := lowerExpr_lowers (R := []) .nil (.unary op operand)
        rw [lowerExpr, if_neg hop] at hlowers
        refine .ofValue ⟨_, hlowers⟩ fun first => ?_
        exact ((lowerExpr_conducts operand).value first).bind (.emit (by
          simpa [NodeKind.operands] using operand.extent.last_lt first))
  | .ternary condition thenValue elseValue =>
      (lowerExpr_conducts condition).ternary (lowerExpr_conducts thenValue)
        (lowerExpr_conducts elseValue)
  | .cast qualifier operand =>
      .ofValue ⟨_, lowerExpr_lowers .nil (.cast qualifier operand)⟩ fun first =>
        ((lowerExpr_conducts operand).value first).bind (.emit (by
          simpa [NodeKind.operands] using operand.extent.last_lt first))

theorem lowerReceiver_conveys : (receiver : Option Expr) → (first : Nat) →
    Conveys A σ (lowerReceiver [] receiver) first (Expr.optionNodes receiver)
      (Expr.optionLast receiver first) (Expr.optionCourse A σ receiver first)
  | none, _ => .pure none
  | some e, first => ((lowerExpr_conducts e).value first).map some

theorem lowerArgs_conveys : (args : List Expr) → (first : Nat) →
    Conveys A σ (lowerArgs [] args) first (Expr.listNodes args) (Expr.listLast args first)
      (Expr.listCourse A σ args first)
  | [], _ => .pure []
  | e :: rest, first => ((lowerExpr_conducts e).value first).bind <|
      (lowerArgs_conveys rest _).map (e.last first :: ·)

end

end FlowTyping
