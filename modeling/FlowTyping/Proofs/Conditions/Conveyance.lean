import FlowTyping.Proofs.Conditions.Courses

/-!
Constructions that convey facts: their new blocks can be labelled just where a relation leads from
a fact before the construction to one after it. This is kept when constructions follow each other.
-/

namespace FlowTyping

open Build Building

/-- The blocks made after some state can be labelled so that something holds. -/
def Building.Labelled {Fact : Type} (b : Building) (F : BlockId → Fact)
    (P : (BlockId → Fact) → Prop) : Prop :=
  ∃ F', (∀ i < b.drafts.size, F' i = F i) ∧ P F'

theorem Building.Labelled.trans {Fact : Type} {b b' : Building} {F : BlockId → Fact}
    {P : (BlockId → Fact) → Prop} (hle : b.drafts.size ≤ b'.drafts.size)
    (h : b.Labelled F fun F' => b'.Labelled F' P) : b.Labelled F P := by
  obtain ⟨F₁, h₁, F₂, h₂, h⟩ := h
  exact ⟨F₂, fun i hi => (h₂ i (Nat.lt_of_lt_of_le hi hle)).trans (h₁ i hi), h⟩

theorem Building.Labelled.of {Fact : Type} {b : Building} {F : BlockId → Fact}
    {P : (BlockId → Fact) → Prop} (h : P F) : b.Labelled F P := ⟨F, fun _ _ => rfl, h⟩

variable {Fact : Type} [Preorder Fact]

/-- A construction gives a result after so many nodes, the first of which is given. The blocks that
it makes can be labelled so that it takes one fact to another one exactly where the relation holds
of the two. -/
structure Conveys {α : Type} (A : Transit Fact) (σ : Scopes) (m : Build α) (first count : Nat)
    (a : α) (course : Fact → Fact → Prop) : Prop where
  run : ∀ {R : Registry} {b b' : Building} {a' : α}, b.Coherent R → b.scopes = σ →
    b.nodes.size = first → b.current ≠ none → m.run b = .ok (a', b') →
    (∃ R', Advances [] R b R' b') ∧ b'.scopes = b.scopes ∧ b'.nodes.size = first + count ∧
      b'.current ≠ none ∧ a' = a ∧
    ∀ F f', F exceptionalExitId = A.lost → (b.Labelled F (A.Arrives · b' f') ↔
      ∃ f, A.Arrives F b f ∧ course f f')

/-- A construction leads to one of two blocks after so many nodes. The blocks that it makes can be
labelled exactly where the relation holds of a fact before it and the labels of the two. -/
structure Forks (A : Transit Fact) (σ : Scopes) (m : BlockId → BlockId → Build Unit)
    (first count : Nat) (course : Fact → Fact → Fact → Prop) : Prop where
  run : ∀ {R : Registry} {b b' : Building} {t e : Nat}, b.Coherent R → b.scopes = σ →
    b.nodes.size = first → b.current ≠ none → t < b.drafts.size → e < b.drafts.size →
    (m t e).run b = .ok ((), b') →
    (∃ R', Advances [] R b R' b') ∧ b'.scopes = b.scopes ∧ b'.nodes.size = first + count ∧
    ∀ F, F exceptionalExitId = A.lost → (b.Labelled F (A.Labels · b') ↔
      ∃ f, A.Arrives F b f ∧ course f (F t) (F e))

variable {A : Transit Fact} {σ : Scopes} {α β : Type}
  {R : Registry} {b b' b₁ b₂ b₃ : Building} {F : BlockId → Fact} {f f' : Fact}
  {first n n' : Nat} {a : α} {u : Unit}

namespace Conveys

theorem bind {m : Build α} {k : α → Build β} {c : β} {course course' : Fact → Fact → Prop}
    (hm : Conveys A σ m first n a course) (hk : Conveys A σ (k a) (first + n) n' c course') :
    Conveys A σ (m >>= k) first (n + n') c fun f f' => ∃ m, course f m ∧ course' m f' where
  run {R b b' c'} hc hσ hfirst hcur h := by
    obtain ⟨a', b₁, h₁, h₂⟩ := run_bind.mp h
    obtain ⟨⟨R₁, ha₁⟩, hs₁, hsize₁, hcur₁, rfl, hrun₁⟩ := hm.run hc hσ hfirst hcur h₁
    obtain ⟨⟨R₂, ha₂⟩, hs₂, hsize₂, hcur₂, rfl, hrun₂⟩ :=
      hk.run ha₁.coherent (hs₁.trans hσ) hsize₁ hcur₁ h₂
    refine ⟨⟨R₂, ha₁.trans ha₂⟩, hs₂.trans hs₁, by omega, hcur₂, rfl, fun F f' hF => ?_⟩
    have hlost {F' : BlockId → Fact} (h : ∀ i < b.drafts.size, F' i = F i) :
        F' exceptionalExitId = A.lost := (h _ hc.designated).trans hF
    constructor
    · rintro ⟨F', hF', harrives⟩
      obtain ⟨m, hm, hcourse'⟩ := (hrun₂ F' f' (hlost hF')).mp (.of harrives)
      obtain ⟨f, hf, hcourse⟩ := (hrun₁ F m hF).mp ⟨F', hF', hm⟩
      exact ⟨f, hf, m, hcourse, hcourse'⟩
    · rintro ⟨f, hf, m, hcourse, hcourse'⟩
      obtain ⟨F', hF', hm⟩ := (hrun₁ F m hF).mpr ⟨f, hf, hcourse⟩
      exact .trans ha₁.grows.size_le
        ⟨F', hF', (hrun₂ F' f' (hlost hF')).mpr ⟨m, hm, hcourse'⟩⟩

/-- Nothing is constructed. -/
theorem pure (a : α) : Conveys A σ (Pure.pure a) first 0 a (· ≤ ·) where
  run {R b b' a'} hc hσ hfirst hcur h := by
    obtain ⟨rfl, rfl⟩ := run_pure.mp h
    refine ⟨⟨R, List.prefix_rfl, hc, .refl [] b⟩, rfl, hfirst, hcur, rfl, fun F f' _ => ?_⟩
    constructor
    · rintro ⟨F', hF', harrives⟩
      exact ⟨f', (Transit.arrives_congr hc hF').mp harrives, le_refl f'⟩
    · rintro ⟨f, hf, hle⟩
      exact .of (hf.le_right hle)

theorem cast {m : Build α} {a' : α} {course : Fact → Fact → Prop} (hn : n = n') (ha : a = a')
    (hm : Conveys A σ m first n a course) : Conveys A σ m first n' a' course := by
  subst hn ha
  exact hm

theorem congr {m : Build α} {course course' : Fact → Fact → Prop}
    (hm : Conveys A σ m first n a course) (h : ∀ f f', course f f' ↔ course' f f') :
    Conveys A σ m first n a course' := by
  have heq : course = course' := funext₂ fun f f' => propext (h f f')
  exact heq ▸ hm

theorem map {m : Build α} {course : Fact → Fact → Prop} (hm : Conveys A σ m first n a course)
    (k : α → β) : Conveys A σ (do let a ← m; return k a) first n (k a) course where
  run {R b b' c'} hc hσ hfirst hcur h := by
    obtain ⟨a', b₁, h₁, h₂⟩ := run_bind.mp h
    obtain ⟨rfl, rfl⟩ := run_pure.mp h₂
    obtain ⟨ha, hs, hsize, hcur', rfl, hrun⟩ := hm.run hc hσ hfirst hcur h₁
    exact ⟨ha, hs, hsize, hcur', rfl, hrun⟩

theorem openBlock_labelled {k : Nat} (hc : b.Coherent R) (hcur : b.current ≠ none)
    (h : openBlock.run b = .ok (k, b')) : b.Labelled F (A.Arrives · b' f) ↔ A.Arrives F b f := by
  rcases run_openBlock h with ⟨rfl, -, -⟩ | ⟨b₁, h₁, rfl⟩
  · constructor
    · rintro ⟨F', hF', harrives⟩
      exact (Transit.arrives_congr hc hF').mp harrives
    · exact fun harrives => .of harrives
  · have hk : k = b.drafts.size := by
      rw [run_nextBlock] at h₁
      cases h₁
      rfl
    constructor
    · rintro ⟨F', hF', harrives⟩
      obtain ⟨g, hg, hle, hle'⟩ := (Transit.arrives_nextBlock hc hcur h₁).mp harrives
      exact ((Transit.arrives_congr hc hF').mp hg).le_right (hle.trans hle')
    · intro harrives
      have hF' : ∀ i < b.drafts.size, Function.update F k f i = F i := fun i hi => by
        rw [Function.update_of_ne (Nat.ne_of_lt (hk ▸ hi))]
      refine ⟨Function.update F k f, hF', (Transit.arrives_nextBlock hc hcur h₁).mpr ?_⟩
      rw [Function.update_self]
      exact ⟨f, (Transit.arrives_congr hc hF').mpr harrives, le_refl f, le_refl f⟩

theorem emit {kind : NodeKind} (hkind : ∀ o ∈ kind.operands, o < first) :
    Conveys A σ (Build.emit kind) first 1 first (A.Takes first kind) where
  run {R b b' id} hc hσ hfirst hcur h := by
    subst hfirst
    obtain ⟨ha, hs, -, -⟩ := emit_spec hc hkind h
    rw [Build.emit, run_bind] at h
    obtain ⟨k, b₁, h₁, h₂⟩ := h
    obtain ⟨ha₁, -, hn₁, hcur₁, d, hd, hopen, -⟩ := openBlock_spec hc h₁
    have hplace {F' : BlockId → Fact} {f' : Fact} : A.Arrives F' b' f' ↔ ∃ f, A.Arrives F' b₁ f ∧
        A.Takes b₁.nodes.size kind f f' := Transit.arrives_pushNode ha₁.coherent hcur₁ hd hopen h₂
    rw [run_pushNode] at h₂
    cases h₂
    refine ⟨⟨R, ha⟩, hs, by simp [hn₁], by simp [hcur₁], by rw [hn₁], fun F f' _ => ?_⟩
    constructor
    · rintro ⟨F', hF', harrives⟩
      obtain ⟨f, hf, htakes⟩ := hplace.mp harrives
      exact ⟨f, (openBlock_labelled hc hcur h₁).mp ⟨F', hF', hf⟩, hn₁ ▸ htakes⟩
    · rintro ⟨f, hf, htakes⟩
      obtain ⟨F', hF', hf⟩ := (openBlock_labelled hc hcur h₁).mpr hf
      exact ⟨F', hF', hplace.mpr ⟨f, hf, hn₁.symm ▸ htakes⟩⟩

theorem read (name : String) :
    Conveys A σ (do Build.emit (.localRead (← lookup name))) first 1 first
      (A.Takes first (.localRead (σ.resolve name))) where
  run {R b b' id} hc hσ hfirst hcur h := by
    obtain ⟨_, _, h₁, h₂⟩ := run_bind.mp h
    obtain ⟨rfl, rfl⟩ := run_lookup.mp h₁
    rw [hσ] at h₂
    exact (Conveys.emit (by simp [NodeKind.operands])).run hc hσ hfirst hcur h₂

/-- With no clauses around, everything that is raised leaves the unit. -/
theorem exceptionTargets_nil {categories : List String} {routed handlers : List (String × BlockId)}
    (h : (exceptionTargets [] categories routed).run b = .ok (handlers, b')) :
    b' = b ∧ ∀ p ∈ handlers, p ∈ routed ∨ p.2 = exceptionalExitId := by
  induction categories generalizing b routed with
  | nil =>
      obtain ⟨rfl, rfl⟩ := run_pure.mp h
      exact ⟨rfl, fun p hp => .inl hp⟩
  | cons category rest ih =>
      rcases run_exceptionTargets_cons h with ⟨-, hrest⟩ | ⟨-, k, b₁, h₁, h₂⟩
      · exact ih hrest
      · obtain ⟨rfl, rfl⟩ := run_pure.mp h₁
        obtain ⟨hb, hhandlers⟩ := ih h₂
        refine ⟨hb, fun p hp => (hhandlers p hp).elim (fun hp => ?_) .inr⟩
        rcases List.mem_append.mp hp with hp | hp
        · exact .inl hp
        · exact .inr (by rw [List.mem_singleton.mp hp])

theorem raise {kind : NodeKind} {category : String} {categories : List String}
    (hkind : ∀ o ∈ kind.operands, o < first) :
    Conveys A σ (emitRaising [] kind (category :: categories) false) first 1 first
      (A.Raises first kind) where
  run {R b b' id} hc hσ hfirst hcur h := by
    subst hfirst
    obtain ⟨R₂, -, ha, hs, -⟩ :=
      emitRaising_spec .nil List.nil_prefix hc (by simp [Fits]) hkind h
    obtain ⟨handlers, b₁, k, b₂, h₁, hblock, rfl, hb'⟩ := run_emitRaising h
    obtain ⟨rfl, hhandlers⟩ := exceptionTargets_nil h₁
    have hcategories : handlers ≠ [] := by
      have := categories_of_run h₁
      rintro rfl
      simp [Digraph.distinct] at this
    have hcaught {F : BlockId → Fact} (g after : Fact) :
        A.Sends F g after (.raise none handlers false) ↔
          A.caught g ≤ F exceptionalExitId := by
      have htarget : ∀ p ∈ handlers, p.2 = exceptionalExitId :=
        fun p hp => (hhandlers p hp).resolve_left (by simp)
      obtain ⟨p, hp⟩ := List.exists_mem_of_ne_nil _ hcategories
      constructor
      · rintro ⟨-, hsends⟩
        exact htarget p hp ▸ hsends p hp
      · exact fun hle => ⟨by simp, fun p hp => (htarget p hp).symm ▸ hle⟩
    obtain ⟨hcoherent, hn₂, hd, hback, hforth⟩ :
        Building.Coherent R { b₂ with current := some k } ∧ b₂.nodes = b₁.nodes ∧
        b₂.drafts[k]? = some ⟨[], .openEnd⟩ ∧
        (∀ F' g, A.Arrives F' { b₂ with current := some k } g → A.Arrives F' b₁ (F' k)) ∧
        ∀ F f, A.Arrives F b₁ f →
          b₁.Labelled F fun F' => A.Arrives F' { b₂ with current := some k } f := by
      rcases hblock with ⟨rfl, hcur, hd⟩ | ⟨hnext, -⟩
      · obtain ⟨d, hd', -⟩ := hc.current k hcur
        have hsame : { b₂ with current := some k } = b₂ := by rw [← hcur]
        have hd : b₂.drafts[k]? = some ⟨[], .openEnd⟩ := by simp_all
        rw [hsame]
        refine ⟨hc, rfl, hd, fun F' g hg => ⟨hg.labels, k, _, hcur, hd, le_refl (F' k)⟩,
          fun F f hf => .of hf⟩
      · obtain ⟨ha₂, -, hn₂, hd, -⟩ := nextBlock_spec hc hnext
        have hk : k = b₁.drafts.size := by
          rw [run_nextBlock] at hnext
          cases hnext
          rfl
        refine ⟨ha₂.coherent, hn₂, hd, fun F' g hg => ?_, fun F f hf => ?_⟩
        · obtain ⟨m, hm, hle, -⟩ := (Transit.arrives_nextBlock hc hcur hnext).mp hg
          exact hm.le_right hle
        · have hF' : ∀ i < b₁.drafts.size, Function.update F k f i = F i := fun i hi => by
            rw [Function.update_of_ne (Nat.ne_of_lt (hk ▸ hi))]
          refine ⟨Function.update F k f, hF', (Transit.arrives_nextBlock hc hcur hnext).mpr ?_⟩
          rw [Function.update_self]
          exact ⟨f, (Transit.arrives_congr hc hF').mpr hf, le_refl f, le_refl f⟩
    have hplace {F' : BlockId → Fact} {f' : Fact} :
        A.Arrives F' b' f' ↔ ∃ f, A.Arrives F' { b₂ with current := some k } f ∧
          A.Takes b₂.nodes.size kind f f' ∧ A.caught (F' k) ≤ F' exceptionalExitId := by
      rw [hb', ← hcaught (F' k) f']
      exact Transit.arrives_place hcoherent _ _ rfl hd rfl rfl trivial
    have hlabel {F' : BlockId → Fact} {f : Fact}
        (h : A.Arrives F' { b₂ with current := some k } f) : F' k ≤ f := by
      obtain ⟨-, c, d, hcur, hd', halong⟩ := h
      cases hcur
      cases hd.symm.trans hd'
      exact halong
    refine ⟨⟨R₂, ha⟩, hs, by simp [hb', hn₂], by simp [hb'], by rw [hn₂], fun F f' hF => ?_⟩
    have hlost {F' : BlockId → Fact} (hF' : ∀ i < b₁.drafts.size, F' i = F i) :
        F' exceptionalExitId = A.lost := (hF' _ hc.designated).trans hF
    constructor
    · rintro ⟨F', hF', harrives⟩
      obtain ⟨f, hf, htakes, hle⟩ := hplace.mp harrives
      exact ⟨F' k, (Transit.arrives_congr hc hF').mp (hback F' f hf), hlost hF' ▸ hle,
        hn₂ ▸ htakes.le_left (hlabel hf)⟩
    · rintro ⟨f, hf, hle, htakes⟩
      obtain ⟨F', hF', hf⟩ := hforth F f hf
      refine ⟨F', hF', hplace.mpr ⟨f, hf, hn₂.symm ▸ htakes, ?_⟩⟩
      exact (A.caught_mono (hlabel hf)).trans (hle.trans_eq (hlost hF').symm)

end Conveys

/-- A test of a value. -/
theorem Forks.ofValue {v : Build NodeId} {id : NodeId} {course : Fact → Fact → Prop}
    (hv : Conveys A σ v first n id course)
    (hrests : ∀ {R : Registry} {b b' : Building} {id : NodeId}, b.Coherent R →
      v.run b = .ok (id, b') → b'.Rests id) :
    Forks A σ (fun t e => do branch (← v) t e) first n
      fun f t e => ∃ m, course f m ∧ A.Branches m t e where
  run {R b b' t e} hc hσ hfirst hcur ht he h := by
    obtain ⟨id, b₁, h₁, h₂⟩ := run_bind.mp h
    obtain ⟨⟨R₁, ha₁⟩, hs₁, hsize₁, -, rfl, hrun⟩ := hv.run hc hσ hfirst hcur h₁
    have hle := ha₁.grows.size_le
    have hrests₁ := hrests hc h₁
    obtain ⟨ha₂, hs₂, -⟩ := branch_spec ha₁.coherent hrests₁ (Nat.lt_of_lt_of_le ht hle)
      (Nat.lt_of_lt_of_le he hle) h₂
    have hnodes : b'.nodes = b₁.nodes := by
      obtain ⟨k, b₂, h₃, h₄⟩ := run_branch hrests₁ h₂
      rw [run_newDraft] at h₃
      rw [run_closeWith] at h₄
      cases h₃
      cases h₄
      rfl
    refine ⟨⟨R₁, ha₁.trans ha₂⟩, hs₂.trans hs₁, by rw [hnodes, hsize₁], fun F hF => ?_⟩
    have hbranch {F' : BlockId → Fact} := Transit.labels_branch (A := A) (F := F') ha₁.coherent
      hrests₁ (Nat.lt_of_lt_of_le ht hle) (Nat.lt_of_lt_of_le he hle) h₂
    constructor
    · rintro ⟨F', hF', hlabels⟩
      obtain ⟨m, hm, hleft, htrue, hfalse⟩ := hbranch.mp hlabels
      obtain ⟨f, hf, hcourse⟩ := (hrun F m hF).mp ⟨F', hF', hm⟩
      exact ⟨f, hf, m, hcourse, _, hleft, hF' t ht ▸ htrue, hF' e he ▸ hfalse⟩
    · rintro ⟨f, hf, m, hcourse, x, hleft, htrue, hfalse⟩
      obtain ⟨F₁, hF₁, hm⟩ := (hrun F m hF).mpr ⟨f, hf, hcourse⟩
      have hF' : ∀ i < b₁.drafts.size, Function.update F₁ b₁.drafts.size x i = F₁ i :=
        fun i hi => Function.update_of_ne (Nat.ne_of_lt hi) ..
      refine .trans hle ⟨F₁, hF₁, Function.update F₁ b₁.drafts.size x, hF', hbranch.mpr ?_⟩
      rw [Function.update_self, hF' t (Nat.lt_of_lt_of_le ht hle),
        hF' e (Nat.lt_of_lt_of_le he hle), hF₁ t ht, hF₁ e he]
      exact ⟨m, (Transit.arrives_congr ha₁.coherent hF').mpr hm, hleft, htrue, hfalse⟩

end FlowTyping
