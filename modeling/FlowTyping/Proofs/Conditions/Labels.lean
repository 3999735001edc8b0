import FlowTyping.Proofs.Lowering.Values
import Mathlib.Order.WithBot

/-!
Labels of the blocks of a construction. The label of a block is a fact that holds before it; its
nodes take the fact on, and what comes to an exit is at or below the labels of the targets.
-/

namespace FlowTyping

/-- How facts pass through code. A node takes a fact to another one; a test gives a fact for each
outcome, and the clauses that catch see something of the fact before the raising node. What no
clause catches is lost. -/
structure Transit (Fact : Type) [Preorder Fact] where
  step : NodeId → NodeKind → Fact → Fact → Prop
  whenTrue : Fact → Fact
  whenFalse : Fact → Fact
  caught : Fact → Fact
  caught_mono : Monotone caught
  lost : Fact

theorem Array.forall_push {α : Type} {xs : Array α} {x : α} {P : Nat → α → Prop} :
    (∀ (i : Nat) (a : α), (xs.push x)[i]? = some a → P i a) ↔
      (∀ (i : Nat) (a : α), xs[i]? = some a → P i a) ∧ P xs.size x := by
  constructor
  · intro h
    refine ⟨fun i a ha => h i a ?_, h _ _ (by simp)⟩
    have hne : i ≠ xs.size := Nat.ne_of_lt (Array.getElem?_eq_some_iff.mp ha).1
    simp [Array.getElem?_push, hne, ha]
  · rintro ⟨h, hx⟩ i a ha
    rw [Array.getElem?_push] at ha
    split at ha
    · rename_i hi
      cases ha
      exact hi ▸ hx
    · exact h i a ha

theorem Array.forall_modify {α : Type} {xs : Array α} {c : Nat} {x : α} {f : α → α}
    {P : Nat → α → Prop} (hx : xs[c]? = some x) :
    (∀ (i : Nat) (a : α), (xs.modify c f)[i]? = some a → P i a) ↔
      (∀ (i : Nat) (a : α), i ≠ c → xs[i]? = some a → P i a) ∧ P c (f x) := by
  simp only [Array.getElem?_modify]
  constructor
  · intro h
    refine ⟨fun i a hi ha => h i a (by simp [Ne.symm hi, ha]), h c _ (by simp [hx])⟩
  · rintro ⟨h, hc⟩ i a ha
    split at ha
    · rename_i hi
      subst hi
      rw [hx] at ha
      cases ha
      exact hc
    · rename_i hi
      exact h i a (fun heq => hi heq.symm) ha

namespace Transit

variable {Fact : Type} [Preorder Fact] (A : Transit Fact)

/-- A node takes a fact at or above one to a fact at or below another one. -/
def Takes (id : NodeId) (kind : NodeKind) (f f' : Fact) : Prop :=
  ∃ m m', f ≤ m ∧ A.step id kind m m' ∧ m' ≤ f'

/-- A node that raises takes a fact on, and what would be caught is lost. -/
def Raises (id : NodeId) (kind : NodeKind) (f f' : Fact) : Prop :=
  A.caught f ≤ A.lost ∧ A.Takes id kind f f'

/-- A test of a fact at or above one leads to facts for its outcomes. -/
def Branches (f t e : Fact) : Prop := ∃ m, f ≤ m ∧ A.whenTrue m ≤ t ∧ A.whenFalse m ≤ e

/-- Nodes take a fact to another one. -/
def Along (nodes : Array Node) : List NodeId → Fact → Fact → Prop
  | [], f, f' => f ≤ f'
  | id :: rest, f, f' =>
      ∃ n m, nodes[id]? = some n ∧ A.Takes id n.kind f m ∧ Along nodes rest m f'

/-- What leaves a block is at or below the labels of its targets. -/
def Sends (F : BlockId → Fact) (before after : Fact) : Exits → Prop
  | .openEnd => True
  | .goto target => after ≤ F target
  | .branch _ thenSuccessor elseSuccessor =>
      A.whenTrue before ≤ F thenSuccessor ∧ A.whenFalse before ≤ F elseSuccessor
  | .raise successor handlers _ =>
      (∀ t ∈ successor, after ≤ F t) ∧ ∀ h ∈ handlers, A.caught before ≤ F h.2
  | .special _ successor => ∀ t ∈ successor, A.caught before ≤ F t

/-- A block respects the labels. -/
def Respects (nodes : Array Node) (F : BlockId → Fact) (block : BlockId) (d : Draft) : Prop :=
  ∃ after, A.Along nodes d.nodes (F block) after ∧ A.Sends F (F block) after d.exits

/-- All blocks of a construction respect the labels. -/
def Labels (F : BlockId → Fact) (b : Building) : Prop :=
  ∀ (i : Nat) (d : Draft), b.drafts[i]? = some d → A.Respects b.nodes F i d

/-- All blocks respect the labels, and the nodes of the current one take its label to a fact. -/
structure Arrives (F : BlockId → Fact) (b : Building) (f : Fact) : Prop where
  labels : A.Labels F b
  current : ∃ (c : Nat) (d : Draft), b.current = some c ∧ b.drafts[c]? = some d ∧
    A.Along b.nodes d.nodes (F c) f

variable {A} {F F' : BlockId → Fact} {R : Registry} {b b' : Building} {f f' g t e : Fact}
  {nodes : Array Node} {ids ids' : List NodeId} {id : NodeId} {kind : NodeKind} {u : Unit}

theorem Takes.le_left (h : A.Takes id kind f f') (hg : g ≤ f) : A.Takes id kind g f' := by
  obtain ⟨m, m', hm, hstep, hm'⟩ := h
  exact ⟨m, m', hg.trans hm, hstep, hm'⟩

theorem Takes.le_right (h : A.Takes id kind f f') (hg : f' ≤ g) : A.Takes id kind f g := by
  obtain ⟨m, m', hm, hstep, hm'⟩ := h
  exact ⟨m, m', hm, hstep, hm'.trans hg⟩

theorem Along.le_left (h : A.Along nodes ids f f') (hg : g ≤ f) : A.Along nodes ids g f' := by
  cases ids with
  | nil => exact hg.trans h
  | cons id rest =>
      obtain ⟨n, m, hn, htakes, hrest⟩ := h
      exact ⟨n, m, hn, htakes.le_left hg, hrest⟩

theorem Along.le_right (h : A.Along nodes ids f f') (hg : f' ≤ g) : A.Along nodes ids f g := by
  induction ids generalizing f with
  | nil => exact le_trans h hg
  | cons id rest ih =>
      obtain ⟨n, m, hn, htakes, hrest⟩ := h
      exact ⟨n, m, hn, htakes, ih hrest⟩

theorem along_append : A.Along nodes (ids ++ ids') f f' ↔
    ∃ m, A.Along nodes ids f m ∧ A.Along nodes ids' m f' := by
  induction ids generalizing f with
  | nil =>
      constructor
      · exact fun h => ⟨f, le_refl f, h⟩
      · rintro ⟨m, hm, h⟩
        exact h.le_left hm
  | cons id rest ih =>
      constructor
      · rintro ⟨n, m, hn, htakes, h⟩
        obtain ⟨m', hrest, h⟩ := ih.mp h
        exact ⟨m', ⟨n, m, hn, htakes, hrest⟩, h⟩
      · rintro ⟨m', ⟨n, m, hn, htakes, hrest⟩, h⟩
        exact ⟨n, m, hn, htakes, ih.mpr ⟨m', hrest, h⟩⟩

theorem along_singleton {n : Node} (hn : nodes[id]? = some n) :
    A.Along nodes [id] f f' ↔ A.Takes id n.kind f f' := by
  constructor
  · rintro ⟨n', m, hn', htakes, hm⟩
    cases hn.symm.trans hn'
    exact htakes.le_right hm
  · exact fun h => ⟨n, f', hn, h, le_refl f'⟩

/-- A new node is none of those before it. -/
theorem along_push {n : Node} (hids : ∀ id ∈ ids, id < nodes.size) :
    A.Along (nodes.push n) ids f f' ↔ A.Along nodes ids f f' := by
  induction ids generalizing f with
  | nil => exact Iff.rfl
  | cons id rest ih =>
      obtain ⟨hid, hrest⟩ := List.forall_mem_cons.mp hids
      have hsame : (nodes.push n)[id]? = nodes[id]? := by
        simp [Array.getElem?_push, Nat.ne_of_lt hid]
      simp only [Along, hsame, ih hrest]

/-- Only the labels of the targets matter. -/
theorem sends_congr {exits : Exits} (h : ∀ t ∈ exits.targets, F' t = F t) :
    A.Sends F' f f' exits ↔ A.Sends F f f' exits := by
  cases exits with
  | openEnd => exact Iff.rfl
  | goto target => simp only [Sends, h target (by simp [Exits.targets])]
  | branch condition x y =>
      simp only [Sends, h x (by simp [Exits.targets]), h y (by simp [Exits.targets])]
  | raise successor handlers terminal =>
      have hs : ∀ t ∈ successor, F' t = F t := fun t ht => h t (by simp_all [Exits.targets])
      have hh : ∀ p ∈ handlers, F' p.2 = F p.2 := fun p hp =>
        h p.2 (List.mem_append_right _ (List.mem_map_of_mem hp))
      simp +contextual only [Sends, hs, hh]
  | special kind successor =>
      have hs : ∀ t ∈ successor, F' t = F t := fun t ht => h t (by simp_all [Exits.targets])
      simp +contextual only [Sends, hs]

/-- Only the labels of the blocks that there are matter. -/
theorem labels_congr (hc : b.Coherent R) (h : ∀ i < b.drafts.size, F' i = F i) :
    A.Labels F' b ↔ A.Labels F b := by
  refine forall₃_congr fun i d hd => ?_
  have hi := h i (Array.getElem?_eq_some_iff.mp hd).1
  simp only [Respects, hi, sends_congr fun t ht => h t (hc.targets i d hd t ht)]

theorem arrives_congr (hc : b.Coherent R) (h : ∀ i < b.drafts.size, F' i = F i) :
    A.Arrives F' b f ↔ A.Arrives F b f := by
  have hcurrent : (∃ (c : Nat) (d : Draft), b.current = some c ∧ b.drafts[c]? = some d ∧
      A.Along b.nodes d.nodes (F' c) f) ↔ ∃ (c : Nat) (d : Draft), b.current = some c ∧
      b.drafts[c]? = some d ∧ A.Along b.nodes d.nodes (F c) f := by
    refine exists_congr fun c => exists_congr fun d => and_congr_right fun _ => ?_
    refine and_congr_right fun hd => ?_
    rw [h c (Array.getElem?_eq_some_iff.mp hd).1]
  constructor
  · exact fun ⟨hlabels, hcur⟩ => ⟨(labels_congr hc h).mp hlabels, hcurrent.mp hcur⟩
  · exact fun ⟨hlabels, hcur⟩ => ⟨(labels_congr hc h).mpr hlabels, hcurrent.mpr hcur⟩

theorem Arrives.le_right (h : A.Arrives F b f) (hg : f ≤ g) : A.Arrives F b g := by
  obtain ⟨hlabels, c, d, hcur, hd, halong⟩ := h
  exact ⟨hlabels, c, d, hcur, hd, halong.le_right hg⟩

/-! What the operations of a construction ask of the labels. -/

theorem labels_newDraft {exits : Exits} {k : Nat}
    (h : (Build.newDraft exits).run b = .ok (k, b')) :
    A.Labels F b' ↔ A.Labels F b ∧ ∃ after, F k ≤ after ∧ A.Sends F (F k) after exits := by
  rw [Build.run_newDraft] at h
  cases h
  exact Array.forall_push

theorem labels_newBlock {k : Nat} (h : Build.newBlock.run b = .ok (k, b')) :
    A.Labels F b' ↔ A.Labels F b := by
  rw [labels_newDraft h]
  exact ⟨And.left, fun hb => ⟨hb, F k, le_refl _, trivial⟩⟩

theorem arrives_newDraft (hc : b.Coherent R) {exits : Exits} {k : Nat}
    (h : (Build.newDraft exits).run b = .ok (k, b')) :
    A.Arrives F b' f ↔ A.Arrives F b f ∧ ∃ after, F k ≤ after ∧ A.Sends F (F k) after exits := by
  have hlabels := labels_newDraft (A := A) (F := F) h
  rw [Build.run_newDraft] at h
  cases h
  have hkept {c : Nat} (hcur : b.current = some c) :
      (b.drafts.push ⟨[], exits⟩)[c]? = b.drafts[c]? := by
    obtain ⟨d, hd, -⟩ := hc.current c hcur
    simp [Array.getElem?_push, Nat.ne_of_lt (Array.getElem?_eq_some_iff.mp hd).1]
  constructor
  · rintro ⟨hb, c, d, hcur, hd, halong⟩
    exact ⟨⟨(hlabels.mp hb).1, c, d, hcur, (hkept hcur).symm.trans hd, halong⟩,
      (hlabels.mp hb).2⟩
  · rintro ⟨⟨hb, c, d, hcur, hd, halong⟩, hsends⟩
    exact ⟨hlabels.mpr ⟨hb, hsends⟩, c, d, hcur, (hkept hcur).trans hd, halong⟩

theorem arrives_newBlock (hc : b.Coherent R) {k : Nat} (h : Build.newBlock.run b = .ok (k, b')) :
    A.Arrives F b' f ↔ A.Arrives F b f := by
  rw [arrives_newDraft hc h]
  exact ⟨And.left, fun hb => ⟨hb, F k, le_refl _, trivial⟩⟩

/-- The current block is connected. -/
theorem labels_closeWith (hc : b.Coherent R) (hcur : b.current ≠ none) {k : Nat}
    (h : (Build.closeWith k).run b = .ok (u, b')) :
    A.Labels F b' ↔ ∃ f, A.Arrives F b f ∧ f ≤ F k := by
  obtain ⟨c, hcur⟩ := Option.ne_none_iff_exists'.mp hcur
  obtain ⟨d, hd, hpending⟩ := hc.current c hcur
  rw [Build.run_closeWith] at h
  simp only [hcur] at h
  cases h
  refine (Array.forall_modify hd (P := fun i d => A.Respects b.nodes F i d)).trans ?_
  have hrest : (∀ (i : Nat) (d : Draft), b.drafts[i]? = some d → A.Respects b.nodes F i d) ↔
      (∀ (i : Nat) (d : Draft), i ≠ c → b.drafts[i]? = some d → A.Respects b.nodes F i d) ∧
        A.Respects b.nodes F c d := by
    constructor
    · exact fun h => ⟨fun i d _ hd => h i d hd, h c d hd⟩
    · rintro ⟨h, hcurrent⟩ i d' hd'
      by_cases hi : i = c
      · subst hi
        cases hd.symm.trans hd'
        exact hcurrent
      · exact h i d' hi hd'
  have hlink {after : Fact} : A.Sends F (F c) after (d.exits.link k) ↔
      A.Sends F (F c) after d.exits ∧ after ≤ F k := by
    rcases hpending.eq_or with hopen | ⟨handlers, hraise⟩
    · simp [hopen, Exits.link, Sends]
    · simp [hraise, Exits.link, Sends, and_comm]
  have hfree {after after' : Fact} (h : A.Sends F (F c) after d.exits) :
      A.Sends F (F c) after' d.exits := by
    rcases hpending.eq_or with hopen | ⟨handlers, hraise⟩
    · simp [hopen, Sends]
    · simpa [hraise, Sends] using h
  constructor
  · rintro ⟨hothers, after, halong, hsends⟩
    obtain ⟨hsends, hle⟩ := hlink.mp hsends
    exact ⟨after, ⟨hrest.mpr ⟨hothers, after, halong, hsends⟩, c, d, hcur, hd, halong⟩, hle⟩
  · rintro ⟨f, ⟨hlabels, c', d', hcur', hd', halong⟩, hle⟩
    cases hcur.symm.trans hcur'
    cases hd.symm.trans hd'
    obtain ⟨hothers, after, -, hsends⟩ := hrest.mp hlabels
    exact ⟨hothers, f, halong, hlink.mpr ⟨hfree hsends, hle⟩⟩

/-- A waiting block is taken as the current one. -/
theorem arrives_enter {k : Nat} (hk : b.Fresh k)
    (h : (Build.setCurrent (some k)).run b = .ok (u, b')) :
    A.Arrives F b' f ↔ A.Labels F b ∧ F k ≤ f := by
  rw [Build.run_setCurrent] at h
  cases h
  constructor
  · rintro ⟨hlabels, c, d, hcur, hd, halong⟩
    cases hcur
    cases hk.1.symm.trans hd
    exact ⟨hlabels, halong⟩
  · rintro ⟨hlabels, hle⟩
    exact ⟨hlabels, k, _, rfl, hk.1, hle⟩

/-- A test of the node emitted last. -/
theorem labels_branch (hc : b.Coherent R) (hrests : b.Rests id) {x y : Nat}
    (hx : x < b.drafts.size) (hy : y < b.drafts.size)
    (h : (Build.branch id x y).run b = .ok (u, b')) :
    A.Labels F b' ↔ ∃ f, A.Arrives F b f ∧ f ≤ F b.drafts.size ∧
      A.whenTrue (F b.drafts.size) ≤ F x ∧ A.whenFalse (F b.drafts.size) ≤ F y := by
  obtain ⟨k, b₁, h₁, h₂⟩ := Build.run_branch hrests h
  obtain ⟨ha, -, -, -, rfl, -⟩ := Build.newDraft_spec hc (by simp [Exits.targets, hx, hy]) h₁
  have hcur : b₁.current ≠ none := by
    obtain ⟨n, -, hn⟩ := hrests
    rw [Build.run_newDraft] at h₁
    cases h₁
    simp [hn]
  rw [labels_closeWith ha.coherent hcur h₂]
  refine exists_congr fun f => ?_
  rw [arrives_newDraft hc h₁, and_assoc, and_congr_right_iff]
  intro _
  constructor
  · rintro ⟨⟨_, -, hsends⟩, hle⟩
    exact ⟨hle, hsends⟩
  · rintro ⟨hle, hsends⟩
    exact ⟨⟨_, le_refl _, hsends⟩, hle⟩

/-- The next block is a new one to which the current one leads. -/
theorem arrives_nextBlock (hc : b.Coherent R) (hcur : b.current ≠ none) {k : Nat}
    (h : Build.nextBlock.run b = .ok (k, b')) :
    A.Arrives F { b' with current := some k } f ↔ ∃ g, A.Arrives F b g ∧ g ≤ F k ∧ F k ≤ f := by
  obtain ⟨b₁, b₂, h₁, h₂, h₃⟩ := Build.run_nextBlock_current h
  have ho := hc.opens h₁
  have hcur₁ : b₁.current ≠ none := by
    rw [Build.newBlock, Build.run_newDraft] at h₁
    cases h₁
    exact hcur
  have hk : k < b₁.drafts.size := by
    have := ho.size
    omega
  obtain ⟨ha, -⟩ := Build.closeWith_spec ho.advances.coherent hk h₂
  rw [arrives_enter (ha.grows.waits ho.fresh (by simp)) h₃,
    labels_closeWith ho.advances.coherent hcur₁ h₂]
  simp only [arrives_newBlock hc h₁, and_assoc, ← exists_and_right]

/-- A node is placed in the current block, whose exit is decided with it. -/
theorem arrives_place (hc : b.Coherent R) {k : Nat} {d : Draft} (φ : Draft → Draft) (exits : Exits)
    (hcur : b.current = some k) (hd : b.drafts[k]? = some d) (hopen : d.exits = .openEnd)
    (hφ : φ d = ⟨d.nodes ++ [b.nodes.size], exits⟩) (hexits : exits.Pending) :
    A.Arrives F { b with
      nodes := b.nodes.push ⟨b.nodes.size, k, kind⟩
      drafts := b.drafts.modify k φ } f' ↔
    ∃ f, A.Arrives F b f ∧ A.Takes b.nodes.size kind f f' ∧ A.Sends F (F k) f' exits := by
  have hlisted {i : Nat} {d : Draft} (hd : b.drafts[i]? = some d) :
      ∀ id ∈ d.nodes, id < b.nodes.size := by
    intro id hid
    obtain ⟨n, hn, -⟩ := (hc.listed i d hd).2 id hid
    exact (Array.getElem?_eq_some_iff.mp hn).1
  have hfree {x after after' : Fact} (h : A.Sends F x after exits) : A.Sends F x after' exits := by
    rcases hexits.eq_or with rfl | ⟨handlers, rfl⟩
    · trivial
    · simpa [Sends] using h
  have halong {g : Fact} : A.Along (b.nodes.push ⟨b.nodes.size, k, kind⟩)
      (d.nodes ++ [b.nodes.size]) (F k) g ↔
      ∃ f, A.Along b.nodes d.nodes (F k) f ∧ A.Takes b.nodes.size kind f g := by
    rw [along_append]
    refine exists_congr fun f => and_congr (along_push (hlisted hd)) ?_
    exact along_singleton (n := ⟨b.nodes.size, k, kind⟩) (by simp)
  have hothers : (∀ (i : Nat) (d : Draft), i ≠ k → b.drafts[i]? = some d →
      A.Respects (b.nodes.push ⟨b.nodes.size, k, kind⟩) F i d) ↔
      ∀ (i : Nat) (d : Draft), i ≠ k → b.drafts[i]? = some d → A.Respects b.nodes F i d := by
    refine forall₂_congr fun i d => forall₂_congr fun _ hd => exists_congr fun after => ?_
    rw [along_push (hlisted hd)]
  have hlabels : A.Labels F { b with
      nodes := b.nodes.push ⟨b.nodes.size, k, kind⟩
      drafts := b.drafts.modify k φ } ↔ _ :=
    (Array.forall_modify hd (f := φ)
      (P := fun i d => A.Respects (b.nodes.push ⟨b.nodes.size, k, kind⟩) F i d)).trans
      (and_congr_left' hothers)
  constructor
  · rintro ⟨hall, c, d', hcur', hd', hto⟩
    cases hcur.symm.trans hcur'
    obtain rfl : d' = φ d := by simpa [Array.getElem?_modify, hd] using hd'.symm
    obtain ⟨hrest, after, -, hsends⟩ := hlabels.mp hall
    rw [hφ] at hto hsends
    obtain ⟨f, hf, htakes⟩ := halong.mp hto
    refine ⟨f, ⟨fun i x hx => ?_, k, d, hcur, hd, hf⟩, htakes, hfree hsends⟩
    by_cases hi : i = k
    · subst hi
      cases hd.symm.trans hx
      exact ⟨f, hf, by rw [hopen]; trivial⟩
    · exact hrest i x hi hx
  · rintro ⟨f, ⟨hall, c, d', hcur', hd', hf⟩, htakes, hsends⟩
    cases hcur.symm.trans hcur'
    cases hd.symm.trans hd'
    have hto := halong.mpr ⟨f, hf, htakes⟩
    refine ⟨hlabels.mpr ⟨fun i d _ hd => hall i d hd, f', ?_⟩, k, φ d, hcur, ?_, ?_⟩
    · rw [hφ]
      exact ⟨hto, hsends⟩
    · simp [Array.getElem?_modify, hd]
    · rw [hφ]
      exact hto

theorem arrives_pushNode (hc : b.Coherent R) {k : Nat} {d : Draft} (hcur : b.current = some k)
    (hd : b.drafts[k]? = some d) (hopen : d.exits = .openEnd)
    (h : (Build.pushNode k kind).run b = .ok (id, b')) :
    A.Arrives F b' f' ↔ ∃ f, A.Arrives F b f ∧ A.Takes b.nodes.size kind f f' := by
  rw [Build.run_pushNode] at h
  cases h
  refine (arrives_place hc (fun d => { d with nodes := d.nodes ++ [b.nodes.size] }) .openEnd hcur
    hd hopen (by rw [hopen]) trivial).trans ?_
  exact exists_congr fun f => and_congr_right fun _ => and_iff_left trivial

end Transit

end FlowTyping
