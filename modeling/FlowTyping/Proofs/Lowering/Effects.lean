import FlowTyping.Proofs.Lowering.Growth

/-!
What the operations of a construction do: how they advance its state, and what they
leave at a place of every layout that completes it.
-/

namespace FlowTyping

namespace Build

variable {α β : Type}

theorem run_bind {m : Build α} {f : α → Build β} {b b' : Building} {c : β} :
    (m >>= f).run b = .ok (c, b') ↔
      ∃ a b₁, m.run b = .ok (a, b₁) ∧ (f a).run b₁ = .ok (c, b') := by
  simp only [StateT.run_bind]
  cases h : m.run b with
  | error e => simp [bind, Except.bind]
  | ok r =>
      constructor
      · intro h'
        exact ⟨r.1, r.2, rfl, h'⟩
      · rintro ⟨a, b₁, hr, h'⟩
        cases hr
        exact h'

theorem run_pure {a a' : α} {b b' : Building} :
    (pure a : Build α).run b = .ok (a', b') ↔ a = a' ∧ b = b' := by
  change (Except.ok (a, b) : Except GraphError (α × Building)) = .ok (a', b') ↔ _
  simp

theorem run_throw {e : GraphError} {b : Building} {r : α × Building} :
    ((throw e : Build α).run b = .ok r) ↔ False := by
  change (Except.error e : Except GraphError (α × Building)) = .ok r ↔ False
  simp

theorem run_discard {m : Build α} {b b' : Building} {u : Unit} :
    (discard m).run b = .ok (u, b') ↔ ∃ a, m.run b = .ok (a, b') := by
  change (m >>= fun _ => pure ()).run b = .ok (u, b') ↔ _
  simp only [run_bind, run_pure]
  constructor
  · rintro ⟨a, b₁, h, -, rfl⟩
    exact ⟨a, h⟩
  · rintro ⟨a, h⟩
    exact ⟨a, b', h, trivial, rfl⟩

theorem run_get {a b b' : Building} :
    (get : Build Building).run b = .ok (a, b') ↔ b = a ∧ b = b' := by
  change (Except.ok (b, b) : Except GraphError (Building × Building)) = .ok (a, b') ↔ _
  simp

theorem run_modify {f : Building → Building} {b b' : Building} {u : Unit} :
    (modify f : Build Unit).run b = .ok (u, b') ↔ f b = b' := by
  change (Except.ok ((), f b) : Except GraphError (Unit × Building)) = .ok (u, b') ↔ _
  simp

theorem run_draft {block : BlockId} {b b' : Building} {d : Draft} :
    (draft block).run b = .ok (d, b') ↔ b.drafts.getD block default = d ∧ b = b' := by
  change (Except.ok (b.drafts.getD block default, b) :
    Except GraphError (Draft × Building)) = .ok (d, b') ↔ _
  simp

theorem run_newDraft (exits : Exits) (b : Building) :
    (newDraft exits).run b =
      .ok (b.drafts.size, { b with drafts := b.drafts.push ⟨[], exits⟩ }) := rfl

theorem run_setCurrent (block : Option BlockId) (b : Building) :
    (setCurrent block).run b = .ok ((), { b with current := block }) := rfl

theorem run_link (source target : BlockId) (b : Building) :
    (link source target).run b = .ok ((), { b with
      drafts := b.drafts.modify source fun d => { d with exits := d.exits.link target } }) :=
  rfl

theorem run_closeWith (target : BlockId) (b : Building) :
    (closeWith target).run b = .ok ((), { b with
      current := none
      drafts := match b.current with
        | none => b.drafts
        | some c => b.drafts.modify c fun d =>
            { d with exits := d.exits.link target } }) := by
  rcases b with ⟨drafts, nodes, _ | c, scopes, nextFinal, finalPaths⟩ <;> rfl

theorem run_pushNode (block : BlockId) (kind : NodeKind) (b : Building) :
    (pushNode block kind).run b = .ok (b.nodes.size, { b with
      nodes := b.nodes.push ⟨b.nodes.size, block, kind⟩
      drafts := b.drafts.modify block fun d =>
        { d with nodes := d.nodes ++ [b.nodes.size] } }) := rfl

theorem run_nextBlock (b : Building) :
    nextBlock.run b = .ok (b.drafts.size, { b with
      drafts := match b.current with
        | none => b.drafts.push ⟨[], .openEnd⟩
        | some c => (b.drafts.push ⟨[], .openEnd⟩).modify c fun d =>
            { d with exits := d.exits.link b.drafts.size } }) := by
  rcases b with ⟨drafts, nodes, _ | c, scopes, nextFinal, finalPaths⟩ <;> rfl

end Build

namespace Building

variable {S : List Nat} {R : Registry} {b b' : Building}

namespace Grows

theorem push (exits : Exits) :
    b.Grows S { b with drafts := b.drafts.push ⟨[], exits⟩ } where
  draft i d hd := by
    refine ⟨d, ?_, .refl d⟩
    have := (Array.getElem?_eq_some_iff.mp hd).1
    simp [Array.getElem?_push, hd]
    omega
  kept i hi _ _ := by
    have hne : i ≠ b.drafts.size := by omega
    simp [Array.getElem?_push, hne]
  current _ h := .inl h
  node _ _ h := h

theorem modify {i : BlockId} {f : Draft → Draft} (hi : b.current = some i ∨ i ∈ S)
    (hf : ∀ d, b.drafts[i]? = some d → d.GrowsTo (f d)) :
    b.Grows S { b with drafts := b.drafts.modify i f } where
  draft j d hd := by
    by_cases hij : i = j
    · subst hij
      exact ⟨f d, by simp [Array.getElem?_modify, hd], hf d hd⟩
    · exact ⟨d, by simp [Array.getElem?_modify, hij, hd], .refl d⟩
  kept j _ hcur hS := by
    have hij : i ≠ j := by
      rintro rfl
      exact hi.elim hcur hS
    simp [Array.getElem?_modify, hij]
  current _ h := .inl h
  node _ _ h := h

theorem setCurrent {t : Option BlockId}
    (h : ∀ i : Nat, t = some i → b.current = some i ∨ i ∈ S ∨ b.drafts.size ≤ i) :
    b.Grows S { b with current := t } where
  draft _ d hd := ⟨d, hd, .refl d⟩
  kept _ _ _ _ := rfl
  current := h
  node _ _ h := h

theorem pushNode (n : Node) : b.Grows S { b with nodes := b.nodes.push n } where
  draft _ d hd := ⟨d, hd, .refl d⟩
  kept _ _ _ _ := rfl
  current _ h := .inl h
  node i m hm := by
    have := (Array.getElem?_eq_some_iff.mp hm).1
    have hne : i ≠ b.nodes.size := by omega
    simp [Array.getElem?_push, hne, hm]

end Grows

/-- What growth leaves to show of a coherent state when the cache is as before. -/
theorem Coherent.of_grows (hc : b.Coherent R) (hg : b.Grows S b')
    (hpaths : b'.finalPaths = b.finalPaths) (hnext : b'.nextFinal = b.nextFinal)
    (current : ∀ c : Nat, b'.current = some c →
      ∃ d : Draft, b'.drafts[c]? = some d ∧ d.exits.Pending)
    (targets : ∀ (i : Nat) (d : Draft), b'.drafts[i]? = some d →
      ∀ t : Nat, t ∈ d.exits.targets → t < b'.drafts.size)
    (listed : ∀ (i : Nat) (d : Draft), b'.drafts[i]? = some d → d.nodes.Pairwise (· < ·) ∧
      ∀ id ∈ d.nodes, ∃ n : Node, b'.nodes[id]? = some n ∧ n.block = i)
    (operands : ∀ (i : Nat) (n : Node), b'.nodes[i]? = some n →
      n.id = i ∧ ∀ o ∈ n.kind.operands, o < i) :
    b'.Coherent R where
  designated := Nat.le_trans hc.designated hg.size_le
  current := current
  targets := targets
  listed := listed
  operands := operands
  registry := by rw [hnext, hc.registry]
  paths e he := by
    rw [hpaths] at he
    obtain ⟨hlt, crossed, hids, hleaves⟩ := hc.paths e he
    exact ⟨Nat.lt_of_lt_of_le hlt hg.size_le, crossed, hids,
      fun D hD => hleaves D (hg.completes hD)⟩

theorem Coherent.push (hc : b.Coherent R) {exits : Exits}
    (hexits : ∀ t : Nat, t ∈ exits.targets → t < b.drafts.size + 1) :
    { b with drafts := b.drafts.push ⟨[], exits⟩ }.Coherent R := by
  refine hc.of_grows (S := []) (.push exits) rfl rfl ?_ ?_ ?_ hc.operands
  · intro c hcur
    obtain ⟨d, hd, hpending⟩ := hc.current c hcur
    refine ⟨d, ?_, hpending⟩
    have := (Array.getElem?_eq_some_iff.mp hd).1
    have hne : c ≠ b.drafts.size := by omega
    simp [Array.getElem?_push, hne, hd]
  · intro i d hd t ht
    simp only [Array.size_push]
    simp only [Array.getElem?_push] at hd
    split at hd
    · cases hd
      exact hexits t ht
    · have := hc.targets i d hd t ht
      omega
  · intro i d hd
    simp only [Array.getElem?_push] at hd
    split at hd
    · cases hd
      simp
    · exact hc.listed i d hd

theorem Coherent.setCurrent (hc : b.Coherent R) {t : Option BlockId}
    (h : ∀ c : Nat, t = some c → ∃ d : Draft, b.drafts[c]? = some d ∧ d.exits.Pending) :
    { b with current := t }.Coherent R where
  designated := hc.designated
  current := h
  targets := hc.targets
  listed := hc.listed
  operands := hc.operands
  registry := hc.registry
  paths e he := by
    obtain ⟨hlt, crossed, hids, hleaves⟩ := hc.paths e he
    exact ⟨hlt, crossed, hids, fun D hD => hleaves D ⟨hD.draft, hD.node⟩⟩

/-- A path is kept for later requests. -/
theorem Coherent.remember (hc : b.Coherent R) {e : (List Nat × BlockId) × BlockId}
    (hlt : (e.2 : Nat) < b.drafts.size)
    (hpath : ∃ crossed, e.1.1.mapM (R[·]?) = some crossed ∧
      ∀ D, b.Completes D → D.Leaves crossed e.1.2 e.2) :
    { b with finalPaths := e :: b.finalPaths }.Coherent R where
  designated := hc.designated
  current := hc.current
  targets := hc.targets
  listed := hc.listed
  operands := hc.operands
  registry := hc.registry
  paths e' he' := by
    rcases List.mem_cons.mp he' with rfl | he'
    · obtain ⟨crossed, hids, hleaves⟩ := hpath
      exact ⟨hlt, crossed, hids, fun D hD => hleaves D ⟨hD.draft, hD.node⟩⟩
    · obtain ⟨hlt', crossed, hids, hleaves⟩ := hc.paths e' he'
      exact ⟨hlt', crossed, hids, fun D hD => hleaves D ⟨hD.draft, hD.node⟩⟩

/-- A connected exit is one that the current block has no use for any more. -/
theorem Coherent.link (hc : b.Coherent R) {source target : Nat}
    (htarget : target < b.drafts.size) (hsource : b.current ≠ some source) :
    { b with drafts := b.drafts.modify source fun d =>
      { d with exits := d.exits.link target } }.Coherent R := by
  refine hc.of_grows (S := [source])
    (.modify (.inr (by simp)) fun d _ => .link d target) rfl rfl ?_ ?_ ?_ hc.operands
  · intro c hcur
    obtain ⟨d, hd, hpending⟩ := hc.current c hcur
    have hne : source ≠ c := by
      rintro rfl
      exact hsource hcur
    exact ⟨d, by simp [Array.getElem?_modify, hne, hd], hpending⟩
  · intro i d hd t ht
    simp only [Array.size_modify]
    simp only [Array.getElem?_modify] at hd
    split at hd
    · obtain ⟨d₀, hd₀, rfl⟩ := Option.map_eq_some_iff.mp hd
      rcases Exits.mem_targets_link ht with ht | rfl
      · exact hc.targets i d₀ hd₀ t ht
      · exact htarget
    · exact hc.targets i d hd t ht
  · intro i d hd
    simp only [Array.getElem?_modify] at hd
    split at hd
    · obtain ⟨d₀, hd₀, rfl⟩ := Option.map_eq_some_iff.mp hd
      exact hc.listed i d₀ hd₀
    · exact hc.listed i d hd

/-- A node is placed in the open current block, whose exit is decided with it. -/
theorem Coherent.place (hc : b.Coherent R) {t : Nat} {d : Draft} {kind : NodeKind}
    {f : Draft → Draft} {e : Exits} {current : Option BlockId}
    (hd : b.drafts[t]? = some d) (hf : f d = ⟨d.nodes ++ [b.nodes.size], e⟩)
    (hexits : ∀ u : Nat, u ∈ e.targets → u < b.drafts.size)
    (hkind : ∀ o ∈ kind.operands, o < b.nodes.size)
    (hnext : current = none ∨ current = some t ∧ e.Pending)
    (hg : b.Grows S { b with
      nodes := b.nodes.push ⟨b.nodes.size, t, kind⟩
      drafts := b.drafts.modify t f
      current := current }) :
    Coherent R { b with
      nodes := b.nodes.push ⟨b.nodes.size, t, kind⟩
      drafts := b.drafts.modify t f
      current := current } := by
  have hpast : ∀ (i : Nat) (n : Node), b.nodes[i]? = some n → i ≠ b.nodes.size := by
    intro i n hn
    exact Nat.ne_of_lt (Array.getElem?_eq_some_iff.mp hn).1
  refine hc.of_grows hg rfl rfl ?_ ?_ ?_ ?_
  · intro c hc'
    rcases hnext with hnone | ⟨hsome, hpending⟩
    · simp [hnone] at hc'
    · obtain rfl : t = c := by simpa [hsome] using hc'
      exact ⟨f d, by simp [Array.getElem?_modify, hd], by rw [hf]; exact hpending⟩
  · intro i d' hd' u hu
    simp only [Array.size_modify]
    simp only [Array.getElem?_modify] at hd'
    split at hd'
    · rename_i heq
      subst heq
      rw [hd] at hd'
      cases hd'
      rw [hf] at hu
      exact hexits u hu
    · exact hc.targets i d' hd' u hu
  · intro i d' hd'
    have hkept : ∀ (id : Nat) (n : Node), b.nodes[id]? = some n →
        (b.nodes.push ⟨b.nodes.size, t, kind⟩)[id]? = some n := by
      intro id n hn
      simp [Array.getElem?_push, hpast id n hn, hn]
    simp only [Array.getElem?_modify] at hd'
    split at hd'
    · rename_i heq
      subst heq
      rw [hd] at hd'
      cases hd'
      obtain ⟨hsorted, hmem⟩ := hc.listed t d hd
      rw [hf]
      constructor
      · rw [List.pairwise_append]
        refine ⟨hsorted, by simp, ?_⟩
        intro a ha b' hb'
        obtain ⟨n, hn, -⟩ := hmem a ha
        rw [List.mem_singleton.mp hb']
        exact (Array.getElem?_eq_some_iff.mp hn).1
      · intro id hid
        rcases List.mem_append.mp hid with hid | hid
        · obtain ⟨n, hn, hblock⟩ := hmem id hid
          exact ⟨n, hkept id n hn, hblock⟩
        · rw [List.mem_singleton.mp hid]
          exact ⟨⟨b.nodes.size, t, kind⟩, by simp, rfl⟩
    · obtain ⟨hsorted, hmem⟩ := hc.listed i d' hd'
      refine ⟨hsorted, fun id hid => ?_⟩
      obtain ⟨n, hn, hblock⟩ := hmem id hid
      exact ⟨n, hkept id n hn, hblock⟩
  · intro i n hn
    simp only [Array.getElem?_push] at hn
    split at hn
    · rename_i heq
      cases hn
      subst heq
      exact ⟨rfl, hkind⟩
    · exact hc.operands i n hn

end Building

namespace Build

open Building

variable {R : Registry} {b b' : Building} {u : Unit}

theorem newDraft_spec {exits : Exits} {t : Nat} (hc : b.Coherent R)
    (hexits : ∀ t : Nat, t ∈ exits.targets → t < b.drafts.size)
    (h : (newDraft exits).run b = .ok (t, b')) :
    Advances [] R b R b' ∧ b'.scopes = b.scopes ∧ b'.here = b.here ∧
      b'.Waits t ⟨[], exits⟩ ∧ t = b.drafts.size ∧ b'.drafts.size = t + 1 := by
  rw [run_newDraft] at h
  cases h
  have hlt : ∀ c : Nat, b.current = some c → c < b.drafts.size := by
    intro c hcur
    obtain ⟨d, hd, -⟩ := hc.current c hcur
    exact (Array.getElem?_eq_some_iff.mp hd).1
  refine ⟨⟨List.prefix_rfl, hc.push fun t ht => Nat.lt_succ_of_lt (hexits t ht),
    .push exits⟩, rfl, ?_, ⟨?_, ?_⟩, rfl, by simp⟩
  · refine here_eq rfl fun c hcur => ?_
    have := Nat.ne_of_lt (hlt c hcur)
    simp [Array.getElem?_push, this]
  · simp
  · exact fun hcur => Nat.lt_irrefl _ (hlt _ hcur)

theorem setCurrent_spec {t : Nat} (hc : b.Coherent R) (ht : b.Fresh t)
    (h : (setCurrent (some t)).run b = .ok (u, b')) :
    Advances [t] R b R b' ∧ b'.scopes = b.scopes ∧ b'.here = some (.startOf t) ∧
      b'.drafts.size = b.drafts.size := by
  rw [run_setCurrent] at h
  cases h
  refine ⟨⟨List.prefix_rfl, hc.setCurrent ?_, .setCurrent ?_⟩, rfl, ?_, rfl⟩
  · rintro c ⟨⟩
    exact ⟨_, ht.1, trivial⟩
  · rintro i ⟨⟩
    simp
  · exact here_of_open (b := { b with current := some t }) rfl ht.1 rfl

theorem closeWith_spec {t : Nat} (hc : b.Coherent R) (ht : t < b.drafts.size)
    (h : (closeWith t).run b = .ok (u, b')) :
    Advances [] R b R b' ∧ b'.scopes = b.scopes ∧ b'.current = none ∧
      b'.drafts.size = b.drafts.size ∧
      ∀ D, b'.Completes D → D.Flows b.here (.startOf t) := by
  rw [run_closeWith] at h
  cases hcur : b.current with
  | none =>
      simp only [hcur] at h
      cases h
      refine ⟨⟨List.prefix_rfl, hc.setCurrent (by simp), .setCurrent (by simp)⟩, rfl, rfl, rfl,
        fun D _ => ?_⟩
      rw [here, hcur]
      exact .dead _
  | some c =>
      simp only [hcur] at h
      cases h
      obtain ⟨d, hd, hpending⟩ := hc.current c hcur
      have hgrows : b.Grows [] { b with
          drafts := b.drafts.modify c fun d => { d with exits := d.exits.link t } } :=
        .modify (.inl hcur) fun d _ => .link d t
      refine ⟨⟨List.prefix_rfl, (hc.setCurrent (t := none) (by simp)).link ht (by simp),
        hgrows.trans (.setCurrent (by simp))⟩, rfl, rfl, by simp, fun D hD => ?_⟩
      obtain ⟨nodes, exits⟩ := d
      have hD' := fun e (he : exits.link t = e) => hD.closed (i := c) (d := ⟨nodes, e⟩)
        (by simp [Array.getElem?_modify, hd, he])
      rcases hpending.eq_or with hopen | ⟨handlers, hraise⟩
      · simp only at hopen
        subst hopen
        rw [here_of_open hcur hd rfl]
        exact .move (.goto (hD' _ rfl (by simp [Draft.GrowsTo])))
      · simp only at hraise
        subst hraise
        rw [here_of_raise hcur hd]
        exact .move (.resume (hD' _ rfl (by simp [Draft.GrowsTo])))

/-! Emitting nodes: a plain node goes to the current block or to a fresh one after it, and
a test closes the block of the node that it reads. -/

/-- The next block taken as the current one is a new block to which control is led. -/
theorem run_nextBlock_current {t : Nat} (h : nextBlock.run b = .ok (t, b')) :
    ∃ b₁ b₂, newBlock.run b = .ok (t, b₁) ∧ (closeWith t).run b₁ = .ok ((), b₂) ∧
      (setCurrent (some t)).run b₂ = .ok ((), { b' with current := some t }) := by
  rw [run_nextBlock] at h
  cases h
  refine ⟨_, _, run_newDraft .openEnd b, run_closeWith _ _, ?_⟩
  rw [run_setCurrent]

theorem nextBlock_spec {t : Nat} (hc : b.Coherent R) (h : nextBlock.run b = .ok (t, b')) :
    Advances [] R b R { b' with current := some t } ∧ b'.scopes = b.scopes ∧
      b'.nodes = b.nodes ∧ b'.drafts[t]? = some ⟨[], .openEnd⟩ ∧
      ∀ D, Completes { b' with current := some t } D → D.Flows b.here (.startOf t) := by
  have hnodes : b'.nodes = b.nodes := by
    rw [run_nextBlock] at h
    cases h
    rfl
  obtain ⟨b₁, b₂, h₁, h₂, h₃⟩ := run_nextBlock_current h
  obtain ⟨ha₁, hs₁, hh₁, hw₁, ht, hsize₁⟩ := newDraft_spec hc (by simp [Exits.targets]) h₁
  obtain ⟨ha₂, hs₂, -, -, hflow⟩ := closeWith_spec ha₁.coherent (by omega) h₂
  have hw₂ := ha₂.grows.waits hw₁ (by simp)
  obtain ⟨ha₃, hs₃, -, -⟩ := setCurrent_spec ha₂.coherent hw₂ h₃
  have hw₃ : b'.drafts[t]? = some ⟨[], .openEnd⟩ := by
    rw [run_setCurrent] at h₃
    have hdrafts : b₂.drafts = b'.drafts := by
      injection h₃ with h₃
      injection h₃ with _ h₃
      injection h₃
    rw [← hdrafts]
    exact hw₂.1
  refine ⟨?_, hs₃.trans (hs₂.trans hs₁), hnodes, hw₃, fun D hD => ?_⟩
  · refine (ha₁.trans ha₂).weaken (T := [t]) (by simp) |>.trans ha₃ |>.weaken ?_
    intro i hi
    simp only [List.mem_singleton] at hi
    omega
  · exact hh₁ ▸ hflow D (ha₃.grows.completes hD)

/-- The block that takes the next node is the current one, if it is open, or else a fresh
one after it. -/
theorem run_openBlock {t : Nat} (h : openBlock.run b = .ok (t, b')) :
    (b' = b ∧ b.current = some t ∧ (b.drafts.getD t default).exits = .openEnd) ∨
      ∃ b₁, nextBlock.run b = .ok (t, b₁) ∧ b' = { b₁ with current := some t } := by
  have hnext (h : (nextBlock >>= fun block => setCurrent (some block) >>= fun _ =>
      pure block).run b = .ok (t, b')) :
      ∃ b₁, nextBlock.run b = .ok (t, b₁) ∧ b' = { b₁ with current := some t } := by
    simp only [run_bind, run_pure] at h
    obtain ⟨_, b₁, h₁, _, b₂, h₂, rfl, rfl⟩ := h
    rw [run_setCurrent] at h₂
    cases h₂
    exact ⟨b₁, h₁, rfl⟩
  rw [openBlock, run_bind] at h
  obtain ⟨b₀, b₁, h₁, h⟩ := h
  obtain ⟨rfl, rfl⟩ := run_get.mp h₁
  dsimp only at h
  split at h
  · rename_i block hcur
    rw [run_bind] at h
    obtain ⟨d, _, hd, h⟩ := h
    obtain ⟨rfl, rfl⟩ := run_draft.mp hd
    split at h
    · rename_i hopen
      obtain ⟨rfl, rfl⟩ := run_pure.mp h
      exact .inl ⟨rfl, hcur, hopen⟩
    · exact .inr (hnext h)
  · exact .inr (hnext h)

theorem openBlock_spec {t : Nat} (hc : b.Coherent R) (h : openBlock.run b = .ok (t, b')) :
    Advances [] R b R b' ∧ b'.scopes = b.scopes ∧ b'.nodes = b.nodes ∧
      b'.current = some t ∧ ∃ d : Draft, b'.drafts[t]? = some d ∧ d.exits = .openEnd ∧
        ∀ D, b'.Completes D → D.Flows b.here (.inside t d.nodes.length) := by
  rcases run_openBlock h with ⟨rfl, hcur, hopen⟩ | ⟨b₁, h₁, rfl⟩
  · obtain ⟨d, hd, hpending⟩ := hc.current t hcur
    simp only [Array.getD_eq_getD_getElem?, hd, Option.getD_some] at hopen
    refine ⟨⟨List.prefix_rfl, hc, .refl [] _⟩, rfl, rfl, hcur, d, hd, hopen, fun D _ => ?_⟩
    rw [here_of_open hcur hd hopen]
    exact .stay _
  · obtain ⟨ha, hs, hn, hd, hflow⟩ := nextBlock_spec hc h₁
    exact ⟨ha, hs, hn, rfl, _, hd, rfl, hflow⟩

theorem emit_spec {kind : NodeKind} {id : NodeId} (hc : b.Coherent R)
    (hkind : ∀ o ∈ kind.operands, o < b.nodes.size)
    (h : (emit kind).run b = .ok (id, b')) :
    Advances [] R b R b' ∧ b'.scopes = b.scopes ∧ b'.Rests id ∧
      ∀ D, b'.Completes D → D.Emits b.here kind id b'.here := by
  rw [emit, run_bind] at h
  obtain ⟨t, b₁, h₁, h₂⟩ := h
  obtain ⟨ha, hs, hn, hcur, d, hd, hopen, hflow⟩ := openBlock_spec hc h₁
  obtain ⟨rfl, hb⟩ : id = b₁.nodes.size ∧ b' = { b₁ with
      nodes := b₁.nodes.push ⟨b₁.nodes.size, t, kind⟩
      drafts := b₁.drafts.modify t fun d =>
        { d with nodes := d.nodes ++ [b₁.nodes.size] } } := by
    rw [run_pushNode] at h₂
    cases h₂
    exact ⟨rfl, rfl⟩
  have hd' : b'.drafts[t]? = some ⟨d.nodes ++ [b₁.nodes.size], .openEnd⟩ := by
    simp [hb, Array.getElem?_modify, hd, hopen]
  have hn' : b'.nodes[b₁.nodes.size]? = some ⟨b₁.nodes.size, t, kind⟩ := by simp [hb]
  have hcur' : b'.current = some t := by rw [hb]; exact hcur
  have hgrows : b₁.Grows [] b' := by
    rw [hb]
    refine (Grows.pushNode _).trans (.modify (.inl hcur) fun d' hd' => ?_)
    obtain rfl : d = d' := Option.some.inj (hd.symm.trans hd')
    simp [Draft.GrowsTo, hopen]
  have hcoherent : b'.Coherent R := by
    rw [hb] at hgrows ⊢
    exact ha.coherent.place hd (e := .openEnd) (by simp [hopen])
      (by simp [Exits.targets]) (by simpa [hn] using hkind) (.inr ⟨hcur, trivial⟩) hgrows
  refine ⟨ha.trans ⟨List.prefix_rfl, hcoherent, hgrows⟩, by simp [hb, hs], ⟨_, hn', hcur'⟩,
    fun D hD => ?_⟩
  obtain ⟨d'', hd'', hg⟩ := hD.draft t _ hd'
  obtain ⟨rest, hrest⟩ := hg.nodes
  refine ⟨t, d.nodes.length, d'', _, hflow D (hgrows.completes hD), hd'', by simp [← hrest],
    hD.node _ _ hn', rfl, ?_⟩
  rw [here_of_open hcur' hd' rfl]
  simp

/-- The block of a test is made and led to. -/
theorem run_branch {id : NodeId} {t f : Nat} (hlast : b.Rests id)
    (hrun : (branch id t f).run b = .ok (u, b')) :
    ∃ test b₁, (newDraft (.branch id t f)).run b = .ok (test, b₁) ∧
      (closeWith test).run b₁ = .ok ((), b') := by
  obtain ⟨n, hn, hcur⟩ := hlast
  rw [branch, run_bind] at hrun
  obtain ⟨b₀, b₁, h₁, hrun⟩ := hrun
  obtain ⟨rfl, rfl⟩ := run_get.mp h₁
  refine ⟨_, _, run_newDraft _ b, ?_⟩
  rw [run_closeWith]
  simp only [hcur, ← hrun, hn]
  rfl

theorem branch_spec {id : NodeId} {t f : Nat} (hc : b.Coherent R) (hlast : b.Rests id)
    (ht : t < b.drafts.size) (hf : f < b.drafts.size)
    (h : (branch id t f).run b = .ok (u, b')) :
    Advances [] R b R b' ∧ b'.scopes = b.scopes ∧ b'.current = none ∧
      ∀ D, b'.Completes D → D.Branches b.here id t f := by
  obtain ⟨test, b₁, h₁, h₂⟩ := run_branch hlast h
  have htargets : ∀ target : Nat, target ∈ (Exits.branch id t f).targets →
      target < b.drafts.size := by
    simp [Exits.targets, ht, hf]
  obtain ⟨ha₁, hs₁, hh₁, hw₁, hsize, hsize₁⟩ := newDraft_spec hc htargets h₁
  obtain ⟨ha₂, hs₂, hcur₂, -, hflow⟩ := closeWith_spec ha₁.coherent (by omega) h₂
  refine ⟨ha₁.trans ha₂, hs₂.trans hs₁, hcur₂, fun D hD => ⟨test, hh₁ ▸ hflow D hD, ?_⟩⟩
  exact hD.closed (ha₂.grows.waits hw₁ (by simp)).1 (by simp [Draft.GrowsTo])

end Build

end FlowTyping
