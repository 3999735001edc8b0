import FlowTyping.Proofs.Lowering.Placement

/-!
How a construction grows. A block that is closed stays as it is; apart from the current
block and from new ones a construction touches no draft. A layout completes a state of
the construction when it holds everything that the state has fixed.
-/

namespace FlowTyping

namespace Exits

/-- The blocks that an exit leads to. -/
def targets : Exits → List BlockId
  | openEnd => []
  | goto target => [target]
  | branch _ thenSuccessor elseSuccessor => [thenSuccessor, elseSuccessor]
  | raise successor handlers _ => successor.toList ++ handlers.map Prod.snd
  | special _ successor => successor.toList

/-- A block with this exit can be the current one. -/
def Pending : Exits → Prop
  | openEnd => True
  | raise none _ false => True
  | _ => False

theorem Pending.eq_or {exits : Exits} (h : exits.Pending) :
    exits = .openEnd ∨ ∃ handlers, exits = .raise none handlers false := by
  unfold Pending at h
  split at h
  · exact .inl rfl
  · exact .inr ⟨_, rfl⟩
  · exact h.elim

theorem mem_targets_link {exits : Exits} {target t : BlockId}
    (h : t ∈ (exits.link target).targets) : t ∈ exits.targets ∨ t = target := by
  unfold link at h
  split at h
  · simpa [targets] using h
  · simpa [targets, or_comm] using h
  · simpa [targets] using h
  · exact .inl h

end Exits

namespace Draft

/-- What a draft can become. Only an open end takes nodes, and only a free exit is
connected. -/
def GrowsTo (d d' : Draft) : Prop :=
  match d.exits with
  | .openEnd => d.nodes <+: d'.nodes
  | .raise none handlers false => d'.nodes = d.nodes ∧ ∃ s, d'.exits = .raise s handlers false
  | .special kind none => d'.nodes = d.nodes ∧ ∃ s, d'.exits = .special kind s
  | _ => d' = d

theorem GrowsTo.refl (d : Draft) : d.GrowsTo d := by
  unfold GrowsTo
  split <;> simp_all

theorem GrowsTo.nodes {d d' : Draft} (h : d.GrowsTo d') : d.nodes <+: d'.nodes := by
  unfold GrowsTo at h
  split at h
  · exact h
  · simp [h.1]
  · simp [h.1]
  · simp [h]

theorem GrowsTo.trans {d d' d'' : Draft} (h : d.GrowsTo d') (h' : d'.GrowsTo d'') :
    d.GrowsTo d'' := by
  unfold GrowsTo at h
  split at h
  · rename_i he
    simpa [GrowsTo, he] using h.trans h'.nodes
  · rename_i handlers he
    obtain ⟨hnodes, s, hs⟩ := h
    cases s with
    | none => simpa [GrowsTo, he, hs, hnodes] using h'
    | some s => simp_all [GrowsTo]
  · rename_i kind he
    obtain ⟨hnodes, s, hs⟩ := h
    cases s with
    | none => simpa [GrowsTo, he, hs, hnodes] using h'
    | some s => simp_all [GrowsTo]
  · exact h ▸ h'

theorem GrowsTo.link (d : Draft) (target : BlockId) :
    d.GrowsTo { d with exits := d.exits.link target } := by
  unfold GrowsTo Exits.link
  split <;> split <;> simp_all

end Draft

/-- The final bodies of a construction by their ids. -/
abbrev Registry := List FinalCopy

namespace Building

/-- The place where the next operation goes. -/
def here (b : Building) : Option Point :=
  b.current.bind fun block => b.drafts[block]?.map fun d =>
    match d.exits with
    | .openEnd => .inside block d.nodes.length
    | _ => .past block

/-- A block that is not the current one, and its draft. -/
def Waits (b : Building) (block : Nat) (d : Draft) : Prop :=
  b.drafts[block]? = some d ∧ b.current ≠ some block

/-- An open, empty block that waits to become the current one. -/
abbrev Fresh (b : Building) (block : Nat) : Prop := b.Waits block ⟨[], .openEnd⟩

/-- The node is in the current block. -/
def Rests (b : Building) (id : NodeId) : Prop :=
  ∃ n : Node, b.nodes[id]? = some n ∧ b.current = some n.block

/-- A layout holds what the construction has fixed. -/
structure Completes (b : Building) (D : Layout) : Prop where
  draft : ∀ (i : Nat) (d : Draft), b.drafts[i]? = some d →
    ∃ d' : Draft, D.drafts[i]? = some d' ∧ d.GrowsTo d'
  node : ∀ (i : Nat) (n : Node), b.nodes[i]? = some n → D.nodes[i]? = some n

/-- Between two states only the current block, some given blocks and new blocks have
changed. -/
structure Grows (touched : List Nat) (b b' : Building) : Prop where
  draft : ∀ (i : Nat) (d : Draft), b.drafts[i]? = some d →
    ∃ d' : Draft, b'.drafts[i]? = some d' ∧ d.GrowsTo d'
  kept : ∀ i : Nat, i < b.drafts.size → b.current ≠ some i → i ∉ touched →
    b'.drafts[i]? = b.drafts[i]?
  current : ∀ i : Nat, b'.current = some i →
    b.current = some i ∨ i ∈ touched ∨ b.drafts.size ≤ i
  node : ∀ (i : Nat) (n : Node), b.nodes[i]? = some n → b'.nodes[i]? = some n

/-- The state is one that a construction can be in. Every entry of the cache leads
through copies of the final bodies that its ids stand for. -/
structure Coherent (R : Registry) (b : Building) : Prop where
  designated : 3 ≤ b.drafts.size
  current : ∀ c : Nat, b.current = some c → ∃ d : Draft, b.drafts[c]? = some d ∧ d.exits.Pending
  targets : ∀ (i : Nat) (d : Draft), b.drafts[i]? = some d →
    ∀ t : Nat, t ∈ d.exits.targets → t < b.drafts.size
  listed : ∀ (i : Nat) (d : Draft), b.drafts[i]? = some d → d.nodes.Pairwise (· < ·) ∧
    ∀ id ∈ d.nodes, ∃ n : Node, b.nodes[id]? = some n ∧ n.block = i
  operands : ∀ (i : Nat) (n : Node), b.nodes[i]? = some n → n.id = i ∧ ∀ o ∈ n.kind.operands, o < i
  registry : R.length = b.nextFinal
  paths : ∀ e ∈ b.finalPaths, e.2 < b.drafts.size ∧ ∃ crossed,
    e.1.1.mapM (R[·]?) = some crossed ∧ ∀ D, b.Completes D → D.Leaves crossed e.1.2 e.2

/-- One state comes after another in a construction. -/
structure Advances (touched : List Nat) (R : Registry) (b : Building) (R' : Registry)
    (b' : Building) : Prop where
  registry : R <+: R'
  coherent : b'.Coherent R'
  grows : b.Grows touched b'

namespace Grows

variable {S T : List Nat} {b b' b'' : Building}

theorem refl (S : List Nat) (b : Building) : b.Grows S b where
  draft _ d h := ⟨d, h, .refl d⟩
  kept _ _ _ _ := rfl
  current _ h := .inl h
  node _ _ h := h

theorem size_le (h : b.Grows S b') : b.drafts.size ≤ b'.drafts.size := by
  rcases Nat.eq_zero_or_pos b.drafts.size with hzero | hpos
  · omega
  · obtain ⟨d', hd', -⟩ := h.draft (b.drafts.size - 1) b.drafts[b.drafts.size - 1]
      (Array.getElem?_eq_getElem (by omega))
    have := (Array.getElem?_eq_some_iff.mp hd').1
    omega

theorem nodes_size_le (h : b.Grows S b') : b.nodes.size ≤ b'.nodes.size := by
  rcases Nat.eq_zero_or_pos b.nodes.size with hzero | hpos
  · omega
  · have := h.node (b.nodes.size - 1) b.nodes[b.nodes.size - 1]
      (Array.getElem?_eq_getElem (by omega))
    have := (Array.getElem?_eq_some_iff.mp this).1
    omega

theorem trans (h : b.Grows S b') (h' : b'.Grows S b'') : b.Grows S b'' where
  draft i d hd := by
    obtain ⟨d₁, hd₁, hg₁⟩ := h.draft i d hd
    obtain ⟨d₂, hd₂, hg₂⟩ := h'.draft i d₁ hd₁
    exact ⟨d₂, hd₂, hg₁.trans hg₂⟩
  kept i hi hcur htouched := by
    have hsize := h.size_le
    rw [h'.kept i (by omega) _ htouched, h.kept i hi hcur htouched]
    intro hcur'
    rcases h.current i hcur' with hc | ht | hn
    · exact hcur hc
    · exact htouched ht
    · omega
  current i hi := by
    have hsize := h.size_le
    rcases h'.current i hi with hc | ht | hn
    · exact h.current i hc
    · exact .inr (.inl ht)
    · exact .inr (.inr (by omega))
  node i n hn := h'.node i n (h.node i n hn)

theorem weaken (h : b.Grows S b') (hST : ∀ i ∈ S, i ∈ T ∨ b.drafts.size ≤ i) :
    b.Grows T b' where
  draft := h.draft
  kept i hi hcur htouched := h.kept i hi hcur fun hS => by
    rcases hST i hS with ht | hn
    · exact htouched ht
    · omega
  current i hi := by
    rcases h.current i hi with hc | hs | hn
    · exact .inl hc
    · exact .inr (hST i hs)
    · exact .inr (.inr hn)
  node := h.node

/-- Going back to the block that was current touches nothing. -/
theorem restore (h : b.Grows S b') (hdrafts : b''.drafts = b'.drafts)
    (hnodes : b''.nodes = b'.nodes) (hcur : b''.current = b.current) : b.Grows S b'' where
  draft := hdrafts ▸ h.draft
  kept := hdrafts ▸ h.kept
  current _ hi := .inl (hcur ▸ hi)
  node := hnodes ▸ h.node

theorem waits (h : b.Grows S b') {t : Nat} {d : Draft} (ht : b.Waits t d) (hS : t ∉ S) :
    b'.Waits t d := by
  have hsize := (Array.getElem?_eq_some_iff.mp ht.1).1
  refine ⟨by rw [h.kept t hsize ht.2 hS, ht.1], fun hcur => ?_⟩
  rcases h.current t hcur with hc | hs | hn
  · exact ht.2 hc
  · exact hS hs
  · omega

theorem completes (h : b.Grows S b') {D : Layout} (hD : b'.Completes D) : b.Completes D where
  draft i d hd := by
    obtain ⟨d₁, hd₁, hg₁⟩ := h.draft i d hd
    obtain ⟨d₂, hd₂, hg₂⟩ := hD.draft i d₁ hd₁
    exact ⟨d₂, hd₂, hg₁.trans hg₂⟩
  node i n hn := hD.node i n (h.node i n hn)

end Grows

theorem Completes.closed {b : Building} {D : Layout} (hD : b.Completes D) {i : BlockId}
    {d : Draft} (hd : b.drafts[i]? = some d) (hclosed : ∀ d', d.GrowsTo d' → d' = d) :
    D.drafts[i]? = some d := by
  obtain ⟨d', hd', hg⟩ := hD.draft i d hd
  rw [hd', hclosed d' hg]

theorem Waits.lt {b : Building} {t : Nat} {d : Draft} (h : b.Waits t d) :
    t < b.drafts.size :=
  (Array.getElem?_eq_some_iff.mp h.1).1

/-- The place of the next operation is decided by the current block alone. -/
theorem here_eq {b b' : Building} (hcur : b'.current = b.current)
    (hdraft : ∀ c : Nat, b.current = some c → b'.drafts[c]? = b.drafts[c]?) :
    b'.here = b.here := by
  unfold here
  rw [hcur]
  cases h : b.current with
  | none => rfl
  | some c => simp [hdraft c h]

theorem here_of_open {b : Building} {c : Nat} {d : Draft} (hcur : b.current = some c)
    (hd : b.drafts[c]? = some d) (hopen : d.exits = .openEnd) :
    b.here = some (.inside c d.nodes.length) := by
  simp [here, hcur, hd, hopen]

theorem here_of_raise {b : Building} {c : Nat} {nodes : List NodeId}
    {handlers : List (String × BlockId)} (hcur : b.current = some c)
    (hd : b.drafts[c]? = some ⟨nodes, .raise none handlers false⟩) :
    b.here = some (.past c) := by
  rw [here, hcur, Option.bind_some, hd]
  rfl

namespace Advances

variable {S T : List Nat} {R R' R'' : Registry} {b b' b'' : Building}

theorem trans (h : Advances S R b R' b') (h' : Advances S R' b' R'' b'') :
    Advances S R b R'' b'' :=
  ⟨h.registry.trans h'.registry, h'.coherent, h.grows.trans h'.grows⟩

theorem weaken (h : Advances S R b R' b') (hST : ∀ i ∈ S, i ∈ T ∨ b.drafts.size ≤ i) :
    Advances T R b R' b' :=
  ⟨h.registry, h.coherent, h.grows.weaken hST⟩

/-- A block made on the way counts as new. -/
theorem enter {t : Nat} (h : Advances S R b R' b') (h' : Advances [t] R' b' R'' b'')
    (ht : b.drafts.size ≤ t) : Advances S R b R'' b'' := by
  have hbefore : Advances (t :: S) R b R' b' := h.weaken fun i hi => .inl (by simp [hi])
  have hafter : Advances (t :: S) R' b' R'' b'' := h'.weaken fun i hi => .inl (by simp_all)
  refine (hbefore.trans hafter).weaken fun i hi => ?_
  rcases List.mem_cons.mp hi with rfl | hi
  · exact .inr ht
  · exact .inl hi

end Advances

end Building

end FlowTyping
