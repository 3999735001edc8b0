import FlowTyping.Proofs.Bounds.Graphs
import FlowTyping.Proofs.Lowering.Effects

/-!
Constructions whose accesses to blocks and nodes are in range. What else a construction keeps
track of can be read and changed freely; the blocks and the nodes made so far are accessed by a
few operations only.
-/

namespace FlowTyping

namespace Building

/-- A part of the state that tells nothing about blocks and nodes. -/
def Apart {α : Type} (f : Building → α) : Prop :=
  ∀ b drafts nodes, f { b with drafts := drafts, nodes := nodes } = f b

/-- A change of the state that leaves blocks and nodes alone. -/
def Aside (f : Building → Building) : Prop :=
  ∀ b drafts nodes,
    f { b with drafts := drafts, nodes := nodes } = { f b with drafts := drafts, nodes := nodes }

/-- The block of a node, as a test of this node looks it up. -/
def homeOf (condition : NodeId) (b : Building) : BlockId :=
  (b.nodes[condition]?.map Node.block).getD 0

end Building

namespace Build

/-- Every block and node that a construction accesses from a state is in range. -/
inductive InBounds : {α : Type} → Build α → Building → Prop
  | pure {α : Type} {b : Building} (a : α) : InBounds (pure a) b
  | throw {α : Type} {b : Building} (e : GraphError) : InBounds (throw e : Build α) b
  | bind {α β : Type} {b : Building} {m : Build α} {k : α → Build β} (first : InBounds m b)
      (next : ∀ a b', m.run b = .ok (a, b') → InBounds (k a) b') : InBounds (m >>= k) b
  | read {α : Type} {b : Building} {f : Building → α} (hf : Building.Apart f) :
      InBounds (f <$> get) b
  | change {b : Building} {f : Building → Building} (hf : Building.Aside f) :
      InBounds (modify f) b
  | newDraft {b : Building} (exits : Exits) : InBounds (newDraft exits) b
  | draft {b : Building} {block : BlockId} (h : block < b.drafts.size) :
      InBounds (draft block) b
  | modifyDraft {b : Building} {block : BlockId} (f : Draft → Draft) (h : block < b.drafts.size) :
      InBounds (modifyDraft block f) b
  | pushNode {b : Building} {block : BlockId} (kind : NodeKind) (h : block < b.drafts.size) :
      InBounds (pushNode block kind) b
  | home {b : Building} {condition : NodeId} (h : condition < b.nodes.size) :
      InBounds (Building.homeOf condition <$> get) b

end Build

namespace Building

/-- The ids that a state holds are those of its blocks and nodes. -/
structure Ranged (b : Building) : Prop where
  designated : 3 ≤ b.drafts.size
  current : ∀ c : Nat, b.current = some c → c < b.drafts.size
  homes : ∀ n ∈ b.nodes, n.block < b.drafts.size
  paths : ∀ path ∈ b.finalPaths, path.2 < b.drafts.size
  targets : ∀ d ∈ b.drafts, ∀ t ∈ d.exits.targets, t < b.drafts.size
  listed : ∀ d ∈ b.drafts, ∀ id ∈ d.nodes, id < b.nodes.size

/-- A later state has all blocks and nodes of an earlier one. -/
structure Before (b b' : Building) : Prop where
  drafts : b.drafts.size ≤ b'.drafts.size
  nodes : b.nodes.size ≤ b'.nodes.size

theorem Before.refl (b : Building) : b.Before b := ⟨Nat.le_refl _, Nat.le_refl _⟩

theorem Before.trans {b b' b'' : Building} (h : b.Before b') (h' : b'.Before b'') :
    b.Before b'' :=
  ⟨Nat.le_trans h.drafts h'.drafts, Nat.le_trans h.nodes h'.nodes⟩

variable {b : Building}

namespace Ranged

theorem setCurrent (hb : b.Ranged) {block : Option BlockId}
    (h : ∀ c : Nat, block = some c → c < b.drafts.size) :
    { b with current := block }.Ranged :=
  { hb with current := h }

theorem push (hb : b.Ranged) {exits : Exits} (h : ∀ t ∈ exits.targets, t < b.drafts.size) :
    { b with drafts := b.drafts.push ⟨[], exits⟩ }.Ranged where
  designated := by simpa using Nat.le_succ_of_le hb.designated
  current c hc := by simpa using Nat.lt_succ_of_lt (hb.current c hc)
  homes n hn := by simpa using Nat.lt_succ_of_lt (hb.homes n hn)
  paths path hpath := by simpa using Nat.lt_succ_of_lt (hb.paths path hpath)
  targets d hd t ht := by
    rw [Array.size_push]
    rcases Array.mem_push.mp hd with hd | rfl
    · exact Nat.lt_succ_of_lt (hb.targets d hd t ht)
    · exact Nat.lt_succ_of_lt (h t ht)
  listed d hd id hid := by
    rcases Array.mem_push.mp hd with hd | rfl
    · exact hb.listed d hd id hid
    · cases hid

theorem modify (hb : b.Ranged) {block : BlockId} {f : Draft → Draft}
    (htargets : ∀ d, ∀ t ∈ (f d).exits.targets, t ∈ d.exits.targets ∨ t < b.drafts.size)
    (hnodes : ∀ d, ∀ id ∈ (f d).nodes, id ∈ d.nodes ∨ id < b.nodes.size) :
    { b with drafts := b.drafts.modify block f }.Ranged := by
  have hmem {d : Draft} (hd : d ∈ b.drafts.modify block f) :
      d ∈ b.drafts ∨ ∃ d' ∈ b.drafts, d = f d' := by
    obtain ⟨i, hi⟩ := Array.mem_iff_getElem?.mp hd
    rw [Array.getElem?_modify] at hi
    split at hi
    · obtain ⟨d', hd', rfl⟩ := Option.map_eq_some_iff.mp hi
      exact .inr ⟨d', Array.mem_of_getElem? hd', rfl⟩
    · exact .inl (Array.mem_of_getElem? hi)
  have hsize : (b.drafts.modify block f).size = b.drafts.size := Array.size_modify
  constructor
  · simpa [hsize] using hb.designated
  · simpa [hsize] using hb.current
  · simpa [hsize] using hb.homes
  · simpa [hsize] using hb.paths
  · intro d hd t ht
    rw [hsize]
    rcases hmem hd with hd | ⟨d', hd', rfl⟩
    · exact hb.targets d hd t ht
    · exact (htargets d' t ht).elim (hb.targets d' hd' t) id
  · intro d hd id hid
    rcases hmem hd with hd | ⟨d', hd', rfl⟩
    · exact hb.listed d hd id hid
    · exact (hnodes d' id hid).elim (hb.listed d' hd' id) fun h => h

theorem link (hb : b.Ranged) {source target : BlockId} (h : target < b.drafts.size) :
    { b with drafts := b.drafts.modify source fun d =>
      { d with exits := d.exits.link target } }.Ranged :=
  hb.modify
    (fun _ _ ht => by
      rcases Exits.mem_targets_link ht with ht | rfl
      · exact .inl ht
      · exact .inr h)
    fun _ _ hid => .inl hid

theorem addNode (hb : b.Ranged) {block : BlockId} (kind : NodeKind) (h : block < b.drafts.size) :
    { b with nodes := b.nodes.push ⟨b.nodes.size, block, kind⟩ }.Ranged :=
  { hb with
    homes := fun n hn => by
      rcases Array.mem_push.mp hn with hn | rfl
      · exact hb.homes n hn
      · exact h
    listed := fun d hd id hid => by
      rw [Array.size_push]
      exact Nat.lt_succ_of_lt (hb.listed d hd id hid) }

theorem remember (hb : b.Ranged) {path : (List Nat × BlockId) × BlockId}
    (h : path.2 < b.drafts.size) :
    { b with finalPaths := path :: b.finalPaths }.Ranged :=
  { hb with paths := List.forall_mem_cons.mpr ⟨h, hb.paths⟩ }

end Ranged

end Building

namespace Build

variable {α β : Type} {b : Building} {Q : α → Building → Prop} {R : β → Building → Prop}

/-- A construction accesses blocks and nodes in range, and where it succeeds it leaves a state
that fits and a result with a property. -/
structure Safe (m : Build α) (b : Building) (Q : α → Building → Prop) : Prop where
  inBounds : InBounds m b
  after : ∀ a b', m.run b = .ok (a, b') → b'.Ranged ∧ b.Before b' ∧ Q a b'

namespace Safe

theorem pure {a : α} (hb : b.Ranged) (h : Q a b) : Safe (Pure.pure a) b Q where
  inBounds := .pure a
  after a' b' hrun := by
    obtain ⟨rfl, rfl⟩ := run_pure.mp hrun
    exact ⟨hb, .refl b, h⟩

theorem throw (e : GraphError) : Safe (throw e : Build α) b Q where
  inBounds := .throw e
  after _ _ hrun := (run_throw.mp hrun).elim

theorem bind {m : Build α} {k : α → Build β} (hm : Safe m b Q)
    (hk : ∀ a b', b'.Ranged → b.Before b' → Q a b' → Safe (k a) b' R) : Safe (m >>= k) b R where
  inBounds := .bind hm.inBounds fun a b' hrun =>
    (hk a b' (hm.after a b' hrun).1 (hm.after a b' hrun).2.1 (hm.after a b' hrun).2.2).inBounds
  after c b'' hrun := by
    obtain ⟨a, b', hfirst, hnext⟩ := run_bind.mp hrun
    obtain ⟨hranged, hbefore, hQ⟩ := hm.after a b' hfirst
    obtain ⟨hranged', hbefore', hR⟩ := (hk a b' hranged hbefore hQ).after c b'' hnext
    exact ⟨hranged', hbefore.trans hbefore', hR⟩

theorem weaken {m : Build α} {Q' : α → Building → Prop} (hm : Safe m b Q)
    (h : ∀ a b', b'.Ranged → b.Before b' → Q a b' → Q' a b') : Safe m b Q' where
  inBounds := hm.inBounds
  after a b' hrun := by
    obtain ⟨hranged, hbefore, hQ⟩ := hm.after a b' hrun
    exact ⟨hranged, hbefore, h a b' hranged hbefore hQ⟩

theorem discard {m : Build α} (hm : Safe m b Q) : Safe (discard m) b fun _ _ => True :=
  hm.bind fun _ _ hranged _ _ => .pure hranged trivial

/-- What is known about the state apart from blocks and nodes decides how to go on. -/
theorem get {k : Building → Build β} (hk : Building.Apart k) (h : Safe (k b) b R) :
    Safe (MonadState.get >>= k) b R where
  inBounds := by
    change InBounds ((k <$> MonadState.get) >>= fun m => m) b
    refine .bind (.read hk) fun m b' hrun => ?_
    have heq : Except.ok (k b, b) = (.ok (m, b') : Except GraphError (Build β × Building)) := hrun
    cases heq
    exact h.inBounds
  after := h.after

theorem change {f : Building → Building} (hf : Building.Aside f) (h : (f b).Ranged) :
    Safe (modify f) b fun _ b' => b' = f b where
  inBounds := .change hf
  after a b' hrun := by
    obtain rfl := run_modify.mp hrun
    have hsame : f b = { f b with drafts := b.drafts, nodes := b.nodes } := hf b b.drafts b.nodes
    have hdrafts := congrArg (fun b => b.drafts.size) hsame
    have hnodes := congrArg (fun b => b.nodes.size) hsame
    exact ⟨h, ⟨Nat.le_of_eq hdrafts.symm, Nat.le_of_eq hnodes.symm⟩, rfl⟩

end Safe

variable {block target : BlockId}

theorem newDraft_safe (hb : b.Ranged) {exits : Exits}
    (h : ∀ t ∈ exits.targets, t < b.drafts.size) :
    Safe (newDraft exits) b fun id b' => id < b'.drafts.size where
  inBounds := .newDraft exits
  after id b' hrun := by
    rw [run_newDraft] at hrun
    cases hrun
    refine ⟨hb.push h, ⟨?_, Nat.le_refl _⟩, ?_⟩
    · rw [Array.size_push]
      exact Nat.le_succ _
    · rw [Array.size_push]
      exact Nat.lt_succ_self _

theorem newBlock_safe (hb : b.Ranged) : Safe newBlock b fun id b' => id < b'.drafts.size :=
  newDraft_safe hb (by simp [Exits.targets])

theorem newLoopHead_safe (hb : b.Ranged) : Safe newLoopHead b fun id b' => id < b'.drafts.size :=
  newDraft_safe hb (by simp [Exits.targets])

theorem setCurrent_safe (hb : b.Ranged) {current : Option BlockId}
    (h : ∀ c : Nat, current = some c → c < b.drafts.size) :
    Safe (setCurrent current) b fun _ b' => b' = { b with current := current } :=
  .change (fun _ _ _ => rfl) (hb.setCurrent h)

theorem enter_safe (hb : b.Ranged) (h : block < b.drafts.size) :
    Safe (setCurrent (some block)) b fun _ b' => b' = { b with current := some block } :=
  setCurrent_safe hb fun _ hc => Option.some.inj hc ▸ h

theorem leave_safe (hb : b.Ranged) : Safe (setCurrent none) b fun _ _ => True := by
  have hnone : ∀ c : Nat, (none : Option BlockId) = some c → c < b.drafts.size := nofun
  exact (setCurrent_safe hb hnone).weaken fun _ _ _ _ _ => trivial

theorem draft_safe (hb : b.Ranged) (h : block < b.drafts.size) :
    Safe (draft block) b fun _ b' => b' = b where
  inBounds := .draft h
  after d b' hrun := by
    obtain ⟨-, rfl⟩ := run_draft.mp hrun
    exact ⟨hb, .refl b, rfl⟩

theorem modifyDraft_safe {f : Draft → Draft} (h : block < b.drafts.size)
    (hranged : { b with drafts := b.drafts.modify block f }.Ranged) :
    Safe (modifyDraft block f) b fun _ b' =>
      b' = { b with drafts := b.drafts.modify block f } where
  inBounds := .modifyDraft f h
  after _ b' hrun := by
    obtain rfl := run_modify.mp hrun
    exact ⟨hranged, ⟨Nat.le_of_eq Array.size_modify.symm, Nat.le_refl _⟩, rfl⟩

theorem link_safe (hb : b.Ranged) {source : BlockId} (hsource : source < b.drafts.size)
    (htarget : target < b.drafts.size) : Safe (link source target) b fun _ _ => True :=
  (modifyDraft_safe hsource (hb.link htarget)).weaken fun _ _ _ _ _ => trivial

theorem closeWith_safe (hb : b.Ranged) (h : target < b.drafts.size) :
    Safe (closeWith target) b fun _ _ => True := by
  apply Safe.get fun _ _ _ => rfl
  cases hcurrent : b.current with
  | none => exact leave_safe hb
  | some block =>
      apply (link_safe hb (hb.current block hcurrent) h).bind
      intro _ b' hb' _ _
      exact leave_safe hb'

theorem nextBlock_safe (hb : b.Ranged) : Safe nextBlock b fun id b' => id < b'.drafts.size := by
  apply Safe.get fun _ _ _ => rfl
  apply (newBlock_safe hb).bind
  intro block b' hb' h' hblock
  cases hcurrent : b.current with
  | none => exact .pure hb' hblock
  | some previous =>
      have hprevious := Nat.lt_of_lt_of_le (hb.current previous hcurrent) h'.drafts
      apply (link_safe hb' hprevious hblock).bind
      intro _ b'' hb'' h'' _
      exact .pure hb'' (Nat.lt_of_lt_of_le hblock h''.drafts)

theorem openBlock_safe (hb : b.Ranged) : Safe openBlock b fun id b' => id < b'.drafts.size := by
  have hfresh {b : Building} (hb : b.Ranged) :
      Safe (nextBlock >>= fun block => setCurrent (some block) >>= fun _ => pure block) b
        fun id b' => id < b'.drafts.size := by
    apply (nextBlock_safe hb).bind
    intro block b₁ hb₁ _ hblock
    apply (enter_safe hb₁ hblock).bind
    rintro _ _ hb₂ - rfl
    exact .pure hb₂ hblock
  apply Safe.get fun _ _ _ => rfl
  cases hcurrent : b.current with
  | none => exact hfresh hb
  | some block =>
      have hblock := hb.current block hcurrent
      apply (draft_safe hb hblock).bind
      rintro d _ hb' - rfl
      split
      · exact .pure hb' hblock
      · exact hfresh hb'

theorem pushNode_safe (hb : b.Ranged) (kind : NodeKind) (h : block < b.drafts.size) :
    Safe (pushNode block kind) b fun id b' =>
      id < b'.nodes.size ∧ b'.drafts.size = b.drafts.size where
  inBounds := .pushNode kind h
  after id b' hrun := by
    rw [run_pushNode] at hrun
    cases hrun
    have hlast : b.nodes.size < (b.nodes.push ⟨b.nodes.size, block, kind⟩).size := by
      rw [Array.size_push]
      exact Nat.lt_succ_self _
    refine ⟨(hb.addNode kind h).modify (fun _ _ ht => .inl ht) fun d id hid => ?_,
      ⟨Nat.le_of_eq Array.size_modify.symm, Nat.le_of_lt hlast⟩, hlast, Array.size_modify⟩
    rcases List.mem_append.mp hid with hid | hid
    · exact .inl hid
    · rw [List.mem_singleton.mp hid]
      exact .inr hlast

theorem emit_safe (hb : b.Ranged) (kind : NodeKind) :
    Safe (emit kind) b fun id b' => id < b'.nodes.size := by
  apply (openBlock_safe hb).bind
  intro block b' hb' _ hblock
  exact (pushNode_safe hb' kind hblock).weaken fun _ _ _ _ h => h.1

theorem branch_safe (hb : b.Ranged) {condition : NodeId} {thenTarget elseTarget : BlockId}
    (hcondition : condition < b.nodes.size) (hthen : thenTarget < b.drafts.size)
    (helse : elseTarget < b.drafts.size) :
    Safe (branch condition thenTarget elseTarget) b fun _ _ => True := by
  have hhome : Safe (Building.homeOf condition <$> get) b fun source b' =>
      source < b'.drafts.size ∧ b' = b := by
    refine ⟨.home hcondition, fun source b' hrun => ?_⟩
    have heq : Except.ok (Building.homeOf condition b, b) =
        (.ok (source, b') : Except GraphError (BlockId × Building)) := hrun
    cases heq
    have hnode := Array.getElem?_eq_getElem hcondition
    refine ⟨hb, .refl b, ?_, rfl⟩
    rw [Building.homeOf, hnode]
    exact hb.homes _ (Array.mem_of_getElem? hnode)
  change Safe ((Building.homeOf condition <$> get) >>= fun source =>
    newDraft (.branch condition thenTarget elseTarget) >>= fun test =>
      link source test >>= fun _ => setCurrent none) b _
  apply hhome.bind
  rintro source _ hb₁ - ⟨hsource, rfl⟩
  apply (newDraft_safe hb₁ (by simpa [Exits.targets] using ⟨hthen, helse⟩)).bind
  intro test b₂ hb₂ h₂ htest
  apply (link_safe hb₂ (Nat.lt_of_lt_of_le hsource h₂.drafts) htest).bind
  intro _ b₃ hb₃ _ _
  exact leave_safe hb₃

end Build

end FlowTyping
