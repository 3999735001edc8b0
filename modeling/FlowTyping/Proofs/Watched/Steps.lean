import FlowTyping.Proofs.Lowering.Effects
import FlowTyping.Proofs.Watched.Construction

/-!
Constructions that go on under watch. As long as the current block can be connected, the operations
of a construction find the exits that they connect free, and leave it so.
-/

namespace FlowTyping

namespace Building

variable {S T : List Nat} {b b' b'' : Building} {t : Nat} {d : Draft}

/-- The current block, if there is one, is open or goes on after its node. -/
def Tidy (b : Building) : Prop :=
  ∀ c : Nat, b.current = some c → ∃ d : Draft, b.drafts[c]? = some d ∧ d.exits.Pending

/-- Between two states only the current block, some given ones and new ones have changed, and the
scopes are as deep as before. -/
structure Keeps (S : List Nat) (b b' : Building) : Prop where
  grows : b.Grows S b'
  tidy : b'.Tidy
  depth : b'.scopes.length = b.scopes.length

theorem Tidy.lt (hb : b.Tidy) {c : Nat} (hc : b.current = some c) : c < b.drafts.size := by
  obtain ⟨d, hd, -⟩ := hb c hc
  exact (Array.getElem?_eq_some_iff.mp hd).1

theorem Tidy.none (h : b.current = none) : b.Tidy := by
  intro c hc
  rw [h] at hc
  cases hc

theorem Tidy.of_draft {c : Nat} (hc : b.current = some c) (hd : b.drafts[c]? = some d)
    (hpending : d.exits.Pending) : b.Tidy := by
  intro c' hc'
  obtain rfl : c = c' := Option.some.inj (hc.symm.trans hc')
  exact ⟨d, hd, hpending⟩

namespace Keeps

theorem refl (hb : b.Tidy) : b.Keeps S b := ⟨.refl S b, hb, rfl⟩

theorem trans (h : b.Keeps S b') (h' : b'.Keeps S b'') : b.Keeps S b'' :=
  ⟨h.grows.trans h'.grows, h'.tidy, h'.depth.trans h.depth⟩

theorem weaken (h : b.Keeps S b') (hST : ∀ i ∈ S, i ∈ T ∨ b.drafts.size ≤ i) : b.Keeps T b' :=
  ⟨h.grows.weaken hST, h.tidy, h.depth⟩

/-- Only what names stand for has changed. -/
theorem same (hb : b.Tidy) (hdrafts : b'.drafts = b.drafts) (hnodes : b'.nodes = b.nodes)
    (hcurrent : b'.current = b.current) (hdepth : b'.scopes.length = b.scopes.length) :
    b.Keeps S b' where
  grows := (Grows.refl S b).restore hdrafts hnodes hcurrent
  tidy c hc := by
    rw [hdrafts]
    exact hb c (hcurrent ▸ hc)
  depth := hdepth

/-- A scope has been opened before and is closed afterwards. -/
theorem closeScope (h : Keeps S { b with scopes := [] :: b.scopes } b') :
    b.Keeps S { b' with scopes := b'.scopes.drop 1 } where
  grows := ⟨h.grows.draft, h.grows.kept, h.grows.current, h.grows.node⟩
  tidy := h.tidy
  depth := by simp [h.depth]

theorem waits (h : b.Keeps [] b') (ht : b.Waits t d) : b'.Waits t d := h.grows.waits ht (by simp)

theorem waits_of_ne {s : Nat} (h : b.Keeps [s] b') (ht : b.Waits t d) (hne : t ≠ s) :
    b'.Waits t d :=
  h.grows.waits ht (by simpa using hne)

/-- A block made on the way counts as new. -/
theorem enter (h : b.Keeps [] b') (h' : b'.Keeps [t] b'') (ht : b.drafts.size ≤ t) :
    b.Keeps [] b'' := by
  have hbefore : b.Keeps [t] b' := h.weaken (by simp)
  exact (hbefore.trans h').weaken fun i hi => .inr (List.mem_singleton.mp hi ▸ ht)

end Keeps

/-- A new block waits, and nothing else has changed. -/
structure Adds (exits : Exits) (b : Building) (t : Nat) (b' : Building) : Prop where
  keeps : b.Keeps [] b'
  waits : b'.Waits t ⟨[], exits⟩
  new : b.drafts.size ≤ t
  current : b'.current = b.current
  nodes : b'.nodes = b.nodes

theorem Adds.new_of {exits : Exits} (h : Adds exits b' t b'') (hkeeps : b.Keeps S b') :
    b.drafts.size ≤ t :=
  Nat.le_trans hkeeps.grows.size_le h.new

/-- A block that waits already is not the new one. -/
theorem Adds.ne {exits : Exits} {s : Nat} (h : Adds exits b t b') (hs : b.Waits s d) : s ≠ t :=
  Nat.ne_of_lt (Nat.lt_of_lt_of_le hs.lt h.new)

theorem Adds.rests {exits : Exits} {id : NodeId} (h : Adds exits b t b') (hid : b.Rests id) :
    b'.Rests id := by
  obtain ⟨n, hn, hcur⟩ := hid
  exact ⟨n, h.nodes ▸ hn, h.current.trans hcur⟩

/-- A waiting block is taken as the current one. -/
theorem keeps_enter (ht : b.Fresh t) : b.Keeps [t] { b with current := some t } where
  grows := .setCurrent fun i hi => .inr (.inl (by simpa using hi.symm))
  tidy := .of_draft rfl ht.1 trivial
  depth := rfl

/-- The current block is connected, and no other one is taken. -/
theorem keeps_close {c : Nat} (hc : b.current = some c) (target : BlockId) :
    b.Keeps [] { b with
      drafts := b.drafts.modify c fun d => { d with exits := d.exits.link target }
      current := none } where
  grows := Grows.trans (.modify (f := fun d => { d with exits := d.exits.link target }) (.inl hc)
    fun d _ => .link d target) (.setCurrent nofun)
  tidy := .none rfl
  depth := rfl

end Building

theorem Exits.Pending.isFree {exits : Exits} (h : exits.Pending) : exits.isFree = true := by
  rcases h.eq_or with rfl | ⟨handlers, rfl⟩ <;> rfl

namespace Watched

open Building

variable {α β : Type} {rs rs₁ rs₂ : List OpenRegion} {b : Building} {x : Watched α} {m : Build α}
  {k : α → Watched β} {k' : α → Build β} {Q : α → Building → Prop} {R : β → Building → Prop}

theorem outcome_bind (x : Watched α) (k : α → Watched β) (w : Watch) :
    (x >>= k).outcome w = (x.outcome w).bind fun result =>
      match result with
      | .error e => some (.error e)
      | .ok r => (k r.1).outcome r.2 := by
  change Option.bind _ _ = _
  refine congrArg (Option.bind _) (funext fun result => ?_)
  cases result <;> rfl

theorem outcome_plain (m : Build α) (w : Watch) : (plain m).outcome w =
    some ((m.run w.building).map fun r => (r.1, { w with building := r.2 })) := rfl

theorem outcome_require (fits : Watch → Bool) (w : Watch) :
    (require fits).outcome w = if fits w then some (.ok ((), w)) else none := rfl

theorem modify_link_eq_iff (drafts : Array Draft) (source target : BlockId) :
    (drafts.modify source fun d => { d with exits := d.exits.link target }) = drafts ↔
      ∀ d, drafts[source]? = some d → d.exits.link target = d.exits := by
  refine ⟨fun h d hd => ?_, fun h => Array.ext_getElem? fun i => ?_⟩
  · have hsame := congrArg (·[source]?) h
    simp only [Array.getElem?_modify, hd, if_true, Option.map_some, Option.some.injEq] at hsame
    exact congrArg Draft.exits hsame
  · rw [Array.getElem?_modify]
    split
    · subst i
      cases hd : drafts[source]? with
      | none => rfl
      | some d => simp [h d hd]
    · rfl

/-- The watch stops a connection exactly where the plain one would silently do nothing. -/
theorem link_stops_iff (source target : BlockId) (w : Watch) :
    (link source target).outcome w = none ↔
      (Build.link source target).run w.building = .ok ((), w.building) := by
  have hrun : (Build.link source target).run w.building = .ok ((), w.building) ↔
      ∀ d, w.building.drafts[source]? = some d → d.exits.link target = d.exits := by
    rw [Build.run_link, ← modify_link_eq_iff]
    refine ⟨fun h => ?_, fun h => by rw [h]⟩
    exact congrArg Building.drafts (Prod.mk.inj (Except.ok.inj h)).2
  rw [hrun, link, outcome_bind, outcome_require]
  cases w.building.drafts[source]? with
  | none => simp
  | some d =>
      have hfree := d.exits.isFree_iff target
      cases h : d.exits.isFree <;> simp_all [outcome_plain]

example : (do
    link Build.entryId Build.exitId
    link Build.entryId Build.exitId).outcome ⟨Build.start [], []⟩ = none := rfl

/-- A node is stopped where its block does not have an open end. -/
theorem pushNode_stops_iff (block : BlockId) (kind : NodeKind) (w : Watch) :
    (pushNode block kind).outcome w = none ↔
      ∀ d, w.building.drafts[block]? = some d → d.exits ≠ .openEnd := by
  rw [pushNode, outcome_bind, outcome_require]
  cases w.building.drafts[block]? with
  | none => simp
  | some d => by_cases h : d.exits = .openEnd <;> simp [h, outcome_plain]

/-- A part is stopped at its end where it has changed the regions or the depth of the scopes. -/
theorem balanced_stops_iff (x : Watched α) (w : Watch) :
    x.balanced.outcome w = none ↔ x.outcome w = none ∨
      ∃ a w', x.outcome w = some (.ok (a, w')) ∧ ¬ (w'.regions = w.regions ∧
        w'.building.scopes.length = w.building.scopes.length) := by
  rw [Watched.balanced, outcome_bind]
  change (x >>= _).outcome w = none ↔ _
  rw [outcome_bind]
  cases x.outcome w with
  | none => simp
  | some result =>
      cases result with
      | error e => simp
      | ok r =>
          obtain ⟨a, w'⟩ := r
          change (Watched.require _ >>= _).outcome _ = _ ↔ _
          rw [outcome_bind, outcome_require]
          by_cases hsame : w'.regions = w.regions ∧
              w'.building.scopes.length = w.building.scopes.length
          · refine iff_of_false ?_ ?_
            · rw [if_pos (by simpa using hsame)]
              exact nofun
            · rintro (hstop | ⟨a, w', heq, hchanged⟩)
              · cases hstop
              · cases heq
                exact hchanged hsame
          · rw [if_neg (by simpa using hsame)]
            exact iff_of_true rfl (.inr ⟨a, w', rfl, hsame⟩)

/-- Under watch a construction does not stop from a state, and does what the plain one does. The
regions that are open before and afterwards are given. -/
structure Passes (rs rs' : List OpenRegion) (x : Watched α) (m : Build α) (b : Building)
    (Q : α → Building → Prop) : Prop where
  outcome_eq : x.outcome ⟨b, rs⟩ = some ((m.run b).map fun r => (r.1, ⟨r.2, rs'⟩))
  after : ∀ a b', m.run b = .ok (a, b') → Q a b'

/-- The same regions are open before and afterwards. -/
abbrev Follows (rs : List OpenRegion) (x : Watched α) (m : Build α) (b : Building)
    (Q : α → Building → Prop) : Prop :=
  Passes rs rs x m b Q

namespace Passes

theorem plain (h : ∀ a b', m.run b = .ok (a, b') → Q a b') : Follows rs (plain m) m b Q := ⟨rfl, h⟩

theorem pure {a : α} (h : Q a b) : Follows rs (Pure.pure a) (Pure.pure a) b Q where
  outcome_eq := rfl
  after a' b' hrun := by
    obtain ⟨rfl, rfl⟩ := Build.run_pure.mp hrun
    exact h

theorem value (a : α) :
    Follows rs (Pure.pure a) (Pure.pure a) b fun a' b' => a = a' ∧ b = b' :=
  pure ⟨rfl, rfl⟩

theorem throw (e : GraphError) : Follows rs (Watched.plain (throw e)) (throw e : Build α) b Q :=
  plain fun _ _ hrun => (Build.run_throw.mp hrun).elim

theorem bind (hx : Passes rs rs₁ x m b Q) (hk : ∀ a b', Q a b' → Passes rs₁ rs₂ (k a) (k' a) b' R) :
    Passes rs rs₂ (x >>= k) (m >>= k') b R := by
  cases hm : m.run b with
  | error e =>
      have hrun : (m >>= k').run b = .error e := by
        rw [StateT.run_bind, hm]
        rfl
      refine ⟨?_, fun c b' h => by rw [hrun] at h; cases h⟩
      rw [outcome_bind, hx.outcome_eq, hm, hrun]
      rfl
  | ok r =>
      obtain ⟨a, b'⟩ := r
      have hnext := hk a b' (hx.after a b' hm)
      have hrun : (m >>= k').run b = (k' a).run b' := by
        rw [StateT.run_bind, hm]
        rfl
      refine ⟨?_, fun c b'' h => hnext.after c b'' (hrun ▸ h)⟩
      rw [outcome_bind, hx.outcome_eq, hm, hrun]
      exact hnext.outcome_eq

theorem weaken {Q' : α → Building → Prop} (hx : Passes rs rs₁ x m b Q)
    (h : ∀ a b', Q a b' → Q' a b') : Passes rs rs₁ x m b Q' :=
  ⟨hx.outcome_eq, fun a b' hrun => h a b' (hx.after a b' hrun)⟩

theorem discard {Q' : Unit → Building → Prop} (hx : Follows rs x m b Q)
    (h : ∀ a b', Q a b' → Q' () b') : Follows rs (discard x) (discard m) b Q' :=
  hx.bind fun a b' hQ => .pure (h a b' hQ)

/-- The watch is looked at where the plain construction looks at its state. -/
theorem get {k : Watch → Watched β} {k' : Building → Build β}
    (h : Passes rs rs₁ (k ⟨b, rs⟩) (k' b) b R) : Passes rs rs₁ (get >>= k) (get >>= k') b R where
  outcome_eq := (outcome_bind _ k _).trans h.outcome_eq
  after := h.after

/-- The watch alone is looked at. -/
theorem look {k : Watch → Watched β} {m : Build β} (h : Passes rs rs₁ (k ⟨b, rs⟩) m b R) :
    Passes rs rs₁ (MonadState.get >>= k) m b R where
  outcome_eq := (outcome_bind _ k _).trans h.outcome_eq
  after := h.after

/-- The stack of regions alone is changed. -/
theorem regions {f : Watch → Watch} (hf : f ⟨b, rs⟩ = ⟨b, rs₁⟩) (hx : Passes rs₁ rs₂ x m b Q) :
    Passes rs rs₂ (modify f >>= fun _ => x) m b Q where
  outcome_eq := by
    rw [outcome_bind]
    change x.outcome (f ⟨b, rs⟩) = _
    rw [hf, hx.outcome_eq]
  after := hx.after

theorem require {fits : Watch → Bool} (hfits : fits ⟨b, rs⟩ = true) (hx : Passes rs rs₁ x m b Q) :
    Passes rs rs₁ (require fits >>= fun _ => x) m b Q where
  outcome_eq := by
    rw [outcome_bind, outcome_require, if_pos hfits]
    exact hx.outcome_eq
  after := hx.after

theorem balanced (hx : Follows rs x m b Q)
    (hdepth : ∀ a b', Q a b' → b'.scopes.length = b.scopes.length) :
    Follows rs x.balanced m b Q where
  outcome_eq := by
    rw [Watched.balanced, outcome_bind]
    change (x >>= _).outcome _ = _
    rw [outcome_bind, hx.outcome_eq]
    cases hm : m.run b with
    | error e => rfl
    | ok r =>
        have hsame := hdepth r.1 r.2 (hx.after r.1 r.2 hm)
        change (Watched.require _ >>= _).outcome _ = _
        rw [outcome_bind, outcome_require, if_pos (by simp [hsame])]
        rfl
  after := hx.after

theorem within {region : OpenRegion} (hx : Follows (region :: rs) x m b Q) :
    Follows rs (within region x) m b Q where
  outcome_eq := by
    rw [Watched.within, outcome_bind]
    change (x >>= _).outcome _ = _
    rw [outcome_bind]
    change ((x.outcome ⟨b, region :: rs⟩).bind _) = _
    rw [hx.outcome_eq]
    cases m.run b <;> rfl
  after := hx.after

end Passes

section

variable {t source target block : BlockId} {d : Draft} {exits : Exits} {kind : NodeKind}
  {id : NodeId}

theorem newDraft_follows (hb : b.Tidy) (exits : Exits) :
    Follows rs (plain (Build.newDraft exits)) (Build.newDraft exits) b fun t b' =>
      Adds exits b t b' := by
  refine .plain fun t b' hrun => ?_
  rw [Build.run_newDraft] at hrun
  cases hrun
  have hne {c : Nat} (hc : b.current = some c) : c ≠ b.drafts.size := Nat.ne_of_lt (hb.lt hc)
  refine ⟨⟨.push exits, fun c hc => ?_, rfl⟩, ⟨by simp, fun hc => hne hc rfl⟩, Nat.le_refl _, rfl,
    rfl⟩
  obtain ⟨d, hd, hpending⟩ := hb c hc
  exact ⟨d, by simp [Array.getElem?_push, hne hc, hd], hpending⟩

theorem newBlock_follows (hb : b.Tidy) :
    Follows rs newBlock Build.newBlock b fun t b' => Adds .openEnd b t b' :=
  newDraft_follows hb .openEnd

theorem newLoopHead_follows (hb : b.Tidy) :
    Follows rs newLoopHead Build.newLoopHead b fun t b' => Adds (.special .loopHead none) b t b' :=
  newDraft_follows hb (.special .loopHead none)

theorem setCurrent_follows (current : Option BlockId) :
    Follows rs (setCurrent current) (Build.setCurrent current) b fun _ b' =>
      b' = { b with current := current } := by
  refine .plain fun _ b' hrun => ?_
  rw [Build.run_setCurrent] at hrun
  cases hrun
  rfl

theorem enter_follows (ht : b.Fresh t) :
    Follows rs (setCurrent (some t)) (Build.setCurrent (some t)) b fun _ b' => b.Keeps [t] b' :=
  (setCurrent_follows _).weaken fun _ _ heq => heq ▸ keeps_enter ht

theorem draft_follows (block : BlockId) :
    Follows rs (draft block) (Build.draft block) b fun d b' =>
      d = b.drafts.getD block default ∧ b = b' := by
  refine .plain fun d b' hrun => ?_
  obtain ⟨rfl, rfl⟩ := Build.run_draft.mp hrun
  exact ⟨rfl, rfl⟩

/-- A block with a free exit is connected. -/
theorem link_follows (target : BlockId) (hd : b.drafts[source]? = some d)
    (hfree : d.exits.isFree = true) :
    Follows rs (link source target) (Build.link source target) b fun _ b' =>
      b' = { b with drafts := b.drafts.modify source fun d =>
        { d with exits := d.exits.link target } } := by
  refine .require (by simp [hd, hfree]) (.plain fun _ b' hrun => ?_)
  rw [Build.run_link] at hrun
  cases hrun
  rfl

/-- A block with an open end takes a node. -/
theorem pushNode_follows (hd : b.drafts[block]? = some d) (hopen : d.exits = .openEnd) :
    Follows rs (pushNode block kind) (Build.pushNode block kind) b fun id b' =>
      id = b.nodes.size ∧ b' = { b with
        nodes := b.nodes.push ⟨b.nodes.size, block, kind⟩
        drafts := b.drafts.modify block fun d =>
          { d with nodes := d.nodes ++ [b.nodes.size] } } := by
  refine .require (by simp [hd, hopen]) (.plain fun _ b' hrun => ?_)
  rw [Build.run_pushNode] at hrun
  cases hrun
  exact ⟨rfl, rfl⟩

theorem closeWith_follows (hb : b.Tidy) (target : BlockId) :
    Follows rs (closeWith target) (Build.closeWith target) b fun _ b' =>
      b.Keeps [] b' ∧ b'.current = none := by
  apply Passes.get
  cases hc : b.current with
  | none =>
      refine (setCurrent_follows none).weaken ?_
      rintro _ _ rfl
      exact ⟨⟨.setCurrent nofun, .none rfl, rfl⟩, rfl⟩
  | some c =>
      obtain ⟨d, hd, hpending⟩ := hb c hc
      apply (link_follows _ hd hpending.isFree).bind
      rintro _ _ rfl
      refine (setCurrent_follows none).weaken ?_
      rintro _ _ rfl
      exact ⟨keeps_close hc target, rfl⟩

/-- A new block comes after the current one, whose exit is taken now. -/
theorem nextBlock_follows (hb : b.Tidy) :
    Follows rs nextBlock Build.nextBlock b fun t b' =>
      b.Keeps [] { b' with current := some t } ∧ b'.drafts[t]? = some ⟨[], .openEnd⟩ := by
  apply Passes.get
  apply (newBlock_follows hb).bind
  intro t b₁ hmade
  cases hc : b.current with
  | none =>
      exact .pure ⟨hmade.keeps.enter (keeps_enter hmade.waits) hmade.new, hmade.waits.1⟩
  | some c =>
      obtain ⟨d, hd, hpending⟩ := hmade.keeps.tidy c (hmade.current.trans hc)
      apply (link_follows t hd hpending.isFree).bind
      rintro _ _ rfl
      have hclose := keeps_close (hmade.current.trans hc) t
      have hfresh := hclose.waits hmade.waits
      exact .pure ⟨(hmade.keeps.trans hclose).enter (keeps_enter hfresh) hmade.new, hfresh.1⟩

/-- The block that takes the next node is open. -/
theorem openBlock_follows (hb : b.Tidy) :
    Follows rs openBlock Build.openBlock b fun t b' =>
      b.Keeps [] b' ∧ b'.current = some t ∧ ∃ d, b'.drafts[t]? = some d ∧ d.exits = .openEnd := by
  have hnext {b : Building} (hb : b.Tidy) : Follows rs
      (nextBlock >>= fun block => setCurrent (some block) >>= fun _ => pure block)
      (Build.nextBlock >>= fun block => Build.setCurrent (some block) >>= fun _ => pure block) b
      fun t b' =>
        b.Keeps [] b' ∧ b'.current = some t ∧ ∃ d, b'.drafts[t]? = some d ∧ d.exits = .openEnd := by
    apply (nextBlock_follows hb).bind
    rintro t b₁ ⟨hkeeps, hdraft⟩
    apply (setCurrent_follows (some t)).bind
    rintro _ _ rfl
    exact .pure ⟨hkeeps, rfl, _, hdraft, rfl⟩
  apply Passes.get
  cases hc : b.current with
  | none => exact hnext hb
  | some c =>
      obtain ⟨d, hd, hpending⟩ := hb c hc
      apply (draft_follows c).bind
      rintro _ _ ⟨rfl, rfl⟩
      have hget : b.drafts.getD c default = d := by
        rw [Array.getD_eq_getD_getElem?, hd, Option.getD_some]
      rw [hget]
      split
      · rename_i hopen
        exact .pure ⟨.refl hb, hc, d, hd, hopen⟩
      · exact hnext hb

theorem emit_follows (hb : b.Tidy) (kind : NodeKind) :
    Follows rs (emit kind) (Build.emit kind) b fun id b' => b.Keeps [] b' ∧ b'.Rests id := by
  apply (openBlock_follows hb).bind
  rintro t b₁ ⟨hkeeps, hc, d, hd, hopen⟩
  refine (pushNode_follows hd hopen).weaken ?_
  rintro _ _ ⟨rfl, rfl⟩
  refine ⟨hkeeps.trans ⟨?_, ?_, rfl⟩, ⟨b₁.nodes.size, t, kind⟩, by simp, hc⟩
  · refine (Grows.pushNode _).trans (.modify (.inl hc) fun d' hd' => ?_)
    obtain rfl : d = d' := Option.some.inj (hd.symm.trans hd')
    simp [Draft.GrowsTo, hopen]
  · exact .of_draft (c := t) (d := { d with nodes := d.nodes ++ [b₁.nodes.size] }) hc
      (by simp [Array.getElem?_modify, hd]) (hopen ▸ trivial)

/-- A test closes the block of the node that it reads, which is the current one. -/
theorem branch_follows (hb : b.Tidy) (hid : b.Rests id) (thenTarget elseTarget : BlockId) :
    Follows rs (branch id thenTarget elseTarget) (Build.branch id thenTarget elseTarget) b
      fun _ b' => b.Keeps [] b' := by
  obtain ⟨n, hn, hc⟩ := hid
  apply Passes.get
  apply (newDraft_follows hb _).bind
  intro test b₁ hmade
  obtain ⟨d, hd, hpending⟩ := hmade.keeps.tidy n.block (hmade.current.trans hc)
  rw [hn]
  apply (link_follows _ hd hpending.isFree).bind
  rintro _ _ rfl
  refine (setCurrent_follows none).weaken ?_
  rintro _ _ rfl
  exact hmade.keeps.trans (keeps_close (hmade.current.trans hc) test)

/-- A part goes on from every tidy state, and keeps it so. -/
def Steady (rs : List OpenRegion) (x : Watched α) (m : Build α) : Prop :=
  ∀ b : Building, b.Tidy → Follows rs x m b fun _ b' => b.Keeps [] b'

theorem openScope_follows : Follows rs (plain (modify fun b => { b with scopes := [] :: b.scopes }))
    (modify fun b => { b with scopes := [] :: b.scopes }) b fun _ b' =>
      b' = { b with scopes := [] :: b.scopes } :=
  .plain fun _ _ hrun => (Build.run_modify.mp hrun).symm

theorem closeScope_follows :
    Follows rs (plain (modify fun b => { b with scopes := b.scopes.drop 1 }))
      (modify fun b => { b with scopes := b.scopes.drop 1 }) b fun _ b' =>
        b' = { b with scopes := b.scopes.drop 1 } :=
  .plain fun _ _ hrun => (Build.run_modify.mp hrun).symm

theorem Steady.inScope {x : Watched Unit} {m : Build Unit} (h : Steady rs x m) :
    Steady rs (inScope x) (Build.inScope m) := by
  intro b hb
  apply openScope_follows.bind
  rintro _ _ rfl
  apply (h { b with scopes := [] :: b.scopes } hb).bind
  intro _ b₁ hkeeps
  refine closeScope_follows.weaken ?_
  rintro _ _ rfl
  exact hkeeps.closeScope

/-- The frames of a statement under watch and those of the plain construction: a copy of a final
body goes on in the regions around the one that it ends. -/
inductive Stacked : List Frame → List FlowTyping.Frame → Prop
  | nil : Stacked [] []
  | loop {fs : List Frame} {gs : List FlowTyping.Frame} (label : Option String)
      (continueTarget breakTarget : BlockId) (h : Stacked fs gs) :
      Stacked (.loop label continueTarget breakTarget :: fs)
        (.loop label continueTarget breakTarget :: gs)
  | handlers {fs : List Frame} {gs : List FlowTyping.Frame} (targets : List (String × BlockId))
      (h : Stacked fs gs) : Stacked (.handlers targets :: fs) (.handlers targets :: gs)
  | finalBody {fs : List Frame} {gs : List FlowTyping.Frame} {copy : Watched Unit}
      {copy' : Build Unit} (id : Nat) (h : Stacked fs gs)
      (hcopy : Steady (fs.map Frame.region) copy copy') :
      Stacked (.finalBody id copy :: fs) (.finalBody id copy' :: gs)

variable {fs : List Frame} {gs : List FlowTyping.Frame}

theorem Stacked.length_eq (h : Stacked fs gs) : fs.length = gs.length := by
  induction h with
  | nil => rfl
  | loop _ _ _ _ ih | handlers _ _ ih | finalBody _ _ _ ih => exact congrArg (· + 1) ih

theorem Stacked.ids_eq (h : Stacked fs gs) (count : Nat) :
    (Frame.crossed count fs).map Crossing.id =
      (FlowTyping.Frame.crossings (gs.take count)).map FlowTyping.Crossing.id := by
  induction h generalizing count with
  | nil => cases count <;> rfl
  | loop _ _ _ _ ih | handlers _ _ ih =>
      cases count with
      | zero => rfl
      | succ count => exact ih count
  | finalBody id _ _ ih =>
      cases count with
      | zero => rfl
      | succ count => exact congrArg (id :: ·) (ih count)

/-- One copy after another is made, each in the regions around the one that it ends. -/
theorem crossed_passes (h : Stacked fs gs) (count : Nat) (inner : List OpenRegion) :
    ∃ rs, ∀ b : Building, b.Tidy → Passes (inner ++ fs.map Frame.region) rs
      ((Frame.crossed count fs).forM fun crossing => do
        truncate crossing.depth
        crossing.copy.balanced)
      ((FlowTyping.Frame.crossings (gs.take count)).forM FlowTyping.Crossing.copy) b
      fun _ b' => b.Keeps [] b' := by
  have hdone (rs : List OpenRegion) : ∃ rs', ∀ b : Building, b.Tidy →
      Passes rs rs' (pure ()) (pure ()) b fun _ b' => b.Keeps [] b' :=
    ⟨rs, fun _ hb => .pure (.refl hb)⟩
  induction h generalizing count inner with
  | nil => cases count <;> exact hdone _
  | loop label continueTarget breakTarget _ ih =>
      cases count with
      | zero => exact hdone _
      | succ count =>
          have hrest := ih count (inner ++ [.loop label continueTarget breakTarget])
          rw [List.append_assoc] at hrest
          exact hrest
  | handlers targets _ ih =>
      cases count with
      | zero => exact hdone _
      | succ count =>
          have hrest := ih count (inner ++ [.handlers targets])
          rw [List.append_assoc] at hrest
          exact hrest
  | @finalBody fs _ copy copy' id _ hcopy ih =>
      cases count with
      | zero => exact hdone _
      | succ count =>
          obtain ⟨rs, hrest⟩ := ih count []
          refine ⟨rs, fun b hb => ?_⟩
          have hfirst : Passes (inner ++ .finalBody id :: fs.map Frame.region)
              (fs.map Frame.region) (do truncate fs.length; copy.balanced) copy' b
              fun _ b' => b.Keeps [] b' := by
            refine .regions ?_ ((hcopy b hb).balanced fun _ _ h => h.depth)
            have hlength : (inner ++ .finalBody id :: fs.map Frame.region).length - fs.length =
                inner.length + 1 := by
              simp
              omega
            simp only [hlength, List.drop_append]
            simp
          exact hfirst.bind fun _ b' hkeeps =>
            (hrest b' hkeeps.tidy).weaken fun _ _ h => hkeeps.trans h

/-- A path out of some frames is made, and the current block is as before. -/
theorem leaveThrough_follows (h : Stacked fs gs) (hb : b.Tidy) (count : Nat) (target : BlockId) :
    Follows (fs.map Frame.region) (leaveThrough fs count target)
      (Build.leaveThrough (FlowTyping.Frame.crossings (gs.take count)) target) b
      fun _ b' => b.Keeps [] b' := by
  have hids := h.ids_eq count
  have hempty : (Frame.crossed count fs).isEmpty =
      (FlowTyping.Frame.crossings (gs.take count)).isEmpty := by
    rw [← List.isEmpty_map (f := Crossing.id), hids, List.isEmpty_map]
  obtain ⟨rs, hcopies⟩ := crossed_passes h count []
  refine .balanced (.require (by simp) ?_) fun _ _ hkeeps => hkeeps.depth
  rw [Build.leaveThrough]
  dsimp only
  rw [hids, hempty]
  split
  · exact .pure (.refl hb)
  generalize (FlowTyping.Frame.crossings (gs.take count)).map FlowTyping.Crossing.id = ids
  apply Passes.get
  cases b.finalPaths.find? fun path => path.1 = (ids, target) with
  | some path => exact .pure (.refl hb)
  | none => ?_
  apply Passes.get
  apply (newBlock_follows hb).bind
  intro first b₁ hmade
  apply (setCurrent_follows (some first)).bind
  rintro _ _ rfl
  have henter := keeps_enter hmade.waits
  apply (hcopies _ henter.tidy).bind
  intro _ b₂ hcopied
  apply (closeWith_follows hcopied.tidy target).bind
  rintro _ b₃ ⟨hclosed, -⟩
  refine .regions rfl ?_
  apply (setCurrent_follows b.current).bind
  rintro _ _ rfl
  have hremember (key : List Nat × BlockId) : Follows (fs.map Frame.region)
      (plain (modify fun b => { b with finalPaths := (key, first) :: b.finalPaths }))
      (modify fun b => { b with finalPaths := (key, first) :: b.finalPaths })
      { b₃ with current := b.current } fun _ b' => b.Keeps [] b' := by
    refine .plain fun _ b₄ hrun => ?_
    obtain rfl := Build.run_modify.mp hrun
    have hkeeps := (hmade.keeps.enter henter hmade.new).trans (hcopied.trans hclosed)
    refine ⟨hkeeps.grows.restore rfl rfl rfl, fun c hc => ?_, hkeeps.depth⟩
    -- The block that was current has waited while the path was made.
    obtain ⟨d, hd, hpending⟩ := hmade.keeps.tidy c (hmade.current.trans hc)
    have hne : some first ≠ some c := fun heq =>
      hmade.waits.2 ((hmade.current.trans hc).trans heq.symm)
    exact ⟨d, ((hcopied.trans hclosed).waits ⟨hd, hne⟩).1, hpending⟩
  exact (hremember _).bind fun _ _ hkeeps => .pure hkeeps

/-- The stack of regions shows the same clause for a category as the frames do. -/
theorem Stacked.findHandler_eq (h : Stacked fs gs) (category : String) :
    FlowTyping.Frame.findHandler category gs =
      (OpenRegion.findHandler category (fs.map Frame.region)).map fun found =>
        (gs.take found.1, found.2) := by
  induction h with
  | nil => rfl
  | @loop fs _ _ _ _ _ ih | @finalBody fs _ _ _ _ _ _ ih =>
      simp only [FlowTyping.Frame.findHandler, ih, List.map_cons, Frame.region,
        OpenRegion.findHandler]
      cases OpenRegion.findHandler category (fs.map Frame.region) <;> rfl
  | @handlers fs _ targets _ ih =>
      simp only [FlowTyping.Frame.findHandler, ih, List.map_cons, Frame.region,
        OpenRegion.findHandler]
      cases targets.find? fun t => t.1 = category || t.1 = catchAll with
      | some t => rfl
      | none => cases OpenRegion.findHandler category (fs.map Frame.region) <;> rfl

theorem Stacked.findLoop_eq (h : Stacked fs gs) (label : Option String) :
    FlowTyping.Frame.findLoop label gs =
      (OpenRegion.findLoop label (fs.map Frame.region)).map fun found =>
        (gs.take found.1, found.2) := by
  induction h with
  | nil => rfl
  | @loop fs _ name _ _ _ ih =>
      simp only [FlowTyping.Frame.findLoop, ih, List.map_cons, Frame.region, OpenRegion.findLoop]
      cases label.isNone || name = label with
      | true => rfl
      | false => cases OpenRegion.findLoop label (fs.map Frame.region) <;> rfl
  | @handlers fs _ _ _ ih | @finalBody fs _ _ _ _ _ _ ih =>
      simp only [FlowTyping.Frame.findLoop, ih, List.map_cons, Frame.region, OpenRegion.findLoop]
      cases OpenRegion.findLoop label (fs.map Frame.region) <;> rfl

theorem leaveAll_follows (h : Stacked fs gs) (hb : b.Tidy) (target : BlockId) :
    Follows (fs.map Frame.region) (leaveThrough fs fs.length target)
      (Build.leaveThrough (FlowTyping.Frame.crossings gs) target) b fun _ b' => b.Keeps [] b' := by
  have hleave := leaveThrough_follows h hb fs.length target
  rwa [h.length_eq, List.take_length, ← h.length_eq] at hleave

theorem exceptionTarget_follows (h : Stacked fs gs) (hb : b.Tidy) (category : String) :
    Follows (fs.map Frame.region) (exceptionTarget fs category)
      (Build.exceptionTarget gs category) b fun _ b' => b.Keeps [] b' := by
  rw [Build.exceptionTarget, h.findHandler_eq]
  apply Passes.look
  cases OpenRegion.findHandler category (fs.map Frame.region) with
  | none => exact leaveAll_follows h hb _
  | some found => exact leaveThrough_follows h hb found.1 found.2

theorem exceptionTargets_follows (h : Stacked fs gs) (hb : b.Tidy) (categories : List String)
    (routed : List (String × BlockId)) :
    Follows (fs.map Frame.region) (exceptionTargets fs categories routed)
      (Build.exceptionTargets gs categories routed) b fun _ b' => b.Keeps [] b' := by
  induction categories generalizing b routed with
  | nil => exact .pure (.refl hb)
  | cons category rest ih =>
      rw [exceptionTargets, Build.exceptionTargets]
      split
      · exact (Passes.throw (Q := fun _ _ => False) .emptyExceptionCategory).bind nofun
      split
      · exact ih hb routed
      · apply (exceptionTarget_follows h hb category).bind
        intro target b₁ hkeeps
        exact (ih hkeeps.tidy _).weaken fun _ _ hrest => hkeeps.trans hrest

/-- An open block is left by a node that may raise. -/
theorem raise_follows (hd : b.drafts[block]? = some d) (hopen : d.exits = .openEnd)
    (handlers : List (String × BlockId)) (terminal : Bool) :
    Follows rs (raise block handlers terminal)
      (Build.modifyDraft block fun d => { d with exits := .raise none handlers terminal }) b
      fun _ b' => b' = { b with drafts := b.drafts.modify block fun d =>
        { d with exits := .raise none handlers terminal } } :=
  .require (by simp [hd, hopen]) (.plain fun _ _ hrun => (Build.run_modify.mp hrun).symm)

/-- A node that may raise is placed in an open block, which it ends. -/
theorem place_follows (rs : List OpenRegion) (hd : b.drafts[block]? = some ⟨[], .openEnd⟩)
    (kind : NodeKind) (handlers : List (String × BlockId)) (terminal : Bool) :
    Follows rs
      (do
        let id ← pushNode block kind
        raise block handlers terminal
        setCurrent (if terminal then none else some block)
        return id)
      (do
        let id ← Build.pushNode block kind
        Build.modifyDraft block fun d => { d with exits := .raise none handlers terminal }
        Build.setCurrent (if terminal then none else some block)
        return id) b
      fun id b' => Keeps [] { b with current := some block } b' ∧
        (terminal = false → b'.Rests id) := by
  let push := fun d : Draft => { d with nodes := d.nodes ++ [b.nodes.size] }
  let close := fun d : Draft => { d with exits := .raise none handlers terminal }
  apply (pushNode_follows hd rfl).bind
  rintro _ _ ⟨rfl, rfl⟩
  have hd' : (b.drafts.modify block push)[block]? = some ⟨[b.nodes.size], .openEnd⟩ := by
    simp [Array.getElem?_modify, hd, push]
  apply (raise_follows hd' rfl handlers terminal).bind
  rintro _ _ rfl
  apply (setCurrent_follows _).bind
  rintro _ _ rfl
  refine .pure ⟨⟨?_, ?_, rfl⟩, ?_⟩
  · have hpush : ∀ d, b.drafts[block]? = some d → d.GrowsTo (push d) := by
      intro d hdraft
      obtain rfl : ⟨[], .openEnd⟩ = d := Option.some.inj (hd.symm.trans hdraft)
      simp [Draft.GrowsTo]
    have hclose : ∀ d, (b.drafts.modify block push)[block]? = some d → d.GrowsTo (close d) := by
      intro d hdraft
      obtain rfl : ⟨[b.nodes.size], .openEnd⟩ = d := Option.some.inj (hd'.symm.trans hdraft)
      simp [Draft.GrowsTo, close]
    refine Grows.trans (.pushNode ⟨b.nodes.size, block, kind⟩) (.trans (.modify (.inl rfl) hpush)
      (.trans (.modify (.inl rfl) hclose) (.setCurrent fun i hi => .inl ?_)))
    cases terminal with
    | true => cases hi
    | false => exact hi
  · cases terminal with
    | true => exact .none rfl
    | false =>
        exact .of_draft (d := ⟨[b.nodes.size], .raise none handlers false⟩) rfl
          (by simp [Array.getElem?_modify, hd]) trivial
  · rintro rfl
    exact ⟨⟨b.nodes.size, block, kind⟩, by simp, rfl⟩

/-- A node that may raise is alone in its block. If it is terminal, nothing comes after it. -/
theorem emitRaising_follows (h : Stacked fs gs) (hb : b.Tidy) (kind : NodeKind)
    (categories : List String) (terminal : Bool) :
    Follows (fs.map Frame.region) (emitRaising fs kind categories terminal)
      (Build.emitRaising gs kind categories terminal) b
      fun id b' => b.Keeps [] b' ∧ (terminal = false → b'.Rests id) := by
  apply (exceptionTargets_follows h hb categories []).bind
  intro handlers b₁ hrouted
  have hplace {block : BlockId} {b₂ : Building}
      (hkeeps : b₁.Keeps [] { b₂ with current := some block })
      (hd : b₂.drafts[block]? = some ⟨[], .openEnd⟩) :=
    (place_follows (fs.map Frame.region) hd kind handlers terminal).weaken
      fun _ _ hplaced => And.intro ((hrouted.trans hkeeps).trans hplaced.1) hplaced.2
  have hnext := (nextBlock_follows hrouted.tidy).bind
    fun _ _ hnext => hplace hnext.1 hnext.2
  apply Passes.get
  cases hc : b₁.current with
  | none =>
      apply (Passes.value none).bind
      rintro _ _ ⟨rfl, rfl⟩
      exact hnext
  | some c =>
      obtain ⟨d, hd, -⟩ := hrouted.tidy c hc
      apply (draft_follows c).bind
      rintro _ _ ⟨rfl, rfl⟩
      rw [Array.getD_eq_getD_getElem?, hd, Option.getD_some]
      split
      · rename_i hempty
        obtain ⟨nodes, exits⟩ := d
        obtain ⟨rfl, rfl⟩ : exits = .openEnd ∧ nodes = [] := by simpa using hempty
        apply (Passes.value (some c)).bind
        rintro _ _ ⟨rfl, rfl⟩
        apply (Passes.value c).bind
        rintro _ _ ⟨rfl, rfl⟩
        exact hplace ⟨.setCurrent fun _ hi => .inl (hc.trans hi), .of_draft rfl hd trivial, rfl⟩ hd
      · apply (Passes.value none).bind
        rintro _ _ ⟨rfl, rfl⟩
        exact hnext

/-- A way out ends the current path. -/
theorem depart_follows {leave : Watched BlockId} {leave' : Build BlockId}
    (hleave : Follows rs leave leave' b fun _ b' => b.Keeps [] b') :
    Follows rs (leave >>= closeWith) (leave' >>= Build.closeWith) b fun _ b' => b.Keeps [] b' :=
  hleave.bind fun target _ hkeeps =>
    (closeWith_follows hkeeps.tidy target).weaken fun _ _ hclosed => hkeeps.trans hclosed.1

theorem jump_steady (h : Stacked fs gs) (label : Option String) (leaves : Bool) :
    Steady (fs.map Frame.region) (jump fs label leaves) (Build.jump gs label leaves) := by
  intro b hb
  unfold Build.jump
  rw [h.findLoop_eq]
  apply Passes.look
  cases OpenRegion.findLoop label (fs.map Frame.region) with
  | none =>
      cases label with
      | none => exact .throw _
      | some label => exact .throw _
  | some found => exact depart_follows (leaveThrough_follows h hb found.1 _)

end

end Watched

end FlowTyping
