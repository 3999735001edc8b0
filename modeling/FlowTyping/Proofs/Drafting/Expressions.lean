import FlowTyping.Proofs.Drafting.Leaving
import FlowTyping.Proofs.Lowering.Values

/-!
Expressions are made of steps: a value ends in the current block, and a test leads only to
its two targets.
-/

namespace FlowTyping

open Build Building

/-- The current block ends with a node. -/
def Building.Ends (b : Building) (id : NodeId) : Prop :=
  b.Rests id ∧ ∃ (c : Nat) (d : Draft), b.current = some c ∧ b.drafts[c]? = some d ∧
    d.nodes.getLast? = some id

/-- A construction of a value is made of steps, the last of which makes its node. -/
structure Yields (frames : List Frame) (m : Build NodeId) : Prop where
  run : ∀ {b b' : Building} {G : Marks} {k : Span} {id : NodeId}, b.Drafted G →
    Frame.Fits G k frames → b.Stands G k → m.run b = .ok (id, b') →
    ∃ G', b'.Drafted G' ∧ b.Moves [] G b' G' ∧ b'.Stands G' k ∧ b'.Ends id

/-- A construction of a test is made of steps. -/
structure Selects (frames : List Frame) (test : BlockId → BlockId → Build Unit) : Prop where
  run : ∀ {b b' : Building} {G : Marks} {k : Span} {t e : Nat} {u : Unit}, b.Drafted G →
    Frame.Fits G k frames → b.Stands G k → G.Allows k t → G.Allows k e →
    (test t e).run b = .ok (u, b') → ∃ G', b'.Drafted G' ∧ b.Moves [] G b' G'

structure Lowered.Stepwise (frames : List Frame) (l : Lowered) : Prop where
  value : Yields frames l.value
  test : Selects frames l.test

section

variable {α β : Type} {frames : List Frame} {m : Build α} {f : α → Build β}

namespace Stepwise

theorem pure (a : α) : Stepwise frames (pure a : Build α) where
  run {b b' G k a'} h _ hs hrun := by
    obtain ⟨-, rfl⟩ := run_pure.mp hrun
    exact ⟨G, h, .refl [] b G, hs⟩

theorem bind (hm : Stepwise frames m) (hf : ∀ a, Stepwise frames (f a)) :
    Stepwise frames (m >>= f) where
  run h hfits hs hrun := by
    obtain ⟨a, b₁, h₁, h₂⟩ := run_bind.mp hrun
    obtain ⟨G₁, hd₁, hm₁, hs₁⟩ := hm.run h hfits hs h₁
    obtain ⟨G₂, hd₂, hm₂, hs₂⟩ := (hf a).run hd₁ (hfits.extend hm₁.marks) hs₁ h₂
    exact ⟨G₂, hd₂, hm₁.trans hm₂, hs₂⟩

end Stepwise

namespace Yields

theorem stepwise {m : Build NodeId} (hm : Yields frames m) : Stepwise frames m where
  run h hfits hs hrun := by
    obtain ⟨G', hd, hm, hs', -⟩ := hm.run h hfits hs hrun
    exact ⟨G', hd, hm, hs'⟩

theorem bind {f : α → Build NodeId} (hm : Stepwise frames m) (hf : ∀ a, Yields frames (f a)) :
    Yields frames (m >>= f) where
  run h hfits hs hrun := by
    obtain ⟨a, b₁, h₁, h₂⟩ := run_bind.mp hrun
    obtain ⟨G₁, hd₁, hm₁, hs₁⟩ := hm.run h hfits hs h₁
    obtain ⟨G₂, hd₂, hm₂, hs₂, hends⟩ := (hf a).run hd₁ (hfits.extend hm₁.marks) hs₁ h₂
    exact ⟨G₂, hd₂, hm₁.trans hm₂, hs₂, hends⟩

end Yields

end

namespace Build

variable {b b' b₁ b₂ b₃ : Building} {G : Marks} {k : Span} {frames : List Frame} {t : Nat}
  {u : Unit}

theorem Makes.ends {G' : Marks} {m : Mark} {id : NodeId} (h : Makes b G t m b' G')
    (hends : b.Ends id) : b'.Ends id := by
  obtain ⟨⟨n, hn, hblock⟩, c, d, hcur, hd, hlast⟩ := hends
  refine ⟨⟨n, h.moves.grows.node id n hn, h.current.trans hblock⟩, c, d, h.current.trans hcur,
    ?_, hlast⟩
  rw [h.kept c (Array.getElem?_eq_some_iff.mp hd).1, hd]

/-- Code goes on in a fresh block after the current one. -/
theorem next_drafted (h : b.Drafted G) (hs : b.Stands G k)
    (h₁ : newBlock.run b = .ok (t, b₁))
    (h₂ : (closeWith t).run b₁ = .ok ((), b₂)) (h₃ : (setCurrent (some t)).run b₂ = .ok ((), b')) :
    ∃ G', b'.Drafted G' ∧ b.Moves [] G b' G' ∧ b'.Stands G' k ∧
      b'.drafts[t]? = some ⟨[], .openEnd⟩ := by
  obtain ⟨q, hq, hs⟩ := hs.between
  obtain ⟨G₁, hmade⟩ := newCode_drafted h hq h₁
  obtain ⟨hd₂, hm₂, -⟩ := close_drafted hmade.drafted (hmade.stands hs)
    (Marks.allows_block hmade.reserved.mark (le_refl q)) h₂
  obtain ⟨hd₃, hm₃, hs₃, hd⟩ := turn_drafted hd₂ (hmade.reserved.later hm₂ (by simp))
    (Span.block_within hq) h₃
  exact ⟨_, hd₃, (hmade.moves.trans hm₂).enter hm₃ hmade.le, hs₃, hd⟩

/-- Code goes on in the current block or after it. -/
theorem openBlock_drafted (h : b.Drafted G) (hs : b.Stands G k)
    (hrun : openBlock.run b = .ok (t, b')) :
    ∃ G' d, b'.Drafted G' ∧ b.Moves [] G b' G' ∧ b'.Stands G' k ∧ b'.current = some t ∧
      b'.drafts[t]? = some d ∧ d.exits = .openEnd := by
  rcases run_openBlock hrun with ⟨rfl, hcur, hopen⟩ | ⟨b₁, h₁, rfl⟩
  · obtain ⟨d, hd, -⟩ := h.shaped.current t hcur
    simp only [Array.getD_eq_getD_getElem?, hd, Option.getD_some] at hopen
    exact ⟨G, d, h, .refl [] b' G, hs, hcur, hd, hopen⟩
  · obtain ⟨b₂, b₃, h₂, h₃, h₄⟩ := run_nextBlock_current h₁
    obtain ⟨G', hd', hm, hs', hd⟩ := next_drafted h hs h₂ h₃ h₄
    exact ⟨G', _, hd', hm, hs', rfl, hd, rfl⟩

/-- A plain node is emitted where its value is needed. -/
theorem emit_yields {kind : NodeKind} (hkind : kind.isRaising = false) :
    Yields frames (emit kind) where
  run {b b' G k id} h hfits hs hrun := by
    rw [emit, run_bind] at hrun
    obtain ⟨t, b₁, h₁, h₂⟩ := hrun
    obtain ⟨G₁, d, hd₁, hm₁, hs₁, hcur, hd, hopen⟩ := openBlock_drafted h hs h₁
    rw [run_pushNode] at h₂
    cases h₂
    have hstep := Step.emit (G := G₁) kind hcur hd hopen hkind
    refine ⟨G₁, hd₁.step hstep, hm₁.trans (hstep.moves fun _ hc => .inl hc),
      hs₁.keep rfl (.refl G₁), ⟨_, Array.getElem?_push_size, hcur⟩, t, _, hcur,
      getElem?_modify_of_some hd, List.getLast?_concat⟩

/-- A raising node is emitted in a block of its own. -/
theorem emitRaising_drafted (hcopied : Frame.Copied frames) {kind : NodeKind}
    {categories : List String} {terminal : Bool} {id : NodeId}
    (hkind : kind.Raises categories terminal) (h : b.Drafted G) (hfits : Frame.Fits G k frames)
    (hs : b.Stands G k)
    (hrun : (emitRaising frames kind categories terminal).run b = .ok (id, b')) :
    ∃ G', b'.Drafted G' ∧ b.Moves [] G b' G' ∧ b'.Stands G' k ∧
      (terminal = false → b'.Ends id) := by
  obtain ⟨handlers, b₁, t, b₂, h₁, hblock, rfl, rfl⟩ := run_emitRaising hrun
  obtain ⟨G₁, hb₁, hhandlers⟩ := exceptionTargets_drafted hcopied h hfits (by simp) h₁
  have hs₁ := hb₁.stands hs
  obtain ⟨G₂, hd₂, hm₂, hs₂, hd⟩ : ∃ G₂, { b₂ with current := some t }.Drafted G₂ ∧
      b₁.Moves [] G₁ { b₂ with current := some t } G₂ ∧
      Stands { b₂ with current := some t } G₂ k ∧ b₂.drafts[t]? = some ⟨[], .openEnd⟩ := by
    rcases hblock with ⟨rfl, hcur, hd⟩ | ⟨hnext, -⟩
    · obtain ⟨d, hd', -⟩ := hb₁.drafted.shaped.current t hcur
      have hsame : { b₂ with current := some t } = b₂ := by rw [← hcur]
      rw [hsame]
      exact ⟨G₁, hb₁.drafted, .refl [] _ _, hs₁, by simp_all⟩
    · obtain ⟨b₃, b₄, h₃, h₄, h₅⟩ := run_nextBlock_current hnext
      exact next_drafted hb₁.drafted hs₁ h₃ h₄ h₅
  obtain ⟨m, hm, hk⟩ := hs₂.within rfl
  have hstep := Step.raise (b := { b₂ with current := some t }) handlers rfl hd hkind
    (by simpa using categories_of_run h₁)
    fun r hr => (hm₂.marks.allows (hhandlers r hr)).leads hm hk
  have hmoves := hb₁.moves.trans (hm₂.trans (hstep.moves (S := []) fun c hc => ?_))
  · refine ⟨G₂, hd₂.step hstep, hmoves, ?_, ?_⟩
    · cases terminal with
      | true => exact hs₂.dead rfl
      | false => exact hs₂.keep rfl (.refl G₂)
    · rintro rfl
      exact ⟨⟨_, Array.getElem?_push_size, rfl⟩, t, _, rfl, getElem?_modify_of_some hd,
        List.getLast?_concat⟩
  · cases terminal with
    | true => cases hc
    | false => exact .inl hc

/-- A test of the node emitted last. -/
theorem branch_drafted {e : Nat} {id : NodeId} (h : b.Drafted G) (hs : b.Stands G k)
    (hends : b.Ends id) (ht : G.Allows k t) (he : G.Allows k e)
    (hrun : (branch id t e).run b = .ok (u, b')) :
    ∃ G', b'.Drafted G' ∧ b.Moves [] G b' G' := by
  obtain ⟨hrests, c, d, hcur, hd, hlast⟩ := hends
  obtain ⟨test, b₁, h₁, h₂⟩ := run_branch hrests hrun
  rw [run_newDraft] at h₁
  cases h₁
  rw [run_closeWith] at h₂
  simp only [hcur] at h₂
  cases h₂
  obtain ⟨q, hq, hs⟩ := hs.between
  obtain ⟨m, hm, hk⟩ := hs.within hcur
  have hG := Marks.Extends.mark G ⟨q, k.loops, .test c⟩
  have hnew := h.shaped.blocks ▸ G.mark_new ⟨q, k.loops, .test c⟩
  have htest : Mark.Within ⟨q, k.loops, .test c⟩ k := ⟨hq, fun _ hl => hl⟩
  have hstep := Step.branch ⟨q, k.loops, .test c⟩ hcur hd hlast rfl (lt_top_of_lt hq)
    ⟨m, _, hG.block hm, hnew, rfl, .inl hk.place, fun l hl => .inr (hk.loops l hl)⟩
    ((hG.allows ht).leads hnew htest) ((hG.allows he).leads hnew htest)
  exact ⟨_, h.step hstep, hstep.moves nofun⟩

/-- A condition, two ways on, and a block where they meet. -/
theorem diamond_drafted {α β : Type} {c : Lowered} {left : Build α} {right : Build β} {x : α}
    {y : β} {e m : Nat} {b₄ b₅ b₆ b₇ b₈ b₉ b₁₀ : Building} (hc : c.Stepwise frames)
    (hl : Stepwise frames left) (hr : Stepwise frames right) (h : b.Drafted G)
    (hfits : Frame.Fits G k frames) (hs : b.Stands G k)
    (h₁ : newBlock.run b = .ok (t, b₁)) (h₂ : newBlock.run b₁ = .ok (e, b₂))
    (h₃ : newBlock.run b₂ = .ok (m, b₃)) (h₄ : (c.test t e).run b₃ = .ok ((), b₄))
    (h₅ : (setCurrent (some t)).run b₄ = .ok ((), b₅)) (h₆ : left.run b₅ = .ok (x, b₆))
    (h₇ : (closeWith m).run b₆ = .ok ((), b₇))
    (h₈ : (setCurrent (some e)).run b₇ = .ok ((), b₈)) (h₉ : right.run b₈ = .ok (y, b₉))
    (h₁₀ : (closeWith m).run b₉ = .ok ((), b₁₀))
    (h₁₁ : (setCurrent (some m)).run b₁₀ = .ok ((), b')) :
    ∃ G', b'.Drafted G' ∧ b.Moves [] G b' G' ∧ b'.Stands G' k := by
  obtain ⟨q, hq, hs⟩ := hs.between
  obtain ⟨p, hp, hs⟩ := hs.between
  obtain ⟨G₁, hmade₁⟩ := newCode_drafted h (hp.trans hq) h₁
  obtain ⟨G₂, hmade₂⟩ := newCode_drafted hmade₁.drafted (hp.trans hq) h₂
  obtain ⟨G₃, hmade₃⟩ := newCode_drafted hmade₂.drafted hq h₃
  have hm₂₃ := hmade₂.moves.trans hmade₃.moves
  have hm₀₃ := hmade₁.moves.trans hm₂₃
  have ht := hmade₁.reserved.later hm₂₃ (by simp)
  have he := hmade₂.reserved.later hmade₃.moves (by simp)
  have hm := hmade₃.reserved
  obtain ⟨G₄, hd₄, hm₄⟩ := hc.test.run hmade₃.drafted
    ((hfits.extend hm₀₃.marks).inside (Span.upTo_inside (hp.trans hq).le))
    (hmade₃.stands (hmade₂.stands (hmade₁.stands hs)))
    (Marks.allows_block ht.mark (le_refl p)) (Marks.allows_block he.mark (le_refl p)) h₄
  have hfits₄ := (hfits.extend (hm₀₃.trans hm₄).marks).inside (Span.upTo_inside hq.le)
  have hjoin := hm₄.marks.allows (Marks.allows_block hm.mark (le_refl q))
  obtain ⟨G₇, hd₇, hm₇⟩ := arm_drafted hl hd₄ hfits₄ (ht.later hm₄ (by simp))
    (Span.block_within hp) hjoin h₅ h₆ h₇
  have hlt₁ := hmade₁.reserved.fresh.lt
  have hlt₂ := hmade₂.reserved.fresh.lt
  have hle₁ := hmade₁.le
  have hle₂ := hmade₂.le
  have hle₃ := hmade₃.le
  have hm₄₇ := (hm₄.weaken (T := [t]) (by simp)).trans hm₇
  obtain ⟨G₁₀, hd₁₀, hm₁₀⟩ := arm_drafted hr hd₇ (hfits₄.extend hm₇.marks)
    (he.later hm₄₇ (by simp; omega)) (Span.block_within hp) (hm₇.marks.allows hjoin) h₈ h₉ h₁₀
  have hm₇' := hm.later hm₄₇ (by simp; omega)
  obtain ⟨hd₁₁, hm₁₁, hs₁₁, -⟩ := turn_drafted hd₁₀ (hm₇'.later hm₁₀ (by simp; omega))
    (Span.block_within hq) h₁₁
  exact ⟨G₁₀, hd₁₁, (((hm₀₃.trans hm₄).enter hm₇ (by omega)).enter hm₁₀ (by omega)).enter hm₁₁
    (by omega), hs₁₁⟩

end Build

namespace Lowered.Stepwise

variable {frames : List Frame} {l r c : Lowered} {v : Build NodeId}

theorem ofValue (hv : Yields frames v) : Lowered.Stepwise frames (.ofValue v) where
  value := hv
  test := ⟨fun h hfits hs ht he hrun => by
    obtain ⟨id, b₁, h₁, h₂⟩ := run_bind.mp hrun
    obtain ⟨G₁, hd₁, hm₁, hs₁, hends⟩ := hv.run h hfits hs h₁
    obtain ⟨G₂, hd₂, hm₂⟩ := branch_drafted hd₁ hs₁ hends (hm₁.marks.allows ht)
      (hm₁.marks.allows he) h₂
    exact ⟨G₂, hd₂, hm₁.trans hm₂⟩⟩

theorem negation (h : Lowered.Stepwise frames l) : Lowered.Stepwise frames l.negation where
  value := .bind h.value.stepwise fun _ => emit_yields rfl
  test := ⟨fun hd hfits hs ht he hrun => h.test.run hd hfits hs he ht hrun⟩

theorem shortCircuit {op : BinOp} (hl : Lowered.Stepwise frames l)
    (hr : Lowered.Stepwise frames r) : Lowered.Stepwise frames (.shortCircuit op l r) where
  value := ⟨fun {b b' G k id} h hfits hs hrun => by
    simp only [Lowered.shortCircuit, run_bind] at hrun
    obtain ⟨i, b₁, h₁, t, b₂, h₂, m, b₃, h₃, hrun⟩ := hrun
    obtain ⟨x, y, hxy, hrun⟩ : ∃ x y : Nat, (x = t ∧ y = m ∨ x = m ∧ y = t) ∧
        (do
          branch i x y
          setCurrent (some t)
          let j ← r.value
          closeWith m
          setCurrent (some m)
          emit (.shortCircuit op i j)).run b₃ = .ok (id, b') := by
      split at hrun
      · exact ⟨t, m, .inl ⟨rfl, rfl⟩, hrun⟩
      · exact ⟨m, t, .inr ⟨rfl, rfl⟩, hrun⟩
    simp only [run_bind] at hrun
    obtain ⟨_, b₄, h₄, _, b₅, h₅, j, b₆, h₆, _, b₇, h₇, _, b₈, h₈, h₉⟩ := hrun
    obtain ⟨G₁, hd₁, hm₁, hs₁, hends⟩ := hl.value.run h hfits hs h₁
    obtain ⟨q, hq, hs₁⟩ := hs₁.between
    obtain ⟨p, hp, hs₁⟩ := hs₁.between
    obtain ⟨G₂, hmade₂⟩ := newCode_drafted hd₁ (hp.trans hq) h₂
    obtain ⟨G₃, hmade₃⟩ := newCode_drafted hmade₂.drafted hq h₃
    have hm₁₃ := hmade₂.moves.trans hmade₃.moves
    have ht := hmade₂.reserved.later hmade₃.moves (by simp)
    have hm := hmade₃.reserved
    have hfits₃ := hfits.extend (hm₁.trans hm₁₃).marks
    have hallows {z : Nat} (hz : z = t ∨ z = m) : G₃.Allows (k.upTo p) z := by
      rcases hz with rfl | rfl
      · exact Marks.allows_block ht.mark (le_refl p)
      · exact Marks.allows_block hm.mark hp.le
    obtain ⟨G₄, hd₄, hm₄⟩ := branch_drafted hmade₃.drafted (hmade₃.stands (hmade₂.stands hs₁))
      (hmade₃.ends (hmade₂.ends hends)) (hallows (hxy.imp And.left And.left))
      (hallows (hxy.symm.imp And.right And.right)) h₄
    have hm₃₄ := hm₁₃.trans hm₄
    obtain ⟨G₇, hd₇, hm₇⟩ := arm_drafted (k := k.upTo q) hr.value.stepwise hd₄
      ((hfits₃.extend hm₄.marks).inside (Span.upTo_inside hq.le)) (ht.later hm₄ (by simp))
      (Span.block_within hp) (hm₄.marks.allows (Marks.allows_block hm.mark (le_refl q))) h₅ h₆ h₇
    have hsize := hm₁.grows.size_le
    have hlt := hmade₂.reserved.fresh.lt
    have hle₂ := hmade₂.le
    have hle₃ := hmade₃.le
    have hm₇' := hm.later ((hm₄.weaken (T := [t]) (by simp)).trans hm₇) (by simp; omega)
    obtain ⟨hd₈, hm₈, hs₈, -⟩ := turn_drafted hd₇ hm₇' (Span.block_within hq) h₈
    have hm₀₈ := ((hm₁.trans hm₃₄).enter hm₇ (by omega)).enter hm₈ (by omega)
    obtain ⟨G₉, hd₉, hm₉, hs₉, hends₉⟩ := (emit_yields rfl).run hd₈
      (hfits.extend hm₀₈.marks) hs₈ h₉
    exact ⟨G₉, hd₉, hm₀₈.trans hm₉, hs₉, hends₉⟩⟩
  test := ⟨fun {b b' G k t e u} h hfits hs ht he hrun => by
    simp only [Lowered.shortCircuit, run_bind] at hrun
    obtain ⟨z, b₁, h₁, hrun⟩ := hrun
    obtain ⟨x, y, hxy, hrun⟩ : ∃ x y : Nat, (x = z ∧ y = e ∨ x = t ∧ y = z) ∧
        (do
          l.test x y
          setCurrent (some z)
          r.test t e).run b₁ = .ok (u, b') := by
      split at hrun
      · exact ⟨z, e, .inl ⟨rfl, rfl⟩, hrun⟩
      · exact ⟨t, z, .inr ⟨rfl, rfl⟩, hrun⟩
    simp only [run_bind] at hrun
    obtain ⟨_, b₂, h₂, _, b₃, h₃, h₄⟩ := hrun
    obtain ⟨q, hq, hs⟩ := hs.between
    obtain ⟨G₁, hmade⟩ := newCode_drafted h hq h₁
    have hz := Marks.allows_block hmade.reserved.mark (le_refl q)
    have hearly {w : Nat} (hw : G.Allows k w) : G₁.Allows (k.upTo q) w :=
      (hmade.moves.marks.allows hw).inside (Span.upTo_inside hq.le)
    have hfits₁ := hfits.extend hmade.moves.marks
    obtain ⟨G₂, hd₂, hm₂⟩ := hl.test.run hmade.drafted (hfits₁.inside (Span.upTo_inside hq.le))
      (hmade.stands hs) (t := x) (e := y)
      (by rcases hxy with ⟨rfl, -⟩ | ⟨rfl, -⟩ <;> [exact hz; exact hearly ht])
      (by rcases hxy with ⟨-, rfl⟩ | ⟨-, rfl⟩ <;> [exact hearly he; exact hz]) h₂
    obtain ⟨hd₃, hm₃, hs₃, -⟩ := turn_drafted hd₂ (hmade.reserved.later hm₂ (by simp))
      (Span.block_within hq) h₃
    have hm₀₃ := (hmade.moves.trans hm₂).enter hm₃ hmade.le
    obtain ⟨G₄, hd₄, hm₄⟩ := hr.test.run hd₃ (hfits.extend hm₀₃.marks) hs₃
      (hm₀₃.marks.allows ht) (hm₀₃.marks.allows he) h₄
    exact ⟨G₄, hd₄, hm₀₃.trans hm₄⟩⟩

theorem ternary (hc : Lowered.Stepwise frames c) (hl : Lowered.Stepwise frames l)
    (hr : Lowered.Stepwise frames r) : Lowered.Stepwise frames (.ternary c l r) where
  value := ⟨fun {b b' G k id} h hfits hs hrun => by
    simp only [Lowered.ternary, run_bind] at hrun
    obtain ⟨t, b₁, h₁, e, b₂, h₂, m, b₃, h₃, _, b₄, h₄, _, b₅, h₅, i, b₆, h₆, _, b₇, h₇,
      _, b₈, h₈, j, b₉, h₉, _, b₁₀, h₁₀, _, b₁₁, h₁₁, h₁₂⟩ := hrun
    obtain ⟨G₁₁, hd₁₁, hm₁₁, hs₁₁⟩ := diamond_drafted hc hl.value.stepwise hr.value.stepwise h
      hfits hs h₁ h₂ h₃ h₄ h₅ h₆ h₇ h₈ h₉ h₁₀ h₁₁
    obtain ⟨G₁₂, hd₁₂, hm₁₂, hs₁₂, hends⟩ := (emit_yields rfl).run hd₁₁
      (hfits.extend hm₁₁.marks) hs₁₁ h₁₂
    exact ⟨G₁₂, hd₁₂, hm₁₁.trans hm₁₂, hs₁₂, hends⟩⟩
  test := ⟨fun {b b' G k t e u} h hfits hs ht he hrun => by
    simp only [Lowered.ternary, run_bind] at hrun
    obtain ⟨x, b₁, h₁, y, b₂, h₂, _, b₃, h₃, _, b₄, h₄, _, b₅, h₅, _, b₆, h₆, h₇⟩ := hrun
    obtain ⟨q, hq, hs⟩ := hs.between
    obtain ⟨G₁, hmade₁⟩ := newCode_drafted h hq h₁
    obtain ⟨G₂, hmade₂⟩ := newCode_drafted hmade₁.drafted hq h₂
    have hm₀₂ := hmade₁.moves.trans hmade₂.moves
    have hx := hmade₁.reserved.later hmade₂.moves (by simp)
    have hy := hmade₂.reserved
    obtain ⟨G₃, hd₃, hm₃⟩ := hc.test.run hmade₂.drafted
      ((hfits.extend hm₀₂.marks).inside (Span.upTo_inside hq.le))
      (hmade₂.stands (hmade₁.stands hs)) (Marks.allows_block hx.mark (le_refl q))
      (Marks.allows_block hy.mark (le_refl q)) h₃
    obtain ⟨hd₄, hm₄, hs₄, -⟩ := turn_drafted hd₃ (hx.later hm₃ (by simp))
      (Span.block_within hq) h₄
    have hm₀₄ := (hm₀₂.trans hm₃).enter hm₄ hmade₁.le
    obtain ⟨G₅, hd₅, hm₅⟩ := hl.test.run hd₄ (hfits.extend hm₀₄.marks) hs₄
      (hm₀₄.marks.allows ht) (hm₀₄.marks.allows he) h₅
    have hlt₁ := hmade₁.reserved.fresh.lt
    have hle₁ := hmade₁.le
    have hle₂ := hmade₂.le
    have hy₄ := (hy.later hm₃ (by simp)).later hm₄ (by simp; omega)
    obtain ⟨hd₆, hm₆, hs₆, -⟩ := turn_drafted hd₅ (hy₄.later hm₅ (by simp))
      (Span.block_within hq) h₆
    have hm₀₆ := (hm₀₄.trans hm₅).enter hm₆ (by omega)
    obtain ⟨G₇, hd₇, hm₇⟩ := hr.test.run hd₆ (hfits.extend hm₀₆.marks) hs₆
      (hm₀₆.marks.allows ht) (hm₀₆.marks.allows he) h₇
    exact ⟨G₇, hd₇, hm₀₆.trans hm₇⟩⟩

end Lowered.Stepwise

section

variable {frames : List Frame}

theorem emitRaising_yields (hcopied : Frame.Copied frames) {kind : NodeKind}
    {categories : List String} (hkind : kind.Raises categories false) :
    Yields frames (emitRaising frames kind categories false) where
  run h hfits hs hrun := by
    obtain ⟨G', hd, hm, hs', hends⟩ := emitRaising_drafted hcopied hkind h hfits hs hrun
    exact ⟨G', hd, hm, hs', hends rfl⟩

theorem lookup_stepwise (name : String) : Stepwise frames (lookup name) where
  run {b b' G k var} h _ hs hrun := by
    obtain ⟨-, rfl⟩ := run_lookup.mp hrun
    exact ⟨G, h, .refl [] b G, hs⟩

mutual

/-- Every expression is made of steps. -/
theorem lowerExpr_stepwise (hcopied : Frame.Copied frames) :
    (e : Expr) → (lowerExpr frames e).Stepwise frames
  | .literal _ => .ofValue (emit_yields rfl)
  | .var name => .ofValue (.bind (lookup_stepwise name) fun _ => emit_yields rfl)
  | .this => .ofValue (emit_yields rfl)
  | .field receiver _ =>
      .ofValue (.bind (lowerExpr_stepwise hcopied receiver).value.stepwise fun _ => emit_yields rfl)
  | .call receiver _ args throws =>
      .ofValue (.bind (lowerReceiver_stepwise hcopied receiver) fun r =>
        .bind (lowerArgs_stepwise hcopied args) fun as =>
          emitRaising_yields hcopied (.call r _ as throws))
  | .new className args =>
      .ofValue (.bind (lowerArgs_stepwise hcopied args) fun as =>
        emitRaising_yields hcopied (.new className as))
  | .binary op lhs rhs => by
      rw [lowerExpr]
      split
      · exact .shortCircuit (lowerExpr_stepwise hcopied lhs) (lowerExpr_stepwise hcopied rhs)
      · exact .ofValue (.bind (lowerExpr_stepwise hcopied lhs).value.stepwise fun _ =>
          .bind (lowerExpr_stepwise hcopied rhs).value.stepwise fun _ => emit_yields rfl)
  | .unary op operand => by
      rw [lowerExpr]
      split
      · exact .negation (lowerExpr_stepwise hcopied operand)
      · exact .ofValue (.bind (lowerExpr_stepwise hcopied operand).value.stepwise fun _ =>
          emit_yields rfl)
  | .ternary condition thenValue elseValue =>
      .ternary (lowerExpr_stepwise hcopied condition) (lowerExpr_stepwise hcopied thenValue)
        (lowerExpr_stepwise hcopied elseValue)
  | .cast _ operand =>
      .ofValue (.bind (lowerExpr_stepwise hcopied operand).value.stepwise fun _ => emit_yields rfl)

theorem lowerReceiver_stepwise (hcopied : Frame.Copied frames) :
    (e : Option Expr) → Stepwise frames (lowerReceiver frames e)
  | none => .pure none
  | some e => .bind (lowerExpr_stepwise hcopied e).value.stepwise fun id => .pure (some id)

theorem lowerArgs_stepwise (hcopied : Frame.Copied frames) :
    (es : List Expr) → Stepwise frames (lowerArgs frames es)
  | [] => .pure []
  | e :: rest => .bind (lowerExpr_stepwise hcopied e).value.stepwise fun id =>
      .bind (lowerArgs_stepwise hcopied rest) fun ids => .pure (id :: ids)

end

end

end FlowTyping
