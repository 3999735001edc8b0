import FlowTyping.Proofs.Drafting.Expressions
import FlowTyping.Proofs.Lowering.Protected

/-!
Simple statements are made of steps, and so is the beginning of a loop.
-/

namespace FlowTyping

open Build Building

section

variable {frames : List Frame} {b b' b₁ b₂ b₃ b₄ : Building} {G : Marks} {k : Span} {u : Unit}

namespace Stepwise

theorem scopes (f : Scopes → Scopes) :
    Stepwise frames (modify fun b => { b with scopes := f b.scopes }) where
  run {b b' G k u} h _ hs hrun := by
    obtain rfl := run_modify.mp hrun
    have hstep : Step b G { b with scopes := f b.scopes } G := .names _
    exact ⟨G, h.step hstep, hstep.moves fun _ hc => .inl hc, hs.keep rfl (.refl G)⟩

theorem declares (var : LocalVar) : Stepwise frames (declare var) where
  run {b b' G k u} h hfits hs hrun := by
    rw [run_declare] at hrun
    cases hrun
    exact (scopes (Scopes.declare · var)).run (a := ()) h hfits hs (run_modify.mpr rfl)

theorem inside {m : Build Unit} (hm : Stepwise frames m) : Stepwise frames (inScope m) :=
  .bind (scopes ([] :: ·)) fun _ => .bind hm fun _ => scopes (List.drop 1)

theorem discarded {α : Type} {m : Build α} (hm : Stepwise frames m) :
    Stepwise frames (discard m) where
  run h hfits hs hrun := by
    obtain ⟨a, hrun⟩ := run_discard.mp hrun
    exact hm.run h hfits hs hrun

theorem emits {kind : NodeKind} (hkind : kind.isRaising = false) :
    Stepwise frames (discard (emit kind)) :=
  (emit_yields hkind).stepwise.discarded

end Stepwise

/-- A way out ends the current path. -/
theorem depart_drafted {crossed : List Crossing} {target : Nat} (h : b.Drafted G)
    (hs : b.Stands G k) (hcrosses : Crosses G k crossed target)
    (hrun : (do closeWith (← leaveThrough crossed target)).run b = .ok (u, b')) :
    ∃ G', b'.Drafted G' ∧ b.Moves [] G b' G' ∧ b'.Stands G' k := by
  obtain ⟨first, b₁, h₁, h₂⟩ := run_bind.mp hrun
  obtain ⟨G₁, hb₁, hfirst⟩ := leaveThrough_drafted h hcrosses h₁
  have hs₁ := hb₁.stands hs
  obtain ⟨hd₂, hm₂, hcur⟩ := close_drafted hb₁.drafted hs₁ hfirst h₂
  exact ⟨G₁, hd₂, hb₁.moves.trans hm₂, hs₁.dead hcur⟩

theorem Exits.link_loopHead (t : BlockId) :
    Exits.link t (.special .loopHead none) = .special .loopHead (some t) :=
  rfl

theorem Array.modify_push_last {α : Type} {xs : Array α} {i : Nat} (hi : i = xs.size) (x : α)
    (f : α → α) : (xs.push x).modify i f = xs.push (f x) := by
  ext j hj hj'
  · simp
  · simp only [Array.getElem_modify, Array.getElem_push]
    grind

theorem Array.modify_push_of_lt {α : Type} {xs : Array α} {i : Nat} (hi : i < xs.size) (x : α)
    (f : α → α) : (xs.push x).modify i f = (xs.modify i f).push x := by
  ext j hj hj'
  · simp
  · simp only [Array.getElem_modify, Array.getElem_push, Array.size_modify]
    grind

/-- The head of a loop and its first block may as well be made at once, before control is
led to the head. -/
theorem run_loopHead {head first : Nat} (hcur : ∀ c : Nat, b.current = some c → c < b.drafts.size)
    (h₁ : newLoopHead.run b = .ok (head, b₁)) (h₂ : (closeWith head).run b₁ = .ok ((), b₂))
    (h₃ : newBlock.run b₂ = .ok (first, b₃)) (h₄ : (link head first).run b₃ = .ok ((), b₄)) :
    head = b.drafts.size ∧ first = b.drafts.size + 1 ∧ (closeWith head).run { b with
      drafts := (b.drafts.push ⟨[], .special .loopHead (some (b.drafts.size + 1))⟩).push
        ⟨[], .openEnd⟩ } = .ok ((), b₄) := by
  rw [newLoopHead, run_newDraft] at h₁
  cases h₁
  rw [run_closeWith] at h₂ ⊢
  rw [newBlock, run_newDraft] at h₃
  rw [run_link] at h₄
  cases h : b.current with
  | none =>
      simp only [h] at h₂
      cases h₂
      cases h₃
      cases h₄
      refine ⟨rfl, by simp, ?_⟩
      simp [Array.modify_push_of_lt, Array.modify_push_last, Exits.link_loopHead]
  | some c =>
      simp only [h] at h₂
      cases h₂
      cases h₃
      cases h₄
      have hlt := hcur c h
      refine ⟨rfl, by simp, ?_⟩
      simp [Array.modify_push_of_lt, hlt, Nat.lt_succ_of_lt hlt, Array.modify_push_last,
        Exits.link_loopHead]

/-- The head of a loop has been made, entered, and led on to its first block. -/
theorem loopHead_drafted {head first : Nat} {p q : WithTop ℚ} (h : b.Drafted G)
    (hs : b.Stands G (k.upTo p)) (hpq : p < q) (hq : q < k.stop)
    (h₁ : newLoopHead.run b = .ok (head, b₁)) (h₂ : (closeWith head).run b₁ = .ok ((), b₂))
    (h₃ : newBlock.run b₂ = .ok (first, b₃)) (h₄ : (link head first).run b₃ = .ok ((), b₄)) :
    ∃ G', b₄.Drafted G' ∧ b.Moves [] G b₄ G' ∧
      G'.blocks[head]? = some ⟨p, head :: k.loops, .head⟩ ∧
      Reserved b₄ G' first ((k.around head).block q) ∧ b.drafts.size ≤ head ∧
      b.drafts.size ≤ first ∧ b₄.current = none := by
  obtain ⟨rfl, rfl, h₅⟩ := run_loopHead (fun _ => h.shaped.lt_current) h₁ h₂ h₃ h₄
  have hsize := h.shaped.blocks
  have hstep := Step.loop (b := b) (G := G) ⟨p, b.drafts.size :: k.loops, .head⟩
    ((k.around b.drafts.size).block q) rfl rfl (lt_top_of_lt hq) hpq fun _ hl => hl
  have hmoves := hstep.moves (S := []) fun _ hc => .inl hc
  have hhead : ((G.mark ⟨p, b.drafts.size :: k.loops, .head⟩).mark
      ((k.around b.drafts.size).block q)).blocks[b.drafts.size]? =
      some ⟨p, b.drafts.size :: k.loops, .head⟩ :=
    hsize ▸ (Marks.Extends.mark _ _).block (G.mark_new _)
  have hallows : Marks.Allows ((G.mark ⟨p, b.drafts.size :: k.loops, .head⟩).mark
      ((k.around b.drafts.size).block q)) (k.upTo p) b.drafts.size :=
    ⟨_, hhead, trivial, .inl (le_refl p), fun _ hl => (List.mem_cons.mp hl)⟩
  obtain ⟨hd, hm, hcur⟩ := close_drafted (h.step hstep) (hs.keep rfl hmoves.marks) hallows h₅
  have hfirst := hm.grows.kept (b.drafts.size + 1) (by simp)
    (fun hc => Nat.not_succ_lt_self (h.shaped.lt_current hc)) (by simp)
  have hnew := (G.mark ⟨p, b.drafts.size :: k.loops, .head⟩).mark_new
    ((k.around b.drafts.size).block q)
  rw [Marks.length_mark, hsize] at hnew
  refine ⟨_, hd, hmoves.trans hm, hhead, ⟨⟨?_, ?_⟩, hnew⟩, Nat.le_refl _, Nat.le_succ _, hcur⟩
  · simp [hfirst, Array.getElem_push]
  · simp [hcur]

/-- A condition stands before what it decides about. -/
theorem test_drafted {l : Lowered} {p : WithTop ℚ} {t e : Nat} (hl : l.Stepwise frames)
    (h : b.Drafted G) (hfits : Frame.Fits G k frames) (hs : b.Stands G (k.upTo p))
    (hp : p ≤ k.stop) (ht : G.Allows (k.upTo p) t) (he : G.Allows (k.upTo p) e)
    (hrun : (l.test t e).run b = .ok (u, b')) : ∃ G', b'.Drafted G' ∧ b.Moves [] G b' G' :=
  hl.test.run h (hfits.inside (Span.upTo_inside hp)) hs ht he hrun

theorem lowerDecl_stepwise (hcopied : Frame.Copied frames) (name : String)
    (qualifier : Option String) (init : Option Expr) :
    Stepwise frames (lowerDecl frames name qualifier init) := by
  refine .bind (lowerReceiver_stepwise hcopied init) fun value => .bind (.declares _) fun _ =>
    .bind (.emits rfl) fun _ => ?_
  cases value with
  | none => exact .pure ()
  | some value => exact .emits rfl

theorem lowerAssign_stepwise (hcopied : Frame.Copied frames) (target : Target) (value : Expr) :
    Stepwise frames (lowerAssign frames target value) := by
  have hvalue := (lowerExpr_stepwise hcopied value).value.stepwise
  cases target with
  | «local» name =>
      exact .bind hvalue fun _ => .bind (lookup_stepwise name) fun _ => .emits rfl
  | field receiver name =>
      exact .bind (lowerExpr_stepwise hcopied receiver).value.stepwise fun _ =>
        .bind hvalue fun _ => .emits rfl

theorem lowerAssert_stepwise (hcopied : Frame.Copied frames) (condition : Expr) :
    Stepwise frames (lowerAssert frames condition) where
  run {b b' G k u} h hfits hs hrun := by
    simp only [lowerAssert, run_bind, run_discard] at hrun
    obtain ⟨t, b₁, h₁, e, b₂, h₂, _, b₃, h₃, _, b₄, h₄, _, b₅, ⟨id, h₅⟩, h₆⟩ := hrun
    obtain ⟨q, hq, hs⟩ := hs.between
    obtain ⟨G₁, hmade₁⟩ := newCode_drafted h hq h₁
    obtain ⟨G₂, hmade₂⟩ := newCode_drafted hmade₁.drafted hq h₂
    have hm₀₂ := hmade₁.moves.trans hmade₂.moves
    have ht := hmade₁.reserved.later hmade₂.moves (by simp)
    have he := hmade₂.reserved
    obtain ⟨G₃, hd₃, hm₃⟩ := test_drafted (lowerExpr_stepwise hcopied condition) hmade₂.drafted
      (hfits.extend hm₀₂.marks) (hmade₂.stands (hmade₁.stands hs)) hq.le
      (Marks.allows_block ht.mark (le_refl q)) (Marks.allows_block he.mark (le_refl q)) h₃
    obtain ⟨hd₄, hm₄, hs₄, -⟩ := turn_drafted hd₃ (he.later hm₃ (by simp))
      (Span.block_within hq) h₄
    have hlt := hmade₁.reserved.fresh.lt
    have hle₁ := hmade₁.le
    have hle₂ := hmade₂.le
    have hm₀₄ := (hm₀₂.trans hm₃).enter hm₄ (by omega)
    obtain ⟨G₅, hd₅, hm₅, -⟩ := emitRaising_drafted hcopied .assertFailure hd₄
      (hfits.extend hm₀₄.marks) hs₄ h₅
    have ht₄ := (ht.later hm₃ (by simp)).later hm₄ (by simp; omega)
    obtain ⟨hd₆, hm₆, hs₆, -⟩ := turn_drafted hd₅ (ht₄.later hm₅ (by simp))
      (Span.block_within hq) h₆
    exact ⟨G₅, hd₆, (hm₀₄.trans hm₅).enter hm₆ hle₁, hs₆⟩

theorem jump_stepwise (hcopied : Frame.Copied frames) (label : Option String) (leaves : Bool) :
    Stepwise frames (jump frames label leaves) where
  run h hfits hs hrun := by
    obtain ⟨crossed, target, hway, hrun⟩ := run_jump hrun
    exact depart_drafted h hs (hcopied.way hfits hway) hrun

theorem lowerReturn_stepwise (hcopied : Frame.Copied frames) (value : Option Expr) :
    Stepwise frames (lowerStmt frames (.returnValue value)) := by
  rw [lowerStmt]
  refine .bind (lowerReceiver_stepwise hcopied value) fun value => .bind (.emits rfl) fun _ => ?_
  exact ⟨fun h hfits hs hrun => depart_drafted h hs (hcopied.crossings hfits) hrun⟩

theorem lowerThrow_stepwise (hcopied : Frame.Copied frames) (exception : String)
    (value : Option Expr) : Stepwise frames (lowerStmt frames (.throw exception value)) := by
  rw [lowerStmt]
  refine .bind (lowerReceiver_stepwise hcopied value) fun value => .discarded ⟨?_⟩
  intro b b' G k id h hfits hs hrun
  obtain ⟨G', hd, hm, hs', -⟩ :=
    emitRaising_drafted hcopied (.throw exception value) h hfits hs hrun
  exact ⟨G', hd, hm, hs'⟩

end

end FlowTyping
