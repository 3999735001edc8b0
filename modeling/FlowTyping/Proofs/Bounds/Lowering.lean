import FlowTyping.Proofs.Bounds.Building

/-!
Paths out of protected regions: the frames around a statement name blocks that exist, and their
final bodies are copied with all accesses in range.
-/

namespace FlowTyping

open Build

/-- A construction accesses blocks and nodes in range once there are so many blocks. -/
abbrev Build.SafeFrom (n : Nat) (m : Build Unit) : Prop :=
  ∀ b : Building, b.Ranged → n ≤ b.drafts.size → Safe m b fun _ _ => True

namespace Frame

/-- The blocks that a frame names exist once there are so many blocks. -/
def Ranged (n : Nat) : Frame → Prop
  | .loop _ continueTarget breakTarget => continueTarget < n ∧ breakTarget < n
  | .handlers targets => ∀ t ∈ targets, t.2 < n
  | .finalBody _ copy => SafeFrom n copy

variable {n n' : Nat} {frames : List Frame}

theorem Ranged.mono {frame : Frame} (h : frame.Ranged n) (hn : n ≤ n') : frame.Ranged n' := by
  cases frame with
  | loop _ _ _ => exact ⟨Nat.lt_of_lt_of_le h.1 hn, Nat.lt_of_lt_of_le h.2 hn⟩
  | handlers targets => exact fun t ht => Nat.lt_of_lt_of_le (h t ht) hn
  | finalBody _ copy => exact fun b hb hsize => h b hb (Nat.le_trans hn hsize)

theorem ranged_mono (h : ∀ f ∈ frames, f.Ranged n) (hn : n ≤ n') : ∀ f ∈ frames, f.Ranged n' :=
  fun f hf => (h f hf).mono hn

theorem ranged_crossings (h : ∀ f ∈ frames, f.Ranged n) :
    ∀ c ∈ crossings frames, SafeFrom n c.copy := by
  intro c hc
  obtain ⟨frame, hframe, heq⟩ := List.mem_filterMap.mp hc
  cases frame with
  | finalBody id copy =>
      cases heq
      exact h _ hframe
  | _ => cases heq

theorem ranged_findHandler (h : ∀ f ∈ frames, f.Ranged n) {category : String}
    {inner : List Frame} {target : BlockId}
    (hfound : findHandler category frames = some (inner, target)) :
    target < n ∧ ∀ f ∈ inner, f.Ranged n := by
  induction frames generalizing inner with
  | nil => cases hfound
  | cons frame outer ih =>
      rw [List.forall_mem_cons] at h
      have hfurther (hfound : (findHandler category outer).map
          (fun found => (frame :: found.1, found.2)) = some (inner, target)) :
          target < n ∧ ∀ f ∈ inner, f.Ranged n := by
        obtain ⟨⟨inner', target'⟩, hinner, heq⟩ := Option.map_eq_some_iff.mp hfound
        cases heq
        obtain ⟨htarget, hall⟩ := ih h.2 hinner
        exact ⟨htarget, List.forall_mem_cons.mpr ⟨h.1, hall⟩⟩
      unfold findHandler at hfound
      cases frame with
      | handlers targets =>
          dsimp only at hfound
          split at hfound
          · cases hfound
            rename_i t ht
            exact ⟨h.1 t (List.mem_of_find?_eq_some ht), by simp⟩
          · exact hfurther hfound
      | loop _ _ _ => exact hfurther hfound
      | finalBody _ _ => exact hfurther hfound

theorem ranged_findLoop (h : ∀ f ∈ frames, f.Ranged n) {label : Option String}
    {inner : List Frame} {continueTarget breakTarget : BlockId}
    (hfound : findLoop label frames = some (inner, continueTarget, breakTarget)) :
    continueTarget < n ∧ breakTarget < n ∧ ∀ f ∈ inner, f.Ranged n := by
  induction frames generalizing inner with
  | nil => cases hfound
  | cons frame outer ih =>
      rw [List.forall_mem_cons] at h
      have hfurther (hfound : (findLoop label outer).map
          (fun found => (frame :: found.1, found.2)) =
            some (inner, continueTarget, breakTarget)) :
          continueTarget < n ∧ breakTarget < n ∧ ∀ f ∈ inner, f.Ranged n := by
        obtain ⟨⟨inner', targets⟩, hinner, heq⟩ := Option.map_eq_some_iff.mp hfound
        cases heq
        obtain ⟨hcontinue, hbreak, hall⟩ := ih h.2 hinner
        exact ⟨hcontinue, hbreak, List.forall_mem_cons.mpr ⟨h.1, hall⟩⟩
      unfold findLoop at hfound
      cases frame with
      | loop name _ _ =>
          dsimp only at hfound
          split at hfound
          · cases hfound
            exact ⟨h.1.1, h.1.2, by simp⟩
          · exact hfurther hfound
      | handlers _ => exact hfurther hfound
      | finalBody _ _ => exact hfurther hfound

end Frame

namespace Build

variable {b : Building} {n : Nat} {crossed : List Crossing} {frames : List Frame}

theorem copies_safe (hcrossed : ∀ c ∈ crossed, SafeFrom n c.copy) (hb : b.Ranged)
    (hn : n ≤ b.drafts.size) : Safe (crossed.forM Crossing.copy) b fun _ _ => True := by
  induction crossed generalizing b with
  | nil => exact .pure hb trivial
  | cons c rest ih =>
      rw [List.forall_mem_cons] at hcrossed
      apply (hcrossed.1 b hb hn).bind
      intro _ b' hb' h' _
      exact ih hcrossed.2 hb' (Nat.le_trans hn h'.drafts)

theorem leaveThrough_safe (hcrossed : ∀ c ∈ crossed, SafeFrom n c.copy) (hb : b.Ranged)
    (hn : n ≤ b.drafts.size) {target : BlockId} (htarget : target < b.drafts.size) :
    Safe (leaveThrough crossed target) b fun first b' => first < b'.drafts.size := by
  unfold leaveThrough
  split
  · exact .pure hb htarget
  · apply Safe.get fun _ _ _ => rfl
    cases hpath : b.finalPaths.find? fun path =>
        path.1 = (crossed.map Crossing.id, target) with
    | some path =>
        exact .pure hb (hb.paths path (List.mem_of_find?_eq_some hpath))
    | none =>
        apply Safe.get fun _ _ _ => rfl
        apply (newBlock_safe hb).bind
        intro first b₁ hb₁ h₁ hfirst
        apply (enter_safe hb₁ hfirst).bind
        rintro _ b₂ hb₂ h₂ -
        have hn₂ := Nat.le_trans hn (h₁.trans h₂).drafts
        apply (copies_safe hcrossed hb₂ hn₂).bind
        rintro _ b₃ hb₃ h₃ -
        have hbefore₃ := h₁.trans (h₂.trans h₃)
        apply (closeWith_safe hb₃ (Nat.lt_of_lt_of_le htarget hbefore₃.drafts)).bind
        rintro _ b₄ hb₄ h₄ -
        have hsaved : ∀ c : Nat, b.current = some c → c < b₄.drafts.size := fun c hc =>
          Nat.lt_of_lt_of_le (hb.current c hc) (hbefore₃.trans h₄).drafts
        apply (setCurrent_safe hb₄ hsaved).bind
        rintro _ _ hb₅ - rfl
        have hfirst₅ : first < b₄.drafts.size :=
          Nat.lt_of_lt_of_le hfirst (h₂.trans (h₃.trans h₄)).drafts
        apply (Safe.change (fun _ _ _ => rfl) (hb₅.remember hfirst₅)).bind
        rintro _ _ hb₆ - rfl
        exact .pure hb₆ hfirst₅

theorem exceptionTarget_safe (hframes : ∀ f ∈ frames, f.Ranged n) (hb : b.Ranged)
    (hn : n ≤ b.drafts.size) (category : String) :
    Safe (exceptionTarget frames category) b fun target b' => target < b'.drafts.size := by
  unfold exceptionTarget
  split
  · rename_i inner target hfound
    obtain ⟨htarget, hinner⟩ := Frame.ranged_findHandler hframes hfound
    exact leaveThrough_safe (Frame.ranged_crossings hinner) hb hn (Nat.lt_of_lt_of_le htarget hn)
  · exact leaveThrough_safe (Frame.ranged_crossings hframes) hb hn
      (Nat.lt_of_lt_of_le (by decide) hb.designated)

theorem exceptionTargets_safe (hframes : ∀ f ∈ frames, f.Ranged n) (categories : List String)
    {routed : List (String × BlockId)} (hb : b.Ranged) (hn : n ≤ b.drafts.size)
    (hrouted : ∀ r ∈ routed, r.2 < b.drafts.size) :
    Safe (exceptionTargets frames categories routed) b fun handlers b' =>
      ∀ h ∈ handlers, h.2 < b'.drafts.size := by
  induction categories generalizing b routed with
  | nil => exact .pure hb hrouted
  | cons category rest ih =>
      unfold exceptionTargets
      dsimp only
      split
      · exact Safe.bind (Q := fun _ _ => False) (.throw _) fun _ _ _ _ h => h.elim
      · split
        · exact ih hb hn hrouted
        · apply (exceptionTarget_safe hframes hb hn category).bind
          intro target b' hb' h' htarget
          apply ih hb' (Nat.le_trans hn h'.drafts)
          intro r hr
          rcases List.mem_append.mp hr with hr | hr
          · exact Nat.lt_of_lt_of_le (hrouted r hr) h'.drafts
          · rw [List.mem_singleton.mp hr]
            exact htarget

/-- Places a node that may raise in a block. -/
def placeRaising (handlers : List (String × BlockId)) (kind : NodeKind) (terminal : Bool)
    (block : BlockId) : Build NodeId := do
  let id ← pushNode block kind
  modifyDraft block fun d => { d with exits := .raise none handlers terminal }
  setCurrent (if terminal then none else some block)
  return id

theorem placeRaising_safe {handlers : List (String × BlockId)} {block : BlockId} (hb : b.Ranged)
    (hhandlers : ∀ h ∈ handlers, h.2 < b.drafts.size) (kind : NodeKind) (terminal : Bool)
    (hblock : block < b.drafts.size) :
    Safe (placeRaising handlers kind terminal block) b fun id b' => id < b'.nodes.size := by
  apply (pushNode_safe hb kind hblock).bind
  rintro id b₁ hb₁ h₁ ⟨hid, -⟩
  have hblock₁ := Nat.lt_of_lt_of_le hblock h₁.drafts
  have htargets : ∀ t ∈ (Exits.raise none handlers terminal).targets, t < b₁.drafts.size := by
    intro t ht
    obtain ⟨h, hh, rfl⟩ := List.mem_map.mp ht
    exact Nat.lt_of_lt_of_le (hhandlers h hh) h₁.drafts
  have hraised : { b₁ with drafts := b₁.drafts.modify block fun d =>
      { d with exits := .raise none handlers terminal } }.Ranged :=
    hb₁.modify (fun _ t ht => .inr (htargets t ht)) fun _ _ hid => .inl hid
  apply (modifyDraft_safe hblock₁ hraised).bind
  rintro _ b₂ hb₂ h₂ rfl
  have hcurrent : ∀ c : Nat, (if terminal then none else some block) = some c →
      c < (b₁.drafts.modify block fun d =>
        { d with exits := .raise none handlers terminal }).size := by
    intro c hc
    split at hc
    · cases hc
    · cases hc
      exact Nat.lt_of_lt_of_le hblock₁ h₂.drafts
  apply (setCurrent_safe hb₂ hcurrent).bind
  rintro _ _ hb₃ - rfl
  exact .pure hb₃ hid

theorem emitRaising_safe (hframes : ∀ f ∈ frames, f.Ranged n) (hb : b.Ranged)
    (hn : n ≤ b.drafts.size) (kind : NodeKind) (categories : List String) (terminal : Bool) :
    Safe (emitRaising frames kind categories terminal) b fun id b' => id < b'.nodes.size := by
  unfold emitRaising
  apply (exceptionTargets_safe hframes categories hb hn (by simp)).bind
  intro handlers b₁ hb₁ _ hhandlers
  have hfresh {b : Building} (hb : b.Ranged) (hhandlers : ∀ h ∈ handlers, h.2 < b.drafts.size) :
      Safe (nextBlock >>= placeRaising handlers kind terminal) b
        fun id b' => id < b'.nodes.size := by
    apply (nextBlock_safe hb).bind
    intro block b₂ hb₂ h₂ hblock
    exact placeRaising_safe hb₂
      (fun h hh => Nat.lt_of_lt_of_le (hhandlers h hh) h₂.drafts) kind terminal hblock
  apply Safe.get fun _ _ _ => rfl
  cases hcurrent : b₁.current with
  | none => exact hfresh hb₁ hhandlers
  | some block =>
      have hblock := hb₁.current block hcurrent
      apply (draft_safe hb₁ hblock).bind
      rintro d _ hb₂ - rfl
      cases decide (d.exits = .openEnd) && d.nodes.isEmpty with
      | false => exact hfresh hb₂ hhandlers
      | true => exact placeRaising_safe hb₂ hhandlers kind terminal hblock

theorem jump_safe (hframes : ∀ f ∈ frames, f.Ranged n) (hb : b.Ranged) (hn : n ≤ b.drafts.size)
    (label : Option String) (leaves : Bool) :
    Safe (jump frames label leaves) b fun _ _ => True := by
  unfold jump
  split
  · rename_i inner continueTarget breakTarget hfound
    obtain ⟨hcontinue, hbreak, hinner⟩ := Frame.ranged_findLoop hframes hfound
    have htarget : (if leaves then breakTarget else continueTarget) < b.drafts.size := by
      split
      · exact Nat.lt_of_lt_of_le hbreak hn
      · exact Nat.lt_of_lt_of_le hcontinue hn
    apply (leaveThrough_safe (Frame.ranged_crossings hinner) hb hn htarget).bind
    intro first b' hb' _ hfirst
    exact closeWith_safe hb' hfirst
  · split
    · exact .throw _
    · exact .throw _

theorem declare_safe (hb : b.Ranged) (var : LocalVar) :
    Safe (declare var) b fun _ _ => True := by
  refine (Safe.change (fun b _ _ => ?_) ?_).weaken fun _ _ _ _ _ => trivial
  · rcases b with ⟨_, _, _, _ | ⟨scope, outer⟩, _, _⟩ <;> rfl
  · rcases b with ⟨_, _, _, _ | ⟨scope, outer⟩, _, _⟩
    · exact hb
    · exact { hb with }

theorem lookup_safe (hb : b.Ranged) (name : String) :
    Safe (lookup name) b fun _ b' => b' = b :=
  .get (fun _ _ _ => rfl) (.pure hb rfl)

theorem scopes_safe (hb : b.Ranged) (f : List (List LocalVar) → List (List LocalVar)) :
    Safe (modify fun b => { b with scopes := f b.scopes }) b fun _ _ => True :=
  (Safe.change (fun _ _ _ => rfl) { hb with }).weaken fun _ _ _ _ _ => trivial

theorem inScope_safe {body : Build Unit} (hbody : SafeFrom n body) (hb : b.Ranged)
    (hn : n ≤ b.drafts.size) : Safe (inScope body) b fun _ _ => True := by
  apply (scopes_safe hb fun scopes => [] :: scopes).bind
  intro _ b₁ hb₁ h₁ _
  apply (hbody b₁ hb₁ (Nat.le_trans hn h₁.drafts)).bind
  intro _ b₂ hb₂ _ _
  exact scopes_safe hb₂ fun scopes => scopes.drop 1

end Build

/-!
The lowering of expressions and statements with accesses in range, by the structure of the source.
-/

variable {n : Nat} {frames : List Frame} {b : Building}

/-- Both ways to lower an expression access blocks and nodes in range. -/
structure Lowered.Safe (n : Nat) (l : Lowered) : Prop where
  value : ∀ {b : Building}, b.Ranged → n ≤ b.drafts.size →
    Build.Safe l.value b fun id b' => id < b'.nodes.size
  test : ∀ {b : Building} {thenTarget elseTarget : BlockId}, b.Ranged → n ≤ b.drafts.size →
    thenTarget < b.drafts.size → elseTarget < b.drafts.size →
      Build.Safe (l.test thenTarget elseTarget) b fun _ _ => True

namespace Lowered

variable {l m r : Lowered}

theorem ofValue_safe {value : Build NodeId}
    (h : ∀ {b : Building}, b.Ranged → n ≤ b.drafts.size →
      Build.Safe value b fun id b' => id < b'.nodes.size) : (ofValue value).Safe n where
  value := h
  test hb hn hthen helse := by
    apply (h hb hn).bind
    intro id b' hb' h' hid
    exact branch_safe hb' hid (Nat.lt_of_lt_of_le hthen h'.drafts)
      (Nat.lt_of_lt_of_le helse h'.drafts)

theorem shortCircuit_safe (op : BinOp) (hl : l.Safe n) (hm : m.Safe n) :
    (shortCircuit op l m).Safe n where
  value {b} hb hn := by
    apply (hl.value hb hn).bind
    intro left b₁ hb₁ h₁ hleft
    apply (newBlock_safe hb₁).bind
    intro rhsBlock b₂ hb₂ h₂ hrhs
    apply (newBlock_safe hb₂).bind
    intro mergeBlock b₃ hb₃ h₃ hmerge
    have hleft₃ := Nat.lt_of_lt_of_le hleft (h₂.trans h₃).nodes
    have hrhs₃ := Nat.lt_of_lt_of_le hrhs h₃.drafts
    have hn₃ := Nat.le_trans hn (h₁.trans (h₂.trans h₃)).drafts
    have hrest {b : Building} (hb : b.Ranged) (hbefore : b₃.Before b) :
        Build.Safe (setCurrent (some rhsBlock) >>= fun _ => m.value >>= fun right =>
          closeWith mergeBlock >>= fun _ => setCurrent (some mergeBlock) >>= fun _ =>
            emit (.shortCircuit op left right)) b fun id b' => id < b'.nodes.size := by
      apply (enter_safe hb (Nat.lt_of_lt_of_le hrhs₃ hbefore.drafts)).bind
      rintro _ b₅ hb₅ h₅ -
      apply (hm.value hb₅ (Nat.le_trans hn₃ (hbefore.trans h₅).drafts)).bind
      intro right b₆ hb₆ h₆ _
      have hbefore₆ := hbefore.trans (h₅.trans h₆)
      apply (closeWith_safe hb₆ (Nat.lt_of_lt_of_le hmerge hbefore₆.drafts)).bind
      rintro _ b₇ hb₇ h₇ -
      apply (enter_safe hb₇ (Nat.lt_of_lt_of_le hmerge (hbefore₆.trans h₇).drafts)).bind
      rintro _ b₈ hb₈ _ -
      exact emit_safe hb₈ _
    dsimp only
    split
    · apply (branch_safe hb₃ hleft₃ hrhs₃ hmerge).bind
      rintro _ b₄ hb₄ h₄ -
      exact hrest hb₄ h₄
    · apply (branch_safe hb₃ hleft₃ hmerge hrhs₃).bind
      rintro _ b₄ hb₄ h₄ -
      exact hrest hb₄ h₄
  test {b thenTarget elseTarget} hb hn hthen helse := by
    apply (newBlock_safe hb).bind
    intro rhsBlock b₁ hb₁ h₁ hrhs
    have hn₁ := Nat.le_trans hn h₁.drafts
    have hthen₁ := Nat.lt_of_lt_of_le hthen h₁.drafts
    have helse₁ := Nat.lt_of_lt_of_le helse h₁.drafts
    have hrest {b : Building} (hb : b.Ranged) (hbefore : b₁.Before b) :
        Build.Safe (setCurrent (some rhsBlock) >>= fun _ => m.test thenTarget elseTarget) b
          fun _ _ => True := by
      apply (enter_safe hb (Nat.lt_of_lt_of_le hrhs hbefore.drafts)).bind
      rintro _ b₃ hb₃ h₃ -
      have hbefore₃ := (hbefore.trans h₃).drafts
      exact hm.test hb₃ (Nat.le_trans hn₁ hbefore₃) (Nat.lt_of_lt_of_le hthen₁ hbefore₃)
        (Nat.lt_of_lt_of_le helse₁ hbefore₃)
    dsimp only
    split
    · apply (hl.test hb₁ hn₁ hrhs helse₁).bind
      rintro _ b₂ hb₂ h₂ -
      exact hrest hb₂ h₂
    · apply (hl.test hb₁ hn₁ hthen₁ hrhs).bind
      rintro _ b₂ hb₂ h₂ -
      exact hrest hb₂ h₂

theorem negation_safe (hl : l.Safe n) : (negation l).Safe n where
  value hb hn := by
    apply (hl.value hb hn).bind
    intro id b' hb' _ _
    exact emit_safe hb' _
  test hb hn hthen helse := hl.test hb hn helse hthen

theorem ternary_safe (hl : l.Safe n) (hm : m.Safe n) (hr : r.Safe n) :
    (ternary l m r).Safe n where
  value {b} hb hn := by
    apply (newBlock_safe hb).bind
    intro thenBlock b₁ hb₁ h₁ hthen
    apply (newBlock_safe hb₁).bind
    intro elseBlock b₂ hb₂ h₂ helse
    apply (newBlock_safe hb₂).bind
    intro mergeBlock b₃ hb₃ h₃ hmerge
    have hn₃ := Nat.le_trans hn (h₁.trans (h₂.trans h₃)).drafts
    have hthen₃ := Nat.lt_of_lt_of_le hthen (h₂.trans h₃).drafts
    have helse₃ := Nat.lt_of_lt_of_le helse h₃.drafts
    apply (hl.test hb₃ hn₃ hthen₃ helse₃).bind
    rintro _ b₄ hb₄ h₄ -
    apply (enter_safe hb₄ (Nat.lt_of_lt_of_le hthen₃ h₄.drafts)).bind
    rintro _ b₅ hb₅ h₅ -
    have hbefore₅ := h₄.trans h₅
    apply (hm.value hb₅ (Nat.le_trans hn₃ hbefore₅.drafts)).bind
    intro left b₆ hb₆ h₆ _
    have hbefore₆ := hbefore₅.trans h₆
    apply (closeWith_safe hb₆ (Nat.lt_of_lt_of_le hmerge hbefore₆.drafts)).bind
    rintro _ b₇ hb₇ h₇ -
    have hbefore₇ := hbefore₆.trans h₇
    apply (enter_safe hb₇ (Nat.lt_of_lt_of_le helse₃ hbefore₇.drafts)).bind
    rintro _ b₈ hb₈ h₈ -
    have hbefore₈ := hbefore₇.trans h₈
    apply (hr.value hb₈ (Nat.le_trans hn₃ hbefore₈.drafts)).bind
    intro right b₉ hb₉ h₉ _
    have hbefore₉ := hbefore₈.trans h₉
    apply (closeWith_safe hb₉ (Nat.lt_of_lt_of_le hmerge hbefore₉.drafts)).bind
    rintro _ b₁₀ hb₁₀ h₁₀ -
    apply (enter_safe hb₁₀ (Nat.lt_of_lt_of_le hmerge (hbefore₉.trans h₁₀).drafts)).bind
    rintro _ b₁₁ hb₁₁ _ -
    exact emit_safe hb₁₁ _
  test {b thenTarget elseTarget} hb hn hthen helse := by
    apply (newBlock_safe hb).bind
    intro thenBlock b₁ hb₁ h₁ hthenBlock
    apply (newBlock_safe hb₁).bind
    intro elseBlock b₂ hb₂ h₂ helseBlock
    have hbefore₂ := (h₁.trans h₂).drafts
    have hn₂ := Nat.le_trans hn hbefore₂
    have hthen₂ := Nat.lt_of_lt_of_le hthen hbefore₂
    have helse₂ := Nat.lt_of_lt_of_le helse hbefore₂
    have hthenBlock₂ := Nat.lt_of_lt_of_le hthenBlock h₂.drafts
    apply (hl.test hb₂ hn₂ hthenBlock₂ helseBlock).bind
    rintro _ b₃ hb₃ h₃ -
    apply (enter_safe hb₃ (Nat.lt_of_lt_of_le hthenBlock₂ h₃.drafts)).bind
    rintro _ b₄ hb₄ h₄ -
    have hbefore₄ := (h₃.trans h₄).drafts
    apply (hm.test hb₄ (Nat.le_trans hn₂ hbefore₄) (Nat.lt_of_lt_of_le hthen₂ hbefore₄)
      (Nat.lt_of_lt_of_le helse₂ hbefore₄)).bind
    rintro _ b₅ hb₅ h₅ -
    have hbefore₅ := Nat.le_trans hbefore₄ h₅.drafts
    apply (enter_safe hb₅ (Nat.lt_of_lt_of_le helseBlock hbefore₅)).bind
    rintro _ b₆ hb₆ h₆ -
    have hbefore₆ := Nat.le_trans hbefore₅ h₆.drafts
    exact hr.test hb₆ (Nat.le_trans hn₂ hbefore₆) (Nat.lt_of_lt_of_le hthen₂ hbefore₆)
      (Nat.lt_of_lt_of_le helse₂ hbefore₆)

end Lowered

mutual

theorem lowerExpr_safe (hframes : ∀ f ∈ frames, f.Ranged n) :
    (e : Expr) → (lowerExpr frames e).Safe n
  | .literal value => Lowered.ofValue_safe fun hb _ => emit_safe hb _
  | .var name => Lowered.ofValue_safe fun hb _ => by
      apply (lookup_safe hb name).bind
      rintro var _ hb' - rfl
      exact emit_safe hb' _
  | .this => Lowered.ofValue_safe fun hb _ => emit_safe hb _
  | .field receiver name => Lowered.ofValue_safe fun hb hn => by
      apply ((lowerExpr_safe hframes receiver).value hb hn).bind
      intro id b' hb' _ _
      exact emit_safe hb' _
  | .call receiver method args throws => Lowered.ofValue_safe fun hb hn => by
      apply (lowerReceiver_safe hframes receiver hb hn).bind
      intro r b₁ hb₁ h₁ _
      have hn₁ := Nat.le_trans hn h₁.drafts
      apply (lowerArgs_safe hframes args hb₁ hn₁).bind
      intro ids b₂ hb₂ h₂ _
      exact emitRaising_safe hframes hb₂ (Nat.le_trans hn₁ h₂.drafts) _ _ _
  | .new className args => Lowered.ofValue_safe fun hb hn => by
      apply (lowerArgs_safe hframes args hb hn).bind
      intro ids b₁ hb₁ h₁ _
      exact emitRaising_safe hframes hb₁ (Nat.le_trans hn h₁.drafts) _ _ _
  | .binary op lhs rhs => by
      have hl := lowerExpr_safe hframes lhs
      have hr := lowerExpr_safe hframes rhs
      unfold lowerExpr
      dsimp only
      split
      · exact Lowered.shortCircuit_safe op hl hr
      · refine Lowered.ofValue_safe fun hb hn => ?_
        apply (hl.value hb hn).bind
        intro left b₁ hb₁ h₁ _
        apply (hr.value hb₁ (Nat.le_trans hn h₁.drafts)).bind
        intro right b₂ hb₂ _ _
        exact emit_safe hb₂ _
  | .unary op operand => by
      have ho := lowerExpr_safe hframes operand
      unfold lowerExpr
      dsimp only
      split
      · exact Lowered.negation_safe ho
      · refine Lowered.ofValue_safe fun hb hn => ?_
        apply (ho.value hb hn).bind
        intro id b' hb' _ _
        exact emit_safe hb' _
  | .ternary condition thenValue elseValue =>
      Lowered.ternary_safe (lowerExpr_safe hframes condition) (lowerExpr_safe hframes thenValue)
        (lowerExpr_safe hframes elseValue)
  | .cast qualifier operand => Lowered.ofValue_safe fun hb hn => by
      apply ((lowerExpr_safe hframes operand).value hb hn).bind
      intro id b' hb' _ _
      exact emit_safe hb' _

theorem lowerReceiver_safe (hframes : ∀ f ∈ frames, f.Ranged n) :
    (e : Option Expr) → {b : Building} → b.Ranged → n ≤ b.drafts.size →
      Safe (lowerReceiver frames e) b fun _ _ => True
  | none, _, hb, _ => .pure hb trivial
  | some e, _, hb, hn => by
      apply ((lowerExpr_safe hframes e).value hb hn).bind
      intro id b' hb' _ _
      exact .pure hb' trivial

theorem lowerArgs_safe (hframes : ∀ f ∈ frames, f.Ranged n) :
    (args : List Expr) → {b : Building} → b.Ranged → n ≤ b.drafts.size →
      Safe (lowerArgs frames args) b fun _ _ => True
  | [], _, hb, _ => .pure hb trivial
  | e :: rest, _, hb, hn => by
      apply ((lowerExpr_safe hframes e).value hb hn).bind
      intro id b₁ hb₁ h₁ _
      apply (lowerArgs_safe hframes rest hb₁ (Nat.le_trans hn h₁.drafts)).bind
      intro ids b₂ hb₂ _ _
      exact .pure hb₂ trivial

end

end FlowTyping
