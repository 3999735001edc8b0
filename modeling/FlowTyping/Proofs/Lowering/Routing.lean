import FlowTyping.Proofs.Lowering.Leaving

/-!
Routing: raised categories and jumps go to the clause or loop that the regions name,
through the final bodies on the way.
-/

namespace FlowTyping

namespace Frame

/-- The final bodies on the way to the clause that catches a category, and its block. -/
def route (frames : List Frame) (category : String) : List Crossing × BlockId :=
  match findHandler category frames with
  | some (inner, target) => (crossings inner, target)
  | none => (crossings frames, Build.exceptionalExitId)

/-- The final bodies on the way to the loop that a jump names, and where it leads. -/
def way (label : Option String) (leaves : Bool) (frames : List Frame) :
    Option (List Crossing × BlockId) :=
  (findLoop label frames).map fun found =>
    (crossings found.1, if leaves then found.2.2 else found.2.1)

section

variable (frames : List Frame) (category : String) (name label : Option String)
  (leaves : Bool) (c t : BlockId) (id : Nat) (copy : Build Unit)
  (targets : List (String × BlockId))

attribute [local simp] route way findHandler findLoop crossings

theorem route_loop : route (loop name c t :: frames) category = route frames category := by
  cases hfound : findHandler category frames <;> simp [hfound]

theorem route_handlers :
    route (handlers targets :: frames) category =
      match targets.find? fun h => h.1 = category || h.1 = catchAll with
      | some h => ([], h.2)
      | none => route frames category := by
  cases hclause : targets.find? fun h => h.1 = category || h.1 = catchAll with
  | some h => simp [hclause]
  | none => cases hfound : findHandler category frames <;> simp [hclause, hfound]

theorem route_finalBody :
    route (finalBody id copy :: frames) category =
      (⟨id, copy⟩ :: (route frames category).1, (route frames category).2) := by
  cases hfound : findHandler category frames <;> simp [hfound]

theorem way_loop :
    way label leaves (loop name c t :: frames) =
      if label.isNone || name = label then some ([], if leaves then t else c)
      else way label leaves frames := by
  by_cases hlabel : (label.isNone || decide (name = label)) = true
  · simp [hlabel]
  · cases hfound : findLoop label frames <;> simp [hlabel, hfound]

theorem way_handlers :
    way label leaves (handlers targets :: frames) = way label leaves frames := by
  cases hfound : findLoop label frames <;> simp [hfound]

theorem way_finalBody :
    way label leaves (finalBody id copy :: frames) =
      (way label leaves frames).map fun found => (⟨id, copy⟩ :: found.1, found.2) := by
  cases hfound : findLoop label frames <;> simp [hfound]

end

theorem crossings_finals (crossed : List Crossing) (frames : List Frame) :
    crossings (crossed.map (fun c => finalBody c.id c.copy) ++ frames) =
      crossed ++ crossings frames := by
  induction crossed with
  | nil => rfl
  | cons crossing rest ih => exact congrArg (crossing :: ·) ih

variable {frames : List Frame}

/-- A category is raised through final bodies of the frames. -/
theorem mem_crossings_of_route {category : String} {c : Crossing}
    (h : c ∈ (route frames category).1) : c ∈ crossings frames := by
  induction frames with
  | nil => exact h
  | cons frame outer ih =>
      cases frame with
      | loop =>
          rw [route_loop] at h
          exact ih h
      | handlers =>
          rw [route_handlers] at h
          split at h
          · cases h
          · exact ih h
      | finalBody =>
          rw [route_finalBody] at h
          exact List.mem_cons.mpr ((List.mem_cons.mp h).imp_right ih)

/-- A jump leaves through final bodies of the frames. -/
theorem mem_crossings_of_way {label : Option String} {leaves : Bool} {crossed : List Crossing}
    {target : BlockId} {c : Crossing} (hway : way label leaves frames = some (crossed, target))
    (hc : c ∈ crossed) : c ∈ crossings frames := by
  induction frames generalizing crossed with
  | nil => simp [way, findLoop] at hway
  | cons frame outer ih =>
      cases frame with
      | loop =>
          rw [way_loop] at hway
          split at hway
          · cases hway
            cases hc
          · exact ih hway hc
      | handlers =>
          rw [way_handlers] at hway
          exact ih hway hc
      | finalBody =>
          rw [way_finalBody] at hway
          obtain ⟨found, hfound, heq⟩ := Option.map_eq_some_iff.mp hway
          cases heq
          exact List.mem_cons.mpr ((List.mem_cons.mp hc).imp_right (ih hfound))

end Frame

namespace Region

variable {regions : List Region}

theorem finalBody_mem_of_mem_crossed {final : FinalCopy} (h : final ∈ crossed regions) :
    finalBody final ∈ regions := by
  induction regions with
  | nil => simp [crossed] at h
  | cons region outer ih =>
      cases region with
      | loop => exact List.mem_cons_of_mem _ (ih h)
      | handlers => exact List.mem_cons_of_mem _ (ih h)
      | finalBody =>
          rcases List.mem_cons.mp h with rfl | h
          · exact List.mem_cons_self
          · exact List.mem_cons_of_mem _ (ih h)

theorem finalBody_mem_of_mem_caught {category : String} {final : FinalCopy}
    (h : final ∈ (caught category regions).1) : finalBody final ∈ regions := by
  induction regions with
  | nil => simp [caught] at h
  | cons region outer ih =>
      cases region with
      | loop => exact List.mem_cons_of_mem _ (ih h)
      | handlers =>
          simp only [caught] at h
          split at h
          · simp at h
          · exact List.mem_cons_of_mem _ (ih h)
      | finalBody =>
          rcases List.mem_cons.mp h with rfl | h
          · exact List.mem_cons_self
          · exact List.mem_cons_of_mem _ (ih h)

theorem caught_target (category : String) (regions : List Region) :
    (caught category regions).2 = Build.exceptionalExitId ∨
      ∃ r ∈ regions, (caught category regions).2 ∈ r.targets := by
  induction regions with
  | nil => exact .inl rfl
  | cons region outer ih =>
      have hlift : ((caught category outer).2 = Build.exceptionalExitId ∨
          ∃ r ∈ outer, (caught category outer).2 ∈ r.targets) →
          ((caught category outer).2 = Build.exceptionalExitId ∨
            ∃ r ∈ region :: outer, (caught category outer).2 ∈ r.targets) := by
        rintro (h | ⟨r, hr, h⟩)
        · exact .inl h
        · exact .inr ⟨r, List.mem_cons_of_mem _ hr, h⟩
      cases region with
      | loop => exact hlift ih
      | handlers scopes targets =>
          simp only [caught]
          split
          · rename_i t ht
            refine .inr ⟨_, List.mem_cons_self, ?_⟩
            exact List.mem_map.mpr ⟨t, List.mem_of_find?_eq_some ht, rfl⟩
          · exact hlift ih
      | finalBody => exact hlift ih

theorem finalBody_mem_of_mem_jumped {label : Option String} {leaves : Bool}
    {found : List FinalCopy × BlockId} {final : FinalCopy}
    (hfound : jumped label leaves regions = some found) (h : final ∈ found.1) :
    finalBody final ∈ regions := by
  induction regions generalizing found with
  | nil => simp [jumped] at hfound
  | cons region outer ih =>
      cases region with
      | loop =>
          simp only [jumped] at hfound
          split at hfound
          · cases hfound
            simp at h
          · exact List.mem_cons_of_mem _ (ih hfound h)
      | handlers => exact List.mem_cons_of_mem _ (ih hfound h)
      | finalBody =>
          obtain ⟨rest, hrest, rfl⟩ := Option.map_eq_some_iff.mp hfound
          rcases List.mem_cons.mp h with rfl | h
          · exact List.mem_cons_self
          · exact List.mem_cons_of_mem _ (ih hrest h)

theorem jumped_target {label : Option String} {leaves : Bool}
    {found : List FinalCopy × BlockId} (hfound : jumped label leaves regions = some found) :
    ∃ r ∈ regions, found.2 ∈ r.targets := by
  induction regions generalizing found with
  | nil => simp [jumped] at hfound
  | cons region outer ih =>
      have hlift : ∀ rest, jumped label leaves outer = some rest →
          ∃ r ∈ region :: outer, rest.2 ∈ r.targets := by
        intro rest hrest
        obtain ⟨r, hr, h⟩ := ih hrest
        exact ⟨r, List.mem_cons_of_mem _ hr, h⟩
      cases region with
      | loop =>
          simp only [jumped] at hfound
          split at hfound
          · cases hfound
            refine ⟨_, List.mem_cons_self, ?_⟩
            cases leaves <;> simp [targets]
          · exact hlift _ hfound
      | handlers => exact hlift _ hfound
      | finalBody =>
          obtain ⟨rest, hrest, rfl⟩ := Option.map_eq_some_iff.mp hfound
          exact hlift rest hrest

end Region

namespace Matches

variable {R : Registry} {frames : List Frame} {regions : List Region}

theorem widen_all {region : Region} {crossings : List Crossing} {finals : List FinalCopy}
    (h : List.Forall₂ (Copies R regions) crossings finals) :
    List.Forall₂ (Copies R (region :: regions)) crossings finals :=
  h.imp fun _ _ hcopies => hcopies.widen fun _ => List.mem_cons_of_mem _

theorem cons_all {final : FinalCopy} {crossing : Crossing} {region : Region}
    {crossings : List Crossing} {finals : List FinalCopy}
    (hcopies : Copies R regions crossing final)
    (h : List.Forall₂ (Copies R regions) crossings finals) :
    List.Forall₂ (Copies R (region :: regions)) (crossing :: crossings) (final :: finals) :=
  .cons (hcopies.widen fun _ => List.mem_cons_of_mem _) (widen_all h)

theorem crossed (h : Matches R frames regions) :
    List.Forall₂ (Copies R regions) (Frame.crossings frames) (Region.crossed regions) := by
  induction h with
  | nil => exact .nil
  | loop _ _ ih => exact widen_all ih
  | handlers _ _ ih => exact widen_all ih
  | finalBody copies _ ih => exact cons_all copies ih

theorem caught (h : Matches R frames regions) (category : String) :
    List.Forall₂ (Copies R regions) (Frame.route frames category).1
        (Region.caught category regions).1 ∧
      (Frame.route frames category).2 = (Region.caught category regions).2 := by
  induction h with
  | nil => exact ⟨.nil, rfl⟩
  | loop _ _ ih =>
      rw [Frame.route_loop]
      exact ⟨widen_all ih.1, ih.2⟩
  | handlers _ _ ih =>
      rename_i targets _ _ _
      rw [Frame.route_handlers, Region.caught]
      cases targets.find? fun t => t.1 = category || t.1 = catchAll with
      | some t => exact ⟨.nil, rfl⟩
      | none => exact ⟨widen_all ih.1, ih.2⟩
  | finalBody copies _ ih =>
      rw [Frame.route_finalBody]
      exact ⟨cons_all copies ih.1, ih.2⟩

theorem jumped (h : Matches R frames regions) {label : Option String} {leaves : Bool}
    {crossings : List Crossing} {target : BlockId}
    (hway : Frame.way label leaves frames = some (crossings, target)) :
    ∃ finals, Region.jumped label leaves regions = some (finals, target) ∧
      List.Forall₂ (Copies R regions) crossings finals := by
  induction h generalizing crossings with
  | nil => simp [Frame.way, Frame.findLoop] at hway
  | loop _ _ ih =>
      rw [Frame.way_loop] at hway
      rw [Region.jumped]
      split at hway
      · rename_i hlabel
        cases hway
        exact ⟨[], if_pos hlabel, .nil⟩
      · rename_i hlabel
        obtain ⟨finals, hfinals, hcopies⟩ := ih hway
        exact ⟨finals, (if_neg hlabel).trans hfinals, widen_all hcopies⟩
  | handlers _ _ ih =>
      rw [Frame.way_handlers] at hway
      obtain ⟨finals, hfinals, hcopies⟩ := ih hway
      exact ⟨finals, hfinals, widen_all hcopies⟩
  | finalBody copies _ ih =>
      rw [Frame.way_finalBody] at hway
      obtain ⟨rest, hrest, heq⟩ := Option.map_eq_some_iff.mp hway
      cases heq
      obtain ⟨finals, hfinals, hcopies⟩ := ih hrest
      exact ⟨_ :: finals, by rw [Region.jumped, hfinals]; rfl, cons_all copies hcopies⟩

end Matches

namespace Build

open Building

variable {R R₁ : Registry} {frames : List Frame} {regions : List Region}
  {b b' : Building} {u : Unit}

theorem exceptionTarget_eq (category : String) :
    exceptionTarget frames category =
      leaveThrough (Frame.route frames category).1 (Frame.route frames category).2 := by
  rw [exceptionTarget, Frame.route]
  cases Frame.findHandler category frames <;> rfl

theorem exceptionTarget_spec {category : String} {first : Nat} (hm : Matches R frames regions)
    (hR : R <+: R₁) (hc : b.Coherent R₁) (hfits : b.Fits regions)
    (hrun : (exceptionTarget frames category).run b = .ok (first, b')) :
    ∃ R₂, Advances [] R₁ b R₂ b' ∧ b'.scopes = b.scopes ∧ b'.current = b.current ∧
      b'.here = b.here ∧ first < b'.drafts.size ∧
      ∀ D, b'.Completes D → D.Leaves (Region.caught category regions).1
        (Region.caught category regions).2 first := by
  obtain ⟨hcopies, htarget⟩ := hm.caught category
  rw [exceptionTarget_eq, htarget] at hrun
  refine leaveThrough_spec hcopies hR hc hfits (fun final hfinal => ?_) ?_ hrun
  · have hmem := Region.finalBody_mem_of_mem_caught hfinal
    exact (hfits _ hmem).1.trans (List.tail_suffix _)
  · rcases Region.caught_target category regions with h | ⟨r, hr, h⟩
    · rw [h]
      exact hc.designated
    · exact (hfits r hr).2 _ h

theorem run_exceptionTargets_cons {category : String} {rest : List String}
    {routed handlers : List (String × BlockId)}
    (hrun : (exceptionTargets frames (category :: rest) routed).run b = .ok (handlers, b')) :
    (category ∈ routed.map Prod.fst ∧
        (exceptionTargets frames rest routed).run b = .ok (handlers, b')) ∨
      (category ∉ routed.map Prod.fst ∧ ∃ first b₁,
        (exceptionTarget frames category).run b = .ok (first, b₁) ∧
        (exceptionTargets frames rest (routed ++ [(category, first)])).run b₁ =
          .ok (handlers, b')) := by
  rw [exceptionTargets] at hrun
  dsimp only at hrun
  split at hrun
  · rw [run_bind] at hrun
    obtain ⟨_, _, hthrow, -⟩ := hrun
    exact (run_throw.mp hthrow).elim
  · split at hrun
    · rename_i hknown
      exact .inl ⟨by simpa using hknown, hrun⟩
    · rename_i hnew
      exact .inr ⟨by simpa using hnew, run_bind.mp hrun⟩

/-- The categories routed are those asked for, each once. -/
theorem categories_of_run {categories : List String} {routed handlers : List (String × BlockId)}
    (hrun : (exceptionTargets frames categories routed).run b = .ok (handlers, b')) :
    handlers.map Prod.fst = routed.map Prod.fst ++
      (Digraph.distinct categories).filter (· ∉ routed.map Prod.fst) := by
  induction categories generalizing b routed with
  | nil =>
      obtain ⟨rfl, -⟩ := run_pure.mp hrun
      simp [Digraph.distinct]
  | cons category rest ih =>
      rcases run_exceptionTargets_cons hrun with ⟨hknown, hrest⟩ | ⟨hnew, first, b₁, -, h₂⟩
      · rw [ih hrest, Digraph.distinct, List.filter_cons_of_neg (by simpa using hknown),
          List.filter_filter]
        refine congrArg _ (List.filter_congr fun c _ => ?_)
        by_cases hc : c = category <;> simp_all
      · rw [ih h₂, Digraph.distinct, List.filter_cons_of_pos (by simpa using hnew),
          List.filter_filter, List.map_append, List.append_assoc]
        refine congrArg (_ ++ category :: ·) (List.filter_congr fun c _ => ?_)
        by_cases hc : c = category <;> simp_all

theorem exceptionTargets_spec {categories : List String}
    {routed handlers : List (String × BlockId)} (hm : Matches R frames regions)
    (hR : R <+: R₁) (hc : b.Coherent R₁) (hfits : b.Fits regions)
    (hrun : (exceptionTargets frames categories routed).run b = .ok (handlers, b')) :
    ∃ R₂ added, Advances [] R₁ b R₂ b' ∧ b'.scopes = b.scopes ∧ b'.current = b.current ∧
      b'.here = b.here ∧ handlers = routed ++ added ∧
      (∀ h ∈ added, (h.2 : Nat) < b'.drafts.size) ∧
      ∀ D, b'.Completes D → ∀ h ∈ added,
        D.Leaves (Region.caught h.1 regions).1 (Region.caught h.1 regions).2 h.2 := by
  induction categories generalizing b routed R₁ with
  | nil =>
      obtain ⟨rfl, rfl⟩ := run_pure.mp hrun
      exact ⟨R₁, [], ⟨List.prefix_rfl, hc, .refl [] b⟩, rfl, rfl, rfl, by simp, by simp, by simp⟩
  | cons category rest ih =>
      rcases run_exceptionTargets_cons hrun with ⟨-, hrest⟩ | ⟨-, first, b₁, h₁, h₂⟩
      · exact ih hR hc hfits hrest
      · obtain ⟨R₂, ha₁, hs₁, hcur₁, hh₁, hlt₁, hleaves₁⟩ :=
          exceptionTarget_spec hm hR hc hfits h₁
        obtain ⟨R₃, added, ha₂, hs₂, hcur₂, hh₂, heq, hlt₂, hleaves₂⟩ :=
          ih (hR.trans ha₁.registry) ha₁.coherent (hfits.advance hs₁ ha₁.grows.size_le) h₂
        refine ⟨R₃, (category, first) :: added, ha₁.trans ha₂, hs₂.trans hs₁,
          hcur₂.trans hcur₁, hh₂.trans hh₁, by simp [heq], ?_, fun D hD => ?_⟩
        · have hlt := Nat.lt_of_lt_of_le hlt₁ ha₂.grows.size_le
          exact List.forall_mem_cons.mpr ⟨hlt, hlt₂⟩
        · exact List.forall_mem_cons.mpr ⟨hleaves₁ D (ha₂.grows.completes hD), hleaves₂ D hD⟩

theorem routes_spec {categories : List String} {handlers : List (String × BlockId)}
    (hm : Matches R frames regions) (hR : R <+: R₁) (hc : b.Coherent R₁)
    (hfits : b.Fits regions)
    (hrun : (exceptionTargets frames categories []).run b = .ok (handlers, b')) :
    ∃ R₂, Advances [] R₁ b R₂ b' ∧ b'.scopes = b.scopes ∧ b'.current = b.current ∧
      b'.here = b.here ∧ (∀ h ∈ handlers, (h.2 : Nat) < b'.drafts.size) ∧
      ∀ D, b'.Completes D → D.Routes regions categories handlers := by
  obtain ⟨R₂, added, ha, hs, hcur, hh, rfl, hlt, hleaves⟩ :=
    exceptionTargets_spec hm hR hc hfits hrun
  have hcategories := categories_of_run hrun
  refine ⟨R₂, ha, hs, hcur, hh, by simpa using hlt, fun D hD => ⟨by simpa using hcategories, ?_⟩⟩
  simpa using hleaves D hD

theorem modify_modify {α : Type} (a : Array α) (i : Nat) (f g : α → α) :
    (a.modify i f).modify i g = a.modify i (g ∘ f) := by
  ext j h₁ h₂
  · simp
  · simp only [Array.getElem_modify]
    split <;> rfl

/-- A raising node is placed in the current block if nothing is in it, or else in a fresh
one after it. -/
theorem run_emitRaising {kind : NodeKind} {categories : List String} {terminal : Bool}
    {id : Nat} (h : (emitRaising frames kind categories terminal).run b = .ok (id, b')) :
    ∃ (handlers : _) (b₁ : _) (t : Nat) (b₂ : _),
      (exceptionTargets frames categories []).run b = .ok (handlers, b₁) ∧
      ((b₂ = b₁ ∧ b₁.current = some t ∧ b₁.drafts.getD t default = ⟨[], .openEnd⟩) ∨
        (nextBlock.run b₁ = .ok (t, b₂) ∧
          ∀ c, b₁.current = some c → b₁.drafts.getD c default ≠ ⟨[], .openEnd⟩)) ∧
      id = b₂.nodes.size ∧ b' = { b₂ with
        nodes := b₂.nodes.push ⟨b₂.nodes.size, t, kind⟩
        drafts := b₂.drafts.modify t fun d =>
          ⟨d.nodes ++ [b₂.nodes.size], .raise none handlers terminal⟩
        current := if terminal then none else some t } := by
  rw [emitRaising, run_bind] at h
  obtain ⟨handlers, b₁, h₁, h⟩ := h
  have hlast : ∀ (t : Nat) (b₂ : Building), (do
      let id ← pushNode t kind
      modifyDraft t fun d => { d with exits := .raise none handlers terminal }
      setCurrent (if terminal then none else some t)
      return id).run b₂ = .ok (id, b') →
      id = b₂.nodes.size ∧ b' = { b₂ with
        nodes := b₂.nodes.push ⟨b₂.nodes.size, t, kind⟩
        drafts := b₂.drafts.modify t fun d =>
          ⟨d.nodes ++ [b₂.nodes.size], .raise none handlers terminal⟩
        current := if terminal then none else some t } := by
    intro t b₂ h
    simp only [run_bind, run_pushNode, modifyDraft, run_modify, run_setCurrent, run_pure] at h
    obtain ⟨_, _, h₃, _, _, h₄, _, _, h₅, rfl, rfl⟩ := h
    cases h₃
    subst h₄
    cases h₅
    simp [modify_modify, Function.comp_def]
  rw [run_bind] at h
  obtain ⟨_, _, h₂, h⟩ := h
  obtain ⟨rfl, rfl⟩ := run_get.mp h₂
  dsimp only at h
  cases hcur : b₁.current with
  | none =>
      simp only [hcur, pure_bind] at h
      obtain ⟨t, b₂, h₃, h⟩ := run_bind.mp h
      exact ⟨handlers, b₁, t, b₂, h₁, .inr ⟨h₃, by simp [hcur]⟩, hlast t b₂ h⟩
  | some block =>
      simp only [hcur] at h
      rw [run_bind] at h
      obtain ⟨_, _, h₃, h⟩ := h
      obtain ⟨rfl, rfl⟩ := run_draft.mp h₃
      rw [pure_bind] at h
      split at h
      · rename_i hreuse
        split at hreuse
        · rename_i hempty
          cases hreuse
          rw [pure_bind] at h
          refine ⟨handlers, b₁, block, b₁, h₁, .inl ⟨rfl, hcur, ?_⟩, hlast block b₁ h⟩
          cases hd : b₁.drafts.getD block default
          simp_all
        · cases hreuse
      · rename_i hfull
        obtain ⟨t, b₂, h₃, h⟩ := run_bind.mp h
        refine ⟨handlers, b₁, t, b₂, h₁, .inr ⟨h₃, ?_⟩, hlast t b₂ h⟩
        intro c hc hd
        cases hcur.symm.trans hc
        simp [hd] at hfull

theorem emitRaising_spec {kind : NodeKind} {categories : List String} {terminal : Bool}
    {id : Nat} (hm : Matches R frames regions) (hR : R <+: R₁) (hc : b.Coherent R₁)
    (hfits : b.Fits regions) (hkind : ∀ o ∈ kind.operands, o < b.nodes.size)
    (hrun : (emitRaising frames kind categories terminal).run b = .ok (id, b')) :
    ∃ R₂ handlers, Advances [] R₁ b R₂ b' ∧ b'.scopes = b.scopes ∧
      (if terminal then b'.current = none else b'.Rests id) ∧
      ∀ D, b'.Completes D → D.Routes regions categories handlers ∧
        D.Raises b.here kind id handlers terminal b'.here := by
  obtain ⟨handlers, b₁, t, b₂, h₁, hblock, rfl, hb⟩ := run_emitRaising hrun
  obtain ⟨R₂, ha₁, hs₁, hcur₁, hh₁, hlt, hroutes⟩ := routes_spec hm hR hc hfits h₁
  obtain ⟨ha₂, hs₂, hn₂, hd₂, hflow⟩ : Advances [] R₂ b₁ R₂ { b₂ with current := some t } ∧
      b₂.scopes = b₁.scopes ∧ b₂.nodes = b₁.nodes ∧ b₂.drafts[t]? = some ⟨[], .openEnd⟩ ∧
      ∀ D, Completes { b₂ with current := some t } D → D.Flows b₁.here (.startOf t) := by
    rcases hblock with ⟨rfl, hcur, hd⟩ | ⟨hnext, -⟩
    · obtain ⟨d, hd', -⟩ := ha₁.coherent.current t hcur
      have hd₂ : b₂.drafts[t]? = some ⟨[], .openEnd⟩ := by simp_all
      have hsame : { b₂ with current := some t } = b₂ := by rw [← hcur]
      rw [hsame]
      refine ⟨⟨List.prefix_rfl, ha₁.coherent, .refl [] _⟩, rfl, rfl, hd₂, fun D _ => ?_⟩
      rw [here_of_open hcur hd₂ rfl]
      exact .stay _
    · exact nextBlock_spec ha₁.coherent hnext
  have hd' : b'.drafts[t]? = some ⟨[b₂.nodes.size], .raise none handlers terminal⟩ := by
    simp [hb, Array.getElem?_modify, hd₂]
  have hn' : b'.nodes[b₂.nodes.size]? = some ⟨b₂.nodes.size, t, kind⟩ := by simp [hb]
  have hgrows : Grows [] { b₂ with current := some t } b' := by
    rw [hb]
    refine ((Grows.pushNode ⟨b₂.nodes.size, t, kind⟩).trans (.modify (i := t)
      (f := fun d => ⟨d.nodes ++ [b₂.nodes.size], .raise none handlers terminal⟩)
      (.inl rfl) fun d hd => ?_)).trans (.setCurrent ?_)
    · obtain rfl : ⟨[], .openEnd⟩ = d := Option.some.inj (hd₂.symm.trans hd)
      simp [Draft.GrowsTo]
    · intro i hi
      cases terminal <;> simp_all
  have hcoherent : b'.Coherent R₂ := by
    have hsize := ha₂.grows.size_le
    have hnodes := ha₁.grows.nodes_size_le
    rw [hb] at hgrows ⊢
    refine ha₂.coherent.place (e := .raise none handlers terminal) hd₂ rfl ?_ ?_ ?_ hgrows
    · intro t' ht'
      obtain ⟨h, hh, rfl⟩ : ∃ h ∈ handlers, h.2 = t' := by simpa [Exits.targets] using ht'
      exact Nat.lt_of_lt_of_le (hlt h hh) hsize
    · intro o ho
      rw [hn₂]
      exact Nat.lt_of_lt_of_le (hkind o ho) hnodes
    · cases terminal
      · exact .inr ⟨rfl, trivial⟩
      · exact .inl rfl
  refine ⟨R₂, handlers, ha₁.trans (ha₂.trans ⟨List.prefix_rfl, hcoherent, hgrows⟩),
    by simp [hb, hs₂, hs₁], ?_, fun D hD => ?_⟩
  · cases terminal with
    | true => simp [hb]
    | false => exact ⟨_, hn', by simp [hb]⟩
  · have hD₂ := hgrows.completes hD
    have hflow' : D.Flows b.here (.startOf t) := hh₁ ▸ hflow D hD₂
    obtain ⟨d, hd, hg⟩ := hD.draft t _ hd'
    refine ⟨hroutes D (ha₂.grows.completes hD₂), t, ?_⟩
    cases terminal with
    | true =>
        obtain rfl : d = _ := hg
        exact ⟨none, _, hflow', hd, fun _ => rfl, hD.node _ _ hn', rfl, by simp [here, hb]⟩
    | false =>
        obtain ⟨hnodes, s, hs⟩ := hg
        obtain ⟨nodes, exits⟩ := d
        cases hnodes
        cases hs
        refine ⟨s, _, hflow', hd, by simp, hD.node _ _ hn', rfl, ?_⟩
        exact here_of_raise (by simp [hb]) hd'

end Build

end FlowTyping
