import FlowTyping.Proofs.Waiting.Steps

/-!
Ways out and stages: nothing waits where a loop, a clause or a final body is entered.
-/

namespace FlowTyping

open Build Building

/-- Nothing waits where the frame sends control. -/
def Frame.Flat (G : Stages) : Frame → Prop
  | loop _ continueTarget breakTarget => G.Flat continueTarget ∧ G.Flat breakTarget
  | handlers targets => ∀ t ∈ targets, G.Flat t.2
  | finalBody _ _ => True

/-- A construction of statements inside some frames keeps the stages. -/
structure KeepsStages (U : Expr → Prop) (frames : List Frame) (m : Build Unit) : Prop where
  run : ∀ {b b' : Building} {G : Stages} {u : Unit}, b.Staged U G → (∀ f ∈ frames, f.Flat G) →
    m.run b = .ok (u, b') → ∃ G', b'.Staged U G' ∧ Follows [] b G b' G'

/-- The copies of the final bodies among some frames keep the stages. -/
def Frame.Sound (U : Expr → Prop) : List Frame → Prop
  | [] => True
  | .finalBody _ copy :: outer => KeepsStages U outer copy ∧ Frame.Sound U outer
  | _ :: outer => Frame.Sound U outer

section

variable {U : Expr → Prop} {frames outer : List Frame} {m : Build Unit} {S : List Nat}
  {b b' : Building}
  {G G' : Stages} {s : List NodeId}

theorem Frame.Flat.follow {f : Frame} (h : f.Flat G) (hf : Follows S b G b' G') :
    f.Flat G' := by
  cases f with
  | loop => exact ⟨hf.flat h.1, hf.flat h.2⟩
  | handlers => exact fun t ht => hf.flat (h t ht)
  | finalBody => trivial

theorem Building.Follows.flat_frames (hf : Follows S b G b' G') (h : ∀ f ∈ frames, f.Flat G) :
    ∀ f ∈ frames, f.Flat G' :=
  fun f hmem => (h f hmem).follow hf

theorem KeepsStages.widen (h : KeepsStages U outer m) (hsub : ∀ f ∈ outer, f ∈ frames) :
    KeepsStages U frames m :=
  ⟨fun hg hflat hrun => h.run hg (fun f hf => hflat f (hsub f hf)) hrun⟩

theorem KeepsStages.cons {f : Frame} (h : KeepsStages U outer m) : KeepsStages U (f :: outer) m :=
  h.widen fun _ => List.mem_cons_of_mem f

/-- A raised category goes to a block where nothing waits, through copies that keep the
stages. -/
theorem Frame.Sound.route (h : Frame.Sound U frames) (hg : b.Staged U G)
    (hflat : ∀ f ∈ frames, f.Flat G) (category : String) :
    (∀ c ∈ (Frame.route frames category).1, KeepsStages U frames c.copy) ∧
      G.Flat (Frame.route frames category).2 := by
  induction frames with
  | nil => exact ⟨List.forall_mem_nil _, hg.designated exceptionalExitId (by decide)⟩
  | cons frame outer ih =>
      have houter := fun f hf => hflat f (List.mem_cons_of_mem frame hf)
      cases frame with
      | loop =>
          obtain ⟨hcopies, htarget⟩ := ih h houter
          rw [Frame.route_loop]
          exact ⟨fun c hc => (hcopies c hc).cons, htarget⟩
      | handlers targets =>
          rw [Frame.route_handlers]
          split
          · rename_i t ht
            exact ⟨List.forall_mem_nil _,
              hflat _ List.mem_cons_self t (List.mem_of_find?_eq_some ht)⟩
          · obtain ⟨hcopies, htarget⟩ := ih h houter
            exact ⟨fun c hc => (hcopies c hc).cons, htarget⟩
      | finalBody id copy =>
          obtain ⟨hcopies, htarget⟩ := ih h.2 houter
          rw [Frame.route_finalBody]
          refine ⟨fun c hc => ?_, htarget⟩
          rcases List.mem_cons.mp hc with rfl | hc
          · exact h.1.cons
          · exact (hcopies c hc).cons

/-- A jump goes to a block where nothing waits, through copies that keep the stages. -/
theorem Frame.Sound.way (h : Frame.Sound U frames) (hflat : ∀ f ∈ frames, f.Flat G)
    {label : Option String} {leaves : Bool} {crossed : List Crossing} {target : BlockId}
    (hway : Frame.way label leaves frames = some (crossed, target)) :
    (∀ c ∈ crossed, KeepsStages U frames c.copy) ∧ G.Flat target := by
  induction frames generalizing crossed with
  | nil => simp [Frame.way, Frame.findLoop] at hway
  | cons frame outer ih =>
      have houter := fun f hf => hflat f (List.mem_cons_of_mem frame hf)
      cases frame with
      | loop name continueTarget breakTarget =>
          rw [Frame.way_loop] at hway
          split at hway
          · cases hway
            refine ⟨List.forall_mem_nil _, ?_⟩
            obtain ⟨hcontinue, hbreak⟩ := hflat _ List.mem_cons_self
            split
            · exact hbreak
            · exact hcontinue
          · obtain ⟨hcopies, htarget⟩ := ih h houter hway
            exact ⟨fun c hc => (hcopies c hc).cons, htarget⟩
      | handlers targets =>
          rw [Frame.way_handlers] at hway
          obtain ⟨hcopies, htarget⟩ := ih h houter hway
          exact ⟨fun c hc => (hcopies c hc).cons, htarget⟩
      | finalBody id copy =>
          rw [Frame.way_finalBody] at hway
          obtain ⟨found, hfound, heq⟩ := Option.map_eq_some_iff.mp hway
          cases heq
          obtain ⟨hcopies, htarget⟩ := ih h.2 houter hfound
          refine ⟨fun c hc => ?_, htarget⟩
          rcases List.mem_cons.mp hc with rfl | hc
          · exact h.1.cons
          · exact (hcopies c hc).cons

theorem Frame.Sound.crossings (h : Frame.Sound U frames) :
    ∀ c ∈ Frame.crossings frames, KeepsStages U frames c.copy := by
  induction frames with
  | nil => nofun
  | cons frame outer ih =>
      cases frame with
      | loop => exact fun c hc => (ih h c hc).cons
      | handlers => exact fun c hc => (ih h c hc).cons
      | finalBody id copy =>
          intro c hc
          rcases List.mem_cons.mp hc with rfl | hc
          · exact h.1.cons
          · exact (ih h.2 c hc).cons

end

namespace Build

variable {U : Expr → Prop} {frames : List Frame} {b b' : Building} {G : Stages}
  {s : List NodeId} {t : Nat} {u : Unit}

/-- The construction of copies one after the other. -/
theorem forM_copy_staged {crossed : List Crossing}
    (hcopies : ∀ c ∈ crossed, KeepsStages U frames c.copy) (h : b.Staged U G)
    (hflat : ∀ f ∈ frames, f.Flat G) (hrun : (crossed.forM Crossing.copy).run b = .ok (u, b')) :
    ∃ G', b'.Staged U G' ∧ Follows [] b G b' G' := by
  induction crossed generalizing b G with
  | nil =>
      obtain ⟨-, rfl⟩ := run_pure.mp hrun
      exact ⟨G, h, .refl [] b G⟩
  | cons crossing rest ih =>
      rw [List.forM, run_bind] at hrun
      obtain ⟨_, b₁, h₁, h₂⟩ := hrun
      obtain ⟨G₁, hg₁, hf₁⟩ := (hcopies crossing List.mem_cons_self).run h hflat h₁
      obtain ⟨G₂, hg₂, hf₂⟩ := ih (fun c hc => hcopies c (List.mem_cons_of_mem _ hc)) hg₁
        (hf₁.flat_frames hflat) h₂
      exact ⟨G₂, hg₂, hf₁.trans hf₂⟩

/-- A step that leaves the current block alone, and what waits with it. -/
structure Aside (U : Expr → Prop) (b : Building) (G : Stages) (b' : Building) (G' : Stages) :
    Prop where
  staged : b'.Staged U G'
  follows : Follows [] b G b' G'
  current : b'.current = b.current
  kept : ∀ c : Nat, b.current = some c → b'.drafts[c]? = b.drafts[c]?

theorem Aside.trans {b'' : Building} {G' G'' : Stages} (h : Aside U b G b' G')
    (h' : Aside U b' G' b'' G'') : Aside U b G b'' G'' where
  staged := h'.staged
  follows := h.follows.trans h'.follows
  current := h'.current.trans h.current
  kept c hc := (h'.kept c (h.current.trans hc)).trans (h.kept c hc)

theorem Aside.holds {G' : Stages} (h : Aside U b G b' G') (hg : b.Staged U G) (hs : b.Holds G s) :
    b'.Holds G' s :=
  hs.keep h.current h.kept (fun _ hc => h.follows.same _ (hg.lt_current hc) (by simp))
    h.follows.grows.node

/-- The construction goes on elsewhere, and remembers a path. -/
theorem resume_staged {current : Option BlockId}
    {paths : List ((List Nat × BlockId) × BlockId)} (h : b.Staged U G)
    (hcurrent : ∀ c : Nat, current = some c →
      G.Entered c ∧ ∃ d : Draft, b.drafts[c]? = some d ∧ d.exits.Pending)
    (hpaths : ∀ path ∈ paths, G.Flat path.2) :
    { b with current := current, finalPaths := paths }.Staged U G := by
  have hf : Follows current.toList b G { b with current := current, finalPaths := paths } G :=
    .of_grows {
      draft := fun _ d hd => ⟨d, hd, .refl d⟩
      kept := fun _ _ _ _ => rfl
      current := fun i hi => .inr (.inl (Option.mem_toList.mpr hi))
      node := fun _ _ hn => hn } fun _ _ => id
  exact h.follow hf h.outside (fun _ _ hd => .inl ⟨hd, rfl⟩) hcurrent
    fun path hpath => .inr (hpaths path hpath)

theorem ready_of_flat (h : b.Staged U G) (ht : G.Flat t) : b.Ready G s t := by
  obtain ⟨st, hst, hwaits⟩ := ht
  refine ⟨h.size_of_stage hst, fun st' hst' => ?_⟩
  rw [hst] at hst'
  cases hst'
  exact ⟨by simp [hwaits], .inl hwaits⟩

/-- The current path ends with a jump to where nothing waits. -/
theorem close_staged (h : b.Staged U G) (ht : G.Flat t)
    (hrun : (closeWith t).run b = .ok (u, b')) :
    b'.Staged U G ∧ Follows [] b G b' G ∧ b'.current = none := by
  obtain ⟨st, hst, -⟩ := id ht
  obtain ⟨hg, hf, hcur, -⟩ :=
    closeWith_staged h .nil (ready_of_flat h ht) ⟨st, hst⟩ (.inl ht) hrun
  exact ⟨hg, hf, hcur⟩

/-- A new block where nothing is going to wait. -/
theorem newFlat_staged (h : b.Staged U G) (hrun : newBlock.run b = .ok (t, b')) :
    ∃ G', b'.Staged U G' ∧ Follows [] b G b' G' ∧ t = b.drafts.size ∧ b'.drafts.size = t + 1 ∧
      G'.stage t = some ⟨[], none⟩ := by
  obtain ⟨hg₁, hf₁, hid, hsize, hnone, -⟩ := newBlock_staged h hrun
  obtain ⟨hg₂, hf₂, -⟩ := claim_staged hg₁ (t := t) (by omega) []
  refine ⟨_, hg₂, hf₁.andThen hf₂ (by simp [hid]), hid, hsize, ?_⟩
  rw [Stages.claim_of_none hnone, Stages.set_self]

theorem makePath_staged {crossed : List Crossing} {target first : Nat} {b₁ b₂ b₃ b₄ : Building}
    (hcopies : ∀ c ∈ crossed, KeepsStages U frames c.copy) (h : b.Staged U G)
    (hflat : ∀ f ∈ frames, f.Flat G) (htarget : G.Flat target)
    (h₁ : newBlock.run b = .ok (first, b₁))
    (h₂ : (setCurrent (some first)).run b₁ = .ok ((), b₂))
    (h₃ : (crossed.forM Crossing.copy).run b₂ = .ok ((), b₃))
    (h₄ : (closeWith target).run b₃ = .ok ((), b₄))
    (hb : b' = { b₄ with
      current := b.current
      finalPaths := ((crossed.map Crossing.id, target), first) :: b₄.finalPaths }) :
    ∃ G', Aside U b G b' G' ∧ G'.Flat first := by
  obtain ⟨G₁, hg₁, hf₁, hid, -, hst⟩ := newFlat_staged h h₁
  obtain ⟨hg₂, hf₂, -, -, hcur₂⟩ := enter_staged hg₁ hst (by simp) h₂
  have hnew := hf₁.andThen hf₂ (by simp [hid])
  obtain ⟨G₃, hg₃, hf₃⟩ := forM_copy_staged hcopies hg₂ (hnew.flat_frames hflat) h₃
  have hfirst : G₃.Flat first := hf₃.flat (hf₂.flat ⟨_, hst, rfl⟩)
  obtain ⟨hg₄, hf₄, -⟩ := close_staged hg₃ (hf₃.flat (hnew.flat htarget)) h₄
  have hall := hnew.trans (hf₃.trans hf₄)
  -- The copies leave the current block of the request alone.
  have hkept : ∀ c : Nat, b.current = some c → b₄.drafts[c]? = b.drafts[c]? := by
    intro c hcur
    have hlt := h.lt_current hcur
    obtain ⟨hdrafts, hcurrent⟩ : b₂.drafts = b.drafts.push ⟨[], .openEnd⟩ ∧
        b₂.current = some first := by
      rw [newBlock, run_newDraft] at h₁
      cases h₁
      rw [run_setCurrent] at h₂
      cases h₂
      exact ⟨rfl, rfl⟩
    have hne : c ≠ b.drafts.size := Nat.ne_of_lt hlt
    rw [(hf₃.trans hf₄).grows.kept c (by simp [hdrafts]; omega) (by simp [hcurrent]; omega)
      (by simp), hdrafts]
    simp [Array.getElem?_push, hne]
  subst hb
  refine ⟨G₃, ⟨resume_staged hg₄ (fun c hcur => ?_) ?_,
    { hall with grows := hall.grows.restore rfl rfl rfl }, rfl, hkept⟩, hfirst⟩
  · obtain ⟨hentered, d, hd, hpending⟩ := h.current c hcur
    exact ⟨hall.entered hentered, d, (hkept c hcur).trans hd, hpending⟩
  · exact List.forall_mem_cons.mpr ⟨hfirst, hg₄.paths⟩

/-- A way out is made aside. -/
theorem leaveThrough_staged {crossed : List Crossing} {target first : Nat}
    (hcopies : ∀ c ∈ crossed, KeepsStages U frames c.copy) (h : b.Staged U G)
    (hflat : ∀ f ∈ frames, f.Flat G) (htarget : G.Flat target)
    (hrun : (leaveThrough crossed target).run b = .ok (first, b')) :
    ∃ G', Aside U b G b' G' ∧ G'.Flat first := by
  have hsame : Aside U b G b G := ⟨h, .refl [] b G, rfl, fun _ _ => rfl⟩
  unfold leaveThrough at hrun
  split at hrun
  · obtain ⟨rfl, rfl⟩ := run_pure.mp hrun
    exact ⟨G, hsame, htarget⟩
  · rw [run_bind] at hrun
    obtain ⟨b₀, b₁, h₁, hrun⟩ := hrun
    obtain ⟨rfl, rfl⟩ := run_get.mp h₁
    split at hrun
    · rename_i path hpath
      obtain ⟨rfl, rfl⟩ := run_pure.mp hrun
      exact ⟨G, hsame, h.paths path (List.mem_of_find?_eq_some hpath)⟩
    · simp only [run_bind, run_get, run_modify, run_pure] at hrun
      obtain ⟨_, _, ⟨rfl, rfl⟩, _, b₁, h₁, _, b₂, h₂, _, b₃, h₃, _, b₄, h₄, _, b₅, h₅, _, b₆,
        rfl, rfl, rfl⟩ := hrun
      rw [run_setCurrent] at h₅
      cases h₅
      exact makePath_staged hcopies h hflat htarget h₁ h₂ h₃ h₄ rfl

/-- The ways of raised categories are made aside. -/
theorem exceptionTargets_staged (hsound : Frame.Sound U frames) {categories : List String}
    {routed handlers : List (String × BlockId)} (h : b.Staged U G)
    (hflat : ∀ f ∈ frames, f.Flat G) (hrouted : ∀ r ∈ routed, G.Flat r.2)
    (hrun : (exceptionTargets frames categories routed).run b = .ok (handlers, b')) :
    ∃ G', Aside U b G b' G' ∧ ∀ r ∈ handlers, G'.Flat r.2 := by
  induction categories generalizing b G routed with
  | nil =>
      obtain ⟨rfl, rfl⟩ := run_pure.mp hrun
      exact ⟨G, ⟨h, .refl [] b G, rfl, fun _ _ => rfl⟩, hrouted⟩
  | cons category rest ih =>
      rcases run_exceptionTargets_cons hrun with ⟨-, hrest⟩ | ⟨-, first, b₁, h₁, h₂⟩
      · exact ih h hflat hrouted hrest
      · rw [exceptionTarget_eq] at h₁
        obtain ⟨hcopies, htarget⟩ := hsound.route h hflat category
        obtain ⟨G₁, ha₁, hfirst⟩ := leaveThrough_staged hcopies h hflat htarget h₁
        have hrouted₁ : ∀ r ∈ routed ++ [(category, first)], G₁.Flat r.2 := by
          intro r hr
          rcases List.mem_append.mp hr with hr | hr
          · exact ha₁.follows.flat (hrouted r hr)
          · rw [List.mem_singleton.mp hr]
            exact hfirst
        obtain ⟨G₂, ha₂, hhandlers⟩ := ih ha₁.staged (ha₁.follows.flat_frames hflat) hrouted₁ h₂
        exact ⟨G₂, ha₁.trans ha₂, hhandlers⟩

/-- A raising node goes where its operands wait, in a block of its own. -/
theorem emitRaising_staged (hsound : Frame.Sound U frames) {kind : NodeKind}
    {categories : List String} {terminal : Bool} {id : Nat} (h : b.Staged U G)
    (hflat : ∀ f ∈ frames, f.Flat G) (hs : b.Holds G s) (hdirect : ∀ o ∈ kind.direct, o ∈ s)
    (harms : kind.arms = [])
    (hcode : kind.isEffect = false → b.Expects U fun L k =>
      L.node k kind ∧ L.raises k (Digraph.distinct categories))
    (hrun : (emitRaising frames kind categories terminal).run b = .ok (id, b')) :
    ∃ G', b'.Staged U G' ∧ Follows [] b G b' G' ∧
      (terminal = false → b'.Holds G' (if kind.isEffect then [] else id :: s) ∧
        b.Placed kind id b' ∧ b'.listing.raises id (Digraph.distinct categories)) := by
  obtain ⟨handlers, b₁, t, b₂, h₁, hblock, rfl, hb⟩ := run_emitRaising hrun
  obtain ⟨G₁, ha₁, hhandlers⟩ := exceptionTargets_staged hsound h hflat (by simp) h₁
  have hs₁ := ha₁.holds h hs
  have hcategories : handlers.map Prod.fst = Digraph.distinct categories := by
    rw [categories_of_run h₁]
    simp
  obtain ⟨G₂, hg₂, hf₂, hs₂, hd₂, hnodes, hreused⟩ :
      ∃ G₂, { b₂ with current := some t }.Staged U G₂ ∧
      Follows [] b₁ G₁ { b₂ with current := some t } G₂ ∧
      Holds { b₂ with current := some t } G₂ s ∧ b₂.drafts[t]? = some ⟨[], .openEnd⟩ ∧
      b₂.nodes = b₁.nodes ∧ ∀ c : Nat, b₁.current = some c →
        b₁.drafts[c]? = some ⟨[], .openEnd⟩ → c = t := by
    rcases hblock with ⟨rfl, hcur, hd⟩ | ⟨hnext, hclosed⟩
    · obtain ⟨-, d, hd', -⟩ := ha₁.staged.current t hcur
      have hsame : { b₂ with current := some t } = b₂ := by rw [← hcur]
      rw [hsame]
      exact ⟨G₁, ha₁.staged, .refl [] _ _, hs₁, by simp_all, rfl,
        fun c hc _ => Option.some.inj (hc.symm.trans hcur)⟩
    · obtain ⟨G₂, hg₂, hf₂, hs₂, hd₂, hnodes⟩ := nextBlock_staged ha₁.staged hs₁ hnext
      refine ⟨G₂, hg₂, hf₂, hs₂, hd₂, hnodes, fun c hc hd => absurd ?_ (hclosed c hc)⟩
      simp [hd]
  have hraised : ∀ x ∈ (Exits.raise none handlers terminal).raised, G₂.Flat x := by
    intro x hx
    obtain ⟨r, hr, rfl⟩ := List.mem_map.mp hx
    exact hf₂.flat (hhandlers r hr)
  have hn : b'.nodes[b₂.nodes.size]? = some ⟨b₂.nodes.size, t, kind⟩ := by simp [hb]
  have hd' : b'.drafts[t]? = some ⟨[b₂.nodes.size], .raise none handlers terminal⟩ := by
    simp [hb, Array.getElem?_modify, hd₂]
  have hraises : b'.listing.raises b₂.nodes.size (Digraph.distinct categories) :=
    ⟨t, _, handlers, terminal, hd', hcategories⟩
  have hf₀₂ := ha₁.follows.trans hf₂
  obtain ⟨hg₃, hf₃, hs₃, -⟩ := place_staged hg₂ hs₂ rfl hd₂ rfl
    (fun o ho => hs₂.has rfl (hdirect o ho)) (fun _ => hdirect) (by simp [harms])
    (f := fun d => ⟨d.nodes ++ [b₂.nodes.size], .raise none handlers terminal⟩) rfl rfl
    hraised (by cases terminal <;> simp [Exits.Pending])
    (fun heffect hf w e _ => by
      obtain ⟨x, first, hx, hvalue⟩ :=
        Expects.follow (hcode heffect) hf₀₂ hf.grows.embeds ⟨⟨_, hn, rfl⟩, hraises⟩
      exact ⟨x, first, hx, hvalue, .of_arms harms⟩) hb
  refine ⟨G₂, hg₃, hf₀₂.trans hf₃, ?_⟩
  rintro rfl
  have hcur' : b'.current = some t := by simp [hb]
  have hfresh : b.nodes.size ≤ b₂.nodes.size := hf₀₂.grows.nodes_size_le
  refine ⟨hs₃ rfl, ⟨⟨_, hn, rfl⟩, ⟨hfresh, ⟨_, hn, hcur'⟩, t, hcur', _, hd', rfl⟩,
    hfresh, by simp [hb], fun c hc hdc => ?_⟩, hraises⟩
  obtain rfl := hreused c (ha₁.current.trans hc) ((ha₁.kept c hc).trans hdc)
  exact ⟨_, hd', rfl⟩

end Build

end FlowTyping
