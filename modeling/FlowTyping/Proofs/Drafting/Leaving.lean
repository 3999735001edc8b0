import FlowTyping.Proofs.Drafting.Steps
import FlowTyping.Proofs.Lowering.Routing

/-!
Constructions made of steps, and the ways out of them: code stands before a place in the
order, and its frames tell where it may lead.
-/

namespace FlowTyping

open Build

/-- The state goes on by steps. -/
structure Building.Moves (S : List Nat) (b : Building) (G : Marks) (b' : Building) (G' : Marks) :
    Prop where
  grows : b.Grows S b'
  marks : G.Extends G'

/-- What the construction does next belongs to some code. -/
def Building.Stands (b : Building) (G : Marks) (k : Span) : Prop :=
  ∃ p < k.stop, ∀ c : Nat, b.current = some c →
    ∃ m, G.blocks[c]? = some m ∧ m.place ≤ p ∧ ∀ h ∈ k.loops, h ∈ m.loops

/-- Some code may lead wherever the frames around it send control. A copy of a final body
belongs to the code after the region that the body protects. -/
def Frame.Fits (G : Marks) : Span → List Frame → Prop
  | k, [] => G.Allows k exitId ∧ G.Allows k exceptionalExitId
  | k, loop _ continueTarget breakTarget :: outer =>
      G.Allows k continueTarget ∧ G.Allows k breakTarget ∧ Fits G k outer
  | k, handlers targets :: outer => (∀ t ∈ targets, G.Allows k t.2) ∧ Fits G k outer
  | k, finalBody id _ :: outer =>
      ∃ f, G.finals[id]? = some f ∧ k.Inside f.before ∧ Fits G f.after outer

/-- A construction inside some frames is made of steps. -/
structure Stepwise {α : Type} (frames : List Frame) (m : Build α) : Prop where
  run : ∀ {b b' : Building} {G : Marks} {k : Span} {a : α}, b.Drafted G →
    Frame.Fits G k frames → b.Stands G k → m.run b = .ok (a, b') →
    ∃ G', b'.Drafted G' ∧ b.Moves [] G b' G' ∧ b'.Stands G' k

/-- The copies of the final bodies among some frames are made of steps. -/
def Frame.Copied : List Frame → Prop
  | [] => True
  | finalBody _ copy :: outer => Stepwise outer copy ∧ Copied outer
  | _ :: outer => Copied outer

/-- Some code may lead to a block through copies of final bodies. -/
def Crosses (G : Marks) : Span → List Crossing → BlockId → Prop
  | k, [], target => G.Allows k target
  | k, c :: rest, target => ∃ f outer, G.finals[c.id]? = some f ∧ k.Inside f.before ∧
      Frame.Fits G f.after outer ∧ Stepwise outer c.copy ∧ Crosses G f.after rest target

section

variable {S T : List Nat} {b b' b'' : Building} {G G' G'' : Marks} {k k' : Span}
  {frames outer : List Frame} {crossed : List Crossing} {target t : Nat}

namespace Building

namespace Moves

theorem refl (S : List Nat) (b : Building) (G : Marks) : b.Moves S G b G :=
  ⟨.refl S b, .refl G⟩

theorem trans (h : b.Moves S G b' G') (h' : b'.Moves S G' b'' G'') : b.Moves S G b'' G'' :=
  ⟨h.grows.trans h'.grows, h.marks.trans h'.marks⟩

theorem weaken (h : b.Moves S G b' G') (hST : ∀ i ∈ S, i ∈ T ∨ b.drafts.size ≤ i) :
    b.Moves T G b' G' :=
  ⟨h.grows.weaken hST, h.marks⟩

/-- Then a block is entered that was made on the way. -/
theorem enter (h : b.Moves [] G b' G') (h' : b'.Moves [t] G' b'' G'')
    (ht : b.drafts.size ≤ t) : b.Moves [] G b'' G'' := by
  have hboth := (h.weaken (T := [t]) (by simp)).trans h'
  exact hboth.weaken fun i hi => .inr (List.mem_singleton.mp hi ▸ ht)

end Moves

theorem Step.moves (h : Step b G b' G')
    (hcur : ∀ c : Nat, b'.current = some c → b.current = some c ∨ c ∈ S ∨ b.drafts.size ≤ c) :
    b.Moves S G b' G' :=
  ⟨h.grows hcur, h.extends⟩

namespace Stands

theorem inside (h : b.Stands G k) (hk : k.Inside k') : b.Stands G k' := by
  obtain ⟨p, hp, hcur⟩ := h
  refine ⟨p, hp.trans_le hk.stop, fun c hc => ?_⟩
  obtain ⟨m, hm, hplace, hloops⟩ := hcur c hc
  exact ⟨m, hm, hplace, fun h hh => hloops h (hk.loops h hh)⟩

theorem keep (h : b.Stands G k) (hcur : b'.current = b.current) (hG : G.Extends G') :
    b'.Stands G' k := by
  obtain ⟨p, hp, hmarks⟩ := h
  refine ⟨p, hp, fun c hc => ?_⟩
  obtain ⟨m, hm, hrest⟩ := hmarks c (hcur.symm.trans hc)
  exact ⟨m, hG.block hm, hrest⟩

/-- Where control never is, code of any kind can stand. -/
theorem dead (h : b.Stands G k) (hcur : b'.current = none) : b'.Stands G' k := by
  obtain ⟨p, hp, -⟩ := h
  refine ⟨p, hp, fun c hc => ?_⟩
  rw [hcur] at hc
  cases hc

theorem of_mark {m : Mark} (hcur : b.current = some t) (hm : G.blocks[t]? = some m)
    (hk : m.Within k) : b.Stands G k := by
  refine ⟨m.place, hk.place, fun c hc => ?_⟩
  obtain rfl : t = c := Option.some.inj (hcur.symm.trans hc)
  exact ⟨m, hm, le_refl _, hk.loops⟩

theorem within (h : b.Stands G k) {c : Nat} (hc : b.current = some c) :
    ∃ m, G.blocks[c]? = some m ∧ m.Within k := by
  obtain ⟨p, hp, hmarks⟩ := h
  obtain ⟨m, hm, hplace, hloops⟩ := hmarks c hc
  exact ⟨m, hm, hplace.trans_lt hp, hloops⟩

/-- There is room for more code before some code ends. -/
theorem between (h : b.Stands G k) : ∃ p < k.stop, b.Stands G (k.upTo p) := by
  obtain ⟨p, hp, hmarks⟩ := h
  obtain ⟨q, hpq, hq⟩ := exists_between hp
  exact ⟨q, hq, p, hpq, hmarks⟩

end Stands

end Building

namespace Frame

theorem Fits.extend (h : Fits G k frames) (hG : G.Extends G') : Fits G' k frames := by
  induction frames generalizing k with
  | nil => exact ⟨hG.allows h.1, hG.allows h.2⟩
  | cons frame outer ih =>
      cases frame with
      | loop => exact ⟨hG.allows h.1, hG.allows h.2.1, ih h.2.2⟩
      | handlers => exact ⟨fun t ht => hG.allows (h.1 t ht), ih h.2⟩
      | finalBody =>
          obtain ⟨f, hf, hinside, houter⟩ := h
          exact ⟨f, hG.final hf, hinside, ih houter⟩

theorem Fits.inside (h : Fits G k' frames) (hk : k.Inside k') : Fits G k frames := by
  induction frames with
  | nil => exact ⟨h.1.inside hk, h.2.inside hk⟩
  | cons frame outer ih =>
      cases frame with
      | loop => exact ⟨h.1.inside hk, h.2.1.inside hk, ih h.2.2⟩
      | handlers => exact ⟨fun t ht => (h.1 t ht).inside hk, ih h.2⟩
      | finalBody =>
          obtain ⟨f, hf, hinside, houter⟩ := h
          exact ⟨f, hf, hk.trans hinside, houter⟩

end Frame

namespace Crosses

theorem extend (h : Crosses G k crossed target) (hG : G.Extends G') :
    Crosses G' k crossed target := by
  induction crossed generalizing k with
  | nil => exact hG.allows h
  | cons c rest ih =>
      obtain ⟨f, outer, hf, hinside, hfits, hcopy, hrest⟩ := h
      exact ⟨f, outer, hG.final hf, hinside, hfits.extend hG, hcopy, ih hrest⟩

theorem inside (h : Crosses G k' crossed target) (hk : k.Inside k') :
    Crosses G k crossed target := by
  cases crossed with
  | nil => exact Marks.Allows.inside h hk
  | cons c rest =>
      obtain ⟨f, outer, hf, hinside, hrest⟩ := h
      exact ⟨f, outer, hf, hk.trans hinside, hrest⟩

end Crosses

namespace Frame

/-- A raised category may go where the frames send it. -/
theorem Copied.route (h : Copied frames) (hfits : Fits G k frames) (category : String) :
    Crosses G k (Frame.route frames category).1 (Frame.route frames category).2 := by
  induction frames generalizing k with
  | nil => exact hfits.2
  | cons frame outer ih =>
      cases frame with
      | loop =>
          rw [route_loop]
          exact ih h hfits.2.2
      | handlers targets =>
          rw [route_handlers]
          split
          · rename_i t ht
            exact hfits.1 t (List.mem_of_find?_eq_some ht)
          · exact ih h hfits.2
      | finalBody id copy =>
          rw [route_finalBody]
          obtain ⟨f, hf, hinside, houter⟩ := hfits
          exact ⟨f, outer, hf, hinside, houter, h.1, ih h.2 houter⟩

/-- A jump may go where the frames send it. -/
theorem Copied.way (h : Copied frames) (hfits : Fits G k frames) {label : Option String}
    {leaves : Bool} (hway : Frame.way label leaves frames = some (crossed, target)) :
    Crosses G k crossed target := by
  induction frames generalizing k crossed with
  | nil => simp [Frame.way, Frame.findLoop] at hway
  | cons frame outer ih =>
      cases frame with
      | loop name continueTarget breakTarget =>
          rw [way_loop] at hway
          split at hway
          · cases hway
            obtain ⟨hcontinue, hbreak, -⟩ := hfits
            cases leaves
            · exact hcontinue
            · exact hbreak
          · exact ih h hfits.2.2 hway
      | handlers targets =>
          rw [way_handlers] at hway
          exact ih h hfits.2 hway
      | finalBody id copy =>
          rw [way_finalBody] at hway
          obtain ⟨found, hfound, heq⟩ := Option.map_eq_some_iff.mp hway
          cases heq
          obtain ⟨f, hf, hinside, houter⟩ := hfits
          exact ⟨f, outer, hf, hinside, houter, h.1, ih h.2 houter hfound⟩

/-- A return may go to the exit, through all final bodies. -/
theorem Copied.crossings (h : Copied frames) (hfits : Fits G k frames) :
    Crosses G k (Frame.crossings frames) exitId := by
  induction frames generalizing k with
  | nil => exact hfits.1
  | cons frame outer ih =>
      cases frame with
      | loop => exact ih h hfits.2.2
      | handlers => exact ih h hfits.2
      | finalBody id copy =>
          obtain ⟨f, hf, hinside, houter⟩ := hfits
          exact ⟨f, outer, hf, hinside, houter, h.1, ih h.2 houter⟩

end Frame

end

namespace Build

open Building

variable {α : Type} {S : List Nat} {b b' b₁ b₂ b₃ b₄ : Building} {G G' : Marks} {k : Span}
  {frames : List Frame} {m : Mark} {t : Nat} {u : Unit}

/-- A marked block waits for its code. -/
structure Reserved (b : Building) (G : Marks) (t : Nat) (m : Mark) : Prop where
  fresh : b.Fresh t
  mark : G.blocks[t]? = some m

theorem Reserved.later (h : Reserved b G t m) (hm : b.Moves S G b' G') (ht : t ∉ S) :
    Reserved b' G' t m :=
  ⟨hm.grows.waits h.fresh ht, hm.marks.block h.mark⟩

/-- A new block has been made. -/
structure Makes (b : Building) (G : Marks) (t : Nat) (m : Mark) (b' : Building) (G' : Marks) :
    Prop where
  drafted : b'.Drafted G'
  moves : b.Moves [] G b' G'
  reserved : Reserved b' G' t m
  le : b.drafts.size ≤ t
  current : b'.current = b.current
  kept : ∀ i < b.drafts.size, b'.drafts[i]? = b.drafts[i]?

theorem Makes.stands (h : Makes b G t m b' G') (hs : b.Stands G k) : b'.Stands G' k :=
  hs.keep h.current h.moves.marks

theorem newBlock_drafted (h : b.Drafted G) (hrole : m.role = .code) (hplace : m.place < ⊤)
    (hrun : newBlock.run b = .ok (t, b')) : Makes b G t m b' (G.mark m) := by
  rw [newBlock, run_newDraft] at hrun
  cases hrun
  have hstep := Step.fresh (b := b) (G := G) m hrole hplace
  refine ⟨h.step hstep, hstep.moves fun _ hc => .inl hc, ⟨⟨by simp, fun hcur => ?_⟩, ?_⟩,
    Nat.le_refl _, rfl, fun i hi => ?_⟩
  · exact Nat.lt_irrefl _ (h.shaped.lt_current hcur)
  · rw [← h.shaped.blocks]
    exact G.mark_new m
  · simp [Array.getElem?_push, Nat.ne_of_lt hi]

/-- A new ordinary block of some code. -/
theorem newCode_drafted {q : WithTop ℚ} (h : b.Drafted G) (hq : q < k.stop)
    (hrun : newBlock.run b = .ok (t, b')) : ∃ G', Makes b G t (k.block q) b' G' :=
  ⟨_, newBlock_drafted h rfl (lt_top_of_lt hq) hrun⟩

/-- The code of a block begins. -/
theorem turn_drafted (h : b.Drafted G) (ht : Reserved b G t m) (hk : m.Within k)
    (hrun : (setCurrent (some t)).run b = .ok (u, b')) :
    b'.Drafted G ∧ b.Moves [t] G b' G ∧ b'.Stands G k ∧
      b'.drafts[t]? = some ⟨[], .openEnd⟩ := by
  rw [run_setCurrent] at hrun
  cases hrun
  have hstep : Step b G { b with current := some t } G := .turn (some t) fun c hc => by
    obtain rfl : t = c := Option.some.inj hc
    exact ⟨_, ht.fresh.1, trivial⟩
  refine ⟨h.step hstep, hstep.moves fun c hc => ?_, .of_mark rfl ht.mark hk, ht.fresh.1⟩
  obtain rfl : t = c := Option.some.inj hc
  exact .inr (.inl (by simp))

/-- The current path ends with a jump to where its code may lead. -/
theorem close_drafted (h : b.Drafted G) (hs : b.Stands G k) (ht : G.Allows k t)
    (hrun : (closeWith t).run b = .ok (u, b')) :
    b'.Drafted G ∧ b.Moves [] G b' G ∧ b'.current = none := by
  rw [run_closeWith] at hrun
  cases hcur : b.current with
  | none =>
      simp only [hcur] at hrun
      cases hrun
      have hstep : Step b G { b with current := none } G := .turn none nofun
      exact ⟨h.step hstep, hstep.moves nofun, rfl⟩
  | some c =>
      simp only [hcur] at hrun
      cases hrun
      obtain ⟨m, hm, hk⟩ := hs.within hcur
      have hstep := Step.close hcur (ht.leads hm hk)
      exact ⟨h.step hstep, hstep.moves nofun, rfl⟩

/-- Code in a block made for it, which is then left. -/
theorem arm_drafted {join : Nat} {c : Build α} {a : α} (hc : Stepwise frames c)
    (h : b.Drafted G) (hfits : Frame.Fits G k frames) (ht : Reserved b G t m)
    (hk : m.Within k) (hjoin : G.Allows k join)
    (h₁ : (setCurrent (some t)).run b = .ok ((), b₁)) (h₂ : c.run b₁ = .ok (a, b₂))
    (h₃ : (closeWith join).run b₂ = .ok ((), b₃)) :
    ∃ G', b₃.Drafted G' ∧ b.Moves [t] G b₃ G' := by
  obtain ⟨hd₁, hm₁, hs₁, -⟩ := turn_drafted h ht hk h₁
  obtain ⟨G₂, hd₂, hm₂, hs₂⟩ := hc.run hd₁ hfits hs₁ h₂
  obtain ⟨hd₃, hm₃, -⟩ := close_drafted hd₂ hs₂ (hm₂.marks.allows hjoin) h₃
  exact ⟨G₂, hd₃, hm₁.trans ((hm₂.trans hm₃).weaken (by simp))⟩

/-- The copies on a way out are made one after the other. -/
theorem forM_copy_drafted {crossed : List Crossing} {target : Nat} (h : b.Drafted G)
    (hs : b.Stands G k) (hcrosses : Crosses G k crossed target)
    (hrun : (crossed.forM Crossing.copy).run b = .ok (u, b')) :
    ∃ G' k', b'.Drafted G' ∧ b.Moves [] G b' G' ∧ b'.Stands G' k' ∧ G'.Allows k' target := by
  induction crossed generalizing b G k with
  | nil =>
      obtain ⟨-, rfl⟩ := run_pure.mp hrun
      exact ⟨G, k, h, .refl [] b G, hs, hcrosses⟩
  | cons c rest ih =>
      rw [List.forM, run_bind] at hrun
      obtain ⟨_, b₁, h₁, h₂⟩ := hrun
      obtain ⟨f, outer, -, hinside, hfits, hcopy, hrest⟩ := hcrosses
      obtain ⟨G₁, hd₁, hm₁, hs₁⟩ := hcopy.run h hfits (hs.inside hinside.after) h₁
      obtain ⟨G₂, k', hd₂, hm₂, hs₂, htarget⟩ := ih hd₁ hs₁ (hrest.extend hm₁.marks) h₂
      exact ⟨G₂, k', hd₂, hm₁.trans hm₂, hs₂, htarget⟩

/-- Steps that leave the current block alone. -/
structure Beside (b : Building) (G : Marks) (b' : Building) (G' : Marks) : Prop where
  drafted : b'.Drafted G'
  moves : b.Moves [] G b' G'
  current : b'.current = b.current

theorem Beside.trans {b'' : Building} {G'' : Marks} (h : Beside b G b' G')
    (h' : Beside b' G' b'' G'') : Beside b G b'' G'' :=
  ⟨h'.drafted, h.moves.trans h'.moves, h'.current.trans h.current⟩

theorem Beside.refl (h : b.Drafted G) : Beside b G b G := ⟨h, .refl [] b G, rfl⟩

theorem Beside.stands (h : Beside b G b' G') (hs : b.Stands G k) : b'.Stands G' k :=
  hs.keep h.current h.moves.marks

/-- A new path leads through copies of final bodies. -/
theorem makePath_drafted {c : Crossing} {rest : List Crossing} {target first : Nat}
    (h : b.Drafted G) (hcrosses : Crosses G k (c :: rest) target)
    (h₁ : newBlock.run b = .ok (first, b₁))
    (h₂ : (setCurrent (some first)).run b₁ = .ok ((), b₂))
    (h₃ : ((c :: rest).forM Crossing.copy).run b₂ = .ok ((), b₃))
    (h₄ : (closeWith target).run b₃ = .ok ((), b₄))
    (hb : b' = { b₄ with
      current := b.current
      finalPaths := (((c :: rest).map Crossing.id, target), first) :: b₄.finalPaths }) :
    ∃ G', Beside b G b' G' ∧ G'.Allows k first := by
  obtain ⟨f, outer, hf, hinside, hfits, hcopy, hrest⟩ := hcrosses
  have hmade : Makes b G first ⟨f.start, f.loops, .code⟩ b₁ (G.mark ⟨f.start, f.loops, .code⟩) :=
    newBlock_drafted h rfl (f.lt.trans_le le_top) h₁
  have hG := hmade.moves.marks
  generalize G.mark ⟨f.start, f.loops, .code⟩ = G₁ at hmade hG
  obtain ⟨hd₂, hm₂, hs₂, -⟩ := turn_drafted hmade.drafted hmade.reserved
    (k := f.after) ⟨f.lt, fun _ hl => hl⟩ h₂
  rw [List.forM, run_bind] at h₃
  obtain ⟨_, b₂', h₃, h₃'⟩ := h₃
  obtain ⟨G₃, hd₃, hm₃, hs₃⟩ := hcopy.run hd₂ (hfits.extend hG) hs₂ h₃
  obtain ⟨G₄, k', hd₄, hm₄, hs₄, htarget⟩ := forM_copy_drafted hd₃ hs₃
    (hrest.extend (hG.trans hm₃.marks)) h₃'
  obtain ⟨hd₅, hm₅, -⟩ := close_drafted hd₄ hs₄ htarget h₄
  have hlater := hm₃.trans (hm₄.trans hm₅)
  have hall := hmade.moves.enter (hm₂.trans (hlater.weaken (by simp))) hmade.le
  -- The copies leave the block alone in which the path was asked for.
  have hkept : ∀ c : Nat, b.current = some c → b₄.drafts[c]? = b.drafts[c]? := by
    intro c hcur
    have hlt := h.shaped.lt_current hcur
    have hle := hmade.le
    rw [run_setCurrent] at h₂
    cases h₂
    rw [hlater.grows.kept c (Nat.lt_of_lt_of_le hlt hmade.moves.grows.size_le)
      (fun hc => by cases hc; omega) (by simp), hmade.kept c hlt]
  have hfirst : G₄.blocks[first]? = some ⟨f.start, f.loops, .code⟩ :=
    hlater.marks.block hmade.reserved.mark
  have hf' : G₄.finals[c.id]? = some f := (hG.trans hlater.marks).final hf
  have hback : Step b₄ G₄ { b₄ with current := b.current } G₄ := .turn b.current fun c hcur => by
    obtain ⟨d, hd, hpending⟩ := h.shaped.current c hcur
    exact ⟨d, (hkept c hcur).trans hd, hpending⟩
  subst hb
  refine ⟨G₄, ⟨(hd₅.step hback).step (.remember hf' hfirst rfl (le_refl _) rfl), ⟨?_, hall.marks⟩,
    rfl⟩, ?_⟩
  · exact hall.grows.restore rfl rfl rfl
  · exact Marks.allows_of_le hfirst trivial hinside.stop hinside.loops

/-- A way out is made beside the current block. -/
theorem leaveThrough_drafted {crossed : List Crossing} {target first : Nat} (h : b.Drafted G)
    (hcrosses : Crosses G k crossed target)
    (hrun : (leaveThrough crossed target).run b = .ok (first, b')) :
    ∃ G', Beside b G b' G' ∧ G'.Allows k first := by
  cases crossed with
  | nil =>
      obtain ⟨rfl, rfl⟩ := run_pure.mp hrun
      exact ⟨G, .refl h, hcrosses⟩
  | cons c rest =>
      rw [leaveThrough, if_neg (by simp), run_bind] at hrun
      obtain ⟨b₀, b₁, h₁, hrun⟩ := hrun
      obtain ⟨rfl, rfl⟩ := run_get.mp h₁
      split at hrun
      · rename_i path hpath
        obtain ⟨rfl, rfl⟩ := run_pure.mp hrun
        have hkey := List.find?_some hpath
        obtain ⟨id, ids, f, n, hids, hf, hn, hrole, hplace, hloops⟩ :=
          h.shaped.paths path (List.mem_of_find?_eq_some hpath)
        obtain ⟨f', outer, hf', hinside, -⟩ := hcrosses
        rw [of_decide_eq_true hkey] at hids
        cases hids
        obtain rfl : f = f' := Option.some.inj (hf.symm.trans hf')
        refine ⟨G, .refl h, Marks.allows_of_le hn (by rw [hrole]; trivial)
          (hinside.stop.trans hplace) ?_⟩
        rw [hloops]
        exact hinside.loops
      · simp only [run_bind, run_get, run_modify, run_pure] at hrun
        obtain ⟨_, _, ⟨rfl, rfl⟩, _, b₁, h₁, _, b₂, h₂, _, b₃, h₃, _, b₄, h₄, _, b₅, h₅, _, b₆,
          rfl, rfl, rfl⟩ := hrun
        rw [run_setCurrent] at h₅
        cases h₅
        exact makePath_drafted h hcrosses h₁ h₂ h₃ h₄ rfl

/-- The ways of raised categories are made beside the current block. -/
theorem exceptionTargets_drafted (hcopied : Frame.Copied frames) {categories : List String}
    {routed handlers : List (String × BlockId)} (h : b.Drafted G)
    (hfits : Frame.Fits G k frames) (hrouted : ∀ r ∈ routed, G.Allows k r.2)
    (hrun : (exceptionTargets frames categories routed).run b = .ok (handlers, b')) :
    ∃ G', Beside b G b' G' ∧ ∀ r ∈ handlers, G'.Allows k r.2 := by
  induction categories generalizing b G routed with
  | nil =>
      obtain ⟨rfl, rfl⟩ := run_pure.mp hrun
      exact ⟨G, .refl h, hrouted⟩
  | cons category rest ih =>
      rcases run_exceptionTargets_cons hrun with ⟨-, hrest⟩ | ⟨-, first, b₁, h₁, h₂⟩
      · exact ih h hfits hrouted hrest
      · rw [exceptionTarget_eq] at h₁
        obtain ⟨G₁, hb₁, hfirst⟩ := leaveThrough_drafted h (hcopied.route hfits category) h₁
        have hrouted₁ : ∀ r ∈ routed ++ [(category, first)], G₁.Allows k r.2 := by
          intro r hr
          rcases List.mem_append.mp hr with hr | hr
          · exact hb₁.moves.marks.allows (hrouted r hr)
          · rw [List.mem_singleton.mp hr]
            exact hfirst
        obtain ⟨G₂, hb₂, hhandlers⟩ :=
          ih hb₁.drafted (hfits.extend hb₁.moves.marks) hrouted₁ h₂
        exact ⟨G₂, hb₁.trans hb₂, hhandlers⟩

end Build

end FlowTyping
