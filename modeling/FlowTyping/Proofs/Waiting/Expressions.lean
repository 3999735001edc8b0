import FlowTyping.Proofs.Waiting.Ways
import FlowTyping.Proofs.Lowering.Values

/-!
The values of expressions wait: what waited before an expression waits after it together
with its value, and in both targets of a test together with the first value tested.
-/

namespace FlowTyping

open Build Building

/-- A construction of a value inside some frames lets it wait, and the first node of its code,
with what waited before. -/
structure Computes (U : Expr → Prop) (frames : List Frame) (m : Build NodeId) (x : Expr) :
    Prop where
  run : ∀ {b b' : Building} {G : Stages} {s : List NodeId} {id : NodeId}, b.Staged U G →
    (∀ f ∈ frames, f.Flat G) → b.Holds G s → m.run b = .ok (id, b') →
    ∃ G' first, b'.Staged U G' ∧ Follows [] b G b' G' ∧ b'.Holds G' (id :: first :: s) ∧
      b.Yields id b' ∧ b.Begins first b' ∧ x.code.value b'.listing first id

/-- A construction of a test inside some frames leads to two blocks in which a value of the
test and the first node of its code wait with what waited before. -/
structure Tests (U : Expr → Prop) (frames : List Frame) (m : BlockId → BlockId → Build Unit)
    (x : Expr) : Prop where
  run : ∀ {b b' : Building} {G : Stages} {s : List NodeId} {t e : Nat} {u : Unit},
    b.Staged U G → (∀ f ∈ frames, f.Flat G) → b.Holds G s → b.Ready G s t → b.Ready G s e →
    (m t e).run b = .ok (u, b') →
    ∃ G' i first, b'.Staged U G' ∧ Follows [t, e] b G b' G' ∧
      Reaches b' G G' (i :: first :: s) t ∧ Reaches b' G G' (i :: first :: s) e ∧
      b.Begins first b' ∧ x.code.test b'.listing first t e

structure Lowered.Waits (U : Expr → Prop) (frames : List Frame) (l : Lowered) (x : Expr) :
    Prop where
  value : Computes U frames l.value x
  test : Tests U frames l.test x

variable {U : Expr → Prop} {frames : List Frame} {b b' b₁ b₂ b₃ : Building}
  {G G' G'' : Stages} {S : List Nat} {s s' w : List NodeId} {t e i : Nat} {u : Unit}

namespace Build

theorem Decides.of_same (h : Decides G G' s t) (hsame : G''.stage t = G.stage t) :
    Decides G'' G' s t :=
  ⟨fun hnone => h.claimed (hsame.symm.trans hnone),
    fun st hst => h.decided st (hsame.symm.trans hst)⟩

theorem Decides.then (h : Decides G G' s t) (hsame : ∀ st, G'.stage t = some st →
    G''.stage t = some st) : Decides G G'' s t :=
  ⟨fun hnone => hsame _ (h.claimed hnone), fun st hst => hsame _ (h.decided st hst)⟩

/-- What a block still has to wait for is claimed. -/
theorem Decides.claim (h : Decides G G' s t ∨ G'.stage t = G.stage t) :
    Decides G (G'.claim t s) s t := by
  rcases h with h | h
  · exact h.then fun _ => Stages.claim_keeps
  · refine ⟨fun hnone => ?_, fun st hst => Stages.claim_keeps (h.trans hst)⟩
    rw [Stages.claim_of_none (h.trans hnone), Stages.set_self]

/-- Both targets of a test are decided before the test is built. -/
theorem claims_staged (h : b.Staged U G') (ht : t < b.drafts.size) (he : e < b.drafts.size)
    (hdt : Decides G G' s t ∨ G'.stage t = G.stage t)
    (hde : Decides G G' s e ∨ G'.stage e = G.stage e) :
    ∃ G'', b.Staged U G'' ∧ Follows [t, e] b G' b G'' ∧ Decides G G'' s t ∧ Decides G G'' s e := by
  obtain ⟨hg₁, hf₁, -⟩ := claim_staged h ht s
  obtain ⟨hg₂, hf₂, -⟩ := claim_staged hg₁ he s
  refine ⟨_, hg₂, (hf₁.weaken (by simp)).andThen hf₂ (by simp),
    (Decides.claim hdt).then fun _ => Stages.claim_keeps, .claim ?_⟩
  by_cases heq : e = t
  · subst heq
    exact .inl (.claim hdt)
  · refine hde.imp (fun h => h.then fun _ => Stages.claim_keeps) fun h => ?_
    exact (Stages.claim_other heq).trans h

end Build

namespace Building

theorem Ready.lt (h : b.Ready G s t) : t < b.drafts.size := h.1

theorem Ready.of_none (ht : t < b.drafts.size) (hnone : G.stage t = none) : b.Ready G s t :=
  ⟨ht, fun st hst => by
    rw [hnone] at hst
    cases hst⟩

theorem Ready.of_waits (ht : t < b.drafts.size) (hst : G.stage t = some ⟨w, none⟩)
    (hw : ∀ o ∈ w, o ∈ s) : b.Ready G s t :=
  ⟨ht, fun st hst' => by
    rw [hst] at hst'
    cases hst'
    exact ⟨hw, .inr rfl⟩⟩

theorem Ready.subset (h : b.Ready G s t) (hs : ∀ o ∈ s, o ∈ s') : b.Ready G s' t :=
  ⟨h.1, fun st hst => ⟨fun o ho => hs o ((h.2 st hst).1 o ho), (h.2 st hst).2⟩⟩

theorem Ready.follow (h : b.Ready G s t) (hf : Follows S b G b' G') (ht : t ∉ S) :
    b'.Ready G' s t :=
  ⟨Nat.lt_of_lt_of_le h.1 hf.grows.size_le, fun st hst =>
    h.2 st ((hf.same t h.1 ht).symm.trans hst)⟩

/-- A target of a test goes on being ready once it is decided. -/
theorem Ready.decided (h : b.Ready G s t) (hd : Decides G G' w t) (hs : ∀ o ∈ s, o ∈ w)
    (hf : Follows S b G b' G') : b'.Ready G' w t := by
  refine ⟨Nat.lt_of_lt_of_le h.1 hf.grows.size_le, fun st hst => ?_⟩
  cases hold : G.stage t with
  | none =>
      rw [hd.claimed hold] at hst
      cases hst
      exact ⟨fun _ ho => ho, .inr rfl⟩
  | some st' =>
      rw [hd.decided st' hold] at hst
      cases hst
      obtain ⟨hsub, hopen⟩ := h.2 st hold
      exact ⟨fun o ho => hs o (hsub o ho), hopen⟩

end Building

/-- One of two ways to a block has been built: it begins in a block and ends in another one,
from which control goes on. -/
structure Building.Connects (b : Building) (t join : Nat) (first id : NodeId) (p : Nat)
    (b' : Building) : Prop where
  fresh : b.nodes.size ≤ id
  made : id < b'.nodes.size
  starts : b'.listing.starts t first
  leads : b'.Leads p join
  ends : b'.EndsWith p id
  only : ∀ q, b'.Leads q join → b.Leads q join ∨ q = p

/-- One of two paths goes on to where they meet. -/
theorem arm_staged {m : Build NodeId} {x : Expr} {join : Nat} {w' : List NodeId} {id : NodeId}
    (hm : Computes U frames m x) (h : b.Staged U G) (hflat : ∀ f ∈ frames, f.Flat G)
    (hst : G.stage t = some ⟨w, none⟩) (hlinked : ∃ p, b.Leads p t)
    (hjoin : G.stage join = some ⟨w', none⟩) (hsub : ∀ o ∈ w', o ∈ w) (hnil : w' ≠ [])
    (hne : join ≠ t)
    (h₁ : (setCurrent (some t)).run b = .ok ((), b₁)) (h₂ : m.run b₁ = .ok (id, b₂))
    (h₃ : (closeWith join).run b₂ = .ok ((), b₃)) :
    ∃ G' first p, b₃.Staged U G' ∧ Follows [t, join] b G b₃ G' ∧
      G'.stage join = some ⟨w', none⟩ ∧ b.Connects t join first id p b₃ ∧
      (∀ o ∈ id :: w, b₃.Has G' p o) ∧ x.code.value b₃.listing first id := by
  obtain ⟨hg₁, hf₁, hs₁, hd₁, hcur₁⟩ := enter_staged h hst (fun _ => hlinked) h₁
  obtain ⟨G₂, first, hg₂, hf₂, hs₂, hyields, hbegins, hvalue⟩ :=
    hm.run hg₁ (hf₁.flat_frames hflat) hs₁ h₂
  obtain ⟨c, hcur, hlast⟩ := hyields.last
  have hf₁₂ : Follows [t] b G b₂ G₂ := hf₁.andThen hf₂ (by simp)
  have hlt := h.size_of_stage hjoin
  have hjoin₂ : G₂.stage join = some ⟨w', none⟩ := by
    rw [hf₁₂.same join hlt (by simpa using hne), hjoin]
  have hready : b₂.Ready G₂ (id :: w) join :=
    .of_waits (hg₂.size_of_stage hjoin₂) hjoin₂ fun o ho => List.mem_cons_of_mem _ (hsub o ho)
  obtain ⟨hg₃, hf₃, -, hleads, hnew, hends⟩ := closeWith_staged (S := [join]) hg₂
    (hs₂.subset (by simp only [List.mem_cons]; tauto)) hready ⟨_, hjoin₂⟩
    (.inr (List.mem_singleton_self join)) h₃
  have hnodes : b₁.nodes.size = b.nodes.size := by
    rw [run_setCurrent] at h₁
    cases h₁
    rfl
  refine ⟨G₂, first, c, hg₃, (hf₁₂.weaken (by simp)).andThen hf₃ (by simp), hjoin₂, {
    fresh := hnodes ▸ hyields.fresh
    made := Nat.lt_of_lt_of_le hyields.made hf₃.grows.nodes_size_le
    starts := hf₃.grows.embeds.starts (hbegins.starts t hcur₁ hd₁)
    leads := hleads c hcur
    ends := hends c id hlast
    only := fun q hq => ?_ },
    fun o ho => hf₃.has (hs₂.has hcur (by simp only [List.mem_cons] at *; tauto)),
    x.code_mono.value hf₃.grows.embeds hvalue⟩
  rcases hnew q join hq with hq | ⟨-, hcq⟩
  · refine .inl (hf₁₂.closed join ?_ (.inl ⟨hlt, by simpa using hne⟩) q hq)
    rintro ⟨st, hst', hw⟩
    cases hjoin.symm.trans hst'
    exact hnil hw
  · exact .inr (Option.some.inj (hcq.symm.trans hcur))

/-- Paths meet in a node. -/
theorem merge_staged {kind : NodeKind} {id first : NodeId} {x : Expr} (h : b.Staged U G)
    (hst : G.stage t = some ⟨w, none⟩) (hlinked : ∃ p, b.Leads p t)
    (heffect : kind.isEffect = false) (hdirect : ∀ o ∈ kind.direct, o ∈ w)
    (harms : ∀ o ∈ kind.arms, b.Arm G t w o) (hx : U x)
    (hjoins : Joins b.listing b.Leads b.EndsWith t w first kind)
    (hvalue : ∀ {L : Listing} {k : NodeId}, b.listing.Embeds (fun i => i) L → L.starts t k →
      L.node k kind → x.code.value L first k)
    (h₁ : (setCurrent (some t)).run b = .ok ((), b₁)) (h₂ : (emit kind).run b₁ = .ok (id, b')) :
    ∃ G', b'.Staged U G' ∧ Follows [t] b G b' G' ∧ b'.Holds G' (id :: w) ∧ b.Yields id b' ∧
      x.code.value b'.listing first id := by
  obtain ⟨hg₁, hf₁, hs₁, hd, hcur⟩ := enter_staged h hst (fun _ => hlinked) h₁
  obtain rfl : { b with current := some t } = b₁ := by
    rw [run_setCurrent] at h₁
    cases h₁
    rfl
  have hcode {b'' : Building} (hf : Follows [] { b with current := some t }
      (G.enter t w b.nodes.size) b'' (G.enter t w b.nodes.size)) {k : NodeId}
      (hplaced : Placed { b with current := some t } kind k b'') :
      x.code.value b''.listing first k :=
    hvalue hf.grows.embeds (hplaced.begins.starts t hcur hd) hplaced.node
  obtain ⟨hg₂, hf₂, hs₂, hplaced, -⟩ := emit_open hg₁ hs₁ hcur hd rfl
    (fun o ho => hs₁.has hcur (hdirect o ho)) (fun _ => hdirect)
    (fun o ho => ⟨w, _, Stages.enter_self .., hf₁.arm (harms o ho)⟩)
    (fun _ {b''} hf hplaced w' e hst' => by
      cases (Stages.enter_self ..).symm.trans hst'
      exact ⟨x, first, hx, hcode hf hplaced, hf.joins (Stages.enter_self ..) hjoins⟩) h₂
  rw [heffect] at hs₂
  exact ⟨_, hg₂, hf₁.andThen hf₂ (by simp), hs₂,
    ⟨hplaced.yields.fresh, hplaced.yields.rests, hplaced.yields.last⟩, hcode hf₂ hplaced⟩

/-- A test goes on in a block made for it, towards targets that are decided. -/
theorem testArm_staged {b₀ : Building} {m : BlockId → BlockId → Build Unit} {x : Expr} {z : Nat}
    (hm : Tests U frames m x) (hflat : ∀ f ∈ frames, f.Flat G') (h : b.Staged U G')
    (hf : Follows S b₀ G b G') (hst : G'.stage z = some ⟨w, none⟩) (hs : ∀ o ∈ s, o ∈ w)
    (hlinked : ∃ p, b.Leads p z) (ht : b₀.Ready G s t) (he : b₀.Ready G s e)
    (hdt : Decides G G' w t) (hde : Decides G G' w e) (hzt : t ≠ z) (hze : e ≠ z)
    (h₁ : (setCurrent (some z)).run b = .ok ((), b₁)) (h₂ : (m t e).run b₁ = .ok (u, b')) :
    ∃ G'' first, b'.Staged U G'' ∧ Follows [z, t, e] b G' b' G'' ∧ Reaches b' G G'' w t ∧
      Reaches b' G G'' w e ∧ b'.listing.starts z first ∧ x.code.test b'.listing first t e := by
  obtain ⟨hg₁, hf₁, hs₁, hd₁, hcur₁⟩ := enter_staged h hst (fun _ => hlinked) h₁
  have hlater {q : Nat} (hq : b₀.Ready G s q) (hd : Decides G G' w q) (hne : q ≠ z) :
      Decides G (G'.enter z w b.nodes.size) w q :=
    hd.then fun st hst => (Stages.enter_other _ _ _ hne).trans hst
  have hready {q : Nat} (hq : b₀.Ready G s q) (hd : Decides G G' w q) (hne : q ≠ z) :
      b₁.Ready (G'.enter z w b.nodes.size) w q :=
    hq.decided (hlater hq hd hne) hs (hf.weaken (T := z :: S) (by simp +contextual) |>.trans
      (hf₁.weaken (by simp)))
  obtain ⟨G₂, y, first, hg₂, hf₂, hreach₁, hreach₂, hbegins, htest⟩ :=
    hm.run hg₁ (hf₁.flat_frames hflat) hs₁ (hready ht hdt hzt) (hready he hde hze) h₂
  refine ⟨G₂, first, hg₂, (hf₁.weaken (by simp)).andThen hf₂ (by simp), ?_, ?_,
    hbegins.starts z hcur₁ hd₁, htest⟩
  · exact ⟨(hlater ht hdt hzt).then hreach₁.decides.decided, hreach₁.linked⟩
  · exact ⟨(hlater he hde hze).then hreach₂.decides.decided, hreach₂.linked⟩

/-- A node without operands. -/
theorem emit_computes {kind : NodeKind} {x : Expr} (hx : U x) (heffect : kind.isEffect = false)
    (hkind : kind.operands = [])
    (hvalue : ∀ {L : Listing} {k : NodeId}, L.node k kind → x.code.value L k k) :
    Computes U frames (emit kind) x where
  run h _ hs hrun := by
    have hnone {o : NodeId} (ho : o ∈ kind.direct ∨ o ∈ kind.arms) : False := by
      have := NodeKind.mem_operands.mpr ho
      rw [hkind] at this
      cases this
    obtain ⟨G', hg, hf, hs', hplaced, -⟩ := emit_staged h hs
      (fun o ho => (hnone (.inl ho)).elim)
      (List.eq_nil_iff_forall_not_mem.mpr fun o ho => hnone (.inr ho))
      (fun _ _ k _ hnode => ⟨x, k, hx, hvalue hnode⟩) hrun
    rw [heffect] at hs'
    exact ⟨G', _, hg, hf, hs'.subset (by simp), hplaced.yields, hplaced.begins,
      hvalue hplaced.node⟩

/-- A construction of some values lets them wait, and the first node of their code, with what
waited before. -/
structure ComputesAll {α : Type} (U : Expr → Prop) (frames : List Frame) (m : Build α)
    (ids : α → List NodeId) (code : OperandCode α) : Prop where
  mono : code.Mono
  run : ∀ {b b' : Building} {G : Stages} {s : List NodeId} {a : α}, b.Staged U G →
    (∀ f ∈ frames, f.Flat G) → b.Holds G s → m.run b = .ok (a, b') →
    ∃ G' first, b'.Staged U G' ∧ Follows [] b G b' G' ∧
      b'.Holds G' (ids a ++ (first.toList ++ s)) ∧ code b'.listing first a ∧
      (∀ f ∈ first, b.Begins f b') ∧ (first = none → b' = b)

theorem computesAll_pure {α : Type} {ids : α → List NodeId} {code : OperandCode α} {a : α}
    (hmono : code.Mono) (ha : ids a = []) (hcode : ∀ {L : Listing}, code L none a) :
    ComputesAll U frames (pure a) ids code where
  mono := hmono
  run {b b' G s a'} h _ hs hrun := by
    obtain ⟨rfl, rfl⟩ := run_pure.mp hrun
    exact ⟨G, none, h, .refl [] b G, by rwa [ha], hcode, nofun, fun _ => rfl⟩

/-- Values are computed one after the other. -/
theorem operands_computesAll {α β : Type} {v : Build α} {w : Build β} {ids : α → List NodeId}
    {ids' : β → List NodeId} {code : OperandCode α} {code' : OperandCode β}
    (hv : ComputesAll U frames v ids code) (hw : ComputesAll U frames w ids' code') :
    ComputesAll U frames (do return (← v, ← w)) (fun p => ids p.1 ++ ids' p.2)
      (code.both code') where
  mono := hv.mono.both hw.mono
  run h hflat hs hrun := by
    simp only [run_bind, run_pure] at hrun
    obtain ⟨x, b₁, h₁, y, b₂, h₂, rfl, rfl⟩ := hrun
    obtain ⟨G₁, f, hg₁, hf₁, hs₁, hcode₁, hbegins₁, hsame₁⟩ := hv.run h hflat hs h₁
    obtain ⟨G₂, f', hg₂, hf₂, hs₂, hcode₂, hbegins₂, hsame₂⟩ :=
      hw.run hg₁ (hf₁.flat_frames hflat) hs₁ h₂
    refine ⟨G₂, f.or f', hg₂, hf₁.trans hf₂, hs₂.subset fun o ho => ?_,
      ⟨f, f', rfl, hv.mono.operands hf₂.grows.embeds hcode₁, hcode₂⟩, fun k hk => ?_,
      fun hnone => ?_⟩
    · simp only [List.mem_append, Option.mem_toList] at ho ⊢
      cases f <;> simp_all <;> tauto
    · cases f with
      | none => exact hsame₁ rfl ▸ hbegins₂ k hk
      | some f => exact (hbegins₁ k hk).follow hf₂
    · obtain ⟨rfl, rfl⟩ := Option.or_eq_none_iff.mp hnone
      rw [hsame₂ rfl, hsame₁ rfl]

theorem Computes.all {v : Build NodeId} {x : Expr} (hv : Computes U frames v x) :
    ComputesAll U frames v (fun id => [id]) x.code.operand where
  mono := x.code_mono.operand
  run h hflat hs hrun := by
    obtain ⟨G', first, hg, hf, hs', -, hbegins, hvalue⟩ := hv.run h hflat hs hrun
    exact ⟨G', some first, hg, hf, hs', ⟨first, rfl, hvalue⟩,
      fun k hk => Option.some.inj hk ▸ hbegins, nofun⟩

/-- A node after its operands begins where they do. -/
theorem Building.Begins.reader {kind : NodeKind} {first : Option NodeId} {id : NodeId}
    (hbegins : ∀ f ∈ first, b.Begins f b₁) (hsame : first = none → b₁ = b)
    (hf : Follows S b₁ G b' G') (hplaced : b₁.Placed kind id b') :
    b.Begins (first.getD id) b' := by
  cases first with
  | none => exact hsame rfl ▸ hplaced.begins
  | some f => exact (hbegins f rfl).follow hf

/-- A node that reads the values computed before it. -/
theorem emit_all_computes {α : Type} {v : Build α} {ids : α → List NodeId}
    {code : OperandCode α} (hv : ComputesAll U frames v ids code) (kind : α → NodeKind)
    (heffect : ∀ a, (kind a).isEffect = false) (hdirect : ∀ a, (kind a).direct = ids a)
    (harms : ∀ a, (kind a).arms = []) {x : Expr} (hx : U x)
    (hcode : x.code.value = code.read fun L k a => L.node k (kind a)) :
    Computes U frames (do emit (kind (← v))) x where
  run h hflat hs hrun := by
    obtain ⟨a, b₁, h₁, h₂⟩ := run_bind.mp hrun
    obtain ⟨G₁, f, hg₁, hf₁, hs₁, hoperands, hbegins, hsame⟩ := hv.run h hflat hs h₁
    have hvalue {L : Listing} {k : NodeId} (hL : b₁.listing.Embeds (fun i => i) L)
        (hnode : L.node k (kind a)) : x.code.value L (f.getD k) k := by
      rw [hcode]
      exact ⟨f, a, hv.mono.operands hL hoperands, rfl, hnode⟩
    obtain ⟨G₂, hg₂, hf₂, hs₂, hplaced, -⟩ := emit_staged hg₁ hs₁ (by simp +contextual [hdirect])
      (harms a) (fun _ _ k hL hnode => ⟨x, _, hx, hvalue hL hnode⟩) h₂
    rw [heffect] at hs₂
    refine ⟨G₂, _, hg₂, hf₁.trans hf₂, hs₂.subset ?_, hplaced.yields.after hf₁,
      .reader hbegins hsame hf₂ hplaced, hvalue hf₂.grows.embeds hplaced.node⟩
    cases f <;> simp +contextual

namespace Lowered.Waits

theorem ofValue {v : Build NodeId} {x : Expr} (hv : Computes U frames v x)
    (hcode : x.code = .ofValue x.code.value) : Waits U frames (.ofValue v) x where
  value := hv
  test := ⟨fun h hflat hs ht he hrun => by
    obtain ⟨id, b₁, h₁, h₂⟩ := run_bind.mp hrun
    obtain ⟨G₁, first, hg₁, hf₁, hs₁, hyields, hbegins, hvalue⟩ := hv.run h hflat hs h₁
    obtain ⟨G₂, hg₂, hf₂, -, hreach₁, hreach₂, htests, -⟩ := branch_staged hg₁ hs₁ hyields.rests
      ((ht.follow hf₁ (by simp)).subset (by simp +contextual))
      ((he.follow hf₁ (by simp)).subset (by simp +contextual)) h₂
    refine ⟨G₂, id, first, hg₂, (hf₁.weaken (by simp)).trans hf₂, ?_, ?_, hbegins.follow hf₂, ?_⟩
    · exact ⟨hreach₁.decides.of_same (hf₁.same _ ht.lt (by simp)).symm, hreach₁.linked⟩
    · exact ⟨hreach₂.decides.of_same (hf₁.same _ he.lt (by simp)).symm, hreach₂.linked⟩
    · rw [hcode]
      exact ⟨id, _, x.code_mono.value hf₂.grows.embeds hvalue, htests⟩⟩

theorem negation {l : Lowered} {x y : Expr} (h : Waits U frames l x) (hy : U y)
    (hcode : y.code = x.code.negation) : Waits U frames l.negation y where
  value := emit_all_computes h.value.all (.unary .not) (fun _ => rfl) (fun _ => rfl)
    (fun _ => rfl) hy (congrArg Code.value hcode)
  test := ⟨fun hg hflat hs ht he hrun => by
    obtain ⟨G', z, first, hg', hf, hreach₁, hreach₂, hbegins, htest⟩ :=
      h.test.run hg hflat hs he ht hrun
    refine ⟨G', z, first, hg', hf.weaken (by simp), hreach₂, hreach₁, hbegins, ?_⟩
    rw [hcode]
    exact htest⟩

theorem shortCircuit {op : BinOp} {l r : Lowered} {x y z : Expr} (hl : Waits U frames l x)
    (hr : Waits U frames r y) (hz : U z) (hcode : z.code = .shortCircuit op x.code y.code) :
    Waits U frames (.shortCircuit op l r) z where
  value := ⟨fun {b b' G s id} h hflat hs hrun => by
    simp only [Lowered.shortCircuit, run_bind] at hrun
    obtain ⟨i, b₁, h₁, t, b₂, h₂, m, b₃, h₃, hrun⟩ := hrun
    obtain ⟨c, d, hcd, hrun⟩ : ∃ c d : Nat,
        (op = .and ∧ c = t ∧ d = m ∨ op ≠ .and ∧ c = m ∧ d = t) ∧
        (do
          branch i c d
          setCurrent (some t)
          let j ← r.value
          closeWith m
          setCurrent (some m)
          emit (.shortCircuit op i j)).run b₃ = .ok (id, b') := by
      split at hrun
      · exact ⟨t, m, .inl ⟨‹_›, rfl, rfl⟩, hrun⟩
      · exact ⟨m, t, .inr ⟨‹_›, rfl, rfl⟩, hrun⟩
    simp only [run_bind] at hrun
    obtain ⟨_, b₄, h₄, _, b₅, h₅, j, b₆, h₆, _, b₇, h₇, _, b₈, h₈, h₉⟩ := hrun
    obtain ⟨G₁, first, hg₁, hf₁, hs₁, hyields₁, hbegins₁, hvalue₁⟩ := hl.value.run h hflat hs h₁
    obtain ⟨hg₂, hf₂, hid₂, hsize₂, hnone₂, hs₂, hrests₂⟩ := newBlock_staged hg₁ h₂
    obtain ⟨hg₃, hf₃, hid₃, hsize₃, hnone₃, hs₃, hrests₃⟩ := newBlock_staged hg₂ h₃
    have hsize := hf₁.grows.size_le
    have hready {q : Nat} (hq : q = t ∨ q = m) : b₃.Ready G₁ (first :: s) q := by
      rcases hq with rfl | rfl
      · exact .of_none (by omega) hnone₂
      · exact .of_none (by omega) hnone₃
    obtain ⟨G₄, hg₄, hf₄, -, hreach₁, hreach₂, htests, hleads₄⟩ :=
      branch_staged hg₃ (hs₃ _ (hs₂ _ hs₁)) (hrests₃ i (hrests₂ i hyields₁.rests))
        (hready (by tauto)) (hready (by tauto)) h₄
    obtain ⟨hreach_t, hreach_m, hdecides⟩ : Reaches b₄ G₁ G₄ (i :: first :: s) t ∧
        Reaches b₄ G₁ G₄ (i :: first :: s) m ∧ b₄.listing.decides op b₃.drafts.size i t m := by
      rcases hcd with ⟨hop, rfl, rfl⟩ | ⟨hop, rfl, rfl⟩
      · exact ⟨hreach₁, hreach₂, by rwa [Listing.decides, if_pos hop]⟩
      · exact ⟨hreach₂, hreach₁, by rwa [Listing.decides, if_neg hop]⟩
    have hf₁₄ : Follows [] b₁ G₁ b₄ G₄ := (hf₂.trans hf₃).andThen hf₄ (by
      rcases hcd with ⟨-, rfl, rfl⟩ | ⟨-, rfl, rfl⟩ <;> simp <;> omega)
    have hf₀₄ := hf₁.trans hf₁₄
    obtain ⟨G₇, f, p, hg₇, hf₇, hst_m, hconnects, hhas, hvalue₂⟩ := arm_staged hr.value hg₄
      (hf₀₄.flat_frames hflat) (hreach_t.decides.claimed hnone₂) hreach_t.linked
      (hreach_m.decides.claimed hnone₃) (fun _ ho => ho) nofun (by omega) h₅ h₆ h₇
    have harm : b₇.Arm G₇ m (i :: first :: s) j :=
      ⟨p, hconnects.leads, hhas j (by simp), i, by simp, hhas i (by simp)⟩
    have hf₁₇ : Follows [] b₁ G₁ b₇ G₇ := hf₁₄.andThen hf₇ (by simp; omega)
    -- Nothing led to the block of the merge node before the test.
    have hways : ∀ q, b₇.Leads q m → b₇.EndsWith q j ∨ ∃ rest f, b₇.listing.starts rest f ∧
        rest ≠ m ∧ b₇.listing.decides op q i rest m := by
      intro q hq
      rcases hconnects.only q hq with hq | rfl
      · refine .inr ⟨t, f, hconnects.starts, Nat.ne_of_lt (by omega), ?_⟩
        rcases hleads₄ q m (by omega) hq with hq | ⟨rfl, -⟩
        · exact absurd hq (hg₃.not_leads hnone₃)
        · exact hf₇.grows.embeds.decides hdecides
      · exact .inl hconnects.ends
    have hlt : i < j := Nat.lt_of_lt_of_le
      (Nat.lt_of_lt_of_le hyields₁.made hf₁₄.grows.nodes_size_le) hconnects.fresh
    have hjoins : Joins b₇.listing b₇.Leads b₇.EndsWith m (i :: first :: s) first
        (.shortCircuit op i j) := ⟨List.mem_cons_self, hlt, hways⟩
    obtain ⟨G₉, hg₉, hf₉, hs₉, hyields₉, hvalue₉⟩ := merge_staged (x := z) hg₇
      hst_m ⟨p, hconnects.leads⟩ rfl (by simp [NodeKind.direct])
      (by simpa [NodeKind.arms] using harm) hz hjoins (fun {L k} hL hstarts hnode => by
        rw [hcode]
        exact ⟨i, j, b₃.drafts.size, t, m, f,
          x.code_mono.value (hf₁₇.grows.embeds.trans hL) hvalue₁,
          (hf₇.grows.embeds.trans hL).decides hdecides, hL.starts hconnects.starts,
          y.code_mono.value hL hvalue₂, hstarts, hnode⟩) h₈ h₉
    have hf₁₉ : Follows [] b₁ G₁ b' G₉ := hf₁₇.andThen hf₉ (by simp; omega)
    exact ⟨G₉, first, hg₉, hf₁.trans hf₁₉, hs₉.subset (by simp +contextual),
      hyields₉.after (hf₁.trans hf₁₇), hbegins₁.follow hf₁₉, hvalue₉⟩⟩
  test := ⟨fun {b b' G s t e u} h hflat hs ht he hrun => by
    simp only [Lowered.shortCircuit, run_bind] at hrun
    obtain ⟨q, b₁, h₁, hrun⟩ := hrun
    obtain ⟨hg₁, hf₁, hid₁, hsize₁, hnone₁, hs₁, -⟩ := newBlock_staged h h₁
    obtain ⟨c, d, hcd, hrun⟩ : ∃ c d : Nat,
        (op = .and ∧ c = q ∧ d = e ∨ op ≠ .and ∧ c = t ∧ d = q) ∧
        (do
          l.test c d
          setCurrent (some q)
          r.test t e).run b₁ = .ok (u, b') := by
      split at hrun
      · exact ⟨q, e, .inl ⟨‹_›, rfl, rfl⟩, hrun⟩
      · exact ⟨t, q, .inr ⟨‹_›, rfl, rfl⟩, hrun⟩
    simp only [run_bind] at hrun
    obtain ⟨_, b₂, h₂, _, b₃, h₃, h₄⟩ := hrun
    have hsize := ht.lt
    have hq : b₁.Ready G s q := .of_none (by omega) hnone₁
    have ht₁ := ht.follow hf₁ (by simp)
    have he₁ := he.follow hf₁ (by simp)
    obtain ⟨G₂, i, first, hg₂, hf₂, hc, hd, hbegins, htest₁⟩ := hl.test.run hg₁
      (hf₁.flat_frames hflat) (hs₁ s hs) (t := c) (e := d)
      (by rcases hcd with ⟨-, rfl, -⟩ | ⟨-, rfl, -⟩ <;> assumption)
      (by rcases hcd with ⟨-, -, rfl⟩ | ⟨-, -, rfl⟩ <;> assumption) h₂
    have hreached {k : Nat} (hk : k < b₁.drafts.size) :
        Decides G G₂ (i :: first :: s) k ∨ G₂.stage k = G.stage k := by
      by_cases hkc : k = c
      · exact .inl (hkc ▸ hc.decides)
      by_cases hkd : k = d
      · exact .inl (hkd ▸ hd.decides)
      exact .inr (hf₂.same k hk (by simp [hkc, hkd]))
    have hreach_q : Reaches b₂ G G₂ (i :: first :: s) q := by
      rcases hcd with ⟨-, rfl, -⟩ | ⟨-, -, rfl⟩ <;> assumption
    have htest₁ : if op = .and then x.code.test b₂.listing first q e
        else x.code.test b₂.listing first t q := by
      rcases hcd with ⟨hop, rfl, rfl⟩ | ⟨hop, rfl, rfl⟩
      · rwa [if_pos hop]
      · rwa [if_neg hop]
    have hsize₂ := hf₂.grows.size_le
    have hlt_t := ht.lt
    have hlt_e := he.lt
    obtain ⟨G₃, hg₃, hf₃, hdt, hde⟩ := claims_staged hg₂ (t := t) (e := e) (by omega) (by omega)
      (hreached (by omega)) (hreached (by omega))
    have hst_q : G₃.stage q = some ⟨i :: first :: s, none⟩ := by
      rw [hf₃.same q (by omega) (by simp; omega)]
      exact hreach_q.decides.claimed hnone₁
    have hf₀₃ : Follows [t, e] b G b₂ G₃ := by
      refine ((hf₁.weaken (by simp)).andThen hf₂ ?_).andThen hf₃ (by simp)
      rcases hcd with ⟨-, rfl, rfl⟩ | ⟨-, rfl, rfl⟩ <;> simp <;> omega
    obtain ⟨G₅, f, hg₅, hf₅, hreach₁, hreach₂, hstarts, htest₂⟩ := testArm_staged hr.test
      (hf₀₃.flat_frames hflat) hg₃ hf₀₃ hst_q (by simp +contextual) hreach_q.linked ht he hdt hde
      (by omega) (by omega) h₃ h₄
    refine ⟨G₅, i, first, hg₅, hf₀₃.andThen hf₅ (by simp; omega), hreach₁, hreach₂,
      newBlock_begins h h₁ (hbegins.follow hf₅), ?_⟩
    rw [hcode]
    refine ⟨q, f, ?_, hstarts, htest₂⟩
    split
    · rw [if_pos ‹_›] at htest₁
      exact x.code_mono.test hf₅.grows.embeds htest₁
    · rw [if_neg ‹_›] at htest₁
      exact x.code_mono.test hf₅.grows.embeds htest₁⟩

theorem ternary {c l r : Lowered} {v x y z : Expr} (hcond : Waits U frames c v)
    (hl : Waits U frames l x) (hr : Waits U frames r y) (hz : U z)
    (hcode : z.code = .ternary v.code x.code y.code) :
    Waits U frames (.ternary c l r) z where
  value := ⟨fun {b b' G s id} h hflat hs hrun => by
    simp only [Lowered.ternary, run_bind] at hrun
    obtain ⟨t, b₁, h₁, e, b₂, h₂, m, b₃, h₃, _, b₄, h₄, _, b₅, h₅, i, b₆, h₆, _, b₇, h₇,
      _, b₈, h₈, j, b₉, h₉, _, b₁₀, h₁₀, _, b₁₁, h₁₁, h₁₂⟩ := hrun
    obtain ⟨hg₁, hf₁, hid₁, hsize₁, hnone₁, hs₁, -⟩ := newBlock_staged h h₁
    obtain ⟨hg₂, hf₂, hid₂, hsize₂, hnone₂, hs₂, -⟩ := newBlock_staged hg₁ h₂
    obtain ⟨hg₃, hf₃, hid₃, hsize₃, hnone₃, hs₃, -⟩ := newBlock_staged hg₂ h₃
    have hf₀₃ := hf₁.trans (hf₂.trans hf₃)
    obtain ⟨G₄, k, first, hg₄, hf₄, hreach₁, hreach₂, hbegins, htest⟩ := hcond.test.run hg₃
      (hf₀₃.flat_frames hflat) (hs₃ _ (hs₂ _ (hs₁ _ hs))) (.of_none (by omega) hnone₁)
      (.of_none (by omega) hnone₂) h₄
    have hsize₄ := hf₄.grows.size_le
    have hnone_m : G₄.stage m = none := by
      rw [hf₄.same m (by omega) (by simp; omega), hnone₃]
    obtain ⟨hg₅, hf₅, -⟩ := claim_staged hg₄ (t := m) (by omega) (k :: first :: s)
    have hf₀₅ : Follows [] b G b₄ (G₄.claim m (k :: first :: s)) :=
      (hf₀₃.andThen hf₄ (by simp; omega)).andThen hf₅ (by simp; omega)
    have hst_t : (G₄.claim m (k :: first :: s)).stage t = some ⟨k :: first :: s, none⟩ :=
      Stages.claim_keeps (hreach₁.decides.claimed hnone₁)
    have hst_e : (G₄.claim m (k :: first :: s)).stage e = some ⟨k :: first :: s, none⟩ :=
      Stages.claim_keeps (hreach₂.decides.claimed hnone₂)
    have hst_m : (G₄.claim m (k :: first :: s)).stage m = some ⟨k :: first :: s, none⟩ := by
      rw [Stages.claim_of_none hnone_m, Stages.set_self]
    obtain ⟨G₇, f, p, hg₇, hf₇, hst_m₇, hconnects₁, hhas₁, hvalue₁⟩ := arm_staged hl.value hg₅
      (hf₀₅.flat_frames hflat) hst_t hreach₁.linked hst_m (fun _ ho => ho) nofun (by omega)
      h₅ h₆ h₇
    have hsize₇ := hf₇.grows.size_le
    have hst_e₇ : G₇.stage e = some ⟨k :: first :: s, none⟩ := by
      rw [hf₇.same e (by omega) (by simp; omega), hst_e]
    have hf₀₇ : Follows [] b G b₇ G₇ := hf₀₅.andThen hf₇ (by simp; omega)
    obtain ⟨G₁₀, f', q, hg₁₀, hf₁₀, hst_m₁₀, hconnects₂, hhas₂, hvalue₂⟩ := arm_staged hr.value
      hg₇ (hf₀₇.flat_frames hflat) hst_e₇ (hreach₂.linked.imp fun _ => hf₇.leads) hst_m₇
      (fun _ ho => ho) nofun (by omega) h₈ h₉ h₁₀
    have hf₄₁₀ : Follows [t, e, m] b₄ _ b₁₀ G₁₀ := (hf₇.weaken (by simp)).andThen hf₁₀ (by simp)
    have harms : ∀ o ∈ (NodeKind.ternaryMerge i j).arms,
        b₁₀.Arm G₁₀ m (k :: first :: s) o := by
      simp only [NodeKind.arms, List.forall_mem_cons, List.not_mem_nil, false_implies,
        implies_true, and_true]
      exact ⟨⟨p, hf₁₀.leads hconnects₁.leads, hf₁₀.has (hhas₁ i (by simp)), k, by simp,
          hf₁₀.has (hhas₁ k (by simp))⟩,
        q, hconnects₂.leads, hhas₂ j (by simp), k, by simp, hhas₂ k (by simp)⟩
    -- Nothing led to the block of the merge node before the arms.
    have hways : ∀ n, b₁₀.Leads n m → b₁₀.EndsWith n i ∨ b₁₀.EndsWith n j := by
      intro n hn
      rcases hconnects₂.only n hn with hn | rfl
      · rcases hconnects₁.only n hn with hn | rfl
        · exact absurd hn (hg₄.not_leads hnone_m)
        · exact .inl (hf₁₀.ends hconnects₁.leads hconnects₁.ends)
      · exact .inr hconnects₂.ends
    have hends : ∀ o ∈ [i, j], ∃ n, b₁₀.Leads n m ∧ b₁₀.EndsWith n o := by
      simp only [List.forall_mem_cons, List.not_mem_nil, false_implies, implies_true, and_true]
      exact ⟨⟨p, hf₁₀.leads hconnects₁.leads, hf₁₀.ends hconnects₁.leads hconnects₁.ends⟩,
        q, hconnects₂.leads, hconnects₂.ends⟩
    have hjoins : Joins b₁₀.listing b₁₀.Leads b₁₀.EndsWith m (k :: first :: s) first
        (.ternaryMerge i j) := ⟨by simp, Nat.lt_of_lt_of_le hbegins.made hconnects₁.fresh,
      Nat.lt_of_lt_of_le hconnects₁.made hconnects₂.fresh, hways, hends⟩
    obtain ⟨G₁₂, hg₁₂, hf₁₂, hs₁₂, hyields, hvalue⟩ := merge_staged (x := z) hg₁₀ hst_m₁₀
      ⟨q, hconnects₂.leads⟩ rfl (by simp [NodeKind.direct]) harms hz hjoins
      (fun {L n} hL hstarts hnode => by
        rw [hcode]
        have hL₇ := hf₁₀.grows.embeds.trans hL
        exact ⟨t, e, m, i, j, f, f', v.code_mono.test (hf₇.grows.embeds.trans hL₇) htest,
          hL₇.starts hconnects₁.starts, x.code_mono.value hL₇ hvalue₁,
          hL.starts hconnects₂.starts, y.code_mono.value hL hvalue₂, hstarts, hnode⟩) h₁₁ h₁₂
    have hf₄₁₂ : Follows [t, e, m] b₄ _ b' G₁₂ := hf₄₁₀.andThen hf₁₂ (by simp)
    exact ⟨G₁₂, first, hg₁₂, hf₀₅.andThen hf₄₁₂ (by simp; omega),
      hs₁₂.subset (by simp +contextual), hyields.after (hf₀₅.andThen hf₄₁₀ (by simp; omega)),
      newBlock_begins h h₁ (newBlock_begins hg₁ h₂ (newBlock_begins hg₂ h₃
        (hbegins.follow hf₄₁₂))), hvalue⟩⟩
  test := ⟨fun {b b' G s t e u} h hflat hs ht he hrun => by
    simp only [Lowered.ternary, run_bind] at hrun
    obtain ⟨p, b₁, h₁, q, b₂, h₂, _, b₃, h₃, _, b₄, h₄, _, b₅, h₅, _, b₆, h₆, h₇⟩ := hrun
    obtain ⟨hg₁, hf₁, hid₁, hsize₁, hnone₁, hs₁, -⟩ := newBlock_staged h h₁
    obtain ⟨hg₂, hf₂, hid₂, hsize₂, hnone₂, hs₂, -⟩ := newBlock_staged hg₁ h₂
    have hf₀₂ := hf₁.trans hf₂
    obtain ⟨G₃, k, first, hg₃, hf₃, hreach₁, hreach₂, hbegins, htest⟩ := hcond.test.run hg₂
      (hf₀₂.flat_frames hflat) (hs₂ _ (hs₁ _ hs)) (.of_none (by omega) hnone₁)
      (.of_none (by omega) hnone₂) h₃
    have hsize₃ := hf₃.grows.size_le
    have hlt_t := ht.lt
    have hlt_e := he.lt
    have hsame {n : Nat} (hn : n < b.drafts.size) :
        Decides G G₃ (k :: first :: s) n ∨ G₃.stage n = G.stage n :=
      .inr (hf₃.same n (by omega) (by simp; omega))
    obtain ⟨G₄, hg₄, hf₄, hdt, hde⟩ := claims_staged hg₃ (t := t) (e := e) (by omega) (by omega)
      (hsame hlt_t) (hsame hlt_e)
    have hst {n : Nat} (hn : b.drafts.size ≤ n) (hlt : n < b₃.drafts.size)
        (h : G₃.stage n = some ⟨k :: first :: s, none⟩) :
        G₄.stage n = some ⟨k :: first :: s, none⟩ := by
      rw [hf₄.same n hlt (by simp; omega), h]
    have hf₀₄ : Follows [t, e] b G b₃ G₄ :=
      ((hf₀₂.weaken (by simp)).andThen hf₃ (by simp; omega)).andThen hf₄ (by simp)
    obtain ⟨G₅, f, hg₅, hf₅, hreach₃, hreach₄, hstarts₁, htest₁⟩ := testArm_staged hl.test
      (hf₀₄.flat_frames hflat) hg₄ hf₀₄
      (hst (by omega) (by omega) (hreach₁.decides.claimed hnone₁)) (by simp +contextual)
      hreach₁.linked ht he hdt hde (by omega) (by omega) h₄ h₅
    have hsize₅ := hf₅.grows.size_le
    have hf₀₅ : Follows [t, e] b G b₅ G₅ := hf₀₄.andThen hf₅ (by simp; omega)
    have hst_q : G₅.stage q = some ⟨k :: first :: s, none⟩ := by
      rw [hf₅.same q (by omega) (by simp; omega)]
      exact hst (by omega) (by omega) (hreach₂.decides.claimed hnone₂)
    obtain ⟨G₇, f', hg₇, hf₇, hreach₅, hreach₆, hstarts₂, htest₂⟩ := testArm_staged hr.test
      (hf₀₅.flat_frames hflat) hg₅ hf₀₅ hst_q (by simp +contextual)
      (hreach₂.linked.imp fun _ => hf₅.leads) ht he hreach₃.decides hreach₄.decides (by omega)
      (by omega) h₆ h₇
    refine ⟨G₇, k, first, hg₇, hf₀₅.andThen hf₇ (by simp; omega), hreach₅, hreach₆,
      newBlock_begins h h₁ (newBlock_begins hg₁ h₂ ((hbegins.follow hf₅).follow hf₇)), ?_⟩
    rw [hcode]
    exact ⟨p, q, f, f',
      v.code_mono.test (hf₅.grows.embeds.trans hf₇.grows.embeds) htest,
      hf₇.grows.embeds.starts hstarts₁, x.code_mono.test hf₇.grows.embeds htest₁, hstarts₂,
      htest₂⟩⟩

end Lowered.Waits

/-- A node that may raise and reads the values computed before it. -/
theorem raise_all_computes (hsound : Frame.Sound U frames) {α : Type} {v : Build α}
    {ids : α → List NodeId} {code : OperandCode α} (hv : ComputesAll U frames v ids code)
    (kind : α → NodeKind) (heffect : ∀ a, (kind a).isEffect = false)
    (hdirect : ∀ a, (kind a).direct = ids a) (harms : ∀ a, (kind a).arms = [])
    (categories : List String) {x : Expr} (hx : U x)
    (hcode : x.code.value = code.read fun L k a =>
      L.node k (kind a) ∧ L.raises k (Digraph.distinct categories)) :
    Computes U frames (do emitRaising frames (kind (← v)) categories false) x where
  run h hflat hs hrun := by
    obtain ⟨a, b₁, h₁, h₂⟩ := run_bind.mp hrun
    obtain ⟨G₁, f, hg₁, hf₁, hs₁, hoperands, hbegins, hsame⟩ := hv.run h hflat hs h₁
    have hvalue {L : Listing} {k : NodeId} (hL : b₁.listing.Embeds (fun i => i) L)
        (hnode : L.node k (kind a) ∧ L.raises k (Digraph.distinct categories)) :
        x.code.value L (f.getD k) k := by
      rw [hcode]
      exact ⟨f, a, hv.mono.operands hL hoperands, rfl, hnode⟩
    obtain ⟨G₂, hg₂, hf₂, hlast⟩ := emitRaising_staged hsound hg₁ (hf₁.flat_frames hflat) hs₁
      (by simp +contextual [hdirect]) (harms a)
      (fun _ _ k hL hnode => ⟨x, _, hx, hvalue hL hnode⟩) h₂
    obtain ⟨hs₂, hplaced, hraises⟩ := hlast rfl
    rw [heffect] at hs₂
    refine ⟨G₂, _, hg₂, hf₁.trans hf₂, hs₂.subset ?_, hplaced.yields.after hf₁,
      .reader hbegins hsame hf₂ hplaced, hvalue hf₂.grows.embeds ⟨hplaced.node, hraises⟩⟩
    cases f <;> simp +contextual

/-! The values of every expression of the source wait. -/

mutual

theorem lowerExpr_waits (hsound : Frame.Sound U frames) :
    (e : Expr) → (∀ x ∈ e.parts, U x) → (lowerExpr frames e).Waits U frames e
  | .literal value, he => .ofValue (emit_computes (x := .literal value)
      (he _ (by simp [Expr.parts])) rfl rfl fun h => ⟨rfl, h⟩) rfl
  | .var name, he => .ofValue ⟨fun {b b' G s id} h hflat hs hrun => by
      obtain ⟨x, b₁, h₁, h₂⟩ := run_bind.mp hrun
      obtain ⟨rfl, rfl⟩ := run_lookup.mp h₁
      exact (emit_computes (x := .var name) (he _ (by simp [Expr.parts])) rfl rfl
        fun h => ⟨rfl, _, Scopes.resolve_name _ _, h⟩).run h hflat hs h₂⟩ rfl
  | .this, he => .ofValue (emit_computes (x := .this) (he _ (by simp [Expr.parts])) rfl rfl
      fun h => ⟨rfl, h⟩) rfl
  | .field receiver name, he => by
      obtain ⟨he, hreceiver⟩ := List.forall_mem_cons.mp he
      exact .ofValue (emit_all_computes (lowerExpr_waits hsound receiver hreceiver).value.all
        (.fieldRead · name) (fun _ => rfl) (fun _ => rfl) (fun _ => rfl) he rfl) rfl
  | .call receiver method args throws, he => by
      obtain ⟨he, hparts⟩ := List.forall_mem_cons.mp he
      obtain ⟨hreceiver, hargs⟩ := List.forall_mem_append.mp hparts
      have hboth := raise_all_computes hsound (operands_computesAll
        (lowerReceiver_computes hsound receiver hreceiver) (lowerArgs_computes hsound args hargs))
        (fun p => .call p.1 method p.2) (fun _ => rfl) (fun _ => rfl) (fun _ => rfl)
        (runtimeException :: throws) he rfl
      simp only [bind_assoc, pure_bind] at hboth
      exact .ofValue hboth rfl
  | .new className args, he => by
      obtain ⟨he, hargs⟩ := List.forall_mem_cons.mp he
      exact .ofValue (raise_all_computes hsound (lowerArgs_computes hsound args hargs)
        (.new className) (fun _ => rfl) (fun _ => rfl) (fun _ => rfl) [runtimeException] he rfl)
        rfl
  | .binary op lhs rhs, he => by
      obtain ⟨he, hparts⟩ := List.forall_mem_cons.mp he
      obtain ⟨hl, hr⟩ := List.forall_mem_append.mp hparts
      rw [lowerExpr]
      split
      · rename_i hop
        exact .shortCircuit (lowerExpr_waits hsound lhs hl) (lowerExpr_waits hsound rhs hr) he
          (by rw [Expr.code, if_pos hop])
      · rename_i hop
        have hcode : (Expr.binary op lhs rhs).code = .ofValue
            ((OperandCode.both lhs.code.operand rhs.code.operand).read
              fun L id p => L.node id (.binary op p.1 p.2)) := by
          rw [Expr.code, if_neg hop]
        have hboth := emit_all_computes (operands_computesAll
          (lowerExpr_waits hsound lhs hl).value.all (lowerExpr_waits hsound rhs hr).value.all)
          (fun p => .binary op p.1 p.2) (fun _ => rfl) (fun _ => rfl) (fun _ => rfl) he
          (congrArg Code.value hcode)
        simp only [bind_assoc, pure_bind] at hboth
        exact .ofValue hboth (by rw [hcode]; rfl)
  | .unary op operand, he => by
      obtain ⟨he, hparts⟩ := List.forall_mem_cons.mp he
      rw [lowerExpr]
      split
      · rename_i hop
        exact .negation (lowerExpr_waits hsound operand hparts) he (by rw [Expr.code, if_pos hop])
      · rename_i hop
        have hcode : (Expr.unary op operand).code = .ofValue
            (operand.code.operand.read fun L id o => L.node id (.unary op o)) := by
          rw [Expr.code, if_neg hop]
        exact .ofValue (emit_all_computes (lowerExpr_waits hsound operand hparts).value.all
          (.unary op) (fun _ => rfl) (fun _ => rfl) (fun _ => rfl) he (congrArg Code.value hcode))
          (by rw [hcode]; rfl)
  | .ternary condition thenValue elseValue, he => by
      obtain ⟨he, hparts⟩ := List.forall_mem_cons.mp he
      obtain ⟨hparts, helse⟩ := List.forall_mem_append.mp hparts
      obtain ⟨hcondition, hthen⟩ := List.forall_mem_append.mp hparts
      exact .ternary (lowerExpr_waits hsound condition hcondition)
        (lowerExpr_waits hsound thenValue hthen) (lowerExpr_waits hsound elseValue helse) he rfl
  | .cast qualifier operand, he => by
      obtain ⟨he, hparts⟩ := List.forall_mem_cons.mp he
      exact .ofValue (emit_all_computes (lowerExpr_waits hsound operand hparts).value.all
        (.cast qualifier) (fun _ => rfl) (fun _ => rfl) (fun _ => rfl) he rfl) rfl

theorem lowerReceiver_computes (hsound : Frame.Sound U frames) :
    (e : Option Expr) → (∀ x ∈ Expr.optionParts e, U x) →
      ComputesAll U frames (lowerReceiver frames e) Option.toList (Expr.receiverCode e)
  | none, _ => computesAll_pure (Expr.receiverCode_mono none) rfl ⟨rfl, rfl⟩
  | some e, he => {
      mono := Expr.receiverCode_mono (some e)
      run := fun {b b' G s a} h hflat hs hrun => by
        simp only [lowerReceiver, run_bind, run_pure] at hrun
        obtain ⟨id, b₁, h₁, rfl, rfl⟩ := hrun
        obtain ⟨G', first, hg, hf, hs, hcode, hbegins, hsame⟩ :=
          (lowerExpr_waits hsound e he).value.all.run h hflat hs h₁
        exact ⟨G', first, hg, hf, hs, ⟨id, rfl, hcode⟩, hbegins, hsame⟩ }

theorem lowerArgs_computes (hsound : Frame.Sound U frames) :
    (es : List Expr) → (∀ x ∈ Expr.listParts es, U x) →
      ComputesAll U frames (lowerArgs frames es) id (Expr.argsCode es)
  | [], _ => computesAll_pure (Expr.argsCode_mono []) rfl ⟨rfl, rfl⟩
  | e :: rest, he => {
      mono := Expr.argsCode_mono (e :: rest)
      run := fun {b b' G s a} h hflat hs hrun => by
        obtain ⟨he, hrest⟩ := List.forall_mem_append.mp he
        simp only [lowerArgs, run_bind, run_pure] at hrun
        obtain ⟨id, b₁, h₁, ids, b₂, h₂, rfl, rfl⟩ := hrun
        obtain ⟨G', first, hg, hf, hs, hcode, hbegins, hsame⟩ := (operands_computesAll
          (lowerExpr_waits hsound e he).value.all (lowerArgs_computes hsound rest hrest)).run h
          hflat hs (run_bind.mpr ⟨id, b₁, h₁, run_bind.mpr ⟨ids, b₂, h₂, run_pure.mpr ⟨rfl, rfl⟩⟩⟩)
        exact ⟨G', first, hg, hf, hs, ⟨id, ids, rfl, hcode⟩, hbegins, hsame⟩ }

end

end FlowTyping
