import FlowTyping.Proofs.Conditions.Twins

/-!
The passage of results through code, given the qualifiers of the nodes. It obeys the laws of
outcomes, and it is the same through nodes in other places that have the same qualifiers and keys.
-/

namespace FlowTyping

/-- A result over a hierarchy whose stores are reached. -/
@[ext]
structure LiveResult {h : Hierarchy} (hh : h.Lawful) where
  result : TransferResult
  live : result.Under h result

namespace LiveResult

variable {h : Hierarchy} {hh : h.Lawful}

instance : Preorder (LiveResult hh) where
  le r r' := r.result.Under h r'.result
  le_refl r := r.live
  le_trans _ _ _ hr hr' := ⟨hr.left, hr'.right, hr.live, hr.le.trans hh hr'.le⟩

def ofStore (s : Store) (hs : s.Under h s) : LiveResult hh := ⟨.regular s, hs.regular⟩

def thenOnly (r : LiveResult hh) : LiveResult hh := ofStore r.result.thenStore r.live.thenStore

def elseOnly (r : LiveResult hh) : LiveResult hh := ofStore r.result.elseStore r.live.elseStore

def collapsed (r : LiveResult hh) : LiveResult hh :=
  ofStore (r.result.collapse h) (r.live.collapse hh)

/-- Nothing is known. -/
def top : LiveResult hh :=
  ofStore (.new h) ⟨Store.wf_new h, Store.wf_new h, rfl, Store.le_refl hh (Store.wf_new h)⟩

theorem le_top (r : LiveResult hh) : r ≤ top := by
  have hstore {s : Store} (hs : s.Under h s) : s.Le h (.new h) := fun _ =>
    ⟨rfl, fun k => hh.le_top (hs.left.has_valueOrTop hh k)⟩
  exact ⟨r.live.left, TransferResult.wf_regular (Store.wf_new h), r.live.live,
    hstore r.live.thenStore, hstore r.live.elseStore, nofun⟩

theorem thenOnly_mono : Monotone (thenOnly : LiveResult hh → LiveResult hh) :=
  fun _ _ hr => hr.thenStore.regular

theorem elseOnly_mono : Monotone (elseOnly : LiveResult hh → LiveResult hh) :=
  fun _ _ hr => hr.elseStore.regular

theorem collapsed_mono : Monotone (collapsed : LiveResult hh → LiveResult hh) :=
  fun _ _ hr => (hr.collapse hh).regular

def swap (r : LiveResult hh) : LiveResult hh := ⟨r.result.swap, r.live.swap⟩

theorem swap_mono : Monotone (swap : LiveResult hh → LiveResult hh) := fun _ _ hr => hr.swap

theorem thenOnly_le (r : LiveResult hh) : r.thenOnly ≤ r.collapsed :=
  Store.Under.regular ⟨r.live.left.thenStore, r.live.left.collapse hh, r.live.live.thenStore,
    TransferResult.thenStore_le_collapse hh r.live.left⟩

theorem elseOnly_le (r : LiveResult hh) : r.elseOnly ≤ r.collapsed :=
  Store.Under.regular ⟨r.live.left.elseStore, r.live.left.collapse hh, r.live.live.elseStore,
    TransferResult.elseStore_le_collapse hh r.live.left⟩

theorem thenOnly_swap (r : LiveResult hh) : r.swap.thenOnly = r.elseOnly :=
  LiveResult.ext (congrArg TransferResult.regular (TransferResult.thenStore_swap _))

theorem elseOnly_swap (r : LiveResult hh) : r.swap.elseOnly = r.thenOnly :=
  LiveResult.ext (congrArg TransferResult.regular (TransferResult.elseStore_swap _))

end LiveResult

variable {c : Checker}

/-- Results pass through nodes as the analysis of a unit transfers them, where the nodes have
qualifiers at or above those that the transfer gives. -/
def Checker.Sound.transit (hc : c.Sound) (g : FlowGraph) (initial : Store) (V : NodeValues) :
    Transit (WithBot (LiveResult hc.lawful)) where
  step id kind f f' := ∀ r : LiveResult hc.lawful, f = r → ∃ q q' : Qualifier,
    ∃ r' : LiveResult hc.lawful,
      ((UnitAnalysis.new c g initial).transferNode V ⟨id, 0, kind⟩ r.result).toOption =
        some (q, r'.result) ∧
      V.getD id none = some q' ∧ c.hierarchy.isSubtype q q' = true ∧ r' ≤ f'
  whenTrue := WithBot.map LiveResult.thenOnly
  whenFalse := WithBot.map LiveResult.elseOnly
  caught := WithBot.map LiveResult.collapsed
  caught_mono := LiveResult.collapsed_mono.withBot_map
  lost := (LiveResult.top : LiveResult hc.lawful)

namespace Checker.Sound

variable {hc : c.Sound} {g : FlowGraph} {initial : Store} {V : NodeValues}

theorem le_lost (f : WithBot (LiveResult hc.lawful)) : f ≤ (hc.transit g initial V).lost := by
  cases f with
  | bot => exact bot_le
  | coe r => exact WithBot.coe_le_coe.mpr r.le_top

end Checker.Sound

/-- A merge leaves what has come to it on either outcome. -/
theorem UnitAnalysis.transferNode_merge {u : UnitAnalysis} {V : NodeValues} {node : Node}
    {input r : TransferResult} {q : Qualifier} (hkind : node.kind.isMerge = true)
    (h : u.transferNode V node input = .ok (q, r)) :
    r = .regular (input.collapse u.checker.hierarchy) := by
  have hnot : ∀ id, node.kind ≠ .unary .not id := by
    rintro id hid
    rw [hid] at hkind
    cases hkind
  rw [transferNode_of_ne_not hnot] at h
  obtain ⟨-, -, h⟩ := bind_ok.mp h
  obtain ⟨⟨q', s⟩, hs, heq⟩ := bind_ok.mp h
  have hstore : s = input.collapse u.checker.hierarchy := by
    obtain ⟨id, b, kind⟩ := node
    cases kind <;> simp [NodeKind.isMerge] at hkind
    all_goals
      simp only [evaluate] at hs
      obtain ⟨v, -, hv⟩ := map_ok hs
      cases hv
      rfl
  have hnone : Refinement.refine? (Refinement.enabled u.checker.refinesEquality)
      ⟨node, u.checker.hierarchy, u.checker.signatures, V, u.keys⟩ s = none := by
    have happlies (t : Refinement) : t.appliesTo u.checker.signatures node.kind = false := by
      obtain ⟨id, b, kind⟩ := node
      cases kind <;> simp [NodeKind.isMerge] at hkind
      all_goals cases t <;> rfl
    simp [Refinement.refine?, happlies]
  simp only [hnone, Option.getD_none] at heq
  cases heq
  rw [hstore]

/-- A negation exchanges the outcomes. -/
theorem UnitAnalysis.transferNode_not {u : UnitAnalysis} {V : NodeValues} {node : Node} {o : NodeId}
    {input r : TransferResult} {q : Qualifier} (hkind : node.kind = .unary .not o)
    (h : u.transferNode V node input = .ok (q, r)) : r = input.swap := by
  simp only [transferNode, hkind] at h
  obtain ⟨_, -, h⟩ := bind_ok.mp h
  obtain ⟨v, -, heq⟩ := bind_ok.mp h
  cases heq
  rfl

namespace Checker.Sound

variable {hc : c.Sound} {g g' : FlowGraph} {initial : Store} {V V' : NodeValues}
  {ρ : NodeId → NodeId} {n id : Nat} {kind : NodeKind}

theorem transit_preserves : (hc.transit g initial V).Preserves (· ≠ ⊥) where
  mono hle hf := by
    obtain ⟨r, rfl⟩ := WithBot.ne_bot_iff_exists.mp hf
    obtain ⟨r', rfl, -⟩ := WithBot.coe_le_iff.mp hle
    exact WithBot.coe_ne_bot
  step {id kind f f'} hstep hf := by
    obtain ⟨r, rfl⟩ := WithBot.ne_bot_iff_exists.mp hf
    obtain ⟨-, -, r', -, -, -, hle⟩ := hstep r rfl
    obtain ⟨r'', rfl, -⟩ := WithBot.coe_le_iff.mp hle
    exact WithBot.coe_ne_bot
  whenTrue {f} hf := by
    obtain ⟨r, rfl⟩ := WithBot.ne_bot_iff_exists.mp hf
    exact WithBot.coe_ne_bot
  whenFalse {f} hf := by
    obtain ⟨r, rfl⟩ := WithBot.ne_bot_iff_exists.mp hf
    exact WithBot.coe_ne_bot

/-- Where results come, nodes have qualifiers. -/
theorem holds_of_visits
    (h : (hc.transit g initial V).Visits (· ≠ ⊥) id kind) : V.Holds id := by
  obtain ⟨m, m', hm, hstep⟩ := h
  obtain ⟨r, rfl⟩ := WithBot.ne_bot_iff_exists.mp hm
  obtain ⟨-, q, -, -, hq, -⟩ := hstep r rfl
  exact ⟨q, hq⟩

theorem names_of_visits
    (h : (hc.transit g initial V).Visits (· ≠ ⊥) id kind) :
    ∀ name ∈ kind.names, c.hierarchy.lookup? name ≠ none := by
  obtain ⟨m, m', hm, hstep⟩ := h
  obtain ⟨r, rfl⟩ := WithBot.ne_bot_iff_exists.mp hm
  obtain ⟨_, _, _, htransfer, -⟩ := hstep r rfl
  exact UnitAnalysis.names_of_transferNode (ok_of_toOption htransfer)

theorem transit_outcomes : (hc.transit g initial V).Outcomes where
  whenTrue_mono := LiveResult.thenOnly_mono.withBot_map
  whenFalse_mono := LiveResult.elseOnly_mono.withBot_map
  whenTrue_le f := by
    cases f with
    | bot => exact le_refl _
    | coe r => exact WithBot.coe_le_coe.mpr r.thenOnly_le
  whenFalse_le f := by
    cases f with
    | bot => exact le_refl _
    | coe r => exact WithBot.coe_le_coe.mpr r.elseOnly_le
  caught_le_whenTrue f := by cases f <;> exact le_refl _
  caught_le_whenFalse f := by cases f <;> exact le_refl _
  whenTrue_le_caught f := by cases f <;> exact le_refl _
  whenFalse_le_caught f := by cases f <;> exact le_refl _
  merge {id kind f f'} hkind hstep := by
    cases f with
    | bot => exact bot_le
    | coe r =>
        obtain ⟨q, -, r', htransfer, -, -, hle⟩ := hstep r rfl
        have hr' := UnitAnalysis.transferNode_merge hkind (ok_of_toOption htransfer)
        obtain rfl : r' = r.collapsed := LiveResult.ext hr'
        exact hle
  negation {id o f f'} hstep := by
    cases f with
    | bot => exact ⟨bot_le, bot_le⟩
    | coe r =>
        obtain ⟨q, -, r', htransfer, -, -, hle⟩ := hstep r rfl
        obtain rfl : r' = r.swap :=
          LiveResult.ext (UnitAnalysis.transferNode_not rfl (ok_of_toOption htransfer))
        have htrue := LiveResult.thenOnly_mono.withBot_map hle
        have hfalse := LiveResult.elseOnly_mono.withBot_map hle
        rw [WithBot.map_coe, LiveResult.thenOnly_swap] at htrue
        rw [WithBot.map_coe, LiveResult.elseOnly_swap] at hfalse
        exact ⟨hfalse, htrue⟩

theorem transit_moves
    (h : ∀ o < n, UnitAnalysis.Moved (.new c g' initial) (.new c g initial) V' V ρ o) :
    (hc.transit g initial V).Moves (hc.transit g' initial V') ρ n where
  step {id kind f f'} hid hkind := by
    have htransfer (r : LiveResult hc.lawful) :
        ((UnitAnalysis.new c g initial).transferNode V ⟨ρ id, 0, kind.relocate ρ⟩
            r.result).toOption =
          ((UnitAnalysis.new c g' initial).transferNode V' ⟨id, 0, kind⟩ r.result).toOption := by
      have hchecker : (UnitAnalysis.new c g initial).checker =
        (UnitAnalysis.new c g' initial).checker := rfl
      have hrelocated : (Node.mk (ρ id) 0 (kind.relocate ρ)).kind =
        (Node.mk id 0 kind).kind.relocate ρ := rfl
      exact UnitAnalysis.transferNode_moved hchecker hrelocated (h id hid).key?
        (fun o ho => h o (Nat.lt_trans (hkind o ho) hid)) r.result
    have hvalue : V.getD (ρ id) none = V'.getD id none := (h id hid).value
    simp only [transit, htransfer, hvalue]
  whenTrue := rfl
  whenFalse := rfl
  caught := rfl
  lost := rfl

/-- A node with the top as its qualifier asks for nothing but the qualifiers of its operands. -/
theorem transit_free (hV : V.Le c.hierarchy V) {id : Nat} (hholds : ∀ o < id, V.Holds o)
    (htop : V.getD id none = some c.hierarchy.top) : (hc.transit g initial V).Free id := by
  have hstep (kind : NodeKind) (hnames : kind.names = []) (hoperands : ∀ o ∈ kind.operands, o < id)
      (r : LiveResult hc.lawful) : ∃ q r' : _, ∃ hr : r'.Under c.hierarchy r',
      (UnitAnalysis.new c g initial).transferNode V ⟨id, 0, kind⟩ r.result = .ok (q, r') ∧
        c.hierarchy.isSubtype q c.hierarchy.top = true := by
    obtain ⟨q, r', htransfer⟩ : ∃ q r', (UnitAnalysis.new c g initial).transferNode V
        ⟨id, 0, kind⟩ r.result = .ok (q, r') :=
      UnitAnalysis.transferNode_isOk (by simp [hnames]) fun o ho => hholds o (hoperands o ho)
    obtain ⟨hle, hlive⟩ := UnitAnalysis.transferNode_mono hc hV r.live htransfer htransfer
    exact ⟨q, r', hlive, htransfer, hc.lawful.le_top (hc.lawful.has_of_le hle).1⟩
  constructor
  · intro kind f hkind hoperands
    have hnames : kind.names = [] := by
      cases kind <;> simp [NodeKind.isMerge] at hkind <;> rfl
    refine ⟨f, _, le_refl f, fun r hr => ?_, le_refl _⟩
    obtain ⟨q, r', hlive, htransfer, hle⟩ := hstep kind hnames hoperands r
    exact ⟨q, c.hierarchy.top, ⟨r', hlive⟩, by rw [htransfer]; rfl, htop, hle, le_lost _⟩
  · intro o f ho
    refine ⟨WithBot.map LiveResult.swap f, ⟨f, _, le_refl f, fun r hr => ?_, le_refl _⟩, ?_⟩
    · subst hr
      obtain ⟨q, r', hlive, htransfer, hle⟩ := hstep (.unary .not o) rfl
        (by simpa [NodeKind.operands] using ho) r
      obtain rfl := UnitAnalysis.transferNode_not rfl htransfer
      exact ⟨q, c.hierarchy.top, r.swap, by rw [htransfer]; rfl, htop, hle, le_refl _⟩
    · rintro t e ⟨m, hm, htrue, hfalse⟩
      refine ⟨WithBot.map LiveResult.swap m, LiveResult.swap_mono.withBot_map hm, ?_, ?_⟩
      · cases m with
        | bot => exact bot_le
        | coe r => exact (WithBot.coe_le_coe.mpr r.thenOnly_swap.le).trans hfalse
      · cases m with
        | bot => exact bot_le
        | coe r => exact (WithBot.coe_le_coe.mpr r.elseOnly_swap.le).trans htrue

end Checker.Sound

end FlowTyping
