import FlowTyping.Proofs.Waiting.Units
import FlowTyping.Proofs.Control.Paths
import Mathlib.Data.Set.Function

/-!
The timetable of a graph: compaction keeps it, since what is removed computes nothing and
what waits after a removed block waits before it.
-/

namespace FlowTyping

open Build Layout

namespace BlockKind

/-- The blocks that follow when nothing is raised. -/
def onward : BlockKind → List BlockId
  | regular successor => [successor]
  | conditional _ thenSuccessor elseSuccessor => [thenSuccessor, elseSuccessor]
  | exceptional successor _ => successor.toList
  | special _ successor => successor.toList

/-- The blocks that follow when something is raised. -/
def raised : BlockKind → List BlockId
  | exceptional _ handlers => handlers.map Prod.snd
  | _ => []

theorem mem_successors {kind : BlockKind} {t : BlockId} :
    t ∈ kind.successors ↔ t ∈ kind.onward ∨ t ∈ kind.raised := by
  cases kind <;> simp [successors, onward, raised]

end BlockKind

def Block.piece (b : Block) : Piece := ⟨b.nodes, b.kind.onward, b.kind.raised⟩

def GraphParts.piece? (p : GraphParts) (i : BlockId) : Option Piece :=
  p.blocks[i]?.map Block.piece

theorem Exits.onward_toKind {exits : Exits} (h : exits ≠ .openEnd) (f : BlockId → BlockId)
    (exit : BlockId) : (exits.toKind f exit).onward = exits.onward.map f := by
  cases exits with
  | openEnd => exact absurd rfl h
  | goto => rfl
  | branch => rfl
  | raise successor => cases successor <;> rfl
  | special kind successor => cases successor <;> rfl

theorem Exits.raised_toKind (exits : Exits) (f : BlockId → BlockId) (exit : BlockId) :
    (exits.toKind f exit).raised = exits.raised.map f := by
  cases exits <;> simp [toKind, BlockKind.raised, raised]

theorem Exits.mem_targets {exits : Exits} {t : BlockId} :
    t ∈ exits.targets ↔ t ∈ exits.onward ∨ t ∈ exits.raised := by
  cases exits <;> simp [targets, onward, raised]

/-- What runs does not depend on the blocks of the nodes. -/
theorem Runs.map {nodes : Array Node} {before done waiting : List NodeId} {f : Node → Node}
    (h : Runs nodes before done waiting) (hf : ∀ n, (f n).kind = n.kind) :
    Runs (nodes.map f) before done waiting := by
  induction h with
  | nil => exact .nil
  | @snoc done waiting id n _ hn hdirect hwaits ih =>
      have hn' : (nodes.map f)[id]? = some (f n) := by simp [hn]
      have hsnoc := ih.snoc hn' (by rwa [hf]) (by rwa [hf])
      rwa [hf] at hsnoc

namespace Timetable

variable {T : Timetable} {D : Layout} {name : String} {a c i p t : Nat} {o : NodeId}

/-- What waits in the second block waits in the first, which is not entered later. -/
structure Sinks (T : Timetable) (a c : Nat) : Prop where
  waits : ∀ o ∈ T.waits c, o ∈ T.waits a
  time : T.waits c ≠ [] → (T.entered a).time ≤ (T.entered c).time
  start : T.waits c ≠ [] → (T.entered a).start ≤ (T.entered c).start

theorem Sinks.ne_nil (h : T.Sinks a c) (hne : T.waits c ≠ []) : T.waits a ≠ [] := by
  obtain ⟨o, ho⟩ := List.exists_mem_of_ne_nil _ hne
  exact List.ne_nil_of_mem (h.waits o ho)

theorem Sinks.refl (T : Timetable) (a : Nat) : T.Sinks a a :=
  ⟨fun _ h => h, fun _ => Nat.le_refl _, fun _ => Nat.le_refl _⟩

theorem Sinks.trans (h : T.Sinks a c) (h' : T.Sinks c i) : T.Sinks a i where
  waits o ho := h.waits o (h'.waits o ho)
  time hne := Nat.le_trans (h.time (h'.ne_nil hne)) (h'.time hne)
  start hne := Nat.le_trans (h.start (h'.ne_nil hne)) (h'.start hne)

theorem piece_of_goto (hd : D.drafts[a]? = some ⟨[], .goto t⟩) :
    D.piece? a = some ⟨[], [t], []⟩ := by
  rw [Layout.piece?, hd]
  rfl

section

variable {nodes : Array Node} {pieces : BlockId → Option Piece}

theorem Fits.has_of_leads (hT : T.Fits nodes pieces) (hp : Leads pieces p i)
    (ho : o ∈ T.waits i) : T.Has pieces p o := by
  obtain ⟨c, hc, hi⟩ := hp
  obtain ⟨waiting, hruns, honward⟩ := hT.runs hc
  exact (hruns.waiting_sub ((honward i hi).1 o ho)).imp_right fun h => ⟨c, hc, h⟩

theorem Fits.time_lt (hT : T.Fits nodes pieces) (hp : Leads pieces p i) (hne : T.waits i ≠ []) :
    (T.entered p).time < (T.entered i).time := by
  obtain ⟨c, hc, hi⟩ := hp
  obtain ⟨waiting, -, honward⟩ := hT.runs hc
  exact ((honward i hi).2 hne).time

end

namespace Fits

variable (hT : T.Fits D.nodes D.piece?)

include hT

/-- An empty block that forwards has what its target has. -/
theorem sinks_of_goto (hd : D.drafts[a]? = some ⟨[], .goto t⟩) : T.Sinks a t := by
  obtain ⟨waiting, hruns, honward⟩ := hT.runs (piece_of_goto hd)
  obtain ⟨hsub, hlater⟩ := honward t (List.mem_singleton_self t)
  obtain rfl := hruns.unique .nil rfl
  exact ⟨hsub, fun hne => Nat.le_of_lt (hlater hne).time, fun hne => (hlater hne).start⟩

theorem sinks_of_chain {n : Nat}
    (h : Compaction.Chain D.drafts (Compaction.removableBlocks D.drafts) a n c) :
    T.Sinks a c := by
  induction h with
  | stop => exact .refl T _
  | skip _ hnext _ ih => exact (hT.sinks_of_goto (goto_of_forwardOf hnext)).trans ih

/-- Every block leads to a kept block of its final id, where no more waits. -/
theorem sinks (hw : D.Whole) (ha : a < D.drafts.size) :
    ∃ c < D.drafts.size, Keeps D.drafts c ∧ rename D.drafts a = rename D.drafts c ∧
      T.Sinks a c := by
  obtain ⟨n, hn, c, hchain⟩ := Compaction.removableBlocks_chain D.drafts a
  obtain ⟨hc, -⟩ := hw.chain hchain ha
  exact ⟨c, hc, hchain.kept, rename_of_chain ha hc hn hchain, hT.sinks_of_chain hchain⟩

/-- A kept block leads to where something waits, and has what any block there has. -/
theorem exists_kept {p i : Nat} (hw : D.Whole) (hp : Leads D.piece? p i) (hne : T.waits i ≠ []) :
    ∃ q, Keeps D.drafts q ∧ (∃ t, Leads D.piece? q t ∧ rename D.drafts t = rename D.drafts i) ∧
      ∀ o, T.Has D.piece? p o → T.Has D.piece? q o := by
  by_cases hkeeps : Keeps D.drafts p
  · exact ⟨p, hkeeps, ⟨i, hp, rfl⟩, fun _ ho => ho⟩
  · obtain ⟨t, hd⟩ := goto_of_not_keeps hkeeps
    obtain ⟨c, hc, hi⟩ := id hp
    rw [piece_of_goto hd] at hc
    cases hc
    obtain rfl := List.mem_singleton.mp hi
    have hwaits := (hT.sinks_of_goto hd).ne_nil hne
    obtain ⟨p', hp'⟩ := hT.linked hwaits
    have hearlier := hT.time_lt hp' hwaits
    obtain ⟨q, hq, ⟨t', hleads, hrename⟩, hhas⟩ := exists_kept hw hp' hwaits
    refine ⟨q, hq, ⟨t', hleads, hrename.trans (hw.rename_goto hd hkeeps)⟩, fun o ho => hhas o ?_⟩
    rcases ho with ho | ⟨c, hc, ho⟩
    · exact hT.has_of_leads hp' ho
    · rw [piece_of_goto hd] at hc
      cases hc
      cases ho
termination_by (T.entered p).time

end Fits

/-- The kept block of a final id. -/
noncomputable def origin (D : Layout) : BlockId → Nat :=
  Function.invFunOn (rename D.drafts) { a | a < D.drafts.size ∧ Keeps D.drafts a }

theorem origin_rename (ha : a < D.drafts.size) (h : Keeps D.drafts a) :
    origin D (rename D.drafts a) = a := by
  have hinj : Set.InjOn (rename D.drafts) { a | a < D.drafts.size ∧ Keeps D.drafts a } :=
    fun _ hx _ hy => rename_injective hx.1 hy.1 hx.2 hy.2
  exact hinj.leftInvOn_invFunOn ⟨ha, h⟩

open Classical in
/-- The timetable with the final ids. -/
noncomputable def compact (T : Timetable) (D : Layout) : Timetable where
  waits j := if ∃ a < D.drafts.size, Keeps D.drafts a ∧ rename D.drafts a = j
    then T.waits (origin D j) else []
  entered j := T.entered (origin D j)

theorem compact_waits (ha : a < D.drafts.size) (h : Keeps D.drafts a) :
    (T.compact D).waits (rename D.drafts a) = T.waits a :=
  (if_pos ⟨a, ha, h, rfl⟩).trans (congrArg T.waits (origin_rename ha h))

theorem compact_entered (ha : a < D.drafts.size) (h : Keeps D.drafts a) :
    (T.compact D).entered (rename D.drafts a) = T.entered a :=
  congrArg T.entered (origin_rename ha h)

theorem exists_of_compact (h : (T.compact D).waits i ≠ []) :
    ∃ a < D.drafts.size, Keeps D.drafts a ∧ rename D.drafts a = i := by
  by_contra hnone
  exact h (if_neg hnone)

/-- A block of the graph is a kept block of the layout. -/
theorem exists_draft (hid : ∀ {j : Nat} {b : Block}, (D.parts name).blocks[j]? = some b → b.id = j)
    {j : Nat} {piece : Piece} (h : (D.parts name).piece? j = some piece) :
    ∃ (a : Nat) (d : Draft), D.drafts[a]? = some d ∧ Keeps D.drafts a ∧
      j = rename D.drafts a ∧ piece.nodes = d.nodes ∧
      piece.onward = (d.exits.toKind (rename D.drafts) exitId).onward ∧
      piece.raised = (d.exits.toKind (rename D.drafts) exitId).raised := by
  obtain ⟨b, hb, rfl⟩ := Option.map_eq_some_iff.mp h
  obtain ⟨a, d, hd, hkeeps, -, rfl⟩ := mem_parts_blocks hb
  exact ⟨a, d, hd, hkeeps, (hid hb).symm, rfl, rfl, rfl⟩

theorem piece_of_keeps {d : Draft} (hd : D.drafts[a]? = some d) (h : Keeps D.drafts a) :
    (D.parts name).piece? (rename D.drafts a) = some
      ⟨d.nodes, (d.exits.toKind (rename D.drafts) exitId).onward,
        (d.exits.toKind (rename D.drafts) exitId).raised⟩ :=
  congrArg (Option.map Block.piece) (parts_blocks hd h)

theorem leads_parts (hw : D.Whole) (hkeeps : Keeps D.drafts p) (hp : Leads D.piece? p t) :
    Leads (D.parts name).piece? (rename D.drafts p) (rename D.drafts t) := by
  obtain ⟨c, hc, ht⟩ := hp
  obtain ⟨d, hd, rfl⟩ := Option.map_eq_some_iff.mp hc
  refine ⟨_, piece_of_keeps hd hkeeps, ?_⟩
  rw [Exits.onward_toKind (hw.finished p d hd)]
  exact List.mem_map_of_mem ht

theorem has_parts (ha : a < D.drafts.size) (hkeeps : Keeps D.drafts a)
    (h : T.Has D.piece? a o) :
    (T.compact D).Has (D.parts name).piece? (rename D.drafts a) o := by
  rcases h with h | ⟨c, hc, ho⟩
  · exact .inl (by rwa [compact_waits ha hkeeps])
  · obtain ⟨d, hd, rfl⟩ := Option.map_eq_some_iff.mp hc
    exact .inr ⟨_, piece_of_keeps hd hkeeps, ho⟩

theorem lt_of_leads (hp : Leads D.piece? p t) : p < D.drafts.size := by
  obtain ⟨c, hc, -⟩ := hp
  obtain ⟨d, hd, -⟩ := Option.map_eq_some_iff.mp hc
  exact (Array.getElem?_eq_some_iff.mp hd).1

/-- Compaction keeps the timetable. -/
theorem Fits.compact (hT : T.Fits D.nodes D.piece?) (hw : D.Whole)
    (hid : ∀ {j : Nat} {b : Block}, (D.parts name).blocks[j]? = some b → b.id = j) :
    (T.compact D).Fits (D.parts name).nodes (D.parts name).piece? where
  runs {p c} hc := by
    obtain ⟨a, d, hd, hkeeps, rfl, hnodes, honward, -⟩ := exists_draft hid hc
    have ha := (Array.getElem?_eq_some_iff.mp hd).1
    obtain ⟨waiting, hruns, hnext⟩ := hT.runs (congrArg (Option.map Draft.piece) hd)
    rw [compact_waits ha hkeeps, hnodes]
    refine ⟨waiting, hruns.map fun _ => rfl, fun t ht => ?_⟩
    rw [honward, Exits.onward_toKind (hw.finished a d hd)] at ht
    obtain ⟨t, hin, rfl⟩ := List.mem_map.mp ht
    have hlt : t < D.drafts.size := hw.targets a d hd t (Exits.mem_targets.mpr (.inl hin))
    obtain ⟨c', hc', hkeeps', hrename, hsinks⟩ := hT.sinks hw hlt
    obtain ⟨hsub, hlater⟩ := hnext t hin
    rw [hrename, compact_waits hc' hkeeps']
    refine ⟨fun o ho => hsub o (hsinks.waits o ho), fun hne => ?_⟩
    obtain ⟨htime, hstart, hbefore⟩ := hlater (hsinks.ne_nil hne)
    have hstart' := hsinks.start hne
    refine ⟨?_, ?_, fun k hk => ?_⟩
    · rw [compact_entered ha hkeeps, compact_entered hc' hkeeps']
      exact Nat.lt_of_lt_of_le htime (hsinks.time hne)
    · rw [compact_entered ha hkeeps, compact_entered hc' hkeeps']
      exact Nat.le_trans hstart hstart'
    · rw [compact_entered hc' hkeeps']
      exact Nat.lt_of_lt_of_le (hbefore k hk) hstart'
  raised {p c} hc t ht := by
    obtain ⟨a, d, hd, -, -, -, -, hraised⟩ := exists_draft hid hc
    rw [hraised, Exits.raised_toKind] at ht
    obtain ⟨t, hin, rfl⟩ := List.mem_map.mp ht
    have hlt : t < D.drafts.size := hw.targets a d hd t (Exits.mem_targets.mpr (.inr hin))
    obtain ⟨c', hc', hkeeps', hrename, hsinks⟩ := hT.sinks hw hlt
    rw [hrename, compact_waits hc' hkeeps']
    by_contra hne
    exact hsinks.ne_nil hne (hT.raised (congrArg (Option.map Draft.piece) hd) t hin)
  before {i} o ho := by
    obtain ⟨a, ha, hkeeps, rfl⟩ := exists_of_compact (List.ne_nil_of_mem ho)
    rw [compact_waits ha hkeeps] at ho
    rw [compact_entered ha hkeeps]
    exact hT.before o ho
  after {i c} hc k hk := by
    obtain ⟨a, d, hd, hkeeps, rfl, hnodes, -⟩ := exists_draft hid hc
    rw [compact_entered (Array.getElem?_eq_some_iff.mp hd).1 hkeeps]
    rw [hnodes] at hk
    exact hT.after (congrArg (Option.map Draft.piece) hd) k hk
  linked {i} hne := by
    obtain ⟨a, ha, hkeeps, rfl⟩ := exists_of_compact hne
    rw [compact_waits ha hkeeps] at hne
    obtain ⟨p, hp⟩ := hT.linked hne
    obtain ⟨q, hq, ⟨t, ht, hrename⟩, -⟩ := hT.exists_kept hw hp hne
    exact ⟨_, hrename ▸ leads_parts hw hq ht⟩
  arms {i c} hc k hk n hn o ho := by
    obtain ⟨a, d, hd, hkeeps, rfl, hnodes, -⟩ := exists_draft hid hc
    have ha := (Array.getElem?_eq_some_iff.mp hd).1
    obtain ⟨n', hn', rfl⟩ := parts_node hn
    rw [hnodes] at hk
    obtain ⟨p, hp, ho, x, hx, hshared⟩ := hT.arms (congrArg (Option.map Draft.piece) hd) k hk n'
      hn' o ho
    obtain ⟨q, hq, ⟨t, ht, hrename⟩, hhas⟩ := hT.exists_kept hw hp (List.ne_nil_of_mem hx)
    have hlt := lt_of_leads ht
    refine ⟨_, hrename ▸ leads_parts hw hq ht, has_parts hlt hq (hhas o ho), x, ?_,
      has_parts hlt hq (hhas x hshared)⟩
    rwa [compact_waits ha hkeeps]

end Timetable

/-- The graph of a unit is that of a construction whose stages are known. -/
theorem ProgramUnit.lower_staged {u : ProgramUnit} {g : FlowGraph} (h : u.lower = .ok g) :
    ∃ (b : Building) (G : Stages), b.Staged (· ∈ u.exprs) G ∧ b.layout.Whole ∧
      g.toGraphParts = b.layout.parts u.name ∧
      ∀ {j : Nat} {block : Block}, (b.layout.parts u.name).blocks[j]? = some block →
        block.id = j := by
  have hlaw : CopyLaw.Holds fun _ _ _ _ _ _ => True := fun _ _ => True.intro
  obtain ⟨b, hrun, hfinish⟩ := u.run_of_lower h
  obtain ⟨-, R, hc⟩ := ProgramUnit.build_spec hlaw hrun
  obtain ⟨G, hg⟩ := ProgramUnit.build_staged hrun
  have hparts := finish_parts hfinish
  refine ⟨b, G, hg, hc.whole, hparts, fun hb => ?_⟩
  rw [← hparts] at hb
  exact ((u.lower_valid h).block hb).1

/-- The timetable of a construction fits its graph. -/
theorem Building.Staged.timetable {U : Expr → Prop} {b : Building} {G : Stages} {name : String}
    (hg : b.Staged U G) (hw : b.layout.Whole)
    (hid : ∀ {j : Nat} {block : Block}, (b.layout.parts name).blocks[j]? = some block →
      block.id = j) :
    (G.timetable.compact b.layout).Fits (b.layout.parts name).nodes (b.layout.parts name).piece? ∧
      (G.timetable.compact b.layout).waits (b.layout.parts name).entry = [] := by
  refine ⟨hg.fits.compact hw hid, ?_⟩
  have hentry : entryId < b.layout.drafts.size := Nat.lt_of_lt_of_le (by decide) hw.designated
  obtain ⟨c, hc, hkeeps, hrename, hsinks⟩ := hg.fits.sinks hw hentry
  have hstart : (b.layout.parts name).entry = Layout.rename b.layout.drafts entryId := rfl
  rw [hstart, hrename, Timetable.compact_waits hc hkeeps]
  by_contra hne
  exact hsinks.ne_nil hne (hg.designated entryId (by decide)).waits_eq

/-- The graph of a unit has a timetable. -/
theorem ProgramUnit.lower_timetable {u : ProgramUnit} {g : FlowGraph} (h : u.lower = .ok g) :
    ∃ T : Timetable, T.Fits g.nodes g.piece? ∧ T.waits g.entry = [] := by
  obtain ⟨b, G, hg, hw, hparts, hid⟩ := u.lower_staged h
  exact ⟨_, hparts ▸ hg.timetable hw hid⟩

end FlowTyping
