import FlowTyping.Proofs.Flow.Solver
import FlowTyping.Proofs.Graph.Postorder
import Mathlib.Order.Antisymmetrization
import Mathlib.Order.Bounds.Basic

/-!
Monotone frameworks: analyses without a state over facts with an order. What the solver finds for
any of them is the least solution of the dataflow equations.
-/

namespace FlowTyping

open Relation

/-- A framework on a graph. Joins are least upper bounds and facts are the same when each is at or
below the other. A transfer sends to the successors of its block and to no other, and it is
monotone: what it sends is at or below something that it sends to the same target from a fact
above. -/
structure DataflowAnalysis.IsFramework {Fact : Type} [Preorder Fact]
    (a : DataflowAnalysis Fact Unit) (g : FlowGraph) : Prop where
  join : ∀ x y, IsLUB {x, y} (a.join x y)
  same : ∀ x y, a.same x y = true ↔ x ≤ y ∧ y ≤ x
  targets : ∀ {b : BlockId} {f : Fact} {r : BlockTransfer Fact},
    a.transfer () b f = .ok (r, ()) → ∀ c, c ∈ g.successors b ↔ ∃ x, (c, x) ∈ r.edges
  monotone : ∀ {b : BlockId} {f f' : Fact} {r r' : BlockTransfer Fact}, f ≤ f' →
    a.transfer () b f = .ok (r, ()) → a.transfer () b f' = .ok (r', ()) →
    r.output ≤ r'.output ∧ ∀ e ∈ r.edges, ∃ e' ∈ r'.edges, e'.1 = e.1 ∧ e.2 ≤ e'.2

/-- The dataflow equations, facts being equal when each is at or below the other. The entry is
visited, and any other block only if a fact arrives at it. The fact before a visited block is the
join of the facts on the edges into it, at the entry with the initial one. Its transfer gives the
fact after it and, joined for each target, the facts on its edges, whose targets are visited. A
block that is not visited gives nothing. -/
structure FlowTable.IsSolution {Fact : Type} [Preorder Fact] (t : FlowTable Fact Unit)
    (a : DataflowAnalysis Fact Unit) (g : FlowGraph) : Prop where
  entry : ∃ f, t.before g.entry = some f
  arrives : ∀ b f, t.before b = some f → b = g.entry ∨ ∃ p x, t.edge p b = some x
  before : ∀ b f, t.before b = some f →
    IsLUB {x | b = g.entry ∧ x = a.initial ∨ ∃ p, t.edge p b = some x} f
  transfer : ∀ b f, t.before b = some f → ∃ r o, a.transfer () b f = .ok (r, ()) ∧
    t.after b = some o ∧ AntisymmRel (· ≤ ·) r.output o ∧
    ∀ c ∈ g.successors b, (∃ f', t.before c = some f') ∧
      ∃ m, t.edge b c = some m ∧ IsLUB {x | (c, x) ∈ r.edges} m
  edge : ∀ b c m, t.edge b c = some m → c ∈ g.successors b
  unvisited : ∀ b, t.before b = none → t.after b = none ∧ ∀ c, t.edge b c = none

namespace DataflowAnalysis

variable {Fact : Type} [Preorder Fact] {a : DataflowAnalysis Fact Unit} {g : FlowGraph}

namespace IsFramework

/-- A framework is an analysis with the laws that the theory of the solver asks for. -/
theorem lawful (hA : a.IsFramework g) :
    a.Lawful g (fun _ => True) (· ≤ ·) fun _ _ => True where
  fine _ := ⟨trivial, trivial⟩
  refl _ := ⟨le_refl _, le_refl _⟩
  trans := le_trans
  fine_join _ _ := trivial
  le_join_left _ _ := (hA.join _ _).1 (Set.mem_insert _ _)
  le_join_right _ _ := (hA.join _ _).1 (Set.mem_insert_of_mem _ rfl)
  join_le hx hy := by
    apply (hA.join _ _).2
    rintro z (rfl | rfl)
    · exact hx
    · exact hy
  same_of_le hxy hyx := (hA.same _ _).mpr ⟨hxy, hyx⟩
  le_of_same _ _ h := (hA.same _ _).mp h
  initial := le_refl _
  state_refl _ := trivial
  transfer _ hle h h' := ⟨trivial, hA.monotone hle h h'⟩
  follows h e he := (hA.targets h e.1).mpr ⟨e.2, he⟩
  again {_ _ _ _ r} _ _ h := ⟨r.revisit, h⟩
  apart {_ _ _ _ _ _ _ r'} _ _ _ _ _ h := ⟨r'.revisit, h⟩

end IsFramework

end DataflowAnalysis

namespace Solving

variable {Fact : Type} {a : DataflowAnalysis Fact Unit} {g : FlowGraph} {Fine : Fact → Prop}
  {le : Fact → Fact → Prop} {ranks : Array Nat} {s s' : Solving Fact Unit}

/-- The invariant of the visits of an analysis without a state: what stands in the table comes from
the last visits, and inputs have only grown since. -/
structure Tight (a : DataflowAnalysis Fact Unit) (g : FlowGraph) (le : Fact → Fact → Prop)
    (s : Solving Fact Unit) : Prop where
  before : ∀ b f, s.table.before b = some f → le f (s.table.input a g b)
  after : ∀ b o, s.table.after b = some o → ∃ f, s.table.before b = some f
  edge : ∀ p c m, s.table.edge p c = some m → ∃ f r, s.table.before p = some f ∧
    a.transfer () p f = .ok (r, ()) ∧ ∀ z, (∀ x, (c, x) ∈ r.edges → le x z) → le m z

theorem start_tight : (start g () : Solving Fact Unit).Tight a g le where
  before b _ hf := absurd ((getD_replicate_none Fact g.size b).symm.trans hf) nofun
  after b _ ho := absurd ((getD_replicate_none Fact g.size b).symm.trans ho) nofun
  edge _ _ _ := nofun

theorem step_tight (L : a.Lawful g Fine le fun _ _ => True) (hg : g.Valid)
    (hs : s.Sane a g le fun _ _ => True) (ht : s.Tight a g le) (h : Step a g ranks s s') :
    s'.Tight a g le := by
  have hs' := step_sane L hg hs h
  obtain ⟨block, hblock, hvisit⟩ := h
  obtain ⟨r, ⟨⟩, htransfer, hv⟩ := visit_ok hvisit
  have hlt := hs.lt_size hg (.inl hblock)
  have hlive := hs.live_input L hg (.inl hblock)
  have hsent : ∀ e ∈ r.edges, le e.2 e.2 := by
    intro e he
    obtain ⟨-, -, hsent⟩ := L.transfer trivial hlive htransfer htransfer
    obtain ⟨_, -, -, hle⟩ := hsent e he
    exact (L.refl hle).1
  have hinput {b : BlockId} (hb : s.Known b) :
      le (s.table.input a g b) (s'.table.input a g b) :=
    hs.input_mono L hg (fun p b f hf => (L.fine (hs'.facts.edge p b f hf)).1)
      (fun p b f hf => hv.grows L hs.facts hsent hf) hb
  have hbefore := hv.before (hs.inFacts ▸ hlt)
  have hrises {b : BlockId} {f : Fact} (hf : s.table.before b = some f) :
      ∃ f', s'.table.before b = some f' ∧ le f f' := by
    rw [hbefore]
    by_cases hb : b = block
    · subst hb
      rw [if_pos rfl]
      exact ⟨_, rfl, ht.before b f hf⟩
    · rw [if_neg hb]
      exact ⟨f, hf, hs.facts.before b f hf⟩
  constructor
  · intro b f hf
    rw [hbefore] at hf
    split at hf
    · rename_i hb
      subst hb
      obtain rfl := Option.some.inj hf
      exact hinput (.inl hblock)
    · exact L.trans (ht.before b f hf) (hinput (.inr (hs.marked b f hf)))
  · intro b o ho
    rw [hv.after (hs.outFacts ▸ hlt)] at ho
    split at ho
    · rename_i hb
      exact ⟨_, by rw [hbefore, if_pos hb]⟩
    · obtain ⟨f, hf⟩ := ht.after b o ho
      obtain ⟨f', hf', -⟩ := hrises hf
      exact ⟨f', hf'⟩
  · intro p c m hm
    by_cases hp : p = block
    · subst hp
      refine ⟨_, r, by rw [hbefore, if_pos rfl], htransfer, ?_⟩
      intro z hz
      rw [hv.edge_self] at hm
      refine L.merge_le (fun o ho => ?_) (fun x hx => hz x (BlockTransfer.mem_sentTo.mp hx)) hm
      obtain ⟨f, r₀, hf, hr₀, hleast⟩ := ht.edge p c o ho
      obtain ⟨-, -, hmono⟩ := L.transfer trivial (ht.before p f hf) hr₀ htransfer
      apply hleast
      intro x hx
      obtain ⟨⟨c', x'⟩, hx', rfl, hle⟩ := hmono (c, x) hx
      exact L.trans hle (hz x' hx')
    · rw [hv.edge_other hp] at hm
      obtain ⟨f, r₀, hf, hr₀, hleast⟩ := ht.edge p c m hm
      exact ⟨f, r₀, (hbefore p).trans ((if_neg hp).trans hf), hr₀, hleast⟩

theorem steps_tight (L : a.Lawful g Fine le fun _ _ => True) (hg : g.Valid)
    (h : ReflTransGen (Step a g ranks) (start g ()) s) : s.Tight a g le := by
  induction h with
  | refl => exact start_tight
  | tail hsteps hstep ih =>
      exact step_tight L hg (steps_sane L hg (start_sane trivial) hsteps) ih hstep

end Solving

/-- The facts that arrive at a block in a table whose edges are edges of the graph. -/
theorem FlowTable.mem_arriving {Fact σ : Type} {a : DataflowAnalysis Fact σ} {g : FlowGraph}
    {t : FlowTable Fact σ} (hg : g.Valid)
    (hedge : ∀ p c m, t.edge p c = some m → c ∈ g.successors p)
    {b : BlockId} {x : Fact} : x ∈ a.arriving g t.edge b ↔
      b = g.entry ∧ x = a.initial ∨ ∃ p, t.edge p b = some x := by
  have hsent : x ∈ (g.predecessorsOf b).filterMap (fun p => t.edge p b) ↔
      ∃ p, t.edge p b = some x := by
    rw [List.mem_filterMap]
    constructor
    · rintro ⟨p, -, hp⟩
      exact ⟨p, hp⟩
    · rintro ⟨p, hp⟩
      have hb := hedge p b x hp
      exact ⟨p, hg.predecessors.mpr ⟨hg.lt_of_mem_successors hb, hb⟩, hp⟩
  unfold DataflowAnalysis.arriving
  dsimp only
  split
  · rename_i hb
    rw [List.mem_cons, hsent]
    exact or_congr_left (iff_and_self.mpr fun _ => hb)
  · rename_i hb
    rw [hsent]
    exact (or_iff_right fun h => hb h.1).symm

section Framework

variable {Fact : Type} [Preorder Fact] {a : DataflowAnalysis Fact Unit} {g : FlowGraph}

namespace FlowTable

variable {t : FlowTable Fact Unit}

/-- The join of what arrives, when anything does. -/
theorem isLUB_input (hA : a.IsFramework g) (hg : g.Valid)
    (hedge : ∀ p c m, t.edge p c = some m → c ∈ g.successors p) {b : BlockId}
    (hb : b = g.entry ∨ ∃ p x, t.edge p b = some x) :
    IsLUB {x | b = g.entry ∧ x = a.initial ∨ ∃ p, t.edge p b = some x} (t.input a g b) := by
  have hmem {x : Fact} := t.mem_arriving (a := a) hg hedge (b := b) (x := x)
  have hne : a.arriving g t.edge b ≠ [] := by
    obtain hb | ⟨p, x, hp⟩ := hb
    · exact List.ne_nil_of_mem (hmem.mpr (.inl ⟨hb, rfl⟩))
    · exact List.ne_nil_of_mem (hmem.mpr (.inr ⟨p, hp⟩))
  constructor
  · intro x hx
    exact hA.lawful.le_joinAll (hmem.mpr hx) (le_refl x) fun _ _ => trivial
  · intro z hz
    exact hA.lawful.joinAll_le hne fun x hx => hz (hmem.mp hx)

/-- The equations in the form in which the solver settles them. -/
theorem IsSolution.solves (hA : a.IsFramework g) (hg : g.Valid) (ht : t.IsSolution a g) :
    t.Solves a g fun x y => a.same x y = true := by
  constructor
  · exact ht.entry
  · intro b f hf
    have hinput := t.isLUB_input hA hg ht.edge (ht.arrives b f hf)
    have hf := ht.before b f hf
    exact (hA.same _ _).mpr ⟨hinput.2 hf.1, hf.2 hinput.1⟩
  · intro b f hf
    obtain ⟨r, o, hr, ho, hsame, hedges⟩ := ht.transfer b f hf
    refine ⟨r, o, hr, ho, (hA.same _ _).mpr hsame, ?_⟩
    rintro ⟨c, x⟩ hx
    obtain ⟨hbefore, m, hm, hlub⟩ := hedges c ((hA.targets hr c).mpr ⟨x, hx⟩)
    exact ⟨hbefore, m, hm, hA.lawful.absorbs_of_le (hlub.1 hx)⟩

/-- Every block that the entry reaches is visited in a solution. -/
theorem IsSolution.visited (ht : t.IsSolution a g) {b : BlockId} (hb : g.Reaches b) :
    ∃ f, t.before b = some f := by
  induction hb with
  | refl => exact ht.entry
  | tail _ hedge ih =>
      obtain ⟨f, hf⟩ := ih
      obtain ⟨r, o, -, -, -, hedges⟩ := ht.transfer _ f hf
      exact (hedges _ hedge).1

end FlowTable

namespace Solving

variable {ranks : Array Nat} {s : Solving Fact Unit}

/-- Visits of a framework that leave no block waiting have solved its equations. -/
theorem steps_isSolution (hA : a.IsFramework g) (hg : g.Valid)
    (h : ReflTransGen (Step a g ranks) (start g ()) s) (hempty : s.worklist = []) :
    s.table.IsSolution a g := by
  have L := hA.lawful
  have hs := steps_sane L hg (start_sane trivial) h
  have ht := steps_tight L hg h
  have hsolves := hs.solves L hempty
  have hedge := fun p c m hm => (hs.edge p c m hm).1
  have harrives := fun b f hf => hs.arrives b (.inr (hs.marked b f hf))
  constructor
  · exact hsolves.entry
  · exact harrives
  · intro b f hf
    exact hsolves.input b f hf ▸ s.table.isLUB_input hA hg hedge (harrives b f hf)
  · intro b f hf
    obtain ⟨r, o, hr, ho, rfl, hedges⟩ := hsolves.transfer b f hf
    refine ⟨r, r.output, hr, ho, AntisymmRel.refl _ _, ?_⟩
    intro c hc
    obtain ⟨x, hx⟩ := (hA.targets hr c).mp hc
    obtain ⟨hbefore, m, hm, -⟩ := hedges (c, x) hx
    refine ⟨hbefore, m, hm, ?_, ?_⟩
    · intro y hy
      obtain ⟨-, old, hold, habsorbs⟩ := hedges (c, y) hy
      obtain rfl := Option.some.inj (hold.symm.trans hm)
      exact L.le_of_absorbs (le_refl y) trivial habsorbs
    · intro z hz
      obtain ⟨f', r', hf', hr', hleast⟩ := ht.edge b c m hm
      obtain rfl := Option.some.inj (hf'.symm.trans hf)
      obtain rfl := congrArg Prod.fst (Except.ok.inj (hr'.symm.trans hr))
      exact hleast z fun x hx => hz hx
  · exact hedge
  · intro b hb
    constructor
    · rw [Option.eq_none_iff_forall_ne_some]
      intro o ho
      obtain ⟨f, hf⟩ := ht.after b o ho
      exact Option.some_ne_none f (hf.symm.trans hb)
    · intro c
      rw [Option.eq_none_iff_forall_ne_some]
      intro m hm
      obtain ⟨f, -, hf, -⟩ := ht.edge b c m hm
      exact Option.some_ne_none f (hf.symm.trans hb)

end Solving

/-- A block that the entry does not reach is left as it was, by any lawful analysis. -/
theorem solve_unreached {Fact σ : Type} {a : DataflowAnalysis Fact σ} {g : FlowGraph}
    {Fine : Fact → Prop} {le : Fact → Fact → Prop} {leState : σ → σ → Prop} {limit : Nat}
    {record : Bool} {st st' : σ} {r : Fixpoint Fact} (L : a.Lawful g Fine le leState) (hg : g.Valid)
    (hst : leState st st) (h : solve a g limit record st = .ok (r, st')) {b : BlockId}
    (hb : ¬ g.Reaches b) : r.inFact b = none ∧ r.status b = .unvisited := by
  obtain ⟨s, hrun, heq⟩ := bind_ok.mp h
  cases heq
  have hs := Solving.steps_sane L hg (Solving.start_sane hst) (Solving.run_steps hrun).1
  have hunmarked : ¬ s.Marked b := fun hmarked => hb (hs.known b (.inr hmarked))
  constructor
  · exact Option.eq_none_iff_forall_ne_some.mpr fun f hf => hunmarked (hs.marked b f hf)
  · have hstatus : s.statuses.getD b .unvisited = .unvisited := not_not.mp hunmarked
    change (s.statuses.map Solving.settle).getD b .unvisited = .unvisited
    simp only [Array.getD_eq_getD_getElem?, Array.getElem?_map] at hstatus ⊢
    revert hstatus
    cases s.statuses[b]? with
    | none => exact id
    | some status => exact fun hstatus => congrArg Solving.settle hstatus

/-- What the solver finds for a framework is the least solution of its equations, and it visits the
blocks that the entry reaches. -/
theorem solve_least (hA : a.IsFramework g) (hg : g.Valid) {limit : Nat} {record : Bool}
    {r : Fixpoint Fact} (h : solve a g limit record () = .ok (r, ())) :
    (r.table ()).IsSolution a g ∧
      (∀ t : FlowTable Fact Unit, t.IsSolution a g →
        (r.table ()).Below (· ≤ ·) (fun _ _ => True) t) ∧
      (∀ b, g.Reaches b → ∃ f, r.inFact b = some f) ∧
      ∀ b, ¬ g.Reaches b → r.inFact b = none ∧ r.outFact b = none ∧ r.status b = .unvisited := by
  obtain ⟨s, hsteps, hempty, htable⟩ := solve_steps h
  have hsolution := htable ▸ Solving.steps_isSolution hA hg hsteps hempty
  refine ⟨hsolution, ?_, fun b hb => hsolution.visited hb, ?_⟩
  · intro t ht
    have hfine : t.All fun _ => True := ⟨fun _ _ _ => trivial, fun _ _ _ => trivial,
      fun _ _ _ _ => trivial⟩
    exact htable ▸ Solving.steps_below hA.lawful hg trivial (ht.solves hA hg) hfine hsteps
  · intro b hb
    obtain ⟨hin, hstatus⟩ := solve_unreached hA.lawful hg trivial h hb
    exact ⟨hin, (hsolution.unvisited b hin).1, hstatus⟩

end Framework

end FlowTyping
