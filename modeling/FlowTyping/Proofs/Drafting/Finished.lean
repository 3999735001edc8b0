import FlowTyping.Proofs.Drafting.Compound
import FlowTyping.Proofs.Control.Paths
import Mathlib.Data.List.Basic

/-!
Finished constructions: when every free exit is led to the exit, the drafts are as their
roles demand, and compaction keeps the order of the blocks.
-/

namespace FlowTyping

open Build Building

/-- A finished draft is as the role of its block demands. -/
def Draft.Settled (D : Layout) (i : BlockId) (r : Role) (d : Draft) : Prop :=
  match d.exits with
  | .openEnd => False
  | .goto _ => r = .code
  | .branch id _ _ => d.nodes = [] ∧ ∃ p d', r = .test p ∧ D.drafts[p]? = some d' ∧
      d'.nodes.getLast? = some id ∧ i ∈ d'.exits.targets
  | .raise successor handlers _ => r = .code ∧ (∃ id, d.nodes = [id]) ∧
      (successor = none → handlers ≠ [])
  | .special kind successor => d.nodes = [] ∧
      match kind with
      | .entry => r = .entry ∧ successor.isSome
      | .loopHead => r = .head ∧ successor.isSome
      | .exit | .exceptionalExit => r = .code ∧ successor = none

theorem Exits.successors_toKind {exits : Exits} (h : exits ≠ .openEnd) (f : BlockId → BlockId)
    (exit : BlockId) : (exits.toKind f exit).successors = exits.targets.map f := by
  cases exits with
  | openEnd => exact absurd rfl h
  | goto => rfl
  | branch => rfl
  | raise successor => cases successor <;> simp [toKind, BlockKind.successors, targets]
  | special kind successor => cases successor <;> rfl

/-- A finished layout has marks: every draft is as its role demands and leads where its
mark allows, and every node is listed. -/
structure Layout.Marked (D : Layout) (G : Marks) : Prop where
  settled : ∀ (i : Nat) (d : Draft), D.drafts[i]? = some d →
    ∃ m, G.blocks[i]? = some m ∧ d.Settled D i m.role
  leads : ∀ (i : Nat) (d : Draft), D.drafts[i]? = some d → ∀ t ∈ d.exits.targets, G.Leads i t
  entry : G.blocks[entryId]? = some ⟨0, [], .entry⟩
  listed : ∀ id < D.nodes.size, ∃ (i : Nat) (d : Draft), D.drafts[i]? = some d ∧ id ∈ d.nodes

theorem Exits.targets_finish {exits : Exits} {t : BlockId} (h : t ∈ exits.targets)
    (exit : BlockId) : t ∈ (exits.finish exit).targets := by
  unfold finish
  split
  · cases h
  · exact List.mem_cons_of_mem exit h
  · exact h

section

variable {b : Building} {G : Marks} {i t : Nat} {d : Draft} {r : Role}

/-- A draft that is finished is as its role demands. -/
theorem Draft.Formed.settled (h : d.Formed b i r) :
    Draft.Settled b.layout i r { d with exits := d.exits.finish exitId } := by
  obtain ⟨nodes, exits⟩ := d
  cases exits with
  | openEnd => exact h
  | goto => exact h
  | branch id t e =>
      obtain ⟨hnodes, p, d', hr, hd', hlast, htarget⟩ := h
      exact ⟨hnodes, p, { d' with exits := d'.exits.finish exitId }, hr,
        by rw [layout_drafts, hd']; rfl, hlast, Exits.targets_finish htarget exitId⟩
  | raise successor handlers terminal =>
      obtain ⟨hr, hnodes, hterminal⟩ := h
      cases successor with
      | some t => exact ⟨hr, hnodes, nofun⟩
      | none =>
          cases terminal with
          | true => exact ⟨hr, hnodes, fun _ => (hterminal rfl).2⟩
          | false => exact ⟨hr, hnodes, nofun⟩
  | special kind successor => exact h

/-- Every block but the exits comes before them. -/
theorem Building.Shaped.leads_finish (h : b.Shaped G) (hi : b.drafts[i]? = some d)
    (hexit : i ≠ exitId) (hexceptional : i ≠ exceptionalExitId)
    (ht : t ∈ (d.exits.finish exitId).targets) : G.Leads i t := by
  obtain ⟨m, hm, hformed⟩ := h.formed i d hi
  by_cases hlow : i < 3
  · have hzero : i = 0 := by
      simp only [exitId, exceptionalExitId] at hexit hexceptional
      omega
    subst hzero
    have hentry : G.blocks[0]? = some ⟨0, [], .entry⟩ := h.initial.block rfl
    cases hm.symm.trans hentry
    refine h.leads 0 d hi t ?_
    obtain ⟨nodes, exits⟩ := d
    cases exits with
    | special => exact ht
    | openEnd => cases hformed
    | goto => cases hformed
    | branch =>
        obtain ⟨-, p, d', hr, -⟩ := hformed
        cases hr
    | raise => cases hformed.1
  · rcases Exits.mem_targets_finish ht with hold | rfl
    · exact h.leads i d hi t hold
    · exact ⟨m, ⟨⊤, [], .code⟩, hm, h.initial.block rfl, trivial,
        .inl (h.places i m hm (Nat.not_lt.mp hlow)), List.forall_mem_nil _⟩

theorem Building.Shaped.marked (h : b.Shaped G)
    (hexit : b.layout.drafts[exitId]? = some ⟨[], .special .exit none⟩)
    (hexceptional : b.layout.drafts[exceptionalExitId]? =
      some ⟨[], .special .exceptionalExit none⟩) : b.layout.Marked G where
  settled i d hd := by
    obtain ⟨d', hd', rfl⟩ := exists_of_layout hd
    obtain ⟨m, hm, hformed⟩ := h.formed i d' hd'
    exact ⟨m, hm, hformed.settled⟩
  leads i d hd t ht := by
    have hne {e : Nat} {kind : SpecialKind}
        (he : b.layout.drafts[e]? = some ⟨[], .special kind none⟩) : i ≠ e := by
      rintro rfl
      cases hd.symm.trans he
      cases ht
    have hexit := hne hexit
    have hexceptional := hne hexceptional
    obtain ⟨d', hd', rfl⟩ := exists_of_layout hd
    exact h.leads_finish hd' hexit hexceptional ht
  entry := h.initial.block rfl
  listed id hid := by
    obtain ⟨i, d, hd, hmem⟩ := h.listed id hid
    exact ⟨i, { d with exits := d.exits.finish exitId }, by rw [layout_drafts, hd]; rfl, hmem⟩

/-- The finished layout of a unit has marks. -/
theorem ProgramUnit.build_marked {u : ProgramUnit}
    (h : u.build.run (Build.start u.params) = .ok ((), b)) :
    b.layout.Whole ∧ ∃ G, b.layout.Marked G := by
  have hlaw : CopyLaw.Holds fun _ _ _ _ _ _ => True := fun _ _ => True.intro
  obtain ⟨hlaid, R, hc⟩ := ProgramUnit.build_spec hlaw h
  obtain ⟨G, hd⟩ := ProgramUnit.build_drafted h
  exact ⟨hc.whole, G, hd.shaped.marked hlaid.exit hlaid.exceptionalExit⟩

end

namespace Layout

open Compaction

variable {D : Layout} {G : Marks} {a c t u v : Nat} {n : Nat} {d : Draft} {m m' : Mark}

/-- A target is, or leads by a chain of removed blocks to, a block that is kept. -/
theorem Whole.chain_of_target (hw : D.Whole) (hd : D.drafts[a]? = some d)
    (ht : t ∈ d.exits.targets) : t < D.drafts.size ∧ ∃ n ≤ D.drafts.size, ∃ c < D.drafts.size,
      Chain D.drafts (removableBlocks D.drafts) t n c ∧ rename D.drafts t = rename D.drafts c := by
  have htarget := hw.targets a d hd t ht
  obtain ⟨n, hn, c, hchain⟩ := removableBlocks_chain D.drafts t
  have hc := (hw.chain hchain htarget).1
  exact ⟨htarget, n, hn, c, hc, hchain, rename_of_chain htarget hc hn hchain⟩

namespace Marked

variable (hD : D.Marked G)

include hD

/-- A draft that only forwards is ordinary code. -/
theorem code_of_goto (hd : D.drafts[a]? = some ⟨[], .goto t⟩) (hm : G.blocks[a]? = some m) :
    m.role = .code := by
  obtain ⟨m', hm', hsettled⟩ := hD.settled a _ hd
  cases hm.symm.trans hm'
  exact hsettled

/-- Only ordinary code is removed. -/
theorem keeps (hm : G.blocks[a]? = some m) (hrole : m.role ≠ .code) : Keeps D.drafts a := by
  by_contra hremoved
  obtain ⟨t, hd⟩ := goto_of_not_keeps hremoved
  exact hrole (hD.code_of_goto hd hm)

/-- Along a chain of removed blocks the order goes on, and loops are entered by the block at
its end. -/
theorem chain_leads (hw : D.Whole) (h : Chain D.drafts (removableBlocks D.drafts) t n c)
    (hn : n ≤ D.drafts.size) (ht : t < D.drafts.size) (hu : G.blocks[u]? = some m)
    (hleads : G.Leads u t) : ∃ m', G.blocks[c]? = some m' ∧
      (m.place < m'.place ∨ m'.role = .head ∧ c ∈ m.loops) ∧
      ∀ h ∈ m'.loops, rename D.drafts h = rename D.drafts c ∨ h ∈ m.loops := by
  induction h generalizing u m with
  | stop =>
      obtain ⟨m₀, m', hm₀, hm', hleads⟩ := hleads
      cases hu.symm.trans hm₀
      exact ⟨m', hm', hleads.onward.imp_right And.symm,
        fun h hh => (hleads.loops h hh).imp_left (congrArg _)⟩
  | @skip t b c n hflag hnext rest ih =>
      have hd := goto_of_forwardOf hnext
      obtain ⟨hc, -⟩ := hw.chain (.skip hflag hnext rest) ht
      have hrename := rename_of_chain ht hc hn (.skip hflag hnext rest)
      obtain ⟨m₀, mt, hm₀, hmt, hleads⟩ := hleads
      cases hu.symm.trans hm₀
      have hcode := hD.code_of_goto hd hmt
      have hlt : m.place < mt.place := hleads.onward.resolve_right fun hback => by
        rw [hcode] at hback
        cases hback.2
      obtain ⟨m', hm', honward, hloops⟩ := ih (Nat.le_of_succ_le hn)
        (hw.targets t _ hd b (by simp [Exits.targets])) hmt
        (hD.leads t _ hd b (by simp [Exits.targets]))
      refine ⟨m', hm', ?_, fun h hh => ?_⟩
      · refine honward.imp hlt.trans (And.imp_right fun hmem => ?_)
        refine (hleads.loops c hmem).resolve_left ?_
        rintro rfl
        exact absurd (rest.kept.symm.trans hflag) (by simp)
      · rcases hloops h hh with heq | hmem
        · exact .inl heq
        · refine (hleads.loops h hmem).imp_left ?_
          rintro rfl
          exact hrename

end Marked

/-- The draft that was kept as a block. -/
def origin (D : Layout) (v : BlockId) : BlockId :=
  ((List.range D.drafts.size).find? fun a =>
    (compactIds D.drafts).getD a (false, 0) = (true, v)).getD 0

theorem origin_rename (ha : a < D.drafts.size) (hkeeps : Keeps D.drafts a) :
    D.origin (rename D.drafts a) = a := by
  have hself : (compactIds D.drafts).getD a (false, 0) = (true, rename D.drafts a) :=
    Prod.ext ((keeps_iff ha).mpr hkeeps) rfl
  have hfound : ((List.range D.drafts.size).find? fun c =>
      (compactIds D.drafts).getD c (false, 0) = (true, rename D.drafts a)).isSome = true := by
    rw [List.find?_isSome]
    exact ⟨a, List.mem_range.mpr ha, by simp [hself]⟩
  obtain ⟨c, hc⟩ := Option.isSome_iff_exists.mp hfound
  have hlt := List.mem_range.mp (List.mem_of_find?_eq_some hc)
  have hsame : (compactIds D.drafts).getD c (false, 0) = (true, rename D.drafts a) := by
    simpa using List.find?_some hc
  rw [origin, hc, Option.getD_some]
  refine rename_injective hlt ha ((keeps_iff hlt).mp (by rw [hsame])) hkeeps ?_
  rw [rename, hsame]

end Layout

/-!
What the blocks hold. A node that may raise is alone in a block that leads on for its
categories, other nodes are in other blocks, and the designated blocks stay where they were
made. Compaction leaves no empty block that only forwards.
-/

/-- Where the block of a kind is, if there is only one. -/
def SpecialKind.home : SpecialKind → Option BlockId
  | entry => some entryId
  | exit => some exitId
  | exceptionalExit => some exceptionalExitId
  | loopHead => none

/-- A draft holds what its exits demand. -/
def Draft.Holds (nodes : Array Node) (i : BlockId) (d : Draft) : Prop :=
  match d.exits with
  | .raise successor handlers terminal => ∃ id n categories, d.nodes = [id] ∧
      nodes[id]? = some n ∧ n.kind.Raises categories terminal ∧
      handlers.map Prod.fst = Digraph.distinct categories ∧ (terminal = true → successor = none)
  | .special kind _ => d.nodes = [] ∧ ∀ e ∈ kind.home, i = e
  | .openEnd | .goto _ | .branch _ _ _ =>
      ∀ id ∈ d.nodes, ∃ n, nodes[id]? = some n ∧ n.kind.isRaising = false

theorem NodeKind.Raises.isRaising {kind : NodeKind} {categories : List String} {terminal : Bool}
    (h : kind.Raises categories terminal) : kind.isRaising = true := by
  cases h <;> rfl

theorem Exits.finish_of_pending {exits : Exits} (h : exits.Pending) (exit : BlockId) :
    exits.finish exit = exits.link exit := by
  rcases h.eq_or with rfl | ⟨handlers, rfl⟩ <;> rfl

theorem Exits.finish_of_not_pending {exits : Exits} (h : ¬ exits.Pending) (exit : BlockId) :
    exits.finish exit = exits := by
  unfold finish
  split
  · exact absurd trivial h
  · exact absurd trivial h
  · rfl

namespace Draft.Holds

variable {nodes nodes' : Array Node} {i : BlockId} {d : Draft}

theorem mono (h : d.Holds nodes i)
    (hnodes : ∀ (id : Nat) (n : Node), nodes[id]? = some n → nodes'[id]? = some n) :
    d.Holds nodes' i := by
  obtain ⟨listed, exits⟩ := d
  cases exits with
  | raise =>
      obtain ⟨id, n, categories, hlisted, hn, hrest⟩ := h
      exact ⟨id, n, categories, hlisted, hnodes id n hn, hrest⟩
  | special => exact h
  | _ => exact fun id hid => (h id hid).imp fun n => And.imp_left (hnodes id n)

theorem link (h : d.Holds nodes i) (hd : d.exits.Pending) (t : BlockId) :
    Draft.Holds nodes i { d with exits := d.exits.link t } := by
  obtain ⟨listed, exits⟩ := d
  rcases hd.eq_or with hopen | ⟨handlers, hraise⟩
  · cases hopen
    exact h
  · cases hraise
    obtain ⟨id, n, categories, hlisted, hn, hraises, hcategories, -⟩ := h
    exact ⟨id, n, categories, hlisted, hn, hraises, hcategories, by simp⟩

theorem push (h : d.Holds nodes i) (n : Node) : d.Holds (nodes.push n) i :=
  h.mono fun _ _ hm => getElem?_push_of_some hm

/-- An open block takes a node that does not raise. -/
theorem snoc (h : d.Holds nodes i) (hopen : d.exits = .openEnd) {n : Node}
    (hn : n.kind.isRaising = false) :
    Draft.Holds (nodes.push n) i { d with nodes := d.nodes ++ [nodes.size] } := by
  have hpush := h.push n
  obtain ⟨listed, exits⟩ := d
  cases hopen
  intro id hid
  rcases List.mem_append.mp hid with hold | hnew
  · exact hpush id hold
  · rw [List.mem_singleton.mp hnew]
    exact ⟨n, Array.getElem?_push_size, hn⟩

theorem finish (h : d.Holds nodes i) (exit : BlockId) :
    Draft.Holds nodes i { d with exits := d.exits.finish exit } := by
  by_cases hd : d.exits.Pending
  · rw [Exits.finish_of_pending hd]
    exact h.link hd exit
  · rw [Exits.finish_of_not_pending hd]
    exact h

end Draft.Holds

/-- Every draft of a layout holds what its exits demand. -/
def Layout.Stocked (D : Layout) : Prop :=
  ∀ (i : Nat) (d : Draft), D.drafts[i]? = some d → d.Holds D.nodes i

namespace Layout.Stocked

variable {drafts : Array Draft} {nodes : Array Node} {d : Draft} {c : Nat}

theorem push (h : Stocked ⟨drafts, nodes⟩) (hd : d.Holds nodes drafts.size) :
    Stocked ⟨drafts.push d, nodes⟩ := by
  intro i d' hd'
  rcases getElem?_push_cases hd' with hold | ⟨rfl, rfl⟩
  · exact h i d' hold
  · exact hd

theorem modify (h : Stocked ⟨drafts, nodes⟩) (hc : drafts[c]? = some d) {f : Draft → Draft}
    (hf : (f d).Holds nodes c) : Stocked ⟨drafts.modify c f, nodes⟩ := by
  intro i d' hd'
  rcases getElem?_modify_cases hc hd' with hold | ⟨rfl, rfl⟩
  · exact h i d' hold
  · exact hf

/-- An empty block can be added. -/
theorem pushOpen (h : Stocked ⟨drafts, nodes⟩) : Stocked ⟨drafts.push ⟨[], .openEnd⟩, nodes⟩ :=
  h.push (List.forall_mem_nil _)

theorem pushNode (h : Stocked ⟨drafts, nodes⟩) (n : Node) : Stocked ⟨drafts, nodes.push n⟩ :=
  fun i d hd => (h i d hd).push n

end Layout.Stocked

namespace Building

variable {b b' : Building} {G G' : Marks}

/-- A step makes drafts that hold what their exits demand, and keeps those that do. -/
theorem Step.stocked (hstep : Step b G b' G') (hs : b.Shaped G)
    (h : Layout.Stocked ⟨b.drafts, b.nodes⟩) : Layout.Stocked ⟨b'.drafts, b'.nodes⟩ := by
  cases hstep with
  | fresh m => exact h.pushOpen
  | loop m n =>
      have hhead : Draft.Holds b.nodes b.drafts.size
          ⟨[], .special .loopHead (some (b.drafts.size + 1))⟩ := ⟨rfl, by simp [SpecialKind.home]⟩
      exact (h.push hhead).pushOpen
  | close hc =>
      obtain ⟨d, hd, hpending⟩ := hs.current _ hc
      exact h.modify hd ((h _ d hd).link hpending _)
  | emit kind hc hd hopen hkind =>
      exact (h.pushNode _).modify hd ((h _ _ hd).snoc hopen hkind)
  | raise handlers hc hd hkind hcategories =>
      exact (h.pushNode _).modify hd
        ⟨_, _, _, rfl, Array.getElem?_push_size, hkind, hcategories, fun _ => rfl⟩
  | @branch c t e _ id m hc =>
      have htest : Draft.Holds b.nodes b.drafts.size ⟨[], .branch id t e⟩ := List.forall_mem_nil _
      obtain ⟨d, hd, hpending⟩ := hs.current _ hc
      exact (h.push htest).modify (getElem?_push_of_some hd) ((h _ d hd).link hpending _)
  | _ => exact h

theorem Drafted.stocked (h : b.Drafted G) : Layout.Stocked ⟨b.drafts, b.nodes⟩ := by
  induction h with
  | opened params =>
      intro i d (hd : (Building.opened params).drafts[i]? = some d)
      rcases opened_drafts hd with ⟨rfl, rfl⟩ | ⟨rfl, rfl⟩ | ⟨rfl, rfl⟩ | ⟨rfl, rfl⟩
      · exact ⟨rfl, by simp [SpecialKind.home, entryId]⟩
      · exact ⟨rfl, by simp [SpecialKind.home, exitId]⟩
      · exact ⟨rfl, by simp [SpecialKind.home, exceptionalExitId]⟩
      · exact List.forall_mem_nil _
  | step before hstep ih => exact hstep.stocked before.shaped ih

end Building

namespace Compaction

variable {drafts : Array Draft} {flags : Array Bool} {α : Type} [Preorder α] {place : Nat → α}

/-- If each empty block that forwards to another one comes before it, no chain of them runs
into itself. -/
theorem cycleFrom_eq_none (hforward : Forwarding drafts flags)
    (hclimbs : ∀ {a b : Nat}, forwardOf drafts a = some b → (forwardOf drafts b).isSome →
      place a < place b) {fuel : Nat} {path : List Nat} {a : Nat}
    (hpath : (forwardOf drafts a).isSome → ∀ p ∈ path, place p < place a) :
    cycleFrom drafts flags fuel path a = none := by
  induction fuel generalizing path a with
  | zero => rfl
  | succ fuel ih =>
      rw [cycleFrom]
      split
      · rfl
      · rename_i hflag
        have hnext := (hforward a (by simpa using hflag)).2
        rw [if_neg fun hmem => lt_irrefl _ (hpath hnext a hmem)]
        obtain ⟨b, hb⟩ := Option.isSome_iff_exists.mp hnext
        rw [hb]
        refine ih fun hb' p hp => ?_
        rcases List.mem_cons.mp hp with rfl | hp
        · exact hclimbs hb hb'
        · exact (hpath hnext p hp).trans (hclimbs hb hb')

/-- Then all of them are removed. -/
theorem removableBlocks_eq
    (hclimbs : ∀ {a b : Nat}, forwardOf drafts a = some b → (forwardOf drafts b).isSome →
      place a < place b) :
    removableBlocks drafts = drafts.map fun d => d.forward?.isSome := by
  refine List.foldl_fixed' (fun start => ?_) _
  rw [keepCycle, cycleFrom_eq_none (forwarding_initial drafts) hclimbs (by simp)]

end Compaction

namespace Layout.Marked

open Compaction

variable {D : Layout} {G : Marks} {a t : Nat}

/-- Every empty block that only forwards is removed. -/
theorem not_keeps (hD : D.Marked G) (hd : D.drafts[a]? = some ⟨[], .goto t⟩) :
    ¬ Keeps D.drafts a := by
  -- Code that leads to code comes before it, so the way back to a loop passes its head.
  have hclimbs {a b : Nat} (hb : forwardOf D.drafts a = some b)
      (hnext : (forwardOf D.drafts b).isSome) :
      (G.blocks[a]?.elim ⊤ Mark.place) < (G.blocks[b]?.elim ⊤ Mark.place) := by
    obtain ⟨c, hc⟩ := Option.isSome_iff_exists.mp hnext
    obtain ⟨m, n, hm, hn, hleads⟩ := hD.leads a _ (goto_of_forwardOf hb) b (by simp [Exits.targets])
    have hcode := hD.code_of_goto (goto_of_forwardOf hc) hn
    rw [hm, hn]
    exact hleads.onward.resolve_right fun hback => by simp [hcode] at hback
  rw [Keeps, removableBlocks_eq hclimbs, Array.getD_eq_getD_getElem?, Array.getElem?_map, hd]
  simp [Draft.forward?]

/-- No block leads to the entry. -/
theorem not_leads_entry (hD : D.Marked G) : ¬ G.Leads a entryId := by
  rintro ⟨m, n, -, hn, hleads⟩
  cases hn.symm.trans hD.entry
  exact hleads.admits

end Layout.Marked

/-- The blocks of a unit hold what their exits demand. -/
theorem ProgramUnit.build_stocked {u : ProgramUnit} {b : Building}
    (h : u.build.run (Build.start u.params) = .ok ((), b)) : b.layout.Stocked := by
  obtain ⟨G, hdrafted⟩ := ProgramUnit.build_drafted h
  intro i d hd
  obtain ⟨d', hd', rfl⟩ := exists_of_layout hd
  exact (hdrafted.stocked i d' hd').finish exitId

end FlowTyping
