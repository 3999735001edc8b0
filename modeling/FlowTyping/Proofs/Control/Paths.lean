import FlowTyping.Proofs.Control.Compaction
import FlowTyping.Proofs.Control.Statements
import FlowTyping.Proofs.Graph.Valid
import FlowTyping.Proofs.Lowering.Protected
import Mathlib.Data.List.Induction

/-!
Paths of graphs: the paths of the graph of a finished layout are the walks through it.
-/

namespace FlowTyping

open Build

/-- The edges of a block, each with what can be seen of taking it. -/
def BlockKind.edges : BlockKind → List (Trace × BlockId)
  | .regular successor => [([], successor)]
  | .conditional _ thenSuccessor elseSuccessor =>
      [([.outcome true], thenSuccessor), ([.outcome false], elseSuccessor)]
  | .exceptional successor handlers =>
      successor.toList.map (([.completed], ·)) ++ handlers.map fun h => ([.raised h.1], h.2)
  | .special _ successor => successor.toList.map (([], ·))

/-- The operations of some nodes in order. -/
def Node.events (nodes : Array Node) (ids : List NodeId) : Trace :=
  ids.filterMap fun id => nodes[id]?.map fun n => .operation n.kind.operation

namespace GraphParts

/-- The paths between two blocks. A path emits the operations of every block on it, the
last one included, and what can be seen of every edge that it takes. -/
inductive Path (p : GraphParts) : BlockId → Trace → BlockId → Prop
  | here {id : BlockId} {block : Block} (h : p.blocks[id]? = some block) :
      Path p id (Node.events p.nodes block.nodes) id
  | edge {id next target : BlockId} {block : Block} {label τ : Trace}
      (h : p.blocks[id]? = some block) (hedge : (label, next) ∈ block.kind.edges)
      (rest : Path p next τ target) :
      Path p id (Node.events p.nodes block.nodes ++ label ++ τ) target

end GraphParts

namespace Layout

/-- The final block of a draft, if it is kept. -/
def block? (D : Layout) : Draft × Nat → Option Block
  | (d, index) =>
      if ((compactIds D.drafts).getD index (false, 0)).1 then
        some ⟨rename D.drafts index, d.nodes, d.exits.toKind (rename D.drafts) exitId⟩
      else none

/-- The parts of the graph of a finished layout. -/
def parts (D : Layout) (name : String) : GraphParts where
  name := name
  blocks := (D.drafts.toList.zipIdx.filterMap D.block?).toArray
  nodes := D.nodes.map fun n => { n with block := rename D.drafts n.block }
  entry := rename D.drafts entryId
  exit := rename D.drafts exitId
  exceptionalExit := rename D.drafts exceptionalExitId

theorem finish_parts {name : String} {b : Building} {g : FlowGraph}
    (h : Build.finish name b = .ok g) : g.toGraphParts = b.layout.parts name :=
  GraphParts.toGraph_parts h

variable {D : Layout} {name : String} {a : Nat}

theorem block?_of_keeps {d : Draft} (ha : a < D.drafts.size) (h : Keeps D.drafts a) :
    D.block? (d, a) =
      some ⟨rename D.drafts a, d.nodes, d.exits.toKind (rename D.drafts) exitId⟩ :=
  if_pos ((keeps_iff ha).mpr h)

theorem block?_of_not_keeps {d : Draft} (ha : a < D.drafts.size) (h : ¬ Keeps D.drafts a) :
    D.block? (d, a) = none :=
  if_neg (mt (keeps_iff ha).mp h)

/-- As many blocks are kept of the first drafts as the next one counts before it. -/
theorem length_filterMap_block? {drafts : List Draft} (hsize : drafts.length ≤ D.drafts.size) :
    (drafts.zipIdx.filterMap D.block?).length =
      Compaction.rank (Compaction.removableBlocks D.drafts) drafts.length := by
  induction drafts using List.reverseRecOn with
  | nil => rfl
  | append_singleton drafts d ih =>
      rw [List.length_append, List.length_singleton] at hsize
      rw [List.zipIdx_append, List.filterMap_append, List.length_append,
        ih (Nat.le_of_succ_le hsize), List.length_append, List.length_singleton,
        Compaction.rank_succ, Nat.zero_add, List.zipIdx_singleton]
      by_cases hkeeps : Keeps D.drafts drafts.length
      · rw [List.filterMap_cons_some (block?_of_keeps hsize hkeeps),
          if_neg (by simpa [Keeps] using hkeeps)]
        rfl
      · rw [List.filterMap_cons_none (block?_of_not_keeps hsize hkeeps),
          if_pos (by simpa [Keeps] using hkeeps)]
        rfl

/-- A kept block stands at its final id. -/
theorem parts_blocks {d : Draft} (hd : D.drafts[a]? = some d) (h : Keeps D.drafts a) :
    (D.parts name).blocks[rename D.drafts a]? =
      some ⟨rename D.drafts a, d.nodes, d.exits.toKind (rename D.drafts) exitId⟩ := by
  obtain ⟨ha, hget⟩ := Array.getElem?_eq_some_iff.mp hd
  have hsplit : D.drafts.toList = D.drafts.toList.take a ++ d :: D.drafts.toList.drop (a + 1) := by
    rw [← hget, ← Array.getElem_toList, List.getElem_cons_drop, List.take_append_drop]
  have hlength : (D.drafts.toList.take a).length = a := by
    simp [Nat.min_eq_left (Nat.le_of_lt ha)]
  have hfirst : ((D.drafts.toList.take a).zipIdx.filterMap D.block?).length =
      rename D.drafts a := by
    rw [length_filterMap_block? (by rw [hlength]; exact Nat.le_of_lt ha), hlength,
      rename_of_keeps ha h]
  have hblocks : D.drafts.toList.zipIdx.filterMap D.block? =
      (D.drafts.toList.take a).zipIdx.filterMap D.block? ++
        ⟨rename D.drafts a, d.nodes, d.exits.toKind (rename D.drafts) exitId⟩ ::
          ((D.drafts.toList.drop (a + 1)).zipIdx (a + 1)).filterMap D.block? := by
    conv_lhs => rw [hsplit]
    rw [List.zipIdx_append, List.filterMap_append, hlength, Nat.zero_add, List.zipIdx_cons,
      List.filterMap_cons_some (block?_of_keeps ha h)]
  rw [parts, List.getElem?_toArray, hblocks, ← hfirst, List.getElem?_append_right (Nat.le_refl _),
    Nat.sub_self]
  rfl

theorem parts_events (ids : List NodeId) :
    Node.events (D.parts name).nodes ids = Node.events D.nodes ids := by
  simp [Node.events, parts, Function.comp_def]

/-- Chains of removed blocks stay among the blocks and are silent. -/
theorem Whole.chain {n c : Nat} (hw : D.Whole)
    (h : Compaction.Chain D.drafts (Compaction.removableBlocks D.drafts) a n c)
    (ha : a < D.drafts.size) :
    c < D.drafts.size ∧ D.Walk n (.startOf a) [] (.startOf c) := by
  induction h with
  | stop => exact ⟨ha, .here _⟩
  | @skip a b c n _ hnext _ ih =>
      have hd := goto_of_forwardOf hnext
      obtain ⟨hc, hwalk⟩ := ih (hw.targets a _ hd b (by simp [Exits.targets]))
      exact ⟨hc, hwalk.silent (.goto hd)⟩

/-- Every block leads silently to the kept block of its final id. -/
theorem Whole.lands (hw : D.Whole) (ha : a < D.drafts.size) :
    ∃ c < D.drafts.size, Keeps D.drafts c ∧ rename D.drafts a = rename D.drafts c ∧
      ∃ n, D.Walk n (.startOf a) [] (.startOf c) := by
  obtain ⟨n, hn, c, hchain⟩ := Compaction.removableBlocks_chain D.drafts a
  obtain ⟨hc, hwalk⟩ := hw.chain hchain ha
  exact ⟨c, hc, hchain.kept, rename_of_chain ha hc hn hchain, n, hwalk⟩

/-- A block that is not kept has the final id of its target. -/
theorem Whole.rename_goto {t : Nat} (hw : D.Whole) (hd : D.drafts[a]? = some ⟨[], .goto t⟩)
    (h : ¬ Keeps D.drafts a) : rename D.drafts a = rename D.drafts t := by
  have ha := (Array.getElem?_eq_some_iff.mp hd).1
  have ht := hw.targets a _ hd t (by simp [Exits.targets])
  obtain ⟨n, hn, c, hchain⟩ := Compaction.removableBlocks_chain D.drafts a
  have hc := (hw.chain hchain ha).1
  cases hchain with
  | stop hkept => exact absurd hkept h
  | @skip _ b _ n hflag hnext rest =>
      cases hd.symm.trans (goto_of_forwardOf hnext)
      rw [rename_of_chain ha hc hn (.skip hflag hnext rest),
        rename_of_chain ht hc (Nat.le_of_succ_le hn) rest]

theorem Whole.events_take_succ (hw : D.Whole) {d : Draft} (hd : D.drafts[a]? = some d) {i : Nat}
    {id : NodeId} (hid : d.nodes[i]? = some id) :
    ∃ n, D.nodes[id]? = some n ∧ Node.events D.nodes (d.nodes.take (i + 1)) =
      Node.events D.nodes (d.nodes.take i) ++ [.operation n.kind.operation] := by
  obtain ⟨n, hn, -⟩ := (hw.listed a d hd).2 id (List.mem_of_getElem? hid)
  refine ⟨n, hn, ?_⟩
  rw [List.take_add_one, hid, Node.events, List.filterMap_append]
  simp [Node.events, hn]

/-- The operations of a block are on every walk through it. -/
theorem Whole.walk_events (hw : D.Whole) {d : Draft} (hd : D.drafts[a]? = some d) {i : Nat}
    (hi : i ≤ d.nodes.length) :
    ∃ n, D.Walk n (.startOf a) (Node.events D.nodes (d.nodes.take i)) (.inside a i) := by
  induction i with
  | zero => exact ⟨0, .here _⟩
  | succ i ih =>
      obtain ⟨k, hwalk⟩ := ih (Nat.le_of_succ_le hi)
      obtain ⟨n, hn, hevents⟩ := hw.events_take_succ hd (List.getElem?_eq_getElem hi)
      rw [hevents]
      exact hwalk.trans (.single (.operation hd (List.getElem?_eq_getElem hi) hn))

theorem edge_of_leads {exits : Exits} {label : Trace} {q : Point} {t : Nat}
    (h : exits.Leads a label q) (hq : q = .startOf t) (f : BlockId → BlockId) :
    (label, f t) ∈ (exits.toKind f exitId).edges := by
  cases h with
  | goto =>
      cases hq
      exact List.mem_singleton.mpr rfl
  | special =>
      cases hq
      exact List.mem_singleton.mpr rfl
  | outcome b =>
      cases hq
      cases b <;> simp [Exits.toKind, BlockKind.edges]
  | completed => cases hq
  | @raised _ _ _ category target h =>
      cases hq
      simp only [Exits.toKind, BlockKind.edges, List.map_map, List.mem_append, List.mem_map]
      exact .inr ⟨(category, t), h, rfl⟩

/-- Control leaves a block along each of its edges. -/
theorem Whole.walk_of_edge (hw : D.Whole) {d : Draft} (hd : D.drafts[a]? = some d)
    {label : Trace} {next : BlockId} {f : BlockId → BlockId}
    (h : (label, next) ∈ (d.exits.toKind f exitId).edges) :
    ∃ t < D.drafts.size, next = f t ∧
      ∃ n, D.Walk n (.inside a d.nodes.length) label (.startOf t) := by
  have htargets := hw.targets a d hd
  obtain ⟨nodes, exits⟩ := d
  cases exits with
  | openEnd => exact absurd rfl (hw.finished a _ hd)
  | goto t =>
      cases List.mem_singleton.mp h
      exact ⟨t, htargets t (by simp [Exits.targets]), rfl, 1, .single (.leave hd .goto)⟩
  | branch condition thenTarget elseTarget =>
      simp only [Exits.toKind, BlockKind.edges, List.mem_cons, List.not_mem_nil, or_false,
        Prod.mk.injEq] at h
      obtain ⟨rfl, rfl⟩ | ⟨rfl, rfl⟩ := h
      · exact ⟨thenTarget, htargets _ (by simp [Exits.targets]), rfl, 1,
          .single (.leave hd (.outcome true))⟩
      · exact ⟨elseTarget, htargets _ (by simp [Exits.targets]), rfl, 1,
          .single (.leave hd (.outcome false))⟩
  | special kind successor =>
      cases successor with
      | none => cases h
      | some t =>
          cases List.mem_singleton.mp h
          exact ⟨t, htargets t (by simp [Exits.targets]), rfl, 1, .single (.leave hd .special)⟩
  | raise successor handlers terminal =>
      simp only [Exits.toKind, BlockKind.edges, List.map_map, List.mem_append, List.mem_map,
        Option.mem_toList, Option.map_eq_some_iff] at h
      obtain ⟨_, ⟨t, rfl, rfl⟩, hedge⟩ | ⟨⟨category, t⟩, hmem, hedge⟩ := h
      · cases hedge
        refine ⟨t, htargets t (by simp [Exits.targets]), rfl, 2, ?_⟩
        refine .step (.leave hd (.completed fun _ hnone => ?_)) (.single (.resume hd))
        exact Option.some_ne_none t hnone
      · cases hedge
        refine ⟨t, htargets t ?_, rfl, 1, .single (.leave hd (.raised hmem))⟩
        simp only [Exits.targets, List.mem_append, List.mem_map]
        exact .inr ⟨_, hmem, rfl⟩

/-- A way out of a block and a path from its target make a path, whether the block is
kept or not. -/
theorem Whole.path_of_leads (hw : D.Whole) {d : Draft} {label τ : Trace} {q : Point} {t : Nat}
    {e : BlockId} (hd : D.drafts[a]? = some d) (hleads : d.exits.Leads a label q)
    (hedge : (label, rename D.drafts t) ∈ (d.exits.toKind (rename D.drafts) exitId).edges)
    (hpath : (D.parts name).Path (rename D.drafts t) τ e) :
    (D.parts name).Path (rename D.drafts a)
      (Node.events D.nodes d.nodes ++ label ++ τ) e := by
  by_cases hkeeps : Keeps D.drafts a
  · rw [← parts_events]
    exact .edge (parts_blocks hd hkeeps) hedge hpath
  · obtain ⟨t', ht'⟩ := goto_of_not_keeps hkeeps
    cases hd.symm.trans ht'
    cases hleads
    have ht : rename D.drafts t = rename D.drafts t' := by
      simpa [Exits.toKind, BlockKind.edges] using hedge
    rw [hw.rename_goto hd hkeeps, ← ht]
    exact hpath

theorem leads_cases {exits : Exits} {label : Trace} {q : Point} (h : exits.Leads a label q) :
    (∃ t : Nat, t ∈ exits.targets ∧ q = .startOf t) ∨
      ∃ successor handlers terminal, exits = .raise successor handlers terminal ∧
        (terminal = true → successor ≠ none) ∧ label = [.completed] ∧ q = .past a := by
  cases h with
  | goto => exact .inl ⟨_, by simp [Exits.targets], rfl⟩
  | special => exact .inl ⟨_, by simp [Exits.targets], rfl⟩
  | outcome b => cases b <;> exact .inl ⟨_, by simp [Exits.targets], rfl⟩
  | completed h => exact .inr ⟨_, _, _, rfl, h, rfl, rfl⟩
  | raised h => exact .inl ⟨_, List.mem_append_right _ (List.mem_map.mpr ⟨_, h, rfl⟩), rfl⟩

/-- What is left of a path to a block when control stands at a place. -/
def PathFrom (D : Layout) (name : String) (e : BlockId) (τ : Trace) : Point → Prop
  | .inside a i => ∀ d, D.drafts[a]? = some d → i ≤ d.nodes.length →
      (D.parts name).Path (rename D.drafts a) (Node.events D.nodes (d.nodes.take i) ++ τ) e
  | .past a => ∀ nodes t handlers terminal,
      D.drafts[a]? = some ⟨nodes, .raise (some t) handlers terminal⟩ →
      (D.parts name).Path (rename D.drafts t) τ e

/-- A walk to a designated block is the rest of a path. -/
theorem Whole.path_of_walk (hw : D.Whole) {e : Nat} {kind : SpecialKind} {n : Nat} {p q : Point}
    {τ : Trace} (he : D.drafts[e]? = some ⟨[], .special kind none⟩) (h : D.Walk n p τ q)
    (hq : q = .startOf e) : D.PathFrom name (rename D.drafts e) τ p := by
  induction h with
  | here p =>
      subst hq
      rintro d hd -
      cases he.symm.trans hd
      exact .here (parts_blocks he (keeps_of_forward?_none he rfl))
  | @step n p q r τ₁ τ₂ first _ ih =>
      have ih := ih hq
      have hnext {t : Nat} (h : q = .startOf t) (ht : t < D.drafts.size) :
          (D.parts name).Path (rename D.drafts t) τ₂ (rename D.drafts e) := by
        subst h
        exact ih _ (Array.getElem?_eq_getElem ht) (Nat.zero_le _)
      cases first with
      | @operation block index d id n hd hid hn =>
          rintro d' hd' -
          cases hd.symm.trans hd'
          obtain ⟨n', hn', hevents⟩ := hw.events_take_succ hd hid
          cases hn.symm.trans hn'
          have hpath := ih d hd (List.getElem?_eq_some_iff.mp hid).1
          rwa [hevents, List.append_assoc] at hpath
      | @leave block d _ _ hd hleads =>
          rintro d' hd' -
          cases hd.symm.trans hd'
          rw [List.take_length, ← List.append_assoc]
          rcases leads_cases hleads with ⟨t, ht, hq⟩ |
            ⟨successor, handlers, terminal, hexits, hcompletes, rfl, rfl⟩
          · exact hw.path_of_leads hd hleads (edge_of_leads hleads hq _)
              (hnext hq (hw.targets block d hd t ht))
          · obtain ⟨nodes, exits⟩ := d
            cases hexits
            cases successor with
            | none =>
                cases terminal with
                | true => exact absurd rfl (hcompletes rfl)
                | false => exact absurd rfl (hw.resumes block _ handlers hd)
            | some t =>
                exact hw.path_of_leads hd hleads
                  (List.mem_append_left _ (List.mem_singleton.mpr rfl)) (ih nodes t _ _ hd)
      | @resume block _ target _ _ hd =>
          rintro nodes t handlers terminal hd'
          cases hd.symm.trans hd'
          exact hnext rfl (hw.targets block _ hd target (by simp [Exits.targets]))

theorem Whole.walk_of_path (hw : D.Whole) {e x y : Nat} {kind : SpecialKind} {τ : Trace}
    (he : D.drafts[e]? = some ⟨[], .special kind none⟩) (h : (D.parts name).Path x τ y)
    (ha : a < D.drafts.size) (hx : x = rename D.drafts a) (hy : y = rename D.drafts e) :
    ∃ n, D.Walk n (.startOf a) τ (.startOf e) := by
  have hkept := keeps_of_forward?_none he rfl
  induction h generalizing a with
  | here h =>
      obtain ⟨c, hc, hkeeps, hrename, n, hwalk⟩ := hw.lands ha
      obtain rfl := rename_injective hc (Array.getElem?_eq_some_iff.mp he).1 hkeeps hkept
        (hrename.symm.trans (hx.symm.trans hy))
      rw [hx, hrename, parts_blocks he hkept] at h
      cases h
      exact ⟨n, hwalk⟩
  | @edge id next target block label τ h hedge rest ih =>
      obtain ⟨c, hc, hkeeps, hrename, n, hwalk⟩ := hw.lands ha
      have hd := Array.getElem?_eq_getElem hc
      rw [hx, hrename, parts_blocks hd hkeeps] at h
      cases h
      obtain ⟨t, ht, hnext, k, hleave⟩ := hw.walk_of_edge hd hedge
      obtain ⟨m, hrest⟩ := ih ht hnext hy
      obtain ⟨i, hevents⟩ := hw.walk_events hd (Nat.le_refl _)
      rw [List.take_length] at hevents
      obtain ⟨j, hj⟩ := hwalk.trans hevents
      obtain ⟨j, hj⟩ := hj.trans hleave
      obtain ⟨j, hj⟩ := hj.trans hrest
      rw [parts_events]
      exact ⟨j, hj⟩

/-- Paths of the graph of a finished layout are walks through it. -/
theorem Whole.path_iff (hw : D.Whole) {e : Nat} {kind : SpecialKind} (ha : a < D.drafts.size)
    (he : D.drafts[e]? = some ⟨[], .special kind none⟩) (τ : Trace) :
    (D.parts name).Path (rename D.drafts a) τ (rename D.drafts e) ↔
      ∃ n, D.Walk n (.startOf a) τ (.startOf e) := by
  constructor
  · intro h
    exact hw.walk_of_path he h ha rfl rfl
  · rintro ⟨n, h⟩
    have hpath : D.PathFrom name (rename D.drafts e) τ (.startOf a) := hw.path_of_walk he h rfl
    exact hpath _ (Array.getElem?_eq_getElem ha) (Nat.zero_le _)

end Layout

end FlowTyping

/-!
The graph of a unit has the complete traces of its body.
-/

namespace FlowTyping

open Build Layout

namespace ProgramUnit

variable {u : ProgramUnit} {W : CopyLaw} {D : Layout}

/-- The designated block at which a result of the body ends. -/
def EndsAt : Except Departure Unit → BlockId → Prop
  | .ok (), e => e = exitId
  | .error .returned, e => e = exitId
  | .error (.raised _), e => e = exceptionalExitId
  | _, _ => False

theorem Laid.final_of_endsAt (h : u.Laid W D) {r : Except Departure Unit} {e : BlockId}
    (he : EndsAt r e) : D.Final (.startOf e) := by
  match r, he with
  | .ok (), rfl => exact final_of_special h.exit
  | .error .returned, rfl => exact final_of_special h.exit
  | .error (.raised _), rfl => exact final_of_special h.exceptionalExit

/-- The code of a unit, from the entry to the exits. -/
theorem Laid.realises (h : u.Laid W D) :
    D.Realises (.startOf entryId) (Stmt.listRuns u.body) fun r y =>
      ∃ e, EndsAt r e ∧ y = .startOf e := by
  obtain ⟨first, q, hsilent, hbody, hflow⟩ := h.body
  refine .flow (.move hsilent) ((placeStmts_does W u.body hbody).mono fun r y hy => ?_)
  cases r with
  | ok => exact ⟨_, by rwa [← show q = some y from hy], _, rfl, rfl⟩
  | error departure =>
      obtain ⟨crossed, target, scopes, hway, hleads⟩ := hy
      cases departure with
      | returned =>
          cases hway
          exact ⟨_, hleads, _, rfl, rfl⟩
      | raised category =>
          cases hway
          exact ⟨_, hleads, _, rfl, rfl⟩
      | broke => cases hway
      | continued => cases hway

theorem Laid.walks_iff (h : u.Laid W D) {e : BlockId} (τ : Trace)
    (he : e = exitId ∨ e = exceptionalExitId) :
    (∃ n, D.Walk n (.startOf entryId) τ (.startOf e)) ↔
      ∃ r, Stmt.listRuns u.body r τ ∧ EndsAt r e := by
  constructor
  · rintro ⟨n, hwalk⟩
    have hfinal : D.Final (.startOf e) := by
      rcases he with rfl | rfl
      · exact final_of_special h.exit
      · exact final_of_special h.exceptionalExit
    obtain ⟨r, τ₁, τ₂, k, _, hr, ⟨e', he', rfl⟩, rfl, -, hrest⟩ := h.realises.sound hfinal hwalk
    obtain ⟨rfl, hends⟩ := hrest.of_final (h.final_of_endsAt he')
    cases hends
    exact ⟨r, by rwa [List.append_nil], he'⟩
  · rintro ⟨r, hr, he'⟩
    obtain ⟨_, n, ⟨e'', he'', rfl⟩, hwalk⟩ := h.realises.complete hr
    have : e'' = e := by
      match r, he', he'' with
      | .ok (), rfl, rfl => rfl
      | .error .returned, rfl, rfl => rfl
      | .error (.raised _), rfl, rfl => rfl
    exact ⟨n, this ▸ hwalk⟩

theorem returns_iff (u : ProgramUnit) (τ : Trace) :
    (∃ r, Stmt.listRuns u.body r τ ∧ EndsAt r exitId) ↔ u.Returns τ := by
  constructor
  · rintro ⟨r, hr, he⟩
    match r, he with
    | .ok (), _ => exact .inl hr
    | .error .returned, _ => exact .inr hr
    | .error (.raised _), he => exact absurd (show exitId = exceptionalExitId from he) (by decide)
  · rintro (hr | hr)
    · exact ⟨_, hr, rfl⟩
    · exact ⟨_, hr, rfl⟩

theorem escapes_iff (u : ProgramUnit) (τ : Trace) :
    (∃ r, Stmt.listRuns u.body r τ ∧ EndsAt r exceptionalExitId) ↔ u.Escapes τ := by
  constructor
  · rintro ⟨r, hr, he⟩
    match r, he with
    | .ok (), he => exact absurd (show exceptionalExitId = exitId from he) (by decide)
    | .error .returned, he =>
        exact absurd (show exceptionalExitId = exitId from he) (by decide)
    | .error (.raised category), _ => exact ⟨category, hr⟩
  · rintro ⟨category, hr⟩
    exact ⟨_, hr, rfl⟩

end ProgramUnit

/-- The complete paths of the graph of a unit have the traces of its body: those to the
exit when it returns, and those to the exceptional exit when a category escapes. -/
theorem ProgramUnit.lower_paths {u : ProgramUnit} {g : FlowGraph} (h : u.lower = .ok g)
    (τ : Trace) :
    (g.Path g.entry τ g.exit ↔ u.Returns τ) ∧
      (g.Path g.entry τ g.exceptionalExit ↔ u.Escapes τ) := by
  have hlaw : CopyLaw.Holds fun _ _ _ _ _ _ => True := fun _ _ => True.intro
  obtain ⟨b, hfinish, hlaid, hw⟩ := ProgramUnit.lower_laid hlaw h
  have hentry : entryId < b.layout.drafts.size := Nat.lt_of_lt_of_le (by decide) hw.designated
  rw [finish_parts hfinish]
  constructor
  · exact ((hw.path_iff hentry hlaid.exit τ).trans (hlaid.walks_iff τ (.inl rfl))).trans
      (u.returns_iff τ)
  · exact ((hw.path_iff hentry hlaid.exceptionalExit τ).trans
      (hlaid.walks_iff τ (.inr rfl))).trans (u.escapes_iff τ)

/-- A unit that repeats a call until it completes: its clause tries to return, but the
final body around that goes on with the labelled loop. -/
def retryingUnit : ProgramUnit where
  name := "retrying"
  params := [⟨"ready", none⟩]
  returnQualifier := none
  body := [.whileLoop (some "retry") (.unary .not (.var "ready"))
    [.tryCatch [.expr (.call none "attempt" [] ["Failure"]), .breakLoop (some "retry")]
      [.clause "Failure" (some "e")
        [.tryCatch [.returnValue none] [] (some [.continueLoop (some "retry")])]] none]]

theorem retryingUnit_paths : ∃ g, retryingUnit.lower = .ok g ∧ ∀ τ,
    (g.Path g.entry τ g.exit ↔ retryingUnit.Returns τ) ∧
      (g.Path g.entry τ g.exceptionalExit ↔ retryingUnit.Escapes τ) := by
  cases h : retryingUnit.lower with
  | ok g => exact ⟨g, rfl, ProgramUnit.lower_paths h⟩
  | error e =>
      have : retryingUnit.lower.isOk = true := by decide +kernel
      rw [h] at this
      cases this

/-! Graphs of units: they are well-formed, each block lists its nodes in ascending order, and
a node reads nodes before it. -/

/-- A block of the graph stands at the final id of the draft that was kept. -/
theorem Layout.mem_parts_blocks {D : Layout} {name : String} {i : Nat} {b : Block}
    (hb : (D.parts name).blocks[i]? = some b) :
    ∃ (a : Nat) (d : Draft), D.drafts[a]? = some d ∧ Keeps D.drafts a ∧ rename D.drafts a = i ∧
      b = ⟨rename D.drafts a, d.nodes, d.exits.toKind (rename D.drafts) exitId⟩ := by
  have hsize : (D.parts name).blocks.size =
      Compaction.rank (Compaction.removableBlocks D.drafts) D.drafts.size := by
    have hlength : (D.drafts.toList.zipIdx.filterMap D.block?).length =
        Compaction.rank (Compaction.removableBlocks D.drafts) D.drafts.toList.length :=
      length_filterMap_block? (by simp)
    simpa [parts] using hlength
  obtain ⟨hi, -⟩ := Array.getElem?_eq_some_iff.mp hb
  obtain ⟨a, ha, hkeeps, hrank⟩ := Compaction.exists_rank_eq (hsize ▸ hi)
  have hrename := (rename_of_keeps ha hkeeps).trans hrank
  have hblock : (D.parts name).blocks[rename D.drafts a]? = _ :=
    parts_blocks (Array.getElem?_eq_getElem ha) hkeeps
  rw [hrename, hb] at hblock
  exact ⟨a, _, Array.getElem?_eq_getElem ha, hkeeps, hrename, hrename ▸ Option.some.inj hblock⟩

/-- A node of the graph is one of the layout, with the final id of its block. -/
theorem Layout.parts_node {D : Layout} {name : String} {id : Nat} {n : Node}
    (hn : (D.parts name).nodes[id]? = some n) :
    ∃ n', D.nodes[id]? = some n' ∧ n = { n' with block := rename D.drafts n'.block } := by
  simp only [parts, Array.getElem?_map] at hn
  obtain ⟨n', hn', rfl⟩ := Option.map_eq_some_iff.mp hn
  exact ⟨n', hn', rfl⟩

namespace ProgramUnit

variable {u : ProgramUnit} {g : FlowGraph}

theorem lower_valid (h : u.lower = .ok g) : g.Valid := by
  obtain ⟨b, -, hfinish⟩ := u.run_of_lower h
  exact GraphParts.toGraph_valid hfinish

theorem lower_homed (h : u.lower = .ok g) {id : NodeId} {n : Node} (hn : g.node? id = some n) :
    g.Home id n.block := by
  obtain ⟨b, -, hfinish⟩ := u.run_of_lower h
  obtain ⟨a, block, hblock, hid⟩ := GraphParts.toGraph_homed hfinish hn
  obtain ⟨n', hn', hhome⟩ := (u.lower_valid h).listed hblock id hid
  cases hn.symm.trans hn'
  exact ⟨block, hhome ▸ hblock, hid⟩

theorem lower_ordered (h : u.lower = .ok g) : g.Ordered := by
  have hlaw : CopyLaw.Holds fun _ _ _ _ _ _ => True := fun _ _ => True.intro
  obtain ⟨b, hfinish, -, hw⟩ := ProgramUnit.lower_laid hlaw h
  have hparts := Layout.finish_parts hfinish
  refine ⟨fun {i block} hblock => ?_, fun {i n} hn => ?_⟩
  · rw [FlowGraph.block?, hparts] at hblock
    obtain ⟨a, d, hd, -, -, rfl⟩ := Layout.mem_parts_blocks hblock
    exact (hw.listed a d hd).1
  · rw [FlowGraph.node?, hparts] at hn
    obtain ⟨n', hn', rfl⟩ := Layout.parts_node hn
    exact (hw.operands i n' hn').2

end ProgramUnit

end FlowTyping
