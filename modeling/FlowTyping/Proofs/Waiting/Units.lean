import FlowTyping.Proofs.Waiting.Compound
import FlowTyping.Proofs.Lowering.Protected

/-!
The stages of a whole unit. They give a timetable of its finished layout: when each block
was entered, and the values that wait there.
-/

namespace FlowTyping

open Build Building

/-- The designated blocks have begun when a construction starts. -/
def Stages.initial : Stages where
  stage i := if i < 3 then some ⟨[], some ⟨0, 0⟩⟩ else none
  clock := 1

theorem start_staged (U : Expr → Prop) (params : List Parameter) :
    (Build.start params).Staged U .initial where
  outside i hi := if_neg (Nat.not_lt.mpr hi)
  untouched i d hd hne := by
    have hlt : i < 3 := (Array.getElem?_eq_some_iff.mp hd).1
    exact absurd ⟨[], ⟨0, 0⟩, if_pos hlt⟩ hne
  begun i d w e hd hst := by
    have hlt : i < 3 := (Array.getElem?_eq_some_iff.mp hd).1
    obtain ⟨kind, rfl⟩ := start_drafts hd
    simp only [Stages.initial, if_pos hlt, Option.some.injEq, Stage.mk.injEq] at hst
    obtain ⟨rfl, rfl⟩ := hst
    exact {
      time := Nat.zero_lt_one
      start := Nat.zero_le _
      before := nofun
      after := nofun
      runs := ⟨[], .nil, nofun⟩
      raised := nofun
      linked := fun h => absurd rfl h
      arms := nofun
      values := nofun }
  current := nofun
  designated i hi := ⟨_, if_pos hi, rfl⟩
  paths := nofun

theorem ProgramUnit.build_staged {u : ProgramUnit} {b : Building}
    (h : u.build.run (Build.start u.params) = .ok ((), b)) : ∃ G, b.Staged (· ∈ u.exprs) G := by
  simp only [ProgramUnit.build, run_bind] at h
  obtain ⟨first, b₁, h₁, _, b₂, h₂, _, b₃, h₃, _, b₄, h₄, h₅⟩ := h
  obtain ⟨G₁, hg₁, hf₁, hid₁, hsize₁, hst₁⟩ := newFlat_staged (start_staged _ u.params) h₁
  have hentry : b₁.drafts[entryId]? = some ⟨[], .special .entry none⟩ := by
    have hkept := hf₁.grows.kept entryId (by simp [Build.start, entryId])
      (by simp [Build.start]) (by simp)
    rw [hkept]
    rfl
  obtain ⟨hg₂, hf₂⟩ := link_staged hg₁ hentry ⟨_, hst₁, rfl⟩ h₂
  have hbody : KeepsStages (· ∈ u.exprs) [] (inScope (lowerStmts [] u.body)) :=
    (lowerStmts_keeps u.body fun _ => id).inside trivial
  obtain ⟨G₅, hg₅, -⟩ := branch_keeps hbody hg₂
    (List.forall_mem_nil _) hst₁ (hg₂.designated exitId (by decide)) h₃ h₄ h₅
  exact ⟨G₅, hg₅⟩

/-- What a block holds and what follows it. -/
structure Piece where
  nodes : List NodeId
  onward : List BlockId
  raised : List BlockId

def Draft.piece (d : Draft) : Piece := ⟨d.nodes, d.exits.onward, d.exits.raised⟩

def Layout.piece? (D : Layout) (i : BlockId) : Option Piece := D.drafts[i]?.map Draft.piece

/-- When the blocks were entered, and the values that wait there. -/
structure Timetable where
  waits : BlockId → List NodeId
  entered : BlockId → Entrance

namespace Timetable

/-- One block leads to another when nothing is raised. -/
def Leads (pieces : BlockId → Option Piece) (p i : BlockId) : Prop :=
  ∃ c, pieces p = some c ∧ i ∈ c.onward

/-- A value waits at some place of a block. -/
def Has (T : Timetable) (pieces : BlockId → Option Piece) (p : BlockId) (o : NodeId) : Prop :=
  o ∈ T.waits p ∨ ∃ c, pieces p = some c ∧ o ∈ c.nodes

/-- One block is entered before another, after which its nodes are computed. -/
structure Precedes (T : Timetable) (ids : List NodeId) (p i : BlockId) : Prop where
  time : (T.entered p).time < (T.entered i).time
  start : (T.entered p).start ≤ (T.entered i).start
  nodes : ∀ k ∈ ids, k < (T.entered i).start

/-- The timetable describes the blocks. -/
structure Fits (T : Timetable) (nodes : Array Node) (pieces : BlockId → Option Piece) :
    Prop where
  runs : ∀ {p : BlockId} {c : Piece}, pieces p = some c →
    ∃ waiting, Runs nodes (T.waits p) c.nodes waiting ∧ ∀ t ∈ c.onward,
      (∀ o ∈ T.waits t, o ∈ waiting) ∧ (T.waits t ≠ [] → T.Precedes c.nodes p t)
  raised : ∀ {p : BlockId} {c : Piece}, pieces p = some c → ∀ t ∈ c.raised, T.waits t = []
  before : ∀ {i : BlockId}, ∀ o ∈ T.waits i, o < (T.entered i).start
  after : ∀ {i : BlockId} {c : Piece}, pieces i = some c →
    ∀ k ∈ c.nodes, (T.entered i).start ≤ k
  linked : ∀ {i : BlockId}, T.waits i ≠ [] → ∃ p, Leads pieces p i
  arms : ∀ {i : BlockId} {c : Piece}, pieces i = some c → ∀ k ∈ c.nodes, ∀ n,
    nodes[k]? = some n → ∀ o ∈ n.kind.arms, ∃ p, Leads pieces p i ∧ T.Has pieces p o ∧
      ∃ x ∈ T.waits i, T.Has pieces p x

end Timetable

theorem Exits.mem_onward_finish {exits : Exits} {exit t : BlockId}
    (h : t ∈ (exits.finish exit).onward) : t ∈ exits.onward ∨ t = exit := by
  unfold finish at h
  split at h
  · simpa [onward] using h
  · simpa [onward] using h
  · exact .inl h

theorem Exits.raised_finish (exits : Exits) (exit : BlockId) :
    (exits.finish exit).raised = exits.raised := by
  unfold finish
  split <;> rfl

namespace Stages

/-- The values that wait when control enters a block. Nothing waits in a block that is
never entered. -/
def waits (G : Stages) (i : Nat) : List NodeId :=
  match G.stage i with
  | some ⟨w, some _⟩ => w
  | _ => []

def timetable (G : Stages) : Timetable where
  waits := G.waits
  entered i := ((G.stage i).bind Stage.entered).getD ⟨0, 0⟩

variable {G : Stages} {i : Nat} {w : List NodeId} {e : Entrance}

theorem waits_eq (h : G.stage i = some ⟨w, some e⟩) : G.waits i = w := by
  rw [waits, h]

theorem entered_eq (h : G.stage i = some ⟨w, some e⟩) : G.timetable.entered i = e := by
  simp [timetable, h]

theorem entered_of_waits (h : G.waits i ≠ []) : G.Entered i := by
  unfold waits at h
  split at h
  · rename_i heq
    exact ⟨_, _, heq⟩
  · exact absurd rfl h

theorem Flat.waits_eq (h : G.Flat i) : G.waits i = [] := by
  obtain ⟨⟨w, e⟩, hst, hwaits⟩ := h
  cases e with
  | none => rw [waits, hst]
  | some e =>
      rw [Stages.waits_eq hst]
      exact hwaits

end Stages

namespace Building.Staged

variable {U : Expr → Prop} {b : Building} {G : Stages} {i p t : Nat} {d : Draft} {o : NodeId}

/-- A block of the finished layout was entered, or it is empty and ends the unit. -/
theorem layout_cases (h : b.Staged U G) (hd : b.layout.drafts[i]? = some d) :
    (∃ d₀ e, d = { d₀ with exits := d₀.exits.finish exitId } ∧
      G.stage i = some ⟨G.waits i, some e⟩ ∧ b.Begun U G i d₀ (G.waits i) e) ∨
    G.waits i = [] ∧ d = ⟨[], .goto exitId⟩ := by
  obtain ⟨d₀, hd₀, rfl⟩ := exists_of_layout hd
  by_cases hentered : G.Entered i
  · obtain ⟨w, e, hst⟩ := hentered
    rw [Stages.waits_eq hst]
    exact .inl ⟨d₀, e, rfl, hst, h.begun i d₀ w e hd₀ hst⟩
  · rw [h.untouched i d₀ hd₀ hentered]
    exact .inr ⟨not_imp_comm.mp Stages.entered_of_waits hentered, rfl⟩

theorem leads_layout (hp : b.Leads p i) : Timetable.Leads b.layout.piece? p i := by
  obtain ⟨d, hd, hi⟩ := hp
  have hlayout := b.layout_drafts p
  rw [hd] at hlayout
  refine ⟨_, congrArg (Option.map Draft.piece) hlayout, ?_⟩
  exact Exits.onward_mono (d.growsTo_finish exitId) hi

theorem has_layout (h : b.Staged U G) (hp : b.Leads p i) (ho : b.Has G p o) :
    G.timetable.Has b.layout.piece? p o := by
  obtain ⟨d, w, e, hd, -, hst, -⟩ := h.begun_of_leads hp
  obtain ⟨d', st, hd', hst', ho⟩ := ho
  rw [hd] at hd'
  cases hd'
  rw [hst] at hst'
  cases hst'
  refine ho.imp (fun ho => ?_) fun ho => ?_
  · show o ∈ G.waits p
    rwa [Stages.waits_eq hst]
  · have hlayout := b.layout_drafts p
    rw [hd] at hlayout
    exact ⟨_, congrArg (Option.map Draft.piece) hlayout, ho⟩

/-- The stages are a timetable of the finished layout. -/
theorem fits (h : b.Staged U G) : G.timetable.Fits b.layout.nodes b.layout.piece? where
  runs {p c} hc := by
    obtain ⟨d, hd, rfl⟩ := Option.map_eq_some_iff.mp hc
    rcases h.layout_cases hd with ⟨d₀, e, rfl, hst, hbegun⟩ | ⟨-, rfl⟩
    · obtain ⟨waiting, hruns, honward⟩ := hbegun.runs
      refine ⟨waiting, hruns, fun t ht => ?_⟩
      rcases Exits.mem_onward_finish ht with ht | rfl
      · obtain ⟨st, hstt, hsub, hlater⟩ := honward t ht
        obtain ⟨w, e'⟩ := st
        cases e' with
        | none =>
            have hnone : G.waits t = [] := by rw [Stages.waits, hstt]
            exact ⟨by simp [Stages.timetable, hnone], fun hne => absurd hnone hne⟩
        | some e' =>
            have hwaits : G.waits t = w := Stages.waits_eq hstt
            refine ⟨fun o ho => hsub o (hwaits ▸ ho), fun hne => ?_⟩
            obtain ⟨htime, hstart, hnodes⟩ := hlater (hwaits ▸ hne) e' rfl
            refine ⟨?_, ?_, fun k hk => ?_⟩
            · rwa [Stages.entered_eq hst, Stages.entered_eq hstt]
            · rwa [Stages.entered_eq hst, Stages.entered_eq hstt]
            · rw [Stages.entered_eq hstt]
              exact hnodes k hk
      · have hnone := (h.designated exitId (by decide)).waits_eq
        exact ⟨by simp [Stages.timetable, hnone], fun hne => absurd hnone hne⟩
    · refine ⟨_, .nil, fun t ht => ?_⟩
      obtain rfl := List.mem_singleton.mp ht
      have hnone := (h.designated exitId (by decide)).waits_eq
      exact ⟨by simp [Stages.timetable, hnone], fun hne => absurd hnone hne⟩
  raised {p c} hc t ht := by
    obtain ⟨d, hd, rfl⟩ := Option.map_eq_some_iff.mp hc
    rcases h.layout_cases hd with ⟨d₀, e, rfl, -, hbegun⟩ | ⟨-, rfl⟩
    · exact (hbegun.raised t (Exits.raised_finish _ _ ▸ ht)).waits_eq
    · cases ht
  before {i} o ho := by
    obtain ⟨w, e, hst⟩ := Stages.entered_of_waits (List.ne_nil_of_mem ho)
    obtain ⟨d, hd⟩ := h.draft_of_stage hst
    rw [Stages.entered_eq hst]
    exact (h.begun i d w e hd hst).before o (Stages.waits_eq hst ▸ ho)
  after {i c} hc k hk := by
    obtain ⟨d, hd, rfl⟩ := Option.map_eq_some_iff.mp hc
    rcases h.layout_cases hd with ⟨d₀, e, rfl, hst, hbegun⟩ | ⟨-, rfl⟩
    · rw [Stages.entered_eq hst]
      exact hbegun.after k hk
    · cases hk
  linked {i} hne := by
    obtain ⟨w, e, hst⟩ := Stages.entered_of_waits hne
    obtain ⟨d, hd⟩ := h.draft_of_stage hst
    obtain ⟨p, hp⟩ := (h.begun i d w e hd hst).linked (Stages.waits_eq hst ▸ hne)
    exact ⟨p, leads_layout hp⟩
  arms {i c} hc k hk n hn o ho := by
    obtain ⟨d, hd, rfl⟩ := Option.map_eq_some_iff.mp hc
    rcases h.layout_cases hd with ⟨d₀, e, rfl, -, hbegun⟩ | ⟨-, rfl⟩
    · obtain ⟨p, hp, ho, x, hx, hshared⟩ := hbegun.arms k hk n hn o ho
      exact ⟨p, leads_layout hp, h.has_layout hp ho, x, hx, h.has_layout hp hshared⟩
    · cases hk

end Building.Staged

end FlowTyping
