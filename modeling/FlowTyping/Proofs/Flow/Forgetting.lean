import FlowTyping.Proofs.Flow.LeastFixpoint
import FlowTyping.Proofs.Flow.Simulation
import FlowTyping.Proofs.Flow.Solver
import Mathlib.Algebra.Order.Group.Nat
import Mathlib.Data.List.GetD

/-!
The solver on a sheet: the facts of edges stand in rows and columns and nothing else is kept. It can
be followed over many visits, and as long as it goes on the solver does.
-/

namespace FlowTyping

variable {Fact σ : Type}

/-- The facts of the edges from each block in a row, and the blocks that wait. -/
structure Sheet (Fact : Type) where
  rows : List (List (Option Fact))
  worklist : List BlockId

namespace Sheet

def fact? (t : Sheet Fact) (source target : BlockId) : Option Fact :=
  (t.rows.getD source []).getD target none

/-- Enters the fact of an edge, whose target then waits. -/
def enter (ranks : Array Nat) (source : BlockId) (t : Sheet Fact) (target : BlockId) (f : Fact) :
    Sheet Fact where
  rows := t.rows.set source ((t.rows.getD source []).set target (some f))
  worklist := Solving.schedule ranks target t.worklist

def send (a : DataflowAnalysis Fact σ) (ranks : Array Nat) (source : BlockId) (t : Sheet Fact)
    (e : BlockId × Fact) : Sheet Fact :=
  match t.fact? source e.1 with
  | none => t.enter ranks source e.1 e.2
  | some old =>
      let merged := a.join old e.2
      if a.same merged old then t else t.enter ranks source e.1 merged

/-- Whether blocks still wait after some number of visits, if a visit sends what is given. -/
def waits (a : DataflowAnalysis Fact σ) (g : FlowGraph) (ranks : Array Nat)
    (sends : BlockId → Fact → List (BlockId × Fact)) : Nat → Sheet Fact → Bool
  | visits, t =>
      match t.worklist with
      | [] => false
      | block :: rest =>
          match visits with
          | 0 => true
          | left + 1 =>
              let input := a.joinAll (a.arriving g t.fact? block)
              waits a g ranks sends left
                ((sends block input).foldl (send a ranks block) ⟨t.rows, rest⟩)

def start (g : FlowGraph) : Sheet Fact :=
  ⟨List.replicate g.size (List.replicate g.size none), [g.entry]⟩

/-- There is a place for each pair of blocks. -/
def Square (size : Nat) (t : Sheet Fact) : Prop :=
  t.rows.length = size ∧ ∀ row ∈ t.rows, row.length = size

variable {size : Nat} {ranks : Array Nat} {source target : BlockId} {t : Sheet Fact} {f : Fact}

theorem Square.row (h : t.Square size) (hsource : source < size) :
    (t.rows.getD source []).length = size := by
  have hlength : source < t.rows.length := h.1.symm ▸ hsource
  rw [List.getD_eq_getElem _ _ hlength]
  exact h.2 _ (List.getElem_mem hlength)

theorem Square.enter (h : t.Square size) (hsource : source < size) :
    (t.enter ranks source target f).Square size := by
  refine ⟨List.length_set.trans h.1, fun row hrow => ?_⟩
  rcases List.mem_or_eq_of_mem_set hrow with hrow | rfl
  · exact h.2 row hrow
  · exact List.length_set.trans (h.row hsource)

theorem fact?_enter (h : t.Square size) (hsource : source < size) (htarget : target < size)
    (p c : BlockId) : (t.enter ranks source target f).fact? p c =
      if p = source ∧ c = target then some f else t.fact? p c := by
  have hlength : source < t.rows.length := h.1.symm ▸ hsource
  have hrow : target < (t.rows.getD source []).length := (h.row hsource).symm ▸ htarget
  unfold fact? Sheet.enter
  by_cases hp : p = source
  · subst hp
    rw [List.getD_eq_getElem?_getD (l := t.rows.set _ _), List.getElem?_set_self hlength,
      Option.getD_some]
    by_cases hc : c = target
    · subst hc
      rw [if_pos ⟨rfl, rfl⟩, List.getD_eq_getElem?_getD, List.getElem?_set_self hrow]
      rfl
    · rw [if_neg fun hpc => hc hpc.2, List.getD_eq_getElem?_getD,
        List.getElem?_set_ne (Ne.symm hc), ← List.getD_eq_getElem?_getD]
  · rw [if_neg fun hpc => hp hpc.1, List.getD_eq_getElem?_getD (l := t.rows.set _ _),
      List.getElem?_set_ne (Ne.symm hp), ← List.getD_eq_getElem?_getD]

/-- A sheet shows the edges of a solver and the blocks that wait in it. -/
structure Shows (size : Nat) (s : Solving Fact σ) (t : Sheet Fact) : Prop where
  square : t.Square size
  edge (p c : BlockId) : s.edgeFact? p c = t.fact? p c
  worklist : s.worklist = t.worklist

namespace Shows

variable {a : DataflowAnalysis Fact σ} {g : FlowGraph} {s s' : Solving Fact σ}

theorem enter (h : Shows size s t) (hsource : source < size) (htarget : target < size) :
    Shows size ((s.setEdgeFact source target f).await ranks target)
      (t.enter ranks source target f) where
  square := h.square.enter hsource
  edge p c := by
    rw [fact?_enter h.square hsource htarget, ← h.edge]
    exact Solving.edgeFact?_setEdgeFact p c
  worklist := congrArg (Solving.schedule ranks target) h.worklist

theorem send (h : Shows size s t) (hsource : source < size) {edges : List (BlockId × Fact)}
    (hedges : ∀ e ∈ edges, e.1 < size) :
    Shows size (edges.foldl (Solving.propagate a ranks source) s)
      (edges.foldl (Sheet.send a ranks source) t) := by
  induction edges generalizing s t with
  | nil => exact h
  | cons e rest ih =>
      obtain ⟨he, hrest⟩ := List.forall_mem_cons.mp hedges
      refine ih ?_ hrest
      unfold Solving.propagate Sheet.send
      rw [← h.edge]
      cases s.edgeFact? source e.1 with
      | none => exact h.enter hsource he
      | some old =>
          dsimp only
          split
          · exact h
          · exact h.enter hsource he

theorem start (g : FlowGraph) (state : σ) :
    Shows g.size (Solving.start g state : Solving Fact σ) (Sheet.start g) where
  square := by
    refine ⟨List.length_replicate, fun row hrow => ?_⟩
    obtain rfl := List.eq_of_mem_replicate hrow
    exact List.length_replicate
  edge p c := by
    change none = ((List.replicate g.size (List.replicate g.size none)).getD p []).getD c none
    by_cases hp : p < g.size
    · by_cases hc : c < g.size
      · simp [List.getD_eq_getElem?_getD, hp, hc]
      · simp [List.getD_eq_getElem?_getD, hp, hc]
    · simp [List.getD_eq_getElem?_getD, hp]
  worklist := rfl

/-- A run goes on for as many visits as the sheet does. -/
theorem run_error {sends : BlockId → Fact → List (BlockId × Fact)} (h : Shows g.size s t)
    (htransfer : ∀ st b f, ∃ o st', a.transfer st b f = .ok (⟨o, sends b f, []⟩, st'))
    (hsends : ∀ b f, ∀ e ∈ sends b f, b < g.size ∧ e.1 < g.size) {limit remaining : Nat}
    (hwaits : t.waits a g ranks sends remaining = true) :
    Solving.run a g ranks limit remaining s = .error (.visitLimit limit) := by
  induction remaining generalizing s t with
  | zero =>
      unfold waits at hwaits
      unfold Solving.run
      rw [h.worklist]
      cases hwork : t.worklist with
      | nil =>
          rw [hwork] at hwaits
          cases hwaits
      | cons block rest => rfl
  | succ remaining ih =>
      unfold waits at hwaits
      unfold Solving.run
      rw [h.worklist]
      cases hwork : t.worklist with
      | nil =>
          rw [hwork] at hwaits
          cases hwaits
      | cons block rest =>
          rw [hwork] at hwaits
          dsimp only at hwaits ⊢
          have hinput : ({ s with worklist := rest } : Solving Fact σ).input a g block =
              a.joinAll (a.arriving g t.fact? block) := by
            rw [Solving.input_eq]
            have hedge : s.edgeFact? = t.fact? := funext fun p => funext fun c => h.edge p c
            exact congrArg (fun edge => a.joinAll (a.arriving g edge block)) hedge
          obtain ⟨o, st', hok⟩ :=
            htransfer s.state block (a.joinAll (a.arriving g t.fact? block))
          unfold Solving.visit
          dsimp only
          rw [hinput, hok]
          have hsent := hsends block (a.joinAll (a.arriving g t.fact? block))
          generalize sends block (a.joinAll (a.arriving g t.fact? block)) = edges at hwaits hsent
          refine ih ?_ hwaits
          have hshows (s' : Solving Fact σ) (hs' : Shows g.size s' ⟨t.rows, rest⟩) :
              Shows g.size (edges.foldl (Solving.propagate a ranks block) s')
                (edges.foldl (Sheet.send a ranks block) ⟨t.rows, rest⟩) := by
            cases edges with
            | nil => exact hs'
            | cons e others =>
                exact hs'.send (hsent e List.mem_cons_self).1 fun e he => (hsent e he).2
          generalize (if ({ s with worklist := rest } : Solving Fact σ).reproduces a block o
            then BlockStatus.stable else .changed) = status
          have hvisited := hshows { s with
            worklist := rest
            statuses := s.statuses.setIfInBounds block status
            lastRank := some (ranks.getD block 0)
            visits := s.visits + 1
            rounds := if s.beginsRound (ranks.getD block 0) then s.rounds + 1 else s.rounds
            log := ⟨block, o, status⟩ :: s.log
            state := st' } ⟨h.square, h.edge, rfl⟩
          exact ⟨hvisited.square, hvisited.edge, hvisited.worklist⟩

end Shows

end Sheet

/-- Solving is given up when blocks still wait on the sheet after as many visits. -/
theorem solve_givenUp {a : DataflowAnalysis Fact σ} {g : FlowGraph}
    {sends : BlockId → Fact → List (BlockId × Fact)}
    (htransfer : ∀ st b f, ∃ o st', a.transfer st b f = .ok (⟨o, sends b f, []⟩, st'))
    (hsends : ∀ b f, ∀ e ∈ sends b f, b < g.size ∧ e.1 < g.size) {limit : Nat}
    (hwaits : (Sheet.start g).waits a g g.ranks sends limit = true) (record : Bool) (state : σ) :
    solve a g limit record state = .error (.visitLimit limit) := by
  unfold solve
  rw [(Sheet.Shows.start g state).run_error htransfer hsends hwaits]
  rfl

end FlowTyping

/-!
Graphs that do nothing but declare variables. From a store in which some variables have one
qualifier, all that an analysis of such a graph finds out is which of them have been forgotten, so
a number with a bit for each variable stands for a store.
-/

namespace FlowTyping

/-- The nodes of a graph declare variables without a qualifier. -/
def FlowGraph.OnlyDeclares (g : FlowGraph) : Prop :=
  ∀ id node, g.node? id = some node → ∃ name, node.kind = .localDecl ⟨name, none, .local⟩

/-! Sets of forgotten variables as numbers: a bit for each variable in its place, after them one
that tells that the point is reached. Nothing that is not reached has any bits. -/

namespace Forgotten

variable {names : List String} {h : Hierarchy} {q : Qualifier} {s s' : Store} {m m' : Nat}

/-- Whether a key is one of a variable that is not forgotten. -/
def keeps (names : List String) (m : Nat) : FlowKey → Bool
  | .local name => !m.testBit (names.idxOf name)
  | _ => false

def forget (names : List String) (m : Nat) (name : String) : Nat :=
  if m = 0 then 0 else m ||| 2 ^ names.idxOf name

/-- The set after the declarations of a block. -/
def after (g : FlowGraph) (names : List String) (nodes : List NodeId) (m : Nat) : Nat :=
  nodes.foldl (fun m id =>
    match g.node? id with
    | some ⟨_, _, .localDecl var⟩ => forget names m var.name
    | _ => m) m

/-- What a block sends on. -/
def sends (g : FlowGraph) (names : List String) (id : BlockId) (m : Nat) :
    List (BlockId × Nat) :=
  match g.block? id with
  | none => []
  | some block =>
      match block.kind with
      | .conditional _ thenSuccessor elseSuccessor => [(thenSuccessor, m), (elseSuccessor, m)]
      | .special _ successor => successor.toList.map (·, m)
      | .regular successor => [(successor, after g names block.nodes m)]
      | .exceptional successor handlers =>
          successor.toList.map (·, after g names block.nodes m) ++
            handlers.map fun handler => (handler.2, m)

def output (g : FlowGraph) (names : List String) (id : BlockId) (m : Nat) : Nat :=
  match g.block? id with
  | none => m
  | some block =>
      match block.kind with
      | .conditional _ _ _ | .special _ _ => m
      | .regular _ | .exceptional _ _ => after g names block.nodes m

/-- The analysis of what is forgotten. -/
def analysis (g : FlowGraph) (names : List String) : DataflowAnalysis Nat Unit where
  initial := 2 ^ names.length
  bottom := 0
  join m m' := m ||| m'
  same m m' := m = m'
  transfer _ id m := .ok (⟨output g names id m, sends g names id m, []⟩, ())

/-- A set tells what a store says. -/
structure Tells (names : List String) (h : Hierarchy) (q : Qualifier) (s : Store) (m : Nat) :
    Prop where
  wf : s.Wf h
  bound : m < 2 ^ (names.length + 1)
  reachable : s.reachable = m.testBit names.length
  empty : s.reachable = false → m = 0
  value (key : FlowKey) :
    s.valueOrTop key = if s.reachable && keeps names m key then q else h.top

namespace Tells

theorem unreachable (names : List String) (h : Hierarchy) (q : Qualifier) :
    Tells names h q (.unreachable h) 0 where
  wf := ⟨rfl, nofun⟩
  bound := Nat.two_pow_pos _
  reachable := (Nat.zero_testBit _).symm
  empty _ := rfl
  value _ := rfl

/-- Nothing is forgotten where the variables have just been entered. -/
theorem entered (hq : h.Has q) (names : List String) :
    Tells names h q (names.foldl (fun s name => s.insert (.local name) q) (.new h))
      (2 ^ names.length) := by
  have hfold (rest : List String) (s : Store) (hs : s.Wf h) (hreach : s.reachable = true) :
      (rest.foldl (fun s name => s.insert (.local name) q) s).Wf h ∧
      (rest.foldl (fun s name => s.insert (.local name) q) s).reachable = true ∧
      ∀ key, (rest.foldl (fun s name => s.insert (.local name) q) s).valueOrTop key =
        if ∃ name ∈ rest, key = .local name then q else s.valueOrTop key := by
    induction rest generalizing s with
    | nil => exact ⟨hs, hreach, fun key => (if_neg (by simp)).symm⟩
    | cons first rest ih =>
        obtain ⟨hwf, hreached, hvalue⟩ :=
          ih (s.insert (.local first) q) (hs.insert hq) (Store.reachable_insert.trans hreach)
        refine ⟨hwf, hreached, fun key => ?_⟩
        rw [List.foldl_cons, hvalue, Store.valueOrTop_insert]
        by_cases hkey : key = .local first
        · simp [hkey, FlowKey.isRefinable]
        · simp [hkey]
  obtain ⟨hwf, hreach, hvalue⟩ := hfold names (.new h) (Store.wf_new h) rfl
  constructor
  · exact hwf
  · exact Nat.pow_lt_pow_right (by decide) (Nat.lt_succ_self _)
  · rw [hreach, Nat.testBit_two_pow_self]
  · exact fun hunreached => absurd (hunreached.symm.trans hreach) Bool.false_ne_true
  · intro key
    have htop : (Store.new h).valueOrTop key = h.top := rfl
    rw [hvalue, hreach, htop]
    cases key with
    | «local» name =>
        by_cases hname : name ∈ names
        · have hplace := List.idxOf_lt_length_iff.mpr hname
          simp [keeps, hname, Nat.ne_of_gt hplace]
        · simp [keeps, hname]
    | _ => simp [keeps]

theorem join (hh : h.Lawful) (hq : h.Has q) (hs : Tells names h q s m)
    (hs' : Tells names h q s' m') : Tells names h q (s.join h s') (m ||| m') := by
  cases hr : s.reachable with
  | false =>
      obtain rfl := hs.empty hr
      rw [Nat.zero_or, Store.join, hr]
      exact hs'
  | true =>
      cases hr' : s'.reachable with
      | false =>
          obtain rfl := hs'.empty hr'
          rw [Nat.or_zero, Store.join, hr, hr']
          exact hs
      | true =>
          have htop := hh.le_top (hh.has_of_le (hh.le_join_left hq hh.has_top)).2
          have hself : h.join q q = q :=
            hh.le_antisymm (hh.join_le (hh.le_refl hq) (hh.le_refl hq)) (hh.le_join_left hq hq)
          have hleft : h.join h.top q = h.top :=
            hh.le_antisymm (hh.join_le (hh.le_refl hh.has_top) (hh.le_top hq))
              (hh.le_join_left hh.has_top hq)
          have hright : h.join q h.top = h.top :=
            hh.le_antisymm htop (hh.le_join_right hq hh.has_top)
          have hboth : h.join h.top h.top = h.top :=
            hh.le_antisymm (hh.join_le (hh.le_refl hh.has_top) (hh.le_refl hh.has_top))
              (hh.le_join_left hh.has_top hh.has_top)
          have hreach : (s.join h s').reachable = true := by simp [Store.reachable_join, hr]
          constructor
          · exact hs.wf.join hh hs'.wf
          · exact Nat.or_lt_two_pow hs.bound hs'.bound
          · rw [Store.reachable_join, hs.reachable, hs'.reachable, Nat.testBit_or]
          · exact fun hunreached => absurd (hunreached.symm.trans hreach) Bool.false_ne_true
          · intro key
            have hkeeps : keeps names (m ||| m') key =
                (keeps names m key && keeps names m' key) := by
              cases key <;> simp [keeps, Nat.testBit_or]
            rw [Store.valueOrTop_join hh hs.wf hs'.wf hr hr', hs.value, hs'.value, hr, hr', hreach,
              hkeeps]
            cases keeps names m key <;> cases keeps names m' key <;>
              simp [hself, hleft, hright, hboth]

theorem same (hnames : names.Nodup) (hq : q ≠ h.top) (hs : Tells names h q s m)
    (hs' : Tells names h q s' m') : s.same s' = decide (m = m') := by
  rw [Bool.eq_iff_iff, Store.same_iff hs.wf hs'.wf, decide_eq_true_iff]
  constructor
  · rintro ⟨hreach, hvalue⟩
    cases hr : s.reachable with
    | false => rw [hs.empty hr, hs'.empty (hreach.symm.trans hr)]
    | true =>
        apply Nat.eq_of_testBit_eq
        intro i
        rcases Nat.lt_trichotomy i names.length with hi | rfl | hi
        · have hkey := hvalue (.local names[i])
          rw [hs.value, hs'.value, ← hreach, hr, keeps, keeps, hnames.idxOf_getElem i hi] at hkey
          cases hm : m.testBit i <;> cases hm' : m'.testBit i <;> simp_all
        · rw [← hs.reachable, ← hs'.reachable, hreach]
        · have hpow : 2 ^ (names.length + 1) ≤ 2 ^ i := Nat.pow_le_pow_right (by decide) hi
          rw [Nat.testBit_lt_two_pow (Nat.lt_of_lt_of_le hs.bound hpow),
            Nat.testBit_lt_two_pow (Nat.lt_of_lt_of_le hs'.bound hpow)]
  · rintro rfl
    have hreach := hs.reachable.trans hs'.reachable.symm
    exact ⟨hreach, fun key => by rw [hs.value, hs'.value, hreach]⟩

theorem invalidateLocal (hs : Tells names h q s m) (name : String) :
    Tells names h q (s.invalidateLocal name) (forget names m name) := by
  unfold forget
  split
  · rename_i hm
    subst hm
    have hunreached : s.reachable = false := hs.reachable.trans (Nat.zero_testBit _)
    refine ⟨hs.wf.retain _, hs.bound, hs.reachable, hs.empty, fun key => ?_⟩
    have hvalue := hs.value key
    rw [Store.invalidateLocal, Store.valueOrTop_retain]
    rw [hunreached] at hvalue
    rw [show (s.retain fun key => !key.mentionsLocal name).reachable = false from hunreached]
    split
    · exact hvalue
    · exact hs.wf.top
  · rename_i hm
    have hreach : s.reachable = true := by
      cases hr : s.reachable with
      | false => exact absurd (hs.empty hr) hm
      | true => rfl
    have hplace : names.idxOf name < names.length + 1 := Nat.lt_succ_of_le List.idxOf_le_length
    have hbit : m.testBit names.length = true := hs.reachable.symm.trans hreach
    refine ⟨hs.wf.retain _, ?_, ?_, fun hr => ?_, fun key => ?_⟩
    · exact Nat.or_lt_two_pow hs.bound (Nat.pow_lt_pow_right (by decide) hplace)
    · rw [Nat.testBit_or, hbit]
      exact hreach
    · exact absurd (hr.symm.trans hreach) Bool.false_ne_true
    · rw [Store.invalidateLocal, Store.valueOrTop_retain, hs.value, hs.wf.top,
        show (s.retain fun key => !key.mentionsLocal name).reachable = true from hreach, hreach]
      cases key with
      | «local» found =>
          by_cases hfound : found = name
          · simp [FlowKey.mentionsLocal, keeps, hfound]
          · simp only [FlowKey.mentionsLocal, hfound, keeps, Nat.testBit_or, Nat.testBit_two_pow,
              decide_false, Bool.not_false, if_true, Bool.true_and]
            by_cases hidx : names.idxOf name = names.idxOf found
            · -- Two names in one place are no variables.
              have hmem : found ∉ names := fun hmem =>
                hfound ((List.idxOf_inj hmem).mp hidx.symm)
              rw [List.idxOf_eq_length hmem, hbit]
              rfl
            · simp [hidx]
      | _ => simp [keeps]

end Tells

/-- A set tells what the one store of a result says. -/
def TellsResult (names : List String) (h : Hierarchy) (q : Qualifier) (r : TransferResult)
    (m : Nat) : Prop :=
  ∃ s, r = .regular s ∧ Tells names h q s m

end Forgotten

namespace UnitAnalysis

open Forgotten

variable {u : UnitAnalysis} {names : List String} {q : Qualifier} {m : Nat}

/-- An analysis of declarations. -/
structure OnlyDeclares (u : UnitAnalysis) (names : List String) (q : Qualifier) : Prop where
  graph : u.graph.OnlyDeclares
  consumers : u.consumers = (Array.range u.graph.nodeCount).map u.graph.consumersOf
  lawful : u.checker.hierarchy.Lawful
  has : u.checker.hierarchy.Has q
  notTop : q ≠ u.checker.hierarchy.top
  distinct : names.Nodup
  initial : Tells names u.checker.hierarchy q u.initial (2 ^ names.length)

/-- No block reads a node of another one. -/
theorem OnlyDeclares.readers (hu : u.OnlyDeclares names q) (id : NodeId) :
    u.consumers.getD id [] = [] := by
  have hnone : u.graph.consumersOf id = [] := by
    have hoperands : ∀ user ∈ u.graph.nodes.toList, user.kind.operands = [] := by
      intro user huser
      obtain ⟨i, hi⟩ := List.getElem?_of_mem huser
      obtain ⟨name, hkind⟩ := hu.graph i user (by simpa [FlowGraph.node?] using hi)
      rw [hkind]
      rfl
    have hfilter : (u.graph.nodes.toList.filterMap fun user =>
        if id ∈ user.kind.operands && (u.graph.node? id).map Node.block ≠ some user.block then
          some user.block else none) = [] := by
      rw [List.filterMap_eq_nil_iff]
      intro user huser
      simp [hoperands user huser]
    unfold FlowGraph.consumersOf
    dsimp only
    rw [hfilter]
    rfl
  rw [hu.consumers]
  by_cases hid : id < u.graph.nodeCount
  · simp [hid, hnone]
  · simp [hid]

theorem OnlyDeclares.runNodes (hu : u.OnlyDeclares names q) (nodes : List NodeId) (run : BlockRun)
    (hrun : TellsResult names u.checker.hierarchy q run.current m) :
    ∃ run', u.runNodes nodes run = (run', none) ∧ run'.revisit = run.revisit ∧
      TellsResult names u.checker.hierarchy q run'.current (after u.graph names nodes m) := by
  induction nodes generalizing run m with
  | nil => exact ⟨run, rfl, rfl, hrun⟩
  | cons id rest ih =>
      unfold UnitAnalysis.runNodes after
      rw [List.foldl_cons]
      cases hnode : u.graph.node? id with
      | none => exact ih run hrun
      | some node =>
          obtain ⟨name, hkind⟩ := hu.graph id node hnode
          obtain ⟨nodeId, block, kind⟩ := node
          obtain rfl := hkind
          obtain ⟨s, hs, htells⟩ := hrun
          have htransfer : u.transferNode run.values
              ⟨nodeId, block, .localDecl ⟨name, none, .local⟩⟩ run.current =
                .ok (u.checker.element .localVariable, .regular (s.invalidateLocal name)) := by
            rw [hs]
            unfold UnitAnalysis.transferNode Refinement.enabled
            cases u.checker.refinesEquality <;> rfl
          dsimp only
          rw [htransfer]
          dsimp only
          generalize hnext : u.recordValue id (u.checker.element .localVariable) run = next
          have hrevisit : next.revisit = run.revisit := by
            rw [← hnext]
            unfold UnitAnalysis.recordValue
            rw [hu.readers]
            cases run.values.getD id none <;> dsimp only <;> split
            all_goals simp
          obtain ⟨run', hrun', hrevisit', htells'⟩ :=
            ih { next with current := .regular (s.invalidateLocal name) }
              ⟨_, rfl, htells.invalidateLocal name⟩
          exact ⟨run', hrun', hrevisit'.trans hrevisit, htells'⟩

/-- The facts of an analysis of declarations are told by sets. -/
theorem OnlyDeclares.related (hu : u.OnlyDeclares names q) :
    u.dataflow.Related (TellsResult names u.checker.hierarchy q) (fun _ _ => True)
      (Forgotten.analysis u.graph names) where
  initial := ⟨_, rfl, hu.initial⟩
  bottom := ⟨_, rfl, .unreachable _ _ _⟩
  join := by
    rintro _ _ m m' ⟨s, rfl, hs⟩ ⟨s', rfl, hs'⟩
    exact ⟨_, rfl, hs.join hu.lawful hu.has hs'⟩
  same := by
    rintro _ _ m m' ⟨s, rfl, hs⟩ ⟨s', rfl, hs'⟩
    exact hs.same hu.distinct hu.notTop hs'
  transfer {values _} id x m _ hx := by
    obtain ⟨s, rfl, hs⟩ := hx
    have hinput : TellsResult names u.checker.hierarchy q (.regular s) m := ⟨s, rfl, hs⟩
    have hto (targets : List BlockId) {r : TransferResult} {m : Nat}
        (hr : TellsResult names u.checker.hierarchy q r m) :
        List.Forall₂ (fun e e' => e.1 = e'.1 ∧ TellsResult names u.checker.hierarchy q e.2 e'.2)
          (targets.map (·, r)) (targets.map (·, m)) := by
      induction targets with
      | nil => exact .nil
      | cons target rest ih => exact .cons ⟨rfl, hr⟩ ih
    change Alike _ (u.transferBlock values id (.regular s))
      (.ok ((⟨output u.graph names id m, sends u.graph names id m, []⟩ : BlockTransfer Nat), ()))
    unfold UnitAnalysis.transferBlock output sends
    cases u.graph.block? id with
    | none => exact .ok ⟨⟨hinput, .nil, rfl⟩, trivial⟩
    | some block =>
        obtain ⟨run, hrun, hrevisit, hafter⟩ :=
          hu.runNodes block.nodes ⟨values, .regular s, []⟩ hinput
        dsimp only [UnitAnalysis.runBlock]
        rw [hrun]
        cases block.kind with
        | conditional condition thenSuccessor elseSuccessor =>
            dsimp only
            have hedges := hto [thenSuccessor, elseSuccessor] hinput
            exact .ok ⟨⟨hinput, hedges, rfl⟩, trivial⟩
        | special kind successor =>
            dsimp only
            exact .ok ⟨⟨hinput, hto _ hinput, rfl⟩, trivial⟩
        | regular successor =>
            dsimp only
            exact .ok ⟨⟨hafter, .cons ⟨rfl, hafter⟩ .nil, hrevisit⟩, trivial⟩
        | exceptional successor handlers =>
            dsimp only
            have hcaught := hto (handlers.map Prod.snd) hinput
            rw [List.map_map, List.map_map] at hcaught
            exact .ok ⟨⟨hafter, List.rel_append (hto _ hafter) hcaught, hrevisit⟩, trivial⟩

/-- An analysis of declarations is given up when blocks still wait on a sheet of sets. -/
theorem OnlyDeclares.solve_givenUp (hu : u.OnlyDeclares names q) (hg : u.graph.Valid) {limit : Nat}
    (hwaits : (Sheet.start u.graph).waits (Forgotten.analysis u.graph names) u.graph u.graph.ranks
      (sends u.graph names) limit = true) (record : Bool) :
    solve u.dataflow u.graph limit record u.noValues = .error (.visitLimit limit) := by
  have hsends : ∀ b (m : Nat), ∀ e ∈ sends u.graph names b m, b < u.graph.size ∧
      e.1 < u.graph.size := by
    intro b m e he
    have htarget : e.1 ∈ u.graph.successors b := by
      rw [FlowGraph.mem_successors]
      unfold sends at he
      cases hb : u.graph.block? b with
      | none =>
          rw [hb] at he
          cases he
      | some block =>
          refine ⟨block, rfl, ?_⟩
          rw [hb] at he
          dsimp only at he
          unfold Block.successors
          cases hkind : block.kind <;> rw [hkind] at he <;>
            simp [BlockKind.successors] at he ⊢ <;> grind
    obtain ⟨block, hb, -⟩ := FlowGraph.mem_successors.mp htarget
    exact ⟨(Array.getElem?_eq_some_iff.mp hb).1, hg.lt_of_mem_successors htarget⟩
  have hgivenUp := FlowTyping.solve_givenUp (a := Forgotten.analysis u.graph names)
    (fun _ b f => ⟨output u.graph names b f, (), rfl⟩) hsends hwaits record ()
  have hrelated : Alike _ (solve u.dataflow u.graph limit record u.noValues)
      (solve (Forgotten.analysis u.graph names) u.graph limit record ()) :=
    solve_related hu.related (.refl u.graph) rfl limit record trivial
  rw [hgivenUp] at hrelated
  generalize solve u.dataflow u.graph limit record u.noValues = found at hrelated
  cases hrelated
  rfl

end UnitAnalysis

end FlowTyping
