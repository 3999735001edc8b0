import FlowTyping.Proofs.Flow.Blocks
import FlowTyping.Proofs.Flow.Writes

/-!
The keys that the nodes of a graph touch, at most one for each node. What a store says of
other keys is what the initial store says of them.
-/

namespace FlowTyping

namespace Store

variable {h : Hierarchy} {base s s' : Store} {R : List FlowKey} {key : FlowKey} {q : Qualifier}

/-- The store agrees with another one on all keys but some. -/
def Keeps (base : Store) (R : List FlowKey) (s : Store) : Prop :=
  ∀ k ∉ R, s.valueOrTop k = base.valueOrTop k

/-- Only local variables have other qualifiers than the top. -/
def LocalOnly (h : Hierarchy) (s : Store) : Prop :=
  ∀ k, (∀ name, k ≠ .local name) → s.valueOrTop k = h.top

theorem Keeps.insert (hs : base.Keeps R s) (hkey : key ∈ R) : base.Keeps R (s.insert key q) := by
  intro k hk
  rw [valueOrTop_insert, if_neg]
  · exact hs k hk
  · rintro ⟨rfl, -⟩
    exact hk hkey

theorem Keeps.refine (hs : base.Keeps R s) (hkey : key ∈ R) : base.Keeps R (s.refine h key q) :=
  hs.insert hkey

/-- Entries may go away where they are not for local variables, or where they may change. -/
theorem Keeps.retain (hs : base.Keeps R s) (htop : s.top = h.top) (hbase : base.LocalOnly h)
    {keep : FlowKey → Bool} (hkeep : ∀ name, .local name ∉ R → keep (.local name) = true) :
    base.Keeps R (s.retain keep) := by
  intro k hk
  rw [valueOrTop_retain]
  split
  · exact hs k hk
  · rename_i hdropped
    have hnonlocal : ∀ name, k ≠ .local name := by
      rintro name rfl
      exact hdropped (hkeep name hk)
    rw [htop, hbase k hnonlocal]

theorem Keeps.join (hh : h.Lawful) (hs : base.Keeps R s) (hs' : base.Keeps R s') (hwf : s.Wf h)
    (hwf' : s'.Wf h) (hreached : s.reachable = true) (hreached' : s'.reachable = true) :
    base.Keeps R (s.join h s') := by
  intro k hk
  rw [valueOrTop_join hh hwf hwf' hreached hreached', hs k hk, hs' k hk]
  have hhas := hs k hk ▸ hwf.has_valueOrTop hh k
  exact hh.le_antisymm (hh.join_le (hh.le_refl hhas) (hh.le_refl hhas)) (hh.le_join_left hhas hhas)

end Store

/-- Both outcomes of a result agree with a store on all keys but some. -/
structure TransferResult.Keeps (base : Store) (R : List FlowKey) (r : TransferResult) : Prop where
  thenStore : base.Keeps R r.thenStore
  elseStore : base.Keeps R r.elseStore

namespace TransferResult.Keeps

variable {h : Hierarchy} {base s : Store} {R : List FlowKey} {r r' : TransferResult}

theorem regular (hs : base.Keeps R s) : Keeps base R (.regular s) := ⟨hs, hs⟩

theorem swap (hr : Keeps base R r) : Keeps base R r.swap := by
  cases r with
  | regular s => exact hr
  | split t e => exact ⟨hr.elseStore, hr.thenStore⟩

theorem collapse (hh : h.Lawful) (hr : Keeps base R r) (hwf : r.Wf h) (hlive : r.Live) :
    base.Keeps R (r.collapse h) := by
  cases r with
  | regular s => exact hr.thenStore
  | split t e =>
      exact hr.thenStore.join hh hr.elseStore hwf.thenStore hwf.elseStore hlive.thenStore
        hlive.elseStore

theorem join (hh : h.Lawful) (hr : Keeps base R r) (hr' : Keeps base R r') (hwf : r.Wf h)
    (hwf' : r'.Wf h) (hlive : r.Live) (hlive' : r'.Live) : Keeps base R (r.join h r') := by
  have hcollapsed : Keeps base R (.regular ((r.collapse h).join h (r'.collapse h))) :=
    .regular ((hr.collapse hh hwf hlive).join hh (hr'.collapse hh hwf' hlive') (hwf.collapse hh)
      (hwf'.collapse hh) hlive.collapse hlive'.collapse)
  cases r with
  | regular s => exact hcollapsed
  | split t e =>
      cases r' with
      | regular s => exact hcollapsed
      | split t' e' =>
          exact ⟨hr.thenStore.join hh hr'.thenStore hwf.thenStore hwf'.thenStore hlive.thenStore
              hlive'.thenStore,
            hr.elseStore.join hh hr'.elseStore hwf.elseStore hwf'.elseStore hlive.elseStore
              hlive'.elseStore⟩

end TransferResult.Keeps

namespace UnitAnalysis

/-- The key that a node touches: that of the variable or field that it sets, or else its
own, which a test of it or a call with it may narrow. -/
def touchedKey? (u : UnitAnalysis) (node : Node) : Option FlowKey :=
  match node.kind with
  | .localDecl var | .assign (.local var) _ => some (.local var.name)
  | .assign (.field receiver field) _ => (u.key? receiver).map fun key => .field key field
  | _ => u.key? node.id

/-- The keys that the nodes of a unit touch. -/
def touched (u : UnitAnalysis) : List FlowKey := u.graph.nodes.toList.filterMap u.touchedKey?

variable {u : UnitAnalysis} {V : NodeValues} {node : Node} {id : NodeId} {q : Qualifier}
  {base s s' : Store} {input r : TransferResult} {P : Store → Prop}

theorem length_touched (u : UnitAnalysis) : u.touched.length ≤ u.graph.nodeCount :=
  List.length_filterMap_le _ _

theorem mem_touched {key : FlowKey} (hnode : u.graph.node? id = some node)
    (hkey : u.touchedKey? node = some key) : key ∈ u.touched :=
  List.mem_filterMap.mpr
    ⟨node, Array.mem_toList_iff.mpr (Array.mem_of_getElem? hnode), hkey⟩

/-- A declaration or assignment has no key of its own, so the keys of nodes are touched. -/
theorem key?_touched (hg : u.graph.Valid) (hkeys : u.keys = u.checker.nodeKeys u.graph)
    {key : FlowKey} (hkey : u.key? id = some key) : key ∈ u.touched := by
  obtain ⟨hown, -⟩ := Option.filter_eq_some_iff.mp hkey
  rw [hkeys] at hown
  obtain ⟨before, node, hnode, hnodeKey⟩ := Checker.exists_nodeKey hown
  refine mem_touched hnode ?_
  have hid : node.id = id := hg.node hnode
  unfold touchedKey?
  split <;> rename_i hkind <;> simp_all [Checker.nodeKey]

/-- A property of stores that narrowing the key of a node keeps. -/
def NarrowClosed (u : UnitAnalysis) (P : Store → Prop) : Prop :=
  ∀ s m key q, P s → u.key? m = some key → P (s.refine u.checker.hierarchy key q)

theorem NarrowClosed.ensures (hP : u.NarrowClosed P) (receiver : Option NodeId)
    (args : List NodeId) (posts : List (Postcondition Qualifier)) (hs : P s) :
    P (posts.foldl (u.ensure receiver args) s) := by
  induction posts generalizing s with
  | nil => exact hs
  | cons p rest ih =>
      refine ih ?_
      unfold ensure
      split
      · rename_i key hkey
        obtain ⟨m, -, hkey⟩ := Option.bind_eq_some_iff.mp hkey
        exact hP s m key _ hs hkey
      · exact hs

theorem NarrowClosed.refineAll (hP : u.NarrowClosed P) {keys : List FlowKey}
    (hkeys : ∀ key ∈ keys, ∃ m, u.key? m = some key) (hs : P s) :
    P (keys.foldl (fun s key => s.refine u.checker.hierarchy key q) s) := by
  induction keys generalizing s with
  | nil => exact hs
  | cons key rest ih =>
      obtain ⟨⟨m, hm⟩, hrest⟩ := List.forall_mem_cons.mp hkeys
      exact ih hrest (hP s m key q hs hm)

theorem NarrowClosed.splitEquality (hP : u.NarrowClosed P) {op : BinOp} {lhs rhs : NodeId}
    {stores : Store × Store} (hs : P s)
    (h : Refinement.splitEquality (u.context V node) s op lhs rhs = some stores) :
    P stores.1 ∧ P stores.2 := by
  have hkeys : ∀ key ∈ (u.key? lhs).toList ++ (u.key? rhs).toList,
      ∃ m, u.key? m = some key := by
    intro key hkey
    rcases List.mem_append.mp hkey with hkey | hkey
    · exact ⟨lhs, Option.mem_toList.mp hkey⟩
    · exact ⟨rhs, Option.mem_toList.mp hkey⟩
  unfold Refinement.splitEquality at h
  dsimp only at h
  split at h
  · cases h
  · split at h
    · cases h
      exact ⟨hP.refineAll hkeys hs, hs⟩
    · cases h
      exact ⟨hs, hP.refineAll hkeys hs⟩

theorem NarrowClosed.splitCall (hP : u.NarrowClosed P) {receiver : Option NodeId}
    {args : List NodeId} {posts : List (ConditionalPostcondition Qualifier)}
    {stores : Store × Store} (hs : P s)
    (h : Refinement.splitCall (u.context V node) s receiver args posts = some stores) :
    P stores.1 ∧ P stores.2 := by
  unfold Refinement.splitCall at h
  generalize hfound : (none : Option (Store × Store)) = found at h
  have hinv : ∀ x, found = some x → P x.1 ∧ P x.2 := by
    subst hfound
    exact nofun
  clear hfound
  induction posts generalizing found with
  | nil => exact hinv stores h
  | cons p rest ih =>
      rw [List.foldl_cons] at h
      refine ih _ h fun x hx => ?_
      have hold : P (found.getD (s, s)).1 ∧ P (found.getD (s, s)).2 := by
        cases found with
        | none => exact ⟨hs, hs⟩
        | some x => exact hinv x rfl
      rcases Option.or_eq_some_iff.mp hx with hx | ⟨-, hx⟩
      · obtain ⟨key, hkey, heq⟩ := Option.map_eq_some_iff.mp hx
        obtain ⟨m, -, hkey⟩ := Option.bind_eq_some_iff.mp hkey
        split at heq
        · cases heq
          exact ⟨hP _ m key _ hold.1 hkey, hold.2⟩
        · cases heq
          exact ⟨hold.1, hP _ m key _ hold.2 hkey⟩
      · exact hinv x hx

/-- Both outcomes of a test keep what narrowing keeps. -/
theorem NarrowClosed.refine? (hP : u.NarrowClosed P) {refinements : List Refinement}
    {result : TransferResult} (hs : P s)
    (h : Refinement.refine? refinements (u.context V node) s = some result) :
    P result.thenStore ∧ P result.elseStore := by
  obtain ⟨refinement, -, hsplit⟩ := List.exists_of_findSome?_eq_some h
  obtain ⟨stores, hstores, rfl⟩ := Option.map_eq_some_iff.mp hsplit
  cases refinement with
  | equality =>
      cases hkind : node.kind <;> simp only [Refinement.split, context, hkind] at hstores
      case binary op lhs rhs => exact hP.splitEquality hs hstores
      all_goals cases hstores
  | postcondition =>
      cases hkind : node.kind <;> simp only [Refinement.split, context, hkind] at hstores
      case call receiver method args =>
        obtain ⟨signature, -, hstores⟩ := Option.bind_eq_some_iff.mp hstores
        exact hP.splitCall hs hstores
      all_goals cases hstores

/-- What is asked of a unit so that only touched keys change: its keys are those of its
nodes, and at first only local variables have other qualifiers than the top. -/
structure Local (u : UnitAnalysis) : Prop where
  valid : u.graph.Valid
  keys : u.keys = u.checker.nodeKeys u.graph
  initial : u.initial.LocalOnly u.checker.hierarchy

namespace Local

theorem narrowClosed (h : u.Local) : u.NarrowClosed (u.initial.Keeps u.touched) :=
  fun _ _ _ _ hs hkey => hs.refine (key?_touched h.valid h.keys hkey)

theorem invalidateHeap (h : u.Local) (hs : u.initial.Keeps u.touched s)
    (hwf : s.Wf u.checker.hierarchy) : u.initial.Keeps u.touched s.invalidateHeap :=
  hs.retain hwf.top h.initial fun _ _ => rfl

theorem invalidateLocal (h : u.Local) (hs : u.initial.Keeps u.touched s)
    (hwf : s.Wf u.checker.hierarchy) {name : String} (hname : .local name ∈ u.touched) :
    u.initial.Keeps u.touched (s.invalidateLocal name) := by
  refine hs.retain hwf.top h.initial fun other hother => ?_
  have hne : other ≠ name := by
    rintro rfl
    exact hother hname
  simpa [FlowKey.mentionsLocal] using hne

theorem evaluate (h : u.Local) (hnode : u.graph.node? id = some node)
    (hs : u.initial.Keeps u.touched s) (hwf : s.Wf u.checker.hierarchy)
    (heval : u.evaluate V node s = .ok (q, s')) : u.initial.Keeps u.touched s' := by
  rcases evaluate_store heval with ⟨rfl, -⟩ | ⟨receiver, method, args, hkind⟩ |
    ⟨name, args, hkind⟩ | ⟨var, hkind⟩ | ⟨target, value, hkind⟩
  · exact hs
  · simp only [UnitAnalysis.evaluate, hkind] at heval
    cases heval
    refine h.narrowClosed.ensures receiver args _ ?_
    split
    · exact hs
    · exact h.invalidateHeap hs hwf
  · simp only [UnitAnalysis.evaluate, hkind] at heval
    cases heval
    exact h.invalidateHeap hs hwf
  · simp only [UnitAnalysis.evaluate, hkind] at heval
    obtain ⟨bound, -, heq⟩ := map_ok heval
    cases heq
    exact h.invalidateLocal hs hwf (mem_touched hnode (by simp [touchedKey?, hkind]))
  · cases target with
    | «local» var =>
        simp only [UnitAnalysis.evaluate, hkind] at heval
        obtain ⟨source, -, heval⟩ := bind_ok.mp heval
        obtain ⟨bound, -, heq⟩ := bind_ok.mp heval
        cases heq
        have hname : .local var.name ∈ u.touched :=
          mem_touched hnode (by simp [touchedKey?, hkind])
        exact (h.invalidateLocal hs hwf hname).insert hname
    | field receiver field =>
        simp only [UnitAnalysis.evaluate, hkind] at heval
        obtain ⟨source, -, heq⟩ := bind_ok.mp heval
        cases heq
        have hcleared : u.initial.Keeps u.touched (s.invalidateField field) :=
          hs.retain hwf.top h.initial fun _ _ => rfl
        split
        · rename_i key hkey
          exact hcleared.insert (mem_touched hnode (by simp [touchedKey?, hkind, hkey]))
        · exact hcleared

theorem transferNode (h : u.Local) (hc : u.checker.Sound)
    (hnode : u.graph.node? id = some node) (hinput : input.Keeps u.initial u.touched)
    (hwf : input.Wf u.checker.hierarchy) (hlive : input.Live)
    (htransfer : u.transferNode V node input = .ok (q, r)) : r.Keeps u.initial u.touched := by
  by_cases hnot : ∃ id, node.kind = .unary .not id
  · obtain ⟨id, hnot⟩ := hnot
    simp only [UnitAnalysis.transferNode, hnot] at htransfer
    obtain ⟨_, -, htransfer⟩ := bind_ok.mp htransfer
    obtain ⟨value, -, heq⟩ := bind_ok.mp htransfer
    cases heq
    exact hinput.swap
  · rw [transferNode_of_ne_not fun id hid => hnot ⟨id, hid⟩] at htransfer
    obtain ⟨_, -, htransfer⟩ := bind_ok.mp htransfer
    obtain ⟨⟨value, s⟩, hvalue, heq⟩ := bind_ok.mp htransfer
    have hs := h.evaluate hnode (hinput.collapse hc.lawful hwf hlive)
      (hwf.collapse hc.lawful) hvalue
    change pure (value, ((Refinement.refine? _ (u.context V node) s).getD (.regular s))) = _ at heq
    cases hrefine : Refinement.refine? (Refinement.enabled u.checker.refinesEquality)
        (u.context V node) s with
    | none =>
        rw [hrefine] at heq
        cases heq
        exact .regular hs
    | some result =>
        obtain ⟨hthen, helse⟩ := h.narrowClosed.refine? hs hrefine
        rw [hrefine] at heq
        cases heq
        exact ⟨hthen, helse⟩

end Local

end UnitAnalysis

end FlowTyping
