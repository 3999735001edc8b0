import FlowTyping.Proofs.Flow.Keys
import FlowTyping.Proofs.Flow.LeastFixpoint
import FlowTyping.Proofs.Waiting.Order

/-!
What the transfer of a node writes to a store. An entry that it adds is for the key of an
operand; between the operand and the node, only calls and creations can change what a key
on the heap stands for.
-/

namespace FlowTyping

namespace Store

variable {s : Store} {old : FlowKey → Qualifier → Prop} {W : FlowKey → Prop} {key : FlowKey}
  {q : Qualifier}

/-- Every entry is an old one, or it is for a key among some. -/
def Within (old : FlowKey → Qualifier → Prop) (W : FlowKey → Prop) (s : Store) : Prop :=
  ∀ key q, s.get? key = some q → old key q ∨ W key

theorem Within.insert (hs : s.Within old W) (hkey : W key) : (s.insert key q).Within old W := by
  intro k v hv
  rw [get?_insert] at hv
  split at hv
  · rename_i hk
    exact .inr (hk.1 ▸ hkey)
  · exact hs k v hv

theorem Within.refine (hs : s.Within old W) (h : Hierarchy) (hkey : W key) :
    (s.refine h key q).Within old W :=
  hs.insert hkey

theorem within_retain (s : Store) (keep : FlowKey → Bool) :
    (s.retain keep).Within (fun key q => keep key = true ∧ s.get? key = some q) W := by
  intro k v hv
  rw [get?_retain] at hv
  split at hv
  · exact .inl ⟨‹_›, hv⟩
  · cases hv

theorem within_self (s : Store) (W : FlowKey → Prop) :
    s.Within (fun key q => s.get? key = some q) W :=
  fun _ _ hv => .inl hv

theorem Within.mono {old' : FlowKey → Qualifier → Prop} (hs : s.Within old W)
    (hold : ∀ key q, old key q → old' key q ∨ W key) : s.Within old' W := by
  intro k v hv
  rcases hs k v hv with h | h
  · exact hold k v h
  · exact .inr h

end Store

/-- One of the outcomes has the entry. -/
def TransferResult.Holds (r : TransferResult) (key : FlowKey) (q : Qualifier) : Prop :=
  r.thenStore.get? key = some q ∨ r.elseStore.get? key = some q

/-- Whether a node runs code that may write to the heap anywhere: a call of a method that is
not declared pure, or a creation. -/
def Checker.runsCode (c : Checker) : NodeKind → Bool
  | .call _ method _ => !c.signatures.isPure method
  | .new _ _ => true
  | _ => false

/-- Whether a node may change what a key stands for by a write to the heap. -/
def Checker.invalidates (c : Checker) (kind : NodeKind) (key : FlowKey) : Bool :=
  match kind with
  | .call _ method _ => !c.signatures.isPure method && key.isHeapDependent
  | .new _ _ => key.isHeapDependent
  | .assign (.field _ field) _ => key.mentionsField field || key.isPureCall
  | _ => false

namespace UnitAnalysis

/-- The transfer of a node writes entries for a key, which has the key of an operand for a
part. -/
inductive Writes (u : UnitAnalysis) : NodeKind → NodeId → FlowKey → FlowKey → Prop where
  | equality {op : BinOp} {lhs rhs m : NodeId} {key : FlowKey} :
      u.checker.refinesEquality = true → op.isEquality = true → m = lhs ∨ m = rhs →
      u.key? m = some key → Writes u (.binary op lhs rhs) m key key
  | postcondition {receiver : Option NodeId} {method : String} {args : List NodeId}
      {signature : MethodSignature Qualifier} {target : PostconditionTarget} {m : NodeId}
      {key : FlowKey} : u.checker.signatures.method? method = some signature →
      target ∈ signature.targets → target.operand? receiver args = some m →
      u.key? m = some key → Writes u (.call receiver method args) m key key
  | field {receiver value : NodeId} {field : String} {key : FlowKey} :
      u.key? receiver = some key →
      Writes u (.assign (.field receiver field) value) receiver key (.field key field)

variable {u : UnitAnalysis} {V : NodeValues} {node : Node} {q : Qualifier} {s s' : Store}
  {input r : TransferResult} {old : FlowKey → Qualifier → Prop}

/-- The keys whose entries a node may add: those that it writes, and any that does not read
the heap. -/
def Adds (u : UnitAnalysis) (kind : NodeKind) (key : FlowKey) : Prop :=
  key.isHeapDependent = false ∨ ∃ m part, u.Writes kind m part key

theorem ensures_within {receiver : Option NodeId} {method : String} {args : List NodeId}
    {signature : MethodSignature Qualifier}
    (hmethod : u.checker.signatures.method? method = some signature)
    {posts : List (Postcondition Qualifier)} (hposts : ∀ p ∈ posts, p.target ∈ signature.targets)
    (hs : s.Within old (u.Adds (.call receiver method args))) :
    (posts.foldl (u.ensure receiver args) s).Within old (u.Adds (.call receiver method args)) := by
  induction posts generalizing s with
  | nil => exact hs
  | cons p rest ih =>
      obtain ⟨hp, hrest⟩ := List.forall_mem_cons.mp hposts
      rw [List.foldl_cons]
      apply ih hrest
      unfold ensure
      split
      · rename_i key hkey
        obtain ⟨m, hm, hkey⟩ := Option.bind_eq_some_iff.mp hkey
        exact hs.refine _ (.inr ⟨m, key, .postcondition hmethod hp hm hkey⟩)
      · exact hs

/-- Only calls, creations, declarations and assignments change the store. -/
theorem evaluate_store (h : u.evaluate V node s = .ok (q, s')) :
    (s' = s ∧ ∀ key, u.checker.invalidates node.kind key = false) ∨
      (∃ receiver method args, node.kind = .call receiver method args) ∨
      (∃ name args, node.kind = .new name args) ∨ (∃ var, node.kind = .localDecl var) ∨
      ∃ target value, node.kind = .assign target value := by
  have hmap {x : Except AnalysisError Qualifier} (hx : x.map (·, s) = .ok (q, s')) : s' = s := by
    obtain ⟨v, -, heq⟩ := map_ok hx
    cases heq
    rfl
  cases hkind : node.kind <;> simp only [evaluate, hkind] at h
  case call receiver method args => exact .inr (.inl ⟨receiver, method, args, rfl⟩)
  case new name args => exact .inr (.inr (.inl ⟨name, args, rfl⟩))
  case localDecl var => exact .inr (.inr (.inr (.inl ⟨var, rfl⟩)))
  case assign target value => exact .inr (.inr (.inr (.inr ⟨target, value, rfl⟩)))
  all_goals refine .inl ⟨?_, fun key => rfl⟩
  case localRead var =>
    obtain ⟨bound, -, heq⟩ := bind_ok.mp h
    cases heq
    rfl
  case binary op lhs rhs =>
    split at h
    · cases h
      rfl
    split at h
    · cases h
      rfl
    · exact hmap h
  case shortCircuit => exact hmap h
  case ternaryMerge => exact hmap h
  case cast => exact hmap h
  case unary => exact hmap h
  case returnValue value =>
    cases value with
    | none =>
        cases h
        rfl
    | some id => exact hmap h
  case throw exception value =>
    cases value with
    | none =>
        cases h
        rfl
    | some id => exact hmap h
  all_goals
    cases h
    rfl

/-- The entries of a store that a node does not invalidate. -/
def Spared (u : UnitAnalysis) (kind : NodeKind) (s : Store) (key : FlowKey) (q : Qualifier) :
    Prop :=
  u.checker.invalidates kind key = false ∧ s.get? key = some q

/-- The store of the heap after a node that may have written to it. -/
theorem within_invalidateHeap {kind : NodeKind}
    (hkind : ∀ key : FlowKey, key.isHeapDependent = false →
      u.checker.invalidates kind key = false) :
    s.invalidateHeap.Within (u.Spared kind s) (u.Adds kind) := by
  apply (s.within_retain _).mono
  rintro key v ⟨hkeep, hv⟩
  exact .inl ⟨hkind key (by simpa using hkeep), hv⟩

/-- What the evaluation of a node leaves of a store: the entries that it does not
invalidate, and those that it adds. -/
theorem evaluate_within (h : u.evaluate V node s = .ok (q, s')) :
    s'.Within (u.Spared node.kind s) (u.Adds node.kind) := by
  rcases evaluate_store h with ⟨rfl, hkeeps⟩ | ⟨receiver, method, args, hkind⟩ |
    ⟨name, args, hkind⟩ | ⟨var, hkind⟩ | ⟨target, value, hkind⟩
  · apply (s'.within_self _).mono
    intro key v hv
    exact .inl ⟨hkeeps key, hv⟩
  · rw [hkind]
    simp only [evaluate, hkind] at h
    cases h
    have hcleared : (if u.checker.signatures.isPure method then s else s.invalidateHeap).Within
        (u.Spared (.call receiver method args) s) (u.Adds (.call receiver method args)) := by
      split
      · rename_i hpure
        apply (s.within_self _).mono
        intro key v hv
        exact .inl ⟨by simp [Checker.invalidates, hpure], hv⟩
      · apply within_invalidateHeap
        intro key hkey
        simp [Checker.invalidates, hkey]
    cases hmethod : u.checker.signatures.method? method with
    | none => exact hcleared
    | some signature =>
        refine ensures_within hmethod (fun p hp => ?_) hcleared
        exact List.mem_append_left _ (List.mem_map_of_mem hp)
  · rw [hkind]
    simp only [evaluate, hkind] at h
    cases h
    exact within_invalidateHeap fun key hkey => hkey
  · rw [hkind]
    simp only [evaluate, hkind] at h
    obtain ⟨bound, -, heq⟩ := map_ok h
    cases heq
    apply (s.within_retain _).mono
    rintro key v ⟨-, hv⟩
    exact .inl ⟨rfl, hv⟩
  · rw [hkind]
    cases target with
    | «local» var =>
        simp only [evaluate, hkind] at h
        obtain ⟨source, -, h⟩ := bind_ok.mp h
        obtain ⟨bound, -, heq⟩ := bind_ok.mp h
        cases heq
        apply Store.Within.insert _ (.inl rfl)
        apply (s.within_retain _).mono
        rintro key v ⟨-, hv⟩
        exact .inl ⟨rfl, hv⟩
    | field receiver field =>
        simp only [evaluate, hkind] at h
        obtain ⟨source, -, heq⟩ := bind_ok.mp h
        cases heq
        have hcleared : (s.invalidateField field).Within
            (u.Spared (.assign (.field receiver field) value) s)
            (u.Adds (.assign (.field receiver field) value)) := by
          apply (s.within_retain _).mono
          rintro key v ⟨hkeep, hv⟩
          exact .inl ⟨by simpa [Checker.invalidates] using hkeep, hv⟩
        split
        · rename_i key hkey
          exact hcleared.insert (.inr ⟨receiver, key, .field hkey⟩)
        · exact hcleared

/-- What a unit knows when it tests a node. -/
def context (u : UnitAnalysis) (V : NodeValues) (node : Node) : TestContext :=
  ⟨node, u.checker.hierarchy, u.checker.signatures, V, u.keys⟩

theorem refineAll_within {W : FlowKey → Prop} {h : Hierarchy} {keys : List FlowKey}
    (hkeys : ∀ key ∈ keys, W key) (hs : s.Within old W) :
    (keys.foldl (fun s key => s.refine h key q) s).Within old W := by
  induction keys generalizing s with
  | nil => exact hs
  | cons key rest ih =>
      obtain ⟨hkey, hrest⟩ := List.forall_mem_cons.mp hkeys
      rw [List.foldl_cons]
      exact ih hrest (hs.refine h hkey)

theorem splitEquality_within {op : BinOp} {lhs rhs : NodeId} {stores : Store × Store}
    (henabled : u.checker.refinesEquality = true) (hop : op.isEquality = true)
    (hs : s.Within old (u.Adds (.binary op lhs rhs)))
    (h : Refinement.splitEquality (u.context V node) s op lhs rhs = some stores) :
    stores.1.Within old (u.Adds (.binary op lhs rhs)) ∧
      stores.2.Within old (u.Adds (.binary op lhs rhs)) := by
  have hkeys : ∀ key ∈ (u.key? lhs).toList ++ (u.key? rhs).toList,
      u.Adds (.binary op lhs rhs) key := by
    intro key hkey
    rcases List.mem_append.mp hkey with hkey | hkey
    · exact .inr ⟨lhs, key, .equality henabled hop (.inl rfl) (Option.mem_toList.mp hkey)⟩
    · exact .inr ⟨rhs, key, .equality henabled hop (.inr rfl) (Option.mem_toList.mp hkey)⟩
  unfold Refinement.splitEquality at h
  dsimp only at h
  split at h
  · cases h
  · split at h
    · cases h
      exact ⟨refineAll_within hkeys hs, hs⟩
    · cases h
      exact ⟨hs, refineAll_within hkeys hs⟩

theorem splitCall_within {receiver : Option NodeId} {method : String} {args : List NodeId}
    {signature : MethodSignature Qualifier}
    (hmethod : u.checker.signatures.method? method = some signature)
    {posts : List (ConditionalPostcondition Qualifier)}
    (hposts : ∀ p ∈ posts, p.target ∈ signature.targets) {stores : Store × Store}
    (hs : s.Within old (u.Adds (.call receiver method args)))
    (h : Refinement.splitCall (u.context V node) s receiver args posts = some stores) :
    stores.1.Within old (u.Adds (.call receiver method args)) ∧
      stores.2.Within old (u.Adds (.call receiver method args)) := by
  unfold Refinement.splitCall at h
  generalize hfound : (none : Option (Store × Store)) = found at h
  have hinv : ∀ x, found = some x → x.1.Within old (u.Adds (.call receiver method args)) ∧
      x.2.Within old (u.Adds (.call receiver method args)) := by
    subst hfound
    exact nofun
  clear hfound
  induction posts generalizing found with
  | nil => exact hinv stores h
  | cons p rest ih =>
      obtain ⟨hp, hrest⟩ := List.forall_mem_cons.mp hposts
      rw [List.foldl_cons] at h
      refine ih hrest _ h fun x hx => ?_
      have hold : (found.getD (s, s)).1.Within old (u.Adds (.call receiver method args)) ∧
          (found.getD (s, s)).2.Within old (u.Adds (.call receiver method args)) := by
        cases found with
        | none => exact ⟨hs, hs⟩
        | some x => exact hinv x rfl
      rcases Option.or_eq_some_iff.mp hx with hx | ⟨-, hx⟩
      · obtain ⟨key, hkey, heq⟩ := Option.map_eq_some_iff.mp hx
        obtain ⟨m, hm, hkey⟩ := Option.bind_eq_some_iff.mp hkey
        have hadds : u.Adds (.call receiver method args) key :=
          .inr ⟨m, key, .postcondition hmethod hp hm hkey⟩
        split at heq
        · cases heq
          exact ⟨hold.1.refine _ hadds, hold.2⟩
        · cases heq
          exact ⟨hold.1, hold.2.refine _ hadds⟩
      · exact hinv x hx

/-- Both outcomes of a test have the entries of the store before it, and those that the
node adds. -/
theorem refine_within {result : TransferResult} (hs : s.Within old (u.Adds node.kind))
    (h : Refinement.refine? (Refinement.enabled u.checker.refinesEquality) (u.context V node) s =
      some result) :
    result.thenStore.Within old (u.Adds node.kind) ∧
      result.elseStore.Within old (u.Adds node.kind) := by
  obtain ⟨refinement, hmem, hsplit⟩ := List.exists_of_findSome?_eq_some h
  obtain ⟨stores, hstores, rfl⟩ := Option.map_eq_some_iff.mp hsplit
  obtain ⟨hmem, happlies⟩ := List.mem_filter.mp hmem
  cases refinement with
  | equality =>
      have henabled : u.checker.refinesEquality = true := by
        by_contra hdisabled
        simp [Refinement.enabled, hdisabled] at hmem
      cases hkind : node.kind <;>
        simp only [Refinement.split, Refinement.appliesTo, context, hkind] at hstores happlies
      case binary op lhs rhs =>
        rw [hkind] at hs
        exact splitEquality_within henabled happlies hs hstores
      all_goals cases hstores
  | postcondition =>
      cases hkind : node.kind <;> simp only [Refinement.split, context, hkind] at hstores
      case call receiver method args =>
        rw [hkind] at hs
        obtain ⟨signature, hmethod, hstores⟩ := Option.bind_eq_some_iff.mp hstores
        refine splitCall_within hmethod (fun p hp => ?_) hs hstores
        exact List.mem_append_right _ (List.mem_map_of_mem hp)
      all_goals cases hstores

/-- What the transfer of a node leaves: entries that came in and that the node does not
invalidate, and those that it adds. -/
theorem transferNode_holds (h : u.transferNode V node input = .ok (q, r)) {key : FlowKey}
    {v : Qualifier} (hv : r.Holds key v) :
    (u.checker.invalidates node.kind key = false ∧
      (input.Holds key v ∨ (input.collapse u.checker.hierarchy).get? key = some v)) ∨
      u.Adds node.kind key := by
  by_cases hnot : ∃ id, node.kind = .unary .not id
  · obtain ⟨id, hnot⟩ := hnot
    simp only [transferNode, hnot] at h
    obtain ⟨_, -, h⟩ := bind_ok.mp h
    obtain ⟨value, -, heq⟩ := bind_ok.mp h
    cases heq
    refine .inl ⟨by rw [hnot]; rfl, .inl ?_⟩
    cases input with
    | regular s => exact hv
    | split t e => exact hv.symm
  · have hkind : ∀ id, node.kind ≠ .unary .not id := fun id hid => hnot ⟨id, hid⟩
    rw [transferNode_of_ne_not hkind] at h
    obtain ⟨_, -, h⟩ := bind_ok.mp h
    obtain ⟨⟨value, s⟩, hvalue, heq⟩ := bind_ok.mp h
    have hs := evaluate_within hvalue
    have hboth : r.thenStore.Within
        (u.Spared node.kind (input.collapse u.checker.hierarchy)) (u.Adds node.kind) ∧
        r.elseStore.Within
          (u.Spared node.kind (input.collapse u.checker.hierarchy)) (u.Adds node.kind) := by
      dsimp only at heq
      cases hrefine : Refinement.refine? (Refinement.enabled u.checker.refinesEquality)
          (u.context V node) s with
      | none =>
          unfold context at hrefine
          rw [hrefine] at heq
          cases heq
          exact ⟨hs, hs⟩
      | some result =>
          have hwithin := refine_within hs hrefine
          unfold context at hrefine
          rw [hrefine] at heq
          cases heq
          exact hwithin
    have hspared {store : Store} (hstore : store.Within
        (u.Spared node.kind (input.collapse u.checker.hierarchy)) (u.Adds node.kind))
        (hv : store.get? key = some v) :
        (u.checker.invalidates node.kind key = false ∧
          (input.Holds key v ∨ (input.collapse u.checker.hierarchy).get? key = some v)) ∨
          u.Adds node.kind key := by
      rcases hstore key v hv with ⟨hkeeps, hold⟩ | hadds
      · exact .inl ⟨hkeeps, .inr hold⟩
      · exact .inr hadds
    rcases hv with hv | hv
    · exact hspared hboth.1 hv
    · exact hspared hboth.2 hv

theorem Writes.direct {kind : NodeKind} {m : NodeId} {part key : FlowKey}
    (h : u.Writes kind m part key) : m ∈ kind.direct ∧ kind.setsLocal = false := by
  cases h with
  | equality _ _ hm _ => exact ⟨by simpa [NodeKind.direct, NodeKind.operands] using hm, rfl⟩
  | @postcondition receiver _ args _ target _ _ _ _ hm _ =>
      refine ⟨?_, rfl⟩
      show m ∈ receiver.toList ++ args
      cases target with
      | receiver => exact List.mem_append_left _ (Option.mem_toList.mpr hm)
      | argument index => exact List.mem_append_right _ (List.mem_of_getElem? hm)
  | field _ => exact ⟨by simp [NodeKind.direct, NodeKind.operands], rfl⟩

end UnitAnalysis

theorem Checker.invalidates_iff {c : Checker} {kind : NodeKind} (hkind : kind.isEffect = false)
    {key : FlowKey} (hkey : key.isHeapDependent = true) :
    c.invalidates kind key = true ↔ c.runsCode kind = true := by
  cases kind with
  | assign target value => cases hkind
  | call receiver method args => simp [invalidates, runsCode, hkey]
  | new name args => simp [invalidates, runsCode, hkey]
  | _ => simp [invalidates, runsCode]

/-- Where the entries that a node writes come from. An entry for a key on the heap came in, or
the key of an operand is a part of its key. On a path from the operand to the node that
does not compute it again, only values between the two in node order are computed; so a key
on the heap is invalidated there exactly where code runs that may write to it. -/
structure UnitAnalysis.Traced (u : UnitAnalysis) (n : NodeId) (node : Node) : Prop where
  entries : ∀ {V : NodeValues} {input result : TransferResult} {q v : Qualifier} {key : FlowKey},
    u.transferNode V node input = .ok (q, result) → key.isHeapDependent = true →
    result.Holds key v →
    (u.checker.invalidates node.kind key = false ∧
      (input.Holds key v ∨ (input.collapse u.checker.hierarchy).get? key = some v)) ∨
    ∃ m part, u.Writes node.kind m part key
  between : ∀ {m : NodeId} {part key : FlowKey}, u.Writes node.kind m part key →
    ∀ trace, u.graph.Path m trace n → m ∉ trace → ∀ k ∈ trace, m < k ∧ k < n ∧
      ∃ found, u.graph.node? k = some found ∧ ∀ heap : FlowKey, heap.isHeapDependent = true →
        (u.checker.invalidates found.kind heap = true ↔ u.checker.runsCode found.kind = true)

/-- What a node of a unit writes can be stale only where a call of an impure method or a
creation is computed between it and the operand that its key is from. -/
theorem ProgramUnit.writes_traced {c : Checker} {p : ProgramUnit} {g : FlowGraph}
    (hp : p.lower = .ok g) (initial : Store) {n : NodeId} {node : Node}
    (hn : g.node? n = some node) : (UnitAnalysis.new c g initial).Traced n node := by
  obtain ⟨T, hT, -⟩ := ProgramUnit.lower_timetable hp
  have ho := ProgramUnit.lower_ordered hp
  constructor
  · intro V input result q v key h hkey hv
    rcases UnitAnalysis.transferNode_holds h hv with hspared | hlocal | hwrites
    · exact .inl hspared
    · rw [hlocal] at hkey
      cases hkey
    · exact .inr hwrites
  · intro m part key hwrites trace hpath hfresh k hk
    obtain ⟨hdirect, hlocal⟩ := hwrites.direct
    obtain ⟨hafter, hbefore, found, hfound, hvalue⟩ :=
      hT.between ho hn hdirect hlocal hpath hfresh k hk
    refine ⟨hafter, hbefore, found, hfound, ?_⟩
    intro heap hheap
    exact Checker.invalidates_iff hvalue hheap

/-- Values that may be null and values that are not, with a method that gives the latter. -/
def supplying : CheckerDeclaration where
  name := none
  qualifiers := [⟨"MaybeNull", []⟩, ⟨"Present", ["MaybeNull"]⟩]
  implicit := []
  signatures := [⟨"fetch", [], none, some "Present", false, [], []⟩]
  fields := []
  refinesEquality := true

/-- A unit that tests a field against the result of a call that may change it. -/
def staleUnit : ProgramUnit where
  name := "stale"
  params := []
  returnQualifier := some "Present"
  body := [.ifElse (.binary .eq (.field .this "link") (.call none "fetch" [] []))
    [.returnValue (some (.field .this "link"))] none]

theorem staleUnit_traced : ∃ c g node, Checker.ofDeclaration supplying = .ok c ∧
    staleUnit.lower = .ok g ∧ g.node? 3 = some node ∧
    (UnitAnalysis.new c g (.new c.hierarchy)).Traced 3 node := by
  have hok : ((Checker.ofDeclaration supplying).toOption.bind fun _ =>
      staleUnit.lower.toOption.bind fun g => g.node? 3).isSome = true := by decide +kernel
  obtain ⟨node, h⟩ := Option.isSome_iff_exists.mp hok
  obtain ⟨c, hc, h⟩ := Option.bind_eq_some_iff.mp h
  obtain ⟨g, hg, hnode⟩ := Option.bind_eq_some_iff.mp h
  have hg := ok_of_toOption hg
  exact ⟨c, g, node, ok_of_toOption hc, hg, hnode,
    ProgramUnit.writes_traced hg (.new c.hierarchy) hnode⟩

/-- The test of the unit narrows the field after a call that invalidates what is known of it. -/
theorem staleUnit_narrows_stale : ∃ c g a test called q result narrowed,
    Checker.ofDeclaration supplying = .ok c ∧ staleUnit.lower = .ok g ∧
    c.analyze .standard staleUnit = .ok a ∧ g.node? 3 = some test ∧ g.node? 2 = some called ∧
    (UnitAnalysis.new c g (.new c.hierarchy)).transferNode a.values test
      (.regular (.new c.hierarchy)) = .ok (q, result) ∧
    result.thenStore.get? (.field .this "link") = some narrowed ∧
    c.hierarchy.name narrowed = "Present" ∧
    (UnitAnalysis.new c g (.new c.hierarchy)).Writes test.kind 1 (.field .this "link")
      (.field .this "link") ∧
    g.Path 1 [2] 3 ∧ c.invalidates called.kind (.field .this "link") = true ∧
    a.diagnostics = [] := by
  have hok : ((Checker.ofDeclaration supplying).toOption.bind fun c =>
      staleUnit.lower.toOption.bind fun g =>
        (c.analyze .standard staleUnit).toOption.bind fun a =>
          ((UnitAnalysis.new c g (.new c.hierarchy)).transferNode a.values
              ⟨3, 6, .binary .eq 1 2⟩ (.regular (.new c.hierarchy))).toOption.bind fun r =>
            (r.2.thenStore.get? (.field .this "link")).bind fun narrowed =>
              if g.block? 3 = some ⟨3, [0, 1], .regular 5⟩ ∧
                  g.block? 5 = some ⟨5, [2], .exceptional (some 6) [("RuntimeException", 2)]⟩ ∧
                  g.block? 6 = some ⟨6, [3], .regular 7⟩ ∧
                  g.node? 3 = some ⟨3, 6, .binary .eq 1 2⟩ ∧
                  g.node? 2 = some ⟨2, 5, .call none "fetch" []⟩ ∧
                  c.hierarchy.name narrowed = "Present" ∧
                  (UnitAnalysis.new c g (.new c.hierarchy)).key? 1 = some (.field .this "link") ∧
                  c.refinesEquality = true ∧ c.signatures.isPure "fetch" = false ∧
                  a.diagnostics = [] then
                some ()
              else none).isSome = true := by decide +kernel
  obtain ⟨_, h⟩ := Option.isSome_iff_exists.mp hok
  obtain ⟨c, hc, h⟩ := Option.bind_eq_some_iff.mp h
  obtain ⟨g, hg, h⟩ := Option.bind_eq_some_iff.mp h
  obtain ⟨a, ha, h⟩ := Option.bind_eq_some_iff.mp h
  obtain ⟨⟨q, result⟩, htransfer, h⟩ := Option.bind_eq_some_iff.mp h
  obtain ⟨narrowed, hnarrowed, h⟩ := Option.bind_eq_some_iff.mp h
  obtain ⟨⟨hfirst, hcall, htest, hthree, htwo, hname, hkey, henabled, himpure, hdiagnostics⟩, -⟩ :=
    Option.ite_none_right_eq_some.mp h
  have hedge {p t : BlockId} {block : Block} (hblock : g.block? p = some block)
      (ht : t ∈ block.successors) : t ∈ g.successors p :=
    FlowGraph.mem_successors.mpr ⟨block, hblock, ht⟩
  refine ⟨c, g, a, _, _, q, result, narrowed, ok_of_toOption hc, ok_of_toOption hg,
    ok_of_toOption ha, hthree, htwo, ok_of_toOption htransfer, hnarrowed, hname, ?_, ?_, ?_,
    hdiagnostics⟩
  · exact .equality henabled rfl (.inl rfl) hkey
  · refine ⟨3, _, [0], [], hfirst, rfl, ?_⟩
    apply FlowGraph.Evaluates.edge (hedge hfirst List.mem_cons_self) hcall
    apply FlowGraph.Evaluates.node
    apply FlowGraph.Evaluates.edge (hedge hcall List.mem_cons_self) htest
    exact .next
  · simp [Checker.invalidates, himpure, FlowKey.isHeapDependent]

end FlowTyping
