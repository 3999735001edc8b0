import Mathlib.Data.List.Forall2
import FlowTyping.Flow.Transfer
import FlowTyping.Proofs.Control.Paths

/-!
What flow keys identify. Two nodes with keys have the same key exactly when they denote
the same expression up to the text of its literals.
-/

namespace FlowTyping

theorem mapM_some_iff {α β : Type} {f : α → Option β} {as : List α} {bs : List β} :
    as.mapM f = some bs ↔ List.Forall₂ (fun a b => f a = some b) as bs := by
  induction as generalizing bs with
  | nil => cases bs <;> simp
  | cons a as ih =>
      rw [List.mapM_cons]
      cases bs with
      | nil => cases f a <;> cases as.mapM f <;> simp
      | cons b bs =>
          rw [List.forall₂_cons, ← ih]
          cases f a <;> cases as.mapM f <;> simp

theorem mapM_some_congr {α β : Type} {f g : α → Option β} {as : List α}
    (h : ∀ a ∈ as, f a = g a) : as.mapM f = as.mapM g := by
  induction as with
  | nil => rfl
  | cons a as ih =>
      rw [List.mapM_cons, List.mapM_cons, h a List.mem_cons_self,
        ih fun b hb => h b (List.mem_cons_of_mem a hb)]

namespace FlowGraph

def kindOf (g : FlowGraph) (id : NodeId) : Option NodeKind := (g.node? id).map Node.kind

/-- Two nodes denote the same trackable expression: they are of one kind, have the same
names, and agree in their receivers and arguments. Their literals are related by `L`. -/
inductive Alike (g : FlowGraph) (L : Literal → Literal → Prop) : NodeId → NodeId → Prop
  | literal {a b : NodeId} {v w : Literal} :
      g.kindOf a = some (.literal v) → g.kindOf b = some (.literal w) → L v w → Alike g L a b
  | localRead {a b : NodeId} {x y : LocalVar} :
      g.kindOf a = some (.localRead x) → g.kindOf b = some (.localRead y) →
      x.name = y.name → Alike g L a b
  | this {a b : NodeId} :
      g.kindOf a = some .this → g.kindOf b = some .this → Alike g L a b
  | fieldRead {a b r s : NodeId} {field : String} :
      g.kindOf a = some (.fieldRead r field) → g.kindOf b = some (.fieldRead s field) →
      Alike g L r s → Alike g L a b
  | call {a b : NodeId} {r s : Option NodeId} {method : String} {as bs : List NodeId} :
      g.kindOf a = some (.call r method as) → g.kindOf b = some (.call s method bs) →
      Option.Rel (Alike g L) r s → List.Forall₂ (Alike g L) as bs → Alike g L a b

end FlowGraph

namespace Checker

variable {c : Checker} {g : FlowGraph}

/-- The keys of nodes that follow nodes with known keys. -/
private def keysAfter (c : Checker) (known : Array (Option FlowKey)) (nodes : List Node) :
    Array (Option FlowKey) :=
  nodes.foldl (fun keys node => keys.push (c.nodeKey keys node.kind)) known

private theorem keysAfter_known (nodes : List Node) {known : Array (Option FlowKey)} {i : Nat}
    (hi : i < known.size) : (c.keysAfter known nodes)[i]? = known[i]? := by
  induction nodes generalizing known with
  | nil => rfl
  | cons n rest ih =>
      have hlt : i < (known.push (c.nodeKey known n.kind)).size := by
        rw [Array.size_push]
        omega
      rw [keysAfter, List.foldl_cons, ← keysAfter, ih hlt, Array.getElem?_push_lt hi,
        Array.getElem?_eq_getElem hi]

/-- Each key comes from the keys of the nodes before it. -/
private theorem keysAfter_getElem? (nodes : List Node) (known : Array (Option FlowKey))
    {j : Nat} {n : Node} (hn : nodes[j]? = some n) :
    ∃ before : Array (Option FlowKey),
      (∀ i < known.size + j, before[i]? = (c.keysAfter known nodes)[i]?) ∧
      (c.keysAfter known nodes)[known.size + j]? = some (c.nodeKey before n.kind) := by
  induction nodes generalizing known j with
  | nil => cases hn
  | cons m rest ih =>
      cases j with
      | zero =>
          cases hn
          refine ⟨known, fun i hi => (keysAfter_known _ hi).symm, ?_⟩
          have hlast : known.size < (known.push (c.nodeKey known n.kind)).size := by
            rw [Array.size_push]
            omega
          rw [keysAfter, List.foldl_cons, ← keysAfter, Nat.add_zero, keysAfter_known rest hlast,
            Array.getElem?_push_size]
      | succ j =>
          obtain ⟨before, hbefore, hkey⟩ := ih (known.push (c.nodeKey known m.kind)) hn
          rw [Array.size_push] at hbefore hkey
          refine ⟨before, fun i hi => hbefore i (by omega), ?_⟩
          rw [show known.size + (j + 1) = known.size + 1 + j by omega]
          exact hkey

private theorem keysAfter_size (nodes : List Node) (known : Array (Option FlowKey)) :
    (c.keysAfter known nodes).size = known.size + nodes.length := by
  induction nodes generalizing known with
  | nil => rfl
  | cons n rest ih =>
      rw [keysAfter, List.foldl_cons, ← keysAfter, ih, Array.size_push, List.length_cons]
      omega

private theorem nodeKeys_eq : c.nodeKeys g = c.keysAfter #[] g.nodes.toList := by
  rw [nodeKeys, keysAfter, Array.foldl_toList]

theorem nodeKeys_size (c : Checker) (g : FlowGraph) : (c.nodeKeys g).size = g.nodeCount := by
  rw [nodeKeys_eq, keysAfter_size]
  exact Nat.zero_add _

/-- The key of a node depends only on the keys of its operands. -/
theorem nodeKey_congr {before after : Array (Option FlowKey)} {kind : NodeKind}
    (h : ∀ id ∈ kind.operands, before.getD id none = after.getD id none) :
    c.nodeKey before kind = c.nodeKey after kind := by
  cases kind with
  | fieldRead receiver field =>
      simp only [nodeKey, h receiver (by simp [NodeKind.operands])]
  | call receiver method args =>
      have hargs : args.mapM (fun id => before.getD id none) =
          args.mapM (fun id => after.getD id none) :=
        mapM_some_congr fun id hid => h id (by simp [NodeKind.operands, hid])
      cases receiver with
      | none => simp only [nodeKey, hargs]
      | some receiver =>
          simp only [nodeKey, hargs, h receiver (by simp [NodeKind.operands])]
  | _ => rfl

/-- The key of a node, if it has one. -/
def keyOf (c : Checker) (g : FlowGraph) (id : NodeId) : Option FlowKey :=
  (c.nodeKeys g).getD id none

theorem keyOf_eq (hg : g.Ordered) (id : NodeId) :
    c.keyOf g id = (g.kindOf id).bind (c.nodeKey (c.nodeKeys g)) := by
  cases hn : g.node? id with
  | none =>
      have hsize : (c.nodeKeys g).size ≤ id := by
        rw [nodeKeys_size]
        exact Array.getElem?_eq_none_iff.mp hn
      simp [keyOf, FlowGraph.kindOf, hn, Array.getD, Nat.not_lt.mpr hsize]
  | some n =>
      obtain ⟨before, hbefore, hkey⟩ := keysAfter_getElem? (c := c) g.nodes.toList #[]
        (j := id) (n := n) (by simpa [FlowGraph.node?] using hn)
      rw [← nodeKeys_eq] at hbefore hkey
      simp only [List.size_toArray, List.length_nil, Nat.zero_add] at hbefore hkey
      rw [keyOf, Array.getD_eq_getD_getElem?, hkey, FlowGraph.kindOf, hn]
      refine nodeKey_congr fun o ho => ?_
      rw [Array.getD_eq_getD_getElem?, Array.getD_eq_getD_getElem?, hbefore o (hg.operands hn o ho)]

/-- A key is that of a node, made from the keys of the nodes before it. -/
theorem exists_nodeKey {id : NodeId} {k : FlowKey}
    (h : (c.nodeKeys g).getD id none = some k) :
    ∃ before node, g.node? id = some node ∧ c.nodeKey before node.kind = some k := by
  cases hn : g.node? id with
  | none =>
      have hsize : (c.nodeKeys g).size ≤ id := by
        rw [nodeKeys_size]
        exact Array.getElem?_eq_none_iff.mp hn
      simp [Array.getD, Nat.not_lt.mpr hsize] at h
  | some n =>
      obtain ⟨before, -, hkey⟩ := keysAfter_getElem? (c := c) g.nodes.toList #[]
        (j := id) (n := n) (by simpa [FlowGraph.node?] using hn)
      rw [← nodeKeys_eq] at hkey
      simp only [List.size_toArray, List.length_nil, Nat.zero_add] at hkey
      rw [Array.getD_eq_getD_getElem?, hkey] at h
      exact ⟨before, n, rfl, h⟩

/-- The receiver in the key of a call; a call is not keyed if its receiver has no key that a
store may hold. -/
private def receiverKey (K : Array (Option FlowKey)) : Option NodeId → Option (Option FlowKey)
  | none => some none
  | some r => ((K.getD r none).filter FlowKey.isRefinable).map some

private theorem receiverKey_iff {K : Array (Option FlowKey)} {receiver : Option NodeId}
    {key : Option FlowKey} : receiverKey K receiver = some key ↔
    Option.Rel (fun r k => (K.getD r none).filter FlowKey.isRefinable = some k) receiver key := by
  constructor
  · intro h
    cases receiver with
    | none =>
        cases h
        exact .none
    | some r =>
        obtain ⟨k, hk, rfl⟩ := Option.map_eq_some_iff.mp h
        exact .some hk
  · intro h
    cases h with
    | none => rfl
    | some hk => exact Option.map_eq_some_iff.mpr ⟨_, hk, rfl⟩

private theorem nodeKey_call {K : Array (Option FlowKey)} {receiver : Option NodeId}
    {method : String} {args : List NodeId} {k : FlowKey} :
    c.nodeKey K (.call receiver method args) = some k ↔ c.signatures.isPure method = true ∧
      ∃ key keys, Option.Rel (fun r k => (K.getD r none).filter FlowKey.isRefinable = some k)
        receiver key ∧
      List.Forall₂ (fun arg k => K.getD arg none = some k) args keys ∧
      .pureCall key method keys = k := by
  have hkey : c.nodeKey K (.call receiver method args) =
      if c.signatures.isPure method then
        (receiverKey K receiver).bind fun key =>
          (args.mapM fun id => K.getD id none).bind fun keys => some (.pureCall key method keys)
      else none := by
    cases receiver <;> rfl
  simp only [hkey, Option.ite_none_right_eq_some, Option.bind_eq_some_iff, receiverKey_iff,
    mapM_some_iff, Option.some.injEq, exists_and_left]

/-- What has a key, shape by shape of the key. -/
theorem keyOf_eq_some (hg : g.Ordered) {id : NodeId} {k : FlowKey} :
    c.keyOf g id = some k ↔ match k with
      | .local name => ∃ var, g.kindOf id = some (.localRead var) ∧ var.name = name
      | .this => g.kindOf id = some .this
      | .literal text => ∃ value, g.kindOf id = some (.literal value) ∧ value.text = text
      | .field key field => ∃ receiver, g.kindOf id = some (.fieldRead receiver field) ∧
          (c.keyOf g receiver).filter FlowKey.isRefinable = some key
      | .pureCall key method keys => c.signatures.isPure method = true ∧ ∃ receiver args,
          g.kindOf id = some (.call receiver method args) ∧
          Option.Rel (fun r k => (c.keyOf g r).filter FlowKey.isRefinable = some k)
            receiver key ∧
          List.Forall₂ (fun arg k => c.keyOf g arg = some k) args keys := by
  rw [keyOf_eq hg]
  cases hkind : g.kindOf id with
  | none => cases k <;> simp
  | some kind =>
      cases kind with
      | call receiver method args =>
          rw [Option.bind_some, nodeKey_call]
          cases k with
          | pureCall key found keys =>
              constructor
              · rintro ⟨hpure, key, keys, hkey, hkeys, heq⟩
                cases heq
                exact ⟨hpure, receiver, args, rfl, hkey, hkeys⟩
              · rintro ⟨hpure, receiver, args, heq, hkey, hkeys⟩
                cases heq
                exact ⟨hpure, key, keys, hkey, hkeys, rfl⟩
          | _ => simp
      | _ => cases k <;> simp [nodeKey, keyOf, and_comm]

section Identify

variable {L : Literal → Literal → Prop}

theorem keyOf_filter {id : NodeId} {k : FlowKey}
    (h : (c.keyOf g id).filter FlowKey.isRefinable = some k) : c.keyOf g id = some k :=
  (Option.filter_eq_some_iff.mp h).1

theorem lt_of_operand (hg : g.Ordered) {id : NodeId} {kind : NodeKind} {o : NodeId}
    (hkind : g.kindOf id = some kind) (ho : o ∈ kind.operands) : o < id := by
  obtain ⟨n, hn, rfl⟩ := Option.map_eq_some_iff.mp hkind
  exact hg.operands hn o ho

/-- Lists of keyed nodes have the same keys exactly when they are alike one by one. -/
theorem keys_eq_iff {as bs : List NodeId} {ks ks' : List FlowKey}
    (has : List.Forall₂ (fun a k => c.keyOf g a = some k) as ks)
    (hbs : List.Forall₂ (fun b k => c.keyOf g b = some k) bs ks')
    (ih : ∀ a ∈ as, ∀ {b k k'}, c.keyOf g a = some k → c.keyOf g b = some k' →
      (k = k' ↔ g.Alike L a b)) :
    ks = ks' ↔ List.Forall₂ (g.Alike L) as bs := by
  induction has generalizing bs ks' with
  | nil => cases hbs <;> simp
  | cons ha _ ihs =>
      cases hbs with
      | nil => simp
      | cons hb hbs =>
          rw [List.cons.injEq, List.forall₂_cons, ih _ List.mem_cons_self ha hb,
            ihs hbs fun a ha => ih a (List.mem_cons_of_mem _ ha)]

/-- Receivers of keyed calls have the same keys exactly when they are alike. -/
theorem receiverKey_eq_iff {r s : Option NodeId} {key key' : Option FlowKey}
    (hr : Option.Rel (fun r k => (c.keyOf g r).filter FlowKey.isRefinable = some k) r key)
    (hs : Option.Rel (fun r k => (c.keyOf g r).filter FlowKey.isRefinable = some k) s key')
    (ih : ∀ a ∈ r, ∀ {b k k'}, c.keyOf g a = some k → c.keyOf g b = some k' →
      (k = k' ↔ g.Alike L a b)) :
    key = key' ↔ Option.Rel (g.Alike L) r s := by
  cases hr with
  | none =>
      cases hs with
      | none => exact ⟨fun _ => .none, fun _ => rfl⟩
      | some => exact ⟨nofun, nofun⟩
  | some hr =>
      cases hs with
      | none => exact ⟨nofun, nofun⟩
      | some hs =>
          rw [Option.some.injEq, ih _ rfl (keyOf_filter hr) (keyOf_filter hs)]
          exact ⟨.some, fun h => by cases h; assumption⟩

/-- Where `L` says of the literals of a graph whether they have the same text, two keys are
equal exactly when the expressions are alike up to `L`. -/
theorem key_eq_iff (hg : g.Ordered)
    (hL : ∀ v w a b, g.kindOf a = some (.literal v) → g.kindOf b = some (.literal w) →
      (v.text = w.text ↔ L v w))
    {a b : NodeId} {k k' : FlowKey} (ha : c.keyOf g a = some k) (hb : c.keyOf g b = some k') :
    k = k' ↔ g.Alike L a b := by
  induction a using Nat.strongRecOn generalizing b k k' with
  | _ a ih =>
      constructor
      · rintro rfl
        rw [keyOf_eq_some hg] at ha hb
        cases k with
        | «local» name =>
            obtain ⟨x, hx, rfl⟩ := ha
            obtain ⟨y, hy, hname⟩ := hb
            exact .localRead hx hy hname.symm
        | this => exact .this ha hb
        | literal text =>
            obtain ⟨v, hv, rfl⟩ := ha
            obtain ⟨w, hw, htext⟩ := hb
            exact .literal hv hw ((hL v w a b hv hw).mp htext.symm)
        | field key field =>
            obtain ⟨r, hr, hkey⟩ := ha
            obtain ⟨s, hs, hkey'⟩ := hb
            have hlt := lt_of_operand hg hr (List.mem_singleton_self _)
            exact .fieldRead hr hs
              ((ih r hlt (keyOf_filter hkey) (keyOf_filter hkey')).mp rfl)
        | pureCall key method keys =>
            obtain ⟨-, r, as, hr, hkey, hkeys⟩ := ha
            obtain ⟨-, s, bs, hs, hkey', hkeys'⟩ := hb
            have hlt (o : NodeId) (ho : o ∈ r.toList ++ as) : o < a := lt_of_operand hg hr ho
            refine .call hr hs ((receiverKey_eq_iff hkey hkey' fun o ho => ?_).mp rfl)
              ((keys_eq_iff hkeys hkeys' fun o ho => ?_).mp rfl)
            · exact ih o (hlt o (by simp [Option.mem_toList.mpr ho]))
            · exact ih o (hlt o (by simp [ho]))
      · intro halike
        rw [keyOf_eq hg] at ha hb
        cases halike with
        | literal hv hw hvw =>
            rw [hv] at ha
            rw [hw] at hb
            cases ha
            cases hb
            exact congrArg FlowKey.literal ((hL _ _ _ _ hv hw).mpr hvw)
        | localRead hx hy hname =>
            rw [hx] at ha
            rw [hy] at hb
            cases ha
            cases hb
            exact congrArg FlowKey.local hname
        | this hx hy =>
            rw [hx] at ha
            rw [hy] at hb
            cases ha
            cases hb
            rfl
        | fieldRead hr hs halike =>
            rw [hr] at ha
            rw [hs] at hb
            obtain ⟨key, hkey, rfl⟩ := Option.map_eq_some_iff.mp ha
            obtain ⟨key', hkey', rfl⟩ := Option.map_eq_some_iff.mp hb
            have hlt := lt_of_operand hg hr (List.mem_singleton_self _)
            rw [(ih _ hlt (keyOf_filter hkey) (keyOf_filter hkey')).mpr halike]
        | call hr hs hrel hall =>
            have hlt (o : NodeId) (ho : o ∈ _) : o < a := lt_of_operand hg hr ho
            rw [hr, Option.bind_some, nodeKey_call] at ha
            rw [hs, Option.bind_some, nodeKey_call] at hb
            obtain ⟨-, key, keys, hkey, hkeys, rfl⟩ := ha
            obtain ⟨-, key', keys', hkey', hkeys', rfl⟩ := hb
            rw [(receiverKey_eq_iff hkey hkey' fun o ho => ih o (hlt o ?_)).mpr hrel,
              (keys_eq_iff hkeys hkeys' fun o ho => ih o (hlt o ?_)).mpr hall]
            · simp [NodeKind.operands, ho]
            · simp [NodeKind.operands, Option.mem_toList.mpr ho]

/-- Keys identify expressions up to the text of their literals. Where no two literals of a
unit have the same text, they identify them. -/
theorem nodeKeys_identify (c : Checker) {u : ProgramUnit} {g : FlowGraph}
    (h : u.lower = .ok g) {a b : NodeId} {k k' : FlowKey}
    (ha : (c.nodeKeys g).getD a none = some k) (hb : (c.nodeKeys g).getD b none = some k') :
    (k = k' ↔ g.Alike (fun v w => v.text = w.text) a b) ∧
    ((∀ v w a b, g.kindOf a = some (.literal v) → g.kindOf b = some (.literal w) →
        v.text = w.text → v = w) →
      (k = k' ↔ g.Alike (· = ·) a b)) := by
  have hg := ProgramUnit.lower_ordered h
  refine ⟨key_eq_iff hg (fun _ _ _ _ _ _ => Iff.rfl) ha hb, fun hdistinct => ?_⟩
  exact key_eq_iff hg (fun v w a b hv hw => ⟨hdistinct v w a b hv hw, congrArg _⟩) ha hb

end Identify

end Checker

/-- A partial table with a pure lookup. -/
def lookups : CheckerDeclaration where
  name := none
  qualifiers := [⟨"MaybeNull", []⟩, ⟨"Present", ["MaybeNull"]⟩]
  implicit := []
  signatures := [⟨"find", [none], none, some "MaybeNull", true, [], []⟩]
  fields := []
  refinesEquality := true

/-- A unit that tests what it finds for a number and returns what it finds for a string. -/
def collidingUnit : ProgramUnit where
  name := "colliding"
  params := [⟨"known", some "Present"⟩]
  returnQualifier := some "Present"
  body := [.ifElse
    (.binary .eq (.call none "find" [.literal (.int 1)] []) (.var "known"))
    [.returnValue (some (.call none "find" [.literal (.string "1")] []))] none]

/-- The key that the two lookups have. -/
def foundKey : FlowKey := .pureCall none "find" [.literal "1"]

private theorem collidingUnit_runs : ∃ c g, Checker.ofDeclaration lookups = .ok c ∧
    collidingUnit.lower = .ok g ∧
    (c.nodeKeys g).getD 1 none = some foundKey ∧ (c.nodeKeys g).getD 5 none = some foundKey ∧
    [0, 1, 4, 5].map g.kindOf = [some (.literal (.int 1)), some (.call none "find" [0]),
      some (.literal (.string "1")), some (.call none "find" [4])] := by
  have hok : ((Checker.ofDeclaration lookups).toOption.bind fun c =>
      collidingUnit.lower.toOption.bind fun g =>
        if (c.nodeKeys g).getD 1 none = some foundKey ∧
            (c.nodeKeys g).getD 5 none = some foundKey ∧
            [0, 1, 4, 5].map g.kindOf = [some (.literal (.int 1)), some (.call none "find" [0]),
              some (.literal (.string "1")), some (.call none "find" [4])] then
          some ()
        else none).isSome = true := by
    decide +kernel
  obtain ⟨_, h⟩ := Option.isSome_iff_exists.mp hok
  obtain ⟨c, hc, h⟩ := Option.bind_eq_some_iff.mp h
  obtain ⟨g, hg, h⟩ := Option.bind_eq_some_iff.mp h
  exact ⟨c, g, ok_of_toOption hc, ok_of_toOption hg, (Option.ite_none_right_eq_some.mp h).1⟩

theorem collidingUnit_identify : ∃ c g, Checker.ofDeclaration lookups = .ok c ∧
    collidingUnit.lower = .ok g ∧ g.Alike (fun v w => v.text = w.text) 1 5 := by
  obtain ⟨c, g, hc, hg, ha, hb, -⟩ := collidingUnit_runs
  exact ⟨c, g, hc, hg, (Checker.nodeKeys_identify c hg ha hb).1.mp rfl⟩

/-- The two lookups have one key and denote different expressions. -/
theorem collidingUnit_collides : ∃ c g, Checker.ofDeclaration lookups = .ok c ∧
    collidingUnit.lower = .ok g ∧
    (c.nodeKeys g).getD 1 none = some foundKey ∧ (c.nodeKeys g).getD 5 none = some foundKey ∧
    ¬ g.Alike (· = ·) 1 5 := by
  obtain ⟨c, g, hc, hg, ha, hb, hkinds⟩ := collidingUnit_runs
  simp only [List.map_cons, List.map_nil, List.cons.injEq, and_true] at hkinds
  obtain ⟨h0, h1, h4, h5⟩ := hkinds
  refine ⟨c, g, hc, hg, ha, hb, fun halike => ?_⟩
  have hargs : g.Alike (· = ·) 0 4 := by
    cases halike <;> simp_all
  cases hargs <;> simp_all

end FlowTyping
