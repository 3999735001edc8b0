import FlowTyping.Flow.Refinement
import FlowTyping.Proofs.Reordering.Checkers

/-!
Stores and transfer results with their qualifiers renumbered. Every operation commutes with a
renumbering of its hierarchy.
-/

namespace FlowTyping

variable (π : Qualifier → Qualifier)

def Store.renumber (s : Store) : Store :=
  ⟨s.entries.map fun e => (e.1, π e.2), π s.top, s.reachable⟩

def TransferResult.renumber : TransferResult → TransferResult
  | regular store => regular (store.renumber π)
  | split thenStore elseStore => split (thenStore.renumber π) (elseStore.renumber π)

variable {π} {h h' : Hierarchy}

namespace Store

variable {s t : Store}

@[simp]
theorem keys_renumber : (s.renumber π).keys = s.keys := by
  simp [keys, renumber]

@[simp]
theorem get?_renumber (key : FlowKey) : (s.renumber π).get? key = (s.get? key).map π := by
  unfold get?
  change Option.map Prod.snd ((s.entries.map _).find? _) = _
  rw [List.find?_map, Option.map_map, Option.map_map]
  rfl

@[simp]
theorem valueOrTop_renumber (key : FlowKey) :
    (s.renumber π).valueOrTop key = π (s.valueOrTop key) := by
  unfold valueOrTop
  rw [get?_renumber]
  cases s.get? key <;> rfl

theorem insertEntry_renumber (key : FlowKey) (q : Qualifier)
    (entries : List (FlowKey × Qualifier)) :
    insertEntry key (π q) (entries.map fun e => (e.1, π e.2)) =
      (insertEntry key q entries).map fun e => (e.1, π e.2) := by
  induction entries with
  | nil => rfl
  | cons entry rest ih =>
      rw [List.map_cons, insertEntry, insertEntry, ih]
      cases key.compare entry.1 <;> rfl

theorem insert_renumber (key : FlowKey) (q : Qualifier) :
    (s.renumber π).insert key (π q) = (s.insert key q).renumber π := by
  unfold insert
  split
  · exact congrArg (fun entries => Store.mk entries _ _) (insertEntry_renumber key q s.entries)
  · rfl

theorem retain_renumber (keep : FlowKey → Bool) :
    (s.renumber π).retain keep = (s.retain keep).renumber π := by
  unfold retain
  exact congrArg (fun entries => Store.mk entries _ _) List.filter_map

end Store

namespace Hierarchy.Renumbers

variable {s t : Store} {r x : TransferResult}

theorem new (hπ : h.Renumbers h' π) : Store.new h' = (Store.new h).renumber π :=
  congrArg (fun top => Store.mk [] top true) hπ.top

theorem unreachable (hπ : h.Renumbers h' π) :
    Store.unreachable h' = (Store.unreachable h).renumber π :=
  congrArg (fun top => Store.mk [] top false) hπ.top

theorem refine (hπ : h.Renumbers h' π) (key : FlowKey) (q : Qualifier) :
    (s.renumber π).refine h' key (π q) = (s.refine h key q).renumber π := by
  unfold Store.refine
  rw [Store.valueOrTop_renumber, hπ.meet, Store.insert_renumber]

theorem joinValue (hπ : h.Renumbers h' π) (a b : Option Qualifier) :
    Store.joinValue h' (a.map π) (b.map π) = π (Store.joinValue h a b) := by
  cases a with
  | none => exact hπ.top
  | some a =>
      cases b with
      | none => exact hπ.top
      | some b => exact hπ.join a b

theorem joinStores (hπ : h.Renumbers h' π) :
    (s.renumber π).join h' (t.renumber π) = (s.join h t).renumber π := by
  have hkeys (keys : List FlowKey) (found : List (FlowKey × Qualifier)) :
      keys.foldl (fun found key => Store.insertEntry key h'.top found)
          (found.map fun e => (e.1, π e.2)) =
        (keys.foldl (fun found key => Store.insertEntry key h.top found) found).map
          fun e => (e.1, π e.2) := by
    induction keys generalizing found with
    | nil => rfl
    | cons key rest ih =>
        rw [List.foldl_cons, List.foldl_cons, hπ.top, Store.insertEntry_renumber, ← hπ.top, ih]
  unfold Store.join
  rw [show (s.renumber π).reachable = s.reachable from rfl,
    show (t.renumber π).reachable = t.reachable from rfl, Store.keys_renumber, Store.keys_renumber]
  split
  · rfl
  · split
    · rfl
    · have hall := hkeys (s.keys ++ t.keys) []
      rw [List.map_nil] at hall
      simp only [hall, Store.get?_renumber, hπ.joinValue, List.map_map, Function.comp_def]
      simp only [Store.renumber, List.map_map, Function.comp_def]

theorem sameStores (hπ : h.Renumbers h' π) :
    (s.renumber π).same (t.renumber π) = s.same t := by
  unfold Store.same
  simp only [Store.keys_renumber, Store.valueOrTop_renumber, hπ.injective.eq_iff]
  rfl

theorem storeText (hπ : h.Renumbers h' π) : (s.renumber π).text h' = s.text h := by
  unfold Store.text
  simp only [Store.renumber, List.map_map, Function.comp_def, hπ.name]

theorem collapse (hπ : h.Renumbers h' π) :
    (r.renumber π).collapse h' = (r.collapse h).renumber π := by
  cases r with
  | regular store => rfl
  | split thenStore elseStore => exact hπ.joinStores

theorem joinResults (hπ : h.Renumbers h' π) :
    (r.renumber π).join h' (x.renumber π) = (r.join h x).renumber π := by
  have hcollapsed : TransferResult.regular
        (((r.renumber π).collapse h').join h' ((x.renumber π).collapse h')) =
      (TransferResult.regular ((r.collapse h).join h (x.collapse h))).renumber π := by
    rw [hπ.collapse, hπ.collapse, hπ.joinStores]
    rfl
  cases r with
  | regular store => exact hcollapsed
  | split t e =>
      cases x with
      | regular store => exact hcollapsed
      | split t' e' =>
          exact congrArg₂ TransferResult.split hπ.joinStores hπ.joinStores

theorem sameResults (hπ : h.Renumbers h' π) :
    (r.renumber π).same (x.renumber π) = r.same x := by
  cases r <;> cases x <;> simp [TransferResult.renumber, TransferResult.same, hπ.sameStores]

theorem resultText (hπ : h.Renumbers h' π) : (r.renumber π).text h' = r.text h := by
  cases r <;> simp [TransferResult.renumber, TransferResult.text, hπ.storeText]

end Hierarchy.Renumbers

namespace TransferResult

variable {r : TransferResult}

theorem thenStore_renumber : (r.renumber π).thenStore = r.thenStore.renumber π := by
  cases r <;> rfl

theorem elseStore_renumber : (r.renumber π).elseStore = r.elseStore.renumber π := by
  cases r <;> rfl

theorem swap_renumber : (r.renumber π).swap = r.swap.renumber π := by
  cases r <;> rfl

end TransferResult

/-- The qualifiers of nodes, renumbered. -/
abbrev renumberValues (π : Qualifier → Qualifier) (values : Array (Option Qualifier)) :
    Array (Option Qualifier) :=
  values.map (Option.map π)

theorem getD_renumberValues (values : Array (Option Qualifier)) (id : NodeId) :
    (renumberValues π values).getD id none = (values.getD id none).map π := by
  rw [Array.getD_eq_getD_getElem?, Array.getD_eq_getD_getElem?, Array.getElem?_map]
  cases values[id]? <;> rfl

/-- One test is another one with its qualifiers renumbered. -/
structure TestContext.Renumbers (c c' : TestContext) (π : Qualifier → Qualifier) : Prop where
  node : c'.node = c.node
  hierarchy : c.hierarchy.Renumbers c'.hierarchy π
  method? (name : String) :
    c'.signatures.method? name = (c.signatures.method? name).map (MethodSignature.map π)
  values : c'.values = renumberValues π c.values
  keys : c'.keys = c.keys

namespace TestContext.Renumbers

variable {c c' : TestContext} {s : Store}

theorem value (hc : c.Renumbers c' π) (id : NodeId) : c'.value id = π (c.value id) := by
  unfold TestContext.value
  rw [hc.values, getD_renumberValues, hc.hierarchy.top]
  cases c.values.getD id none <;> rfl

theorem key? (hc : c.Renumbers c' π) (id : NodeId) : c'.key? id = c.key? id := by
  unfold TestContext.key?
  rw [hc.keys]

/-- The two stores of a split with their qualifiers renumbered. -/
abbrev stores (π : Qualifier → Qualifier) : Store × Store → Store × Store :=
  Prod.map (Store.renumber π) (Store.renumber π)

theorem splitEquality (hc : c.Renumbers c' π) (op : BinOp) (lhs rhs : NodeId) :
    Refinement.splitEquality c' (s.renumber π) op lhs rhs =
      (Refinement.splitEquality c s op lhs rhs).map (stores π) := by
  have hequal (q : Qualifier) (keys : List FlowKey) (s : Store) :
      keys.foldl (fun s key => s.refine c'.hierarchy key (π q)) (s.renumber π) =
        (keys.foldl (fun s key => s.refine c.hierarchy key q) s).renumber π := by
    induction keys generalizing s with
    | nil => rfl
    | cons key rest ih => rw [List.foldl_cons, List.foldl_cons, hc.hierarchy.refine, ih]
  unfold Refinement.splitEquality
  dsimp only
  rw [hc.key?, hc.key?, hc.value, hc.value, hc.hierarchy.meet, hequal]
  split
  · rfl
  · split <;> rfl

theorem refineOutcome (hc : c.Renumbers c' π) (receiver : Option NodeId) (args : List NodeId)
    (found : Store × Store) (p : ConditionalPostcondition Qualifier) :
    Refinement.refineOutcome c' receiver args (stores π found)
        ⟨p.result, p.target, π p.qualifier⟩ =
      (Refinement.refineOutcome c receiver args found p).map (stores π) := by
  have hkey : c'.key? = c.key? := funext hc.key?
  unfold Refinement.refineOutcome
  rw [hkey]
  dsimp only
  cases (p.target.operand? receiver args).bind c.key? with
  | none => rfl
  | some key =>
      simp only [Option.map_some, Prod.map_fst, Prod.map_snd, hc.hierarchy.refine]
      split <;> rfl

theorem splitCall (hc : c.Renumbers c' π) (receiver : Option NodeId) (args : List NodeId)
    (posts : List (ConditionalPostcondition Qualifier)) :
    Refinement.splitCall c' (s.renumber π) receiver args
        (posts.map fun p => ⟨p.result, p.target, π p.qualifier⟩) =
      (Refinement.splitCall c s receiver args posts).map (stores π) := by
  have hfold (found : Option (Store × Store)) :
      (posts.map fun p => (⟨p.result, p.target, π p.qualifier⟩ :
          ConditionalPostcondition Qualifier)).foldl
        (fun found p => (Refinement.refineOutcome c' receiver args
          (found.getD (s.renumber π, s.renumber π)) p).or found) (found.map (stores π)) =
      (posts.foldl (fun found p => (Refinement.refineOutcome c receiver args
        (found.getD (s, s)) p).or found) found).map (stores π) := by
    induction posts generalizing found with
    | nil => rfl
    | cons p rest ih =>
        have hfound : (found.map (stores π)).getD (s.renumber π, s.renumber π) =
            stores π (found.getD (s, s)) := by
          cases found <;> rfl
        rw [List.map_cons, List.foldl_cons, List.foldl_cons, hfound, hc.refineOutcome,
          ← Option.map_or, ih]
  exact hfold none

theorem appliesTo (hc : c.Renumbers c' π) (kind : NodeKind) (r : Refinement) :
    r.appliesTo c'.signatures kind = r.appliesTo c.signatures kind := by
  cases r with
  | equality => rfl
  | postcondition =>
      cases kind with
      | call receiver method args =>
          unfold Refinement.appliesTo
          dsimp only
          rw [hc.method?]
          cases c.signatures.method? method with
          | none => rfl
          | some signature => simp [MethodSignature.map]
      | _ => rfl

theorem split (hc : c.Renumbers c' π) (r : Refinement) :
    r.split c' (s.renumber π) = (r.split c s).map (stores π) := by
  unfold Refinement.split
  rw [hc.node]
  cases r with
  | equality =>
      cases c.node.kind with
      | binary op lhs rhs => exact hc.splitEquality op lhs rhs
      | _ => rfl
  | postcondition =>
      cases c.node.kind with
      | call receiver method args =>
          dsimp only
          rw [hc.method?]
          cases c.signatures.method? method with
          | none => rfl
          | some signature => exact hc.splitCall receiver args signature.ensuresIf
      | _ => rfl

theorem refine? (hc : c.Renumbers c' π) (refinements : List Refinement) :
    Refinement.refine? refinements c' (s.renumber π) =
      (Refinement.refine? refinements c s).map (TransferResult.renumber π) := by
  have happlies : (fun r : Refinement => r.appliesTo c'.signatures c'.node.kind) =
      fun r => r.appliesTo c.signatures c.node.kind := by
    funext r
    rw [hc.node, hc.appliesTo]
  unfold Refinement.refine?
  rw [happlies]
  induction refinements.filter fun r => r.appliesTo c.signatures c.node.kind with
  | nil => rfl
  | cons r rest ih =>
      rw [List.findSome?_cons, List.findSome?_cons, hc.split]
      cases r.split c s with
      | none => exact ih
      | some found => rfl

end TestContext.Renumbers

end FlowTyping
