import FlowTyping.Flow.Analysis
import FlowTyping.Proofs.Flow.Nodes

/-!
Writes to fields. A store forgets the keys that read the written field and the results of calls,
but not what is read from such a result. What it keeps, and the entry for the written field, is
true of the memory after the write unless the write moves the path to the receiver.
-/

namespace FlowTyping

namespace FlowKey

/-- The key is the result of a call, or is read from one. -/
def readsCall : FlowKey → Bool
  | pureCall _ _ _ => true
  | field receiver _ => receiver.readsCall
  | _ => false

theorem readsCall_of_isPureCall {k : FlowKey} (hk : k.isPureCall = true) : k.readsCall = true := by
  cases k with
  | pureCall receiver method args => rfl
  | _ => cases hk

theorem exists_field_of_readsCall {k : FlowKey} (hk : k.readsCall = true)
    (hcall : k.isPureCall = false) : ∃ receiver f, k = .field receiver f ∧
      receiver.readsCall = true := by
  cases k with
  | field receiver f => exact ⟨receiver, f, rfl, hk⟩
  | pureCall receiver method args => cases hcall
  | _ => cases hk

end FlowKey

namespace Store

variable {s : Store} {f : String} {k : FlowKey}

theorem get?_invalidateField : (s.invalidateField f).get? k =
    if k.mentionsField f || k.isPureCall then none else s.get? k := by
  rw [invalidateField, get?_retain]
  cases k.mentionsField f <;> cases k.isPureCall <;> rfl

/-- A write to a field drops the entries of the keys that read the field and of the calls, and
keeps all others. Those of keys that depend on a call in any way are dropped with them exactly
if none of them reads another field of the result of a call. -/
theorem invalidateField_forgets (s : Store) (f : String) :
    (∀ k, (s.invalidateField f).get? k =
      if k.mentionsField f || k.isPureCall then none else s.get? k) ∧
    ((∀ k, (s.invalidateField f).get? k =
        if k.mentionsField f || k.readsCall then none else s.get? k) ↔
      ∀ receiver g, (s.get? (.field receiver g)).isSome = true → receiver.readsCall = true →
        (FlowKey.field receiver g).mentionsField f = true) := by
  refine ⟨fun k => get?_invalidateField, ?_, ?_⟩
  · intro hall receiver g hentry hcall
    have hk := hall (.field receiver g)
    rw [get?_invalidateField] at hk
    cases hfield : (FlowKey.field receiver g).mentionsField f with
    | true => rfl
    | false =>
        have hreads : (FlowKey.field receiver g).readsCall = true := hcall
        rw [hfield, hreads] at hk
        have hnone : s.get? (.field receiver g) = none := hk
        rw [hnone] at hentry
        cases hentry
  · intro hfields k
    rw [get?_invalidateField]
    cases hfield : k.mentionsField f with
    | true => rfl
    | false =>
        cases hcall : k.isPureCall with
        | true => simp [FlowKey.readsCall_of_isPureCall hcall]
        | false =>
            cases hreads : k.readsCall with
            | false => rfl
            | true =>
                -- only a field of a call is left, which has no entry
                obtain ⟨receiver, g, rfl, hreceiver⟩ :=
                  FlowKey.exists_field_of_readsCall hreads hcall
                have hnone : s.get? (.field receiver g) = none := by
                  by_contra hsome
                  have h := hfields receiver g (Option.isSome_iff_ne_none.mpr hsome) hreceiver
                  rw [hfield] at h
                  cases h
                simpa using hnone

end Store

/-- Values that may be null and values that are not, with a pure method that finds an object. -/
def finding : CheckerDeclaration where
  name := none
  qualifiers := [⟨"MaybeNull", []⟩, ⟨"Present", ["MaybeNull"]⟩]
  implicit := []
  signatures := [⟨"find", [], none, some "Present", true, [], []⟩]
  fields := []
  refinesEquality := true

/-- A unit that tests a field of what it finds, and writes a field before it reads the other. -/
def rewiredUnit : ProgramUnit where
  name := "rewired"
  params := [⟨"known", some "Present"⟩]
  returnQualifier := some "Present"
  body := [.ifElse (.binary .eq (.field (.call none "find" [] []) "link") (.var "known"))
    [.assign (.field .this "next") (.var "known"),
      .returnValue (some (.field (.call none "find" [] []) "link"))] none]

/-- The write to `next` may change what is found, but its field `link` is taken for tested. -/
theorem rewiredUnit_keeps_call : ∃ c a s q, Checker.ofDeclaration finding = .ok c ∧
    c.analyze .standard rewiredUnit = .ok a ∧ a.fixpoint.inFact 4 = some (.regular s) ∧
    s.get? (.field (.pureCall none "find" []) "link") = some q ∧
    (FlowKey.field (.pureCall none "find" []) "link").readsCall = true ∧
    (s.invalidateField "next").get? (.field (.pureCall none "find" []) "link") = some q ∧
    c.hierarchy.name q = "Present" ∧ a.diagnostics = [] := by
  have hok : ((Checker.ofDeclaration finding).toOption.bind fun c =>
      (c.analyze .standard rewiredUnit).toOption.bind fun a =>
        (a.fixpoint.inFact 4).bind fun fact =>
          match fact with
          | .split _ _ => none
          | .regular s =>
              (s.get? (.field (.pureCall none "find" []) "link")).bind fun q =>
                if (s.invalidateField "next").get? (.field (.pureCall none "find" []) "link") =
                      some q ∧
                    c.hierarchy.name q = "Present" ∧ a.diagnostics = [] then some ()
                else none).isSome = true := by decide +kernel
  obtain ⟨_, h⟩ := Option.isSome_iff_exists.mp hok
  obtain ⟨c, hc, h⟩ := Option.bind_eq_some_iff.mp h
  obtain ⟨a, ha, h⟩ := Option.bind_eq_some_iff.mp h
  obtain ⟨fact, hfact, h⟩ := Option.bind_eq_some_iff.mp h
  cases fact with
  | split t e => cases h
  | regular s =>
      obtain ⟨q, hq, h⟩ := Option.bind_eq_some_iff.mp h
      obtain ⟨⟨hkept, hname, hdiagnostics⟩, -⟩ := Option.ite_none_right_eq_some.mp h
      exact ⟨c, a, s, q, ok_of_toOption hc, ok_of_toOption ha, hfact, hq, rfl, hkept, hname,
        hdiagnostics⟩

/-- The objects that variables and fields hold. Any two of them may be the same. -/
structure Memory (Obj : Type) where
  locals : String → Option Obj
  this : Option Obj
  fields : Obj → String → Option Obj

namespace Memory

variable {Obj : Type} {m : Memory Obj} {o v : Obj} {f : String}

/-- The object that a path denotes. The keys of calls and literals are no paths. -/
def eval (m : Memory Obj) : FlowKey → Option Obj
  | .local name => m.locals name
  | .this => m.this
  | .field receiver f => (eval m receiver).bind fun o => m.fields o f
  | .pureCall _ _ _ | .literal _ => none

variable [DecidableEq Obj]

/-- The memory after a write to a field of an object. -/
def write (m : Memory Obj) (o : Obj) (f : String) (v : Obj) : Memory Obj :=
  { m with fields := fun p g => if p = o ∧ g = f then some v else m.fields p g }

theorem fields_write_self : (m.write o f v).fields o f = some v := by simp [write]

theorem fields_write_of_ne {p : Obj} {g : String} (hne : p ≠ o ∨ g ≠ f) :
    (m.write o f v).fields p g = m.fields p g := by
  simp only [write, ite_eq_right_iff, and_imp]
  rintro rfl rfl
  exact absurd rfl (hne.resolve_left (absurd rfl))

/-- A path that does not read the written field denotes what it did before. -/
theorem eval_write {k : FlowKey} (hk : k.mentionsField f = false) :
    (m.write o f v).eval k = m.eval k := by
  induction k using FlowKey.readsCall.induct with
  | case1 receiver method args => rfl
  | case2 receiver g ih =>
      obtain ⟨hg, hreceiver⟩ : g ≠ f ∧ receiver.mentionsField f = false := by
        simpa [FlowKey.mentionsField] using hk
      simp only [eval, ih hreceiver, fields_write_of_ne (.inr hg)]
  | case3 k hcall hfield =>
      cases k with
      | field receiver g => exact absurd rfl (hfield receiver g)
      | _ => rfl

end Memory

/-- What the entries of the store say of paths is true: the qualifier of the object that a path
denotes is a subtype of the one stored. -/
def Store.TrueOf {Obj : Type} (h : Hierarchy) (actual : Obj → Qualifier) (m : Memory Obj)
    (s : Store) : Prop :=
  ∀ path q, s.get? path = some q → ∀ o, m.eval path = some o → h.isSubtype (actual o) q = true

theorem Store.TrueOf.of_entries {Obj : Type} {h : Hierarchy} {actual : Obj → Qualifier}
    {m : Memory Obj} {s : Store}
    (hs : ∀ e ∈ s.entries, ∀ o ∈ m.eval e.1, h.isSubtype (actual o) e.2 = true) :
    s.TrueOf h actual m := by
  intro path q hq o ho
  obtain ⟨e, he, rfl⟩ := Option.map_eq_some_iff.mp hq
  have hpath : e.1 = path := by simpa using List.find?_some he
  exact hs e (List.mem_of_find?_eq_some he) o (hpath ▸ ho)

section Aliasing

variable {Obj : Type} [DecidableEq Obj] {h : Hierarchy} {actual : Obj → Qualifier}
  {m : Memory Obj} {s : Store} {o v : Obj} {f : String} {path : FlowKey} {q : Qualifier}

theorem Store.TrueOf.invalidateField (hs : s.TrueOf h actual m) :
    (s.invalidateField f).TrueOf h actual (m.write o f v) := by
  intro k r hr p hp
  rw [Store.get?_invalidateField] at hr
  cases hfield : k.mentionsField f with
  | true => simp [hfield] at hr
  | false =>
      rw [Memory.eval_write hfield] at hp
      exact hs k r (Option.ite_none_left_eq_some.mp hr).2 p hp

/-- An entry for the written field is as true as what it says of the object that the path to the
receiver denotes after the write. -/
theorem Store.TrueOf.insert_field (hs : s.TrueOf h actual (m.write o f v))
    (hv : h.isSubtype (actual v) q = true) :
    (s.insert (.field path f) q).TrueOf h actual (m.write o f v) ↔
      ∀ moved w, (m.write o f v).eval path = some moved → moved ≠ o → m.fields moved f = some w →
        h.isSubtype (actual w) q = true := by
  constructor
  · intro htrue moved w hmoved hne hw
    refine htrue (.field path f) q ?_ w ?_
    · rw [Store.get?_insert, if_pos ⟨rfl, rfl⟩]
    · simp [Memory.eval, hmoved, Memory.fields_write_of_ne (.inl hne), hw]
  · intro hmoved k r hr p hp
    rw [Store.get?_insert] at hr
    split at hr
    · rename_i hk
      obtain ⟨rfl, -⟩ := hk
      obtain rfl := Option.some.inj hr
      obtain ⟨found, hfound, hread⟩ := Option.bind_eq_some_iff.mp hp
      by_cases hne : found = o
      · subst hne
        rw [Memory.fields_write_self] at hread
        obtain rfl := Option.some.inj hread
        exact hv
      · rw [Memory.fields_write_of_ne (.inl hne)] at hread
        exact hmoved found p hfound hne hread
    · exact hs k r hr p hp

namespace UnitAnalysis

variable {u : UnitAnalysis} {V : NodeValues} {node : Node} {receiver source : NodeId}

theorem transferNode_assignField {r : Qualifier} (input : TransferResult)
    (hkind : node.kind = .assign (.field receiver f) source)
    (hreceiver : V.getD receiver none = some r) (hsource : V.getD source none = some q)
    (hpath : u.key? receiver = some path) :
    u.transferNode V node input = .ok (u.clamp q (u.checker.fieldBound f),
      .regular (((input.collapse u.checker.hierarchy).invalidateField f).insert (.field path f)
        (u.clamp q (u.checker.fieldBound f)))) := by
  have hrefine (c : TestContext) (hc : c.node = node) (refinements : List Refinement) (s : Store) :
      Refinement.refine? refinements c s = none := by
    unfold Refinement.refine?
    have hnone : refinements.filter (fun r => r.appliesTo c.signatures c.node.kind) = [] := by
      rw [List.filter_eq_nil_iff]
      intro refinement _
      cases refinement <;> simp [Refinement.appliesTo, hc, hkind]
    rw [hnone]
    rfl
  have hread : node.kind.operands.forM (fun id => discard (operand V node id)) = .ok () := by
    refine forM_ok.mpr fun id hid => ?_
    rw [hkind] at hid
    rcases List.mem_pair.mp hid with rfl | rfl
    · rw [operand_ok.mpr hreceiver]
      rfl
    · rw [operand_ok.mpr hsource]
      rfl
  rw [transferNode_of_ne_not (by rw [hkind]; intro id h; cases h), hread]
  simp only [evaluate, hkind, operand_ok.mpr hsource, hpath]
  exact congrArg Except.ok (Prod.ext rfl (by rw [hrefine _ rfl]; rfl))

/-- The store after an assignment to a field is true of the memory after the write exactly if its
qualifier covers the field of the object to which the write moves the path to the receiver. A
path that does not read the field is not moved. -/
theorem assignField_trueOf {r : Qualifier} {i : TransferResult}
    (hkind : node.kind = .assign (.field receiver f) source)
    (hreceiver : V.getD receiver none = some r) (hsource : V.getD source none = some q)
    (hpath : u.key? receiver = some path) (hinput :
      (i.collapse u.checker.hierarchy).TrueOf u.checker.hierarchy actual m)
    (ho : m.eval path = some o) (hv : u.checker.hierarchy.isSubtype (actual v) q = true)
    (hbound : u.checker.hierarchy.isSubtype q (u.checker.fieldBound f) = true) :
    ∃ after, u.transferNode V node i = .ok (q, .regular after) ∧
      (after.TrueOf u.checker.hierarchy actual (m.write o f v) ↔
        ∀ moved w, (m.write o f v).eval path = some moved → moved ≠ o →
          m.fields moved f = some w → u.checker.hierarchy.isSubtype (actual w) q = true) ∧
      (path.mentionsField f = false →
        after.TrueOf u.checker.hierarchy actual (m.write o f v)) := by
  have hclamp : u.clamp q (u.checker.fieldBound f) = q := by rw [clamp, if_pos hbound]
  have htransfer := transferNode_assignField i hkind hreceiver hsource hpath
  rw [hclamp] at htransfer
  have hkept : ((i.collapse u.checker.hierarchy).invalidateField f).TrueOf
      u.checker.hierarchy actual (m.write o f v) := hinput.invalidateField
  refine ⟨_, htransfer, hkept.insert_field hv, fun hfield => (hkept.insert_field hv).mpr ?_⟩
  intro moved w hmoved hne
  rw [Memory.eval_write hfield, ho] at hmoved
  exact absurd (Option.some.inj hmoved).symm hne

end UnitAnalysis

end Aliasing

/-- Values that may be null and values that are not. -/
def nullness : CheckerDeclaration where
  name := none
  qualifiers := [⟨"MaybeNull", []⟩, ⟨"Present", ["MaybeNull"]⟩]
  implicit := []
  signatures := []
  fields := []
  refinesEquality := true

/-- A unit that writes a field through a path that reads this field. -/
def loopedUnit : ProgramUnit where
  name := "looped"
  params := [⟨"x", none⟩, ⟨"v", some "Present"⟩]
  returnQualifier := some "Present"
  body := [.assign (.field (.field (.var "x") "next") "next") (.var "v"),
    .returnValue (some (.field (.field (.var "x") "next") "next"))]

/-- Three objects: the first is its own successor, the last follows the second. -/
def ring : Memory (Fin 3) where
  locals := fun name => if name = "x" then some 0 else if name = "v" then some 1 else none
  this := none
  fields := fun o f => if f = "next" then (if o = 0 then some 0 else if o = 1 then some 2 else none)
    else none

/-- Of the three objects, the second alone is present. -/
def ringQualifier (o : Fin 3) : Qualifier := if o = 1 then ⟨1⟩ else ⟨0⟩

/-- The assignment of the unit, in its place and with the qualifiers of its operands. -/
theorem loopedUnit_assigns : ∃ c g a s node, Checker.ofDeclaration nullness = .ok c ∧
    loopedUnit.lower = .ok g ∧ c.analyze .standard loopedUnit = .ok a ∧
    c.initialStore loopedUnit = .ok s ∧ g.node? 3 = some node ∧
    node.kind = .assign (.field 1 "next") 2 ∧ a.values.getD 1 none = some ⟨0⟩ ∧
    a.values.getD 2 none = some ⟨1⟩ ∧
    (UnitAnalysis.new c g s).key? 1 = some (.field (.local "x") "next") ∧
    s.TrueOf c.hierarchy ringQualifier ring ∧ c.hierarchy.isSubtype ⟨1⟩ ⟨1⟩ = true ∧
    c.hierarchy.isSubtype ⟨0⟩ ⟨1⟩ = false ∧
    c.hierarchy.isSubtype ⟨1⟩ (c.fieldBound "next") = true ∧ a.diagnostics = [] := by
  have hok : ((Checker.ofDeclaration nullness).toOption.bind fun c =>
      loopedUnit.lower.toOption.bind fun g =>
        (c.analyze .standard loopedUnit).toOption.bind fun a =>
          (c.initialStore loopedUnit).toOption.bind fun s =>
            (g.node? 3).bind fun node =>
              if node.kind = .assign (.field 1 "next") 2 ∧ a.values.getD 1 none = some ⟨0⟩ ∧
                  a.values.getD 2 none = some ⟨1⟩ ∧
                  (UnitAnalysis.new c g s).key? 1 = some (.field (.local "x") "next") ∧
                  (∀ e ∈ s.entries, ∀ o ∈ ring.eval e.1,
                    c.hierarchy.isSubtype (ringQualifier o) e.2 = true) ∧
                  c.hierarchy.isSubtype ⟨1⟩ ⟨1⟩ = true ∧ c.hierarchy.isSubtype ⟨0⟩ ⟨1⟩ = false ∧
                  c.hierarchy.isSubtype ⟨1⟩ (c.fieldBound "next") = true ∧ a.diagnostics = [] then
                some ()
              else none).isSome = true := by decide +kernel
  obtain ⟨_, h⟩ := Option.isSome_iff_exists.mp hok
  obtain ⟨c, hc, h⟩ := Option.bind_eq_some_iff.mp h
  obtain ⟨g, hg, h⟩ := Option.bind_eq_some_iff.mp h
  obtain ⟨a, ha, h⟩ := Option.bind_eq_some_iff.mp h
  obtain ⟨s, hs, h⟩ := Option.bind_eq_some_iff.mp h
  obtain ⟨node, hnode, h⟩ := Option.bind_eq_some_iff.mp h
  obtain ⟨⟨hkind, hreceiver, hsource, hpath, htrue, hrest⟩, -⟩ :=
    Option.ite_none_right_eq_some.mp h
  exact ⟨c, g, a, s, node, ok_of_toOption hc, ok_of_toOption hg, ok_of_toOption ha,
    ok_of_toOption hs, hnode, hkind, hreceiver, hsource, hpath, .of_entries htrue, hrest⟩

theorem loopedUnit_assigns_true : ∃ c g a s node after, Checker.ofDeclaration nullness = .ok c ∧
    loopedUnit.lower = .ok g ∧ c.analyze .standard loopedUnit = .ok a ∧ g.node? 3 = some node ∧
    s.TrueOf c.hierarchy ringQualifier ring ∧
    (UnitAnalysis.new c g s).transferNode a.values node (.regular s) =
      .ok (⟨1⟩, .regular after) ∧
    (after.TrueOf c.hierarchy ringQualifier (ring.write 0 "next" 1) ↔
      ∀ moved w, (ring.write 0 "next" 1).eval (.field (.local "x") "next") = some moved →
        moved ≠ 0 → ring.fields moved "next" = some w →
          c.hierarchy.isSubtype (ringQualifier w) ⟨1⟩ = true) := by
  obtain ⟨c, g, a, s, node, hc, hg, ha, -, hnode, hkind, hreceiver, hsource, hpath, htrue, hcovers,
    -, hbound, -⟩ := loopedUnit_assigns
  obtain ⟨after, htransfer, hiff, -⟩ := UnitAnalysis.assignField_trueOf
    (u := UnitAnalysis.new c g s) (m := ring) (o := 0) (v := 1) (i := .regular s) hkind
    hreceiver hsource hpath htrue (by decide) hcovers hbound
  exact ⟨c, g, a, s, node, after, hc, hg, ha, hnode, htrue, htransfer, hiff⟩

/-- After `x.next.next = v` the path `x.next.next` denotes what follows `v`, if `x` was its own
successor; the store has the qualifier of `v` for it. -/
theorem loopedUnit_moves_receiver : ∃ c g a s node after, Checker.ofDeclaration nullness = .ok c ∧
    loopedUnit.lower = .ok g ∧ c.analyze .standard loopedUnit = .ok a ∧
    c.initialStore loopedUnit = .ok s ∧ g.node? 3 = some node ∧
    node.kind = .assign (.field 1 "next") 2 ∧
    (UnitAnalysis.new c g s).key? 1 = some (.field (.local "x") "next") ∧
    ring.eval (.field (.local "x") "next") = some 0 ∧ a.values.getD 2 none = some ⟨1⟩ ∧
    c.hierarchy.isSubtype (ringQualifier 1) ⟨1⟩ = true ∧
    c.hierarchy.isSubtype ⟨1⟩ (c.fieldBound "next") = true ∧
    s.TrueOf c.hierarchy ringQualifier ring ∧
    (UnitAnalysis.new c g s).transferNode a.values node (.regular s) =
      .ok (⟨1⟩, .regular after) ∧
    ¬ after.TrueOf c.hierarchy ringQualifier (ring.write 0 "next" 1) ∧ a.diagnostics = [] := by
  obtain ⟨c, g, a, s, node, hc, hg, ha, hs, hnode, hkind, hreceiver, hsource, hpath, htrue,
    hcovers, hfollows, hbound, hdiagnostics⟩ := loopedUnit_assigns
  have hclamp : (UnitAnalysis.new c g s).clamp ⟨1⟩
      ((UnitAnalysis.new c g s).checker.fieldBound "next") = ⟨1⟩ := if_pos hbound
  have htransfer := UnitAnalysis.transferNode_assignField (.regular s) hkind hreceiver hsource hpath
  rw [hclamp] at htransfer
  refine ⟨c, g, a, s, node,
    (s.invalidateField "next").insert (.field (.field (.local "x") "next") "next") ⟨1⟩, hc, hg, ha,
    hs, hnode, hkind, hpath, by decide, hsource, hcovers, hbound, htrue, htransfer, ?_,
    hdiagnostics⟩
  intro hafter
  have hentry := hafter (.field (.field (.local "x") "next") "next") ⟨1⟩
    (by rw [Store.get?_insert, if_pos ⟨rfl, rfl⟩]) 2 (by decide)
  exact absurd (hfollows.symm.trans hentry) (by decide)

end FlowTyping
