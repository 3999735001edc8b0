import FlowTyping.Checker.Basic
import FlowTyping.Proofs.Checker.Lattice

/-!
Checkers hold qualifiers of their own hierarchy only.
-/

namespace FlowTyping

namespace Hierarchy

variable {h : Hierarchy}

theorem has_of_lookup? {name : String} {q : Qualifier} (hq : h.lookup? name = some q) :
    h.Has q := by
  obtain ⟨i, hi, rfl⟩ := Option.map_eq_some_iff.mp hq
  exact (List.findIdx?_eq_some_iff_getElem.mp hi).1

theorem has_of_resolve {name context : String} {q : Qualifier}
    (hq : h.resolve name context = .ok q) : h.Has q := by
  unfold resolve at hq
  cases hname : resolveName h.names name context with
  | error e =>
      rw [hname] at hq
      cases hq
  | ok i =>
      rw [hname] at hq
      cases hq
      exact resolveName_lt hname

end Hierarchy

/-- A signature holds qualifiers of a hierarchy. -/
structure MethodSignature.Within (h : Hierarchy) (s : MethodSignature Qualifier) : Prop where
  params : ∀ q, some q ∈ s.params → h.Has q
  receiver : ∀ q, s.receiver = some q → h.Has q
  returns : ∀ q, s.returns = some q → h.Has q
  ensures : ∀ p ∈ s.ensures, h.Has p.qualifier
  ensuresIf : ∀ p ∈ s.ensuresIf, h.Has p.qualifier

/-- A checker is over a lattice, and all its qualifiers are of this lattice. -/
structure Checker.Sound (c : Checker) : Prop where
  lawful : c.hierarchy.Lawful
  rules : ∀ r ∈ c.implicit.rules, c.hierarchy.Has r.qualifier
  implicitTop : c.implicit.top = c.hierarchy.top
  methods : ∀ s ∈ c.signatures.methods, s.Within c.hierarchy
  fields : ∀ f ∈ c.signatures.fields, c.hierarchy.Has f.2

/-- What every step of a fold keeps holds at its end. -/
theorem foldlM_induction {α β ε : Type} {f : β → α → Except ε β} {P : β → Prop} {l : List α}
    {b r : β} (hstep : ∀ b a b', P b → f b a = .ok b' → P b') (hb : P b)
    (h : l.foldlM f b = .ok r) : P r := by
  induction l generalizing b with
  | nil =>
      cases h
      exact hb
  | cons a rest ih =>
      rw [List.foldlM_cons] at h
      cases ha : f b a with
      | error e =>
          rw [ha] at h
          cases h
      | ok b' =>
          rw [ha] at h
          exact ih (hstep b a b' hb ha) h

theorem map_ok {α β ε : Type} {f : α → β} {x : Except ε α} {b : β} (h : x.map f = .ok b) :
    ∃ a, x = .ok a ∧ b = f a := by
  cases x with
  | error e => cases h
  | ok a =>
      cases h
      exact ⟨a, rfl, rfl⟩

namespace Checker

variable {h : Hierarchy}

theorem within_of_resolve {s : MethodSignature String} {context : String}
    {r : MethodSignature Qualifier} (hr : s.resolve (fun name => h.resolve name context) = .ok r) :
    r.Within h := by
  have hoption {o : Option String} {q : Qualifier}
      (ho : MethodSignature.resolveOption (fun name => h.resolve name context) o =
        .ok (some q)) : h.Has q := by
    cases o with
    | none => cases ho
    | some name =>
        obtain ⟨q', hq', heq⟩ := map_ok ho
        cases heq
        exact Hierarchy.has_of_resolve hq'
  simp only [MethodSignature.resolve, bind, Except.bind, pure, Except.pure] at hr
  split at hr
  · cases hr
  rename_i params hparams
  split at hr
  · cases hr
  rename_i receiver hreceiver
  split at hr
  · cases hr
  rename_i returns hreturns
  split at hr
  · cases hr
  rename_i ensures hensures
  split at hr
  · cases hr
  rename_i ensuresIf hensuresIf
  cases hr
  refine ⟨fun q hq => ?_, fun q hq => ?_, fun q hq => ?_, fun p hp => ?_, fun p hp => ?_⟩
  · obtain ⟨o, -, ho⟩ := mem_of_mapM hparams hq
    exact hoption ho
  · exact hoption (hreceiver.trans (congrArg Except.ok hq))
  · exact hoption (hreturns.trans (congrArg Except.ok hq))
  · obtain ⟨p', -, hp'⟩ := mem_of_mapM hensures hp
    obtain ⟨q, hq, rfl⟩ := map_ok hp'
    exact Hierarchy.has_of_resolve hq
  · obtain ⟨p', -, hp'⟩ := mem_of_mapM hensuresIf hp
    obtain ⟨q, hq, rfl⟩ := map_ok hp'
    exact Hierarchy.has_of_resolve hq

/-- The signatures and fields of a table hold qualifiers of a hierarchy. -/
def Tabled (h : Hierarchy) (t : SignatureTable) : Prop :=
  (∀ s ∈ t.methods, s.Within h) ∧ ∀ f ∈ t.fields, h.Has f.2

theorem tabled_insertSignature {t t' : SignatureTable} {s : MethodSignature String}
    (ht : Tabled h t) (hok : insertSignature h t s = .ok t') : Tabled h t' := by
  simp only [insertSignature, bind, Except.bind] at hok
  split at hok
  · cases hok
  rename_i r hr
  unfold SignatureTable.insert at hok
  split at hok
  · cases hok
  split at hok
  · cases hok
  cases hok
  refine ⟨fun s hs => ?_, ht.2⟩
  rcases List.mem_append.mp hs with hs | hs
  · exact ht.1 s hs
  · rw [List.mem_singleton.mp hs]
    exact within_of_resolve hr

theorem tabled_declareField {t t' : SignatureTable} {d : FieldDeclaration}
    (ht : Tabled h t) (hok : declareField h t d = .ok t') : Tabled h t' := by
  simp only [declareField, bind, Except.bind] at hok
  split at hok
  · cases hok
  rename_i q hq
  unfold SignatureTable.declareField at hok
  split at hok
  · cases hok
  cases hok
  refine ⟨ht.1, fun f hf => ?_⟩
  rcases List.mem_append.mp hf with hf | hf
  · exact ht.2 f hf
  · rw [List.mem_singleton.mp hf]
    exact Hierarchy.has_of_resolve hq

theorem has_of_resolveRule {d : RuleDeclaration} {r : ImplicitRule}
    (hok : resolveRule h d = .ok r) : h.Has r.qualifier := by
  simp only [resolveRule, bind, Except.bind, pure, Except.pure] at hok
  split at hok
  · cases hok
  rename_i q hq
  split at hok
  · cases hok
  cases hok
  exact Hierarchy.has_of_resolve hq

/-- Every declared checker is sound. -/
theorem ofDeclaration_sound {d : CheckerDeclaration} {c : Checker}
    (hok : ofDeclaration d = .ok c) : c.Sound := by
  simp only [ofDeclaration, bind, Except.bind, pure, Except.pure] at hok
  split at hok
  · cases hok
  rename_i h hh
  split at hok
  · cases hok
  rename_i rules hrules
  split at hok
  · cases hok
  rename_i implicit himplicit
  split at hok
  · cases hok
  rename_i methods hmethods
  split at hok
  · cases hok
  rename_i signatures hsignatures
  cases hok
  have hempty : Tabled h .empty := ⟨nofun, nofun⟩
  have htabled : Tabled h signatures :=
    foldlM_induction (fun _ _ _ => tabled_declareField)
      (foldlM_induction (fun _ _ _ => tabled_insertSignature) hempty hmethods) hsignatures
  unfold ImplicitRules.build at himplicit
  split at himplicit
  · cases himplicit
  cases himplicit
  refine ⟨Hierarchy.build_lawful hh, fun r hr => ?_, rfl, htabled.1, htabled.2⟩
  obtain ⟨declared, -, hdeclared⟩ := mem_of_mapM hrules hr
  exact has_of_resolveRule hdeclared

end Checker

namespace Checker.Sound

variable {c : Checker}

theorem implicit (hc : c.Sound) (s : Subject) (q : Qualifier)
    (hq : c.implicit.find? s = some q) : c.hierarchy.Has q := by
  obtain ⟨rule, hrule, rfl⟩ := Option.map_eq_some_iff.mp hq
  exact hc.rules rule (List.mem_of_find?_eq_some hrule)

theorem has_evaluate (hc : c.Sound) (s : Subject) : c.hierarchy.Has (c.implicit.evaluate s) := by
  unfold ImplicitRules.evaluate
  cases hq : c.implicit.find? s with
  | none => exact hc.implicitTop ▸ hc.lawful.has_top
  | some q => exact hc.implicit s q hq

theorem within (hc : c.Sound) {method : String} {s : MethodSignature Qualifier}
    (hs : c.signatures.method? method = some s) : s.Within c.hierarchy :=
  hc.methods s (List.mem_of_find?_eq_some hs)

theorem has_field? (hc : c.Sound) {field : String} {q : Qualifier}
    (hq : c.signatures.field? field = some q) : c.hierarchy.Has q := by
  obtain ⟨f, hf, rfl⟩ := Option.map_eq_some_iff.mp hq
  exact hc.fields f (List.mem_of_find?_eq_some hf)

end Checker.Sound

end FlowTyping
