import FlowTyping.Proofs.Reordering.Hierarchies

/-!
Checkers whose declarations list the same in another order. The second one is accepted where the
first one is, and it is the first one with its qualifiers renumbered.
-/

namespace FlowTyping

open Relation

/-- The pairs of a name and a name declared above it. -/
def CheckerDeclaration.subtypes (d : CheckerDeclaration) : List (String × String) :=
  d.qualifiers.flatMap fun q => q.supertypes.map fun above => (q.name, above)

/-- Two declarations of the same, in another order. The names above a qualifier may be listed in
any order and any number of times, and those that follow from others may be left out. -/
structure CheckerDeclaration.Reorders (d d' : CheckerDeclaration) : Prop where
  name : d'.name = d.name
  qualifiers : (d.qualifiers.map QualifierDeclaration.name).Perm
    (d'.qualifiers.map QualifierDeclaration.name)
  order (a b : String) : ReflTransGen (fun sub sup => (sub, sup) ∈ d.subtypes) a b ↔
    ReflTransGen (fun sub sup => (sub, sup) ∈ d'.subtypes) a b
  implicit : d'.implicit = d.implicit
  signatures : d.signatures.Perm d'.signatures
  fields : d.fields.Perm d'.fields
  refinesEquality : d'.refinesEquality = d.refinesEquality

/-- Pairs that follow from other pairs, and these from them, generate the same order. -/
theorem order_of_implied {l l' : List (String × String)}
    (h : ∀ p ∈ l, ReflTransGen (fun sub sup => (sub, sup) ∈ l') p.1 p.2)
    (h' : ∀ p ∈ l', ReflTransGen (fun sub sup => (sub, sup) ∈ l) p.1 p.2) (a b : String) :
    ReflTransGen (fun sub sup => (sub, sup) ∈ l) a b ↔
      ReflTransGen (fun sub sup => (sub, sup) ∈ l') a b := by
  constructor
  · exact reflTransGen_closed (fun a b hab => h (a, b) hab) a b
  · exact reflTransGen_closed (fun a b hab => h' (a, b) hab) a b

section Renumbering

variable (π : Qualifier → Qualifier)

/-- A signature over other qualifiers. -/
def MethodSignature.map {Q R : Type} (f : Q → R) (s : MethodSignature Q) : MethodSignature R where
  name := s.name
  params := s.params.map (Option.map f)
  receiver := s.receiver.map f
  returns := s.returns.map f
  isPure := s.isPure
  ensures := s.ensures.map fun p => ⟨p.target, f p.qualifier⟩
  ensuresIf := s.ensuresIf.map fun p => ⟨p.result, p.target, f p.qualifier⟩

def ImplicitRule.renumber (r : ImplicitRule) : ImplicitRule := ⟨r.pattern, π r.qualifier⟩

def ImplicitRules.renumber (r : ImplicitRules) : ImplicitRules :=
  ⟨r.rules.map (ImplicitRule.renumber π), π r.top⟩

def SignatureTable.renumber (t : SignatureTable) : SignatureTable :=
  ⟨t.methods.map (MethodSignature.map π), t.fields.map fun f => (f.1, π f.2)⟩

end Renumbering

/-- One checker is another one with its qualifiers renumbered. -/
structure Checker.Renumbers (c c' : Checker) (π : Qualifier → Qualifier) : Prop where
  name : c'.name = c.name
  hierarchy : c.hierarchy.Renumbers c'.hierarchy π
  implicit : c'.implicit = c.implicit.renumber π
  method? (name : String) :
    c'.signatures.method? name = (c.signatures.method? name).map (MethodSignature.map π)
  field? (name : String) : c'.signatures.field? name = (c.signatures.field? name).map π
  refinesEquality : c'.refinesEquality = c.refinesEquality

theorem mapM_map_ok {α β γ ε : Type} (f : α → Except ε β) (k : β → γ) (l : List α) :
    (l.mapM fun a => (f a).map k) = (l.mapM f).map (List.map k) := by
  induction l with
  | nil => rfl
  | cons a rest ih =>
      rw [List.mapM_cons, List.mapM_cons, ih]
      cases f a with
      | error e => rfl
      | ok b =>
          cases rest.mapM f with
          | error e => rfl
          | ok bs => rfl

theorem MethodSignature.resolve_map {Q R T ε : Type} (s : MethodSignature Q) (f : Q → Except ε R)
    (k : R → T) :
    (s.resolve fun q => (f q).map k) = (s.resolve f).map (MethodSignature.map k) := by
  have hoption : resolveOption (fun q => (f q).map k) =
      fun o => (resolveOption f o).map (Option.map k) := by
    funext o
    cases o with
    | none => rfl
    | some q =>
        change ((f q).map k).map some = ((f q).map some).map (Option.map k)
        cases f q <;> rfl
  have hensures :
      (s.ensures.mapM fun p => ((f p.qualifier).map k).map (Postcondition.mk p.target)) =
      (s.ensures.mapM fun p => (f p.qualifier).map (Postcondition.mk p.target)).map
        (List.map fun p => ⟨p.target, k p.qualifier⟩) := by
    rw [← mapM_map_ok]
    congr 1
    funext p
    cases f p.qualifier <;> rfl
  have hensuresIf : (s.ensuresIf.mapM fun p =>
        ((f p.qualifier).map k).map (ConditionalPostcondition.mk p.result p.target)) =
      (s.ensuresIf.mapM fun p =>
        (f p.qualifier).map (ConditionalPostcondition.mk p.result p.target)).map
        (List.map fun p => ⟨p.result, p.target, k p.qualifier⟩) := by
    rw [← mapM_map_ok]
    congr 1
    funext p
    cases f p.qualifier <;> rfl
  unfold resolve
  rw [hensures, hensuresIf, hoption, mapM_map_ok]
  dsimp only
  cases s.params.mapM (resolveOption f) with
  | error e => rfl
  | ok params =>
      cases resolveOption f s.receiver with
      | error e => rfl
      | ok receiver =>
          cases resolveOption f s.returns with
          | error e => rfl
          | ok returns =>
              cases s.ensures.mapM fun p => (f p.qualifier).map (Postcondition.mk p.target) with
              | error e => rfl
              | ok ensures =>
                  cases s.ensuresIf.mapM fun p =>
                    (f p.qualifier).map (ConditionalPostcondition.mk p.result p.target) with
                  | error e => rfl
                  | ok ensuresIf => rfl

theorem MethodSignature.outOfRange?_map {Q R : Type} (k : Q → R) (s : MethodSignature Q) :
    (s.map k).outOfRange? = s.outOfRange? := by
  have htargets : (s.map k).targets = s.targets := by
    simp only [targets, map, List.map_map]
    rfl
  unfold outOfRange?
  rw [htargets]
  simp only [map, List.length_map]

namespace SignatureTable

variable {π : Qualifier → Qualifier} {t t' u u' v : SignatureTable}

theorem method?_renumber (name : String) :
    (t.renumber π).method? name = (t.method? name).map (MethodSignature.map π) :=
  List.find?_map ..

theorem field?_renumber (name : String) :
    (t.renumber π).field? name = (t.field? name).map π := by
  change Option.map Prod.snd ((t.fields.map _).find? _) = _
  rw [List.find?_map, field?, Option.map_map, Option.map_map]
  rfl

theorem insert_renumber (s : MethodSignature Qualifier) :
    (t.renumber π).insert (s.map π) = (t.insert s).map (renumber π) := by
  have hname : (s.map π).name = s.name := rfl
  have hparams : (s.map π).params.length = s.params.length := List.length_map ..
  unfold insert
  rw [MethodSignature.outOfRange?_map, hname, hparams, method?_renumber, Option.isSome_map]
  cases s.outOfRange? with
  | some index => rfl
  | none =>
      dsimp only
      split
      · rfl
      · refine congrArg Except.ok ?_
        simp [renumber]

theorem declareField_renumber (name : String) (q : Qualifier) :
    (t.renumber π).declareField name (π q) = (t.declareField name q).map (renumber π) := by
  unfold declareField
  rw [field?_renumber, Option.isSome_map]
  split
  · rfl
  · refine congrArg Except.ok ?_
    simp [renumber]

/-- Two tables in which the same is found. -/
structure Agrees (t t' : SignatureTable) : Prop where
  method? (name : String) : t'.method? name = t.method? name
  field? (name : String) : t'.field? name = t.field? name

theorem Agrees.refl (t : SignatureTable) : t.Agrees t := ⟨fun _ => rfl, fun _ => rfl⟩

theorem Agrees.trans (h : t.Agrees t') (h' : t'.Agrees u) : t.Agrees u where
  method? name := (h'.method? name).trans (h.method? name)
  field? name := (h'.field? name).trans (h.field? name)

section Methods

variable {a b s : MethodSignature Qualifier}

theorem insert_ok : t.insert s = .ok u ↔ s.outOfRange? = none ∧ t.method? s.name = none ∧
    u = { t with methods := t.methods ++ [s] } := by
  unfold insert
  cases s.outOfRange? with
  | some index => simp
  | none => cases t.method? s.name <;> simp [eq_comm]

theorem method?_append (s : MethodSignature Qualifier) (name : String) :
    method? { t with methods := t.methods ++ [s] } name =
      (t.method? name).or (if s.name = name then some s else none) := by
  by_cases hname : s.name = name <;>
    simp [method?, List.find?_append, hname]

theorem Agrees.insert (h : t.Agrees t') (hok : t.insert s = .ok u) :
    ∃ u', t'.insert s = .ok u' ∧ u.Agrees u' := by
  obtain ⟨hrange, hfresh, rfl⟩ := insert_ok.mp hok
  refine ⟨_, insert_ok.mpr ⟨hrange, (h.method? s.name).trans hfresh, rfl⟩, ?_, h.field?⟩
  intro name
  rw [method?_append, method?_append, h.method?]

/-- Two signatures that can be added can be added in the other order. -/
theorem insert_swap (ha : t.insert a = .ok u) (hb : u.insert b = .ok v) :
    ∃ u' v', t.insert b = .ok u' ∧ u'.insert a = .ok v' ∧ v.Agrees v' := by
  obtain ⟨harange, hafresh, rfl⟩ := insert_ok.mp ha
  obtain ⟨hbrange, hbfresh, rfl⟩ := insert_ok.mp hb
  rw [method?_append, Option.or_eq_none_iff] at hbfresh
  have hne : a.name ≠ b.name := fun heq => by simp [heq] at hbfresh
  have hafresh' : method? { t with methods := t.methods ++ [b] } a.name = none := by
    rw [method?_append, hafresh, Option.none_or, if_neg hne.symm]
  refine ⟨_, _, insert_ok.mpr ⟨hbrange, hbfresh.1, rfl⟩, insert_ok.mpr ⟨harange, hafresh', rfl⟩,
    fun name => ?_, fun _ => rfl⟩
  rw [method?_append, method?_append, method?_append, method?_append, Option.or_assoc,
    Option.or_assoc]
  by_cases hname : a.name = name
  · simp [hname, hname ▸ hne.symm]
  · simp [hname]

end Methods

section Fields

variable {a b name : String} {p q : Qualifier}

theorem declareField_ok : t.declareField name q = .ok u ↔ t.field? name = none ∧
    u = { t with fields := t.fields ++ [(name, q)] } := by
  unfold declareField
  cases t.field? name <;> simp [eq_comm]

theorem field?_append (name : String) (q : Qualifier) (field : String) :
    field? { t with fields := t.fields ++ [(name, q)] } field =
      (t.field? field).or (if name = field then some q else none) := by
  unfold field?
  rw [List.find?_append, Option.map_or]
  by_cases hname : name = field <;> simp [hname]

theorem Agrees.declareField (h : t.Agrees t') (hok : t.declareField name q = .ok u) :
    ∃ u', t'.declareField name q = .ok u' ∧ u.Agrees u' := by
  obtain ⟨hfresh, rfl⟩ := declareField_ok.mp hok
  refine ⟨_, declareField_ok.mpr ⟨(h.field? name).trans hfresh, rfl⟩, h.method?, ?_⟩
  intro field
  rw [field?_append, field?_append, h.field?]

/-- Two fields that can be declared can be declared in the other order. -/
theorem declareField_swap (ha : t.declareField a p = .ok u) (hb : u.declareField b q = .ok v) :
    ∃ u' v', t.declareField b q = .ok u' ∧ u'.declareField a p = .ok v' ∧ v.Agrees v' := by
  obtain ⟨hafresh, rfl⟩ := declareField_ok.mp ha
  obtain ⟨hbfresh, rfl⟩ := declareField_ok.mp hb
  rw [field?_append, Option.or_eq_none_iff] at hbfresh
  have hne : a ≠ b := fun heq => by simp [heq] at hbfresh
  have hafresh' : field? { t with fields := t.fields ++ [(b, q)] } a = none := by
    rw [field?_append, hafresh, Option.none_or, if_neg hne.symm]
  refine ⟨_, _, declareField_ok.mpr ⟨hbfresh.1, rfl⟩, declareField_ok.mpr ⟨hafresh', rfl⟩,
    fun _ => rfl, fun field => ?_⟩
  rw [field?_append, field?_append, field?_append, field?_append, Option.or_assoc, Option.or_assoc]
  by_cases hname : a = field
  · simp [hname, hname ▸ hne.symm]
  · simp [hname]

end Fields

end SignatureTable

/-- A fold whose steps can be exchanged gives the same in any order. -/
theorem foldlM_perm {α ε σ : Type} {step : σ → α → Except ε σ} {R : σ → σ → Prop}
    (hrefl : ∀ t, R t t) (htrans : ∀ {t u v}, R t u → R u v → R t v)
    (hkeep : ∀ {t t' u a}, R t t' → step t a = .ok u → ∃ u', step t' a = .ok u' ∧ R u u')
    (hswap : ∀ {t u v a b}, step t a = .ok u → step u b = .ok v →
      ∃ u' v', step t b = .ok u' ∧ step u' a = .ok v' ∧ R v v')
    {l l' : List α} (hl : l.Perm l') {t t' u : σ} (ht : R t t') (hok : l.foldlM step t = .ok u) :
    ∃ u', l'.foldlM step t' = .ok u' ∧ R u u' := by
  have hfold {l : List α} {t t' u : σ} (ht : R t t') (hok : l.foldlM step t = .ok u) :
      ∃ u', l.foldlM step t' = .ok u' ∧ R u u' := by
    induction l generalizing t t' with
    | nil =>
        cases hok
        exact ⟨t', rfl, ht⟩
    | cons a rest ih =>
        rw [List.foldlM_cons] at hok
        obtain ⟨v, hv, hok⟩ := bind_ok.mp hok
        obtain ⟨v', hv', hvv⟩ := hkeep ht hv
        obtain ⟨u', hu', huu⟩ := ih hvv hok
        exact ⟨u', by rw [List.foldlM_cons, hv']; exact hu', huu⟩
  induction hl generalizing t t' u with
  | nil => exact hfold ht hok
  | cons a _ ih =>
      rw [List.foldlM_cons] at hok
      obtain ⟨v, hv, hok⟩ := bind_ok.mp hok
      obtain ⟨v', hv', hvv⟩ := hkeep ht hv
      obtain ⟨u', hu', huu⟩ := ih hvv hok
      exact ⟨u', by rw [List.foldlM_cons, hv']; exact hu', huu⟩
  | swap a b rest =>
      rw [List.foldlM_cons] at hok
      obtain ⟨v, hv, hok⟩ := bind_ok.mp hok
      rw [List.foldlM_cons] at hok
      obtain ⟨w, hw, hok⟩ := bind_ok.mp hok
      obtain ⟨v₁, w₁, hv₁, hw₁, hww₁⟩ := hswap hv hw
      obtain ⟨v₂, hv₂, hvv⟩ := hkeep ht hv₁
      obtain ⟨w₂, hw₂, hww₂⟩ := hkeep hvv hw₁
      obtain ⟨u', hu', huu⟩ := hfold (htrans hww₁ hww₂) hok
      refine ⟨u', ?_, huu⟩
      rw [List.foldlM_cons, hv₂]
      change List.foldlM step v₂ (b :: rest) = _
      rw [List.foldlM_cons, hw₂]
      exact hu'
  | trans _ _ ih ih' =>
      obtain ⟨v, hv, huv⟩ := ih ht hok
      obtain ⟨u', hu', hvu⟩ := ih' (hrefl t') hv
      exact ⟨u', hu', htrans huv hvu⟩

namespace Hierarchy.Renumbers

variable {h h' : Hierarchy} {π : Qualifier → Qualifier}

theorem resolve (hπ : h.Renumbers h' π) (name context : String) :
    h'.resolve name context = (h.resolve name context).map π := by
  have hlookup := hπ.lookup name
  unfold Hierarchy.lookup? at hlookup
  unfold Hierarchy.resolve resolveName
  cases hfound : h.names.idxOf? name with
  | none =>
      rw [hfound] at hlookup
      rw [Option.map_eq_none_iff.mp hlookup]
      rfl
  | some i =>
      rw [hfound] at hlookup
      obtain ⟨j, hj, heq⟩ := Option.map_eq_some_iff.mp hlookup
      rw [hj]
      exact congrArg Except.ok heq

theorem resolveRule (hπ : h.Renumbers h' π) (d : RuleDeclaration) :
    Checker.resolveRule h' d = (Checker.resolveRule h d).map (ImplicitRule.renumber π) := by
  unfold Checker.resolveRule
  rw [hπ.resolve]
  cases h.resolve d.qualifier "implicit rule" with
  | error e => rfl
  | ok q => cases Checker.resolvePattern d.pattern <;> rfl

theorem contradiction? (hπ : h.Renumbers h' π) (earlier rules : List ImplicitRule) :
    ImplicitRules.contradiction? (earlier.map (ImplicitRule.renumber π))
        (rules.map (ImplicitRule.renumber π)) =
      (ImplicitRules.contradiction? earlier rules).map
        (Prod.map (ImplicitRule.renumber π) (ImplicitRule.renumber π)) := by
  induction rules generalizing earlier with
  | nil => rfl
  | cons rule rest ih =>
      have hgrown : earlier.map (ImplicitRule.renumber π) ++ [rule.renumber π] =
          (earlier ++ [rule]).map (ImplicitRule.renumber π) := by simp
      have hfind : (earlier.map (ImplicitRule.renumber π)).find?
            (fun r => r.pattern.text = (rule.renumber π).pattern.text) =
          (earlier.find? fun r => r.pattern.text = rule.pattern.text).map
            (ImplicitRule.renumber π) := List.find?_map ..
      rw [List.map_cons, ImplicitRules.contradiction?, ImplicitRules.contradiction?, hfind, hgrown,
        ih]
      cases earlier.find? fun r => r.pattern.text = rule.pattern.text with
      | none => rfl
      | some first =>
          have hsame : (first.renumber π).qualifier = (rule.renumber π).qualifier ↔
              first.qualifier = rule.qualifier := hπ.injective.eq_iff
          simp only [Option.map_some, hsame]
          split <;> rfl

theorem build (hπ : h.Renumbers h' π) {rules : List ImplicitRule} {r : ImplicitRules}
    (hok : ImplicitRules.build rules h = .ok r) :
    ImplicitRules.build (rules.map (ImplicitRule.renumber π)) h' = .ok (r.renumber π) := by
  have hsame := hπ.contradiction? [] rules
  rw [List.map_nil] at hsame
  unfold ImplicitRules.build at hok ⊢
  rw [hsame]
  cases hfound : ImplicitRules.contradiction? [] rules with
  | some found =>
      rw [hfound] at hok
      cases hok
  | none =>
      rw [hfound] at hok
      cases hok
      rw [Option.map_none, hπ.top]
      rfl

variable {t : SignatureTable}

theorem insertSignature (hπ : h.Renumbers h' π) (s : MethodSignature String) :
    Checker.insertSignature h' (t.renumber π) s =
      (Checker.insertSignature h t s).map (SignatureTable.renumber π) := by
  unfold Checker.insertSignature
  dsimp only
  rw [show (fun name => h'.resolve name s!"signature of `{s.name}`") =
    fun name => (h.resolve name s!"signature of `{s.name}`").map π from
    funext fun name => hπ.resolve name _, MethodSignature.resolve_map]
  cases s.resolve fun name => h.resolve name s!"signature of `{s.name}`" with
  | error e => rfl
  | ok resolved => exact SignatureTable.insert_renumber resolved

theorem declareField (hπ : h.Renumbers h' π) (d : FieldDeclaration) :
    Checker.declareField h' (t.renumber π) d =
      (Checker.declareField h t d).map (SignatureTable.renumber π) := by
  unfold Checker.declareField
  rw [hπ.resolve]
  cases h.resolve d.qualifier s!"field `{d.name}`" with
  | error e => rfl
  | ok q => exact SignatureTable.declareField_renumber d.name q

end Hierarchy.Renumbers

namespace Checker

variable {d d' : CheckerDeclaration} {c : Checker} {h : Hierarchy}

theorem insertSignatures_perm {signatures signatures' : List (MethodSignature String)}
    (hperm : signatures.Perm signatures') {t t' u : SignatureTable} (ht : t.Agrees t')
    (hok : signatures.foldlM (insertSignature h) t = .ok u) :
    ∃ u', signatures'.foldlM (insertSignature h) t' = .ok u' ∧ u.Agrees u' := by
  refine foldlM_perm .refl .trans ?keep ?swap hperm ht hok
  case keep =>
    intro t t' u s ht hok
    obtain ⟨resolved, hresolved, hok⟩ := bind_ok.mp hok
    obtain ⟨u', hu', huu⟩ := ht.insert hok
    exact ⟨u', bind_ok.mpr ⟨resolved, hresolved, hu'⟩, huu⟩
  case swap =>
    intro t u v a b ha hb
    obtain ⟨a', hra, ha⟩ := bind_ok.mp ha
    obtain ⟨b', hrb, hb⟩ := bind_ok.mp hb
    obtain ⟨u', v', hb', ha', hvv⟩ := SignatureTable.insert_swap ha hb
    exact ⟨u', v', bind_ok.mpr ⟨b', hrb, hb'⟩, bind_ok.mpr ⟨a', hra, ha'⟩, hvv⟩

theorem declareFields_perm {fields fields' : List FieldDeclaration} (hperm : fields.Perm fields')
    {t t' u : SignatureTable} (ht : t.Agrees t')
    (hok : fields.foldlM (declareField h) t = .ok u) :
    ∃ u', fields'.foldlM (declareField h) t' = .ok u' ∧ u.Agrees u' := by
  refine foldlM_perm .refl .trans ?keep ?swap hperm ht hok
  case keep =>
    intro t t' u field ht hok
    obtain ⟨q, hq, hok⟩ := bind_ok.mp hok
    obtain ⟨u', hu', huu⟩ := ht.declareField hok
    exact ⟨u', bind_ok.mpr ⟨q, hq, hu'⟩, huu⟩
  case swap =>
    intro t u v a b ha hb
    obtain ⟨p, hp, ha⟩ := bind_ok.mp ha
    obtain ⟨q, hq, hb⟩ := bind_ok.mp hb
    obtain ⟨u', v', hb', ha', hvv⟩ := SignatureTable.declareField_swap ha hb
    exact ⟨u', v', bind_ok.mpr ⟨q, hq, hb'⟩, bind_ok.mpr ⟨p, hp, ha'⟩, hvv⟩

/-- A declaration in another order is accepted, and it declares the same checker up to the numbers
of the qualifiers. -/
theorem ofDeclaration_reorders (hd : d.Reorders d') (hok : ofDeclaration d = .ok c) :
    ∃ c' π, ofDeclaration d' = .ok c' ∧ c.Renumbers c' π := by
  obtain ⟨h, hbuilt, hok⟩ := bind_ok.mp hok
  obtain ⟨rules, hrules, hok⟩ := bind_ok.mp hok
  obtain ⟨implicit, himplicit, hok⟩ := bind_ok.mp hok
  obtain ⟨methods, hmethods, hok⟩ := bind_ok.mp hok
  obtain ⟨signatures, hsignatures, hok⟩ := bind_ok.mp hok
  cases hok
  have hsame : Hierarchy.SameOrder (d.qualifiers.map QualifierDeclaration.name)
      (d'.qualifiers.map QualifierDeclaration.name) d.subtypes d'.subtypes :=
    ⟨hd.qualifiers, hd.order⟩
  have hsub : ∀ e ∈ d'.subtypes, e.1 ∈ d'.qualifiers.map QualifierDeclaration.name := by
    intro e he
    obtain ⟨q, hq, he⟩ := List.mem_flatMap.mp he
    obtain ⟨above, -, rfl⟩ := List.mem_map.mp he
    exact List.mem_map_of_mem hq
  obtain ⟨h', hbuilt'⟩ := hsame.build hsub hbuilt
  have hπ := Hierarchy.Pair.renumbers ⟨hsame, hbuilt, hbuilt'⟩
  generalize Hierarchy.renumber _ _ = π at hπ
  have hrules' : d'.implicit.mapM (resolveRule h') = .ok (rules.map (ImplicitRule.renumber π)) := by
    rw [hd.implicit, show resolveRule h' = fun rule => (resolveRule h rule).map _ from
      funext hπ.resolveRule, mapM_map_ok, hrules]
    rfl
  have hmapped {α : Type} {step step' : SignatureTable → α → Except DeclarationError SignatureTable}
      (hstep : ∀ t a, step' (t.renumber π) a = (step t a).map (SignatureTable.renumber π))
      {l : List α} {t u : SignatureTable} (hok : l.foldlM step t = .ok u) :
      l.foldlM step' (t.renumber π) = .ok (u.renumber π) := by
    induction l generalizing t with
    | nil =>
        cases hok
        rfl
    | cons a rest ih =>
        rw [List.foldlM_cons] at hok
        obtain ⟨v, hv, hok⟩ := bind_ok.mp hok
        rw [List.foldlM_cons, hstep, hv]
        exact ih hok
  obtain ⟨methods', hmethods', hagrees⟩ := insertSignatures_perm hd.signatures (.refl _)
    (hmapped (fun _ => hπ.insertSignature) hmethods)
  obtain ⟨signatures', hsignatures', hagrees⟩ := declareFields_perm hd.fields hagrees
    (hmapped (fun _ => hπ.declareField) hsignatures)
  refine ⟨_, π, bind_ok.mpr ⟨h', hbuilt', bind_ok.mpr ⟨_, hrules', bind_ok.mpr ⟨_,
    hπ.build himplicit, bind_ok.mpr ⟨methods', hmethods', bind_ok.mpr ⟨signatures', hsignatures',
    rfl⟩⟩⟩⟩⟩, ?_⟩
  constructor
  · exact congrArg (Option.getD · "checker") hd.name
  · exact hπ
  · rfl
  · exact fun name => (hagrees.method? name).trans (SignatureTable.method?_renumber name)
  · exact fun field => (hagrees.field? field).trans (SignatureTable.field?_renumber field)
  · exact hd.refinesEquality

end Checker

end FlowTyping
