import FlowTyping.Checker.Signature
import Mathlib.Data.List.Induction
import Mathlib.Data.List.Nodup

/-!
Signature tables under declarations of any order and number. A declaration is refused where its name
is taken or a target is no parameter, and leaves the table as it is; what the table answers is the
first declaration that was not refused.
-/

namespace FlowTyping

namespace MethodSignature

variable {Q : Type} {s : MethodSignature Q} {i : Nat}

/-- A postcondition, unconditional or not, speaks about an argument. -/
def Targets (s : MethodSignature Q) (i : Nat) : Prop :=
  (∃ p ∈ s.ensures, p.target = .argument i) ∨ ∃ p ∈ s.ensuresIf, p.target = .argument i

/-- Every argument that a postcondition speaks about is a parameter. -/
def InRange (s : MethodSignature Q) : Prop := ∀ i, s.Targets i → i < s.params.length

/-- The first argument, in the order of the postconditions, that is no parameter. -/
def FirstMiss (s : MethodSignature Q) (i : Nat) : Prop :=
  s.params.length ≤ i ∧ ∃ before after, s.targets = before ++ .argument i :: after ∧
    ∀ j, .argument j ∈ before → j < s.params.length

theorem targets_iff_mem : s.Targets i ↔ .argument i ∈ s.targets := by
  simp [Targets, targets]

theorem outOfRange?_eq_none_iff : s.outOfRange? = none ↔ s.InRange := by
  rw [outOfRange?, List.findSome?_eq_none_iff]
  constructor
  · intro h i hi
    have hnone := h _ (targets_iff_mem.mp hi)
    simpa using hnone
  · intro h target hmem
    cases target with
    | receiver => rfl
    | argument i => exact if_pos (h i (targets_iff_mem.mpr hmem))

theorem outOfRange?_eq_some_iff : s.outOfRange? = some i ↔ s.FirstMiss i := by
  rw [outOfRange?, List.findSome?_eq_some_iff]
  constructor
  · rintro ⟨before, target, after, heq, hfound, hbefore⟩
    cases target with
    | receiver => cases hfound
    | argument j =>
        obtain ⟨hle, rfl⟩ : s.params.length ≤ j ∧ j = i := by simpa using hfound
        refine ⟨hle, before, after, heq, fun k hk => ?_⟩
        simpa using hbefore _ hk
  · rintro ⟨hle, before, after, heq, hbefore⟩
    refine ⟨before, .argument i, after, heq, by simpa using hle, fun target hmem => ?_⟩
    cases target with
    | receiver => rfl
    | argument j => exact if_pos (hbefore j hmem)

instance : DecidablePred (InRange (Q := Q)) := fun _ =>
  decidable_of_iff _ outOfRange?_eq_none_iff

theorem exists_firstMiss_iff : (∃ i, s.FirstMiss i) ↔ ¬ s.InRange := by
  rw [← outOfRange?_eq_none_iff, Option.eq_none_iff_forall_ne_some]
  simp [outOfRange?_eq_some_iff]

end MethodSignature

/-- What a table is asked to declare. -/
inductive TableDeclaration where
  | method (s : MethodSignature Qualifier)
  | field (name : String) (q : Qualifier)
  deriving DecidableEq, Repr

namespace TableDeclaration

def method? : TableDeclaration → Option (MethodSignature Qualifier)
  | method s => some s
  | field _ _ => none

def field? : TableDeclaration → Option (String × Qualifier)
  | method _ => none
  | field name q => some (name, q)

def isMethod (name : String) (d : TableDeclaration) : Bool := d.method?.any (·.name = name)

def isField (name : String) (d : TableDeclaration) : Bool := d.field?.any (·.1 = name)

end TableDeclaration

namespace SignatureTable

variable {t : SignatureTable} {s : MethodSignature Qualifier} {name : String} {q : Qualifier}
  {d : TableDeclaration} {e : DeclarationError}

def declare (t : SignatureTable) : TableDeclaration → Except DeclarationError SignatureTable
  | .method s => t.insert s
  | .field name q => t.declareField name q

/-- The table after one declaration, which leaves it as it is where it is refused. -/
def step (t : SignatureTable) (d : TableDeclaration) : SignatureTable :=
  match t.declare d with
  | .ok t' => t'
  | .error _ => t

/-- The table after some declarations. -/
def after (t : SignatureTable) (ds : List TableDeclaration) : SignatureTable := ds.foldl step t

/-- The declarations that are not refused, each one made after those before it. -/
def successes : SignatureTable → List TableDeclaration → List TableDeclaration
  | _, [] => []
  | t, d :: ds =>
      match t.declare d with
      | .ok t' => d :: t'.successes ds
      | .error _ => t.successes ds

/-- The name is taken: by a method for a method, by a field for a field. -/
def Taken (t : SignatureTable) : TableDeclaration → Prop
  | .method s => ∃ s' ∈ t.methods, s'.name = s.name
  | .field name _ => ∃ f ∈ t.fields, f.1 = name

/-- A postcondition of the declaration speaks about an argument that is no parameter. -/
def Misses (d : TableDeclaration) : Prop := ∃ s, d = .method s ∧ ¬ s.InRange

/-- The table with one more declaration. -/
def add (t : SignatureTable) (d : TableDeclaration) : SignatureTable :=
  ⟨t.methods ++ d.method?.toList, t.fields ++ d.field?.toList⟩

theorem method?_isSome_iff : (t.method? name).isSome ↔ ∃ s ∈ t.methods, s.name = name := by
  simp [method?]

theorem field?_isSome_iff : (t.field? name).isSome ↔ ∃ f ∈ t.fields, f.1 = name := by
  simp [field?]

/-- Why a declaration is refused. The first target out of range comes before a repeated name. -/
inductive Refusal (t : SignatureTable) : TableDeclaration → DeclarationError → Prop
  | target {s : MethodSignature Qualifier} {i : Nat} (h : s.FirstMiss i) :
      Refusal t (.method s) (.targetOutOfRange s.name i s.params.length)
  | method {s : MethodSignature Qualifier} (hrange : s.InRange) (h : t.Taken (.method s)) :
      Refusal t (.method s) (.duplicateSignature s.name)
  | field {name : String} {q : Qualifier} (h : t.Taken (.field name q)) :
      Refusal t (.field name q) (.duplicateField name)

theorem Refusal.declare_eq (h : t.Refusal d e) : t.declare d = .error e := by
  cases h with
  | target h => rw [declare, insert, MethodSignature.outOfRange?_eq_some_iff.mpr h]
  | method hrange h =>
      rw [declare, insert, MethodSignature.outOfRange?_eq_none_iff.mpr hrange]
      exact if_pos (method?_isSome_iff.mpr h)
  | field h => exact if_pos (field?_isSome_iff.mpr h)

theorem Refusal.taken_or_misses (h : t.Refusal d e) : t.Taken d ∨ Misses d := by
  cases h with
  | target h => exact .inr ⟨_, rfl, MethodSignature.exists_firstMiss_iff.mp ⟨_, h⟩⟩
  | method _ h => exact .inl h
  | field h => exact .inl h

theorem exists_refusal (h : t.Taken d ∨ Misses d) : ∃ e, t.Refusal d e := by
  cases d with
  | method s =>
      by_cases hrange : s.InRange
      · refine ⟨_, .method hrange (h.resolve_right ?_)⟩
        rintro ⟨_, ⟨⟩, hnot⟩
        exact hnot hrange
      · obtain ⟨i, hmiss⟩ := MethodSignature.exists_firstMiss_iff.mpr hrange
        exact ⟨_, .target hmiss⟩
  | field name q => exact ⟨_, .field (h.resolve_right nofun)⟩

theorem declare_of_admitted (htaken : ¬ t.Taken d) (hmisses : ¬ Misses d) :
    t.declare d = .ok (t.add d) := by
  cases d with
  | method s =>
      have hrange : s.InRange := not_not.mp fun h => hmisses ⟨s, rfl, h⟩
      rw [declare, insert, MethodSignature.outOfRange?_eq_none_iff.mpr hrange]
      refine (if_neg fun h => htaken (method?_isSome_iff.mp h)).trans ?_
      simp [add, TableDeclaration.method?, TableDeclaration.field?]
  | field name q =>
      refine (if_neg fun h => htaken (field?_isSome_iff.mp h)).trans ?_
      simp [add, TableDeclaration.method?, TableDeclaration.field?]

/-- A declaration is refused for a reason, or else only adds itself. -/
theorem declare_cases (t : SignatureTable) (d : TableDeclaration) :
    (∃ e, t.Refusal d e ∧ t.declare d = .error e) ∨
      (¬ t.Taken d ∧ ¬ Misses d ∧ t.declare d = .ok (t.add d)) := by
  by_cases h : t.Taken d ∨ Misses d
  · obtain ⟨e, he⟩ := exists_refusal h
    exact .inl ⟨e, he, he.declare_eq⟩
  · obtain ⟨htaken, hmisses⟩ := not_or.mp h
    exact .inr ⟨htaken, hmisses, declare_of_admitted htaken hmisses⟩

theorem declare_error_iff : t.declare d = .error e ↔ t.Refusal d e := by
  refine ⟨fun h => ?_, Refusal.declare_eq⟩
  rcases declare_cases t d with ⟨e', he, herror⟩ | ⟨-, -, hok⟩
  · exact Except.error.inj (herror.symm.trans h) ▸ he
  · cases hok.symm.trans h

theorem refused_iff : (∃ e, t.declare d = .error e) ↔ t.Taken d ∨ Misses d := by
  constructor
  · rintro ⟨e, h⟩
    exact (declare_error_iff.mp h).taken_or_misses
  · intro h
    obtain ⟨e, he⟩ := exists_refusal h
    exact ⟨e, he.declare_eq⟩

theorem step_of_error (h : t.declare d = .error e) : t.step d = t := by rw [step, h]

theorem after_concat (t : SignatureTable) (ds : List TableDeclaration) (d : TableDeclaration) :
    t.after (ds ++ [d]) = (t.after ds).step d := by
  simp [after]

/-- What the table has after some declarations is what succeeded, in order. -/
theorem after_eq (t : SignatureTable) (ds : List TableDeclaration) : t.after ds =
    ⟨t.methods ++ (t.successes ds).filterMap TableDeclaration.method?,
      t.fields ++ (t.successes ds).filterMap TableDeclaration.field?⟩ := by
  induction ds generalizing t with
  | nil => simp [after, successes]
  | cons d ds ih =>
      change (t.step d).after ds = _
      rw [step, successes]
      rcases declare_cases t d with ⟨e, -, herror⟩ | ⟨-, -, hok⟩
      · rw [herror]
        exact ih t
      · rw [hok, ih (t.add d), add, List.append_assoc, List.append_assoc]
        cases d <;> rfl

/-- What holds of a table, and of it with a declaration that is in range and not taken, holds after
any declarations. -/
theorem after_induction {motive : SignatureTable → Prop} (ds : List TableDeclaration)
    (hstart : motive t)
    (hadd : ∀ t d, motive t → ¬ t.Taken d → ¬ Misses d → motive (t.add d)) :
    motive (t.after ds) := by
  induction ds generalizing t with
  | nil => exact hstart
  | cons d ds ih =>
      refine ih (t := t.step d) ?_
      rw [step]
      rcases declare_cases t d with ⟨e, -, herror⟩ | ⟨htaken, hmisses, hok⟩
      · rw [herror]
        exact hstart
      · rw [hok]
        exact hadd t d hstart htaken hmisses

/-- A method that a table has keeps its signature, and another one gets the one declared. -/
theorem method?_step (t : SignatureTable) (d : TableDeclaration) (name : String) :
    (t.step d).method? name =
      (t.method? name).or (d.method?.toList.find? fun s => s.name = name ∧ s.InRange) := by
  rcases declare_cases t d with ⟨e, he, herror⟩ | ⟨-, hmisses, hok⟩
  · rw [step_of_error herror]
    cases he with
    | @target s _ h =>
        have hrange : ¬ s.InRange := MethodSignature.exists_firstMiss_iff.mp ⟨_, h⟩
        simp [TableDeclaration.method?, hrange]
    | @method s _ h =>
        by_cases hname : s.name = name
        · obtain ⟨found, hfound⟩ := Option.isSome_iff_exists.mp (method?_isSome_iff.mpr h)
          rw [← hname, hfound, Option.some_or]
        · simp [TableDeclaration.method?, hname]
    | field _ => simp [TableDeclaration.method?]
  · rw [step, hok]
    change (t.methods ++ d.method?.toList).find? _ = _
    rw [List.find?_append, ← method?]
    cases d with
    | method s =>
        have hrange : s.InRange := not_not.mp fun h => hmisses ⟨s, rfl, h⟩
        by_cases hname : s.name = name <;> simp [TableDeclaration.method?, hrange, hname]
    | field _ _ => rfl

theorem field?_step (t : SignatureTable) (d : TableDeclaration) (name : String) :
    (t.step d).field? name =
      (t.field? name).or ((d.field?.toList.find? (·.1 = name)).map Prod.snd) := by
  rcases declare_cases t d with ⟨e, he, herror⟩ | ⟨-, -, hok⟩
  · rw [step_of_error herror]
    cases he with
    | target _ => simp [TableDeclaration.field?]
    | method _ _ => simp [TableDeclaration.field?]
    | @field declared _ h =>
        by_cases hname : declared = name
        · obtain ⟨found, hfound⟩ := Option.isSome_iff_exists.mp (field?_isSome_iff.mpr h)
          rw [← hname, hfound, Option.some_or]
        · simp [TableDeclaration.field?, hname]
  · rw [step, hok]
    change ((t.fields ++ d.field?.toList).find? _).map Prod.snd = _
    rw [List.find?_append, Option.map_or, ← field?]

/-- What a table has after some declarations, and what it refuses next. -/
structure KeepsFirst (ds : List TableDeclaration) (t : SignatureTable) : Prop where
  refused (d : TableDeclaration) : (∃ e, t.declare d = .error e) ↔ t.Taken d ∨ Misses d
  reason (d : TableDeclaration) (e : DeclarationError) : t.declare d = .error e ↔ t.Refusal d e
  unchanged {d : TableDeclaration} {e : DeclarationError} (h : t.declare d = .error e) :
    empty.after (ds ++ [d]) = t
  method (name : String) : t.method? name =
    ((empty.successes ds).find? (·.isMethod name)).bind TableDeclaration.method?
  field (name : String) : t.field? name =
    (((empty.successes ds).find? (·.isField name)).bind TableDeclaration.field?).map Prod.snd
  firstMethod (name : String) : t.method? name =
    (ds.filterMap TableDeclaration.method?).find? fun s => s.name = name ∧ s.InRange
  firstField (name : String) : t.field? name =
    ((ds.filterMap TableDeclaration.field?).find? (·.1 = name)).map Prod.snd
  isPure (name : String) : t.isPure name =
    (((empty.successes ds).find? (·.isMethod name)).bind TableDeclaration.method?).any (·.isPure)
  size : t.size = (empty.successes ds).countP (·.method?.isSome)
  inRange : ∀ s ∈ t.methods, s.InRange
  methodNames : (t.methods.map MethodSignature.name).Nodup
  fieldNames : (t.fields.map Prod.fst).Nodup

theorem methods_after (ds : List TableDeclaration) :
    (empty.after ds).methods = (empty.successes ds).filterMap TableDeclaration.method? := by
  rw [after_eq]
  rfl

theorem fields_after (ds : List TableDeclaration) :
    (empty.after ds).fields = (empty.successes ds).filterMap TableDeclaration.field? := by
  rw [after_eq]
  rfl

theorem method?_after (ds : List TableDeclaration) (name : String) : (empty.after ds).method? name =
    ((empty.successes ds).find? (·.isMethod name)).bind TableDeclaration.method? := by
  rw [method?, methods_after, List.find?_filterMap]
  rfl

theorem field?_after (ds : List TableDeclaration) (name : String) : (empty.after ds).field? name =
    (((empty.successes ds).find? (·.isField name)).bind TableDeclaration.field?).map Prod.snd := by
  rw [field?, fields_after, List.find?_filterMap]
  rfl

theorem method?_after_eq_find? (ds : List TableDeclaration) (name : String) :
    (empty.after ds).method? name = (ds.filterMap TableDeclaration.method?).find? fun s =>
      s.name = name ∧ s.InRange := by
  induction ds using List.reverseRecOn with
  | nil => rfl
  | append_singleton ds d ih =>
      rw [after_concat, method?_step, ih, List.filterMap_append, List.find?_append]
      cases d <;> rfl

theorem field?_after_eq_find? (ds : List TableDeclaration) (name : String) :
    (empty.after ds).field? name =
      ((ds.filterMap TableDeclaration.field?).find? (·.1 = name)).map Prod.snd := by
  induction ds using List.reverseRecOn with
  | nil => rfl
  | append_singleton ds d ih =>
      rw [after_concat, field?_step, ih, List.filterMap_append, List.find?_append, Option.map_or]
      cases d <;> rfl

theorem inRange_after (ds : List TableDeclaration) : ∀ s ∈ (empty.after ds).methods, s.InRange := by
  refine after_induction (motive := fun t => ∀ s ∈ t.methods, s.InRange) ds nofun ?_
  intro t d ht _ hmisses s hs
  rcases List.mem_append.mp hs with hs | hs
  · exact ht s hs
  · cases d with
    | method s' =>
        obtain rfl : s = s' := by simpa [TableDeclaration.method?] using hs
        exact not_not.mp fun h => hmisses ⟨s, rfl, h⟩
    | field _ _ => cases hs

theorem nodup_names_after (ds : List TableDeclaration) :
    ((empty.after ds).methods.map MethodSignature.name).Nodup ∧
      ((empty.after ds).fields.map Prod.fst).Nodup := by
  refine after_induction (motive := fun t => (t.methods.map MethodSignature.name).Nodup ∧
    (t.fields.map Prod.fst).Nodup) ds ⟨.nil, .nil⟩ ?_
  rintro t d ⟨hmethods, hfields⟩ htaken -
  cases d with
  | method s =>
      refine ⟨?_, by simpa [add, TableDeclaration.field?] using hfields⟩
      have hnew : s.name ∉ t.methods.map MethodSignature.name := fun h =>
        htaken (List.mem_map.mp h)
      simpa [add, TableDeclaration.method?] using hmethods.concat hnew
  | field name q =>
      refine ⟨by simpa [add, TableDeclaration.method?] using hmethods, ?_⟩
      have hnew : name ∉ t.fields.map Prod.fst := fun h => htaken (List.mem_map.mp h)
      simpa [add, TableDeclaration.field?] using hfields.concat hnew

/-- Whatever is declared, the table keeps the first declarations that are in range, and a refused
one leaves no trace. -/
theorem after_keepsFirst (ds : List TableDeclaration) : KeepsFirst ds (empty.after ds) where
  refused _ := refused_iff
  reason _ _ := declare_error_iff
  unchanged h := by rw [after_concat, step_of_error h]
  method := method?_after ds
  field := field?_after ds
  firstMethod := method?_after_eq_find? ds
  firstField := field?_after_eq_find? ds
  isPure name := congrArg (Option.any MethodSignature.isPure) (method?_after ds name)
  size := by rw [size, methods_after, List.length_filterMap_eq_countP]
  inRange := inRange_after ds
  methodNames := (nodup_names_after ds).1
  fieldNames := (nodup_names_after ds).2

end SignatureTable

end FlowTyping
