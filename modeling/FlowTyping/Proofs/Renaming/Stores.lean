import FlowTyping.Flow.Refinement
import FlowTyping.Proofs.Flow.Stores
import Mathlib.Logic.Equiv.Defs

/-!
Stores that say the same of keys whose local variables are renamed. The order of the
entries depends on names, so stores correspond by what they say of each key.
-/

namespace FlowTyping

mutual

/-- The key of an expression with its local variables renamed. -/
def FlowKey.rename (ρ : String → String) : FlowKey → FlowKey
  | .local name => .local (ρ name)
  | .this => .this
  | .field receiver name => .field (receiver.rename ρ) name
  | .pureCall receiver method args =>
      .pureCall (FlowKey.renameOption ρ receiver) method (FlowKey.renameList ρ args)
  | .literal text => .literal text

def FlowKey.renameOption (ρ : String → String) : Option FlowKey → Option FlowKey
  | none => none
  | some key => some (key.rename ρ)

def FlowKey.renameList (ρ : String → String) : List FlowKey → List FlowKey
  | [] => []
  | key :: rest => key.rename ρ :: FlowKey.renameList ρ rest

end

namespace FlowKey

section

variable {ρ σ : String → String}

mutual

theorem rename_leftInverse (h : Function.LeftInverse σ ρ) :
    (key : FlowKey) → (key.rename ρ).rename σ = key
  | .local name => congrArg FlowKey.local (h name)
  | .this => rfl
  | .field receiver name => by rw [rename, rename, rename_leftInverse h receiver]
  | .pureCall receiver method args => by
      rw [rename, rename, renameOption_leftInverse h receiver, renameList_leftInverse h args]
  | .literal text => rfl

theorem renameOption_leftInverse (h : Function.LeftInverse σ ρ) :
    (key : Option FlowKey) → renameOption σ (renameOption ρ key) = key
  | none => rfl
  | some key => congrArg some (rename_leftInverse h key)

theorem renameList_leftInverse (h : Function.LeftInverse σ ρ) :
    (keys : List FlowKey) → renameList σ (renameList ρ keys) = keys
  | [] => rfl
  | key :: rest => by
      rw [renameList, renameList, rename_leftInverse h key, renameList_leftInverse h rest]

end

mutual

theorem mentionsLocal_rename (hρ : Function.Injective ρ) (name : String) :
    (key : FlowKey) → (key.rename ρ).mentionsLocal (ρ name) = key.mentionsLocal name
  | .local found => by simp [rename, mentionsLocal, hρ.eq_iff]
  | .this => rfl
  | .field receiver _ => mentionsLocal_rename hρ name receiver
  | .pureCall receiver _ args => by
      rw [rename, mentionsLocal, mentionsLocal, optionMentionsLocal_rename hρ name receiver,
        anyMentionsLocal_rename hρ name args]
  | .literal _ => rfl

theorem optionMentionsLocal_rename (hρ : Function.Injective ρ) (name : String) :
    (key : Option FlowKey) →
      optionMentionsLocal (ρ name) (renameOption ρ key) = optionMentionsLocal name key
  | none => rfl
  | some key => mentionsLocal_rename hρ name key

theorem anyMentionsLocal_rename (hρ : Function.Injective ρ) (name : String) :
    (keys : List FlowKey) → anyMentionsLocal (ρ name) (renameList ρ keys) =
      anyMentionsLocal name keys
  | [] => rfl
  | key :: rest => by
      rw [renameList, anyMentionsLocal, anyMentionsLocal, mentionsLocal_rename hρ name key,
        anyMentionsLocal_rename hρ name rest]

end

mutual

theorem mentionsField_rename (ρ : String → String) (name : String) :
    (key : FlowKey) → (key.rename ρ).mentionsField name = key.mentionsField name
  | .local _ => rfl
  | .this => rfl
  | .field receiver found => by
      rw [rename, mentionsField, mentionsField, mentionsField_rename ρ name receiver]
  | .pureCall receiver _ args => by
      rw [rename, mentionsField, mentionsField, optionMentionsField_rename ρ name receiver,
        anyMentionsField_rename ρ name args]
  | .literal _ => rfl

theorem optionMentionsField_rename (ρ : String → String) (name : String) :
    (key : Option FlowKey) →
      optionMentionsField name (renameOption ρ key) = optionMentionsField name key
  | none => rfl
  | some key => mentionsField_rename ρ name key

theorem anyMentionsField_rename (ρ : String → String) (name : String) :
    (keys : List FlowKey) →
      anyMentionsField name (renameList ρ keys) = anyMentionsField name keys
  | [] => rfl
  | key :: rest => by
      rw [renameList, anyMentionsField, anyMentionsField, mentionsField_rename ρ name key,
        anyMentionsField_rename ρ name rest]

end

@[simp]
theorem isRefinable_rename (ρ : String → String) (key : FlowKey) :
    (key.rename ρ).isRefinable = key.isRefinable := by
  cases key <;> rfl

@[simp]
theorem isHeapDependent_rename (ρ : String → String) (key : FlowKey) :
    (key.rename ρ).isHeapDependent = key.isHeapDependent := by
  cases key <;> rfl

@[simp]
theorem isPureCall_rename (ρ : String → String) (key : FlowKey) :
    (key.rename ρ).isPureCall = key.isPureCall := by
  cases key <;> rfl

end

variable (ρ : Equiv.Perm String)

theorem rename_injective : Function.Injective (rename ρ) :=
  Function.LeftInverse.injective (rename_leftInverse ρ.left_inv)

theorem rename_surjective : Function.Surjective (rename ρ) :=
  Function.RightInverse.surjective (rename_leftInverse ρ.right_inv)

end FlowKey

/-- Two stores say the same up to the names of variables. -/
structure Store.Renamed (ρ : Equiv.Perm String) (s s' : Store) : Prop where
  top : s'.top = s.top
  reachable : s'.reachable = s.reachable
  get? : ∀ key, s'.get? (key.rename ρ) = s.get? key

namespace Store.Renamed

variable {ρ : Equiv.Perm String} {s s' t t' : Store} {h : Hierarchy}

theorem of_empty (top : Qualifier) (reachable : Bool) :
    Renamed ρ ⟨[], top, reachable⟩ ⟨[], top, reachable⟩ where
  top := rfl
  reachable := rfl
  get? _ := rfl

theorem valueOrTop (hs : s.Renamed ρ s') (key : FlowKey) :
    s'.valueOrTop (key.rename ρ) = s.valueOrTop key := by
  unfold Store.valueOrTop
  rw [hs.get?, hs.top]

theorem mem_keys (hs : s.Renamed ρ s') (key : FlowKey) :
    key.rename ρ ∈ s'.keys ↔ key ∈ s.keys := by
  rw [← not_iff_not, ← get?_eq_none, ← get?_eq_none, hs.get?]

theorem insert (hs : s.Renamed ρ s') (key : FlowKey) (q : Qualifier) :
    (s.insert key q).Renamed ρ (s'.insert (key.rename ρ) q) where
  top := by
    unfold Store.insert
    rw [FlowKey.isRefinable_rename]
    split
    · exact hs.top
    · exact hs.top
  reachable := by rw [reachable_insert, reachable_insert, hs.reachable]
  get? k := by
    simp only [get?_insert, FlowKey.isRefinable_rename, (FlowKey.rename_injective ρ).eq_iff,
      hs.get?]

theorem retain (hs : s.Renamed ρ s') {keep keep' : FlowKey → Bool}
    (hkeep : ∀ key, keep' (key.rename ρ) = keep key) :
    (s.retain keep).Renamed ρ (s'.retain keep') where
  top := hs.top
  reachable := hs.reachable
  get? k := by rw [get?_retain, get?_retain, hkeep, hs.get?]

theorem refine (hs : s.Renamed ρ s') (key : FlowKey) (q : Qualifier) :
    (s.refine h key q).Renamed ρ (s'.refine h (key.rename ρ) q) := by
  unfold Store.refine
  rw [hs.valueOrTop]
  exact hs.insert key _

theorem invalidateLocal (hs : s.Renamed ρ s') (name : String) :
    (s.invalidateLocal name).Renamed ρ (s'.invalidateLocal (ρ name)) :=
  hs.retain fun key => by rw [FlowKey.mentionsLocal_rename ρ.injective]

theorem invalidateField (hs : s.Renamed ρ s') (name : String) :
    (s.invalidateField name).Renamed ρ (s'.invalidateField name) :=
  hs.retain fun key => by rw [FlowKey.mentionsField_rename, FlowKey.isPureCall_rename]

theorem invalidateHeap (hs : s.Renamed ρ s') : s.invalidateHeap.Renamed ρ s'.invalidateHeap :=
  hs.retain fun key => by rw [FlowKey.isHeapDependent_rename]

theorem join (hs : s.Renamed ρ s') (ht : t.Renamed ρ t') :
    (s.join h t).Renamed ρ (s'.join h t') := by
  by_cases hrs : s.reachable = true
  · by_cases hrt : t.reachable = true
    · have hrs' := hs.reachable.trans hrs
      have hrt' := ht.reachable.trans hrt
      refine ⟨?_, ?_, fun key => ?_⟩
      · simp only [Store.join, hrs, hrt, hrs', hrt', Bool.not_true, Bool.false_eq_true, if_false]
        exact hs.top
      · rw [reachable_join, reachable_join, hs.reachable, ht.reachable]
      · rw [get?_join hrs hrt, get?_join hrs' hrt', hs.get?, ht.get?]
        simp only [List.mem_append, hs.mem_keys, ht.mem_keys]
    · simpa [Store.join, hrs, hrt, hs.reachable, ht.reachable] using hs
  · simpa [Store.join, hrs, hs.reachable] using ht

theorem same (hs : s.Renamed ρ s') (ht : t.Renamed ρ t') : s.same t = s'.same t' := by
  unfold Store.same
  rw [hs.reachable, ht.reachable]
  congr 1
  rw [Bool.eq_iff_iff, List.all_eq_true, List.all_eq_true]
  symm
  apply (FlowKey.rename_surjective ρ).forall.trans
  apply forall_congr'
  intro key
  rw [List.mem_append, List.mem_append, hs.mem_keys, ht.mem_keys, hs.valueOrTop, ht.valueOrTop]

end Store.Renamed

/-- What leaves a node or a block in two runs: stores that say the same up to names. -/
inductive TransferResult.Renamed (ρ : Equiv.Perm String) :
    TransferResult → TransferResult → Prop where
  | regular {s s' : Store} : s.Renamed ρ s' → Renamed ρ (.regular s) (.regular s')
  | split {t t' e e' : Store} : t.Renamed ρ t' → e.Renamed ρ e' →
      Renamed ρ (.split t e) (.split t' e')

namespace TransferResult.Renamed

variable {ρ : Equiv.Perm String} {r r' x x' : TransferResult} {h : Hierarchy}

theorem thenStore (hr : r.Renamed ρ r') : r.thenStore.Renamed ρ r'.thenStore := by
  cases hr with
  | regular hs => exact hs
  | split ht he => exact ht

theorem elseStore (hr : r.Renamed ρ r') : r.elseStore.Renamed ρ r'.elseStore := by
  cases hr with
  | regular hs => exact hs
  | split ht he => exact he

theorem collapse (hr : r.Renamed ρ r') : (r.collapse h).Renamed ρ (r'.collapse h) := by
  cases hr with
  | regular hs => exact hs
  | split ht he => exact ht.join he

theorem swap (hr : r.Renamed ρ r') : r.swap.Renamed ρ r'.swap := by
  cases hr with
  | regular hs => exact .regular hs
  | split ht he => exact .split he ht

theorem join (hr : r.Renamed ρ r') (hx : x.Renamed ρ x') :
    (r.join h x).Renamed ρ (r'.join h x') := by
  have hcollapsed := (hr.collapse (h := h)).join (hx.collapse (h := h)) (h := h)
  cases hr with
  | regular hs => exact .regular hcollapsed
  | split ht he =>
      cases hx with
      | regular hs => exact .regular hcollapsed
      | split ht' he' => exact .split (ht.join ht') (he.join he')

theorem same (hr : r.Renamed ρ r') (hx : x.Renamed ρ x') : r.same x = r'.same x' := by
  cases hr with
  | regular hs =>
      cases hx with
      | regular hs' => exact hs.same hs'
      | split ht' he' => rfl
  | split ht he =>
      cases hx with
      | regular hs' => rfl
      | split ht' he' =>
          unfold TransferResult.same
          dsimp only
          rw [ht.same ht', he.same he']

end TransferResult.Renamed

end FlowTyping
