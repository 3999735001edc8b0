import FlowTyping.Proofs.Control.Behaviour
import FlowTyping.Proofs.Lowering.Placement
import Mathlib.Tactic.Common

/-!
Walks through a layout, and what it means that the code at a place does what a piece
of a program does.
-/

namespace FlowTyping

def NodeKind.operation : NodeKind → Operation
  | .literal value => .literal value
  | .localRead var => .localRead var.name
  | .this => .this
  | .fieldRead _ field => .fieldRead field
  | .call _ method _ => .call method
  | .new className _ => .new className
  | .binary op _ _ => .binary op
  | .unary op _ => .unary op
  | .shortCircuit op _ _ => .shortCircuit op
  | .ternaryMerge _ _ => .ternaryMerge
  | .cast qualifier _ => .cast qualifier
  | .localDecl var => .localDecl var.name var.declared
  | .assign (.local var) _ => .assignLocal var.name
  | .assign (.field _ field) _ => .assignField field
  | .returnValue _ => .returnValue
  | .throw exception _ => .throw exception
  | .assertFailure => .assertFailure

/-- Where the exits of a block lead, with what can be seen of it. A raising node that
completes leaves control past its block. -/
inductive Exits.Leads (block : BlockId) : Exits → Trace → Point → Prop
  | goto {target : BlockId} : Leads block (.goto target) [] (.startOf target)
  | special {kind : SpecialKind} {target : BlockId} :
      Leads block (.special kind (some target)) [] (.startOf target)
  | outcome {condition : NodeId} {thenTarget elseTarget : BlockId} (b : Bool) :
      Leads block (.branch condition thenTarget elseTarget) [.outcome b]
        (.startOf (if b then thenTarget else elseTarget))
  | completed {successor : Option BlockId} {handlers : List (String × BlockId)}
      {terminal : Bool} (h : terminal = true → successor ≠ none) :
      Leads block (.raise successor handlers terminal) [.completed] (.past block)
  | raised {successor : Option BlockId} {handlers : List (String × BlockId)}
      {terminal : Bool} {category : String} {target : BlockId}
      (h : (category, target) ∈ handlers) :
      Leads block (.raise successor handlers terminal) [.raised category] (.startOf target)

namespace Layout

/-- One move between two places. -/
inductive Step (D : Layout) : Point → Trace → Point → Prop
  | operation {block index : Nat} {d : Draft} {id : NodeId} {n : Node}
      (hd : D.drafts[block]? = some d) (hid : d.nodes[index]? = some id)
      (hn : D.nodes[id]? = some n) :
      Step D (.inside block index) [.operation n.kind.operation] (.inside block (index + 1))
  | leave {block : Nat} {d : Draft} {τ : Trace} {q : Point} (hd : D.drafts[block]? = some d)
      (h : d.exits.Leads block τ q) : Step D (.inside block d.nodes.length) τ q
  | resume {block : Nat} {nodes : List NodeId} {target : BlockId}
      {handlers : List (String × BlockId)} {terminal : Bool}
      (hd : D.drafts[block]? = some ⟨nodes, .raise (some target) handlers terminal⟩) :
      Step D (.past block) [] (.startOf target)

/-- A number of moves. -/
inductive Walk (D : Layout) : Nat → Point → Trace → Point → Prop
  | here (p : Point) : Walk D 0 p [] p
  | step {n : Nat} {p q r : Point} {τ₁ τ₂ : Trace} (first : D.Step p τ₁ q)
      (rest : Walk D n q τ₂ r) : Walk D (n + 1) p (τ₁ ++ τ₂) r

/-- No move leads on. -/
def Final (D : Layout) (p : Point) : Prop := ∀ τ q, ¬ D.Step p τ q

variable {D : Layout} {n k : Nat} {p q x y e : Point} {τ τ₁ τ₂ : Trace}

theorem Walk.trans (h : D.Walk n p τ₁ q) (h' : D.Walk k q τ₂ e) :
    ∃ m, D.Walk m p (τ₁ ++ τ₂) e := by
  induction h with
  | here p => exact ⟨k, h'⟩
  | step first _ ih =>
      obtain ⟨m, hm⟩ := ih h'
      exact ⟨m + 1, List.append_assoc .. ▸ .step first hm⟩

theorem Walk.single (h : D.Step p τ q) : D.Walk 1 p τ q :=
  List.append_nil τ ▸ .step h (.here q)

/-- A walk to a final place goes on from a place that is not final. -/
theorem Walk.first (h : D.Walk n p τ e) (he : D.Final e) (hp : ∃ τ q, D.Step p τ q) :
    ∃ k τ₁ τ₂ q, n = k + 1 ∧ τ = τ₁ ++ τ₂ ∧ D.Step p τ₁ q ∧ D.Walk k q τ₂ e := by
  cases h with
  | here =>
      obtain ⟨τ, q, hstep⟩ := hp
      exact absurd hstep (he τ q)
  | step first rest => exact ⟨_, _, _, _, rfl, rfl, first, rest⟩

theorem Walk.of_final (h : D.Walk n p τ q) (hp : D.Final p) : τ = [] ∧ q = p := by
  cases h with
  | here => exact ⟨rfl, rfl⟩
  | step first _ => exact absurd first (hp _ _)

theorem step_inside_iff {block index : Nat} {d : Draft} (hd : D.drafts[block]? = some d) :
    D.Step (.inside block index) τ y ↔
      (∃ id n, d.nodes[index]? = some id ∧ D.nodes[id]? = some n ∧
        τ = [.operation n.kind.operation] ∧ y = .inside block (index + 1)) ∨
      (index = d.nodes.length ∧ d.exits.Leads block τ y) := by
  constructor
  · generalize hp : Point.inside block index = p
    intro h
    cases h with
    | operation hd' hid hn =>
        cases hp
        cases hd.symm.trans hd'
        exact .inl ⟨_, _, hid, hn, rfl, rfl⟩
    | leave hd' h =>
        cases hp
        cases hd.symm.trans hd'
        exact .inr ⟨rfl, h⟩
    | resume => cases hp
  · rintro (⟨id, n, hid, hn, rfl, rfl⟩ | ⟨rfl, h⟩)
    · exact .operation hd hid hn
    · exact .leave hd h

theorem final_of_special {e : Nat} {kind : SpecialKind}
    (he : D.drafts[e]? = some ⟨[], .special kind none⟩) : D.Final (.startOf e) := by
  intro τ q hstep
  rcases (step_inside_iff he).mp hstep with ⟨id, n, hid, -⟩ | ⟨-, hleads⟩
  · simp at hid
  · cases hleads

theorem Silent.step_iff (h : D.Silent p q) : D.Step p τ y ↔ τ = [] ∧ y = q := by
  cases h with
  | goto hd =>
      rw [step_inside_iff hd]
      constructor
      · rintro (⟨id, n, hid, -⟩ | ⟨-, hleads⟩)
        · simp at hid
        · cases hleads
          exact ⟨rfl, rfl⟩
      · rintro ⟨rfl, rfl⟩
        exact .inr ⟨rfl, .goto⟩
  | special hd =>
      rw [step_inside_iff hd]
      constructor
      · rintro (⟨id, n, hid, -⟩ | ⟨-, hleads⟩)
        · simp at hid
        · cases hleads
          exact ⟨rfl, rfl⟩
      · rintro ⟨rfl, rfl⟩
        exact .inr ⟨rfl, .special⟩
  | resume hd =>
      constructor
      · intro hstep
        cases hstep with
        | resume hd' =>
            cases hd.symm.trans hd'
            exact ⟨rfl, rfl⟩
      · rintro ⟨rfl, rfl⟩
        exact .resume hd

theorem Silent.step (h : D.Silent p q) : D.Step p [] q := h.step_iff.mpr ⟨rfl, rfl⟩

theorem Walk.silent (hsilent : D.Silent p q) (h : D.Walk n q τ e) : D.Walk (n + 1) p τ e :=
  .step hsilent.step h

theorem Walk.after_silent (h : D.Walk n p τ e) (he : D.Final e) (hsilent : D.Silent p q) :
    ∃ k, n = k + 1 ∧ D.Walk k q τ e := by
  obtain ⟨k, τ₁, τ₂, y, rfl, rfl, hstep, hwalk⟩ := h.first he ⟨_, _, hsilent.step⟩
  obtain ⟨rfl, rfl⟩ := hsilent.step_iff.mp hstep
  exact ⟨k, rfl, hwalk⟩

theorem Walk.after_flow (h : D.Walk n p τ e) (he : D.Final e) (hflow : D.Flows (some p) q) :
    ∃ k ≤ n, D.Walk k q τ e := by
  cases hflow with
  | stay => exact ⟨n, Nat.le_refl n, h⟩
  | move hsilent =>
      obtain ⟨k, rfl, hwalk⟩ := h.after_silent he hsilent
      exact ⟨k, Nat.le_succ k, hwalk⟩

theorem Walk.flow (h : D.Walk n p τ q) (hflow : D.Flows (some q) e) : ∃ k, D.Walk k p τ e := by
  cases hflow with
  | stay => exact ⟨n, h⟩
  | move hsilent => simpa using h.trans (.single hsilent.step)

theorem Walk.of_flow (hflow : D.Flows (some p) q) (h : D.Walk n q τ e) :
    ∃ k, D.Walk k p τ e := by
  cases hflow with
  | stay => exact ⟨n, h⟩
  | move hsilent => exact ⟨n + 1, h.silent hsilent⟩

end Layout

/-!
What it means that the code at a place does what a piece of a program does, and how
this follows the ways in which pieces are put together.
-/

/-- The final bodies on a way out of regions, and the block that it leads to. -/
def Region.way (regions : List Region) : Departure → Option (List FinalCopy × BlockId)
  | .broke label => jumped label true regions
  | .continued label => jumped label false regions
  | .returned => some (crossed regions, Build.exitId)
  | .raised category => some (caught category regions)

theorem Region.way_finalBody (final : FinalCopy) (regions : List Region) (departure : Departure) :
    way (.finalBody final :: regions) departure =
      (way regions departure).map fun found => (final :: found.1, found.2) := by
  cases departure <;> rfl

namespace Layout

/-- The code at a place has the runs of a piece of a program, up to the places at which
it ends. Every walk from it to a final place passes such an end, no later than it would
without the moves in between. -/
structure Realises (D : Layout) {α : Type} (p : Point) (m : Run α)
    (ends : Except Departure α → Point → Prop) : Prop where
  sound : ∀ {n : Nat} {τ : Trace} {e : Point}, D.Final e → D.Walk n p τ e →
    ∃ r τ₁ τ₂ k y, m r τ₁ ∧ ends r y ∧ τ = τ₁ ++ τ₂ ∧ k ≤ n ∧ D.Walk k y τ₂ e
  complete : ∀ {r : Except Departure α} {τ : Trace}, m r τ → ∃ y n, ends r y ∧ D.Walk n p τ y

/-- Control at a place is on a way out of regions. -/
def Departing (D : Layout) (regions : List Region) (departure : Departure) (p : Point) : Prop :=
  ∃ crossed target scopes, Region.way regions departure = some (crossed, target) ∧
    D.LeadsThrough scopes target crossed (some p)

/-- The ends of code inside regions: those after it completes, and the ways out. -/
def Arrives (D : Layout) {α : Type} (regions : List Region) (ends : α → Point → Prop) :
    Except Departure α → Point → Prop
  | .ok a, p => ends a p
  | .error departure, p => D.Departing regions departure p

namespace Realises

variable {D : Layout} {α β : Type} {p q : Point} {m : Run α} {f : α → Run β}
  {ends ends' : Except Departure α → Point → Prop} {final : Except Departure β → Point → Prop}
  {regions : List Region} {after : α → Point → Prop} {last : β → Point → Prop}

theorem give {r : Except Departure α} (h : ends r p) : D.Realises p (Run.give r) ends where
  sound _ hwalk := ⟨r, [], _, _, p, ⟨rfl, rfl⟩, h, rfl, Nat.le_refl _, hwalk⟩
  complete := by
    rintro _ _ ⟨rfl, rfl⟩
    exact ⟨p, 0, h, .here p⟩

theorem handle {f : Except Departure α → Run β} (h : D.Realises p m ends)
    (hf : ∀ r y, ends r y → D.Realises y (f r) final) : D.Realises p (m.handle f) final where
  sound he hwalk := by
    obtain ⟨r, τ₁, τ₂, k, y, hm, hends, rfl, hk, hwalk⟩ := h.sound he hwalk
    obtain ⟨r', τ₃, τ₄, k', y', hr', hfinal, rfl, hk', hwalk⟩ := (hf r y hends).sound he hwalk
    exact ⟨r', τ₁ ++ τ₃, τ₄, k', y', ⟨r, τ₁, τ₃, hm, hr', rfl⟩, hfinal,
      (List.append_assoc ..).symm, Nat.le_trans hk' hk, hwalk⟩
  complete := by
    rintro r' _ ⟨r, τ₁, τ₂, hm, hr', rfl⟩
    obtain ⟨y, n, hends, hwalk⟩ := h.complete hm
    obtain ⟨y', n', hfinal, hwalk'⟩ := (hf r y hends).complete hr'
    obtain ⟨k, hwalk⟩ := hwalk.trans hwalk'
    exact ⟨y', k, hfinal, hwalk⟩

theorem handle_give {f : Except Departure α → Run β} {r : Except Departure α}
    (h : D.Realises p (f r) final) : D.Realises p ((Run.give r).handle f) final :=
  .handle (.give (⟨rfl, rfl⟩ : r = r ∧ p = p) : D.Realises p (.give r) fun r' y => r' = r ∧ y = p)
    fun _ _ ⟨hr, hy⟩ => hr ▸ hy ▸ h

/-- A departure passes by what follows in the same regions. -/
theorem bind (h : D.Realises p m (D.Arrives regions after))
    (hf : ∀ a y, after a y → D.Realises y (f a) (D.Arrives regions last)) :
    D.Realises p (m >>= f) (D.Arrives regions last) :=
  handle h fun r y hends => by
    cases r with
    | ok a => exact hf a y hends
    | error departure => exact give hends

theorem pure {a : α} (h : after a p) :
    D.Realises p (Pure.pure a : Run α) (D.Arrives regions after) :=
  give h

theorem leave {departure : Departure} (h : D.Departing regions departure p) :
    D.Realises p (Run.leave departure : Run α) (D.Arrives regions after) :=
  give h

/-- Code of which the first move is known. -/
theorem step (hexists : ∃ τ q, D.Step p τ q)
    (hsound : ∀ τ q, D.Step p τ q → ∃ r, m r τ ∧ ends r q)
    (hcomplete : ∀ r τ, m r τ → ∃ q, D.Step p τ q ∧ ends r q) : D.Realises p m ends where
  sound he hwalk := by
    obtain ⟨k, τ₁, τ₂, q, rfl, rfl, hstep, hwalk⟩ := hwalk.first he hexists
    obtain ⟨r, hm, hends⟩ := hsound τ₁ q hstep
    exact ⟨r, τ₁, τ₂, k, q, hm, hends, rfl, Nat.le_succ k, hwalk⟩
  complete hm := by
    obtain ⟨q, hstep, hends⟩ := hcomplete _ _ hm
    exact ⟨q, 1, hends, .single hstep⟩

/-- Ends may lie further on, where control comes without a choice. -/
theorem mono (h : D.Realises p m ends)
    (hends : ∀ r y, ends r y → ∃ z, D.Flows (some y) z ∧ ends' r z) :
    D.Realises p m ends' where
  sound he hwalk := by
    obtain ⟨r, τ₁, τ₂, k, y, hm, hy, rfl, hk, hwalk⟩ := h.sound he hwalk
    obtain ⟨z, hflow, hz⟩ := hends r y hy
    obtain ⟨k', hk', hwalk⟩ := hwalk.after_flow he hflow
    exact ⟨r, τ₁, τ₂, k', z, hm, hz, rfl, Nat.le_trans hk' hk, hwalk⟩
  complete hm := by
    obtain ⟨y, n, hy, hwalk⟩ := h.complete hm
    obtain ⟨z, hflow, hz⟩ := hends _ y hy
    obtain ⟨k, hwalk⟩ := hwalk.flow hflow
    exact ⟨z, k, hz, hwalk⟩

/-- The places after code that completes may lie further on. -/
theorem after_mono {after' : α → Point → Prop} (h : D.Realises p m (D.Arrives regions after))
    (hafter : ∀ a y, after a y → ∃ z, D.Flows (some y) z ∧ after' a z) :
    D.Realises p m (D.Arrives regions after') :=
  h.mono fun r y hy => by
    cases r with
    | ok a => exact hafter a y hy
    | error departure => exact ⟨y, .stay y, hy⟩

theorem flow (hflow : D.Flows (some p) q) (h : D.Realises q m ends) : D.Realises p m ends where
  sound he hwalk := by
    obtain ⟨k, hk, hwalk⟩ := hwalk.after_flow he hflow
    obtain ⟨r, τ₁, τ₂, k', y, hm, hends, rfl, hk', hwalk⟩ := h.sound he hwalk
    exact ⟨r, τ₁, τ₂, k', y, hm, hends, rfl, Nat.le_trans hk' hk, hwalk⟩
  complete hm := by
    obtain ⟨y, n, hends, hwalk⟩ := h.complete hm
    obtain ⟨k, hwalk⟩ := hwalk.of_flow hflow
    exact ⟨y, k, hends, hwalk⟩

/-- A loop goes on as long as its rounds come back to its head, from which the next
round is one move away. -/
theorem loop {head first : Point} {round : Run Bool} {done : Unit → Point → Prop}
    (hsilent : D.Silent head first)
    (hround : D.Realises first round (D.Arrives regions fun again y =>
      if again then D.Flows (some y) head else done () y)) :
    D.Realises head round.loop (D.Arrives regions done) where
  sound {n τ e} he hwalk := by
    -- A walk from the head gets shorter with each round.
    induction n using Nat.strongRecOn generalizing τ with
    | ind n ih =>
        obtain ⟨k, rfl, hfirst⟩ := hwalk.after_silent he hsilent
        obtain ⟨r, τ₁, τ₂, k₁, y, hr, hends, rfl, hk₁, hwalk⟩ := hround.sound he hfirst
        match r with
        | .ok false => exact ⟨.ok (), τ₁, τ₂, k₁, y, .last hr, hends, rfl, by omega, hwalk⟩
        | .error departure =>
            exact ⟨.error departure, τ₁, τ₂, k₁, y, .left hr, hends, rfl, by omega, hwalk⟩
        | .ok true =>
            obtain ⟨k₂, hk₂, hwalk⟩ := hwalk.after_flow he hends
            obtain ⟨r, τ₃, τ₄, k₃, z, hloop, hz, rfl, hk₃, hwalk⟩ := ih k₂ (by omega) hwalk
            exact ⟨r, τ₁ ++ τ₃, τ₄, k₃, z, .again hr hloop, hz,
              (List.append_assoc ..).symm, by omega, hwalk⟩
  complete {r τ} hm := by
    induction hm with
    | last h =>
        obtain ⟨y, n, hends, hwalk⟩ := hround.complete h
        exact ⟨y, n + 1, hends, hwalk.silent hsilent⟩
    | left h =>
        obtain ⟨y, n, hends, hwalk⟩ := hround.complete h
        exact ⟨y, n + 1, hends, hwalk.silent hsilent⟩
    | again h _ ih =>
        obtain ⟨y, n, hends, hwalk⟩ := hround.complete h
        obtain ⟨z, k, hz, hrest⟩ := ih
        obtain ⟨k, hrest⟩ := hrest.of_flow hends
        obtain ⟨m, hwalk⟩ := hwalk.trans hrest
        exact ⟨z, m + 1, hz, hwalk.silent hsilent⟩

end Realises

end Layout

end FlowTyping
