import FlowTyping.Proofs.Checker.Height
import FlowTyping.Proofs.Flow.Stores

/-!
Computations whose table accesses are checked. An access out of range is a fault, and a
computation without faults gives what it gives where such accesses are given a default.
-/

namespace FlowTyping

/-- A computation that may fail with an error, and that stops where it accesses a table out of
range. -/
abbrev Checked (ε α : Type) := ExceptT ε Option α

namespace Checked

variable {ε α β : Type}

/-- Reads a cell, or stops where there is none. -/
def access (cell : Option α) : Checked ε α := ExceptT.lift cell

/-- A computation that accesses no table. -/
def ofExcept (r : Except ε α) : Checked ε α := ExceptT.mk (some r)

/-- The table with a cell overwritten, if there is such a cell. -/
def write (table : Array α) (i : Nat) (a : α) : Option (Array α) :=
  if i < table.size then some (table.setIfInBounds i a) else none

theorem write_eq {table : Array α} {i : Nat} (hi : i < table.size) (a : α) :
    write table i a = some (table.setIfInBounds i a) := if_pos hi

/-- Every access is in range, and the value found has a property. -/
structure Gives (o : Option α) (x : α) (P : α → Prop) : Prop where
  eq : o = some x
  holds : P x

/-- Every access is in range, and the value that the computation succeeds with has a property. -/
structure Delivers (m : Checked ε α) (r : Except ε α) (P : α → Prop) : Prop where
  eq : m.run = some r
  holds : ∀ a, r = .ok a → P a

namespace Gives

variable {o : Option α} {x : α} {y : β} {P : α → Prop} {Q : β → Prop}

theorem pure (h : P x) : Gives (some x) x P := ⟨rfl, h⟩

theorem weaken {P' : α → Prop} (h : Gives o x P) (hP : P x → P' x) : Gives o x P' :=
  ⟨h.eq, hP h.holds⟩

theorem bind {k : α → Option β} (h : Gives o x P) (hk : P x → Gives (k x) y Q) :
    Gives (o >>= k) y Q := by
  obtain ⟨rfl, hx⟩ := h
  exact hk hx

theorem mapM {f : α → Option β} {g : α → β} {l : List α} (h : ∀ a ∈ l, Gives (f a) (g a) Q) :
    Gives (l.mapM f) (l.map g) fun r => ∀ b ∈ r, Q b := by
  induction l with
  | nil => exact pure (by simp)
  | cons a rest ih =>
      rw [List.forall_mem_cons] at h
      rw [List.mapM_cons]
      apply h.1.bind
      intro ha
      apply (ih h.2).bind
      intro hrest
      exact pure (List.forall_mem_cons.mpr ⟨ha, hrest⟩)

theorem foldlM {f : β → α → Option β} {g : β → α → β} {l : List α} {b : β}
    (h : ∀ b, Q b → ∀ a ∈ l, Gives (f b a) (g b a) Q) (hb : Q b) :
    Gives (l.foldlM f b) (l.foldl g b) Q := by
  induction l generalizing b with
  | nil => exact pure hb
  | cons a rest ih =>
      rw [List.foldlM_cons]
      apply (h b hb a List.mem_cons_self).bind
      intro hnext
      exact ih (fun b hb c hc => h b hb c (List.mem_cons_of_mem a hc)) hnext

end Gives

namespace Delivers

variable {m : Checked ε α} {r : Except ε α} {P : α → Prop} {Q : β → Prop}

theorem ok {a : α} (h : P a) : Delivers (ε := ε) (Pure.pure a) (.ok a) P := by
  refine ⟨rfl, fun b hb => ?_⟩
  cases hb
  exact h

theorem error (e : ε) : Delivers (throw e) (.error e) P := ⟨rfl, nofun⟩

theorem ofExcept (h : ∀ a, r = .ok a → P a) : Delivers (ofExcept r) r P := ⟨rfl, h⟩

theorem run_bind (m : Checked ε α) (k : α → Checked ε β) :
    (m >>= k).run = m.run >>= fun r => match r with
      | .ok a => (k a).run
      | .error e => some (.error e) := rfl

theorem bind_ok {a : α} {k : α → Checked ε β} {r : Except ε β} (h : Delivers m (.ok a) P)
    (hk : P a → Delivers (k a) r Q) : Delivers (m >>= k) r Q := by
  have hnext := hk (h.holds a rfl)
  refine ⟨?_, hnext.holds⟩
  rw [run_bind, h.eq]
  exact hnext.eq

theorem bind_error {e : ε} {k : α → Checked ε β} (h : Delivers m (.error e) P) :
    Delivers (m >>= k) (.error e) Q := by
  refine ⟨?_, nofun⟩
  rw [run_bind, h.eq]
  rfl

theorem bind {f : α → Checked ε β} {g : α → Except ε β} (h : Delivers m r P)
    (hfg : ∀ a, P a → Delivers (f a) (g a) Q) : Delivers (m >>= f) (r >>= g) Q := by
  cases r with
  | error e => exact h.bind_error
  | ok a => exact h.bind_ok (hfg a)

theorem map {f : α → β} (h : Delivers m r P) (hf : ∀ a, P a → Q (f a)) :
    Delivers (f <$> m) (r.map f) Q := by
  obtain ⟨heq, hP⟩ := h
  have hrun : (f <$> m).run = m.run.map (Except.map f) := by
    rw [ExceptT.run_map]
    rfl
  refine ⟨hrun.trans (by rw [heq]; rfl), fun b hb => ?_⟩
  obtain ⟨a, ha, rfl⟩ := map_ok hb
  exact hf a (hP a ha)

theorem forM {f : α → Checked ε PUnit} {g : α → Except ε PUnit} {l : List α}
    (h : ∀ a ∈ l, Delivers (f a) (g a) fun _ => True) :
    Delivers (l.forM f) (l.forM g) fun _ => True := by
  induction l with
  | nil => exact ok trivial
  | cons a rest ih =>
      rw [List.forall_mem_cons] at h
      exact h.1.bind fun _ _ => ih h.2

theorem mapM {f : α → Checked ε β} {g : α → Except ε β} {l : List α}
    (h : ∀ a ∈ l, Delivers (f a) (g a) Q) :
    Delivers (l.mapM f) (l.mapM g) fun bs => ∀ b ∈ bs, Q b := by
  induction l with
  | nil => exact ok (by simp)
  | cons a rest ih =>
      rw [List.forall_mem_cons] at h
      rw [List.mapM_cons, List.mapM_cons]
      apply h.1.bind
      intro b hb
      apply (ih h.2).bind
      intro bs hbs
      exact ok (List.forall_mem_cons.mpr ⟨hb, hbs⟩)

end Delivers

theorem Gives.access {o : Option α} {x : α} {k : α → Checked ε β} {r : Except ε β} {P : α → Prop}
    {Q : β → Prop} (h : Gives o x P) (hk : P x → Delivers (k x) r Q) :
    Delivers (Checked.access o >>= k) r Q := by
  obtain ⟨rfl, hx⟩ := h
  exact hk hx

/-- An access as the last step of a computation. -/
theorem Gives.succeeds {o : Option α} {x : α} {P : α → Prop} (h : Gives o x P) :
    Delivers (ε := ε) (Checked.access o) (.ok x) P := by
  obtain ⟨rfl, hx⟩ := h
  exact .ok hx

theorem gives_getD {table : Array α} {i : Nat} (hi : i < table.size) (d : α) :
    Gives table[i]? (table.getD i d) fun _ => True :=
  ⟨by simp [hi], trivial⟩

theorem gives_write {table : Array α} {i : Nat} (hi : i < table.size) (a : α) :
    Gives (write table i a) (table.setIfInBounds i a) fun t => t.size = table.size :=
  ⟨write_eq hi a, Array.size_setIfInBounds⟩

section Hierarchies

variable (h : Hierarchy)

def isSubtype (a b : Qualifier) : Option Bool := do
  let row ← h.order.table[a.index]?
  row[b.index]?

def join (a b : Qualifier) : Option Qualifier := do
  let row ← h.joins[a.index]?
  row[b.index]?

def meet (a b : Qualifier) : Option Qualifier := do
  let row ← h.meets[a.index]?
  row[b.index]?

def name (q : Qualifier) : Option String := h.names[q.index]?

end Hierarchies

end Checked

/-- Every qualifier of the hierarchy has its cells in the tables, and these hold qualifiers of the
hierarchy. -/
structure Hierarchy.Closed (h : Hierarchy) : Prop extends h.Lawful, h.Tabled

namespace Hierarchy.Closed

open Checked

variable {h : Hierarchy} {a b q : Qualifier}

theorem gives_isSubtype (hh : h.Closed) (ha : h.Has a) (hb : h.Has b) :
    Gives (Checked.isSubtype h a b) (h.isSubtype a b) fun _ => True := by
  obtain ⟨row, hrow, hcell⟩ := hh.order.cell ha hb false
  exact ⟨by rw [Checked.isSubtype, hrow]; exact hcell, trivial⟩

theorem gives_join (hh : h.Closed) (ha : h.Has a) (hb : h.Has b) :
    Gives (Checked.join h a b) (h.join a b) h.Has := by
  obtain ⟨row, hrow, hcell⟩ := hh.joins.cell ha hb h.top
  exact ⟨by rw [Checked.join, hrow]; exact hcell, (hh.has_of_le (hh.le_join_left ha hb)).2⟩

theorem gives_meet (hh : h.Closed) (ha : h.Has a) (hb : h.Has b) :
    Gives (Checked.meet h a b) (h.meet a b) h.Has := by
  obtain ⟨row, hrow, hcell⟩ := hh.meets.cell ha hb h.bottom
  exact ⟨by rw [Checked.meet, hrow]; exact hcell, (hh.has_of_le (hh.meet_le_left ha hb)).1⟩

theorem gives_name (hq : h.Has q) : Gives (Checked.name h q) (h.name q) fun _ => True := by
  refine ⟨?_, trivial⟩
  have hlt : q.index < h.names.length := hq
  change h.names[q.index]? = some (h.names.getD q.index "")
  simp [hlt]

end Hierarchy.Closed

/-!
Stores and transfer results with checked accesses to the tables of their hierarchy.
-/

namespace Checked

variable (h : Hierarchy)

def refine (s : Store) (key : FlowKey) (q : Qualifier) : Option Store := do
  let narrowed ← meet h (s.valueOrTop key) q
  return s.insert key narrowed

def joinValue : Option Qualifier → Option Qualifier → Option Qualifier
  | some a, some b => join h a b
  | _, _ => some h.top

def joinStores (a b : Store) : Option Store :=
  if !a.reachable then some b
  else if !b.reachable then some a
  else do
    let keys := (a.keys ++ b.keys).foldl (fun found key => Store.insertEntry key h.top found) []
    let entries ← keys.mapM fun e => do
      let q ← joinValue h (a.get? e.1) (b.get? e.1)
      return (e.1, q)
    return { entries, top := a.top, reachable := true }

def entryText (e : FlowKey × Qualifier) : Option String := do
  let name ← name h e.2
  return e.1.text ++ ": " ++ name

def storeText (s : Store) : Option String :=
  if s.reachable then do
    let entries ← s.entries.mapM (entryText h)
    return "\x7b" ++ Text.join ", " entries ++ "\x7d"
  else some "unreachable"

def collapse : TransferResult → Option Store
  | .regular store => some store
  | .split thenStore elseStore => joinStores h thenStore elseStore

def joinResults : TransferResult → TransferResult → Option TransferResult
  | .split t e, .split t' e' => do
      let thenStore ← joinStores h t t'
      let elseStore ← joinStores h e e'
      return .split thenStore elseStore
  | a, b => do
      let left ← collapse h a
      let right ← collapse h b
      let joined ← joinStores h left right
      return .regular joined

def resultText : TransferResult → Option String
  | .regular store => storeText h store
  | .split thenStore elseStore => do
      let thenText ← storeText h thenStore
      let elseText ← storeText h elseStore
      return "then " ++ thenText ++ " else " ++ elseText

end Checked

namespace Hierarchy.Closed

open Checked

variable {h : Hierarchy} {s t : Store} {r x : TransferResult}

theorem gives_refine (hh : h.Closed) (hs : s.Wf h) {q : Qualifier} (hq : h.Has q) (key : FlowKey) :
    Gives (Checked.refine h s key q) (s.refine h key q) (Store.Wf h) := by
  apply (hh.gives_meet (hs.has_valueOrTop hh.toLawful key) hq).bind
  intro hmeet
  exact .pure (hs.insert hmeet)

theorem gives_joinValue (hh : h.Closed) {a b : Option Qualifier} (ha : ∀ q, a = some q → h.Has q)
    (hb : ∀ q, b = some q → h.Has q) :
    Gives (Checked.joinValue h a b) (Store.joinValue h a b) h.Has := by
  match a, b with
  | some a, some b => exact hh.gives_join (ha a rfl) (hb b rfl)
  | some _, none => exact .pure hh.has_top
  | none, _ => exact .pure hh.has_top

theorem gives_joinStores (hh : h.Closed) (hs : s.Wf h) (ht : t.Wf h) :
    Gives (Checked.joinStores h s t) (s.join h t) (Store.Wf h) := by
  refine ⟨?_, hs.join hh.toLawful ht⟩
  unfold Checked.joinStores Store.join
  split
  · rfl
  · split
    · rfl
    · have hentries (keys : List (FlowKey × Qualifier)) := Gives.mapM (l := keys)
        (Q := fun _ => True) (f := fun e => do
          let q ← Checked.joinValue h (s.get? e.1) (t.get? e.1)
          return (e.1, q))
        (g := fun e => (e.1, Store.joinValue h (s.get? e.1) (t.get? e.1))) fun e _ =>
        (hh.gives_joinValue (fun _ => hs.has_of_get?) fun _ => ht.has_of_get?).bind fun _ =>
          .pure trivial
      dsimp only
      rw [(hentries _).eq]
      rfl

theorem gives_storeText (hs : s.Wf h) :
    Gives (Checked.storeText h s) (s.text h) fun _ => True := by
  refine ⟨?_, trivial⟩
  unfold Checked.storeText Store.text
  split
  · have hentries := Gives.mapM (Q := fun _ => True) (f := entryText h)
      (g := fun e => e.1.text ++ ": " ++ h.name e.2) fun e he =>
      (gives_name (hs.has e he)).bind fun _ => .pure trivial
    rw [hentries.eq]
    rfl
  · rfl

theorem gives_collapse (hh : h.Closed) (hr : r.Wf h) :
    Gives (Checked.collapse h r) (r.collapse h) (Store.Wf h) := by
  cases r with
  | regular store => exact .pure hr.thenStore
  | split thenStore elseStore => exact hh.gives_joinStores hr.thenStore hr.elseStore

theorem gives_joinResults (hh : h.Closed) (hr : r.Wf h) (hx : x.Wf h) :
    Gives (Checked.joinResults h r x) (r.join h x) (TransferResult.Wf h) := by
  have hcollapsed : Gives
      (do
        let left ← Checked.collapse h r
        let right ← Checked.collapse h x
        let joined ← Checked.joinStores h left right
        return TransferResult.regular joined)
      (.regular ((r.collapse h).join h (x.collapse h))) (TransferResult.Wf h) := by
    apply (hh.gives_collapse hr).bind
    intro hleft
    apply (hh.gives_collapse hx).bind
    intro hright
    apply (hh.gives_joinStores hleft hright).bind
    intro hjoined
    exact .pure (TransferResult.wf_regular hjoined)
  cases r with
  | regular store => exact hcollapsed
  | split t e =>
      cases x with
      | regular store => exact hcollapsed
      | split t' e' =>
          apply (hh.gives_joinStores hr.thenStore hx.thenStore).bind
          intro hthen
          apply (hh.gives_joinStores hr.elseStore hx.elseStore).bind
          intro helse
          exact .pure ⟨hthen, helse⟩

theorem gives_resultText (hr : r.Wf h) :
    Gives (Checked.resultText h r) (r.text h) fun _ => True := by
  cases r with
  | regular store => exact gives_storeText hr.thenStore
  | split thenStore elseStore =>
      apply (gives_storeText hr.thenStore).bind
      intro _
      apply (gives_storeText hr.elseStore).bind
      intro _
      exact .pure trivial

end Hierarchy.Closed

end FlowTyping
