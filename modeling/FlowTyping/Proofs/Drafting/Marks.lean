import FlowTyping.Proofs.Lowering.Leaving
import Mathlib.Algebra.Order.Field.Basic
import Mathlib.Algebra.Order.Field.Rat
import Mathlib.Order.WithBot

/-!
Marks: an order of the blocks of a construction that is fixed when they are made. Every
edge leads to a later block or back to the head of a loop around it.
-/

namespace FlowTyping

/-- What a block is for, which decides the blocks that lead to it. -/
inductive Role where
  | entry
  | code
  | head
  | test (source : BlockId)
  deriving DecidableEq

namespace Role

/-- A block of this role can be led to from a block. Nothing leads to the entry, and only
the block of its condition leads to a test. -/
def Admits (u : BlockId) : Role → Prop
  | entry => False
  | test source => source = u
  | code | head => True

/-- A block of this role can be led to from any block. -/
def Open : Role → Prop
  | code | head => True
  | entry | test _ => False

theorem Open.admits {r : Role} (h : r.Open) (u : BlockId) : r.Admits u := by
  cases r with
  | code => trivial
  | head => trivial
  | entry => exact h
  | test => exact h.elim

end Role

/-- The place of a block in the order, the heads of the loops around it, its own one
included, and its role. Places are dense, so code always fits in between. -/
structure Mark where
  place : WithTop ℚ
  loops : List BlockId
  role : Role

/-- How far some code goes: it ends before a place and inside some loops. -/
structure Span where
  stop : WithTop ℚ
  loops : List BlockId

/-- Where the copies of a final body stand: after the region that it protects, inside the
same loops. -/
structure Detour where
  start : WithTop ℚ
  stop : WithTop ℚ
  loops : List BlockId
  lt : start < stop

namespace Detour

/-- How far the protected region goes. -/
def before (f : Detour) : Span := ⟨f.start, f.loops⟩

/-- How far a copy goes. -/
def after (f : Detour) : Span := ⟨f.stop, f.loops⟩

end Detour

/-- A block leads to another one. A loop is entered by its head alone. -/
structure Mark.Leads (u : BlockId) (m : Mark) (v : BlockId) (n : Mark) : Prop where
  admits : n.role.Admits u
  onward : m.place < n.place ∨ v ∈ m.loops ∧ n.role = .head
  loops : ∀ h ∈ n.loops, h = v ∨ h ∈ m.loops

/-- A block belongs to code. -/
structure Mark.Within (m : Mark) (k : Span) : Prop where
  place : m.place < k.stop
  loops : ∀ h ∈ k.loops, h ∈ m.loops

/-- Code is part of other code. -/
structure Span.Inside (k k' : Span) : Prop where
  stop : k.stop ≤ k'.stop
  loops : ∀ h ∈ k'.loops, h ∈ k.loops

namespace Span

/-- The code up to a place. -/
def upTo (k : Span) (q : WithTop ℚ) : Span := ⟨q, k.loops⟩

/-- The code in the loop of a head. -/
def around (k : Span) (head : BlockId) : Span := ⟨k.stop, head :: k.loops⟩

/-- The mark of an ordinary block at a place. -/
def block (k : Span) (q : WithTop ℚ) : Mark := ⟨q, k.loops, .code⟩

variable {k k' k'' : Span} {p q : WithTop ℚ}

theorem Inside.refl (k : Span) : k.Inside k := ⟨le_refl _, fun _ h => h⟩

theorem Inside.trans (h : k.Inside k') (h' : k'.Inside k'') : k.Inside k'' :=
  ⟨h.stop.trans h'.stop, fun _ hl => h.loops _ (h'.loops _ hl)⟩

theorem Inside.after {f : Detour} (h : k.Inside f.before) : k.Inside f.after :=
  ⟨h.stop.trans f.lt.le, h.loops⟩

theorem upTo_inside (h : q ≤ k.stop) : (k.upTo q).Inside k := ⟨h, fun _ hl => hl⟩

theorem upTo_mono (h : p ≤ q) : (k.upTo p).Inside (k.upTo q) := ⟨h, fun _ hl => hl⟩

theorem around_inside (k : Span) (head : BlockId) : (k.around head).Inside k :=
  ⟨le_refl _, fun _ => List.mem_cons_of_mem head⟩

theorem block_within (h : q < k.stop) : (k.block q).Within k := ⟨h, fun _ hl => hl⟩

end Span

/-- The marks of the blocks and of the final bodies of a construction. -/
structure Marks where
  blocks : List Mark
  finals : List Detour

namespace Marks

/-- Marks are only ever added. -/
structure Extends (G G' : Marks) : Prop where
  blocks : G.blocks <+: G'.blocks
  finals : G.finals <+: G'.finals

/-- One block leads to another one. -/
def Leads (G : Marks) (u v : BlockId) : Prop :=
  ∃ m n, G.blocks[u]? = some m ∧ G.blocks[v]? = some n ∧ m.Leads u v n

/-- Code may lead to a block: one that comes after it, or the head of a loop around it. -/
def Allows (G : Marks) (k : Span) (v : BlockId) : Prop :=
  ∃ n, G.blocks[v]? = some n ∧ n.role.Open ∧
    (k.stop ≤ n.place ∨ v ∈ k.loops ∧ n.role = .head) ∧ ∀ h ∈ n.loops, h = v ∨ h ∈ k.loops

/-- A new block gets a mark. -/
def mark (G : Marks) (m : Mark) : Marks := { G with blocks := G.blocks ++ [m] }

/-- A new final body gets a place. -/
def register (G : Marks) (f : Detour) : Marks := { G with finals := G.finals ++ [f] }

variable {G G' G'' : Marks} {k k' : Span} {u v i : Nat} {m n : Mark} {f : Detour}

namespace Extends

theorem refl (G : Marks) : G.Extends G := ⟨List.prefix_rfl, List.prefix_rfl⟩

theorem trans (h : G.Extends G') (h' : G'.Extends G'') : G.Extends G'' :=
  ⟨h.blocks.trans h'.blocks, h.finals.trans h'.finals⟩

theorem mark (G : Marks) (m : Mark) : G.Extends (G.mark m) :=
  ⟨List.prefix_append _ _, List.prefix_rfl⟩

theorem register (G : Marks) (f : Detour) : G.Extends (G.register f) :=
  ⟨List.prefix_rfl, List.prefix_append _ _⟩

theorem block (h : G.Extends G') (hm : G.blocks[i]? = some m) : G'.blocks[i]? = some m :=
  getElem?_of_isPrefix h.blocks hm

theorem final (h : G.Extends G') (hf : G.finals[i]? = some f) : G'.finals[i]? = some f :=
  getElem?_of_isPrefix h.finals hf

theorem leads (h : G.Extends G') : G.Leads u v → G'.Leads u v := by
  rintro ⟨m, n, hm, hn, hleads⟩
  exact ⟨m, n, h.block hm, h.block hn, hleads⟩

theorem allows (h : G.Extends G') : G.Allows k v → G'.Allows k v := by
  rintro ⟨n, hn, hrest⟩
  exact ⟨n, h.block hn, hrest⟩

end Extends

theorem mark_new (G : Marks) (m : Mark) : (G.mark m).blocks[G.blocks.length]? = some m := by
  simp [mark]

theorem register_new (G : Marks) (f : Detour) :
    (G.register f).finals[G.finals.length]? = some f := by
  simp [register]

/-- Code inside other code may lead wherever that may. -/
theorem Allows.inside (h : G.Allows k' v) (hk : k.Inside k') : G.Allows k v := by
  obtain ⟨n, hn, hopen, honward, hloops⟩ := h
  refine ⟨n, hn, hopen, ?_, fun h hh => (hloops h hh).imp_right (hk.loops h)⟩
  exact honward.imp hk.stop.trans fun hback => ⟨hk.loops v hback.1, hback.2⟩

/-- A block after some code, inside the same loops. -/
theorem allows_of_le (hn : G.blocks[v]? = some n) (hopen : n.role.Open)
    (hplace : k.stop ≤ n.place) (hloops : ∀ h ∈ n.loops, h ∈ k.loops) : G.Allows k v :=
  ⟨n, hn, hopen, .inl hplace, fun h hh => .inr (hloops h hh)⟩

theorem allows_block {p q : WithTop ℚ} (hn : G.blocks[v]? = some (k.block q)) (h : p ≤ q) :
    G.Allows (k.upTo p) v :=
  allows_of_le hn trivial h fun _ hl => hl

/-- The head of a loop, from inside the loop. -/
theorem allows_head (hn : G.blocks[v]? = some n) (hrole : n.role = .head) (hback : v ∈ k.loops)
    (hloops : ∀ h ∈ n.loops, h ∈ k.loops) : G.Allows k v :=
  ⟨n, hn, by rw [hrole]; trivial, .inr ⟨hback, hrole⟩, fun h hh => .inr (hloops h hh)⟩

/-- A block of some code leads to where the code may lead. -/
theorem Allows.leads (h : G.Allows k v) (hm : G.blocks[u]? = some m) (hk : m.Within k) :
    G.Leads u v := by
  obtain ⟨n, hn, hopen, honward, hloops⟩ := h
  refine ⟨m, n, hm, hn, hopen.admits u, ?_, fun h hh => (hloops h hh).imp_right (hk.loops h)⟩
  exact honward.imp hk.place.trans_le fun hback => ⟨hk.loops v hback.1, hback.2⟩

end Marks

end FlowTyping
