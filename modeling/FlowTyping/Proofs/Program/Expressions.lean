import FlowTyping.Program.Document
import FlowTyping.Proofs.Json.Faithful
import FlowTyping.Proofs.Number.Rereading

/-!
Expressions are written and read again. What is read differs from what was written in the floating
literals only, which become what their numerals are read as.
-/

namespace FlowTyping

open Json (Faithful FaithfulParts Restores FieldsWithin required defaulted nullable optional? list?
  noParts thenParts faithful_noParts restores_string restores_strings)

/-- What the numeral of a double is read as. -/
def Double.reread (x : Double) : Double := (Numeral.ofDouble x).toDouble?.getD x

def Literal.reread : Literal → Literal
  | float x => .float x.reread
  | value => value

namespace Expr

mutual

/-- The expression with all its literals exchanged. -/
def mapLiterals (f : Literal → Literal) : Expr → Expr
  | literal value => literal (f value)
  | var name => var name
  | this => this
  | field receiver name => field (mapLiterals f receiver) name
  | call receiver method args throws =>
      call (mapOption f receiver) method (mapList f args) throws
  | new className args => new className (mapList f args)
  | binary op lhs rhs => binary op (mapLiterals f lhs) (mapLiterals f rhs)
  | unary op operand => unary op (mapLiterals f operand)
  | ternary condition thenValue elseValue =>
      ternary (mapLiterals f condition) (mapLiterals f thenValue) (mapLiterals f elseValue)
  | cast qualifier operand => cast qualifier (mapLiterals f operand)

def mapOption (f : Literal → Literal) : Option Expr → Option Expr
  | none => none
  | some e => some (mapLiterals f e)

def mapList (f : Literal → Literal) : List Expr → List Expr
  | [] => []
  | e :: rest => mapLiterals f e :: mapList f rest

end

theorem mapOption_eq (f : Literal → Literal) (o : Option Expr) :
    mapOption f o = o.map (mapLiterals f) := by
  cases o <;> rfl

theorem mapList_eq (f : Literal → Literal) (es : List Expr) :
    mapList f es = es.map (mapLiterals f) := by
  induction es with
  | nil => rfl
  | cons e more ih => rw [mapList, ih, List.map_cons]

theorem writeOption_eq (o : Option Expr) : writeOption o = Json.ofOption write o := by
  cases o <;> rfl

theorem writeList_eq (es : List Expr) : writeList es = es.map write := by
  induction es with
  | nil => rfl
  | cons e more ih => rw [writeList, ih, List.map_cons]

theorem write_ne_null (e : Expr) : write e ≠ .null := by cases e <;> exact nofun

end Expr

section Atoms

/-- A reader of names that carry nothing gives back what is written of each. -/
theorem restores_name {α : Type} (n : Nat) {names : List (String × α)} {write : α → Json}
    (hwrite : ∀ m ∈ names, Faithful (fun _ => Json.name? names) (write m.2) m.2 0) :
    Restores (fun _ => Json.name? names) write id n := by
  intro v a ha
  obtain ⟨⟨name, payload⟩, -, hname⟩ := Option.bind_eq_some_iff.mp ha
  have hfound : (names.find? fun m => m.1 = name).map Prod.snd = some a := by
    dsimp only at hname
    split at hname
    · exact hname
    · exact hname
    · cases hname
  obtain ⟨m, hm, rfl⟩ := Option.map_eq_some_iff.mp hfound
  exact (hwrite m (List.mem_of_find?_eq_some hm)).mono (Nat.zero_le _)

theorem BinOp.restores (n : Nat) : Restores (fun _ => BinOp.read?) BinOp.write id n := by
  refine restores_name n fun m hm => ?_
  obtain ⟨op, -, rfl⟩ := List.mem_map.mp hm
  exact Faithful.leaf (Json.Fits.str _) (by cases op <;> rfl)

theorem UnaryOp.restores (n : Nat) : Restores (fun _ => UnaryOp.read?) UnaryOp.write id n := by
  refine restores_name n fun m hm => ?_
  obtain ⟨op, -, rfl⟩ := List.mem_map.mp hm
  exact Faithful.leaf (Json.Fits.str _) (by cases op <;> rfl)

/-- Whole numbers of a program have 64 bits, and its doubles are finite. -/
def Literal.Representable : Literal → Prop
  | int k => -9223372036854775808 ≤ k ∧ k ≤ 9223372036854775807
  | float x => x.isFinite = true
  | _ => True

theorem Literal.representable_of_read? {v : Json} {l : Literal} (h : read? v = some l) :
    l.Representable := by
  obtain ⟨⟨name, payload⟩, -, hname⟩ := Option.bind_eq_some_iff.mp h
  have hpart {α : Type} {read : Json → Option α} {f : α → Literal}
      (hl : (payload.bind fun w => (read w).map f) = some l) :
      ∃ w a, read w = some a ∧ f a = l := by
    obtain ⟨w, -, hw⟩ := Option.bind_eq_some_iff.mp hl
    obtain ⟨a, ha, hfa⟩ := Option.map_eq_some_iff.mp hw
    exact ⟨w, a, ha, hfa⟩
  dsimp only at hname
  split at hname
  · obtain ⟨w, s, -, rfl⟩ := hpart hname
    trivial
  · obtain ⟨w, c, -, rfl⟩ := hpart hname
    trivial
  · obtain ⟨w, k, hk, rfl⟩ := hpart hname
    exact Json.le_of_signed? hk
  · obtain ⟨w, x, hx, rfl⟩ := hpart hname
    cases w with
    | num m => exact Numeral.toDouble?_isFinite hx
    | _ => cases hx
  · obtain ⟨w, b, -, rfl⟩ := hpart hname
    trivial
  · obtain ⟨-, hl⟩ := Option.ite_none_right_eq_some.mp hname
    obtain rfl := Option.some.inj hl
    trivial
  · cases hname

theorem Literal.read?_write {l : Literal} (h : l.Representable) :
    read? l.write = some l.reread := by
  cases l with
  | string s => rfl
  | char c => simp [read?, write, Json.tagged, Json.choice?, Json.char?, reread]
  | int k => simp [read?, write, Json.tagged, Json.choice?, Json.signed?_int h.1 h.2, reread]
  | float x =>
      obtain ⟨y, hy⟩ := Option.isSome_iff_exists.mp (Numeral.toDouble?_ofDouble_isSome h)
      simp [read?, write, Json.tagged, Json.choice?, Json.double, Json.double?, reread,
        Double.reread, hy]
  | bool b => rfl
  | null => rfl

theorem Literal.fits_write (l : Literal) : l.write.Fits 1 := by
  cases l with
  | float x =>
      refine Json.Fits.tagged.mpr ⟨?_, Nat.le_refl 0⟩
      simpa [Json.double, Json.WellFormed] using Numeral.ofDouble_wellFormed x
  | _ => simp [write]

theorem Literal.restores (n : Nat) :
    Restores (fun _ => Literal.read?) Literal.write Literal.reread n :=
  fun _ l hl => Faithful.shallow l.fits_write rfl
    (Literal.read?_write (Literal.representable_of_read? hl))

end Atoms

namespace Expr

variable {n d : Nat}

theorem readWithin_unreadable (n : Nat) : readWithin n .unreadable = none := by cases n <;> rfl

theorem readWithin_tagged_unreadable (n : Nat) (name : String) :
    readWithin n (.tagged name .unreadable) = none := by
  cases n with
  | zero => rfl
  | succ n =>
      simp only [readWithin, Json.tagged, Json.choice?, Option.bind_eq_bind, Option.bind_some]
      split <;> rfl

theorem record {e : Expr} {parts : Nat → List Json → Option Expr} {name : String}
    {fields : List (String × Json)}
    (hread : ∀ n (c : Json → Json),
      readWithin (n + 1) (.tagged name (.obj (fields.map fun f => (f.1, c f.2)))) =
        parts n (fields.map fun f => c f.2))
    (h : FaithfulParts parts (fields.map Prod.snd) e d) :
    Faithful readWithin (.tagged name (.obj fields)) e (d + 2) :=
  Faithful.record (fun _ => nofun) readWithin_unreadable
    (fun n => readWithin_tagged_unreadable n name) hread h

section Unfolding

theorem readWithin_literal (n : Nat) (w : Json) : readWithin (n + 1) (.tagged "literal" w) =
    (Literal.read? w).bind fun l => some (literal l) := rfl

theorem readWithin_var (n : Nat) (w : Json) : readWithin (n + 1) (.tagged "var" w) =
    w.string?.bind fun s => some (var s) := rfl

theorem readWithin_field (n : Nat) (w : Json) : readWithin (n + 1) (.tagged "field" w) =
    (Json.record? ["receiver", "field"] w).bind fun r =>
      (required (readWithin n) (r "receiver")).bind fun e =>
        (required Json.string? (r "field")).bind fun f =>
          some (field e f) := rfl

theorem readWithin_call (n : Nat) (w : Json) : readWithin (n + 1) (.tagged "call" w) =
    (Json.record? ["receiver", "method", "args", "throws"] w).bind fun r =>
      (nullable (readWithin n) (r "receiver")).bind fun e =>
        (required Json.string? (r "method")).bind fun m =>
          (defaulted (list? (readWithin n)) [] (r "args")).bind fun es =>
            (defaulted (list? Json.string?) [] (r "throws")).bind fun ts =>
              some (call e m es ts) := rfl

theorem readWithin_new (n : Nat) (w : Json) : readWithin (n + 1) (.tagged "new" w) =
    (Json.record? ["class", "args"] w).bind fun r =>
      (required Json.string? (r "class")).bind fun c =>
        (defaulted (list? (readWithin n)) [] (r "args")).bind fun es =>
          some (new c es) := rfl

theorem readWithin_binary (n : Nat) (w : Json) : readWithin (n + 1) (.tagged "binary" w) =
    (Json.record? ["op", "lhs", "rhs"] w).bind fun r =>
      (required BinOp.read? (r "op")).bind fun op =>
        (required (readWithin n) (r "lhs")).bind fun a =>
          (required (readWithin n) (r "rhs")).bind fun b =>
            some (binary op a b) := rfl

theorem readWithin_unary (n : Nat) (w : Json) : readWithin (n + 1) (.tagged "unary" w) =
    (Json.record? ["op", "operand"] w).bind fun r =>
      (required UnaryOp.read? (r "op")).bind fun op =>
        (required (readWithin n) (r "operand")).bind fun a =>
          some (unary op a) := rfl

theorem readWithin_ternary (n : Nat) (w : Json) : readWithin (n + 1) (.tagged "ternary" w) =
    (Json.record? ["condition", "then_value", "else_value"] w).bind fun r =>
      (required (readWithin n) (r "condition")).bind fun a =>
        (required (readWithin n) (r "then_value")).bind fun b =>
          (required (readWithin n) (r "else_value")).bind fun c =>
            some (ternary a b c) := rfl

theorem readWithin_cast (n : Nat) (w : Json) : readWithin (n + 1) (.tagged "cast" w) =
    (Json.record? ["qualifier", "operand"] w).bind fun r =>
      (required Json.string? (r "qualifier")).bind fun q =>
        (required (readWithin n) (r "operand")).bind fun a =>
          some (cast q a) := rfl

end Unfolding

section Forms

variable {v w u : Json} {e e' e'' : Expr} {es : List Expr} {name : String}

theorem faithful_field (hv : Faithful readWithin v e d)
    (hname : Faithful (fun _ => Json.string?) w name d) :
    Faithful readWithin (.tagged "field" (.obj [("receiver", v), ("field", w)])) (field e name)
      (d + 2) := by
  have hparts := (hv.thenParts (hname.thenParts faithful_noParts)).map fun p => field p.1 p.2.1
  refine record (fun n c => ?_) hparts
  rw [readWithin_field]
  simp [Json.record?, required, thenParts, noParts]

theorem faithful_call {o : Option Expr} {t : Json} {throws : List String}
    (hv : Faithful (fun n => optional? (readWithin n)) v o d)
    (hname : Faithful (fun _ => Json.string?) w name d)
    (hargs : Faithful (fun n => list? (readWithin n)) u es d)
    (hthrows : Faithful (fun _ => list? Json.string?) t throws d) :
    Faithful readWithin (.tagged "call"
      (.obj [("receiver", v), ("method", w), ("args", u), ("throws", t)]))
        (call o name es throws) (d + 2) := by
  have hparts := (hv.thenParts (hname.thenParts (hargs.thenParts
    (hthrows.thenParts faithful_noParts)))).map fun p => call p.1 p.2.1 p.2.2.1 p.2.2.2.1
  refine record (fun n c => ?_) hparts
  rw [readWithin_call]
  simp [Json.record?, required, defaulted, nullable, thenParts, noParts]

theorem faithful_new (hname : Faithful (fun _ => Json.string?) w name d)
    (hargs : Faithful (fun n => list? (readWithin n)) u es d) :
    Faithful readWithin (.tagged "new" (.obj [("class", w), ("args", u)])) (new name es)
      (d + 2) := by
  have hparts := (hname.thenParts (hargs.thenParts faithful_noParts)).map fun p => new p.1 p.2.1
  refine record (fun n c => ?_) hparts
  rw [readWithin_new]
  simp [Json.record?, required, defaulted, thenParts, noParts]

theorem faithful_binary {op : BinOp} (hop : Faithful (fun _ => BinOp.read?) w op d)
    (hv : Faithful readWithin v e d) (hu : Faithful readWithin u e' d) :
    Faithful readWithin (.tagged "binary" (.obj [("op", w), ("lhs", v), ("rhs", u)]))
      (binary op e e') (d + 2) := by
  have hparts := (hop.thenParts (hv.thenParts (hu.thenParts faithful_noParts))).map
    fun p => binary p.1 p.2.1 p.2.2.1
  refine record (fun n c => ?_) hparts
  rw [readWithin_binary]
  simp [Json.record?, required, thenParts, noParts]

theorem faithful_unary {op : UnaryOp} (hop : Faithful (fun _ => UnaryOp.read?) w op d)
    (hv : Faithful readWithin v e d) :
    Faithful readWithin (.tagged "unary" (.obj [("op", w), ("operand", v)])) (unary op e)
      (d + 2) := by
  have hparts := (hop.thenParts (hv.thenParts faithful_noParts)).map fun p => unary p.1 p.2.1
  refine record (fun n c => ?_) hparts
  rw [readWithin_unary]
  simp [Json.record?, required, thenParts, noParts]

theorem faithful_ternary (hv : Faithful readWithin v e d) (hw : Faithful readWithin w e' d)
    (hu : Faithful readWithin u e'' d) :
    Faithful readWithin (.tagged "ternary"
      (.obj [("condition", v), ("then_value", w), ("else_value", u)]))
        (ternary e e' e'') (d + 2) := by
  have hparts := (hv.thenParts (hw.thenParts (hu.thenParts faithful_noParts))).map
    fun p => ternary p.1 p.2.1 p.2.2.1
  refine record (fun n c => ?_) hparts
  rw [readWithin_ternary]
  simp [Json.record?, required, thenParts, noParts]

theorem faithful_cast (hname : Faithful (fun _ => Json.string?) w name d)
    (hv : Faithful readWithin v e d) :
    Faithful readWithin (.tagged "cast" (.obj [("qualifier", w), ("operand", v)])) (cast name e)
      (d + 2) := by
  have hparts := (hname.thenParts (hv.thenParts faithful_noParts)).map fun p => cast p.1 p.2.1
  refine record (fun n c => ?_) hparts
  rw [readWithin_cast]
  simp [Json.record?, required, thenParts, noParts]

theorem faithful_literal {l : Literal} (h : Faithful (fun _ => Literal.read?) v l d) :
    Faithful readWithin (.tagged "literal" v) (literal l) (d + 1) := by
  refine h.tagged (f := literal) (fun _ => nofun) readWithin_unreadable fun n v => ?_
  exact (readWithin_literal n v).trans (Option.map_eq_bind).symm

theorem faithful_var (h : Faithful (fun _ => Json.string?) v name d) :
    Faithful readWithin (.tagged "var" v) (var name) (d + 1) := by
  refine h.tagged (f := var) (fun _ => nofun) readWithin_unreadable fun n v => ?_
  exact (readWithin_var n v).trans (Option.map_eq_bind).symm

end Forms

/-- Every expression that is read is written as a document that is read as its like. -/
theorem restores (n : Nat) : Restores readWithin write (mapLiterals Literal.reread) n := by
  induction n with
  | zero => exact fun v e he => nomatch he
  | succ n ih =>
      intro v e he
      obtain ⟨⟨name, payload⟩, hv, he⟩ := Option.bind_eq_some_iff.mp he
      dsimp only at he
      split at he
      case h_1 =>
        obtain ⟨l, hl, hpure⟩ := Option.bind_eq_some_iff.mp he
        obtain ⟨w, rfl, hl⟩ := Option.bind_eq_some_iff.mp hl
        obtain rfl := Option.some.inj hpure
        exact (faithful_literal (Literal.restores n w l hl)).mono (Json.depth_payload hv)
      case h_2 =>
        obtain ⟨s, hs, hpure⟩ := Option.bind_eq_some_iff.mp he
        obtain ⟨w, rfl, hs⟩ := Option.bind_eq_some_iff.mp hs
        obtain rfl := Option.some.inj hpure
        exact (faithful_var (restores_string n w s hs)).mono (Json.depth_payload hv)
      case h_3 =>
        obtain ⟨-, hpure⟩ := Option.ite_none_right_eq_some.mp he
        obtain rfl := Option.some.inj hpure
        exact Faithful.bare fun _ => rfl
      case h_11 => cases he
      all_goals
        obtain ⟨r, hr, he⟩ := Option.bind_eq_some_iff.mp he
        obtain ⟨d, hd, hfields⟩ := Json.record?_source hv hr
      case h_4 =>
        obtain ⟨x, hx, he⟩ := Option.bind_eq_some_iff.mp he
        obtain ⟨s, hs, hpure⟩ := Option.bind_eq_some_iff.mp he
        obtain rfl := Option.some.inj hpure
        exact (faithful_field (ih.required hfields hx)
          ((restores_string n).required hfields hs)).mono hd
      case h_5 =>
        obtain ⟨o, ho, he⟩ := Option.bind_eq_some_iff.mp he
        obtain ⟨s, hs, he⟩ := Option.bind_eq_some_iff.mp he
        obtain ⟨es, hes, he⟩ := Option.bind_eq_some_iff.mp he
        obtain ⟨ts, hts, hpure⟩ := Option.bind_eq_some_iff.mp he
        obtain rfl := Option.some.inj hpure
        rw [write, mapLiterals, writeOption_eq, writeList_eq, mapOption_eq, mapList_eq]
        exact (faithful_call (ih.nullable write_ne_null hfields ho)
          ((restores_string n).required hfields hs) (ih.defaultedList hfields hes)
          ((restores_strings n).defaulted hfields Faithful.nil hts)).mono hd
      case h_6 =>
        obtain ⟨s, hs, he⟩ := Option.bind_eq_some_iff.mp he
        obtain ⟨es, hes, hpure⟩ := Option.bind_eq_some_iff.mp he
        obtain rfl := Option.some.inj hpure
        rw [write, mapLiterals, writeList_eq, mapList_eq]
        exact (faithful_new ((restores_string n).required hfields hs)
          (ih.defaultedList hfields hes)).mono hd
      case h_7 =>
        obtain ⟨op, hop, he⟩ := Option.bind_eq_some_iff.mp he
        obtain ⟨x, hx, he⟩ := Option.bind_eq_some_iff.mp he
        obtain ⟨y, hy, hpure⟩ := Option.bind_eq_some_iff.mp he
        obtain rfl := Option.some.inj hpure
        exact (faithful_binary ((BinOp.restores n).required hfields hop) (ih.required hfields hx)
          (ih.required hfields hy)).mono hd
      case h_8 =>
        obtain ⟨op, hop, he⟩ := Option.bind_eq_some_iff.mp he
        obtain ⟨x, hx, hpure⟩ := Option.bind_eq_some_iff.mp he
        obtain rfl := Option.some.inj hpure
        exact (faithful_unary ((UnaryOp.restores n).required hfields hop)
          (ih.required hfields hx)).mono hd
      case h_9 =>
        obtain ⟨x, hx, he⟩ := Option.bind_eq_some_iff.mp he
        obtain ⟨y, hy, he⟩ := Option.bind_eq_some_iff.mp he
        obtain ⟨z, hz, hpure⟩ := Option.bind_eq_some_iff.mp he
        obtain rfl := Option.some.inj hpure
        exact (faithful_ternary (ih.required hfields hx) (ih.required hfields hy)
          (ih.required hfields hz)).mono hd
      case h_10 =>
        obtain ⟨s, hs, he⟩ := Option.bind_eq_some_iff.mp he
        obtain ⟨x, hx, hpure⟩ := Option.bind_eq_some_iff.mp he
        obtain rfl := Option.some.inj hpure
        exact (faithful_cast ((restores_string n).required hfields hs)
          (ih.required hfields hx)).mono hd

theorem restores_read? (n : Nat) :
    Restores (fun _ => read?) write (mapLiterals Literal.reread) n := by
  intro v e he
  have h := restores (v.depth + 1) v e he
  exact ⟨h.fits, fun _ _ => h.read_eq _ (Nat.le_refl _), fun _ limit hsome => h.uncut _ limit hsome⟩

end Expr

namespace Target

variable {d : Nat}

def mapLiterals (f : Literal → Literal) : Target → Target
  | .local name => .local name
  | field receiver name => field (receiver.mapLiterals f) name

theorem restores (n : Nat) : Restores (fun _ => read?) write (mapLiterals Literal.reread) n := by
  intro v t ht
  obtain ⟨⟨name, payload⟩, hv, ht⟩ := Option.bind_eq_some_iff.mp ht
  dsimp only at ht
  split at ht
  case h_1 =>
    obtain ⟨s, hs, hpure⟩ := Option.bind_eq_some_iff.mp ht
    obtain ⟨w, rfl, hs⟩ := Option.bind_eq_some_iff.mp hs
    obtain rfl := Option.some.inj hpure
    have hlocal :
        Faithful (fun _ => read?) (.tagged "local" (.str s)) (.local s) (w.depth + 1) := by
      refine (restores_string n w s hs).tagged (f := Target.local) (fun _ => id) (fun _ => rfl)
        fun _ v => ?_
      simp only [read?, Json.tagged, Json.choice?, Option.bind_eq_bind, Option.bind_some]
      cases Json.string? v <;> rfl
    exact hlocal.mono (Json.depth_payload hv)
  case h_2 =>
    obtain ⟨r, hr, ht⟩ := Option.bind_eq_some_iff.mp ht
    obtain ⟨e, he, ht⟩ := Option.bind_eq_some_iff.mp ht
    obtain ⟨s, hs, hpure⟩ := Option.bind_eq_some_iff.mp ht
    obtain rfl := Option.some.inj hpure
    obtain ⟨d, hd, hfields⟩ := Json.record?_source hv hr
    have hparts := (((Expr.restores_read? n).required hfields he).thenParts
      (((restores_string n).required hfields hs).thenParts faithful_noParts)).map
        fun p => Target.field p.1 p.2.1
    have hfield : Faithful (fun _ => read?)
        (.tagged "field" (.obj [("receiver", e.write), ("field", .str s)]))
          (field (e.mapLiterals Literal.reread) s) (d + 2) := by
      refine Faithful.record (fun _ => id) (fun _ => rfl) (fun _ => rfl) (fun n c => ?_) hparts
      simp [read?, Json.tagged, Json.choice?, Json.record?, required, thenParts, noParts]
    exact hfield.mono hd
  case h_3 => cases ht

end Target

end FlowTyping
