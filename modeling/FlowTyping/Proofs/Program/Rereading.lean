import FlowTyping.Proofs.Program.Statements

/-!
The texts of programs are read again. A program that was read is written as a text that is read as
the same program, up to its floating literals, unless the written document is nested too deep; it is
at most one level deeper than the document that was read.
-/

namespace FlowTyping

open Json (Faithful Spells)

namespace Json

variable {v : Json} {d : Nat} {α : Type} {read : Json → Option α} {a : α} {text : String}

mutual

theorem depth_within_le : (v : Json) → ∀ limit : Nat, (v.within limit).depth ≤ min limit v.depth
  | .arr items, 0 => by simp [within, depth]
  | .arr items, limit + 1 => by
      have h := itemsDepth_within_le items limit
      simp only [within, depth]
      omega
  | .obj fields, 0 => by simp [within, depth]
  | .obj fields, limit + 1 => by
      have h := fieldsDepth_within_le fields limit
      simp only [within, depth]
      omega
  | .null, limit => by cases limit <;> simp [within, depth]
  | .bool b, limit => by cases limit <;> simp [within, depth]
  | .num n, limit => by cases limit <;> simp [within, depth]
  | .str s, limit => by cases limit <;> simp [within, depth]
  | .unreadable, limit => by cases limit <;> simp [within, depth]

theorem itemsDepth_within_le : (items : List Json) → ∀ limit : Nat,
    itemsDepth (itemsWithin limit items) ≤ min limit (itemsDepth items)
  | [], limit => by simp [itemsWithin, itemsDepth]
  | v :: more, limit => by
      have hv := depth_within_le v limit
      have hmore := itemsDepth_within_le more limit
      simp only [itemsWithin, itemsDepth]
      omega

theorem fieldsDepth_within_le : (fields : List (String × Json)) → ∀ limit : Nat,
    fieldsDepth (fieldsWithin limit fields) ≤ min limit (fieldsDepth fields)
  | [], limit => by simp [fieldsWithin, fieldsDepth]
  | (k, v) :: more, limit => by
      have hv := depth_within_le v limit
      have hmore := fieldsDepth_within_le more limit
      simp only [fieldsWithin, fieldsDepth]
      omega

end

/-- A faithful document is read from its texts as long as it is not too deep. -/
theorem Faithful.declared_eq (h : Faithful (fun _ => read) v a d) (htext : Spells text v)
    (hdepth : v.depth ≤ nestingLimit) : declared read text = .ok a := by
  have hread : read v = some a := h.read_eq nestingLimit hdepth
  rw [declared, htext.read?_eq h.fits.wellFormed, within_of_depth_le v hdepth, Option.bind_some,
    hread]

/-- A faithful document that is too deep is not read. -/
theorem Faithful.declared_malformed (h : Faithful (fun _ => read) v a d) (htext : Spells text v)
    (hdepth : nestingLimit < v.depth) : declared read text = .error .malformed := by
  have hread : read (v.within nestingLimit) = none := by
    by_contra hne
    have hle := h.uncut 0 nestingLimit (Option.isSome_iff_ne_none.mpr hne)
    omega
  rw [declared, htext.read?_eq h.fits.wellFormed, Option.bind_some, hread]

end Json

namespace Program

variable {text again : String} {p : Program}

/-- A program that is read was in some document, cut at the limit. -/
theorem exists_of_declared (h : declared read? text = .ok p) :
    ∃ v, Json.parse? text = some v ∧ read? (v.within Json.nestingLimit) = some p := by
  have hread : (Json.read? text).bind read? = some p := by
    unfold declared at h
    split at h
    · rename_i q hq
      obtain rfl := Except.ok.inj h
      exact hq
    · cases h
  obtain ⟨w, hw, hp⟩ := Option.bind_eq_some_iff.mp hread
  obtain ⟨v, hv, rfl⟩ := Option.map_eq_some_iff.mp hw
  exact ⟨v, hv, hp⟩

theorem faithful_of_declared (h : declared read? text = .ok p) :
    ∃ d, (∀ v, Json.parse? text = some v → d ≤ v.depth) ∧
      Faithful (fun _ => read?) p.write (p.mapLiterals Literal.reread) d := by
  obtain ⟨v, hv, hp⟩ := exists_of_declared h
  have hdepth := Json.depth_within_le v Json.nestingLimit
  refine ⟨_, fun w hw => ?_, Program.restores 0 _ p hp⟩
  obtain rfl := Option.some.inj (hv.symm.trans hw)
  omega

/-- The text of a program that was read is read again as the same program, its floating literals
taken as their numerals are read, if the document that names all fields is not too deep. If it is,
the text is malformed. It never is if the first text left one level free. -/
theorem written_reread (h : declared read? text = .ok p) (hagain : Spells again p.write) :
    (p.write.depth ≤ Json.nestingLimit →
      declared read? again = .ok (p.mapLiterals Literal.reread)) ∧
    (Json.nestingLimit < p.write.depth → declared read? again = .error .malformed) ∧
    (∀ v, Json.parse? text = some v → v.depth < Json.nestingLimit →
      p.write.depth ≤ Json.nestingLimit) := by
  obtain ⟨d, hsource, hfaithful⟩ := faithful_of_declared h
  refine ⟨hfaithful.declared_eq hagain, hfaithful.declared_malformed hagain, ?_⟩
  intro v hv hdepth
  have hwritten := hfaithful.fits.depth_le
  have hle := hsource v hv
  omega

/-- A call that leaves its lists out, under some negations. -/
def negatedCall : Nat → Json
  | 0 => .tagged "call" (.obj [("method", .str "m")])
  | n + 1 => .tagged "unary" (.obj [("op", .str "not"), ("operand", negatedCall n)])

def negatedCallExpr : Nat → Expr
  | 0 => .call none "m" [] []
  | n + 1 => .unary .not (negatedCallExpr n)

attribute [local simp] negatedCall negatedCallExpr

/-- The only statement of the only unit of a document. -/
def singleExpression (v : Json) : Json :=
  .obj [("units", .arr [.obj [("name", .str "u"), ("body", .arr [.tagged "expr" v])]])]

def singleExpressionProgram (e : Expr) : Program := ⟨[⟨"u", [], none, [.expr e]⟩]⟩

theorem readWithin_negatedCall (n k : Nat) :
    Expr.readWithin (n + 1 + k) (negatedCall n) = some (negatedCallExpr n) := by
  induction n with
  | zero =>
      rw [Nat.zero_add, Nat.add_comm]
      simp [Expr.readWithin, Json.tagged, Json.choice?, Json.record?,
        Json.required, Json.nullable, Json.defaulted, Json.string?]
  | succ n ih =>
      have hop : UnaryOp.read? (.str "not") = some .not := rfl
      rw [Nat.add_right_comm]
      simp [Expr.readWithin, Json.tagged, Json.choice?, Json.record?,
        Json.required, hop, ih]

theorem fits_negatedCall (n : Nat) : (negatedCall n).Fits (2 * n + 2) := by
  induction n with
  | zero => simp
  | succ n ih => simp [Nat.mul_add, ih.mono]

theorem depth_negatedCall (n : Nat) : (negatedCall n).depth = 2 * n + 2 := by
  induction n with
  | zero => simp [Json.depth_tagged, Json.depth, Json.fieldsDepth]
  | succ n ih =>
      simp [Json.depth_tagged, Json.depth, Json.fieldsDepth, ih]
      omega

theorem depth_write_negatedCallExpr (n : Nat) : (negatedCallExpr n).write.depth = 2 * n + 3 := by
  induction n with
  | zero => rfl
  | succ n ih =>
      simp [Expr.write, UnaryOp.write, Json.depth_tagged, Json.depth,
        Json.fieldsDepth, ih]
      omega

theorem read?_singleExpression {v : Json} {e : Expr} (h : Expr.read? v = some e) :
    read? (singleExpression v) = some (singleExpressionProgram e) := by
  have hstmt : Stmt.read? (.tagged "expr" v) = some (.expr e) := by
    rw [Stmt.read?, Stmt.readWithin_expr, h]
    rfl
  simp [read?, ProgramUnit.read?, singleExpression, singleExpressionProgram, Json.record?,
    Json.required, Json.defaulted, Json.nullable, Json.list?, Json.string?, hstmt]

theorem declared_negatedCall {n : Nat} (hn : n ≤ 60) :
    declared read? (singleExpression (negatedCall n)).compact =
      .ok (singleExpressionProgram (negatedCallExpr n)) := by
  have hfits : (singleExpression (negatedCall n)).Fits Json.nestingLimit := by
    have hcall := (fits_negatedCall n).mono (Nat.add_le_add_right (Nat.mul_le_mul_left 2 hn) 2)
    simp [singleExpression, Json.nestingLimit, hcall]
  have hexpr : Expr.read? (negatedCall n) = some (negatedCallExpr n) := by
    rw [Expr.read?, depth_negatedCall]
    have hroom : 2 * n + 2 + 1 = n + 1 + (n + 2) := by omega
    rw [hroom]
    exact readWithin_negatedCall n (n + 2)
  rw [declared, hfits.read?_spelled (.inl rfl), Option.bind_some, read?_singleExpression hexpr]

theorem depth_write_singleExpression (n : Nat) :
    (singleExpressionProgram (negatedCallExpr n)).write.depth = 2 * n + 8 := by
  have hwritten := depth_write_negatedCallExpr n
  simp [singleExpressionProgram, write, ProgramUnit.write, Stmt.writeList, Stmt.write, Json.depth,
    Json.fieldsDepth, Json.itemsDepth, Json.ofList, Json.ofOption, Json.depth_tagged, hwritten]

/-- Two levels below the limit, the omitted lists are written and the program is read again. -/
theorem deep_text_reread :
    declared read? (singleExpression (negatedCall 59)).compact =
        .ok (singleExpressionProgram (negatedCallExpr 59)) ∧
      Spells (singleExpressionProgram (negatedCallExpr 59)).write.pretty
        (singleExpressionProgram (negatedCallExpr 59)).write ∧
      declared read? (singleExpressionProgram (negatedCallExpr 59)).write.pretty =
        .ok ((singleExpressionProgram (negatedCallExpr 59)).mapLiterals Literal.reread) := by
  have htext := declared_negatedCall (n := 59) (by decide)
  refine ⟨htext, .inr rfl, (written_reread htext (.inr rfl)).1 ?_⟩
  rw [depth_write_singleExpression]
  decide

/-- A text at the limit is read as a program whose text is past the limit, and malformed: its
deepest value is a call that gives no arguments, which are written as an empty list. -/
theorem deepest_text_not_reread :
    ∃ text p, declared read? text = .ok p ∧ declared read? p.write.compact = .error .malformed := by
  have htext := declared_negatedCall (n := 60) (by decide)
  obtain ⟨d, -, hfaithful⟩ := faithful_of_declared htext
  refine ⟨_, _, htext, hfaithful.declared_malformed (.inl rfl) ?_⟩
  rw [depth_write_singleExpression]
  decide

end Program

end FlowTyping
