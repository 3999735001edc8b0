import FlowTyping.Proofs.Program.Expressions

/-!
Statements and programs are written and read again. The written document names the fields that may
be left out, so that it can be one level deeper than the document that was read first; unless it is
too deep then, the same program is read, up to its floating literals.
-/

namespace FlowTyping

open Json (Faithful FaithfulParts Restores FieldsWithin required defaulted nullable optional? list?
  noParts thenParts faithful_noParts restores_string restores_strings)

namespace Stmt

mutual

/-- The statement with all its literals exchanged. -/
def mapLiterals (f : Literal → Literal) : Stmt → Stmt
  | localDecl name qualifier init => localDecl name qualifier (init.map (Expr.mapLiterals f))
  | assign target value => assign (target.mapLiterals f) (value.mapLiterals f)
  | expr value => expr (value.mapLiterals f)
  | ifElse condition thenBody elseBody =>
      ifElse (condition.mapLiterals f) (mapList f thenBody) (mapOption f elseBody)
  | whileLoop label condition body => whileLoop label (condition.mapLiterals f) (mapList f body)
  | doWhile label body condition => doWhile label (mapList f body) (condition.mapLiterals f)
  | forLoop label init condition update body =>
      forLoop label (mapList f init) (condition.map (Expr.mapLiterals f)) (mapList f update)
        (mapList f body)
  | breakLoop label => breakLoop label
  | continueLoop label => continueLoop label
  | returnValue value => returnValue (value.map (Expr.mapLiterals f))
  | throw exception value => throw exception (value.map (Expr.mapLiterals f))
  | tryCatch body handlers finalBody =>
      tryCatch (mapList f body) (mapHandlers f handlers) (mapOption f finalBody)
  | assert condition => assert (condition.mapLiterals f)

def mapList (f : Literal → Literal) : List Stmt → List Stmt
  | [] => []
  | s :: rest => mapLiterals f s :: mapList f rest

def mapOption (f : Literal → Literal) : Option (List Stmt) → Option (List Stmt)
  | none => none
  | some body => some (mapList f body)

def mapHandlers (f : Literal → Literal) : List Handler → List Handler
  | [] => []
  | .clause exception binding body :: rest =>
      .clause exception binding (mapList f body) :: mapHandlers f rest

end

variable {f : Literal → Literal}

theorem mapList_eq (body : List Stmt) : mapList f body = body.map (mapLiterals f) := by
  induction body with
  | nil => rfl
  | cons s more ih => rw [mapList, ih, List.map_cons]

theorem mapOption_eq (o : Option (List Stmt)) :
    mapOption f o = o.map fun body => body.map (mapLiterals f) := by
  cases o with
  | none => rfl
  | some body => rw [mapOption, mapList_eq, Option.map_some]

theorem writeList_eq (body : List Stmt) : writeList body = body.map write := by
  induction body with
  | nil => rfl
  | cons s more ih => rw [writeList, ih, List.map_cons]

theorem writeOption_eq (o : Option (List Stmt)) :
    writeOption o = Json.ofOption (fun body => .arr (body.map write)) o := by
  cases o with
  | none => rfl
  | some body => rw [writeOption, writeList_eq, Json.ofOption]

/-- A clause as it is written among others. -/
def writeHandler : Handler → Json
  | .clause exception binding body =>
      .obj [("exception", .str exception), ("binding", .ofOption .str binding),
        ("body", .arr (body.map write))]

def mapHandler (f : Literal → Literal) : Handler → Handler
  | .clause exception binding body => .clause exception binding (body.map (mapLiterals f))

theorem writeHandlers_eq (handlers : List Handler) :
    writeHandlers handlers = handlers.map writeHandler := by
  induction handlers with
  | nil => rfl
  | cons h more ih =>
      cases h
      rw [writeHandlers, writeList_eq, ih]
      rfl

theorem mapHandlers_eq (handlers : List Handler) :
    mapHandlers f handlers = handlers.map (mapHandler f) := by
  induction handlers with
  | nil => rfl
  | cons h more ih =>
      cases h
      rw [mapHandlers, mapList_eq, ih]
      rfl

variable {n d : Nat}

theorem readWithin_unreadable (n : Nat) : readWithin n .unreadable = none := by cases n <;> rfl

theorem readWithin_tagged_unreadable (n : Nat) (name : String) :
    readWithin n (.tagged name .unreadable) = none := by
  cases n with
  | zero => rfl
  | succ n =>
      simp only [readWithin, Json.tagged, Json.choice?, Option.bind_eq_bind, Option.bind_some]
      split <;> rfl

theorem record {s : Stmt} {parts : Nat → List Json → Option Stmt} {name : String}
    {fields : List (String × Json)}
    (hread : ∀ n (c : Json → Json),
      readWithin (n + 1) (.tagged name (.obj (fields.map fun f => (f.1, c f.2)))) =
        parts n (fields.map fun f => c f.2))
    (h : FaithfulParts parts (fields.map Prod.snd) s d) :
    Faithful readWithin (.tagged name (.obj fields)) s (d + 2) :=
  Faithful.record (fun _ => nofun) readWithin_unreadable
    (fun n => readWithin_tagged_unreadable n name) hread h

section Unfolding

theorem readWithin_expr (n : Nat) (w : Json) : readWithin (n + 1) (.tagged "expr" w) =
    (Expr.read? w).bind fun a => some (expr a) := rfl

theorem readWithin_break (n : Nat) (w : Json) : readWithin (n + 1) (.tagged "break" w) =
    (optional? Json.string? w).bind fun a => some (breakLoop a) := rfl

theorem readWithin_continue (n : Nat) (w : Json) : readWithin (n + 1) (.tagged "continue" w) =
    (optional? Json.string? w).bind fun a => some (continueLoop a) := rfl

theorem readWithin_return (n : Nat) (w : Json) : readWithin (n + 1) (.tagged "return" w) =
    (optional? Expr.read? w).bind fun a => some (returnValue a) := rfl

theorem readWithin_localDecl (n : Nat) (w : Json) : readWithin (n + 1) (.tagged "local_decl" w) =
    (Json.record? ["name", "qualifier", "init"] w).bind fun r =>
      (required Json.string? (r "name")).bind fun s =>
        (nullable Json.string? (r "qualifier")).bind fun q =>
          (nullable Expr.read? (r "init")).bind fun e =>
            some (localDecl s q e) := rfl

theorem readWithin_assign (n : Nat) (w : Json) : readWithin (n + 1) (.tagged "assign" w) =
    (Json.record? ["target", "value"] w).bind fun r =>
      (required Target.read? (r "target")).bind fun t =>
        (required Expr.read? (r "value")).bind fun e =>
          some (assign t e) := rfl

theorem readWithin_if (n : Nat) (w : Json) : readWithin (n + 1) (.tagged "if" w) =
    (Json.record? ["condition", "then_body", "else_body"] w).bind fun r =>
      (required Expr.read? (r "condition")).bind fun e =>
        (required (list? (readWithin n)) (r "then_body")).bind fun a =>
          (nullable (list? (readWithin n)) (r "else_body")).bind fun b =>
            some (ifElse e a b) := rfl

theorem readWithin_while (n : Nat) (w : Json) : readWithin (n + 1) (.tagged "while" w) =
    (Json.record? ["label", "condition", "body"] w).bind fun r =>
      (nullable Json.string? (r "label")).bind fun l =>
        (required Expr.read? (r "condition")).bind fun e =>
          (required (list? (readWithin n)) (r "body")).bind fun a =>
            some (whileLoop l e a) := rfl

theorem readWithin_doWhile (n : Nat) (w : Json) : readWithin (n + 1) (.tagged "do_while" w) =
    (Json.record? ["label", "body", "condition"] w).bind fun r =>
      (nullable Json.string? (r "label")).bind fun l =>
        (required (list? (readWithin n)) (r "body")).bind fun a =>
          (required Expr.read? (r "condition")).bind fun e =>
            some (doWhile l a e) := rfl

theorem readWithin_for (n : Nat) (w : Json) : readWithin (n + 1) (.tagged "for" w) =
    (Json.record? ["label", "init", "condition", "update", "body"] w).bind fun r =>
      (nullable Json.string? (r "label")).bind fun l =>
        (defaulted (list? (readWithin n)) [] (r "init")).bind fun a =>
          (nullable Expr.read? (r "condition")).bind fun e =>
            (defaulted (list? (readWithin n)) [] (r "update")).bind fun b =>
              (required (list? (readWithin n)) (r "body")).bind fun c =>
                some (forLoop l a e b c) := rfl

theorem readWithin_throw (n : Nat) (w : Json) : readWithin (n + 1) (.tagged "throw" w) =
    (Json.record? ["exception", "value"] w).bind fun r =>
      (required Json.string? (r "exception")).bind fun s =>
        (nullable Expr.read? (r "value")).bind fun e =>
          some (throw s e) := rfl

theorem readWithin_try (n : Nat) (w : Json) : readWithin (n + 1) (.tagged "try" w) =
    (Json.record? ["body", "handlers", "finally"] w).bind fun r =>
      (required (list? (readWithin n)) (r "body")).bind fun a =>
        (defaulted (list? (handlerWithin (list? (readWithin n)))) [] (r "handlers")).bind fun hs =>
          (nullable (list? (readWithin n)) (r "finally")).bind fun b =>
            some (tryCatch a hs b) := rfl

theorem readWithin_assert (n : Nat) (w : Json) : readWithin (n + 1) (.tagged "assert" w) =
    (Json.record? ["condition"] w).bind fun r =>
      (required Expr.read? (r "condition")).bind fun e =>
        some (assert e) := rfl

end Unfolding

section Forms

variable {u v w t x : Json} {e : Expr} {o : Option Expr} {body : List Stmt}
  {label : Option String} {name : String}

theorem faithful_localDecl (hname : Faithful (fun _ => Json.string?) u name d)
    (hlabel : Faithful (fun _ => optional? Json.string?) v label d)
    (hinit : Faithful (fun _ => optional? Expr.read?) w o d) :
    Faithful readWithin (.tagged "local_decl"
      (.obj [("name", u), ("qualifier", v), ("init", w)])) (localDecl name label o) (d + 2) := by
  have hparts := (hname.thenParts (hlabel.thenParts (hinit.thenParts faithful_noParts))).map
    fun p => localDecl p.1 p.2.1 p.2.2.1
  refine record (fun n c => ?_) hparts
  rw [readWithin_localDecl]
  simp [Json.record?, required, defaulted, nullable, thenParts, noParts]

theorem faithful_assign {target : Target} (ht : Faithful (fun _ => Target.read?) u target d)
    (hv : Faithful (fun _ => Expr.read?) v e d) :
    Faithful readWithin (.tagged "assign" (.obj [("target", u), ("value", v)]))
      (assign target e) (d + 2) := by
  have hparts := (ht.thenParts (hv.thenParts faithful_noParts)).map fun p => assign p.1 p.2.1
  refine record (fun n c => ?_) hparts
  rw [readWithin_assign]
  simp [Json.record?, required, thenParts, noParts]

theorem faithful_ifElse {other : Option (List Stmt)} (hv : Faithful (fun _ => Expr.read?) u e d)
    (hbody : Faithful (fun n => list? (readWithin n)) v body d)
    (hother : Faithful (fun n => optional? (list? (readWithin n))) w other d) :
    Faithful readWithin (.tagged "if"
      (.obj [("condition", u), ("then_body", v), ("else_body", w)])) (ifElse e body other)
        (d + 2) := by
  have hparts := (hv.thenParts (hbody.thenParts (hother.thenParts faithful_noParts))).map
    fun p => ifElse p.1 p.2.1 p.2.2.1
  refine record (fun n c => ?_) hparts
  rw [readWithin_if]
  simp [Json.record?, required, defaulted, nullable, thenParts, noParts]

theorem faithful_whileLoop (hlabel : Faithful (fun _ => optional? Json.string?) u label d)
    (hv : Faithful (fun _ => Expr.read?) v e d)
    (hbody : Faithful (fun n => list? (readWithin n)) w body d) :
    Faithful readWithin (.tagged "while"
      (.obj [("label", u), ("condition", v), ("body", w)])) (whileLoop label e body) (d + 2) := by
  have hparts := (hlabel.thenParts (hv.thenParts (hbody.thenParts faithful_noParts))).map
    fun p => whileLoop p.1 p.2.1 p.2.2.1
  refine record (fun n c => ?_) hparts
  rw [readWithin_while]
  simp [Json.record?, required, defaulted, nullable, thenParts, noParts]

theorem faithful_doWhile (hlabel : Faithful (fun _ => optional? Json.string?) u label d)
    (hbody : Faithful (fun n => list? (readWithin n)) v body d)
    (hv : Faithful (fun _ => Expr.read?) w e d) :
    Faithful readWithin (.tagged "do_while"
      (.obj [("label", u), ("body", v), ("condition", w)])) (doWhile label body e) (d + 2) := by
  have hparts := (hlabel.thenParts (hbody.thenParts (hv.thenParts faithful_noParts))).map
    fun p => doWhile p.1 p.2.1 p.2.2.1
  refine record (fun n c => ?_) hparts
  rw [readWithin_doWhile]
  simp [Json.record?, required, defaulted, nullable, thenParts, noParts]

theorem faithful_forLoop {init update : List Stmt}
    (hlabel : Faithful (fun _ => optional? Json.string?) u label d)
    (hinit : Faithful (fun n => list? (readWithin n)) v init d)
    (hv : Faithful (fun _ => optional? Expr.read?) w o d)
    (hupdate : Faithful (fun n => list? (readWithin n)) t update d)
    (hbody : Faithful (fun n => list? (readWithin n)) x body d) :
    Faithful readWithin (.tagged "for" (.obj [("label", u), ("init", v), ("condition", w),
      ("update", t), ("body", x)])) (forLoop label init o update body) (d + 2) := by
  have hparts := (hlabel.thenParts (hinit.thenParts (hv.thenParts (hupdate.thenParts
    (hbody.thenParts faithful_noParts))))).map
      fun p => forLoop p.1 p.2.1 p.2.2.1 p.2.2.2.1 p.2.2.2.2.1
  refine record (fun n c => ?_) hparts
  rw [readWithin_for]
  simp [Json.record?, required, defaulted, nullable, thenParts, noParts]

theorem faithful_throw (hname : Faithful (fun _ => Json.string?) u name d)
    (hv : Faithful (fun _ => optional? Expr.read?) v o d) :
    Faithful readWithin (.tagged "throw" (.obj [("exception", u), ("value", v)])) (throw name o)
      (d + 2) := by
  have hparts := (hname.thenParts (hv.thenParts faithful_noParts)).map fun p => throw p.1 p.2.1
  refine record (fun n c => ?_) hparts
  rw [readWithin_throw]
  simp [Json.record?, required, defaulted, nullable, thenParts, noParts]

theorem faithful_tryCatch {handlers : List Handler} {last : Option (List Stmt)}
    (hbody : Faithful (fun n => list? (readWithin n)) u body d)
    (hhandlers : Faithful (fun n => list? (handlerWithin (list? (readWithin n)))) v handlers d)
    (hlast : Faithful (fun n => optional? (list? (readWithin n))) w last d) :
    Faithful readWithin (.tagged "try"
      (.obj [("body", u), ("handlers", v), ("finally", w)])) (tryCatch body handlers last)
        (d + 2) := by
  have hparts := (hbody.thenParts (hhandlers.thenParts (hlast.thenParts faithful_noParts))).map
    fun p => tryCatch p.1 p.2.1 p.2.2.1
  refine record (fun n c => ?_) hparts
  rw [readWithin_try]
  simp [Json.record?, required, defaulted, nullable, thenParts, noParts]

theorem faithful_assert (hv : Faithful (fun _ => Expr.read?) u e d) :
    Faithful readWithin (.tagged "assert" (.obj [("condition", u)])) (assert e) (d + 2) := by
  have hparts := (hv.thenParts faithful_noParts).map fun p => assert p.1
  refine record (fun n c => ?_) hparts
  rw [readWithin_assert]
  simp [Json.record?, required, thenParts, noParts]

/-- A statement whose payload is a single value. -/
theorem faithful_single {α : Type} {part : Json → Option α} {f : α → Stmt} {a : α}
    (hread : ∀ n v, readWithin (n + 1) (.tagged name v) = (part v).bind fun a => some (f a))
    (h : Faithful (fun _ => part) v a d) :
    Faithful readWithin (.tagged name v) (f a) (d + 1) :=
  h.tagged (fun _ => nofun) readWithin_unreadable fun n v =>
    (hread n v).trans Option.map_eq_bind.symm

end Forms

theorem restores_handler (h : Restores readWithin write (mapLiterals Literal.reread) n) :
    Restores (fun n => handlerWithin (list? (readWithin n))) writeHandler
      (mapHandler Literal.reread) n := by
  intro v handler hv
  obtain ⟨r, hr, hv⟩ := Option.bind_eq_some_iff.mp hv
  obtain ⟨exception, hexception, hv⟩ := Option.bind_eq_some_iff.mp hv
  obtain ⟨binding, hbinding, hv⟩ := Option.bind_eq_some_iff.mp hv
  obtain ⟨body, hbody, hpure⟩ := Option.bind_eq_some_iff.mp hv
  obtain rfl := Option.some.inj hpure
  obtain ⟨d, hd, hfields⟩ := Json.record?_fields hr
  have hparts := (((restores_string n).required hfields hexception).thenParts
    (((restores_string n).nullable nofun hfields hbinding).thenParts
      ((h.list.required hfields hbody).thenParts faithful_noParts))).map
        fun p => Handler.clause p.1 p.2.1 p.2.2.1
  rw [Option.map_id] at hparts
  have hclause : Faithful (fun n => handlerWithin (list? (readWithin n)))
      (writeHandler (.clause exception binding body))
        (mapHandler Literal.reread (.clause exception binding body)) (d + 1) := by
    refine Faithful.obj (fun _ => rfl) (fun n c => ?_) hparts
    simp [handlerWithin, Json.record?, required, defaulted, nullable, thenParts, noParts]
  exact hclause.mono hd

/-- Every statement that is read is written as a document that is read as its like. -/
theorem restores (n : Nat) : Restores readWithin write (mapLiterals Literal.reread) n := by
  induction n with
  | zero => exact fun v s hs => nomatch hs
  | succ n ih =>
      intro v s hs
      obtain ⟨⟨name, payload⟩, hv, hs⟩ := Option.bind_eq_some_iff.mp hs
      have hstring := restores_string n
      have hexpr := Expr.restores_read? n
      have hbody := ih.list
      dsimp only at hs
      split at hs
      case h_14 => cases hs
      case h_3 =>
        obtain ⟨e, he, hpure⟩ := Option.bind_eq_some_iff.mp hs
        obtain ⟨w, rfl, he⟩ := Option.bind_eq_some_iff.mp he
        obtain rfl := Option.some.inj hpure
        exact (faithful_single readWithin_expr (hexpr w e he)).mono (Json.depth_payload hv)
      case h_8 =>
        obtain ⟨l, hl, hpure⟩ := Option.bind_eq_some_iff.mp hs
        obtain ⟨w, rfl, hl⟩ := Option.bind_eq_some_iff.mp hl
        obtain rfl := Option.some.inj hpure
        have hlabel := (hstring.optional nofun) w l hl
        rw [Option.map_id] at hlabel
        exact (faithful_single readWithin_break hlabel).mono (Json.depth_payload hv)
      case h_9 =>
        obtain ⟨l, hl, hpure⟩ := Option.bind_eq_some_iff.mp hs
        obtain ⟨w, rfl, hl⟩ := Option.bind_eq_some_iff.mp hl
        obtain rfl := Option.some.inj hpure
        have hlabel := (hstring.optional nofun) w l hl
        rw [Option.map_id] at hlabel
        exact (faithful_single readWithin_continue hlabel).mono (Json.depth_payload hv)
      case h_10 =>
        obtain ⟨o, ho, hpure⟩ := Option.bind_eq_some_iff.mp hs
        obtain ⟨w, rfl, ho⟩ := Option.bind_eq_some_iff.mp ho
        obtain rfl := Option.some.inj hpure
        have hvalue := (hexpr.optional Expr.write_ne_null) w o ho
        exact (faithful_single readWithin_return hvalue).mono (Json.depth_payload hv)
      all_goals
        obtain ⟨r, hr, hs⟩ := Option.bind_eq_some_iff.mp hs
        obtain ⟨d, hd, hfields⟩ := Json.record?_source hv hr
        have hlabel {l : Option String} {name : String}
            (hl : nullable Json.string? (r name) = some l) :
            Faithful (fun _ => optional? Json.string?) (.ofOption .str l) l d := by
          have h := hstring.nullable nofun hfields hl
          rwa [Option.map_id] at h
        have hoption {o : Option Expr} {name : String}
            (ho : nullable Expr.read? (r name) = some o) :=
          hexpr.nullable Expr.write_ne_null hfields ho
        have hother {o : Option (List Stmt)} {name : String}
            (ho : nullable (list? (readWithin n)) (r name) = some o) :=
          hbody.nullable nofun hfields ho
      case h_1 =>
        obtain ⟨s, hs', hs⟩ := Option.bind_eq_some_iff.mp hs
        obtain ⟨l, hl, hs⟩ := Option.bind_eq_some_iff.mp hs
        obtain ⟨o, ho, hpure⟩ := Option.bind_eq_some_iff.mp hs
        obtain rfl := Option.some.inj hpure
        exact (faithful_localDecl (hstring.required hfields hs') (hlabel hl) (hoption ho)).mono hd
      case h_2 =>
        obtain ⟨t, ht, hs⟩ := Option.bind_eq_some_iff.mp hs
        obtain ⟨e, he, hpure⟩ := Option.bind_eq_some_iff.mp hs
        obtain rfl := Option.some.inj hpure
        exact (faithful_assign ((Target.restores n).required hfields ht)
          (hexpr.required hfields he)).mono hd
      case h_4 =>
        obtain ⟨e, he, hs⟩ := Option.bind_eq_some_iff.mp hs
        obtain ⟨body, hthen, hs⟩ := Option.bind_eq_some_iff.mp hs
        obtain ⟨other, hotherwise, hpure⟩ := Option.bind_eq_some_iff.mp hs
        obtain rfl := Option.some.inj hpure
        rw [write, mapLiterals, writeList_eq, writeOption_eq, mapList_eq, mapOption_eq]
        exact (faithful_ifElse (hexpr.required hfields he) (hbody.required hfields hthen)
          (hother hotherwise)).mono hd
      case h_5 =>
        obtain ⟨l, hl, hs⟩ := Option.bind_eq_some_iff.mp hs
        obtain ⟨e, he, hs⟩ := Option.bind_eq_some_iff.mp hs
        obtain ⟨body, hb, hpure⟩ := Option.bind_eq_some_iff.mp hs
        obtain rfl := Option.some.inj hpure
        rw [write, mapLiterals, writeList_eq, mapList_eq]
        exact (faithful_whileLoop (hlabel hl) (hexpr.required hfields he)
          (hbody.required hfields hb)).mono hd
      case h_6 =>
        obtain ⟨l, hl, hs⟩ := Option.bind_eq_some_iff.mp hs
        obtain ⟨body, hb, hs⟩ := Option.bind_eq_some_iff.mp hs
        obtain ⟨e, he, hpure⟩ := Option.bind_eq_some_iff.mp hs
        obtain rfl := Option.some.inj hpure
        rw [write, mapLiterals, writeList_eq, mapList_eq]
        exact (faithful_doWhile (hlabel hl) (hbody.required hfields hb)
          (hexpr.required hfields he)).mono hd
      case h_7 =>
        obtain ⟨l, hl, hs⟩ := Option.bind_eq_some_iff.mp hs
        obtain ⟨init, hinit, hs⟩ := Option.bind_eq_some_iff.mp hs
        obtain ⟨o, ho, hs⟩ := Option.bind_eq_some_iff.mp hs
        obtain ⟨update, hupdate, hs⟩ := Option.bind_eq_some_iff.mp hs
        obtain ⟨body, hb, hpure⟩ := Option.bind_eq_some_iff.mp hs
        obtain rfl := Option.some.inj hpure
        rw [write, mapLiterals, writeList_eq, writeList_eq, writeList_eq, mapList_eq, mapList_eq,
          mapList_eq]
        exact (faithful_forLoop (hlabel hl) (ih.defaultedList hfields hinit) (hoption ho)
          (ih.defaultedList hfields hupdate) (hbody.required hfields hb)).mono hd
      case h_11 =>
        obtain ⟨s, hs', hs⟩ := Option.bind_eq_some_iff.mp hs
        obtain ⟨o, ho, hpure⟩ := Option.bind_eq_some_iff.mp hs
        obtain rfl := Option.some.inj hpure
        exact (faithful_throw (hstring.required hfields hs') (hoption ho)).mono hd
      case h_12 =>
        obtain ⟨body, hb, hs⟩ := Option.bind_eq_some_iff.mp hs
        obtain ⟨handlers, hhandlers, hs⟩ := Option.bind_eq_some_iff.mp hs
        obtain ⟨last, hlast, hpure⟩ := Option.bind_eq_some_iff.mp hs
        obtain rfl := Option.some.inj hpure
        rw [write, mapLiterals, writeList_eq, writeHandlers_eq, writeOption_eq, mapList_eq,
          mapHandlers_eq, mapOption_eq]
        exact (faithful_tryCatch (hbody.required hfields hb)
          ((restores_handler ih).defaultedList hfields hhandlers) (hother hlast)).mono hd
      case h_13 =>
        obtain ⟨e, he, hpure⟩ := Option.bind_eq_some_iff.mp hs
        obtain rfl := Option.some.inj hpure
        exact (faithful_assert (hexpr.required hfields he)).mono hd

theorem restores_read? (n : Nat) :
    Restores (fun _ => read?) write (mapLiterals Literal.reread) n := by
  intro v s hs
  have h := restores (v.depth + 1) v s hs
  exact ⟨h.fits, fun _ _ => h.read_eq _ (Nat.le_refl _), fun _ limit hsome => h.uncut _ limit hsome⟩

end Stmt

theorem Parameter.restores (n : Nat) : Restores (fun _ => read?) write id n := by
  intro v p hp
  obtain ⟨r, hr, hp⟩ := Option.bind_eq_some_iff.mp hp
  obtain ⟨s, hs, hp⟩ := Option.bind_eq_some_iff.mp hp
  obtain ⟨q, hq, hpure⟩ := Option.bind_eq_some_iff.mp hp
  obtain rfl := Option.some.inj hpure
  obtain ⟨d, hd, hfields⟩ := Json.record?_fields hr
  have hparts := (((restores_string n).required hfields hs).thenParts
    (((restores_string n).nullable nofun hfields hq).thenParts faithful_noParts)).map
      fun p => Parameter.mk p.1 p.2.1
  rw [Option.map_id] at hparts
  have hparameter : Faithful (fun _ => read?) (write ⟨s, q⟩) ⟨s, q⟩ (d + 1) := by
    refine Faithful.obj (fun _ => rfl) (fun n c => ?_) hparts
    simp [read?, Json.record?, required, defaulted, nullable, thenParts, noParts]
  exact hparameter.mono hd

namespace ProgramUnit

def mapLiterals (f : Literal → Literal) (u : ProgramUnit) : ProgramUnit :=
  { u with body := u.body.map (Stmt.mapLiterals f) }

theorem restores (n : Nat) : Restores (fun _ => read?) write (mapLiterals Literal.reread) n := by
  intro v u hu
  obtain ⟨r, hr, hu⟩ := Option.bind_eq_some_iff.mp hu
  obtain ⟨s, hs, hu⟩ := Option.bind_eq_some_iff.mp hu
  obtain ⟨params, hparams, hu⟩ := Option.bind_eq_some_iff.mp hu
  obtain ⟨q, hq, hu⟩ := Option.bind_eq_some_iff.mp hu
  obtain ⟨body, hbody, hpure⟩ := Option.bind_eq_some_iff.mp hu
  obtain rfl := Option.some.inj hpure
  obtain ⟨d, hd, hfields⟩ := Json.record?_fields hr
  have hparts := (((restores_string n).required hfields hs).thenParts
    (((Parameter.restores n).defaultedList hfields hparams).thenParts
      (((restores_string n).nullable nofun hfields hq).thenParts
        (((Stmt.restores_read? n).list.required hfields hbody).thenParts faithful_noParts)))).map
          fun p => ProgramUnit.mk p.1 p.2.1 p.2.2.1 p.2.2.2.1
  rw [Option.map_id, List.map_id] at hparts
  have hunit : Faithful (fun _ => read?) (write ⟨s, params, q, body⟩)
      (mapLiterals Literal.reread ⟨s, params, q, body⟩) (d + 1) := by
    rw [write, Stmt.writeList_eq]
    refine Faithful.obj (fun _ => rfl) (fun n c => ?_) hparts
    simp [read?, Json.record?, required, defaulted, nullable, thenParts, noParts]
  exact hunit.mono hd

end ProgramUnit

namespace Program

def mapLiterals (f : Literal → Literal) (p : Program) : Program :=
  ⟨p.units.map (ProgramUnit.mapLiterals f)⟩

theorem restores (n : Nat) : Restores (fun _ => read?) write (mapLiterals Literal.reread) n := by
  intro v p hp
  obtain ⟨r, hr, hp⟩ := Option.bind_eq_some_iff.mp hp
  obtain ⟨units, hunits, hpure⟩ := Option.bind_eq_some_iff.mp hp
  obtain rfl := Option.some.inj hpure
  obtain ⟨d, hd, hfields⟩ := Json.record?_fields hr
  have hparts := (((ProgramUnit.restores n).list.required hfields hunits).thenParts
    faithful_noParts).map fun p => Program.mk p.1
  have hprogram : Faithful (fun _ => read?) (write ⟨units⟩)
      (mapLiterals Literal.reread ⟨units⟩) (d + 1) := by
    refine Faithful.obj (fun _ => rfl) (fun n c => ?_) hparts
    simp [read?, Json.record?, required, thenParts, noParts]
  exact hprogram.mono hd

end Program

end FlowTyping
