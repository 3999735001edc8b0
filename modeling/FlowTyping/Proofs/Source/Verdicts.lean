import FlowTyping.Proofs.Lowering.Protected

/-!
Well-formed source: every jump has a loop to go to, the clauses of a protected region name
different categories, and no category is empty. A statement is judged inside the loops around
it, whether or not control reaches it.
-/

namespace FlowTyping

/-- The error is about the source, not about the graph that was built from it. -/
def GraphError.isSourceFault : GraphError → Bool
  | breakOutsideLoop | continueOutsideLoop | unknownLabel _ | duplicateHandler _
  | emptyExceptionCategory => true
  | _ => false

mutual

/-- No call in an expression declares an empty category. -/
def Expr.wellFormed : Expr → Bool
  | .literal _ | .var _ | .this => true
  | .field receiver _ => receiver.wellFormed
  | .call receiver _ args throws =>
      Expr.optionWellFormed receiver && (Expr.allWellFormed args && throws.all (· ≠ ""))
  | .new _ args => Expr.allWellFormed args
  | .binary _ lhs rhs => lhs.wellFormed && rhs.wellFormed
  | .unary _ operand | .cast _ operand => operand.wellFormed
  | .ternary condition thenValue elseValue =>
      condition.wellFormed && (thenValue.wellFormed && elseValue.wellFormed)

def Expr.optionWellFormed : Option Expr → Bool
  | none => true
  | some e => e.wellFormed

def Expr.allWellFormed : List Expr → Bool
  | [] => true
  | e :: rest => e.wellFormed && Expr.allWellFormed rest

end

def Target.wellFormed : Target → Bool
  | .local _ => true
  | .field receiver _ => receiver.wellFormed

/-- Every clause names a category, and no two name the same one. -/
def Handler.distinct (handlers : List Handler) : Bool :=
  handlers.all (fun h => h.exception ≠ "") && decide (handlers.map Handler.exception).Nodup

/-- Some loops, given by their labels, include one that a jump may name. A jump without a
label names any loop. -/
def Stmt.finds (loops : List (Option String)) : Option String → Bool
  | none => !loops.isEmpty
  | some label => loops.contains (some label)

namespace Stmt

mutual

/-- A statement is well-formed inside some loops. A loop is around its body, but not around
what initialises or updates it. A final body is inside the loops around the region that it
protects. -/
def wellFormed (loops : List (Option String)) : Stmt → Bool
  | .localDecl _ _ init => Expr.optionWellFormed init
  | .assign target value => target.wellFormed && value.wellFormed
  | .expr value | .assert value => value.wellFormed
  | .ifElse condition thenBody elseBody =>
      condition.wellFormed && (allWellFormed loops thenBody && optionWellFormed loops elseBody)
  | .whileLoop label condition body | .doWhile label body condition =>
      condition.wellFormed && allWellFormed (label :: loops) body
  | .forLoop label init condition update body =>
      allWellFormed loops init &&
        (Expr.optionWellFormed condition &&
          (allWellFormed (label :: loops) body && allWellFormed loops update))
  | .breakLoop label | .continueLoop label => finds loops label
  | .returnValue value => Expr.optionWellFormed value
  | .throw exception value => Expr.optionWellFormed value && decide (exception ≠ "")
  | .tryCatch body handlers finalBody =>
      Handler.distinct handlers &&
        (allWellFormed loops body &&
          (clausesWellFormed loops handlers && optionWellFormed loops finalBody))

def allWellFormed (loops : List (Option String)) : List Stmt → Bool
  | [] => true
  | s :: rest => s.wellFormed loops && allWellFormed loops rest

def optionWellFormed (loops : List (Option String)) : Option (List Stmt) → Bool
  | none => true
  | some body => allWellFormed loops body

def clausesWellFormed (loops : List (Option String)) : List Handler → Bool
  | [] => true
  | .clause _ _ body :: rest => allWellFormed loops body && clausesWellFormed loops rest

end

end Stmt

def ProgramUnit.wellFormed (u : ProgramUnit) : Bool := Stmt.allWellFormed [] u.body

/-- The labels of the loops among some frames. -/
def Frame.loops : List Frame → List (Option String)
  | [] => []
  | loop label _ _ :: outer => label :: loops outer
  | handlers _ :: outer | finalBody _ _ :: outer => loops outer

namespace Frame

theorem loops_finals (crossed : List Crossing) (frames : List Frame) :
    loops (crossed.map (fun c => finalBody c.id c.copy) ++ frames) = loops frames := by
  induction crossed with
  | nil => rfl
  | cons crossing rest ih => exact ih

/-- A jump has a way out exactly if its loop is found. -/
theorem isSome_way (label : Option String) (leaves : Bool) (frames : List Frame) :
    (way label leaves frames).isSome = Stmt.finds (loops frames) label := by
  induction frames with
  | nil => cases label <;> rfl
  | cons frame outer ih =>
      cases frame with
      | loop name continueTarget breakTarget =>
          rw [way_loop, loops]
          cases label with
          | none => rfl
          | some label =>
              by_cases hname : name = some label
              · simp [hname, Stmt.finds]
              · rw [if_neg (by simpa using hname), ih]
                simp [Stmt.finds, Ne.symm hname]
      | handlers targets => rw [way_handlers, ih, loops]
      | finalBody id copy => rw [way_finalBody, Option.isSome_map, ih, loops]

end Frame

theorem checkHandlers_ok {seen categories : List String} :
    checkHandlers seen categories = .ok () ↔
      (∀ c ∈ categories, c ≠ "" ∧ c ∉ seen) ∧ categories.Nodup := by
  induction categories generalizing seen with
  | nil => simp [checkHandlers]
  | cons category rest ih =>
      rw [checkHandlers, List.forall_mem_cons, List.nodup_cons]
      by_cases hempty : category = ""
      · simp [hempty]
      · by_cases hseen : category ∈ seen
        · simp [hempty, hseen]
        · rw [if_neg (by simpa using hempty), if_neg hseen, ih]
          grind

theorem Handler.distinct_iff (handlers : List Handler) :
    Handler.distinct handlers = true ↔
      checkHandlers [] (handlers.map Handler.exception) = .ok () := by
  simp [distinct, checkHandlers_ok]

theorem checkHandlers_error {seen categories : List String} {e : GraphError}
    (h : checkHandlers seen categories = .error e) : e.isSourceFault = true := by
  induction categories generalizing seen with
  | nil => cases h
  | cons category rest ih =>
      rw [checkHandlers] at h
      split at h
      · cases h
        rfl
      · split at h
        · cases h
          rfl
        · exact ih h

end FlowTyping

/-!
Verdicts: a construction succeeds exactly if some property of the source holds. A path through
final bodies may be shared with an earlier request, and then none of its copies is built again;
so a verdict is given on the assumption that the final bodies around are well-formed, and what
a cached path crosses is known to be.
-/

namespace FlowTyping

open Build

/-- For each final body so far, in the order of their ids, whether it is well-formed. Those on
cached paths are. -/
structure Building.Vouched (P : List Bool) (b : Building) : Prop where
  finals : P.length = b.nextFinal
  paths : ∀ path ∈ b.finalPaths, ∀ id ∈ path.1.1, P[id]? = some true

/-- The outcome of a construction gives a verdict on a property of the source. A refusal may
be on account of a final body from before. Those that are new are well-formed. -/
inductive Judged {α : Type} (P : List Bool) (W : Prop) : Except GraphError (α × Building) → Prop
  | accepted {a : α} {b : Building} {new : List Bool} (holds : W) (vouched : b.Vouched (P ++ new))
      (sound : false ∉ new) : Judged P W (.ok (a, b))
  | refused {e : GraphError} (fault : e.isSourceFault = true) (blame : W → false ∈ P) :
      Judged P W (.error e)

/-- A construction succeeds exactly if a property holds, when some final bodies are known. -/
structure Judges {α : Type} (P : List Bool) (W : Prop) (m : Build α) : Prop where
  run : ∀ {P₁ : List Bool} {b : Building}, P <+: P₁ → b.Vouched P₁ → Judged P₁ W (m.run b)

/-- A construction that always succeeds and leaves final bodies alone. -/
structure Plain {α : Type} (m : Build α) : Prop where
  run : ∀ b : Building, ∃ a b', m.run b = .ok (a, b') ∧ b'.nextFinal = b.nextFinal ∧
    b'.finalPaths = b.finalPaths

section

variable {α β : Type} {P P' : List Bool} {W V : Prop} {m : Build α} {f : α → Build β}

theorem Building.Vouched.congr {b b' : Building} (hb : b.Vouched P)
    (hnext : b'.nextFinal = b.nextFinal) (hpaths : b'.finalPaths = b.finalPaths) : b'.Vouched P :=
  ⟨hb.finals.trans hnext.symm, hpaths ▸ hb.paths⟩

/-- Success without any new final body. -/
theorem Judged.settled {a : α} {b : Building} (holds : W) (hb : b.Vouched P) :
    Judged P W (.ok (a, b)) := by
  have hb' : b.Vouched (P ++ []) := by rwa [List.append_nil]
  exact .accepted holds hb' List.not_mem_nil

namespace Plain

theorem nothing (a : α) : Plain (pure a) :=
  ⟨fun b => ⟨a, b, rfl, rfl, rfl⟩⟩

theorem andThen (hm : Plain m) (hf : ∀ a, Plain (f a)) : Plain (m >>= f) where
  run b := by
    obtain ⟨a, b₁, h₁, hnext₁, hpaths₁⟩ := hm.run b
    obtain ⟨c, b₂, h₂, hnext₂, hpaths₂⟩ := (hf a).run b₁
    exact ⟨c, b₂, run_bind.mpr ⟨a, b₁, h₁, h₂⟩, hnext₂.trans hnext₁, hpaths₂.trans hpaths₁⟩

theorem dropped (hm : Plain m) : Plain (discard m) :=
  hm.andThen fun _ => nothing ()

theorem getState : Plain (get : Build Building) :=
  ⟨fun b => ⟨b, b, rfl, rfl, rfl⟩⟩

theorem update {change : Building → Building} (hnext : ∀ b, (change b).nextFinal = b.nextFinal)
    (hpaths : ∀ b, (change b).finalPaths = b.finalPaths) : Plain (modify change : Build Unit) :=
  ⟨fun b => ⟨(), change b, rfl, hnext b, hpaths b⟩⟩

theorem scopes (change : Scopes → Scopes) :
    Plain (modify fun b => { b with scopes := change b.scopes } : Build Unit) :=
  update (fun _ => rfl) fun _ => rfl

theorem newDraft (exits : Exits) : Plain (newDraft exits) :=
  ⟨fun b => ⟨_, _, run_newDraft exits b, rfl, rfl⟩⟩

theorem newBlock : Plain newBlock := newDraft _

theorem newLoopHead : Plain newLoopHead := newDraft _

theorem setCurrent (block : Option BlockId) : Plain (setCurrent block) :=
  ⟨fun b => ⟨_, _, run_setCurrent block b, rfl, rfl⟩⟩

theorem link (source target : BlockId) : Plain (link source target) :=
  ⟨fun b => ⟨_, _, run_link source target b, rfl, rfl⟩⟩

theorem closeWith (target : BlockId) : Plain (closeWith target) :=
  ⟨fun b => ⟨_, _, run_closeWith target b, rfl, rfl⟩⟩

theorem nextBlock : Plain nextBlock :=
  ⟨fun b => ⟨_, _, run_nextBlock b, rfl, rfl⟩⟩

theorem draft (block : BlockId) : Plain (draft block) :=
  ⟨fun b => ⟨_, b, rfl, rfl, rfl⟩⟩

theorem modifyDraft (block : BlockId) (change : Draft → Draft) : Plain (modifyDraft block change) :=
  update (fun _ => rfl) fun _ => rfl

theorem pushNode (block : BlockId) (kind : NodeKind) : Plain (pushNode block kind) :=
  ⟨fun b => ⟨_, _, run_pushNode block kind b, rfl, rfl⟩⟩

theorem openBlock : Plain openBlock := by
  have hnext : Plain (do
      let block ← Build.nextBlock
      Build.setCurrent block
      return block) := nextBlock.andThen fun _ => (setCurrent _).andThen fun _ => nothing _
  refine getState.andThen fun b => ?_
  split
  · refine (draft _).andThen fun d => ?_
    split
    · exact nothing _
    · exact hnext
  · exact hnext

theorem emit (kind : NodeKind) : Plain (emit kind) :=
  openBlock.andThen fun _ => pushNode _ kind

theorem branch (condition : NodeId) (thenTarget elseTarget : BlockId) :
    Plain (branch condition thenTarget elseTarget) :=
  getState.andThen fun _ => (newDraft _).andThen fun _ => (link _ _).andThen fun _ => setCurrent _

theorem declare (var : LocalVar) : Plain (declare var) :=
  ⟨fun _ => ⟨_, _, run_declare var, rfl, rfl⟩⟩

theorem lookup (name : String) : Plain (lookup name) :=
  getState.andThen fun _ => nothing _

end Plain

namespace Judges

theorem extend (h : Judges P W m) (hP : P <+: P') : Judges P' W m :=
  ⟨fun hP₁ hb => h.run (hP.trans hP₁) hb⟩

/-- A verdict on one property is a verdict on another one that amounts to the same when the
final bodies known are well-formed. -/
theorem weigh (h : Judges P W m) (hW : W → V) (hV : V → false ∉ P → W) : Judges P V m where
  run {P₁ b} hP hb := by
    have hjudged := h.run hP hb
    generalize m.run b = outcome at hjudged ⊢
    cases hjudged with
    | accepted holds vouched sound => exact .accepted (hW holds) vouched sound
    | refused fault blame =>
        refine .refused fault fun hv => ?_
        by_cases hbad : false ∈ P
        · exact hP.subset hbad
        · exact blame (hV hv hbad)

theorem congr (h : Judges P W m) (hWV : W ↔ V) : Judges P V m :=
  h.weigh hWV.mp fun hv _ => hWV.mpr hv

theorem of_plain (h : Plain m) : Judges P True m where
  run {P₁ b} hP hb := by
    obtain ⟨a, b', hrun, hnext, hpaths⟩ := h.run b
    rw [hrun]
    exact .settled trivial (hb.congr hnext hpaths)

/-- The second construction only begins when the first one has succeeded. -/
theorem bindHolding (hm : Judges P W m) (hf : W → ∀ a, Judges P V (f a)) :
    Judges P (W ∧ V) (m >>= f) where
  run {P₁ b} hP hb := by
    rw [StateT.run_bind]
    have hfirst := hm.run hP hb
    generalize m.run b = outcome at hfirst ⊢
    cases hfirst with
    | refused fault blame => exact .refused fault fun h => blame h.1
    | @accepted a b₁ new holds vouched sound =>
        have hnext := (hf holds a).run (hP.trans (List.prefix_append P₁ new)) vouched
        change Judged P₁ (W ∧ V) ((f a).run b₁)
        generalize (f a).run b₁ = outcome at hnext ⊢
        cases hnext with
        | refused fault blame =>
            refine .refused fault fun h => ?_
            exact (List.mem_append.mp (blame h.2)).resolve_right sound
        | @accepted c b₂ more holds' vouched' sound' =>
            rw [List.append_assoc] at vouched'
            exact .accepted ⟨holds, holds'⟩ vouched' (by simp [sound, sound'])

theorem bind (hm : Judges P W m) (hf : ∀ a, Judges P V (f a)) : Judges P (W ∧ V) (m >>= f) :=
  hm.bindHolding fun _ => hf

theorem afterRun (hm : Plain m) (hf : ∀ a, (∃ b b', m.run b = .ok (a, b')) → Judges P W (f a)) :
    Judges P W (m >>= f) where
  run {P₁ b} hP hb := by
    obtain ⟨a, b', hrun, hnext, hpaths⟩ := hm.run b
    rw [StateT.run_bind, hrun]
    exact (hf a ⟨b, b', hrun⟩).run hP (hb.congr hnext hpaths)

theorem after (hm : Plain m) (hf : ∀ a, Judges P W (f a)) : Judges P W (m >>= f) :=
  afterRun hm fun a _ => hf a

theorem before (hm : Judges P W m) (hf : ∀ a, Plain (f a)) : Judges P W (m >>= f) :=
  (hm.bind fun a => of_plain (hf a)).congr (by rw [and_true])

theorem dropped (hm : Judges P W m) : Judges P W (discard m) :=
  hm.before fun _ => .nothing ()

theorem inside {m : Build Unit} (hm : Judges P W m) : Judges P W (inScope m) :=
  .after (.scopes ([] :: ·)) fun _ => hm.before fun _ => .scopes (List.drop 1)

theorem refusal {e : GraphError} (he : e.isSourceFault = true) :
    Judges P False (throw e : Build α) :=
  ⟨fun _ _ => .refused he False.elim⟩

/-- What a construction does with the state that it finds. -/
theorem getState {f : Building → Build α}
    (hf : ∀ {P₁ : List Bool} {b : Building}, P <+: P₁ → b.Vouched P₁ → Judges P₁ W (f b)) :
    Judges P W (get >>= f) :=
  ⟨fun hP hb => (hf hP hb).run List.prefix_rfl hb⟩

/-- A path may be shared once its copies have been built. -/
theorem remember {key : List Nat × BlockId} {first : BlockId}
    (h : ∀ id ∈ key.1, P[id]? = some true) : Judges P True
      (modify fun b => { b with finalPaths := (key, first) :: b.finalPaths } : Build Unit) where
  run {P₁ b} hP hb := by
    have hknown : ∀ id ∈ key.1, P₁[id]? = some true :=
      fun id hid => getElem?_of_isPrefix hP (h id hid)
    exact .settled trivial ⟨hb.finals, List.forall_mem_cons.mpr ⟨hknown, hb.paths⟩⟩

end Judges

end

/-- The final bodies that are crossed are known, and copies of them give the verdict. -/
def Vetted (P : List Bool) (crossed : List Crossing) : Prop :=
  ∀ c ∈ crossed, ∃ w, P[c.id]? = some w ∧ Judges P (w = true) c.copy

namespace Vetted

variable {P P' : List Bool} {crossed crossed' : List Crossing}

theorem extend (h : Vetted P crossed) (hP : P <+: P') : Vetted P' crossed := by
  intro c hc
  obtain ⟨w, hw, hcopy⟩ := h c hc
  exact ⟨w, getElem?_of_isPrefix hP hw, hcopy.extend hP⟩

theorem subset (h : Vetted P crossed) (hsub : crossed' ⊆ crossed) : Vetted P crossed' :=
  fun c hc => h c (hsub hc)

/-- If all final bodies known are well-formed, then those crossed are. -/
theorem sound (h : Vetted P crossed) (hP : false ∉ P) : ∀ c ∈ crossed, P[c.id]? = some true := by
  intro c hc
  obtain ⟨w, hw, -⟩ := h c hc
  cases w with
  | true => exact hw
  | false => exact absurd (List.mem_of_getElem? hw) hP

end Vetted

namespace Judges

variable {P : List Bool} {crossed : List Crossing} {frames : List Frame}

theorem copies (h : Vetted P crossed) :
    Judges P (∀ c ∈ crossed, P[c.id]? = some true) (crossed.forM Crossing.copy) := by
  induction crossed with
  | nil => exact (of_plain (.nothing ())).congr (by simp)
  | cons crossing rest ih =>
      obtain ⟨w, hw, hcopy⟩ := h crossing List.mem_cons_self
      rw [List.forM]
      refine (hcopy.bind fun _ => ih (h.subset (List.subset_cons_self _ _))).congr ?_
      rw [List.forall_mem_cons, hw, Option.some.injEq]

/-- A way out is made exactly if the final bodies on it are well-formed, whether their copies
are built for it or for an earlier request. -/
theorem leaveThrough (h : Vetted P crossed) (target : BlockId) :
    Judges P (∀ c ∈ crossed, P[c.id]? = some true) (leaveThrough crossed target) := by
  unfold Build.leaveThrough
  split
  · rename_i hempty
    obtain rfl : crossed = [] := by simpa using hempty
    exact (of_plain (.nothing target)).congr (by simp)
  · refine getState fun {P₁ b} hP hb => ?_
    have hknown : (∀ c ∈ crossed, P₁[c.id]? = some true) ↔ ∀ c ∈ crossed, P[c.id]? = some true := by
      refine forall₂_congr fun c hc => ?_
      obtain ⟨w, hw, -⟩ := h c hc
      rw [hw, getElem?_of_isPrefix hP hw]
    refine Judges.congr ?_ hknown
    split
    · rename_i path hpath
      have hkey : path.1 = (crossed.map Crossing.id, target) := by
        simpa using List.find?_some hpath
      refine (of_plain (.nothing path.2)).congr (iff_of_true trivial fun c hc => ?_)
      exact hb.paths path (List.mem_of_find?_eq_some hpath) c.id
        (hkey ▸ List.mem_map_of_mem hc)
    · refine .after .getState fun saved => .after .newBlock fun first =>
        .after (.setCurrent _) fun _ => ?_
      refine ((copies (h.extend hP)).bindHolding fun hcrossed _ => ?_).congr (and_iff_left trivial)
      refine .after (.closeWith _) fun _ => .after (.setCurrent _) fun _ =>
        .before (.remember ?_) fun _ => .nothing first
      simpa using hcrossed

theorem leave (h : Vetted P crossed) (target : BlockId) :
    Judges P True (Build.leaveThrough crossed target) :=
  (leaveThrough h target).weigh (fun _ => trivial) fun _ => h.sound

theorem depart (h : Vetted P crossed) (target : BlockId) :
    Judges P True (do closeWith (← Build.leaveThrough crossed target)) :=
  (leave h target).before fun _ => .closeWith _

theorem exceptionTargets (h : Vetted P (Frame.crossings frames)) (categories : List String)
    (routed : List (String × BlockId)) :
    Judges P (∀ c ∈ categories, c ≠ "") (exceptionTargets frames categories routed) := by
  induction categories generalizing routed with
  | nil => exact (of_plain (.nothing routed)).congr (by simp)
  | cons category rest ih =>
      rw [Build.exceptionTargets, List.forall_mem_cons]
      dsimp only
      split
      · rename_i hempty
        have hcategory : category = "" := by simpa using hempty
        exact ((refusal rfl).bindHolding (V := True) False.elim).congr (by simp [hcategory])
      · rename_i hnonempty
        have hcategory : category ≠ "" := by simpa using hnonempty
        refine Judges.congr ?_ (and_iff_right hcategory).symm
        split
        · exact ih routed
        · rw [exceptionTarget_eq]
          refine ((leave (h.subset ?_) _).bind fun _ => ih _).congr (and_iff_right trivial)
          exact fun c => Frame.mem_crossings_of_route

/-- A raising node may name any categories but an empty one. -/
theorem emitRaising (h : Vetted P (Frame.crossings frames)) (kind : NodeKind)
    (categories : List String) (terminal : Bool) :
    Judges P (∀ c ∈ categories, c ≠ "") (emitRaising frames kind categories terminal) := by
  refine (exceptionTargets h categories []).before fun handlers => .andThen .getState fun b => ?_
  have hplace (block : BlockId) : Plain (do
      let id ← pushNode block kind
      modifyDraft block fun d => { d with exits := .raise none handlers terminal }
      setCurrent (if terminal then none else some block)
      return id) :=
    (Plain.pushNode block kind).andThen fun _ =>
      (Plain.modifyDraft _ _).andThen fun _ => (Plain.setCurrent _).andThen fun _ => .nothing _
  have hfresh := Plain.nextBlock.andThen hplace
  cases b.current with
  | none => exact hfresh
  | some block =>
      refine (Plain.draft block).andThen fun d => ?_
      by_cases hreuse : (decide (d.exits = .openEnd) && d.nodes.isEmpty) = true
      · simp only [hreuse]
        exact hplace block
      · simp only [hreuse]
        exact hfresh

end Judges

end FlowTyping
