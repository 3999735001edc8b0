import FlowTyping.Proofs.Flow.Writes

/-!
What is known of the heap around a node that runs code which may write to it. What comes next
when the node completes knows of later writes only. A clause that catches from the node sees the
store before it, and so all that was known of the heap by then.
-/

namespace FlowTyping

/-- Code that may write to the heap may change what any key on it stands for. -/
theorem Checker.invalidates_of_runsCode {c : Checker} {kind : NodeKind} {key : FlowKey}
    (hcode : c.runsCode kind = true) (hkey : key.isHeapDependent = true) :
    c.invalidates kind key = true := by
  cases kind with
  | call receiver method args => simpa [invalidates, runsCode, hkey] using hcode
  | new name args => exact hkey
  | _ => cases hcode

namespace TransferResult

variable {h : Hierarchy} {r : TransferResult} {key : FlowKey} {q : Qualifier}

/-- One of the outcomes has an entry for the key. -/
def Knows (r : TransferResult) (key : FlowKey) : Prop := ∃ q, r.Holds key q

/-- The join of the outcomes has entries for the keys of one of them only. -/
theorem knows_of_collapse (hq : (r.collapse h).get? key = some q) : r.Knows key := by
  cases r with
  | regular s => exact ⟨q, .inl hq⟩
  | split t e =>
      have hcollapse : (t.join h e).get? key = some q := hq
      cases ht : t.reachable with
      | false =>
          have hjoin : t.join h e = e := by simp [Store.join, ht]
          exact ⟨q, .inr (hjoin ▸ hcollapse)⟩
      | true =>
          cases he : e.reachable with
          | false =>
              have hjoin : t.join h e = t := by simp [Store.join, ht, he]
              exact ⟨q, .inl (hjoin ▸ hcollapse)⟩
          | true =>
              rw [Store.get?_join ht he] at hcollapse
              split at hcollapse
              · rename_i hmem
                rcases List.mem_append.mp hmem with hmem | hmem
                · obtain ⟨v, hv⟩ := Option.ne_none_iff_exists'.mp
                    (fun hnone => Store.get?_eq_none.mp hnone hmem)
                  exact ⟨v, .inl hv⟩
                · obtain ⟨v, hv⟩ := Option.ne_none_iff_exists'.mp
                    (fun hnone => Store.get?_eq_none.mp hnone hmem)
                  exact ⟨v, .inr hv⟩
              · cases hcollapse

end TransferResult

namespace UnitAnalysis

variable {u : UnitAnalysis} {V V' : NodeValues} {node : Node} {key : FlowKey} {q : Qualifier}
  {input result : TransferResult} {run run' : BlockRun} {ids later : List NodeId} {b : BlockId}
  {block : Block} {r : BlockTransfer TransferResult}

/-- A node knows of a key on the heap what came in, unless it invalidates the key, and what it
writes. -/
theorem transferNode_knows (h : u.transferNode V node input = .ok (q, result))
    (hkey : key.isHeapDependent = true) (hknown : result.Knows key) :
    (input.Knows key ∧ u.checker.invalidates node.kind key = false) ∨
      ∃ m part, u.Writes node.kind m part key := by
  obtain ⟨v, hv⟩ := hknown
  rcases transferNode_holds h hv with ⟨hspared, hold⟩ | hlocal | hwrites
  · refine .inl ⟨?_, hspared⟩
    rcases hold with hold | hold
    · exact ⟨v, hold⟩
    · exact TransferResult.knows_of_collapse hold
  · rw [hlocal] at hkey
    cases hkey
  · exact .inr hwrites

/-- What a run knows of a key on the heap in the end came in and was never invalidated, or was
written by one of its nodes. -/
theorem runNodes_knows (h : u.runNodes ids run = (run', none))
    (hkey : key.isHeapDependent = true) (hknown : run'.current.Knows key) :
    (run.current.Knows key ∧ ∀ k ∈ ids, ∀ node, u.graph.node? k = some node →
      u.checker.invalidates node.kind key = false) ∨
    ∃ k ∈ ids, ∃ node m part, u.graph.node? k = some node ∧ u.Writes node.kind m part key := by
  induction ids generalizing run with
  | nil =>
      cases h
      exact .inl ⟨hknown, nofun⟩
  | cons id rest ih =>
      have hwiden : (∃ k ∈ rest, ∃ node m part, u.graph.node? k = some node ∧
          u.Writes node.kind m part key) →
          ∃ k ∈ id :: rest, ∃ node m part, u.graph.node? k = some node ∧
            u.Writes node.kind m part key := by
        rintro ⟨k, hk, hwritten⟩
        exact ⟨k, List.mem_cons_of_mem id hk, hwritten⟩
      cases hnode : u.graph.node? id with
      | none =>
          rw [runNodes, hnode] at h
          rcases ih h with ⟨hin, hspared⟩ | hwritten
          · refine .inl ⟨hin, List.forall_mem_cons.mpr ⟨fun node hnode' => ?_, hspared⟩⟩
            rw [hnode] at hnode'
            cases hnode'
          · exact .inr (hwiden hwritten)
      | some node =>
          obtain ⟨q, result, htransfer, hrest⟩ := (runNodes_cons_ok hnode).mp h
          rcases ih hrest with ⟨hin, hspared⟩ | hwritten
          · rcases transferNode_knows htransfer hkey hin with ⟨hin, hkept⟩ | ⟨m, part, hwrites⟩
            · refine .inl ⟨hin, List.forall_mem_cons.mpr ⟨fun node' hnode' => ?_, hspared⟩⟩
              rw [hnode] at hnode'
              cases hnode'
              exact hkept
            · exact .inr ⟨id, List.mem_cons_self, node, m, part, hnode, hwrites⟩
          · exact .inr (hwiden hwritten)

theorem runNodes_append_ok : u.runNodes (ids ++ later) run = (run', none) ↔
    ∃ mid, u.runNodes ids run = (mid, none) ∧ u.runNodes later mid = (run', none) := by
  induction ids generalizing run with
  | nil => simp [runNodes]
  | cons id rest ih =>
      rw [List.cons_append]
      cases hnode : u.graph.node? id with
      | none =>
          simp only [runNodes, hnode]
          exact ih
      | some node =>
          simp only [runNodes_cons_ok hnode]
          constructor
          · rintro ⟨q, result, htransfer, hrest⟩
            obtain ⟨mid, hmid, hlater⟩ := ih.mp hrest
            exact ⟨mid, ⟨q, result, htransfer, hmid⟩, hlater⟩
          · rintro ⟨mid, ⟨q, result, htransfer, hmid⟩, hlater⟩
            exact ⟨q, result, htransfer, ih.mpr ⟨mid, hmid, hlater⟩⟩

/-- A block with nodes sends the result of its run where they complete, and its input where
they raise. -/
theorem transferBlock_sends (hg : u.graph.Valid) (hblock : u.graph.block? b = some block)
    (hnodes : block.nodes ≠ []) (h : u.transferBlock V b input = .ok (r, V')) :
    r.edges = block.kind.onward.map (·, r.output) ++
        block.kind.raised.map (·, .regular (input.collapse u.checker.hierarchy)) ∧
      ∃ run, u.runBlock block V input = (run, none) ∧ r.output = run.current := by
  unfold transferBlock at h
  rw [hblock] at h
  dsimp only at h
  split at h <;> rename_i hkind
  · exact absurd (hg.tested hblock hkind).1 hnodes
  · exact absurd (hg.special hblock hkind) hnodes
  · split at h
    · cases h
    · rename_i run hrun
      cases h
      exact ⟨by simp [hkind, BlockKind.onward, BlockKind.raised], run, hrun, rfl⟩
  · split at h
    · cases h
    · rename_i run hrun
      cases h
      exact ⟨by simp [hkind, BlockKind.onward, BlockKind.raised], run, hrun, rfl⟩

/-- Around a node that runs code which may write to the heap: where the block completes, a key
on the heap is known only if the node or a later one of the block wrote it; where the node
raises, the store before it is sent unchanged. -/
theorem transferBlock_forgets (hg : u.graph.Valid) {n : NodeId} {before after : List NodeId}
    (hblock : u.graph.block? b = some block) (hnodes : block.nodes = before ++ n :: after)
    (hnode : u.graph.node? n = some node) (hcode : u.checker.runsCode node.kind = true)
    (h : u.transferBlock V b input = .ok (r, V')) :
    r.edges = block.kind.onward.map (·, r.output) ++
        block.kind.raised.map (·, .regular (input.collapse u.checker.hierarchy)) ∧
      (∀ key q, key.isHeapDependent = true → r.output.Holds key q →
        ∃ k ∈ n :: after, ∃ writer m part, u.graph.node? k = some writer ∧
          u.Writes writer.kind m part key) ∧
      (block.kind.raised ≠ [] → before = [] ∧ after = []) := by
  have hne : block.nodes ≠ [] := by simp [hnodes]
  obtain ⟨hedges, run, hrun, houtput⟩ := transferBlock_sends hg hblock hne h
  refine ⟨hedges, fun key q hkey hq => ?_, fun hraised => ?_⟩
  · unfold runBlock at hrun
    rw [hnodes] at hrun
    obtain ⟨mid, -, hrest⟩ := runNodes_append_ok.mp hrun
    rcases runNodes_knows hrest hkey ⟨q, houtput ▸ hq⟩ with ⟨-, hspared⟩ | hwritten
    · have hkept := hspared n List.mem_cons_self node hnode
      rw [Checker.invalidates_of_runsCode hcode hkey] at hkept
      cases hkept
    · exact hwritten
  · cases hkind : block.kind with
    | exceptional successor handlers =>
        obtain ⟨id, hid⟩ := hg.raising hblock hkind
        rw [hnodes] at hid
        obtain ⟨hbefore, -, hafter⟩ : before = [] ∧ n = id ∧ after = [] := by
          simpa using List.append_eq_singleton_iff.mp hid
        exact ⟨hbefore, hafter⟩
    | _ =>
        rw [hkind] at hraised
        exact absurd rfl hraised

end UnitAnalysis

/-- A unit that knows of one value. -/
def loggingUnit : ProgramUnit where
  name := "logging"
  params := [⟨"known", some "Present"⟩]
  returnQualifier := some "Present"
  body := []

/-- A field is set after a message is logged. When logging the next one raises, the field is
returned. -/
def loggingParts : GraphParts where
  name := "logging"
  blocks := #[⟨0, [], .special .entry (some 3)⟩, ⟨1, [], .special .exit none⟩,
    ⟨2, [], .special .exceptionalExit none⟩, ⟨3, [0, 1, 2, 3], .regular 4⟩,
    ⟨4, [4], .exceptional (some 1) [("RuntimeException", 5)]⟩, ⟨5, [5, 6, 7], .regular 1⟩]
  nodes := #[⟨0, 3, .this⟩, ⟨1, 3, .call none "log" []⟩,
    ⟨2, 3, .localRead ⟨"known", some "Present", .parameter⟩⟩,
    ⟨3, 3, .assign (.field 0 "link") 2⟩, ⟨4, 4, .call none "log" []⟩, ⟨5, 5, .this⟩,
    ⟨6, 5, .fieldRead 5 "link"⟩, ⟨7, 5, .returnValue (some 6)⟩]
  entry := 0
  exit := 1
  exceptionalExit := 2

theorem loggingParts_forgets : ∃ c g present r V, Checker.ofDeclaration presence = .ok c ∧
    loggingParts.toGraph = .ok g ∧ g.Valid ∧
    g.block? 4 = some ⟨4, [] ++ 4 :: [], .exceptional (some 1) [("RuntimeException", 5)]⟩ ∧
    g.node? 4 = some ⟨4, 4, .call none "log" []⟩ ∧
    c.runsCode (.call none "log" []) = true ∧
    (UnitAnalysis.new c g (.new c.hierarchy)).transferBlock (.replicate 8 none) 4
      (.regular ((Store.new c.hierarchy).insert (.field .this "link") present)) = .ok (r, V) ∧
    r.edges = [(1, r.output),
      (5, .regular ((Store.new c.hierarchy).insert (.field .this "link") present))] ∧
    ∀ key q, key.isHeapDependent = true → r.output.Holds key q →
      ∃ k ∈ [4], ∃ writer m part, g.node? k = some writer ∧
        (UnitAnalysis.new c g (.new c.hierarchy)).Writes writer.kind m part key := by
  have hok : ((Checker.ofDeclaration presence).toOption.bind fun c =>
      loggingParts.toGraph.toOption.bind fun g =>
        (c.hierarchy.lookup? "Present").bind fun present =>
          ((UnitAnalysis.new c g (.new c.hierarchy)).transferBlock (.replicate 8 none) 4
              (.regular ((Store.new c.hierarchy).insert (.field .this "link")
                present))).toOption.bind fun _ =>
            if g.block? 4 = some ⟨4, [4], .exceptional (some 1) [("RuntimeException", 5)]⟩ ∧
                g.node? 4 = some ⟨4, 4, .call none "log" []⟩ ∧
                c.runsCode (.call none "log" []) = true then
              some ()
            else none).isSome = true := by decide +kernel
  obtain ⟨_, h⟩ := Option.isSome_iff_exists.mp hok
  obtain ⟨c, hc, h⟩ := Option.bind_eq_some_iff.mp h
  obtain ⟨g, hg, h⟩ := Option.bind_eq_some_iff.mp h
  obtain ⟨present, -, h⟩ := Option.bind_eq_some_iff.mp h
  obtain ⟨⟨r, V⟩, htransfer, h⟩ := Option.bind_eq_some_iff.mp h
  obtain ⟨⟨hblock, hnode, hcode⟩, -⟩ := Option.ite_none_right_eq_some.mp h
  have hvalid := GraphParts.toGraph_valid (ok_of_toOption hg)
  have htransfer := ok_of_toOption htransfer
  obtain ⟨hedges, hknown, -⟩ := UnitAnalysis.transferBlock_forgets
    (u := .new c g (.new c.hierarchy)) hvalid hblock
    (show ([4] : List NodeId) = [] ++ 4 :: [] from rfl) hnode hcode htransfer
  exact ⟨c, g, present, r, V, ok_of_toOption hc, ok_of_toOption hg, hvalid, hblock, hnode, hcode,
    htransfer, hedges, hknown⟩

/-- Past the first message the field is known to be set, and where the second one raises this is
still taken for known, although each message may have changed the field. -/
theorem loggingParts_keeps_field : ∃ c g a present s r V r' V',
    Checker.ofDeclaration presence = .ok c ∧ loggingParts.toGraph = .ok g ∧
    c.analyzeGraph .standard loggingUnit g = .ok a ∧ a.diagnostics = [] ∧
    c.hierarchy.lookup? "Present" = some present ∧ present ≠ c.hierarchy.top ∧
    c.signatures.method? "log" = none ∧
    g.block? 3 = some ⟨3, [0, 1, 2, 3], .regular 4⟩ ∧
    g.node? 1 = some ⟨1, 3, .call none "log" []⟩ ∧
    g.block? 4 = some ⟨4, [4], .exceptional (some 1) [("RuntimeException", 5)]⟩ ∧
    g.node? 4 = some ⟨4, 4, .call none "log" []⟩ ∧
    (UnitAnalysis.new c g (.new c.hierarchy)).transferBlock a.values 3
      (.regular (.new c.hierarchy)) = .ok (r, V) ∧
    (4, .regular s) ∈ r.edges ∧
    (UnitAnalysis.new c g (.new c.hierarchy)).transferBlock a.values 4 (.regular s) =
      .ok (r', V') ∧
    (5, .regular s) ∈ r'.edges ∧
    s.get? (.field .this "link") = some present := by
  have hok : ((Checker.ofDeclaration presence).toOption.bind fun c =>
      loggingParts.toGraph.toOption.bind fun g =>
        (c.analyzeGraph .standard loggingUnit g).toOption.bind fun a =>
          ((UnitAnalysis.new c g (.new c.hierarchy)).transferBlock a.values 3
              (.regular (.new c.hierarchy))).toOption.bind fun r =>
            match r.1.output with
            | .split _ _ => none
            | .regular s =>
                ((UnitAnalysis.new c g (.new c.hierarchy)).transferBlock a.values 4
                    (.regular s)).toOption.bind fun _ =>
                  (s.get? (.field .this "link")).bind fun present =>
                    if a.diagnostics = [] ∧ c.hierarchy.lookup? "Present" = some present ∧
                        present ≠ c.hierarchy.top ∧
                        (c.signatures.method? "log").isNone = true ∧
                        g.block? 3 = some ⟨3, [0, 1, 2, 3], .regular 4⟩ ∧
                        g.node? 1 = some ⟨1, 3, .call none "log" []⟩ ∧
                        g.block? 4 =
                          some ⟨4, [4], .exceptional (some 1) [("RuntimeException", 5)]⟩ ∧
                        g.node? 4 = some ⟨4, 4, .call none "log" []⟩ then
                      some ()
                    else none).isSome = true := by decide +kernel
  obtain ⟨_, h⟩ := Option.isSome_iff_exists.mp hok
  obtain ⟨c, hc, h⟩ := Option.bind_eq_some_iff.mp h
  obtain ⟨g, hg, h⟩ := Option.bind_eq_some_iff.mp h
  obtain ⟨a, ha, h⟩ := Option.bind_eq_some_iff.mp h
  obtain ⟨⟨r, V⟩, hstored, h⟩ := Option.bind_eq_some_iff.mp h
  dsimp only at h
  split at h
  · cases h
  rename_i s houtput
  obtain ⟨⟨r', V'⟩, hlogged, h⟩ := Option.bind_eq_some_iff.mp h
  obtain ⟨present, hpresent, h⟩ := Option.bind_eq_some_iff.mp h
  obtain ⟨⟨hdiagnostics, hlookup, htop, hmethod, hthree, hone, hfour, hnode⟩, -⟩ :=
    Option.ite_none_right_eq_some.mp h
  have hg := ok_of_toOption hg
  have hstored := ok_of_toOption hstored
  have hlogged := ok_of_toOption hlogged
  have hvalid := GraphParts.toGraph_valid hg
  obtain ⟨hedges, -⟩ := UnitAnalysis.transferBlock_sends
    (u := .new c g (.new c.hierarchy)) hvalid hthree (List.cons_ne_nil 0 [1, 2, 3]) hstored
  obtain ⟨hedges', -⟩ := UnitAnalysis.transferBlock_sends
    (u := .new c g (.new c.hierarchy)) hvalid hfour (List.cons_ne_nil 4 []) hlogged
  refine ⟨c, g, a, present, s, r, V, r', V', ok_of_toOption hc, hg, ok_of_toOption ha,
    hdiagnostics, hlookup, htop, Option.isNone_iff_eq_none.mp hmethod, hthree, hone, hfour, hnode,
    hstored, ?_, hlogged, ?_, hpresent⟩
  · rw [hedges, houtput]
    exact List.mem_cons_self
  · rw [hedges']
    exact List.mem_cons_of_mem _ List.mem_cons_self

end FlowTyping
