import FlowTyping.Proofs.Flow.Passes
import FlowTyping.Proofs.Drafting.Checks

/-!
A search with a stack of its own. It keeps, for every open vertex, the number of successors that
it has looked at, and it comes to the order in which the recursive walk finishes.
-/

namespace FlowTyping

namespace Digraph

open Relation

variable {next : Nat → List Nat} {size fuel v : Nat}

/-- How far a search has come: the open vertices with the next successor of each, the vertices
that have been visited, and those that are done, the last one first. -/
structure Search where
  stack : List (Nat × Nat)
  visited : List Nat
  finished : List Nat
  deriving DecidableEq, Repr

namespace Search

def start (root : Nat) : Search := ⟨[(root, 0)], [root], []⟩

/-- Looks at the next successor of the vertex on top of the stack. The vertex is done when there
is none, and a successor that has not been visited is put on the stack. -/
def step (next : Nat → List Nat) (s : Search) : Option Search :=
  match s.stack with
  | [] => none
  | (v, i) :: stack =>
      match (next v)[i]? with
      | none => some { s with stack, finished := v :: s.finished }
      | some u =>
          if u ∈ s.visited then some { s with stack := (v, i + 1) :: stack }
          else some { s with stack := (u, 0) :: (v, i + 1) :: stack, visited := u :: s.visited }

def Steps (next : Nat → List Nat) : Search → Search → Prop :=
  ReflTransGen fun s s' => s.step next = some s'

variable {stack : List (Nat × Nat)} {visited finished : List Nat} {i u : Nat}

theorem step_none (h : (next v)[i]? = none) :
    step next ⟨(v, i) :: stack, visited, finished⟩ = some ⟨stack, visited, v :: finished⟩ := by
  simp only [step, h]

theorem step_visited (h : (next v)[i]? = some u) (hu : u ∈ visited) :
    step next ⟨(v, i) :: stack, visited, finished⟩ =
      some ⟨(v, i + 1) :: stack, visited, finished⟩ := by
  simp only [step, h]
  rw [if_pos hu]

theorem step_unvisited (h : (next v)[i]? = some u) (hu : u ∉ visited) :
    step next ⟨(v, i) :: stack, visited, finished⟩ =
      some ⟨(u, 0) :: (v, i + 1) :: stack, u :: visited, finished⟩ := by
  simp only [step, h]
  rw [if_neg hu]

end Search

/-- The search whose open vertices are on the stack, and which has visited and done what a walk
has. -/
def Walk.search (w : Walk) (stack : List (Nat × Nat)) : Search := ⟨stack, w.seen, w.finished⟩

variable {w : Walk} {stack : List (Nat × Nat)}

/-- Looking at one successor. -/
theorem search_descend {i u : Nat} (hnext : (next v)[i]? = some u)
    (hvisit : u ∉ w.seen → Search.Steps next
      ({ w with seen := u :: w.seen }.search ((u, 0) :: (v, i + 1) :: stack))
      ((visit next fuel w u).search ((v, i + 1) :: stack))) (hw : w.finished ⊆ w.seen) :
    Search.Steps next (w.search ((v, i) :: stack))
      ((descend next fuel v w u).search ((v, i + 1) :: stack)) := by
  by_cases hseen : u ∈ w.seen
  · have hdescend : (descend next fuel v w u).search ((v, i + 1) :: stack) =
        w.search ((v, i + 1) :: stack) := by
      by_cases hdone : u ∈ w.finished
      · rw [descend, if_pos hdone]
      · rw [descend, if_neg hdone, if_pos hseen]
        rfl
    rw [hdescend]
    exact .single (Search.step_visited hnext hseen)
  · have hdescend : descend next fuel v w u = visit next fuel w u := by
      rw [descend, if_neg fun h => hseen (hw h), if_neg hseen]
    rw [hdescend]
    exact .head (Search.step_unvisited hnext hseen) (hvisit hseen)

/-- From a vertex that is opened the search goes on as the walk does, and leaves the stack below
as it is. -/
theorem search_visit (hnext : ∀ v < size, ∀ u ∈ next v, u < size) (hw : w.Fits size)
    (hfuel : size < fuel + w.seen.length) (hv : v < size) (hnew : v ∉ w.seen) :
    Search.Steps next ({ w with seen := v :: w.seen }.search ((v, 0) :: stack))
      ((visit next fuel w v).search stack) := by
  induction fuel generalizing w v stack with
  | zero =>
      have := hw.length_le
      omega
  | succ fuel ih =>
      have hrest (before rest : List Nat) (hsplit : next v = before ++ rest) (w : Walk)
          (hw : w.Fits size) (hfuel : size < fuel + w.seen.length) :
          Search.Steps next (w.search ((v, before.length) :: stack))
            ((rest.foldl (descend next fuel v) w).search ((v, (next v).length) :: stack)) := by
        induction rest generalizing before w with
        | nil =>
            rw [hsplit, List.append_nil]
            exact .refl
        | cons u rest ihrest =>
            have hu : u < size := hnext v hv u (by simp [hsplit])
            have hat : (next v)[before.length]? = some u := by simp [hsplit]
            have hlook : Search.Steps next (w.search ((v, before.length) :: stack))
                ((descend next fuel v w u).search ((v, before.length + 1) :: stack)) :=
              search_descend hat (fun hunseen => ih hw hfuel hu hunseen) hw.finished
            have hexhausts := descend_exhausts (v := v) hw (visit_exhausts hnext hw hfuel hu)
            have hlength := hexhausts.length
            have hlater := ihrest (before ++ [u]) (by simp [hsplit]) _ hexhausts.fits (by omega)
            rw [List.length_append, List.length_singleton] at hlater
            exact ReflTransGen.trans hlook hlater
      have hopenFuel : size < fuel + (v :: w.seen).length := by
        simp only [List.length_cons]
        omega
      have hall := hrest [] (next v) rfl _ (hw.push hv hnew) hopenFuel
      rw [visit_succ fuel w v hnew]
      exact ReflTransGen.tail hall (Search.step_none (List.getElem?_eq_none (Nat.le_refl _)))

/-- The search from a vertex ends with an empty stack and the order of the walk. -/
theorem search_walk (hnext : ∀ v < size, ∀ u ∈ next v, u < size) (hv : v < size) :
    Search.Steps next (.start v) ((walk next size [v]).search []) :=
  search_visit hnext (Walk.start_fits size) (Nat.lt_succ_self _ : size < size + 1 + 0) hv
    List.not_mem_nil

/-- The root is the last vertex that a walk finishes. -/
theorem walk_head (next : Nat → List Nat) (size v : Nat) :
    (walk next size [v]).finished.head? = some v := by
  have hwalk : walk next size [v] = visit next (size + 1) .start v := rfl
  rw [hwalk, visit_succ size .start v List.not_mem_nil]
  rfl

end Digraph

namespace FlowGraph

open Relation

/-- What is told about a graph when it is accepted: a search of its own finds the order of its
blocks, which are those that can be reached; the others and the predecessors are listed. -/
structure Surveyed (g : FlowGraph) : Prop where
  searched : ∃ visited, Digraph.Search.Steps g.successors (.start g.entry)
    ⟨[], visited, g.reversePostorder⟩
  reached : ∀ b, b ∈ g.reversePostorder ↔ g.Reaches b
  nodup : g.reversePostorder.Nodup
  entry : g.reversePostorder.head? = some g.entry
  edges : ∀ u v, g.Reaches u → v ∈ g.successors u →
    g.reversePostorder.idxOf u < g.reversePostorder.idxOf v ∨
      ReflTransGen (Digraph.Edge g.successors) v u
  unreached : ∀ b, b ∈ g.unreachable ↔ b < g.size ∧ ¬ g.Reaches b
  sorted : g.unreachable.Pairwise (· < ·)
  predecessors : ∀ u v, u ∈ g.predecessorsOf v ↔ v ∈ g.successors u
  predecessorsOnce : ∀ v, (g.predecessorsOf v).Nodup

/-- Reverse postorder lists the blocks that can be reached, each once and the entry first, and an
edge against it closes a cycle; the blocks that cannot be reached are listed by their ids, and
the predecessors of a block are the sources of its edges. -/
theorem Accepted.surveyed {g : FlowGraph} (hg : g.Accepted) : g.Surveyed := by
  have hvalid := hg.valid
  have hnext : ∀ v < g.size, ∀ u ∈ g.successors v, u < g.size :=
    fun _ _ _ hu => hvalid.lt_of_mem_successors hu
  refine {
    searched := ⟨_, Digraph.search_walk hnext hvalid.entry⟩
    reached := fun b => hvalid.mem_reversePostorder
    nodup := hvalid.nodup_reversePostorder
    entry := Digraph.walk_head g.successors g.size g.entry
    edges := fun u v hu hedge => ?_
    unreached := fun b => hvalid.unreachable
    sorted := hg.unreachable_sorted
    predecessors := fun u v => ?_
    predecessorsOnce := fun v => ?_ }
  · rcases Nat.lt_or_ge (g.rank u) (g.rank v) with hlt | hle
    · rw [rank_eq (hvalid.lt_of_reach hu), rank_eq (hvalid.lt_of_mem_successors hedge)] at hlt
      exact .inl hlt
    · exact .inr (ReflTransGen.mono (fun _ _ h => h.1) _ _ (hvalid.ascends_back hu hedge hle))
  · rw [hvalid.predecessors]
    exact and_iff_right_of_imp hvalid.lt_of_mem_successors
  · obtain ⟨p, hp⟩ := hg.toGraph
    have hid : ∀ {i : Nat} {b : Block}, p.blocks[i]? = some b → b.id = i := by
      rw [← GraphParts.toGraph_parts hp]
      exact fun hb => (hvalid.block hb).1
    have htable : g.predecessors = p.predecessorTable := by rw [GraphParts.toGraph_eq hp]
    rw [predecessorsOf, htable]
    exact GraphParts.predecessorTable_nodup hid v

end FlowGraph

/-- A call that is tried again when it fails, by an edge to itself too, and a block that nothing
leads to. -/
def retryingParts : GraphParts where
  name := "retrying"
  blocks := #[⟨0, [], .special .entry (some 3)⟩, ⟨1, [], .special .exit none⟩,
    ⟨2, [], .special .exceptionalExit none⟩, ⟨3, [], .regular 4⟩,
    ⟨4, [0], .exceptional (some 1) [("Busy", 3), ("Lost", 3), ("Late", 4)]⟩, ⟨5, [], .regular 4⟩]
  nodes := #[⟨0, 4, .call none "fetch" []⟩]
  entry := 0
  exit := 1
  exceptionalExit := 2

theorem retryingParts_surveyed : ∃ g, retryingParts.toGraph = .ok g ∧ g.Surveyed ∧
    g.reversePostorder = [0, 3, 4, 1] ∧ g.unreachable = [2, 5] ∧
    g.predecessorsOf 4 = [3, 4, 5] := by
  have hok : (retryingParts.toGraph.toOption.bind fun g =>
      if g.reversePostorder = [0, 3, 4, 1] ∧ g.unreachable = [2, 5] ∧
        g.predecessorsOf 4 = [3, 4, 5] then some g else none).isSome = true := by decide +kernel
  obtain ⟨g', h⟩ := Option.isSome_iff_exists.mp hok
  obtain ⟨g, hg, h⟩ := Option.bind_eq_some_iff.mp h
  have hlists := (Option.ite_none_right_eq_some.mp h).1
  have hg := ok_of_toOption hg
  exact ⟨g, hg, FlowGraph.Accepted.surveyed (.parts hg), hlists⟩

end FlowTyping
