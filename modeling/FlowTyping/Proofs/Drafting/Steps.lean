import FlowTyping.Proofs.Drafting.Marks

/-!
The steps of a construction. Whatever is lowered, its blocks are made, filled, connected
and left by a few kinds of steps, and every state that such steps lead to is in shape.
-/

namespace FlowTyping

/-- A node of this kind is in a block of its own. -/
def NodeKind.isRaising : NodeKind → Bool
  | call _ _ _ | new _ _ | throw _ _ | assertFailure => true
  | _ => false

/-- A node may raise some categories. A terminal one never completes. -/
inductive NodeKind.Raises : NodeKind → List String → Bool → Prop
  | call (receiver : Option NodeId) (method : String) (args : List NodeId)
      (throws : List String) :
      Raises (.call receiver method args) (runtimeException :: throws) false
  | new (className : String) (args : List NodeId) :
      Raises (.new className args) [runtimeException] false
  | throw (exception : String) (value : Option NodeId) :
      Raises (.throw exception value) [exception] true
  | assertFailure : Raises .assertFailure [assertionError] true

theorem NodeKind.Raises.nonempty {kind : NodeKind} {categories : List String} {terminal : Bool}
    (h : kind.Raises categories terminal) : Digraph.distinct categories ≠ [] := by
  cases h <;> simp [Digraph.distinct]

namespace Building

/-- One step of a construction, with the marks that it gives. -/
inductive Step : Building → Marks → Building → Marks → Prop
  | fresh {b : Building} {G : Marks} (m : Mark) (hrole : m.role = .code) (hplace : m.place < ⊤) :
      Step b G { b with drafts := b.drafts.push ⟨[], .openEnd⟩ } (G.mark m)
  | loop {b : Building} {G : Marks} (m n : Mark) (hm : m.role = .head) (hn : n.role = .code)
      (hplace : n.place < ⊤) (hlt : m.place < n.place) (hloops : ∀ h ∈ n.loops, h ∈ m.loops) :
      Step b G { b with
        drafts := (b.drafts.push ⟨[], .special .loopHead (some (b.drafts.size + 1))⟩).push
          ⟨[], .openEnd⟩ } ((G.mark m).mark n)
  | turn {b : Building} {G : Marks} (current : Option BlockId)
      (h : ∀ c : Nat, current = some c → ∃ d : Draft, b.drafts[c]? = some d ∧ d.exits.Pending) :
      Step b G { b with current := current } G
  | close {b : Building} {G : Marks} {c t : Nat} (hcur : b.current = some c)
      (ht : G.Leads c t) :
      Step b G { b with
        current := none
        drafts := b.drafts.modify c fun d => { d with exits := d.exits.link t } } G
  | emit {b : Building} {G : Marks} {c : Nat} {d : Draft} (kind : NodeKind)
      (hcur : b.current = some c) (hd : b.drafts[c]? = some d) (hopen : d.exits = .openEnd)
      (hkind : kind.isRaising = false) :
      Step b G { b with
        nodes := b.nodes.push ⟨b.nodes.size, c, kind⟩
        drafts := b.drafts.modify c fun d =>
          { d with nodes := d.nodes ++ [b.nodes.size] } } G
  | raise {b : Building} {G : Marks} {c : Nat} {kind : NodeKind} {categories : List String}
      {terminal : Bool} (handlers : List (String × BlockId)) (hcur : b.current = some c)
      (hd : b.drafts[c]? = some ⟨[], .openEnd⟩) (hkind : kind.Raises categories terminal)
      (hcategories : handlers.map Prod.fst = Digraph.distinct categories)
      (htargets : ∀ h ∈ handlers, G.Leads c h.2) :
      Step b G { b with
        nodes := b.nodes.push ⟨b.nodes.size, c, kind⟩
        drafts := b.drafts.modify c fun d =>
          ⟨d.nodes ++ [b.nodes.size], .raise none handlers terminal⟩
        current := if terminal then none else some c } G
  | branch {b : Building} {G : Marks} {c t e : Nat} {d : Draft} {id : NodeId} (m : Mark)
      (hcur : b.current = some c) (hd : b.drafts[c]? = some d) (hlast : d.nodes.getLast? = some id)
      (hrole : m.role = .test c) (hplace : m.place < ⊤)
      (hsource : (G.mark m).Leads c b.drafts.size)
      (ht : (G.mark m).Leads b.drafts.size t) (he : (G.mark m).Leads b.drafts.size e) :
      Step b G { b with
        current := none
        drafts := (b.drafts.push ⟨[], .branch id t e⟩).modify c fun d =>
          { d with exits := d.exits.link b.drafts.size } } (G.mark m)
  | names {b : Building} {G : Marks} (σ : Scopes) : Step b G { b with scopes := σ } G
  | final {b : Building} {G : Marks} (f : Detour) :
      Step b G { b with nextFinal := b.nextFinal + 1 } (G.register f)
  | remember {b : Building} {G : Marks} {id : Nat} {rest : List Nat} {target first : Nat}
      {f : Detour} {n : Mark} (hf : G.finals[id]? = some f) (hn : G.blocks[first]? = some n)
      (hrole : n.role = .code) (hplace : f.start ≤ n.place) (hloops : n.loops = f.loops) :
      Step b G { b with finalPaths := ((id :: rest, target), first) :: b.finalPaths } G

/-- The state in which the body of a unit begins: the entry leads to its first block. -/
def opened (params : List Parameter) : Building :=
  let special := fun kind => (⟨[], .special kind none⟩ : Draft)
  { Build.start params with
    drafts := #[⟨[], .special .entry (some 3)⟩, special .exit, special .exceptionalExit,
      ⟨[], .openEnd⟩]
    current := some 3 }

end Building

/-- The marks of the designated blocks and of the first one: the exits come last. -/
def Marks.initial : Marks where
  blocks := [⟨0, [], .entry⟩, ⟨⊤, [], .code⟩, ⟨⊤, [], .code⟩, ⟨1, [], .code⟩]
  finals := []

/-- The steps of a construction lead to a state. -/
inductive Building.Drafted : Building → Marks → Prop
  | opened (params : List Parameter) : Drafted (opened params) .initial
  | step {b b' : Building} {G G' : Marks} (before : Drafted b G) (h : Step b G b' G') :
      Drafted b' G'

namespace Building

variable {S : List Nat} {b b' : Building} {G G' : Marks} {i t : Nat} {d d' : Draft}

theorem Step.extends (h : Step b G b' G') : G.Extends G' := by
  cases h with
  | fresh m => exact .mark G m
  | loop m n => exact (Marks.Extends.mark G m).trans (.mark _ n)
  | branch m => exact .mark G m
  | final f => exact .register G f
  | _ => exact .refl G

/-- A step changes the current block and makes new ones. -/
theorem Step.grows (h : Step b G b' G')
    (hcur : ∀ c : Nat, b'.current = some c →
      b.current = some c ∨ c ∈ S ∨ b.drafts.size ≤ c) : b.Grows S b' := by
  cases h with
  | fresh m => exact .push .openEnd
  | loop m n => exact (Grows.push _).trans (.push _)
  | turn current => exact .setCurrent hcur
  | @close c t hc =>
      refine Grows.trans (.modify (f := fun d => { d with exits := d.exits.link t }) (.inl hc)
        fun d _ => .link d t) (.setCurrent ?_)
      simp
  | @emit c d kind hc hd hopen =>
      refine (Grows.pushNode _).trans (.modify (.inl hc) fun d' hd' => ?_)
      obtain rfl : d = d' := Option.some.inj (hd.symm.trans hd')
      simp [Draft.GrowsTo, hopen]
  | @raise c kind categories terminal handlers hc hd =>
      refine ((Grows.pushNode ⟨b.nodes.size, c, kind⟩).trans (.modify (i := c)
        (f := fun d => ⟨d.nodes ++ [b.nodes.size], .raise none handlers terminal⟩) (.inl hc)
        fun d hd' => ?_)).trans (.setCurrent fun i hi => .inl ?_)
      · obtain rfl : ⟨[], .openEnd⟩ = d := Option.some.inj (hd.symm.trans hd')
        simp [Draft.GrowsTo]
      · cases terminal with
        | true => cases hi
        | false => exact hc.trans hi
  | @branch c t e d id m hc =>
      refine Grows.trans (.push (.branch id t e)) (Grows.trans (.modify (i := c)
        (f := fun d => { d with exits := d.exits.link b.drafts.size }) (.inl hc)
        fun d _ => .link d b.drafts.size) (.setCurrent ?_))
      simp
  | _ => exact (Grows.refl S b).restore rfl rfl rfl

theorem Step.draft (h : Step b G b' G') (i : Nat) (d : Draft) (hd : b.drafts[i]? = some d) :
    ∃ d' : Draft, b'.drafts[i]? = some d' ∧ d.GrowsTo d' := by
  have hgrows : b.Grows b'.current.toList b' := h.grows fun c hc => .inr (.inl (by simp [hc]))
  exact hgrows.draft i d hd

end Building

/-- A block that leads somewhere takes no more nodes, and goes on leading there. -/
theorem Draft.GrowsTo.settled {d d' : Draft} {t : BlockId} (h : d.GrowsTo d')
    (ht : t ∈ d.exits.targets) : d'.nodes = d.nodes ∧ t ∈ d'.exits.targets := by
  obtain ⟨nodes, exits⟩ := d
  obtain ⟨nodes', exits'⟩ := d'
  unfold GrowsTo at h
  split at h
  · simp_all [Exits.targets]
  · obtain ⟨hnodes, s, hs⟩ := h
    simp_all [Exits.targets]
  · simp_all [Exits.targets]
  · cases h
    exact ⟨rfl, ht⟩

/-- A draft is as the role of its block demands. -/
def Draft.Formed (b : Building) (i : BlockId) (r : Role) (d : Draft) : Prop :=
  match d.exits with
  | .openEnd | .goto _ => r = .code
  | .branch id _ _ => d.nodes = [] ∧ ∃ p d', r = .test p ∧ b.drafts[p]? = some d' ∧
      d'.nodes.getLast? = some id ∧ i ∈ d'.exits.targets
  | .raise successor handlers terminal => r = .code ∧ (∃ id, d.nodes = [id]) ∧
      (terminal = true → successor = none ∧ handlers ≠ [])
  | .special kind successor => d.nodes = [] ∧
      match kind with
      | .entry => r = .entry ∧ successor.isSome
      | .loopHead => r = .head ∧ successor.isSome
      | .exit | .exceptionalExit => r = .code ∧ successor = none

namespace Building

/-- A remembered path begins where the copies of its first final body stand. -/
def Remembers (G : Marks) (path : (List Nat × BlockId) × BlockId) : Prop :=
  ∃ id rest f n, path.1.1 = id :: rest ∧ G.finals[id]? = some f ∧ G.blocks[path.2]? = some n ∧
    n.role = .code ∧ f.start ≤ n.place ∧ n.loops = f.loops

/-- The state of a construction is in shape: every draft is as its role demands and leads
where its mark allows, and every node is listed. -/
structure Shaped (b : Building) (G : Marks) : Prop where
  initial : Marks.initial.Extends G
  blocks : G.blocks.length = b.drafts.size
  finals : G.finals.length = b.nextFinal
  places : ∀ (i : Nat) (m : Mark), G.blocks[i]? = some m → 3 ≤ i → m.place < ⊤
  current : ∀ c : Nat, b.current = some c → ∃ d : Draft, b.drafts[c]? = some d ∧ d.exits.Pending
  formed : ∀ (i : Nat) (d : Draft), b.drafts[i]? = some d →
    ∃ m, G.blocks[i]? = some m ∧ d.Formed b i m.role
  leads : ∀ (i : Nat) (d : Draft), b.drafts[i]? = some d → ∀ t ∈ d.exits.targets, G.Leads i t
  listed : ∀ id < b.nodes.size, ∃ (i : Nat) (d : Draft), b.drafts[i]? = some d ∧ id ∈ d.nodes
  paths : ∀ path ∈ b.finalPaths, Remembers G path

end Building

theorem Exits.Pending.mem_targets_link {exits : Exits} (h : exits.Pending) (t : BlockId) :
    t ∈ (exits.link t).targets := by
  rcases h.eq_or with rfl | ⟨handlers, rfl⟩ <;> simp [Exits.link, Exits.targets]

section

variable {b b' : Building} {G G' : Marks} {i t : Nat} {d : Draft} {r : Role}

/-- What the role of a block demands goes on to hold while other drafts grow. -/
theorem Draft.Formed.follow (h : d.Formed b i r)
    (hdrafts : ∀ (i : Nat) (d : Draft), b.drafts[i]? = some d →
      ∃ d' : Draft, b'.drafts[i]? = some d' ∧ d.GrowsTo d') : d.Formed b' i r := by
  obtain ⟨nodes, exits⟩ := d
  cases exits with
  | branch id t e =>
      obtain ⟨hnodes, p, d', hr, hd', hlast, htarget⟩ := h
      obtain ⟨d'', hd'', hgrows⟩ := hdrafts p d' hd'
      obtain ⟨hsame, htarget'⟩ := hgrows.settled htarget
      exact ⟨hnodes, p, d'', hr, hd'', by rw [hsame, hlast], htarget'⟩
  | _ => exact h

/-- A draft that is connected is still as its role demands. -/
theorem Draft.Formed.link (h : d.Formed b i r) (hd : d.exits.Pending) :
    Draft.Formed b' i r { d with exits := d.exits.link t } := by
  obtain ⟨nodes, exits⟩ := d
  rcases hd.eq_or with hopen | ⟨handlers, hraise⟩
  · cases hopen
    exact h
  · cases hraise
    exact ⟨h.1, h.2.1, nofun⟩

namespace Marks

theorem length_mark (G : Marks) (m : Mark) : (G.mark m).blocks.length = G.blocks.length + 1 := by
  simp [mark]

theorem mark_cases {m n : Mark} (h : (G.mark m).blocks[i]? = some n) :
    G.blocks[i]? = some n ∨ i = G.blocks.length ∧ n = m := by
  rcases Nat.lt_trichotomy i G.blocks.length with hi | rfl | hi
  · left
    rwa [mark, List.getElem?_append_left hi] at h
  · right
    rw [mark_new] at h
    exact ⟨rfl, (Option.some.inj h).symm⟩
  · rw [mark, List.getElem?_eq_none (by simp; omega)] at h
    cases h

end Marks

namespace Building

theorem Shaped.lt_current (h : b.Shaped G) {c : Nat} (hc : b.current = some c) :
    c < b.drafts.size := by
  obtain ⟨d, hd, -⟩ := h.current c hc
  exact (Array.getElem?_eq_some_iff.mp hd).1

/-- A step leaves most of the state in shape. What is left to show is about the drafts that
it makes or changes. -/
theorem Shaped.follow (h : b.Shaped G) (hstep : Step b G b' G')
    (blocks : G'.blocks.length = b'.drafts.size) (finals : G'.finals.length = b'.nextFinal)
    (places : ∀ (i : Nat) (m : Mark), G'.blocks[i]? = some m →
      G.blocks[i]? = some m ∨ m.place < ⊤)
    (current : ∀ c : Nat, b'.current = some c →
      ∃ d : Draft, b'.drafts[c]? = some d ∧ d.exits.Pending)
    (drafts : ∀ (i : Nat) (d : Draft), b'.drafts[i]? = some d → b.drafts[i]? = some d ∨
      (∃ m, G'.blocks[i]? = some m ∧ d.Formed b' i m.role) ∧
        ∀ t ∈ d.exits.targets, G'.Leads i t)
    (nodes : ∀ id < b'.nodes.size, id < b.nodes.size ∨
      ∃ (i : Nat) (d : Draft), b'.drafts[i]? = some d ∧ id ∈ d.nodes)
    (paths : ∀ path ∈ b'.finalPaths, path ∈ b.finalPaths ∨ Remembers G' path) :
    b'.Shaped G' where
  initial := h.initial.trans hstep.extends
  blocks := blocks
  finals := finals
  places i m hm hi := by
    rcases places i m hm with hold | hnew
    · exact h.places i m hold hi
    · exact hnew
  current := current
  formed i d hd := by
    rcases drafts i d hd with hold | ⟨hnew, -⟩
    · obtain ⟨m, hm, hformed⟩ := h.formed i d hold
      exact ⟨m, hstep.extends.block hm, hformed.follow hstep.draft⟩
    · exact hnew
  leads i d hd t ht := by
    rcases drafts i d hd with hold | ⟨-, hnew⟩
    · exact hstep.extends.leads (h.leads i d hold t ht)
    · exact hnew t ht
  listed id hid := by
    rcases nodes id hid with hold | hnew
    · obtain ⟨i, d, hd, hmem⟩ := h.listed id hold
      obtain ⟨d', hd', hg⟩ := hstep.draft i d hd
      exact ⟨i, d', hd', hg.nodes.subset hmem⟩
    · exact hnew
  paths path hpath := by
    rcases paths path hpath with hold | hnew
    · obtain ⟨id, rest, f, n, hids, hf, hn, hrest⟩ := h.paths path hold
      exact ⟨id, rest, f, n, hids, hstep.extends.final hf, hstep.extends.block hn, hrest⟩
    · exact hnew

theorem getElem?_push_cases {α : Type} {drafts : Array α} {a a' : α}
    (ha : (drafts.push a)[i]? = some a') :
    drafts[i]? = some a' ∨ i = drafts.size ∧ a' = a := by
  rw [Array.getElem?_push] at ha
  split at ha
  · exact .inr ⟨by assumption, (Option.some.inj ha).symm⟩
  · exact .inl ha

theorem getElem?_push_of_some {α : Type} {drafts : Array α} {a a' : α}
    (ha : drafts[i]? = some a) : (drafts.push a')[i]? = some a := by
  have hlt := (Array.getElem?_eq_some_iff.mp ha).1
  rw [Array.getElem?_push, if_neg (Nat.ne_of_lt hlt), ha]

theorem lt_push_cases {α : Type} {nodes : Array α} {a : α} (hi : i < (nodes.push a).size) :
    i < nodes.size ∨ i = nodes.size := by
  rw [Array.size_push] at hi
  omega

theorem getElem?_modify_cases {α : Type} {drafts : Array α} {f : α → α} {c : Nat} {a a' : α}
    (ha : drafts[c]? = some a) (ha' : (drafts.modify c f)[i]? = some a') :
    drafts[i]? = some a' ∨ i = c ∧ a' = f a := by
  rw [Array.getElem?_modify] at ha'
  split at ha'
  · rename_i heq
    subst heq
    rw [ha] at ha'
    exact .inr ⟨rfl, (Option.some.inj ha').symm⟩
  · exact .inl ha'

theorem getElem?_modify_of_some {α : Type} {drafts : Array α} {f : α → α} {a : α}
    (ha : drafts[i]? = some a) : (drafts.modify i f)[i]? = some (f a) := by
  simp [Array.getElem?_modify, ha]

section

variable {m n : Mark} {c e : Nat} {id : NodeId} {kind : NodeKind}

theorem Shaped.fresh (h : b.Shaped G) (hrole : m.role = .code) (hplace : m.place < ⊤) :
    Shaped { b with drafts := b.drafts.push ⟨[], .openEnd⟩ } (G.mark m) := by
  have hfollow := h.follow (.fresh m hrole hplace)
  refine hfollow (by simp [Marks.mark, h.blocks]) h.finals (fun i n hn => ?_) (fun c hc => ?_)
    (fun i d hd => ?_) (fun _ hid => .inl hid) fun _ hpath => .inl hpath
  · refine (Marks.mark_cases hn).imp_right ?_
    rintro ⟨-, rfl⟩
    exact hplace
  · obtain ⟨d, hd, hpending⟩ := h.current c hc
    exact ⟨d, getElem?_push_of_some hd, hpending⟩
  · refine (getElem?_push_cases hd).imp_right ?_
    rintro ⟨rfl, rfl⟩
    exact ⟨⟨m, h.blocks ▸ G.mark_new m, hrole⟩, List.forall_mem_nil _⟩

theorem Shaped.loop (h : b.Shaped G) (hm : m.role = .head) (hn : n.role = .code)
    (hplace : n.place < ⊤) (hlt : m.place < n.place) (hloops : ∀ h ∈ n.loops, h ∈ m.loops) :
    Shaped { b with
      drafts := (b.drafts.push ⟨[], .special .loopHead (some (b.drafts.size + 1))⟩).push
        ⟨[], .openEnd⟩ } ((G.mark m).mark n) := by
  have hfollow := h.follow (.loop m n hm hn hplace hlt hloops)
  have hhead : ((G.mark m).mark n).blocks[b.drafts.size]? = some m := by
    rw [← h.blocks]
    exact (Marks.Extends.mark _ n).block (G.mark_new m)
  have hfirst : ((G.mark m).mark n).blocks[b.drafts.size + 1]? = some n := by
    have := (G.mark m).mark_new n
    rwa [Marks.length_mark, h.blocks] at this
  refine hfollow (by simp [Marks.mark, h.blocks]) h.finals (fun i n' hn' => ?_)
    (fun c hc => ?_) (fun i d hd => ?_) (fun _ hid => .inl hid) fun _ hpath => .inl hpath
  · rcases Marks.mark_cases hn' with hn' | ⟨-, rfl⟩
    · refine (Marks.mark_cases hn').imp_right ?_
      rintro ⟨-, rfl⟩
      exact hlt.trans hplace
    · exact .inr hplace
  · obtain ⟨d, hd, hpending⟩ := h.current c hc
    exact ⟨d, getElem?_push_of_some (getElem?_push_of_some hd), hpending⟩
  · rcases getElem?_push_cases hd with hd | ⟨rfl, rfl⟩
    · refine (getElem?_push_cases hd).imp_right ?_
      rintro ⟨rfl, rfl⟩
      refine ⟨⟨m, hhead, rfl, hm, rfl⟩, fun t ht => ?_⟩
      rw [List.mem_singleton.mp ht]
      exact ⟨m, n, hhead, hfirst, by rw [hn]; trivial, .inl hlt,
        fun l hl => .inr (hloops l hl)⟩
    · exact .inr ⟨⟨n, by simpa using hfirst, hn⟩, List.forall_mem_nil _⟩

theorem Shaped.close (h : b.Shaped G) (hc : b.current = some c) (ht : G.Leads c t) :
    Shaped { b with
      current := none
      drafts := b.drafts.modify c fun d => { d with exits := d.exits.link t } } G := by
  have hfollow := h.follow (.close hc ht)
  obtain ⟨d, hd, hpending⟩ := h.current c hc
  obtain ⟨m, hm, hformed⟩ := h.formed c d hd
  refine hfollow (by simp [h.blocks]) h.finals (fun _ _ hm => .inl hm) (by simp)
    (fun i d' hd' => ?_) (fun _ hid => .inl hid) fun _ hpath => .inl hpath
  refine (getElem?_modify_cases hd hd').imp_right ?_
  rintro ⟨rfl, rfl⟩
  refine ⟨⟨m, hm, hformed.link hpending⟩, fun t' ht' => ?_⟩
  rcases Exits.mem_targets_link ht' with hold | rfl
  · exact h.leads _ d hd t' hold
  · exact ht

theorem Shaped.emit (h : b.Shaped G) (hc : b.current = some c) (hd : b.drafts[c]? = some d)
    (hopen : d.exits = .openEnd) (hkind : kind.isRaising = false) :
    Shaped { b with
      nodes := b.nodes.push ⟨b.nodes.size, c, kind⟩
      drafts := b.drafts.modify c fun d => { d with nodes := d.nodes ++ [b.nodes.size] } } G := by
  have hfollow := h.follow (.emit kind hc hd hopen hkind)
  obtain ⟨m, hm, hformed⟩ := h.formed c d hd
  refine hfollow (by simp [h.blocks]) h.finals (fun _ _ hm => .inl hm) (fun c' hc' => ?_)
    (fun i d' hd' => ?_) (fun id hid => ?_) fun _ hpath => .inl hpath
  · obtain rfl : c = c' := Option.some.inj (hc.symm.trans hc')
    exact ⟨_, getElem?_modify_of_some hd, by simp only [hopen]; trivial⟩
  · refine (getElem?_modify_cases hd hd').imp_right ?_
    rintro ⟨rfl, rfl⟩
    refine ⟨⟨m, hm, ?_⟩, h.leads _ d hd⟩
    simpa [Draft.Formed, hopen] using hformed
  · refine (lt_push_cases hid).imp_right ?_
    rintro rfl
    exact ⟨c, _, getElem?_modify_of_some hd, by simp⟩

theorem Shaped.raise {categories : List String} {terminal : Bool}
    {handlers : List (String × BlockId)} (h : b.Shaped G) (hc : b.current = some c)
    (hd : b.drafts[c]? = some ⟨[], .openEnd⟩) (hkind : kind.Raises categories terminal)
    (hcategories : handlers.map Prod.fst = Digraph.distinct categories)
    (htargets : ∀ h ∈ handlers, G.Leads c h.2) :
    Shaped { b with
      nodes := b.nodes.push ⟨b.nodes.size, c, kind⟩
      drafts := b.drafts.modify c fun d =>
        ⟨d.nodes ++ [b.nodes.size], .raise none handlers terminal⟩
      current := if terminal then none else some c } G := by
  have hfollow := h.follow (.raise handlers hc hd hkind hcategories htargets)
  obtain ⟨m, hm, hrole⟩ := h.formed c _ hd
  have hd' := getElem?_modify_of_some (f := fun d : Draft =>
    ⟨d.nodes ++ [b.nodes.size], .raise none handlers terminal⟩) hd
  refine hfollow (by simp [h.blocks]) h.finals (fun _ _ hm => .inl hm) (fun c' hc' => ?_)
    (fun i d hi => ?_) (fun id hid => ?_) fun _ hpath => .inl hpath
  · cases terminal with
    | true => cases hc'
    | false =>
        cases hc'
        exact ⟨_, hd', trivial⟩
  · refine (getElem?_modify_cases hd hi).imp_right ?_
    rintro ⟨rfl, rfl⟩
    refine ⟨⟨m, hm, hrole, ⟨_, rfl⟩, fun _ => ⟨rfl, ?_⟩⟩, fun t ht => ?_⟩
    · rintro rfl
      exact hkind.nonempty hcategories.symm
    · obtain ⟨handler, hmem, rfl⟩ := List.mem_map.mp ht
      exact htargets handler hmem
  · refine (lt_push_cases hid).imp_right ?_
    rintro rfl
    exact ⟨c, _, hd', by simp⟩

theorem Shaped.branch (h : b.Shaped G) (hc : b.current = some c) (hd : b.drafts[c]? = some d)
    (hlast : d.nodes.getLast? = some id) (hrole : m.role = .test c) (hplace : m.place < ⊤)
    (hsource : (G.mark m).Leads c b.drafts.size) (ht : (G.mark m).Leads b.drafts.size t)
    (he : (G.mark m).Leads b.drafts.size e) :
    Shaped { b with
      current := none
      drafts := (b.drafts.push ⟨[], .branch id t e⟩).modify c fun d =>
        { d with exits := d.exits.link b.drafts.size } } (G.mark m) := by
  have hfollow := h.follow (.branch m hc hd hlast hrole hplace hsource ht he)
  obtain ⟨d', hd', hpending⟩ := h.current c hc
  obtain rfl : d = d' := Option.some.inj (hd.symm.trans hd')
  obtain ⟨n, hn, hformed⟩ := h.formed c d hd
  have hpush : (b.drafts.push ⟨[], .branch id t e⟩)[c]? = some d := getElem?_push_of_some hd
  refine hfollow (by simp [Marks.mark, h.blocks]) h.finals (fun i n hn => ?_) (by simp)
    (fun i d' hi => ?_) (fun _ hid => .inl hid) fun _ hpath => .inl hpath
  · refine (Marks.mark_cases hn).imp_right ?_
    rintro ⟨-, rfl⟩
    exact hplace
  · have hc' := getElem?_modify_of_some (f := fun d : Draft =>
      { d with exits := d.exits.link b.drafts.size }) hpush
    rw [Array.getElem?_modify] at hi
    split at hi
    · rename_i heq
      subst heq
      rw [hpush] at hi
      cases hi
      refine .inr ⟨⟨n, (Marks.Extends.mark G m).block hn, hformed.link hpending⟩,
        fun x hx => ?_⟩
      rcases Exits.mem_targets_link hx with hold | rfl
      · exact (Marks.Extends.mark G m).leads (h.leads _ d hd x hold)
      · exact hsource
    · refine (getElem?_push_cases hi).imp_right ?_
      rintro ⟨rfl, rfl⟩
      refine ⟨⟨m, h.blocks ▸ G.mark_new m, rfl, c, _, hrole, hc', hlast,
        hpending.mem_targets_link _⟩, fun x hx => ?_⟩
      rcases List.mem_cons.mp hx with rfl | hx
      · exact ht
      · rw [List.mem_singleton.mp hx]
        exact he

end

/-- A step keeps the state of a construction in shape. -/
theorem Step.shaped (hstep : Step b G b' G') (h : b.Shaped G) : b'.Shaped G' := by
  have hfollow := h.follow hstep
  cases hstep with
  | fresh m hrole hplace => exact h.fresh hrole hplace
  | loop m n hm hn hplace hlt hloops => exact h.loop hm hn hplace hlt hloops
  | turn current hcur =>
      exact hfollow h.blocks h.finals (fun _ _ hm => .inl hm) hcur (fun _ _ hd => .inl hd)
        (fun _ hid => .inl hid) fun _ hpath => .inl hpath
  | close hc ht => exact h.close hc ht
  | emit kind hc hd hopen hkind => exact h.emit hc hd hopen hkind
  | raise handlers hc hd hkind hcategories htargets =>
      exact h.raise hc hd hkind hcategories htargets
  | branch m hc hd hlast hrole hplace hsource ht he =>
      exact h.branch hc hd hlast hrole hplace hsource ht he
  | names σ =>
      exact hfollow h.blocks h.finals (fun _ _ hm => .inl hm) h.current (fun _ _ hd => .inl hd)
        (fun _ hid => .inl hid) fun _ hpath => .inl hpath
  | final f =>
      exact hfollow h.blocks (by simp [Marks.register, h.finals]) (fun _ _ hm => .inl hm)
        h.current (fun _ _ hd => .inl hd) (fun _ hid => .inl hid) fun _ hpath => .inl hpath
  | remember hf hn hrole hplace hloops =>
      refine hfollow h.blocks h.finals (fun _ _ hm => .inl hm) h.current (fun _ _ hd => .inl hd)
        (fun _ hid => .inl hid) fun path hpath => ?_
      refine (List.mem_cons.mp hpath).symm.imp_right ?_
      rintro rfl
      exact ⟨_, _, _, _, rfl, hf, hn, hrole, hplace, hloops⟩

theorem opened_drafts {params : List Parameter} (hd : (opened params).drafts[i]? = some d) :
    (i = 0 ∧ d = ⟨[], .special .entry (some 3)⟩) ∨ (i = 1 ∧ d = ⟨[], .special .exit none⟩) ∨
      (i = 2 ∧ d = ⟨[], .special .exceptionalExit none⟩) ∨ (i = 3 ∧ d = ⟨[], .openEnd⟩) := by
  match i with
  | 0 => exact .inl ⟨rfl, (Option.some.inj hd).symm⟩
  | 1 => exact .inr (.inl ⟨rfl, (Option.some.inj hd).symm⟩)
  | 2 => exact .inr (.inr (.inl ⟨rfl, (Option.some.inj hd).symm⟩))
  | 3 => exact .inr (.inr (.inr ⟨rfl, (Option.some.inj hd).symm⟩))
  | i + 4 => simp [opened, Build.start] at hd

theorem shaped_opened (params : List Parameter) : (opened params).Shaped .initial where
  initial := .refl _
  blocks := rfl
  finals := rfl
  places i m hm hi := by
    match i, hi with
    | 3, _ =>
        cases hm
        exact WithTop.coe_lt_top 1
    | i + 4, _ => simp [Marks.initial] at hm
  current c hc := by
    cases hc
    exact ⟨⟨[], .openEnd⟩, rfl, trivial⟩
  formed i d hd := by
    rcases opened_drafts hd with ⟨rfl, rfl⟩ | ⟨rfl, rfl⟩ | ⟨rfl, rfl⟩ | ⟨rfl, rfl⟩
    · exact ⟨_, rfl, rfl, rfl, rfl⟩
    · exact ⟨_, rfl, rfl, rfl, rfl⟩
    · exact ⟨_, rfl, rfl, rfl, rfl⟩
    · exact ⟨_, rfl, rfl⟩
  leads i d hd t ht := by
    rcases opened_drafts hd with ⟨rfl, rfl⟩ | ⟨rfl, rfl⟩ | ⟨rfl, rfl⟩ | ⟨rfl, rfl⟩
    · rw [List.mem_singleton.mp ht]
      exact ⟨_, _, rfl, rfl, trivial, .inl (WithTop.coe_lt_coe.mpr zero_lt_one),
        List.forall_mem_nil _⟩
    · cases ht
    · cases ht
    · cases ht
  listed id hid := absurd hid (Nat.not_lt_zero id)
  paths _ hpath := absurd hpath List.not_mem_nil

/-- Every state that steps lead to is in shape. -/
theorem Drafted.shaped (h : b.Drafted G) : b.Shaped G := by
  induction h with
  | opened params => exact shaped_opened params
  | step _ hstep ih => exact hstep.shaped ih

end Building

end

end FlowTyping
