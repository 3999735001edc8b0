import FlowTyping.Proofs.Waiting.Stages

/-!
How the operations of a construction keep its stages: what each of them decides, and which
values wait afterwards.
-/

namespace FlowTyping

theorem Exits.onward_mono {d d' : Draft} (h : d.GrowsTo d') {t : BlockId}
    (ht : t ∈ d.exits.onward) : t ∈ d'.exits.onward := by
  obtain ⟨nodes, exits⟩ := d
  unfold Draft.GrowsTo at h
  split at h
  · rename_i heq
    cases heq
    cases ht
  · rename_i heq
    cases heq
    cases ht
  · rename_i heq
    cases heq
    cases ht
  · exact h ▸ ht

theorem Exits.Pending.onward_link {exits : Exits} (h : exits.Pending) (t : BlockId) :
    (exits.link t).onward = [t] := by
  rcases h.eq_or with rfl | ⟨handlers, rfl⟩ <;> rfl

theorem Exits.Pending.raised_link {exits : Exits} (h : exits.Pending) (t : BlockId) :
    (exits.link t).raised = exits.raised := by
  rcases h.eq_or with rfl | ⟨handlers, rfl⟩ <;> rfl

/-- A block that leads on takes no more nodes. -/
theorem Draft.GrowsTo.nodes_eq {d d' : Draft} (h : d.GrowsTo d') {t : BlockId}
    (ht : t ∈ d.exits.onward) : d'.nodes = d.nodes := by
  obtain ⟨nodes, exits⟩ := d
  unfold Draft.GrowsTo at h
  split at h
  · rename_i heq
    cases heq
    cases ht
  · exact h.1
  · exact h.1
  · rw [h]

theorem Joins.mono {ρ : BlockId → BlockId} {L L' : Listing}
    {leads leads' : BlockId → BlockId → Prop} {ends ends' : BlockId → NodeId → Prop} {i : BlockId}
    {waits : List NodeId} {first : NodeId} {kind : NodeKind}
    (h : Joins L leads ends i waits first kind) (hL : L.Embeds ρ L')
    (hstarts : ∀ rest f, L.starts rest f → rest ≠ i → ρ rest ≠ ρ i)
    (hleads : ∀ p, leads p i → leads' (ρ p) (ρ i))
    (honly : waits ≠ [] → ∀ p', leads' p' (ρ i) → ∃ p, leads p i ∧ ρ p = p')
    (hends : ∀ p o, leads p i → ends p o → ends' (ρ p) o) :
    Joins L' leads' ends' (ρ i) waits first kind := by
  cases kind with
  | shortCircuit op l r =>
      obtain ⟨hl, hlt, hways⟩ := h
      refine ⟨hl, hlt, fun p' hp' => ?_⟩
      obtain ⟨p, hp, rfl⟩ := honly (List.ne_nil_of_mem hl) p' hp'
      rcases hways p hp with hr | ⟨rest, f, hrest, hne, hdecides⟩
      · exact .inl (hends p r hp hr)
      · exact .inr ⟨ρ rest, f, hL.starts hrest, hstarts rest f hrest hne, hL.decides hdecides⟩
  | ternaryMerge l r =>
      obtain ⟨hfirst, hlt, hlt', hways, harms⟩ := h
      refine ⟨hfirst, hlt, hlt', fun p' hp' => ?_, fun o ho => ?_⟩
      · obtain ⟨p, hp, rfl⟩ := honly (List.ne_nil_of_mem hfirst) p' hp'
        exact (hways p hp).imp (hends p l hp) (hends p r hp)
      · obtain ⟨p, hp, hlast⟩ := harms o ho
        exact ⟨ρ p, hleads p hp, hends p o hp hlast⟩
  | _ => trivial

theorem Joins.of_arms {L : Listing} {leads : BlockId → BlockId → Prop}
    {ends : BlockId → NodeId → Prop} {i : BlockId} {w : List NodeId} {first : NodeId}
    {kind : NodeKind} (h : kind.arms = []) : Joins L leads ends i w first kind := by
  cases kind with
  | shortCircuit | ternaryMerge => cases h
  | _ => trivial

theorem Runs.lt {nodes : Array Node} {before done waiting : List NodeId}
    (h : Runs nodes before done waiting) {k : NodeId} (hk : k ∈ done) : k < nodes.size := by
  induction h with
  | nil => cases hk
  | snoc _ hn _ _ ih =>
      rcases List.mem_append.mp hk with hk | hk
      · exact ih hk
      · rw [List.mem_singleton.mp hk]
        exact (Array.getElem?_eq_some_iff.mp hn).1

namespace Stages

variable {G : Stages} {i j : Nat} {w : List NodeId} {st : Stage}

theorem claim_of_some (h : G.stage i = some st) : G.claim i w = G := by
  rw [claim, h]

theorem claim_of_none (h : G.stage i = none) : G.claim i w = G.set i ⟨w, none⟩ := by
  rw [claim, h]

theorem claim_other (h : j ≠ i) : (G.claim i w).stage j = G.stage j := by
  cases hi : G.stage i with
  | none => rw [claim_of_none hi, set_other _ _ h]
  | some st => rw [claim_of_some hi]

theorem claim_keeps (h : G.stage j = some st) : (G.claim i w).stage j = some st := by
  by_cases hji : j = i
  · subst hji
    rw [claim_of_some h, h]
  · rw [claim_other hji, h]

theorem claim_clock : (G.claim i w).clock = G.clock := by
  cases hi : G.stage i with
  | none => rw [claim_of_none hi, set]
  | some st => rw [claim_of_some hi]

theorem entered_claim : (G.claim i w).Entered j ↔ G.Entered j := by
  constructor
  · rintro ⟨w', e, hj⟩
    cases hji : G.stage j with
    | some st =>
        rw [claim_keeps hji] at hj
        exact ⟨w', e, hji.trans hj⟩
    | none =>
        by_cases heq : j = i
        · subst heq
          rw [claim_of_none hji, set_self] at hj
          cases hj
        · rw [claim_other heq, hji] at hj
          cases hj
  · rintro ⟨w', e, hj⟩
    exact ⟨w', e, claim_keeps hj⟩

end Stages

namespace Building

variable {U : Expr → Prop} {S T : List Nat} {b b' b'' : Building} {G G' G'' : Stages}
  {i t : Nat}

/-- What is listed stays listed. -/
theorem Grows.embeds (h : b.Grows S b') : b.listing.Embeds id b'.listing where
  node := by
    rintro id kind ⟨n, hn, hkind⟩
    exact ⟨n, h.node id n hn, hkind⟩
  starts := by
    rintro i first ⟨d, hd, hfirst⟩
    obtain ⟨d', hd', hg⟩ := h.draft i d hd
    obtain ⟨more, hmore⟩ := hg.nodes
    exact ⟨d', hd', by rw [← hmore, List.head?_append, hfirst, Option.some_or]⟩
  tests := by
    intro i t e id hd
    obtain ⟨d', hd', rfl⟩ := h.draft i _ hd
    exact hd'
  raises := by
    rintro id categories ⟨i, successor, handlers, terminal, hd, hcategories⟩
    obtain ⟨⟨nodes, exits⟩, hd', hg⟩ := h.draft i _ hd
    cases successor with
    | some => exact ⟨i, _, handlers, terminal, by rw [hd', hg], hcategories⟩
    | none =>
        cases terminal with
        | true => exact ⟨i, _, handlers, true, by rw [hd', hg], hcategories⟩
        | false =>
            obtain ⟨rfl, s, rfl⟩ := hg
            exact ⟨i, s, handlers, false, hd', hcategories⟩

namespace Follows

theorem refl (S : List Nat) (b : Building) (G : Stages) : Follows S b G b G where
  grows := .refl S b
  clock := Nat.le_refl _
  same _ _ _ := rfl
  stage _ st h := ⟨st, h, rfl, fun _ he => he, fun _ he => .inl he⟩
  closed _ _ _ _ := id

/-- Only the construction changes, and control goes nowhere else. -/
theorem of_grows (h : b.Grows S b') (hleads : ∀ p t : Nat, b'.Leads p t → b.Leads p t) :
    Follows S b G b' G where
  grows := h
  clock := Nat.le_refl _
  same _ _ _ := rfl
  stage _ st h := ⟨st, h, rfl, fun _ he => he, fun _ he => .inl he⟩
  closed t _ _ p := hleads p t

theorem flat (h : Follows S b G b' G') (hi : G.Flat i) : G'.Flat i := by
  obtain ⟨st, hst, hw⟩ := hi
  obtain ⟨st', hst', hw', -, -⟩ := h.stage i st hst
  exact ⟨st', hst', hw'.trans hw⟩

theorem entered (h : Follows S b G b' G') (hi : G.Entered i) : G'.Entered i := by
  obtain ⟨w, e, hst⟩ := hi
  obtain ⟨⟨w', e'⟩, hst', -, hkeep, -⟩ := h.stage i _ hst
  exact ⟨w', e, by rw [hst', ← hkeep e rfl]⟩

theorem not_flat (h : Follows S b G b' G') (hentered : G.Entered i) (hi : ¬ G.Flat i) :
    ¬ G'.Flat i := by
  rintro ⟨st', hst', hw'⟩
  obtain ⟨w, e, hst⟩ := hentered
  obtain ⟨st₁, hst₁, hw, -, -⟩ := h.stage i _ hst
  rw [hst'] at hst₁
  cases hst₁
  exact hi ⟨_, hst, hw.symm.trans hw'⟩

theorem trans (h : Follows S b G b' G') (h' : Follows S b' G' b'' G'') :
    Follows S b G b'' G'' where
  grows := h.grows.trans h'.grows
  clock := Nat.le_trans h.clock h'.clock
  same i hi hS := by
    rw [h'.same i (Nat.lt_of_lt_of_le hi h.grows.size_le) hS, h.same i hi hS]
  stage i st hst := by
    obtain ⟨st₁, hst₁, hw₁, hkeep₁, hnew₁⟩ := h.stage i st hst
    obtain ⟨st₂, hst₂, hw₂, hkeep₂, hnew₂⟩ := h'.stage i st₁ hst₁
    refine ⟨st₂, hst₂, hw₂.trans hw₁, fun e he => hkeep₂ e (hkeep₁ e he), fun e he => ?_⟩
    rcases hnew₂ e he with he | ⟨htime, hstart⟩
    · exact hnew₁ e he
    · exact .inr ⟨Nat.le_trans h.clock htime, Nat.le_trans h.grows.nodes_size_le hstart⟩
  closed t hflat ht p hp := by
    refine h.closed t hflat ht p ?_
    rcases ht with ⟨hlt, hS⟩ | hentered
    · refine h'.closed t ?_ (.inl ⟨Nat.lt_of_lt_of_le hlt h.grows.size_le, hS⟩) p hp
      rintro ⟨st, hst, hw⟩
      exact hflat ⟨st, (h.same t hlt hS).symm.trans hst, hw⟩
    · exact h'.closed t (h.not_flat hentered hflat) (.inr (h.entered hentered)) p hp

theorem weaken (h : Follows S b G b' G') (hST : ∀ i ∈ S, i ∈ T ∨ b.drafts.size ≤ i) :
    Follows T b G b' G' where
  grows := h.grows.weaken hST
  clock := h.clock
  same i hi hT := h.same i hi fun hS => by
    rcases hST i hS with ht | hn
    · exact hT ht
    · omega
  stage := h.stage
  closed t hflat ht := h.closed t hflat <| ht.imp_left fun ⟨hlt, hT⟩ => ⟨hlt, fun hS => by
    rcases hST t hS with ht | hn
    · exact hT ht
    · omega⟩

/-- A step after a step that touches fewer blocks. -/
theorem andThen (h : Follows S b G b' G') (h' : Follows T b' G' b'' G'')
    (hT : ∀ i ∈ T, i ∈ S ∨ b.drafts.size ≤ i) : Follows S b G b'' G'' := by
  have hboth := (h.weaken (T := S ++ T) fun i hi => .inl (by simp [hi])).trans
    (h'.weaken fun i hi => .inl (by simp [hi]))
  refine hboth.weaken fun i hi => ?_
  rcases List.mem_append.mp hi with hi | hi
  · exact .inl hi
  · exact hT i hi

theorem leads (h : Follows S b G b' G') {p : Nat} (hp : b.Leads p i) : b'.Leads p i := by
  obtain ⟨d, hd, hi⟩ := hp
  obtain ⟨d', hd', hg⟩ := h.grows.draft p d hd
  exact ⟨d', hd', Exits.onward_mono hg hi⟩

theorem has (h : Follows S b G b' G') {p : Nat} {o : NodeId} (hp : b.Has G p o) :
    b'.Has G' p o := by
  obtain ⟨d, st, hd, hst, ho⟩ := hp
  obtain ⟨d', hd', hg⟩ := h.grows.draft p d hd
  obtain ⟨st', hst', hw, -, -⟩ := h.stage p st hst
  exact ⟨d', st', hd', hst', ho.imp (hw ▸ ·) fun ho => hg.nodes.subset ho⟩

theorem arm (h : Follows S b G b' G') {w : List NodeId} {o : NodeId} (ha : b.Arm G i w o) :
    b'.Arm G' i w o := by
  obtain ⟨p, hp, ho, x, hx, hshared⟩ := ha
  exact ⟨p, h.leads hp, h.has ho, x, hx, h.has hshared⟩

theorem ends (h : Follows S b G b' G') {p : Nat} {o : NodeId} (hp : b.Leads p i)
    (ho : b.EndsWith p o) : b'.EndsWith p o := by
  obtain ⟨d, hd, hlast⟩ := ho
  obtain ⟨d₁, hd₁, hi⟩ := hp
  cases hd.symm.trans hd₁
  obtain ⟨d', hd', hg⟩ := h.grows.draft p d hd
  exact ⟨d', hd', by rw [hg.nodes_eq hi, hlast]⟩

/-- The ways to a merge node stay the ways to it. -/
theorem joins (h : Follows S b G b' G') {w : List NodeId} {e : Entrance}
    (hst : G.stage i = some ⟨w, some e⟩) {first : NodeId} {kind : NodeKind}
    (hj : Joins b.listing b.Leads b.EndsWith i w first kind) :
    Joins b'.listing b'.Leads b'.EndsWith i w first kind := by
  refine hj.mono h.grows.embeds (fun _ _ _ => id) (fun p => h.leads) (fun hne p hp => ?_)
    fun p o => h.ends
  refine ⟨p, h.closed i ?_ (.inr ⟨w, e, hst⟩) p hp, rfl⟩
  rintro ⟨st, hst', hw⟩
  cases hst.symm.trans hst'
  exact hne hw

theorem codes {U : Expr → Prop} (h : Follows S b G b' G') {w : List NodeId} {e : Entrance}
    (hst : G.stage i = some ⟨w, some e⟩) {k : NodeId} {kind : NodeKind}
    (hk : b.Codes U i w k kind) : b'.Codes U i w k kind := by
  obtain ⟨x, first, hx, hvalue, hj⟩ := hk
  exact ⟨x, first, hx, x.code_mono.value h.grows.embeds hvalue, h.joins hst hj⟩

end Follows

namespace Begins

variable {first : NodeId}

theorem follow (h : b.Begins first b') (hf : Follows S b' G' b'' G'') : b.Begins first b'' where
  fresh := h.fresh
  made := Nat.lt_of_lt_of_le h.made hf.grows.nodes_size_le
  starts c hcur hd := hf.grows.embeds.starts (h.starts c hcur hd)

end Begins

theorem Yields.made {id : NodeId} (h : b.Yields id b') : id < b'.nodes.size := by
  obtain ⟨n, hn, -⟩ := h.rests
  exact (Array.getElem?_eq_some_iff.mp hn).1

theorem Yields.after {id : NodeId} (h : b'.Yields id b'') (hf : Follows S b G b' G') :
    b.Yields id b'' where
  fresh := Nat.le_trans hf.grows.nodes_size_le h.fresh
  rests := h.rests
  last := h.last

/-- What is known of a block stays true of it as long as its draft does. -/
theorem Begun.follow {d : Draft} {w : List NodeId} {e : Entrance} (h : b.Begun U G i d w e)
    (hf : Follows S b G b' G') (hst : G.stage i = some ⟨w, some e⟩) :
    b'.Begun U G' i d w e := by
  obtain ⟨waiting, hruns, honward⟩ := h.runs
  have hsize := hf.grows.nodes_size_le
  have hold {k : NodeId} (hk : k ∈ d.nodes) {n : Node} (hn : b'.nodes[k]? = some n) :
      b.nodes[k]? = some n := by
    have hm := Array.getElem?_eq_getElem (hruns.lt hk)
    cases hn.symm.trans (hf.grows.node k _ hm)
    exact hm
  refine {
    time := Nat.lt_of_lt_of_le h.time hf.clock
    start := Nat.le_trans h.start hsize
    before := h.before
    after := h.after
    runs := ⟨waiting, hruns.mono hf.grows.node, fun t ht => ?_⟩
    raised := fun t ht => hf.flat (h.raised t ht)
    linked := fun hw => (h.linked hw).imp fun _ => hf.leads
    arms := fun k hk n hn o ho => hf.arm (h.arms k hk n (hold hk hn) o ho)
    values := fun k hk n hn heffect =>
      hf.codes hst (h.values k hk n (hold hk hn) heffect) }
  obtain ⟨st, hst, hw, hlater⟩ := honward t ht
  obtain ⟨st', hst', hw', -, hnew⟩ := hf.stage t st hst
  refine ⟨st', hst', hw' ▸ hw, fun hne e' he' => ?_⟩
  rcases hnew e' he' with he' | ⟨htime, hstart⟩
  · exact hlater (hw' ▸ hne) e' he'
  · refine ⟨Nat.lt_of_lt_of_le h.time htime, Nat.le_trans h.start hstart, fun k hk => ?_⟩
    exact Nat.lt_of_lt_of_le (hruns.lt hk) hstart

namespace Staged

/-- A step leaves every block as it was, except those for which the rest is shown. -/
theorem follow (h : b.Staged U G) (hf : Follows S b G b' G')
    (outside : ∀ i : Nat, b'.drafts.size ≤ i → G'.stage i = none)
    (drafts : ∀ (i : Nat) (d : Draft), b'.drafts[i]? = some d →
      (b.drafts[i]? = some d ∧ G'.stage i = G.stage i) ∨
      ((¬ G'.Entered i → d = ⟨[], .openEnd⟩) ∧
        ∀ w e, G'.stage i = some ⟨w, some e⟩ → b'.Begun U G' i d w e))
    (current : ∀ c : Nat, b'.current = some c →
      G'.Entered c ∧ ∃ d : Draft, b'.drafts[c]? = some d ∧ d.exits.Pending)
    (paths : ∀ path ∈ b'.finalPaths, path ∈ b.finalPaths ∨ G'.Flat path.2) :
    b'.Staged U G' where
  outside := outside
  untouched i d hd hne := by
    rcases drafts i d hd with ⟨hd', hsame⟩ | ⟨hfresh, -⟩
    · refine h.untouched i d hd' fun ⟨w, e, hst⟩ => hne ⟨w, e, hsame.trans hst⟩
    · exact hfresh hne
  begun i d w e hd hst := by
    rcases drafts i d hd with ⟨hd', hsame⟩ | ⟨-, hbegun⟩
    · have hold := hsame.symm.trans hst
      exact (h.begun i d w e hd' hold).follow hf hold
    · exact hbegun w e hst
  current := current
  designated i hi := hf.flat (h.designated i hi)
  paths path hpath := by
    rcases paths path hpath with hold | hflat
    · exact hf.flat (h.paths path hold)
    · exact hflat

theorem size_of_stage (h : b.Staged U G) {st : Stage} (hst : G.stage i = some st) :
    i < b.drafts.size := by
  by_contra hle
  rw [h.outside i (Nat.le_of_not_lt hle)] at hst
  cases hst

theorem draft_of_stage (h : b.Staged U G) {st : Stage} (hst : G.stage i = some st) :
    ∃ d : Draft, b.drafts[i]? = some d :=
  ⟨_, Array.getElem?_eq_getElem (h.size_of_stage hst)⟩

/-- A block that leads on has been begun. -/
theorem begun_of_leads (h : b.Staged U G) {p : Nat} (hp : b.Leads p i) :
    ∃ d w e, b.drafts[p]? = some d ∧ i ∈ d.exits.onward ∧ G.stage p = some ⟨w, some e⟩ ∧
      b.Begun U G p d w e := by
  obtain ⟨d, hd, hi⟩ := hp
  by_cases hentered : G.Entered p
  · obtain ⟨w, e, hst⟩ := hentered
    exact ⟨d, w, e, hd, hi, hst, h.begun p d w e hd hst⟩
  · rw [h.untouched p d hd hentered] at hi
    cases hi

/-- Nothing leads to a block before its stage is decided. -/
theorem not_leads (h : b.Staged U G) (hi : G.stage i = none) {p : Nat} : ¬ b.Leads p i := by
  intro hp
  obtain ⟨d, w, e, -, hin, -, hbegun⟩ := h.begun_of_leads hp
  obtain ⟨waiting, -, honward⟩ := hbegun.runs
  obtain ⟨st, hst, -⟩ := honward i hin
  rw [hi] at hst
  cases hst

theorem waits_lt (h : b.Staged U G) {p : Nat} (hp : b.Leads p i) {st : Stage}
    (hst : G.stage i = some st) {o : NodeId} (ho : o ∈ st.waits) : o < b.nodes.size := by
  obtain ⟨d, w, e, -, hi, -, hbegun⟩ := h.begun_of_leads hp
  obtain ⟨waiting, hruns, honward⟩ := hbegun.runs
  obtain ⟨st', hst', hw, -⟩ := honward i hi
  rw [hst] at hst'
  cases hst'
  rcases hruns.waiting_sub (hw o ho) with ho | ho
  · exact Nat.lt_of_lt_of_le (hbegun.before o ho) hbegun.start
  · exact hruns.lt ho

end Staged

namespace Holds

variable {s s' : List NodeId}

theorem nil : b.Holds G [] := nofun

theorem subset (h : b.Holds G s) (hs : ∀ o ∈ s', o ∈ s) : b.Holds G s' :=
  fun o ho => h o (hs o ho)

/-- Values go on waiting as long as the current block stays as it is. -/
theorem keep (h : b.Holds G s) (hcur : b'.current = b.current)
    (hdraft : ∀ c : Nat, b.current = some c → b'.drafts[c]? = b.drafts[c]?)
    (hstage : ∀ c : Nat, b.current = some c → G'.stage c = G.stage c)
    (hnodes : ∀ (i : Nat) (n : Node), b.nodes[i]? = some n → b'.nodes[i]? = some n) :
    b'.Holds G' s := by
  intro o ho
  obtain ⟨c, d, w, e, held, hc, hd, hst, hruns, hheld⟩ := h o ho
  exact ⟨c, d, w, e, held, hcur.trans hc, (hdraft c hc).trans hd, (hstage c hc).trans hst,
    hruns.mono hnodes, hheld⟩

/-- All that waits, waits in the current block. -/
theorem mem (h : b.Holds G s) {c : Nat} {d : Draft} {w waiting : List NodeId} {e : Entrance}
    (hc : b.current = some c) (hd : b.drafts[c]? = some d)
    (hst : G.stage c = some ⟨w, some e⟩) (hruns : Runs b.nodes w d.nodes waiting)
    {o : NodeId} (ho : o ∈ s) : o ∈ waiting := by
  obtain ⟨c', d', w', e', held, hc', hd', hst', hruns', hheld⟩ := h o ho
  rw [hc] at hc'
  cases hc'
  rw [hd] at hd'
  cases hd'
  rw [hst] at hst'
  cases hst'
  rw [hruns.unique hruns' rfl]
  exact hheld

theorem eq_nil (h : b.Holds G s) (hc : b.current = none) : s = [] := by
  cases s with
  | nil => rfl
  | cons o rest =>
      obtain ⟨c, _, _, _, _, hc', -⟩ := h o List.mem_cons_self
      rw [hc] at hc'
      cases hc'

theorem has (h : b.Holds G s) {c : Nat} (hc : b.current = some c) {o : NodeId} (ho : o ∈ s) :
    b.Has G c o := by
  obtain ⟨c', d, w, e, held, hc', hd, hst, hruns, hheld⟩ := h o ho
  rw [hc] at hc'
  cases hc'
  exact ⟨d, _, hd, hst, hruns.waiting_sub hheld⟩

end Holds

theorem Staged.lt_current (h : b.Staged U G) {c : Nat} (hc : b.current = some c) :
    c < b.drafts.size := by
  obtain ⟨-, d, hd, -⟩ := h.current c hc
  exact (Array.getElem?_eq_some_iff.mp hd).1

/-- The state in which a block has been closed by a test, which has a block of its own. -/
def tested (b : Building) (c : BlockId) (id : NodeId) (t e : BlockId) : Building :=
  { b with
    current := none
    drafts := (b.drafts.push ⟨[], .branch id t e⟩).modify c fun d =>
      { d with exits := d.exits.link b.drafts.size } }

theorem tested_size (b : Building) (c : BlockId) (id : NodeId) (t e : BlockId) :
    (b.tested c id t e).drafts.size = b.drafts.size + 1 := by
  simp [tested]

section

variable {c e p x : Nat} {id : NodeId} {d : Draft}

theorem tested_other (hi : i < b.drafts.size) (hic : i ≠ c) :
    (b.tested c id t e).drafts[i]? = b.drafts[i]? := by
  simp [tested, Array.getElem?_modify, Array.getElem?_push, Nat.ne_of_lt hi, Ne.symm hic]

theorem tested_source (hd : b.drafts[c]? = some d) : (b.tested c id t e).drafts[c]? =
    some { d with exits := d.exits.link b.drafts.size } := by
  have hlt := (Array.getElem?_eq_some_iff.mp hd).1
  simp [tested, Array.getElem?_modify, Array.getElem?_push, Nat.ne_of_lt hlt, hd]

theorem tested_test (hlt : c < b.drafts.size) :
    (b.tested c id t e).drafts[b.drafts.size]? = some ⟨[], .branch id t e⟩ := by
  rw [tested]
  simp only [Array.getElem?_modify, if_neg (Nat.ne_of_lt hlt), Array.getElem?_push_size]

theorem tested_leads (hd : b.drafts[c]? = some d) (hpending : d.exits.Pending)
    (hx : x < b.drafts.size) (hp : (b.tested c id t e).Leads p x) :
    b.Leads p x ∨ p = b.drafts.size ∧ (x = t ∨ x = e) := by
  obtain ⟨d', hd', hin⟩ := hp
  by_cases hpc : p = c
  · subst hpc
    cases (tested_source hd).symm.trans hd'
    rw [hpending.onward_link, List.mem_singleton] at hin
    exact absurd hin (Nat.ne_of_lt hx)
  · by_cases hp : p = b.drafts.size
    · subst hp
      cases (tested_test (Array.getElem?_eq_some_iff.mp hd).1).symm.trans hd'
      exact .inr ⟨rfl, by simpa [Exits.onward] using hin⟩
    · refine .inl ⟨d', ?_, hin⟩
      simpa [tested, Array.getElem?_modify, Array.getElem?_push, hp, Ne.symm hpc] using hd'

theorem tested_grows (hcur : b.current = some c) : b.Grows S (b.tested c id t e) := by
  have hpush : b.Grows S { b with drafts := b.drafts.push ⟨[], .branch id t e⟩ } := .push _
  have hlink := hpush.trans (.modify (i := c) (.inl hcur) fun d _ => .link d b.drafts.size)
  exact hlink.trans (.setCurrent (by simp))

end

end Building

namespace Build

open Building

variable {U : Expr → Prop} {S : List Nat} {b b' b₁ : Building} {G : Stages} {s : List NodeId}
  {t : Nat} {u : Unit}

/-- A new block is one that nothing leads to. -/
theorem newBlock_staged (h : b.Staged U G) (hrun : newBlock.run b = .ok (t, b')) :
    b'.Staged U G ∧ Follows [] b G b' G ∧ t = b.drafts.size ∧ b'.drafts.size = t + 1 ∧
      G.stage t = none ∧ (∀ s, b.Holds G s → b'.Holds G s) ∧
      ∀ id : Nat, b.Rests id → b'.Rests id := by
  rw [newBlock, run_newDraft] at hrun
  cases hrun
  have hnone : G.stage b.drafts.size = none := h.outside _ (Nat.le_refl _)
  have hold {i : Nat} (hi : i < b.drafts.size) :
      (b.drafts.push ⟨[], .openEnd⟩)[i]? = b.drafts[i]? := by
    simp [Array.getElem?_push, Nat.ne_of_lt hi]
  have hf : Follows [] b G { b with drafts := b.drafts.push ⟨[], .openEnd⟩ } G := by
    refine .of_grows (.push .openEnd) fun p t hp => ?_
    obtain ⟨d, hd, ht⟩ := hp
    simp only [Array.getElem?_push] at hd
    split at hd
    · cases hd
      cases ht
    · exact ⟨d, hd, ht⟩
  refine ⟨h.follow hf (fun i hi => ?_) (fun i d hd => ?_) (fun c hc => ?_)
    (fun path hpath => .inl hpath), hf, rfl, by simp, hnone, fun s hs => ?_, fun _ h => h⟩
  · exact h.outside i (by simp at hi; omega)
  · simp only [Array.getElem?_push] at hd
    split at hd
    · rename_i hi
      subst hi
      cases hd
      refine .inr ⟨fun _ => rfl, fun w e hst => ?_⟩
      rw [hnone] at hst
      cases hst
    · exact .inl ⟨hd, rfl⟩
  · obtain ⟨hentered, d, hd, hpending⟩ := h.current c hc
    exact ⟨hentered, d, (hold (h.lt_current hc)).trans hd, hpending⟩
  · exact hs.keep rfl (fun c hc => hold (h.lt_current hc)) (fun _ _ => rfl) fun _ _ hn => hn

/-- A new block is not the one in which the code begins. -/
theorem newBlock_begins {first : NodeId} {b'' : Building} (h : b.Staged U G)
    (hrun : newBlock.run b = .ok (t, b')) (hbegins : b'.Begins first b'') :
    b.Begins first b'' := by
  rw [newBlock, run_newDraft] at hrun
  cases hrun
  refine ⟨hbegins.fresh, hbegins.made, fun c hcur hd => hbegins.starts c hcur ?_⟩
  simpa [Array.getElem?_push, Nat.ne_of_lt (h.lt_current hcur)] using hd

/-- What is going to wait in a block is decided before anything leads to it. -/
theorem claim_staged (h : b.Staged U G) (ht : t < b.drafts.size) (w : List NodeId) :
    b.Staged U (G.claim t w) ∧ Follows [t] b G b (G.claim t w) ∧
      ∀ s, b.Holds G s → b.Holds (G.claim t w) s := by
  have hf : Follows [t] b G b (G.claim t w) := {
    grows := .refl _ b
    clock := Nat.le_of_eq Stages.claim_clock.symm
    same := fun i _ hi => Stages.claim_other (by simpa using hi)
    stage := fun i st hst =>
      ⟨st, Stages.claim_keeps hst, rfl, fun _ he => he, fun _ he => .inl he⟩
    closed := fun _ _ _ _ => id }
  refine ⟨h.follow hf (fun i hi => ?_) (fun i d hd => ?_) (fun c hc => ?_)
    (fun path hpath => .inl hpath), hf, fun s hs => ?_⟩
  · rw [Stages.claim_other (by omega)]
    exact h.outside i hi
  · cases hst : G.stage i with
    | some st => exact .inl ⟨hd, Stages.claim_keeps hst⟩
    | none =>
        refine .inr ⟨fun hne => h.untouched i d hd ?_, fun w' e hst' => ?_⟩
        · exact fun hentered => hne (Stages.entered_claim.mpr hentered)
        · obtain ⟨w'', e', hold⟩ := Stages.entered_claim.mp ⟨w', e, hst'⟩
          rw [hst] at hold
          cases hold
  · obtain ⟨hentered, hpending⟩ := h.current c hc
    exact ⟨Stages.entered_claim.mpr hentered, hpending⟩
  · refine hs.keep rfl (fun _ _ => rfl) (fun c hc => ?_) fun _ _ hn => hn
    obtain ⟨⟨w', e, hst⟩, -⟩ := h.current c hc
    rw [Stages.claim_keeps hst, hst]

/-- The code of a block begins with the values that wait there. -/
theorem enter_staged {w : List NodeId} (h : b.Staged U G) (hst : G.stage t = some ⟨w, none⟩)
    (hlinked : w ≠ [] → ∃ p, b.Leads p t)
    (hrun : (setCurrent (some t)).run b = .ok (u, b')) :
    b'.Staged U (G.enter t w b.nodes.size) ∧ Follows [t] b G b' (G.enter t w b.nodes.size) ∧
      b'.Holds (G.enter t w b.nodes.size) w ∧ b'.drafts[t]? = some ⟨[], .openEnd⟩ ∧
      b'.current = some t := by
  rw [run_setCurrent] at hrun
  cases hrun
  obtain ⟨d, hd⟩ := h.draft_of_stage hst
  have hne : ¬ G.Entered t := by
    rintro ⟨w', e, hst'⟩
    rw [hst] at hst'
    cases hst'
  obtain rfl := h.untouched t d hd hne
  have hf : Follows [t] b G { b with current := some t } (G.enter t w b.nodes.size) := {
    grows := .setCurrent (by rintro _ ⟨⟩; simp)
    clock := Nat.le_succ _
    same := fun i _ hi => Stages.enter_other _ _ _ (by simpa using hi)
    stage := fun i st hi => by
      by_cases heq : i = t
      · subst heq
        rw [hst] at hi
        cases hi
        exact ⟨_, Stages.enter_self .., rfl, nofun, by
          rintro _ ⟨⟩
          exact .inr ⟨Nat.le_refl _, Nat.le_refl _⟩⟩
      · exact ⟨st, (Stages.enter_other _ _ _ heq).trans hi, rfl, fun _ he => he,
          fun _ he => .inl he⟩
    closed := fun _ _ _ _ => id }
  have hbegun : Begun U { b with current := some t } (G.enter t w b.nodes.size) t
      ⟨[], .openEnd⟩ w ⟨G.clock, b.nodes.size⟩ := {
    time := Nat.lt_succ_self _
    start := Nat.le_refl _
    before := fun o ho => by
      obtain ⟨p, hp⟩ := hlinked (List.ne_nil_of_mem ho)
      exact h.waits_lt hp hst ho
    after := nofun
    runs := ⟨w, .nil, nofun⟩
    raised := nofun
    linked := fun hw => (hlinked hw).imp fun _ => hf.leads
    arms := nofun
    values := nofun }
  refine ⟨h.follow hf (fun i hi => ?_) (fun i d' hd' => ?_) (fun c hc => ?_)
    (fun path hpath => .inl hpath), hf, fun o ho => ?_, hd, rfl⟩
  · have hsize := h.size_of_stage hst
    rw [Stages.enter_other _ _ _ (Nat.ne_of_gt (Nat.lt_of_lt_of_le hsize hi))]
    exact h.outside i hi
  · by_cases heq : i = t
    · subst heq
      rw [hd] at hd'
      cases hd'
      refine .inr ⟨fun _ => rfl, fun w' e hst' => ?_⟩
      rw [Stages.enter_self] at hst'
      cases hst'
      exact hbegun
    · exact .inl ⟨hd', Stages.enter_other _ _ _ heq⟩
  · cases hc
    exact ⟨⟨w, _, Stages.enter_self ..⟩, _, hd, trivial⟩
  · exact ⟨t, _, w, _, w, rfl, hd, Stages.enter_self .., .nil, ho⟩

/-- The current path ends with a jump to a block where no more waits than here. -/
theorem closeWith_staged (h : b.Staged U G) (hs : b.Holds G s) (ht : b.Ready G s t)
    (hst : ∃ st, G.stage t = some st) (hS : G.Flat t ∨ t ∈ S)
    (hrun : (closeWith t).run b = .ok (u, b')) :
    b'.Staged U G ∧ Follows S b G b' G ∧ b'.current = none ∧
      (∀ c : Nat, b.current = some c → b'.Leads c t) ∧
      (∀ p x : Nat, b'.Leads p x → b.Leads p x ∨ x = t ∧ b.current = some p) ∧
      ∀ c id : Nat, b.EndsWith c id → b'.EndsWith c id := by
  rw [run_closeWith] at hrun
  obtain ⟨st, hst⟩ := hst
  obtain ⟨hsub, hopen⟩ := ht.2 st hst
  cases hcur : b.current with
  | none =>
      simp only [hcur] at hrun
      cases hrun
      have hf : Follows S b G { b with current := none } G :=
        .of_grows (.setCurrent (by simp)) fun _ _ => id
      exact ⟨h.follow hf h.outside (fun i d hd => .inl ⟨hd, rfl⟩) nofun
        (fun path hpath => .inl hpath), hf, rfl, nofun, fun _ _ => .inl, fun _ _ => id⟩
  | some c =>
      simp only [hcur] at hrun
      cases hrun
      obtain ⟨⟨w, e, hstc⟩, d, hd, hpending⟩ := h.current c hcur
      generalize hb : ({ b with
          current := none
          drafts := b.drafts.modify c fun d => { d with exits := d.exits.link t } } : Building) = b'
      have hleads : ∀ p x : Nat, b'.Leads p x → b.Leads p x ∨ x = t ∧ c = p := by
        rintro p x ⟨d', hd', hx⟩
        simp only [← hb, Array.getElem?_modify] at hd'
        split at hd'
        · rename_i heq
          subst heq
          rw [hd] at hd'
          cases hd'
          rw [hpending.onward_link, List.mem_singleton] at hx
          exact .inr ⟨hx, rfl⟩
        · exact .inl ⟨d', hd', hx⟩
      have hf : Follows S b G b' G := by
        have hgrows : b.Grows S { b with
            drafts := b.drafts.modify c fun d => { d with exits := d.exits.link t } } :=
          .modify (.inl hcur) fun d _ => .link d t
        refine ⟨hb ▸ hgrows.trans (.setCurrent (by simp)), Nat.le_refl _, fun _ _ _ => rfl,
          fun _ st h => ⟨st, h, rfl, fun _ he => he, fun _ he => .inl he⟩,
          fun x hflat hx p hp => ?_⟩
        rcases hleads p x hp with hp | ⟨rfl, -⟩
        · exact hp
        -- Nothing waits in the target, or it has not begun.
        rcases hx with ⟨-, hx⟩ | ⟨w', e', hx⟩
        · exact absurd (hS.resolve_left hflat) hx
        · rw [hst] at hx
          cases hx
          rcases hopen with hnone | hopen
          · exact absurd ⟨_, hst, hnone⟩ hflat
          · cases hopen
      have hbegun := (h.begun c d w e hd hstc).follow hf hstc
      obtain ⟨waiting, hruns, -⟩ := (h.begun c d w e hd hstc).runs
      refine ⟨h.follow hf (fun i hi => h.outside i (by simpa [← hb] using hi))
        (fun i d' hd' => ?_) (by simp [← hb])
        (fun path hpath => .inl (by simpa [← hb] using hpath)), hf, by simp [← hb], ?_,
        fun p x hp => ?_, fun i id hid => ?_⟩
      · simp only [← hb, Array.getElem?_modify] at hd'
        split at hd'
        · rename_i heq
          subst heq
          rw [hd] at hd'
          cases hd'
          refine .inr ⟨fun hne => absurd ⟨w, e, hstc⟩ hne, fun w' e' hst' => ?_⟩
          rw [hstc] at hst'
          cases hst'
          refine { hbegun with
            runs := ⟨waiting, hruns.mono hf.grows.node, fun t' ht' => ?_⟩
            raised := fun t' ht' => hbegun.raised t' (hpending.raised_link t ▸ ht') }
          rw [hpending.onward_link, List.mem_singleton] at ht'
          subst ht'
          refine ⟨st, hst, fun o ho => hs.mem hcur hd hstc hruns (hsub o ho), fun hne e' he' => ?_⟩
          rcases hopen with hflat | hopen
          · exact absurd hflat hne
          · rw [hopen] at he'
            cases he'
        · exact .inl ⟨hd', rfl⟩
      · rintro _ ⟨⟩
        refine ⟨{ d with exits := d.exits.link t }, by simp [← hb, Array.getElem?_modify, hd], ?_⟩
        rw [hpending.onward_link]
        exact List.mem_singleton_self t
      · exact (hleads p x hp).imp_right fun ⟨hx, hc⟩ => ⟨hx, congrArg some hc⟩
      · obtain ⟨d', hd', hlast⟩ := hid
        by_cases hic : c = i
        · subst hic
          cases hd.symm.trans hd'
          exact ⟨{ d with exits := d.exits.link t },
            by simp [← hb, Array.getElem?_modify, hd], hlast⟩
        · exact ⟨d', by simpa [← hb, Array.getElem?_modify, hic] using hd', hlast⟩

theorem Expects.follow {new : Listing → NodeId → Prop} {G' : Stages} (h : b.Expects U new)
    (hf : Follows S b G b' G') : b'.Expects U new :=
  fun hL hnew => h (hf.grows.embeds.trans hL) hnew

/-- A node is placed in the open current block. -/
theorem place_staged {c : Nat} {d : Draft} {kind : NodeKind} {f : Draft → Draft} {e : Exits}
    {current : Option BlockId} (h : b.Staged U G) (hs : b.Holds G s)
    (hcur : b.current = some c) (hd : b.drafts[c]? = some d) (hopen : d.exits = .openEnd)
    (hdirect : ∀ o ∈ kind.direct, b.Has G c o)
    (hwaits : kind.setsLocal = false → ∀ o ∈ kind.direct, o ∈ s)
    (harms : ∀ o ∈ kind.arms, ∃ w e, G.stage c = some ⟨w, e⟩ ∧ b.Arm G c w o)
    (hf : f d = ⟨d.nodes ++ [b.nodes.size], e⟩) (honward : e.onward = [])
    (hraised : ∀ t ∈ e.raised, G.Flat t)
    (hnext : current = none ∨ current = some c ∧ e.Pending)
    (hcode : kind.isEffect = false → Follows [] b G b' G → ∀ w e, G.stage c = some ⟨w, e⟩ →
      b'.Codes U c w b.nodes.size kind)
    (hb : b' = { b with
      nodes := b.nodes.push ⟨b.nodes.size, c, kind⟩
      drafts := b.drafts.modify c f
      current := current }) :
    b'.Staged U G ∧ Follows [] b G b' G ∧
      (current = some c → b'.Holds G (if kind.isEffect then [] else b.nodes.size :: s)) ∧
      (∀ o, b.Has G c o → b'.Has G c o) := by
  obtain ⟨⟨w, entrance, hst⟩, -⟩ := h.current c hcur
  have hold := h.begun c d w entrance hd hst
  have hgrows : b.Grows [] b' := by
    rw [hb]
    refine ((Grows.pushNode ⟨b.nodes.size, c, kind⟩).trans (.modify (i := c) (f := f)
      (.inl hcur) fun d' hd' => ?_)).trans (.setCurrent ?_)
    · obtain rfl : d = d' := Option.some.inj (hd.symm.trans hd')
      simp [hf, Draft.GrowsTo, hopen]
    · intro i hi
      rcases hnext with hnone | ⟨hsome, -⟩
      · simp [hnone] at hi
      · rw [hsome] at hi
        exact .inl (hcur.trans hi)
  have hd' : b'.drafts[c]? = some ⟨d.nodes ++ [b.nodes.size], e⟩ := by
    simp [hb, Array.getElem?_modify, hd, hf]
  have hfollows : Follows [] b G b' G := by
    refine .of_grows hgrows fun p t hleads => ?_
    obtain ⟨d₁, hd₁, ht⟩ := hleads
    by_cases hcp : c = p
    · subst hcp
      cases hd'.symm.trans hd₁
      rw [honward] at ht
      cases ht
    · exact ⟨d₁, by simpa [hb, Array.getElem?_modify, hcp] using hd₁, ht⟩
  have hn : b'.nodes[b.nodes.size]? = some ⟨b.nodes.size, c, kind⟩ := by simp [hb]
  obtain ⟨waiting, hruns, -⟩ := hold.runs
  have hheld : kind.setsLocal = false → ∀ o ∈ kind.direct, o ∈ waiting :=
    fun hkind o ho => hs.mem hcur hd hst hruns (hwaits hkind o ho)
  have hruns' : Runs b'.nodes w (d.nodes ++ [b.nodes.size])
      (if kind.isEffect then [] else b.nodes.size :: waiting) := by
    refine (hruns.mono hgrows.node).snoc (n := ⟨b.nodes.size, c, kind⟩) hn (fun o ho => ?_) hheld
    obtain ⟨d₁, st₁, hd₁, hst₁, ho₁⟩ := hdirect o ho
    rw [hd] at hd₁
    cases hd₁
    rw [hst] at hst₁
    cases hst₁
    exact ho₁
  have hbegun : b'.Begun U G c ⟨d.nodes ++ [b.nodes.size], e⟩ w entrance := by
    have hold' := hold.follow hfollows hst
    refine { hold' with
      after := fun k hk => ?_
      runs := ⟨_, hruns', by simp [honward]⟩
      raised := hraised
      arms := fun k hk n hkn o ho => ?_
      values := fun k hk n hkn heffect => ?_ }
    · rcases List.mem_append.mp hk with hk | hk
      · exact hold.after k hk
      · rw [List.mem_singleton.mp hk]
        exact hold.start
    · rcases List.mem_append.mp hk with hk | hk
      · exact hold'.arms k hk n hkn o ho
      · rw [List.mem_singleton.mp hk, hn] at hkn
        cases hkn
        obtain ⟨w', e', hst', harm⟩ := harms o ho
        rw [hst] at hst'
        cases hst'
        exact hfollows.arm harm
    · rcases List.mem_append.mp hk with hk | hk
      · exact hold'.values k hk n hkn heffect
      · rw [List.mem_singleton.mp hk, hn] at hkn
        cases hkn
        rw [List.mem_singleton.mp hk]
        exact hcode heffect hfollows w _ hst
  refine ⟨h.follow hfollows (fun i hi => h.outside i ?_) (fun i d₁ hd₁ => ?_) (fun i hi => ?_)
    (fun path hpath => .inl (by simpa [hb] using hpath)), hfollows, fun hcurrent => ?_,
    fun o => hfollows.has⟩
  · simpa [hb] using hi
  · by_cases heq : i = c
    · subst heq
      rw [hd'] at hd₁
      cases hd₁
      refine .inr ⟨fun hne => absurd ⟨w, entrance, hst⟩ hne, fun w' e' hst' => ?_⟩
      rw [hst] at hst'
      cases hst'
      exact hbegun
    · refine .inl ⟨?_, rfl⟩
      simpa [hb, Array.getElem?_modify, Ne.symm heq] using hd₁
  · have hi : current = some i := by simpa [hb] using hi
    rcases hnext with hnone | ⟨hsome, hpending⟩
    · rw [hnone] at hi
      cases hi
    · rw [hsome] at hi
      cases hi
      exact ⟨⟨w, entrance, hst⟩, _, hd', hpending⟩
  · intro o ho
    refine ⟨c, _, w, entrance, _, by simp [hb, hcurrent], hd', hst, hruns', ?_⟩
    split at ho
    · cases ho
    · rename_i hkind
      rw [if_neg hkind]
      rcases List.mem_cons.mp ho with rfl | ho
      · exact List.mem_cons_self
      · exact List.mem_cons_of_mem _ (hs.mem hcur hd hst hruns ho)

/-- What waits goes on waiting in a fresh block after the current one. -/
theorem nextBlock_staged (h : b.Staged U G) (hs : b.Holds G s)
    (hrun : nextBlock.run b = .ok (t, b')) :
    ∃ G', { b' with current := some t }.Staged U G' ∧
      Follows [] b G { b' with current := some t } G' ∧
      Holds { b' with current := some t } G' s ∧ b'.drafts[t]? = some ⟨[], .openEnd⟩ ∧
      b'.nodes = b.nodes := by
  have hnodes : b'.nodes = b.nodes := by
    rw [run_nextBlock] at hrun
    cases hrun
    rfl
  obtain ⟨b₁, b₂, h₁, h₂, h₃⟩ := run_nextBlock_current hrun
  obtain ⟨hg₁, hf₁, hid, hsize, hnone, hs₁, -⟩ := newBlock_staged h h₁
  have hlt : t < b₁.drafts.size := by omega
  obtain ⟨hg₂, hf₂, hs₂⟩ := claim_staged hg₁ hlt s
  have hst : (G.claim t s).stage t = some ⟨s, none⟩ := by
    rw [Stages.claim_of_none hnone, Stages.set_self]
  have hready : b₁.Ready (G.claim t s) s t := by
    refine ⟨hlt, fun st hst' => ?_⟩
    rw [hst] at hst'
    cases hst'
    exact ⟨fun _ ho => ho, .inr rfl⟩
  obtain ⟨hg₃, hf₃, -, hleads, -⟩ := closeWith_staged (S := [t]) hg₂ (hs₂ s (hs₁ s hs)) hready
    ⟨_, hst⟩ (.inr (List.mem_singleton_self t)) h₂
  have hlinked : s ≠ [] → ∃ p, b₂.Leads p t := by
    intro hne
    cases hcur : b₁.current with
    | none => exact absurd ((hs₁ s hs).eq_nil hcur) hne
    | some c => exact ⟨c, hleads c hcur⟩
  obtain ⟨hg₄, hf₄, hs₄, hd₄, -⟩ := enter_staged hg₃ hst hlinked h₃
  refine ⟨_, hg₄, ?_, hs₄, hd₄, hnodes⟩
  refine ((hf₁.andThen hf₂ ?_).andThen hf₃ ?_).andThen hf₄ ?_
  all_goals simp [hid]

theorem run_openBlock_of_open {c : Nat} {d : Draft} (hcur : b.current = some c)
    (hd : b.drafts[c]? = some d) (hopen : d.exits = .openEnd) :
    openBlock.run b = .ok (c, b) := by
  rw [openBlock]
  refine run_bind.mpr ⟨b, b, run_get.mpr ⟨rfl, rfl⟩, ?_⟩
  simp only [hcur]
  refine run_bind.mpr ⟨d, b, run_draft.mpr ⟨by simp [hd], rfl⟩, ?_⟩
  rw [if_pos hopen]
  exact run_pure.mpr ⟨rfl, rfl⟩

/-- The block that takes the next node holds what waits. -/
theorem openBlock_staged (h : b.Staged U G) (hs : b.Holds G s)
    (hrun : openBlock.run b = .ok (t, b')) :
    ∃ G' d, b'.Staged U G' ∧ Follows [] b G b' G' ∧ b'.Holds G' s ∧ b'.current = some t ∧
      b'.drafts[t]? = some d ∧ d.exits = .openEnd ∧ b'.nodes = b.nodes := by
  rcases run_openBlock hrun with ⟨rfl, hcur, hopen⟩ | ⟨b₁, h₁, rfl⟩
  · obtain ⟨hentered, d, hd, -⟩ := h.current t hcur
    simp only [Array.getD_eq_getD_getElem?, hd, Option.getD_some] at hopen
    exact ⟨G, d, h, .refl [] b' G, hs, hcur, hd, hopen, rfl⟩
  · obtain ⟨G', hg, hf, hs', hd, hn⟩ := nextBlock_staged h hs h₁
    exact ⟨G', _, hg, hf, hs', rfl, hd, rfl, hn⟩

/-- A plain node is placed in the open current block. -/
theorem emit_open {kind : NodeKind} {id : NodeId} {c : Nat} {d : Draft} (h : b.Staged U G)
    (hs : b.Holds G s) (hcur : b.current = some c) (hd : b.drafts[c]? = some d)
    (hopen : d.exits = .openEnd) (hdirect : ∀ o ∈ kind.direct, b.Has G c o)
    (hwaits : kind.setsLocal = false → ∀ o ∈ kind.direct, o ∈ s)
    (harms : ∀ o ∈ kind.arms, ∃ w e, G.stage c = some ⟨w, e⟩ ∧ b.Arm G c w o)
    (hcode : kind.isEffect = false → ∀ {b' : Building}, Follows [] b G b' G →
      b.Placed kind b.nodes.size b' → ∀ w e, G.stage c = some ⟨w, e⟩ →
      b'.Codes U c w b.nodes.size kind)
    (hrun : (emit kind).run b = .ok (id, b')) :
    b'.Staged U G ∧ Follows [] b G b' G ∧
      b'.Holds G (if kind.isEffect then [] else id :: s) ∧ b.Placed kind id b' ∧
      b'.current = some c ∧ (∃ d : Draft, b'.drafts[c]? = some d ∧ d.exits = .openEnd) ∧
      ∀ o, b.Has G c o → b'.Has G c o := by
  rw [emit, run_bind] at hrun
  obtain ⟨t, b₁, h₁, h₂⟩ := hrun
  rw [run_openBlock_of_open hcur hd hopen] at h₁
  cases h₁
  obtain ⟨rfl, hb⟩ : id = b.nodes.size ∧ b' = { b with
      nodes := b.nodes.push ⟨b.nodes.size, c, kind⟩
      drafts := b.drafts.modify c fun d => { d with nodes := d.nodes ++ [b.nodes.size] }
      current := b.current } := by
    rw [run_pushNode] at h₂
    cases h₂
    exact ⟨rfl, rfl⟩
  have hn : b'.nodes[b.nodes.size]? = some ⟨b.nodes.size, c, kind⟩ := by simp [hb]
  have hcur' : b'.current = some c := by simp [hb, hcur]
  have hd' : b'.drafts[c]? = some { d with nodes := d.nodes ++ [b.nodes.size] } := by
    simp [hb, Array.getElem?_modify, hd]
  have hplaced : b.Placed kind b.nodes.size b' := {
    node := ⟨_, hn, rfl⟩
    yields := ⟨Nat.le_refl _, ⟨_, hn, hcur'⟩, c, hcur', _, hd', by simp⟩
    begins := ⟨Nat.le_refl _, by simp [hb], fun c₁ hcur₁ hd₁ => by
      cases hcur.symm.trans hcur₁
      cases hd.symm.trans hd₁
      exact ⟨_, hd', rfl⟩⟩ }
  obtain ⟨hg, hf, hs', hhas⟩ := place_staged h hs hcur hd hopen hdirect hwaits harms
    (e := .openEnd) (by simp [hopen]) rfl (List.forall_mem_nil _) (.inr ⟨hcur, trivial⟩)
    (fun heffect hf => hcode heffect hf hplaced) hb
  exact ⟨hg, hf, hs' hcur, hplaced, hcur', ⟨_, hd', hopen⟩, hhas⟩

/-- A node goes where its operands wait. -/
theorem emit_staged {kind : NodeKind} {id : NodeId} (h : b.Staged U G) (hs : b.Holds G s)
    (hdirect : ∀ o ∈ kind.direct, o ∈ s) (harms : kind.arms = [])
    (hcode : kind.isEffect = false → b.Expects U fun L k => L.node k kind)
    (hrun : (emit kind).run b = .ok (id, b')) :
    ∃ G', b'.Staged U G' ∧ Follows [] b G b' G' ∧
      b'.Holds G' (if kind.isEffect then [] else id :: s) ∧ b.Placed kind id b' ∧
      ∃ (c : Nat) (d : Draft), b'.current = some c ∧ b'.drafts[c]? = some d ∧ d.exits = .openEnd ∧
        ∀ o ∈ s, b'.Has G' c o := by
  have hrun' := hrun
  rw [emit, run_bind] at hrun'
  obtain ⟨t, b₁, h₁, h₂⟩ := hrun'
  obtain ⟨G₁, d, hg₁, hf₁, hs₁, hcur, hd, hopen, hnodes⟩ := openBlock_staged h hs h₁
  have hrun₁ : (emit kind).run b₁ = .ok (id, b') := by
    rw [emit]
    exact run_bind.mpr ⟨t, b₁, run_openBlock_of_open hcur hd hopen, h₂⟩
  obtain ⟨hg₂, hf₂, hs₂, hplaced, hcur₂, ⟨d₂, hd₂, hopen₂⟩, hhas⟩ := emit_open hg₁ hs₁ hcur hd
    hopen (fun o ho => hs₁.has hcur (hdirect o ho)) (fun _ => hdirect) (by simp [harms])
    (fun heffect {b''} hf hplaced w e _ => by
      obtain ⟨x, first, hx, hvalue⟩ :=
        Expects.follow (hcode heffect) hf₁ hf.grows.embeds hplaced.node
      exact ⟨x, first, hx, hvalue, .of_arms harms⟩) hrun₁
  obtain ⟨hnode, hyields, hbegins⟩ := hplaced
  refine ⟨G₁, hg₂, hf₁.trans hf₂, hs₂, ⟨hnode, { hyields with fresh := hnodes ▸ hyields.fresh },
    { hbegins with fresh := hnodes ▸ hbegins.fresh, starts := ?_ }⟩,
    t, d₂, hcur₂, hd₂, hopen₂, fun o ho => hhas o (hs₁.has hcur ho)⟩
  intro c hc hdc
  cases (run_openBlock_of_open hc hdc rfl).symm.trans h₁
  exact hbegins.starts _ hc hdc

/-- It has been decided that the values wait in a block, unless it was decided before. -/
structure Decides (G G' : Stages) (s : List NodeId) (t : Nat) : Prop where
  claimed : G.stage t = none → G'.stage t = some ⟨s, none⟩
  decided : ∀ st, G.stage t = some st → G'.stage t = some st

/-- A test leads to a block where the values wait. -/
structure Reaches (b : Building) (G G' : Stages) (s : List NodeId) (t : Nat) : Prop where
  decides : Decides G G' s t
  linked : ∃ p, b.Leads p t

theorem Reaches.of_claims {e : Nat} (ht : b.Ready G s t) (he : b.Ready G s e)
    (id : NodeId) {x : Nat} (hx : x = t ∨ x = e) :
    ∃ st, ((G.claim t (id :: s)).claim e (id :: s)).stage x = some st ∧
      (∀ o ∈ st.waits, o ∈ id :: s) ∧ (st.waits = [] ∨ st.entered = none) ∧
      (G.stage x = none → st = ⟨id :: s, none⟩) ∧ ∀ st', G.stage x = some st' → st = st' := by
  have hready : b.Ready G s x := by
    rcases hx with rfl | rfl
    · exact ht
    · exact he
  cases hst : G.stage x with
  | some st =>
      obtain ⟨hsub, hopen⟩ := hready.2 st hst
      exact ⟨st, Stages.claim_keeps (Stages.claim_keeps hst),
        fun o ho => List.mem_cons_of_mem _ (hsub o ho), hopen, nofun,
        fun st' h => Option.some.inj h⟩
  | none =>
      refine ⟨⟨id :: s, none⟩, ?_, fun _ ho => ho, .inr rfl, fun _ => rfl, nofun⟩
      by_cases hxt : x = t
      · subst hxt
        refine Stages.claim_keeps ?_
        rw [Stages.claim_of_none hst, Stages.set_self]
      · obtain rfl := hx.resolve_left hxt
        rw [Stages.claim_of_none ((Stages.claim_other hxt).trans hst), Stages.set_self]

/-- The block of the node emitted last is closed by a test of it. -/
theorem branch_staged {id : NodeId} {e : Nat} (h : b.Staged U G) (hs : b.Holds G (id :: s))
    (hrests : b.Rests id) (ht : b.Ready G s t) (he : b.Ready G s e)
    (hrun : (branch id t e).run b = .ok (u, b')) :
    ∃ G', b'.Staged U G' ∧ Follows [t, e] b G b' G' ∧ b'.current = none ∧
      Reaches b' G G' (id :: s) t ∧ Reaches b' G G' (id :: s) e ∧
      b'.listing.tests b.drafts.size id t e ∧
      ∀ p x : Nat, x < b.drafts.size → b'.Leads p x →
        b.Leads p x ∨ p = b.drafts.size ∧ (x = t ∨ x = e) := by
  obtain ⟨test, b₁, h₁, h₂⟩ := run_branch hrests hrun
  obtain ⟨n, -, hcur⟩ := hrests
  generalize n.block = c at hcur
  rw [run_newDraft] at h₁
  cases h₁
  rw [run_closeWith] at h₂
  simp only [hcur] at h₂
  obtain rfl : b.tested c id t e = b' := by
    cases h₂
    rfl
  obtain ⟨hg₁, hf₁, hs₁⟩ := claim_staged h ht.1 (id :: s)
  obtain ⟨hg₂, hf₂, hs₂⟩ := claim_staged hg₁ he.1 (id :: s)
  have hreach {x : Nat} (hx : x = t ∨ x = e) := Reaches.of_claims ht he id hx
  have hclaims : Follows [t, e] b G b ((G.claim t (id :: s)).claim e (id :: s)) :=
    (hf₁.weaken (by simp)).andThen hf₂ (by simp)
  have hheld := hs₂ _ (hs₁ _ hs)
  generalize (G.claim t (id :: s)).claim e (id :: s) = G₁ at hg₂ hreach hclaims hheld
  have hlt := hg₂.lt_current hcur
  obtain ⟨⟨w, entrance, hst⟩, d, hd, hpending⟩ := hg₂.current c hcur
  have hc := hg₂.begun c d w entrance hd hst
  obtain ⟨waiting, hruns, -⟩ := hc.runs
  have hne {i : Nat} (hi : i < b.drafts.size) : i ≠ b.drafts.size := Nat.ne_of_lt hi
  have hdc : (b.tested c id t e).drafts[c]? = _ := tested_source hd
  have hdt : (b.tested c id t e).drafts[b.drafts.size]? = _ := tested_test hlt
  have hleads {p x : Nat} (hx : x < b.drafts.size) (hp : (b.tested c id t e).Leads p x) :=
    tested_leads hd hpending hx hp
  have hf : Follows [t, e] b G₁ (b.tested c id t e)
      (G₁.enter b.drafts.size (id :: s) b.nodes.size) := by
    refine ⟨tested_grows hcur, Nat.le_succ _, fun i hi _ => Stages.enter_other _ _ _ (hne hi),
      fun i st hi => ⟨st, ?_, rfl, fun _ he => he, fun _ he => .inl he⟩,
      fun x hflat hx p hp => ?_⟩
    · exact (Stages.enter_other _ _ _ (hne (hg₂.size_of_stage hi))).trans hi
    · have hlt : x < b.drafts.size := by
        rcases hx with ⟨hlt, -⟩ | ⟨w', e', hst'⟩
        · exact hlt
        · exact hg₂.size_of_stage hst'
      rcases hleads hlt hp with hp | ⟨-, htarget⟩
      · exact hp
      -- Nothing waits in a target, or it has not begun.
      rcases hx with ⟨-, hx⟩ | ⟨w', e', hst'⟩
      · simp only [List.mem_cons, List.not_mem_nil, or_false] at hx
        exact absurd htarget hx
      · obtain ⟨st, hstx, -, hopen, -⟩ := hreach htarget
        cases hst'.symm.trans hstx
        rcases hopen with hnone | hopen
        · exact absurd ⟨_, hst', hnone⟩ hflat
        · cases hopen
  have hlinked : (b.tested c id t e).Leads c b.drafts.size :=
    ⟨_, hdc, by simp [hpending.onward_link]⟩
  have hclosed : (b.tested c id t e).Begun U (G₁.enter b.drafts.size (id :: s) b.nodes.size) c
      { d with exits := d.exits.link b.drafts.size } w entrance := by
    have hc' := hc.follow hf hst
    refine { hc' with
      runs := ⟨waiting, hruns, fun x hx => ?_⟩
      raised := fun x hx => hc'.raised x (hpending.raised_link b.drafts.size ▸ hx) }
    rw [hpending.onward_link, List.mem_singleton] at hx
    subst hx
    refine ⟨_, Stages.enter_self .., fun o ho => hheld.mem hcur hd hst hruns ho, ?_⟩
    rintro - _ ⟨⟩
    exact ⟨hc.time, hc.start, fun k hk => hruns.lt hk⟩
  have htest : (b.tested c id t e).Begun U (G₁.enter b.drafts.size (id :: s) b.nodes.size)
      b.drafts.size ⟨[], .branch id t e⟩ (id :: s) ⟨G₁.clock, b.nodes.size⟩ := {
    time := Nat.lt_succ_self _
    start := Nat.le_refl _
    before := fun o ho => by
      rcases hruns.waiting_sub (hheld.mem hcur hd hst hruns ho) with ho | ho
      · exact Nat.lt_of_lt_of_le (hc.before o ho) hc.start
      · exact hruns.lt ho
    after := nofun
    runs := ⟨id :: s, .nil, fun x hx => by
      have hx : x = t ∨ x = e := by simpa [Exits.onward] using hx
      obtain ⟨st, hstx, hsub, hopen, -⟩ := hreach hx
      refine ⟨st, (Stages.enter_other _ _ _ (hne (hg₂.size_of_stage hstx))).trans hstx, hsub, ?_⟩
      intro hwaits e' he'
      rw [hopen.resolve_left hwaits] at he'
      cases he'⟩
    raised := nofun
    linked := fun _ => ⟨c, hlinked⟩
    arms := nofun
    values := nofun }
  have hsize := tested_size b c id t e
  refine ⟨_, hg₂.follow hf (fun i hi => ?_) (fun i d' hd' => ?_)
    (by simp [tested]) (fun path hpath => .inl hpath), hclaims.andThen hf (by simp), rfl, ?_, ?_,
    hdt, fun _ _ => hleads⟩
  · rw [Stages.enter_other _ _ _ (by omega)]
    exact hg₂.outside i (by omega)
  · rcases Nat.lt_trichotomy i b.drafts.size with hi | rfl | hi
    · by_cases hic : i = c
      · subst hic
        rw [hdc] at hd'
        cases hd'
        have hst' := (Stages.enter_other G₁ (id :: s) b.nodes.size (hne hi)).trans hst
        refine .inr ⟨fun hnot => absurd ⟨w, entrance, hst'⟩ hnot, fun w' e' hstw => ?_⟩
        rw [hst'] at hstw
        cases hstw
        exact hclosed
      · exact .inl ⟨(tested_other hi hic).symm.trans hd', Stages.enter_other _ _ _ (hne hi)⟩
    · rw [hdt] at hd'
      cases hd'
      refine .inr ⟨fun hnot => absurd ⟨_, _, Stages.enter_self ..⟩ hnot, fun w' e' hstw => ?_⟩
      rw [Stages.enter_self] at hstw
      cases hstw
      exact htest
    · have hlt' := (Array.getElem?_eq_some_iff.mp hd').1
      omega
  · obtain ⟨st, hstx, -, -, hclaimed, hdecided⟩ := hreach (.inl rfl)
    have hstx' := (Stages.enter_other G₁ (id :: s) b.nodes.size
      (hne (hg₂.size_of_stage hstx))).trans hstx
    exact ⟨⟨fun hnone => hclaimed hnone ▸ hstx', fun st' hst' => hdecided st' hst' ▸ hstx'⟩,
      _, _, hdt, by simp [Exits.onward]⟩
  · obtain ⟨st, hstx, -, -, hclaimed, hdecided⟩ := hreach (.inr rfl)
    have hstx' := (Stages.enter_other G₁ (id :: s) b.nodes.size
      (hne (hg₂.size_of_stage hstx))).trans hstx
    exact ⟨⟨fun hnone => hclaimed hnone ▸ hstx', fun st' hst' => hdecided st' hst' ▸ hstx'⟩,
      _, _, hdt, by simp [Exits.onward]⟩

end Build

end FlowTyping
