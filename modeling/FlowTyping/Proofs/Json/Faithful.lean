import FlowTyping.Proofs.Json.Documents

/-!
Documents written of values that were read. The reader of such a document gives one value as long
as nothing of the document is cut, and none once something is; and the document is at most one
level deeper than the one that the value was read from. These properties are carried from the parts
of a document to the whole.
-/

namespace FlowTyping

namespace Json

variable {α β : Type} {a : α} {b : β} {d n : Nat} {v : Json}

/-- The reader of a document gives `a`, given as many levels as the document has, and nothing if
the document is cut. The document has at most one level more than `d`. -/
structure Faithful (read : Nat → Json → Option α) (v : Json) (a : α) (d : Nat) : Prop where
  fits : v.Fits (d + 1)
  read_eq : ∀ n, v.depth ≤ n → read (n + 1) v = some a
  uncut : ∀ n limit, (read n (v.within limit)).isSome = true → v.depth ≤ limit

/-- What is read with some number of levels is written as a document that is read as `after`
says. -/
def Restores (read : Nat → Json → Option α) (write : α → Json) (after : α → α) (n : Nat) : Prop :=
  ∀ v a, read n v = some a → Faithful read (write a) (after a) v.depth

section Cutting

theorem itemsWithin_eq_map (limit : Nat) (items : List Json) :
    itemsWithin limit items = items.map (within limit) := by
  induction items with
  | nil => rfl
  | cons v more ih => rw [itemsWithin, ih, List.map_cons]

theorem fieldsWithin_eq_map (limit : Nat) (fields : List (String × Json)) :
    fieldsWithin limit fields = fields.map fun f => (f.1, within limit f.2) := by
  induction fields with
  | nil => rfl
  | cons f more ih => rw [fieldsWithin, ih, List.map_cons]

theorem depth_arr_le {items : List Json} :
    (arr items).depth ≤ n + 1 ↔ ∀ v ∈ items, v.depth ≤ n := by
  rw [depth, Nat.add_le_add_iff_right, itemsDepth_le_iff]

theorem depth_obj_le {fields : List (String × Json)} :
    (obj fields).depth ≤ n + 1 ↔ ∀ f ∈ fields, f.2.depth ≤ n := by
  rw [depth, Nat.add_le_add_iff_right, fieldsDepth_le_iff]

theorem depth_tagged (name : String) (v : Json) : (tagged name v).depth = v.depth + 1 := by
  simp [tagged, depth, fieldsDepth]

theorem within_tagged (limit : Nat) (name : String) (v : Json) :
    (tagged name v).within (limit + 1) = tagged name (v.within limit) := rfl

theorem within_ne_null {limit : Nat} (h : v ≠ .null) : v.within limit ≠ .null := by
  cases v <;> cases limit <;> simp_all [within]

theorem within_zero (h : v.depth ≠ 0) : v.within 0 = .unreadable := by
  cases v <;> first | rfl | exact absurd rfl h

end Cutting

namespace Faithful

variable {read : Nat → Json → Option α} {write : α → Json} {after : α → α}

theorem mono {e : Nat} (h : Faithful read v a d) (hde : d ≤ e) : Faithful read v a e :=
  ⟨h.fits.mono (by omega), h.read_eq, h.uncut⟩

/-- A document without parts is never cut. -/
theorem leaf {read : Json → Option α} (hfits : v.Fits 0) (hread : read v = some a) :
    Faithful (fun _ => read) v a d :=
  ⟨hfits.mono (by omega), fun _ _ => hread,
    fun _ _ _ => Nat.le_trans hfits.depth_le (Nat.zero_le _)⟩

/-- A document of one level is cut as a whole. -/
theorem shallow {read : Json → Option α} (hfits : v.Fits 1) (hcut : read .unreadable = none)
    (hread : read v = some a) : Faithful (fun _ => read) v a d where
  fits := hfits.mono (by omega)
  read_eq := fun _ _ => hread
  uncut := by
    intro n limit hsome
    cases limit with
    | zero =>
        by_cases hdepth : v.depth = 0
        · exact Nat.le_of_eq hdepth
        · simp [within_zero hdepth, hcut] at hsome
    | succ limit => exact Nat.le_trans hfits.depth_le (by omega)

theorem str (s : String) : Faithful (fun _ => string?) (.str s) s d := leaf (Fits.str s) rfl

theorem bare {name : String} (h : ∀ n, read (n + 1) (.str name) = some a) :
    Faithful read (.str name) a d :=
  ⟨Fits.str name, fun n _ => h n, fun _ _ _ => Nat.zero_le _⟩

/-- A document under a name. A reader that is given no level reads nothing, or does not count. -/
theorem tagged {part : Nat → Json → Option β} {f : β → α} {name : String}
    (hzero : ∀ v, (read 0 v).isSome = true → (read 1 v).isSome = true)
    (hcut : ∀ n, read n .unreadable = none)
    (hread : ∀ n v, read (n + 1) (Json.tagged name v) = (part n v).map f)
    (h : Faithful part v b d) : Faithful read (Json.tagged name v) (f b) (d + 1) where
  fits := Fits.tagged.mpr h.fits
  read_eq := by
    intro n hn
    rw [depth_tagged] at hn
    cases n with
    | zero => omega
    | succ n =>
        rw [hread, h.read_eq n (Nat.le_of_succ_le_succ hn)]
        rfl
  uncut := by
    intro n limit hsome
    obtain ⟨n, hsome⟩ : ∃ n, (read (n + 1) ((Json.tagged name v).within limit)).isSome = true := by
      cases n with
      | zero => exact ⟨0, hzero _ hsome⟩
      | succ n => exact ⟨n, hsome⟩
    rw [depth_tagged]
    cases limit with
    | zero =>
        have hunreadable : (Json.tagged name v).within 0 = .unreadable := rfl
        simp [hunreadable, hcut] at hsome
    | succ limit =>
        rw [within_tagged, hread, Option.isSome_map] at hsome
        exact Nat.succ_le_succ (h.uncut n limit hsome)

/-- The documents of a list. -/
theorem list {as : List α} (h : ∀ a ∈ as, Faithful read (write a) (after a) d) :
    Faithful (fun n => list? (read n)) (.arr (as.map write)) (as.map after) (d + 1) where
  fits := by
    rw [Fits.arr]
    intro v hv
    obtain ⟨a, ha, rfl⟩ := List.mem_map.mp hv
    exact (h a ha).fits
  read_eq := by
    intro n hn
    cases n with
    | zero => simp [depth] at hn
    | succ n =>
        rw [depth_arr_le] at hn
        rw [list?]
        induction as with
        | nil => rfl
        | cons a more ih =>
            rw [List.forall_mem_cons] at h
            rw [List.map_cons, List.forall_mem_cons] at hn
            rw [List.map_cons, List.mapM_cons, h.1.read_eq (n + 1) (by omega), ih h.2 hn.2]
            rfl
  uncut := by
    intro n limit hsome
    cases limit with
    | zero => simp [within, list?] at hsome
    | succ limit =>
        rw [depth_arr_le]
        rw [within, itemsWithin_eq_map, list?, List.map_map] at hsome
        induction as with
        | nil => exact fun v hv => absurd hv List.not_mem_nil
        | cons a more ih =>
            rw [List.forall_mem_cons] at h
            rw [List.map_cons, List.mapM_cons] at hsome
            obtain ⟨as', has⟩ := Option.isSome_iff_exists.mp hsome
            simp only [Option.bind_eq_bind, Option.bind_eq_some_iff] at has
            obtain ⟨a', ha', more', hmore', -⟩ := has
            rw [List.map_cons, List.forall_mem_cons]
            exact ⟨h.1.uncut n limit (Option.isSome_iff_exists.mpr ⟨a', ha'⟩),
              ih h.2 (Option.isSome_iff_exists.mpr ⟨more', hmore'⟩)⟩

/-- The empty list has one level. -/
theorem nil : Faithful (fun n => list? (read n)) (.arr []) [] d :=
  have h : Faithful (fun n => list? (read n)) (.arr (([] : List α).map fun _ => .null))
      (([] : List α).map id) (0 + 1) := list nofun
  ⟨Fits.arr.mpr nofun, h.read_eq, h.uncut⟩

theorem absent : Faithful (fun n => optional? (read n)) .null none d :=
  ⟨Fits.null, fun _ _ => rfl, fun _ _ _ => Nat.zero_le _⟩

/-- A document that is not null is read alike where null is allowed. -/
theorem present (h : Faithful read v a d) (hnull : v ≠ .null) :
    Faithful (fun n => optional? (read n)) v (some a) d where
  fits := h.fits
  read_eq := by
    intro n hn
    rw [optional?_of_ne_null hnull, h.read_eq n hn]
    rfl
  uncut := by
    intro n limit hsome
    rw [optional?_of_ne_null (within_ne_null hnull), Option.isSome_map] at hsome
    exact h.uncut n limit hsome

end Faithful

section Fields

/-- Readers of the parts of a record, one after another. -/
def noParts (_ : Nat) (_ : List Json) : Option Unit := some ()

def thenParts (read : Nat → Json → Option α) (more : Nat → List Json → Option β) (n : Nat) :
    List Json → Option (α × β)
  | [] => none
  | v :: rest => (read n v).bind fun a => (more n rest).map fun b => (a, b)

/-- The parts of a record are faithful, one after another. -/
structure FaithfulParts (read : Nat → List Json → Option α) (parts : List Json) (a : α) (d : Nat) :
    Prop where
  fits : ∀ v ∈ parts, v.Fits (d + 1)
  read_eq : ∀ n, (∀ v ∈ parts, v.depth ≤ n) → read (n + 1) parts = some a
  uncut : ∀ n limit, (read n (parts.map (within limit))).isSome = true →
    ∀ v ∈ parts, v.depth ≤ limit

theorem faithful_noParts : FaithfulParts noParts [] () d :=
  ⟨nofun, fun _ _ => rfl, fun _ _ _ => nofun⟩

theorem Faithful.thenParts {read : Nat → Json → Option α} {more : Nat → List Json → Option β}
    {rest : List Json} (h : Faithful read v a d) (hrest : FaithfulParts more rest b d) :
    FaithfulParts (thenParts read more) (v :: rest) (a, b) d where
  fits := List.forall_mem_cons.mpr ⟨h.fits, hrest.fits⟩
  read_eq := by
    intro n hn
    rw [List.forall_mem_cons] at hn
    rw [Json.thenParts, h.read_eq n hn.1, hrest.read_eq n hn.2]
    rfl
  uncut := by
    intro n limit hsome
    rw [List.map_cons, Json.thenParts] at hsome
    obtain ⟨ab, hab⟩ := Option.isSome_iff_exists.mp hsome
    obtain ⟨a', ha', hb⟩ := Option.bind_eq_some_iff.mp hab
    obtain ⟨b', hb', -⟩ := Option.map_eq_some_iff.mp hb
    exact List.forall_mem_cons.mpr
      ⟨h.uncut n limit (Option.isSome_iff_exists.mpr ⟨a', ha'⟩),
        hrest.uncut n limit (Option.isSome_iff_exists.mpr ⟨b', hb'⟩)⟩

theorem FaithfulParts.map {read : Nat → List Json → Option α} {parts : List Json}
    (h : FaithfulParts read parts a d) (f : α → β) :
    FaithfulParts (fun n vs => (read n vs).map f) parts (f a) d where
  fits := h.fits
  read_eq := fun n hn => congrArg (Option.map f) (h.read_eq n hn)
  uncut := fun n limit hsome => h.uncut n limit (by rwa [Option.isSome_map] at hsome)

/-- A record whose reader takes its fields in written order. -/
theorem Faithful.obj {read : Nat → Json → Option α} {parts : Nat → List Json → Option α}
    {fields : List (String × Json)} (hcut : ∀ n, read n .unreadable = none)
    (hread : ∀ n (c : Json → Json), read n (.obj (fields.map fun f => (f.1, c f.2))) =
      parts n (fields.map fun f => c f.2))
    (h : FaithfulParts parts (fields.map Prod.snd) a d) :
    Faithful read (.obj fields) a (d + 1) where
  fits := by
    rw [Fits.obj]
    intro f hf
    exact h.fits f.2 (List.mem_map_of_mem hf)
  read_eq := by
    intro n hn
    cases n with
    | zero => simp [depth] at hn
    | succ n =>
        rw [depth_obj_le] at hn
        have hid : fields.map (fun f => (f.1, id f.2)) = fields := List.map_id fields
        have hwhole := hread (n + 1 + 1) id
        have hparts := h.read_eq (n + 1) (by
          intro v hv
          obtain ⟨f, hf, rfl⟩ := List.mem_map.mp hv
          exact Nat.le_succ_of_le (hn f hf))
        rw [hid] at hwhole
        exact hwhole.trans hparts
  uncut := by
    intro n limit hsome
    cases limit with
    | zero => simp [within, hcut] at hsome
    | succ limit =>
        rw [depth_obj_le]
        intro f hf
        rw [within, fieldsWithin_eq_map, hread] at hsome
        have hparts : fields.map (fun f => within limit f.2) =
            (fields.map Prod.snd).map (within limit) := by
          rw [List.map_map]
          rfl
        rw [hparts] at hsome
        exact h.uncut n limit hsome f.2 (List.mem_map_of_mem hf)

/-- A record under a name. -/
theorem Faithful.record {read : Nat → Json → Option α} {parts : Nat → List Json → Option α}
    {name : String} {fields : List (String × Json)}
    (hzero : ∀ v, (read 0 v).isSome = true → (read 1 v).isSome = true)
    (hcut : ∀ n, read n .unreadable = none) (hinner : ∀ n, read n (.tagged name .unreadable) = none)
    (hread : ∀ n (c : Json → Json),
      read (n + 1) (.tagged name (.obj (fields.map fun f => (f.1, c f.2)))) =
        parts n (fields.map fun f => c f.2))
    (h : FaithfulParts parts (fields.map Prod.snd) a d) :
    Faithful read (.tagged name (.obj fields)) a (d + 2) :=
  have hobj : Faithful (fun n v => read (n + 1) (.tagged name v)) (.obj fields) a (d + 1) :=
    Faithful.obj (fun n => hinner (n + 1)) hread h
  hobj.tagged (f := id) hzero hcut fun _ _ => Option.map_id'.symm

end Fields

section Sources

variable {read : Nat → Json → Option α} {write : α → Json} {after : α → α}

/-- The documents of the fields that were read have at most `d` levels. -/
def FieldsWithin (r : String → Option Json) (d : Nat) : Prop :=
  ∀ name v, r name = some v → v.depth ≤ d

theorem depth_payload {name : String} {w : Json} (h : v.choice? = some (name, some w)) :
    w.depth + 1 ≤ v.depth := by
  cases v with
  | obj fields =>
      match fields, h with
      | [(_, u)], h =>
          obtain ⟨-, hu⟩ := Prod.mk.inj (Option.some.inj h)
          obtain rfl := Option.some.inj hu
          simp [depth, fieldsDepth]
  | _ => simp [choice?] at h

theorem record?_fields {names : List String} {r : String → Option Json}
    (h : record? names v = some r) : ∃ d, d + 1 ≤ v.depth ∧ FieldsWithin r d := by
  cases v with
  | obj fields =>
      refine ⟨fieldsDepth fields, by simp [depth], ?_⟩
      intro name w hw
      obtain ⟨-, hr⟩ := Option.ite_none_right_eq_some.mp h
      obtain rfl := Option.some.inj hr
      obtain ⟨f, hf, rfl⟩ := Option.map_eq_some_iff.mp hw
      exact fieldsDepth_le_iff.mp (Nat.le_refl _) f (List.mem_of_find?_eq_some hf)
  | arr items =>
      refine ⟨itemsDepth items, by simp [depth], ?_⟩
      intro name w hw
      obtain ⟨-, hr⟩ := Option.ite_none_right_eq_some.mp h
      obtain rfl := Option.some.inj hr
      exact itemsDepth_le_iff.mp (Nat.le_refl _) w (List.mem_of_getElem? hw)
  | _ => simp [record?] at h

theorem restores_string (n : Nat) : Restores (fun _ => string?) .str id n := by
  intro v s h
  cases v with
  | str t =>
      obtain rfl := Option.some.inj h
      exact Faithful.str t
  | _ => simp [string?] at h

/-- The fields of a record under a name are two levels below it. -/
theorem record?_source {name : String} {payload : Option Json} {names : List String}
    {r : String → Option Json} (hv : v.choice? = some (name, payload))
    (hr : payload.bind (record? names) = some r) : ∃ d, d + 2 ≤ v.depth ∧ FieldsWithin r d := by
  obtain ⟨w, rfl, hw⟩ := Option.bind_eq_some_iff.mp hr
  obtain ⟨d, hd, hfields⟩ := record?_fields hw
  have hpayload := depth_payload hv
  exact ⟨d, by omega, hfields⟩

theorem exists_of_mapM_eq_some {read : Json → Option α} {items : List Json} {as : List α}
    (h : items.mapM read = some as) : ∀ a ∈ as, ∃ v ∈ items, read v = some a := by
  induction items generalizing as with
  | nil =>
      obtain rfl := Option.some.inj h
      exact nofun
  | cons v more ih =>
      rw [List.mapM_cons] at h
      obtain ⟨a, ha, h⟩ := Option.bind_eq_some_iff.mp h
      obtain ⟨rest, hrest, h⟩ := Option.bind_eq_some_iff.mp h
      obtain rfl := Option.some.inj h
      intro a' ha'
      obtain rfl | ha' := List.mem_cons.mp ha'
      · exact ⟨v, List.mem_cons_self, ha⟩
      · obtain ⟨w, hw, hread⟩ := ih hrest a' ha'
        exact ⟨w, List.mem_cons_of_mem v hw, hread⟩

theorem Restores.list (h : Restores read write after n) :
    Restores (fun n => list? (read n)) (fun as => .arr (as.map write)) (List.map after) n := by
  intro v as has
  cases v with
  | arr items =>
      have hitems : ∀ a ∈ as, Faithful read (write a) (after a) (itemsDepth items) := by
        intro a ha
        obtain ⟨v, hv, hread⟩ := exists_of_mapM_eq_some has a ha
        exact (h v a hread).mono (itemsDepth_le_iff.mp (Nat.le_refl _) v hv)
      exact Faithful.list hitems
  | _ => simp [list?] at has

theorem restores_strings (n : Nat) :
    Restores (fun _ => list? string?) (ofList .str) id n := by
  intro v ss h
  have hlist := (restores_string n).list v ss h
  rwa [List.map_id] at hlist

theorem Restores.optional (h : Restores read write after n) (hnull : ∀ a, write a ≠ .null) :
    Restores (fun n => optional? (read n)) (ofOption write) (Option.map after) n := by
  intro v o ho
  by_cases hv : v = .null
  · subst hv
    obtain rfl := Option.some.inj ho
    exact Faithful.absent
  · obtain ⟨a, ha, rfl⟩ := Option.map_eq_some_iff.mp ((optional?_of_ne_null hv).symm.trans ho)
    exact (h v a ha).present (hnull a)

section FieldSources

variable {r : String → Option Json} {name : String}

theorem Restores.required (h : Restores read write after n) (hr : FieldsWithin r d)
    (ha : required (read n) (r name) = some a) : Faithful read (write a) (after a) d := by
  obtain ⟨v, hv, hread⟩ := Option.bind_eq_some_iff.mp ha
  exact (h v a hread).mono (hr name v hv)

theorem Restores.defaulted (h : Restores read write after n) (hr : FieldsWithin r d) {absent : α}
    (habsent : Faithful read (write absent) (after absent) d)
    (ha : defaulted (read n) absent (r name) = some a) :
    Faithful read (write a) (after a) d := by
  cases hv : r name with
  | none =>
      rw [hv] at ha
      obtain rfl := Option.some.inj ha
      exact habsent
  | some v =>
      rw [hv] at ha
      exact (h v a ha).mono (hr name v hv)

theorem Restores.nullable (h : Restores read write after n) (hnull : ∀ a, write a ≠ .null)
    (hr : FieldsWithin r d) {o : Option α} (ho : nullable (read n) (r name) = some o) :
    Faithful (fun n => optional? (read n)) (ofOption write o) (o.map after) d :=
  (h.optional hnull).defaulted hr Faithful.absent ho

/-- A list that need not be given. -/
theorem Restores.defaultedList (h : Restores read write after n) (hr : FieldsWithin r d)
    {as : List α} (has : Json.defaulted (list? (read n)) [] (r name) = some as) :
    Faithful (fun n => list? (read n)) (.arr (as.map write)) (as.map after) d :=
  h.list.defaulted hr Faithful.nil has

end FieldSources

end Sources

end Json

end FlowTyping
