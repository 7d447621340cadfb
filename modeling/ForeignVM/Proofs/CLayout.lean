import ForeignVM.Proofs.Placement
import ForeignVM.Proofs.WellFounded

/-!
# ForeignVM.Proofs.CLayout

The layouts of a valid table are those of a C compiler, where sizes fit into a word. The fields of
a struct follow one another, each at the first multiple of its alignment, and those of a union share
their place. The alignment of an aggregate is the greatest of those of its fields, and its size the
first multiple of that alignment with room for them all.

* `Aggregated.places`    — the offsets and shapes of the fields.
* `Aggregated.Arranged`  — how the fields of a struct, or of a union, lie, and the size.
* `Layouts.Conforms`     — the layout of an aggregate, as its definition asks for it.
* `Layouts.MatchesC`     — what holds of all shapes of a table; `matchesC_of_compute`, and
  `TypeTable.c_layout_of_valid` for every valid table.
-/

namespace ForeignVM

/-- Where the fields lie, in declaration order. -/
def Aggregated.places (layout : AggregateLayout) : List (Nat × Shape) :=
  layout.fields.map fun f => (f.offset, f.shape)

namespace Layouts

variable {entries : List (String × TypeId)} {shapes : List Shape} {offsets : List Nat}

/-- The fields keep the names and types of the entries, in their order, and take the shapes and
the offsets. -/
theorem map_fieldLayouts (hlength : shapes.length = entries.length)
    (hoffsets : offsets.length = entries.length) :
    (fieldLayouts entries shapes offsets).map (fun f => (f.name, f.ty)) = entries ∧
      (fieldLayouts entries shapes offsets).map (fun f => (f.offset, f.shape)) =
        offsets.zip shapes := by
  induction entries generalizing shapes offsets with
  | nil => simp_all [fieldLayouts]
  | cons e entries ih =>
    obtain ⟨name, ty⟩ := e
    cases shapes with
    | nil => cases hlength
    | cons s shapes =>
      cases offsets with
      | nil => cases hoffsets
      | cons o offsets =>
        obtain ⟨hentries, hplaces⟩ := ih (Nat.succ.inj hlength) (Nat.succ.inj hoffsets)
        simp [fieldLayouts, hentries, hplaces]

theorem shape_of_mem_fieldLayouts {g : TypeId → Except TypeError Shape}
    (h : (entries.map Prod.snd).mapM g = .ok shapes) {f : FieldLayout}
    (hf : f ∈ fieldLayouts entries shapes offsets) : g f.ty = .ok f.shape := by
  have hall := mapM_eq_ok_iff.mp h
  clear h
  fun_induction fieldLayouts entries shapes offsets with
  | case1 name ty entries s shapes o offsets ih =>
    obtain _ | ⟨hs, hrest⟩ := hall
    rcases List.mem_cons.mp hf with rfl | hf
    · exact hs
    · exact ih hf hrest
  | case2 => cases hf

end Layouts

/-! ## Aggregates -/

/-- How the fields lie and how large the whole is. -/
def Aggregated.Arranged (layout : AggregateLayout) : Prop :=
  match layout.kind with
  | .struct => ∃ stop, Follow 0 layout.places stop ∧
      IsLeast (multiplesFrom layout.align stop) layout.size
  | .union => (∀ f ∈ layout.fields, f.offset = 0) ∧
      IsLeast {m | layout.align ∣ m ∧ ∀ f ∈ layout.fields, f.shape.size ≤ m} layout.size

namespace Aggregated

variable {layout : AggregateLayout}

theorem Arranged.inside (h : layout.Arranged) :
    ∀ f ∈ layout.fields, f.offset + f.shape.size ≤ layout.size := by
  intro f hf
  unfold Arranged at h
  split at h
  · obtain ⟨stop, hfollow, hsize⟩ := h
    exact Nat.le_trans (hfollow.inside _ (List.mem_map_of_mem hf)).2 hsize.1.2
  · obtain ⟨hoffset, hsize⟩ := h
    rw [hoffset f hf, Nat.zero_add]
    exact hsize.1.2 f hf

theorem Arranged.pairwise (h : layout.Arranged) (hkind : layout.kind = .struct) :
    layout.fields.Pairwise fun f g => f.offset + f.shape.size ≤ g.offset := by
  unfold Arranged at h
  rw [hkind] at h
  obtain ⟨stop, hfollow, _⟩ := h
  exact List.pairwise_map.mp hfollow.pairwise

end Aggregated

/-- A struct or a union. -/
def TypeDef.ofKind : AggregateKind → String → OrderedMap TypeId → TypeDef
  | .struct => .struct
  | .union => .union

theorem TypeDef.exists_ofKind {d : TypeDef} (h : d.isAggregate) :
    ∃ kind name fields, d = .ofKind kind name fields := by
  cases d with
  | struct name fields => exact ⟨.struct, name, fields, rfl⟩
  | union name fields => exact ⟨.union, name, fields, rfl⟩
  | _ => cases h

namespace Layouts

variable {l : Layouts} {t : TypeTable}

/-- The layout of the aggregate that a table defines under `id`. -/
structure Conforms (l : Layouts) (id : TypeId) (name : String) (kind : AggregateKind)
    (fields : OrderedMap TypeId) (layout : AggregateLayout) : Prop where
  id : layout.id = id
  name : layout.name = name
  kind : layout.kind = kind
  /-- The fields in declaration order. -/
  fields : layout.fields.map (fun f => (f.name, f.ty)) = fields.entries
  /-- A field is laid out as its type is everywhere. -/
  shape : ∀ f ∈ layout.fields, l.shape f.ty = .ok f.shape
  align : IsGreatest {a | ∃ f ∈ layout.fields, f.shape.align = a} layout.align
  /-- Also where a size or an offset has wrapped around. -/
  aligned : (∀ f ∈ layout.fields, f.shape.align ∣ 2 ^ 64) →
    layout.align ∣ layout.size ∧ ∀ f ∈ layout.fields, f.shape.align ∣ f.offset
  arranged : layout.bounded → layout.Arranged

theorem conforms_aggregateShape (id : TypeId) (name : String) (kind : AggregateKind)
    {fields : OrderedMap TypeId} {parts : List Shape} (hl : l.Aligned)
    (hparts : fields.values.mapM l.shape = .ok parts) (hfields : 0 < fields.size) :
    ∃ layout, aggregateShape id name kind fields parts = .aggregate layout ∧
      l.Conforms id name kind fields layout := by
  have hlength : parts.length = fields.entries.length := by
    rw [length_of_mapM hparts, OrderedMap.values, List.length_map]
  have halign : ∀ s ∈ parts, 0 < s.align := hl.align_pos hparts
  have hne : parts ≠ [] := List.ne_nil_of_length_pos (hlength ▸ hfields)
  let place := Placement.ofKind kind parts
  have hoffsets : place.offsets.length = parts.length := Placement.length_ofKind kind parts
  obtain ⟨hentries, hplaces⟩ := map_fieldLayouts hlength (hoffsets.trans hlength)
  let layout : AggregateLayout := ⟨id, name, kind,
    fieldLayouts fields.entries parts place.offsets, place.size, place.align⟩
  have hplaces : layout.places = place.offsets.zip parts := hplaces
  have hshapes : layout.fields.map (·.shape) = parts := by
    have hsecond := congrArg (List.map Prod.snd) hplaces
    rwa [List.map_snd_zip (Nat.le_of_eq hoffsets.symm), Aggregated.places, List.map_map] at hsecond
  -- what is said of all parts is said of all fields
  have hmem (s : Shape) : s ∈ parts ↔ ∃ f ∈ layout.fields, f.shape = s := by
    rw [← hshapes]
    exact List.mem_map
  have halignment : layout.align = Placement.maxAlign parts := by cases kind <;> rfl
  refine ⟨layout, rfl, rfl, rfl, rfl, hentries, fun f hf => shape_of_mem_fieldLayouts hparts hf,
    ?_, fun hword => ?_, fun hbounded => ?_⟩
  · have hgreatest := Placement.isGreatest_maxAlign hne halign
    simp only [hmem] at hgreatest
    simpa [halignment] using hgreatest
  · have hword : ∀ s ∈ parts, s.align ∣ 2 ^ 64 := by
      intro s hs
      obtain ⟨f, hf, rfl⟩ := (hmem s).mp hs
      exact hword f hf
    obtain ⟨hoffset, hsize⟩ := Placement.align_dvd_ofKind kind hword
    exact ⟨hsize, fun f hf => hoffset (f.offset, f.shape) (hplaces ▸ List.mem_map_of_mem hf)⟩
  · have hbounded : Placement.exactSize kind parts < 2 ^ 64 :=
      hshapes ▸ (Aggregated.bounded_iff.mp hbounded).1
    cases kind with
    | struct =>
      obtain ⟨-, stop, hfollow, hsize⟩ := Placement.follow_ofStruct halign hbounded
      exact ⟨stop, hplaces ▸ hfollow, hsize⟩
    | union =>
      refine ⟨fun f hf => ?_, ?_⟩
      · have hplace : (f.offset, f.shape) ∈ layout.places := List.mem_map_of_mem hf
        rw [hplaces] at hplace
        obtain ⟨_, _, hzero⟩ := List.mem_map.mp (List.of_mem_zip hplace).1
        exact hzero.symm
      · have hleast := Placement.isLeast_ofUnion hbounded
        simp only [hmem, forall_exists_index, and_imp, forall_apply_eq_imp_iff₂] at hleast
        exact hleast

/-! ## All types of a table -/

/-- The shapes are those of a C compiler, whichever types refer to which. -/
structure MatchesC (l : Layouts) (t : TypeTable) : Prop where
  types : l.types = t
  scalar : ∀ {id kind}, t.get? id = some (.scalar kind) → l.shape id = .ok (.scalar kind)
  pointer : ∀ {id pointee}, t.get? id = some (.pointer pointee) →
    l.shape id = .ok (.pointer pointee)
  proc : ∀ {id params ret closure}, t.get? id = some (.proc params ret closure) →
    l.shape id = .ok (.proc closure)
  aggregate : ∀ {id kind name fields}, t.get? id = some (.ofKind kind name fields) →
    ∃ layout, l.shape id = .ok (.aggregate layout) ∧ l.Conforms id name kind fields layout
  absent : ∀ {id}, t.get? id = none → l.shape id = .error (.unknownType id)
  /-- The fields of a struct do not overlap. -/
  apart : ∀ {id layout}, l.shape id = .ok (.aggregate layout) → layout.bounded →
    layout.kind = .struct → layout.fields.Pairwise fun f g => f.offset + f.shape.size ≤ g.offset
  /-- Fields lie inside. -/
  inside : ∀ {id layout}, l.shape id = .ok (.aggregate layout) → layout.bounded →
    ∀ f ∈ layout.fields, f.offset + f.shape.size ≤ layout.size
  /-- Alignments are powers of two, and sizes multiples of them. -/
  power : ∀ {id s}, l.shape id = .ok s → (∃ k, s.align = 2 ^ k) ∧ s.align ∣ s.size
  /-- Table and layout agree on the names and types of fields, and on what is wrong where there is
  none. -/
  field : ∀ id i, t.field id i =
    (l.aggregate id >>= fun layout => layout.field i).map fun f => (f.name, f.ty)

theorem conforms_of_compute (h : compute t = .ok l) {id : TypeId} {kind : AggregateKind}
    {name : String} {fields : OrderedMap TypeId}
    (hd : t.get? id = some (.ofKind kind name fields)) :
    ∃ layout, l.shape id = .ok (.aggregate layout) ∧ l.Conforms id name kind fields layout := by
  obtain ⟨hdefines, _⟩ := TypeTable.validate_ok_iff.mp (validate_of_compute h)
  obtain ⟨parts, hparts, hs⟩ := (describes_compute h).shape hd
  have hsize : 0 < fields.size :=
    (hdefines _ (TypeTable.mem_defs_of_get? hd)).inhabited fields (by cases kind <;> rfl)
  have hvalues : fields.values.mapM l.shape = .ok parts := by cases kind <;> exact hparts
  obtain ⟨layout, hlayout, hconforms⟩ :=
    conforms_aggregateShape id name kind (aligned_of_compute h) hvalues hsize
  refine ⟨layout, ?_, hconforms⟩
  rw [hs, ← hlayout]
  cases kind <;> rfl

/-- An aggregate that has a layout is one of the table. -/
theorem exists_conforms (h : compute t = .ok l) {id : TypeId} {layout : AggregateLayout}
    (hs : l.shape id = .ok (.aggregate layout)) :
    ∃ kind name fields, t.get? id = some (.ofKind kind name fields) ∧
      l.Conforms id name kind fields layout := by
  obtain ⟨d, parts, hd, _, hassemble⟩ := (describes_compute h).exists_assemble hs
  have haggregate : d.isAggregate := by
    cases d with
    | struct name fields => rfl
    | union name fields => rfl
    | _ => cases hassemble
  obtain ⟨kind, name, fields, rfl⟩ := TypeDef.exists_ofKind haggregate
  obtain ⟨layout', hs', hconforms⟩ := conforms_of_compute h hd
  cases hs.symm.trans hs'
  exact ⟨kind, name, fields, hd, hconforms⟩

/-- What is true of scalars and words, and of an aggregate if it is true of its fields, is true of
all shapes of a table. By induction on what a type contains. -/
theorem shape_induction (h : compute t = .ok l) {P : Shape → Prop}
    (hscalar : ∀ kind, P (.scalar kind)) (hpointer : ∀ pointee, P (.pointer pointee))
    (hproc : ∀ closure, P (.proc closure))
    (haggregate : ∀ {id kind name fields layout}, l.Conforms id name kind fields layout →
      (∀ f ∈ layout.fields, P f.shape) → P (.aggregate layout)) (id : TypeId) :
    ∀ s, l.shape id = .ok s → P s := by
  have hwf := TypeTable.wellFounded_of_valid (validate_of_compute h)
  induction id using hwf.induction with
  | _ id ih =>
    intro s hs
    cases s with
    | scalar kind => exact hscalar kind
    | pointer pointee => exact hpointer pointee
    | proc closure => exact hproc closure
    | aggregate layout =>
      obtain ⟨kind, name, fields, hd, hconforms⟩ := exists_conforms h hs
      refine haggregate hconforms fun f hf => ?_
      have hentry : (f.name, f.ty) ∈ fields.entries := by
        rw [← hconforms.fields]
        exact List.mem_map_of_mem (f := fun f => (f.name, f.ty)) hf
      have hcontains : t.Contains id f.ty :=
        ⟨_, fields, hd, by cases kind <;> rfl, List.mem_map_of_mem (f := Prod.snd) hentry⟩
      exact ih f.ty hcontains f.shape (hconforms.shape f hf)

/-- No alignment is greater than that of a word. -/
theorem align_dvd_word (h : compute t = .ok l) (id : TypeId) :
    ∀ s, l.shape id = .ok s → s.align ∣ wordSize := by
  refine shape_induction h (fun kind => ?_) (fun _ => Nat.dvd_refl _) (fun _ => Nat.dvd_refl _)
    (fun hconforms hfields => ?_) id
  · cases kind <;> decide
  · obtain ⟨f, hf, halign⟩ := hconforms.align.1
    have hdvd := hfields f hf
    rwa [halign] at hdvd

/-- Fields lie at multiples of their alignments, and the size is a multiple of the greatest. -/
theorem Conforms.align_dvd {id : TypeId} {name : String} {kind : AggregateKind}
    {fields : OrderedMap TypeId} {layout : AggregateLayout}
    (h : l.Conforms id name kind fields layout) (hl : compute t = .ok l) :
    layout.align ∣ layout.size ∧ ∀ f ∈ layout.fields, f.shape.align ∣ f.offset :=
  h.aligned fun f hf =>
    Nat.dvd_trans (align_dvd_word hl f.ty f.shape (h.shape f hf)) (by decide)

/-- Alignments come from scalars and words. -/
theorem power_of_compute (h : compute t = .ok l) (id : TypeId) :
    ∀ s, l.shape id = .ok s → (∃ k, s.align = 2 ^ k) ∧ s.align ∣ s.size := by
  refine shape_induction h (fun kind => ?_) (fun _ => ?_) (fun closure => ?_)
    (fun {_ _ _ _ layout} hconforms hfields => ?_) id
  · exact ⟨⟨kind.align.log2, by cases kind <;> decide⟩, Nat.dvd_refl _⟩
  · exact ⟨⟨3, rfl⟩, Nat.dvd_refl _⟩
  · exact ⟨⟨3, rfl⟩, by cases closure <;> decide⟩
  · refine ⟨?_, (hconforms.align_dvd h).1⟩
    -- the alignment is that of a field
    obtain ⟨f, hf, halign⟩ := hconforms.align.1
    obtain ⟨hpower, _⟩ := hfields f hf
    rwa [halign] at hpower

/-- Every value takes at least one byte, as no aggregate is without fields. -/
theorem size_pos_of_compute (h : compute t = .ok l) (id : TypeId) :
    ∀ s, l.shape id = .ok s → s.bounded → 0 < s.size := by
  refine shape_induction h (fun kind _ => ?_) (fun _ _ => ?_) (fun closure _ => ?_)
    (fun {_ _ _ _ layout} hconforms hfields hbounded => ?_) id
  · cases kind <;> decide
  · exact Nat.zero_lt_succ _
  · cases closure <;> decide
  · obtain ⟨f, hf, _⟩ := hconforms.align.1
    have hsize := hfields f hf (Aggregated.bounded_of_mem hbounded hf)
    have hinside := (hconforms.arranged hbounded).inside f hf
    change 0 < layout.size
    omega

/-- The fields of the definition are those of the layout. -/
theorem Conforms.field_eq {id : TypeId} {kind : AggregateKind} {name : String}
    {fields : OrderedMap TypeId} {layout : AggregateLayout}
    (h : l.Conforms id name kind fields layout) (hd : t.get? id = some (.ofKind kind name fields))
    (i : UInt16) : t.field id i = (layout.field i).map fun f => (f.name, f.ty) := by
  have hfields : (TypeDef.ofKind kind name fields).fields? = some fields := by cases kind <;> rfl
  have hget : fields.get? i.toNat = layout.fields[i.toNat]?.map fun f => (f.name, f.ty) := by
    rw [OrderedMap.get?, ← h.fields, List.getElem?_map]
  simp only [TypeTable.field, TypeTable.get, hd, hfields, hget, Aggregated.field, h.id]
  cases layout.fields[i.toNat]? <;> rfl

theorem field_of_compute (h : compute t = .ok l) (id : TypeId) (i : UInt16) : t.field id i =
    (l.aggregate id >>= fun layout => layout.field i).map fun f => (f.name, f.ty) := by
  cases hd : t.get? id with
  | none =>
    simp only [TypeTable.field, TypeTable.get, aggregate, hd, (describes_compute h).absent hd]
    rfl
  | some d =>
    by_cases haggregate : d.isAggregate
    · obtain ⟨kind, name, fields, rfl⟩ := TypeDef.exists_ofKind haggregate
      obtain ⟨layout, hs, hconforms⟩ := conforms_of_compute h hd
      rw [hconforms.field_eq hd, aggregate, hs]
      rfl
    · obtain ⟨parts, _, hs⟩ := (describes_compute h).shape hd
      unfold TypeTable.field TypeTable.get aggregate
      rw [hd, hs]
      cases d with
      | struct name fields => exact absurd rfl haggregate
      | union name fields => exact absurd rfl haggregate
      | _ => rfl

/-- Layouts that have been computed are those of a C compiler. -/
theorem matchesC_of_compute (h : compute t = .ok l) : l.MatchesC t := by
  have hdescribes := describes_compute h
  have hleaf {id : TypeId} {d : TypeDef} {s : Shape} (hd : t.get? id = some d)
      (hassemble : ∀ parts, assemble id d parts = s) : l.shape id = .ok s := by
    obtain ⟨parts, _, hs⟩ := hdescribes.shape hd
    rw [hs, hassemble]
  have harranged {id : TypeId} {layout : AggregateLayout}
      (hs : l.shape id = .ok (.aggregate layout)) (hbounded : layout.bounded) :
      layout.Arranged := by
    obtain ⟨_, _, _, _, hconforms⟩ := exists_conforms h hs
    exact hconforms.arranged hbounded
  exact {
    types := hdescribes.types
    scalar := fun hd => hleaf hd fun _ => rfl
    pointer := fun hd => hleaf hd fun _ => rfl
    proc := fun hd => hleaf hd fun _ => rfl
    aggregate := conforms_of_compute h
    absent := hdescribes.absent
    apart := fun hs hbounded hkind => (harranged hs hbounded).pairwise hkind
    inside := fun hs hbounded => (harranged hs hbounded).inside
    power := power_of_compute h _ _
    field := field_of_compute h }

end Layouts

/-- A valid table is laid out as a C compiler lays it out. -/
theorem TypeTable.c_layout_of_valid (t : TypeTable) (h : t.validate = .ok ()) :
    ∃ l, Layouts.compute t = .ok l ∧ l.MatchesC t := by
  obtain ⟨l, hl, _⟩ := Layouts.exists_compute h
  exact ⟨l, hl, Layouts.matchesC_of_compute hl⟩

/-- A struct that holds a union and a pointer to its own kind, before the types it mentions. -/
def TypeTable.nested : TypeTable :=
  let outer : List (String × TypeId) :=
    [("tag", .ofPosition 2), ("cell", .ofPosition 1), ("next", .ofPosition 4)]
  let cell : List (String × TypeId) := [("small", .ofPosition 2), ("wide", .ofPosition 3)]
  ⟨#[.struct "Outer" ⟨outer, by decide⟩, .union "Cell" ⟨cell, by decide⟩, .scalar .u8,
    .scalar .f64, .pointer (.ofPosition 0)]⟩

theorem TypeTable.c_layout_of_nested : nested.validate = .ok () ∧
    ∃ l, Layouts.compute nested = .ok l ∧ l.MatchesC nested :=
  ⟨by decide, nested.c_layout_of_valid (by decide)⟩

example : ((Layouts.compute .nested >>= (·.aggregate (.ofPosition 0))).map fun layout =>
    (layout.fields.map (·.offset), layout.size, layout.align)) = .ok ([0, 8, 16], 24, 8) := by
  decide

end ForeignVM
