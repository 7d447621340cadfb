import ForeignVM.Machine.Basic
import ForeignVM.Proofs.Shapes
import Mathlib.Order.Bounds.Defs

/-!
# ForeignVM.Proofs.Placement

Where the parts of an aggregate and the locals of a routine lie. As long as their size fits into a
machine word, they follow one another, each at the first multiple of its alignment, and end inside
what holds them, so every slot of a frame lies in the block of the frame.

* `multiplesFrom`      — where something of an alignment may begin; `alignUp_isLeast`.
* `Follow`             — parts behind one another; `Placement.follow_sequence`.
* `Placement.isGreatest_maxAlign` — the alignment of what holds them.
* `Placement.exactSize` — the size before it is cut to a word; `Shape.bounded`: it fits, and so
  do those of all parts.
* `TypeTable.doubled`  — a type whose exact size does not fit.
* `Layouts.Aligned`    — no shape has alignment zero; `aligned_of_compute` for computed layouts.
* `FrameLayout.Fits`   — all slots lie in the block; `Machine.fits_of_build` for a machine whose
  frames fit into a word.
-/

namespace ForeignVM

/-- The multiples of `align` that are not below `n`. -/
def multiplesFrom (align n : Nat) : Set Nat := {m | align ∣ m ∧ n ≤ m}

/-- The least multiple of `align` that is not below `n`, however large it is. -/
def roundUp (n align : Nat) : Nat := (n + align - 1) / align * align

theorem wrapWord_of_lt {n : Nat} (h : n < 2 ^ 64) : wrapWord n = n := Nat.mod_eq_of_lt h

theorem alignUp_of_lt {n align : Nat} (h : roundUp n align < 2 ^ 64) :
    alignUp n align = roundUp n align := wrapWord_of_lt h

/-- What wraps around stays a multiple, as there are so many words. -/
theorem dvd_alignUp (n : Nat) {align : Nat} (h : align ∣ 2 ^ 64) : align ∣ alignUp n align :=
  (Nat.dvd_mod_iff h).mpr (Nat.dvd_mul_left _ _)

theorem le_roundUp (n : Nat) {align : Nat} (h : 0 < align) : n ≤ roundUp n align := by
  unfold roundUp
  have hdiv := Nat.div_add_mod (n + align - 1) align
  have hmod := Nat.mod_lt (n + align - 1) h
  rw [Nat.mul_comm] at hdiv
  omega

theorem roundUp_isLeast (n : Nat) {align : Nat} (h : 0 < align) :
    IsLeast (multiplesFrom align n) (roundUp n align) := by
  refine ⟨⟨Nat.dvd_mul_left _ _, le_roundUp n h⟩, ?_⟩
  rintro m ⟨⟨k, rfl⟩, hk⟩
  -- the quotient is rounded up, so no smaller one has a multiple that reaches `n`
  have hquotient : (n + align - 1) / align < k + 1 := by
    rw [Nat.div_lt_iff_lt_mul h, Nat.succ_mul, Nat.mul_comm]
    omega
  rw [roundUp, Nat.mul_comm]
  exact Nat.mul_le_mul_left align (Nat.le_of_lt_succ hquotient)

theorem isGreatest_foldl_max (g : Shape → Nat) (shapes : List Shape) (start : Nat) :
    IsGreatest {n | n = start ∨ ∃ s ∈ shapes, g s = n}
      (shapes.foldl (fun n s => max n (g s)) start) := by
  induction shapes generalizing start with
  | nil => exact ⟨.inl rfl, by rintro n (rfl | ⟨_, hs, _⟩) <;> simp_all⟩
  | cons s shapes ih =>
    obtain ⟨hmem, hub⟩ := ih (max start (g s))
    have hstart := hub (.inl rfl)
    refine ⟨?_, ?_⟩
    · rcases hmem with heq | ⟨s', hs', heq⟩
      · rcases Nat.le_total start (g s) with hle | hle
        · refine .inr ⟨s, List.mem_cons_self, ?_⟩
          rw [List.foldl_cons, heq, Nat.max_eq_right hle]
        · refine .inl ?_
          rw [List.foldl_cons, heq, Nat.max_eq_left hle]
      · exact .inr ⟨s', .tail _ hs', heq⟩
    · rintro n (rfl | ⟨s', hs', rfl⟩)
      · exact Nat.le_trans (Nat.le_max_left _ _) hstart
      · rcases List.mem_cons.mp hs' with rfl | hs'
        · exact Nat.le_trans (Nat.le_max_right _ _) hstart
        · exact hub (.inr ⟨s', hs', rfl⟩)

namespace Placement

theorem le_maxAlign (shapes : List Shape) : 1 ≤ maxAlign shapes :=
  (isGreatest_foldl_max Shape.align shapes 1).2 (.inl rfl)

theorem isGreatest_maxAlign {shapes : List Shape} (hne : shapes ≠ [])
    (halign : ∀ s ∈ shapes, 0 < s.align) :
    IsGreatest {a | ∃ s ∈ shapes, s.align = a} (maxAlign shapes) := by
  obtain ⟨hmem, hub⟩ := isGreatest_foldl_max Shape.align shapes 1
  refine ⟨?_, fun a ha => hub (.inr ha)⟩
  rcases hmem with hone | hmem
  · -- if no alignment exceeds one, all of them are one
    obtain ⟨s, hs⟩ := List.exists_mem_of_ne_nil shapes hne
    have hle := hub (.inr ⟨s, hs, rfl⟩)
    have hpos := halign s hs
    rw [hone] at hle
    exact ⟨s, hs, by rw [maxAlign, hone]; omega⟩
  · exact hmem

end Placement

/-! ## Parts behind one another -/

/-- The parts, with their offsets, follow one another from `start` to `stop`: each begins at the
first multiple of its alignment from the end of the part before it on. -/
inductive Follow : Nat → List (Nat × Shape) → Nat → Prop where
  | nil {start : Nat} : Follow start [] start
  | cons {start offset stop : Nat} {s : Shape} {parts : List (Nat × Shape)}
      (hoffset : IsLeast (multiplesFrom s.align start) offset)
      (hrest : Follow (offset + s.size) parts stop) : Follow start ((offset, s) :: parts) stop

namespace Follow

variable {start stop : Nat} {parts : List (Nat × Shape)}

theorem le (h : Follow start parts stop) : start ≤ stop := by
  induction h with
  | nil => exact Nat.le_refl _
  | cons hoffset _ ih =>
    have hstart := hoffset.1.2
    omega

theorem inside (h : Follow start parts stop) :
    ∀ p ∈ parts, start ≤ p.1 ∧ p.1 + p.2.size ≤ stop := by
  induction h with
  | nil => exact nofun
  | cons hoffset hrest ih =>
    have hstart := hoffset.1.2
    intro p hp
    rcases List.mem_cons.mp hp with rfl | hp
    · exact ⟨hstart, hrest.le⟩
    · obtain ⟨hle, hstop⟩ := ih p hp
      exact ⟨by omega, hstop⟩

theorem pairwise (h : Follow start parts stop) :
    parts.Pairwise fun p q => p.1 + p.2.size ≤ q.1 := by
  induction h with
  | nil => exact .nil
  | cons _ hrest ih => exact .cons (fun q hq => (hrest.inside q hq).1) ih

end Follow

namespace Placement

/-- Where parts that follow one another from `start` on end, however far that is. -/
def extent : Nat → List Shape → Nat
  | start, [] => start
  | start, s :: rest => extent (roundUp start s.align + s.size) rest

/-- The size that parts of these sizes ask for, however large it is. -/
def exactSize : AggregateKind → List Shape → Nat
  | .struct, shapes => roundUp (extent 0 shapes) (maxAlign shapes)
  | .union, shapes => roundUp (shapes.foldl (fun n s => max n s.size) 0) (maxAlign shapes)

theorem le_extent {shapes : List Shape} (halign : ∀ s ∈ shapes, 0 < s.align) (start : Nat) :
    start ≤ extent start shapes := by
  induction shapes generalizing start with
  | nil => exact Nat.le_refl _
  | cons s shapes ih =>
    have hround := le_roundUp start (halign s List.mem_cons_self)
    have hrest := ih (fun s hs => halign s (.tail _ hs)) (roundUp start s.align + s.size)
    rw [extent]
    omega

/-- Parts that end within the words lie where they would lie without a limit. -/
theorem follow_sequence {shapes : List Shape} (halign : ∀ s ∈ shapes, 0 < s.align) {start : Nat}
    (h : extent start shapes < 2 ^ 64) :
    (sequence start shapes).2 = extent start shapes ∧
      Follow start ((sequence start shapes).1.zip shapes) (extent start shapes) := by
  induction shapes generalizing start with
  | nil => exact ⟨rfl, .nil⟩
  | cons s shapes ih =>
    have hrest : ∀ s ∈ shapes, 0 < s.align := fun s hs => halign s (.tail _ hs)
    have hend := Nat.lt_of_le_of_lt (le_extent hrest (roundUp start s.align + s.size)) h
    have hoffset : alignUp start s.align = roundUp start s.align := alignUp_of_lt (by omega)
    obtain ⟨hstop, hfollow⟩ := ih hrest h
    rw [sequence, hoffset, wrapWord_of_lt hend]
    exact ⟨hstop, .cons (roundUp_isLeast start (halign s List.mem_cons_self)) hfollow⟩

theorem align_dvd_sequence {shapes : List Shape} (h : ∀ s ∈ shapes, s.align ∣ 2 ^ 64)
    (start : Nat) : ∀ p ∈ (sequence start shapes).1.zip shapes, p.2.align ∣ p.1 := by
  induction shapes generalizing start with
  | nil => exact nofun
  | cons s shapes ih =>
    exact List.forall_mem_cons.mpr ⟨dvd_alignUp start (h s List.mem_cons_self),
      ih (fun s hs => h s (.tail _ hs)) _⟩

theorem offset_lt_sequence (start : Nat) (shapes : List Shape) :
    ∀ offset ∈ (sequence start shapes).1, offset < 2 ^ 64 := by
  induction shapes generalizing start with
  | nil => exact nofun
  | cons s shapes ih =>
    exact List.forall_mem_cons.mpr ⟨Nat.mod_lt _ (by decide), ih _⟩

theorem length_sequence (start : Nat) (shapes : List Shape) :
    (sequence start shapes).1.length = shapes.length := by
  induction shapes generalizing start with
  | nil => rfl
  | cons s shapes ih => simp [sequence, ih]

theorem length_ofKind (kind : AggregateKind) (shapes : List Shape) :
    (ofKind kind shapes).offsets.length = shapes.length := by
  cases kind with
  | struct => exact length_sequence 0 shapes
  | union => exact List.length_map _

theorem maxAlign_dvd {shapes : List Shape} (h : ∀ s ∈ shapes, s.align ∣ 2 ^ 64) :
    maxAlign shapes ∣ 2 ^ 64 := by
  rcases (isGreatest_foldl_max Shape.align shapes 1).1 with hone | ⟨s, hs, heq⟩
  · rw [maxAlign, hone]
    exact Nat.one_dvd _
  · rw [maxAlign, ← heq]
    exact h s hs

/-- Aggregates of any size keep the alignments of their parts. -/
theorem align_dvd_ofKind (kind : AggregateKind) {shapes : List Shape}
    (h : ∀ s ∈ shapes, s.align ∣ 2 ^ 64) :
    (∀ p ∈ (ofKind kind shapes).offsets.zip shapes, p.2.align ∣ p.1) ∧
      (ofKind kind shapes).align ∣ (ofKind kind shapes).size := by
  cases kind with
  | struct => exact ⟨align_dvd_sequence h 0, dvd_alignUp _ (maxAlign_dvd h)⟩
  | union =>
    refine ⟨fun p hp => ?_, dvd_alignUp _ (maxAlign_dvd h)⟩
    obtain ⟨_, _, hzero⟩ := List.mem_map.mp (List.of_mem_zip (b := p.2) hp).1
    rw [← hzero]
    exact Nat.dvd_zero _

/-- The parts of a struct follow one another, and the size is the next multiple. -/
theorem follow_ofStruct {shapes : List Shape} (halign : ∀ s ∈ shapes, 0 < s.align)
    (h : exactSize .struct shapes < 2 ^ 64) :
    (ofStruct shapes).size = exactSize .struct shapes ∧
      ∃ stop, Follow 0 ((ofStruct shapes).offsets.zip shapes) stop ∧
        IsLeast (multiplesFrom (maxAlign shapes) stop) (ofStruct shapes).size := by
  have hround := roundUp_isLeast (extent 0 shapes) (le_maxAlign shapes)
  obtain ⟨hstop, hfollow⟩ := follow_sequence halign (Nat.lt_of_le_of_lt hround.1.2 h)
  have hsize : (ofStruct shapes).size = exactSize .struct shapes := by
    change alignUp (sequence 0 shapes).2 (maxAlign shapes) = _
    rw [hstop, alignUp_of_lt h]
    rfl
  exact ⟨hsize, _, hfollow, hsize ▸ hround⟩

/-- A union has room for each of its parts. -/
theorem isLeast_ofUnion {shapes : List Shape} (h : exactSize .union shapes < 2 ^ 64) :
    IsLeast {m | maxAlign shapes ∣ m ∧ ∀ s ∈ shapes, s.size ≤ m} (ofUnion shapes).size := by
  obtain ⟨htop, hub⟩ := isGreatest_foldl_max Shape.size shapes 0
  have hleast := roundUp_isLeast (shapes.foldl (fun n s => max n s.size) 0) (le_maxAlign shapes)
  rw [ofUnion, alignUp_of_lt h]
  refine ⟨⟨hleast.1.1, fun s hs => ?_⟩, fun m hm => hleast.2 ⟨hm.1, ?_⟩⟩
  · exact Nat.le_trans (hub (.inr ⟨s, hs, rfl⟩)) hleast.1.2
  · rcases htop with hzero | ⟨s, hs, hsize⟩
    · rw [hzero]
      exact Nat.zero_le m
    · rw [← hsize]
      exact hm.2 s hs

end Placement

/-! ## Shapes of a table -/

/-- No shape has alignment zero. -/
def Layouts.Aligned (l : Layouts) : Prop := ∀ id s, l.shape id = .ok s → 0 < s.align

theorem Layouts.aligned_of_compute {t : TypeTable} {l : Layouts} (h : compute t = .ok l) :
    l.Aligned := by
  intro id s hs
  obtain ⟨d, parts, _, _, rfl⟩ := (describes_compute h).exists_assemble hs
  cases d with
  | scalar kind => cases kind <;> exact Nat.succ_pos _
  | struct name fields => exact Placement.le_maxAlign parts
  | union name fields => exact Placement.le_maxAlign parts
  | _ => exact Nat.succ_pos _

theorem Layouts.Aligned.align_pos {l : Layouts} (hl : l.Aligned) {types : List TypeId}
    {shapes : List Shape} (h : types.mapM l.shape = .ok shapes) : ∀ s ∈ shapes, 0 < s.align := by
  intro s hs
  obtain ⟨ty, _, hty⟩ := exists_of_mem_mapM h hs
  exact hl ty s hty

/-! ## Sizes that fit a word -/

mutual

/-- The values of the shape take less than 2⁶⁴ bytes, so that nothing wraps around when what they
are made of is placed. -/
def Shape.bounded : Shape → Bool
  | .aggregate layout => Aggregated.bounded layout
  | .scalar _ | .pointer _ | .proc _ => true

def Aggregated.bounded : Aggregated Shape → Bool
  | ⟨_, _, kind, fields, _, _⟩ =>
    decide (Placement.exactSize kind (fields.map (·.shape)) < 2 ^ 64) && Field.boundedList fields

def Field.boundedList : List (Field Shape) → Bool
  | [] => true
  | f :: rest => Field.bounded f && Field.boundedList rest

def Field.bounded : Field Shape → Bool
  | ⟨_, _, _, shape⟩ => Shape.bounded shape

end

theorem Field.boundedList_iff {fields : List FieldLayout} :
    Field.boundedList fields ↔ ∀ f ∈ fields, f.shape.bounded := by
  induction fields with
  | nil => simp [Field.boundedList]
  | cons f rest ih =>
    obtain ⟨name, offset, ty, shape⟩ := f
    simp [Field.boundedList, Field.bounded, ih]

namespace Aggregated

variable {layout : AggregateLayout}

theorem bounded_iff : layout.bounded ↔
    Placement.exactSize layout.kind (layout.fields.map (·.shape)) < 2 ^ 64 ∧
      ∀ f ∈ layout.fields, f.shape.bounded := by
  obtain ⟨id, name, kind, fields, size, align⟩ := layout
  simp [bounded, Field.boundedList_iff]

theorem bounded_of_mem (h : layout.bounded) {f : FieldLayout} (hf : f ∈ layout.fields) :
    f.shape.bounded :=
  (bounded_iff.mp h).2 f hf

end Aggregated

/-- All types of the table take less than 2⁶⁴ bytes. -/
def Layouts.Bounded (l : Layouts) : Prop := ∀ s ∈ l.shapes.toList, s.bounded

instance (l : Layouts) : Decidable l.Bounded := inferInstanceAs (Decidable (∀ s ∈ _, _))

theorem Layouts.Bounded.shape {l : Layouts} (h : l.Bounded) {id : TypeId} {s : Shape}
    (hs : l.shape id = .ok s) : s.bounded := by
  unfold Layouts.shape at hs
  split at hs
  · next hget =>
    cases hs
    exact h _ (Array.mem_toList_iff.mpr (Array.mem_of_getElem? hget))
  · cases hs

/-- A byte and its doublings: type `k` takes `2 ^ k` bytes, of which the last is one more than words
can count. -/
def TypeTable.doubled : TypeTable :=
  ⟨(.scalar .u8 :: (List.range 64).map fun k =>
    .struct "Pair" (.ofList [("left", .ofPosition k), ("right", .ofPosition k)])).toArray⟩

example : (Layouts.compute .doubled).map (fun l =>
    [63, 64].map fun k => (l.sizeOf (.ofPosition k)).toOption) = .ok [some (2 ^ 63), some 0] := by
  decide +kernel

/-! ## Frames -/

/-- The slot lies in a block of `size` bytes. -/
def Slot.Inside (size : Nat) (slot : Slot) : Prop := slot.offset + slot.shape.size ≤ size

namespace FrameLayout

/-- All slots lie in the block. -/
def Fits (f : FrameLayout) : Prop := ∀ slot ∈ f.slots.toList, slot.Inside f.size

def shapes (f : FrameLayout) : List Shape := f.slots.toList.map (·.shape)

/-- How many bytes the locals ask for. -/
def exactSize (f : FrameLayout) : Nat := Placement.exactSize .struct f.shapes

/-- The locals take less than 2⁶⁴ bytes. -/
def Bounded (f : FrameLayout) : Prop := f.exactSize < 2 ^ 64

instance (f : FrameLayout) : Decidable f.Bounded := inferInstanceAs (Decidable (_ < _))

/-- Slots are made of as many types, shapes and offsets. -/
theorem map_slotsOf {types : List TypeId} {shapes : List Shape} {offsets : List Nat}
    (hshapes : shapes.length = types.length) (hoffsets : offsets.length = shapes.length) :
    (slotsOf types shapes offsets).map (fun s => (s.ty, s.shape)) = types.zip shapes ∧
      (slotsOf types shapes offsets).map (fun s => (s.offset, s.shape)) = offsets.zip shapes := by
  induction types generalizing shapes offsets with
  | nil =>
    obtain rfl := List.eq_nil_of_length_eq_zero hshapes
    obtain rfl := List.eq_nil_of_length_eq_zero hoffsets
    exact ⟨rfl, rfl⟩
  | cons ty types ih =>
    obtain ⟨s, shapes, rfl⟩ := List.exists_cons_of_length_eq_add_one hshapes
    obtain ⟨offset, offsets, rfl⟩ := List.exists_cons_of_length_eq_add_one hoffsets
    obtain ⟨htypes, hplaces⟩ := ih (Nat.succ.inj hshapes) (Nat.succ.inj hoffsets)
    exact ⟨congrArg _ htypes, congrArg _ hplaces⟩

/-- The locals lie where the parts of a struct of their types lie. -/
theorem placed_of_ofLocals {l : Layouts} {locals : List TypeId} {f : FrameLayout}
    (h : ofLocals l locals = .ok f) : locals.mapM l.shape = .ok f.shapes ∧
      f.slots.toList.map (fun s => (s.ty, s.shape)) = locals.zip f.shapes ∧
      f.slots.toList.map (fun s => (s.offset, s.shape)) =
        (Placement.ofStruct f.shapes).offsets.zip f.shapes ∧
      f.size = (Placement.ofStruct f.shapes).size := by
  unfold ofLocals at h
  split at h
  · cases h
  · next parts hparts =>
    cases h
    have hlength := length_of_mapM hparts
    have hoffsets : (Placement.ofStruct parts).offsets.length = parts.length :=
      Placement.length_ofKind .struct parts
    obtain ⟨htypes, hplaces⟩ := map_slotsOf hlength hoffsets
    have hshapes :
        (slotsOf locals parts (Placement.ofStruct parts).offsets).map (·.shape) = parts := by
      have hsecond := congrArg (List.map Prod.snd) hplaces
      rwa [List.map_map, List.map_snd_zip (Nat.le_of_eq hoffsets.symm)] at hsecond
    simp only [shapes, hshapes]
    exact ⟨hparts, htypes, hplaces, trivial⟩

/-- Offsets are words. -/
theorem offset_lt_of_ofLocals {l : Layouts} {locals : List TypeId} {f : FrameLayout}
    (h : ofLocals l locals = .ok f) : ∀ slot ∈ f.slots.toList, slot.offset < 2 ^ 64 := by
  obtain ⟨-, -, hplaces, -⟩ := placed_of_ofLocals h
  intro slot hslot
  have hmem : (slot.offset, slot.shape) ∈ (Placement.ofStruct f.shapes).offsets.zip f.shapes := by
    rw [← hplaces]
    exact List.mem_map_of_mem hslot
  exact Placement.offset_lt_sequence 0 f.shapes _ (List.of_mem_zip hmem).1

theorem shapes_of_ofLocals {l : Layouts} {locals : List TypeId} {f : FrameLayout}
    (h : ofLocals l locals = .ok f) : locals.mapM l.shape = .ok (f.slots.toList.map Slot.shape) :=
  (placed_of_ofLocals h).1

theorem size_of_ofLocals {l : Layouts} (hl : l.Aligned) {locals : List TypeId} {f : FrameLayout}
    (h : ofLocals l locals = .ok f) (hbounded : f.Bounded) : f.size = f.exactSize := by
  obtain ⟨hshapes, -, -, hsize⟩ := placed_of_ofLocals h
  exact hsize.trans (Placement.follow_ofStruct (hl.align_pos hshapes) hbounded).1

theorem fits_of_ofLocals {l : Layouts} (hl : l.Aligned) {locals : List TypeId} {f : FrameLayout}
    (h : ofLocals l locals = .ok f) (hbounded : f.Bounded) : f.Fits := by
  obtain ⟨hshapes, -, hplaces, hsize⟩ := placed_of_ofLocals h
  obtain ⟨-, stop, hfollow, hstop⟩ := Placement.follow_ofStruct (hl.align_pos hshapes) hbounded
  intro slot hslot
  have hmem : (slot.offset, slot.shape) ∈ (Placement.ofStruct f.shapes).offsets.zip f.shapes := by
    rw [← hplaces]
    exact List.mem_map_of_mem hslot
  rw [Slot.Inside, hsize]
  exact Nat.le_trans (hfollow.inside _ hmem).2 hstop.1.2

end FrameLayout

/-- The locals of every routine take less than 2⁶⁴ bytes. -/
def Machine.FramesBounded {σ : Type} (m : Machine σ) : Prop :=
  ∀ c ∈ m.callees.toList, c.frame.Bounded

instance {σ : Type} (m : Machine σ) : Decidable m.FramesBounded :=
  inferInstanceAs (Decidable (∀ c ∈ _, _))

theorem Machine.FramesBounded.callee {σ : Type} {m : Machine σ} (h : m.FramesBounded)
    {id : RoutineId} {c : Callee} (hc : m.callee? id = some c) : c.frame.Bounded :=
  h c (Array.mem_toList_iff.mpr (Array.mem_of_getElem? hc))

/-- The locals of every routine lie in the block of its frame. -/
def Machine.FramesFit {σ : Type} (m : Machine σ) : Prop :=
  ∀ id c, m.callee? id = some c → c.frame.Fits

theorem Machine.fits_of_build {σ : Type} {program : Program}
    {registry : String → Option (Native σ)} {limits : Limits} {m : Machine σ}
    (h : Machine.build program registry limits = .ok m) (hbounded : m.FramesBounded) :
    m.FramesFit := by
  intro id c hc
  have hframe := hbounded.callee hc
  unfold build at h
  split at h
  · cases h
  · next layouts hlayouts =>
    split at h
    · cases h
    · next callees hcallees =>
      split at h
      · cases h
      · cases h
        unfold callee? at hc
        rw [List.getElem?_toArray] at hc
        obtain ⟨r, _, hr⟩ := exists_of_mem_mapM hcallees (List.mem_of_getElem? hc)
        unfold calleeOf at hr
        split at hr
        · next frame hlocals =>
          cases hr
          exact FrameLayout.fits_of_ofLocals (Layouts.aligned_of_compute hlayouts) hlocals hframe
        · cases hr

end ForeignVM
