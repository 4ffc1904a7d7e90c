import GameScript.Proofs.ByteStrings
import GameScript.Proofs.DataContents

/-!
# Where the variables of a segment lie

The first slot of a variable is computed in two ways: as a sum of sizes in slots, and from the bytes
that were written before it. Both give the same number. The regions of variables follow each other
without a gap, plain variables before script arguments, and each holds the bytes of its variable
filled up to whole slots.
-/
namespace GameScript

/-- The first slot of the variable at place `k`, if variables lie in this order. -/
def firstSlot (fields : List DataField) (k : Nat) : Nat :=
  slotsOf ((fields.take k).map DataField.ty)

section
variable {fields : List DataField} {f : DataField} {j k : Nat}

@[simp] theorem firstSlot_zero : firstSlot fields 0 = 0 := rfl

@[simp] theorem firstSlot_cons : firstSlot (f :: fields) (k + 1) = f.ty.slots +
    firstSlot fields k := rfl

/-- Each region begins where the one before it ends. -/
theorem firstSlot_succ (h : fields[k]? = some f) :
    firstSlot fields (k + 1) = firstSlot fields k + f.ty.slots := by
  rw [firstSlot, List.take_add_one, h, List.map_append, slotsOf_append]
  rfl

theorem firstSlot_mono (h : j ≤ k) : firstSlot fields j ≤ firstSlot fields k := by
  have hsplit : fields.take k = fields.take j ++ (fields.drop j).take (k - j) := by
    rw [← List.take_add, Nat.add_sub_cancel' h]
  rw [firstSlot, firstSlot, hsplit, List.map_append, slotsOf_append]
  exact Nat.le_add_right _ _

/-- Every slot of the segment lies in the region of a variable. -/
theorem exists_region {i : Nat} (h : i < slotsOf (fields.map DataField.ty)) :
    ∃ k f, fields[k]? = some f ∧ firstSlot fields k ≤ i ∧ i < firstSlot fields k + f.ty.slots := by
  induction fields generalizing i with
  | nil => exact absurd h (Nat.not_lt_zero i)
  | cons f fields ih =>
      rw [List.map_cons, slotsOf] at h
      by_cases hfirst : i < f.ty.slots
      · exact ⟨0, f, rfl, Nat.zero_le i, by rwa [firstSlot_zero, Nat.zero_add]⟩
      · obtain ⟨k, g, hg, hlow, hhigh⟩ := ih (i := i - f.ty.slots) (by omega)
        refine ⟨k + 1, g, hg, ?_, ?_⟩
        · rw [firstSlot_cons]
          omega
        · rw [firstSlot_cons]
          omega

theorem firstSlot_le (k : Nat) : firstSlot fields k ≤ slotsOf (fields.map DataField.ty) := by
  rw [← List.take_append_drop k fields, List.map_append, slotsOf_append, List.take_append_drop]
  exact Nat.le_add_right _ _

theorem getElem?_placeFrom (h : fields[k]? = some f) (next : Nat) :
    (placeFrom next fields)[k]? = some (f.name, next + firstSlot fields k) := by
  induction fields generalizing k next with
  | nil => cases h
  | cons g fields ih =>
      cases k with
      | zero =>
          obtain rfl := Option.some.inj h
          rfl
      | succ k =>
          rw [placeFrom, List.getElem?_cons_succ, ih h, firstSlot_cons, Nat.add_assoc]

end

/-! ## Contents -/

/-- The words are the bytes of the variable, filled up with zeros to whole slots. -/
def DataField.Region (f : DataField) (words : List Word) : Prop :=
  ∃ bs, f.bytes = .ok bs ∧ words = wordsOfBytes (padToSlot bs)

theorem length_padToSlot (bs : Bytes) : (padToSlot bs).length = slotSize * slotsFor bs.length := by
  rw [padToSlot, List.length_append, List.length_replicate, slotsFor, slotSize]
  omega

theorem length_wordsOfBytes (bs : Bytes) : (wordsOfBytes bs).length = bs.length / slotSize := by
  induction bs using wordsOfBytes.induct with
  | case1 a b c d rest ih =>
      rw [wordsOfBytes, List.length_cons, ih, slotSize]
      simp only [List.length_cons]
      omega
  | case2 bs hshort =>
      have hlt : bs.length < slotSize := by
        rcases bs with _ | ⟨a, _ | ⟨b, _ | ⟨c, _ | ⟨d, rest⟩⟩⟩⟩
        case cons.cons.cons.cons => exact absurd rfl (hshort a b c d rest)
        all_goals simp [slotSize]
      rw [wordsOfBytes, Nat.div_eq_of_lt hlt]
      · rfl
      · exact hshort

theorem slots_padToSlot {f : DataField} {bs : Bytes} (h : f.bytes = .ok bs) :
    (padToSlot bs).length / slotSize = f.ty.slots := by
  rw [length_padToSlot, (DataField.size_of_bytes h).2, Ty.slots, slotSize]
  omega

theorem DataField.Region.length {f : DataField} {words : List Word} (h : f.Region words) :
    words.length = f.ty.slots := by
  obtain ⟨bs, hbs, rfl⟩ := h
  rw [length_wordsOfBytes, slots_padToSlot hbs]

/-- The padded bytes before a variable give its first slot. -/
theorem regionsFrom_spec {fields : List DataField} {next : Nat}
    {regions : List (DataField × Nat × Bytes)} (h : regionsFrom next fields = .ok regions) :
    regions.map (fun r => (r.1.name, r.2.1)) = placeFrom next fields ∧
      List.Forall₂ DataField.Region fields (regions.map fun r => wordsOfBytes r.2.2) := by
  induction fields generalizing next regions with
  | nil =>
      obtain rfl := Except.ok.inj h
      exact ⟨rfl, .nil⟩
  | cons f fields ih =>
      obtain ⟨bs, hbs, h⟩ := bind_eq_ok.mp h
      obtain ⟨more, hmore, h⟩ := bind_eq_ok.mp h
      obtain rfl := Except.ok.inj h
      obtain ⟨hplaces, hwords⟩ := ih hmore
      constructor
      · rw [List.map_cons, placeFrom, hplaces, slots_padToSlot hbs]
      · exact .cons ⟨bs, hbs, rfl⟩ hwords

section
variable {fields : List DataField} {blocks : List (List Word)}

theorem length_flatten_regions (h : List.Forall₂ DataField.Region fields blocks) :
    blocks.flatten.length = slotsOf (fields.map DataField.ty) := by
  induction h with
  | nil => rfl
  | cons hblock _ ih =>
      rw [List.flatten_cons, List.length_append, hblock.length, ih, List.map_cons, slotsOf]

theorem region_of_flatten (h : List.Forall₂ DataField.Region fields blocks) {k : Nat}
    {f : DataField} (hf : fields[k]? = some f) :
    f.Region ((blocks.flatten.drop (firstSlot fields k)).take f.ty.slots) := by
  induction h generalizing k with
  | nil => cases hf
  | @cons g block fields blocks hblock _ ih =>
      cases k with
      | zero =>
          obtain rfl := Option.some.inj hf
          rw [firstSlot_zero, List.drop_zero, List.flatten_cons, List.take_left' hblock.length]
          exact hblock
      | succ k =>
          rw [firstSlot_cons, List.flatten_cons, ← hblock.length, List.drop_length_add_append]
          exact ih hf

end

/-! ## Segments -/

theorem layoutOrder_perm (fields : List DataField) : (layoutOrder fields).Perm fields := by
  have h := List.filter_append_perm (fun f : DataField => !f.isArg) fields
  simp only [Bool.not_not] at h
  exact h

theorem layoutOrder_pairwise (fields : List DataField) :
    (layoutOrder fields).Pairwise fun f g => f.isArg = true → g.isArg = true := by
  rw [layoutOrder, List.pairwise_append]
  refine ⟨?_, ?_, fun f _ g hg _ => (List.mem_filter.mp hg).2⟩
  · refine List.pairwise_of_forall_mem_list fun f hf g _ harg => ?_
    rw [List.mem_filter, harg] at hf
    cases hf.2
  · exact List.pairwise_of_forall_mem_list fun f _ g hg _ => (List.mem_filter.mp hg).2

/-- How the variables lie in a segment. Regions are counted in the order of the layout, which has
plain variables before script arguments. -/
structure Segment.LaysOut (segment : Segment) (fields : List DataField) : Prop where
  layout : segment.layout = segmentLayout fields
  permutation : (layoutOrder fields).Perm fields
  argsLast : (layoutOrder fields).Pairwise fun f g => f.isArg = true → g.isArg = true
  places : ∀ k (f : DataField), (layoutOrder fields)[k]? = some f →
    segment.layout[k]? = some (f.name, firstSlot (layoutOrder fields) k)
  consecutive : ∀ k (f : DataField), (layoutOrder fields)[k]? = some f →
    firstSlot (layoutOrder fields) (k + 1) = firstSlot (layoutOrder fields) k + f.ty.slots
  disjoint : ∀ j k (f g : DataField), (layoutOrder fields)[j]? = some f →
    (layoutOrder fields)[k]? = some g → j < k →
    firstSlot (layoutOrder fields) j + f.ty.slots ≤ firstSlot (layoutOrder fields) k
  covers : ∀ i, i < segment.words.length ↔ ∃ k f, (layoutOrder fields)[k]? = some f ∧
    firstSlot (layoutOrder fields) k ≤ i ∧ i < firstSlot (layoutOrder fields) k + f.ty.slots
  contents : ∀ k (f : DataField), (layoutOrder fields)[k]? = some f →
    f.Region ((segment.words.drop (firstSlot (layoutOrder fields) k)).take f.ty.slots)

theorem laysOut_of_buildSegment {fields : List DataField} {segment : Segment}
    (h : buildSegment fields = .ok segment) : segment.LaysOut fields := by
  obtain ⟨regions, hregions, h⟩ := bind_eq_ok.mp h
  obtain rfl := Except.ok.inj h
  obtain ⟨hplaces, hblocks⟩ := regionsFrom_spec hregions
  constructor
  case layout => exact hplaces
  case permutation => exact layoutOrder_perm fields
  case argsLast => exact layoutOrder_pairwise fields
  case places =>
    intro k f hf
    have hplace := getElem?_placeFrom hf 0
    rw [← hplaces, Nat.zero_add] at hplace
    exact hplace
  case consecutive => exact fun k f hf => firstSlot_succ hf
  case disjoint =>
    intro j k f g hf _ hjk
    rw [← firstSlot_succ hf]
    exact firstSlot_mono hjk
  case covers =>
    intro i
    rw [List.flatMap_def, length_flatten_regions hblocks]
    constructor
    · exact exists_region
    · rintro ⟨k, f, hf, -, hi⟩
      rw [← firstSlot_succ hf] at hi
      exact Nat.lt_of_lt_of_le hi (firstSlot_le (k + 1))
  case contents =>
    intro k f hf
    rw [List.flatMap_def]
    exact region_of_flatten hblocks hf

end GameScript
