import Mathlib.Algebra.GroupWithZero.Nat
import GameScript.Code.Listing
import GameScript.Proofs.DataRegions
import GameScript.Proofs.SlotArithmetic

/-!
# How many slots the arguments of a script take

A segment is the segment of its plain variables followed by the segment of its arguments, so the
arguments take as many slots at the end as their types have. The number that is kept beside the
words is computed in another way: the bytes of all arguments are added up first and rounded to slots
once, and the result is cut to a word. The two numbers are equal exactly if the bytes that fill up
the arguments make no slot together and the slots can be counted in a word. The same condition
decides whether a listing divides the words between the last plain variable and the first argument.
Types of a program are whole slots, so only the second half of it concerns them.
-/
namespace GameScript

def argumentSlots (fields : List DataField) : Nat :=
  slotsOf ((fields.filter DataField.isArg).map DataField.ty)

/-- The bytes that fill each argument up to whole slots, all together. -/
def argumentPadding (fields : List DataField) : Nat :=
  ((fields.filter DataField.isArg).map fun f => slotSize * f.ty.slots - f.ty.size).sum

/-! ## Rounding once and rounding each -/

theorem le_mul_slotsFor (n : Nat) : n ≤ slotSize * slotsFor n := by
  simp only [slotsFor, slotSize]
  omega

/-- The bytes of variables and what fills each of them up make whole slots. -/
theorem foldr_size_add_padding (fields : List DataField) :
    fields.foldr (fun f n => f.ty.size + n) 0 +
      (fields.map fun f => slotSize * f.ty.slots - f.ty.size).sum =
      slotSize * slotsOf (fields.map DataField.ty) := by
  induction fields with
  | nil => rfl
  | cons f fields ih =>
      have hsize : f.ty.size ≤ slotSize * f.ty.slots := le_mul_slotsFor f.ty.size
      rw [List.foldr_cons, List.map_cons, List.sum_cons, List.map_cons, slotsOf, Nat.mul_add, ← ih]
      omega

theorem slotsFor_le_of_add {bytes padding slots : Nat} (h : bytes + padding = slotSize * slots) :
    slotsFor bytes ≤ slots := by
  simp only [slotsFor, slotSize] at h ⊢
  omega

theorem slotsFor_eq_iff_of_add {bytes padding slots : Nat}
    (h : bytes + padding = slotSize * slots) :
    slotsFor bytes = slots ↔ padding < slotSize := by
  simp only [slotsFor, slotSize] at h ⊢
  omega

/-- A number that is at most `slots` is still `slots` after it is cut to a word only if nothing was
cut off. -/
theorem toNat_ofNat_eq_iff {n slots : Nat} (h : n ≤ slots) :
    (UInt32.ofNat n).toNat = slots ↔ n = slots ∧ slots < 2 ^ 32 := by
  rw [UInt32.toNat_ofNat']
  omega

/-- Types of a program are whole slots. -/
theorem Ty.mul_slots {ty : Ty} (h : ty.WellFormed) : slotSize * ty.slots = ty.size :=
  (ty.labelsValid_of_wellFormed h).mul_slots

theorem argumentPadding_eq_zero {fields : List DataField}
    (h : ∀ f ∈ fields, f.isArg = true → f.ty.WellFormed) :
    argumentPadding fields = 0 := by
  rw [argumentPadding, List.sum_eq_zero_iff_forall_eq_nat]
  intro padding hpadding
  obtain ⟨f, hf, rfl⟩ := List.mem_map.mp hpadding
  obtain ⟨hmem, harg⟩ := List.mem_filter.mp hf
  rw [Ty.mul_slots (h f hmem harg), Nat.sub_self]

/-! ## A segment in two parts -/

theorem regionsFrom_cons {f : DataField} {fields : List DataField} {next : Nat} {bs : Bytes}
    {more : List (DataField × Nat × Bytes)} (hbs : f.bytes = .ok bs)
    (hmore : regionsFrom (next + (padToSlot bs).length / slotSize) fields = .ok more) :
    regionsFrom next (f :: fields) = .ok ((f, next, padToSlot bs) :: more) :=
  bind_eq_ok.mpr ⟨bs, hbs, bind_eq_ok.mpr ⟨more, hmore, rfl⟩⟩

/-- Variables that follow others have the same regions and only begin at later slots. -/
theorem regionsFrom_shift {start next : Nat} {fields : List DataField}
    {regions : List (DataField × Nat × Bytes)}
    (h : regionsFrom (start + next) fields = .ok regions) :
    ∃ own, regionsFrom next fields = .ok own ∧ regions = own.map fun r =>
      (r.1, start + r.2.1, r.2.2) := by
  induction fields generalizing next regions with
  | nil => exact ⟨[], rfl, (Except.ok.inj h).symm⟩
  | cons f fields ih =>
      obtain ⟨bs, hbs, h⟩ := bind_eq_ok.mp h
      obtain ⟨more, hmore, h⟩ := bind_eq_ok.mp h
      obtain rfl := Except.ok.inj h
      rw [Nat.add_assoc] at hmore
      obtain ⟨own, hown, rfl⟩ := ih hmore
      exact ⟨(f, next, padToSlot bs) :: own, regionsFrom_cons hbs hown, rfl⟩

theorem regionsFrom_append {next : Nat} {front back : List DataField}
    {regions : List (DataField × Nat × Bytes)}
    (h : regionsFrom next (front ++ back) = .ok regions) :
    ∃ before after, regionsFrom next front = .ok before ∧
      regionsFrom (next + slotsOf (front.map DataField.ty)) back = .ok after ∧
        regions = before ++ after := by
  induction front generalizing next regions with
  | nil => exact ⟨[], regions, rfl, h, rfl⟩
  | cons f front ih =>
      obtain ⟨bs, hbs, h⟩ := bind_eq_ok.mp h
      obtain ⟨more, hmore, h⟩ := bind_eq_ok.mp h
      obtain rfl := Except.ok.inj h
      obtain ⟨before, after, hbefore, hafter, rfl⟩ := ih hmore
      rw [slots_padToSlot hbs, Nat.add_assoc] at hafter
      exact ⟨(f, next, padToSlot bs) :: before, after, regionsFrom_cons hbs hbefore, hafter, rfl⟩

theorem layoutOrder_plain (fields : List DataField) :
    layoutOrder (fields.filter fun f => !f.isArg) = fields.filter fun f => !f.isArg := by
  have hargs : (fields.filter fun f => !f.isArg).filter DataField.isArg = [] := by
    rw [List.filter_filter, List.filter_eq_nil_iff]
    intro f _
    simp
  rw [layoutOrder, hargs, List.append_nil, List.filter_filter]
  simp only [Bool.and_self]

theorem layoutOrder_arguments (fields : List DataField) :
    layoutOrder (fields.filter DataField.isArg) = fields.filter DataField.isArg := by
  have hplain : (fields.filter DataField.isArg).filter (fun f => !f.isArg) = [] := by
    rw [List.filter_filter, List.filter_eq_nil_iff]
    intro f _
    simp
  rw [layoutOrder, hplain, List.nil_append, List.filter_filter]
  simp only [Bool.and_self]

structure Segment.Joins (whole front back : Segment) : Prop where
  words : whole.words = front.words ++ back.words
  layout : whole.layout = front.layout ++ back.layout.map fun p => (p.1, front.words.length + p.2)
  argsCount : whole.argsCount = back.argsCount

theorem buildSegment_joins {fields : List DataField} {segment : Segment}
    (h : buildSegment fields = .ok segment) :
    ∃ plain args, buildSegment (fields.filter fun f => !f.isArg) = .ok plain ∧
      buildSegment (fields.filter DataField.isArg) = .ok args ∧ segment.Joins plain args := by
  obtain ⟨regions, hregions, h⟩ := bind_eq_ok.mp h
  obtain rfl := Except.ok.inj h
  obtain ⟨before, after, hbefore, hafter, rfl⟩ := regionsFrom_append hregions
  rw [Nat.add_comm] at hafter
  obtain ⟨own, hown, rfl⟩ := regionsFrom_shift hafter
  have hlength : (before.flatMap fun r => wordsOfBytes r.2.2).length =
      slotsOf ((fields.filter fun f => !f.isArg).map DataField.ty) := by
    rw [List.flatMap_def]
    exact length_flatten_regions (regionsFrom_spec hbefore).2
  refine ⟨_, _, bind_eq_ok.mpr ⟨before, ?_, rfl⟩, bind_eq_ok.mpr ⟨own, ?_, rfl⟩, ?_, ?_, ?_⟩
  · rw [layoutOrder_plain]
    exact hbefore
  · rw [layoutOrder_arguments]
    exact hown
  · simp only [List.flatMap_append, List.flatMap_map]
  · simp only [hlength, List.map_append, List.map_map, Function.comp_def]
  · simp only [List.filter_filter, Bool.and_self]

theorem length_words_of_arguments {fields : List DataField} {args : Segment}
    (h : buildSegment (fields.filter DataField.isArg) = .ok args) :
    args.words.length = argumentSlots fields := by
  obtain ⟨regions, hregions, h⟩ := bind_eq_ok.mp h
  obtain rfl := Except.ok.inj h
  rw [layoutOrder_arguments] at hregions
  rw [List.flatMap_def]
  exact length_flatten_regions (regionsFrom_spec hregions).2

/-! ## The number of argument slots -/

section
variable {fields : List DataField} {segment : Segment}

theorem argsCount_le (h : buildSegment fields = .ok segment) :
    segment.argsCount.toNat ≤ argumentSlots fields := by
  obtain ⟨regions, -, h⟩ := bind_eq_ok.mp h
  obtain rfl := Except.ok.inj h
  have hrounded := slotsFor_le_of_add (foldr_size_add_padding (fields.filter DataField.isArg))
  rw [UInt32.toNat_ofNat']
  exact Nat.le_trans (Nat.mod_le _ _) hrounded

theorem argsCount_eq_iff (h : buildSegment fields = .ok segment) :
    segment.argsCount.toNat = argumentSlots fields ↔
      argumentPadding fields < slotSize ∧ argumentSlots fields < 2 ^ 32 := by
  obtain ⟨regions, -, h⟩ := bind_eq_ok.mp h
  obtain rfl := Except.ok.inj h
  have hbytes := foldr_size_add_padding (fields.filter DataField.isArg)
  exact (toNat_ofNat_eq_iff (slotsFor_le_of_add hbytes)).trans
    (and_congr_left' (slotsFor_eq_iff_of_add hbytes))

end

/-- Words divided `count` slots before their end are divided into `front` and `back` only if `back`
has `count` words. -/
theorem divided_iff {front back : List Word} {count : Nat} (h : count ≤ back.length) :
    (front ++ back).take ((front ++ back).length - count) = front ∧
        (front ++ back).drop ((front ++ back).length - count) = back ↔ count = back.length := by
  rw [List.length_append]
  constructor
  · rintro ⟨-, hback⟩
    have hlength := congrArg List.length hback
    rw [List.length_drop, List.length_append] at hlength
    omega
  · rintro rfl
    rw [Nat.add_sub_cancel]
    exact ⟨List.take_left, List.drop_left⟩

/-- A segment ends with the segment of its arguments, and the number kept beside it counts the slots
of that part, as a listing needs it, exactly if the padding of the arguments makes no slot and a
word can count them. -/
theorem buildSegment_countsArguments {fields : List DataField} {segment : Segment}
    (h : buildSegment fields = .ok segment) :
    ∃ plain args, buildSegment (fields.filter fun f => !f.isArg) = .ok plain ∧
      buildSegment (fields.filter DataField.isArg) = .ok args ∧ segment.Joins plain args ∧
      args.words.length = argumentSlots fields ∧ segment.argsCount.toNat ≤ argumentSlots fields ∧
      (segment.argsCount.toNat = argumentSlots fields ↔
        argumentPadding fields < slotSize ∧ argumentSlots fields < 2 ^ 32) ∧
      (∀ parts : ScriptParts, parts.statics = segment.words → parts.argsCount = segment.argsCount →
        (parts.statics.take parts.plainCount = plain.words ∧
          parts.statics.drop parts.plainCount = args.words ↔
          segment.argsCount.toNat = argumentSlots fields)) ∧
      ((∀ f ∈ fields, f.isArg = true → f.ty.WellFormed) → argumentSlots fields < 2 ^ 32 →
        segment.argsCount.toNat = argumentSlots fields) := by
  obtain ⟨plain, args, hplain, hargs, hjoins⟩ := buildSegment_joins h
  have hlength := length_words_of_arguments hargs
  have hle := argsCount_le h
  refine ⟨plain, args, hplain, hargs, hjoins, hlength, hle, argsCount_eq_iff h, ?_, ?_⟩
  · intro parts hstatics hcount
    rw [ScriptParts.plainCount, hstatics, hcount, hjoins.words, ← hlength]
    exact divided_iff (hlength ▸ hle)
  · intro hwell hslots
    refine (argsCount_eq_iff h).mpr ⟨?_, hslots⟩
    rw [argumentPadding_eq_zero hwell]
    decide

/-- Two arguments of six bytes: two slots each, but three slots for the twelve bytes. -/
def shortLabels : List DataField := [
  { name := "first", ty := .textLabel 6, isArg := true },
  { name := "lives", ty := .int, init := some (.int 3) },
  { name := "second", ty := .textLabel 6, isArg := true }]

def shortLabelAndNumber : List DataField := [
  { name := "label", ty := .textLabel 6, isArg := true },
  { name := "lives", ty := .int, init := some (.int 3) },
  { name := "level", ty := .int, init := some (.int 9), isArg := true }]

theorem buildSegment_countsArguments_shortLabels :
    (∃ segment, buildSegment shortLabels = .ok segment ∧ segment.argsCount = 3 ∧
      argumentSlots shortLabels = 4 ∧ segment.argsCount.toNat ≠ argumentSlots shortLabels) ∧
    ∃ segment, buildSegment shortLabelAndNumber = .ok segment ∧ segment.words = [3, 0, 0, 9] ∧
      segment.argsCount.toNat = argumentSlots shortLabelAndNumber := by
  obtain ⟨segment, hsegment, hcount⟩ :
      ∃ segment, buildSegment shortLabels = .ok segment ∧ segment.argsCount = 3 := ⟨_, rfl, rfl⟩
  obtain ⟨segment', hsegment', hwords'⟩ :
      ∃ segment, buildSegment shortLabelAndNumber = .ok segment ∧ segment.words = [3, 0, 0, 9] :=
        ⟨_, rfl, by decide⟩
  obtain ⟨_, _, _, _, _, _, _, hexact, _⟩ := buildSegment_countsArguments hsegment
  obtain ⟨_, _, _, _, _, _, _, hexact', _⟩ := buildSegment_countsArguments hsegment'
  refine ⟨⟨segment, hsegment, hcount, rfl, fun heq => ?_⟩, segment', hsegment', hwords',
    hexact'.mpr ?_⟩
  · exact absurd (hexact.mp heq).1 (by decide)
  · exact ⟨by decide, by decide⟩

end GameScript
