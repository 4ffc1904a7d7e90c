import Mathlib.Algebra.Group.Nat.Defs
import Mathlib.Data.List.Chain
import Mathlib.Data.List.TakeWhile
import GameScript.Code.Listing
import GameScript.Text.Integer

/-!
# Folded data can be read back

A listing writes a data segment with one line for each run of equal values: `.int V` for a value
that stands alone, `.int N dup (V)` for `N` copies of it. The reader here takes such lines apart
again. What it reads, written out in full, is the segment value by value: nothing is lost or doubled
where one run ends and the next begins, or at the end of the segment. No run could be longer, and no
other list of such lines stands for the same values.

A run is counted with 32 bits and a sign. From 2147483648 equal values in a row on the count is
another number, and then the lines do not stand for the segment.
-/
namespace GameScript

/-- What one line of a data segment says. -/
inductive DataEntry where
  | one (value : Int)
  | copies (count : Nat) (value : Int)

namespace DataEntry

def value : DataEntry → Int
  | one v => v
  | copies _ v => v

def values : DataEntry → List Int
  | one v => [v]
  | copies n v => List.replicate n v

end DataEntry

def readCount? (digits : List Char) : Option Nat := digitsValue? 10 decimalDigitValue? digits

/-- A decimal number of any size that may have a minus sign. -/
def readInteger? : List Char → Option Int
  | '-' :: digits => (readCount? digits).map fun n => -(n : Int)
  | digits => (readCount? digits).map Int.ofNat

/-- Read a count and the bracketed value that goes with it. Nothing may follow the closing
bracket. -/
def readCopies? (count rest : List Char) : Option DataEntry := do
  let inner ← rest.dropPrefix? " dup (".toList
  let n ← readCount? count
  let v ← readInteger? (inner.takeWhile (· != ')'))
  if inner.dropWhile (· != ')') = [')'] then some (.copies n v) else none

/-- Read what follows the directive. A blank shows that there is a count. -/
def readBody? (body : List Char) : Option DataEntry :=
  match body.dropWhile (· != ' ') with
  | [] => (readInteger? body).map .one
  | rest => readCopies? (body.takeWhile (· != ' ')) rest

def readDataLine? (indent line : String) : Option DataEntry :=
  (line.toList.dropPrefix? (indent ++ ".int ").toList).bind readBody?

/-! ## Numbers -/

theorem isDigit_of_mem_toDigits {n : Nat} {c : Char} (h : c ∈ Nat.toDigits 10 n) :
    c.isDigit = true :=
  Nat.isDigit_of_mem_toDigits (by decide) (Nat.le_refl 10) h

theorem decimalDigitValue?_of_isDigit {c : Char} (h : c.isDigit = true) :
    decimalDigitValue? c = some (c.toNat - '0'.toNat) := by
  rw [Char.isDigit, Bool.and_eq_true, decide_eq_true_eq, decide_eq_true_eq] at h
  exact if_pos h

theorem foldl_decimalDigits {cs : List Char} (h : ∀ c ∈ cs, c.isDigit = true) (n : Nat) :
    cs.foldl (fun acc d => do
      let n ← acc
      let v ← decimalDigitValue? d
      return n * 10 + v) (some n) = some (Nat.ofDigitChars 10 cs n) := by
  induction cs generalizing n with
  | nil => rfl
  | cons c cs ih =>
      have hc := decimalDigitValue?_of_isDigit (h c List.mem_cons_self)
      have hcs := ih (fun d hd => h d (List.mem_cons_of_mem c hd)) (10 * n + (c.toNat - '0'.toNat))
      rw [Nat.ofDigitChars_cons, ← hcs, List.foldl_cons, hc, Nat.mul_comm 10 n]
      rfl

theorem readCount?_toDigits (n : Nat) : readCount? (Nat.toDigits 10 n) = some n := by
  have hvalue := foldl_decimalDigits (fun _ => isDigit_of_mem_toDigits (n := n)) 0
  rw [Nat.ofDigitChars_ten_toDigits] at hvalue
  cases hdigits : Nat.toDigits 10 n with
  | nil => exact absurd hdigits Nat.toDigits_ne_nil
  | cons c cs =>
      rw [hdigits] at hvalue
      exact hvalue

theorem toList_toString_ofNat (n : Nat) : (toString (Int.ofNat n)).toList = Nat.toDigits 10 n := by
  rw [Int.toString_eq_repr, Int.repr, Nat.toList_repr]

theorem toList_toString_negSucc (n : Nat) :
    (toString (Int.negSucc n)).toList = '-' :: Nat.toDigits 10 (n + 1) := by
  rw [Int.toString_eq_repr, Int.repr, String.toList_append, Nat.toList_repr]
  rfl

theorem mem_toString_int {v : Int} {c : Char} (h : c ∈ (toString v).toList) :
    c = '-' ∨ c.isDigit = true := by
  cases v with
  | ofNat n =>
      rw [toList_toString_ofNat] at h
      exact .inr (isDigit_of_mem_toDigits h)
  | negSucc n =>
      rw [toList_toString_negSucc] at h
      exact (List.mem_cons.mp h).imp_right isDigit_of_mem_toDigits

theorem readInteger?_toString (v : Int) : readInteger? (toString v).toList = some v := by
  cases v with
  | ofNat n =>
      -- A number without a sign begins with a digit, which is no sign.
      have hsign (rest : List Char) : Nat.toDigits 10 n ≠ '-' :: rest := by
        intro heq
        exact absurd (isDigit_of_mem_toDigits (heq ▸ List.mem_cons_self)) (by decide)
      rw [toList_toString_ofNat, readInteger?, readCount?_toDigits]
      · rfl
      · exact hsign
  | negSucc n =>
      rw [toList_toString_negSucc, readInteger?, readCount?_toDigits]
      rfl

/-! ## Lines -/

theorem foldl_decimalDigits_none (cs : List Char) :
    cs.foldl (fun acc d => do
      let n ← acc
      let v ← decimalDigitValue? d
      return n * 10 + v) none = none := by
  induction cs with
  | nil => rfl
  | cons c cs ih => exact ih

/-- A number with a sign is no count. -/
theorem readCount?_toString (c : Int) :
    readCount? (toString c).toList = if 0 ≤ c then some c.toNat else none := by
  cases c with
  | ofNat n =>
      rw [toList_toString_ofNat, readCount?_toDigits]
      exact (if_pos (Int.natCast_nonneg n)).symm
  | negSucc n =>
      rw [toList_toString_negSucc, if_neg (Int.not_le.mpr (Int.negSucc_lt_zero n))]
      exact foldl_decimalDigits_none _

def Run.entry? (r : Run) : Option DataEntry :=
  if r.count = 1 then some (.one r.value)
  else if 0 ≤ r.count.toInt then some (.copies r.count.toInt.toNat r.value) else none

/-- A character that numbers do not contain ends them. -/
theorem takeWhile_dropWhile_number {number : List Char} {stop : Char}
    (hnumber : ∀ c ∈ number, c = '-' ∨ c.isDigit = true) (hminus : stop ≠ '-')
    (hdigit : stop.isDigit = false) (rest : List Char) :
    (number ++ stop :: rest).takeWhile (· != stop) = number ∧
      (number ++ stop :: rest).dropWhile (· != stop) = stop :: rest := by
  have hpass : ∀ c ∈ number, (c != stop) = true := by
    intro c hc
    rw [bne_iff_ne]
    rintro rfl
    rcases hnumber c hc with h | h
    · exact hminus h
    · rw [h] at hdigit
      cases hdigit
  rw [List.takeWhile_append_of_pos hpass, List.dropWhile_append_of_pos hpass]
  simp

theorem toList_text_one (v : Int) :
    (Run.text ⟨1, v⟩).toList = ".int ".toList ++ (toString v).toList := by
  rw [Run.text, if_pos rfl, String.toList_append]

theorem toList_text_copies {c : Int32} (h : c ≠ 1) (v : Int) :
    (Run.text ⟨c, v⟩).toList = ".int ".toList ++
      ((toString c.toInt).toList ++ (" dup (".toList ++ ((toString v).toList ++ [')']))) := by
  have hcount : toString c = toString c.toInt := rfl
  rw [Run.text, if_neg h, hcount]
  simp only [String.toList_append, List.append_assoc]
  rfl

theorem readCopies?_written (c v : Int) :
    readCopies? (toString c).toList (" dup (".toList ++ ((toString v).toList ++ [')'])) =
      if 0 ≤ c then some (.copies c.toNat v) else none := by
  have hnumber : ∀ d ∈ (toString v).toList, d = '-' ∨ d.isDigit = true := fun _ => mem_toString_int
  have hclosing : ')' ≠ '-' := by decide
  obtain ⟨htake, hdrop⟩ := takeWhile_dropWhile_number hnumber hclosing (by decide) []
  rw [readCopies?, List.dropPrefix?_append_of_beq _ (beq_self_eq_true _), readCount?_toString]
  split
  · simp only [Option.bind_eq_bind, Option.bind_some, htake, hdrop, readInteger?_toString, if_true]
  · rfl

theorem readBody?_one (v : Int) : readBody? (toString v).toList = some (.one v) := by
  have hblank : (toString v).toList.dropWhile (· != ' ') = [] := by
    rw [List.dropWhile_eq_nil_iff]
    intro c hc
    rw [bne_iff_ne]
    rintro rfl
    exact absurd (mem_toString_int hc) (by decide)
  rw [readBody?, hblank, readInteger?_toString]
  rfl

theorem readBody?_copies (c v : Int) :
    readBody? ((toString c).toList ++ (" dup (".toList ++ ((toString v).toList ++ [')']))) =
      if 0 ≤ c then some (.copies c.toNat v) else none := by
  have hnumber : ∀ d ∈ (toString c).toList, d = '-' ∨ d.isDigit = true := fun _ => mem_toString_int
  have hblank : ' ' ≠ '-' := by decide
  obtain ⟨htake, hdrop⟩ := takeWhile_dropWhile_number hnumber hblank (by decide)
    ("dup (".toList ++ ((toString v).toList ++ [')']))
  have hrest : " dup (".toList ++ ((toString v).toList ++ [')']) =
      ' ' :: ("dup (".toList ++ ((toString v).toList ++ [')'])) := rfl
  rw [readBody?, hrest, hdrop, htake]
  exact readCopies?_written c v

theorem readDataLine?_append (indent : String) {line : String} {body : List Char}
    (h : line.toList = ".int ".toList ++ body) :
    readDataLine? indent (indent ++ line) = readBody? body := by
  rw [readDataLine?, String.toList_append, h, String.toList_append, ← List.append_assoc,
    List.dropPrefix?_append_of_beq body (beq_self_eq_true _), Option.bind_some]

theorem readDataLine?_text (indent : String) (r : Run) :
    readDataLine? indent (indent ++ r.text) = r.entry? := by
  obtain ⟨c, v⟩ := r
  by_cases hone : c = 1
  · subst hone
    exact (readDataLine?_append indent (toList_text_one v)).trans (readBody?_one v)
  · rw [readDataLine?_append indent (toList_text_copies hone v), readBody?_copies, Run.entry?,
      if_neg hone]

theorem newline_notMem_text (r : Run) : '\n' ∉ r.text.toList := by
  obtain ⟨c, v⟩ := r
  have hnumber (n : Int) : '\n' ∉ (toString n).toList := fun h =>
    absurd (mem_toString_int h) (by decide)
  by_cases hone : c = 1
  · subst hone
    rw [toList_text_one, List.mem_append, not_or]
    exact ⟨by decide, hnumber v⟩
  · rw [toList_text_copies hone]
    simp only [List.mem_append, not_or]
    exact ⟨by decide, hnumber _, by decide, hnumber v, by decide⟩

/-! ## Stretches -/

/-- A run of equal values with its true length. -/
structure Stretch where
  count : Nat
  value : Int

def consStretch (value : Int) : List Stretch → List Stretch
  | [] => [⟨1, value⟩]
  | s :: rest =>
    if s.value = value then ⟨s.count + 1, value⟩ :: rest else ⟨1, value⟩ :: s :: rest

def stretches (values : List Int) : List Stretch := values.foldr consStretch []

namespace Stretch

def values (s : Stretch) : List Int := List.replicate s.count s.value

/-- The line that should be written for a stretch. -/
def entry (s : Stretch) : DataEntry :=
  if s.count = 1 then .one s.value else .copies s.count s.value

/-- The run that stands for a stretch, with as much of the count as 32 bits hold. -/
def run (s : Stretch) : Run := ⟨Int32.ofNat s.count, s.value⟩

theorem value_entry (s : Stretch) : s.entry.value = s.value := by
  unfold entry
  split <;> rfl

theorem values_entry (s : Stretch) : s.entry.values = s.values := by
  unfold entry
  split
  · next hone =>
      rw [values, hone]
      rfl
  · rfl

theorem length_values_entry (s : Stretch) : s.entry.values.length = s.count := by
  rw [values_entry, values, List.length_replicate]

/-- A line is read as it should be if its count fits. -/
theorem entry?_run {s : Stretch} (h : s.count < 2 ^ 31) : s.run.entry? = some s.entry := by
  have hcount : (Int32.ofNat s.count).toInt = s.count := Int32.toInt_ofNat_of_lt h
  have hone : Int32.ofNat s.count = 1 ↔ s.count = 1 := by
    rw [← Int32.toInt_inj, hcount]
    exact Int.natCast_inj (n := 1)
  simp only [run, Run.entry?, entry, hone, hcount, Int.natCast_nonneg, if_true, Int.toNat_natCast]
  split <;> rfl

/-- If its count does not fit, it cannot be read, or stands for fewer values. -/
theorem length_lt_of_entry? {s : Stretch} {e : DataEntry} (h : 2 ^ 31 ≤ s.count)
    (he : s.run.entry? = some e) : e.values.length < s.count := by
  have hcount : (Int32.ofNat s.count).toInt = Int.bmod s.count (2 ^ 32) := Int32.toInt_ofNat'
  unfold run Run.entry? at he
  split at he
  · obtain rfl := Option.some.inj he
    have hone : 1 < 2 ^ 31 := by decide
    exact Nat.lt_of_lt_of_le hone h
  · split at he
    · next hsign =>
        obtain rfl := Option.some.inj he
        simp only [hcount] at hsign ⊢
        rw [DataEntry.values, List.length_replicate]
        rw [Int.bmod_def] at hsign ⊢
        split at hsign <;> omega
    · cases he

end Stretch

/-- Stretches that are not empty, each as long as possible. -/
structure MaximalRuns (runs : List Stretch) : Prop where
  nonempty : ∀ s ∈ runs, 0 < s.count
  neighbours : runs.IsChain fun s t => s.value ≠ t.value

theorem foldRuns_eq (values : List Int) : foldRuns values = (stretches values).map Stretch.run := by
  induction values with
  | nil => rfl
  | cons v vs ih =>
      have hfold : foldRuns (v :: vs) = consRun v (foldRuns vs) := rfl
      have hstretches : stretches (v :: vs) = consStretch v (stretches vs) := rfl
      rw [hfold, hstretches, ih]
      cases stretches vs with
      | nil => rfl
      | cons s rest =>
          have hcount : Int32.ofNat (s.count + 1) = Int32.ofNat s.count + 1 := Int32.ofNat_add _ _
          by_cases hvalue : s.value = v
          · simp only [List.map_cons, consRun, consStretch, Stretch.run, hvalue, if_true, hcount]
          · simp only [List.map_cons, consRun, consStretch, Stretch.run, hvalue, if_false]
            rfl

theorem flatMap_consStretch (v : Int) (runs : List Stretch) :
    (consStretch v runs).flatMap Stretch.values = v :: runs.flatMap Stretch.values := by
  cases runs with
  | nil => rfl
  | cons s rest =>
      rw [consStretch]
      split
      · next hvalue =>
          subst hvalue
          rw [List.flatMap_cons, List.flatMap_cons, Stretch.values, List.replicate_succ,
            List.cons_append]
          rfl
      · rfl

theorem MaximalRuns.consStretch {runs : List Stretch} (h : MaximalRuns runs) (v : Int) :
    MaximalRuns (consStretch v runs) := by
  cases runs with
  | nil => exact ⟨by simp [GameScript.consStretch], .singleton _⟩
  | cons s rest =>
      have hrest : ∀ t ∈ rest, 0 < t.count := fun t ht => h.nonempty t (List.mem_cons_of_mem s ht)
      rw [GameScript.consStretch]
      split
      · next hvalue =>
          -- The first stretch grows, and the one after it still has another value.
          subst hvalue
          obtain ⟨hhead, htail⟩ := List.isChain_cons.mp h.neighbours
          exact ⟨List.forall_mem_cons.mpr ⟨Nat.succ_pos _, hrest⟩,
            List.isChain_cons.mpr ⟨hhead, htail⟩⟩
      · next hvalue =>
          exact ⟨List.forall_mem_cons.mpr ⟨Nat.one_pos, h.nonempty⟩,
            .cons_cons (Ne.symm hvalue) h.neighbours⟩

theorem flatMap_stretches (values : List Int) :
    (stretches values).flatMap Stretch.values = values := by
  induction values with
  | nil => rfl
  | cons v vs ih =>
      rw [stretches, List.foldr_cons, flatMap_consStretch]
      exact congrArg (v :: ·) ih

theorem maximalRuns_stretches (values : List Int) : MaximalRuns (stretches values) := by
  induction values with
  | nil => exact ⟨fun _ hs => absurd hs List.not_mem_nil, .nil⟩
  | cons v vs ih => exact ih.consStretch v

/-- Copies of a value in front of stretches become one stretch, if the first of these has another
value. -/
theorem foldr_consStretch_replicate {runs : List Stretch} {v : Int}
    (h : ∀ s ∈ runs.head?, v ≠ s.value) (n : Nat) :
    (List.replicate (n + 1) v).foldr consStretch runs = ⟨n + 1, v⟩ :: runs := by
  induction n with
  | zero =>
      cases runs with
      | nil => rfl
      | cons s rest => exact if_neg (h s rfl).symm
  | succ n ih =>
      rw [List.replicate_succ, List.foldr_cons, ih]
      exact if_pos rfl

theorem MaximalRuns.stretches_values {runs : List Stretch} (h : MaximalRuns runs) :
    stretches (runs.flatMap Stretch.values) = runs := by
  induction runs with
  | nil => rfl
  | cons s rest ih =>
      obtain ⟨hhead, htail⟩ := List.isChain_cons.mp h.neighbours
      have hrest := ih ⟨fun t ht => h.nonempty t (List.mem_cons_of_mem s ht), htail⟩
      -- An empty stretch would vanish in its values, so the first one needs a value to be found
      -- again.
      obtain ⟨n, hn⟩ := Nat.exists_eq_add_one.mpr (h.nonempty s List.mem_cons_self)
      rw [stretches] at hrest
      rw [stretches, List.flatMap_cons, List.foldr_append, hrest, Stretch.values, hn,
        foldr_consStretch_replicate hhead, ← hn]

/-- Equal values at the front of a list are in its first stretch. -/
theorem head_of_replicate_prefix {v : Int} {n : Nat} {values : List Int}
    (h : List.replicate (n + 1) v <+: values) :
    ∃ s rest, stretches values = s :: rest ∧ s.value = v ∧ n + 1 ≤ s.count := by
  obtain ⟨after, rfl⟩ := h
  induction n with
  | zero =>
      have hcons : stretches (List.replicate 1 v ++ after) = consStretch v (stretches after) := rfl
      rw [hcons]
      cases stretches after with
      | nil => exact ⟨_, _, rfl, rfl, Nat.le_refl 1⟩
      | cons s rest =>
          rw [consStretch]
          split
          · exact ⟨_, _, rfl, rfl, Nat.le_add_left 1 s.count⟩
          · exact ⟨_, _, rfl, rfl, Nat.le_refl 1⟩
  | succ n ih =>
      obtain ⟨s, rest, hs, rfl, hcount⟩ := ih
      have hcons : stretches (List.replicate (n + 1 + 1) s.value ++ after) =
          consStretch s.value (stretches (List.replicate (n + 1) s.value ++ after)) := rfl
      rw [hcons, hs, consStretch, if_pos rfl]
      exact ⟨_, _, rfl, rfl, Nat.succ_le_succ hcount⟩

/-- Equal values in a row are in one stretch. -/
theorem exists_stretch_of_infix {v : Int} {n : Nat} {values : List Int}
    (h : List.replicate (n + 1) v <:+: values) : ∃ s ∈ stretches values, n + 1 ≤ s.count := by
  induction values with
  | nil => exact absurd (List.infix_nil.mp h) (by simp)
  | cons w ws ih =>
      rcases List.infix_cons_iff.mp h with hfront | hback
      · obtain ⟨s, rest, hs, -, hcount⟩ := head_of_replicate_prefix hfront
        exact ⟨s, hs ▸ List.mem_cons_self, hcount⟩
      · obtain ⟨s, hs, hcount⟩ := ih hback
        have hcons : stretches (w :: ws) = consStretch w (stretches ws) := rfl
        rw [hcons]
        cases hws : stretches ws with
        | nil =>
            rw [hws] at hs
            cases hs
        | cons t rest =>
            rw [hws] at hs
            rw [consStretch]
            split
            · rcases List.mem_cons.mp hs with rfl | hs
              · exact ⟨_, List.mem_cons_self, Nat.le_succ_of_le hcount⟩
              · exact ⟨s, List.mem_cons_of_mem _ hs, hcount⟩
            · exact ⟨s, List.mem_cons_of_mem _ hs, hcount⟩

/-- No value stands 2147483648 times in a row. -/
def ShortRuns (values : List Int) : Prop := ∀ v, ¬ List.replicate (2 ^ 31) v <:+: values

theorem ShortRuns.count_lt {values : List Int} (h : ShortRuns values) {s : Stretch}
    (hs : s ∈ stretches values) : s.count < 2 ^ 31 := by
  refine Nat.lt_of_not_le fun hlong => h s.value ?_
  obtain ⟨before, after, hsplit⟩ := List.append_of_mem hs
  have hvalues := flatMap_stretches values
  rw [hsplit, List.flatMap_append, List.flatMap_cons] at hvalues
  have hfront : List.replicate (2 ^ 31) s.value <:+: s.values := by
    rw [Stretch.values, List.infix_replicate_iff, List.length_replicate]
    exact ⟨hlong, rfl⟩
  rw [← hvalues]
  exact hfront.trans ((List.prefix_append _ _).isInfix.trans (List.suffix_append _ _).isInfix)

theorem exists_long_of_not_shortRuns {values : List Int} (h : ¬ ShortRuns values) :
    ∃ s ∈ stretches values, 2 ^ 31 ≤ s.count := by
  obtain ⟨v, hv⟩ := Classical.not_forall.mp h
  exact exists_stretch_of_infix (n := 2 ^ 31 - 1) (Classical.not_not.mp hv)

/-! ## Segments -/

/-- Lines that count at least two copies and of which no two neighbours could be one. -/
structure FoldedEntries (entries : List DataEntry) : Prop where
  counts : ∀ n v, .copies n v ∈ entries → 2 ≤ n
  neighbours : entries.IsChain fun a b => a.value ≠ b.value

theorem MaximalRuns.foldedEntries {runs : List Stretch} (h : MaximalRuns runs) :
    FoldedEntries (runs.map Stretch.entry) where
  counts n v hmem := by
    obtain ⟨s, hs, hentry⟩ := List.mem_map.mp hmem
    have hpos := h.nonempty s hs
    unfold Stretch.entry at hentry
    split at hentry
    · cases hentry
    · next hone =>
        obtain ⟨rfl, -⟩ := DataEntry.copies.inj hentry
        omega
  neighbours := by
    rw [List.isChain_map]
    simpa only [Stretch.value_entry] using h.neighbours

namespace DataEntry

def stretch : DataEntry → Stretch
  | one v => ⟨1, v⟩
  | copies n v => ⟨n, v⟩

theorem value_stretch (e : DataEntry) : e.stretch.value = e.value := by cases e <;> rfl

theorem values_stretch (e : DataEntry) : e.stretch.values = e.values := by cases e <;> rfl

/-- A line that counts no fewer than two copies is the line of its stretch. -/
theorem entry_stretch {e : DataEntry} (h : ∀ n v, e = copies n v → 2 ≤ n) :
    e.stretch.entry = e := by
  cases e with
  | one v => rfl
  | copies n v =>
      have hn : n ≠ 1 := Nat.ne_of_gt (h n v rfl)
      exact if_neg hn

theorem count_le_length {entries : List DataEntry} {n : Nat} {v : Int}
    (h : .copies n v ∈ entries) : n ≤ (entries.flatMap values).length := by
  have hsub := List.sublist_flatten_of_mem (List.mem_map_of_mem (f := values) h)
  rw [← List.flatMap_def] at hsub
  simpa only [values, List.length_replicate] using hsub.length_le

end DataEntry

namespace FoldedEntries

variable {entries : List DataEntry} (h : FoldedEntries entries)
include h

theorem maximalRuns : MaximalRuns (entries.map DataEntry.stretch) where
  nonempty := by
    rw [List.forall_mem_map]
    intro e he
    cases e with
    | one v => exact Nat.one_pos
    | copies n v => exact Nat.lt_of_lt_of_le Nat.two_pos (h.counts n v he)
  neighbours := by
    rw [List.isChain_map]
    simpa only [DataEntry.value_stretch] using h.neighbours

/-- Folding the values that folded lines stand for gives the lines again. -/
theorem map_entry_stretches :
    (stretches (entries.flatMap DataEntry.values)).map Stretch.entry = entries := by
  have hvalues : entries.flatMap DataEntry.values =
      (entries.map DataEntry.stretch).flatMap Stretch.values := by
    rw [List.flatMap_map]
    simp only [DataEntry.values_stretch]
  have hentry : ∀ e ∈ entries, (Stretch.entry ∘ DataEntry.stretch) e = id e := fun e he =>
    DataEntry.entry_stretch fun n v heq => h.counts n v (heq ▸ he)
  rw [hvalues, h.maximalRuns.stretches_values, List.map_map, List.map_congr_left hentry,
    List.map_id]

end FoldedEntries

def ReadAs (indent : String) (words : List Word) (entries : List DataEntry) : Prop :=
  (dataLines indent words).map (readDataLine? indent) = entries.map some

theorem map_readDataLine? (indent : String) (words : List Word) :
    (dataLines indent words).map (readDataLine? indent) =
      (stretches (words.map Word.toSigned)).map fun s => s.run.entry? := by
  simp only [dataLines, foldRuns_eq, List.map_map, Function.comp_def, readDataLine?_text]

theorem readAs_of_shortRuns (indent : String) {words : List Word}
    (h : ShortRuns (words.map Word.toSigned)) :
    ReadAs indent words ((stretches (words.map Word.toSigned)).map Stretch.entry) := by
  rw [ReadAs, map_readDataLine?, List.map_map]
  exact List.map_congr_left fun s hs => Stretch.entry?_run (h.count_lt hs)

/-- Where lines can be read, they stand for no more values than there are, and for fewer if a count
does not fit. -/
theorem length_flatMap_le {runs : List Stretch} {entries : List DataEntry}
    (h : runs.map (fun s => s.run.entry?) = entries.map some) :
    (entries.flatMap DataEntry.values).length ≤ (runs.flatMap Stretch.values).length ∧
      ((∃ s ∈ runs, 2 ^ 31 ≤ s.count) →
        (entries.flatMap DataEntry.values).length < (runs.flatMap Stretch.values).length) := by
  induction runs generalizing entries with
  | nil =>
      obtain rfl := List.map_eq_nil_iff.mp h.symm
      exact ⟨Nat.le_refl _, fun ⟨s, hs, _⟩ => absurd hs List.not_mem_nil⟩
  | cons s rest ih =>
      obtain ⟨e, more, rfl, hfirst, hmore⟩ := List.map_eq_cons_iff.mp h.symm
      have he : s.run.entry? = some e := hfirst.symm
      obtain ⟨hle, hlt⟩ := ih hmore.symm
      have hlength : s.values.length = s.count := List.length_replicate
      simp only [List.flatMap_cons, List.length_append, hlength]
      by_cases hlong : 2 ^ 31 ≤ s.count
      · have hfewer := Stretch.length_lt_of_entry? hlong he
        exact ⟨by omega, fun _ => by omega⟩
      · rw [Stretch.entry?_run (Nat.lt_of_not_le hlong)] at he
        obtain rfl := Option.some.inj he
        rw [s.length_values_entry]
        refine ⟨by omega, fun ⟨t, ht, htlong⟩ => ?_⟩
        rcases List.mem_cons.mp ht with rfl | ht
        · exact absurd htlong hlong
        · have := hlt ⟨t, ht, htlong⟩
          omega

/-- The lines of a segment can be read, and stand for its values in their order, exactly if no value
stands 2147483648 times in a row. Then a count is at least two and no more than there are words, and
two lines that follow each other have different values; and there is no other way to fold the values
like that. Apart from the indentation, no line has a line break in it. -/
theorem dataLines_exact (indent : String) (words : List Word) :
    ((∃ entries, ReadAs indent words entries ∧
      entries.flatMap DataEntry.values = words.map Word.toSigned) ↔
        ShortRuns (words.map Word.toSigned)) ∧
    (ShortRuns (words.map Word.toSigned) → ∃ entries : List DataEntry,
      ReadAs indent words entries ∧
        entries.flatMap DataEntry.values = words.map Word.toSigned ∧
        FoldedEntries entries ∧
        (∀ n v, .copies n v ∈ entries → n ≤ words.length) ∧
        ∀ others, FoldedEntries others →
          others.flatMap DataEntry.values = words.map Word.toSigned → others = entries) ∧
    ∀ line ∈ dataLines indent words, ∃ written, line = indent ++ written ∧
      '\n' ∉ written.toList := by
  have hvalues : ((stretches (words.map Word.toSigned)).map Stretch.entry).flatMap
      DataEntry.values = words.map Word.toSigned := by
    rw [List.flatMap_map]
    simp only [Stretch.values_entry, flatMap_stretches]
  refine ⟨⟨fun ⟨entries, hread, heq⟩ => ?_, fun hshort => ?_⟩, fun hshort => ?_,
    fun line hline => ?_⟩
  · refine Classical.byContradiction fun hlong => ?_
    rw [ReadAs, map_readDataLine?] at hread
    have hfewer := (length_flatMap_le hread).2 (exists_long_of_not_shortRuns hlong)
    rw [heq, flatMap_stretches] at hfewer
    exact Nat.lt_irrefl _ hfewer
  · exact ⟨_, readAs_of_shortRuns indent hshort, hvalues⟩
  · refine ⟨_, readAs_of_shortRuns indent hshort, hvalues,
      (maximalRuns_stretches _).foldedEntries, fun n v hmem => ?_, fun others hfolded heq => ?_⟩
    · have hle := DataEntry.count_le_length hmem
      rwa [hvalues, List.length_map] at hle
    · rw [← heq, hfolded.map_entry_stretches]
  · obtain ⟨r, -, rfl⟩ := List.mem_map.mp hline
    exact ⟨r.text, rfl, newline_notMem_text r⟩

/-- Three ones and a negative value take two lines. -/
theorem dataLines_exact_threeOnes :
    ShortRuns ([1, 1, 1, 0xFFFFFFFC].map Word.toSigned) ∧
      FoldedEntries [.copies 3 1, .one (-4)] ∧
      ReadAs indentation [1, 1, 1, 0xFFFFFFFC] [.copies 3 1, .one (-4)] := by
  have hshort : ShortRuns ([1, 1, 1, 0xFFFFFFFC].map Word.toSigned) := by
    intro v hlong
    have hle := hlong.length_le
    rw [List.length_replicate] at hle
    exact absurd hle (by decide)
  have hfolded : FoldedEntries [.copies 3 1, .one (-4)] := by
    refine ⟨fun n v hmem => ?_, .cons_cons (by decide) (.singleton _)⟩
    rcases List.mem_cons.mp hmem with heq | hmem
    · obtain ⟨rfl, -⟩ := DataEntry.copies.inj heq
      decide
    · cases List.mem_singleton.mp hmem
  obtain ⟨entries, hread, -, -, -, hunique⟩ :=
    (dataLines_exact indentation [1, 1, 1, 0xFFFFFFFC]).2.1 hshort
  obtain rfl := hunique _ hfolded (by decide)
  exact ⟨hshort, hfolded, hread⟩

end GameScript
