/-
# Numerals

A field is written as a numeral: digits with the continuation bit, and one digit without it.  The
groups of the digits are the places of a word to the base 32, lowest first, and the lowest bit of
the word is the sign of the number that it stands for.

The main facts:

* `readValue_text` : a numeral of at most 205 digits is read as its number, whatever follows it;
* `exists_numeral_of_readValue` : every field that is read and has a value is such a numeral;
* `exists_run_of_readValue` : a field without a value starts with 205 digits that are continued;
* `text_ofNumber`, `value_ofNumber` : a number is written as a numeral, which stands for that number
  if it is an integer of at most 31 bits.
-/
import Mathlib.Data.Nat.Digits.Defs
import Provenance.Proofs.Except
import Provenance.Vlq.Encode
import Provenance.Vlq.Read

namespace Provenance.Vlq

/-! ## Digits and groups -/

/-- A group of five bits. -/
abbrev Group := Fin 32

/-- The largest magnitude of a number that a field stands for. -/
abbrev maxMagnitude : Nat := 0x7FFFFFFF

/-- Whether a unit is a digit with the continuation bit. -/
def continues (u : CodeUnit) : Bool := (Base64.digitOf? u).any (32 ≤ ·)

/-- The digit of a group that is followed by another one. -/
def continuedUnit (g : Group) : CodeUnit := Base64.unitOf (32 + g.val)

/-- The digit of a last group. -/
def lastUnit (g : Group) : CodeUnit := Base64.unitOf g.val

/-- The word that groups are the places of, lowest first. -/
def wordOf (gs : List Group) : Nat := Nat.ofDigits 32 (gs.map Fin.val)

@[simp] theorem wordOf_nil : wordOf [] = 0 := rfl

@[simp] theorem wordOf_cons (g : Group) (gs : List Group) :
    wordOf (g :: gs) = g.val + 32 * wordOf gs := by
  rw [wordOf, List.map_cons, Nat.ofDigits_cons]
  rfl

@[simp] theorem digitOf?_continuedUnit (g : Group) :
    Base64.digitOf? (continuedUnit g) = some (32 + g.val) := Base64.digitOf?_unitOf (by omega)

@[simp] theorem digitOf?_lastUnit (g : Group) : Base64.digitOf? (lastUnit g) = some g.val :=
  Base64.digitOf?_unitOf (by omega)

@[simp] theorem continues_continuedUnit (g : Group) : continues (continuedUnit g) = true := by
  simp [continues]

@[simp] theorem continues_lastUnit (g : Group) : continues (lastUnit g) = false := by
  have hg := g.isLt
  simp only [continues, digitOf?_lastUnit, Option.any_some, decide_eq_false_iff_not]
  omega

/-- No digit ends a list of fields. -/
theorem endsFields_eq_false {u : CodeUnit} {d : Nat} (h : Base64.digitOf? u = some d) :
    endsFields u = false := by
  cases hu : endsFields u with
  | false => rfl
  | true =>
    rw [endsFields, Bool.or_eq_true, beq_iff_eq, beq_iff_eq] at hu
    rcases hu with rfl | rfl
    · exact absurd (show none = some d from h) (by simp)
    · exact absurd (show none = some d from h) (by simp)

/-- Every digit is the digit of a group, continued or last. -/
theorem exists_group {u : CodeUnit} {d : Nat} (h : Base64.digitOf? u = some d) :
    ∃ g : Group, d % 32 = g.val ∧ u = if 32 ≤ d then continuedUnit g else lastUnit g := by
  have hd := Base64.digitOf?_lt h
  refine ⟨⟨d % 32, by omega⟩, rfl, ?_⟩
  rw [← Base64.unitOf_digitOf? h]
  split
  · show Base64.unitOf d = Base64.unitOf (32 + d % 32)
    congr 1
    omega
  · show Base64.unitOf d = Base64.unitOf (d % 32)
    congr 1
    omega

/-! ## Reading digits -/

/-- The sum after one more group within the limit, at a place of finite weight. -/
theorem addGroup_of_le {place total group : Nat} (hplace : place < finitePlaces)
    (h : total + group * 32 ^ place ≤ maxWord) :
    addGroup place (some total) group = some (some (total + group * 32 ^ place)) := by
  rw [addGroup, if_pos hplace]
  exact if_pos h

/-- A sum that goes on is within the limit, or is left without a value behind the last place of
finite weight. -/
theorem addGroup_eq_some {place total group : Nat} {sum : Option Nat}
    (h : addGroup place (some total) group = some sum) :
    (place < finitePlaces ∧ total + group * 32 ^ place ≤ maxWord ∧
      sum = some (total + group * 32 ^ place)) ∨ (finitePlaces ≤ place ∧ sum = none) := by
  rw [addGroup] at h
  split at h
  · rename_i hplace
    split at h
    · rename_i hle
      exact Or.inl ⟨hplace, hle, (Option.some.inj h).symm⟩
    · cases h
  · rename_i hplace
    split at h
    · exact Or.inr ⟨Nat.not_lt.mp hplace, (Option.some.inj h).symm⟩
    · cases h

/-- A continued digit adds its group, and the reading goes on. -/
theorem readDigits_continued {start place : Nat} {sum sum' : Option Nat} {g : Group} {rest : Text}
    (h : addGroup place sum g.val = some sum') :
    readDigits start place sum (continuedUnit g :: rest) =
      readDigits start (place + 1) sum' rest := by
  have hg : (32 + g.val) % 32 = g.val := by omega
  rw [readDigits, endsFields_eq_false (digitOf?_continuedUnit g), if_neg Bool.false_ne_true,
    digitOf?_continuedUnit]
  simp only [hg, h]
  rw [if_pos (Nat.le_add_right 32 g.val)]

/-- A last digit adds its group, and the field ends. -/
theorem readDigits_last {start place : Nat} {sum sum' : Option Nat} {g : Group} {rest : Text}
    (h : addGroup place sum g.val = some sum') :
    readDigits start place sum (lastUnit g :: rest) =
      .ok ⟨signed sum', start + place + 1, rest⟩ := by
  have hg : g.val % 32 = g.val := Nat.mod_eq_of_lt g.isLt
  rw [readDigits, endsFields_eq_false (digitOf?_lastUnit g), if_neg Bool.false_ne_true,
    digitOf?_lastUnit]
  simp only [hg, h]
  rw [if_neg (Nat.not_le.mpr g.isLt)]

/-- All that can be read of a field: a continued digit with more of the field behind it, or a last
digit. -/
theorem readDigits_cases {start place : Nat} {sum : Option Nat} {t : Text} {f : Field}
    (h : readDigits start place sum t = .ok f) :
    ∃ g sum', addGroup place sum g.val = some sum' ∧
      ((∃ rest, t = continuedUnit g :: rest ∧ readDigits start (place + 1) sum' rest = .ok f) ∨
        (t = lastUnit g :: f.rest ∧ f.value = signed sum')) := by
  cases t with
  | nil => cases h
  | cons u rest =>
    rw [readDigits] at h
    split at h
    · cases h
    · split at h
      · cases h
      · rename_i d hd
        obtain ⟨g, hg, hu⟩ := exists_group hd
        split at h
        · cases h
        · rename_i sum' hsum
          refine ⟨g, sum', by rw [← hg]; exact hsum, ?_⟩
          split at h
          · rename_i hd32
            rw [if_pos hd32] at hu
            exact Or.inl ⟨rest, by rw [hu], h⟩
          · rename_i hd32
            rw [if_neg hd32] at hu
            obtain rfl := Except.ok.inj h
            exact Or.inr ⟨by rw [hu], rfl⟩

/-- The digits of a field that follow a sum within the limit. -/
theorem readDigits_units (start place total : Nat) (gs : List Group) (last : Group) (rest : Text)
    (hplace : place + gs.length < finitePlaces)
    (h : total + wordOf (gs ++ [last]) * 32 ^ place ≤ maxWord) :
    readDigits start place (some total) (gs.map continuedUnit ++ lastUnit last :: rest) =
      .ok ⟨signed (some (total + wordOf (gs ++ [last]) * 32 ^ place)),
        start + place + gs.length + 1, rest⟩ := by
  induction gs generalizing place total with
  | nil =>
    simp only [List.nil_append, wordOf_cons, wordOf_nil, Nat.mul_zero, Nat.add_zero] at h ⊢
    exact readDigits_last (addGroup_of_le hplace h)
  | cons g gs ih =>
    have hword : total + wordOf (g :: gs ++ [last]) * 32 ^ place =
        total + g.val * 32 ^ place + wordOf (gs ++ [last]) * 32 ^ (place + 1) := by
      rw [List.cons_append, wordOf_cons]
      ring
    rw [hword] at h ⊢
    rw [List.length_cons] at hplace ⊢
    rw [List.map_cons, List.cons_append,
      readDigits_continued (addGroup_of_le (by omega) (Nat.le_of_add_right_le h)),
      ih _ _ (by omega) h]
    congr 2
    omega

/-- A field whose sum has no value has none. -/
theorem value_of_readDigits_none {start place : Nat} {t : Text} {f : Field}
    (h : readDigits start place none t = .ok f) : f.value = .nan := by
  induction t generalizing place with
  | nil => cases h
  | cons u rest ih =>
    obtain ⟨g, sum', hsum, ⟨rest', ht, h⟩ | ⟨-, hvalue⟩⟩ := readDigits_cases h
    · obtain rfl := Option.some.inj hsum
      exact ih ((List.cons.inj ht).2 ▸ h)
    · rw [hvalue, ← Option.some.inj hsum]
      rfl

/-- The units of a field with a value are the digits of groups within the limit. -/
theorem exists_units_of_readDigits {start place total : Nat} {t : Text} {f : Field}
    (h : readDigits start place (some total) t = .ok f) (hvalue : f.value ≠ .nan) :
    ∃ gs last, t = gs.map continuedUnit ++ lastUnit last :: f.rest ∧
      place + gs.length < finitePlaces ∧ total + wordOf (gs ++ [last]) * 32 ^ place ≤ maxWord := by
  induction t generalizing place total with
  | nil => cases h
  | cons u rest ih =>
    obtain ⟨g, sum', hsum, hcases⟩ := readDigits_cases h
    obtain ⟨hplace, hle, rfl⟩ | ⟨-, rfl⟩ := addGroup_eq_some hsum
    · obtain ⟨rest', ht, h⟩ | ⟨ht, -⟩ := hcases
      · obtain ⟨rfl, rfl⟩ := List.cons.inj ht
        obtain ⟨gs, last, rfl, hlength, hword⟩ := ih h
        refine ⟨g :: gs, last, rfl, ?_, ?_⟩
        · rw [List.length_cons]
          omega
        · calc total + wordOf (g :: gs ++ [last]) * 32 ^ place
              = total + g.val * 32 ^ place + wordOf (gs ++ [last]) * 32 ^ (place + 1) := by
                rw [List.cons_append, wordOf_cons]
                ring
            _ ≤ maxWord := hword
      · exact ⟨[], g, ht, hplace, by simpa using hle⟩
    -- a sum without a value gives a field without one
    · obtain ⟨rest', -, h⟩ | ⟨-, hnan⟩ := hcases
      · exact absurd (value_of_readDigits_none h) hvalue
      · exact absurd hnan hvalue

/-- A field without a value has continued digits at all places of finite weight. -/
theorem exists_run_of_readDigits {start place total : Nat} {t : Text} {f : Field}
    (h : readDigits start place (some total) t = .ok f) (hvalue : f.value = .nan) :
    ∃ run rest, t = run ++ rest ∧ (∀ u ∈ run, continues u = true) ∧
      finitePlaces ≤ place + run.length := by
  induction t generalizing place total with
  | nil => cases h
  | cons u rest ih =>
    obtain ⟨g, sum', hsum, hcases⟩ := readDigits_cases h
    obtain ⟨-, -, rfl⟩ | ⟨hplace, -⟩ := addGroup_eq_some hsum
    · obtain ⟨rest', ht, h⟩ | ⟨-, hsigned⟩ := hcases
      · obtain ⟨rfl, rfl⟩ := List.cons.inj ht
        obtain ⟨run, rest, rfl, hrun, hlength⟩ := ih h
        refine ⟨continuedUnit g :: run, rest, rfl, ?_, ?_⟩
        · exact List.forall_mem_cons.mpr ⟨continues_continuedUnit g, hrun⟩
        · rw [List.length_cons]
          omega
      · rw [hsigned, signed] at hvalue
        split at hvalue <;> cases hvalue
    · exact ⟨[], u :: rest, rfl, by simp, by simpa using hplace⟩

/-- What follows a field is the end of the text that it is read from. -/
theorem rest_suffix_of_readDigits {start place : Nat} {sum : Option Nat} {t : Text} {f : Field}
    (h : readDigits start place sum t = .ok f) : f.rest <:+ t := by
  induction t generalizing place sum with
  | nil => cases h
  | cons u rest ih =>
    obtain ⟨g, sum', -, ⟨rest', ht, h⟩ | ⟨ht, -⟩⟩ := readDigits_cases h
    · obtain ⟨-, rfl⟩ := List.cons.inj ht
      exact (ih h).trans (List.suffix_cons u rest)
    · rw [(List.cons.inj ht).2]
      exact List.suffix_cons u f.rest

/-! ## Numerals -/

/-- The groups of a field's digits, which stand for a word of 32 bits. -/
structure Numeral where
  /-- The groups under the continuation bit. -/
  continued : List Group
  last : Group
  word_le : wordOf (continued ++ [last]) ≤ maxWord

namespace Numeral

/-- The word of a numeral. -/
def word (n : Numeral) : Nat := wordOf (n.continued ++ [n.last])

/-- The number that a numeral stands for: the lowest bit of its word is the sign. -/
def value (n : Numeral) : Int := if n.word % 2 = 1 then -(n.word / 2 : Nat) else (n.word / 2 : Nat)

/-- The digits of a numeral. -/
def text (n : Numeral) : Text := n.continued.map continuedUnit ++ [lastUnit n.last]

/-- A numeral has at most 205 digits. -/
def Short (n : Numeral) : Prop := n.continued.length < finitePlaces

theorem text_ne_nil (n : Numeral) : n.text ≠ [] := by
  simp [text]

theorem signed_word (n : Numeral) : signed (some n.word) = (n.value : Number) := by
  unfold signed value
  dsimp only
  split
  · rfl
  · rw [← Number.intCast_natCast]

/-- No unit of a numeral ends a list of fields. -/
theorem endsFields_of_mem {n : Numeral} {u : CodeUnit} (h : u ∈ n.text) : endsFields u = false := by
  rcases List.mem_append.mp h with h | h
  · obtain ⟨g, -, rfl⟩ := List.mem_map.mp h
    exact endsFields_eq_false (digitOf?_continuedUnit g)
  · rw [List.mem_singleton.mp h]
    exact endsFields_eq_false (digitOf?_lastUnit n.last)

/-- The numbers that numerals stand for have 31 bits. -/
theorem natAbs_value_le (n : Numeral) : n.value.natAbs ≤ maxMagnitude := by
  have hword : n.word ≤ 0xFFFFFFFF := n.word_le
  unfold value maxMagnitude
  split <;> omega

end Numeral

/-! ## Reading numerals -/

/-- **A short numeral is read as its number, whatever follows it.** -/
theorem readValue_text {n : Numeral} (hn : n.Short) (start : Nat) (rest : Text) :
    readValue start (n.text ++ rest) = .ok ⟨(n.value : Number), start + n.text.length, rest⟩ := by
  have hword : 0 + wordOf (n.continued ++ [n.last]) * 32 ^ 0 = n.word := by
    rw [Nat.zero_add, Nat.pow_zero, Nat.mul_one]
    rfl
  have hread := readDigits_units start 0 0 n.continued n.last rest
    (by rw [Nat.zero_add]; exact hn) (by rw [hword]; exact n.word_le)
  rw [hword, Numeral.signed_word] at hread
  rw [readValue, Numeral.text, List.append_assoc, List.singleton_append, hread]
  congr 2
  rw [List.length_append, List.length_map, List.length_singleton]
  omega

/-- A field that has a value is a short numeral. -/
theorem exists_numeral_of_readValue {start : Nat} {t : Text} {f : Field}
    (h : readValue start t = .ok f) (hvalue : f.value ≠ .nan) :
    ∃ n : Numeral, n.Short ∧ t = n.text ++ f.rest := by
  obtain ⟨gs, last, ht, hlength, hword⟩ := exists_units_of_readDigits h hvalue
  rw [Nat.zero_add, Nat.pow_zero, Nat.mul_one] at hword
  refine ⟨⟨gs, last, hword⟩, ?_, ?_⟩
  · rw [Nat.zero_add] at hlength
    exact hlength
  · rw [ht, Numeral.text, List.append_assoc, List.singleton_append]

/-- A field that has no value starts with more continued digits than a short numeral has. -/
theorem exists_run_of_readValue {start : Nat} {t : Text} {f : Field} (h : readValue start t = .ok f)
    (hvalue : f.value = .nan) :
    ∃ run rest, t = run ++ rest ∧ (∀ u ∈ run, continues u = true) ∧ finitePlaces ≤ run.length := by
  obtain ⟨run, rest, ht, hrun, hlength⟩ := exists_run_of_readDigits h hvalue
  exact ⟨run, rest, ht, hrun, by rwa [Nat.zero_add] at hlength⟩

/-- Fields are read one after the other. -/
theorem readAll_of_readValue {start : Nat} {t : Text} {f : Field} (h : readValue start t = .ok f) :
    readAll start t = ⟨f :: (readAll f.stop f.rest).fields, (readAll f.stop f.rest).error⟩ := by
  have hne : t ≠ [] := List.ne_nil_of_length_pos (Nat.zero_lt_of_lt (readValue_length h))
  rw [readAll, if_neg hne]
  split
  · rename_i e he
    rw [h] at he
    cases he
  · rename_i f' hf
    rw [h] at hf
    obtain rfl := Except.ok.inj hf
    rfl

theorem values_eq_ok_iff {r : Reading} {xs : List Number} :
    r.values = .ok xs ↔ r.error = none ∧ r.fields.map Field.value = xs := by
  unfold Reading.values
  cases r.error with
  | none => simp
  | some e => simp

/-- **Short numerals one after the other are read as their numbers.** -/
theorem values_readAll_text {ns : List Numeral} (h : ∀ n ∈ ns, n.Short) (start : Nat) :
    (readAll start (ns.flatMap Numeral.text)).values =
      .ok (ns.map fun n => (n.value : Number)) := by
  rw [values_eq_ok_iff]
  induction ns generalizing start with
  | nil =>
    rw [List.flatMap_nil, readAll, if_pos rfl]
    exact ⟨rfl, rfl⟩
  | cons n ns ih =>
    obtain ⟨hn, hns⟩ := List.forall_mem_cons.mp h
    obtain ⟨herror, hvalues⟩ := ih hns (start + n.text.length)
    rw [List.flatMap_cons, readAll_of_readValue (readValue_text hn start _)]
    exact ⟨herror, by rw [List.map_cons, List.map_cons, hvalues]⟩

/-- **Fields that all have values are short numerals.** -/
theorem exists_numerals_of_readAll {start : Nat} {t : Text} (h : (readAll start t).error = none)
    (hvalues : ∀ f ∈ (readAll start t).fields, f.value ≠ .nan) :
    ∃ ns : List Numeral, (∀ n ∈ ns, n.Short) ∧ t = ns.flatMap Numeral.text := by
  fun_induction readAll start t with
  | case1 => exact ⟨[], by simp, rfl⟩
  | case2 => cases h
  | case3 start t hne f hf others ih =>
    obtain ⟨hvalue, hvalues⟩ := List.forall_mem_cons.mp hvalues
    obtain ⟨n, hn, ht⟩ := exists_numeral_of_readValue hf hvalue
    obtain ⟨ns, hns, hrest⟩ := ih h hvalues
    refine ⟨n :: ns, List.forall_mem_cons.mpr ⟨hn, hns⟩, ?_⟩
    rw [ht, List.flatMap_cons, ← hrest]

/-- A field without a value has a run of more continued digits than a short numeral has. -/
theorem exists_run_of_readAll {start : Nat} {t : Text} {f : Field}
    (hmem : f ∈ (readAll start t).fields) (hvalue : f.value = .nan) :
    ∃ run, run <:+: t ∧ (∀ u ∈ run, continues u = true) ∧ finitePlaces ≤ run.length := by
  fun_induction readAll start t with
  | case1 => cases hmem
  | case2 => cases hmem
  | case3 start t hne g hg others ih =>
    rcases List.mem_cons.mp hmem with rfl | hmem
    · obtain ⟨run, rest, rfl, hrun, hlength⟩ := exists_run_of_readValue hg hvalue
      exact ⟨run, (List.prefix_append run rest).isInfix, hrun, hlength⟩
    · obtain ⟨run, hinfix, hrun, hlength⟩ := ih hmem
      exact ⟨run, hinfix.trans (rest_suffix_of_readDigits hg).isInfix, hrun, hlength⟩

/-! ## Writing numerals -/

/-- The groups of a word's digits: those of its continued digits, and the last one. -/
def groupsOf (w : Nat) : List Group × Group :=
  if w < 32 then ([], Fin.ofNat 32 w)
  else (Fin.ofNat 32 w :: (groupsOf (w / 32)).1, (groupsOf (w / 32)).2)
termination_by w

/-- A word is that of its digits' groups. -/
theorem wordOf_groupsOf (w : Nat) : wordOf ((groupsOf w).1 ++ [(groupsOf w).2]) = w := by
  fun_induction groupsOf w with
  | case1 w hw =>
    rw [List.nil_append, wordOf_cons, wordOf_nil]
    show w % 32 + 32 * 0 = w
    omega
  | case2 w hw ih =>
    rw [List.cons_append, wordOf_cons, ih]
    show w % 32 + 32 * (w / 32) = w
    omega

theorem digits_eq (w : Nat) :
    (digits w).map Base64.unitOf =
      (groupsOf w).1.map continuedUnit ++ [lastUnit (groupsOf w).2] := by
  fun_induction groupsOf w with
  | case1 w hw =>
    rw [digits_of_lt hw]
    show [Base64.unitOf w] = [Base64.unitOf (w % 32)]
    rw [Nat.mod_eq_of_lt hw]
  | case2 w hw ih =>
    rw [digits_of_le (Nat.not_lt.mp hw), List.map_cons, ih]
    rfl

/-- A word with few places has few digits. -/
theorem length_groupsOf {k w : Nat} (h : w < 32 ^ (k + 1)) : (groupsOf w).1.length ≤ k := by
  induction k generalizing w with
  | zero =>
    rw [groupsOf, if_pos (by simpa using h)]
    exact Nat.le_refl 0
  | succ k ih =>
    rw [groupsOf]
    split
    · exact Nat.zero_le (k + 1)
    · rw [List.length_cons]
      apply Nat.succ_le_succ
      apply ih
      rw [Nat.div_lt_iff_lt_mul (by omega)]
      exact h

/-- Every word that is written has 32 bits. -/
theorem word_le (x : Number) : word x ≤ maxWord := by
  cases x with
  | finite q =>
    show 2 * (Number.truncate q).natAbs % 4294967296 + (if q.num < 0 then 1 else 0) ≤ 4294967295
    split <;> omega
  | posInf => exact Nat.zero_le _
  | negInf => exact Nat.le_of_ble_eq_true rfl
  | nan => exact Nat.zero_le _

namespace Numeral

/-- The numeral that is written for a number. -/
def ofNumber (x : Number) : Numeral where
  continued := (groupsOf (Vlq.word x)).1
  last := (groupsOf (Vlq.word x)).2
  word_le := by
    rw [wordOf_groupsOf]
    exact Vlq.word_le x

theorem text_ofNumber (x : Number) : (ofNumber x).text = encode x := (digits_eq (Vlq.word x)).symm

theorem word_ofNumber (x : Number) : (ofNumber x).word = Vlq.word x := wordOf_groupsOf (Vlq.word x)

/-- Numbers are written with seven digits at most. -/
theorem short_ofNumber (x : Number) : (ofNumber x).Short := by
  have hword : Vlq.word x < 32 ^ (6 + 1) := Nat.lt_of_le_of_lt (Vlq.word_le x) (by decide)
  exact Nat.lt_of_le_of_lt (length_groupsOf hword) (by decide)

/-- **What is written for an integer of 31 bits stands for that integer.** -/
theorem value_ofNumber {i : Int} (h : i.natAbs ≤ maxMagnitude) :
    (ofNumber (i : Number)).value = i := by
  unfold maxMagnitude at h
  rw [value, word_ofNumber]
  rcases Int.lt_or_le i 0 with hi | hi
  · have hword := word_neg_natCast (n := i.natAbs) (by unfold wordCount; omega) (by omega)
    rw [show (-(i.natAbs : Int) : Int) = i by omega] at hword
    rw [hword]
    split <;> omega
  · have hword := word_natCast (n := i.natAbs) (by unfold wordCount; omega)
    rw [← Number.intCast_natCast, show (i.natAbs : Int) = i by omega] at hword
    rw [hword]
    split <;> omega

/-- Only a negative number is written with a sign. -/
theorem value_ofNumber_nonneg {x : Number} (h : ¬ x < 0) : 0 ≤ (ofNumber x).value := by
  have heven : Vlq.word x % 2 = 0 := by
    cases x with
    | finite q =>
      have hq : ¬ q < 0 := fun hq => h (decide_eq_true hq)
      have hnum : ¬ q.num < 0 := fun hnum => hq (Rat.num_neg.mp hnum)
      show (2 * (Number.truncate q).natAbs % 4294967296 + (if q.num < 0 then 1 else 0)) % 2 = 0
      rw [if_neg hnum]
      omega
    | posInf => rfl
    | negInf => exact absurd rfl h
    | nan => rfl
  rw [value, word_ofNumber, heven, if_neg (by omega)]
  exact Int.natCast_nonneg _

end Numeral

end Provenance.Vlq
